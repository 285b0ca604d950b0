import ChomskyForm.Symbol

/-!
# Productions

The right side of a rule is a list of symbols; the empty list is the epsilon production, which is
written as a lone `$`.
-/

namespace ChomskyForm

abbrev Production := List Symbol

instance : LawfulBEq Production := inferInstance

/-- The character that stands for the epsilon production. -/
def epsilonMark : Char := '$'

namespace Production

/-- The only symbol of a production that consists of one nonterminal. -/
def unitTarget? : Production → Option Symbol
  | [symbol] => if symbol.isNonterminal then some symbol else none
  | _ => none

def hasTerminal (production : Production) : Bool := production.any Symbol.isTerminal

def text : Production → List Char
  | [] => [epsilonMark]
  | production => production.map Symbol.char

def render (production : Production) : String := String.ofList production.text

end Production

end ChomskyForm
