import ChomskyForm.Grammar.Basic

/-!
# The written form of a grammar

One line for each defined symbol, in ascending order of the symbols: `A -> x | y`, or a bare `A ->`
for a symbol without alternatives.
-/

namespace ChomskyForm.Grammar

/-- The defined symbols in ascending order. -/
def sortedKeys (grammar : Grammar) : List Symbol := Symbol.all.filter (· ∈ grammar.keys)

/-- The line `left -> x | y` for the given right sides, without its line break. -/
def ruleText (left : Symbol) (right : List Production) : List Char :=
  left.char :: ' ' :: '-' :: '>' :: [' ', '|'].intercalate (right.map fun p => ' ' :: p.text)

def text (grammar : Grammar) : List Char :=
  grammar.sortedKeys.flatMap fun left => ruleText left (grammar.alternatives left) ++ ['\n']

def renderRule (grammar : Grammar) (left : Symbol) : String :=
  String.ofList (ruleText left (grammar.alternatives left))

def render (grammar : Grammar) : String := String.ofList grammar.text

end ChomskyForm.Grammar
