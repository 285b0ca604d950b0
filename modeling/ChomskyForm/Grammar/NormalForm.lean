import ChomskyForm.Grammar.Basic

/-!
# Chomsky Normal Form

Every right side is one terminal or two nonterminals. The start symbol alone may have the epsilon
production, and only where it occurs on no right side.
-/

namespace ChomskyForm.Grammar

/-- The start symbol occurs on a right side. -/
def startOnRight (grammar : Grammar) : Bool :=
  grammar.rightSides.any fun production => grammar.start?.any (· ∈ production)

/-- The shapes that the normal form allows to an alternative of a symbol. -/
def allows (grammar : Grammar) (left : Symbol) : Production → Bool
  | [] => grammar.start? = some left && !grammar.startOnRight
  | [symbol] => symbol.isTerminal
  | [first, second] => first.isNonterminal && second.isNonterminal
  | _ => false

def isChomskyNormalForm (grammar : Grammar) : Bool :=
  grammar.rules.entries.all fun (left, right) => right.all (grammar.allows left)

end ChomskyForm.Grammar
