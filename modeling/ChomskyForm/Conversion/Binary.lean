import ChomskyForm.Conversion.Fresh

/-!
# Grammars whose productions have at most two symbols

A longer production becomes a chain: all but its first symbol go to a fresh nonterminal, after they
have been shortened in the same way. `A → BCDE` becomes `A → BY`, `Y → CX`, `X → DE`.
-/

namespace ChomskyForm.Grammar

/-- Shortens a production to two symbols by naming its ends, the shortest end first. -/
def shorten (grammar : Grammar) : Production → Except ConversionError (Production × Grammar)
  | first :: second :: third :: rest => do
      let (tail, extended) ← grammar.shorten (second :: third :: rest)
      let (fresh, grown) ← extended.introduce [tail]
      return ([first, fresh], grown)
  | short => .ok (short, grammar)

/-- Shortens the productions one after the other. -/
def shortenEach (grammar : Grammar) :
    List Production → Except ConversionError (List Production × Grammar)
  | [] => .ok ([], grammar)
  | production :: rest => do
      let (short, extended) ← grammar.shorten production
      let (others, grown) ← extended.shortenEach rest
      return (short :: others, grown)

/-- Shortens the alternatives of each of the given rules in place. -/
def shortenRules (grammar : Grammar) :
    List (Symbol × List Production) → Except ConversionError Grammar
  | [] => .ok grammar
  | (left, right) :: rest => do
      let (short, extended) ← grammar.shortenEach right
      (extended.setAlternatives left short).shortenRules rest

def binarize (grammar : Grammar) : Except ConversionError Grammar :=
  grammar.shortenRules grammar.rules.entries

end ChomskyForm.Grammar
