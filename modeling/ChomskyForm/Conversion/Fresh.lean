import ChomskyForm.Grammar.Basic
import ChomskyForm.Conversion.Error

/-!
# Fresh nonterminals

A fresh nonterminal is the first letter of the pool that the grammar does not define. It is taken
by defining it, so a grammar can never define more than the 26 letters this way.
-/

namespace ChomskyForm.Grammar

def allocate (grammar : Grammar) : Except ConversionError Symbol :=
  match Symbol.pool.find? (· ∉ grammar.keys) with
  | some symbol => .ok symbol
  | none => .error .poolExhausted

/-- Takes a fresh nonterminal and gives it the productions. -/
def introduce (grammar : Grammar) (productions : List Production) :
    Except ConversionError (Symbol × Grammar) := do
  let symbol ← grammar.allocate
  return (symbol, grammar.addRule symbol productions)

theorem allocate_eq_ok {grammar : Grammar} {symbol : Symbol} (h : grammar.allocate = .ok symbol) :
    symbol.isNonterminal = true ∧ symbol ∉ grammar.keys := by
  unfold allocate at h
  split at h
  · rename_i found
    cases h
    exact ⟨Symbol.mem_pool.1 (List.mem_of_find?_eq_some found),
      by simpa using List.find?_some found⟩
  · cases h

end ChomskyForm.Grammar
