import ChomskyForm.Grammar.Basic

/-!
# Derivations

`Derives grammar form word` says that the sentential form becomes the terminal word when each of
its nonterminals is replaced by one of its alternatives, and so on. `Generates` is the case of a
single nonterminal: it gives the language of each symbol.
-/

namespace ChomskyForm.Grammar

/-- Terminals stand for themselves and nonterminals for what their alternatives derive. -/
inductive Derives (grammar : Grammar) : List Symbol → List Symbol → Prop
  | nil : Derives grammar [] []
  | terminal {symbol : Symbol} {form word : List Symbol} (isTerminal : symbol.isTerminal = true)
      (rest : Derives grammar form word) : Derives grammar (symbol :: form) (symbol :: word)
  | nonterminal {symbol : Symbol} {production form word₁ word₂ : List Symbol}
      (isNonterminal : symbol.isNonterminal = true)
      (isAlternative : production ∈ grammar.alternatives symbol)
      (inner : Derives grammar production word₁) (rest : Derives grammar form word₂) :
      Derives grammar (symbol :: form) (word₁ ++ word₂)

/-- The symbol derives the word. -/
def Generates (grammar : Grammar) (symbol : Symbol) (word : List Symbol) : Prop :=
  Derives grammar [symbol] word

end ChomskyForm.Grammar
