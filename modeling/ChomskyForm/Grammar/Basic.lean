import ChomskyForm.Production
import ChomskyForm.Distinct
import ChomskyForm.OrderedMap

/-!
# Grammars

A context-free grammar binds symbols to lists of alternatives and may name a start symbol. The
order in which symbols were first bound and the order of the alternatives both belong to it.
-/

namespace ChomskyForm

/-- The alternatives of each defined symbol, and the start symbol where one was chosen. -/
structure Grammar where
  rules : OrderedMap Symbol (List Production) := .empty
  chosenStart : Option Symbol := none
deriving DecidableEq

namespace Grammar

def keys (grammar : Grammar) : List Symbol := grammar.rules.keys

/-- The chosen start symbol, or else the symbol that was defined first. -/
def start? (grammar : Grammar) : Option Symbol := grammar.chosenStart.or grammar.keys.head?

/-- An undefined symbol has no alternatives. -/
def alternatives (grammar : Grammar) (left : Symbol) : List Production :=
  (grammar.rules.get? left).getD []

/-- The right sides of all rules, in order. -/
def rightSides (grammar : Grammar) : List Production := grammar.rules.entries.flatMap Prod.snd

/-- Defines the symbol if need be, then gives it each production that it does not have yet. -/
def addRule (grammar : Grammar) (left : Symbol) (productions : List Production) : Grammar :=
  let extend (right : Option (List Production)) := addAllNew (right.getD []) productions
  { grammar with rules := grammar.rules.update left extend }

def declare (grammar : Grammar) (left : Symbol) : Grammar := grammar.addRule left []

def addProduction (grammar : Grammar) (left : Symbol) (production : Production) : Grammar :=
  grammar.addRule left [production]

def setAlternatives (grammar : Grammar) (left : Symbol) (right : List Production) : Grammar :=
  { grammar with rules := grammar.rules.insert left right }

def setStart (grammar : Grammar) (start : Symbol) : Grammar :=
  { grammar with chosenStart := some start }

/-- Changes the alternatives of every defined symbol where they stand. -/
def mapAlternatives (grammar : Grammar) (change : Symbol → List Production → List Production) :
    Grammar :=
  { grammar with rules := grammar.rules.mapValues change }

/-- Each nonterminal that is used but not defined, after the symbol that uses it. -/
def undefinedReferences (grammar : Grammar) : List (Symbol × Symbol) :=
  addAllNew [] <| grammar.rules.entries.flatMap fun (left, right) =>
    right.flatten.filterMap fun symbol =>
      if symbol.isNonterminal ∧ symbol ∉ grammar.keys then some (left, symbol) else none

/-- The same rules in whatever order of definition, and the same choice of a start symbol. -/
def SameRules (first second : Grammar) : Prop :=
  first.rules.SameBindings second.rules ∧ first.chosenStart = second.chosenStart

instance (first second : Grammar) : Decidable (first.SameRules second) := by
  unfold SameRules
  infer_instance

theorem keys_addRule (grammar : Grammar) (left : Symbol) (productions : List Production) :
    (grammar.addRule left productions).keys =
      if left ∈ grammar.keys then grammar.keys else grammar.keys ++ [left] :=
  grammar.rules.keys_update left _

theorem alternatives_addRule (grammar : Grammar) (left : Symbol) (productions : List Production)
    (symbol : Symbol) :
    (grammar.addRule left productions).alternatives symbol =
      if symbol = left then addAllNew (grammar.alternatives left) productions
      else grammar.alternatives symbol := by
  unfold alternatives addRule
  rw [OrderedMap.get?_update]
  split <;> rfl

theorem keys_setAlternatives (grammar : Grammar) (left : Symbol) (right : List Production) :
    (grammar.setAlternatives left right).keys =
      if left ∈ grammar.keys then grammar.keys else grammar.keys ++ [left] :=
  grammar.rules.keys_insert left right

theorem alternatives_setAlternatives (grammar : Grammar) (left : Symbol) (right : List Production)
    (symbol : Symbol) :
    (grammar.setAlternatives left right).alternatives symbol =
      if symbol = left then right else grammar.alternatives symbol := by
  unfold alternatives setAlternatives
  rw [OrderedMap.get?_insert]
  split <;> rfl

@[simp]
theorem keys_mapAlternatives (grammar : Grammar)
    (change : Symbol → List Production → List Production) :
    (grammar.mapAlternatives change).keys = grammar.keys :=
  grammar.rules.keys_mapValues change

theorem alternatives_mapAlternatives {grammar : Grammar}
    (change : Symbol → List Production → List Production) {left : Symbol}
    (h : left ∈ grammar.keys) :
    (grammar.mapAlternatives change).alternatives left =
      change left (grammar.alternatives left) := by
  unfold alternatives mapAlternatives
  rw [OrderedMap.get?_mapValues]
  cases hget : grammar.rules.get? left with
  | none => exact absurd h (OrderedMap.get?_eq_none_iff.1 hget)
  | some right => rfl

theorem alternatives_eq_nil {grammar : Grammar} {left : Symbol} (h : left ∉ grammar.keys) :
    grammar.alternatives left = [] := by
  unfold alternatives
  rw [OrderedMap.get?_eq_none_iff.2 h]
  rfl

end Grammar

end ChomskyForm
