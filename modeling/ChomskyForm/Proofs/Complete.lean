import ChomskyForm.Conversion.Stages
import ChomskyForm.Proofs.Rules

/-!
# The check before a conversion

A conversion starts only on a closed grammar with at least one rule. Of several undefined
nonterminals, the one reported is the first in the order of the keys, their alternatives and the
positions in these.
-/

namespace ChomskyForm

theorem head?_addAllNew_cons {α : Type} [DecidableEq α] (first : α) (list items : List α) :
    (addAllNew (first :: list) items).head? = some first := by
  induction items generalizing list with
  | nil => rfl
  | cons item items ih =>
      rw [addAllNew_cons, addNew]
      split
      · exact ih list
      · exact ih (list ++ [item])

theorem head?_addAllNew_nil {α : Type} [DecidableEq α] (items : List α) :
    (addAllNew [] items).head? = items.head? := by
  cases items with
  | nil => rfl
  | cons item items => exact head?_addAllNew_cons item [] items

namespace Grammar

variable {grammar : Grammar} {left symbol referrer : Symbol}

/-- The symbols on right sides in order, each after the key whose alternative it stands in. -/
def uses (grammar : Grammar) : List (Symbol × Symbol) :=
  grammar.keys.flatMap fun left => (grammar.alternatives left).flatten.map (left, ·)

/-- The symbol used is a nonterminal without rules. -/
def isUndefined (grammar : Grammar) (use : Symbol × Symbol) : Bool :=
  use.2.isNonterminal && decide (use.2 ∉ grammar.keys)

theorem isUndefined_iff {use : Symbol × Symbol} :
    grammar.isUndefined use = true ↔ use.2.isNonterminal = true ∧ use.2 ∉ grammar.keys := by
  rw [isUndefined, Bool.and_eq_true_iff, decide_eq_true_iff]

theorem mem_uses :
    (left, symbol) ∈ grammar.uses ↔
      ∃ production ∈ grammar.alternatives left, symbol ∈ production := by
  simp only [uses, List.mem_flatMap, List.mem_map, List.mem_flatten, Prod.mk.injEq]
  constructor
  · rintro ⟨_, -, _, hused, rfl, rfl⟩
    exact hused
  · rintro ⟨production, hproduction, hsymbol⟩
    exact ⟨left, mem_keys_of_mem_alternatives hproduction, symbol,
      ⟨production, hproduction, hsymbol⟩, rfl, rfl⟩

theorem undefinedReferences_eq :
    grammar.undefinedReferences = addAllNew [] (grammar.uses.filter grammar.isUndefined) := by
  have hrow : ∀ left (symbols : List Symbol),
      (symbols.filterMap fun symbol =>
        if symbol.isNonterminal ∧ symbol ∉ grammar.keys then some (left, symbol) else none) =
      (symbols.map (left, ·)).filter grammar.isUndefined := by
    intro left symbols
    rw [List.filter_map, ← List.filterMap_eq_filter, List.map_filterMap]
    apply List.filterMap_congr
    intro symbol _
    by_cases h : grammar.isUndefined (left, symbol) = true
    · simp [h, isUndefined_iff.1 h]
    · have hdefined := mt isUndefined_iff.2 h
      rw [if_neg hdefined]
      simp [Option.guard, h]
  rw [undefinedReferences, entries_eq, List.flatMap_map, uses, List.filter_flatMap]
  simp only [hrow]

theorem head?_undefinedReferences :
    grammar.undefinedReferences.head? = grammar.uses.find? grammar.isUndefined := by
  rw [undefinedReferences_eq, head?_addAllNew_nil, List.head?_filter]

theorem exists_find?_eq_some_iff :
    (∃ symbol referrer, grammar.uses.find? grammar.isUndefined = some (referrer, symbol)) ↔
      ∃ production ∈ grammar.rightSides, ∃ symbol ∈ production,
        symbol.isNonterminal = true ∧ symbol ∉ grammar.keys := by
  constructor
  · rintro ⟨symbol, referrer, hfind⟩
    obtain ⟨production, hproduction, hsymbol⟩ := mem_uses.1 (List.mem_of_find?_eq_some hfind)
    exact ⟨production, mem_rightSides.2 ⟨referrer, hproduction⟩, symbol, hsymbol,
      isUndefined_iff.1 (List.find?_some hfind)⟩
  · rintro ⟨production, hproduction, symbol, hsymbol, hundefined⟩
    obtain ⟨left, hleft⟩ := mem_rightSides.1 hproduction
    have hmem : (left, symbol) ∈ grammar.uses := mem_uses.2 ⟨production, hleft, hsymbol⟩
    have hsome : (grammar.uses.find? grammar.isUndefined).isSome = true :=
      List.find?_isSome.2 ⟨_, hmem, isUndefined_iff.2 hundefined⟩
    obtain ⟨⟨referrer, first⟩, hfind⟩ := Option.isSome_iff_exists.1 hsome
    exact ⟨first, referrer, hfind⟩

theorem closed_iff_find?_eq_none :
    grammar.Closed ↔ grammar.uses.find? grammar.isUndefined = none := by
  rw [List.find?_eq_none]
  constructor
  · rintro hclosed ⟨left, symbol⟩ hmem hundefined
    obtain ⟨production, hproduction, hsymbol⟩ := mem_uses.1 hmem
    obtain ⟨hnonterminal, habsent⟩ := isUndefined_iff.1 hundefined
    exact habsent (hclosed left production hproduction symbol hsymbol hnonterminal)
  · intro hnone left production hproduction symbol hsymbol hnonterminal
    by_contra habsent
    have hmem : (left, symbol) ∈ grammar.uses := mem_uses.2 ⟨production, hproduction, hsymbol⟩
    exact hnone _ hmem (isUndefined_iff.2 ⟨hnonterminal, habsent⟩)

instance : Decidable grammar.Closed := decidable_of_iff _ closed_iff_find?_eq_none.symm

theorem checkComplete_of_keys_eq_nil (h : grammar.keys = []) :
    grammar.checkComplete = .error .emptyGrammar := if_pos h

theorem checkComplete_of_undefined (hne : grammar.keys ≠ [])
    (h : grammar.uses.find? grammar.isUndefined = some (referrer, symbol)) :
    grammar.checkComplete = .error (.undefinedNonterminal symbol referrer) := by
  rw [checkComplete, if_neg hne, head?_undefinedReferences, h]

theorem checkComplete_of_closed (hne : grammar.keys ≠ []) (h : grammar.Closed) :
    grammar.checkComplete = .ok () := by
  rw [checkComplete, if_neg hne, head?_undefinedReferences, closed_iff_find?_eq_none.1 h]

theorem checkComplete_eq_ok_iff :
    grammar.checkComplete = .ok () ↔ grammar.keys ≠ [] ∧ grammar.Closed := by
  constructor
  · intro h
    have hne : grammar.keys ≠ [] := fun hnil => by
      rw [checkComplete_of_keys_eq_nil hnil] at h
      cases h
    refine ⟨hne, closed_iff_find?_eq_none.2 (Option.eq_none_iff_forall_ne_some.2 ?_)⟩
    rintro ⟨referrer, symbol⟩ hfound
    rw [checkComplete_of_undefined hne hfound] at h
    cases h
  · exact fun h => checkComplete_of_closed h.1 h.2

end Grammar

end ChomskyForm
