import ChomskyForm.Grammar.Samples
import ChomskyForm.Proofs.Binary
import ChomskyForm.Proofs.Complete
import ChomskyForm.Proofs.EpsilonFree
import ChomskyForm.Proofs.Isolated
import ChomskyForm.Proofs.UnitFree

/-!
# What a successful conversion has done

A conversion succeeds only on a closed grammar with at least one rule, and then each of its grammars
comes from the one before by the change of that stage.
-/

namespace ChomskyForm.Grammar

variable {grammar : Grammar} {keepEmptyStart : Bool}

/-! ### Epsilon productions -/

/-- The conversion keeps the empty word by an empty start. -/
def NeedsEmptyStart (grammar : Grammar) (keepEmptyStart : Bool) : Prop :=
  keepEmptyStart = true ∧ ∃ start, grammar.start? = some start ∧ start ∈ grammar.nullable

theorem needsEmptyStart_iff :
    grammar.NeedsEmptyStart keepEmptyStart ↔
      keepEmptyStart = true ∧ grammar.start?.any (· ∈ grammar.nullable) = true := by
  unfold NeedsEmptyStart
  cases grammar.start? <;> simp

instance : Decidable (grammar.NeedsEmptyStart keepEmptyStart) :=
  decidable_of_iff _ needsEmptyStart_iff.symm

theorem not_needsEmptyStart_false : ¬grammar.NeedsEmptyStart false := fun h => by cases h.1

/-- The grammar without its epsilon productions. -/
abbrev reduced (grammar : Grammar) : Grammar := grammar.removeEpsilon grammar.nullable

theorem free_reduced : grammar.reduced.free = grammar.free := by
  rw [free, free, keys_removeEpsilon]

theorem start?_reduced : grammar.reduced.start? = grammar.start? := by
  rw [start?, start?, keys_removeEpsilon, chosenStart_removeEpsilon]

theorem notMem_keys_reduced {fresh : Symbol} (h : fresh ∈ grammar.free) :
    fresh ∉ grammar.reduced.keys := by
  rw [keys_removeEpsilon]
  exact (mem_free.1 h).2

theorem mem_keys_reduced {start : Symbol} (h : start ∈ grammar.nullable) :
    start ∈ grammar.reduced.keys := by
  rw [keys_removeEpsilon]
  exact mem_keys_of_mem_nullable h

theorem toEpsilonFree_of_not (h : ¬grammar.NeedsEmptyStart keepEmptyStart) :
    grammar.toEpsilonFree keepEmptyStart = .ok grammar.reduced := by
  rw [needsEmptyStart_iff] at h
  simp only [toEpsilonFree, if_neg h]

theorem toEpsilonFree_of_free_nil (h : grammar.NeedsEmptyStart keepEmptyStart)
    (hfree : grammar.free = []) :
    grammar.toEpsilonFree keepEmptyStart = .error .poolExhausted := by
  obtain ⟨start, hstart, -⟩ := h.2
  have hadd := addEmptyStart_of_free_nil (start?_reduced.trans hstart) (free_reduced.trans hfree)
  rw [needsEmptyStart_iff] at h
  simp only [toEpsilonFree, if_pos h, hadd]
  rfl

theorem toEpsilonFree_of_free_cons (h : grammar.NeedsEmptyStart keepEmptyStart) {start : Symbol}
    (hstart : grammar.start? = some start) {fresh : Symbol} {rest : List Symbol}
    (hfree : grammar.free = fresh :: rest) :
    grammar.toEpsilonFree keepEmptyStart = .ok (grammar.reduced.withEmptyStart start fresh) := by
  have hadd := addEmptyStart_of_free_cons (start?_reduced.trans hstart) (free_reduced.trans hfree)
  rw [needsEmptyStart_iff] at h
  simp only [toEpsilonFree, if_pos h, hadd]
  rfl

/-- The two ways to a grammar without epsilon productions, or with one on an empty start. -/
theorem toEpsilonFree_eq_ok {result : Grammar}
    (h : grammar.toEpsilonFree keepEmptyStart = .ok result) :
    (¬grammar.NeedsEmptyStart keepEmptyStart ∧ result = grammar.reduced) ∨
      grammar.NeedsEmptyStart keepEmptyStart ∧ ∃ start fresh,
        grammar.start? = some start ∧ start ∈ grammar.nullable ∧ fresh ∈ grammar.free ∧
          result = grammar.reduced.withEmptyStart start fresh := by
  by_cases hneeds : grammar.NeedsEmptyStart keepEmptyStart
  · obtain ⟨start, hstart, hnullable⟩ := hneeds.2
    cases hfree : grammar.free with
    | nil =>
        rw [toEpsilonFree_of_free_nil hneeds hfree] at h
        cases h
    | cons fresh rest =>
        rw [toEpsilonFree_of_free_cons hneeds hstart hfree] at h
        cases h
        exact .inr ⟨hneeds, start, fresh, hstart, hnullable, List.mem_cons_self, rfl⟩
  · rw [toEpsilonFree_of_not hneeds] at h
    cases h
    exact .inl ⟨hneeds, rfl⟩

/-- An empty start takes one letter. -/
def emptyStartCost (grammar : Grammar) (keepEmptyStart : Bool) : Nat :=
  if grammar.NeedsEmptyStart keepEmptyStart then 1 else 0

/-- The keys stay, and an empty start comes after them. -/
theorem keys_toEpsilonFree {result : Grammar}
    (h : grammar.toEpsilonFree keepEmptyStart = .ok result) :
    ∃ added, result.keys = grammar.keys ++ added ∧
      added.length = grammar.emptyStartCost keepEmptyStart ∧
      ∀ symbol ∈ added, symbol ∈ grammar.free := by
  rw [emptyStartCost]
  rcases toEpsilonFree_eq_ok h with ⟨hno, rfl⟩ | ⟨hneeds, start, fresh, -, -, hfree, rfl⟩
  · refine ⟨[], ?_, ?_, by simp⟩
    · rw [keys_removeEpsilon, List.append_nil]
    · rw [if_neg hno]
      rfl
  · refine ⟨[fresh], ?_, ?_, ?_⟩
    · rw [keys_withEmptyStart (notMem_keys_reduced hfree), keys_removeEpsilon]
    · rw [if_pos hneeds]
      rfl
    · intro symbol hsymbol
      rw [List.mem_singleton.1 hsymbol]
      exact hfree

/-! ### The stages -/

/-- How the grammars of a successful conversion come from each other. -/
structure Conversion (grammar : Grammar) (keepEmptyStart : Bool) (stages : Stages) : Prop where
  keys_ne_nil : grammar.keys ≠ []
  closed : grammar.Closed
  initial : stages.initial = grammar
  epsilonFree : grammar.toEpsilonFree keepEmptyStart = .ok stages.epsilonFree
  unitFree : stages.unitFree = stages.epsilonFree.removeUnits
  isolated : stages.unitFree.isolateTerminals .empty = (stages.mapping, .ok stages.isolated)
  binary : stages.isolated.binarize = .ok stages.binary

theorem conversion_of_ok {stages : Stages} (h : grammar.convert keepEmptyStart = .ok stages) :
    Conversion grammar keepEmptyStart stages := by
  unfold convert at h
  cases hcheck : grammar.checkComplete with
  | error fault =>
      rw [hcheck] at h
      cases h
  | ok =>
      obtain ⟨hkeys, hclosed⟩ := checkComplete_eq_ok_iff.1 hcheck
      cases hepsilon : grammar.toEpsilonFree keepEmptyStart with
      | error fault =>
          rw [hcheck, hepsilon] at h
          cases h
      | ok epsilonFree =>
          rw [hcheck, hepsilon] at h
          simp only [bind, Except.bind] at h
          cases hisolated : (epsilonFree.removeUnits.isolateTerminals .empty).2 with
          | error fault =>
              rw [hisolated] at h
              cases h
          | ok isolated =>
              rw [hisolated] at h
              simp only at h
              cases hbinary : isolated.binarize with
              | error fault =>
                  rw [hbinary] at h
                  cases h
              | ok binary =>
                  rw [hbinary] at h
                  cases h
                  exact ⟨hkeys, hclosed, rfl, hepsilon, rfl, Prod.ext rfl hisolated, hbinary⟩

namespace Conversion

variable {stages : Stages}

theorem epsilonFree_closed (h : Conversion grammar keepEmptyStart stages) :
    stages.epsilonFree.Closed := by
  rcases toEpsilonFree_eq_ok h.epsilonFree with ⟨-, heq⟩ | ⟨-, start, fresh, -, hnullable,
    hfree, heq⟩
  · rw [heq]
    exact h.closed.removeEpsilon
  · rw [heq]
    exact h.closed.removeEpsilon.withEmptyStart (notMem_keys_reduced hfree)
      (mem_keys_reduced hnullable)

theorem keys_subset (h : Conversion grammar keepEmptyStart stages) :
    grammar.keys ⊆ stages.epsilonFree.keys := by
  obtain ⟨added, hkeys, -⟩ := keys_toEpsilonFree h.epsilonFree
  rw [hkeys]
  exact List.subset_append_left _ _

theorem keys_unitFree (h : Conversion grammar keepEmptyStart stages) :
    stages.unitFree.keys = stages.epsilonFree.keys := by
  rw [h.unitFree, keys_removeUnits]

theorem start?_unitFree (h : Conversion grammar keepEmptyStart stages) :
    stages.unitFree.start? = stages.epsilonFree.start? := by
  rw [start?, start?, h.keys_unitFree, h.unitFree, chosenStart_removeUnits]

theorem unitFree_closed (h : Conversion grammar keepEmptyStart stages) :
    stages.unitFree.Closed := by
  rw [h.unitFree]
  exact h.epsilonFree_closed.removeUnits

theorem exists_isolation (h : Conversion grammar keepEmptyStart stages) :
    ∃ middle, Isolation stages.unitFree .empty (newItems [] stages.unitFree.longTerminals).length
      middle stages.mapping ∧ stages.isolated = middle.isolateAll stages.mapping :=
  isolation_of_ok (realizes_empty _) h.isolated

theorem grows_isolated (h : Conversion grammar keepEmptyStart stages) :
    Grows stages.unitFree (newItems [] stages.unitFree.longTerminals).length stages.isolated := by
  obtain ⟨middle, hisolation, heq⟩ := h.exists_isolation
  rw [heq]
  exact hisolation.grows_isolateAll

theorem isolated_closed (h : Conversion grammar keepEmptyStart stages) :
    stages.isolated.Closed := by
  obtain ⟨middle, hisolation, heq⟩ := h.exists_isolation
  rw [heq]
  exact hisolation.closed_isolateAll h.unitFree_closed

theorem binarization (h : Conversion grammar keepEmptyStart stages) :
    Binarization stages.isolated stages.binary :=
  binarization_of_ok h.binary

theorem start?_binary (h : Conversion grammar keepEmptyStart stages) :
    stages.binary.start? = stages.epsilonFree.start? := by
  have hunitFree : stages.unitFree.keys ≠ [] := by
    rw [h.keys_unitFree]
    exact fun hnil => h.keys_ne_nil (List.subset_nil.1 (hnil ▸ h.keys_subset))
  have hisolated : stages.isolated.keys ≠ [] := by
    rw [h.grows_isolated.keys_eq]
    exact List.append_ne_nil_of_left_ne_nil hunitFree _
  calc stages.binary.start?
      = stages.isolated.start? := h.binarization.start?_eq hisolated
    _ = stages.unitFree.start? := h.grows_isolated.start?_eq hunitFree
    _ = stages.epsilonFree.start? := h.start?_unitFree

/-- The stages after the first keep the words of every key. -/
theorem generates_binary_iff (h : Conversion grammar keepEmptyStart stages) {symbol : Symbol}
    (hsymbol : symbol ∈ stages.epsilonFree.keys) {word : List Symbol} :
    stages.binary.Generates symbol word ↔ stages.epsilonFree.Generates symbol word := by
  obtain ⟨middle, hisolation, heq⟩ := h.exists_isolation
  have hunitFree : symbol ∈ stages.unitFree.keys := by
    rw [h.keys_unitFree]
    exact hsymbol
  calc stages.binary.Generates symbol word
      ↔ stages.isolated.Generates symbol word :=
        h.binarization.generates_iff h.isolated_closed (h.grows_isolated.mem_keys hunitFree)
    _ ↔ stages.unitFree.Generates symbol word := by
        rw [heq]
        exact hisolation.generates_isolateAll_iff h.unitFree_closed hunitFree
    _ ↔ stages.epsilonFree.Generates symbol word := by
        rw [h.unitFree]
        exact generates_removeUnits_iff

end Conversion

theorem exists_convert_nestedPairs : ∃ stages, nestedPairs.convert true = .ok stages := by
  have hok : (nestedPairs.convert true).isOk = true := by decide +kernel
  cases h : nestedPairs.convert true with
  | error fault =>
      rw [h] at hok
      cases hok
  | ok stages => exact ⟨stages, rfl⟩

end ChomskyForm.Grammar
