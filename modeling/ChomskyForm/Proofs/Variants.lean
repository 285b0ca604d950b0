import ChomskyForm.Grammar.Render
import ChomskyForm.Grammar.Samples
import ChomskyForm.Proofs.Unique
import Mathlib.Data.Finset.Image

/-!
# What epsilon elimination adds

An alternative gives way to all that is left of it when some of its positions are deleted. Different
sets of positions may leave the same production, and so may different alternatives, but each is
added once and only where it is missing. As a part of a part is a part, the result holds all its own
parts, and to expand it once more adds nothing.
-/

namespace ChomskyForm

namespace Production

variable {set : List Symbol} {production shorter : Production} {positions : Finset Nat}

/-- The production without the symbols at the positions. -/
def without (production : Production) (positions : Finset Nat) : Production :=
  (production.zipIdx.filter fun entry => entry.2 ∉ positions).map Prod.fst

/-- The positions behind the first one, counted from the second. -/
def behindFirst (positions : Finset Nat) : Finset Nat :=
  (positions.erase 0).image Nat.pred

theorem mem_behindFirst {position : Nat} :
    position ∈ behindFirst positions ↔ position + 1 ∈ positions := by
  rw [behindFirst, Finset.mem_image]
  constructor
  · rintro ⟨later, hlater, rfl⟩
    obtain ⟨hne, hmem⟩ := Finset.mem_erase.1 hlater
    rwa [Nat.pred_eq_sub_one, Nat.sub_add_cancel (Nat.one_le_iff_ne_zero.2 hne)]
  · intro hmem
    exact ⟨position + 1, Finset.mem_erase.2 ⟨Nat.succ_ne_zero position, hmem⟩, rfl⟩

theorem without_cons (symbol : Symbol) (production : Production) (positions : Finset Nat) :
    without (symbol :: production) positions =
      if 0 ∈ positions then production.without (behindFirst positions)
      else symbol :: production.without (behindFirst positions) := by
  have hrest : ((production.zipIdx 1).filter fun entry => entry.2 ∉ positions).map Prod.fst =
      production.without (behindFirst positions) := by
    rw [List.zipIdx_succ, List.filter_map, List.map_map, without]
    simp only [mem_behindFirst, Function.comp_def]
  rw [without, List.zipIdx_cons, List.filter_cons]
  by_cases hfirst : 0 ∈ positions
  · simp only [hfirst, not_true_eq_false, decide_false, Bool.false_eq_true, if_false, if_true]
    exact hrest
  · simp only [hfirst, not_false_eq_true, decide_true, if_true, if_false, List.map_cons]
    exact congrArg _ hrest

theorem behindFirst_image_succ (positions : Finset Nat) :
    behindFirst (positions.image Nat.succ) = positions := by
  ext position
  rw [mem_behindFirst, Finset.mem_image]
  exact ⟨fun ⟨_, hmem, heq⟩ => Nat.succ.inj heq ▸ hmem, fun hmem => ⟨position, hmem, rfl⟩⟩

/-- The positions hold symbols of the set. -/
def Holds (set : List Symbol) (production : Production) (positions : Finset Nat) : Prop :=
  ∀ position ∈ positions, ∃ symbol ∈ set, production[position]? = some symbol

theorem holds_cons_iff {symbol : Symbol} :
    Holds set (symbol :: production) positions ↔
      (0 ∈ positions → symbol ∈ set) ∧ Holds set production (behindFirst positions) := by
  constructor
  · intro h
    refine ⟨fun hfirst => ?_, fun position hposition => h _ (mem_behindFirst.1 hposition)⟩
    obtain ⟨held, hmem, hget⟩ := h 0 hfirst
    rwa [Option.some.inj hget]
  · rintro ⟨hfirst, hrest⟩ position hposition
    cases position with
    | zero => exact ⟨symbol, hfirst hposition, rfl⟩
    | succ position => exact hrest position (mem_behindFirst.2 hposition)

theorem deletes_iff_exists_positions :
    Deletes set production shorter ↔
      ∃ positions, Holds set production positions ∧ production.without positions = shorter := by
  induction production generalizing shorter with
  | nil =>
      constructor
      · intro h
        cases h
        exact ⟨∅, fun _ hposition => absurd hposition (Finset.notMem_empty _), rfl⟩
      · rintro ⟨positions, -, rfl⟩
        exact .nil
  | cons symbol production ih =>
      rw [deletes_cons_iff]
      constructor
      · rintro (⟨rest, rfl, hrest⟩ | ⟨hmem, hshorter⟩)
        · obtain ⟨positions, hholds, rfl⟩ := ih.1 hrest
          have hfirst : 0 ∉ positions.image Nat.succ := by simp
          refine ⟨positions.image Nat.succ, holds_cons_iff.2 ⟨fun h => absurd h hfirst, ?_⟩, ?_⟩
          · rwa [behindFirst_image_succ]
          · rw [without_cons, if_neg hfirst, behindFirst_image_succ]
        · obtain ⟨positions, hholds, rfl⟩ := ih.1 hshorter
          have hbehind : behindFirst (insert 0 (positions.image Nat.succ)) = positions := by
            rw [← behindFirst_image_succ positions]
            ext position
            simp [mem_behindFirst]
          refine ⟨insert 0 (positions.image Nat.succ), holds_cons_iff.2 ⟨fun _ => hmem, ?_⟩, ?_⟩
          · rwa [hbehind]
          · rw [without_cons, if_pos (Finset.mem_insert_self _ _), hbehind]
      · rintro ⟨positions, hholds, rfl⟩
        obtain ⟨hfirst, hrest⟩ := holds_cons_iff.1 hholds
        have hdeletes := ih.2 ⟨_, hrest, rfl⟩
        rw [without_cons]
        by_cases hzero : 0 ∈ positions
        · rw [if_pos hzero]
          exact .inr ⟨hfirst hzero, hdeletes⟩
        · rw [if_neg hzero]
          exact .inl ⟨_, rfl, hdeletes⟩

end Production

namespace Grammar

variable {grammar : Grammar} {set : List Symbol} {left : Symbol}

/-- The alternatives other than epsilon stay in front, and what comes behind them is new. -/
theorem exists_alternatives_removeEpsilon (grammar : Grammar) (set : List Symbol) (left : Symbol) :
    ∃ added, (grammar.removeEpsilon set).alternatives left =
        (grammar.alternatives left).filter (· ≠ []) ++ added ∧
      ∀ production ∈ added, production ∉ grammar.alternatives left := by
  by_cases hleft : left ∈ grammar.keys
  · rw [removeEpsilon, alternatives_mapAlternatives _ hleft, addAllNew_eq]
    refine ⟨_, rfl, fun production hadded hold => ?_⟩
    obtain ⟨hvariant, hnew⟩ := List.mem_filter.1 (List.mem_eraseDups.1 hadded)
    obtain ⟨longer, -, hmem⟩ := List.mem_flatMap.1 hvariant
    have hne : production ≠ [] := (Production.mem_variants.1 hmem).1
    exact of_decide_eq_true hnew (List.mem_filter.2 ⟨hold, decide_eq_true hne⟩)
  · have hleft' : left ∉ (grammar.removeEpsilon set).keys := by
      rwa [keys_removeEpsilon]
    refine ⟨[], ?_, fun production hadded => absurd hadded List.not_mem_nil⟩
    rw [alternatives_eq_nil hleft, alternatives_eq_nil hleft']
    rfl

theorem removeEpsilon_removeEpsilon (grammar : Grammar) (set : List Symbol) :
    (grammar.removeEpsilon set).removeEpsilon set = grammar.removeEpsilon set := by
  refine removeEpsilon_eq_self (fun left hnil => ne_nil_of_mem_removeEpsilon hnil rfl)
    fun left production hproduction shorter hne hdeletes => ?_
  obtain ⟨-, longer, hlonger, hlonger'⟩ := mem_alternatives_removeEpsilon.1 hproduction
  exact mem_alternatives_removeEpsilon.2 ⟨hne, longer, hlonger, hlonger'.trans hdeletes⟩

/-- **Variants.** The keys stay. In front of the alternatives of a key are those that it had, in
their order and without epsilon, and behind them new ones; none of them is there twice. They are
what is left, where something is left, of an alternative that it had after the deletion of a set of
positions that hold symbols of the given set, the empty set of positions included. To expand them
once more changes nothing. -/
theorem removeEpsilon_expands_exactly (h : grammar.Unique) (set : List Symbol) :
    (grammar.removeEpsilon set).keys = grammar.keys ∧
    (∀ left,
      (∃ added, (grammar.removeEpsilon set).alternatives left =
          (grammar.alternatives left).filter (· ≠ []) ++ added ∧
        ∀ production ∈ added, production ∉ grammar.alternatives left) ∧
      ((grammar.removeEpsilon set).alternatives left).Nodup ∧
      ∀ production, production ∈ (grammar.removeEpsilon set).alternatives left ↔
        production ≠ [] ∧ ∃ longer ∈ grammar.alternatives left, ∃ positions : Finset Nat,
          (∀ position ∈ positions, ∃ symbol ∈ set, longer[position]? = some symbol) ∧
            longer.without positions = production) ∧
    (grammar.removeEpsilon set).removeEpsilon set = grammar.removeEpsilon set := by
  refine ⟨keys_removeEpsilon, fun left => ⟨exists_alternatives_removeEpsilon grammar set left,
    h.removeEpsilon set left, fun production => ?_⟩, removeEpsilon_removeEpsilon grammar set⟩
  rw [mem_alternatives_removeEpsilon]
  simp only [Production.deletes_iff_exists_positions, Production.Holds]

/-- An alternative of which one part is left in two ways and another is an alternative already. -/
def overlappingParts : Grammar := sampleGrammar [('S', ["ABA", "$", "BA", "AA"]), ('A', ["a"])]

theorem removeEpsilon_expands_exactly_overlappingParts :
    overlappingParts.Unique ∧
    (overlappingParts.removeEpsilon [⟨'A', rfl⟩, ⟨'B', rfl⟩]).render =
      "A -> a\nS -> ABA | BA | AA | AB | A | B\n" ∧
    ((overlappingParts.removeEpsilon [⟨'A', rfl⟩, ⟨'B', rfl⟩]).alternatives ⟨'S', rfl⟩).Nodup ∧
    (∃ longer ∈ overlappingParts.alternatives ⟨'S', rfl⟩, ∃ positions : Finset Nat,
      (∀ position ∈ positions, ∃ symbol ∈ [⟨'A', rfl⟩, ⟨'B', rfl⟩],
        longer[position]? = some symbol) ∧
      longer.without positions = [⟨'A', rfl⟩, ⟨'B', rfl⟩]) ∧
    ((overlappingParts.removeEpsilon [⟨'A', rfl⟩, ⟨'B', rfl⟩]).removeEpsilon
      [⟨'A', rfl⟩, ⟨'B', rfl⟩]).render = "A -> a\nS -> ABA | BA | AA | AB | A | B\n" := by
  have hunique : overlappingParts.Unique := by decide
  have hrender : (overlappingParts.removeEpsilon [⟨'A', rfl⟩, ⟨'B', rfl⟩]).render =
      "A -> a\nS -> ABA | BA | AA | AB | A | B\n" := by
    decide +kernel
  have hpart : [⟨'A', rfl⟩, ⟨'B', rfl⟩] ∈
      (overlappingParts.removeEpsilon [⟨'A', rfl⟩, ⟨'B', rfl⟩]).alternatives ⟨'S', rfl⟩ := by
    decide +kernel
  obtain ⟨-, hright, hagain⟩ :=
    removeEpsilon_expands_exactly hunique [⟨'A', rfl⟩, ⟨'B', rfl⟩]
  obtain ⟨-, hnodup, hmem⟩ := hright ⟨'S', rfl⟩
  exact ⟨hunique, hrender, hnodup, ((hmem _).1 hpart).2, hagain ▸ hrender⟩

end Grammar

end ChomskyForm
