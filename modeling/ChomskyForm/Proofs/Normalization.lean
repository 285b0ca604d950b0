import ChomskyForm.Proofs.NormalForm
import ChomskyForm.Proofs.Stages
import Mathlib.Algebra.BigOperators.Group.List.Basic

/-!
# A conversion ends in normal form

Isolation and binarization leave alternatives of at most two symbols, terminals only where they
stand alone. Unit removal has taken the lone nonterminals before, and neither stage brings one back.

The only epsilon production is that of an empty start. The symbol was fresh when it was introduced,
so no right side used it, and no later stage can change that: unit chains never lead to it, and the
letters of isolated terminals and of pairs are taken from those still free.
-/

namespace ChomskyForm

theorem count_addAllNew {α : Type} [DecidableEq α] [BEq α] [LawfulBEq α] {list : List α} {x : α}
    (hx : x ∈ list) (items : List α) : (addAllNew list items).count x = list.count x := by
  induction items generalizing list with
  | nil => rfl
  | cons item items ih =>
      rw [addAllNew_cons, ih (mem_addNew.2 (.inl hx)), addNew]
      split
      · rfl
      · rename_i habsent
        have hne : x ≠ item := fun heq => habsent (heq ▸ hx)
        rw [List.count_append, List.count_singleton, if_neg (by simpa using hne.symm), Nat.add_zero]

namespace Grammar

open Relation

variable {grammar result : Grammar} {keepEmptyStart : Bool} {stages : Stages}
  {left start fresh : Symbol} {production : Production}

/-! ### Epsilon productions through the stages -/

theorem exists_nil_of_removeUnits (h : [] ∈ grammar.removeUnits.alternatives left) :
    ∃ source, ReflTransGen grammar.UnitStep left source ∧ [] ∈ grammar.alternatives source :=
  (mem_alternatives_removeUnits.1 h).2

theorem isolate_eq_nil_iff {mapping : TerminalMapping} :
    production.isolate mapping = [] ↔ production = [] := by
  rw [← List.length_eq_zero_iff, length_isolate, List.length_eq_zero_iff]

theorem Isolation.nil_mem {mapping extended : TerminalMapping} {count : Nat} {middle : Grammar}
    (h : Isolation grammar mapping count middle extended)
    (hmem : [] ∈ (middle.isolateAll extended).alternatives left) :
    [] ∈ grammar.alternatives left := by
  obtain ⟨source, hsource, heq⟩ | ⟨terminal, -, heq⟩ := h.mem_alternatives_isolateAll hmem
  · rw [← isolate_eq_nil_iff.1 heq.symm]
    exact hsource
  · cases heq

theorem Unfolds.eq_nil_iff {old : List Symbol} {short : Production}
    (h : grammar.Unfolds old short production) : short = [] ↔ production = [] := by
  cases h with
  | short => rfl
  | chain => simp

theorem Binarization.nil_mem (h : Binarization grammar result)
    (hmem : [] ∈ result.alternatives left) : [] ∈ grammar.alternatives left := by
  obtain ⟨hold, -⟩ | ⟨first, second, heq, -⟩ := h.mem_alternatives hmem
  · exact hold
  · cases heq

/-! ### The empty start -/

/-- The start symbol has the one epsilon production of the grammar and is on no right side. -/
structure EmptyStart (grammar : Grammar) (start : Symbol) : Prop where
  start?_eq : grammar.start? = some start
  isNonterminal : start.isNonterminal = true
  unused : ∀ left, ∀ production ∈ grammar.alternatives left, start ∉ production
  only : ∀ left, [] ∈ grammar.alternatives left → left = start
  once : (grammar.alternatives start).count [] = 1

namespace EmptyStart

theorem nil_mem (h : grammar.EmptyStart start) : [] ∈ grammar.alternatives start :=
  List.count_pos_iff.1 (Nat.lt_of_lt_of_eq Nat.zero_lt_one h.once.symm)

theorem mem_keys (h : grammar.EmptyStart start) : start ∈ grammar.keys :=
  mem_keys_of_mem_alternatives h.nil_mem

theorem count_rightSides (h : grammar.EmptyStart start) : grammar.rightSides.count [] = 1 := by
  have hothers : ∀ left, left ≠ start → left ∈ grammar.keys →
      (grammar.alternatives left).count [] = 0 := fun left hne _ =>
    List.count_eq_zero.2 fun hmem => hne (h.only left hmem)
  rw [rightSides_eq, List.count_flatMap]
  calc (grammar.keys.map (List.count [] ∘ grammar.alternatives)).sum
      = grammar.keys.count start • (grammar.alternatives start).count [] :=
        List.sum_map_eq_nsmul_single start _ hothers
    _ = 1 := by rw [List.count_eq_one_of_mem grammar.nodup_keys h.mem_keys, h.once, one_nsmul]

theorem withEmptyStart (hclosed : grammar.Closed)
    (hepsilon : ∀ left, [] ∉ grammar.alternatives left) (hfresh : fresh ∈ grammar.free)
    (hstart : start ∈ grammar.keys) : (grammar.withEmptyStart start fresh).EmptyStart fresh := by
  obtain ⟨hnonterminal, habsent⟩ := mem_free.1 hfresh
  refine ⟨rfl, hnonterminal, ?_, ?_, ?_⟩
  · intro left production hproduction hused
    rcases (mem_alternatives_withEmptyStart habsent).1 hproduction with hold | ⟨-, rfl | rfl⟩
    · exact habsent (hclosed left production hold fresh hused hnonterminal)
    · rw [List.mem_singleton.1 hused] at habsent
      exact habsent hstart
    · cases hused
  · intro left hmem
    rcases (mem_alternatives_withEmptyStart habsent).1 hmem with hold | ⟨heq, -⟩
    · exact absurd hold (hepsilon left)
    · exact heq
  · rw [alternatives_withEmptyStart_fresh habsent]
    rfl

/-- No chain of units leads to the empty start. -/
theorem eq_of_unitChain (h : grammar.EmptyStart start)
    (hpath : ReflTransGen grammar.UnitStep left start) : left = start := by
  rcases ReflTransGen.cases_tail hpath with heq | ⟨last, -, hlast⟩
  · exact heq.symm
  · exact absurd List.mem_cons_self (h.unused last [start] (mem_unitTargets.1 hlast).1)

theorem removeUnits (h : grammar.EmptyStart start) : grammar.removeUnits.EmptyStart start := by
  refine ⟨?_, h.isNonterminal, ?_, ?_, ?_⟩
  · rw [start?, keys_removeUnits, chosenStart_removeUnits]
    exact h.start?_eq
  · intro left production hproduction
    obtain ⟨-, source, -, hmem⟩ := mem_alternatives_removeUnits.1 hproduction
    exact h.unused source production hmem
  · intro left hmem
    obtain ⟨source, hpath, hsource⟩ := exists_nil_of_removeUnits hmem
    rw [h.only source hsource] at hpath
    exact h.eq_of_unitChain hpath
  · have hproper : [] ∈ grammar.properAlternatives start :=
      mem_properAlternatives.2 ⟨h.nil_mem, rfl⟩
    rw [Grammar.removeUnits, alternatives_mapAlternatives _ h.mem_keys, count_addAllNew hproper,
      properAlternatives, List.count_filter rfl]
    exact h.once

theorem isolateAll {extended : TerminalMapping} {count : Nat} {middle : Grammar}
    (h : grammar.EmptyStart start) (hisolation : Isolation grammar .empty count middle extended) :
    (middle.isolateAll extended).EmptyStart start := by
  have hgrows := hisolation.grows_isolateAll
  refine ⟨?_, h.isNonterminal, ?_, ?_, ?_⟩
  · rw [hgrows.start?_eq (List.ne_nil_of_mem h.mem_keys)]
    exact h.start?_eq
  · intro left production hproduction hused
    obtain ⟨source, hsource, rfl⟩ | ⟨terminal, hterminal, rfl⟩ :=
      hisolation.mem_alternatives_isolateAll hproduction
    · rcases Isolation.mem_isolate hused with hused | ⟨terminal, hget⟩
      · exact h.unused left source hsource hused
      · -- the letters of the mapping were free, and the empty start was not
        rcases hisolation.recorded terminal start hget with hold | hfree
        · cases hold
        · exact (mem_free.1 hfree).2 h.mem_keys
    · rw [← List.mem_singleton.1 hused, Symbol.isTerminal_eq_true_iff, h.isNonterminal] at hterminal
      cases hterminal
  · exact fun left hmem => h.only left (hisolation.nil_mem hmem)
  · have hnil : ((· == []) ∘ Production.isolate extended : Production → Bool) = (· == []) := by
      funext production
      rw [Function.comp_apply, Bool.eq_iff_iff, beq_iff_eq, beq_iff_eq, isolate_eq_nil_iff]
    rw [hisolation.alternatives_isolateAll_of_mem h.mem_keys, List.count, List.countP_map, hnil]
    exact h.once

theorem count_nil_of_forall₂ {old : List Symbol} {shorts productions : List Production}
    (h : List.Forall₂ (grammar.Unfolds old) shorts productions) :
    shorts.count [] = productions.count [] := by
  induction h with
  | nil => rfl
  | cons hunfolds _ ih =>
      have hhead := Bool.eq_iff_iff.2 ((beq_iff_eq.trans hunfolds.eq_nil_iff).trans beq_iff_eq.symm)
      rw [List.count_cons, List.count_cons, ih, hhead]

theorem binarize (h : grammar.EmptyStart start) (hbinarization : Binarization grammar result) :
    result.EmptyStart start := by
  refine ⟨?_, h.isNonterminal, ?_, ?_, ?_⟩
  · rw [hbinarization.start?_eq (List.ne_nil_of_mem h.mem_keys)]
    exact h.start?_eq
  · intro left production hproduction hused
    obtain ⟨hold, -⟩ | ⟨first, second, rfl, hsymbols⟩ := hbinarization.mem_alternatives hproduction
    · exact h.unused left production hold hused
    · obtain ⟨source, hsource, -, hmem⟩ | ⟨-, hnew⟩ := hsymbols start hused
      · obtain ⟨other, hother⟩ := mem_rightSides.1 hsource
        exact h.unused other source hother hmem
      · exact hnew h.mem_keys
  · exact fun left hmem => h.only left (hbinarization.nil_mem hmem)
  · rw [count_nil_of_forall₂ (hbinarization.unfolds start h.mem_keys)]
    exact h.once

end EmptyStart

/-! ### The stages of a conversion -/

namespace Conversion

/-- An alternative of at most two symbols has a normal shape once terminals are isolated. -/
theorem isNormal_of_isolated (h : Conversion grammar keepEmptyStart stages)
    (hproduction : production ∈ stages.isolated.alternatives left) (hshort : production.length ≤ 2)
    (hne : production ≠ []) : production.isNormal = true := by
  obtain ⟨middle, hisolation, heq⟩ := h.exists_isolation
  rw [heq] at hproduction
  match production, hshort, hne with
  | [first, second], _, _ =>
      have hnonterminal := hisolation.isNonterminal_of_long hproduction (Nat.lt_succ_self 1)
      exact Production.isNormal_iff.2 (.inr ⟨first, second, hnonterminal first (by simp),
        hnonterminal second (by simp), rfl⟩)
  | [symbol], _, _ =>
      obtain ⟨source, hsource, hsame⟩ | ⟨terminal, hterminal, hsame⟩ :=
        hisolation.mem_alternatives_isolateAll hproduction
      · have hlength : source.length ≤ 1 := by
          have hsameLength : (source.isolate stages.mapping).length = source.length :=
            length_isolate source
          rw [← hsameLength, ← hsame]
          exact Nat.le_refl 1
        rw [isolate_of_length_le_one hlength] at hsame
        subst hsame
        have hclosed := h.unitFree_closed left [symbol] hsource symbol List.mem_cons_self
        rw [h.keys_unitFree] at hclosed
        rw [h.unitFree] at hsource
        -- a defined nonterminal on its own would be a unit
        refine Symbol.isTerminal_eq_true_iff.2 (Bool.eq_false_iff.2 fun hnonterminal => ?_)
        have hunit := isUnit_iff.2 ⟨symbol, hclosed hnonterminal, hnonterminal, rfl⟩
        rw [(mem_alternatives_removeUnits.1 hsource).1] at hunit
        cases hunit
      · rw [hsame]
        exact hterminal

theorem isNormal_of_binary (h : Conversion grammar keepEmptyStart stages)
    (hproduction : production ∈ stages.binary.alternatives left) (hne : production ≠ []) :
    production.isNormal = true := by
  obtain ⟨hold, hshort⟩ | ⟨first, second, rfl, hsymbols⟩ :=
    h.binarization.mem_alternatives hproduction
  · exact h.isNormal_of_isolated hold hshort hne
  · have hnonterminal : ∀ symbol ∈ [first, second], symbol.isNonterminal = true := by
      intro symbol hsymbol
      obtain ⟨source, hsource, hlong, hmem⟩ | ⟨hkey, hnew⟩ := hsymbols symbol hsymbol
      · obtain ⟨other, hother⟩ := mem_rightSides.1 hsource
        obtain ⟨middle, hisolation, heq⟩ := h.exists_isolation
        rw [heq] at hother
        exact hisolation.isNonterminal_of_long hother (by omega) symbol hmem
      · exact (mem_free.1 (h.binarization.mem_free_of_new hkey hnew)).1
    exact Production.isNormal_iff.2 (.inr ⟨first, second, hnonterminal first (by simp),
      hnonterminal second (by simp), rfl⟩)

theorem nil_mem_epsilonFree (h : Conversion grammar keepEmptyStart stages)
    (hmem : [] ∈ stages.binary.alternatives left) :
    ∃ source, [] ∈ stages.epsilonFree.alternatives source := by
  obtain ⟨middle, hisolation, heq⟩ := h.exists_isolation
  have hisolated := h.binarization.nil_mem hmem
  rw [heq] at hisolated
  have hunitFree := hisolation.nil_mem hisolated
  rw [h.unitFree] at hunitFree
  obtain ⟨source, -, hsource⟩ := exists_nil_of_removeUnits hunitFree
  exact ⟨source, hsource⟩

theorem nil_notMem_of_not (h : Conversion grammar keepEmptyStart stages)
    (hneeds : ¬grammar.NeedsEmptyStart keepEmptyStart) (left : Symbol) :
    [] ∉ stages.binary.alternatives left := by
  intro hmem
  obtain ⟨source, hsource⟩ := h.nil_mem_epsilonFree hmem
  rcases toEpsilonFree_eq_ok h.epsilonFree with ⟨-, heq⟩ | ⟨hyes, -⟩
  · rw [heq] at hsource
    exact ne_nil_of_mem_removeEpsilon hsource rfl
  · exact hneeds hyes

theorem isChomskyNormalForm_of_not (h : Conversion grammar keepEmptyStart stages)
    (hneeds : ¬grammar.NeedsEmptyStart keepEmptyStart) :
    stages.binary.isChomskyNormalForm = true := by
  refine isChomskyNormalForm_iff.2 fun left production hproduction => .inl ?_
  refine h.isNormal_of_binary hproduction fun hnil => ?_
  exact h.nil_notMem_of_not hneeds left (hnil ▸ hproduction)

theorem exists_emptyStart (h : Conversion grammar keepEmptyStart stages)
    (hneeds : grammar.NeedsEmptyStart keepEmptyStart) :
    ∃ start, stages.binary.EmptyStart start ∧ start ∉ grammar.keys := by
  rcases toEpsilonFree_eq_ok h.epsilonFree with ⟨hno, -⟩ | ⟨-, start, fresh, -, hnullable,
    hfree, heq⟩
  · exact absurd hneeds hno
  · refine ⟨fresh, ?_, (mem_free.1 hfree).2⟩
    obtain ⟨middle, hisolation, hisolated⟩ := h.exists_isolation
    have hreduced : fresh ∈ grammar.reduced.free := by
      rw [free_reduced]
      exact hfree
    have hepsilonFree : stages.epsilonFree.EmptyStart fresh := by
      rw [heq]
      exact .withEmptyStart h.closed.removeEpsilon
        (fun left hmem => ne_nil_of_mem_removeEpsilon hmem rfl) hreduced
        (mem_keys_reduced hnullable)
    have hunitFree : stages.unitFree.EmptyStart fresh := h.unitFree ▸ hepsilonFree.removeUnits
    exact .binarize (hisolated ▸ hunitFree.isolateAll hisolation) h.binarization

end Conversion

/-- **Normal form.** The outcome of a conversion is in normal form. It has no epsilon production
except where an empty start was needed, and then one, on a new start symbol that no right side
uses. -/
theorem convert_isChomskyNormalForm (h : grammar.convert keepEmptyStart = .ok stages) :
    stages.binary.isChomskyNormalForm = true ∧
    (¬grammar.NeedsEmptyStart keepEmptyStart → [] ∉ stages.binary.rightSides) ∧
    (grammar.NeedsEmptyStart keepEmptyStart → ∃ start, stages.binary.start? = some start ∧
      stages.binary.rightSides.count [] = 1 ∧ [] ∈ stages.binary.alternatives start ∧
      start ∉ grammar.keys ∧ ∀ production ∈ stages.binary.rightSides, start ∉ production) := by
  have hconversion := conversion_of_ok h
  refine ⟨isChomskyNormalForm_iff.2 fun left production hproduction => ?_, fun hneeds hmem => ?_,
    fun hneeds => ?_⟩
  · by_cases hnil : production = []
    · subst hnil
      by_cases hneeds : grammar.NeedsEmptyStart keepEmptyStart
      · obtain ⟨start, hempty, -⟩ := hconversion.exists_emptyStart hneeds
        rw [hempty.only left hproduction]
        refine .inr ⟨rfl, hempty.start?_eq, fun other hother => ?_⟩
        obtain ⟨source, hsource⟩ := mem_rightSides.1 hother
        exact hempty.unused source other hsource
      · exact absurd hproduction (hconversion.nil_notMem_of_not hneeds left)
    · exact .inl (hconversion.isNormal_of_binary hproduction hnil)
  · obtain ⟨left, hleft⟩ := mem_rightSides.1 hmem
    exact hconversion.nil_notMem_of_not hneeds left hleft
  · obtain ⟨start, hempty, hnew⟩ := hconversion.exists_emptyStart hneeds
    refine ⟨start, hempty.start?_eq, hempty.count_rightSides, hempty.nil_mem, hnew, ?_⟩
    intro production hproduction
    obtain ⟨left, hleft⟩ := mem_rightSides.1 hproduction
    exact hempty.unused left production hleft

theorem convert_isChomskyNormalForm_nestedPairs :
    nestedPairs.NeedsEmptyStart true ∧ ∃ stages, nestedPairs.convert true = .ok stages ∧
      stages.binary.isChomskyNormalForm = true ∧
      ∃ start, stages.binary.start? = some start ∧ stages.binary.rightSides.count [] = 1 ∧
        [] ∈ stages.binary.alternatives start ∧ start ∉ nestedPairs.keys ∧
        ∀ production ∈ stages.binary.rightSides, start ∉ production := by
  have hneeds : nestedPairs.NeedsEmptyStart true := by decide +kernel
  obtain ⟨stages, h⟩ := exists_convert_nestedPairs
  obtain ⟨hnormal, -, hempty⟩ := convert_isChomskyNormalForm h
  exact ⟨hneeds, stages, h, hnormal, hempty hneeds⟩

end Grammar

end ChomskyForm
