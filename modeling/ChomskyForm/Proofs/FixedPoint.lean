import ChomskyForm.Proofs.Normalization
import ChomskyForm.Proofs.WellFormed

/-!
# Grammars that a conversion leaves alone

On a grammar in normal form without epsilon productions each stage finds nothing to do: no symbol is
nullable, no alternative is a unit, no terminal stands inside a longer alternative, and none is
longer than two symbols. A conversion that is not asked to keep the empty word ends in such a
grammar. These grammars are therefore its fixed points, and there are no others.
-/

namespace ChomskyForm

/-- Every stage is the grammar itself, and no terminal was isolated. -/
def Stages.unchanged (grammar : Grammar) : Stages where
  initial := grammar
  epsilonFree := grammar
  unitFree := grammar
  isolated := grammar
  binary := grammar
  mapping := .empty

namespace Grammar

variable {grammar : Grammar} {keepEmptyStart : Bool} {stages : Stages} {left : Symbol}
  {production : Production}

/-- A grammar in normal form with at least one key, no undefined nonterminal and no epsilon
production. -/
structure CleanNormalForm (grammar : Grammar) : Prop where
  keys_ne_nil : grammar.keys ≠ []
  undefinedReferences_eq_nil : grammar.undefinedReferences = []
  nil_notMem : [] ∉ grammar.rightSides
  isChomskyNormalForm : grammar.isChomskyNormalForm = true

/-! ### Stages that find nothing to do -/

theorem nullable_eq_nil (h : ∀ left, [] ∉ grammar.alternatives left) : grammar.nullable = [] := by
  refine nullable_induction (motive := (· = [])) ?_ ?_
  · exact List.eq_nil_iff_forall_not_mem.2 fun left hleft => h left (mem_epsilonKeys.1 hleft)
  · rintro _ left production rfl - hproduction hall
    have hnil : production = [] := List.eq_nil_iff_forall_not_mem.2 fun symbol hsymbol =>
      List.not_mem_nil (hall symbol hsymbol)
    exact absurd (hnil ▸ hproduction) (h left)

theorem removeEpsilon_nil_eq_self (h : ∀ left, [] ∉ grammar.alternatives left) :
    grammar.removeEpsilon [] = grammar := by
  refine removeEpsilon_eq_self h fun left production hproduction shorter _ hdeletes => ?_
  have hcount := hdeletes.length_le_add
  rw [List.countP_eq_zero.2 (by simp)] at hcount
  rwa [hdeletes.sublist.eq_of_length_le hcount]

theorem toEpsilonFree_eq_self (h : ∀ left, [] ∉ grammar.alternatives left) :
    grammar.toEpsilonFree keepEmptyStart = .ok grammar := by
  have hneeds : ¬grammar.NeedsEmptyStart keepEmptyStart := by
    rintro ⟨-, start, -, hnullable⟩
    rw [nullable_eq_nil h] at hnullable
    cases hnullable
  rw [toEpsilonFree_of_not hneeds, reduced, nullable_eq_nil h, removeEpsilon_nil_eq_self h]

theorem removeUnits_eq_self
    (h : ∀ left, ∀ production ∈ grammar.alternatives left, grammar.isUnit production = false) :
    grammar.removeUnits = grammar := by
  refine mapAlternatives_eq_self fun left => ?_
  have hproper : grammar.properAlternatives left = grammar.alternatives left :=
    List.filter_eq_self.2 fun production hproduction => by
      rw [h left production hproduction]
      rfl
  have htargets : grammar.unitTargets left = [] :=
    List.eq_nil_iff_forall_not_mem.2 fun target htarget => by
      obtain ⟨hproduction, hnonterminal, hkey⟩ := mem_unitTargets.1 htarget
      have hunit := isUnit_iff.2 ⟨target, hkey, hnonterminal, rfl⟩
      rw [h left [target] hproduction] at hunit
      cases hunit
  have hreach : grammar.unitReach left = [] := by
    rw [unitReach, htargets, walk]
  rw [hproper, hreach, List.flatMap_nil, addAllNew_nil]

theorem isolate_empty (production : Production) : production.isolate .empty = production := by
  unfold Production.isolate
  split
  · exact List.map_id _
  · rfl

theorem isolateTerminals_eq_self (h : grammar.longTerminals = []) :
    grammar.isolateTerminals .empty = (.empty, .ok grammar) := by
  have hsame : (grammar.mapAlternatives fun _ right => right.map (Production.isolate .empty)) =
      grammar :=
    mapAlternatives_eq_self fun left =>
      (List.map_congr_left fun production _ => isolate_empty production).trans (List.map_id _)
  rw [isolateTerminals, h]
  exact Prod.ext rfl (congrArg Except.ok hsame)

theorem shortenEach_eq_self {productions : List Production}
    (h : ∀ production ∈ productions, production.length ≤ 2) :
    grammar.shortenEach productions = .ok (productions, grammar) := by
  induction productions with
  | nil => rfl
  | cons production productions ih =>
      rw [List.forall_mem_cons] at h
      rw [shortenEach, shorten_short h.1]
      simp only [bind, Except.bind, ih h.2]
      rfl

theorem shortenRules_eq_self {rules : List (Symbol × List Production)}
    (hrules : ∀ rule ∈ rules, rule ∈ grammar.rules.entries)
    (h : ∀ rule ∈ rules, ∀ production ∈ rule.2, production.length ≤ 2) :
    grammar.shortenRules rules = .ok grammar := by
  induction rules with
  | nil => rfl
  | cons rule rules ih =>
      rw [List.forall_mem_cons] at hrules h
      rw [shortenRules, shortenEach_eq_self h.1]
      simp only [bind, Except.bind, setAlternatives_eq_self hrules.1]
      exact ih hrules.2 h.2

theorem binarize_eq_self (h : ∀ left, ∀ production ∈ grammar.alternatives left,
    production.length ≤ 2) : grammar.binarize = .ok grammar := by
  refine shortenRules_eq_self (fun _ hrule => hrule) fun rule hrule production hproduction => ?_
  have hright : grammar.alternatives rule.1 = rule.2 := alternatives_of_mem_entries hrule
  exact h rule.1 production (hright ▸ hproduction)

/-! ### Clean normal forms -/

namespace CleanNormalForm

theorem nil_notMem_alternatives (h : grammar.CleanNormalForm) (left : Symbol) :
    [] ∉ grammar.alternatives left :=
  fun hmem => h.nil_notMem (mem_rightSides.2 ⟨left, hmem⟩)

theorem isNormal (h : grammar.CleanNormalForm)
    (hproduction : production ∈ grammar.alternatives left) :
    production.isNormal = true := by
  rcases isChomskyNormalForm_iff.1 h.isChomskyNormalForm left production hproduction with
    hnormal | ⟨rfl, -⟩
  · exact hnormal
  · exact absurd hproduction (h.nil_notMem_alternatives left)

theorem length_le_two (h : grammar.CleanNormalForm)
    (hproduction : production ∈ grammar.alternatives left) : production.length ≤ 2 := by
  obtain ⟨terminal, -, rfl⟩ | ⟨first, second, -, -, rfl⟩ :=
    Production.isNormal_iff.1 (h.isNormal hproduction)
  · exact Nat.le_succ 1
  · exact Nat.le_refl 2

theorem isUnit_eq_false (h : grammar.CleanNormalForm)
    (hproduction : production ∈ grammar.alternatives left) : grammar.isUnit production = false := by
  refine Bool.eq_false_iff.2 fun hunit => ?_
  obtain ⟨target, -, hnonterminal, rfl⟩ := isUnit_iff.1 hunit
  have hterminal : target.isTerminal = true := h.isNormal hproduction
  rw [Symbol.isTerminal_eq_true_iff, hnonterminal] at hterminal
  cases hterminal

/-- A longer alternative is a pair of nonterminals. -/
theorem longTerminals_eq_nil (h : grammar.CleanNormalForm) : grammar.longTerminals = [] := by
  refine List.eq_nil_iff_forall_not_mem.2 fun symbol hsymbol => ?_
  obtain ⟨hsymbol, hterminal⟩ := List.mem_filter.1 hsymbol
  obtain ⟨production, hproduction, hmem⟩ := List.mem_flatten.1 hsymbol
  obtain ⟨hproduction, hlong⟩ := List.mem_filter.1 hproduction
  obtain ⟨left, hleft⟩ := mem_rightSides.1 hproduction
  rw [Symbol.isTerminal_eq_true_iff] at hterminal
  obtain ⟨terminal, -, rfl⟩ | ⟨first, second, hfirst, hsecond, rfl⟩ :=
    Production.isNormal_iff.1 (h.isNormal hleft)
  · simp at hlong
  · simp only [List.mem_cons, List.not_mem_nil, or_false] at hmem
    rcases hmem with rfl | rfl
    · exact Bool.false_ne_true (hterminal.symm.trans hfirst)
    · exact Bool.false_ne_true (hterminal.symm.trans hsecond)

/-- Every stage of the conversion returns the grammar that it was given. -/
theorem convert_eq (h : grammar.CleanNormalForm) (keepEmptyStart : Bool) :
    grammar.convert keepEmptyStart = .ok (.unchanged grammar) := by
  have hcheck : grammar.checkComplete = .ok () :=
    checkComplete_of_closed h.keys_ne_nil
      (undefinedReferences_eq_nil_iff.1 h.undefinedReferences_eq_nil)
  have hepsilonFree : grammar.toEpsilonFree keepEmptyStart = .ok grammar :=
    toEpsilonFree_eq_self h.nil_notMem_alternatives
  have hunitFree : grammar.removeUnits = grammar :=
    removeUnits_eq_self fun _ _ hproduction => h.isUnit_eq_false hproduction
  have hisolated : grammar.removeUnits.isolateTerminals .empty = (.empty, .ok grammar) := by
    rw [hunitFree]
    exact isolateTerminals_eq_self h.longTerminals_eq_nil
  have hbinary : grammar.binarize = .ok grammar :=
    binarize_eq_self fun _ _ hproduction => h.length_le_two hproduction
  rw [convert_of_isolateTerminals_ok hcheck hepsilonFree hisolated, hbinary, hunitFree]
  rfl

end CleanNormalForm

/-- Without an empty start a conversion ends in a clean normal form. -/
theorem Conversion.cleanNormalForm_binary (h : Conversion grammar keepEmptyStart stages)
    (hneeds : ¬grammar.NeedsEmptyStart keepEmptyStart) : stages.binary.CleanNormalForm where
  keys_ne_nil := h.keys_binary_ne_nil
  undefinedReferences_eq_nil :=
    undefinedReferences_eq_nil_iff.2 (h.binarization.closed h.isolated_closed)
  nil_notMem := fun hmem => by
    obtain ⟨left, hleft⟩ := mem_rightSides.1 hmem
    exact h.nil_notMem_of_not hneeds left hleft
  isChomskyNormalForm := h.isChomskyNormalForm_of_not hneeds

/-- **Fixed points.** The conversion without an empty start returns its grammar exactly where this
is a clean normal form. Each stage is then the grammar itself, with an empty start or not, and no
terminal is isolated. As every outcome of that conversion is a clean normal form, to convert it once
more changes nothing. -/
theorem convert_eq_self_exactly :
    (∀ grammar : Grammar,
      (∃ stages, grammar.convert false = .ok stages ∧ stages.binary = grammar) ↔
        grammar.CleanNormalForm) ∧
    (∀ grammar : Grammar, grammar.CleanNormalForm → ∀ keepEmptyStart,
      grammar.convert keepEmptyStart = .ok (.unchanged grammar)) ∧
    ∀ (grammar : Grammar) (stages : Stages), grammar.convert false = .ok stages →
      stages.binary.convert false = .ok (.unchanged stages.binary) := by
  have hclean : ∀ (grammar : Grammar) (stages : Stages), grammar.convert false = .ok stages →
      stages.binary.CleanNormalForm := fun _ _ h =>
    (conversion_of_ok h).cleanNormalForm_binary not_needsEmptyStart_false
  refine ⟨fun grammar => ⟨?_, fun h => ?_⟩, fun _ h => h.convert_eq, fun grammar stages h => ?_⟩
  · rintro ⟨stages, h, heq⟩
    exact heq ▸ hclean grammar stages h
  · exact ⟨.unchanged grammar, h.convert_eq false, rfl⟩
  · exact (hclean grammar stages h).convert_eq false

theorem convert_eq_self_exactly_nestedPairs :
    (∃ stages, nestedPairs.convert false = .ok stages ∧ stages.binary.CleanNormalForm ∧
      stages.binary.convert false = .ok (.unchanged stages.binary) ∧
      stages.binary.convert true = .ok (.unchanged stages.binary)) ∧
    ¬nestedPairs.CleanNormalForm := by
  obtain ⟨hfixed, hunchanged, htwice⟩ := convert_eq_self_exactly
  have hkeys : (nestedPairs.convert false).toOption.map (fun stages => stages.binary.keys.length) =
      some 5 := by
    decide +kernel
  obtain ⟨stages, h, -⟩ := exists_ok_of_toOption_map hkeys
  have hagain := htwice nestedPairs stages h
  have hclean : stages.binary.CleanNormalForm := (hfixed _).1 ⟨_, hagain, rfl⟩
  refine ⟨⟨stages, h, hclean, hagain, hunchanged _ hclean true⟩, fun hnested => ?_⟩
  have hnil : [] ∈ nestedPairs.rightSides := by decide
  exact hnested.nil_notMem hnil

end Grammar

end ChomskyForm
