import ChomskyForm.Proofs.Budget

/-!
# What an empty start costs

An empty start is used by no other symbol, so without units the grammar is the same as if there were
none, but for the alternatives of the empty start itself. All of the longer ones belong to other
symbols as well, so no further terminal is isolated and the order of isolation is the same. What is
spent is a letter for the empty start and the letters that shorten its own alternatives.
-/

namespace ChomskyForm

open Relation

namespace Grammar

variable {grammar : Grammar} {left start fresh : Symbol} {production : Production}

/-! ### Unit elimination with an empty start -/

section EmptyStart

variable (hclosed : grammar.Closed) (hfresh : fresh ∉ grammar.keys)
include hclosed hfresh

theorem isUnit_withEmptyStart (hproduction : production ∈ grammar.alternatives left) :
    (grammar.withEmptyStart start fresh).isUnit production = grammar.isUnit production := by
  rw [Bool.eq_iff_iff, isUnit_iff, isUnit_iff, keys_withEmptyStart hfresh]
  constructor
  · rintro ⟨target, -, hnonterminal, rfl⟩
    have hkey := hclosed left [target] hproduction target List.mem_cons_self hnonterminal
    exact ⟨target, hkey, hnonterminal, rfl⟩
  · rintro ⟨target, hkey, hnonterminal, heq⟩
    exact ⟨target, List.mem_append_left _ hkey, hnonterminal, heq⟩

theorem properAlternatives_withEmptyStart (hleft : left ∈ grammar.keys) :
    (grammar.withEmptyStart start fresh).properAlternatives left =
      grammar.properAlternatives left := by
  rw [properAlternatives, properAlternatives, alternatives_withEmptyStart_of_mem hfresh hleft]
  refine List.filter_congr fun production hproduction => ?_
  rw [isUnit_withEmptyStart hclosed hfresh hproduction]

theorem unitTargets_withEmptyStart (hleft : left ∈ grammar.keys) :
    (grammar.withEmptyStart start fresh).unitTargets left = grammar.unitTargets left := by
  rw [unitTargets, unitTargets, alternatives_withEmptyStart_of_mem hfresh hleft,
    keys_withEmptyStart hfresh]
  refine List.filter_congr fun target htarget => ?_
  obtain ⟨production, hproduction, hunit⟩ := List.mem_filterMap.1 htarget
  obtain ⟨rfl, hnonterminal⟩ := unitTarget?_eq_some_iff.1 hunit
  have hkey := hclosed left [target] hproduction target List.mem_cons_self hnonterminal
  rw [decide_eq_true hkey, decide_eq_true (List.mem_append_left _ hkey)]

theorem unitReach_withEmptyStart (hleft : left ∈ grammar.keys) :
    (grammar.withEmptyStart start fresh).unitReach left = grammar.unitReach left := by
  rw [unitReach, unitReach, keys_withEmptyStart hfresh, List.erase_append_left _ hleft,
    unitTargets_withEmptyStart hclosed hfresh hleft]
  refine walk_append (fun _ hsymbol => unitTargets_withEmptyStart hclosed hfresh hsymbol)
    (fun symbol _ => unitTargets_subset_keys symbol) ?_ (unitTargets_subset_keys left)
  rintro symbol hsymbol hmem
  exact hfresh (List.mem_singleton.1 hmem ▸ hsymbol)

/-- Every other symbol has the alternatives that it has without the empty start. -/
theorem alternatives_removeUnits_withEmptyStart (hleft : left ∈ grammar.keys) :
    (grammar.withEmptyStart start fresh).removeUnits.alternatives left =
      grammar.removeUnits.alternatives left := by
  have hleft' : left ∈ (grammar.withEmptyStart start fresh).keys := by
    rw [keys_withEmptyStart hfresh]
    exact List.mem_append_left _ hleft
  have hreached : (grammar.unitReach left).flatMap
        (grammar.withEmptyStart start fresh).properAlternatives =
      (grammar.unitReach left).flatMap grammar.properAlternatives :=
    List.flatMap_congr fun source hsource =>
      properAlternatives_withEmptyStart hclosed hfresh (unitReach_subset_keys hleft hsource)
  rw [alternatives_removeUnits hleft', alternatives_removeUnits hleft,
    properAlternatives_withEmptyStart hclosed hfresh hleft,
    unitReach_withEmptyStart hclosed hfresh hleft, hreached]

theorem rightSides_removeUnits_withEmptyStart :
    (grammar.withEmptyStart start fresh).removeUnits.rightSides =
      grammar.removeUnits.rightSides ++
        (grammar.withEmptyStart start fresh).removeUnits.alternatives fresh := by
  have hold : grammar.keys.flatMap (grammar.withEmptyStart start fresh).removeUnits.alternatives =
      grammar.keys.flatMap grammar.removeUnits.alternatives :=
    List.flatMap_congr fun _ hleft => alternatives_removeUnits_withEmptyStart hclosed hfresh hleft
  rw [rightSides_eq, rightSides_eq, keys_removeUnits, keys_removeUnits, keys_withEmptyStart hfresh,
    List.flatMap_append, List.flatMap_singleton, hold]

/-- The longer alternatives of the empty start are those of the start symbol. -/
theorem mem_rightSides_of_mem_fresh (hstart : start ∈ grammar.keys)
    (hproduction : production ∈
      (grammar.withEmptyStart start fresh).removeUnits.alternatives fresh)
    (hlong : 1 < production.length) : production ∈ grammar.removeUnits.rightSides := by
  obtain ⟨hproper, source, hpath, hmem⟩ := mem_alternatives_removeUnits.1 hproduction
  obtain rfl | ⟨target, hstep, hrest⟩ := ReflTransGen.cases_head hpath
  · rw [alternatives_withEmptyStart_fresh hfresh, List.mem_pair] at hmem
    obtain rfl | rfl := hmem
    · exact absurd hlong (Nat.lt_irrefl 1)
    · exact absurd hlong (Nat.not_lt_zero 1)
  · have htarget := (mem_unitTargets.1 hstep).1
    rw [alternatives_withEmptyStart_fresh hfresh, List.mem_pair] at htarget
    obtain heq | heq := htarget
    · cases heq
      refine mem_rightSides.2 ⟨start, ?_⟩
      rw [← alternatives_removeUnits_withEmptyStart hclosed hfresh hstart]
      exact mem_alternatives_removeUnits.2 ⟨hproper, source, hrest, hmem⟩
    · cases heq

/-- The same terminals are isolated, in the same order. -/
theorem newItems_longTerminals_withEmptyStart (hstart : start ∈ grammar.keys) :
    newItems [] (grammar.withEmptyStart start fresh).removeUnits.longTerminals =
      newItems [] grammar.removeUnits.longTerminals := by
  have hlong : (grammar.withEmptyStart start fresh).removeUnits.longTerminals =
      grammar.removeUnits.longTerminals ++
        ((((grammar.withEmptyStart start fresh).removeUnits.alternatives fresh).filter
          (1 < ·.length)).flatten.filter Symbol.isTerminal) := by
    rw [longTerminals, rightSides_removeUnits_withEmptyStart hclosed hfresh, List.filter_append,
      List.flatten_append, List.filter_append, longTerminals]
  rw [hlong]
  refine newItems_append_of_mem fun terminal hterminal => .inr ?_
  obtain ⟨hmem, hisTerminal⟩ := List.mem_filter.1 hterminal
  obtain ⟨production, hproduction, hsymbol⟩ := List.mem_flatten.1 hmem
  obtain ⟨hright, hlength⟩ := List.mem_filter.1 hproduction
  have hold := mem_rightSides_of_mem_fresh hclosed hfresh hstart hright (of_decide_eq_true hlength)
  exact List.mem_filter.2
    ⟨List.mem_flatten.2 ⟨production, List.mem_filter.2 ⟨hold, hlength⟩, hsymbol⟩, hisTerminal⟩

theorem letterCost_withEmptyStart (hstart : start ∈ grammar.keys) :
    (grammar.withEmptyStart start fresh).removeUnits.letterCost =
      grammar.removeUnits.letterCost +
        excess ((grammar.withEmptyStart start fresh).removeUnits.alternatives fresh) := by
  rw [letterCost, letterCost, ← length_newItems_nil, ← length_newItems_nil,
    newItems_longTerminals_withEmptyStart hclosed hfresh hstart,
    rightSides_removeUnits_withEmptyStart hclosed hfresh, excess_append, Nat.add_assoc]

end EmptyStart

/-! ### The two conversions -/

section Runs

variable {kept stages : Stages}

theorem not_needsEmptyStart_of_notMem {keepEmptyStart : Bool} (hstart : grammar.start? = some start)
    (h : start ∉ grammar.nullable) : ¬grammar.NeedsEmptyStart keepEmptyStart := by
  rintro ⟨-, other, hother, hnullable⟩
  cases hstart.symm.trans hother
  exact h hnullable

theorem emptyStartCost_false : grammar.emptyStartCost false = 0 :=
  if_neg not_needsEmptyStart_false

theorem toEpsilonFree_false : grammar.toEpsilonFree false = .ok grammar.reduced :=
  toEpsilonFree_of_not not_needsEmptyStart_false

theorem convert_eq_of_notMem_nullable (hstart : grammar.start? = some start)
    (h : start ∉ grammar.nullable) : grammar.convert true = grammar.convert false := by
  rw [convert, convert, toEpsilonFree_false,
    toEpsilonFree_of_not (not_needsEmptyStart_of_notMem hstart h)]

/-- What a conversion that keeps the empty word spends besides what it spends otherwise. -/
theorem Conversion.exists_letterCost_eq (h : Conversion grammar true kept)
    (hstart : grammar.start? = some start) (hnullable : start ∈ grammar.nullable) :
    ∃ fresh, kept.unitFree.start? = some fresh ∧ fresh ∉ grammar.keys ∧
      grammar.emptyStartCost true = 1 ∧
      newItems [] kept.unitFree.longTerminals =
        newItems [] grammar.reduced.removeUnits.longTerminals ∧
      kept.unitFree.letterCost =
        grammar.reduced.removeUnits.letterCost + excess (kept.unitFree.alternatives fresh) := by
  have hneeds : grammar.NeedsEmptyStart true := ⟨rfl, start, hstart, hnullable⟩
  have hclosed : grammar.reduced.Closed := h.closed.removeEpsilon
  have hkey := mem_keys_reduced hnullable
  obtain ⟨hnot, -⟩ | ⟨-, other, fresh, hother, -, hfree, heq⟩ := toEpsilonFree_eq_ok h.epsilonFree
  · exact absurd hneeds hnot
  · cases hstart.symm.trans hother
    have hfresh := notMem_keys_reduced hfree
    have hunitFree := h.unitFree
    rw [heq] at hunitFree
    refine ⟨fresh, ?_, (mem_free.1 hfree).2, if_pos hneeds, ?_, ?_⟩
    · rw [h.start?_unitFree, heq]
      exact start?_withEmptyStart
    · rw [hunitFree]
      exact newItems_longTerminals_withEmptyStart hclosed hfresh hkey
    · rw [hunitFree]
      exact letterCost_withEmptyStart hclosed hfresh hkey

/-- The pool that covers an empty start covers the conversion without one. -/
theorem exists_convert_false (hkeys : ∀ key ∈ grammar.keys, key.isNonterminal = true)
    (hstart : grammar.start? = some start) (hok : grammar.convert true = .ok kept) :
    ∃ stages, grammar.convert false = .ok stages := by
  by_cases hnullable : start ∈ grammar.nullable
  · have h := conversion_of_ok hok
    have hcheck := checkComplete_of_closed h.keys_ne_nil h.closed
    obtain ⟨fresh, -, -, hcost, -, hletters⟩ := h.exists_letterCost_eq hstart hnullable
    have hfits : grammar.keys.length + grammar.emptyStartCost true +
        kept.unitFree.letterCost ≤ 26 := by
      obtain ⟨herror, -⟩ | ⟨_, _, hfits, -⟩ := convert_of_closed hkeys hcheck h.epsilonFree
      · cases hok.symm.trans herror
      · rwa [h.unitFree]
    obtain ⟨-, hlt⟩ | ⟨stages, hstages, -⟩ := convert_of_closed hkeys hcheck toEpsilonFree_false
    · rw [emptyStartCost_false] at hlt
      omega
    · exact ⟨stages, hstages⟩
  · exact ⟨kept, (convert_eq_of_notMem_nullable hstart hnullable).symm.trans hok⟩

/-- **Cost of an empty start.** Where a conversion that keeps the empty word succeeds, so does the
one that does not. Both have the same outcome unless the start symbol is nullable. In that case they
isolate the same terminals in the same order, and the one that keeps the empty word ends with more
keys: one for its start symbol and one for each symbol beyond the second in the alternatives that
this start symbol has without units. -/
theorem empty_start_only_costs_letters (hkeys : ∀ key ∈ grammar.keys, key.isNonterminal = true)
    (hstart : grammar.start? = some start) :
    (∀ kept, grammar.convert true = .ok kept → ∃ stages, grammar.convert false = .ok stages) ∧
    (start ∉ grammar.nullable → grammar.convert true = grammar.convert false) ∧
    (start ∈ grammar.nullable → ∀ kept stages, grammar.convert true = .ok kept →
      grammar.convert false = .ok stages →
      kept.mapping.keys = stages.mapping.keys ∧
      ∃ fresh, kept.unitFree.start? = some fresh ∧ fresh ∉ grammar.keys ∧
        kept.binary.keys.length =
          stages.binary.keys.length + (1 + excess (kept.unitFree.alternatives fresh))) := by
  refine ⟨fun _ => exists_convert_false hkeys hstart, convert_eq_of_notMem_nullable hstart, ?_⟩
  intro hnullable kept stages hkept hstages
  have h := conversion_of_ok hkept
  have hplain := conversion_of_ok hstages
  have hepsilonFree : stages.epsilonFree = grammar.reduced :=
    Except.ok.inj (hplain.epsilonFree.symm.trans toEpsilonFree_false)
  have hunitFree : stages.unitFree = grammar.reduced.removeUnits := by
    rw [hplain.unitFree, hepsilonFree]
  obtain ⟨fresh, hfresh, habsent, hcost, hitems, hletters⟩ :=
    h.exists_letterCost_eq hstart hnullable
  refine ⟨?_, fresh, hfresh, habsent, ?_⟩
  · calc kept.mapping.keys
      _ = newItems [] kept.unitFree.longTerminals := keys_of_isolateTerminals_ok h.isolated
      _ = newItems [] stages.unitFree.longTerminals := by rw [hitems, hunitFree]
      _ = stages.mapping.keys := (keys_of_isolateTerminals_ok hplain.isolated).symm
  · rw [h.length_keys_binary, hplain.length_keys_binary, hcost, emptyStartCost_false, hletters,
      hunitFree]
    omega

/-- A start symbol that is not nullable, though another symbol is. -/
def vanishingEnd : Grammar := sampleGrammar [('S', ["aA"]), ('A', ["$", "b"])]

theorem empty_start_only_costs_letters_nestedPairs :
    (∀ key ∈ nestedPairs.keys, key.isNonterminal = true) ∧
    nestedPairs.start? = some ⟨'S', rfl⟩ ∧ ⟨'S', rfl⟩ ∈ nestedPairs.nullable ∧
    ∃ kept stages, nestedPairs.convert true = .ok kept ∧ nestedPairs.convert false = .ok stages ∧
      kept.mapping.keys = [⟨'a', rfl⟩, ⟨'b', rfl⟩] ∧ kept.mapping.keys = stages.mapping.keys ∧
      kept.unitFree.start? = some ⟨'A', rfl⟩ ∧ ⟨'A', rfl⟩ ∉ nestedPairs.keys ∧
      excess (kept.unitFree.alternatives ⟨'A', rfl⟩) = 1 ∧
      kept.binary.keys.length = stages.binary.keys.length + 2 ∧
      vanishingEnd.convert true = vanishingEnd.convert false := by
  have hkeys : ∀ key ∈ nestedPairs.keys, key.isNonterminal = true := by decide
  have hstart : nestedPairs.start? = some ⟨'S', rfl⟩ := by decide
  have hnullable : ⟨'S', rfl⟩ ∈ nestedPairs.nullable := by decide +kernel
  have hkeys' : ∀ key ∈ vanishingEnd.keys, key.isNonterminal = true := by decide
  have hstart' : vanishingEnd.start? = some ⟨'S', rfl⟩ := by decide
  have hnullable' : ⟨'S', rfl⟩ ∉ vanishingEnd.nullable := by decide +kernel
  have hseen : (nestedPairs.convert true).toOption.map (fun kept => (kept.mapping.keys,
      kept.unitFree.start?, excess (kept.unitFree.alternatives ⟨'A', rfl⟩))) =
        some ([⟨'a', rfl⟩, ⟨'b', rfl⟩], some ⟨'A', rfl⟩, 1) := by
    decide +kernel
  obtain ⟨kept, hkept, hobserved⟩ := exists_ok_of_toOption_map hseen
  obtain ⟨hmapping, hrest⟩ := Prod.mk.inj hobserved
  obtain ⟨hfresh, hexcess⟩ := Prod.mk.inj hrest
  obtain ⟨hplain, -, hcost⟩ := empty_start_only_costs_letters hkeys hstart
  obtain ⟨stages, hstages⟩ := hplain kept hkept
  obtain ⟨hterminals, fresh, hfresh', habsent, hlength⟩ :=
    hcost hnullable kept stages hkept hstages
  cases hfresh.symm.trans hfresh'
  rw [hexcess] at hlength
  exact ⟨hkeys, hstart, hnullable, kept, stages, hkept, hstages, hmapping, hterminals, hfresh,
    habsent, hexcess, hlength, (empty_start_only_costs_letters hkeys' hstart').2.1 hnullable'⟩

end Runs

end Grammar

end ChomskyForm
