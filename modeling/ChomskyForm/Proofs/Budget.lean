import ChomskyForm.Proofs.Stages
import Mathlib.Algebra.BigOperators.Group.List.Basic
import Mathlib.Data.Finset.Card

/-!
# When a conversion fails

After the check, a conversion fails only where the pool runs out. Three stages take letters from it:
one for an empty start, one for each terminal inside a longer alternative and, for each alternative,
as many as it has symbols more than two. As a stage takes neither more nor fewer, the demand is
known in advance, and the conversion succeeds exactly where the pool covers it.
-/

namespace ChomskyForm.Grammar

variable {grammar result : Grammar} {keepEmptyStart : Bool} {stages : Stages} {count : Nat}

/-! ### The empty start -/

theorem toEpsilonFree_of_lt (hkeys : ∀ key ∈ grammar.keys, key.isNonterminal = true)
    (h : 26 < grammar.keys.length + grammar.emptyStartCost keepEmptyStart) :
    grammar.toEpsilonFree keepEmptyStart = .error .poolExhausted := by
  have hpool := length_free_add hkeys
  rw [emptyStartCost] at h
  split at h
  · rename_i hneeds
    refine toEpsilonFree_of_free_nil hneeds (List.eq_nil_of_length_eq_zero ?_)
    omega
  · omega

theorem toEpsilonFree_of_le (hkeys : ∀ key ∈ grammar.keys, key.isNonterminal = true)
    (h : grammar.keys.length + grammar.emptyStartCost keepEmptyStart ≤ 26) :
    ∃ result, grammar.toEpsilonFree keepEmptyStart = .ok result := by
  have hpool := length_free_add hkeys
  by_cases hneeds : grammar.NeedsEmptyStart keepEmptyStart
  · rw [emptyStartCost, if_pos hneeds] at h
    obtain ⟨start, hstart, -⟩ := hneeds.2
    obtain ⟨fresh, rest, hfree⟩ := List.exists_cons_of_length_pos (l := grammar.free) (by omega)
    exact ⟨_, toEpsilonFree_of_free_cons hneeds hstart hfree⟩
  · exact ⟨_, toEpsilonFree_of_not hneeds⟩

theorem length_keys_toEpsilonFree (h : grammar.toEpsilonFree keepEmptyStart = .ok result) :
    result.keys.length = grammar.keys.length + grammar.emptyStartCost keepEmptyStart := by
  obtain ⟨added, hkeys, hlength, -⟩ := keys_toEpsilonFree h
  rw [hkeys, List.length_append, hlength]

theorem isNonterminal_toEpsilonFree (hkeys : ∀ key ∈ grammar.keys, key.isNonterminal = true)
    (h : grammar.toEpsilonFree keepEmptyStart = .ok result) :
    ∀ key ∈ result.keys, key.isNonterminal = true := by
  obtain ⟨added, heq, -, hadded⟩ := keys_toEpsilonFree h
  intro key hkey
  rw [heq, List.mem_append] at hkey
  rcases hkey with hold | hnew
  · exact hkeys key hold
  · exact (mem_free.1 (hadded key hnew)).1

/-! ### Isolated terminals and pairs -/

theorem length_newItems_nil (items : List Symbol) :
    (newItems [] items).length = items.toFinset.card := by
  rw [← List.toFinset_card_of_nodup (nodup_newItems [] items)]
  congr 1
  ext symbol
  rw [List.mem_toFinset, List.mem_toFinset, mem_newItems, and_iff_left List.not_mem_nil]

theorem excess_eq_zero {productions : List Production}
    (h : ∀ production ∈ productions, production.length ≤ 2) : excess productions = 0 := by
  apply List.sum_eq_zero
  intro n hn
  obtain ⟨production, hproduction, rfl⟩ := List.mem_map.1 hn
  have hshort := h production hproduction
  omega

theorem excess_map_isolate (mapping : TerminalMapping) (productions : List Production) :
    excess (productions.map (Production.isolate mapping)) = excess productions := by
  rw [excess, excess, List.map_map]
  congr 1
  apply List.map_congr_left
  intro production _
  rw [Function.comp_apply, length_isolate]

/-- Isolation changes no length, and its own alternatives are lone terminals. -/
theorem Isolation.excess_rightSides {mapping extended : TerminalMapping} {middle : Grammar}
    (h : Isolation grammar mapping count middle extended) :
    excess (middle.isolateAll extended).rightSides = excess grammar.rightSides := by
  have hisolated : (middle.isolateAll extended).rightSides =
      middle.rightSides.map (Production.isolate extended) := by
    rw [rightSides_eq, rightSides_eq, List.map_flatMap, Grammar.isolateAll, keys_mapAlternatives]
    apply List.flatMap_congr
    intro left _
    exact alternatives_isolateAll
  have hold : grammar.keys.flatMap middle.alternatives = grammar.rightSides := by
    rw [rightSides_eq]
    exact List.flatMap_congr h.alternatives_eq
  have hnew : excess ((grammar.free.take count).flatMap middle.alternatives) = 0 := by
    apply excess_eq_zero
    intro production hproduction
    obtain ⟨left, hleft, hmem⟩ := List.mem_flatMap.1 hproduction
    have hkey := mem_keys_of_mem_alternatives hmem
    have habsent := (mem_free.1 (List.mem_of_mem_take hleft)).2
    obtain ⟨terminal, -, halternatives⟩ := h.defined left hkey habsent
    rw [halternatives] at hmem
    rw [List.mem_singleton.1 hmem]
    exact Nat.le_succ 1
  have hmiddle : middle.rightSides =
      grammar.rightSides ++ (grammar.free.take count).flatMap middle.alternatives := by
    rw [rightSides_eq, h.keys_eq, List.flatMap_append, hold]
  calc excess (middle.isolateAll extended).rightSides
      = excess middle.rightSides := by rw [hisolated, excess_map_isolate]
    _ = excess grammar.rightSides +
          excess ((grammar.free.take count).flatMap middle.alternatives) := by
        rw [hmiddle, excess_append]
    _ = excess grammar.rightSides := by rw [hnew, Nat.add_zero]

/-- The letters that the last two stages take: one for each terminal inside a longer alternative,
and for each alternative the number of its symbols beyond two. -/
def letterCost (grammar : Grammar) : Nat :=
  grammar.longTerminals.toFinset.card + excess grammar.rightSides

/-! ### The outcome -/

theorem convert_of_incomplete {fault : ConversionError} (h : grammar.checkComplete = .error fault) :
    grammar.convert keepEmptyStart = .error fault := by
  rw [convert, h]
  rfl

theorem convert_of_toEpsilonFree_error (hcheck : grammar.checkComplete = .ok ())
    {fault : ConversionError} (h : grammar.toEpsilonFree keepEmptyStart = .error fault) :
    grammar.convert keepEmptyStart = .error fault := by
  rw [convert, hcheck, h]
  rfl

theorem convert_of_isolateTerminals_error {epsilonFree : Grammar} {fault : ConversionError}
    (hcheck : grammar.checkComplete = .ok ())
    (hepsilonFree : grammar.toEpsilonFree keepEmptyStart = .ok epsilonFree)
    (h : (epsilonFree.removeUnits.isolateTerminals .empty).2 = .error fault) :
    grammar.convert keepEmptyStart = .error fault := by
  rw [convert, hcheck, hepsilonFree]
  simp only [bind, Except.bind, h]

theorem convert_of_isolateTerminals_ok {epsilonFree isolated : Grammar} {mapping : TerminalMapping}
    (hcheck : grammar.checkComplete = .ok ())
    (hepsilonFree : grammar.toEpsilonFree keepEmptyStart = .ok epsilonFree)
    (h : epsilonFree.removeUnits.isolateTerminals .empty = (mapping, .ok isolated)) :
    grammar.convert keepEmptyStart = isolated.binarize.map fun binary =>
      { initial := grammar, epsilonFree, unitFree := epsilonFree.removeUnits, isolated, binary,
        mapping } := by
  rw [convert, hcheck, hepsilonFree]
  simp only [bind, Except.bind, h]
  cases isolated.binarize <;> rfl

theorem isolateTerminals_of_lt (h : grammar.free.length < grammar.longTerminals.toFinset.card) :
    (grammar.isolateTerminals .empty).2 = .error .poolExhausted := by
  rw [← length_newItems_nil] at h
  rw [isolateTerminals_eq]
  exact if_neg (Nat.not_le.2 h)

theorem isolateTerminals_of_le (h : grammar.longTerminals.toFinset.card ≤ grammar.free.length) :
    ∃ mapping isolated, grammar.isolateTerminals .empty = (mapping, .ok isolated) ∧
      Grows grammar grammar.longTerminals.toFinset.card isolated ∧
      excess isolated.rightSides = excess grammar.rightSides := by
  rw [← length_newItems_nil] at h ⊢
  have hroom : (newItems (.empty : TerminalMapping).keys grammar.longTerminals).length ≤
      grammar.free.length := h
  have hok := grammar.isolateTerminals_eq .empty
  rw [if_pos hroom] at hok
  obtain ⟨middle, hisolation, hisolated⟩ := isolation_of_ok grammar.realizes_empty hok
  refine ⟨_, _, hok, ?_, ?_⟩
  · rw [hisolated]
    exact hisolation.grows_isolateAll
  · rw [hisolated]
    exact hisolation.excess_rightSides

theorem convert_of_letterCost_lt {epsilonFree : Grammar} (hcheck : grammar.checkComplete = .ok ())
    (hepsilonFree : grammar.toEpsilonFree keepEmptyStart = .ok epsilonFree)
    (h : epsilonFree.removeUnits.free.length < epsilonFree.removeUnits.letterCost) :
    grammar.convert keepEmptyStart = .error .poolExhausted := by
  rw [letterCost] at h
  rcases Nat.lt_or_ge epsilonFree.removeUnits.free.length
    epsilonFree.removeUnits.longTerminals.toFinset.card with hlt | hle
  · exact convert_of_isolateTerminals_error hcheck hepsilonFree (isolateTerminals_of_lt hlt)
  · obtain ⟨mapping, isolated, hisolated, hgrows, hexcess⟩ := isolateTerminals_of_le hle
    have hlt : isolated.free.length < excess isolated.rightSides := by
      rw [hgrows.free_eq, List.length_drop, hexcess]
      omega
    rw [convert_of_isolateTerminals_ok hcheck hepsilonFree hisolated, binarize_of_lt hlt]
    rfl

theorem convert_of_letterCost_le {epsilonFree : Grammar} (hcheck : grammar.checkComplete = .ok ())
    (hepsilonFree : grammar.toEpsilonFree keepEmptyStart = .ok epsilonFree)
    (h : epsilonFree.removeUnits.letterCost ≤ epsilonFree.removeUnits.free.length) :
    ∃ stages, grammar.convert keepEmptyStart = .ok stages ∧ stages.epsilonFree = epsilonFree := by
  rw [letterCost] at h
  have hroom : epsilonFree.removeUnits.longTerminals.toFinset.card ≤
      epsilonFree.removeUnits.free.length := by omega
  obtain ⟨mapping, isolated, hisolated, hgrows, hexcess⟩ := isolateTerminals_of_le hroom
  have hle : excess isolated.rightSides ≤ isolated.free.length := by
    rw [hgrows.free_eq, List.length_drop, hexcess]
    omega
  obtain ⟨binary, hbinary, -⟩ := binarize_of_le hle
  rw [convert_of_isolateTerminals_ok hcheck hepsilonFree hisolated, hbinary]
  exact ⟨_, rfl, rfl⟩

/-- The last two stages take just the letters that they need, in order. -/
theorem Conversion.grows_binary (h : Conversion grammar keepEmptyStart stages) :
    Grows stages.unitFree stages.unitFree.letterCost stages.binary := by
  obtain ⟨middle, hisolation, heq⟩ := h.exists_isolation
  have hexcess : excess stages.isolated.rightSides = excess stages.unitFree.rightSides := by
    rw [heq]
    exact hisolation.excess_rightSides
  rw [letterCost, ← length_newItems_nil, ← hexcess]
  exact h.grows_isolated.trans h.binarization.toGrows

theorem Conversion.keys_binary_ne_nil (h : Conversion grammar keepEmptyStart stages) :
    stages.binary.keys ≠ [] := by
  obtain ⟨key, hkey⟩ := List.exists_mem_of_ne_nil _ h.keys_ne_nil
  have hunitFree : key ∈ stages.unitFree.keys := by
    rw [h.keys_unitFree]
    exact h.keys_subset hkey
  exact List.ne_nil_of_mem (h.grows_binary.mem_keys hunitFree)

/-- The outcome of a conversion has as many keys as the letters taken account for. -/
theorem Conversion.length_keys_binary (h : Conversion grammar keepEmptyStart stages) :
    stages.binary.keys.length = grammar.keys.length + grammar.emptyStartCost keepEmptyStart +
      stages.unitFree.letterCost := by
  rw [h.grows_binary.length_keys, h.keys_unitFree, length_keys_toEpsilonFree h.epsilonFree]

/-- A closed grammar fails the conversion exactly where its demand exceeds the pool. -/
theorem convert_of_closed (hkeys : ∀ key ∈ grammar.keys, key.isNonterminal = true)
    (hcheck : grammar.checkComplete = .ok ()) {epsilonFree : Grammar}
    (hepsilonFree : grammar.toEpsilonFree keepEmptyStart = .ok epsilonFree) :
    (grammar.convert keepEmptyStart = .error .poolExhausted ∧
      26 < grammar.keys.length + grammar.emptyStartCost keepEmptyStart +
        epsilonFree.removeUnits.letterCost) ∨
    ∃ stages, grammar.convert keepEmptyStart = .ok stages ∧
      grammar.keys.length + grammar.emptyStartCost keepEmptyStart +
        epsilonFree.removeUnits.letterCost ≤ 26 ∧
      stages.binary.keys.length = grammar.keys.length + grammar.emptyStartCost keepEmptyStart +
        epsilonFree.removeUnits.letterCost := by
  have hpool : epsilonFree.removeUnits.free.length +
      (grammar.keys.length + grammar.emptyStartCost keepEmptyStart) = 26 := by
    rw [← length_keys_toEpsilonFree hepsilonFree, ← epsilonFree.keys_removeUnits]
    apply length_free_add
    intro key hkey
    rw [keys_removeUnits] at hkey
    exact isNonterminal_toEpsilonFree hkeys hepsilonFree key hkey
  rcases Nat.lt_or_ge epsilonFree.removeUnits.free.length epsilonFree.removeUnits.letterCost
    with hlt | hle
  · exact .inl ⟨convert_of_letterCost_lt hcheck hepsilonFree hlt, by omega⟩
  · obtain ⟨stages, hok, rfl⟩ := convert_of_letterCost_le hcheck hepsilonFree hle
    have hconversion := conversion_of_ok hok
    refine .inr ⟨stages, hok, by omega, ?_⟩
    rw [hconversion.length_keys_binary, hconversion.unitFree]

/-- The cases of a conversion: nothing to convert, an undefined nonterminal, or else only the pool
decides. -/
theorem convert_cases (hkeys : ∀ key ∈ grammar.keys, key.isNonterminal = true)
    (keepEmptyStart : Bool) :
    (grammar.keys = [] ∧ grammar.convert keepEmptyStart = .error .emptyGrammar) ∨
    (grammar.keys ≠ [] ∧ ∃ symbol referrer,
      grammar.uses.find? grammar.isUndefined = some (referrer, symbol) ∧
      grammar.convert keepEmptyStart = .error (.undefinedNonterminal symbol referrer)) ∨
    (grammar.keys ≠ [] ∧ grammar.Closed ∧
      (grammar.convert keepEmptyStart = .error .poolExhausted ∨
        ∃ stages, grammar.convert keepEmptyStart = .ok stages)) := by
  by_cases hne : grammar.keys = []
  · exact .inl ⟨hne, convert_of_incomplete (checkComplete_of_keys_eq_nil hne)⟩
  · cases hfind : grammar.uses.find? grammar.isUndefined with
    | some use =>
        obtain ⟨referrer, symbol⟩ := use
        exact .inr (.inl ⟨hne, symbol, referrer, rfl,
          convert_of_incomplete (checkComplete_of_undefined hne hfind)⟩)
    | none =>
        have hclosed := closed_iff_find?_eq_none.2 hfind
        have hcheck := checkComplete_of_closed hne hclosed
        refine .inr (.inr ⟨hne, hclosed, ?_⟩)
        rcases Nat.lt_or_ge 26 (grammar.keys.length + grammar.emptyStartCost keepEmptyStart)
          with hlt | hle
        · exact .inl (convert_of_toEpsilonFree_error hcheck (toEpsilonFree_of_lt hkeys hlt))
        · obtain ⟨epsilonFree, hepsilonFree⟩ := toEpsilonFree_of_le hkeys hle
          rcases convert_of_closed hkeys hcheck hepsilonFree with ⟨herror, -⟩ | ⟨stages, hok, -⟩
          · exact .inl herror
          · exact .inr ⟨stages, hok⟩

theorem convert_eq_emptyGrammar_iff (hkeys : ∀ key ∈ grammar.keys, key.isNonterminal = true) :
    grammar.convert keepEmptyStart = .error .emptyGrammar ↔ grammar.keys = [] := by
  constructor
  · intro h
    obtain ⟨hnil, -⟩ | ⟨-, symbol, referrer, -, hundefined⟩ | ⟨-, -, hpool | ⟨stages, hok⟩⟩ :=
      convert_cases hkeys keepEmptyStart
    · exact hnil
    · rw [h] at hundefined
      cases hundefined
    · rw [h] at hpool
      cases hpool
    · rw [h] at hok
      cases hok
  · exact fun hnil => convert_of_incomplete (checkComplete_of_keys_eq_nil hnil)

theorem convert_eq_undefinedNonterminal_iff
    (hkeys : ∀ key ∈ grammar.keys, key.isNonterminal = true) (hne : grammar.keys ≠ [])
    {symbol referrer : Symbol} :
    grammar.convert keepEmptyStart = .error (.undefinedNonterminal symbol referrer) ↔
      grammar.uses.find? grammar.isUndefined = some (referrer, symbol) := by
  constructor
  · intro h
    obtain ⟨hnil, -⟩ | ⟨-, other, user, hfind, hundefined⟩ | ⟨-, -, hpool | ⟨stages, hok⟩⟩ :=
      convert_cases hkeys keepEmptyStart
    · exact absurd hnil hne
    · rw [h] at hundefined
      cases hundefined
      exact hfind
    · rw [h] at hpool
      cases hpool
    · rw [h] at hok
      cases hok
  · exact fun hfind => convert_of_incomplete (checkComplete_of_undefined hne hfind)

/-- **Failure.** A conversion reports a grammar without rules, then the first use of an undefined
nonterminal. Otherwise it fails exactly where the keys, the empty start and the letters of the last
two stages together exceed the pool, and where they do not, its outcome has just so many keys. -/
theorem convert_fails_exactly (hkeys : ∀ key ∈ grammar.keys, key.isNonterminal = true) :
    (grammar.convert keepEmptyStart = .error .emptyGrammar ↔ grammar.keys = []) ∧
    (grammar.keys ≠ [] →
      ((∃ symbol referrer,
          grammar.convert keepEmptyStart = .error (.undefinedNonterminal symbol referrer)) ↔
        ∃ production ∈ grammar.rightSides, ∃ symbol ∈ production,
          symbol.isNonterminal = true ∧ symbol ∉ grammar.keys) ∧
      ∀ symbol referrer,
        grammar.convert keepEmptyStart = .error (.undefinedNonterminal symbol referrer) ↔
          grammar.uses.find? grammar.isUndefined = some (referrer, symbol)) ∧
    (grammar.keys ≠ [] → grammar.Closed →
      (26 < grammar.keys.length + grammar.emptyStartCost keepEmptyStart →
        grammar.convert keepEmptyStart = .error .poolExhausted) ∧
      (grammar.keys.length + grammar.emptyStartCost keepEmptyStart ≤ 26 →
        ∃ epsilonFree, grammar.toEpsilonFree keepEmptyStart = .ok epsilonFree ∧
          (grammar.convert keepEmptyStart = .error .poolExhausted ↔
            26 < grammar.keys.length + grammar.emptyStartCost keepEmptyStart +
              epsilonFree.removeUnits.letterCost) ∧
          (grammar.keys.length + grammar.emptyStartCost keepEmptyStart +
              epsilonFree.removeUnits.letterCost ≤ 26 →
            ∃ stages, grammar.convert keepEmptyStart = .ok stages ∧
              stages.binary.keys.length = grammar.keys.length +
                grammar.emptyStartCost keepEmptyStart + epsilonFree.removeUnits.letterCost))) := by
  refine ⟨convert_eq_emptyGrammar_iff hkeys, fun hne => ⟨?_, fun symbol referrer => ?_⟩,
    fun hne hclosed => ⟨fun hlt => ?_, fun hle => ?_⟩⟩
  · simp only [convert_eq_undefinedNonterminal_iff hkeys hne]
    exact exists_find?_eq_some_iff
  · exact convert_eq_undefinedNonterminal_iff hkeys hne
  · exact convert_of_toEpsilonFree_error (checkComplete_of_closed hne hclosed)
      (toEpsilonFree_of_lt hkeys hlt)
  · obtain ⟨epsilonFree, hepsilonFree⟩ := toEpsilonFree_of_le hkeys hle
    refine ⟨epsilonFree, hepsilonFree, ?_⟩
    obtain ⟨herror, hlt⟩ | ⟨stages, hok, hfits, hlength⟩ :=
      convert_of_closed hkeys (checkComplete_of_closed hne hclosed) hepsilonFree
    · exact ⟨iff_of_true herror hlt, fun hfits => absurd hlt (Nat.not_lt.2 hfits)⟩
    · refine ⟨iff_of_false (fun herror => ?_) (Nat.not_lt.2 hfits), fun _ => ⟨stages, hok, hlength⟩⟩
      rw [hok] at herror
      cases herror

theorem convert_fails_exactly_nestedPairs :
    (∀ key ∈ nestedPairs.keys, key.isNonterminal = true) ∧ nestedPairs.keys ≠ [] ∧
      nestedPairs.Closed ∧ nestedPairs.keys.length + nestedPairs.emptyStartCost true = 3 ∧
      ∃ epsilonFree, nestedPairs.toEpsilonFree true = .ok epsilonFree ∧
        epsilonFree.removeUnits.letterCost = 4 ∧
        ∃ stages, nestedPairs.convert true = .ok stages ∧ stages.binary.keys.length = 7 := by
  have hkeys : ∀ key ∈ nestedPairs.keys, key.isNonterminal = true := by decide
  have hne : nestedPairs.keys ≠ [] := by decide
  have hclosed : nestedPairs.Closed := closed_iff_find?_eq_none.2 (by decide)
  have hstart : nestedPairs.keys.length + nestedPairs.emptyStartCost true = 3 := by decide +kernel
  have hcost : (nestedPairs.toEpsilonFree true).toOption.map (·.removeUnits.letterCost) =
      some 4 := by
    decide +kernel
  have hroom : nestedPairs.keys.length + nestedPairs.emptyStartCost true ≤ 26 := by
    rw [hstart]
    decide
  obtain ⟨epsilonFree, hepsilonFree, -, hfits⟩ :=
    ((convert_fails_exactly hkeys).2.2 hne hclosed).2 hroom
  rw [hepsilonFree] at hcost
  have hletters : epsilonFree.removeUnits.letterCost = 4 := Option.some.inj hcost
  rw [hstart, hletters] at hfits
  exact ⟨hkeys, hne, hclosed, hstart, epsilonFree, hepsilonFree, hletters, hfits (by decide)⟩

end ChomskyForm.Grammar
