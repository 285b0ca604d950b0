import ChomskyForm.Grammar.Render
import ChomskyForm.Grammar.Samples
import ChomskyForm.Proofs.Complete
import ChomskyForm.Proofs.Unique

/-!
# Isolation under a kept mapping

The mapping outlives the grammar, so an isolation may start from letters that an earlier one has
recorded. It keeps the languages as long as each of them is still defined by its terminal alone, and
it leaves the mapping in this state for the next one. The letters of a first isolation stand on no
right side of a closed grammar, so to put the terminals back for them restores the alternatives.

The mapping only ever grows at its end, also where the letters run out: the grammar is given up
then, but the terminals that got a letter stay recorded.
-/

namespace ChomskyForm

variable {mapping extended : TerminalMapping} {terminal letter : Symbol} {production : Production}

/-- The terminal that the letter was recorded for. -/
def TerminalMapping.terminal? (mapping : TerminalMapping) (letter : Symbol) : Option Symbol :=
  (mapping.entries.find? fun entry => entry.2 = letter).map Prod.fst

theorem TerminalMapping.get?_of_terminal?_eq_some (h : mapping.terminal? letter = some terminal) :
    mapping.get? terminal = some letter := by
  obtain ⟨entry, hfind, rfl⟩ := Option.map_eq_some_iff.1 h
  have hletter : entry.2 = letter := by simpa using List.find?_some hfind
  rw [OrderedMap.get?_eq_some_iff, ← hletter]
  exact List.mem_of_find?_eq_some hfind

theorem TerminalMapping.exists_terminal?_eq_some (h : mapping.get? terminal = some letter) :
    ∃ other, mapping.terminal? letter = some other := by
  have hfound : (mapping.entries.find? fun entry => entry.2 = letter).isSome :=
    List.find?_isSome.2 ⟨_, OrderedMap.get?_eq_some_iff.1 h, decide_eq_true rfl⟩
  obtain ⟨entry, hentry⟩ := Option.isSome_iff_exists.1 hfound
  exact ⟨entry.1, Option.map_eq_some_iff.2 ⟨entry, hentry, rfl⟩⟩

/-- Puts the terminals back where their letters stand. -/
def Production.restore (mapping : TerminalMapping) (production : Production) : Production :=
  production.map fun symbol => (mapping.terminal? symbol).getD symbol

/-- Where each letter stands for one terminal and none was used before, nothing is lost. -/
theorem Production.restore_isolate
    (hterminal : ∀ symbol isolated, mapping.get? symbol = some isolated →
      symbol.isTerminal = true)
    (hone : ∀ symbol other isolated, mapping.get? symbol = some isolated →
      mapping.get? other = some isolated → symbol = other)
    (hunused : ∀ symbol isolated, mapping.get? symbol = some isolated → isolated ∉ production) :
    (production.isolate mapping).restore mapping = production := by
  have hkept : ∀ symbol ∈ production, (mapping.terminal? symbol).getD symbol = symbol := by
    intro symbol hsymbol
    cases hfound : mapping.terminal? symbol with
    | none => rfl
    | some source =>
        have hget := TerminalMapping.get?_of_terminal?_eq_some hfound
        exact absurd hsymbol (hunused source symbol hget)
  by_cases hlong : 1 < production.length
  · rw [Grammar.isolate_eq_map hterminal hlong, restore, List.map_map]
    refine (List.map_congr_left fun symbol hsymbol => ?_).trans (List.map_id _)
    rw [Function.comp_apply]
    cases hget : mapping.get? symbol with
    | none => exact hkept symbol hsymbol
    | some isolated =>
        obtain ⟨other, hother⟩ := TerminalMapping.exists_terminal?_eq_some hget
        have hsame := hone symbol other isolated hget
          (TerminalMapping.get?_of_terminal?_eq_some hother)
        rw [Option.getD_some, hother, Option.getD_some, ← hsame]
        rfl
  · rw [Grammar.isolate_of_length_le_one (Nat.le_of_not_lt hlong), restore]
    exact (List.map_congr_left hkept).trans (List.map_id _)

namespace Grammar

variable {grammar result : Grammar}

/-- Each letter of the mapping is a key whose only alternative is the terminal it stands for. -/
def Compatible (grammar : Grammar) (mapping : TerminalMapping) : Prop :=
  ∀ terminal letter, mapping.get? terminal = some letter →
    terminal.isTerminal = true ∧ letter ∈ grammar.keys ∧
      grammar.alternatives letter = [[terminal]]

instance : Decidable (grammar.Compatible mapping) :=
  decidable_of_iff (∀ entry ∈ mapping.entries, entry.1.isTerminal = true ∧
      entry.2 ∈ grammar.keys ∧ grammar.alternatives entry.2 = [[entry.1]]) <| by
    simp only [Compatible, OrderedMap.get?_eq_some_iff, Prod.forall]

theorem Compatible.realizes (h : grammar.Compatible mapping)
    (hkeys : ∀ key ∈ grammar.keys, key.isNonterminal = true) : grammar.Realizes mapping := by
  intro terminal letter hget
  obtain ⟨hterminal, hkey, halternatives⟩ := h terminal letter hget
  exact ⟨hterminal, hkeys letter hkey, halternatives⟩

theorem Realizes.compatible (h : grammar.Realizes mapping) : grammar.Compatible mapping := by
  intro terminal letter hget
  obtain ⟨hterminal, -, halternatives⟩ := h terminal letter hget
  have hmem : [terminal] ∈ grammar.alternatives letter := by
    rw [halternatives]
    exact List.mem_cons_self
  exact ⟨hterminal, mem_keys_of_mem_alternatives hmem, halternatives⟩

/-- Isolation changes no length, and nothing at all where there is at most one symbol. -/
theorem forall₂_isolate (mapping : TerminalMapping) (right : List Production) :
    List.Forall₂ (fun before after : Production =>
      after.length = before.length ∧ (before.length ≤ 1 → after = before))
      right (right.map (Production.isolate mapping)) := by
  rw [List.forall₂_map_right_iff, List.forall₂_same]
  exact fun production _ => ⟨length_isolate production, isolate_of_length_le_one⟩

/-- A first isolation of a closed grammar is undone by putting the terminals back. -/
theorem restore_of_isolateTerminals (hclosed : grammar.Closed)
    (h : grammar.isolateTerminals .empty = (extended, .ok result)) {left : Symbol}
    (hleft : left ∈ grammar.keys) :
    (result.alternatives left).map (Production.restore extended) = grammar.alternatives left := by
  obtain ⟨middle, hisolation, -⟩ := isolation_of_ok grammar.realizes_empty h
  rw [(alternatives_of_isolateTerminals h).1 left hleft, List.map_map]
  refine (List.map_congr_left fun production hproduction => ?_).trans (List.map_id _)
  refine Production.restore_isolate (fun symbol isolated hget => ?_) ?_ ?_
  · exact (hisolation.realizes symbol isolated hget).1
  · exact hisolation.realizes.eq_of_get?_eq
  · exact hisolation.notMem_of_closed hclosed hproduction

/-- **Isolation with a kept mapping.** No terminal is left inside a longer alternative. Every
alternative keeps its place and its length, those without two symbols do not change, and every key
keeps its words. The mapping stays compatible, and where it was empty before, putting the terminals
back for their letters gives the alternatives as they were. -/
theorem isolateTerminals_keeps_words (hkeys : ∀ key ∈ grammar.keys, key.isNonterminal = true)
    (hclosed : grammar.Closed) (hmapping : grammar.Compatible mapping)
    (h : grammar.isolateTerminals mapping = (extended, .ok result)) :
    (∀ production ∈ result.rightSides, 1 < production.length →
      ∀ symbol ∈ production, symbol.isTerminal = false) ∧
    grammar.keys <+: result.keys ∧
    (∀ left ∈ grammar.keys, List.Forall₂ (fun before after : Production =>
      after.length = before.length ∧ (before.length ≤ 1 → after = before))
      (grammar.alternatives left) (result.alternatives left)) ∧
    (∀ left ∈ grammar.keys, ∀ word, result.Generates left word ↔ grammar.Generates left word) ∧
    result.Compatible extended ∧
    (mapping = .empty → ∀ left ∈ grammar.keys,
      (result.alternatives left).map (Production.restore extended) =
        grammar.alternatives left) := by
  obtain ⟨middle, hisolation, rfl⟩ := isolation_of_ok (hmapping.realizes hkeys) h
  refine ⟨fun production hproduction hlong symbol hsymbol => ?_, ?_, fun left hleft => ?_,
    fun left hleft word => ?_, hisolation.realizes.isolateAll.compatible, ?_⟩
  · obtain ⟨left, hleft⟩ := mem_rightSides.1 hproduction
    exact Symbol.isTerminal_eq_false_iff.2
      (hisolation.isNonterminal_of_long hleft hlong symbol hsymbol)
  · rw [hisolation.grows_isolateAll.keys_eq]
    exact List.prefix_append _ _
  · rw [hisolation.alternatives_isolateAll_of_mem hleft]
    exact forall₂_isolate extended _
  · exact hisolation.generates_isolateAll_iff hclosed hleft
  · rintro rfl left hleft
    exact restore_of_isolateTerminals hclosed h hleft

/-- A grammar with a letter that an earlier isolation may have left behind. -/
def letterInUse : Grammar := sampleGrammar [('S', ["aSb", "cA", "$"]), ('A', ["a"])]

/-- What the earlier isolation has recorded. -/
def recordInUse : TerminalMapping :=
  ((sampleGrammar [('S', ["aSa"])]).isolateTerminals .empty).1

theorem isolateTerminals_keeps_words_letterInUse :
    (∀ key ∈ letterInUse.keys, key.isNonterminal = true) ∧ letterInUse.Closed ∧
    letterInUse.Compatible recordInUse ∧ letterInUse.Compatible .empty ∧
    (∃ extended result, letterInUse.isolateTerminals recordInUse = (extended, .ok result) ∧
      result.render = "A -> a\nB -> b\nC -> c\nS -> ASB | CA | $\n" ∧
      result.Compatible extended ∧
      ∀ left ∈ letterInUse.keys, ∀ word,
        result.Generates left word ↔ letterInUse.Generates left word) ∧
    ∃ extended result, letterInUse.isolateTerminals .empty = (extended, .ok result) ∧
      result.render = "A -> a\nB -> a\nC -> b\nD -> c\nS -> BSC | DA | $\n" ∧
      ∀ left ∈ letterInUse.keys,
        (result.alternatives left).map (Production.restore extended) =
          letterInUse.alternatives left := by
  have hkeys : ∀ key ∈ letterInUse.keys, key.isNonterminal = true := by decide
  have hclosed : letterInUse.Closed := closed_iff_find?_eq_none.2 (by decide)
  have hkept : letterInUse.Compatible recordInUse := by decide
  have hempty : letterInUse.Compatible .empty := by decide
  have hkeptText : (letterInUse.isolateTerminals recordInUse).2.toOption.map render =
      some "A -> a\nB -> b\nC -> c\nS -> ASB | CA | $\n" := by
    decide +kernel
  have hemptyText : (letterInUse.isolateTerminals .empty).2.toOption.map render =
      some "A -> a\nB -> a\nC -> b\nD -> c\nS -> BSC | DA | $\n" := by
    decide +kernel
  obtain ⟨result, hresult, hrender⟩ := exists_ok_of_toOption_map hkeptText
  obtain ⟨first, hfirst, hrender'⟩ := exists_ok_of_toOption_map hemptyText
  have hok : letterInUse.isolateTerminals recordInUse =
      ((letterInUse.isolateTerminals recordInUse).1, .ok result) := Prod.ext rfl hresult
  have hok' : letterInUse.isolateTerminals .empty =
      ((letterInUse.isolateTerminals .empty).1, .ok first) := Prod.ext rfl hfirst
  obtain ⟨-, -, -, hwords, hcompatible, -⟩ :=
    isolateTerminals_keeps_words hkeys hclosed hkept hok
  obtain ⟨-, -, -, -, -, hrestore⟩ := isolateTerminals_keeps_words hkeys hclosed hempty hok'
  exact ⟨hkeys, hclosed, hkept, hempty, ⟨_, result, hok, hrender, hcompatible, hwords⟩,
    _, first, hok', hrender', hrestore rfl⟩

/-! ### What is recorded -/

/-- The terminals inside longer alternatives that the mapping lacks, each where it occurs first. -/
def unrecorded (grammar : Grammar) (mapping : TerminalMapping) : List Symbol :=
  ((grammar.rightSides.filter (1 < ·.length)).flatten.filter fun symbol =>
    symbol.isTerminal ∧ symbol ∉ mapping.keys).eraseDups

theorem unrecorded_eq (grammar : Grammar) (mapping : TerminalMapping) :
    grammar.unrecorded mapping = newItems mapping.keys grammar.longTerminals := by
  rw [newItems_eq, unrecorded, longTerminals, List.filter_filter]
  congr 2
  funext symbol
  rw [Bool.decide_and, Bool.decide_eq_true, Bool.and_comm]

theorem isolateTerminals_cases (grammar : Grammar) (mapping : TerminalMapping) :
    grammar.free.length < (grammar.unrecorded mapping).length ∧
        (grammar.isolateTerminals mapping).2 = .error .poolExhausted ∨
      (grammar.unrecorded mapping).length ≤ grammar.free.length ∧
        ∃ result, (grammar.isolateTerminals mapping).2 = .ok result := by
  rw [unrecorded_eq, isolateTerminals_eq]
  rcases Nat.lt_or_ge grammar.free.length (newItems mapping.keys grammar.longTerminals).length with
    hlt | hle
  · exact .inl ⟨hlt, if_neg (Nat.not_le.2 hlt)⟩
  · exact .inr ⟨hle, _, if_pos hle⟩

/-- **What an isolation records.** Let the terminals be those inside longer alternatives that the
mapping lacks, in order of first occurrence, and the letters those that no key uses, in alphabetical
order. The isolation fails exactly where there are more terminals than letters. Either way the
mapping keeps its entries as they are and where they are, and behind them come the terminals, each
with its letter, as far as both go: all the terminals after a success, and after a failure as many
as there are letters. -/
theorem isolateTerminals_records_exactly (grammar : Grammar) (mapping : TerminalMapping) :
    grammar.free.Pairwise (· < ·) ∧
    (∀ letter, letter ∈ grammar.free ↔ letter.isNonterminal = true ∧ letter ∉ grammar.keys) ∧
    ((grammar.isolateTerminals mapping).2 = .error .poolExhausted ↔
      grammar.free.length < (grammar.unrecorded mapping).length) ∧
    ((∃ result, (grammar.isolateTerminals mapping).2 = .ok result) ↔
      (grammar.unrecorded mapping).length ≤ grammar.free.length) ∧
    (grammar.isolateTerminals mapping).1.entries =
      mapping.entries ++ (grammar.unrecorded mapping).zip grammar.free := by
  have hentries : (grammar.isolateTerminals mapping).1.entries =
      mapping.entries ++ (grammar.unrecorded mapping).zip grammar.free := by
    rw [unrecorded_eq]
    exact entries_isolateTerminals grammar mapping
  refine ⟨grammar.pairwise_free, fun _ => mem_free, ?_, ?_, hentries⟩
  · rcases grammar.isolateTerminals_cases mapping with ⟨hlt, herror⟩ | ⟨hle, result, hok⟩
    · exact iff_of_true herror hlt
    · refine iff_of_false (fun herror => ?_) (Nat.not_lt.2 hle)
      cases hok.symm.trans herror
  · rcases grammar.isolateTerminals_cases mapping with ⟨hlt, herror⟩ | ⟨hle, hok⟩
    · refine iff_of_false (fun ⟨result, hok⟩ => ?_) (Nat.not_le.2 hlt)
      cases herror.symm.trans hok
    · exact iff_of_true hok hle

/-- Three terminals, and keys that leave two letters. -/
def crowdedKeys : Grammar :=
  sampleGrammar (('A', ["abca"]) :: "BCDEFGHIJKLMNOPQRSTUVWX".toList.map fun key => (key, []))

example : (crowdedKeys.isolateTerminals .empty).2.toOption = none ∧
    (crowdedKeys.isolateTerminals .empty).1.entries =
      [(⟨'a', rfl⟩, ⟨'Y', rfl⟩), (⟨'b', rfl⟩, ⟨'Z', rfl⟩)] := by
  decide +kernel

end Grammar

end ChomskyForm
