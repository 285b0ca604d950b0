import ChomskyForm.Proofs.Budget
import ChomskyForm.Proofs.Ends
import ChomskyForm.Proofs.Language
import ChomskyForm.Proofs.Normalization
import ChomskyForm.Proofs.Preservation
import ChomskyForm.Proofs.Recognition

/-!
# A start symbol without rules

The check before a conversion looks at right sides only, so a start symbol may have been chosen that
the grammar does not define. Such a grammar has no words. Its start symbol is one of the free
letters, though, and where the last two stages take so many of them that its turn comes, it starts
to derive what the letter stands for: an isolated terminal or the end of a long alternative.
-/

namespace ChomskyForm.Grammar

variable {grammar : Grammar} {start : Symbol} {keepEmptyStart : Bool} {stages : Stages}

/-- Only nonterminals are defined, and the chosen start symbol is a nonterminal that is not. -/
structure UndefinedStart (grammar : Grammar) (start : Symbol) : Prop where
  isNonterminal_keys : ∀ key ∈ grammar.keys, key.isNonterminal = true
  chosenStart_eq : grammar.chosenStart = some start
  isNonterminal : start.isNonterminal = true
  notMem_keys : start ∉ grammar.keys

theorem not_generates_of_notMem_keys (hnonterminal : start.isNonterminal = true)
    (habsent : start ∉ grammar.keys) (word : List Symbol) : ¬grammar.Generates start word := by
  rw [generates_nonterminal_iff hnonterminal, alternatives_eq_nil habsent]
  simp

namespace UndefinedStart

theorem start?_eq (h : grammar.UndefinedStart start) : grammar.start? = some start := by
  rw [start?, h.chosenStart_eq]
  rfl

/-- A symbol without rules is not nullable. -/
theorem not_needsEmptyStart (h : grammar.UndefinedStart start) :
    ¬grammar.NeedsEmptyStart keepEmptyStart := by
  rintro ⟨-, other, hother, hnullable⟩
  rw [h.start?_eq] at hother
  cases hother
  exact h.notMem_keys (mem_keys_of_mem_nullable hnullable)

end UndefinedStart

namespace Conversion

theorem keys_unitFree_of_not (h : Conversion grammar keepEmptyStart stages)
    (hneeds : ¬grammar.NeedsEmptyStart keepEmptyStart) : stages.unitFree.keys = grammar.keys := by
  rcases toEpsilonFree_eq_ok h.epsilonFree with ⟨-, heq⟩ | ⟨hyes, -⟩
  · rw [h.keys_unitFree, heq, keys_removeEpsilon]
  · exact absurd hyes hneeds

theorem isNonterminal_binary (h : Conversion grammar keepEmptyStart stages)
    (hkeys : ∀ key ∈ grammar.keys, key.isNonterminal = true) :
    ∀ key ∈ stages.binary.keys, key.isNonterminal = true := by
  apply h.grows_binary.isNonterminal
  rw [h.keys_unitFree]
  exact isNonterminal_toEpsilonFree hkeys h.epsilonFree

end Conversion

namespace UndefinedStart

theorem start?_binary (hstart : grammar.UndefinedStart start)
    (h : Conversion grammar keepEmptyStart stages) : stages.binary.start? = some start :=
  (h.start?_eq_of_not hstart.not_needsEmptyStart).trans hstart.start?_eq

theorem keys_unitFree (hstart : grammar.UndefinedStart start)
    (h : Conversion grammar keepEmptyStart stages) : stages.unitFree.keys = grammar.keys :=
  h.keys_unitFree_of_not hstart.not_needsEmptyStart

theorem keys_binary (hstart : grammar.UndefinedStart start)
    (h : Conversion grammar keepEmptyStart stages) :
    stages.binary.keys = grammar.keys ++ grammar.free.take stages.unitFree.letterCost := by
  rw [h.grows_binary.keys_eq, free, free, hstart.keys_unitFree h]

theorem keys_isolated (hstart : grammar.UndefinedStart start)
    (h : Conversion grammar keepEmptyStart stages) :
    stages.isolated.keys =
      grammar.keys ++ grammar.free.take stages.unitFree.longTerminals.toFinset.card := by
  rw [h.grows_isolated.keys_eq, length_newItems_nil, free, free, hstart.keys_unitFree h]

theorem recognizes_binary_iff (hstart : grammar.UndefinedStart start)
    (h : Conversion grammar keepEmptyStart stages) {text : List Char} :
    stages.binary.recognizes text = true ↔
      ∃ word, text = word.map Symbol.char ∧ stages.binary.Generates start word := by
  have hnormal := h.isChomskyNormalForm_of_not hstart.not_needsEmptyStart
  simp only [recognizes_iff_yields, hstart.start?_binary h, Option.some.injEq, exists_eq_left',
    generates_iff_of_normalForm hnormal hstart.isNonterminal]

theorem mem_words_binary_iff (hstart : grammar.UndefinedStart start)
    (h : Conversion grammar keepEmptyStart stages) {maxLength : Nat} {word : List Symbol} :
    word ∈ stages.binary.words maxLength ↔
      word.length ≤ maxLength ∧ stages.binary.Generates start word := by
  have hsome := hstart.start?_binary h
  have hnonterminal : ∀ other, stages.binary.start? = some other →
      other.isNonterminal = true := by
    intro other hother
    rw [hsome] at hother
    exact Option.some.inj hother ▸ hstart.isNonterminal
  rw [mem_words_iff (h.isNonterminal_binary hstart.isNonterminal_keys) hnonterminal, hsome]
  simp only [Option.some.injEq, exists_eq_left']

/-- A letter that is left over keeps deriving nothing. -/
theorem not_generates_binary (hstart : grammar.UndefinedStart start)
    (h : Conversion grammar keepEmptyStart stages)
    (hleft : start ∉ grammar.free.take stages.unitFree.letterCost) (word : List Symbol) :
    ¬stages.binary.Generates start word := by
  apply not_generates_of_notMem_keys hstart.isNonterminal
  rw [hstart.keys_binary h, List.mem_append, not_or]
  exact ⟨hstart.notMem_keys, hleft⟩

/-- Taken by the isolation, the letter stands for one terminal. -/
theorem generates_binary_of_isolated (hstart : grammar.UndefinedStart start)
    (h : Conversion grammar keepEmptyStart stages)
    (htaken : start ∈ grammar.free.take stages.unitFree.longTerminals.toFinset.card) :
    ∃ terminal ∈ stages.unitFree.longTerminals,
      ∀ word, stages.binary.Generates start word ↔ word = [terminal] := by
  have hkey : start ∈ stages.isolated.keys := by
    rw [hstart.keys_isolated h]
    exact List.mem_append_right _ htaken
  have hnew : start ∉ stages.unitFree.keys := by
    rw [hstart.keys_unitFree h]
    exact hstart.notMem_keys
  obtain ⟨terminal, hlong, hsingle⟩ :=
    (alternatives_of_isolateTerminals h.isolated).2 start hkey hnew
  refine ⟨terminal, hlong, fun word => ?_⟩
  rw [h.binarization.generates_iff h.isolated_closed hkey,
    generates_nonterminal_iff hstart.isNonterminal, hsingle]
  simp only [List.mem_singleton, exists_eq_left]
  exact generates_terminal_iff (isTerminal_of_mem_longTerminals hlong)

/-- Taken by the binarization, the letter stands for an end of a long alternative. -/
theorem generates_binary_of_paired (hstart : grammar.UndefinedStart start)
    (h : Conversion grammar keepEmptyStart stages)
    (hnot : start ∉ grammar.free.take stages.unitFree.longTerminals.toFinset.card)
    (htaken : start ∈ grammar.free.take stages.unitFree.letterCost) :
    ∃ source ∈ stages.isolated.rightSides, ∃ rest, rest <:+ source ∧ 2 ≤ rest.length ∧
      rest.length < source.length ∧
      ∀ word, stages.binary.Generates start word ↔ stages.isolated.Derives rest word := by
  apply exists_end_generates_iff h.binary h.isolated_closed
  · rw [hstart.keys_binary h]
    exact List.mem_append_right _ htaken
  · rw [hstart.keys_isolated h, List.mem_append, not_or]
    exact ⟨hstart.notMem_keys, hnot⟩

end UndefinedStart

/-- **Undefined start.** A grammar whose start symbol has no rules has no words, and the outcome of
a conversion keeps the start symbol. Whether it has words depends on the letters that the conversion
takes: none where the start symbol is not among them, one terminal where it was taken for a
terminal, and otherwise the words of the end of a long alternative for which it was taken. -/
theorem undefined_start_derives (hstart : grammar.UndefinedStart start)
    (h : grammar.convert keepEmptyStart = .ok stages) :
    (∀ word, ¬grammar.Generates start word) ∧
    stages.binary.start? = some start ∧
    (∀ text, stages.binary.recognizes text = true ↔
      ∃ word, text = word.map Symbol.char ∧ stages.binary.Generates start word) ∧
    (∀ maxLength word, word ∈ stages.binary.words maxLength ↔
      word.length ≤ maxLength ∧ stages.binary.Generates start word) ∧
    (start ∉ grammar.free.take stages.unitFree.letterCost →
      ∀ word, ¬stages.binary.Generates start word) ∧
    (start ∈ grammar.free.take stages.unitFree.longTerminals.toFinset.card →
      ∃ terminal ∈ stages.unitFree.longTerminals,
        ∀ word, stages.binary.Generates start word ↔ word = [terminal]) ∧
    (start ∉ grammar.free.take stages.unitFree.longTerminals.toFinset.card →
      start ∈ grammar.free.take stages.unitFree.letterCost →
      ∃ source ∈ stages.isolated.rightSides, ∃ rest, rest <:+ source ∧ 2 ≤ rest.length ∧
        rest.length < source.length ∧
        ∀ word, stages.binary.Generates start word ↔ stages.isolated.Derives rest word) := by
  have hconversion := conversion_of_ok h
  exact ⟨not_generates_of_notMem_keys hstart.isNonterminal hstart.notMem_keys,
    hstart.start?_binary hconversion, fun _ => hstart.recognizes_binary_iff hconversion,
    fun _ _ => hstart.mem_words_binary_iff hconversion, hstart.not_generates_binary hconversion,
    hstart.generates_binary_of_isolated hconversion, hstart.generates_binary_of_paired hconversion⟩

/-- One rule with a terminal beside its symbol, and a start symbol of choice. -/
def repeatedLetter (start : Symbol) : Grammar :=
  (sampleGrammar [('S', ["aS", "a"])]).setStart start

theorem undefinedStart_repeatedLetter (hnonterminal : start.isNonterminal = true)
    (hne : start ≠ ⟨'S', rfl⟩) : (repeatedLetter start).UndefinedStart start where
  isNonterminal_keys := show ∀ key ∈ (repeatedLetter ⟨'S', rfl⟩).keys, key.isNonterminal = true by
    decide
  chosenStart_eq := rfl
  isNonterminal := hnonterminal
  notMem_keys := by
    have hkeys : (repeatedLetter start).keys = [⟨'S', rfl⟩] :=
      show (repeatedLetter ⟨'S', rfl⟩).keys = _ by decide
    rw [hkeys, List.mem_singleton]
    exact hne

/-- Of the two undefined letters, the first is taken for the terminal. -/
theorem undefined_start_derives_repeatedLetter :
    (repeatedLetter ⟨'A', rfl⟩).UndefinedStart ⟨'A', rfl⟩ ∧
    (repeatedLetter ⟨'B', rfl⟩).UndefinedStart ⟨'B', rfl⟩ ∧
    (∃ stages, (repeatedLetter ⟨'A', rfl⟩).convert false = .ok stages ∧
      ∃ terminal, ∀ word, stages.binary.Generates ⟨'A', rfl⟩ word ↔ word = [terminal]) ∧
    ∃ stages, (repeatedLetter ⟨'B', rfl⟩).convert false = .ok stages ∧
      ∀ word, ¬stages.binary.Generates ⟨'B', rfl⟩ word := by
  have hfirst : (repeatedLetter ⟨'A', rfl⟩).UndefinedStart ⟨'A', rfl⟩ :=
    undefinedStart_repeatedLetter rfl (by decide)
  have hsecond : (repeatedLetter ⟨'B', rfl⟩).UndefinedStart ⟨'B', rfl⟩ :=
    undefinedStart_repeatedLetter rfl (by decide)
  refine ⟨hfirst, hsecond, ?_, ?_⟩
  · have hcost : ((repeatedLetter ⟨'A', rfl⟩).convert false).toOption.map
        (fun stages => stages.unitFree.longTerminals.toFinset.card) = some 1 := by
      decide +kernel
    obtain ⟨stages, h, hcard⟩ := exists_ok_of_toOption_map hcost
    obtain ⟨-, -, -, -, -, hisolated, -⟩ := undefined_start_derives hfirst h
    obtain ⟨terminal, -, hgenerates⟩ := hisolated (hcard ▸ by decide)
    exact ⟨stages, h, terminal, hgenerates⟩
  · have hcost : ((repeatedLetter ⟨'B', rfl⟩).convert false).toOption.map
        (fun stages => stages.unitFree.letterCost) = some 1 := by
      decide +kernel
    obtain ⟨stages, h, hletters⟩ := exists_ok_of_toOption_map hcost
    obtain ⟨-, -, -, -, hleft, -⟩ := undefined_start_derives hsecond h
    exact ⟨stages, h, hleft (hletters ▸ by decide)⟩

/-- The outcome of a conversion may derive a word though the grammar derived none. -/
theorem exists_word_from_undefined_start :
    ¬∀ (grammar : Grammar) (start : Symbol) (keepEmptyStart : Bool) (stages : Stages),
      grammar.UndefinedStart start → grammar.convert keepEmptyStart = .ok stages →
      ∀ word, ¬stages.binary.Generates start word := by
  intro hnone
  have halternatives : ((repeatedLetter ⟨'A', rfl⟩).convert false).toOption.map
      (fun stages => stages.binary.alternatives ⟨'A', rfl⟩) = some [[⟨'a', rfl⟩]] := by
    decide +kernel
  obtain ⟨stages, h, hletter⟩ := exists_ok_of_toOption_map halternatives
  have hgenerates : stages.binary.Generates ⟨'A', rfl⟩ [⟨'a', rfl⟩] :=
    (generates_nonterminal_iff rfl).2
      ⟨[⟨'a', rfl⟩], hletter ▸ List.mem_cons_self, .terminal rfl .nil⟩
  exact hnone _ _ false stages (undefinedStart_repeatedLetter rfl (by decide)) h _ hgenerates

end ChomskyForm.Grammar
