import ChomskyForm.Proofs.Stages

/-!
# Languages through a conversion

A successful conversion keeps the words of every key apart from the empty word. With an empty start
on request, the start symbol of the outcome derives exactly the words of the start symbol.
-/

namespace ChomskyForm.Grammar

variable {grammar : Grammar} {keepEmptyStart : Bool} {stages : Stages}

namespace Conversion

/-- The first stage drops the empty word from every key. -/
theorem generates_epsilonFree_iff (h : Conversion grammar keepEmptyStart stages)
    (hkeys : ∀ key ∈ grammar.keys, key.isNonterminal = true) {symbol : Symbol}
    (hsymbol : symbol ∈ grammar.keys) {word : List Symbol} :
    stages.epsilonFree.Generates symbol word ↔ grammar.Generates symbol word ∧ word ≠ [] := by
  rw [← generates_removeEpsilon_iff hkeys (hkeys symbol hsymbol)]
  rcases toEpsilonFree_eq_ok h.epsilonFree with ⟨-, heq⟩ | ⟨-, start, fresh, -, -, hfree, heq⟩
  · rw [heq]
  · have hreduced : symbol ∈ grammar.reduced.keys := by
      rw [keys_removeEpsilon]
      exact hsymbol
    rw [heq]
    exact generates_withEmptyStart_iff h.closed.removeEpsilon (notMem_keys_reduced hfree) hreduced

theorem generates_iff (h : Conversion grammar keepEmptyStart stages)
    (hkeys : ∀ key ∈ grammar.keys, key.isNonterminal = true) {symbol : Symbol}
    (hsymbol : symbol ∈ grammar.keys) {word : List Symbol} :
    stages.binary.Generates symbol word ↔ grammar.Generates symbol word ∧ word ≠ [] := by
  calc stages.binary.Generates symbol word
      ↔ stages.epsilonFree.Generates symbol word := h.generates_binary_iff (h.keys_subset hsymbol)
    _ ↔ grammar.Generates symbol word ∧ word ≠ [] := h.generates_epsilonFree_iff hkeys hsymbol

theorem start?_eq_of_not (h : Conversion grammar keepEmptyStart stages)
    (hneeds : ¬grammar.NeedsEmptyStart keepEmptyStart) :
    stages.binary.start? = grammar.start? := by
  rcases toEpsilonFree_eq_ok h.epsilonFree with ⟨-, heq⟩ | ⟨hyes, -⟩
  · rw [h.start?_binary, heq, start?_reduced]
  · exact absurd hyes hneeds

/-- An empty start derives what the start symbol of the grammar derives. -/
theorem generates_emptyStart_iff (h : Conversion grammar keepEmptyStart stages)
    (hkeys : ∀ key ∈ grammar.keys, key.isNonterminal = true)
    (hneeds : grammar.NeedsEmptyStart keepEmptyStart) :
    ∃ start finalStart, grammar.start? = some start ∧ stages.binary.start? = some finalStart ∧
      ∀ word, stages.binary.Generates finalStart word ↔ grammar.Generates start word := by
  rcases toEpsilonFree_eq_ok h.epsilonFree with ⟨hno, -⟩ | ⟨-, start, fresh, hstart, hnullable,
    hfree, heq⟩
  · exact absurd hneeds hno
  · have hnonterminal := (mem_free.1 hfree).1
    have hfresh := notMem_keys_reduced hfree
    have hstartKey := mem_keys_of_mem_nullable hnullable
    have hfreshKey : fresh ∈ stages.epsilonFree.keys := by
      rw [heq, keys_withEmptyStart hfresh]
      exact List.mem_append_right _ List.mem_cons_self
    refine ⟨start, fresh, hstart, by rw [h.start?_binary, heq, start?_withEmptyStart], ?_⟩
    intro word
    rw [h.generates_binary_iff hfreshKey, heq,
      generates_fresh_iff h.closed.removeEpsilon hfresh hnonterminal (mem_keys_reduced hnullable),
      generates_removeEpsilon_iff hkeys (hkeys start hstartKey)]
    constructor
    · rintro (⟨hword, -⟩ | rfl)
      · exact hword
      · exact generates_nil_of_mem_nullable hkeys hnullable
    · intro hword
      by_cases hnil : word = []
      · exact .inr hnil
      · exact .inl ⟨hword, hnil⟩

end Conversion

/-- **Preservation.** A conversion keeps the words of every key but the empty one and, where the
empty word is not asked for, the start symbol. Where it is, the start symbol of the outcome derives
exactly the words of the start symbol. -/
theorem convert_preserves_languages (hkeys : ∀ key ∈ grammar.keys, key.isNonterminal = true)
    (hstart : ∀ start, grammar.start? = some start → start ∈ grammar.keys)
    (h : grammar.convert keepEmptyStart = .ok stages) :
    (∀ key ∈ grammar.keys, ∀ word,
      stages.binary.Generates key word ↔ grammar.Generates key word ∧ word ≠ []) ∧
    (keepEmptyStart = false → stages.binary.start? = grammar.start?) ∧
    (keepEmptyStart = true → ∃ start finalStart, grammar.start? = some start ∧
      stages.binary.start? = some finalStart ∧
      ∀ word, stages.binary.Generates finalStart word ↔ grammar.Generates start word) := by
  have hconversion := conversion_of_ok h
  refine ⟨fun key hkey word => hconversion.generates_iff hkeys hkey, ?_, ?_⟩
  · rintro rfl
    exact hconversion.start?_eq_of_not fun hneeds => Bool.false_ne_true hneeds.1
  · intro hkeep
    by_cases hneeds : grammar.NeedsEmptyStart keepEmptyStart
    · exact hconversion.generates_emptyStart_iff hkeys hneeds
    · obtain ⟨start, hsome⟩ : ∃ start, grammar.start? = some start := by
        obtain ⟨key, rest, hcons⟩ := List.exists_cons_of_ne_nil hconversion.keys_ne_nil
        rw [start?, hcons]
        cases grammar.chosenStart <;> simp
      have hkey := hstart start hsome
      refine ⟨start, start, hsome, (hconversion.start?_eq_of_not hneeds).trans hsome, ?_⟩
      intro word
      rw [hconversion.generates_iff hkeys hkey]
      apply and_iff_left_of_imp
      rintro hword rfl
      exact hneeds ⟨hkeep, start, hsome, mem_nullable_of_generates hword⟩

theorem convert_preserves_languages_nestedPairs :
    (∀ key ∈ nestedPairs.keys, key.isNonterminal = true) ∧
    (∀ start, nestedPairs.start? = some start → start ∈ nestedPairs.keys) ∧
    ∃ stages, nestedPairs.convert true = .ok stages ∧
      (∀ key ∈ nestedPairs.keys, ∀ word,
        stages.binary.Generates key word ↔ nestedPairs.Generates key word ∧ word ≠ []) ∧
      ∃ start finalStart, nestedPairs.start? = some start ∧
        stages.binary.start? = some finalStart ∧
        ∀ word, stages.binary.Generates finalStart word ↔ nestedPairs.Generates start word := by
  have hkeys : ∀ key ∈ nestedPairs.keys, key.isNonterminal = true := by decide
  have hstart : ∀ start, nestedPairs.start? = some start → start ∈ nestedPairs.keys := by
    have hsome : nestedPairs.start? = some ⟨'S', rfl⟩ := by decide
    intro start h
    rw [← Option.some.inj (hsome.symm.trans h)]
    decide
  obtain ⟨stages, h⟩ := exists_convert_nestedPairs
  obtain ⟨hgenerates, -, hempty⟩ := convert_preserves_languages hkeys hstart h
  exact ⟨hkeys, hstart, stages, h, hgenerates, hempty rfl⟩

end ChomskyForm.Grammar
