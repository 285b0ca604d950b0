import ChomskyForm.Language
import ChomskyForm.Proofs.Stages
import ChomskyForm.Proofs.Unique

/-!
# The terminals of a grammar

No stage of a conversion brings a terminal in, and none loses one: an alternative with a terminal is
neither an epsilon nor a unit production, and a terminal that leaves a long alternative becomes an
alternative of its letter. So the alphabet stays the same even where a stage drops words.
-/

namespace ChomskyForm.Grammar

variable {grammar first second grown result : Grammar} {symbol start fresh : Symbol}

/-- The symbol is on a right side. -/
def Occurs (grammar : Grammar) (symbol : Symbol) : Prop :=
  ∃ left, ∃ production ∈ grammar.alternatives left, symbol ∈ production

theorem any_rightSides_iff :
    grammar.rightSides.any (symbol ∈ ·) = true ↔ grammar.Occurs symbol := by
  simp only [List.any_eq_true, decide_eq_true_iff, mem_rightSides, Occurs]
  constructor
  · rintro ⟨production, ⟨left, hproduction⟩, hsymbol⟩
    exact ⟨left, production, hproduction, hsymbol⟩
  · rintro ⟨left, production, hproduction, hsymbol⟩
    exact ⟨production, ⟨left, hproduction⟩, hsymbol⟩

/-- The alphabet lists the terminals that are on a right side. -/
theorem mem_alphabet :
    symbol ∈ grammar.alphabet ↔ symbol.isTerminal = true ∧ grammar.Occurs symbol := by
  rw [alphabet, List.mem_filter, and_iff_right (Symbol.mem_all symbol), Bool.and_eq_true_iff,
    any_rightSides_iff]

/-- Grammars on whose right sides the same terminals occur have the same alphabet. -/
theorem alphabet_eq_of_occurs_iff
    (h : ∀ symbol, symbol.isTerminal = true → (first.Occurs symbol ↔ second.Occurs symbol)) :
    first.alphabet = second.alphabet := by
  apply List.filter_congr
  intro symbol _
  rw [Bool.eq_iff_iff, Bool.and_eq_true_iff, Bool.and_eq_true_iff, any_rightSides_iff,
    any_rightSides_iff]
  exact and_congr_right (h symbol)

theorem ne_of_isNonterminal {terminal nonterminal : Symbol} (hterminal : terminal.isTerminal = true)
    (hnonterminal : nonterminal.isNonterminal = true) : terminal ≠ nonterminal := by
  rintro rfl
  rw [Symbol.isTerminal_eq_true_iff, hnonterminal] at hterminal
  cases hterminal

/-! ### Through the changes -/

theorem alphabet_removeEpsilon (nullable : List Symbol) :
    (grammar.removeEpsilon nullable).alphabet = grammar.alphabet := by
  apply alphabet_eq_of_occurs_iff
  intro symbol _
  constructor
  · rintro ⟨left, production, hproduction, hsymbol⟩
    obtain ⟨-, longer, hlonger, hdeletes⟩ := mem_alternatives_removeEpsilon.1 hproduction
    exact ⟨left, longer, hlonger, hdeletes.sublist.subset hsymbol⟩
  · rintro ⟨left, production, hproduction, hsymbol⟩
    have hkept := mem_alternatives_removeEpsilon.2
      ⟨List.ne_nil_of_mem hsymbol, production, hproduction, .refl nullable production⟩
    exact ⟨left, production, hkept, hsymbol⟩

theorem alphabet_withEmptyStart (hfresh : fresh ∉ grammar.keys)
    (hstart : start.isNonterminal = true) :
    (grammar.withEmptyStart start fresh).alphabet = grammar.alphabet := by
  apply alphabet_eq_of_occurs_iff
  intro symbol hterminal
  constructor
  · rintro ⟨left, production, hproduction, hsymbol⟩
    rcases (mem_alternatives_withEmptyStart hfresh).1 hproduction with hold | ⟨-, rfl | rfl⟩
    · exact ⟨left, production, hold, hsymbol⟩
    · exact absurd (List.mem_singleton.1 hsymbol) (ne_of_isNonterminal hterminal hstart)
    · cases hsymbol
  · rintro ⟨left, production, hproduction, hsymbol⟩
    exact ⟨left, production, (mem_alternatives_withEmptyStart hfresh).2 (.inl hproduction), hsymbol⟩

theorem alphabet_removeUnits : grammar.removeUnits.alphabet = grammar.alphabet := by
  apply alphabet_eq_of_occurs_iff
  intro symbol hterminal
  constructor
  · rintro ⟨left, production, hproduction, hsymbol⟩
    obtain ⟨-, source, -, hmem⟩ := mem_alternatives_removeUnits.1 hproduction
    exact ⟨source, production, hmem, hsymbol⟩
  · rintro ⟨left, production, hproduction, hsymbol⟩
    have hproper : grammar.isUnit production = false := by
      refine Bool.eq_false_iff.2 fun hunit => ?_
      obtain ⟨target, -, htarget, rfl⟩ := isUnit_iff.1 hunit
      exact ne_of_isNonterminal hterminal htarget (List.mem_singleton.1 hsymbol)
    have hkept := mem_alternatives_removeUnits.2 ⟨hproper, left, .refl, hproduction⟩
    exact ⟨left, production, hkept, hsymbol⟩

theorem alphabet_isolateTerminals {extended : TerminalMapping}
    (h : grammar.isolateTerminals .empty = (extended, .ok result)) :
    result.alphabet = grammar.alphabet := by
  obtain ⟨middle, hisolation, hresult⟩ := isolation_of_ok grammar.realizes_empty h
  obtain ⟨hold, hnew⟩ := alternatives_of_isolateTerminals h
  apply alphabet_eq_of_occurs_iff
  intro symbol hterminal
  constructor
  · rintro ⟨left, production, hproduction, hsymbol⟩
    by_cases hleft : left ∈ grammar.keys
    · rw [hold left hleft] at hproduction
      obtain ⟨source, hsource, rfl⟩ := List.mem_map.1 hproduction
      rcases Isolation.mem_isolate hsymbol with hsymbol | ⟨terminal, hget⟩
      · exact ⟨left, source, hsource, hsymbol⟩
      · have hletter := (hisolation.realizes terminal symbol hget).2.1
        exact absurd rfl (ne_of_isNonterminal hterminal hletter)
    · -- the alternative of a letter is a terminal from inside a long one
      obtain ⟨terminal, hlong, hsingle⟩ :=
        hnew left (mem_keys_of_mem_alternatives hproduction) hleft
      rw [hsingle, List.mem_singleton] at hproduction
      rw [hproduction, List.mem_singleton] at hsymbol
      obtain ⟨source, hsource, hmem⟩ := List.mem_flatten.1 (List.mem_filter.1 hlong).1
      obtain ⟨other, hother⟩ := mem_rightSides.1 (List.mem_filter.1 hsource).1
      exact ⟨other, source, hother, hsymbol ▸ hmem⟩
  · rintro ⟨left, production, hproduction, hsymbol⟩
    by_cases hlong : 1 < production.length
    · have hrecorded : symbol ∈ extended.keys := by
        refine hisolation.records symbol (List.mem_filter.2 ⟨List.mem_flatten.2 ?_, hterminal⟩)
        exact ⟨production, List.mem_filter.2
          ⟨mem_rightSides.2 ⟨left, hproduction⟩, decide_eq_true hlong⟩, hsymbol⟩
      obtain ⟨letter, hget⟩ := Option.ne_none_iff_exists'.1
        (mt OrderedMap.get?_eq_none_iff.1 (not_not.2 hrecorded))
      have hletter := (hisolation.realizes.isolateAll symbol letter hget).2.2
      rw [← hresult] at hletter
      exact ⟨letter, [symbol], hletter ▸ List.mem_cons_self, List.mem_cons_self⟩
    · have hkept : production ∈ result.alternatives left := by
        rw [hold left (mem_keys_of_mem_alternatives hproduction)]
        exact List.mem_map.2
          ⟨production, hproduction, isolate_of_length_le_one (Nat.le_of_not_lt hlong)⟩
      exact ⟨left, production, hkept, hsymbol⟩

/-- What a short production stands for is spelled by itself and the letters in it. -/
theorem Unfolds.occurs {old : List Symbol} {short production : Production}
    (h : grammar.Unfolds old short production) (hsymbol : symbol ∈ production) :
    symbol ∈ short ∨ grammar.Occurs symbol := by
  induction h with
  | short => exact .inl hsymbol
  | @chain first fresh tail rest _ _ _ alternatives _ _ ih =>
      rcases List.mem_cons.1 hsymbol with rfl | hrest
      · exact .inl List.mem_cons_self
      · rcases ih hrest with htail | hoccurs
        · exact .inr ⟨fresh, tail, alternatives ▸ List.mem_cons_self, htail⟩
        · exact .inr hoccurs

theorem Binarization.alphabet_eq (h : Binarization grammar result) :
    result.alphabet = grammar.alphabet := by
  apply alphabet_eq_of_occurs_iff
  intro symbol hterminal
  constructor
  · rintro ⟨left, production, hproduction, hsymbol⟩
    obtain ⟨hmem, -⟩ | ⟨x, y, rfl, hsymbols⟩ := h.mem_alternatives hproduction
    · exact ⟨left, production, hmem, hsymbol⟩
    · obtain ⟨source, hsource, -, hmem⟩ | ⟨hkey, hnew⟩ := hsymbols symbol hsymbol
      · obtain ⟨other, hother⟩ := mem_rightSides.1 hsource
        exact ⟨other, source, hother, hmem⟩
      · have hletter := (mem_free.1 (h.mem_free_of_new hkey hnew)).1
        exact absurd rfl (ne_of_isNonterminal hterminal hletter)
  · rintro ⟨left, production, hproduction, hsymbol⟩
    have hleft := mem_keys_of_mem_alternatives hproduction
    obtain ⟨short, hshort, hunfolds⟩ :=
      exists_mem_of_forall₂ (h.unfolds left hleft).flip hproduction
    rcases hunfolds.occurs hsymbol with hmem | hoccurs
    · exact ⟨left, short, hshort, hmem⟩
    · exact hoccurs

end ChomskyForm.Grammar
