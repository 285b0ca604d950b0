import ChomskyForm.Grammar.Samples
import ChomskyForm.Proofs.Chart

/-!
# What recognition decides

The top cell of the chart answers for a word. On a grammar in normal form that is derivation as
such: an epsilon production can only be at the root, and all other alternatives count.
-/

namespace ChomskyForm

theorem Symbol.isTerminal_iff {symbol : Symbol} :
    symbol.isTerminal = true ↔ symbol.char.isLower = true ∨ symbol.char.isDigit = true := by
  have halphanum : (decide (symbol.char.val ≥ 65 ∧ symbol.char.val ≤ 90) ||
      (decide (symbol.char.val ≥ 97) && decide (symbol.char.val ≤ 122)) ||
      (decide (symbol.char.val ≥ 48) && decide (symbol.char.val ≤ 57))) = true :=
    symbol.isAlphanum_char
  change (!decide (symbol.char.val ≥ 65 ∧ symbol.char.val ≤ 90)) = true ↔
    (decide (symbol.char.val ≥ 97) && decide (symbol.char.val ≤ 122)) = true ∨
      (decide (symbol.char.val ≥ 48) && decide (symbol.char.val ≤ 57)) = true
  simp only [Bool.or_eq_true, Bool.and_eq_true, Bool.not_eq_true', decide_eq_true_eq,
    decide_eq_false_iff_not, UInt32.le_iff_toNat_le, ge_iff_le] at halphanum ⊢
  change ((65 ≤ symbol.char.toNat ∧ symbol.char.toNat ≤ 90) ∨
    (97 ≤ symbol.char.toNat ∧ symbol.char.toNat ≤ 122)) ∨
    (48 ≤ symbol.char.toNat ∧ symbol.char.toNat ≤ 57) at halphanum
  change ¬(65 ≤ symbol.char.toNat ∧ symbol.char.toNat ≤ 90) ↔
    (97 ≤ symbol.char.toNat ∧ symbol.char.toNat ≤ 122) ∨
      (48 ≤ symbol.char.toNat ∧ symbol.char.toNat ≤ 57)
  omega

theorem mapM_ofChar?_eq_some_iff {text : List Char} {word : List Symbol} :
    text.mapM Symbol.ofChar? = some word ↔ text = word.map Symbol.char := by
  induction text generalizing word with
  | nil => cases word <;> simp
  | cons c text ih =>
      rw [List.mapM_cons]
      constructor
      · intro h
        obtain ⟨symbol, hsymbol, rest, hrest, heq⟩ := by
          simpa only [Option.bind_eq_bind, Option.bind_eq_some_iff, Option.pure_def] using h
        cases heq
        rw [List.map_cons, Symbol.char_of_ofChar? hsymbol, ih.1 hrest]
      · intro h
        cases word with
        | nil => cases h
        | cons symbol word =>
            obtain ⟨rfl, hrest⟩ := List.cons_eq_cons.1 h
            rw [Symbol.ofChar?_char, ih.2 hrest]
            rfl

namespace Grammar

variable {grammar : Grammar} {start : Symbol} {word : List Symbol}

/-! ### Derivation in a grammar in normal form -/

/-- No symbol with an epsilon production is used. -/
theorem nil_notMem_of_used (h : grammar.isChomskyNormalForm = true) {left symbol : Symbol}
    {production : Production} (hproduction : production ∈ grammar.alternatives left)
    (hsymbol : symbol ∈ production) : [] ∉ grammar.alternatives symbol := by
  intro hepsilon
  rcases isChomskyNormalForm_iff.1 h symbol [] hepsilon with hnormal | ⟨-, -, hunused⟩
  · exact Bool.false_ne_true hnormal
  · exact hunused production (mem_rightSides.2 ⟨left, hproduction⟩) hsymbol

/-- All other symbols keep their alternatives. -/
theorem alternatives_normalPart_of_nil_notMem (h : grammar.isChomskyNormalForm = true)
    {left : Symbol} (hepsilon : [] ∉ grammar.alternatives left) :
    grammar.normalPart.alternatives left = grammar.alternatives left := by
  apply alternatives_normalPart_of_forall
  intro production hproduction
  rcases isChomskyNormalForm_iff.1 h left production hproduction with hnormal | ⟨rfl, -⟩
  · exact hnormal
  · exact absurd hproduction hepsilon

theorem derives_normalPart_iff (h : grammar.isChomskyNormalForm = true) {left : Symbol}
    {production : Production} (hproduction : production ∈ grammar.alternatives left) :
    grammar.normalPart.Derives production word ↔ grammar.Derives production word := by
  have hused : ∀ left, ∀ production ∈ grammar.alternatives left, ∀ symbol ∈ production,
      symbol.isNonterminal = true → [] ∉ grammar.alternatives symbol :=
    fun left production hproduction symbol hsymbol _ => nil_notMem_of_used h hproduction hsymbol
  have hagree : ∀ left, [] ∉ grammar.alternatives left →
      grammar.normalPart.alternatives left = grammar.alternatives left :=
    fun left hepsilon => alternatives_normalPart_of_nil_notMem h hepsilon
  have hknown := hused left production hproduction
  constructor
  · intro hderives
    refine Derives.transfer _ (fun left hleft => ?_) (fun left hleft => (hagree left hleft).symm)
      hderives hknown
    rw [hagree left hleft]
    exact hused left
  · intro hderives
    exact Derives.transfer _ (fun left _ => hused left) hagree hderives hknown

/-- The epsilon production of a grammar in normal form can only be used at once. -/
theorem generates_iff_of_normalForm (h : grammar.isChomskyNormalForm = true)
    (hstart : start.isNonterminal = true) :
    grammar.Generates start word ↔
      (word = [] ∧ [] ∈ grammar.alternatives start) ∨ grammar.normalPart.Yields start word := by
  rw [generates_nonterminal_iff hstart]
  constructor
  · rintro ⟨production, hproduction, hderives⟩
    rcases isChomskyNormalForm_iff.1 h start production hproduction with hnormal | ⟨rfl, -⟩
    · exact .inr ⟨production, mem_alternatives_normalPart.2 ⟨hproduction, hnormal⟩,
        (derives_normalPart_iff h hproduction).2 hderives⟩
    · exact .inl ⟨derives_nil_iff.1 hderives, hproduction⟩
  · rintro (⟨rfl, hepsilon⟩ | ⟨production, hproduction, hderives⟩)
    · exact ⟨[], hepsilon, .nil⟩
    · have hmem := (mem_alternatives_normalPart.1 hproduction).1
      exact ⟨production, hmem, (derives_normalPart_iff h hmem).1 hderives⟩

/-! ### Recognition -/

theorem recognizes_eq_true_iff {text : List Char} :
    grammar.recognizes text = true ↔
      ∃ start, grammar.start? = some start ∧ ∃ word, text = word.map Symbol.char ∧
        (∀ letter ∈ word, letter.isTerminal = true) ∧ grammar.recognizesWord start word = true := by
  simp only [← mapM_ofChar?_eq_some_iff]
  rw [recognizes]
  constructor
  · intro h
    split at h
    · rename_i start word hstart hword
      obtain ⟨hterminal, hword'⟩ := Bool.and_eq_true_iff.1 h
      exact ⟨start, hstart, word, hword, List.all_eq_true.1 hterminal, hword'⟩
    · cases h
  · rintro ⟨start, hstart, word, hword, hterminal, hword'⟩
    rw [hstart, hword]
    exact Bool.and_eq_true_iff.2 ⟨List.all_eq_true.2 hterminal, hword'⟩

theorem isSome_topCell (hterminal : ∀ letter ∈ word, letter.isTerminal = true) (hne : word ≠ []) :
    ((grammar.chart word (word.length - 1)).cell? (word.length - 1) 0).isSome = true := by
  have hpos := List.length_pos_of_ne_nil hne
  obtain ⟨cell, hcell, -⟩ := (grammar.describes_chart hterminal (word.length - 1)).exists_cell
    (word.length - 1) 0 (by omega) (by omega)
  rw [hcell]
  rfl

theorem recognizesWord_eq_true_iff (hterminal : ∀ letter ∈ word, letter.isTerminal = true) :
    grammar.recognizesWord start word = true ↔
      (word = [] ∧ [] ∈ grammar.alternatives start) ∨ grammar.normalPart.Yields start word := by
  rw [recognizesWord]
  by_cases hnil : word = []
  · rw [if_pos hnil, decide_eq_true_iff]
    constructor
    · exact fun hmem => .inl ⟨hnil, hmem⟩
    · rintro (⟨-, hmem⟩ | hyields)
      · exact hmem
      · exact absurd hnil hyields.ne_nil
  · have hpos := List.length_pos_of_ne_nil hnil
    obtain ⟨cell, hcell, hmem⟩ := (grammar.describes_chart hterminal (word.length - 1)).exists_cell
      (word.length - 1) 0 (by omega) (by omega)
    have hwhole : factor word 0 (word.length - 1 + 1) = word := by
      rw [Nat.sub_add_cancel hpos]
      exact List.take_length
    rw [if_neg hnil, hcell, Option.any_some, decide_eq_true_iff, hmem, hwhole]
    exact (or_iff_right fun h => hnil h.1).symm

theorem recognizes_iff_yields {text : List Char} :
    grammar.recognizes text = true ↔
      ∃ start, grammar.start? = some start ∧ ∃ word, text = word.map Symbol.char ∧
        ((word = [] ∧ [] ∈ grammar.alternatives start) ∨ grammar.normalPart.Yields start word) := by
  rw [recognizes_eq_true_iff]
  refine exists_congr fun start => and_congr_right fun _ => exists_congr fun word =>
    and_congr_right fun _ => ?_
  constructor
  · rintro ⟨hterminal, hword⟩
    exact (recognizesWord_eq_true_iff hterminal).1 hword
  · intro hword
    have hterminal : ∀ letter ∈ word, letter.isTerminal = true := by
      rcases hword with ⟨rfl, -⟩ | hyields
      · simp
      · exact hyields.isTerminal_of_mem
    exact ⟨hterminal, (recognizesWord_eq_true_iff hterminal).2 hword⟩

/-- **Exactness.** Recognition accepts the empty text by an epsilon production of the start symbol
and any other text by the alternatives of normal shape. It looks up no cell outside the chart. On a
grammar in normal form it decides the language of the start symbol. -/
theorem recognizes_exactly (grammar : Grammar) :
    (∀ text, grammar.recognizes text = true ↔
      ∃ start, grammar.start? = some start ∧
        ((text = [] ∧ [] ∈ grammar.alternatives start) ∨
          text ≠ [] ∧ (∀ c ∈ text, c.isLower = true ∨ c.isDigit = true) ∧
            ∃ word, text = word.map Symbol.char ∧ grammar.normalPart.Yields start word)) ∧
    (∀ word : List Symbol, (∀ letter ∈ word, letter.isTerminal = true) →
      (∀ height, ∀ start < word.length - (grammar.chart word height).size,
        CutsInRange (grammar.chart word height) start) ∧
      (word ≠ [] →
        ((grammar.chart word (word.length - 1)).cell? (word.length - 1) 0).isSome = true)) ∧
    (∀ start, grammar.start? = some start → start.isNonterminal = true →
      grammar.isChomskyNormalForm = true → ∀ text, grammar.recognizes text = true ↔
        ∃ word, text = word.map Symbol.char ∧ grammar.Generates start word) := by
  refine ⟨fun text => ?_, fun word hterminal => ⟨fun height start hstart => ?_, ?_⟩, ?_⟩
  · rw [recognizes_iff_yields]
    refine exists_congr fun start => and_congr_right fun hstart => ?_
    constructor
    · rintro ⟨word, rfl, ⟨rfl, hepsilon⟩ | hyields⟩
      · exact .inl ⟨rfl, hepsilon⟩
      · have hne : word.map Symbol.char ≠ [] := fun hnil =>
          hyields.ne_nil (List.map_eq_nil_iff.1 hnil)
        refine .inr ⟨hne, fun c hc => ?_, word, rfl, hyields⟩
        obtain ⟨letter, hletter, rfl⟩ := List.mem_map.1 hc
        exact Symbol.isTerminal_iff.1 (hyields.isTerminal_of_mem letter hletter)
    · rintro (⟨rfl, hepsilon⟩ | ⟨-, -, word, rfl, hyields⟩)
      · exact ⟨[], rfl, .inl ⟨rfl, hepsilon⟩⟩
      · exact ⟨word, rfl, .inr hyields⟩
  · exact (grammar.describes_chart hterminal height).cutsInRange hstart
  · exact isSome_topCell hterminal
  · intro start hstart hnonterminal hnormal text
    simp only [recognizes_iff_yields, hstart, Option.some.injEq, exists_eq_left',
      generates_iff_of_normalForm hnormal hnonterminal]

/-- As many `b` after the `a`, in normal form. -/
def balancedPairs : Grammar :=
  sampleGrammar [('S', ["AT", "AB", "$"]), ('T', ["RB"]), ('R', ["AT", "AB"]), ('A', ["a"]),
    ('B', ["b"])]

theorem recognizes_exactly_balancedPairs :
    ∃ start, balancedPairs.start? = some start ∧ start.isNonterminal = true ∧
      balancedPairs.isChomskyNormalForm = true ∧
      balancedPairs.recognizes ['a', 'a', 'b', 'b'] = true ∧
      ∀ text, balancedPairs.recognizes text = true ↔
        ∃ word, text = word.map Symbol.char ∧ balancedPairs.Generates start word := by
  have hstart : balancedPairs.start? = some ⟨'S', rfl⟩ := by decide
  have hnormal : balancedPairs.isChomskyNormalForm = true := by decide
  exact ⟨_, hstart, rfl, hnormal, by decide +kernel,
    (recognizes_exactly balancedPairs).2.2 _ hstart rfl hnormal⟩

end Grammar

end ChomskyForm
