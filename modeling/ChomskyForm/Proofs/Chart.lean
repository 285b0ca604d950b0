import ChomskyForm.Chart
import ChomskyForm.Proofs.Derivation
import ChomskyForm.Proofs.NormalForm

/-!
# What the chart of a word holds

Recognition looks only at alternatives in normal form. The cell for a factor of the word holds
exactly the symbols that yield the factor through such alternatives. This is shown row by row: a
longer factor is yielded by a pair of symbols that yield the two parts of one of its cuts, and the
cells of both parts lie in the rows below.
-/

namespace ChomskyForm

namespace Grammar

variable {grammar : Grammar} {left symbol : Symbol} {word : List Symbol}

/-- The grammar with its alternatives in normal form only. -/
def normalPart (grammar : Grammar) : Grammar :=
  grammar.mapAlternatives fun _ right => right.filter Production.isNormal

/-- The symbol derives the word by one of its alternatives, even where it is a terminal itself. -/
def Yields (grammar : Grammar) (symbol : Symbol) (word : List Symbol) : Prop :=
  ∃ production ∈ grammar.alternatives symbol, grammar.Derives production word

theorem mem_alternatives_normalPart {production : Production} :
    production ∈ grammar.normalPart.alternatives left ↔
      production ∈ grammar.alternatives left ∧ production.isNormal = true := by
  rw [normalPart, mem_alternatives_mapAlternatives, List.mem_filter, and_iff_right_iff_imp]
  exact fun h => mem_keys_of_mem_alternatives h.1

theorem alternatives_normalPart_of_forall
    (h : ∀ production ∈ grammar.alternatives left, production.isNormal = true) :
    grammar.normalPart.alternatives left = grammar.alternatives left := by
  by_cases hleft : left ∈ grammar.keys
  · rw [normalPart, alternatives_mapAlternatives _ hleft]
    exact List.filter_eq_self.2 h
  · have hpart : left ∉ grammar.normalPart.keys := by
      rw [normalPart, keys_mapAlternatives]
      exact hleft
    rw [alternatives_eq_nil hleft, alternatives_eq_nil hpart]

theorem Yields.isTerminal_of_mem (h : grammar.Yields symbol word) :
    ∀ letter ∈ word, letter.isTerminal = true := by
  obtain ⟨production, -, hderives⟩ := h
  exact hderives.isTerminal_of_mem

theorem Yields.ne_nil (h : grammar.normalPart.Yields symbol word) : word ≠ [] := by
  have hepsilon : ∀ left, [] ∉ grammar.normalPart.alternatives left := fun left hmem =>
    Bool.false_ne_true (mem_alternatives_normalPart.1 hmem).2
  obtain ⟨production, hproduction, hderives⟩ := h
  have hne : production ≠ [] := fun heq => hepsilon symbol (heq ▸ hproduction)
  have hlength := hderives.length_le hepsilon
  exact List.ne_nil_of_length_pos (Nat.lt_of_lt_of_le (List.length_pos_of_ne_nil hne) hlength)

/-! ### The tables that the chart is made from -/

theorem mem_lexicalKeys {terminal : Symbol} :
    left ∈ grammar.lexicalKeys terminal ↔ [terminal] ∈ grammar.alternatives left := by
  rw [lexicalKeys, List.mem_filter, decide_eq_true_iff, and_iff_right_iff_imp]
  exact mem_keys_of_mem_alternatives

theorem mem_pairRules {first second : Symbol} :
    (left, first, second) ∈ grammar.pairRules ↔
      first.isNonterminal = true ∧ second.isNonterminal = true ∧
        [first, second] ∈ grammar.alternatives left := by
  rw [pairRules, entries_eq]
  simp only [List.mem_flatMap, List.mem_map, List.mem_filterMap]
  constructor
  · rintro ⟨_, ⟨key, -, rfl⟩, production, hproduction, hpair⟩
    split at hpair
    · split at hpair
      · rename_i hnonterminals
        cases hpair
        exact ⟨hnonterminals.1, hnonterminals.2, hproduction⟩
      · cases hpair
    · cases hpair
  · rintro ⟨hfirst, hsecond, hproduction⟩
    refine ⟨_, ⟨left, mem_keys_of_mem_alternatives hproduction, rfl⟩, _, hproduction, ?_⟩
    simp only [hfirst, hsecond, and_self, if_true]

theorem mem_pairKeys {pairs : List (Symbol × Symbol × Symbol)} {firsts seconds : List Symbol} :
    left ∈ pairKeys pairs firsts seconds ↔
      ∃ first second, (left, first, second) ∈ pairs ∧ first ∈ firsts ∧ second ∈ seconds := by
  rw [pairKeys, List.mem_filterMap]
  constructor
  · rintro ⟨⟨key, first, second⟩, hpair, hkey⟩
    dsimp only at hkey
    split at hkey
    · rename_i hmem
      cases hkey
      exact ⟨first, second, hpair, hmem⟩
    · cases hkey
  · rintro ⟨first, second, hpair, hmem⟩
    exact ⟨_, hpair, if_pos hmem⟩

theorem yields_normalPart_iff :
    grammar.normalPart.Yields symbol word ↔
      (∃ terminal, terminal.isTerminal = true ∧ symbol ∈ grammar.lexicalKeys terminal ∧
        word = [terminal]) ∨
      ∃ first second, (symbol, first, second) ∈ grammar.pairRules ∧ ∃ word₁ word₂,
        word = word₁ ++ word₂ ∧ grammar.normalPart.Yields first word₁ ∧
          grammar.normalPart.Yields second word₂ := by
  simp only [mem_lexicalKeys, mem_pairRules]
  constructor
  · rintro ⟨production, hproduction, hderives⟩
    obtain ⟨hmem, hnormal⟩ := mem_alternatives_normalPart.1 hproduction
    obtain ⟨terminal, hterminal, rfl⟩ | ⟨first, second, hfirst, hsecond, rfl⟩ :=
      Production.isNormal_iff.1 hnormal
    · exact .inl ⟨terminal, hterminal, hmem, (generates_terminal_iff hterminal).1 hderives⟩
    · obtain ⟨word₁, word₂, rfl, h₁, h₂⟩ := derives_cons_iff.1 hderives
      exact .inr ⟨first, second, ⟨hfirst, hsecond, hmem⟩, word₁, word₂, rfl,
        (generates_nonterminal_iff hfirst).1 h₁, (generates_nonterminal_iff hsecond).1 h₂⟩
  · rintro (⟨terminal, hterminal, hmem, rfl⟩ |
      ⟨first, second, ⟨hfirst, hsecond, hmem⟩, word₁, word₂, rfl, h₁, h₂⟩)
    · have hnormal := Production.isNormal_iff.2 (.inl ⟨terminal, hterminal, rfl⟩)
      exact ⟨[terminal], mem_alternatives_normalPart.2 ⟨hmem, hnormal⟩, .terminal hterminal .nil⟩
    · have hnormal := Production.isNormal_iff.2 (.inr ⟨first, second, hfirst, hsecond, rfl⟩)
      refine ⟨[first, second], mem_alternatives_normalPart.2 ⟨hmem, hnormal⟩, ?_⟩
      exact derives_cons_iff.2 ⟨word₁, word₂, rfl, (generates_nonterminal_iff hfirst).2 h₁,
        (generates_nonterminal_iff hsecond).2 h₂⟩

/-! ### Factors -/

/-- The factor of a word with the given start and length. -/
def factor (word : List Symbol) (start length : Nat) : List Symbol := (word.drop start).take length

theorem length_factor {start length : Nat} (h : start + length ≤ word.length) :
    (factor word start length).length = length := by
  rw [factor, List.length_take, List.length_drop]
  omega

theorem factor_add (word : List Symbol) (start first second : Nat) :
    factor word start (first + second) =
      factor word start first ++ factor word (start + first) second := by
  rw [factor, factor, factor, List.take_add, List.drop_drop]

theorem factor_one {start : Nat} (h : start < word.length) :
    factor word start 1 = [word[start]] := by
  rw [factor, List.take_one, List.head?_drop, List.getElem?_eq_getElem h]
  rfl

theorem yields_letter_iff (hword : ∀ letter ∈ word, letter.isTerminal = true) {start : Nat}
    (h : start < word.length) :
    grammar.normalPart.Yields symbol (factor word start 1) ↔
      symbol ∈ grammar.lexicalKeys word[start] := by
  rw [yields_normalPart_iff, factor_one h]
  constructor
  · rintro (⟨terminal, -, hmem, heq⟩ | ⟨first, second, -, word₁, word₂, heq, h₁, h₂⟩)
    · rw [(List.cons_eq_cons.1 heq).1]
      exact hmem
    · -- both parts of a pair are non-empty, so a letter is no pair
      have hlength := congrArg List.length heq
      have hpos₁ := List.length_pos_of_ne_nil h₁.ne_nil
      have hpos₂ := List.length_pos_of_ne_nil h₂.ne_nil
      rw [List.length_append, List.length_singleton] at hlength
      omega
  · intro hmem
    exact .inl ⟨word[start], hword _ (List.getElem_mem h), hmem, rfl⟩

/-- A factor longer than a letter is yielded by way of one of its cuts. -/
theorem yields_cut_iff {start height : Nat} (h : start + (height + 1) < word.length) :
    grammar.normalPart.Yields symbol (factor word start (height + 2)) ↔
      ∃ row < height + 1, ∃ first second, (symbol, first, second) ∈ grammar.pairRules ∧
        grammar.normalPart.Yields first (factor word start (row + 1)) ∧
        grammar.normalPart.Yields second (factor word (start + row + 1) (height - row + 1)) := by
  have hlength : (factor word start (height + 2)).length = height + 2 := length_factor (by omega)
  rw [yields_normalPart_iff]
  constructor
  · rintro (⟨terminal, -, -, heq⟩ | ⟨first, second, hpair, word₁, word₂, heq, h₁, h₂⟩)
    · rw [heq, List.length_singleton] at hlength
      omega
    · have hpos₁ := List.length_pos_of_ne_nil h₁.ne_nil
      have hpos₂ := List.length_pos_of_ne_nil h₂.ne_nil
      rw [heq, List.length_append] at hlength
      have hsplit := factor_add word start word₁.length word₂.length
      have hsum : word₁.length + word₂.length = height + 2 := hlength
      rw [hsum, heq] at hsplit
      obtain ⟨heq₁, heq₂⟩ := List.append_inj hsplit (length_factor (by omega)).symm
      refine ⟨word₁.length - 1, by omega, first, second, hpair, ?_, ?_⟩
      · have hone : word₁.length - 1 + 1 = word₁.length := by omega
        rw [hone, ← heq₁]
        exact h₁
      · have hstart : start + (word₁.length - 1) + 1 = start + word₁.length := by omega
        have hrest : height - (word₁.length - 1) + 1 = word₂.length := by omega
        rw [hstart, hrest, ← heq₂]
        exact h₂
  · rintro ⟨row, hrow, first, second, hpair, h₁, h₂⟩
    refine .inr ⟨first, second, hpair, _, _, ?_, h₁, h₂⟩
    have hsum : height + 2 = (row + 1) + (height - row + 1) := by omega
    rw [hsum, factor_add, Nat.add_assoc]

/-! ### Cells -/

/-- The first `height + 1` rows are there, each cell with the symbols that yield its factor. -/
structure Describes (grammar : Grammar) (word : List Symbol) (height : Nat) (chart : Chart) :
    Prop where
  size_eq : chart.size = height + 1
  exists_cell : ∀ row start, row < height + 1 → start + row < word.length →
    ∃ cell, chart.cell? row start = some cell ∧
      ∀ symbol, symbol ∈ cell ↔ grammar.normalPart.Yields symbol (factor word start (row + 1))

theorem cell?_push_of_lt {chart : Chart} {cells : Array (List Symbol)} {row : Nat}
    (h : row < chart.size) (start : Nat) :
    Chart.cell? (chart.push cells) row start = chart.cell? row start := by
  rw [Chart.cell?, Chart.cell?, Array.getElem?_push, if_neg (Nat.ne_of_lt h)]

theorem cell?_push_size {chart : Chart} {cells : Array (List Symbol)} (start : Nat) :
    Chart.cell? (chart.push cells) chart.size start = cells[start]? := by
  rw [Chart.cell?, Array.getElem?_push, if_pos rfl]
  rfl

/-- Every cell that `nextCell` looks up for the factor at `start` lies in the chart. -/
def CutsInRange (chart : Chart) (start : Nat) : Prop :=
  ∀ row < chart.size, (chart.cell? row start).isSome = true ∧
    (chart.cell? (chart.size - 1 - row) (start + row + 1)).isSome = true

theorem mem_foldl_iff {α β : Type} {step : List α → β → List α} {x : α} (new : β → Prop)
    (hstep : ∀ list item, x ∈ step list item ↔ x ∈ list ∨ new item) (items : List β)
    (list : List α) : x ∈ items.foldl step list ↔ x ∈ list ∨ ∃ item ∈ items, new item := by
  induction items generalizing list with
  | nil => simp
  | cons item items ih =>
      rw [List.foldl_cons, ih, hstep, or_assoc]
      simp only [List.mem_cons, exists_eq_or_imp]

/-- The cells of the two parts, cut after `row + 1` letters, hold the parts of a pair. -/
def FromCut (pairs : List (Symbol × Symbol × Symbol)) (chart : Chart) (start : Nat)
    (symbol : Symbol) (row : Nat) : Prop :=
  ∃ firsts seconds, chart.cell? row start = some firsts ∧
    chart.cell? (chart.size - 1 - row) (start + row + 1) = some seconds ∧
    symbol ∈ pairKeys pairs firsts seconds

theorem mem_nextCell {pairs : List (Symbol × Symbol × Symbol)} {chart : Chart} {start : Nat} :
    symbol ∈ nextCell pairs chart start ↔
      ∃ row < chart.size, FromCut pairs chart start symbol row := by
  rw [nextCell]
  refine (mem_foldl_iff (FromCut pairs chart start symbol) (fun cell row => ?_) _ []).trans ?_
  · split
    · rename_i firsts seconds hfirsts hseconds
      rw [mem_addAllNew]
      simp [FromCut, hfirsts, hseconds]
    · rename_i hnone
      refine (or_iff_left ?_).symm
      rintro ⟨firsts, seconds, hfirsts, hseconds, -⟩
      exact hnone firsts seconds hfirsts hseconds
  · simp only [List.not_mem_nil, false_or, List.mem_range]

namespace Describes

variable {height : Nat} {chart : Chart}

theorem cutsInRange (h : grammar.Describes word height chart) {start : Nat}
    (hstart : start < word.length - chart.size) : CutsInRange chart start := by
  rw [h.size_eq] at hstart
  intro row hrow
  rw [h.size_eq] at hrow ⊢
  obtain ⟨firsts, hfirsts, -⟩ := h.exists_cell row start hrow (by omega)
  obtain ⟨seconds, hseconds, -⟩ := h.exists_cell (height + 1 - 1 - row) (start + row + 1)
    (by omega) (by omega)
  rw [hfirsts, hseconds]
  exact ⟨rfl, rfl⟩

theorem mem_nextCell_iff (h : grammar.Describes word height chart) {start : Nat}
    (hstart : start + (height + 1) < word.length) :
    symbol ∈ nextCell grammar.pairRules chart start ↔
      grammar.normalPart.Yields symbol (factor word start (height + 2)) := by
  rw [mem_nextCell, yields_cut_iff hstart, h.size_eq]
  refine exists_congr fun row => and_congr_right fun hrow => ?_
  obtain ⟨firsts, hfirsts, hfirst⟩ := h.exists_cell row start hrow (by omega)
  obtain ⟨seconds, hseconds, hsecond⟩ := h.exists_cell (height - row) (start + row + 1)
    (by omega) (by omega)
  rw [FromCut, h.size_eq, Nat.add_sub_cancel]
  simp only [hfirsts, hseconds, Option.some.injEq, exists_and_left, exists_eq_left', mem_pairKeys,
    hfirst, hsecond]

theorem push (h : grammar.Describes word height chart) :
    grammar.Describes word (height + 1) (chart.push
      ((Array.range (word.length - chart.size)).map (nextCell grammar.pairRules chart))) where
  size_eq := by rw [Array.size_push, h.size_eq]
  exists_cell := fun row start hrow hstart => by
    rcases Nat.lt_or_ge row chart.size with hlt | hge
    · rw [cell?_push_of_lt hlt]
      exact h.exists_cell row start (h.size_eq ▸ hlt) hstart
    · have heq : row = chart.size := by
        rw [h.size_eq] at hge ⊢
        omega
      have hroom : start < word.length - chart.size := by omega
      subst heq
      refine ⟨nextCell grammar.pairRules chart start, ?_, fun symbol => ?_⟩
      · rw [cell?_push_size, Array.getElem?_map, Array.getElem?_range, if_pos hroom]
        rfl
      · rw [h.size_eq] at hstart ⊢
        exact h.mem_nextCell_iff hstart

end Describes

theorem describes_chart (hword : ∀ letter ∈ word, letter.isTerminal = true) (height : Nat) :
    grammar.Describes word height (grammar.chart word height) := by
  induction height with
  | zero =>
      refine ⟨rfl, fun row start hrow hstart => ?_⟩
      have hzero : row = 0 := by omega
      subst hzero
      have hroom : start < word.length := by omega
      refine ⟨grammar.lexicalKeys word[start], ?_, fun symbol => ?_⟩
      · simp [Chart.cell?, Grammar.chart, hroom]
      · exact (yields_letter_iff hword hroom).symm
  | succ height ih => exact ih.push

end Grammar

end ChomskyForm
