import ChomskyForm.Grammar.Samples
import ChomskyForm.Language
import ChomskyForm.Proofs.Derivation
import ChomskyForm.Proofs.Words
import Mathlib.Data.Finset.Card

/-!
# The bounded words of a grammar

A scan gives a symbol only words that it derives. Conversely, let all words shorter than a given one
be found. As long as the given word is missing somewhere, one of the alternatives yields it for a
symbol without it, so a scan finds the word for at least one more symbol. As many scans as there are
symbols therefore settle a length, and after the last length a scan has nothing to add.
-/

namespace ChomskyForm

theorem saturate_eq_iterate {α : Type} [DecidableEq α] (step : α → α) (rounds : Nat) (start : α) :
    saturate step rounds start = step^[rounds] start := by
  induction rounds generalizing start with
  | zero => rfl
  | succ rounds ih =>
      rw [saturate, Function.iterate_succ_apply]
      split
      · rename_i hfixed
        rw [hfixed, Function.iterate_fixed hfixed]
      · exact ih (step start)

/-- The parts of a word, or of a shorter one, are shorter unless one part is all of the word. -/
theorem eq_or_length_lt_of_append {Letter : Type} {start finish word : List Letter}
    (h : start ++ finish = word ∨ (start ++ finish).length < word.length) :
    (start = word ∨ start.length < word.length) ∧
      (finish = word ∨ finish.length < word.length) := by
  rcases h with rfl | hlt
  · constructor
    · cases finish with
      | nil => exact .inl (List.append_nil start).symm
      | cons => exact .inr (by simp)
    · cases start with
      | nil => exact .inl rfl
      | cons =>
          right
          rw [List.length_append, List.length_cons]
          omega
  · rw [List.length_append] at hlt
    exact ⟨.inr (by omega), .inr (by omega)⟩

namespace Grammar

variable {grammar : Grammar} {table larger : WordTable} {bound : Nat} {left symbol : Symbol}
  {form word : List Symbol} {production : Production}

/-! ### What a table yields -/

/-- The words of a symbol in a table, where an unbound symbol has none. -/
def tableWords (table : WordTable) (symbol : Symbol) : List (List Symbol) :=
  (table.get? symbol).getD []

theorem symbolWords_of_isTerminal (h : symbol.isTerminal = true) :
    symbolWords table symbol = [[symbol]] := if_pos h

theorem symbolWords_of_isNonterminal (h : symbol.isNonterminal = true) :
    symbolWords table symbol = tableWords table symbol := by
  refine if_neg fun hterminal => ?_
  rw [Symbol.isTerminal_eq_true_iff, h] at hterminal
  exact Bool.false_ne_true hterminal.symm

/-- The word is put together from words that the table gives for the symbols of a form. -/
def Spells (table : WordTable) : List Symbol → List Symbol → Prop
  | [], word => word = []
  | symbol :: form, word => ∃ start ∈ symbolWords table symbol, ∃ finish,
      Spells table form finish ∧ start ++ finish = word

theorem mem_foldl_concatenations {words : List (List Symbol)}
    (hwords : ∀ start ∈ words, start.length ≤ bound) :
    word ∈ form.foldl (fun words symbol => concatenations bound words (symbolWords table symbol))
        words ↔
      word.length ≤ bound ∧ ∃ start ∈ words, ∃ finish, Spells table form finish ∧
        start ++ finish = word := by
  induction form generalizing words with
  | nil =>
      simp only [List.foldl_nil, Spells, exists_eq_left, List.append_nil, exists_eq_right]
      exact (and_iff_right_of_imp (hwords word)).symm
  | cons symbol form ih =>
      rw [List.foldl_cons, ih fun start hstart => (mem_concatenations.1 hstart).1]
      refine and_congr_right fun hbound => ?_
      constructor
      · rintro ⟨_, hmem, rest, hrest, rfl⟩
        obtain ⟨-, start, hstart, middle, hmiddle, rfl⟩ := mem_concatenations.1 hmem
        exact ⟨start, hstart, middle ++ rest, ⟨middle, hmiddle, rest, hrest, rfl⟩,
          (List.append_assoc ..).symm⟩
      · rintro ⟨start, hstart, _, ⟨middle, hmiddle, rest, hrest, rfl⟩, rfl⟩
        rw [← List.append_assoc, List.length_append] at hbound
        refine ⟨start ++ middle,
          mem_concatenations.2 ⟨by omega, start, hstart, middle, hmiddle, rfl⟩,
          rest, hrest, List.append_assoc ..⟩

theorem mem_productionWords :
    word ∈ productionWords table bound production ↔
      word.length ≤ bound ∧ Spells table production word := by
  rw [productionWords, mem_foldl_concatenations (by simp)]
  simp

/-- Every symbol has in the larger table what it has in the other. -/
def Below (table larger : WordTable) : Prop :=
  ∀ symbol, tableWords table symbol ⊆ tableWords larger symbol

theorem Below.trans {largest : WordTable} (h₁ : Below table larger) (h₂ : Below larger largest) :
    Below table largest := fun symbol _ hword => h₂ symbol (h₁ symbol hword)

theorem Spells.mono (hle : Below table larger) (h : Spells table form word) :
    Spells larger form word := by
  induction form generalizing word with
  | nil => exact h
  | cons symbol form ih =>
      obtain ⟨start, hstart, finish, hfinish, rfl⟩ := h
      refine ⟨start, ?_, finish, ih hfinish, rfl⟩
      cases hkind : symbol.isNonterminal with
      | false =>
          have hterminal := Symbol.isTerminal_eq_true_iff.2 hkind
          rw [symbolWords_of_isTerminal hterminal] at hstart ⊢
          exact hstart
      | true =>
          rw [symbolWords_of_isNonterminal hkind] at hstart ⊢
          exact hle symbol hstart

theorem productionWords_subset (hle : Below table larger) :
    productionWords table bound production ⊆ productionWords larger bound production := by
  intro word hword
  obtain ⟨hbound, hspells⟩ := mem_productionWords.1 hword
  exact mem_productionWords.2 ⟨hbound, hspells.mono hle⟩

/-! ### One scan -/

theorem mem_branches : (left, production) ∈ grammar.branches ↔
    production ∈ grammar.alternatives left := by
  rw [branches, entries_eq, List.flatMap_map]
  simp only [List.mem_flatMap, List.mem_map, Prod.mk.injEq]
  constructor
  · rintro ⟨_, -, _, hproduction, rfl, rfl⟩
    exact hproduction
  · exact fun h => ⟨left, mem_keys_of_mem_alternatives h, production, h, rfl, rfl⟩

theorem tableWords_noteWords (branch : Symbol × Production) :
    tableWords (noteWords bound table branch) symbol =
      if symbol = branch.1 then
        union (productionWords table bound branch.2) (tableWords table branch.1)
      else tableWords table symbol := by
  rw [tableWords, noteWords, OrderedMap.get?_update]
  split <;> rfl

theorem mem_tableWords_noteWords {branch : Symbol × Production} :
    word ∈ tableWords (noteWords bound table branch) symbol ↔
      (symbol = branch.1 ∧ word ∈ productionWords table bound branch.2) ∨
        word ∈ tableWords table symbol := by
  rw [tableWords_noteWords]
  split
  · rename_i heq
    rw [mem_union, and_iff_right heq, heq]
  · rename_i hne
    rw [or_iff_right fun h => hne h.1]

theorem below_noteWords (branch : Symbol × Production) :
    Below table (noteWords bound table branch) := fun _ _ hword =>
  mem_tableWords_noteWords.2 (.inr hword)

theorem below_foldl_noteWords (branches : List (Symbol × Production)) :
    Below table (branches.foldl (noteWords bound) table) := by
  induction branches generalizing table with
  | nil => exact fun _ _ hword => hword
  | cons branch branches ih => exact (below_noteWords branch).trans ih

theorem mem_foldl_noteWords {branches : List (Symbol × Production)} {branch : Symbol × Production}
    (hbranch : branch ∈ branches) (hword : word ∈ productionWords table bound branch.2) :
    word ∈ tableWords (branches.foldl (noteWords bound) table) branch.1 := by
  induction branches generalizing table with
  | nil => cases hbranch
  | cons first branches ih =>
      rcases List.mem_cons.1 hbranch with rfl | hrest
      · exact below_foldl_noteWords branches _ (mem_tableWords_noteWords.2 (.inl ⟨rfl, hword⟩))
      · exact ih hrest (productionWords_subset (below_noteWords first) hword)

theorem below_extendTable (grammar : Grammar) (bound : Nat) (table : WordTable) :
    Below table (grammar.extendTable bound table) :=
  below_foldl_noteWords grammar.branches

/-- A scan finds at least what the alternatives yield under the table at its start. -/
theorem mem_extendTable (hproduction : production ∈ grammar.alternatives left)
    (hword : word ∈ productionWords table bound production) :
    word ∈ tableWords (grammar.extendTable bound table) left :=
  mem_foldl_noteWords (mem_branches.2 hproduction) hword

theorem extendTable_induction {motive : WordTable → Prop}
    (hstep : ∀ table left production, motive table → production ∈ grammar.alternatives left →
      motive (noteWords bound table (left, production)))
    (htable : motive table) : motive (grammar.extendTable bound table) := by
  refine List.foldlRecOn _ (noteWords bound) htable fun table htable branch hbranch => ?_
  exact hstep table branch.1 branch.2 htable (mem_branches.1 hbranch)

/-! ### Soundness -/

/-- A table with ascending sets of derivable words for the keys of the grammar. -/
structure Explored (grammar : Grammar) (bound : Nat) (table : WordTable) : Prop where
  keys_eq : table.keys = grammar.keys
  ascending : ∀ symbol, (tableWords table symbol).Pairwise (· < ·)
  length_le : ∀ symbol, ∀ word ∈ tableWords table symbol, word.length ≤ bound
  generates : ∀ symbol, ∀ word ∈ tableWords table symbol, grammar.Generates symbol word

theorem tableWords_emptyTable (symbol : Symbol) : tableWords grammar.emptyTable symbol = [] := by
  rw [tableWords, emptyTable, OrderedMap.get?_mapValues]
  cases grammar.rules.get? symbol <;> rfl

theorem Explored.emptyTable (grammar : Grammar) (bound : Nat) :
    Explored grammar bound grammar.emptyTable where
  keys_eq := grammar.rules.keys_mapValues _
  ascending := fun symbol => tableWords_emptyTable symbol ▸ .nil
  length_le := fun symbol word hword => by
    rw [tableWords_emptyTable] at hword
    cases hword
  generates := fun symbol word hword => by
    rw [tableWords_emptyTable] at hword
    cases hword

theorem Explored.derives (h : Explored grammar bound table) (hspells : Spells table form word) :
    grammar.Derives form word := by
  induction form generalizing word with
  | nil => exact derives_nil_iff.2 hspells
  | cons symbol form ih =>
      obtain ⟨start, hstart, finish, hfinish, rfl⟩ := hspells
      refine derives_cons_iff.2 ⟨start, finish, rfl, ?_, ih hfinish⟩
      cases hkind : symbol.isNonterminal with
      | false =>
          have hterminal := Symbol.isTerminal_eq_true_iff.2 hkind
          rw [symbolWords_of_isTerminal hterminal] at hstart
          exact (generates_terminal_iff hterminal).2 (List.mem_singleton.1 hstart)
      | true =>
          rw [symbolWords_of_isNonterminal hkind] at hstart
          exact h.generates symbol start hstart

theorem pairwise_productionWords (h : ∀ symbol, (tableWords table symbol).Pairwise (· < ·)) :
    (productionWords table bound production).Pairwise (· < ·) := by
  refine List.foldlRecOn production _ (List.pairwise_singleton _ _) fun words _ symbol _ => ?_
  apply pairwise_concatenations
  unfold symbolWords
  split
  · exact List.pairwise_singleton _ _
  · exact h symbol

theorem Explored.noteWords (hkeys : ∀ key ∈ grammar.keys, key.isNonterminal = true)
    (h : Explored grammar bound table) (hproduction : production ∈ grammar.alternatives left) :
    Explored grammar bound (noteWords bound table (left, production)) where
  keys_eq := by
    have hleft := mem_keys_of_mem_alternatives hproduction
    rw [Grammar.noteWords, OrderedMap.keys_update, h.keys_eq, if_pos hleft]
  ascending := fun symbol => by
    rw [tableWords_noteWords]
    split
    · exact pairwise_union (pairwise_productionWords h.ascending) (h.ascending left)
    · exact h.ascending symbol
  length_le := fun symbol word hword => by
    rcases mem_tableWords_noteWords.1 hword with ⟨-, hnew⟩ | hold
    · exact (mem_productionWords.1 hnew).1
    · exact h.length_le symbol word hold
  generates := fun symbol word hword => by
    rcases mem_tableWords_noteWords.1 hword with ⟨heq, hnew⟩ | hold
    · have hderives := h.derives (mem_productionWords.1 hnew).2
      have hleft := hkeys left (mem_keys_of_mem_alternatives hproduction)
      rw [heq]
      exact (generates_nonterminal_iff hleft).2 ⟨production, hproduction, hderives⟩
    · exact h.generates symbol word hold

theorem Explored.extendTable (hkeys : ∀ key ∈ grammar.keys, key.isNonterminal = true)
    (h : Explored grammar bound table) : Explored grammar bound (grammar.extendTable bound table) :=
  extendTable_induction (fun _ _ _ h hproduction => h.noteWords hkeys hproduction) h

/-- The table after a number of scans. -/
def scanned (grammar : Grammar) (bound count : Nat) : WordTable :=
  (grammar.extendTable bound)^[count] grammar.emptyTable

theorem scanned_succ (grammar : Grammar) (bound count : Nat) :
    grammar.scanned bound (count + 1) = grammar.extendTable bound (grammar.scanned bound count) :=
  Function.iterate_succ_apply' _ _ _

theorem wordTable_eq_scanned (grammar : Grammar) (bound : Nat) :
    grammar.wordTable bound = grammar.scanned bound (grammar.keys.length * (bound + 1)) :=
  saturate_eq_iterate _ _ _

theorem explored_scanned (hkeys : ∀ key ∈ grammar.keys, key.isNonterminal = true)
    (bound count : Nat) :
    Explored grammar bound (grammar.scanned bound count) := by
  induction count with
  | zero => exact .emptyTable grammar bound
  | succ count ih =>
      rw [scanned_succ]
      exact ih.extendTable hkeys

theorem below_scanned {count more : Nat} (h : count ≤ more) :
    Below (grammar.scanned bound count) (grammar.scanned bound more) := by
  induction more, h using Nat.le_induction with
  | base => exact fun _ _ hword => hword
  | succ more _ ih =>
      rw [scanned_succ]
      exact ih.trans (below_extendTable grammar bound _)

/-! ### Completeness -/

/-- Every symbol that derives the word has it in the table. -/
def Complete (grammar : Grammar) (table : WordTable) (word : List Symbol) : Prop :=
  ∀ symbol, symbol.isNonterminal = true → grammar.Generates symbol word →
    word ∈ tableWords table symbol

theorem Complete.mono (hle : Below table larger) (h : grammar.Complete table word) :
    grammar.Complete larger word := fun symbol hsymbol hgenerates =>
  hle symbol (h symbol hsymbol hgenerates)

/-- No alternative yields the word for a symbol without it. -/
def Settled (grammar : Grammar) (bound : Nat) (table : WordTable) (word : List Symbol) : Prop :=
  ∀ left, ∀ production ∈ grammar.alternatives left,
    word ∈ productionWords table bound production → word ∈ tableWords table left

theorem Derives.spells (hshorter : ∀ part, part.length < word.length → grammar.Complete table part)
    (hsettled : grammar.Settled bound table word) (hbound : word.length ≤ bound)
    {part : List Symbol} (h : grammar.Derives form part)
    (hpart : part = word ∨ part.length < word.length) : Spells table form part := by
  induction h with
  | nil => rfl
  | @terminal symbol form part isTerminal _ ih =>
      have hrest : part.length < word.length := by
        rcases hpart with rfl | hlt
        · exact Nat.lt_succ_self _
        · exact Nat.lt_of_succ_lt hlt
      refine ⟨[symbol], ?_, part, ih (.inr hrest), rfl⟩
      rw [symbolWords_of_isTerminal isTerminal]
      exact List.mem_cons_self
  | @nonterminal symbol production form part₁ part₂ isNonterminal isAlternative inner _ ih₁ ih₂ =>
      have hgenerates : grammar.Generates symbol part₁ :=
        (generates_nonterminal_iff isNonterminal).2 ⟨production, isAlternative, inner⟩
      obtain ⟨hpart₁, hpart₂⟩ := eq_or_length_lt_of_append hpart
      refine ⟨part₁, ?_, part₂, ih₂ hpart₂, rfl⟩
      rw [symbolWords_of_isNonterminal isNonterminal]
      rcases hpart₁ with rfl | hlt
      · -- the rest of the form vanishes, and the symbol has to yield the whole word
        exact hsettled symbol production isAlternative
          (mem_productionWords.2 ⟨hbound, ih₁ (.inl rfl)⟩)
      · exact hshorter part₁ hlt symbol isNonterminal hgenerates

theorem Settled.complete
    (hshorter : ∀ part, part.length < word.length → grammar.Complete table part)
    (h : grammar.Settled bound table word) (hbound : word.length ≤ bound) :
    grammar.Complete table word := by
  intro symbol hsymbol hgenerates
  obtain ⟨production, hproduction, hderives⟩ := (generates_nonterminal_iff hsymbol).1 hgenerates
  have hspells := hderives.spells hshorter h hbound (.inl rfl)
  exact h symbol production hproduction (mem_productionWords.2 ⟨hbound, hspells⟩)

/-- The keys that have the word in the table. -/
def holders (grammar : Grammar) (table : WordTable) (word : List Symbol) : Finset Symbol :=
  grammar.keys.toFinset.filter fun key => word ∈ tableWords table key

theorem card_holders_lt (h : ¬grammar.Settled bound table word) :
    (grammar.holders table word).card <
      (grammar.holders (grammar.extendTable bound table) word).card := by
  simp only [Settled, not_forall] at h
  obtain ⟨left, production, hproduction, hword, hmissing⟩ := h
  refine Finset.card_lt_card (Finset.ssubset_iff_of_subset ?_ |>.2 ⟨left, ?_, ?_⟩)
  · intro key hkey
    rw [holders, Finset.mem_filter] at hkey ⊢
    exact ⟨hkey.1, below_extendTable grammar bound table key hkey.2⟩
  · rw [holders, Finset.mem_filter, List.mem_toFinset]
    exact ⟨mem_keys_of_mem_alternatives hproduction, mem_extendTable hproduction hword⟩
  · rw [holders, Finset.mem_filter]
    exact fun hholder => hmissing hholder.2

/-- Where all keys have the word, there is nothing to complete. -/
theorem complete_of_length_le_card
    (h : grammar.keys.length ≤ (grammar.holders table word).card) :
    grammar.Complete table word := by
  intro symbol hsymbol hgenerates
  obtain ⟨production, hproduction, -⟩ := (generates_nonterminal_iff hsymbol).1 hgenerates
  have hall : grammar.holders table word = grammar.keys.toFinset := by
    apply Finset.eq_of_subset_of_card_le (Finset.filter_subset _ _)
    rw [List.toFinset_card_of_nodup grammar.nodup_keys]
    exact h
  have hholder : symbol ∈ grammar.holders table word := by
    rw [hall, List.mem_toFinset]
    exact mem_keys_of_mem_alternatives hproduction
  exact (Finset.mem_filter.1 hholder).2

/-- Scan by scan, the word gains a key until it is complete. -/
theorem complete_or_le_card {count : Nat} (hbound : word.length ≤ bound)
    (hshorter : ∀ part, part.length < word.length →
      grammar.Complete (grammar.scanned bound count) part) (more : Nat) :
    grammar.Complete (grammar.scanned bound (count + more)) word ∨
      more ≤ (grammar.holders (grammar.scanned bound (count + more)) word).card := by
  induction more with
  | zero => exact .inr (Nat.zero_le _)
  | succ more ih =>
      rw [← Nat.add_assoc, scanned_succ]
      have hlater : ∀ part, part.length < word.length →
          grammar.Complete (grammar.scanned bound (count + more)) part := fun part hlt =>
        (hshorter part hlt).mono (below_scanned (Nat.le_add_right count more))
      by_cases hsettled : grammar.Settled bound (grammar.scanned bound (count + more)) word
      · exact .inl ((hsettled.complete hlater hbound).mono (below_extendTable grammar bound _))
      · rcases ih with hcomplete | hle
        · exact .inl (hcomplete.mono (below_extendTable grammar bound _))
        · exact .inr (Nat.lt_of_le_of_lt hle (card_holders_lt hsettled))

/-- As many scans as there are keys, for each length, find all words below that length. -/
theorem complete_scanned (length : Nat) (hlt : word.length < length)
    (hbound : word.length ≤ bound) :
    grammar.Complete (grammar.scanned bound (grammar.keys.length * length)) word := by
  induction length generalizing word with
  | zero => exact absurd hlt (Nat.not_lt_zero _)
  | succ length ih =>
      have hshorter : ∀ part, part.length < word.length →
          grammar.Complete (grammar.scanned bound (grammar.keys.length * length)) part :=
        fun part hpart => ih (by omega) (by omega)
      rw [Nat.mul_succ]
      rcases complete_or_le_card hbound hshorter grammar.keys.length with hcomplete | hle
      · exact hcomplete
      · exact complete_of_length_le_card hle

/-! ### The outcome -/

theorem mem_wordTable_iff (hkeys : ∀ key ∈ grammar.keys, key.isNonterminal = true)
    (hsymbol : symbol.isNonterminal = true) :
    word ∈ tableWords (grammar.wordTable bound) symbol ↔
      word.length ≤ bound ∧ grammar.Generates symbol word := by
  rw [wordTable_eq_scanned]
  have hexplored := explored_scanned hkeys bound (grammar.keys.length * (bound + 1))
  constructor
  · exact fun hword => ⟨hexplored.length_le symbol word hword,
      hexplored.generates symbol word hword⟩
  · rintro ⟨hbound, hgenerates⟩
    exact complete_scanned (bound + 1) (Nat.lt_succ_of_le hbound) hbound symbol hsymbol hgenerates

/-- Noting words that the symbol already has changes nothing. -/
theorem Explored.noteWords_eq (h : Explored grammar bound table)
    (hproduction : production ∈ grammar.alternatives left)
    (hle : productionWords table bound production ⊆ tableWords table left) :
    Grammar.noteWords bound table (left, production) = table := by
  cases hget : table.get? left with
  | none =>
      have hleft := mem_keys_of_mem_alternatives hproduction
      rw [← h.keys_eq] at hleft
      exact absurd hleft (OrderedMap.get?_eq_none_iff.1 hget)
  | some words =>
      have hwords : tableWords table left = words := by
        rw [tableWords, hget, Option.getD_some]
      refine OrderedMap.update_eq_self hget ?_
      rw [Option.getD_some]
      rw [hwords] at hle
      exact union_eq_right (pairwise_productionWords h.ascending) (hwords ▸ h.ascending left) hle

theorem extendTable_wordTable (hkeys : ∀ key ∈ grammar.keys, key.isNonterminal = true)
    (bound : Nat) :
    grammar.extendTable bound (grammar.wordTable bound) = grammar.wordTable bound := by
  have hexplored : Explored grammar bound (grammar.wordTable bound) := by
    rw [wordTable_eq_scanned]
    exact explored_scanned hkeys bound _
  refine extendTable_induction (motive := (· = grammar.wordTable bound)) ?_ rfl
  rintro _ left production rfl hproduction
  have hleft := hkeys left (mem_keys_of_mem_alternatives hproduction)
  refine hexplored.noteWords_eq hproduction fun word hword => ?_
  obtain ⟨hbound, hspells⟩ := mem_productionWords.1 hword
  have hgenerates : grammar.Generates left word :=
    (generates_nonterminal_iff hleft).2 ⟨production, hproduction, hexplored.derives hspells⟩
  exact (mem_wordTable_iff hkeys hleft).2 ⟨hbound, hgenerates⟩

theorem words_eq {start : Symbol} (h : grammar.start? = some start) (maxLength : Nat) :
    grammar.words maxLength = tableWords (grammar.wordTable maxLength) start := by
  rw [words, h]
  rfl

theorem words_eq_nil (h : grammar.start? = none) (maxLength : Nat) :
    grammar.words maxLength = [] := by
  rw [words, h]
  rfl

theorem mem_words_iff (hkeys : ∀ key ∈ grammar.keys, key.isNonterminal = true)
    (hstart : ∀ start, grammar.start? = some start → start.isNonterminal = true)
    {maxLength : Nat} :
    word ∈ grammar.words maxLength ↔
      word.length ≤ maxLength ∧
        ∃ start, grammar.start? = some start ∧ grammar.Generates start word := by
  cases h : grammar.start? with
  | none => simp [words_eq_nil h]
  | some start =>
      rw [words_eq h, mem_wordTable_iff hkeys (hstart start h)]
      simp

theorem pairwise_words (hkeys : ∀ key ∈ grammar.keys, key.isNonterminal = true) (maxLength : Nat) :
    (grammar.words maxLength).Pairwise (· < ·) := by
  cases h : grammar.start? with
  | none => exact words_eq_nil h maxLength ▸ .nil
  | some start =>
      rw [words_eq h, wordTable_eq_scanned]
      exact (explored_scanned hkeys maxLength _).ascending start

/-- **Bounded enumeration.** The scans come to a table that a further scan leaves as it is, and the
words listed for a grammar are then exactly those up to the length that its start symbol derives,
each once and in ascending order. -/
theorem words_exactly (hkeys : ∀ key ∈ grammar.keys, key.isNonterminal = true)
    (hstart : ∀ start, grammar.start? = some start → start.isNonterminal = true)
    (maxLength : Nat) :
    (∃ scans ≤ grammar.keys.length * (maxLength + 1),
      (grammar.extendTable maxLength)^[scans] grammar.emptyTable = grammar.wordTable maxLength) ∧
    grammar.extendTable maxLength (grammar.wordTable maxLength) = grammar.wordTable maxLength ∧
    (grammar.words maxLength).Pairwise (· < ·) ∧
    ∀ word, word ∈ grammar.words maxLength ↔
      word.length ≤ maxLength ∧
        ∃ start, grammar.start? = some start ∧ grammar.Generates start word :=
  ⟨⟨_, Nat.le_refl _, (wordTable_eq_scanned grammar maxLength).symm⟩,
    extendTable_wordTable hkeys maxLength, pairwise_words hkeys maxLength,
    fun _ => mem_words_iff hkeys hstart⟩

/-- Left recursion, a cycle of units with an epsilon production on it, and an undefined symbol. -/
def cyclicUnits : Grammar := sampleGrammar [('S', ["Sa", "T", "XS"]), ('T', ["S", "$"])]

theorem words_exactly_cyclicUnits :
    (∀ key ∈ cyclicUnits.keys, key.isNonterminal = true) ∧
    (∀ start, cyclicUnits.start? = some start → start.isNonterminal = true) ∧
    cyclicUnits.words 2 = [[], [⟨'a', rfl⟩], [⟨'a', rfl⟩, ⟨'a', rfl⟩]] ∧
    ∀ word, word ∈ cyclicUnits.words 2 ↔
      word.length ≤ 2 ∧
        ∃ start, cyclicUnits.start? = some start ∧ cyclicUnits.Generates start word := by
  have hkeys : ∀ key ∈ cyclicUnits.keys, key.isNonterminal = true := by decide
  have hstart : ∀ start, cyclicUnits.start? = some start → start.isNonterminal = true := by
    have hsome : cyclicUnits.start? = some ⟨'S', rfl⟩ := by decide
    intro start h
    rw [← Option.some.inj (hsome.symm.trans h)]
    rfl
  exact ⟨hkeys, hstart, by decide +kernel, (words_exactly hkeys hstart 2).2.2.2⟩

end Grammar

end ChomskyForm
