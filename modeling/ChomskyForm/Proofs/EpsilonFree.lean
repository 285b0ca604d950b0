import ChomskyForm.Grammar.Samples
import ChomskyForm.Proofs.Fresh
import ChomskyForm.Proofs.Nullable

/-!
# Languages without the empty word

Deleting nullable occurrences in all possible ways makes up for the epsilon productions, so each key
keeps every word but the empty one. A fresh start symbol that may vanish brings the empty word back,
and nothing else, for it occurs on no right side.
-/

namespace ChomskyForm.Production

/-- The second production is what is left of the first when some occurrences of symbols of the set
are deleted. -/
inductive Deletes (set : List Symbol) : Production → Production → Prop
  | nil : Deletes set [] []
  | keep {symbol : Symbol} {production shorter : Production}
      (rest : Deletes set production shorter) :
      Deletes set (symbol :: production) (symbol :: shorter)
  | drop {symbol : Symbol} {production shorter : Production} (isMember : symbol ∈ set)
      (rest : Deletes set production shorter) : Deletes set (symbol :: production) shorter

variable {set : List Symbol} {production shorter : Production}

theorem Deletes.refl (set : List Symbol) (production : Production) :
    Deletes set production production := by
  induction production with
  | nil => exact .nil
  | cons symbol production ih => exact .keep ih

theorem Deletes.trans {shortest : Production} (h : Deletes set production shorter)
    (h' : Deletes set shorter shortest) : Deletes set production shortest := by
  induction h generalizing shortest with
  | nil => exact h'
  | keep _ ih =>
      cases h' with
      | keep rest => exact .keep (ih rest)
      | drop isMember rest => exact .drop isMember (ih rest)
  | drop isMember _ ih => exact .drop isMember (ih h')

theorem Deletes.sublist (h : Deletes set production shorter) : shorter.Sublist production := by
  induction h with
  | nil => exact .slnil
  | keep _ ih => exact ih.cons_cons _
  | drop _ _ ih => exact ih.cons _

theorem Deletes.length_le_add (h : Deletes set production shorter) :
    production.length ≤ shorter.length + production.countP (· ∈ set) := by
  induction h with
  | nil => simp
  | keep _ ih =>
      rw [List.length_cons, List.length_cons, List.countP_cons]
      omega
  | drop isMember _ ih =>
      rw [List.length_cons, List.countP_cons, if_pos (decide_eq_true isMember)]
      omega

theorem deletes_cons_iff {symbol : Symbol} :
    Deletes set (symbol :: production) shorter ↔
      (∃ rest, shorter = symbol :: rest ∧ Deletes set production rest) ∨
        symbol ∈ set ∧ Deletes set production shorter := by
  constructor
  · intro h
    cases h with
    | keep rest => exact .inl ⟨_, rfl, rest⟩
    | drop isMember rest => exact .inr ⟨isMember, rest⟩
  · rintro (⟨rest, rfl, h⟩ | ⟨hmem, h⟩)
    · exact .keep h
    · exact .drop hmem h

theorem mem_deletions_zero :
    shorter ∈ deletions set 0 production ↔
      Deletes set production shorter ∧ production.length = shorter.length := by
  rw [deletions, List.mem_singleton]
  constructor
  · rintro rfl
    exact ⟨.refl _ _, rfl⟩
  · rintro ⟨h, hlength⟩
    exact h.sublist.eq_of_length hlength.symm

theorem mem_deletions_cons {symbol : Symbol} {count : Nat} :
    shorter ∈ deletions set (count + 1) (symbol :: production) ↔
      (∃ rest ∈ deletions set (count + 1) production, symbol :: rest = shorter) ∨
        symbol ∈ set ∧ shorter ∈ deletions set count production := by
  rw [deletions]
  by_cases hmem : symbol ∈ set
  · rw [if_pos hmem, List.mem_append, List.mem_map, and_iff_right hmem]
    exact or_comm
  · rw [if_neg hmem, List.mem_map]
    exact (or_iff_left fun h => hmem h.1).symm

theorem mem_deletions {count : Nat} :
    shorter ∈ deletions set count production ↔
      Deletes set production shorter ∧ production.length = shorter.length + count := by
  induction production generalizing count shorter with
  | nil =>
      cases count with
      | zero => exact mem_deletions_zero
      | succ count =>
          rw [deletions, List.length_nil]
          exact iff_of_false List.not_mem_nil fun h => by omega
  | cons symbol production ih =>
      cases count with
      | zero => exact mem_deletions_zero
      | succ count =>
          rw [mem_deletions_cons, deletes_cons_iff, List.length_cons]
          simp only [ih]
          constructor
          · rintro (⟨rest, ⟨hdeletes, hlength⟩, rfl⟩ | ⟨hmem, hdeletes, hlength⟩)
            · rw [List.length_cons]
              exact ⟨.inl ⟨rest, rfl, hdeletes⟩, by omega⟩
            · exact ⟨.inr ⟨hmem, hdeletes⟩, by omega⟩
          · rintro ⟨⟨rest, rfl, hdeletes⟩ | ⟨hmem, hdeletes⟩, hlength⟩
            · rw [List.length_cons] at hlength
              exact .inl ⟨rest, ⟨hdeletes, by omega⟩, rfl⟩
            · exact .inr ⟨hmem, hdeletes, by omega⟩

theorem mem_variants :
    shorter ∈ variants set production ↔
      shorter ≠ [] ∧ Deletes set production shorter ∧ shorter.length < production.length := by
  simp only [variants, List.mem_filter, List.mem_flatMap, List.mem_range, mem_deletions,
    decide_eq_true_iff]
  constructor
  · rintro ⟨⟨count, -, h, hlength⟩, hne⟩
    exact ⟨hne, h, by omega⟩
  · rintro ⟨hne, h, hlength⟩
    have hcount := h.length_le_add
    refine ⟨⟨production.length - shorter.length - 1, ?_, h, ?_⟩, hne⟩ <;> omega

end ChomskyForm.Production

namespace ChomskyForm.Grammar

variable {grammar : Grammar} {set : List Symbol}

@[simp]
theorem keys_removeEpsilon : (grammar.removeEpsilon set).keys = grammar.keys :=
  grammar.keys_mapAlternatives _

@[simp]
theorem chosenStart_removeEpsilon :
    (grammar.removeEpsilon set).chosenStart = grammar.chosenStart := rfl

theorem mem_alternatives_removeEpsilon {left : Symbol} {production : Production} :
    production ∈ (grammar.removeEpsilon set).alternatives left ↔
      production ≠ [] ∧
        ∃ longer ∈ grammar.alternatives left, Production.Deletes set longer production := by
  rw [removeEpsilon, mem_alternatives_mapAlternatives, mem_addAllNew]
  simp only [List.mem_flatMap, List.mem_filter, decide_eq_true_iff, Production.mem_variants]
  constructor
  · rintro ⟨-, ⟨hmem, hne⟩ | ⟨longer, ⟨hmem, -⟩, hne, hdeletes, -⟩⟩
    · exact ⟨hne, production, hmem, .refl _ _⟩
    · exact ⟨hne, longer, hmem, hdeletes⟩
  · rintro ⟨hne, longer, hmem, hdeletes⟩
    refine ⟨mem_keys_of_mem_alternatives hmem, ?_⟩
    rcases Nat.lt_or_ge production.length longer.length with hlt | hge
    · have hlonger : longer ≠ [] := List.ne_nil_of_length_pos (by omega)
      exact .inr ⟨longer, ⟨hmem, hlonger⟩, hne, hdeletes, hlt⟩
    · rw [hdeletes.sublist.eq_of_length_le hge]
      refine .inl ⟨hmem, ?_⟩
      rwa [← hdeletes.sublist.eq_of_length_le hge]

theorem ne_nil_of_mem_removeEpsilon {left : Symbol} {production : Production}
    (h : production ∈ (grammar.removeEpsilon set).alternatives left) : production ≠ [] :=
  (mem_alternatives_removeEpsilon.1 h).1

/-- Where nothing but the alternatives themselves is left of them, they stay as they are. -/
theorem removeEpsilon_eq_self (hnil : ∀ left, [] ∉ grammar.alternatives left)
    (hleft : ∀ left, ∀ production ∈ grammar.alternatives left, ∀ shorter, shorter ≠ [] →
      Production.Deletes set production shorter → shorter ∈ grammar.alternatives left) :
    grammar.removeEpsilon set = grammar := by
  refine mapAlternatives_eq_self fun left => ?_
  have hkept : (grammar.alternatives left).filter (· ≠ []) = grammar.alternatives left :=
    List.filter_eq_self.2 fun production hproduction =>
      decide_eq_true fun heq => hnil left (heq ▸ hproduction)
  simp only [hkept]
  apply addAllNew_eq_self
  intro shorter hshorter
  obtain ⟨production, hproduction, hvariant⟩ := List.mem_flatMap.1 hshorter
  obtain ⟨hne, hdeletes, -⟩ := Production.mem_variants.1 hvariant
  exact hleft left production hproduction shorter hne hdeletes

theorem Closed.removeEpsilon (h : grammar.Closed) : (grammar.removeEpsilon set).Closed := by
  intro left production hproduction symbol hsymbol hnonterminal
  obtain ⟨-, longer, hlonger, hdeletes⟩ := mem_alternatives_removeEpsilon.1 hproduction
  rw [keys_removeEpsilon]
  exact h left longer hlonger symbol (hdeletes.sublist.subset hsymbol) hnonterminal

/-! ### The words that remain -/

theorem Derives.of_deletes {form shorter word : List Symbol}
    (hset : ∀ symbol ∈ set, grammar.Generates symbol [])
    (hdeletes : Production.Deletes set form shorter) (h : grammar.Derives shorter word) :
    grammar.Derives form word := by
  induction hdeletes generalizing word with
  | nil => exact h
  | keep _ ih =>
      obtain ⟨word₁, word₂, rfl, h₁, h₂⟩ := derives_cons_iff.1 h
      exact derives_cons_iff.2 ⟨word₁, word₂, rfl, h₁, ih h₂⟩
  | drop isMember _ ih => exact derives_cons_iff.2 ⟨[], word, rfl, hset _ isMember, ih h⟩

/-- A derivation that drops the parts which vanish goes through without epsilon productions. -/
theorem Derives.exists_deletes {form word : List Symbol} (h : grammar.Derives form word) :
    ∃ shorter, Production.Deletes grammar.nullable form shorter ∧
      (grammar.removeEpsilon grammar.nullable).Derives shorter word := by
  induction h with
  | nil => exact ⟨[], .nil, .nil⟩
  | @terminal symbol form word isTerminal _ ih =>
      obtain ⟨shorter, hdeletes, hderives⟩ := ih
      exact ⟨symbol :: shorter, .keep hdeletes, .terminal isTerminal hderives⟩
  | @nonterminal symbol production form word₁ word₂ isNonterminal isAlternative inner _ ih₁ ih₂ =>
      obtain ⟨inside, hinside, hderives₁⟩ := ih₁
      obtain ⟨shorter, hdeletes, hderives₂⟩ := ih₂
      by_cases hnil : inside = []
      · -- the whole alternative vanishes, and with it the symbol
        subst hnil
        rw [derives_nil_iff.1 hderives₁] at inner ⊢
        have hnullable : symbol ∈ grammar.nullable := mem_nullable_of_generates <|
          (generates_nonterminal_iff isNonterminal).2 ⟨production, isAlternative, inner⟩
        exact ⟨shorter, .drop hnullable hdeletes, hderives₂⟩
      · have hkept : inside ∈ (grammar.removeEpsilon grammar.nullable).alternatives symbol :=
          mem_alternatives_removeEpsilon.2 ⟨hnil, production, isAlternative, hinside⟩
        exact ⟨symbol :: shorter, .keep hdeletes,
          .nonterminal isNonterminal hkept hderives₁ hderives₂⟩

theorem generates_removeEpsilon_iff (hkeys : ∀ key ∈ grammar.keys, key.isNonterminal = true)
    {symbol : Symbol} (hsymbol : symbol.isNonterminal = true) {word : List Symbol} :
    (grammar.removeEpsilon grammar.nullable).Generates symbol word ↔
      grammar.Generates symbol word ∧ word ≠ [] := by
  constructor
  · intro h
    refine ⟨Derives.simulate (fun left production word hleft hproduction hderives => ?_) h, ?_⟩
    · obtain ⟨-, longer, hlonger, hdeletes⟩ := mem_alternatives_removeEpsilon.1 hproduction
      have hset : ∀ symbol ∈ grammar.nullable, grammar.Generates symbol [] :=
        fun _ => generates_nil_of_mem_nullable hkeys
      exact (generates_nonterminal_iff hleft).2
        ⟨longer, hlonger, hderives.of_deletes hset hdeletes⟩
    · have hlength := h.length_le fun left hmem => ne_nil_of_mem_removeEpsilon hmem rfl
      exact List.ne_nil_of_length_pos hlength
  · rintro ⟨h, hne⟩
    obtain ⟨production, hproduction, hderives⟩ := (generates_nonterminal_iff hsymbol).1 h
    obtain ⟨shorter, hdeletes, hshorter⟩ := hderives.exists_deletes
    have hshorterNe : shorter ≠ [] := by
      rintro rfl
      exact hne (derives_nil_iff.1 hshorter)
    have hkept := mem_alternatives_removeEpsilon.2 ⟨hshorterNe, production, hproduction, hdeletes⟩
    exact (generates_nonterminal_iff hsymbol).2 ⟨shorter, hkept, hshorter⟩

/-- **Epsilon elimination.** Without epsilon productions a grammar keeps its keys and its choice of
a start symbol, and every key keeps all of its words but the empty one. -/
theorem removeEpsilon_exactly (hkeys : ∀ key ∈ grammar.keys, key.isNonterminal = true) :
    (grammar.removeEpsilon grammar.nullable).keys = grammar.keys ∧
    (grammar.removeEpsilon grammar.nullable).chosenStart = grammar.chosenStart ∧
    [] ∉ (grammar.removeEpsilon grammar.nullable).rightSides ∧
    ∀ key ∈ grammar.keys, ∀ word,
      (grammar.removeEpsilon grammar.nullable).Generates key word ↔
        grammar.Generates key word ∧ word ≠ [] := by
  refine ⟨keys_removeEpsilon, chosenStart_removeEpsilon, fun hmem => ?_, fun key hkey _ => ?_⟩
  · obtain ⟨left, hproduction⟩ := mem_rightSides.1 hmem
    exact ne_nil_of_mem_removeEpsilon hproduction rfl
  · exact generates_removeEpsilon_iff hkeys (hkeys key hkey)

/-- Symbols that may vanish at several places of one alternative, each by way of the other, and a
symbol that is not defined. -/
def vanishingParts : Grammar :=
  sampleGrammar [('S', ["AbA", "AXA", "SS", "AA"]), ('A', ["S", "a", "$"])]

theorem removeEpsilon_exactly_vanishingParts :
    (∀ key ∈ vanishingParts.keys, key.isNonterminal = true) ∧
    ⟨'S', rfl⟩ ∈ vanishingParts.keys ∧
    vanishingParts.Generates ⟨'S', rfl⟩ [] ∧
    ¬(vanishingParts.removeEpsilon vanishingParts.nullable).Generates ⟨'S', rfl⟩ [] ∧
    ∀ word, word ≠ [] →
      ((vanishingParts.removeEpsilon vanishingParts.nullable).Generates ⟨'S', rfl⟩ word ↔
        vanishingParts.Generates ⟨'S', rfl⟩ word) := by
  have hkeys : ∀ key ∈ vanishingParts.keys, key.isNonterminal = true := by decide
  have hkey : ⟨'S', rfl⟩ ∈ vanishingParts.keys := by decide
  have hnullable : ⟨'S', rfl⟩ ∈ vanishingParts.nullable := by decide +kernel
  obtain ⟨-, -, -, hwords⟩ := removeEpsilon_exactly hkeys
  refine ⟨hkeys, hkey, generates_nil_of_mem_nullable hkeys hnullable, fun hnil => ?_,
    fun word hne => ?_⟩
  · exact ((hwords _ hkey []).1 hnil).2 rfl
  · rw [hwords _ hkey, and_iff_left hne]

/-! ### An empty start -/

/-- The grammar with a further symbol that starts and that may vanish. -/
def withEmptyStart (grammar : Grammar) (start fresh : Symbol) : Grammar :=
  (grammar.addRule fresh [[start], []]).setStart fresh

variable {start fresh : Symbol} {rest : List Symbol}

theorem addEmptyStart_of_free_nil (hstart : grammar.start? = some start)
    (hfree : grammar.free = []) : grammar.addEmptyStart = .error .poolExhausted := by
  simp only [addEmptyStart, hstart, introduce_of_free_nil hfree]
  rfl

theorem addEmptyStart_of_free_cons (hstart : grammar.start? = some start)
    (hfree : grammar.free = fresh :: rest) :
    grammar.addEmptyStart = .ok (fresh, grammar.withEmptyStart start fresh) := by
  simp only [addEmptyStart, hstart, introduce_of_free_cons hfree]
  rfl

theorem keys_withEmptyStart (hfresh : fresh ∉ grammar.keys) :
    (grammar.withEmptyStart start fresh).keys = grammar.keys ++ [fresh] :=
  (grammar.keys_addRule fresh _).trans (if_neg hfresh)

theorem start?_withEmptyStart : (grammar.withEmptyStart start fresh).start? = some fresh := rfl

theorem alternatives_withEmptyStart_of_mem (hfresh : fresh ∉ grammar.keys) {left : Symbol}
    (hleft : left ∈ grammar.keys) :
    (grammar.withEmptyStart start fresh).alternatives left = grammar.alternatives left := by
  have hne : left ≠ fresh := fun heq => hfresh (heq ▸ hleft)
  exact (grammar.alternatives_addRule fresh _ left).trans (if_neg hne)

theorem alternatives_withEmptyStart_fresh (hfresh : fresh ∉ grammar.keys) :
    (grammar.withEmptyStart start fresh).alternatives fresh = [[start], []] :=
  alternatives_addRule_self hfresh _

/-- An alternative besides the two of the fresh symbol was there before. -/
theorem mem_alternatives_withEmptyStart (hfresh : fresh ∉ grammar.keys) {left : Symbol}
    {production : Production} :
    production ∈ (grammar.withEmptyStart start fresh).alternatives left ↔
      production ∈ grammar.alternatives left ∨
        left = fresh ∧ (production = [start] ∨ production = []) := by
  by_cases heq : left = fresh
  · subst heq
    rw [alternatives_withEmptyStart_fresh hfresh, alternatives_eq_nil hfresh]
    simp
  · have hsame : (grammar.withEmptyStart start fresh).alternatives left =
        grammar.alternatives left :=
      (grammar.alternatives_addRule fresh _ left).trans (if_neg heq)
    rw [hsame]
    simp [heq]

theorem Closed.withEmptyStart (h : grammar.Closed) (hfresh : fresh ∉ grammar.keys)
    (hstart : start ∈ grammar.keys) : (grammar.withEmptyStart start fresh).Closed := by
  intro left production hproduction symbol hsymbol hnonterminal
  rw [keys_withEmptyStart hfresh]
  apply List.mem_append_left _
  rcases (mem_alternatives_withEmptyStart hfresh).1 hproduction with hold | ⟨-, rfl | rfl⟩
  · exact h left production hold symbol hsymbol hnonterminal
  · rw [List.mem_singleton.1 hsymbol]
    exact hstart
  · cases hsymbol

theorem generates_withEmptyStart_iff (h : grammar.Closed) (hfresh : fresh ∉ grammar.keys)
    {symbol : Symbol} (hsymbol : symbol ∈ grammar.keys) {word : List Symbol} :
    (grammar.withEmptyStart start fresh).Generates symbol word ↔ grammar.Generates symbol word :=
  generates_iff_of_agree h (fun _ hleft => alternatives_withEmptyStart_of_mem hfresh hleft) hsymbol

/-- The fresh symbol derives what the start symbol derives, and the empty word. -/
theorem generates_fresh_iff (h : grammar.Closed) (hfresh : fresh ∉ grammar.keys)
    (hnonterminal : fresh.isNonterminal = true) (hstart : start ∈ grammar.keys)
    {word : List Symbol} :
    (grammar.withEmptyStart start fresh).Generates fresh word ↔
      grammar.Generates start word ∨ word = [] := by
  have hsame : (grammar.withEmptyStart start fresh).Derives [start] word ↔
      grammar.Generates start word := generates_withEmptyStart_iff h hfresh hstart
  rw [generates_nonterminal_iff hnonterminal, alternatives_withEmptyStart_fresh hfresh]
  simp only [List.mem_cons, List.not_mem_nil, or_false, exists_eq_or_imp, exists_eq_left,
    derives_nil_iff, hsame]

end ChomskyForm.Grammar
