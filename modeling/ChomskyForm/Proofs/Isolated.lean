import ChomskyForm.Conversion.Isolated
import ChomskyForm.Proofs.Derivation
import ChomskyForm.Proofs.Fresh

/-!
# Languages with isolated terminals

The terminals that the mapping lacks are paired with the free letters in order, and the isolation
succeeds when there are letters for all of them. Each letter stands for nothing but its terminal, so
the isolated productions derive what the productions derived before.
-/

namespace ChomskyForm

section NewItems

variable {α : Type} [DecidableEq α]

/-- The items of a list that are not known yet, each where it occurs first. -/
def newItems (known : List α) : List α → List α
  | [] => []
  | item :: rest =>
      if item ∈ known then newItems known rest else item :: newItems (known ++ [item]) rest

theorem mem_newItems {known items : List α} {x : α} :
    x ∈ newItems known items ↔ x ∈ items ∧ x ∉ known := by
  induction items generalizing known with
  | nil => simp [newItems]
  | cons item items ih =>
      unfold newItems
      split
      · rename_i hknown
        rw [ih, List.mem_cons]
        apply and_congr_left
        intro hx
        have hne : x ≠ item := fun heq => hx (heq ▸ hknown)
        simp [hne]
      · rename_i hnew
        rw [List.mem_cons, ih, List.mem_cons, List.mem_append, List.mem_singleton]
        by_cases heq : x = item
        · simp [heq, hnew]
        · simp [heq]

theorem nodup_newItems (known items : List α) : (newItems known items).Nodup := by
  induction items generalizing known with
  | nil => exact .nil
  | cons item items ih =>
      unfold newItems
      split
      · exact ih known
      · refine List.nodup_cons.2 ⟨fun hmem => ?_, ih _⟩
        exact (mem_newItems.1 hmem).2 (List.mem_append_right _ List.mem_cons_self)

theorem append_newItems (known items : List α) :
    known ++ newItems known items = addAllNew known items := by
  induction items generalizing known with
  | nil => exact List.append_nil known
  | cons item items ih =>
      rw [addAllNew_cons, ← ih, newItems, addNew]
      split
      · rfl
      · rw [List.append_assoc, List.singleton_append]

theorem newItems_eq (known items : List α) :
    newItems known items = (items.filter (· ∉ known)).eraseDups :=
  List.append_cancel_left ((append_newItems known items).trans (addAllNew_eq known items))

theorem newItems_eq_nil {known items : List α} (h : ∀ item ∈ items, item ∈ known) :
    newItems known items = [] :=
  List.eq_nil_iff_forall_not_mem.2 fun item hitem =>
    (mem_newItems.1 hitem).2 (h item (mem_newItems.1 hitem).1)

/-- Items that occur before or are known make no difference. -/
theorem newItems_append_of_mem {known items more : List α}
    (h : ∀ item ∈ more, item ∈ known ∨ item ∈ items) :
    newItems known (items ++ more) = newItems known items := by
  induction items generalizing known with
  | nil => exact newItems_eq_nil fun item hitem => (h item hitem).resolve_right List.not_mem_nil
  | cons first items ih =>
      rw [List.cons_append, newItems, newItems]
      split
      · rename_i hknown
        refine ih fun item hitem => ?_
        obtain hold | hmem := h item hitem
        · exact .inl hold
        · rcases List.mem_cons.1 hmem with rfl | hmem
          · exact .inl hknown
          · exact .inr hmem
      · refine congrArg _ (ih fun item hitem => ?_)
        rw [List.mem_append, List.mem_singleton, or_assoc, ← List.mem_cons]
        exact h item hitem

end NewItems

/-- Records each terminal of the pairs with its nonterminal. -/
def TerminalMapping.recordAll (mapping : TerminalMapping) (pairs : List (Symbol × Symbol)) :
    TerminalMapping :=
  pairs.foldl (fun mapping pair => mapping.insert pair.1 pair.2) mapping

theorem TerminalMapping.mem_pairs_of_get?_recordAll {mapping : TerminalMapping}
    {pairs : List (Symbol × Symbol)} {symbol isolated : Symbol}
    (h : (mapping.recordAll pairs).get? symbol = some isolated) :
    mapping.get? symbol = some isolated ∨ (symbol, isolated) ∈ pairs := by
  induction pairs generalizing mapping with
  | nil => exact .inl h
  | cons pair pairs ih =>
      rcases ih h with hget | hmem
      · rw [OrderedMap.get?_insert] at hget
        split at hget
        · rename_i heq
          cases hget
          exact .inr (heq ▸ List.mem_cons_self)
        · exact .inl hget
      · exact .inr (List.mem_cons_of_mem _ hmem)

theorem TerminalMapping.mem_keys_recordAll {mapping : TerminalMapping}
    {pairs : List (Symbol × Symbol)} {symbol : Symbol} :
    symbol ∈ (mapping.recordAll pairs).keys ↔
      symbol ∈ mapping.keys ∨ symbol ∈ pairs.map Prod.fst := by
  induction pairs generalizing mapping with
  | nil => simp [recordAll]
  | cons pair pairs ih =>
      have hstep : (mapping.recordAll (pair :: pairs)).keys =
          (recordAll (mapping.insert pair.1 pair.2) pairs).keys := rfl
      rw [hstep, ih, OrderedMap.keys_insert, List.map_cons, List.mem_cons, ← or_assoc]
      apply or_congr_left
      split
      · rename_i hmem
        constructor
        · exact .inl
        · rintro (h | rfl)
          · exact h
          · exact hmem
      · rw [List.mem_append, List.mem_singleton]

/-- Terminals without a letter are recorded behind the others, in the order of the pairs. -/
theorem TerminalMapping.entries_recordAll {mapping : TerminalMapping}
    {pairs : List (Symbol × Symbol)} (hnodup : (pairs.map Prod.fst).Nodup)
    (hnew : ∀ pair ∈ pairs, pair.1 ∉ mapping.keys) :
    (mapping.recordAll pairs).entries = mapping.entries ++ pairs := by
  induction pairs generalizing mapping with
  | nil => exact (List.append_nil _).symm
  | cons pair pairs ih =>
      rw [List.map_cons, List.nodup_cons] at hnodup
      rw [List.forall_mem_cons] at hnew
      have hinsert : (mapping.insert pair.1 pair.2).entries = mapping.entries ++ [pair] :=
        OrderedMap.entries_insert_of_notMem hnew.1 pair.2
      have hrest : ∀ other ∈ pairs, other.1 ∉ (mapping.insert pair.1 pair.2).keys := by
        intro other hother
        rw [OrderedMap.keys_insert, if_neg hnew.1, List.mem_append, List.mem_singleton, not_or]
        exact ⟨hnew.2 other hother, fun heq => hnodup.1 (heq ▸ List.mem_map_of_mem hother)⟩
      refine (ih hnodup.2 hrest).trans ?_
      rw [hinsert, List.append_assoc, List.singleton_append]

namespace Grammar

variable {grammar grown : Grammar} {mapping : TerminalMapping} {pairs : List (Symbol × Symbol)}

/-- Defines the nonterminal of each pair by its terminal alone. -/
def defineAll (grammar : Grammar) (pairs : List (Symbol × Symbol)) : Grammar :=
  pairs.foldl (fun grammar pair => grammar.addRule pair.2 [[pair.1]]) grammar

/-- The terminals that the mapping lacks, paired with free letters as far as these go. -/
def freshPairs (grammar : Grammar) (mapping : TerminalMapping) (terminals : List Symbol) :
    List (Symbol × Symbol) :=
  (newItems mapping.keys terminals).zip grammar.free

theorem isolateEach_eq (grammar : Grammar) (mapping : TerminalMapping) (terminals : List Symbol) :
    grammar.isolateEach mapping terminals =
      (mapping.recordAll (grammar.freshPairs mapping terminals),
        if (newItems mapping.keys terminals).length ≤ grammar.free.length then
          .ok (grammar.defineAll (grammar.freshPairs mapping terminals))
        else .error .poolExhausted) := by
  induction terminals generalizing grammar mapping with
  | nil => simp [isolateEach, freshPairs, newItems, TerminalMapping.recordAll, defineAll]
  | cons terminal rest ih =>
      unfold isolateEach freshPairs newItems
      by_cases hknown : terminal ∈ mapping.keys
      · rw [if_pos hknown, if_pos hknown, ih]
        rfl
      · rw [if_neg hknown, if_neg hknown]
        cases hfree : grammar.free with
        | nil =>
            rw [introduce_of_free_nil hfree]
            simp [TerminalMapping.recordAll]
        | cons fresh others =>
            have hothers : (grammar.addRule fresh [[terminal]]).free = others := by
              rw [(Extends.addRule hfree [[terminal]]).free_eq, hfree, List.drop_one,
                List.tail_cons]
            have hkeys : (mapping.insert terminal fresh).keys = mapping.keys ++ [terminal] := by
              rw [OrderedMap.keys_insert, if_neg hknown]
            rw [introduce_of_free_cons hfree]
            simp only
            rw [ih, freshPairs, hothers, hkeys]
            simp [TerminalMapping.recordAll, defineAll]

theorem extends_defineAll (h : pairs.map Prod.snd = grammar.free.take pairs.length) :
    Extends grammar pairs.length (grammar.defineAll pairs) ∧
      ∀ pair ∈ pairs, (grammar.defineAll pairs).alternatives pair.2 = [[pair.1]] := by
  induction pairs generalizing grammar with
  | nil => exact ⟨.refl grammar, by simp⟩
  | cons pair pairs ih =>
      obtain ⟨rest, hfree⟩ : ∃ rest, grammar.free = pair.2 :: rest := by
        cases hfree : grammar.free with
        | nil => simp [hfree] at h
        | cons fresh rest =>
            rw [hfree, List.map_cons, List.length_cons, List.take_succ_cons] at h
            exact ⟨rest, by rw [(List.cons_eq_cons.1 h).1]⟩
      have hfirst := Extends.addRule hfree [[pair.1]]
      have hrest : pairs.map Prod.snd =
          (grammar.addRule pair.2 [[pair.1]]).free.take pairs.length := by
        rw [hfree, List.map_cons, List.length_cons, List.take_succ_cons] at h
        rw [hfirst.free_eq, hfree]
        exact (List.cons_eq_cons.1 h).2
      obtain ⟨hextends, halternatives⟩ := ih hrest
      refine ⟨?_, fun other hother => ?_⟩
      · rw [List.length_cons, Nat.add_comm]
        exact hfirst.trans hextends
      · rcases List.mem_cons.1 hother with rfl | hother
        · have habsent : other.2 ∉ grammar.keys := (mem_free.1 (hfree ▸ List.mem_cons_self)).2
          have hdefined : other.2 ∈ (grammar.addRule other.2 [[other.1]]).keys := by
            rw [keys_addRule, if_neg habsent]
            exact List.mem_append_right _ List.mem_cons_self
          have hkept := hextends.alternatives_eq other.2 hdefined
          rw [alternatives_addRule_self habsent] at hkept
          exact hkept
        · exact halternatives other hother

/-! ### What a recorded nonterminal stands for -/

/-- Each recorded nonterminal has its terminal as the only alternative. -/
def Realizes (grammar : Grammar) (mapping : TerminalMapping) : Prop :=
  ∀ symbol isolated, mapping.get? symbol = some isolated →
    symbol.isTerminal = true ∧ isolated.isNonterminal = true ∧
      grammar.alternatives isolated = [[symbol]]

/-- A recorded nonterminal stands for one terminal. -/
theorem Realizes.eq_of_get?_eq (h : grammar.Realizes mapping) (symbol other isolated : Symbol)
    (hsymbol : mapping.get? symbol = some isolated) (hother : mapping.get? other = some isolated) :
    symbol = other := by
  have hsame := (h symbol isolated hsymbol).2.2.symm.trans (h other isolated hother).2.2
  simpa using hsame

theorem Realizes.generates_iff (h : grammar.Realizes mapping) {symbol isolated : Symbol}
    (hget : mapping.get? symbol = some isolated) {word : List Symbol} :
    grammar.Generates isolated word ↔ word = [symbol] := by
  obtain ⟨hterminal, hnonterminal, halternatives⟩ := h symbol isolated hget
  rw [generates_nonterminal_iff hnonterminal, halternatives]
  constructor
  · rintro ⟨production, hproduction, hderives⟩
    rw [List.mem_singleton.1 hproduction] at hderives
    exact (generates_terminal_iff hterminal).1 hderives
  · intro hword
    exact ⟨[symbol], List.mem_cons_self, (generates_terminal_iff hterminal).2 hword⟩

theorem Realizes.derives_map_iff (h : grammar.Realizes mapping) {form word : List Symbol} :
    grammar.Derives (form.map fun symbol => (mapping.get? symbol).getD symbol) word ↔
      grammar.Derives form word := by
  induction form generalizing word with
  | nil => rfl
  | cons symbol form ih =>
      have hsymbol : ∀ part, grammar.Generates ((mapping.get? symbol).getD symbol) part ↔
          grammar.Generates symbol part := by
        intro part
        cases hget : mapping.get? symbol with
        | none => rfl
        | some isolated =>
            rw [Option.getD_some, h.generates_iff hget,
              generates_terminal_iff (h symbol isolated hget).1]
      rw [List.map_cons, derives_cons_iff, derives_cons_iff]
      simp only [ih, hsymbol]

theorem Realizes.derives_isolate_iff (h : grammar.Realizes mapping) {production : Production}
    {word : List Symbol} :
    grammar.Derives (production.isolate mapping) word ↔ grammar.Derives production word := by
  unfold Production.isolate
  split
  · exact h.derives_map_iff
  · rfl

/-- Isolates the recorded terminals in all alternatives. -/
def isolateAll (grammar : Grammar) (mapping : TerminalMapping) : Grammar :=
  grammar.mapAlternatives fun _ right => right.map (Production.isolate mapping)

theorem isolate_of_length_le_one {production : Production} (h : production.length ≤ 1) :
    production.isolate mapping = production := by
  rw [Production.isolate, if_neg fun hlong => by omega]

@[simp]
theorem length_isolate (production : Production) :
    (production.isolate mapping).length = production.length := by
  unfold Production.isolate
  split
  · exact List.length_map _
  · rfl

theorem alternatives_isolateAll {left : Symbol} :
    (grammar.isolateAll mapping).alternatives left =
      (grammar.alternatives left).map (Production.isolate mapping) := by
  by_cases hleft : left ∈ grammar.keys
  · exact alternatives_mapAlternatives _ hleft
  · have hleft' : left ∉ (grammar.isolateAll mapping).keys := by
      rwa [isolateAll, keys_mapAlternatives]
    rw [alternatives_eq_nil hleft, alternatives_eq_nil hleft', List.map_nil]

theorem Realizes.isolateAll (h : grammar.Realizes mapping) :
    (grammar.isolateAll mapping).Realizes mapping := by
  intro symbol isolated hget
  obtain ⟨hterminal, hnonterminal, halternatives⟩ := h symbol isolated hget
  refine ⟨hterminal, hnonterminal, ?_⟩
  have hsame : Production.isolate mapping [symbol] = [symbol] :=
    isolate_of_length_le_one (Nat.le_refl 1)
  rw [alternatives_isolateAll, halternatives, List.map_singleton, hsame]

theorem generates_isolateAll_iff (h : grammar.Realizes mapping) {symbol : Symbol}
    {word : List Symbol} :
    (grammar.isolateAll mapping).Generates symbol word ↔ grammar.Generates symbol word := by
  refine generates_iff_of_forms (fun left production hproduction word hderives => ?_)
    fun left production hproduction word hderives => ?_
  · rw [alternatives_isolateAll] at hproduction
    obtain ⟨source, hsource, rfl⟩ := List.mem_map.1 hproduction
    exact ⟨source, hsource, h.derives_isolate_iff.1 hderives⟩
  · refine ⟨production.isolate mapping, ?_, h.isolateAll.derives_isolate_iff.2 hderives⟩
    rw [alternatives_isolateAll]
    exact List.mem_map.2 ⟨production, hproduction, rfl⟩

/-! ### The isolated grammar -/

theorem isolateTerminals_eq (grammar : Grammar) (mapping : TerminalMapping) :
    grammar.isolateTerminals mapping =
      (mapping.recordAll (grammar.freshPairs mapping grammar.longTerminals),
        if (newItems mapping.keys grammar.longTerminals).length ≤ grammar.free.length then
          .ok ((grammar.defineAll (grammar.freshPairs mapping grammar.longTerminals)).isolateAll
            (mapping.recordAll (grammar.freshPairs mapping grammar.longTerminals)))
        else .error .poolExhausted) := by
  simp only [isolateTerminals, isolateEach_eq]
  split <;> rfl

theorem length_freshPairs {terminals : List Symbol}
    (h : (newItems mapping.keys terminals).length ≤ grammar.free.length) :
    (grammar.freshPairs mapping terminals).length = (newItems mapping.keys terminals).length := by
  rw [freshPairs, List.length_zip, Nat.min_eq_left h]

theorem map_snd_freshPairs {terminals : List Symbol}
    (h : (newItems mapping.keys terminals).length ≤ grammar.free.length) :
    (grammar.freshPairs mapping terminals).map Prod.snd =
      grammar.free.take (newItems mapping.keys terminals).length := by
  rw [freshPairs, List.zip_eq_zip_take_min, Nat.min_eq_left h, List.take_length,
    List.map_snd_zip (List.length_take_le _ _)]

theorem extends_defineAll_freshPairs {terminals : List Symbol}
    (h : (newItems mapping.keys terminals).length ≤ grammar.free.length) :
    Extends grammar (newItems mapping.keys terminals).length
        (grammar.defineAll (grammar.freshPairs mapping terminals)) ∧
      ∀ pair ∈ grammar.freshPairs mapping terminals,
        (grammar.defineAll (grammar.freshPairs mapping terminals)).alternatives pair.2 =
          [[pair.1]] := by
  rw [← length_freshPairs h]
  apply extends_defineAll
  rw [length_freshPairs h, map_snd_freshPairs h]

/-- The isolation records the terminals that the mapping lacks behind those that it has, each with
its letter, as far as the letters go. -/
theorem entries_isolateTerminals (grammar : Grammar) (mapping : TerminalMapping) :
    (grammar.isolateTerminals mapping).1.entries =
      mapping.entries ++ grammar.freshPairs mapping grammar.longTerminals := by
  have hfirst : (grammar.freshPairs mapping grammar.longTerminals).map Prod.fst <+:
      newItems mapping.keys grammar.longTerminals := by
    rw [freshPairs, List.zip_eq_zip_take_min, List.map_fst_zip (by simp)]
    exact List.take_prefix _ _
  rw [isolateTerminals_eq]
  refine TerminalMapping.entries_recordAll ?_ fun pair hpair => ?_
  · exact (nodup_newItems _ _).sublist hfirst.sublist
  · exact (mem_newItems.1 (hfirst.subset (List.mem_map_of_mem hpair))).2

theorem keys_of_isolateTerminals_ok {extended : TerminalMapping} {result : Grammar}
    (h : grammar.isolateTerminals mapping = (extended, .ok result)) :
    extended.keys = mapping.keys ++ newItems mapping.keys grammar.longTerminals := by
  have hle : (newItems mapping.keys grammar.longTerminals).length ≤ grammar.free.length := by
    by_contra hlt
    rw [isolateTerminals_eq, if_neg hlt] at h
    cases h
  have hentries := entries_isolateTerminals grammar mapping
  rw [h] at hentries
  rw [OrderedMap.keys, hentries, List.map_append, freshPairs, List.map_fst_zip hle]
  rfl

/-- What the isolation has done before it rewrites the alternatives: it has defined a letter for
each terminal inside a long production that the mapping lacked, and recorded it. -/
structure Isolation (grammar : Grammar) (mapping : TerminalMapping) (count : Nat) (middle : Grammar)
    (extended : TerminalMapping) : Prop extends Extends grammar count middle where
  realizes : middle.Realizes extended
  records : ∀ symbol ∈ grammar.longTerminals, symbol ∈ extended.keys
  recorded : ∀ symbol isolated, extended.get? symbol = some isolated →
    mapping.get? symbol = some isolated ∨ isolated ∈ grammar.free
  defined : ∀ left ∈ middle.keys, left ∉ grammar.keys →
    ∃ terminal, terminal.isTerminal = true ∧ middle.alternatives left = [[terminal]]

theorem isTerminal_of_mem_longTerminals {symbol : Symbol} (h : symbol ∈ grammar.longTerminals) :
    symbol.isTerminal = true :=
  (List.mem_filter.1 h).2

theorem isolation (hmapping : grammar.Realizes mapping)
    (h : (newItems mapping.keys grammar.longTerminals).length ≤ grammar.free.length) :
    Isolation grammar mapping (newItems mapping.keys grammar.longTerminals).length
      (grammar.defineAll (grammar.freshPairs mapping grammar.longTerminals))
      (mapping.recordAll (grammar.freshPairs mapping grammar.longTerminals)) := by
  obtain ⟨hextends, halternatives⟩ := extends_defineAll_freshPairs h
  have hpair : ∀ pair ∈ grammar.freshPairs mapping grammar.longTerminals,
      pair.1.isTerminal = true ∧ pair.2 ∈ grammar.free := by
    intro pair hmem
    obtain ⟨hfst, hsnd⟩ := List.of_mem_zip (a := pair.1) (b := pair.2) hmem
    exact ⟨isTerminal_of_mem_longTerminals (mem_newItems.1 hfst).1, hsnd⟩
  refine ⟨hextends, ?_, ?_, ?_, ?_⟩
  · intro symbol isolated hget
    rcases TerminalMapping.mem_pairs_of_get?_recordAll hget with hold | hmem
    · obtain ⟨hterminal, hnonterminal, hsingle⟩ := hmapping symbol isolated hold
      have hmem : [symbol] ∈ grammar.alternatives isolated := by
        rw [hsingle]
        exact List.mem_cons_self
      have hkey := mem_keys_of_mem_alternatives hmem
      rw [hextends.alternatives_eq isolated hkey]
      exact ⟨hterminal, hnonterminal, hsingle⟩
    · obtain ⟨hterminal, hfree⟩ := hpair _ hmem
      exact ⟨hterminal, (mem_free.1 hfree).1, halternatives _ hmem⟩
  · intro symbol hsymbol
    rw [TerminalMapping.mem_keys_recordAll]
    by_cases hknown : symbol ∈ mapping.keys
    · exact .inl hknown
    · right
      rw [freshPairs, List.map_fst_zip h]
      exact mem_newItems.2 ⟨hsymbol, hknown⟩
  · intro symbol isolated hget
    rcases TerminalMapping.mem_pairs_of_get?_recordAll hget with hold | hmem
    · exact .inl hold
    · exact .inr (hpair _ hmem).2
  · intro left hleft hnew
    rw [hextends.keys_eq, List.mem_append, ← map_snd_freshPairs h] at hleft
    obtain ⟨pair, hmem, rfl⟩ := List.mem_map.1 (hleft.resolve_left hnew)
    exact ⟨pair.1, (hpair pair hmem).1, halternatives pair hmem⟩

theorem realizes_empty (grammar : Grammar) : grammar.Realizes .empty := by
  intro symbol isolated hget
  cases hget

theorem isolation_of_ok (hmapping : grammar.Realizes mapping) {extended : TerminalMapping}
    {result : Grammar} (h : grammar.isolateTerminals mapping = (extended, .ok result)) :
    ∃ middle, Isolation grammar mapping (newItems mapping.keys grammar.longTerminals).length middle
      extended ∧ result = middle.isolateAll extended := by
  rw [isolateTerminals_eq] at h
  split at h
  · rename_i hle
    cases h
    exact ⟨_, isolation hmapping hle, rfl⟩
  · cases h

namespace Isolation

variable {count : Nat} {middle : Grammar} {extended : TerminalMapping}

theorem grows_isolateAll (h : Isolation grammar mapping count middle extended) :
    Grows grammar count (middle.isolateAll extended) where
  count_le := h.count_le
  keys_eq := (keys_mapAlternatives _ _).trans h.keys_eq
  chosenStart_eq := h.chosenStart_eq

theorem alternatives_isolateAll_of_mem (h : Isolation grammar mapping count middle extended)
    {left : Symbol} (hleft : left ∈ grammar.keys) :
    (middle.isolateAll extended).alternatives left =
      (grammar.alternatives left).map (Production.isolate extended) := by
  rw [alternatives_isolateAll, h.alternatives_eq left hleft]

theorem alternatives_isolateAll_of_new (h : Isolation grammar mapping count middle extended)
    {left : Symbol} (hleft : left ∈ middle.keys) (hnew : left ∉ grammar.keys) :
    ∃ terminal, terminal.isTerminal = true ∧
      (middle.isolateAll extended).alternatives left = [[terminal]] := by
  obtain ⟨terminal, hterminal, halternatives⟩ := h.defined left hleft hnew
  refine ⟨terminal, hterminal, ?_⟩
  have hsame : Production.isolate extended [terminal] = [terminal] :=
    isolate_of_length_le_one (Nat.le_refl 1)
  rw [alternatives_isolateAll, halternatives, List.map_singleton, hsame]

/-- An alternative of the isolated grammar is a lone terminal or comes from an alternative of the
grammar. -/
theorem mem_alternatives_isolateAll (h : Isolation grammar mapping count middle extended)
    {left : Symbol} {production : Production}
    (hproduction : production ∈ (middle.isolateAll extended).alternatives left) :
    (∃ source ∈ grammar.alternatives left, production = source.isolate extended) ∨
      ∃ terminal, terminal.isTerminal = true ∧ production = [terminal] := by
  have hleft := mem_keys_of_mem_alternatives hproduction
  rw [isolateAll, keys_mapAlternatives] at hleft
  by_cases hold : left ∈ grammar.keys
  · rw [h.alternatives_isolateAll_of_mem hold] at hproduction
    obtain ⟨source, hsource, rfl⟩ := List.mem_map.1 hproduction
    exact .inl ⟨source, hsource, rfl⟩
  · obtain ⟨terminal, hterminal, halternatives⟩ := h.alternatives_isolateAll_of_new hleft hold
    rw [halternatives] at hproduction
    exact .inr ⟨terminal, hterminal, List.mem_singleton.1 hproduction⟩

/-- A symbol of an isolated production was there before or stands for a terminal that was. -/
theorem mem_isolate {production : Production} {symbol : Symbol}
    (hsymbol : symbol ∈ production.isolate extended) :
    symbol ∈ production ∨ ∃ terminal, extended.get? terminal = some symbol := by
  unfold Production.isolate at hsymbol
  split at hsymbol
  · obtain ⟨source, hsource, rfl⟩ := List.mem_map.1 hsymbol
    cases hget : extended.get? source with
    | none => exact .inl hsource
    | some isolated => exact .inr ⟨source, hget⟩
  · exact .inl hsymbol

theorem isNonterminal_of_long (h : Isolation grammar mapping count middle extended)
    {left : Symbol} {production : Production}
    (hproduction : production ∈ (middle.isolateAll extended).alternatives left)
    (hlong : 1 < production.length) : ∀ symbol ∈ production, symbol.isNonterminal = true := by
  obtain ⟨source, hsource, rfl⟩ | ⟨terminal, -, rfl⟩ := h.mem_alternatives_isolateAll hproduction
  · rw [length_isolate] at hlong
    intro symbol hsymbol
    unfold Production.isolate at hsymbol
    split at hsymbol
    · obtain ⟨before, hbefore, rfl⟩ := List.mem_map.1 hsymbol
      cases hget : extended.get? before with
      | some isolated => exact (h.realizes before isolated hget).2.1
      | none =>
          -- only a nonterminal is missing from the mapping
          rw [Option.getD_none, ← Symbol.isTerminal_eq_false_iff]
          by_contra hterminal
          rw [Bool.not_eq_false] at hterminal
          refine OrderedMap.get?_eq_none_iff.1 hget (h.records before ?_)
          refine List.mem_filter.2 ⟨List.mem_flatten.2 ⟨source, ?_, hbefore⟩, hterminal⟩
          exact List.mem_filter.2 ⟨mem_rightSides.2 ⟨left, hsource⟩, decide_eq_true hlong⟩
    · rename_i hplain
      rw [← Symbol.isTerminal_eq_false_iff]
      by_contra hterminal
      rw [Bool.not_eq_false] at hterminal
      exact hplain ⟨hlong, List.any_eq_true.2 ⟨symbol, hsymbol, hterminal⟩⟩
  · simp at hlong

theorem closed_isolateAll (h : Isolation grammar mapping count middle extended)
    (hclosed : grammar.Closed) : (middle.isolateAll extended).Closed := by
  intro left production hproduction symbol hsymbol hnonterminal
  obtain ⟨source, hsource, rfl⟩ | ⟨terminal, hterminal, rfl⟩ :=
    h.mem_alternatives_isolateAll hproduction
  · rcases mem_isolate hsymbol with hsymbol | ⟨terminal, hget⟩
    · exact h.grows_isolateAll.mem_keys (hclosed left source hsource symbol hsymbol hnonterminal)
    · have hmem : [terminal] ∈ (middle.isolateAll extended).alternatives symbol := by
        rw [(h.realizes.isolateAll terminal symbol hget).2.2]
        exact List.mem_cons_self
      exact mem_keys_of_mem_alternatives hmem
  · rw [List.mem_singleton.1 hsymbol, Symbol.isTerminal_eq_true_iff.1 hterminal] at hnonterminal
    exact absurd hnonterminal Bool.false_ne_true

/-- The letters of a first isolation were free, so a closed grammar uses none of them. -/
theorem notMem_of_closed (h : Isolation grammar .empty count middle extended)
    (hclosed : grammar.Closed) {left : Symbol} {production : Production}
    (hproduction : production ∈ grammar.alternatives left) (symbol isolated : Symbol)
    (hget : extended.get? symbol = some isolated) : isolated ∉ production := by
  intro hused
  rcases h.recorded symbol isolated hget with hnone | hfree
  · cases hnone
  · obtain ⟨hnonterminal, habsent⟩ := mem_free.1 hfree
    exact habsent (hclosed left production hproduction isolated hused hnonterminal)

theorem generates_isolateAll_iff (h : Isolation grammar mapping count middle extended)
    (hclosed : grammar.Closed) {symbol : Symbol} (hsymbol : symbol ∈ grammar.keys)
    {word : List Symbol} :
    (middle.isolateAll extended).Generates symbol word ↔ grammar.Generates symbol word := by
  rw [Grammar.generates_isolateAll_iff h.realizes]
  exact generates_iff_of_agree hclosed h.alternatives_eq hsymbol

end Isolation

end Grammar

end ChomskyForm
