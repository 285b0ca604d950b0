import ChomskyForm.Proofs.Binary
import ChomskyForm.Proofs.EpsilonFree
import ChomskyForm.Proofs.Isolated
import ChomskyForm.Proofs.UnitFree

/-!
# Alternatives without repetition

A rule adds only the alternatives that are new, and so do the removals of epsilon and of unit
productions, so none of them makes a symbol have an alternative twice. Isolation and binarization
rewrite the alternatives where they stand and compare them with nothing. What they do to two
different alternatives depends on the letters: isolation merges two that differ only in a terminal
and its letter, and binarization merges a long one with a pair that happens to end in its letter.
On a closed grammar there is no such pair, as no right side uses a letter that is still free.
-/

namespace ChomskyForm

theorem eq_of_map_eq {α β : Type} {change : α → β} {first second : List α}
    (hinj : ∀ x ∈ first, ∀ y ∈ second, change x = change y → x = y)
    (h : first.map change = second.map change) : first = second := by
  induction first generalizing second with
  | nil => exact (List.map_eq_nil_iff.1 h.symm).symm
  | cons x first ih =>
      cases second with
      | nil => cases h
      | cons y second =>
          obtain ⟨hhead, htail⟩ := List.cons_eq_cons.1 h
          rw [hinj x List.mem_cons_self y List.mem_cons_self hhead,
            ih (fun a ha b hb => hinj a (List.mem_cons_of_mem _ ha) b (List.mem_cons_of_mem _ hb))
              htail]

namespace Grammar

variable {grammar grown result : Grammar} {mapping extended : TerminalMapping} {left : Symbol}
  {production short : Production} {shorts productions : List Production} {taken : List Symbol}

/-- No symbol has an alternative twice. -/
def Unique (grammar : Grammar) : Prop := ∀ left, (grammar.alternatives left).Nodup

theorem unique_iff : grammar.Unique ↔ ∀ left ∈ grammar.keys, (grammar.alternatives left).Nodup := by
  refine ⟨fun h left _ => h left, fun h left => ?_⟩
  by_cases hleft : left ∈ grammar.keys
  · exact h left hleft
  · rw [alternatives_eq_nil hleft]
    exact .nil

instance : Decidable grammar.Unique := decidable_of_iff _ unique_iff.symm

theorem unique_empty : Unique {} := fun _ => .nil

/-! ### Changes that add what is new -/

theorem Unique.addRule (h : grammar.Unique) (left : Symbol) (productions : List Production) :
    (grammar.addRule left productions).Unique := by
  intro symbol
  rw [alternatives_addRule]
  split
  · exact nodup_addAllNew (h left) productions
  · exact h symbol

theorem Unique.setStart (h : grammar.Unique) (start : Symbol) : (grammar.setStart start).Unique :=
  h

theorem unique_mapAlternatives {change : Symbol → List Production → List Production}
    (h : ∀ left ∈ grammar.keys, (change left (grammar.alternatives left)).Nodup) :
    (grammar.mapAlternatives change).Unique := by
  rw [unique_iff, keys_mapAlternatives]
  intro left hleft
  rw [alternatives_mapAlternatives change hleft]
  exact h left hleft

theorem Unique.removeEpsilon (h : grammar.Unique) (nullable : List Symbol) :
    (grammar.removeEpsilon nullable).Unique :=
  unique_mapAlternatives fun left _ => nodup_addAllNew ((h left).filter _) _

theorem Unique.withEmptyStart (h : grammar.Unique) (start fresh : Symbol) :
    (grammar.withEmptyStart start fresh).Unique :=
  (h.addRule fresh [[start], []]).setStart fresh

theorem Unique.addEmptyStart (h : grammar.Unique) {fresh : Symbol}
    (hok : grammar.addEmptyStart = .ok (fresh, result)) : result.Unique := by
  cases hstart : grammar.start? with
  | none =>
      rw [Grammar.addEmptyStart, hstart] at hok
      cases hok
  | some start =>
      cases hfree : grammar.free with
      | nil =>
          rw [addEmptyStart_of_free_nil hstart hfree] at hok
          cases hok
      | cons first rest =>
          rw [addEmptyStart_of_free_cons hstart hfree] at hok
          cases hok
          exact h.withEmptyStart start fresh

theorem Unique.removeUnits (h : grammar.Unique) : grammar.removeUnits.Unique :=
  unique_mapAlternatives fun left _ => nodup_addAllNew ((h left).filter _) _

/-! ### Isolation -/

/-- A symbol that was defined gets the isolated forms of its alternatives, and a new one has a
terminal from inside a long alternative. -/
theorem alternatives_of_isolateTerminals
    (h : grammar.isolateTerminals mapping = (extended, .ok result)) :
    (∀ left ∈ grammar.keys,
      result.alternatives left = (grammar.alternatives left).map (Production.isolate extended)) ∧
    ∀ left ∈ result.keys, left ∉ grammar.keys →
      ∃ terminal ∈ grammar.longTerminals, result.alternatives left = [[terminal]] := by
  rw [isolateTerminals_eq] at h
  split at h
  · rename_i hle
    obtain ⟨hextends, halternatives⟩ := extends_defineAll_freshPairs hle
    cases h
    refine ⟨fun left hleft => ?_, fun left hleft hnew => ?_⟩
    · rw [alternatives_isolateAll, hextends.alternatives_eq left hleft]
    · rw [isolateAll, keys_mapAlternatives, hextends.keys_eq, List.mem_append,
        ← map_snd_freshPairs hle] at hleft
      obtain ⟨pair, hpair, rfl⟩ := List.mem_map.1 (hleft.resolve_left hnew)
      have hterminal := (List.of_mem_zip (a := pair.1) (b := pair.2) hpair).1
      have hsame : ∀ other : TerminalMapping, Production.isolate other [pair.1] = [pair.1] :=
        fun _ => isolate_of_length_le_one (Nat.le_refl 1)
      refine ⟨pair.1, (mem_newItems.1 hterminal).1, ?_⟩
      rw [alternatives_isolateAll, halternatives pair hpair, List.map_singleton, hsame]
  · cases h

/-- Different alternatives of a symbol have different isolated forms. -/
def StaysApart (grammar : Grammar) (mapping : TerminalMapping) : Prop :=
  ∀ left, ∀ first ∈ grammar.alternatives left, ∀ second ∈ grammar.alternatives left,
    first.isolate mapping = second.isolate mapping → first = second

theorem unique_isolateTerminals_iff (h : grammar.Unique)
    (hok : grammar.isolateTerminals mapping = (extended, .ok result)) :
    result.Unique ↔ grammar.StaysApart extended := by
  obtain ⟨hold, hnew⟩ := alternatives_of_isolateTerminals hok
  constructor
  · intro hresult left first hfirst
    have hnodup := hresult left
    rw [hold left (mem_keys_of_mem_alternatives hfirst),
      List.nodup_map_iff_inj_on (h left)] at hnodup
    exact hnodup first hfirst
  · intro hapart
    rw [unique_iff]
    intro left hkey
    by_cases hleft : left ∈ grammar.keys
    · rw [hold left hleft, List.nodup_map_iff_inj_on (h left)]
      exact hapart left
    · obtain ⟨terminal, -, hsingle⟩ := hnew left hkey hleft
      exact hsingle ▸ List.nodup_singleton _

/-- Where only terminals are recorded, isolation replaces symbol by symbol. -/
theorem isolate_eq_map
    (hterminal : ∀ symbol isolated, mapping.get? symbol = some isolated →
      symbol.isTerminal = true) (hlong : 1 < production.length) :
    production.isolate mapping =
      production.map fun symbol => (mapping.get? symbol).getD symbol := by
  unfold Production.isolate
  split
  · rfl
  · rename_i hplain
    refine ((List.map_congr_left fun symbol hsymbol => ?_).trans (List.map_id _)).symm
    cases hget : mapping.get? symbol with
    | none => rfl
    | some isolated =>
        refine absurd ⟨hlong, ?_⟩ hplain
        exact List.any_eq_true.2 ⟨symbol, hsymbol, hterminal symbol isolated hget⟩

/-- Letters that stand for one terminal each, and that no alternative uses, merge nothing. -/
theorem staysApart_of_unused
    (hterminal : ∀ symbol isolated, mapping.get? symbol = some isolated →
      symbol.isTerminal = true)
    (hone : ∀ symbol other isolated, mapping.get? symbol = some isolated →
      mapping.get? other = some isolated → symbol = other)
    (hunused : ∀ symbol isolated, mapping.get? symbol = some isolated →
      ∀ left, ∀ production ∈ grammar.alternatives left, isolated ∉ production) :
    grammar.StaysApart mapping := by
  intro left first hfirst second hsecond heq
  have hlength := congrArg List.length heq
  rw [length_isolate, length_isolate] at hlength
  by_cases hlong : 1 < first.length
  · rw [isolate_eq_map hterminal hlong, isolate_eq_map hterminal (hlength ▸ hlong)] at heq
    refine eq_of_map_eq (fun x hx y hy hsame => ?_) heq
    cases hgetx : mapping.get? x with
    | none =>
        cases hgety : mapping.get? y with
        | none =>
            rw [hgetx, hgety] at hsame
            exact hsame
        | some isolated =>
            rw [hgetx, hgety, Option.getD_none, Option.getD_some] at hsame
            exact absurd (hsame ▸ hx) (hunused y isolated hgety left first hfirst)
    | some isolated =>
        cases hgety : mapping.get? y with
        | none =>
            rw [hgetx, hgety, Option.getD_some, Option.getD_none] at hsame
            exact absurd (hsame ▸ hy) (hunused x isolated hgetx left second hsecond)
        | some other =>
            rw [hgetx, hgety, Option.getD_some, Option.getD_some] at hsame
            exact hone x y isolated hgetx (hsame ▸ hgety)
  · have hshort : first.length ≤ 1 := Nat.le_of_not_lt hlong
    rwa [isolate_of_length_le_one hshort, isolate_of_length_le_one (hlength ▸ hshort)] at heq

/-- Without a terminal inside a long alternative, isolation leaves everything as it is. -/
theorem staysApart_of_longTerminals_eq_nil (h : grammar.longTerminals = []) :
    grammar.StaysApart mapping := by
  have hsame : ∀ left, ∀ production ∈ grammar.alternatives left,
      production.isolate mapping = production := by
    intro left production hproduction
    refine if_neg ?_
    rintro ⟨hlong, hterminal⟩
    obtain ⟨symbol, hsymbol, hterminal⟩ := List.any_eq_true.1 hterminal
    have hmem : symbol ∈ grammar.longTerminals := by
      refine List.mem_filter.2 ⟨List.mem_flatten.2 ⟨production, ?_, hsymbol⟩, hterminal⟩
      exact List.mem_filter.2 ⟨mem_rightSides.2 ⟨left, hproduction⟩, decide_eq_true hlong⟩
    rw [h] at hmem
    cases hmem
  intro left first hfirst second hsecond heq
  rwa [hsame left first hfirst, hsame left second hsecond] at heq

/-- A first isolation of a closed grammar merges nothing. -/
theorem Closed.staysApart (hclosed : grammar.Closed)
    (hok : grammar.isolateTerminals .empty = (extended, .ok result)) :
    grammar.StaysApart extended := by
  obtain ⟨middle, hisolation, -⟩ := isolation_of_ok grammar.realizes_empty hok
  refine staysApart_of_unused (fun symbol isolated hget => ?_) ?_ ?_
  · exact (hisolation.realizes symbol isolated hget).1
  · exact hisolation.realizes.eq_of_get?_eq
  · exact fun symbol isolated hget left production hproduction =>
      hisolation.notMem_of_closed hclosed hproduction symbol isolated hget

/-! ### Binarization -/

/-- The first productions are the second ones, each long one replaced by a pair that ends in a
nonterminal of its own. -/
inductive Paired : List Symbol → List Production → List Production → Prop
  | nil {taken : List Symbol} : Paired taken [] []
  | short {taken : List Symbol} {production : Production} {shorts productions : List Production}
      (isShort : production.length ≤ 2) (rest : Paired taken shorts productions) :
      Paired taken (production :: shorts) (production :: productions)
  | long {taken : List Symbol} {first fresh : Symbol} {production : Production}
      {shorts productions : List Production} (isLong : 2 < production.length)
      (isNonterminal : fresh.isNonterminal = true) (isNew : fresh ∉ taken)
      (rest : Paired (fresh :: taken) shorts productions) :
      Paired taken ([first, fresh] :: shorts) (production :: productions)

theorem Paired.anti (h : Paired taken shorts productions) {fewer : List Symbol}
    (hle : fewer ⊆ taken) : Paired fewer shorts productions := by
  induction h generalizing fewer with
  | nil => exact .nil
  | short isShort _ ih => exact .short isShort (ih hle)
  | long isLong isNonterminal isNew _ ih =>
      exact .long isLong isNonterminal (fun hmem => isNew (hle hmem))
        (ih (List.cons_subset_cons _ hle))

theorem Paired.exists_pair (h : Paired taken shorts productions) :
    ∀ pair ∈ shorts.zip productions, 2 < pair.2.length →
      ∃ first fresh, pair.1 = [first, fresh] ∧ fresh.isNonterminal = true ∧ fresh ∉ taken := by
  induction h with
  | nil => simp
  | short isShort _ ih =>
      rw [List.zip_cons_cons, List.forall_mem_cons]
      exact ⟨fun hlong => absurd hlong (Nat.not_lt.2 isShort), ih⟩
  | long isLong isNonterminal isNew _ ih =>
      rw [List.zip_cons_cons, List.forall_mem_cons]
      refine ⟨fun _ => ⟨_, _, rfl, isNonterminal, isNew⟩, fun pair hpair hlong => ?_⟩
      obtain ⟨first, fresh, heq, hnonterminal, hnew⟩ := ih pair hpair hlong
      exact ⟨first, fresh, heq, hnonterminal, fun hmem => hnew (List.mem_cons_of_mem _ hmem)⟩

theorem Paired.mem_iff (h : Paired taken shorts productions) :
    short ∈ shorts ↔ (short ∈ productions ∧ short.length ≤ 2) ∨
      ∃ pair ∈ shorts.zip productions, 2 < pair.2.length ∧ pair.1 = short := by
  induction h with
  | nil => simp
  | @short _ production _ _ isShort _ ih =>
      rw [List.zip_cons_cons, List.exists_mem_cons_iff, List.mem_cons, List.mem_cons, ih]
      have hnot : ¬2 < production.length := Nat.not_lt.2 isShort
      by_cases heq : short = production
      · simp [heq, isShort]
      · simp [heq, hnot]
  | @long _ first fresh production _ _ isLong _ _ _ ih =>
      rw [List.zip_cons_cons, List.exists_mem_cons_iff, List.mem_cons, List.mem_cons, ih]
      have hne : short.length ≤ 2 → short ≠ production := fun hle heq =>
        absurd isLong (Nat.not_lt.2 (heq ▸ hle))
      constructor
      · rintro (rfl | ⟨hmem, hle⟩ | hpair)
        · exact .inr (.inl ⟨isLong, rfl⟩)
        · exact .inl ⟨.inr hmem, hle⟩
        · exact .inr (.inr hpair)
      · rintro (⟨heq | hmem, hle⟩ | ⟨-, rfl⟩ | hpair)
        · exact absurd heq (hne hle)
        · exact .inr (.inl ⟨hmem, hle⟩)
        · exact .inl rfl
        · exact .inr (.inr hpair)

/-- Pairs differ from each other by their letters, so only a pair that was there before repeats. -/
theorem Paired.nodup_iff (h : Paired taken shorts productions) (hnodup : productions.Nodup) :
    shorts.Nodup ↔
      ∀ pair ∈ shorts.zip productions, 2 < pair.2.length → pair.1 ∉ productions := by
  induction h with
  | nil => simp
  | @short taken production shorts productions isShort rest ih =>
      obtain ⟨habsent, hnodup⟩ := List.nodup_cons.1 hnodup
      have hhead : production ∉ shorts ↔
          ∀ pair ∈ shorts.zip productions, 2 < pair.2.length → pair.1 ≠ production := by
        rw [rest.mem_iff]
        simp only [habsent, false_and, false_or, not_exists, not_and, ne_eq]
      rw [List.nodup_cons, ih hnodup, hhead, List.zip_cons_cons, List.forall_mem_cons]
      simp only [List.mem_cons, not_or]
      constructor
      · rintro ⟨hne, hold⟩
        exact ⟨fun hlong => absurd hlong (Nat.not_lt.2 isShort),
          fun pair hpair hlong => ⟨hne pair hpair hlong, hold pair hpair hlong⟩⟩
      · rintro ⟨-, hall⟩
        exact ⟨fun pair hpair hlong => (hall pair hpair hlong).1,
          fun pair hpair hlong => (hall pair hpair hlong).2⟩
  | @long taken first fresh production shorts productions isLong isNonterminal isNew rest ih =>
      obtain ⟨-, hnodup⟩ := List.nodup_cons.1 hnodup
      have hhead : [first, fresh] ∈ shorts ↔ [first, fresh] ∈ productions := by
        rw [rest.mem_iff, or_iff_left]
        · exact and_iff_left (Nat.le_refl 2)
        · -- the later letters differ from this one
          rintro ⟨pair, hpair, hlong, heq⟩
          obtain ⟨other, later, hlater, -, hnew⟩ := rest.exists_pair pair hpair hlong
          rw [heq] at hlater
          cases hlater
          exact hnew List.mem_cons_self
      have hne : ∀ pair ∈ shorts.zip productions, 2 < pair.2.length → pair.1 ≠ production := by
        intro pair hpair hlong heq
        obtain ⟨other, later, hlater, -⟩ := rest.exists_pair pair hpair hlong
        rw [← heq, hlater] at isLong
        exact absurd isLong (Nat.lt_irrefl 2)
      have hself : [first, fresh] ≠ production := fun heq =>
        absurd isLong (heq ▸ Nat.lt_irrefl 2)
      rw [List.nodup_cons, hhead, ih hnodup, List.zip_cons_cons, List.forall_mem_cons]
      simp only [List.mem_cons, not_or]
      constructor
      · rintro ⟨hpair, hold⟩
        exact ⟨fun _ => ⟨hself, hpair⟩,
          fun pair hmem hlong => ⟨hne pair hmem hlong, hold pair hmem hlong⟩⟩
      · rintro ⟨hpair, hall⟩
        exact ⟨(hpair isLong).2, fun pair hmem hlong => (hall pair hmem hlong).2⟩

theorem shortens_of_shorten (h : grammar.shorten production = .ok (short, grown)) :
    Shortens grammar [] [production] (production.length - 2) grown ∧
      grown.Unfolds grammar.keys short production := by
  rcases Nat.lt_or_ge grammar.free.length (production.length - 2) with hlt | hle
  · rw [shorten_of_lt hlt] at h
    cases h
  · obtain ⟨other, extended, hok, hshortens⟩ := shorten_of_le grammar production hle
    rw [hok] at h
    cases h
    exact hshortens

theorem paired_of_shortenEach (h : grammar.shortenEach productions = .ok (shorts, grown)) :
    Paired grammar.keys shorts productions := by
  induction productions generalizing grammar shorts with
  | nil =>
      cases h
      exact .nil
  | cons production productions ih =>
      rw [shortenEach] at h
      obtain ⟨⟨short, extended⟩, hshort, h⟩ := exists_ok_of_bind h
      obtain ⟨⟨others, last⟩, hrest, h⟩ := exists_ok_of_bind h
      cases h
      obtain ⟨hshortens, hunfolds⟩ := shortens_of_shorten hshort
      have hothers := ih hrest
      cases hunfolds with
      | short isShort => exact .short isShort (hothers.anti fun _ => hshortens.mem_keys)
      | chain isNonterminal isKey isNew _ isLong =>
          refine .long (Nat.succ_lt_succ isLong) isNonterminal isNew (hothers.anti ?_)
          exact List.cons_subset.2 ⟨isKey, fun _ => hshortens.mem_keys⟩

theorem shortens_of_shortenEach (h : grammar.shortenEach productions = .ok (shorts, grown)) :
    Shortens grammar [] productions (excess productions) grown := by
  rcases Nat.lt_or_ge grammar.free.length (excess productions) with hlt | hle
  · rw [shortenEach_of_lt hlt] at h
    cases h
  · obtain ⟨others, extended, hok, hshortens, -⟩ := shortenEach_of_le grammar productions hle
    rw [hok] at h
    cases h
    exact hshortens

theorem shortens_of_shortenRules {rules : List (Symbol × List Production)}
    (hkeys : ∀ left ∈ rules.map Prod.fst, left ∈ grammar.keys)
    (hnodup : (rules.map Prod.fst).Nodup) (h : grammar.shortenRules rules = .ok grown) :
    Shortens grammar (rules.map Prod.fst) (rules.flatMap Prod.snd)
      (excess (rules.flatMap Prod.snd)) grown := by
  rcases Nat.lt_or_ge grammar.free.length (excess (rules.flatMap Prod.snd)) with hlt | hle
  · rw [shortenRules_of_lt hkeys hlt] at h
    cases h
  · obtain ⟨extended, hok, hshortens, -⟩ := shortenRules_of_le grammar hkeys hnodup hle
    rw [hok] at h
    cases h
    exact hshortens

/-- The first of several rules is shortened in its place, and the others after it. -/
theorem exists_of_shortenRules_cons {right : List Production}
    {rules : List (Symbol × List Production)}
    (hkeys : ∀ other ∈ ((left, right) :: rules).map Prod.fst, other ∈ grammar.keys)
    (hnodup : (((left, right) :: rules).map Prod.fst).Nodup)
    (h : grammar.shortenRules ((left, right) :: rules) = .ok grown) :
    ∃ shorts extended, grammar.shortenEach right = .ok (shorts, extended) ∧
      Shortens grammar [left] right (excess right) (extended.setAlternatives left shorts) ∧
      (extended.setAlternatives left shorts).shortenRules rules = .ok grown ∧
      Shortens (extended.setAlternatives left shorts) (rules.map Prod.fst)
        (rules.flatMap Prod.snd) (excess (rules.flatMap Prod.snd)) grown := by
  obtain ⟨⟨shorts, extended⟩, hright, hrules⟩ := exists_ok_of_bind h
  have hleft : left ∈ grammar.keys := hkeys left List.mem_cons_self
  have hboth := (shortens_of_shortenEach hright).setRow hleft shorts
  have hrest : ∀ other ∈ rules.map Prod.fst,
      other ∈ (extended.setAlternatives left shorts).keys := fun other hother =>
    hboth.mem_keys (hkeys other (List.mem_cons_of_mem _ hother))
  exact ⟨shorts, extended, hright, hboth, hrules,
    shortens_of_shortenRules hrest (List.nodup_cons.1 hnodup).2 hrules⟩

theorem paired_of_shortenRules {rules : List (Symbol × List Production)}
    (hkeys : ∀ left ∈ rules.map Prod.fst, left ∈ grammar.keys)
    (hnodup : (rules.map Prod.fst).Nodup) (h : grammar.shortenRules rules = .ok grown) :
    ∀ rule ∈ rules, Paired grammar.keys (grown.alternatives rule.1) rule.2 := by
  induction rules generalizing grammar with
  | nil => simp
  | cons rule rules ih =>
      obtain ⟨left, right⟩ := rule
      obtain ⟨shorts, extended, hright, hfirst, hrules, hlater⟩ :=
        exists_of_shortenRules_cons hkeys hnodup h
      obtain ⟨hleft, hnodup⟩ := List.nodup_cons.1 hnodup
      rw [List.forall_mem_cons]
      refine ⟨?_, fun rule hrule => ?_⟩
      · -- the rules after it leave the alternatives of the symbol alone
        have hkey := hfirst.mem_keys (hkeys left List.mem_cons_self)
        have hsame : grown.alternatives left = shorts := by
          rw [hlater.kept left hkey hleft, alternatives_setAlternatives, if_pos rfl]
        exact hsame ▸ paired_of_shortenEach hright
      · have hrest : ∀ other ∈ rules.map Prod.fst,
            other ∈ (extended.setAlternatives left shorts).keys := fun other hother =>
          hfirst.mem_keys (hkeys other (List.mem_cons_of_mem _ hother))
        exact (ih hrest hnodup hrules rule hrule).anti fun _ => hfirst.mem_keys

theorem paired_of_binarize (h : grammar.binarize = .ok result) (hleft : left ∈ grammar.keys) :
    Paired grammar.keys (result.alternatives left) (grammar.alternatives left) := by
  apply paired_of_shortenRules (fun _ hkey => hkey) grammar.nodup_keys h
    (left, grammar.alternatives left)
  rw [entries_eq]
  exact List.mem_map.2 ⟨left, hleft, rfl⟩

/-- No long alternative becomes a pair that its symbol had as an alternative before. -/
def PairsApart (grammar result : Grammar) : Prop :=
  ∀ left, ∀ pair ∈ (result.alternatives left).zip (grammar.alternatives left),
    2 < pair.2.length → pair.1 ∉ grammar.alternatives left

theorem unique_binarize_iff (h : grammar.Unique) (hok : grammar.binarize = .ok result) :
    result.Unique ↔ grammar.PairsApart result := by
  have hdefined : ∀ left ∈ grammar.keys, (result.alternatives left).Nodup ↔
      ∀ pair ∈ (result.alternatives left).zip (grammar.alternatives left),
        2 < pair.2.length → pair.1 ∉ grammar.alternatives left :=
    fun left hleft => (paired_of_binarize hok hleft).nodup_iff (h left)
  constructor
  · intro hresult left pair hpair
    have hleft := mem_keys_of_mem_alternatives (List.of_mem_zip hpair).2
    exact (hdefined left hleft).1 (hresult left) pair hpair
  · intro hapart
    rw [unique_iff]
    intro left hkey
    by_cases hleft : left ∈ grammar.keys
    · exact (hdefined left hleft).2 (hapart left)
    · obtain ⟨first, second, hsingle, -⟩ := (binarization_of_ok hok).named left hkey hleft
      rw [hsingle]
      exact List.nodup_singleton _

/-- The letter of a pair was free, so a closed grammar has no such pair. -/
theorem Closed.pairsApart (hclosed : grammar.Closed) (hok : grammar.binarize = .ok result) :
    grammar.PairsApart result := by
  intro left pair hpair hlong hmem
  have hleft := mem_keys_of_mem_alternatives hmem
  obtain ⟨first, fresh, heq, hnonterminal, hnew⟩ :=
    (paired_of_binarize hok hleft).exists_pair pair hpair hlong
  have hused : fresh ∈ pair.1 := by
    rw [heq]
    exact List.mem_cons_of_mem _ List.mem_cons_self
  exact hnew (hclosed left pair.1 hmem fresh hused hnonterminal)

end Grammar

end ChomskyForm
