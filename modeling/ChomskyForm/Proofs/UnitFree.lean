import ChomskyForm.Conversion.UnitFree
import ChomskyForm.Grammar.Samples
import ChomskyForm.Proofs.Derivation

/-!
# Languages without unit productions

The walk meets exactly the symbols that can be reached without leaving the unseen ones. A symbol
therefore takes over the proper alternatives of all the symbols to which a chain of unit productions
leads, and no word is won or lost.
-/

namespace ChomskyForm

open Relation

/-- A step to one of the targets that stays within a set. -/
def StepWithin (targets : Symbol → List Symbol) (room : List Symbol) (source target : Symbol) :
    Prop :=
  target ∈ targets source ∧ target ∈ room

variable {targets : Symbol → List Symbol} {room pending unseen : List Symbol}

/-- What is reached within a set is reached without passing an item of it, from the start or from a
target of the item. -/
theorem exists_reaches_erase (item : Symbol) {start goal : Symbol} (hstart : start ∈ room)
    (h : ReflTransGen (StepWithin targets room) start goal) :
    goal = item ∨ ∃ first, (first = start ∨ first ∈ targets item) ∧ first ∈ room.erase item ∧
      ReflTransGen (StepWithin targets (room.erase item)) first goal := by
  induction h with
  | refl =>
      by_cases heq : start = item
      · exact .inl heq
      · exact .inr ⟨start, .inl rfl, (List.mem_erase_of_ne heq).2 hstart, .refl⟩
  | @tail middle goal _ hstep ih =>
      by_cases heq : goal = item
      · exact .inl heq
      · have hgoal : goal ∈ room.erase item := (List.mem_erase_of_ne heq).2 hstep.2
        rcases ih with rfl | ⟨first, hfirst, hroom, hpath⟩
        · exact .inr ⟨goal, .inr hstep.1, hgoal, .refl⟩
        · exact .inr ⟨first, hfirst, hroom, hpath.tail ⟨hstep.1, hgoal⟩⟩

theorem StepWithin.erase {item source target : Symbol}
    (h : StepWithin targets (room.erase item) source target) :
    StepWithin targets room source target :=
  ⟨h.1, List.mem_of_mem_erase h.2⟩

namespace Grammar

theorem mem_walk (hnodup : unseen.Nodup) {symbol : Symbol} :
    symbol ∈ walk targets pending unseen ↔
      ∃ start ∈ pending, start ∈ unseen ∧
        ReflTransGen (StepWithin targets unseen) start symbol := by
  fun_induction walk targets pending unseen with
  | case1 => simp
  | case2 unseen first rest hfirst ih =>
      rw [List.mem_cons, ih (hnodup.erase first)]
      constructor
      · rintro (rfl | ⟨start, hstart, hunseen, hpath⟩)
        · exact ⟨symbol, List.mem_cons_self, hfirst, .refl⟩
        · have hpath' := ReflTransGen.mono (fun _ _ hstep => StepWithin.erase hstep) _ _ hpath
          have hunseen' := List.mem_of_mem_erase hunseen
          rcases List.mem_append.1 hstart with htarget | hrest
          · exact ⟨first, List.mem_cons_self, hfirst, .head ⟨htarget, hunseen'⟩ hpath'⟩
          · exact ⟨start, List.mem_cons_of_mem _ hrest, hunseen', hpath'⟩
      · rintro ⟨start, hstart, hunseen, hpath⟩
        rcases exists_reaches_erase first hunseen hpath with
          heq | ⟨next, hnext, hroom, hpath'⟩
        · exact .inl heq
        · refine .inr ⟨next, List.mem_append.2 ?_, hroom, hpath'⟩
          rcases hnext with rfl | htarget
          · rcases List.mem_cons.1 hstart with rfl | hrest
            · exact absurd hroom hnodup.not_mem_erase
            · exact .inr hrest
          · exact .inl htarget
  | case3 unseen first rest hfirst ih =>
      rw [ih hnodup]
      constructor
      · rintro ⟨start, hstart, h⟩
        exact ⟨start, List.mem_cons_of_mem _ hstart, h⟩
      · rintro ⟨start, hstart, hunseen, hpath⟩
        rcases List.mem_cons.1 hstart with rfl | hrest
        · exact absurd hunseen hfirst
        · exact ⟨start, hrest, hunseen, hpath⟩

/-- A walk that stays within a set does not ask for anything outside of it. -/
theorem walk_append {others : Symbol → List Symbol} {extra : List Symbol}
    (hothers : ∀ symbol ∈ room, others symbol = targets symbol)
    (htargets : ∀ symbol ∈ room, targets symbol ⊆ room) (hextra : ∀ symbol ∈ room, symbol ∉ extra)
    (hpending : pending ⊆ room) :
    walk others pending (unseen ++ extra) = walk targets pending unseen := by
  fun_induction walk targets pending unseen with
  | case1 => rw [walk]
  | case2 unseen symbol rest hmem ih =>
      obtain ⟨hsymbol, hrest⟩ := List.cons_subset.1 hpending
      have hnext : targets symbol ++ rest ⊆ room :=
        List.append_subset.2 ⟨htargets symbol hsymbol, hrest⟩
      rw [walk, if_pos (List.mem_append_left _ hmem), List.erase_append_left _ hmem,
        hothers symbol hsymbol, ih hnext]
  | case3 unseen symbol rest hmem ih =>
      obtain ⟨hsymbol, hrest⟩ := List.cons_subset.1 hpending
      have habsent : symbol ∉ unseen ++ extra := by
        rw [List.mem_append, not_or]
        exact ⟨hmem, hextra symbol hsymbol⟩
      rw [walk, if_neg habsent, ih hrest]

variable {grammar : Grammar} {left symbol : Symbol} {production : Production}

theorem unitTarget?_eq_some_iff {target : Symbol} :
    production.unitTarget? = some target ↔ production = [target] ∧ target.isNonterminal = true := by
  unfold Production.unitTarget?
  split
  · rename_i symbol
    constructor
    · intro h
      split at h
      · rename_i hnonterminal
        cases h
        exact ⟨rfl, hnonterminal⟩
      · cases h
    · rintro ⟨heq, hnonterminal⟩
      cases heq
      exact if_pos hnonterminal
  · rename_i hne
    exact iff_of_false (fun h => nomatch h) fun h => hne target h.1

theorem isUnit_iff :
    grammar.isUnit production = true ↔
      ∃ target ∈ grammar.keys, target.isNonterminal = true ∧ production = [target] := by
  unfold isUnit Production.unitTarget?
  split
  · rename_i target
    by_cases htarget : target.isNonterminal = true <;> simp [htarget]
  · rename_i hne
    apply iff_of_false (by simp)
    rintro ⟨target, -, -, heq⟩
    exact hne target heq

theorem mem_unitTargets :
    symbol ∈ grammar.unitTargets left ↔
      [symbol] ∈ grammar.alternatives left ∧ symbol.isNonterminal = true ∧
        symbol ∈ grammar.keys := by
  rw [unitTargets, List.mem_filter, List.mem_filterMap, decide_eq_true_iff, ← and_assoc]
  apply and_congr_left
  intro _
  simp only [unitTarget?_eq_some_iff]
  constructor
  · rintro ⟨production, hproduction, rfl, hnonterminal⟩
    exact ⟨hproduction, hnonterminal⟩
  · rintro ⟨hproduction, hnonterminal⟩
    exact ⟨[symbol], hproduction, rfl, hnonterminal⟩

/-- The second symbol is a unit alternative of the first. -/
def UnitStep (grammar : Grammar) (source target : Symbol) : Prop :=
  target ∈ grammar.unitTargets source

theorem stepWithin_keys_iff {source target : Symbol} :
    StepWithin grammar.unitTargets grammar.keys source target ↔ grammar.UnitStep source target :=
  ⟨And.left, fun h => ⟨h, (mem_unitTargets.1 h).2.2⟩⟩

/-- The walk from a key meets the other keys that a chain of unit alternatives leads to. -/
theorem mem_unitReach (hleft : left ∈ grammar.keys) :
    symbol ∈ grammar.unitReach left ↔ symbol ≠ left ∧ TransGen grammar.UnitStep left symbol := by
  have hrelation : StepWithin grammar.unitTargets grammar.keys = grammar.UnitStep := by
    funext source target
    exact propext stepWithin_keys_iff
  rw [unitReach, mem_walk (grammar.nodup_keys.erase left)]
  constructor
  · rintro ⟨start, hstart, hunseen, hpath⟩
    have hpath' := ReflTransGen.mono (fun _ _ hstep => StepWithin.erase hstep) _ _ hpath
    rw [hrelation] at hpath'
    refine ⟨?_, TransGen.head' hstart hpath'⟩
    rintro rfl
    rcases ReflTransGen.cases_tail hpath with heq | ⟨_, -, hstep⟩
    · exact grammar.nodup_keys.not_mem_erase (heq ▸ hunseen)
    · exact grammar.nodup_keys.not_mem_erase hstep.2
  · rintro ⟨hne, hpath⟩
    have hpath' := hpath.to_reflTransGen
    rw [← hrelation] at hpath'
    obtain heq | ⟨first, hfirst, hroom, h⟩ := exists_reaches_erase left hleft hpath'
    · exact absurd heq hne
    · rcases hfirst with rfl | hfirst
      · exact absurd hroom grammar.nodup_keys.not_mem_erase
      · exact ⟨first, hfirst, hroom, h⟩

theorem unitTargets_subset_keys (left : Symbol) : grammar.unitTargets left ⊆ grammar.keys :=
  fun _ htarget => (mem_unitTargets.1 htarget).2.2

theorem unitReach_subset_keys (hleft : left ∈ grammar.keys) :
    grammar.unitReach left ⊆ grammar.keys := by
  intro symbol hsymbol
  obtain ⟨source, -, hlast⟩ := TransGen.tail'_iff.1 ((mem_unitReach hleft).1 hsymbol).2
  exact unitTargets_subset_keys source hlast

@[simp]
theorem keys_removeUnits : grammar.removeUnits.keys = grammar.keys :=
  grammar.keys_mapAlternatives _

@[simp]
theorem chosenStart_removeUnits : grammar.removeUnits.chosenStart = grammar.chosenStart := rfl

theorem mem_properAlternatives :
    production ∈ grammar.properAlternatives left ↔
      production ∈ grammar.alternatives left ∧ grammar.isUnit production = false := by
  simp [properAlternatives]

theorem mem_alternatives_removeUnits :
    production ∈ grammar.removeUnits.alternatives left ↔
      grammar.isUnit production = false ∧
        ∃ source, ReflTransGen grammar.UnitStep left source ∧
          production ∈ grammar.alternatives source := by
  rw [removeUnits, mem_alternatives_mapAlternatives, mem_addAllNew]
  simp only [List.mem_flatMap, mem_properAlternatives]
  constructor
  · rintro ⟨hleft, ⟨hmem, hproper⟩ | ⟨source, hsource, hmem, hproper⟩⟩
    · exact ⟨hproper, left, .refl, hmem⟩
    · exact ⟨hproper, source, ((mem_unitReach hleft).1 hsource).2.to_reflTransGen, hmem⟩
  · rintro ⟨hproper, source, hpath, hmem⟩
    have hleft : left ∈ grammar.keys := by
      rcases ReflTransGen.cases_head hpath with rfl | ⟨target, hstep, -⟩
      · exact mem_keys_of_mem_alternatives hmem
      · exact mem_keys_of_mem_alternatives (mem_unitTargets.1 hstep).1
    refine ⟨hleft, ?_⟩
    by_cases heq : source = left
    · exact .inl ⟨heq ▸ hmem, hproper⟩
    · have htrans := (reflTransGen_iff_eq_or_transGen.1 hpath).resolve_left heq
      exact .inr ⟨source, (mem_unitReach hleft).2 ⟨heq, htrans⟩, hmem, hproper⟩

theorem Closed.removeUnits (h : grammar.Closed) : grammar.removeUnits.Closed := by
  intro left production hproduction symbol hsymbol hnonterminal
  obtain ⟨-, source, -, hmem⟩ := mem_alternatives_removeUnits.1 hproduction
  rw [keys_removeUnits]
  exact h source production hmem symbol hsymbol hnonterminal

/-! ### The words that remain -/

theorem generates_of_unitStep {source target : Symbol} (hsource : source.isNonterminal = true)
    (hstep : grammar.UnitStep source target) {word : List Symbol}
    (h : grammar.Generates target word) : grammar.Generates source word :=
  (generates_nonterminal_iff hsource).2 ⟨[target], (mem_unitTargets.1 hstep).1, h⟩

theorem isNonterminal_of_unitChain {source target : Symbol} (hsource : source.isNonterminal = true)
    (hpath : ReflTransGen grammar.UnitStep source target) : target.isNonterminal = true := by
  rcases ReflTransGen.cases_tail hpath with rfl | ⟨_, -, hlast⟩
  · exact hsource
  · exact (mem_unitTargets.1 hlast).2.1

theorem generates_of_unitChain {source target : Symbol} (hsource : source.isNonterminal = true)
    (hpath : ReflTransGen grammar.UnitStep source target) {word : List Symbol}
    (h : grammar.Generates target word) : grammar.Generates source word := by
  induction hpath with
  | refl => exact h
  | tail hpath hstep ih =>
      exact ih (generates_of_unitStep (isNonterminal_of_unitChain hsource hpath) hstep h)

theorem generates_removeUnits_iff {word : List Symbol} :
    grammar.removeUnits.Generates symbol word ↔ grammar.Generates symbol word := by
  constructor
  · apply Derives.simulate
    intro left production word hleft hproduction h
    obtain ⟨-, source, hpath, hmem⟩ := mem_alternatives_removeUnits.1 hproduction
    have hsource := isNonterminal_of_unitChain hleft hpath
    exact generates_of_unitChain hleft hpath
      ((generates_nonterminal_iff hsource).2 ⟨production, hmem, h⟩)
  · apply Derives.simulate
    intro left production word hleft hproduction h
    cases hunit : grammar.isUnit production with
    | false =>
        have hkept := mem_alternatives_removeUnits.2 ⟨hunit, left, .refl, hproduction⟩
        exact (generates_nonterminal_iff hleft).2 ⟨production, hkept, h⟩
    | true =>
        -- the target of a unit alternative hands its own alternatives down
        obtain ⟨target, hkey, htarget, rfl⟩ := isUnit_iff.1 hunit
        obtain ⟨inner, hinner, hderives⟩ := (generates_nonterminal_iff htarget).1 h
        obtain ⟨hproper, source, hpath, hmem⟩ := mem_alternatives_removeUnits.1 hinner
        have hstep : grammar.UnitStep left target := mem_unitTargets.2 ⟨hproduction, htarget, hkey⟩
        have hkept := mem_alternatives_removeUnits.2 ⟨hproper, source, .head hstep hpath, hmem⟩
        exact (generates_nonterminal_iff hleft).2 ⟨inner, hkept, hderives⟩

/-! ### The alternatives that remain -/

theorem get?_unitClosure (hleft : left ∈ grammar.keys) :
    grammar.unitClosure.get? left = some (grammar.unitReach left) := by
  rw [unitClosure, OrderedMap.get?_mapValues]
  cases hget : grammar.rules.get? left with
  | none => exact absurd hleft (OrderedMap.get?_eq_none_iff.1 hget)
  | some right => rfl

/-- What a symbol takes over comes after its own proper alternatives, each new one once. -/
theorem alternatives_removeUnits (hleft : left ∈ grammar.keys) :
    grammar.removeUnits.alternatives left =
      grammar.properAlternatives left ++
        (((grammar.unitReach left).flatMap grammar.properAlternatives).filter
          (· ∉ grammar.properAlternatives left)).eraseDups := by
  rw [removeUnits, alternatives_mapAlternatives _ hleft, addAllNew_eq]

theorem notMem_keys_of_mem_removeUnits
    (h : [symbol] ∈ grammar.removeUnits.alternatives left)
    (hnonterminal : symbol.isNonterminal = true) : symbol ∉ grammar.keys := by
  obtain ⟨hproper, -⟩ := mem_alternatives_removeUnits.1 h
  intro hkey
  have hunit : grammar.isUnit [symbol] = true := isUnit_iff.2 ⟨symbol, hkey, hnonterminal, rfl⟩
  rw [hproper] at hunit
  cases hunit

/-- **Unit elimination.** A production is a unit where it is a lone nonterminal that is defined.
Without units a grammar keeps its keys, its choice of a start symbol and the words of every symbol.
A key keeps its other alternatives in their order, and then come those of the symbols in its
closure, in the order of the closure and without repetition. -/
theorem removeUnits_exactly (grammar : Grammar) :
    (∀ production, grammar.isUnit production = true ↔
      ∃ target ∈ grammar.keys, target.isNonterminal = true ∧ production = [target]) ∧
    grammar.removeUnits.keys = grammar.keys ∧
    grammar.removeUnits.chosenStart = grammar.chosenStart ∧
    (∀ left target, [target] ∈ grammar.removeUnits.alternatives left →
      target.isNonterminal = true → target ∉ grammar.keys) ∧
    (∀ symbol word, grammar.removeUnits.Generates symbol word ↔ grammar.Generates symbol word) ∧
    ∀ key ∈ grammar.keys, ∃ reached, grammar.unitClosure.get? key = some reached ∧
      grammar.removeUnits.alternatives key =
        grammar.properAlternatives key ++
          ((reached.flatMap grammar.properAlternatives).filter
            (· ∉ grammar.properAlternatives key)).eraseDups :=
  ⟨fun _ => isUnit_iff, keys_removeUnits, chosenStart_removeUnits,
    fun _ _ => notMem_keys_of_mem_removeUnits, fun _ _ => generates_removeUnits_iff,
    fun _ hkey => ⟨_, get?_unitClosure hkey, alternatives_removeUnits hkey⟩⟩

/-- A cycle of units with a unit of a symbol to itself, an undefined symbol on its own, an epsilon
production, and an alternative that two symbols share. -/
def unitKnot : Grammar :=
  sampleGrammar [('S', ["S", "T", "X", "$"]), ('T', ["U", "a"]), ('U', ["S", "TT", "a"])]

theorem removeUnits_exactly_unitKnot :
    ⟨'S', rfl⟩ ∈ unitKnot.keys ∧
    [⟨'X', rfl⟩] ∈ unitKnot.removeUnits.alternatives ⟨'S', rfl⟩ ∧
    (⟨'X', rfl⟩ : Symbol).isNonterminal = true ∧ ⟨'X', rfl⟩ ∉ unitKnot.keys ∧
    unitKnot.unitClosure.get? ⟨'S', rfl⟩ = some [⟨'T', rfl⟩, ⟨'U', rfl⟩] ∧
    unitKnot.removeUnits.alternatives ⟨'S', rfl⟩ =
      [[⟨'X', rfl⟩], [], [⟨'a', rfl⟩], [⟨'T', rfl⟩, ⟨'T', rfl⟩]] ∧
    ∀ word, unitKnot.removeUnits.Generates ⟨'S', rfl⟩ word ↔
      unitKnot.Generates ⟨'S', rfl⟩ word := by
  obtain ⟨-, -, -, hunits, hwords, hright⟩ := removeUnits_exactly unitKnot
  have hkey : ⟨'S', rfl⟩ ∈ unitKnot.keys := by decide
  have hlone : [⟨'X', rfl⟩] ∈ unitKnot.removeUnits.alternatives ⟨'S', rfl⟩ := by decide +kernel
  have hclosure : unitKnot.unitClosure.get? ⟨'S', rfl⟩ = some [⟨'T', rfl⟩, ⟨'U', rfl⟩] := by
    decide +kernel
  obtain ⟨reached, hreached, halternatives⟩ := hright _ hkey
  cases hclosure.symm.trans hreached
  exact ⟨hkey, hlone, rfl, hunits _ _ hlone rfl, hclosure, halternatives.trans (by decide +kernel),
    hwords _⟩

end Grammar

end ChomskyForm
