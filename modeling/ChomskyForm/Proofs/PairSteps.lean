import ChomskyForm.Grammar.Samples
import ChomskyForm.Proofs.Complete
import ChomskyForm.Proofs.Unique
import Mathlib.Algebra.BigOperators.Group.List.Basic
import Mathlib.Logic.Relation

/-!
# Binarization pair by pair

A long alternative can be shortened by one symbol at a time: a free letter names its last two
symbols and takes their place. Each such step lowers the excess by one, so no sequence of steps goes
on forever, and a sequence that can go no further has used up the letters or the excess.
Binarization is one of these sequences.

A step moves two symbols to an alternative of their own and puts one letter where they were. So each
letter stands in one place of the outcome, and writing for the letters what they name, the last one
first, undoes the steps.
-/

namespace ChomskyForm.Grammar

open Relation

variable {grammar middle next grown result last : Grammar} {left fresh letter symbol : Symbol}
  {letters : List Symbol} {production short : Production}
  {productions shorts before after : List Production}

/-- Some long alternative gives up its last two symbols to a free letter that takes their place. -/
inductive Splits (grammar : Grammar) : Grammar → Prop
  | pair {left fresh first second : Symbol} {rest : List Symbol} {start : Production}
      {before after : List Production}
      (isAlternative : grammar.alternatives left = before ++ (start ++ [first, second]) :: after)
      (isLong : start ≠ []) (isFree : grammar.free = fresh :: rest) :
      Splits grammar ((grammar.addRule fresh [[first, second]]).setAlternatives left
        (before ++ (start ++ [fresh]) :: after))

/-! ### One step -/

theorem excess_perm {first second : List Production} (h : first.Perm second) :
    excess first = excess second :=
  (h.map _).sum_eq

theorem excess_pos_iff :
    0 < excess productions ↔ ∃ production ∈ productions, 2 < production.length := by
  induction productions with
  | nil => simp [excess]
  | cons production productions ih =>
      rw [excess_cons, List.exists_mem_cons_iff, ← ih]
      omega

theorem exists_eq_append_pair (h : 2 < production.length) :
    ∃ start first second, start ≠ [] ∧ production = start ++ [first, second] := by
  have hlast : (production.drop (production.length - 2)).length = 2 := by
    rw [List.length_drop]
    omega
  obtain ⟨first, second, hpair⟩ := List.length_eq_two.1 hlast
  refine ⟨production.take (production.length - 2), first, second, ?_, ?_⟩
  · refine List.ne_nil_of_length_pos ?_
    rw [List.length_take]
    omega
  · rw [← hpair, List.take_append_drop]

theorem perm_rightSides (hleft : left ∈ grammar.keys) :
    grammar.rightSides.Perm
      (grammar.alternatives left ++ (grammar.keys.erase left).flatMap grammar.alternatives) := by
  rw [rightSides_eq]
  exact (List.perm_cons_erase hleft).flatMap_right grammar.alternatives

/-- What a step does: the letter is the first free one, it gets the pair as its only alternative,
one alternative ends in the letter where it ended in the pair, and all else stays. -/
structure SplitOff (grammar : Grammar) (left letter first second : Symbol) (start : Production)
    (before after : List Production) (next : Grammar) : Prop extends Grows grammar 1 next where
  isLong : start ≠ []
  free_eq : ∃ rest, grammar.free = letter :: rest
  alternatives_eq : grammar.alternatives left = before ++ (start ++ [first, second]) :: after
  alternatives_left : next.alternatives left = before ++ (start ++ [letter]) :: after
  alternatives_letter : next.alternatives letter = [[first, second]]
  kept : ∀ other ∈ grammar.keys, other ≠ left →
    next.alternatives other = grammar.alternatives other

theorem Splits.splitOff (h : Splits grammar next) :
    ∃ left letter first second start before after,
      SplitOff grammar left letter first second start before after next := by
  obtain ⟨isAlternative, isLong, isFree⟩ := h
  rename_i left letter first second rest start before after
  have hmem : start ++ [first, second] ∈ grammar.alternatives left := by
    rw [isAlternative]
    exact List.mem_append_right _ List.mem_cons_self
  have hleft := mem_keys_of_mem_alternatives hmem
  have habsent : letter ∉ grammar.keys := (mem_free.1 (isFree ▸ List.mem_cons_self)).2
  have hadd := Extends.addRule isFree [[first, second]]
  have hset :=
    Shortens.setAlternatives (hadd.mem_keys hleft) (before ++ (start ++ [letter]) :: after)
  refine ⟨left, letter, first, second, start, before, after, hadd.toGrows.trans hset.toGrows,
    isLong, ⟨rest, isFree⟩, isAlternative, ?_, ?_, fun other hother hne => ?_⟩
  · rw [alternatives_setAlternatives, if_pos rfl]
  · have hne : letter ≠ left := fun heq => habsent (heq ▸ hleft)
    rw [alternatives_setAlternatives, if_neg hne, alternatives_addRule_self habsent]
    rfl
  · rw [alternatives_setAlternatives, if_neg hne, hadd.alternatives_eq other hother]

namespace SplitOff

variable {first second : Symbol} {start : Production}

theorem mem_alternatives (h : SplitOff grammar left letter first second start before after next) :
    start ++ [first, second] ∈ grammar.alternatives left := by
  rw [h.alternatives_eq]
  exact List.mem_append_right _ List.mem_cons_self

theorem mem_keys (h : SplitOff grammar left letter first second start before after next) :
    left ∈ grammar.keys :=
  mem_keys_of_mem_alternatives h.mem_alternatives

theorem notMem_keys (h : SplitOff grammar left letter first second start before after next) :
    letter ∉ grammar.keys := by
  obtain ⟨rest, hfree⟩ := h.free_eq
  exact (mem_free.1 (hfree ▸ List.mem_cons_self)).2

theorem keys_next (h : SplitOff grammar left letter first second start before after next) :
    next.keys = grammar.keys ++ [letter] := by
  obtain ⟨rest, hfree⟩ := h.free_eq
  rw [h.keys_eq, hfree]
  rfl

/-- Up to order, a step replaces one right side by two. -/
theorem exists_perm (h : SplitOff grammar left letter first second start before after next) :
    ∃ others, grammar.rightSides.Perm ((start ++ [first, second]) :: others) ∧
      next.rightSides.Perm ((start ++ [letter]) :: [first, second] :: others) := by
  have hrest : ∀ other ∈ grammar.keys.erase left,
      next.alternatives other = grammar.alternatives other := by
    intro other hother
    obtain ⟨hne, hmem⟩ := (grammar.nodup_keys.mem_erase_iff).1 hother
    exact h.kept other hmem hne
  have herase : next.keys.erase left = grammar.keys.erase left ++ [letter] := by
    rw [h.keys_next, List.erase_append_left _ h.mem_keys]
  refine ⟨before ++ after ++ (grammar.keys.erase left).flatMap grammar.alternatives,
    (perm_rightSides h.mem_keys).trans ?_,
    (perm_rightSides (h.toGrows.mem_keys h.mem_keys)).trans ?_⟩
  · rw [h.alternatives_eq]
    exact List.perm_middle.append_right _
  · rw [h.alternatives_left, herase, List.flatMap_append, List.flatMap_congr hrest,
      List.flatMap_singleton, h.alternatives_letter, ← List.append_assoc]
    refine List.perm_append_singleton .. |>.trans ?_
    refine (List.perm_middle.append_right _).cons _ |>.trans ?_
    exact List.Perm.swap ..

theorem excess_next (h : SplitOff grammar left letter first second start before after next) :
    excess next.rightSides + 1 = excess grammar.rightSides := by
  obtain ⟨others, hgrammar, hnext⟩ := h.exists_perm
  have hlong := List.length_pos_iff.2 h.isLong
  rw [excess_perm hgrammar, excess_perm hnext]
  simp only [excess_cons, List.length_append, List.length_cons, List.length_nil]
  omega

theorem count_next (h : SplitOff grammar left letter first second start before after next)
    (symbol : Symbol) :
    next.rightSides.flatten.count symbol =
      grammar.rightSides.flatten.count symbol + [letter].count symbol := by
  obtain ⟨others, hgrammar, hnext⟩ := h.exists_perm
  rw [hgrammar.flatten.count_eq, hnext.flatten.count_eq]
  simp only [List.flatten_cons, List.count_append]
  omega

end SplitOff

/-- A step is possible where there is a letter for it and something to shorten. -/
theorem exists_splits_iff :
    (∃ next, Splits grammar next) ↔
      grammar.free ≠ [] ∧ ∃ production ∈ grammar.rightSides, 2 < production.length := by
  constructor
  · rintro ⟨next, hnext⟩
    obtain ⟨left, letter, first, second, start, before, after, h⟩ := hnext.splitOff
    obtain ⟨others, hgrammar, -⟩ := h.exists_perm
    obtain ⟨rest, hfree⟩ := h.free_eq
    refine ⟨hfree ▸ List.cons_ne_nil _ _, start ++ [first, second],
      hgrammar.mem_iff.2 List.mem_cons_self, ?_⟩
    have hlong := List.length_pos_iff.2 h.isLong
    rw [List.length_append, List.length_cons, List.length_singleton]
    omega
  · rintro ⟨hfree, production, hproduction, hlong⟩
    obtain ⟨fresh, rest, hfree⟩ := List.exists_cons_of_ne_nil hfree
    obtain ⟨left, hleft⟩ := mem_rightSides.1 hproduction
    obtain ⟨before, after, halternatives⟩ := List.append_of_mem hleft
    obtain ⟨start, first, second, hstart, rfl⟩ := exists_eq_append_pair hlong
    exact ⟨_, .pair halternatives hstart hfree⟩

/-- No sequence of steps goes on forever. -/
theorem wellFounded_splits : WellFounded fun next grammar : Grammar => Splits grammar next := by
  refine Subrelation.wf (fun hsplits => ?_) (measure fun grammar => excess grammar.rightSides).wf
  obtain ⟨left, letter, first, second, start, before, after, h⟩ := hsplits.splitOff
  exact Nat.lt_of_succ_le (Nat.le_of_eq h.excess_next)

/-! ### What letters stand for -/

/-- Writes for a letter what its alternative says. -/
def unfoldLetter (grammar : Grammar) (letter : Symbol) (form : List Symbol) : List Symbol :=
  form.flatMap fun symbol =>
    if symbol = letter then (grammar.alternatives letter).flatten else [symbol]

/-- Writes for the letters what their alternatives say, the last letter first. -/
def unfoldLetters (grammar : Grammar) (letters form : List Symbol) : List Symbol :=
  letters.foldr grammar.unfoldLetter form

theorem unfoldLetter_of_notMem {form : List Symbol} (h : letter ∉ form) :
    grammar.unfoldLetter letter form = form := by
  have hkept : ∀ symbol ∈ form,
      (if symbol = letter then (grammar.alternatives letter).flatten else [symbol]) = [symbol] := by
    intro symbol hsymbol
    have hne : symbol ≠ letter := fun heq => h (heq ▸ hsymbol)
    exact if_neg hne
  rw [unfoldLetter, List.flatMap_congr hkept]
  exact List.flatMap_singleton' form

theorem map_unfoldLetter_of_notMem (h : ∀ production ∈ productions, letter ∉ production) :
    productions.map (grammar.unfoldLetter letter) = productions := by
  calc productions.map (grammar.unfoldLetter letter)
    _ = productions.map id := List.map_congr_left fun production hproduction =>
        unfoldLetter_of_notMem (h production hproduction)
    _ = productions := List.map_id productions

theorem unfoldLetters_congr
    (h : ∀ letter ∈ letters, next.alternatives letter = grammar.alternatives letter) :
    next.unfoldLetters letters = grammar.unfoldLetters letters := by
  funext form
  induction letters with
  | nil => rfl
  | cons letter letters ih =>
      obtain ⟨hletter, hletters⟩ := List.forall_mem_cons.1 h
      rw [unfoldLetters, unfoldLetters, List.foldr_cons, List.foldr_cons]
      rw [unfoldLetters, unfoldLetters] at ih
      rw [ih hletters, unfoldLetter, unfoldLetter, hletter]

namespace SplitOff

variable {first second : Symbol} {start : Production}

theorem unfoldLetter_concat
    (h : SplitOff grammar left letter first second start before after next)
    (hstart : letter ∉ start) :
    next.unfoldLetter letter (start ++ [letter]) = start ++ [first, second] := by
  have hletter : next.unfoldLetter letter [letter] = [first, second] := by
    rw [unfoldLetter, List.flatMap_singleton, if_pos rfl, h.alternatives_letter]
    rfl
  calc next.unfoldLetter letter (start ++ [letter])
    _ = next.unfoldLetter letter start ++ next.unfoldLetter letter [letter] := List.flatMap_append
    _ = start ++ [first, second] := by rw [unfoldLetter_of_notMem hstart, hletter]

/-- Writing the pair for its letter undoes a step. -/
theorem map_unfoldLetter (h : SplitOff grammar left letter first second start before after next)
    (hunused : ∀ production ∈ grammar.rightSides, letter ∉ production) {other : Symbol}
    (hother : other ∈ grammar.keys) :
    (next.alternatives other).map (next.unfoldLetter letter) = grammar.alternatives other := by
  have hkept : ∀ production ∈ grammar.alternatives other, letter ∉ production :=
    fun production hproduction => hunused production (mem_rightSides.2 ⟨other, hproduction⟩)
  by_cases heq : other = left
  · subst heq
    rw [h.alternatives_eq, List.forall_mem_append, List.forall_mem_cons] at hkept
    obtain ⟨hbefore, hlong, hafter⟩ := hkept
    have hstart : letter ∉ start := fun hmem => hlong (List.mem_append_left _ hmem)
    rw [h.alternatives_left, h.alternatives_eq, List.map_append, List.map_cons,
      h.unfoldLetter_concat hstart, map_unfoldLetter_of_notMem hbefore,
      map_unfoldLetter_of_notMem hafter]
  · rw [h.kept other hother heq]
    exact map_unfoldLetter_of_notMem hkept

end SplitOff

/-! ### Many steps -/

/-- What any number of steps does: each takes the next letter and a symbol off the excess, gives
the letter a pair, and puts it in one place, so that it can be undone. -/
structure Splitting (grammar : Grammar) (count : Nat) (result : Grammar) : Prop
    extends Grows grammar count result where
  excess_eq : excess result.rightSides + count = excess grammar.rightSides
  named : ∀ letter ∈ grammar.free.take count, ∃ first second,
    result.alternatives letter = [[first, second]]
  count_eq : ∀ symbol, result.rightSides.flatten.count symbol =
    grammar.rightSides.flatten.count symbol + (grammar.free.take count).count symbol
  restored : grammar.Closed → ∀ left ∈ grammar.keys,
    (result.alternatives left).map (result.unfoldLetters (grammar.free.take count)) =
      grammar.alternatives left

theorem Splitting.refl (grammar : Grammar) : Splitting grammar 0 grammar where
  toGrows := .of_keys_eq rfl rfl
  excess_eq := rfl
  named := by simp
  count_eq := by simp
  restored := fun _ _ _ => List.map_id _

theorem Splitting.unused {count : Nat} (h : Splitting grammar count middle)
    (hclosed : grammar.Closed) (hnonterminal : letter.isNonterminal = true)
    (habsent : letter ∉ middle.keys) : ∀ production ∈ middle.rightSides, letter ∉ production := by
  have hgrammar : letter ∉ grammar.rightSides.flatten := by
    intro hmem
    obtain ⟨production, hproduction, hletter⟩ := List.mem_flatten.1 hmem
    obtain ⟨left, hleft⟩ := mem_rightSides.1 hproduction
    exact habsent (h.toGrows.mem_keys (hclosed left production hleft letter hletter hnonterminal))
  have htaken : letter ∉ grammar.free.take count := by
    intro hmem
    rw [h.keys_eq] at habsent
    exact habsent (List.mem_append_right _ hmem)
  have hcount := h.count_eq letter
  rw [List.count_eq_zero.2 hgrammar, List.count_eq_zero.2 htaken, List.count_eq_zero] at hcount
  exact fun production hproduction hletter =>
    hcount (List.mem_flatten.2 ⟨production, hproduction, hletter⟩)

/-- The next step takes the next letter. -/
theorem Splitting.take_succ {count : Nat} {first second : Symbol} {start : Production}
    (h : Splitting grammar count middle)
    (hstep : SplitOff middle left letter first second start before after next) :
    grammar.free.take (count + 1) = grammar.free.take count ++ [letter] := by
  have hkeys := (h.toGrows.trans hstep.toGrows).keys_eq
  rw [hstep.keys_next, h.keys_eq, List.append_assoc] at hkeys
  exact (List.append_cancel_left hkeys).symm

/-- The next step leaves the pairs of the letters alone, as they are too short to be split. -/
theorem Splitting.kept_letters {count : Nat} {first second : Symbol} {start : Production}
    (h : Splitting grammar count middle)
    (hstep : SplitOff middle left letter first second start before after next) :
    ∀ other ∈ grammar.free.take count, next.alternatives other = middle.alternatives other := by
  intro other hother
  obtain ⟨x, y, hpair⟩ := h.named other hother
  apply hstep.kept other
  · rw [h.keys_eq]
    exact List.mem_append_right _ hother
  · rintro rfl
    have hlength := congrArg List.length (List.mem_singleton.1 (hpair ▸ hstep.mem_alternatives))
    have hlong := List.length_pos_iff.2 hstep.isLong
    simp only [List.length_append, List.length_cons, List.length_nil] at hlength
    omega

theorem Splitting.step {count : Nat} (h : Splitting grammar count middle)
    (hsplits : Splits middle next) : Splitting grammar (count + 1) next := by
  obtain ⟨left, letter, first, second, start, before, after, hstep⟩ := hsplits.splitOff
  have htake := h.take_succ hstep
  have hkept := h.kept_letters hstep
  refine ⟨h.toGrows.trans hstep.toGrows, ?_, fun other hother => ?_, fun symbol => ?_,
    fun hclosed other hother => ?_⟩
  · rw [← h.excess_eq, ← hstep.excess_next]
    omega
  · rw [htake, List.mem_append, List.mem_singleton] at hother
    rcases hother with hother | rfl
    · rw [hkept other hother]
      exact h.named other hother
    · exact ⟨first, second, hstep.alternatives_letter⟩
  · rw [hstep.count_next, h.count_eq, htake, List.count_append, Nat.add_assoc]
  · obtain ⟨rest, hfree⟩ := hstep.free_eq
    have hnonterminal := (mem_free.1 (hfree ▸ List.mem_cons_self)).1
    have hunused := h.unused hclosed hnonterminal hstep.notMem_keys
    have hunfold : next.unfoldLetters (grammar.free.take (count + 1)) =
        middle.unfoldLetters (grammar.free.take count) ∘ next.unfoldLetter letter := by
      rw [htake, ← unfoldLetters_congr hkept]
      funext form
      exact List.foldr_append
    rw [hunfold, ← List.map_map, hstep.map_unfoldLetter hunused (h.toGrows.mem_keys hother)]
    exact h.restored hclosed other hother

theorem exists_splitting (h : ReflTransGen Splits grammar result) :
    ∃ count, Splitting grammar count result := by
  induction h with
  | refl => exact ⟨0, .refl grammar⟩
  | tail _ hsplits ih =>
      obtain ⟨count, hsplitting⟩ := ih
      exact ⟨count + 1, hsplitting.step hsplits⟩

/-- A sequence of steps that can go no further leaves a long alternative where the letters do not
cover the excess, and nowhere else. -/
theorem exists_long_iff_of_stuck (h : ReflTransGen Splits grammar last)
    (hstuck : ∀ next, ¬Splits last next) :
    (∃ production ∈ last.rightSides, 2 < production.length) ↔
      grammar.free.length < excess grammar.rightSides := by
  obtain ⟨count, hsplitting⟩ := exists_splitting h
  have hexcess := hsplitting.excess_eq
  have hle := hsplitting.count_le
  have hfree : last.free.length = grammar.free.length - count := by
    rw [hsplitting.free_eq, List.length_drop]
  have hnext : ¬∃ next, Splits last next := fun ⟨next, hnext⟩ => hstuck next hnext
  constructor
  · intro hlong
    have hnil : last.free.length = 0 := by
      rw [exists_splits_iff, not_and_or, not_not] at hnext
      rw [hnext.resolve_right (not_not.2 hlong)]
      rfl
    have hpos := excess_pos_iff.2 hlong
    omega
  · intro hlt
    exact excess_pos_iff.1 (by omega)

/-! ### Binarization is one of the sequences -/

theorem eq_of_alternatives_eq (hkeys : next.keys = grammar.keys)
    (halternatives : ∀ left, next.alternatives left = grammar.alternatives left)
    (hstart : next.chosenStart = grammar.chosenStart) : next = grammar := by
  have hrules : next.rules = grammar.rules := by
    refine OrderedMap.ext ?_
    rw [entries_eq, entries_eq, hkeys]
    exact List.map_congr_left fun left _ => by rw [halternatives]
  cases next
  cases grammar
  rw [Grammar.mk.injEq]
  exact ⟨hrules, hstart⟩

/-- What is set twice may as well be set the second time only, whatever was defined in between. -/
theorem setAlternatives_addRule (hleft : left ∈ grammar.keys) (hfresh : fresh ∉ grammar.keys) :
    ((grammar.setAlternatives left shorts).addRule fresh productions).setAlternatives left before =
      (grammar.addRule fresh productions).setAlternatives left before := by
  have hkeys : (grammar.setAlternatives left shorts).keys = grammar.keys := by
    rw [keys_setAlternatives, if_pos hleft]
  have hadded : (((grammar.setAlternatives left shorts).addRule fresh productions)).keys =
      (grammar.addRule fresh productions).keys := by
    rw [keys_addRule, keys_addRule, hkeys]
  refine eq_of_alternatives_eq ?_ (fun other => ?_) rfl
  · rw [keys_setAlternatives, keys_setAlternatives, hadded]
  · rw [alternatives_setAlternatives, alternatives_setAlternatives]
    by_cases heq : other = left
    · rw [if_pos heq, if_pos heq]
    · have hne : fresh ≠ left := fun hsame => hfresh (hsame ▸ hleft)
      rw [if_neg heq, if_neg heq, alternatives_addRule, alternatives_addRule,
        alternatives_setAlternatives, alternatives_setAlternatives, if_neg hne, if_neg heq]

theorem free_setAlternatives (hleft : left ∈ grammar.keys) (right : List Production) :
    (grammar.setAlternatives left right).free = grammar.free := by
  rw [free, free, keys_setAlternatives, if_pos hleft]

/-- Shortening from the first symbol on takes the last pair first. -/
theorem shorten_append_pair (grammar : Grammar) {start : Production} (hstart : start ≠ [])
    (first second : Symbol) :
    grammar.shorten (start ++ [first, second]) =
      (grammar.introduce [[first, second]]).bind fun (fresh, extended) =>
        extended.shorten (start ++ [fresh]) := by
  induction start with
  | nil => exact absurd rfl hstart
  | cons symbol start ih =>
      have hlong : 2 ≤ (start ++ [first, second]).length := by simp
      rw [List.cons_append, shorten_cons symbol hlong]
      by_cases hnil : start = []
      · subst hnil
        have hshort : ([first, second] : Production).length ≤ 2 := Nat.le_refl 2
        rw [List.nil_append, shorten_short hshort]
        simp only [Except.bind]
        cases grammar.introduce [[first, second]] <;> rfl
      · rw [ih hnil]
        cases grammar.introduce [[first, second]] with
        | error fault => rfl
        | ok introduced =>
            obtain ⟨fresh, extended⟩ := introduced
            have hrest : 2 ≤ (start ++ [fresh]).length := by
              have := List.length_pos_iff.2 hnil
              rw [List.length_append, List.length_singleton]
              omega
            exact (shorten_cons symbol hrest).symm

theorem splits_of_shorten (hleft : left ∈ grammar.keys)
    (h : grammar.shorten production = .ok (short, grown)) :
    ReflTransGen Splits (grammar.setAlternatives left (before ++ production :: after))
      (grown.setAlternatives left (before ++ short :: after)) := by
  induction hlength : production.length generalizing grammar production with
  | zero =>
      rw [shorten_short (by omega)] at h
      cases h
      exact .refl
  | succ length ih =>
      by_cases hlong : 2 < production.length
      · obtain ⟨start, first, second, hstart, rfl⟩ := exists_eq_append_pair hlong
        rw [shorten_append_pair grammar hstart] at h
        obtain ⟨⟨fresh, extended⟩, hintroduce, h⟩ := exists_ok_of_bind h
        obtain ⟨rest, hfree, rfl⟩ := exists_free_of_introduce hintroduce
        have habsent : fresh ∉ grammar.keys := (mem_free.1 (hfree ▸ List.mem_cons_self)).2
        have hset : (grammar.setAlternatives left
            (before ++ (start ++ [first, second]) :: after)).alternatives left =
              before ++ (start ++ [first, second]) :: after := by
          rw [alternatives_setAlternatives, if_pos rfl]
        have hstep := Splits.pair hset hstart ((free_setAlternatives hleft _).trans hfree)
        rw [setAlternatives_addRule hleft habsent] at hstep
        refine .head hstep (ih ((Extends.addRule hfree _).mem_keys hleft) h ?_)
        rw [List.length_append] at hlength ⊢
        exact Nat.succ.inj hlength
      · rw [shorten_short (Nat.le_of_not_lt hlong)] at h
        cases h
        exact .refl

theorem splits_of_shortenEach (hleft : left ∈ grammar.keys)
    (h : grammar.shortenEach productions = .ok (shorts, grown)) (before : List Production) :
    ReflTransGen Splits (grammar.setAlternatives left (before ++ productions))
      (grown.setAlternatives left (before ++ shorts)) := by
  induction productions generalizing grammar shorts before with
  | nil =>
      cases h
      exact .refl
  | cons production productions ih =>
      obtain ⟨⟨short, extended⟩, hshort, h⟩ := exists_ok_of_bind h
      obtain ⟨⟨others, last⟩, hrest, h⟩ := exists_ok_of_bind h
      cases h
      have hfirst : ReflTransGen Splits
          (grammar.setAlternatives left (before ++ production :: productions))
          (extended.setAlternatives left (before ++ short :: productions)) :=
        splits_of_shorten hleft hshort
      have hmany := ih ((shortens_of_shorten hshort).1.mem_keys hleft) hrest (before ++ [short])
      rw [List.append_assoc, List.append_assoc] at hmany
      exact hfirst.trans hmany

theorem splits_of_shortenRules {rules : List (Symbol × List Production)}
    (hrules : ∀ rule ∈ rules, rule.1 ∈ grammar.keys ∧ grammar.alternatives rule.1 = rule.2)
    (hnodup : (rules.map Prod.fst).Nodup) (h : grammar.shortenRules rules = .ok result) :
    ReflTransGen Splits grammar result := by
  induction rules generalizing grammar with
  | nil =>
      cases h
      exact .refl
  | cons rule rules ih =>
      obtain ⟨left, right⟩ := rule
      have hkeys : ∀ other ∈ ((left, right) :: rules).map Prod.fst, other ∈ grammar.keys := by
        intro other hother
        obtain ⟨rule, hrule, rfl⟩ := List.mem_map.1 hother
        exact (hrules rule hrule).1
      obtain ⟨hleft, hright⟩ := hrules (left, right) List.mem_cons_self
      obtain ⟨shorts, extended, hshorts, hfirst, hrest, -⟩ :=
        exists_of_shortenRules_cons hkeys hnodup h
      obtain ⟨habsent, hnodup⟩ := List.nodup_cons.1 hnodup
      have hsame : grammar.setAlternatives left right = grammar := by
        apply setAlternatives_eq_self
        rw [entries_eq]
        exact List.mem_map.2 ⟨left, hleft, Prod.ext rfl hright⟩
      have hwalk := splits_of_shortenEach hleft hshorts []
      rw [List.nil_append, List.nil_append, hsame] at hwalk
      refine hwalk.trans (ih (fun rule hrule => ?_) hnodup hrest)
      obtain ⟨hkey, halternatives⟩ := hrules rule (List.mem_cons_of_mem _ hrule)
      have hne : rule.1 ∉ [left] := fun hmem =>
        habsent (List.mem_map.2 ⟨rule, hrule, List.mem_singleton.1 hmem⟩)
      exact ⟨hfirst.mem_keys hkey, (hfirst.kept rule.1 hkey hne).trans halternatives⟩

theorem splits_of_binarize (h : grammar.binarize = .ok result) :
    ReflTransGen Splits grammar result := by
  refine splits_of_shortenRules (fun rule hrule => ?_) grammar.nodup_keys h
  exact ⟨List.mem_map.2 ⟨rule, hrule, rfl⟩, alternatives_of_mem_entries hrule⟩

/-! ### The outcome -/

theorem Unfolds.eq_of_length_le {old : List Symbol} (h : grammar.Unfolds old short production)
    (hshort : production.length ≤ 2) : short = production := by
  cases h with
  | short => rfl
  | chain _ _ _ _ isLong =>
      rw [List.length_cons] at hshort
      omega

/-- Binarization goes as many steps as there are symbols too many. -/
theorem splitting_of_binarize (h : grammar.binarize = .ok result) :
    Splitting grammar (excess grammar.rightSides) result := by
  obtain ⟨count, hsplitting⟩ := exists_splitting (splits_of_binarize h)
  have hcount := hsplitting.toGrows.length_keys
  rw [(binarization_of_ok h).toGrows.length_keys] at hcount
  rwa [Nat.add_left_cancel hcount]

theorem length_le_two_of_binarize (h : grammar.binarize = .ok result) :
    ∀ production ∈ result.rightSides, production.length ≤ 2 := by
  have hexcess := (splitting_of_binarize h).excess_eq
  intro production hproduction
  by_contra hlong
  have hpos := excess_pos_iff.2 ⟨production, hproduction, Nat.lt_of_not_le hlong⟩
  omega

theorem count_letter_of_binarize (hclosed : grammar.Closed) (h : grammar.binarize = .ok result)
    (hletter : letter ∈ grammar.free.take (excess grammar.rightSides)) :
    result.rightSides.flatten.count letter = 1 := by
  obtain ⟨hnonterminal, habsent⟩ := mem_free.1 (List.mem_of_mem_take hletter)
  have hunused := (Splitting.refl grammar).unused hclosed hnonterminal habsent
  have hnone : grammar.rightSides.flatten.count letter = 0 := by
    refine List.count_eq_zero.2 fun hmem => ?_
    obtain ⟨production, hproduction, hused⟩ := List.mem_flatten.1 hmem
    exact hunused production hproduction hused
  rw [(splitting_of_binarize h).count_eq, hnone, Nat.zero_add]
  exact List.count_eq_one_of_mem (grammar.nodup_free.sublist (List.take_sublist _ _)) hletter

/-- **Binarization.** Splitting off pairs comes to an end, and it ends with a long alternative left
just where binarization fails, for want of letters. Otherwise the outcome has the letters that the
excess costs as new keys at the end. No alternative is longer than two, and those that were not stay
in place. Each letter has one alternative, a pair, and stands in one place, and writing the pairs
for the letters gives the alternatives as they were. -/
theorem binarize_splits_exactly (hclosed : grammar.Closed) :
    Acc (fun next middle : Grammar => Splits middle next) grammar ∧
    (∀ last, ReflTransGen Splits grammar last → (∀ next, ¬Splits last next) →
      ((∃ production ∈ last.rightSides, 2 < production.length) ↔
        grammar.binarize = .error .poolExhausted)) ∧
    (grammar.binarize = .error .poolExhausted ↔
      grammar.free.length < excess grammar.rightSides) ∧
    (excess grammar.rightSides ≤ grammar.free.length →
      ∃ result letters, grammar.binarize = .ok result ∧ ReflTransGen Splits grammar result ∧
        letters = grammar.free.take (excess grammar.rightSides) ∧
        letters.length = excess grammar.rightSides ∧
        result.keys = grammar.keys ++ letters ∧ result.chosenStart = grammar.chosenStart ∧
        (∀ production ∈ result.rightSides, production.length ≤ 2) ∧
        (∀ left ∈ grammar.keys, List.Forall₂ (fun after before : Production =>
          before.length ≤ 2 → after = before)
          (result.alternatives left) (grammar.alternatives left)) ∧
        (∀ letter ∈ letters, (∃ first second, result.alternatives letter = [[first, second]]) ∧
          result.rightSides.flatten.count letter = 1) ∧
        ∀ left ∈ grammar.keys,
          (result.alternatives left).map (result.unfoldLetters letters) =
            grammar.alternatives left) := by
  have hfails : grammar.binarize = .error .poolExhausted ↔
      grammar.free.length < excess grammar.rightSides := by
    refine ⟨fun herror => Nat.lt_of_not_le fun hle => ?_, binarize_of_lt⟩
    obtain ⟨result, hok, -⟩ := binarize_of_le hle
    rw [herror] at hok
    cases hok
  refine ⟨wellFounded_splits.apply grammar, fun last hlast hstuck => ?_, hfails, fun hle => ?_⟩
  · exact (exists_long_iff_of_stuck hlast hstuck).trans hfails.symm
  · obtain ⟨result, hok, hbinarization⟩ := binarize_of_le hle
    have hsplitting := splitting_of_binarize hok
    refine ⟨result, _, hok, splits_of_binarize hok, rfl, ?_, hsplitting.keys_eq,
      hsplitting.chosenStart_eq, length_le_two_of_binarize hok, fun left hleft => ?_,
      fun letter hletter => ⟨hsplitting.named letter hletter, ?_⟩, hsplitting.restored hclosed⟩
    · rw [List.length_take, Nat.min_eq_left hle]
    · exact (hbinarization.unfolds left hleft).imp fun _ _ hunfolds => hunfolds.eq_of_length_le
    · exact count_letter_of_binarize hclosed hok hletter

/-- Long alternatives of two symbols, two of them of the same one. -/
def longChains : Grammar := sampleGrammar [('S', ["SSSS", "SSS", "s"]), ('T', ["STSTS", "ST"])]

theorem binarize_splits_exactly_longChains :
    longChains.Closed ∧ excess longChains.rightSides = 6 ∧ 6 ≤ longChains.free.length ∧
    ∃ result, longChains.binarize = .ok result ∧
      result.keys.map Symbol.char = ['S', 'T', 'A', 'B', 'C', 'D', 'E', 'F'] ∧
      result.alternatives ⟨'S', rfl⟩ = [⟨'S', rfl⟩, ⟨'B', rfl⟩] :: [⟨'S', rfl⟩, ⟨'C', rfl⟩] ::
        [[⟨'s', rfl⟩]] ∧
      ReflTransGen Splits longChains result ∧
      ∀ left ∈ longChains.keys, (result.alternatives left).map
          (result.unfoldLetters (longChains.free.take (excess longChains.rightSides))) =
        longChains.alternatives left := by
  have hclosed : longChains.Closed := closed_iff_find?_eq_none.2 (by decide)
  have hexcess : excess longChains.rightSides = 6 := by decide +kernel
  have hroom : 6 ≤ longChains.free.length := by decide +kernel
  have hshape : longChains.binarize.toOption.map
        (fun result => (result.keys.map Symbol.char, result.alternatives ⟨'S', rfl⟩)) =
      some (['S', 'T', 'A', 'B', 'C', 'D', 'E', 'F'], [⟨'S', rfl⟩, ⟨'B', rfl⟩] ::
        [⟨'S', rfl⟩, ⟨'C', rfl⟩] :: [[⟨'s', rfl⟩]]) := by
    decide +kernel
  obtain ⟨-, -, -, hfits⟩ := binarize_splits_exactly hclosed
  obtain ⟨result, letters, hok, hsteps, rfl, -, -, -, -, -, -, hrestored⟩ := hfits (hexcess ▸ hroom)
  rw [hok] at hshape
  obtain ⟨hkeys, hright⟩ := Prod.mk.inj (Option.some.inj hshape)
  exact ⟨hclosed, hexcess, hroom, result, hok, hkeys, hright, hsteps, hrestored⟩

end ChomskyForm.Grammar
