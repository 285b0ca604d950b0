import ChomskyForm.Symbol
import ChomskyForm.Words
import Mathlib.Data.List.Shortlex
import Mathlib.Data.List.Sort

/-!
# Sets of words

Merging two ascending lists gives the ascending list of the elements of both. Concatenation drops
the words that are too long and lists each of the others once, in whatever ways it comes about.

All words over an alphabet come layer by layer. A layer holds the words of one length in ascending
order, and to put each letter behind each of its words gives the next layer: which of two words is
the smaller is decided before the last letter, or else by it.
-/

namespace ChomskyForm

section Union

variable {α : Type} [LT α] [DecidableLT α] [Std.Trichotomous (fun x y : α => x < y)]
  {first second : List α}

@[simp]
theorem mem_union {x : α} : x ∈ union first second ↔ x ∈ first ∨ x ∈ second := by
  fun_induction union first second with
  | case1 => simp
  | case2 => simp
  | case3 y first z second _ ih =>
      rw [List.mem_cons, ih, List.mem_cons (a := x) (b := y), or_assoc]
  | case4 y first z second _ _ ih =>
      rw [List.mem_cons, ih, List.mem_cons (a := x) (b := z), or_left_comm]
  | case5 y first z second hyz hzy ih =>
      have heq : y = z := Std.Trichotomous.trichotomous y z hyz hzy
      subst heq
      rw [List.mem_cons, ih, List.mem_cons, List.mem_cons, or_or_distrib_left]

theorem pairwise_union [Trans (fun x y : α => x < y) (fun x y : α => x < y) fun x y : α => x < y]
    (hfirst : first.Pairwise (· < ·)) (hsecond : second.Pairwise (· < ·)) :
    (union first second).Pairwise (· < ·) := by
  fun_induction union first second with
  | case1 => exact hsecond
  | case2 => exact hfirst
  | case3 y first z second hyz ih =>
      obtain ⟨hy, hrest⟩ := List.pairwise_cons.1 hfirst
      refine List.pairwise_cons.2 ⟨fun x hx => ?_, ih hrest hsecond⟩
      rcases mem_union.1 hx with hx | hx
      · exact hy x hx
      · rcases List.mem_cons.1 hx with rfl | hx
        · exact hyz
        · exact Trans.trans hyz (List.rel_of_pairwise_cons hsecond hx)
  | case4 y first z second _ hzy ih =>
      obtain ⟨hz, hrest⟩ := List.pairwise_cons.1 hsecond
      refine List.pairwise_cons.2 ⟨fun x hx => ?_, ih hfirst hrest⟩
      rcases mem_union.1 hx with hx | hx
      · rcases List.mem_cons.1 hx with rfl | hx
        · exact hzy
        · exact Trans.trans hzy (List.rel_of_pairwise_cons hfirst hx)
      · exact hz x hx
  | case5 y first z second hyz hzy ih =>
      have heq : y = z := Std.Trichotomous.trichotomous y z hyz hzy
      subst heq
      obtain ⟨hy, hrest⟩ := List.pairwise_cons.1 hfirst
      obtain ⟨hy', hrest'⟩ := List.pairwise_cons.1 hsecond
      refine List.pairwise_cons.2 ⟨fun x hx => ?_, ih hrest hrest'⟩
      exact (mem_union.1 hx).elim (hy x) (hy' x)

/-- Merging with a set that is contained changes nothing. -/
theorem union_eq_right [Std.Asymm (fun x y : α => x < y)]
    [Trans (fun x y : α => x < y) (fun x y : α => x < y) fun x y : α => x < y]
    (hfirst : first.Pairwise (· < ·)) (hsecond : second.Pairwise (· < ·))
    (h : first ⊆ second) : union first second = second := by
  refine (pairwise_union hfirst hsecond).eq_of_mem_iff hsecond fun x => ?_
  rw [mem_union]
  exact or_iff_right_of_imp fun hx => h hx

end Union

section Ascending

variable {α : Type} [LT α] [DecidableLT α] [Std.Trichotomous (fun x y : α => x < y)]

theorem mem_ascending {list : List α} {x : α} : x ∈ ascending list ↔ x ∈ list := by
  induction list with
  | nil => rfl
  | cons item list ih =>
      have hstep : ascending (item :: list) = union [item] (ascending list) := rfl
      rw [hstep, mem_union, ih, List.mem_singleton, List.mem_cons]

theorem pairwise_ascending
    [Trans (fun x y : α => x < y) (fun x y : α => x < y) fun x y : α => x < y] (list : List α) :
    (ascending list).Pairwise (· < ·) := by
  induction list with
  | nil => exact .nil
  | cons item list ih => exact pairwise_union (List.pairwise_singleton _ _) ih

end Ascending

section Concatenations

variable {α : Type} [LT α] [DecidableLT α] [DecidableEq α] [Std.Asymm (fun x y : α => x < y)]
  [Std.Trichotomous (fun x y : α => x < y)] {bound : Nat} {starts finishes : List (List α)}

theorem mem_concatenations {word : List α} :
    word ∈ concatenations bound starts finishes ↔
      word.length ≤ bound ∧ ∃ start ∈ starts, ∃ finish ∈ finishes, start ++ finish = word := by
  induction starts with
  | nil => simp [concatenations]
  | cons start starts ih =>
      have hstep : concatenations bound (start :: starts) finishes =
          union ((finishes.filter fun finish => start.length + finish.length ≤ bound).map
            (start ++ ·)) (concatenations bound starts finishes) := rfl
      rw [hstep, mem_union, ih, List.mem_map]
      simp only [List.mem_filter, decide_eq_true_iff, List.mem_cons, exists_eq_or_imp,
        and_or_left]
      refine or_congr_left ?_
      constructor
      · rintro ⟨finish, ⟨hfinish, hlength⟩, rfl⟩
        exact ⟨List.length_append ▸ hlength, finish, hfinish, rfl⟩
      · rintro ⟨hlength, finish, hfinish, rfl⟩
        exact ⟨finish, ⟨hfinish, List.length_append ▸ hlength⟩, rfl⟩

theorem pairwise_concatenations
    [Trans (fun x y : α => x < y) (fun x y : α => x < y) fun x y : α => x < y]
    (h : finishes.Pairwise (· < ·)) : (concatenations bound starts finishes).Pairwise (· < ·) := by
  induction starts with
  | nil => exact .nil
  | cons start starts ih =>
      refine pairwise_union (List.Pairwise.map _ (fun _ _ hlt => ?_) (h.filter _)) ih
      exact List.append_left_lt hlt

end Concatenations

/-! ### All words over an alphabet -/

section AllWords

variable {α : Type} {alphabet : List α} {words : List (List α)} {length count : Nat}

/-- Between words of one length the order is decided before either ends, so it survives what is
appended to them. -/
theorem lex_append_append {r : α → α → Prop} {start other : List α} (h : List.Lex r start other)
    (hlength : start.length = other.length) (finish ending : List α) :
    List.Lex r (start ++ finish) (other ++ ending) := by
  induction h with
  | nil => cases hlength
  | rel hlt => exact .rel hlt
  | cons _ ih => exact .cons (ih (Nat.succ.inj hlength))

theorem mem_extendWords {word : List α} :
    word ∈ extendWords alphabet words ↔
      ∃ start ∈ words, ∃ letter ∈ alphabet, start ++ [letter] = word := by
  simp only [extendWords, List.mem_flatMap, List.mem_map]

/-- Words of one length in ascending order. -/
structure Layer [LT α] (length : Nat) (words : List (List α)) : Prop where
  length_eq : ∀ word ∈ words, word.length = length
  pairwise : words.Pairwise (List.Lex (· < ·))

theorem Layer.extend [LT α] (h : Layer length words) (halphabet : alphabet.Pairwise (· < ·)) :
    Layer (length + 1) (extendWords alphabet words) where
  length_eq := by
    intro word hword
    obtain ⟨start, hstart, letter, -, rfl⟩ := mem_extendWords.1 hword
    rw [List.length_append, h.length_eq start hstart, List.length_singleton]
  pairwise := by
    refine List.pairwise_flatMap.2 ⟨fun start _ => ?_, ?_⟩
    · rw [List.pairwise_map]
      apply halphabet.imp
      intro letter other hlt
      exact List.Lex.append_left _ (.rel hlt) start
    · apply h.pairwise.imp_of_mem
      intro start other hstart hother hlex word hword word' hword'
      obtain ⟨letter, -, rfl⟩ := List.mem_map.1 hword
      obtain ⟨letter', -, rfl⟩ := List.mem_map.1 hword'
      have hlength := (h.length_eq start hstart).trans (h.length_eq other hother).symm
      exact lex_append_append hlex hlength [letter] [letter']

theorem longerWords_nil : longerWords alphabet count [] = [] := by
  cases count <;> rfl

/-- To stop at an empty layer leaves nothing out. -/
theorem longerWords_succ :
    longerWords alphabet (count + 1) words =
      extendWords alphabet words ++ longerWords alphabet count (extendWords alphabet words) := by
  rw [longerWords]
  by_cases hempty : extendWords alphabet words = []
  · simp only [hempty, List.isEmpty_nil, if_true, longerWords_nil, List.append_nil]
  · simp only [List.isEmpty_iff, hempty, if_false]

theorem mem_longerWords {word : List α} :
    word ∈ longerWords alphabet count words ↔
      ∃ start ∈ words, ∃ finish, 1 ≤ finish.length ∧ finish.length ≤ count ∧
        (∀ letter ∈ finish, letter ∈ alphabet) ∧ start ++ finish = word := by
  induction count generalizing words with
  | zero =>
      refine iff_of_false List.not_mem_nil ?_
      rintro ⟨start, -, finish, hpos, hle, -⟩
      omega
  | succ count ih =>
      rw [longerWords_succ, List.mem_append, ih]
      constructor
      · rintro (hword | ⟨start, hstart, finish, -, hle, hfinish, rfl⟩)
        · obtain ⟨start, hstart, letter, hletter, rfl⟩ := mem_extendWords.1 hword
          exact ⟨start, hstart, [letter], Nat.le_refl 1, Nat.le_add_left 1 count,
            List.forall_mem_singleton.2 hletter, rfl⟩
        · obtain ⟨first, hfirst, letter, hletter, rfl⟩ := mem_extendWords.1 hstart
          refine ⟨first, hfirst, letter :: finish, Nat.le_add_left 1 _, Nat.succ_le_succ hle,
            List.forall_mem_cons.2 ⟨hletter, hfinish⟩, ?_⟩
          rw [List.append_assoc, List.singleton_append]
      · rintro ⟨start, hstart, finish, hpos, hle, hfinish, rfl⟩
        cases finish with
        | nil => cases hpos
        | cons letter finish =>
            rw [List.forall_mem_cons] at hfinish
            have hextended := mem_extendWords.2 ⟨start, hstart, letter, hfinish.1, rfl⟩
            cases finish with
            | nil => exact .inl hextended
            | cons next finish =>
                refine .inr ⟨_, hextended, next :: finish, Nat.le_add_left 1 _,
                  Nat.le_of_succ_le_succ hle, hfinish.2, ?_⟩
                rw [List.append_assoc, List.singleton_append]

theorem Layer.pairwise_longerWords [LT α] (h : Layer length words)
    (halphabet : alphabet.Pairwise (· < ·)) :
    (longerWords alphabet count words).Pairwise (List.Shortlex (· < ·)) := by
  induction count generalizing length words with
  | zero => exact .nil
  | succ count ih =>
      have hextended := h.extend halphabet
      rw [longerWords_succ, List.pairwise_append]
      refine ⟨?_, ih hextended, fun word hword longer hlonger => ?_⟩
      · apply hextended.pairwise.imp_of_mem
        intro word other hword hother hlex
        exact .of_lex
          ((hextended.length_eq word hword).trans (hextended.length_eq other hother).symm) hlex
      · obtain ⟨start, hstart, finish, hpos, -, -, rfl⟩ := mem_longerWords.1 hlonger
        apply List.Shortlex.of_length_lt
        rw [hextended.length_eq word hword, List.length_append, hextended.length_eq start hstart]
        omega

theorem layer_nil [LT α] : Layer 0 ([[]] : List (List α)) where
  length_eq := by simp
  pairwise := List.pairwise_singleton _ _

/-- **All words over an alphabet.** The words up to a length over the letters of a set are listed,
the empty one excepted, each once: shorter words first and those of one length in the order of the
letters. Without letters, or up to the length zero, there are none. -/
theorem allWords_exactly (letters : List Char) (maxLength : Nat) :
    (∀ word, word ∈ allWords letters maxLength ↔
      1 ≤ word.length ∧ word.length ≤ maxLength ∧ ∀ letter ∈ word, letter ∈ letters) ∧
    (allWords letters maxLength).Nodup ∧
    (allWords letters maxLength).Pairwise (List.Shortlex (· < ·)) ∧
    allWords ([] : List Char) maxLength = [] ∧ allWords letters 0 = [] := by
  have hsorted : (allWords letters maxLength).Pairwise (List.Shortlex (· < ·)) :=
    layer_nil.pairwise_longerWords (pairwise_ascending letters)
  refine ⟨fun word => ?_, hsorted.nodup, hsorted, ?_, rfl⟩
  · rw [allWords, mem_longerWords]
    simp only [List.mem_singleton, exists_eq_left, List.nil_append, mem_ascending]
    constructor
    · rintro ⟨finish, hpos, hle, hletters, rfl⟩
      exact ⟨hpos, hle, hletters⟩
    · rintro ⟨hpos, hle, hletters⟩
      exact ⟨word, hpos, hle, hletters, rfl⟩
  · cases maxLength <;> rfl

example : (allWords ['b', 'a', 'b'] 2).map String.ofList = ["a", "b", "aa", "ab", "ba", "bb"] := by
  decide +kernel

end AllWords

/-! ### The order of symbols -/

instance : Std.Trichotomous (fun x y : Symbol => x < y) where
  trichotomous _ _ hxy hyx :=
    Symbol.ext (Std.Trichotomous.trichotomous (r := fun c d : Char => c < d) _ _ hxy hyx)

instance : Std.Asymm (fun x y : Symbol => x < y) where
  asymm _ _ := Char.lt_asymm

instance : Trans (fun x y : Symbol => x < y) (fun x y : Symbol => x < y)
    fun x y : Symbol => x < y where
  trans := Char.lt_trans

end ChomskyForm
