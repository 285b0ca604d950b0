/-!
# Lists grown without repetition

`addNew` and `addAllNew` append only what is not there yet, so a list without repetition stays one
and what it held keeps its place.
-/

namespace ChomskyForm

variable {α : Type} [DecidableEq α]

/-- Appends an element unless the list already holds it. -/
def addNew (list : List α) (item : α) : List α :=
  if item ∈ list then list else list ++ [item]

/-- Appends, one after the other, the items that the list does not hold yet. -/
def addAllNew (list items : List α) : List α := items.foldl addNew list

@[simp]
theorem addAllNew_nil (list : List α) : addAllNew list [] = list := rfl

@[simp]
theorem addAllNew_cons (list items : List α) (item : α) :
    addAllNew list (item :: items) = addAllNew (addNew list item) items := rfl

theorem addAllNew_append (list items more : List α) :
    addAllNew list (items ++ more) = addAllNew (addAllNew list items) more :=
  List.foldl_append

@[simp]
theorem mem_addNew {list : List α} {item x : α} :
    x ∈ addNew list item ↔ x ∈ list ∨ x = item := by
  unfold addNew
  split <;> simp_all

@[simp]
theorem mem_addAllNew {list items : List α} {x : α} :
    x ∈ addAllNew list items ↔ x ∈ list ∨ x ∈ items := by
  induction items generalizing list with
  | nil => simp
  | cons item items ih => simp [ih, or_assoc]

theorem nodup_addNew {list : List α} (h : list.Nodup) (item : α) : (addNew list item).Nodup := by
  unfold addNew
  split
  · exact h
  · rename_i absent
    refine List.nodup_append.2 ⟨h, by simp, ?_⟩
    intro a ha b hb heq
    rw [List.mem_singleton.1 hb] at heq
    exact absent (heq ▸ ha)

theorem nodup_addAllNew {list : List α} (h : list.Nodup) (items : List α) :
    (addAllNew list items).Nodup := by
  induction items generalizing list with
  | nil => exact h
  | cons item items ih => exact ih (nodup_addNew h item)

theorem addAllNew_eq_self {list items : List α} (h : ∀ item ∈ items, item ∈ list) :
    addAllNew list items = list := by
  induction items with
  | nil => rfl
  | cons item items ih =>
      rw [List.forall_mem_cons] at h
      rw [addAllNew_cons, addNew, if_pos h.1, ih h.2]

/-- What is appended are the items that the list lacked, each where it occurs first. -/
theorem addAllNew_eq [BEq α] [LawfulBEq α] (list items : List α) :
    addAllNew list items = list ++ (items.filter fun item => item ∉ list).eraseDups := by
  induction items generalizing list with
  | nil => simp
  | cons item items ih =>
      rw [addAllNew_cons, addNew]
      split
      · rename_i hmem
        rw [ih, List.filter_cons_of_neg (by simpa using hmem)]
      · rename_i absent
        rw [ih, List.filter_cons_of_pos (by simpa using absent), List.eraseDups_cons,
          List.filter_filter, List.append_assoc, List.singleton_append]
        congr 3
        refine List.filter_congr fun other _ => ?_
        by_cases heq : other = item <;> simp [heq]

theorem addAllNew_nil_left [BEq α] [LawfulBEq α] (items : List α) :
    addAllNew [] items = items.eraseDups := by
  rw [addAllNew_eq, List.nil_append, List.filter_eq_self.2 (by simp)]

end ChomskyForm
