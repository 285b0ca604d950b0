/-!
# Sets as ascending lists

A finite set of ordered elements is the strictly ascending list of them. `union` merges two such
lists.
-/

namespace ChomskyForm

variable {α : Type} [LT α] [DecidableLT α]

/-- Merges two ascending lists and keeps one copy of an element of both. -/
def union : List α → List α → List α
  | [], second => second
  | first, [] => first
  | x :: first, y :: second =>
      if x < y then x :: union first (y :: second)
      else if y < x then y :: union (x :: first) second
      else x :: union first second
termination_by first second => first.length + second.length

/-- The elements of a list, each once and in ascending order. -/
def ascending (list : List α) : List α := list.foldr (fun item => union [item]) []

end ChomskyForm
