/-!
# Lines

A line ends at a newline, and a carriage return right before the newline belongs to the ending. What
follows the last newline is a line of its own unless it is empty.
-/

namespace ChomskyForm

variable {α : Type} [DecidableEq α]

/-- The lines of a sequence of characters or bytes, without their endings. -/
def breakLines (newline carriageReturn : α) : List α → List (List α)
  | [] => []
  | c :: rest =>
      if c = newline then [] :: breakLines newline carriageReturn rest
      else if c = carriageReturn ∧ rest.head? = some newline then
        breakLines newline carriageReturn rest
      else
        match breakLines newline carriageReturn rest with
        | [] => [[c]]
        | line :: more =>
            (c :: line) :: more

def lines (text : List Char) : List (List Char) := breakLines '\n' '\r' text

end ChomskyForm
