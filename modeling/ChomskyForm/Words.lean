import ChomskyForm.Ascending

/-!
# Words

Lists of words over an alphabet, by length, and bounded concatenation of sets of words.
-/

namespace ChomskyForm

variable {α : Type}

/-- Every word of the list with every letter of the alphabet after it, in the order of both. -/
def extendWords (alphabet : List α) (words : List (List α)) : List (List α) :=
  words.flatMap fun word => alphabet.map fun letter => word ++ [letter]

/-- The words that are up to `count` letters longer than those of a list, shorter words first. Once
there are none, there are no longer ones either. -/
def longerWords (alphabet : List α) : Nat → List (List α) → List (List α)
  | 0, _ => []
  | count + 1, words =>
      let extended := extendWords alphabet words
      if extended.isEmpty then [] else extended ++ longerWords alphabet count extended

/-- The non-empty words up to a length over the letters of a list, shorter words first. -/
def allWords [LT α] [DecidableLT α] (letters : List α) (maxLength : Nat) : List (List α) :=
  longerWords (ascending letters) maxLength [[]]

/-- The words `start ++ finish` that are not longer than the bound. -/
def concatenations [LT α] [DecidableLT α] [DecidableEq α] (bound : Nat)
    (starts finishes : List (List α)) : List (List α) :=
  starts.foldr
    (fun start =>
      let length := start.length
      union <| (finishes.filter fun finish => length + finish.length ≤ bound).map (start ++ ·))
    []

end ChomskyForm
