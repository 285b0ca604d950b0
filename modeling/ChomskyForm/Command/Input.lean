import ChomskyForm.Text.Blank
import ChomskyForm.Text.Lines

/-!
# Grammar texts as bytes

A file is a text only as a whole. Standard input is taken line by line, up to a line that is `*`
between blanks, so bytes after that line need not be a text.
-/

namespace ChomskyForm

def decode? (bytes : List UInt8) : Option (List Char) :=
  (String.fromUTF8? ⟨bytes.toArray⟩).map String.toList

/-- The mark on a line of its own that ends the input. -/
def isEndLine (line : List Char) : Bool := trim line = ['*']

/-- The lines before the ending line, each followed by a newline, unless one cannot be decoded. -/
def decodeLines? : List (List UInt8) → Option (List Char)
  | [] => some []
  | bytes :: rest => do
      let line ← decode? bytes
      if isEndLine line then return []
      return line ++ '\n' :: (← decodeLines? rest)

def decodeInput? (bytes : List UInt8) : Option (List Char) := decodeLines? (breakLines 10 13 bytes)

end ChomskyForm
