import ChomskyForm.Grammar.Basic
import ChomskyForm.Text.Line
import ChomskyForm.Text.Lines

/-!
# Grammar texts

A grammar text is read line by line up to the ending mark. A line that cannot be read is reported
with its number and skipped, and every other rule line adds to the grammar.
-/

namespace ChomskyForm

/-- A skipped line, counted from one. -/
structure LineError where
  line : Nat
  fault : LineFault
deriving DecidableEq

def LineError.message (error : LineError) : String :=
  "line " ++ toString error.line ++ ": " ++ error.fault.message

/-- The grammar of the lines that could be read, and the errors of the others. -/
structure Reading where
  grammar : Grammar
  errors : List LineError
deriving DecidableEq

namespace Reading

/-- Adds the lines, the first of which has the given number, to a grammar. -/
def ofLines (number : Nat) (grammar : Grammar) : List (List Char) → Reading
  | [] => ⟨grammar, []⟩
  | text :: rest =>
      match Line.read text with
      | .ok .blank => ofLines (number + 1) grammar rest
      | .ok .ending => ⟨grammar, []⟩
      | .ok (.rule left alternatives) =>
          ofLines (number + 1) (grammar.addRule left alternatives) rest
      | .error fault =>
          let later := ofLines (number + 1) grammar rest
          { later with errors := ⟨number, fault⟩ :: later.errors }

def ofText (text : List Char) : Reading := ofLines 1 {} (lines text)

end Reading

end ChomskyForm
