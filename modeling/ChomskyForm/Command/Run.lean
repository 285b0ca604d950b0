import ChomskyForm.Command.Input
import ChomskyForm.Command.Options
import ChomskyForm.Command.Report

/-!
# The command

The command reads a grammar text, prints warnings and results, and may write the converted grammar
to a file. It reaches files and standard streams through a `Host` only.
-/

namespace ChomskyForm

/-- Why a file could not be read or written. -/
inductive FileFault
  | notFound
  | permissionDenied
  | notDirectory
  | isDirectory
  | nameTooLong
  | other (message : String)
deriving DecidableEq

def FileFault.message : FileFault → String
  | notFound => "No such file or directory (os error 2)"
  | permissionDenied => "Permission denied (os error 13)"
  | notDirectory => "Not a directory (os error 20)"
  | isDirectory => "Is a directory (os error 21)"
  | nameTooLong => "File name too long (os error 36)"
  | other message => message

/-- What the command asks of its surroundings. -/
structure Host (m : Type → Type) where
  readFile : String → m (Except FileFault ByteArray)
  readInput : m (Except FileFault ByteArray)
  writeFile : String → String → m (Except FileFault Unit)
  print : String → m Unit

/-- What the command was about when it failed, and the cause. -/
structure Failure where
  context : String
  cause : String
deriving DecidableEq

def Failure.message (failure : Failure) : String :=
  "Error: " ++ failure.context ++ "\n\nCaused by:\n    " ++ failure.cause ++ "\n"

namespace Command

variable {m : Type → Type} [Monad m]

/-- The text that the bytes hold, unless reading them failed or they are no text. -/
def sourceText (context : String) (decode : List UInt8 → Option (List Char))
    (outcome : Except FileFault ByteArray) : Except Failure (List Char) :=
  match outcome with
  | .error fault => .error ⟨context, fault.message⟩
  | .ok bytes =>
      match decode bytes.data.toList with
      | none => .error ⟨context, "stream did not contain valid UTF-8"⟩
      | some text => .ok text

def readSource (host : Host m) : Option String → ExceptT Failure m (List Char)
  | some path => do
      ExceptT.mk (return sourceText ("failed to read " ++ path) decode? (← host.readFile path))
  | none => do
      ExceptT.mk
        (return sourceText "failed to read the grammar from stdin" decodeInput? (← host.readInput))

def convertSource (grammar : Grammar) (keepEmptyStart : Bool) : Except Failure Stages :=
  (grammar.convert keepEmptyStart).mapError fun fault =>
    ⟨"failed to convert the grammar into Chomsky Normal Form", fault.message⟩

def writeResult (host : Host m) (path text : String) : ExceptT Failure m Unit :=
  ExceptT.mk do
    return (← host.writeFile path text).mapError fun fault =>
      ⟨"failed to write the grammar to " ++ path, fault.message⟩

/-- Reads, converts, reports and writes; what was printed before a failure stays printed. -/
def run (host : Host m) (options : Options) : ExceptT Failure m Unit := do
  let text ← readSource host options.input
  let reading := Reading.ofText text
  host.print (Report.warnings reading)
  let stages ← ExceptT.mk (pure (convertSource reading.grammar options.keepEmptyStart))
  if options.steps then host.print (Report.stages stages)
  host.print (Report.verdicts stages.binary options.words)
  match options.output with
  | some path => writeResult host path stages.binary.render
  | none => unless options.steps do host.print stages.binary.render

end Command

end ChomskyForm
