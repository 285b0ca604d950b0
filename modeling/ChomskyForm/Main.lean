import ChomskyForm.Command.Run

/-!
# The program

Runs the command on real files and the standard streams.
-/

namespace ChomskyForm

def FileFault.ofIOError : IO.Error → FileFault
  | .noFileOrDirectory .. => .notFound
  | .permissionDenied .. => .permissionDenied
  | .inappropriateType _ 21 _ => .isDirectory
  | .inappropriateType .. => .notDirectory
  | .invalidArgument _ 36 _ => .nameTooLong
  | error => .other (toString error)

/-- Reads standard input to its end, or to the end of the chunk that holds the ending line. -/
partial def readChunks (stream : IO.FS.Stream) (read : ByteArray) : IO ByteArray := do
  let chunk ← stream.read 4096
  let all := read ++ chunk
  let ended := (breakLines 10 13 all.data.toList).any fun line => (decode? line).any isEndLine
  if chunk.isEmpty || (ended && all.data.back? == some 10) then return all
  readChunks stream all

def standardInput : IO ByteArray := do
  let stream ← IO.getStdin
  if ← stream.isTty then
    IO.eprintln "Enter the grammar as `S -> aB | $` lines, then a line holding only `*`:"
  readChunks stream .empty

def attempt {α : Type} (action : IO α) : IO (Except FileFault α) := do
  return (← action.toBaseIO).mapError .ofIOError

def standardHost : Host IO where
  readFile path := attempt (IO.FS.readBinFile path)
  readInput := attempt standardInput
  writeFile path text := attempt (IO.FS.writeFile path text)
  print := IO.print

end ChomskyForm

open ChomskyForm in
def main (arguments : List String) : IO UInt32 := do
  match Options.ofArguments arguments with
  | .error fault =>
      IO.eprintln ("error: " ++ fault.message)
      return 2
  | .ok options =>
      match ← (Command.run standardHost options).run with
      | .ok () => return 0
      | .error failure =>
          IO.eprint failure.message
          return 1
