import ChomskyForm.Command.Run
import ChomskyForm.OrderedMap

/-!
# Running the command on a directory in memory

A directory of files, the bytes of standard input and what has been printed make a host on which the
command runs without touching real files. A path is followed part by part. It may leave the
directory; outside of it nothing is found, and what is written there is not kept.
-/

namespace ChomskyForm

/-- A directory without subdirectories, the input that waits and the output so far. -/
structure Directory where
  files : OrderedMap String ByteArray := .empty
  input : ByteArray := .empty
  printed : String := ""

namespace Directory

/-- A directory that a path passes: the given one, or any other. -/
inductive Place
  | inside
  | outside

/-- What a path leads to: a directory, or a name in one, followed by slashes or not. -/
inductive Target
  | directory
  | entry (place : Place) (name : String) (slashed : Bool)

def longestPath : Nat := 4095

def longestName : Nat := 255

/-- The file of a name, which may be too long to be looked up. -/
def find? (directory : Directory) (place : Place) (name : String) :
    Except FileFault (Option ByteArray) :=
  if longestName < name.utf8ByteSize then .error .nameTooLong
  else match place with
    | .inside => .ok (directory.files.get? name)
    | .outside => .ok none

/-- Follows the parts of a path. Empty parts and dots stay, two dots lead outside, and no other name
has anything behind it, as all that can be found are files. -/
def follow (directory : Directory) (place : Place) : List String → Except FileFault Target
  | [] => .ok .directory
  | name :: rest =>
      if name = "" ∨ name = "." then directory.follow place rest
      else if name = ".." then directory.follow .outside rest
      else if rest.all (· = "") then .ok (.entry place name !rest.isEmpty)
      else do
        match ← directory.find? place name with
        | some _ => .error .notDirectory
        | none => .error .notFound

/-- A path that starts with a slash starts outside. -/
def target (directory : Directory) (path : String) : Except FileFault Target :=
  if longestPath < path.utf8ByteSize then .error .nameTooLong
  else directory.follow (if path.startsWith "/" then .outside else .inside) (path.splitOn "/")

/-- Slashes after the name ask for a directory, which a file is not. -/
def read (directory : Directory) (path : String) : Except FileFault ByteArray := do
  match ← directory.target path with
  | .directory => .error .isDirectory
  | .entry place name slashed =>
      match ← directory.find? place name with
      | none => .error .notFound
      | some bytes => if slashed then .error .notDirectory else .ok bytes

/-- Slashes after the name announce a directory, which is refused before the name is looked up. -/
def write (directory : Directory) (path text : String) : Except FileFault Directory := do
  match ← directory.target path with
  | .directory | .entry _ _ true => .error .isDirectory
  | .entry place name false =>
      let _ ← directory.find? place name
      match place with
      | .inside => .ok { directory with files := directory.files.insert name text.toUTF8 }
      | .outside => .ok directory

def host : Host (StateM Directory) where
  readFile path := return (← get).read path
  readInput := return .ok (← get).input
  writeFile path text := do
    match (← get).write path text with
    | .ok directory => set directory; return .ok ()
    | .error fault => return .error fault
  print text := modify fun directory => { directory with printed := directory.printed ++ text }

/-- The failure of the command, if any, and the directory that it leaves behind. -/
def runCommand (directory : Directory) (options : Options) : Except Failure Unit × Directory :=
  (Command.run host options).run.run directory

end Directory

end ChomskyForm
