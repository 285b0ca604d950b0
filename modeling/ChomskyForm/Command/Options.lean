/-!
# Command-line options

    [INPUT] [--steps] [--keep-empty-start] [-o FILE | --output FILE] [--check WORD]...

The value of an option is attached to it, after `=` if the option is a long one, or it is the next
argument. Everything after a lone `--` is an input path.
-/

namespace ChomskyForm

structure Options where
  input : Option String := none
  steps : Bool := false
  keepEmptyStart : Bool := false
  output : Option String := none
  words : List String := []
deriving DecidableEq

inductive UsageError
  | unexpectedArgument (argument : String)
  | unexpectedValue (option : String)
  | missingValue (option : String)
  | repeated (option : String)
deriving DecidableEq

def UsageError.message : UsageError → String
  | unexpectedArgument argument => "unexpected argument '" ++ argument ++ "'"
  | unexpectedValue option => "the option '" ++ option ++ "' takes no value"
  | missingValue option => "the option '" ++ option ++ "' needs a value"
  | repeated option => "the option '" ++ option ++ "' was given more than once"

/-- What one argument, or an option with its value, asks for. -/
inductive Setting
  | input (path : String)
  | steps
  | keepEmptyStart
  | output (path : String)
  | check (word : String)
deriving DecidableEq

namespace Setting

/-- The form of a single argument. -/
inductive Shape
  | separator
  | long (name : List Char) (value : Option (List Char))
  | short (letter : Char) (value : Option (List Char))
  | plain (text : List Char)
deriving DecidableEq

def Shape.ofArgument : List Char → Shape
  | ['-', '-'] => .separator
  | '-' :: '-' :: rest =>
      let value := if '=' ∈ rest then some (rest.dropWhile (· ≠ '=')).tail else none
      .long (rest.takeWhile (· ≠ '=')) value
  | ['-', letter] => .short letter none
  | '-' :: letter :: '=' :: value => .short letter (some value)
  | '-' :: letter :: value => .short letter (some value)
  | text => .plain text

/-- A path is not empty. -/
def path (option : String) (text : List Char) : Except UsageError String :=
  if text = [] then .error (.missingValue option) else .ok (String.ofList text)

/-- A long option, with its value if it has one at hand. -/
def ofLong (name : List Char) (value : Option (List Char)) : Except UsageError Setting :=
  match String.ofList name, value with
  | "steps", none => .ok .steps
  | "keep-empty-start", none => .ok .keepEmptyStart
  | "steps", some _ => .error (.unexpectedValue "--steps")
  | "keep-empty-start", some _ => .error (.unexpectedValue "--keep-empty-start")
  | "output", some text => output <$> path "--output" text
  | "output", none => .error (.missingValue "--output")
  | "check", some text => .ok (.check (String.ofList text))
  | "check", none => .error (.missingValue "--check")
  | _, _ => .error (.unexpectedArgument (String.ofList ('-' :: '-' :: name)))

def ofShort (letter : Char) (value : Option (List Char)) : Except UsageError Setting :=
  if letter = 'o' then output <$> path "-o" (value.getD [])
  else .error (.unexpectedArgument (String.ofList ['-', letter]))

/-- An option whose value is the next argument, which must not look like an option itself. -/
def ofPair (option value : List Char) : Option (Except UsageError Setting) :=
  match Shape.ofArgument value with
  | .plain text =>
      match Shape.ofArgument option with
      | .long ['o', 'u', 't', 'p', 'u', 't'] none => some (output <$> path "--output" text)
      | .long ['c', 'h', 'e', 'c', 'k'] none => some (.ok (.check (String.ofList text)))
      | .short 'o' none => some (output <$> path "-o" text)
      | _ => none
  | _ => none

def ofSingle (argument : List Char) : Except UsageError Setting :=
  match Shape.ofArgument argument with
  | .separator => .error (.unexpectedArgument "--")
  | .long name value => ofLong name value
  | .short letter value => ofShort letter value
  | .plain text => input <$> path "INPUT" text

/-- Reads the arguments from left to right. -/
def ofArguments : List (List Char) → Except UsageError (List Setting)
  | [] => .ok []
  | [argument] => if argument = ['-', '-'] then .ok [] else return [← ofSingle argument]
  | argument :: value :: rest =>
      if argument = ['-', '-'] then (value :: rest).mapM fun text => input <$> path "INPUT" text
      else
        match ofPair argument value with
        | some setting => return (← setting) :: (← ofArguments rest)
        | none => return (← ofSingle argument) :: (← ofArguments (value :: rest))

end Setting

namespace Options

/-- Only words to check may be asked for more than once. -/
def add (options : Options) : Setting → Except UsageError Options
  | .input path =>
      if options.input = none then .ok { options with input := some path }
      else .error (.unexpectedArgument path)
  | .steps =>
      if options.steps then .error (.repeated "--steps") else .ok { options with steps := true }
  | .keepEmptyStart =>
      if options.keepEmptyStart then .error (.repeated "--keep-empty-start")
      else .ok { options with keepEmptyStart := true }
  | .output path =>
      if options.output = none then .ok { options with output := some path }
      else .error (.repeated "--output")
  | .check word => .ok { options with words := options.words ++ [word] }

def ofArguments (arguments : List String) : Except UsageError Options := do
  (← Setting.ofArguments (arguments.map String.toList)).foldlM add {}

end Options

end ChomskyForm
