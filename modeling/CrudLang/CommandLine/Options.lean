/-!
# Arguments of the command line

The command takes at most one file, two flags, and the request to explain a code. Arguments are read
from left to right, and the first one that settles the matter does so: a fault ends the reading, and
so does the request for the version or for help. Behind a double dash every argument is a file.
-/

namespace CrudLang.CommandLine

/-- What the arguments ask for. -/
structure Options where
  /-- The file to analyse; none for the standard input. -/
  file : Option String := none
  /-- Whether to list the symbols too. -/
  symbols : Bool := false
  /-- Whether to leave out colours. -/
  noColor : Bool := false
  /-- The code to explain, if one is asked for. -/
  explain : Option String := none
deriving DecidableEq, Repr

/-- What is wrong with the arguments. -/
inductive UsageError where
  /-- There is no such argument, or there is one file too many. -/
  | unexpected (argument : String)
  /-- The argument may be given only once. -/
  | repeated (argument : String)
  /-- The argument needs a value. -/
  | missingValue (argument : String)
  /-- The argument takes no value. -/
  | needlessValue (argument : String)
  /-- A file has no name. -/
  | emptyFile
deriving DecidableEq, Repr

namespace UsageError

/-- What is said about a fault in the arguments. -/
def message : UsageError → String
  | .unexpected argument => s!"error: unexpected argument '{argument}'"
  | .repeated argument => s!"error: '{argument}' is given more than once"
  | .missingValue argument => s!"error: '{argument}' needs a value"
  | .needlessValue argument => s!"error: '{argument}' takes no value"
  | .emptyFile => "error: a file needs a name"

end UsageError

/-- What the command is to do. -/
inductive Request where
  /-- Say which version this is. -/
  | version
  /-- Say which arguments there are. -/
  | help
  /-- Do what the options say. -/
  | run (options : Options)
deriving DecidableEq, Repr

/-- An argument that begins with a dash and is more than that is no value. -/
def isDashed (argument : String) : Bool :=
  argument.startsWith "-" && argument ≠ "-"

/-- An argument's name and the value that is attached to it behind an equals sign. -/
def splitAttached (argument : String) : String × Option String :=
  let chars := argument.toList
  let name := String.ofList (chars.takeWhile (· ≠ '='))
  match chars.dropWhile (· ≠ '=') with
  | [] => (name, none)
  | _ :: value => (name, some (String.ofList value))

namespace Options

/-- Takes a file. -/
def addFile (options : Options) (path : String) : Except UsageError Options :=
  if path = "" then .error .emptyFile
  else if options.file.isSome then .error (.unexpected path)
  else .ok { options with file := some path }

/-- Takes the code to explain. -/
def addExplain (options : Options) (code : String) : Except UsageError Options :=
  if options.explain.isSome then .error (.repeated "--explain")
  else .ok { options with explain := some code }

/-- Takes an argument that stands for itself. -/
def addFlag (options : Options) (name : String) : Except UsageError Options :=
  if name = "--symbols" then
    if options.symbols then .error (.repeated name) else .ok { options with symbols := true }
  else if name = "--no-color" then
    if options.noColor then .error (.repeated name) else .ok { options with noColor := true }
  else .error (.unexpected name)

/-- Whether an argument is known and takes no value. -/
def isFlag (name : String) : Bool :=
  ["--symbols", "--no-color", "--version", "--help"].contains name

end Options

/-- Reads arguments, given the options so far. -/
def readArguments (options : Options) : List String → Except UsageError Request
  | [] => .ok (.run options)
  | argument :: rest =>
    if argument = "--" then .run <$> rest.foldlM Options.addFile options
    else if argument.startsWith "--" then
      match splitAttached argument with
      | (name, some value) =>
        if name = "--explain" then do
          readArguments (← options.addExplain value) rest
        else if Options.isFlag name then .error (.needlessValue name)
        else .error (.unexpected name)
      | (name, none) =>
        if name = "--explain" then
          match rest with
          | [] => .error (.missingValue name)
          | value :: rest' =>
            if isDashed value then .error (.missingValue name)
            else do readArguments (← options.addExplain value) rest'
        else if name = "--version" then .ok .version
        else if name = "--help" then .ok .help
        else do readArguments (← options.addFlag name) rest
    else if isDashed argument then
      match (argument.toList.drop 1).head? with
      | some 'V' => .ok .version
      | some 'h' => .ok .help
      | _ => .error (.unexpected argument)
    else do
      readArguments (← options.addFile argument) rest

end CrudLang.CommandLine
