import CrudLang.CommandLine.Outcome

/-!
# The command

Answers the arguments by `CommandLine.respond`, with the files and the standard input of the
operating system.
-/

namespace CrudLang.CommandLine

/-- The cause of a failure to read, as far as it is known. -/
def readErrorOf : IO.Error → ReadError
  | .noFileOrDirectory .. => .notFound
  | .permissionDenied .. => .permissionDenied
  | .inappropriateType _ code _ => if code = 21 then .isADirectory else .notADirectory
  | .invalidArgument .. => .nameTooLong
  | e => .other (toString e)

/-- What an attempt to read gives. -/
def attempt (read : IO ByteArray) : IO Reading := do
  try
    return .ok (← read).toList
  catch e => return .error (readErrorOf e)

/-- Reads a file. -/
def readFile (path : String) : IO Reading :=
  attempt (IO.FS.readBinFile path)

/-- Reads a stream to its end, behind what was read so far. -/
partial def readToEnd (stream : IO.FS.Stream) (bytes : ByteArray) : IO ByteArray := do
  let more ← stream.read 65536
  if more.isEmpty then return bytes else readToEnd stream (bytes ++ more)

/-- Reads the standard input. -/
def readStdin : IO Reading :=
  attempt do readToEnd (← IO.getStdin) .empty

/-- Writes an answer, and gives its exit code. -/
def write (outcome : Outcome) : IO UInt32 := do
  (← IO.getStdout).putStr outcome.stdout
  (← IO.getStderr).putStr outcome.stderr
  return outcome.exitCode.toUInt32

end CrudLang.CommandLine

open CrudLang CommandLine in
/-- Answers the command with the given arguments. -/
def main (arguments : List String) : IO UInt32 := do
  write (← respond arguments readFile readStdin)
