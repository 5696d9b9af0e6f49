import CrudLang.Text.Quoted

/-!
# Reading files

Reading gives bytes, or the reason why there are none (`Reading`). Which files there are and what
can be read of them is not for this library to say: whatever reads a file takes the reading of files
as a parameter. `Directory.read` is one such reading, of a few files that are held in memory: empty
parts of a path and single dots stay where they are, and what lies outside the working directory is
known to be a directory and no more.
-/

namespace CrudLang

/-- Why a file or a stream cannot be read. -/
inductive ReadError where
  /-- The operating system refuses, with a number, the kind of the cause and a message. -/
  | os (code : Nat) (kind message : String)
  /-- Any other cause, as it is described. -/
  | other (description : String)
deriving DecidableEq, Repr, Inhabited

namespace ReadError

/-- There is nothing under the path. -/
def notFound : ReadError :=
  .os 2 "NotFound" "No such file or directory"

/-- Reading is not allowed. -/
def permissionDenied : ReadError :=
  .os 13 "PermissionDenied" "Permission denied"

/-- A part of the path that should be a directory is none. -/
def notADirectory : ReadError :=
  .os 20 "NotADirectory" "Not a directory"

/-- There is a directory where a file is wanted. -/
def isADirectory : ReadError :=
  .os 21 "IsADirectory" "Is a directory"

/-- The path, or a part of it, is longer than it may be. -/
def nameTooLong : ReadError :=
  .os 36 "InvalidFilename" "File name too long"

/-- A cause with all that is known about it. -/
def description : ReadError → String
  | .os code kind message =>
    let quoted := Quoted.quote message
    s!"Os \x7b code: {code}, kind: {kind}, message: {quoted} \x7d"
  | .other description => description

end ReadError

/-- What reading gives: bytes, or the reason why there are none. -/
abbrev Reading :=
  Except ReadError (List UInt8)

/-- A working directory with nothing but plain files, held in memory. -/
structure Directory where
  /-- The names and contents of the files. -/
  files : List (String × List UInt8)
deriving Repr

namespace Directory

/-- A directory without files. -/
def empty : Directory :=
  ⟨[]⟩

/-- Where a path has led so far. -/
inductive Place where
  /-- The working directory. -/
  | inside
  /-- A directory outside it. -/
  | outside
  /-- A file. -/
  | file (content : List UInt8)

/-- Follows one part of a path. -/
def step (dir : Directory) (place : Place) (part : String) : Except ReadError Place :=
  match place with
  | .file _ => .error .notADirectory
  | .inside | .outside =>
    if part = "" ∨ part = "." then .ok place
    else if part = ".." then .ok .outside
    else if 255 < part.utf8ByteSize then .error .nameTooLong
    else
      match place with
      | .inside =>
        match dir.files.lookup part with
        | some content => .ok (.file content)
        | none => .error .notFound
      | _ => .error .notFound

/-- Follows a path to its end. -/
def follow (dir : Directory) (path : String) : Except ReadError Place :=
  if path = "" then .error .notFound
  else if 4096 ≤ path.utf8ByteSize then .error .nameTooLong
  else
    let start : Place := if path.startsWith "/" then .outside else .inside
    (path.splitOn "/").foldlM (step dir) start

/-- The content of the file that a path leads to. -/
def read (dir : Directory) (path : String) : Reading :=
  match follow dir path with
  | .ok (.file content) => .ok content
  | .ok _ => .error .isADirectory
  | .error e => .error e

end Directory

end CrudLang
