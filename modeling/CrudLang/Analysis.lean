import CrudLang.Source.Encoding
import CrudLang.Source.Directory
import CrudLang.Token.Lexer
import CrudLang.Syntax.Statement
import CrudLang.Scope.Checking

/-!
# Analysing a source

A source is lexed, read as a program and checked for its use of names. Lexical errors do not stop
the analysis, but names are checked only if the program was read without a syntax error: a tree
that was recovered would lead to errors that are not there. A source may also be given as bytes or
as a file, which may fail before there is anything to analyse.
-/

namespace CrudLang

/-- The outcome of an analysis. -/
structure Analysis where
  /-- The tokens of the source. -/
  tokens : List Token
  /-- The diagnostics of all stages, in the order in which they were found. -/
  diagnostics : Diagnostics
  /-- The symbols of the program; if names were not checked, only the global scope. -/
  table : SymbolTable
deriving Repr

/-- Why there is nothing to analyse. -/
inductive AnalysisError where
  /-- The file cannot be read. -/
  | unreadable (path : String) (cause : ReadError)
  /-- The bytes are no text. -/
  | invalidEncoding (cause : EncodingError)
deriving DecidableEq, Repr

namespace AnalysisError

/-- What is said about a failure. -/
def message : AnalysisError → String
  | .unreadable path _ => s!"failed to read source file '{path}'"
  | .invalidEncoding _ => "source text is not valid UTF-8"

/-- A failure with all that is known about it. -/
def description : AnalysisError → String
  | .unreadable path cause =>
    let quoted := Quoted.quote path
    s!"Io \x7b path: {quoted}, source: {cause.description} \x7d"
  | .invalidEncoding cause =>
    let length :=
      match cause.errorLength with
      | some n => s!"Some({n})"
      | none => "None"
    s!"InvalidEncoding(Utf8Error \x7b valid_up_to: {cause.validUpTo}, error_len: {length} \x7d)"

end AnalysisError

namespace Analysis

/-- Whether nothing was reported. -/
def isClean (analysis : Analysis) : Bool :=
  analysis.diagnostics.isEmpty

/-- The lines that have diagnostics. -/
def errorLines (analysis : Analysis) : List Nat :=
  analysis.diagnostics.errorLines

/-- Analyses a source text. A program was read without a syntax error if there are as many
diagnostics behind reading as before it. -/
def ofSource (source : String) : Analysis :=
  let lines := LineIndex.ofSource source
  let lexing := Lexing.ofSource source
  let parsing := Parsing.ofTokens lexing.tokens
  let diagnostics := lexing.diagnostics ++ parsing.diagnostics lines lexing.tokens
  let syntaxClean := diagnostics.length == lexing.diagnostics.length
  match parsing.program, syntaxClean with
  | some program, true =>
    let checked := Checking.program lines ⟨.empty, diagnostics⟩ program
    ⟨lexing.tokens, checked.diagnostics, checked.table⟩
  | _, _ => ⟨lexing.tokens, diagnostics, .empty⟩

/-- Analyses a source that is given as bytes. -/
def ofBytes (bytes : List UInt8) : Except AnalysisError Analysis :=
  match Encoding.decode bytes with
  | .ok source => .ok (ofSource source)
  | .error e => .error (.invalidEncoding e)

/-- Analyses what was read under a path. -/
def ofReading (path : String) : Reading → Except AnalysisError Analysis
  | .ok bytes => ofBytes bytes
  | .error e => .error (.unreadable path e)

/-- Analyses a file of a directory. -/
def ofFile (dir : Directory) (path : String) : Except AnalysisError Analysis :=
  ofReading path (dir.read path)

end Analysis

end CrudLang
