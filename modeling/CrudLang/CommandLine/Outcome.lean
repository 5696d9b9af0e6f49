import CrudLang.Analysis
import CrudLang.CommandLine.Options
import CrudLang.Diagnostic.Report

/-!
# What the command line answers

The outcome of a command is an exit code with what is written to the standard output and to the
standard error. A source without errors is answered by its tokens, and by its symbols on request;
a source with errors by reports and a summary. Explaining a code takes precedence over all else.

How files and the standard input are read is a parameter of the command (`respond`): the program
reads them from the operating system, and `run` from memory.
-/

namespace CrudLang.CommandLine

/-- The outcome of a command. -/
structure Outcome where
  /-- The exit code. -/
  exitCode : Nat
  /-- What is written to the standard output. -/
  stdout : String
  /-- What is written to the standard error. -/
  stderr : String
deriving DecidableEq, Repr

namespace Outcome

/-- Success, with what was asked for. -/
def success (stdout : String) : Outcome :=
  ⟨0, stdout, ""⟩

/-- Failure, with the reason. -/
def failure (stderr : String) : Outcome :=
  ⟨1, "", stderr⟩

/-- Failure for a reason in one line. -/
def error (description : String) : Outcome :=
  .failure s!"Error: {description}\n"

end Outcome

/-- Lines of text, each with its line feed. -/
def joinLines (lines : List String) : String :=
  String.join (lines.map (· ++ "\n"))

/-- One line for each token. -/
def tokenListing (tokens : List Token) : String :=
  joinLines (tokens.map Token.listing)

/-- A symbol's line in a symbol listing. -/
def symbolLine (table : SymbolTable) (symbol : Symbol) : String :=
  let scope := table.scopes.getD symbol.scope default
  s!"  {symbol.name} ({symbol.kind.text}) in scope #{scope.id} [{scope.kind.text}], " ++
    s!"line {symbol.line}"

/-- A heading and one line for each symbol. -/
def symbolListing (table : SymbolTable) : String :=
  joinLines ("" :: "Symbols:" :: table.symbols.toList.map (symbolLine table))

/-- The answer to the request to explain a code. -/
def explain (code : String) : Outcome :=
  match ErrorCode.lookup code with
  | some row => .success s!"{row.code}: {row.title}\n\n{row.explanation}\n"
  | none => .error (Quoted.quote s!"unknown error code '{code}'")

/-- The last line of the answer to a source with errors. -/
def summary (analysis : Analysis) : String :=
  let lines := ", ".intercalate (analysis.errorLines.map toString)
  s!"analysis failed with {analysis.diagnostics.length} error(s); offending lines: {lines}\n"

/-- The answer to an analysis of a source. -/
def answer (options : Options) (sourceName source : String) (analysis : Analysis) : Outcome :=
  if analysis.isClean then
    .success <| tokenListing analysis.tokens ++
      (if options.symbols then symbolListing analysis.table else "")
  else
    .failure <| (analysis.diagnostics.render? sourceName source (!options.noColor)).getD "" ++
      summary analysis

/-- The answer to a source that is given as bytes. -/
def answerBytes (options : Options) (sourceName : String) (bytes : List UInt8) : Outcome :=
  match Encoding.decode bytes with
  | .error e => .error (AnalysisError.invalidEncoding e).description
  | .ok source => answer options sourceName source (.ofSource source)

/-- The file that the options name; a single dash, like no file, stands for the standard input. -/
def Options.path? (options : Options) : Option String :=
  options.file.filter (· ≠ "-")

/-- The name under which reports show the source. -/
def Options.sourceName (options : Options) : String :=
  options.path?.getD "<stdin>"

/-- Reads the file that the options name, or else the standard input. -/
def Options.chosen {m : Type → Type} (options : Options) (readFile : String → m Reading)
    (readStdin : m Reading) : m Reading :=
  match options.path? with
  | some path => readFile path
  | none => readStdin

/-- What is said if nothing can be read from where the options say. -/
def Options.complaint (options : Options) (e : ReadError) : String :=
  match options.path? with
  | some path => (AnalysisError.unreadable path e).description
  | none => e.description

/-- The answer to a source that was read, or could not be read, from where the options say. -/
def answerInput (options : Options) : Reading → Outcome
  | .ok bytes => answerBytes options options.sourceName bytes
  | .error e => .error (options.complaint e)

/-- The line that names the version. -/
def versionText : String :=
  "crudc 0.1.0\n"

/-- What the command is for, and its arguments. -/
def helpText : String :=
  joinLines
    ["一个小型语言的编译器前端：词法、语法和语义分析",
     "",
     "Usage: crudc [OPTIONS] [INPUT_FILE]",
     "",
     "Arguments:",
     "  [INPUT_FILE]  需要分析的源文件路径；省略或为 `-` 时从标准输入读取",
     "",
     "Options:",
     "      --symbols         分析成功时同时打印符号表",
     "      --no-color        输出诊断时不使用颜色",
     "      --explain <CODE>  打印某个错误码（例如 E0201）的详细解释后退出",
     "  -h, --help            Print help",
     "  -V, --version         Print version"]

/-- The answer to a request that needs no input, or the options of one that does. -/
def immediate (request : Except UsageError Request) : Outcome ⊕ Options :=
  match request with
  | .error e => .inl ⟨2, "", e.message ++ "\n"⟩
  | .ok .version => .inl (.success versionText)
  | .ok .help => .inl (.success helpText)
  | .ok (.run options) =>
    match options.explain with
    | some code => .inl (explain code)
    | none => .inr options

/-- Answers a command that may read files and the standard input. At most one of them is read, and
only if the arguments ask for an analysis. -/
def respond {m : Type → Type} [Monad m] (arguments : List String) (readFile : String → m Reading)
    (readStdin : m Reading) : m Outcome :=
  match immediate (readArguments {} arguments) with
  | .inl outcome => pure outcome
  | .inr options => answerInput options <$> options.chosen readFile readStdin

/-- The answer to a command if the files are those of a directory that is held in memory, and the
bytes of the standard input are at hand. -/
def run (arguments : List String) (dir : Directory) (stdin : List UInt8) : Outcome :=
  Id.run (respond arguments dir.read (.ok stdin))

end CrudLang.CommandLine
