import CrudLang.Scope.Event
import CrudLang.Scope.Table
import CrudLang.Source.LineIndex
import CrudLang.Diagnostic.Basic

/-!
# Checking the use of names

The events of a program are played on a symbol table. A name that is declared twice in one scope, a
name that is used without a declaration in sight, and a name that is used for what it is not
are reported; checking goes on behind them.
-/

namespace CrudLang

/-- A violation of the rules of scope. -/
inductive ScopeError where
  /-- The name is already declared in the same scope. -/
  | redeclared (ident : Ident) (refusal : AlreadyDeclared) (previous : Span)
  /-- No declaration of the name is in sight. -/
  | undeclared (ident : Ident)
  /-- The name is declared, but not for this use. -/
  | mismatch (ident : Ident) (role : Role) (symbol : Symbol)
deriving DecidableEq, Repr

namespace ScopeError

/-- What is said about a name that is used for what it is not. -/
def mismatchMessage (name : String) (role : Role) (kind : SymbolKind) : String :=
  match role with
  | .value => s!"'{name}' is a {kind.text}"
  | .assignment => s!"cannot assign to {kind.text} '{name}'"
  | .call => s!"'{name}' is a {kind.text}, not a function"
  | .instantiation => s!"'{name}' is a {kind.text}, not a class"
  | .crud op => s!"'{name}' is a {kind.text}, but `{op.text}` needs a class or a variable"

/-- The diagnostic for a violation. -/
def diagnostic (lines : LineIndex) : ScopeError → Diagnostic
  | .redeclared ident refusal previous =>
    { kind := .redeclaredIdentifier
      message := s!"'{ident.name}' is already declared in this scope"
      line := lines.lineOf ident.span.start
      primary := ⟨ident.span, "redeclared here"⟩
      secondary := [⟨previous, "previously declared here"⟩]
      notes := [s!"first declaration is on line {refusal.previousLine}"] }
  | .undeclared ident =>
    { kind := .undeclaredIdentifier
      message := s!"use of undeclared identifier '{ident.name}'"
      line := lines.lineOf ident.span.start
      primary := ⟨ident.span, "not found in this scope"⟩ }
  | .mismatch ident role symbol =>
    { kind := .kindMismatch
      message := mismatchMessage ident.name role symbol.kind
      line := lines.lineOf ident.span.start
      primary := ⟨ident.span, s!"this is a {symbol.kind.text}"⟩
      secondary :=
        [⟨symbol.span, s!"'{symbol.name}' declared as a {symbol.kind.text} here"⟩] }

end ScopeError

/-- The state of checking: the table so far, and the diagnostics so far. -/
structure Checking where
  /-- The symbols and scopes. -/
  table : SymbolTable
  /-- The diagnostics, in the order in which they were found. -/
  diagnostics : Diagnostics
deriving DecidableEq, Repr

namespace Checking

/-- The state before any event: an empty table and no diagnostics. -/
def start : Checking :=
  ⟨.empty, []⟩

/-- Reports a violation. -/
def report (lines : LineIndex) (s : Checking) (error : ScopeError) : Checking :=
  { s with diagnostics := s.diagnostics.report (error.diagnostic lines) }

/-- Declares a name, or reports that it is already declared. -/
def declare (lines : LineIndex) (s : Checking) (ident : Ident) (kind : SymbolKind) : Checking :=
  match s.table.declare ident.name kind (lines.lineOf ident.span.start) ident.span with
  | .ok (_, table) => { s with table }
  | .error refusal =>
    s.report lines <| .redeclared ident refusal
      ((s.table.symbols[refusal.previous]?.map Symbol.span).getD default)

/-- Looks a name up, and reports it if it is not there or not of a kind for its role. -/
def use (lines : LineIndex) (s : Checking) (ident : Ident) (role : Role) : Checking :=
  match s.table.lookup ident.name with
  | none => s.report lines (.undeclared ident)
  | some symbol =>
    if role.accepts symbol.kind then s else s.report lines (.mismatch ident role symbol)

/-- Plays one event. -/
def step (lines : LineIndex) (s : Checking) : Event → Checking
  | .enter kind => { s with table := s.table.enter kind }
  | .leave => { s with table := s.table.leave }
  | .declare ident kind => s.declare lines ident kind
  | .use ident role => s.use lines ident role

/-- Plays events in order. -/
def play (lines : LineIndex) (s : Checking) (events : List Event) : Checking :=
  events.foldl (step lines) s

/-- Checks a program, starting in the current scope of the table. -/
def program (lines : LineIndex) (s : Checking) (program : Program) : Checking :=
  s.play lines program.events

end Checking

end CrudLang
