import CrudLang.Source.Span
import CrudLang.Diagnostic.Code

/-!
# Diagnostics

A diagnostic is a message about one line of the source, with labels that point into the text: a
primary one, where the error is, and secondary ones for what it refers to. `Diagnostics` collects
the diagnostics of a run in the order in which they are found.
-/

namespace CrudLang

/-- A remark on a range of the source. -/
structure Label where
  /-- The range it points to. -/
  span : Span
  /-- What it says. -/
  message : String
deriving DecidableEq, Repr, Inhabited

/-- A message about the source. -/
structure Diagnostic where
  /-- What it complains about. -/
  kind : DiagnosticKind
  /-- What it says. -/
  message : String
  /-- The line it is about, counted from 1. -/
  line : Nat
  /-- Where the error is. -/
  primary : Label
  /-- Further places that it refers to. -/
  secondary : List Label := []
  /-- Remarks that belong to no place. -/
  notes : List String := []
deriving DecidableEq, Repr

namespace Diagnostic

/-- The code of a diagnostic's kind. -/
def code (d : Diagnostic) : String :=
  d.kind.errorCode.code

/-- The range of the primary label. -/
def span (d : Diagnostic) : Span :=
  d.primary.span

/-- All labels, the primary one first. -/
def labels (d : Diagnostic) : List Label :=
  d.primary :: d.secondary

/-- A diagnostic in one line. -/
def summary (d : Diagnostic) : String :=
  s!"error[{d.code}] on line {d.line}: {d.message}"

end Diagnostic

/-- Diagnostics in the order in which they were found. -/
abbrev Diagnostics := List Diagnostic

namespace Diagnostics

/-- Adds a diagnostic at the end. -/
def report (diagnostics : Diagnostics) (d : Diagnostic) : Diagnostics :=
  diagnostics ++ [d]

/-- How many diagnostics are of a kind. -/
def count (diagnostics : Diagnostics) (kind : DiagnosticKind) : Nat :=
  diagnostics.countP fun d => d.kind = kind

/-- Puts a line into an ascending list of lines, unless it is there. -/
def insertLine (line : Nat) : List Nat → List Nat
  | [] => [line]
  | first :: rest =>
    if line < first then line :: first :: rest
    else if line = first then first :: rest
    else first :: insertLine line rest

/-- The lines that have diagnostics, in ascending order and each once. -/
def errorLines (diagnostics : Diagnostics) : List Nat :=
  diagnostics.foldr (fun d lines => insertLine d.line lines) []

theorem mem_insertLine {line n : Nat} {lines : List Nat} :
    n ∈ insertLine line lines ↔ n = line ∨ n ∈ lines := by
  induction lines with
  | nil => simp [insertLine]
  | cons first rest ih => grind [insertLine]

/-- A line is listed exactly when a diagnostic is about it. -/
theorem mem_errorLines {n : Nat} {diagnostics : Diagnostics} :
    n ∈ errorLines diagnostics ↔ ∃ d ∈ diagnostics, d.line = n := by
  induction diagnostics with
  | nil => simp [errorLines]
  | cons d diagnostics ih =>
    simp only [errorLines, List.foldr_cons, mem_insertLine, List.mem_cons, exists_eq_or_imp]
    exact or_congr eq_comm ih

end Diagnostics

end CrudLang
