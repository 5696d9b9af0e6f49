import CrudLang.Diagnostic.Basic
import CrudLang.Text.Whitespace
import CrudLang.Text.Width

/-!
# Reports

A report shows a diagnostic with the lines of the source that its labels point to, and draws an
arrow from each label's place to what the label says. Labels are clamped to the length of the source
in bytes, but their offsets are then counted in characters of the source. A label is drawn on the
line that holds all of it; where several labels share a line, each one has a row of its own below
it.

A label may also straddle the end of a line: `foo` on the line below `// éé`, since behind a
character of several bytes labels are shifted, or a string that holds a carriage return. The arrows
of such a label would lead over several lines. They are not drawn here: the label counts for which
lines the report shows, and is left out of what is drawn on them (`Style.marksOn`).
-/

namespace CrudLang.Report

/-- What the parts of a report are coloured by. -/
inductive Colour where
  /-- The place of the error. -/
  | primary
  /-- A place that the error refers to. -/
  | secondary
  /-- The margin beside source text. -/
  | margin
  /-- The margin beside arrows and notes. -/
  | dimMargin
  /-- Source text outside all labels. -/
  | plain
  /-- The head of a note. -/
  | note
deriving DecidableEq, Repr, Inhabited

namespace Colour

/-- The terminal's code for a colour. -/
def code : Colour → String
  | .primary => "31"
  | .secondary => "34"
  | .margin => "38;5;246"
  | .dimMargin => "38;5;240"
  | .plain => "38;5;249"
  | .note => "38;5;115"

end Colour

/-- A text in a colour, if the report is coloured. -/
def paint (coloured : Bool) (colour : Colour) (text : String) : String :=
  if coloured then "\x1b[" ++ colour.code ++ "m" ++ text ++ "\x1b[0m" else text

/-- A number of blanks. -/
def blanks (n : Nat) : String :=
  String.ofList (List.replicate n ' ')

/-- Whether a line of a report's source ends behind a character, given the one that follows; a
carriage return and a line feed end a line together. -/
def endsLine (c : Char) (next : Option Char) : Bool :=
  (c = '\r' && next ≠ some '\n') || c = '\n' || c = '\x0b' || c = '\x0c' || c = '\u0085' ||
    c = '\u2028' || c = '\u2029'

/-- The lines of a text, each with what ends it. -/
def splitLines : List Char → List (List Char)
  | [] => []
  | c :: rest =>
    if endsLine c rest.head? then [c] :: splitLines rest
    else
      match splitLines rest with
      | [] => [[c]]
      | line :: lines => (c :: line) :: lines

/-- A line of the source. -/
structure Line where
  /-- Its number, counted from 0. -/
  index : Nat
  /-- How many characters come before it. -/
  start : Nat
  /-- Its characters, with what ends it. -/
  chars : List Char
deriving Repr

namespace Line

/-- How many characters there are up to the end of the line. -/
def stop (line : Line) : Nat :=
  line.start + line.chars.length

/-- What is shown of a line. -/
def shown (line : Line) : List Char :=
  trimEnd line.chars

/-- Numbers lines and counts the characters before each. -/
def place (index start : Nat) : List (List Char) → List Line
  | [] => []
  | chars :: rest => ⟨index, start, chars⟩ :: place (index + 1) (start + chars.length) rest

/-- The lines of a source; the empty source has one empty line. -/
def ofSource (source : List Char) : List Line :=
  place 0 0 (if source.isEmpty then [[]] else splitLines source)

end Line

/-- The index of the line that holds a character offset: the last one that starts at or before
it. An offset past the end of the source has none. -/
def lineAt (lines : List Line) (total offset : Nat) : Option Nat :=
  if offset ≤ total then some (lines.countP (fun line => line.start ≤ offset) - 1) else none

/-- A label in a report: a range of character offsets with a message. -/
structure Mark where
  /-- The first character. -/
  start : Nat
  /-- Just past the last character. -/
  stop : Nat
  /-- What the label says. -/
  message : String
  /-- The colour of the label. -/
  colour : Colour
deriving DecidableEq, Repr, Inhabited

namespace Mark

/-- How many characters a label holds. -/
def size (mark : Mark) : Nat :=
  mark.stop - mark.start

/-- Whether a label holds the character at an offset. -/
def holds (mark : Mark) (offset : Nat) : Bool :=
  mark.start ≤ offset && offset < mark.stop

/-- The column of a line at which the arrow to a label begins. -/
def column (line : Line) (mark : Mark) : Nat :=
  max ((mark.start + mark.stop) / 2) mark.start - line.start

/-- Whether both ends of a label lie on lines of the source. -/
def isVisible (lines : List Line) (total : Nat) (mark : Mark) : Bool :=
  (lineAt lines total mark.start).isSome &&
    (mark.start = mark.stop || (lineAt lines total (mark.stop - 1)).isSome)

/-- Whether a label is drawn before another on the same line. -/
def precedes (line : Line) (a b : Mark) : Bool :=
  a.column line < b.column line || (a.column line = b.column line && b.start ≤ a.start)

/-- The labels of a diagnostic, clamped to a length; none if one of them ends before it starts. -/
def ofDiagnostic? (length : Nat) (d : Diagnostic) : Option (List Mark) :=
  let mark (colour : Colour) (label : Label) : Option Mark :=
    let span := label.span.clamp length
    if span.start ≤ span.stop then some ⟨span.start, span.stop, label.message, colour⟩ else none
  return (← mark .primary d.primary) :: (← d.secondary.mapM (mark .secondary))

end Mark

/-- The shortest label that holds the character at an offset, the first one if there are several. -/
def shortest (marks : List Mark) (offset : Nat) : Option Mark :=
  (marks.filter (·.holds offset)).foldl
    (fun best mark =>
      match best with
      | none => some mark
      | some b => if mark.size < b.size then some mark else some b)
    none

/-- How many columns a character takes at a column: a tab runs to the next multiple of four, and
every other white space takes one. -/
def widthAt (column : Nat) (c : Char) : Nat :=
  if c = '\t' then (column / 4 + 1) * 4 - column
  else if isWhitespace c then 1
  else if c.toNat < 0x20 || (0x7f ≤ c.toNat && c.toNat < 0xa0) then 1
  else charWidth c

/-- How many columns the character at a column of a text takes, and one past the end. -/
def cellWidth (text : List Char) (column : Nat) : Nat :=
  match text[column]? with
  | some c => widthAt column c
  | none => 1

/-- What is drawn in a column: a first sign, and signs that fill the rest of its width. -/
structure Cell where
  /-- The first sign. -/
  first : String
  /-- The sign that fills the rest. -/
  fill : String

namespace Cell

/-- Draws a cell in a number of columns. -/
def draw (cell : Cell) : Nat → String
  | 0 => ""
  | n + 1 => cell.first ++ String.join (List.replicate n cell.fill)

/-- A cell with nothing in it. -/
def blank : Cell :=
  ⟨" ", " "⟩

end Cell

/-- Draws one cell a column of a text, for a number of columns. -/
def drawCells (text : List Char) (columns : Nat) (cell : Nat → Cell) : String :=
  String.join ((List.range columns).map fun column => (cell column).draw (cellWidth text column))

/-- What the pieces of one report have in common. -/
structure Style where
  /-- Whether the report is coloured. -/
  coloured : Bool
  /-- The number of digits of the greatest line number. -/
  width : Nat

namespace Style

/-- The margin beside arrows and notes. -/
def dimMargin (style : Style) : String :=
  " " ++ paint style.coloured .dimMargin (blanks (style.width + 1) ++ "│") ++ " "

/-- The margin beside a line of the source. -/
def lineMargin (style : Style) (line : Line) : String :=
  let number := toString (line.index + 1)
  " " ++ paint style.coloured .margin (blanks (style.width - number.length) ++ number ++ " │") ++
    " "

/-- The text of a line, each character in the colour of the shortest label around it. -/
def sourceText (style : Style) (line : Line) (marks : List Mark) : String :=
  String.join <| line.shown.zipIdx.map fun (c, column) =>
    let colour := ((shortest marks (line.start + column)).map Mark.colour).getD .plain
    if isWhitespace c then
      String.join (List.replicate (widthAt column c) (paint style.coloured colour " "))
    else paint style.coloured colour c.toString

/-- The label that an arrow passes through a column for, on its way down to `row` or below. -/
def passing (line : Line) (marks : List Mark) (row column : Nat) : Option Mark :=
  (marks.drop row).find? fun mark => mark.column line = column

/-- The cells above the arrow head of a row: the underlines of all labels in the first row, and the
stems of the arrows that go on. -/
def stemCell (style : Style) (line : Line) (marks : List Mark) (row column : Nat) : Cell :=
  let underline := if row = 0 then shortest marks (line.start + column) else none
  match passing line marks row column with
  | some mark =>
    if underline.isSome then
      ⟨paint style.coloured mark.colour "┬", paint style.coloured mark.colour "─"⟩
    else ⟨paint style.coloured mark.colour "│", paint style.coloured mark.colour " "⟩
  | none =>
    match underline with
    | some mark =>
      ⟨paint style.coloured mark.colour "─", paint style.coloured mark.colour "─"⟩
    | none => .blank

/-- The cells of the row in which the arrow of `own` turns to its message. -/
def arrowCell (style : Style) (line : Line) (marks : List Mark) (own : Mark) (row column : Nat) :
    Cell :=
  let ownBar := paint style.coloured own.colour "─"
  if column = own.column line then ⟨paint style.coloured own.colour "╰", ownBar⟩
  else if own.column line < column then ⟨ownBar, ownBar⟩
  else
    match passing line marks row column with
    | some mark => ⟨paint style.coloured mark.colour "│", paint style.coloured own.colour " "⟩
    | none => .blank

/-- The two lines of a label's row below the source text. -/
def row (style : Style) (line : Line) (marks : List Mark) (own : Mark) (row : Nat) : String :=
  let columns := (marks.map fun mark => mark.stop - line.start).foldl max 0 + 2
  style.dimMargin ++ drawCells line.shown columns (style.stemCell line marks row) ++ "\n" ++
    style.dimMargin ++ drawCells line.shown columns (style.arrowCell line marks own row) ++ " " ++
    own.message ++ "\n"

/-- The labels that are drawn on a line, in the order of their rows: those that it holds to the last
character. A label that straddles the end of a line is drawn on no line. -/
def marksOn (line : Line) (marks : List Mark) : List Mark :=
  (marks.filter fun mark => line.start ≤ mark.start && mark.stop ≤ line.stop).mergeSort
    (Mark.precedes line)

/-- The lines of a report: those with labels are shown with their arrows, and each run of lines
without labels is shown by one empty line. Labels that straddle the end of a line are left out, and
a line with no other label counts as one without labels. -/
def body (style : Style) (marks : List Mark) (skipping : Bool) : List Line → String
  | [] => ""
  | line :: rest =>
    match marksOn line marks with
    | [] => (if skipping then "" else style.dimMargin ++ "\n") ++ body style marks true rest
    | here =>
      style.lineMargin line ++ style.sourceText line here ++ "\n" ++
        String.join (here.zipIdx.map fun (own, row) => style.row line here own row) ++
        body style marks false rest

/-- The lines of a note, each without the line feed that ends it and a carriage return before that;
a line feed at the end of the note begins no further line. -/
def noteLines (note : String) : List String :=
  let pieces := note.splitOn "\n"
  let ended := pieces.dropLast.map fun line =>
    if line.endsWith "\r" then (line.dropEnd 1).toString else line
  ended ++ (pieces.getLast?.toList.filter fun line => !line.isEmpty)

/-- A note with its head; its further lines are indented as far as its first. -/
def note (style : Style) (head : String) (text : String) : String :=
  style.dimMargin ++ "\n" ++
    match noteLines text with
    | [] => ""
    | first :: rest =>
      style.dimMargin ++ paint style.coloured .note head ++ ": " ++ first ++ "\n" ++
        String.join (rest.map fun line =>
          style.dimMargin ++ blanks (head.length + 2) ++ line ++ "\n")

/-- The notes of a diagnostic, numbered if there are several. -/
def notes (style : Style) (texts : List String) : String :=
  String.join <| texts.zipIdx.map fun (text, i) =>
    style.note (if texts.length = 1 then "Note" else s!"Note {i + 1}") text

end Style

/-- The lines of a report below its message. -/
def frame (fileName : String) (lines : List Line) (total : Nat) (coloured : Bool)
    (location : Nat) (marks : List Mark) (notes : List String) : String :=
  let first := marks.foldl (fun least mark => min least mark.start) total
  let last := max ((marks.foldl (fun most mark => max most mark.stop) 0) - 1) first
  let firstLine := (lineAt lines total first).getD 0
  let lastLine := (lineAt lines total last).getD 0
  let style : Style := ⟨coloured, (toString (lastLine + 1)).length⟩
  let place :=
    match lineAt lines total location with
    | none => "?:?"
    | some index =>
      let start := (lines[index]?.map Line.start).getD 0
      s!"{index + 1}:{location - start + 1}"
  blanks (style.width + 2) ++ paint coloured .margin "╭" ++ paint coloured .margin "─" ++
    paint coloured .margin "[" ++ s!" {fileName}:{place} " ++ paint coloured .margin "]" ++ "\n" ++
    blanks (style.width + 2) ++ paint coloured .margin "│" ++ "\n" ++
    style.body marks false ((lines.drop firstLine).take (lastLine + 1 - firstLine)) ++
    style.notes notes ++
    paint coloured .margin (String.join (List.replicate (style.width + 2) "─") ++ "╯") ++ "\n"

/-- The report of one diagnostic on a source, or none if a label ends before it starts. -/
def ofDiagnostic? (fileName source : String) (coloured : Bool) (d : Diagnostic) :
    Option String :=
  let chars := source.toList
  let lines := Line.ofSource chars
  let total := chars.length
  (Mark.ofDiagnostic? source.utf8ByteSize d).map fun marks =>
    let visible := marks.filter (Mark.isVisible lines total)
    let head := paint coloured .primary s!"[{d.code}] Error:" ++ " " ++ d.message ++ "\n"
    if visible.isEmpty then head
    else
      let location := (d.span.clamp source.utf8ByteSize).start
      head ++ frame fileName lines total coloured location visible d.notes

end CrudLang.Report

namespace CrudLang.Diagnostics

/-- The reports of all diagnostics, one after the other, or none if a label of one ends before it
starts. -/
def render? (diagnostics : Diagnostics) (fileName source : String) (coloured : Bool) :
    Option String :=
  (diagnostics.mapM (Report.ofDiagnostic? fileName source coloured)).map String.join

end CrudLang.Diagnostics
