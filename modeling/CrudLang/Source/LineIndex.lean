/-!
# Line numbers

A line ends at a line feed and nowhere else. `LineIndex` records once where the lines of a
source start; `LineIndex.lineOf` then finds the line of a byte offset by binary search.
Lines count from 1, and an offset past the end lies in the last line.
-/

namespace CrudLang

/-- The length of a text in bytes of UTF-8. -/
def utf8Length (text : List Char) : Nat :=
  text.foldr (fun c length => c.utf8Size + length) 0

@[simp] theorem utf8Length_nil : utf8Length [] = 0 := rfl

@[simp] theorem utf8Length_cons (c : Char) (text : List Char) :
    utf8Length (c :: text) = c.utf8Size + utf8Length text := rfl

@[simp] theorem utf8Length_append (s t : List Char) :
    utf8Length (s ++ t) = utf8Length s + utf8Length t := by
  induction s with
  | nil => rw [List.nil_append, utf8Length_nil, Nat.zero_add]
  | cons c s ih => rw [List.cons_append, utf8Length_cons, utf8Length_cons, ih, Nat.add_assoc]

/-- The length of a string's characters is its length in bytes. -/
theorem utf8Length_toList (s : String) : utf8Length s.toList = s.utf8ByteSize := by
  have key (text : List Char) : utf8Length text = (String.ofList text).utf8ByteSize := by
    induction text with
    | nil => rfl
    | cons c rest ih =>
      have hsplit : String.ofList (c :: rest) = String.ofList [c] ++ String.ofList rest := by
        rw [← String.ofList_append]
        rfl
      have hone : (String.ofList [c]).utf8ByteSize = c.utf8Size := by
        rw [← String.singleton_eq_ofList, String.utf8ByteSize_singleton]
      rw [utf8Length_cons, ih, hsplit, String.utf8ByteSize_append, hone]
  rw [key, String.ofList_toList]

/-- The offsets just past each line feed of a text that begins at `offset`. -/
def lineStartsFrom (offset : Nat) : List Char → List Nat
  | [] => []
  | c :: rest =>
    let next := offset + c.utf8Size
    if c = '\n' then next :: lineStartsFrom next rest else lineStartsFrom next rest

/-- Where each line of a source starts, in bytes, in ascending order. -/
structure LineIndex where
  /-- Offsets of the first byte of each line. -/
  starts : Array Nat
deriving Repr

namespace LineIndex

/-- The line index of a text: the first line starts at 0, each other one after a line feed. -/
def ofChars (source : List Char) : LineIndex :=
  ⟨(0 :: lineStartsFrom 0 source).toArray⟩

/-- The line index of a source text. -/
def ofSource (source : String) : LineIndex :=
  ofChars source.toList

/-- Binary search for the number of line starts that are at most `offset`, given that it lies
between `low` and `high`. -/
def search (starts : Array Nat) (offset low high : Nat) : Nat :=
  if low < high then
    let middle := (low + high) / 2
    if starts.getD middle 0 ≤ offset then search starts offset (middle + 1) high
    else search starts offset low middle
  else low
termination_by high - low

/-- The line, counted from 1, that holds a byte offset. -/
def lineOf (lines : LineIndex) (offset : Nat) : Nat :=
  search lines.starts offset 0 lines.starts.size

/-- The number of lines; a final line feed opens one more, empty line. -/
def lineCount (lines : LineIndex) : Nat :=
  lines.starts.size

end LineIndex

end CrudLang
