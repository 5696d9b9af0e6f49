/-!
# Spans of source text

A span is a half-open range of byte offsets into the UTF-8 form of a source text. `Span.join`
covers two spans, whichever comes first; every compound node of the syntax tree takes its
span from its parts in this way.
-/

namespace CrudLang

/-- A half-open range `[start, stop)` of byte offsets. -/
structure Span where
  /-- Offset of the first byte. -/
  start : Nat
  /-- Offset just past the last byte. -/
  stop : Nat
deriving DecidableEq, Repr, Inhabited

namespace Span

/-- The smallest range that covers both spans. -/
def join (a b : Span) : Span :=
  ⟨min a.start b.start, max a.stop b.stop⟩

/-- The empty span at an offset. -/
def point (offset : Nat) : Span :=
  ⟨offset, offset⟩

/-- Moves a span to the right. -/
def shift (offset : Nat) (s : Span) : Span :=
  ⟨s.start + offset, s.stop + offset⟩

/-- Cuts a span off at the end of a text of the given length. -/
def clamp (length : Nat) (s : Span) : Span :=
  ⟨min s.start length, min s.stop length⟩

@[simp] theorem join_start (a b : Span) : (a.join b).start = min a.start b.start := rfl

@[simp] theorem join_stop (a b : Span) : (a.join b).stop = max a.stop b.stop := rfl

theorem join_comm (a b : Span) : a.join b = b.join a := by
  simp [join, Nat.min_comm, Nat.max_comm]

theorem join_assoc (a b c : Span) : (a.join b).join c = a.join (b.join c) := by
  simp [join, Nat.min_assoc, Nat.max_assoc]

end Span

end CrudLang
