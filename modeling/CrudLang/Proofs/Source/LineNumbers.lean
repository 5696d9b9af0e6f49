import CrudLang.Proofs.Source.Lines
import Mathlib.Order.Interval.Set.Defs
import Mathlib.Order.Monotone.Basic

/-!
# Line numbers count bytes

Of the bytes that encode a character, none is that of a line feed unless the character is one. So
the line starts not behind an offset are as many as the newline bytes before it, plus the start of
the first line, and that also holds of an offset inside a character or past the end
(`LineIndex.countP_lineStartsFrom`). Line starts ascend, so binary search counts them
(`LineIndex.lineOf_eq_countP`). `LineIndex.lineOf_exact` puts the two together.
-/

namespace CrudLang

/-- The number of line feeds among the bytes of a source that stand before an offset. -/
def newlinesBefore (source : String) (offset : Nat) : Nat :=
  (source.toUTF8.data.toList.take offset).count 10

section Bytes

/-- The bytes of a source encode its characters, one behind the other. -/
theorem toList_toUTF8 (source : String) :
    source.toUTF8.data.toList = source.toList.flatMap String.utf8EncodeChar := by
  rw [String.toUTF8_eq_toByteArray, ← String.utf8Encode_toList]
  exact List.toList_data_toByteArray

/-- Only a line feed is encoded by its byte. -/
theorem newline_notMem_utf8EncodeChar {c : Char} (hc : c ≠ '\n') :
    10 ∉ String.utf8EncodeChar c := by
  have hcode : c.val.toNat ≠ 10 := fun h => hc (Char.ext (UInt32.toNat_inj.1 h))
  -- the bytes of longer forms are at least 0x80
  intro hmem
  unfold String.utf8EncodeChar at hmem
  dsimp only at hmem
  split_ifs at hmem <;>
    simp only [List.mem_cons, List.not_mem_nil, or_false, ← UInt8.toNat_inj, UInt8.toNat_ofNat',
      UInt8.reduceToNat] at hmem <;>
    omega

end Bytes

section LineStarts

/-- Line starts ascend. -/
theorem pairwise_lineStartsFrom (offset : Nat) (s : List Char) :
    (lineStartsFrom offset s).Pairwise (· < ·) := by
  induction s generalizing offset with
  | nil => exact .nil
  | cons c s ih =>
    rw [lineStartsFrom]
    split
    · exact List.pairwise_cons.2 ⟨fun n hn => (bounds_of_mem_lineStartsFrom hn).1, ih _⟩
    · exact ih _

/-- The line starts of a text that are not behind an offset are as many as the newline bytes before
it. -/
theorem countP_lineStartsFrom (start offset : Nat) (s : List Char) :
    (lineStartsFrom start s).countP (· ≤ offset) =
      ((s.flatMap String.utf8EncodeChar).take (offset - start)).count 10 := by
  induction s generalizing start with
  | nil => rw [List.flatMap_nil, List.take_nil]; rfl
  | cons c s ih =>
    rw [lineStartsFrom, List.flatMap_cons, List.take_append, List.count_append,
      String.length_utf8EncodeChar, Nat.sub_sub]
    split
    next hc =>
      subst hc
      have hbytes : String.utf8EncodeChar '\n' = [10] := rfl
      have hsize : Char.utf8Size '\n' = 1 := rfl
      rw [hbytes, hsize, List.countP_cons, ih, Nat.add_comm]
      congr 1
      -- the line behind starts at the offset or before it just if the line feed is before it
      by_cases hle : start + 1 ≤ offset
      · have htake : [10].take (offset - start) = [(10 : UInt8)] :=
          List.take_of_length_le (Nat.le_sub_of_add_le' hle)
        rw [if_pos (decide_eq_true hle), htake, List.count_singleton_self]
      · have hnone : offset - start = 0 := by omega
        rw [if_neg (by simpa using hle), hnone, List.take_zero, List.count_nil]
    next hc =>
      -- a part of the bytes of another character has no newline byte either
      have hnone : 10 ∉ (String.utf8EncodeChar c).take (offset - start) := fun hmem =>
        newline_notMem_utf8EncodeChar hc (List.mem_of_mem_take hmem)
      rw [ih, List.count_eq_zero.2 hnone, Nat.zero_add]

end LineStarts

namespace LineIndex

variable {lines : LineIndex}

/-- Where line starts ascend, those that are not behind an offset come first. -/
theorem exists_starts_eq_append {starts : List Nat} (h : starts.Pairwise (· < ·)) (offset : Nat) :
    ∃ before behind, starts = before ++ behind ∧ (∀ n ∈ before, n ≤ offset) ∧
      ∀ n ∈ behind, offset < n := by
  induction starts with
  | nil => exact ⟨[], [], rfl, nofun, nofun⟩
  | cons start starts ih =>
    obtain ⟨hstart, hrest⟩ := List.pairwise_cons.1 h
    by_cases hle : start ≤ offset
    · obtain ⟨before, behind, rfl, hbefore, hbehind⟩ := ih hrest
      exact ⟨start :: before, behind, rfl, List.forall_mem_cons.2 ⟨hle, hbefore⟩, hbehind⟩
    · have hless : offset < start := Nat.lt_of_not_le hle
      exact ⟨[], start :: starts, rfl, nofun,
        List.forall_mem_cons.2 ⟨hless, fun n hn => hless.trans (hstart n hn)⟩⟩

/-- Where line starts ascend, the search counts those that are not behind the offset. -/
theorem lineOf_eq_countP (h : lines.starts.toList.Pairwise (· < ·)) (offset : Nat) :
    lines.lineOf offset = lines.starts.toList.countP (· ≤ offset) := by
  obtain ⟨before, behind, hstarts, hbefore, hbehind⟩ := exists_starts_eq_append h offset
  have hall : before.countP (· ≤ offset) = before.length :=
    List.countP_eq_length.2 (by simpa using hbefore)
  have hnone : behind.countP (· ≤ offset) = 0 := List.countP_eq_zero.2 (by simpa using hbehind)
  rw [lineOf_eq_length hstarts hbefore hbehind, hstarts, List.countP_append, hall, hnone,
    Nat.add_zero]

/-- The first line starts at 0, and the others behind it in ascending order. -/
theorem pairwise_starts (source : String) :
    (ofSource source).starts.toList.Pairwise (· < ·) :=
  List.pairwise_cons.2
    ⟨fun _ hn => (bounds_of_mem_lineStartsFrom hn).1, pairwise_lineStartsFrom 0 source.toList⟩

/-- The line of a byte offset is one more than the number of newline bytes before it. -/
theorem lineOf_eq_newlinesBefore (source : String) (offset : Nat) :
    (ofSource source).lineOf offset = 1 + newlinesBefore source offset := by
  have hstarts : (ofSource source).starts.toList = 0 :: lineStartsFrom 0 source.toList := rfl
  rw [lineOf_eq_countP (pairwise_starts source), hstarts,
    List.countP_cons_of_pos (by simp), countP_lineStartsFrom, Nat.sub_zero,
    ← toList_toUTF8, Nat.add_comm, newlinesBefore]

/-- The line index is exact. The line of a byte offset, wherever it lies in the source or past its
end, is one more than the number of newline bytes before it. So lines ascend with offsets, they lie
between the first line and the last one, and there is one line more than there are line feeds. -/
theorem lineOf_exact (source : String) :
    (∀ offset, (ofSource source).lineOf offset = 1 + newlinesBefore source offset) ∧
      Monotone (ofSource source).lineOf ∧
      (∀ offset, (ofSource source).lineOf offset ∈ Set.Icc 1 (ofSource source).lineCount) ∧
      (ofSource source).lineCount = 1 + source.toList.count '\n' := by
  refine ⟨lineOf_eq_newlinesBefore source, fun a b hab => ?_, fun offset => ⟨?_, ?_⟩,
    lineCount_ofChars _⟩
  · rw [lineOf_eq_newlinesBefore, lineOf_eq_newlinesBefore]
    exact Nat.add_le_add_left ((List.take_prefix_take_left hab).sublist.count_le 10) 1
  · rw [lineOf_eq_newlinesBefore]
    exact Nat.le_add_right 1 _
  · rw [lineOf_eq_countP (pairwise_starts source), lineCount, ← Array.length_toList]
    exact List.countP_le_length

/-- A carriage return ends no line, a line feed stands on the line that it ends, and offset 1 lies
inside a character. -/
example :
    [0, 1, 2, 3, 4, 5, 9].map (ofSource "é\r\n\nx").lineOf = [1, 1, 1, 1, 2, 3, 3] := by
  cbv

end LineIndex

end CrudLang
