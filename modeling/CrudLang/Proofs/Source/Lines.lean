import CrudLang.Source.LineIndex
import Mathlib.Data.List.Count

/-!
# Lines and line feeds

The line of an offset is found by binary search among the offsets at which lines start. Where those
at or before the offset stand in front of those behind it, the search finds out how many there are
of the former (`LineIndex.lineOf_eq_length`). A line starts at the beginning of the source and
behind each line feed, so an offset between two characters lies in the line whose number is one more
than the number of line feeds before it (`LineIndex.lineOf_ofChars_append`).
-/

namespace CrudLang

section LineStarts

variable {offset n : Nat} {s : List Char}

theorem lineStartsFrom_append (offset : Nat) (s t : List Char) :
    lineStartsFrom offset (s ++ t) =
      lineStartsFrom offset s ++ lineStartsFrom (offset + utf8Length s) t := by
  induction s generalizing offset with
  | nil => rfl
  | cons c s ih =>
    simp only [List.cons_append, lineStartsFrom, ih, utf8Length_cons, Nat.add_assoc]
    split <;> rfl

/-- There is a line start for each line feed. -/
theorem length_lineStartsFrom (offset : Nat) (s : List Char) :
    (lineStartsFrom offset s).length = s.count '\n' := by
  induction s generalizing offset with
  | nil => rfl
  | cons c s ih =>
    rw [lineStartsFrom]
    split
    next hc => rw [hc, List.length_cons, ih, List.count_cons_self]
    next hc => rw [ih, List.count_cons_of_ne hc]

theorem lineStartsFrom_of_notMem (offset : Nat) (h : '\n' ∉ s) : lineStartsFrom offset s = [] := by
  rw [← List.length_eq_zero_iff, length_lineStartsFrom, List.count_eq_zero.2 h]

/-- Line starts lie behind the beginning of the text, and not behind its end. -/
theorem bounds_of_mem_lineStartsFrom (h : n ∈ lineStartsFrom offset s) :
    offset < n ∧ n ≤ offset + utf8Length s := by
  induction s generalizing offset with
  | nil => cases h
  | cons c s ih =>
    have hsize : 0 < c.utf8Size := c.utf8Size_pos
    rw [lineStartsFrom] at h
    rw [utf8Length_cons]
    -- the bounds of the rest lie within those of the whole text
    have hrest (hn : n ∈ lineStartsFrom (offset + c.utf8Size) s) :
        offset < n ∧ n ≤ offset + (c.utf8Size + utf8Length s) := by
      have := ih hn
      omega
    split at h
    · rcases List.mem_cons.1 h with rfl | h
      · omega
      · exact hrest h
    · exact hrest h

end LineStarts

namespace LineIndex

/-- The search finds the place at which the line starts change from at most `offset` to more. -/
theorem search_eq {starts : Array Nat} {offset low high n : Nat} (hlow : low ≤ n) (hhigh : n ≤ high)
    (hbefore : ∀ i < n, starts.getD i 0 ≤ offset)
    (hbehind : ∀ i, n ≤ i → i < high → offset < starts.getD i 0) :
    search starts offset low high = n := by
  fun_induction search starts offset low high with
  -- the window `low..high` always holds the place, and each step halves it
  | case1 low high hless middle hmiddle ih =>
    have hn : middle < n := by
      by_contra hle
      have := hbehind middle (Nat.le_of_not_lt hle) (by omega)
      omega
    exact ih hn hhigh hbehind
  | case2 low high hless middle hmiddle ih =>
    have hn : n ≤ middle := by
      by_contra hlt
      exact hmiddle (hbefore middle (Nat.lt_of_not_le hlt))
    exact ih hlow hn fun i hi him => hbehind i hi (by omega)
  | case3 low high hless => omega

/-- The line of an offset is the number of line starts that are not behind it. -/
theorem lineOf_eq_length {lines : LineIndex} {offset : Nat} {before behind : List Nat}
    (hstarts : lines.starts.toList = before ++ behind) (hbefore : ∀ n ∈ before, n ≤ offset)
    (hbehind : ∀ n ∈ behind, offset < n) : lines.lineOf offset = before.length := by
  have hsize : lines.starts.size = before.length + behind.length := by
    rw [← Array.length_toList, hstarts, List.length_append]
  have hget (i : Nat) : lines.starts.getD i 0 = ((before ++ behind)[i]?).getD 0 := by
    rw [← hstarts, Array.getElem?_toList, Array.getD_eq_getD_getElem?]
  refine search_eq (Nat.zero_le _) (by omega) (fun i hi => ?_) fun i hi hless => ?_
  · rw [hget, List.getElem?_append_left hi, List.getElem?_eq_getElem hi, Option.getD_some]
    exact hbefore _ (List.getElem_mem hi)
  · have hi' : i - before.length < behind.length := by omega
    rw [hget, List.getElem?_append_right hi, List.getElem?_eq_getElem hi', Option.getD_some]
    exact hbehind _ (List.getElem_mem hi')

/-- The line of an offset between two characters is one more than the number of line feeds before
it. -/
theorem lineOf_ofChars_append (before after : List Char) :
    (ofChars (before ++ after)).lineOf (utf8Length before) = 1 + before.count '\n' := by
  have hstarts : (ofChars (before ++ after)).starts.toList =
      (0 :: lineStartsFrom 0 before) ++ lineStartsFrom (utf8Length before) after := by
    rw [ofChars, List.toList_toArray, lineStartsFrom_append, Nat.zero_add, List.cons_append]
  rw [lineOf_eq_length hstarts, List.length_cons, length_lineStartsFrom, Nat.add_comm]
  · rintro n (_ | ⟨_, hn⟩)
    · exact Nat.zero_le _
    · simpa using (bounds_of_mem_lineStartsFrom hn).2
  · exact fun n hn => (bounds_of_mem_lineStartsFrom hn).1

/-- There is one line more than there are line feeds. -/
theorem lineCount_ofChars (source : List Char) :
    (ofChars source).lineCount = 1 + source.count '\n' := by
  rw [lineCount, ofChars, List.size_toArray, List.length_cons, length_lineStartsFrom, Nat.add_comm]

end LineIndex

end CrudLang
