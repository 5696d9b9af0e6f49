import CrudLang.Token.Basic

/-!
# Runs of tokens

A run of tokens has the span from the start of its first token to the end of its last one. Where
tokens are in order (`Ordered`), a part of a run has its span inside that of the run
(`Ordered.start_le_start`, `Ordered.stop_le_stop`), and two runs one behind the other have theirs
one behind the other (`Ordered.stop_le_start`). Joined, these give the span of the run from the one
to the other (`Ordered.join_spanOfRun`).
-/

namespace CrudLang

section Ends

variable {run first last : List Token}

/-- A run starts where its first token does. -/
theorem start_spanOfRun (hrun : run ≠ []) : (spanOfRun run).start = (run.head hrun).span.start := by
  cases run with
  | nil => exact absurd rfl hrun
  | cons => rfl

/-- A run ends where its last token does. -/
theorem stop_spanOfRun (hrun : run ≠ []) : (spanOfRun run).stop = (run.getLast hrun).span.stop := by
  cases run with
  | nil => exact absurd rfl hrun
  | cons => rfl

/-- Tokens behind a run do not move its start. -/
theorem start_spanOfRun_append (hfirst : first ≠ []) (last : List Token) :
    (spanOfRun (first ++ last)).start = (spanOfRun first).start := by
  rw [start_spanOfRun (List.append_ne_nil_of_left_ne_nil hfirst last), start_spanOfRun hfirst,
    List.head_append_of_ne_nil]

/-- Tokens before a run do not move its end. -/
theorem stop_spanOfRun_append (first : List Token) (hlast : last ≠ []) :
    (spanOfRun (first ++ last)).stop = (spanOfRun last).stop := by
  rw [stop_spanOfRun (List.append_ne_nil_of_right_ne_nil first hlast), stop_spanOfRun hlast,
    List.getLast_append_of_ne_nil]

end Ends

/-- The tokens stand one behind the other, and none of them is empty. -/
structure Ordered (run : List Token) : Prop where
  apart : run.Pairwise fun t u => t.span.stop ≤ u.span.start
  width : ∀ t ∈ run, t.span.start < t.span.stop

namespace Ordered

variable {run part first gap last : List Token}

/-- Tokens picked from an ordered run are in order. -/
theorem sublist (h : Ordered run) (hpart : part.Sublist run) : Ordered part where
  apart := h.apart.sublist hpart
  width t ht := h.width t (hpart.subset ht)

/-- A run does not start behind one of its tokens. -/
theorem start_le {t : Token} (h : Ordered run) (ht : t ∈ run) :
    (spanOfRun run).start ≤ t.span.start := by
  obtain ⟨first, rest, rfl⟩ := List.exists_cons_of_ne_nil (List.ne_nil_of_mem ht)
  rcases List.mem_cons.1 ht with rfl | ht
  · exact Nat.le_refl _
  · -- the first token ends before each of the others begins
    have hwidth := h.width first List.mem_cons_self
    exact Nat.le_trans (Nat.le_of_lt hwidth) (List.rel_of_pairwise_cons h.apart ht)

/-- A run does not stop before one of its tokens. -/
theorem le_stop {t : Token} (h : Ordered run) (ht : t ∈ run) :
    t.span.stop ≤ (spanOfRun run).stop := by
  have hne := List.ne_nil_of_mem ht
  rw [stop_spanOfRun hne]
  -- each of the others ends before the last token begins
  rw [← List.dropLast_concat_getLast hne] at ht h
  rcases List.mem_append.1 ht with ht | ht
  · have hwidth := h.width _ (List.mem_append_right _ List.mem_cons_self)
    have hle := (List.pairwise_append.1 h.apart).2.2 t ht _ List.mem_cons_self
    exact Nat.le_trans hle (Nat.le_of_lt hwidth)
  · obtain rfl := List.mem_singleton.1 ht
    exact Nat.le_refl _

/-- No part of a run starts before it. -/
theorem start_le_start (h : Ordered run) (hpart : part.Sublist run) (hne : part ≠ []) :
    (spanOfRun run).start ≤ (spanOfRun part).start := by
  rw [start_spanOfRun hne]
  exact h.start_le (hpart.subset (List.head_mem hne))

/-- No part of a run ends behind it. -/
theorem stop_le_stop (h : Ordered run) (hpart : part.Sublist run) (hne : part ≠ []) :
    (spanOfRun part).stop ≤ (spanOfRun run).stop := by
  rw [stop_spanOfRun hne]
  exact h.le_stop (hpart.subset (List.getLast_mem hne))

/-- The span of an ordered run is not empty. -/
theorem start_lt_stop (h : Ordered run) (hne : run ≠ []) :
    (spanOfRun run).start < (spanOfRun run).stop := by
  have hmem := List.head_mem hne
  exact Nat.lt_of_le_of_lt (h.start_le hmem) (Nat.lt_of_lt_of_le (h.width _ hmem) (h.le_stop hmem))

/-- Of two runs one behind the other, the first stops before the second starts. -/
theorem stop_le_start (h : Ordered (first ++ last)) (hfirst : first ≠ []) (hlast : last ≠ []) :
    (spanOfRun first).stop ≤ (spanOfRun last).start := by
  rw [stop_spanOfRun hfirst, start_spanOfRun hlast]
  exact (List.pairwise_append.1 h.apart).2.2 _ (List.getLast_mem hfirst) _ (List.head_mem hlast)

/-- The spans of two runs are joined to that of the run from the one to the other. -/
theorem join_spanOfRun (h : Ordered (first ++ gap ++ last)) (hfirst : first ≠ [])
    (hlast : last ≠ []) :
    (spanOfRun first).join (spanOfRun last) = spanOfRun (first ++ gap ++ last) := by
  -- the gap does not matter, since none of its ends is an end of the joined span
  have hends : Ordered (first ++ last) := by
    refine h.sublist ?_
    rw [List.append_assoc]
    exact (List.sublist_append_right gap last).append_left first
  have hbehind := hends.stop_le_start hfirst hlast
  have hfirstWidth := (hends.sublist (List.sublist_append_left first last)).start_lt_stop hfirst
  have hlastWidth := (hends.sublist (List.sublist_append_right first last)).start_lt_stop hlast
  have hstart : (spanOfRun (first ++ gap ++ last)).start = (spanOfRun first).start := by
    rw [List.append_assoc, start_spanOfRun_append hfirst]
  have hstop : (spanOfRun (first ++ gap ++ last)).stop = (spanOfRun last).stop :=
    stop_spanOfRun_append _ hlast
  rw [Span.join, Nat.min_eq_left (by omega), Nat.max_eq_right (by omega), ← hstart, ← hstop]

end Ordered

end CrudLang
