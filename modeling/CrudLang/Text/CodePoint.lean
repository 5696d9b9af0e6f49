/-!
# Ranges of code points

A property of characters is given as an ascending list of closed ranges of code points;
`CodePoint.within` looks a character up in such a list. The tables themselves have modules of
their own, one a property.
-/

namespace CrudLang.CodePoint

/-- Whether a code point lies in one of the ascending, closed ranges; the search ends at the first
range that begins behind it. -/
def within (code : Nat) : List (Nat × Nat) → Bool
  | [] => false
  | (low, high) :: rest => low ≤ code && (code ≤ high || within code rest)

/-- The ranges ascend and keep apart. -/
def Ascending : List (Nat × Nat) → Prop
  | [] => True
  | [(low, high)] => low ≤ high
  | (low, high) :: (low', high') :: rest =>
    low ≤ high ∧ high < low' ∧ Ascending ((low', high') :: rest)

instance decidableAscending : (ranges : List (Nat × Nat)) → Decidable (Ascending ranges)
  | [] => .isTrue trivial
  | [(low, high)] => inferInstanceAs (Decidable (low ≤ high))
  | (low, high) :: (low', high') :: rest =>
    have : Decidable (Ascending ((low', high') :: rest)) := decidableAscending _
    inferInstanceAs (Decidable (low ≤ high ∧ high < low' ∧ Ascending ((low', high') :: rest)))

/-- Every range after the first of an ascending list begins behind the end of the first. -/
theorem lt_of_mem_of_ascending {low high : Nat} {rest : List (Nat × Nat)}
    (h : Ascending ((low, high) :: rest)) {range : Nat × Nat} (hmem : range ∈ rest) :
    low ≤ high ∧ high < range.1 := by
  induction rest generalizing low high with
  | nil => simp at hmem
  | cons next rest ih =>
    obtain ⟨low', high'⟩ := next
    obtain ⟨hle, hlt, hrest⟩ := h
    rcases List.mem_cons.1 hmem with rfl | hmem
    · exact ⟨hle, hlt⟩
    · have := ih hrest hmem
      exact ⟨hle, by omega⟩

/-- In an ascending list the search finds exactly the code points of its ranges. -/
theorem within_eq_true_iff {code : Nat} {ranges : List (Nat × Nat)} (h : Ascending ranges) :
    within code ranges = true ↔ ∃ range ∈ ranges, range.1 ≤ code ∧ code ≤ range.2 := by
  induction ranges with
  | nil => simp [within]
  | cons first rest ih =>
    obtain ⟨low, high⟩ := first
    have hrest : Ascending rest := by
      cases rest with
      | nil => trivial
      | cons next rest => exact h.2.2
    simp only [within, Bool.and_eq_true, decide_eq_true_eq, Bool.or_eq_true, ih hrest,
      List.mem_cons, exists_eq_or_imp]
    constructor
    · rintro ⟨hlow, hhigh | hmem⟩
      · exact .inl ⟨hlow, hhigh⟩
      · exact .inr hmem
    · rintro (⟨hlow, hhigh⟩ | ⟨range, hmem, hlow, hhigh⟩)
      · exact ⟨hlow, .inl hhigh⟩
      · -- a range further on begins behind this one
        have := lt_of_mem_of_ascending h hmem
        exact ⟨by omega, .inr ⟨range, hmem, hlow, hhigh⟩⟩

end CrudLang.CodePoint
