import CrudLang.Proofs.Isolation.Confinement

/-!
# Where skipping ends

A statement that cannot be read is skipped up to a place that can be told from the tokens: the first
semicolon, closing brace or keyword of a statement that is not inside of a group of braces.
`landing` is that place for the skipping of further units, and `statementLanding` for the skipping
of a whole statement, whose first unit may be any token but a closing brace.
-/

namespace CrudLang

namespace Grammar

open CrudLang.Parser

/-- What is left when further units have been skipped. -/
def landing : List Token → List Token
  | [] => []
  | t :: ts =>
    if t.kind = .punctuator .leftBrace then
      match _hafter : afterClosing 0 ts with
      | some after => landing after
      | none => []
    else if t.kind ∈ statementBoundaries then t :: ts
    else landing ts
termination_by ts => ts.length
decreasing_by
  · exact Nat.lt_succ_of_lt (length_lt_of_afterClosing _hafter)
  · exact Nat.lt_succ_self _

/-- A token that ends the skipping. -/
def Halts (k : TokenKind) : Prop :=
  k ∈ statementBoundaries ∧ k ≠ .punctuator .leftBrace

instance (k : TokenKind) : Decidable (Halts k) :=
  inferInstanceAs (Decidable (_ ∧ _))

/-- What is left when a statement has been skipped, but for a semicolon behind it. -/
def statementLanding : List Token → List Token
  | [] => []
  | t :: ts =>
    if Halts t.kind ∧ t.kind ≠ .punctuator .rightBrace then landing ts
    else landing (t :: ts)

section Landing

variable {t : Token} {ts after : List Token}

/-- At the end there is nothing to skip. -/
@[simp] theorem landing_nil : landing [] = [] := by
  rw [landing]

/-- A group of braces that is closed is skipped as a whole. -/
theorem landing_closed (ht : t.kind = .punctuator .leftBrace)
    (hafter : afterClosing 0 ts = some after) : landing (t :: ts) = landing after := by
  rw [landing, if_pos ht]
  split
  next after' h =>
    obtain rfl := Option.some.inj (h.symm.trans hafter)
    rfl
  next h => cases h.symm.trans hafter

/-- Behind an opening brace that nothing closes, all is skipped. -/
theorem landing_open (ht : t.kind = .punctuator .leftBrace) (hnone : afterClosing 0 ts = none) :
    landing (t :: ts) = [] := by
  rw [landing, if_pos ht]
  split
  next after h => cases h.symm.trans hnone
  next => rfl

/-- A token that ends the skipping is left. -/
theorem landing_of_halts (ht : Halts t.kind) : landing (t :: ts) = t :: ts := by
  rw [landing, if_neg ht.2, if_pos ht.1]

/-- Any other token is skipped. -/
theorem landing_skipped (ht : t.kind ∉ statementBoundaries) : landing (t :: ts) = landing ts := by
  have hl : t.kind ≠ .punctuator .leftBrace := by
    intro hl
    exact ht (hl ▸ by decide)
  rw [landing, if_neg hl, if_neg ht]

/-- What stands behind a closing brace is a part of what stood before it. -/
theorem afterClosing_suffix {depth : Nat} (h : afterClosing depth ts = some after) :
    after <:+ ts :=
  (Closes.of_eq_some h).suffix

/-- Skipping does not go back. -/
theorem landing_suffix (ts : List Token) : landing ts <:+ ts := by
  fun_induction landing ts with
  | case1 => exact List.suffix_refl _
  | case2 t ts _ after hafter ih =>
    exact ih.trans ((afterClosing_suffix hafter).trans (List.suffix_cons t ts))
  | case3 => exact List.nil_suffix
  | case4 => exact List.suffix_refl _
  | case5 t ts _ _ ih => exact ih.trans (List.suffix_cons t ts)

/-- Skipping does not go back. -/
theorem length_landing_le (ts : List Token) : (landing ts).length ≤ ts.length :=
  (landing_suffix ts).length_le

/-- Skipping ends at the end of the input or at a token that ends it. -/
theorem halts_of_landing (h : landing ts = t :: after) : Halts t.kind := by
  fun_induction landing ts with
  | case1 => cases h
  | case2 t ts _ after hafter ih => exact ih h
  | case3 => cases h
  | case4 t' ts hl hmem =>
    obtain ⟨rfl, -⟩ := List.cons.inj h
    exact ⟨hmem, hl⟩
  | case5 t ts _ _ ih => exact ih h

/-- The first unit may be a semicolon or a keyword. -/
theorem statementLanding_of_halts (ht : Halts t.kind) (hr : t.kind ≠ .punctuator .rightBrace) :
    statementLanding (t :: ts) = landing ts := by
  rw [statementLanding, if_pos ⟨ht, hr⟩]

/-- If it is another token, it is skipped like the further units. -/
theorem statementLanding_of_not_halts (ht : ¬ Halts t.kind) :
    statementLanding (t :: ts) = landing (t :: ts) := by
  rw [statementLanding, if_neg fun h => ht h.1]

/-- A closing brace is never skipped. -/
theorem statementLanding_rightBrace (ht : t.kind = .punctuator .rightBrace) :
    statementLanding (t :: ts) = t :: ts := by
  have hhalts : Halts t.kind := ht ▸ by decide
  rw [statementLanding, if_neg fun h => h.2 ht, landing_of_halts hhalts]

/-- A whole statement is skipped at least as far as further units are. -/
theorem length_statementLanding_le (ts : List Token) :
    (statementLanding ts).length ≤ (landing ts).length := by
  cases ts with
  | nil => simp [statementLanding]
  | cons t ts =>
    rw [statementLanding]
    split
    next h =>
      rw [landing_of_halts h.1]
      exact Nat.le_succ_of_le (length_landing_le ts)
    next => exact Nat.le_refl _

/-- The place where the skipping of a statement ends is not before the statement. -/
theorem length_statementLanding_le_size (a : Input) :
    (statementLanding a.tokens).length ≤ a.size := by
  rw [← a.size_eq]
  exact Nat.le_trans (length_statementLanding_le _) (length_landing_le _)

end Landing

/-- Nothing is pending behind the place where the skipping of a statement ends. -/
def UpToLanding (a : Input) (pending : Option Failure) : Prop :=
  ∀ f, pending = some f → (statementLanding a.tokens).length ≤ f.rest.size

/-- Where nothing is pending, nothing lies behind the landing. -/
theorem UpToLanding.none (a : Input) : UpToLanding a none := by
  intro f hf
  cases hf

end Grammar

end CrudLang
