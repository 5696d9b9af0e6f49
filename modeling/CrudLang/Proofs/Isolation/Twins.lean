import CrudLang.Proofs.Isolation.Endings
import CrudLang.Proofs.Isolation.Hole
import CrudLang.Proofs.Parser.Correspondence
import Mathlib.Data.List.Forall2

/-!
# Inputs that differ inside a block

`Twins` are two inputs that differ in the content of one block. A place in the one corresponds to a
place in the other if both are before the block or both are behind it. Which of two places is
further on does not depend on the input (`Twins.Inputs.lt_iff`), so neither does what a failure is
joined to (`Twins.correspondence`).

What is pending may be inside the block. It is of no interest then, since wherever reading goes on,
that is further on.
-/

namespace CrudLang

open Grammar

/-- Two inputs that differ in the content of one block. -/
structure Twins where
  /-- The tokens before the block. -/
  before : List Token
  /-- The block in the first input, with the tokens behind it. -/
  first : Hole
  /-- The block in the second input, with the tokens behind it. -/
  second : Hole
  opening_eq : first.opening = second.opening
  closing_eq : first.closing = second.closing
  after_eq : first.after = second.after
  /-- The brace is not that of a class. -/
  headFree : HeadFree (kindsOf before)

namespace Twins

variable (W : Twins)

/-- The places correspond. -/
inductive Inputs : Input → Input → Prop
  | before {a b ts} : ts <:+ W.before → a.tokens = ts ++ W.first.tokens →
      b.tokens = ts ++ W.second.tokens → Inputs a b
  | behind {a} : a.tokens <:+ W.first.after → Inputs a a

/-- The failures are at corresponding places, and the same was expected there. -/
structure Failures (f g : Failure) : Prop where
  rest : W.Inputs f.rest g.rest
  expected : f.expected = g.expected

/-- The same is pending at two places, unless it is behind us. -/
def Pendings (a b : Input) (p q : Option Failure) : Prop :=
  (∃ f g, p = some f ∧ q = some g ∧ W.Failures f g) ∨
    (PendingBefore a.tokens p ∧ PendingBefore b.tokens q)

/-- Reading goes on from corresponding places, with the same failures. -/
structure States (s t : State) : Prop where
  rest : W.Inputs s.rest t.rest
  pending : W.Pendings s.rest t.rest s.pending t.pending
  reported : List.Forall₂ W.Failures s.reported t.reported

variable {W}

/-- What is behind the block is shorter than the block with it, in the first input. -/
theorem after_lt_first : W.first.after.length < W.first.tokens.length := by
  simp [Hole.tokens]
  omega

/-- The same in the second input, behind whose block the same tokens stand. -/
theorem after_lt_second : W.first.after.length < W.second.tokens.length := by
  rw [W.after_eq]
  simp [Hole.tokens]
  omega

namespace Inputs

variable {a b a' b' : Input}

/-- Which of two places is further on is the same in both inputs. -/
theorem lt_iff (h : W.Inputs a b) (h' : W.Inputs a' b') : a.size < a'.size ↔ b.size < b'.size := by
  have hfirst := W.after_lt_first
  have hsecond := W.after_lt_second
  -- in front of the block as many tokens stand before it; behind it the places are the same
  cases h with
  | before _ ha hb =>
    rw [← a.size_eq, ← b.size_eq, ha, hb, List.length_append, List.length_append]
    cases h' with
    | before _ ha' hb' =>
      rw [← a'.size_eq, ← b'.size_eq, ha', hb', List.length_append, List.length_append]
      omega
    | behind ha' =>
      have hlength := ha'.length_le
      rw [← a'.size_eq]
      omega
  | behind ha =>
    have hlength := ha.length_le
    rw [← a.size_eq]
    cases h' with
    | before _ ha' hb' =>
      rw [← a'.size_eq, ← b'.size_eq, ha', hb', List.length_append, List.length_append]
      omega
    | behind _ => exact Iff.rfl

end Inputs

/-- The places keep their order, so failures at corresponding places remain at corresponding
places. -/
def correspondence (W : Twins) : Correspondence :=
  ⟨W.Inputs, Inputs.lt_iff⟩

variable {a b a' b' : Input} {f g : Failure} {p q p' q' : Option Failure}

/-- Failures correspond as in any correspondence of places. -/
theorem failures_iff : W.Failures f g ↔ W.correspondence.Failures f g :=
  ⟨fun h => ⟨h.rest, h.expected⟩, fun h => ⟨h.rest, h.expected⟩⟩

/-- So do pending failures, those behind us aside. -/
theorem pendings_iff : W.Pendings a b p q ↔ W.correspondence.Pendings a b p q := by
  simp only [Pendings, Correspondence.Pendings, failures_iff]

/-- Whether two places are the same does not depend on the input. -/
theorem Inputs.eq_iff (h : W.Inputs a b) (h' : W.Inputs a' b') :
    a.size = a'.size ↔ b.size = b'.size :=
  Correspondence.eq_iff (R := W.correspondence) h h'

/-- Failures that correspond still do so under a label. -/
theorem Failures.summarize (h : W.Failures f g) (hab : W.Inputs a b) (c : Construct) :
    W.Failures (f.summarize a c) (g.summarize b c) :=
  failures_iff.2 ((failures_iff.1 h).summarize hab c)

namespace Pendings

/-- Nothing is pending in both. -/
theorem of_none : W.Pendings a b none none :=
  .inr ⟨.none, .none⟩

/-- Failures that correspond may be pending. -/
theorem of_failures (h : W.Failures f g) : W.Pendings a b (some f) (some g) :=
  .inl ⟨f, g, rfl, rfl, h⟩

/-- Further on, what was pending is still the same or is still behind us. -/
theorem mono (h : W.Pendings a b p q) (ha : a'.size ≤ a.size) (hb : b'.size ≤ b.size) :
    W.Pendings a' b' p q :=
  pendings_iff.2 ((pendings_iff.1 h).mono ha hb)

/-- Noting what is expected at corresponding places leaves corresponding failures. -/
theorem note (h : W.Pendings a b p q) (hab : W.Inputs a b) (e : Expectation) :
    W.Failures (.note p a e) (.note q b e) :=
  failures_iff.2 ((pendings_iff.1 h).note hab e)

/-- Joining a failure to what is pending leaves corresponding failures. -/
theorem join (h : W.Pendings a b p q) (hab : W.Inputs a b) (hfg : W.Failures f g)
    (hf : f.rest.size ≤ a.size) : W.Failures (.join p f) (.join q g) :=
  failures_iff.2 ((pendings_iff.1 h).join hab (failures_iff.1 hfg) hf)

/-- What is pending behind a label corresponds again. -/
theorem behind (h : W.Pendings a b p q) (hab : W.Inputs a b) (h' : W.Pendings a' b' p' q')
    (hab' : W.Inputs a' b') (ha : a'.size ≤ a.size) (c : Construct) :
    W.Pendings a' b' (pendingBehind p a c p') (pendingBehind q b c q') :=
  pendings_iff.2 ((pendings_iff.1 h).behind hab (pendings_iff.1 h') hab' ha c)

end Pendings

end Twins

end CrudLang
