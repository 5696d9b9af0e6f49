import CrudLang.Proofs.Comparison.Statements
import CrudLang.Proofs.Parser.Correspondence

/-!
# Inputs with corresponding places

An `Alignment` relates places in one input to places in another one, such that which of two places
is further on is the same in both inputs (`lt_iff`), and such that at two corresponding places there
stands the same or nothing that is read (`head_cases`). Two readers are in step if they begin at
corresponding places and read alike values up to corresponding places, or fail at corresponding
places (`Alignment.InStepOn`).

The inputs need not correspond up to their ends. Where fewer than `limit` tokens are left in the
first one, the second one may be different, so once the first reader has got there, nothing is said
about the second one; but the first reader never forgets that it has been there (`Alignment.Lost`).

All combinators keep readers in step (`Alignment.simulation`), and so does recovery from failures,
unless there is a limit that could be forgotten (`Alignment.recovery`).
-/

namespace CrudLang

open Grammar CrudLang.Parser

/-- At the head of the input there is nothing but perhaps a refused token. -/
def Input.AtRefused (Refused : TokenKind → Prop) (a : Input) : Prop :=
  ∀ token rest, a.tokens = token :: rest → Refused token.kind

/-- A correspondence between the places of two inputs. -/
structure Alignment (L : Likeness) where
  /-- The places correspond. -/
  Inputs : Input → Input → Prop
  /-- The tokens at which the inputs may part. -/
  Refused : TokenKind → Prop
  /-- Where fewer tokens are left in the first input, it need not correspond to the second one. -/
  limit : Nat
  /-- Which of two places is further on is the same in both inputs. -/
  lt_iff {a b a' b' : Input} : Inputs a b → Inputs a' b' → (a.size < a'.size ↔ b.size < b'.size)
  /-- The same stands at corresponding places, unless it is refused. -/
  head_cases {a b : Input} : Inputs a b →
    (∃ t u a' b', a.tokens = t :: a'.tokens ∧ b.tokens = u :: b'.tokens ∧ t.kind = u.kind ∧
      (Inputs a' b' ∨ a'.size < limit)) ∨ a.AtRefused Refused ∧ b.AtRefused Refused
  /-- What is read between corresponding places has alike spans. -/
  span_run {a b a' b' : Input} : Inputs a b → Inputs a' b' → a'.size ≤ a.size →
    L.span (spanOfRun (a.tokens.take (a.size - a'.size)))
      (spanOfRun (b.tokens.take (b.size - b'.size)))

namespace Alignment

variable {L : Likeness} (W : Alignment L)

/-- Tokens of the same kind stand at the two places, and behind them the places correspond again,
unless the inputs need not correspond there. -/
def Common (a b : Input) : Prop :=
  ∃ t u a' b', a.tokens = t :: a'.tokens ∧ b.tokens = u :: b'.tokens ∧ t.kind = u.kind ∧
    (W.Inputs a' b' ∨ a'.size < W.limit)

/-- The failures are at corresponding places, and the same was expected there. -/
structure Failures (f g : Failure) : Prop where
  rest : W.Inputs f.rest g.rest
  expected : f.expected = g.expected

/-- The same is pending at two places, unless it is behind us. -/
def Pendings (a b : Input) (p q : Option Failure) : Prop :=
  (∃ f g, p = some f ∧ q = some g ∧ W.Failures f g) ∨
    (PendingBefore a.tokens p ∧ PendingBefore b.tokens q)

/-- Reading goes on from corresponding places, with the same failures. -/
structure States (s t : State) : Prop where
  rest : W.Inputs s.rest t.rest
  pending : W.Pendings s.rest t.rest s.pending t.pending
  reported : List.Forall₂ W.Failures s.reported t.reported

/-- The reader has been where the inputs need not correspond. -/
def Beyond (s : State) : Prop :=
  s.rest.size < W.limit ∨ ∃ f, s.pending = some f ∧ f.rest.size < W.limit

/-- The reader has got to where the inputs need not correspond. -/
def Lost {α : Type} : Reply α → Prop
  | .ok _ s => W.Beyond s
  | .fail f => f.rest.size < W.limit

/-- The readers fail likewise, or they read alike values, not before the place `a`, or the first one
is lost. -/
inductive Replies (a : Input) {α : Type} (V : α → α → Prop) : Reply α → Reply α → Prop
  | ok {v w s t} : V v w → W.States s t → s.rest.size ≤ a.size → Replies a V (.ok v s) (.ok w t)
  | fail {f g} : W.Failures f g → f.rest.size ≤ a.size → Replies a V (.fail f) (.fail g)
  | lost {x y} : W.Lost x → Replies a V x y

/-- From corresponding places of which the first one has the property, the readers stay in step. The
first one moves forward and reads a value that is like some other one, and if it was lost, then it
remains lost. -/
structure InStepOn (P : Input → Prop) {α : Type} (V : α → α → Prop) (p q : Parser α) : Prop where
  step : ∀ s t, W.States s t → P s.rest → W.Replies s.rest V (p s) (q t)
  yields : ∀ s v s', P s.rest → p s = .ok v s' → (∃ w, V v w) ∧ s'.rest.size ≤ s.rest.size
  stick : ∀ s, W.Beyond s → P s.rest → W.Lost (p s)

/-- The readers stay in step where fewer than `n` tokens are left in the first input. -/
def InStep (n : Nat) {α : Type} (V : α → α → Prop) (p q : Parser α) : Prop :=
  W.InStepOn (fun a => a.size < n) V p q

variable {W}

/-- Failures at corresponding places remain at corresponding places. -/
def correspondence (W : Alignment L) : Correspondence :=
  ⟨W.Inputs, W.lt_iff⟩

section Pending

variable {a b a' b' : Input} {f g : Failure} {p q p' q' : Option Failure}

/-- Failures correspond as in any correspondence of places. -/
theorem failures_iff : W.Failures f g ↔ W.correspondence.Failures f g :=
  ⟨fun h => ⟨h.rest, h.expected⟩, fun h => ⟨h.rest, h.expected⟩⟩

/-- So do pending failures, those behind us aside. -/
theorem pendings_iff : W.Pendings a b p q ↔ W.correspondence.Pendings a b p q := by
  simp only [Pendings, Correspondence.Pendings, failures_iff]

/-- Whether one of two places is at least as far on does not depend on the input. -/
theorem le_iff (h : W.Inputs a b) (h' : W.Inputs a' b') : a.size ≤ a'.size ↔ b.size ≤ b'.size :=
  Correspondence.le_iff (R := W.correspondence) h h'

/-- Failures that correspond still do so under a label. -/
theorem Failures.summarize (h : W.Failures f g) (hab : W.Inputs a b) (c : Construct) :
    W.Failures (f.summarize a c) (g.summarize b c) :=
  failures_iff.2 ((failures_iff.1 h).summarize hab c)

namespace Pendings

/-- Nothing is pending in both. -/
theorem of_none : W.Pendings a b none none :=
  .inr ⟨.none, .none⟩

/-- Failures that correspond may be pending. -/
theorem of_failures (h : W.Failures f g) : W.Pendings a b (some f) (some g) :=
  .inl ⟨f, g, rfl, rfl, h⟩

/-- Further on, what was pending is still the same or is still behind us. -/
theorem mono (h : W.Pendings a b p q) (ha : a'.size ≤ a.size) (hb : b'.size ≤ b.size) :
    W.Pendings a' b' p q :=
  pendings_iff.2 ((pendings_iff.1 h).mono ha hb)

/-- Noting what is expected at corresponding places leaves corresponding failures. -/
theorem note (h : W.Pendings a b p q) (hab : W.Inputs a b) (e : Expectation) :
    W.Failures (.note p a e) (.note q b e) :=
  failures_iff.2 ((pendings_iff.1 h).note hab e)

/-- Joining a failure to what is pending leaves corresponding failures. -/
theorem join (h : W.Pendings a b p q) (hab : W.Inputs a b) (hfg : W.Failures f g)
    (hf : f.rest.size ≤ a.size) : W.Failures (.join p f) (.join q g) :=
  failures_iff.2 ((pendings_iff.1 h).join hab (failures_iff.1 hfg) hf)

/-- What is pending behind a label corresponds again. -/
theorem behind (h : W.Pendings a b p q) (hab : W.Inputs a b) (h' : W.Pendings a' b' p' q')
    (hab' : W.Inputs a' b') (ha : a'.size ≤ a.size) (c : Construct) :
    W.Pendings a' b' (pendingBehind p a c p') (pendingBehind q b c q') :=
  pendings_iff.2 ((pendings_iff.1 h).behind hab (pendings_iff.1 h') hab' ha c)

end Pendings

end Pending

section Lost

variable {α : Type} {V : α → α → Prop} {a a' : Input} {s : State} {x y : Reply α}

/-- Replies that are not before a place are not before an earlier one. -/
theorem Replies.mono (h : W.Replies a V x y) (ha : a.size ≤ a'.size) : W.Replies a' V x y := by
  cases h with
  | ok hv hst hsize => exact .ok hv hst (Nat.le_trans hsize ha)
  | fail hfg hsize => exact .fail hfg (Nat.le_trans hsize ha)
  | lost h => exact .lost h

/-- Failing does not bring a lost reader back. -/
theorem Beyond.note (h : W.Beyond s) (e : Expectation) :
    (Failure.note s.pending s.rest e).rest.size < W.limit := by
  rcases h with h | ⟨f, hf, h⟩
  · exact Nat.lt_of_le_of_lt (Failure.size_note_le _ _ _) h
  · rw [hf]
    exact Nat.lt_of_le_of_lt (Failure.size_note_some_le _ _ _) h

/-- Without a limit, no reader has been beyond it. -/
theorem not_beyond (hlimit : W.limit = 0) (s : State) : ¬ W.Beyond s := by
  rintro (h | ⟨f, -, h⟩) <;> rw [hlimit] at h <;> exact Nat.not_lt_zero _ h

/-- Without a limit, no reader is lost. -/
theorem not_lost (hlimit : W.limit = 0) (x : Reply α) : ¬ W.Lost x := by
  cases x with
  | ok v s => exact not_beyond hlimit s
  | fail f =>
    intro h
    rw [Lost, hlimit] at h
    exact Nat.not_lt_zero _ h

/-- A pending failure beyond the limit shows that the reader has been there. -/
theorem Beyond.of_pending {f : Failure} (h : f.rest.size < W.limit) (rest : Input)
    (reported : List Failure) : W.Beyond ⟨rest, some f, reported⟩ :=
  .inr ⟨f, rfl, h⟩

/-- A reader that is lost is lost with its span. -/
theorem lost_withSpan {p : Parser (Span → α)} (h : W.Lost (p s)) : W.Lost (withSpan p s) := by
  unfold withSpan
  cases hv : p s with
  | fail f =>
    rw [hv] at h
    exact h
  | ok build s' =>
    rw [hv] at h
    exact h

/-- A reader that is lost is lost under a label. -/
theorem lost_labelled {p : Parser α} {c : Construct} (h : W.Lost (p { s with pending := none })) :
    W.Lost (labelled c p s) := by
  cases hv : p { s with pending := none } with
  | fail f =>
    rw [hv] at h
    rw [labelled, hv]
    refine Nat.lt_of_le_of_lt (Failure.size_join_le _ _) ?_
    rw [Failure.rest_summarize]
    exact h
  | ok v s' =>
    rw [hv] at h
    rw [labelled_eq_ok hv]
    -- what is pending inside is joined to what was pending before, and that is not further back
    refine h.imp_right ?_
    rintro ⟨f, hf, hlimit⟩
    rw [hf]
    refine ⟨_, rfl, Nat.lt_of_le_of_lt (Failure.size_join_le _ _) ?_⟩
    rw [Failure.rest_summarize]
    exact hlimit

/-- What was pending before is pending behind, or something further on. -/
theorem lost_labelled_of_pending {p : Parser α} {c : Construct} {f : Failure}
    (hf : s.pending = some f) (hlimit : f.rest.size < W.limit) : W.Lost (labelled c p s) := by
  cases hv : p { s with pending := none } with
  | fail g =>
    rw [labelled, hv, hf]
    exact Nat.lt_of_le_of_lt (Failure.size_join_some_le _ _) hlimit
  | ok v s' =>
    rw [labelled_eq_ok hv, hf]
    refine .inr ?_
    cases s'.pending with
    | none => exact ⟨f, rfl, hlimit⟩
    | some g => exact ⟨_, rfl, Nat.lt_of_le_of_lt (Failure.size_join_some_le _ _) hlimit⟩

end Lost

namespace InStepOn

variable {α β : Type} {P Q : Input → Prop} {V : α → α → Prop} {V' : β → β → Prop}
variable {p q : Parser α}

/-- Readers that are in step from some places are so from fewer of them. -/
theorem mono (h : W.InStepOn P V p q) (hQ : ∀ a, Q a → P a) : W.InStepOn Q V p q where
  step s t hst hs := h.step s t hst (hQ _ hs)
  yields s v s' hs := h.yields s v s' (hQ _ hs)
  stick s hbeyond hs := h.stick s hbeyond (hQ _ hs)

/-- Values that are alike, read without moving. -/
theorem pure {v w : α} (h : V v w) : W.InStepOn P V (Pure.pure v) (Pure.pure w) where
  step _ _ hst _ := .ok h hst (Nat.le_refl _)
  yields s v s' _ hs := by
    obtain ⟨rfl, rfl⟩ := of_pure_eq_ok hs
    exact ⟨⟨w, h⟩, Nat.le_refl _⟩
  stick _ hbeyond _ := hbeyond

/-- First one thing and then another one, where the first one leads. -/
theorem bind_on {f g : α → Parser β} (h : W.InStepOn P V p q)
    (hnext : ∀ s v s', P s.rest → p s = .ok v s' → s'.rest.size ≤ s.rest.size → Q s'.rest)
    (hfg : ∀ v w, V v w → W.InStepOn Q V' (f v) (g w)) :
    W.InStepOn P V' (p >>= f) (q >>= g) := by
  have hthen (s : State) (v : α) (s' : State) (hs : P s.rest) (hv : p s = .ok v s') :
      (∃ w, W.InStepOn Q V' (f v) (g w)) ∧ s'.rest.size ≤ s.rest.size ∧ Q s'.rest := by
    obtain ⟨⟨w, hw⟩, hsize⟩ := h.yields s v s' hs hv
    exact ⟨⟨w, hfg v w hw⟩, hsize, hnext s v s' hs hv hsize⟩
  -- once the first part is lost, so is the second one
  have hlost (s : State) (hs : P s.rest) (hlost : W.Lost (p s)) : W.Lost ((p >>= f) s) := by
    rw [bind_apply]
    cases hv : p s with
    | fail e =>
      rw [hv] at hlost
      exact hlost
    | ok v s' =>
      rw [hv] at hlost
      obtain ⟨⟨w, hf⟩, -, hQ⟩ := hthen s v s' hs hv
      exact hf.stick s' hlost hQ
  refine ⟨fun s t hst hs => ?_, fun s b u hs hb => ?_,
    fun s hbeyond hs => hlost s hs (h.stick s hbeyond hs)⟩
  · have hreply := h.step s t hst hs
    generalize hv : p s = x at hreply
    generalize hw : q t = y at hreply
    cases hreply with
    | lost h => exact .lost (hlost s hs (hv ▸ h))
    | fail hfailures hsize =>
      rw [bind_apply, bind_apply, hv, hw]
      exact .fail hfailures hsize
    | @ok v w s' t' hvw hst' hsize =>
      rw [bind_apply, bind_apply, hv, hw]
      exact ((hfg v w hvw).step s' t' hst' (hnext s v s' hs hv hsize)).mono hsize
  · obtain ⟨v, s', hv, hb⟩ := of_bind_eq_ok hb
    obtain ⟨⟨w, hf⟩, hsize, hQ⟩ := hthen s v s' hs hv
    obtain ⟨hvalue, hsize'⟩ := hf.yields s' b u hQ hb
    exact ⟨hvalue, Nat.le_trans hsize' hsize⟩

/-- A token is read in step where what stands in the two inputs is read alike. -/
theorem satisfy_alike {read? : TokenKind → Option α} {e : Expectation}
    (hV : ∀ k v, read? k = some v → V v v)
    (hread : ∀ a b, P a → W.Inputs a b →
      (∃ t u a' b', a.tokens = t :: a'.tokens ∧ b.tokens = u :: b'.tokens ∧
        read? t.kind = read? u.kind ∧ (W.Inputs a' b' ∨ a'.size < W.limit)) ∨
      (∀ token rest, a.tokens = token :: rest → read? token.kind = none) ∧
        ∀ token rest, b.tokens = token :: rest → read? token.kind = none) :
    W.InStepOn P V (Parser.satisfy read? e) (Parser.satisfy read? e) where
  step s t hst hs := by
    have hfail : W.Replies s.rest V (unexpected e s) (unexpected e t) :=
      .fail (hst.pending.note hst.rest e) (Failure.size_note_le _ _ _)
    rcases hread _ _ hs hst.rest with ⟨token, token', a', b', ha, hb, halike, hrest⟩ | ⟨ha, hb⟩
    · have hsize := Input.size_of_tokens_eq_cons ha
      have hsize' := Input.size_of_tokens_eq_cons hb
      rw [satisfy_apply_cons read? e ha, satisfy_apply_cons read? e hb, ← halike]
      cases hv : read? token.kind with
      | none => exact hfail
      | some v =>
        have hless : a'.size ≤ s.rest.size := by omega
        rcases hrest with hrest | hlimit
        · exact .ok (hV _ v hv) ⟨hrest, hst.pending.mono hless (by dsimp only; omega),
            hst.reported⟩ hless
        · exact .lost (.inl hlimit)
    · -- where the inputs part, no token is read
      rw [satisfy_eq_unexpected ha, satisfy_eq_unexpected hb]
      exact hfail
  yields s v s' _ hs := by
    obtain ⟨token, -, hv, -⟩ := of_satisfy_eq_ok hs
    exact ⟨⟨v, hV _ v hv⟩, Nat.le_of_lt (Consumes.satisfy s v s' hs)⟩
  stick s hbeyond _ := by
    cases hs : Parser.satisfy read? e s with
    | fail f =>
      rw [of_satisfy_eq_fail hs]
      exact hbeyond.note e
    | ok v s' =>
      have hsize := Consumes.satisfy s v s' hs
      rcases hbeyond with hrest | ⟨f, hf, hlimit⟩
      · exact .inl (Nat.lt_trans hsize hrest)
      · exact .inr ⟨f, (pending_of_satisfy_eq_ok hs).trans hf, hlimit⟩

/-- A token is read in step where the same stands in both inputs or nothing that is read. -/
theorem satisfy_on {read? : TokenKind → Option α} {e : Expectation}
    (hV : ∀ k v, read? k = some v → V v v)
    (hread : ∀ a b, P a → W.Inputs a b → W.Common a b ∨
      (∀ token rest, a.tokens = token :: rest → read? token.kind = none) ∧
        ∀ token rest, b.tokens = token :: rest → read? token.kind = none) :
    W.InStepOn P V (Parser.satisfy read? e) (Parser.satisfy read? e) :=
  satisfy_alike hV fun a b ha hab => (hread a b ha hab).imp_left
    fun ⟨t, u, a', b', htokens, hus, hkind, hrest⟩ =>
      ⟨t, u, a', b', htokens, hus, by rw [hkind], hrest⟩

/-- The second reader of a choice need only stay in step where the first one fails. -/
theorem orElse_on {p' q' : Parser α} (h : W.InStepOn P V p q)
    (hfail : ∀ s f, P s.rest → p s = .fail f → Q s.rest) (h' : W.InStepOn Q V p' q') :
    W.InStepOn P V (Parser.orElse p p') (Parser.orElse q q') := by
  -- a lost reader that fails passes that on to the second one
  have hlost (s : State) (hs : P s.rest) (hlost : W.Lost (p s)) :
      W.Lost (Parser.orElse p p' s) := by
    unfold Parser.orElse
    cases hv : p s with
    | ok v s' =>
      rw [hv] at hlost
      exact hlost
    | fail f =>
      rw [hv] at hlost
      exact h'.stick _ (.of_pending hlost _ _) (hfail s f hs hv)
  refine ⟨fun s t hst hs => ?_, fun s v u hs hv => ?_,
    fun s hbeyond hs => hlost s hs (h.stick s hbeyond hs)⟩
  · have hreply := h.step s t hst hs
    generalize hv : p s = x at hreply
    generalize hw : q t = y at hreply
    cases hreply with
    | lost h => exact .lost (hlost s hs (hv ▸ h))
    | ok hvw hst' hsize =>
      rw [Parser.orElse, Parser.orElse, hv, hw]
      exact .ok hvw hst' hsize
    | @fail f g hfailures _ =>
      -- both go back to where they began, with the failures pending
      rw [Parser.orElse, Parser.orElse, hv, hw]
      exact h'.step { s with pending := some f } { t with pending := some g }
        ⟨hst.rest, .of_failures hfailures, hst.reported⟩ (hfail s f hs hv)
  · rcases of_orElse_eq_ok hv with hv | ⟨f, hf, hv⟩
    · exact h.yields s v u hs hv
    · exact h'.yields { s with pending := some f } v u (hfail s f hs hf) hv

/-- A choice stays in step if all that is chosen from does. -/
theorem choice {first : Parser α} {others : List (Parser α)}
    (h : ∀ q ∈ first :: others, W.InStepOn P V q q) :
    W.InStepOn P V (Parser.choice first others) (Parser.choice first others) :=
  choice_of_forall (Q := fun p => W.InStepOn P V p p)
    (fun hp hq => hp.orElse_on (fun _ _ hs _ => hs) hq) h

/-- What is built from alike spans is alike. -/
theorem withSpan {p q : Parser (Span → α)} (h : W.InStepOn P (L.built V) p q) :
    W.InStepOn P V (Parser.withSpan p) (Parser.withSpan q) := by
  refine ⟨fun s t hst hs => ?_, fun s v u hs hv => ?_,
    fun s hbeyond hs => lost_withSpan (h.stick s hbeyond hs)⟩
  · have hreply := h.step s t hst hs
    generalize hv : p s = x at hreply
    generalize hw : q t = y at hreply
    cases hreply with
    | lost h => exact .lost (lost_withSpan (hv ▸ h))
    | fail hfailures hsize =>
      rw [Parser.withSpan, Parser.withSpan, hv, hw]
      exact .fail hfailures hsize
    | ok hvw hst' hsize =>
      -- the spans are those of what was read between corresponding places
      rw [Parser.withSpan, Parser.withSpan, hv, hw]
      exact .ok (hvw _ _ (W.span_run hst.rest hst'.rest hsize)) hst' hsize
  · obtain ⟨build, hbuild, rfl⟩ := of_withSpan_eq_ok hv
    exact (h.yields s build u hs hbuild).imp_left fun h => Likeness.built.exists h _

/-- A label changes the failures at both places in the same way. -/
theorem labelled {c : Construct} (h : W.InStepOn P V p q) :
    W.InStepOn P V (Parser.labelled c p) (Parser.labelled c q) := by
  refine ⟨fun s t hst hs => ?_, fun s v u hs hv => ?_, fun s hbeyond hs => ?_⟩
  · have hreply := h.step { s with pending := none } { t with pending := none }
      ⟨hst.rest, .of_none, hst.reported⟩ hs
    generalize hv : p { s with pending := none } = x at hreply
    generalize hw : q { t with pending := none } = y at hreply
    cases hreply with
    | lost h => exact .lost (lost_labelled (hv ▸ h))
    | fail hfailures hsize =>
      -- a construct that fails may be named in the failure, and joins it to what was pending before
      rw [Parser.labelled, Parser.labelled, hv, hw]
      rw [← Failure.rest_summarize s.rest c] at hsize
      exact .fail (hst.pending.join hst.rest (hfailures.summarize hst.rest c) hsize)
        (Nat.le_trans (Failure.size_join_le _ _) hsize)
    | ok hvw hst' hsize =>
      rw [labelled_eq_ok hv, labelled_eq_ok hw]
      exact .ok hvw ⟨hst'.rest, hst.pending.behind hst.rest hst'.pending hst'.rest hsize c,
        hst'.reported⟩ hsize
  · obtain ⟨u', hu', rfl⟩ := of_labelled_eq_ok hv
    exact h.yields { s with pending := none } v u' hs hu'
  · rcases hbeyond with hrest | ⟨f, hf, hlimit⟩
    · exact lost_labelled (h.stick _ (.inl hrest) hs)
    · exact lost_labelled_of_pending hf hlimit

/-- If the inputs correspond up to their ends, recovery keeps the readers in step. -/
theorem recoverWith {r r' : Parser α} (hlimit : W.limit = 0) (h : W.InStepOn P V p q)
    (hr : W.InStepOn P V r r') :
    W.InStepOn P V (Parser.recoverWith p r) (Parser.recoverWith q r') where
  step s t hst hs := by
    have hreply := h.step s t hst hs
    have hrecovery := hr.step { s with pending := none } { t with pending := none }
      ⟨hst.rest, .of_none, hst.reported⟩ hs
    unfold Parser.recoverWith
    generalize p s = x at hreply
    generalize q t = y at hreply
    cases hreply with
    | lost h => exact absurd h (not_lost hlimit _)
    | ok hvw hst' hsize => exact .ok hvw hst' hsize
    | @fail f g hfailures hsize =>
      dsimp only
      generalize r { s with pending := none } = x at hrecovery
      generalize r' { t with pending := none } = y at hrecovery
      cases hrecovery with
      | lost h => exact absurd h (not_lost hlimit _)
      | fail => exact .fail hfailures hsize
      | ok hvw hst' hsize' =>
        -- the failures that are recovered from are reported
        have hreported := List.rel_append hst'.reported (.cons hfailures .nil)
        exact .ok hvw ⟨hst'.rest, hst'.pending, hreported⟩ hsize'
  yields s v u hs hv := by
    rcases of_recoverWith_eq_ok hv with hp | ⟨f, u', -, hr', rfl⟩
    · exact h.yields s v u hs hp
    · exact hr.yields { s with pending := none } v u' hs hr'
  stick s hbeyond _ := absurd hbeyond (not_beyond hlimit s)

end InStepOn

section InStep

variable {α β : Type} {V : α → α → Prop} {V' : β → β → Prop} {p q : Parser α} {n : Nat}

/-- One reader behind another: behind the first, fewer tokens are left or as many. -/
theorem InStep.bind {f g : α → Parser β} (h : W.InStep n V p q)
    (hfg : ∀ v w, V v w → W.InStep n V' (f v) (g w)) : W.InStep n V' (p >>= f) (q >>= g) :=
  h.bind_on (fun _ _ _ hs _ hle => Nat.lt_of_le_of_lt hle hs) hfg

/-- A token that is not refused stands at both places, or there are refused ones at both. -/
theorem InStep.satisfy {read? : TokenKind → Option α} {e : Expectation}
    (hread : Refuses W.Refused read?) (hV : ∀ k v, read? k = some v → V v v) :
    W.InStep n V (Parser.satisfy read? e) (Parser.satisfy read? e) :=
  .satisfy_on hV fun _ _ _ hab => (W.head_cases hab).imp_right fun h =>
    ⟨fun token rest ha => hread _ (h.1 token rest ha),
      fun token rest hb => hread _ (h.2 token rest hb)⟩

/-- Behind a token there is less input. -/
theorem InStep.read {read? : TokenKind → Option α} {e : Expectation} {f g : α → Parser β}
    (hread : Refuses W.Refused read?) (hV : ∀ k v, read? k = some v → V v v)
    (hfg : ∀ v w, V v w → W.InStep n V' (f v) (g w)) :
    W.InStep (n + 1) V' (Parser.satisfy read? e >>= f) (Parser.satisfy read? e >>= g) :=
  (InStep.satisfy hread hV).bind_on (fun s v s' hs hv _ =>
    Nat.lt_of_lt_of_le (Consumes.satisfy s v s' hv) (Nat.le_of_lt_succ hs)) hfg

/-- The second alternatives start where the first ones did. -/
theorem InStep.orElse {p' q' : Parser α} (h : W.InStep n V p q) (h' : W.InStep n V p' q') :
    W.InStep n V (Parser.orElse p p') (Parser.orElse q q') :=
  h.orElse_on (fun _ _ hs _ => hs) h'

/-- No place has fewer than no tokens left. -/
theorem InStep.zero : W.InStep 0 V p q where
  step _ _ _ hs := absurd hs (Nat.not_lt_zero _)
  yields _ _ _ hs := absurd hs (Nat.not_lt_zero _)
  stick _ _ hs := absurd hs (Nat.not_lt_zero _)

/-- Repetitions go on in step. -/
theorem InStep.many (hconsumes : Consumes p) (h : W.InStep n V p p) :
    W.InStep n (List.Forall₂ V) (Parser.many p) (Parser.many p) := by
  induction n with
  | zero => exact .zero
  | succ n ih =>
    have hmany := ih (h.mono fun _ ha => Nat.lt_succ_of_lt ha)
    rw [many_eq hconsumes]
    refine InStep.orElse (h.bind_on (Q := fun a => a.size < n) (fun s v s' hs hv _ => ?_)
      fun v w hvw => hmany.bind fun _ _ hrest => .pure (.cons hvw hrest)) (.pure .nil)
    -- behind one round there is less input
    exact Nat.lt_of_lt_of_le (hconsumes s v s' hv) (Nat.le_of_lt_succ hs)

/-- If the inputs correspond up to their ends, it is enough to be in step at corresponding
places. -/
theorem InStep.of_places (hlimit : W.limit = 0) (hV : ∀ v, ∃ w, V v w) (hforward : Forward p)
    (h : W.InStepOn (fun a => a.size < n ∧ ∃ b, W.Inputs a b) V p q) : W.InStep n V p q where
  step s t hst hs := h.step s t hst ⟨hs, t.rest, hst.rest⟩
  yields s v t _ hv := ⟨hV v, hforward s v t hv⟩
  stick s hbeyond _ := absurd hbeyond (not_beyond hlimit s)

/-- Readers that are in step on longer inputs are so on shorter ones. -/
theorem InStep.weaken (h : W.InStep (n + 1) V p q) : W.InStep n V p q :=
  h.mono fun _ ha => Nat.lt_succ_of_lt ha

/-- The combinators keep readers in step. -/
theorem simulation (W : Alignment L) : Simulation L W.Refused (W.InStep) where
  zero := .zero
  weaken h := h.weaken
  pure h := .pure h
  bind h hfg := h.bind hfg
  satisfy hread hV := .satisfy hread hV
  read hread hV hfg := .read hread hV hfg
  orElse h h' := h.orElse h'
  withSpan h := InStepOn.withSpan h
  labelled h := InStepOn.labelled h
  many hconsumes h := .many hconsumes h

/-- Between inputs that correspond up to their ends, the whole grammar keeps readers in step. -/
theorem recovery (W : Alignment L) (hRefused : W.Refused = fun _ => False) (hlimit : W.limit = 0) :
    Recovery L (fun _ => False) (W.InStep) := by
  have S : Simulation L (fun _ => False) W.InStep := hRefused ▸ W.simulation
  exact
    { S.expressionSimulation fun _ h => h.elim with
      operator := fun h => h.elim
      skip := fun _ => S.satisfy (fun _ h => h.elim) fun _ _ _ => trivial
      recoverWith := fun h hr => InStepOn.recoverWith hlimit h hr }

/-- Where recovery keeps readers in step, alike statements are read from corresponding states, up to
corresponding states. -/
theorem exists_statements_eq_ok_of_states {Refused : TokenKind → Prop}
    (hrecovery : Recovery L Refused W.InStep) (hlimit : W.limit = 0) {s t : State}
    (hst : W.States s t) : ∃ stmts stmts' u w,
      statements statement s = .ok stmts u ∧ statements statement t = .ok stmts' w ∧
      List.Forall₂ L.stmt stmts stmts' ∧ W.States u w := by
  -- neither reader fails, and without a limit none is lost
  obtain ⟨stmts, u, hu, -⟩ := exists_statements_eq_ok s
  obtain ⟨stmts', w, hw, -⟩ := exists_statements_eq_ok t
  have hreply := (hrecovery.statements (s.rest.size + 1)).step s t hst (Nat.lt_succ_self _)
  rw [hu, hw] at hreply
  cases hreply with
  | ok hstmts huw _ => exact ⟨stmts, stmts', u, w, hu, hw, hstmts, huw⟩
  | lost h => exact absurd h (not_lost hlimit _)

end InStep

end Alignment

end CrudLang
