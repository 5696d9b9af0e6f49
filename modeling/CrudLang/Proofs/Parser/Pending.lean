import CrudLang.Syntax.Parser

/-!
# What is pending

The pending failure is the furthest one so far: another failure replaces it if it is further on
(`Failure.note`, `Failure.join`). What is pending may therefore be behind the place where reading
goes on (`PendingBefore`), and then it no longer matters: the next failure supersedes it.
-/

namespace CrudLang

/-- What is pending, if anything, is further back than the tokens `after`. -/
def PendingBefore (after : List Token) (pending : Option Failure) : Prop :=
  ∀ f, pending = some f → after.length < f.rest.size

/-- A property of what is pending that remains when something fails further back than `after`. -/
def Notes (after : List Token) (P : Option Failure → Prop) : Prop :=
  ∀ pending rest e, P pending → after.length < rest.size → P (some (.note pending rest e))

section Pending

variable {after : List Token}

theorem PendingBefore.none : PendingBefore after none := by
  intro f hf
  cases hf

theorem PendingBefore.mono {after' : List Token} {pending : Option Failure}
    (h : PendingBefore after pending) (hle : after'.length ≤ after.length) :
    PendingBefore after' pending :=
  fun f hf => Nat.lt_of_le_of_lt hle (h f hf)

/-- What is noted takes the place of what was pending further back, it is added to what was pending
at the same place, or what was pending is further on and stays. -/
theorem Failure.note_cases (p : Option Failure) (a : Input) (e : Expectation) :
    (Failure.note p a e = ⟨a, [e]⟩ ∧ PendingBefore a.tokens p) ∨ ∃ f, p = some f ∧
      (a.size = f.rest.size ∧ Failure.note p a e = ⟨f.rest, Expectation.unite f.expected [e]⟩ ∨
        f.rest.size < a.size ∧ Failure.note p a e = f) := by
  cases p with
  | none => exact .inl ⟨rfl, .none⟩
  | some f =>
    -- the more input is left, the further back a failure is
    rcases Nat.lt_trichotomy a.size f.rest.size with hless | heq | hless
    · refine .inl ⟨if_pos hless, fun g hg => ?_⟩
      obtain rfl := Option.some.inj hg
      rwa [a.size_eq]
    · refine .inr ⟨f, rfl, .inl ⟨heq, ?_⟩⟩
      dsimp only [Failure.note]
      rw [if_neg (by omega), if_pos heq]
    · refine .inr ⟨f, rfl, .inr ⟨hless, ?_⟩⟩
      dsimp only [Failure.note]
      rw [if_neg (by omega), if_neg (by omega)]

/-- A later failure takes the place of what was pending further back, the two are united at one
place, or what was pending is further on and stays. -/
theorem Failure.join_cases (p : Option Failure) (g : Failure) :
    (Failure.join p g = g ∧ PendingBefore g.rest.tokens p) ∨ ∃ f, p = some f ∧
      (f.rest.size = g.rest.size ∧
          (Failure.join p g = ⟨f.rest, Expectation.unite f.expected g.expected⟩ ∨
            Failure.join p g = ⟨f.rest, Expectation.unite g.expected f.expected⟩) ∨
        f.rest.size < g.rest.size ∧ Failure.join p g = f) := by
  cases p with
  | none => exact .inl ⟨rfl, .none⟩
  | some f =>
    rcases Nat.lt_trichotomy g.rest.size f.rest.size with hless | heq | hless
    · refine .inl ⟨if_pos hless, fun f' hf' => ?_⟩
      obtain rfl := Option.some.inj hf'
      rwa [g.rest.size_eq]
    · refine .inr ⟨f, rfl, .inl ⟨heq.symm, ?_⟩⟩
      dsimp only [Failure.join]
      rw [if_neg (by omega), if_neg (by omega)]
      -- at the same place, the failure with more expectations comes first
      split
      · exact .inr rfl
      · exact .inl rfl
    · refine .inr ⟨f, rfl, .inr ⟨hless, ?_⟩⟩
      dsimp only [Failure.join]
      rw [if_neg (by omega), if_pos hless]

theorem notes_pendingBefore : Notes after (PendingBefore after) := by
  intro pending rest e hpending hrest f hf
  obtain rfl := Option.some.inj hf
  rcases Failure.note_cases pending rest e with ⟨heq, -⟩ | ⟨f, rfl, ⟨-, heq⟩ | ⟨-, heq⟩⟩ <;>
    rw [heq]
  · exact hrest
  · exact hpending f rfl
  · exact hpending f rfl

theorem PendingBefore.of_lt {a : Input} {f : Failure} (h : a.size < f.rest.size) :
    PendingBefore a.tokens (some f) := by
  intro g hg
  obtain rfl := Option.some.inj hg
  rwa [a.size_eq]

/-- A failure that is further back than the input is superseded. -/
theorem Failure.note_of_before {a : Input} {p : Option Failure} (h : PendingBefore a.tokens p)
    (e : Expectation) : Failure.note p a e = ⟨a, [e]⟩ := by
  cases p with
  | none => rfl
  | some f =>
    have hf := h f rfl
    rw [a.size_eq] at hf
    dsimp only [Failure.note]
    rw [if_pos hf]

theorem Failure.size_note_le (p : Option Failure) (a : Input) (e : Expectation) :
    (Failure.note p a e).rest.size ≤ a.size := by
  rcases note_cases p a e with ⟨heq, -⟩ | ⟨f, rfl, ⟨hsize, heq⟩ | ⟨hless, heq⟩⟩
  · exact Nat.le_of_eq (congrArg (·.rest.size) heq)
  · exact Nat.le_of_eq ((congrArg (·.rest.size) heq).trans hsize.symm)
  · exact Nat.le_trans (Nat.le_of_eq (congrArg (·.rest.size) heq)) (Nat.le_of_lt hless)

/-- What is noted is not further back than what was pending. -/
theorem Failure.size_note_some_le (f : Failure) (a : Input) (e : Expectation) :
    (Failure.note (some f) a e).rest.size ≤ f.rest.size := by
  dsimp only [Failure.note]
  split
  next h => exact Nat.le_of_lt h
  next => split <;> exact Nat.le_refl _

/-- What is pending further back than the input is superseded by a failure that is not. -/
theorem Failure.join_of_before {a : Input} {p : Option Failure} {f : Failure}
    (hp : PendingBefore a.tokens p) (hf : f.rest.size ≤ a.size) : Failure.join p f = f := by
  cases p with
  | none => rfl
  | some f' =>
    have hless := hp f' rfl
    rw [a.size_eq] at hless
    dsimp only [Failure.join]
    rw [if_pos (by omega)]

/-- Joined failures are not further back than the later one. -/
theorem Failure.size_join_le (p : Option Failure) (f : Failure) :
    (Failure.join p f).rest.size ≤ f.rest.size := by
  rcases join_cases p f with ⟨heq, -⟩ | ⟨g, rfl, ⟨hsize, heq | heq⟩ | ⟨hless, heq⟩⟩
  · exact Nat.le_of_eq (congrArg (·.rest.size) heq)
  · exact Nat.le_of_eq ((congrArg (·.rest.size) heq).trans hsize)
  · exact Nat.le_of_eq ((congrArg (·.rest.size) heq).trans hsize)
  · exact Nat.le_trans (Nat.le_of_eq (congrArg (·.rest.size) heq)) (Nat.le_of_lt hless)

/-- Joined failures are not further back than what was pending. -/
theorem Failure.size_join_some_le (f g : Failure) :
    (Failure.join (some f) g).rest.size ≤ f.rest.size := by
  dsimp only [Failure.join]
  split
  next h => exact Nat.le_of_lt h
  split
  · exact Nat.le_refl _
  split
  · exact Nat.le_refl _
  · exact Nat.le_refl _

/-- A failure is noted at the present place, or what was pending stays where it is. -/
theorem Failure.rest_note (p : Option Failure) (a : Input) (e : Expectation) :
    (Failure.note p a e).rest = a ∨ ∃ f, p = some f ∧ (Failure.note p a e).rest = f.rest := by
  rcases note_cases p a e with ⟨heq, -⟩ | ⟨f, rfl, ⟨-, heq⟩ | ⟨-, heq⟩⟩ <;> rw [heq]
  · exact .inl rfl
  · exact .inr ⟨f, rfl, rfl⟩
  · exact .inr ⟨f, rfl, rfl⟩

/-- Failures are joined at the place of one of them. -/
theorem Failure.rest_join (p : Option Failure) (g : Failure) :
    (Failure.join p g).rest = g.rest ∨ ∃ f, p = some f ∧ (Failure.join p g).rest = f.rest := by
  rcases join_cases p g with ⟨heq, -⟩ | ⟨f, rfl, ⟨-, heq | heq⟩ | ⟨-, heq⟩⟩ <;> rw [heq]
  · exact .inl rfl
  · exact .inr ⟨f, rfl, rfl⟩
  · exact .inr ⟨f, rfl, rfl⟩
  · exact .inr ⟨f, rfl, rfl⟩

/-- A failure further on is not superseded. -/
theorem notes_eq {f : Failure} (hf : f.rest.size ≤ after.length) : Notes after (· = some f) := by
  rintro _ rest e rfl hrest
  dsimp only [Failure.note]
  rw [if_neg (by omega), if_neg (by omega)]

/-- What was pending is kept if it is further on than `after` begins, and else nothing further on is
pending now. -/
structure Keeps (after : List Token) (pending pending' : Option Failure) : Prop where
  before : PendingBefore after pending → PendingBefore after pending'
  eq : ∀ f, pending = some f → f.rest.size ≤ after.length → pending' = some f

/-- A failure behind is superseded by a pending one further on. -/
theorem Failure.join_eq {f g : Failure} (h : f.rest.size < g.rest.size) :
    Failure.join (some f) g = f := by
  dsimp only [Failure.join]
  rw [if_neg (by omega), if_pos h]

/-- Two failures further back are joined to one further back. -/
theorem PendingBefore.join {pending : Option Failure} {f : Failure}
    (hpending : PendingBefore after pending) (hf : after.length < f.rest.size) :
    PendingBefore after (some (.join pending f)) := by
  intro g hg
  obtain rfl := Option.some.inj hg
  rcases Failure.join_cases pending f with ⟨heq, -⟩ | ⟨g, rfl, ⟨-, heq | heq⟩ | ⟨-, heq⟩⟩ <;>
    rw [heq]
  · exact hf
  · exact hpending g rfl
  · exact hpending g rfl
  · exact hpending g rfl

@[simp] theorem Failure.rest_summarize (start : Input) (c : Construct) (f : Failure) :
    (f.summarize start c).rest = f.rest := by
  unfold Failure.summarize
  split <;> rfl

/-- What is pending behind a construct, given what was pending before and what is pending inside. -/
def pendingBehind (before : Option Failure) (start : Input) (c : Construct) :
    Option Failure → Option Failure
  | none => before
  | some f => some (.join before (f.summarize start c))

/-- What is pending behind a construct was pending before it or inside of it. -/
theorem rest_pendingBehind {before inside : Option Failure} {start : Input} {c : Construct}
    {f : Failure} (h : pendingBehind before start c inside = some f) :
    (∃ g, before = some g ∧ f.rest = g.rest) ∨ ∃ g, inside = some g ∧ f.rest = g.rest := by
  cases inside with
  | none => exact .inl ⟨f, h, rfl⟩
  | some g =>
    obtain rfl := Option.some.inj h
    rcases Failure.rest_join before (g.summarize start c) with hg | ⟨f, hf, hg⟩
    · exact .inr ⟨g, rfl, hg.trans (Failure.rest_summarize start c g)⟩
    · exact .inl ⟨f, hf, hg⟩

theorem Parser.labelled_eq_ok {α : Type} {c : Construct} {p : Parser α} {s t : State} {v : α}
    (h : p { s with pending := none } = .ok v t) : Parser.labelled c p s =
      .ok v { t with pending := pendingBehind s.pending s.rest c t.pending } := by
  rw [Parser.labelled, h]
  dsimp only
  split
  next heq => rw [heq]; rfl
  next f heq => rw [heq]; rfl

theorem Parser.of_labelled_eq_ok {α : Type} {c : Construct} {p : Parser α} {s t : State} {v : α}
    (h : Parser.labelled c p s = .ok v t) : ∃ u, p { s with pending := none } = .ok v u ∧
      t = { u with pending := pendingBehind s.pending s.rest c u.pending } := by
  cases hv : p { s with pending := none } with
  | fail f =>
    rw [Parser.labelled, hv] at h
    cases h
  | ok w u =>
    rw [Parser.labelled_eq_ok hv] at h
    obtain ⟨rfl, rfl⟩ := Reply.ok.inj h
    exact ⟨u, rfl, rfl⟩

theorem Parser.of_labelled_eq_fail {α : Type} {c : Construct} {p : Parser α} {s : State}
    {f : Failure} (h : Parser.labelled c p s = .fail f) :
    ∃ g, p { s with pending := none } = .fail g ∧ f = .join s.pending (g.summarize s.rest c) := by
  cases hv : p { s with pending := none } with
  | fail g =>
    rw [Parser.labelled, hv] at h
    exact ⟨g, rfl, (Reply.fail.inj h).symm⟩
  | ok w t =>
    rw [Parser.labelled_eq_ok hv] at h
    cases h

theorem PendingBefore.behind {before inside : Option Failure} {start : Input} {c : Construct}
    (hbefore : PendingBefore after before) (hinside : PendingBefore after inside) :
    PendingBefore after (pendingBehind before start c inside) := by
  cases inside with
  | none => exact hbefore
  | some f => exact hbefore.join (by rw [Failure.rest_summarize]; exact hinside f rfl)

/-- A failure that is further on than all that is pending inside a construct remains. -/
theorem pendingBehind_eq {f : Failure} {inside : Option Failure} {start : Input} {c : Construct}
    (hinside : PendingBefore after inside) (hf : f.rest.size ≤ after.length) :
    pendingBehind (some f) start c inside = some f := by
  cases inside with
  | none => rfl
  | some g =>
    refine congrArg some (Failure.join_eq ?_)
    rw [Failure.rest_summarize]
    exact Nat.lt_of_le_of_lt hf (hinside g rfl)

end Pending

end CrudLang
