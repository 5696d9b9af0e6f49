import CrudLang.Proofs.Comparison.Statements
import CrudLang.Proofs.Parser.Pending
import CrudLang.Proofs.Recovery.Landing

/-!
# Reading up to where skipping ends

A statement that cannot be read is skipped up to a place that can be told from the tokens. The
failure that is reported should not be behind that place: else the tokens in between are read once
more, and may fail a second time where they failed before.

A `Stop` is the place where skipping would end. A parser is safe before it if what it reads does not
change where skipping would end, and if it notes nothing behind that place (`Stop.Safe`). That is a
Hoare triple, with one postcondition for success and one for failure. The combinators preserve it,
as long as no token is read at which skipping would end (`Stop.simulation`).
-/

namespace CrudLang

open Grammar CrudLang.Parser

/-- A place where skipping ends, and how far failures may be noted. -/
structure Stop where
  /-- The tokens that are left there. -/
  rest : List Token
  /-- Failures are noted where at least so many tokens are left. -/
  limit : Nat
  limit_le : limit ≤ rest.length

namespace Stop

variable (W : Stop)

/-- From here, the skipping of further units would end there. -/
def Before (a : Input) : Prop :=
  landing a.tokens = W.rest

/-- What is pending, if anything, is no further on than it may be. -/
def Noted (pending : Option Failure) : Prop :=
  ∀ f, pending = some f → W.limit ≤ f.rest.size

/-- From places with the property, reading leads to places before the stop, and what is noted is no
further on than it may be. -/
structure SafeOn (P : Input → Prop) {α : Type} (V : α → α → Prop) (p : Parser α) : Prop where
  ok : ∀ s v t, P s.rest → W.Noted s.pending → p s = .ok v t →
    (∃ w, V v w) ∧ t.rest.size ≤ s.rest.size ∧ W.Before t.rest ∧ W.Noted t.pending
  fail : ∀ s f, P s.rest → W.Noted s.pending → p s = .fail f → W.limit ≤ f.rest.size

/-- From places before the stop with fewer than `n` tokens left, the parser is safe. -/
def Safe (n : Nat) {α : Type} (V : α → α → Prop) (p : Parser α) : Prop :=
  W.SafeOn (fun a => a.size < n ∧ W.Before a) V p

variable {W}

/-- Before the stop, the limit has not been passed. -/
theorem Before.limit_le {a : Input} (h : W.Before a) : W.limit ≤ a.size := by
  rw [← a.size_eq]
  refine Nat.le_trans W.limit_le ?_
  rw [← show landing a.tokens = W.rest from h]
  exact length_landing_le _

/-- A token at which skipping would not end leads on. -/
theorem Before.next {a b : Input} {t : Token} (h : W.Before a) (ha : a.tokens = t :: b.tokens)
    (ht : t.kind ∉ statementBoundaries) : W.Before b := by
  rw [Before, ← landing_skipped ht, ← ha]
  exact h

namespace Noted

variable {p q : Option Failure}

/-- Nothing pending is nowhere. -/
theorem none : W.Noted none := by
  intro f hf
  cases hf

/-- A failure within the limit may be pending. -/
theorem some {f : Failure} (h : W.limit ≤ f.rest.size) : W.Noted (some f) := by
  intro g hg
  obtain rfl := Option.some.inj hg
  exact h

/-- What is noted within the limit leaves a failure within it. -/
theorem note (h : W.Noted p) {a : Input} (ha : W.limit ≤ a.size) (e : Expectation) :
    W.limit ≤ (Failure.note p a e).rest.size := by
  rcases Failure.rest_note p a e with heq | ⟨f, hf, heq⟩ <;> rw [heq]
  · exact ha
  · exact h f hf

/-- So does a failure that is joined to what is pending. -/
theorem join (h : W.Noted p) {f : Failure} (hf : W.limit ≤ f.rest.size) (a : Input)
    (c : Construct) : W.limit ≤ (Failure.join p (f.summarize a c)).rest.size := by
  rcases Failure.rest_join p (f.summarize a c) with heq | ⟨g, hg, heq⟩ <;> rw [heq]
  · rwa [Failure.rest_summarize]
  · exact h g hg

/-- What is pending behind a label is within the limit, if it was before and inside. -/
theorem behind (h : W.Noted p) (hq : W.Noted q) (a : Input) (c : Construct) :
    W.Noted (pendingBehind p a c q) := by
  intro f hf
  rcases rest_pendingBehind hf with ⟨g, hg, heq⟩ | ⟨g, hg, heq⟩ <;> rw [heq]
  · exact h g hg
  · exact hq g hg

end Noted

namespace SafeOn

variable {α β : Type} {P Q : Input → Prop} {V : α → α → Prop} {V' : β → β → Prop}
variable {p q : Parser α}

/-- What is safe from some places is safe from fewer of them. -/
theorem mono (h : W.SafeOn P V p) (hQ : ∀ a, Q a → P a) : W.SafeOn Q V p where
  ok s v t hs := h.ok s v t (hQ _ hs)
  fail s f hs := h.fail s f (hQ _ hs)

/-- A value moves nowhere and notes nothing. -/
theorem pure {v w : α} (hP : ∀ a, P a → W.Before a) (h : V v w) : W.SafeOn P V (Pure.pure v) where
  ok s v' t hs hpending ht := by
    obtain ⟨rfl, rfl⟩ := of_pure_eq_ok ht
    exact ⟨⟨w, h⟩, Nat.le_refl _, hP _ hs, hpending⟩
  fail s f _ _ hf := by cases hf

/-- One parser behind another, where the property of places may change in between. -/
theorem bind_on {f : α → Parser β} (h : W.SafeOn P V p)
    (hnext : ∀ s v t, P s.rest → p s = .ok v t → t.rest.size ≤ s.rest.size → W.Before t.rest →
      Q t.rest)
    (hf : ∀ v w, V v w → W.SafeOn Q V' (f v)) : W.SafeOn P V' (p >>= f) where
  ok s b u hs hpending hb := by
    obtain ⟨v, t, hv, hb⟩ := of_bind_eq_ok hb
    obtain ⟨⟨w, hvw⟩, hsize, hbefore, hnoted⟩ := h.ok s v t hs hpending hv
    obtain ⟨hvalue, hsize', hu⟩ := (hf v w hvw).ok t b u (hnext s v t hs hv hsize hbefore) hnoted hb
    exact ⟨hvalue, Nat.le_trans hsize' hsize, hu⟩
  fail s e hs hpending he := by
    rcases of_bind_eq_fail he with hp | ⟨v, t, hv, he⟩
    · exact h.fail s e hs hpending hp
    · obtain ⟨⟨w, hvw⟩, hsize, hbefore, hnoted⟩ := h.ok s v t hs hpending hv
      exact (hf v w hvw).fail t e (hnext s v t hs hv hsize hbefore) hnoted he

/-- A token is read where that leads on. -/
theorem satisfy_on {read? : TokenKind → Option α} {e : Expectation}
    (hV : ∀ k v, read? k = some v → V v v) (hlimit : ∀ a, P a → W.limit ≤ a.size)
    (hread : ∀ a b t v, P a → a.tokens = t :: b.tokens → read? t.kind = some v → W.Before b) :
    W.SafeOn P V (Parser.satisfy read? e) where
  ok s v t hs hpending ht := by
    obtain ⟨token, htokens, hv, -⟩ := of_satisfy_eq_ok ht
    refine ⟨⟨v, hV _ v hv⟩, Nat.le_of_lt (Consumes.satisfy s v t ht),
      hread _ _ token v hs htokens hv, ?_⟩
    rwa [pending_of_satisfy_eq_ok ht]
  fail s f hs hpending hf := by
    rw [of_satisfy_eq_fail hf]
    exact hpending.note (hlimit _ hs) e

/-- Where another token stands, nothing is read. -/
theorem token_bind_of_ne {kind : TokenKind} {f : Unit → Parser β}
    (hlimit : ∀ a, P a → W.limit ≤ a.size)
    (h : ∀ a t ts, P a → a.tokens = t :: ts → t.kind ≠ kind) :
    W.SafeOn P V' (Parser.token kind >>= f) where
  ok s v t hs _ ht := by
    rw [token_bind_eq_fail fun t ts => h s.rest t ts hs] at ht
    cases ht
  fail s g hs hpending hg := by
    rw [token_bind_eq_fail fun t ts => h s.rest t ts hs] at hg
    obtain rfl := Reply.fail.inj hg
    exact hpending.note (hlimit _ hs) _

/-- The second parser of a choice need only be safe where the first one fails. -/
theorem orElse_on (h : W.SafeOn P V p) (hfail : ∀ s f, P s.rest → p s = .fail f → Q s.rest)
    (h' : W.SafeOn Q V q) : W.SafeOn P V (Parser.orElse p q) where
  ok s v t hs hpending ht := by
    rcases of_orElse_eq_ok ht with hv | ⟨f, hf, hv⟩
    · exact h.ok s v t hs hpending hv
    · exact h'.ok { s with pending := Option.some f } v t (hfail s f hs hf)
        (.some (h.fail s f hs hpending hf)) hv
  fail s e hs hpending he := by
    obtain ⟨f, hf, he⟩ := of_orElse_eq_fail he
    exact h'.fail { s with pending := Option.some f } e (hfail s f hs hf)
      (.some (h.fail s f hs hpending hf)) he

/-- The second alternative starts where the first one did, with its failure pending. -/
theorem orElse (h : W.SafeOn P V p) (h' : W.SafeOn P V q) : W.SafeOn P V (Parser.orElse p q) :=
  h.orElse_on (fun _ _ hs _ => hs) h'

/-- A choice is safe if each of the alternatives is. -/
theorem choice {rest : List (Parser α)} (h : ∀ q ∈ p :: rest, W.SafeOn P V q) :
    W.SafeOn P V (Parser.choice p rest) :=
  choice_of_forall orElse h

/-- The span of what is read. -/
theorem withSpan {L : Likeness} {p : Parser (Span → α)} (h : W.SafeOn P (L.built V) p) :
    W.SafeOn P V (Parser.withSpan p) where
  ok s v t hs hpending ht := by
    obtain ⟨build, hbuild, rfl⟩ := of_withSpan_eq_ok ht
    exact (h.ok s build t hs hpending hbuild).imp_left fun h => Likeness.built.exists h _
  fail s f hs hpending hf := h.fail s f hs hpending (of_withSpan_eq_fail hf)

/-- A label does not move the place of a failure. -/
theorem labelled {c : Construct} (h : W.SafeOn P V p) : W.SafeOn P V (Parser.labelled c p) where
  ok s v t hs hpending ht := by
    obtain ⟨u, hu, rfl⟩ := of_labelled_eq_ok ht
    obtain ⟨hvalue, hsize, hbefore, hnoted⟩ :=
      h.ok { s with pending := Option.none } v u hs .none hu
    exact ⟨hvalue, hsize, hbefore, hpending.behind hnoted _ _⟩
  fail s f hs hpending hf := by
    obtain ⟨g, hg, rfl⟩ := of_labelled_eq_fail hf
    exact hpending.join (h.fail { s with pending := Option.none } g hs .none hg) _ _

end SafeOn

namespace Safe

variable {α β : Type} {n : Nat} {V : α → α → Prop} {V' : β → β → Prop} {p : Parser α}

/-- No place has fewer than no tokens left. -/
theorem zero : W.Safe 0 V p where
  ok _ _ _ hs := absurd hs.1 (Nat.not_lt_zero _)
  fail _ _ hs := absurd hs.1 (Nat.not_lt_zero _)

/-- What is safe with more tokens left is safe with fewer. -/
theorem mono {m : Nat} (h : W.Safe n V p) (hmn : m ≤ n) : W.Safe m V p :=
  SafeOn.mono h fun _ ha => ⟨Nat.lt_of_lt_of_le ha.1 hmn, ha.2⟩

/-- A value, for places with fewer than `n` tokens left. -/
theorem pure {v w : α} (h : V v w) : W.Safe n V (Pure.pure v) :=
  SafeOn.pure (fun _ ha => ha.2) h

/-- One parser behind another: the first one does not go back. -/
theorem bind {f : α → Parser β} (h : W.Safe n V p) (hf : ∀ v w, V v w → W.Safe n V' (f v)) :
    W.Safe n V' (p >>= f) :=
  h.bind_on (fun _ _ _ hs _ hle hbefore => ⟨Nat.lt_of_le_of_lt hle hs.1, hbefore⟩) hf

/-- A token at which skipping would not end is read safely. -/
theorem satisfy {read? : TokenKind → Option α} {e : Expectation}
    (hread : Refuses (· ∈ statementBoundaries) read?) (hV : ∀ k v, read? k = some v → V v v) :
    W.Safe n V (Parser.satisfy read? e) := by
  refine .satisfy_on hV (fun a ha => ha.2.limit_le) fun a b t v ha htokens hv => ?_
  refine ha.2.next htokens fun hmem => ?_
  cases (hread _ hmem).symm.trans hv

/-- Behind a token there is less input. -/
theorem read {read? : TokenKind → Option α} {e : Expectation} {f : α → Parser β}
    (hread : Refuses (· ∈ statementBoundaries) read?) (hV : ∀ k v, read? k = some v → V v v)
    (hf : ∀ v w, V v w → W.Safe n V' (f v)) : W.Safe (n + 1) V' (Parser.satisfy read? e >>= f) :=
  (satisfy hread hV).bind_on (fun s v t hs hv _ hbefore =>
    ⟨Nat.lt_of_lt_of_le (Consumes.satisfy s v t hv) (Nat.le_of_lt_succ hs.1), hbefore⟩) hf

/-- A repetition of something that consumes, by induction on how many tokens are left. -/
theorem many (hconsumes : Consumes p) (h : W.Safe n V p) :
    W.Safe n (List.Forall₂ V) (Parser.many p) := by
  induction n with
  | zero => exact .zero
  | succ n ih =>
    have hmany := ih (h.mono (Nat.le_succ n))
    rw [many_eq hconsumes]
    refine SafeOn.orElse (SafeOn.bind_on (Q := fun a => a.size < n ∧ W.Before a) h
      (fun s v t hs hv _ hbefore => ⟨?_, hbefore⟩) fun v w hvw => hmany.bind fun _ _ hrest =>
        Safe.pure (.cons hvw hrest)) (Safe.pure .nil)
    -- behind one round there is less input
    exact Nat.lt_of_lt_of_le (hconsumes s v t hv) (Nat.le_of_lt_succ hs.1)

end Safe

/-- The combinators keep parsers safe. -/
theorem simulation (W : Stop) (L : Likeness) :
    Simulation L (· ∈ statementBoundaries) fun n {_} V p _ => W.Safe n V p where
  zero := .zero
  weaken h := h.mono (Nat.le_succ _)
  pure h := .pure h
  bind h hf := .bind h hf
  satisfy hread hV := .satisfy hread hV
  read hread hV hf := .read hread hV hf
  orElse h h' := SafeOn.orElse h h'
  withSpan h := SafeOn.withSpan h
  labelled h := SafeOn.labelled h
  many hconsumes h := .many hconsumes h

/-- What reads no boundary of statements is safe. -/
theorem expressionSimulation (W : Stop) (L : Likeness) :
    ExpressionSimulation L (· ∈ statementBoundaries) fun n {_} V p _ => W.Safe n V p :=
  (W.simulation L).expressionSimulation fun _ hk => hk

end Stop

end CrudLang
