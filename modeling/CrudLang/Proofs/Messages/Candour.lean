import CrudLang.Proofs.Messages.Failures
import CrudLang.Proofs.Parser.Repetition

/-!
# Parsers that tell what went wrong

Between two tokens, all that has been reported is sincere and telling, and what is pending is frank
(`State.Frank`). A parser keeps this up where it succeeds, and where it fails, the failure is
sincere; unless the parser is mute, it is telling too (`Parser.Tells`). A parser is mute only if it
has just refused a token for want of a class with a name. The next thing noted makes up for that, so
a mute parser may begin anything: a construct, a choice, a repetition.

There is one rule for each combinator. The inputs are bounded, and behind a token the bound is
lower, so that the grammar can be gone through by induction on the bound.
-/

namespace CrudLang

/-- The place belongs to the source, what was reported is sincere and telling, and what is pending
is frank at this place. -/
structure State.Frank (tokens : List Token) (s : State) : Prop where
  suffix : s.rest.tokens <:+ tokens
  reported : ∀ f ∈ s.reported, f.Sincere tokens ∧ f.Telling
  pending : ∀ f ∈ s.pending, f.Frank tokens s.rest

namespace State.Frank

variable {tokens : List Token} {s : State} {f : Failure}

/-- At the beginning nothing has been reported and nothing is pending. -/
theorem start (tokens : List Token) : State.Frank tokens ⟨.ofList tokens, none, []⟩ where
  suffix := List.suffix_refl tokens
  reported _ hf := by cases hf
  pending _ hf := by cases hf

/-- A frank failure may become the pending one. -/
theorem noting (h : s.Frank tokens) (hf : f.Frank tokens s.rest) :
    State.Frank tokens { s with pending := some f } where
  suffix := h.suffix
  reported := h.reported
  pending _ hg := Option.some.inj hg ▸ hf

/-- What is pending may be dropped. -/
theorem nothing (h : s.Frank tokens) : State.Frank tokens { s with pending := none } where
  suffix := h.suffix
  reported := h.reported
  pending _ hg := by cases hg

/-- Reading a token leaves the failures as they are. -/
theorem next (h : s.Frank tokens) {t : Token} {a : Input} (ha : s.rest.tokens = t :: a.tokens) :
    State.Frank tokens { s with rest := a } where
  suffix := (ha ▸ List.suffix_cons t a.tokens).trans h.suffix
  reported := h.reported
  pending f hf := (h.pending f hf).mono (Nat.le_of_lt (by
    rw [Input.size_of_tokens_eq_cons ha]
    exact Nat.lt_succ_self _))

end State.Frank

namespace Parser

/-- From inputs with fewer than `n` tokens, the parser keeps the state frank where it succeeds.
Where it fails, the failure is sincere and not before the place where it began, and it is telling
unless the parser is mute. -/
structure Tells (tokens : List Token) (n : Nat) (mute : Prop) {α : Type} (p : Parser α) : Prop where
  ok : ∀ s v t, s.rest.size < n → s.Frank tokens → p s = .ok v t →
    t.rest.size ≤ s.rest.size ∧ t.Frank tokens
  fail : ∀ s f, s.rest.size < n → s.Frank tokens → p s = .fail f →
    f.rest.size ≤ s.rest.size ∧ f.Sincere tokens ∧ (f.Telling ∨ mute ∧ s.rest.size ≤ f.rest.size)

namespace Tells

variable {α β : Type} {tokens : List Token} {n : Nat} {mute : Prop} {p q : Parser α}

/-- Whether the parser is mute or not, its failure may be pending where it began. -/
theorem frank (h : Tells tokens n mute p) {s : State} {f : Failure} (hs : s.rest.size < n)
    (hfrank : s.Frank tokens) (hf : p s = .fail f) : f.Frank tokens s.rest := by
  obtain ⟨-, hsincere, htelling⟩ := h.fail s f hs hfrank hf
  exact ⟨hsincere, htelling.imp_right And.right⟩

/-- A parser that is never mute fails with a telling failure. -/
theorem telling (h : Tells tokens n False p) {s : State} {f : Failure} (hs : s.rest.size < n)
    (hfrank : s.Frank tokens) (hf : p s = .fail f) : f.Telling :=
  (h.fail s f hs hfrank hf).2.2.resolve_right fun hmute => hmute.1

/-- There is no input with fewer than no tokens. -/
theorem zero : Tells tokens 0 mute p where
  ok _ _ _ hs := absurd hs (Nat.not_lt_zero _)
  fail _ _ hs := absurd hs (Nat.not_lt_zero _)

/-- What tells on longer inputs tells on shorter ones. -/
theorem mono {m : Nat} (h : Tells tokens n mute p) (hmn : m ≤ n) : Tells tokens m mute p where
  ok s v t hs := h.ok s v t (Nat.lt_of_lt_of_le hs hmn)
  fail s f hs := h.fail s f (Nat.lt_of_lt_of_le hs hmn)

/-- Only what a parser does at frank states matters. -/
theorem congr (h : Tells tokens n mute q) (heq : ∀ s, s.Frank tokens → p s = q s) :
    Tells tokens n mute p where
  ok s v t hs hfrank ht := h.ok s v t hs hfrank (heq s hfrank ▸ ht)
  fail s f hs hfrank hf := h.fail s f hs hfrank (heq s hfrank ▸ hf)

/-- A value is read without failures. -/
theorem pure (a : α) : Tells tokens n mute (Pure.pure a : Parser α) where
  ok s v t _ hfrank ht := by
    obtain ⟨-, rfl⟩ := of_pure_eq_ok ht
    exact ⟨Nat.le_refl _, hfrank⟩
  fail s f _ _ hf := by cases hf

/-- Behind a mute parser, none may be mute: it could fail further on. -/
theorem bind_on {m : Nat} {f : α → Parser β} (h : Tells tokens n mute p)
    (hnext : ∀ s a t, s.rest.size < n → p s = .ok a t → t.rest.size ≤ s.rest.size → t.rest.size < m)
    (hf : ∀ a, Tells tokens m False (f a)) : Tells tokens n mute (p >>= f) where
  ok s b u hs hfrank hb := by
    obtain ⟨a, t, ha, hb⟩ := of_bind_eq_ok hb
    obtain ⟨hle, ht⟩ := h.ok s a t hs hfrank ha
    obtain ⟨hle', hu⟩ := (hf a).ok t b u (hnext s a t hs ha hle) ht hb
    exact ⟨Nat.le_trans hle' hle, hu⟩
  fail s e hs hfrank he := by
    rcases of_bind_eq_fail he with hp | ⟨a, t, ha, he⟩
    · exact h.fail s e hs hfrank hp
    · -- the second part is not mute, so its failure is telling wherever it is
      obtain ⟨hle, ht⟩ := h.ok s a t hs hfrank ha
      have ht' := hnext s a t hs ha hle
      obtain ⟨hle', hsincere, -⟩ := (hf a).fail t e ht' ht he
      exact ⟨Nat.le_trans hle' hle, hsincere, .inl ((hf a).telling ht' ht he)⟩

/-- Behind a parser there may be another one that is never mute. -/
theorem bind {f : α → Parser β} (h : Tells tokens n mute p) (hf : ∀ a, Tells tokens n False (f a)) :
    Tells tokens n mute (p >>= f) :=
  h.bind_on (fun _ _ _ hs _ hle => Nat.lt_of_le_of_lt hle hs) hf

/-- Behind something that takes a token there is less input. -/
theorem behind {f : α → Parser β} (hconsumes : Consumes p) (h : Tells tokens (n + 1) mute p)
    (hf : ∀ a, Tells tokens n False (f a)) : Tells tokens (n + 1) mute (p >>= f) :=
  h.bind_on (fun s a t hs ha _ => Nat.lt_of_lt_of_le (hconsumes s a t ha) (Nat.le_of_lt_succ hs)) hf

/-- Only the value is changed. -/
theorem map {g : α → β} (h : Tells tokens n mute p) : Tells tokens n mute (g <$> p) :=
  h.bind fun a => .pure (g a)

section Satisfy

variable {read? : TokenKind → Option α} {e : Expectation}
  (he : ∀ a : Input, (∀ t ts, a.tokens = t :: ts → read? t.kind = none) → e.SincereAt tokens a)
include he

/-- A reader of tokens is sincere if it refuses nothing that it expects. It is mute if what it
expects has no name. -/
theorem satisfy (hmute : mute ∨ e.IsNamed) : Tells tokens n mute (Parser.satisfy read? e) where
  ok s v t _ hfrank ht := by
    obtain ⟨token, htokens, -, hreported⟩ := of_satisfy_eq_ok ht
    have hnext := hfrank.next htokens
    have hpending := pending_of_satisfy_eq_ok ht
    refine ⟨Nat.le_of_lt (Consumes.satisfy s v t ht), hnext.suffix, ?_, ?_⟩
    · rw [hreported]
      exact hfrank.reported
    · rw [hpending]
      exact hnext.pending
  fail s f _ hfrank hf := by
    have hexpected : e.SincereAt tokens s.rest := by
      refine he s.rest fun t ts htokens => ?_
      rw [satisfy_apply_cons read? e (a := .ofList ts) htokens] at hf
      split at hf
      next hread => exact hread
      next => cases hf
    rw [of_satisfy_eq_fail hf]
    have hnote := Failure.Frank.note hfrank.pending hfrank.suffix hexpected
    refine ⟨Failure.size_note_le _ _ _, hnote.sincere, ?_⟩
    -- what is expected is named, unless the reader is mute and the failure stays where it is
    rcases hmute with hmute | hnamed
    · exact hnote.telling.imp_right fun hsize => ⟨hmute, hsize⟩
    · exact .inl (.note hfrank.pending hnamed)

end Satisfy

section Tokens

variable {kind : TokenKind} (hkind : kind.IsFixed)
include hkind

omit hkind in
/-- A token that is refused is of another kind. -/
theorem ne_of_refused {a : Input}
    (ha : ∀ t ts, a.tokens = t :: ts → (if t.kind = kind then some () else none) = none) :
    ∀ t ts, a.tokens = t :: ts → t.kind ≠ kind := by
  intro t ts htokens heq
  have hrefused := ha t ts htokens
  rw [if_pos heq] at hrefused
  cases hrefused

/-- A token with a fixed text is named where it is missing, so the failure is telling. -/
theorem token : Tells tokens n False (Parser.token kind) :=
  .satisfy (fun _ ha => .token hkind (ne_of_refused ha)) (.inr trivial)

/-- Behind such a token the bound is lower. -/
theorem token_bind {f : Unit → Parser β} (hf : Tells tokens n False (f ())) :
    Tells tokens (n + 1) False (Parser.token kind >>= f) :=
  .behind (.token kind) (.token hkind) fun _ => hf

end Tokens

/-- A token of a kind with many texts may be refused mutely. -/
theorem select {read? : TokenKind → Option α} : Tells tokens n True (Parser.select read?) :=
  .satisfy (fun _ _ => trivial) (.inl trivial)

/-- The second parser begins where the first one began, with the failure of that one pending. -/
theorem orElse {mute' : Prop} (hp : Tells tokens n mute' p) (hq : Tells tokens n mute q) :
    Tells tokens n mute (Parser.orElse p q) where
  ok s v t hs hfrank ht := by
    rcases of_orElse_eq_ok ht with hv | ⟨f, hf, hv⟩
    · exact hp.ok s v t hs hfrank hv
    · exact hq.ok { s with pending := some f } v t hs (hfrank.noting (hp.frank hs hfrank hf)) hv
  fail s e hs hfrank he := by
    obtain ⟨f, hf, he⟩ := of_orElse_eq_fail he
    exact hq.fail { s with pending := some f } e hs (hfrank.noting (hp.frank hs hfrank hf)) he

/-- A mute reader of tokens may end a choice: the failure before it is pending at its place. -/
theorem orElse_select {read? : TokenKind → Option α} (hp : Tells tokens n False p) :
    Tells tokens n False (Parser.orElse p (Parser.select read?)) := by
  have hmute : Tells tokens n True (Parser.orElse p (Parser.select read?)) := hp.orElse select
  refine ⟨hmute.ok, fun s e hs hfrank he => ?_⟩
  obtain ⟨hle, hsincere, -⟩ := hmute.fail s e hs hfrank he
  refine ⟨hle, hsincere, .inl ?_⟩
  obtain ⟨f, hf, he⟩ := of_orElse_eq_fail he
  rw [of_satisfy_eq_fail (show Parser.satisfy _ _ _ = _ from he)]
  exact (hp.telling hs hfrank hf).note_of_le (hp.fail s f hs hfrank hf).1 _

/-- A choice tells if each of the alternatives does. -/
theorem choice {rest : List (Parser α)} (h : ∀ q ∈ p :: rest, Tells tokens n False q) :
    Tells tokens n False (Parser.choice p rest) :=
  choice_of_forall orElse h

/-- Something that may be missing is never a failure. -/
theorem optional (h : Tells tokens n mute p) : Tells tokens n False (Parser.optional p) :=
  h.map.orElse (.pure none)

/-- The span of what is read. -/
theorem withSpan {p : Parser (Span → α)} (h : Tells tokens n mute p) :
    Tells tokens n mute (Parser.withSpan p) where
  ok s v t hs hfrank ht := by
    obtain ⟨build, hbuild, -⟩ := of_withSpan_eq_ok ht
    exact h.ok s build t hs hfrank hbuild
  fail s f hs hfrank hf := h.fail s f hs hfrank (of_withSpan_eq_fail hf)

/-- A construct has a name, so what begins it may be mute. -/
theorem labelled {c : Construct} (h : Tells tokens n mute p) :
    Tells tokens n False (Parser.labelled c p) where
  ok s v t hs hfrank ht := by
    obtain ⟨u, hv, rfl⟩ := of_labelled_eq_ok ht
    obtain ⟨hle, hu⟩ := h.ok { s with pending := none } v u hs hfrank.nothing hv
    refine ⟨hle, hu.suffix, hu.reported, fun f hf => ?_⟩
    -- what is pending inside the construct is joined to what was pending before it
    cases hpending : u.pending with
    | none =>
      rw [hpending] at hf
      exact (hfrank.pending f hf).mono hle
    | some g =>
      rw [hpending] at hf
      obtain rfl := Option.some.inj hf
      exact .join (fun f hf => (hfrank.pending f hf).mono hle)
        ((hu.pending g hpending).summarize _ _)
  fail s f hs hfrank hf := by
    obtain ⟨g, hg, rfl⟩ := of_labelled_eq_fail hf
    obtain ⟨hle, hsincere, htelling⟩ := h.fail { s with pending := none } g hs hfrank.nothing hg
    have hsize := Failure.rest_summarize s.rest c g
    refine ⟨Nat.le_trans (Failure.size_join_le _ _) (hsize ▸ hle),
      .join hfrank.pending (hsincere.summarize _ _), .inl (.join hfrank.pending ?_ (hsize ▸ hle))⟩
    -- a failure without a name is where the construct begins, so the construct is named
    rcases htelling with htelling | ⟨-, hback⟩
    · exact htelling.summarize _ _
    · exact .of_summarize (Nat.le_antisymm hle hback) c

/-- A failure that is reported must be telling; what is skipped then begins with nothing pending. -/
theorem recoverWith {r : Parser α} (hp : Tells tokens n False p) (hr : Tells tokens n mute r) :
    Tells tokens n False (Parser.recoverWith p r) where
  ok s v t hs hfrank ht := by
    rcases of_recoverWith_eq_ok ht with hv | ⟨f, u, hf, hu, rfl⟩
    · exact hp.ok s v t hs hfrank hv
    · obtain ⟨hle, hfrank'⟩ := hr.ok { s with pending := none } v u hs hfrank.nothing hu
      refine ⟨hle, hfrank'.suffix, fun g hg => ?_, hfrank'.pending⟩
      rcases List.mem_append.1 hg with hg | hg
      · exact hfrank'.reported g hg
      · obtain rfl := List.mem_singleton.1 hg
        exact ⟨(hp.fail s g hs hfrank hf).2.1, hp.telling hs hfrank hf⟩
  fail s f hs hfrank hf := hp.fail s f hs hfrank (of_recoverWith_eq_fail hf)

/-- The failure that ends a repetition stays pending, whatever it is. -/
theorem many (hconsumes : Consumes p) (h : Tells tokens n mute p) :
    Tells tokens n False (Parser.many p) := by
  induction n with
  | zero => exact .zero
  | succ n ih =>
    have hmore := ih (h.mono (Nat.le_succ n))
    rw [many_eq hconsumes]
    -- behind one round there is less input
    exact (h.behind hconsumes fun _ => hmore.bind fun _ => .pure _).orElse (.pure [])

/-- Something between two tokens with fixed texts. -/
theorem between {left right : Punctuator} (h : Tells tokens n False p) :
    Tells tokens (n + 1) False (Parser.between left right p) := by
  refine .token_bind (.punctuator left) ?_
  refine h.bind fun _ => ?_
  refine .bind (.token (.punctuator right)) fun _ => ?_
  exact .pure _

/-- Items with commas between them. -/
theorem items (hforward : Forward p) (h : Tells tokens n False p) :
    Tells tokens n False (Parser.separated p (punctuator .comma)) := by
  have hcomma : Tells tokens n False (punctuator .comma) := .token (.punctuator _)
  have hothers : Tells tokens n False (Parser.many (do punctuator .comma; p)) :=
    (hcomma.bind fun _ => h).many (.bind (.token _) fun _ => hforward)
  exact (h.bind fun _ => hothers.bind fun _ => hcomma.optional.bind fun _ => .pure _).orElse
    (.pure [])

end Tells

end Parser

end CrudLang
