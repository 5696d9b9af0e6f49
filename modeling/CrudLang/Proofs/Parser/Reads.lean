import CrudLang.Proofs.Parser.Spells

/-!
# What a parser reads and what it rejects

`Reads p ts next P` is a total correctness statement: on every input that begins with the kinds
`ts` and goes on with `next`, the parser `p` succeeds, stops right before `next`, reports nothing
and returns a value that satisfies `P`. `Rejects p ts` says that `p` fails on every input of the
kinds `ts`.

Choices are ordered and repetitions are greedy, so a rule for them asks what is rejected:
`Reads.orElse_right` that the first alternative is, `Reads.many_nil` that another round is.
-/

namespace CrudLang.Parser

variable {α β : Type}

/-- On every input of the kinds `ts ++ next`, `p` silently reads `ts` as a value with `P`. -/
def Reads (p : Parser α) (ts next : List TokenKind) (P : α → Prop) : Prop :=
  ∀ s : State, kindsOf s.rest.tokens = ts ++ next →
    ∃ v t, p s = .ok v t ∧ kindsOf t.rest.tokens = next ∧ t.reported = s.reported ∧ P v

/-- On every input of the kinds `ts`, `p` fails. -/
def Rejects (p : Parser α) (ts : List TokenKind) : Prop :=
  ∀ s : State, kindsOf s.rest.tokens = ts → ∃ f, p s = .fail f

/-- The size of an input is the number of the kinds of its tokens. -/
theorem size_eq_length_kindsOf (input : Input) : input.size = (kindsOf input.tokens).length := by
  rw [List.length_map, input.size_eq]

/-- Reads by `p` where there is less input than `size`. -/
def below (size : Nat) (p : Parser α) : Parser α := fun s =>
  if s.rest.size < size then p s else .fail ⟨s.rest, []⟩

/-- One round of a repetition: another round needs less input. -/
theorem many_apply (p : Parser α) (s : State) :
    many p s = orElse (do
      let first ← p
      let others ← below s.rest.size (many p)
      pure (first :: others)) (pure []) s :=
  fix_apply _ s

/-- Where there is a token, reading goes on behind it if it is accepted. -/
theorem satisfy_apply_cons (read? : TokenKind → Option α) (e : Expectation) {s : State}
    {token : Token} {a : Input} (h : s.rest.tokens = token :: a.tokens) :
    satisfy read? e s =
      match read? token.kind with
      | none => unexpected e s
      | some value => .ok value { s with rest := a } := by
  have hnext : s.rest.next? = some (token, a) := Input.next?_eq_some_iff.2 h
  cases hread : read? token.kind with
  | none => simp only [satisfy, hnext, hread]
  | some value => simp only [satisfy, hnext, hread]

/-- A particular token is read where it stands. -/
theorem token_apply_cons (kind : TokenKind) {s : State} {t : Token} {a : Input}
    (h : s.rest.tokens = t :: a.tokens) : token kind s =
      if t.kind = kind then .ok () { s with rest := a }
      else .fail (.note s.pending s.rest (.token kind)) := by
  rw [token, satisfy_apply_cons _ _ h]
  by_cases hkind : t.kind = kind
  · rw [if_pos hkind, if_pos hkind]
  · rw [if_neg hkind, if_neg hkind]
    rfl

/-- Where no token is accepted, the parser fails with what it expected. -/
theorem satisfy_eq_unexpected {read? : TokenKind → Option α} {s : State}
    (h : ∀ token rest, s.rest.tokens = token :: rest → read? token.kind = none) (e : Expectation) :
    satisfy read? e s = unexpected e s := by
  cases htokens : s.rest.tokens with
  | nil => rw [satisfy, Input.next?_eq_none_iff.2 htokens]
  | cons token rest =>
    rw [satisfy_apply_cons read? e (a := .ofList rest) htokens, h token rest htokens]

/-- Inversion: the failure is noted where the token was looked for. -/
theorem of_satisfy_eq_fail {read? : TokenKind → Option α} {e : Expectation} {s : State}
    {f : Failure} (h : satisfy read? e s = .fail f) : f = .note s.pending s.rest e := by
  unfold satisfy at h
  split at h
  · exact (Reply.fail.inj h).symm
  · split at h
    · exact (Reply.fail.inj h).symm
    · cases h

/-- A token that is read leaves what is pending as it is. -/
theorem pending_of_satisfy_eq_ok {read? : TokenKind → Option α} {e : Expectation} {s t : State}
    {v : α} (h : satisfy read? e s = .ok v t) : t.pending = s.pending := by
  unfold satisfy at h
  split at h
  · cases h
  · split at h
    · cases h
    · rw [← (Reply.ok.inj h).2]

/-- A particular token is read if it is at the head, and else it is noted as expected. -/
theorem token_cases (kind : TokenKind) (s : State) :
    Parser.token kind s = .fail (.note s.pending s.rest (.token kind)) ∨
      ∃ t ts, s.rest.tokens = t :: ts ∧ t.kind = kind ∧
        Parser.token kind s = .ok () ⟨.ofList ts, s.pending, s.reported⟩ := by
  cases htokens : s.rest.tokens with
  | nil =>
    left
    rw [Parser.token, satisfy, Input.next?_eq_none_iff.2 htokens]
    rfl
  | cons t ts =>
    have heq := token_apply_cons kind (a := .ofList ts) htokens
    by_cases hkind : t.kind = kind
    · exact .inr ⟨t, ts, rfl, hkind, by rw [heq, if_pos hkind]⟩
    · exact .inl (by rw [heq, if_neg hkind])

/-- A sequence that begins with a token goes on behind it. -/
theorem token_bind_eq {kind : TokenKind} {f : Unit → Parser β} {s : State} {t : Token}
    {ts : List Token} (h : s.rest.tokens = t :: ts) (hkind : t.kind = kind) :
    (Parser.token kind >>= f) s = f () ⟨.ofList ts, s.pending, s.reported⟩ := by
  rw [bind_apply, token_apply_cons kind (a := .ofList ts) h, if_pos hkind]

/-- A sequence that begins with a token fails where another token stands. -/
theorem token_bind_eq_fail {kind : TokenKind} {f : Unit → Parser β} {s : State}
    (h : ∀ t ts, s.rest.tokens = t :: ts → t.kind ≠ kind) :
    (Parser.token kind >>= f) s = .fail (.note s.pending s.rest (.token kind)) := by
  rcases token_cases kind s with heq | ⟨t, ts, htokens, hkind, -⟩
  · rw [bind_apply, heq]
  · exact absurd hkind (h t ts htokens)

/-- Between two punctuators, the first one fails, or what is between them, or the second one. -/
theorem between_cases {α : Type} (left right : Punctuator) (p : Parser α) (s : State) :
    (between left right p s = .fail (.note s.pending s.rest (.token (.punctuator left)))) ∨
      ∃ l ts, s.rest.tokens = l :: ts ∧ l.kind = .punctuator left ∧
        ((∃ f, p ⟨.ofList ts, s.pending, s.reported⟩ = .fail f ∧
            between left right p s = .fail f) ∨
          ∃ v t, p ⟨.ofList ts, s.pending, s.reported⟩ = .ok v t ∧
            (between left right p s =
                .fail (.note t.pending t.rest (.token (.punctuator right))) ∨
              ∃ r us, t.rest.tokens = r :: us ∧ r.kind = .punctuator right ∧
                between left right p s = .ok v ⟨.ofList us, t.pending, t.reported⟩)) := by
  -- one case for each of the three parts at which the sequence may fail
  rw [between, punctuator, bind_apply]
  rcases token_cases (.punctuator left) s with heq | ⟨l, ts, htokens, hl, heq⟩
  · exact .inl (by rw [heq])
  rw [heq]
  refine .inr ⟨l, ts, htokens, hl, ?_⟩
  dsimp only
  rw [bind_apply]
  cases hv : p ⟨.ofList ts, s.pending, s.reported⟩ with
  | fail f => exact .inl ⟨f, rfl, rfl⟩
  | ok v t =>
    refine .inr ⟨v, t, rfl, ?_⟩
    dsimp only
    rw [punctuator, bind_apply]
    rcases token_cases (.punctuator right) t with heq | ⟨r, us, htokens', hr, heq⟩
    · exact .inl (by rw [heq])
    · exact .inr ⟨r, us, htokens', hr, by rw [heq]; rfl⟩

/-- What is read between two punctuators is read by the parser for it. -/
theorem exists_of_between_eq_ok {left right : Punctuator} {p : Parser α} {s u : State} {v : α}
    (h : between left right p s = .ok v u) : ∃ l ts t r us, s.rest.tokens = l :: ts ∧
      l.kind = .punctuator left ∧ p ⟨.ofList ts, s.pending, s.reported⟩ = .ok v t ∧
        t.rest.tokens = r :: us ∧ r.kind = .punctuator right ∧
          u = ⟨.ofList us, t.pending, t.reported⟩ := by
  rcases between_cases left right p s with heq | ⟨l, ts, htokens, hl, ⟨f, -, heq⟩ |
    ⟨w, t, ht, heq | ⟨r, us, hrest, hr, heq⟩⟩⟩
  · cases heq.symm.trans h
  · cases heq.symm.trans h
  · cases heq.symm.trans h
  · obtain ⟨rfl, rfl⟩ := Reply.ok.inj (heq.symm.trans h)
    exact ⟨l, ts, t, r, us, htokens, hl, ht, hrest, hr, rfl⟩

/-- Inversion: the opening token is missing, or what follows fails, or the closing token is
missing. -/
theorem of_between_eq_fail {left right : Punctuator} {p : Parser α} {s : State} {f : Failure}
    (h : between left right p s = .fail f) :
    f = .note s.pending s.rest (.token (.punctuator left)) ∨
      ∃ l ts, s.rest.tokens = l :: ts ∧ l.kind = .punctuator left ∧
        (p ⟨.ofList ts, s.pending, s.reported⟩ = .fail f ∨
          ∃ v t, p ⟨.ofList ts, s.pending, s.reported⟩ = .ok v t ∧
            f = .note t.pending t.rest (.token (.punctuator right))) := by
  rcases between_cases left right p s with heq | ⟨l, ts, htokens, hl, ⟨g, hg, heq⟩ |
    ⟨v, t, ht, heq | ⟨r, us, -, -, heq⟩⟩⟩
  · exact .inl (Reply.fail.inj (heq.symm.trans h)).symm
  · obtain rfl := Reply.fail.inj (heq.symm.trans h)
    exact .inr ⟨l, ts, htokens, hl, .inl hg⟩
  · exact .inr ⟨l, ts, htokens, hl, .inr ⟨v, t, ht, (Reply.fail.inj (heq.symm.trans h)).symm⟩⟩
  · cases heq.symm.trans h

namespace Rejects

variable {p q : Parser α} {ts next : List TokenKind}

/-- No first token is accepted. -/
theorem satisfy {read? : TokenKind → Option α} {e : Expectation}
    (h : ∀ k ∈ ts.head?, read? k = none) : Rejects (satisfy read? e) ts := by
  intro s hs
  cases htokens : s.rest.tokens with
  | nil =>
    rw [Parser.satisfy, Input.next?_eq_none_iff.2 htokens]
    exact ⟨_, rfl⟩
  | cons token rest =>
    -- the token at the head is of the first kind
    rw [htokens] at hs
    rw [satisfy_apply_cons read? e (a := .ofList rest) htokens, h token.kind (by rw [← hs]; rfl)]
    exact ⟨_, rfl⟩

/-- The first token is of another kind. -/
theorem token {kind : TokenKind} (h : ts.head? ≠ some kind) : Rejects (token kind) ts := by
  refine satisfy fun k hk => if_neg fun hkind => h ?_
  rw [← hkind]
  exact hk

/-- A sequence fails where its first part does. -/
theorem bind {f : α → Parser β} (hp : Rejects p ts) : Rejects (p >>= f) ts := by
  intro s hs
  obtain ⟨e, he⟩ := hp s hs
  rw [bind_apply, he]
  exact ⟨e, rfl⟩

/-- A value that is not read is not changed. -/
theorem map {g : α → β} (hp : Rejects p ts) : Rejects (g <$> p) ts := by
  intro s hs
  obtain ⟨e, he⟩ := hp s hs
  rw [map_apply, he]
  exact ⟨e, rfl⟩

/-- Both alternatives are rejected. -/
theorem orElse (hp : Rejects p ts) (hq : Rejects q ts) : Rejects (orElse p q) ts := by
  intro s hs
  obtain ⟨e, he⟩ := hp s hs
  rw [Parser.orElse, he]
  exact hq _ hs

/-- All the alternatives are rejected. -/
theorem choice {rest : List (Parser α)} (hp : Rejects p ts) (hrest : ∀ q ∈ rest, Rejects q ts) :
    Rejects (choice p rest) ts :=
  choice_of_forall orElse (List.forall_mem_cons.2 ⟨hp, hrest⟩)

/-- There is no span of what is not read. -/
theorem withSpan {p : Parser (Span → α)} (hp : Rejects p ts) : Rejects (withSpan p) ts := by
  intro s hs
  obtain ⟨e, he⟩ := hp s hs
  rw [Parser.withSpan, he]
  exact ⟨e, rfl⟩

/-- A failure under a label is a failure. -/
theorem labelled {c : Construct} (hp : Rejects p ts) : Rejects (labelled c p) ts := by
  intro s hs
  obtain ⟨e, he⟩ := hp { s with pending := none } hs
  rw [Parser.labelled, he]
  exact ⟨_, rfl⟩

/-- Neither the parser nor its recovery succeeds. -/
theorem recoverWith {r : Parser α} (hp : Rejects p ts) (hr : Rejects r ts) :
    Rejects (recoverWith p r) ts := by
  intro s hs
  obtain ⟨e, he⟩ := hp s hs
  obtain ⟨e', he'⟩ := hr { s with pending := none } hs
  rw [Parser.recoverWith, he]
  dsimp only
  rw [he']
  exact ⟨e, rfl⟩

/-- A recursive definition fails where its body does, whatever it calls. -/
theorem fix {body : Parser α → Parser α} (hbody : ∀ p, Rejects (body p) ts) :
    Rejects (fix body) ts := by
  intro s hs
  rw [fix_apply]
  exact hbody _ s hs

/-- A parser fails where no tokens that it could read stand. -/
theorem of_spells {P : α → List TokenKind → List TokenKind → Nat → Prop} (hp : Spells p P)
    (h : ∀ v us rest n, ts = us ++ rest → ¬ P v us rest n) : Rejects p ts := by
  intro s hs
  cases hv : p s with
  | fail e => exact ⟨e, rfl⟩
  | ok v t =>
    -- a success would have read tokens that it could not
    obtain ⟨read, new, hread, -, hP⟩ := hp s v t hv
    rw [hread, kindsOf_append] at hs
    exact absurd hP (h _ _ _ _ hs.symm)

end Rejects

namespace Reads

variable {p q : Parser α} {ts us next : List TokenKind} {P Q : α → Prop}

/-- A value with a property has a weaker one. -/
theorem mono (hp : Reads p ts next P) (h : ∀ v, P v → Q v) : Reads p ts next Q := by
  intro s hs
  obtain ⟨v, t, hv, hrest, hreported, hP⟩ := hp s hs
  exact ⟨v, t, hv, hrest, hreported, h v hP⟩

/-- No token is read as a given value. -/
theorem pure {a : α} (h : P a) : Reads (Pure.pure a) [] next P :=
  fun s hs => ⟨a, s, rfl, hs, rfl, h⟩

/-- Reading one thing after the other. -/
theorem bind {f : α → Parser β} {Q : β → Prop} (hp : Reads p ts (us ++ next) P)
    (hf : ∀ a, P a → Reads (f a) us next Q) : Reads (p >>= f) (ts ++ us) next Q := by
  intro s hs
  obtain ⟨a, t, ha, hrest, hreported, hP⟩ := hp s (by rw [hs, List.append_assoc])
  obtain ⟨b, u, hb, hrest', hreported', hQ⟩ := hf a hP t hrest
  exact ⟨b, u, by rw [bind_apply, ha]; exact hb, hrest', hreported'.trans hreported, hQ⟩

/-- One token is read as the value that is made of it. -/
theorem satisfy {read? : TokenKind → Option α} {e : Expectation} {k : TokenKind} {v : α}
    (h : read? k = some v) (hP : P v) : Reads (satisfy read? e) [k] next P := by
  intro s hs
  obtain ⟨token, rest, htokens, rfl, hrest⟩ := List.map_eq_cons_iff.1 hs
  have heq := satisfy_apply_cons read? e (a := .ofList rest) htokens
  exact ⟨v, { s with rest := .ofList rest }, by rw [heq, h], hrest, rfl, hP⟩

/-- One token of the kind is read. -/
theorem token (kind : TokenKind) : Reads (token kind) [kind] next fun _ => True :=
  satisfy (if_pos rfl) trivial

/-- Reading one token before something else. -/
theorem bind_one {f : α → Parser β} {k : TokenKind} {Q : β → Prop}
    (hp : Reads p [k] (us ++ next) P) (hf : ∀ a, P a → Reads (f a) us next Q) :
    Reads (p >>= f) (k :: us) next Q :=
  bind hp hf

/-- Reading nothing behind something. -/
theorem bind_last {f : α → Parser β} {Q : β → Prop} (hp : Reads p ts next P)
    (hf : ∀ a, P a → Reads (f a) [] next Q) : Reads (p >>= f) ts next Q := by
  have h : Reads (p >>= f) (ts ++ []) next Q := bind hp hf
  rwa [List.append_nil] at h

/-- A token, and behind it what follows. -/
theorem token_bind {kind : TokenKind} {f : Unit → Parser β} {Q : β → Prop}
    (hf : Reads (f ()) us next Q) : Reads (Parser.token kind >>= f) (kind :: us) next Q :=
  bind (token kind) fun _ _ => hf

/-- A token, and behind it a parser that reads nothing. -/
theorem token_last {kind : TokenKind} {f : Unit → Parser β} {Q : β → Prop}
    (hf : Reads (f ()) [] next Q) : Reads (Parser.token kind >>= f) [kind] next Q :=
  token_bind hf

/-- The value is changed. -/
theorem map {g : α → β} {Q : β → Prop} (hp : Reads p ts next fun a => Q (g a)) :
    Reads (g <$> p) ts next Q := by
  intro s hs
  obtain ⟨v, t, hv, hrest, hreported, hQ⟩ := hp s hs
  exact ⟨g v, t, by rw [map_apply, hv], hrest, hreported, hQ⟩

/-- The first alternative is taken where it reads. -/
theorem orElse_left (hp : Reads p ts next P) : Reads (orElse p q) ts next P := by
  intro s hs
  obtain ⟨v, t, hv, h⟩ := hp s hs
  exact ⟨v, t, by rw [orElse, hv], h⟩

/-- The second alternative is taken where the first one is rejected, with what stands behind. -/
theorem orElse_right (hp : Rejects p (ts ++ next)) (hq : Reads q ts next P) :
    Reads (orElse p q) ts next P := by
  intro s hs
  obtain ⟨e, he⟩ := hp s hs
  obtain ⟨v, t, hv, h⟩ := hq { s with pending := some e } hs
  exact ⟨v, t, by rw [orElse, he]; exact hv, h⟩

/-- Something is there. -/
theorem optional_some {Q : Option α → Prop} (hp : Reads p ts next fun v => Q (some v)) :
    Reads (optional p) ts next Q :=
  orElse_left hp.map

/-- Nothing is there, which takes that it is rejected. -/
theorem optional_none {Q : Option α → Prop} (hp : Rejects p next) (h : Q none) :
    Reads (optional p) [] next Q :=
  orElse_right hp.map (pure h)

/-- The span of a value is left open. -/
theorem withSpan {p : Parser (Span → α)}
    (hp : Reads p ts next fun build => ∀ span, P (build span)) :
    Reads (withSpan p) ts next P := by
  intro s hs
  obtain ⟨build, t, hv, hrest, hreported, hP⟩ := hp s hs
  exact ⟨_, t, by rw [Parser.withSpan, hv], hrest, hreported, hP _⟩

/-- A label makes no difference to what is read. -/
theorem labelled {c : Construct} (hp : Reads p ts next P) : Reads (labelled c p) ts next P := by
  intro s hs
  obtain ⟨v, t, hv, hrest, hreported, hP⟩ := hp { s with pending := none } hs
  rw [Parser.labelled, hv]
  dsimp only
  split <;> exact ⟨v, _, rfl, hrest, hreported, hP⟩

/-- Where the parser reads, nothing is recovered. -/
theorem recoverWith {r : Parser α} (hp : Reads p ts next P) :
    Reads (recoverWith p r) ts next P := by
  intro s hs
  obtain ⟨v, t, hv, h⟩ := hp s hs
  exact ⟨v, t, by rw [Parser.recoverWith, hv], h⟩

/-- A repetition ends where another round is rejected. -/
theorem many_nil {Q : List α → Prop} (hp : Rejects p next) (h : Q []) :
    Reads (many p) [] next Q := by
  intro s hs
  rw [many_apply]
  exact orElse_right hp.bind (pure h) s hs

/-- A repetition goes on behind a round that has read something. -/
theorem many_cons {Q : List α → Prop} (hts : ts ≠ []) (hp : Reads p ts (us ++ next) P)
    (hmany : ∀ v, P v → Reads (many p) us next fun vs => Q (v :: vs)) :
    Reads (many p) (ts ++ us) next Q := by
  intro s hs
  obtain ⟨v, t, hv, hrest, hreported, hP⟩ := hp s (by rw [hs, List.append_assoc])
  obtain ⟨vs, u, hvs, hrest', hreported', hQ⟩ := hmany v hP t hrest
  -- the first item takes a token, so the next round is allowed
  have hless : t.rest.size < s.rest.size := by
    rw [size_eq_length_kindsOf, size_eq_length_kindsOf, hs, hrest]
    have := List.length_pos_iff.2 hts
    simp only [List.length_append]
    omega
  refine ⟨v :: vs, u, ?_, hrest', hreported'.trans hreported, hQ⟩
  rw [many_apply, orElse, bind_apply, hv]
  dsimp only
  rw [bind_apply, below, if_pos hless, hvs]
  rfl

/-- An opening token, something and a closing token. -/
theorem between {left right : Punctuator} (hp : Reads p ts (.punctuator right :: next) P) :
    Reads (between left right p) (.punctuator left :: ts ++ [.punctuator right]) next P := by
  refine token_bind (bind hp fun v hv => token_last (pure hv))

/-- A choice reads what one of its parsers reads, if the others read the same or reject it. -/
theorem choice {rest : List (Parser α)} (hone : ∃ q ∈ p :: rest, Reads q ts next P)
    (hall : ∀ q ∈ p :: rest, Reads q ts next P ∨ Rejects q (ts ++ next)) :
    Reads (choice p rest) ts next P := by
  induction rest generalizing p with
  | nil =>
    obtain ⟨q, hq, hreads⟩ := hone
    rwa [List.mem_singleton.1 hq] at hreads
  | cons other rest ih =>
    rcases hall p List.mem_cons_self with hp | hp
    · exact orElse_left hp
    · refine orElse_right hp (ih ?_ fun q hq => hall q (List.mem_cons_of_mem _ hq))
      obtain ⟨q, hq, hreads⟩ := hone
      rcases List.mem_cons.1 hq with rfl | hq
      -- the first parser cannot read and reject the same
      · refine ⟨other, List.mem_cons_self, fun s hs => ?_⟩
        obtain ⟨v, t, hv, -⟩ := hreads s hs
        obtain ⟨f, hf⟩ := hp s hs
        rw [hv] at hf
        cases hf
      · exact ⟨q, hq, hreads⟩

end Reads

namespace Rejects

variable {p : Parser α} {ts next : List TokenKind} {P : α → Prop}

/-- A sequence fails where its first part reads something and its second part fails behind it. -/
theorem bind_right {f : α → Parser β} (hp : Reads p ts next P)
    (hf : ∀ a, P a → Rejects (f a) next) : Rejects (p >>= f) (ts ++ next) := by
  intro s hs
  obtain ⟨a, t, ha, hrest, -, hP⟩ := hp s hs
  obtain ⟨e, he⟩ := hf a hP t hrest
  exact ⟨e, by rw [bind_apply, ha]; exact he⟩

/-- The token is there, but what follows is rejected. -/
theorem token_bind {kind : TokenKind} {f : Unit → Parser β} (hf : Rejects (f ()) next) :
    Rejects (Parser.token kind >>= f) (kind :: next) :=
  bind_right (Reads.token kind) fun _ _ => hf

end Rejects

end CrudLang.Parser
