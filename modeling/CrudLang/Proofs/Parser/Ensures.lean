import CrudLang.Syntax.Parser

/-!
# What a parser ensures

`Ensures p Q` is a partial correctness statement: whenever `p` succeeds, the tokens that it read,
the tokens behind them and the failures that it reported are related to its value by `Q`. One
rule for each combinator, `Ensures.bind` to `Ensures.many`, reduces a statement about a grammar rule
to statements about its parts. Recursive rules are proved by `Local.fix`, an induction that other
properties of parsers share; `Ensures.fix` is the one for `Ensures`.

The pending failure is left out of the relation: no combinator decides by it.
-/

namespace CrudLang

/-- The kinds of the tokens of a list. -/
abbrev kindsOf (tokens : List Token) : List TokenKind :=
  tokens.map Token.kind

theorem kindsOf_append (first second : List Token) :
    kindsOf (first ++ second) = kindsOf first ++ kindsOf second :=
  List.map_append

theorem Input.size_of_tokens_eq_cons {a b : Input} {token : Token}
    (h : a.tokens = token :: b.tokens) : a.size = b.size + 1 := by
  rw [← a.size_eq, h, List.length_cons, b.size_eq]

/-- Behind a token there is less input. -/
theorem size_behind_lt {n : Nat} {a : Input} {l : Token} {ts : List Token} (ha : a.size < n + 1)
    (htokens : a.tokens = l :: ts) : (Input.ofList ts).size < n := by
  rw [Input.size_of_tokens_eq_cons (b := .ofList ts) htokens] at ha
  exact Nat.lt_of_succ_lt_succ ha

namespace Parser

variable {α β : Type}

/-- A property that a choice between two parsers has if both have it, a choice between several
parsers has if all have it. -/
theorem choice_of_forall {Q : Parser α → Prop} (horElse : ∀ {p q}, Q p → Q q → Q (orElse p q))
    {first : Parser α} {others : List (Parser α)} (h : ∀ q ∈ first :: others, Q q) :
    Q (choice first others) := by
  induction others generalizing first with
  | nil => exact h first List.mem_cons_self
  | cons next others ih =>
    exact horElse (h first List.mem_cons_self) (ih fun q hq => h q (List.mem_cons_of_mem first hq))

section Recursion

/-- A property of parsers that can be told from what a parser does at each input by itself. -/
def Local (Q : Parser α → Prop) : Prop :=
  ∀ p, (∀ a : Input, ∃ q, Q q ∧ ∀ s : State, s.rest = a → p s = q s) → Q p

variable {Q R : Parser α → Prop} {body : Parser α → Parser α}

theorem Local.and (hQ : Local Q) (hR : Local R) : Local fun p => Q p ∧ R p := by
  refine fun p h => ⟨hQ p fun a => ?_, hR p fun a => ?_⟩
  · obtain ⟨q, hq, heq⟩ := h a
    exact ⟨q, hq.1, heq⟩
  · obtain ⟨q, hq, heq⟩ := h a
    exact ⟨q, hq.2, heq⟩

/-- Induction for recursive definitions: a local property holds of one if it holds of a parser that
fails at once, and of the body given that it holds of the recursive calls. -/
theorem Local.fix (hlocal : Local Q) (hfail : Q fun s => .fail ⟨s.rest, []⟩)
    (hbody : ∀ p, Q p → Q (body p)) : Q (Parser.fix body) := by
  -- a call fails where no input has been read since the round began
  have hcall (a : Input) {p : Parser α} (hp : Q p) :
      Q fun s => if s.rest.size < a.size then p s else .fail ⟨s.rest, []⟩ := by
    refine hlocal _ fun b => ?_
    by_cases hless : b.size < a.size
    · exact ⟨p, hp, fun s hs => if_pos (hs ▸ hless)⟩
    · exact ⟨_, hfail, fun s hs => if_neg (hs ▸ hless)⟩
  -- by induction on the calls that are left
  have hdepth (depth : Nat) : Q (fixUpTo body depth) := by
    induction depth with
    | zero => exact hfail
    | succ depth ih =>
      refine hlocal _ fun a => ⟨_, hbody _ (hcall a ih), fun s hs => ?_⟩
      subst hs
      rfl
  refine hlocal _ fun a => ⟨_, hdepth (a.size + 1), fun s hs => ?_⟩
  subst hs
  rfl

end Recursion

/-- Whenever `p` succeeds with a value, the tokens read, the tokens behind them and the failures
reported meanwhile are related to the value by `Q`. -/
def Ensures (p : Parser α) (Q : α → List Token → List Token → List Failure → Prop) : Prop :=
  ∀ s v t, p s = .ok v t → ∃ read new,
    s.rest.tokens = read ++ t.rest.tokens ∧ t.reported = s.reported ++ new ∧
      Q v read t.rest.tokens new

theorem of_pure_eq_ok {a v : α} {s t : State} (h : (Pure.pure a : Parser α) s = .ok v t) :
    a = v ∧ s = t :=
  Reply.ok.inj h

/-- A token that `satisfy` reads stands at the head of the input. -/
theorem of_satisfy_eq_ok {read? : TokenKind → Option α} {e : Expectation} {s t : State} {v : α}
    (h : satisfy read? e s = .ok v t) :
    ∃ token, s.rest.tokens = token :: t.rest.tokens ∧ read? token.kind = some v ∧
      t.reported = s.reported := by
  unfold satisfy at h
  split at h
  next => simp [unexpected] at h
  next token rest hnext =>
    split at h
    next => simp [unexpected] at h
    next w hread =>
      obtain ⟨rfl, rfl⟩ := Reply.ok.inj h
      exact ⟨token, Input.next?_eq_some_iff.1 hnext, hread, rfl⟩

/-- `orElse` succeeds by its first parser, or by its second one from the same input. -/
theorem of_orElse_eq_ok {p q : Parser α} {s t : State} {v : α} (h : orElse p q s = .ok v t) :
    p s = .ok v t ∨ ∃ f, p s = .fail f ∧ q { s with pending := some f } = .ok v t := by
  unfold orElse at h
  split at h
  next w u hp => exact .inl (hp.trans h)
  next f hp => exact .inr ⟨f, hp, h⟩

/-- `orElse` fails by its second parser, behind the first one. -/
theorem of_orElse_eq_fail {p q : Parser α} {s : State} {f : Failure} (h : orElse p q s = .fail f) :
    ∃ g, p s = .fail g ∧ q { s with pending := some g } = .fail f := by
  unfold orElse at h
  split at h
  next => cases h
  next g hp => exact ⟨g, hp, h⟩

/-- A sequence succeeds by both of its parts. -/
theorem of_bind_eq_ok {p : Parser α} {f : α → Parser β} {s u : State} {b : β}
    (h : (p >>= f) s = .ok b u) : ∃ a t, p s = .ok a t ∧ f a t = .ok b u := by
  rw [bind_apply] at h
  split at h
  next a t ha => exact ⟨a, t, ha, h⟩
  next => cases h

/-- A sequence fails by one of its parts. -/
theorem of_bind_eq_fail {p : Parser α} {f : α → Parser β} {s : State} {e : Failure}
    (h : (p >>= f) s = .fail e) : p s = .fail e ∨ ∃ a t, p s = .ok a t ∧ f a t = .fail e := by
  rw [bind_apply] at h
  split at h
  next a t ha => exact .inr ⟨a, t, ha, h⟩
  next g hg =>
    obtain rfl := Reply.fail.inj h
    exact .inl hg

theorem of_withSpan_eq_ok {p : Parser (Span → α)} {s t : State} {v : α}
    (h : withSpan p s = .ok v t) : ∃ build, p s = .ok build t ∧
      v = build (spanOfRun (s.rest.tokens.take (s.rest.size - t.rest.size))) := by
  unfold withSpan at h
  split at h
  next => cases h
  next build t' hbuild =>
    obtain ⟨rfl, rfl⟩ := Reply.ok.inj h
    exact ⟨build, hbuild, rfl⟩

theorem of_withSpan_eq_fail {p : Parser (Span → α)} {s : State} {f : Failure}
    (h : withSpan p s = .fail f) : p s = .fail f := by
  unfold withSpan at h
  split at h
  next g hg =>
    obtain rfl := Reply.fail.inj h
    exact hg
  next => cases h

/-- A recovery succeeds by its first parser, or it reports why that failed. -/
theorem of_recoverWith_eq_ok {p r : Parser α} {s t : State} {v : α}
    (h : recoverWith p r s = .ok v t) : p s = .ok v t ∨ ∃ f t', p s = .fail f ∧
      r { s with pending := none } = .ok v t' ∧ t = { t' with reported := t'.reported ++ [f] } := by
  unfold recoverWith at h
  split at h
  next w u hp => exact .inl (hp.trans h)
  next f hp =>
    split at h
    next => cases h
    next w u hr =>
      obtain ⟨rfl, rfl⟩ := Reply.ok.inj h
      exact .inr ⟨f, u, hp, hr, rfl⟩

/-- A recovery fails where its first parser does. -/
theorem of_recoverWith_eq_fail {p r : Parser α} {s : State} {f : Failure}
    (h : recoverWith p r s = .fail f) : p s = .fail f := by
  unfold recoverWith at h
  split at h
  next => cases h
  next g hp =>
    split at h
    next =>
      obtain rfl := Reply.fail.inj h
      exact hp
    next => cases h

namespace Ensures

variable {p q : Parser α} {P Q : α → List Token → List Token → List Failure → Prop}

/-- What is ensured may be weakened. -/
theorem mono (hp : Ensures p P) (h : ∀ v read rest new, P v read rest new → Q v read rest new) :
    Ensures p Q := by
  intro s v t hs
  obtain ⟨read, new, hread, hnew, hP⟩ := hp s v t hs
  exact ⟨read, new, hread, hnew, h _ _ _ _ hP⟩

/-- What a parser reads is determined, so two relations hold of the same. -/
theorem and (hP : Ensures p P) (hQ : Ensures p Q) :
    Ensures p fun v read rest new => P v read rest new ∧ Q v read rest new := by
  intro s v t hs
  obtain ⟨read, new, hread, hnew, hv⟩ := hP s v t hs
  obtain ⟨read', new', hread', hnew', hv'⟩ := hQ s v t hs
  obtain rfl := List.append_cancel_right (hread.symm.trans hread')
  obtain rfl := List.append_cancel_left (hnew.symm.trans hnew')
  exact ⟨read, new, hread, hnew, hv, hv'⟩

/-- Whatever a parser ensures, it never leaves more input than it found. -/
theorem size_le {s t : State} {v : α} (hp : Ensures p P) (hs : p s = .ok v t) :
    t.rest.size ≤ s.rest.size := by
  obtain ⟨read, -, hread, -⟩ := hp s v t hs
  rw [← s.rest.size_eq, ← t.rest.size_eq, hread, List.length_append]
  omega

/-- Reading nothing. -/
theorem pure {a : α} (h : ∀ rest, Q a [] rest []) : Ensures (Pure.pure a) Q := by
  intro s v t hs
  obtain ⟨rfl, rfl⟩ := of_pure_eq_ok hs
  exact ⟨[], [], rfl, (List.append_nil _).symm, h _⟩

/-- Reading one thing after the other: the second part may use what the first one ensures. -/
theorem bind {f : α → Parser β} {Q : β → List Token → List Token → List Failure → Prop}
    (hp : Ensures p P)
    (hf : ∀ a first before, Ensures (f a) fun b read rest new =>
      P a first (read ++ rest) before → Q b (first ++ read) rest (before ++ new)) :
    Ensures (p >>= f) Q := by
  intro s v u hs
  rw [bind_apply] at hs
  split at hs
  next a t ha =>
    obtain ⟨first, before, hfirst, hbefore, hP⟩ := hp s a t ha
    obtain ⟨read, new, hread, hnew, hQ⟩ := hf a first before t v u hs
    -- what stands behind the first part begins with what the second part reads
    refine ⟨first ++ read, before ++ new, ?_, ?_, hQ (hread ▸ hP)⟩
    · rw [hfirst, hread, List.append_assoc]
    · rw [hnew, hbefore, List.append_assoc]
  next => simp at hs

/-- Reading one token. -/
theorem satisfy {read? : TokenKind → Option α} {e : Expectation} :
    Ensures (satisfy read? e) fun v read _ new =>
      ∃ token, read = [token] ∧ read? token.kind = some v ∧ new = [] := by
  intro s v t hs
  obtain ⟨token, htokens, hread, hreported⟩ := of_satisfy_eq_ok hs
  exact ⟨[token], [], htokens, by rw [hreported, List.append_nil], token, rfl, hread, rfl⟩

/-- Reading one particular token. -/
theorem token (kind : TokenKind) :
    Ensures (token kind) fun _ read _ new => kindsOf read = [kind] ∧ new = [] := by
  refine satisfy.mono fun v read rest new h => ?_
  obtain ⟨token, rfl, hread, rfl⟩ := h
  split at hread
  next hkind => simp [hkind]
  next => simp at hread

/-- Reading one token that is none of those listed. -/
theorem noneOf (kinds : List TokenKind) :
    Ensures (noneOf kinds) fun _ read _ new =>
      ∃ token, read = [token] ∧ token.kind ∉ kinds ∧ new = [] := by
  unfold Parser.noneOf select
  refine satisfy.mono fun v read rest new h => ?_
  obtain ⟨token, rfl, hread, rfl⟩ := h
  split at hread
  next => simp at hread
  next hkind => exact ⟨token, rfl, hkind, rfl⟩

/-- Reading any token. -/
theorem anyToken :
    Ensures anyToken fun _ read _ new => ∃ token, read = [token] ∧ new = [] := by
  unfold Parser.anyToken
  refine satisfy.mono fun v read rest new h => ?_
  obtain ⟨token, rfl, -, rfl⟩ := h
  exact ⟨token, rfl, rfl⟩

/-- Reading by one of two parsers. -/
theorem orElse (hp : Ensures p Q) (hq : Ensures q Q) : Ensures (orElse p q) Q := by
  intro s v t hs
  rcases of_orElse_eq_ok hs with h | ⟨f, -, h⟩
  · exact hp s v t h
  · obtain ⟨read, new, hread, hnew, hQ⟩ := hq _ v t h
    exact ⟨read, new, hread, hnew, hQ⟩

/-- Reading by one of several parsers. -/
theorem choice {rest : List (Parser α)} (hp : Ensures p Q) (hrest : ∀ q ∈ rest, Ensures q Q) :
    Ensures (choice p rest) Q :=
  choice_of_forall orElse (List.forall_mem_cons.2 ⟨hp, hrest⟩)

/-- Applying a function to what is read. -/
theorem map {g : α → β} {Q : β → List Token → List Token → List Failure → Prop}
    (hp : Ensures p fun a => Q (g a)) : Ensures (g <$> p) Q := by
  intro s v t hs
  rw [map_apply] at hs
  split at hs
  next a u ha =>
    obtain ⟨rfl, rfl⟩ := Reply.ok.inj hs
    exact hp s a u ha
  next => simp at hs

/-- Reading something or nothing. -/
theorem optional {Q : Option α → List Token → List Token → List Failure → Prop}
    (hsome : Ensures p fun v => Q (some v)) (hnone : ∀ rest, Q none [] rest []) :
    Ensures (optional p) Q :=
  orElse hsome.map (pure hnone)

/-- Giving a value its span. -/
theorem withSpan {p : Parser (Span → α)}
    (hp : Ensures p fun build read rest new => Q (build (spanOfRun read)) read rest new) :
    Ensures (withSpan p) Q := by
  intro s v t hs
  unfold Parser.withSpan at hs
  split at hs
  next => simp at hs
  next build u hu =>
    obtain ⟨rfl, rfl⟩ := Reply.ok.inj hs
    obtain ⟨read, new, hread, hnew, hQ⟩ := hp s build u hu
    refine ⟨read, new, hread, hnew, ?_⟩
    -- the span is taken from as many tokens as the input has become shorter by
    have hlength : s.rest.size - u.rest.size = read.length := by
      rw [← s.rest.size_eq, ← u.rest.size_eq, hread, List.length_append]
      omega
    rwa [hlength, hread, List.take_left]

/-- Naming a construct. -/
theorem labelled {c : Construct} (hp : Ensures p Q) : Ensures (labelled c p) Q := by
  intro s v t hs
  unfold Parser.labelled at hs
  split at hs
  next => simp at hs
  next w u hu =>
    obtain ⟨read, new, hread, hnew, hQ⟩ := hp _ w u hu
    split at hs <;> obtain ⟨rfl, rfl⟩ := Reply.ok.inj hs <;> exact ⟨read, new, hread, hnew, hQ⟩

/-- Recovering from a failure, which is reported. -/
theorem recoverWith {r : Parser α} (hp : Ensures p Q)
    (hr : Ensures r fun v read rest new => ∀ f, Q v read rest (new ++ [f])) :
    Ensures (recoverWith p r) Q := by
  intro s v t hs
  unfold Parser.recoverWith at hs
  split at hs
  next w u hu =>
    obtain ⟨rfl, rfl⟩ := Reply.ok.inj hs
    exact hp s w u hu
  next f hf =>
    split at hs
    next => simp at hs
    next w u hu =>
      obtain ⟨rfl, rfl⟩ := Reply.ok.inj hs
      obtain ⟨read, new, hread, hnew, hQ⟩ := hr _ w u hu
      -- the failure is reported behind those of the recovery
      refine ⟨read, new ++ [f], hread, ?_, hQ f⟩
      rw [hnew, List.append_assoc]

/-- Reading where another parser would silently read something from the same place. -/
theorem both {q : Parser β} {P' : β → List Token → List Token → List Failure → Prop}
    (hp : Ensures p P) (hq : Ensures q P')
    (h : ∀ v read rest new w read' rest' new', read ++ rest = read' ++ rest' →
      P v read rest new → P' w read' rest' new' → new' = [] ∧ Q v read rest new) :
    Ensures (both p q) Q := by
  intro s v t hs
  unfold Parser.both at hs
  split at hs
  next => simp at hs
  next w u hu =>
    split at hs
    next => simp at hs
    next x y hy =>
      obtain ⟨rfl, rfl⟩ := Reply.ok.inj hs
      obtain ⟨read, new, hread, hnew, hP⟩ := hp s w u hu
      obtain ⟨read', new', hread', hsilent, hP'⟩ := hq _ x y hy
      -- both parsers start at the same place, and only the first one moves on
      obtain ⟨rfl, hQ⟩ := h w read u.rest.tokens new x read' y.rest.tokens new'
        (hread.symm.trans hread') hP hP'
      exact ⟨read, new, hread, by rw [hsilent, List.append_nil, hnew], hQ⟩

theorem isLocal : Local fun p : Parser α => Ensures p Q := by
  intro p h s
  obtain ⟨q, hq, heq⟩ := h s.rest
  rw [heq s rfl]
  exact hq s

/-- A recursive definition ensures what its body ensures of every parser that ensures it. -/
theorem fix {body : Parser α → Parser α} (hbody : ∀ p, Ensures p Q → Ensures (body p) Q) :
    Ensures (fix body) Q :=
  isLocal.fix (fun _ _ _ h => nomatch h) hbody

/-- Reading as often as possible. -/
theorem many {Q : List α → List Token → List Token → List Failure → Prop} (hp : Ensures p P)
    (hnil : ∀ rest, Q [] [] rest [])
    (hcons : ∀ v vs first read rest before new, P v first (read ++ rest) before →
      Q vs read rest new → Q (v :: vs) (first ++ read) rest (before ++ new)) :
    Ensures (many p) Q := by
  -- the repetition is a recursion: one item and further ones, or nothing
  refine fix fun more hmore => ?_
  refine orElse (bind hp fun v first before => ?_) (pure hnil)
  refine bind hmore fun vs read new => ?_
  refine pure fun rest hvs hv => ?_
  rw [List.append_nil] at hv
  rw [List.append_nil, List.append_nil]
  exact hcons v vs first read rest before new hv hvs

/-- Reading between two punctuators. -/
theorem between {left right : Punctuator} {P : α → List Token → List Token → List Failure → Prop}
    (hp : Ensures p P)
    (h : ∀ v l read r rest new, l.kind = .punctuator left → r.kind = .punctuator right →
      P v read (r :: rest) new → Q v (l :: read ++ [r]) rest new) :
    Ensures (between left right p) Q := by
  have hsign (k : Punctuator) : Ensures (punctuator k) fun _ read _ new =>
      ∃ t : Token, read = [t] ∧ t.kind = .punctuator k ∧ new = [] := by
    refine (token (.punctuator k)).mono fun _ read _ new hk => ?_
    obtain ⟨t, rfl, ht⟩ := List.map_eq_singleton_iff.1 hk.1
    exact ⟨t, rfl, ht, hk.2⟩
  refine bind (hsign left) fun _ _ _ => ?_
  refine bind hp fun v read new => ?_
  refine bind (hsign right) fun _ _ _ => ?_
  refine pure fun rest hr hv hl => ?_
  obtain ⟨l, rfl, hlkind, rfl⟩ := hl
  obtain ⟨r, rfl, hrkind, rfl⟩ := hr
  simpa using h v l read r rest new hlkind hrkind (by simpa using hv)

end Ensures

end Parser

end CrudLang
