import CrudLang.Proofs.Parser.Ensures

/-!
# What the tokens read spell

`Spells p P` is the form of `Parser.Ensures` that the grammar is stated in: whenever `p` succeeds,
its value is related by `P` to the kinds of the tokens read, to the kinds of the tokens behind
them and to the number of failures reported meanwhile. Most rules of the grammar report nothing
and do not depend on what follows: `Silently P` says so of a relation between a value and its
tokens.
-/

namespace CrudLang.Parser

variable {α β : Type}

/-- Whenever `p` succeeds, its value, the kinds of the tokens read, the kinds of the tokens behind
them and the number of failures reported are related by `P`. -/
def Spells (p : Parser α) (P : α → List TokenKind → List TokenKind → Nat → Prop) : Prop :=
  Ensures p fun v read rest new => P v (kindsOf read) (kindsOf rest) new.length

/-- The tokens read are related to the value, and no failure is reported. -/
def Silently (P : α → List TokenKind → Prop) : α → List TokenKind → List TokenKind → Nat → Prop :=
  fun v ts _ n => P v ts ∧ n = 0

namespace Spells

variable {p q : Parser α} {P Q : α → List TokenKind → List TokenKind → Nat → Prop}

/-- What is spelled may be said more weakly. -/
theorem mono (hp : Spells p P) (h : ∀ v ts us n, P v ts us n → Q v ts us n) : Spells p Q :=
  Ensures.mono hp fun _ _ _ _ => h _ _ _ _

/-- What a parser reads is determined, so two relations hold of the same. -/
theorem and (hp : Spells p P) (hq : Spells p Q) :
    Spells p fun v ts us n => P v ts us n ∧ Q v ts us n :=
  Ensures.and hp hq

/-- Nothing is read. -/
theorem pure {a : α} (h : ∀ us, Q a [] us 0) : Spells (Pure.pure a) Q :=
  Ensures.pure fun _ => h _

/-- Reading one thing after the other. -/
theorem bind {f : α → Parser β} {Q : β → List TokenKind → List TokenKind → Nat → Prop}
    (hp : Spells p P)
    (hf : ∀ a ts m, Spells (f a) fun b us rest n => P a ts (us ++ rest) m →
      Q b (ts ++ us) rest (m + n)) :
    Spells (p >>= f) Q := by
  refine Ensures.bind hp fun a first before => ?_
  refine Ensures.mono (hf a (kindsOf first) before.length) fun b read rest new h hP => ?_
  rw [kindsOf_append, List.length_append]
  exact h (by rwa [kindsOf_append] at hP)

/-- Reading something silently before something else. -/
theorem silently {P : α → List TokenKind → Prop} {f : α → Parser β}
    {Q : β → List TokenKind → List TokenKind → Nat → Prop} (hp : Spells p (Silently P))
    (hf : ∀ a ts, P a ts → Spells (f a) fun b us rest n => Q b (ts ++ us) rest n) :
    Spells (p >>= f) Q := by
  intro s b u hs
  rw [bind_apply] at hs
  split at hs
  next a t ha =>
    obtain ⟨first, before, hfirst, hbefore, hP, hsilent⟩ := hp s a t ha
    -- the first part reports nothing, so the failures of the second are all there are
    obtain rfl := List.length_eq_zero_iff.1 hsilent
    obtain ⟨read, new, hread, hnew, hQ⟩ := hf a (kindsOf first) hP t b u hs
    refine ⟨first ++ read, new, ?_, ?_, ?_⟩
    · rw [hfirst, hread, List.append_assoc]
    · rw [hnew, hbefore, List.append_nil]
    · dsimp only
      rwa [kindsOf_append]
  next => simp at hs

/-- One token is read, of a kind that is accepted. -/
theorem satisfy {read? : TokenKind → Option α} {e : Expectation} :
    Spells (satisfy read? e) (Silently fun v ts => ∃ k, ts = [k] ∧ read? k = some v) := by
  refine Ensures.satisfy.mono fun v read rest new h => ?_
  obtain ⟨token, rfl, hread, rfl⟩ := h
  exact ⟨⟨token.kind, rfl, hread⟩, rfl⟩

/-- One token of the given kind is read. -/
theorem token (kind : TokenKind) : Spells (token kind) (Silently fun _ ts => ts = [kind]) := by
  refine (Ensures.token kind).mono fun v read rest new h => ?_
  obtain ⟨hread, rfl⟩ := h
  exact ⟨hread, rfl⟩

/-- Either of two parsers. -/
theorem orElse (hp : Spells p Q) (hq : Spells q Q) : Spells (orElse p q) Q :=
  Ensures.orElse hp hq

/-- One of several parsers. -/
theorem choice {rest : List (Parser α)} (hp : Spells p Q) (hrest : ∀ q ∈ rest, Spells q Q) :
    Spells (choice p rest) Q :=
  Ensures.choice hp hrest

/-- A function of what is read. -/
theorem map {g : α → β} {Q : β → List TokenKind → List TokenKind → Nat → Prop}
    (hp : Spells p fun a => Q (g a)) : Spells (g <$> p) Q :=
  Ensures.map hp

/-- A part if there is one, and nothing otherwise. -/
theorem optional {Q : Option α → List TokenKind → List TokenKind → Nat → Prop}
    (hsome : Spells p fun v => Q (some v)) (hnone : ∀ us, Q none [] us 0) :
    Spells (optional p) Q :=
  Ensures.optional hsome fun _ => hnone _

/-- The span of a value is left open. -/
theorem withSpan {p : Parser (Span → α)}
    (hp : Spells p fun build ts us n => ∀ span, Q (build span) ts us n) :
    Spells (withSpan p) Q :=
  Ensures.withSpan (Ensures.mono hp fun _ _ _ _ h => h _)

/-- A name for what is expected makes no difference to what is read. -/
theorem labelled {c : Construct} (hp : Spells p Q) : Spells (labelled c p) Q :=
  Ensures.labelled hp

/-- What is read to recover is reported by one more failure. -/
theorem recoverWith {r : Parser α} (hp : Spells p Q)
    (hr : Spells r fun v ts us n => Q v ts us (n + 1)) : Spells (recoverWith p r) Q :=
  Ensures.recoverWith hp (Ensures.mono hr fun _ _ _ _ h f => by
    rwa [List.length_append, List.length_singleton])

/-- Reading where something else could be read silently. -/
theorem both {q : Parser β} (hp : Spells p P) (hq : Spells q fun _ _ _ n => n = 0) :
    Spells (both p q) P :=
  Ensures.both hp hq fun _ _ _ _ _ _ _ _ _ hP hnone => ⟨List.length_eq_zero_iff.1 hnone, hP⟩

/-- A recursive definition spells what its body spells of every parser that spells it. -/
theorem fix {body : Parser α → Parser α} (hbody : ∀ p, Spells p Q → Spells (body p) Q) :
    Spells (fix body) Q :=
  Ensures.fix hbody

/-- Nothing, or one part and then more of them. -/
theorem many {Q : List α → List TokenKind → List TokenKind → Nat → Prop} (hp : Spells p P)
    (hnil : ∀ us, Q [] [] us 0)
    (hcons : ∀ v vs ts us rest m n, P v ts (us ++ rest) m → Q vs us rest n →
      Q (v :: vs) (ts ++ us) rest (m + n)) :
    Spells (many p) Q := by
  refine Ensures.many hp (fun _ => hnil _) fun v vs first read rest before new hv hvs => ?_
  have h := hcons v vs (kindsOf first) (kindsOf read) (kindsOf rest) before.length new.length
    (by simpa using hv) hvs
  simpa using h

/-- What stands between two punctuators. -/
theorem between {left right : Punctuator} {P : α → List TokenKind → List TokenKind → Nat → Prop}
    (hp : Spells p P)
    (h : ∀ v ts us n, P v ts (.punctuator right :: us) n →
      Q v (.punctuator left :: ts ++ [.punctuator right]) us n) :
    Spells (between left right p) Q := by
  refine Ensures.between hp fun v l read r rest new hl hr hP => ?_
  have h' := h v (kindsOf read) (kindsOf rest) new.length (by simpa [hr] using hP)
  simpa [hl, hr] using h'

section Silent

variable {P : α → List TokenKind → Prop}

/-- Nothing is read, and nothing is reported. -/
theorem pure_silently {a : α} (h : P a []) : Spells (Pure.pure a) (Silently P) :=
  pure fun _ => ⟨h, rfl⟩

/-- A function of what is read silently. -/
theorem map_silently {g : α → β} {Q : β → List TokenKind → Prop}
    (hp : Spells p (Silently fun a => Q (g a))) : Spells (g <$> p) (Silently Q) :=
  map hp

/-- Nothing, or one part and then more of them, without a report. -/
theorem many_silently {Q : List α → List TokenKind → Prop} (hp : Spells p (Silently P))
    (hnil : Q [] []) (hcons : ∀ v vs ts us, P v ts → Q vs us → Q (v :: vs) (ts ++ us)) :
    Spells (Parser.many p) (Silently Q) := by
  refine many hp (fun _ => ⟨hnil, rfl⟩) fun v vs ts us rest m n hv hvs => ?_
  obtain ⟨hv, rfl⟩ := hv
  obtain ⟨hvs, rfl⟩ := hvs
  exact ⟨hcons v vs ts us hv hvs, rfl⟩

end Silent

end Spells

end CrudLang.Parser
