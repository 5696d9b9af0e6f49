import CrudLang.Proofs.Comparison.Statements
import CrudLang.Proofs.Parser.Pending

/-!
# Invariants of what has been reported

Failures are reported one behind the other while reading goes on. An invariant of the present place
and of the failures reported so far is maintained by all combinators if reading a token maintains it
(`Grammar.Maintains`). Where statements are read or skipped, there may be an invariant of its own,
which also says something of what is pending. If a statement maintains that one, then statements one
behind the other do (`Grammar.exists_of_many_eq_ok`), and blocks maintain the first one
(`Grammar.maintains_strictBlock`).
-/

namespace CrudLang.Grammar

open CrudLang.Parser

/-- Reading a token maintains the invariant. -/
def Advances (Inv : Input → List Failure → Prop) : Prop :=
  ∀ (a b : Input) (fs : List Failure) (t : Token), Inv a fs → a.tokens = t :: b.tokens → Inv b fs

/-- From inputs with fewer than `n` tokens, the parser maintains the invariant. -/
def Maintains (Inv : Input → List Failure → Prop) (n : Nat) {α : Type} (p : Parser α) : Prop :=
  ∀ s v t, s.rest.size < n → Inv s.rest s.reported → p s = .ok v t →
    t.rest.size ≤ s.rest.size ∧ Inv t.rest t.reported

variable {Inv : Input → List Failure → Prop} {n : Nat} {α β : Type} {p q : Parser α}

namespace Maintains

/-- A value maintains everything. -/
theorem pure (a : α) : Maintains Inv n (Pure.pure a : Parser α) := by
  intro s v t _ h ht
  obtain ⟨-, rfl⟩ := of_pure_eq_ok ht
  exact ⟨Nat.le_refl _, h⟩

/-- One parser behind another maintains what both do. -/
theorem bind {f : α → Parser β} (hp : Maintains Inv n p) (hf : ∀ a, Maintains Inv n (f a)) :
    Maintains Inv n (p >>= f) := by
  intro s b u hs h hb
  obtain ⟨a, t, ha, hb⟩ := of_bind_eq_ok hb
  obtain ⟨hle, ht⟩ := hp s a t hs h ha
  obtain ⟨hle', hu⟩ := hf a t b u (Nat.lt_of_le_of_lt hle hs) ht hb
  exact ⟨Nat.le_trans hle' hle, hu⟩

/-- A token that is read leads from one place to the next. -/
theorem satisfy (hnext : Advances Inv) {read? : TokenKind → Option α} {e : Expectation} :
    Maintains Inv n (Parser.satisfy read? e) := by
  intro s v t _ h ht
  obtain ⟨token, htokens, -, hreported⟩ := of_satisfy_eq_ok ht
  exact ⟨Nat.le_of_lt (Consumes.satisfy s v t ht), hreported ▸ hnext _ _ _ _ h htokens⟩

/-- The same for one kind of token. -/
theorem token (hnext : Advances Inv) (kind : TokenKind) : Maintains Inv n (Parser.token kind) :=
  satisfy hnext

/-- Whichever alternative is taken, it starts from the same place and reports. -/
theorem orElse (hp : Maintains Inv n p) (hq : Maintains Inv n q) :
    Maintains Inv n (Parser.orElse p q) := by
  intro s v t hs h ht
  rcases of_orElse_eq_ok ht with hv | ⟨f, -, hv⟩
  · exact hp s v t hs h hv
  · exact hq { s with pending := some f } v t hs h hv

/-- The span of what is read. -/
theorem withSpan {p : Parser (Span → α)} (hp : Maintains Inv n p) :
    Maintains Inv n (Parser.withSpan p) := by
  intro s v t hs h ht
  obtain ⟨build, hbuild, -⟩ := of_withSpan_eq_ok ht
  exact hp s build t hs h hbuild

/-- A label changes pending failures only, not those reported. -/
theorem labelled {c : Construct} (hp : Maintains Inv n p) :
    Maintains Inv n (Parser.labelled c p) := by
  intro s v t hs h ht
  obtain ⟨u, hu, rfl⟩ := of_labelled_eq_ok ht
  exact hp { s with pending := none } v u hs h hu

/-- Maintaining an invariant is a property of what a parser does from each state. -/
theorem isLocal : Local fun p : Parser α => Maintains Inv n p := by
  intro p h s
  obtain ⟨q, hq, heq⟩ := h s.rest
  rw [heq s rfl]
  exact hq s

/-- A recursive definition maintains what one round of it does. -/
theorem fix {body : Parser α → Parser α}
    (hbody : ∀ p, Maintains Inv n p → Maintains Inv n (body p)) :
    Maintains Inv n (Parser.fix body) :=
  isLocal.fix (fun _ _ _ _ _ h => nomatch h) hbody

end Maintains

/-- The combinators maintain the invariant. -/
theorem congruence_maintains (hnext : Advances Inv) (n : Nat) :
    Congruence fun {_} p _ => Maintains Inv n p where
  pure a := .pure a
  bind hp hf := .bind hp hf
  satisfy _ := .satisfy hnext
  orElse hp hq := .orElse hp hq
  withSpan hp := .withSpan hp
  labelled hp := .labelled hp
  fix hbody := .fix fun p hp => hbody p p hp

/-- A statement, if it need not be skipped, given that blocks maintain the invariant. -/
theorem maintains_terminated (hnext : Advances Inv)
    (hb : Maintains Inv n (strictBlock statement)) :
    Maintains Inv n (terminated (bareStatement (strictBlock statement))) := by
  have C := congruence_maintains hnext n
  have hmembers : Maintains Inv n
      (between .leftBrace .rightBrace (many (member (strictBlock statement)))) := by
    have hmember := @Congruence.member _ C _ (strictBlock statement) hb
    refine .bind (.token hnext _) fun _ => ?_
    refine .bind (C.many (q := member (strictBlock statement)) hmember) fun _ => ?_
    refine .bind (.token hnext _) fun _ => ?_
    exact .pure _
  have hclass : Maintains Inv n (classDefinition (strictBlock statement)) := by
    refine .labelled ?_
    refine .bind (.token hnext _) fun _ => ?_
    refine .bind C.identifier fun _ => ?_
    refine hmembers.bind fun _ => ?_
    exact .pure _
  refine .bind (@Congruence.bareStatement _ C _ (strictBlock statement) hb hclass) fun _ => ?_
  refine .bind C.semicolon fun _ => ?_
  exact .pure _

section Statements

variable {Between : State → Prop}

/-- Statements one behind the other maintain what each of them maintains. -/
theorem exists_of_many_eq_ok {p : Parser Stmt} (hconsumes : Consumes p)
    (hstep : ∀ s v t, s.rest.size < n → Between s → p s = .ok v t → Between t) {s t : State}
    {vs : List Stmt} (hs : s.rest.size < n) (h : Between s) (ht : many p s = .ok vs t) :
    ∃ u, Between u ∧ u.rest = t.rest ∧ u.reported = t.reported := by
  induction hsize : s.rest.size using Nat.strongRecOn generalizing s vs with
  | ind size ih =>
    rcases of_many_eq_ok hconsumes ht with ⟨v, u, ws, hv, hws, -⟩ | ⟨-, hrest, hreported⟩
    · have hless := hconsumes s v u hv
      exact ih _ (hsize ▸ hless) (Nat.lt_trans hless hs) (hstep s v u hs h hv) hws rfl
    · exact ⟨s, h, hrest.symm, hreported.symm⟩

/-- Blocks maintain the invariant, given what a statement maintains: nothing is pending behind an
opening brace, and the statements end at a closing one. -/
theorem maintains_strictBlock (hnext : Advances Inv)
    (hopen : ∀ a fs, Inv a fs → Between ⟨a, none, fs⟩)
    (hclose : ∀ s c cs, Between s → s.rest.tokens = c :: cs → c.kind = .punctuator .rightBrace →
      Inv s.rest s.reported)
    (hstep : ∀ n s v t, Maintains Inv n (strictBlock statement) → s.rest.size < n → Between s →
      statement s = .ok v t → Between t) (n : Nat) : Maintains Inv n (strictBlock statement) := by
  -- the statements in a block hold blocks with less input
  induction n with
  | zero => exact fun s _ _ hs => absurd hs (Nat.not_lt_zero _)
  | succ n ih =>
    intro s v t hs h ht
    refine ⟨Forward.of_spells (spells_strictBlock spells_statement) s v t ht, ?_⟩
    obtain ⟨w, hw, rfl⟩ := of_labelled_eq_ok ht
    obtain ⟨build, hbuild, -⟩ := of_withSpan_eq_ok hw
    obtain ⟨stmts, r, hstmts, hpure⟩ := of_bind_eq_ok hbuild
    obtain ⟨-, rfl⟩ := of_pure_eq_ok hpure
    obtain ⟨l, ts, u, c, us, htokens, -, hmany, hrest, hc, rfl⟩ := exists_of_between_eq_ok hstmts
    have hsize : s.rest.size = (Input.ofList ts).size + 1 := Input.size_of_tokens_eq_cons htokens
    have hstart : Between ⟨.ofList ts, none, s.reported⟩ := hopen _ _ (hnext _ _ _ _ h htokens)
    obtain ⟨u', hu', hrest', hreported⟩ := exists_of_many_eq_ok consumes_statement
      (fun s v t hs h ht => hstep n s v t ih hs h ht) (by dsimp only; omega) hstart hmany
    dsimp only
    rw [← hreported]
    exact hnext _ _ _ _ (hclose u' c us hu' (by rw [hrest', hrest]) hc) (by rw [hrest', hrest]; rfl)

end Statements

end CrudLang.Grammar
