import CrudLang.Proofs.Grammar.Recovery
import CrudLang.Proofs.Parser.Pending

/-!
# Reading does not go back

A parser is onward if it neither goes back where it succeeds nor fails further back than it began.
The combinators preserve this, so the whole grammar is onward: `onward_statement`.
-/

namespace CrudLang

/-- Not more is left than there was: neither behind what has been read nor where reading has
failed. -/
def Reply.Within {α : Type} (s : State) : Reply α → Prop
  | .ok _ t => t.rest.size ≤ s.rest.size
  | .fail f => f.rest.size ≤ s.rest.size

namespace Parser

variable {α β : Type} {p q : Parser α}

/-- The parser never goes back. -/
def Onward (p : Parser α) : Prop :=
  ∀ s, (p s).Within s

namespace Onward

/-- An onward parser does not go back where it succeeds. -/
theorem ok (h : Onward p) {s t : State} {v : α} (ht : p s = .ok v t) :
    t.rest.size ≤ s.rest.size := by
  have hs := h s
  rwa [ht] at hs

/-- An onward parser does not fail further back than it began. -/
theorem fail (h : Onward p) {s : State} {f : Failure} (hf : p s = .fail f) :
    f.rest.size ≤ s.rest.size := by
  have hs := h s
  rwa [hf] at hs

/-- A parser is onward if it does not go back in either case. -/
theorem of_cases (hok : ∀ s v t, p s = .ok v t → t.rest.size ≤ s.rest.size)
    (hfail : ∀ s f, p s = .fail f → f.rest.size ≤ s.rest.size) : Onward p := by
  intro s
  cases hp : p s with
  | ok v t => exact hok s v t hp
  | fail f => exact hfail s f hp

/-- Reading nothing goes nowhere. -/
theorem pure (a : α) : Onward (Pure.pure a : Parser α) :=
  fun _ => Nat.le_refl _

/-- One thing after the other. -/
theorem bind {f : α → Parser β} (hp : Onward p) (hf : ∀ a, Onward (f a)) : Onward (p >>= f) := by
  refine of_cases (fun s b u hb => ?_) fun s e he => ?_
  · obtain ⟨a, t, ha, hb⟩ := of_bind_eq_ok hb
    exact Nat.le_trans ((hf a).ok hb) (hp.ok ha)
  · rcases of_bind_eq_fail he with he | ⟨a, t, ha, he⟩
    · exact hp.fail he
    · exact Nat.le_trans ((hf a).fail he) (hp.ok ha)

/-- A token is read or expected right here. -/
theorem satisfy {read? : TokenKind → Option α} {e : Expectation} :
    Onward (Parser.satisfy read? e) := by
  refine of_cases (fun s v t ht => Nat.le_of_lt (Consumes.satisfy s v t ht)) fun s f hf => ?_
  rw [of_satisfy_eq_fail hf]
  exact Failure.size_note_le _ _ _

/-- A given token. -/
theorem token (kind : TokenKind) : Onward (Parser.token kind) :=
  satisfy

/-- What stands between two punctuators. -/
theorem between {left right : Punctuator} (hp : Onward p) :
    Onward (Parser.between left right p) := by
  refine .bind (.token _) fun _ => ?_
  refine .bind hp fun v => ?_
  refine .bind (.token _) fun _ => ?_
  exact .pure v

/-- The second parser starts where the first one did. -/
theorem orElse (hp : Onward p) (hq : Onward q) : Onward (Parser.orElse p q) := by
  refine of_cases (fun s v t ht => ?_) fun s f hf => ?_
  · rcases of_orElse_eq_ok ht with ht | ⟨f, -, ht⟩
    · exact hp.ok ht
    · exact hq.ok (s := { s with pending := some f }) ht
  · obtain ⟨g, -, hf⟩ := of_orElse_eq_fail hf
    exact hq.fail (s := { s with pending := some g }) hf

/-- A value that is told its span. -/
theorem withSpan {p : Parser (Span → α)} (hp : Onward p) : Onward (Parser.withSpan p) := by
  refine of_cases (fun s v t ht => ?_) fun s f hf => hp.fail (of_withSpan_eq_fail hf)
  obtain ⟨build, hbuild, -⟩ := of_withSpan_eq_ok ht
  exact hp.ok hbuild

/-- A name for what is expected moves a failure no further back than the beginning. -/
theorem labelled {c : Construct} (hp : Onward p) : Onward (Parser.labelled c p) := by
  refine of_cases (fun s v t ht => ?_) fun s f hf => ?_
  · obtain ⟨u, hu, rfl⟩ := of_labelled_eq_ok ht
    exact hp.ok (s := { s with pending := none }) (t := u) hu
  · obtain ⟨g, hg, rfl⟩ := of_labelled_eq_fail hf
    refine Nat.le_trans (Failure.size_join_le _ _) ?_
    rw [Failure.rest_summarize]
    exact hp.fail (s := { s with pending := none }) hg

/-- A failure that cannot be recovered from remains where it is. -/
theorem recoverWith {r : Parser α} (hp : Onward p) (hr : Forward r) :
    Onward (Parser.recoverWith p r) := by
  refine of_cases (fun s v t ht => ?_) fun s f hf => hp.fail (of_recoverWith_eq_fail hf)
  rcases of_recoverWith_eq_ok ht with ht | ⟨f, u, -, hu, rfl⟩
  · exact hp.ok ht
  · exact hr { s with pending := none } v u hu

/-- Whether a parser goes back depends on how it answers at each place alone. -/
theorem isLocal : Local fun p : Parser α => Onward p := by
  intro p h s
  obtain ⟨q, hq, heq⟩ := h s.rest
  rw [heq s rfl]
  exact hq s

/-- A parser that fails at once. -/
theorem fails : Onward (fun s => .fail ⟨s.rest, []⟩ : Parser α) :=
  fun _ => Nat.le_refl _

/-- A recursive definition is onward if its body makes onward parsers of onward ones. -/
theorem fix {body : Parser α → Parser α} (hbody : ∀ p, Onward p → Onward (body p)) :
    Onward (Parser.fix body) :=
  isLocal.fix fails hbody

/-- A recursive definition ensures what its body ensures of every onward parser that ensures it. -/
theorem ensures_fix {body : Parser α → Parser α}
    {Q : α → List Token → List Token → List Failure → Prop}
    (honward : ∀ p, Onward p → Onward (body p))
    (hbody : ∀ p, Onward p → Ensures p Q → Ensures (body p) Q) : Ensures (Parser.fix body) Q := by
  have hboth : Onward (Parser.fix body) ∧ Ensures (Parser.fix body) Q :=
    (isLocal.and Ensures.isLocal).fix ⟨fails, fun _ _ _ h => nomatch h⟩
      fun p hp => ⟨honward p hp.1, hbody p hp.1 hp.2⟩
  exact hboth.2

end Onward

end Parser

namespace Grammar

open CrudLang.Parser

/-- The combinators preserve it that parsers are onward. -/
theorem congruence_onward : Congruence fun {_} p _ => Onward p where
  pure a := .pure a
  bind hp hf := .bind hp hf
  satisfy _ := .satisfy
  orElse hp hq := .orElse hp hq
  withSpan hp := .withSpan hp
  labelled hp := .labelled hp
  fix hbody := .fix fun p hp => hbody p p hp

/-- Braces and the skipping of statements do too. -/
theorem blockGuarded_onward :
    BlockGuarded (fun {_} p _ => Onward p) (fun {_} p _ => Onward p) where
  toGuarded := congruence_onward.guarded
  braces h := .between h
  statementError h := h.recoverWith (.of_spells spells_statementError)

/-- Blocks are onward if statements are. -/
theorem onward_strictBlock {p : Parser Stmt} (hp : Onward p) : Onward (strictBlock p) :=
  blockGuarded_onward.strictBlock (q := p) hp

/-- Statements of any form are onward if blocks are. -/
theorem onward_bareStatement {b : Parser (Block Stmt)} (hb : Onward b) :
    Onward (bareStatement b) :=
  @Congruence.bareStatement _ congruence_onward _ b hb
    (@BlockGuarded.classDefinition _ _ blockGuarded_onward _ b hb)

/-- A statement that need not be skipped. -/
theorem onward_terminated {b : Parser (Block Stmt)} (hb : Onward b) :
    Onward (do
      let stmt ← bareStatement b
      let _ ← optional (punctuator .semicolon)
      pure stmt) := by
  refine .bind (onward_bareStatement hb) fun stmt => ?_
  refine .bind congruence_onward.semicolon fun _ => ?_
  exact .pure stmt

/-- Statements, be they read or skipped, are onward if blocks are. -/
theorem onward_statementStep {b : Parser (Block Stmt)} (hb : Onward b) :
    Onward (statementStep b) :=
  (onward_terminated hb).labelled.recoverWith (.of_spells spells_statementError)

/-- The parser for statements never goes back. -/
theorem onward_statement : Onward statement := by
  rw [← statementBy_strictBlock_eq]
  exact .fix fun p hp => onward_statementStep (onward_strictBlock hp)

end Grammar

end CrudLang
