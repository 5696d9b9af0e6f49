import CrudLang.Proofs.Grammar.Recovery
import CrudLang.Proofs.Parser.Reads

/-!
# What was reported before

Failures are reported behind those that were reported already, and no parser looks at the latter.
`Steady p` says so of a parser: whatever was reported before, it answers the same and itself reports
the same. The combinators preserve it, so the whole grammar is steady.
-/

namespace CrudLang.Grammar

open CrudLang.Parser

/-- What was reported before makes no difference to the parser. -/
def Steady {α : Type} (p : Parser α) : Prop :=
  ∀ rest pending,
    (∃ f, ∀ before, p ⟨rest, pending, before⟩ = .fail f) ∨
      ∃ v rest' pending' new, ∀ before,
        p ⟨rest, pending, before⟩ = .ok v ⟨rest', pending', before ++ new⟩

namespace Steady

variable {α β : Type} {p q : Parser α}

/-- A parser that fails or reports nothing. -/
theorem of_silent (h : ∀ rest pending,
    (∃ f, ∀ before, p ⟨rest, pending, before⟩ = .fail f) ∨
      ∃ v rest' pending', ∀ before,
        p ⟨rest, pending, before⟩ = .ok v ⟨rest', pending', before⟩) : Steady p := by
  intro rest pending
  refine (h rest pending).imp_right fun ⟨v, rest', pending', hv⟩ =>
    ⟨v, rest', pending', [], fun before => ?_⟩
  rw [hv, List.append_nil]

/-- Reading nothing reports nothing. -/
theorem pure (a : α) : Steady (Pure.pure a : Parser α) :=
  .of_silent fun rest pending => .inr ⟨a, rest, pending, fun _ => rfl⟩

/-- What the first parser reports stands before what the second one reports. -/
theorem bind {f : α → Parser β} (hp : Steady p) (hf : ∀ a, Steady (f a)) : Steady (p >>= f) := by
  intro rest pending
  rcases hp rest pending with ⟨e, he⟩ | ⟨a, rest₁, pending₁, new₁, ha⟩
  · exact .inl ⟨e, fun before => by rw [bind_apply, he]⟩
  · refine (hf a rest₁ pending₁).imp ?_ ?_
    · rintro ⟨e, he⟩
      exact ⟨e, fun before => by rw [bind_apply, ha]; exact he _⟩
    · rintro ⟨b, rest₂, pending₂, new₂, hb⟩
      refine ⟨b, rest₂, pending₂, new₁ ++ new₂, fun before => ?_⟩
      rw [bind_apply, ha, ← List.append_assoc]
      exact hb _

/-- Reading one token reports nothing. -/
theorem satisfy {read? : TokenKind → Option α} {e : Expectation} :
    Steady (Parser.satisfy read? e) := by
  refine .of_silent fun rest pending => ?_
  cases hnext : rest.next? with
  | none => exact .inl ⟨.note pending rest e, fun _ => by simp [Parser.satisfy, hnext, unexpected]⟩
  | some next =>
    obtain ⟨token, rest'⟩ := next
    cases hread : read? token.kind with
    | none =>
      exact .inl ⟨.note pending rest e, fun _ => by
        simp [Parser.satisfy, hnext, hread, unexpected]⟩
    | some v =>
      exact .inr ⟨v, rest', pending, fun _ => by simp [Parser.satisfy, hnext, hread]⟩

/-- A given token. -/
theorem token (kind : TokenKind) : Steady (Parser.token kind) :=
  satisfy

/-- Any token but some. -/
theorem noneOf (kinds : List TokenKind) : Steady (Parser.noneOf kinds) := by
  unfold Parser.noneOf select
  exact satisfy

/-- What stands between two punctuators. -/
theorem between {left right : Punctuator} (hp : Steady p) :
    Steady (Parser.between left right p) := by
  refine .bind (.token _) fun _ => ?_
  refine .bind hp fun v => ?_
  refine .bind (.token _) fun _ => ?_
  exact .pure v

/-- The second parser starts with what was reported before the first one. -/
theorem orElse (hp : Steady p) (hq : Steady q) : Steady (Parser.orElse p q) := by
  intro rest pending
  rcases hp rest pending with ⟨e, he⟩ | ⟨v, rest', pending', new, hv⟩
  · refine (hq rest (some e)).imp ?_ ?_
    · rintro ⟨e', he'⟩
      exact ⟨e', fun before => by simp [Parser.orElse, he, he']⟩
    · rintro ⟨v, rest', pending', new, hv⟩
      exact ⟨v, rest', pending', new, fun before => by simp [Parser.orElse, he, hv]⟩
  · exact .inr ⟨v, rest', pending', new, fun before => by simp [Parser.orElse, hv]⟩

/-- A value that is told its span. -/
theorem withSpan {p : Parser (Span → α)} (hp : Steady p) : Steady (Parser.withSpan p) := by
  intro rest pending
  refine (hp rest pending).imp ?_ ?_
  · rintro ⟨e, he⟩
    exact ⟨e, fun before => by simp [Parser.withSpan, he]⟩
  · rintro ⟨build, rest', pending', new, hbuild⟩
    exact ⟨build (spanOfRun (rest.tokens.take (rest.size - rest'.size))), rest', pending', new,
      fun before => by simp only [Parser.withSpan, hbuild]⟩

/-- A name for what is expected changes what is pending, and not what is reported. -/
theorem labelled {c : Construct} (hp : Steady p) : Steady (Parser.labelled c p) := by
  intro rest pending
  refine (hp rest none).imp ?_ ?_
  · rintro ⟨e, he⟩
    exact ⟨.join pending (e.summarize rest c), fun before => by rw [Parser.labelled, he]⟩
  · rintro ⟨v, rest', pending', new, hv⟩
    cases pending' with
    | none => exact ⟨v, rest', pending, new, fun before => by simp only [Parser.labelled, hv]⟩
    | some f =>
      exact ⟨v, rest', some (.join pending (f.summarize rest c)), new, fun before => by
        simp only [Parser.labelled, hv]⟩

/-- The failure that was recovered from is reported last. -/
theorem recoverWith {r : Parser α} (hp : Steady p) (hr : Steady r) :
    Steady (Parser.recoverWith p r) := by
  intro rest pending
  rcases hp rest pending with ⟨e, he⟩ | ⟨v, rest', pending', new, hv⟩
  · refine (hr rest none).imp ?_ ?_
    · rintro ⟨e', he'⟩
      exact ⟨e, fun before => by simp [Parser.recoverWith, he, he']⟩
    · rintro ⟨v, rest', pending', new, hv⟩
      exact ⟨v, rest', pending', new ++ [e], fun before => by simp [Parser.recoverWith, he, hv]⟩
  · exact .inr ⟨v, rest', pending', new, fun before => by simp [Parser.recoverWith, hv]⟩

/-- Steadiness depends on how a parser answers at each place alone. -/
theorem isLocal : Local fun p : Parser α => Steady p := by
  intro p h rest pending
  obtain ⟨q, hq, heq⟩ := h rest
  have hsame (before : List Failure) : p ⟨rest, pending, before⟩ = q ⟨rest, pending, before⟩ :=
    heq _ rfl
  simp only [hsame]
  exact hq rest pending

/-- A recursive definition is steady if its body makes steady parsers of steady ones. -/
theorem fix {body : Parser α → Parser α} (hbody : ∀ p, Steady p → Steady (body p)) :
    Steady (Parser.fix body) :=
  isLocal.fix (fun rest _ => .inl ⟨⟨rest, []⟩, fun _ => rfl⟩) hbody

end Steady

/-- A property of one parser is a relation that leaves the other one out. -/
theorem congruence_steady : Congruence fun {_} p _ => Steady p where
  pure a := .pure a
  bind hp hf := .bind hp hf
  satisfy _ := .satisfy
  orElse hp hq := .orElse hp hq
  withSpan hp := .withSpan hp
  labelled hp := .labelled hp
  fix hbody := .fix fun p hp => hbody p p hp

/-- What was reported before makes no difference to how a unit or a group is skipped. -/
theorem steady_skipGroup : Steady skipGroup := by
  refine .orElse (.fix fun group hgroup => ?_) ?_
  -- a balanced group, and what has no closing brace
  · refine .bind (.between ?_) fun _ => .pure _
    exact congruence_steady.many (q := group) (hgroup.orElse (.noneOf _))
  · refine .bind (.token _) fun _ => ?_
    exact .bind (congruence_steady.many (q := anyToken) .satisfy) fun _ => .pure _

/-- Skipping a statement is steady. -/
theorem steady_statementError : Steady statementError := by
  have hunit : Steady furtherUnit := steady_skipGroup.orElse (.noneOf _)
  refine .withSpan ?_
  refine .bind (steady_skipGroup.orElse (.noneOf _)) fun _ => ?_
  refine .bind (congruence_steady.many (q := furtherUnit) hunit) fun _ => ?_
  refine .bind congruence_steady.semicolon fun _ => ?_
  exact .pure _

/-- Skipping a brace that closes nothing is steady. -/
theorem steady_strayBrace : Steady strayBrace := by
  refine .withSpan ?_
  exact .bind (.token _) fun _ => .pure _

/-- Braces and the skipping of statements are steady too. -/
theorem blockGuarded_steady :
    BlockGuarded (fun {_} p _ => Steady p) (fun {_} p _ => Steady p) where
  toGuarded := congruence_steady.guarded
  braces h := .between h
  statementError h := h.recoverWith steady_statementError

/-- The parser for statements is steady. -/
theorem steady_statementBy_strictBlock : Steady (statementBy strictBlock) := by
  have hstep {b : Parser (Block Stmt)} (hb : Steady b) : Steady (statementStep b) :=
    @BlockGuarded.statementStep _ _ blockGuarded_steady b b hb
  exact .fix fun p hp => hstep (blockGuarded_steady.strictBlock (q := p) hp)

/-- The parser for statements, with blocks that are skipped, is steady. -/
theorem steady_statement : Steady statement :=
  statementBy_strictBlock_eq ▸ steady_statementBy_strictBlock

end CrudLang.Grammar
