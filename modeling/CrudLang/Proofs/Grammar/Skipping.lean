import CrudLang.Proofs.Parser.Spells
import CrudLang.Syntax.Recovery

/-!
# What recovery skips

The parsers that skip what cannot be read report nothing themselves, and each of them skips at least
one token: `skips_statementError`, `skips_strayBrace`, `skips_skippedBlock`.
-/

namespace CrudLang.Grammar

open CrudLang.Parser

variable {α β : Type}

/-- The parser reports nothing. -/
def Quiet (p : Parser α) : Prop :=
  Spells p (Silently fun _ _ => True)

/-- The parser reports nothing and reads at least one token. -/
def Skips (p : Parser α) : Prop :=
  Spells p (Silently fun _ ts => ts ≠ [])

namespace Skips

/-- A parser that skips is quiet. -/
theorem quiet {p : Parser α} (hp : Skips p) : Quiet p :=
  hp.mono fun _ _ _ _ h => ⟨trivial, h.2⟩

/-- One token is read. -/
theorem satisfy {read? : TokenKind → Option α} {e : Expectation} : Skips (satisfy read? e) := by
  refine Spells.satisfy.mono fun _ ts _ _ h => ⟨?_, h.2⟩
  obtain ⟨k, rfl, -⟩ := h.1
  exact List.cons_ne_nil k []

/-- Any token but some. -/
theorem noneOf (kinds : List TokenKind) : Skips (noneOf kinds) := by
  unfold Parser.noneOf select
  exact Skips.satisfy

/-- Any token. -/
theorem anyToken : Skips anyToken := by
  unfold Parser.anyToken
  exact Skips.satisfy

/-- A given token. -/
theorem token (kind : TokenKind) : Skips (token kind) :=
  Skips.satisfy

/-- Behind the first token, anything quiet may be read. -/
theorem bind {p : Parser α} {f : α → Parser β} (hp : Skips p) (hf : ∀ a, Quiet (f a)) :
    Skips (p >>= f) :=
  Spells.silently hp fun a _ hts => (hf a).mono fun _ _ _ _ h => ⟨by simp [hts], h.2⟩

/-- Either of two parsers that skip. -/
theorem orElse {p q : Parser α} (hp : Skips p) (hq : Skips q) : Skips (orElse p q) :=
  Spells.orElse hp hq

end Skips

namespace Quiet

/-- A quiet parser adds no failure to those that were reported. -/
theorem ensures {p : Parser α} (hp : Quiet p) : Ensures p fun _ _ _ new => new = [] := by
  intro s v t ht
  obtain ⟨read, new, hread, hnew, -, hsilent⟩ := hp s v t ht
  exact ⟨read, new, hread, hnew, List.length_eq_zero_iff.1 hsilent⟩

/-- Whatever else is known of the tokens read, a parser may be known to be quiet. -/
theorem of_silently {p : Parser α} {P : α → List TokenKind → Prop} (hp : Spells p (Silently P)) :
    Quiet p :=
  hp.mono fun _ _ _ _ h => ⟨trivial, h.2⟩

/-- Reading nothing reports nothing. -/
theorem pure (a : α) : Quiet (Pure.pure a : Parser α) :=
  Spells.pure_silently trivial

theorem bind {p : Parser α} {f : α → Parser β} (hp : Quiet p) (hf : ∀ a, Quiet (f a)) :
    Quiet (p >>= f) :=
  Spells.silently hp fun a _ _ => hf a

/-- A part that may be missing. -/
theorem optional {p : Parser α} (hp : Quiet p) : Quiet (optional p) :=
  Spells.optional hp fun _ => ⟨trivial, rfl⟩

/-- Any number of parts with at least one token each. -/
theorem many {p : Parser α} (hp : Skips p) : Quiet (many p) :=
  Spells.many_silently hp trivial fun _ _ _ _ _ _ => trivial

end Quiet

/-- Behind the first of two punctuators, anything quiet may be read. -/
theorem Skips.between {left right : Punctuator} {p : Parser α} (hp : Quiet p) :
    Skips (between left right p) := by
  refine Skips.bind (Skips.token _) fun _ => ?_
  refine Quiet.bind hp fun v => ?_
  refine Quiet.bind (Skips.token _).quiet fun _ => ?_
  exact Quiet.pure v

/-- A balanced group has at least its opening brace. -/
theorem skips_braceGroup : Skips braceGroup := by
  refine Spells.fix fun group hgroup => ?_
  -- inside a group stand groups and tokens that are no braces
  have hitem := Skips.orElse hgroup (Skips.noneOf [.punctuator .leftBrace, .punctuator .rightBrace])
  refine Skips.bind (Skips.between (Quiet.many hitem)) fun _ => ?_
  exact Quiet.pure _

/-- What is skipped up to the end of the input begins with an opening brace. -/
theorem spells_openGroup :
    Spells openGroup (Silently fun _ ts => ∃ us, ts = .punctuator .leftBrace :: us) := by
  refine Spells.silently (Spells.token _) fun _ _ hts => ?_
  have hothers : Quiet (do let _ ← many anyToken; pure ()) :=
    Quiet.bind (Quiet.many Skips.anyToken) fun _ => Quiet.pure ()
  refine hothers.mono fun _ us _ n h => ?_
  exact ⟨⟨us, by rw [hts]; rfl⟩, h.2⟩

/-- A group, balanced or not, has at least its opening brace. -/
theorem skips_skipGroup : Skips skipGroup := by
  refine Skips.orElse skips_braceGroup (spells_openGroup.mono fun _ ts _ n h => ?_)
  obtain ⟨⟨us, rfl⟩, hsilent⟩ := h
  exact ⟨List.cons_ne_nil _ us, hsilent⟩

/-- The first unit that is skipped has at least one token. -/
theorem skips_firstUnit : Skips firstUnit :=
  Skips.orElse skips_skipGroup (Skips.noneOf _)

/-- So has each further one. -/
theorem skips_furtherUnit : Skips furtherUnit :=
  Skips.orElse skips_skipGroup (Skips.noneOf _)

section Errors

/-- What is skipped is a statement with the span of its tokens. -/
theorem ensures_error {p : Parser (Span → Stmt)}
    (hp : Spells p (Silently fun build ts => ts ≠ [] ∧ build = Stmt.error)) :
    Ensures (withSpan p) fun stmt read _ new =>
      stmt = .error (spanOfRun read) ∧ read ≠ [] ∧ new = [] := by
  refine Ensures.withSpan (Ensures.mono hp fun build read _ new h => ?_)
  obtain ⟨⟨hne, rfl⟩, hsilent⟩ := h
  refine ⟨rfl, ?_, List.length_eq_zero_iff.1 hsilent⟩
  rintro rfl
  exact hne rfl

/-- A statement that is skipped has the span of its tokens, of which there is at least one. -/
theorem ensures_statementError : Ensures statementError fun stmt read _ new =>
    stmt = .error (spanOfRun read) ∧ read ≠ [] ∧ new = [] := by
  have hsemicolon : Quiet (optional (punctuator .semicolon)) := .optional (Skips.token _).quiet
  refine ensures_error ?_
  refine Spells.silently skips_firstUnit fun _ ts hts => ?_
  refine Spells.silently (Quiet.many skips_furtherUnit) fun _ us _ => ?_
  refine Spells.silently hsemicolon fun _ vs _ => ?_
  exact Spells.pure fun _ => ⟨⟨by simp [hts], rfl⟩, rfl⟩

/-- A closing brace that closes nothing has its own span. -/
theorem ensures_strayBrace : Ensures strayBrace fun stmt read _ new =>
    stmt = .error (spanOfRun read) ∧ read ≠ [] ∧ new = [] := by
  refine ensures_error ?_
  refine Spells.silently (Skips.token _) fun _ ts hts => ?_
  exact Spells.pure fun _ => ⟨⟨by simp [hts], rfl⟩, rfl⟩

/-- What stands for tokens with their span stands for their kinds. -/
theorem spells_of_ensures_error {p : Parser Stmt} (hp : Ensures p fun stmt read _ new =>
      stmt = .error (spanOfRun read) ∧ read ≠ [] ∧ new = []) :
    Spells p (Silently fun stmt ts => ts ≠ [] ∧ ∃ span, stmt = .error span) := by
  refine hp.mono fun stmt read _ new h => ?_
  obtain ⟨rfl, hne, rfl⟩ := h
  exact ⟨⟨fun hnil => hne (List.map_eq_nil_iff.1 hnil), _, rfl⟩, rfl⟩

/-- A statement that cannot be read stands for at least one token. -/
theorem spells_statementError : Spells statementError
    (Silently fun stmt ts => ts ≠ [] ∧ ∃ span, stmt = .error span) :=
  spells_of_ensures_error ensures_statementError

/-- A closing brace that closes nothing is one token. -/
theorem spells_strayBrace : Spells strayBrace
    (Silently fun stmt ts => ts ≠ [] ∧ ∃ span, stmt = .error span) :=
  spells_of_ensures_error ensures_strayBrace

end Errors

/-- Of the tokens that are none of those listed, one is skipped. -/
theorem skips_other (kinds : List TokenKind) : Skips (both anyToken (noneOf kinds)) :=
  Spells.both Skips.anyToken ((Skips.noneOf kinds).mono fun _ _ _ _ h => h.2)

/-- What is balanced is skipped without a report. -/
theorem quiet_balanced : Quiet balanced := by
  -- pairs of braces, pairs of parentheses, and tokens that are neither
  refine Spells.fix fun inner hinner => ?_
  refine Quiet.bind (Quiet.many ?_) fun _ => Quiet.pure _
  refine Skips.orElse (Skips.between hinner) (Skips.orElse (Skips.between hinner) ?_)
  exact skips_other _

/-- A block that is skipped has at least its opening brace. -/
theorem skips_skippedBlock : Skips skippedBlock := by
  have hblock : Skips (do
      between .leftBrace .rightBrace balanced
      pure (Block.mk [] : Span → Block Stmt)) :=
    Skips.bind (Skips.between quiet_balanced) fun _ => Quiet.pure _
  exact Spells.withSpan (hblock.mono fun _ _ _ _ h _ => h)

end CrudLang.Grammar
