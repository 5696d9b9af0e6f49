import CrudLang.Proofs.Grammar.Recovery

/-!
# Tokens that are read without a failure

What is read and not skipped has a certain shape. Its braces are `Balanced`
(`Grammar.readsBalanced_statements`). A statement ends with a closing brace or has no braces at all
(`Stmt.Written.exists_concat_or_braceless`), so the last token, but for a semicolon behind the last
statement, is neither a semicolon nor the keyword `else` (`Stmt.ListWritten.endsStatement`).
-/

namespace CrudLang

section Endings

/-- A token that may stand in an expression. -/
def TokenKind.InExpression : TokenKind → Prop
  | .identifier _ | .number _ | .string _ => True
  | .keyword k => k ∈ [Keyword.true, .false, .new, .not, .and, .or]
  | .punctuator p => p ∉ [Punctuator.leftBrace, .rightBrace, .semicolon]

namespace TokenKind.InExpression

theorem binary {k : TokenKind} {op : BinaryOp} (h : BinaryOp.ofKind? k = some op) :
    k.InExpression := by
  unfold BinaryOp.ofKind? at h
  split at h <;> simp_all [InExpression]

theorem unary {k : TokenKind} {op : UnaryOp} (h : UnaryOp.ofKind? k = some op) :
    k.InExpression := by
  unfold UnaryOp.ofKind? at h
  split at h <;> simp_all [InExpression]

theorem parentheses {ts : List TokenKind} (h : ∀ k ∈ ts, k.InExpression) :
    ∀ k ∈ .punctuator .leftParen :: ts ++ [.punctuator .rightParen], k.InExpression :=
  List.forall_mem_append.2 ⟨List.forall_mem_cons.2 ⟨by simp [InExpression], h⟩,
    by simp [InExpression]⟩

end TokenKind.InExpression

mutual

/-- The tokens of an atom may stand in an expression. -/
theorem Expr.AtomWritten.inExpression {e : Expr} {ts : List TokenKind}
    (h : Expr.AtomWritten e ts) : ∀ k ∈ ts, k.InExpression := by
  match h with
  | .number | .string | .name | .new => simp [TokenKind.InExpression]
  | @Expr.AtomWritten.bool value _ => cases value <;> simp [TokenKind.InExpression]
  | .newWith hargs => simpa [TokenKind.InExpression] using args_inExpression hargs
  | .call hargs => simpa [TokenKind.InExpression] using args_inExpression hargs
  | .parentheses he => exact .parentheses he.inExpression

/-- The tokens of an expression may stand in an expression. -/
theorem Expr.Written.inExpression {level : Nat} {e : Expr} {ts : List TokenKind}
    (h : Expr.Written level e ts) : ∀ k ∈ ts, k.InExpression := by
  match h with
  | .atom he => exact he.inExpression
  | .unary _ hop he =>
    exact List.forall_mem_cons.2 ⟨.unary hop, he.inExpression⟩
  | .binary _ hop hl hr =>
    exact List.forall_mem_append.2
      ⟨hl.inExpression, List.forall_mem_cons.2 ⟨.binary hop, hr.inExpression⟩⟩
  | .assign hvalue => simpa [TokenKind.InExpression] using hvalue.inExpression

/-- The tokens of arguments may stand in an expression. -/
theorem args_inExpression {args : List Expr} {ts : List TokenKind}
    (h : ItemList (Expr.Written 0) args ts) : ∀ k ∈ ts, k.InExpression := by
  match h with
  | .nil => simp [TokenKind.InExpression]
  | @ItemList.cons _ _ _ _ ts us last he hes hlast =>
    have hlast : ∀ k ∈ last, k.InExpression := by
      rcases hlast with rfl | rfl <;> simp [TokenKind.InExpression]
    have hitems : ∀ k ∈ ts ++ us ++ last, k.InExpression :=
      List.forall_mem_append.2
        ⟨List.forall_mem_append.2 ⟨he.inExpression, furtherArgs_inExpression hes⟩, hlast⟩
    exact .parentheses hitems

theorem furtherArgs_inExpression {args : List Expr} {ts : List TokenKind}
    (h : FurtherItems (Expr.Written 0) args ts) : ∀ k ∈ ts, k.InExpression := by
  match h with
  | .nil => exact fun k hk => absurd hk List.not_mem_nil
  | .cons he hes =>
    exact List.forall_mem_cons.2 ⟨by simp [TokenKind.InExpression],
      List.forall_mem_append.2 ⟨he.inExpression, furtherArgs_inExpression hes⟩⟩

end

/-- A token that may stand in a statement without braces, but for the semicolon behind it. -/
def TokenKind.InBraceless (k : TokenKind) : Prop :=
  k.InExpression ∨ k ∈ [.keyword .var, .keyword .const, .keyword .return, .keyword .create,
    .keyword .read, .keyword .update, .keyword .delete]

theorem TokenKind.InBraceless.operation (op : CrudOp) :
    TokenKind.InBraceless (.keyword op.keyword) := by
  cases op <;> simp [CrudOp.keyword, InBraceless]

/-- A block ends with its closing brace. -/
theorem Block.Written.exists_concat {follow : Follow} {body : Block Stmt} {ts : List TokenKind}
    (h : Block.Written follow body ts) : ∃ us, ts = us ++ [.punctuator .rightBrace] := by
  cases h
  exact ⟨_, rfl⟩

/-- What follows `else` ends with a closing brace. -/
theorem Stmt.Written.exists_concat {follow : Follow} {stmt : Stmt} {ts : List TokenKind}
    (h : Stmt.Written follow stmt ts) (hkind : stmt.IsAlternative) :
    ∃ us, ts = us ++ [.punctuator .rightBrace] := by
  match h with
  | .if _ hbody =>
    obtain ⟨us, rfl⟩ := hbody.exists_concat
    exact ⟨_, (List.append_assoc ..).symm⟩
  | .ifElse _ _ hkind' halternative =>
    obtain ⟨us, rfl⟩ := halternative.exists_concat hkind'
    exact ⟨_, (List.append_assoc _ (_ :: us) _).symm⟩
  | .block hbody => exact hbody.exists_concat

/-- A statement that could be read ends with a closing brace or has no braces. -/
theorem Stmt.Written.exists_concat_or_braceless {follow : Follow} {stmt : Stmt}
    {ts : List TokenKind} (h : Stmt.Written follow stmt ts) (herror : ∀ span, stmt ≠ .error span) :
    (∃ us, ts = us ++ [.punctuator .rightBrace]) ∨ ∀ k ∈ ts, k.InBraceless := by
  have hexpression {us : List TokenKind} (hus : ∀ k ∈ us, k.InExpression) :
      ∀ k ∈ us, k.InBraceless := fun k hk => .inl (hus k hk)
  -- the forms with a block or members end with a brace, and the others have none
  cases h with
  | var => exact .inr (by simp [TokenKind.InBraceless, TokenKind.InExpression])
  | varWith hvalue | const hvalue =>
    refine .inr (List.forall_mem_cons.2 ⟨by simp [TokenKind.InBraceless], hexpression ?_⟩)
    simpa [TokenKind.InExpression] using hvalue.inExpression
  | func _ hbody =>
    obtain ⟨us, rfl⟩ := hbody.exists_concat
    exact .inl ⟨_, (List.append_assoc _ us _).symm⟩
  | «class» _ => exact .inl ⟨_, rfl⟩
  | «if» _ hbody =>
    obtain ⟨us, rfl⟩ := hbody.exists_concat
    exact .inl ⟨_, (List.append_assoc _ us _).symm⟩
  | ifElse _ _ hkind halternative =>
    obtain ⟨us, rfl⟩ := halternative.exists_concat hkind
    exact .inl ⟨_, (List.append_assoc _ (_ :: us) _).symm⟩
  | loop hbody =>
    obtain ⟨us, rfl⟩ := hbody.exists_concat
    exact .inl ⟨_ :: us, rfl⟩
  | «while» _ hbody =>
    obtain ⟨us, rfl⟩ := hbody.exists_concat
    exact .inl ⟨_, (List.append_assoc _ us _).symm⟩
  | @crud op =>
    refine .inr (List.forall_mem_cons.2 ⟨.operation op, ?_⟩)
    exact hexpression (by simp [TokenKind.InExpression])
  | @crudWith op _ _ _ _ hargs =>
    refine .inr (List.forall_mem_cons.2 ⟨.operation op, hexpression ?_⟩)
    simpa [TokenKind.InExpression] using args_inExpression hargs
  | «return» => exact .inr (by simp [TokenKind.InBraceless])
  | returnWith hvalue =>
    exact .inr (List.forall_mem_cons.2
      ⟨by simp [TokenKind.InBraceless], hexpression hvalue.inExpression⟩)
  | block hbody => exact .inl hbody.exists_concat
  | expr he => exact .inr (hexpression he.inExpression)
  | error _ => exact absurd rfl (herror _)

/-- A statement that could be read ends neither with a semicolon nor with `else`. -/
theorem Stmt.Written.exists_last {follow : Follow} {stmt : Stmt} {ts : List TokenKind}
    (h : Stmt.Written follow stmt ts) (herror : ∀ span, stmt ≠ .error span) :
    ∃ us k, ts = us ++ [k] ∧ k ≠ .punctuator .semicolon ∧ k ≠ .keyword .else := by
  obtain ⟨us, k, rfl⟩ : ∃ us k, ts = us ++ [k] :=
    ⟨_, _, (List.dropLast_concat_getLast h.ne_nil).symm⟩
  refine ⟨us, k, rfl, ?_⟩
  rcases h.exists_concat_or_braceless herror with ⟨vs, hvs⟩ | hbraceless
  · obtain ⟨rfl⟩ : k = .punctuator .rightBrace := by simpa using (List.append_inj' hvs rfl).2
    simp
  · have hk := hbraceless k (by simp)
    refine ⟨?_, ?_⟩ <;> rintro rfl <;>
      simp [TokenKind.InBraceless, TokenKind.InExpression] at hk

/-- The last token, but for a semicolon, is one that a statement may end with. -/
def EndsStatement (ts : List TokenKind) : Prop :=
  ∃ us k semi, ts = us ++ k :: semi ∧ Optionally .semicolon semi ∧ k ≠ .punctuator .semicolon ∧
    k ≠ .keyword .else

/-- Statements without an error end like a statement. -/
theorem Stmt.ListWritten.endsStatement {follow next : Follow} {stmts : List Stmt}
    {ts : List TokenKind} (h : Stmt.ListWritten follow next stmts ts)
    (hcount : Stmt.errorCountOfAll stmts = 0) : ts = [] ∨ EndsStatement ts := by
  induction stmts generalizing ts with
  | nil =>
    cases h
    exact .inl rfl
  | cons stmt stmts ih =>
    cases h with
    | @cons _ _ _ ts semi us hstmt hsemi _ hstmts =>
    obtain ⟨hcount, hcounts⟩ := Nat.add_eq_zero_iff.1 hcount
    right
    rcases ih hstmts hcounts with rfl | ⟨vs, k, semi', rfl, hsemi', hk⟩
    · -- the last statement ends with a brace or with a token of its own
      have herror (span : Span) : stmt ≠ .error span := by
        rintro rfl
        cases hcount
      obtain ⟨vs, k, rfl, hk⟩ := hstmt.exists_last herror
      exact ⟨vs, k, semi, by simp, hsemi, hk⟩
    · exact ⟨ts ++ semi ++ vs, k, semi', by simp, hsemi', hk⟩

end Endings

/-- Tokens in which every opening brace has its closing brace, and every closing brace its opening
one. -/
inductive Balanced : List Token → Prop
  | nil : Balanced []
  | other {t ts} : t.kind ≠ .punctuator .leftBrace → t.kind ≠ .punctuator .rightBrace →
      Balanced ts → Balanced (t :: ts)
  | group {l inner r ts} : l.kind = .punctuator .leftBrace → Balanced inner →
      r.kind = .punctuator .rightBrace → Balanced ts → Balanced (l :: (inner ++ r :: ts))

namespace Grammar

open CrudLang.Parser

/-- Balanced tokens leave the matching of braces behind them as it is. -/
theorem afterClosing_append {tokens : List Token} (h : Balanced tokens) (depth : Nat)
    (rest : List Token) : afterClosing depth (tokens ++ rest) = afterClosing depth rest := by
  induction h generalizing depth rest with
  | nil => rfl
  | other hl hr _ ih => rw [List.cons_append, afterClosing_other hl hr, ih]
  | group hl _ hr _ ihinner ih =>
    rw [List.cons_append, List.append_assoc, afterClosing_open hl, ihinner, List.cons_append,
      afterClosing_close_succ hr, ih]

end Grammar

namespace Balanced

variable {ts us : List Token}

theorem append (h : Balanced ts) (hus : Balanced us) : Balanced (ts ++ us) := by
  induction h with
  | nil => exact hus
  | other hl hr _ ih => exact .other hl hr ih
  | group hl hinner hr _ _ ih =>
    rw [List.cons_append, List.append_assoc, List.cons_append]
    exact .group hl hinner hr ih

/-- Every opening brace has its closing brace. -/
theorem exists_afterClosing {l : Token} {vs : List Token} (h : Balanced ts)
    (hts : l :: vs <:+ ts) (hl : l.kind = .punctuator .leftBrace) :
    ∃ after, Grammar.afterClosing 0 vs = some after := by
  induction h generalizing vs with
  | nil => cases List.suffix_nil.1 hts
  | other hl' _ _ ih =>
    rcases List.suffix_cons_iff.1 hts with heq | hts
    · obtain ⟨rfl, rfl⟩ := List.cons.inj heq
      exact absurd hl hl'
    · exact ih hts
  -- a group: the brace is the one that opens it, or stands inside, or behind it
  | @group l' inner r ts hl' hinner hr _ ihinner ih =>
    rcases List.suffix_cons_iff.1 hts with heq | hts
    · obtain ⟨rfl, rfl⟩ := List.cons.inj heq
      exact ⟨ts, by rw [Grammar.afterClosing_append hinner, Grammar.afterClosing_close_zero hr]⟩
    · obtain ⟨us, hus⟩ := hts
      rcases List.append_eq_append_iff.1 hus with ⟨ws, hws, hvs⟩ | ⟨ws, -, hvs⟩
      · cases ws with
        | nil =>
          obtain ⟨rfl, -⟩ := List.cons.inj hvs
          exact absurd (hl.symm.trans hr) (by simp)
        | cons w ws =>
          obtain ⟨rfl, rfl⟩ := List.cons.inj hvs
          obtain ⟨after, hafter⟩ := ihinner ⟨us, hws.symm⟩
          exact ⟨_, Grammar.afterClosing_append_of_eq_some hafter _⟩
      · cases ws with
        | nil =>
          obtain ⟨rfl, -⟩ := List.cons.inj hvs
          exact absurd (hl.symm.trans hr) (by simp)
        | cons w ws =>
          obtain ⟨-, rfl⟩ := List.cons.inj hvs
          exact ih ⟨ws, rfl⟩

end Balanced

namespace Grammar

open CrudLang.Parser

/-- What the parser reads without a failure is balanced. -/
def ReadsBalanced {α : Type} (p : Parser α) : Prop :=
  Ensures p fun _ read _ new => new = [] → Balanced read

theorem ReadsBalanced.bind {α β : Type} {p : Parser α} {f : α → Parser β} (hp : ReadsBalanced p)
    (hf : ∀ a, ReadsBalanced (f a)) : ReadsBalanced (p >>= f) := by
  refine Ensures.bind hp fun a first before => ?_
  refine (hf a).mono fun b read rest new h hfirst hnew => ?_
  obtain ⟨hbefore, hnew⟩ := List.append_eq_nil_iff.1 hnew
  exact (hfirst hbefore).append (h hnew)

theorem ReadsBalanced.satisfy {α : Type} {read? : TokenKind → Option α} {e : Expectation}
    (hread : Braceless read?) : ReadsBalanced (satisfy read? e) := by
  refine Ensures.satisfy.mono fun v read rest new h _ => ?_
  obtain ⟨token, rfl, hv, -⟩ := h
  refine .other (fun hl => ?_) (fun hr => ?_) .nil
  · rw [hl, hread.1] at hv
    cases hv
  · rw [hr, hread.2] at hv
    cases hv

theorem congruence_readsBalanced : Congruence fun {_} p _ => ReadsBalanced p where
  pure _ := Ensures.pure fun _ _ => .nil
  bind hp hf := hp.bind hf
  satisfy h := .satisfy h
  orElse hp hq := Ensures.orElse hp hq
  withSpan hp := Ensures.withSpan hp
  labelled hp := Ensures.labelled hp
  fix hbody := Ensures.fix fun p hp => hbody p p hp

/-- Statements in braces are balanced, and what is skipped is not read without a failure. -/
theorem blockGuarded_readsBalanced :
    BlockGuarded (fun {_} p _ => ReadsBalanced p) (fun {_} p _ => ReadsBalanced p) where
  toGuarded := congruence_readsBalanced.guarded
  braces h := Ensures.between h fun _ _ _ _ _ _ hl hr hbalanced hnew =>
    .group hl (hbalanced hnew) hr .nil
  statementError h := Ensures.recoverWith h <|
    keepsDepth_statementError.mono fun _ _ _ _ _ _ hnew => by simp at hnew

/-- The tokens of a program without a failure are balanced. -/
theorem readsBalanced_statements : ReadsBalanced (statements statement) := by
  have hstep {b : Parser (Block Stmt)} (hb : ReadsBalanced b) : ReadsBalanced (statementStep b) :=
    @BlockGuarded.statementStep _ _ blockGuarded_readsBalanced b b hb
  have hstatement : ReadsBalanced statement := statementBy_strictBlock_eq ▸
    Ensures.fix fun p hp => hstep (blockGuarded_readsBalanced.strictBlock (q := p) hp)
  have hstray : ReadsBalanced (recoverWith statement strayBrace) := by
    refine Ensures.recoverWith hstatement ?_
    exact Ensures.mono spells_strayBrace fun _ _ _ _ _ _ hnew => by simp at hnew
  exact congruence_readsBalanced.many (q := recoverWith statement strayBrace) hstray

end Grammar

end CrudLang
