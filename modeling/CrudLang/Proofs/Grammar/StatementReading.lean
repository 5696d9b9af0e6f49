import CrudLang.Proofs.Grammar.StatementSpelling

/-!
# Reading statements back

Statements follow one another without a separator, so the tokens behind a statement may carry it on:
`Stmt.Settled` says that they do not. Statements that are written so that none of them is carried on
by what follows are read back as they are, up to spans and without a report:
`reads_statements`. A statement that could not be read is never settled, so this is about sources
without a syntax error.
-/

namespace CrudLang

/-- A token that a statement may begin with. -/
def TokenKind.startsStatement : TokenKind → Bool
  | .keyword .var | .keyword .const | .keyword .func | .keyword .if | .keyword .loop
  | .keyword .while | .keyword .return | .keyword .create | .keyword .read | .keyword .update
  | .keyword .delete | .punctuator .leftBrace | .keyword .class => true
  | k => k.startsExpression

/-- The last part of the statement is an expression. -/
def Stmt.EndsInExpression : Stmt → Prop
  | .var _ (some _) _ | .const _ _ _ | .return (some _) _ | .expr _ _ => True
  | _ => False

/-- The statement can be read, and the tokens `us` behind its tokens `ts` do not carry it on. -/
structure Stmt.Settled (stmt : Stmt) (ts us : List TokenKind) : Prop where
  readable {span} : stmt ≠ .error span
  assign : us.head? ≠ some (.punctuator .assign)
  alternative : us.head? ≠ some (.keyword .else)
  expression : stmt.EndsInExpression → Expr.Settled 0 ts us
  bareCrud : stmt.IsBareCrud ts → us.head? ≠ some (.punctuator .leftParen)
  bareReturn {span k} : stmt = .return none span → us.head? = some k → k.startsExpression = false

/-- No statement is carried on by what follows. -/
def Follow.settled : Follow :=
  Stmt.Settled

/-- Two statements are the same up to spans. -/
def Stmt.Like (stmt : Stmt) : Stmt → Prop :=
  fun v => v.eraseSpans = stmt.eraseSpans

/-- Two blocks are the same up to spans. -/
def Block.Like (body : Block Stmt) : Block Stmt → Prop :=
  fun v => Block.eraseSpans v = Block.eraseSpans body

/-- A token that carries on no statement: it neither begins an expression nor stands between
operands nor behind a name or a block. -/
def TokenKind.Stops (k : TokenKind) : Prop :=
  k.startsExpression = false ∧ BinaryOp.ofKind? k = none ∧ k ≠ .punctuator .assign ∧
    k ≠ .keyword .else

namespace Stmt.Settled

variable {stmt : Stmt} {ts us : List TokenKind}

/-- Only the head of the tokens behind a statement matters. -/
theorem of_head?_eq {us' : List TokenKind} (h : stmt.Settled ts us) (heq : us'.head? = us.head?) :
    stmt.Settled ts us' where
  readable := h.readable
  assign := heq ▸ h.assign
  alternative := heq ▸ h.alternative
  expression hstmt := (h.expression hstmt).of_head?_eq heq
  bareCrud hstmt := heq ▸ h.bareCrud hstmt
  bareReturn hstmt hk := h.bareReturn hstmt (heq ▸ hk)

/-- A statement is settled at the end of the input and before a token that stops it. -/
theorem of_stops (hstmt : ∀ span, stmt ≠ .error span) (hus : ∀ k, us.head? = some k → k.Stops) :
    stmt.Settled ts us where
  readable := hstmt _
  assign h := (hus _ h).2.2.1 rfl
  alternative h := (hus _ h).2.2.2 rfl
  expression _ := by
    cases us with
    | nil => exact .nil
    | cons k us =>
      obtain ⟨hstart, hop, hassign, -⟩ := hus k rfl
      exact .of_head hop (fun hk => by rw [hk] at hstart; cases hstart) hassign
  bareCrud _ h := by cases (hus _ h).1
  bareReturn _ hk := (hus _ hk).1

/-- What stands behind a list of statements carries on none of them if it stops statements. -/
theorem append {next : List TokenKind} (h : stmt.Settled ts us)
    (hnext : ∀ k, next.head? = some k → k.Stops) : stmt.Settled ts (us ++ next) := by
  cases us with
  | nil => exact of_stops (fun _ => h.readable) hnext
  | cons => exact h.of_head?_eq rfl

end Stmt.Settled

/-- A statement that could be read begins with a token that statements begin with. -/
theorem Stmt.Written.exists_head {follow : Follow} {stmt : Stmt} {ts : List TokenKind}
    (h : Stmt.Written follow stmt ts) (hstmt : ∀ span, stmt ≠ .error span) :
    ∃ k us, ts = k :: us ∧ k.startsStatement := by
  cases h with
  | @crud op => exact ⟨_, _, rfl, by cases op <;> rfl⟩
  | @crudWith op => exact ⟨_, _, rfl, by cases op <;> rfl⟩
  | block hbody =>
    cases hbody
    exact ⟨_, _, rfl, rfl⟩
  | expr he =>
    obtain ⟨k, us, rfl, hk⟩ := he.exists_head
    refine ⟨k, us, rfl, ?_⟩
    unfold TokenKind.startsStatement
    split
    case h_14 => exact hk
    all_goals rfl
  | error => exact absurd rfl (hstmt _)
  | _ => exact ⟨_, _, rfl, rfl⟩

/-- The first token of settled statements is one that statements begin with. -/
theorem Stmt.ListWritten.startsStatement_head {follow next : Follow} {stmts : List Stmt}
    {ts : List TokenKind} (hnext : ∀ stmt ts us, next stmt ts us → ∀ span, stmt ≠ .error span)
    (h : Stmt.ListWritten follow next stmts ts) :
    ∀ k, ts.head? = some k → k.startsStatement := by
  cases h with
  | nil => simp
  | cons hstmt _ hfollow _ =>
    obtain ⟨k, us, rfl, hk⟩ := hstmt.exists_head (hnext _ _ _ hfollow)
    rintro k' hk'
    obtain rfl := Option.some.inj hk'
    exact hk

namespace Grammar

open CrudLang.Parser

/-- The keywords that statements begin with. -/
def statementKeywords : List Keyword :=
  [.var, .const, .func, .class, .if, .loop, .while, .return, .create, .read, .update, .delete]

/-- The form of the statements that begin with a token. -/
def Form.ofKind? : TokenKind → Option Form
  | .keyword .var => some .var
  | .keyword .const => some .const
  | .keyword .func => some .func
  | .keyword .class => some .class
  | .keyword .loop => some .loop
  | .keyword .while => some .while
  | .keyword .create | .keyword .read | .keyword .update | .keyword .delete => some .crud
  | .keyword .return => some .return
  | .punctuator .leftBrace => some .block
  | k => if k.startsExpression then some .expr else none

/-- A block is rejected where there is no opening brace, by recovery too. -/
theorem rejects_block {p : Parser Stmt} {ts : List TokenKind}
    (h : ts.head? ≠ some (.punctuator .leftBrace)) : Rejects (block p) ts := by
  refine .labelled ?_
  exact .recoverWith (.withSpan (.bind (.bind (.token h)))) (.withSpan (.bind (.bind (.token h))))

/-- A block that does not recover is rejected there as well. -/
theorem rejects_strictBlock {p : Parser Stmt} {ts : List TokenKind}
    (h : ts.head? ≠ some (.punctuator .leftBrace)) : Rejects (strictBlock p) ts :=
  .labelled (.withSpan (.bind (.bind (.token h))))

/-- The operation of a statement on stored data is rejected where its keyword is not. -/
theorem rejects_crudOperator {ts : List TokenKind}
    (h : ∀ op : CrudOp, ts.head? ≠ some (.keyword op.keyword)) : Rejects crudOperator ts := by
  refine .of_spells spells_crudOperator fun op us rest n hts hop => h op ?_
  rw [hts, hop.1]
  rfl

/-- What begins an expression begins no statement of another form. -/
theorem Form.ofKind?_of_startsExpression {k : TokenKind} (h : k.startsExpression) :
    Form.ofKind? k = some .expr := by
  unfold Form.ofKind?
  split
  all_goals exact if_pos h

/-- Every form of statements is told by its first token, if blocks are. -/
theorem Form.rejects {b : Parser (Block Stmt)} (form : Form) {ts : List TokenKind}
    (hblock : ts.head? ≠ some (.punctuator .leftBrace) → Rejects b ts)
    (h : ∀ k, ts.head? = some k → Form.ofKind? k ≠ some form) : Rejects (form.parser b) ts := by
  have hhead {k : TokenKind} (hk : Form.ofKind? k = some form) : ts.head? ≠ some k :=
    fun hts => h k hts hk
  cases form with
  | var | const | loop | «while» | «return» => exact .bind (.token (hhead rfl))
  | func | «class» => exact .labelled (.bind (.token (hhead rfl)))
  | crud => exact .labelled (.bind (rejects_crudOperator fun op => hhead (by cases op <;> rfl)))
  | block => exact .bind (hblock (hhead rfl))
  | expr =>
    refine .bind (rejects_of_head spells_expression fun k hk => ?_)
    exact Bool.eq_false_iff.2 fun hstart => h k hk (ofKind?_of_startsExpression hstart)

/-- Where no form begins, there is no statement but perhaps a conditional. -/
theorem rejects_unconditional {b : Parser (Block Stmt)} {ts : List TokenKind}
    (hblock : ts.head? ≠ some (.punctuator .leftBrace) → Rejects b ts)
    (h : ∀ k, ts.head? = some k → Form.ofKind? k = none) : Rejects (unconditional b) ts := by
  have hform (form : Form) : Rejects (form.parser b) ts :=
    form.rejects hblock fun k hk hsome => nomatch (h k hk).symm.trans hsome
  refine .withSpan (.choice (hform .var) fun q hq => ?_)
  obtain ⟨form, rfl⟩ := Form.exists_of_mem (List.mem_of_mem_tail hq)
  exact hform form

/-- A conditional is rejected where there is no `if`. -/
theorem rejects_conditional {b : Parser (Block Stmt)} {ts : List TokenKind}
    (h : ts.head? ≠ some (.keyword .if)) : Rejects (conditional b) ts := by
  refine .fix fun _ => ?_
  exact .withSpan (.bind (.token h))

/-- A statement is read by the parser for its form. -/
theorem reads_bareStatement {p : Parser Stmt} (form : Form) {k : TokenKind}
    {ts next : List TokenKind} {P : Stmt → Prop} (hform : Form.ofKind? k = some form)
    (hreads : Reads (form.parser (block p)) (k :: ts) next fun build => ∀ span, P (build span)) :
    Reads (bareStatement (block p)) (k :: ts) next P := by
  have hconditional : Rejects (conditional (block p)) (k :: ts ++ next) := by
    refine rejects_conditional fun hk => ?_
    obtain rfl := Option.some.inj hk
    cases hform
  refine .orElse_right hconditional (.withSpan (.choice ⟨_, ?_, hreads⟩ fun q hq => ?_))
  · exact form.mem_forms
  · obtain ⟨other, rfl⟩ := Form.exists_of_mem hq
    -- the first token tells the form
    by_cases hsame : Form.ofKind? k = some other
    · obtain rfl := Option.some.inj (hform.symm.trans hsame)
      exact .inl hreads
    · refine .inr (other.rejects rejects_block fun k' hk' => ?_)
      obtain rfl := Option.some.inj hk'
      exact hsame

/-- At the end of the input and at a closing brace there is no statement to skip. -/
theorem rejects_statementError {ts : List TokenKind}
    (h : ∀ k, ts.head? = some k → k = .punctuator .rightBrace) : Rejects statementError ts := by
  have hopening : ts.head? ≠ some (.punctuator .leftBrace) := fun hts => by cases h _ hts
  have hgroup : Rejects skipGroup ts :=
    .orElse (.fix fun _ => .bind (.bind (.token hopening))) (.bind (.token hopening))
  have hother : Rejects (noneOf [.punctuator .rightBrace]) ts := by
    unfold noneOf select
    exact .satisfy fun k hk => if_pos (by rw [h k hk]; exact List.mem_singleton_self _)
  exact .withSpan (.bind (.orElse hgroup hother))

/-- Where something is skipped, there is a token that is no closing brace. -/
theorem exists_head_of_statementError_eq_ok {s t : State} {v : Stmt}
    (h : statementError s = .ok v t) :
    ∃ r rest, s.rest.tokens = r :: rest ∧ r.kind ≠ .punctuator .rightBrace := by
  have hhead : ¬ ∀ k, (kindsOf s.rest.tokens).head? = some k → k = .punctuator .rightBrace :=
    fun hall => by
      obtain ⟨f, hf⟩ := rejects_statementError hall s rfl
      cases hf.symm.trans h
  cases htokens : s.rest.tokens with
  | nil => exact absurd (by simp [htokens]) hhead
  | cons r rest => exact ⟨r, rest, rfl, fun hr => hhead (by simp [htokens, hr])⟩

/-- At the end of the input and at a closing brace there is no statement, not even one to skip. -/
theorem rejects_statement {ts : List TokenKind}
    (h : ∀ k, ts.head? = some k → k = .punctuator .rightBrace) : Rejects statement ts := by
  have hhead {k : TokenKind} (hk : k ≠ .punctuator .rightBrace) : ts.head? ≠ some k :=
    fun hts => hk (h k hts)
  have hbare (p : Parser Stmt) : Rejects (bareStatement (block p)) ts := by
    refine .orElse (rejects_conditional (hhead (by simp)))
      (rejects_unconditional rejects_block fun k hk => ?_)
    rw [h k hk]
    rfl
  exact .fix fun p => .recoverWith (.labelled (.bind (hbare p))) (rejects_statementError h)

section Productions

variable {next : List TokenKind}

/-- The declaration of a variable without a value, if none follows. -/
theorem reads_varDeclaration (name : Ident) (span : Span)
    (hnext : next.head? ≠ some (.punctuator .assign)) :
    Reads varDeclaration [.keyword .var, .identifier name.name] next
      fun build => ∀ span', (Stmt.var name none span).Like (build span') := by
  have hinit : Reads (optional (do punctuator .assign; expression)) [] next (· = none) :=
    .optional_none (.bind (.token hnext)) rfl
  refine .token_bind (.bind_one (reads_identifier name _) fun name' hname => ?_)
  refine .bind_last hinit fun init hinit => ?_
  refine .pure fun span' => ?_
  rw [hinit, Stmt.Like, Stmt.eraseSpans, Stmt.eraseSpans, hname]

/-- The declaration of a variable with a value that goes no further. -/
theorem reads_varDeclarationWith {value : Expr} {ts : List TokenKind} (name : Ident) (span : Span)
    (hvalue : Expr.Written 0 value ts) (hnext : Expr.Settled 0 ts next) :
    Reads varDeclaration (.keyword .var :: .identifier name.name :: .punctuator .assign :: ts) next
      fun build => ∀ span', (Stmt.var name (some value) span).Like (build span') := by
  have hinit : Reads (optional (do punctuator .assign; expression)) (.punctuator .assign :: ts) next
      fun init => init.map Expr.eraseSpans = some value.eraseSpans :=
    .optional_some (.token_bind ((reads_expression hvalue hnext).mono fun _ h => congrArg some h))
  refine .token_bind (.bind_one (reads_identifier name _) fun name' hname => ?_)
  refine .bind_last hinit fun init hinit => ?_
  refine .pure fun span' => ?_
  rw [Stmt.Like, Stmt.eraseSpans, Stmt.eraseSpans, hname, hinit, Option.map_some]

/-- The declaration of a constant, whose value goes no further. -/
theorem reads_constDeclaration {value : Expr} {ts : List TokenKind} (name : Ident) (span : Span)
    (hvalue : Expr.Written 0 value ts) (hnext : Expr.Settled 0 ts next) :
    Reads constDeclaration
      (.keyword .const :: .identifier name.name :: .punctuator .assign :: ts) next
      fun build => ∀ span', (Stmt.const name value span).Like (build span') := by
  refine .token_bind (.bind_one (reads_identifier name _) fun name' hname => ?_)
  refine .token_bind (.bind_last (reads_expression hvalue hnext) fun value' hvalue' => ?_)
  refine .pure fun span' => ?_
  rw [Stmt.Like, Stmt.eraseSpans, Stmt.eraseSpans, hname, hvalue']

/-- Parameters are names in parentheses, whatever follows. -/
theorem reads_parameters {params : List Ident} {ts : List TokenKind}
    (h : ItemList Ident.Written params ts) :
    Reads parameters ts next
      fun params' => params'.map Ident.eraseSpan = params.map Ident.eraseSpan := by
  refine .labelled (.itemList (fun ident us k rest hident _ _ => ?_) (fun rest => ?_) h
    (Nat.le_refl _))
  · rw [hident]
    exact reads_identifier ident _
  · exact rejects_identifier (by simp)

/-- The operation of a statement on stored data is read from its keyword. -/
theorem reads_crudOperator (op : CrudOp) :
    Reads crudOperator [.keyword op.keyword] next (· = op) := by
  unfold crudOperator select
  cases op <;> exact .satisfy rfl rfl

/-- A statement on stored data without arguments, if none follow. -/
theorem reads_crudStatement (op : CrudOp) (target : Ident) (span : Span)
    (hnext : next.head? ≠ some (.punctuator .leftParen)) :
    Reads crudStatement [.keyword op.keyword, .identifier target.name] next
      fun build => ∀ span', (Stmt.crud op target [] span).Like (build span') := by
  have hnone : Reads (optional (arguments expression)) [] next (· = none) :=
    .optional_none (rejects_arguments hnext) rfl
  refine .labelled (.bind_one (reads_crudOperator op) fun op' hop => ?_)
  refine .bind_one (reads_identifier target _) fun target' htarget => ?_
  refine .bind_last hnone fun args hargs => ?_
  refine .pure fun span' => ?_
  rw [hargs, hop, Stmt.Like, Stmt.eraseSpans, Stmt.eraseSpans, htarget]
  rfl

/-- A statement on stored data with arguments, whatever follows. -/
theorem reads_crudStatementWith {args : List Expr} {ts : List TokenKind} (op : CrudOp)
    (target : Ident) (span : Span) (hargs : ItemList (Expr.Written 0) args ts) :
    Reads crudStatement (.keyword op.keyword :: .identifier target.name :: ts) next
      fun build => ∀ span', (Stmt.crud op target args span).Like (build span') := by
  have hsome : Reads (optional (arguments expression)) ts next
      fun vs => (vs.getD []).map Expr.eraseSpans = args.map Expr.eraseSpans :=
    .optional_some (reads_expressionArguments hargs next)
  refine .labelled (.bind_one (reads_crudOperator op) fun op' hop => ?_)
  refine .bind_one (reads_identifier target _) fun target' htarget => ?_
  refine .bind_last hsome fun vs hvs => ?_
  refine .pure fun span' => ?_
  rw [hop, Stmt.Like, Stmt.eraseSpans, Stmt.eraseSpans, htarget, hvs]

/-- A `return` without a value, if what follows begins no expression. -/
theorem reads_returnStatement (span : Span)
    (hnext : ∀ k, next.head? = some k → k.startsExpression = false) :
    Reads returnStatement [.keyword .return] next
      fun build => ∀ span', (Stmt.return none span).Like (build span') := by
  have hnone : Reads (optional expression) [] next (· = none) :=
    .optional_none (rejects_of_head spells_expression hnext) rfl
  refine .token_bind ?_
  refine .bind_last hnone fun value hvalue => ?_
  refine .pure fun span' => ?_
  rw [hvalue, Stmt.Like, Stmt.eraseSpans, Stmt.eraseSpans]

/-- A `return` with a value that goes no further. -/
theorem reads_returnStatementWith {value : Expr} {ts : List TokenKind} (span : Span)
    (hvalue : Expr.Written 0 value ts) (hnext : Expr.Settled 0 ts next) :
    Reads returnStatement (.keyword .return :: ts) next
      fun build => ∀ span', (Stmt.return (some value) span).Like (build span') := by
  have hsome : Reads (optional expression) ts next
      fun v => v.map Expr.eraseSpans = some value.eraseSpans :=
    .optional_some ((reads_expression hvalue hnext).mono fun _ h => congrArg some h)
  refine .token_bind ?_
  refine .bind_last hsome fun v hv => ?_
  refine .pure fun span' => ?_
  rw [Stmt.Like, Stmt.eraseSpans, Stmt.eraseSpans, hv, Option.map_some]

/-- A statement that is an expression which goes no further. -/
theorem reads_expressionStatement {e : Expr} {ts : List TokenKind} (span : Span)
    (he : Expr.Written 0 e ts) (hnext : Expr.Settled 0 ts next) :
    Reads expressionStatement ts next
      fun build => ∀ span', (Stmt.expr e span).Like (build span') := by
  refine .bind_last (reads_expression he hnext) fun e' he' => ?_
  refine .pure fun span' => ?_
  rw [Stmt.Like, Stmt.eraseSpans, Stmt.eraseSpans, he']

section Blocks

variable {b : Parser (Block Stmt)} {body : Block Stmt} {ts us : List TokenKind}

/-- The definition of a function, given that its body is read. -/
theorem reads_functionDefinition {params : List Ident} (name : Ident) (span : Span)
    (hparams : ItemList Ident.Written params ts) (hbody : Reads b us next body.Like) :
    Reads (functionDefinition b) (.keyword .func :: .identifier name.name :: ts ++ us) next
      fun build => ∀ span', (Stmt.func name params body span).Like (build span') := by
  refine .labelled (.token_bind (.bind_one (reads_identifier name _) fun name' hname => ?_))
  refine .bind (reads_parameters hparams) fun params' hparams' => ?_
  refine .bind_last hbody fun body' hbody' => ?_
  refine .pure fun span' => ?_
  rw [Stmt.Like, Stmt.eraseSpans, Stmt.eraseSpans, hname, hparams', hbody']

/-- The definition of a class, given that its members are read. -/
theorem reads_classDefinition {members : List Stmt} (name : Ident) (span : Span)
    (hmembers : Reads (many (member b)) ts (.punctuator .rightBrace :: next)
      fun members' => members'.map Stmt.eraseSpans = members.map Stmt.eraseSpans) :
    Reads (classDefinition b) (.keyword .class :: .identifier name.name ::
      .punctuator .leftBrace :: ts ++ [.punctuator .rightBrace]) next
      fun build => ∀ span', (Stmt.class name members span).Like (build span') := by
  refine .labelled (.token_bind (.bind_one (reads_identifier name _) fun name' hname => ?_))
  refine .bind_last (.between hmembers) fun members' hmembers' => ?_
  refine .pure fun span' => ?_
  rw [Stmt.Like, Stmt.eraseSpans, Stmt.eraseSpans, hname, Stmt.eraseSpansOfAll_eq_map,
    Stmt.eraseSpansOfAll_eq_map, hmembers']

/-- A loop, given that its body is read. -/
theorem reads_loopStatement (span : Span) (hbody : Reads b ts next body.Like) :
    Reads (loopStatement b) (.keyword .loop :: ts) next
      fun build => ∀ span', (Stmt.loop body span).Like (build span') := by
  refine .token_bind ?_
  refine .bind_last hbody fun body' hbody' => ?_
  refine .pure fun span' => ?_
  rw [Stmt.Like, Stmt.eraseSpans, Stmt.eraseSpans, hbody']

/-- A loop with a condition, given that its parts are read. -/
theorem reads_whileStatement {condition : Expr} (span : Span)
    (hcondition : Reads expression ts (us ++ next) condition.Like)
    (hbody : Reads b us next body.Like) :
    Reads (whileStatement b) (.keyword .while :: ts ++ us) next
      fun build => ∀ span', (Stmt.while condition body span).Like (build span') := by
  refine .token_bind (.bind hcondition fun condition' hcondition' => ?_)
  refine .bind_last hbody fun body' hbody' => ?_
  refine .pure fun span' => ?_
  rw [Stmt.Like, Stmt.eraseSpans, Stmt.eraseSpans, hcondition', hbody']

/-- A block that stands alone, given that it is read as a block. -/
theorem reads_blockStatement (hbody : Reads b ts next body.Like) :
    Reads (blockStatement b) ts next
      fun build => ∀ span', (Stmt.block body).Like (build span') := by
  refine .bind_last hbody fun body' hbody' => ?_
  refine .pure fun span' => ?_
  rw [Stmt.Like, Stmt.eraseSpans, Stmt.eraseSpans, hbody']

/-- A conditional that ends with its body, if no `else` follows. -/
theorem reads_conditional {condition : Expr} (span : Span)
    (hb : ∀ n, AgreeBelow n b b) (hcondition : Reads expression ts (us ++ next) condition.Like)
    (hbody : Reads b us next body.Like) (hnext : next.head? ≠ some (.keyword .else)) :
    Reads (conditional b) (.keyword .if :: ts ++ us) next
      (Stmt.if condition body none span).Like := by
  have hnone : Reads (optional (do keyword .else; choice (conditional b) [Stmt.block <$> b])) []
      next (· = none) := .optional_none (.bind (.token hnext)) rfl
  rw [conditional_eq hb]
  refine .withSpan (.token_bind (.bind hcondition fun condition' hcondition' => ?_))
  refine .bind_last hbody fun body' hbody' => ?_
  refine .bind_last hnone fun alternative halternative => ?_
  refine .pure fun span' => ?_
  rw [halternative, Stmt.Like, Stmt.eraseSpans, Stmt.eraseSpans, hcondition', hbody']

/-- A conditional with an alternative, given that its parts are read. -/
theorem reads_conditionalElse {condition : Expr} {alternative : Stmt} {vs : List TokenKind}
    (span : Span) (hb : ∀ n, AgreeBelow n b b)
    (hcondition : Reads expression ts (us ++ (.keyword .else :: vs ++ next)) condition.Like)
    (hbody : Reads b us (.keyword .else :: vs ++ next) body.Like)
    (halternative : Reads (choice (conditional b) [Stmt.block <$> b]) vs next alternative.Like) :
    Reads (conditional b) (.keyword .if :: ts ++ us ++ .keyword .else :: vs) next
      (Stmt.if condition body (some alternative) span).Like := by
  have hsome : Reads (optional (do keyword .else; choice (conditional b) [Stmt.block <$> b]))
      (.keyword .else :: vs) next
      fun stmt => stmt.map Stmt.eraseSpans = some alternative.eraseSpans :=
    .optional_some (.token_bind (halternative.mono fun _ h => congrArg some h))
  -- by its equation the conditional reads its own alternative
  rw [conditional_eq hb, List.append_assoc, List.cons_append]
  refine .withSpan ?_
  refine .token_bind ?_
  refine .bind (by simpa using hcondition) fun condition' hcondition' => ?_
  refine .bind hbody fun body' hbody' => ?_
  refine .bind_last hsome fun stmt hstmt => ?_
  refine .pure fun span' => ?_
  rw [Stmt.Like, Stmt.eraseSpans, Stmt.eraseSpans, hcondition', hbody',
    Stmt.eraseSpansOf?_eq_map, Stmt.eraseSpansOf?_eq_map, hstmt, Option.map_some]

end Blocks

end Productions

/-- The block parser agrees with itself, so it only moves forward. -/
theorem agreeBelow_block (n : Nat) : AgreeBelow n (block statement) (block statement) :=
  (isBlockGuarded_block n _ _ (agreeBelow_statementBy isBlockGuarded_block n)).mono (Nat.le_succ n)

/-- A semicolon behind a statement is read, and none where there is none. -/
theorem reads_semicolon {semi next : List TokenKind} (hsemi : Optionally .semicolon semi)
    (hnext : next.head? ≠ some (.punctuator .semicolon)) :
    Reads (optional (punctuator .semicolon)) semi next fun _ => True := by
  rcases hsemi with rfl | rfl
  · exact .optional_none (.token hnext) trivial
  · exact .optional_some (.token _)

/-- A block does not carry on an expression before it. -/
theorem settled_block {follow : Follow} {body : Block Stmt} {level : Nat}
    {ts us next : List TokenKind} (h : Block.Written follow body us) :
    Expr.Settled level ts (us ++ next) := by
  cases h
  exact .of_head rfl (by simp) (by simp)

/-- A statement with its semicolon is read if it is read without. -/
theorem reads_statement {stmt : Stmt} {ts semi next : List TokenKind}
    (hbare : Reads (bareStatement (block statement)) ts (semi ++ next) stmt.Like)
    (hsemi : Optionally .semicolon semi)
    (hnext : next.head? ≠ some (.punctuator .semicolon)) :
    Reads statement (ts ++ semi) next stmt.Like := by
  rw [statement, statementBy_eq isBlockGuarded_block]
  refine .recoverWith ?_
  refine .labelled ?_
  refine hbare.bind fun _ hv => ?_
  refine .bind_last (reads_semicolon hsemi hnext) fun _ _ => ?_
  exact .pure hv

/-- A member of a class and the semicolon that may end it. -/
theorem reads_member {b : Parser (Block Stmt)} {stmt : Stmt} {ts semi next : List TokenKind}
    (hbare : Reads (withSpan <| choice varDeclaration [constDeclaration, functionDefinition b]) ts
      (semi ++ next) stmt.Like)
    (hsemi : Optionally .semicolon semi)
    (hnext : next.head? ≠ some (.punctuator .semicolon)) :
    Reads (member b) (ts ++ semi) next stmt.Like := by
  refine .labelled ?_
  refine hbare.bind fun _ hv => ?_
  refine .bind_last (reads_semicolon hsemi hnext) fun _ _ => ?_
  exact .pure hv

/-- The tokens behind a statement in a list: no semicolon is left, and whatever follows the list
stops its statements. -/
theorem head?_append_ne_semicolon {us next : List TokenKind}
    (hus : ∀ k, us.head? = some k → k.startsStatement)
    (hnext : ∀ k, next.head? = some k → k = .punctuator .rightBrace) :
    (us ++ next).head? ≠ some (.punctuator .semicolon) := by
  cases us with
  | nil =>
    intro hk
    cases hnext _ hk
  | cons k us =>
    intro hk
    obtain rfl := Option.some.inj hk
    cases hus _ rfl

/-- Nothing that is read goes on with a closing brace. -/
theorem stops_rightBrace : (TokenKind.punctuator .rightBrace).Stops := by
  simp [TokenKind.Stops, TokenKind.startsExpression, BinaryOp.ofKind?]

/-- The first token of a class member stops a statement. -/
theorem stops_member {follow : Follow} {stmt : Stmt} {ts : List TokenKind}
    (h : Stmt.Written follow stmt ts) (hmember : stmt.IsMember) :
    ∃ k us, ts = k :: us ∧ k.Stops := by
  cases h with
  | var | varWith | const | func =>
    exact ⟨_, _, rfl, by simp [TokenKind.Stops, TokenKind.startsExpression, BinaryOp.ofKind?]⟩
  | _ => exact absurd hmember id

/-- Before a semicolon, another member or the closing brace, a member of a class is settled. -/
theorem settled_member {follow : Follow} {stmt : Stmt} {members : List Stmt}
    {ts semi us : List TokenKind} (hmember : stmt.IsMember) (hsemi : Optionally .semicolon semi)
    (hmembers : Stmt.ListWritten follow .isMember members us) (next : List TokenKind) :
    stmt.Settled ts (semi ++ (us ++ .punctuator .rightBrace :: next)) := by
  have hsign {p : Punctuator} {k : TokenKind} {rest : List TokenKind}
      (hp : p = .semicolon ∨ p = .rightBrace)
      (hk : (TokenKind.punctuator p :: rest).head? = some k) : k.Stops := by
    obtain rfl := Option.some.inj hk
    rcases hp with rfl | rfl <;>
      simp [TokenKind.Stops, TokenKind.startsExpression, BinaryOp.ofKind?]
  refine .of_stops (fun span hstmt => by rw [hstmt] at hmember; exact hmember) fun k hk => ?_
  -- without a semicolon, the next token is that of another member or the closing brace
  rcases hsemi with rfl | rfl
  · cases hmembers with
    | nil => exact hsign (.inr rfl) hk
    | cons hstmt _ hnext _ =>
      obtain ⟨k', us, rfl, hstops⟩ := stops_member hstmt hnext
      obtain rfl := Option.some.inj hk
      exact hstops
  · exact hsign (.inl rfl) hk

mutual

/-- A settled statement is read back. -/
theorem reads_written {stmt : Stmt} {ts next : List TokenKind}
    (h : Stmt.Written .settled stmt ts) (hnext : stmt.Settled ts next) :
    Reads (bareStatement (block statement)) ts next stmt.Like := by
  match h with
  | .var => exact reads_bareStatement .var rfl (reads_varDeclaration _ _ hnext.assign)
  | .varWith hvalue =>
    have hsettled := (hnext.expression trivial).of_cons.of_cons.of_cons
    exact reads_bareStatement .var rfl (reads_varDeclarationWith _ _ hvalue hsettled)
  | .const hvalue =>
    have hsettled := (hnext.expression trivial).of_cons.of_cons.of_cons
    exact reads_bareStatement .const rfl (reads_constDeclaration _ _ hvalue hsettled)
  | .func hparams hbody =>
    exact reads_bareStatement .func rfl
      (reads_functionDefinition _ _ hparams (reads_blockWritten hbody))
  | .class hmembers =>
    exact reads_bareStatement .class rfl
      (reads_classDefinition _ _ (reads_memberList hmembers))
  -- conditionals are tried first, and all other forms are told by their first token
  | .if hcondition hbody =>
    exact .orElse_left (reads_conditional _ agreeBelow_block
      (reads_expression hcondition (settled_block hbody)) (reads_blockWritten hbody)
      hnext.alternative)
  | .ifElse hcondition hbody hkind hstmt =>
    exact .orElse_left (reads_conditionalElse _ agreeBelow_block
      (reads_expression hcondition (settled_block hbody)) (reads_blockWritten hbody)
      (reads_alternative hstmt hkind hnext.alternative))
  | .loop hbody =>
    exact reads_bareStatement .loop rfl (reads_loopStatement _ (reads_blockWritten hbody))
  | .while hcondition hbody =>
    exact reads_bareStatement .while rfl (reads_whileStatement _
      (reads_expression hcondition (settled_block hbody)) (reads_blockWritten hbody))
  | @Stmt.Written.crud _ op target span =>
    exact reads_bareStatement .crud (by cases op <;> rfl)
      (reads_crudStatement op target span (hnext.bareCrud ⟨op, target, span, rfl, rfl⟩))
  | @Stmt.Written.crudWith _ op target args span ts hargs =>
    exact reads_bareStatement .crud (by cases op <;> rfl)
      (reads_crudStatementWith op target span hargs)
  | .return =>
    exact reads_bareStatement .return rfl
      (reads_returnStatement _ fun k hk => hnext.bareReturn rfl hk)
  | .returnWith hvalue =>
    exact reads_bareStatement .return rfl
      (reads_returnStatementWith _ hvalue (hnext.expression trivial).of_cons)
  -- a block is told by its opening brace, which stands at its head
  | .block hbody =>
    have hblock : Reads (block statement) ts next _ := reads_blockWritten hbody
    obtain ⟨us, rfl⟩ := hbody.exists_head
    exact reads_bareStatement .block rfl (reads_blockStatement hblock)
  | .expr he =>
    have hsettled := hnext.expression trivial
    obtain ⟨k, us, rfl, hk⟩ := he.exists_head
    exact reads_bareStatement .expr (Form.ofKind?_of_startsExpression hk)
      (reads_expressionStatement _ he hsettled)
  | .error _ => exact absurd rfl hnext.readable

/-- What stands behind `else` is read back. -/
theorem reads_alternative {stmt : Stmt} {ts next : List TokenKind}
    (h : Stmt.Written .settled stmt ts) (hkind : stmt.IsAlternative)
    (hnext : next.head? ≠ some (.keyword .else)) :
    Reads (choice (conditional (block statement)) [Stmt.block <$> block statement]) ts next
      stmt.Like := by
  match h with
  | .if hcondition hbody =>
    exact .orElse_left (reads_conditional _ agreeBelow_block
      (reads_expression hcondition (settled_block hbody)) (reads_blockWritten hbody) hnext)
  | .ifElse hcondition hbody hkind hstmt =>
    exact .orElse_left (reads_conditionalElse _ agreeBelow_block
      (reads_expression hcondition (settled_block hbody)) (reads_blockWritten hbody)
      (reads_alternative hstmt hkind hnext))
  | .block hbody =>
    have hblock : Reads (block statement) ts next _ := reads_blockWritten hbody
    -- a block does not begin with `if`
    have hconditional : Rejects (conditional (block statement)) (ts ++ next) := by
      obtain ⟨us, rfl⟩ := hbody.exists_head
      refine .fix fun c => ?_
      exact .withSpan (.bind (.token (by simp)))
    refine .orElse_right hconditional (.map (hblock.mono fun body' hbody' => ?_))
    rw [Stmt.Like, Stmt.eraseSpans, Stmt.eraseSpans, hbody']

/-- A block whose statements are settled is read as it is written. -/
theorem reads_blockWritten {body : Block Stmt} {ts next : List TokenKind}
    (h : Block.Written .settled body ts) : Reads (block statement) ts next body.Like := by
  match h with
  | .braces hstmts =>
    have hclose (k : TokenKind) (hk : (.punctuator .rightBrace :: next).head? = some k) :
        k = .punctuator .rightBrace := (Option.some.inj hk).symm
    -- the closing brace ends the statements inside
    have hmany := reads_statementList hstmts hclose (fun h => h) (rejects_statement hclose)
    refine .labelled (.recoverWith (.withSpan (.bind_last (.between hmany) ?_)))
    refine fun stmts hstmts => .pure fun span => ?_
    rw [Block.Like, Block.eraseSpans, Block.eraseSpans, Stmt.eraseSpansOfAll_eq_map,
      Stmt.eraseSpansOfAll_eq_map, hstmts]

/-- A member of a class that is settled is read as it is written. -/
theorem reads_memberWritten {stmt : Stmt} {ts next : List TokenKind}
    (h : Stmt.Written .settled stmt ts) (hmember : stmt.IsMember) (hnext : stmt.Settled ts next) :
    Reads (withSpan <| choice varDeclaration [constDeclaration,
      functionDefinition (block statement)]) ts next stmt.Like := by
  match h with
  | .var => exact .withSpan (.orElse_left (reads_varDeclaration _ _ hnext.assign))
  | .varWith hvalue =>
    have hsettled := (hnext.expression trivial).of_cons.of_cons.of_cons
    exact .withSpan (.orElse_left (reads_varDeclarationWith _ _ hvalue hsettled))
  -- the three alternatives of a member are told by their keywords
  | .const hvalue =>
    have hsettled := (hnext.expression trivial).of_cons.of_cons.of_cons
    exact .withSpan (.orElse_right (.bind (.token (by simp)))
      (.orElse_left (reads_constDeclaration _ _ hvalue hsettled)))
  | .func hparams hbody =>
    exact .withSpan (.orElse_right (.bind (.token (by simp))) (.orElse_right
      (.bind (.token (by simp)))
      (reads_functionDefinition _ _ hparams (reads_blockWritten hbody))))

/-- So are the members of a class up to its closing brace. -/
theorem reads_memberList {members : List Stmt} {ts next : List TokenKind}
    (h : Stmt.ListWritten .settled .isMember members ts) :
    Reads (many (member (block statement))) ts (.punctuator .rightBrace :: next)
      fun vs => vs.map Stmt.eraseSpans = members.map Stmt.eraseSpans := by
  match h with
  | .nil =>
    have hhead {k : TokenKind} (hk : k ≠ .punctuator .rightBrace) :
        (TokenKind.punctuator .rightBrace :: next).head? ≠ some k :=
      fun hnext => hk (Option.some.inj hnext).symm
    exact .many_nil (.labelled (.bind (.withSpan (.orElse (.bind (.token (hhead (by simp))))
      (.orElse (.bind (.token (hhead (by simp))))
        (.labelled (.bind (.token (hhead (by simp)))))))))) rfl
  | @Stmt.ListWritten.cons _ _ stmt members ts semi us hstmt hsemi hmember hmembers =>
    -- members begin with keywords, so none of them carries on the one before it
    have hbare := reads_memberWritten hstmt hmember (settled_member hmember hsemi hmembers next)
    have hstart := hmembers.startsStatement_head fun stmt _ _ hmember span hstmt => by
      rw [hstmt] at hmember
      exact hmember
    have hclose (k : TokenKind) (hk : (.punctuator .rightBrace :: next).head? = some k) :
        k = .punctuator .rightBrace := (Option.some.inj hk).symm
    have hfirst : Reads (member (block statement)) (ts ++ semi)
        (us ++ .punctuator .rightBrace :: next) stmt.Like :=
      reads_member hbare hsemi (head?_append_ne_semicolon hstart hclose)
    have hne : ts ++ semi ≠ [] := fun hts => hstmt.ne_nil (List.append_eq_nil_iff.1 hts).1
    refine .many_cons hne hfirst fun v hv => ?_
    refine (reads_memberList hmembers).mono fun vs hvs => ?_
    rw [List.map_cons, List.map_cons, hv, hvs]

/-- Settled statements are read back, each of them as a statement or by a parser that recovers from
more. -/
theorem reads_statementList {q : Parser Stmt} {stmts : List Stmt} {ts next : List TokenKind}
    (h : Stmt.ListWritten .settled .settled stmts ts)
    (hnext : ∀ k, next.head? = some k → k = .punctuator .rightBrace)
    (hq : ∀ {ts next stmt}, Reads statement ts next (Stmt.Like stmt) → Reads q ts next stmt.Like)
    (hend : Rejects q next) :
    Reads (many q) ts next fun vs => vs.map Stmt.eraseSpans = stmts.map Stmt.eraseSpans := by
  match h with
  | .nil => exact .many_nil hend rfl
  | @Stmt.ListWritten.cons _ _ stmt stmts ts semi us hstmt hsemi hsettled hstmts =>
    have hbare : Reads (bareStatement (block statement)) ts (semi ++ (us ++ next)) stmt.Like := by
      rw [← List.append_assoc]
      refine reads_written hstmt (hsettled.append fun k hk => ?_)
      rw [hnext k hk]
      exact stops_rightBrace
    -- the next statement does not begin with a semicolon
    have hstart := hstmts.startsStatement_head fun _ _ _ hsettled _ => hsettled.readable
    have hfirst : Reads statement (ts ++ semi) (us ++ next) stmt.Like :=
      reads_statement hbare hsemi (head?_append_ne_semicolon hstart hnext)
    have hne : ts ++ semi ≠ [] := fun hts => hstmt.ne_nil (List.append_eq_nil_iff.1 hts).1
    refine .many_cons hne (hq hfirst) fun v hv => ?_
    refine (reads_statementList hstmts hnext hq hend).mono fun vs hvs => ?_
    rw [List.map_cons, List.map_cons, hv, hvs]

end

/-- The statements of a program are read back at the end of the input. -/
theorem reads_statements {stmts : List Stmt} {ts : List TokenKind}
    (h : Stmt.ListWritten .settled .settled stmts ts) :
    Reads (statements statement) ts [] fun vs =>
      vs.map Stmt.eraseSpans = stmts.map Stmt.eraseSpans :=
  reads_statementList h (by simp) (fun hread => .recoverWith hread)
    (.recoverWith (rejects_statement (by simp)) (.withSpan (.bind (.token (by simp)))))

end Grammar

/-- What is written as settled statements is read back without a failure. -/
theorem Parsing.exists_program_of_settled {stmts : List Stmt} {tokens : List Token}
    (h : Stmt.ListWritten .settled .settled stmts (kindsOf tokens)) :
    ∃ program, (ofTokens tokens).program = some program ∧
      program.stmts.map Stmt.eraseSpans = stmts.map Stmt.eraseSpans ∧
        (ofTokens tokens).failures = [] := by
  obtain ⟨vs, t, ht, hend, hreported, hvs⟩ :=
    Grammar.reads_statements h ⟨.ofList tokens, none, []⟩ (List.append_nil _).symm
  have hrest : t.rest.next? = none := Input.next?_eq_none_iff.2 (List.map_eq_nil_iff.1 hend)
  rw [ofTokens, ofTokensBy, ht]
  dsimp only
  rw [Parser.endOfInput, hrest]
  exact ⟨_, rfl, hvs, hreported⟩

end CrudLang
