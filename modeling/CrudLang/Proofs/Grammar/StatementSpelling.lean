import CrudLang.Proofs.Grammar.Congruence
import CrudLang.Proofs.Grammar.Reading

/-!
# What the tokens of a statement spell

Whenever the parser for statements succeeds, the tokens that it has read spell the statement that it
returns, and it reports as many failures as there are statements inside that could not be read:
`Stmt.Reading` states this, and `spells_statementBy_strictBlock` proves it for the
parser that does not skip blocks. Moreover, a statement on stored data is read without
arguments only where no arguments stand behind it, `Follow.greedy`.
-/

namespace CrudLang

/-- A statement on stored data, written without arguments. -/
def Stmt.IsBareCrud (stmt : Stmt) (ts : List TokenKind) : Prop :=
  ∃ op target span, stmt = .crud op target [] span ∧
    ts = [.keyword op.keyword, .identifier target.name]

/-- No arguments stand behind a statement on stored data that is written without any. -/
def Follow.greedy : Follow :=
  fun stmt ts us => stmt.IsBareCrud ts →
    ∀ args ps rest, ItemList (Expr.Written 0) args ps → us ≠ ps ++ rest

/-- If no arguments stand behind it among some tokens, none do among fewer of them. -/
theorem Follow.greedy_of_append {stmt : Stmt} {ts us rest : List TokenKind}
    (h : Follow.greedy stmt ts (us ++ rest)) : Follow.greedy stmt ts us := by
  rintro hbare args ps more hps rfl
  exact h hbare args ps (more ++ rest) hps (List.append_assoc ..)

/-- What a reader of statements without their semicolon ensures. -/
structure Stmt.BareReading (stmt : Stmt) (ts us : List TokenKind) (n : Nat) : Prop where
  written : Stmt.Written .greedy stmt ts
  follow : Follow.greedy stmt ts us
  count : n = stmt.errorCount

/-- What a reader of statements ensures. -/
def Stmt.Reading (stmt : Stmt) (ts us : List TokenKind) (n : Nat) : Prop :=
  ∃ body semi, ts = body ++ semi ∧ Optionally .semicolon semi ∧
    stmt.BareReading body (semi ++ us) n

/-- What a reader of statements one behind the other ensures, if what may follow each of them is
given by `next`. -/
def Stmt.ListReading (next : Follow) (stmts : List Stmt) (ts _us : List TokenKind) (n : Nat) :
    Prop :=
  Stmt.ListWritten .greedy next stmts ts ∧ n = Stmt.errorCountOfAll stmts

/-- What a reader of blocks ensures. -/
def Block.Reading (body : Block Stmt) (ts _us : List TokenKind) (n : Nat) : Prop :=
  Block.Written .greedy body ts ∧ n = Block.errorCount body

/-- What follows matters only to statements on stored data. -/
theorem Stmt.BareReading.of_written {stmt : Stmt} {ts us : List TokenKind} {n : Nat}
    (h : Stmt.Written .greedy stmt ts)
    (hcrud : ∀ op target args span, stmt ≠ .crud op target args span)
    (hcount : n = stmt.errorCount) : stmt.BareReading ts us n where
  written := h
  follow := fun ⟨_, _, _, hstmt, _⟩ => absurd hstmt (hcrud _ _ _ _)
  count := hcount

/-- A statement that is read has at least one token. -/
theorem Stmt.Reading.ne_nil {stmt : Stmt} {ts us : List TokenKind} {n : Nat}
    (h : stmt.Reading ts us n) : ts ≠ [] := by
  obtain ⟨body, semi, rfl, -, hbody⟩ := h
  exact fun hts => hbody.written.ne_nil (List.append_eq_nil_iff.1 hts).1

/-- Statements are read as a list by reading them one after the other. -/
theorem Stmt.ListReading.cons {next : Follow} {stmt : Stmt} {stmts : List Stmt}
    {ts us rest : List TokenKind} {m n : Nat} (h : stmt.Reading ts (us ++ rest) m)
    (hnext : ∀ body semi, ts = body ++ semi → Follow.greedy stmt body (semi ++ us) →
      next stmt body (semi ++ us))
    (hrest : Stmt.ListReading next stmts us rest n) :
    Stmt.ListReading next (stmt :: stmts) (ts ++ us) rest (m + n) := by
  obtain ⟨body, semi, rfl, hsemi, hbody⟩ := h
  -- what stands behind the whole list is no longer of interest
  have hgreedy : Follow.greedy stmt body (semi ++ us) :=
    Follow.greedy_of_append (by simpa [List.append_assoc] using hbody.follow)
  refine ⟨.cons hbody.written hsemi (hnext body semi rfl hgreedy) hrest.1, ?_⟩
  rw [hbody.count, hrest.2, Stmt.errorCountOfAll]

namespace Grammar

open CrudLang.Parser

/-- The last step of a sequence returns something made of what was read before. -/
theorem spells_bind_pure {α β : Type} {p : Parser α} {g : α → β}
    {Q : β → List TokenKind → List TokenKind → Nat → Prop} (hp : Spells p fun a => Q (g a)) :
    Spells (p >>= fun a => pure (g a)) Q := by
  refine .bind hp fun a ts m => ?_
  exact .pure fun us h => by simpa using h

/-- A sign with an expression behind it. -/
theorem spells_value (kind : TokenKind) : Spells (do token kind; expression)
    (Silently fun value ts => ∃ us, ts = kind :: us ∧ Expr.Written 0 value us) := by
  refine .silently (.token kind) fun _ _ hts => ?_
  refine spells_expression.mono fun value us _ n h => ?_
  exact ⟨⟨us, by rw [hts]; rfl, h.1⟩, h.2⟩

/-- The declaration of a variable, which may be a member of a class. -/
theorem spells_varDeclaration : Spells varDeclaration
    fun build ts us n => ∀ span, (build span).BareReading ts us n ∧ (build span).IsMember := by
  refine .silently (.token _) fun _ _ hvar => ?_
  refine .silently spells_identifier fun name _ hname => ?_
  -- either nothing stands behind the name, or the sign of assignment and a value
  have hinit : Spells (optional (do punctuator .assign; expression)) (Silently fun init ts =>
      (init = none ∧ ts = []) ∨
        ∃ value us, init = some value ∧ ts = .punctuator .assign :: us ∧ Expr.Written 0 value us) :=
    .optional ((spells_value _).mono fun value _ _ _ ⟨⟨us, hts, hvalue⟩, hn⟩ =>
      ⟨.inr ⟨value, us, rfl, hts, hvalue⟩, hn⟩) fun _ => ⟨.inl ⟨rfl, rfl⟩, rfl⟩
  refine .silently hinit fun init ts hinit => ?_
  refine .pure fun us span => ?_
  rw [hvar, hname, List.append_nil]
  rcases hinit with ⟨rfl, rfl⟩ | ⟨value, us, rfl, rfl, hvalue⟩
  · exact ⟨.of_written .var (by simp) rfl, trivial⟩
  · exact ⟨.of_written (.varWith hvalue) (by simp) rfl, trivial⟩

/-- The declaration of a constant, which may be a member of a class. -/
theorem spells_constDeclaration : Spells constDeclaration
    fun build ts us n => ∀ span, (build span).BareReading ts us n ∧ (build span).IsMember := by
  refine .silently (.token _) fun _ _ hconst => ?_
  refine .silently spells_identifier fun name _ hname => ?_
  refine .silently (.token _) fun _ _ hassign => ?_
  refine .silently spells_expression fun value ts hvalue => ?_
  refine .pure fun us span => ?_
  rw [hconst, hname, hassign, List.append_nil]
  exact ⟨.of_written (.const hvalue) (by simp) rfl, trivial⟩

section Blocks

variable {b : Parser (Block Stmt)} (hb : Spells b Block.Reading)
include hb

/-- The definition of a function, which may be a member of a class. -/
theorem spells_functionDefinition : Spells (functionDefinition b)
    fun build ts us n => ∀ span, (build span).BareReading ts us n ∧ (build span).IsMember := by
  refine .labelled ?_
  refine .silently (.token _) fun _ _ hfunc => ?_
  refine .silently spells_identifier fun name _ hname => ?_
  have hparameters : Spells parameters (Silently (ItemList Ident.Written)) :=
    .labelled (.itemList spells_identifier)
  refine .silently hparameters fun params ts hparams => spells_bind_pure ?_
  refine hb.mono fun body us _ n hbody span => ?_
  have hwritten : Stmt.Written .greedy (.func name params body span)
      (.keyword .func :: .identifier name.name :: ts ++ us) := .func hparams hbody.1
  rw [hfunc, hname]
  exact ⟨.of_written hwritten (by simp) hbody.2, trivial⟩

/-- A member of a class, without a semicolon behind it. -/
theorem spells_bareMember :
    Spells (withSpan <| choice varDeclaration [constDeclaration, functionDefinition b])
      fun stmt ts us n => stmt.BareReading ts us n ∧ stmt.IsMember := by
  refine .withSpan ?_
  refine .choice spells_varDeclaration fun q hq => ?_
  simp only [List.mem_cons, List.not_mem_nil, or_false] at hq
  rcases hq with rfl | rfl
  · exact spells_constDeclaration
  · exact spells_functionDefinition hb

/-- A member of a class is spelled with the semicolon that may end it. -/
theorem spells_member : Spells (member b) fun stmt ts us n =>
    stmt.Reading ts us n ∧ stmt.IsMember := by
  refine .labelled ?_
  refine .bind (spells_bareMember hb) fun stmt ts m => ?_
  refine .silently (.optionally .semicolon) fun _ semi hsemi => ?_
  refine .pure fun us hstmt => ?_
  rw [List.append_nil]
  exact ⟨⟨ts, semi, rfl, hsemi, by simpa using hstmt.1⟩, hstmt.2⟩

/-- The definition of a class: the members are one behind the other between braces. -/
theorem spells_classDefinition : Spells (classDefinition b)
    fun build ts us n => ∀ span, (build span).BareReading ts us n := by
  have hmembers : Spells (many (member b)) (Stmt.ListReading .isMember) :=
    .many (spells_member hb) (fun _ => ⟨.nil, rfl⟩) fun stmt stmts ts us rest m n hstmt hstmts =>
      .cons hstmt.1 (fun _ _ _ _ => hstmt.2) hstmts
  refine .labelled ?_
  refine .silently (.token _) fun _ _ hclass => ?_
  refine .silently spells_identifier fun name _ hname => spells_bind_pure ?_
  refine .between hmembers fun members ts us n hmembers span => ?_
  have hwritten : Stmt.Written .greedy (.class name members span)
      (.keyword .class :: .identifier name.name :: .punctuator .leftBrace :: ts ++
        [.punctuator .rightBrace]) := .class hmembers.1
  rw [hclass, hname]
  exact .of_written hwritten (by simp) hmembers.2

/-- What a reader of conditionals ensures of what follows `else`. -/
theorem spells_alternative {c : Parser Stmt} (hc : Spells c fun stmt ts us n =>
    stmt.BareReading ts us n ∧ stmt.IsAlternative) :
    Spells (do keyword .else; choice c [Stmt.block <$> b]) fun stmt ts _ n =>
      ∃ us, ts = .keyword .else :: us ∧ Stmt.Written .greedy stmt us ∧ stmt.IsAlternative ∧
        n = stmt.errorCount := by
  refine .silently (.token _) fun _ _ helse => ?_
  refine .choice ?_ fun q hq => ?_
  · exact hc.mono fun stmt us _ n h => ⟨us, by rw [helse]; rfl, h.1.written, h.2, h.1.count⟩
  · rw [List.mem_singleton.1 hq]
    refine .map (hb.mono fun body us _ n h => ⟨us, by rw [helse]; rfl, .block h.1, trivial, h.2⟩)

/-- A conditional, given that those behind `else` are spelled. -/
theorem spells_conditionalStep {c : Parser Stmt} (hc : Spells c fun stmt ts us n =>
    stmt.BareReading ts us n ∧ stmt.IsAlternative) :
    Spells (conditionalStep b c) fun stmt ts us n =>
      stmt.BareReading ts us n ∧ stmt.IsAlternative := by
  refine .withSpan ?_
  refine .silently (.token _) fun _ _ hif => ?_
  refine .silently spells_expression fun condition ts hcondition => ?_
  refine .bind hb fun body us m => ?_
  -- failures inside the alternative are those of the statement that it is
  have halternative : Spells (optional (do keyword .else; choice c [Stmt.block <$> b]))
      fun alternative vs _ n => (alternative = none ∧ vs = [] ∧ n = 0) ∨
        ∃ stmt ws, alternative = some stmt ∧ vs = .keyword .else :: ws ∧
          Stmt.Written .greedy stmt ws ∧ stmt.IsAlternative ∧ n = stmt.errorCount :=
    .optional ((spells_alternative hb hc).mono fun stmt _ _ _ ⟨ws, hvs, h⟩ =>
      .inr ⟨stmt, ws, rfl, hvs, h⟩) fun _ => .inl ⟨rfl, rfl, rfl⟩
  refine spells_bind_pure (halternative.mono fun alternative vs _ n h hbody span => ⟨?_, trivial⟩)
  rw [hif]
  rcases h with ⟨rfl, rfl, rfl⟩ | ⟨stmt, ws, rfl, rfl, hstmt, hkind, rfl⟩
  · rw [List.append_nil]
    have hwritten : Stmt.Written .greedy (.if condition body none span)
        (.keyword .if :: ts ++ us) := .if hcondition hbody.1
    exact .of_written hwritten (by simp) hbody.2
  · have hwritten : Stmt.Written .greedy (.if condition body (some stmt) span)
        (.keyword .if :: ts ++ us ++ .keyword .else :: ws) := .ifElse hcondition hbody.1 hkind hstmt
    refine .of_written (by simpa using hwritten) (by simp) ?_
    rw [hbody.2]
    rfl

/-- A conditional, with all those behind `else`. -/
theorem spells_conditional : Spells (conditional b) fun stmt ts us n =>
    stmt.BareReading ts us n ∧ stmt.IsAlternative :=
  .fix fun _ hc => spells_conditionalStep hb hc

/-- A loop is spelled by its keyword and the body. -/
theorem spells_loopStatement : Spells (loopStatement b)
    fun build ts us n => ∀ span, (build span).BareReading ts us n := by
  refine .silently (.token _) fun _ _ hloop => spells_bind_pure ?_
  refine hb.mono fun body ts _ n hbody span => ?_
  rw [hloop]
  exact .of_written (.loop hbody.1) (by simp) hbody.2

/-- A loop with a condition is spelled by its keyword, the condition and the body. -/
theorem spells_whileStatement : Spells (whileStatement b)
    fun build ts us n => ∀ span, (build span).BareReading ts us n := by
  refine .silently (.token _) fun _ _ hwhile => ?_
  refine .silently spells_expression fun condition ts hcondition => spells_bind_pure ?_
  refine hb.mono fun body us _ n hbody span => ?_
  have hwritten : Stmt.Written .greedy (.while condition body span) (.keyword .while :: ts ++ us) :=
    .while hcondition hbody.1
  rw [hwhile]
  exact .of_written hwritten (by simp) hbody.2

/-- A block that stands alone is spelled like any block. -/
theorem spells_blockStatement : Spells (blockStatement b)
    fun build ts us n => ∀ span, (build span).BareReading ts us n :=
  spells_bind_pure (hb.mono fun _ _ _ _ hbody _ =>
    .of_written (.block hbody.1) (by simp) hbody.2)

end Blocks

/-- The operation on stored data is spelled by its keyword. -/
theorem spells_crudOperator :
    Spells crudOperator (Silently fun op ts => ts = [.keyword op.keyword]) := by
  unfold crudOperator select
  refine Spells.satisfy.mono fun op ts _ n h => ⟨?_, h.2⟩
  obtain ⟨k, rfl, hk⟩ := h.1
  split at hk
  case h_5 => simp at hk
  all_goals obtain rfl := Option.some.inj hk; rfl

/-- Arguments that may be missing are missing only where none stand. -/
theorem spells_optionalArguments : Spells (optional (arguments expression)) fun args ts us n =>
    n = 0 ∧ ((args = none ∧ ts = [] ∧
        ∀ vs ps rest, ItemList (Expr.Written 0) vs ps → us ≠ ps ++ rest) ∨
      ∃ vs, args = some vs ∧ ItemList (Expr.Written 0) vs ts) := by
  intro s args t hs
  rcases of_orElse_eq_ok hs with h | ⟨f, hf, h⟩
  · have hsome : Spells (some <$> arguments expression) fun args ts _ n =>
        n = 0 ∧ ∃ vs, args = some vs ∧ ItemList (Expr.Written 0) vs ts :=
      .map ((spells_arguments spells_expression).mono fun vs ts _ n h => ⟨h.2, vs, rfl, h.1⟩)
    obtain ⟨read, new, hread, hnew, hn, hvs⟩ := hsome s args t h
    exact ⟨read, new, hread, hnew, hn, .inr hvs⟩
  · obtain ⟨rfl, rfl⟩ := of_pure_eq_ok h
    refine ⟨[], [], rfl, (List.append_nil _).symm, rfl, .inl ⟨rfl, rfl, ?_⟩⟩
    intro vs ps rest hps hus
    -- had there been arguments, they would have been read
    obtain ⟨v, u, hv, -⟩ := reads_expressionArguments hps rest s hus
    rw [map_apply, hv] at hf
    cases hf

/-- A statement on stored data takes all the arguments that it can, so what follows matters. -/
theorem spells_crudStatement : Spells crudStatement
    fun build ts us n => ∀ span, (build span).BareReading ts us n := by
  refine .labelled ?_
  refine .silently spells_crudOperator fun op _ hop => ?_
  refine .silently spells_identifier fun target _ htarget => spells_bind_pure ?_
  refine spells_optionalArguments.mono fun args ts us n h span => ?_
  rw [hop, htarget]
  rcases h with ⟨rfl, ⟨rfl, rfl, hnone⟩ | ⟨vs, rfl, hvs⟩⟩
  · exact ⟨.crud, fun _ => hnone, rfl⟩
  · refine ⟨.crudWith hvs, ?_, rfl⟩
    -- with arguments there are more than two tokens
    rintro ⟨_, _, _, -, hts⟩
    cases hvs <;> simp at hts

/-- A `return` is spelled with or without a value. -/
theorem spells_returnStatement : Spells returnStatement
    fun build ts us n => ∀ span, (build span).BareReading ts us n := by
  refine .silently (.token _) fun _ _ hreturn => ?_
  have hvalue : Spells (optional expression) (Silently fun value ts =>
      (value = none ∧ ts = []) ∨ ∃ e, value = some e ∧ Expr.Written 0 e ts) :=
    .optional (spells_expression.mono fun e _ _ _ h => ⟨.inr ⟨e, rfl, h.1⟩, h.2⟩)
      fun _ => ⟨.inl ⟨rfl, rfl⟩, rfl⟩
  refine .silently hvalue fun value ts hvalue => ?_
  refine .pure fun us span => ?_
  rw [hreturn, List.append_nil]
  rcases hvalue with ⟨rfl, rfl⟩ | ⟨e, rfl, he⟩
  · exact .of_written .return (by simp) rfl
  · exact .of_written (.returnWith he) (by simp) rfl

/-- A statement that is an expression is spelled like the expression. -/
theorem spells_expressionStatement : Spells expressionStatement
    fun build ts us n => ∀ span, (build span).BareReading ts us n := by
  refine .silently spells_expression fun e ts he => ?_
  refine .pure fun us span => ?_
  rw [List.append_nil]
  exact .of_written (.expr he) (by simp) rfl

/-- The forms of statements other than conditionals. -/
inductive Form where
  | var
  | const
  | func
  | «class»
  | loop
  | while
  | crud
  | return
  | block
  | expr

/-- The parser for a form of statements. -/
def Form.parser (b : Parser (Block Stmt)) : Form → Parser (Span → Stmt)
  | .var => varDeclaration
  | .const => constDeclaration
  | .func => functionDefinition b
  | .class => classDefinition b
  | .loop => loopStatement b
  | .while => whileStatement b
  | .crud => crudStatement
  | .return => returnStatement
  | .block => blockStatement b
  | .expr => expressionStatement

/-- The alternatives of a statement that is no conditional, in their order. -/
abbrev forms (b : Parser (Block Stmt)) : List (Parser (Span → Stmt)) :=
  [varDeclaration, constDeclaration, functionDefinition b, classDefinition b, loopStatement b,
    whileStatement b, crudStatement, returnStatement, blockStatement b, expressionStatement]

/-- The parser for each form is one of the alternatives. -/
theorem Form.mem_forms {b : Parser (Block Stmt)} (form : Form) : form.parser b ∈ forms b := by
  cases form <;> simp [Form.parser]

/-- Every alternative of a statement is the parser for a form. -/
theorem Form.exists_of_mem {b : Parser (Block Stmt)} {q : Parser (Span → Stmt)}
    (hq : q ∈ forms b) : ∃ form : Form, q = form.parser b := by
  simp only [List.mem_cons, List.not_mem_nil, or_false] at hq
  rcases hq with rfl | rfl | rfl | rfl | rfl | rfl | rfl | rfl | rfl | rfl
  · exact ⟨.var, rfl⟩
  · exact ⟨.const, rfl⟩
  · exact ⟨.func, rfl⟩
  · exact ⟨.class, rfl⟩
  · exact ⟨.loop, rfl⟩
  · exact ⟨.while, rfl⟩
  · exact ⟨.crud, rfl⟩
  · exact ⟨.return, rfl⟩
  · exact ⟨.block, rfl⟩
  · exact ⟨.expr, rfl⟩

/-- A statement that is no conditional. -/
def unconditional (b : Parser (Block Stmt)) : Parser Stmt :=
  withSpan (choice varDeclaration (forms b).tail)

/-- The conditional is tried before the other forms. -/
theorem bareStatement_eq (b : Parser (Block Stmt)) :
    bareStatement b = orElse (conditional b) (unconditional b) := rfl

section Blocks

variable {b : Parser (Block Stmt)} (hb : Spells b Block.Reading)
include hb

/-- A statement of any form is spelled by the tokens read. -/
theorem spells_form (form : Form) : Spells (form.parser b)
    fun build ts us n => ∀ span, (build span).BareReading ts us n := by
  cases form with
  | var => exact spells_varDeclaration.mono fun _ _ _ _ h span => (h span).1
  | const => exact spells_constDeclaration.mono fun _ _ _ _ h span => (h span).1
  | func => exact (spells_functionDefinition hb).mono fun _ _ _ _ h span => (h span).1
  | «class» => exact spells_classDefinition hb
  | loop => exact spells_loopStatement hb
  | «while» => exact spells_whileStatement hb
  | crud => exact spells_crudStatement
  | «return» => exact spells_returnStatement
  | block => exact spells_blockStatement hb
  | expr => exact spells_expressionStatement

/-- So is a statement without the semicolon that may end it. -/
theorem spells_bareStatement : Spells (bareStatement b) Stmt.BareReading := by
  have hconditional : Spells (conditional b) Stmt.BareReading :=
    (spells_conditional hb).mono fun _ _ _ _ h => h.1
  refine hconditional.orElse ?_
  refine .withSpan ?_
  refine .choice (spells_form hb .var) fun q hq => ?_
  obtain ⟨form, rfl⟩ := Form.exists_of_mem (List.mem_cons_of_mem _ hq)
  exact spells_form hb form

/-- So is a statement, where one that could not be read is spelled by what is skipped. -/
theorem spells_statementStep : Spells (statementStep b) Stmt.Reading := by
  refine .recoverWith (.labelled <| .bind (spells_bareStatement hb) fun stmt ts m => ?_) ?_
  · refine .silently (.optionally .semicolon) fun _ semi hsemi => ?_
    refine .pure fun us hstmt => ?_
    rw [List.append_nil]
    exact ⟨ts, semi, rfl, hsemi, by simpa using hstmt⟩
  -- what cannot be read is one failure and one statement
  · refine spells_statementError.mono fun stmt ts us n h => ?_
    obtain ⟨⟨hts, span, rfl⟩, rfl⟩ := h
    exact ⟨ts, [], (List.append_nil ts).symm, .inl rfl, .of_written (.error hts) (by simp) rfl⟩

end Blocks

/-- Statements one behind the other. -/
theorem spells_many {p : Parser Stmt} (hp : Spells p Stmt.Reading) :
    Spells (many p) (Stmt.ListReading .greedy) :=
  .many hp (fun _ => ⟨.nil, rfl⟩) fun _ _ _ _ _ _ _ hstmt hstmts =>
    .cons hstmt (fun _ _ _ hgreedy => hgreedy) hstmts

/-- So is a block, given the statements in it. -/
theorem spells_strictBlock {p : Parser Stmt} (hp : Spells p Stmt.Reading) :
    Spells (strictBlock p) Block.Reading := by
  -- each statement is followed by the others and by the closing brace
  refine .labelled (.withSpan ?_)
  refine spells_bind_pure ?_
  refine .between (spells_many hp) fun stmts ts us n h span => ?_
  exact ⟨.braces h.1, h.2⟩

/-- The tokens of a statement spell it, and there are as many failures as statements inside that
could not be read. -/
theorem spells_statementBy_strictBlock : Spells (statementBy strictBlock) Stmt.Reading :=
  .fix fun _ hp => spells_statementStep (spells_strictBlock hp)

end Grammar

end CrudLang
