import CrudLang.Proofs.Comparison.Statements
import CrudLang.Proofs.Detection.Expressions

/-!
# How far the parser for statements gets

Up to the first failure that counts, the parser for statements has read the beginning of statements
in which everything can be read: `foresees_statements`. Since the statements inside blocks report
failures, it is essential that a block always ends at its closing brace, and that nothing behind a
block is required.

A statement on stored data takes the arguments behind it. Where these cannot be read, the next
statement begins with their opening parenthesis; but whatever can be read from there on is the
beginning of arguments as well, up to the closing parenthesis, and there the arguments would have
ended (`Stmt.AllReadable.begins_cons`).
-/

namespace CrudLang

open CrudLang.Parser

/-- How a statement is written in which everything can be read. -/
structure Stmt.Readable (stmt : Stmt) (ts : List TokenKind) : Prop where
  written : Stmt.Written .greedy stmt ts
  count : stmt.errorCount = 0

/-- How a block is written in which everything can be read. -/
structure Block.Readable (body : Block Stmt) (ts : List TokenKind) : Prop where
  written : Block.Written .greedy body ts
  count : Block.errorCount body = 0

/-- How statements are written one behind the other in which everything can be read. -/
structure Stmt.AllReadable (stmts : List Stmt) (ts : List TokenKind) : Prop where
  written : Stmt.ListWritten .greedy .greedy stmts ts
  count : Stmt.errorCountOfAll stmts = 0

/-- A statement in which everything can be read, with or without a semicolon. -/
def Stmt.Terminated (stmt : Stmt) (ts : List TokenKind) : Prop :=
  ∃ body semi, ts = body ++ semi ∧ Optionally .semicolon semi ∧ stmt.Readable body

/-- A readable statement that may stand behind `else`. -/
def Stmt.Alternative (stmt : Stmt) (ts : List TokenKind) : Prop :=
  stmt.IsAlternative ∧ stmt.Readable ts

/-- An empty block can be read. -/
theorem Block.readable_empty : Block.Readable ⟨[], default⟩
    [.punctuator .leftBrace, .punctuator .rightBrace] :=
  ⟨.braces .nil, rfl⟩

/-- A block may begin anywhere that one is expected. -/
theorem Block.begins_nil : Begins Block.Readable [] :=
  ⟨_, _, Block.readable_empty⟩

/-- A statement may begin anywhere that one is expected. -/
theorem Stmt.begins_nil : Begins Stmt.Readable [] :=
  ⟨.block ⟨[], default⟩, _, .block Block.readable_empty.written, rfl⟩

/-- The beginning of something behind `else` is the beginning of a statement. -/
theorem Stmt.Alternative.begins {ts : List TokenKind} (h : Begins Stmt.Alternative ts) :
    Begins Stmt.Readable ts := by
  obtain ⟨stmt, us, -, hstmt⟩ := h
  exact ⟨stmt, us, hstmt⟩

/-- A list begins with its opening parenthesis. -/
theorem ItemList.exists_head {α : Type} {item : α → List TokenKind → Prop} {vs : List α}
    {ts : List TokenKind} (h : ItemList item vs ts) :
    ∃ us, ts = .punctuator .leftParen :: us := by
  cases h <;> exact ⟨_, rfl⟩

/-- A single statement. -/
theorem Stmt.Terminated.allReadable {stmt : Stmt} {ts : List TokenKind} (h : stmt.Terminated ts) :
    Stmt.AllReadable [stmt] ts := by
  obtain ⟨body, semi, rfl, hsemi, hbody⟩ := h
  have hgreedy : Follow.greedy stmt body (semi ++ []) := by
    intro _ args ps rest hps heq
    obtain ⟨us, rfl⟩ := hps.exists_head
    rcases hsemi with rfl | rfl <;> cases heq
  have hwritten : Stmt.ListWritten .greedy .greedy [stmt] (body ++ semi ++ []) :=
    .cons hbody.written hsemi hgreedy .nil
  rw [List.append_nil] at hwritten
  refine ⟨hwritten, ?_⟩
  rw [Stmt.errorCountOfAll, hbody.count]
  rfl

/-- The beginning of readable statements may stand behind a statement that has been read. -/
theorem Stmt.AllReadable.begins_cons {stmt : Stmt} {ts us more : List TokenKind}
    (h : stmt.Reading ts (us ++ more) 0) (hus : Begins Stmt.AllReadable us) :
    Begins Stmt.AllReadable (ts ++ us) := by
  obtain ⟨stmts, vs, hstmts⟩ := hus
  obtain ⟨body, semi, rfl, hsemi, hbody⟩ := h
  by_cases hgreedy : Follow.greedy stmt body (semi ++ (us ++ vs))
  · have hwritten := Stmt.ListWritten.cons hbody.written hsemi hgreedy hstmts.written
    refine ⟨stmt :: stmts, vs, ⟨by simpa [List.append_assoc] using hwritten, ?_⟩⟩
    rw [Stmt.errorCountOfAll, ← hbody.count, hstmts.count]
  · -- what begins behind the statement are its arguments, which do not end where it has been read
    unfold Follow.greedy at hgreedy
    push Not at hgreedy
    obtain ⟨⟨op, target, span, rfl, rfl⟩, args, ps, rest, hps, heq⟩ := hgreedy
    obtain ⟨qs, hqs⟩ := hps.exists_head
    obtain rfl : semi = [] := by
      rcases hsemi with rfl | rfl
      · rfl
      · rw [hqs] at heq
        cases heq
    rw [List.nil_append] at heq
    rcases List.append_eq_append_iff.1 heq with ⟨ws, hws, -⟩ | ⟨ws, hws, -⟩
    · have hcrud : (Stmt.crud op target args default).Terminated
          ([.keyword op.keyword, .identifier target.name] ++ (us ++ ws)) :=
        ⟨_, [], (List.append_nil _).symm, .inl rfl, .crudWith (hws ▸ hps), rfl⟩
      exact ⟨_, ws, by simpa [List.append_assoc] using hcrud.allReadable⟩
    · refine absurd ?_ (hbody.follow ⟨op, target, span, rfl, rfl⟩ args ps (ws ++ more) hps)
      rw [hws, List.nil_append, List.append_assoc]

namespace Grammar

variable {n : Nat} {Pre : List TokenKind → Prop}

/-- No class is begun. -/
theorem foresees_classDefinition (hnil : Pre []) (b : Parser (Block Stmt)) :
    Foresees n (classDefinition b) Pre := by
  have hfail {α : Type} {f : Unit → Parser α} {K : List Token → Prop} {s : State}
      (hs : Outlook n Pre K s) : (keyword .class >>= f) s =
        .fail (.note s.pending s.rest (.token (.keyword .class))) :=
    token_bind_eq_fail fun t ts htokens => hs.regular.classless t (htokens ▸ List.mem_cons_self)
  refine .labelled ⟨fun K s v t hs ht => ?_, fun K s f hs hf => ?_⟩
  · cases (hfail hs).symm.trans ht
  · obtain rfl := Reply.fail.inj ((hfail hs).symm.trans hf)
    exact hs.note hnil _

/-- The declaration of a variable is complete behind the name and behind the value. -/
theorem foresees_varDeclaration : Foresees n varDeclaration (Begins Stmt.Readable) := by
  have hvar (name : Ident) : (Stmt.var name none default).Readable
      [.keyword .var, .identifier name.name] := ⟨.var, rfl⟩
  refine .weaken ?_
  refine .token_bind Stmt.begins_nil ?_
  refine .bind (foresees_identifier ⟨_, _, hvar default⟩) spells_identifier fun name ts hname => ?_
  rw [hname]
  refine .bind_pure (.optional (.weaken ?_))
  refine .token_bind (.of (hvar name)) ?_
  refine (foresees_expression n).mono fun us hus => ?_
  obtain ⟨value, vs, hvalue⟩ := hus
  have hwith : (Stmt.var name (some value) default).Readable
      (.keyword .var :: .identifier name.name :: .punctuator .assign :: (us ++ vs)) :=
    ⟨.varWith hvalue, rfl⟩
  exact ⟨_, vs, hwith⟩

/-- The declaration of a constant is complete behind the value. -/
theorem foresees_constDeclaration : Foresees n constDeclaration (Begins Stmt.Readable) := by
  have hconst (name : Ident) {value : Expr} {ts : List TokenKind} (h : Expr.Written 0 value ts) :
      (Stmt.const name value default).Readable
        (.keyword .const :: .identifier name.name :: .punctuator .assign :: ts) := ⟨.const h, rfl⟩
  have hvalue : Expr.Written 0 (.bool true default) [.keyword .true] := .atom .bool
  refine .weaken ?_
  refine .token_bind Stmt.begins_nil ?_
  refine .bind (foresees_identifier ⟨_, _, hconst default hvalue⟩) spells_identifier
    fun name ts hname => ?_
  rw [hname]
  refine .weaken ?_
  refine .token_bind ⟨_, _, hconst name hvalue⟩ ?_
  refine .bind_pure ((foresees_expression n).mono fun us hus => ?_)
  obtain ⟨value, vs, hvalue⟩ := hus
  exact ⟨_, vs, hconst name hvalue⟩

/-- A statement on stored data is complete behind the name and behind the arguments. -/
theorem foresees_crudStatement : Foresees n crudStatement (Begins Stmt.Readable) := by
  have hcrud (op : CrudOp) (target : Ident) : (Stmt.crud op target [] default).Readable
      [.keyword op.keyword, .identifier target.name] := ⟨.crud, rfl⟩
  have hoperator : Foresees n crudOperator (Begins Stmt.Readable) := by
    unfold crudOperator select
    exact .satisfy Stmt.begins_nil
  refine .labelled ?_
  refine .bind hoperator spells_crudOperator fun op ts hop => ?_
  rw [hop]
  refine .bind (foresees_identifier ⟨_, _, hcrud op default⟩) spells_identifier
    fun target ts htarget => ?_
  rw [htarget]
  have hargs := (foresees_arguments (foresees_expression n)).weaken
  -- without arguments the statement is complete already
  refine .bind_pure (.optional (hargs.mono fun us hus => ?_))
  obtain ⟨args, vs, hargs⟩ := hus
  have hwith : (Stmt.crud op target args default).Readable
      (.keyword op.keyword :: .identifier target.name :: (us ++ vs)) := ⟨.crudWith hargs, rfl⟩
  exact ⟨_, vs, hwith⟩

/-- A `return` is complete at once and behind the value. -/
theorem foresees_returnStatement : Foresees n returnStatement (Begins Stmt.Readable) := by
  refine .weaken ?_
  refine .token_bind Stmt.begins_nil ?_
  refine .bind_pure (.optional ((foresees_expression n).mono fun us hus => ?_))
  obtain ⟨value, vs, hvalue⟩ := hus
  have hwith : (Stmt.return (some value) default).Readable (.keyword .return :: (us ++ vs)) :=
    ⟨.returnWith hvalue, rfl⟩
  exact ⟨_, vs, hwith⟩

/-- A statement that is an expression is begun by the beginning of one. -/
theorem foresees_expressionStatement :
    Foresees n expressionStatement (Begins Stmt.Readable) := by
  refine .bind_pure ((foresees_expression n).mono fun us hus => ?_)
  obtain ⟨e, vs, he⟩ := hus
  exact ⟨.expr e default, vs, .expr he, rfl⟩

section Blocks

variable {b : Parser (Block Stmt)} (hb : Foresees n b (Begins Block.Readable))
variable (hspells : Spells b Block.Reading)
include hb

/-- A block that stands alone is begun by the beginning of one. -/
theorem foresees_blockStatement : Foresees n (blockStatement b) (Begins Stmt.Readable) := by
  refine .bind_pure (hb.mono fun us hus => ?_)
  obtain ⟨body, vs, hbody⟩ := hus
  exact ⟨.block body, vs, .block hbody.written, hbody.count⟩

/-- A loop is complete behind its body. -/
theorem foresees_loopStatement : Foresees n (loopStatement b) (Begins Stmt.Readable) := by
  refine .weaken ?_
  refine .token_bind Stmt.begins_nil ?_
  refine .bind_pure (hb.mono fun us hus => ?_)
  obtain ⟨body, vs, hbody⟩ := hus
  have hloop : (Stmt.loop body default).Readable (.keyword .loop :: (us ++ vs)) :=
    ⟨.loop hbody.written, hbody.count⟩
  exact ⟨_, vs, hloop⟩

/-- A loop with a condition is complete behind its body. -/
theorem foresees_whileStatement : Foresees n (whileStatement b) (Begins Stmt.Readable) := by
  have hwhile {condition : Expr} {body : Block Stmt} {ts us : List TokenKind}
      (hcondition : Expr.Written 0 condition ts) (hbody : body.Readable us) :
      (Stmt.while condition body default).Readable (.keyword .while :: ts ++ us) :=
    ⟨.while hcondition hbody.written, hbody.count⟩
  have hcondition : Foresees n expression
      fun ts => Begins Stmt.Readable (.keyword .while :: ts) := by
    refine (foresees_expression n).mono fun ts hts => ?_
    obtain ⟨e, us, he⟩ := hts
    exact ⟨_, us ++ _, by simpa using hwhile he Block.readable_empty⟩
  refine .weaken ?_
  refine .token_bind Stmt.begins_nil ?_
  refine .bind hcondition spells_expression fun condition ts hts => ?_
  refine .bind_pure (hb.mono fun us hus => ?_)
  obtain ⟨body, vs, hbody⟩ := hus
  exact ⟨_, vs, by simpa using hwhile hts hbody⟩

/-- The definition of a function is complete behind its body. -/
theorem foresees_functionDefinition :
    Foresees n (functionDefinition b) (Begins Stmt.Readable) := by
  have hfunc (name : Ident) {params : List Ident} {body : Block Stmt} {ts us : List TokenKind}
      (hparams : ItemList Ident.Written params ts) (hbody : body.Readable us) :
      (Stmt.func name params body default).Readable
        (.keyword .func :: .identifier name.name :: ts ++ us) :=
    ⟨.func hparams hbody.written, hbody.count⟩
  have hname (ident : Ident) : Ident.Written ident [.identifier ident.name] := rfl
  have hparams : Foresees n parameters (Begins (ItemList Ident.Written)) := by
    refine .weaken (.labelled ?_)
    exact foresees_itemList (foresees_identifier ⟨_, _, hname default⟩) spells_identifier
  have hwritten : Spells parameters (Silently (ItemList Ident.Written)) :=
    .labelled (.itemList spells_identifier)
  refine .labelled (.weaken ?_)
  refine .token_bind Stmt.begins_nil ?_
  refine .bind (foresees_identifier ⟨_, _, hfunc default .nil Block.readable_empty⟩)
    spells_identifier fun name ts hname => ?_
  rw [hname]
  -- where the parameters or the body break off, they are completed, if need be by an empty block
  refine .bind (hparams.mono fun us hus => ?_) hwritten fun params us hparams =>
    .bind_pure (hb.mono fun vs hvs => ?_)
  · obtain ⟨params, vs, hparams⟩ := hus
    exact ⟨_, vs ++ _, by simpa using hfunc name hparams Block.readable_empty⟩
  · obtain ⟨body, ws, hbody⟩ := hvs
    exact ⟨_, ws, by simpa using hfunc name hparams hbody⟩

/-- What stands behind `else` is a conditional or a block. -/
theorem foresees_behindElse (h : Foresees n (conditional b) (Begins Stmt.Alternative)) :
    Foresees n (behindElse b) (Begins Stmt.Alternative) := by
  refine .orElse h (.map (hb.mono fun us hus => ?_))
  obtain ⟨body, vs, hbody⟩ := hus
  exact ⟨.block body, vs, trivial, .block hbody.written, hbody.count⟩

include hspells

/-- A conditional behind `if`, given what stands behind `else`. -/
theorem foresees_behindIf (helse : Foresees n (behindElse b) (Begins Stmt.Alternative)) :
    Foresees n (behindIf b) fun ts => Begins Stmt.Alternative (.keyword .if :: ts) := by
  have hif {condition : Expr} {body : Block Stmt} {ts us : List TokenKind}
      (hcondition : Expr.Written 0 condition ts) (hbody : body.Readable us) :
      (Stmt.if condition body none default).Alternative (.keyword .if :: ts ++ us) :=
    ⟨trivial, .if hcondition hbody.written, hbody.count⟩
  refine .bind ((foresees_expression n).mono fun ts hts => ?_) spells_expression
    fun condition ts hts => ?_
  · obtain ⟨e, us, he⟩ := hts
    exact ⟨_, us ++ _, by simpa using hif he Block.readable_empty⟩
  -- behind the block, either nothing follows or `else` with the alternative
  have hafter (body : Block Stmt) : Foresees n
      (do let alternative ← optional (do keyword .else; behindElse b)
          pure (Stmt.if condition body alternative))
      fun us => us = [] ∨ ∃ vs, us = .keyword .else :: vs ∧ Begins Stmt.Alternative vs := by
    refine .bind_pure (.optional (.weaken ?_))
    refine .token_bind (.inl rfl) ?_
    exact helse.mono fun vs hvs => .inr ⟨vs, rfl, hvs⟩
  have halternative : Spells (do keyword .else; behindElse b) _ :=
    spells_alternative hspells (spells_conditional hspells)
  refine .bind_total (hb.mono fun us hus => ?_) hspells hafter
    (fun _ => (Total.optional _).bind fun _ => .pure _)
    (fun _ => (Extends.of_spells halternative).optional.bind fun _ => .pure _)
    fun body us vs more hbody hvs => ?_
  · obtain ⟨body, vs, hbody⟩ := hus
    exact ⟨_, vs, by simpa using hif hts hbody⟩
  · have hreadable : body.Readable us := ⟨hbody.1, hbody.2.symm⟩
    rcases hvs with rfl | ⟨vs, rfl, alternative, ws, hkind, hstmt⟩
    · rw [List.append_nil]
      exact .of (hif hts hreadable)
    · have helse : (Stmt.if condition body (some alternative) default).Alternative
          (.keyword .if :: ts ++ us ++ .keyword .else :: (vs ++ ws)) :=
        ⟨trivial, .ifElse hts hreadable.written hkind hstmt.written,
          by rw [Stmt.errorCount, hreadable.count, Stmt.errorCountOf?, hstmt.count]⟩
      exact ⟨_, ws, by simpa using helse⟩

/-- A conditional is complete behind each of its blocks. -/
theorem foresees_conditional : Foresees n (conditional b) (Begins Stmt.Alternative) := by
  have hnil : Begins Stmt.Alternative [] :=
    ⟨.block ⟨[], default⟩, _, trivial, .block Block.readable_empty.written, rfl⟩
  induction n with
  | zero => exact .zero
  | succ n ih =>
    rw [conditional_eq_behindIf fun _ => .of_spells hspells]
    have helse := foresees_behindElse hb.weaken (ih hb.weaken)
    refine .withSpan ?_
    refine .token_bind hnil ?_
    exact foresees_behindIf hb.weaken hspells helse

/-- A statement without its semicolon is of one of the forms. -/
theorem foresees_bareStatement : Foresees n (bareStatement b) (Begins Stmt.Readable) := by
  refine .orElse ((foresees_conditional hb hspells).mono fun _ => Stmt.Alternative.begins)
    (.withSpan (.choice fun q hq => ?_))
  obtain ⟨form, rfl⟩ := Form.exists_of_mem hq
  cases form with
  | var => exact foresees_varDeclaration
  | const => exact foresees_constDeclaration
  | func => exact foresees_functionDefinition hb
  | «class» => exact foresees_classDefinition Stmt.begins_nil b
  | loop => exact foresees_loopStatement hb
  | «while» => exact foresees_whileStatement hb
  | crud => exact foresees_crudStatement
  | «return» => exact foresees_returnStatement
  | block => exact foresees_blockStatement hb
  | expr => exact foresees_expressionStatement

/-- Behind a statement there may be a semicolon. -/
theorem foresees_terminated :
    Foresees n (terminated (bareStatement b)) (Begins Stmt.Terminated) := by
  have hafter (stmt : Stmt) : Foresees n
      (do let _ ← optional (punctuator .semicolon); pure stmt) (· = []) :=
    .bind_pure (.optional (.token rfl))
  refine .bind_total ((foresees_bareStatement hb hspells).mono fun ts hts => ?_)
    (spells_bareStatement hspells) hafter (fun _ => (Total.optional _).bind fun _ => .pure _)
    (fun _ => (Extends.token _).optional.bind fun _ => .pure _)
    fun stmt ts us more hstmt hus => ?_
  · obtain ⟨stmt, us, hstmt⟩ := hts
    exact ⟨stmt, us, _, [], (List.append_nil _).symm, .inl rfl, hstmt⟩
  · rw [hus, List.append_nil]
    exact .of ⟨ts, [], (List.append_nil _).symm, .inl rfl, hstmt.written, hstmt.count.symm⟩

end Blocks

section Lists

/-- Statements one behind the other. -/
theorem foresees_many {p : Parser Stmt} (hspells : Spells p Stmt.Reading)
    (hp : Foresees n p (Begins Stmt.Terminated)) :
    Foresees n (many p) (Begins Stmt.AllReadable) := by
  have hconsumes : Consumes p := .of_spells hspells fun _ _ _ h => h.ne_nil rfl
  have hone {ts : List TokenKind} (h : Begins Stmt.Terminated ts) :
      Begins Stmt.AllReadable ts := by
    obtain ⟨stmt, us, hstmt⟩ := h
    exact ⟨[stmt], us, hstmt.allReadable⟩
  -- a statement may report failures, but the rounds behind it never fail
  induction n with
  | zero => exact .zero
  | succ n ih =>
    rw [many_eq hconsumes]
    refine .orElse (.bind_total_below (m := n) (hp.mono fun _ => hone) hspells
      (fun s v t hs ht => ?_) (fun _ => .bind_pure (ih hp.weaken))
      (fun _ => (Total.many hconsumes).bind fun _ => .pure _)
      (fun _ => (Extends.of_spells hspells).many.bind fun _ => .pure _)
      fun _ _ _ _ => Stmt.AllReadable.begins_cons) (.pure [])
    exact Nat.lt_of_lt_of_le (hconsumes s v t ht) (Nat.le_of_lt_succ hs)

/-- Statements between braces. Behind an opening brace nothing fails any more. -/
theorem foresees_bracedStatements (h : Foresees n statement (Begins Stmt.Terminated)) :
    Foresees (n + 1) (bracedStatements statement) (Begins Block.Readable) := by
  have hbraces {stmts : List Stmt} {ts : List TokenKind} (hstmts : Stmt.AllReadable stmts ts) :
      Block.Readable ⟨stmts, default⟩
        (.punctuator .leftBrace :: ts ++ [.punctuator .rightBrace]) :=
    ⟨.braces hstmts.written, hstmts.count⟩
  refine .withSpan ?_
  refine .bind_pure ⟨fun K s v t hs ht => ?_, fun K s f hs hf => ?_⟩
  · obtain ⟨l, ts, u, r, us, htokens, hl, hu, -, -, rfl⟩ := exists_of_between_eq_ok ht
    -- the outlook behind the opening brace is the one of the statements
    have hinside : Outlook n (Begins Stmt.AllReadable) K ⟨.ofList ts, s.pending, s.reported⟩ := by
      have hread : s.rest.tokens = [l] ++ ts := htokens
      refine hs.next hread ?_ hs.quiet ?_ fun us more hus hts => ?_
      · have hsize := hs.size
        rw [← s.rest.size_eq, htokens] at hsize
        exact Nat.lt_of_succ_lt_succ hsize
      · exact fun f hf =>
          hs.pending f ((State.leading_of_nil (by exact hs.quiet)).symm.trans hf)
      · obtain ⟨stmts, vs, hstmts⟩ := hts
        exact ⟨_, vs ++ [.punctuator .rightBrace], by simpa [hl] using hbraces hstmts⟩
    exact (foresees_many spells_statement h).ok K _ _ u hinside hu
  · rcases of_between_eq_fail hf with rfl | ⟨l, ts, htokens, hl, -⟩
    · exact hs.note Block.begins_nil _
    · -- the brace has its closing one, so the statements are read up to it
      obtain ⟨after, hafter⟩ := hs.regular.closed l ts (htokens ▸ List.suffix_refl _) hl
      obtain ⟨stmts, u, hu, -⟩ := exists_between_many_statement_eq_ok htokens hl hafter
      cases hu.symm.trans hf

/-- Up to the failure that counts, the parser for statements has read the beginning of one. -/
theorem foresees_statement (n : Nat) : Foresees n statement (Begins Stmt.Terminated) := by
  induction n with
  | zero => exact .zero
  | succ n ih =>
    have hblock : Foresees (n + 1) (strictBlock statement) (Begins Block.Readable) :=
      .labelled (foresees_bracedStatements ih)
    rw [statement_eq_terminated]
    refine .recoverWith (.labelled ?_) (spells_statementError.mono fun _ _ _ _ h => h.2)
    exact foresees_terminated hblock (spells_strictBlock spells_statement)

/-- Up to the failure that counts, the parser for programs has read the beginning of statements in
which everything can be read. -/
theorem foresees_statements (n : Nat) :
    Foresees n (statements statement) (Begins Stmt.AllReadable) := by
  refine foresees_many spells_recoverWith_strayBrace ?_
  exact (foresees_statement n).recoverWith (spells_strayBrace.mono fun _ _ _ _ h => h.2)

end Lists

end Grammar

end CrudLang
