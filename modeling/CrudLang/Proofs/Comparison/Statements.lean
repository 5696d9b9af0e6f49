import CrudLang.Proofs.Comparison.Simulation
import CrudLang.Proofs.Grammar.StatementReading

/-!
# Two readings of a statement

Every form of statement but blocks and expressions begins with a keyword. What stands behind the
keyword is made of names, expressions and blocks, so it is related to itself by an
`ExpressionSimulation` that refuses keywords, given that blocks are
(`ExpressionSimulation.behindVar` to `ExpressionSimulation.behindIf`).

Braces may be refused as single tokens if pairs of braces are related (`BraceSimulation`). If
moreover the recovery inside statements is, then statements are related to themselves, whatever is
wrong with them (`BlockSimulation.statement`). A simulation that refuses at most operators with two
spellings and preserves recovery is of this kind (`Recovery.blockSimulation`), and it relates whole
programs: `Recovery.statements`.
-/

namespace CrudLang.Grammar

open CrudLang.Parser

section Behind

/-- The declaration of a variable behind `var`. -/
def behindVar : Parser (Span → Stmt) := do
  let name ← identifier
  let init ← optional (do punctuator .assign; expression)
  pure (Stmt.var name init)

/-- The declaration of a constant behind `const`. -/
def behindConst : Parser (Span → Stmt) := do
  let name ← identifier
  punctuator .assign
  let value ← expression
  pure (Stmt.const name value)

/-- The definition of a function behind `func`. -/
def behindFunc (block : Parser (Block Stmt)) : Parser (Span → Stmt) := do
  let name ← identifier
  let params ← parameters
  let body ← block
  pure (Stmt.func name params body)

/-- The definition of a class behind `class`. -/
def behindClass (block : Parser (Block Stmt)) : Parser (Span → Stmt) := do
  let name ← identifier
  let members ← between .leftBrace .rightBrace (many (member block))
  pure (Stmt.class name members)

/-- A loop behind `loop`. -/
def behindLoop (block : Parser (Block Stmt)) : Parser (Span → Stmt) := do
  let body ← block
  pure (Stmt.loop body)

/-- A loop behind `while`. -/
def behindWhile (block : Parser (Block Stmt)) : Parser (Span → Stmt) := do
  let condition ← expression
  let body ← block
  pure (Stmt.while condition body)

/-- An operation on stored data behind its keyword. -/
def behindCrud (op : CrudOp) : Parser (Span → Stmt) := do
  let target ← identifier
  let args ← optional (arguments expression)
  pure (Stmt.crud op target (args.getD []))

/-- A `return` behind the keyword. -/
def behindReturn : Parser (Span → Stmt) := do
  let value ← optional expression
  pure (Stmt.return value)

/-- What may stand behind `else`. -/
def behindElse (block : Parser (Block Stmt)) : Parser Stmt :=
  choice (conditional block) [Stmt.block <$> block]

/-- A conditional behind `if`. -/
def behindIf (block : Parser (Block Stmt)) : Parser (Span → Stmt) := do
  let condition ← expression
  let body ← block
  let alternative ← optional (do keyword .else; behindElse block)
  pure (Stmt.if condition body alternative)

/-- A statement with a semicolon behind it if there is one. -/
def terminated (p : Parser Stmt) : Parser Stmt := do
  let stmt ← p
  let _ ← optional (punctuator .semicolon)
  pure stmt

/-- The equation for statements, by what is read if nothing has to be skipped. -/
theorem statement_eq_terminated : statement = recoverWith
    (labelled .statement (terminated (bareStatement (strictBlock statement)))) statementError :=
  statement_eq

/-- A statement fails where its form does: the semicolon may be missing. -/
theorem of_terminated_eq_fail {p : Parser Stmt} {s : State} {f : Failure}
    (hf : terminated p s = .fail f) : p s = .fail f := by
  rw [terminated, bind_apply] at hf
  cases hv : p s with
  | fail g =>
    rw [hv] at hf
    exact hf
  | ok v t =>
    rw [hv] at hf
    dsimp only at hf
    obtain ⟨semi, u, hu⟩ := exists_optional_eq_ok (punctuator .semicolon) t
    rw [bind_apply, hu] at hf
    cases hf

/-- The equation for conditionals, by what stands behind the keyword. -/
theorem conditional_eq_behindIf {block : Parser (Block Stmt)}
    (hblock : ∀ n, AgreeBelow n block block) :
    conditional block = withSpan (do keyword .if; behindIf block) :=
  conditional_eq hblock

end Behind

namespace ExpressionSimulation

variable {L : Likeness} {Refused : TokenKind → Prop}
variable {R : Nat → ∀ {α : Type}, (α → α → Prop) → Parser α → Parser α → Prop}
variable (S : ExpressionSimulation L Refused R) {n : Nat}
include S

/-- Parameters are lists of names, so they are related if names are. -/
theorem parameters : R n (List.Forall₂ L.ident) parameters parameters :=
  S.weaken (S.labelled (S.parentheses (S.items S.identifier (.of_spells spells_identifier))))

/-- Arguments that may be missing, as in a statement on stored data. -/
theorem optionalArguments : R n (Option.Rel (List.Forall₂ L.expr))
    (Parser.optional (Grammar.arguments Grammar.expression))
    (Parser.optional (Grammar.arguments Grammar.expression)) :=
  S.optional (S.weaken (S.arguments (S.expression n)))

/-- Behind `var`: a name and possibly a value. -/
theorem behindVar : R n (L.built L.stmt) behindVar behindVar := by
  have hvalue : R n L.expr (do punctuator .assign; Grammar.expression)
      (do punctuator .assign; Grammar.expression) :=
    S.bind (S.token (S.not_refused (by decide))) fun _ _ _ => S.expression n
  refine S.bind S.identifier fun _ _ hname => ?_
  refine S.bind (S.optional hvalue) fun _ _ hinit => ?_
  exact S.pure fun _ _ hs => L.var hname hinit hs

/-- Behind `const`: a name and a value. -/
theorem behindConst : R n (L.built L.stmt) behindConst behindConst := by
  refine S.bind S.identifier fun _ _ hname => ?_
  refine S.bind (S.token (S.not_refused (by decide))) fun _ _ _ => ?_
  refine S.bind (S.expression n) fun _ _ hvalue => ?_
  exact S.pure fun _ _ hs => L.const hname hvalue hs

/-- Behind the keyword of a statement on stored data: a name and possibly arguments. -/
theorem behindCrud (op : CrudOp) : R n (L.built L.stmt) (behindCrud op) (behindCrud op) := by
  refine S.bind S.identifier fun _ _ htarget => ?_
  refine S.bind S.optionalArguments fun _ _ hargs => ?_
  exact S.pure fun _ _ hs => L.crud op htarget (forall₂_getD_nil hargs) hs

/-- Behind `return`: possibly a value. -/
theorem behindReturn : R n (L.built L.stmt) behindReturn behindReturn := by
  refine S.bind (S.optional (S.expression n)) fun _ _ hvalue => ?_
  exact S.pure fun _ _ hs => L.returning hvalue hs

/-- A statement that is an expression. -/
theorem expressionStatement : R n (L.built L.stmt) expressionStatement expressionStatement := by
  refine S.bind (S.expression n) fun _ _ he => ?_
  exact S.pure fun _ _ hs => L.expression he hs

section Keywords

variable (hkeyword : ∀ k, Refused (.keyword k) → .keyword k ∈ spelledTwice)
include hkeyword

/-- The declaration of a variable, its keyword included. -/
theorem varDeclaration : R n (L.built L.stmt) varDeclaration varDeclaration :=
  S.bind (S.token fun hk => absurd (hkeyword _ hk) (by decide)) fun _ _ _ => S.behindVar

/-- The declaration of a constant, its keyword included. -/
theorem constDeclaration : R n (L.built L.stmt) constDeclaration constDeclaration :=
  S.bind (S.token fun hk => absurd (hkeyword _ hk) (by decide)) fun _ _ _ => S.behindConst

/-- None of the keywords of statements on stored data is refused, so the operation read is the
same. -/
theorem crudStatement : R n (L.built L.stmt) crudStatement crudStatement := by
  have hop : R n Eq crudOperator crudOperator := by
    unfold crudOperator
    refine S.satisfy (fun k hk => ?_) fun _ _ _ => rfl
    cases k with
    | keyword k =>
      have hmem := hkeyword k hk
      simp only [spelledTwice, List.mem_cons, reduceCtorEq, TokenKind.keyword.injEq, false_or,
        List.not_mem_nil, or_false] at hmem
      rcases hmem with rfl | rfl | rfl <;> rfl
    | _ => rfl
  refine S.labelled ?_
  refine S.bind hop fun op _ hop => ?_
  rw [← hop]
  exact S.behindCrud op

/-- A `return`, its keyword included. -/
theorem returnStatement : R n (L.built L.stmt) returnStatement returnStatement :=
  S.bind (S.token fun hk => absurd (hkeyword _ hk) (by decide)) fun _ _ _ => S.behindReturn

end Keywords

section Blocks

variable {b : Parser (Block Stmt)} (hb : R n L.body b b)
include hb

/-- Behind `func`: a name, parameters and the body. -/
theorem behindFunc : R n (L.built L.stmt) (behindFunc b) (behindFunc b) := by
  refine S.bind S.identifier fun _ _ hname => ?_
  refine S.bind S.parameters fun _ _ hparams => ?_
  refine S.bind hb fun _ _ hbody => ?_
  exact S.pure fun _ _ hs => L.func hname hparams hbody hs

/-- Behind `loop`: the body. -/
theorem behindLoop : R n (L.built L.stmt) (behindLoop b) (behindLoop b) := by
  refine S.bind hb fun _ _ hbody => ?_
  exact S.pure fun _ _ hs => L.loop hbody hs

/-- Behind `while`: a condition and the body. -/
theorem behindWhile : R n (L.built L.stmt) (behindWhile b) (behindWhile b) := by
  refine S.bind (S.expression n) fun _ _ hcondition => ?_
  refine S.bind hb fun _ _ hbody => ?_
  exact S.pure fun _ _ hs => L.loopWhile hcondition hbody hs

/-- A block that stands alone. -/
theorem blockStatement : R n (L.built L.stmt) (blockStatement b) (blockStatement b) := by
  refine S.bind hb fun _ _ hbody => ?_
  exact S.pure fun _ _ _ => L.block hbody

/-- A conditional behind `if`, given what stands behind `else`. -/
theorem behindIf (helse : R n L.stmt (do keyword .else; behindElse b)
      (do keyword .else; behindElse b)) :
    R n (L.built L.stmt) (behindIf b) (behindIf b) := by
  refine S.bind (S.expression n) fun _ _ hcondition => ?_
  refine S.bind hb fun _ _ hbody => ?_
  refine S.bind (S.optional helse) fun _ _ halternative => ?_
  exact S.pure fun _ _ hs => L.conditional hcondition hbody halternative hs

end Blocks

end ExpressionSimulation

/-- A simulation that refuses at most braces, and that preserves pairs of braces. -/
structure BraceSimulation (L : Likeness) (Refused : TokenKind → Prop)
    (R : Nat → ∀ {α : Type}, (α → α → Prop) → Parser α → Parser α → Prop) : Prop
    extends ExpressionSimulation L Refused R where
  brace_or_operator {k : TokenKind} : Refused k →
    k ∈ .punctuator .leftBrace :: .punctuator .rightBrace :: spelledTwice
  braces {n : Nat} {α : Type} {V : α → α → Prop} {p q : Parser α} : R n V p q →
    R (n + 1) V (between .leftBrace .rightBrace p) (between .leftBrace .rightBrace q)

namespace BraceSimulation

variable {L : Likeness} {Refused : TokenKind → Prop}
variable {R : Nat → ∀ {α : Type}, (α → α → Prop) → Parser α → Parser α → Prop}
variable (S : BraceSimulation L Refused R) {n : Nat}
include S

/-- A token that is neither a brace nor spelled twice is related to itself. -/
theorem token {kind : TokenKind}
    (h : kind ∉ .punctuator .leftBrace :: .punctuator .rightBrace :: spelledTwice) :
    R n (fun _ _ => True) (token kind) (token kind) :=
  S.toSimulation.token fun hk => h (S.brace_or_operator hk)

/-- A keyword that is refused is one that is spelled twice. -/
theorem keyword_mem (k : Keyword) (hk : Refused (.keyword k)) : .keyword k ∈ spelledTwice := by
  have hmem := S.brace_or_operator hk
  simp only [List.mem_cons, reduceCtorEq, false_or] at hmem
  exact hmem

/-- Read from the other side: a keyword that is spelled once is not refused. -/
theorem not_refused_keyword {k : Keyword} (h : .keyword k ∉ spelledTwice) :
    ¬ Refused (.keyword k) :=
  fun hk => h (S.keyword_mem k hk)

/-- A keyword that is spelled once is related to itself. -/
theorem keyword {k : Keyword} (h : .keyword k ∉ spelledTwice) :
    R n (fun _ _ => True) (Parser.keyword k) (Parser.keyword k) :=
  S.toSimulation.token (S.not_refused_keyword h)

/-- The semicolon that may end a statement. -/
theorem semicolon : R n (Option.Rel fun _ _ => True) (optional (punctuator .semicolon))
    (optional (punctuator .semicolon)) :=
  S.optional (S.token (by decide))

/-- The parser for blocks is related to itself. -/
abbrev RelatesBlocks (L : Likeness)
    (R : Nat → ∀ {α : Type}, (α → α → Prop) → Parser α → Parser α → Prop) (n : Nat) : Prop :=
  R n L.body (strictBlock statement) (strictBlock statement)

variable (hb : RelatesBlocks L R n)
include hb

/-- A conditional, by induction on how many tokens are left: behind `else` there are fewer. -/
theorem conditional : R n L.stmt (conditional (strictBlock statement))
    (conditional (strictBlock statement)) := by
  have hspells := spells_strictBlock spells_statement
  induction n with
  | zero => exact S.zero
  | succ n ih =>
    -- behind `if`, the conditional may go on with another one
    have helse : R n L.stmt (behindElse (strictBlock statement))
        (behindElse (strictBlock statement)) :=
      S.orElse (ih (S.weaken hb)) (S.map (S.weaken hb) fun _ _ hbody => L.block hbody)
    rw [conditional_eq_behindIf fun _ => .of_spells hspells]
    refine S.withSpan ?_
    refine S.token_bind (S.not_refused_keyword (by decide)) ?_
    refine S.behindIf (S.weaken hb) ?_
    exact S.bind (S.keyword (by decide)) fun _ _ _ => helse

/-- Behind `else`: a conditional or a block. -/
theorem behindElse : R n L.stmt (behindElse (strictBlock statement))
    (behindElse (strictBlock statement)) :=
  S.orElse (S.conditional hb) (S.map hb fun _ _ hbody => L.block hbody)

/-- Behind `if`, where what stands behind `else` is known to be related. -/
theorem behindIf : R n (L.built L.stmt) (behindIf (strictBlock statement))
    (behindIf (strictBlock statement)) :=
  S.toExpressionSimulation.behindIf hb (S.bind (S.keyword (by decide)) fun _ _ _ => S.behindElse hb)

/-- The definition of a function, its keyword included. -/
theorem functionDefinition : R n (L.built L.stmt) (functionDefinition (strictBlock statement))
    (functionDefinition (strictBlock statement)) := by
  refine S.labelled ?_
  exact S.bind (S.keyword (by decide)) fun _ _ _ => S.behindFunc hb

/-- A member of a class: a declaration and the semicolon that may end it. -/
theorem member : R n L.stmt (member (strictBlock statement)) (member (strictBlock statement)) := by
  have hdeclaration : R n (L.built L.stmt)
      (choice Grammar.varDeclaration
        [Grammar.constDeclaration, Grammar.functionDefinition (strictBlock statement)])
      (choice Grammar.varDeclaration
        [Grammar.constDeclaration, Grammar.functionDefinition (strictBlock statement)]) := by
    refine S.choice fun q hq => ?_
    simp only [List.mem_cons, List.not_mem_nil, or_false] at hq
    rcases hq with rfl | rfl | rfl
    · exact S.varDeclaration S.keyword_mem
    · exact S.constDeclaration S.keyword_mem
    · exact S.functionDefinition hb
  refine S.labelled ?_
  refine S.bind (S.withSpan hdeclaration) fun _ _ hstmt => ?_
  refine S.bind S.semicolon fun _ _ _ => ?_
  exact S.pure hstmt

/-- The members of a class between their braces. -/
theorem members : R (n + 1) (List.Forall₂ L.stmt)
    (between .leftBrace .rightBrace (many (Grammar.member (strictBlock statement))))
    (between .leftBrace .rightBrace (many (Grammar.member (strictBlock statement)))) :=
  S.braces (S.many consumes_member_strictBlock (S.member hb))

/-- Behind `class`: a name and the members. -/
theorem behindClass : R n (L.built L.stmt) (behindClass (strictBlock statement))
    (behindClass (strictBlock statement)) := by
  refine S.bind (S.identifier) fun _ _ hname => ?_
  refine S.bind (S.weaken (S.members hb)) fun _ _ hmembers => ?_
  exact S.pure fun _ _ hs => L.classDef hname hmembers hs

/-- The definition of a class, its keyword included. -/
theorem classDefinition : R n (L.built L.stmt) (classDefinition (strictBlock statement))
    (classDefinition (strictBlock statement)) := by
  refine S.labelled ?_
  exact S.bind (S.keyword (by decide)) fun _ _ _ => S.behindClass hb

/-- Whatever the form of a statement, its parser is related to itself. -/
theorem form (form : Form) : R n (L.built L.stmt) (form.parser (strictBlock statement))
    (form.parser (strictBlock statement)) := by
  cases form with
  | var => exact S.varDeclaration S.keyword_mem
  | const => exact S.constDeclaration S.keyword_mem
  | func => exact S.functionDefinition hb
  | «class» => exact S.classDefinition hb
  | loop => exact S.bind (S.keyword (by decide)) fun _ _ _ => S.behindLoop hb
  | «while» => exact S.bind (S.keyword (by decide)) fun _ _ _ => S.behindWhile hb
  | crud => exact S.crudStatement S.keyword_mem
  | «return» => exact S.returnStatement S.keyword_mem
  | block => exact S.blockStatement hb
  | expr => exact S.expressionStatement

/-- A statement that is not a conditional is read by one of the parsers for forms. -/
theorem unconditional : R n L.stmt (unconditional (strictBlock statement))
    (unconditional (strictBlock statement)) := by
  refine S.withSpan (S.choice fun q hq => ?_)
  obtain ⟨form, rfl⟩ := Form.exists_of_mem hq
  exact S.form hb form

/-- A statement without the semicolon that may end it. -/
theorem bareStatement : R n L.stmt (bareStatement (strictBlock statement))
    (bareStatement (strictBlock statement)) :=
  S.orElse (S.conditional hb) (S.unconditional hb)

end BraceSimulation

/-- A simulation that preserves pairs of braces, and the recovery inside statements. -/
structure BlockSimulation (L : Likeness) (Refused : TokenKind → Prop)
    (R : Nat → ∀ {α : Type}, (α → α → Prop) → Parser α → Parser α → Prop) : Prop
    extends BraceSimulation L Refused R where
  statementError {n : Nat} {p q : Parser Stmt} : R n L.stmt p q →
    R n L.stmt (recoverWith p statementError) (recoverWith q statementError)

namespace BlockSimulation

variable {L : Likeness} {Refused : TokenKind → Prop}
variable {R : Nat → ∀ {α : Type}, (α → α → Prop) → Parser α → Parser α → Prop}
variable (S : BlockSimulation L Refused R) {n : Nat}
include S

/-- Statements between braces, if a statement inside them is related to itself. -/
theorem bracedStatements (h : R n L.stmt statement statement) :
    R (n + 1) (List.Forall₂ L.stmt) (between .leftBrace .rightBrace (many statement))
      (between .leftBrace .rightBrace (many statement)) :=
  S.braces (S.many consumes_statement h)

/-- A block, if a statement inside it is related to itself. -/
theorem strictBlock (h : R n L.stmt statement statement) :
    BraceSimulation.RelatesBlocks L R (n + 1) := by
  refine S.labelled (S.withSpan ?_)
  refine S.bind (S.bracedStatements h) fun _ _ hstmts => ?_
  exact S.pure fun _ _ hs => ⟨hstmts, hs⟩

/-- One round of the statement parser, recovery included, if blocks inside are related. -/
theorem statementStep (hb : BraceSimulation.RelatesBlocks L R n) :
    R n L.stmt (statementStep (Grammar.strictBlock statement))
      (statementStep (Grammar.strictBlock statement)) := by
  refine S.statementError ?_
  refine S.labelled ?_
  refine S.bind (S.bareStatement hb) fun _ _ hstmt => ?_
  refine S.bind S.semicolon fun _ _ _ => ?_
  exact S.pure hstmt

/-- Statements are related to themselves. -/
theorem statement (n : Nat) : R n L.stmt statement statement := by
  induction n with
  | zero => exact S.zero
  | succ n ih =>
    rw [statement_eq]
    exact S.statementStep (S.strictBlock ih)

end BlockSimulation

/-- If no brace is refused, a pair of braces is two tokens. -/
theorem ExpressionSimulation.braceSimulation {L : Likeness} {Refused : TokenKind → Prop}
    {R : Nat → ∀ {α : Type}, (α → α → Prop) → Parser α → Parser α → Prop}
    (S : ExpressionSimulation L Refused R) (hRefused : ∀ k, Refused k → k ∈ spelledTwice) :
    BraceSimulation L Refused R where
  toExpressionSimulation := S
  brace_or_operator hk := List.mem_cons_of_mem _ (List.mem_cons_of_mem _ (hRefused _ hk))
  braces h := S.token_bind (fun hk => absurd (hRefused _ hk) (by decide)) <| S.bind h fun _ _ hab =>
    S.bind (S.token fun hk => absurd (hRefused _ hk) (by decide)) fun _ _ _ => S.pure hab

/-- A simulation that refuses at most operators with two spellings, that skips these operators
nevertheless, and that preserves the recovery from failures. -/
structure Recovery (L : Likeness) (Refused : TokenKind → Prop)
    (R : Nat → ∀ {α : Type}, (α → α → Prop) → Parser α → Parser α → Prop) : Prop
    extends ExpressionSimulation L Refused R where
  operator {k : TokenKind} : Refused k → k ∈ spelledTwice
  skip {n : Nat} {read? : TokenKind → Option Unit} {e : Expectation} :
    (∀ k ∈ spelledTwice, read? k = some ()) →
      R n (fun _ _ => True) (Parser.satisfy read? e) (Parser.satisfy read? e)
  recoverWith {n : Nat} {α : Type} {V : α → α → Prop} {p q r r' : Parser α} : R n V p q →
    R n V r r' → R n V (recoverWith p r) (recoverWith q r')

namespace Recovery

variable {L : Likeness} {Refused : TokenKind → Prop}
variable {R : Nat → ∀ {α : Type}, (α → α → Prop) → Parser α → Parser α → Prop}
variable (S : Recovery L Refused R) {n : Nat}
include S

/-- A token that is spelled once is related to itself. -/
theorem token {kind : TokenKind} (h : kind ∉ spelledTwice) :
    R n (fun _ _ => True) (token kind) (token kind) :=
  S.toSimulation.token fun hk => h (S.operator hk)

/-- One token other than some, where those that are spelled twice are not among them. -/
theorem noneOf {kinds : List TokenKind} (h : ∀ k ∈ spelledTwice, k ∉ kinds) :
    R n (fun _ _ => True) (noneOf kinds) (noneOf kinds) :=
  S.skip fun k hk => if_neg (h k hk)

/-- Such a simulation refuses no brace, so it preserves pairs of braces. -/
theorem braceSimulation : BraceSimulation L Refused R :=
  S.toExpressionSimulation.braceSimulation fun _ => S.operator

section Skipping

/-- A group between braces that is skipped, by induction on how many tokens are left. -/
theorem braceGroup (n : Nat) : R n (fun _ _ => True) braceGroup braceGroup := by
  induction n with
  | zero => exact S.zero
  | succ n ih =>
    have hitems := S.many skips_groupItem.consumes (S.orElse ih (S.noneOf (by decide)))
    rw [braceGroup_eq]
    refine S.bind (S.braceSimulation.braces hitems) fun _ _ _ => ?_
    exact S.pure trivial

/-- A group that is skipped, with the braces that close it or up to the end of the input. -/
theorem skipGroup : R n (fun _ _ => True) skipGroup skipGroup := by
  refine S.orElse (S.braceGroup n) ?_
  refine S.bind (S.token (by decide)) fun _ _ _ => ?_
  have hany : R n (fun _ _ => True) anyToken anyToken := S.skip fun _ _ => rfl
  refine S.bind (S.many .satisfy hany) fun _ _ _ => ?_
  exact S.pure trivial

/-- A statement that cannot be read is skipped alike and stands at spans that are related. -/
theorem statementError : R n L.stmt statementError statementError := by
  have hfurther := S.many (n := n) skips_furtherUnit.consumes
    (S.orElse S.skipGroup (S.noneOf (by decide)))
  refine S.withSpan ?_
  refine S.bind (S.orElse S.skipGroup (S.noneOf (by decide))) fun _ _ _ => ?_
  refine S.bind hfurther fun _ _ _ => ?_
  refine S.bind S.braceSimulation.semicolon fun _ _ _ => ?_
  exact S.pure fun _ _ hs => L.error hs

/-- A closing brace without an opening one is skipped alike. -/
theorem strayBrace : R n L.stmt strayBrace strayBrace := by
  refine S.withSpan ?_
  refine S.bind (S.token (by decide)) fun _ _ _ => ?_
  exact S.pure fun _ _ hs => L.error hs

end Skipping

/-- Such a simulation preserves the recovery inside statements. -/
theorem blockSimulation : BlockSimulation L Refused R where
  toBraceSimulation := S.braceSimulation
  statementError h := S.recoverWith h S.statementError

/-- The statements of a program are related to themselves. -/
theorem statements (n : Nat) : R n (List.Forall₂ L.stmt) (statements statement)
    (statements statement) :=
  S.many consumes_recoverWith_strayBrace
    (S.recoverWith (S.blockSimulation.statement n) S.strayBrace)

end Recovery

end CrudLang.Grammar
