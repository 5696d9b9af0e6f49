import CrudLang.Proofs.Grammar.Recovery
import CrudLang.Proofs.Grammar.StatementReading
import CrudLang.Proofs.Messages.Candour

/-!
# The grammar tells what went wrong

Every rule of the grammar keeps the state frank and fails with something telling. Literals and the
operations on stored data begin with tokens of a class without a name, and each of them stands where
something with a name is noted next: a literal before another alternative, an operation within a
construct.

The one place where any token at all is expected is a brace that is never closed. It is skipped with
all that follows only where it could not be skipped as a group, so the source has an unclosed brace
(`tells_skipGroup`).
-/

namespace CrudLang.Grammar

open CrudLang.Parser

variable {tokens : List Token} {n : Nat}

/-! ## Expressions -/

/-- Identifiers have a name as a construct, which is noted where one is missing. -/
theorem tells_identifier : Tells tokens n False identifier := by
  refine .labelled (.withSpan (?_ : Tells tokens n True _))
  exact Tells.select.bind fun name => .pure _

/-- Literals are tokens of several classes, and have no name of their own. -/
theorem tells_literal : Tells tokens n True literal :=
  Tells.select.withSpan

/-- Operators are keywords and punctuators. -/
theorem isFixed_of_ofKind? {kind : TokenKind} {op : BinaryOp}
    (h : BinaryOp.ofKind? kind = some op) : kind.IsFixed := by
  cases kind with
  | keyword k => exact .keyword k
  | punctuator p => exact .punctuator p
  | _ => cases h

/-- Where an operator is missing, the operators of its level are noted one by one. -/
theorem tells_operator {level : Nat} {operator : Parser BinaryOp}
    (h : ChoosesOperators level operator) : Tells tokens n False operator := by
  obtain ⟨first, others, rfl, htokens⟩ := h
  refine .choice fun q hq => ?_
  rw [htokens] at hq
  obtain ⟨⟨kind, op⟩, hop, rfl⟩ := List.mem_map.1 hq
  have hfixed : kind.IsFixed := isFixed_of_ofKind? (BinaryOp.isToken_iff.2 hop).1
  exact .bind (.token hfixed) fun _ => .pure op

/-- Where a prefix operator is missing, each of them is noted. -/
theorem tells_unaryOperator : Tells tokens n False unaryOperator := by
  have hsign {kind : TokenKind} (op : UnaryOp) (hkind : kind.IsFixed) :
      Tells tokens n False (do token kind; pure fun span : Span => (op, span)) :=
    .bind (.token hkind) fun _ => .pure _
  refine .withSpan (.choice fun q hq => ?_)
  simp only [List.mem_cons, List.not_mem_nil, or_false] at hq
  rcases hq with rfl | rfl | rfl
  · exact hsign .neg (.punctuator _)
  · exact hsign .not (.punctuator _)
  · exact hsign .not (.keyword _)

/-- An operator is one token. -/
theorem consumes_operator {level : Nat} {operator : Parser BinaryOp}
    (h : ChoosesOperators level operator) : Consumes operator := by
  refine .of_spells h.spells fun _ _ _ hnone => ?_
  obtain ⟨⟨kind, hkind, -⟩, -⟩ := hnone
  cases hkind

/-- A row of operands with operators between them. -/
theorem tells_row {level : Nat} {operator : Parser BinaryOp} {operand : Parser Expr}
    (hop : ChoosesOperators level operator) (hforward : Forward operand)
    (h : Tells tokens n False operand) :
    Forward (chainLeft operand operator joinOperands) ∧
      Tells tokens n False (chainLeft operand operator joinOperands) := by
  have hround : Tells tokens n False (do
      let op ← operator
      let right ← operand
      pure (op, right)) := by
    refine (tells_operator hop).bind fun op => ?_
    exact h.bind fun right => .pure (op, right)
  have hconsumes : Consumes (do
      let op ← operator
      let right ← operand
      pure (op, right)) := by
    refine (consumes_operator hop).bind fun op => ?_
    exact hforward.bind fun right => .pure (op, right)
  -- the row is an operand and then rounds of an operator with an operand
  constructor
  · refine hforward.bind fun first => ?_
    exact (Forward.many hconsumes).bind fun others => .pure _
  · refine h.bind fun first => ?_
    exact (hround.many hconsumes).bind fun others => .pure _

section Operands

variable (h : Tells tokens n False expression)
include h

/-- Where arguments are missing, their opening parenthesis or their name is noted. -/
theorem tells_arguments : Tells tokens (n + 1) False (arguments expression) :=
  .labelled (.between (.items (.of_spells spells_expression) h))

/-- An instantiation begins with `new`. -/
theorem tells_instantiation : Tells tokens (n + 1) False (instantiation expression) := by
  have hargs : Tells tokens n False (optional (arguments expression)) :=
    ((tells_arguments h).mono (Nat.le_succ n)).optional
  refine .withSpan (.token_bind (.keyword .new) ?_)
  refine tells_identifier.bind fun className => ?_
  refine hargs.bind fun args => ?_
  exact .pure _

/-- A call begins with an identifier. -/
theorem tells_call : Tells tokens (n + 1) False (call expression) := by
  refine .withSpan ?_
  refine tells_identifier.bind fun callee => ?_
  refine (tells_arguments h).bind fun args => ?_
  exact .pure _

/-- A literal comes first, so it may be mute: an instance of a class is expected next. -/
theorem tells_atom : Tells tokens (n + 1) False (atom expression) := by
  refine tells_literal.orElse (.choice fun q hq => ?_)
  simp only [List.mem_cons, List.not_mem_nil, or_false] at hq
  rcases hq with rfl | rfl | rfl | rfl
  · exact tells_instantiation h
  · exact tells_call h
  · exact tells_identifier.map
  · exact .between h

/-- Prefix operators may be missing, so the expression behind them begins here too. -/
theorem tells_unary : Tells tokens (n + 1) False (unary expression) := by
  have hconsumes : Consumes unaryOperator := .of_spells spells_unaryOperator fun _ _ _ hnone => by
    obtain ⟨⟨kind, hkind, -⟩, -⟩ := hnone
  refine (tells_unaryOperator.many hconsumes).bind fun operators => ?_
  refine (tells_atom h).bind fun operand => ?_
  exact .pure _

/-- The levels of operators, one on top of the other. -/
theorem tells_disjunction : Tells tokens (n + 1) False (disjunction expression) := by
  have hunary : Forward (unary expression) := .of_spells (spells_unary spells_expression)
  obtain ⟨hproduct, htells⟩ := tells_row choosesOperators_product hunary (tells_unary h)
  obtain ⟨hsum, htells⟩ := tells_row choosesOperators_sum hproduct htells
  obtain ⟨hcomparison, htells⟩ := tells_row choosesOperators_comparison hsum htells
  obtain ⟨hequality, htells⟩ := tells_row choosesOperators_equality hcomparison htells
  obtain ⟨hconjunction, htells⟩ := tells_row choosesOperators_and hequality htells
  exact (tells_row choosesOperators_or hconjunction htells).2

/-- An assignment begins with an identifier. -/
theorem tells_assignment : Tells tokens (n + 1) False (assignment expression) := by
  refine .withSpan ?_
  refine tells_identifier.bind fun target => ?_
  refine .token_bind (.punctuator .assign) ?_
  refine h.bind fun value => ?_
  exact .pure _

end Operands

/-- Expressions fail with something telling, however many tokens are left. -/
theorem tells_expression (n : Nat) : Tells tokens n False expression := by
  induction n with
  | zero => exact .zero
  | succ n ih =>
    rw [expression_eq]
    exact .labelled ((tells_assignment ih).orElse (tells_disjunction ih))

/-! ## Recovery -/

/-- Where a group is missing, its opening brace is noted. -/
theorem tells_braceGroup (n : Nat) : Tells tokens n False braceGroup := by
  induction n with
  | zero => exact .zero
  | succ n ih =>
    rw [braceGroup_eq]
    have hitems := ih.orElse_select.many skips_groupItem.consumes
    exact (Tells.between hitems).bind fun _ => .pure ()

/-- If the source has an unclosed brace, the end of the input may have been expected not to come. -/
theorem tells_openGroup (hunclosed : HasUnclosedBrace tokens) : Tells tokens n False openGroup := by
  have hany : Tells tokens n True anyToken := by
    refine .satisfy (fun a ha => ⟨?_, hunclosed⟩) (.inl trivial)
    cases htokens : a.tokens with
    | nil => rfl
    | cons t ts => cases ha t ts htokens
  refine .bind (.token (.punctuator _)) fun _ => ?_
  refine (hany.many .satisfy).bind fun _ => ?_
  exact .pure ()

/-- If the source has no unclosed brace, an unclosed group can only fail at its brace. -/
theorem tells_skipGroup (n : Nat) : Tells tokens n False skipGroup := by
  by_cases hunclosed : HasUnclosedBrace tokens
  · exact (tells_braceGroup n).orElse (tells_openGroup hunclosed)
  have hbrace : Tells tokens n False (orElse braceGroup (punctuator .leftBrace)) :=
    (tells_braceGroup n).orElse (.token (.punctuator _))
  refine hbrace.congr fun s hs => ?_
  show orElse braceGroup openGroup s = _
  unfold orElse
  cases hgroup : braceGroup s with
  | ok v t => rfl
  | fail f =>
    -- a group that fails is not closed, so there is no brace
    have hne (l : Token) (ts : List Token) (htokens : s.rest.tokens = l :: ts) :
        l.kind ≠ .punctuator .leftBrace := by
      intro hl
      refine hunclosed ⟨l, ts, htokens ▸ hs.suffix, hl, Option.eq_none_iff_forall_ne_some.2 ?_⟩
      intro after hafter
      obtain ⟨t, ht⟩ := exists_braceGroup_eq_ok htokens hl hafter
      cases ht.symm.trans hgroup
    dsimp only
    rw [openGroup, punctuator, token_bind_eq_fail (s := { s with pending := some f }) hne]
    rcases token_cases (.punctuator .leftBrace) { s with pending := some f } with
      heq | ⟨l, ts, htokens, hl, -⟩
    · exact heq.symm
    · exact absurd hl (hne l ts htokens)

/-- Skipping a statement fails with something telling. -/
theorem tells_statementError (n : Nat) : Tells tokens n False statementError := by
  have hunit (kinds : List TokenKind) : Tells tokens n False (orElse skipGroup (noneOf kinds)) :=
    (tells_skipGroup n).orElse_select
  have hfirst : Tells tokens n False firstUnit := hunit _
  have hfurther : Tells tokens n False furtherUnit := hunit _
  have hsemicolon : Tells tokens n False (punctuator .semicolon) := .token (.punctuator _)
  refine .withSpan ?_
  refine hfirst.bind fun _ => ?_
  refine (hfurther.many skips_furtherUnit.consumes).bind fun _ => ?_
  refine hsemicolon.optional.bind fun _ => ?_
  exact .pure _

/-- Skipping a brace that closes nothing fails where there is no closing brace. -/
theorem tells_strayBrace : Tells tokens n False strayBrace := by
  refine .withSpan ?_
  exact .bind (.token (.punctuator _)) fun _ => .pure _

/-! ## Statements -/

/-- The semicolon behind a statement may be missing, and is noted then. -/
theorem tells_semicolon : Tells tokens n False (optional (punctuator .semicolon)) :=
  .optional (.token (.punctuator _))

/-- Arguments that are missing are noted. -/
theorem tells_optionalArguments : Tells tokens n False (optional (arguments expression)) :=
  ((tells_arguments (tells_expression n)).mono (Nat.le_succ n)).optional

/-- Where parameters are missing, their opening parenthesis or their name is noted. -/
theorem tells_parameters : Tells tokens n False parameters := by
  have hitems : Tells tokens n False (separated identifier (punctuator .comma)) :=
    .items (.of_spells spells_identifier) tells_identifier
  exact (Tells.between hitems).labelled.mono (Nat.le_succ n)

/-- A variable begins with its keyword. -/
theorem tells_varDeclaration : Tells tokens n False varDeclaration := by
  have hvalue : Tells tokens n False (do punctuator .assign; expression) :=
    .bind (.token (.punctuator _)) fun _ => tells_expression n
  refine .bind (.token (.keyword _)) fun _ => ?_
  refine tells_identifier.bind fun name => ?_
  refine hvalue.optional.bind fun init => ?_
  exact .pure _

/-- A constant begins with its keyword. -/
theorem tells_constDeclaration : Tells tokens n False constDeclaration := by
  refine .bind (.token (.keyword _)) fun _ => ?_
  refine tells_identifier.bind fun name => ?_
  refine .bind (.token (.punctuator _)) fun _ => ?_
  refine (tells_expression n).bind fun value => ?_
  exact .pure _

/-- The keyword of an operation has no name of its own, but the operation has one. -/
theorem tells_crudStatement : Tells tokens n False crudStatement := by
  have hop : Tells tokens n True crudOperator := .select
  refine .labelled (?_ : Tells tokens n True _)
  refine hop.bind fun op => ?_
  refine tells_identifier.bind fun target => ?_
  refine tells_optionalArguments.bind fun args => ?_
  exact .pure _

section Blocks

variable {b : Parser (Block Stmt)} (hb : Tells tokens n False b)
include hb

/-- A function begins with its keyword. -/
theorem tells_functionDefinition : Tells tokens n False (functionDefinition b) := by
  refine .labelled (?_ : Tells tokens n False _)
  refine .bind (.token (.keyword _)) fun _ => ?_
  refine tells_identifier.bind fun name => ?_
  refine tells_parameters.bind fun params => ?_
  refine hb.bind fun body => ?_
  exact .pure _

/-- A member of a class begins with the keyword of one of three declarations. -/
theorem tells_member : Tells tokens n False (member b) := by
  have hdeclaration : Tells tokens n False
      (choice varDeclaration [constDeclaration, functionDefinition b]) := by
    refine .choice fun q hq => ?_
    simp only [List.mem_cons, List.not_mem_nil, or_false] at hq
    rcases hq with rfl | rfl | rfl
    · exact tells_varDeclaration
    · exact tells_constDeclaration
    · exact tells_functionDefinition hb
  refine .labelled (?_ : Tells tokens n False _)
  refine hdeclaration.withSpan.bind fun stmt => ?_
  refine tells_semicolon.bind fun _ => ?_
  exact .pure stmt

/-- A class begins with its keyword. -/
theorem tells_classDefinition (hconsumes : Consumes (member b)) :
    Tells tokens n False (classDefinition b) := by
  have hmembers : Tells tokens n False (between .leftBrace .rightBrace (many (member b))) :=
    (Tells.between ((tells_member hb).many hconsumes)).mono (Nat.le_succ n)
  refine .labelled (?_ : Tells tokens n False _)
  refine .bind (.token (.keyword _)) fun _ => ?_
  refine tells_identifier.bind fun name => ?_
  refine hmembers.bind fun members => ?_
  exact .pure _

/-- Every form of statement fails with something telling if blocks do. -/
theorem tells_form (hconsumes : Consumes (member b)) (form : Form) :
    Tells tokens n False (form.parser b) := by
  cases form with
  | var => exact tells_varDeclaration
  | const => exact tells_constDeclaration
  | func => exact tells_functionDefinition hb
  | «class» => exact tells_classDefinition hb hconsumes
  | loop =>
    refine .bind (.token (.keyword _)) fun _ => ?_
    exact hb.bind fun body => .pure _
  | «while» =>
    refine .bind (.token (.keyword _)) fun _ => ?_
    refine (tells_expression n).bind fun condition => ?_
    exact hb.bind fun body => .pure _
  | crud => exact tells_crudStatement
  | «return» =>
    refine .bind (.token (.keyword _)) fun _ => ?_
    exact (tells_expression n).optional.bind fun value => .pure _
  | block => exact hb.bind fun body => .pure _
  | expr => exact (tells_expression n).bind fun value => .pure _

end Blocks

/-- What follows `else` has less input than the conditional that it belongs to. -/
theorem tells_conditional {b : Parser (Block Stmt)} (hagree : ∀ m, AgreeBelow m b b)
    (hb : Tells tokens n False b) : Tells tokens n False (conditional b) := by
  induction n with
  | zero => exact .zero
  | succ n ih =>
    have hb' := hb.mono (Nat.le_succ n)
    have halternative : Tells tokens n False (choice (conditional b) [Stmt.block <$> b]) :=
      (ih hb').orElse hb'.map
    have helse : Tells tokens n False (do
        keyword .else
        choice (conditional b) [Stmt.block <$> b]) :=
      .bind (.token (.keyword _)) fun _ => halternative
    rw [conditional_eq hagree]
    refine .withSpan (.token_bind (.keyword .if) ?_)
    refine (tells_expression n).bind fun condition => ?_
    refine hb'.bind fun body => ?_
    refine helse.optional.bind fun alternative => ?_
    exact .pure _

/-- A statement of any form, without what may be behind it. -/
theorem tells_bareStatement {b : Parser (Block Stmt)} (hagree : ∀ m, AgreeBelow m b b)
    (hconsumes : Consumes (member b)) (hb : Tells tokens n False b) :
    Tells tokens n False (bareStatement b) := by
  refine (tells_conditional hagree hb).orElse (.withSpan (.choice fun q hq => ?_))
  obtain ⟨form, rfl⟩ := Form.exists_of_mem hq
  exact tells_form hb hconsumes form

/-- Inside a block, at least its opening brace is behind us. -/
theorem tells_strictBlock {p : Parser Stmt} (hconsumes : Consumes p) (h : Tells tokens n False p) :
    Tells tokens (n + 1) False (strictBlock p) := by
  refine .labelled (.withSpan (?_ : Tells tokens (n + 1) False _))
  refine (Tells.between (h.many hconsumes)).bind fun stmts => ?_
  exact .pure _

/-- Statements in a block have less input than the block. -/
theorem tells_statement (n : Nat) : Tells tokens n False statement := by
  have hagree (m : Nat) : AgreeBelow m (strictBlock statement) (strictBlock statement) :=
    .of_spells (spells_strictBlock spells_statement)
  induction n with
  | zero => exact .zero
  | succ n ih =>
    have hblock := tells_strictBlock consumes_statement ih
    have hbare := tells_bareStatement hagree consumes_member_strictBlock hblock
    rw [statement_eq]
    refine .recoverWith (.labelled (?_ : Tells tokens (n + 1) False _))
      (tells_statementError (n + 1))
    refine hbare.bind fun stmt => ?_
    refine tells_semicolon.bind fun _ => ?_
    exact .pure stmt

/-- The statements of a program keep the state frank. -/
theorem tells_statements (n : Nat) : Tells tokens n False (statements statement) :=
  ((tells_statement n).recoverWith tells_strayBrace).many consumes_recoverWith_strayBrace

end CrudLang.Grammar
