import CrudLang.Proofs.Grammar.Recovery
import CrudLang.Proofs.Parser.Draws
import CrudLang.Scope.Event

/-!
# Names and the tokens they come from

A program that is read from tokens declares and uses no names but those of its tokens: each event of
the program is about an identifier that has the name and the place of one of them
(`Parsing.about_events`). This holds of what is recovered too, since a statement that cannot be read
leads to no event.
-/

namespace CrudLang

/-- The identifier has the name and the place of one of the tokens. -/
def Ident.OneOf (tokens : List Token) (ident : Ident) : Prop :=
  ∃ token ∈ tokens, token.kind = .identifier ident.name ∧ token.span = ident.span

/-- The identifier that an event is about, if it is about one. -/
def Event.ident? : Event → Option Ident
  | .enter _ | .leave => none
  | .declare ident _ | .use ident _ => some ident

/-- Events that are about identifiers among the tokens alone. -/
def Event.About (tokens : List Token) (events : List Event) : Prop :=
  ∀ event ∈ events, ∀ ident ∈ event.ident?, ident.OneOf tokens

namespace Event

variable {tokens : List Token} {event : Event} {events later : List Event}

@[simp] theorem about_nil : About tokens [] := List.forall_mem_nil _

@[simp] theorem about_cons : About tokens (event :: events) ↔
    (∀ ident ∈ event.ident?, ident.OneOf tokens) ∧ About tokens events :=
  List.forall_mem_cons

@[simp] theorem about_append :
    About tokens (events ++ later) ↔ About tokens events ∧ About tokens later :=
  List.forall_mem_append

/-- Opening and closing a scope is about nothing. -/
@[simp] theorem about_inScope {kind : ScopeKind} :
    About tokens (inScope kind events) ↔ About tokens events := by
  simp [inScope, ident?]

end Event

open Event (About)

section Events

variable {tokens : List Token}

/-- The events of expressions are those of each of them. -/
theorem Expr.about_eventsOfAll {exprs : List Expr} :
    About tokens (eventsOfAll exprs) ↔ ∀ e ∈ exprs, About tokens e.events := by
  induction exprs with
  | nil => simp [eventsOfAll]
  | cons e exprs ih => rw [eventsOfAll, Event.about_append, ih, List.forall_mem_cons]

/-- An expression that is missing has no events. -/
theorem Expr.about_eventsOf? {expr : Option Expr} :
    About tokens (eventsOf? expr) ↔ ∀ e ∈ expr, About tokens e.events := by
  cases expr <;> simp [eventsOf?]

/-- The events of statements are those of each of them. -/
theorem Stmt.about_eventsOfAll {stmts : List Stmt} :
    About tokens (eventsOfAll stmts) ↔ ∀ stmt ∈ stmts, About tokens stmt.events := by
  induction stmts with
  | nil => simp [eventsOfAll]
  | cons stmt stmts ih => rw [eventsOfAll, Event.about_append, ih, List.forall_mem_cons]

/-- What follows `else` is about no more than it is about as a statement. -/
theorem Stmt.about_eventsOfAlternative {alternative : Option Stmt}
    (h : ∀ stmt ∈ alternative, About tokens stmt.events) :
    About tokens (eventsOfAlternative alternative) := by
  cases alternative with
  | none => simp [eventsOfAlternative]
  | some stmt =>
    have hstmt := h stmt rfl
    cases stmt with
    | block body => simpa [eventsOfAlternative, events] using hstmt
    | _ => simpa only [eventsOfAlternative] using hstmt

end Events

namespace Grammar

open CrudLang.Parser

variable {tokens : List Token}

/-- An identifier is read from one token. -/
theorem ensures_identifier : Ensures identifier fun ident read _ _ =>
    ∃ token : Token, read = [token] ∧ token.kind = .identifier ident.name ∧
      token.span = ident.span := by
  refine .labelled (.withSpan ?_)
  refine .bind .satisfy fun name first _ => ?_
  refine .pure fun _ h => ?_
  obtain ⟨token, rfl, hname, -⟩ := h
  refine ⟨token, rfl, ?_, rfl⟩
  split at hname
  next hkind => exact hkind.trans (congrArg _ (Option.some.inj hname))
  next => cases hname

/-- An identifier has the name and the place of the token that it is read from. -/
theorem draws_identifier : Draws tokens identifier (Ident.OneOf tokens) := by
  refine .of_ensures ensures_identifier fun ident read _ _ hread h => ?_
  obtain ⟨token, rfl, hkind, hspan⟩ := h
  exact ⟨token, hread List.mem_cons_self, hkind, hspan⟩

section Expressions

variable {p : Parser Expr} (hp : Draws tokens p fun e => About tokens e.events)
include hp

/-- Arguments are about what expressions are about. -/
theorem draws_arguments :
    Draws tokens (arguments p) fun args => About tokens (Expr.eventsOfAll args) := by
  have hitems := Draws.items hp
  exact (hitems.mono fun args hargs => Expr.about_eventsOfAll.2 hargs).labelled

/-- Arguments that are missing are about nothing. -/
theorem draws_optionalArguments : Draws tokens (optional (arguments p)) fun args =>
    About tokens (Expr.eventsOfAll (args.getD [])) := by
  refine (Draws.optional (draws_arguments hp)).mono fun args hargs => ?_
  cases args with
  | none => exact Event.about_nil
  | some args => exact hargs args rfl

omit hp in
/-- A literal is about nothing. -/
theorem draws_literal : Draws tokens literal fun e => About tokens e.events := by
  refine .withSpan (.of_ensures .satisfy fun build read _ _ _ h span => ?_)
  obtain ⟨token, -, hbuild, -⟩ := h
  split at hbuild <;> cases hbuild <;> exact Event.about_nil

/-- An instantiation is about its class and what its arguments are about. -/
theorem draws_instantiation : Draws tokens (instantiation p) fun e => About tokens e.events := by
  refine .withSpan ?_
  refine .bind (.token _) fun _ _ => ?_
  refine .bind draws_identifier fun className hclass => ?_
  refine .bind (draws_optionalArguments hp) fun args hargs => ?_
  refine .pure fun span => ?_
  simpa [Expr.events, Event.ident?] using ⟨hclass, hargs⟩

/-- A call is about what is called and what its arguments are about. -/
theorem draws_call : Draws tokens (call p) fun e => About tokens e.events := by
  refine .withSpan ?_
  refine .bind draws_identifier fun callee hcallee => ?_
  refine .bind (draws_arguments hp) fun args hargs => ?_
  refine .pure fun span => ?_
  simpa [Expr.events, Event.ident?] using ⟨hcallee, hargs⟩

/-- An expression without operators is about identifiers among the tokens. -/
theorem draws_atom : Draws tokens (atom p) fun e => About tokens e.events := by
  refine .choice fun q hq => ?_
  simp only [List.mem_cons, List.not_mem_nil, or_false] at hq
  rcases hq with rfl | rfl | rfl | rfl | rfl
  · exact draws_literal
  · exact draws_instantiation hp
  · exact draws_call hp
  · refine .map (draws_identifier.mono fun ident hident => ?_)
    simpa [Expr.events, Event.ident?] using hident
  · exact .between hp

/-- Prefix operators are about nothing, so an expression behind them is about what it is about
without them. -/
theorem draws_unary : Draws tokens (unary p) fun e => About tokens e.events := by
  have hoperators : Draws tokens (many unaryOperator) fun _ => True :=
    .of_ensures (Spells.many_silently (P := fun _ _ => True) (Q := fun _ _ => True)
      (spells_unaryOperator.mono fun _ _ _ _ h => ⟨trivial, h.2⟩) trivial
      fun _ _ _ _ _ _ => trivial) fun _ _ _ _ _ _ => trivial
  refine .bind hoperators fun ops _ => ?_
  refine .bind (draws_atom hp) fun operand hoperand => ?_
  refine .pure ?_
  induction ops with
  | nil => exact hoperand
  | cons op ops ih => simpa [Expr.events] using ih

/-- Operands that are joined by the operators of one level are about what each of them is about. -/
theorem draws_row {level : Nat} {operator : Parser BinaryOp}
    (hop : ChoosesOperators level operator) :
    Draws tokens (chainLeft p operator joinOperands) fun e => About tokens e.events := by
  have hoperator : Draws tokens operator fun _ => True :=
    .of_ensures hop.spells fun _ _ _ _ _ _ => trivial
  refine .chainLeft hp hoperator fun left op right hleft hright => ?_
  simpa [joinOperands, Expr.events] using ⟨hleft, hright⟩

/-- The levels of operators, one on top of the other. -/
theorem draws_disjunction : Draws tokens (disjunction p) fun e => About tokens e.events :=
  have hproduct := draws_row (draws_unary hp) choosesOperators_product
  have hsum := draws_row hproduct choosesOperators_sum
  have hcomparison := draws_row hsum choosesOperators_comparison
  have hequality := draws_row hcomparison choosesOperators_equality
  have hconjunction := draws_row hequality choosesOperators_and
  draws_row hconjunction choosesOperators_or

/-- An assignment is about its target and what its value is about. -/
theorem draws_assignment : Draws tokens (assignment p) fun e => About tokens e.events := by
  refine .withSpan ?_
  refine .bind draws_identifier fun target htarget => ?_
  refine .bind (.token _) fun _ _ => ?_
  refine .bind hp fun value hvalue => ?_
  refine .pure fun span => ?_
  simpa [Expr.events, Event.ident?] using ⟨htarget, hvalue⟩

end Expressions

/-- An expression is about identifiers among the tokens. -/
theorem draws_expression : Draws tokens expression fun e => About tokens e.events := by
  refine .fix fun p hp => ?_
  exact (Draws.orElse (draws_assignment hp) (draws_disjunction hp)).labelled

section Statements

/-- A variable is about its name and what its value is about. -/
theorem draws_varDeclaration :
    Draws tokens varDeclaration fun build => ∀ span, About tokens (build span).events := by
  have hassigned : Draws tokens (do punctuator .assign; expression) fun e =>
      About tokens e.events := .bind (.token _) fun _ _ => draws_expression
  refine .bind (.token _) fun _ _ => ?_
  refine .bind draws_identifier fun name hname => ?_
  refine .bind hassigned.optional fun init hinit => ?_
  refine .pure fun span => ?_
  simpa [Stmt.events, Event.ident?] using ⟨Expr.about_eventsOf?.2 hinit, hname⟩

/-- A constant is about its name and what its value is about. -/
theorem draws_constDeclaration :
    Draws tokens constDeclaration fun build => ∀ span, About tokens (build span).events := by
  refine .bind (.token _) fun _ _ => ?_
  refine .bind draws_identifier fun name hname => ?_
  refine .bind (.token _) fun _ _ => ?_
  refine .bind draws_expression fun value hvalue => ?_
  refine .pure fun span => ?_
  simpa [Stmt.events, Event.ident?] using ⟨hvalue, hname⟩

/-- An operation on stored data is about its target and what its arguments are about. -/
theorem draws_crudStatement :
    Draws tokens crudStatement fun build => ∀ span, About tokens (build span).events := by
  have hop : Draws tokens crudOperator fun _ => True :=
    .of_ensures spells_crudOperator fun _ _ _ _ _ _ => trivial
  refine .labelled ?_
  refine .bind hop fun op _ => ?_
  refine .bind draws_identifier fun target htarget => ?_
  refine .bind (draws_optionalArguments draws_expression) fun args hargs => ?_
  refine .pure fun span => ?_
  simpa [Stmt.events, Event.ident?] using ⟨htarget, hargs⟩

/-- `return` is about what its value is about. -/
theorem draws_returnStatement :
    Draws tokens returnStatement fun build => ∀ span, About tokens (build span).events := by
  refine .bind (.token _) fun _ _ => ?_
  refine .bind draws_expression.optional fun value hvalue => ?_
  exact .pure fun span => Expr.about_eventsOf?.2 hvalue

variable {b : Parser (Block Stmt)}
variable (hb : Draws tokens b fun body => About tokens (Block.events body))
include hb

/-- A function is about its name, its parameters and what its body is about. -/
theorem draws_functionDefinition :
    Draws tokens (functionDefinition b) fun build => ∀ span, About tokens (build span).events := by
  refine .labelled ?_
  refine .bind (.token _) fun _ _ => ?_
  refine .bind draws_identifier fun name hname => ?_
  refine .bind (Draws.items draws_identifier).labelled fun params hparams => ?_
  refine .bind hb fun body hbody => ?_
  refine .pure fun span => ?_
  have hparams : About tokens (params.map fun param => .declare param .variable) := by
    simpa [About, Event.ident?] using hparams
  simpa [Stmt.events, Event.ident?] using ⟨hname, hparams, hbody⟩

/-- A member of a class is a variable, a constant or a function. -/
theorem draws_member : Draws tokens (member b) fun stmt => About tokens stmt.events := by
  have hdeclaration : Draws tokens
      (withSpan <| choice varDeclaration [constDeclaration, functionDefinition b])
      fun stmt => About tokens stmt.events := by
    refine .withSpan (.choice fun q hq => ?_)
    simp only [List.mem_cons, List.not_mem_nil, or_false] at hq
    rcases hq with rfl | rfl | rfl
    · exact draws_varDeclaration
    · exact draws_constDeclaration
    · exact draws_functionDefinition hb
  refine .labelled ?_
  refine .bind hdeclaration fun stmt hstmt => ?_
  refine .bind (Draws.token _).optional fun _ _ => ?_
  exact .pure hstmt

/-- A class is about its name and what its members are about. -/
theorem draws_classDefinition :
    Draws tokens (classDefinition b) fun build => ∀ span, About tokens (build span).events := by
  refine .labelled ?_
  refine .bind (.token _) fun _ _ => ?_
  refine .bind draws_identifier fun name hname => ?_
  refine .bind (draws_member hb).many.between fun members hmembers => ?_
  refine .pure fun span => ?_
  simpa [Stmt.events, Event.ident?] using ⟨hname, Stmt.about_eventsOfAll.2 hmembers⟩

/-- A conditional is about what its condition and its branches are about. -/
theorem draws_conditional : Draws tokens (conditional b) fun stmt => About tokens stmt.events := by
  refine .fix fun c hc => ?_
  have hbranch : Draws tokens (choice c [Stmt.block <$> b])
      fun stmt => About tokens stmt.events := by
    refine .choice fun q hq => ?_
    simp only [List.mem_cons, List.not_mem_nil, or_false] at hq
    rcases hq with rfl | rfl
    · exact hc
    · exact .map (hb.mono fun body hbody => by simpa [Stmt.events] using hbody)
  have halternative : Draws tokens (do keyword .else; choice c [Stmt.block <$> b])
      fun stmt => About tokens stmt.events := .bind (.token _) fun _ _ => hbranch
  refine .withSpan ?_
  refine .bind (.token _) fun _ _ => ?_
  refine .bind draws_expression fun condition hcondition => ?_
  refine .bind hb fun body hbody => ?_
  refine .bind halternative.optional fun alternative halternative => ?_
  refine .pure fun span => ?_
  simpa [Stmt.events] using
    ⟨hcondition, hbody, Stmt.about_eventsOfAlternative halternative⟩

/-- Every form of statement is about identifiers among the tokens if blocks are. -/
theorem draws_form (form : Form) :
    Draws tokens (form.parser b) fun build => ∀ span, About tokens (build span).events := by
  cases form with
  | var => exact draws_varDeclaration
  | const => exact draws_constDeclaration
  | func => exact draws_functionDefinition hb
  | «class» => exact draws_classDefinition hb
  | loop =>
    refine .bind (.token _) fun _ _ => ?_
    refine .bind hb fun body hbody => ?_
    refine .pure fun span => ?_
    simpa [Stmt.events] using hbody
  | «while» =>
    refine .bind (.token _) fun _ _ => ?_
    refine .bind draws_expression fun condition hcondition => ?_
    refine .bind hb fun body hbody => ?_
    refine .pure fun span => ?_
    simpa [Stmt.events] using ⟨hcondition, hbody⟩
  | crud => exact draws_crudStatement
  | «return» => exact draws_returnStatement
  | block =>
    refine .bind hb fun body hbody => ?_
    refine .pure fun span => ?_
    simpa [Stmt.events] using hbody
  | expr =>
    refine .bind draws_expression fun value hvalue => ?_
    exact .pure fun span => hvalue

/-- A statement of any form, without what may be behind it. -/
theorem draws_bareStatement :
    Draws tokens (bareStatement b) fun stmt => About tokens stmt.events := by
  refine .orElse (draws_conditional hb) (.withSpan (.choice fun q hq => ?_))
  obtain ⟨form, rfl⟩ := Form.exists_of_mem hq
  exact draws_form hb form

end Statements

/-- A block is about what its statements are about. -/
theorem draws_strictBlock {p : Parser Stmt}
    (hp : Draws tokens p fun stmt => About tokens stmt.events) :
    Draws tokens (strictBlock p) fun body => About tokens (Block.events body) := by
  refine .labelled (.withSpan ?_)
  refine .bind hp.many.between fun stmts hstmts => ?_
  exact .pure fun span => Stmt.about_eventsOfAll.2 hstmts

/-- What is skipped leads to no events. -/
theorem draws_error {p : Parser Stmt} {P : Stmt → List TokenKind → Prop}
    (hp : Spells p (Silently P)) (hP : ∀ stmt ts, P stmt ts → ∃ span, stmt = .error span) :
    Draws tokens p fun stmt => About tokens stmt.events := by
  refine .of_ensures hp fun stmt read _ _ _ h => ?_
  obtain ⟨span, rfl⟩ := hP stmt _ h.1
  exact Event.about_nil

/-- A statement is about identifiers among the tokens, be it read or skipped. -/
theorem draws_statement : Draws tokens statement fun stmt => About tokens stmt.events := by
  rw [← statementBy_strictBlock_eq]
  have hskipped : Draws tokens statementError fun stmt => About tokens stmt.events :=
    draws_error spells_statementError fun _ _ h => h.2
  refine .fix fun p hp => ?_
  refine .recoverWith (.labelled ?_) hskipped
  refine .bind (draws_bareStatement (draws_strictBlock hp)) fun stmt hstmt => ?_
  refine .bind (Draws.token _).optional fun _ _ => ?_
  exact .pure hstmt

/-- The statements of a program are about identifiers among the tokens. -/
theorem draws_statements : Draws tokens (statements statement) fun stmts =>
    ∀ stmt ∈ stmts, About tokens stmt.events := by
  have hstray : Draws tokens strayBrace fun stmt => About tokens stmt.events :=
    draws_error spells_strayBrace fun _ _ h => h.2
  exact (draws_statement.recoverWith hstray).many

end Grammar

namespace Parsing

open Grammar CrudLang.Parser

/-- The events of a program are about identifiers among the tokens that it is read from. -/
theorem about_events {tokens : List Token} {program : Program}
    (h : (ofTokens tokens).program = some program) : About tokens program.events := by
  obtain ⟨stmts, t, ht, -, heq⟩ := exists_ofTokens_eq tokens
  rw [heq] at h
  obtain rfl := Option.some.inj h
  exact Stmt.about_eventsOfAll.2 (draws_statements _ _ _ ht fun _ htoken => htoken).2

end Parsing

end CrudLang
