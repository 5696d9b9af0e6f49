import CrudLang.Proofs.Grammar.Operands
import CrudLang.Proofs.Parser.Ensures
import CrudLang.Syntax.Statement

/-!
# Relations that the grammar preserves

A relation between parsers that every combinator preserves is preserved by every grammar rule. The
rules are walked through here once, for an arbitrary such relation; a property of the whole
grammar is then an instance of `Congruence`, `Guarded` or `BlockGuarded`.

* `Congruence R`: the combinators preserve `R`.
* `Guarded L R`: moreover, a parser behind a token need only be related by the weaker `L`. With `L`
  for "on shorter inputs", the rules show that every recursive call stands behind a token:
  `Guarded.expressionStep`, `Guarded.conditionalStep`.
* `BlockGuarded L R`: the same for pairs of braces and for the recovery inside statements:
  `BlockGuarded.strictBlock`, `BlockGuarded.statementStep`.

A property of single parsers is the special case of a relation between a parser and itself.
-/

namespace CrudLang.Grammar

open CrudLang.Parser

/-- A reader of tokens that accepts no brace; braces are read in pairs. -/
def Braceless {α : Type} (read? : TokenKind → Option α) : Prop :=
  read? (.punctuator .leftBrace) = none ∧ read? (.punctuator .rightBrace) = none

/-- The combinators preserve the relation `R`. -/
structure Congruence (R : ∀ {α : Type}, Parser α → Parser α → Prop) : Prop where
  pure {α : Type} (a : α) : R (Pure.pure a) (Pure.pure a)
  bind {α β : Type} {p q : Parser α} {f g : α → Parser β} :
    R p q → (∀ a, R (f a) (g a)) → R (p >>= f) (q >>= g)
  satisfy {α : Type} {read? : TokenKind → Option α} {e : Expectation} :
    Braceless read? → R (satisfy read? e) (satisfy read? e)
  orElse {α : Type} {p p' q q' : Parser α} : R p q → R p' q' → R (orElse p p') (orElse q q')
  withSpan {α : Type} {p q : Parser (Span → α)} : R p q → R (withSpan p) (withSpan q)
  labelled {α : Type} {p q : Parser α} {c : Construct} :
    R p q → R (labelled c p) (labelled c q)
  fix {α : Type} {body body' : Parser α → Parser α} :
    (∀ p q, R p q → R (body p) (body' q)) → R (fix body) (fix body')

namespace Congruence

variable {R : ∀ {α : Type}, Parser α → Parser α → Prop} (C : Congruence R)
variable {α β : Type}
include C

/-- A token that is no brace. -/
theorem token {kind : TokenKind} (hl : kind ≠ .punctuator .leftBrace)
    (hr : kind ≠ .punctuator .rightBrace) : R (token kind) (token kind) :=
  C.satisfy ⟨if_neg hl.symm, if_neg hr.symm⟩

/-- A function of what is read. -/
theorem map {p q : Parser α} (g : α → β) (h : R p q) : R (g <$> p) (g <$> q) :=
  C.bind h fun a => C.pure (g a)

/-- Choices are related if their members are, one by one. -/
theorem choice_cons {p p' q q' : Parser α} {l l' : List (Parser α)} (h : R p q)
    (hl : R (choice p' l) (choice q' l')) : R (choice p (p' :: l)) (choice q (q' :: l')) :=
  C.orElse h hl

/-- A part that may be missing. -/
theorem optional {p q : Parser α} (h : R p q) : R (optional p) (optional q) :=
  C.orElse (C.map _ h) (C.pure none)

/-- Any number of parts. -/
theorem many {p q : Parser α} (h : R p q) : R (many p) (many q) := by
  refine C.fix fun more more' hmore => ?_
  refine C.orElse ?_ (C.pure [])
  refine C.bind h fun v => ?_
  refine C.bind hmore fun vs => ?_
  exact C.pure (v :: vs)

/-- Parts with separators between them. -/
theorem separated {p q : Parser α} {sep sep' : Parser Unit} (h : R p q) (hsep : R sep sep') :
    R (separated p sep) (separated q sep') := by
  refine C.orElse ?_ (C.pure [])
  refine C.bind h fun first => ?_
  refine C.bind (C.many (C.bind hsep fun _ => h)) fun others => ?_
  refine C.bind (C.optional hsep) fun _ => ?_
  exact C.pure (first :: others)

/-- Operands that are joined from left to right. -/
theorem chainLeft {p q : Parser α} {o o' : Parser β} {combine : α → β → α → α} (h : R p q)
    (ho : R o o') : R (chainLeft p o combine) (chainLeft q o' combine) := by
  refine C.bind h fun first => ?_
  refine C.bind (C.many ?_) fun others => C.pure _
  refine C.bind ho fun op => ?_
  refine C.bind h fun right => ?_
  exact C.pure (op, right)

/-- A choice between parsers that are related to themselves. -/
theorem choice {p : Parser α} {rest : List (Parser α)} (h : ∀ q ∈ p :: rest, R q q) :
    R (Parser.choice p rest) (Parser.choice p rest) :=
  Parser.choice_of_forall (Q := fun p => R p p) (fun hp hq => C.orElse hp hq) h

/-- The operators of one level: each of them is a token that is no brace. -/
theorem operator {level : Nat} {operator : Parser BinaryOp}
    (h : ChoosesOperators level operator) : R operator operator := by
  obtain ⟨first, others, rfl, htokens⟩ := h
  refine C.choice fun q hq => ?_
  rw [htokens] at hq
  obtain ⟨⟨k, op⟩, hop, rfl⟩ := List.mem_map.1 hq
  -- a brace is no operator
  have hkind : BinaryOp.ofKind? k = some op := (BinaryOp.isToken_iff.2 hop).1
  refine C.bind (C.token ?_ ?_) fun _ => C.pure op
  · rintro rfl
    cases hkind
  · rintro rfl
    cases hkind

/-- An identifier is read alike on both sides, like every rule that calls no other parser. -/
theorem identifier : R identifier identifier := by
  refine C.labelled (C.withSpan ?_)
  refine C.bind (C.satisfy ⟨rfl, rfl⟩) fun name => ?_
  exact C.pure _

/-- Literals are single tokens. -/
theorem literal : R literal literal :=
  C.withSpan (C.satisfy ⟨rfl, rfl⟩)

/-- Prefix operators are single tokens. -/
theorem unaryOperator : R unaryOperator unaryOperator := by
  have hsign {p : Punctuator} {op : UnaryOp} (hl : p ≠ .leftBrace) (hr : p ≠ .rightBrace) :
      R (do punctuator p; Pure.pure fun span => (op, span) : Parser (Span → UnaryOp × Span))
        (do punctuator p; Pure.pure fun span => (op, span)) := by
    refine C.bind (C.token (by simpa using hl) (by simpa using hr)) fun _ => ?_
    exact C.pure _
  refine C.withSpan ?_
  refine C.choice_cons (hsign (by decide) (by decide)) ?_
  refine C.choice_cons (hsign (by decide) (by decide)) ?_
  refine C.bind (C.token (by simp) (by simp)) fun _ => ?_
  exact C.pure _

/-- The keywords of operations on stored data are single tokens. -/
theorem crudOperator : R crudOperator crudOperator := by
  unfold Grammar.crudOperator
  exact C.satisfy ⟨rfl, rfl⟩

/-- The semicolon behind a statement, which may be missing. -/
theorem semicolon : R (Parser.optional (punctuator .semicolon))
    (Parser.optional (punctuator .semicolon)) :=
  C.optional (C.token (by simp) (by simp))

/-- Parameters are identifiers between parentheses. -/
theorem parameters : R parameters parameters := by
  refine C.labelled ?_
  refine C.bind (C.token (by simp) (by simp)) fun _ => ?_
  refine C.bind (C.separated C.identifier (C.token (by simp) (by simp))) fun params => ?_
  refine C.bind (C.token (by simp) (by simp)) fun _ => ?_
  exact C.pure params

end Congruence

/-- The combinators preserve `R` and the weaker relation `L`, and `L` is enough behind a token. -/
structure Guarded (L R : ∀ {α : Type}, Parser α → Parser α → Prop) : Prop where
  inner : Congruence L
  outer : Congruence R
  weaken {α : Type} {p q : Parser α} : R p q → L p q
  read {α β : Type} {read? : TokenKind → Option α} {e : Expectation} {f g : α → Parser β} :
    Braceless read? → (∀ a, L (f a) (g a)) →
      R (satisfy read? e >>= f) (satisfy read? e >>= g)

/-- A relation that the combinators preserve guards itself. -/
theorem Congruence.guarded {R : ∀ {α : Type}, Parser α → Parser α → Prop} (C : Congruence R) :
    Guarded R R where
  inner := C
  outer := C
  weaken h := h
  read hread h := C.bind (C.satisfy hread) h

namespace Guarded

variable {L R : ∀ {α : Type}, Parser α → Parser α → Prop} (G : Guarded L R)
variable {α β : Type}
include G

/-- Behind a token that is no brace, the weaker relation is enough. -/
theorem token {kind : TokenKind} {f g : Unit → Parser β} (hl : kind ≠ .punctuator .leftBrace)
    (hr : kind ≠ .punctuator .rightBrace) (h : L (f ()) (g ())) :
    R (token kind >>= f) (token kind >>= g) :=
  G.read ⟨if_neg hl.symm, if_neg hr.symm⟩ fun _ => h

/-- Between parentheses, the weaker relation is enough. -/
theorem parentheses {p q : Parser α} (h : L p q) :
    R (between .leftParen .rightParen p) (between .leftParen .rightParen q) := by
  refine G.token (by simp) (by simp) ?_
  refine G.inner.bind h fun v => ?_
  refine G.inner.bind (G.inner.token (by simp) (by simp)) fun _ => ?_
  exact G.inner.pure v

section Expressions

variable {p q : Parser Expr}

/-- Inside arguments, expressions stand behind a parenthesis. -/
theorem arguments (h : L p q) : R (arguments p) (arguments q) := by
  refine G.outer.labelled (G.parentheses ?_)
  exact G.inner.separated h (G.inner.token (by simp) (by simp))

/-- Inside an instantiation, expressions stand behind `new`. -/
theorem instantiation (h : L p q) : R (instantiation p) (instantiation q) := by
  refine G.outer.withSpan ?_
  refine G.token (by simp) (by simp) ?_
  refine G.inner.bind G.inner.identifier fun className => ?_
  refine G.inner.bind (G.inner.optional (G.weaken (G.arguments h))) fun args => ?_
  exact G.inner.pure _

/-- Inside a call, expressions stand behind the name. -/
theorem call (h : L p q) : R (call p) (call q) := by
  refine G.outer.withSpan ?_
  refine G.outer.bind G.outer.identifier fun callee => ?_
  refine G.outer.bind (G.arguments h) fun args => ?_
  exact G.outer.pure _

/-- In an expression without operators, expressions stand behind a token. -/
theorem atom (h : L p q) : R (atom p) (atom q) := by
  apply G.outer.choice_cons G.outer.literal
  apply G.outer.choice_cons (G.instantiation h)
  apply G.outer.choice_cons (G.call h)
  exact G.outer.choice_cons (G.outer.map _ G.outer.identifier) (G.parentheses h)

/-- Behind prefix operators, expressions stand behind a token. -/
theorem unary (h : L p q) : R (unary p) (unary q) := by
  refine G.outer.bind (G.outer.many G.outer.unaryOperator) fun operators => ?_
  refine G.outer.bind (G.atom h) fun operand => ?_
  exact G.outer.pure _

/-- The levels of operators are related one after the other. -/
theorem disjunction (h : L p q) : R (disjunction p) (disjunction q) := by
  have hproduct : R (product p) (product q) :=
    G.outer.chainLeft (G.unary h) (G.outer.operator choosesOperators_product)
  have hsum : R (sum p) (sum q) :=
    G.outer.chainLeft hproduct (G.outer.operator choosesOperators_sum)
  have hcomparison : R (comparison p) (comparison q) :=
    G.outer.chainLeft hsum (G.outer.operator choosesOperators_comparison)
  have hequality : R (equality p) (equality q) :=
    G.outer.chainLeft hcomparison (G.outer.operator choosesOperators_equality)
  have hconjunction : R (conjunction p) (conjunction q) :=
    G.outer.chainLeft hequality (G.outer.operator choosesOperators_and)
  exact G.outer.chainLeft hconjunction (G.outer.operator choosesOperators_or)

/-- The value of an assignment stands behind its target. -/
theorem assignment (h : L p q) : R (assignment p) (assignment q) := by
  refine G.outer.withSpan ?_
  refine G.outer.bind G.outer.identifier fun target => ?_
  refine G.token (by simp) (by simp) ?_
  refine G.inner.bind h fun value => ?_
  exact G.inner.pure _

/-- Inside an expression, expressions stand behind a token. -/
theorem expressionStep (h : L p q) : R (expressionStep p) (expressionStep q) :=
  G.outer.labelled (G.outer.orElse (G.assignment h) (G.disjunction h))

end Expressions

end Guarded

/-- Expressions keep to every relation that the combinators preserve. -/
theorem Congruence.expression {R : ∀ {α : Type}, Parser α → Parser α → Prop}
    (C : Congruence R) : R expression expression :=
  C.fix fun _ _ h => C.guarded.expressionStep h

/-- One round of the definition of conditionals. -/
def conditionalStep (block : Parser (Block Stmt)) (conditional : Parser Stmt) : Parser Stmt :=
  withSpan do
    keyword .if
    let condition ← expression
    let body ← block
    let alternative ← optional (do
      keyword .else
      choice conditional [Stmt.block <$> block])
    pure (Stmt.if condition body alternative)

/-- A conditional is defined by its rounds. -/
theorem conditional_eq_fix (block : Parser (Block Stmt)) :
    conditional block = fix (conditionalStep block) := rfl

namespace Guarded

variable {L R : ∀ {α : Type}, Parser α → Parser α → Prop} (G : Guarded L R)
variable {b b' : Parser (Block Stmt)}
include G

/-- Inside a conditional, the next conditional stands behind a token. -/
theorem conditionalStep {c c' : Parser Stmt} (hb : R b b') (hc : L c c') :
    R (conditionalStep b c) (conditionalStep b' c') := by
  -- what follows `else` stands behind the first token of the conditional
  have helse : L (do keyword .else; choice c [Stmt.block <$> b])
      (do keyword .else; choice c' [Stmt.block <$> b']) := by
    refine G.inner.bind (G.inner.token (by simp) (by simp)) fun _ => ?_
    exact G.inner.choice_cons hc (G.inner.map _ (G.weaken hb))
  refine G.outer.withSpan ?_
  refine G.token (by simp) (by simp) ?_
  refine G.inner.bind G.inner.expression fun condition => ?_
  refine G.inner.bind (G.weaken hb) fun body => ?_
  refine G.inner.bind (G.inner.optional helse) fun alternative => ?_
  exact G.inner.pure _

end Guarded

namespace Congruence

variable {R : ∀ {α : Type}, Parser α → Parser α → Prop} (C : Congruence R)
variable {b b' : Parser (Block Stmt)}
include C

/-- Conditionals are related if blocks are. -/
theorem conditional (hb : R b b') : R (conditional b) (conditional b') := by
  rw [conditional_eq_fix, conditional_eq_fix]
  exact C.fix fun _ _ h => C.guarded.conditionalStep hb h

/-- A variable, whose value may be missing. -/
theorem varDeclaration : R varDeclaration varDeclaration := by
  refine C.bind (C.token (by simp) (by simp)) fun _ => ?_
  refine C.bind C.identifier fun name => ?_
  refine C.bind (C.optional ?_) fun init => C.pure _
  exact C.bind (C.token (by simp) (by simp)) fun _ => C.expression

/-- A constant, with its value. -/
theorem constDeclaration : R constDeclaration constDeclaration := by
  refine C.bind (C.token (by simp) (by simp)) fun _ => ?_
  refine C.bind C.identifier fun name => ?_
  refine C.bind (C.token (by simp) (by simp)) fun _ => ?_
  refine C.bind C.expression fun value => ?_
  exact C.pure _

/-- Functions are related if their bodies are. -/
theorem functionDefinition (hb : R b b') : R (functionDefinition b) (functionDefinition b') := by
  refine C.labelled ?_
  refine C.bind (C.token (by simp) (by simp)) fun _ => ?_
  refine C.bind C.identifier fun name => ?_
  refine C.bind C.parameters fun params => ?_
  refine C.bind hb fun body => ?_
  exact C.pure _

/-- Members of a class are related if the bodies of functions are. -/
theorem member (hb : R b b') : R (member b) (member b') := by
  have hlast : R (Parser.choice Grammar.constDeclaration [Grammar.functionDefinition b])
      (Parser.choice Grammar.constDeclaration [Grammar.functionDefinition b']) :=
    C.choice_cons C.constDeclaration (C.functionDefinition hb)
  have hmember := C.withSpan (C.choice_cons C.varDeclaration hlast)
  refine C.labelled ?_
  refine C.bind hmember fun stmt => ?_
  refine C.bind C.semicolon fun _ => ?_
  exact C.pure stmt

/-- Loops are related if their bodies are. -/
theorem loopStatement (hb : R b b') : R (loopStatement b) (loopStatement b') := by
  refine C.bind (C.token (by simp) (by simp)) fun _ => ?_
  refine C.bind hb fun body => ?_
  exact C.pure _

/-- So are loops with a condition. -/
theorem whileStatement (hb : R b b') : R (whileStatement b) (whileStatement b') := by
  refine C.bind (C.token (by simp) (by simp)) fun _ => ?_
  refine C.bind C.expression fun condition => ?_
  refine C.bind hb fun body => ?_
  exact C.pure _

/-- An operation on stored data, whose arguments may be missing. -/
theorem crudStatement : R crudStatement crudStatement := by
  refine C.labelled ?_
  refine C.bind C.crudOperator fun op => ?_
  refine C.bind C.identifier fun target => ?_
  refine C.bind (C.optional (C.guarded.arguments C.expression)) fun args => ?_
  exact C.pure _

/-- `return`, whose value may be missing. -/
theorem returnStatement : R returnStatement returnStatement := by
  refine C.bind (C.token (by simp) (by simp)) fun _ => ?_
  refine C.bind (C.optional C.expression) fun value => ?_
  exact C.pure _

/-- Blocks as statements are related if blocks are. -/
theorem blockStatement (hb : R b b') : R (blockStatement b) (blockStatement b') :=
  C.bind hb fun _ => C.pure _

/-- An expression as a statement. -/
theorem expressionStatement : R expressionStatement expressionStatement :=
  C.bind C.expression fun _ => C.pure _

/-- The forms of statements but for classes, which have braces of their own. -/
theorem bareStatement (hb : R b b') (hclass : R (classDefinition b) (classDefinition b')) :
    R (bareStatement b) (bareStatement b') := by
  refine C.choice_cons (C.conditional hb) (C.withSpan ?_)
  refine C.choice_cons C.varDeclaration ?_
  refine C.choice_cons C.constDeclaration ?_
  refine C.choice_cons (C.functionDefinition hb) ?_
  refine C.choice_cons hclass ?_
  refine C.choice_cons (C.loopStatement hb) ?_
  refine C.choice_cons (C.whileStatement hb) ?_
  refine C.choice_cons C.crudStatement ?_
  refine C.choice_cons C.returnStatement ?_
  exact C.choice_cons (C.blockStatement hb) C.expressionStatement

end Congruence

/-- Besides, `L` is enough between braces, and recovery from an unreadable statement preserves
`R`. -/
structure BlockGuarded (L R : ∀ {α : Type}, Parser α → Parser α → Prop) : Prop
    extends Guarded L R where
  braces {α : Type} {p q : Parser α} : L p q →
    R (between .leftBrace .rightBrace p) (between .leftBrace .rightBrace q)
  statementError {p q : Parser Stmt} : R p q →
    R (recoverWith p statementError) (recoverWith q statementError)

namespace BlockGuarded

variable {L R : ∀ {α : Type}, Parser α → Parser α → Prop} (G : BlockGuarded L R)
variable {b b' : Parser (Block Stmt)}
include G

/-- Inside a class, the members stand behind a brace. -/
theorem classDefinition (hb : R b b') : R (classDefinition b) (classDefinition b') := by
  -- the members stand behind the opening brace
  have hmembers : R (between .leftBrace .rightBrace (many (member b)))
      (between .leftBrace .rightBrace (many (member b'))) :=
    G.braces (G.inner.many (G.inner.member (G.weaken hb)))
  refine G.outer.labelled ?_
  refine G.outer.bind (G.outer.token (by simp) (by simp)) fun _ => ?_
  refine G.outer.bind G.outer.identifier fun name => ?_
  refine G.outer.bind hmembers fun members => ?_
  exact G.outer.pure _

/-- A statement is built from blocks by the combinators. -/
theorem statementStep (hb : R b b') : R (statementStep b) (statementStep b') := by
  refine G.statementError (G.outer.labelled ?_)
  refine G.outer.bind (G.outer.bareStatement hb (G.classDefinition hb)) fun stmt => ?_
  refine G.outer.bind G.outer.semicolon fun _ => ?_
  exact G.outer.pure stmt

variable {p q : Parser Stmt}

/-- Between braces, the weaker relation between statements is enough. -/
theorem bracedStatements (h : L p q) : R (bracedStatements p) (bracedStatements q) := by
  refine G.outer.withSpan ?_
  refine G.outer.bind (G.braces (G.inner.many h)) fun stmts => ?_
  exact G.outer.pure _

/-- Inside a block, statements stand behind a brace. -/
theorem strictBlock (h : L p q) : R (strictBlock p) (strictBlock q) :=
  G.outer.labelled (G.bracedStatements h)

end BlockGuarded

end CrudLang.Grammar
