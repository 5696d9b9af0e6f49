import CrudLang.Proofs.Comparison.Likeness
import CrudLang.Proofs.Grammar.Recovery

/-!
# Two readings of an expression

The same grammar rule may be applied to two inputs, and what it reads there be compared.
`Simulation L Refused R` says that a family of relations `R n` between parsers of alike values is
preserved by the combinators, where a reader of tokens need only be related to itself if it accepts
none of the tokens in `Refused`, and where `R n` is enough behind a token for `R (n + 1)`. If the
refused tokens do not occur in expressions, but for operators whose readers are related all the
same (`ExpressionSimulation`), then the parser for expressions is related to itself
(`ExpressionSimulation.expression`).

A property of single parsers is the special case of a relation that leaves the second one out.
-/

namespace CrudLang

namespace Grammar

open CrudLang.Parser

/-- The reader accepts none of the refused tokens. -/
def Refuses (Refused : TokenKind → Prop) {α : Type} (read? : TokenKind → Option α) : Prop :=
  ∀ k, Refused k → read? k = none

/-- The combinators preserve the relations `R n` between parsers of alike values, and behind a token
`R n` is enough for `R (n + 1)`. -/
structure Simulation (L : Likeness) (Refused : TokenKind → Prop)
    (R : Nat → ∀ {α : Type}, (α → α → Prop) → Parser α → Parser α → Prop) : Prop where
  zero {α : Type} {V : α → α → Prop} {p q : Parser α} : R 0 V p q
  weaken {n : Nat} {α : Type} {V : α → α → Prop} {p q : Parser α} : R (n + 1) V p q → R n V p q
  pure {n : Nat} {α : Type} {V : α → α → Prop} {a b : α} : V a b →
    R n V (Pure.pure a) (Pure.pure b)
  bind {n : Nat} {α β : Type} {V : α → α → Prop} {W : β → β → Prop} {p q : Parser α}
    {f g : α → Parser β} : R n V p q → (∀ a b, V a b → R n W (f a) (g b)) →
      R n W (p >>= f) (q >>= g)
  satisfy {n : Nat} {α : Type} {V : α → α → Prop} {read? : TokenKind → Option α}
    {e : Expectation} : Refuses Refused read? → (∀ k v, read? k = some v → V v v) →
      R n V (satisfy read? e) (satisfy read? e)
  read {n : Nat} {α β : Type} {V : α → α → Prop} {W : β → β → Prop}
    {read? : TokenKind → Option α} {e : Expectation} {f g : α → Parser β} :
    Refuses Refused read? → (∀ k v, read? k = some v → V v v) →
      (∀ a b, V a b → R n W (f a) (g b)) →
        R (n + 1) W (Parser.satisfy read? e >>= f) (Parser.satisfy read? e >>= g)
  orElse {n : Nat} {α : Type} {V : α → α → Prop} {p p' q q' : Parser α} : R n V p q →
    R n V p' q' → R n V (orElse p p') (orElse q q')
  withSpan {n : Nat} {α : Type} {V : α → α → Prop} {p q : Parser (Span → α)} :
    R n (L.built V) p q → R n V (withSpan p) (withSpan q)
  labelled {n : Nat} {α : Type} {V : α → α → Prop} {p q : Parser α} {c : Construct} :
    R n V p q → R n V (labelled c p) (labelled c q)
  many {n : Nat} {α : Type} {V : α → α → Prop} {p : Parser α} : Consumes p → R n V p p →
    R n (List.Forall₂ V) (many p) (many p)

namespace Simulation

variable {L : Likeness} {Refused : TokenKind → Prop}
variable {R : Nat → ∀ {α : Type}, (α → α → Prop) → Parser α → Parser α → Prop}
variable (S : Simulation L Refused R) {n : Nat} {α β : Type} {V : α → α → Prop}
variable {W : β → β → Prop} {p q : Parser α}
include S

/-- Values that are related may be changed on both sides into values that are related. -/
theorem map {g g' : α → β} (h : R n V p q) (hg : ∀ a b, V a b → W (g a) (g' b)) :
    R n W (g <$> p) (g' <$> q) :=
  S.bind h fun a b hab => S.pure (hg a b hab)

/-- Something that may be missing: both readers find it or neither does. -/
theorem optional (h : R n V p q) : R n (Option.Rel V) (optional p) (optional q) :=
  S.orElse (S.map h fun _ _ hab => .some hab) (S.pure .none)

/-- A choice is related to itself if each of the alternatives is. -/
theorem choice {rest : List (Parser α)} (h : ∀ q ∈ p :: rest, R n V q q) :
    R n V (Parser.choice p rest) (Parser.choice p rest) :=
  choice_of_forall (Q := fun p => R n V p p) (fun hp hq => S.orElse hp hq) h

/-- A token that is not refused is read by both readers or by neither. -/
theorem token {kind : TokenKind} (h : ¬ Refused kind) :
    R n (fun _ _ => True) (token kind) (token kind) :=
  S.satisfy (fun k hk => if_neg fun heq : k = kind => h (heq ▸ hk)) fun _ _ _ => trivial

/-- Behind a token. -/
theorem token_bind {kind : TokenKind} {f g : Unit → Parser β} (h : ¬ Refused kind)
    (hfg : R n W (f ()) (g ())) : R (n + 1) W (Parser.token kind >>= f) (Parser.token kind >>= g) :=
  S.read (V := fun _ _ => True) (fun k hk => if_neg fun heq : k = kind => h (heq ▸ hk))
    (fun _ _ _ => trivial) fun _ _ _ => hfg

/-- Items with something between them that consumes. -/
theorem separated {sep : Parser Unit} (hsep : R n (fun _ _ => True) sep sep)
    (hconsumes : Consumes sep) (h : R n V p p) (hforward : Forward p) :
    R n (List.Forall₂ V) (separated p sep) (separated p sep) := by
  have hround : R n V (do sep; p) (do sep; p) := S.bind hsep fun _ _ _ => h
  have hothers := S.many (hconsumes.bind fun _ => hforward) hround
  exact S.orElse (S.bind h fun a b hab => S.bind hothers fun _ _ hs =>
    S.bind (S.optional hsep) fun _ _ _ => S.pure (.cons hab hs)) (S.pure .nil)

section Rows

variable {operand : Parser Expr} {operator : Parser BinaryOp}

omit S in
/-- Alike operands with the same operators between them are joined to alike expressions. -/
theorem joinAll_alike {others others' : List (BinaryOp × Expr)}
    (h : List.Forall₂ (fun a b => a.1 = b.1 ∧ L.expr a.2 b.2) others others') {e e' : Expr}
    (he : L.expr e e') : L.expr (Expr.joinAll e others) (Expr.joinAll e' others') := by
  induction h generalizing e e' with
  | nil => exact he
  | cons hround _ ih =>
    obtain ⟨hop, hright⟩ := hround
    have hspan := L.span_join (L.span_expr he) (L.span_expr hright)
    rw [Expr.joinAll_cons, Expr.joinAll_cons, hop]
    exact ih (L.binary _ he hright hspan)

/-- Operators of a precedence none of which is refused. -/
theorem binaryOperator {level : Nat} (hRefused : ∀ row ∈ BinaryOp.tokens level, ¬ Refused row.1)
    (hop : ChoosesOperators level operator) : R n Eq operator operator := by
  obtain ⟨first, others, rfl, htokens⟩ := hop
  refine S.choice fun q hq => ?_
  rw [htokens] at hq
  obtain ⟨row, hrow, rfl⟩ := List.mem_map.1 hq
  refine S.bind (S.token (hRefused row hrow)) fun _ _ _ => ?_
  exact S.pure rfl

/-- A row of operands with operators between them. -/
theorem row {level : Nat} (hop : ChoosesOperators level operator)
    (hoperator : R n Eq operator operator)
    (h : R n L.expr operand operand)
    (hspells : Spells operand (Silently (Expr.Written (level + 1)))) :
    R n L.expr (chainLeft operand operator joinOperands)
      (chainLeft operand operator joinOperands) := by
  -- a round of the loop takes an operator, so the loop comes to an end
  have hround : R n (fun a b => a.1 = b.1 ∧ L.expr a.2 b.2)
      (do let op ← operator; let right ← operand; Pure.pure (op, right))
      (do let op ← operator; let right ← operand; Pure.pure (op, right)) := by
    refine S.bind hoperator fun _ _ hop => ?_
    refine S.bind h fun _ _ hright => ?_
    exact S.pure ⟨hop, hright⟩
  have hconsumes : Consumes
      (do let op ← operator; let right ← operand; Pure.pure (op, right)) := by
    refine .bind (.of_spells hop.spells fun _ _ _ h => ?_) fun op => ?_
    · obtain ⟨⟨k, hk, -⟩, -⟩ := h
      cases hk
    · refine .of_spells (hspells.silently (Q := fun _ _ _ _ => True) fun _ _ _ => ?_)
      exact .pure fun _ => trivial
  refine S.bind h fun _ _ he => ?_
  refine S.bind (S.many hconsumes hround) fun _ _ hothers => ?_
  exact S.pure (joinAll_alike hothers he)

end Rows

end Simulation

/-- The tokens of the operators that can be written as a sign and as a word. -/
def spelledTwice : List TokenKind :=
  [.punctuator .andAnd, .keyword .and, .punctuator .orOr, .keyword .or, .punctuator .bang,
   .keyword .not]

/-- A simulation that does not refuse what expressions are made of, but perhaps operators with two
spellings. The readers of these operators are related even then. -/
structure ExpressionSimulation (L : Likeness) (Refused : TokenKind → Prop)
    (R : Nat → ∀ {α : Type}, (α → α → Prop) → Parser α → Parser α → Prop) : Prop
    extends Simulation L Refused R where
  refused {k : TokenKind} : Refused k → k ∈ statementBoundaries ++ spelledTwice
  unaryOperator {n : Nat} : R n (fun a b => a.1 = b.1 ∧ L.span a.2 b.2)
    Grammar.unaryOperator Grammar.unaryOperator
  andOperator {n : Nat} : R n Eq Grammar.andOperator Grammar.andOperator
  orOperator {n : Nat} : R n Eq Grammar.orOperator Grammar.orOperator

/-- If no operator is refused, the readers of operators are made of tokens that are not. -/
theorem Simulation.expressionSimulation {L : Likeness} {Refused : TokenKind → Prop}
    {R : Nat → ∀ {α : Type}, (α → α → Prop) → Parser α → Parser α → Prop}
    (S : Simulation L Refused R) (hRefused : ∀ k, Refused k → k ∈ statementBoundaries) :
    ExpressionSimulation L Refused R where
  toSimulation := S
  refused hk := List.mem_append_left _ (hRefused _ hk)
  unaryOperator := by
    refine S.withSpan (S.choice fun q hq => ?_)
    have hop {n : Nat} {k : TokenKind} (op : UnaryOp) (hk : k ∉ statementBoundaries) :
        R n (L.built fun a b => a.1 = b.1 ∧ L.span a.2 b.2)
          (do Parser.token k; Pure.pure fun span => (op, span))
          (do Parser.token k; Pure.pure fun span => (op, span)) := by
      refine S.bind (S.token fun h => hk (hRefused k h)) fun _ _ _ => ?_
      exact S.pure fun _ _ hs => ⟨rfl, hs⟩
    simp only [List.mem_cons, List.not_mem_nil, or_false] at hq
    rcases hq with rfl | rfl | rfl
    · exact hop .neg (by decide)
    · exact hop .not (by decide)
    · exact hop .not (by decide)
  andOperator := S.binaryOperator (fun row hrow h => (by decide : ∀ row ∈ BinaryOp.tokens 2,
    row.1 ∉ statementBoundaries) row hrow (hRefused _ h)) choosesOperators_and
  orOperator := S.binaryOperator (fun row hrow h => (by decide : ∀ row ∈ BinaryOp.tokens 1,
    row.1 ∉ statementBoundaries) row hrow (hRefused _ h)) choosesOperators_or

namespace ExpressionSimulation

variable {L : Likeness} {Refused : TokenKind → Prop}
variable {R : Nat → ∀ {α : Type}, (α → α → Prop) → Parser α → Parser α → Prop}
variable (S : ExpressionSimulation L Refused R) {n : Nat} {α : Type} {V : α → α → Prop}
variable {p : Parser α}
include S

/-- A reader that takes none of the tokens that may be refused does not notice which ones are. -/
theorem refuses {read? : TokenKind → Option α}
    (h : ∀ k ∈ statementBoundaries ++ spelledTwice, read? k = none) : Refuses Refused read? :=
  fun k hk => h k (S.refused hk)

/-- A token that neither begins statements nor is spelled twice is not refused. -/
theorem not_refused {kind : TokenKind} (h : kind ∉ statementBoundaries ++ spelledTwice) :
    ¬ Refused kind :=
  fun hk => h (S.refused hk)

/-- Between parentheses. -/
theorem parentheses (h : R n V p p) : R (n + 1) V (between .leftParen .rightParen p)
    (between .leftParen .rightParen p) := by
  refine S.token_bind (S.not_refused (by decide)) ?_
  refine S.bind h fun _ _ hab => ?_
  refine S.bind (S.token (S.not_refused (by decide))) fun _ _ _ => ?_
  exact S.pure hab

/-- Items with commas between them. -/
theorem items (h : R n V p p) (hforward : Forward p) : R n (List.Forall₂ V)
    (Parser.separated p (punctuator .comma)) (Parser.separated p (punctuator .comma)) :=
  S.separated (S.token (S.not_refused (by decide))) (.token _) h hforward

/-- A name is related to itself, at spans that are. -/
theorem identifier : R n L.ident identifier identifier := by
  refine S.labelled (S.withSpan ?_)
  refine S.bind (V := Eq) (S.satisfy (S.refuses (by decide)) fun _ _ _ => rfl)
    fun name _ hname => ?_
  refine S.pure ?_
  rintro s s' hs
  rw [← hname]
  exact L.ident_mk name hs

/-- A number, a string or a truth value is related to itself, at spans that are. -/
theorem literal : R n L.expr literal literal := by
  refine S.withSpan ?_
  refine S.satisfy (S.refuses (by decide)) fun k build hbuild s s' hs => ?_
  split at hbuild <;> cases hbuild
  · exact L.number _ hs
  · exact L.string _ hs
  · exact L.bool _ hs
  · exact L.bool _ hs

section Operands

variable (h : R n L.expr expression expression)
include h

/-- The arguments of a call, given the expressions in them. -/
theorem arguments : R (n + 1) (List.Forall₂ L.expr) (arguments expression)
    (arguments expression) :=
  S.labelled (S.parentheses (S.items h (.of_spells spells_expression)))

/-- A `new`, given the expressions in its arguments. -/
theorem instantiation : R (n + 1) L.expr (instantiation expression) (instantiation expression) := by
  refine S.withSpan ?_
  refine S.token_bind (S.not_refused (by decide)) ?_
  refine S.bind (S.identifier) fun _ _ hname => ?_
  refine S.bind (S.optional (S.weaken (S.arguments h))) fun _ _ hargs => ?_
  exact S.pure fun _ _ hs => L.new hname (forall₂_getD_nil hargs) hs

/-- A call, given the expressions in its arguments. -/
theorem call : R (n + 1) L.expr (call expression) (call expression) := by
  refine S.withSpan ?_
  refine S.bind (S.identifier) fun _ _ hname => ?_
  refine S.bind (S.arguments h) fun _ _ hargs => ?_
  exact S.pure fun _ _ hs => L.call hname hargs hs

/-- An operand without operators: a literal, a name, a call, a `new` or something in parentheses. -/
theorem atom : R (n + 1) L.expr (atom expression) (atom expression) := by
  refine S.choice fun q hq => ?_
  simp only [List.mem_cons, List.not_mem_nil, or_false] at hq
  rcases hq with rfl | rfl | rfl | rfl | rfl
  · exact S.literal
  · exact S.instantiation h
  · exact S.call h
  · exact S.map (S.identifier) fun _ _ hname => L.name hname
  · exact S.parentheses h

/-- Operators in front of an operand are related one by one. -/
theorem unary : R (n + 1) L.expr (unary expression) (unary expression) := by
  have hconsumes : Consumes Grammar.unaryOperator := .of_spells spells_unaryOperator
    fun _ _ _ h => by
      obtain ⟨⟨k, hk, -⟩, -⟩ := h
  refine S.bind (S.many hconsumes (S.unaryOperator)) fun ops ops' hops => ?_
  refine S.bind (S.atom h) fun e e' he => ?_
  refine S.pure ?_
  -- the operators are put in front of the operand, the last one first
  show L.expr (Expr.prefixAll ops e) (Expr.prefixAll ops' e')
  induction hops with
  | nil => exact he
  | cons hop _ ih =>
    obtain ⟨hop, hspan⟩ := hop
    rw [Expr.prefixAll_cons, Expr.prefixAll_cons, hop]
    exact L.unary _ ih (L.span_join hspan (L.span_expr ih))

/-- A row of the loosest operator, and with it the rows of all the tighter ones. -/
theorem disjunction : R (n + 1) L.expr (disjunction expression) (disjunction expression) := by
  have hoperator {level : Nat} {operator : Parser BinaryOp} (hop : ChoosesOperators level operator)
      (hlevel : ∀ row ∈ BinaryOp.tokens level, row.1 ∉ statementBoundaries ++ spelledTwice) :
      R (n + 1) Eq operator operator :=
    S.binaryOperator (fun row hrow => S.not_refused (hlevel row hrow)) hop
  -- from the tightest level to the loosest, each one from the one below it
  have hunary := spells_unary spells_expression
  have hproduct := S.row choosesOperators_product (hoperator choosesOperators_product (by decide))
    (S.unary h) hunary
  have hspells := spells_chainLeft hunary choosesOperators_product
  have hsum := S.row choosesOperators_sum (hoperator choosesOperators_sum (by decide)) hproduct
    hspells
  have hspells := spells_chainLeft hspells choosesOperators_sum
  have hcomparison := S.row choosesOperators_comparison
    (hoperator choosesOperators_comparison (by decide)) hsum hspells
  have hspells := spells_chainLeft hspells choosesOperators_comparison
  have hequality := S.row choosesOperators_equality
    (hoperator choosesOperators_equality (by decide)) hcomparison hspells
  have hspells := spells_chainLeft hspells choosesOperators_equality
  have hconjunction := S.row choosesOperators_and S.andOperator hequality hspells
  exact S.row choosesOperators_or S.orOperator hconjunction
    (spells_chainLeft hspells choosesOperators_and)

/-- An assignment: a name, the sign of assignment and a value. -/
theorem assignment : R (n + 1) L.expr (assignment expression) (assignment expression) := by
  refine S.withSpan ?_
  refine S.bind (S.identifier) fun _ _ hname => ?_
  refine S.token_bind (S.not_refused (by decide)) ?_
  refine S.bind h fun _ _ hvalue => ?_
  exact S.pure fun _ _ hs => L.assign hname hvalue hs

end Operands

/-- Expressions are related to themselves. -/
theorem expression (n : Nat) : R n L.expr expression expression := by
  induction n with
  | zero => exact S.zero
  | succ n ih =>
    rw [expression_eq]
    exact S.labelled (S.orElse (S.assignment ih) (S.disjunction ih))

end ExpressionSimulation

end Grammar

end CrudLang
