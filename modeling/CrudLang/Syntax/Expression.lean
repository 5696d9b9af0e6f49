import CrudLang.Syntax.Parser
import CrudLang.Syntax.Tree

/-!
# Reading expressions

Expressions bind, from loosest to tightest: assignment, `or`, `and`, equality, comparison, sums,
products, prefix operators, atoms. Assignment associates to the right and takes a name on its
left; the operators between operands associate to the left. Each level is a parser over the
parser `expr` for whole expressions; `Grammar.expression` ties them together.
-/

namespace CrudLang.Grammar

open CrudLang.Parser

/-- An identifier. -/
def identifier : Parser Ident :=
  labelled .identifier <| withSpan do
    let name ← select fun
      | .identifier name => some name
      | _ => none
    pure fun span => ⟨name, span⟩

/-- Arguments between parentheses. -/
def arguments (expr : Parser Expr) : Parser (List Expr) :=
  labelled .argumentList <|
    between .leftParen .rightParen (separated expr (punctuator .comma))

/-- A number, a string or a truth value. -/
def literal : Parser Expr :=
  withSpan <| select fun
    | .number text => some (Expr.number text)
    | .string value => some (Expr.string value)
    | .keyword .true => some (Expr.bool true)
    | .keyword .false => some (Expr.bool false)
    | _ => none

/-- `new` with a class and its arguments, which may be missing. -/
def instantiation (expr : Parser Expr) : Parser Expr :=
  withSpan do
    keyword .new
    let className ← identifier
    let args ← optional (arguments expr)
    pure (Expr.new className (args.getD []))

/-- A name with arguments. -/
def call (expr : Parser Expr) : Parser Expr :=
  withSpan do
    let callee ← identifier
    let args ← arguments expr
    pure (Expr.call callee args)

/-- An expression without operators, or any expression in parentheses. -/
def atom (expr : Parser Expr) : Parser Expr :=
  choice literal
    [instantiation expr,
     call expr,
     Expr.name <$> identifier,
     between .leftParen .rightParen expr]

/-- A prefix operator, with its place. -/
def unaryOperator : Parser (UnaryOp × Span) :=
  withSpan <| choice (do punctuator .minus; pure fun span => (.neg, span))
    [do punctuator .bang; pure fun span => (.not, span),
     do keyword .not; pure fun span => (.not, span)]

/-- An atom behind any number of prefix operators. -/
def unary (expr : Parser Expr) : Parser Expr := do
  let operators ← many unaryOperator
  let operand ← atom expr
  pure <| operators.foldr
    (fun (op, span) operand => .unary op operand (span.join operand.span)) operand

/-- Joins two operands by an operator. -/
def joinOperands (left : Expr) (op : BinaryOp) (right : Expr) : Expr :=
  .binary op left right (left.span.join right.span)

/-- A punctuator that stands for an operator. -/
def signOperator (p : Punctuator) (op : BinaryOp) : Parser BinaryOp := do
  punctuator p
  pure op

/-- A keyword that stands for an operator. -/
def wordOperator (k : Keyword) (op : BinaryOp) : Parser BinaryOp := do
  keyword k
  pure op

/-- The operators of products. -/
def productOperator : Parser BinaryOp :=
  choice (signOperator .star .mul)
    [signOperator .slash .div,
     signOperator .percent .rem]

/-- The operators of sums. -/
def sumOperator : Parser BinaryOp :=
  choice (signOperator .plus .add) [signOperator .minus .sub]

/-- The operators of comparisons. -/
def comparisonOperator : Parser BinaryOp :=
  choice (signOperator .lessEqual .ltEq)
    [signOperator .greaterEqual .gtEq,
     signOperator .less .lt,
     signOperator .greater .gt]

/-- The operators of equality. -/
def equalityOperator : Parser BinaryOp :=
  choice (signOperator .equal .eq) [signOperator .notEqual .notEq]

/-- Conjunction, as a sign or as a word. -/
def andOperator : Parser BinaryOp :=
  choice (signOperator .andAnd .and) [wordOperator .and .and]

/-- Disjunction, as a sign or as a word. -/
def orOperator : Parser BinaryOp :=
  choice (signOperator .orOr .or) [wordOperator .or .or]

/-- A product of prefixed atoms. -/
def product (expr : Parser Expr) : Parser Expr :=
  chainLeft (unary expr) productOperator joinOperands

/-- A sum of products. -/
def sum (expr : Parser Expr) : Parser Expr :=
  chainLeft (product expr) sumOperator joinOperands

/-- A chain of comparisons of sums. -/
def comparison (expr : Parser Expr) : Parser Expr :=
  chainLeft (sum expr) comparisonOperator joinOperands

/-- A chain of equalities of comparisons. -/
def equality (expr : Parser Expr) : Parser Expr :=
  chainLeft (comparison expr) equalityOperator joinOperands

/-- A conjunction of equalities. -/
def conjunction (expr : Parser Expr) : Parser Expr :=
  chainLeft (equality expr) andOperator joinOperands

/-- A disjunction of conjunctions. -/
def disjunction (expr : Parser Expr) : Parser Expr :=
  chainLeft (conjunction expr) orOperator joinOperands

/-- A name, the sign of assignment, and the value assigned. -/
def assignment (expr : Parser Expr) : Parser Expr :=
  withSpan do
    let target ← identifier
    punctuator .assign
    let value ← expr
    pure (Expr.assign target value)

/-- One round of the definition of expressions. -/
def expressionStep (expr : Parser Expr) : Parser Expr :=
  labelled .expression (orElse (assignment expr) (disjunction expr))

/-- An expression. -/
def expression : Parser Expr :=
  fix expressionStep

end CrudLang.Grammar
