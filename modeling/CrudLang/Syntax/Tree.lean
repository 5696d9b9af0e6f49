import CrudLang.Source.Span

/-!
# The syntax tree

Identifiers, expressions, statements and programs, each with its span. A block is a list of
statements between braces. `Stmt.error` stands for a run of tokens that could not be read as a
statement.
-/

namespace CrudLang

/-- An occurrence of a name. -/
structure Ident where
  /-- The name. -/
  name : String
  /-- Where it stands. -/
  span : Span
deriving DecidableEq, Repr, Inhabited

/-- Operators in front of one operand. -/
inductive UnaryOp where
  | neg
  | not
deriving DecidableEq, Repr, Inhabited

/-- Operators between two operands. -/
inductive BinaryOp where
  | add
  | sub
  | mul
  | div
  | rem
  | eq
  | notEq
  | lt
  | ltEq
  | gt
  | gtEq
  | and
  | or
deriving DecidableEq, Repr, Inhabited

/-- The four operations on stored data. -/
inductive CrudOp where
  | create
  | read
  | update
  | delete
deriving DecidableEq, Repr, Inhabited

namespace CrudOp

/-- How an operation is written. -/
def text : CrudOp → String
  | .create => "create"
  | .read => "read"
  | .update => "update"
  | .delete => "delete"

end CrudOp

/-- An expression. Parentheses leave no trace but the shape of the tree. -/
inductive Expr where
  /-- A number, as written. -/
  | number (text : String) (span : Span)
  /-- A string, by its value. -/
  | string (value : String) (span : Span)
  /-- A truth value. -/
  | bool (value : Bool) (span : Span)
  /-- The use of a name. -/
  | name (ident : Ident)
  /-- An operator and its operand. -/
  | unary (op : UnaryOp) (operand : Expr) (span : Span)
  /-- An operator between its operands. -/
  | binary (op : BinaryOp) (left : Expr) (right : Expr) (span : Span)
  /-- An assignment, whose value is the value assigned. -/
  | assign (target : Ident) (value : Expr) (span : Span)
  /-- A call of a function by its name. -/
  | call (callee : Ident) (args : List Expr) (span : Span)
  /-- The creation of an object of a class. -/
  | new (className : Ident) (args : List Expr) (span : Span)
deriving Repr, Inhabited, BEq

namespace Expr

/-- Where an expression stands, without parentheses around it. -/
def span : Expr → Span
  | .number _ s | .string _ s | .bool _ s => s
  | .name ident => ident.span
  | .unary _ _ s | .binary _ _ _ s | .assign _ _ s | .call _ _ s | .new _ _ s => s

end Expr

/-- Statements between braces, with the span from brace to brace. -/
structure Block (σ : Type) where
  /-- The statements. -/
  stmts : List σ
  /-- Where the block stands. -/
  span : Span
deriving Repr, Inhabited, BEq

/-- A statement. Its span leaves out a semicolon behind it, except that of an `error`. -/
inductive Stmt where
  /-- The declaration of a variable. -/
  | var (name : Ident) (init : Option Expr) (span : Span)
  /-- The declaration of a constant. -/
  | const (name : Ident) (value : Expr) (span : Span)
  /-- The definition of a function. -/
  | func (name : Ident) (params : List Ident) (body : Block Stmt) (span : Span)
  /-- The definition of a class; its members are declarations. -/
  | class (name : Ident) (members : List Stmt) (span : Span)
  /-- A conditional; what follows `else` is another conditional or a block. -/
  | if (condition : Expr) (body : Block Stmt) (alternative : Option Stmt) (span : Span)
  /-- A loop without end. -/
  | loop (body : Block Stmt) (span : Span)
  /-- A loop with a condition. -/
  | while (condition : Expr) (body : Block Stmt) (span : Span)
  /-- An operation on stored data. -/
  | crud (op : CrudOp) (target : Ident) (args : List Expr) (span : Span)
  /-- The end of a function, with its value if there is one. -/
  | return (value : Option Expr) (span : Span)
  /-- A block on its own. -/
  | block (body : Block Stmt)
  /-- An expression that is evaluated for its effect. -/
  | expr (expr : Expr) (span : Span)
  /-- Tokens that could not be read as a statement. -/
  | error (span : Span)
deriving Repr, Inhabited, BEq

namespace Stmt

/-- Where a statement stands. -/
def span : Stmt → Span
  | .var _ _ s | .const _ _ s | .func _ _ _ s | .class _ _ s | .if _ _ _ s | .loop _ s
  | .while _ _ s | .crud _ _ _ s | .return _ s | .expr _ s | .error s => s
  | .block body => body.span

end Stmt

/-- A program: the statements of a source, with the span from the first token to the last. -/
structure Program where
  /-- The statements. -/
  stmts : List Stmt
  /-- Where the program stands. -/
  span : Span
deriving Repr, Inhabited, BEq

end CrudLang
