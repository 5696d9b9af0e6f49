import CrudLang.Syntax.Tree

/-!
# Outlines of trees

A tree is written in one line without its spans: forms in parentheses, each operator or keyword
before its parts, blocks between braces. Strings stand in single quotes, as they are.
-/

namespace CrudLang

namespace UnaryOp

/-- The name of an operator in outlines. -/
def name : UnaryOp → String
  | .neg => "Neg"
  | .not => "Not"

end UnaryOp

namespace BinaryOp

/-- The name of an operator in outlines. -/
def name : BinaryOp → String
  | .add => "Add"
  | .sub => "Sub"
  | .mul => "Mul"
  | .div => "Div"
  | .rem => "Rem"
  | .eq => "Eq"
  | .notEq => "NotEq"
  | .lt => "Lt"
  | .ltEq => "LtEq"
  | .gt => "Gt"
  | .gtEq => "GtEq"
  | .and => "And"
  | .or => "Or"

end BinaryOp

namespace Outline

/-- Parts with a blank between them, in parentheses. -/
def form (parts : List String) : String :=
  "(" ++ " ".intercalate parts ++ ")"

/-- Parts with a blank between them, in braces. -/
def braces (parts : List String) : String :=
  "\x7b" ++ " ".intercalate parts ++ "\x7d"

end Outline

mutual

/-- The outline of an expression. -/
def Expr.outline : Expr → String
  | .number text _ => text
  | .string value _ => s!"'{value}'"
  | .bool value _ => if value then "true" else "false"
  | .name ident => ident.name
  | .unary op operand _ => Outline.form [op.name, operand.outline]
  | .binary op left right _ => Outline.form [op.name, left.outline, right.outline]
  | .assign target value _ => Outline.form ["=", target.name, value.outline]
  | .call callee args _ => Outline.form ("call" :: callee.name :: Expr.outlines args)
  | .new className args _ => Outline.form ("new" :: className.name :: Expr.outlines args)

/-- The outlines of expressions. -/
def Expr.outlines : List Expr → List String
  | [] => []
  | expr :: rest => expr.outline :: Expr.outlines rest

end

/-- The outline of an expression that may be missing. -/
def Expr.outline? : Option Expr → List String
  | none => []
  | some expr => [expr.outline]

mutual

/-- The outline of a statement. -/
def Stmt.outline : Stmt → String
  | .var name init _ => Outline.form ("var" :: name.name :: Expr.outline? init)
  | .const name value _ => Outline.form ["const", name.name, value.outline]
  | .func name params body _ =>
    Outline.form ["func", name.name, Outline.form (params.map Ident.name), Block.outline body]
  | .class name members _ => Outline.form ("class" :: name.name :: Stmt.outlines members)
  | .if condition body alternative _ =>
    Outline.form ("if" :: condition.outline :: Block.outline body :: Stmt.outline? alternative)
  | .loop body _ => Outline.form ["loop", Block.outline body]
  | .while condition body _ => Outline.form ["while", condition.outline, Block.outline body]
  | .crud op target args _ => Outline.form (op.text :: target.name :: Expr.outlines args)
  | .return value _ => Outline.form ("return" :: Expr.outline? value)
  | .block body => Block.outline body
  | .expr expr _ => expr.outline
  | .error _ => "<error>"

/-- The outline of a block. -/
def Block.outline : Block Stmt → String
  | ⟨stmts, _⟩ => Outline.braces (Stmt.outlines stmts)

/-- The outlines of statements. -/
def Stmt.outlines : List Stmt → List String
  | [] => []
  | stmt :: rest => stmt.outline :: Stmt.outlines rest

/-- The outline of a statement that may be missing. -/
def Stmt.outline? : Option Stmt → List String
  | none => []
  | some stmt => [stmt.outline]

end

end CrudLang
