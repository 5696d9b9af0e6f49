import CrudLang.Syntax.Tree

/-!
# Trees up to their spans

Two trees are the same up to spans if they become equal once every span in them is replaced by one
and the same span. `Expr.eraseSpans` and `Stmt.eraseSpans` do that.
-/

namespace CrudLang

/-- An occurrence of a name without its place. -/
def Ident.eraseSpan (ident : Ident) : Ident :=
  ⟨ident.name, default⟩

mutual

/-- An expression without its spans. -/
def Expr.eraseSpans : Expr → Expr
  | .number text _ => .number text default
  | .string value _ => .string value default
  | .bool value _ => .bool value default
  | .name ident => .name ident.eraseSpan
  | .unary op operand _ => .unary op operand.eraseSpans default
  | .binary op left right _ => .binary op left.eraseSpans right.eraseSpans default
  | .assign target value _ => .assign target.eraseSpan value.eraseSpans default
  | .call callee args _ => .call callee.eraseSpan (Expr.eraseSpansOfAll args) default
  | .new className args _ => .new className.eraseSpan (Expr.eraseSpansOfAll args) default

/-- Expressions without their spans. -/
def Expr.eraseSpansOfAll : List Expr → List Expr
  | [] => []
  | expr :: rest => expr.eraseSpans :: Expr.eraseSpansOfAll rest

end

@[simp] theorem Expr.eraseSpansOfAll_eq_map (args : List Expr) :
    Expr.eraseSpansOfAll args = args.map Expr.eraseSpans := by
  induction args with
  | nil => rfl
  | cons arg args ih => rw [Expr.eraseSpansOfAll, ih, List.map_cons]

mutual

/-- A statement without its spans. -/
def Stmt.eraseSpans : Stmt → Stmt
  | .var name init _ => .var name.eraseSpan (init.map Expr.eraseSpans) default
  | .const name value _ => .const name.eraseSpan value.eraseSpans default
  | .func name params body _ =>
    .func name.eraseSpan (params.map Ident.eraseSpan) (Block.eraseSpans body) default
  | .class name members _ => .class name.eraseSpan (Stmt.eraseSpansOfAll members) default
  | .if condition body alternative _ =>
    .if condition.eraseSpans (Block.eraseSpans body) (Stmt.eraseSpansOf? alternative) default
  | .loop body _ => .loop (Block.eraseSpans body) default
  | .while condition body _ => .while condition.eraseSpans (Block.eraseSpans body) default
  | .crud op target args _ => .crud op target.eraseSpan (args.map Expr.eraseSpans) default
  | .return value _ => .return (value.map Expr.eraseSpans) default
  | .block body => .block (Block.eraseSpans body)
  | .expr expr _ => .expr expr.eraseSpans default
  | .error _ => .error default

/-- A block without its spans. -/
def Block.eraseSpans : Block Stmt → Block Stmt
  | ⟨stmts, _⟩ => ⟨Stmt.eraseSpansOfAll stmts, default⟩

/-- Statements without their spans. -/
def Stmt.eraseSpansOfAll : List Stmt → List Stmt
  | [] => []
  | stmt :: rest => stmt.eraseSpans :: Stmt.eraseSpansOfAll rest

/-- A statement that may be missing without its spans. -/
def Stmt.eraseSpansOf? : Option Stmt → Option Stmt
  | none => none
  | some stmt => some stmt.eraseSpans

end

@[simp] theorem Stmt.eraseSpansOfAll_eq_map (stmts : List Stmt) :
    Stmt.eraseSpansOfAll stmts = stmts.map Stmt.eraseSpans := by
  induction stmts with
  | nil => rfl
  | cons stmt stmts ih => rw [Stmt.eraseSpansOfAll, ih, List.map_cons]

@[simp] theorem Stmt.eraseSpansOf?_eq_map (stmt : Option Stmt) :
    Stmt.eraseSpansOf? stmt = stmt.map Stmt.eraseSpans := by
  cases stmt <;> rfl

/-- A program without its spans. -/
def Program.eraseSpans (program : Program) : Program :=
  ⟨program.stmts.map Stmt.eraseSpans, default⟩

end CrudLang
