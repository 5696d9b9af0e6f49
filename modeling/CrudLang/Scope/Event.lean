import CrudLang.Syntax.Tree
import CrudLang.Scope.Symbol

/-!
# What a program does with names

For the rules of scope a program is a sequence of events: scopes are opened and closed, names are
declared and used. `Program.events` lists them in the order in which a reader of the program
meets them: a value before the name that it initialises, the name of a function or a class before
its body, the target of an assignment, a call, a `new` or an operation on data before its
arguments.
-/

namespace CrudLang

/-- What a name is used for. -/
inductive Role where
  /-- Its value is read. -/
  | value
  /-- It is assigned to. -/
  | assignment
  /-- It is called. -/
  | call
  /-- An object of it is created. -/
  | instantiation
  /-- It is the target of an operation on stored data. -/
  | crud (op : CrudOp)
deriving DecidableEq, Repr, Inhabited

namespace Role

/-- Whether a name of a kind can be used in a role. -/
def accepts : Role → SymbolKind → Bool
  | .value, _ => true
  | .assignment, kind => kind = .variable
  | .call, kind => kind = .function
  | .instantiation, kind => kind = .class
  | .crud _, kind => kind = .class || kind = .variable

end Role

/-- One thing that a program does with scopes and names. -/
inductive Event where
  /-- A scope is opened. -/
  | enter (kind : ScopeKind)
  /-- The current scope is closed. -/
  | leave
  /-- A name is declared. -/
  | declare (ident : Ident) (kind : SymbolKind)
  /-- A name is used. -/
  | use (ident : Ident) (role : Role)
deriving DecidableEq, Repr, Inhabited

/-- Events inside a scope of their own. -/
def Event.inScope (kind : ScopeKind) (events : List Event) : List Event :=
  .enter kind :: events ++ [.leave]

mutual

/-- The events of an expression. -/
def Expr.events : Expr → List Event
  | .number _ _ => []
  | .string _ _ => []
  | .bool _ _ => []
  | .name ident => [.use ident .value]
  | .unary _ operand _ => operand.events
  | .binary _ left right _ => left.events ++ right.events
  | .assign target value _ => .use target .assignment :: value.events
  | .call callee args _ => .use callee .call :: Expr.eventsOfAll args
  | .new className args _ => .use className .instantiation :: Expr.eventsOfAll args

/-- The events of expressions, one after the other. -/
def Expr.eventsOfAll : List Expr → List Event
  | [] => []
  | expr :: rest => expr.events ++ Expr.eventsOfAll rest

end

/-- The events of an expression that may be missing. -/
def Expr.eventsOf? : Option Expr → List Event
  | none => []
  | some expr => expr.events

mutual

/-- The events of a statement. -/
def Stmt.events : Stmt → List Event
  | .var name init _ => Expr.eventsOf? init ++ [.declare name .variable]
  | .const name value _ => value.events ++ [.declare name .constant]
  | .func name params body _ =>
    .declare name .function ::
      Event.inScope .function
        (params.map (fun param => .declare param .variable) ++ Block.events body)
  | .class name members _ =>
    .declare name .class :: Event.inScope .class (Stmt.eventsOfAll members)
  | .if condition body alternative _ =>
    condition.events ++ Event.inScope .conditional (Block.events body) ++
      Stmt.eventsOfAlternative alternative
  | .loop body _ => Event.inScope .loop (Block.events body)
  | .while condition body _ => condition.events ++ Event.inScope .loop (Block.events body)
  | .crud op target args _ => .use target (.crud op) :: Expr.eventsOfAll args
  | .return value _ => Expr.eventsOf? value
  | .block body => Event.inScope .block (Block.events body)
  | .expr expr _ => expr.events
  | .error _ => []

/-- The events of the statements of a block, without the scope that it may open. -/
def Block.events : Block Stmt → List Event
  | ⟨stmts, _⟩ => Stmt.eventsOfAll stmts

/-- The events of statements, one after the other. -/
def Stmt.eventsOfAll : List Stmt → List Event
  | [] => []
  | stmt :: rest => stmt.events ++ Stmt.eventsOfAll rest

/-- The events of what follows `else`; a block there belongs to the conditional. -/
def Stmt.eventsOfAlternative : Option Stmt → List Event
  | none => []
  | some (.block body) => Event.inScope .conditional (Block.events body)
  | some stmt => stmt.events

end

/-- The events of a program. -/
def Program.events (program : Program) : List Event :=
  Stmt.eventsOfAll program.stmts

end CrudLang
