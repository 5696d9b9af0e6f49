import CrudLang.Proofs.Scope.Mirroring

/-!
# The tree of scopes

Functions, classes, loops, the blocks of a conditional and blocks on their own have a scope each.
`Program.scopeTrees` reads off a program how these constructs are nested, whatever names occur in
them. Numbering them in the order in which they begin, each with the construct around it as its
parent, gives the scopes that the checking of a program adds to the table
(`Checking.scopes_program`).

The names of a program bind in scopes and are looked up from them, but they neither open scopes nor
move between them: `Opens events trees` says of a run of events that it leaves nothing behind in the
tree of scopes but the given ones, and ends in the scope in which it began.
-/

namespace CrudLang

/-- A construct with a scope of its own, and the constructs directly inside of it. -/
inductive ScopeTree where
  | node (kind : ScopeKind) (inner : List ScopeTree)
deriving Repr

mutual

/-- The scopes that a statement opens. -/
def Stmt.scopeTrees : Stmt → List ScopeTree
  | .func _ _ body _ => [.node .function (Block.scopeTrees body)]
  | .class _ members _ => [.node .class (Stmt.scopeTreesOfAll members)]
  | .if _ body alternative _ =>
    .node .conditional (Block.scopeTrees body) :: Stmt.scopeTreesOfAlternative alternative
  | .loop body _ | .while _ body _ => [.node .loop (Block.scopeTrees body)]
  | .block body => [.node .block (Block.scopeTrees body)]
  | .var _ _ _ | .const _ _ _ | .crud _ _ _ _ | .return _ _ | .expr _ _ | .error _ => []

/-- The scopes that the statements of a block open. -/
def Block.scopeTrees : Block Stmt → List ScopeTree
  | ⟨stmts, _⟩ => Stmt.scopeTreesOfAll stmts

/-- The scopes that statements open, one after the other. -/
def Stmt.scopeTreesOfAll : List Stmt → List ScopeTree
  | [] => []
  | stmt :: rest => stmt.scopeTrees ++ Stmt.scopeTreesOfAll rest

/-- The scopes that what follows `else` opens; a block there belongs to the conditional. -/
def Stmt.scopeTreesOfAlternative : Option Stmt → List ScopeTree
  | none => []
  | some (.block body) => [.node .conditional (Block.scopeTrees body)]
  | some stmt => stmt.scopeTrees

end

/-- The scopes that a program opens inside the one in which it stands. -/
def Program.scopeTrees (program : Program) : List ScopeTree :=
  Stmt.scopeTreesOfAll program.stmts

/-- Where a scope stands in the tree of scopes and what it is, without the names that it binds. -/
structure ScopeNode where
  /-- The number of the scope. -/
  id : Nat
  /-- The number of the enclosing scope, if there is one. -/
  parent : Option Nat
  /-- What opened the scope. -/
  kind : ScopeKind
deriving DecidableEq, Repr

/-- The place of a scope in the tree of scopes. -/
def Scope.node (scope : Scope) : ScopeNode :=
  ⟨scope.id, scope.parent, scope.kind⟩

/-- The tree of the scopes of a table. -/
def SymbolTable.nodes (table : SymbolTable) : List ScopeNode :=
  table.scopes.toList.map Scope.node

namespace ScopeTree

mutual

/-- How many constructs there are in a tree. -/
def size : ScopeTree → Nat
  | .node _ inner => 1 + sizeOfAll inner

/-- How many constructs there are in some trees. -/
def sizeOfAll : List ScopeTree → Nat
  | [] => 0
  | tree :: rest => tree.size + sizeOfAll rest

end

mutual

/-- The constructs of a tree in the order in which they begin, numbered from `first` on. -/
def preorder (first parent : Nat) : ScopeTree → List ScopeNode
  | .node kind inner => ⟨first, some parent, kind⟩ :: preorderOfAll (first + 1) first inner

/-- The constructs of some trees in the order in which they begin, numbered from `first` on. -/
def preorderOfAll (first parent : Nat) : List ScopeTree → List ScopeNode
  | [] => []
  | tree :: rest => tree.preorder first parent ++ preorderOfAll (first + tree.size) parent rest

end

section Preorder

variable (first parent : Nat)

mutual

/-- Each construct is numbered once. -/
theorem length_preorder (first parent : Nat) (tree : ScopeTree) :
    (tree.preorder first parent).length = tree.size := by
  match tree with
  | .node kind inner =>
    rw [preorder, size, List.length_cons, length_preorderOfAll (first + 1) first inner,
      Nat.add_comm]

theorem length_preorderOfAll (first parent : Nat) (trees : List ScopeTree) :
    (preorderOfAll first parent trees).length = sizeOfAll trees := by
  match trees with
  | [] => rfl
  | tree :: rest =>
    rw [preorderOfAll, sizeOfAll, List.length_append, length_preorder first parent tree,
      length_preorderOfAll (first + tree.size) parent rest]

end

theorem preorderOfAll_append (trees trees' : List ScopeTree) :
    preorderOfAll first parent (trees ++ trees') =
      preorderOfAll first parent trees ++
        preorderOfAll (first + sizeOfAll trees) parent trees' := by
  induction trees generalizing first with
  | nil => rfl
  | cons tree trees ih =>
    rw [List.cons_append, preorderOfAll, preorderOfAll, ih, sizeOfAll, List.append_assoc,
      Nat.add_assoc]

theorem preorderOfAll_singleton (tree : ScopeTree) :
    preorderOfAll first parent [tree] = tree.preorder first parent := by
  rw [preorderOfAll, preorderOfAll, List.append_nil]

end Preorder

end ScopeTree

namespace SymbolTable

variable {table : SymbolTable}

theorem length_nodes : table.nodes.length = table.scopes.size := by
  rw [nodes, List.length_map, Array.length_toList]

theorem nodes_enter (kind : ScopeKind) :
    (table.enter kind).nodes = table.nodes ++ [⟨table.scopes.size, some table.current, kind⟩] := by
  rw [nodes, nodes, enter, Array.toList_push, List.map_append]
  rfl

/-- Binding a name leaves the tree of scopes as it is. -/
theorem nodes_insert (symbol : Symbol) : (table.insert symbol).nodes = table.nodes := by
  refine List.ext_getElem? fun i => ?_
  rw [nodes, nodes, List.getElem?_map, List.getElem?_map, Array.getElem?_toList,
    Array.getElem?_toList, insert, bindName, Array.getElem?_modify]
  split
  next => cases table.scopes[i]? <;> rfl
  next => rfl

/-- Leaving a scope leads to its parent. -/
theorem leave_of_nodes {node : ScopeNode} {parent : Nat}
    (hnode : table.nodes[table.current]? = some node) (hparent : node.parent = some parent) :
    table.leave = { table with current := parent } := by
  rw [nodes, List.getElem?_map, Array.getElem?_toList] at hnode
  obtain ⟨scope, hscope, rfl⟩ := Option.map_eq_some_iff.1 hnode
  rw [leave, hscope, Option.bind_some, show scope.parent = some parent from hparent]

end SymbolTable

open ScopeTree

/-- Playing the events ends in the scope in which it began, and the scopes that were opened
meanwhile are those of the trees. -/
def Opens (lines : LineIndex) (events : List Event) (trees : List ScopeTree) : Prop :=
  ∀ s : Checking, (s.play lines events).table.current = s.table.current ∧
    (s.play lines events).table.nodes =
      s.table.nodes ++ preorderOfAll s.table.scopes.size s.table.current trees

namespace Opens

variable {lines : LineIndex} {events events' : List Event} {trees trees' : List ScopeTree}

theorem nil : Opens lines [] [] :=
  fun _ => ⟨rfl, (List.append_nil _).symm⟩

/-- As many scopes are opened as the trees have. -/
theorem size (h : Opens lines events trees) (s : Checking) :
    (s.play lines events).table.scopes.size = s.table.scopes.size + sizeOfAll trees := by
  rw [← SymbolTable.length_nodes, (h s).2, List.length_append, length_preorderOfAll,
    SymbolTable.length_nodes]

/-- Events are played one run after the other. -/
theorem append (h : Opens lines events trees) (h' : Opens lines events' trees') :
    Opens lines (events ++ events') (trees ++ trees') := by
  intro s
  obtain ⟨hcurrent, hnodes⟩ := h s
  obtain ⟨hcurrent', hnodes'⟩ := h' (s.play lines events)
  have hplay : s.play lines (events ++ events') = (s.play lines events).play lines events' :=
    List.foldl_append
  rw [hplay]
  refine ⟨hcurrent'.trans hcurrent, ?_⟩
  -- the scopes of the second run are numbered behind those of the first
  rw [hnodes', hnodes, h.size, hcurrent, preorderOfAll_append, List.append_assoc]

/-- A name that is declared opens no scope, be it accepted or refused. -/
theorem declare (ident : Ident) (kind : SymbolKind) : Opens lines [.declare ident kind] [] := by
  intro s
  show (s.declare lines ident kind).table.current = _ ∧ (s.declare lines ident kind).table.nodes = _
  rw [preorderOfAll, List.append_nil]
  cases hname : s.table.getIn? s.table.current ident.name with
  | some previous =>
    rw [Checking.declare, SymbolTable.declare, hname]
    exact ⟨rfl, rfl⟩
  | none =>
    rw [Checking.declare, SymbolTable.declare_eq_ok hname]
    exact ⟨rfl, SymbolTable.nodes_insert _⟩

/-- A name that is used opens no scope. -/
theorem use (ident : Ident) (role : Role) : Opens lines [.use ident role] [] := by
  intro s
  have htable : (s.use lines ident role).table = s.table := by
    rw [Checking.use]
    split
    · rfl
    split
    · rfl
    · rfl
  show (s.use lines ident role).table.current = _ ∧ (s.use lines ident role).table.nodes = _
  rw [htable, preorderOfAll, List.append_nil]
  exact ⟨rfl, rfl⟩

/-- Events in a scope of their own: the scope is opened in front of those inside, and left behind
them. -/
theorem inScope (kind : ScopeKind) (h : Opens lines events trees) :
    Opens lines (Event.inScope kind events) [.node kind trees] := by
  intro s
  let opened : Checking := { s with table := s.table.enter kind }
  obtain ⟨hcurrent, hnodes⟩ := h opened
  have hplay : s.play lines (Event.inScope kind events) =
      { opened.play lines events with table := (opened.play lines events).table.leave } :=
    List.foldl_append
  have hsize : opened.table.scopes.size = s.table.scopes.size + 1 := Array.size_push _
  rw [SymbolTable.nodes_enter, hsize, List.append_assoc] at hnodes
  -- the scope has the number that was free when it was opened
  have hnode : (opened.play lines events).table.nodes[(opened.play lines events).table.current]? =
      some ⟨s.table.scopes.size, some s.table.current, kind⟩ := by
    rw [hcurrent, hnodes]
    show (s.table.nodes ++ _)[s.table.scopes.size]? = _
    rw [← SymbolTable.length_nodes, List.getElem?_append_right (Nat.le_refl _), Nat.sub_self]
    rfl
  rw [hplay, SymbolTable.leave_of_nodes hnode rfl]
  refine ⟨rfl, hnodes.trans ?_⟩
  rw [preorderOfAll_singleton, preorder]
  rfl

end Opens

section Trees

variable (lines : LineIndex)

mutual

/-- An expression opens no scope. -/
theorem Expr.opens : (e : Expr) → Opens lines e.events []
  | .number _ _ | .string _ _ | .bool _ _ => .nil
  | .name ident => .use ident .value
  | .unary _ operand _ => Expr.opens operand
  | .binary _ left right _ => (Expr.opens left).append (Expr.opens right)
  | .assign target value _ => (Opens.use target .assignment).append (Expr.opens value)
  | .call callee args _ => (Opens.use callee .call).append (Expr.opensOfAll args)
  | .new className args _ => (Opens.use className .instantiation).append (Expr.opensOfAll args)

theorem Expr.opensOfAll : (exprs : List Expr) → Opens lines (Expr.eventsOfAll exprs) []
  | [] => .nil
  | expr :: rest => (Expr.opens expr).append (Expr.opensOfAll rest)

end

theorem Expr.opensOf? : (expr : Option Expr) → Opens lines (Expr.eventsOf? expr) []
  | none => .nil
  | some expr => expr.opens lines

theorem opens_params (params : List Ident) :
    Opens lines (params.map fun param => .declare param .variable) [] := by
  induction params with
  | nil => exact .nil
  | cons param params ih => exact (Opens.declare param .variable).append ih

mutual

/-- A statement opens the scopes of the constructs in it. -/
theorem Stmt.opens (stmt : Stmt) : Opens lines stmt.events stmt.scopeTrees := by
  match stmt with
  | .var name init _ => exact (Expr.opensOf? lines init).append (.declare name .variable)
  | .const name value _ => exact (value.opens lines).append (.declare name .constant)
  -- parameters and body share the scope of the function
  | .func name params body _ =>
    exact (Opens.declare name .function).append
      (.inScope .function ((opens_params lines params).append (Block.opens body)))
  | .class name members _ =>
    exact (Opens.declare name .class).append (.inScope .class (Stmt.opensOfAll members))
  | .if condition body alternative _ =>
    exact ((condition.opens lines).append (.inScope .conditional (Block.opens body))).append
      (Stmt.opensOfAlternative alternative)
  | .loop body _ => exact .inScope .loop (Block.opens body)
  | .while condition body _ =>
    exact (condition.opens lines).append (.inScope .loop (Block.opens body))
  | .crud op target args _ =>
    exact (Opens.use target (.crud op)).append (Expr.opensOfAll lines args)
  | .return value _ => exact Expr.opensOf? lines value
  | .block body => exact .inScope .block (Block.opens body)
  | .expr expr _ => exact expr.opens lines
  | .error _ => exact .nil

theorem Block.opens (body : Block Stmt) :
    Opens lines (Block.events body) (Block.scopeTrees body) := by
  match body with
  | ⟨stmts, _⟩ => exact Stmt.opensOfAll stmts

theorem Stmt.opensOfAll (stmts : List Stmt) :
    Opens lines (Stmt.eventsOfAll stmts) (Stmt.scopeTreesOfAll stmts) := by
  match stmts with
  | [] => exact .nil
  | stmt :: rest => exact (Stmt.opens stmt).append (Stmt.opensOfAll rest)

/-- What follows `else` opens a scope if it is a block, and else the scopes of a statement. -/
theorem Stmt.opensOfAlternative (alternative : Option Stmt) :
    Opens lines (Stmt.eventsOfAlternative alternative)
      (Stmt.scopeTreesOfAlternative alternative) := by
  match alternative with
  | none => exact .nil
  | some (.block body) => exact .inScope .conditional (Block.opens body)
  | some (.var _ _ _) | some (.const _ _ _) | some (.func _ _ _ _) | some (.class _ _ _)
  | some (.if _ _ _ _) | some (.loop _ _) | some (.while _ _ _) | some (.crud _ _ _ _)
  | some (.return _ _) | some (.expr _ _) | some (.error _) => exact Stmt.opens _

end

end Trees

/-- The tree of scopes mirrors the program, whatever its names and whatever is reported: checking
ends in the scope in which it began, keeps the scopes that are there, and adds one for each
construct of the program with a scope of its own. They are numbered in the order in which the
constructs begin, and the parent of each is the scope of the construct around it, or the scope in
which checking began. -/
theorem Checking.scopes_program (lines : LineIndex) (s : Checking) (program : Program) :
    (s.program lines program).table.current = s.table.current ∧
      (s.program lines program).table.nodes =
        s.table.nodes ++ preorderOfAll s.table.scopes.size s.table.current program.scopeTrees :=
  Stmt.opensOfAll lines program.stmts s

/-- A block inside of the first branch of a conditional, and another conditional behind `else`. -/
example :
    let span : Span := .point 0
    let inner : Stmt := .block ⟨[], span⟩
    let second : Stmt := .if (.bool true span) ⟨[], span⟩ (some inner) span
    let first : Stmt := .if (.bool true span) ⟨[inner], span⟩ (some second) span
    (Checking.start.program (.ofSource "") ⟨[first], span⟩).table.nodes =
      [⟨0, none, .global⟩, ⟨1, some 0, .conditional⟩, ⟨2, some 1, .block⟩,
        ⟨3, some 0, .conditional⟩, ⟨4, some 0, .conditional⟩] := by
  decide

end CrudLang
