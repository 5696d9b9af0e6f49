import CrudLang.Scope.Symbol

/-!
# The symbol table

A tree of scopes, each of which binds names to symbols. Scopes that were left stay in the table, so
that the whole tree can be inspected afterwards; `current` points to the scope that is open
now. Within one scope a name is declared once: a second declaration is refused and changes
nothing. A name is looked up in the current scope first and then outward along the parents.
-/

namespace CrudLang

/-- A scope: its place in the tree and the names that it binds. -/
structure Scope where
  /-- The index of the scope in the table. -/
  id : Nat
  /-- The index of the enclosing scope, if there is one. -/
  parent : Option Nat
  /-- What opened the scope. -/
  kind : ScopeKind
  /-- The names bound here, with the indices of their symbols, in the order of declaration. -/
  names : List (String × Nat)
deriving DecidableEq, Repr, Inhabited

namespace Scope

/-- The index of the symbol that a name is bound to in this scope. -/
def get? (scope : Scope) (name : String) : Option Nat :=
  scope.names.lookup name

end Scope

/-- The symbols and scopes of a program. -/
structure SymbolTable where
  /-- The symbols, in the order of declaration. -/
  symbols : Array Symbol
  /-- The scopes, in the order in which they were entered. -/
  scopes : Array Scope
  /-- The index of the scope that is open now. -/
  current : Nat
deriving DecidableEq, Repr

/-- The refusal of a declaration, because the name is already declared in the same scope. -/
structure AlreadyDeclared where
  /-- The name. -/
  name : String
  /-- The index of the symbol that the name stays bound to. -/
  previous : Nat
  /-- The line on which that symbol is declared. -/
  previousLine : Nat
deriving DecidableEq, Repr

namespace AlreadyDeclared

/-- What is said about a refused declaration. -/
def message (refusal : AlreadyDeclared) : String :=
  s!"'{refusal.name}' is already declared in this scope " ++
    s!"(first declared on line {refusal.previousLine})"

end AlreadyDeclared

namespace SymbolTable

/-- The table with the global scope, which is open, and no symbols. -/
def empty : SymbolTable where
  symbols := #[]
  scopes := #[⟨0, none, .global, []⟩]
  current := 0

instance : Inhabited SymbolTable := ⟨empty⟩

/-- Opens a scope inside the current one. -/
def enter (table : SymbolTable) (kind : ScopeKind) : SymbolTable :=
  { table with
    scopes := table.scopes.push ⟨table.scopes.size, some table.current, kind, []⟩
    current := table.scopes.size }

/-- Goes back to the enclosing scope; the global scope is never left. -/
def leave (table : SymbolTable) : SymbolTable :=
  match table.scopes[table.current]?.bind Scope.parent with
  | some parent => { table with current := parent }
  | none => table

/-- The index of the symbol that a scope binds a name to. -/
def getIn? (table : SymbolTable) (scope : Nat) (name : String) : Option Nat :=
  table.scopes[scope]?.bind (·.get? name)

/-- Binds a name to a symbol in a scope. -/
def bindName (scopes : Array Scope) (scope : Nat) (name : String) (symbol : Nat) : Array Scope :=
  scopes.modify scope fun s => { s with names := s.names ++ [(name, symbol)] }

/-- Declares a name in the current scope, and gives the index of its symbol. -/
def declare (table : SymbolTable) (name : String) (kind : SymbolKind) (line : Nat) (span : Span) :
    Except AlreadyDeclared (Nat × SymbolTable) :=
  match table.getIn? table.current name with
  | some previous =>
    .error ⟨name, previous, (table.symbols[previous]?.map Symbol.line).getD 0⟩
  | none =>
    .ok (table.symbols.size,
      { table with
        symbols := table.symbols.push ⟨name, kind, table.current, line, span⟩
        scopes := bindName table.scopes table.current name table.symbols.size })

/-- Looks a name up in a scope and then outward; a parent always has a smaller index. -/
def lookupFrom (table : SymbolTable) (scope : Nat) (name : String) : Option Nat :=
  match table.getIn? scope name with
  | some symbol => some symbol
  | none =>
    match table.scopes[scope]?.bind Scope.parent with
    | none => none
    | some parent => if parent < scope then lookupFrom table parent name else none
termination_by scope

/-- The symbol that a name means in the current scope. -/
def lookup (table : SymbolTable) (name : String) : Option Symbol :=
  (table.lookupFrom table.current name).bind (table.symbols[·]?)

/-- The symbols that a scope declares, in the order of declaration. -/
def symbolsIn (table : SymbolTable) (scope : Nat) : List Symbol :=
  table.symbols.toList.filter fun symbol => symbol.scope = scope

end SymbolTable

end CrudLang
