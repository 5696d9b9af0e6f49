import CrudLang.Source.Span

/-!
# Symbols and scopes

A symbol is a declared name with its kind and the place of its declaration. Scopes are of the kind
of the construct that opens them.
-/

namespace CrudLang

/-- What a declared name stands for. -/
inductive SymbolKind where
  | variable
  | constant
  | function
  | «class»
deriving DecidableEq, Repr, Inhabited

namespace SymbolKind

/-- The name of a kind in messages. -/
def text : SymbolKind → String
  | .variable => "variable"
  | .constant => "constant"
  | .function => "function"
  | .class => "class"

end SymbolKind

/-- What opens a scope. -/
inductive ScopeKind where
  | global
  | function
  | «class»
  | block
  | loop
  | conditional
deriving DecidableEq, Repr, Inhabited

namespace ScopeKind

/-- The name of a kind in symbol listings. -/
def text : ScopeKind → String
  | .global => "Global"
  | .function => "Function"
  | .class => "Class"
  | .block => "Block"
  | .loop => "Loop"
  | .conditional => "Conditional"

end ScopeKind

/-- A declared name. -/
structure Symbol where
  /-- The name. -/
  name : String
  /-- What it stands for. -/
  kind : SymbolKind
  /-- The index of the scope that it is declared in. -/
  scope : Nat
  /-- The line of its declaration, counted from 1. -/
  line : Nat
  /-- Where the name stands in its declaration. -/
  span : Span
deriving DecidableEq, Repr, Inhabited

end CrudLang
