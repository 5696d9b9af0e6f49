import CrudLang.Proofs.Grammar.Identifiers
import CrudLang.Proofs.Scope.Growth

/-!
# Declarations are accounted for

Each place of a program that declares a name either adds a symbol to the table or is reported, and
nothing else adds a symbol. `Program.entries` reads these places off a program, in the order in
which they are visited and each with the number of the scope that it declares in. `Accounts` deals
them out to new symbols and reports, in order.

Playing a run of events keeps the accounts (`Settles`), which is proved along the tree. As the
identifiers of a program stand in different tokens, and each event reports at its own identifier at
most once, no two reports are at the same place.
-/

namespace CrudLang

/-- A place that declares a name. -/
structure Entry where
  /-- The name, where it is declared. -/
  ident : Ident
  /-- What it is declared as. -/
  kind : SymbolKind
  /-- The number of the scope that it is declared in. -/
  scope : Nat
deriving DecidableEq, Repr

namespace Entry

variable (lines : LineIndex) (entry : Entry)

/-- The symbol for a declaration that is accepted. -/
def symbol : Symbol :=
  ⟨entry.ident.name, entry.kind, entry.scope, lines.lineOf entry.ident.span.start, entry.ident.span⟩

/-- The report on a declaration that is refused because of a symbol. -/
def refusal (bound : Symbol) : Diagnostic where
  kind := .redeclaredIdentifier
  message := s!"'{entry.ident.name}' is already declared in this scope"
  line := lines.lineOf entry.ident.span.start
  primary := ⟨entry.ident.span, "redeclared here"⟩
  secondary := [⟨bound.span, "previously declared here"⟩]
  notes := [s!"first declaration is on line {bound.line}"]

end Entry

open ScopeTree

mutual

/-- The declarations of a statement that stands in a scope. The scopes that it opens are numbered
from `first` on. -/
def Stmt.entries (first scope : Nat) : Stmt → List Entry
  | .var name _ _ => [⟨name, .variable, scope⟩]
  | .const name _ _ => [⟨name, .constant, scope⟩]
  | .func name params body _ =>
    ⟨name, .function, scope⟩ ::
      (params.map (fun param => ⟨param, .variable, first⟩) ++ Block.entries (first + 1) first body)
  | .class name members _ =>
    ⟨name, .class, scope⟩ :: Stmt.entriesOfAll (first + 1) first members
  | .if _ body alternative _ =>
    Block.entries (first + 1) first body ++
      Stmt.entriesOf? (first + (1 + sizeOfAll (Block.scopeTrees body))) scope alternative
  | .loop body _ | .while _ body _ | .block body => Block.entries (first + 1) first body
  | .crud _ _ _ _ | .return _ _ | .expr _ _ | .error _ => []

/-- The declarations of the statements of a block. -/
def Block.entries (first scope : Nat) : Block Stmt → List Entry
  | ⟨stmts, _⟩ => Stmt.entriesOfAll first scope stmts

/-- The declarations of statements, one after the other. -/
def Stmt.entriesOfAll (first scope : Nat) : List Stmt → List Entry
  | [] => []
  | stmt :: rest =>
    stmt.entries first scope ++ Stmt.entriesOfAll (first + sizeOfAll stmt.scopeTrees) scope rest

/-- The declarations of a statement that may be missing. -/
def Stmt.entriesOf? (first scope : Nat) : Option Stmt → List Entry
  | none => []
  | some stmt => stmt.entries first scope

end

/-- The declarations of a program that stands in a scope. -/
def Program.entries (first scope : Nat) (program : Program) : List Entry :=
  Stmt.entriesOfAll first scope program.stmts

/-- Declarations are dealt out in order. One that is accepted is a symbol of its own, and one that
is refused is reported, with the symbol that its name stays bound to in the table. -/
inductive Accounts (lines : LineIndex) (table : SymbolTable) :
    List Entry → List Symbol → Diagnostics → Prop
  | nil : Accounts lines table [] [] []
  | accepted {entry entries symbols reports} : Accounts lines table entries symbols reports →
      Accounts lines table (entry :: entries) (entry.symbol lines :: symbols) reports
  | refused {entry entries symbols reports n} {bound : Symbol} :
      table.getIn? entry.scope entry.ident.name = some n → table.symbols[n]? = some bound →
      Accounts lines table entries symbols reports →
      Accounts lines table (entry :: entries) symbols (entry.refusal lines bound :: reports)

namespace Accounts

variable {lines : LineIndex} {table later : SymbolTable} {entries entries' : List Entry}
variable {symbols symbols' : List Symbol} {reports reports' : Diagnostics}

/-- What names are bound to does not change when the table grows. -/
theorem mono (h : Accounts lines table entries symbols reports) (hlater : table.Extends later) :
    Accounts lines later entries symbols reports := by
  induction h with
  | nil => exact .nil
  | accepted _ ih => exact .accepted ih
  | refused hn hbound _ ih => exact .refused (hlater.bound hn) (hlater.symbol hbound) ih

theorem append (h : Accounts lines table entries symbols reports)
    (h' : Accounts lines table entries' symbols' reports') :
    Accounts lines table (entries ++ entries') (symbols ++ symbols') (reports ++ reports') := by
  induction h with
  | nil => exact h'
  | accepted _ ih => exact .accepted ih
  | refused hn hbound _ ih => exact .refused hn hbound ih

end Accounts

theorem SymbolTable.symbols_leave (table : SymbolTable) : table.leave.symbols = table.symbols := by
  rw [leave]
  split <;> rfl

namespace Checking

variable (lines : LineIndex) (s : Checking)

theorem extends_play (events : List Event) : s.table.Extends (s.play lines events).table := by
  rw [table_play]
  exact s.table.extends_afterAll _

theorem wellFormed_play (h : s.table.WellFormed) (events : List Event) :
    (s.play lines events).table.WellFormed := by
  rw [table_play]
  exact h.afterAll _

end Checking

/-- Playing the events deals out the declarations of a scope, given the number of the first scope
that is opened. What is reported is at identifiers of the events, in order. -/
def Settles (lines : LineIndex) (events : List Event) (entries : Nat → Nat → List Entry) : Prop :=
  ∀ s : Checking, s.table.WellFormed → ∃ symbols reports,
    (s.play lines events).table.symbols.toList = s.table.symbols.toList ++ symbols ∧
      (s.play lines events).diagnostics = s.diagnostics ++ reports ∧
      Accounts lines (s.play lines events).table (entries s.table.scopes.size s.table.current)
        symbols (reports.filter (·.kind = .redeclaredIdentifier)) ∧
      (reports.map (·.primary.span)).Sublist ((Event.idents events).map Ident.span)

namespace Settles

variable {lines : LineIndex} {events events' : List Event} {trees : List ScopeTree}
variable {entries entries' : Nat → Nat → List Entry}

theorem nil : Settles lines [] fun _ _ => [] :=
  fun _ _ => ⟨[], [], (List.append_nil _).symm, (List.append_nil _).symm, .nil, .slnil⟩

/-- Events are played one run after the other. -/
theorem append (h : Settles lines events entries) (h' : Settles lines events' entries')
    (hopens : Opens lines events trees) :
    Settles lines (events ++ events') fun first scope =>
      entries first scope ++ entries' (first + sizeOfAll trees) scope := by
  intro s hs
  obtain ⟨symbols, reports, hsymbols, hreports, haccounts, hspans⟩ := h s hs
  obtain ⟨symbols', reports', hsymbols', hreports', haccounts', hspans'⟩ :=
    h' _ (s.wellFormed_play lines hs events)
  -- the first run leaves the current scope and opens as many scopes as there are trees
  rw [(hopens s).1, hopens.size] at haccounts'
  have hplay : s.play lines (events ++ events') = (s.play lines events).play lines events' :=
    List.foldl_append
  rw [hplay]
  refine ⟨symbols ++ symbols', reports ++ reports', ?_, ?_, ?_, ?_⟩
  · rw [hsymbols', hsymbols, List.append_assoc]
  · rw [hreports', hreports, List.append_assoc]
  · rw [List.filter_append]
    exact (haccounts.mono (Checking.extends_play lines _ events')).append haccounts'
  · rw [Event.idents_append, List.map_append, List.map_append]
    exact hspans.append hspans'

/-- A name that is declared becomes a symbol, or it is reported. -/
theorem declare (ident : Ident) (kind : SymbolKind) :
    Settles lines [.declare ident kind] fun _ scope => [⟨ident, kind, scope⟩] := by
  intro s hs
  show ∃ symbols reports, (s.declare lines ident kind).table.symbols.toList = _ ∧
    (s.declare lines ident kind).diagnostics = _ ∧
      Accounts lines (s.declare lines ident kind).table _ _ _ ∧ _
  cases hname : s.table.getIn? s.table.current ident.name with
  | none =>
    -- a new name gives one symbol and no report
    rw [Checking.declare, SymbolTable.declare_eq_ok hname]
    exact ⟨[_], [], Array.toList_push, (List.append_nil _).symm, .accepted .nil,
      List.nil_sublist _⟩
  | some n =>
    -- a name that is bound gives one report and no symbol
    obtain ⟨bound, hbound, -, -⟩ := hs.binding hname
    rw [Checking.declare, SymbolTable.declare, hname]
    dsimp only
    rw [hbound]
    exact ⟨[], [Entry.refusal lines ⟨ident, kind, s.table.current⟩ bound],
      (List.append_nil _).symm, rfl, .refused hname hbound .nil, List.Sublist.refl _⟩

/-- A name that is used adds no symbol. -/
theorem use (ident : Ident) (role : Role) : Settles lines [.use ident role] fun _ _ => [] := by
  intro s _
  show ∃ symbols reports, (s.use lines ident role).table.symbols.toList = _ ∧
    (s.use lines ident role).diagnostics = _ ∧
      Accounts lines (s.use lines ident role).table _ _ _ ∧ _
  rw [Checking.use]
  split
  · exact ⟨[], [_], (List.append_nil _).symm, rfl, .nil, List.Sublist.refl _⟩
  split
  · exact ⟨[], [], (List.append_nil _).symm, (List.append_nil _).symm, .nil, List.nil_sublist _⟩
  · exact ⟨[], [_], (List.append_nil _).symm, rfl, .nil, List.Sublist.refl _⟩

/-- A scope has the number that was free when it was opened, and those inside have the next ones. -/
theorem inScope (kind : ScopeKind) (h : Settles lines events entries) :
    Settles lines (Event.inScope kind events) fun first _ => entries (first + 1) first := by
  intro s hs
  let opened : Checking := { s with table := s.table.enter kind }
  obtain ⟨symbols, reports, hsymbols, hreports, haccounts, hspans⟩ := h opened (hs.enter kind)
  have hplay : s.play lines (Event.inScope kind events) =
      { opened.play lines events with table := (opened.play lines events).table.leave } :=
    List.foldl_append
  rw [hplay, Event.idents_inScope]
  refine ⟨symbols, reports, ?_, hreports, ?_, hspans⟩
  · exact (congrArg Array.toList (SymbolTable.symbols_leave _)).trans hsymbols
  · have hsize : opened.table.scopes.size = s.table.scopes.size + 1 := Array.size_push _
    rw [hsize] at haccounts
    exact haccounts.mono (SymbolTable.extends_leave _)

end Settles

section Trees

variable (lines : LineIndex)

mutual

/-- An expression declares nothing. -/
theorem Expr.settles : (e : Expr) → Settles lines e.events fun _ _ => []
  | .number _ _ | .string _ _ | .bool _ _ => .nil
  | .name ident => .use ident .value
  | .unary _ operand _ => Expr.settles operand
  | .binary _ left right _ => (Expr.settles left).append (Expr.settles right) (left.opens lines)
  | .assign target value _ =>
    (Settles.use target .assignment).append (Expr.settles value) (.use target .assignment)
  | .call callee args _ =>
    (Settles.use callee .call).append (Expr.settlesOfAll args) (.use callee .call)
  | .new className args _ =>
    (Settles.use className .instantiation).append (Expr.settlesOfAll args)
      (.use className .instantiation)

theorem Expr.settlesOfAll : (exprs : List Expr) →
    Settles lines (Expr.eventsOfAll exprs) fun _ _ => []
  | [] => .nil
  | expr :: rest => (Expr.settles expr).append (Expr.settlesOfAll rest) (expr.opens lines)

end

theorem Expr.settlesOf? : (expr : Option Expr) → Settles lines (Expr.eventsOf? expr) fun _ _ => []
  | none => .nil
  | some expr => expr.settles lines

theorem settles_params (params : List Ident) :
    Settles lines (params.map fun param => .declare param .variable) fun _ scope =>
      params.map fun param => ⟨param, .variable, scope⟩ := by
  induction params with
  | nil => exact .nil
  | cons param params ih => exact (Settles.declare param .variable).append ih (.declare _ _)

mutual

/-- A statement makes its declarations. -/
theorem Stmt.settles (stmt : Stmt) :
    Settles lines stmt.events fun first scope => stmt.entries first scope := by
  match stmt with
  | .var name init _ =>
    exact (Expr.settlesOf? lines init).append (.declare name .variable) (Expr.opensOf? lines init)
  | .const name value _ =>
    exact (value.settles lines).append (.declare name .constant) (value.opens lines)
  -- parameters and body share the scope of the function
  | .func name params body _ =>
    exact (Settles.declare name .function).append
      (.inScope .function
        ((settles_params lines params).append (Block.settles body) (opens_params lines params)))
      (.declare name .function)
  | .class name members _ =>
    exact (Settles.declare name .class).append (.inScope .class (Stmt.settlesOfAll members))
      (.declare name .class)
  | .if condition body alternative _ =>
    exact ((condition.settles lines).append (.inScope .conditional (Block.settles body))
      (condition.opens lines)).append (Stmt.settlesOfAlternative alternative)
        ((condition.opens lines).append (.inScope .conditional (Block.opens lines body)))
  | .loop body _ => exact .inScope .loop (Block.settles body)
  | .while condition body _ =>
    exact (condition.settles lines).append (.inScope .loop (Block.settles body))
      (condition.opens lines)
  | .crud op target args _ =>
    exact (Settles.use target (.crud op)).append (Expr.settlesOfAll lines args) (.use target _)
  | .return value _ => exact Expr.settlesOf? lines value
  | .block body => exact .inScope .block (Block.settles body)
  | .expr expr _ => exact expr.settles lines
  | .error _ => exact .nil

theorem Block.settles (body : Block Stmt) :
    Settles lines (Block.events body) fun first scope => Block.entries first scope body := by
  match body with
  | ⟨stmts, _⟩ => exact Stmt.settlesOfAll stmts

theorem Stmt.settlesOfAll (stmts : List Stmt) :
    Settles lines (Stmt.eventsOfAll stmts) fun first scope =>
      Stmt.entriesOfAll first scope stmts := by
  match stmts with
  | [] => exact .nil
  | stmt :: rest =>
    exact (Stmt.settles stmt).append (Stmt.settlesOfAll rest) (Stmt.opens lines stmt)

/-- A block behind `else` opens a scope of another kind and makes the same declarations. -/
theorem Stmt.settlesOfAlternative (alternative : Option Stmt) :
    Settles lines (Stmt.eventsOfAlternative alternative) fun first scope =>
      Stmt.entriesOf? first scope alternative := by
  match alternative with
  | none => exact .nil
  | some (.block body) => exact .inScope .conditional (Block.settles body)
  | some (.var _ _ _) | some (.const _ _ _) | some (.func _ _ _ _) | some (.class _ _ _)
  | some (.if _ _ _ _) | some (.loop _ _) | some (.while _ _ _) | some (.crud _ _ _ _)
  | some (.return _ _) | some (.expr _ _) | some (.error _) => exact Stmt.settles _

end

end Trees

/-- The declarations of a program are accounted for: in the order in which they are visited, each is
a symbol that is new in the table, with its name, kind, scope, line and span, or it is reported as a
redeclaration, with the place and the line of the symbol that its name stays bound to. There are no
other new symbols and no other reports of redeclarations. If the program was read from tokens that
have different spans, such as those of a source text, no two reports have the same primary span. -/
theorem Checking.declarations_accounted (lines : LineIndex) (s : Checking)
    (h : s.table.WellFormed) (program : Program) :
    ∃ symbols reports,
      (s.program lines program).table.symbols.toList = s.table.symbols.toList ++ symbols ∧
      (s.program lines program).diagnostics = s.diagnostics ++ reports ∧
      Accounts lines (s.program lines program).table
        (program.entries s.table.scopes.size s.table.current) symbols
        (reports.filter (·.kind = .redeclaredIdentifier)) ∧
      ∀ tokens, (Parsing.ofTokens tokens).program = some program →
        ((tokens.map Token.span).Nodup ∨ ∃ source, tokens = (Lexing.ofSource source).tokens) →
          (reports.map (·.primary.span)).Nodup := by
  obtain ⟨symbols, reports, hsymbols, hreports, haccounts, hspans⟩ :=
    Stmt.settlesOfAll lines program.stmts s h
  refine ⟨symbols, reports, hsymbols, hreports, haccounts, fun tokens hprogram htokens => ?_⟩
  have hnodup : (tokens.map Token.span).Nodup := by
    rcases htokens with htokens | ⟨source, rfl⟩
    · exact htokens
    · exact (Lexed.chunks (.ofSource source) 0 source.toList).nodup_spans
  exact (Parsing.nodup_idents hprogram hnodup).sublist hspans

/-- A parameter, and a variable of the same name in the body of the function. -/
theorem Checking.declarations_accounted_parameter :
    let source := "func f(x) { var x }"
    let lines := LineIndex.ofSource source
    let f : Ident := ⟨"f", ⟨5, 6⟩⟩
    let x : Ident := ⟨"x", ⟨7, 8⟩⟩
    let x' : Ident := ⟨"x", ⟨16, 17⟩⟩
    let program : Program :=
      ⟨[.func f [x] ⟨[.var x' none ⟨12, 17⟩], ⟨10, 19⟩⟩ ⟨0, 19⟩], ⟨0, 19⟩⟩
    start.table.WellFormed ∧
      (Parsing.ofTokens (Lexing.ofSource source).tokens).program = some program ∧
      ∃ symbols reports,
        (start.program lines program).table.symbols.toList = symbols ∧
        (start.program lines program).diagnostics = reports ∧
        Accounts lines (start.program lines program).table
          [⟨f, .function, 0⟩, ⟨x, .variable, 1⟩, ⟨x', .variable, 1⟩] symbols
          (reports.filter (·.kind = .redeclaredIdentifier)) ∧
        (reports.map (·.primary.span)).Nodup := by
  intro source lines f x x' program
  have htable : start.table.WellFormed := .empty
  have htokens : (Lexing.ofSource source).tokens =
      [⟨.keyword .func, "func", 1, ⟨0, 4⟩⟩, ⟨.identifier "f", "f", 1, ⟨5, 6⟩⟩,
        ⟨.punctuator .leftParen, "(", 1, ⟨6, 7⟩⟩, ⟨.identifier "x", "x", 1, ⟨7, 8⟩⟩,
        ⟨.punctuator .rightParen, ")", 1, ⟨8, 9⟩⟩, ⟨.punctuator .leftBrace, "\x7b", 1, ⟨10, 11⟩⟩,
        ⟨.keyword .var, "var", 1, ⟨12, 15⟩⟩, ⟨.identifier "x", "x", 1, ⟨16, 17⟩⟩,
        ⟨.punctuator .rightBrace, "\x7d", 1, ⟨18, 19⟩⟩] := by decide +kernel
  have hprogram : (Parsing.ofTokens (Lexing.ofSource source).tokens).program = some program := by
    rw [htokens]
    cbv
  obtain ⟨symbols, reports, hsymbols, hreports, haccounts, hnodup⟩ :=
    declarations_accounted lines start htable program
  exact ⟨htable, hprogram, symbols, reports, hsymbols, hreports, haccounts,
    hnodup _ hprogram (.inr ⟨source, rfl⟩)⟩

end CrudLang
