import CrudLang.Proofs.Grammar.Shape
import CrudLang.Scope.Checking

/-!
# Checking without places

Where the names of a program stand makes no difference to how they are checked: not to the scopes
and symbols of the table, apart from their lines and spans, and not to the kinds and messages of the
diagnostics (`Checking.outline_play`). The events of a program without spans are those of the
program, without spans (`Program.events_eraseSpans`).
-/

namespace CrudLang

/-- An event without the place of its name. -/
def Event.eraseSpan : Event → Event
  | .enter kind => .enter kind
  | .leave => .leave
  | .declare ident kind => .declare ident.eraseSpan kind
  | .use ident role => .use ident.eraseSpan role

section Events

/-- Entering and leaving a scope have no place to forget. -/
theorem Event.map_eraseSpan_inScope (kind : ScopeKind) (events : List Event) :
    (Event.inScope kind events).map Event.eraseSpan =
      Event.inScope kind (events.map Event.eraseSpan) := by
  simp [Event.inScope, Event.eraseSpan]

mutual

/-- Expressions that are equal up to spans use the same names in the same order. -/
theorem Expr.events_eraseSpans : ∀ expr : Expr,
    expr.eraseSpans.events = expr.events.map Event.eraseSpan
  | .number _ _ => rfl
  | .string _ _ => rfl
  | .bool _ _ => rfl
  | .name _ => rfl
  | .unary _ operand _ => Expr.events_eraseSpans operand
  | .binary _ left right _ => by
    rw [Expr.eraseSpans, Expr.events, Expr.events, List.map_append, Expr.events_eraseSpans left,
      Expr.events_eraseSpans right]
  | .assign target value _ => by
    rw [Expr.eraseSpans, Expr.events, Expr.events, List.map_cons, Expr.events_eraseSpans value]
    rfl
  | .call callee args _ => by
    rw [Expr.eraseSpans, Expr.events, Expr.events, List.map_cons, Expr.eventsOfAll_eraseSpans args]
    rfl
  | .new className args _ => by
    rw [Expr.eraseSpans, Expr.events, Expr.events, List.map_cons, Expr.eventsOfAll_eraseSpans args]
    rfl

/-- The same for the arguments of a call. -/
theorem Expr.eventsOfAll_eraseSpans : ∀ exprs : List Expr,
    Expr.eventsOfAll (Expr.eraseSpansOfAll exprs) = (Expr.eventsOfAll exprs).map Event.eraseSpan
  | [] => rfl
  | expr :: rest => by
    rw [Expr.eraseSpansOfAll, Expr.eventsOfAll, Expr.eventsOfAll, List.map_append,
      Expr.events_eraseSpans expr, Expr.eventsOfAll_eraseSpans rest]

end

/-- The same for an expression that may be missing. -/
theorem Expr.eventsOf?_eraseSpans (expr : Option Expr) :
    Expr.eventsOf? (expr.map Expr.eraseSpans) = (Expr.eventsOf? expr).map Event.eraseSpan := by
  cases expr with
  | none => rfl
  | some expr => exact expr.events_eraseSpans

mutual

/-- Statements that are equal up to spans have the same events up to the places of names. -/
theorem Stmt.events_eraseSpans : ∀ stmt : Stmt,
    stmt.eraseSpans.events = stmt.events.map Event.eraseSpan
  | .var name init _ => by
    rw [Stmt.eraseSpans, Stmt.events, Stmt.events, List.map_append, Expr.eventsOf?_eraseSpans]
    rfl
  | .const name value _ => by
    rw [Stmt.eraseSpans, Stmt.events, Stmt.events, List.map_append, Expr.events_eraseSpans]
    rfl
  | .func name params body _ => by
    rw [Stmt.eraseSpans, Stmt.events, Stmt.events, List.map_cons, Event.map_eraseSpan_inScope,
      List.map_append, Block.events_eraseSpans body, List.map_map, List.map_map]
    rfl
  | .class name members _ => by
    rw [Stmt.eraseSpans, Stmt.events, Stmt.events, List.map_cons, Event.map_eraseSpan_inScope,
      Stmt.eventsOfAll_eraseSpans members]
    rfl
  | .if condition body alternative _ => by
    rw [Stmt.eraseSpans, Stmt.events, Stmt.events, List.map_append, List.map_append,
      Event.map_eraseSpan_inScope, Expr.events_eraseSpans, Block.events_eraseSpans body,
      Stmt.eventsOfAlternative_eraseSpans alternative]
  | .loop body _ => by
    rw [Stmt.eraseSpans, Stmt.events, Stmt.events, Event.map_eraseSpan_inScope,
      Block.events_eraseSpans body]
  | .while condition body _ => by
    rw [Stmt.eraseSpans, Stmt.events, Stmt.events, List.map_append, Event.map_eraseSpan_inScope,
      Expr.events_eraseSpans, Block.events_eraseSpans body]
  | .crud op target args _ => by
    rw [Stmt.eraseSpans, Stmt.events, Stmt.events, List.map_cons, ← Expr.eraseSpansOfAll_eq_map,
      Expr.eventsOfAll_eraseSpans]
    rfl
  | .return value _ => Expr.eventsOf?_eraseSpans value
  | .block body => by
    rw [Stmt.eraseSpans, Stmt.events, Stmt.events, Event.map_eraseSpan_inScope,
      Block.events_eraseSpans body]
  | .expr expr _ => expr.events_eraseSpans
  | .error _ => rfl

/-- The same for the statements of a block, in a scope of their own. -/
theorem Block.events_eraseSpans : ∀ body : Block Stmt,
    Block.events (Block.eraseSpans body) = (Block.events body).map Event.eraseSpan
  | ⟨stmts, _⟩ => Stmt.eventsOfAll_eraseSpans stmts

/-- The same for statements one after the other. -/
theorem Stmt.eventsOfAll_eraseSpans : ∀ stmts : List Stmt,
    Stmt.eventsOfAll (Stmt.eraseSpansOfAll stmts) = (Stmt.eventsOfAll stmts).map Event.eraseSpan
  | [] => rfl
  | stmt :: rest => by
    rw [Stmt.eraseSpansOfAll, Stmt.eventsOfAll, Stmt.eventsOfAll, List.map_append,
      Stmt.events_eraseSpans stmt, Stmt.eventsOfAll_eraseSpans rest]

/-- The same for what stands behind `else`. -/
theorem Stmt.eventsOfAlternative_eraseSpans : ∀ stmt : Option Stmt,
    Stmt.eventsOfAlternative (Stmt.eraseSpansOf? stmt) =
      (Stmt.eventsOfAlternative stmt).map Event.eraseSpan
  | none => rfl
  | some stmt => by
    have h := Stmt.events_eraseSpans stmt
    cases stmt with
    | block body =>
      rw [Stmt.eraseSpansOf?, Stmt.eraseSpans, Stmt.eventsOfAlternative, Stmt.eventsOfAlternative,
        Event.map_eraseSpan_inScope, Block.events_eraseSpans body]
    | _ => exact h

end

/-- The events of a program without spans are those of the program, without places. -/
theorem Program.events_eraseSpans (program : Program) :
    program.eraseSpans.events = program.events.map Event.eraseSpan := by
  rw [Program.events, Program.events, Program.eraseSpans, ← Stmt.eraseSpansOfAll_eq_map,
    Stmt.eventsOfAll_eraseSpans]

end Events

/-- A symbol without the place of its declaration. -/
def Symbol.erasePlace (symbol : Symbol) : Symbol :=
  { symbol with line := 0, span := default }

namespace SymbolTable

/-- A table without the places of its symbols. -/
def erasePlaces (table : SymbolTable) : SymbolTable :=
  { table with symbols := table.symbols.map Symbol.erasePlace }

variable {table table' : SymbolTable}

/-- A search through scopes goes by names and parents only. -/
theorem lookupFrom_erasePlaces (table : SymbolTable) (scope : Nat) (name : String) :
    table.erasePlaces.lookupFrom scope name = table.lookupFrom scope name := by
  -- names are looked up in the scopes alone, outward along the parents
  induction scope using Nat.strongRecOn with
  | ind scope ih =>
    have hget : table.erasePlaces.getIn? scope name = table.getIn? scope name := rfl
    rw [lookupFrom, lookupFrom, hget, show table.erasePlaces.scopes = table.scopes from rfl]
    split
    · rfl
    split
    · rfl
    split
    next parent _ hless => exact ih parent hless
    next => rfl

/-- So it finds the same symbol, except for its place. -/
theorem lookup_erasePlaces (table : SymbolTable) (name : String) :
    table.erasePlaces.lookup name = (table.lookup name).map Symbol.erasePlace := by
  rw [lookup, lookup, lookupFrom_erasePlaces, Option.map_bind]
  congr 1
  funext i
  exact Array.getElem?_map

/-- Leaving a scope touches no symbol. -/
theorem erasePlaces_leave : table.leave.erasePlaces = table.erasePlaces.leave := by
  unfold leave
  rw [show table.erasePlaces.scopes = table.scopes from rfl,
    show table.erasePlaces.current = table.current from rfl]
  split <;> rfl

/-- Whether a name can be declared does not depend on places. -/
theorem declare_cases (h : table.erasePlaces = table'.erasePlaces) (name : String)
    (kind : SymbolKind) (line line' : Nat) (span span' : Span) :
    (∃ i t i' t', table.declare name kind line span = .ok (i, t) ∧
      table'.declare name kind line' span' = .ok (i', t') ∧ t.erasePlaces = t'.erasePlaces) ∨
    ∃ refusal refusal', table.declare name kind line span = .error refusal ∧
      table'.declare name kind line' span' = .error refusal' := by
  have hscopes : table.scopes = table'.scopes := (congrArg SymbolTable.scopes h :)
  have hcurrent : table.current = table'.current := (congrArg SymbolTable.current h :)
  have hsymbols : table.symbols.map Symbol.erasePlace = table'.symbols.map Symbol.erasePlace :=
    congrArg SymbolTable.symbols h
  have hsize : table.symbols.size = table'.symbols.size := by
    simpa using congrArg Array.size hsymbols
  have hget : table.getIn? table.current name = table'.getIn? table'.current name := by
    rw [getIn?, getIn?, hscopes, hcurrent]
  rw [declare, declare, ← hget]
  -- a name is refused if it is taken in the current scope
  cases table.getIn? table.current name with
  | some previous => exact .inr ⟨_, _, rfl, rfl⟩
  | none =>
    refine .inl ⟨_, _, _, _, rfl, rfl, ?_⟩
    simp only [erasePlaces, Array.map_push, hsymbols, hscopes, hcurrent, hsize]
    rfl

end SymbolTable

/-- The kinds and messages of diagnostics. -/
def Diagnostics.outline (diagnostics : Diagnostics) : List (DiagnosticKind × String) :=
  diagnostics.map fun d => (d.kind, d.message)

namespace Checking

/-- Up to places, two states of checking are the same. -/
structure Alike (s s' : Checking) : Prop where
  table : s.table.erasePlaces = s'.table.erasePlaces
  diagnostics : Diagnostics.outline s.diagnostics = Diagnostics.outline s'.diagnostics

variable {lines lines' : LineIndex} {s s' : Checking}

/-- Reports of the same kind with the same message keep two checks alike, whatever their places. -/
theorem Alike.report {error error' : ScopeError} (h : Alike s s')
    (hkind : (error.diagnostic lines).kind = (error'.diagnostic lines').kind)
    (hmessage : (error.diagnostic lines).message = (error'.diagnostic lines').message) :
    Alike (s.report lines error) (s'.report lines' error') := by
  refine ⟨h.table, ?_⟩
  have hdiagnostics := h.diagnostics
  rw [Diagnostics.outline, Diagnostics.outline] at hdiagnostics
  rw [Diagnostics.outline, Diagnostics.outline, Checking.report, Checking.report,
    Diagnostics.report, Diagnostics.report, List.map_append, List.map_append, hdiagnostics,
    List.map_singleton, List.map_singleton, hkind, hmessage]

/-- Declarations of the same name keep two checks alike. -/
theorem Alike.declare {ident ident' : Ident} (h : Alike s s') (hname : ident.name = ident'.name)
    (kind : SymbolKind) :
    Alike (s.declare lines ident kind) (s'.declare lines' ident' kind) := by
  rw [Checking.declare, Checking.declare, ← hname]
  rcases SymbolTable.declare_cases h.table ident.name kind (lines.lineOf ident.span.start)
      (lines'.lineOf ident'.span.start) ident.span ident'.span with
    ⟨i, t, i', t', ht, ht', htable⟩ | ⟨refusal, refusal', hr, hr'⟩
  · rw [ht, ht']
    exact ⟨htable, h.diagnostics⟩
  · rw [hr, hr']
    refine h.report rfl ?_
    rw [ScopeError.diagnostic, ScopeError.diagnostic, hname]

/-- Uses of the same name keep two checks alike. -/
theorem Alike.use {ident ident' : Ident} (h : Alike s s') (hname : ident.name = ident'.name)
    (role : Role) : Alike (s.use lines ident role) (s'.use lines' ident' role) := by
  have hsymbol : (s.table.lookup ident.name).map Symbol.erasePlace =
      (s'.table.lookup ident.name).map Symbol.erasePlace := by
    rw [← SymbolTable.lookup_erasePlaces, h.table, SymbolTable.lookup_erasePlaces]
  rw [Checking.use, Checking.use, ← hname]
  cases hs : s.table.lookup ident.name with
  | none =>
    rw [hs, Option.map_none, eq_comm, Option.map_eq_none_iff] at hsymbol
    rw [hsymbol]
    refine h.report rfl ?_
    rw [ScopeError.diagnostic, ScopeError.diagnostic, hname]
  | some symbol =>
    rw [hs, Option.map_some, eq_comm, Option.map_eq_some_iff] at hsymbol
    obtain ⟨symbol', hs', herase⟩ := hsymbol
    -- whether the symbol may be used as it is depends on its kind alone
    have hkind : symbol.kind = symbol'.kind := (congrArg Symbol.kind herase :).symm
    rw [hs']
    dsimp only
    rw [← hkind]
    split
    · exact h
    · refine h.report rfl ?_
      rw [ScopeError.diagnostic, ScopeError.diagnostic, hname, hkind]

/-- One event is played alike in alike states, wherever its name stands. -/
theorem Alike.step {event event' : Event} (h : Alike s s')
    (hevent : event.eraseSpan = event'.eraseSpan) :
    Alike (s.step lines event) (s'.step lines' event') := by
  -- apart from their places the two events are the same
  cases event with
  | enter kind =>
    cases event' with
    | enter kind' =>
      obtain rfl : kind = kind' := Event.enter.inj hevent
      exact ⟨congrArg (SymbolTable.enter · kind) h.table, h.diagnostics⟩
    | _ => cases hevent
  | leave =>
    cases event' with
    | leave =>
      refine ⟨?_, h.diagnostics⟩
      rw [Checking.step, Checking.step, SymbolTable.erasePlaces_leave, h.table,
        SymbolTable.erasePlaces_leave]
    | _ => cases hevent
  | declare ident kind =>
    cases event' with
    | declare ident' kind' =>
      obtain ⟨hident, rfl⟩ := Event.declare.inj hevent
      have hname : ident.name = ident'.name := (congrArg Ident.name hident :)
      exact h.declare hname kind
    | _ => cases hevent
  | use ident role =>
    cases event' with
    | use ident' role' =>
      obtain ⟨hident, rfl⟩ := Event.use.inj hevent
      have hname : ident.name = ident'.name := (congrArg Ident.name hident :)
      exact h.use hname role
    | _ => cases hevent

/-- Events are played alike, wherever their names stand. -/
theorem Alike.play {events events' : List Event} (h : Alike s s')
    (hevents : events.map Event.eraseSpan = events'.map Event.eraseSpan) :
    Alike (s.play lines events) (s'.play lines' events') := by
  induction events generalizing s s' events' with
  | nil =>
    rw [List.map_nil, eq_comm, List.map_eq_nil_iff] at hevents
    rw [hevents]
    exact h
  | cons event events ih =>
    rw [List.map_cons, eq_comm] at hevents
    obtain ⟨event', rest', rfl, hevent, hrest⟩ := List.map_eq_cons_iff.1 hevents
    rw [Checking.play, Checking.play, List.foldl_cons, List.foldl_cons]
    exact ih (h.step hevent.symm) hrest.symm

end Checking

end CrudLang
