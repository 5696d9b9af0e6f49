import CrudLang.Proofs.Scope.Consistency
import CrudLang.Proofs.Scope.Nesting

/-!
# Symbol tables only grow

Diagnostics refer to earlier symbols by their indices, so nothing that a table holds may ever be
overwritten or renumbered. `SymbolTable.Extends` says that a table holds all that another one holds,
at the same indices, and that names stay bound as they were. Every call of a table extends it, and
the checking of a program is a sequence of calls, so any history of calls and programs does
(`SymbolTable.only_grows`).

A declaration is refused exactly if the current scope already binds the name, and then it changes
nothing. What it names is the first symbol of that name and that scope, since a scope binds a name
to nothing else (`SymbolTable.WellFormed.getIn?_eq_firstDeclared?`).
-/

namespace CrudLang

namespace SymbolTable

/-- A later table holds all that an earlier one holds: symbols and scopes keep their indices and
what is known of them, and a name that is bound stays bound to the same symbol. -/
structure Extends (table later : SymbolTable) : Prop where
  symbols : table.symbols.toList <+: later.symbols.toList
  nodes : table.nodes <+: later.nodes
  bound {i n : Nat} {name : String} : table.getIn? i name = some n →
    later.getIn? i name = some n

namespace Extends

variable {table later last : SymbolTable}

theorem refl (table : SymbolTable) : table.Extends table :=
  ⟨List.prefix_refl _, List.prefix_refl _, id⟩

theorem trans (h : table.Extends later) (h' : later.Extends last) : table.Extends last where
  symbols := h.symbols.trans h'.symbols
  nodes := h.nodes.trans h'.nodes
  bound hn := h'.bound (h.bound hn)

/-- A symbol keeps its index. -/
theorem symbol (h : table.Extends later) {n : Nat} {symbol : Symbol}
    (hn : table.symbols[n]? = some symbol) : later.symbols[n]? = some symbol := by
  obtain ⟨more, hmore⟩ := h.symbols
  rw [← Array.getElem?_toList] at hn ⊢
  rw [← hmore, List.getElem?_append_left (List.getElem?_eq_some_iff.1 hn).1, hn]

end Extends

section Calls

variable (table : SymbolTable)

theorem extends_enter (kind : ScopeKind) : table.Extends (table.enter kind) where
  symbols := List.prefix_refl _
  nodes := by
    rw [nodes_enter]
    exact List.prefix_append _ _
  bound hn := by rwa [getIn?_enter]

/-- Leaving a scope moves to its parent and changes nothing else. -/
theorem extends_leave : table.Extends table.leave := by
  rw [leave]
  split
  next => exact ⟨List.prefix_refl _, List.prefix_refl _, id⟩
  next => exact .refl table

theorem extends_insert (symbol : Symbol) : table.Extends (table.insert symbol) where
  symbols := by
    rw [insert, Array.toList_push]
    exact List.prefix_append _ _
  nodes := (nodes_insert symbol).symm ▸ List.prefix_refl _
  bound {i n name} hn := by
    by_cases hcurrent : table.current < table.scopes.size
    · exact getIn?_insert_of_eq_some hcurrent hn
    · -- there is no scope to bind the name in
      have hi : i ≠ table.current := by
        rintro rfl
        exact hcurrent (lt_size_of_getIn? hn)
      rwa [getIn?, insert, bindName, Array.getElem?_modify, if_neg hi.symm]

/-- Every call extends the table. -/
theorem extends_after (call : Call) : table.Extends (table.after call) := by
  cases call with
  | enter kind => exact table.extends_enter kind
  | leave => exact table.extends_leave
  | declare name kind line span =>
    cases hname : table.getIn? table.current name with
    | some n =>
      rw [after_declare_of_some hname]
      exact .refl table
    | none =>
      rw [after_declare_of_none hname]
      exact table.extends_insert _
  | lookup name => exact .refl table

theorem extends_afterAll (calls : List Call) : table.Extends (table.afterAll calls) := by
  induction calls generalizing table with
  | nil => exact .refl table
  | cons call calls ih => exact (table.extends_after call).trans (ih (table.after call))

theorem afterAll_append (calls more : List Call) :
    table.afterAll (calls ++ more) = (table.afterAll calls).afterAll more :=
  List.foldl_append

end Calls

end SymbolTable

open SymbolTable (Call)

/-- What an event asks of the table. -/
def Event.call (lines : LineIndex) : Event → Call
  | .enter kind => .enter kind
  | .leave => .leave
  | .declare ident kind => .declare ident.name kind (lines.lineOf ident.span.start) ident.span
  | .use ident _ => .lookup ident.name

namespace Checking

variable (lines : LineIndex) (s : Checking)

/-- What is reported makes no difference to the table. -/
theorem table_step (event : Event) :
    (s.step lines event).table = s.table.after (event.call lines) := by
  cases event with
  | enter | leave => rfl
  | declare ident kind =>
    rw [step, declare, Event.call, SymbolTable.after]
    cases s.table.declare ident.name kind (lines.lineOf ident.span.start) ident.span with
    | ok declared => rfl
    | error refusal => rfl
  | use ident role =>
    rw [step, use]
    split
    next => rfl
    next => split <;> rfl

/-- The checking of a program is a sequence of calls of the table. -/
theorem table_play (events : List Event) :
    (s.play lines events).table = s.table.afterAll (events.map (Event.call lines)) := by
  induction events generalizing s with
  | nil => rfl
  | cons event events ih =>
    rw [List.map_cons, SymbolTable.afterAll, List.foldl_cons, ← table_step]
    exact ih (s.step lines event)

end Checking

namespace SymbolTable

/-- What is done with a table in the course of time. -/
inductive Action where
  /-- It is called. -/
  | call (call : Call)
  /-- A program is checked, with some diagnostics reported before. -/
  | check (lines : LineIndex) (diagnostics : Diagnostics) (program : Program)

/-- The table after an action. -/
def perform (table : SymbolTable) : Action → SymbolTable
  | .call request => table.after request
  | .check lines diagnostics program => (Checking.program lines ⟨table, diagnostics⟩ program).table

/-- The table after actions, one after the other. -/
def performAll (table : SymbolTable) (actions : List Action) : SymbolTable :=
  actions.foldl perform table

/-- The calls that an action is made of. -/
def Action.calls : Action → List Call
  | .call request => [request]
  | .check lines _ program => program.events.map (Event.call lines)

theorem performAll_eq_afterAll (table : SymbolTable) (actions : List Action) :
    table.performAll actions = table.afterAll (actions.flatMap Action.calls) := by
  induction actions generalizing table with
  | nil => rfl
  | cons action actions ih =>
    have hstep : table.perform action = table.afterAll action.calls := by
      cases action with
      | call => rfl
      | check lines diagnostics program => exact Checking.table_play lines _ program.events
    rw [List.flatMap_cons, afterAll_append, ← hstep]
    exact ih (table.perform action)

/-- The index of the first symbol with a name and a scope. -/
def firstDeclared? (table : SymbolTable) (scope : Nat) (name : String) : Option Nat :=
  table.symbols.toList.findIdx? fun symbol => symbol.name = name ∧ symbol.scope = scope

/-- A scope binds a name to the first symbol of that name and that scope. -/
theorem WellFormed.getIn?_eq_firstDeclared? {table : SymbolTable} (h : table.WellFormed)
    (i : Nat) (name : String) : table.getIn? i name = table.firstDeclared? i name := by
  symm
  cases hname : table.getIn? i name with
  | none =>
    refine List.findIdx?_eq_none_iff.2 fun symbol hsymbol => decide_eq_false ?_
    rintro ⟨rfl, rfl⟩
    obtain ⟨n, hn⟩ := List.getElem?_of_mem hsymbol
    rw [Array.getElem?_toList] at hn
    cases hname.symm.trans (h.bound hn)
  | some n =>
    obtain ⟨symbol, hsymbol, rfl, rfl⟩ := h.binding hname
    rw [← Array.getElem?_toList] at hsymbol
    obtain ⟨hn, heq⟩ := List.getElem?_eq_some_iff.1 hsymbol
    refine List.findIdx?_eq_some_iff_getElem.2
      ⟨hn, decide_eq_true (by rw [heq]; exact ⟨rfl, rfl⟩), ?_⟩
    -- an earlier symbol would be bound as well
    intro j hj hsame
    obtain ⟨hname', hscope⟩ := of_decide_eq_true hsame
    have hget : table.symbols[j]? = some (table.symbols.toList.get ⟨j, Nat.lt_trans hj hn⟩) := by
      rw [← Array.getElem?_toList, List.getElem?_eq_getElem (Nat.lt_trans hj hn)]
      rfl
    have hbound := h.bound hget
    rw [List.get_eq_getElem, hname', hscope, hname] at hbound
    exact Nat.ne_of_gt hj (Option.some.inj hbound)

/-- Whatever is done with a table, it only grows: what it holds after some actions it still holds
after more of them, at the same indices and with the same names bound. A declaration is refused
exactly if the current scope binds the name. Then the table stays as it is, be it called or used to
check a program, and the refusal names the first symbol that was declared with that name in that
scope, and the line of that symbol. -/
theorem only_grows (earlier later : List Action) :
    let table := empty.performAll earlier
    table.Extends (table.performAll later) ∧
      ∀ name kind line span,
        ((∃ refusal, table.declare name kind line span = .error refusal) ↔
          (table.getIn? table.current name).isSome) ∧
        ∀ refusal, table.declare name kind line span = .error refusal →
          table.after (.declare name kind line span) = table ∧
          (∀ (lines : LineIndex) (diagnostics : Diagnostics) (ident : Ident), ident.name = name →
            (Checking.declare lines ⟨table, diagnostics⟩ ident kind).table = table) ∧
          refusal.name = name ∧ table.firstDeclared? table.current name = some refusal.previous ∧
          ∃ symbol, table.symbols[refusal.previous]? = some symbol ∧ symbol.name = name ∧
            symbol.scope = table.current ∧ symbol.line = refusal.previousLine := by
  intro table
  have h : table.WellFormed := by
    have hcalls := WellFormed.empty.afterAll (earlier.flatMap Action.calls)
    rwa [← performAll_eq_afterAll] at hcalls
  refine ⟨?_, fun name kind line span => ?_⟩
  · rw [performAll_eq_afterAll table]
    exact table.extends_afterAll _
  cases hname : table.getIn? table.current name with
  | none =>
    rw [declare_eq_ok hname]
    exact ⟨by simp, fun refusal hrefusal => by cases hrefusal⟩
  | some n =>
    obtain ⟨symbol, hsymbol, hsame, hscope⟩ := h.binding hname
    have hdeclare : table.declare name kind line span = .error ⟨name, n, symbol.line⟩ := by
      rw [declare, hname]
      dsimp only
      rw [hsymbol]
      rfl
    rw [hdeclare]
    refine ⟨by simp, fun refusal hrefusal => ?_⟩
    obtain rfl := Except.error.inj hrefusal
    refine ⟨after_declare_of_some hname kind line span, ?_, rfl, ?_, symbol, hsymbol, hsame, hscope,
      rfl⟩
    · rintro lines diagnostics ident rfl
      exact (Checking.table_step lines ⟨table, diagnostics⟩ (.declare ident kind)).trans
        (after_declare_of_some hname _ _ _)
    · rw [← h.getIn?_eq_firstDeclared?, hname]

end SymbolTable

end CrudLang
