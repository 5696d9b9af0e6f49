import CrudLang.Proofs.Scope.Mirroring

/-!
# Consistency of symbol tables

A symbol table holds the same facts several times: a scope binds a name to the index of a symbol,
the symbol knows its name and its scope, and the scopes know their own indices and those of their
parents. `SymbolTable.WellFormed` says that all of this agrees. Every call of the table keeps it
(`WellFormed.after`), so it holds after any sequence of calls on the empty table.
-/

namespace CrudLang

namespace SymbolTable

/-- What a user of a table may ask for. -/
inductive Call where
  /-- To open a scope inside the current one. -/
  | enter (kind : ScopeKind)
  /-- To go back to the enclosing scope. -/
  | leave
  /-- To declare a name in the current scope. -/
  | declare (name : String) (kind : SymbolKind) (line : Nat) (span : Span)
  /-- To look a name up. -/
  | lookup (name : String)
deriving DecidableEq, Repr

/-- The table after a call; a refused declaration and a question leave it as it is. -/
def after (table : SymbolTable) : Call → SymbolTable
  | .enter kind => table.enter kind
  | .leave => table.leave
  | .declare name kind line span =>
    match table.declare name kind line span with
    | .ok (_, declared) => declared
    | .error _ => table
  | .lookup _ => table

/-- The table after calls, one after the other. -/
def afterAll (table : SymbolTable) (calls : List Call) : SymbolTable :=
  calls.foldl after table

/-- The parts of a table agree. -/
structure WellFormed (table : SymbolTable) : Prop where
  /-- The current scope is one of the table. -/
  current : table.current < table.scopes.size
  /-- A scope knows its index. -/
  id {i : Nat} {scope : Scope} : table.scopes[i]? = some scope → scope.id = i
  /-- The first scope alone has no parent. -/
  outermost {i : Nat} {scope : Scope} : table.scopes[i]? = some scope →
    (scope.parent = none ↔ i = 0)
  /-- Parents come before their children. -/
  parent {i j : Nat} {scope : Scope} : table.scopes[i]? = some scope →
    scope.parent = some j → j < i
  /-- What a scope binds a name to is a symbol of that name and that scope. -/
  binding {i n : Nat} {name : String} : table.getIn? i name = some n →
    ∃ symbol, table.symbols[n]? = some symbol ∧ symbol.name = name ∧ symbol.scope = i
  /-- A symbol is bound in its scope under its name. -/
  bound {n : Nat} {symbol : Symbol} : table.symbols[n]? = some symbol →
    table.getIn? symbol.scope symbol.name = some n
  /-- A scope holds the names of its symbols, in the order of declaration. -/
  listed {i : Nat} {scope : Scope} : table.scopes[i]? = some scope →
    scope.names.map Prod.fst = (table.symbolsIn i).map Symbol.name

theorem after_declare_of_some {table : SymbolTable} {name : String} {n : Nat}
    (h : table.getIn? table.current name = some n) (kind : SymbolKind) (line : Nat) (span : Span) :
    table.after (.declare name kind line span) = table := by
  rw [after, SymbolTable.declare, h]

theorem after_declare_of_none {table : SymbolTable} {name : String}
    (h : table.getIn? table.current name = none) (kind : SymbolKind) (line : Nat) (span : Span) :
    table.after (.declare name kind line span) =
      table.insert ⟨name, kind, table.current, line, span⟩ := by
  rw [after, declare_eq_ok h]

/-- A scope that binds a name exists. -/
theorem lt_size_of_getIn? {table : SymbolTable} {i n : Nat} {name : String}
    (h : table.getIn? i name = some n) : i < table.scopes.size := by
  obtain ⟨scope, hscope, -⟩ := Option.bind_eq_some_iff.1 h
  exact (Array.getElem?_eq_some_iff.1 hscope).1

/-- The scopes are those before and the new one. -/
theorem of_getElem?_enter {table : SymbolTable} {kind : ScopeKind} {i : Nat} {scope : Scope}
    (h : (table.enter kind).scopes[i]? = some scope) : table.scopes[i]? = some scope ∨
      i = table.scopes.size ∧ scope = ⟨table.scopes.size, some table.current, kind, []⟩ := by
  rw [enter, Array.getElem?_push] at h
  split at h
  next heq => exact .inr ⟨heq, (Option.some.inj h).symm⟩
  next => exact .inl h

section Insert

variable {table : SymbolTable} {symbol : Symbol} {i : Nat} {scope : Scope}

/-- A scope after a declaration is the scope before it, but for its names. -/
theorem of_getElem?_insert (h : (table.insert symbol).scopes[i]? = some scope) :
    ∃ old, table.scopes[i]? = some old ∧ scope.id = old.id ∧ scope.parent = old.parent ∧
      scope.names = old.names ++
        if i = table.current then [(symbol.name, table.symbols.size)] else [] := by
  rw [insert, bindName, Array.getElem?_modify] at h
  split at h
  next hi =>
    obtain ⟨old, hold, rfl⟩ := Option.map_eq_some_iff.1 h
    exact ⟨old, hold, rfl, rfl, by rw [if_pos hi.symm]⟩
  next hi => exact ⟨scope, h, rfl, rfl, by rw [if_neg (Ne.symm hi), List.append_nil]⟩

/-- What is bound after a declaration was bound before, or it is the new name. -/
theorem of_getIn?_insert {n : Nat} {name : String} (hcurrent : table.current < table.scopes.size)
    (h : (table.insert symbol).getIn? i name = some n) : table.getIn? i name = some n ∨
      i = table.current ∧ name = symbol.name ∧ n = table.symbols.size := by
  rw [getIn?_insert hcurrent] at h
  split at h
  next hi =>
    rcases Option.or_eq_some_iff.1 h with hold | ⟨-, hnew⟩
    · exact .inl hold
    · obtain ⟨hname, hn⟩ := Option.ite_some_none_eq_some.1 hnew
      exact .inr ⟨hi, hname, hn.symm⟩
  next => exact .inl h

theorem symbolsIn_insert : (table.insert symbol).symbolsIn i =
    table.symbolsIn i ++ if symbol.scope = i then [symbol] else [] := by
  rw [symbolsIn, symbolsIn, insert, Array.toList_push, List.filter_append, List.filter_cons,
    List.filter_nil]
  simp only [decide_eq_true_eq]

theorem getElem?_symbols_insert {n : Nat} {s : Symbol} :
    (table.insert symbol).symbols[n]? = some s ↔
      table.symbols[n]? = some s ∨ n = table.symbols.size ∧ s = symbol := by
  rw [insert, Array.getElem?_push]
  split
  next hn =>
    rw [hn, Array.getElem?_eq_none (Nat.le_refl _), Option.some.injEq]
    simp [eq_comm]
  next hn => simp [hn]

end Insert

namespace WellFormed

variable {table : SymbolTable}

/-- The parts of the empty table agree. -/
theorem empty : SymbolTable.empty.WellFormed := by
  -- the global scope is the only one, and there is no symbol
  have hscopes {i : Nat} {scope : Scope} (h : SymbolTable.empty.scopes[i]? = some scope) :
      i = 0 ∧ scope = ⟨0, none, .global, []⟩ := by
    cases i with
    | zero => exact ⟨rfl, (Option.some.inj h).symm⟩
    | succ i => cases h
  constructor
  case current => exact Nat.zero_lt_one
  case id =>
    rintro i scope h
    obtain ⟨rfl, rfl⟩ := hscopes h
    rfl
  case outermost =>
    rintro i scope h
    obtain ⟨rfl, rfl⟩ := hscopes h
    simp
  case parent =>
    rintro i j scope h hparent
    obtain ⟨rfl, rfl⟩ := hscopes h
    cases hparent
  case binding =>
    rintro i n name h
    obtain ⟨scope, hscope, hname⟩ := Option.bind_eq_some_iff.1 h
    obtain ⟨rfl, rfl⟩ := hscopes hscope
    cases hname
  case bound =>
    rintro n symbol h
    cases h
  case listed =>
    rintro i scope h
    obtain ⟨rfl, rfl⟩ := hscopes h
    rfl

/-- The scope of a symbol exists. -/
theorem scope_lt (h : table.WellFormed) {n : Nat} {symbol : Symbol}
    (hn : table.symbols[n]? = some symbol) : symbol.scope < table.scopes.size :=
  lt_size_of_getIn? (h.bound hn)

/-- There are no symbols of a scope that does not exist. -/
theorem symbolsIn_eq_nil (h : table.WellFormed) {i : Nat} (hi : table.scopes.size ≤ i) :
    table.symbolsIn i = [] := by
  refine List.filter_eq_nil_iff.2 fun symbol hsymbol => ?_
  obtain ⟨n, hn⟩ := List.getElem?_of_mem hsymbol
  have hlt := h.scope_lt (Array.getElem?_toList ▸ hn)
  simp only [decide_eq_true_eq]
  omega

/-- Opening a scope. -/
theorem enter (h : table.WellFormed) (kind : ScopeKind) : (table.enter kind).WellFormed := by
  constructor
  case current => simp [SymbolTable.enter]
  case id =>
    intro i scope hi
    rcases of_getElem?_enter hi with hi | ⟨rfl, rfl⟩
    · exact h.id hi
    · rfl
  case outermost =>
    intro i scope hi
    rcases of_getElem?_enter hi with hi | ⟨rfl, rfl⟩
    · exact h.outermost hi
    · simp [Nat.ne_of_gt (Nat.zero_lt_of_lt h.current)]
  case parent =>
    intro i j scope hi hparent
    rcases of_getElem?_enter hi with hi | ⟨rfl, rfl⟩
    · exact h.parent hi hparent
    · obtain rfl := Option.some.inj hparent
      exact h.current
  case binding =>
    intro i n name hi
    rw [getIn?_enter] at hi
    exact h.binding hi
  case bound =>
    intro n symbol hn
    rw [getIn?_enter]
    exact h.bound hn
  case listed =>
    intro i scope hi
    rcases of_getElem?_enter hi with hi | ⟨rfl, rfl⟩
    · exact h.listed hi
    · -- no symbol was declared in a scope that did not exist
      have hnone := h.symbolsIn_eq_nil (Nat.le_refl _)
      rw [show (table.enter kind).symbolsIn table.scopes.size = [] from hnone]
      rfl

/-- Leaving a scope. -/
theorem leave (h : table.WellFormed) : table.leave.WellFormed := by
  rw [SymbolTable.leave]
  split
  next j hj =>
    obtain ⟨scope, hscope, hparent⟩ := Option.bind_eq_some_iff.1 hj
    have hless := h.parent hscope hparent
    exact ⟨Nat.lt_trans hless h.current, h.id, h.outermost, h.parent, h.binding, h.bound, h.listed⟩
  next => exact h

/-- Declaring a name that the current scope does not bind. -/
theorem insert (h : table.WellFormed) {symbol : Symbol} (hscope : symbol.scope = table.current)
    (hnone : table.getIn? table.current symbol.name = none) :
    (table.insert symbol).WellFormed := by
  constructor
  case current =>
    rw [size_scopes_insert]
    exact h.current
  case id =>
    intro i scope hi
    obtain ⟨old, hold, hid, -, -⟩ := of_getElem?_insert hi
    rw [hid, h.id hold]
  case outermost =>
    intro i scope hi
    obtain ⟨old, hold, -, hparent, -⟩ := of_getElem?_insert hi
    rw [hparent, h.outermost hold]
  case parent =>
    intro i j scope hi hj
    obtain ⟨old, hold, -, hparent, -⟩ := of_getElem?_insert hi
    exact h.parent hold (hparent ▸ hj)
  case binding =>
    intro i n name hi
    rcases of_getIn?_insert h.current hi with hold | ⟨rfl, rfl, rfl⟩
    · obtain ⟨s, hs, hname, hi⟩ := h.binding hold
      exact ⟨s, symbols_insert_of_eq_some hs, hname, hi⟩
    · exact ⟨symbol, getElem?_symbols_insert.2 (.inr ⟨rfl, rfl⟩), rfl, hscope⟩
  case bound =>
    intro n s hn
    rcases getElem?_symbols_insert.1 hn with hn | ⟨rfl, rfl⟩
    · exact getIn?_insert_of_eq_some h.current (h.bound hn)
    · rw [hscope]
      exact getIn?_insert_self h.current hnone
  case listed =>
    intro i scope hi
    obtain ⟨old, hold, -, -, hnames⟩ := of_getElem?_insert hi
    rw [hnames, symbolsIn_insert, List.map_append, List.map_append, h.listed hold, hscope]
    by_cases hi : i = table.current
    · rw [if_pos hi, if_pos hi.symm]
      rfl
    · rw [if_neg hi, if_neg (Ne.symm hi)]
      rfl

/-- Whatever is called, the parts of the table still agree. -/
theorem after (h : table.WellFormed) (call : Call) : (table.after call).WellFormed := by
  cases call with
  | enter kind => exact h.enter kind
  | leave => exact h.leave
  | declare name kind line span =>
    cases hname : table.getIn? table.current name with
    | some n =>
      rw [after_declare_of_some hname]
      exact h
    | none =>
      rw [after_declare_of_none hname]
      exact h.insert rfl hname
  | lookup name => exact h

theorem afterAll (h : table.WellFormed) (calls : List Call) :
    (table.afterAll calls).WellFormed := by
  induction calls generalizing table with
  | nil => exact h
  | cons call calls ih => exact ih (h.after call)

/-- No two symbols share scope and name. -/
theorem unique (h : table.WellFormed) {m n : Nat} {s t : Symbol}
    (hm : table.symbols[m]? = some s) (hn : table.symbols[n]? = some t)
    (hscope : s.scope = t.scope) (hname : s.name = t.name) : m = n := by
  have hbound := h.bound hm
  rw [hscope, hname, h.bound hn] at hbound
  exact (Option.some.inj hbound).symm

/-- The symbols of a scope are those that it binds names to. -/
theorem mem_symbolsIn_iff (h : table.WellFormed) {i : Nat} {symbol : Symbol} :
    symbol ∈ table.symbolsIn i ↔
      ∃ n, table.getIn? i symbol.name = some n ∧ table.symbols[n]? = some symbol := by
  rw [symbolsIn, List.mem_filter, decide_eq_true_eq]
  constructor
  · rintro ⟨hmem, rfl⟩
    obtain ⟨n, hn⟩ := List.getElem?_of_mem hmem
    have hsymbol : table.symbols[n]? = some symbol := Array.getElem?_toList ▸ hn
    exact ⟨n, h.bound hsymbol, hsymbol⟩
  · rintro ⟨n, hi, hn⟩
    obtain ⟨s, hs, -, hscope⟩ := h.binding hi
    obtain rfl := Option.some.inj (hs.symm.trans hn)
    exact ⟨Array.mem_toList_iff.2 (Array.mem_of_getElem? hn), hscope⟩

/-- The symbols of a scope have different names. -/
theorem nodup_symbolsIn (h : table.WellFormed) (i : Nat) :
    ((table.symbolsIn i).map Symbol.name).Nodup := by
  refine List.pairwise_map.2 (List.pairwise_filter.2 ?_)
  refine List.pairwise_iff_getElem.2 fun m n hm hn hless hsm hsn hname => ?_
  have hget {k : Nat} (hk : k < table.symbols.toList.length) :
      table.symbols[k]? = some table.symbols.toList[k] := by
    rw [← Array.getElem?_toList, List.getElem?_eq_getElem hk]
  have hscope : table.symbols.toList[m].scope = table.symbols.toList[n].scope := by
    rw [of_decide_eq_true hsm, of_decide_eq_true hsn]
  exact Nat.ne_of_lt hless (h.unique (hget hm) (hget hn) hscope hname)

end WellFormed

/-- After any calls, accepted or refused, the parts of the table agree: scopes and symbols refer to
each other as they should, no two symbols share scope and name, and the symbols listed for a scope
are those of the names that it binds, each once and in the order of their declaration. -/
theorem wellFormed_afterAll_empty (calls : List Call) :
    let table := empty.afterAll calls
    table.WellFormed ∧
      (∀ (m n : Nat) (s t : Symbol), table.symbols[m]? = some s → table.symbols[n]? = some t →
        s.scope = t.scope → s.name = t.name → m = n) ∧
      ∀ i, (∀ name, name ∈ (table.symbolsIn i).map Symbol.name ↔ (table.getIn? i name).isSome) ∧
        ((table.symbolsIn i).map Symbol.name).Nodup ∧
        (table.symbolsIn i).Sublist table.symbols.toList := by
  intro table
  have h : table.WellFormed := WellFormed.empty.afterAll calls
  refine ⟨h, fun m n s t hm hn => h.unique hm hn, fun i => ⟨fun name => ?_, h.nodup_symbolsIn i,
    List.filter_sublist⟩⟩
  rw [List.mem_map, Option.isSome_iff_exists]
  constructor
  · rintro ⟨symbol, hsymbol, rfl⟩
    obtain ⟨n, hn, -⟩ := h.mem_symbolsIn_iff.1 hsymbol
    exact ⟨n, hn⟩
  · rintro ⟨n, hn⟩
    obtain ⟨symbol, hsymbol, rfl, -⟩ := h.binding hn
    exact ⟨symbol, h.mem_symbolsIn_iff.2 ⟨n, hn, hsymbol⟩, rfl⟩

end SymbolTable

end CrudLang
