import CrudLang.Proofs.Scope.Growth

/-!
# Symbol tables as stacks of environments

A symbol table keeps all scopes that were ever opened, and finds the enclosing ones by a walk along
parents. Its user cannot tell it from a stack of environments, one for each scope that is still open
(`Environments`): opening a scope puts an empty environment on top, leaving it takes it off, a name
is declared in the environment on top, and looked up in the first one from the top that has it.

`SymbolTable.Refines` relates the two. Every call gets the same answer from both and keeps them
related (`SymbolTable.Refines.after`), so any sequence of calls gets the same answers
(`SymbolTable.answers_eq_environments`).
-/

namespace CrudLang

/-- What the user of a table is answered. -/
inductive SymbolTable.Answer where
  /-- A scope with this index was opened. -/
  | entered (scope : Nat)
  /-- The scope was left, if it was not the global one. -/
  | left
  /-- The name was declared, as the symbol with this index. -/
  | declared (symbol : Nat)
  /-- The name was refused, because it is already declared as this symbol. -/
  | refused (refusal : AlreadyDeclared) (previous : Option Symbol)
  /-- This is what the name means, if it means anything. -/
  | found (symbol : Option Symbol)
deriving DecidableEq, Repr

open SymbolTable (Call Answer)

/-- The names that are declared in a scope, with their symbols and the indices of these. -/
structure Environment where
  /-- The index of the scope. -/
  scope : Nat
  /-- The names and symbols. -/
  symbols : String → Option (Nat × Symbol)

namespace Environment

/-- The environment of a scope without declarations. -/
def empty (scope : Nat) : Environment :=
  ⟨scope, fun _ => none⟩

/-- Adds a symbol. -/
def insert (env : Environment) (n : Nat) (symbol : Symbol) : Environment :=
  { env with symbols := fun name =>
      if name = symbol.name then some (n, symbol) else env.symbols name }

end Environment

/-- The scopes that are open, the innermost one on top, and how many scopes and symbols there have
been. -/
structure Environments where
  /-- The environment of the current scope. -/
  top : Environment
  /-- The environments around it, from the inside out. -/
  outer : List Environment
  /-- How many scopes have been opened. -/
  opened : Nat
  /-- How many names have been declared. -/
  declared : Nat

namespace Environments

/-- The global scope alone is open. -/
def start : Environments :=
  ⟨.empty 0, [], 1, 0⟩

/-- All environments, from the top. -/
def stack (envs : Environments) : List Environment :=
  envs.top :: envs.outer

/-- Puts an empty environment on top. -/
def enter (envs : Environments) : Environments :=
  { envs with top := .empty envs.opened, outer := envs.stack, opened := envs.opened + 1 }

/-- Takes the environment on top off, unless it is the last one. -/
def leave (envs : Environments) : Environments :=
  match envs.outer with
  | [] => envs
  | top :: outer => { envs with top, outer }

/-- What a name means: the symbol in the first environment that has it. -/
def lookup (envs : Environments) (name : String) : Option Symbol :=
  (envs.stack.findSome? fun env => env.symbols name).map Prod.snd

/-- Answers a call. -/
def answer (envs : Environments) : Call → Answer
  | .enter _ => .entered envs.opened
  | .leave => .left
  | .declare name _ _ _ =>
    match envs.top.symbols name with
    | some (n, previous) => .refused ⟨name, n, previous.line⟩ (some previous)
    | none => .declared envs.declared
  | .lookup name => .found (envs.lookup name)

/-- The environments after a call. -/
def after (envs : Environments) : Call → Environments
  | .enter _ => envs.enter
  | .leave => envs.leave
  | .declare name kind line span =>
    match envs.top.symbols name with
    | some _ => envs
    | none =>
      { envs with
        top := envs.top.insert envs.declared ⟨name, kind, envs.top.scope, line, span⟩
        declared := envs.declared + 1 }
  | .lookup _ => envs

/-- Answers calls, one after the other. -/
def answers (envs : Environments) : List Call → List Answer
  | [] => []
  | call :: calls => envs.answer call :: (envs.after call).answers calls

/-- The environments after calls, one after the other. -/
def afterAll (envs : Environments) (calls : List Call) : Environments :=
  calls.foldl after envs

end Environments

namespace Environments

variable {envs : Environments} {env : Environment}

/-- A call opens no scope but a new one. -/
theorem of_mem_stack_after {call : Call} (henv : env ∈ (envs.after call).stack) :
    env.scope ∈ envs.stack.map Environment.scope ∨ envs.opened ≤ env.scope := by
  have hold (h : env ∈ envs.stack) : env.scope ∈ envs.stack.map Environment.scope :=
    List.mem_map_of_mem h
  cases call with
  | enter kind =>
    rcases List.mem_cons.1 henv with rfl | henv
    · exact .inr (Nat.le_refl _)
    · exact .inl (hold henv)
  | leave =>
    -- what is left was below the top
    rw [after, leave] at henv
    split at henv
    next => exact .inl (hold henv)
    next top outer houter =>
      refine .inl (hold (List.mem_cons_of_mem envs.top ?_))
      rw [houter]
      exact henv
  | declare name kind line span =>
    rw [after] at henv
    split at henv
    next => exact .inl (hold henv)
    next =>
      rcases List.mem_cons.1 henv with rfl | henv
      · exact .inl (List.mem_map.2 ⟨envs.top, List.mem_cons_self, rfl⟩)
      · exact .inl (hold (List.mem_cons_of_mem _ henv))
  | lookup name => exact .inl (hold henv)

theorem opened_le_after (call : Call) : envs.opened ≤ (envs.after call).opened := by
  cases call with
  | enter kind => exact Nat.le_succ _
  | leave =>
    rw [after, leave]
    split <;> exact Nat.le_refl _
  | declare name kind line span =>
    rw [after]
    split <;> exact Nat.le_refl _
  | lookup name => exact Nat.le_refl _

/-- Calls open no scopes but new ones: a scope that was left is not opened again. -/
theorem of_mem_stack_afterAll {calls : List Call} (henv : env ∈ (envs.afterAll calls).stack) :
    env.scope ∈ envs.stack.map Environment.scope ∨ envs.opened ≤ env.scope := by
  induction calls generalizing envs with
  | nil => exact .inl (List.mem_map_of_mem henv)
  | cons call calls ih =>
    rcases ih henv with hmem | hle
    · obtain ⟨env', henv', hscope⟩ := List.mem_map.1 hmem
      rw [← hscope]
      exact of_mem_stack_after henv'
    · exact .inr (Nat.le_trans (opened_le_after call) hle)

end Environments

namespace SymbolTable

/-- Answers a call. -/
def answer (table : SymbolTable) : Call → Answer
  | .enter kind => .entered (table.enter kind).current
  | .leave => .left
  | .declare name kind line span =>
    match table.declare name kind line span with
    | .ok (symbol, _) => .declared symbol
    | .error refusal => .refused refusal table.symbols[refusal.previous]?
  | .lookup name => .found (table.lookup name)

/-- Answers calls, one after the other. -/
def answers (table : SymbolTable) : List Call → List Answer
  | [] => []
  | call :: calls => table.answer call :: (table.after call).answers calls

/-- The walk from a scope outward along the parents, up to a scope that has none. -/
inductive Walk (table : SymbolTable) : Nat → List Nat → Prop
  | last {i : Nat} : table.scopes[i]?.bind Scope.parent = none → Walk table i [i]
  | outward {i j : Nat} {walk : List Nat} : table.scopes[i]?.bind Scope.parent = some j →
    Walk table j walk → Walk table i (i :: walk)

namespace Walk

variable {table : SymbolTable} {i : Nat} {walk : List Nat}

/-- A walk goes to smaller and smaller indices. -/
theorem lt (h : table.WellFormed) (hwalk : table.Walk i walk) : walk.Pairwise (· > ·) ∧
    ∀ j ∈ walk, j ≤ i := by
  induction hwalk with
  | last => exact ⟨List.pairwise_singleton _ _, fun j hj => Nat.le_of_eq (List.mem_singleton.1 hj)⟩
  | @outward i j walk hparent _ ih =>
    obtain ⟨scope, hscope, hj⟩ := Option.bind_eq_some_iff.1 hparent
    have hless := h.parent hscope hj
    refine ⟨List.pairwise_cons.2 ⟨fun k hk => Nat.lt_of_le_of_lt (ih.2 k hk) hless, ih.1⟩, ?_⟩
    intro k hk
    rcases List.mem_cons.1 hk with rfl | hk
    · exact Nat.le_refl _
    · exact Nat.le_of_lt (Nat.lt_of_le_of_lt (ih.2 k hk) hless)

/-- A walk depends on the parents of the scopes up to its first one alone. -/
theorem congr {table' : SymbolTable} (h : table.WellFormed) (hwalk : table.Walk i walk)
    (hparent : ∀ j ≤ i, table'.scopes[j]?.bind Scope.parent = table.scopes[j]?.bind Scope.parent) :
    table'.Walk i walk := by
  induction hwalk with
  | last hi => exact .last ((hparent _ (Nat.le_refl _)).trans hi)
  | @outward i j walk hi _ ih =>
    obtain ⟨scope, hscope, hj⟩ := Option.bind_eq_some_iff.1 hi
    have hless := h.parent hscope hj
    exact .outward ((hparent i (Nat.le_refl _)).trans hi)
      (ih fun k hk => hparent k (Nat.le_trans hk (Nat.le_of_lt hless)))

/-- A walk begins with its scope, and goes on to the parent, if there is one. -/
theorem of_cons {k : Nat} (hwalk : table.Walk i (k :: walk)) : k = i ∧
    (walk = [] ∧ table.scopes[i]?.bind Scope.parent = none ∨
      ∃ j, table.scopes[i]?.bind Scope.parent = some j ∧ table.Walk j walk) := by
  generalize hall : k :: walk = all at hwalk
  cases hwalk with
  | last hi =>
    obtain ⟨rfl, rfl⟩ := List.cons.inj hall
    exact ⟨rfl, .inl ⟨rfl, hi⟩⟩
  | outward hi hrest =>
    obtain ⟨rfl, rfl⟩ := List.cons.inj hall
    exact ⟨rfl, .inr ⟨_, hi, hrest⟩⟩

/-- A name is looked up in the scopes of the walk, one after the other. -/
theorem lookupFrom_eq (h : table.WellFormed) (hwalk : table.Walk i walk) (name : String) :
    table.lookupFrom i name = walk.findSome? fun j => table.getIn? j name := by
  induction hwalk with
  | @last i hi =>
    rw [lookupFrom, List.findSome?_singleton]
    cases table.getIn? i name with
    | some n => rfl
    | none => rw [hi]
  | @outward i j walk hi _ ih =>
    rw [lookupFrom, List.findSome?_cons]
    cases table.getIn? i name with
    | some n => rfl
    | none =>
      obtain ⟨scope, hscope, hj⟩ := Option.bind_eq_some_iff.1 hi
      rw [hi]
      dsimp only
      rw [if_pos (h.parent hscope hj), ih]

end Walk

/-- The environments are those of the scopes on the walk from the current scope, and the counters
are right. -/
structure Refines (table : SymbolTable) (envs : Environments) : Prop where
  wellFormed : table.WellFormed
  opened : envs.opened = table.scopes.size
  declared : envs.declared = table.symbols.size
  walk : table.Walk table.current (envs.stack.map Environment.scope)
  symbols {env : Environment} {name : String} : env ∈ envs.stack →
    env.symbols name = (table.getIn? env.scope name).bind fun n =>
      table.symbols[n]?.map fun symbol => (n, symbol)

namespace Refines

variable {table : SymbolTable} {envs : Environments}

/-- At the start there is the global scope alone. -/
theorem start : empty.Refines .start where
  wellFormed := .empty
  opened := rfl
  declared := rfl
  walk := .last rfl
  symbols henv := by
    rw [List.mem_singleton.1 henv]
    rfl

/-- The environment on top is that of the current scope. -/
theorem scope_top (h : table.Refines envs) : envs.top.scope = table.current :=
  (Walk.of_cons h.walk).1

/-- A symbol of the current scope is that of the environment on top. -/
theorem top_of_some (h : table.Refines envs) {name : String} {n : Nat}
    (hn : table.getIn? table.current name = some n) :
    ∃ symbol, table.symbols[n]? = some symbol ∧ envs.top.symbols name = some (n, symbol) := by
  obtain ⟨symbol, hsymbol, -⟩ := h.wellFormed.binding hn
  refine ⟨symbol, hsymbol, ?_⟩
  rw [h.symbols List.mem_cons_self, h.scope_top, hn, Option.bind_some, hsymbol, Option.map_some]

theorem top_of_none (h : table.Refines envs) {name : String}
    (hn : table.getIn? table.current name = none) : envs.top.symbols name = none := by
  rw [h.symbols List.mem_cons_self, h.scope_top, hn, Option.bind_none]

/-- The first environment of a stack that has a name is that of the first scope that binds it. -/
theorem findSome?_symbols (h : table.Refines envs) (name : String) {stack : List Environment}
    (hsub : stack ⊆ envs.stack) :
    ((stack.map Environment.scope).findSome? fun j => table.getIn? j name).bind
        (table.symbols[·]?) =
      (stack.findSome? fun env => env.symbols name).map Prod.snd := by
  induction stack with
  | nil => rfl
  | cons env stack ih =>
    obtain ⟨henv, hsub⟩ := List.cons_subset.1 hsub
    rw [List.map_cons, List.findSome?_cons, List.findSome?_cons, h.symbols henv]
    cases hn : table.getIn? env.scope name with
    | none => exact ih hsub
    | some n =>
      obtain ⟨symbol, hsymbol, -⟩ := h.wellFormed.binding hn
      simp only [Option.bind_some, hsymbol, Option.map_some]

/-- A name means the same to both. -/
theorem lookup (h : table.Refines envs) (name : String) : table.lookup name = envs.lookup name := by
  rw [SymbolTable.lookup, h.walk.lookupFrom_eq h.wellFormed]
  exact h.findSome?_symbols name (List.Subset.refl _)

/-- A call gets the same answer from both. -/
theorem answer (h : table.Refines envs) (call : Call) : table.answer call = envs.answer call := by
  cases call with
  | enter kind => rw [SymbolTable.answer, Environments.answer, h.opened, SymbolTable.enter]
  | leave => rfl
  | declare name kind line span =>
    rw [SymbolTable.answer, Environments.answer]
    cases hn : table.getIn? table.current name with
    | some n =>
      obtain ⟨symbol, hsymbol, htop⟩ := h.top_of_some hn
      rw [SymbolTable.declare, hn, htop]
      simp only [hsymbol, Option.map_some, Option.getD_some]
    | none => rw [declare_eq_ok hn, h.top_of_none hn, h.declared]
  | lookup name => rw [SymbolTable.answer, Environments.answer, h.lookup]

/-- Opening a scope. -/
theorem enter (h : table.Refines envs) (kind : ScopeKind) :
    (table.enter kind).Refines envs.enter where
  wellFormed := h.wellFormed.enter kind
  opened := by
    rw [Environments.enter, h.opened]
    simp [SymbolTable.enter]
  declared := h.declared
  walk := by
    have hparent : (table.enter kind).scopes[table.scopes.size]?.bind Scope.parent =
        some table.current := by
      rw [SymbolTable.enter, Array.getElem?_push_size, Option.bind_some]
    rw [Environments.enter, Environments.stack, List.map_cons, Environment.empty, h.opened]
    refine .outward hparent (h.walk.congr h.wellFormed fun j hj => ?_)
    rw [scopes_enter_of_lt kind (Nat.lt_of_le_of_lt hj h.wellFormed.current)]
  symbols {env name} henv := by
    rw [getIn?_enter]
    rcases List.mem_cons.1 henv with rfl | henv
    -- the new scope binds nothing
    · have hnone : table.getIn? envs.opened name = none := by
        rw [h.opened]
        exact table.getIn?_size name
      show none = (table.getIn? envs.opened name).bind _
      rw [hnone, Option.bind_none]
    · exact h.symbols henv

/-- Leaving a scope. -/
theorem leave (h : table.Refines envs) : table.leave.Refines envs.leave := by
  obtain ⟨top, outer, opened, declared⟩ := envs
  obtain ⟨-, ⟨houter, hparent⟩ | ⟨j, hparent, hrest⟩⟩ := Walk.of_cons h.walk
  -- the global scope is not left
  · obtain rfl := List.map_eq_nil_iff.1 houter
    rw [SymbolTable.leave, hparent]
    exact h
  · have hleave : table.leave = { table with current := j } := by
      rw [SymbolTable.leave, hparent]
    have hwellFormed := h.wellFormed.leave
    rw [hleave] at hwellFormed ⊢
    cases outer with
    | nil => cases hrest
    | cons env outer =>
      have hwalk : Walk { table with current := j } j ((env :: outer).map Environment.scope) :=
        hrest.congr h.wellFormed fun _ _ => rfl
      exact ⟨hwellFormed, h.opened, h.declared, hwalk,
        fun henv => h.symbols (List.mem_cons_of_mem top henv)⟩

/-- Declaring a name that the current scope does not bind. -/
theorem insert (h : table.Refines envs) {symbol : Symbol} (hscope : symbol.scope = table.current)
    (hnone : table.getIn? table.current symbol.name = none) :
    (table.insert symbol).Refines
      { envs with
        top := envs.top.insert envs.declared symbol
        declared := envs.declared + 1 } where
  wellFormed := h.wellFormed.insert hscope hnone
  opened := by rw [size_scopes_insert, h.opened]
  declared := by
    rw [SymbolTable.insert, Array.size_push, h.declared]
  walk := h.walk.congr h.wellFormed fun _ _ => parent_insert
  symbols {env name} henv := by
    rcases List.mem_cons.1 henv with rfl | henv
    · -- the environment on top has one more name
      rw [show (envs.top.insert envs.declared symbol).scope = table.current from h.scope_top,
        Environment.insert, h.declared]
      dsimp only
      by_cases hname : name = symbol.name
      · rw [if_pos hname, hname, getIn?_insert_self h.wellFormed.current hnone, Option.bind_some,
          SymbolTable.insert, Array.getElem?_push_size, Option.map_some]
      · rw [if_neg hname, getIn?_insert_of_ne h.wellFormed.current fun _ => hname]
        cases hn : table.getIn? table.current name with
        | none => exact h.top_of_none hn
        | some n =>
          obtain ⟨s, hs, htop⟩ := h.top_of_some hn
          rw [htop, Option.bind_some, symbols_insert_of_eq_some hs, Option.map_some]
    · -- the others are those of other scopes
      have hold : env ∈ envs.stack := List.mem_cons_of_mem _ henv
      have hother : env.scope ≠ table.current := by
        have hless := (h.walk.lt h.wellFormed).1
        rw [Environments.stack, List.map_cons, List.pairwise_cons] at hless
        rw [← h.scope_top]
        exact Nat.ne_of_lt (hless.1 env.scope (List.mem_map_of_mem henv))
      rw [getIn?_insert_of_ne h.wellFormed.current fun hi => absurd hi hother, h.symbols hold]
      cases hn : table.getIn? env.scope name with
      | none => rfl
      | some n =>
        obtain ⟨s, hs, -⟩ := h.wellFormed.binding hn
        rw [Option.bind_some, Option.bind_some, hs, symbols_insert_of_eq_some hs]

/-- A call keeps both related. -/
theorem after (h : table.Refines envs) (call : Call) :
    (table.after call).Refines (envs.after call) := by
  cases call with
  | enter kind => exact h.enter kind
  | leave => exact h.leave
  | declare name kind line span =>
    rw [Environments.after]
    cases hn : table.getIn? table.current name with
    | some n =>
      obtain ⟨symbol, -, htop⟩ := h.top_of_some hn
      rw [after_declare_of_some hn, htop]
      exact h
    | none =>
      rw [after_declare_of_none hn, h.top_of_none hn, h.scope_top]
      exact h.insert rfl hn
  | lookup name => exact h

theorem afterAll (h : table.Refines envs) (calls : List Call) :
    (table.afterAll calls).Refines (envs.afterAll calls) := by
  induction calls generalizing table envs with
  | nil => exact h
  | cons call calls ih => exact ih (h.after call)

theorem answers (h : table.Refines envs) (calls : List Call) :
    table.answers calls = envs.answers calls := by
  induction calls generalizing table envs with
  | nil => rfl
  | cons call calls ih =>
    rw [SymbolTable.answers, Environments.answers, h.answer call, ih (h.after call)]

/-- What a name means is a symbol of a scope that is open. -/
theorem scope_of_lookup (h : table.Refines envs) {name : String} {symbol : Symbol}
    (hsymbol : table.lookup name = some symbol) :
    symbol.scope ∈ envs.stack.map Environment.scope := by
  rw [SymbolTable.lookup, h.walk.lookupFrom_eq h.wellFormed] at hsymbol
  obtain ⟨n, hn, hget⟩ := Option.bind_eq_some_iff.1 hsymbol
  obtain ⟨i, hi, hname⟩ := List.exists_of_findSome?_eq_some hn
  obtain ⟨s, hs, -, rfl⟩ := h.wellFormed.binding hname
  rwa [← Option.some.inj (hs.symm.trans hget)]

end Refines

/-- Calls of the empty table are answered as by a stack of environments. Looking a name up is a walk
along the parents, which ends. All that was ever bound stays bound, but later calls find symbols of
scopes that are open now or are opened later alone. -/
theorem answers_eq_environments (calls : List Call) :
    let table := empty.afterAll calls
    empty.answers calls = Environments.start.answers calls ∧
      ∃ walk, table.Walk table.current walk ∧
        (∀ name, table.lookup name =
          (walk.findSome? fun i => table.getIn? i name).bind fun n => table.symbols[n]?) ∧
        ∀ later,
          (∀ i name n, table.getIn? i name = some n →
            (table.afterAll later).getIn? i name = some n) ∧
          ∀ name symbol, (table.afterAll later).lookup name = some symbol →
            symbol.scope ∈ walk ∨ table.scopes.size ≤ symbol.scope := by
  intro table
  have h : table.Refines (Environments.start.afterAll calls) := Refines.start.afterAll calls
  refine ⟨Refines.start.answers calls, _, h.walk, fun name => ?_, fun later =>
    ⟨fun i name n => (table.extends_afterAll later).bound, fun name symbol hsymbol => ?_⟩⟩
  · rw [lookup, h.walk.lookupFrom_eq h.wellFormed]
  · obtain ⟨env, henv, hscope⟩ := List.mem_map.1 ((h.afterAll later).scope_of_lookup hsymbol)
    rw [← hscope, ← h.opened]
    exact Environments.of_mem_stack_afterAll henv

end SymbolTable

end CrudLang
