import CrudLang.Proofs.Scope.Occurrences

/-!
# Symbol tables and the rules of scope

A symbol table that has seen some occurrences mirrors their declarations: each of its scopes has a
place in the tree, and binds a name to the first declaration of the name in that place
(`SymbolTable.Mirrors`). Entering, leaving and declaring keep this, and looking a name up
finds the declaration that is visible.
-/

namespace CrudLang

/-- The symbol of a declaration, in the scope with an index. -/
def Declaration.symbol (lines : LineIndex) (d : Declaration) (scope : Nat) : Symbol :=
  ⟨d.ident.name, d.kind, scope, lines.lineOf d.ident.span.start, d.ident.span⟩

namespace SymbolTable

/-- The scopes of the table stand in the given places, and bind names to their first declarations
there. -/
structure Mirrors (table : SymbolTable) (lines : LineIndex) (places : List Place)
    (earlier : List Occurrence) : Prop where
  size : places.length = table.scopes.size
  nodup : places.Nodup
  declared {d} : .declaration d ∈ earlier → d.scope ∈ places
  outermost {i : Nat} : places[i]? = some [] → table.scopes[i]?.bind Scope.parent = none
  parent {i : Nat} {step outer} : places[i]? = some (step :: outer) →
    ∃ j < i, table.scopes[i]?.bind Scope.parent = some j ∧ places[j]? = some outer
  bound {i : Nat} {place name d} : places[i]? = some place →
    declarationIn earlier name place = some d →
    ∃ n, table.getIn? i name = some n ∧ table.symbols[n]? = some (d.symbol lines i)
  unbound {i : Nat} {place name} : places[i]? = some place →
    declarationIn earlier name place = none →
    table.getIn? i name = none

theorem getIn?_enter (table : SymbolTable) (kind : ScopeKind) (i : Nat) (name : String) :
    (table.enter kind).getIn? i name = table.getIn? i name := by
  rw [getIn?, getIn?, enter, Array.getElem?_push]
  split
  next hi =>
    rw [hi, Array.getElem?_eq_none (Nat.le_refl _)]
    rfl
  next => rfl

theorem scopes_enter_of_lt {table : SymbolTable} {i : Nat} (kind : ScopeKind)
    (hi : i < table.scopes.size) : (table.enter kind).scopes[i]? = table.scopes[i]? := by
  rw [enter, Array.getElem?_push, if_neg (Nat.ne_of_lt hi)]

/-- A scope that does not exist yet binds nothing. -/
theorem getIn?_size (table : SymbolTable) (name : String) :
    table.getIn? table.scopes.size name = none := by
  rw [getIn?, Array.getElem?_eq_none (Nat.le_refl _), Option.bind_none]

/-- The table with one more symbol, which the current scope binds its name to. -/
def insert (table : SymbolTable) (symbol : Symbol) : SymbolTable :=
  { table with
    symbols := table.symbols.push symbol
    scopes := bindName table.scopes table.current symbol.name table.symbols.size }

section Insert

variable {table : SymbolTable} {symbol : Symbol} {i n : Nat} {name : String}

theorem declare_eq_ok {kind : SymbolKind} {line : Nat} {span : Span}
    (h : table.getIn? table.current name = none) :
    table.declare name kind line span =
      .ok (table.symbols.size, table.insert ⟨name, kind, table.current, line, span⟩) := by
  rw [declare, h, insert]

theorem size_scopes_insert : (table.insert symbol).scopes.size = table.scopes.size := by
  rw [insert, bindName, Array.size_modify]

/-- Binding a name leaves the tree of scopes as it is. -/
theorem parent_insert :
    (table.insert symbol).scopes[i]?.bind Scope.parent = table.scopes[i]?.bind Scope.parent := by
  rw [insert, bindName, Array.getElem?_modify]
  split
  next => cases table.scopes[i]? <;> rfl
  next => rfl

/-- Binding a name in the current scope changes nothing else. -/
theorem getIn?_insert (hcurrent : table.current < table.scopes.size) :
    (table.insert symbol).getIn? i name =
      if i = table.current then
        (table.getIn? i name).or (if name = symbol.name then some table.symbols.size else none)
      else table.getIn? i name := by
  rw [getIn?, getIn?, insert, bindName, Array.getElem?_modify]
  by_cases hi : i = table.current
  · rw [if_pos hi, if_pos hi.symm, hi, Array.getElem?_eq_getElem hcurrent, Option.map_some,
      Option.bind_some, Option.bind_some, Scope.get?, Scope.get?, List.lookup_append]
    by_cases hname : name = symbol.name
    · rw [hname, if_pos rfl, List.lookup_cons_self]
    · rw [if_neg hname, List.lookup_cons, beq_eq_false_iff_ne.2 hname]
      rfl
  · rw [if_neg hi, if_neg (Ne.symm hi)]

/-- The current scope binds a new name to the new symbol. -/
theorem getIn?_insert_self (hcurrent : table.current < table.scopes.size)
    (hnone : table.getIn? table.current symbol.name = none) :
    (table.insert symbol).getIn? table.current symbol.name = some table.symbols.size := by
  rw [getIn?_insert hcurrent, if_pos rfl, if_pos rfl, hnone, Option.none_or]

/-- Other names and other scopes are as before. -/
theorem getIn?_insert_of_ne (hcurrent : table.current < table.scopes.size)
    (hne : i = table.current → name ≠ symbol.name) :
    (table.insert symbol).getIn? i name = table.getIn? i name := by
  rw [getIn?_insert hcurrent]
  split
  next hi => rw [if_neg (hne hi), Option.or_none]
  next => rfl

/-- What is bound stays bound. -/
theorem getIn?_insert_of_eq_some (hcurrent : table.current < table.scopes.size)
    (h : table.getIn? i name = some n) : (table.insert symbol).getIn? i name = some n := by
  rw [getIn?_insert hcurrent, h, Option.some_or, ite_self]

theorem symbols_insert_of_eq_some {old : Symbol} (h : table.symbols[n]? = some old) :
    (table.insert symbol).symbols[n]? = some old := by
  obtain ⟨hlt, -⟩ := Array.getElem?_eq_some_iff.1 h
  rw [insert, Array.getElem?_push, if_neg (Nat.ne_of_lt hlt), h]

end Insert

namespace Mirrors

variable {table : SymbolTable} {lines : LineIndex} {places : List Place}
  {earlier : List Occurrence} {scope : Place}

theorem lt_size (h : table.Mirrors lines places earlier) {i : Nat} {place : Place}
    (hi : places[i]? = some place) : i < table.scopes.size := by
  obtain ⟨hi, -⟩ := List.getElem?_eq_some_iff.1 hi
  exact h.size ▸ hi

/-- The empty table mirrors no occurrences. -/
theorem empty (lines : LineIndex) : SymbolTable.empty.Mirrors lines [[]] [] where
  size := rfl
  nodup := by simp
  declared hd := by cases hd
  outermost {i} hi := by
    cases i with
    | zero => rfl
    | succ i => cases hi
  parent {i _ _} hi := by cases i <;> cases hi
  bound _ hd := by cases hd
  unbound {i _ _} hi _ := by
    cases i with
    | zero => rfl
    | succ i => cases hi

/-- The places with a further one. -/
theorem getElem?_concat_eq_some_iff {place new : Place} {i : Nat} :
    (places ++ [new])[i]? = some place ↔
      places[i]? = some place ∨ i = places.length ∧ place = new := by
  rw [List.getElem?_append]
  split
  next hlt =>
    have hne : i ≠ places.length := Nat.ne_of_lt hlt
    simp [hne]
  next hge =>
    rw [List.getElem?_eq_none (Nat.le_of_not_lt hge), List.getElem?_singleton]
    simp only [reduceCtorEq, false_or, Option.ite_some_none_eq_some]
    rw [eq_comm (a := new)]
    refine and_congr_left fun _ => ?_
    omega

/-- A scope is opened in a new place. -/
theorem enter (h : table.Mirrors lines places earlier) (kind : ScopeKind) {step : Step}
    (hcurrent : places[table.current]? = some scope) (hfresh : step :: scope ∉ places) :
    (table.enter kind).Mirrors lines (places ++ [step :: scope]) earlier := by
  have hold {i : Nat} {place : Place} (hi : places[i]? = some place) :
      (places ++ [step :: scope])[i]? = some place :=
    getElem?_concat_eq_some_iff.2 (.inl hi)
  have hcases {i : Nat} {place : Place} (hi : (places ++ [step :: scope])[i]? = some place) :
      places[i]? = some place ∨ i = table.scopes.size ∧ place = step :: scope := by
    rw [← h.size]
    exact getElem?_concat_eq_some_iff.1 hi
  constructor
  case size => simp [SymbolTable.enter, h.size]
  case nodup =>
    -- the new place is none of the old ones
    refine List.nodup_append.2 ⟨h.nodup, by simp, fun place hplace other hother => ?_⟩
    rw [List.mem_singleton.1 hother]
    rintro rfl
    exact hfresh hplace
  case declared => exact fun hd => List.mem_append_left _ (h.declared hd)
  case outermost =>
    intro i hi
    rcases hcases hi with hi | ⟨-, hplace⟩
    · rw [scopes_enter_of_lt kind (h.lt_size hi)]
      exact h.outermost hi
    · cases hplace
  case parent =>
    intro i step' outer hi
    rcases hcases hi with hi | ⟨rfl, hplace⟩
    · obtain ⟨j, hj, hparent, houter⟩ := h.parent hi
      rw [scopes_enter_of_lt kind (h.lt_size hi)]
      exact ⟨j, hj, hparent, hold houter⟩
    · obtain ⟨-, rfl⟩ := List.cons.inj hplace
      refine ⟨table.current, h.lt_size hcurrent, ?_, hold hcurrent⟩
      rw [SymbolTable.enter, Array.getElem?_push_size, Option.bind_some]
  case bound =>
    intro i place name d hi hd
    rw [getIn?_enter]
    rcases hcases hi with hi | ⟨-, rfl⟩
    · exact h.bound hi hd
    -- nothing is declared yet in the new place
    · obtain ⟨hmem, -, hscope⟩ := of_declarationIn_eq_some hd
      exact absurd (hscope ▸ h.declared hmem) hfresh
  case unbound =>
    intro i place name hi hd
    rw [getIn?_enter]
    rcases hcases hi with hi | ⟨rfl, -⟩
    · exact h.unbound hi hd
    · exact table.getIn?_size name

/-- Leaving a scope goes back to the one around it. -/
theorem leave (h : table.Mirrors lines places earlier) {step : Step}
    (hcurrent : places[table.current]? = some (step :: scope)) :
    table.leave.Mirrors lines places earlier ∧ places[table.leave.current]? = some scope := by
  obtain ⟨j, -, hparent, hj⟩ := h.parent hcurrent
  have hleave : table.leave = { table with current := j } := by rw [SymbolTable.leave, hparent]
  rw [hleave]
  refine ⟨?_, hj⟩
  exact ⟨h.size, h.nodup, h.declared, h.outermost, h.parent, h.bound, h.unbound⟩

/-- An occurrence that does not change what is declared first leaves the table right. -/
theorem append (h : table.Mirrors lines places earlier) {occurrence : Occurrence}
    (hdeclared : ∀ d, occurrence = .declaration d → d.scope ∈ places)
    (hfirst : ∀ name place, declarationIn (earlier ++ [occurrence]) name place =
      declarationIn earlier name place) :
    table.Mirrors lines places (earlier ++ [occurrence]) := by
  constructor
  -- what is declared first is as before, so only the places of declarations need care
  case declared =>
    intro d hd
    rcases List.mem_append.1 hd with hd | hd
    · exact h.declared hd
    · exact hdeclared d (List.mem_singleton.1 hd).symm
  case bound =>
    intro i place name d hi hd
    exact h.bound hi (hfirst name place ▸ hd)
  case unbound =>
    intro i place name hi hd
    exact h.unbound hi (hfirst name place ▸ hd)
  case size => exact h.size
  case nodup => exact h.nodup
  case outermost => exact h.outermost
  case parent => exact h.parent

/-- A use changes nothing. -/
theorem append_use (h : table.Mirrors lines places earlier) (ident : Ident) (role : Role)
    (inside : Place) : table.Mirrors lines places (earlier ++ [.use ident role inside]) :=
  h.append (fun _ hd => by cases hd) fun _ _ => declarationIn_append_use ident role inside

/-- A declaration is refused if there is one of the name in the scope, and the first one stays. -/
theorem declare_error (h : table.Mirrors lines places earlier) {ident : Ident} (kind : SymbolKind)
    {first : Declaration} (hcurrent : places[table.current]? = some scope)
    (hfirst : declarationIn earlier ident.name scope = some first) :
    ∃ n, table.declare ident.name kind (lines.lineOf ident.span.start) ident.span =
        .error ⟨ident.name, n, lines.lineOf first.ident.span.start⟩ ∧
      table.symbols[n]?.map Symbol.span = some first.ident.span ∧
        table.Mirrors lines places (earlier ++ [.declaration ⟨ident, kind, scope⟩]) := by
  obtain ⟨n, hn, hsymbol⟩ := h.bound hcurrent hfirst
  -- the table refuses the name, and the first declaration stays the first one
  refine ⟨n, ?_, ?_, h.append ?_ fun name place => ?_⟩
  · rw [SymbolTable.declare, hn]
    dsimp only
    rw [hsymbol]
    rfl
  · rw [hsymbol]
    rfl
  · rintro d hd
    obtain rfl := Occurrence.declaration.inj hd
    exact List.mem_of_getElem? hcurrent
  · rw [declarationIn_append_declaration]
    split
    next hsame =>
      obtain ⟨rfl, rfl⟩ := hsame
      rw [hfirst, Option.some_or]
    next => rw [Option.or_none]

/-- A declaration is entered if there is none of the name in the scope. -/
theorem declare_ok (h : table.Mirrors lines places earlier) {ident : Ident} (kind : SymbolKind)
    (hcurrent : places[table.current]? = some scope)
    (hnone : declarationIn earlier ident.name scope = none) :
    ∃ n table', table.declare ident.name kind (lines.lineOf ident.span.start) ident.span =
        .ok (n, table') ∧ table'.current = table.current ∧
      table'.Mirrors lines places (earlier ++ [.declaration ⟨ident, kind, scope⟩]) := by
  have hsize := h.lt_size hcurrent
  refine ⟨_, _, declare_eq_ok (h.unbound hcurrent hnone), rfl, ?_⟩
  constructor
  case size => rw [size_scopes_insert, h.size]
  case nodup => exact h.nodup
  case declared =>
    intro d hd
    rcases List.mem_append.1 hd with hd | hd
    · exact h.declared hd
    · obtain rfl := Occurrence.declaration.inj (List.mem_singleton.1 hd)
      exact List.mem_of_getElem? hcurrent
  case outermost =>
    intro i hi
    rw [parent_insert]
    exact h.outermost hi
  case parent =>
    intro i step outer hi
    rw [parent_insert]
    exact h.parent hi
  case bound =>
    intro i place name d hi hd
    rw [declarationIn_append_declaration] at hd
    cases hold : declarationIn earlier name place with
    -- an earlier declaration stays the first one
    | some d' =>
      rw [hold, Option.some_or] at hd
      obtain ⟨n, hn, hsymbol⟩ := h.bound hi (hold.trans hd)
      exact ⟨n, getIn?_insert_of_eq_some hsize hn, symbols_insert_of_eq_some hsymbol⟩
    -- without one, it is the new declaration, and the place is that of the current scope
    | none =>
      rw [hold, Option.none_or] at hd
      obtain ⟨⟨rfl, rfl⟩, rfl⟩ := Option.ite_some_none_eq_some.1 hd
      obtain rfl := (List.getElem?_inj (h.size ▸ hsize) h.nodup).1 (hcurrent.trans hi.symm)
      exact ⟨table.symbols.size, getIn?_insert_self hsize (h.unbound hi hold),
        Array.getElem?_push_size⟩
  case unbound =>
    intro i place name hi hd
    rw [declarationIn_append_declaration, Option.or_eq_none_iff] at hd
    obtain ⟨hold, hnew⟩ := hd
    -- the new declaration is of another name or in another place
    have hne : i = table.current → name ≠ ident.name := by
      rintro rfl rfl
      obtain rfl := Option.some.inj (hcurrent.symm.trans hi)
      rw [if_pos ⟨rfl, rfl⟩] at hnew
      cases hnew
    rw [getIn?_insert_of_ne hsize hne, h.unbound hi hold]

/-- Looking a name up from a scope finds the symbol of the visible declaration. -/
theorem lookupFrom_of_some (h : table.Mirrors lines places earlier) {name : String}
    {declared : Declaration} {i : Nat} (hi : places[i]? = some scope)
    (hvisible : visibleDeclaration earlier name scope = some declared) :
    ∃ n j, table.lookupFrom i name = some n ∧
      table.symbols[n]? = some (declared.symbol lines j) := by
  -- by induction on the place, outward along the parents
  induction scope generalizing i with
  | nil =>
    rw [visibleDeclaration_nil] at hvisible
    obtain ⟨n, hn, hsymbol⟩ := h.bound hi hvisible
    exact ⟨n, i, by rw [lookupFrom, hn], hsymbol⟩
  | cons step outer ih =>
    rw [visibleDeclaration_cons] at hvisible
    cases hfirst : declarationIn earlier name (step :: outer) with
    | some first =>
      rw [hfirst, Option.some_or] at hvisible
      obtain ⟨n, hn, hsymbol⟩ := h.bound hi (hfirst.trans hvisible)
      exact ⟨n, i, by rw [lookupFrom, hn], hsymbol⟩
    | none =>
      rw [hfirst, Option.none_or] at hvisible
      obtain ⟨j, hj, hparent, houter⟩ := h.parent hi
      obtain ⟨n, k, hn, hsymbol⟩ := ih houter hvisible
      refine ⟨n, k, ?_, hsymbol⟩
      rw [lookupFrom, h.unbound hi hfirst]
      dsimp only
      rw [hparent]
      dsimp only
      rw [if_pos hj, hn]

/-- Looking a name up from a scope fails if no declaration is visible. -/
theorem lookupFrom_of_none (h : table.Mirrors lines places earlier) {name : String} {i : Nat}
    (hi : places[i]? = some scope) (hvisible : visibleDeclaration earlier name scope = none) :
    table.lookupFrom i name = none := by
  -- by induction on the place, outward along the parents
  induction scope generalizing i with
  | nil =>
    rw [visibleDeclaration_nil] at hvisible
    rw [lookupFrom, h.unbound hi hvisible]
    dsimp only
    rw [h.outermost hi]
  | cons step outer ih =>
    rw [visibleDeclaration_cons, Option.or_eq_none_iff] at hvisible
    obtain ⟨j, hj, hparent, houter⟩ := h.parent hi
    rw [lookupFrom, h.unbound hi hvisible.1]
    dsimp only
    rw [hparent]
    dsimp only
    rw [if_pos hj, ih houter hvisible.2]

end Mirrors

end SymbolTable

end CrudLang
