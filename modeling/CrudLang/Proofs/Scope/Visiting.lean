import CrudLang.Proofs.Scope.Mirroring

/-!
# Checking follows the rules of scope

Playing the events of a program on a symbol table visits the occurrences of names in it.
`Checking.Follows` says what holds between two events: the table mirrors the occurrences so far, and
the diagnostics are those for the verdicts on them. `Visits` says that a run of events keeps this
and visits given occurrences; the scopes that it opens stand in places that are new. From this,
by induction on the tree:

* `Checking.diagnostics_program`: the diagnostics for a program are those of the rules of scope.
-/

namespace CrudLang

/-- One step leads to an earlier block than another. -/
def Step.Before (step next : Step) : Prop :=
  step.item < next.item ∨ step.item = next.item ∧ step.branch < next.branch

/-- What holds while a program is checked, in a scope and behind some occurrences: the scopes so far
have places, the table mirrors the occurrences and each verdict on them is reported. -/
structure Checking.Follows (lines : LineIndex) (s : Checking) (places : List Place)
    (earlier : List Occurrence) (scope : Place) : Prop where
  table : s.table.Mirrors lines places earlier
  current : places[s.table.current]? = some scope
  diagnostics : s.diagnostics = (verdicts earlier).map (Verdict.diagnostic lines)

namespace Checking.Follows

variable {lines : LineIndex} {s : Checking} {places : List Place} {earlier : List Occurrence}
  {scope : Place}

/-- Nothing has been visited at the start. -/
theorem start (lines : LineIndex) : Checking.start.Follows lines [[]] [] [] where
  table := .empty lines
  current := rfl
  diagnostics := rfl

theorem enter (h : s.Follows lines places earlier scope) (kind : ScopeKind) {step : Step}
    (hfresh : step :: scope ∉ places) :
    (s.step lines (.enter kind)).Follows lines (places ++ [step :: scope]) earlier
      (step :: scope) where
  table := h.table.enter kind h.current hfresh
  current := by
    have hcurrent : (s.step lines (.enter kind)).table.current = places.length :=
      h.table.size.symm
    rw [hcurrent, List.getElem?_concat_length]
  diagnostics := h.diagnostics

theorem leave {step : Step} (h : s.Follows lines places earlier (step :: scope)) :
    (s.step lines .leave).Follows lines places earlier scope := by
  obtain ⟨htable, hcurrent⟩ := h.table.leave h.current
  exact ⟨htable, hcurrent, h.diagnostics⟩

/-- A verdict that is reported. -/
theorem diagnostics_report (h : s.Follows lines places earlier scope) {occurrence : Occurrence}
    {verdict : Verdict} {error : ScopeError} (hverdict : occurrence.verdict? earlier = some verdict)
    (herror : error.diagnostic lines = verdict.diagnostic lines) :
    (s.report lines error).diagnostics =
      (verdicts (earlier ++ [occurrence])).map (Verdict.diagnostic lines) := by
  rw [verdicts_append_singleton, hverdict, List.map_append, ← h.diagnostics, report,
    Diagnostics.report, herror]
  rfl

/-- Nothing is reported without a verdict. -/
theorem diagnostics_of_none (h : s.Follows lines places earlier scope) {occurrence : Occurrence}
    (hverdict : occurrence.verdict? earlier = none) :
    s.diagnostics = (verdicts (earlier ++ [occurrence])).map (Verdict.diagnostic lines) := by
  rw [verdicts_append_singleton, hverdict, Option.toList_none, List.append_nil, h.diagnostics]

/-- A declaration is visited. -/
theorem declare (h : s.Follows lines places earlier scope) (ident : Ident) (kind : SymbolKind) :
    (s.step lines (.declare ident kind)).Follows lines places
      (earlier ++ [.declaration ⟨ident, kind, scope⟩]) scope := by
  rw [step, Checking.declare]
  cases hfirst : declarationIn earlier ident.name scope with
  | none =>
    -- the table accepts the name where there is no verdict, and refuses it where there is one
    obtain ⟨n, table', htable, hcurrent, hmirrors⟩ := h.table.declare_ok kind h.current hfirst
    rw [htable]
    have hverdict : (Occurrence.declaration ⟨ident, kind, scope⟩).verdict? earlier = none := by
      rw [Occurrence.verdict?, hfirst, Option.map_none]
    exact ⟨hmirrors, by rw [hcurrent, h.current], h.diagnostics_of_none hverdict⟩
  | some first =>
    obtain ⟨n, htable, hspan, hmirrors⟩ := h.table.declare_error kind h.current hfirst
    rw [htable]
    dsimp only
    rw [hspan]
    have hverdict : (Occurrence.declaration ⟨ident, kind, scope⟩).verdict? earlier =
        some (.redeclared ident first) := by
      rw [Occurrence.verdict?, hfirst, Option.map_some]
    exact ⟨hmirrors, h.current, h.diagnostics_report hverdict rfl⟩

/-- A use is visited. -/
theorem use (h : s.Follows lines places earlier scope) (ident : Ident) (role : Role) :
    (s.step lines (.use ident role)).Follows lines places
      (earlier ++ [.use ident role scope]) scope := by
  have hmirrors := h.table.append_use ident role scope
  rw [step, Checking.use, SymbolTable.lookup]
  cases hvisible : visibleDeclaration earlier ident.name scope with
  | none =>
    rw [h.table.lookupFrom_of_none h.current hvisible]
    have hverdict : (Occurrence.use ident role scope).verdict? earlier =
        some (.undeclared ident) := by
      rw [Occurrence.verdict?, hvisible]
    exact ⟨hmirrors, h.current, h.diagnostics_report hverdict rfl⟩
  | some declared =>
    -- the symbol that is found has the kind of the visible declaration
    obtain ⟨n, j, hn, hsymbol⟩ := h.table.lookupFrom_of_some h.current hvisible
    rw [hn, Option.bind_some, hsymbol]
    have hverdict : (Occurrence.use ident role scope).verdict? earlier =
        if declared.kind.Suits role then none else some (.mismatch ident role declared) := by
      rw [Occurrence.verdict?, hvisible]
    have hkind : (declared.symbol lines j).kind = declared.kind := rfl
    dsimp only
    rw [hkind]
    by_cases hsuits : declared.kind.Suits role
    · rw [if_pos hsuits] at hverdict
      rw [if_pos (SymbolKind.suits_iff.1 hsuits)]
      exact ⟨hmirrors, h.current, h.diagnostics_of_none hverdict⟩
    · rw [if_neg hsuits] at hverdict
      rw [if_neg (mt SymbolKind.suits_iff.2 hsuits)]
      exact ⟨hmirrors, h.current, h.diagnostics_report hverdict rfl⟩

end Checking.Follows

/-- From a scope, no step as late as the given one has been taken yet. -/
def Unvisited (places : List Place) (scope : Place) (step : Step) : Prop :=
  ∀ place ∈ places, ∀ taken, taken :: scope <:+ place → taken.Before step

namespace Unvisited

variable {places places' : List Place} {scope : Place} {step : Step} {item branch : Nat}

/-- A step that is still free leads to no place. -/
theorem not_suffix (h : Unvisited places scope step) {place : Place} (hplace : place ∈ places) :
    ¬ step :: scope <:+ place := by
  intro hsuffix
  have hbefore := h place hplace step hsuffix
  rw [Step.Before] at hbefore
  omega

/-- In a new place all steps are free. -/
theorem enter (h : Unvisited places scope step) :
    Unvisited (places ++ [step :: scope]) (step :: scope) ⟨0, 0⟩ := by
  intro place hplace taken htaken
  rcases List.mem_append.1 hplace with hplace | hplace
  · exact absurd ((List.suffix_cons taken _).trans htaken) (h.not_suffix hplace)
  · rw [List.mem_singleton.1 hplace] at htaken
    exact absurd htaken.length_le (Nat.not_succ_le_self _)

/-- If all new places are inside a block, the steps from the next block on are free. -/
theorem nextBranch (h : Unvisited places scope ⟨item, branch⟩)
    (hplaces : ∀ place ∈ places', place ∈ places ∨ ⟨item, branch⟩ :: scope <:+ place) :
    Unvisited places' scope ⟨item, branch + 1⟩ := by
  intro place hplace taken htaken
  rcases hplaces place hplace with hplace | hsuffix
  · rcases h place hplace taken htaken with hitem | ⟨hitem, hbranch⟩
    · exact .inl hitem
    · exact .inr ⟨hitem, Nat.lt_succ_of_lt hbranch⟩
  -- the place is inside the block, so the step taken is the one into it
  · have hsame := List.suffix_of_suffix_length_le htaken hsuffix (Nat.le_refl _)
    obtain ⟨rfl, -⟩ := List.cons.inj (hsame.eq_of_length rfl)
    exact .inr ⟨rfl, Nat.lt_succ_self branch⟩

/-- The steps from the next statement on are free if those from a block of this one on are. -/
theorem nextItem (h : Unvisited places scope ⟨item, branch⟩) :
    Unvisited places scope ⟨item + 1, 0⟩ := by
  intro place hplace taken htaken
  rcases h place hplace taken htaken with hitem | ⟨hitem, -⟩
  · exact .inl (Nat.lt_succ_of_lt hitem)
  · exact .inl (Nat.lt_succ_of_le (Nat.le_of_eq hitem))

end Unvisited

/-- Playing events in a scope visits occurrences. The scopes that are opened meanwhile stand inside
the scope, where the steps from `first` on are still free and those from `next` on stay free. -/
def Visits (lines : LineIndex) (scope : Place) (first next : Step) (events : List Event)
    (occurrences : List Occurrence) : Prop :=
  ∀ s places earlier, Checking.Follows lines s places earlier scope →
    Unvisited places scope first →
      ∃ places',
        Checking.Follows lines (s.play lines events) places' (earlier ++ occurrences) scope ∧
          Unvisited places' scope next ∧ ∀ place ∈ places', place ∈ places ∨ scope <:+ place

namespace Visits

variable {lines : LineIndex} {scope : Place} {first mid next : Step} {events events' : List Event}
  {occurrences occurrences' : List Occurrence}

theorem nextItem {item branch : Nat}
    (h : Visits lines scope first ⟨item, branch⟩ events occurrences) :
    Visits lines scope first ⟨item + 1, 0⟩ events occurrences := by
  intro s places earlier hs hfirst
  obtain ⟨places', hs', hmid, hplaces⟩ := h s places earlier hs hfirst
  exact ⟨places', hs', hmid.nextItem, hplaces⟩

theorem nil : Visits lines scope first first [] [] := by
  intro s places earlier hs hfirst
  rw [List.append_nil]
  exact ⟨places, hs, hfirst, fun _ => .inl⟩

/-- Events are played one run after the other. -/
theorem append (h : Visits lines scope first mid events occurrences)
    (h' : Visits lines scope mid next events' occurrences') :
    Visits lines scope first next (events ++ events') (occurrences ++ occurrences') := by
  intro s places earlier hs hfirst
  obtain ⟨places', hs', hmid, hplaces⟩ := h s places earlier hs hfirst
  obtain ⟨places'', hs'', hnext, hplaces'⟩ := h' _ places' _ hs' hmid
  refine ⟨places'', ?_, hnext, fun place hplace => ?_⟩
  · rw [Checking.play, List.foldl_append, ← List.append_assoc]
    exact hs''
  · rcases hplaces' place hplace with hplace | hplace
    · exact hplaces place hplace
    · exact .inr hplace

theorem declare (ident : Ident) (kind : SymbolKind) :
    Visits lines scope first first [.declare ident kind]
      [.declaration ⟨ident, kind, scope⟩] :=
  fun _ places _ hs hfirst => ⟨places, hs.declare ident kind, hfirst, fun _ => .inl⟩

theorem use (ident : Ident) (role : Role) :
    Visits lines scope first first [.use ident role] [.use ident role scope] :=
  fun _ places _ hs hfirst => ⟨places, hs.use ident role, hfirst, fun _ => .inl⟩

/-- Events in a scope of their own, in a place that is still free. -/
theorem inScope {item branch : Nat} (kind : ScopeKind)
    (h : ∃ last, Visits lines (⟨item, branch⟩ :: scope) ⟨0, 0⟩ last events occurrences) :
    Visits lines scope ⟨item, branch⟩ ⟨item, branch + 1⟩ (Event.inScope kind events)
      occurrences := by
  intro s places earlier hs hfirst
  obtain ⟨last, h⟩ := h
  -- the place of the scope is new, and nothing inside it has been visited
  have hs₁ := hs.enter kind fun hmem => hfirst.not_suffix hmem (List.suffix_refl _)
  obtain ⟨places', hs₂, -, hplaces⟩ := h _ _ _ hs₁ hfirst.enter
  have hinside (place : Place) (hplace : place ∈ places') :
      place ∈ places ∨ ⟨item, branch⟩ :: scope <:+ place := by
    rcases hplaces place hplace with hplace | hsuffix
    · rcases List.mem_append.1 hplace with hplace | hplace
      · exact .inl hplace
      · exact .inr (List.mem_singleton.1 hplace ▸ List.suffix_refl _)
    · exact .inr hsuffix
  refine ⟨places', ?_, hfirst.nextBranch hinside, fun place hplace => ?_⟩
  · rw [Event.inScope, Checking.play, List.foldl_append]
    exact hs₂.leave
  · rcases hinside place hplace with hplace | hsuffix
    · exact .inl hplace
    · exact .inr ((List.suffix_cons _ scope).trans hsuffix)

end Visits

section Trees

variable (lines : LineIndex) (scope : Place)

mutual

/-- The occurrences in an expression are visited in order. -/
theorem Expr.visits (step : Step) : (e : Expr) →
    Visits lines scope step step e.events (e.occurrences scope)
  | .number _ _ | .string _ _ | .bool _ _ => .nil
  | .name ident => .use ident .value
  | .unary _ operand _ => Expr.visits step operand
  | .binary _ left right _ => (Expr.visits step left).append (Expr.visits step right)
  | .assign target value _ => (Visits.use target .assignment).append (Expr.visits step value)
  | .call callee args _ => (Visits.use callee .call).append (Expr.visitsOfAll step args)
  | .new className args _ =>
    (Visits.use className .instantiation).append (Expr.visitsOfAll step args)

theorem Expr.visitsOfAll (step : Step) : (exprs : List Expr) →
    Visits lines scope step step (Expr.eventsOfAll exprs) (Expr.occurrencesOfAll scope exprs)
  | [] => .nil
  | expr :: rest => (Expr.visits step expr).append (Expr.visitsOfAll step rest)

end

theorem Expr.visitsOf? (step : Step) : (expr : Option Expr) →
    Visits lines scope step step (Expr.eventsOf? expr) (Expr.occurrencesOf? scope expr)
  | none => .nil
  | some expr => expr.visits lines scope step

/-- Parameters are visited in order. -/
theorem visits_params (step : Step) (params : List Ident) :
    Visits lines scope step step (params.map fun param => .declare param .variable)
      (params.map fun param => .declaration ⟨param, .variable, scope⟩) := by
  induction params with
  | nil => exact .nil
  | cons param params ih => exact (Visits.declare param .variable).append ih

end Trees

mutual

/-- The occurrences in a statement are visited in order. -/
theorem Stmt.visits (lines : LineIndex) (scope : Place) (item branch : Nat) (stmt : Stmt) :
    Visits lines scope ⟨item, branch⟩ ⟨item + 1, 0⟩ stmt.events
      (stmt.occurrences scope ⟨item, branch⟩) := by
  match stmt with
  -- a value is visited before the name that it initialises
  | .var name init _ =>
    exact ((Expr.visitsOf? lines scope _ init).append (.declare name .variable)).nextItem
  | .const name value _ =>
    exact ((Expr.visits lines scope _ value).append (.declare name .constant)).nextItem
  -- a name is visited before the scope that it stands in front of
  | .func name params body _ =>
    obtain ⟨last, hbody⟩ := Block.visits lines (⟨item, branch⟩ :: scope) body
    have hinner := (visits_params lines (⟨item, branch⟩ :: scope) _ params).append hbody
    exact ((Visits.declare name .function).append (.inScope .function ⟨last, hinner⟩)).nextItem
  | .class name members _ =>
    have hmembers := Stmt.visitsOfAll lines (⟨item, branch⟩ :: scope) 0 members
    exact ((Visits.declare name .class).append (.inScope .class ⟨_, hmembers⟩)).nextItem
  -- what follows `else` opens the next block of the same statement
  | .if condition body alternative _ =>
    have hbody := Visits.inScope .conditional (Block.visits lines (⟨item, branch⟩ :: scope) body)
    exact ((Expr.visits lines scope _ condition).append hbody).append
      (Stmt.visitsOf? lines scope item (branch + 1) alternative)
  | .loop body _ =>
    exact (Visits.inScope .loop (Block.visits lines (⟨item, branch⟩ :: scope) body)).nextItem
  | .while condition body _ =>
    have hbody := Visits.inScope .loop (Block.visits lines (⟨item, branch⟩ :: scope) body)
    exact ((Expr.visits lines scope _ condition).append hbody).nextItem
  | .crud op target args _ =>
    exact ((Visits.use target (.crud op)).append (Expr.visitsOfAll lines scope _ args)).nextItem
  | .return value _ => exact (Expr.visitsOf? lines scope _ value).nextItem
  | .block body =>
    exact (Visits.inScope .block (Block.visits lines (⟨item, branch⟩ :: scope) body)).nextItem
  | .expr expr _ => exact (Expr.visits lines scope _ expr).nextItem
  | .error _ => exact Visits.nil.nextItem

/-- The occurrences in what follows `else` are visited in order. -/
theorem Stmt.visitsOf? (lines : LineIndex) (scope : Place) (item branch : Nat)
    (alternative : Option Stmt) :
    Visits lines scope ⟨item, branch⟩ ⟨item + 1, 0⟩ (Stmt.eventsOfAlternative alternative)
      (Stmt.occurrencesOf? scope ⟨item, branch⟩ alternative) := by
  match alternative with
  | none => exact Visits.nil.nextItem
  | some (.block body) =>
    exact (Visits.inScope .conditional
      (Block.visits lines (⟨item, branch⟩ :: scope) body)).nextItem
  | some (.var _ _ _) | some (.const _ _ _) | some (.func _ _ _ _) | some (.class _ _ _)
  | some (.if _ _ _ _) | some (.loop _ _) | some (.while _ _ _) | some (.crud _ _ _ _)
  | some (.return _ _) | some (.expr _ _) | some (.error _) =>
    exact Stmt.visits lines scope item branch _

theorem Block.visits (lines : LineIndex) (scope : Place) (body : Block Stmt) :
    ∃ last, Visits lines scope ⟨0, 0⟩ last (Block.events body) (Block.occurrences scope body) := by
  match body with
  | ⟨stmts, _⟩ => exact ⟨_, Stmt.visitsOfAll lines scope 0 stmts⟩

theorem Stmt.visitsOfAll (lines : LineIndex) (scope : Place) (item : Nat) (stmts : List Stmt) :
    Visits lines scope ⟨item, 0⟩ ⟨item + stmts.length, 0⟩ (Stmt.eventsOfAll stmts)
      (Stmt.occurrencesOfAll scope item stmts) := by
  match stmts with
  | [] => exact .nil
  | stmt :: rest =>
    have hrest := Stmt.visitsOfAll lines scope (item + 1) rest
    rw [Nat.add_right_comm] at hrest
    exact (Stmt.visits lines scope item 0 stmt).append hrest

end

/-- Names are checked by the rules of scope: the diagnostics for a program are those for the
verdicts on the occurrences of names in it, in the order in which they are visited. -/
theorem Checking.diagnostics_program (lines : LineIndex) (program : Program) :
    (Checking.program lines .start program).diagnostics =
      (verdicts program.occurrences).map (Verdict.diagnostic lines) := by
  have hvisits := Stmt.visitsOfAll lines [] 0 program.stmts
  -- at the start there is only the global scope
  have hfree : Unvisited [[]] [] ⟨0, 0⟩ := by
    intro place hplace taken htaken
    rw [List.mem_singleton.1 hplace] at htaken
    exact absurd htaken.length_le (Nat.not_succ_le_zero _)
  obtain ⟨places, hfollows, -, -⟩ := hvisits .start [[]] [] (.start lines) hfree
  exact hfollows.diagnostics

end CrudLang
