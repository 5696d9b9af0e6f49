import Mathlib.Data.List.Basic
import CrudLang.Scope.Checking

/-!
# The rules of scope

The rules of scope, stated without a symbol table. A scope is known by its place in the tree, and a
program is the list of the occurrences of names in it, in the order in which they are visited
and each with the place of the scope around it: `Program.occurrences`. What the rules say about an
occurrence depends on the occurrences before it alone (`Occurrence.verdict?`):

* a declaration must not be behind another one of the same name in the very same scope;
* a use must be behind a declaration of the name in a scope around it, and of these declarations the
  first one in the innermost scope that has any must be of a kind for the use.
-/

namespace CrudLang

/-- The step from a scope into one that is opened directly inside it: the position of the statement
among those of the scope, and for the blocks of a conditional the position among these. -/
structure Step where
  /-- The position of the statement. -/
  item : Nat
  /-- The position of the block. -/
  branch : Nat
deriving DecidableEq, Repr

/-- The place of a scope in the tree: the steps that lead to it from the global scope, the innermost
first. -/
abbrev Place :=
  List Step

/-- The places of the scopes around a place, itself included, from the inside out. -/
def Place.enclosing : Place → List Place
  | [] => [[]]
  | step :: outer => (step :: outer) :: Place.enclosing outer

/-- A name that is declared. -/
structure Declaration where
  /-- The name, where it stands. -/
  ident : Ident
  /-- What it is declared as. -/
  kind : SymbolKind
  /-- The scope that the declaration belongs to. -/
  scope : Place
deriving DecidableEq, Repr

/-- An occurrence of a name in a program. -/
inductive Occurrence where
  /-- The name is declared. -/
  | declaration (declaration : Declaration)
  /-- The name is used in a scope. -/
  | use (ident : Ident) (role : Role) (scope : Place)
deriving DecidableEq, Repr

mutual

/-- The occurrences in an expression. -/
def Expr.occurrences (scope : Place) : Expr → List Occurrence
  | .number _ _ | .string _ _ | .bool _ _ => []
  | .name ident => [.use ident .value scope]
  | .unary _ operand _ => operand.occurrences scope
  | .binary _ left right _ => left.occurrences scope ++ right.occurrences scope
  | .assign target value _ => .use target .assignment scope :: value.occurrences scope
  | .call callee args _ => .use callee .call scope :: Expr.occurrencesOfAll scope args
  | .new className args _ => .use className .instantiation scope :: Expr.occurrencesOfAll scope args

/-- The occurrences in expressions. -/
def Expr.occurrencesOfAll (scope : Place) : List Expr → List Occurrence
  | [] => []
  | expr :: rest => expr.occurrences scope ++ Expr.occurrencesOfAll scope rest

end

/-- The occurrences in an expression that may be missing. -/
def Expr.occurrencesOf? (scope : Place) : Option Expr → List Occurrence
  | none => []
  | some expr => expr.occurrences scope

mutual

/-- The occurrences in a statement of a scope, from which the step leads into the first scope that
the statement opens. -/
def Stmt.occurrences (scope : Place) (step : Step) : Stmt → List Occurrence
  | .var name init _ =>
    Expr.occurrencesOf? scope init ++ [.declaration ⟨name, .variable, scope⟩]
  | .const name value _ => value.occurrences scope ++ [.declaration ⟨name, .constant, scope⟩]
  | .func name params body _ =>
    .declaration ⟨name, .function, scope⟩ ::
      params.map (fun param => .declaration ⟨param, .variable, step :: scope⟩) ++
      Block.occurrences (step :: scope) body
  | .class name members _ =>
    .declaration ⟨name, .class, scope⟩ :: Stmt.occurrencesOfAll (step :: scope) 0 members
  | .if condition body alternative _ =>
    condition.occurrences scope ++ Block.occurrences (step :: scope) body ++
      Stmt.occurrencesOf? scope ⟨step.item, step.branch + 1⟩ alternative
  | .loop body _ => Block.occurrences (step :: scope) body
  | .while condition body _ =>
    condition.occurrences scope ++ Block.occurrences (step :: scope) body
  | .crud op target args _ => .use target (.crud op) scope :: Expr.occurrencesOfAll scope args
  | .return value _ => Expr.occurrencesOf? scope value
  | .block body => Block.occurrences (step :: scope) body
  | .expr expr _ => expr.occurrences scope
  | .error _ => []

/-- The occurrences in a block, whose statements stand in a scope. -/
def Block.occurrences (scope : Place) : Block Stmt → List Occurrence
  | ⟨stmts, _⟩ => Stmt.occurrencesOfAll scope 0 stmts

/-- The occurrences in statements of a scope, the first of them at a position. -/
def Stmt.occurrencesOfAll (scope : Place) (item : Nat) : List Stmt → List Occurrence
  | [] => []
  | stmt :: rest => stmt.occurrences scope ⟨item, 0⟩ ++ Stmt.occurrencesOfAll scope (item + 1) rest

/-- The occurrences in what follows `else`. -/
def Stmt.occurrencesOf? (scope : Place) (step : Step) : Option Stmt → List Occurrence
  | none => []
  | some stmt => stmt.occurrences scope step

end

/-- The occurrences in a program. -/
def Program.occurrences (program : Program) : List Occurrence :=
  Stmt.occurrencesOfAll [] 0 program.stmts

/-- The declaration that an occurrence is. -/
def Occurrence.declaration? : Occurrence → Option Declaration
  | .declaration d => some d
  | .use _ _ _ => none

/-- The first declaration of a name in a scope. -/
def declarationIn (earlier : List Occurrence) (name : String) (scope : Place) :
    Option Declaration :=
  (earlier.filterMap Occurrence.declaration?).find? fun d => d.ident.name = name ∧ d.scope = scope

/-- The first declaration of a name in the innermost scope around a place that has one. -/
def visibleDeclaration (earlier : List Occurrence) (name : String) (scope : Place) :
    Option Declaration :=
  scope.enclosing.findSome? (declarationIn earlier name)

/-- A kind of name suits a use. The value of any name may be used. -/
def SymbolKind.Suits (kind : SymbolKind) : Role → Prop
  | .value => True
  | .assignment => kind = .variable
  | .call => kind = .function
  | .instantiation => kind = .class
  | .crud _ => kind = .class ∨ kind = .variable

instance (kind : SymbolKind) : (role : Role) → Decidable (kind.Suits role)
  | .value => inferInstanceAs (Decidable True)
  | .assignment => inferInstanceAs (Decidable (kind = .variable))
  | .call => inferInstanceAs (Decidable (kind = .function))
  | .instantiation => inferInstanceAs (Decidable (kind = .class))
  | .crud _ => inferInstanceAs (Decidable (kind = .class ∨ kind = .variable))

/-- What the rules of scope have against an occurrence. -/
inductive Verdict where
  /-- The name is already declared in the very same scope. -/
  | redeclared (ident : Ident) (first : Declaration)
  /-- No declaration of the name is in sight. -/
  | undeclared (ident : Ident)
  /-- The name is declared, but not for this use. -/
  | mismatch (ident : Ident) (role : Role) (declared : Declaration)
deriving DecidableEq, Repr

/-- What the rules of scope have against an occurrence that is visited behind others. -/
def Occurrence.verdict? (earlier : List Occurrence) : Occurrence → Option Verdict
  | .declaration d => (declarationIn earlier d.ident.name d.scope).map (.redeclared d.ident)
  | .use ident role scope =>
    match visibleDeclaration earlier ident.name scope with
    | none => some (.undeclared ident)
    | some declared =>
      if declared.kind.Suits role then none else some (.mismatch ident role declared)

/-- What the rules of scope have against occurrences, each of them behind those before it. -/
def verdicts (occurrences : List Occurrence) : List Verdict :=
  occurrences.zipIdx.filterMap fun (occurrence, i) => occurrence.verdict? (occurrences.take i)

namespace Verdict

/-- The diagnostic for a verdict: it points to the occurrence, and to the declaration that is in its
way. -/
def diagnostic (lines : LineIndex) : Verdict → Diagnostic
  | .redeclared ident first =>
    { kind := .redeclaredIdentifier
      message := s!"'{ident.name}' is already declared in this scope"
      line := lines.lineOf ident.span.start
      primary := ⟨ident.span, "redeclared here"⟩
      secondary := [⟨first.ident.span, "previously declared here"⟩]
      notes := [s!"first declaration is on line {lines.lineOf first.ident.span.start}"] }
  | .undeclared ident =>
    { kind := .undeclaredIdentifier
      message := s!"use of undeclared identifier '{ident.name}'"
      line := lines.lineOf ident.span.start
      primary := ⟨ident.span, "not found in this scope"⟩ }
  | .mismatch ident role declared =>
    { kind := .kindMismatch
      message := ScopeError.mismatchMessage ident.name role declared.kind
      line := lines.lineOf ident.span.start
      primary := ⟨ident.span, s!"this is a {declared.kind.text}"⟩
      secondary := [⟨declared.ident.span,
        s!"'{declared.ident.name}' declared as a {declared.kind.text} here"⟩] }

end Verdict

/-- Checking accepts the kinds of names that suit a use. -/
theorem SymbolKind.suits_iff {kind : SymbolKind} {role : Role} :
    kind.Suits role ↔ role.accepts kind = true := by
  cases role <;> simp [Suits, Role.accepts]

/-- The scopes around a place are those that lead to it. -/
theorem Place.mem_enclosing {outer scope : Place} : outer ∈ scope.enclosing ↔ outer <:+ scope := by
  induction scope with
  | nil => rw [enclosing, List.mem_singleton, List.suffix_nil]
  | cons step scope ih => rw [enclosing, List.mem_cons, ih, List.suffix_cons_iff]

section Declarations

variable {earlier : List Occurrence} {name : String} {scope : Place}

theorem mem_declarations {d : Declaration} :
    d ∈ earlier.filterMap Occurrence.declaration? ↔ .declaration d ∈ earlier := by
  rw [List.mem_filterMap]
  constructor
  · rintro ⟨occurrence, hmem, hd⟩
    cases occurrence with
    | declaration d' => exact Option.some.inj hd ▸ hmem
    | use => cases hd
  · exact fun hmem => ⟨_, hmem, rfl⟩

/-- A declaration that is found is one of the name in the scope. -/
theorem of_declarationIn_eq_some {d : Declaration} (h : declarationIn earlier name scope = some d) :
    .declaration d ∈ earlier ∧ d.ident.name = name ∧ d.scope = scope :=
  ⟨mem_declarations.1 (List.mem_of_find?_eq_some h), by simpa using List.find?_some h⟩

/-- No declaration is found in a scope that has none of the name. -/
theorem declarationIn_eq_none_iff : declarationIn earlier name scope = none ↔
    ∀ d, .declaration d ∈ earlier → d.ident.name = name → d.scope ≠ scope := by
  rw [declarationIn, List.find?_eq_none]
  simp only [mem_declarations, decide_eq_true_eq, not_and, ne_eq]

/-- A later declaration is found only if there was none. -/
theorem declarationIn_append_declaration (d : Declaration) :
    declarationIn (earlier ++ [.declaration d]) name scope =
      (declarationIn earlier name scope).or
        (if d.ident.name = name ∧ d.scope = scope then some d else none) := by
  have hlast : [Occurrence.declaration d].filterMap Occurrence.declaration? = [d] := rfl
  rw [declarationIn, List.filterMap_append, List.find?_append, hlast, List.find?_singleton]
  simp only [declarationIn, decide_eq_true_eq]

/-- A use declares nothing. -/
theorem declarationIn_append_use (ident : Ident) (role : Role) (inside : Place) :
    declarationIn (earlier ++ [.use ident role inside]) name scope =
      declarationIn earlier name scope := by
  rw [declarationIn, List.filterMap_append, List.filterMap_cons_none rfl, List.filterMap_nil,
    List.append_nil, declarationIn]

theorem visibleDeclaration_nil :
    visibleDeclaration earlier name [] = declarationIn earlier name [] := by
  rw [visibleDeclaration, Place.enclosing, List.findSome?_singleton]

/-- A scope that declares the name hides those around it. -/
theorem visibleDeclaration_cons (step : Step) (outer : Place) :
    visibleDeclaration earlier name (step :: outer) =
      (declarationIn earlier name (step :: outer)).or (visibleDeclaration earlier name outer) := by
  rw [visibleDeclaration, Place.enclosing, List.findSome?_cons, visibleDeclaration]
  cases declarationIn earlier name (step :: outer) <;> rfl

/-- No declaration is visible exactly if no scope around the place has one of the name. -/
theorem visibleDeclaration_eq_none_iff : visibleDeclaration earlier name scope = none ↔
    ∀ d, .declaration d ∈ earlier → d.ident.name = name → ¬ d.scope <:+ scope := by
  rw [visibleDeclaration, List.findSome?_eq_none_iff]
  simp only [Place.mem_enclosing, declarationIn_eq_none_iff]
  constructor
  · exact fun h d hd hname hscope => h d.scope hscope d hd hname rfl
  · rintro h outer houter d hd hname rfl
    exact h d hd hname houter

/-- The visible declaration is the first one of its scope, and no scope further inside has any. -/
theorem visibleDeclaration_eq_some_iff {d : Declaration} :
    visibleDeclaration earlier name scope = some d ↔
      d.scope <:+ scope ∧ declarationIn earlier name d.scope = some d ∧
        ∀ inner, inner <:+ scope → d.scope.length < inner.length →
          declarationIn earlier name inner = none := by
  induction scope with
  | nil =>
    rw [visibleDeclaration_nil]
    constructor
    · intro hd
      obtain ⟨-, -, hscope⟩ := of_declarationIn_eq_some hd
      refine ⟨hscope ▸ List.suffix_refl _, by rw [hscope, hd], fun inner hinner hlength => ?_⟩
      rw [List.suffix_nil.1 hinner] at hlength
      exact absurd hlength (Nat.not_lt_zero _)
    · rintro ⟨hscope, hd, -⟩
      rwa [List.suffix_nil.1 hscope] at hd
  | cons step outer ih =>
    rw [visibleDeclaration_cons]
    cases hfirst : declarationIn earlier name (step :: outer) with
    | some first =>
      obtain ⟨-, -, hscope⟩ := of_declarationIn_eq_some hfirst
      rw [Option.some_or]
      constructor
      · rintro hd
        obtain rfl := Option.some.inj hd
        refine ⟨hscope ▸ List.suffix_refl _, by rw [hscope, hfirst], fun inner hinner hlength => ?_⟩
        rw [hscope] at hlength
        exact absurd hinner.length_le (Nat.not_le_of_lt hlength)
      · rintro ⟨hsuffix, hd, hinner⟩
        rcases List.suffix_cons_iff.1 hsuffix with heq | hsuffix
        · rw [heq, hfirst] at hd
          exact hd
        -- a declaration further outside would be hidden
        · have hlength := Nat.lt_succ_of_le hsuffix.length_le
          rw [hinner _ (List.suffix_refl _) hlength] at hfirst
          cases hfirst
    -- without a declaration in the innermost scope, those around it decide
    | none =>
      rw [Option.none_or, ih]
      refine ⟨fun ⟨hsuffix, hd, hinner⟩ => ⟨hsuffix.trans (List.suffix_cons step outer), hd, ?_⟩,
        fun ⟨hsuffix, hd, hinner⟩ => ⟨?_, hd, ?_⟩⟩
      · intro inner hsuffix' hlength
        rcases List.suffix_cons_iff.1 hsuffix' with rfl | hsuffix'
        · exact hfirst
        · exact hinner inner hsuffix' hlength
      · rcases List.suffix_cons_iff.1 hsuffix with heq | hsuffix
        · rw [heq, hfirst] at hd
          cases hd
        · exact hsuffix
      · exact fun inner hsuffix' => hinner inner (hsuffix'.trans (List.suffix_cons step outer))

end Declarations

namespace Occurrence

variable {earlier : List Occurrence} {ident : Ident} {role : Role} {scope : Place}

/-- A declaration is refused exactly if an earlier one of the name belongs to the very same
scope. -/
theorem verdict?_declaration_isSome_iff {d : Declaration} :
    ((declaration d).verdict? earlier).isSome ↔
      ∃ d', .declaration d' ∈ earlier ∧ d'.ident.name = d.ident.name ∧ d'.scope = d.scope := by
  rw [verdict?, Option.isSome_map]
  constructor
  · intro hsome
    obtain ⟨first, hfirst⟩ := Option.isSome_iff_exists.1 hsome
    exact ⟨first, of_declarationIn_eq_some hfirst⟩
  · rintro ⟨d', hmem, hname, hscope⟩
    rw [Option.isSome_iff_ne_none]
    exact fun hnone => declarationIn_eq_none_iff.1 hnone d' hmem hname hscope

/-- A name is undeclared exactly if no earlier declaration of it belongs to a scope around the
use. -/
theorem verdict?_use_eq_undeclared_iff :
    (use ident role scope).verdict? earlier = some (.undeclared ident) ↔
      ∀ d, .declaration d ∈ earlier → d.ident.name = ident.name → ¬ d.scope <:+ scope := by
  rw [← visibleDeclaration_eq_none_iff, verdict?]
  cases visibleDeclaration earlier ident.name scope with
  | none => simp
  | some declared =>
    dsimp only
    split <;> simp

/-- A use does not match exactly if the visible declaration is not of a kind for it. -/
theorem verdict?_use_eq_mismatch_iff {declared : Declaration} :
    (use ident role scope).verdict? earlier = some (.mismatch ident role declared) ↔
      visibleDeclaration earlier ident.name scope = some declared ∧
        ¬ declared.kind.Suits role := by
  rw [verdict?]
  cases visibleDeclaration earlier ident.name scope with
  | none => simp
  | some declared' =>
    dsimp only
    split
    -- a visible declaration that suits gives no verdict
    next hsuits =>
      refine ⟨fun h => (by cases h), fun ⟨hsame, hrefused⟩ => ?_⟩
      rw [Option.some.inj hsame] at hsuits
      exact absurd hsuits hrefused
    -- otherwise it is the declaration that the verdict is about
    next hsuits =>
      rw [Option.some.injEq, Option.some.injEq, Verdict.mismatch.injEq]
      refine ⟨fun ⟨_, _, hsame⟩ => ⟨hsame, ?_⟩, fun ⟨hsame, _⟩ => ⟨rfl, rfl, hsame⟩⟩
      rwa [← hsame]

end Occurrence

/-- The verdict on a further occurrence comes last. -/
theorem verdicts_append_singleton (earlier : List Occurrence) (occurrence : Occurrence) :
    verdicts (earlier ++ [occurrence]) =
      verdicts earlier ++ (occurrence.verdict? earlier).toList := by
  -- what stands before an occurrence is the same with a further one at the end
  have hbefore : (earlier.zipIdx.filterMap fun (o, i) =>
      o.verdict? ((earlier ++ [occurrence]).take i)) = verdicts earlier := by
    refine List.filterMap_congr fun (o, i) hmem => ?_
    have hi : i < earlier.length + 0 := List.snd_lt_of_mem_zipIdx hmem
    have htake : (earlier ++ [occurrence]).take i = earlier.take i :=
      List.take_append_of_le_length (Nat.le_of_lt hi)
    exact congrArg (o.verdict? ·) htake
  rw [verdicts, List.zipIdx_append, List.filterMap_append, hbefore, List.zipIdx_singleton,
    Nat.zero_add]
  cases hverdict : occurrence.verdict? earlier <;> simp [hverdict]

end CrudLang
