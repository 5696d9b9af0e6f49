import CrudLang.Syntax.Tree
import Mathlib.Data.List.Forall2
import Mathlib.Data.Option.Basic

/-!
# Alike trees

Two trees that are read from two inputs may be equal, or equal up to spans, or not be compared at
all. A `Likeness` is a relation between trees that is kept when trees are built from their parts, so
that it can be shown of whatever the grammar builds.
-/

namespace CrudLang

/-- Blocks of related statements with related spans. -/
structure Block.Alike (span : Span → Span → Prop) (stmt : Stmt → Stmt → Prop)
    (b b' : Block Stmt) : Prop where
  stmts : List.Forall₂ stmt b.stmts b'.stmts
  span : span b.span b'.span

/-- A relation between trees that is kept when trees are built from their parts. -/
structure Likeness where
  /-- Alike spans. -/
  span : Span → Span → Prop
  /-- Alike identifiers. -/
  ident : Ident → Ident → Prop
  /-- Alike expressions. -/
  expr : Expr → Expr → Prop
  /-- Alike statements. -/
  stmt : Stmt → Stmt → Prop
  span_refl (s : Span) : span s s
  span_join {a a' b b' : Span} : span a a' → span b b' → span (a.join b) (a'.join b')
  span_expr {e e' : Expr} : expr e e' → span e.span e'.span
  ident_mk (name : String) {s s' : Span} : span s s' → ident ⟨name, s⟩ ⟨name, s'⟩
  number (text : String) {s s' : Span} : span s s' → expr (.number text s) (.number text s')
  string (value : String) {s s' : Span} : span s s' → expr (.string value s) (.string value s')
  bool (value : Bool) {s s' : Span} : span s s' → expr (.bool value s) (.bool value s')
  name {i i' : Ident} : ident i i' → expr (.name i) (.name i')
  unary (op : UnaryOp) {e e' : Expr} {s s' : Span} : expr e e' → span s s' →
    expr (.unary op e s) (.unary op e' s')
  binary (op : BinaryOp) {e e' f f' : Expr} {s s' : Span} : expr e e' → expr f f' → span s s' →
    expr (.binary op e f s) (.binary op e' f' s')
  assign {i i' : Ident} {e e' : Expr} {s s' : Span} : ident i i' → expr e e' → span s s' →
    expr (.assign i e s) (.assign i' e' s')
  call {i i' : Ident} {args args' : List Expr} {s s' : Span} : ident i i' →
    List.Forall₂ expr args args' → span s s' → expr (.call i args s) (.call i' args' s')
  new {i i' : Ident} {args args' : List Expr} {s s' : Span} : ident i i' →
    List.Forall₂ expr args args' → span s s' → expr (.new i args s) (.new i' args' s')
  var {i i' : Ident} {init init' : Option Expr} {s s' : Span} : ident i i' →
    Option.Rel expr init init' → span s s' → stmt (.var i init s) (.var i' init' s')
  const {i i' : Ident} {e e' : Expr} {s s' : Span} : ident i i' → expr e e' → span s s' →
    stmt (.const i e s) (.const i' e' s')
  func {i i' : Ident} {params params' : List Ident} {body body' : Block Stmt} {s s' : Span} :
    ident i i' → List.Forall₂ ident params params' → Block.Alike span stmt body body' →
    span s s' → stmt (.func i params body s) (.func i' params' body' s')
  classDef {i i' : Ident} {members members' : List Stmt} {s s' : Span} : ident i i' →
    List.Forall₂ stmt members members' → span s s' →
    stmt (.class i members s) (.class i' members' s')
  conditional {e e' : Expr} {body body' : Block Stmt} {alternative alternative' : Option Stmt}
    {s s' : Span} : expr e e' → Block.Alike span stmt body body' →
    Option.Rel stmt alternative alternative' → span s s' →
    stmt (.if e body alternative s) (.if e' body' alternative' s')
  loop {body body' : Block Stmt} {s s' : Span} : Block.Alike span stmt body body' → span s s' →
    stmt (.loop body s) (.loop body' s')
  loopWhile {e e' : Expr} {body body' : Block Stmt} {s s' : Span} : expr e e' →
    Block.Alike span stmt body body' → span s s' → stmt (.while e body s) (.while e' body' s')
  crud (op : CrudOp) {i i' : Ident} {args args' : List Expr} {s s' : Span} : ident i i' →
    List.Forall₂ expr args args' → span s s' → stmt (.crud op i args s) (.crud op i' args' s')
  returning {value value' : Option Expr} {s s' : Span} : Option.Rel expr value value' →
    span s s' → stmt (.return value s) (.return value' s')
  block {body body' : Block Stmt} : Block.Alike span stmt body body' →
    stmt (.block body) (.block body')
  expression {e e' : Expr} {s s' : Span} : expr e e' → span s s' →
    stmt (.expr e s) (.expr e' s')
  error {s s' : Span} : span s s' → stmt (.error s) (.error s')

namespace Likeness

variable (L : Likeness) {α : Type}

/-- Values that are alike once they are given alike spans. -/
def built (V : α → α → Prop) (f g : Span → α) : Prop :=
  ∀ s s', L.span s s' → V (f s) (g s')

variable {L} in
/-- A value that is like another one once it is given its span. -/
theorem built.exists {V : α → α → Prop} {f : Span → α} (h : ∃ g, L.built V f g) (s : Span) :
    ∃ b, V (f s) b := by
  obtain ⟨g, hg⟩ := h
  exact ⟨g s, hg s s (L.span_refl s)⟩

/-- Alike blocks. -/
def body : Block Stmt → Block Stmt → Prop :=
  Block.Alike L.span L.stmt

end Likeness

theorem eq_of_forall₂ {α : Type} {xs ys : List α} (h : List.Forall₂ Eq xs ys) : xs = ys := by
  rwa [List.forall₂_eq_eq_eq] at h

theorem eq_of_rel {α : Type} {x y : Option α} (h : Option.Rel Eq x y) : x = y := by
  cases h with
  | some h => rw [h]
  | none => rfl

theorem Block.eq_of_alike {b b' : Block Stmt} (h : Block.Alike Eq Eq b b') : b = b' := by
  obtain ⟨stmts, span⟩ := b
  obtain ⟨stmts', span'⟩ := b'
  obtain ⟨hstmts, rfl⟩ := h
  obtain rfl : stmts = stmts' := eq_of_forall₂ hstmts
  rfl

/-- Equal trees. -/
def Likeness.equal : Likeness where
  span := Eq
  ident := Eq
  expr := Eq
  stmt := Eq
  span_refl _ := rfl
  span_join h h' := by rw [h, h']
  span_expr h := by rw [h]
  ident_mk _ _ _ h := by rw [h]
  number _ _ _ h := by rw [h]
  string _ _ _ h := by rw [h]
  bool _ _ _ h := by rw [h]
  name h := by rw [h]
  unary _ _ _ _ _ h h' := by rw [h, h']
  binary _ _ _ _ _ _ _ h h' h'' := by rw [h, h', h'']
  assign h h' h'' := by rw [h, h', h'']
  call h h' h'' := by rw [h, eq_of_forall₂ h', h'']
  new h h' h'' := by rw [h, eq_of_forall₂ h', h'']
  var h h' h'' := by rw [h, eq_of_rel h', h'']
  const h h' h'' := by rw [h, h', h'']
  func h h' h'' h''' := by rw [h, eq_of_forall₂ h', Block.eq_of_alike h'', h''']
  classDef h h' h'' := by rw [h, eq_of_forall₂ h', h'']
  conditional h h' h'' h''' := by rw [h, Block.eq_of_alike h', eq_of_rel h'', h''']
  loop h h' := by rw [Block.eq_of_alike h, h']
  loopWhile h h' h'' := by rw [h, Block.eq_of_alike h', h'']
  crud _ _ _ _ _ _ _ h h' h'' := by rw [h, eq_of_forall₂ h', h'']
  returning h h' := by rw [eq_of_rel h, h']
  block h := by rw [Block.eq_of_alike h]
  expression h h' := by rw [h, h']
  error h := by rw [h]

/-- Arguments that may be missing are alike if they are both missing or alike. -/
theorem forall₂_getD_nil {α : Type} {V : α → α → Prop} {args args' : Option (List α)}
    (h : Option.Rel (List.Forall₂ V) args args') :
    List.Forall₂ V (args.getD []) (args'.getD []) := by
  cases h with
  | some h => exact h
  | none => exact .nil

end CrudLang
