import CrudLang.Proofs.Grammar.Written

/-!
# Trees with a hole

A `Stmt.Context` is a statement with a hole in the place of one block, at whatever depth, and `fill`
puts a block there. It stands for everything in the tree but that block. The statements that could
not be read and that stand before or behind the hole are counted by `errorsBefore` and
`errorsAfter`.

A context is determined by what it does: `Program.Context.eq_of_fill_eq`.
-/

namespace CrudLang

/-- A statement without the block that it is about. -/
inductive Stmt.Frame where
  | func (name : Ident) (params : List Ident) (span : Span)
  | «if» (condition : Expr) (alternative : Option Stmt) (span : Span)
  | loop (span : Span)
  | «while» (condition : Expr) (span : Span)
  | block

namespace Stmt.Frame

/-- Puts the block where it belongs. -/
def fill (body : Block Stmt) : Stmt.Frame → Stmt
  | .func name params span => .func name params body span
  | .if condition alternative span => .if condition body alternative span
  | .loop span => .loop body span
  | .while condition span => .while condition body span
  | .block => .block body

/-- The number of statements behind the block that could not be read. -/
def errorsAfter : Stmt.Frame → Nat
  | .if _ alternative _ => Stmt.errorCountOf? alternative
  | .func _ _ _ | .loop _ | .while _ _ | .block => 0

theorem fill_inj {frame frame' : Stmt.Frame} {body body' : Block Stmt} :
    frame.fill body = frame'.fill body' ↔ frame = frame' ∧ body = body' := by
  cases frame <;> cases frame' <;> simp [fill] <;> grind

theorem fill_ne_class {frame : Stmt.Frame} {body : Block Stmt} {name : Ident} {members : List Stmt}
    {span : Span} : frame.fill body ≠ .class name members span := by
  cases frame <;> simp [fill]

end Stmt.Frame

mutual

/-- A statement with a hole in the place of a block. -/
inductive Stmt.Context where
  | body (frame : Stmt.Frame) (body : Block.Context)
  | member (name : Ident) (before : List Stmt) (member : Stmt.Context) (after : List Stmt)
      (span : Span)
  | alternative (condition : Expr) (body : Block Stmt) (alternative : Stmt.Context) (span : Span)

/-- A block that is the hole, or a block with a hole in one of its statements. -/
inductive Block.Context where
  | hole
  | inside (before : List Stmt) (stmt : Stmt.Context) (after : List Stmt) (span : Span)

end

/-- A program with a hole in the place of a block. -/
structure Program.Context where
  /-- The statements before the one with the hole. -/
  before : List Stmt
  /-- The statement with the hole. -/
  stmt : Stmt.Context
  /-- The statements behind it. -/
  after : List Stmt
  /-- Where the program stands. -/
  span : Span

mutual

/-- Puts a block into the hole. -/
def Stmt.Context.fill (block : Block Stmt) : Stmt.Context → Stmt
  | .body frame body => frame.fill (body.fill block)
  | .member name before member after span => .class name (before ++ member.fill block :: after) span
  | .alternative condition body alternative span =>
    .if condition body (some (alternative.fill block)) span

/-- Puts a block into the hole. -/
def Block.Context.fill (block : Block Stmt) : Block.Context → Block Stmt
  | .hole => block
  | .inside before stmt after span => ⟨before ++ stmt.fill block :: after, span⟩

end

mutual

/-- The number of statements before the hole that could not be read. -/
def Stmt.Context.errorsBefore : Stmt.Context → Nat
  | .body _ body => body.errorsBefore
  | .member _ before member _ _ => Stmt.errorCountOfAll before + member.errorsBefore
  | .alternative _ body alternative _ => Block.errorCount body + alternative.errorsBefore

/-- The number of statements before the hole that could not be read. -/
def Block.Context.errorsBefore : Block.Context → Nat
  | .hole => 0
  | .inside before stmt _ _ => Stmt.errorCountOfAll before + stmt.errorsBefore

end

mutual

/-- The number of statements behind the hole that could not be read. -/
def Stmt.Context.errorsAfter : Stmt.Context → Nat
  | .body frame body => body.errorsAfter + frame.errorsAfter
  | .member _ _ member after _ => member.errorsAfter + Stmt.errorCountOfAll after
  | .alternative _ _ alternative _ => alternative.errorsAfter

/-- The number of statements behind the hole that could not be read. -/
def Block.Context.errorsAfter : Block.Context → Nat
  | .hole => 0
  | .inside _ stmt after _ => stmt.errorsAfter + Stmt.errorCountOfAll after

end

namespace Program.Context

/-- Puts a block into the hole. -/
def fill (K : Program.Context) (block : Block Stmt) : Program :=
  ⟨K.before ++ K.stmt.fill block :: K.after, K.span⟩

/-- The number of statements before the hole that could not be read. -/
def errorsBefore (K : Program.Context) : Nat :=
  Stmt.errorCountOfAll K.before + K.stmt.errorsBefore

/-- The number of statements behind the hole that could not be read. -/
def errorsAfter (K : Program.Context) : Nat :=
  K.stmt.errorsAfter + Stmt.errorCountOfAll K.after

end Program.Context

section Determined

variable {block block' : Block Stmt}

mutual

/-- Two blocks that make the same of a statement are equal. -/
theorem Stmt.Context.fill_injective (K : Stmt.Context) (h : K.fill block = K.fill block') :
    block = block' := by
  match K with
  | .body _ body => exact body.fill_injective (Stmt.Frame.fill_inj.1 h).2
  | .member _ _ member _ _ =>
    simp only [Stmt.Context.fill, Stmt.class.injEq] at h
    exact member.fill_injective (List.cons.inj (List.append_cancel_left h.2.1)).1
  | .alternative _ _ alternative _ =>
    simp only [Stmt.Context.fill, Stmt.if.injEq, Option.some.injEq] at h
    exact alternative.fill_injective h.2.2.1

theorem Block.Context.fill_injective (K : Block.Context) (h : K.fill block = K.fill block') :
    block = block' := by
  match K with
  | .hole => exact h
  | .inside _ stmt _ _ =>
    simp only [Block.Context.fill, Block.mk.injEq] at h
    exact stmt.fill_injective (List.cons.inj (List.append_cancel_left h.1)).1

end

/-- What gives different values for different blocks does not have the same value for all of
them. -/
theorem exists_fill_ne {α : Type} {fill : Block Stmt → α}
    (hfill : ∀ block block', fill block = fill block' → block = block') (v : α) :
    ∃ block, fill block ≠ v := by
  by_cases h : fill ⟨[], default⟩ = v
  · refine ⟨⟨[.error default], default⟩, fun h' => ?_⟩
    cases hfill _ _ (h.trans h'.symm)
  · exact ⟨_, h⟩

theorem Stmt.Context.exists_fill_ne (K : Stmt.Context) (stmt : Stmt) :
    ∃ block, K.fill block ≠ stmt :=
  CrudLang.exists_fill_ne (fun _ _ => K.fill_injective) stmt

theorem Block.Context.exists_fill_ne (K : Block.Context) (body : Block Stmt) :
    ∃ block, K.fill block ≠ body :=
  CrudLang.exists_fill_ne (fun _ _ => K.fill_injective) body

/-- In lists that are the same for every block, the hole is in the same statement. -/
theorem Stmt.Context.list_eq {before before' after after' : List Stmt} {K K' : Stmt.Context}
    (h : ∀ block, before ++ K.fill block :: after = before' ++ K'.fill block :: after') :
    before = before' ∧ (∀ block, K.fill block = K'.fill block) ∧ after = after' := by
  induction before generalizing before' with
  | nil =>
    cases before' with
    | nil =>
      simp only [List.nil_append, List.cons.injEq] at h
      exact ⟨rfl, fun block => (h block).1, (h default).2⟩
    | cons stmt' _ =>
      simp only [List.nil_append, List.cons_append, List.cons.injEq] at h
      -- the statement with the hole would be the same for every block
      obtain ⟨block, hne⟩ := K.exists_fill_ne stmt'
      exact absurd (h block).1 hne
  | cons stmt before ih =>
    cases before' with
    | nil =>
      simp only [List.nil_append, List.cons_append, List.cons.injEq] at h
      obtain ⟨block, hne⟩ := K'.exists_fill_ne stmt
      exact absurd (h block).1.symm hne
    | cons stmt' before' =>
      simp only [List.cons_append, List.cons.injEq] at h
      obtain ⟨rfl, hfill, rfl⟩ := ih fun block => (h block).2
      exact ⟨by rw [(h default).1], hfill, rfl⟩

/-- The hole of a conditional is in its body or in its alternative, and not in both. -/
theorem Stmt.Frame.exists_fill_ne_if (frame : Stmt.Frame) (K : Block.Context) (condition : Expr)
    (body : Block Stmt) (alternative : Block Stmt → Option Stmt) (span : Span) :
    ∃ block, frame.fill (K.fill block) ≠ .if condition body (alternative block) span := by
  obtain ⟨block, hne⟩ := K.exists_fill_ne body
  refine ⟨block, ?_⟩
  cases frame <;> simp [Stmt.Frame.fill, hne]

mutual

/-- A statement with a hole is determined by what it makes of the blocks. -/
theorem Stmt.Context.eq_of_fill_eq (K K' : Stmt.Context)
    (h : ∀ block, K.fill block = K'.fill block) : K = K' := by
  match K, K' with
  | .body _ body, .body _ body' =>
    simp only [Stmt.Context.fill, Stmt.Frame.fill_inj] at h
    rw [(h default).1, body.eq_of_fill_eq body' fun block => (h block).2]
  | .member _ _ member _ _, .member _ _ member' _ _ =>
    simp only [Stmt.Context.fill, Stmt.class.injEq] at h
    obtain ⟨rfl, hfill, rfl⟩ := Stmt.Context.list_eq fun block => (h block).2.1
    rw [(h default).1, (h default).2.2, member.eq_of_fill_eq member' hfill]
  | .alternative _ _ alternative _, .alternative _ _ alternative' _ =>
    simp only [Stmt.Context.fill, Stmt.if.injEq, Option.some.injEq] at h
    rw [(h default).1, (h default).2.1, (h default).2.2.2,
      alternative.eq_of_fill_eq alternative' fun block => (h block).2.2.1]
  -- a body that is not in the hole would be the same for every block
  | .body frame body, .alternative condition fixed alternative span =>
    obtain ⟨block, hne⟩ := frame.exists_fill_ne_if body condition fixed
      (fun block => some (alternative.fill block)) span
    exact absurd (h block) hne
  | .alternative condition fixed alternative span, .body frame body =>
    obtain ⟨block, hne⟩ := frame.exists_fill_ne_if body condition fixed
      (fun block => some (alternative.fill block)) span
    exact absurd (h block).symm hne
  | .body _ _, .member _ _ _ _ _ => exact absurd (h default) Stmt.Frame.fill_ne_class
  | .member _ _ _ _ _, .body _ _ => exact absurd (h default).symm Stmt.Frame.fill_ne_class
  | .member _ _ _ _ _, .alternative _ _ _ _ => cases h default
  | .alternative _ _ _ _, .member _ _ _ _ _ => cases h default

theorem Block.Context.eq_of_fill_eq (K K' : Block.Context)
    (h : ∀ block, K.fill block = K'.fill block) : K = K' := by
  match K, K' with
  | .hole, .hole => rfl
  | .inside _ stmt _ _, .inside _ stmt' _ _ =>
    simp only [Block.Context.fill, Block.mk.injEq] at h
    obtain ⟨rfl, hfill, rfl⟩ := Stmt.Context.list_eq fun block => (h block).1
    rw [(h default).2, stmt.eq_of_fill_eq stmt' hfill]
  -- a block without statements has no statement with a hole
  | .hole, .inside before stmt after span =>
    simpa [Block.Context.fill] using congrArg Block.stmts (h ⟨[], default⟩)
  | .inside before stmt after span, .hole =>
    simpa [Block.Context.fill] using congrArg Block.stmts (h ⟨[], default⟩)

end

/-- A program with a hole is determined by what it makes of the blocks. -/
theorem Program.Context.eq_of_fill_eq {K K' : Program.Context}
    (h : ∀ block, K.fill block = K'.fill block) : K = K' := by
  obtain ⟨before, stmt, after, span⟩ := K
  obtain ⟨before', stmt', after', span'⟩ := K'
  simp only [Program.Context.fill, Program.mk.injEq] at h
  obtain ⟨rfl, hfill, rfl⟩ := Stmt.Context.list_eq fun block => (h block).1
  rw [(h default).2, stmt.eq_of_fill_eq stmt' hfill]

/-- A program with a hole is not the same for every block. -/
theorem Program.Context.exists_fill_ne (K : Program.Context) (program : Program) :
    ∃ block, K.fill block ≠ program := by
  refine CrudLang.exists_fill_ne (fun block block' h => ?_) program
  have hstmts := congrArg Program.stmts h
  exact K.stmt.fill_injective (List.cons.inj (List.append_cancel_left hstmts)).1

end Determined

end CrudLang
