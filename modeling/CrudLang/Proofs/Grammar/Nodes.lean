import CrudLang.Proofs.Recovery.Extent
import CrudLang.Proofs.Token.Runs

/-!
# Nodes of the tree and the tokens they cover

A `Node` is anything in a syntax tree that has a span. Its children stand in the order of the
source, and the parts of a node are the node itself, its children, their children and so on
(`Node.HasPart`).

Each node covers a run of tokens, and its children cover runs inside that, one behind the other
(`Covers`). A parenthesis around an expression belongs to no node below the next one with a span of
its own, so there may be tokens between the runs of the children, before them and behind them
(`Placed`). Every part of a node covers a run inside that of the node (`Covers.exists_of_hasPart`).
-/

namespace CrudLang

/-- A part of a syntax tree that has a span. -/
inductive Node where
  | ident (name : Ident)
  | expr (e : Expr)
  | stmt (s : Stmt)
  | block (body : Block Stmt)
  | program (p : Program)

namespace Node

/-- Where a node stands. -/
def span : Node → Span
  | .ident name => name.span
  | .expr e => e.span
  | .stmt s => s.span
  | .block body => body.span
  | .program p => p.span

/-- The nodes directly below a node, in the order of the source. -/
def children : Node → List Node
  | .ident _ => []
  | .expr (.number _ _) | .expr (.string _ _) | .expr (.bool _ _) => []
  | .expr (.name name) => [.ident name]
  | .expr (.unary _ operand _) => [.expr operand]
  | .expr (.binary _ left right _) => [.expr left, .expr right]
  | .expr (.assign target value _) => [.ident target, .expr value]
  | .expr (.call callee args _) => .ident callee :: args.map .expr
  | .expr (.new className args _) => .ident className :: args.map .expr
  | .stmt (.var name init _) => .ident name :: init.toList.map .expr
  | .stmt (.const name value _) => [.ident name, .expr value]
  | .stmt (.func name params body _) => .ident name :: params.map .ident ++ [.block body]
  | .stmt (.class name members _) => .ident name :: members.map .stmt
  | .stmt (.if condition body alternative _) =>
    [.expr condition, .block body] ++ alternative.toList.map .stmt
  | .stmt (.loop body _) => [.block body]
  | .stmt (.while condition body _) => [.expr condition, .block body]
  | .stmt (.crud _ target args _) => .ident target :: args.map .expr
  | .stmt (.return value _) => value.toList.map .expr
  | .stmt (.block body) => [.block body]
  | .stmt (.expr e _) => [.expr e]
  | .stmt (.error _) => []
  | .block body => body.stmts.map .stmt
  | .program p => p.stmts.map .stmt

/-- A node is in a tree: it is the root, or a child of a node in the tree. -/
inductive HasPart (root : Node) : Node → Prop
  | self : HasPart root root
  | child {n m} : HasPart root n → m ∈ n.children → HasPart root m

/-- A part of a node is the node itself or a part of one of its children. -/
theorem HasPart.eq_or_exists {root n : Node} (h : root.HasPart n) :
    n = root ∨ ∃ c ∈ root.children, c.HasPart n := by
  induction h with
  | self => exact .inl rfl
  | child _ hm ih =>
    rcases ih with rfl | ⟨c, hc, hn⟩
    · exact .inr ⟨_, hm, .self⟩
    · exact .inr ⟨c, hc, hn.child hm⟩

end Node

/-- Nodes stand one behind the other in a run of tokens, with `rest` behind it. Each of them is
related by `C` to its own tokens and to all the tokens behind those. -/
inductive Placed (C : Node → List Token → List Token → Prop) :
    List Node → List Token → List Token → Prop
  | nil {run rest} : Placed C [] run rest
  | cons {n ns before run after rest} : C n run (after ++ rest) → Placed C ns after rest →
      Placed C (n :: ns) (before ++ run ++ after) rest

namespace Placed

variable {C D : Node → List Token → List Token → Prop} {ns ns' : List Node}
variable {run first read rest : List Token}

theorem mono (h : Placed C ns run rest) (hCD : ∀ n run rest, C n run rest → D n run rest) :
    Placed D ns run rest := by
  induction h with
  | nil => exact .nil
  | cons hn _ ih => exact .cons (hCD _ _ _ hn) ih

/-- Tokens before the first node. -/
theorem prepend (first : List Token) (h : Placed C ns run rest) :
    Placed C ns (first ++ run) rest := by
  cases h with
  | nil => exact .nil
  | cons hn hns =>
    rw [← List.append_assoc, ← List.append_assoc]
    exact .cons hn hns

/-- Nodes behind others. -/
theorem append (h : Placed C ns first (read ++ rest)) (h' : Placed C ns' read rest) :
    Placed C (ns ++ ns') (first ++ read) rest := by
  generalize hbehind : read ++ rest = behind at h
  induction h with
  | nil => exact h'.prepend _
  | cons hn _ ih =>
    subst hbehind
    rw [List.append_assoc _ _ read]
    refine .cons ?_ (ih rfl)
    rwa [List.append_assoc]

/-- Tokens behind the last node. -/
theorem append_right (h : Placed C ns first (read ++ rest)) : Placed C ns (first ++ read) rest := by
  have hnone : Placed C [] read rest := .nil
  rw [← List.append_nil ns]
  exact h.append hnone

/-- A node that takes up the whole run. -/
theorem one {n : Node} (h : C n run rest) : Placed C [n] run rest := by
  have hplaced : Placed C [n] ([] ++ run ++ []) rest := .cons (by simpa using h) .nil
  rwa [List.nil_append, List.append_nil] at hplaced

theorem ne_nil (h : Placed C ns run rest) (hC : ∀ {n run rest}, C n run rest → run ≠ [])
    (hns : ns ≠ []) : run ≠ [] := by
  cases h with
  | nil => exact absurd rfl hns
  | cons hn => simp [hC hn]

/-- Each of the nodes has its own tokens among those of the run. -/
theorem exists_of_mem (h : Placed C ns run rest) {n : Node} (hn : n ∈ ns) :
    ∃ before own after, run = before ++ own ++ after ∧ C n own (after ++ rest) := by
  induction h with
  | nil => cases hn
  | @cons m ms before own after rest hm _ ih =>
    rcases List.mem_cons.1 hn with rfl | hn
    · exact ⟨before, own, after, rfl, hm⟩
    · obtain ⟨before', own', after', rfl, hn'⟩ := ih hn
      exact ⟨before ++ own ++ before', own', after', by simp only [List.append_assoc], hn'⟩

end Placed

/-- A node covers a run of tokens, with `rest` behind it. Its span is that of the run: for an
expression, whose span may be joined from those of its parts, if the tokens are in order. A
statement is written by the run, without a semicolon behind it, unless it could not be read; then it
covers its extent. The statements in a block stand between its braces. -/
inductive Covers : Node → List Token → List Token → Prop
  | ident {t name rest} : t.kind = .identifier name → Covers (.ident ⟨name, t.span⟩) [t] rest
  | expr {e run rest} : run ≠ [] → (Ordered run → e.span = spanOfRun run) →
      Placed Covers (Node.expr e).children run rest → Covers (.expr e) run rest
  | stmt {stmt run rest} : (∀ span, stmt ≠ .error span) →
      Stmt.Written .any stmt (kindsOf run) → stmt.span = spanOfRun run →
      Placed Covers (Node.stmt stmt).children run rest → Covers (.stmt stmt) run rest
  | error {run rest} : run ≠ [] → Extent run rest → Covers (.stmt (.error (spanOfRun run))) run rest
  | block {body l inner r rest} : l.kind = .punctuator .leftBrace →
      r.kind = .punctuator .rightBrace → Balanced inner →
      body.span = spanOfRun (l :: (inner ++ [r])) →
      Placed Covers (Node.block body).children inner (r :: rest) →
      Covers (.block body) (l :: (inner ++ [r])) rest

namespace Covers

variable {n : Node} {run rest : List Token}

theorem ne_nil (h : Covers n run rest) : run ≠ [] := by
  cases h with
  | ident => exact List.cons_ne_nil _ _
  | expr hne => exact hne
  | stmt _ hwritten => exact fun hrun => hwritten.ne_nil (congrArg kindsOf hrun)
  | error hne => exact hne
  | block => exact List.cons_ne_nil _ _

/-- The span of a node is that of its tokens, if they are in order. -/
theorem span_eq (h : Covers n run rest) (hrun : Ordered run) : n.span = spanOfRun run := by
  cases h with
  | ident => rfl
  | expr _ hspan => exact hspan hrun
  | stmt _ _ hspan => exact hspan
  | error => rfl
  | block _ _ _ hspan => exact hspan

/-- The children of a node stand among its tokens. -/
theorem children (h : Covers n run rest) : Placed Covers n.children run rest := by
  cases h with
  | ident => exact .nil
  | expr _ _ hchildren => exact hchildren
  | stmt _ _ _ hchildren => exact hchildren
  | error => exact .nil
  | @block body l inner r _ _ _ _ _ hchildren =>
    have hinner : Placed Covers (Node.block body).children (inner ++ [r]) rest :=
      .append_right hchildren
    exact hinner.prepend [l]

/-- All parts of a node stand among its tokens. -/
theorem exists_of_hasPart {root : Node} (h : Covers root run rest) (hn : root.HasPart n) :
    ∃ before own after, run = before ++ own ++ after ∧ Covers n own (after ++ rest) := by
  induction hn with
  | self => exact ⟨[], run, [], by simp, h⟩
  | child _ hm ih =>
    obtain ⟨before, own, after, rfl, hn⟩ := ih
    obtain ⟨before', own', after', rfl, hm'⟩ := hn.children.exists_of_mem hm
    refine ⟨before ++ before', own', after' ++ after, by simp only [List.append_assoc], ?_⟩
    rwa [List.append_assoc]

/-- A statement that could not be read covers its extent. -/
theorem extent {span : Span} (h : Covers (.stmt (.error span)) run rest) :
    span = spanOfRun run ∧ Extent run rest := by
  cases h with
  | stmt hno => exact absurd rfl (hno span)
  | error _ hextent => exact ⟨rfl, hextent⟩

end Covers

end CrudLang
