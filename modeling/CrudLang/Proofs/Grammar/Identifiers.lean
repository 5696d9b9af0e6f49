import CrudLang.Proofs.Grammar.Coverage
import CrudLang.Proofs.Grammar.Names
import CrudLang.Proofs.Token.MaximalMunch
import Mathlib.Data.List.Perm.Subperm

/-!
# Each identifier has a token of its own

The identifiers in a tree that is read from tokens stand in different tokens. In which order they
are visited makes no difference to that: the identifiers of a node are those of its children, in
some order (`Node.perm_idents`), and the children cover runs of tokens one behind the other. So
their spans are those of some of the tokens, each taken once (`Covers.subperm_idents`).
-/

namespace CrudLang

/-- The identifiers that events are about, in order. -/
def Event.idents (events : List Event) : List Ident :=
  events.filterMap Event.ident?

namespace Event

variable {event : Event} {events later : List Event}

@[simp] theorem idents_nil : idents [] = [] := rfl

@[simp] theorem idents_declare (ident : Ident) (kind : SymbolKind) :
    idents (.declare ident kind :: events) = ident :: idents events := rfl

@[simp] theorem idents_use (ident : Ident) (role : Role) :
    idents (.use ident role :: events) = ident :: idents events := rfl

@[simp] theorem idents_append : idents (events ++ later) = idents events ++ idents later :=
  List.filterMap_append

/-- Opening and closing a scope is about no identifier. -/
@[simp] theorem idents_inScope (kind : ScopeKind) :
    idents (inScope kind events) = idents events := by
  rw [inScope, idents, List.filterMap_append, List.filterMap_cons_none rfl]
  exact List.append_nil _

@[simp] theorem idents_params (params : List Ident) (kind : SymbolKind) :
    idents (params.map fun param => .declare param kind) = params := by
  rw [idents, List.filterMap_map]
  exact List.filterMap_some

end Event

namespace Node

/-- The identifiers in a node, in the order in which they are visited. -/
def idents : Node → List Ident
  | .ident name => [name]
  | .expr e => Event.idents e.events
  | .stmt s => Event.idents s.events
  | .block body => Event.idents (Block.events body)
  | .program p => Event.idents p.events

/-- The identifiers of several expressions, one behind the other. -/
theorem idents_exprs (exprs : List Expr) :
    Event.idents (Expr.eventsOfAll exprs) = (exprs.map .expr).flatMap idents := by
  induction exprs with
  | nil => rfl
  | cons e exprs ih =>
    rw [Expr.eventsOfAll, Event.idents_append, ih]
    rfl

theorem idents_expr? (expr : Option Expr) :
    Event.idents (Expr.eventsOf? expr) = (expr.toList.map .expr).flatMap idents := by
  cases expr with
  | none => rfl
  | some e => exact (List.append_nil _).symm

theorem idents_params (params : List Ident) : (params.map Node.ident).flatMap idents = params := by
  rw [List.flatMap_map]
  exact List.flatMap_singleton' params

/-- The identifiers of several statements, one behind the other. -/
theorem idents_stmts (stmts : List Stmt) :
    Event.idents (Stmt.eventsOfAll stmts) = (stmts.map .stmt).flatMap idents := by
  induction stmts with
  | nil => rfl
  | cons stmt stmts ih =>
    rw [Stmt.eventsOfAll, Event.idents_append, ih]
    rfl

/-- The identifiers of a block are those of its statements. -/
theorem idents_body (body : Block Stmt) :
    Event.idents (Block.events body) = (body.stmts.map .stmt).flatMap idents := by
  obtain ⟨stmts, span⟩ := body
  exact idents_stmts stmts

/-- Behind `else`, a block opens a scope of another kind, which is about no identifier. -/
theorem idents_alternative (alternative : Option Stmt) :
    Event.idents (Stmt.eventsOfAlternative alternative) =
      (alternative.toList.map .stmt).flatMap idents := by
  cases alternative with
  | none => rfl
  | some stmt =>
    rw [Option.toList_some, List.map_singleton, List.flatMap_singleton, idents]
    cases stmt with
    | block body =>
      rw [Stmt.eventsOfAlternative, Stmt.events, Event.idents_inScope, Event.idents_inScope]
    | _ =>
      rw [Stmt.eventsOfAlternative]
      nofun

/-- The identifiers of a node are those of its children. Only a value is visited before the name
that it is for. -/
theorem perm_idents {n : Node} (hn : ∀ name, n ≠ .ident name) :
    n.idents.Perm (n.children.flatMap idents) := by
  refine match n with
  | .ident name => absurd rfl (hn name)
  | .expr e => ?expr
  | .stmt s => ?stmt
  | .block body => .of_eq (idents_body body)
  | .program p => .of_eq (idents_stmts p.stmts)
  case expr =>
    -- the parts of an expression are visited in the order of its children
    apply List.Perm.of_eq
    cases e with
    | number | string | bool | name => rfl
    | unary | assign => simp [idents, children, Expr.events]
    | binary => simp [idents, children, Expr.events]
    | call | new => simp [idents, children, Expr.events, idents_exprs]
  case stmt =>
    cases s with
    -- the value is visited before the name is declared
    | var name init =>
      rw [idents, children, Stmt.events, Event.idents_append, idents_expr?]
      exact List.perm_append_singleton name _
    | const name value =>
      rw [idents, children, Stmt.events, Event.idents_append]
      exact (List.perm_append_singleton name _).trans (.of_eq (by simp [idents]))
    | func name params body =>
      simp [idents, children, Stmt.events, idents_params]
    | «class» => simp [idents, children, Stmt.events, idents_stmts]
    | «if» => simp [idents, children, Stmt.events, idents_alternative]
    | crud => simp [idents, children, Stmt.events, idents_exprs]
    | «return» value => exact .of_eq (idents_expr? value)
    | loop | «while» | block | expr => simp [idents, children, Stmt.events]
    | error => exact .nil

/-- A node and those behind it share no token. -/
theorem subperm_idents_cons {n : Node} {ns : List Node} {before run after : List Token}
    (hn : List.Subperm (n.idents.map Ident.span) (run.map Token.span))
    (hns : List.Subperm ((ns.flatMap idents).map Ident.span) (after.map Token.span)) :
    List.Subperm (((n :: ns).flatMap idents).map Ident.span)
      ((before ++ run ++ after).map Token.span) := by
  rw [List.flatMap_cons, List.map_append, List.append_assoc, List.map_append, List.map_append]
  exact (hn.append hns).trans (List.sublist_append_right _ _).subperm

/-- What holds of the children of a node holds of the node. -/
theorem subperm_idents_of_children {n : Node} {spans : List Span} (hn : ∀ name, n ≠ .ident name)
    (h : List.Subperm ((n.children.flatMap idents).map Ident.span) spans) :
    List.Subperm (n.idents.map Ident.span) spans :=
  ((perm_idents hn).map _).subperm.trans h

end Node

mutual

/-- The identifiers of a node have the spans of some of its tokens, each taken once. -/
theorem Covers.subperm_idents {n : Node} {run rest : List Token} (h : Covers n run rest) :
    List.Subperm (n.idents.map Ident.span) (run.map Token.span) := by
  match h with
  | .ident _ => exact List.Subperm.refl _
  | .expr _ _ hchildren =>
    exact Node.subperm_idents_of_children (by rintro _ ⟨⟩) (Placed.subperm_idents hchildren)
  | .stmt _ _ _ hchildren =>
    exact Node.subperm_idents_of_children (by rintro _ ⟨⟩) (Placed.subperm_idents hchildren)
  | .error _ _ => exact List.nil_subperm
  | .block _ _ _ _ hchildren =>
    refine Node.subperm_idents_of_children (by rintro _ ⟨⟩) ?_
    refine (Placed.subperm_idents hchildren).trans (List.Sublist.subperm ?_)
    exact ((List.sublist_append_left _ _).cons _).map _

/-- The identifiers of nodes that are placed one behind the other have the spans of some of the
tokens, each taken once. -/
theorem Placed.subperm_idents {ns : List Node} {run rest : List Token}
    (h : Placed Covers ns run rest) :
    List.Subperm ((ns.flatMap Node.idents).map Ident.span) (run.map Token.span) := by
  match h with
  | .nil => exact List.nil_subperm
  | .cons hn hns =>
    exact Node.subperm_idents_cons (Covers.subperm_idents hn) (Placed.subperm_idents hns)

end

/-- In a closing brace that closes nothing there is no identifier. -/
theorem Node.Stands.subperm_idents {n : Node} {run rest : List Token} (h : n.Stands run rest) :
    List.Subperm (n.idents.map Ident.span) (run.map Token.span) := by
  rcases h with h | ⟨brace, -, -, rfl⟩
  · exact h.subperm_idents
  · exact List.nil_subperm

/-- The same for nodes of a program, where a closing brace may stand that closes nothing. -/
theorem Placed.subperm_idents_of_stands {ns : List Node} {run rest : List Token}
    (h : Placed Node.Stands ns run rest) :
    List.Subperm ((ns.flatMap Node.idents).map Ident.span) (run.map Token.span) := by
  induction h with
  | nil => exact List.nil_subperm
  | cons hn _ ih => exact Node.subperm_idents_cons hn.subperm_idents ih

/-- The tokens of a text have different spans: each has a character at least. -/
theorem Lexed.nodup_spans {lines : LineIndex} {offset : Nat} {r : List Char} {lexing : Lexing}
    (h : Lexed lines offset r lexing) : (lexing.tokens.map Token.span).Nodup := by
  induction h with
  | nil => exact List.nodup_nil
  | @cons offset chunk _ _ ts _ _ _ hmunch _ hleaves hrest ih =>
    rw [List.map_append]
    refine List.nodup_append.2 ⟨?_, ih, ?_⟩
    · match ts, hleaves.length_le.1 with
      | [], _ => exact List.nodup_nil
      | [t], _ => exact List.nodup_singleton _
    · -- those behind the chunk begin where it ends
      rintro span hspan _ hlater rfl
      obtain ⟨token, htoken, rfl⟩ := List.mem_map.1 hspan
      have hstart : offset + utf8Length chunk.text ≤ token.span.start := hrest.ascend.1.1 _ hlater
      rw [(hleaves.token token htoken).1] at hstart
      obtain ⟨c, text, htext⟩ := List.exists_cons_of_ne_nil hmunch.text_ne_nil
      have hwidth : 0 < utf8Length chunk.text := by
        rw [htext, utf8Length_cons]
        exact Nat.add_pos_left c.utf8Size_pos _
      exact absurd hstart (Nat.not_le_of_lt (Nat.lt_add_of_pos_right hwidth))

namespace Parsing

/-- If the tokens have different spans, so have the identifiers of the program. -/
theorem nodup_idents {tokens : List Token} {program : Program}
    (h : (ofTokens tokens).program = some program) (htokens : (tokens.map Token.span).Nodup) :
    ((Event.idents program.events).map Ident.span).Nodup := by
  obtain ⟨program', hprogram, -, hplaced⟩ := exists_program_stands tokens
  obtain rfl := Option.some.inj (h.symm.trans hprogram)
  obtain ⟨spans, hperm, hsub⟩ : List.Subperm ((Node.program program).idents.map Ident.span)
      (tokens.map Token.span) :=
    Node.subperm_idents_of_children (by rintro _ ⟨⟩) hplaced.subperm_idents_of_stands
  exact hperm.nodup_iff.1 (htokens.sublist hsub)

end Parsing

end CrudLang
