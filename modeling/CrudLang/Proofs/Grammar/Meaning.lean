import CrudLang.Proofs.Grammar.Ebnf
import CrudLang.Proofs.Grammar.Settling

/-!
# What the rules of the grammar stand for

Whatever the grammar derives spells a tree: `Rule.Spells` says for each rule what its tokens spell,
and `Rule.spells_of_body` shows that its right-hand side stands for nothing else. The statements
of a program and of a block are settled one by one from the last to the first, so each derivable
list of tokens is written as settled statements (`Derivable.exists_settled`).
-/

namespace CrudLang

/-- A statement that can be read, written as settled statements. If it takes no arguments although
it could, none stand behind it. -/
structure Stmt.Derived (stmt : Stmt) (ts rest : List TokenKind) : Prop where
  written : Stmt.Written .settled stmt ts
  readable {span} : stmt ≠ .error span
  bareCrud : stmt.IsBareCrud ts → rest.head? ≠ some (.punctuator .leftParen)

/-- What the tokens that a rule derives spell. -/
def Rule.Spells : Meanings
  | .program, ts, _ => ∃ stmts, Stmt.ListWritten .settled .settled stmts ts
  | .stmt, ts, rest => ∃ (stmt : Stmt) (body semi : List TokenKind), ts = body ++ semi ∧
      Optionally .semicolon semi ∧ stmt.Derived body (semi ++ rest)
  | .varDecl, ts, _ | .constDecl, ts, _ | .funcDef, ts, _ =>
    ∃ stmt, stmt.IsMember ∧ Stmt.Written .settled stmt ts
  | .ifStmt, ts, _ => ∃ stmt, stmt.IsAlternative ∧ Stmt.Written .settled stmt ts
  | .classDef, ts, rest | .loopStmt, ts, rest | .whileStmt, ts, rest | .crudStmt, ts, rest
  | .returnStmt, ts, rest => ∃ stmt : Stmt, stmt.Derived ts rest
  | .block, ts, _ => ∃ body, Block.Written .settled body ts
  | .expr, ts, _ => ∃ e, Expr.Written 0 e ts
  | .or, ts, _ => ∃ e, Expr.Written 1 e ts
  | .and, ts, _ => ∃ e, Expr.Written 2 e ts
  | .equality, ts, _ => ∃ e, Expr.Written 3 e ts
  | .comparison, ts, _ => ∃ e, Expr.Written 4 e ts
  | .sum, ts, _ => ∃ e, Expr.Written 5 e ts
  | .product, ts, _ => ∃ e, Expr.Written 6 e ts
  | .unary, ts, _ => ∃ e, Expr.Written 7 e ts
  | .atom, ts, _ => ∃ e, Expr.AtomWritten e ts
  | .args, ts, _ => ∃ args, ItemList (Expr.Written 0) args ts

/-- A statement that is no bare statement on stored data may stand before anything. -/
theorem Stmt.Derived.of_written {stmt : Stmt} {ts rest : List TokenKind}
    (h : Stmt.Written .settled stmt ts) (hstmt : ∀ span, stmt ≠ .error span)
    (hcrud : ∀ op target args span, stmt ≠ .crud op target args span) : stmt.Derived ts rest where
  written := h
  readable := hstmt _
  bareCrud := fun ⟨_, _, _, hbare, _⟩ => absurd hbare (hcrud _ _ _ _)

namespace Ebnf

variable {meanings : Meanings} {ts rest : List TokenKind}

theorem means_word {k : Keyword} : (word k).Means meanings ts rest ↔ ts = [.keyword k] :=
  .rfl

theorem means_seq {a b : Ebnf} : (a ++ b).Means meanings ts rest ↔
    ∃ us vs, ts = us ++ vs ∧ a.Means meanings us (vs ++ rest) ∧ b.Means meanings vs rest :=
  .rfl

theorem means_alt {a b : Ebnf} : (a ||| b).Means meanings ts rest ↔
    a.Means meanings ts rest ∨ b.Means meanings ts rest :=
  .rfl

theorem means_optional_sign {p : Punctuator} :
    (opt (sign p)).Means meanings ts rest ↔ Optionally p ts :=
  .rfl

end Ebnf

section Lists

variable {meanings : Meanings} {item : Ebnf} {ts rest : List TokenKind}

theorem FurtherItems.exists_of_repeated {α : Type} {P : α → List TokenKind → Prop}
    (h : Repeated ((Ebnf.sign .comma ++ item).Means meanings) ts rest)
    (hitem : ∀ ts rest, item.Means meanings ts rest → ∃ v, P v ts) :
    ∃ vs, FurtherItems P vs ts := by
  induction h with
  | nil => exact ⟨[], .nil⟩
  | cons hfirst _ ih =>
    obtain ⟨_, us, rfl, rfl, hus⟩ := Ebnf.means_seq.1 hfirst
    obtain ⟨v, hv⟩ := hitem us _ hus
    obtain ⟨vs, hvs⟩ := ih
    exact ⟨v :: vs, .cons hv hvs⟩

/-- A list of items in parentheses. -/
theorem ItemList.exists_of_means {α : Type} {P : α → List TokenKind → Prop}
    (h : (Ebnf.list item).Means meanings ts rest)
    (hitem : ∀ ts rest, item.Means meanings ts rest → ∃ v, P v ts) : ∃ vs, ItemList P vs ts := by
  obtain ⟨_, _, rfl, ⟨_, inner, rfl, rfl, hinner⟩, rfl⟩ := h
  rcases hinner with rfl | ⟨_, last, rfl, ⟨first, others, rfl, hfirst, hothers⟩, hlast⟩
  · exact ⟨[], .nil⟩
  · obtain ⟨v, hv⟩ := hitem first _ hfirst
    obtain ⟨vs, hvs⟩ := FurtherItems.exists_of_repeated hothers hitem
    refine ⟨v :: vs, ?_⟩
    have hlist : ItemList P (v :: vs) _ := .cons hv hvs (Ebnf.means_optional_sign.1 hlast)
    simpa [List.append_assoc] using hlist

end Lists

/-- The rule for the expressions of a level. -/
def Rule.ofLevel : Nat → Rule
  | 0 => .expr
  | 1 => .or
  | 2 => .and
  | 3 => .equality
  | 4 => .comparison
  | 5 => .sum
  | 6 => .product
  | 7 => .unary
  | _ => .atom

/-- The rule for the operators of one precedence is a row of operands. -/
theorem Rule.exists_body_ofLevel {level : Nat} (hlow : 0 < level) (hhigh : level < 7) :
    ∃ ops : Ebnf, (ofLevel level).body =
        .rule (ofLevel (level + 1)) ++ .star (ops ++ .rule (ofLevel (level + 1))) ∧
      ops.alternatives.Perm ((BinaryOp.tokens level).map fun t => .token t.1) := by
  match level with
  | 1 | 2 | 3 | 4 | 5 | 6 => exact ⟨_, rfl, by decide⟩

section Operators

variable {r : Rule} {level : Nat} {ops : Ebnf} {ts rest : List TokenKind}

/-- An operand of the rule for a precedence is an expression of the next level. -/
theorem Rule.exists_operand (hlow : 0 < level) (hhigh : level < 7)
    (h : (Rule.ofLevel (level + 1)).Spells ts rest) : ∃ e, Expr.Written (level + 1) e ts := by
  match level with
  | 1 | 2 | 3 | 4 | 5 | 6 => exact h

theorem FurtherOperands.exists_of_repeated
    (hops : ops.alternatives.Perm ((BinaryOp.tokens level).map fun t => .token t.1))
    (hoperand : ∀ ts rest, r.Spells ts rest → ∃ e, Expr.Written (level + 1) e ts)
    (h : Repeated ((ops ++ .rule r).Means Rule.Spells) ts rest) :
    ∃ others, FurtherOperands level others ts := by
  induction h with
  | nil => exact ⟨[], .nil⟩
  | cons hfirst _ ih =>
    obtain ⟨_, us, rfl, hop, hus⟩ := Ebnf.means_seq.1 hfirst
    -- the operator is one of the tokens for the precedence
    obtain ⟨a, ha, hop⟩ := hop.exists_mem
    obtain ⟨⟨k, op⟩, hk, rfl⟩ := List.mem_map.1 (hops.mem_iff.1 ha)
    obtain rfl : _ = [k] := hop
    obtain ⟨right, hright⟩ := hoperand us _ hus
    obtain ⟨others, hothers⟩ := ih
    exact ⟨(op, right) :: others, .cons (BinaryOp.isToken_iff.2 hk) hright hothers⟩

/-- A row of operands with operators of one precedence between them. -/
theorem Expr.Written.exists_of_row (level : Nat) (hlow : 0 < level) (hhigh : level < 7)
    (h : (Rule.ofLevel level).body.Means Rule.Spells ts rest) :
    ∃ e, Expr.Written level e ts := by
  obtain ⟨ops, hbody, hops⟩ := Rule.exists_body_ofLevel hlow hhigh
  rw [hbody] at h
  obtain ⟨first, others, rfl, hfirst, hothers⟩ := Ebnf.means_seq.1 h
  have hoperand (ts rest : List TokenKind) (h : (Rule.ofLevel (level + 1)).Spells ts rest) :
      ∃ e, Expr.Written (level + 1) e ts :=
    Rule.exists_operand hlow hhigh h
  -- the operands are joined from left to right
  obtain ⟨e, he⟩ := hoperand first _ hfirst
  obtain ⟨others', hothers'⟩ := FurtherOperands.exists_of_repeated hops hoperand hothers
  exact ⟨e.joinAll others', (he.of_le (Nat.le_succ level)).joinAll hothers'⟩

/-- Prefix operators in front of an operand. -/
theorem Expr.Written.exists_of_repeated {us : List TokenKind} {e : Expr}
    (h : Repeated (ops.Means Rule.Spells) ts rest) (he : Expr.Written 7 e us)
    (hops : ∀ ts rest, ops.Means Rule.Spells ts rest →
      ∃ op k, ts = [k] ∧ UnaryOp.ofKind? k = some op) :
    ∃ e', Expr.Written 7 e' (ts ++ us) := by
  induction h with
  | nil => exact ⟨e, he⟩
  | cons hop _ ih =>
    obtain ⟨op, k, rfl, hk⟩ := hops _ _ hop
    obtain ⟨operand, hoperand⟩ := ih
    exact ⟨.unary op operand default, .unary (Nat.le_refl 7) hk hoperand⟩

end Operators

section Statements

variable {ts rest : List TokenKind}

/-- Statements one behind the other can be settled from the last to the first. -/
theorem Stmt.ListWritten.exists_settled (h : Repeated Rule.stmt.Spells ts rest) :
    ∃ stmts, Stmt.ListWritten .settled .settled stmts ts := by
  induction h with
  | nil => exact ⟨[], .nil⟩
  | @cons _ us rest hfirst _ ih =>
    obtain ⟨stmt, body, semi, rfl, hsemi, hstmt⟩ := hfirst
    obtain ⟨stmts, hstmts⟩ := ih
    -- the statements behind are settled, so this one can be settled before them
    refine exists_settled_cons hstmt.written (fun _ => hstmt.readable) hsemi ?_ hstmts
    intro hbare hparen
    apply hstmt.bareCrud hbare
    rw [← List.append_assoc, List.head?_append, hparen, Option.some_or]

/-- The members of a class. -/
theorem Stmt.ListWritten.exists_members
    (h : Repeated (((Ebnf.rule .varDecl ||| .rule .constDecl ||| .rule .funcDef) ++
      .opt (.sign .semicolon)).Means Rule.Spells) ts rest) :
    ∃ members, Stmt.ListWritten .settled .isMember members ts := by
  induction h with
  | nil => exact ⟨[], .nil⟩
  | cons hfirst _ ih =>
    obtain ⟨body, semi, rfl, hbody, hsemi⟩ := Ebnf.means_seq.1 hfirst
    -- whichever alternative it is, a member is settled as it stands
    obtain ⟨stmt, hmember, hstmt⟩ :
        ∃ stmt, stmt.IsMember ∧ Stmt.Written .settled stmt body := by
      rcases Ebnf.means_alt.1 hbody with (hvar | hconst) | hfunc
      · exact hvar
      · exact hconst
      · exact hfunc
    obtain ⟨members, hmembers⟩ := ih
    exact ⟨stmt :: members, .cons hstmt (Ebnf.means_optional_sign.1 hsemi) hmember hmembers⟩

/-- A member of a class is a statement. -/
theorem Stmt.Derived.of_member {stmt : Stmt} (hmember : stmt.IsMember)
    (h : Stmt.Written .settled stmt ts) : stmt.Derived ts rest := by
  refine .of_written h ?_ ?_
  · rintro _ rfl
    exact hmember
  · rintro _ _ _ _ rfl
    exact hmember

/-- What may follow `else` is a statement. -/
theorem Stmt.Derived.of_alternative {stmt : Stmt} (hkind : stmt.IsAlternative)
    (h : Stmt.Written .settled stmt ts) : stmt.Derived ts rest := by
  refine .of_written h ?_ ?_
  · rintro _ rfl
    exact hkind
  · rintro _ _ _ _ rfl
    exact hkind

/-- A statement is one of its alternatives, with a semicolon behind it or without. -/
theorem Rule.spells_stmt (h : (Rule.body .stmt).Means Rule.Spells ts rest) :
    Rule.stmt.Spells ts rest := by
  obtain ⟨body, semi, rfl, hbody, hsemi⟩ := h
  -- a semicolon or not, the statement is the one before it
  have hstmt {stmt : Stmt} (h : stmt.Derived body (semi ++ rest)) :
      Rule.stmt.Spells (body ++ semi) rest :=
    ⟨stmt, body, semi, rfl, Ebnf.means_optional_sign.1 hsemi, h⟩
  rcases hbody with (((((((((hvar | hconst) | hfunc) | hclass) | hif) | hloop) | hwhile) | hcrud) |
    hreturn) | hblock) | hexpr
  · obtain ⟨stmt, hmember, hvar⟩ := hvar
    exact hstmt (.of_member hmember hvar)
  · obtain ⟨stmt, hmember, hconst⟩ := hconst
    exact hstmt (.of_member hmember hconst)
  · obtain ⟨stmt, hmember, hfunc⟩ := hfunc
    exact hstmt (.of_member hmember hfunc)
  · obtain ⟨stmt, hclass⟩ := hclass
    exact hstmt hclass
  · obtain ⟨stmt, hkind, hif⟩ := hif
    exact hstmt (.of_alternative hkind hif)
  · obtain ⟨stmt, hloop⟩ := hloop
    exact hstmt hloop
  · obtain ⟨stmt, hwhile⟩ := hwhile
    exact hstmt hwhile
  · obtain ⟨stmt, hcrud⟩ := hcrud
    exact hstmt hcrud
  · obtain ⟨stmt, hreturn⟩ := hreturn
    exact hstmt hreturn
  · obtain ⟨body, hblock⟩ := hblock
    exact hstmt (.of_written (.block hblock) (by simp) (by simp))
  · obtain ⟨e, he⟩ := hexpr
    have hexpr : Stmt.Written .settled (.expr e default) body := .expr he
    exact hstmt (.of_written hexpr (by simp) (by simp))

/-- A statement on stored data takes the arguments behind it. -/
theorem Stmt.Derived.exists_crud (h : (Rule.body .crudStmt).Means Rule.Spells ts rest) :
    ∃ stmt : Stmt, stmt.Derived ts rest := by
  obtain ⟨_, us, rfl, ⟨ops, _, rfl, hop, ⟨name, rfl⟩⟩, hargs⟩ := h
  -- each of the four keywords is that of an operation
  obtain ⟨op, rfl⟩ : ∃ op : CrudOp, ops = [.keyword op.keyword] := by
    rcases hop with ((rfl | rfl) | rfl) | rfl
    · exact ⟨.create, rfl⟩
    · exact ⟨.read, rfl⟩
    · exact ⟨.update, rfl⟩
    · exact ⟨.delete, rfl⟩
  -- without arguments, the grammar says itself that no parenthesis follows
  rcases hargs with ⟨args, hargs⟩ | ⟨rfl, hrest⟩
  · have hwritten : Stmt.Written .settled (.crud op ⟨name, default⟩ args default) _ :=
      .crudWith hargs
    refine ⟨_, hwritten, by simp, ?_⟩
    rintro ⟨_, _, _, -, hts⟩
    cases hargs <;> simp at hts
  · have hwritten : Stmt.Written .settled (.crud op ⟨name, default⟩ [] default) _ := .crud
    exact ⟨_, hwritten, by simp, fun _ => hrest⟩

/-- A condition with its alternative. -/
theorem Stmt.Written.exists_conditional
    (h : (Rule.body .ifStmt).Means Rule.Spells ts rest) :
    ∃ stmt, stmt.IsAlternative ∧ Stmt.Written .settled stmt ts := by
  obtain ⟨_, vs, rfl, ⟨_, us, rfl, ⟨_, ts, rfl, rfl, ⟨condition, hcondition⟩⟩, ⟨body, hbody⟩⟩,
    halternative⟩ := h
  rcases halternative with rfl | ⟨_, vs, rfl, rfl, halternative⟩
  · rw [List.append_nil]
    exact ⟨.if condition body none default, trivial, .if hcondition hbody⟩
  · obtain ⟨alternative, hkind, hwritten⟩ :
        ∃ stmt, stmt.IsAlternative ∧ Stmt.Written .settled stmt vs := by
      rcases halternative with hif | ⟨body, hbody⟩
      · exact hif
      · exact ⟨.block body, trivial, .block hbody⟩
    exact ⟨.if condition body (some alternative) default, trivial,
      .ifElse hcondition hbody hkind hwritten⟩

end Statements

/-- An atom of the grammar spells an atom. -/
theorem Expr.AtomWritten.exists_of_means {ts rest : List TokenKind}
    (h : (Rule.body .atom).Means Rule.Spells ts rest) : ∃ e, Expr.AtomWritten e ts := by
  -- one case for each alternative, in the order of the rule
  rcases h with ((((((hnumber | hstring) | htrue) | hfalse) | hnew) | hcall) | hname) | hparens
  · obtain ⟨text, rfl⟩ := hnumber
    exact ⟨.number text default, .number⟩
  · obtain ⟨value, rfl⟩ := hstring
    exact ⟨.string value default, .string⟩
  · obtain rfl := Ebnf.means_word.1 htrue
    exact ⟨.bool true default, .bool⟩
  · obtain rfl := Ebnf.means_word.1 hfalse
    exact ⟨.bool false default, .bool⟩
  · obtain ⟨_, us, rfl, ⟨_, _, rfl, rfl, ⟨name, rfl⟩⟩, hargs⟩ := hnew
    rcases hargs with rfl | ⟨args, hargs⟩
    · exact ⟨.new ⟨name, default⟩ [] default, .new⟩
    · exact ⟨.new ⟨name, default⟩ args default, .newWith hargs⟩
  · obtain ⟨_, us, rfl, ⟨name, rfl⟩, ⟨args, hargs⟩⟩ := hcall
    exact ⟨.call ⟨name, default⟩ args default, .call hargs⟩
  · obtain ⟨name, rfl⟩ := hname
    exact ⟨.name ⟨name, default⟩, .name⟩
  · obtain ⟨_, _, rfl, ⟨_, us, rfl, rfl, ⟨e, he⟩⟩, rfl⟩ := hparens
    exact ⟨e, .parentheses he⟩

namespace Rule

/-- Each rule spells what its right-hand side stands for. -/
theorem spells_of_body (r : Rule) (ts rest : List TokenKind)
    (h : r.body.Means Rule.Spells ts rest) : r.Spells ts rest := by
  -- the right-hand side is taken apart into what its parts spell; identifiers and spans are made
  -- up, since tokens do not determine the latter
  cases r with
  | program => exact Stmt.ListWritten.exists_settled h
  | stmt => exact spells_stmt h
  | varDecl =>
    obtain ⟨_, us, rfl, ⟨_, _, rfl, rfl, ⟨name, rfl⟩⟩, hvalue⟩ := h
    rcases hvalue with rfl | ⟨_, us, rfl, rfl, ⟨value, hvalue⟩⟩
    · exact ⟨.var ⟨name, default⟩ none default, trivial, .var⟩
    · exact ⟨.var ⟨name, default⟩ (some value) default, trivial, .varWith hvalue⟩
  | constDecl =>
    obtain ⟨_, us, rfl, ⟨_, _, rfl, ⟨_, _, rfl, rfl, ⟨name, rfl⟩⟩, rfl⟩, ⟨value, hvalue⟩⟩ := h
    exact ⟨.const ⟨name, default⟩ value default, trivial, .const hvalue⟩
  | funcDef =>
    obtain ⟨_, us, rfl, ⟨_, ts, rfl, ⟨_, _, rfl, rfl, ⟨name, rfl⟩⟩, hparams⟩, ⟨body, hbody⟩⟩ := h
    obtain ⟨params, hparams⟩ := ItemList.exists_of_means (P := Ident.Written) hparams
      fun _ _ ⟨name, hname⟩ => ⟨⟨name, default⟩, hname⟩
    exact ⟨.func ⟨name, default⟩ params body default, trivial, .func hparams hbody⟩
  | classDef =>
    obtain ⟨_, _, rfl, ⟨_, ts, rfl, ⟨_, _, rfl, ⟨_, _, rfl, rfl, ⟨name, rfl⟩⟩, rfl⟩, hmembers⟩,
      rfl⟩ := h
    obtain ⟨members, hmembers⟩ := Stmt.ListWritten.exists_members hmembers
    exact ⟨.class ⟨name, default⟩ members default,
      .of_written (.class hmembers) (by simp) (by simp)⟩
  | ifStmt => exact Stmt.Written.exists_conditional h
  | loopStmt =>
    obtain ⟨_, us, rfl, rfl, ⟨body, hbody⟩⟩ := h
    exact ⟨.loop body default, .of_written (.loop hbody) (by simp) (by simp)⟩
  | whileStmt =>
    obtain ⟨_, us, rfl, ⟨_, ts, rfl, rfl, ⟨condition, hcondition⟩⟩, ⟨body, hbody⟩⟩ := h
    exact ⟨.while condition body default,
      .of_written (.while hcondition hbody) (by simp) (by simp)⟩
  | crudStmt => exact Stmt.Derived.exists_crud h
  | returnStmt =>
    obtain ⟨_, us, rfl, rfl, hvalue⟩ := h
    rcases hvalue with rfl | ⟨value, hvalue⟩
    · exact ⟨.return none default, .of_written .return (by simp) (by simp)⟩
    · exact ⟨.return (some value) default, .of_written (.returnWith hvalue) (by simp) (by simp)⟩
  | block =>
    obtain ⟨_, _, rfl, ⟨_, ts, rfl, rfl, hstmts⟩, rfl⟩ := h
    obtain ⟨stmts, hstmts⟩ := Stmt.ListWritten.exists_settled hstmts
    exact ⟨⟨stmts, default⟩, .braces hstmts⟩
  | expr =>
    rcases h with ⟨_, us, rfl, ⟨_, _, rfl, ⟨name, rfl⟩, rfl⟩, ⟨value, hvalue⟩⟩ | ⟨e, he⟩
    · exact ⟨.assign ⟨name, default⟩ value default, .assign hvalue⟩
    · exact ⟨e, he.of_le (Nat.zero_le 1)⟩
  | or => exact Expr.Written.exists_of_row 1 (by decide) (by decide) h
  | and => exact Expr.Written.exists_of_row 2 (by decide) (by decide) h
  | equality => exact Expr.Written.exists_of_row 3 (by decide) (by decide) h
  | comparison => exact Expr.Written.exists_of_row 4 (by decide) (by decide) h
  | sum => exact Expr.Written.exists_of_row 5 (by decide) (by decide) h
  | product => exact Expr.Written.exists_of_row 6 (by decide) (by decide) h
  | unary =>
    obtain ⟨us, vs, rfl, hops, ⟨e, he⟩⟩ := Ebnf.means_seq.1 h
    apply Expr.Written.exists_of_repeated hops (.atom he)
    rintro _ _ ((rfl | rfl) | rfl)
    all_goals exact ⟨_, _, rfl, rfl⟩
  | atom => exact Expr.AtomWritten.exists_of_means h
  | args => exact ItemList.exists_of_means h fun _ _ h => h

end Rule

/-- A derivable list of tokens is written as settled statements. -/
theorem Derivable.exists_settled {ts : List TokenKind} (h : Derivable ts) :
    ∃ stmts, Stmt.ListWritten .settled .settled stmts ts :=
  Derives.means Rule.spells_of_body h

end CrudLang
