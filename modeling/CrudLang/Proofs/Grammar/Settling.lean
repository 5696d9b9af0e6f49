import CrudLang.Proofs.Grammar.StatementReading
import Mathlib.Data.List.Basic

/-!
# Settling statements

Statements stand one behind the other without a separator, so one and the same list of tokens may be
cut into statements in several ways: an expression may go on with a minus sign or an opening
parenthesis that could also begin the next statement, and the value of a `return` may be taken for a
statement of its own. The parser always goes on. `Stmt.ListWritten.exists_settled_cons` shows that
this loses nothing: in front of settled statements, a statement that is carried on by them can
be joined with the first of them, and the result is settled.

For expressions, precedences do not matter here: the tokens of an expression are operands with
operators between them (`Chain`), and all such tokens spell some expression.
-/

namespace CrudLang

/-- Operands with operators between them, of whatever precedences. -/
inductive Chain : List TokenKind → Prop
  | one {e ts} : Expr.Written 7 e ts → Chain ts
  | more {e op k ts us} : Expr.Written 7 e ts → BinaryOp.ofKind? k = some op → Chain us →
      Chain (ts ++ k :: us)

namespace Chain

variable {k : TokenKind} {op : BinaryOp} {ts us : List TokenKind}

theorem ne_nil (h : Chain ts) : ts ≠ [] := by
  cases h with
  | one he => exact he.ne_nil
  | more => simp

theorem append (hts : Chain ts) (hop : BinaryOp.ofKind? k = some op) (hus : Chain us) :
    Chain (ts ++ k :: us) := by
  induction hts with
  | one he => exact .more he hop hus
  | more he hop' _ ih =>
    rw [List.append_assoc, List.cons_append]
    exact .more he hop' ih

/-- The tokens of an expression above the level of assignments are a chain. -/
theorem of_written {level : Nat} (hlevel : 0 < level) {e : Expr} {ts : List TokenKind}
    (h : Expr.Written level e ts) : Chain ts := by
  match h with
  | .atom he => exact .one (.atom he)
  | @Expr.Written.unary _ op operand span _ _ _ hop he =>
    have hunary : Expr.Written 7 (.unary op operand span) _ := .unary (Nat.le_refl 7) hop he
    exact .one hunary
  | .binary hle hop hl hr =>
    have hpos := Nat.lt_of_lt_of_le hlevel hle
    exact append (of_written hpos hl) hop (of_written (Nat.succ_pos _) hr)
  | .assign _ => exact absurd hlevel (Nat.lt_irrefl 0)

end Chain

namespace Expr.Written

/-- An operand and an operator can be put in front of an expression, whatever the precedences. -/
theorem exists_insert {level : Nat} (hlow : 0 < level) {e operand : Expr} {op : BinaryOp}
    {k : TokenKind} {ts us : List TokenKind} (hoperand : Written 7 operand ts)
    (hop : BinaryOp.ofKind? k = some op) (hlevel : level ≤ op.precedence) (h : Written level e us) :
    ∃ e', Written level e' (ts ++ k :: us) := by
  have hprecedence : op.precedence + 1 ≤ 7 := by cases op <;> decide
  -- an expression that binds tighter than the operator is its right operand
  have htight {e : Expr} {us : List TokenKind} (he : Written (op.precedence + 1) e us) :
      ∃ e', Written level e' (ts ++ k :: us) :=
    ⟨.binary op operand e default,
      .binary hlevel hop (hoperand.of_le (Nat.le_of_succ_le hprecedence)) he⟩
  match h with
  | .atom he => exact htight (.atom he)
  | @unary _ op' operand' span _ _ _ hop' he =>
    have hunary : Written (op.precedence + 1) (.unary op' operand' span) _ :=
      .unary hprecedence hop' he
    exact htight hunary
  | @binary _ op' left right span k' _ rs hlevel' hop' hl hr =>
    by_cases hle : op'.precedence ≤ op.precedence
    -- otherwise it belongs to the left operand
    · obtain ⟨left', hleft⟩ := exists_insert (Nat.lt_of_lt_of_le hlow hlevel') hoperand hop hle hl
      have hbinary : Written level (.binary op' left' right default) (_ ++ k' :: rs) :=
        .binary hlevel' hop' hleft hr
      exact ⟨_, by simpa [List.append_assoc] using hbinary⟩
    · have hbinary : Written (op.precedence + 1) (.binary op' left right span) (_ ++ k' :: rs) :=
        .binary (Nat.lt_of_not_le hle) hop' hl hr
      exact htight hbinary
  | .assign _ => exact absurd hlow (Nat.lt_irrefl 0)

/-- Every chain is an expression. -/
theorem exists_of_chain {ts : List TokenKind} (h : Chain ts) : ∃ e, Written 1 e ts := by
  induction h with
  | one he => exact ⟨_, he.of_le (by decide)⟩
  | @more _ op _ _ _ he hop _ ih =>
    obtain ⟨e, he'⟩ := ih
    exact exists_insert Nat.zero_lt_one he hop (by cases op <;> decide) he'

/-- Tokens that go on with the operands of an expression go on with the expression. -/
theorem exists_append {e : Expr} {ts us : List TokenKind} (h : Written 0 e ts)
    (hus : ∀ cs, Chain cs → cs.getLast? = ts.getLast? → Chain (cs ++ us)) :
    ∃ e', Written 0 e' (ts ++ us) := by
  have hchain {e : Expr} {ts : List TokenKind} (he : Written 1 e ts)
      (hus : ∀ cs, Chain cs → cs.getLast? = ts.getLast? → Chain (cs ++ us)) :
      ∃ e', Written 0 e' (ts ++ us) := by
    obtain ⟨e', he'⟩ := exists_of_chain (hus ts (.of_written Nat.zero_lt_one he) rfl)
    exact ⟨e', he'.of_le (Nat.zero_le 1)⟩
  -- only an assignment is no chain, and it goes on with its value
  match h with
  | .atom he => exact hchain (.atom he) hus
  | @unary _ op operand span _ _ _ hop he =>
    have hunary : Written 1 (.unary op operand span) _ := .unary (by decide) hop he
    exact hchain hunary hus
  | @binary _ op left right span k _ rs _ hop hl hr =>
    have hbinary : Written 1 (.binary op left right span) (_ ++ k :: rs) :=
      .binary (by cases op <;> decide) hop hl hr
    exact hchain hbinary hus
  | @assign target value _ vs hvalue =>
    obtain ⟨v, vs, rfl⟩ := List.exists_cons_of_ne_nil hvalue.ne_nil
    obtain ⟨value', hvalue'⟩ :=
      exists_append hvalue fun cs hcs hlast => hus cs hcs (by simpa using hlast)
    exact ⟨.assign target value' default, .assign hvalue'⟩

end Expr.Written

section Calls

variable {args : List Expr} {ps : List TokenKind}

theorem ItemList.getLast?_eq {α : Type} {item : α → List TokenKind → Prop} {vs : List α}
    {ts : List TokenKind} (h : ItemList item vs ts) :
    ts.getLast? = some (.punctuator .rightParen) := by
  cases h with
  | nil => rfl
  | cons => rw [List.getLast?_append, List.getLast?_singleton, Option.some_or]

/-- An operand that ends with a name can be given arguments. -/
theorem Expr.Written.exists_call {e : Expr} {name : String} {ts : List TokenKind}
    (h : Written 7 e ts) (hlast : ts.getLast? = some (.identifier name))
    (hargs : ItemList (Written 0) args ps) : ∃ e', Written 7 e' (ts ++ ps) := by
  match h with
  | .atom hatom =>
    -- only a name, alone or behind `new`, is the last token of an atom
    cases hatom with
    | number | string => simp at hlast
    | @bool value => cases value <;> simp at hlast
    | @name ident => exact ⟨.call ident args default, .atom (.call hargs)⟩
    | @new className => exact ⟨.new className args default, .atom (.newWith hargs)⟩
    | newWith hargs' => simp [List.getLast?_cons, hargs'.getLast?_eq] at hlast
    | call hargs' => simp [List.getLast?_cons, hargs'.getLast?_eq] at hlast
    | parentheses => simp [List.getLast?_cons] at hlast
  | @unary _ op operand span k ts _ hop he =>
    obtain ⟨t, ts, rfl⟩ := List.exists_cons_of_ne_nil he.ne_nil
    obtain ⟨operand', hoperand⟩ := exists_call he (by simpa using hlast) hargs
    exact ⟨.unary op operand' default, .unary (Nat.le_refl 7) hop hoperand⟩
  | @binary _ op _ _ _ _ _ _ hlevel _ _ _ => exact absurd hlevel (by cases op <;> decide)

/-- A chain that ends with a name can be given arguments. -/
theorem Chain.call {name : String} {ts : List TokenKind} (h : Chain ts)
    (hlast : ts.getLast? = some (.identifier name)) (hargs : ItemList (Expr.Written 0) args ps) :
    Chain (ts ++ ps) := by
  induction h with
  | one he =>
    obtain ⟨e', he'⟩ := he.exists_call hlast hargs
    exact .one he'
  | @more _ _ k ts us he hop hus ih =>
    rw [List.append_assoc, List.cons_append]
    apply Chain.more he hop
    apply ih
    rw [List.getLast?_append, List.getLast?_cons, Option.some_or] at hlast
    obtain ⟨last, hus⟩ := Option.isSome_iff_exists.1 (List.getLast?_isSome.2 hus.ne_nil)
    rwa [hus, Option.getD_some, ← hus] at hlast

/-- A chain that begins with an opening parenthesis begins with arguments. -/
theorem Chain.exists_arguments {ts rest : List TokenKind} (h : Chain ts)
    (hts : ts = .punctuator .leftParen :: rest) :
    ∃ arg ps us, ts = ps ++ us ∧ ItemList (Expr.Written 0) [arg] ps ∧
      (us = [] ∨ ∃ k op vs, us = k :: vs ∧ BinaryOp.ofKind? k = some op ∧ Chain vs) := by
  -- an operand that begins with a parenthesis is an expression between parentheses
  have hoperand {e : Expr} {ts rest : List TokenKind} (he : Expr.Written 7 e ts)
      (hts : ts = .punctuator .leftParen :: rest) : ∃ arg, ItemList (Expr.Written 0) [arg] ts := by
    rcases he.atom_or_unary with hatom | ⟨op, operand, k, us, rfl, hop, -⟩
    · cases hatom with
      | parentheses harg =>
        have hlist := ItemList.cons harg .nil (.inl rfl)
        exact ⟨e, by simpa using hlist⟩
      | _ => simp at hts
    · obtain ⟨rfl, -⟩ := List.cons.inj hts
      cases hop
  cases h with
  | one he =>
    obtain ⟨arg, harg⟩ := hoperand he hts
    exact ⟨arg, _, [], (List.append_nil _).symm, harg, .inl rfl⟩
  | @more e op k ts us he hop hus =>
    obtain ⟨t, ts, rfl⟩ := List.exists_cons_of_ne_nil he.ne_nil
    obtain ⟨rfl, -⟩ := List.cons.inj ((List.cons_append ..).symm.trans hts)
    obtain ⟨arg, harg⟩ := hoperand he rfl
    exact ⟨arg, _, _, rfl, harg, .inr ⟨k, op, us, rfl, hop, hus⟩⟩

end Calls

/-- No atom begins with an operator. -/
theorem Expr.AtomWritten.ofKind?_head_binary {e : Expr} {k : TokenKind} {ts : List TokenKind}
    (h : AtomWritten e (k :: ts)) : BinaryOp.ofKind? k = none := by
  generalize hus : k :: ts = us at h
  cases h with
  | @bool value => cases value <;> (obtain ⟨rfl, -⟩ := List.cons.inj hus; rfl)
  | _ => obtain ⟨rfl, -⟩ := List.cons.inj hus; rfl

/-- If the first token of a chain could be an operator, a chain stands behind it. -/
theorem Chain.of_cons {k : TokenKind} {op : BinaryOp} {ts : List TokenKind} (h : Chain (k :: ts))
    (hop : BinaryOp.ofKind? k = some op) : Chain ts := by
  -- the token is a prefix operator as well
  have hoperand {e : Expr} {us : List TokenKind} (he : Expr.Written 7 e (k :: us)) :
      ∃ operand, Expr.Written 7 operand us := by
    rcases he.atom_or_unary with hatom | ⟨_, operand, k', vs, hts, _, hoperand⟩
    · rw [hatom.ofKind?_head_binary] at hop
      cases hop
    · obtain ⟨-, rfl⟩ := List.cons.inj hts
      exact ⟨operand, hoperand⟩
  generalize hus : k :: ts = us at h
  cases h with
  | one he =>
    obtain ⟨operand, hts⟩ := hoperand (hus ▸ he)
    exact .one hts
  | @more e op' k' vs ws he hop' hws =>
    obtain ⟨v, vs, rfl⟩ := List.exists_cons_of_ne_nil he.ne_nil
    obtain ⟨rfl, rfl⟩ := List.cons.inj (hus.trans (List.cons_append ..))
    obtain ⟨operand, hvs⟩ := hoperand he
    exact .more hvs hop' hws

/-- The token carries on an expression that is spelled `ts`. -/
def TokenKind.CarriesOn (ts : List TokenKind) (k : TokenKind) : Prop :=
  (∃ op, BinaryOp.ofKind? k = some op) ∨
    k = .punctuator .leftParen ∧ ∃ name, ts.getLast? = some (.identifier name)

/-- Only the last token of an expression matters. -/
theorem TokenKind.CarriesOn.of_append {pre ts : List TokenKind} {k : TokenKind}
    (h : k.CarriesOn (pre ++ ts)) (hts : ts ≠ []) : k.CarriesOn ts := by
  rwa [CarriesOn, List.getLast?_append_of_ne_nil pre hts] at h

theorem TokenKind.CarriesOn.startsExpression {ts : List TokenKind} {k : TokenKind}
    (h : k.CarriesOn ts) (hk : k.startsStatement) : k.startsExpression := by
  rcases h with ⟨op, hop⟩ | ⟨rfl, -⟩
  · unfold startsStatement at hk
    split at hk
    case h_14 => exact hk
    all_goals cases hop
  · rfl

/-- An expression that begins with what carries another one on can be joined with it. -/
theorem Expr.Written.exists_join {e e' : Expr} {k : TokenKind} {ts us : List TokenKind}
    (h : Written 0 e ts) (h' : Written 0 e' (k :: us)) (hk : k.CarriesOn ts) :
    ∃ e'', Written 0 e'' (ts ++ k :: us) := by
  -- an assignment would begin with a name
  have hchain : Chain (k :: us) := by
    rcases h'.one_or_assign with he | ⟨target, _, _, vs, -, hvs, -⟩
    · exact .of_written Nat.zero_lt_one he
    · obtain ⟨rfl, -⟩ := List.cons.inj hvs
      rcases hk with ⟨op, hop⟩ | ⟨hparen, -⟩
      · cases hop
      · cases hparen
  refine h.exists_append fun cs hcs hlast => ?_
  rcases hk with ⟨op, hop⟩ | ⟨rfl, name, hname⟩
  -- a prefix operator becomes an operator between operands
  · exact hcs.append hop (hchain.of_cons hop)
  -- a parenthesis behind a name makes a call
  · obtain ⟨arg, ps, vs, hps, harg, hvs⟩ := hchain.exists_arguments rfl
    rw [hps, ← List.append_assoc]
    have hcall : Chain (cs ++ ps) := hcs.call (hlast.trans hname) harg
    rcases hvs with rfl | ⟨k', op, ws, rfl, hop, hws⟩
    · rwa [List.append_nil]
    · exact hcall.append hop hws

namespace Stmt

/-- The expression at the end of a statement can be replaced by another one. -/
theorem Written.exists_expression {follow : Follow} {stmt : Stmt} {ts : List TokenKind}
    (h : Written follow stmt ts) (hstmt : stmt.EndsInExpression) :
    ∃ pre e es, ts = pre ++ es ∧ Expr.Written 0 e es ∧ ∀ e' es', Expr.Written 0 e' es' →
      ∃ stmt', stmt'.EndsInExpression ∧ Written follow stmt' (pre ++ es') := by
  -- what stands in front of the expression stays, and any expression may take its place
  cases h with
  | @varWith name value _ ts hvalue =>
    exact ⟨[.keyword .var, .identifier name.name, .punctuator .assign], value, ts, rfl, hvalue,
      fun e' es' he' => ⟨.var name (some e') default, trivial, .varWith he'⟩⟩
  | @const name value _ ts hvalue =>
    exact ⟨[.keyword .const, .identifier name.name, .punctuator .assign], value, ts, rfl, hvalue,
      fun e' es' he' => ⟨.const name e' default, trivial, .const he'⟩⟩
  | @returnWith value _ ts hvalue =>
    exact ⟨[.keyword .return], value, ts, rfl, hvalue,
      fun e' es' he' => ⟨.return (some e') default, trivial, .returnWith he'⟩⟩
  | @expr e _ ts he =>
    exact ⟨[], e, ts, rfl, he, fun e' es' he' => ⟨.expr e' default, trivial, .expr he'⟩⟩
  | _ => exact absurd hstmt id

/-- A statement that begins like an expression is one. -/
theorem Written.exists_expr {follow : Follow} {stmt : Stmt} {k : TokenKind} {ts : List TokenKind}
    (h : Written follow stmt (k :: ts)) (hstmt : ∀ span, stmt ≠ .error span)
    (hk : k.startsExpression) : ∃ e span, stmt = .expr e span ∧ Expr.Written 0 e (k :: ts) := by
  -- the first token of every other form begins no expression
  generalize hus : k :: ts = us at h ⊢
  cases h with
  | @expr e span _ he => exact ⟨e, span, rfl, he⟩
  | error => exact absurd rfl (hstmt _)
  | block hbody =>
    obtain ⟨us, rfl⟩ := hbody.exists_head
    obtain ⟨rfl, -⟩ := List.cons.inj hus
    cases hk
  | @crud op | @crudWith op =>
    obtain ⟨rfl, -⟩ := List.cons.inj hus
    cases op <;> cases hk
  | _ =>
    obtain ⟨rfl, -⟩ := List.cons.inj hus
    cases hk

/-- A statement that ends in an expression is settled where its end is, in front of other
statements. -/
theorem Settled.of_expression {stmt other : Stmt} {pre ts us : List TokenKind}
    (hstmt : stmt.EndsInExpression) (hts : ts ≠ []) (h : other.Settled ts us)
    (hother : other.EndsInExpression) : stmt.Settled (pre ++ ts) us where
  readable hspan := by
    rw [hspan] at hstmt
    exact hstmt
  assign := h.assign
  alternative := h.alternative
  expression _ := by
    -- the same tokens are at the end, so what settles one settles the other
    have hsettled := h.expression hother
    have hlast : (pre ++ ts).getLast? = ts.getLast? := List.getLast?_append_of_ne_nil pre hts
    exact ⟨hsettled.operator, fun hname => hsettled.arguments (hlast ▸ hname), hsettled.assign⟩
  bareCrud := by
    rintro ⟨op, target, span, rfl, -⟩
    exact absurd hstmt id
  bareReturn := by
    rintro span k rfl
    exact absurd hstmt id

/-- In front of a statement, only an expression and a bare `return` can be carried on, beside a
statement on stored data. -/
theorem Settled.of_startsStatement {stmt : Stmt} {k : TokenKind} {ts us : List TokenKind}
    (hstmt : ∀ span, stmt ≠ .error span) (hk : k.startsStatement)
    (hexpr : stmt.EndsInExpression → ¬ k.CarriesOn ts)
    (hcrud : stmt.IsBareCrud ts → k ≠ .punctuator .leftParen)
    (hreturn : ∀ span, stmt = .return none span → k.startsExpression = false) :
    stmt.Settled ts (k :: us) where
  readable := hstmt _
  assign h := by
    obtain rfl := Option.some.inj h
    cases hk
  alternative h := by
    obtain rfl := Option.some.inj h
    cases hk
  expression hends := by
    refine ⟨fun hk' hop => ?_, fun hlast hparen => ?_, fun hassign => ?_⟩
    · obtain rfl := Option.some.inj hk'
      exact absurd (.inl ⟨_, hop⟩) (hexpr hends)
    · obtain rfl := Option.some.inj hparen
      exact absurd (.inr ⟨rfl, _, hlast⟩) (hexpr hends)
    · obtain rfl := Option.some.inj hassign
      cases hk
  bareCrud hbare h := hcrud hbare (Option.some.inj h)
  bareReturn hspan h := by
    obtain rfl := Option.some.inj h
    exact hreturn _ hspan

/-- A statement in front of settled statements can be joined with what carries it on, unless it is a
statement on stored data in front of a parenthesis. -/
theorem ListWritten.exists_settled_cons {stmt : Stmt} {stmts : List Stmt}
    {ts semi us : List TokenKind} (hwritten : Stmt.Written .settled stmt ts)
    (hstmt : ∀ span, stmt ≠ .error span) (hsemi : Optionally .semicolon semi)
    (hcrud : stmt.IsBareCrud ts → (semi ++ us).head? ≠ some (.punctuator .leftParen))
    (hstmts : Stmt.ListWritten .settled .settled stmts us) :
    ∃ stmts', Stmt.ListWritten .settled .settled stmts' (ts ++ semi ++ us) := by
  rcases hsemi with rfl | rfl
  case inr =>
    -- a semicolon settles every statement
    refine ⟨stmt :: stmts, .cons hwritten (.inr rfl) (.of_stops hstmt fun k hk => ?_) hstmts⟩
    obtain rfl := Option.some.inj hk
    simp [TokenKind.Stops, TokenKind.startsExpression, BinaryOp.ofKind?]
  cases hstmts with
  | nil => exact ⟨[stmt], .cons hwritten (.inl rfl) (.of_stops hstmt (by simp)) .nil⟩
  | @cons _ other stmts ts' semi' us' hother hsemi' hsettled' hstmts =>
    obtain ⟨k, rest, rfl, hk⟩ := hother.exists_head fun _ => hsettled'.readable
    -- a statement that ends in an expression takes the next one in
    have hjoin {stmt' : Stmt} {pre : List TokenKind} (hstart : k.startsExpression)
        (hends : stmt'.EndsInExpression)
        (hwritten' : Stmt.Written .settled stmt' (pre ++ k :: rest)) :
        ∃ stmts', Stmt.ListWritten .settled .settled stmts' (pre ++ k :: rest ++ semi' ++ us') := by
      obtain ⟨e, span, rfl, -⟩ := hother.exists_expr (fun _ => hsettled'.readable) hstart
      have hsettled : stmt'.Settled (pre ++ k :: rest) (semi' ++ us') :=
        .of_expression hends (List.cons_ne_nil k rest) hsettled' trivial
      exact ⟨stmt' :: stmts, .cons hwritten' hsemi' hsettled hstmts⟩
    by_cases hcarries : stmt.EndsInExpression ∧ k.CarriesOn ts
    -- the expression at the end goes on with the next statement
    · obtain ⟨hends, hcarries⟩ := hcarries
      have hstart := hcarries.startsExpression hk
      obtain ⟨e', span, rfl, he'⟩ := hother.exists_expr (fun _ => hsettled'.readable) hstart
      obtain ⟨pre, e, es, rfl, he, hreplace⟩ := hwritten.exists_expression hends
      obtain ⟨e'', he''⟩ := he.exists_join he' (hcarries.of_append he.ne_nil)
      obtain ⟨stmt', hends', hwritten'⟩ := hreplace e'' _ he''
      rw [← List.append_assoc] at hwritten'
      obtain ⟨stmts', hstmts'⟩ := hjoin hstart hends' hwritten'
      exact ⟨stmts', by simpa [List.append_assoc] using hstmts'⟩
    by_cases hreturn : (∃ span, stmt = .return none span) ∧ k.startsExpression
    -- the next statement is the value to return
    · obtain ⟨⟨span, rfl⟩, hstart⟩ := hreturn
      obtain ⟨e', span', rfl, he'⟩ := hother.exists_expr (fun _ => hsettled'.readable) hstart
      cases hwritten
      have hvalue : Stmt.Written .settled (.return (some e') default)
          ([.keyword .return] ++ k :: rest) := .returnWith he'
      have hends : (Stmt.return (some e') default).EndsInExpression := trivial
      obtain ⟨stmts', hstmts'⟩ := hjoin hstart hends hvalue
      exact ⟨stmts', by simpa using hstmts'⟩
    -- nothing else is carried on
    · refine ⟨stmt :: other :: stmts, .cons hwritten (.inl rfl) ?_
        (.cons hother hsemi' hsettled' hstmts)⟩
      refine .of_startsStatement hstmt hk (fun hends h => hcarries ⟨hends, h⟩) ?_
        fun span hspan => ?_
      · exact fun hbare hparen => hcrud hbare (by rw [hparen]; rfl)
      · exact Bool.eq_false_iff.2 fun hstart => hreturn ⟨⟨span, hspan⟩, hstart⟩

end Stmt

end CrudLang
