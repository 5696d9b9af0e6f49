import CrudLang.Proofs.Grammar.Spelling
import CrudLang.Proofs.Grammar.Unfolding
import CrudLang.Proofs.Parser.Reads

/-!
# Reading expressions back

The tokens that spell an expression are read back as that expression, up to spans and without a
report, wherever the token behind them does not carry the expression on: `reads_expression`.
`Expr.Settled` says which tokens would do so at a level: an operator that binds at least as tight,
the sign of assignment, and an opening parenthesis behind a name.

The proof goes up the levels, from atoms to whole expressions, for all lists of tokens up to a
length; inside an atom the tokens are fewer.
-/

namespace CrudLang

/-- The tokens behind an expression of a level, spelled `ts`, do not carry it on. -/
structure Expr.Settled (level : Nat) (ts next : List TokenKind) : Prop where
  operator {k op} : next.head? = some k → BinaryOp.ofKind? k = some op → op.precedence < level
  arguments {name} : ts.getLast? = some (.identifier name) →
    next.head? ≠ some (.punctuator .leftParen)
  assign : next.head? ≠ some (.punctuator .assign)

/-- Two expressions are the same up to spans. -/
def Expr.Like (e : Expr) : Expr → Prop :=
  fun v => v.eraseSpans = e.eraseSpans

/-- Two names are the same up to spans. -/
def Ident.Like (ident : Ident) : Ident → Prop :=
  fun v => v.eraseSpan = ident.eraseSpan

namespace Expr.Settled

variable {level : Nat} {ts us next : List TokenKind}

/-- No token that neither is an operator nor opens a parenthesis nor assigns carries on an
expression. -/
theorem of_head {k : TokenKind} (hop : BinaryOp.ofKind? k = none)
    (hparen : k ≠ .punctuator .leftParen) (hassign : k ≠ .punctuator .assign) :
    Settled level ts (k :: next) where
  operator hk hop' := by
    obtain rfl := Option.some.inj hk
    simp [hop] at hop'
  arguments _ := by simpa using hparen
  assign := by simpa using hassign

/-- At the end, every expression is settled. -/
theorem nil : Settled level ts [] where
  operator hk := by simp at hk
  arguments _ := by simp
  assign := by simp

/-- Only the head of the tokens behind an expression matters. -/
theorem of_head?_eq {next' : List TokenKind} (h : Settled level ts next)
    (heq : next'.head? = next.head?) : Settled level ts next' where
  operator hk := h.operator (heq ▸ hk)
  arguments hts := heq ▸ h.arguments hts
  assign := heq ▸ h.assign

/-- What does not carry an expression on does not carry on one of a tighter level. -/
theorem mono {level' : Nat} (h : Settled level ts next) (hle : level ≤ level') :
    Settled level' ts next where
  operator hk hop := Nat.lt_of_lt_of_le (h.operator hk hop) hle
  arguments := h.arguments
  assign := h.assign

/-- What does not carry on an expression does not carry on its end. -/
theorem of_append (h : Settled level (ts ++ us) next) : Settled level us next where
  operator := h.operator
  arguments hlast := h.arguments (by rw [List.getLast?_append, hlast, Option.some_or])
  assign := h.assign

/-- What settles tokens settles the last ones of them. -/
theorem of_cons {k : TokenKind} (h : Settled level (k :: us) next) : Settled level us next :=
  of_append (List.singleton_append ▸ h)

/-- An operator does not carry on an expression of a tighter level. -/
theorem of_operator {k : TokenKind} {op : BinaryOp} (hop : BinaryOp.ofKind? k = some op)
    (hlt : op.precedence < level) : Settled level ts (k :: next) where
  operator hk hop' := by
    obtain rfl := Option.some.inj hk
    obtain rfl := Option.some.inj (hop.symm.trans hop')
    exact hlt
  arguments _ hk := by
    obtain rfl := Option.some.inj hk
    cases hop
  assign hk := by
    obtain rfl := Option.some.inj hk
    cases hop

/-- In a row of operands, what follows an operand does not carry it on. -/
theorem of_further {others : List (BinaryOp × Expr)} (hothers : FurtherOperands level others us)
    (h : Settled level (ts ++ us) next) : Settled (level + 1) ts (us ++ next) := by
  cases hothers with
  | nil => exact (List.append_nil ts ▸ h).mono (Nat.le_succ level)
  | cons hop _ _ => exact of_operator hop.1 (Nat.lt_succ_of_le (Nat.le_of_eq hop.2))

end Expr.Settled

/-- A token that an expression may begin with. -/
def TokenKind.startsExpression : TokenKind → Bool
  | .number _ | .string _ | .identifier _ => true
  | .keyword .true | .keyword .false | .keyword .new | .keyword .not => true
  | .punctuator .leftParen | .punctuator .minus | .punctuator .bang => true
  | _ => false

/-- An expression has a first token, which begins an expression. -/
theorem Expr.Written.exists_head {level : Nat} {e : Expr} {ts : List TokenKind}
    (h : Written level e ts) : ∃ k us, ts = k :: us ∧ k.startsExpression := by
  match h with
  | .atom hatom =>
    cases hatom with
    | @bool value => exact ⟨_, _, rfl, by cases value <;> rfl⟩
    | _ => exact ⟨_, _, rfl, rfl⟩
  | .unary _ hop _ =>
    refine ⟨_, _, rfl, ?_⟩
    unfold UnaryOp.ofKind? at hop
    split at hop
    case h_4 => cases hop
    all_goals rfl
  | .binary _ _ hl _ =>
    obtain ⟨k, us, rfl, hk⟩ := exists_head hl
    exact ⟨k, _, rfl, hk⟩
  | .assign _ => exact ⟨_, _, rfl, rfl⟩

/-- The first token of an atom is no prefix operator. -/
theorem Expr.AtomWritten.ofKind?_head {e : Expr} {ts : List TokenKind} (h : AtomWritten e ts) :
    ∃ k us, ts = k :: us ∧ UnaryOp.ofKind? k = none := by
  cases h with
  | bool => exact ⟨_, _, rfl, by split <;> rfl⟩
  | _ => exact ⟨_, _, rfl, rfl⟩

/-- Above the level of assignments, a name at the head is not assigned to. -/
theorem Expr.Written.head?_ne_assign {level : Nat} (hlevel : 0 < level) {e : Expr} {name : String}
    {ts us next : List TokenKind} (h : Written level e ts) (hts : ts = .identifier name :: us)
    (hnext : next.head? ≠ some (.punctuator .assign)) :
    (us ++ next).head? ≠ some (.punctuator .assign) := by
  match h with
  | .atom hatom =>
    cases hatom with
    | name =>
      obtain ⟨-, rfl⟩ := List.cons.inj hts
      exact hnext
    | call hargs =>
      obtain ⟨-, rfl⟩ := List.cons.inj hts
      cases hargs <;> simp
    | _ => simp at hts
  | .unary _ hop _ =>
    obtain ⟨rfl, -⟩ := List.cons.inj hts
    cases hop
  | @binary _ _ _ _ _ k ls _ hle hop hl _ =>
    cases ls with
    | nil => exact absurd rfl hl.ne_nil
    | cons l ls =>
      obtain ⟨rfl, rfl⟩ := List.cons.inj ((List.cons_append ..).symm.trans hts)
      rw [List.append_assoc]
      refine head?_ne_assign (Nat.lt_of_lt_of_le hlevel hle) hl rfl fun hk => ?_
      -- the sign of assignment is no operator
      obtain rfl : k = .punctuator .assign := Option.some.inj hk
      cases hop
  | .assign _ => exact absurd hlevel (Nat.lt_irrefl 0)

namespace Parser

section Items

variable {α γ : Type} {p : Parser α} {item : α → List TokenKind → Prop} {shape : α → γ} {n : Nat}
variable {vs : List α} {ts us last : List TokenKind}

/-- Further items of a list go on with a comma or with the closing parenthesis. -/
theorem exists_separator (next : List TokenKind) (h : FurtherItems item vs us)
    (hlast : Optionally .comma last) :
    ∃ k rest, us ++ (last ++ .punctuator .rightParen :: next) = k :: rest ∧
      (k = .punctuator .comma ∨ k = .punctuator .rightParen) := by
  cases h with
  | nil =>
    rcases hlast with rfl | rfl
    · exact ⟨_, _, rfl, .inr rfl⟩
    · exact ⟨_, _, rfl, .inl rfl⟩
  | cons => exact ⟨_, _, rfl, .inl rfl⟩

variable {next : List TokenKind}
variable (hitem : ∀ v us k rest, item v us → us.length < n →
  k = .punctuator .comma ∨ k = .punctuator .rightParen →
    Reads p us (k :: rest) fun w => shape w = shape v)
variable (hclose : ∀ rest, Rejects p (.punctuator .rightParen :: rest))
include hitem hclose

/-- The items behind the first one are read up to the comma or the parenthesis at the end. -/
theorem Reads.furtherItems (h : FurtherItems item vs us) (hlength : us.length ≤ n)
    (hlast : Optionally .comma last) :
    Reads (Parser.many (do punctuator .comma; p)) us (last ++ .punctuator .rightParen :: next)
      fun ws => ws.map shape = vs.map shape := by
  induction h with
  | nil =>
    -- a comma at the end has no item behind it
    refine many_nil ?_ rfl
    rcases hlast with rfl | rfl
    · exact .bind (.token (by simp))
    · exact .token_bind (hclose next)
  | @cons v vs ts us hv hvs ih =>
    obtain ⟨k, rest, heq, hk⟩ := exists_separator next hvs hlast
    simp only [List.cons_append, List.length_cons, List.length_append] at hlength
    have hfirst : Reads (do punctuator .comma; p) (.punctuator .comma :: ts)
        (us ++ (last ++ .punctuator .rightParen :: next)) fun w => shape w = shape v := by
      rw [heq]
      exact token_bind (hitem v ts k rest hv (by omega) hk)
    refine many_cons (List.cons_ne_nil _ ts) hfirst fun w hw => ?_
    refine (ih (by omega)).mono fun ws hws => ?_
    rw [List.map_cons, List.map_cons, hw, hws]

/-- Items are read between parentheses if each of them is read before a comma or the closing
parenthesis. -/
theorem Reads.itemList (h : ItemList item vs ts) (hlength : ts.length ≤ n) :
    Reads (Parser.between .leftParen .rightParen (separated p (punctuator .comma))) ts next
      fun ws => ws.map shape = vs.map shape := by
  cases h with
  | nil =>
    -- no item begins with the closing parenthesis
    have hnone : Reads (separated p (punctuator .comma)) [] (.punctuator .rightParen :: next)
        fun ws => ws.map shape = [] :=
      orElse_right (hclose next).bind (pure rfl)
    exact between hnone
  | @cons v vs ts us last hv hvs hlast =>
    obtain ⟨k, rest, heq, hk⟩ := exists_separator next hvs hlast
    simp only [List.cons_append, List.length_cons, List.length_append] at hlength
    have hcomma : Reads (Parser.optional (punctuator .comma)) last
        (.punctuator .rightParen :: next) fun _ => True := by
      rcases hlast with rfl | rfl
      · exact optional_none (.token (by simp)) trivial
      · exact optional_some (token _)
    have hfirst : Reads p ts (us ++ last ++ .punctuator .rightParen :: next)
        fun w => shape w = shape v := by
      rw [List.append_assoc, heq]
      exact hitem v ts k rest hv (by omega) hk
    have hothers : Reads (Parser.many (do punctuator .comma; p)) us
        (last ++ .punctuator .rightParen :: next) fun ws => ws.map shape = vs.map shape :=
      furtherItems hitem hclose hvs (by omega) hlast
    have hitems : Reads (separated p (punctuator .comma)) (ts ++ (us ++ (last ++ [])))
        (.punctuator .rightParen :: next) fun ws => ws.map shape = (v :: vs).map shape := by
      refine orElse_left (bind (by simpa using hfirst) fun w hw => ?_)
      refine bind (by simpa using hothers) fun ws hws => ?_
      refine bind hcomma fun _ _ => ?_
      refine pure ?_
      rw [List.map_cons, List.map_cons, hw, hws]
    simpa [List.append_assoc] using between hitems

end Items

end Parser

namespace Grammar

open CrudLang.Parser

/-- A name is read from its token. -/
theorem reads_identifier (ident : Ident) (next : List TokenKind) :
    Reads identifier [.identifier ident.name] next ident.Like := by
  refine .labelled (.withSpan ?_)
  refine .bind_one (P := (· = ident.name)) (.satisfy rfl rfl) ?_
  rintro name rfl
  exact .pure fun span => rfl

/-- Other tokens are rejected as names. -/
theorem rejects_identifier {ts : List TokenKind} (h : ∀ name, ts.head? ≠ some (.identifier name)) :
    Rejects identifier ts := by
  refine .of_spells spells_identifier fun v us rest n hts hv => h v.name ?_
  rw [hts, hv.1]
  rfl

/-- A name with something else behind it. -/
theorem rejects_identifier_bind {α : Type} {f : Ident → Parser α} {ts : List TokenKind}
    (h : ∀ name us, ts = .identifier name :: us → ∀ ident, Rejects (f ident) us) :
    Rejects (identifier >>= f) ts := by
  cases ts with
  | nil => exact .bind (rejects_identifier (by simp))
  | cons k us =>
    -- either there is no name, or what comes behind it is rejected
    by_cases hk : ∃ name, k = .identifier name
    · obtain ⟨name, rfl⟩ := hk
      exact .bind_right (reads_identifier ⟨name, default⟩ us) fun ident _ => h name us rfl ident
    · refine .bind (rejects_identifier fun name hname => hk ⟨name, ?_⟩)
      exact Option.some.inj hname

section Operators

/-- An operator in front of an operand is read from its token. -/
theorem reads_unaryOperator {k : TokenKind} {op : UnaryOp} (h : UnaryOp.ofKind? k = some op)
    (next : List TokenKind) : Reads unaryOperator [k] next (·.1 = op) := by
  have hsign (k : TokenKind) (op : UnaryOp) :
      Reads (do token k; pure fun span => (op, span) : Parser (Span → UnaryOp × Span)) [k] next
        fun build => ∀ span, (build span).1 = op :=
    .token_last (.pure fun _ => rfl)
  have hother (k k' : TokenKind) (op : UnaryOp) (hk : k' ≠ k) :
      Rejects (do token k; pure fun span => (op, span) : Parser (Span → UnaryOp × Span))
        ([k'] ++ next) :=
    .bind (.token fun hkind => hk (Option.some.inj hkind))
  apply Reads.withSpan
  unfold UnaryOp.ofKind? at h
  split at h
  case h_4 => simp at h
  -- the three operators in the order of their alternatives
  all_goals obtain rfl := Option.some.inj h
  · exact .orElse_left (hsign _ _)
  · exact .orElse_right (hother _ _ _ (by simp)) (.orElse_left (hsign _ _))
  · exact .orElse_right (hother _ _ _ (by simp))
      (.orElse_right (hother _ _ _ (by simp)) (hsign _ _))

/-- Prefix operators are read up to a token that is none. -/
theorem reads_unaryOperators {ts next : List TokenKind} {ops : List (UnaryOp × Span)}
    (h : ts.map UnaryOp.ofKind? = ops.map fun op => some op.1)
    (hnext : ∀ k, next.head? = some k → UnaryOp.ofKind? k = none) :
    Reads (many unaryOperator) ts next fun ops' => ops'.map Prod.fst = ops.map Prod.fst := by
  -- each round takes one operator off the list
  induction ops generalizing ts with
  | nil =>
    obtain rfl := List.map_eq_nil_iff.1 h
    refine .many_nil (.of_spells spells_unaryOperator ?_) rfl
    rintro op us rest n rfl ⟨hop, -⟩
    obtain ⟨k, rfl, hk⟩ := List.map_eq_singleton_iff.1 hop
    simp [hnext k rfl] at hk
  | cons op ops ih =>
    cases ts with
    | nil => simp at h
    | cons k ts =>
      simp only [List.map_cons, List.cons.injEq] at h
      refine .many_cons (List.cons_ne_nil k []) (reads_unaryOperator h.1 _) fun op' hop => ?_
      refine (ih h.2).mono fun ops' hops => ?_
      rw [List.map_cons, List.map_cons, hop, hops]

/-- A choice between the operators of a precedence reads each of them. -/
theorem ChoosesOperators.reads {level : Nat} {operator : Parser BinaryOp}
    (h : ChoosesOperators level operator) {k : TokenKind} {op : BinaryOp}
    (hop : BinaryOp.IsToken level op k) (next : List TokenKind) :
    Reads operator [k] next (· = op) := by
  obtain ⟨first, others, rfl, htokens⟩ := h
  have hmem : operatorBy (k, op) ∈ first :: others := by
    rw [htokens]
    exact List.mem_map_of_mem (BinaryOp.isToken_iff.1 hop)
  refine .choice ⟨_, hmem, .token_last (.pure rfl)⟩ fun q hq => ?_
  rw [htokens] at hq
  obtain ⟨⟨k', op'⟩, hop', rfl⟩ := List.mem_map.1 hq
  -- a token stands for one operator only
  by_cases hk : k = k'
  · subst hk
    obtain rfl := Option.some.inj (hop.1.symm.trans (BinaryOp.isToken_iff.2 hop').1)
    exact .inl (.token_last (.pure rfl))
  · exact .inr (.bind (.token fun hkind => hk (Option.some.inj hkind)))

end Operators

/-- The parser reads back what is written at a level with at most `n` tokens. -/
def ReadsLevel (n level : Nat) (p : Parser Expr) : Prop :=
  ∀ e ts next, ts.length ≤ n → Expr.Written level e ts → Expr.Settled level ts next →
    Reads p ts next e.Like

/-- Whatever spells an expression is rejected where no expression begins. -/
theorem rejects_of_head {level : Nat} {p : Parser Expr}
    (hp : Spells p (Silently (Expr.Written level))) {ts : List TokenKind}
    (h : ∀ k, ts.head? = some k → k.startsExpression = false) : Rejects p ts := by
  -- whatever is read begins like an expression
  refine .of_spells hp fun e us rest n hts he => ?_
  obtain ⟨k, us, rfl, hk⟩ := he.1.exists_head
  simp [h k (by rw [hts]; rfl)] at hk

/-- Arguments are rejected where there is no parenthesis. -/
theorem rejects_arguments {p : Parser Expr} {ts : List TokenKind}
    (h : ts.head? ≠ some (.punctuator .leftParen)) : Rejects (arguments p) ts :=
  .labelled (.bind (.token h))

/-- A call is rejected where no parenthesis stands behind the name. -/
theorem rejects_call {p : Parser Expr} {ts : List TokenKind}
    (h : ∀ name us, ts = .identifier name :: us → us.head? ≠ some (.punctuator .leftParen)) :
    Rejects (call p) ts := by
  refine .withSpan ?_
  refine rejects_identifier_bind fun name us hts _ => ?_
  exact .bind (rejects_arguments (h name us hts))

/-- A `new` is rejected where there is no such keyword. -/
theorem rejects_instantiation {p : Parser Expr} {ts : List TokenKind}
    (h : ts.head? ≠ some (.keyword .new)) : Rejects (instantiation p) ts :=
  .withSpan (.bind (.token h))

section Levels

variable {n : Nat} {p : Parser Expr} {next : List TokenKind} (hp : ReadsLevel n 0 p)
variable (hspells : Spells p (Silently (Expr.Written 0)))
include hp

section

include hspells

/-- Arguments are read as they are written. -/
theorem reads_arguments {args : List Expr} {ts : List TokenKind}
    (h : ItemList (Expr.Written 0) args ts) (hlength : ts.length ≤ n + 1) :
    Reads (arguments p) ts next fun vs => vs.map Expr.eraseSpans = args.map Expr.eraseSpans := by
  refine .labelled (.itemList (fun e us k rest he hus hk => ?_) (fun rest => ?_) h hlength)
  · apply hp e us _ (Nat.le_of_lt_succ hus) he
    rcases hk with rfl | rfl <;> exact .of_head rfl (by simp) (by simp)
  · exact rejects_of_head hspells (by simp [TokenKind.startsExpression])

/-- An operand is read as it is written, if the tokens behind do not belong to it. -/
theorem reads_atom {e : Expr} {ts : List TokenKind} (h : Expr.AtomWritten e ts)
    (hlength : ts.length ≤ n + 1) (hnext : Expr.Settled 7 ts next) :
    Reads (atom p) ts next e.Like := by
  have hinstantiation (k : TokenKind) (us : List TokenKind) (hk : k ≠ .keyword .new) :
      Rejects (instantiation p) (k :: us) :=
    rejects_instantiation fun hhead => hk (Option.some.inj hhead)
  cases h with
  | number | string => exact .orElse_left (.withSpan (.satisfy rfl fun _ => rfl))
  | @bool value => cases value <;> exact .orElse_left (.withSpan (.satisfy rfl fun _ => rfl))
  | @name ident =>
    -- without arguments behind it, a name is no call
    refine .orElse_right (.withSpan (.satisfy (by simp))) ?_
    refine .orElse_right (hinstantiation _ _ (by simp)) (.orElse_right (rejects_call ?_) ?_)
    · rintro name us hus
      obtain ⟨-, rfl⟩ := List.cons.inj hus
      exact hnext.arguments rfl
    · refine .orElse_left (.map ((reads_identifier ident next).mono fun v hv => ?_))
      rw [Expr.Like, Expr.eraseSpans, Expr.eraseSpans, hv]
  | @new className =>
    refine .orElse_right (.withSpan (.satisfy (by simp))) (.orElse_left (.withSpan ?_))
    have hnone : Reads (optional (arguments p)) [] next (· = none) :=
      .optional_none (rejects_arguments (hnext.arguments rfl)) rfl
    refine .token_bind (.bind_one (reads_identifier className _) fun v hv => ?_)
    refine .bind_last hnone fun args hargs => ?_
    refine .pure fun span => ?_
    rw [hargs, Expr.Like, Expr.eraseSpans, Expr.eraseSpans, hv]
    rfl
  | @newWith className args _ ts hargs =>
    refine .orElse_right (.withSpan (.satisfy (by simp))) (.orElse_left (.withSpan ?_))
    have hsome : Reads (optional (arguments p)) ts next
        fun vs => (vs.getD []).map Expr.eraseSpans = args.map Expr.eraseSpans :=
      .optional_some (reads_arguments hp hspells hargs (by simp at hlength; omega))
    refine .token_bind (.bind_one (reads_identifier className _) fun v hv => ?_)
    refine .bind_last hsome fun vs hvs => ?_
    refine .pure fun span => ?_
    rw [Expr.Like, Expr.eraseSpans, Expr.eraseSpans, hv]
    simp [hvs]
  | @call callee args _ ts hargs =>
    refine .orElse_right (.withSpan (.satisfy (by simp))) ?_
    refine .orElse_right (hinstantiation _ _ (by simp)) (.orElse_left (.withSpan ?_))
    refine .bind_one (reads_identifier callee _) fun v hv => ?_
    refine .bind_last (reads_arguments hp hspells hargs (by simp at hlength; omega))
      fun vs hvs => ?_
    refine .pure fun span => ?_
    rw [Expr.Like, Expr.eraseSpans, Expr.eraseSpans, hv]
    simp [hvs]
  | @parentheses e ts he =>
    refine .orElse_right (.withSpan (.satisfy (by simp))) ?_
    refine .orElse_right (hinstantiation _ _ (by simp)) (.orElse_right (rejects_call (by simp)) ?_)
    refine .orElse_right (.map (rejects_identifier (by simp))) (.between ?_)
    -- between the parentheses there are fewer tokens, and the closing one settles the expression
    refine hp e ts _ ?_ he (.of_head rfl (by simp) (by simp))
    simp only [List.cons_append, List.length_cons, List.length_append] at hlength
    omega

/-- Operators in front of an operand are read as they are written. -/
theorem readsLevel_unary : ReadsLevel (n + 1) 7 (unary p) := by
  intro e ts next hlength he hnext
  obtain ⟨ops, operand, ts₀, us, hoperand, hops, rfl, hshape⟩ := he.exists_prefix
  -- the atom behind the prefix operators does not begin with one
  have hatom : Reads (atom p) us next operand.Like :=
    reads_atom hp hspells hoperand (by simp at hlength; omega) hnext.of_append
  have hprefix : Reads (many unaryOperator) ts₀ (us ++ next)
      fun ops' => ops'.map Prod.fst = ops.map Prod.fst := by
    refine reads_unaryOperators hops fun k hk => ?_
    obtain ⟨k', us, rfl, hk'⟩ := hoperand.ofKind?_head
    obtain rfl := Option.some.inj hk
    exact hk'
  refine .bind hprefix fun ops' hops' => ?_
  refine .bind_last hatom fun operand' hoperand' => ?_
  refine .pure ?_
  exact (Expr.eraseSpans_prefixAll hops' hoperand').trans hshape

end

end Levels

section Chains

variable {n level : Nat} {operand : Parser Expr} {operator : Parser BinaryOp}
variable (hoperand : ReadsLevel n (level + 1) operand)
variable (hoperator : ChoosesOperators level operator)
include hoperand hoperator

/-- The operands of a row behind the first one are read up to where the row ends. -/
theorem reads_furtherOperands {others : List (BinaryOp × Expr)} {us next : List TokenKind}
    (h : FurtherOperands level others us) (hlength : us.length ≤ n)
    (hnext : Expr.Settled level us next) :
    Reads (many (do let op ← operator; let right ← operand; pure (op, right))) us next
      fun others' => others'.map (Prod.map id Expr.eraseSpans) =
        others.map (Prod.map id Expr.eraseSpans) := by
  induction h with
  | nil =>
    -- the token behind the last operand is no operator of the precedence
    refine .many_nil (.bind (.of_spells hoperator.spells ?_)) rfl
    rintro op _ rest n rfl ⟨⟨k, rfl, hop⟩, -⟩
    exact absurd (hnext.operator rfl hop.1) (by rw [hop.2]; exact Nat.lt_irrefl _)
  | @cons op right others k ts us hop hright hothers ih =>
    simp only [List.cons_append, List.length_cons, List.length_append] at hlength
    have hother : Reads (do let op ← operator; let right ← operand; pure (op, right)) (k :: ts)
        (us ++ next) fun other => Prod.map id Expr.eraseSpans other = (op, right.eraseSpans) := by
      have hsettled : Expr.Settled (level + 1) ts (us ++ next) := .of_further hothers hnext.of_cons
      refine .bind_one (hoperator.reads hop _) fun op' hop' => ?_
      refine .bind_last (hoperand right ts _ (by omega) hright hsettled) fun right' hright' => ?_
      refine .pure ?_
      rw [hop', Prod.map, hright']
      rfl
    refine .many_cons (List.cons_ne_nil k ts) hother fun other hother => ?_
    refine (ih (by omega) hnext.of_append).mono fun others' hothers' => ?_
    rw [List.map_cons, List.map_cons, hother, hothers']
    rfl

/-- The operators of a precedence lift the parser for the next level to theirs. -/
theorem ReadsLevel.chainLeft (hlow : 0 < level) (hhigh : level < 7) :
    ReadsLevel n level (chainLeft operand operator joinOperands) := by
  intro e ts next hlength he hnext
  obtain ⟨first, others, ts₀, us, hfirst, hothers, rfl, hshape⟩ := he.exists_operands hlow hhigh
  rw [List.length_append] at hlength
  have hfirst : Reads operand ts₀ (us ++ next) first.Like :=
    hoperand first ts₀ _ (by omega) hfirst (.of_further hothers hnext)
  refine hfirst.bind fun first' hfirst' => ?_
  refine .bind_last (reads_furtherOperands hoperand hoperator hothers (by omega) hnext.of_append)
    fun others' hothers' => ?_
  refine .pure ?_
  exact (Expr.eraseSpans_joinAll hfirst' hothers').trans hshape

end Chains

section Levels

variable {n : Nat} {p : Parser Expr} (hp : ReadsLevel n 0 p)
variable (hspells : Spells p (Silently (Expr.Written 0)))
include hp hspells

/-- Rows are read as they are written, from the tightest level to the loosest one. -/
theorem readsLevel_disjunction : ReadsLevel (n + 1) 1 (disjunction p) := by
  have hproduct : ReadsLevel (n + 1) 6 (product p) :=
    (readsLevel_unary hp hspells).chainLeft choosesOperators_product (by decide) (by decide)
  have hsum : ReadsLevel (n + 1) 5 (sum p) :=
    hproduct.chainLeft choosesOperators_sum (by decide) (by decide)
  have hcomparison : ReadsLevel (n + 1) 4 (comparison p) :=
    hsum.chainLeft choosesOperators_comparison (by decide) (by decide)
  have hequality : ReadsLevel (n + 1) 3 (equality p) :=
    hcomparison.chainLeft choosesOperators_equality (by decide) (by decide)
  have hconjunction : ReadsLevel (n + 1) 2 (conjunction p) :=
    hequality.chainLeft choosesOperators_and (by decide) (by decide)
  exact hconjunction.chainLeft choosesOperators_or (by decide) (by decide)

/-- So are assignments and rows, given that shorter expressions are. -/
theorem readsLevel_expressionStep : ReadsLevel (n + 1) 0 (expressionStep p) := by
  intro e ts next hlength he hnext
  apply Reads.labelled
  rcases he.one_or_assign with he | ⟨target, value, span, us, rfl, rfl, hvalue⟩
  · have hread := readsLevel_disjunction hp hspells e ts next hlength he
      (hnext.mono (Nat.zero_le 1))
    refine .orElse_right (.withSpan ?_) hread
    -- an expression that begins with a name does not go on with an assignment
    refine rejects_identifier_bind fun name us hts _ => ?_
    refine .bind (.token ?_)
    cases ts with
    | nil => exact absurd rfl he.ne_nil
    | cons k ts =>
      obtain ⟨rfl, rfl⟩ := List.cons.inj hts
      exact he.head?_ne_assign Nat.zero_lt_one rfl hnext.assign
  · refine .orElse_left ?_
    refine .withSpan ?_
    refine .bind_one (reads_identifier target _) fun target' htarget => ?_
    have hread : Reads p us next value.Like :=
      hp value us next (by simp at hlength; omega) hvalue hnext.of_cons.of_cons
    refine .token_bind ?_
    refine .bind_last hread fun value' hvalue' => ?_
    refine .pure fun span => ?_
    rw [Expr.Like, Expr.eraseSpans, Expr.eraseSpans, htarget, hvalue']

end Levels

/-- So are expressions of any length, by induction on it. -/
theorem readsLevel_expression (n : Nat) : ReadsLevel n 0 expression := by
  induction n with
  | zero =>
    intro e ts next hlength he _
    exact absurd (List.length_eq_zero_iff.1 (Nat.le_zero.1 hlength)) he.ne_nil
  | succ n ih =>
    rw [expression_eq]
    exact readsLevel_expressionStep ih spells_expression

/-- An expression is read back as it was written, unless the token behind it carries it on. -/
theorem reads_expression {e : Expr} {ts next : List TokenKind} (he : Expr.Written 0 e ts)
    (hnext : Expr.Settled 0 ts next) : Reads expression ts next e.Like :=
  readsLevel_expression ts.length e ts next (Nat.le_refl _) he hnext

/-- Arguments are read back as they were written, whatever stands behind them. -/
theorem reads_expressionArguments {args : List Expr} {ts : List TokenKind}
    (h : ItemList (Expr.Written 0) args ts) (next : List TokenKind) :
    Reads (arguments expression) ts next
      fun vs => vs.map Expr.eraseSpans = args.map Expr.eraseSpans :=
  reads_arguments (readsLevel_expression ts.length) spells_expression h (Nat.le_succ _)

end Grammar

end CrudLang
