import CrudLang.Proofs.Grammar.Operands
import CrudLang.Proofs.Parser.Spells

/-!
# What the tokens of an expression spell

Whenever the parser for expressions succeeds, the tokens that it has read spell the expression that
it returns, and it reports nothing: `spells_expression`. The lemmas before it say the same of each
level of expressions.
-/

namespace CrudLang

namespace Parser.Spells

/-- A punctuator that may be missing. -/
theorem optionally (k : Punctuator) :
    Spells (Parser.optional (punctuator k)) (Silently fun _ ts => Optionally k ts) := by
  refine Spells.optional ((token _).mono fun _ ts _ n h => ?_) fun _ => ⟨.inl rfl, rfl⟩
  exact ⟨.inr h.1, h.2⟩

section Items

variable {α : Type} {p : Parser α} {P : α → List TokenKind → Prop} (hp : Spells p (Silently P))
include hp

/-- Further items, each behind a comma. -/
theorem furtherItems :
    Spells (Parser.many (do punctuator .comma; p)) (Silently (FurtherItems P)) := by
  have hitem : Spells (do punctuator .comma; p)
      (Silently fun v ts => ∃ us, ts = .punctuator .comma :: us ∧ P v us) := by
    refine silently (token _) fun _ ts hcomma => ?_
    refine hp.mono fun v us _ n h => ?_
    exact ⟨⟨us, by rw [hcomma]; rfl, h.1⟩, h.2⟩
  apply many_silently hitem .nil
  rintro v vs _ us ⟨ts, rfl, hv⟩ hvs
  exact .cons hv hvs

/-- What stands between the parentheses is said by the list with them. -/
theorem items : Spells (separated p (punctuator .comma)) (Silently fun vs ts =>
    ItemList P vs (.punctuator .leftParen :: ts ++ [.punctuator .rightParen])) := by
  refine orElse ?_ (pure_silently .nil)
  refine silently hp fun v ts hv => ?_
  refine silently hp.furtherItems fun vs us hvs => ?_
  refine silently (optionally .comma) fun _ last hlast => ?_
  refine pure_silently ?_
  simpa [List.append_assoc] using ItemList.cons hv hvs hlast

/-- Items between parentheses. -/
theorem itemList :
    Spells (Parser.between .leftParen .rightParen (separated p (punctuator .comma)))
      (Silently (ItemList P)) :=
  between hp.items fun _ _ _ _ h => h

end Items

end Parser.Spells

namespace Grammar

open CrudLang.Parser

/-- A name is spelled by its token. -/
theorem spells_identifier : Spells identifier (Silently Ident.Written) := by
  refine .labelled (.withSpan ?_)
  refine .silently .satisfy fun name ts h => ?_
  refine .pure fun _ _ => ?_
  obtain ⟨k, rfl, hk⟩ := h
  cases k <;> simp_all [Silently, Ident.Written]

/-- A literal is spelled by its token. -/
theorem spells_literal : Spells literal (Silently Expr.AtomWritten) := by
  refine .withSpan ?_
  refine Spells.satisfy.mono fun build ts _ n h span => ?_
  -- only the tokens for numbers, strings and truth values are read
  obtain ⟨⟨k, rfl, hk⟩, rfl⟩ := h
  refine ⟨?_, rfl⟩
  split at hk
  case h_5 => simp at hk
  all_goals obtain rfl := Option.some.inj hk
  · exact .number
  · exact .string
  · exact .bool
  · exact .bool

section Expressions

variable {p : Parser Expr} (hp : Spells p (Silently (Expr.Written 0)))
include hp

/-- Arguments are spelled as a list of expressions in parentheses. -/
theorem spells_arguments : Spells (arguments p) (Silently (ItemList (Expr.Written 0))) :=
  .labelled (.itemList hp)

/-- A `new` is spelled with or without arguments. -/
theorem spells_instantiation : Spells (instantiation p) (Silently Expr.AtomWritten) := by
  refine .withSpan ?_
  refine .silently (.token _) fun _ _ hnew => ?_
  refine .silently spells_identifier fun className _ hname => ?_
  have hargs : Spells (optional (arguments p)) (Silently fun args ts =>
      (args = none ∧ ts = []) ∨ ItemList (Expr.Written 0) (args.getD []) ts) :=
    .optional ((spells_arguments hp).mono fun _ _ _ _ h => ⟨.inr h.1, h.2⟩)
      fun _ => ⟨.inl ⟨rfl, rfl⟩, rfl⟩
  refine .silently hargs fun args ts hargs => ?_
  refine .pure fun _ span => ⟨?_, rfl⟩
  rw [hnew, hname]
  rcases hargs with ⟨rfl, rfl⟩ | hargs
  · exact .new
  · simpa using Expr.AtomWritten.newWith hargs

/-- A call is spelled by the name and the arguments. -/
theorem spells_call : Spells (call p) (Silently Expr.AtomWritten) := by
  refine .withSpan ?_
  refine .silently spells_identifier fun callee _ hname => ?_
  refine .silently (spells_arguments hp) fun args ts hargs => ?_
  refine .pure fun _ span => ⟨?_, rfl⟩
  rw [hname, List.append_nil]
  exact .call hargs

/-- An operand without operators is spelled by what it is read from, in parentheses perhaps. -/
theorem spells_atom : Spells (atom p) (Silently Expr.AtomWritten) := by
  refine .choice spells_literal fun q hq => ?_
  simp only [List.mem_cons, List.not_mem_nil, or_false] at hq
  rcases hq with rfl | rfl | rfl | rfl
  · exact spells_instantiation hp
  · exact spells_call hp
  · refine .map_silently (spells_identifier.mono fun ident ts _ n h => ⟨?_, h.2⟩)
    rw [h.1]
    exact .name
  · exact .between hp fun v ts _ n h => ⟨.parentheses h.1, h.2⟩

end Expressions

/-- A prefix operator is one token. -/
theorem spells_unaryOperator : Spells unaryOperator
    (Silently fun op ts => ts.map UnaryOp.ofKind? = [some op.1]) := by
  have hsign (k : TokenKind) (op : UnaryOp) (hop : UnaryOp.ofKind? k = some op) :
      Spells (do token k; pure fun span => (op, span) : Parser (Span → UnaryOp × Span))
        fun build ts _ n => ∀ span,
          ts.map UnaryOp.ofKind? = [some (build span).1] ∧ n = 0 := by
    refine .silently (.token k) fun _ ts hts => ?_
    refine .pure fun _ span => ⟨?_, rfl⟩
    rw [hts, List.append_nil, List.map_singleton, hop]
  refine .withSpan ?_
  refine .choice (hsign (.punctuator .minus) .neg rfl) fun q hq => ?_
  simp only [List.mem_cons, List.not_mem_nil, or_false] at hq
  rcases hq with rfl | rfl
  · exact hsign (.punctuator .bang) .not rfl
  · exact hsign (.keyword .not) .not rfl

/-- Prefix operators are recorded in the order of their tokens. -/
theorem spells_unaryOperators : Spells (many unaryOperator) (Silently fun ops ts =>
    ts.map UnaryOp.ofKind? = ops.map fun op => some op.1) := by
  refine .many_silently spells_unaryOperator rfl fun op ops ts us hop hops => ?_
  rw [List.map_append, hop, hops]
  rfl

/-- Operators in front of an operand bind tighter than any between operands. -/
theorem spells_unary {p : Parser Expr} (hp : Spells p (Silently (Expr.Written 0))) :
    Spells (unary p) (Silently (Expr.Written 7)) := by
  refine .silently spells_unaryOperators fun ops ts hops => ?_
  refine .silently (spells_atom hp) fun operand us hoperand => ?_
  apply Spells.pure_silently
  rw [List.append_nil]
  exact .prefixAll hops (.atom hoperand)

section Operators

variable {level : Nat}

/-- An operator between operands is spelled by one token of its level. -/
theorem ChoosesOperators.spells {operator : Parser BinaryOp}
    (h : ChoosesOperators level operator) :
    Spells operator (Silently fun op ts => ∃ k, ts = [k] ∧ BinaryOp.IsToken level op k) := by
  obtain ⟨first, others, rfl, htokens⟩ := h
  have hspells (q : Parser BinaryOp) (hq : q ∈ first :: others) :
      Spells q (Silently fun op ts => ∃ k, ts = [k] ∧ BinaryOp.IsToken level op k) := by
    rw [htokens] at hq
    obtain ⟨⟨k, op⟩, hop, rfl⟩ := List.mem_map.1 hq
    have htoken : BinaryOp.IsToken level op k := BinaryOp.isToken_iff.2 hop
    refine .silently (.token k) fun _ _ hts => ?_
    exact .pure_silently ⟨k, by rw [hts]; rfl, htoken⟩
  exact .choice (hspells first List.mem_cons_self) fun q hq =>
    hspells q (List.mem_cons_of_mem first hq)

section Rows

variable {operand : Parser Expr} {operator : Parser BinaryOp}
variable (hoperand : Spells operand (Silently (Expr.Written (level + 1))))
variable (hoperator : ChoosesOperators level operator)
include hoperand hoperator

/-- A further operand is an operator with an operand of the next level behind it. -/
theorem spells_furtherOperand :
    Spells (do let op ← operator; let right ← operand; pure (op, right))
      (Silently fun other ts => ∃ k us, ts = k :: us ∧ BinaryOp.IsToken level other.1 k ∧
        Expr.Written (level + 1) other.2 us) := by
  refine .silently hoperator.spells fun op _ ⟨k, hk, hop⟩ => ?_
  refine .silently hoperand fun right us hright => ?_
  refine .pure_silently ⟨k, us, ?_, hop, hright⟩
  rw [hk, List.append_nil]
  rfl

/-- Operands of the next level with operators between them. -/
theorem spells_chainLeft :
    Spells (chainLeft operand operator joinOperands) (Silently (Expr.Written level)) := by
  have hothers : Spells (many (do let op ← operator; let right ← operand; pure (op, right)))
      (Silently (FurtherOperands level)) := by
    apply Spells.many_silently (spells_furtherOperand hoperand hoperator) .nil
    rintro ⟨op, right⟩ others _ us ⟨k, ts, rfl, hop, hright⟩ hothers
    exact .cons hop hright hothers
  refine .silently hoperand fun first ts hfirst => ?_
  refine .silently hothers fun others us hothers => ?_
  apply Spells.pure_silently
  rw [List.append_nil]
  exact (hfirst.of_le (Nat.le_succ level)).joinAll hothers

end Rows

end Operators

section Expressions

variable {p : Parser Expr} (hp : Spells p (Silently (Expr.Written 0)))
include hp

/-- Rows of the loosest operator have rows of the tighter ones as operands. -/
theorem spells_disjunction : Spells (disjunction p) (Silently (Expr.Written 1)) :=
  have hproduct : Spells (product p) (Silently (Expr.Written 6)) :=
    spells_chainLeft (spells_unary hp) choosesOperators_product
  have hsum : Spells (sum p) (Silently (Expr.Written 5)) :=
    spells_chainLeft hproduct choosesOperators_sum
  have hcomparison : Spells (comparison p) (Silently (Expr.Written 4)) :=
    spells_chainLeft hsum choosesOperators_comparison
  have hequality : Spells (equality p) (Silently (Expr.Written 3)) :=
    spells_chainLeft hcomparison choosesOperators_equality
  have hconjunction : Spells (conjunction p) (Silently (Expr.Written 2)) :=
    spells_chainLeft hequality choosesOperators_and
  spells_chainLeft hconjunction choosesOperators_or

/-- An assignment has the lowest level, and so may its value. -/
theorem spells_assignment : Spells (assignment p) (Silently (Expr.Written 0)) := by
  refine .withSpan ?_
  refine .silently spells_identifier fun target _ htarget => ?_
  refine .silently (.token _) fun _ _ hassign => ?_
  refine .silently hp fun value ts hvalue => ?_
  refine .pure fun _ span => ⟨?_, rfl⟩
  rw [htarget, hassign, List.append_nil]
  exact .assign hvalue

/-- One round of expressions, given that the expressions inside are spelled. -/
theorem spells_expressionStep : Spells (expressionStep p) (Silently (Expr.Written 0)) := by
  refine .labelled ?_
  refine .orElse (spells_assignment hp) ?_
  exact (spells_disjunction hp).mono fun e ts _ n h => ⟨h.1.of_le (Nat.zero_le 1), h.2⟩

end Expressions

/-- The tokens of an expression spell it, and nothing is reported. -/
theorem spells_expression : Spells expression (Silently (Expr.Written 0)) :=
  .fix fun _ hp => spells_expressionStep hp

end Grammar

end CrudLang
