import CrudLang.Proofs.Detection.Foresight
import CrudLang.Proofs.Grammar.Spelling

/-!
# How far the parser for expressions gets

Up to every place where the parser for expressions notes a failure, it has read the beginning of an
expression: `foresees_expression`. The lemmas before it say the same of each level of expressions,
of lists in parentheses and of names.
-/

namespace CrudLang

open CrudLang.Parser

section Begins

variable {α : Type} {W : α → List TokenKind → Prop}

/-- The tokens are the beginning of some that are related to a value by `W`. -/
def Begins (W : α → List TokenKind → Prop) (ts : List TokenKind) : Prop :=
  ∃ v us, W v (ts ++ us)

/-- What is complete is a beginning of itself. -/
theorem Begins.of {v : α} {ts : List TokenKind} (h : W v ts) : Begins W ts :=
  ⟨v, [], by rwa [List.append_nil]⟩

/-- Further items may be followed by a comma and one more. -/
theorem FurtherItems.snoc {v : α} {vs : List α} {ts us : List TokenKind}
    (h : FurtherItems W vs us) (hv : W v ts) :
    FurtherItems W (vs ++ [v]) (us ++ .punctuator .comma :: ts) := by
  induction h with
  | nil => simpa using cons hv nil
  | cons hw _ ih => simpa [List.append_assoc] using cons hw ih

/-- A list can be closed behind each of its items. -/
theorem begins_itemList {v : α} {vs : List α} {ts us : List TokenKind} (hv : W v ts)
    (hvs : FurtherItems W vs us) :
    Begins (ItemList W) (.punctuator .leftParen :: (ts ++ us)) :=
  ⟨v :: vs, [.punctuator .rightParen], by simpa using ItemList.cons hv hvs (.inl rfl)⟩

end Begins

namespace Grammar

variable {n : Nat} {Pre : List TokenKind → Prop}

/-- Items with commas between them, in parentheses. -/
theorem foresees_itemList {α : Type} {p : Parser α} {W : α → List TokenKind → Prop}
    (hp : Foresees n p (Begins W)) (hW : Spells p (Silently W)) :
    Foresees (n + 1) (between .leftParen .rightParen (separated p (punctuator .comma)))
      (Begins (ItemList W)) := by
  have hfirst (ts : List TokenKind) (h : Begins W ts) :
      Begins (ItemList W) (.punctuator .leftParen :: ts) := by
    obtain ⟨v, us, hv⟩ := h
    exact ⟨[v], us ++ [.punctuator .rightParen], by simpa using ItemList.cons hv .nil (.inl rfl)⟩
  -- a further item stands behind a comma
  have hfurther {v : α} {vs : List α} {ts us : List TokenKind} (hv : W v ts)
      (hvs : FurtherItems W vs us) : Foresees n (do punctuator .comma; p)
        fun ws => Begins (ItemList W) (.punctuator .leftParen :: (ts ++ (us ++ ws))) := by
    refine .weaken (.token_bind ?_ (hp.mono fun ws hws => ?_))
    · rw [List.append_nil]
      exact begins_itemList hv hvs
    · obtain ⟨w, xs, hw⟩ := hws
      obtain ⟨all, ys, hall⟩ := begins_itemList hv (hvs.snoc hw)
      exact ⟨all, xs ++ ys, by simpa using hall⟩
  have hconsumes : Consumes (do punctuator .comma; p) :=
    (Consumes.token _).bind fun _ => .of_spells hW
  have hitem : Spells (do punctuator .comma; p)
      (Silently fun v ts => ∃ us, ts = .punctuator .comma :: us ∧ W v us) :=
    .silently (.token _) fun _ ts hts => hW.mono fun v us _ _ h =>
      ⟨⟨us, by rw [hts]; rfl, h.1⟩, h.2⟩
  have hitems : Foresees n (separated p (punctuator .comma))
      fun us => Begins (ItemList W) (.punctuator .leftParen :: us) := by
    refine .orElse (.bind (hp.mono hfirst) hW fun v ts hv => ?_) (.pure [])
    have hothers : Foresees n (many (do punctuator .comma; p)) fun us =>
        Begins (ItemList W) (.punctuator .leftParen :: (ts ++ us)) :=
      .many (W := fun us => ∃ vs, FurtherItems W vs us) hconsumes hitem
        (fun us ⟨vs, hvs⟩ => hfurther hv hvs)
        (fun us w ws ⟨vs, hvs⟩ ⟨xs, hws, hw⟩ => ⟨vs ++ [w], hws ▸ hvs.snoc hw⟩) ⟨[], .nil⟩
    refine .bind hothers hW.furtherItems fun vs us hvs => ?_
    refine .bind_pure (.optional (.token ?_))
    rw [List.append_nil]
    exact begins_itemList hv hvs
  refine .token_bind ⟨[], _, .nil⟩ (.bind hitems hW.items fun vs ts hvs => ?_)
  exact .bind_pure (.token ⟨vs, [.punctuator .rightParen], by simpa using hvs⟩)

/-- A name is one token, so it fails only with nothing read. -/
theorem foresees_identifier (hnil : Pre []) : Foresees n identifier Pre :=
  .labelled (.withSpan (.bind_pure (.satisfy hnil)))

/-- A literal is one token too. -/
theorem foresees_literal (hnil : Pre []) : Foresees n literal Pre :=
  .withSpan (.satisfy hnil)

/-- So is an operator in front of an operand. -/
theorem foresees_unaryOperator (hnil : Pre []) : Foresees n unaryOperator Pre := by
  refine .withSpan (.choice fun q hq => ?_)
  simp only [List.mem_cons, List.not_mem_nil, or_false] at hq
  rcases hq with rfl | rfl | rfl
  · exact .bind_pure (.token hnil)
  · exact .bind_pure (.token hnil)
  · exact .bind_pure (.token hnil)

section Operands

variable (h : Foresees n expression (Begins (Expr.Written 0)))
include h

/-- The arguments of a call, given how far the expressions in them get. -/
theorem foresees_arguments :
    Foresees (n + 1) (arguments expression) (Begins (ItemList (Expr.Written 0))) :=
  .labelled (foresees_itemList h spells_expression)

/-- A `new`, which is complete behind the name and behind the arguments. -/
theorem foresees_instantiation :
    Foresees (n + 1) (instantiation expression) (Begins Expr.AtomWritten) := by
  have hnew (className : Ident) : Expr.AtomWritten (.new className [] default)
      [.keyword .new, .identifier className.name] := .new
  refine .withSpan ?_
  refine .token_bind ⟨_, _, hnew default⟩ ?_
  refine .bind (foresees_identifier ⟨_, _, hnew default⟩) spells_identifier
    fun className ts hname => ?_
  refine .bind_pure (.optional ((foresees_arguments h).weaken.mono fun us hus => ?_))
  obtain ⟨args, vs, hargs⟩ := hus
  rw [hname]
  have hwritten : Expr.AtomWritten (.new className args default)
      (.keyword .new :: .identifier className.name :: (us ++ vs)) := .newWith hargs
  exact ⟨_, vs, hwritten⟩

/-- A call: what has been read of it is a name, which is complete too. -/
theorem foresees_call : Foresees (n + 1) (call expression) (Begins Expr.AtomWritten) := by
  have hcall (callee : Ident) : Expr.AtomWritten (.name callee) [.identifier callee.name] := .name
  refine .withSpan ?_
  refine .bind (foresees_identifier ⟨_, _, hcall default⟩) spells_identifier
    fun callee ts hname => ?_
  refine .bind_pure ((foresees_arguments h).mono fun us hus => ?_)
  obtain ⟨args, vs, hargs⟩ := hus
  rw [hname]
  have hwritten : Expr.AtomWritten (.call callee args default)
      (.identifier callee.name :: (us ++ vs)) := .call hargs
  exact ⟨_, vs, hwritten⟩

/-- An operand without operators. -/
theorem foresees_atom : Foresees (n + 1) (atom expression) (Begins Expr.AtomWritten) := by
  have hnil : Begins Expr.AtomWritten [] := ⟨.bool true default, _, .bool⟩
  have hclosed {e : Expr} {ts : List TokenKind} (he : Expr.Written 0 e ts) :
      Expr.AtomWritten e (.punctuator .leftParen :: ts ++ [.punctuator .rightParen]) :=
    .parentheses he
  refine .choice fun q hq => ?_
  simp only [List.mem_cons, List.not_mem_nil, or_false] at hq
  rcases hq with rfl | rfl | rfl | rfl | rfl
  · exact foresees_literal hnil
  · exact foresees_instantiation h
  · exact foresees_call h
  · exact .map (foresees_identifier hnil)
  · -- what stands in parentheses can be completed by closing them
    have hinner : Foresees n expression
        fun ts => Begins Expr.AtomWritten (.punctuator .leftParen :: ts) := by
      refine h.mono fun ts hts => ?_
      obtain ⟨e, us, he⟩ := hts
      exact ⟨e, us ++ [.punctuator .rightParen], by simpa using hclosed he⟩
    refine .token_bind hnil (.bind hinner spells_expression fun e ts he => ?_)
    exact .bind_pure (.token ⟨e, [.punctuator .rightParen], by simpa using hclosed he⟩)

/-- Operators in front of an operand: whatever operand follows, they belong to an expression. -/
theorem foresees_unary : Foresees (n + 1) (unary expression) (Begins (Expr.Written 7)) := by
  have hconsumes : Consumes unaryOperator := .of_spells spells_unaryOperator
    fun _ _ _ h => by simp [Silently] at h
  -- behind prefix operators, an operand may begin
  have hoperand {ops : List (UnaryOp × Span)} {ts us : List TokenKind}
      (hops : ts.map UnaryOp.ofKind? = ops.map fun op => some op.1)
      (hus : Begins Expr.AtomWritten us) : Begins (Expr.Written 7) (ts ++ us) := by
    obtain ⟨e, vs, he⟩ := hus
    exact ⟨_, vs, by rw [List.append_assoc]; exact .prefixAll hops (.atom he)⟩
  have hnil : Begins Expr.AtomWritten [] := ⟨.bool true default, _, .bool⟩
  have hops : Foresees (n + 1) (many unaryOperator) (Begins (Expr.Written 7)) := by
    refine .many (W := fun ts => ∃ ops : List (UnaryOp × Span),
      ts.map UnaryOp.ofKind? = ops.map fun op => some op.1) hconsumes spells_unaryOperator
        (fun ts hts => ?_) (fun ts op us hts hus => ?_) ⟨[], rfl⟩
    · obtain ⟨ops, hts⟩ := hts
      exact foresees_unaryOperator (hoperand hts hnil)
    · obtain ⟨ops, hts⟩ := hts
      exact ⟨ops ++ [op], by simp [hts, hus]⟩
  refine .bind hops spells_unaryOperators fun ops ts hts => ?_
  exact .bind_pure ((foresees_atom h).mono fun us hus => hoperand hts hus)

end Operands

/-- Behind the name, the sign of assignment may follow, and behind that the value. -/
theorem foresees_assignment (h : Foresees n expression (Begins (Expr.Written 0))) :
    Foresees (n + 1) (assignment expression) (Begins (Expr.Written 0)) := by
  have hname (target : Ident) : Expr.Written 0 (.name target) [.identifier target.name] :=
    .atom .name
  refine .withSpan ?_
  refine .bind (foresees_identifier ⟨_, _, hname default⟩) spells_identifier
    fun target ts htarget => ?_
  rw [htarget]
  -- the name alone is an expression, so the sign may fail
  refine .token_bind (.of (hname target)) (.bind_pure (h.mono fun us hus => ?_))
  obtain ⟨value, vs, hvalue⟩ := hus
  have hassign : Expr.Written 0 (.assign target value default)
      (.identifier target.name :: .punctuator .assign :: (us ++ vs)) := .assign hvalue
  exact ⟨_, vs, hassign⟩

section Rows

variable {level : Nat} {operand : Parser Expr} {operator : Parser BinaryOp}

/-- An operator between operands is one token. -/
theorem foresees_operator (hop : ChoosesOperators level operator) (hnil : Pre []) :
    Foresees n operator Pre := by
  obtain ⟨first, others, rfl, htokens⟩ := hop
  refine .choice fun q hq => ?_
  rw [htokens] at hq
  obtain ⟨t, -, rfl⟩ := List.mem_map.1 hq
  exact .bind_pure (.token hnil)

/-- Operands with operators between them. -/
theorem foresees_chainLeft (h : Foresees n operand (Begins (Expr.Written (level + 1))))
    (hspells : Spells operand (Silently (Expr.Written (level + 1))))
    (hop : ChoosesOperators level operator) :
    Foresees n (chainLeft operand operator joinOperands) (Begins (Expr.Written level)) := by
  have hlevel (ts : List TokenKind) (hts : Begins (Expr.Written (level + 1)) ts) :
      Begins (Expr.Written level) ts := by
    obtain ⟨e, us, he⟩ := hts
    exact ⟨e, us, he.of_le (Nat.le_succ level)⟩
  refine .bind (h.mono hlevel) hspells fun first ts hfirst => ?_
  refine .bind_pure ?_
  have hfurther := spells_furtherOperand hspells hop
  have hconsumes : Consumes (do let op ← operator; let right ← operand; Pure.pure (op, right)) :=
    .of_spells hfurther fun _ _ _ ⟨⟨_, _, hts, _⟩, _⟩ => by cases hts
  have hrow {others : List (BinaryOp × Expr)} {us : List TokenKind}
      (hothers : FurtherOperands level others us) : Expr.Written level (first.joinAll others)
        (ts ++ us) := (hfirst.of_le (Nat.le_succ level)).joinAll hothers
  refine .many (W := fun us => ∃ others, FurtherOperands level others us)
    hconsumes hfurther (fun us ⟨others, hothers⟩ => ?_)
    (fun us other vs ⟨others, hothers⟩ ⟨k, ws, hvs, hk, hright⟩ =>
      ⟨others ++ [other], hvs ▸ hothers.snoc hk hright⟩) ⟨[], .nil⟩
  -- an operator may follow, and behind it an operand
  refine .bind (foresees_operator hop ?_) hop.spells fun op ks ⟨k, hks, hk⟩ => .bind_pure ?_
  · rw [List.append_nil]
    exact .of (hrow hothers)
  · refine h.mono fun vs hvs => ?_
    obtain ⟨right, ws, hright⟩ := hvs
    rw [hks]
    exact ⟨_, ws, by simpa using hrow (hothers.snoc hk hright)⟩

end Rows

/-- Up to a failure, the parser for expressions has read the beginning of one. -/
theorem foresees_expression (n : Nat) : Foresees n expression (Begins (Expr.Written 0)) := by
  induction n with
  | zero => exact .zero
  | succ n ih =>
    -- row by row, from the operators that bind tightest
    have hunary := spells_unary spells_expression
    have hproduct := foresees_chainLeft (foresees_unary ih) hunary choosesOperators_product
    have hspells := spells_chainLeft hunary choosesOperators_product
    have hsum := foresees_chainLeft hproduct hspells choosesOperators_sum
    have hspells := spells_chainLeft hspells choosesOperators_sum
    have hcomparison := foresees_chainLeft hsum hspells choosesOperators_comparison
    have hspells := spells_chainLeft hspells choosesOperators_comparison
    have hequality := foresees_chainLeft hcomparison hspells choosesOperators_equality
    have hspells := spells_chainLeft hspells choosesOperators_equality
    have hconjunction := foresees_chainLeft hequality hspells choosesOperators_and
    have hspells := spells_chainLeft hspells choosesOperators_and
    have hdisjunction := foresees_chainLeft hconjunction hspells choosesOperators_or
    rw [expression_eq]
    refine .labelled ?_
    refine .orElse (foresees_assignment ih) (hdisjunction.mono fun ts hts => ?_)
    obtain ⟨e, us, he⟩ := hts
    exact ⟨e, us, he.of_le (Nat.zero_le 1)⟩

end Grammar

end CrudLang
