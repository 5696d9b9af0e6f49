import CrudLang.Proofs.Grammar.Nodes

/-!
# Expressions cover their tokens

Whenever a parser of the grammar succeeds, the nodes that it returns are placed among the tokens
that it has read (`Grammar.Places`). A node with several children is read one child after the other,
and `Grammar.Continues` gathers them: it says which nodes are there once the parser has read on.

The span of an operation is joined from those of its operands, which may stand in parentheses. It
covers the tokens from the first token of the left operand, or from a prefix operator, to the last
token of the right one (`Grammar.placed_joinOperands`, `Grammar.placed_unary`). A row of operands
is joined one after the other, and each round covers what has been read so far
(`Grammar.places_chainLeft`).
-/

namespace CrudLang

namespace Grammar

open CrudLang.Parser

variable {α β : Type}

/-- The nodes of what is read are placed among the tokens read. -/
def Places (p : Parser α) (nodes : α → List Node) : Prop :=
  Ensures p fun a read rest _ => Placed Covers (nodes a) read rest

/-- There are nodes that are placed among the tokens read, and the value is related by `Q` to the
nodes `before` with these behind them. -/
def Continues (before : List Node) (p : Parser α) (Q : α → List Node → Prop) : Prop :=
  Ensures p fun a read rest _ => ∃ nodes, Q a (before ++ nodes) ∧ Placed Covers nodes read rest

namespace Continues

variable {before : List Node} {p : Parser α} {Q : α → List Node → Prop}

/-- Nothing is read behind the nodes that are there. -/
theorem pure {a : α} (h : Q a before) : Continues before (Pure.pure a) Q :=
  Ensures.pure fun _ => ⟨[], by rwa [List.append_nil], .nil⟩

/-- Tokens that belong to no child. -/
theorem skip {P : α → List Token → List Token → List Failure → Prop} {f : α → Parser β}
    {Q : β → List Node → Prop} (hp : Ensures p P) (hf : ∀ a, Continues before (f a) Q) :
    Continues before (p >>= f) Q :=
  hp.bind fun a first _ => (hf a).mono fun _ _ _ _ ⟨nodes, hQ, hplaced⟩ _ =>
    ⟨nodes, hQ, hplaced.prepend first⟩

/-- The nodes of a child behind those that are there already. -/
theorem bind {own : α → List Node} {f : α → Parser β} {Q : β → List Node → Prop}
    (hp : Places p own) (hf : ∀ a, Continues (before ++ own a) (f a) Q) :
    Continues before (p >>= f) Q := by
  refine Ensures.bind hp fun a first _ => ?_
  refine (hf a).mono fun b read rest _ h hfirst => ?_
  obtain ⟨nodes, hQ, hplaced⟩ := h
  exact ⟨own a ++ nodes, by rwa [← List.append_assoc], hfirst.append hplaced⟩

/-- A label places no nodes. -/
theorem labelled {c : Construct} (hp : Continues before p Q) :
    Continues before (Parser.labelled c p) Q :=
  Ensures.labelled hp

end Continues

namespace Places

variable {p : Parser α} {own : α → List Node} {node : α → Node}

/-- All the nodes of a value have been gathered, from none at all. -/
theorem of_continues (hp : Continues [] p fun a nodes => nodes = own a) : Places p own :=
  Ensures.mono hp fun _ _ _ _ ⟨_, hnodes, hplaced⟩ => hnodes ▸ hplaced

/-- What is read is a node that covers all of the tokens. -/
theorem of_covers (hp : Ensures p fun a read rest _ => Covers (node a) read rest) :
    Places p fun a => [node a] :=
  hp.mono fun _ _ _ _ h => .one h

/-- The nodes are those of the value that is made. -/
theorem map {g : α → β} {own : β → List Node} (hp : Places p fun a => own (g a)) :
    Places (g <$> p) own :=
  Ensures.map hp

/-- Tokens before, which belong to no node. -/
theorem skip {P : α → List Token → List Token → List Failure → Prop} {f : α → Parser β}
    {own : β → List Node} (hp : Ensures p P) (hf : ∀ a, Places (f a) own) :
    Places (p >>= f) own :=
  hp.bind fun a first _ => (hf a).mono fun _ _ _ _ h _ => h.prepend first

/-- Whichever alternative is taken, its nodes are placed. -/
theorem orElse {q : Parser α} (hp : Places p own) (hq : Places q own) :
    Places (Parser.orElse p q) own :=
  Ensures.orElse hp hq

/-- A label does not move nodes. -/
theorem labelled {c : Construct} (hp : Places p own) : Places (Parser.labelled c p) own :=
  Ensures.labelled hp

/-- Two tokens around nodes belong to none of them. -/
theorem between {left right : Punctuator} (hp : Places p own) :
    Places (Parser.between left right p) own := by
  refine Ensures.between hp fun a l read r rest _ _ _ hplaced => ?_
  have hread : Placed Covers (own a) (read ++ [r]) rest := .append_right hplaced
  exact hread.prepend [l]

/-- Something that may be missing places one node or none. -/
theorem optional (hp : Places p fun a => [node a]) :
    Places (Parser.optional p) fun a? => a?.toList.map node :=
  Ensures.optional hp fun _ => .nil

/-- A repetition places its nodes one behind the other. -/
theorem many (hp : Places p fun a => [node a]) : Places (Parser.many p) fun as => as.map node :=
  Ensures.many hp (fun _ => .nil) fun _ _ _ _ _ _ _ hfirst hothers => hfirst.append hothers

/-- Tokens between items belong to none of them. -/
theorem separated {separator : Parser Unit}
    {P : Unit → List Token → List Token → List Failure → Prop}
    (hp : Places p fun a => [node a]) (hseparator : Ensures separator P) :
    Places (Parser.separated p separator) fun as => as.map node := by
  have hfurther : Places (do separator; p) fun a => [node a] := .skip hseparator fun _ => hp
  have hlast : Ensures (Parser.optional separator) fun _ _ _ _ => True :=
    .optional (hseparator.mono fun _ _ _ _ _ => trivial) fun _ => trivial
  refine .orElse (.of_continues <| .bind hp fun first => .bind hfurther.many fun others => ?_) ?_
  · -- a separator behind the last item belongs to none of them
    exact .skip hlast fun _ => .pure rfl
  · exact Ensures.pure fun _ => .nil

end Places

section Expressions

/-- A name covers its token. -/
theorem covers_identifier :
    Ensures identifier fun name read rest _ => Covers (.ident name) read rest := by
  refine .labelled (.withSpan ?_)
  refine Ensures.satisfy.bind fun name first _ => ?_
  refine .pure fun rest h => ?_
  obtain ⟨t, rfl, hname, -⟩ := h
  split at hname
  next hkind =>
    obtain rfl := Option.some.inj hname
    exact .ident hkind
  next => cases hname

/-- So its node is placed there. -/
theorem places_identifier : Places identifier fun name => [.ident name] :=
  .of_covers covers_identifier

/-- An expression whose span is taken from its tokens. -/
theorem places_withSpan {p : Parser (Span → Expr)} (hp : Continues [] p fun build nodes =>
      nodes ≠ [] ∧ ∀ span, (build span).span = span ∧ (Node.expr (build span)).children = nodes) :
    Places (withSpan p) fun e => [.expr e] := by
  refine .of_covers (.withSpan ?_)
  refine Ensures.mono hp fun build read rest _ h => ?_
  obtain ⟨nodes, ⟨hne, hbuild⟩, hplaced⟩ := h
  obtain ⟨hspan, hchildren⟩ := hbuild (spanOfRun read)
  exact .expr (hplaced.ne_nil Covers.ne_nil hne) (fun _ => hspan) (hchildren ▸ hplaced)

/-- A literal covers its token. -/
theorem places_literal : Places literal fun e => [.expr e] := by
  refine .of_covers (.withSpan ?_)
  refine Ensures.satisfy.mono fun build read rest _ h => ?_
  obtain ⟨t, rfl, hbuild, -⟩ := h
  -- only the tokens for numbers, strings and truth values are read
  split at hbuild
  case h_5 => cases hbuild
  all_goals
    obtain rfl := Option.some.inj hbuild
    exact .expr (List.cons_ne_nil t []) (fun _ => rfl) .nil

section Atoms

variable {p : Parser Expr} (hp : Places p fun e => [.expr e])
include hp

/-- Arguments are placed in their parentheses, given expressions. -/
theorem places_arguments : Places (arguments p) fun args => args.map .expr :=
  .labelled (.between (.separated hp (.token _)))

/-- A `new` covers the name and the arguments, which are its children. -/
theorem places_instantiation : Places (instantiation p) fun e => [.expr e] := by
  have hargs : Places (optional (arguments p)) fun args => (args.getD []).map .expr :=
    Ensures.optional (places_arguments hp) fun _ => .nil
  refine places_withSpan ?_
  refine .skip (.token _) fun _ => ?_
  refine .bind places_identifier fun className => ?_
  refine .bind hargs fun args => ?_
  exact .pure ⟨List.cons_ne_nil _ _, fun _ => ⟨rfl, rfl⟩⟩

/-- A call covers the name and the arguments, which are its children. -/
theorem places_call : Places (call p) fun e => [.expr e] := by
  refine places_withSpan ?_
  refine .bind places_identifier fun name => ?_
  refine .bind (places_arguments hp) fun args => ?_
  exact .pure ⟨List.cons_ne_nil _ _, fun _ => ⟨rfl, rfl⟩⟩

/-- An operand covers its tokens; parentheses around an expression belong to no node. -/
theorem places_atom : Places (atom p) fun e => [.expr e] := by
  refine Ensures.choice places_literal fun q hq => ?_
  simp only [List.mem_cons, List.not_mem_nil, or_false] at hq
  rcases hq with rfl | rfl | rfl | rfl
  · exact places_instantiation hp
  · exact places_call hp
  · -- a name covers the same tokens as an expression
    refine .map ?_
    refine covers_identifier.mono fun name read rest _ h => .one ?_
    refine .expr h.ne_nil (fun _ => ?_) (.one h)
    cases h
    rfl
  · exact hp.between

end Atoms

section Operations

variable {e left right : Expr} {first read run rest : List Token}

/-- With a prefix operator before it, an operand is covered from the operator on. -/
theorem placed_unary (op : UnaryOp) (t : Token) (h : Placed Covers [.expr e] run rest) :
    Placed Covers [.expr (.unary op e (t.span.join e.span))] (t :: run) rest := by
  obtain ⟨before, own, after, rfl, he⟩ := h.exists_of_mem List.mem_cons_self
  have hcovers : Covers (.expr (.unary op e (t.span.join e.span))) ([t] ++ before ++ own)
      (after ++ rest) := by
    refine .expr (by simp) (fun hordered => ?_) ((Placed.one he).prepend _)
    have hown := he.span_eq (hordered.sublist (List.sublist_append_right _ own))
    rw [← hordered.join_spanOfRun (List.cons_ne_nil t []) he.ne_nil, ← hown]
    rfl
  -- the tokens behind the operand are parentheses around it
  simpa only [List.append_assoc, List.cons_append, List.nil_append] using
    (Placed.one hcovers).append_right

/-- Two operands are covered together from the first token of the left one on. -/
theorem placed_joinOperands (op : BinaryOp)
    (hleft : Placed Covers [.expr left] first (read ++ rest))
    (hright : Placed Covers [.expr right] read rest) :
    Placed Covers [.expr (joinOperands left op right)] (first ++ read) rest := by
  obtain ⟨before, own, after, rfl, hl⟩ := hleft.exists_of_mem List.mem_cons_self
  obtain ⟨before', own', after', rfl, hr⟩ := hright.exists_of_mem List.mem_cons_self
  -- parentheses between the operands are covered, those before and behind both of them are not
  have hcovers : Covers (.expr (joinOperands left op right)) (own ++ (after ++ before') ++ own')
      (after' ++ rest) := by
    refine .expr (by simp [hl.ne_nil]) (fun hordered => ?_) ?_
    · have hown : Ordered own := hordered.sublist (by simp [List.append_assoc])
      have hown' : Ordered own' := hordered.sublist (List.sublist_append_right _ own')
      rw [← hordered.join_spanOfRun hl.ne_nil hr.ne_nil, ← hl.span_eq hown, ← hr.span_eq hown']
      rfl
    · have hbehind : Placed Covers [.expr right] ((after ++ before') ++ own') (after' ++ rest) :=
        (Placed.one hr).prepend _
      rw [List.append_assoc own]
      refine Placed.append (Placed.one ?_) hbehind
      simpa only [List.append_assoc] using hl
  simpa only [List.append_assoc] using (Placed.one hcovers).append_right.prepend before

end Operations

/-- A prefix operator is one token, and its span is that of the token. -/
theorem ensures_unaryOperator :
    Ensures unaryOperator fun op read _ _ => ∃ t, read = [t] ∧ op.2 = t.span := by
  have hsign (k : TokenKind) (op : UnaryOp) :
      Ensures (do token k; pure fun span => (op, span) : Parser (Span → UnaryOp × Span))
        fun build read _ _ => ∃ t, read = [t] ∧ (build (spanOfRun read)).2 = t.span := by
    refine (Ensures.token k).bind fun _ first _ => ?_
    refine .pure fun _ h => ?_
    obtain ⟨t, rfl, -⟩ := List.map_eq_singleton_iff.1 h.1
    exact ⟨t, rfl, rfl⟩
  refine .withSpan ?_
  refine .choice (hsign (.punctuator .minus) .neg) fun q hq => ?_
  simp only [List.mem_cons, List.not_mem_nil, or_false] at hq
  rcases hq with rfl | rfl
  · exact hsign (.punctuator .bang) .not
  · exact hsign (.keyword .not) .not

/-- Operators in front of an operand cover it, the last one first. -/
theorem places_unary {p : Parser Expr} (hp : Places p fun e => [.expr e]) :
    Places (unary p) fun e => [.expr e] := by
  -- behind the operators, an operand gets them one by one, the last one first
  have hoperators : Ensures (many unaryOperator) fun ops read rest _ => ∀ e run behind,
      Placed Covers [.expr e] run behind →
        Placed Covers [.expr (Expr.prefixAll ops e)] (read ++ run) behind := by
    refine .many ensures_unaryOperator (fun _ _ _ _ h => h) ?_
    rintro ⟨op, span⟩ ops _ read _ _ _ ⟨t, rfl, rfl⟩ hops e run behind he
    exact placed_unary op t (hops e run behind he)
  refine hoperators.bind fun ops first _ => ?_
  refine .map (g := Expr.prefixAll ops) ?_
  exact (places_atom hp).mono fun e read rest _ he hops => hops e read rest he

/-- Operands with operators between them are covered round by round. -/
theorem places_chainLeft {operand : Parser Expr} {operator : Parser BinaryOp}
    {P : BinaryOp → List Token → List Token → List Failure → Prop}
    (hoperand : Places operand fun e => [.expr e]) (hoperator : Ensures operator P) :
    Places (chainLeft operand operator joinOperands) fun e => [.expr e] := by
  have hother : Places (do let op ← operator; let right ← operand; pure (op, right))
      fun other => [.expr other.2] := by
    refine .of_continues ?_
    refine .skip hoperator fun op => ?_
    refine .bind hoperand fun right => ?_
    exact .pure rfl
  -- what has been read so far is covered by the row joined so far, whose first operand is anything
  have hothers : Ensures (many (do let op ← operator; let right ← operand; pure (op, right)))
      fun others read rest _ => ∀ left first, Placed Covers [.expr left] first (read ++ rest) →
        Placed Covers [.expr (left.joinAll others)] (first ++ read) rest := by
    refine .many hother (fun _ _ _ h => by rwa [List.append_nil]) ?_
    rintro ⟨op, right⟩ others run read rest _ _ hright hothers left first hleft
    rw [List.append_assoc] at hleft
    rw [← List.append_assoc]
    exact hothers _ _ (placed_joinOperands op hleft hright)
  refine Ensures.bind hoperand fun left first _ => ?_
  refine .map (g := left.joinAll) ?_
  exact hothers.mono fun others read rest _ h hleft => h left first hleft

/-- Whatever operator a choice reads. -/
theorem ensures_operator {level : Nat} {operator : Parser BinaryOp}
    (h : ChoosesOperators level operator) : Ensures operator fun _ _ _ _ => True :=
  h.spells.mono fun _ _ _ _ _ => trivial

/-- One round of expressions: the assignments and the rows of each level of operators. -/
theorem places_expressionStep {p : Parser Expr} (hp : Places p fun e => [.expr e]) :
    Places (expressionStep p) fun e => [.expr e] := by
  have hassignment : Places (assignment p) fun e => [.expr e] := by
    refine places_withSpan ?_
    refine .bind places_identifier fun name => ?_
    refine .skip (.token _) fun _ => ?_
    refine .bind hp fun value => ?_
    exact .pure ⟨List.cons_ne_nil _ _, fun _ => ⟨rfl, rfl⟩⟩
  refine .labelled (.orElse hassignment ?_)
  -- the levels of operators, the tightest one first
  refine places_chainLeft ?_ (ensures_operator choosesOperators_or)
  refine places_chainLeft ?_ (ensures_operator choosesOperators_and)
  refine places_chainLeft ?_ (ensures_operator choosesOperators_equality)
  refine places_chainLeft ?_ (ensures_operator choosesOperators_comparison)
  refine places_chainLeft ?_ (ensures_operator choosesOperators_sum)
  exact places_chainLeft (places_unary hp) (ensures_operator choosesOperators_product)

/-- An expression is placed among the tokens that it is read from. -/
theorem places_expression : Places expression fun e => [.expr e] :=
  Ensures.fix fun _ hp => places_expressionStep hp

end Expressions

end Grammar

end CrudLang
