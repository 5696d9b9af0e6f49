import CrudLang.Proofs.Grammar.Shape
import CrudLang.Proofs.Grammar.Written
import CrudLang.Syntax.Expression

/-!
# Operators and their operands in a row

The parsers read the operators of one precedence as a row: an operand and any number of further
ones, each behind an operator. `FurtherOperands` says how such a row is written. Joined from
left to right it is an expression of that level (`Expr.Written.joinAll`), and every expression of
that level is such a row (`Expr.Written.exists_operands`). Prefix operators are treated alike.

The tokens for the operators of a precedence are listed in `BinaryOp.tokens`; each parser for
operators is a choice between them (`ChoosesOperators`).
-/

namespace CrudLang

open Grammar (joinOperands)

/-- A token stands for an operator of a precedence. -/
def BinaryOp.IsToken (level : Nat) (op : BinaryOp) (k : TokenKind) : Prop :=
  BinaryOp.ofKind? k = some op ∧ op.precedence = level

instance (level : Nat) (op : BinaryOp) (k : TokenKind) : Decidable (BinaryOp.IsToken level op k) :=
  inferInstanceAs (Decidable (_ ∧ _))

/-- The tokens for the operators of a precedence. -/
def BinaryOp.tokens : Nat → List (TokenKind × BinaryOp)
  | 1 => [(.punctuator .orOr, .or), (.keyword .or, .or)]
  | 2 => [(.punctuator .andAnd, .and), (.keyword .and, .and)]
  | 3 => [(.punctuator .equal, .eq), (.punctuator .notEqual, .notEq)]
  | 4 => [(.punctuator .lessEqual, .ltEq), (.punctuator .greaterEqual, .gtEq),
      (.punctuator .less, .lt), (.punctuator .greater, .gt)]
  | 5 => [(.punctuator .plus, .add), (.punctuator .minus, .sub)]
  | 6 => [(.punctuator .star, .mul), (.punctuator .slash, .div), (.punctuator .percent, .rem)]
  | _ => []

/-- A token stands for an operator of a precedence if and only if it is listed. -/
theorem BinaryOp.isToken_iff {level : Nat} {op : BinaryOp} {k : TokenKind} :
    BinaryOp.IsToken level op k ↔ (k, op) ∈ BinaryOp.tokens level := by
  constructor
  · rintro ⟨hop, rfl⟩
    unfold ofKind? at hop
    split at hop <;> cases hop <;> decide
  · intro h
    have hlisted : ∀ t ∈ BinaryOp.tokens level, BinaryOp.IsToken level t.2 t.1 := by
      match level with
      | 1 | 2 | 3 | 4 | 5 | 6 => decide
      | 0 | _ + 7 => exact fun _ ht => absurd ht List.not_mem_nil
    exact hlisted _ h

/-- Further operands of a level, each behind an operator of that precedence. -/
inductive FurtherOperands (level : Nat) : List (BinaryOp × Expr) → List TokenKind → Prop
  | nil : FurtherOperands level [] []
  | cons {op right others k ts us} : BinaryOp.IsToken level op k →
      Expr.Written (level + 1) right ts → FurtherOperands level others us →
      FurtherOperands level ((op, right) :: others) (k :: ts ++ us)

/-- Joins a row of operands from left to right. -/
def Expr.joinAll (first : Expr) (others : List (BinaryOp × Expr)) : Expr :=
  others.foldl (fun left (op, right) => joinOperands left op right) first

/-- Puts prefix operators in front of an operand. -/
def Expr.prefixAll (ops : List (UnaryOp × Span)) (operand : Expr) : Expr :=
  ops.foldr (fun (op, span) operand => .unary op operand (span.join operand.span)) operand

namespace FurtherOperands

variable {level : Nat}

/-- One more operand at the end of a row. -/
theorem snoc {op : BinaryOp} {right : Expr} {others : List (BinaryOp × Expr)} {k : TokenKind}
    {ts us : List TokenKind} (h : FurtherOperands level others us)
    (hop : BinaryOp.IsToken level op k) (hright : Expr.Written (level + 1) right ts) :
    FurtherOperands level (others ++ [(op, right)]) (us ++ k :: ts) := by
  induction h with
  | nil => simpa using cons hop hright nil
  | cons hop' hright' _ ih => simpa [List.append_assoc] using cons hop' hright' ih

end FurtherOperands

namespace Expr

/-- A row of one operand is that operand. -/
@[simp] theorem joinAll_nil (first : Expr) : joinAll first [] = first := rfl

/-- The first two operands are joined first. -/
@[simp] theorem joinAll_cons (first right : Expr) (op : BinaryOp)
    (others : List (BinaryOp × Expr)) :
    joinAll first ((op, right) :: others) = joinAll (joinOperands first op right) others := rfl

/-- The last operand of a row is the right one of the whole. -/
theorem eraseSpans_joinAll_snoc (first right : Expr) (op : BinaryOp)
    (others : List (BinaryOp × Expr)) :
    (joinAll first (others ++ [(op, right)])).eraseSpans =
      .binary op (joinAll first others).eraseSpans right.eraseSpans default := by
  rw [joinAll, List.foldl_append]
  rfl

/-- Rows of operands that are the same up to spans give expressions that are. -/
theorem eraseSpans_joinAll {first first' : Expr} {others others' : List (BinaryOp × Expr)}
    (hfirst : first.eraseSpans = first'.eraseSpans)
    (hothers : others.map (Prod.map id eraseSpans) = others'.map (Prod.map id eraseSpans)) :
    (joinAll first others).eraseSpans = (joinAll first' others').eraseSpans := by
  -- by induction on the row, since its first operand grows with every operator
  induction others generalizing first first' others' with
  | nil =>
    rw [List.map_nil, eq_comm, List.map_eq_nil_iff] at hothers
    rw [hothers]
    exact hfirst
  | cons other others ih =>
    cases others' with
    | nil => simp at hothers
    | cons other' others' =>
      obtain ⟨op, right⟩ := other
      obtain ⟨op', right'⟩ := other'
      simp only [List.map_cons, Prod.map, id_eq, List.cons.injEq, Prod.mk.injEq] at hothers
      obtain ⟨⟨rfl, hright⟩, hothers⟩ := hothers
      rw [joinAll_cons, joinAll_cons]
      refine ih ?_ hothers
      simp [joinOperands, eraseSpans, hfirst, hright]

/-- Without operators there is the operand. -/
@[simp] theorem prefixAll_nil (operand : Expr) : prefixAll [] operand = operand := rfl

/-- The first operator is applied last. -/
@[simp] theorem prefixAll_cons (op : UnaryOp) (span : Span) (ops : List (UnaryOp × Span))
    (operand : Expr) :
    prefixAll ((op, span) :: ops) operand =
      .unary op (prefixAll ops operand) (span.join (prefixAll ops operand).span) := rfl

/-- The same operators in front of operands equal up to spans give expressions that are. -/
theorem eraseSpans_prefixAll {ops ops' : List (UnaryOp × Span)} {operand operand' : Expr}
    (hops : ops.map Prod.fst = ops'.map Prod.fst)
    (hoperand : operand.eraseSpans = operand'.eraseSpans) :
    (prefixAll ops operand).eraseSpans = (prefixAll ops' operand').eraseSpans := by
  induction ops generalizing ops' with
  | nil =>
    rw [List.map_nil, eq_comm, List.map_eq_nil_iff] at hops
    rw [hops]
    exact hoperand
  | cons op ops ih =>
    cases ops' with
    | nil => simp at hops
    | cons op' ops' =>
      obtain ⟨op, span⟩ := op
      obtain ⟨op', span'⟩ := op'
      simp only [List.map_cons, List.cons.injEq] at hops
      obtain ⟨rfl, hops⟩ := hops
      simp [eraseSpans, ih hops]

namespace Written

/-- A row of operands is an expression of its level. -/
theorem joinAll {level : Nat} {first : Expr} {others : List (BinaryOp × Expr)}
    {ts us : List TokenKind} (hfirst : Written level first ts)
    (hothers : FurtherOperands level others us) :
    Written level (first.joinAll others) (ts ++ us) := by
  induction hothers generalizing first ts with
  | nil => simpa using hfirst
  | cons hop hright _ ih =>
    obtain ⟨hop, hlevel⟩ := hop
    have hjoin : Written level (joinOperands first _ _) _ :=
      .binary (Nat.le_of_eq hlevel.symm) hop (hlevel ▸ hfirst) (hlevel ▸ hright)
    simpa [List.append_assoc] using ih hjoin

/-- An expression of a level is a row of operands. -/
theorem exists_operands {level : Nat} (hlow : 0 < level) (hhigh : level < 7) {e : Expr}
    {ts : List TokenKind} (h : Written level e ts) :
    ∃ first others ts₀ us, Written (level + 1) first ts₀ ∧ FurtherOperands level others us ∧
      ts = ts₀ ++ us ∧ (first.joinAll others).eraseSpans = e.eraseSpans := by
  -- whatever stands at the next level is a row by itself
  have hsingle {e : Expr} {ts : List TokenKind} (he : Written (level + 1) e ts) :
      ∃ first others ts₀ us, Written (level + 1) first ts₀ ∧ FurtherOperands level others us ∧
        ts = ts₀ ++ us ∧ (first.joinAll others).eraseSpans = e.eraseSpans :=
    ⟨e, [], ts, [], he, .nil, (List.append_nil _).symm, rfl⟩
  match h with
  | .atom he => exact hsingle (.atom he)
  | .unary _ hop he => exact hsingle (.unary hhigh hop he)
  | .assign _ => exact absurd hlow (Nat.lt_irrefl 0)
  | .binary hlevel hop hl hr =>
    rcases Nat.lt_or_eq_of_le hlevel with hlt | heq
    · exact hsingle (.binary hlt hop hl hr)
    · obtain ⟨first, others, ts₀, us, hfirst, hothers, rfl, hshape⟩ :=
        exists_operands hlow hhigh (heq ▸ hl)
      -- the right operand is the last one of the row
      refine ⟨first, others ++ [(_, _)], ts₀, _, hfirst,
        hothers.snoc ⟨hop, heq.symm⟩ (heq ▸ hr), by rw [List.append_assoc], ?_⟩
      rw [eraseSpans_joinAll_snoc, hshape, eraseSpans]

/-- Prefix operators in front of an operand. -/
theorem prefixAll {ops : List (UnaryOp × Span)} {operand : Expr} {ts us : List TokenKind}
    (hops : ts.map UnaryOp.ofKind? = ops.map fun op => some op.1)
    (hoperand : Written 7 operand us) : Written 7 (operand.prefixAll ops) (ts ++ us) := by
  induction ops generalizing ts with
  | nil =>
    rw [List.map_nil, List.map_eq_nil_iff] at hops
    rw [hops]
    exact hoperand
  | cons op ops ih =>
    cases ts with
    | nil => simp at hops
    | cons k ts =>
      simp only [List.map_cons, List.cons.injEq] at hops
      exact .unary (Nat.le_refl _) hops.1 (ih hops.2)

/-- An expression without operators between operands is an atom behind prefix operators. -/
theorem exists_prefix {e : Expr} {ts : List TokenKind} (h : Written 7 e ts) :
    ∃ ops operand ts₀ us, AtomWritten operand us ∧
      ts₀.map UnaryOp.ofKind? = ops.map (fun op => some op.1) ∧ ts = ts₀ ++ us ∧
        (operand.prefixAll ops).eraseSpans = e.eraseSpans := by
  match h with
  | .atom he => exact ⟨[], e, [], ts, he, rfl, rfl, rfl⟩
  | @unary _ op _ _ _ _ _ hop he =>
    obtain ⟨ops, operand, ts₀, us, hoperand, hops, rfl, hshape⟩ := exists_prefix he
    refine ⟨(op, default) :: ops, operand, _ :: ts₀, us, hoperand, ?_, rfl, ?_⟩
    · rw [List.map_cons, List.map_cons, hop, hops]
    · rw [prefixAll_cons, eraseSpans, eraseSpans, hshape]
  | @binary _ op _ _ _ _ _ _ hlevel _ _ _ => exact absurd hlevel (by cases op <;> decide)

end Written

end Expr

namespace Grammar

open CrudLang.Parser

/-- The parser for a token of an operator. -/
def operatorBy (t : TokenKind × BinaryOp) : Parser BinaryOp := do
  token t.1
  pure t.2

/-- A choice between all the operators of a precedence. -/
def ChoosesOperators (level : Nat) (operator : Parser BinaryOp) : Prop :=
  ∃ first others, operator = choice first others ∧
    first :: others = (BinaryOp.tokens level).map operatorBy

/-- Products, which bind tightest. -/
theorem choosesOperators_product : ChoosesOperators 6 productOperator :=
  ⟨_, _, rfl, rfl⟩

/-- Sums. -/
theorem choosesOperators_sum : ChoosesOperators 5 sumOperator :=
  ⟨_, _, rfl, rfl⟩

/-- Comparisons of size. -/
theorem choosesOperators_comparison : ChoosesOperators 4 comparisonOperator :=
  ⟨_, _, rfl, rfl⟩

/-- Comparisons for equality. -/
theorem choosesOperators_equality : ChoosesOperators 3 equalityOperator :=
  ⟨_, _, rfl, rfl⟩

/-- Conjunctions, with a sign or a word. -/
theorem choosesOperators_and : ChoosesOperators 2 andOperator :=
  ⟨_, _, rfl, rfl⟩

/-- Disjunctions, with a sign or a word. -/
theorem choosesOperators_or : ChoosesOperators 1 orOperator :=
  ⟨_, _, rfl, rfl⟩

end Grammar

end CrudLang
