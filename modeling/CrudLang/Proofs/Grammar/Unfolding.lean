import CrudLang.Proofs.Grammar.Congruence
import CrudLang.Proofs.Grammar.Skipping

/-!
# The recursion equations of the grammar

`Parser.fix` lets a recursive definition call itself only where some input has been read. Every
recursive call of the grammar stands behind a token, so this makes no difference: the parsers for
expressions, conditionals and statements satisfy their defining equations as they stand,
`expression_eq`, `conditional_eq` and `statementBy_eq`. A solution of such an equation is unique
(`eq_fix_of_eq`).

`AgreeBelow n` relates parsers that do the same on inputs shorter than `n`; it is preserved by the
grammar, and behind a token it gains one.
-/

namespace CrudLang.Grammar

open CrudLang.Parser

/-- On inputs shorter than `n`, two parsers do the same and leave no more input than they found. -/
def AgreeBelow (n : Nat) {α : Type} (p q : Parser α) : Prop :=
  ∀ s : State, s.rest.size < n →
    p s = q s ∧ ∀ v t, p s = .ok v t → t.rest.size ≤ s.rest.size

namespace AgreeBelow

variable {α β : Type} {m n : Nat} {p q : Parser α}

/-- Parsers that agree on longer inputs agree on shorter ones. -/
theorem mono (hmn : m ≤ n) (h : AgreeBelow n p q) : AgreeBelow m p q :=
  fun s hs => h s (Nat.lt_of_lt_of_le hs hmn)

/-- A parser that only moves forward agrees with itself. -/
theorem of_spells {P : α → List TokenKind → List TokenKind → Nat → Prop} (hp : Spells p P) :
    AgreeBelow n p p :=
  fun _ _ => ⟨rfl, fun _ _ hv => Ensures.size_le hp hv⟩

/-- A value leaves the input as it is. -/
theorem pure (a : α) : AgreeBelow n (Pure.pure a : Parser α) (Pure.pure a) :=
  of_spells (Spells.pure_silently (P := fun _ _ => True) trivial)

/-- The parser for a token agrees with itself. -/
theorem satisfy {read? : TokenKind → Option α} {e : Expectation} :
    AgreeBelow n (Parser.satisfy read? e) (Parser.satisfy read? e) :=
  of_spells Spells.satisfy

/-- What follows is read from no more input than there was. -/
theorem bind {f g : α → Parser β} (h : AgreeBelow n p q) (hf : ∀ a, AgreeBelow n (f a) (g a)) :
    AgreeBelow n (p >>= f) (q >>= g) := by
  intro s hs
  obtain ⟨heq, hle⟩ := h s hs
  rw [bind_apply, bind_apply, ← heq]
  cases hv : p s with
  | fail f => simp
  | ok a t =>
    have ht := hle a t hv
    obtain ⟨heq', hle'⟩ := hf a t (by omega)
    exact ⟨heq', fun b u hu => Nat.le_trans (hle' b u hu) ht⟩

/-- Behind a token there is less input. -/
theorem read {read? : TokenKind → Option α} {e : Expectation} {f g : α → Parser β}
    (hf : ∀ a, AgreeBelow n (f a) (g a)) :
    AgreeBelow (n + 1) (Parser.satisfy read? e >>= f) (Parser.satisfy read? e >>= g) := by
  intro s hs
  rw [bind_apply, bind_apply]
  cases hv : Parser.satisfy read? e s with
  | fail f => simp
  | ok a t =>
    -- the rest of the input is shorter by one token
    obtain ⟨token, htokens, -⟩ := of_satisfy_eq_ok hv
    have ht : s.rest.size = t.rest.size + 1 := by
      rw [← s.rest.size_eq, ← t.rest.size_eq, htokens, List.length_cons]
    obtain ⟨heq, hle⟩ := hf a t (by omega)
    refine ⟨heq, fun b u hu => ?_⟩
    have := hle b u hu
    omega

/-- The second alternatives are tried from the same place, so they need to agree only there. -/
theorem orElse {p' q' : Parser α} (h : AgreeBelow n p q) (h' : AgreeBelow n p' q') :
    AgreeBelow n (Parser.orElse p p') (Parser.orElse q q') := by
  intro s hs
  obtain ⟨heq, hle⟩ := h s hs
  unfold Parser.orElse
  rw [← heq]
  cases hv : p s with
  | ok a t => exact ⟨rfl, fun b u hu => by
      obtain ⟨rfl, rfl⟩ := Reply.ok.inj hu
      exact hle a t hv⟩
  | fail f => exact h' { s with pending := some f } hs

/-- The spans are the same, since the same input is left. -/
theorem withSpan {p q : Parser (Span → α)} (h : AgreeBelow n p q) :
    AgreeBelow n (Parser.withSpan p) (Parser.withSpan q) := by
  intro s hs
  obtain ⟨heq, hle⟩ := h s hs
  unfold Parser.withSpan
  rw [← heq]
  cases hv : p s with
  | fail f => simp
  | ok build t => exact ⟨rfl, fun b u hu => by
      obtain ⟨-, rfl⟩ := Reply.ok.inj hu
      exact hle build t hv⟩

/-- A label changes the two failures in the same way. -/
theorem labelled {c : Construct} (h : AgreeBelow n p q) :
    AgreeBelow n (Parser.labelled c p) (Parser.labelled c q) := by
  intro s hs
  obtain ⟨heq, hle⟩ := h { s with pending := none } hs
  unfold Parser.labelled
  rw [← heq]
  cases hv : p { s with pending := none } with
  | fail f => simp
  | ok a t =>
    refine ⟨rfl, fun b u hu => ?_⟩
    dsimp only at hu
    split at hu <;> obtain ⟨-, rfl⟩ := Reply.ok.inj hu <;> exact hle a t hv

/-- Where two parsers fail alike, the same is skipped. -/
theorem recoverWith {r : Parser α} (h : AgreeBelow n p q) (hr : AgreeBelow n r r) :
    AgreeBelow n (Parser.recoverWith p r) (Parser.recoverWith q r) := by
  intro s hs
  obtain ⟨heq, hle⟩ := h s hs
  unfold Parser.recoverWith
  rw [← heq]
  cases hv : p s with
  | ok a t => exact ⟨rfl, fun b u hu => by
      obtain ⟨-, rfl⟩ := Reply.ok.inj hu
      exact hle a t hv⟩
  | fail f =>
    dsimp only
    -- both go on with the same handler from the same place
    cases hw : r { s with pending := none } with
    | fail f => simp
    | ok a t => exact ⟨rfl, fun b u hu => by
        obtain ⟨-, rfl⟩ := Reply.ok.inj hu
        exact (hr { s with pending := none } hs).2 a t hw⟩

/-- Recursive definitions agree below `n` if one round does, given that the recursive calls do. -/
theorem fix {body body' : Parser α → Parser α}
    (hbody : ∀ p q, AgreeBelow n p q → AgreeBelow n (body p) (body' q)) :
    AgreeBelow n (fix body) (fix body') := by
  -- both definitions are allowed the same number of calls
  have hdepth (depth : Nat) : AgreeBelow n (fixUpTo body depth) (fixUpTo body' depth) := by
    induction depth with
    | zero => intro s _; simp [fixUpTo]
    | succ depth ih =>
      intro s hs
      refine hbody _ _ (fun t ht => ?_) s hs
      split
      · exact ih t ht
      · simp
  exact fun s hs => hdepth _ s hs

end AgreeBelow

/-- The grammar outside of its recursive calls preserves agreement. -/
theorem congruence_agreeBelow (n : Nat) : Congruence (AgreeBelow n) where
  pure := .pure
  bind := .bind
  satisfy _ := .satisfy
  orElse := .orElse
  withSpan := .withSpan
  labelled := .labelled
  fix := .fix

/-- The recursive calls of expressions stand behind a token, so they need to agree only on shorter
inputs. -/
theorem guarded_agreeBelow (n : Nat) : Guarded (AgreeBelow n) (AgreeBelow (n + 1)) where
  inner := congruence_agreeBelow n
  outer := congruence_agreeBelow (n + 1)
  weaken h := h.mono (Nat.le_succ n)
  read _ h := .read h

/-- So do those of statements, which stand behind an opening brace. -/
theorem blockGuarded_agreeBelow (n : Nat) :
    BlockGuarded (AgreeBelow n) (AgreeBelow (n + 1)) where
  toGuarded := guarded_agreeBelow n
  braces h := by
    unfold between punctuator token
    refine .read fun _ => ?_
    refine h.bind fun _ => ?_
    refine AgreeBelow.satisfy.bind fun _ => ?_
    exact .pure _
  statementError h := h.recoverWith (.of_spells spells_statementError)

/-- A definition whose recursive calls stand behind a token. -/
def IsGuarded {α : Type} (body : Parser α → Parser α) : Prop :=
  ∀ n p q, AgreeBelow n p q → AgreeBelow (n + 1) (body p) (body q)

section Unfolding

variable {α : Type} {body : Parser α → Parser α}

/-- A parser with a guarded definition moves forward. -/
theorem agreeBelow_fix (hbody : IsGuarded body) (n : Nat) :
    AgreeBelow n (fix body) (fix body) := by
  induction n with
  | zero => exact fun s hs => absurd hs (Nat.not_lt_zero _)
  | succ n ih =>
    intro s hs
    refine ⟨rfl, fun v t hv => ?_⟩
    -- the calls are limited to shorter inputs, where they agree by the induction
    rw [fix_apply] at hv
    refine (hbody s.rest.size _ (fix body) (fun u hu => ?_) s (Nat.lt_succ_self _)).2 v t hv
    rw [if_pos hu]
    exact ⟨rfl, (ih u (by omega)).2⟩

/-- A guarded definition holds of the parser that it defines. -/
theorem fix_eq (hbody : IsGuarded body) : fix body = body (fix body) := by
  funext s
  rw [fix_apply]
  -- on shorter inputs the limited call is the call itself
  refine (hbody s.rest.size _ (fix body) (fun t ht => ?_) s (Nat.lt_succ_self _)).1
  rw [if_pos ht]
  exact ⟨rfl, (agreeBelow_fix hbody _ t ht).2⟩

/-- A guarded definition holds of no other parser. -/
theorem eq_fix_of_eq (hbody : IsGuarded body) {p : Parser α} (hp : p = body p) :
    p = fix body := by
  -- each round of the definition makes the two parsers agree on inputs longer by one
  have hagree (n : Nat) : AgreeBelow n (fix body) p := by
    induction n with
    | zero => exact fun s hs => absurd hs (Nat.not_lt_zero _)
    | succ n ih =>
      rw [fix_eq hbody, hp]
      exact hbody n _ _ ih
  funext s
  exact ((hagree _ s (Nat.lt_succ_self _)).1).symm

end Unfolding

/-- Expressions inside expressions stand behind a token. -/
theorem isGuarded_expressionStep : IsGuarded expressionStep :=
  fun n _ _ h => (guarded_agreeBelow n).expressionStep h

/-- The equation for expressions. -/
theorem expression_eq : expression = expressionStep expression :=
  fix_eq isGuarded_expressionStep

/-- The equation for conditionals, over any parser for blocks that moves forward. -/
theorem conditional_eq {block : Parser (Block Stmt)} (hblock : ∀ n, AgreeBelow n block block) :
    conditional block = conditionalStep block (conditional block) := by
  rw [conditional_eq_fix]
  exact fix_eq fun n _ _ h => (guarded_agreeBelow n).conditionalStep (hblock (n + 1)) h

/-- A block may call the statements inside it only behind its brace. -/
def IsBlockGuarded (block : Parser Stmt → Parser (Block Stmt)) : Prop :=
  ∀ n p q, AgreeBelow n p q → AgreeBelow (n + 1) (block p) (block q)

/-- Statements inside a block that recovers stand behind its opening brace. -/
theorem isBlockGuarded_block : IsBlockGuarded block :=
  fun n _ _ h => .labelled <|
    ((blockGuarded_agreeBelow n).bracedStatements h).recoverWith (.of_spells skips_skippedBlock)

/-- Statements inside a block that does not recover stand behind its opening brace. -/
theorem isBlockGuarded_strictBlock : IsBlockGuarded strictBlock :=
  fun n _ _ h => (blockGuarded_agreeBelow n).strictBlock h

/-- Statements inside statements are inside blocks. -/
theorem isGuarded_statementStep {block : Parser Stmt → Parser (Block Stmt)}
    (hblock : IsBlockGuarded block) : IsGuarded fun stmt => statementStep (block stmt) :=
  fun n _ _ h => (blockGuarded_agreeBelow n).statementStep (hblock n _ _ h)

/-- The equation for statements. -/
theorem statementBy_eq {block : Parser Stmt → Parser (Block Stmt)}
    (hblock : IsBlockGuarded block) :
    statementBy block = statementStep (block (statementBy block)) :=
  fix_eq (isGuarded_statementStep hblock)

/-- The statement parser agrees with itself, so it only moves forward. -/
theorem agreeBelow_statementBy {block : Parser Stmt → Parser (Block Stmt)}
    (hblock : IsBlockGuarded block) (n : Nat) :
    AgreeBelow n (statementBy block) (statementBy block) :=
  agreeBelow_fix (isGuarded_statementStep hblock) n

end CrudLang.Grammar
