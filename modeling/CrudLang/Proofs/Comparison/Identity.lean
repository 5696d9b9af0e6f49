import CrudLang.Proofs.Comparison.Alignment

/-!
# What was pending before

One input may be read with different failures pending. Where they are behind the present place, they
make no difference to what is read and reported from there on (`Alignment.statements_eq_of_states`).

A failure that is pending right at the first token of a statement could be joined to one that is
reported there. But if that token is a keyword that opens a statement, then the statement fails
further on (`Alignment.failsLost_bareStatement`), so once more the pending failure makes no
difference: `Alignment.replies_statement_of_keyword`.
-/

namespace CrudLang

open Grammar CrudLang.Parser

namespace Alignment

/-- One input and itself; a reader is lost where fewer than `limit` tokens are left. -/
def identity (limit : Nat) : Alignment .equal where
  Inputs a b := a = b
  Refused _ := False
  limit := limit
  lt_iff := by
    rintro a _ a' _ rfl rfl
    rfl
  head_cases := by
    rintro a _ rfl
    cases ha : a.tokens with
    | nil => exact .inr ⟨by simp [Input.AtRefused, ha], by simp [Input.AtRefused, ha]⟩
    | cons t ts => exact .inl ⟨t, t, .ofList ts, .ofList ts, rfl, rfl, rfl, .inl rfl⟩
  span_run := by
    rintro a _ a' _ rfl rfl _
    rfl

variable {limit : Nat}

/-- In the identity alignment failures correspond only to themselves. -/
theorem eq_of_failures {f g : Failure} (h : (identity limit).Failures f g) : f = g := by
  obtain ⟨rest, expected⟩ := f
  obtain ⟨rest', expected'⟩ := g
  obtain ⟨hrest, rfl⟩ := h
  obtain rfl : rest = rest' := hrest
  rfl

/-- A failure corresponds to itself. -/
theorem Failures.refl (f : Failure) : (identity limit).Failures f f :=
  ⟨rfl, rfl⟩

/-- A pending failure corresponds to itself. -/
theorem Pendings.refl (a : Input) (p : Option Failure) : (identity limit).Pendings a a p p := by
  cases p with
  | none => exact .of_none
  | some f => exact .of_failures (.refl f)

/-- A state corresponds to itself. -/
theorem States.refl (s : State) : (identity limit).States s s where
  rest := rfl
  pending := .refl _ _
  reported := List.forall₂_same.2 fun f _ => .refl f

/-- Lists of failures that correspond one by one are equal. -/
theorem eq_of_forall₂_failures {fs gs : List Failure}
    (h : List.Forall₂ (identity limit).Failures fs gs) : fs = gs := by
  induction h with
  | nil => rfl
  | cons hfg _ ih => rw [eq_of_failures hfg, ih]

/-- Where no reader is ever lost, the whole grammar is in step with itself, recovery included. -/
theorem identity_recovery : Recovery .equal (fun _ => False) (identity 0).InStep :=
  (identity 0).recovery rfl rfl

/-- A parser that stays in step with itself gives equal replies but for what is pending. -/
theorem InStep.replies {α : Type} {V : α → α → Prop} {p : Parser α}
    (h : ∀ n, (identity 0).InStep n V p p) {s t : State} (hst : (identity 0).States s t) :
    (identity 0).Replies s.rest V (p s) (p t) :=
  (h (s.rest.size + 1)).step s t hst (Nat.lt_succ_self _)

/-- What is pending behind the present place makes no difference to the statements that are read. -/
theorem statements_eq_of_states {s t : State} (hst : (identity 0).States s t) :
    ∃ stmts u w, statements statement s = .ok stmts u ∧ statements statement t = .ok stmts w ∧
      u.rest = w.rest ∧ u.reported = w.reported := by
  obtain ⟨stmts, stmts', u, w, hu, hw, hstmts, huw⟩ :=
    exists_statements_eq_ok_of_states identity_recovery rfl hst
  obtain rfl := eq_of_forall₂ hstmts
  exact ⟨stmts, u, w, hu, hw, huw.rest, eq_of_forall₂_failures huw.reported⟩

section Keywords

/-- From this place the reader fails only where it is lost. -/
def FailsLost (limit : Nat) (a : Input) {α : Type} (p : Parser α) : Prop :=
  ∀ s f, s.rest = a → p s = .fail f → f.rest.size < limit

/-- A lost reader remains lost. -/
def Sticks (limit : Nat) {α : Type} (p : Parser α) : Prop :=
  ∀ s, (identity limit).Beyond s → (identity limit).Lost (p s)

variable {α β : Type} {a : Input} {p q : Parser α}

namespace Sticks

/-- A lost reader remains lost if it is in step with itself from every place. -/
theorem of_inStep {V : α → α → Prop} (h : ∀ n, (identity limit).InStep n V p p) :
    Sticks limit p :=
  fun s hs => (h (s.rest.size + 1)).stick s hs (Nat.lt_succ_self _)

/-- If a reader that is lost fails, then too few tokens are left at the failure. -/
theorem size_lt (h : Sticks limit p) {s : State} {f : Failure} (hs : (identity limit).Beyond s)
    (hf : p s = .fail f) : f.rest.size < limit := by
  have hlost := h s hs
  rw [hf] at hlost
  exact hlost

/-- After a failure of the first alternative, the second one starts with that failure pending, so it
is lost too. -/
theorem orElse (hp : Sticks limit p) (hq : Sticks limit q) : Sticks limit (orElse p q) := by
  intro s hs
  have hlost := hp s hs
  unfold Parser.orElse
  cases hv : p s with
  | ok v t =>
    rw [hv] at hlost
    exact hlost
  | fail f =>
    rw [hv] at hlost
    exact hq _ (.of_pending hlost _ _)

/-- In a choice all of whose alternatives remain lost, a lost reader remains lost. -/
theorem choice {rest : List (Parser α)} (h : ∀ q ∈ p :: rest, Sticks limit q) :
    Sticks limit (choice p rest) :=
  choice_of_forall orElse h

end Sticks

namespace FailsLost

/-- A label changes what is expected, not where the reader is lost. -/
theorem labelled {c : Construct} (h : FailsLost limit a p) : FailsLost limit a (labelled c p) := by
  intro s f hs hf
  obtain ⟨g, hg, rfl⟩ := of_labelled_eq_fail hf
  refine Nat.lt_of_le_of_lt (Failure.size_join_le _ _) ?_
  rw [Failure.rest_summarize]
  exact h { s with pending := none } g hs hg

/-- The span does not matter to failures. -/
theorem withSpan {p : Parser (Span → α)} (h : FailsLost limit a p) :
    FailsLost limit a (withSpan p) :=
  fun s f hs hf => h s f hs (of_withSpan_eq_fail hf)

/-- Behind a token that is read, a reader fails only where it is lost if there are too few
tokens. -/
theorem satisfy_bind {read? : TokenKind → Option α} {e : Expectation} {f : α → Parser β}
    {token : Token} {ts : List Token} {v : α} (ha : a.tokens = token :: ts)
    (hlimit : ts.length < limit) (hread : read? token.kind = some v) (hf : Sticks limit (f v)) :
    FailsLost limit a (satisfy read? e >>= f) := by
  rintro s g rfl hg
  rw [bind_apply, satisfy_apply_cons read? e (a := .ofList ts) ha, hread] at hg
  exact hf.size_lt (.inl (by rwa [Input.size_ofList])) hg

/-- The same behind a keyword that is there. -/
theorem keyword_bind {k : Keyword} {f : Unit → Parser β} {token : Token} {ts : List Token}
    (ha : a.tokens = token :: ts) (hlimit : ts.length < limit) (hkind : token.kind = .keyword k)
    (hf : Sticks limit (f ())) : FailsLost limit a (keyword k >>= f) := by
  unfold keyword Parser.token
  exact satisfy_bind ha hlimit (if_pos hkind) hf

/-- A choice fails only where it is lost if that is true of one alternative and all remain lost. -/
theorem choice {rest : List (Parser α)} (hstick : ∀ q ∈ p :: rest, Sticks limit q)
    (hone : ∃ q ∈ p :: rest, FailsLost limit a q) : FailsLost limit a (choice p rest) := by
  intro s f hs hf
  induction rest generalizing p s with
  | nil =>
    obtain ⟨q, hq, hlose⟩ := hone
    rw [List.mem_singleton.1 hq] at hlose
    exact hlose s f hs hf
  | cons next rest ih =>
    obtain ⟨g, hg, hrest⟩ := of_orElse_eq_fail hf
    have hstick' : ∀ q ∈ next :: rest, Sticks limit q := fun q hq =>
      hstick q (List.mem_cons_of_mem p hq)
    -- either this alternative gets lost and the later ones remain lost, or a later one gets lost
    obtain ⟨q, hq, hlose⟩ := hone
    rcases List.mem_cons.1 hq with rfl | hq
    · exact (Sticks.choice hstick').size_lt (.of_pending (hlose s g hs hg) _ _) hrest
    · exact ih hstick' ⟨q, hq, hlose⟩ { s with pending := some g } hs hrest

end FailsLost

/-- Where readers count as lost does not matter to what is alike. -/
theorem States.identity {limit' : Nat} {s t : State} (h : (identity limit).States s t) :
    (Alignment.identity limit').States s t := by
  refine ⟨h.rest, h.pending.imp_left ?_, h.reported.imp fun f g hfg => ⟨hfg.rest, hfg.expected⟩⟩
  rintro ⟨f, g, hf, hg, hfg⟩
  exact ⟨f, g, hf, hg, hfg.rest, hfg.expected⟩

/-- Where no reader is ever lost, replies that correspond do so whatever counts as lost. -/
theorem Replies.of_identity {V : α → α → Prop} {x y : Reply α} (h : (identity 0).Replies a V x y) :
    (identity limit).Replies a V x y := by
  cases h with
  | ok hv hst hsize => exact .ok hv hst.identity hsize
  | fail hfg hsize => exact .fail ⟨hfg.rest, hfg.expected⟩ hsize
  | lost h => exact absurd h (not_lost rfl _)

/-- Blocks are read in step even where a reader counts as lost. -/
theorem inStep_strictBlock_identity (limit n : Nat) : (identity limit).InStep n Likeness.equal.body
    (strictBlock statement) (strictBlock statement) := by
  have hblock (n : Nat) := identity_recovery.blockSimulation.strictBlock
    (identity_recovery.blockSimulation.statement n)
  refine ⟨fun s t hst hs => ?_, fun s v u hs hv => ?_, fun s hbeyond hs => ?_⟩
  · exact Replies.of_identity ((hblock n).step s t hst.identity (Nat.lt_succ_of_lt hs))
  · exact (hblock n).yields s v u (Nat.lt_succ_of_lt hs) hv
  · rcases hbeyond with hlimit | ⟨f, hf, hlimit⟩
    · -- reading does not go back
      have hreply := (hblock n).step s s (.refl s) (Nat.lt_succ_of_lt hs)
      generalize strictBlock statement s = x at hreply
      cases hreply with
      | ok _ _ hsize => exact .inl (Nat.lt_of_le_of_lt hsize hlimit)
      | fail _ hsize => exact Nat.lt_of_le_of_lt hsize hlimit
      | lost h => exact absurd h (not_lost rfl _)
    · exact lost_labelled_of_pending hf hlimit

/-- Whatever counts as lost, pairs of braces are in step with themselves. -/
theorem identity_braceSimulation (limit : Nat) :
    BraceSimulation .equal (fun _ => False) (identity limit).InStep :=
  have S := (identity limit).simulation.expressionSimulation fun _ h => h.elim
  S.braceSimulation fun _ h => h.elim

section Forms

variable {token : Token} {ts : List Token} (ha : a.tokens = token :: ts)
variable (hlimit : ts.length < limit)
include ha hlimit

/-- Behind the keyword of a statement on stored data, its reader fails only where it is lost. -/
theorem failsLost_crudStatement (op : CrudOp) (hkind : token.kind = .keyword op.keyword) :
    FailsLost limit a crudStatement := by
  have S := identity_braceSimulation limit
  have hbehind : Sticks limit (behindCrud op) :=
    .of_inStep fun n => S.behindCrud (n := n) op
  have hcrud : FailsLost limit a (crudOperator >>= behindCrud) := by
    unfold crudOperator select
    refine .satisfy_bind ha hlimit ?_ hbehind
    rw [hkind]
    cases op <;> rfl
  exact hcrud.labelled

/-- Every form of statements that begins with a keyword fails behind the keyword. -/
theorem exists_form_failsLost {k : Keyword} (hkind : token.kind = .keyword k)
    (hk : k ∈ statementKeywords) (hif : k ≠ .if) :
    ∃ form : Form, FailsLost limit a (form.parser (strictBlock statement)) := by
  have S := identity_braceSimulation limit
  have hb := inStep_strictBlock_identity limit
  simp only [statementKeywords, List.mem_cons, List.not_mem_nil, or_false] at hk
  -- one form for each keyword, except that the four operators share one
  rcases hk with rfl | rfl | rfl | rfl | rfl | rfl | rfl | rfl | rfl | rfl | rfl | rfl
  · exact ⟨.var, .keyword_bind ha hlimit hkind (.of_inStep fun n => S.behindVar)⟩
  · exact ⟨.const, .keyword_bind ha hlimit hkind (.of_inStep fun n => S.behindConst)⟩
  · exact ⟨.func, .labelled (.keyword_bind ha hlimit hkind
      (.of_inStep fun n => S.behindFunc (hb n)))⟩
  · exact ⟨.class, .labelled (.keyword_bind ha hlimit hkind
      (.of_inStep fun n => S.behindClass (hb n)))⟩
  · exact absurd rfl hif
  · exact ⟨.loop, .keyword_bind ha hlimit hkind (.of_inStep fun n => S.behindLoop (hb n))⟩
  · exact ⟨.while, .keyword_bind ha hlimit hkind
      (.of_inStep fun n => S.behindWhile (hb n))⟩
  · exact ⟨.return, .keyword_bind ha hlimit hkind
      (.of_inStep fun n => S.behindReturn)⟩
  · exact ⟨.crud, failsLost_crudStatement ha hlimit .create hkind⟩
  · exact ⟨.crud, failsLost_crudStatement ha hlimit .read hkind⟩
  · exact ⟨.crud, failsLost_crudStatement ha hlimit .update hkind⟩
  · exact ⟨.crud, failsLost_crudStatement ha hlimit .delete hkind⟩

/-- Behind `if`, the reader of a conditional fails only where it is lost. -/
theorem failsLost_conditional (hkind : token.kind = .keyword .if) :
    FailsLost limit a (conditional (strictBlock statement)) := by
  have hspells := spells_strictBlock spells_statement
  rw [conditional_eq_behindIf fun _ => .of_spells hspells]
  exact .withSpan (.keyword_bind ha hlimit hkind
    (.of_inStep fun n =>
      (identity_braceSimulation limit).behindIf (inStep_strictBlock_identity limit n)))

/-- Where a statement begins with a keyword, it fails behind the keyword. -/
theorem failsLost_bareStatement {k : Keyword} (hkind : token.kind = .keyword k)
    (hk : k ∈ statementKeywords) :
    FailsLost limit a (bareStatement (strictBlock statement)) := by
  have S := identity_braceSimulation limit
  have hb := inStep_strictBlock_identity limit
  have hforms (q : Parser (Span → Stmt)) (hq : q ∈ forms (strictBlock statement)) :
      ∀ n, (identity limit).InStep n (Likeness.equal.built Likeness.equal.stmt) q q := by
    obtain ⟨form, rfl⟩ := Form.exists_of_mem hq
    exact fun n => S.form (hb n) form
  refine .choice (List.forall_mem_cons.2 ⟨?_, List.forall_mem_singleton.2 ?_⟩) ?_
  · exact .of_inStep fun n => S.conditional (hb n)
  · exact .of_inStep fun n => S.unconditional (hb n)
  -- the keyword decides which alternative gets past it
  by_cases hif : k = .if
  · subst hif
    exact ⟨_, List.mem_cons_self, failsLost_conditional ha hlimit hkind⟩
  · obtain ⟨form, hform⟩ := exists_form_failsLost ha hlimit hkind hk hif
    refine ⟨_, List.mem_cons_of_mem _ (List.mem_singleton_self _), .withSpan (.choice
      (fun q hq => .of_inStep (hforms q hq)) ⟨_, form.mem_forms, hform⟩)⟩

end Forms

/-- Behind a construct that has taken a token, it makes no difference what was pending before. -/
theorem pendings_behind {b : Input} {pending : Option Failure}
    (hpending : ∀ f, pending = some f → a.size ≤ f.rest.size) (hless : b.size < a.size)
    (c : Construct) (inside : Option Failure) :
    (identity 0).Pendings b b (pendingBehind pending a c inside)
      (pendingBehind none a c inside) := by
  have hbefore : PendingBefore b.tokens pending := fun f hf => by
    rw [b.size_eq]
    exact Nat.lt_of_lt_of_le hless (hpending f hf)
  by_cases hinside : PendingBefore b.tokens inside
  · exact .inr ⟨hbefore.behind hinside, PendingBefore.none.behind hinside⟩
  · -- a failure where reading goes on supersedes what was pending before
    cases inside with
    | none => exact absurd .none hinside
    | some f =>
      have hf : f.rest.size ≤ b.size := Nat.le_of_not_lt fun hlt => hinside (.of_lt hlt)
      rw [pendingBehind, pendingBehind,
        Failure.join_of_before hbefore (by rwa [Failure.rest_summarize])]
      exact .refl _ _

/-- At a keyword it makes no difference what was pending, if that was not further on. -/
theorem replies_statement_of_keyword {token : Token} {ts : List Token} {k : Keyword}
    (ha : a.tokens = token :: ts) (hkind : token.kind = .keyword k) (hk : k ∈ statementKeywords)
    {pending : Option Failure} (hpending : ∀ f, pending = some f → a.size ≤ f.rest.size)
    (reported : List Failure) :
    (identity 0).Replies a Eq (statement ⟨a, pending, reported⟩)
      (statement ⟨a, none, reported⟩) := by
  cases hv : terminated (bareStatement (strictBlock statement)) ⟨a, none, reported⟩ with
  | ok v u =>
    have hok (pending : Option Failure) : statement ⟨a, pending, reported⟩ =
        .ok v { u with pending := pendingBehind pending a .statement u.pending } := by
      rw [statement_eq_terminated, recoverWith, labelled_eq_ok hv]
    have hless : u.rest.size < a.size := consumes_statement _ _ _ (hok none)
    rw [hok, hok]
    exact .ok rfl ⟨rfl, pendings_behind hpending hless _ _, (States.refl u).reported⟩
      (Nat.le_of_lt hless)
  | fail f =>
    have hlimit : ts.length < a.size := by
      rw [← a.size_eq, ha]
      exact Nat.lt_succ_self _
    have hf : f.rest.size < a.size :=
      failsLost_bareStatement ha hlimit hkind hk _ _ rfl (of_terminated_eq_fail hv)
    -- the failure is further on than what was pending
    have hbefore : PendingBefore f.rest.tokens pending := fun g hg => by
      rw [f.rest.size_eq]
      exact Nat.lt_of_lt_of_le hf (hpending g hg)
    have heq : statement ⟨a, pending, reported⟩ = statement ⟨a, none, reported⟩ := by
      rw [statement_eq_terminated, recoverWith, recoverWith, labelled, labelled, hv]
      dsimp only
      rw [Failure.summarize, if_neg (Nat.ne_of_lt hf),
        Failure.join_of_before hbefore (Nat.le_refl _)]
      rfl
    rw [heq]
    exact InStep.replies identity_recovery.blockSimulation.statement (.refl ⟨a, none, reported⟩)

end Keywords

end Alignment

end CrudLang
