import CrudLang.Proofs.Comparison.Alignment

/-!
# Between braces

What stands behind a closing brace makes no difference between the braces. If the inputs of an
alignment are the same wherever a closing brace is still to come, then statements between braces are
read in step, recovery included, and so are blocks: `Alignment.enclosed_statement`,
`Alignment.inStep_strictBlock`. Braces are read in pairs here, which keeps all readers in front of
the closing one (`Alignment.Within`).
-/

namespace CrudLang

open Grammar CrudLang.Parser

/-- The token is a brace. -/
def TokenKind.IsBrace (k : TokenKind) : Prop :=
  k = .punctuator .leftBrace ∨ k = .punctuator .rightBrace

/-- The input stands between braces, of which the closing one is still to come. -/
def Input.Enclosed (a : Input) : Prop :=
  ∃ after, afterClosing 0 a.tokens = some after

namespace Input.Enclosed

variable {a : Input} {token : Token} {ts : List Token}

/-- Whether an input is enclosed depends only on where its groups close. -/
theorem of_eq {b : Input} (h : a.Enclosed)
    (heq : ∀ depth, afterClosing depth b.tokens = afterClosing depth a.tokens) : b.Enclosed := by
  obtain ⟨after, hafter⟩ := h
  exact ⟨after, (heq 0).trans hafter⟩

/-- An opening brace between braces has its closing one too. -/
theorem exists_afterClosing (h : a.Enclosed) (ha : a.tokens = token :: ts)
    (hl : token.kind = .punctuator .leftBrace) : ∃ after, afterClosing 0 ts = some after := by
  obtain ⟨after, hafter⟩ := h
  rw [ha, afterClosing_open hl] at hafter
  exact Option.ne_none_iff_exists'.1 fun hnone => by
    rw [afterClosing_eq_none hnone] at hafter
    cases hafter

end Input.Enclosed

namespace Alignment

variable {L : Likeness} (W : Alignment L)

/-- Between braces, where fewer than `n` tokens are left, the readers stay in step, and the first
one leaves the matching of braces as it was. -/
structure Within (n : Nat) {α : Type} (V : α → α → Prop) (p q : Parser α) : Prop where
  inStep : W.InStepOn (fun a => a.size < n ∧ a.Enclosed) V p q
  keeps : ∀ s v t, s.rest.size < n → s.rest.Enclosed → p s = .ok v t →
    ∀ depth, afterClosing depth t.rest.tokens = afterClosing depth s.rest.tokens

variable {W} {n : Nat} {α β : Type} {V : α → α → Prop} {V' : β → β → Prop} {p q : Parser α}

/-- A reader that keeps the depth leaves the same groups to be closed. -/
theorem keeps_of_keepsDepth (hp : KeepsDepth p) {s t : State} {v : α} (hs : p s = .ok v t)
    (depth : Nat) : afterClosing depth t.rest.tokens = afterClosing depth s.rest.tokens := by
  obtain ⟨read, -, hread, -, hdepth⟩ := hp s v t hs
  rw [hread, hdepth]

namespace Within

/-- A reader that keeps the depth needs only to be in step. -/
theorem of_keepsDepth (h : W.InStepOn (fun a => a.size < n ∧ a.Enclosed) V p q)
    (hp : KeepsDepth p) : W.Within n V p q :=
  ⟨h, fun _ _ _ _ _ hs => keeps_of_keepsDepth hp hs⟩

/-- Below zero there are no inputs. -/
theorem zero : W.Within 0 V p q :=
  ⟨InStep.zero.mono fun _ ha => ha.1, fun _ _ _ hs => absurd hs (Nat.not_lt_zero _)⟩

/-- What holds below a bound holds below a smaller one. -/
theorem weaken (h : W.Within (n + 1) V p q) : W.Within n V p q :=
  ⟨h.inStep.mono fun _ ha => ⟨Nat.lt_succ_of_lt ha.1, ha.2⟩,
    fun s v t hs => h.keeps s v t (Nat.lt_succ_of_lt hs)⟩

/-- First one thing and then another one, where there is less input. -/
theorem bind_of_size {m : Nat} {f g : α → Parser β} (h : W.Within n V p q)
    (hsize : ∀ s v t, s.rest.size < n → p s = .ok v t → t.rest.size ≤ s.rest.size →
      t.rest.size < m)
    (hfg : ∀ v w, V v w → W.Within m V' (f v) (g w)) : W.Within n V' (p >>= f) (q >>= g) where
  inStep := h.inStep.bind_on
    (fun s v t hs hv hle => ⟨hsize s v t hs.1 hv hle, hs.2.of_eq (h.keeps s v t hs.1 hs.2 hv)⟩)
    fun v w hvw => (hfg v w hvw).inStep
  keeps s u t hs henclosed hu depth := by
    obtain ⟨v, s', hv, hu⟩ := of_bind_eq_ok hu
    obtain ⟨⟨w, hvw⟩, hle⟩ := h.inStep.yields s v s' ⟨hs, henclosed⟩ hv
    have hkeeps := h.keeps s v s' hs henclosed hv
    rw [← hkeeps]
    exact (hfg v w hvw).keeps s' u t (hsize s v s' hs hv hle) (henclosed.of_eq hkeeps) hu depth

/-- One reader behind another: behind the first the input is still enclosed. -/
theorem bind {f g : α → Parser β} (h : W.Within n V p q)
    (hfg : ∀ v w, V v w → W.Within n V' (f v) (g w)) : W.Within n V' (p >>= f) (q >>= g) :=
  h.bind_of_size (fun _ _ _ hs _ hle => Nat.lt_of_le_of_lt hle hs) hfg

/-- A value is read without touching the input. -/
theorem pure {v w : α} (h : V v w) : W.Within n V (Pure.pure v) (Pure.pure w) :=
  .of_keepsDepth (.pure h) (.pure v)

/-- Two alternatives: both readers take the first one or neither does. -/
theorem orElse {p' q' : Parser α} (h : W.Within n V p q) (h' : W.Within n V p' q') :
    W.Within n V (Parser.orElse p p') (Parser.orElse q q') where
  inStep := h.inStep.orElse_on (fun _ _ hs _ => hs) h'.inStep
  keeps s v t hs henclosed hv := by
    rcases of_orElse_eq_ok hv with hv | ⟨f, -, hv⟩
    · exact h.keeps s v t hs henclosed hv
    · exact h'.keeps { s with pending := some f } v t hs henclosed hv

/-- The span of what is read. -/
theorem withSpan {p q : Parser (Span → α)} (h : W.Within n (L.built V) p q) :
    W.Within n V (Parser.withSpan p) (Parser.withSpan q) where
  inStep := h.inStep.withSpan
  keeps s v t hs henclosed hv := by
    obtain ⟨build, hbuild, -⟩ := of_withSpan_eq_ok hv
    exact h.keeps s build t hs henclosed hbuild

/-- What is read under a label. -/
theorem labelled {c : Construct} (h : W.Within n V p q) :
    W.Within n V (Parser.labelled c p) (Parser.labelled c q) where
  inStep := h.inStep.labelled
  keeps s v t hs henclosed hv := by
    obtain ⟨u, hu, rfl⟩ := of_labelled_eq_ok hv
    exact h.keeps { s with pending := none } v u hs henclosed hu

/-- A repetition of something that consumes. -/
theorem many (hconsumes : Consumes p) (h : W.Within n V p p) :
    W.Within n (List.Forall₂ V) (Parser.many p) (Parser.many p) := by
  induction n with
  | zero => exact .zero
  | succ n ih =>
    have hmany := ih h.weaken
    rw [many_eq hconsumes]
    refine .orElse (h.bind_of_size (m := n) (fun s v t hs hv _ => ?_) fun v w hvw =>
      hmany.bind fun _ _ hrest => .pure (.cons hvw hrest)) (.pure .nil)
    -- behind one round there is less input
    exact Nat.lt_of_lt_of_le (hconsumes s v t hv) (Nat.le_of_lt_succ hs)

/-- Recovery, where no reader is ever lost. -/
theorem recoverWith {r r' : Parser α} (hlimit : W.limit = 0) (h : W.Within n V p q)
    (hr : W.Within n V r r') : W.Within n V (Parser.recoverWith p r) (Parser.recoverWith q r') where
  inStep := h.inStep.recoverWith hlimit hr.inStep
  keeps s v t hs henclosed hv := by
    rcases of_recoverWith_eq_ok hv with hp | ⟨f, t', -, hr', rfl⟩
    · exact h.keeps s v t hs henclosed hp
    · exact hr.keeps { s with pending := none } v t' hs henclosed hr'

end Within

/-- The inputs are the same between braces, up to the closing ones. -/
def CommonBetweenBraces (W : Alignment L) : Prop :=
  ∀ a b, W.Inputs a b → a.Enclosed → W.Common a b

variable (hlimit : W.limit = 0) (hcommon : W.CommonBetweenBraces)

include hcommon in
/-- Between braces, tokens are read in step. -/
theorem inStepOn_satisfy {P : Input → Prop} (hP : ∀ a, P a → a.Enclosed)
    {read? : TokenKind → Option α} {e : Expectation} (hV : ∀ k v, read? k = some v → V v v) :
    W.InStepOn P V (satisfy read? e) (satisfy read? e) :=
  .satisfy_on hV fun a b ha hab => .inl (hcommon a b hab (hP a ha))

include hcommon in
/-- Where the inputs are enclosed, both go on with a common token. -/
theorem inStepOn_token {P : Input → Prop} (hP : ∀ a, P a → a.Enclosed) (kind : TokenKind) :
    W.InStepOn P (fun _ _ => True) (token kind) (token kind) := by
  unfold token
  exact inStepOn_satisfy hcommon hP fun _ _ _ => trivial

include hcommon in
/-- A token that is no brace, if the values read from it are alike. -/
theorem Within.satisfy {read? : TokenKind → Option α} {e : Expectation}
    (hread : Refuses TokenKind.IsBrace read?) (hV : ∀ k v, read? k = some v → V v v) :
    W.Within n V (Parser.satisfy read? e) (Parser.satisfy read? e) :=
  .of_keepsDepth (inStepOn_satisfy hcommon (fun _ ha => ha.2) hV)
    (.satisfy ⟨hread _ (.inl rfl), hread _ (.inr rfl)⟩)

include hcommon in
/-- A pair of braces is read in step if what is between them is, once it is between braces. -/
theorem inStepOn_between {P : Input → Prop} (h : W.Within n V p q)
    (hP : ∀ a token ts, P a → a.tokens = token :: ts → token.kind = .punctuator .leftBrace →
      a.size ≤ n ∧ ∃ after, afterClosing 0 ts = some after)
    (hopen : W.InStepOn P (fun _ _ => True) (punctuator .leftBrace) (punctuator .leftBrace)) :
    W.InStepOn P V (between .leftBrace .rightBrace p) (between .leftBrace .rightBrace q) := by
  have hclose : W.InStepOn Input.Enclosed (fun _ _ => True) (punctuator .rightBrace)
      (punctuator .rightBrace) :=
    inStepOn_token hcommon (fun _ ha => ha) _
  have hinner : W.InStepOn (fun a => a.size < n ∧ a.Enclosed) V
      (do let v ← p; punctuator .rightBrace; pure v)
      (do let v ← q; punctuator .rightBrace; pure v) := by
    refine h.inStep.bind_on (Q := Input.Enclosed) (fun s v t hs hv _ => ?_) fun v w hvw => ?_
    · exact hs.2.of_eq (h.keeps s v t hs.1 hs.2 hv)
    · exact hclose.bind_on (Q := fun _ => True) (fun _ _ _ _ _ _ => trivial) fun _ _ _ => .pure hvw
  refine hopen.bind_on (Q := fun a => a.size < n ∧ a.Enclosed) (fun s v t hs hv _ => ?_)
    fun _ _ _ => hinner
  -- the opening brace has been read
  rcases token_cases (.punctuator .leftBrace) s with heq | ⟨l, ts, htokens, hl, heq⟩
  · cases heq.symm.trans hv
  obtain ⟨-, rfl⟩ := Reply.ok.inj (heq.symm.trans hv)
  obtain ⟨hle, hafter⟩ := hP _ _ _ hs htokens hl
  have hsize := Input.size_of_tokens_eq_cons (b := .ofList ts) htokens
  exact ⟨by dsimp only; omega, hafter⟩

include hcommon in
/-- Behind an opening brace the input is enclosed too, so what stands there is read in step. -/
theorem Within.braces (h : W.Within n V p q) :
    W.Within (n + 1) V (between .leftBrace .rightBrace p) (between .leftBrace .rightBrace q) where
  inStep := inStepOn_between hcommon h
    (fun _ _ _ ha htokens hl => ⟨Nat.le_of_lt_succ ha.1, ha.2.exists_afterClosing htokens hl⟩)
    (inStepOn_token hcommon (fun _ ha => ha.2) _)
  keeps s v t hs henclosed hv depth := by
    obtain ⟨l, ts, u, r, us, htokens, hl, hu, htokens', hr, rfl⟩ := exists_of_between_eq_ok hv
    -- what is between the braces keeps the depth there
    have hkeeps := h.keeps ⟨.ofList ts, s.pending, s.reported⟩ v u (size_behind_lt hs htokens)
      (henclosed.exists_afterClosing htokens hl) hu (depth + 1)
    rw [htokens', afterClosing_close_succ hr] at hkeeps
    rw [htokens, afterClosing_open hl]
    exact hkeeps

section Skipping

/-- Between braces, fewer than `n` tokens are left, and no brace is opened here. -/
def NotOpening (n : Nat) (a : Input) : Prop :=
  a.size < n ∧ a.Enclosed ∧ ∀ token ts, a.tokens = token :: ts → token.kind ≠ .punctuator .leftBrace

include hcommon

/-- One token other than braces and some others. -/
theorem Within.noneOf {kinds : List TokenKind} (hl : .punctuator .leftBrace ∈ kinds)
    (hr : .punctuator .rightBrace ∈ kinds) :
    W.Within n (fun _ _ => True) (Parser.noneOf kinds) (Parser.noneOf kinds) := by
  refine .of_keepsDepth ?_ (.noneOf hl hr)
  unfold Parser.noneOf select
  exact inStepOn_satisfy hcommon (fun _ ha => ha.2) fun _ _ _ => trivial

/-- A part of a group: an inner group or one token that is no brace. -/
theorem Within.groupItem (h : W.Within n (fun _ _ => True) braceGroup braceGroup) :
    W.Within n (fun _ _ => True) groupItem groupItem :=
  h.orElse (.noneOf hcommon (by decide) (by decide))

/-- Groups of braces are skipped in step. -/
theorem within_braceGroup (n : Nat) : W.Within n (fun _ _ => True) braceGroup braceGroup := by
  induction n with
  | zero => exact .zero
  | succ n ih =>
    have hconsumes : Consumes Grammar.groupItem :=
      .of_spells (Skips.orElse skips_braceGroup (Skips.noneOf _)) fun _ _ _ h => h.1 rfl
    rw [braceGroup_eq]
    refine (Within.braces hcommon (.many hconsumes (.groupItem hcommon ih))).bind fun _ _ _ => ?_
    exact .pure trivial

/-- Between braces every group is closed, so no group is skipped up to the end. -/
theorem within_skipGroup (n : Nat) : W.Within n (fun _ _ => True) skipGroup skipGroup := by
  refine .of_keepsDepth ?_ keepsDepth_skipGroup
  refine (within_braceGroup hcommon n).inStep.orElse_on (Q := NotOpening n) (fun s f hs hf => ?_) ?_
  · refine ⟨hs.1, hs.2, fun token ts htokens hl => ?_⟩
    obtain ⟨after, hafter⟩ := hs.2.exists_afterClosing htokens hl
    obtain ⟨t, ht⟩ := exists_braceGroup_eq_ok htokens hl hafter
    cases hf.symm.trans ht
  · have hopen := inStepOn_token (P := NotOpening n) hcommon (fun _ ha => ha.2.1)
      (.punctuator .leftBrace)
    refine hopen.bind_on (Q := fun _ => False) (fun s v t hs hv _ => ?_) fun _ _ _ =>
      ⟨fun _ _ _ h => h.elim, fun _ _ _ h => h.elim, fun _ _ h => h.elim⟩
    rcases token_cases (.punctuator .leftBrace) s with heq | ⟨l, ts, htokens, hl, -⟩
    · cases heq.symm.trans hv
    · exact hs.2.2 l ts htokens hl

/-- The first unit of what is skipped: an inner group or one token. -/
theorem within_firstUnit (n : Nat) : W.Within n (fun _ _ => True) firstUnit firstUnit := by
  refine .of_keepsDepth ?_ keepsDepth_firstUnit
  refine (within_skipGroup hcommon n).inStep.orElse_on (Q := fun a => a.size < n ∧ a.Enclosed)
    (fun _ _ hs _ => hs) ?_
  unfold Parser.choice Parser.noneOf select
  exact inStepOn_satisfy hcommon (fun _ ha => ha.2) fun _ _ _ => trivial

/-- What cannot be read is skipped in step. -/
theorem within_statementError (n : Nat) : W.Within n L.stmt statementError statementError := by
  have hfurther : W.Within n (fun _ _ => True) furtherUnit furtherUnit :=
    (within_skipGroup hcommon n).orElse (.noneOf hcommon (by decide) (by decide))
  have hsemicolon : W.Within n (fun _ _ => True) (punctuator .semicolon) (punctuator .semicolon) :=
    .of_keepsDepth (inStepOn_token hcommon (fun _ ha => ha.2) _)
      (congruence_keepsDepth.token (by decide) (by decide))
  have hoptional : W.Within n (Option.Rel fun _ _ => True) (optional (punctuator .semicolon))
      (optional (punctuator .semicolon)) :=
    (hsemicolon.bind fun _ _ _ => .pure (.some trivial)).orElse (.pure .none)
  refine .withSpan ?_
  refine (within_firstUnit hcommon n).bind fun _ _ _ => ?_
  refine (Within.many skips_furtherUnit.consumes hfurther).bind fun _ _ _ => ?_
  refine hoptional.bind fun _ _ _ => ?_
  exact .pure fun _ _ hs => L.error hs

end Skipping

include hcommon

/-- Between braces, the combinators keep readers in step. -/
theorem simulation_within : Simulation L TokenKind.IsBrace (W.Within) where
  zero := .zero
  weaken h := h.weaken
  pure h := .pure h
  bind h hfg := h.bind hfg
  satisfy hread hV := .satisfy hcommon hread hV
  read hread hV hfg := (Within.satisfy hcommon hread hV).bind_of_size
    (fun s v t hs hv _ => Nat.lt_of_lt_of_le (Consumes.satisfy s v t hv) (Nat.le_of_lt_succ hs)) hfg
  orElse h h' := h.orElse h'
  withSpan h := h.withSpan
  labelled h := h.labelled
  many hconsumes h := .many hconsumes h

include hlimit

/-- Between braces, the whole grammar keeps readers in step. -/
theorem blockSimulation_within : BlockSimulation L TokenKind.IsBrace (W.Within) where
  toExpressionSimulation := (simulation_within hcommon).expressionSimulation fun k hk => by
    rcases hk with rfl | rfl <;> decide
  brace_or_operator hk := by rcases hk with rfl | rfl <;> decide
  braces h := h.braces hcommon
  statementError h := h.recoverWith hlimit (within_statementError hcommon _)

section Blocks

variable (hopen : ¬ W.Refused (.punctuator .leftBrace))
variable (hclosed : ∀ a b token ts, W.Inputs a b → a.tokens = token :: ts →
  token.kind = .punctuator .leftBrace → ∃ after, afterClosing 0 ts = some after)
include hopen hclosed

/-- Repetitions between braces are read in step if every opening brace has its closing one. -/
theorem inStep_between (hrefl : ∀ v, V v v) (hconsumes : Consumes p)
    (h : ∀ n, W.Within n V p p) (n : Nat) :
    W.InStep n (List.Forall₂ V) (between .leftBrace .rightBrace (many p))
      (between .leftBrace .rightBrace (many p)) := by
  have hplaces : W.InStepOn (fun a => a.size < n ∧ ∃ b, W.Inputs a b) (List.Forall₂ V)
      (between .leftBrace .rightBrace (many p)) (between .leftBrace .rightBrace (many p)) := by
    refine inStepOn_between hcommon (.many hconsumes (h n)) (fun a token ts ha htokens hl => ?_) ?_
    · obtain ⟨hsize, b, hab⟩ := ha
      exact ⟨Nat.le_of_lt hsize, hclosed a b token ts hab htokens hl⟩
    · exact (W.simulation.token (n := n) hopen).mono fun _ ha => ha.1
  have hforward : Forward (between .leftBrace .rightBrace (many p)) := by
    refine .bind (Consumes.token _).forward fun _ => ?_
    refine .bind (.many hconsumes) fun _ => ?_
    refine .bind (Consumes.token _).forward fun _ => ?_
    exact .pure _
  exact .of_places hlimit (fun vs => ⟨vs, List.forall₂_same.2 fun v _ => hrefl v⟩) hforward hplaces

variable (hrefl : ∀ stmt, L.stmt stmt stmt)
include hrefl

/-- Blocks are read in step if every opening brace has its closing one. -/
theorem inStep_strictBlock (n : Nat) :
    W.InStep n L.body (strictBlock statement) (strictBlock statement) := by
  have B := blockSimulation_within hlimit hcommon
  have hstmts := inStep_between hlimit hcommon hopen hclosed hrefl consumes_statement
    B.statement n
  refine W.simulation.labelled (W.simulation.withSpan ?_)
  exact W.simulation.bind hstmts fun _ _ hstmts => W.simulation.pure fun _ _ hs => ⟨hstmts, hs⟩

/-- The members of a class are read in step. -/
theorem inStep_members (n : Nat) : W.InStep n (List.Forall₂ L.stmt)
    (between .leftBrace .rightBrace (many (member (strictBlock statement))))
    (between .leftBrace .rightBrace (many (member (strictBlock statement)))) := by
  have B := blockSimulation_within hlimit hcommon
  exact inStep_between hlimit hcommon hopen hclosed hrefl consumes_member_strictBlock
    (fun n => B.member (B.strictBlock (B.statement n)).weaken) n

end Blocks

end Alignment

end CrudLang
