import CrudLang.Proofs.Isolation.Exchange
import CrudLang.Proofs.Isolation.Twins

/-!
# Reading in lockstep

Two readers that begin at corresponding places of `Twins` stay in step: they read the same and come
to corresponding places, or they fail at corresponding places (`Twins.InStep`). The combinators
preserve that (`Twins.congruence_inStep`), and so do the parsers for statements that skip what
they cannot read, since a group of braces is skipped as a whole. Only at the block itself different
tokens are read; where the block is taken for another one, the same for both inputs, nothing is left
of the difference (`Twins.inStep_statementWith`).
-/

namespace CrudLang

open Grammar CrudLang.Parser

namespace Twins

variable (W : Twins)

/-- The readers fail likewise, or they read the same, not before the place `a`. -/
inductive Replies (a : Input) {α : Type} : Reply α → Reply α → Prop
  | ok {v s t} : W.States s t → s.rest.size ≤ a.size → Replies a (.ok v s) (.ok v t)
  | fail {f g} : W.Failures f g → f.rest.size ≤ a.size → Replies a (.fail f) (.fail g)

/-- From corresponding places of which the first one has the property, the readers stay in step. -/
def InStepOn (P : Input → Prop) {α : Type} (p q : Parser α) : Prop :=
  ∀ s t, W.States s t → P s.rest → W.Replies s.rest (p s) (q t)

/-- The readers stay in step where fewer than `n` tokens are left in the first input. -/
def InStep (n : Nat) {α : Type} (p q : Parser α) : Prop :=
  W.InStepOn (fun a => a.size < n) p q

variable {W}

namespace Inputs

variable {a b a' b' : Input}

/-- At corresponding places the block begins in both inputs, or there is the same token and behind
it the places correspond again, or there is none. -/
theorem cases_head (h : W.Inputs a b) :
    (a = W.first.input ∧ b = W.second.input) ∨
      (∃ t a' b', a.tokens = t :: a'.tokens ∧ b.tokens = t :: b'.tokens ∧ W.Inputs a' b') ∨
        a.tokens = [] ∧ b.tokens = [] := by
  cases h with
  | @before _ ts hts ha hb =>
    -- nothing is left in front of the block, or a token that both inputs have
    cases ts with
    | nil => exact .inl ⟨Input.ext ha, Input.ext hb⟩
    | cons t ts =>
      refine .inr (.inl ⟨t, .ofList (ts ++ W.first.tokens), .ofList (ts ++ W.second.tokens), ha, hb,
        .before ((List.suffix_cons t ts).trans hts) rfl rfl⟩)
  | behind ha =>
    cases htokens : a.tokens with
    | nil => exact .inr (.inr ⟨rfl, rfl⟩)
    | cons t ts =>
      rw [htokens] at ha
      exact .inr (.inl ⟨t, .ofList ts, .ofList ts, rfl, rfl,
        .behind ((List.suffix_cons t ts).trans ha)⟩)

/-- The block begins at the same place in both inputs. -/
theorem size_eq_iff (h : W.Inputs a b) :
    a.size = W.first.input.size ↔ b.size = W.second.input.size :=
  h.eq_iff (.before List.nil_suffix rfl rfl)

/-- Where the sizes are equal, so are the places. -/
theorem eq_input (h : W.Inputs a b) (hsize : a.size = W.first.input.size) :
    a = W.first.input ∧ b = W.second.input := by
  have hlength : a.tokens.length = W.first.tokens.length := a.size_eq.trans hsize
  cases h with
  | @before _ ts _ ha hb =>
    obtain rfl : ts = [] := by
      rw [ha, List.length_append] at hlength
      exact List.length_eq_zero_iff.1 (by omega)
    exact ⟨Input.ext ha, Input.ext hb⟩
  | behind ha =>
    have hle := ha.length_le
    have hless := W.after_lt_first
    omega

/-- Equal tokens are found at corresponding places. -/
theorem head?_eq (h : W.Inputs a b) : a.tokens.head? = b.tokens.head? := by
  rcases h.cases_head with ⟨rfl, rfl⟩ | ⟨t, a', b', ha, hb, -⟩ | ⟨ha, hb⟩
  · exact congrArg some W.opening_eq
  · rw [ha, hb]
    rfl
  · rw [ha, hb]

end Inputs

/-- What is read around the block ends with the closing brace or behind it. -/
theorem getLast?_around (ts : List Token) (H : Hole) (us : List Token) :
    (ts ++ H.opening :: (H.content ++ H.closing :: us)).getLast? = (H.closing :: us).getLast? := by
  rw [← List.cons_append, ← List.append_assoc, List.getLast?_append_cons]

/-- What is read between corresponding places has the same span. -/
theorem Inputs.spanOfRun_eq {a b a' b' : Input} (h : W.Inputs a b) (h' : W.Inputs a' b')
    (hle : a'.size ≤ a.size) : spanOfRun (a.tokens.take (a.size - a'.size)) =
      spanOfRun (b.tokens.take (b.size - b'.size)) := by
  -- what is left out of the tokens is the other place
  have htake {a a' : Input} {run : List Token} (h : a.tokens = run ++ a'.tokens) :
      a.tokens.take (a.size - a'.size) = run := by
    rw [← a.size_eq, ← a'.size_eq, h, List.length_append, Nat.add_sub_cancel, List.take_left]
  cases h with
  | @before _ ts hts ha hb =>
    cases h' with
    | @before _ ts' hts' ha' hb' =>
      have hlength : ts'.length ≤ ts.length := by
        rw [← a.size_eq, ← a'.size_eq, ha, ha', List.length_append, List.length_append] at hle
        omega
      obtain ⟨run, rfl⟩ := List.suffix_of_suffix_length_le hts' hts hlength
      rw [htake (show a.tokens = run ++ a'.tokens by rw [ha, ha', List.append_assoc]),
        htake (show b.tokens = run ++ b'.tokens by rw [hb, hb', List.append_assoc])]
    | behind ha' =>
      obtain ⟨us, hus⟩ := ha'
      have hfirst : a.tokens =
          (ts ++ W.first.opening :: (W.first.content ++ W.first.closing :: us)) ++ a'.tokens := by
        rw [ha, Hole.tokens, ← hus]
        simp
      have hsecond : b.tokens =
          (ts ++ W.second.opening :: (W.second.content ++ W.second.closing :: us)) ++
            a'.tokens := by
        rw [hb, Hole.tokens, ← W.after_eq, ← hus]
        simp
      rw [htake hfirst, htake hsecond]
      refine CrudLang.spanOfRun_eq ?_ ?_
      · cases ts with
        | nil => exact congrArg some W.opening_eq
        | cons => rfl
      · rw [getLast?_around, getLast?_around, W.closing_eq]
  | behind ha =>
    cases h' with
    | before _ ha' _ =>
      have hless := W.after_lt_first
      have hlength := ha.length_le
      rw [← a.size_eq, ← a'.size_eq, ha', List.length_append] at hle
      omega
    | behind _ => rfl

theorem Replies.mono {α : Type} {a a' : Input} {x y : Reply α} (h : W.Replies a x y)
    (ha : a.size ≤ a'.size) : W.Replies a' x y := by
  cases h with
  | ok hstates hsize => exact .ok hstates (Nat.le_trans hsize ha)
  | fail hfailures hsize => exact .fail hfailures (Nat.le_trans hsize ha)

namespace InStepOn

variable {α β : Type} {P Q : Input → Prop} {p q : Parser α}

theorem mono (h : W.InStepOn P p q) (hQ : ∀ a, Q a → P a) : W.InStepOn Q p q :=
  fun s t hst hs => h s t hst (hQ _ hs)

theorem pure (v : α) : W.InStepOn P (Pure.pure v : Parser α) (Pure.pure v) :=
  fun _ _ hst _ => .ok hst (Nat.le_refl _)

/-- First one thing and then another one, where the first one leads. -/
theorem bind_on {f g : α → Parser β} (h : W.InStepOn P p q)
    (hnext : ∀ s t v s', W.States s t → P s.rest → p s = .ok v s' → s'.rest.size ≤ s.rest.size →
      Q s'.rest) (hfg : ∀ v, W.InStepOn Q (f v) (g v)) : W.InStepOn P (p >>= f) (q >>= g) := by
  intro s t hst hs
  have hreply := h s t hst hs
  rw [bind_apply, bind_apply]
  generalize hv : p s = x at hreply
  generalize q t = y at hreply
  cases hreply with
  | fail hfailures hsize => exact .fail hfailures hsize
  | @ok v s' t' hst' hsize =>
    exact (hfg v s' t' hst' (hnext s t v s' hst hs hv hsize)).mono hsize

/-- A token is read in step, unless it may be the opening brace of the block. -/
theorem satisfy_on {read? : TokenKind → Option α} {e : Expectation}
    (hread : P W.first.input → read? (.punctuator .leftBrace) = none) :
    W.InStepOn P (Parser.satisfy read? e) (Parser.satisfy read? e) := by
  intro s t hst hs
  have hfail : W.Replies s.rest (unexpected e s : Reply α) (unexpected e t) :=
    .fail (hst.pending.note hst.rest e) (Failure.size_note_le _ _ _)
  rcases hst.rest.cases_head with ⟨ha, hb⟩ | ⟨token, a', b', ha, hb, hrest⟩ | ⟨ha, hb⟩
  · -- at the block the brace is not read
    have hnone := hread (ha ▸ hs)
    rw [satisfy_apply_cons read? e (a := .ofList _) (congrArg Input.tokens ha),
      satisfy_apply_cons read? e (a := .ofList _) (congrArg Input.tokens hb),
      ← W.opening_eq, W.first.opens, hnone]
    exact hfail
  · have hsize := Input.size_of_tokens_eq_cons ha
    have hsize' := Input.size_of_tokens_eq_cons hb
    rw [satisfy_apply_cons read? e ha, satisfy_apply_cons read? e hb]
    cases read? token.kind with
    | none => exact hfail
    | some v =>
      exact .ok ⟨hrest, hst.pending.mono (by dsimp only; omega) (by dsimp only; omega),
        hst.reported⟩ (by dsimp only; omega)
  · rw [Parser.satisfy, Parser.satisfy, Input.next?_eq_none_iff.2 ha, Input.next?_eq_none_iff.2 hb]
    exact hfail

theorem token_on {kind : TokenKind} (hkind : P W.first.input → kind ≠ .punctuator .leftBrace) :
    W.InStepOn P (Parser.token kind) (Parser.token kind) := by
  unfold Parser.token
  exact satisfy_on fun h => if_neg fun heq => hkind h heq.symm

/-- The second reader of a choice need only stay in step where the first one fails. -/
theorem orElse_on {p' q' : Parser α} (h : W.InStepOn P p q)
    (hfail : ∀ s f, P s.rest → p s = .fail f → Q s.rest) (h' : W.InStepOn Q p' q') :
    W.InStepOn P (Parser.orElse p p') (Parser.orElse q q') := by
  intro s t hst hs
  have hreply := h s t hst hs
  unfold Parser.orElse
  generalize hv : p s = x at hreply
  generalize q t = y at hreply
  cases hreply with
  | ok hst' hsize => exact .ok hst' hsize
  | @fail f g hfailures _ =>
    exact h' { s with pending := some f } { t with pending := some g }
      ⟨hst.rest, .of_failures hfailures, hst.reported⟩ (hfail s f hs hv)

theorem withSpan {p q : Parser (Span → α)} (h : W.InStepOn P p q) :
    W.InStepOn P (Parser.withSpan p) (Parser.withSpan q) := by
  intro s t hst hs
  have hreply := h s t hst hs
  unfold Parser.withSpan
  generalize p s = x at hreply
  generalize q t = y at hreply
  cases hreply with
  | fail hfailures hsize => exact .fail hfailures hsize
  | ok hst' hsize =>
    dsimp only
    rw [hst.rest.spanOfRun_eq hst'.rest hsize]
    exact .ok hst' hsize

theorem labelled {c : Construct} (h : W.InStepOn P p q) :
    W.InStepOn P (Parser.labelled c p) (Parser.labelled c q) := by
  intro s t hst hs
  -- inside the construct nothing is pending at first
  have hreply := h { s with pending := none } { t with pending := none }
    ⟨hst.rest, .of_none, hst.reported⟩ hs
  generalize hv : p { s with pending := none } = x at hreply
  generalize hw : q { t with pending := none } = y at hreply
  cases hreply with
  | fail hfailures hsize =>
    rw [Parser.labelled, Parser.labelled, hv, hw]
    rw [← Failure.rest_summarize s.rest c] at hsize
    exact .fail (hst.pending.join hst.rest (hfailures.summarize hst.rest c) hsize)
      (Nat.le_trans (Failure.size_join_le _ _) hsize)
  | ok hst' hsize =>
    rw [labelled_eq_ok hv, labelled_eq_ok hw]
    exact .ok ⟨hst'.rest, hst.pending.behind hst.rest hst'.pending hst'.rest hsize c,
      hst'.reported⟩ hsize

theorem recoverWith {r r' : Parser α} (h : W.InStepOn P p q) (hr : W.InStepOn P r r') :
    W.InStepOn P (Parser.recoverWith p r) (Parser.recoverWith q r') := by
  intro s t hst hs
  have hreply := h s t hst hs
  have hrecovery := hr { s with pending := none } { t with pending := none }
    ⟨hst.rest, .of_none, hst.reported⟩ hs
  unfold Parser.recoverWith
  generalize p s = x at hreply
  generalize q t = y at hreply
  cases hreply with
  | ok hst' hsize => exact .ok hst' hsize
  | @fail f g hfailures hsize =>
    dsimp only
    generalize r { s with pending := none } = x at hrecovery
    generalize r' { t with pending := none } = y at hrecovery
    -- the failures are reported if both inputs recover, and stand if neither does
    cases hrecovery with
    | fail => exact .fail hfailures hsize
    | ok hst' hsize' =>
      exact .ok ⟨hst'.rest, hst'.pending, List.rel_append hst'.reported (.cons hfailures .nil)⟩
        hsize'

end InStepOn

variable {n : Nat}

theorem InStep.bind {α β : Type} {p q : Parser α} {f g : α → Parser β} (h : W.InStep n p q)
    (hfg : ∀ v, W.InStep n (f v) (g v)) : W.InStep n (p >>= f) (q >>= g) :=
  h.bind_on (fun _ _ _ _ _ hs _ hle => Nat.lt_of_le_of_lt hle hs) hfg

theorem InStep.orElse {α : Type} {p q p' q' : Parser α} (h : W.InStep n p q)
    (h' : W.InStep n p' q') : W.InStep n (Parser.orElse p p') (Parser.orElse q q') :=
  h.orElse_on (fun _ _ hs _ => hs) h'

/-- Recursive calls are allowed at corresponding places. -/
theorem InStep.fix {α : Type} {body body' : Parser α → Parser α}
    (hbody : ∀ p q, W.InStep n p q → W.InStep n (body p) (body' q)) :
    W.InStep n (Parser.fix body) (Parser.fix body') := by
  have hdepth (depth : Nat) : W.InStep n (fixUpTo body depth) (fixUpTo body' depth) := by
    induction depth with
    | zero => exact fun s t hst _ => .fail ⟨hst.rest, rfl⟩ (Nat.le_refl _)
    | succ depth ih =>
      intro s t hst hs
      refine hbody (below s.rest.size (fixUpTo body depth))
        (below t.rest.size (fixUpTo body' depth)) (fun s' t' hst' hs' => ?_) s t hst hs
      have hless := hst'.rest.lt_iff hst.rest
      unfold below
      by_cases h : s'.rest.size < s.rest.size
      · rw [if_pos h, if_pos (hless.1 h)]
        exact ih s' t' hst' hs'
      · rw [if_neg h, if_neg fun h' => h (hless.2 h')]
        exact .fail ⟨hst'.rest, rfl⟩ (Nat.le_refl _)
  -- the number of calls that both inputs allow is enough
  intro s t hst hs
  rw [Parser.fix, Parser.fix,
    fixUpTo_eq (n := max s.rest.size t.rest.size + 1) body (Nat.lt_succ_self _) (by omega),
    fixUpTo_eq (n := max s.rest.size t.rest.size + 1) body' (Nat.lt_succ_self _) (by omega)]
  exact hdepth _ s t hst hs

theorem congruence_inStep (n : Nat) : Congruence (W.InStep n) where
  pure v := .pure v
  bind h hfg := h.bind hfg
  satisfy hread := .satisfy_on fun _ => hread.1
  orElse h h' := h.orElse h'
  withSpan h := InStepOn.withSpan h
  labelled h := InStepOn.labelled h
  fix hbody := .fix hbody

/-- The block does not begin here, and fewer than `n` tokens are left. -/
def Elsewhere (W : Twins) (n : Nat) (a : Input) : Prop :=
  a.size < n ∧ a ≠ W.first.input

section Braces

/-- What is pending at the block is further on, and the same in both inputs, or it no longer matters
behind the block. -/
theorem Pendings.cases_hole {p q : Option Failure}
    (h : W.Pendings W.first.input W.second.input p q) :
    (∃ f, p = some f ∧ q = some f ∧ f.rest.tokens <:+ W.first.after) ∨
      PendingBefore W.first.after p ∧ PendingBefore W.first.after q := by
  have hfirst := W.after_lt_first
  have hsecond := W.after_lt_second
  rcases h with ⟨⟨a, e⟩, ⟨b, e'⟩, rfl, rfl, hrest, hexpected⟩ | ⟨hp, hq⟩
  · obtain rfl : e = e' := hexpected
    dsimp only at hrest
    cases hrest with
    -- in front of the block there are more tokens left than behind it
    | before _ ha hb =>
      refine .inr ⟨PendingBefore.of_lt (a := .ofList W.first.after) ?_,
        PendingBefore.of_lt (a := .ofList W.first.after) ?_⟩
      · rw [Input.size_ofList, ← a.size_eq, ha, List.length_append]
        omega
      · rw [Input.size_ofList, ← b.size_eq, hb, List.length_append]
        omega
    | behind ha => exact .inl ⟨_, rfl, rfl, ha⟩
  · exact .inr ⟨hp.mono (Nat.le_of_lt hfirst), hq.mono (Nat.le_of_lt hsecond)⟩

/-- Behind the block, the same is pending in both inputs. -/
theorem States.behind {s t : State} (hst : W.States s t) (ha : s.rest = W.first.input)
    (hb : t.rest = W.second.input) {p q : Option Failure} (hp : Keeps W.first.after s.pending p)
    (hq : Keeps W.second.after t.pending q) :
    W.States ⟨.ofList W.first.after, p, s.reported⟩ ⟨.ofList W.second.after, q, t.reported⟩ := by
  rw [← W.after_eq] at hq ⊢
  refine ⟨.behind List.suffix_rfl, ?_, hst.reported⟩
  have hpending := hst.pending
  rw [ha, hb] at hpending
  rcases hpending.cases_hole with ⟨f, hs, ht, hf⟩ | ⟨hs, ht⟩
  · have hle : f.rest.size ≤ W.first.after.length := f.rest.size_eq ▸ hf.length_le
    obtain rfl := hp.eq f hs hle
    obtain rfl := hq.eq f ht hle
    exact .of_failures ⟨.behind hf, rfl⟩
  · exact .inr ⟨hp.before hs, hq.before ht⟩

variable {α : Type} {p q : Parser α}

/-- Between braces that are not those of the block, reading goes on in step. -/
theorem InStep.braces (h : W.InStep n p q) : W.InStepOn (W.Elsewhere (n + 1))
    (between .leftBrace .rightBrace p) (between .leftBrace .rightBrace q) := by
  have hclose : W.InStep n (punctuator .rightBrace) (punctuator .rightBrace) :=
    InStepOn.token_on fun _ => by simp
  have hinner : W.InStep n (do let v ← p; punctuator .rightBrace; pure v)
      (do let v ← q; punctuator .rightBrace; pure v) := by
    refine h.bind fun v => ?_
    exact hclose.bind fun _ => .pure v
  refine InStepOn.bind_on (Q := fun a => a.size < n) (.token_on fun hs => absurd rfl hs.2)
    (fun s _ _ s' _ hs hv _ => ?_) fun _ => hinner
  -- the opening brace has been read
  unfold punctuator token at hv
  obtain ⟨token, htokens, -⟩ := of_satisfy_eq_ok hv
  have hsize : s.rest.size = s'.rest.size + 1 := by
    rw [← s.rest.size_eq, ← s'.rest.size_eq, htokens, List.length_cons]
  have := hs.1
  omega

/-- Groups of braces are skipped in step, and the block as a whole. -/
theorem inStep_braceGroup (n : Nat) : W.InStep n braceGroup braceGroup := by
  induction n with
  | zero => exact fun s _ _ hs => absurd hs (Nat.not_lt_zero _)
  | succ n ih =>
    intro s t hst hs
    -- the block is one group, whatever its content; any other group is read brace by brace
    by_cases hhole : s.rest = W.first.input
    · obtain ⟨-, hhole'⟩ := hst.rest.eq_input (congrArg Input.size hhole)
      obtain ⟨p, hp, hgroup⟩ := exists_braceGroup_keeps (congrArg Input.tokens hhole)
        W.first.opens W.first.afterClosing_eq
      obtain ⟨q, hq, hgroup'⟩ := exists_braceGroup_keeps (congrArg Input.tokens hhole')
        W.second.opens W.second.afterClosing_eq
      rw [hgroup, hgroup']
      refine .ok (hst.behind hhole hhole' hp hq) ?_
      rw [hhole]
      exact Nat.le_of_lt W.after_lt_first
    · have hitem : W.InStep n groupItem groupItem := by
        refine ih.orElse ?_
        unfold noneOf select
        exact .satisfy_on fun _ => rfl
      have hmany := (congruence_inStep n).many hitem
      have hgroup := InStepOn.bind_on (InStep.braces hmany) (fun _ _ _ _ _ _ _ _ => trivial)
        fun _ => InStepOn.pure (P := fun _ => True) (W := W) ()
      rw [braceGroup_eq]
      exact hgroup s t hst ⟨hs, hhole⟩

end Braces

section Skipping

/-- Any token is read, up to the end. -/
theorem exists_many_anyToken_eq_ok (s : State) : ∃ vs, many anyToken s =
    .ok vs ⟨.ofList [], some (.note s.pending (.ofList []) .anyToken), s.reported⟩ := by
  generalize htokens : s.rest.tokens = tokens
  induction tokens generalizing s with
  | nil =>
    refine ⟨[], ?_⟩
    rw [many_apply, orElse, bind_apply, anyToken, satisfy, Input.next?_eq_none_iff.2 htokens,
      ← show s.rest = .ofList [] from Input.ext htokens]
    rfl
  | cons token ts ih =>
    -- each round takes a token, so the loop is not cut short
    have htoken : anyToken s = .ok () { s with rest := .ofList ts } :=
      satisfy_apply_cons (fun _ => some ()) .anyToken htokens
    obtain ⟨vs, hvs⟩ := ih { s with rest := .ofList ts } rfl
    have hsize := Input.size_of_tokens_eq_cons (b := .ofList ts) htokens
    have hless : (Input.ofList ts).size < s.rest.size := by omega
    refine ⟨() :: vs, ?_⟩
    rw [many_apply, orElse, bind_apply, htoken]
    dsimp only
    rw [bind_apply, below, if_pos hless, hvs]
    rfl

/-- An open group goes on to the end. -/
theorem openGroup_eq (s : State) : openGroup s =
    if s.rest.tokens.head?.map Token.kind = some (.punctuator .leftBrace) then
      .ok () ⟨.ofList [], some (.note s.pending (.ofList []) .anyToken), s.reported⟩
    else .fail (.note s.pending s.rest (.token (.punctuator .leftBrace))) := by
  rw [openGroup, punctuator, bind_apply]
  cases htokens : s.rest.tokens with
  | nil =>
    rw [token, satisfy, Input.next?_eq_none_iff.2 htokens]
    rfl
  | cons l ts =>
    rw [token_apply_cons _ (a := .ofList ts) htokens]
    by_cases hl : l.kind = .punctuator .leftBrace
    · obtain ⟨vs, hvs⟩ := exists_many_anyToken_eq_ok ⟨.ofList ts, s.pending, s.reported⟩
      rw [List.head?_cons, Option.map_some, if_pos hl, if_pos (congrArg some hl)]
      dsimp only
      rw [bind_apply, hvs]
      rfl
    · rw [List.head?_cons, Option.map_some, if_neg hl, if_neg (by simpa using hl)]

theorem inStep_openGroup (n : Nat) : W.InStep n openGroup openGroup := by
  intro s t hst _
  rw [openGroup_eq, openGroup_eq, ← hst.rest.head?_eq]
  split
  · have hend : W.Inputs (.ofList []) (.ofList []) := .behind List.nil_suffix
    have hpending : W.Pendings (.ofList []) (.ofList []) s.pending t.pending :=
      hst.pending.mono (Nat.zero_le _) (Nat.zero_le _)
    exact .ok ⟨hend, .of_failures (hpending.note hend _), hst.reported⟩ (Nat.zero_le _)
  · exact .fail (hst.pending.note hst.rest _) (Failure.size_note_le _ _ _)

theorem inStep_skipGroup (n : Nat) : W.InStep n skipGroup skipGroup :=
  (inStep_braceGroup n).orElse (inStep_openGroup n)

theorem inStep_statementError (n : Nat) : W.InStep n statementError statementError := by
  have C := W.congruence_inStep n
  have hfirst : W.InStep n firstUnit firstUnit := by
    -- a group of braces is always skipped
    refine (inStep_skipGroup n).orElse_on (Q := (· ≠ W.first.input)) (fun s f _ hf hhole => ?_) ?_
    · obtain ⟨t, ht⟩ := exists_skipGroup_eq_ok (congrArg Input.tokens hhole) W.first.opens
      cases hf.symm.trans ht
    · unfold Parser.choice noneOf select
      exact .satisfy_on fun hs => absurd rfl hs
  have hfurther : W.InStep n furtherUnit furtherUnit := by
    refine (inStep_skipGroup n).orElse ?_
    unfold Parser.choice noneOf select
    exact .satisfy_on fun _ => if_pos (by decide)
  refine InStepOn.withSpan ?_
  refine hfirst.bind fun _ => ?_
  refine (C.many hfurther).bind fun _ => ?_
  refine C.semicolon.bind fun _ => ?_
  exact .pure _

end Skipping

section Statements

variable {b b' : Parser (Block Stmt)}

/-- Before the block there is no head of a class. -/
theorem Inputs.not_class {a b : Input} {c token : Token} {name : String} (h : W.Inputs a b)
    (hc : c.kind = .keyword .class) (htoken : token.kind = .identifier name) :
    a.tokens ≠ c :: token :: W.first.tokens := by
  intro htokens
  cases h with
  | @before _ ts hts ha _ =>
    -- the two tokens would be the last ones in front of the block
    obtain rfl : ts = [c, token] := List.append_cancel_right (ha.symm.trans htokens)
    obtain ⟨us, hus⟩ := hts
    refine W.headFree.name (kindsOf us) name ?_
    rw [← hus, kindsOf_append]
    simp [kindsOf, hc, htoken]
  | behind ha =>
    have hlength := ha.length_le
    have hless := W.after_lt_first
    rw [htokens, List.length_cons, List.length_cons] at hlength
    omega

/-- The braces of a class are not those of the block. -/
theorem inStep_classDefinition (hb : W.InStep (n + 1) b b') :
    W.InStep (n + 1) (classDefinition b) (classDefinition b') := by
  have C := W.congruence_inStep (n + 1)
  have hmembers : W.InStepOn (W.Elsewhere (n + 1))
      (between .leftBrace .rightBrace (many (member b)))
      (between .leftBrace .rightBrace (many (member b'))) :=
    InStep.braces ((C.many (C.member hb)).mono fun _ ha => Nat.lt_succ_of_lt ha)
  -- behind the keyword there is no name before the block
  refine InStepOn.labelled ?_
  refine InStepOn.bind_on (Q := fun a => a.size < n + 1 ∧
    ∀ token name, token.kind = .identifier name → a.tokens ≠ token :: W.first.tokens)
    (.token_on fun _ => by simp) (fun s t _ s' hst hs hv hle => ?_) fun _ => ?_
  · refine ⟨Nat.lt_of_le_of_lt hle hs, fun token name htoken htokens => ?_⟩
    unfold keyword Parser.token at hv
    obtain ⟨c, hc, hclass, -⟩ := of_satisfy_eq_ok hv
    rw [htokens] at hc
    have hkind : c.kind = .keyword .class := by simpa using hclass
    exact hst.rest.not_class hkind htoken hc
  refine InStepOn.bind_on (Q := W.Elsewhere (n + 1)) (C.identifier.mono fun _ ha => ha.1)
    (fun s t name s' _ hs hv hle => ?_) fun _ => ?_
  · refine ⟨Nat.lt_of_le_of_lt hle hs.1, fun hhole => ?_⟩
    obtain ⟨read, -, hread, -, hname, -⟩ := spells_identifier s name s' hv
    obtain ⟨token, rfl, htoken⟩ := List.map_eq_singleton_iff.1 hname
    rw [hhole] at hread
    exact hs.2 token name.name htoken hread
  · exact hmembers.bind_on (fun _ _ _ _ _ _ _ _ => trivial) fun _ =>
      InStepOn.pure (P := fun _ => True) (W := W) _

theorem inStep_statementStep (hb : W.InStep (n + 1) b b') :
    W.InStep (n + 1) (statementStep b) (statementStep b') := by
  have C := W.congruence_inStep (n + 1)
  refine .recoverWith (.labelled ?_) (inStep_statementError _)
  refine (C.bareStatement hb (inStep_classDefinition hb)).bind fun _ => ?_
  refine C.semicolon.bind fun _ => ?_
  exact .pure _

/-- At the block, both readers take it for the same; elsewhere the statements of a block are read in
step. -/
theorem inStep_blockOr (body : Block Stmt) {p q : Parser Stmt} (h : W.InStep n p q) :
    W.InStep (n + 1) (blockOr W.first.input.size (takenBlock (some body)) p)
      (blockOr W.second.input.size (takenBlock (some body)) q) := by
  intro s t hst hs
  unfold blockOr
  by_cases hsize : s.rest.size = W.first.input.size
  · obtain ⟨ha, hb⟩ := hst.rest.eq_input hsize
    rw [if_pos hsize, if_pos (hst.rest.size_eq_iff.1 hsize), takenBlock, replacedBy, replacedBy,
      show s = ⟨W.first.input, s.pending, s.reported⟩ from ha ▸ rfl,
      show t = ⟨W.second.input, t.pending, t.reported⟩ from hb ▸ rfl, Hole.strictBlock_eq,
      Hole.strictBlock_eq]
    -- both readers return the block put in, and go on behind their own
    refine .ok (hst.behind ha hb (W.first.keeps _) (W.second.keeps _)) ?_
    exact Nat.le_of_lt W.after_lt_first
  · rw [if_neg hsize, if_neg fun h => hsize (hst.rest.size_eq_iff.2 h)]
    have C := W.congruence_inStep n
    have hblock : W.InStepOn (W.Elsewhere (n + 1)) (strictBlock p) (strictBlock q) := by
      refine .labelled (.withSpan ?_)
      refine (InStep.braces (C.many h)).bind_on (Q := fun _ => True)
        (fun _ _ _ _ _ _ _ _ => trivial) fun stmts => ?_
      exact .pure _
    exact hblock s t hst ⟨hs, fun ha => hsize (congrArg Input.size ha)⟩

/-- Where the block is taken for another one, statements are read in step. -/
theorem inStep_statementWith (body : Block Stmt) (n : Nat) :
    W.InStep n (statementWith W.first.input.size (some body))
      (statementWith W.second.input.size (some body)) := by
  induction n with
  | zero => exact fun s _ _ hs => absurd hs (Nat.not_lt_zero _)
  | succ n ih =>
    rw [statementWith_eq, statementWith_eq W.second.input.size]
    exact inStep_statementStep (inStep_blockOr body ih)

theorem inStep_endOfInput (n : Nat) : W.InStep n endOfInput endOfInput := by
  intro s t hst _
  have hhead := hst.rest.head?_eq
  unfold endOfInput
  cases hs : s.rest.next? with
  | none =>
    rw [Input.next?_eq_none_iff.1 hs, List.head?_nil, eq_comm, List.head?_eq_none_iff] at hhead
    rw [Input.next?_eq_none_iff.2 hhead]
    exact .ok hst (Nat.le_refl _)
  | some next =>
    cases ht : t.rest.next? with
    | none =>
      rw [Input.next?_eq_none_iff.1 ht, List.head?_nil, List.head?_eq_none_iff] at hhead
      cases (Input.next?_eq_none_iff.2 hhead).symm.trans hs
    | some next' => exact .fail (hst.pending.note hst.rest _) (Failure.size_note_le _ _ _)

/-- The statements of a program are read in step. -/
theorem inStep_statements (body : Block Stmt) (n : Nat) :
    W.InStep n (statements (statementWith W.first.input.size (some body)))
      (statements (statementWith W.second.input.size (some body))) := by
  have C := W.congruence_inStep n
  have hstray : W.InStep n strayBrace strayBrace := by
    refine InStepOn.withSpan ?_
    refine InStep.bind (.token_on fun _ => by simp) fun _ => ?_
    exact .pure _
  exact C.many ((inStep_statementWith body n).recoverWith hstray)

end Statements

end Twins

end CrudLang
