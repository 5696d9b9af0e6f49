import CrudLang.Proofs.Grammar.Unfolding
import CrudLang.Proofs.Parser.Repetition

/-!
# Braces

Whatever the grammar reads, it leaves the matching of braces behind it as it was. `afterClosing d`
looks for the closing brace that ends the `d + 1` innermost blocks and gives the tokens behind it;
`KeepsDepth p` says that it finds the same before and behind what `p` reads. All parsers of the
grammar keep the depth, those that recover included (`blockGuarded_keepsDepth`).

It follows that statements between braces are read up to the matching brace, whatever stands
between them (`exists_between_many_eq_ok`), so a block that has its closing brace is never
skipped: `statementBy_strictBlock_eq` says that the recovery by `skippedBlock` makes no difference.
-/

namespace CrudLang.Grammar

open CrudLang.Parser

/-- The tokens behind the closing brace that ends the `depth + 1` innermost open blocks. -/
def afterClosing : Nat → List Token → Option (List Token)
  | _, [] => none
  | depth, token :: rest =>
    match token.kind, depth with
    | .punctuator .leftBrace, depth => afterClosing (depth + 1) rest
    | .punctuator .rightBrace, 0 => some rest
    | .punctuator .rightBrace, depth + 1 => afterClosing depth rest
    | _, depth => afterClosing depth rest

/-- The way to behind the closing brace that ends the `depth + 1` innermost open blocks, token by
token. -/
inductive Closes (after : List Token) : Nat → List Token → Prop
  | last {token} : token.kind = .punctuator .rightBrace → Closes after 0 (token :: after)
  | opening {depth token rest} : token.kind = .punctuator .leftBrace →
      Closes after (depth + 1) rest → Closes after depth (token :: rest)
  | closing {depth token rest} : token.kind = .punctuator .rightBrace → Closes after depth rest →
      Closes after (depth + 1) (token :: rest)
  | other {depth token rest} : token.kind ≠ .punctuator .leftBrace →
      token.kind ≠ .punctuator .rightBrace → Closes after depth rest →
      Closes after depth (token :: rest)

section AfterClosing

variable {token : Token} {rest : List Token} {depth : Nat}

/-- An opening brace is one more to be closed. -/
theorem afterClosing_open (h : token.kind = .punctuator .leftBrace) :
    afterClosing depth (token :: rest) = afterClosing (depth + 1) rest := by
  simp [afterClosing, h]

/-- The closing brace that is looked for: the tokens behind it are the answer. -/
theorem afterClosing_close_zero (h : token.kind = .punctuator .rightBrace) :
    afterClosing 0 (token :: rest) = some rest := by
  simp [afterClosing, h]

/-- A closing brace of an inner pair is one fewer to be closed. -/
theorem afterClosing_close_succ (h : token.kind = .punctuator .rightBrace) :
    afterClosing (depth + 1) (token :: rest) = afterClosing depth rest := by
  simp [afterClosing, h]

/-- Other tokens make no difference. -/
theorem afterClosing_other (hl : token.kind ≠ .punctuator .leftBrace)
    (hr : token.kind ≠ .punctuator .rightBrace) :
    afterClosing depth (token :: rest) = afterClosing depth rest := by
  conv => lhs; unfold afterClosing
  split
  · contradiction
  · contradiction
  · contradiction
  · rfl

/-- The blocks around a block end behind the end of that block. -/
theorem afterClosing_add (d e : Nat) (tokens : List Token) :
    afterClosing (d + e + 1) tokens = (afterClosing d tokens).bind (afterClosing e) := by
  induction tokens generalizing d with
  | nil => rfl
  | cons token rest ih =>
    -- an opening brace adds one to the inner depth; a closing one takes one off, until none is left
    by_cases hl : token.kind = .punctuator .leftBrace
    · rw [afterClosing_open hl, afterClosing_open hl, ← ih (d + 1)]
      congr 1
      omega
    by_cases hr : token.kind = .punctuator .rightBrace
    · cases d with
      | zero =>
        rw [afterClosing_close_succ hr, afterClosing_close_zero hr, Nat.zero_add]
        rfl
      | succ d =>
        rw [afterClosing_close_succ hr, afterClosing_close_succ hr, ← ih d]
        congr 1
        omega
    · rw [afterClosing_other hl hr, afterClosing_other hl hr, ih d]

/-- Without an end of the innermost block there is no end of the blocks around it. -/
theorem afterClosing_eq_none {tokens : List Token} (h : afterClosing 0 tokens = none) (d : Nat) :
    afterClosing d tokens = none := by
  cases d with
  | zero => exact h
  | succ d => rw [← Nat.zero_add d, afterClosing_add, h, Option.bind_none]

/-- The closing brace, if there is one, is found by the recursion. -/
theorem Closes.of_eq_some {tokens after : List Token} (h : afterClosing depth tokens = some after) :
    Closes after depth tokens := by
  -- by induction on the tokens, with the depth at each of them
  induction tokens generalizing depth with
  | nil => cases h
  | cons token rest ih =>
    by_cases hl : token.kind = .punctuator .leftBrace
    · rw [afterClosing_open hl] at h
      exact .opening hl (ih h)
    by_cases hr : token.kind = .punctuator .rightBrace
    · cases depth with
      | zero =>
        rw [afterClosing_close_zero hr] at h
        obtain rfl := Option.some.inj h
        exact .last hr
      | succ depth =>
        rw [afterClosing_close_succ hr] at h
        exact .closing hr (ih h)
    · rw [afterClosing_other hl hr] at h
      exact .other hl hr (ih h)

/-- Tokens behind the end of a block do not change where it ends. -/
theorem afterClosing_append_of_eq_some {tokens after : List Token}
    (h : afterClosing depth tokens = some after) (us : List Token) :
    afterClosing depth (tokens ++ us) = some (after ++ us) := by
  have hcloses := Closes.of_eq_some h
  clear h
  induction hcloses with
  | last hr => exact afterClosing_close_zero hr
  | opening hl _ ih => exact (afterClosing_open hl).trans ih
  | closing hr _ ih => exact (afterClosing_close_succ hr).trans ih
  | other hl hr _ ih => exact (afterClosing_other hl hr).trans ih

/-- Behind the closing brace there is a part of the tokens. -/
theorem Closes.suffix {tokens after : List Token} (h : Closes after depth tokens) :
    after <:+ tokens := by
  induction h with
  | last => exact List.suffix_cons _ _
  | opening _ _ ih => exact ih.trans (List.suffix_cons _ _)
  | closing _ _ ih => exact ih.trans (List.suffix_cons _ _)
  | other _ _ _ ih => exact ih.trans (List.suffix_cons _ _)

/-- The closing brace itself is not among the tokens behind it. -/
theorem Closes.length_lt {tokens after : List Token} (h : Closes after depth tokens) :
    after.length < tokens.length := by
  cases h with
  | last => exact Nat.lt_succ_self _
  | opening _ hrest => exact Nat.lt_succ_of_le hrest.suffix.length_le
  | closing _ hrest => exact Nat.lt_succ_of_le hrest.suffix.length_le
  | other _ _ hrest => exact Nat.lt_succ_of_le hrest.suffix.length_le

end AfterClosing

/-- What the parser reads leaves the matching of braces as it was. -/
def KeepsDepth {α : Type} (p : Parser α) : Prop :=
  Ensures p fun _ read rest _ =>
    ∀ depth, afterClosing depth (read ++ rest) = afterClosing depth rest

namespace KeepsDepth

variable {α β : Type} {p q : Parser α}

/-- A value keeps the depth, since nothing is read. -/
theorem pure (a : α) : KeepsDepth (Pure.pure a : Parser α) :=
  Ensures.pure fun _ _ => rfl

/-- One parser behind another keeps the depth if both do. -/
theorem bind {f : α → Parser β} (hp : KeepsDepth p) (hf : ∀ a, KeepsDepth (f a)) :
    KeepsDepth (p >>= f) := by
  refine Ensures.bind hp fun a first _ => ?_
  refine (hf a).mono fun b read rest _ h hfirst depth => ?_
  rw [List.append_assoc, hfirst, h]

/-- A token that is no brace keeps the depth. -/
theorem satisfy {read? : TokenKind → Option α} {e : Expectation} (hread : Braceless read?) :
    KeepsDepth (Parser.satisfy read? e) := by
  refine Ensures.satisfy.mono fun v read rest new h depth => ?_
  obtain ⟨token, rfl, hv, -⟩ := h
  refine afterClosing_other (fun hl => ?_) fun hr => ?_
  · rw [hl, hread.1] at hv
    cases hv
  · rw [hr, hread.2] at hv
    cases hv

/-- One token other than braces and some others keeps the depth. -/
theorem noneOf {kinds : List TokenKind} (hl : .punctuator .leftBrace ∈ kinds)
    (hr : .punctuator .rightBrace ∈ kinds) : KeepsDepth (Parser.noneOf kinds) := by
  unfold Parser.noneOf select
  exact satisfy ⟨if_pos hl, if_pos hr⟩

/-- Two alternatives that keep the depth. -/
theorem orElse (hp : KeepsDepth p) (hq : KeepsDepth q) : KeepsDepth (orElse p q) :=
  Ensures.orElse hp hq

/-- The second parser of a choice need only keep the depth where the first one fails. -/
theorem orElse_of_fail (hp : KeepsDepth p) (hq : ∀ s f v t, p s = .fail f →
      q { s with pending := some f } = .ok v t → ∃ read new,
        s.rest.tokens = read ++ t.rest.tokens ∧ t.reported = s.reported ++ new ∧
          ∀ depth, afterClosing depth s.rest.tokens = afterClosing depth t.rest.tokens) :
    KeepsDepth (Parser.orElse p q) := by
  intro s v t hs
  rcases of_orElse_eq_ok hs with h | ⟨f, hf, h⟩
  · exact hp s v t h
  · obtain ⟨read, new, hread, hnew, hdepth⟩ := hq s f v t hf h
    exact ⟨read, new, hread, hnew, fun depth => by rw [← hread, hdepth]⟩

/-- The span of what is read. -/
theorem withSpan {p : Parser (Span → α)} (hp : KeepsDepth p) : KeepsDepth (withSpan p) :=
  Ensures.withSpan hp

/-- What is read under a label. -/
theorem labelled {c : Construct} (hp : KeepsDepth p) : KeepsDepth (labelled c p) :=
  Ensures.labelled hp

/-- Recovery keeps the depth if what is skipped does. -/
theorem recoverWith {r : Parser α} (hp : KeepsDepth p) (hr : KeepsDepth r) :
    KeepsDepth (recoverWith p r) :=
  Ensures.recoverWith hp (hr.mono fun _ _ _ _ h _ => h)

/-- A recursive definition keeps the depth if one round of it does. -/
theorem fix {body : Parser α → Parser α} (hbody : ∀ p, KeepsDepth p → KeepsDepth (body p)) :
    KeepsDepth (fix body) :=
  Ensures.fix hbody

/-- A pair of braces is neither opened nor closed by what stands between them. -/
theorem braces (hp : KeepsDepth p) : KeepsDepth (between .leftBrace .rightBrace p) := by
  refine Ensures.between hp fun v l read r rest _ hl hr h depth => ?_
  rw [List.append_assoc, List.cons_append, List.singleton_append, afterClosing_open hl, h,
    afterClosing_close_succ hr]

/-- A pair of braces that is read is a matching one. -/
theorem ensures_braces (hp : KeepsDepth p) : Ensures (between .leftBrace .rightBrace p)
    fun _ read rest _ => ∃ l ts, read = l :: ts ∧ l.kind = .punctuator .leftBrace ∧
      afterClosing 0 (ts ++ rest) = some rest := by
  refine Ensures.between hp fun _ l read r rest _ hl hr h => ?_
  refine ⟨l, read ++ [r], rfl, hl, ?_⟩
  rw [List.append_assoc, List.singleton_append, h, afterClosing_close_zero hr]

end KeepsDepth

/-- The grammar's combinators keep the depth; a property of one parser is a relation that leaves
the other one out. -/
theorem congruence_keepsDepth : Congruence fun {_} p _ => KeepsDepth p where
  pure a := .pure a
  bind hp hf := .bind hp hf
  satisfy h := .satisfy h
  orElse hp hq := .orElse hp hq
  withSpan hp := .withSpan hp
  labelled hp := .labelled hp
  fix hbody := .fix fun p hp => hbody p p hp

/-- A token that stands at the head of the input is read. -/
theorem exists_token_eq_ok {s : State} {t : Token} {ts : List Token}
    (h : s.rest.tokens = t :: ts) : ∃ u, token t.kind s = .ok () u ∧ u.rest.tokens = ts ∧
      u.rest.size < s.rest.size := by
  have hsize := Input.size_of_tokens_eq_cons (b := .ofList ts) h
  exact ⟨{ s with rest := .ofList ts },
    by rw [token_apply_cons t.kind (a := .ofList ts) h, if_pos rfl], rfl, by dsimp only; omega⟩

section BetweenBraces

variable {α : Type} {p : Parser α}

/-- What is repeated between braces is read up to the closing brace, if the parser for it fails at
nothing but a closing brace or a brace without its counterpart. -/
theorem exists_between_many_eq_ok (hconsumes : Consumes p) (hkeeps : KeepsDepth p) {s : State}
    {l : Token} {ts after : List Token}
    (hfail : ∀ u f, u.rest.size < s.rest.size → p u = .fail f →
      afterClosing 0 u.rest.tokens = none ∨
        ∃ r rest, u.rest.tokens = r :: rest ∧ r.kind = .punctuator .rightBrace)
    (hs : s.rest.tokens = l :: ts) (hl : l.kind = .punctuator .leftBrace)
    (hafter : afterClosing 0 ts = some after) :
    ∃ vs t, between .leftBrace .rightBrace (many p) s = .ok vs t ∧ t.rest.tokens = after := by
  obtain ⟨s₁, hopen, hs₁, hless⟩ := exists_token_eq_ok hs
  obtain ⟨vs, t, u, f, hvs, hu, hf⟩ := exists_many_eq_ok hconsumes s₁
  -- the closing brace is the same before and behind what the repetition reads
  have hmany : KeepsDepth (many p) := congruence_keepsDepth.many (q := p) hkeeps
  have hend : afterClosing 0 t.rest.tokens = some after := by
    obtain ⟨read, -, hread, -, hdepth⟩ := hmany s₁ vs t hvs
    rw [← hdepth, ← hread, hs₁, hafter]
  have hsize : u.rest.size < s.rest.size := by
    rw [hu]
    exact Nat.lt_of_le_of_lt (Ensures.size_le hmany hvs) hless
  rcases hfail u f hsize hf with hnone | ⟨r, rest, htokens, hr⟩
  · rw [hu, hend] at hnone
    cases hnone
  · -- the repetition stopped at the closing brace
    rw [hu] at htokens
    rw [htokens, afterClosing_close_zero hr] at hend
    obtain ⟨t₁, hclose, ht₁, -⟩ := exists_token_eq_ok htokens
    refine ⟨vs, t₁, ?_, ht₁.trans (Option.some.inj hend)⟩
    rw [hl] at hopen
    rw [hr] at hclose
    rw [between, punctuator, bind_apply, hopen]
    dsimp only
    rw [bind_apply, hvs]
    dsimp only
    rw [bind_apply, punctuator, hclose]
    rfl

end BetweenBraces

section Groups

/-- An item of a group of braces: a group, or a token that is no brace. -/
def groupItem : Parser Unit :=
  orElse braceGroup (noneOf [.punctuator .leftBrace, .punctuator .rightBrace])

/-- What skips units skips at least one token. -/
theorem Skips.consumes {α : Type} {p : Parser α} (hp : Skips p) : Consumes p :=
  .of_spells hp fun _ _ _ h => h.1 rfl

/-- A part of a group is skipped, not read. -/
theorem skips_groupItem : Skips groupItem :=
  Skips.orElse skips_braceGroup (Skips.noneOf _)

/-- The defining equation of groups: an opening brace, parts and a closing brace. -/
theorem braceGroup_eq :
    braceGroup = between .leftBrace .rightBrace (many groupItem) >>= fun _ => pure () := by
  refine fix_eq fun n p q h => ?_
  have hother : AgreeBelow n (noneOf [.punctuator .leftBrace, .punctuator .rightBrace])
      (noneOf [.punctuator .leftBrace, .punctuator .rightBrace]) := by
    unfold noneOf select
    exact .satisfy
  have hitems := (blockGuarded_agreeBelow n).braces
    ((congruence_agreeBelow n).many (h.orElse hother))
  exact hitems.bind fun _ => .pure ()

/-- A group between braces keeps the depth: its two braces make up for each other. -/
theorem keepsDepth_braceGroup : KeepsDepth braceGroup := by
  have hother : KeepsDepth (noneOf [.punctuator .leftBrace, .punctuator .rightBrace]) :=
    .noneOf (by simp) (by simp)
  refine .fix fun group hgroup => ?_
  have hitems := KeepsDepth.braces
    (congruence_keepsDepth.many (q := group) (hgroup.orElse hother))
  exact hitems.bind fun _ => .pure ()

/-- A part of a group keeps the depth. -/
theorem keepsDepth_groupItem : KeepsDepth groupItem :=
  .orElse keepsDepth_braceGroup (.noneOf (by simp) (by simp))

/-- A token that is not among those excluded is read. -/
theorem exists_noneOf_eq_ok {kinds : List TokenKind} {s : State} {t : Token} {ts : List Token}
    (hs : s.rest.tokens = t :: ts) (ht : t.kind ∉ kinds) : ∃ u, noneOf kinds s = .ok () u := by
  exact ⟨_, by rw [noneOf, select, satisfy_apply_cons _ _ (a := .ofList ts) hs, if_neg ht]⟩

/-- An item of a group fails only at the end, at a closing brace or at a group without its closing
brace, if each group that has its closing brace is read. -/
theorem of_groupItem_eq_fail {s : State} {f : Failure}
    (hgroup : ∀ l ts after, s.rest.tokens = l :: ts → l.kind = .punctuator .leftBrace →
      afterClosing 0 ts = some after → ∃ t, braceGroup s = .ok () t)
    (hs : groupItem s = .fail f) :
    afterClosing 0 s.rest.tokens = none ∨
      ∃ r rest, s.rest.tokens = r :: rest ∧ r.kind = .punctuator .rightBrace := by
  cases htokens : s.rest.tokens with
  | nil => exact .inl rfl
  | cons r rest =>
    by_cases hr : r.kind = .punctuator .rightBrace
    · exact .inr ⟨r, rest, rfl, hr⟩
    rw [groupItem, orElse] at hs
    cases hbraces : braceGroup s with
    | ok v t => simp [hbraces] at hs
    | fail f' =>
      rw [hbraces] at hs
      by_cases hl : r.kind = .punctuator .leftBrace
      · -- the group is not read, so it has no closing brace
        left
        rw [afterClosing_open hl]
        refine afterClosing_eq_none (Option.eq_none_iff_forall_ne_some.2 ?_) 1
        intro after hafter
        obtain ⟨t, ht⟩ := hgroup r rest after htokens hl hafter
        rw [ht] at hbraces
        cases hbraces
      · have hother : r.kind ∉ [TokenKind.punctuator .leftBrace, .punctuator .rightBrace] := by
          simp [hl, hr]
        obtain ⟨t, ht⟩ :=
          exists_noneOf_eq_ok (s := { s with pending := some f' }) htokens hother
        dsimp only at hs
        rw [ht] at hs
        cases hs

/-- A group of braces that has its closing brace is read. -/
theorem exists_braceGroup_eq_ok {s : State} {l : Token} {ts after : List Token}
    (hs : s.rest.tokens = l :: ts) (hl : l.kind = .punctuator .leftBrace)
    (hafter : afterClosing 0 ts = some after) : ∃ t, braceGroup s = .ok () t := by
  generalize hsize : s.rest.size = size
  induction size using Nat.strongRecOn generalizing s l ts after with
  | ind size ih =>
    -- the groups inside are shorter
    have hfail (u : State) (f : Failure) (hu : u.rest.size < s.rest.size)
        (hf : groupItem u = .fail f) : afterClosing 0 u.rest.tokens = none ∨
          ∃ r rest, u.rest.tokens = r :: rest ∧ r.kind = .punctuator .rightBrace :=
      of_groupItem_eq_fail (fun _ _ _ htokens hl' hafter' =>
        ih u.rest.size (hsize ▸ hu) htokens hl' hafter' rfl) hf
    obtain ⟨vs, t, ht, -⟩ := exists_between_many_eq_ok skips_groupItem.consumes
      keepsDepth_groupItem hfail hs hl hafter
    exact ⟨t, by rw [braceGroup_eq, bind_apply, ht]; rfl⟩

/-- A group without its closing brace goes on to the end of the input. -/
theorem exists_openGroup_eq_ok {s : State} {l : Token} {ts : List Token}
    (hs : s.rest.tokens = l :: ts) (hl : l.kind = .punctuator .leftBrace) :
    ∃ t, openGroup s = .ok () t ∧ t.rest.tokens = [] := by
  obtain ⟨s₁, hopen, -⟩ := exists_token_eq_ok hs
  obtain ⟨vs, t, u, f, hvs, hu, hf⟩ := exists_many_eq_ok Skips.anyToken.consumes s₁
  refine ⟨t, ?_, ?_⟩
  · rw [hl] at hopen
    rw [openGroup, bind_apply, punctuator, hopen]
    dsimp only
    rw [bind_apply, hvs]
    rfl
  · -- any token fails only at the end
    rw [← hu]
    cases htokens : u.rest.tokens with
    | nil => rfl
    | cons token rest =>
      rw [anyToken, satisfy_apply_cons _ _ (a := .ofList rest) htokens] at hf
      cases hf

/-- An opening brace is skipped with everything up to its closing brace or to the end. -/
theorem exists_skipGroup_eq_ok {s : State} {l : Token} {ts : List Token}
    (hs : s.rest.tokens = l :: ts) (hl : l.kind = .punctuator .leftBrace) :
    ∃ t, skipGroup s = .ok () t := by
  show ∃ t, orElse braceGroup openGroup s = .ok () t
  unfold orElse
  split
  next => exact ⟨_, rfl⟩
  next f _ =>
    obtain ⟨t, ht, -⟩ := exists_openGroup_eq_ok (s := { s with pending := some f }) hs hl
    exact ⟨t, ht⟩

/-- At an opening brace, and at a token that is not excluded, something can be skipped. -/
theorem exists_unit_eq_ok {kinds : List TokenKind} {s : State} {token : Token} {ts : List Token}
    (hs : s.rest.tokens = token :: ts)
    (h : token.kind = .punctuator .leftBrace ∨ token.kind ∉ kinds) :
    ∃ t, orElse skipGroup (noneOf kinds) s = .ok () t := by
  rcases h with hl | hother
  · obtain ⟨t, ht⟩ := exists_skipGroup_eq_ok hs hl
    exact ⟨t, by rw [orElse, ht]⟩
  · unfold orElse
    split
    next => exact ⟨_, rfl⟩
    next f _ => exact exists_noneOf_eq_ok (s := { s with pending := some f }) hs hother

/-- A group that is skipped keeps the depth. -/
theorem keepsDepth_skipGroup : KeepsDepth skipGroup := by
  refine .orElse_of_fail keepsDepth_braceGroup fun s f v t hf ht => ?_
  obtain ⟨read, new, hread, hnew, ⟨us, hus⟩, -⟩ := spells_openGroup _ v t ht
  refine ⟨read, new, hread, hnew, fun depth => ?_⟩
  obtain ⟨l, read, rfl, hl, rfl⟩ := List.map_eq_cons_iff.1 hus
  dsimp only at hread
  rw [List.cons_append] at hread
  -- the group was not closed, so there is no end of any block, neither before it nor at the end
  have hnone : afterClosing 0 (read ++ t.rest.tokens) = none := by
    refine Option.eq_none_iff_forall_ne_some.2 fun after hafter => ?_
    obtain ⟨u, hu⟩ := exists_braceGroup_eq_ok hread hl hafter
    rw [hu] at hf
    cases hf
  obtain ⟨t', ht', hend⟩ := exists_openGroup_eq_ok (s := { s with pending := some f }) hread hl
  obtain ⟨-, rfl⟩ := Reply.ok.inj (ht.symm.trans ht')
  rw [hread, afterClosing_open hl, afterClosing_eq_none hnone, hend]
  rfl

/-- The first unit that is skipped keeps the depth. -/
theorem keepsDepth_firstUnit : KeepsDepth firstUnit := by
  refine .orElse_of_fail keepsDepth_skipGroup fun s f v t hf ht => ?_
  obtain ⟨read, new, hread, hnew, token, rfl, htoken, -⟩ := Ensures.noneOf _ _ v t ht
  refine ⟨[token], new, hread, hnew, fun depth => ?_⟩
  dsimp only at hread
  -- an opening brace would have been skipped with its group
  have hl : token.kind ≠ .punctuator .leftBrace := fun hl => by
    obtain ⟨u, hu⟩ := exists_skipGroup_eq_ok hread hl
    rw [hu] at hf
    cases hf
  rw [hread]
  exact afterClosing_other hl (by simpa using htoken)

/-- So does each further one. -/
theorem keepsDepth_furtherUnit : KeepsDepth furtherUnit :=
  .orElse keepsDepth_skipGroup (.noneOf (by decide) (by decide))

/-- So does a statement that is skipped. -/
theorem keepsDepth_statementError : KeepsDepth statementError := by
  refine .withSpan ?_
  refine .bind keepsDepth_firstUnit fun _ => ?_
  refine .bind (congruence_keepsDepth.many (q := furtherUnit) keepsDepth_furtherUnit) fun _ => ?_
  refine .bind congruence_keepsDepth.semicolon fun _ => ?_
  exact .pure _

/-- A statement that cannot be read is skipped unless the input is at its end or at a closing
brace. -/
theorem exists_statementError_eq_ok {s : State} {token : Token} {ts : List Token}
    (hs : s.rest.tokens = token :: ts) (hr : token.kind ≠ .punctuator .rightBrace) :
    ∃ v t, statementError s = .ok v t := by
  obtain ⟨t, ht⟩ : ∃ t, firstUnit s = .ok () t := exists_unit_eq_ok hs (.inr (by simpa using hr))
  refine exists_withSpan_eq_ok (exists_bind_eq_ok ⟨(), t, ht⟩ fun _ t => exists_bind_eq_ok ?_ ?_)
  · obtain ⟨vs, t, -, -, hvs, -⟩ := exists_many_eq_ok skips_furtherUnit.consumes t
    exact ⟨vs, t, hvs⟩
  · exact fun _ t => exists_bind_eq_ok (exists_optional_eq_ok _ t) fun _ u => ⟨Stmt.error, u, rfl⟩

end Groups

/-- Balanced tokens, in braces and in parentheses, keep the depth. -/
theorem keepsDepth_balanced : KeepsDepth balanced := by
  refine .fix fun inner hinner => ?_
  have hparentheses : KeepsDepth (between .leftParen .rightParen inner) :=
    congruence_keepsDepth.guarded.parentheses (q := inner) hinner
  have hother : KeepsDepth (both anyToken (noneOf [.punctuator .leftBrace, .punctuator .rightBrace,
      .punctuator .leftParen, .punctuator .rightParen])) := by
    apply Ensures.both Ensures.anyToken (Ensures.noneOf _)
    rintro _ _ rest new _ _ rest' new' heq ⟨token, rfl, rfl⟩ ⟨token', rfl, htoken, rfl⟩
    obtain ⟨rfl, -⟩ := List.cons.inj heq
    exact ⟨rfl, fun depth => afterClosing_other (fun hl => htoken (by simp [hl]))
      fun hr => htoken (by simp [hr])⟩
  have hitem := hinner.braces.orElse (hparentheses.orElse hother)
  exact (congruence_keepsDepth.many (q := inner >>= fun _ => pure ()) hitem).bind fun _ => .pure ()

/-- The grammar keeps the depth, recovery included. -/
theorem blockGuarded_keepsDepth :
    BlockGuarded (fun {_} p _ => KeepsDepth p) (fun {_} p _ => KeepsDepth p) where
  toGuarded := congruence_keepsDepth.guarded
  braces h := h.braces
  statementError h := h.recoverWith keepsDepth_statementError

end CrudLang.Grammar
