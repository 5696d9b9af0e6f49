import CrudLang.Proofs.Comparison.Layout
import CrudLang.Proofs.Detection.Sticking

/-!
# Going abreast

`Fork.Abreast m n V p q` is the form in which the grammar rules say that the readers of the two
lists of a `Fork` go abreast, until the first one has been behind the fork, and that the first one
sticks to having been there (`Fork.Sticks`). One rule for each combinator reduces it to the parts of
a rule.
-/

namespace CrudLang

open Grammar CrudLang.Parser

namespace Fork

variable (F : Fork)

/-- The readers go abreast where fewer than `n` tokens are left in the first list, and the first one
sticks to having been behind the fork. -/
structure Abreast (m : Manner) (n : Nat) {α : Type} (V : α → α → Prop) (p q : Parser α) : Prop
    extends F.Sticks m n (fun v => ∃ w, V v w) p where
  step : ∀ s t, s.rest.size < n → F.Places s.rest t.rest → s.reported = [] → t.reported = [] →
    F.Replies s.rest V (p s) (q t)

variable {F}

namespace Abreast

variable {m : Manner} {n k : Nat} {α β : Type} {V : α → α → Prop} {W : β → β → Prop}
variable {p q : Parser α}

/-- No place has fewer than no tokens left. -/
theorem zero : F.Abreast m 0 V p q where
  toSticks := .zero
  step _ _ hs := absurd hs (Nat.not_lt_zero _)

/-- What goes abreast on longer inputs does so on shorter ones. -/
theorem weaken (h : F.Abreast m (n + 1) V p q) : F.Abreast m n V p q where
  toSticks := h.toSticks.weaken
  step s t hs := h.step s t (Nat.lt_succ_of_lt hs)

/-- Less may be said of the values. -/
theorem mono {U : α → α → Prop} (h : F.Abreast m n V p q) (hV : ∀ v w, V v w → U v w) :
    F.Abreast m n U p q where
  toSticks := h.toSticks.mono fun v => Exists.imp fun w => hV v w
  step s t hs hplaces hquiet hquiet' := by
    have hreply := h.step s t hs hplaces hquiet hquiet'
    generalize p s = x at hreply
    generalize q t = y at hreply
    cases hreply with
    | ok hvw hplaces hs ht => exact .ok (hV _ _ hvw) hplaces hs ht
    | fail => exact .fail
    | reported hs ht => exact .reported hs ht
    | missed h => exact .missed h

/-- A plain reader is one of every manner. -/
theorem of_plain (h : F.Abreast .plain n V p q) : F.Abreast m n V p q where
  toSticks := h.toSticks.of_plain
  step := h.step

/-- Values that are alike, read without moving. -/
theorem pure {v w : α} (h : V v w) : F.Abreast m n V (Pure.pure v) (Pure.pure w) where
  toSticks := .pure ⟨w, h⟩
  step _ _ _ hplaces hs ht := .ok h hplaces hs ht

/-- The next token is the same in both lists, so both read it or neither does. -/
theorem satisfy {read? : TokenKind → Option α} {e : Expectation}
    (hread : read? (.punctuator .leftBrace) = none) (hV : ∀ k v, read? k = some v → V v v) :
    F.Abreast m n V (satisfy read? e) (satisfy read? e) where
  toSticks := .satisfy hread fun k v hv => ⟨v, hV k v hv⟩
  step s t _ hplaces hs ht := by
    obtain ⟨token, ts, us, hts, hus, hrest⟩ := hplaces.exists_head
    rw [satisfy_apply_cons read? e (a := .ofList ts) hts,
      satisfy_apply_cons read? e (a := .ofList us) hus]
    -- the token is the same in both lists, so both readers take it or neither does
    cases hv : read? token.kind with
    | none => exact .fail
    | some v =>
      -- behind the token the lists may come to their fork
      rcases hrest with hrest | hpast
      · exact .ok (hV _ v hv) hrest hs ht
      · exact .missed ⟨fun f hf => by simp [hs] at hf, fun _ => Past.beyond hpast⟩

section Sequences

variable {f g : α → Parser β}

/-- What stands behind related values sticks. -/
theorem sticks_of_exists (hfg : ∀ v w, V v w → F.Abreast m k W (f v) (g w)) (v : α)
    (hv : ∃ w, V v w) : F.Sticks m k (fun b => ∃ c, W b c) (f v) := by
  obtain ⟨w, hw⟩ := hv
  exact (hfg v w hw).toSticks

/-- One thing after the other, where the first one is plain and leaves less than `k` tokens. -/
theorem bind_below (h : F.Abreast .plain n V p q)
    (hsize : ∀ s v t, s.rest.size < n → p s = .ok v t → t.rest.size < k)
    (hfg : ∀ v w, V v w → F.Abreast m k W (f v) (g w)) :
    F.Abreast m n W (p >>= f) (q >>= g) where
  toSticks := h.toSticks.bind_below hsize (sticks_of_exists hfg)
  step s t hs hplaces hquiet hquiet' := by
    have hreply := h.step s t hs hplaces hquiet hquiet'
    generalize hv : p s = x at hreply
    generalize hw : q t = y at hreply
    cases hreply with
    -- the first reader has been behind the fork, and what follows sticks to that
    | missed hmissed =>
      exact .missed (h.toSticks.missed_bind_below hsize (sticks_of_exists hfg) hs hplaces.suffix
        hquiet (hv ▸ hmissed))
    | fail =>
      rw [bind_apply, bind_apply, hv, hw]
      exact .fail
    -- a plain reader reports nothing
    | reported hs' => exact absurd ((h.forward s _ _ hs hv).2.quiet hquiet) hs'
    | @ok v w s' t' hvw hplaces' hs' ht' =>
      -- both have read the first part, and are abreast in front of the second
      have hmoves := (h.forward s v s' hs hv).2
      have hnext := (hfg v w hvw).step s' t' (hsize s v s' hs hv) hplaces' hs' ht'
      rw [bind_apply, bind_apply, hv, hw]
      dsimp only
      generalize f v s' = x at hnext
      generalize g w t' = y at hnext
      cases hnext with
      | ok hvw hplaces hs ht => exact .ok hvw hplaces hs ht
      | fail => exact .fail
      | reported hs ht => exact .reported hs ht
      | missed hmissed =>
        refine .missed ?_
        -- what the second part noted behind the fork stands, since the first reported nothing
        cases x with
        | ok b u => exact hmissed
        | fail e => exact ⟨hmoves.clear hmissed.1, hmissed.2⟩

/-- One thing after the other, where the second one always succeeds. -/
theorem bind_total_below (h : F.Abreast m n V p q)
    (hsize : ∀ s v t, s.rest.size < n → p s = .ok v t → t.rest.size < k)
    (hfg : ∀ v w, V v w → F.Abreast m k W (f v) (g w)) (hf : ∀ v, Total (f v))
    (hg : ∀ w, Total (g w)) (hext : ∀ w, Extends (g w)) :
    F.Abreast m n W (p >>= f) (q >>= g) where
  toSticks := h.toSticks.bind_total_below hsize (sticks_of_exists hfg) hf
  step s t hs hplaces hquiet hquiet' := by
    have hreply := h.step s t hs hplaces hquiet hquiet'
    generalize hv : p s = x at hreply
    generalize hw : q t = y at hreply
    cases hreply with
    | missed hmissed =>
      exact .missed (h.toSticks.missed_bind_total_below hsize (sticks_of_exists hfg) hf hs
        hplaces.suffix (hv ▸ hmissed))
    | fail =>
      rw [bind_apply, bind_apply, hv, hw]
      exact .fail
    | @reported v w s' t' hs' ht' =>
      -- the first parts have reported failures, and the second parts, which always succeed,
      -- cannot take these back
      obtain ⟨⟨w', hw'⟩, -⟩ := h.forward s v s' hs hv
      obtain ⟨b, u, hu⟩ := hf v s'
      obtain ⟨c, x, hx⟩ := hg w t'
      have hmoves := ((hfg v w' hw').forward s' b u (hsize s v s' hs hv) hu).2
      have hmoves' : Moves .free t' x := .of_extends (hext w) (by simp) hx
      rw [bind_apply, bind_apply, hv, hw]
      dsimp only
      rw [hu, hx]
      exact .reported (hmoves.ne_nil hs') (hmoves'.ne_nil ht')
    | @ok v w s' t' hvw hplaces' hs' ht' =>
      -- the second reader cannot fail, so its replies need no case for a failure
      have hnext := (hfg v w hvw).step s' t' (hsize s v s' hs hv) hplaces' hs' ht'
      obtain ⟨b, u, hu⟩ := hf v s'
      rw [bind_apply, bind_apply, hv, hw]
      dsimp only
      rw [hu] at hnext ⊢
      generalize g w t' = y at hnext
      cases hnext with
      | ok hvw hplaces hs ht => exact .ok hvw hplaces hs ht
      | reported hs ht => exact .reported hs ht
      | missed hmissed => exact .missed hmissed

/-- A plain reader and another one behind it. -/
theorem bind (h : F.Abreast .plain n V p q) (hfg : ∀ v w, V v w → F.Abreast m n W (f v) (g w)) :
    F.Abreast m n W (p >>= f) (q >>= g) :=
  h.bind_below (fun _ _ _ hs ht => h.size_lt hs ht) hfg

/-- Behind a reader that may report failures, one that always succeeds. -/
theorem bind_total (h : F.Abreast m n V p q) (hfg : ∀ v w, V v w → F.Abreast m n W (f v) (g w))
    (hf : ∀ v, Total (f v)) (hg : ∀ w, Total (g w)) (hext : ∀ w, Extends (g w)) :
    F.Abreast m n W (p >>= f) (q >>= g) :=
  h.bind_total_below (fun _ _ _ hs ht => h.size_lt hs ht) hfg hf hg hext

end Sequences

/-- Values that are alike are changed into values that are. -/
theorem map {f g : α → β} (h : F.Abreast m n V p q) (hfg : ∀ v w, V v w → W (f v) (g w)) :
    F.Abreast m n W (f <$> p) (g <$> q) :=
  h.bind_total (fun v w hvw => .pure (hfg v w hvw)) (fun _ => .pure _) (fun _ => .pure _)
    fun _ => .pure _

/-- The second alternatives start where the first ones did. -/
theorem orElse {p' q' : Parser α} (h : F.Abreast m n V p q) (h' : F.Abreast m n V p' q') :
    F.Abreast m n V (orElse p p') (orElse q q') where
  toSticks := h.toSticks.orElse h'.toSticks
  step s t hs hplaces hquiet hquiet' := by
    have hreply := h.step s t hs hplaces hquiet hquiet'
    generalize hv : p s = x at hreply
    generalize hw : q t = y at hreply
    cases hreply with
    | missed hmissed =>
      exact .missed (h'.toSticks.missed_orElse hs hplaces.suffix hquiet (hv ▸ hmissed))
    | ok hvw hplaces hs ht =>
      rw [Parser.orElse, Parser.orElse, hv, hw]
      exact .ok hvw hplaces hs ht
    | reported hs ht =>
      rw [Parser.orElse, Parser.orElse, hv, hw]
      exact .reported hs ht
    -- both try the second alternative, each with the failure of its first pending
    | @fail f g =>
      rw [Parser.orElse, Parser.orElse, hv, hw]
      exact h'.step { s with pending := some f } { t with pending := some g } hs hplaces hquiet
        hquiet'

/-- A choice goes abreast if each of the alternatives does. -/
theorem choice {rest : List (Parser α)} (h : ∀ q ∈ p :: rest, F.Abreast m n V q q) :
    F.Abreast m n V (choice p rest) (choice p rest) :=
  choice_of_forall (Q := fun p => F.Abreast m n V p p) (fun hp hq => hp.orElse hq) h

/-- What is built goes abreast, at spans that need not be the same. -/
theorem withSpan {p q : Parser (Span → α)}
    (h : F.Abreast m n (Likeness.upToSpans.built V) p q) :
    F.Abreast m n V (withSpan p) (withSpan q) where
  toSticks := .withSpan <| h.toSticks.mono fun _ => Likeness.built.exists
  step s t hs hplaces hquiet hquiet' := by
    have hreply := h.step s t hs hplaces hquiet hquiet'
    generalize hv : p s = x at hreply
    generalize hw : q t = y at hreply
    cases hreply with
    | missed hmissed => exact .missed (Sticks.missed_withSpan (hv ▸ hmissed))
    | ok hvw hplaces hs ht =>
      rw [Parser.withSpan, Parser.withSpan, hv, hw]
      exact .ok (hvw _ _ trivial) hplaces hs ht
    | reported hs ht =>
      rw [Parser.withSpan, Parser.withSpan, hv, hw]
      exact .reported hs ht
    | fail =>
      rw [Parser.withSpan, Parser.withSpan, hv, hw]
      exact .fail

/-- A label, if no failure of the parser's own can be reported under it. -/
theorem labelled {c : Construct} (hm : m ≠ .free) (h : F.Abreast m n V p q) :
    F.Abreast m n V (labelled c p) (labelled c q) where
  toSticks := h.toSticks.labelled hm
  step s t hs hplaces hquiet hquiet' := by
    -- the rule itself begins with nothing pending
    have hreply := h.step { s with pending := none } { t with pending := none } hs hplaces hquiet
      hquiet'
    generalize hv : p { s with pending := none } = x at hreply
    generalize hw : q { t with pending := none } = y at hreply
    cases hreply with
    | missed hmissed => exact .missed (Sticks.missed_labelled (hv ▸ hmissed))
    | ok hvw hplaces hs ht =>
      rw [labelled_eq_ok hv, labelled_eq_ok hw]
      exact .ok hvw hplaces hs ht
    | reported hs ht =>
      rw [labelled_eq_ok hv, labelled_eq_ok hw]
      exact .reported hs ht
    | fail =>
      rw [Parser.labelled, Parser.labelled, hv, hw]
      exact .fail

/-- Repetitions of a plain reader. -/
theorem many_plain (hconsumes : Consumes p) (h : F.Abreast .plain n V p p) :
    F.Abreast .plain n (List.Forall₂ V) (many p) (many p) := by
  induction n with
  | zero => exact .zero
  | succ n ih =>
    -- a round leaves less input for the rounds behind it
    rw [many_eq hconsumes]
    refine orElse (h.bind_below (k := n) (fun s v t hs hv => ?_) fun v w hvw => ?_) (pure .nil)
    · exact Nat.lt_of_lt_of_le (hconsumes s v t hv) (Nat.le_of_lt_succ hs)
    · refine (ih h.weaken).bind fun _ _ hrest => ?_
      exact .pure (.cons hvw hrest)

/-- Repetitions of a reader that may report failures. -/
theorem many (hconsumes : Consumes p) (hext : Extends p) (h : F.Abreast m n V p p) :
    F.Abreast m n (List.Forall₂ V) (many p) (many p) := by
  have htotal (v : α) : Total (do let others ← Parser.many p; Pure.pure (v :: others)) :=
    (Total.many hconsumes).bind fun _ => .pure _
  induction n with
  | zero => exact .zero
  | succ n ih =>
    -- a round may report failures, and the rounds behind it always succeed
    rw [many_eq hconsumes]
    refine orElse (h.bind_total_below (k := n) (fun s v t hs hv => ?_) (fun v w hvw => ?_)
      htotal htotal fun _ => hext.many.bind fun _ => .pure _) (pure .nil)
    · exact Nat.lt_of_lt_of_le (hconsumes s v t hv) (Nat.le_of_lt_succ hs)
    · exact (ih h.weaken).map fun _ _ hrest => .cons hvw hrest

/-- A failure that is recovered from is reported. -/
theorem recoverWith {r : Parser α} {C : TokenKind → Prop} (hV : ∀ v, ∃ w, V v w)
    (hr : Spells r fun _ _ _ n => n = 0) (hdecides : r.DecidesBy C) (h : F.Abreast m n V p q) :
    F.Abreast .free n V (recoverWith p r) (recoverWith q r) where
  toSticks := h.toSticks.recoverWith hr hV
  step s t hs hplaces hquiet hquiet' := by
    have hreply := h.step s t hs hplaces hquiet hquiet'
    generalize hv : p s = x at hreply
    generalize hw : q t = y at hreply
    cases hreply with
    | missed hmissed => exact .missed (Sticks.missed_recoverWith hr hquiet (hv ▸ hmissed))
    | ok hvw hplaces hs ht =>
      rw [Parser.recoverWith, Parser.recoverWith, hv, hw]
      exact .ok hvw hplaces hs ht
    | reported hs ht =>
      rw [Parser.recoverWith, Parser.recoverWith, hv, hw]
      exact .reported hs ht
    | fail =>
      -- the recovery succeeds in both lists or in none
      have hiff := Places.decides_iff (s := { s with pending := none })
        (t := { t with pending := none }) hplaces hdecides
      rw [Parser.recoverWith, Parser.recoverWith, hv, hw]
      dsimp only
      cases hu : r { s with pending := none } with
      | ok v u =>
        obtain ⟨w, x, hx⟩ := hiff.1 ⟨v, u, hu⟩
        rw [hx]
        exact .reported (by simp) (by simp)
      | fail e =>
        cases hx : r { t with pending := none } with
        | ok w x =>
          obtain ⟨v, u, hu'⟩ := hiff.2 ⟨w, x, hx⟩
          cases hu.symm.trans hu'
        | fail e => exact .fail

section Braces

variable (hp : p.ReachesClosing) (h : F.Abreast .free n V p p)
include hp h

/-- Both readers are before the same opening brace. -/
theorem replies_braces {s t : State} {l : Token} {ts us : List Token} (hs : s.rest.size < n + 1)
    (hplaces : F.Places s.rest t.rest) (hquiet : s.reported = []) (hquiet' : t.reported = [])
    (hts : s.rest.tokens = l :: ts) (hus : t.rest.tokens = l :: us)
    (hl : l.kind = .punctuator .leftBrace) (hinside : F.Places (.ofList ts) (.ofList us)) :
    F.Replies s.rest V (between .leftBrace .rightBrace p s)
      (between .leftBrace .rightBrace p t) := by
  obtain ⟨after, hafter⟩ := F.regular.closed l ts (hts ▸ hplaces.suffix) hl
  obtain ⟨after', hafter'⟩ := F.closed l us (hus ▸ hplaces.suffix_right) hl
  obtain ⟨v, s', r, vs, hv, hvs, heq⟩ := hp.exists_eq_ok hts hl hafter
  obtain ⟨w, t', r', ws, hw, hws, heq'⟩ := hp.exists_eq_ok hus hl hafter'
  -- the input behind the opening brace is shorter, so the readers go abreast there
  have hinner := h.step ⟨.ofList ts, s.pending, s.reported⟩ ⟨.ofList us, t.pending, t.reported⟩
    (size_behind_lt hs hts) hinside hquiet hquiet'
  rw [hv, hw] at hinner
  rw [heq, heq']
  cases hinner with
  | ok hvw hclosing hs' ht' =>
    -- both readers are before the same closing brace
    obtain ⟨r'', ts', us', hts', hus', hbehind⟩ := hclosing.exists_head
    obtain ⟨rfl, rfl⟩ := List.cons.inj (hvs.symm.trans hts')
    obtain ⟨rfl, rfl⟩ := List.cons.inj (hws.symm.trans hus')
    rcases hbehind with hbehind | hpast
    · exact .ok hvw hbehind hs' ht'
    · exact .missed ⟨fun f hf => by simp [hs'] at hf, fun _ => Past.beyond hpast⟩
  | reported hs' ht' => exact .reported hs' ht'
  | missed hmissed =>
    refine .missed (hmissed.of_leading (t := ⟨.ofList vs, s'.pending, s'.reported⟩) ?_ rfl rfl)
    rw [hvs]
    exact List.suffix_cons r vs

/-- A pair of braces, if what stands between them is read up to the closing brace. -/
theorem braces (hext : Extends p) (hV : ∀ v, ∃ w, V v w) :
    F.Abreast .nested (n + 1) V (between .leftBrace .rightBrace p)
      (between .leftBrace .rightBrace p) where
  toSticks := h.toSticks.braces hp hext hV
  step s t hs hplaces hquiet hquiet' := by
    obtain ⟨l, ts, us, hts, hus, hbehind⟩ := hplaces.exists_head
    -- the first token is the same, and the braces are read in both lists or in none
    by_cases hl : l.kind = .punctuator .leftBrace
    · rcases hbehind with hinside | hpast
      · exact replies_braces hp h hs hplaces hquiet hquiet' hts hus hl hinside
      · exact .missed (h.toSticks.missed_braces hp hs hplaces.suffix hquiet hts hl hpast)
    · have hother {u : State} {vs : List Token} (hvs : u.rest.tokens = l :: vs) :
          between .leftBrace .rightBrace p u =
            .fail (.note u.pending u.rest (.token (.punctuator .leftBrace))) :=
        token_bind_eq_fail fun l' vs' hvs' => (List.cons.inj (hvs.symm.trans hvs')).1 ▸ hl
      rw [hother hts, hother hus]
      exact .fail

end Braces

end Abreast

end Fork

end CrudLang
