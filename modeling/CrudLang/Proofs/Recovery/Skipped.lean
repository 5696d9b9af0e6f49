import CrudLang.Proofs.Recovery.Bounds

/-!
# Skipping ends where it should

The skipping of a statement reads up to `statementLanding`, with the semicolon if one is there, and
notes nothing behind that place (`Grammar.skipped_of_statementError_eq_ok`). Where no semicolon was
read, the input is at its end, or a statement may begin there, or a block ends (`Input.Resumes`).
-/

namespace CrudLang

open Grammar CrudLang.Parser

/-- The input is at its end, or at a token other than a semicolon at which skipping ends. -/
def Input.Resumes (a : Input) : Prop :=
  ∀ t ts, a.tokens = t :: ts → Halts t.kind ∧ t.kind ≠ .punctuator .semicolon

namespace Stop

variable {W : Stop} {n : Nat}

theorem safe_braceGroup : W.Safe n Eq braceGroup := by
  have hinside : Inside (many groupItem) :=
    ⟨congruence_keepsDepth.many (q := groupItem) keepsDepth_groupItem, fun hbound =>
      .many (confined_groupItem (notes_bound hbound) _) skips_groupItem.consumes⟩
  have hbraces : W.Safe n Eq (between .leftBrace .rightBrace (many groupItem)) :=
    safe_braces (fun v => ⟨v, rfl⟩) hinside
  rw [braceGroup_eq]
  exact hbraces.bind fun _ _ _ => .pure rfl

/-- An opening brace that is next has no closing brace. -/
def Unclosed (a : Input) : Prop :=
  ∀ l ts, a.tokens = l :: ts → l.kind = .punctuator .leftBrace → afterClosing 0 ts = none

/-- A group that is not closed goes on to the end, and so does the skipping. -/
theorem safeOn_openGroup :
    W.SafeOn (fun a => (a.size < n ∧ W.Before a) ∧ Unclosed a) Eq openGroup where
  ok s v t hs hpending ht := by
    obtain ⟨read, -, hread, -, ⟨us, hus⟩, -⟩ := spells_openGroup s v t ht
    obtain ⟨l, ts, rfl, hl, -⟩ := List.map_eq_cons_iff.1 hus
    rw [List.cons_append] at hread
    -- the group is not closed, so it is read to the end, and the stop is there too
    obtain ⟨t', ht', hend⟩ := exists_openGroup_eq_ok hread hl
    obtain ⟨-, rfl⟩ := Reply.ok.inj (ht.symm.trans ht')
    have hstop : W.rest = [] := by
      rw [← show landing s.rest.tokens = W.rest from hs.1.2, hread,
        landing_open hl (hs.2 l _ hread hl)]
    have hzero : W.limit = 0 := by
      have hlimit := W.limit_le
      rw [hstop] at hlimit
      exact Nat.le_zero.1 hlimit
    refine ⟨⟨v, rfl⟩, ?_, ?_, fun f _ => ?_⟩
    · rw [← t.rest.size_eq, hend]
      exact Nat.zero_le _
    · rw [Before, hend, hstop, landing_nil]
    · exact hzero ▸ Nat.zero_le _
  fail s f hs hpending hf := by
    rcases token_cases (.punctuator .leftBrace) s with heq | ⟨l, ts, htokens, hl, -⟩
    · rw [openGroup, bind_apply, punctuator, heq] at hf
      obtain rfl := Reply.fail.inj hf
      exact hpending.note hs.1.2.limit_le _
    · obtain ⟨t, ht, -⟩ := exists_openGroup_eq_ok htokens hl
      cases ht.symm.trans hf

/-- A group of braces, closed or not. -/
theorem safe_skipGroup : W.Safe n Eq skipGroup := by
  refine safe_braceGroup.orElse_on (fun s f hs hf => ⟨hs, fun l ts htokens hl => ?_⟩)
    safeOn_openGroup
  refine Option.eq_none_iff_forall_ne_some.2 fun after hafter => ?_
  obtain ⟨t, ht⟩ := exists_braceGroup_eq_ok htokens hl hafter
  cases ht.symm.trans hf

theorem safe_furtherUnit : W.Safe n Eq furtherUnit := by
  refine safe_skipGroup.orElse ?_
  show W.Safe n Eq (noneOf statementBoundaries)
  unfold noneOf select
  exact .satisfy (fun k hk => if_pos hk) fun _ _ _ => rfl

end Stop

namespace Grammar

/-- Further units are skipped up to the place where skipping ends. -/
theorem landing_of_furtherUnits {s t : State} {vs : List Unit} {limit : Nat}
    (hlimit : limit ≤ (landing s.rest.tokens).length) (ht : many furtherUnit s = .ok vs t)
    (hpending : ∀ f, s.pending = some f → limit ≤ f.rest.size) :
    t.rest.tokens = landing s.rest.tokens ∧ ∀ f, t.pending = some f → limit ≤ f.rest.size := by
  let W : Stop := ⟨landing s.rest.tokens, limit, hlimit⟩
  have hconsumes : Consumes furtherUnit := skips_furtherUnit.consumes
  have hsafe : W.Safe (s.rest.size + 1) (List.Forall₂ Eq) (many furtherUnit) :=
    Stop.safe_furtherUnit.many hconsumes
  obtain ⟨-, -, hbefore, hnoted⟩ :=
    hsafe.ok s vs t ⟨Nat.lt_succ_self _, rfl⟩ hpending ht
  refine ⟨?_, hnoted⟩
  -- where no further unit can be skipped, skipping ends
  obtain ⟨vs', t', u, f, ht', hu, hf⟩ := exists_many_eq_ok hconsumes s
  obtain ⟨-, rfl⟩ := Reply.ok.inj (ht.symm.trans ht')
  refine Eq.trans ?_ hbefore
  cases htokens : t.rest.tokens with
  | nil => exact landing_nil.symm
  | cons r rest =>
    have hrefused : ¬ (r.kind = .punctuator .leftBrace ∨ r.kind ∉ statementBoundaries) := by
      intro h
      obtain ⟨w, hw⟩ : ∃ w, furtherUnit u = .ok () w := exists_unit_eq_ok (hu ▸ htokens) h
      cases hw.symm.trans hf
    rw [not_or, not_not] at hrefused
    exact (landing_of_halts ⟨hrefused.2, hrefused.1⟩).symm

theorem of_skipGroup_eq_ok {s t : State} {v : Unit} (ht : skipGroup s = .ok v t) :
    ∃ l ts, s.rest.tokens = l :: ts ∧ l.kind = .punctuator .leftBrace := by
  rcases of_orElse_eq_ok ht with hgroup | ⟨f, -, hopen⟩
  · rw [braceGroup_eq] at hgroup
    obtain ⟨vs, u, hvs, -⟩ := of_bind_eq_ok hgroup
    obtain ⟨l, ts, -, -, -, htokens, hl, -⟩ := exists_of_between_eq_ok hvs
    exact ⟨l, ts, htokens, hl⟩
  · obtain ⟨read, -, hread, -, ⟨us, hus⟩, -⟩ := spells_openGroup _ v t hopen
    obtain ⟨l, ts, rfl, hl, -⟩ := List.map_eq_cons_iff.1 hus
    exact ⟨l, _, hread, hl⟩

/-- The first unit of a statement does not change where the skipping of the statement ends. -/
theorem landing_of_firstUnit {s t : State} {v : Unit} (ht : firstUnit s = .ok v t)
    (hpending : s.pending = none) :
    landing t.rest.tokens = statementLanding s.rest.tokens ∧ UpToLanding s.rest t.pending := by
  let W : Stop := ⟨landing s.rest.tokens, _, length_statementLanding_le s.rest.tokens⟩
  have hat : s.rest.size < s.rest.size + 1 ∧ W.Before s.rest := ⟨Nat.lt_succ_self _, rfl⟩
  have hnone : W.Noted s.pending := hpending ▸ .none
  rcases of_orElse_eq_ok ht with hgroup | ⟨g, hg, hother⟩
  · obtain ⟨-, -, hbefore, hnoted⟩ := Stop.safe_skipGroup.ok s v t hat hnone hgroup
    obtain ⟨l, ts, htokens, hl⟩ := of_skipGroup_eq_ok hgroup
    refine ⟨Eq.trans hbefore ?_, hnoted⟩
    show landing s.rest.tokens = _
    rw [htokens, statementLanding_of_not_halts fun h => h.2 hl]
  · have hg' := Stop.safe_skipGroup.fail s g hat hnone hg
    have hother : satisfy (fun k => if k ∈ [.punctuator .rightBrace] then none else some ())
      .somethingElse { s with pending := some g } = .ok v t := hother
    obtain ⟨token, hread, hr, -⟩ := of_satisfy_eq_ok hother
    have htokens : s.rest.tokens = token :: t.rest.tokens := hread
    refine ⟨?_, fun f hf => ?_⟩
    · -- the token is skipped alone, so it opens no group
      have hl : token.kind ≠ .punctuator .leftBrace := fun hl => by
        obtain ⟨w, hw⟩ := exists_skipGroup_eq_ok htokens hl
        cases hw.symm.trans hg
      rw [htokens]
      by_cases hhalts : Halts token.kind
      · exact (statementLanding_of_halts hhalts fun hr' => by simp [hr'] at hr).symm
      · rw [statementLanding_of_not_halts hhalts, landing_skipped fun hmem => hhalts ⟨hmem, hl⟩]
    · obtain rfl := Option.some.inj ((pending_of_satisfy_eq_ok hother).symm.trans hf)
      exact hg'

/-- From `s` to `t`, a statement that cannot be read has been skipped: up to where skipping ends,
with the semicolon if one is there, and nothing is noted behind that. -/
structure Skipped (s t : State) : Prop where
  reported : t.reported = s.reported
  suffix : t.rest.tokens <:+ s.rest.tokens
  head : ∃ r rest, s.rest.tokens = r :: rest ∧ r.kind ≠ .punctuator .rightBrace
  landing : t.rest.tokens = statementLanding s.rest.tokens ∧ t.rest.Resumes ∨
    ∃ semi, statementLanding s.rest.tokens = semi :: t.rest.tokens ∧
      semi.kind = .punctuator .semicolon
  pending : UpToLanding s.rest t.pending

namespace Skipped

variable {s t : State}

/-- Skipping ends where it should, or one token further on. -/
theorem size_cases (h : Skipped s t) :
    t.rest.size = (statementLanding s.rest.tokens).length ∧ t.rest.Resumes ∨
      t.rest.size + 1 = (statementLanding s.rest.tokens).length := by
  rw [← t.rest.size_eq]
  refine h.landing.imp (And.imp_left (congrArg List.length)) ?_
  rintro ⟨semi, hsemi, -⟩
  rw [hsemi, List.length_cons]

/-- Skipping does not end before the place where it should. -/
theorem size_le (h : Skipped s t) : t.rest.size ≤ (statementLanding s.rest.tokens).length := by
  rcases h.size_cases with ⟨heq, -⟩ | heq <;> omega

theorem size_lt_or_resumes (h : Skipped s t) {k : Nat}
    (hk : (statementLanding s.rest.tokens).length ≤ k) :
    t.rest.size < k ∨ t.rest.size = k ∧ t.rest.Resumes := by
  rcases h.size_cases with ⟨heq, hresumes⟩ | heq
  · rcases Nat.lt_or_ge t.rest.size k with hless | hge
    · exact .inl hless
    · exact .inr ⟨by omega, hresumes⟩
  · exact .inl (by omega)

/-- What comes next would not be skipped less far. -/
theorem upToLanding (h : Skipped s t) : UpToLanding t.rest t.pending := fun f hf =>
  Nat.le_trans (Nat.le_trans (length_statementLanding_le_size t.rest) h.size_le) (h.pending f hf)

end Skipped

/-- At the place where skipping ends, a semicolon is skipped as well. -/
theorem skipped_semicolon {a : Input} {s t : State} {v : Option Unit}
    (hlanding : s.rest.tokens = statementLanding a.tokens)
    (hhalts : ∀ r rest, s.rest.tokens = r :: rest → Halts r.kind) (hnoted : UpToLanding a s.pending)
    (ht : optional (punctuator .semicolon) s = .ok v t) :
    (t.rest.tokens = statementLanding a.tokens ∧ t.rest.Resumes ∨
      ∃ semi, statementLanding a.tokens = semi :: t.rest.tokens ∧
        semi.kind = .punctuator .semicolon) ∧ UpToLanding a t.pending := by
  rcases of_optional_token_eq_ok ht with ⟨r, rest, htokens, hr, rfl⟩ | ⟨hne, rfl⟩
  · exact ⟨.inr ⟨r, hlanding.symm.trans htokens, hr⟩, hnoted⟩
  · refine ⟨.inl ⟨hlanding, fun r rest htokens => ⟨hhalts r rest htokens, hne r rest htokens⟩⟩,
      fun f hf => ?_⟩
    obtain rfl := Option.some.inj hf
    -- that there is no semicolon is noted here, unless what is pending is further on
    rcases Failure.rest_note s.pending s.rest (.token (.punctuator .semicolon)) with
      heq | ⟨g, hg, heq⟩ <;> rw [heq]
    · exact Nat.le_of_eq (by rw [← hlanding, s.rest.size_eq])
    · exact hnoted g hg

/-- Skipping a statement ends where it should. -/
theorem skipped_of_statementError_eq_ok {s t : State} {v : Stmt}
    (ht : statementError { s with pending := none } = .ok v t) : Skipped s t := by
  obtain ⟨read, new, hread, hnew, -, hsilent⟩ := spells_statementError _ v t ht
  obtain rfl := List.length_eq_zero_iff.1 hsilent
  have hhead := exists_head_of_statementError_eq_ok ht
  -- a first unit, further units and perhaps a semicolon
  obtain ⟨build, hbuild, rfl⟩ := of_withSpan_eq_ok ht
  obtain ⟨v, t₁, hfirst, hbuild⟩ := of_bind_eq_ok hbuild
  obtain ⟨vs, t₂, hfurther, hbuild⟩ := of_bind_eq_ok hbuild
  obtain ⟨semi, t₃, hsemi, hpure⟩ := of_bind_eq_ok hbuild
  obtain ⟨-, rfl⟩ := of_pure_eq_ok hpure
  obtain ⟨hlanding, hnoted⟩ := landing_of_firstUnit (s := { s with pending := none }) hfirst rfl
  obtain ⟨hrest, hnoted⟩ := landing_of_furtherUnits (Nat.le_of_eq (congrArg _ hlanding.symm))
    hfurther hnoted
  have hhalts (r : Token) (rest : List Token) (htokens : t₂.rest.tokens = r :: rest) :
      Halts r.kind := halts_of_landing (hrest.symm.trans htokens)
  rw [hlanding] at hrest
  obtain ⟨hends, hpending⟩ := skipped_semicolon hrest hhalts hnoted hsemi
  exact ⟨hnew.trans (List.append_nil _), ⟨read, hread.symm⟩, hhead, hends, hpending⟩

end Grammar

end CrudLang
