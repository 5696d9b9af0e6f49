import CrudLang.Proofs.Detection.Fork

/-!
# Not forgetting that one has been behind the fork

`Fork.Sticks m n P p` is about the reader of the first list of a `Fork` alone: if it has been behind
the fork, it does not forget that, and what it reports is behind the fork. There is one rule for
each combinator. Each of them rests on how the combinator treats a part that has been behind the
fork (`missed_bind_below`, `missed_orElse` and so on).

A reader that may report a failure must not fail afterwards, for then its report would be lost; so
there are two rules for sequences, as for `Parser.Foresees`. What stands between braces may report
failures of its own, since it is read up to the closing brace (`Fork.Sticks.braces`).
-/

namespace CrudLang

open Grammar CrudLang.Parser

/-- Behind every opening brace that has its closing brace, the parser reads up to the latter. -/
def Parser.ReachesClosing {α : Type} (p : Parser α) : Prop :=
  ∀ s l ts after, s.rest.tokens = l :: ts → l.kind = .punctuator .leftBrace →
    afterClosing 0 ts = some after → ∃ v t, between .leftBrace .rightBrace p s = .ok v t

/-- Such a parser ends right before the closing brace. -/
theorem Parser.ReachesClosing.exists_eq_ok {α : Type} {p : Parser α} (hp : p.ReachesClosing)
    {s : State} {l : Token} {ts after : List Token} (htokens : s.rest.tokens = l :: ts)
    (hl : l.kind = .punctuator .leftBrace) (hafter : afterClosing 0 ts = some after) :
    ∃ v t r us, p ⟨.ofList ts, s.pending, s.reported⟩ = .ok v t ∧ t.rest.tokens = r :: us ∧
      between .leftBrace .rightBrace p s = .ok v ⟨.ofList us, t.pending, t.reported⟩ := by
  obtain ⟨v, u, hu⟩ := hp s l ts after htokens hl hafter
  obtain ⟨l', ts', t, r, us, htokens', -, ht, hrest, -, rfl⟩ := exists_of_between_eq_ok hu
  obtain ⟨rfl, rfl⟩ := List.cons.inj (htokens.symm.trans htokens')
  exact ⟨v, t, r, us, ht, hrest, hu⟩

namespace Fork

variable (F : Fork)

/-- Where fewer than `n` tokens are left, the reader of the first list does not forget that it has
been behind the fork. If no brace is opened before the fork, what it reports is behind the fork,
unless it may report failures of its own. -/
structure Sticks (m : Manner) (n : Nat) {α : Type} (P : α → Prop) (p : Parser α) : Prop where
  stick : ∀ s, s.rest.size < n → s.rest.tokens <:+ F.first → s.reported = [] → F.Beyond s →
    F.Missed s.rest (p s)
  inside : ∀ s v t f, s.rest.size < n → s.rest.tokens <:+ F.first → s.reported = [] →
    F.Clear s.rest → p s = .ok v t → t.reported.head? = some f → m = .free ∨ F.Past f.rest
  forward : ∀ s v t, s.rest.size < n → p s = .ok v t → P v ∧ Moves m s t

variable {F}

namespace Sticks

variable {m : Manner} {n k : Nat} {α β : Type} {P : α → Prop} {Q : β → Prop} {p : Parser α}
variable {s : State}

/-- Where fewer than no tokens are left there is nothing to show. -/
theorem zero : F.Sticks m 0 P p where
  stick _ hs := absurd hs (Nat.not_lt_zero _)
  inside _ _ _ _ hs := absurd hs (Nat.not_lt_zero _)
  forward _ _ _ hs := absurd hs (Nat.not_lt_zero _)

/-- What holds of longer inputs holds of shorter ones. -/
theorem weaken (h : F.Sticks m (n + 1) P p) : F.Sticks m n P p where
  stick s hs := h.stick s (Nat.lt_succ_of_lt hs)
  inside s v t f hs := h.inside s v t f (Nat.lt_succ_of_lt hs)
  forward s v t hs := h.forward s v t (Nat.lt_succ_of_lt hs)

/-- Less may be asked of the values. -/
theorem mono {R : α → Prop} (h : F.Sticks m n P p) (hP : ∀ v, P v → R v) : F.Sticks m n R p where
  stick := h.stick
  inside := h.inside
  forward s v t hs ht := (h.forward s v t hs ht).imp_left (hP v)

/-- A plain reader is one of every manner. -/
theorem of_plain (h : F.Sticks .plain n P p) : F.Sticks m n P p where
  stick := h.stick
  inside s v t f hs hsuffix hquiet hclear ht hf := by
    rw [(h.forward s v t hs ht).2.quiet hquiet] at hf
    cases hf
  forward s v t hs ht := (h.forward s v t hs ht).imp_right Moves.of_plain

/-- A reader leaves no more tokens than there were. -/
theorem size_lt (h : F.Sticks m n P p) {t : State} {v : α} (hs : s.rest.size < n)
    (ht : p s = .ok v t) : t.rest.size < n := by
  have hle := (h.forward s v t hs ht).2.suffix.length_le
  rw [t.rest.size_eq, s.rest.size_eq] at hle
  exact Nat.lt_of_le_of_lt hle hs

/-- A reader that reads nothing has been where it was before. -/
theorem pure {v : α} (h : P v) : F.Sticks m n P (Pure.pure v) where
  stick s _ _ hs hbeyond := ⟨fun f hf => by simp [hs] at hf, fun _ => hbeyond⟩
  inside s v' t f _ _ hs _ ht hf := by
    obtain ⟨-, rfl⟩ := of_pure_eq_ok ht
    simp [hs] at hf
  forward s v' t _ ht := by
    obtain ⟨rfl, rfl⟩ := of_pure_eq_ok ht
    exact ⟨h, .refl s⟩

/-- A reader of one token that is not an opening brace. -/
theorem satisfy {read? : TokenKind → Option α} {e : Expectation}
    (hread : read? (.punctuator .leftBrace) = none) (hP : ∀ k v, read? k = some v → P v) :
    F.Sticks m n P (satisfy read? e) where
  stick s _ _ hs hbeyond := by
    cases ht : Parser.satisfy read? e s with
    | fail f =>
      rw [of_satisfy_eq_fail ht]
      exact hbeyond.missed_note e
    | ok v t =>
      obtain ⟨token, htokens, -, hreported⟩ := of_satisfy_eq_ok ht
      have hmissed : F.Missed s.rest (.ok v s) :=
        ⟨fun f hf => by simp [hs] at hf, fun _ => hbeyond⟩
      exact hmissed.of_leading (htokens ▸ List.suffix_cons token _)
        (pending_of_satisfy_eq_ok ht) hreported
  inside s v t f _ _ hs _ ht hf := by
    obtain ⟨-, -, -, hreported⟩ := of_satisfy_eq_ok ht
    simp [hreported, hs] at hf
  forward s v t _ ht := by
    obtain ⟨token, htokens, hv, hreported⟩ := of_satisfy_eq_ok ht
    refine ⟨hP _ v hv, [token], [], htokens, by rw [hreported, List.append_nil],
      fun _ => ⟨rfl, fun k hk => ?_⟩⟩
    obtain rfl := List.mem_singleton.1 hk
    -- an opening brace would have been refused
    rintro hbrace
    rw [hbrace, hread] at hv
    cases hv

section Sequences

variable {f : α → Parser β}

/-- A plain reader that has been behind the fork, and something behind it. -/
theorem missed_bind_below (h : F.Sticks .plain n P p)
    (hsize : ∀ s v t, s.rest.size < n → p s = .ok v t → t.rest.size < k)
    (hf : ∀ v, P v → F.Sticks m k Q (f v)) (hs : s.rest.size < n)
    (hsuffix : s.rest.tokens <:+ F.first) (hquiet : s.reported = [])
    (hmissed : F.Missed s.rest (p s)) : F.Missed s.rest ((p >>= f) s) := by
  rw [bind_apply]
  cases hv : p s with
  | fail e =>
    rw [hv] at hmissed
    exact hmissed
  | ok v t =>
    rw [hv] at hmissed
    -- a plain reader reports nothing, so the second part begins beyond the fork
    obtain ⟨hvalue, hmoves⟩ := h.forward s v t hs hv
    have ht := hmoves.quiet hquiet
    have hnext := (hf v hvalue).stick t (hsize s v t hs hv) (hmoves.suffix.trans hsuffix) ht
      (hmissed.2 ht)
    dsimp only
    cases hu : f v t with
    | ok b u =>
      rw [hu] at hnext
      exact hnext
    | fail e =>
      rw [hu] at hnext
      exact ⟨hmoves.clear hnext.1, hnext.2⟩

/-- One thing after the other, where the first one is plain and leaves less than `k` tokens. -/
theorem bind_below (h : F.Sticks .plain n P p)
    (hsize : ∀ s v t, s.rest.size < n → p s = .ok v t → t.rest.size < k)
    (hf : ∀ v, P v → F.Sticks m k Q (f v)) : F.Sticks m n Q (p >>= f) where
  stick s hs hsuffix hquiet hbeyond := missed_bind_below h hsize hf hs hsuffix hquiet
    (h.stick s hs hsuffix hquiet hbeyond)
  inside s b u e hs hsuffix hquiet hclear hu he := by
    obtain ⟨v, t, hv, hb⟩ := of_bind_eq_ok hu
    obtain ⟨hvalue, hmoves⟩ := h.forward s v t hs hv
    exact (hf v hvalue).inside t b u e (hsize s v t hs hv) (hmoves.suffix.trans hsuffix)
      (hmoves.quiet hquiet) (hclear.suffix hmoves.suffix) hb he
  forward s b u hs hu := by
    obtain ⟨v, t, hv, hb⟩ := of_bind_eq_ok hu
    obtain ⟨hvalue, hmoves⟩ := h.forward s v t hs hv
    obtain ⟨hvalue', hmoves'⟩ := (hf v hvalue).forward t b u (hsize s v t hs hv) hb
    exact ⟨hvalue', hmoves.of_plain.trans hmoves'⟩

/-- A reader that has been behind the fork, and behind it something that always succeeds. -/
theorem missed_bind_total_below (h : F.Sticks m n P p)
    (hsize : ∀ s v t, s.rest.size < n → p s = .ok v t → t.rest.size < k)
    (hf : ∀ v, P v → F.Sticks m k Q (f v)) (htotal : ∀ v, Total (f v)) (hs : s.rest.size < n)
    (hsuffix : s.rest.tokens <:+ F.first) (hmissed : F.Missed s.rest (p s)) :
    F.Missed s.rest ((p >>= f) s) := by
  rw [bind_apply]
  cases hv : p s with
  | fail e =>
    rw [hv] at hmissed
    exact hmissed
  | ok v t =>
    rw [hv] at hmissed
    obtain ⟨hvalue, hmoves⟩ := h.forward s v t hs hv
    obtain ⟨b, u, hu⟩ := htotal v t
    dsimp only
    rw [hu]
    -- where a failure has been reported, it stays at the head whatever is read behind it
    by_cases ht : t.reported = []
    · have hnext := (hf v hvalue).stick t (hsize s v t hs hv) (hmoves.suffix.trans hsuffix) ht
        (hmissed.2 ht)
      rw [hu] at hnext
      exact hnext
    · have hmoves' := ((hf v hvalue).forward t b u (hsize s v t hs hv) hu).2
      refine ⟨fun e he => hmissed.1 e ?_, fun hquiet => absurd hquiet (hmoves'.ne_nil ht)⟩
      rwa [← hmoves'.head?_eq ht]

/-- One thing after the other, where the second one always succeeds. -/
theorem bind_total_below (h : F.Sticks m n P p)
    (hsize : ∀ s v t, s.rest.size < n → p s = .ok v t → t.rest.size < k)
    (hf : ∀ v, P v → F.Sticks m k Q (f v)) (htotal : ∀ v, Total (f v)) :
    F.Sticks m n Q (p >>= f) where
  stick s hs hsuffix hquiet hbeyond := missed_bind_total_below h hsize hf htotal hs hsuffix
    (h.stick s hs hsuffix hquiet hbeyond)
  inside s b u e hs hsuffix hquiet hclear hu he := by
    obtain ⟨v, t, hv, hb⟩ := of_bind_eq_ok hu
    obtain ⟨hvalue, hmoves⟩ := h.forward s v t hs hv
    -- the first report is that of the second part, unless one was there before
    by_cases ht : t.reported = []
    · exact (hf v hvalue).inside t b u e (hsize s v t hs hv) (hmoves.suffix.trans hsuffix) ht
        (hclear.suffix hmoves.suffix) hb he
    · have hmoves' := ((hf v hvalue).forward t b u (hsize s v t hs hv) hb).2
      exact h.inside s v t e hs hsuffix hquiet hclear hv ((hmoves'.head?_eq ht).symm.trans he)
  forward s b u hs hu := by
    obtain ⟨v, t, hv, hb⟩ := of_bind_eq_ok hu
    obtain ⟨hvalue, hmoves⟩ := h.forward s v t hs hv
    obtain ⟨hvalue', hmoves'⟩ := (hf v hvalue).forward t b u (hsize s v t hs hv) hb
    exact ⟨hvalue', hmoves.trans hmoves'⟩

end Sequences

/-- The second parser of a choice takes up where the first one has failed. -/
theorem missed_orElse {q : Parser α} (h : F.Sticks m n P q) (hs : s.rest.size < n)
    (hsuffix : s.rest.tokens <:+ F.first) (hquiet : s.reported = [])
    (hmissed : F.Missed s.rest (p s)) : F.Missed s.rest (orElse p q s) := by
  unfold Parser.orElse
  cases hv : p s with
  | ok v t =>
    rw [hv] at hmissed
    exact hmissed
  | fail e =>
    rw [hv] at hmissed
    exact h.stick { s with pending := some e } hs hsuffix hquiet
      ⟨hmissed.1, .inr ⟨e, rfl, hmissed.2⟩⟩

/-- One of two readers. -/
theorem orElse {q : Parser α} (h : F.Sticks m n P p) (h' : F.Sticks m n P q) :
    F.Sticks m n P (orElse p q) where
  stick s hs hsuffix hquiet hbeyond := missed_orElse h' hs hsuffix hquiet
    (h.stick s hs hsuffix hquiet hbeyond)
  inside s v u e hs hsuffix hquiet hclear hu he := by
    rcases of_orElse_eq_ok hu with hv | ⟨f, -, hv⟩
    · exact h.inside s v u e hs hsuffix hquiet hclear hv he
    · exact h'.inside { s with pending := some f } v u e hs hsuffix hquiet hclear hv he
  forward s v u hs hu := by
    rcases of_orElse_eq_ok hu with hv | ⟨f, -, hv⟩
    · exact h.forward s v u hs hv
    · exact h'.forward { s with pending := some f } v u hs hv

/-- The span of what was read does not matter. -/
theorem missed_withSpan {p : Parser (Span → α)} (hmissed : F.Missed s.rest (p s)) :
    F.Missed s.rest (withSpan p s) := by
  unfold Parser.withSpan
  cases hv : p s with
  | ok v t =>
    rw [hv] at hmissed
    exact hmissed
  | fail e =>
    rw [hv] at hmissed
    exact hmissed

theorem withSpan {p : Parser (Span → α)}
    (h : F.Sticks m n (fun build => ∀ span, P (build span)) p) :
    F.Sticks m n P (withSpan p) where
  stick s hs hsuffix hquiet hbeyond := missed_withSpan (h.stick s hs hsuffix hquiet hbeyond)
  inside s v u e hs hsuffix hquiet hclear hu he := by
    obtain ⟨build, hbuild, -⟩ := of_withSpan_eq_ok hu
    exact h.inside s build u e hs hsuffix hquiet hclear hbuild he
  forward s v u hs hu := by
    obtain ⟨build, hbuild, rfl⟩ := of_withSpan_eq_ok hu
    exact (h.forward s build u hs hbuild).imp_left fun hvalue => hvalue _

section Labels

variable {c : Construct}

/-- A label does not change where a failure is. -/
theorem missed_labelled (hmissed : F.Missed s.rest (p { s with pending := none })) :
    F.Missed s.rest (labelled c p s) := by
  cases hv : p { s with pending := none } with
  | fail e =>
    rw [hv] at hmissed
    rw [Parser.labelled, hv]
    refine ⟨hmissed.1, Nat.le_trans (Failure.size_join_le _ _) ?_⟩
    rw [Failure.rest_summarize]
    exact hmissed.2
  | ok v t =>
    rw [hv] at hmissed
    rw [labelled_eq_ok hv]
    refine ⟨hmissed.1, fun hquiet => ⟨(hmissed.2 hquiet).clear, ?_⟩⟩
    refine (hmissed.2 hquiet).past.imp_right ?_
    rintro ⟨f, hf, hpast⟩
    rw [hf]
    -- the failures joined behind the construct are at least as far on as the one inside
    refine ⟨_, rfl, Nat.le_trans (Failure.size_join_le _ _) ?_⟩
    rw [Failure.rest_summarize]
    exact hpast

/-- What was pending behind the fork is pending again, or something further on. -/
theorem missed_labelled_of_pending (hm : m ≠ .free) (h : F.Sticks m n P p) (hs : s.rest.size < n)
    (hsuffix : s.rest.tokens <:+ F.first) (hquiet : s.reported = []) (hclear : F.Clear s.rest)
    {f : Failure} (hf : s.pending = some f) (hpast : F.Past f.rest) :
    F.Missed s.rest (labelled c p s) := by
  cases hv : p { s with pending := none } with
  | fail e =>
    rw [Parser.labelled, hv, hf]
    exact ⟨hclear, Nat.le_trans (Failure.size_join_some_le _ _) hpast⟩
  | ok v t =>
    rw [labelled_eq_ok hv, hf]
    have hmoves := (h.forward { s with pending := none } v t hs hv).2
    refine ⟨fun e he => ?_, fun _ => ⟨hclear.suffix hmoves.suffix, .inr ?_⟩⟩
    · -- only a block reports failures; where none is opened before the fork, it is behind it
      have hinside := h.inside { s with pending := none } v t e hs hsuffix hquiet hclear hv he
      exact hinside.resolve_left hm
    · cases t.pending with
      | none => exact ⟨f, rfl, hpast⟩
      | some g => exact ⟨_, rfl, Nat.le_trans (Failure.size_join_some_le _ _) hpast⟩

/-- What was pending before a construct is put aside inside of it, where only blocks report
failures. -/
theorem labelled (hm : m ≠ .free) (h : F.Sticks m n P p) : F.Sticks m n P (labelled c p) := by
  refine ⟨fun s hs hsuffix hquiet hbeyond => ?_, fun s v u e hs hsuffix hquiet hclear hu he => ?_,
    fun s v u hs hu => ?_⟩
  · rcases hbeyond.past with hpast | ⟨f, hf, hpast⟩
    · exact missed_labelled
        (h.stick { s with pending := none } hs hsuffix hquiet (Past.beyond hpast))
    · exact missed_labelled_of_pending hm h hs hsuffix hquiet hbeyond.clear hf hpast
  · obtain ⟨t, hv, rfl⟩ := of_labelled_eq_ok hu
    exact h.inside { s with pending := none } v t e hs hsuffix hquiet hclear hv he
  · obtain ⟨t, hv, rfl⟩ := of_labelled_eq_ok hu
    exact h.forward { s with pending := none } v t hs hv

end Labels

section Recovery

variable {r : Parser α} (hr : Spells r fun _ _ _ n => n = 0)
include hr

/-- A failure behind the fork is reported there. -/
theorem missed_recoverWith (hquiet : s.reported = []) (hmissed : F.Missed s.rest (p s)) :
    F.Missed s.rest (recoverWith p r s) := by
  unfold Parser.recoverWith
  cases hv : p s with
  | ok v t =>
    rw [hv] at hmissed
    exact hmissed
  | fail f =>
    rw [hv] at hmissed
    dsimp only
    cases hu : r { s with pending := none } with
    | fail e => exact hmissed
    | ok v u =>
      obtain ⟨_, new, -, hnew, hsilent⟩ := hr _ v u hu
      obtain rfl := List.length_eq_zero_iff.1 hsilent
      rw [List.append_nil, hquiet] at hnew
      -- the recovery is silent, so this failure is the one reported
      refine ⟨fun e he => ?_, fun h => absurd h (by simp)⟩
      rw [hnew] at he
      obtain rfl := Option.some.inj he
      exact hmissed.2

/-- A failure that is recovered from is reported. -/
theorem recoverWith (hP : ∀ v, P v) (h : F.Sticks m n P p) :
    F.Sticks .free n P (recoverWith p r) where
  stick s hs hsuffix hquiet hbeyond := missed_recoverWith hr hquiet
    (h.stick s hs hsuffix hquiet hbeyond)
  inside _ _ _ _ _ _ _ _ _ _ := .inl rfl
  forward s v u hs hu := by
    rcases of_recoverWith_eq_ok hu with hv | ⟨f, t, -, ht, rfl⟩
    · obtain ⟨hvalue, read, new, hread, hnew, -⟩ := h.forward s v u hs hv
      exact ⟨hvalue, read, new, hread, hnew, by simp⟩
    · obtain ⟨read, new, hread, hnew, -⟩ := hr _ v t ht
      exact ⟨hP v, read, new ++ [f], hread, by rw [hnew, List.append_assoc], by simp⟩

end Recovery

section Braces

variable (hp : p.ReachesClosing) (h : F.Sticks .free n P p)
include hp h

/-- If the reader is behind the fork when it reads on behind an opening brace, it has been there. -/
theorem missed_braces {l : Token} {ts : List Token} (hs : s.rest.size < n + 1)
    (hsuffix : s.rest.tokens <:+ F.first) (hquiet : s.reported = [])
    (htokens : s.rest.tokens = l :: ts) (hl : l.kind = .punctuator .leftBrace)
    (hpast : F.Past (.ofList ts)) : F.Missed s.rest (between .leftBrace .rightBrace p s) := by
  rw [htokens] at hsuffix
  obtain ⟨after, hafter⟩ := F.regular.closed l ts hsuffix hl
  obtain ⟨v, t, r, us, ht, hrest, heq⟩ := hp.exists_eq_ok htokens hl hafter
  -- the reading inside begins behind the fork
  have hinner := h.stick ⟨.ofList ts, s.pending, s.reported⟩ (size_behind_lt hs htokens)
    ((List.suffix_cons l ts).trans hsuffix) hquiet (Past.beyond hpast)
  rw [ht] at hinner
  rw [heq]
  refine hinner.of_leading (t := ⟨.ofList us, t.pending, t.reported⟩) ?_ rfl rfl
  rw [hrest]
  exact List.suffix_cons r us

/-- Where no brace is opened before the fork, what is between braces is behind it. -/
theorem braces (hext : Extends p) (hP : ∀ v, P v) :
    F.Sticks .nested (n + 1) P (between .leftBrace .rightBrace p) where
  stick s hs hsuffix hquiet hbeyond := by
    rcases between_cases .leftBrace .rightBrace p s with heq | ⟨l, ts, htokens, hl, -⟩
    · rw [heq]
      exact hbeyond.missed_note _
    · -- no brace is opened before the fork, so the inside of this pair is behind it
      exact missed_braces hp h hs hsuffix hquiet htokens hl
        (Nat.le_of_lt (hbeyond.clear l ts (htokens ▸ List.suffix_refl _) hl))
  inside s v t f hs hsuffix hquiet hclear ht hf := by
    rcases between_cases .leftBrace .rightBrace p s with heq | ⟨l, ts, htokens, hl, -⟩
    · cases heq.symm.trans ht
    · have hmissed := missed_braces hp h hs hsuffix hquiet htokens hl
        (Nat.le_of_lt (hclear l ts (htokens ▸ List.suffix_refl _) hl))
      rw [ht] at hmissed
      exact .inr (hmissed.1 f hf)
  forward s v t hs ht := ⟨hP v, .of_extends hext.between (by simp) ht⟩

end Braces

end Sticks

end Fork

end CrudLang
