import CrudLang.Proofs.Grammar.Onward
import CrudLang.Proofs.Grammar.Steady
import CrudLang.Proofs.Recovery.Bounds

/-!
# A conditional behind `else`

A statement fails no further on than the place where the skipping of it would end, be it a
conditional or not (`Grammar.le_size_of_bareStatement_eq_fail`). What is pending behind a statement
that is read is not behind the place where skipping would end there, with one exception. What stands
behind `else` may be a conditional, and `if` is a keyword at which skipping ends. If that
conditional cannot be read, then the statement ends before `else`, and the failure of the
conditional is pending, wherever it is (`Grammar.Dangling`). But that failure will come again: the
conditional does not fail further back if it is read once more (`Input.BreaksOff`).
-/

namespace CrudLang

open Grammar CrudLang.Parser

/-- A conditional begins here that cannot be read, and it fails where so many tokens are left. -/
structure Input.BreaksOff (a : Input) (size : Nat) : Prop where
  head : ∃ t ts, a.tokens = t :: ts ∧ t.kind = .keyword .if
  fails : ∃ f, conditional (strictBlock statement) ⟨a, none, []⟩ = .fail f ∧ f.rest.size = size

/-- The next tokens are `else` and `if`. -/
def Input.OpensElseIf (a : Input) : Prop :=
  ∃ t u us, a.tokens = t :: u :: us ∧ t.kind = .keyword .else ∧ u.kind = .keyword .if

namespace Grammar

/-- A conditional up to the end of its first block. -/
def conditionalHead (block : Parser (Block Stmt)) : Parser (Expr × Block Stmt) := do
  keyword .if
  let condition ← expression
  let body ← block
  pure (condition, body)

section Conditionals

variable {s t : State} {v : Stmt} {f : Failure}

/-- A conditional is its head with an alternative if there is one. -/
theorem conditional_eq_conditionalHead : conditional (strictBlock statement) = withSpan (do
      let head ← conditionalHead (strictBlock statement)
      let alternative ← optional (do keyword .else; behindElse (strictBlock statement))
      pure (Stmt.if head.1 head.2 alternative)) := by
  have hspells := spells_strictBlock spells_statement
  rw [conditional_eq_behindIf fun _ => .of_spells hspells]
  congr 1
  funext s
  simp only [conditionalHead, behindIf, bind_apply]
  -- the head only groups the first three parts of the sequence
  cases keyword .if s with
  | fail f => rfl
  | ok _ t =>
    dsimp only
    cases expression t with
    | fail f => rfl
    | ok condition u =>
      dsimp only
      cases strictBlock statement u <;> rfl

theorem of_conditional_eq_ok (ht : conditional (strictBlock statement) s = .ok v t) :
    ∃ head alternative u, conditionalHead (strictBlock statement) s = .ok head u ∧
      optional (do keyword .else; behindElse (strictBlock statement)) u = .ok alternative t := by
  rw [conditional_eq_conditionalHead] at ht
  obtain ⟨build, hbuild, -⟩ := of_withSpan_eq_ok ht
  obtain ⟨head, u, hhead, hbuild⟩ := of_bind_eq_ok hbuild
  obtain ⟨alternative, t', halternative, hpure⟩ := of_bind_eq_ok hbuild
  obtain ⟨-, rfl⟩ := of_pure_eq_ok hpure
  exact ⟨head, alternative, u, hhead, halternative⟩

/-- A conditional fails where its head does: the alternative may be missing. -/
theorem of_conditional_eq_fail (hf : conditional (strictBlock statement) s = .fail f) :
    conditionalHead (strictBlock statement) s = .fail f := by
  rw [conditional_eq_conditionalHead] at hf
  rcases of_bind_eq_fail (of_withSpan_eq_fail hf) with hhead | ⟨head, u, -, hf⟩
  · exact hhead
  · obtain ⟨alternative, t, ht⟩ :=
      exists_optional_eq_ok (do keyword .else; behindElse (strictBlock statement)) u
    rw [bind_apply, ht] at hf
    cases hf

end Conditionals

section Again

variable {a : Input} {size : Nat} {token : Token} {ts : List Token}

theorem steady_conditional : Steady (conditional (strictBlock statement)) := by
  have hblock : Steady (strictBlock statement) :=
    blockGuarded_steady.strictBlock (q := statement) steady_statement
  exact @Congruence.conditional _ congruence_steady _ (strictBlock statement) hblock

/-- At `if` it makes no difference to a conditional that fails what was pending, if that was not
further on, or what was reported. -/
theorem conditional_eq_fail_of_pending (ha : a.tokens = token :: ts)
    (hkind : token.kind = .keyword .if) {pending : Option Failure}
    (hpending : ∀ f, pending = some f → a.size ≤ f.rest.size) {reported : List Failure}
    {f : Failure} (hf : conditional (strictBlock statement) ⟨a, pending, reported⟩ = .fail f) :
    conditional (strictBlock statement) ⟨a, none, []⟩ = .fail f := by
  have hspells := spells_strictBlock spells_statement
  suffices h : conditional (strictBlock statement) ⟨a, none, reported⟩ = .fail f by
    rcases steady_conditional a none with ⟨g, hg⟩ | ⟨v, rest, pending', new, hv⟩
    · rw [hg]
      exact (hg reported).symm.trans h
    · cases (hv reported).symm.trans h
  rw [conditional_eq_behindIf fun _ => .of_spells hspells] at hf ⊢
  have hf := of_withSpan_eq_fail hf
  rw [keyword, token_bind_eq ha hkind] at hf
  -- behind `if`, what was pending is behind us
  have hstates : (Alignment.identity 0).States ⟨.ofList ts, pending, reported⟩
      ⟨.ofList ts, none, reported⟩ := by
    refine ⟨rfl, .inr ⟨fun g hg => ?_, .none⟩, (Alignment.States.refl ⟨a, none, reported⟩).reported⟩
    refine Nat.lt_of_lt_of_le ?_ (hpending g hg)
    rw [← a.size_eq, ha]
    exact Nat.lt_succ_self _
  have hreply := Alignment.InStep.replies (fun n => (Alignment.identity_braceSimulation 0).behindIf
    (Alignment.inStep_strictBlock_identity 0 n)) hstates
  dsimp only at hf
  rw [hf] at hreply
  rw [withSpan, keyword, token_bind_eq ha hkind]
  generalize behindIf (strictBlock statement) ⟨.ofList ts, none, reported⟩ = y at hreply
  cases hreply with
  | fail hfg _ => rw [Alignment.eq_of_failures hfg]
  | lost h => exact absurd h (Alignment.not_lost rfl _)

/-- A conditional that cannot be read fails behind `if`. -/
theorem size_lt_of_conditional_eq_fail {s : State} (hs : s.rest.tokens = token :: ts)
    (hkind : token.kind = .keyword .if) {f : Failure}
    (hf : conditional (strictBlock statement) s = .fail f) : f.rest.size < s.rest.size := by
  have hless : ts.length < s.rest.size := by
    rw [← s.rest.size_eq, hs]
    exact Nat.lt_succ_self _
  exact Alignment.failsLost_conditional hs hless hkind s f rfl hf

end Again

end Grammar

namespace Input.BreaksOff

variable {a : Input} {size : Nat}

theorem size_lt (h : a.BreaksOff size) : size < a.size := by
  obtain ⟨⟨t, ts, htokens, ht⟩, f, hf, rfl⟩ := h
  exact size_lt_of_conditional_eq_fail (s := ⟨a, none, []⟩) htokens ht hf

/-- Whatever has been reported, a conditional breaks off at the same place. -/
theorem exists_eq_fail (h : a.BreaksOff size) (reported : List Failure) :
    ∃ f, conditional (strictBlock statement) ⟨a, none, reported⟩ = .fail f ∧
      f.rest.size = size := by
  obtain ⟨-, f, hf, hsize⟩ := h
  rcases steady_conditional a none with ⟨g, hg⟩ | ⟨v, rest, pending', new, hv⟩
  · obtain rfl := Reply.fail.inj ((hg []).symm.trans hf)
    exact ⟨g, hg reported, hsize⟩
  · cases (hv []).symm.trans hf

end Input.BreaksOff

namespace Grammar

/-- Behind `else` there is a conditional that cannot be read, and what is pending is not further on
than it fails. -/
def Dangling (s : State) : Prop :=
  ∃ t b size, s.rest.tokens = t :: Input.tokens b ∧ t.kind = .keyword .else ∧ b.BreaksOff size ∧
    ∀ f, s.pending = some f → size ≤ f.rest.size

end Grammar

namespace Stop

variable {W : Stop} {n : Nat}

/-- The place where the skipping of a statement ends. -/
def ofStatement (a : Input) : Stop :=
  ⟨statementLanding a.tokens, (statementLanding a.tokens).length, Nat.le_refl _⟩

theorem starts_ofStatement (a : Input) : (ofStatement a).Starts (a.size + 1) a :=
  ⟨Nat.lt_succ_self _, rfl⟩

theorem safeOn_conditionalHead :
    W.SafeOn (W.Starts n) (fun _ _ => True) (conditionalHead (strictBlock statement)) := by
  have S := W.expressionSimulation .equal
  refine safeOn_keyword (by decide) ?_
  refine Safe.bind (S.expression n) fun condition _ _ => ?_
  refine safe_strictBlock.bind fun body _ _ => ?_
  exact .pure (w := (condition, body)) trivial

/-- What is read between `else` and a block. -/
theorem safeOn_behindElse :
    W.SafeOn
      (fun a => (a.size < n ∧ W.Before a) ∧ ∀ t ts, a.tokens = t :: ts → t.kind ≠ .keyword .if)
      Likeness.equal.stmt (behindElse (strictBlock statement)) := by
  have hspells := spells_strictBlock spells_statement
  refine SafeOn.orElse ?_ (SafeOn.mono ((W.simulation .equal).map (q := strictBlock statement)
    safe_strictBlock fun _ _ hbody => Likeness.equal.block hbody) fun a ha => ha.1)
  rw [conditional_eq_behindIf fun _ => .of_spells hspells]
  exact .withSpan (L := .equal) (.token_bind_of_ne (fun a ha => ha.1.2.limit_le)
    fun a t ts ha => ha.2 t ts)

/-- An alternative that is no conditional, or none. -/
theorem safeOn_alternative : W.SafeOn (fun a => (a.size < n ∧ W.Before a) ∧ ¬ a.OpensElseIf)
    (Option.Rel Likeness.equal.stmt)
    (optional (do keyword .else; behindElse (strictBlock statement))) := by
  have htoken : W.Safe n (fun _ _ => True) (keyword .else) :=
    (W.simulation .equal).token (by decide)
  have halternative : W.SafeOn (fun a => (a.size < n ∧ W.Before a) ∧ ¬ a.OpensElseIf)
      Likeness.equal.stmt (do keyword .else; behindElse (strictBlock statement)) := by
    refine (SafeOn.mono htoken fun a ha => ha.1).bind_on (fun s v t hs ht hle hbefore => ?_)
      fun _ _ _ => safeOn_behindElse (n := n)
    -- behind `else` there is no `if`, so the alternative is no conditional
    rcases token_cases (.keyword .else) s with heq | ⟨r, rs, htokens, hr, heq⟩
    · cases heq.symm.trans ht
    obtain ⟨-, rfl⟩ := Reply.ok.inj (heq.symm.trans ht)
    refine ⟨⟨Nat.lt_of_le_of_lt hle hs.1.1, hbefore⟩, fun u us hus hu => hs.2 ?_⟩
    exact ⟨r, u, us, htokens.trans (congrArg _ hus), hr, hu⟩
  exact .orElse (halternative.bind_on (Q := W.Before) (fun _ _ _ _ _ _ hbefore => hbefore)
    fun _ _ hstmt => .pure (fun _ ha => ha) (.some hstmt)) (.pure (fun a ha => ha.1.2) .none)

end Stop

namespace Grammar

/-- From `a` to `t`, a statement has been read: skipping from there does not end before the place
where the skipping of the statement would, and nothing is pending behind it but perhaps the failure
of a conditional behind `else`. -/
structure Leaves (a : Input) (t : State) : Prop where
  landing_le : (landing t.rest.tokens).length ≤ (statementLanding a.tokens).length
  pending : (∀ f, t.pending = some f → (landing t.rest.tokens).length ≤ f.rest.size) ∨ Dangling t

section Statements

variable {s t : State} {v : Stmt} {f : Failure}

theorem Leaves.of_before {a : Input} (hbefore : (Stop.ofStatement a).Before t.rest)
    (hnoted : (Stop.ofStatement a).Noted t.pending) : Leaves a t := by
  have hlanding : landing t.rest.tokens = statementLanding a.tokens := hbefore
  refine ⟨Nat.le_of_eq (congrArg _ hlanding), .inl fun f hf => ?_⟩
  rw [hlanding]
  exact hnoted f hf

/-- A conditional fails no further on than where the skipping of it ends. -/
theorem le_size_of_conditional_eq_fail (hpending : UpToLanding s.rest s.pending)
    (hf : conditional (strictBlock statement) s = .fail f) :
    (statementLanding s.rest.tokens).length ≤ f.rest.size :=
  Stop.safeOn_conditionalHead.fail s f (Stop.starts_ofStatement s.rest) hpending
    (of_conditional_eq_fail hf)

section ElseIf

variable {t u : Token} {us : List Token} (htokens : s.rest.tokens = t :: u :: us)
variable (ht : t.kind = .keyword .else) (hu : u.kind = .keyword .if)
include htokens ht hu

theorem landing_of_elseIf : landing s.rest.tokens = u :: us := by
  rw [htokens, landing_skipped (ht ▸ by decide), landing_of_halts (hu ▸ by decide)]

/-- Behind `else` and `if`, a conditional is read. -/
theorem of_elseIf_eq_ok {s' : State}
    (hv : (do keyword .else; behindElse (strictBlock statement)) s = .ok v s') :
    conditional (strictBlock statement) ⟨.ofList (u :: us), s.pending, s.reported⟩ = .ok v s' := by
  rw [keyword, token_bind_eq htokens ht] at hv
  rcases of_orElse_eq_ok hv with hv | ⟨g, -, hv⟩
  · exact hv
  · have hopening : (kindsOf (u :: us)).head? ≠ some (.punctuator .leftBrace) := by simp [hu]
    obtain ⟨e, he⟩ := Rejects.map (g := Stmt.block) (rejects_strictBlock (p := statement) hopening)
      ⟨.ofList (u :: us), some g, s.reported⟩ rfl
    cases he.symm.trans hv

/-- If no conditional can be read behind `else` and `if`, its failure is pending. -/
theorem dangling_of_elseIf_eq_fail
    (hpending : ∀ f, s.pending = some f → (u :: us).length ≤ f.rest.size)
    (hf : (do keyword .else; behindElse (strictBlock statement)) s = .fail f) :
    Dangling { s with pending := some f } := by
  rw [keyword, token_bind_eq htokens ht] at hf
  obtain ⟨g, hg, hblock⟩ := of_orElse_eq_fail hf
  have hless := size_lt_of_conditional_eq_fail rfl hu hg
  rw [Input.size_ofList] at hless
  refine ⟨t, .ofList (u :: us), g.rest.size, htokens, ht, ⟨⟨u, us, rfl, hu⟩, g, ?_, rfl⟩,
    fun e he => ?_⟩
  · exact conditional_eq_fail_of_pending rfl hu hpending hg
  · obtain rfl := Option.some.inj he
    -- no block begins here, so the failure of the conditional remains
    let W : Stop := ⟨u :: us, g.rest.size, Nat.le_of_lt hless⟩
    have hsafe : W.Safe (us.length + 2) Likeness.equal.stmt
        (Stmt.block <$> strictBlock statement) :=
      (W.simulation .equal).map (q := strictBlock statement) Stop.safe_strictBlock
        fun _ _ hbody => Likeness.equal.block hbody
    have hlanding : landing (u :: us) = u :: us := landing_of_halts (hu ▸ by decide)
    exact hsafe.fail ⟨.ofList (u :: us), some g, s.reported⟩ f ⟨Nat.lt_succ_self _, hlanding⟩
      (.some (Nat.le_refl _)) hblock

end ElseIf

/-- What a conditional leaves. -/
theorem leaves_of_conditional_eq_ok (hpending : UpToLanding s.rest s.pending)
    (ht : conditional (strictBlock statement) s = .ok v t) : Leaves s.rest t := by
  -- by induction on the conditionals behind `else`
  induction hsize : s.rest.size using Nat.strongRecOn generalizing s v with
  | ind size ih =>
    obtain ⟨head, alternative, u, hhead, halternative⟩ := of_conditional_eq_ok ht
    obtain ⟨-, hle, hbefore, hnoted⟩ := Stop.safeOn_conditionalHead.ok s head u
      (Stop.starts_ofStatement s.rest) hpending hhead
    by_cases helse : u.rest.OpensElseIf
    · obtain ⟨r, i, is, htokens, hr, hi⟩ := helse
      have hlimit : i :: is = statementLanding s.rest.tokens :=
        (landing_of_elseIf htokens hr hi).symm.trans hbefore
      have hnoted : ∀ f, u.pending = some f → (i :: is).length ≤ f.rest.size := hlimit ▸ hnoted
      have hpast := length_statementLanding_le_size (.ofList (i :: is))
      rcases of_optional_eq_ok halternative with ⟨w, hw⟩ | ⟨f, hf, rfl⟩
      · have hless : (Input.ofList (i :: is)).size < size := by
          have hsize' : u.rest.size = (Input.ofList (i :: is)).size + 1 :=
            Input.size_of_tokens_eq_cons htokens
          omega
        have hleaves := ih _ hless (s := ⟨.ofList (i :: is), u.pending, u.reported⟩)
          (fun f hf => Nat.le_trans hpast (hnoted f hf)) (of_elseIf_eq_ok htokens hr hi hw) rfl
        exact ⟨Nat.le_trans hleaves.landing_le (hlimit ▸ hpast), hleaves.pending⟩
      · exact ⟨Nat.le_of_eq (congrArg _ hbefore),
          .inr (dangling_of_elseIf_eq_fail htokens hr hi hnoted hf)⟩
    · obtain ⟨-, -, hbefore, hnoted⟩ := Stop.safeOn_alternative.ok u alternative t
        ⟨⟨Nat.lt_succ_self _, hbefore⟩, helse⟩ hnoted halternative
      exact .of_before hbefore hnoted

/-- A statement fails no further on than where the skipping of it ends. -/
theorem le_size_of_bareStatement_eq_fail (hpending : UpToLanding s.rest s.pending)
    (hf : bareStatement (strictBlock statement) s = .fail f) :
    (statementLanding s.rest.tokens).length ≤ f.rest.size := by
  obtain ⟨g, hg, hf⟩ := of_orElse_eq_fail hf
  exact Stop.safeOn_unconditional.fail { s with pending := some g } f
    (Stop.starts_ofStatement s.rest) (.some (le_size_of_conditional_eq_fail hpending hg)) hf

/-- What a statement leaves. -/
theorem leaves_of_bareStatement_eq_ok (hpending : UpToLanding s.rest s.pending)
    (ht : bareStatement (strictBlock statement) s = .ok v t) : Leaves s.rest t := by
  rcases of_orElse_eq_ok ht with ht | ⟨g, hg, ht⟩
  · exact leaves_of_conditional_eq_ok hpending ht
  · obtain ⟨-, -, hbefore, hnoted⟩ := Stop.safeOn_unconditional.ok { s with pending := some g } v t
      (Stop.starts_ofStatement s.rest) (.some (le_size_of_conditional_eq_fail hpending hg)) ht
    exact .of_before hbefore hnoted

/-- What is pending behind a statement is not further on than what was pending before it and what
the statement has left. -/
theorem noted_of_semicolon_eq_ok {u : State} {semi : Option Unit} {limit : Nat}
    (ht : optional (punctuator .semicolon) t = .ok semi u) {before : Option Failure}
    (hlimit : limit ≤ (landing t.rest.tokens).length)
    (hbefore : ∀ f, before = some f → limit ≤ f.rest.size)
    (hpending : ∀ f, t.pending = some f → limit ≤ f.rest.size) (a : Input) :
    ∀ f, pendingBehind before a .statement u.pending = some f → limit ≤ f.rest.size := by
  let W : Stop := ⟨landing t.rest.tokens, limit, hlimit⟩
  refine Stop.Noted.behind (W := W) hbefore ?_ a _
  rcases of_optional_token_eq_ok ht with ⟨l, ls, -, -, rfl⟩ | ⟨-, rfl⟩
  · exact hpending
  · exact .some (Stop.Noted.note (W := W) hpending (Stop.Before.limit_le (W := W) rfl) _)

/-- Skipping behind a statement would not end before the place where it ended behind its form. -/
theorem length_statementLanding_of_semicolon_eq_ok {u : State} {semi : Option Unit}
    (ht : optional (punctuator .semicolon) t = .ok semi u) :
    (statementLanding u.rest.tokens).length ≤ (landing t.rest.tokens).length := by
  rcases of_optional_token_eq_ok ht with ⟨l, ls, htokens, hl, rfl⟩ | ⟨-, rfl⟩
  · rw [htokens, landing_of_halts (hl ▸ by decide), List.length_cons]
    exact Nat.le_succ_of_le (length_statementLanding_le_size (.ofList ls))
  · exact length_statementLanding_le _

end Statements

section Failing

variable {s t : State} {f : Failure} {v : Stmt}

/-- A statement fails no further on than where the skipping of it ends, unless that was pending. -/
theorem le_size_of_labelled_eq_fail {limit : Nat}
    (hlimit : limit ≤ (statementLanding s.rest.tokens).length)
    (hpending : ∀ f, s.pending = some f → limit ≤ f.rest.size)
    (hf : labelled .statement (terminated (bareStatement (strictBlock statement))) s = .fail f) :
    limit ≤ f.rest.size := by
  obtain ⟨g, hg, rfl⟩ := of_labelled_eq_fail hf
  let W : Stop := ⟨statementLanding s.rest.tokens, limit, hlimit⟩
  refine Stop.Noted.join (W := W) hpending (Nat.le_trans hlimit ?_) _ _
  exact le_size_of_bareStatement_eq_fail (s := { s with pending := none }) (.none _)
    (of_terminated_eq_fail hg)

/-- A statement does not fail before it begins. -/
theorem size_le_of_labelled_eq_fail
    (hf : labelled .statement (terminated (bareStatement (strictBlock statement))) s = .fail f) :
    f.rest.size ≤ s.rest.size :=
  (onward_terminated (onward_strictBlock onward_statement)).labelled.fail hf

/-- At a keyword that opens a statement, a statement fails behind the keyword. -/
theorem size_lt_of_labelled_eq_fail {token : Token} {ts : List Token} {k : Keyword}
    (htokens : s.rest.tokens = token :: ts) (hkind : token.kind = .keyword k)
    (hk : k ∈ statementKeywords)
    (hf : labelled .statement (terminated (bareStatement (strictBlock statement))) s = .fail f) :
    f.rest.size < s.rest.size := by
  have hless : ts.length < s.rest.size := by
    rw [← s.rest.size_eq, htokens]
    exact Nat.lt_succ_self _
  obtain ⟨g, hg, rfl⟩ := of_labelled_eq_fail hf
  refine Nat.lt_of_le_of_lt (Failure.size_join_le _ _) ?_
  rw [Failure.rest_summarize]
  exact Alignment.failsLost_bareStatement htokens hless hkind hk { s with pending := none } g rfl
    (of_terminated_eq_fail hg)

/-- Behind a statement, nothing is pending behind the place where the skipping of the next one would
end, but perhaps the failure of a conditional behind `else`. -/
theorem pending_of_labelled_eq_ok (hpending : UpToLanding s.rest s.pending)
    (hv : labelled .statement (terminated (bareStatement (strictBlock statement))) s = .ok v t) :
    UpToLanding t.rest t.pending ∨ Dangling t := by
  obtain ⟨u, hu, rfl⟩ := of_labelled_eq_ok hv
  obtain ⟨stmt, r, hstmt, hrest⟩ := of_bind_eq_ok hu
  obtain ⟨semi, r', hsemi, hpure⟩ := of_bind_eq_ok hrest
  obtain ⟨-, rfl⟩ := of_pure_eq_ok hpure
  have hleaves := leaves_of_bareStatement_eq_ok (s := { s with pending := none })
    (.none _) hstmt
  have hbefore {limit : Nat} (hlimit : limit ≤ (landing r.rest.tokens).length) :
      ∀ f, s.pending = some f → limit ≤ f.rest.size := fun f hf =>
    Nat.le_trans hlimit (Nat.le_trans hleaves.landing_le (hpending f hf))
  rcases hleaves.pending with hnoted | ⟨l, b, size, htokens, hl, hbreaks, hnoted⟩
  · have hlanding := length_statementLanding_of_semicolon_eq_ok hsemi
    refine .inl fun f hf => Nat.le_trans hlanding ?_
    exact noted_of_semicolon_eq_ok hsemi (Nat.le_refl _) (hbefore (Nat.le_refl _)) hnoted _ f hf
  · obtain ⟨i, is, hb, hi⟩ := hbreaks.head
    have hlimit : size ≤ (landing r.rest.tokens).length := by
      rw [landing_of_elseIf (htokens.trans (congrArg _ hb)) hl hi, ← hb, b.size_eq]
      exact Nat.le_of_lt hbreaks.size_lt
    -- no semicolon stands where `else` does
    rcases of_optional_token_eq_ok hsemi with ⟨l', ls, htokens', hl', -⟩ | ⟨-, heq⟩
    · obtain ⟨rfl, -⟩ := List.cons.inj (htokens.symm.trans htokens')
      cases hl.symm.trans hl'
    · refine .inr ⟨l, b, size, ?_, hl, hbreaks, ?_⟩
      · rw [heq]
        exact htokens
      · exact noted_of_semicolon_eq_ok hsemi hlimit (hbefore hlimit) hnoted _

/-- At `else` there is no statement. -/
theorem exists_labelled_eq_fail_of_else {token : Token} {ts : List Token}
    (htokens : s.rest.tokens = token :: ts) (hkind : token.kind = .keyword .else) :
    ∃ f, labelled .statement (terminated (bareStatement (strictBlock statement))) s = .fail f := by
  have hhead : (kindsOf s.rest.tokens).head? = some (.keyword .else) := by simp [htokens, hkind]
  refine Rejects.labelled (.bind ?_) s rfl
  refine .orElse (rejects_conditional (by simp [hhead]))
    (rejects_unconditional rejects_strictBlock fun k hk => ?_)
  obtain rfl := Option.some.inj (hhead.symm.trans hk)
  rfl

/-- Where a conditional breaks off, the statement fails, no further back. -/
theorem exists_labelled_eq_fail_of_breaksOff {size : Nat} (h : s.rest.BreaksOff size) :
    ∃ f, labelled .statement (terminated (bareStatement (strictBlock statement))) s = .fail f ∧
      f.rest.size ≤ size := by
  obtain ⟨t, ts, htokens, ht⟩ := h.head
  obtain ⟨g, hg, hsize⟩ := h.exists_eq_fail s.reported
  have hhead : (kindsOf s.rest.tokens).head? = some (.keyword .if) := by simp [htokens, ht]
  -- no other form begins with `if`, and what has failed further on is not forgotten
  have hrejects : Rejects (unconditional (strictBlock statement)) (kindsOf s.rest.tokens) := by
    refine rejects_unconditional rejects_strictBlock fun k hk => ?_
    obtain rfl := Option.some.inj (hhead.symm.trans hk)
    rfl
  obtain ⟨f, hf⟩ := hrejects { s with pending := some g } rfl
  have hsticks : Alignment.Sticks (size + 1) (unconditional (strictBlock statement)) :=
    .of_inStep fun n => (Alignment.identity_braceSimulation (size + 1)).unconditional
      (Alignment.inStep_strictBlock_identity (size + 1) n)
  have hless : f.rest.size < size + 1 :=
    hsticks.size_lt (.of_pending (Nat.lt_succ_of_le (Nat.le_of_eq hsize)) _ _) hf
  refine ⟨.join s.pending (f.summarize s.rest .statement), ?_, ?_⟩
  · have hbare : bareStatement (strictBlock statement) { s with pending := none } = .fail f := by
      rw [bareStatement_eq, orElse, hg]
      exact hf
    rw [labelled, terminated, bind_apply, hbare]
  · refine Nat.le_trans (Failure.size_join_le _ _) ?_
    rw [Failure.rest_summarize]
    exact Nat.le_of_lt_succ hless

end Failing

end Grammar

end CrudLang
