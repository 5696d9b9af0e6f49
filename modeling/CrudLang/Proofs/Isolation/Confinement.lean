import CrudLang.Proofs.Grammar.Recovery
import CrudLang.Proofs.Parser.Pending

/-!
# What goes on between a pair of braces

Between an opening brace and its closing one nothing is noted behind the closing one: whatever fails
there fails before it. So what is pending behind the braces is what was pending before, if that is
further on, and else it is a failure before the closing brace, which no longer matters.

`Confined n after P p` says of a parser that begins between braces, where `after` is what stands
behind the closing one, that it stays there and that what is pending keeps the property `P`: for
example that it is further back than `after`, or than some place behind, which the whole grammar
preserves (`confined_statement`), or that it is a certain failure further on
(`exists_braceGroup_of_notes`).
-/

namespace CrudLang

namespace Grammar

open CrudLang.Parser

/-- Behind the closing brace there are fewer tokens. -/
theorem length_lt_of_afterClosing {tokens after : List Token} {depth : Nat}
    (h : afterClosing depth tokens = some after) : after.length < tokens.length :=
  (Closes.of_eq_some h).length_lt

/-- Inside braces that are closed, every opening brace has its closing one. -/
theorem exists_afterClosing {tokens after : List Token} {depth : Nat}
    (h : afterClosing (depth + 1) tokens = some after) :
    ∃ next, afterClosing 0 tokens = some next ∧ afterClosing depth next = some after := by
  rw [← Nat.zero_add depth, afterClosing_add] at h
  simpa [Option.bind_eq_some_iff] using h

/-- Between braces, in front of the tokens `after` behind the closing one, a parser for inputs
shorter than `n` stays between them, and what is pending keeps the property. -/
def Confined (n : Nat) (after : List Token) (P : Option Failure → Prop) {α : Type}
    (p : Parser α) : Prop :=
  ∀ s depth, s.rest.size < n → afterClosing depth s.rest.tokens = some after → P s.pending →
    (∀ v t, p s = .ok v t →
      t.rest.size ≤ s.rest.size ∧ afterClosing depth t.rest.tokens = some after ∧ P t.pending) ∧
      ∀ f, p s = .fail f → P (some f)

namespace Confined

variable {α β : Type} {n : Nat} {after : List Token} {P : Option Failure → Prop}
variable {p q : Parser α}

/-- A value stays where it is and notes nothing. -/
theorem pure (a : α) : Confined n after P (Pure.pure a : Parser α) := by
  intro s depth _ hs hP
  refine ⟨fun v t h => ?_, fun f h => (by cases h)⟩
  obtain ⟨-, rfl⟩ := of_pure_eq_ok h
  exact ⟨Nat.le_refl _, hs, hP⟩

/-- What is confined on longer inputs is confined on shorter ones. -/
theorem mono {m : Nat} (hp : Confined n after P p) (hmn : m ≤ n) : Confined m after P p :=
  fun s depth hm => hp s depth (Nat.lt_of_lt_of_le hm hmn)

/-- One thing after the other, where the first one leaves less than `m` tokens. -/
theorem bind_below {m : Nat} {f : α → Parser β} (hp : Confined n after P p)
    (hsize : ∀ s v t, s.rest.size < n → t.rest.size ≤ s.rest.size → p s = .ok v t →
      t.rest.size < m) (hf : ∀ a, Confined m after P (f a)) : Confined n after P (p >>= f) := by
  intro s depth hn hs hP
  obtain ⟨hok, hfail⟩ := hp s depth hn hs hP
  have hthen (a : α) (t : State) (ha : p s = .ok a t) :=
    hf a t depth (hsize s a t hn (hok a t ha).1 ha) (hok a t ha).2.1 (hok a t ha).2.2
  refine ⟨fun b u h => ?_, fun e h => ?_⟩
  · obtain ⟨a, t, ha, hb⟩ := of_bind_eq_ok h
    obtain ⟨hle, hu⟩ := (hthen a t ha).1 b u hb
    exact ⟨Nat.le_trans hle (hok a t ha).1, hu⟩
  · rcases of_bind_eq_fail h with he | ⟨a, t, ha, he⟩
    · exact hfail e he
    · exact (hthen a t ha).2 e he

/-- One parser behind another: the first one does not go back. -/
theorem bind {f : α → Parser β} (hp : Confined n after P p) (hf : ∀ a, Confined n after P (f a)) :
    Confined n after P (p >>= f) :=
  hp.bind_below (fun _ _ _ hn hle _ => Nat.lt_of_le_of_lt hle hn) hf

/-- Between braces, what is noted is further back than what stands behind them. -/
theorem note_of_afterClosing (hnotes : Notes after P) {s : State} {depth : Nat}
    (hs : afterClosing depth s.rest.tokens = some after) (hP : P s.pending) (e : Expectation) :
    P (some (.note s.pending s.rest e)) :=
  hnotes _ _ _ hP (by rw [← s.rest.size_eq]; exact length_lt_of_afterClosing hs)

/-- A token that is read is no brace, or else the parser for it keeps to what is said of it. -/
theorem of_satisfy (hnotes : Notes after P) {read? : TokenKind → Option α} {e : Expectation}
    {s : State} {depth : Nat} (hs : afterClosing depth s.rest.tokens = some after)
    (hP : P s.pending)
    (hread : ∀ token ts, s.rest.tokens = token :: ts → (read? token.kind).isSome →
      token.kind ≠ .punctuator .leftBrace ∧ token.kind ≠ .punctuator .rightBrace) :
    (∀ v t, satisfy read? e s = .ok v t → t.rest.size ≤ s.rest.size ∧
      afterClosing depth t.rest.tokens = some after ∧ P t.pending) ∧
      ∀ f, satisfy read? e s = .fail f → P (some f) := by
  refine ⟨fun v t h => ?_, fun f h => ?_⟩
  · obtain ⟨token, htokens, hv, -⟩ := of_satisfy_eq_ok h
    obtain ⟨hl, hr⟩ := hread token t.rest.tokens htokens (by rw [hv]; rfl)
    rw [htokens, afterClosing_other hl hr] at hs
    refine ⟨Nat.le_of_lt (Consumes.satisfy s v t h), hs, ?_⟩
    rwa [pending_of_satisfy_eq_ok h]
  · rw [of_satisfy_eq_fail h]
    exact note_of_afterClosing hnotes hs hP e

/-- A token that is no brace does not leave the pair of braces. -/
theorem satisfy (hnotes : Notes after P) {read? : TokenKind → Option α} {e : Expectation}
    (hread : Braceless read?) : Confined n after P (Parser.satisfy read? e) := by
  intro s depth _ hs hP
  refine of_satisfy hnotes hs hP fun token ts _ hsome => ⟨fun hl => ?_, fun hr => ?_⟩
  · rw [hl, hread.1] at hsome
    cases hsome
  · rw [hr, hread.2] at hsome
    cases hsome

/-- The second parser of a choice need only be confined where the first one fails. -/
theorem orElse_of_fail (hp : Confined n after P p)
    (hq : ∀ s depth f, s.rest.size < n → afterClosing depth s.rest.tokens = some after →
      p s = .fail f → P (some f) →
        (∀ v t, q { s with pending := some f } = .ok v t → t.rest.size ≤ s.rest.size ∧
          afterClosing depth t.rest.tokens = some after ∧ P t.pending) ∧
          ∀ g, q { s with pending := some f } = .fail g → P (some g)) :
    Confined n after P (Parser.orElse p q) := by
  intro s depth hn hs hP
  obtain ⟨hok, hfail⟩ := hp s depth hn hs hP
  refine ⟨fun v t h => ?_, fun g h => ?_⟩
  · rcases of_orElse_eq_ok h with h | ⟨f, hf, h⟩
    · exact hok v t h
    · exact (hq s depth f hn hs hf (hfail f hf)).1 v t h
  · obtain ⟨f, hf, h⟩ := of_orElse_eq_fail h
    exact (hq s depth f hn hs hf (hfail f hf)).2 g h

/-- The second alternative starts at the same place, with a failure that keeps the property. -/
theorem orElse (hp : Confined n after P p) (hq : Confined n after P q) :
    Confined n after P (Parser.orElse p q) :=
  hp.orElse_of_fail fun s depth f hn hs _ hP => hq { s with pending := some f } depth hn hs hP

/-- The span of what is read. -/
theorem withSpan {p : Parser (Span → α)} (hp : Confined n after P p) :
    Confined n after P (Parser.withSpan p) := by
  intro s depth hn hs hP
  obtain ⟨hok, hfail⟩ := hp s depth hn hs hP
  refine ⟨fun v t h => ?_, fun f h => hfail f (of_withSpan_eq_fail h)⟩
  obtain ⟨build, hbuild, -⟩ := of_withSpan_eq_ok h
  exact hok build t hbuild

/-- A repetition goes on where its last round began. -/
theorem many (hp : Confined n after P p) (hconsumes : Consumes p) :
    Confined n after P (Parser.many p) := by
  induction n with
  | zero => exact fun s _ hn => absurd hn (Nat.not_lt_zero _)
  | succ n ih =>
    have hmany := ih (hp.mono (Nat.le_succ n))
    rw [many_eq hconsumes]
    refine .orElse (hp.bind_below (m := n) (fun s v t hn _ ht => ?_) fun _ =>
      hmany.bind fun _ => .pure _) (.pure _)
    -- behind one round there is less input
    exact Nat.lt_of_lt_of_le (hconsumes s v t ht) (Nat.le_of_lt_succ hn)

/-- Inner braces are a pair, so what is between them is between the outer ones too. -/
theorem braces (hnotes : Notes after P) (hp : Confined n after P p) :
    Confined (n + 1) after P (between .leftBrace .rightBrace p) := by
  intro s depth hn hs hP
  -- what is read between the inner braces stays between them
  have hinner {l : Token} {ts : List Token} (htokens : s.rest.tokens = l :: ts)
      (hl : l.kind = .punctuator .leftBrace) := by
    rw [htokens, afterClosing_open hl] at hs
    exact hp ⟨.ofList ts, s.pending, s.reported⟩ (depth + 1) (size_behind_lt hn htokens) hs hP
  refine ⟨fun v t h => ?_, fun f h => ?_⟩
  · obtain ⟨l, ts, u, r, us, htokens, hl, hu, hrest, hr, rfl⟩ := exists_of_between_eq_ok h
    obtain ⟨hle, hclosing, hPu⟩ := (hinner htokens hl).1 v u hu
    rw [hrest, afterClosing_close_succ hr] at hclosing
    have hsize := Input.size_of_tokens_eq_cons (b := .ofList ts) htokens
    have hsize' := Input.size_of_tokens_eq_cons (b := .ofList us) hrest
    exact ⟨by dsimp only at hle ⊢; omega, hclosing, hPu⟩
  · rcases of_between_eq_fail h with rfl | ⟨l, ts, htokens, hl, hf | ⟨v, t, ht, rfl⟩⟩
    · exact note_of_afterClosing hnotes hs hP _
    · exact (hinner htokens hl).2 f hf
    · obtain ⟨-, hclosing, hPt⟩ := (hinner htokens hl).1 v t ht
      exact note_of_afterClosing hnotes hclosing hPt _

end Confined

/-- A part of a group is a group, which stays between the braces, or a token that is no brace. -/
theorem confined_groupItem_of_braceGroup {P : Option Failure → Prop} {after : List Token} {n : Nat}
    (hnotes : Notes after P) (hgroup : Confined n after P braceGroup) :
    Confined n after P groupItem := by
  refine hgroup.orElse ?_
  unfold noneOf select
  exact .satisfy hnotes ⟨rfl, rfl⟩

/-- Groups of braces are confined, whatever the property of what is pending. -/
theorem confined_braceGroup {P : Option Failure → Prop} {after : List Token}
    (hnotes : Notes after P) (n : Nat) : Confined n after P braceGroup := by
  induction n with
  | zero => exact fun s depth hs => absurd hs (Nat.not_lt_zero _)
  | succ n ih =>
    have hitem : Confined n after P groupItem := confined_groupItem_of_braceGroup hnotes ih
    rw [braceGroup_eq]
    refine .bind (.braces hnotes (.many hitem skips_groupItem.consumes)) fun _ => ?_
    exact .pure _

/-- The parts of a group stay between the braces. -/
theorem confined_groupItem {P : Option Failure → Prop} {after : List Token}
    (hnotes : Notes after P) (n : Nat) : Confined n after P groupItem :=
  confined_groupItem_of_braceGroup hnotes (confined_braceGroup hnotes n)

section Grammar

variable {after bound : List Token} {α : Type} {n : Nat} {p : Parser α}

/-- Under a label, what is pending is still further back than the bound. -/
theorem Confined.labelled {c : Construct} (hp : Confined n after (PendingBefore bound) p) :
    Confined n after (PendingBefore bound) (Parser.labelled c p) := by
  intro s depth hn hs hP
  obtain ⟨hok, hfail⟩ := hp { s with pending := none } depth hn hs .none
  refine ⟨fun v t h => ?_, fun f h => ?_⟩
  · obtain ⟨u, hu, rfl⟩ := of_labelled_eq_ok h
    obtain ⟨hsize, hclosing, hPu⟩ := hok v u hu
    exact ⟨hsize, hclosing, hP.behind hPu⟩
  · obtain ⟨g, hg, rfl⟩ := of_labelled_eq_fail h
    exact hP.join (by rw [Failure.rest_summarize]; exact hfail g hg g rfl)

/-- Recovery starts with nothing pending, and at the place where the parser did. -/
theorem Confined.recoverWith {r : Parser α} (hp : Confined n after (PendingBefore bound) p)
    (hr : Confined n after (PendingBefore bound) r) :
    Confined n after (PendingBefore bound) (Parser.recoverWith p r) := by
  intro s depth hn hs hP
  obtain ⟨hok, hfail⟩ := hp s depth hn hs hP
  refine ⟨fun v t h => ?_, fun f h => hfail f (of_recoverWith_eq_fail h)⟩
  rcases of_recoverWith_eq_ok h with h | ⟨f, u, -, hu, rfl⟩
  · exact hok v t h
  · exact (hr { s with pending := none } depth hn hs .none).1 v u hu

/-- Being confined is a property of what a parser does from each state. -/
theorem Confined.isLocal : Local fun p : Parser α => Confined n after P p := by
  intro p h s
  obtain ⟨q, hq, heq⟩ := h s.rest
  rw [heq s rfl]
  exact hq s

section Bound

variable (hbound : bound.length ≤ after.length)
include hbound

/-- What is noted between the braces is further back than anything behind them. -/
theorem notes_bound : Notes after (PendingBefore bound) :=
  fun pending rest e h hless =>
    notes_pendingBefore pending rest e h (Nat.lt_of_le_of_lt hbound hless)

/-- A recursive definition is confined if one round of it is. -/
theorem Confined.fix {body : Parser α → Parser α}
    (hbody : ∀ p, Confined n after (PendingBefore bound) p →
      Confined n after (PendingBefore bound) (body p)) :
    Confined n after (PendingBefore bound) (Parser.fix body) := by
  refine Confined.isLocal.fix
    (fun s depth _ hs _ => ⟨fun v t h => (by cases h), fun f h => ?_⟩) hbody
  obtain rfl := Reply.fail.inj h
  intro g hg
  obtain rfl := Option.some.inj hg
  dsimp only
  rw [← s.rest.size_eq]
  exact Nat.lt_of_le_of_lt hbound (length_lt_of_afterClosing hs)

/-- The grammar outside of braces and recovery stays between the braces. -/
theorem congruence_confined (n : Nat) :
    Congruence fun {_} p _ => Confined n after (PendingBefore bound) p where
  pure a := .pure a
  bind hp hf := .bind hp hf
  satisfy h := .satisfy (notes_bound hbound) h
  orElse hp hq := .orElse hp hq
  withSpan hp := .withSpan hp
  labelled hp := .labelled hp
  fix hbody := .fix hbound fun p hp => hbody p p hp

/-- A group that is skipped is closed between the braces, so it ends there. -/
theorem confined_skipGroup : Confined n after (PendingBefore bound) skipGroup := by
  refine .orElse_of_fail (confined_braceGroup (notes_bound hbound) n) fun s depth f _ hs hf hP => ?_
  show (∀ v t, openGroup { s with pending := some f } = .ok v t → _) ∧
    ∀ g, openGroup { s with pending := some f } = .fail g → _
  rw [openGroup, punctuator, bind_apply]
  rcases token_cases (.punctuator .leftBrace) { s with pending := some f } with
    heq | ⟨l, ts, htokens, hl, -⟩
  · rw [heq]
    refine ⟨fun v t h => (by cases h), fun g h => ?_⟩
    obtain rfl := Reply.fail.inj h
    exact Confined.note_of_afterClosing (s := { s with pending := some f }) (notes_bound hbound)
      hs hP _
  · -- a group between the braces is closed, so it would have been read
    dsimp only at htokens
    rw [htokens, afterClosing_open hl] at hs
    obtain ⟨next, hnext, -⟩ := exists_afterClosing hs
    obtain ⟨t, ht⟩ := exists_braceGroup_eq_ok htokens hl hnext
    rw [ht] at hf
    cases hf

/-- The first unit that is skipped is such a group or a token that is no brace. -/
theorem confined_firstUnit : Confined n after (PendingBefore bound) firstUnit := by
  refine .orElse_of_fail (confined_skipGroup hbound) fun s depth f _ hs hf hP => ?_
  show (∀ v t, noneOf [.punctuator .rightBrace] { s with pending := some f } = .ok v t → _) ∧
    ∀ g, noneOf [.punctuator .rightBrace] { s with pending := some f } = .fail g → _
  unfold noneOf select
  refine Confined.of_satisfy (s := { s with pending := some f }) (notes_bound hbound) hs hP ?_
  intro token ts htokens hsome
  refine ⟨fun hl => ?_, fun hr => ?_⟩
  · obtain ⟨t, ht⟩ := exists_skipGroup_eq_ok (s := s) htokens hl
    rw [ht] at hf
    cases hf
  · simp [hr] at hsome

/-- A statement that is skipped stays between the braces: they are not among its units. -/
theorem confined_statementError : Confined n after (PendingBefore bound) statementError := by
  have C := congruence_confined hbound n
  have hfurther : Confined n after (PendingBefore bound) furtherUnit := by
    refine .orElse (confined_skipGroup hbound) ?_
    unfold noneOf select
    exact .satisfy (notes_bound hbound) ⟨if_pos (by decide), if_pos (by decide)⟩
  refine .withSpan ?_
  refine .bind (confined_firstUnit hbound) fun _ => ?_
  refine .bind (C.many (q := furtherUnit) hfurther) fun _ => ?_
  refine .bind C.semicolon fun _ => ?_
  exact .pure _

/-- Inner pairs of braces are closed before the outer one. -/
theorem blockGuarded_confined (n : Nat) :
    BlockGuarded (fun {_} p _ => Confined n after (PendingBefore bound) p)
      (fun {_} p _ => Confined n after (PendingBefore bound) p) where
  toGuarded := (congruence_confined hbound n).guarded
  braces hp := (hp.braces (notes_bound hbound)).mono (Nat.le_succ n)
  statementError hp := hp.recoverWith (confined_statementError hbound)

/-- A statement stays between the braces that it stands in, recovery included. -/
theorem confined_statement : Confined n after (PendingBefore bound) statement := by
  have G := blockGuarded_confined hbound n
  have hstep {b : Parser (Block Stmt)} (hb : Confined n after (PendingBefore bound) b) :
      Confined n after (PendingBefore bound) (statementStep b) :=
    @BlockGuarded.statementStep _ _ G b b hb
  rw [← statementBy_strictBlock_eq]
  exact .fix hbound fun p hp => hstep (G.strictBlock (q := p) hp)

end Bound

/-- What is pending behind a pair of braces has the property if it had it before. -/
theorem of_between_eq_ok {P : Option Failure → Prop} (hp : Confined n after P p) {s t : State}
    {l : Token} {ts : List Token} {v : α} (hn : s.rest.size ≤ n) (hs : s.rest.tokens = l :: ts)
    (hafter : afterClosing 0 ts = some after) (hP : P s.pending)
    (hv : between .leftBrace .rightBrace p s = .ok v t) : P t.pending := by
  obtain ⟨l', ts', u, r, us, htokens, -, hu, -, -, rfl⟩ := exists_of_between_eq_ok hv
  obtain ⟨rfl, rfl⟩ := List.cons.inj (hs.symm.trans htokens)
  exact ((hp ⟨.ofList ts, s.pending, s.reported⟩ 0 (size_behind_lt (Nat.lt_succ_of_le hn) hs) hafter
    hP).1 v u hu).2.2

/-- A group of braces that has its closing brace is read up to there, and what is pending further on
remains. -/
theorem exists_braceGroup_of_notes {P : Option Failure → Prop} (hnotes : Notes after P) {s : State}
    {l : Token} {ts : List Token} (hs : s.rest.tokens = l :: ts)
    (hl : l.kind = .punctuator .leftBrace) (hafter : afterClosing 0 ts = some after)
    (hP : P s.pending) : ∃ pending, P pending ∧
      braceGroup s = .ok () ⟨.ofList after, pending, s.reported⟩ := by
  have hconsumes : Consumes groupItem := skips_groupItem.consumes
  obtain ⟨vs, t, ht, hrest⟩ := exists_between_many_eq_ok hconsumes keepsDepth_groupItem
    (fun u f _ hf => of_groupItem_eq_fail (fun _ _ _ htokens hl' hafter' =>
      exists_braceGroup_eq_ok htokens hl' hafter') hf) hs hl hafter
  -- inside the braces only what keeps `P` is noted
  have hitems := Confined.many (confined_groupItem hnotes s.rest.size) hconsumes
  have hPt : P t.pending := of_between_eq_ok hitems (Nat.le_refl _) hs hafter hP ht
  -- skipping reports nothing
  obtain ⟨read, new, -, hnew, -, hsilent⟩ := Skips.between (Quiet.many skips_groupItem) s vs t ht
  obtain rfl := List.length_eq_zero_iff.1 hsilent
  refine ⟨t.pending, hPt, ?_⟩
  rw [braceGroup_eq, bind_apply, ht]
  rw [List.append_nil] at hnew
  rw [← hnew, ← show t.rest = .ofList after from Input.ext hrest]
  rfl

/-- Behind a group of braces that has its closing brace, what is pending further on is kept. -/
theorem exists_braceGroup_keeps {s : State} {l : Token} {ts : List Token}
    (hs : s.rest.tokens = l :: ts) (hl : l.kind = .punctuator .leftBrace)
    (hafter : afterClosing 0 ts = some after) : ∃ pending, Keeps after s.pending pending ∧
      braceGroup s = .ok () ⟨.ofList after, pending, s.reported⟩ := by
  have hnotes : Notes after fun _ => True := fun _ _ _ _ _ => trivial
  obtain ⟨pending, -, hgroup⟩ := exists_braceGroup_of_notes hnotes hs hl hafter trivial
  -- the reply is the same, whatever is said of what is pending
  have hsame {pending' : Option Failure}
      (h : braceGroup s = .ok () ⟨.ofList after, pending', s.reported⟩) : pending' = pending :=
    congrArg State.pending (Reply.ok.inj (h.symm.trans hgroup)).2
  refine ⟨pending, ⟨fun hbefore => ?_, fun f hf hle => ?_⟩, hgroup⟩
  · obtain ⟨pending', hpending', hgroup'⟩ :=
      exists_braceGroup_of_notes notes_pendingBefore hs hl hafter hbefore
    exact hsame hgroup' ▸ hpending'
  · obtain ⟨pending', hpending', hgroup'⟩ :=
      exists_braceGroup_of_notes (notes_eq hle) hs hl hafter hf
    exact hsame hgroup' ▸ hpending'

end Grammar

end Grammar

end CrudLang
