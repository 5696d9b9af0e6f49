import CrudLang.Proofs.Comparison.Identity
import CrudLang.Proofs.Recovery.Approach

/-!
# No failure behind the place where skipping ends

A statement that is no conditional notes nothing behind the place where the skipping of it would end
(`Stop.safeOn_unconditional`). What it reads behind its first token does not change where skipping
would end: a pair of braces is skipped as a whole, nothing between them is noted behind them, and
without a closing brace skipping goes on to the end (`Stop.safe_braces`). Only a conditional may
read a token at which skipping ends, the `if` behind `else`.
-/

namespace CrudLang

open Grammar CrudLang.Parser

namespace Stop

variable {W : Stop} {n : Nat} {α β : Type} {V : α → α → Prop} {p : Parser α}

section Braces

/-- Some tokens that are one less than it takes to be no further on than the limit. -/
theorem exists_bound {after : List Token} (hafter : landing after = W.rest) (hpos : W.limit ≠ 0) :
    ∃ bound : List Token, bound.length ≤ after.length ∧ bound.length + 1 = W.limit := by
  have hle := length_landing_le after
  rw [hafter] at hle
  have hlimit := W.limit_le
  refine ⟨W.rest.drop (W.rest.length - (W.limit - 1)), ?_, ?_⟩ <;> rw [List.length_drop] <;> omega

/-- Between matching braces, whatever stands there, nothing is noted behind them. -/
def Inside (p : Parser α) : Prop :=
  KeepsDepth p ∧ ∀ {m : Nat} {after bound : List Token}, bound.length ≤ after.length →
    Confined m after (PendingBefore bound) p

/-- Nothing between matching braces is noted behind the stop. -/
theorem Inside.noted (h : Inside p) {after : List Token} (hstop : landing after = W.rest)
    {s : State} (hafter : afterClosing 0 s.rest.tokens = some after)
    (hpending : W.Noted s.pending) :
    (∀ v t, p s = .ok v t → W.Noted t.pending) ∧ ∀ f, p s = .fail f → W.limit ≤ f.rest.size := by
  -- what is noted further back than the stop is not behind the limit
  by_cases hpos : W.limit = 0
  · exact ⟨fun _ _ _ _ _ => hpos ▸ Nat.zero_le _, fun _ _ => hpos ▸ Nat.zero_le _⟩
  obtain ⟨bound, hbound, heq⟩ := exists_bound hstop hpos
  have hpending' : PendingBefore bound s.pending := fun f hf => by
    have hle := hpending f hf
    omega
  obtain ⟨hok, hfail⟩ := h.2 hbound s 0 (Nat.lt_succ_self _) hafter hpending'
  refine ⟨fun v t ht f hf => ?_, fun f hf => ?_⟩
  · have hless := (hok v t ht).2.2 f hf
    omega
  · have hless := hfail f hf f rfl
    omega

/-- A pair of braces. -/
theorem safe_braces (hV : ∀ v, ∃ w, V v w) (h : Inside p) :
    W.Safe n V (between .leftBrace .rightBrace p) where
  ok s v t hs hpending ht := by
    obtain ⟨l, ts, u, r, us, htokens, hl, hu, hrest, hr, rfl⟩ := exists_of_between_eq_ok ht
    obtain ⟨read, -, hread, -, hsame⟩ := h.1 _ v u hu
    have hclosed : afterClosing 0 ts = some us := by
      rw [show ts = read ++ u.rest.tokens from hread, hsame, hrest, afterClosing_close_zero hr]
    have hstop : landing us = W.rest := by
      rw [← landing_closed hl hclosed, ← htokens]
      exact hs.2
    have hsuffix : us <:+ s.rest.tokens := by
      rw [htokens]
      exact (afterClosing_suffix hclosed).trans (List.suffix_cons l ts)
    refine ⟨hV _, ?_, hstop, ?_⟩
    · rw [← s.rest.size_eq]
      exact hsuffix.length_le
    · exact (h.noted (s := ⟨.ofList ts, s.pending, s.reported⟩) hstop hclosed hpending).1 v u hu
  fail s f hs hpending hf := by
    rcases of_between_eq_fail hf with rfl | ⟨l, ts, htokens, hl, hinner⟩
    · exact hpending.note hs.2.limit_le _
    have hat : landing (l :: ts) = W.rest := htokens ▸ hs.2
    cases hafter : afterClosing 0 ts with
    | none =>
      -- without a closing brace there is no limit
      have hlimit := W.limit_le
      rw [← hat, landing_open hl hafter] at hlimit
      exact Nat.le_trans hlimit (Nat.zero_le _)
    | some after =>
      have hstop := (landing_closed hl hafter).symm.trans hat
      obtain ⟨hok, hfail⟩ :=
        h.noted (s := ⟨.ofList ts, s.pending, s.reported⟩) hstop hafter hpending
      rcases hinner with hf | ⟨w, u, hw, rfl⟩
      · exact hfail _ hf
      · -- the closing brace is still to come
        obtain ⟨read, -, hread, -, hsame⟩ := h.1 _ w u hw
        have hend : afterClosing 0 u.rest.tokens = some after := by
          rw [← hsame, ← hread]
          exact hafter
        refine (hok w u hw).note ?_ _
        have hle := length_landing_le after
        have hless := length_lt_of_afterClosing hend
        have hlimit := W.limit_le
        rw [hstop] at hle
        rw [u.rest.size_eq] at hless
        omega

/-- The statements of a block. -/
theorem inside_many_statement : Inside (many statement) :=
  ⟨congruence_keepsDepth.many (q := statement) keepsDepth_statement, fun hbound =>
    .many (confined_statement hbound) consumes_statement⟩

/-- The members of a class. -/
theorem inside_members : Inside (many (member (strictBlock statement))) := by
  have hdepth : KeepsDepth (member (strictBlock statement)) :=
    @Congruence.member _ congruence_keepsDepth _ (strictBlock statement)
      (blockGuarded_keepsDepth.strictBlock (q := statement) keepsDepth_statement)
  refine ⟨congruence_keepsDepth.many (q := member (strictBlock statement)) hdepth, fun hbound => ?_⟩
  exact .many (@Congruence.member _ (congruence_confined hbound _) _ (strictBlock statement)
    ((blockGuarded_confined hbound _).strictBlock (q := statement) (confined_statement hbound)))
    consumes_member_strictBlock

end Braces

section Forms

/-- A block, whose statements stand between braces. -/
theorem safe_strictBlock : W.Safe n Likeness.equal.body (strictBlock statement) := by
  have hbraces : W.Safe n Eq (between .leftBrace .rightBrace (many statement)) :=
    safe_braces (fun v => ⟨v, rfl⟩) inside_many_statement
  refine .labelled (.withSpan (L := .equal) (hbraces.bind ?_))
  rintro stmts _ rfl
  exact .pure (w := Block.mk stmts) fun _ _ hs => ⟨List.forall₂_same.2 fun _ _ => rfl, hs⟩

/-- A place where the skipping of a statement would end at the stop. -/
def Starts (W : Stop) (n : Nat) (a : Input) : Prop :=
  a.size < n ∧ statementLanding a.tokens = W.rest

/-- A statement does not start behind the limit. -/
theorem Starts.limit_le {a : Input} (h : W.Starts n a) : W.limit ≤ a.size := by
  rw [← a.size_eq]
  refine Nat.le_trans W.limit_le ?_
  rw [← h.2]
  exact Nat.le_trans (length_statementLanding_le _) (length_landing_le _)

/-- Behind the first token of a statement, if skipping would end at it. -/
theorem Starts.next {a b : Input} {t : Token} (h : W.Starts n a) (ha : a.tokens = t :: b.tokens)
    (ht : Halts t.kind) (hr : t.kind ≠ .punctuator .rightBrace) : b.size < n ∧ W.Before b := by
  have hsize := Input.size_of_tokens_eq_cons ha
  refine ⟨Nat.lt_of_le_of_lt (by omega) h.1, ?_⟩
  rw [Before, ← statementLanding_of_halts ht hr, ← ha]
  exact h.2

/-- The first token of a statement may be one at which skipping would end. -/
theorem safeOn_read {read? : TokenKind → Option α} {e : Expectation} {V' : β → β → Prop}
    {f : α → Parser β}
    (hread : ∀ k v, read? k = some v → Halts k ∧ k ≠ .punctuator .rightBrace)
    (hf : ∀ v, W.Safe n V' (f v)) : W.SafeOn (W.Starts n) V' (satisfy read? e >>= f) := by
  have htoken : W.SafeOn (W.Starts n) Eq (satisfy read? e) := by
    refine .satisfy_on (fun _ _ _ => rfl) (fun a ha => ha.limit_le) fun a b t v ha htokens hv => ?_
    obtain ⟨hhalts, hr⟩ := hread _ v hv
    exact (ha.next htokens hhalts hr).2
  refine htoken.bind_on (fun s v t hs hv _ _ => ?_) fun v _ _ => hf v
  obtain ⟨token, htokens, hsome, -⟩ := of_satisfy_eq_ok hv
  obtain ⟨hhalts, hr⟩ := hread _ v hsome
  exact hs.next htokens hhalts hr

theorem safeOn_keyword {k : Keyword} {V' : β → β → Prop} {f : Unit → Parser β}
    (hk : TokenKind.keyword k ∈ statementBoundaries) (hf : W.Safe n V' (f ())) :
    W.SafeOn (W.Starts n) V' (keyword k >>= f) := by
  unfold keyword token
  refine safeOn_read (fun kind _ hkind => ?_) fun _ => hf
  split at hkind
  next heq =>
    rw [heq]
    exact ⟨⟨hk, nofun⟩, nofun⟩
  next => cases hkind

/-- A form of statements without a keyword in front. Where it begins, skipping does not end: else
nothing would be read, wherever the stop is. -/
theorem safeOn_of_safe (hconsumes : Consumes p) (h : ∀ W : Stop, W.Safe n V p) :
    W.SafeOn (W.Starts n) V p := by
  -- a stop where skipping would end at once, with the same limit
  have hhere (s : State) (hs : W.Starts n s.rest) : W.Before s.rest ∨ ∃ W' : Stop,
      W'.limit = W.limit ∧ W'.Before s.rest ∧ W'.rest = s.rest.tokens := by
    cases htokens : s.rest.tokens with
    | nil => exact .inl (by rw [Before, ← hs.2, htokens, landing_nil]; rfl)
    | cons t ts =>
      by_cases ht : Halts t.kind
      · have hland : landing s.rest.tokens = t :: ts := by rw [htokens, landing_of_halts ht]
        have hlimit : W.limit ≤ (t :: ts).length := by
          rw [← htokens, s.rest.size_eq]
          exact hs.limit_le
        exact .inr ⟨⟨t :: ts, W.limit, hlimit⟩, rfl, hland, rfl⟩
      · exact .inl (by rw [Before, ← hs.2, htokens, statementLanding_of_not_halts ht])
  constructor
  · intro s v t hs hpending ht
    rcases hhere s hs with hbefore | ⟨W', heq, hbefore, hrest⟩
    · exact (h W).ok s v t ⟨hs.1, hbefore⟩ hpending ht
    · have hnoted : W'.Noted s.pending := fun f hf => heq ▸ hpending f hf
      obtain ⟨-, -, hbefore', -⟩ := (h W').ok s v t ⟨hs.1, hbefore⟩ hnoted ht
      have hle := length_landing_le t.rest.tokens
      have hless := hconsumes s v t ht
      rw [show landing t.rest.tokens = W'.rest from hbefore', hrest, s.rest.size_eq,
        t.rest.size_eq] at hle
      omega
  · intro s f hs hpending hf
    rcases hhere s hs with hbefore | ⟨W', heq, hbefore, hrest⟩
    · exact (h W).fail s f ⟨hs.1, hbefore⟩ hpending hf
    · have hnoted : W'.Noted s.pending := fun f hf => heq ▸ hpending f hf
      exact heq ▸ (h W').fail s f ⟨hs.1, hbefore⟩ hnoted hf

/-- A statement that is no conditional is safe where its skipping would end at the stop. -/
theorem safeOn_form (form : Form) : W.SafeOn (W.Starts n)
    (Likeness.equal.built Likeness.equal.stmt) (form.parser (strictBlock statement)) := by
  have S (W : Stop) := W.expressionSimulation .equal
  have hspells := spells_strictBlock spells_statement
  have hb (W : Stop) : W.Safe n Likeness.equal.body (strictBlock statement) := safe_strictBlock
  -- skipping ends at every keyword of a statement, so the stop is behind it, in what follows
  cases form with
  | var => exact safeOn_keyword (by decide) (S W).behindVar
  | const => exact safeOn_keyword (by decide) (S W).behindConst
  | func => exact .labelled (safeOn_keyword (by decide) ((S W).behindFunc (hb W)))
  | «class» =>
    have hmembers : W.Safe n (List.Forall₂ Likeness.equal.stmt)
        (between .leftBrace .rightBrace (many (member (strictBlock statement)))) :=
      safe_braces (fun v => ⟨v, List.forall₂_same.2 fun _ _ => rfl⟩) inside_members
    refine .labelled (safeOn_keyword (by decide) ?_)
    refine Safe.bind (S W).identifier fun _ _ hname => ?_
    refine hmembers.bind fun _ _ hmembers => ?_
    exact .pure fun _ _ hs => Likeness.equal.classDef hname hmembers hs
  | loop => exact safeOn_keyword (by decide) ((S W).behindLoop (hb W))
  | «while» => exact safeOn_keyword (by decide) ((S W).behindWhile (hb W))
  | crud =>
    have hcrud : W.SafeOn (W.Starts n) (Likeness.equal.built Likeness.equal.stmt)
        (crudOperator >>= behindCrud) := by
      unfold crudOperator select
      refine safeOn_read (fun k op hop => ?_) fun op => (S W).behindCrud op
      split at hop
      case h_5 => cases hop
      all_goals exact ⟨by decide, nofun⟩
    exact .labelled hcrud
  | «return» => exact safeOn_keyword (by decide) (S W).behindReturn
  | block =>
    have hconsumes : Consumes (blockStatement (strictBlock statement)) := by
      refine Consumes.bind (.of_spells hspells fun _ _ _ h => by cases h.1) fun _ => ?_
      exact .pure _
    exact safeOn_of_safe hconsumes fun W => (S W).blockStatement (hb W)
  | expr =>
    have hconsumes : Consumes expressionStatement := by
      refine Consumes.bind (.of_spells spells_expression fun _ _ _ h => h.1.ne_nil rfl) fun _ => ?_
      exact .pure _
    exact safeOn_of_safe hconsumes fun W => (S W).expressionStatement

theorem safeOn_unconditional : W.SafeOn (W.Starts n) Likeness.equal.stmt
    (unconditional (strictBlock statement)) := by
  refine .withSpan (L := .equal) (.choice fun q hq => ?_)
  obtain ⟨form, rfl⟩ := Form.exists_of_mem hq
  exact safeOn_form form

end Forms

end Stop

end CrudLang
