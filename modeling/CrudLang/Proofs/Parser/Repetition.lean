import CrudLang.Proofs.Parser.Reads

/-!
# Repetitions

`Rounds p s vs t` says that `p`, run again and again from `s` on, succeeds once for each of the
values `vs` and arrives at `t`. Nothing in it bounds the rounds, so it is the measure of what a
repetition should do: make all rounds that there are, and then stop. If the parser takes at least
one token in each round, its repetition does so, after no more rounds than there are tokens left
(`Consumes.stopsInTime`, and `exists_separated_eq_ok` for items with separators between them).
-/

namespace CrudLang.Parser

variable {α β : Type}

/-- Whenever the parser succeeds, it has not gone back. -/
def Forward (p : Parser α) : Prop :=
  ∀ s v t, p s = .ok v t → t.rest.size ≤ s.rest.size

/-- Whenever the parser succeeds, it has taken at least one token. -/
def Consumes (p : Parser α) : Prop :=
  ∀ s v t, p s = .ok v t → t.rest.size < s.rest.size

/-- What is spelled by at least one token consumes. -/
theorem Consumes.of_spells {p : Parser α} {P : α → List TokenKind → List TokenKind → Nat → Prop}
    (hp : Spells p P) (h : ∀ v us n, ¬ P v [] us n) : Consumes p := by
  intro s v t hs
  obtain ⟨read, new, hread, -, hP⟩ := hp s v t hs
  cases read with
  | nil => exact absurd hP (h _ _ _)
  | cons token read =>
    rw [← s.rest.size_eq, ← t.rest.size_eq, hread, List.length_append, List.length_cons]
    omega

/-- What is spelled by tokens moves forward. -/
theorem Forward.of_spells {p : Parser α} {P : α → List TokenKind → List TokenKind → Nat → Prop}
    (hp : Spells p P) : Forward p :=
  fun _ _ _ hs => Ensures.size_le hp hs

/-- A parser that consumes moves forward. -/
theorem Consumes.forward {p : Parser α} (hp : Consumes p) : Forward p :=
  fun s v t hs => Nat.le_of_lt (hp s v t hs)

/-- A value does not move. -/
theorem Forward.pure (a : α) : Forward (Pure.pure a : Parser α) := by
  intro s v t hs
  obtain ⟨-, rfl⟩ := of_pure_eq_ok hs
  exact Nat.le_refl _

/-- A sequence moves forward if both parts do. -/
theorem Forward.bind {p : Parser α} {f : α → Parser β} (hp : Forward p)
    (hf : ∀ a, Forward (f a)) : Forward (p >>= f) := by
  intro s v u hs
  obtain ⟨a, t, ha, hv⟩ := of_bind_eq_ok hs
  exact Nat.le_trans (hf a t v u hv) (hp s a t ha)

/-- One token is consumed. -/
theorem Consumes.satisfy {read? : TokenKind → Option α} {e : Expectation} :
    Consumes (satisfy read? e) := by
  intro s v t hs
  obtain ⟨token, htokens, -⟩ := of_satisfy_eq_ok hs
  rw [← s.rest.size_eq, ← t.rest.size_eq, htokens, List.length_cons]
  exact Nat.lt_succ_self _

/-- One token of a kind is consumed. -/
theorem Consumes.token (kind : TokenKind) : Consumes (token kind) :=
  .satisfy

/-- What stands behind something that takes a token need not take another one. -/
theorem Consumes.bind {p : Parser α} {f : α → Parser β} (hp : Consumes p)
    (hf : ∀ a, Forward (f a)) : Consumes (p >>= f) := by
  intro s v u hs
  obtain ⟨a, t, ha, hv⟩ := of_bind_eq_ok hs
  exact Nat.lt_of_le_of_lt (hf a t v u hv) (hp s a t ha)

/-- A sequence succeeds if its first part does here and the second one anywhere. -/
theorem exists_bind_eq_ok {p : Parser α} {f : α → Parser β} {s : State}
    (hp : ∃ a t, p s = .ok a t) (hf : ∀ a t, ∃ b u, f a t = .ok b u) :
    ∃ b u, (p >>= f) s = .ok b u := by
  obtain ⟨a, t, ha⟩ := hp
  rw [bind_apply, ha]
  exact hf a t

/-- The span of what is read can be taken whenever it is read. -/
theorem exists_withSpan_eq_ok {p : Parser (Span → α)} {s : State}
    (hp : ∃ build t, p s = .ok build t) : ∃ v t, withSpan p s = .ok v t := by
  obtain ⟨build, t, hbuild⟩ := hp
  exact ⟨_, t, by rw [withSpan, hbuild]⟩

/-- A parser that reads something or nothing always succeeds. -/
theorem exists_optional_eq_ok (p : Parser α) (s : State) :
    ∃ v t, optional p s = .ok v t := by
  unfold optional orElse
  split
  · exact ⟨_, _, rfl⟩
  · exact ⟨_, _, rfl⟩

/-- Something is read, or its failure is pending. -/
theorem of_optional_eq_ok {p : Parser α} {s t : State} {v : Option α}
    (h : optional p s = .ok v t) :
    (∃ w, p s = .ok w t) ∨ ∃ f, p s = .fail f ∧ t = { s with pending := some f } := by
  rcases of_orElse_eq_ok h with hsome | ⟨f, hf, hnone⟩
  · obtain ⟨w, u, hw, hpure⟩ := of_bind_eq_ok hsome
    obtain ⟨-, rfl⟩ := of_pure_eq_ok hpure
    exact .inl ⟨w, hw⟩
  · obtain ⟨-, rfl⟩ := of_pure_eq_ok hnone
    rcases of_bind_eq_fail hf with hf | ⟨w, u, -, hpure⟩
    · exact .inr ⟨f, hf, rfl⟩
    · cases hpure

/-- Something that may be missing moves forward. -/
theorem Forward.optional {p : Parser α} (hp : Forward p) : Forward (optional p) := by
  intro s v t ht
  rcases of_optional_eq_ok ht with ⟨w, hw⟩ | ⟨f, -, rfl⟩
  · exact hp s w t hw
  · exact Nat.le_refl _

/-- A token that may be missing is read if it is there. -/
theorem optional_token_of_eq {kind : TokenKind} {s : State} {t : Token} {ts : List Token}
    (h : s.rest.tokens = t :: ts) (hkind : t.kind = kind) :
    optional (token kind) s = .ok (some ()) ⟨.ofList ts, s.pending, s.reported⟩ := by
  rw [optional, orElse, map_apply, token_apply_cons kind (a := .ofList ts) h, if_pos hkind]

/-- Where a token is missing, nothing is read but that is noted. -/
theorem optional_token_of_ne {kind : TokenKind} {s : State}
    (h : ∀ t ts, s.rest.tokens = t :: ts → t.kind ≠ kind) : optional (token kind) s =
      .ok none { s with pending := some (.note s.pending s.rest (.token kind)) } := by
  have hfail : token kind s = .fail (.note s.pending s.rest (.token kind)) :=
    satisfy_eq_unexpected (fun t ts hts => if_neg (h t ts hts)) _
  rw [optional, orElse, map_apply, hfail]
  rfl

/-- A token that may be missing is read, or another one stands there. -/
theorem of_optional_token_eq_ok {kind : TokenKind} {s t : State} {v : Option Unit}
    (h : optional (token kind) s = .ok v t) :
    (∃ r rest, s.rest.tokens = r :: rest ∧ r.kind = kind ∧
        t = ⟨.ofList rest, s.pending, s.reported⟩) ∨
      (∀ r rest, s.rest.tokens = r :: rest → r.kind ≠ kind) ∧
        t = { s with pending := some (.note s.pending s.rest (.token kind)) } := by
  by_cases hkind : ∃ r rest, s.rest.tokens = r :: rest ∧ r.kind = kind
  · obtain ⟨r, rest, htokens, hr⟩ := hkind
    exact .inl ⟨r, rest, htokens, hr,
      (Reply.ok.inj (h.symm.trans (optional_token_of_eq htokens hr))).2⟩
  · have hne (r : Token) (rest : List Token) (htokens : s.rest.tokens = r :: rest) :
        r.kind ≠ kind := fun hr => hkind ⟨r, rest, htokens, hr⟩
    exact .inr ⟨hne, (Reply.ok.inj (h.symm.trans (optional_token_of_ne hne))).2⟩

/-- The equation for repetitions: the bound on the rounds is never met. -/
theorem many_eq {p : Parser α} (hp : Consumes p) : many p = orElse (do
      let first ← p
      let others ← many p
      pure (first :: others)) (pure []) := by
  funext s
  rw [many_apply, orElse, orElse, bind_apply, bind_apply]
  cases hv : p s with
  | fail f => rfl
  | ok v t =>
    dsimp only
    rw [bind_apply, bind_apply, below, if_pos (hp s v t hv)]

/-- A repetition has read another item, or it stays where it is. -/
theorem of_many_eq_ok {p : Parser α} (hp : Consumes p) {s t : State} {vs : List α}
    (h : many p s = .ok vs t) :
    (∃ v u ws, p s = .ok v u ∧ many p u = .ok ws t ∧ vs = v :: ws) ∨
      vs = [] ∧ t.rest = s.rest ∧ t.reported = s.reported := by
  rw [many_eq hp] at h
  rcases of_orElse_eq_ok h with h | ⟨f, -, h⟩
  · obtain ⟨v, u, hv, hmore⟩ := of_bind_eq_ok h
    obtain ⟨ws, t', hws, hpure⟩ := of_bind_eq_ok hmore
    obtain ⟨rfl, rfl⟩ := of_pure_eq_ok hpure
    exact .inl ⟨v, u, ws, hv, hws, rfl⟩
  · obtain ⟨rfl, rfl⟩ := of_pure_eq_ok h
    exact .inr ⟨rfl, rfl, rfl⟩

/-- A repetition goes on behind a successful round. -/
theorem many_eq_cons {p : Parser α} (hp : Consumes p) {s t u : State} {v : α} {vs : List α}
    (hv : p s = .ok v t) (hvs : many p t = .ok vs u) : many p s = .ok (v :: vs) u := by
  rw [many_eq hp, orElse, bind_apply, hv]
  dsimp only
  rw [bind_apply, hvs]
  rfl

/-- A repetition moves forward. -/
theorem Forward.many {p : Parser α} (hp : Consumes p) : Forward (many p) := by
  intro s
  generalize hsize : s.rest.size = size
  induction size using Nat.strongRecOn generalizing s with
  | ind size ih =>
    intro vs t hvs
    rcases of_many_eq_ok hp hvs with ⟨v, u, ws, hv, hws, -⟩ | ⟨-, hrest, -⟩
    · have hless : u.rest.size < size := hsize ▸ hp s v u hv
      exact Nat.le_trans (ih _ hless u rfl ws t hws) (Nat.le_of_lt hless)
    · exact Nat.le_of_eq (by rw [hrest, hsize])

/-- The parser succeeds once for each value, each time where it stopped the time before. -/
inductive Rounds (p : Parser α) : State → List α → State → Prop
  | nil {s : State} : Rounds p s [] s
  | cons {s t u : State} {v : α} {vs : List α} :
      p s = .ok v t → Rounds p t vs u → Rounds p s (v :: vs) u

/-- From whatever state, the repetition of the parser makes all rounds that there are: it stops
where another one fails, with the input and the reports of that place. There are not more rounds
than tokens left. -/
def StopsInTime (p : Parser α) : Prop :=
  ∀ s : State, ∃ vs t f, Rounds p s vs t ∧ p t = .fail f ∧
    many p s = .ok vs { t with pending := some f } ∧ vs.length + t.rest.size ≤ s.rest.size

namespace Rounds

variable {p : Parser α} {s t : State} {vs : List α}

/-- Each round takes a token. -/
theorem length_add_size_le (hp : Consumes p) (h : Rounds p s vs t) :
    vs.length + t.rest.size ≤ s.rest.size := by
  induction h with
  | nil => simp
  | cons hv _ ih =>
    have hless := hp _ _ _ hv
    rw [List.length_cons]
    omega

/-- A repetition makes the rounds up to the place where another one fails. -/
theorem many_eq_ok (hp : Consumes p) (h : Rounds p s vs t) {f : Failure} (hf : p t = .fail f) :
    many p s = .ok vs { t with pending := some f } := by
  induction h with
  | nil =>
    rw [many_eq hp, orElse, bind_apply, hf]
    rfl
  | cons hv _ ih => exact many_eq_cons hp hv (ih hf)

end Rounds

/-- There is a last round. -/
theorem Consumes.exists_rounds {p : Parser α} (hp : Consumes p) (s : State) :
    ∃ vs t f, Rounds p s vs t ∧ p t = .fail f := by
  -- each round takes a token, so the induction is on the size of the input
  generalize hsize : s.rest.size = size
  induction size using Nat.strongRecOn generalizing s with
  | ind size ih =>
    cases hv : p s with
    | fail f => exact ⟨[], s, f, .nil, hv⟩
    | ok v t =>
      obtain ⟨vs, u, f, hvs, hf⟩ := ih t.rest.size (hsize ▸ hp s v t hv) t rfl
      exact ⟨v :: vs, u, f, .cons hv hvs, hf⟩

/-- What consumes can be repeated no more often than there are tokens. -/
theorem Consumes.stopsInTime {p : Parser α} (hp : Consumes p) : StopsInTime p := by
  intro s
  obtain ⟨vs, t, f, hrounds, hf⟩ := hp.exists_rounds s
  exact ⟨vs, t, f, hrounds, hf, hrounds.many_eq_ok hp hf, hrounds.length_add_size_le hp⟩

/-- A repetition succeeds, and where it stops, its parser fails. -/
theorem exists_many_eq_ok {p : Parser α} (hp : Consumes p) (s : State) :
    ∃ vs t u f, many p s = .ok vs t ∧ u.rest = t.rest ∧ p u = .fail f := by
  obtain ⟨vs, t, f, -, hf, hmany, -⟩ := hp.stopsInTime s
  exact ⟨vs, _, t, f, hmany, rfl, hf⟩

/-- Items with separators between them are read, and there are not more of them than tokens left. -/
theorem exists_separated_eq_ok {item : Parser α} {separator : Parser Unit} (hitem : Consumes item)
    (hseparator : Consumes separator) (s : State) : ∃ vs t,
      separated item separator s = .ok vs t ∧ vs.length + t.rest.size ≤ s.rest.size := by
  have hround : Consumes (do separator; item) := hseparator.bind fun _ => hitem.forward
  rw [separated, orElse, bind_apply]
  cases hv : item s with
  -- without a first item there is none
  | fail f => exact ⟨[], { s with pending := some f }, rfl, by simp⟩
  | ok v t =>
    obtain ⟨vs, u, f, -, -, hmany, hle⟩ := hround.stopsInTime t
    -- behind the last item a separator may stand
    obtain ⟨w, u', hw⟩ := exists_optional_eq_ok separator { u with pending := some f }
    refine ⟨v :: vs, u', ?_, ?_⟩
    · dsimp only
      rw [bind_apply, hmany]
      dsimp only
      rw [bind_apply, hw]
      rfl
    · have hless : t.rest.size < s.rest.size := hitem s v t hv
      have hle' : u'.rest.size ≤ u.rest.size :=
        hseparator.forward.optional { u with pending := some f } w u' hw
      rw [List.length_cons]
      omega

end CrudLang.Parser
