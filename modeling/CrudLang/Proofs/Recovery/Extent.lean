import CrudLang.Proofs.Grammar.Blocks
import CrudLang.Proofs.Recovery.Order

/-!
# What a skipped statement covers

A statement that cannot be read is skipped by units: single tokens, groups of balanced braces, and a
brace that is never closed with everything behind it. The first unit may be any of them. Further
units follow as long as none begins with a semicolon, a closing brace or a keyword of a statement,
and a semicolon behind them is taken along (`Extent`).

Taking units off does not change where skipping ends (`FurtherUnits.landing_append`), so the units
up to that place are the longest run of them, and a statement that is skipped covers its extent and
nothing else (`Grammar.Skipped.extent`).
-/

namespace CrudLang

open Grammar

/-- A unit of skipping, with `rest` behind it: a token other than a brace, a group of balanced
braces, or a brace that is never closed with everything up to the end. -/
inductive SkipUnit : List Token → List Token → Prop
  | token {t rest} : t.kind ≠ .punctuator .leftBrace → t.kind ≠ .punctuator .rightBrace →
      SkipUnit [t] rest
  | group {l inner r rest} : l.kind = .punctuator .leftBrace → Balanced inner →
      r.kind = .punctuator .rightBrace → SkipUnit (l :: (inner ++ [r])) rest
  | unclosed {l ts} : l.kind = .punctuator .leftBrace → afterClosing 0 ts = none →
      SkipUnit (l :: ts) []

/-- A token that no further unit begins with: a semicolon, a closing brace or a keyword that
statements begin with. -/
def TokenKind.EndsSkipping (k : TokenKind) : Prop :=
  k = .punctuator .semicolon ∨ k = .punctuator .rightBrace ∨
    ∃ word ∈ statementKeywords, k = .keyword word

/-- Further units one behind the other, with `rest` behind them. -/
inductive FurtherUnits : List Token → List Token → Prop
  | nil {rest} : FurtherUnits [] rest
  | cons {unit units rest} : SkipUnit unit (units ++ rest) →
      (∀ t ∈ unit.head?, ¬ t.kind.EndsSkipping) → FurtherUnits units rest →
      FurtherUnits (unit ++ units) rest

/-- What a statement that cannot be read covers of `run ++ rest`: one unit, the longest run of
further units, and a semicolon if that comes next. -/
inductive Extent : List Token → List Token → Prop
  | intro {first further semi rest} : SkipUnit first (further ++ semi ++ rest) →
      FurtherUnits further (semi ++ rest) →
      (∀ further' rest', further ++ semi ++ rest = further' ++ rest' →
        FurtherUnits further' rest' → further'.length ≤ further.length) →
      (kindsOf semi = [.punctuator .semicolon] ∨
        semi = [] ∧ ∀ t ∈ rest.head?, t.kind ≠ .punctuator .semicolon) →
      Extent (first ++ further ++ semi) rest

theorem halts_iff {k : TokenKind} : Halts k ↔ k.EndsSkipping := by
  constructor
  · intro h
    by_cases hsemi : k = .punctuator .semicolon
    · exact .inl hsemi
    by_cases hr : k = .punctuator .rightBrace
    · exact .inr (.inl hr)
    · exact .inr (.inr (h.exists_keyword hsemi hr))
  · rintro (rfl | rfl | ⟨word, hword, rfl⟩)
    · decide
    · decide
    · revert word
      decide

namespace SkipUnit

variable {unit rest : List Token} {t : Token} {ts : List Token}

theorem ne_nil (h : SkipUnit unit rest) : unit ≠ [] := by
  cases h <;> exact List.cons_ne_nil _ _

/-- A unit that is a further one does not change where skipping ends. -/
theorem landing_append (h : SkipUnit unit rest) (hhead : ∀ t ∈ unit.head?, ¬ t.kind.EndsSkipping) :
    landing (unit ++ rest) = landing rest := by
  cases h with
  | @token t rest hl hr =>
    refine landing_skipped fun hmem => hhead t rfl (halts_iff.1 ⟨hmem, hl⟩)
  | @group l inner r rest hl hinner hr =>
    have hafter : afterClosing 0 (inner ++ r :: rest) = some rest :=
      afterClosing_eq_some_iff.2 ⟨inner, r, rfl, hr, hinner⟩
    have hgroup : l :: (inner ++ [r]) ++ rest = l :: (inner ++ r :: rest) := by simp
    rw [hgroup, landing_closed hl hafter]
  | unclosed hl hnone => rw [List.append_nil, landing_open hl hnone, landing_nil]

/-- Where a token other than a closing brace is next, there is a unit. -/
theorem exists_of_ne (t : Token) (ts : List Token) (ht : t.kind ≠ .punctuator .rightBrace) :
    ∃ unit rest, t :: ts = unit ++ rest ∧ SkipUnit unit rest ∧ unit.head? = some t ∧
      (t.kind ≠ .punctuator .leftBrace → rest = ts) := by
  by_cases hl : t.kind = .punctuator .leftBrace
  · cases hafter : afterClosing 0 ts with
    | none => exact ⟨t :: ts, [], by simp, .unclosed hl hafter, rfl, fun h => absurd hl h⟩
    | some after =>
      obtain ⟨inner, r, rfl, hr, hinner⟩ := afterClosing_eq_some_iff.1 hafter
      exact ⟨t :: (inner ++ [r]), after, by simp, .group hl hinner hr, rfl, fun h => absurd hl h⟩
  · exact ⟨[t], ts, rfl, .token hl ht, rfl, fun _ => rfl⟩

end SkipUnit

namespace FurtherUnits

variable {units rest : List Token}

/-- Taking off further units does not change where skipping ends. -/
theorem landing_append (h : FurtherUnits units rest) : landing (units ++ rest) = landing rest := by
  induction h with
  | nil => rfl
  | cons hunit hhead _ ih => rw [List.append_assoc, hunit.landing_append hhead, ih]

/-- Up to where skipping ends, there are further units. -/
theorem exists_landing (ts : List Token) :
    ∃ units, ts = units ++ landing ts ∧ FurtherUnits units (landing ts) := by
  induction hlength : ts.length using Nat.strongRecOn generalizing ts with
  | ind length ih =>
    cases ts with
    | nil => exact ⟨[], by simp, .nil⟩
    | cons t ts =>
      by_cases hends : t.kind.EndsSkipping
      · exact ⟨[], by rw [landing_of_halts (halts_iff.2 hends)]; rfl, .nil⟩
      -- one more unit, and then the further ones behind it
      obtain ⟨unit, rest, heq, hunit, hhead, -⟩ :=
        SkipUnit.exists_of_ne t ts fun hr => hends (.inr (.inl hr))
      have hfurther : ∀ t ∈ unit.head?, ¬ t.kind.EndsSkipping := by
        rw [hhead]
        rintro t' ht'
        obtain rfl := Option.some.inj ht'
        exact hends
      have hless : rest.length < length := by
        have hpos := List.length_pos_iff.2 hunit.ne_nil
        rw [← hlength, heq, List.length_append]
        omega
      obtain ⟨units, hrest, hunits⟩ := ih rest.length hless rest rfl
      rw [heq, hunit.landing_append hfurther]
      refine ⟨unit ++ units, by rw [List.append_assoc, ← hrest], .cons ?_ hfurther hunits⟩
      rwa [← hrest]

/-- No further units go beyond the place where skipping ends. -/
theorem length_le {further : List Token} (h : FurtherUnits units rest)
    (heq : further ++ landing (units ++ rest) = units ++ rest) :
    units.length ≤ further.length := by
  have hle := length_landing_le rest
  have hlength := congrArg List.length heq
  rw [h.landing_append, List.length_append, List.length_append] at hlength
  omega

end FurtherUnits

namespace Grammar

open CrudLang.Parser

/-- The first unit of a statement, whatever it begins with, is followed by further ones up to the
place where the skipping of the statement ends. -/
theorem exists_firstUnit {t : Token} {ts : List Token} (ht : t.kind ≠ .punctuator .rightBrace) :
    ∃ first rest, t :: ts = first ++ rest ∧ SkipUnit first rest ∧
      statementLanding (t :: ts) = landing rest := by
  obtain ⟨first, rest, heq, hfirst, hhead, hrest⟩ := SkipUnit.exists_of_ne t ts ht
  refine ⟨first, rest, heq, hfirst, ?_⟩
  by_cases hhalts : Halts t.kind
  · rw [statementLanding_of_halts hhalts ht, hrest hhalts.2]
  · rw [statementLanding_of_not_halts hhalts, heq]
    refine hfirst.landing_append fun t' ht' hends => hhalts (halts_iff.2 ?_)
    rw [hhead] at ht'
    rwa [Option.some.inj ht']

/-- A statement that is skipped covers its extent. -/
theorem Skipped.extent {s t : State} (h : Skipped s t) {read : List Token}
    (hread : s.rest.tokens = read ++ t.rest.tokens) : Extent read t.rest.tokens := by
  obtain ⟨r, ts, htokens, hr⟩ := h.head
  obtain ⟨first, behind, heq, hfirst, hlanding⟩ := @exists_firstUnit r ts hr
  obtain ⟨further, hbehind, hfurther⟩ := FurtherUnits.exists_landing behind
  rw [← hlanding, ← htokens] at hbehind hfurther
  -- behind the further units there is the place where skipping ends, with a semicolon or not
  obtain ⟨semi, hsemi, hkind⟩ : ∃ semi, statementLanding s.rest.tokens = semi ++ t.rest.tokens ∧
      (kindsOf semi = [.punctuator .semicolon] ∨
        semi = [] ∧ ∀ t' ∈ t.rest.tokens.head?, t'.kind ≠ .punctuator .semicolon) := by
    rcases h.landing with ⟨hrest, hresumes⟩ | ⟨semi, hsemi, hkind⟩
    · refine ⟨[], hrest.symm, .inr ⟨rfl, fun t' ht' => ?_⟩⟩
      obtain ⟨ts', hts'⟩ := List.head?_eq_some_iff.1 ht'
      exact (hresumes t' ts' hts').2
    · exact ⟨[semi], hsemi, .inl (by rw [kindsOf, List.map_singleton, hkind])⟩
  rw [hsemi] at hbehind hfurther
  have hcovered : read = first ++ further ++ semi := by
    refine (List.append_left_inj t.rest.tokens).1 ?_
    rw [← hread, htokens, heq, hbehind]
    simp only [List.append_assoc]
  rw [hcovered]
  refine .intro ?_ hfurther (fun further' rest' hsame hunits => ?_) hkind
  · rwa [List.append_assoc, ← hbehind]
  · refine hunits.length_le ?_
    rw [← hsame, List.append_assoc, ← hbehind, ← hlanding, ← htokens, hsemi, ← hbehind]

end Grammar

end CrudLang
