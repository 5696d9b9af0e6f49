import CrudLang.Proofs.Grammar.Accepted
import CrudLang.Proofs.Isolation.Confinement

/-!
# Where blocks end

A block is read exactly where an opening brace has its closing brace, and it ends right behind it:
the statements inside are read or skipped, but they never take a brace without its counterpart
(`Grammar.block_eq_ok_iff`). So there is nothing left to do for the recovery that skips a block as a
whole, and reading without it gives the same tree and the same failures.
-/

namespace CrudLang

namespace Grammar

open CrudLang.Parser

/-- The brace that closes the innermost open block stands behind balanced tokens. -/
theorem afterClosing_eq_some_iff {tokens after : List Token} :
    afterClosing 0 tokens = some after ↔ ∃ inner r, tokens = inner ++ r :: after ∧
      r.kind = .punctuator .rightBrace ∧ Balanced inner := by
  constructor
  · intro h
    induction hlength : tokens.length using Nat.strongRecOn generalizing tokens after with
    | ind length ih =>
      cases tokens with
      | nil => cases h
      | cons t ts =>
        have hless : ts.length < length := by rw [← hlength]; exact Nat.lt_succ_self _
        by_cases hl : t.kind = .punctuator .leftBrace
        · -- the inner group ends first, and the tokens behind it are fewer still
          rw [afterClosing_open hl] at h
          obtain ⟨next, hnext, hafter⟩ := exists_afterClosing h
          obtain ⟨inner, r, rfl, hr, hinner⟩ := ih _ hless hnext rfl
          obtain ⟨inner', r', rfl, hr', hinner'⟩ :=
            ih _ (Nat.lt_trans (length_lt_of_afterClosing hnext) hless) hafter rfl
          exact ⟨t :: (inner ++ r :: inner'), r', by simp, hr', .group hl hinner hr hinner'⟩
        by_cases hr : t.kind = .punctuator .rightBrace
        · rw [afterClosing_close_zero hr] at h
          obtain rfl := Option.some.inj h
          exact ⟨[], t, rfl, hr, .nil⟩
        · rw [afterClosing_other hl hr] at h
          obtain ⟨inner, r, rfl, hr', hinner⟩ := ih _ hless h rfl
          exact ⟨t :: inner, r, rfl, hr', .other hl hr hinner⟩
  · rintro ⟨inner, r, rfl, hr, hinner⟩
    rw [afterClosing_append hinner, afterClosing_close_zero hr]

/-- What is read as a block is a pair of matching braces. -/
theorem ensures_strictBlock : Ensures (strictBlock statement) fun _ read rest _ => ∃ l ts,
    read = l :: ts ∧ l.kind = .punctuator .leftBrace ∧ afterClosing 0 (ts ++ rest) = some rest := by
  have hmany : KeepsDepth (many statement) :=
    congruence_keepsDepth.many (q := statement) keepsDepth_statement
  refine .labelled (.withSpan ?_)
  refine hmany.ensures_braces.bind fun _ _ _ => ?_
  exact .pure fun rest h => by simpa using h

/-- A block is read where the braces match. -/
theorem exists_strictBlock_eq_ok {s : State} {l : Token} {ts after : List Token}
    (hs : s.rest.tokens = l :: ts) (hl : l.kind = .punctuator .leftBrace)
    (hafter : afterClosing 0 ts = some after) :
    ∃ body t, strictBlock statement s = .ok body t := by
  obtain ⟨body, t, ht⟩ :=
    exists_bracedStatements_eq_ok (s := { s with pending := none }) hs hl hafter
  rw [statementBy_strictBlock_eq] at ht
  exact ⟨body, _, labelled_eq_ok ht⟩

/-- Skipping a block as a whole fails where its statements cannot be read. -/
theorem exists_skippedBlock_eq_fail {s : State} {f : Failure}
    (hf : bracedStatements statement s = .fail f) :
    ∃ g, skippedBlock { s with pending := none } = .fail g := by
  cases hskipped : skippedBlock { s with pending := none } with
  | fail g => exact ⟨g, rfl⟩
  | ok body t =>
    obtain ⟨l, ts, after, hs, hl, hafter⟩ := exists_afterClosing_of_skippedBlock hskipped
    obtain ⟨body', t', hok⟩ := exists_bracedStatements_eq_ok (s := s) hs hl hafter
    rw [statementBy_strictBlock_eq, hf] at hok
    cases hok

/-- Brace matching alone decides where a block ends: from whatever state, a block is read if and
only if the next token is an opening brace that has its closing brace, and reading goes on right
behind that one, whatever stands in between. Hence a block that cannot be read is never skipped as a
whole, and without that recovery all tokens are read as the same tree with the same failures. -/
theorem block_eq_ok_iff :
    (∀ (s : State) (after : List Token),
        (∃ body t, block statement s = .ok body t ∧ t.rest.tokens = after) ↔
          ∃ l inner r, s.rest.tokens = l :: (inner ++ r :: after) ∧
            l.kind = .punctuator .leftBrace ∧ r.kind = .punctuator .rightBrace ∧ Balanced inner) ∧
      (∀ s f, bracedStatements statement s = .fail f →
        ∃ g, skippedBlock { s with pending := none } = .fail g) ∧
      ∀ tokens, Parsing.ofTokensBy (statementBy strictBlock) tokens = Parsing.ofTokens tokens := by
  refine ⟨fun s after => ?_, fun s f => exists_skippedBlock_eq_fail, fun tokens => ?_⟩
  · rw [← statementBy_strictBlock_eq, block_statementBy_strictBlock, statementBy_strictBlock_eq]
    constructor
    · rintro ⟨body, t, ht, rfl⟩
      obtain ⟨read, -, hread, -, l, ts, rfl, hl, hclosed⟩ := ensures_strictBlock s body t ht
      obtain ⟨inner, r, hts, hr, hinner⟩ := afterClosing_eq_some_iff.1 hclosed
      exact ⟨l, inner, r, by rw [hread, List.cons_append, hts], hl, hr, hinner⟩
    · rintro ⟨l, inner, r, hs, hl, hr, hinner⟩
      have hafter : afterClosing 0 (inner ++ r :: after) = some after :=
        afterClosing_eq_some_iff.2 ⟨inner, r, rfl, hr, hinner⟩
      obtain ⟨body, t, ht⟩ := exists_strictBlock_eq_ok hs hl hafter
      obtain ⟨read, -, hread, -, l', ts, rfl, -, hclosed⟩ := ensures_strictBlock s body t ht
      -- the matching brace is the same
      rw [hs, List.cons_append] at hread
      obtain ⟨-, hts⟩ := List.cons.inj hread
      exact ⟨body, t, ht, Option.some.inj (hclosed.symm.trans (hts ▸ hafter))⟩
  · rw [statementBy_strictBlock_eq, Parsing.ofTokens]

end Grammar

end CrudLang
