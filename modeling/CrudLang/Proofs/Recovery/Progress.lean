import CrudLang.Proofs.Grammar.Recovery
import CrudLang.Proofs.Grammar.StatementReading

/-!
# Reading always goes on

From whatever state, a statement is read or skipped, and at least one token with it, unless the
input is at its end or at a closing brace. There it fails, and whatever goes on instead goes on with
the input and the reports that there were (`Parser.Undone`). What the grammar repeats takes a token
in each round: a statement, a member of a class, a unit that is skipped, an argument. So each
repetition makes all rounds that there are, and stops after no more of them than there are tokens
left (`Grammar.statement_neverStuck`).
-/

namespace CrudLang

namespace Parser

variable {α : Type}

/-- The parser has failed, and nothing of the attempt is left but its failure: another parser in its
place, a repetition and a recovery go on with the input and the reports that there were. -/
structure Undone (p : Parser α) (s : State) (f : Failure) : Prop where
  eq_fail : p s = .fail f
  orElse_eq : ∀ q, orElse p q s = q { s with pending := some f }
  many_eq : many p s = .ok [] { s with pending := some f }
  recoverWith_eq_fail : ∀ q g, q { s with pending := none } = .fail g → recoverWith p q s = .fail f
  recoverWith_eq_ok : ∀ q v t, q { s with pending := none } = .ok v t →
    recoverWith p q s = .ok v { t with reported := t.reported ++ [f] }

/-- Each combinator takes the state from before the attempt, so nothing of it is left. -/
theorem undone_of_eq_fail {p : Parser α} (hp : Consumes p) {s : State} {f : Failure}
    (hf : p s = .fail f) : Undone p s f where
  eq_fail := hf
  orElse_eq q := by rw [orElse, hf]
  many_eq := Rounds.nil.many_eq_ok hp hf
  recoverWith_eq_fail q g hq := by rw [recoverWith, hf, hq]
  recoverWith_eq_ok q v t hq := by rw [recoverWith, hf, hq]

end Parser

namespace Grammar

open CrudLang.Parser

section Units

/-- A unit of balanced tokens: a pair of braces or of parentheses with what is between them, or a
token that is neither. -/
def balancedItem : Parser Unit :=
  choice (between .leftBrace .rightBrace balanced)
    [between .leftParen .rightParen balanced,
     both anyToken (noneOf [.punctuator .leftBrace, .punctuator .rightBrace,
       .punctuator .leftParen, .punctuator .rightParen])]

/-- The equation for balanced tokens. -/
theorem balanced_eq : balanced = many balancedItem >>= fun _ => pure () := by
  refine fix_eq fun n p q h => ?_
  -- the calls inside a pair stand behind its opening sign
  have hpairs := (blockGuarded_agreeBelow n).braces h
  have hparentheses := (guarded_agreeBelow n).parentheses h
  have hother := AgreeBelow.of_spells (n := n + 1) (skips_other [.punctuator .leftBrace,
    .punctuator .rightBrace, .punctuator .leftParen, .punctuator .rightParen])
  have hitem := hpairs.orElse (hparentheses.orElse hother)
  exact ((congruence_agreeBelow (n + 1)).many hitem).bind fun _ => .pure ()

/-- A unit of balanced tokens takes at least one token and reports nothing. -/
theorem skips_balancedItem : Skips balancedItem :=
  Skips.orElse (Skips.between quiet_balanced)
    (Skips.orElse (Skips.between quiet_balanced) (skips_other _))

end Units

/-- A block of statements is read without skipping to its closing brace. -/
theorem block_statement : block statement = strictBlock statement := by
  rw [← statementBy_strictBlock_eq, block_statementBy_strictBlock]

/-- A member of a class takes at least one token. -/
theorem consumes_member : Consumes (member (block statement)) := by
  rw [block_statement]
  exact consumes_member_strictBlock

theorem consumes_expression : Consumes expression :=
  .of_spells spells_expression fun _ _ _ h => h.1.ne_nil rfl

theorem consumes_identifier : Consumes identifier :=
  .of_spells spells_identifier fun _ _ _ h => List.cons_ne_nil _ _ h.1.symm

/-- Behind a comma. -/
theorem consumes_behindComma {α : Type} {p : Parser α} (hp : Consumes p) :
    Consumes (do punctuator .comma; p) :=
  (Consumes.token _).bind fun _ => hp.forward

/-- A statement fails just at the end of the input and at a closing brace. -/
theorem statement_eq_fail_iff (s : State) :
    (∃ f, statement s = .fail f) ↔ s.rest.tokens = [] ∨
      ∃ r rest, s.rest.tokens = r :: rest ∧ r.kind = .punctuator .rightBrace := by
  constructor
  · rintro ⟨f, hf⟩
    exact of_statementBy_eq_fail isBlockGuarded_block hf
  · intro hend
    have hhead : ∀ k, (kindsOf s.rest.tokens).head? = some k → k = .punctuator .rightBrace := by
      intro k hk
      rcases hend with hnil | ⟨r, rest, htokens, hr⟩
      · rw [hnil] at hk
        cases hk
      · rw [htokens] at hk
        rw [← Option.some.inj hk, hr]
    exact rejects_statement hhead s rfl

/-- A statement takes at least one token off the input and reports behind what was reported. -/
theorem ensures_statement : Ensures statement fun _ read _ _ => read ≠ [] := by
  refine Ensures.mono spells_statement fun stmt read rest new h => ?_
  rintro rfl
  exact h.ne_nil rfl

/-- Statements never get stuck. From whatever state, with any input, any pending failure and any
reports, a statement fails if and only if the input is at its end or at a closing brace, and then
nothing of the attempt is left but its failure. Else it succeeds, takes at least one token, and
reports behind what was reported.

So nothing that is repeated goes on for more rounds than there are tokens left: neither the
statements of blocks and of programs, nor the members of classes, nor the units that recovery skips,
inside of groups and outside, nor arguments and parameters. -/
theorem statement_neverStuck :
    (∀ s : State,
      ((∃ f, statement s = .fail f) ↔ s.rest.tokens = [] ∨
        ∃ r rest, s.rest.tokens = r :: rest ∧ r.kind = .punctuator .rightBrace) ∧
      ((∃ f, Undone statement s f) ∨
        ∃ stmt t read new, statement s = .ok stmt t ∧ read ≠ [] ∧
          s.rest.tokens = read ++ t.rest.tokens ∧ t.reported = s.reported ++ new)) ∧
    (statement = statementStep (block statement) ∧ StopsInTime statement ∧
      StopsInTime (recoverWith statement strayBrace) ∧
      StopsInTime (member (block statement))) ∧
    (StopsInTime furtherUnit ∧ StopsInTime groupItem ∧ StopsInTime anyToken ∧
      StopsInTime balancedItem) ∧
    (StopsInTime (do punctuator .comma; expression) ∧
      StopsInTime (do punctuator .comma; identifier)) ∧
    ∀ s : State,
      (∃ args t, separated expression (punctuator .comma) s = .ok args t ∧
        args.length + t.rest.size ≤ s.rest.size) ∧
      ∃ params t, separated identifier (punctuator .comma) s = .ok params t ∧
        params.length + t.rest.size ≤ s.rest.size := by
  refine ⟨fun s => ⟨statement_eq_fail_iff s, ?_⟩, ⟨?_, ?_, ?_, ?_⟩, ⟨?_, ?_, ?_, ?_⟩, ⟨?_, ?_⟩,
    fun s => ⟨?_, ?_⟩⟩
  · cases hs : statement s with
    | fail f => exact .inl ⟨f, undone_of_eq_fail consumes_statement hs⟩
    | ok stmt t =>
      obtain ⟨read, new, hread, hnew, hne⟩ := ensures_statement s stmt t hs
      exact .inr ⟨stmt, t, read, new, rfl, hne, hread, hnew⟩
  · exact statementBy_eq isBlockGuarded_block
  · exact consumes_statement.stopsInTime
  · exact consumes_recoverWith_strayBrace.stopsInTime
  · exact consumes_member.stopsInTime
  · exact skips_furtherUnit.consumes.stopsInTime
  · exact skips_groupItem.consumes.stopsInTime
  · exact Skips.anyToken.consumes.stopsInTime
  · exact skips_balancedItem.consumes.stopsInTime
  · exact (consumes_behindComma consumes_expression).stopsInTime
  · exact (consumes_behindComma consumes_identifier).stopsInTime
  · exact exists_separated_eq_ok consumes_expression (.token _) s
  · exact exists_separated_eq_ok consumes_identifier (.token _) s

end Grammar

end CrudLang
