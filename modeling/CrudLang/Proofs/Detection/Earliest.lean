import CrudLang.Proofs.Detection.Divergence
import CrudLang.Proofs.Detection.Statements
import CrudLang.Proofs.Grammar.Accepted
import CrudLang.Proofs.Grammar.Derivation
import Mathlib.Order.Bounds.Defs

/-!
# The first syntax error is reported at the first token that is wrong

If there are no classes and every opening brace has its closing brace, then the first syntax error
of a source is reported at the first token with which no program without syntax errors goes on, or
at the end of the input, if the source is the beginning of such a program
(`Parsing.first_diagnostic_earliest`).

Up to the first failure, the beginning of a program has been read (`Grammar.foresees_statements`).
And with the token at the first failure the program cannot go on: if it could, the source would have
a common beginning with a program, up to that token, and the first failure would be behind that
token (`Fork.past_or_failures`).
-/

namespace CrudLang.Parsing

open Grammar CrudLang.Parser

/-- The tokens are the beginning of a list that is read without a failure. -/
def Viable (tokens : List Token) : Prop :=
  ∃ more, (ofTokens (tokens ++ more)).failures = []

theorem Viable.of_append {tokens more : List Token} (h : Viable (tokens ++ more)) :
    Viable tokens := by
  obtain ⟨rest, hrest⟩ := h
  exact ⟨more ++ rest, by rwa [← List.append_assoc]⟩

/-- Whether tokens may stand at the beginning of readable statements depends on their kinds. -/
theorem Viable.of_begins {tokens : List Token} (h : Begins Stmt.AllReadable (kindsOf tokens)) :
    Viable tokens := by
  obtain ⟨stmts, us, hstmts⟩ := h
  obtain ⟨more, hmore⟩ : ∃ more, kindsOf more = us :=
    ⟨us.map fun k => { (default : Token) with kind := k }, by simp [Function.comp_def]⟩
  have hderivable : Derivable (kindsOf (tokens ++ more)) := by
    rw [kindsOf_append, hmore]
    exact .rule (hstmts.written.derives hstmts.count (by simp))
  obtain ⟨stmts', hstmts'⟩ := hderivable.exists_settled
  obtain ⟨-, -, -, hsilent⟩ := exists_program_of_settled hstmts'
  exact ⟨more, hsilent⟩

/-- What is read without a failure is balanced. -/
theorem balanced_of_failures_eq_nil {tokens : List Token} (h : (ofTokens tokens).failures = []) :
    Balanced tokens := by
  obtain ⟨stmts, t, ht, hrest, heq⟩ := exists_ofTokens_eq tokens
  obtain ⟨read, new, hread, hnew, hbalanced⟩ := readsBalanced_statements _ stmts t ht
  rw [hrest, List.append_nil, Input.tokens_ofList] at hread
  rw [heq] at h
  exact hread ▸ hbalanced (hnew.symm.trans h)

section First

variable {tokens : List Token} (hregular : Regular tokens) {f : Failure} {fs : List Failure}
variable (hf : (ofTokens tokens).failures = f :: fs)
include hregular hf

/-- The tokens before the first failure are the beginning of a program without failures. -/
theorem exists_viable_append_eq : ∃ pre, tokens = pre ++ f.rest.tokens ∧ Viable pre := by
  obtain ⟨stmts, t, ht, -, heq⟩ := exists_ofTokens_eq tokens
  rw [heq] at hf
  have hstart : Outlook (tokens.length + 1) (Begins Stmt.AllReadable)
      (fun rest => ∃ pre, tokens = pre ++ rest ∧ Viable pre) ⟨.ofList tokens, none, []⟩ :=
    { size := Nat.lt_succ_self _
      regular := hregular
      quiet := rfl
      pending := fun _ hpending => by cases hpending
      allows := fun read rest hread hbegins => ⟨read, hread, .of_begins hbegins⟩ }
  exact (foresees_statements _).ok _ _ stmts t hstart ht f (State.leading_of_cons hf)

/-- With the token at the first failure, no program without failures goes on. -/
theorem not_viable_append {pre rest : List Token} {token : Token}
    (htokens : tokens = pre ++ token :: rest) (hrest : f.rest.tokens = token :: rest) :
    ¬ Viable (pre ++ [token]) := by
  rintro ⟨more, hmore⟩
  rw [List.append_assoc, List.singleton_append] at hmore
  have hbalanced := balanced_of_failures_eq_nil hmore
  let F : Fork :=
    ⟨pre, token, rest, more, htokens ▸ hregular, fun _ _ => hbalanced.exists_afterClosing⟩
  rcases F.past_or_failures (htokens ▸ hf) with hpast | hfailures
  · -- the failure is before the token
    rw [Fork.Past, ← f.rest.size_eq, hrest] at hpast
    exact Nat.not_succ_le_self _ hpast
  · exact hfailures hmore

end First

/-- Where there are no classes and every opening brace has its closing brace, the first syntax error
is reported at the first token with which no program without syntax errors goes on; or at the end of
the input, if such a program begins with all of the tokens. -/
theorem first_diagnostic_earliest (lines : LineIndex) (tokens : List Token)
    (hclassless : ∀ t ∈ tokens, t.kind ≠ .keyword .class)
    (hclosed : ∀ l ts, l :: ts <:+ tokens → l.kind = .punctuator .leftBrace →
      ∃ after, afterClosing 0 ts = some after)
    {d : Diagnostic} {ds : List Diagnostic}
    (h : (ofTokens tokens).diagnostics lines tokens = d :: ds) :
    (∃ q, ∃ hq : q < tokens.length,
      IsLeast {i | i < tokens.length ∧ ¬ Viable (tokens.take (i + 1))} q ∧
        d.primary.span = tokens[q].span) ∨
      Viable tokens ∧ d.primary.span = .point (endOfTokens tokens) := by
  have hregular : Regular tokens := ⟨hclassless, hclosed⟩
  obtain ⟨f, fs, hf, hd, -⟩ := List.map_eq_cons_iff.1 h
  obtain ⟨pre, htokens, hpre⟩ := exists_viable_append_eq hregular hf
  have hspan : d.primary.span = f.span (endOfTokens tokens) := by
    rw [← hd]
    rfl
  cases hrest : f.rest.tokens with
  | nil =>
    rw [Failure.span, Failure.found, hrest] at hspan
    rw [hrest, List.append_nil] at htokens
    exact .inr ⟨htokens ▸ hpre, hspan⟩
  | cons token rest =>
    rw [Failure.span, Failure.found, hrest] at hspan
    rw [hrest] at htokens
    have hoffending := not_viable_append hregular hf htokens hrest
    have hq : pre.length < tokens.length := by
      rw [htokens, List.length_append, List.length_cons]
      omega
    have htake : tokens.take (pre.length + 1) = pre ++ [token] := by
      rw [htokens, List.take_length_add_append, List.take_succ_cons, List.take_zero]
    refine .inl ⟨pre.length, hq, ⟨⟨hq, htake ▸ hoffending⟩, fun i hi => ?_⟩, ?_⟩
    · -- what is shorter is the beginning of what has been read
      by_contra hless
      have hsplit : pre = tokens.take (i + 1) ++ pre.drop (i + 1) := by
        rw [htokens, List.take_append_of_le_length (Nat.not_le.1 hless), List.take_append_drop]
      exact hi.2 (Viable.of_append (hsplit ▸ hpre))
    · rw [hspan]
      simp [htokens]

/-- In `{ x = }` the value is missing, so the closing brace is the first token that is wrong. -/
theorem first_diagnostic_earliest_assignment :
    let tokens : List Token := [⟨.punctuator .leftBrace, "\x7b", 1, ⟨0, 1⟩⟩,
      ⟨.identifier "x", "x", 1, ⟨2, 3⟩⟩, ⟨.punctuator .assign, "=", 1, ⟨4, 5⟩⟩,
      ⟨.punctuator .rightBrace, "\x7d", 1, ⟨6, 7⟩⟩]
    let lines := LineIndex.ofSource "\x7b x = \x7d"
    ∃ d ds, (ofTokens tokens).diagnostics lines tokens = d :: ds ∧ d.primary.span = ⟨6, 7⟩ ∧
      IsLeast {i | i < tokens.length ∧ ¬ Viable (tokens.take (i + 1))} 3 := by
  intro tokens lines
  have hspans : ((ofTokens tokens).diagnostics lines tokens).map (fun d => d.primary.span) =
      [⟨6, 7⟩] := by decide +kernel
  obtain ⟨d, ds, h, hd, -⟩ := List.map_eq_cons_iff.1 hspans
  have hbalanced : Balanced tokens :=
    .group rfl (.other (by decide) (by decide) (.other (by decide) (by decide) .nil)) rfl .nil
  refine ⟨d, ds, h, hd, ?_⟩
  rcases first_diagnostic_earliest lines tokens (by decide)
    (fun _ _ => hbalanced.exists_afterClosing) h with ⟨q, hq, hleast, hspan⟩ | ⟨-, hspan⟩
  · -- the tokens have different places
    rw [hd] at hspan
    rcases q with _ | _ | _ | _ | q
    · cases hspan
    · cases hspan
    · cases hspan
    · exact hleast
    · exact absurd hq (Nat.not_lt.2 (Nat.le_add_left 4 q))
  · rw [hd] at hspan
    cases hspan

end CrudLang.Parsing
