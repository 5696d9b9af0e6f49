import CrudLang.Proofs.Grammar.Errors
import CrudLang.Proofs.Recovery.Once
import CrudLang.Proofs.Recovery.Sequence

/-!
# Syntax errors come in source order

The syntax errors of a source are reported in the order of their places, and so are the statements
in the tree that stand for them, one for each: a syntax error is not further back than its statement
begins (`Parsing.diagnostics_sourceOrder`). It may be further on than its statement ends, since what
is reported is the failure that is furthest on.
-/

namespace CrudLang.Parsing

open Grammar CrudLang.Parser

variable {tokens : List Token}

/-- The statements of a program that could not be read are marked by the failures. -/
theorem exists_program_marked (tokens : List Token) :
    ∃ program, (ofTokens tokens).program = some program ∧
      Marked [] tokens program.errorSpans (ofTokens tokens).failures := by
  obtain ⟨stmts, t, ht, hend, hprogram⟩ := exists_ofTokens_eq tokens
  obtain ⟨read, new, hread, hnew, hmarked⟩ := marks_statements _ stmts t ht
  rw [hend] at hmarked
  obtain rfl : tokens = read := by simpa [hend] using hread
  rw [hprogram]
  refine ⟨_, rfl, ?_⟩
  dsimp only
  rw [hnew]
  exact hmarked

section Spans

variable (hspans : tokens.Pairwise fun t u => t.span.stop ≤ u.span.start)
variable (hwidth : ∀ t ∈ tokens, t.span.start ≤ t.span.stop)
include hspans hwidth

/-- Further on, spans do not begin further back. -/
theorem start_spanAt_le {i j : Nat} (hij : i ≤ j) (hj : j ≤ tokens.length) :
    (spanAt tokens i).start ≤ (spanAt tokens j).start := by
  rcases Nat.eq_or_lt_of_le hij with rfl | hless
  · exact Nat.le_refl _
  have hi : i < tokens.length := Nat.lt_of_lt_of_le hless hj
  have hleft : spanAt tokens i = tokens[i].span := by simp [spanAt, hi]
  rw [hleft]
  exact Nat.le_trans (hwidth _ (List.getElem_mem hi)) (stop_le_start_spanAt hspans hwidth hi hless)

/-- A failure that is not further back than tokens begin is not reported further back. -/
theorem start_spanOfRun_le {f : Failure} (hf : f ∈ (ofTokens tokens).failures)
    {before run after : List Token} (htokens : tokens = before ++ run ++ after) (hrun : run ≠ [])
    (hle : f.rest.size ≤ (run ++ after).length) :
    (spanOfRun run).start ≤ (f.span (endOfTokens tokens)).start := by
  obtain ⟨first, ts, rfl⟩ := List.exists_cons_of_ne_nil hrun
  have hstart : (spanAt tokens before.length).start = first.span.start := by
    simp [spanAt, htokens]
  have hindex : before.length ≤ tokens.length - f.rest.size := by
    rw [htokens]
    simp only [List.length_append] at hle ⊢
    omega
  show first.span.start ≤ _
  rw [span_of_mem_failures hf, ← hstart]
  exact start_spanAt_le hspans hwidth hindex (Nat.sub_le _ _)

/-- The syntax errors come in source order, and they match the statements of the tree that could not
be read: these stand one behind the other, there is a syntax error for each of them, in the same
order, and it does not begin before the statement does. Nor does a syntax error begin before those
that were reported before it. -/
theorem diagnostics_sourceOrder (lines : LineIndex) : ∃ program,
    (ofTokens tokens).program = some program ∧
      program.errorSpans.Pairwise (fun a b => a.stop ≤ b.start) ∧
      List.Forall₂ (fun span d => span.start ≤ d.primary.span.start) program.errorSpans
        ((ofTokens tokens).diagnostics lines tokens) ∧
      ((ofTokens tokens).diagnostics lines tokens).Pairwise fun d e =>
        d.primary.span.start ≤ e.primary.span.start := by
  obtain ⟨program, hprogram, hmarked⟩ := exists_program_marked tokens
  refine ⟨program, hprogram, hmarked.pairwise hspans, ?_, ?_⟩
  · have hboth := (List.forall₂_and_left _ _).2 ⟨fun _ hf => hf, hmarked.forall₂.flip⟩
    refine List.forall₂_map_right_iff.2 (hboth.flip.imp fun span f h => ?_)
    obtain ⟨hf, before, run, after, htokens, hrun, rfl, hle⟩ := h
    rw [List.append_nil] at hle
    exact start_spanOfRun_le hspans hwidth hf htokens hrun hle
  · refine List.pairwise_map.2 ((failures_inSequence tokens).imp_of_mem fun {f g} hf hg hle => ?_)
    show (f.span _).start ≤ (g.span _).start
    rw [span_of_mem_failures hf, span_of_mem_failures hg]
    exact start_spanAt_le hspans hwidth (Nat.sub_le_sub_left hle _) (Nat.sub_le _ _)

end Spans

/-- The conditional behind `else` ends too early. That is reported for the statement that begins
with `else`, and once more for the one that begins with `if`. -/
theorem diagnostics_sourceOrder_elseIf :
    let tokens : List Token := [⟨.keyword .if, "if", 1, ⟨0, 2⟩⟩, ⟨.identifier "x", "x", 1, ⟨3, 4⟩⟩,
      ⟨.punctuator .leftBrace, "\x7b", 1, ⟨5, 6⟩⟩, ⟨.punctuator .rightBrace, "\x7d", 1, ⟨6, 7⟩⟩,
      ⟨.keyword .else, "else", 1, ⟨8, 12⟩⟩, ⟨.keyword .if, "if", 1, ⟨13, 15⟩⟩]
    let lines := LineIndex.ofSource "if x \x7b\x7d else if"
    (ofTokens tokens).program.map Program.errorSpans = some [⟨8, 12⟩, ⟨13, 15⟩] ∧
      ((ofTokens tokens).diagnostics lines tokens).map (fun d => d.primary.span) =
        [⟨15, 15⟩, ⟨15, 15⟩] ∧
      ∃ program, (ofTokens tokens).program = some program ∧
        program.errorSpans.Pairwise (fun a b => a.stop ≤ b.start) ∧
        List.Forall₂ (fun span d => span.start ≤ d.primary.span.start) program.errorSpans
          ((ofTokens tokens).diagnostics lines tokens) ∧
        ((ofTokens tokens).diagnostics lines tokens).Pairwise fun d e =>
          d.primary.span.start ≤ e.primary.span.start := by
  intro tokens lines
  exact ⟨by decide +kernel, by decide +kernel,
    diagnostics_sourceOrder (by decide) (by decide) lines⟩

end CrudLang.Parsing
