import CrudLang.Proofs.Grammar.Coverage

/-!
# What the statements that could not be read cover

Every statement of the tree that could not be read covers its extent: the longest run of units of
skipping that may belong to it, with the semicolon behind it. The only exception is a closing brace
that closes nothing, which stands directly in the program. Inside a block, the extent ends before
the brace that closes the block (`Parsing.errors_extent`).
-/

namespace CrudLang

/-- A block covers the tokens from brace to brace, and a statement inside that could not be read
covers its extent between them. -/
theorem Covers.exists_braces {body : Block Stmt} {run rest : List Token}
    (h : Covers (.block body) run rest) : ∃ l inner r, run = l :: (inner ++ [r]) ∧
      l.kind = .punctuator .leftBrace ∧ r.kind = .punctuator .rightBrace ∧ Balanced inner ∧
      body.span = spanOfRun run ∧
      ∀ span, (Node.block body).HasPart (.stmt (.error span)) → ∃ before skipped after,
        inner = before ++ skipped ++ after ∧ span = spanOfRun skipped ∧
          Extent skipped (after ++ r :: rest) := by
  cases h with
  | @block _ l inner r _ hl hr hinner hspan hchildren =>
    refine ⟨l, inner, r, rfl, hl, hr, hinner, hspan, fun span hpart => ?_⟩
    rcases hpart.eq_or_exists with heq | ⟨c, hc, hpart⟩
    · cases heq
    · obtain ⟨before, own, after, rfl, hcovers⟩ := hchildren.exists_of_hasPart hc hpart
      exact ⟨before, own, after, rfl, hcovers.extent⟩

namespace Parsing

/-- Whatever the tokens are, a statement of the tree that could not be read is a single closing
brace directly in the program, or it covers its extent: one unit, the longest run of further units,
and a semicolon if that comes next. Where it stands in a block, at whatever depth, it does so
between the braces of the block, which match. -/
theorem errors_extent (tokens : List Token) : ∃ program,
    (ofTokens tokens).program = some program ∧
      (∀ n span, (Node.program program).HasPart n → .stmt (.error span) ∈ n.children →
        ∃ before run after, tokens = before ++ run ++ after ∧ span = spanOfRun run ∧
          (Extent run after ∨ n = .program program ∧
            ∃ brace, run = [brace] ∧ brace.kind = .punctuator .rightBrace)) ∧
      ∀ body, (Node.program program).HasPart (.block body) → ∃ before l inner r after,
        tokens = before ++ l :: (inner ++ [r]) ++ after ∧ l.kind = .punctuator .leftBrace ∧
          r.kind = .punctuator .rightBrace ∧ Balanced inner ∧
          body.span = spanOfRun (l :: (inner ++ [r])) ∧
          ∀ span, (Node.block body).HasPart (.stmt (.error span)) → ∃ first run last,
            inner = first ++ run ++ last ∧ span = spanOfRun run ∧
              Extent run (last ++ r :: after) := by
  obtain ⟨program, hprogram, -, hplaced⟩ := exists_program_stands tokens
  refine ⟨program, hprogram, fun n span hn hchild => ?_, fun body hbody => ?_⟩
  · rcases hn.eq_or_exists with rfl | ⟨c, hc, hn⟩
    · -- directly in the program
      obtain ⟨before, run, after, rfl, hcovers | ⟨brace, rfl, hkind, heq⟩⟩ :=
        hplaced.exists_of_mem hchild
      · rw [List.append_nil] at hcovers
        exact ⟨before, run, after, rfl, hcovers.extent.1, .inl hcovers.extent.2⟩
      · cases heq
        exact ⟨before, [brace], after, rfl, rfl, .inr ⟨rfl, brace, rfl, hkind⟩⟩
    · -- in some other node, which is no stray brace since it has a child
      obtain ⟨before, own, after, rfl, hcovers | ⟨-, brace, -, -, rfl⟩⟩ :=
        hplaced.exists_stands hc hn
      · rw [List.append_nil] at hcovers
        obtain ⟨before', run, after', rfl, herror⟩ := hcovers.children.exists_of_mem hchild
        refine ⟨before ++ before', run, after' ++ after, ?_, herror.extent.1, .inl herror.extent.2⟩
        simp only [List.append_assoc]
      · cases hchild
  · rcases hbody.eq_or_exists with heq | ⟨c, hc, hbody⟩
    · cases heq
    · obtain ⟨before, own, after, rfl, hcovers | ⟨-, brace, -, -, heq⟩⟩ :=
        hplaced.exists_stands hc hbody
      · rw [List.append_nil] at hcovers
        obtain ⟨l, inner, r, rfl, hbraces⟩ := hcovers.exists_braces
        exact ⟨before, l, inner, r, after, rfl, hbraces⟩
      · cases heq

end Parsing

end CrudLang
