import CrudLang.Proofs.Analysis.Stages
import CrudLang.Proofs.Grammar.Recovery

/-!
# Which stage has the last word

Behind the lexical errors an analysis has either syntax errors or what checking the names of the
program reports, never both (`Analysis.ofSource_cases`). Since a program is read from every source,
with one statement that could not be read for each syntax error, names are checked in whole programs
alone.
-/

namespace CrudLang

/-- The kinds of diagnostics that checking the use of names may lead to. -/
def DiagnosticKind.IsSemantic (kind : DiagnosticKind) : Prop :=
  kind = .undeclaredIdentifier ∨ kind = .redeclaredIdentifier ∨ kind = .kindMismatch

instance (kind : DiagnosticKind) : Decidable kind.IsSemantic :=
  inferInstanceAs (Decidable (_ ∨ _ ∨ _))

theorem ScopeError.isSemantic_diagnostic (lines : LineIndex) (error : ScopeError) :
    (error.diagnostic lines).kind.IsSemantic := by
  cases error <;> simp [diagnostic, DiagnosticKind.IsSemantic]

/-- Checking a program reports violations of the rules of scope. -/
theorem Checking.isSemantic_of_mem_program {lines : LineIndex} {program : Program} {d : Diagnostic}
    (hd : d ∈ (Checking.program lines .start program).diagnostics) : d.kind.IsSemantic := by
  rcases of_mem_diagnostics_play hd with hd | ⟨error, rfl⟩
  · cases hd
  · exact error.isSemantic_diagnostic lines

/-- Reading reports syntax errors. -/
theorem Parsing.kind_of_mem_diagnostics {parsing : Parsing} {lines : LineIndex}
    {tokens : List Token} {d : Diagnostic} (hd : d ∈ parsing.diagnostics lines tokens) :
    d.kind = .unexpectedToken := by
  obtain ⟨f, -, rfl⟩ := List.mem_map.1 hd
  rfl

namespace Analysis

/-- Of every source a program is read. The diagnostics of an analysis are the lexical ones, and
behind them come either syntax errors, one at least and nothing else, and then the symbol table is
empty; or what checking that program reports, from an empty table on, and then the program has no
statement that could not be read. -/
theorem ofSource_cases (source : String) :
    (∀ d ∈ (Lexing.ofSource source).diagnostics, d.kind = .unrecognizedLexeme) ∧
      let lines := LineIndex.ofSource source
      let lexing := Lexing.ofSource source
      let parsing := Parsing.ofTokens lexing.tokens
      ∃ program, parsing.program = some program ∧
        ((parsing.failures ≠ [] ∧ ∃ syntactic, syntactic ≠ [] ∧
            (∀ d ∈ syntactic, d.kind = .unexpectedToken) ∧
            syntactic = parsing.diagnostics lines lexing.tokens ∧
            ofSource source = ⟨lexing.tokens, lexing.diagnostics ++ syntactic, .empty⟩) ∨
          (parsing.failures = [] ∧ program.errorCount = 0 ∧
            let checked := Checking.program lines .start program
            (∀ d ∈ checked.diagnostics, d.kind.IsSemantic) ∧
              ofSource source =
                ⟨lexing.tokens, lexing.diagnostics ++ checked.diagnostics, checked.table⟩)) := by
  refine ⟨kind_of_mem_lexing source, ?_⟩
  intro lines lexing parsing
  obtain ⟨program, hprogram, -, hcount⟩ := Parsing.exists_program lexing.tokens
  refine ⟨program, hprogram, ?_⟩
  have hsource : ofSource source = ⟨lexing.tokens,
      lexing.diagnostics ++ (behindLexing lines lexing.tokens).diagnostics,
      (behindLexing lines lexing.tokens).table⟩ := ofSource_eq source
  rw [hsource]
  -- a program is checked only if it was read without failures
  cases hfailures : parsing.failures with
  | nil =>
    have hbehind : behindLexing lines lexing.tokens = Checking.program lines .start program := by
      rw [behindLexing, hprogram, hfailures]
    rw [hbehind]
    refine .inr ⟨rfl, ?_, fun _ => Checking.isSemantic_of_mem_program, rfl⟩
    rw [← hcount, hfailures, List.length_nil]
  | cons f fs =>
    have hbehind : behindLexing lines lexing.tokens =
        ⟨.empty, parsing.diagnostics lines lexing.tokens⟩ := by
      rw [behindLexing, hprogram, hfailures]
    rw [hbehind]
    refine .inl ⟨List.cons_ne_nil f fs, _, ?_, fun _ => Parsing.kind_of_mem_diagnostics, rfl, rfl⟩
    rw [Parsing.diagnostics, hfailures, List.map_cons]
    exact List.cons_ne_nil _ _

end Analysis

end CrudLang
