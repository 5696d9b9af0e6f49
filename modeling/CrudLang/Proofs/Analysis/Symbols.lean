import CrudLang.Proofs.Analysis.Labels
import CrudLang.Proofs.Scope.Accounting

/-!
# The symbols of an analysis

Whatever the source, the symbol table of its analysis is consistent, and the names of the symbols in
it stand in the source (`Analysis.table_pointsInto`). If nothing is reported, there is one symbol
for each declaration of the program, in order (`Analysis.exists_symbols_eq_entries`).
-/

namespace CrudLang

/-- Where nothing is reported, all declarations are accepted. -/
theorem Accounts.symbols_eq {lines : LineIndex} {table : SymbolTable} {entries : List Entry}
    {symbols : List Symbol} {reports : Diagnostics}
    (h : Accounts lines table entries symbols reports)
    (hreports : reports = []) : symbols = entries.map (Entry.symbol lines) := by
  induction h with
  | nil => rfl
  | accepted _ ih => rw [List.map_cons, ih hreports]
  | refused => cases hreports

namespace Analysis

/-- Of all tokens a program is read. Behind lexing, its names are checked, or there are syntax
errors and no symbols. -/
theorem behindLexing_cases (lines : LineIndex) (tokens : List Token) :
    ∃ program, (Parsing.ofTokens tokens).program = some program ∧
      (behindLexing lines tokens = Checking.program lines .start program ∨
        behindLexing lines tokens = ⟨.empty, (Parsing.ofTokens tokens).diagnostics lines tokens⟩ ∧
          (Parsing.ofTokens tokens).diagnostics lines tokens ≠ []) := by
  obtain ⟨program, hprogram, -⟩ := Parsing.exists_program tokens
  refine ⟨program, hprogram, ?_⟩
  unfold behindLexing Parsing.diagnostics
  rw [hprogram]
  cases (Parsing.ofTokens tokens).failures with
  | nil => exact .inl rfl
  | cons f failures => exact .inr ⟨rfl, List.cons_ne_nil _ _⟩

/-- The table of an analysis is consistent, and the names of its symbols stand in the source. -/
theorem table_pointsInto (source : String) : (ofSource source).table.WellFormed ∧
    ∀ symbol ∈ (ofSource source).table.symbols, symbol.ident.StandsIn source := by
  rw [ofSource_eq]
  obtain ⟨program, hprogram, heq | ⟨heq, -⟩⟩ :=
    behindLexing_cases (.ofSource source) (Lexing.ofSource source).tokens
  · have hpoints := pointsInto_program hprogram
    rw [heq]
    exact ⟨hpoints.wellFormed, hpoints.symbols⟩
  · have hstart := Checking.PointsInto.start source
    rw [heq]
    exact ⟨hstart.wellFormed, hstart.symbols⟩

/-- If nothing is reported, the symbols are the declarations of the program, in the order in which
they are visited. -/
theorem exists_symbols_eq_entries {source : String} (h : (ofSource source).diagnostics = []) :
    ∃ program, (Parsing.ofTokens (Lexing.ofSource source).tokens).program = some program ∧
      (ofSource source).table.symbols.toList =
        (program.entries 1 0).map (Entry.symbol (.ofSource source)) := by
  rw [ofSource_eq] at h ⊢
  -- there are no syntax errors, so names are checked, and no declaration is refused
  obtain ⟨-, hchecking⟩ := List.append_eq_nil_iff.1 h
  obtain ⟨program, hprogram, heq | ⟨heq, hne⟩⟩ :=
    behindLexing_cases (.ofSource source) (Lexing.ofSource source).tokens
  · refine ⟨program, hprogram, ?_⟩
    rw [heq] at hchecking ⊢
    obtain ⟨symbols, reports, hsymbols, hreports, haccounts, -⟩ :=
      Stmt.settlesOfAll (.ofSource source) program.stmts .start .empty
    obtain ⟨-, rfl⟩ := List.append_eq_nil_iff.1 (hreports.symm.trans hchecking)
    exact hsymbols.trans (haccounts.symbols_eq rfl)
  · rw [heq] at hchecking
    exact absurd hchecking hne

end Analysis

end CrudLang
