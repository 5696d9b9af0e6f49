import CrudLang.Proofs.Analysis.Stages
import CrudLang.Proofs.Comparison.Layout
import CrudLang.Proofs.Scope.Places

/-!
# Layout independence

What is between the tokens of a source, and hence where they stand, makes no difference to how the
source is read and checked (`Analysis.layout_independent`): to the tree up to spans, to the syntax
errors and the tokens that they are about, to the kinds and messages of what is reported behind
lexing, and to the symbol table up to lines and spans.
-/

namespace CrudLang

open Grammar

namespace Parsing

/-- The range of token number `i`, or the empty range at the end of the last token. -/
def spanAt (tokens : List Token) (i : Nat) : Span :=
  (tokens[i]?.map Token.span).getD (.point (endOfTokens tokens))

/-- The messages of the syntax errors of a source are the given ones, each located at the token with
the given index or at the end of the input. -/
def ReportsAt (lines : LineIndex) (tokens : List Token) (reports : List (Nat × String)) : Prop :=
  ((ofTokens tokens).diagnostics lines tokens).map (fun d => (d.primary.span, d.message)) =
    reports.map fun report => (spanAt tokens report.1, report.2)

theorem span_eq_spanAt {f : Failure} {tokens : List Token} {i : Nat}
    (hf : f.rest.tokens = tokens.drop i) : f.span (endOfTokens tokens) = spanAt tokens i := by
  rw [Failure.span, Failure.found, hf, List.head?_drop, spanAt]
  cases tokens[i]? <;> rfl

/-- Tokens of the same kinds have the same syntax errors at the same indices. -/
theorem exists_reportsAt {tokens tokens' : List Token} (h : kindsOf tokens = kindsOf tokens')
    (lines lines' : LineIndex) :
    ∃ reports, ReportsAt lines tokens reports ∧ ReportsAt lines' tokens' reports := by
  obtain ⟨-, -, -, -, -, hfailures⟩ := ofTokens_layout h
  unfold ReportsAt diagnostics
  generalize (ofTokens tokens).failures = fs at hfailures
  generalize (ofTokens tokens').failures = gs at hfailures
  -- failures in corresponding places stand at one index, counted from the front
  induction hfailures with
  | nil => exact ⟨[], rfl, rfl⟩
  | @cons f g fs gs hfg _ ih =>
    obtain ⟨reports, hfs, hgs⟩ := ih
    obtain ⟨i, -, hf, hg⟩ := hfg.rest
    refine ⟨(i, f.message) :: reports, ?_, ?_⟩
    · rw [List.map_cons, List.map_cons, List.map_cons, hfs, ← span_eq_spanAt hf]
      rfl
    · rw [List.map_cons, List.map_cons, List.map_cons, hgs, ← span_eq_spanAt hg,
        Alignment.layout_message hfg]
      rfl

end Parsing

namespace Analysis

/-- What is found behind lexing is the same up to places. -/
theorem behindLexing_layout {tokens tokens' : List Token} (h : kindsOf tokens = kindsOf tokens')
    (lines lines' : LineIndex) :
    Checking.Alike (behindLexing lines tokens) (behindLexing lines' tokens') := by
  obtain ⟨program, program', hprogram, hprogram', herase, hfailures⟩ := Parsing.ofTokens_layout h
  have houtline : Diagnostics.outline ((Parsing.ofTokens tokens).diagnostics lines tokens) =
      Diagnostics.outline ((Parsing.ofTokens tokens').diagnostics lines' tokens') := by
    rw [Diagnostics.outline, Diagnostics.outline, Parsing.diagnostics, Parsing.diagnostics,
      List.map_map, List.map_map]
    exact map_eq_map_of_forall₂
      (f := fun f : Failure => (DiagnosticKind.unexpectedToken, f.message))
      (hfailures.imp fun f g hfg => by rw [Alignment.layout_message hfg])
  unfold behindLexing
  rw [hprogram, hprogram']
  generalize (Parsing.ofTokens tokens).failures = fs at hfailures
  generalize (Parsing.ofTokens tokens').failures = gs at hfailures
  -- names are checked in both sources or in none of them
  cases hfailures with
  | nil =>
    refine Checking.Alike.play ⟨rfl, rfl⟩ ?_
    rw [← Program.events_eraseSpans, ← Program.events_eraseSpans, herase]
  | cons => exact ⟨rfl, houtline⟩

/-- Sources with the same sequence of token kinds are analysed alike, whatever is between their
tokens. They are read as the same tree up to spans, with the same syntax errors at the same tokens;
what is reported behind lexing is of the same kinds and says the same; and the symbol tables are the
same up to lines and spans. -/
theorem layout_independent (source source' : String)
    (h : kindsOf (Lexing.ofSource source).tokens = kindsOf (Lexing.ofSource source').tokens) :
    let tokens := (Lexing.ofSource source).tokens
    let tokens' := (Lexing.ofSource source').tokens
    ((∃ program program', (Parsing.ofTokens tokens).program = some program ∧
        (Parsing.ofTokens tokens').program = some program' ∧
        program.eraseSpans = program'.eraseSpans) ∧
      ∃ reports, Parsing.ReportsAt (.ofSource source) tokens reports ∧
        Parsing.ReportsAt (.ofSource source') tokens' reports) ∧
    Diagnostics.outline ((ofSource source).diagnostics.filter (·.kind ≠ .unrecognizedLexeme)) =
        Diagnostics.outline ((ofSource source').diagnostics.filter (·.kind ≠ .unrecognizedLexeme)) ∧
      (ofSource source).table.erasePlaces = (ofSource source').table.erasePlaces := by
  have halike := behindLexing_layout h (.ofSource source) (.ofSource source')
  obtain ⟨program, program', hprogram, hprogram', herase, -⟩ := Parsing.ofTokens_layout h
  have hreports := Parsing.exists_reportsAt h (.ofSource source) (.ofSource source')
  refine ⟨⟨⟨program, program', hprogram, hprogram', herase⟩, hreports⟩, ?_, ?_⟩
  · rw [filter_diagnostics, filter_diagnostics]
    exact halike.diagnostics
  · rw [ofSource_eq, ofSource_eq]
    exact halike.table

/-- A declaration that uses an unknown name, on one line, and the same declaration with a comment
and a line break inside: both declare one variable and both report the name. -/
theorem layout_independent_comment :
    let source := "var x = y;"
    let source' := "var x=//\ny ;"
    let tokens := (Lexing.ofSource source).tokens
    let tokens' := (Lexing.ofSource source').tokens
    let undeclared := [(DiagnosticKind.undeclaredIdentifier, "use of undeclared identifier 'y'")]
    kindsOf tokens = kindsOf tokens' ∧
      ((∃ program program', (Parsing.ofTokens tokens).program = some program ∧
          (Parsing.ofTokens tokens').program = some program' ∧
          program.eraseSpans = program'.eraseSpans) ∧
        ∃ reports, Parsing.ReportsAt (.ofSource source) tokens reports ∧
          Parsing.ReportsAt (.ofSource source') tokens' reports) ∧
      Diagnostics.outline ((ofSource source).diagnostics.filter (·.kind ≠ .unrecognizedLexeme)) =
          undeclared ∧
        Diagnostics.outline ((ofSource source').diagnostics.filter (·.kind ≠ .unrecognizedLexeme)) =
          undeclared ∧
      (ofSource source).table.symbols.toList.map Symbol.name = ["x"] ∧
        (ofSource source).table.erasePlaces = (ofSource source').table.erasePlaces := by
  intro source source' tokens tokens' undeclared
  have h : kindsOf (Lexing.ofSource "var x = y;").tokens =
      kindsOf (Lexing.ofSource "var x=//\ny ;").tokens := by decide +kernel
  have hundeclared : Diagnostics.outline ((ofSource source).diagnostics.filter
      (·.kind ≠ .unrecognizedLexeme)) = undeclared := by decide +kernel
  have hnames : (ofSource source).table.symbols.toList.map Symbol.name = ["x"] := by decide +kernel
  obtain ⟨hread, houtline, htable⟩ := layout_independent source source' h
  exact ⟨h, hread, hundeclared, houtline.symm.trans hundeclared, hnames, htable⟩

end Analysis

end CrudLang
