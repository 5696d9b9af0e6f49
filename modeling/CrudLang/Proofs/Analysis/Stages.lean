import CrudLang.Analysis
import CrudLang.Proofs.Token.Blanking

/-!
# The stages of an analysis

What comes behind lexing depends on the tokens and on where lines start, and not on the text nor on
what lexing reported: `Analysis.ofSource_eq` takes an analysis apart into what lexing reports and
`Analysis.behindLexing`. That names are checked only if reading has added no diagnostic is the same
as that nothing failed in reading (`Parsing.length_append_diagnostics_eq_iff`). The diagnostics of
the two parts are told apart by their kinds, so a source whose comments and bad lexemes are blanked
out has the same analysis but for the lexical diagnostics (`Analysis.transparent_blanked`).
-/

namespace CrudLang

namespace Checking

variable {lines : LineIndex}

/-- In one step, diagnostics that were there before remain in front. -/
theorem step_append (lines : LineIndex) (ds : Diagnostics) (s : Checking) (event : Event) :
    step lines ⟨s.table, ds ++ s.diagnostics⟩ event =
      ⟨(s.step lines event).table, ds ++ (s.step lines event).diagnostics⟩ := by
  have hreport (error : ScopeError) : report lines ⟨s.table, ds ++ s.diagnostics⟩ error =
      ⟨(s.report lines error).table, ds ++ (s.report lines error).diagnostics⟩ := by
    simp [report, Diagnostics.report]
  -- what is done depends on the table alone
  cases event with
  | enter kind => rfl
  | leave => rfl
  | declare ident kind =>
    simp only [step, declare]
    cases s.table.declare ident.name kind (lines.lineOf ident.span.start) ident.span with
    | ok declared => rfl
    | error refusal => exact hreport _
  | use ident role =>
    simp only [step, use]
    cases s.table.lookup ident.name with
    | none => exact hreport _
    | some symbol =>
      by_cases haccepts : role.accepts symbol.kind
      · simp only [if_pos haccepts]
      · simp only [if_neg haccepts]
        exact hreport _

/-- Diagnostics that were there before remain in front, and nothing else depends on them. -/
theorem play_append (lines : LineIndex) (ds : Diagnostics) (s : Checking) (events : List Event) :
    play lines ⟨s.table, ds ++ s.diagnostics⟩ events =
      ⟨(play lines s events).table, ds ++ (play lines s events).diagnostics⟩ := by
  induction events generalizing s with
  | nil => rfl
  | cons event events ih =>
    rw [play, List.foldl_cons, step_append]
    exact ih _

/-- An event changes nothing that was reported, and leads to at most one further diagnostic. -/
theorem diagnostics_step (lines : LineIndex) (s : Checking) (event : Event) :
    (s.step lines event).diagnostics = s.diagnostics ∨
      ∃ error, (s.step lines event).diagnostics =
        s.diagnostics ++ [ScopeError.diagnostic lines error] := by
  -- only names lead to diagnostics
  cases event with
  | enter kind => exact .inl rfl
  | leave => exact .inl rfl
  | declare ident kind =>
    rw [step, declare]
    split
    · exact .inl rfl
    · exact .inr ⟨_, rfl⟩
  | use ident role =>
    rw [step, use]
    split
    · exact .inr ⟨_, rfl⟩
    split
    · exact .inl rfl
    · exact .inr ⟨_, rfl⟩

/-- Checking reports violations of the rules of scope. -/
theorem of_mem_diagnostics_play {s : Checking} {events : List Event} {d : Diagnostic}
    (hd : d ∈ (play lines s events).diagnostics) :
    d ∈ s.diagnostics ∨ ∃ error, d = ScopeError.diagnostic lines error := by
  induction events generalizing s with
  | nil => exact .inl hd
  | cons event events ih =>
    rcases ih hd with hd | herror
    · rcases diagnostics_step lines s event with heq | ⟨error, heq⟩
      · exact .inl (heq ▸ hd)
      · rw [heq] at hd
        exact (List.mem_append.1 hd).imp_right fun hd => ⟨error, List.mem_singleton.1 hd⟩
    · exact .inr herror

/-- Checking reports no lexical error. -/
theorem kind_ne_unrecognizedLexeme {s : Checking}
    (h : ∀ d ∈ s.diagnostics, d.kind ≠ .unrecognizedLexeme) (events : List Event) :
    ∀ d ∈ (play lines s events).diagnostics, d.kind ≠ .unrecognizedLexeme := by
  intro d hd
  rcases of_mem_diagnostics_play hd with hd | ⟨error, rfl⟩
  · exact h d hd
  · cases error <;> exact DiagnosticKind.noConfusion

end Checking

/-- Reading adds no diagnostic if and only if nothing failed. -/
theorem Parsing.length_append_diagnostics_eq_iff (parsing : Parsing) (lines : LineIndex)
    (tokens : List Token) (ds : Diagnostics) :
    (ds ++ parsing.diagnostics lines tokens).length = ds.length ↔ parsing.failures = [] := by
  rw [List.length_append, Nat.add_eq_left, Parsing.diagnostics, List.length_map,
    List.length_eq_zero_iff]

namespace Analysis

/-- What is found behind lexing: syntax errors, or else the outcome of checking names. -/
def behindLexing (lines : LineIndex) (tokens : List Token) : Checking :=
  match (Parsing.ofTokens tokens).program, (Parsing.ofTokens tokens).failures with
  | some program, [] => Checking.program lines .start program
  | _, _ => ⟨.empty, (Parsing.ofTokens tokens).diagnostics lines tokens⟩

/-- An analysis is lexing and what is found behind it. -/
theorem ofSource_eq (source : String) :
    let lexing := Lexing.ofSource source
    let checking := behindLexing (.ofSource source) lexing.tokens
    ofSource source =
      ⟨lexing.tokens, lexing.diagnostics ++ checking.diagnostics, checking.table⟩ := by
  unfold ofSource behindLexing
  dsimp only
  generalize Lexing.ofSource source = lexing
  generalize Parsing.ofTokens lexing.tokens = parsing
  have hclean := parsing.length_append_diagnostics_eq_iff (.ofSource source) lexing.tokens
    lexing.diagnostics
  -- names are checked with the lexical errors in front only where nothing failed
  match hprogram : parsing.program, hfailures : parsing.failures with
  | some program, [] =>
    have happend := Checking.play_append (.ofSource source) lexing.diagnostics .start
      program.events
    simp only [Checking.start, List.append_nil] at happend
    rw [beq_iff_eq.2 (hclean.2 hfailures)]
    simp only [Parsing.diagnostics, hfailures, List.map_nil, List.append_nil, Checking.program,
      Checking.start, happend]
  | some _, _ :: _ =>
    have hne := beq_eq_false_iff_ne.2 fun h => List.cons_ne_nil _ _ (hfailures ▸ hclean.1 h)
    rw [hne]
  | none, _ => rfl

theorem tokens_ofSource (source : String) :
    (ofSource source).tokens = (Lexing.ofSource source).tokens := by
  rw [ofSource_eq]

/-- Behind lexing no lexical error is found. -/
theorem kind_ne_of_mem_behindLexing (lines : LineIndex) (tokens : List Token) :
    ∀ d ∈ (behindLexing lines tokens).diagnostics, d.kind ≠ .unrecognizedLexeme := by
  unfold behindLexing
  split
  · exact Checking.kind_ne_unrecognizedLexeme (s := .start) (by simp [Checking.start]) _
  · intro d hd
    obtain ⟨f, -, rfl⟩ := List.mem_map.1 hd
    exact DiagnosticKind.noConfusion

/-- Lexing finds nothing but lexical errors. -/
theorem kind_of_mem_lexing (source : String) :
    ∀ d ∈ (Lexing.ofSource source).diagnostics, d.kind = .unrecognizedLexeme := by
  intro d hd
  obtain ⟨placed, -, hplaced⟩ := List.mem_filterMap.1 hd
  unfold PlacedChunk.diagnostic? at hplaced
  split at hplaced
  · rw [← Option.some.inj hplaced]
    rfl
  · cases hplaced

/-- The diagnostics that are no lexical errors are those that are found behind lexing. -/
theorem filter_diagnostics (source : String) :
    (ofSource source).diagnostics.filter (·.kind ≠ .unrecognizedLexeme) =
      (behindLexing (.ofSource source) (Lexing.ofSource source).tokens).diagnostics := by
  rw [ofSource_eq, List.filter_append, List.filter_eq_nil_iff.2, List.nil_append,
    List.filter_eq_self.2]
  · exact fun d hd => decide_eq_true (kind_ne_of_mem_behindLexing _ _ d hd)
  · exact fun d hd => by simpa using kind_of_mem_lexing source d hd

/-- Comments and lexical errors are transparent. If every byte of them is replaced by a space,
lexing reports nothing and gives the same tokens, with their lines and spans, and the analysis has
the same symbol table and the diagnostics that are no lexical errors. -/
theorem transparent_blanked (source : String) :
    Lexing.ofSource (Lexing.blanked source) = ⟨(Lexing.ofSource source).tokens, []⟩ ∧
      (ofSource (Lexing.blanked source)).table = (ofSource source).table ∧
      (ofSource (Lexing.blanked source)).diagnostics =
        (ofSource source).diagnostics.filter (·.kind ≠ .unrecognizedLexeme) := by
  have hlexing := Lexing.ofSource_blanked source
  refine ⟨hlexing, ?_, ?_⟩
  · rw [ofSource_eq, ofSource_eq, hlexing, Lexing.lineIndex_blanked]
  · rw [filter_diagnostics, ofSource_eq, hlexing, Lexing.lineIndex_blanked, List.nil_append]

end Analysis

end CrudLang
