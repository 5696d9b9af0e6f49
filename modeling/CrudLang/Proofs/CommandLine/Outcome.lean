import CrudLang.CommandLine.Outcome
import CrudLang.Proofs.Analysis.Symbols
import CrudLang.Proofs.Source.Encoding

/-!
# What a command promises

A command that is to analyse a source succeeds if and only if the source can be read, is a text and
has no errors. What it lists then has the lines that were asked for and no others, since neither the
lexeme of a token nor the name of a symbol has a line feed inside
(`CommandLine.oneLine_of_mem_listed`). If it fails, nothing is listed, and errors of the source are
summed up. None of this depends on where the source is from, nor on which files there are
(`CommandLine.respond_outcome`).
-/

namespace CrudLang

namespace CommandLine

/-- There is no line feed in the text. -/
def OneLine (text : String) : Prop :=
  '\n' ∉ text.toList

instance (text : String) : Decidable (OneLine text) :=
  inferInstanceAs (Decidable (¬ _))

/-- The lines of a text. If the text ends in a line feed, the last line is empty. -/
def linesOf (text : String) : List String :=
  (text.toList.splitOn '\n').map .ofList

section Lines

variable {text later : String} {lines : List String}

/-- A text that is put together is one line if both parts are. -/
@[simp] theorem oneLine_append : OneLine (text ++ later) ↔ OneLine text ∧ OneLine later := by
  rw [OneLine, String.toList_append, List.mem_append, not_or]
  rfl

/-- Digits hold no line break. -/
@[simp] theorem oneLine_repr (n : Nat) : OneLine n.repr := by
  intro h
  rw [Nat.toList_repr] at h
  exact absurd (Nat.isDigit_of_mem_toDigits (by decide) (by decide) h) (by decide)

@[simp] theorem oneLine_category (category : Category) : OneLine category.text := by
  cases category <;> decide

@[simp] theorem oneLine_symbolKind (kind : SymbolKind) : OneLine kind.text := by
  cases kind <;> decide

@[simp] theorem oneLine_scopeKind (kind : ScopeKind) : OneLine kind.text := by
  cases kind <;> decide

/-- A token is listed in one line if its lexeme is one. -/
theorem oneLine_listing {token : Token} (h : OneLine token.lexeme) : OneLine token.listing := by
  have hlisting : token.listing = "Lexeme: " ++ token.lexeme ++ ", Category: " ++
      token.category.text ++ ", Line: " ++ token.line.repr := rfl
  have hwords : OneLine "Lexeme: " ∧ OneLine ", Category: " ∧ OneLine ", Line: " := by decide
  simp only [hlisting, oneLine_append, oneLine_category, oneLine_repr, h, hwords, and_true]

/-- A symbol is listed in one line if its name is one. -/
theorem oneLine_symbolLine {symbol : Symbol} (h : OneLine symbol.name) (table : SymbolTable) :
    OneLine (symbolLine table symbol) := by
  let scope := table.scopes.getD symbol.scope default
  have hline : symbolLine table symbol = "  " ++ symbol.name ++ " (" ++ symbol.kind.text ++
      ") in scope #" ++ scope.id.repr ++ " [" ++ scope.kind.text ++ "], " ++
      ("line " ++ symbol.line.repr) := rfl
  have hwords : OneLine "  " ∧ OneLine " (" ∧ OneLine ") in scope #" ∧ OneLine " [" ∧
      OneLine "], " ∧ OneLine "line " := by decide
  simp only [hline, oneLine_append, oneLine_symbolKind, oneLine_scopeKind, oneLine_repr, h, hwords,
    and_true]

/-- Each line carries its line break, so texts of lines may be put together. -/
theorem joinLines_append (lines later : List String) :
    joinLines (lines ++ later) = joinLines lines ++ joinLines later := by
  rw [joinLines, List.map_append, String.join_append]
  rfl

/-- The lines that were joined, and nothing behind the last one. -/
theorem linesOf_joinLines (h : ∀ line ∈ lines, OneLine line) :
    linesOf (joinLines lines) = lines ++ [""] := by
  induction lines with
  | nil => rfl
  | cons line lines ih =>
    obtain ⟨hline, hlines⟩ := List.forall_mem_cons.1 h
    have hjoin : (joinLines (line :: lines)).toList =
        line.toList ++ '\n' :: (joinLines lines).toList := by
      simp [joinLines, String.join_cons]
    rw [linesOf, hjoin, List.splitOn_append_cons_self_of_not_mem hline, List.map_cons,
      String.ofList_toList, List.cons_append, ← ih hlines]
    rfl

end Lines

/-- What is listed for a source: its tokens, and on request its symbols below a heading. -/
def listed (symbols : Bool) (analysis : Analysis) : List String :=
  analysis.tokens.map Token.listing ++
    if symbols then
      "" :: "Symbols:" :: analysis.table.symbols.toList.map (symbolLine analysis.table)
    else []

section Answers

variable {source : String}

/-- Each line that is listed is one. -/
theorem oneLine_of_mem_listed (symbols : Bool) :
    ∀ line ∈ listed symbols (Analysis.ofSource source), OneLine line := by
  intro line hline
  rcases List.mem_append.1 hline with hline | hline
  · obtain ⟨token, htoken, rfl⟩ := List.mem_map.1 hline
    rw [Analysis.tokens_ofSource] at htoken
    exact oneLine_listing (Lexing.of_mem_tokens htoken).2.1
  · split at hline
    next =>
      -- an empty line and the heading stand above the symbols
      rcases hline with - | ⟨-, - | ⟨-, hline⟩⟩
      · decide
      · decide
      · obtain ⟨symbol, hsymbol, rfl⟩ := List.mem_map.1 hline
        have hstands := (Analysis.table_pointsInto source).2 symbol (Array.mem_toList_iff.1 hsymbol)
        exact oneLine_symbolLine hstands.2 _
    next => cases hline

/-- A source without errors is answered by what is listed for it. -/
theorem answer_of_clean {options : Options} {sourceName : String}
    (h : (Analysis.ofSource source).diagnostics = []) :
    answer options sourceName source (.ofSource source) =
      .success (joinLines (listed options.symbols (.ofSource source))) := by
  have hclean : (Analysis.ofSource source).isClean := List.isEmpty_iff.2 h
  rw [answer, if_pos hclean, listed, joinLines_append, tokenListing, symbolListing]
  congr 2
  split <;> rfl

/-- A source with errors is answered by reports on them and a summary. -/
theorem answer_of_reported {options : Options} {sourceName : String}
    (h : (Analysis.ofSource source).diagnostics ≠ []) : ∃ reports,
      answer options sourceName source (.ofSource source) =
        .failure (reports ++ summary (.ofSource source)) := by
  have hclean : ¬ (Analysis.ofSource source).isClean := fun hclean => h (List.isEmpty_iff.1 hclean)
  rw [answer, if_neg hclean]
  exact ⟨_, rfl⟩

end Answers

section Answering

variable {arguments : List String} {options : Options}

/-- In whichever way files and the standard input are read, a command that is to analyse a source
answers what it reads. -/
theorem respond_eq {m : Type → Type} [Monad m]
    (harguments : readArguments {} arguments = .ok (.run options))
    (hexplain : options.explain = none)
    (readFile : String → m Reading) (readStdin : m Reading) :
    respond arguments readFile readStdin =
      answerInput options <$> options.chosen readFile readStdin := by
  rw [respond, harguments, immediate, hexplain]

/-- Bytes that are read as a text are answered by the answer to its analysis. -/
theorem answerInput_of_decode {bytes : List UInt8} {source : String}
    (h : Encoding.decode bytes = .ok source) (options : Options) :
    answerInput options (.ok bytes) =
      answer options options.sourceName source (.ofSource source) := by
  rw [answerInput, answerBytes, h]

/-- The bytes of a text are answered by the answer to its analysis. -/
theorem answerInput_source (options : Options) (source : String) :
    answerInput options (.ok source.toUTF8.data.toList) =
      answer options options.sourceName source (.ofSource source) :=
  answerInput_of_decode ((Encoding.decode_eq_ok_iff _ _).2 rfl) options

/-- What can be read and is a text without errors is listed; anything else is refused. -/
theorem answerInput_cases (options : Options) (reading : Reading) :
    (∃ source, reading = .ok source.toUTF8.data.toList ∧
      (Analysis.ofSource source).diagnostics = [] ∧
      answerInput options reading =
        .success (joinLines (listed options.symbols (.ofSource source)))) ∨
    (∀ source, reading = .ok source.toUTF8.data.toList →
      (Analysis.ofSource source).diagnostics ≠ []) ∧
      ∃ reason, answerInput options reading = .failure reason := by
  match reading with
  | .error e => exact .inr ⟨nofun, _, rfl⟩
  | .ok bytes =>
    -- bytes are those of the text that they are read as, and of no other one
    simp only [Except.ok.injEq, ← Encoding.decode_eq_ok_iff]
    cases hdecode : Encoding.decode bytes with
    | error e =>
      refine .inr ⟨nofun, ?_⟩
      rw [answerInput, answerBytes, hdecode]
      exact ⟨_, rfl⟩
    | ok source =>
      rw [answerInput_of_decode hdecode]
      by_cases hclean : (Analysis.ofSource source).diagnostics = []
      · exact .inl ⟨source, rfl, hclean, answer_of_clean hclean⟩
      · obtain ⟨reports, hanswer⟩ := answer_of_reported hclean
        refine .inr ⟨fun source' hsource => ?_, _, hanswer⟩
        rwa [← Except.ok.inj hsource]

/-- But for what is written to the standard error, the answer depends on what is read and on whether
symbols are asked for. -/
theorem answerInput_congr {options' : Options} (hsymbols : options'.symbols = options.symbols)
    (reading : Reading) :
    (answerInput options' reading).exitCode = (answerInput options reading).exitCode ∧
      (answerInput options' reading).stdout = (answerInput options reading).stdout := by
  rcases answerInput_cases options reading with
    ⟨source, rfl, hclean, hanswer⟩ | ⟨hnone, _, hanswer⟩
  · rw [hanswer, answerInput_source, answer_of_clean hclean, hsymbols]
    exact ⟨rfl, rfl⟩
  · rcases answerInput_cases options' reading with ⟨source, hsource, hclean, -⟩ | ⟨-, _, hanswer'⟩
    · exact absurd hclean (hnone source hsource)
    · rw [hanswer, hanswer']
      exact ⟨rfl, rfl⟩

end Answering

end CommandLine

end CrudLang
