import CrudLang.Diagnostic.Report
import CrudLang.Proofs.Analysis.Gating
import CrudLang.Proofs.Analysis.Layout
import CrudLang.Proofs.Grammar.Names
import CrudLang.Proofs.Scope.Consistency
import CrudLang.Proofs.Source.Lines
import CrudLang.Proofs.Token.Neighbours

/-!
# Labels point into the source

Every label of an analysis is a range of the source that lies within one line
(`Analysis.pointsInto_of_mem`), since all spans come from tokens or bad lexemes: a syntax error is
about a token or about the end of the last one, and a violation of the rules of scope is about
identifiers, which are tokens, or about symbols, which were declared by such identifiers. So a
diagnostic shows the names that it is about, its line can be counted in the source, and reporting it
never fails.
-/

namespace CrudLang

/-- The span is a range of the source within one line, and it begins and ends between characters. -/
def Span.OnOneLine (source : String) (span : Span) : Prop :=
  ∃ text, span.Slices source text ∧ '\n' ∉ text.toList

/-- The identifier is the text of the source in its span. -/
def Ident.StandsIn (source : String) (ident : Ident) : Prop :=
  ident.span.Slices source ident.name ∧ '\n' ∉ ident.name.toList

namespace Span

variable {source text : String} {span : Span}

namespace Slices

variable (h : span.Slices source text)
include h

theorem start_le_stop : span.start ≤ span.stop := by
  obtain ⟨before, after, -, rfl⟩ := h
  simp [String.utf8ByteSize_append]

theorem stop_le : span.stop ≤ source.utf8ByteSize := by
  obtain ⟨before, after, rfl, rfl⟩ := h
  show (before ++ text).utf8ByteSize ≤ (before ++ text ++ after).utf8ByteSize
  simp only [String.utf8ByteSize_append, Nat.le_add_right]

theorem isValid_start : String.Pos.Raw.IsValid source ⟨span.start⟩ := by
  obtain ⟨before, after, rfl, rfl⟩ := h
  exact String.Pos.Raw.isValid_iff_exists_append.2
    ⟨before, text ++ after, String.append_assoc .., rfl⟩

theorem isValid_stop : String.Pos.Raw.IsValid source ⟨span.stop⟩ := by
  obtain ⟨before, after, rfl, rfl⟩ := h
  exact String.Pos.Raw.isValid_iff_exists_append.2 ⟨before ++ text, after, rfl, rfl⟩

theorem clamp_eq : span.clamp source.utf8ByteSize = span := by
  have hstart := Nat.le_trans h.start_le_stop h.stop_le
  rw [clamp, Nat.min_eq_left hstart, Nat.min_eq_left h.stop_le]

/-- The line of a span is counted by the line feeds before it. -/
theorem lineOf_start : ∃ before after, source = before ++ after ∧
    span.start = before.utf8ByteSize ∧
      (LineIndex.ofSource source).lineOf span.start = 1 + before.toList.count '\n' := by
  obtain ⟨before, after, rfl, rfl⟩ := h
  refine ⟨before, text ++ after, String.append_assoc .., rfl, ?_⟩
  have hline := LineIndex.lineOf_ofChars_append before.toList (text ++ after).toList
  rw [utf8Length_toList] at hline
  rw [LineIndex.ofSource, String.append_assoc, String.toList_append]
  exact hline

/-- The empty span at the end of a span. -/
theorem point_stop : (Span.point span.stop).OnOneLine source := by
  obtain ⟨before, after, rfl, rfl⟩ := h
  refine ⟨"", ⟨before ++ text, after, ?_, ?_⟩, List.not_mem_nil⟩
  · rw [String.append_empty]
  · rw [String.append_empty]
    rfl

end Slices

/-- The empty span at the beginning of the source. -/
theorem onOneLine_point_zero : (Span.point 0).OnOneLine source :=
  ⟨"", ⟨"", source, by simp, rfl⟩, List.not_mem_nil⟩

end Span

section Lexing

/-- The chunk stands in a source and leaves tokens and diagnostics behind. -/
def Chunk.StandsIn (lines : LineIndex) (source : List Char) (chunk : Chunk) (ts : List Token)
    (ds : List Diagnostic) : Prop :=
  ∃ before after, source = before ++ (chunk.text ++ after) ∧
    Chunk.Munches (chunk.text ++ after) chunk ∧
    Chunk.Leaves lines ⟨utf8Length before, utf8Length before + utf8Length chunk.text⟩ chunk ts ds

variable {lines : LineIndex} {source : List Char}

/-- Tokens and diagnostics are left behind by chunks of the source. The text `r` stands behind the
text `before`. -/
theorem Lexed.standsIn {offset : Nat} {r : List Char} {lexing : Lexing} (before : List Char)
    (h : Lexed lines offset r lexing) (hoffset : offset = utf8Length before) :
    (∀ token ∈ lexing.tokens, ∃ chunk ts ds, token ∈ ts ∧
      Chunk.StandsIn lines (before ++ r) chunk ts ds) ∧
    ∀ d ∈ lexing.diagnostics, ∃ chunk ts ds, d ∈ ds ∧
      Chunk.StandsIn lines (before ++ r) chunk ts ds := by
  induction h generalizing before with
  | nil => simp
  | @cons _ chunk after _ ts ds _ _ hmunch heq hleaves _ ih =>
    subst heq hoffset
    obtain ⟨htokens, hdiagnostics⟩ := ih (before ++ chunk.text) (by simp)
    rw [List.append_assoc] at htokens hdiagnostics
    -- the chunk at the head stands behind `before`, and the others behind it too
    have hhere : Chunk.StandsIn lines (before ++ (chunk.text ++ after)) chunk ts ds :=
      ⟨before, after, rfl, hmunch, hleaves⟩
    exact ⟨fun token htoken => (List.mem_append.1 htoken).elim
        (fun htoken => ⟨chunk, ts, ds, htoken, hhere⟩) (htokens token),
      fun d hd => (List.mem_append.1 hd).elim
        (fun hd => ⟨chunk, ts, ds, hd, hhere⟩) (hdiagnostics d)⟩

namespace Chunk

variable {span : Span} {chunk : Chunk} {ts : List Token} {ds : List Diagnostic} {token : Token}
  {d : Diagnostic}

/-- A blank leaves nothing behind. -/
theorem Leaves.kind_ne_blank (h : Leaves lines span chunk ts ds) (hne : ts ≠ [] ∨ ds ≠ []) :
    chunk.kind ≠ .blank := by
  rintro hkind
  cases h <;> simp_all

/-- The lexeme of an identifier is its name. -/
theorem Leaves.lexeme_of_identifier (h : Leaves lines span chunk ts ds) (htoken : token ∈ ts)
    {name : String} (hname : token.kind = .identifier name) : token.lexeme = name := by
  cases h <;> simp_all

/-- A lexical error is on the line of its label, the only one that it has. -/
theorem Leaves.line (h : Leaves lines span chunk ts ds) (hd : d ∈ ds) :
    d.line = lines.lineOf d.span.start ∧ d.secondary = [] := by
  cases h <;> simp_all [LexicalError.diagnostic, Diagnostic.span]

/-- A chunk that leaves something behind is a range of the source on one line. -/
theorem StandsIn.slices (h : StandsIn lines source chunk ts ds) (hne : ts ≠ [] ∨ ds ≠ []) :
    ∃ span, Leaves lines span chunk ts ds ∧ span.Slices (.ofList source) (.ofList chunk.text) ∧
      '\n' ∉ chunk.text := by
  obtain ⟨before, after, rfl, hmunch, hleaves⟩ := h
  refine ⟨_, hleaves, ⟨.ofList before, .ofList after, ?_, ?_⟩,
    hmunch.newline_notMem (hleaves.kind_ne_blank hne)⟩
  · rw [← String.ofList_append, ← String.ofList_append, List.append_assoc]
  · rw [← String.ofList_append, ← utf8Length_toList, ← utf8Length_toList, String.toList_ofList,
      String.toList_ofList, utf8Length_append]

end Chunk

end Lexing

namespace Lexing

variable {source : String}

theorem lexed_ofSource (source : String) :
    Lexed (.ofSource source) 0 source.toList (ofSource source) :=
  .chunks _ _ _

/-- A token is a range of the source on one line, and an identifier is the text in its place. -/
theorem of_mem_tokens {token : Token} (h : token ∈ (ofSource source).tokens) :
    token.span.Slices source token.lexeme ∧ '\n' ∉ token.lexeme.toList ∧
      ∀ name, token.kind = .identifier name → token.lexeme = name := by
  obtain ⟨chunk, ts, ds, htoken, hstands⟩ := ((lexed_ofSource source).standsIn [] rfl).1 token h
  obtain ⟨span, hleaves, hslices, hline⟩ := hstands.slices (.inl (List.ne_nil_of_mem htoken))
  rw [List.nil_append, String.ofList_toList] at hslices
  obtain ⟨rfl, hlexeme⟩ := hleaves.token token htoken
  refine ⟨hlexeme ▸ hslices, ?_, fun name => hleaves.lexeme_of_identifier htoken⟩
  rwa [hlexeme, String.toList_ofList]

/-- A lexical error is about a range of the source on one line. -/
theorem of_mem_diagnostics {d : Diagnostic} (h : d ∈ (ofSource source).diagnostics) :
    d.span.OnOneLine source ∧ d.line = (LineIndex.ofSource source).lineOf d.span.start ∧
      d.secondary = [] := by
  obtain ⟨chunk, ts, ds, hd, hstands⟩ := ((lexed_ofSource source).standsIn [] rfl).2 d h
  obtain ⟨span, hleaves, hslices, hline⟩ := hstands.slices (.inr (List.ne_nil_of_mem hd))
  rw [List.nil_append, String.ofList_toList] at hslices
  have hspan : d.span = span := hleaves.diagnostic d hd
  exact ⟨hspan ▸ ⟨_, hslices, by rwa [String.toList_ofList]⟩, hleaves.line hd⟩

end Lexing

/-- An identifier among the tokens of a source is the text in its place. -/
theorem Ident.OneOf.standsIn {source : String} {ident : Ident}
    (h : ident.OneOf (Lexing.ofSource source).tokens) : ident.StandsIn source := by
  obtain ⟨token, htoken, hkind, hspan⟩ := h
  obtain ⟨hslices, hline, hname⟩ := Lexing.of_mem_tokens htoken
  rw [hname _ hkind] at hslices hline
  exact ⟨hspan ▸ hslices, hline⟩

namespace Parsing

variable {source : String}

/-- The end of the last token is the end of a range of the source, or its beginning. -/
theorem onOneLine_endOfTokens (source : String) :
    (Span.point (endOfTokens (Lexing.ofSource source).tokens)).OnOneLine source := by
  unfold endOfTokens
  cases hlast : (Lexing.ofSource source).tokens.getLast? with
  | none => exact Span.onOneLine_point_zero
  | some token => exact (Lexing.of_mem_tokens (List.mem_of_getLast? hlast)).1.point_stop

/-- A syntax error is about a token, or about the end of the last one. -/
theorem onOneLine_span {f : Failure}
    (hf : f ∈ (ofTokens (Lexing.ofSource source).tokens).failures) :
    (f.span (endOfTokens (Lexing.ofSource source).tokens)).OnOneLine source := by
  -- failures are places in the input
  obtain ⟨-, -, -, -, -, hfailures⟩ :=
    ofTokens_layout (rfl : kindsOf (Lexing.ofSource source).tokens = _)
  obtain ⟨i, -, hi, -⟩ := (List.forall₂_same.1 hfailures f hf).rest
  rw [span_eq_spanAt hi, spanAt]
  cases htoken : (Lexing.ofSource source).tokens[i]? with
  | none => exact onOneLine_endOfTokens source
  | some token =>
    obtain ⟨hslices, hline, -⟩ := Lexing.of_mem_tokens (List.mem_of_getElem? htoken)
    exact ⟨token.lexeme, hslices, hline⟩

end Parsing

section Checking

/-- The identifier that a violation is about. -/
def ScopeError.ident : ScopeError → Ident
  | .redeclared ident _ _ | .undeclared ident | .mismatch ident _ _ => ident

/-- The diagnostic is for a violation of the rules of scope, and wherever it points to, the source
has the name that it is about. -/
def Diagnostic.Names (source : String) (d : Diagnostic) : Prop :=
  ∃ error : ScopeError, d = error.diagnostic (.ofSource source) ∧
    ∀ label ∈ d.labels, (⟨error.ident.name, label.span⟩ : Ident).StandsIn source

/-- The identifier of a symbol, where it was declared. -/
def Symbol.ident (symbol : Symbol) : Ident :=
  ⟨symbol.name, symbol.span⟩

namespace SymbolTable

variable {table : SymbolTable} {name : String} {symbol : Symbol}

/-- What a name means is bound to it in some scope. -/
theorem exists_getIn?_of_lookupFrom {i n : Nat} (h : table.lookupFrom i name = some n) :
    ∃ j, table.getIn? j name = some n := by
  fun_induction lookupFrom table i name with
  | case1 i m hm => exact ⟨i, hm.trans h⟩
  | case2 => cases h
  | case3 i _ j _ _ ih => exact ih h
  | case4 => cases h

/-- What a name means is a symbol of that name. -/
theorem WellFormed.of_lookup (hwell : table.WellFormed) (h : table.lookup name = some symbol) :
    symbol ∈ table.symbols ∧ symbol.name = name := by
  obtain ⟨n, hn, hsymbol⟩ := Option.bind_eq_some_iff.1 h
  obtain ⟨j, hj⟩ := exists_getIn?_of_lookupFrom hn
  obtain ⟨s, hs, hname, -⟩ := hwell.binding hj
  obtain rfl := Option.some.inj (hs.symm.trans hsymbol)
  exact ⟨Array.mem_of_getElem? hs, hname⟩

end SymbolTable

namespace Checking

/-- The symbols so far stand in the source, and the diagnostics so far name what they are about. -/
structure PointsInto (source : String) (s : Checking) : Prop where
  wellFormed : s.table.WellFormed
  symbols : ∀ symbol ∈ s.table.symbols, symbol.ident.StandsIn source
  diagnostics : ∀ d ∈ s.diagnostics, d.Names source

namespace PointsInto

variable {source : String} {s : Checking}

theorem start (source : String) : Checking.start.PointsInto source where
  wellFormed := .empty
  symbols _ h := by cases Array.mem_toList_iff.2 h
  diagnostics _ h := nomatch h

/-- Reporting a violation that names what it is about. -/
theorem report (h : s.PointsInto source) {error : ScopeError}
    (herror : (error.diagnostic (.ofSource source)).Names source) :
    (s.report (.ofSource source) error).PointsInto source where
  wellFormed := h.wellFormed
  symbols := h.symbols
  diagnostics d hd := by
    rcases List.mem_append.1 hd with hd | hd
    · exact h.diagnostics d hd
    · rwa [List.mem_singleton.1 hd]

/-- Declaring an identifier of the source. -/
theorem declare (h : s.PointsInto source) {ident : Ident} (hident : ident.StandsIn source)
    (kind : SymbolKind) : (s.declare (.ofSource source) ident kind).PointsInto source := by
  cases hname : s.table.getIn? s.table.current ident.name with
  | some n =>
    -- the name is that of a symbol
    obtain ⟨previous, hprevious, hsame, -⟩ := h.wellFormed.binding hname
    have hstands := h.symbols previous (Array.mem_of_getElem? hprevious)
    rw [Checking.declare, SymbolTable.declare, hname]
    dsimp only
    rw [hprevious]
    refine h.report ⟨_, rfl, fun label hlabel => ?_⟩
    simp only [Diagnostic.labels, ScopeError.diagnostic, List.mem_cons, List.not_mem_nil,
      or_false] at hlabel
    rcases hlabel with rfl | rfl
    · exact hident
    · rw [ScopeError.ident, ← hsame]
      exact hstands
  | none =>
    rw [Checking.declare, SymbolTable.declare_eq_ok hname]
    refine ⟨h.wellFormed.insert rfl hname, fun symbol hsymbol => ?_, h.diagnostics⟩
    rcases Array.mem_push.1 hsymbol with hsymbol | rfl
    · exact h.symbols symbol hsymbol
    · exact hident

/-- Using an identifier of the source. -/
theorem use (h : s.PointsInto source) {ident : Ident} (hident : ident.StandsIn source)
    (role : Role) : (s.use (.ofSource source) ident role).PointsInto source := by
  rw [Checking.use]
  split
  next =>
    refine h.report ⟨_, rfl, fun label hlabel => ?_⟩
    obtain rfl := List.mem_singleton.1 hlabel
    exact hident
  next symbol hsymbol =>
    -- the name is that of a symbol, but maybe of one that does not fit the use
    obtain ⟨hmem, hsame⟩ := h.wellFormed.of_lookup hsymbol
    split
    · exact h
    refine h.report ⟨_, rfl, fun label hlabel => ?_⟩
    simp only [Diagnostic.labels, ScopeError.diagnostic, List.mem_cons, List.not_mem_nil,
      or_false] at hlabel
    rcases hlabel with rfl | rfl
    · exact hident
    · rw [ScopeError.ident, ← hsame]
      exact h.symbols symbol hmem

theorem step (h : s.PointsInto source) {event : Event}
    (hevent : ∀ ident ∈ event.ident?, ident.StandsIn source) :
    (s.step (.ofSource source) event).PointsInto source := by
  cases event with
  | enter kind => exact ⟨h.wellFormed.enter kind, h.symbols, h.diagnostics⟩
  | leave =>
    refine ⟨h.wellFormed.leave, ?_, h.diagnostics⟩
    rw [show (s.step _ .leave).table = s.table.leave from rfl, SymbolTable.leave]
    split <;> exact h.symbols
  | declare ident kind => exact h.declare (hevent ident rfl) kind
  | use ident role => exact h.use (hevent ident rfl) role

theorem play (h : s.PointsInto source) {events : List Event}
    (hevents : ∀ event ∈ events, ∀ ident ∈ event.ident?, ident.StandsIn source) :
    (s.play (.ofSource source) events).PointsInto source := by
  induction events generalizing s with
  | nil => exact h
  | cons event events ih =>
    obtain ⟨hevent, hevents⟩ := List.forall_mem_cons.1 hevents
    exact ih (h.step hevent) hevents

end PointsInto

end Checking

end Checking

section Reports

/-- The diagnostic points into the source: its labels are ranges of the source, from character to
character and within one line, and its line is that of the first label. -/
structure Diagnostic.PointsInto (source : String) (d : Diagnostic) : Prop where
  ordered : ∀ label ∈ d.labels, label.span.start ≤ label.span.stop
  inside : ∀ label ∈ d.labels, label.span.stop ≤ source.utf8ByteSize
  boundaries : ∀ label ∈ d.labels, String.Pos.Raw.IsValid source ⟨label.span.start⟩ ∧
    String.Pos.Raw.IsValid source ⟨label.span.stop⟩
  oneLine : ∀ label ∈ d.labels, label.span.OnOneLine source
  line : ∃ before after, source = before ++ after ∧ d.span.start = before.utf8ByteSize ∧
    d.line = 1 + before.toList.count '\n'
  exists_line : 1 ≤ d.line ∧ d.line ≤ (LineIndex.ofSource source).lineCount

variable {source : String} {d : Diagnostic}

/-- It is enough that the labels are on one line each and that the line is that of the first one. -/
theorem Diagnostic.PointsInto.of_onOneLine
    (hlabels : ∀ label ∈ d.labels, label.span.OnOneLine source)
    (hline : d.line = (LineIndex.ofSource source).lineOf d.span.start) : d.PointsInto source := by
  -- the first label says where the line begins
  obtain ⟨text, hslices, -⟩ := hlabels d.primary List.mem_cons_self
  obtain ⟨before, after, hsource, hstart, hcount⟩ := hslices.lineOf_start
  have hd : d.line = 1 + before.toList.count '\n' := hline.trans hcount
  refine ⟨fun label hlabel => ?_, fun label hlabel => ?_, fun label hlabel => ?_, hlabels,
    ⟨before, after, hsource, hstart, hd⟩, ?_⟩
  · obtain ⟨_, hslices, -⟩ := hlabels label hlabel
    exact hslices.start_le_stop
  · obtain ⟨_, hslices, -⟩ := hlabels label hlabel
    exact hslices.stop_le
  · obtain ⟨_, hslices, -⟩ := hlabels label hlabel
    exact ⟨hslices.isValid_start, hslices.isValid_stop⟩
  · rw [hd, LineIndex.ofSource, LineIndex.lineCount_ofChars, hsource, String.toList_append,
      List.count_append]
    omega

/-- Where a diagnostic names what it is about, it points into the source. -/
theorem Diagnostic.Names.pointsInto (h : d.Names source) : d.PointsInto source := by
  obtain ⟨error, rfl, hlabels⟩ := h
  refine .of_onOneLine (fun label hlabel => ?_) ?_
  · exact ⟨_, hlabels label hlabel⟩
  · cases error <;> rfl

/-- A line is put among ascending lines where it belongs. -/
theorem Diagnostics.pairwise_insertLine {line : Nat} {lines : List Nat}
    (h : lines.Pairwise (· < ·)) : (insertLine line lines).Pairwise (· < ·) := by
  induction lines with
  | nil => exact List.pairwise_singleton _ line
  | cons first rest ih =>
    obtain ⟨hfirst, hrest⟩ := List.pairwise_cons.1 h
    rw [insertLine]
    split
    next hless =>
      refine List.pairwise_cons.2 ⟨fun n hn => ?_, h⟩
      rcases List.mem_cons.1 hn with rfl | hn
      · exact hless
      · exact Nat.lt_trans hless (hfirst n hn)
    split
    next => exact h
    next hless hne =>
      -- the line goes further back, and it is not before the first one
      refine List.pairwise_cons.2 ⟨fun n hn => ?_, ih hrest⟩
      rcases mem_insertLine.1 hn with rfl | hn
      · omega
      · exact hfirst n hn

/-- The lines of diagnostics ascend. -/
theorem Diagnostics.pairwise_errorLines (diagnostics : Diagnostics) :
    (errorLines diagnostics).Pairwise (· < ·) := by
  induction diagnostics with
  | nil => exact .nil
  | cons d diagnostics ih => exact pairwise_insertLine ih

theorem isSome_mapM {α β : Type} {f : α → Option β} {l : List α} (h : ∀ a ∈ l, (f a).isSome) :
    (l.mapM f).isSome := by
  induction l with
  | nil => rfl
  | cons a l ih =>
    obtain ⟨ha, hl⟩ := List.forall_mem_cons.1 h
    obtain ⟨b, hb⟩ := Option.isSome_iff_exists.1 ha
    obtain ⟨bs, hbs⟩ := Option.isSome_iff_exists.1 (ih hl)
    simp [List.mapM_cons, hb, hbs]

namespace Report

/-- Labels that do not end before they start can be drawn. -/
theorem Mark.isSome_ofDiagnostic? {length : Nat}
    (h : ∀ label ∈ d.labels, (label.span.clamp length).start ≤ (label.span.clamp length).stop) :
    (Mark.ofDiagnostic? length d).isSome := by
  obtain ⟨hprimary, hsecondary⟩ := List.forall_mem_cons.1 h
  unfold Mark.ofDiagnostic?
  dsimp only
  rw [if_pos hprimary]
  have hmarks := isSome_mapM (l := d.secondary)
    (f := fun label => if (label.span.clamp length).start ≤ (label.span.clamp length).stop then
      some (⟨(label.span.clamp length).start, (label.span.clamp length).stop, label.message,
        .secondary⟩ : Mark) else none) fun label hlabel => by
          rw [if_pos (hsecondary label hlabel)]
          rfl
  obtain ⟨marks, hmarks⟩ := Option.isSome_iff_exists.1 hmarks
  rw [hmarks]
  rfl

/-- A diagnostic that points into the source can be shown with it. -/
theorem isSome_ofDiagnostic? (h : d.PointsInto source) (file : String) (coloured : Bool) :
    (ofDiagnostic? file source coloured d).isSome := by
  unfold ofDiagnostic?
  dsimp only
  rw [Option.isSome_map]
  refine Mark.isSome_ofDiagnostic? fun label hlabel => ?_
  obtain ⟨_, hslices, -⟩ := h.oneLine label hlabel
  rw [hslices.clamp_eq]
  exact hslices.start_le_stop

end Report

end Reports

namespace Analysis

variable {source : String} {d : Diagnostic}

/-- Checking the program that is read of a source points into it. -/
theorem pointsInto_program {program : Program}
    (h : (Parsing.ofTokens (Lexing.ofSource source).tokens).program = some program) :
    (Checking.program (.ofSource source) .start program).PointsInto source := by
  have hevents := Parsing.about_events h
  exact (Checking.PointsInto.start source).play fun event hevent ident hident =>
    (hevents event hevent ident hident).standsIn

/-- Behind lexing, syntax errors point into the source, and violations of the rules of scope name
what they are about. -/
theorem of_mem_behindLexing
    (h : d ∈ (behindLexing (.ofSource source) (Lexing.ofSource source).tokens).diagnostics) :
    d.PointsInto source ∧ (d.kind.IsSemantic → d.Names source) := by
  unfold behindLexing at h
  split at h
  next program _ hprogram _ =>
    have hnames := (pointsInto_program hprogram).diagnostics d h
    exact ⟨hnames.pointsInto, fun _ => hnames⟩
  next =>
    obtain ⟨f, hf, rfl⟩ := List.mem_map.1 h
    refine ⟨.of_onOneLine (fun label hlabel => ?_) rfl, fun hkind => ?_⟩
    · obtain rfl := List.mem_singleton.1 hlabel
      exact Parsing.onOneLine_span hf
    · simp [Failure.diagnostic, DiagnosticKind.IsSemantic] at hkind

theorem pointsInto_of_mem (h : d ∈ (ofSource source).diagnostics) :
    d.PointsInto source ∧ (d.kind.IsSemantic → d.Names source) := by
  rw [ofSource_eq] at h
  rcases List.mem_append.1 h with hd | hd
  · obtain ⟨hspan, hline, hsecondary⟩ := Lexing.of_mem_diagnostics hd
    have hkind := kind_of_mem_lexing source d hd
    refine ⟨.of_onOneLine (fun label hlabel => ?_) hline, fun hsemantic => ?_⟩
    · rw [Diagnostic.labels, hsecondary] at hlabel
      rw [List.mem_singleton.1 hlabel]
      exact hspan
    · simp [hkind, DiagnosticKind.IsSemantic] at hsemantic
  · exact of_mem_behindLexing hd

/-- Every label of an analysis is a range of the source, from character to character and within one
line; every diagnostic is on the line that is counted by the line feeds before its first label; and
where a diagnostic is about a name, all its labels point to that name. So no label has to be clamped
when the diagnostics are shown with their source, which never fails, and the lines that have
diagnostics are lines of the source, in ascending order. -/
theorem diagnostics_pointInto (source : String) :
    (∀ d ∈ (ofSource source).diagnostics,
      d.PointsInto source ∧
      (d.kind.IsSemantic → ∃ error : ScopeError, d = error.diagnostic (.ofSource source) ∧
        ∀ label ∈ d.labels, label.span.Slices source error.ident.name) ∧
      ∀ label ∈ d.labels, label.span.clamp source.utf8ByteSize = label.span) ∧
    (∀ file coloured, ((ofSource source).diagnostics.render? file source coloured).isSome) ∧
    (ofSource source).errorLines.Pairwise (· < ·) ∧
    ∀ line ∈ (ofSource source).errorLines,
      1 ≤ line ∧ line ≤ (LineIndex.ofSource source).lineCount := by
  refine ⟨fun d hd => ?_, fun file coloured => ?_, Diagnostics.pairwise_errorLines _,
    fun line hline => ?_⟩
  · obtain ⟨hpoints, hnames⟩ := pointsInto_of_mem hd
    refine ⟨hpoints, fun hkind => ?_, fun label hlabel => ?_⟩
    · obtain ⟨error, heq, hlabels⟩ := hnames hkind
      exact ⟨error, heq, fun label hlabel => (hlabels label hlabel).1⟩
    · obtain ⟨_, hslices, -⟩ := hpoints.oneLine label hlabel
      exact hslices.clamp_eq
  · rw [Diagnostics.render?, Option.isSome_map]
    exact isSome_mapM fun d hd => Report.isSome_ofDiagnostic? (pointsInto_of_mem hd).1 file coloured
  · obtain ⟨d, hd, rfl⟩ := Diagnostics.mem_errorLines.1 hline
    exact (pointsInto_of_mem hd).1.exists_line

end Analysis

end CrudLang
