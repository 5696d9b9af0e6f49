import CrudLang.Proofs.Analysis.Labels
import CrudLang.Proofs.Token.Blanking

/-!
# Lexing goes line by line

A line feed is part of no lexeme but a blank, so the longest match in a text stays the longest one
when a line feed and anything else is put behind the text (`Chunk.Munches.append_newline`). What a
text leaves behind is therefore what it leaves behind in front of a line feed, and lexing starts
anew behind it: `Lexing.ofSource_append_newline` says that two texts with a line feed between them
are lexed one by one, and that what the second one leaves behind is only moved.
-/

namespace CrudLang

open Computability

section Moved

variable (offset lines : Nat)

/-- A token further on in the source, by so many bytes and lines. -/
def Token.moved (token : Token) : Token :=
  { token with line := token.line + lines, span := token.span.shift offset }

/-- A label further on in the source. -/
def Label.moved (label : Label) : Label :=
  { label with span := label.span.shift offset }

/-- A diagnostic further on in the source, by so many bytes and lines. -/
def Diagnostic.moved (d : Diagnostic) : Diagnostic :=
  { d with
    line := d.line + lines
    primary := d.primary.moved offset
    secondary := d.secondary.map (Label.moved offset) }

/-- The outcome of lexing, further on in the source by so many bytes and lines. -/
def Lexing.moved (lexing : Lexing) : Lexing :=
  ⟨lexing.tokens.map (Token.moved offset lines),
    lexing.diagnostics.map (Diagnostic.moved offset lines)⟩

/-- The outcome of lexing one text behind another. -/
def Lexing.append (first second : Lexing) : Lexing :=
  ⟨first.tokens ++ second.tokens, first.diagnostics ++ second.diagnostics⟩

@[simp] theorem Lexing.moved_zero (lexing : Lexing) : lexing.moved 0 0 = lexing := by
  have htoken : Token.moved 0 0 = id := rfl
  have hlabel : Label.moved 0 = id := rfl
  have hdiagnostic : Diagnostic.moved 0 0 = id := by
    funext d
    rw [Diagnostic.moved, hlabel, List.map_id]
    rfl
  rw [moved, htoken, hdiagnostic, List.map_id, List.map_id]

end Moved

section Prefixes

variable {s r : List Char}

/-- What has no line feed does not go on behind one. -/
theorem isPrefix_of_append_newline (hs : '\n' ∉ s) {t : List Char} (h : s <+: r ++ '\n' :: t) :
    s <+: r := by
  rcases List.prefix_or_prefix_of_prefix h (List.prefix_append r _) with hprefix | ⟨u, rfl⟩
  · exact hprefix
  · cases u with
    | nil => exact ⟨[], by simp⟩
    | cons d u =>
      obtain ⟨rfl, -⟩ := List.cons_prefix_cons.1 ((List.prefix_append_right_inj r).1 h)
      exact absurd (by simp) hs

/-- The longest text of a language at the head of a text stays the longest one if no text of the
language reaches beyond a line feed. -/
theorem IsLongestPrefix.append_newline {l : Language Char} (h : IsLongestPrefix l s r)
    {t : List Char} (hl : ∀ u ∈ l, u <+: r ++ '\n' :: t → '\n' ∉ u) :
    IsLongestPrefix l s (r ++ '\n' :: t) where
  mem := h.mem
  isPrefix := h.isPrefix.trans (List.prefix_append r _)
  length_le u hu hprefix := h.length_le u hu (isPrefix_of_append_newline (hl u hu hprefix) hprefix)

end Prefixes

namespace Chunk

variable {c : Char} {r rest s : List Char} {chunk : Chunk}

/-- What is taken from a text that begins with a blank is blank. -/
theorem Munches.not_isBlank (h : Munches (c :: rest) chunk) (hkind : chunk.kind ≠ .blank) :
    ¬ isBlank c := by
  intro hblank
  have heq := h.unique (munches_cut c rest)
  rw [cut_of_isBlank hblank] at heq
  exact hkind (by rw [heq])

/-- A lexeme with a line feed begins with a blank. -/
theorem newline_notMem_of_prefix (hc : ¬ isBlank c) (hs : s ∈ lexemes) (h : s <+: c :: rest) :
    '\n' ∉ s := by
  obtain ⟨kind, hs⟩ := hs
  refine newline_notMem_of_mem_lexemes hs ?_
  rintro rfl
  obtain ⟨d, t, rfl, hd, -⟩ := mem_oneOf_mul_kstar_iff.1 hs
  obtain ⟨rfl, -⟩ := List.cons_prefix_cons.1 h
  exact hc hd

/-- What is taken from the head of a text, if it is not blank, is taken in front of a line feed
too. -/
theorem Munches.append_newline (h : Munches r chunk) (hkind : chunk.kind ≠ .blank)
    (t : List Char) : Munches (r ++ '\n' :: t) chunk := by
  have hline {c : Char} {rest : List Char} (h : Munches (c :: rest) chunk) :
      ∀ u ∈ lexemes, u <+: c :: rest ++ '\n' :: t → '\n' ∉ u := fun u hu hprefix =>
    newline_notMem_of_prefix (h.not_isBlank hkind) hu hprefix
  -- a lexeme that was not there before would reach beyond the line feed
  have hnone {c : Char} {rest : List Char} (h : Munches (c :: rest) chunk)
      (hnone : ∀ u ∈ lexemes, ¬u <+: c :: rest) : ∀ u ∈ lexemes, ¬u <+: c :: rest ++ '\n' :: t :=
    fun u hu hprefix => hnone u hu (isPrefix_of_append_newline (hline h u hu hprefix) hprefix)
  cases h with
  | lexeme hmem hlongest =>
    obtain ⟨c, s, rfl⟩ := List.exists_cons_of_ne_nil (ne_nil_of_mem_lexemes hmem)
    obtain ⟨rest, rfl⟩ := hlongest.isPrefix
    exact .lexeme hmem (hlongest.append_newline (hline (.lexeme hmem hlongest)))
  | openString hlexemes hlongest =>
    refine .openString (hnone (.openString hlexemes hlongest) hlexemes) ?_
    exact hlongest.append_newline fun u hu _ => newline_notMem_of_mem_stringItems hu
  | character hlexemes hquote =>
    exact .character (hnone (.character hlexemes hquote) hlexemes) hquote

/-- A chunk that is not blank is cut off in front of a line feed as it is at the end. -/
theorem cut_append_newline (hkind : (cut c rest).1.kind ≠ .blank) (t : List Char) :
    cut c (rest ++ '\n' :: t) = ((cut c rest).1, (cut c rest).2 ++ '\n' :: t) := by
  have hmunch := (munches_cut c rest).append_newline hkind t
  have hfirst : (cut c (rest ++ '\n' :: t)).1 = (cut c rest).1 :=
    (munches_cut c (rest ++ '\n' :: t)).unique hmunch
  refine Prod.ext hfirst ?_
  have hsame : (cut c rest).1.text ++ (cut c (rest ++ '\n' :: t)).2 =
      (cut c rest).1.text ++ ((cut c rest).2 ++ '\n' :: t) := by
    rw [← List.append_assoc, cut_append, ← hfirst, cut_append, List.cons_append]
  exact List.append_cancel_left hsame

end Chunk

namespace Lexing

section Append

variable {lines : LineIndex} {offset : Nat}

@[simp] theorem nil_append (lexing : Lexing) : append ⟨[], []⟩ lexing = lexing := rfl

theorem append_assoc (first second third : Lexing) :
    (first.append second).append third = first.append (second.append third) := by
  simp [append]

/-- What a chunk leaves behind, in front of what the text behind it leaves behind. -/
theorem ofCharsFrom_cons_eq_append (c : Char) (rest : List Char) :
    ofCharsFrom lines offset (c :: rest) =
      let placed : PlacedChunk :=
        ⟨(Chunk.cut c rest).1, offset, offset + utf8Length (Chunk.cut c rest).1.text⟩
      append ⟨(placed.token? lines).toList, (placed.diagnostic? lines).toList⟩
        (ofCharsFrom lines (offset + utf8Length (Chunk.cut c rest).1.text) (Chunk.cut c rest).2) :=
  ofCharsFrom_cons c rest

/-- Behind a line feed, lexing starts anew. -/
theorem ofCharsFrom_append_newline (s t : List Char) : ofCharsFrom lines offset (s ++ '\n' :: t) =
    append (ofCharsFrom lines offset s) (ofCharsFrom lines (offset + utf8Length s + 1) t) := by
  fun_induction chunks s generalizing offset with
  | case1 =>
    rw [ofCharsFrom_nil, nil_append, utf8Length_nil, List.nil_append]
    have hblank : ∀ d ∈ ['\n'], Chunk.isBlank d := fun d hd => List.mem_singleton.1 hd ▸ by decide
    exact ofCharsFrom_append_of_isBlank hblank t
  | case2 c rest ih =>
    have hlength : utf8Length (c :: rest) =
        utf8Length (Chunk.cut c rest).1.text + utf8Length (Chunk.cut c rest).2 := by
      rw [← utf8Length_append, Chunk.cut_append]
    by_cases hkind : (Chunk.cut c rest).1.kind = .blank
    · -- blanks in front of the line feed may be taken together with it
      have hskip (after : List Char) :
          ofCharsFrom lines offset ((Chunk.cut c rest).1.text ++ after) =
            ofCharsFrom lines (offset + utf8Length (Chunk.cut c rest).1.text) after :=
        ofCharsFrom_append_of_isBlank ((Chunk.munches_cut c rest).isBlank_of_mem hkind) after
      rw [hlength, ← Nat.add_assoc, ← Chunk.cut_append c rest, List.append_assoc, hskip, hskip, ih]
    · rw [List.cons_append, ofCharsFrom_cons_eq_append, ofCharsFrom_cons_eq_append,
        Chunk.cut_append_newline hkind]
      dsimp only
      rw [ih, append_assoc, hlength, Nat.add_assoc offset, Nat.add_assoc offset]

end Append

section Lines

variable {lines lines' : LineIndex} {distance count : Nat}

/-- Further on in a source, where lines are counted from further on, a text leaves the same behind,
further on. -/
theorem ofCharsFrom_moved {s : List Char} (offset : Nat)
    (hlines : ∀ before after, s = before ++ after →
      lines'.lineOf (offset + distance + utf8Length before) =
        lines.lineOf (offset + utf8Length before) + count) :
    ofCharsFrom lines' (offset + distance) s =
      (ofCharsFrom lines offset s).moved distance count := by
  fun_induction chunks s generalizing offset with
  | case1 => rw [ofCharsFrom_nil, ofCharsFrom_nil]; rfl
  | case2 c rest ih =>
    have hline := hlines [] (c :: rest) rfl
    rw [utf8Length_nil, Nat.add_zero, Nat.add_zero] at hline
    -- what is behind a place in the rest is behind a place in the whole text
    have hrest := ih (offset + utf8Length (Chunk.cut c rest).1.text) fun before after h => by
      have hbehind := hlines ((Chunk.cut c rest).1.text ++ before) after
        (by rw [List.append_assoc, ← h, Chunk.cut_append])
      rw [utf8Length_append] at hbehind
      rw [← Nat.add_assoc] at hbehind
      rw [Nat.add_assoc offset, Nat.add_comm _ distance, ← Nat.add_assoc offset, hbehind,
        Nat.add_assoc offset]
    rw [Nat.add_assoc offset, Nat.add_comm _ distance, ← Nat.add_assoc offset] at hrest
    rw [ofCharsFrom_cons_eq_append, ofCharsFrom_cons_eq_append, hrest]
    cases hmeaning : (Chunk.cut c rest).1.meaning <;>
      simp [append, moved, PlacedChunk.token?, PlacedChunk.diagnostic?, hmeaning, hline,
        Token.moved, Diagnostic.moved, Label.moved, LexicalError.diagnostic, Span.shift,
        Nat.add_right_comm]

/-- Lexing is line-local: of two texts with a line feed between them, each is lexed by itself. What
the second one leaves behind is moved by the bytes of the first one and the line feed, and by the
lines of the first one, and is the same otherwise. No token and no bad lexeme contains a line
feed. -/
theorem ofSource_append_newline (first second : String) :
    ofSource (first ++ "\n" ++ second) =
        (ofSource first).append ((ofSource second).moved (first.utf8ByteSize + 1)
          (LineIndex.ofSource first).lineCount) ∧
      (∀ source, ∀ token ∈ (ofSource source).tokens,
        token.span.Slices source token.lexeme ∧ '\n' ∉ token.lexeme.toList) ∧
      ∀ source, ∀ d ∈ (ofSource source).diagnostics, d.primary.span.OnOneLine source := by
  refine ⟨?_, fun source token h => ?_, fun source d h => (of_mem_diagnostics h).1⟩
  · have hfrom (s : String) : ofSource s = ofCharsFrom (.ofChars s.toList) 0 s.toList := rfl
    have htext : (first ++ "\n" ++ second).toList = first.toList ++ '\n' :: second.toList := by
      simp
    rw [hfrom, hfrom, hfrom, htext, ofCharsFrom_append_newline]
    congr 1
    · -- line feeds further on are not counted
      have h : ofCharsFrom (.ofChars (first.toList ++ '\n' :: second.toList)) (0 + 0) first.toList =
          (ofCharsFrom (.ofChars first.toList) 0 first.toList).moved 0 0 :=
        ofCharsFrom_moved 0 fun before after hsplit => by
          rw [Nat.add_zero, Nat.add_zero, Nat.zero_add, hsplit, List.append_assoc,
            LineIndex.lineOf_ofChars_append, LineIndex.lineOf_ofChars_append]
      rwa [moved_zero] at h
    · rw [LineIndex.ofSource, LineIndex.lineCount_ofChars, ← utf8Length_toList,
        Nat.add_assoc 0 (utf8Length first.toList)]
      refine ofCharsFrom_moved 0 fun before after hsplit => ?_
      have hline := LineIndex.lineOf_ofChars_append (first.toList ++ '\n' :: before) after
      rw [List.append_assoc, List.cons_append, utf8Length_append, utf8Length_cons,
        show Char.utf8Size '\n' = 1 from rfl, List.count_append, List.count_cons_self] at hline
      rw [Nat.zero_add, Nat.zero_add, hsplit, LineIndex.lineOf_ofChars_append, Nat.add_assoc, hline]
      omega
  · exact ⟨(of_mem_tokens h).1, (of_mem_tokens h).2.1⟩

end Lines

end Lexing

end CrudLang
