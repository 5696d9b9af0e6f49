import CrudLang.Proofs.Token.Lexemes
import CrudLang.Token.Lexer

/-!
# Maximal munch

`Lexed` describes lexing by what is left of the source: the chunk at its head is the longest match,
`Chunk.Leaves` says which token or diagnostic that chunk leaves behind, and lexing goes on behind
it. The description determines the outcome, and `Lexing.ofSource` is that outcome. That tokens and
diagnostics are slices of the source, in source order, follows from the description alone.
-/

namespace CrudLang

open Computability

/-- What a chunk leaves behind at its place: no token or one, no diagnostic or one. -/
inductive Chunk.Leaves (lines : LineIndex) (span : Span) :
    Chunk → List Token → List Diagnostic → Prop
  | blank {text} : Chunk.Leaves lines span ⟨.blank, text⟩ [] []
  | comment {text} : Chunk.Leaves lines span ⟨.comment, text⟩ [] []
  | keyword {text row} : row ∈ reservedWords → row.text = String.ofList text →
      Chunk.Leaves lines span ⟨.word, text⟩
        [⟨.keyword row.keyword, .ofList text, lines.lineOf span.start, span⟩] []
  | identifier {text} : (∀ row ∈ reservedWords, row.text ≠ String.ofList text) →
      Chunk.Leaves lines span ⟨.word, text⟩
        [⟨.identifier (.ofList text), .ofList text, lines.lineOf span.start, span⟩] []
  | number {text} : Chunk.Leaves lines span ⟨.number, text⟩
      [⟨.number (.ofList text), .ofList text, lines.lineOf span.start, span⟩] []
  | string {body value text} : Chunk.unescape? body = some value →
      Chunk.Leaves lines span ⟨.string body, text⟩
        [⟨.string (.ofList value), .ofList text, lines.lineOf span.start, span⟩] []
  | punctuator {p text} : Chunk.Leaves lines span ⟨.punctuator p, text⟩
      [⟨.punctuator p, .ofList text, lines.lineOf span.start, span⟩] []
  | malformedNumber {text} : Chunk.Leaves lines span ⟨.malformedNumber, text⟩ []
      [LexicalError.malformedNumber.diagnostic (.ofList text) (lines.lineOf span.start) span]
  | unrecognized {text} : Chunk.Leaves lines span ⟨.unrecognized, text⟩ []
      [LexicalError.unrecognized.diagnostic (.ofList text) (lines.lineOf span.start) span]

/-- The outcome of lexing the text `r`, which begins at an offset: the longest match is taken from
its head, then lexing goes on with the text behind. -/
inductive Lexed (lines : LineIndex) : Nat → List Char → Lexing → Prop
  | nil {offset} : Lexed lines offset [] ⟨[], []⟩
  | cons {offset chunk after r ts ds tokens diagnostics} : Chunk.Munches r chunk →
      chunk.text ++ after = r →
      Chunk.Leaves lines ⟨offset, offset + utf8Length chunk.text⟩ chunk ts ds →
      Lexed lines (offset + utf8Length chunk.text) after ⟨tokens, diagnostics⟩ →
      Lexed lines offset r ⟨ts ++ tokens, ds ++ diagnostics⟩

/-- The bytes of the source in a span are the given text, and the span begins and ends between
characters. -/
def Span.Slices (span : Span) (source text : String) : Prop :=
  ∃ before after, source = before ++ text ++ after ∧
    span = ⟨before.utf8ByteSize, (before ++ text).utf8ByteSize⟩

namespace Chunk

variable {lines : LineIndex} {span : Span} {chunk : Chunk} {ts ts' : List Token}
  {ds ds' : List Diagnostic}

/-- An escape has a value, whatever character is behind its backslash. -/
theorem exists_unescape?_backslash (d : Char) {s value : List Char} (h : unescape? s = some value) :
    ∃ value', unescape? ('\\' :: d :: s) = some value' := by
  rw [unescape?.eq_def]
  simp only [if_true]
  split
  next heq => cases heq
  iterate 3
    next heq =>
      cases heq
      rw [h, Option.map_some]
      exact ⟨_, rfl⟩
  next heq =>
    cases heq
    by_cases hd : d = '\\' ∨ d = '"'
    · rw [if_pos hd, h, Option.map_some]
      exact ⟨_, rfl⟩
    · rw [if_neg hd, h, Option.map_some]
      exact ⟨_, rfl⟩

/-- The body of a complete string has a value: none of its items is a backslash alone. -/
theorem exists_unescape?_eq_some {body : List Char} (h : body ∈ stringItem∗) :
    ∃ value, unescape? body = some value := by
  refine kstar_induction (motive := fun s => ∃ value, unescape? s = some value) ⟨[], rfl⟩ ?_ h
  rintro item hitem s ⟨value, hvalue⟩
  rcases hitem with ⟨c, hc, rfl⟩ | ⟨_, rfl, _, ⟨d, -, rfl⟩, rfl⟩
  · have hbackslash : c ≠ '\\' := (of_decide_eq_true hc).2.1
    rw [List.singleton_append, unescape?.eq_def]
    exact ⟨c :: value, by simp [hbackslash, hvalue]⟩
  · exact exists_unescape?_backslash d hvalue

/-- The table of reserved words has no word twice. -/
theorem keyword_eq_of_text_eq : ∀ row ∈ reservedWords, ∀ row' ∈ reservedWords,
    row.text = row'.text → row.keyword = row'.keyword := by
  decide +kernel

/-- A word leaves the keyword behind that the table has for it, or else an identifier. -/
theorem leaves_word (lines : LineIndex) (span : Span) (text : List Char) :
    Leaves lines span ⟨.word, text⟩
      (((PlacedChunk.mk ⟨.word, text⟩ span).token? lines).toList) [] := by
  show Leaves lines span ⟨.word, text⟩
    [⟨((Keyword.ofString? (.ofList text)).map TokenKind.keyword).getD (.identifier (.ofList text)),
      .ofList text, lines.lineOf span.start, span⟩] []
  unfold Keyword.ofString?
  cases hrow : reservedWords.find? fun row => row.text == String.ofList text with
  | some row =>
    have htext : row.text = String.ofList text := by simpa using List.find?_some hrow
    exact .keyword (List.mem_of_find?_eq_some hrow) htext
  | none =>
    refine .identifier fun row hmem htext => ?_
    simpa [htext] using List.find?_eq_none.1 hrow row hmem

/-- A chunk that was taken leaves its token or its diagnostic behind. -/
theorem Munches.leaves {r : List Char} {chunk : Chunk} (h : Munches r chunk) (lines : LineIndex)
    (span : Span) : Leaves lines span chunk ((PlacedChunk.mk chunk span).token? lines).toList
      ((PlacedChunk.mk chunk span).diagnostic? lines).toList := by
  cases h with
  | @lexeme kind text r hmem _ =>
    match kind, hmem with
    | .blank, _ => exact .blank
    | .comment, _ => exact .comment
    | .word, _ => exact leaves_word lines span text
    | .number, _ => exact .number
    | .malformedNumber, _ => exact .malformedNumber
    | .string body, ⟨hbody, _⟩ =>
      obtain ⟨value, hvalue⟩ := exists_unescape?_eq_some hbody
      simp only [PlacedChunk.token?, PlacedChunk.diagnostic?, meaning, hvalue]
      exact .string hvalue
    | .punctuator _, _ => exact .punctuator
    | .unrecognized, hmem => exact absurd hmem (Language.notMem_zero _)
  | openString _ _ => exact .unrecognized
  | character _ _ => exact .unrecognized

/-- The chunk determines what it leaves behind. -/
theorem Leaves.unique (h : Leaves lines span chunk ts ds) (h' : Leaves lines span chunk ts' ds') :
    ts = ts' ∧ ds = ds' := by
  cases h with
  -- a word is in the table, at one place, or it is not
  | keyword hrow htext =>
    cases h' with
    | keyword hrow' htext' =>
      rw [keyword_eq_of_text_eq _ hrow _ hrow' (htext.trans htext'.symm)]
      exact ⟨rfl, rfl⟩
    | identifier hnone => exact absurd htext (hnone _ hrow)
  | identifier hnone =>
    cases h' with
    | keyword hrow htext => exact absurd htext (hnone _ hrow)
    | identifier => exact ⟨rfl, rfl⟩
  | string hvalue =>
    cases h' with
    | string hvalue' =>
      obtain rfl := Option.some.inj (hvalue.symm.trans hvalue')
      exact ⟨rfl, rfl⟩
  | _ =>
    cases h'
    exact ⟨rfl, rfl⟩

/-- A token that a chunk leaves behind is the chunk. -/
theorem Leaves.token (h : Leaves lines span chunk ts ds) :
    ∀ token ∈ ts, token.span = span ∧ token.lexeme = String.ofList chunk.text := by
  cases h <;> simp

/-- A diagnostic that a chunk leaves behind is about the chunk. -/
theorem Leaves.diagnostic (h : Leaves lines span chunk ts ds) :
    ∀ d ∈ ds, d.primary.span = span := by
  cases h <;> simp [LexicalError.diagnostic]

/-- A chunk leaves at most one token and one diagnostic behind. -/
theorem Leaves.length_le (h : Leaves lines span chunk ts ds) : ts.length ≤ 1 ∧ ds.length ≤ 1 := by
  cases h <;> simp

/-- What is taken has at least one character. -/
theorem Munches.text_ne_nil {r : List Char} (h : Munches r chunk) : chunk.text ≠ [] := by
  cases h with
  | lexeme hmem _ => exact ne_nil_of_mem_lexemes hmem
  | openString _ _ => exact List.cons_ne_nil _ _
  | character _ _ => exact List.cons_ne_nil _ _

end Chunk

namespace Lexed

variable {lines : LineIndex} {offset : Nat} {r : List Char} {lexing lexing' : Lexing}

/-- The text determines the outcome. -/
theorem unique (h : Lexed lines offset r lexing) (h' : Lexed lines offset r lexing') :
    lexing = lexing' := by
  induction h generalizing lexing' with
  | nil =>
    cases h' with
    | nil => rfl
    | cons hmunch heq _ _ =>
      exact absurd (List.append_eq_nil_iff.1 heq).1 hmunch.text_ne_nil
  | cons hmunch heq hleaves _ ih =>
    cases h' with
    | nil => exact absurd (List.append_eq_nil_iff.1 heq).1 hmunch.text_ne_nil
    | cons hmunch' heq' hleaves' hrest' =>
      obtain rfl := hmunch.unique hmunch'
      obtain rfl := List.append_cancel_left (heq.trans heq'.symm)
      obtain ⟨rfl, rfl⟩ := hleaves.unique hleaves'
      cases ih hrest'
      rfl

/-- The chunks of a text, placed one behind the other, give its outcome. -/
theorem chunks (lines : LineIndex) (offset : Nat) (r : List Char) :
    Lexed lines offset r
      ⟨(PlacedChunk.place offset (chunks r)).filterMap (·.token? lines),
        (PlacedChunk.place offset (chunks r)).filterMap (·.diagnostic? lines)⟩ := by
  fun_induction CrudLang.chunks r generalizing offset with
  | case1 => exact .nil
  | case2 c rest ih =>
    have hmunch := Chunk.munches_cut c rest
    have hcons := Lexed.cons hmunch (Chunk.cut_append c rest)
      (hmunch.leaves lines ⟨offset, offset + utf8Length (Chunk.cut c rest).1.text⟩) (ih _)
    -- a chunk leaves a token or a diagnostic or neither in front of the rest
    simp only [PlacedChunk.place, List.filterMap_cons]
    cases htoken : PlacedChunk.token? lines ⟨(Chunk.cut c rest).1, _⟩ <;>
      cases hdiagnostic : PlacedChunk.diagnostic? lines ⟨(Chunk.cut c rest).1, _⟩ <;>
      rwa [htoken, hdiagnostic] at hcons

/-- Tokens are slices of the source, and diagnostics are about slices that are not empty. The text
`r` stands behind the text `before`. -/
theorem slices (before : List Char) (h : Lexed lines offset r lexing)
    (hoffset : offset = utf8Length before) :
    (∀ token ∈ lexing.tokens, token.span.Slices (.ofList (before ++ r)) token.lexeme) ∧
      ∀ d ∈ lexing.diagnostics, ∃ text ≠ "",
        d.primary.span.Slices (.ofList (before ++ r)) text := by
  induction h generalizing before with
  | nil => simp
  | @cons _ chunk after _ _ _ _ _ hmunch heq hleaves _ ih =>
    subst heq hoffset
    obtain ⟨htokens, hdiagnostics⟩ := ih (before ++ chunk.text) (by simp)
    have hbytes (text : List Char) : (String.ofList text).utf8ByteSize = utf8Length text := by
      rw [← utf8Length_toList, String.toList_ofList]
    -- the chunk stands between what is before it and what is behind it
    have hslice : Span.Slices ⟨utf8Length before, utf8Length before + utf8Length chunk.text⟩
        (.ofList (before ++ (chunk.text ++ after))) (.ofList chunk.text) := by
      refine ⟨.ofList before, .ofList after, ?_, ?_⟩
      · rw [← String.ofList_append, ← String.ofList_append, List.append_assoc]
      · rw [← String.ofList_append, hbytes, hbytes, utf8Length_append]
    have hne : String.ofList chunk.text ≠ "" := fun hempty =>
      hmunch.text_ne_nil (by rw [← String.toList_ofList (l := chunk.text), hempty]; rfl)
    rw [← List.append_assoc]
    constructor
    · intro token htoken
      rcases List.mem_append.1 htoken with htoken | htoken
      · obtain ⟨hspan, hlexeme⟩ := hleaves.token token htoken
        rwa [hspan, hlexeme, List.append_assoc]
      · exact htokens token htoken
    · intro d hd
      rcases List.mem_append.1 hd with hd | hd
      · refine ⟨.ofList chunk.text, hne, ?_⟩
        rwa [hleaves.diagnostic d hd, List.append_assoc]
      · exact hdiagnostics d hd

end Lexed

/-- The spans stand one behind the other from an offset on. -/
def Span.Ascend (offset : Nat) (spans : List Span) : Prop :=
  (∀ span ∈ spans, offset ≤ span.start) ∧ spans.Pairwise fun a b => a.stop ≤ b.start

/-- At most one span may be put in front of spans that begin where it ends. -/
theorem Span.Ascend.append {offset length : Nat} {spans rest : List Span}
    (hspans : ∀ span ∈ spans, span = ⟨offset, offset + length⟩) (hlength : spans.length ≤ 1)
    (hrest : Ascend (offset + length) rest) : Ascend offset (spans ++ rest) := by
  refine ⟨fun span hspan => ?_, List.pairwise_append.2 ⟨?_, hrest.2, fun a ha b hb => ?_⟩⟩
  · rcases List.mem_append.1 hspan with hspan | hspan
    · rw [hspans span hspan]
    · exact Nat.le_trans (Nat.le_add_right _ _) (hrest.1 span hspan)
  · match spans, hlength with
    | [], _ => exact .nil
    | [span], _ => exact List.pairwise_singleton _ span
  · rw [hspans a ha]
    exact hrest.1 b hb

namespace Lexed

variable {lines : LineIndex} {offset : Nat} {r : List Char} {lexing : Lexing}

/-- Tokens come in source order, and so do diagnostics. -/
theorem ascend (h : Lexed lines offset r lexing) :
    Span.Ascend offset (lexing.tokens.map Token.span) ∧
      Span.Ascend offset (lexing.diagnostics.map fun d => d.primary.span) := by
  induction h with
  | nil => simp [Span.Ascend]
  | cons _ _ hleaves _ ih =>
    obtain ⟨htokens, hdiagnostics⟩ := hleaves.length_le
    rw [List.map_append, List.map_append]
    refine ⟨.append ?_ (by simpa using htokens) ih.1, .append ?_ (by simpa using hdiagnostics) ih.2⟩
    · intro span hspan
      obtain ⟨token, htoken, rfl⟩ := List.mem_map.1 hspan
      exact (hleaves.token token htoken).1
    · intro span hspan
      obtain ⟨d, hd, rfl⟩ := List.mem_map.1 hspan
      exact hleaves.diagnostic d hd

end Lexed

/-- Lexing is maximal munch: the outcome is the only one that takes the longest match from the head
of what is left, again and again. Every token's lexeme is the source text in its span, every span
begins and ends between characters, and tokens and diagnostics come in source order. -/
theorem Lexing.ofSource_maximalMunch (source : String) :
    (∀ lexing, Lexed (.ofSource source) 0 source.toList lexing ↔ lexing = ofSource source) ∧
      (∀ token ∈ (ofSource source).tokens, token.span.Slices source token.lexeme) ∧
      (∀ d ∈ (ofSource source).diagnostics, ∃ text ≠ "", d.primary.span.Slices source text) ∧
      ((ofSource source).tokens.map Token.span).Pairwise (fun a b => a.stop ≤ b.start) ∧
      ((ofSource source).diagnostics.map fun d => d.primary.span).Pairwise
        fun a b => a.stop ≤ b.start := by
  have hlexed : Lexed (.ofSource source) 0 source.toList (ofSource source) := .chunks _ _ _
  obtain ⟨htokens, hdiagnostics⟩ := hlexed.slices [] rfl
  rw [List.nil_append, String.ofList_toList] at htokens hdiagnostics
  refine ⟨fun lexing => ⟨fun h => h.unique hlexed, ?_⟩, htokens, hdiagnostics,
    hlexed.ascend.1.2, hlexed.ascend.2.2⟩
  rintro rfl
  exact hlexed

end CrudLang
