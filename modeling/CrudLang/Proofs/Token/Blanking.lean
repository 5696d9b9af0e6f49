import CrudLang.Proofs.Source.Lines
import CrudLang.Proofs.Token.Neighbours

/-!
# Blanking out what means nothing

`Lexing.blanked` is a source in which every byte of a comment and of a bad lexeme is replaced by a
space. Lexing it gives the same tokens at the same places and on the same lines, and no diagnostic
(`Lexing.ofSource_blanked`).

A chunk that is a token ends where it ended before, since a blank continues no lexeme
(`Chunk.cut_append_of_stops`). Around it the blanks that were put in merge with those that were
there, so other chunks arise; none of them leaves anything behind, however the blanks are divided
(`Lexing.ofCharsFrom_append_of_isBlank`).
-/

namespace CrudLang

open Computability

namespace Chunk

section Blanked

/-- The chunk is a comment or a bad lexeme. -/
def IsNoise (chunk : Chunk) : Prop :=
  chunk.kind = .comment ∨ ∃ error, chunk.meaning = .error error

instance (chunk : Chunk) : Decidable chunk.IsNoise :=
  match h : chunk.meaning with
  | .error error => .isTrue (.inr ⟨error, h⟩)
  | .skipped | .token _ => decidable_of_iff (chunk.kind = .comment) (by simp [IsNoise, h])

/-- The text of a chunk; that of a comment or a bad lexeme with a space for each byte. -/
def blanked (chunk : Chunk) : List Char :=
  if chunk.IsNoise then List.replicate (utf8Length chunk.text) ' ' else chunk.text

variable {chunk : Chunk}

theorem utf8Length_replicate_space (n : Nat) : utf8Length (List.replicate n ' ') = n := by
  induction n with
  | zero => rfl
  | succ n ih =>
    rw [List.replicate_succ, utf8Length_cons, ih, show Char.utf8Size ' ' = 1 from rfl, Nat.add_comm]

/-- Blanking out keeps the number of bytes. -/
@[simp] theorem utf8Length_blanked (chunk : Chunk) :
    utf8Length chunk.blanked = utf8Length chunk.text := by
  unfold blanked
  split
  · exact utf8Length_replicate_space _
  · rfl

/-- A chunk that is no token is blank, or it is blanked out. -/
theorem isBlank_of_mem_blanked {r : List Char} (hmunch : Munches r chunk) (h : ¬ chunk.IsToken) :
    ∀ c ∈ chunk.blanked, isBlank c := by
  intro c hc
  unfold blanked at hc
  split at hc
  next => rw [List.eq_of_mem_replicate hc]; decide
  next hnoise =>
    cases hmeaning : chunk.meaning with
    | token k => exact absurd ⟨k, hmeaning⟩ h
    | error error => exact absurd (.inr ⟨error, hmeaning⟩) hnoise
    | skipped =>
      rcases kind_of_meaning_eq_skipped hmeaning with hkind | hkind
      · exact hmunch.isBlank_of_mem hkind c hc
      · exact absurd (.inl hkind) hnoise

/-- A token is not blanked out. -/
theorem IsToken.blanked_eq (h : chunk.IsToken) : chunk.blanked = chunk.text := by
  obtain ⟨k, hmeaning⟩ := h
  refine if_neg ?_
  rintro (hkind | ⟨error, herror⟩)
  · rw [meaning, hkind] at hmeaning
    cases hmeaning
  · rw [hmeaning] at herror
    cases herror

end Blanked

end Chunk

/-- A text in which comments and bad lexemes are blanked out. -/
def blankedChars (s : List Char) : List Char :=
  (chunks s).flatMap Chunk.blanked

@[simp] theorem blankedChars_nil : blankedChars [] = [] := by
  rw [blankedChars, chunks, List.flatMap_nil]

theorem blankedChars_cons (c : Char) (rest : List Char) : blankedChars (c :: rest) =
    (Chunk.cut c rest).1.blanked ++ blankedChars (Chunk.cut c rest).2 := by
  rw [blankedChars, chunks, List.flatMap_cons, blankedChars]

/-- A point begins no lexeme. -/
theorem Chunk.cut_point (rest : List Char) :
    Chunk.cut '.' rest = (⟨.unrecognized, ['.']⟩, rest) := by
  have hblank : Chunk.isBlank '.' = false := by decide
  have hword : Chunk.isWordStart '.' = false := by decide
  have hlongest : Punctuator.longest? ('.' :: rest) = none := by
    cases rest with
    | nil => rfl
    | cons d u => simp [Punctuator.longest?, Punctuator.pair?, Punctuator.single?]
  simp [Chunk.cut, hblank, hword, hlongest]

/-- Behind a lexeme a text continues it no more once it is blanked out. -/
theorem Chunk.stops_blankedChars (s : List Char) : Chunk.Stops s (blankedChars s) := by
  intro d hd
  cases s with
  | nil => simp [blankedChars, chunks] at hd
  | cons c rest =>
    rw [blankedChars_cons] at hd
    unfold Chunk.blanked at hd
    split at hd
    next =>
      -- the bytes of a chunk are not none
      have hpos : 0 < utf8Length (Chunk.cut c rest).1.text := by
        cases htext : (Chunk.cut c rest).1.text with
        | nil => exact absurd htext (Chunk.cut_text_ne_nil c rest)
        | cons e t => exact Nat.add_pos_left (Char.utf8Size_pos e) _
      obtain ⟨n, hn⟩ := Nat.exists_eq_succ_of_ne_zero (Nat.ne_of_gt hpos)
      rw [hn, List.replicate_succ, List.cons_append, List.head?_cons] at hd
      rw [← Option.some.inj hd]
      exact .inl (by decide)
    next hnoise =>
      have happend := congrArg List.head? (Chunk.cut_append c rest)
      rw [List.head?_append_of_ne_nil _ (Chunk.cut_text_ne_nil c rest)] at hd happend
      obtain rfl : c = d := Option.some.inj (happend.symm.trans hd)
      refine .inr ⟨rfl, ?_⟩
      -- a point would have been blanked out
      rintro rfl
      exact hnoise (.inr ⟨.unrecognized, by rw [Chunk.cut_point]; rfl⟩)

section Lines

/-- Lines start where they did. -/
theorem lineStartsFrom_blankedChars (offset : Nat) (s : List Char) :
    lineStartsFrom offset (blankedChars s) = lineStartsFrom offset s := by
  fun_induction chunks s generalizing offset with
  | case1 => rw [blankedChars_nil]
  | case2 c rest ih =>
    have hmunch := Chunk.munches_cut c rest
    rw [blankedChars_cons, lineStartsFrom_append, ih, Chunk.utf8Length_blanked]
    -- what is blanked out has no line feeds, before and after
    have hchunk : lineStartsFrom offset (Chunk.cut c rest).1.blanked =
        lineStartsFrom offset (Chunk.cut c rest).1.text := by
      unfold Chunk.blanked
      split
      next hnoise =>
        have hkind : (Chunk.cut c rest).1.kind ≠ .blank := by
          rintro hblank
          rcases hnoise with hcomment | ⟨error, herror⟩
          · cases hblank.symm.trans hcomment
          · rw [Chunk.meaning, hblank] at herror
            cases herror
        rw [lineStartsFrom_of_notMem offset (hmunch.newline_notMem hkind),
          lineStartsFrom_of_notMem offset (by simp [List.mem_replicate])]
      · rfl
    rw [hchunk, ← lineStartsFrom_append, Chunk.cut_append]

end Lines

namespace Lexing

/-- The outcome of lexing a text that begins at an offset. -/
def ofCharsFrom (lines : LineIndex) (offset : Nat) (s : List Char) : Lexing :=
  let placed := PlacedChunk.place offset (chunks s)
  ⟨placed.filterMap (·.token? lines), placed.filterMap (·.diagnostic? lines)⟩

variable {lines : LineIndex} {offset : Nat}

theorem ofCharsFrom_nil : ofCharsFrom lines offset [] = ⟨[], []⟩ := by
  simp [ofCharsFrom, chunks, PlacedChunk.place]

/-- A chunk leaves what it means behind, and lexing goes on behind it. -/
theorem ofCharsFrom_cons (c : Char) (rest : List Char) :
    let placed : PlacedChunk :=
      ⟨(Chunk.cut c rest).1, offset, offset + utf8Length (Chunk.cut c rest).1.text⟩
    let next := ofCharsFrom lines placed.span.stop (Chunk.cut c rest).2
    ofCharsFrom lines offset (c :: rest) =
      ⟨(placed.token? lines).toList ++ next.tokens,
        (placed.diagnostic? lines).toList ++ next.diagnostics⟩ := by
  simp only [ofCharsFrom, chunks, PlacedChunk.place, List.filterMap_cons]
  congr 1
  · split <;> simp [*]
  · split <;> simp [*]

/-- Blanks at the head of a text leave nothing behind. -/
theorem ofCharsFrom_takeWhile (s : List Char) : ofCharsFrom lines offset s =
    ofCharsFrom lines (offset + utf8Length (s.takeWhile Chunk.isBlank))
      (s.dropWhile Chunk.isBlank) := by
  cases s with
  | nil => rfl
  | cons c rest =>
    by_cases hblank : Chunk.isBlank c
    · rw [ofCharsFrom_cons, Chunk.cut_of_isBlank hblank, List.takeWhile_cons_of_pos hblank,
        List.dropWhile_cons_of_pos hblank]
      rfl
    · rw [List.takeWhile_cons_of_neg hblank, List.dropWhile_cons_of_neg hblank]
      rfl

/-- Blanks in front of a text leave nothing behind, whatever follows them. -/
theorem ofCharsFrom_append_of_isBlank {blanks : List Char} (h : ∀ c ∈ blanks, Chunk.isBlank c)
    (s : List Char) : ofCharsFrom lines offset (blanks ++ s) =
      ofCharsFrom lines (offset + utf8Length blanks) s := by
  rw [ofCharsFrom_takeWhile, ofCharsFrom_takeWhile s, List.takeWhile_append_of_pos h,
    List.dropWhile_append_of_pos h, utf8Length_append, Nat.add_assoc]

/-- Where comments and bad lexemes are blanked out, the same tokens are left, and no diagnostic. -/
theorem ofCharsFrom_blankedChars (s : List Char) : ofCharsFrom lines offset (blankedChars s) =
    ⟨(ofCharsFrom lines offset s).tokens, []⟩ := by
  fun_induction chunks s generalizing offset with
  | case1 => rw [blankedChars_nil, ofCharsFrom_nil]
  | case2 c rest ih =>
    have hmunch := Chunk.munches_cut c rest
    rw [blankedChars_cons, ofCharsFrom_cons c rest]
    by_cases htoken : (Chunk.cut c rest).1.IsToken
    · -- the token is cut off where it was
      have happend := Chunk.cut_append c rest
      have hstops := Chunk.stops_blankedChars (Chunk.cut c rest).2
      rw [htoken.blanked_eq]
      generalize hcut : Chunk.cut c rest = cut at *
      obtain ⟨⟨kind, text⟩, after⟩ := cut
      obtain ⟨d, s, rfl⟩ := List.exists_cons_of_ne_nil hmunch.text_ne_nil
      obtain ⟨rfl, rfl⟩ := List.cons.inj happend
      have hcut' := Chunk.cut_append_of_stops hcut htoken hstops
      obtain ⟨k, hmeaning⟩ := htoken
      dsimp only [List.append_eq] at hcut' ⊢
      rw [List.cons_append, ofCharsFrom_cons, hcut']
      simp only [PlacedChunk.diagnostic?, hmeaning, ih]
      rfl
    · rw [ofCharsFrom_append_of_isBlank (Chunk.isBlank_of_mem_blanked hmunch htoken),
        Chunk.utf8Length_blanked, ih]
      have hnone : PlacedChunk.token? lines
          ⟨(Chunk.cut c rest).1, offset, offset + utf8Length (Chunk.cut c rest).1.text⟩ = none := by
        unfold PlacedChunk.token?
        split
        next k hmeaning => exact absurd ⟨k, hmeaning⟩ htoken
        next => rfl
      rw [hnone]
      rfl

/-- A source in which every byte of a comment and of a bad lexeme is replaced by a space. -/
def blanked (source : String) : String :=
  .ofList (blankedChars source.toList)

/-- Lines start where they did. -/
@[simp] theorem lineIndex_blanked (source : String) :
    LineIndex.ofSource (blanked source) = LineIndex.ofSource source := by
  rw [blanked, LineIndex.ofSource, LineIndex.ofSource, String.toList_ofList, LineIndex.ofChars,
    LineIndex.ofChars, lineStartsFrom_blankedChars]

/-- Where comments and bad lexemes are blanked out, the tokens are the same, with their places and
lines, and nothing is reported. -/
theorem ofSource_blanked (source : String) :
    ofSource (blanked source) = ⟨(ofSource source).tokens, []⟩ := by
  have hfrom (s : String) : ofSource s = ofCharsFrom (.ofSource s) 0 s.toList := rfl
  rw [hfrom, hfrom, lineIndex_blanked, blanked, String.toList_ofList, ofCharsFrom_blankedChars]

end Lexing

end CrudLang
