import CrudLang.Proofs.Token.Locality

/-!
# Lexemes stand alone

Whether a text is a lexeme, and of which class, depends on nothing but the text. So a lexeme that
means a token means the same token wherever a blank or nothing is behind it, whatever constrained
the match in the text in which it was found (`Chunk.cut_append_blank`). `TokenKind.WrittenAs` says
that a text is such a lexeme for a kind. It holds of every token of a source and its lexeme
(`Lexing.writtenAs_of_mem_tokens`), and a text of which it holds is lexed as one token
(`TokenKind.WrittenAs.ofSource_eq`).

`Lexing.lexemes_roundTrip` follows: the lexemes of a source, written one behind the other with
blanks between them, are the lexemes of what was written.
-/

namespace CrudLang

/-- The text is a lexeme that means a token of the kind. -/
def TokenKind.WrittenAs (kind : TokenKind) (text : List Char) : Prop :=
  ∃ rule : ChunkKind, text ∈ rule.lexemes ∧ (Chunk.mk rule text).meaning = .token kind

namespace Chunk

variable {c : Char} {s after : List Char} {kind : ChunkKind} {chunk : Chunk}

/-- All of a lexeme is taken, for what it is. -/
theorem cut_of_mem_lexemes (h : c :: s ∈ kind.lexemes) : cut c s = (⟨kind, c :: s⟩, []) := by
  obtain ⟨kind', more, hcut, -, hkind⟩ := exists_cut_append h []
  obtain rfl := hkind rfl
  rw [List.append_nil] at hcut
  -- what is taken and what is left make up the lexeme, so nothing more is taken and nothing left
  have htext := cut_append c s
  rw [hcut, List.append_assoc, List.append_right_eq_self, List.append_eq_nil_iff] at htext
  obtain ⟨rfl, hrest⟩ := htext
  rw [List.append_nil] at hcut
  exact Prod.ext hcut hrest

/-- All of a lexeme that is a token is taken in front of a blank, too. -/
theorem cut_append_blank (h : c :: s ∈ kind.lexemes) (htoken : IsToken ⟨kind, c :: s⟩)
    (hafter : ∀ d, after.head? = some d → isBlank d) :
    cut c (s ++ after) = (⟨kind, c :: s⟩, after) := by
  have halone : cut c (s ++ []) = (⟨kind, c :: s⟩, []) := by
    rw [List.append_nil, cut_of_mem_lexemes h]
  exact cut_append_of_stops halone htoken fun d hd => .inl (hafter d hd)

/-- A chunk of a text is a lexeme of its class, unless it is text that no rule accepts. -/
theorem mem_lexemes_of_mem_chunks (h : chunk ∈ chunks s) :
    chunk.text ∈ chunk.kind.lexemes ∨ chunk.kind = .unrecognized := by
  fun_induction chunks s with
  | case1 => cases h
  | case2 c rest ih =>
    rcases List.mem_cons.1 h with rfl | h
    · exact (cut_cases c rest).imp_right fun hbad =>
        hbad.elim (fun hquote => by rw [hquote.2]) fun hother => by rw [hother.2]
    · exact ih h

end Chunk

theorem PlacedChunk.map_chunk_place (offset : Nat) (cs : List Chunk) :
    (place offset cs).map PlacedChunk.chunk = cs := by
  induction cs generalizing offset with
  | nil => rfl
  | cons c cs ih => rw [place, List.map_cons, ih]

namespace Lexing

variable {source : String} {token : Token}

/-- A token comes from a chunk of the source, which is its lexeme and means its kind. -/
theorem exists_chunk_of_mem_tokens (h : token ∈ (ofSource source).tokens) :
    ∃ chunk ∈ chunks source.toList, chunk.meaning = .token token.kind ∧
      token.lexeme = .ofList chunk.text := by
  obtain ⟨placed, hplaced, htoken⟩ := List.mem_filterMap.1 h
  have hchunk : placed.chunk ∈ (PlacedChunk.place 0 (chunks source.toList)).map PlacedChunk.chunk :=
    List.mem_map_of_mem hplaced
  rw [PlacedChunk.map_chunk_place] at hchunk
  refine ⟨placed.chunk, hchunk, ?_⟩
  unfold PlacedChunk.token? at htoken
  split at htoken
  next kind hmeaning =>
    obtain rfl := Option.some.inj htoken
    exact ⟨hmeaning, rfl⟩
  next => cases htoken

/-- The lexeme of a token is a way of writing its kind. -/
theorem writtenAs_of_mem_tokens (h : token ∈ (ofSource source).tokens) :
    token.kind.WrittenAs token.lexeme.toList := by
  obtain ⟨chunk, hchunk, hmeaning, hlexeme⟩ := exists_chunk_of_mem_tokens h
  rw [hlexeme, String.toList_ofList]
  rcases Chunk.mem_lexemes_of_mem_chunks hchunk with hmem | hkind
  · exact ⟨chunk.kind, hmem, hmeaning⟩
  · -- text that no rule accepts means no token
    rw [Chunk.meaning, hkind] at hmeaning
    cases hmeaning

end Lexing

namespace TokenKind.WrittenAs

variable {kind : TokenKind} {text : List Char} {lines : LineIndex} {offset : Nat}

/-- A way of writing a kind is lexed as one token of it, and lexing goes on behind it. -/
theorem ofCharsFrom_append (h : kind.WrittenAs text) {after : List Char}
    (hafter : ∀ d, after.head? = some d → Chunk.isBlank d) :
    Lexing.ofCharsFrom lines offset (text ++ after) =
      .append ⟨[⟨kind, .ofList text, lines.lineOf offset, ⟨offset, offset + utf8Length text⟩⟩], []⟩
        (Lexing.ofCharsFrom lines (offset + utf8Length text) after) := by
  obtain ⟨rule, hmem, hmeaning⟩ := h
  obtain ⟨c, s, rfl⟩ := List.exists_cons_of_ne_nil (Chunk.ne_nil_of_mem_lexemes hmem)
  rw [List.cons_append, Lexing.ofCharsFrom_cons_eq_append,
    Chunk.cut_append_blank hmem ⟨kind, hmeaning⟩ hafter]
  simp [PlacedChunk.token?, PlacedChunk.diagnostic?, hmeaning]

/-- A way of writing a kind, at the end of a source, is lexed as one token of it. -/
theorem ofCharsFrom_eq (h : kind.WrittenAs text) : Lexing.ofCharsFrom lines offset text =
    ⟨[⟨kind, .ofList text, lines.lineOf offset, ⟨offset, offset + utf8Length text⟩⟩], []⟩ := by
  have halone : Lexing.ofCharsFrom lines offset (text ++ []) = _ := h.ofCharsFrom_append nofun
  rwa [List.append_nil, Lexing.ofCharsFrom_nil] at halone

/-- A way of writing a kind, as a source of its own, is one token of this kind. -/
theorem ofSource_eq {text : String} (h : kind.WrittenAs text.toList) :
    Lexing.ofSource text = ⟨[⟨kind, text, 1, ⟨0, text.utf8ByteSize⟩⟩], []⟩ := by
  have hfrom : Lexing.ofSource text = Lexing.ofCharsFrom (.ofChars text.toList) 0 text.toList := rfl
  have hline := LineIndex.lineOf_ofChars_append [] text.toList
  rw [List.nil_append, utf8Length_nil, List.count_nil, Nat.add_zero] at hline
  rw [hfrom, h.ofCharsFrom_eq, hline, String.ofList_toList, utf8Length_toList, Nat.zero_add]

end TokenKind.WrittenAs

namespace Lexing

/-- The lexemes of tokens one behind the other, with one blank between neighbours: a line feed
behind lexeme number `i` if `breaks i`, else a space. -/
def spacedOut (breaks : Nat → Bool) : List Token → String
  | [] => ""
  | [token] => token.lexeme
  | token :: next :: rest =>
    token.lexeme ++ (if breaks 0 then "\n" else " ") ++
      spacedOut (fun i => breaks (i + 1)) (next :: rest)

/-- A token without its place: its kind, its lexeme and its category. -/
def unplaced (token : Token) : TokenKind × String × Category :=
  (token.kind, token.lexeme, token.category)

/-- Between the lexeme of a token and those behind it stands one blank. -/
theorem exists_toList_spacedOut (breaks : Nat → Bool) (token next : Token) (rest : List Token) :
    ∃ blank, Chunk.isBlank blank ∧ (spacedOut breaks (token :: next :: rest)).toList =
      token.lexeme.toList ++
        ([blank] ++ (spacedOut (fun i => breaks (i + 1)) (next :: rest)).toList) := by
  rw [spacedOut]
  cases breaks 0 with
  | false => exact ⟨' ', by decide, by simp⟩
  | true => exact ⟨'\n', by decide, by simp⟩

/-- Lexemes with blanks between them are lexed one by one. -/
theorem ofCharsFrom_spacedOut {tokens : List Token}
    (h : ∀ token ∈ tokens, token.kind.WrittenAs token.lexeme.toList) (breaks : Nat → Bool)
    (lines : LineIndex) (offset : Nat) :
    (ofCharsFrom lines offset (spacedOut breaks tokens).toList).diagnostics = [] ∧
      (ofCharsFrom lines offset (spacedOut breaks tokens).toList).tokens.map unplaced =
        tokens.map unplaced := by
  -- each step takes one lexeme and the blank behind it, so the text left is spaced out again
  induction tokens generalizing breaks offset with
  | nil =>
    rw [spacedOut, String.toList_empty, ofCharsFrom_nil]
    exact ⟨rfl, rfl⟩
  | cons token rest ih =>
    obtain ⟨htoken, hrest⟩ := List.forall_mem_cons.1 h
    cases rest with
    | nil =>
      rw [spacedOut, htoken.ofCharsFrom_eq, String.ofList_toList]
      exact ⟨rfl, rfl⟩
    | cons next rest =>
      obtain ⟨blank, hblank, htext⟩ := exists_toList_spacedOut breaks token next rest
      obtain ⟨hdiagnostics, htokens⟩ := ih hrest (fun i => breaks (i + 1))
        (offset + utf8Length token.lexeme.toList + utf8Length [blank])
      rw [htext, htoken.ofCharsFrom_append (by simpa using hblank),
        ofCharsFrom_append_of_isBlank (List.forall_mem_singleton.2 hblank), String.ofList_toList]
      refine ⟨hdiagnostics, ?_⟩
      rw [append, List.map_append, htokens]
      rfl

/-- Lexemes round-trip. Whatever a source is, its lexemes with a space or a line feed between
neighbours are lexed as tokens of the same kinds, with the same lexemes and of the same categories
in the same order, and nothing is reported. Each of them alone is lexed as this one token. -/
theorem lexemes_roundTrip (source : String) (breaks : Nat → Bool) :
    let tokens := (ofSource source).tokens
    let again := ofSource (spacedOut breaks tokens)
    again.diagnostics = [] ∧ again.tokens.map unplaced = tokens.map unplaced ∧
      ∀ token ∈ tokens, ofSource token.lexeme =
        ⟨[{ token with line := 1, span := ⟨0, token.lexeme.utf8ByteSize⟩ }], []⟩ := by
  intro tokens again
  have hwritten (token : Token) (h : token ∈ tokens) :
      token.kind.WrittenAs token.lexeme.toList := writtenAs_of_mem_tokens h
  obtain ⟨hdiagnostics, htokens⟩ := ofCharsFrom_spacedOut hwritten breaks
    (.ofSource (spacedOut breaks tokens)) 0
  exact ⟨hdiagnostics, htokens, fun token h => (hwritten token h).ofSource_eq⟩

end Lexing

end CrudLang
