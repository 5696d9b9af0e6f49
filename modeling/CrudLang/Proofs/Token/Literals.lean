import CrudLang.Proofs.Token.Standalone

/-!
# String literals

What the items of a string body stand for does not depend on what is behind them. So a text stands
for a value (`Chunk.StandsFor`) if its parts stand for the parts of the value, and it is enough to
say what each item stands for. A text that stands for a value makes a literal of this value
(`Chunk.StandsFor.writtenAs`).

`StringLiteral.ofValue` writes a value character by character. Its literal is lexed as one token
with this value, and no literal is without a value (`Lexing.ofSource_stringLiteral`).
-/

namespace CrudLang

open Computability

/-- The characters that may be behind a backslash, and what they stand for there. -/
def Chunk.escapes : List (Char × Char) :=
  [('\\', '\\'), ('"', '"'), ('n', '\n'), ('t', '\t'), ('r', '\r')]

/-- Inside the quotes of a literal the text stands for the value, whatever is behind it. -/
structure Chunk.StandsFor (text value : List Char) : Prop where
  items : text ∈ stringItem∗
  unescape? (rest : List Char) :
    Chunk.unescape? (text ++ rest) = (Chunk.unescape? rest).map (value ++ ·)

namespace Chunk.StandsFor

variable {c : Char} {text text' value value' : List Char}

theorem nil : StandsFor [] [] where
  items := Language.nil_mem_kstar _
  unescape? rest := by simp

theorem append (h : StandsFor text value) (h' : StandsFor text' value') :
    StandsFor (text ++ text') (value ++ value') where
  items := by
    rw [← kstar_mul_kstar]
    exact Language.append_mem_mul h.items h'.items
  unescape? rest := by
    rw [List.append_assoc, h.unescape?, h'.unescape?, Option.map_map]
    simp [Function.comp_def]

/-- Character by character. -/
theorem flatMap {write read : Char → List Char} (h : ∀ c, StandsFor (write c) (read c))
    (s : List Char) : StandsFor (s.flatMap write) (s.flatMap read) := by
  induction s with
  | nil => exact nil
  | cons c s ih => exact (h c).append ih

/-- A character other than quote, backslash and line feed stands for itself. -/
theorem raw (hquote : c ≠ '"') (hbackslash : c ≠ '\\') (hnewline : c ≠ '\n') :
    StandsFor [c] [c] where
  items := by
    have hitem : [c] ∈ stringItem := .inl ⟨c, by simp [hquote, hbackslash, hnewline], rfl⟩
    exact le_kstar (a := stringItem) hitem
  unescape? rest := by
    rw [List.singleton_append, Chunk.unescape?.eq_def]
    simp [hbackslash]

theorem raws {s : List Char} (h : ∀ c ∈ s, c ≠ '"' ∧ c ≠ '\\' ∧ c ≠ '\n') : StandsFor s s := by
  induction s with
  | nil => exact nil
  | cons c s ih =>
    obtain ⟨⟨hquote, hbackslash, hnewline⟩, hrest⟩ := List.forall_mem_cons.1 h
    exact (raw hquote hbackslash hnewline).append (ih hrest)

/-- An escape stands for what it is read as. -/
theorem escape (hnewline : c ≠ '\n') (h : ∀ rest, Chunk.unescape? ('\\' :: c :: rest) =
    (Chunk.unescape? rest).map (value ++ ·)) : StandsFor ['\\', c] value where
  items := by
    have hitem : ['\\', c] ∈ stringItem :=
      .inr ⟨['\\'], rfl, [c], ⟨c, by simp [hnewline], rfl⟩, rfl⟩
    exact le_kstar (a := stringItem) hitem
  unescape? := h

/-- A known escape stands for its character. -/
theorem known {d : Char} (h : (c, d) ∈ escapes) : StandsFor ['\\', c] [d] := by
  simp only [escapes, List.mem_cons, Prod.mk.injEq, List.not_mem_nil, or_false] at h
  rcases h with ⟨rfl, rfl⟩ | ⟨rfl, rfl⟩ | ⟨rfl, rfl⟩ | ⟨rfl, rfl⟩ | ⟨rfl, rfl⟩ <;>
    exact escape (by decide) fun rest => by simp [Chunk.unescape?]

/-- An unknown escape stands for itself. -/
theorem unknown (hnewline : c ≠ '\n') (h : c ∉ escapes.map Prod.fst) :
    StandsFor ['\\', c] ['\\', c] := by
  simp only [escapes, List.map_cons, List.map_nil, List.mem_cons, List.not_mem_nil, or_false,
    not_or] at h
  -- the facts about letters rule out the first rows of the match
  obtain ⟨hbackslash, hquote, hn, ht, hr⟩ := h
  refine escape hnewline fun rest => ?_
  rw [Chunk.unescape?.eq_def]
  simp [hbackslash, hquote]

/-- A text that stands for a value, in quotes, is a literal of this value. -/
theorem writtenAs (h : StandsFor text value) :
    (TokenKind.string (.ofList value)).WrittenAs ('"' :: text ++ ['"']) := by
  -- behind the text there is nothing left to read
  have hvalue := h.unescape? []
  simp only [List.append_nil, Chunk.unescape?, Option.map_some] at hvalue
  exact ⟨.string text, ⟨h.items, rfl⟩, by simp [meaning, hvalue]⟩

end Chunk.StandsFor

namespace StringLiteral

/-- How a character of a value is written in a literal: backslash, quote and line feed by their
escapes, tab and carriage return by theirs if `byLetter`, and everything else as it is. -/
def escape (byLetter : Bool) (c : Char) : List Char :=
  if c = '\\' then ['\\', '\\']
  else if c = '"' then ['\\', '"']
  else if c = '\n' then ['\\', 'n']
  else if byLetter ∧ c = '\t' then ['\\', 't']
  else if byLetter ∧ c = '\r' then ['\\', 'r']
  else [c]

/-- What is between the quotes of a literal; `byLetter i` chooses for character number `i`. -/
def body (byLetter : Nat → Bool) : List Char → List Char
  | [] => []
  | c :: rest => escape (byLetter 0) c ++ body (fun i => byLetter (i + 1)) rest

/-- A literal of a value. -/
def ofValue (byLetter : Nat → Bool) (value : String) : String :=
  .ofList ('"' :: body byLetter value.toList ++ ['"'])

theorem standsFor_escape (byLetter : Bool) (c : Char) :
    Chunk.StandsFor (escape byLetter c) [c] := by
  unfold escape
  split_ifs with hbackslash hquote hnewline htab hreturn
  · exact .known (by simp [Chunk.escapes, hbackslash])
  · exact .known (by simp [Chunk.escapes, hquote])
  · exact .known (by simp [Chunk.escapes, hnewline])
  · exact .known (by simp [Chunk.escapes, htab])
  · exact .known (by simp [Chunk.escapes, hreturn])
  · exact .raw hquote hbackslash hnewline

theorem standsFor_body (byLetter : Nat → Bool) (value : List Char) :
    Chunk.StandsFor (body byLetter value) value := by
  induction value generalizing byLetter with
  | nil => exact .nil
  | cons c rest ih => exact (standsFor_escape (byLetter 0) c).append (ih _)

end StringLiteral

/-- Every value has literals, and every literal has a value. A value in quotes, its backslashes,
quotes and line feeds written by their escapes, tabs and carriage returns by theirs or as they are,
and all else as it is, is lexed as one string token of this value, and nothing is reported. And no
string literal is refused when its escapes are read: every body has a value, so that no backslash
is ever left alone at its end, and in every source a string literal is a token of this value. -/
theorem Lexing.ofSource_stringLiteral (byLetter : Nat → Bool) (value : String) :
    let literal := StringLiteral.ofValue byLetter value
    ofSource literal = ⟨[⟨.string value, literal, 1, ⟨0, literal.utf8ByteSize⟩⟩], []⟩ ∧
      (∀ body text, text ∈ (ChunkKind.string body).lexemes →
        ∃ value, Chunk.unescape? body = some value) ∧
      ∀ source, ∀ chunk ∈ chunks source, ∀ body, chunk.kind = .string body →
        ∃ value, Chunk.unescape? body = some value ∧
          chunk.meaning = .token (.string (.ofList value)) := by
  have hbody {body text : List Char} (h : text ∈ (ChunkKind.string body).lexemes) :
      ∃ value, Chunk.unescape? body = some value := Chunk.exists_unescape?_eq_some h.1
  refine ⟨?_, fun body text => hbody, fun source chunk hchunk body hkind => ?_⟩
  · have hwritten := (StringLiteral.standsFor_body byLetter value.toList).writtenAs
    rw [String.ofList_toList] at hwritten
    refine TokenKind.WrittenAs.ofSource_eq ?_
    rwa [StringLiteral.ofValue, String.toList_ofList]
  · have hmem := Chunk.mem_lexemes_of_mem_chunks hchunk
    rw [hkind] at hmem
    obtain ⟨value, hvalue⟩ := hbody (hmem.resolve_right nofun)
    refine ⟨value, hvalue, ?_⟩
    rw [Chunk.meaning, hkind]
    simp [hvalue]

end CrudLang
