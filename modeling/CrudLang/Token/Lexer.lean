import CrudLang.Source.LineIndex
import CrudLang.Diagnostic.Basic
import CrudLang.Token.Basic
import CrudLang.Token.Chunk

/-!
# Tokens of a source

The chunks of a source become tokens, or lexical errors, or are skipped; `Lexing.ofSource` gives
the tokens and the diagnostics of a source, each in source order. A lexical error never stops
the lexer: it goes on behind the bad text.
-/

namespace CrudLang

/-- What a lexical error is about. -/
inductive LexicalError where
  /-- Text that no rule accepts. -/
  | unrecognized
  /-- A number that runs into a word. -/
  | malformedNumber
deriving DecidableEq, Repr, Inhabited

namespace LexicalError

/-- What is said about a bad lexeme. -/
def message (error : LexicalError) (lexeme : String) : String :=
  match error with
  | .unrecognized => s!"unrecognized lexeme '{lexeme}'"
  | .malformedNumber => s!"malformed numeric literal '{lexeme}'"

/-- What is said at the place of a bad lexeme. -/
def remark : LexicalError → String
  | .unrecognized => "this lexeme is not part of the language"
  | .malformedNumber => "a number cannot be followed by letters"

/-- The diagnostic for a bad lexeme. -/
def diagnostic (error : LexicalError) (lexeme : String) (line : Nat) (span : Span) :
    Diagnostic where
  kind := .unrecognizedLexeme
  message := error.message lexeme
  line := line
  primary := ⟨span, error.remark⟩

end LexicalError

namespace Chunk

/-- The value of a string body: `\n`, `\t`, `\r`, `\\` and `\"` stand for the characters they name,
and an unknown escape stands for itself. A backslash at the end of the body has no value. -/
def unescape? : List Char → Option (List Char)
  | [] => some []
  | c :: rest =>
    if c = '\\' then
      match rest with
      | [] => none
      | 'n' :: rest' => (unescape? rest').map ('\n' :: ·)
      | 't' :: rest' => (unescape? rest').map ('\t' :: ·)
      | 'r' :: rest' => (unescape? rest').map ('\r' :: ·)
      | d :: rest' =>
        if d = '\\' ∨ d = '"' then (unescape? rest').map (d :: ·)
        else (unescape? rest').map (c :: d :: ·)
    else (unescape? rest).map (c :: ·)

/-- What a chunk means: nothing, a token of some kind, or an error. -/
inductive Meaning where
  | skipped
  | token (kind : TokenKind)
  | error (error : LexicalError)
deriving DecidableEq, Repr, Inhabited

/-- The meaning of a chunk; a word is a keyword when the table of reserved words has it. -/
def meaning (chunk : Chunk) : Meaning :=
  match chunk.kind with
  | .blank | .comment => .skipped
  | .word =>
    let word := String.ofList chunk.text
    .token (((Keyword.ofString? word).map TokenKind.keyword).getD (.identifier word))
  | .number => .token (.number (String.ofList chunk.text))
  | .malformedNumber => .error .malformedNumber
  | .string body =>
    match unescape? body with
    | some value => .token (.string (String.ofList value))
    | none => .error .unrecognized
  | .punctuator p => .token (.punctuator p)
  | .unrecognized => .error .unrecognized

end Chunk

/-- A chunk with its place in the source. -/
structure PlacedChunk where
  /-- The chunk. -/
  chunk : Chunk
  /-- Its bytes in the source. -/
  span : Span
deriving DecidableEq, Repr

namespace PlacedChunk

/-- Places chunks one behind the other, the first at `offset`. -/
def place (offset : Nat) : List Chunk → List PlacedChunk
  | [] => []
  | chunk :: rest =>
    let next := offset + utf8Length chunk.text
    ⟨chunk, ⟨offset, next⟩⟩ :: place next rest

/-- The token that a chunk means, if it means one. -/
def token? (lines : LineIndex) (placed : PlacedChunk) : Option Token :=
  match placed.chunk.meaning with
  | .token kind =>
    some ⟨kind, String.ofList placed.chunk.text, lines.lineOf placed.span.start, placed.span⟩
  | _ => none

/-- The diagnostic for a chunk, if it is an error. -/
def diagnostic? (lines : LineIndex) (placed : PlacedChunk) : Option Diagnostic :=
  match placed.chunk.meaning with
  | .error error =>
    some (error.diagnostic (String.ofList placed.chunk.text) (lines.lineOf placed.span.start)
      placed.span)
  | _ => none

end PlacedChunk

/-- The outcome of lexing: tokens and diagnostics, each in source order. -/
structure Lexing where
  /-- The tokens of the source. -/
  tokens : List Token
  /-- The diagnostics about bad lexemes. -/
  diagnostics : List Diagnostic
deriving DecidableEq, Repr

namespace Lexing

/-- Lexes a text, with lines counted by a given index. -/
def ofChars (lines : LineIndex) (source : List Char) : Lexing :=
  let placed := PlacedChunk.place 0 (chunks source)
  ⟨placed.filterMap (·.token? lines), placed.filterMap (·.diagnostic? lines)⟩

/-- Lexes a source text. -/
def ofSource (source : String) : Lexing :=
  ofChars (.ofSource source) source.toList

end Lexing

end CrudLang
