import CrudLang.Source.Span
import CrudLang.Token.Punctuator
import CrudLang.Text.Quoted

/-!
# Tokens

A token is a classified lexeme: its kind, its text as it stands in the source, its line and its
span. The category is a function of the kind. `TokenKind.text` writes a kind in source form, as
syntax errors show it.
-/

namespace CrudLang

/-- What a token is, apart from where it stands. -/
inductive TokenKind where
  /-- A reserved word. -/
  | keyword (keyword : Keyword)
  /-- A word that is not reserved. -/
  | identifier (name : String)
  /-- An integer or a decimal fraction, kept as written. -/
  | number (text : String)
  /-- A string literal, by its value. -/
  | string (value : String)
  /-- An operator or a delimiter. -/
  | punctuator (punctuator : Punctuator)
deriving DecidableEq, Repr, Inhabited

namespace TokenKind

/-- The class of a token of this kind. -/
def category : TokenKind → Category
  | .keyword k => k.category
  | .identifier _ => .variable
  | .number _ => .constant
  | .string _ => .constant
  | .punctuator p => p.category

/-- A token in source form; a string literal is shown by its quoted value. -/
def text : TokenKind → String
  | .keyword k => k.text
  | .identifier name => name
  | .number digits => digits
  | .string value => Quoted.quote value
  | .punctuator p => p.text

end TokenKind

/-- A classified lexeme. -/
structure Token where
  /-- What it is. -/
  kind : TokenKind
  /-- Its text in the source. -/
  lexeme : String
  /-- The line on which it begins, counted from 1. -/
  line : Nat
  /-- Its bytes in the source. -/
  span : Span
deriving DecidableEq, Repr, Inhabited

namespace Token

/-- The class of a token. -/
def category (t : Token) : Category :=
  t.kind.category

/-- A token's line in a token listing. -/
def listing (t : Token) : String :=
  s!"Lexeme: {t.lexeme}, Category: {t.category.text}, Line: {t.line}"

end Token

/-- The span from the first of a run of tokens to the last; a run without tokens has the empty
span at 0. -/
def spanOfRun (run : List Token) : Span :=
  match run with
  | [] => .point 0
  | first :: rest => ⟨first.span.start, ((first :: rest).getLast (by simp)).span.stop⟩

end CrudLang
