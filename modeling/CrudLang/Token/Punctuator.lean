import CrudLang.Token.Keyword

/-!
# Punctuators

The lexemes with a fixed spelling made of signs: operators and delimiters. `Punctuator.text`
gives the spelling, and `Punctuator.longest?` finds the punctuator at the head of a text,
preferring two signs to one.
-/

namespace CrudLang

/-- The operators and delimiters of the language. -/
inductive Punctuator where
  | plus
  | minus
  | star
  | slash
  | percent
  | assign
  | equal
  | notEqual
  | less
  | greater
  | lessEqual
  | greaterEqual
  | andAnd
  | orOr
  | bang
  | leftParen
  | rightParen
  | leftBrace
  | rightBrace
  | comma
  | semicolon
deriving DecidableEq, Repr, Inhabited

namespace Punctuator

/-- How a punctuator is written. -/
def text : Punctuator → String
  | .plus => "+"
  | .minus => "-"
  | .star => "*"
  | .slash => "/"
  | .percent => "%"
  | .assign => "="
  | .equal => "=="
  | .notEqual => "!="
  | .less => "<"
  | .greater => ">"
  | .lessEqual => "<="
  | .greaterEqual => ">="
  | .andAnd => "&&"
  | .orOr => "||"
  | .bang => "!"
  | .leftParen => "("
  | .rightParen => ")"
  | .leftBrace => "\x7b"
  | .rightBrace => "\x7d"
  | .comma => ","
  | .semicolon => ";"

/-- The class of a punctuator's tokens. -/
def category : Punctuator → Category
  | .plus | .minus | .star | .slash | .percent | .assign => .mathExpression
  | .equal | .notEqual | .less | .greater | .lessEqual | .greaterEqual
  | .andAnd | .orOr | .bang => .logicalExpression
  | .leftParen | .rightParen | .leftBrace | .rightBrace | .comma | .semicolon => .delimiter

/-- The punctuator that two signs form together. -/
def pair? (first second : Char) : Option Punctuator :=
  match first, second with
  | '=', '=' => some .equal
  | '!', '=' => some .notEqual
  | '<', '=' => some .lessEqual
  | '>', '=' => some .greaterEqual
  | '&', '&' => some .andAnd
  | '|', '|' => some .orOr
  | _, _ => none

/-- The punctuator that one sign forms alone. -/
def single? (sign : Char) : Option Punctuator :=
  match sign with
  | '+' => some .plus
  | '-' => some .minus
  | '*' => some .star
  | '/' => some .slash
  | '%' => some .percent
  | '=' => some .assign
  | '<' => some .less
  | '>' => some .greater
  | '!' => some .bang
  | '(' => some .leftParen
  | ')' => some .rightParen
  | '\x7b' => some .leftBrace
  | '\x7d' => some .rightBrace
  | ',' => some .comma
  | ';' => some .semicolon
  | _ => none

/-- The longest punctuator at the head of a text, with the text behind it. -/
def longest? : List Char → Option (Punctuator × List Char)
  | [] => none
  | [c] => (single? c).map (·, [])
  | c :: d :: rest =>
    match pair? c d with
    | some p => some (p, rest)
    | none => (single? c).map (·, d :: rest)

/-- A punctuator that two signs form is written with these two signs. -/
theorem text_of_pair? {c d : Char} {p : Punctuator} (h : pair? c d = some p) :
    p.text.toList = [c, d] := by
  unfold pair? at h
  split at h <;> simp_all <;> subst h <;> rfl

/-- A punctuator that one sign forms is written with this sign. -/
theorem text_of_single? {c : Char} {p : Punctuator} (h : single? c = some p) :
    p.text.toList = [c] := by
  unfold single? at h
  split at h <;> simp_all <;> subst h <;> rfl

/-- The punctuator found at the head of a text and the text behind it make up the text. -/
theorem eq_append_of_longest? {s rest : List Char} {p : Punctuator}
    (h : longest? s = some (p, rest)) : s = p.text.toList ++ rest := by
  match s with
  | [] => simp [longest?] at h
  | [c] =>
    simp only [longest?, Option.map_eq_some_iff, Prod.mk.injEq] at h
    obtain ⟨q, hq, rfl, rfl⟩ := h
    simp [text_of_single? hq]
  | c :: d :: tail =>
    simp only [longest?] at h
    split at h
    next q hq =>
      simp only [Option.some.injEq, Prod.mk.injEq] at h
      obtain ⟨rfl, rfl⟩ := h
      simp [text_of_pair? hq]
    next =>
      simp only [Option.map_eq_some_iff, Prod.mk.injEq] at h
      obtain ⟨q, hq, rfl, rfl⟩ := h
      simp [text_of_single? hq]

end Punctuator

end CrudLang
