import CrudLang.Text.Printable
import CrudLang.Text.GraphemeExtend

/-!
# Quoted text

A text is shown in double quotes. The quote and the backslash are escaped by a backslash; tab, line
feed, carriage return and the null character go by their letters; every other character that has
no printed form of its own, or that would merge with the character before it, goes by its code
point in lower-case hexadecimal.
-/

namespace CrudLang.Quoted

/-- The written form of one character inside quotes. -/
def escape (c : Char) : List Char :=
  if c = '"' then ['\\', '"']
  else if c = '\\' then ['\\', '\\']
  else if c = '\t' then ['\\', 't']
  else if c = '\r' then ['\\', 'r']
  else if c = '\n' then ['\\', 'n']
  else if c.toNat = 0 then ['\\', '0']
  else if extendsGrapheme c || !isPrintable c then
    ['\\', 'u', '\x7b'] ++ Nat.toDigits 16 c.toNat ++ ['\x7d']
  else [c]

/-- A text in quotes, as a list of characters. -/
def quoteChars (text : List Char) : List Char :=
  '"' :: text.flatMap escape ++ ['"']

/-- A text in quotes. -/
def quote (text : String) : String :=
  String.ofList (quoteChars text.toList)

end CrudLang.Quoted
