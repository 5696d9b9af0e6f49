import CrudLang.Text.CodePoint

/-!
# White space

The characters with the property `White_Space` of Unicode.
-/

namespace CrudLang

/-- The code points of white space. -/
def whitespaceRanges : List (Nat × Nat) :=
  [(0x9, 0xd), (0x20, 0x20), (0x85, 0x85), (0xa0, 0xa0), (0x1680, 0x1680), (0x2000, 0x200a),
   (0x2028, 0x2029), (0x202f, 0x202f), (0x205f, 0x205f), (0x3000, 0x3000)]

/-- Whether a character is white space. -/
def isWhitespace (c : Char) : Bool :=
  CodePoint.within c.toNat whitespaceRanges

/-- A text without the white space at its end. -/
def trimEnd (text : List Char) : List Char :=
  (text.reverse.dropWhile isWhitespace).reverse

end CrudLang
