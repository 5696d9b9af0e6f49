/-!
# Reserved words

The reserved words of the language in one table: spelling, keyword and category. A word of the
source is a keyword exactly when `Keyword.ofString?` finds it there; its spelling and its
category are read from the same row. `Category` also names the classes of all other tokens.
-/

namespace CrudLang

/-- The class of a token, as shown in token listings. -/
inductive Category where
  | reservedWord
  | logicalExpression
  | mathExpression
  | variable
  | constant
  | function
  | «class»
  | loop
  | conditional
  | crudKeyword
  | delimiter
deriving DecidableEq, Repr, Inhabited

namespace Category

/-- The name of a category in token listings. -/
def text : Category → String
  | .reservedWord => "ReservedWord"
  | .logicalExpression => "LogicalExpression"
  | .mathExpression => "MathExpression"
  | .variable => "Variable"
  | .constant => "Constant"
  | .function => "Function"
  | .class => "Class"
  | .loop => "Loop"
  | .conditional => "Conditional"
  | .crudKeyword => "CrudKeyword"
  | .delimiter => "Delimiter"

end Category

/-- The keywords of the language. -/
inductive Keyword where
  | var
  | const
  | func
  | «class»
  | new
  | return
  | if
  | else
  | loop
  | while
  | create
  | read
  | update
  | delete
  | and
  | or
  | not
  | true
  | false
deriving DecidableEq, Repr, Inhabited

/-- One row of the table of reserved words. -/
structure ReservedWord where
  /-- How the word is written. -/
  text : String
  /-- The keyword that it stands for. -/
  keyword : Keyword
  /-- The class of its tokens. -/
  category : Category

/-- The table of reserved words. -/
def reservedWords : List ReservedWord :=
  [⟨"var", .var, .reservedWord⟩,
   ⟨"const", .const, .reservedWord⟩,
   ⟨"new", .new, .reservedWord⟩,
   ⟨"return", .return, .reservedWord⟩,
   ⟨"func", .func, .function⟩,
   ⟨"class", .class, .class⟩,
   ⟨"loop", .loop, .loop⟩,
   ⟨"while", .while, .loop⟩,
   ⟨"if", .if, .conditional⟩,
   ⟨"else", .else, .conditional⟩,
   ⟨"create", .create, .crudKeyword⟩,
   ⟨"read", .read, .crudKeyword⟩,
   ⟨"update", .update, .crudKeyword⟩,
   ⟨"delete", .delete, .crudKeyword⟩,
   ⟨"and", .and, .logicalExpression⟩,
   ⟨"or", .or, .logicalExpression⟩,
   ⟨"not", .not, .logicalExpression⟩,
   ⟨"true", .true, .constant⟩,
   ⟨"false", .false, .constant⟩]

namespace Keyword

/-- The keyword that a word spells, if it is reserved. -/
def ofString? (word : String) : Option Keyword :=
  (reservedWords.find? fun row => row.text == word).map ReservedWord.keyword

/-- How a keyword is written. -/
def text (keyword : Keyword) : String :=
  ((reservedWords.find? fun row => row.keyword == keyword).map ReservedWord.text).getD ""

/-- The class of a keyword's tokens. -/
def category (keyword : Keyword) : Category :=
  ((reservedWords.find? fun row => row.keyword == keyword).map ReservedWord.category).getD
    .reservedWord

/-- Each keyword is found under its own spelling. -/
theorem ofString?_text (keyword : Keyword) : ofString? keyword.text = some keyword := by
  cases keyword <;> decide

/-- A word that is reserved is the spelling of its keyword. -/
theorem text_of_ofString? {word : String} {keyword : Keyword} (h : ofString? word = some keyword) :
    keyword.text = word := by
  have hrows : ∀ row ∈ reservedWords, row.keyword.text = row.text := by decide
  obtain ⟨row, hrow, rfl⟩ := Option.map_eq_some_iff.1 h
  have hword : row.text = word := by simpa using List.find?_some hrow
  rw [hrows row (List.mem_of_find?_eq_some hrow), hword]

end Keyword

end CrudLang
