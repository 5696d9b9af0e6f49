/-!
# Kinds of diagnostics and their codes

Each kind of diagnostic has one code, a title and an explanation, kept in the table
`ErrorCode.all`. A code is looked up without regard to the case of ASCII letters.
-/

namespace CrudLang

/-- What a diagnostic complains about. -/
inductive DiagnosticKind where
  | unrecognizedLexeme
  | unexpectedToken
  | undeclaredIdentifier
  | redeclaredIdentifier
  | kindMismatch
deriving DecidableEq, Repr, Inhabited

/-- A code with its title and its explanation. -/
structure ErrorCode where
  /-- The kind of diagnostic that carries the code. -/
  kind : DiagnosticKind
  /-- The code itself. -/
  code : String
  /-- A few words on the kind of error. -/
  title : String
  /-- What went wrong and what to look for. -/
  explanation : String
deriving DecidableEq, Repr

namespace ErrorCode

/-- The code of lexical errors. -/
def unrecognizedLexeme : ErrorCode where
  kind := .unrecognizedLexeme
  code := "E0001"
  title := "Unrecognized lexeme"
  explanation :=
    "The lexer found a character sequence that matches no rule of the language, such as a " ++
    "stray symbol, an unterminated string literal or a number directly followed by letters. " ++
    "The sequence is skipped and scanning resumes right after it."

/-- The code of syntax errors. -/
def unexpectedToken : ErrorCode where
  kind := .unexpectedToken
  code := "E0100"
  title := "Unexpected token"
  explanation :=
    "The arrangement of tokens does not match any grammar rule. Check for missing " ++
    "identifiers after `var`, `const`, `func` or `class`, unbalanced braces and parentheses, " ++
    "or an operator with a missing operand."

/-- The code of names without a declaration. -/
def undeclaredIdentifier : ErrorCode where
  kind := .undeclaredIdentifier
  code := "E0200"
  title := "Undeclared identifier"
  explanation :=
    "The name is used, called, assigned or targeted by a CRUD statement, but no declaration " ++
    "for it is visible from here. Names must be declared before use, in the current scope or " ++
    "an enclosing one."

/-- The code of second declarations. -/
def redeclaredIdentifier : ErrorCode where
  kind := .redeclaredIdentifier
  code := "E0201"
  title := "Redeclared identifier"
  explanation :=
    "A variable, constant, function, class or parameter with this name was already declared " ++
    "in the same scope. Declaring the same name inside a nested block is allowed and shadows " ++
    "the outer declaration."

/-- The code of names used for what they are not. -/
def kindMismatch : ErrorCode where
  kind := .kindMismatch
  code := "E0202"
  title := "Kind mismatch"
  explanation :=
    "The name refers to the wrong kind of symbol for this use: only variables can be " ++
    "assigned, only functions can be called, only classes can be instantiated with `new`, " ++
    "and CRUD statements need a class or a variable as their target."

/-- The table of codes. -/
def all : List ErrorCode :=
  [unrecognizedLexeme, unexpectedToken, undeclaredIdentifier, redeclaredIdentifier, kindMismatch]

/-- Looks a code up, without regard to the case of ASCII letters. -/
def lookup (code : String) : Option ErrorCode :=
  all.find? fun row => row.code.toList.map Char.toLower == code.toList.map Char.toLower

end ErrorCode

namespace DiagnosticKind

/-- The row of the table for a kind of diagnostic. -/
def errorCode : DiagnosticKind → ErrorCode
  | .unrecognizedLexeme => .unrecognizedLexeme
  | .unexpectedToken => .unexpectedToken
  | .undeclaredIdentifier => .undeclaredIdentifier
  | .redeclaredIdentifier => .redeclaredIdentifier
  | .kindMismatch => .kindMismatch

end DiagnosticKind

end CrudLang
