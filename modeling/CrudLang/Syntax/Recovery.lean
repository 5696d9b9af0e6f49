import CrudLang.Syntax.Parser
import CrudLang.Syntax.Tree

/-!
# Skipping what cannot be read

Where a statement cannot be read, `Grammar.statementError` skips at least one unit and then goes on
to a place where a statement may begin: behind a semicolon, or before a closing brace or a
keyword that opens a statement. A unit is a token, or a group of balanced braces, which is
skipped as a whole so that its closing brace is no new mistake. Two more parsers skip whole
blocks and stray closing braces.
-/

namespace CrudLang.Grammar

open CrudLang.Parser

/-- An opening brace with everything up to its closing brace, where other braces are balanced. -/
def braceGroup : Parser Unit :=
  fix fun group => do
    let _ ← between .leftBrace .rightBrace <|
      many (orElse group (noneOf [.punctuator .leftBrace, .punctuator .rightBrace]))
    pure ()

/-- An opening brace without a closing one, with everything to the end of the input. -/
def openGroup : Parser Unit := do
  punctuator .leftBrace
  let _ ← many anyToken
  pure ()

/-- A group of braces, closed or not. -/
def skipGroup : Parser Unit :=
  choice braceGroup [openGroup]

/-- The tokens at which the skipping of a statement ends; groups of braces are skipped whole. -/
def statementBoundaries : List TokenKind :=
  [.punctuator .leftBrace, .punctuator .semicolon, .punctuator .rightBrace,
   .keyword .var, .keyword .const, .keyword .func, .keyword .class, .keyword .if, .keyword .loop,
   .keyword .while, .keyword .return, .keyword .create, .keyword .read, .keyword .update,
   .keyword .delete]

/-- The first unit of a statement that cannot be read: anything but a closing brace. -/
def firstUnit : Parser Unit :=
  choice skipGroup [noneOf [.punctuator .rightBrace]]

/-- A further unit of a statement that cannot be read. -/
def furtherUnit : Parser Unit :=
  choice skipGroup [noneOf statementBoundaries]

/-- Skips a statement that cannot be read, with the semicolon behind it. -/
def statementError : Parser Stmt :=
  withSpan do
    firstUnit
    let _ ← many furtherUnit
    let _ ← optional (punctuator .semicolon)
    pure Stmt.error

/-- Skips a closing brace that closes nothing. -/
def strayBrace : Parser Stmt :=
  withSpan do
    punctuator .rightBrace
    pure Stmt.error

/-- Tokens in which braces and parentheses are balanced. -/
def balanced : Parser Unit :=
  fix fun inner => do
    let _ ← many <| choice (between .leftBrace .rightBrace inner)
      [between .leftParen .rightParen inner,
       both anyToken (noneOf [.punctuator .leftBrace, .punctuator .rightBrace,
         .punctuator .leftParen, .punctuator .rightParen])]
    pure ()

/-- Skips a block in which braces and parentheses are balanced. -/
def skippedBlock : Parser (Block Stmt) :=
  withSpan do
    between .leftBrace .rightBrace balanced
    pure (Block.mk [])

end CrudLang.Grammar
