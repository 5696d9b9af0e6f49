import CrudLang.Syntax.Expression
import CrudLang.Syntax.Recovery

/-!
# Reading statements

Each form of statement is a parser over the parser for blocks, and a block is a parser over the
parser for statements; `Grammar.statement` ties them together. A statement that cannot be read is
skipped and reported, so reading goes on behind it.
-/

namespace CrudLang.Grammar

open CrudLang.Parser

/-- `var` with a name, and a value if there is one. -/
def varDeclaration : Parser (Span → Stmt) := do
  keyword .var
  let name ← identifier
  let init ← optional (do punctuator .assign; expression)
  pure (Stmt.var name init)

/-- `const` with a name and a value. -/
def constDeclaration : Parser (Span → Stmt) := do
  keyword .const
  let name ← identifier
  punctuator .assign
  let value ← expression
  pure (Stmt.const name value)

/-- Parameters between parentheses. -/
def parameters : Parser (List Ident) :=
  labelled .parameterList <|
    between .leftParen .rightParen (separated identifier (punctuator .comma))

/-- `func` with a name, parameters and a body. -/
def functionDefinition (block : Parser (Block Stmt)) : Parser (Span → Stmt) :=
  labelled .functionDefinition do
    keyword .func
    let name ← identifier
    let params ← parameters
    let body ← block
    pure (Stmt.func name params body)

/-- A declaration inside a class, with a semicolon behind it if there is one. -/
def member (block : Parser (Block Stmt)) : Parser Stmt :=
  labelled .classMember do
    let stmt ← withSpan <| choice varDeclaration [constDeclaration, functionDefinition block]
    let _ ← optional (punctuator .semicolon)
    pure stmt

/-- `class` with a name and members between braces. -/
def classDefinition (block : Parser (Block Stmt)) : Parser (Span → Stmt) :=
  labelled .classDefinition do
    keyword .class
    let name ← identifier
    let members ← between .leftBrace .rightBrace (many (member block))
    pure (Stmt.class name members)

/-- `if` with a condition and a block, and `else` with a conditional or a block if there is one. -/
def conditional (block : Parser (Block Stmt)) : Parser Stmt :=
  fix fun conditional => withSpan do
    keyword .if
    let condition ← expression
    let body ← block
    let alternative ← optional (do
      keyword .else
      choice conditional [Stmt.block <$> block])
    pure (Stmt.if condition body alternative)

/-- `loop` with a block. -/
def loopStatement (block : Parser (Block Stmt)) : Parser (Span → Stmt) := do
  keyword .loop
  let body ← block
  pure (Stmt.loop body)

/-- `while` with a condition and a block. -/
def whileStatement (block : Parser (Block Stmt)) : Parser (Span → Stmt) := do
  keyword .while
  let condition ← expression
  let body ← block
  pure (Stmt.while condition body)

/-- The keyword of an operation on stored data. -/
def crudOperator : Parser CrudOp :=
  select fun
    | .keyword .create => some .create
    | .keyword .read => some .read
    | .keyword .update => some .update
    | .keyword .delete => some .delete
    | _ => none

/-- An operation on stored data, with its target and arguments, which may be missing. -/
def crudStatement : Parser (Span → Stmt) :=
  labelled .crudStatement do
    let op ← crudOperator
    let target ← identifier
    let args ← optional (arguments expression)
    pure (Stmt.crud op target (args.getD []))

/-- `return`, with a value if there is one. -/
def returnStatement : Parser (Span → Stmt) := do
  keyword .return
  let value ← optional expression
  pure (Stmt.return value)

/-- A block as a statement. -/
def blockStatement (block : Parser (Block Stmt)) : Parser (Span → Stmt) := do
  let body ← block
  pure fun _ => Stmt.block body

/-- An expression as a statement. -/
def expressionStatement : Parser (Span → Stmt) := do
  let value ← expression
  pure (Stmt.expr value)

/-- A statement of any form, without the semicolon behind it. -/
def bareStatement (block : Parser (Block Stmt)) : Parser Stmt :=
  choice (conditional block)
    [withSpan <| choice varDeclaration
      [constDeclaration,
       functionDefinition block,
       classDefinition block,
       loopStatement block,
       whileStatement block,
       crudStatement,
       returnStatement,
       blockStatement block,
       expressionStatement]]

/-- A statement with a semicolon behind it if there is one, or a statement that cannot be read. -/
def statementStep (block : Parser (Block Stmt)) : Parser Stmt :=
  recoverWith
    (labelled .statement do
      let stmt ← bareStatement block
      let _ ← optional (punctuator .semicolon)
      pure stmt)
    statementError

/-- Statements between braces. -/
def bracedStatements (stmt : Parser Stmt) : Parser (Block Stmt) :=
  withSpan do
    let stmts ← between .leftBrace .rightBrace (many stmt)
    pure (Block.mk stmts)

/-- A block; if it cannot be read but is balanced, it is skipped and reported. -/
def block (stmt : Parser Stmt) : Parser (Block Stmt) :=
  labelled .block (recoverWith (bracedStatements stmt) skippedBlock)

/-- A block that is not skipped if it cannot be read. -/
def strictBlock (stmt : Parser Stmt) : Parser (Block Stmt) :=
  labelled .block (bracedStatements stmt)

/-- Statements, given how blocks are read from statements. -/
def statementBy (block : Parser Stmt → Parser (Block Stmt)) : Parser Stmt :=
  fix fun stmt => statementStep (block stmt)

/-- A statement. -/
def statement : Parser Stmt :=
  statementBy block

/-- The statements of a program: a closing brace that closes nothing is skipped and reported. -/
def statements (stmt : Parser Stmt) : Parser (List Stmt) :=
  many (recoverWith stmt strayBrace)

end CrudLang.Grammar

namespace CrudLang

/-- The outcome of reading the tokens of a source. -/
structure Parsing where
  /-- The program, unless reading stopped before the end of the input. -/
  program : Option Program
  /-- The failures, in the order in which they were reported. -/
  failures : List Failure

namespace Parsing

/-- Where the last token of a source ends, or 0 if there is none. -/
def endOfTokens (tokens : List Token) : Nat :=
  (tokens.getLast?.map fun token => token.span.stop).getD 0

/-- Reads tokens as a program, given how statements are read. -/
def ofTokensBy (stmt : Parser Stmt) (tokens : List Token) : Parsing :=
  match Grammar.statements stmt ⟨.ofList tokens, none, []⟩ with
  | .fail f => ⟨none, [f]⟩
  | .ok stmts s =>
    match Parser.endOfInput s with
    | .fail f => ⟨none, s.reported ++ [f]⟩
    | .ok _ t => ⟨some ⟨stmts, spanOfRun tokens⟩, t.reported⟩

/-- Reads tokens as a program. -/
def ofTokens (tokens : List Token) : Parsing :=
  ofTokensBy Grammar.statement tokens

/-- The diagnostics for the failures of a source. -/
def diagnostics (parsing : Parsing) (lines : LineIndex) (tokens : List Token) : List Diagnostic :=
  parsing.failures.map (Failure.diagnostic lines (endOfTokens tokens))

end Parsing

end CrudLang
