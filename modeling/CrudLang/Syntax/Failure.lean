import CrudLang.Token.Basic
import CrudLang.Diagnostic.Basic
import CrudLang.Source.LineIndex

/-!
# Where reading fails, and what was expected there

The input of the grammar is a list of tokens, kept with its length so that two places in it can be
compared at once. A `Failure` is a place in the input with the list of what could have stood there.
Of several failures the furthest one counts; failures at one place are united, in the
order in which they arose. `Failure.diagnostic` says what was expected and what was found.
-/

namespace CrudLang

/-- The tokens that are still to be read, with their number. -/
structure Input where
  /-- The tokens, the next one first. -/
  tokens : List Token
  /-- How many there are. -/
  size : Nat
  size_eq : tokens.length = size

namespace Input

/-- The input that consists of all tokens of a list. -/
def ofList (tokens : List Token) : Input :=
  ⟨tokens, tokens.length, rfl⟩

/-- The next token, with the input behind it. -/
def next? : Input → Option (Token × Input)
  | ⟨[], _, _⟩ => none
  | ⟨token :: rest, size, h⟩ =>
    some (token, ⟨rest, size - 1, by simp only [List.length_cons] at h; omega⟩)

/-- Inputs with the same tokens are equal. -/
@[ext] theorem ext {a b : Input} (h : a.tokens = b.tokens) : a = b := by
  obtain ⟨tokens, size, rfl⟩ := a
  obtain ⟨tokens', size', rfl⟩ := b
  simp only at h
  subst h
  rfl

@[simp] theorem tokens_ofList (tokens : List Token) : (ofList tokens).tokens = tokens := rfl

@[simp] theorem size_ofList (tokens : List Token) : (ofList tokens).size = tokens.length := rfl

/-- Taking the next token takes it off the list. -/
theorem next?_eq_some_iff {input rest : Input} {token : Token} :
    input.next? = some (token, rest) ↔ input.tokens = token :: rest.tokens := by
  obtain ⟨tokens, size, rfl⟩ := input
  cases tokens with
  | nil => simp [next?]
  | cons t ts =>
    simp only [next?, Option.some.injEq, Prod.mk.injEq, List.cons.injEq]
    refine and_congr_right fun _ => ⟨fun h => by rw [← h], fun h => Input.ext h⟩

theorem next?_eq_none_iff {input : Input} : input.next? = none ↔ input.tokens = [] := by
  obtain ⟨tokens, size, rfl⟩ := input
  cases tokens <;> simp [next?]

end Input

/-- The constructs that syntax errors name. -/
inductive Construct where
  | identifier
  | expression
  | argumentList
  | block
  | parameterList
  | functionDefinition
  | classMember
  | classDefinition
  | crudStatement
  | statement
deriving DecidableEq, Repr, Inhabited

namespace Construct

/-- The name of a construct in syntax errors. -/
def text : Construct → String
  | .identifier => "identifier"
  | .expression => "expression"
  | .argumentList => "argument list"
  | .block => "block"
  | .parameterList => "parameter list"
  | .functionDefinition => "function definition"
  | .classMember => "class member"
  | .classDefinition => "class definition"
  | .crudStatement => "CRUD statement"
  | .statement => "statement"

end Construct

/-- What a reader would have accepted at a place. -/
inductive Expectation where
  /-- One particular token. -/
  | token (kind : TokenKind)
  /-- A construct of the grammar. -/
  | construct (construct : Construct)
  /-- Any token at all. -/
  | anyToken
  /-- The end of the input. -/
  | endOfInput
  /-- Some token, but not the one that is there. -/
  | somethingElse
deriving DecidableEq, Repr, Inhabited

namespace Expectation

/-- How an expectation is written in a syntax error; that something else was expected is not worth
saying. -/
def text? : Expectation → Option String
  | .token kind => some s!"`{kind.text}`"
  | .construct c => some c.text
  | .anyToken => some "any"
  | .endOfInput => some "end of input"
  | .somethingElse => none

/-- Appends those expectations of the second list that are not yet there, one after the other. -/
def unite (first second : List Expectation) : List Expectation :=
  second.foldl (fun all e => if e ∈ all then all else all ++ [e]) first

end Expectation

/-- A place in the input where reading failed, with what was expected there. -/
structure Failure where
  /-- The input from that place on. -/
  rest : Input
  /-- What could have stood there. -/
  expected : List Expectation

namespace Failure

/-- Notes that `e` was expected at `rest`, beside what is pending: a failure further back gives way,
one at the same place is extended, one further on stays. -/
def note (pending : Option Failure) (rest : Input) (e : Expectation) : Failure :=
  match pending with
  | none => ⟨rest, [e]⟩
  | some f =>
    if rest.size < f.rest.size then ⟨rest, [e]⟩
    else if rest.size = f.rest.size then ⟨f.rest, Expectation.unite f.expected [e]⟩
    else f

/-- Joins a pending failure with a later one: the further one counts, and at the same place the
lists are united, the longer one first and the pending one on a tie. -/
def join (pending : Option Failure) (later : Failure) : Failure :=
  match pending with
  | none => later
  | some f =>
    if later.rest.size < f.rest.size then later
    else if f.rest.size < later.rest.size then f
    else if f.expected.length < later.expected.length then
      ⟨f.rest, Expectation.unite later.expected f.expected⟩
    else ⟨f.rest, Expectation.unite f.expected later.expected⟩

/-- Names the construct in place of its parts, if nothing of it was read. -/
def summarize (start : Input) (construct : Construct) (f : Failure) : Failure :=
  if f.rest.size = start.size then ⟨f.rest, [.construct construct]⟩ else f

/-- The token that was found, or none at the end of the input. -/
def found (f : Failure) : Option Token :=
  f.rest.tokens.head?

/-- How the token found is written in a syntax error. -/
def foundText (f : Failure) : String :=
  match f.found with
  | some token => s!"`{token.kind.text}`"
  | none => "end of input"

/-- The bytes of the token found; at the end of the input, the empty range at `eoi`. -/
def span (eoi : Nat) (f : Failure) : Span :=
  match f.found with
  | some token => token.span
  | none => .point eoi

/-- What was expected, each thing once, in the order in which it was expected. -/
def expectedTexts (f : Failure) : List String :=
  (f.expected.filterMap Expectation.text?).eraseDups

/-- What a syntax error says. -/
def message (f : Failure) : String :=
  let expected := " or ".intercalate f.expectedTexts
  if f.expectedTexts.isEmpty then s!"unexpected token: found {f.foundText}"
  else s!"unexpected token: expected {expected}, found {f.foundText}"

/-- The diagnostic for a failure, where `eoi` is the end of the last token of the whole input. -/
def diagnostic (lines : LineIndex) (eoi : Nat) (f : Failure) : Diagnostic where
  kind := .unexpectedToken
  message := f.message
  line := lines.lineOf (f.span eoi).start
  primary := ⟨f.span eoi, s!"unexpected {f.foundText}"⟩

end Failure

end CrudLang
