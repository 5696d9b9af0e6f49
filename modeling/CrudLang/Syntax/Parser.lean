import CrudLang.Syntax.Failure

/-!
# Parsers

A parser reads some tokens from the front of the input and answers with a value, or it fails. It
carries two kinds of news along: the furthest failure so far, which is *pending* until someone
asks what went wrong, and the failures that were *reported* because reading recovered from
them. A parser that fails leaves nothing behind but the furthest failure: what it read and
what it reported is undone, since only `Reply.ok` hands on a state.

`Parser.fix` ties a recursive definition. Each round may call itself only where some input has been
read, so the number of tokens bounds the depth; `fix_apply` is the equation that the definition
asks for.
-/

namespace CrudLang

/-- What a parser knows between two tokens. -/
structure State where
  /-- The input that is still to be read. -/
  rest : Input
  /-- The furthest failure so far, if any. -/
  pending : Option Failure
  /-- The failures that were recovered from, the first one first. -/
  reported : List Failure

/-- The answer of a parser. -/
inductive Reply (α : Type) where
  /-- It has read a value. -/
  | ok (value : α) (state : State)
  /-- It has read nothing; this is the furthest failure. -/
  | fail (failure : Failure)

/-- A parser for values of type `α`. -/
def Parser (α : Type) : Type :=
  State → Reply α

namespace Parser

variable {α β : Type}

/-- Reads nothing. -/
def succeed (value : α) : Parser α := fun s =>
  .ok value s

/-- Reads one thing after the other. -/
def andThen (p : Parser α) (next : α → Parser β) : Parser β := fun s =>
  match p s with
  | .ok value t => next value t
  | .fail f => .fail f

instance : Monad Parser where
  pure := succeed
  bind := andThen

theorem pure_apply (value : α) (s : State) : (pure value : Parser α) s = .ok value s := rfl

theorem bind_apply (p : Parser α) (next : α → Parser β) (s : State) :
    (p >>= next) s =
      match p s with
      | .ok value t => next value t
      | .fail f => .fail f := rfl

theorem map_apply (g : α → β) (p : Parser α) (s : State) :
    (g <$> p) s =
      match p s with
      | .ok value t => .ok (g value) t
      | .fail f => .fail f := rfl

/-- Fails at the present place. -/
def unexpected (e : Expectation) : Parser α := fun s =>
  .fail (.note s.pending s.rest e)

/-- Reads one token that `read?` accepts. -/
def satisfy (read? : TokenKind → Option α) (e : Expectation) : Parser α := fun s =>
  match s.rest.next? with
  | none => unexpected e s
  | some (token, rest) =>
    match read? token.kind with
    | none => unexpected e s
    | some value => .ok value { s with rest := rest }

/-- Reads one particular token. -/
def token (kind : TokenKind) : Parser Unit :=
  satisfy (fun k => if k = kind then some () else none) (.token kind)

/-- Reads one keyword. -/
def keyword (k : Keyword) : Parser Unit :=
  token (.keyword k)

/-- Reads one punctuator. -/
def punctuator (p : Punctuator) : Parser Unit :=
  token (.punctuator p)

/-- Reads one token of a class that has no name. -/
def select (read? : TokenKind → Option α) : Parser α :=
  satisfy read? .somethingElse

/-- Reads one token that is none of those listed. -/
def noneOf (kinds : List TokenKind) : Parser Unit :=
  select fun k => if k ∈ kinds then none else some ()

/-- Reads one token, whatever it is. -/
def anyToken : Parser Unit :=
  satisfy (fun _ => some ()) .anyToken

/-- Succeeds at the end of the input. -/
def endOfInput : Parser Unit := fun s =>
  match s.rest.next? with
  | none => .ok () s
  | some _ => unexpected .endOfInput s

/-- Reads by `p`, and where that fails by `q` from the same place. -/
def orElse (p q : Parser α) : Parser α := fun s =>
  match p s with
  | .ok value t => .ok value t
  -- `q` begins where `p` began, but the news of how far `p` came stays
  | .fail f => q { s with pending := some f }

/-- Reads by the first parser that succeeds. -/
def choice (first : Parser α) : List (Parser α) → Parser α
  | [] => first
  | next :: rest => orElse first (choice next rest)

/-- Reads by `p` if possible, else nothing. -/
def optional (p : Parser α) : Parser (Option α) :=
  orElse (some <$> p) (pure none)

/-- Reads by `p` where `q` succeeds too. -/
def both (p : Parser α) (q : Parser β) : Parser α := fun s =>
  match p s with
  | .fail f => .fail f
  | .ok value t =>
    match q { t with rest := s.rest } with
    | .fail f => .fail f
    | .ok _ u => .ok value { u with rest := t.rest }

/-- The recursive definition `body`, unfolded at most `depth` times. A round may call itself only
where there is less input than where it began. -/
def fixUpTo (body : Parser α → Parser α) : Nat → Parser α
  | 0 => fun s => .fail ⟨s.rest, []⟩
  | depth + 1 => fun s =>
    body (fun t => if t.rest.size < s.rest.size then fixUpTo body depth t else .fail ⟨t.rest, []⟩) s

/-- The parser that is defined by `body` in terms of itself. -/
def fix (body : Parser α → Parser α) : Parser α := fun s =>
  fixUpTo body (s.rest.size + 1) s

/-- Reads by `p` as often as possible. -/
def many (p : Parser α) : Parser (List α) :=
  fix fun more => orElse (do
    let first ← p
    let others ← more
    pure (first :: others)) (pure [])

/-- Reads items with a separator between them, and one behind the last if it is there. -/
def separated (item : Parser α) (separator : Parser Unit) : Parser (List α) :=
  orElse (do
    let first ← item
    let others ← many (do separator; item)
    let _ ← optional separator
    pure (first :: others)) (pure [])

/-- Reads by `p` between two punctuators. -/
def between (left right : Punctuator) (p : Parser α) : Parser α := do
  punctuator left
  let value ← p
  punctuator right
  pure value

/-- Gives the value the span from the first token read to the last. -/
def withSpan (p : Parser (Span → α)) : Parser α := fun s =>
  match p s with
  | .fail f => .fail f
  | .ok build t =>
    .ok (build (spanOfRun (s.rest.tokens.take (s.rest.size - t.rest.size)))) t

/-- Reads by `p` as a construct with a name: a failure where the construct should begin names the
construct and not its parts. -/
def labelled (construct : Construct) (p : Parser α) : Parser α := fun s =>
  -- what was pending is put aside, so that all news from `p` is about this construct
  match p { s with pending := none } with
  | .fail f => .fail (.join s.pending (f.summarize s.rest construct))
  | .ok value t =>
    match t.pending with
    | none => .ok value { t with pending := s.pending }
    | some f =>
      .ok value { t with pending := some (.join s.pending (f.summarize s.rest construct)) }

/-- Reads by `p`, and where that fails by `recovery`, which reports the failure. -/
def recoverWith (p recovery : Parser α) : Parser α := fun s =>
  match p s with
  | .ok value t => .ok value t
  | .fail f =>
    -- a failure that will be reported must not be pending too
    match recovery { s with pending := none } with
    | .fail _ => .fail f
    | .ok value t => .ok value { t with reported := t.reported ++ [f] }

/-- Reads operands with operators between them, and combines them from left to right. -/
def chainLeft (operand : Parser α) (operator : Parser β) (combine : α → β → α → α) :
    Parser α := do
  let first ← operand
  let others ← many (do
    let op ← operator
    let right ← operand
    pure (op, right))
  pure (others.foldl (fun left (op, right) => combine left op right) first)

/-- Once the depth exceeds the size of the input, it makes no difference. -/
theorem fixUpTo_eq (body : Parser α → Parser α) {m n : Nat} {s : State}
    (hm : s.rest.size < m) (hn : s.rest.size < n) : fixUpTo body m s = fixUpTo body n s := by
  induction m generalizing n s with
  | zero => omega
  | succ m ih =>
    cases n with
    | zero => omega
    | succ n =>
      simp only [fixUpTo]
      congr 1
      funext t
      split
      · exact ih (by omega) (by omega)
      · rfl

/-- A recursive definition holds of the parser that it defines: inside, the parser may be called
where some input has been read. -/
theorem fix_apply (body : Parser α → Parser α) (s : State) :
    fix body s =
      body (fun t => if t.rest.size < s.rest.size then fix body t else .fail ⟨t.rest, []⟩) s := by
  rw [fix, fixUpTo]
  show body _ s = body _ s
  congr 1
  funext t
  split
  next h => exact fixUpTo_eq body h (Nat.lt_succ_self _)
  next => rfl

end Parser

end CrudLang
