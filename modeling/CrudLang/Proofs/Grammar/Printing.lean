import CrudLang.Proofs.Grammar.StatementReading

/-!
# Printing trees

`Program.print` writes a tree without unreadable statements as a list of token kinds. Parentheses
stand only around an expression that binds looser than its place demands, and a semicolon stands
behind every statement and every member of a class. Where the language has several tokens for one
operator, and where a list of arguments may be left out because it is empty, a `PrintStyle` chooses.

What is printed is written in the sense of `Expr.Written` and `Stmt.Written`, and the semicolons
settle every statement, so it is read back as the same tree: `Parsing.eraseSpans_program_of_print`.
-/

namespace CrudLang

/-- The choices that a tree leaves to its printer. -/
structure PrintStyle where
  /-- The token for each prefix operator. -/
  unary : UnaryOp → TokenKind
  /-- The token for each operator between operands. -/
  binary : BinaryOp → TokenKind
  /-- Whether empty parentheses stand where they may be left out. -/
  emptyArguments : Bool
  ofKind?_unary (op : UnaryOp) : UnaryOp.ofKind? (unary op) = some op
  ofKind?_binary (op : BinaryOp) : BinaryOp.ofKind? (binary op) = some op

/-- Every operator as a sign, and no parentheses that may be left out. -/
def PrintStyle.signs : PrintStyle where
  unary
    | .neg => .punctuator .minus
    | .not => .punctuator .bang
  binary
    | .add => .punctuator .plus
    | .sub => .punctuator .minus
    | .mul => .punctuator .star
    | .div => .punctuator .slash
    | .rem => .punctuator .percent
    | .eq => .punctuator .equal
    | .notEq => .punctuator .notEqual
    | .lt => .punctuator .less
    | .ltEq => .punctuator .lessEqual
    | .gt => .punctuator .greater
    | .gtEq => .punctuator .greaterEqual
    | .and => .punctuator .andAnd
    | .or => .punctuator .orOr
  emptyArguments := false
  ofKind?_unary op := by cases op <;> rfl
  ofKind?_binary op := by cases op <;> rfl

/-- Items between parentheses, with commas between them. -/
def commaList : List (List TokenKind) → List TokenKind
  | [] => [.punctuator .leftParen, .punctuator .rightParen]
  | first :: others =>
    .punctuator .leftParen :: first ++ others.flatMap (fun item => .punctuator .comma :: item) ++
      [.punctuator .rightParen]

/-- Puts tokens in parentheses if needed. -/
def parenthesizeIf (needed : Bool) (ts : List TokenKind) : List TokenKind :=
  if needed then .punctuator .leftParen :: ts ++ [.punctuator .rightParen] else ts

/-- A list of arguments that may be left out if it is empty. -/
def PrintStyle.arguments (style : PrintStyle) : List (List TokenKind) → List TokenKind
  | [] => if style.emptyArguments then commaList [] else []
  | args => commaList args

namespace Expr

/-- How tight an expression binds: from 0 for an assignment to 8 for an atom. -/
def level : Expr → Nat
  | .assign _ _ _ => 0
  | .binary op _ _ _ => op.precedence
  | .unary _ _ _ => 7
  | .number _ _ | .string _ _ | .bool _ _ | .name _ | .call _ _ _ | .new _ _ _ => 8

end Expr

mutual

/-- The tokens for an expression. The left operand of an operator stands at its level, the right one
a level tighter, and the operand of a prefix operator has no operator between operands. -/
def Expr.print (style : PrintStyle) : Expr → List TokenKind
  | .number text _ => [.number text]
  | .string value _ => [.string value]
  | .bool value _ => [.keyword (if value then .true else .false)]
  | .name ident => [.identifier ident.name]
  | .unary op operand _ =>
    style.unary op :: parenthesizeIf (operand.level < 7) (Expr.print style operand)
  | .binary op left right _ =>
    parenthesizeIf (left.level < op.precedence) (Expr.print style left) ++ style.binary op ::
      parenthesizeIf (right.level < op.precedence + 1) (Expr.print style right)
  | .assign target value _ =>
    .identifier target.name :: .punctuator .assign :: Expr.print style value
  | .call callee args _ => .identifier callee.name :: commaList (Expr.printAll style args)
  | .new className args _ =>
    .keyword .new :: .identifier className.name :: style.arguments (Expr.printAll style args)

/-- The tokens for each of several expressions. -/
def Expr.printAll (style : PrintStyle) : List Expr → List (List TokenKind)
  | [] => []
  | e :: es => Expr.print style e :: Expr.printAll style es

end

mutual

/-- The tokens for a statement, without a semicolon. There are none for one that could not be
read. -/
def Stmt.print (style : PrintStyle) : Stmt → List TokenKind
  | .var name none _ => [.keyword .var, .identifier name.name]
  | .var name (some value) _ =>
    .keyword .var :: .identifier name.name :: .punctuator .assign :: value.print style
  | .const name value _ =>
    .keyword .const :: .identifier name.name :: .punctuator .assign :: value.print style
  | .func name params body _ =>
    .keyword .func :: .identifier name.name ::
      commaList (params.map fun param => [.identifier param.name]) ++ Block.print style body
  | .class name members _ =>
    .keyword .class :: .identifier name.name :: .punctuator .leftBrace ::
      Stmt.printAll style members ++ [.punctuator .rightBrace]
  | .if condition body none _ =>
    .keyword .if :: condition.print style ++ Block.print style body
  | .if condition body (some alternative) _ =>
    .keyword .if :: condition.print style ++ Block.print style body ++
      .keyword .else :: Stmt.print style alternative
  | .loop body _ => .keyword .loop :: Block.print style body
  | .while condition body _ =>
    .keyword .while :: condition.print style ++ Block.print style body
  | .crud op target args _ =>
    .keyword op.keyword :: .identifier target.name :: style.arguments (Expr.printAll style args)
  | .return none _ => [.keyword .return]
  | .return (some value) _ => .keyword .return :: value.print style
  | .block body => Block.print style body
  | .expr e _ => e.print style
  | .error _ => []

/-- The tokens for a block. -/
def Block.print (style : PrintStyle) : Block Stmt → List TokenKind
  | ⟨stmts, _⟩ => .punctuator .leftBrace :: Stmt.printAll style stmts ++ [.punctuator .rightBrace]

/-- The tokens for statements, with a semicolon behind each of them. -/
def Stmt.printAll (style : PrintStyle) : List Stmt → List TokenKind
  | [] => []
  | stmt :: stmts => Stmt.print style stmt ++ .punctuator .semicolon :: Stmt.printAll style stmts

end

/-- The tokens for a program. -/
def Program.print (style : PrintStyle) (program : Program) : List TokenKind :=
  Stmt.printAll style program.stmts

mutual

/-- No part of the statement could not be read, classes have declarations as members, and what
follows `else` is a conditional or a block. -/
def Stmt.WellFormed : Stmt → Prop
  | .func _ _ body _ => Block.WellFormed body
  | .class _ members _ => (∀ stmt ∈ members, stmt.IsMember) ∧ Stmt.AllWellFormed members
  | .if _ body alternative _ => Block.WellFormed body ∧ Stmt.WellFormed? alternative
  | .loop body _ => Block.WellFormed body
  | .while _ body _ => Block.WellFormed body
  | .block body => Block.WellFormed body
  | .error _ => False
  | .var _ _ _ | .const _ _ _ | .crud _ _ _ _ | .return _ _ | .expr _ _ => True

/-- All statements of the block are well-formed. -/
def Block.WellFormed : Block Stmt → Prop
  | ⟨stmts, _⟩ => Stmt.AllWellFormed stmts

/-- All of the statements are well-formed. -/
def Stmt.AllWellFormed : List Stmt → Prop
  | [] => True
  | stmt :: stmts => stmt.WellFormed ∧ Stmt.AllWellFormed stmts

/-- The statement behind `else` is well-formed, if there is one. -/
def Stmt.WellFormed? : Option Stmt → Prop
  | none => True
  | some stmt => stmt.IsAlternative ∧ stmt.WellFormed

end

/-- All statements of the program are well-formed. -/
def Program.WellFormed (program : Program) : Prop :=
  Stmt.AllWellFormed program.stmts

variable {style : PrintStyle}

theorem Expr.printAll_eq_map (args : List Expr) :
    Expr.printAll style args = args.map (Expr.print style) := by
  induction args with
  | nil => rfl
  | cons arg args ih => rw [Expr.printAll, ih, List.map_cons]

section Lists

variable {α : Type} {item : α → List TokenKind → Prop} {show' : α → List TokenKind} {vs : List α}

theorem FurtherItems.flatMap (h : ∀ v ∈ vs, item v (show' v)) :
    FurtherItems item vs ((vs.map show').flatMap fun ts => .punctuator .comma :: ts) := by
  induction vs with
  | nil => exact .nil
  | cons v vs ih =>
    rw [List.map_cons, List.flatMap_cons]
    exact .cons (h v List.mem_cons_self) (ih fun w hw => h w (List.mem_cons_of_mem v hw))

/-- A list between parentheses is written if each of its items is. -/
theorem ItemList.commaList (h : ∀ v ∈ vs, item v (show' v)) :
    ItemList item vs (commaList (vs.map show')) := by
  cases vs with
  | nil => exact .nil
  | cons v vs =>
    have hothers := FurtherItems.flatMap fun w hw => h w (List.mem_cons_of_mem v hw)
    have hlist := ItemList.cons (h v List.mem_cons_self) hothers (.inl rfl)
    rwa [List.append_nil] at hlist

/-- Arguments are left out only if there are none. -/
theorem PrintStyle.arguments_cases (style : PrintStyle) (h : ∀ v ∈ vs, item v (show' v)) :
    (vs = [] ∧ style.arguments (vs.map show') = []) ∨
      ItemList item vs (style.arguments (vs.map show')) := by
  cases vs with
  | nil =>
    by_cases hempty : style.emptyArguments
    · exact .inr (by simpa [arguments, hempty] using ItemList.commaList h)
    · exact .inl ⟨rfl, by simp [arguments, hempty]⟩
  | cons v vs => exact .inr (.commaList h)

end Lists

namespace Expr

/-- In parentheses where it is needed, an expression may stand at any level. -/
theorem Written.parenthesizeIf {e : Expr} {ts : List TokenKind} (h : Written e.level e ts)
    (level : Nat) : Written level e (parenthesizeIf (e.level < level) ts) := by
  unfold CrudLang.parenthesizeIf
  by_cases hlevel : e.level < level
  · rw [if_pos (by simpa using hlevel)]
    exact .atom (.parentheses (h.of_le (Nat.zero_le _)))
  · rw [if_neg (by simpa using hlevel)]
    exact h.of_le (Nat.le_of_not_lt hlevel)

mutual

/-- A printed expression is written at its own level. -/
theorem written_print (e : Expr) : Written e.level e (e.print style) := by
  match e with
  | .number _ _ => exact .atom .number
  | .string _ _ => exact .atom .string
  | .bool _ _ => exact .atom .bool
  | .name _ => exact .atom .name
  | .unary op operand span =>
    exact .unary (Nat.le_refl 7) (style.ofKind?_unary op) ((written_print operand).parenthesizeIf 7)
  -- the right operand stands one level higher, so the row groups to the left
  | .binary op left right span =>
    exact .binary (Nat.le_refl _) (style.ofKind?_binary op)
      ((written_print left).parenthesizeIf _) ((written_print right).parenthesizeIf _)
  | .assign target value span => exact .assign ((written_print value).of_le (Nat.zero_le _))
  | .call callee args span =>
    rw [Expr.print, Expr.printAll_eq_map]
    exact .atom (.call (.commaList (written_printAll args)))
  | .new className args span =>
    rw [Expr.print, Expr.printAll_eq_map]
    rcases style.arguments_cases (written_printAll args) with ⟨rfl, heq⟩ | hargs
    · rw [heq]
      exact .atom .new
    · exact .atom (.newWith hargs)

theorem written_printAll (args : List Expr) : ∀ e ∈ args, Written 0 e (e.print style) := by
  match args with
  | [] => simp
  | arg :: args =>
    intro e hmem
    rcases List.mem_cons.1 hmem with he | he
    · rw [he]
      exact (written_print arg).of_le (Nat.zero_le _)
    · exact written_printAll args e he

end

/-- A printed expression may stand wherever any expression may. -/
theorem written_zero_print (e : Expr) : Written 0 e (e.print style) :=
  (written_print e).of_le (Nat.zero_le _)

end Expr

/-- A semicolon settles every statement that could be read. -/
theorem Stmt.Settled.of_semicolon {stmt : Stmt} {ts us : List TokenKind}
    (hstmt : ∀ span, stmt ≠ .error span) : stmt.Settled ts (.punctuator .semicolon :: us) := by
  refine .of_stops hstmt fun k hk => ?_
  obtain rfl := Option.some.inj hk
  simp [TokenKind.Stops, TokenKind.startsExpression, BinaryOp.ofKind?]

theorem Stmt.WellFormed.ne_error {stmt : Stmt} (h : stmt.WellFormed) (span : Span) :
    stmt ≠ .error span := by
  rintro rfl
  exact h

mutual

/-- A printed statement is written, and all statements inside are settled. -/
theorem Stmt.written_print {stmt : Stmt} (h : stmt.WellFormed) :
    Stmt.Written .settled stmt (stmt.print style) := by
  match stmt, h with
  | .var _ none _, _ => exact .var
  | .var _ (some value) _, _ => exact .varWith value.written_zero_print
  | .const _ value _, _ => exact .const value.written_zero_print
  | .func _ params _ _, h =>
    have hparams : ItemList Ident.Written params
        (commaList (params.map fun param => [.identifier param.name])) := .commaList fun _ _ => rfl
    exact .func hparams (Block.written_print h)
  | .class _ _ _, ⟨hmembers, h⟩ =>
    exact .class (Stmt.listWritten_printAll h fun stmt hstmt _ => hmembers stmt hstmt)
  | .if condition _ none _, ⟨hbody, _⟩ =>
    exact .if condition.written_zero_print (Block.written_print hbody)
  | .if condition _ (some _) _, ⟨hbody, hkind, h⟩ =>
    exact .ifElse condition.written_zero_print (Block.written_print hbody) hkind
      (Stmt.written_print h)
  | .loop _ _, h => exact .loop (Block.written_print h)
  | .while condition _ _, h =>
    exact .while condition.written_zero_print (Block.written_print h)
  | .crud op target args span, _ =>
    have hwritten : ∀ e ∈ args, Expr.Written 0 e (e.print style) := fun e _ => e.written_zero_print
    rw [Stmt.print, Expr.printAll_eq_map]
    rcases style.arguments_cases hwritten with ⟨rfl, heq⟩ | hargs
    · rw [heq]
      exact .crud
    · exact .crudWith hargs
  | .return none _, _ => exact .return
  | .return (some value) _, _ => exact .returnWith value.written_zero_print
  | .block _, h => exact .block (Block.written_print h)
  | .expr e _, _ => exact .expr e.written_zero_print

theorem Block.written_print {body : Block Stmt} (h : Block.WellFormed body) :
    Block.Written .settled body (Block.print style body) := by
  match body, h with
  | ⟨_, _⟩, h =>
    exact .braces (Stmt.listWritten_printAll h fun _ _ hstmt => .of_semicolon hstmt.ne_error)

/-- Printed statements are written one behind the other. -/
theorem Stmt.listWritten_printAll {next : Follow} {stmts : List Stmt} (h : Stmt.AllWellFormed stmts)
    (hnext : ∀ stmt ∈ stmts, stmt.WellFormed → ∀ {ts us},
      next stmt ts (.punctuator .semicolon :: us)) :
    Stmt.ListWritten .settled next stmts (Stmt.printAll style stmts) := by
  match stmts, h with
  | [], _ => exact .nil
  | stmt :: stmts, ⟨hstmt, hstmts⟩ =>
    have hrest := Stmt.listWritten_printAll hstmts
      fun stmt' hmem => hnext stmt' (List.mem_cons_of_mem stmt hmem)
    have hcons := Stmt.ListWritten.cons (Stmt.written_print hstmt) (.inr rfl)
      (hnext stmt List.mem_cons_self hstmt) hrest
    rwa [List.append_assoc] at hcons

end

/-- Reading undoes printing: the tokens printed for a well-formed program are read without a
diagnostic as the same program up to spans. -/
theorem Parsing.eraseSpans_program_of_print {program : Program} {tokens : List Token}
    (lines : LineIndex) (hprogram : program.WellFormed)
    (htokens : kindsOf tokens = program.print style) :
    (ofTokens tokens).diagnostics lines tokens = [] ∧
      (ofTokens tokens).program.map Program.eraseSpans = some program.eraseSpans := by
  have hwritten : Stmt.ListWritten .settled .settled program.stmts (kindsOf tokens) := by
    rw [htokens]
    exact Stmt.listWritten_printAll hprogram fun _ _ hstmt => .of_semicolon hstmt.ne_error
  obtain ⟨program', hread, hstmts, hsilent⟩ := exists_program_of_settled hwritten
  refine ⟨by rw [diagnostics, hsilent, List.map_nil], ?_⟩
  rw [hread, Option.map_some, Program.eraseSpans, Program.eraseSpans, hstmts]

/-- The conditional `if a - (b - c) { x = y = 1; } else { };`, where the right operand of the first
difference is a difference and the value assigned is an assignment. -/
theorem Parsing.eraseSpans_program_of_print_conditional :
    let name (text : String) : Ident := ⟨text, default⟩
    let difference (left right : Expr) : Expr := .binary .sub left right default
    let condition := difference (.name (name "a"))
      (difference (.name (name "b")) (.name (name "c")))
    let value := Expr.assign (name "y") (.number "1" default) default
    let body : Block Stmt := ⟨[.expr (.assign (name "x") value default) default], default⟩
    let program : Program := ⟨[.if condition body (some (.block ⟨[], default⟩)) default], default⟩
    let kinds : List TokenKind :=
      [.keyword .if, .identifier "a", .punctuator .minus, .punctuator .leftParen, .identifier "b",
        .punctuator .minus, .identifier "c", .punctuator .rightParen, .punctuator .leftBrace,
        .identifier "x", .punctuator .assign, .identifier "y", .punctuator .assign, .number "1",
        .punctuator .semicolon, .punctuator .rightBrace, .keyword .else, .punctuator .leftBrace,
        .punctuator .rightBrace, .punctuator .semicolon]
    let tokens : List Token := kinds.map fun kind => ⟨kind, kind.text, 1, default⟩
    let lines := LineIndex.ofSource ""
    program.WellFormed ∧ kindsOf tokens = program.print .signs ∧
      (ofTokens tokens).diagnostics lines tokens = [] ∧
      (ofTokens tokens).program.map Program.eraseSpans = some program.eraseSpans := by
  intro name difference condition value body program kinds tokens lines
  have hprogram : program.WellFormed := ⟨⟨⟨trivial, trivial⟩, trivial, trivial⟩, trivial⟩
  have htokens : kindsOf tokens = program.print .signs := by decide +kernel
  exact ⟨hprogram, htokens, eraseSpans_program_of_print lines hprogram htokens⟩

end CrudLang
