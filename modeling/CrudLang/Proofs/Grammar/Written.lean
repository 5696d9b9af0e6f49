import CrudLang.Syntax.Statement

/-!
# How trees are written

`Expr.Written` and `Stmt.Written` say which lists of token kinds spell a tree: keywords, names,
literals and operators stand in their grammatical places, and parentheses, commas and semicolons
that the tree does not record may be filled in. Reading such a list back from left to right, each
of its tokens belongs to one node. A statement that could not be read stands for a run of tokens.

Expressions are written at a level: level 0 takes any expression, the levels 1 to 6 take the
operators of that precedence and of the tighter ones, level 7 takes prefix operators and level 8
only atoms. The left operand of an operator is written at its level and the right one
a level tighter.

Statements follow one another without a separator, so what may come next matters to some uses. It
is left to a relation `Follow` between a statement, its tokens and the tokens behind it.
-/

namespace CrudLang

namespace UnaryOp

/-- The prefix operator that a token stands for. -/
def ofKind? : TokenKind → Option UnaryOp
  | .punctuator .minus => some .neg
  | .punctuator .bang => some .not
  | .keyword .not => some .not
  | _ => none

end UnaryOp

namespace BinaryOp

/-- The operator between operands that a token stands for. -/
def ofKind? : TokenKind → Option BinaryOp
  | .punctuator .plus => some .add
  | .punctuator .minus => some .sub
  | .punctuator .star => some .mul
  | .punctuator .slash => some .div
  | .punctuator .percent => some .rem
  | .punctuator .equal => some .eq
  | .punctuator .notEqual => some .notEq
  | .punctuator .less => some .lt
  | .punctuator .lessEqual => some .ltEq
  | .punctuator .greater => some .gt
  | .punctuator .greaterEqual => some .gtEq
  | .punctuator .andAnd => some .and
  | .keyword .and => some .and
  | .punctuator .orOr => some .or
  | .keyword .or => some .or
  | _ => none

/-- How tight an operator binds. -/
def precedence : BinaryOp → Nat
  | .or => 1
  | .and => 2
  | .eq | .notEq => 3
  | .lt | .ltEq | .gt | .gtEq => 4
  | .add | .sub => 5
  | .mul | .div | .rem => 6

end BinaryOp

namespace CrudOp

/-- The keyword of an operation. -/
def keyword : CrudOp → Keyword
  | .create => .create
  | .read => .read
  | .update => .update
  | .delete => .delete

end CrudOp

section Lists

variable {α : Type}

/-- A punctuator that may be there or not. -/
def Optionally (p : Punctuator) (ts : List TokenKind) : Prop :=
  ts = [] ∨ ts = [.punctuator p]

/-- Further items of a list, each behind a comma. -/
inductive FurtherItems (item : α → List TokenKind → Prop) : List α → List TokenKind → Prop
  | nil : FurtherItems item [] []
  | cons {v vs ts us} : item v ts → FurtherItems item vs us →
      FurtherItems item (v :: vs) (.punctuator .comma :: ts ++ us)

/-- Items between parentheses, with commas between them and maybe one behind the last. -/
inductive ItemList (item : α → List TokenKind → Prop) : List α → List TokenKind → Prop
  | nil : ItemList item [] [.punctuator .leftParen, .punctuator .rightParen]
  | cons {v vs ts us last} : item v ts → FurtherItems item vs us → Optionally .comma last →
      ItemList item (v :: vs)
        (.punctuator .leftParen :: ts ++ us ++ last ++ [.punctuator .rightParen])

end Lists

/-- An identifier is written by its name. -/
def Ident.Written (ident : Ident) (ts : List TokenKind) : Prop :=
  ts = [.identifier ident.name]

mutual

/-- How an atom is written: an expression without operators, or any expression in parentheses. -/
inductive Expr.AtomWritten : Expr → List TokenKind → Prop
  | number {text span} : Expr.AtomWritten (.number text span) [.number text]
  | string {value span} : Expr.AtomWritten (.string value span) [.string value]
  | bool {value span} :
      Expr.AtomWritten (.bool value span) [.keyword (if value then .true else .false)]
  | name {ident} : Expr.AtomWritten (.name ident) [.identifier ident.name]
  | new {className span} :
      Expr.AtomWritten (.new className [] span) [.keyword .new, .identifier className.name]
  | newWith {className args span ts} : ItemList (Expr.Written 0) args ts →
      Expr.AtomWritten (.new className args span)
        (.keyword .new :: .identifier className.name :: ts)
  | call {callee args span ts} : ItemList (Expr.Written 0) args ts →
      Expr.AtomWritten (.call callee args span) (.identifier callee.name :: ts)
  | parentheses {e ts} : Expr.Written 0 e ts →
      Expr.AtomWritten e (.punctuator .leftParen :: ts ++ [.punctuator .rightParen])

/-- How an expression is written at a level. -/
inductive Expr.Written : Nat → Expr → List TokenKind → Prop
  | atom {level e ts} : Expr.AtomWritten e ts → Expr.Written level e ts
  | unary {level op operand span k ts} : level ≤ 7 → UnaryOp.ofKind? k = some op →
      Expr.Written 7 operand ts → Expr.Written level (.unary op operand span) (k :: ts)
  | binary {level op left right span k ls rs} : level ≤ op.precedence →
      BinaryOp.ofKind? k = some op → Expr.Written op.precedence left ls →
      Expr.Written (op.precedence + 1) right rs →
      Expr.Written level (.binary op left right span) (ls ++ k :: rs)
  | assign {target value span ts} : Expr.Written 0 value ts →
      Expr.Written 0 (.assign target value span)
        (.identifier target.name :: .punctuator .assign :: ts)

end

/-- What a class may have as a member. -/
def Stmt.IsMember : Stmt → Prop
  | .var _ _ _ | .const _ _ _ | .func _ _ _ _ => True
  | _ => False

/-- What may follow `else`. -/
def Stmt.IsAlternative : Stmt → Prop
  | .if _ _ _ _ | .block _ => True
  | _ => False

/-- A condition on a statement, the tokens that spell it without a semicolon, and the tokens
behind it up to the end of the list of statements that it stands in. -/
abbrev Follow :=
  Stmt → List TokenKind → List TokenKind → Prop

namespace Follow

/-- Anything may follow. -/
def any : Follow :=
  fun _ _ _ => True

/-- The statement is a member of a class. -/
def isMember : Follow :=
  fun stmt _ _ => stmt.IsMember

end Follow

mutual

/-- How a statement is written, without a semicolon behind it. -/
inductive Stmt.Written (follow : Follow) : Stmt → List TokenKind → Prop
  | var {name span} :
      Stmt.Written follow (.var name none span) [.keyword .var, .identifier name.name]
  | varWith {name value span ts} : Expr.Written 0 value ts →
      Stmt.Written follow (.var name (some value) span)
        (.keyword .var :: .identifier name.name :: .punctuator .assign :: ts)
  | const {name value span ts} : Expr.Written 0 value ts →
      Stmt.Written follow (.const name value span)
        (.keyword .const :: .identifier name.name :: .punctuator .assign :: ts)
  | func {name params body span ts us} : ItemList Ident.Written params ts →
      Block.Written follow body us →
      Stmt.Written follow (.func name params body span)
        (.keyword .func :: .identifier name.name :: ts ++ us)
  | «class» {name members span ts} : Stmt.ListWritten follow .isMember members ts →
      Stmt.Written follow (.class name members span)
        (.keyword .class :: .identifier name.name :: .punctuator .leftBrace :: ts ++
          [.punctuator .rightBrace])
  | «if» {condition body span ts us} : Expr.Written 0 condition ts →
      Block.Written follow body us →
      Stmt.Written follow (.if condition body none span) (.keyword .if :: ts ++ us)
  | ifElse {condition body alternative span ts us vs} : Expr.Written 0 condition ts →
      Block.Written follow body us → alternative.IsAlternative →
      Stmt.Written follow alternative vs →
      Stmt.Written follow (.if condition body (some alternative) span)
        (.keyword .if :: ts ++ us ++ .keyword .else :: vs)
  | loop {body span ts} : Block.Written follow body ts →
      Stmt.Written follow (.loop body span) (.keyword .loop :: ts)
  | «while» {condition body span ts us} : Expr.Written 0 condition ts →
      Block.Written follow body us →
      Stmt.Written follow (.while condition body span) (.keyword .while :: ts ++ us)
  | crud {op target span} :
      Stmt.Written follow (.crud op target [] span)
        [.keyword op.keyword, .identifier target.name]
  | crudWith {op target args span ts} : ItemList (Expr.Written 0) args ts →
      Stmt.Written follow (.crud op target args span)
        (.keyword op.keyword :: .identifier target.name :: ts)
  | «return» {span} : Stmt.Written follow (.return none span) [.keyword .return]
  | returnWith {value span ts} : Expr.Written 0 value ts →
      Stmt.Written follow (.return (some value) span) (.keyword .return :: ts)
  | block {body ts} : Block.Written follow body ts → Stmt.Written follow (.block body) ts
  | expr {e span ts} : Expr.Written 0 e ts → Stmt.Written follow (.expr e span) ts
  | error {span ts} : ts ≠ [] → Stmt.Written follow (.error span) ts

/-- How a block is written. -/
inductive Block.Written (follow : Follow) : Block Stmt → List TokenKind → Prop
  | braces {stmts span ts} : Stmt.ListWritten follow follow stmts ts →
      Block.Written follow ⟨stmts, span⟩
        (.punctuator .leftBrace :: ts ++ [.punctuator .rightBrace])

/-- How statements are written one behind the other, each with a semicolon or without. What may
follow each of them is said by the second relation, and the first one holds inside them. -/
inductive Stmt.ListWritten (follow : Follow) : Follow → List Stmt → List TokenKind → Prop
  | nil {next : Follow} : Stmt.ListWritten follow next [] []
  | cons {next : Follow} {stmt stmts ts semi us} : Stmt.Written follow stmt ts →
      Optionally .semicolon semi → next stmt ts (semi ++ us) →
      Stmt.ListWritten follow next stmts us →
      Stmt.ListWritten follow next (stmt :: stmts) (ts ++ semi ++ us)

end

/-- How a program is written: nothing is asked of what follows a statement. -/
def Program.Written (program : Program) (ts : List TokenKind) : Prop :=
  Stmt.ListWritten .any .any program.stmts ts

mutual

/-- The number of statements in a statement that could not be read, at every depth. -/
def Stmt.errorCount : Stmt → Nat
  | .func _ _ body _ => Block.errorCount body
  | .class _ members _ => Stmt.errorCountOfAll members
  | .if _ body alternative _ => Block.errorCount body + Stmt.errorCountOf? alternative
  | .loop body _ => Block.errorCount body
  | .while _ body _ => Block.errorCount body
  | .block body => Block.errorCount body
  | .error _ => 1
  | .var _ _ _ | .const _ _ _ | .crud _ _ _ _ | .return _ _ | .expr _ _ => 0

/-- The number of statements in a block that could not be read. -/
def Block.errorCount : Block Stmt → Nat
  | ⟨stmts, _⟩ => Stmt.errorCountOfAll stmts

/-- The number of statements among statements that could not be read. -/
def Stmt.errorCountOfAll : List Stmt → Nat
  | [] => 0
  | stmt :: rest => stmt.errorCount + Stmt.errorCountOfAll rest

/-- The number of statements behind `else` that could not be read. -/
def Stmt.errorCountOf? : Option Stmt → Nat
  | none => 0
  | some stmt => stmt.errorCount

end

/-- The number of statements of a program that could not be read, at every depth. -/
def Program.errorCount (program : Program) : Nat :=
  Stmt.errorCountOfAll program.stmts

namespace Expr

/-- An atom has at least one token. -/
theorem AtomWritten.ne_nil {e : Expr} {ts : List TokenKind} (h : AtomWritten e ts) : ts ≠ [] := by
  cases h <;> simp

namespace Written

/-- Whatever is written at a level may stand at every looser one. -/
theorem of_le {level level' : Nat} {e : Expr} {ts : List TokenKind} (h : Written level e ts)
    (hle : level' ≤ level) : Written level' e ts := by
  cases h with
  | atom he => exact .atom he
  | unary hlevel hop he => exact .unary (Nat.le_trans hle hlevel) hop he
  | binary hlevel hop hl hr => exact .binary (Nat.le_trans hle hlevel) hop hl hr
  | assign hvalue =>
    obtain rfl := Nat.le_zero.1 hle
    exact .assign hvalue

/-- An expression has at least one token. -/
theorem ne_nil {level : Nat} {e : Expr} {ts : List TokenKind} (h : Written level e ts) :
    ts ≠ [] := by
  cases h with
  | atom he => exact he.ne_nil
  | _ => simp

/-- An expression is an assignment, or it stands at the level above. -/
theorem one_or_assign {e : Expr} {ts : List TokenKind} (h : Written 0 e ts) :
    Written 1 e ts ∨ ∃ target value span us, e = .assign target value span ∧
      ts = .identifier target.name :: .punctuator .assign :: us ∧ Written 0 value us := by
  cases h with
  | atom he => exact .inl (.atom he)
  | unary _ hop he => exact .inl (.unary (by decide) hop he)
  | @binary _ op _ _ _ _ _ _ _ hop hl hr => exact .inl (.binary (by cases op <;> decide) hop hl hr)
  | @assign target value span us hvalue => exact .inr ⟨target, value, span, us, rfl, rfl, hvalue⟩

/-- An operand is an atom, or it has a prefix operator. -/
theorem atom_or_unary {e : Expr} {ts : List TokenKind} (h : Written 7 e ts) :
    AtomWritten e ts ∨ ∃ op operand k us, ts = k :: us ∧ UnaryOp.ofKind? k = some op ∧
      Written 7 operand us := by
  cases h with
  | atom he => exact .inl he
  | @unary _ op operand _ k us _ hop he => exact .inr ⟨op, operand, k, us, rfl, hop, he⟩
  | @binary _ op _ _ _ _ _ _ hlevel _ _ _ => exact absurd hlevel (by cases op <;> decide)

end Written

end Expr

/-- A block begins with its opening brace. -/
theorem Block.Written.exists_head {follow : Follow} {body : Block Stmt} {ts : List TokenKind}
    (h : Block.Written follow body ts) : ∃ us, ts = .punctuator .leftBrace :: us := by
  cases h
  exact ⟨_, rfl⟩

/-- A statement has at least one token. -/
theorem Stmt.Written.ne_nil {follow : Follow} {stmt : Stmt} {ts : List TokenKind}
    (h : Stmt.Written follow stmt ts) : ts ≠ [] := by
  cases h with
  | block hbody =>
    obtain ⟨us, rfl⟩ := hbody.exists_head
    exact List.cons_ne_nil _ us
  | expr he => exact he.ne_nil
  | error hts => exact hts
  | _ => simp

section Follow

variable {follow follow' : Follow}

mutual

/-- Less may be asked of what follows. -/
theorem Stmt.Written.mono (h : ∀ stmt ts us, follow stmt ts us → follow' stmt ts us)
    {stmt : Stmt} {ts : List TokenKind} :
    Stmt.Written follow stmt ts → Stmt.Written follow' stmt ts
  | .var => .var
  | .varWith hvalue => .varWith hvalue
  | .const hvalue => .const hvalue
  | .func hparams hbody => .func hparams (Block.Written.mono h hbody)
  | .class hmembers => .class (Stmt.ListWritten.mono h (fun _ _ _ hmember => hmember) hmembers)
  | .if hcondition hbody => .if hcondition (Block.Written.mono h hbody)
  | .ifElse hcondition hbody hkind hstmt =>
    .ifElse hcondition (Block.Written.mono h hbody) hkind (Stmt.Written.mono h hstmt)
  | .loop hbody => .loop (Block.Written.mono h hbody)
  | .while hcondition hbody => .while hcondition (Block.Written.mono h hbody)
  | .crud => .crud
  | .crudWith hargs => .crudWith hargs
  | .return => .return
  | .returnWith hvalue => .returnWith hvalue
  | .block hbody => .block (Block.Written.mono h hbody)
  | .expr he => .expr he
  | .error hts => .error hts

theorem Block.Written.mono (h : ∀ stmt ts us, follow stmt ts us → follow' stmt ts us)
    {body : Block Stmt} {ts : List TokenKind} :
    Block.Written follow body ts → Block.Written follow' body ts
  | .braces hstmts => .braces (Stmt.ListWritten.mono h h hstmts)

theorem Stmt.ListWritten.mono (h : ∀ stmt ts us, follow stmt ts us → follow' stmt ts us)
    {next next' : Follow}
    (hnext : ∀ stmt ts us, next stmt ts us → next' stmt ts us) {stmts : List Stmt}
    {ts : List TokenKind} :
    Stmt.ListWritten follow next stmts ts → Stmt.ListWritten follow' next' stmts ts
  | .nil => .nil
  | .cons hstmt hsemi hfollow hstmts =>
    .cons (Stmt.Written.mono h hstmt) hsemi (hnext _ _ _ hfollow)
      (Stmt.ListWritten.mono h hnext hstmts)

end

end Follow

end CrudLang
