import CrudLang.Proofs.Grammar.Accepted
import CrudLang.Proofs.Grammar.Settling

/-!
# Where pieces of a writing end

Parentheses, commas and semicolons can be filled into a writing, all other tokens are recorded in
the tree: a tree tells how many of them spell it (`Stmt.Written.recordedCount_eq`). So if the same
tokens begin with two writings of one tree, these differ in parentheses, commas and semicolons at
the end of the longer one. What stands behind the shorter one then begins with these, and a
statement begins with nothing of that sort but opening parentheses, which end no expression. Hence
tokens can be cut in one way only into pieces that spell given trees (`Piece.cut`), although the
language does not separate statements.
-/

namespace CrudLang

/-- Whether a token is recorded in the tree that it spells a part of. -/
def TokenKind.isRecorded : TokenKind → Bool
  | .punctuator p => p ∉ [Punctuator.leftParen, .rightParen, .comma, .semicolon]
  | _ => true

/-- The number of tokens that are recorded in a tree. -/
def recordedCount (ts : List TokenKind) : Nat :=
  ts.countP TokenKind.isRecorded

section Count

variable {k : TokenKind} {ts us : List TokenKind}

/-- No tokens, none recorded. -/
@[simp] theorem recordedCount_nil : recordedCount [] = 0 := rfl

/-- The recorded tokens of two pieces add up. -/
@[simp] theorem recordedCount_append :
    recordedCount (ts ++ us) = recordedCount ts + recordedCount us :=
  List.countP_append

/-- A first token counts if it is recorded. -/
@[simp] theorem recordedCount_cons :
    recordedCount (k :: ts) = recordedCount ts + if k.isRecorded then 1 else 0 :=
  List.countP_cons

/-- Names are recorded. -/
@[simp] theorem TokenKind.isRecorded_identifier (name : String) :
    (TokenKind.identifier name).isRecorded = true := rfl

/-- Keywords are recorded. -/
@[simp] theorem TokenKind.isRecorded_keyword (word : Keyword) :
    (TokenKind.keyword word).isRecorded = true := rfl

/-- Operators between operands are recorded. -/
theorem BinaryOp.isRecorded {op : BinaryOp} (h : BinaryOp.ofKind? k = some op) :
    k.isRecorded = true := by
  unfold BinaryOp.ofKind? at h
  split at h <;> first | rfl | cases h

/-- Operators in front of an operand are recorded. -/
theorem UnaryOp.isRecorded {op : UnaryOp} (h : UnaryOp.ofKind? k = some op) :
    k.isRecorded = true := by
  unfold UnaryOp.ofKind? at h
  split at h <;> first | rfl | cases h

/-- A sign that can be filled in is not counted. -/
theorem Optionally.recordedCount_eq {p : Punctuator} (h : Optionally p ts)
    (hp : (TokenKind.punctuator p).isRecorded = false) : recordedCount ts = 0 := by
  rcases h with rfl | rfl
  · rfl
  · rw [recordedCount_cons, hp]
    rfl

end Count

mutual

/-- The number of tokens that an expression records. -/
def Expr.tokenCount : Expr → Nat
  | .number _ _ | .string _ _ | .bool _ _ | .name _ => 1
  | .unary _ operand _ => operand.tokenCount + 1
  | .binary _ left right _ => left.tokenCount + (right.tokenCount + 1)
  | .assign _ value _ => value.tokenCount + 2
  | .call _ args _ => Expr.tokenCountOfAll args + 1
  | .new _ args _ => Expr.tokenCountOfAll args + 2

/-- The number of tokens that expressions record. -/
def Expr.tokenCountOfAll : List Expr → Nat
  | [] => 0
  | expr :: rest => expr.tokenCount + Expr.tokenCountOfAll rest

end

mutual

/-- The number of tokens that a statement records, if it could be read. -/
def Stmt.tokenCount : Stmt → Nat
  | .var _ none _ => 2
  | .var _ (some value) _ | .const _ value _ => value.tokenCount + 3
  | .func _ params body _ => params.length + Block.tokenCount body + 2
  | .class _ members _ => Stmt.tokenCountOfAll members + 4
  | .if condition body alternative _ =>
    condition.tokenCount + Block.tokenCount body + Stmt.tokenCountOf? alternative + 1
  | .loop body _ => Block.tokenCount body + 1
  | .while condition body _ => condition.tokenCount + Block.tokenCount body + 1
  | .crud _ _ args _ => Expr.tokenCountOfAll args + 2
  | .return none _ => 1
  | .return (some value) _ => value.tokenCount + 1
  | .block body => Block.tokenCount body
  | .expr expr _ => expr.tokenCount
  | .error _ => 0

/-- The number of tokens that a block records. -/
def Block.tokenCount : Block Stmt → Nat
  | ⟨stmts, _⟩ => Stmt.tokenCountOfAll stmts + 2

/-- The number of tokens that statements record. -/
def Stmt.tokenCountOfAll : List Stmt → Nat
  | [] => 0
  | stmt :: rest => stmt.tokenCount + Stmt.tokenCountOfAll rest

/-- The number of tokens that a statement behind `else` records, with that keyword. -/
def Stmt.tokenCountOf? : Option Stmt → Nat
  | none => 0
  | some stmt => stmt.tokenCount + 1

end

mutual

/-- An operand tells how many recorded tokens spell it. -/
theorem Expr.AtomWritten.recordedCount_eq {e : Expr} {ts : List TokenKind}
    (h : Expr.AtomWritten e ts) : recordedCount ts = e.tokenCount := by
  match h with
  | .number | .string | .name | .new => rfl
  | @Expr.AtomWritten.bool value _ => cases value <;> rfl
  | .newWith hargs => simp [recordedCount_args hargs, Expr.tokenCount]
  | .call hargs => simp [recordedCount_args hargs, Expr.tokenCount]
  | .parentheses he => simp [he.recordedCount_eq, TokenKind.isRecorded]

/-- An expression tells how many of the tokens that spell it are recorded. -/
theorem Expr.Written.recordedCount_eq {level : Nat} {e : Expr} {ts : List TokenKind}
    (h : Expr.Written level e ts) : recordedCount ts = e.tokenCount := by
  match h with
  | .atom he => exact he.recordedCount_eq
  | .unary _ hop he => simp [he.recordedCount_eq, UnaryOp.isRecorded hop, Expr.tokenCount]
  | .binary _ hop hl hr =>
    simp [hl.recordedCount_eq, hr.recordedCount_eq, BinaryOp.isRecorded hop, Expr.tokenCount]
  | .assign hvalue => simp [hvalue.recordedCount_eq, TokenKind.isRecorded, Expr.tokenCount]

/-- So do arguments. -/
theorem recordedCount_args {args : List Expr} {ts : List TokenKind}
    (h : ItemList (Expr.Written 0) args ts) : recordedCount ts = Expr.tokenCountOfAll args := by
  match h with
  | .nil => rfl
  | .cons he hes hlast =>
    simp [he.recordedCount_eq, recordedCount_furtherArgs hes, hlast.recordedCount_eq rfl,
      TokenKind.isRecorded, Expr.tokenCountOfAll]

/-- So do the arguments behind the first one. -/
theorem recordedCount_furtherArgs {args : List Expr} {ts : List TokenKind}
    (h : FurtherItems (Expr.Written 0) args ts) :
    recordedCount ts = Expr.tokenCountOfAll args := by
  match h with
  | .nil => rfl
  | .cons he hes =>
    simp [he.recordedCount_eq, recordedCount_furtherArgs hes, TokenKind.isRecorded,
      Expr.tokenCountOfAll]

end

/-- So do the parameters behind the first one. -/
theorem recordedCount_furtherParams {params : List Ident} {ts : List TokenKind}
    (h : FurtherItems Ident.Written params ts) : recordedCount ts = params.length := by
  induction h with
  | nil => rfl
  | cons hparam _ ih =>
    obtain rfl := hparam
    simp [ih, TokenKind.isRecorded]

/-- So do parameters. -/
theorem recordedCount_params {params : List Ident} {ts : List TokenKind}
    (h : ItemList Ident.Written params ts) : recordedCount ts = params.length := by
  cases h with
  | nil => rfl
  | cons hparam hparams hlast =>
    obtain rfl := hparam
    simp [recordedCount_furtherParams hparams, hlast.recordedCount_eq rfl, TokenKind.isRecorded]

mutual

/-- A statement that could be read tells how many of the tokens that spell it are recorded. -/
theorem Stmt.Written.recordedCount_eq {follow : Follow} {stmt : Stmt} {ts : List TokenKind}
    (h : Stmt.Written follow stmt ts) (hcount : stmt.errorCount = 0) :
    recordedCount ts = stmt.tokenCount := by
  match h with
  | .var | .return | .crud => rfl
  | .varWith hvalue | .const hvalue =>
    simp [hvalue.recordedCount_eq, TokenKind.isRecorded, Stmt.tokenCount]
  | .func hparams hbody =>
    simp [recordedCount_params hparams, Block.Written.recordedCount_eq hbody hcount,
      Stmt.tokenCount]
  | .class hmembers =>
    simp [Stmt.ListWritten.recordedCount_eq hmembers hcount, TokenKind.isRecorded, Stmt.tokenCount]
  | .if hcondition hbody =>
    have hbody := Block.Written.recordedCount_eq hbody (Nat.add_eq_zero_iff.1 hcount).1
    simp [hcondition.recordedCount_eq, hbody, Stmt.tokenCount, Stmt.tokenCountOf?]
  -- the errors of the two parts add up to none, so each part has none
  | .ifElse hcondition hbody _ halternative =>
    obtain ⟨hcount, hcount'⟩ := Nat.add_eq_zero_iff.1 hcount
    have hbody := Block.Written.recordedCount_eq hbody hcount
    have halternative := Stmt.Written.recordedCount_eq halternative hcount'
    simp [hcondition.recordedCount_eq, hbody, halternative, Stmt.tokenCount, Stmt.tokenCountOf?]
    omega
  | .loop hbody => simp [Block.Written.recordedCount_eq hbody hcount, Stmt.tokenCount]
  | .while hcondition hbody =>
    simp [hcondition.recordedCount_eq, Block.Written.recordedCount_eq hbody hcount,
      Stmt.tokenCount]
  | .crudWith hargs => simp [recordedCount_args hargs, Stmt.tokenCount]
  | .returnWith hvalue => simp [hvalue.recordedCount_eq, Stmt.tokenCount]
  | .block hbody => exact Block.Written.recordedCount_eq hbody hcount
  | .expr he => exact he.recordedCount_eq
  | .error _ => cases hcount

/-- So does a block in which everything could be read. -/
theorem Block.Written.recordedCount_eq {follow : Follow} {body : Block Stmt} {ts : List TokenKind}
    (h : Block.Written follow body ts) (hcount : Block.errorCount body = 0) :
    recordedCount ts = Block.tokenCount body := by
  match body, h with
  | _, .braces hstmts =>
    simp [Stmt.ListWritten.recordedCount_eq hstmts hcount, TokenKind.isRecorded, Block.tokenCount]

/-- So do statements that could all be read. -/
theorem Stmt.ListWritten.recordedCount_eq {follow next : Follow} {stmts : List Stmt}
    {ts : List TokenKind} (h : Stmt.ListWritten follow next stmts ts)
    (hcount : Stmt.errorCountOfAll stmts = 0) : recordedCount ts = Stmt.tokenCountOfAll stmts := by
  match h with
  | .nil => rfl
  | .cons hstmt hsemi _ hstmts =>
    obtain ⟨hcount, hcount'⟩ := Nat.add_eq_zero_iff.1 hcount
    simp [Stmt.Written.recordedCount_eq hstmt hcount, hsemi.recordedCount_eq rfl,
      Stmt.ListWritten.recordedCount_eq hstmts hcount', Stmt.tokenCountOfAll]

end

namespace Piece

/-- A piece of a writing may end like this: neither with an opening parenthesis nor with a
semicolon. -/
def Ends (ts : List TokenKind) : Prop :=
  ∀ k, ts.getLast? = some k → k ≠ .punctuator .leftParen ∧ k ≠ .punctuator .semicolon

/-- What stands behind a piece of a writing may begin like this: with semicolons and opening
parentheses, and then a token that is recorded, or nothing. -/
def Begins (ts : List TokenKind) : Prop :=
  ∃ before after, ts = before ++ after ∧
    (∀ k ∈ before, k = .punctuator .leftParen ∨ k = .punctuator .semicolon) ∧
      ∀ k, after.head? = some k → k.isRecorded

variable {k : TokenKind} {ts us xs : List TokenKind}

namespace Ends

/-- The end of the last part is the end of the whole. -/
theorem append (ts : List TokenKind) (h : Ends us) (hus : us ≠ []) : Ends (ts ++ us) := by
  rwa [Ends, List.getLast?_append_of_ne_nil ts hus]

/-- A token in front does not change the end. -/
theorem cons (h : Ends us) (hus : us ≠ []) : Ends (k :: us) :=
  append [k] h hus

/-- A token other than an opening parenthesis and a semicolon ends a piece. -/
theorem concat (ts : List TokenKind)
    (h : k ≠ .punctuator .leftParen ∧ k ≠ .punctuator .semicolon) : Ends (ts ++ [k]) := by
  rintro k' hk'
  rw [List.getLast?_concat] at hk'
  obtain rfl := Option.some.inj hk'
  exact h

end Ends

namespace Begins

/-- Nothing stands behind the last piece. -/
theorem nil : Begins [] :=
  ⟨[], [], rfl, by simp, by simp⟩

/-- A recorded token may begin what stands behind a piece. -/
theorem recorded (hk : k.isRecorded) : Begins (k :: ts) :=
  ⟨[], k :: ts, rfl, by simp, fun _ h => Option.some.inj h ▸ hk⟩

/-- An opening parenthesis or a semicolon may stand before it. -/
theorem cons (h : Begins ts) (hk : k = .punctuator .leftParen ∨ k = .punctuator .semicolon) :
    Begins (k :: ts) := by
  obtain ⟨before, after, rfl, hbefore, hafter⟩ := h
  exact ⟨k :: before, after, rfl, List.forall_mem_cons.2 ⟨hk, hbefore⟩, hafter⟩

/-- Tokens at the beginning that are not recorded are semicolons and opening parentheses. -/
theorem of_mem_prefix (h : Begins (xs ++ us)) (hxs : ∀ k ∈ xs, k.isRecorded = false) :
    ∀ k ∈ xs, k = .punctuator .leftParen ∨ k = .punctuator .semicolon := by
  obtain ⟨before, after, heq, hbefore, hafter⟩ := h
  rcases List.append_eq_append_iff.1 heq with ⟨ys, rfl, -⟩ | ⟨ys, rfl, rfl⟩
  · exact fun k hk => hbefore k (List.mem_append_left ys hk)
  · -- nothing that is recorded stands in front
    cases ys with
    | nil => simpa using hbefore
    | cons y ys =>
      have hy := hafter y rfl
      rw [hxs y (by simp)] at hy
      cases hy

end Begins

/-- Nothing can be taken over from behind a piece, if nothing that is recorded is. -/
theorem eq_nil_of_append (hends : Ends (ts ++ xs)) (hbegins : Begins (xs ++ us))
    (hcount : recordedCount (ts ++ xs) = recordedCount ts) : xs = [] := by
  rw [recordedCount_append, Nat.add_eq_left] at hcount
  have hxs : ∀ k ∈ xs, k.isRecorded = false := fun k hk =>
    Bool.eq_false_iff.2 (List.countP_eq_zero.1 hcount k hk)
  -- the last token would be an opening parenthesis or a semicolon
  rcases List.eq_nil_or_concat' xs with rfl | ⟨ys, k, rfl⟩
  · rfl
  · have hk := hbegins.of_mem_prefix hxs k (by simp)
    have hlast := hends k (by rw [← List.append_assoc, List.getLast?_concat])
    rcases hk with hk | hk
    · exact absurd hk hlast.1
    · exact absurd hk hlast.2

/-- Tokens are cut in one way only into a piece with so many recorded tokens and what stands behind
it. -/
theorem cut {ts' us' : List TokenKind} (heq : ts ++ us = ts' ++ us')
    (hcount : recordedCount ts = recordedCount ts') (hts : Ends ts) (hts' : Ends ts')
    (hus : Begins us) (hus' : Begins us') : ts = ts' ∧ us = us' := by
  rcases List.append_eq_append_iff.1 heq with ⟨xs, rfl, rfl⟩ | ⟨xs, rfl, rfl⟩
  · obtain rfl := eq_nil_of_append hts' hus hcount.symm
    simp
  · obtain rfl := eq_nil_of_append hts hus' hcount
    simp

end Piece

mutual

/-- An operand begins with opening parentheses and a recorded token. -/
theorem Expr.AtomWritten.begins {e : Expr} {ts us : List TokenKind} (h : Expr.AtomWritten e ts) :
    Piece.Begins (ts ++ us) := by
  match h with
  | .number | .string | .bool | .name | .new | .newWith _ | .call _ => exact .recorded rfl
  | .parentheses he =>
    rw [List.append_assoc]
    exact .cons he.begins (.inl rfl)

/-- An expression begins with opening parentheses at most, and a token that is recorded. -/
theorem Expr.Written.begins {level : Nat} {e : Expr} {ts us : List TokenKind}
    (h : Expr.Written level e ts) : Piece.Begins (ts ++ us) := by
  match h with
  | .atom he => exact he.begins
  | .unary _ hop _ => exact .recorded (UnaryOp.isRecorded hop)
  | .binary _ _ hl _ =>
    rw [List.append_assoc]
    exact hl.begins
  | .assign _ => exact .recorded rfl

end

/-- A list ends with a closing parenthesis. -/
theorem ItemList.ends {α : Type} {item : α → List TokenKind → Prop} {vs : List α}
    {ts : List TokenKind} (h : ItemList item vs ts) : Piece.Ends ts := by
  rintro k hk
  obtain rfl := Option.some.inj (h.getLast?_eq.symm.trans hk)
  simp

/-- A list has its parentheses at least. -/
theorem ItemList.ne_nil {α : Type} {item : α → List TokenKind → Prop} {vs : List α}
    {ts : List TokenKind} (h : ItemList item vs ts) : ts ≠ [] := by
  cases h <;> simp

/-- No operand ends with an opening parenthesis or a semicolon. -/
theorem Expr.AtomWritten.ends {e : Expr} {ts : List TokenKind} (h : Expr.AtomWritten e ts) :
    Piece.Ends ts := by
  cases h with
  | number | string | bool | name => exact .concat [] (by simp)
  | new => exact .concat [_] (by simp)
  | newWith hargs => exact .cons (.cons hargs.ends hargs.ne_nil) (List.cons_ne_nil _ _)
  | call hargs => exact .cons hargs.ends hargs.ne_nil
  | parentheses => exact .concat _ (by simp)

/-- An expression ends neither with an opening parenthesis nor with a semicolon. -/
theorem Expr.Written.ends {level : Nat} {e : Expr} {ts : List TokenKind}
    (h : Expr.Written level e ts) : Piece.Ends ts := by
  match h with
  | .atom he => exact he.ends
  | .unary _ _ he => exact .cons he.ends he.ne_nil
  | .binary _ _ _ hr => exact .append _ (.cons hr.ends hr.ne_nil) (List.cons_ne_nil _ _)
  | .assign hvalue => exact .cons (.cons hvalue.ends hvalue.ne_nil) (List.cons_ne_nil _ _)

section Statements

variable {follow next : Follow} {stmt : Stmt} {stmts : List Stmt} {body : Block Stmt}
  {ts us semi : List TokenKind}

/-- A block begins with its brace. -/
theorem Block.Written.begins (h : Block.Written follow body ts) : Piece.Begins (ts ++ us) := by
  obtain ⟨us, rfl⟩ := h.exists_head
  exact .recorded rfl

/-- A statement that could be read begins with opening parentheses at most, and a token that is
recorded. -/
theorem Stmt.Written.begins (h : Stmt.Written follow stmt ts) (hstmt : ∀ span, stmt ≠ .error span) :
    Piece.Begins (ts ++ us) := by
  cases h with
  | block hbody => exact hbody.begins
  | expr he => exact he.begins
  | error => exact absurd rfl (hstmt _)
  | _ => exact .recorded rfl

/-- A statement in which everything could be read is none that could not be read. -/
theorem Stmt.ne_error (hcount : stmt.errorCount = 0) (span : Span) : stmt ≠ .error span := by
  rintro rfl
  cases hcount

/-- Statements that could all be read begin like the first of them, if there is one. -/
theorem Stmt.ListWritten.begins (h : Stmt.ListWritten follow next stmts ts)
    (hcount : Stmt.errorCountOfAll stmts = 0) : Piece.Begins ts := by
  cases h with
  | nil => exact .nil
  | cons hstmt =>
    rw [List.append_assoc]
    exact hstmt.begins (Stmt.ne_error (Nat.add_eq_zero_iff.1 hcount).1)

/-- Statements that could be read do not begin with a semicolon. -/
theorem Stmt.ListWritten.head?_ne_semicolon (h : Stmt.ListWritten follow next stmts ts)
    (hcount : Stmt.errorCountOfAll stmts = 0) : ts.head? ≠ some (.punctuator .semicolon) := by
  cases h with
  | nil => simp
  | cons hstmt =>
    obtain ⟨k, us, rfl, hk⟩ := hstmt.exists_head (Stmt.ne_error (Nat.add_eq_zero_iff.1 hcount).1)
    intro hhead
    obtain rfl := Option.some.inj hhead
    cases hk

/-- The same holds behind a semicolon. -/
theorem Piece.Begins.of_optionally (h : Piece.Begins us) (hsemi : Optionally .semicolon semi) :
    Piece.Begins (semi ++ us) := by
  rcases hsemi with rfl | rfl
  · exact h
  · exact .cons h (.inr rfl)

/-- A block ends with its brace. -/
theorem Block.Written.ends (h : Block.Written follow body ts) : Piece.Ends ts := by
  obtain ⟨us, rfl⟩ := h.exists_concat
  exact .concat _ (by simp)

/-- A block has its braces at least. -/
theorem Block.Written.ne_nil (h : Block.Written follow body ts) : ts ≠ [] := by
  obtain ⟨us, rfl⟩ := h.exists_head
  exact List.cons_ne_nil _ us

/-- A statement that could be read ends neither with an opening parenthesis nor with a semicolon. -/
theorem Stmt.Written.ends (h : Stmt.Written follow stmt ts) (hstmt : ∀ span, stmt ≠ .error span) :
    Piece.Ends ts := by
  cases h with
  | var | crud => exact .concat [_] (by simp)
  | varWith hvalue | const hvalue => exact .append [_, _, _] hvalue.ends hvalue.ne_nil
  | func _ hbody | «if» _ hbody | «while» _ hbody => exact .append _ hbody.ends hbody.ne_nil
  | ifElse _ _ hkind halternative =>
    obtain ⟨vs, rfl⟩ := halternative.exists_concat hkind
    exact .append _ (.concat (_ :: vs) (by simp)) (List.cons_ne_nil _ _)
  | «class» _ => exact .concat _ (by simp)
  | loop hbody => exact .cons hbody.ends hbody.ne_nil
  | crudWith hargs => exact .append [_, _] hargs.ends hargs.ne_nil
  | «return» => exact .concat [] (by simp)
  | returnWith hvalue => exact .cons hvalue.ends hvalue.ne_nil
  | block hbody => exact hbody.ends
  | expr he => exact he.ends
  | error => exact absurd rfl (hstmt _)

/-- A block is cut out in one way only, behind a piece and before another one. -/
theorem Block.Written.cut {follow' : Follow} {ts' us' vs vs' : List TokenKind}
    (h : Block.Written follow body us) (h' : Block.Written follow' body us')
    (hcount : Block.errorCount body = 0) (hcounts : recordedCount ts = recordedCount ts')
    (hts : Piece.Ends ts) (hts' : Piece.Ends ts') (hvs : Piece.Begins vs) (hvs' : Piece.Begins vs')
    (heq : ts ++ us ++ vs = ts' ++ us' ++ vs') : ts = ts' ∧ us = us' ∧ vs = vs' := by
  rw [List.append_assoc, List.append_assoc] at heq
  obtain ⟨hts, heq⟩ := Piece.cut heq hcounts hts hts' h.begins h'.begins
  exact ⟨hts, Piece.cut heq ((h.recordedCount_eq hcount).trans (h'.recordedCount_eq hcount).symm)
    h.ends h'.ends hvs hvs'⟩

/-- A block is cut out in one way only behind a condition. -/
theorem Block.Written.cut_condition {follow' : Follow} {condition : Expr} {level : Nat}
    {ts' us' vs vs' : List TokenKind} (h : Block.Written follow body us)
    (h' : Block.Written follow' body us') (hcount : Block.errorCount body = 0)
    (hcondition : Expr.Written level condition ts) (hcondition' : Expr.Written level condition ts')
    (hvs : Piece.Begins vs) (hvs' : Piece.Begins vs') (heq : ts ++ us ++ vs = ts' ++ us' ++ vs') :
    us = us' ∧ vs = vs' := by
  have hcounts := hcondition.recordedCount_eq.trans hcondition'.recordedCount_eq.symm
  exact (h.cut h' hcount hcounts hcondition.ends hcondition'.ends hvs hvs' heq).2

/-- A semicolon that may be there or not is cut off in one way only. -/
theorem Optionally.cut {p : Punctuator} {semi semi' us us' : List TokenKind}
    (hsemi : Optionally p semi) (hsemi' : Optionally p semi')
    (hus : us.head? ≠ some (.punctuator p)) (hus' : us'.head? ≠ some (.punctuator p))
    (heq : semi ++ us = semi' ++ us') : semi = semi' ∧ us = us' := by
  rcases hsemi with rfl | rfl <;> rcases hsemi' with rfl | rfl
  · exact ⟨rfl, heq⟩
  · exact absurd (congrArg List.head? heq) hus
  · exact absurd (congrArg List.head? heq).symm hus'
  · exact ⟨rfl, List.append_cancel_left heq⟩

/-- A statement and the semicolon behind it are cut off in one way only. -/
theorem Stmt.Written.cut {follow' next' : Follow} {ts' us' semi' : List TokenKind}
    (h : Stmt.Written follow stmt ts) (h' : Stmt.Written follow' stmt ts')
    (hsemi : Optionally .semicolon semi) (hsemi' : Optionally .semicolon semi')
    (hs : Stmt.ListWritten follow next stmts us) (hs' : Stmt.ListWritten follow' next' stmts us')
    (hcount : stmt.errorCount = 0) (hcounts : Stmt.errorCountOfAll stmts = 0)
    (heq : ts ++ semi ++ us = ts' ++ semi' ++ us') : ts = ts' ∧ semi = semi' ∧ us = us' := by
  have hstmt := Stmt.ne_error hcount
  rw [List.append_assoc, List.append_assoc] at heq
  obtain ⟨hts, hus⟩ := Piece.cut heq
    ((h.recordedCount_eq hcount).trans (h'.recordedCount_eq hcount).symm) (h.ends hstmt)
    (h'.ends hstmt) ((hs.begins hcounts).of_optionally hsemi)
    ((hs'.begins hcounts).of_optionally hsemi')
  exact ⟨hts, hsemi.cut hsemi' (hs.head?_ne_semicolon hcounts) (hs'.head?_ne_semicolon hcounts) hus⟩

end Statements

end CrudLang
