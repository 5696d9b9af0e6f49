import CrudLang.Proofs.Grammar.Derivation
import CrudLang.Proofs.Grammar.Pieces

/-!
# Putting in separators

A semicolon behind a statement or a member of a class, and a comma behind the last item of a list,
may be there or not. `Program.Separated program ts us` says that the tokens `ts` spell the program,
and that `us` comes from them by putting in some of the separators that are missing, at any depth.
The rules are those of `Expr.Written` and `Stmt.Written`, for two lists of tokens side by side.

Putting in separators changes neither the tree that is spelled nor the first and the last token of
any part of it (`Stmt.Separated.sameEnds`). The spans in the tree do not matter
(`Stmt.Separated.eraseSpans`).
-/

namespace CrudLang

section Lists

variable {α : Type}

/-- A separator that may be there or not. If it is not, it may be put in. -/
def MayBePutIn (p : Punctuator) (ts us : List TokenKind) : Prop :=
  Optionally p ts ∧ (us = ts ∨ us = [.punctuator p])

/-- Further items of a list, each behind a comma, with separators put in inside them. -/
inductive FurtherItemsSeparated (item : α → List TokenKind → List TokenKind → Prop) :
    List α → List TokenKind → List TokenKind → Prop
  | nil : FurtherItemsSeparated item [] [] []
  | cons {v vs ts ts' us us'} : item v ts ts' → FurtherItemsSeparated item vs us us' →
      FurtherItemsSeparated item (v :: vs) (.punctuator .comma :: ts ++ us)
        (.punctuator .comma :: ts' ++ us')

/-- Items between parentheses, with separators put in inside them, and maybe a comma behind the last
one if there is none. -/
inductive ItemListSeparated (item : α → List TokenKind → List TokenKind → Prop) :
    List α → List TokenKind → List TokenKind → Prop
  | nil : ItemListSeparated item [] [.punctuator .leftParen, .punctuator .rightParen]
      [.punctuator .leftParen, .punctuator .rightParen]
  | cons {v vs ts ts' us us' last last'} : item v ts ts' → FurtherItemsSeparated item vs us us' →
      MayBePutIn .comma last last' →
      ItemListSeparated item (v :: vs)
        (.punctuator .leftParen :: ts ++ us ++ last ++ [.punctuator .rightParen])
        (.punctuator .leftParen :: ts' ++ us' ++ last' ++ [.punctuator .rightParen])

end Lists

/-- In an identifier there is no separator. -/
def Ident.Separated (ident : Ident) (ts us : List TokenKind) : Prop :=
  ident.Written ts ∧ us = ts

mutual

/-- An atom is written with the first tokens, and the second ones have more separators inside. -/
inductive Expr.AtomSeparated : Expr → List TokenKind → List TokenKind → Prop
  | number {text span} : Expr.AtomSeparated (.number text span) [.number text] [.number text]
  | string {value span} : Expr.AtomSeparated (.string value span) [.string value] [.string value]
  | bool {value span} :
      Expr.AtomSeparated (.bool value span) [.keyword (if value then .true else .false)]
        [.keyword (if value then .true else .false)]
  | name {ident} : Expr.AtomSeparated (.name ident) [.identifier ident.name]
      [.identifier ident.name]
  | new {className span} :
      Expr.AtomSeparated (.new className [] span) [.keyword .new, .identifier className.name]
        [.keyword .new, .identifier className.name]
  | newWith {className args span ts us} : ItemListSeparated (Expr.Separated 0) args ts us →
      Expr.AtomSeparated (.new className args span)
        (.keyword .new :: .identifier className.name :: ts)
        (.keyword .new :: .identifier className.name :: us)
  | call {callee args span ts us} : ItemListSeparated (Expr.Separated 0) args ts us →
      Expr.AtomSeparated (.call callee args span) (.identifier callee.name :: ts)
        (.identifier callee.name :: us)
  | parentheses {e ts us} : Expr.Separated 0 e ts us →
      Expr.AtomSeparated e (.punctuator .leftParen :: ts ++ [.punctuator .rightParen])
        (.punctuator .leftParen :: us ++ [.punctuator .rightParen])

/-- An expression is written at a level with the first tokens, and the second ones have more
separators inside. -/
inductive Expr.Separated : Nat → Expr → List TokenKind → List TokenKind → Prop
  | atom {level e ts us} : Expr.AtomSeparated e ts us → Expr.Separated level e ts us
  | unary {level op operand span k ts us} : level ≤ 7 → UnaryOp.ofKind? k = some op →
      Expr.Separated 7 operand ts us →
      Expr.Separated level (.unary op operand span) (k :: ts) (k :: us)
  | binary {level op left right span k ls ls' rs rs'} : level ≤ op.precedence →
      BinaryOp.ofKind? k = some op → Expr.Separated op.precedence left ls ls' →
      Expr.Separated (op.precedence + 1) right rs rs' →
      Expr.Separated level (.binary op left right span) (ls ++ k :: rs) (ls' ++ k :: rs')
  | assign {target value span ts us} : Expr.Separated 0 value ts us →
      Expr.Separated 0 (.assign target value span)
        (.identifier target.name :: .punctuator .assign :: ts)
        (.identifier target.name :: .punctuator .assign :: us)

end

mutual

/-- A statement is written with the first tokens, and the second ones have more separators inside.
-/
inductive Stmt.Separated (follow : Follow) : Stmt → List TokenKind → List TokenKind → Prop
  | var {name span} :
      Stmt.Separated follow (.var name none span) [.keyword .var, .identifier name.name]
        [.keyword .var, .identifier name.name]
  | varWith {name value span ts us} : Expr.Separated 0 value ts us →
      Stmt.Separated follow (.var name (some value) span)
        (.keyword .var :: .identifier name.name :: .punctuator .assign :: ts)
        (.keyword .var :: .identifier name.name :: .punctuator .assign :: us)
  | const {name value span ts us} : Expr.Separated 0 value ts us →
      Stmt.Separated follow (.const name value span)
        (.keyword .const :: .identifier name.name :: .punctuator .assign :: ts)
        (.keyword .const :: .identifier name.name :: .punctuator .assign :: us)
  | func {name params body span ts ts' us us'} : ItemListSeparated Ident.Separated params ts ts' →
      Block.Separated follow body us us' →
      Stmt.Separated follow (.func name params body span)
        (.keyword .func :: .identifier name.name :: ts ++ us)
        (.keyword .func :: .identifier name.name :: ts' ++ us')
  | «class» {name members span ts us} : Stmt.ListSeparated follow .isMember members ts us →
      Stmt.Separated follow (.class name members span)
        (.keyword .class :: .identifier name.name :: .punctuator .leftBrace :: ts ++
          [.punctuator .rightBrace])
        (.keyword .class :: .identifier name.name :: .punctuator .leftBrace :: us ++
          [.punctuator .rightBrace])
  | «if» {condition body span ts ts' us us'} : Expr.Separated 0 condition ts ts' →
      Block.Separated follow body us us' →
      Stmt.Separated follow (.if condition body none span) (.keyword .if :: ts ++ us)
        (.keyword .if :: ts' ++ us')
  | ifElse {condition body alternative span ts ts' us us' vs vs'} :
      Expr.Separated 0 condition ts ts' → Block.Separated follow body us us' →
      alternative.IsAlternative → Stmt.Separated follow alternative vs vs' →
      Stmt.Separated follow (.if condition body (some alternative) span)
        (.keyword .if :: ts ++ us ++ .keyword .else :: vs)
        (.keyword .if :: ts' ++ us' ++ .keyword .else :: vs')
  | loop {body span ts us} : Block.Separated follow body ts us →
      Stmt.Separated follow (.loop body span) (.keyword .loop :: ts) (.keyword .loop :: us)
  | «while» {condition body span ts ts' us us'} : Expr.Separated 0 condition ts ts' →
      Block.Separated follow body us us' →
      Stmt.Separated follow (.while condition body span) (.keyword .while :: ts ++ us)
        (.keyword .while :: ts' ++ us')
  | crud {op target span} :
      Stmt.Separated follow (.crud op target [] span)
        [.keyword op.keyword, .identifier target.name]
        [.keyword op.keyword, .identifier target.name]
  | crudWith {op target args span ts us} : ItemListSeparated (Expr.Separated 0) args ts us →
      Stmt.Separated follow (.crud op target args span)
        (.keyword op.keyword :: .identifier target.name :: ts)
        (.keyword op.keyword :: .identifier target.name :: us)
  | «return» {span} :
      Stmt.Separated follow (.return none span) [.keyword .return] [.keyword .return]
  | returnWith {value span ts us} : Expr.Separated 0 value ts us →
      Stmt.Separated follow (.return (some value) span) (.keyword .return :: ts)
        (.keyword .return :: us)
  | block {body ts us} : Block.Separated follow body ts us →
      Stmt.Separated follow (.block body) ts us
  | expr {e span ts us} : Expr.Separated 0 e ts us → Stmt.Separated follow (.expr e span) ts us

/-- A block is written with the first tokens, and the second ones have more separators inside. -/
inductive Block.Separated (follow : Follow) : Block Stmt → List TokenKind → List TokenKind → Prop
  | braces {stmts span ts us} : Stmt.ListSeparated follow follow stmts ts us →
      Block.Separated follow ⟨stmts, span⟩
        (.punctuator .leftBrace :: ts ++ [.punctuator .rightBrace])
        (.punctuator .leftBrace :: us ++ [.punctuator .rightBrace])

/-- Statements are written one behind the other with the first tokens, and the second ones have more
separators inside them and behind them. -/
inductive Stmt.ListSeparated (follow : Follow) :
    Follow → List Stmt → List TokenKind → List TokenKind → Prop
  | nil {next : Follow} : Stmt.ListSeparated follow next [] [] []
  | cons {next : Follow} {stmt stmts ts ts' semi semi' us us'} :
      Stmt.Separated follow stmt ts ts' → MayBePutIn .semicolon semi semi' →
      next stmt ts (semi ++ us) → Stmt.ListSeparated follow next stmts us us' →
      Stmt.ListSeparated follow next (stmt :: stmts) (ts ++ semi ++ us) (ts' ++ semi' ++ us')

end

/-- A program is written with the first tokens, and the second ones have more separators: semicolons
behind statements and members of classes that have none, and commas behind the last items of lists
of arguments and parameters that have none there. -/
def Program.Separated (program : Program) (ts us : List TokenKind) : Prop :=
  Stmt.ListSeparated .any .any program.stmts ts us

/-- Tokens that begin and end alike. -/
structure SameEnds (ts us : List TokenKind) : Prop where
  ne_nil : ts ≠ []
  ne_nil' : us ≠ []
  head : us.head? = ts.head?
  last : us.getLast? = ts.getLast?

namespace SameEnds

variable {k : TokenKind} {ts ts' us us' : List TokenKind}

/-- Tokens begin and end like themselves. -/
theorem refl (hts : ts ≠ []) : SameEnds ts ts :=
  ⟨hts, hts, rfl, rfl⟩

/-- The first part decides about the beginning and the last one about the end. -/
theorem append (h : SameEnds ts us) (h' : SameEnds ts' us') : SameEnds (ts ++ ts') (us ++ us') where
  ne_nil := by simp [h.ne_nil]
  ne_nil' := by simp [h.ne_nil']
  head := by
    rw [List.head?_append_of_ne_nil _ h.ne_nil', List.head?_append_of_ne_nil _ h.ne_nil, h.head]
  last := by
    rw [List.getLast?_append_of_ne_nil _ h'.ne_nil', List.getLast?_append_of_ne_nil _ h'.ne_nil,
      h'.last]

/-- A token in front of both. -/
theorem cons (k : TokenKind) (h : SameEnds ts us) : SameEnds (k :: ts) (k :: us) :=
  append (refl (List.cons_ne_nil k [])) h

/-- What is between the ends makes no difference. -/
theorem between (k l : TokenKind) (ts us : List TokenKind) :
    SameEnds (k :: ts ++ [l]) (k :: us ++ [l]) where
  ne_nil := by simp
  ne_nil' := by simp
  head := rfl
  last := by rw [List.getLast?_concat, List.getLast?_concat]

end SameEnds

/-- A list begins and ends with its parentheses, whatever is put in. -/
theorem ItemListSeparated.sameEnds {α : Type} {item : α → List TokenKind → List TokenKind → Prop}
    {vs : List α} {ts us : List TokenKind} (h : ItemListSeparated item vs ts us) :
    SameEnds ts us := by
  cases h with
  | nil => exact .refl (by simp)
  | cons => exact .between _ _ _ _

mutual

/-- An operand begins and ends as before. -/
theorem Expr.AtomSeparated.sameEnds {e : Expr} {ts us : List TokenKind}
    (h : Expr.AtomSeparated e ts us) : SameEnds ts us := by
  match h with
  | .number | .string | .bool | .name | .new => exact .refl (by simp)
  | .newWith hargs => exact .cons _ (.cons _ hargs.sameEnds)
  | .call hargs => exact .cons _ hargs.sameEnds
  | .parentheses _ => exact .between _ _ _ _

/-- An expression begins and ends as before. -/
theorem Expr.Separated.sameEnds {level : Nat} {e : Expr} {ts us : List TokenKind}
    (h : Expr.Separated level e ts us) : SameEnds ts us := by
  match h with
  | .atom he => exact he.sameEnds
  | .unary _ _ he => exact .cons _ he.sameEnds
  | .binary _ _ hl hr => exact .append hl.sameEnds (.cons _ hr.sameEnds)
  | .assign hvalue => exact .cons _ (.cons _ hvalue.sameEnds)

end

/-- What is put in is a separator as well. -/
theorem MayBePutIn.optionally {p : Punctuator} {ts us : List TokenKind} (h : MayBePutIn p ts us) :
    Optionally p us := by
  obtain ⟨hts, rfl | rfl⟩ := h
  · exact hts
  · exact .inr rfl

section Expressions

mutual

/-- Both lists of tokens spell the operand. -/
theorem Expr.AtomSeparated.written {e : Expr} {ts us : List TokenKind}
    (h : Expr.AtomSeparated e ts us) : Expr.AtomWritten e ts ∧ Expr.AtomWritten e us := by
  match h with
  | .number => exact ⟨.number, .number⟩
  | .string => exact ⟨.string, .string⟩
  | .bool => exact ⟨.bool, .bool⟩
  | .name => exact ⟨.name, .name⟩
  | .new => exact ⟨.new, .new⟩
  | .newWith hargs =>
    obtain ⟨hargs, hargs'⟩ := written_args hargs
    exact ⟨.newWith hargs, .newWith hargs'⟩
  | .call hargs =>
    obtain ⟨hargs, hargs'⟩ := written_args hargs
    exact ⟨.call hargs, .call hargs'⟩
  | .parentheses he =>
    obtain ⟨he, he'⟩ := he.written
    exact ⟨.parentheses he, .parentheses he'⟩

/-- Both lists of tokens spell the expression. -/
theorem Expr.Separated.written {level : Nat} {e : Expr} {ts us : List TokenKind}
    (h : Expr.Separated level e ts us) : Expr.Written level e ts ∧ Expr.Written level e us := by
  match h with
  | .atom he =>
    obtain ⟨he, he'⟩ := he.written
    exact ⟨.atom he, .atom he'⟩
  | .unary hlevel hop he =>
    obtain ⟨he, he'⟩ := he.written
    exact ⟨.unary hlevel hop he, .unary hlevel hop he'⟩
  | .binary hlevel hop hl hr =>
    obtain ⟨hl, hl'⟩ := hl.written
    obtain ⟨hr, hr'⟩ := hr.written
    exact ⟨.binary hlevel hop hl hr, .binary hlevel hop hl' hr'⟩
  | .assign hvalue =>
    obtain ⟨hvalue, hvalue'⟩ := hvalue.written
    exact ⟨.assign hvalue, .assign hvalue'⟩

/-- Both lists of tokens spell the arguments. -/
theorem written_args {args : List Expr} {ts us : List TokenKind}
    (h : ItemListSeparated (Expr.Separated 0) args ts us) :
    ItemList (Expr.Written 0) args ts ∧ ItemList (Expr.Written 0) args us := by
  match h with
  | .nil => exact ⟨.nil, .nil⟩
  | .cons he hes hlast =>
    obtain ⟨he, he'⟩ := he.written
    obtain ⟨hes, hes'⟩ := written_furtherArgs hes
    -- the comma at the end is the only one that may be put in
    exact ⟨.cons he hes hlast.1, .cons he' hes' hlast.optionally⟩

/-- Both lists of tokens spell the arguments behind the first one. -/
theorem written_furtherArgs {args : List Expr} {ts us : List TokenKind}
    (h : FurtherItemsSeparated (Expr.Separated 0) args ts us) :
    FurtherItems (Expr.Written 0) args ts ∧ FurtherItems (Expr.Written 0) args us := by
  match h with
  | .nil => exact ⟨.nil, .nil⟩
  | .cons he hes =>
    obtain ⟨he, he'⟩ := he.written
    obtain ⟨hes, hes'⟩ := written_furtherArgs hes
    exact ⟨.cons he hes, .cons he' hes'⟩

end

mutual

/-- No separator needs to be put into an operand. -/
theorem Expr.AtomWritten.separated {e : Expr} {ts : List TokenKind} (h : Expr.AtomWritten e ts) :
    Expr.AtomSeparated e ts ts := by
  match h with
  | .number => exact .number
  | .string => exact .string
  | .bool => exact .bool
  | .name => exact .name
  | .new => exact .new
  | .newWith hargs => exact .newWith (separated_args hargs)
  | .call hargs => exact .call (separated_args hargs)
  | .parentheses he => exact .parentheses he.separated

/-- No separator needs to be put in. -/
theorem Expr.Written.separated {level : Nat} {e : Expr} {ts : List TokenKind}
    (h : Expr.Written level e ts) : Expr.Separated level e ts ts := by
  match h with
  | .atom he => exact .atom he.separated
  | .unary hlevel hop he => exact .unary hlevel hop he.separated
  | .binary hlevel hop hl hr => exact .binary hlevel hop hl.separated hr.separated
  | .assign hvalue => exact .assign hvalue.separated

/-- No separator needs to be put into arguments. -/
theorem separated_args {args : List Expr} {ts : List TokenKind}
    (h : ItemList (Expr.Written 0) args ts) :
    ItemListSeparated (Expr.Separated 0) args ts ts := by
  match h with
  | .nil => exact .nil
  | .cons he hes hlast =>
    exact .cons he.separated (separated_furtherArgs hes) ⟨hlast, .inl rfl⟩

/-- No separator needs to be put into the arguments behind the first one. -/
theorem separated_furtherArgs {args : List Expr} {ts : List TokenKind}
    (h : FurtherItems (Expr.Written 0) args ts) :
    FurtherItemsSeparated (Expr.Separated 0) args ts ts := by
  match h with
  | .nil => exact .nil
  | .cons he hes => exact .cons he.separated (separated_furtherArgs hes)

end

mutual

/-- The spans in an operand do not matter. -/
theorem Expr.AtomSeparated.eraseSpans {e : Expr} {ts us : List TokenKind}
    (h : Expr.AtomSeparated e ts us) : Expr.AtomSeparated e.eraseSpans ts us := by
  match h with
  | .number => exact .number
  | .string => exact .string
  | .bool => exact .bool
  | .name => exact .name
  | .new => exact .new
  | .newWith hargs => exact .newWith (eraseSpans_args hargs)
  | .call hargs => exact .call (eraseSpans_args hargs)
  | .parentheses he => exact .parentheses he.eraseSpans

/-- The spans in an expression make no difference. -/
theorem Expr.Separated.eraseSpans {level : Nat} {e : Expr} {ts us : List TokenKind}
    (h : Expr.Separated level e ts us) : Expr.Separated level e.eraseSpans ts us := by
  match h with
  | .atom he => exact .atom he.eraseSpans
  | .unary hlevel hop he => exact .unary hlevel hop he.eraseSpans
  | .binary hlevel hop hl hr => exact .binary hlevel hop hl.eraseSpans hr.eraseSpans
  | .assign hvalue => exact .assign hvalue.eraseSpans

/-- The spans in arguments do not matter. -/
theorem eraseSpans_args {args : List Expr} {ts us : List TokenKind}
    (h : ItemListSeparated (Expr.Separated 0) args ts us) :
    ItemListSeparated (Expr.Separated 0) (Expr.eraseSpansOfAll args) ts us := by
  match h with
  | .nil => exact .nil
  | .cons he hes hlast => exact .cons he.eraseSpans (eraseSpans_furtherArgs hes) hlast

/-- The spans in the arguments behind the first one do not matter. -/
theorem eraseSpans_furtherArgs {args : List Expr} {ts us : List TokenKind}
    (h : FurtherItemsSeparated (Expr.Separated 0) args ts us) :
    FurtherItemsSeparated (Expr.Separated 0) (Expr.eraseSpansOfAll args) ts us := by
  match h with
  | .nil => exact .nil
  | .cons he hes => exact .cons he.eraseSpans (eraseSpans_furtherArgs hes)

end

end Expressions

section Params

variable {params : List Ident} {ts us : List TokenKind}

/-- Both lists of tokens spell the parameters behind the first one. -/
theorem written_furtherParams (h : FurtherItemsSeparated Ident.Separated params ts us) :
    FurtherItems Ident.Written params ts ∧ FurtherItems Ident.Written params us := by
  induction h with
  | nil => exact ⟨.nil, .nil⟩
  | cons hparam _ ih =>
    obtain ⟨hparam, rfl⟩ := hparam
    exact ⟨.cons hparam ih.1, .cons hparam ih.2⟩

/-- Both lists of tokens spell the parameters. -/
theorem written_params (h : ItemListSeparated Ident.Separated params ts us) :
    ItemList Ident.Written params ts ∧ ItemList Ident.Written params us := by
  cases h with
  | nil => exact ⟨.nil, .nil⟩
  | cons hparam hparams hlast =>
    obtain ⟨hparam, rfl⟩ := hparam
    obtain ⟨hparams, hparams'⟩ := written_furtherParams hparams
    exact ⟨.cons hparam hparams hlast.1, .cons hparam hparams' hlast.optionally⟩

/-- No separator needs to be put into the parameters behind the first one. -/
theorem separated_furtherParams (h : FurtherItems Ident.Written params ts) :
    FurtherItemsSeparated Ident.Separated params ts ts := by
  induction h with
  | nil => exact .nil
  | cons hparam _ ih => exact .cons ⟨hparam, rfl⟩ ih

/-- No separator needs to be put into parameters. -/
theorem separated_params (h : ItemList Ident.Written params ts) :
    ItemListSeparated Ident.Separated params ts ts := by
  cases h with
  | nil => exact .nil
  | cons hparam hparams hlast =>
    exact .cons ⟨hparam, rfl⟩ (separated_furtherParams hparams) ⟨hlast, .inl rfl⟩

/-- The spans in the parameters behind the first one do not matter. -/
theorem eraseSpans_furtherParams (h : FurtherItemsSeparated Ident.Separated params ts us) :
    FurtherItemsSeparated Ident.Separated (params.map Ident.eraseSpan) ts us := by
  induction h with
  | nil => exact .nil
  | cons hparam _ ih => exact .cons hparam ih

/-- The spans in parameters do not matter. -/
theorem eraseSpans_params (h : ItemListSeparated Ident.Separated params ts us) :
    ItemListSeparated Ident.Separated (params.map Ident.eraseSpan) ts us := by
  cases h with
  | nil => exact .nil
  | cons hparam hparams hlast => exact .cons hparam (eraseSpans_furtherParams hparams) hlast

end Params

/-- Whether a statement may stand behind `else` does not depend on spans. -/
theorem Stmt.IsAlternative.eraseSpans {stmt : Stmt} (h : stmt.IsAlternative) :
    stmt.eraseSpans.IsAlternative := by
  cases stmt with
  | «if» | block => trivial
  | _ => exact absurd h id

/-- Whether a statement may stand in a class does not depend on spans. -/
theorem Stmt.IsMember.eraseSpans {stmt : Stmt} (h : stmt.IsMember) : stmt.eraseSpans.IsMember := by
  cases stmt with
  | var | const | func => trivial
  | _ => exact absurd h id

section Statements

variable {follow : Follow}

mutual

/-- The first tokens spell the statement. -/
theorem Stmt.Separated.written {stmt : Stmt} {ts us : List TokenKind}
    (h : Stmt.Separated follow stmt ts us) : Stmt.Written follow stmt ts := by
  match h with
  | .var => exact .var
  | .varWith hvalue => exact .varWith hvalue.written.1
  | .const hvalue => exact .const hvalue.written.1
  | .func hparams hbody => exact .func (written_params hparams).1 (Block.Separated.written hbody)
  | .class hmembers => exact .class (Stmt.ListSeparated.written hmembers)
  | .if hcondition hbody => exact .if hcondition.written.1 (Block.Separated.written hbody)
  | .ifElse hcondition hbody hkind halternative =>
    exact .ifElse hcondition.written.1 (Block.Separated.written hbody) hkind
      (Stmt.Separated.written halternative)
  | .loop hbody => exact .loop (Block.Separated.written hbody)
  | .while hcondition hbody => exact .while hcondition.written.1 (Block.Separated.written hbody)
  | .crud => exact .crud
  | .crudWith hargs => exact .crudWith (written_args hargs).1
  | .return => exact .return
  | .returnWith hvalue => exact .returnWith hvalue.written.1
  | .block hbody => exact .block (Block.Separated.written hbody)
  | .expr he => exact .expr he.written.1

/-- The first tokens spell the block. -/
theorem Block.Separated.written {body : Block Stmt} {ts us : List TokenKind}
    (h : Block.Separated follow body ts us) : Block.Written follow body ts := by
  match h with
  | .braces hstmts => exact .braces (Stmt.ListSeparated.written hstmts)

/-- The first tokens spell the statements. -/
theorem Stmt.ListSeparated.written {next : Follow} {stmts : List Stmt} {ts us : List TokenKind}
    (h : Stmt.ListSeparated follow next stmts ts us) : Stmt.ListWritten follow next stmts ts := by
  match h with
  | .nil => exact .nil
  | .cons hstmt hsemi hnext hstmts =>
    exact .cons (Stmt.Separated.written hstmt) hsemi.1 hnext (Stmt.ListSeparated.written hstmts)

end

mutual

/-- No separator needs to be put in. -/
theorem Stmt.Written.separated {stmt : Stmt} {ts : List TokenKind}
    (h : Stmt.Written follow stmt ts) (hcount : stmt.errorCount = 0) :
    Stmt.Separated follow stmt ts ts := by
  match h with
  | .var => exact .var
  | .varWith hvalue => exact .varWith hvalue.separated
  | .const hvalue => exact .const hvalue.separated
  | .func hparams hbody =>
    exact .func (separated_params hparams) (Block.Written.separated hbody hcount)
  | .class hmembers => exact .class (Stmt.ListWritten.separated hmembers hcount)
  | .if hcondition hbody =>
    exact .if hcondition.separated
      (Block.Written.separated hbody (Nat.add_eq_zero_iff.1 hcount).1)
  | .ifElse hcondition hbody hkind halternative =>
    obtain ⟨hcount, hcount'⟩ := Nat.add_eq_zero_iff.1 hcount
    exact .ifElse hcondition.separated (Block.Written.separated hbody hcount) hkind
      (Stmt.Written.separated halternative hcount')
  | .loop hbody => exact .loop (Block.Written.separated hbody hcount)
  | .while hcondition hbody =>
    exact .while hcondition.separated (Block.Written.separated hbody hcount)
  | .crud => exact .crud
  | .crudWith hargs => exact .crudWith (separated_args hargs)
  | .return => exact .return
  | .returnWith hvalue => exact .returnWith hvalue.separated
  | .block hbody => exact .block (Block.Written.separated hbody hcount)
  | .expr he => exact .expr he.separated
  | .error _ => cases hcount

/-- No separator needs to be put into a block in which everything could be read. -/
theorem Block.Written.separated {body : Block Stmt} {ts : List TokenKind}
    (h : Block.Written follow body ts) (hcount : Block.errorCount body = 0) :
    Block.Separated follow body ts ts := by
  match body, h with
  | _, .braces hstmts => exact .braces (Stmt.ListWritten.separated hstmts hcount)

/-- No separator needs to be put into statements that could all be read. -/
theorem Stmt.ListWritten.separated {next : Follow} {stmts : List Stmt} {ts : List TokenKind}
    (h : Stmt.ListWritten follow next stmts ts) (hcount : Stmt.errorCountOfAll stmts = 0) :
    Stmt.ListSeparated follow next stmts ts ts := by
  match h with
  | .nil => exact .nil
  | .cons hstmt hsemi hnext hstmts =>
    obtain ⟨hcount, hcount'⟩ := Nat.add_eq_zero_iff.1 hcount
    exact .cons (Stmt.Written.separated hstmt hcount) ⟨hsemi, .inl rfl⟩ hnext
      (Stmt.ListWritten.separated hstmts hcount')

end

mutual

/-- The spans in a statement make no difference. -/
theorem Stmt.Separated.eraseSpans
    (hfollow : ∀ stmt ts us, follow stmt ts us → follow stmt.eraseSpans ts us)
    {stmt : Stmt} {ts us : List TokenKind} (h : Stmt.Separated follow stmt ts us) :
    Stmt.Separated follow stmt.eraseSpans ts us := by
  match h with
  | .var => exact .var
  | .varWith hvalue => exact .varWith hvalue.eraseSpans
  | .const hvalue => exact .const hvalue.eraseSpans
  | .func hparams hbody =>
    exact .func (eraseSpans_params hparams) (Block.Separated.eraseSpans hfollow hbody)
  -- what may follow a member does not depend on what may follow the class
  | .class hmembers =>
    exact .class (Stmt.ListSeparated.eraseSpans hfollow (fun _ _ _ h => h.eraseSpans) hmembers)
  | .if hcondition hbody =>
    exact .if hcondition.eraseSpans (Block.Separated.eraseSpans hfollow hbody)
  | .ifElse hcondition hbody hkind halternative =>
    exact .ifElse hcondition.eraseSpans (Block.Separated.eraseSpans hfollow hbody) hkind.eraseSpans
      (Stmt.Separated.eraseSpans hfollow halternative)
  | .loop hbody => exact .loop (Block.Separated.eraseSpans hfollow hbody)
  | .while hcondition hbody =>
    exact .while hcondition.eraseSpans (Block.Separated.eraseSpans hfollow hbody)
  | .crud => exact .crud
  | .crudWith hargs =>
    rw [Stmt.eraseSpans, ← Expr.eraseSpansOfAll_eq_map]
    exact .crudWith (eraseSpans_args hargs)
  | .return => exact .return
  | .returnWith hvalue => exact .returnWith hvalue.eraseSpans
  | .block hbody => exact .block (Block.Separated.eraseSpans hfollow hbody)
  | .expr he => exact .expr he.eraseSpans

/-- The spans in a block do not matter, unless what may follow depends on them. -/
theorem Block.Separated.eraseSpans
    (hfollow : ∀ stmt ts us, follow stmt ts us → follow stmt.eraseSpans ts us)
    {body : Block Stmt} {ts us : List TokenKind} (h : Block.Separated follow body ts us) :
    Block.Separated follow (Block.eraseSpans body) ts us := by
  match body, h with
  | _, .braces hstmts => exact .braces (Stmt.ListSeparated.eraseSpans hfollow hfollow hstmts)

/-- The spans in statements do not matter, unless what may follow depends on them. -/
theorem Stmt.ListSeparated.eraseSpans
    (hfollow : ∀ stmt ts us, follow stmt ts us → follow stmt.eraseSpans ts us) {next : Follow}
    (hnext : ∀ stmt ts us, next stmt ts us → next stmt.eraseSpans ts us)
    {stmts : List Stmt} {ts us : List TokenKind} (h : Stmt.ListSeparated follow next stmts ts us) :
    Stmt.ListSeparated follow next (Stmt.eraseSpansOfAll stmts) ts us := by
  match h with
  | .nil => exact .nil
  | .cons hstmt hsemi hafter hstmts =>
    exact .cons (Stmt.Separated.eraseSpans hfollow hstmt) hsemi (hnext _ _ _ hafter)
      (Stmt.ListSeparated.eraseSpans hfollow hnext hstmts)

end

/-- A block begins and ends as before. -/
theorem Block.Separated.sameEnds {body : Block Stmt} {ts us : List TokenKind}
    (h : Block.Separated follow body ts us) : SameEnds ts us := by
  cases h with
  | braces => exact .between _ _ _ _

/-- A statement begins and ends as before. -/
theorem Stmt.Separated.sameEnds {stmt : Stmt} {ts us : List TokenKind}
    (h : Stmt.Separated follow stmt ts us) : SameEnds ts us := by
  match h with
  | .var | .crud | .return => exact .refl (by simp)
  | .varWith hvalue | .const hvalue => exact .cons _ (.cons _ (.cons _ hvalue.sameEnds))
  | .func hparams hbody => exact .append (.cons _ (.cons _ hparams.sameEnds)) hbody.sameEnds
  | .class _ => exact .between _ _ _ _
  | .if hcondition hbody | .while hcondition hbody =>
    exact .append (.cons _ hcondition.sameEnds) hbody.sameEnds
  | .ifElse hcondition hbody _ halternative =>
    exact .append (.append (.cons _ hcondition.sameEnds) hbody.sameEnds)
      (.cons _ halternative.sameEnds)
  | .loop hbody => exact .cons _ hbody.sameEnds
  | .crudWith hargs => exact .cons _ (.cons _ hargs.sameEnds)
  | .returnWith hvalue => exact .cons _ hvalue.sameEnds
  | .block hbody => exact hbody.sameEnds
  | .expr he => exact he.sameEnds

/-- Statements begin as before. -/
theorem Stmt.ListSeparated.head?_eq {next : Follow} {stmts : List Stmt} {ts us : List TokenKind}
    (h : Stmt.ListSeparated follow next stmts ts us) : us.head? = ts.head? := by
  cases h with
  | nil => rfl
  | cons hstmt =>
    have hends := hstmt.sameEnds
    rw [List.append_assoc, List.append_assoc, List.head?_append_of_ne_nil _ hends.ne_nil',
      List.head?_append_of_ne_nil _ hends.ne_nil, hends.head]

end Statements

end CrudLang
