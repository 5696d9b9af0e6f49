import CrudLang.Proofs.Grammar.Meaning
import CrudLang.Proofs.Grammar.Recovery

/-!
# Derivations of written statements

Whatever spells a tree without statements that could not be read is derivable from the grammar. With
the reading of settled statements this decides which sources are read without a diagnostic:

* `Parsing.diagnostics_eq_nil_iff_derivable`: exactly the derivable ones.
-/

namespace CrudLang

namespace Derives

variable {a b : Ebnf} {r : Rule} {ts us rest : List TokenKind}

/-- A rule derives what its body derives. -/
theorem rule_iff : Derives (.rule r) ts rest ↔ Derives r.body ts rest :=
  ⟨fun h => by cases h; assumption, .rule⟩

/-- A sequence derives two parts, the first one in front of the second. -/
theorem seq_iff : Derives (a ++ b) ts rest ↔
    ∃ us vs, ts = us ++ vs ∧ Derives a us (vs ++ rest) ∧ Derives b vs rest := by
  constructor
  · intro h
    cases h with
    | seq ha hb => exact ⟨_, _, rfl, ha, hb⟩
  · rintro ⟨us, vs, rfl, ha, hb⟩
    exact .seq ha hb

/-- A repetition can go on. -/
theorem star_snoc (h : Derives (.star a) ts (us ++ rest)) (ha : Derives a us rest) :
    Derives (.star a) (ts ++ us) rest := by
  -- the repetition is generalized, so that the induction keeps to its two rules
  generalize he : Ebnf.star a = e at h
  generalize hus : us ++ rest = vs at h
  induction h with
  | starNil =>
    cases he
    have hone : Derives (.star a) (us ++ []) rest := .starCons (by rwa [List.nil_append]) .starNil
    rwa [List.append_nil] at hone
  | starCons hfirst _ _ ih =>
    cases he
    subst hus
    rw [List.append_assoc]
    refine .starCons ?_ (ih rfl rfl)
    rwa [List.append_assoc]
  | _ => cases he

/-- A sign that may be there or not. -/
theorem optionally {p : Punctuator} (h : Optionally p ts) : Derives (.opt (.sign p)) ts rest := by
  rcases h with rfl | rfl
  · exact .optNone
  · exact .optSome .token

end Derives

namespace Derives

variable {item : Ebnf} {ts us last rest : List TokenKind}

/-- A list may be empty. -/
theorem list_nil :
    Derives (.list item) [.punctuator .leftParen, .punctuator .rightParen] rest := by
  have hlist : Derives (.list item)
      ([.punctuator .leftParen] ++ [] ++ [.punctuator .rightParen]) rest :=
    .seq (.seq .token .optNone) .token
  exact hlist

/-- One more item of a list. -/
theorem further_cons (hitem : Derives item ts (us ++ rest))
    (hothers : Derives (.star (.sign .comma ++ item)) us rest) :
    Derives (.star (.sign .comma ++ item)) (.punctuator .comma :: ts ++ us) rest := by
  have hfirst : Derives (.sign .comma ++ item) ([.punctuator .comma] ++ ts) (us ++ rest) :=
    .seq .token hitem
  exact .starCons hfirst hothers

/-- A list in parentheses. -/
theorem list_cons (hitem : Derives item ts (us ++ (last ++ .punctuator .rightParen :: rest)))
    (hothers : Derives (.star (.sign .comma ++ item)) us (last ++ .punctuator .rightParen :: rest))
    (hlast : Optionally .comma last) :
    Derives (.list item)
      (.punctuator .leftParen :: ts ++ us ++ last ++ [.punctuator .rightParen]) rest := by
  have hitems : Derives (item ++ .star (.sign .comma ++ item) ++ .opt (.sign .comma))
      (ts ++ us ++ last) (.punctuator .rightParen :: rest) :=
    .seq (.seq hitem hothers) (.optionally hlast)
  have hlist : Derives (.list item)
      ([.punctuator .leftParen] ++ (ts ++ us ++ last) ++ [.punctuator .rightParen]) rest :=
    .seq (.seq .token (.optSome hitems)) .token
  simpa [List.append_assoc] using hlist

end Derives

namespace Rule

/-- Whatever the rule for a level derives, the rules for the looser ones derive as well. -/
theorem derives_ofLevel_of_le {level level' : Nat} {ts rest : List TokenKind}
    (h : Derives (.rule (ofLevel level)) ts rest) (hle : level' ≤ level) :
    Derives (.rule (ofLevel level')) ts rest := by
  induction hle with
  | refl => exact h
  | @step level _ ih =>
    apply ih
    -- an operand is a row without operators
    have hrow (hlow : 0 < level) (hhigh : level < 7) : Derives (.rule (ofLevel level)) ts rest := by
      obtain ⟨ops, hbody, -⟩ := exists_body_ofLevel hlow hhigh
      rw [Derives.rule_iff, hbody, Derives.seq_iff]
      exact ⟨ts, [], (List.append_nil ts).symm, h, .starNil⟩
    match level with
    | 0 => exact .rule (.altRight h)
    | 1 | 2 | 3 | 4 | 5 | 6 => exact hrow (by decide) (by decide)
    | 7 => exact .rule (.seq .starNil h)
    | _ + 8 => exact h

/-- An operator of a precedence goes between operands of its level. -/
theorem derives_ofLevel_binary {level : Nat} {op : BinaryOp} {k : TokenKind}
    {ls rs rest : List TokenKind} (hop : BinaryOp.IsToken level op k)
    (hl : Derives (.rule (ofLevel level)) ls (k :: rs ++ rest))
    (hr : Derives (.rule (ofLevel (level + 1))) rs rest) :
    Derives (.rule (ofLevel level)) (ls ++ k :: rs) rest := by
  obtain ⟨hlow, hhigh⟩ : 0 < level ∧ level < 7 := by
    rw [← hop.2]
    cases op <;> decide
  obtain ⟨ops, hbody, hops⟩ := exists_body_ofLevel hlow hhigh
  rw [Derives.rule_iff, hbody, Derives.seq_iff] at hl ⊢
  obtain ⟨first, others, rfl, hfirst, hothers⟩ := hl
  have hop : Derives ops [k] (rs ++ rest) := by
    have hmem : (k, op) ∈ BinaryOp.tokens level := BinaryOp.isToken_iff.1 hop
    exact .of_mem (hops.mem_iff.2 (List.mem_map_of_mem hmem)) .token
  have hlast : Derives (ops ++ .rule (ofLevel (level + 1))) ([k] ++ rs) rest := .seq hop hr
  -- the left operand is a row already, which goes on
  refine ⟨first, others ++ k :: rs, List.append_assoc .., ?_, .star_snoc hothers hlast⟩
  rwa [List.append_assoc]

end Rule

section Expressions

/-- A prefix operator goes in front of an operand. -/
theorem Derives.unary {op : UnaryOp} {k : TokenKind} {ts rest : List TokenKind}
    (hop : UnaryOp.ofKind? k = some op) (h : Derives (.rule .unary) ts rest) :
    Derives (.rule .unary) (k :: ts) rest := by
  rw [rule_iff, Rule.body, seq_iff] at h ⊢
  obtain ⟨ops, operand, rfl, hops, hoperand⟩ := h
  refine ⟨[k] ++ ops, operand, rfl, .starCons ?_ hops, hoperand⟩
  -- the three operators are the alternatives of the rule
  unfold UnaryOp.ofKind? at hop
  split at hop <;> cases hop
  all_goals exact .of_mem (by decide) .token

mutual

/-- An atom is derived from the rule for atoms. -/
theorem Expr.AtomWritten.derives {e : Expr} {ts : List TokenKind} (rest : List TokenKind)
    (h : Expr.AtomWritten e ts) : Derives (.rule .atom) ts rest := by
  -- each form of an atom is an alternative of its rule
  apply Derives.rule
  match h with
  | .number => exact .of_mem (by decide) .number
  | .string => exact .of_mem (by decide) .string
  | @Expr.AtomWritten.bool value _ =>
    cases value with
    | true => exact .of_mem (a := .word .true) (by decide) .token
    | false => exact .of_mem (a := .word .false) (by decide) .token
  | .name => exact .of_mem (a := .identifier) (by decide) .identifier
  | @Expr.AtomWritten.new className _ =>
    have hnew : Derives (.word .new ++ .identifier ++ .opt (.rule .args))
        ([.keyword .new] ++ [.identifier className.name] ++ []) rest :=
      .seq (.seq .token .identifier) .optNone
    exact .of_mem (by decide) hnew
  | @Expr.AtomWritten.newWith className _ _ ts hargs =>
    have hnew : Derives (.word .new ++ .identifier ++ .opt (.rule .args))
        ([.keyword .new] ++ [.identifier className.name] ++ ts) rest :=
      .seq (.seq .token .identifier) (.optSome (derives_args rest hargs))
    exact .of_mem (by decide) hnew
  | @Expr.AtomWritten.call callee _ _ ts hargs =>
    have hcall : Derives (.identifier ++ .rule .args) ([.identifier callee.name] ++ ts) rest :=
      .seq .identifier (derives_args rest hargs)
    exact .of_mem (by decide) hcall
  | @Expr.AtomWritten.parentheses _ ts he =>
    have hparens : Derives (.sign .leftParen ++ .rule .expr ++ .sign .rightParen)
        ([.punctuator .leftParen] ++ ts ++ [.punctuator .rightParen]) rest :=
      .seq (.seq .token (Expr.Written.derives _ he)) .token
    exact .of_mem (by decide) hparens

/-- An expression is derived from the rule for its level. -/
theorem Expr.Written.derives {level : Nat} {e : Expr} {ts : List TokenKind}
    (rest : List TokenKind) (h : Expr.Written level e ts) :
    Derives (.rule (.ofLevel level)) ts rest := by
  match h with
  | .atom he =>
    -- from level 8 on, the rule is the one for atoms
    have hatom : Derives (.rule (.ofLevel (level + 8))) ts rest := he.derives rest
    exact Rule.derives_ofLevel_of_le hatom (Nat.le_add_right level 8)
  | .unary hlevel hop he =>
    have hunary : Derives (.rule (.ofLevel 7)) _ rest := .unary hop (Expr.Written.derives rest he)
    exact Rule.derives_ofLevel_of_le hunary hlevel
  | .binary hlevel hop hl hr =>
    have hbinary := Rule.derives_ofLevel_binary ⟨hop, rfl⟩ (Expr.Written.derives _ hl)
      (Expr.Written.derives rest hr)
    exact Rule.derives_ofLevel_of_le hbinary hlevel
  | @Expr.Written.assign target _ _ ts hvalue =>
    have hassign : Derives (.identifier ++ .sign .assign ++ .rule .expr)
        ([.identifier target.name] ++ [.punctuator .assign] ++ ts) rest :=
      .seq (.seq .identifier .token) (Expr.Written.derives rest hvalue)
    exact .rule (.of_mem (by decide) hassign)

/-- Arguments are derived from the rule for arguments. -/
theorem derives_args {args : List Expr} {ts : List TokenKind} (rest : List TokenKind)
    (h : ItemList (Expr.Written 0) args ts) : Derives (.rule .args) ts rest := by
  match h with
  | .nil => exact .rule .list_nil
  | .cons he hes hlast =>
    exact .rule (.list_cons (Expr.Written.derives _ he) (derives_furtherArgs _ hes) hlast)

/-- The arguments behind the first one, each with a comma in front. -/
theorem derives_furtherArgs {args : List Expr} {ts : List TokenKind} (rest : List TokenKind)
    (h : FurtherItems (Expr.Written 0) args ts) :
    Derives (.star (.sign .comma ++ .rule .expr)) ts rest := by
  match h with
  | .nil => exact .starNil
  | .cons he hes => exact .further_cons (Expr.Written.derives _ he) (derives_furtherArgs rest hes)

end

end Expressions

section Statements

/-- The rule for statements of a form. There is none for a statement that could not be read. -/
def Stmt.rule? : Stmt → Option Rule
  | .var _ _ _ => some .varDecl
  | .const _ _ _ => some .constDecl
  | .func _ _ _ _ => some .funcDef
  | .class _ _ _ => some .classDef
  | .if _ _ _ _ => some .ifStmt
  | .loop _ _ => some .loopStmt
  | .while _ _ _ => some .whileStmt
  | .crud _ _ _ _ => some .crudStmt
  | .return _ _ => some .returnStmt
  | .block _ => some .block
  | .expr _ _ => some .expr
  | .error _ => none

/-- A statement without parts that could not be read has a rule, and it is one of the alternatives
for statements. -/
theorem Stmt.exists_rule? {stmt : Stmt} (hcount : stmt.errorCount = 0) :
    ∃ r, stmt.rule? = some r ∧ ∀ ts semi rest, Derives (.rule r) ts (semi ++ rest) →
      Optionally .semicolon semi → Derives (.rule .stmt) (ts ++ semi) rest := by
  cases stmt with
  | error => cases hcount
  | _ =>
    refine ⟨_, rfl, fun ts semi rest h hsemi => .rule (.seq ?_ (.optionally hsemi))⟩
    exact .of_mem (by decide) h

/-- Statements that begin with a parenthesis begin with arguments. -/
theorem Stmt.ListWritten.exists_arguments {follow next : Follow} {stmts : List Stmt}
    {us : List TokenKind} (h : Stmt.ListWritten follow next stmts us)
    (hcount : Stmt.errorCountOfAll stmts = 0) (hus : us.head? = some (.punctuator .leftParen)) :
    ∃ args ps rest, ItemList (Expr.Written 0) args ps ∧ us = ps ++ rest := by
  cases h with
  | nil => cases hus
  | @cons _ stmt stmts ts semi us hstmt _ _ _ =>
    -- the first statement begins with the parenthesis, so it is an expression
    obtain ⟨k, ts, rfl⟩ := List.exists_cons_of_ne_nil hstmt.ne_nil
    obtain rfl := Option.some.inj hus
    have hreadable (span : Span) (herror : stmt = .error span) : False := by
      rw [herror, Stmt.errorCountOfAll, Stmt.errorCount] at hcount
      omega
    obtain ⟨e, -, -, he⟩ := hstmt.exists_expr hreadable rfl
    rcases he.one_or_assign with he | ⟨_, _, _, _, -, hassign, -⟩
    · obtain ⟨arg, ps, rest, hts, hps, -⟩ :=
        (Chain.of_written Nat.zero_lt_one he).exists_arguments rfl
      exact ⟨[arg], ps, rest ++ semi ++ us, hps, by rw [hts]; simp [List.append_assoc]⟩
    · cases hassign

/-- The parameters behind the first one, each with a comma in front. -/
theorem derives_furtherParams {params : List Ident} {ts rest : List TokenKind}
    (h : FurtherItems Ident.Written params ts) :
    Derives (.star (.sign .comma ++ .identifier)) ts rest := by
  induction h with
  | nil => exact .starNil
  | cons hparam _ ih =>
    obtain rfl := hparam
    exact .further_cons .identifier ih

/-- Parameters are derived. -/
theorem derives_params {params : List Ident} {ts rest : List TokenKind}
    (h : ItemList Ident.Written params ts) : Derives (.list .identifier) ts rest := by
  cases h with
  | nil => exact .list_nil
  | cons hparam hparams hlast =>
    obtain rfl := hparam
    exact .list_cons .identifier (derives_furtherParams hparams) hlast

namespace Derives

variable {name : String} {op : CrudOp} {ts us vs rest : List TokenKind}

/-- The declaration of a variable without a value. -/
theorem varDecl : Derives (.rule .varDecl) [.keyword .var, .identifier name] rest := by
  have hbody : Derives (Rule.body .varDecl) ([.keyword .var] ++ [.identifier name] ++ []) rest :=
    .seq (.seq .token .identifier) .optNone
  exact .rule hbody

/-- The declaration of a variable with a value. -/
theorem varDeclWith (hvalue : Derives (.rule .expr) ts rest) :
    Derives (.rule .varDecl)
      (.keyword .var :: .identifier name :: .punctuator .assign :: ts) rest := by
  have hbody : Derives (Rule.body .varDecl)
      ([.keyword .var] ++ [.identifier name] ++ ([.punctuator .assign] ++ ts)) rest :=
    .seq (.seq .token .identifier) (.optSome (.seq .token hvalue))
  exact .rule hbody

/-- The declaration of a constant. -/
theorem constDecl (hvalue : Derives (.rule .expr) ts rest) :
    Derives (.rule .constDecl)
      (.keyword .const :: .identifier name :: .punctuator .assign :: ts) rest := by
  have hbody : Derives (Rule.body .constDecl)
      ([.keyword .const] ++ [.identifier name] ++ [.punctuator .assign] ++ ts) rest :=
    .seq (.seq (.seq .token .identifier) .token) hvalue
  exact .rule hbody

/-- The definition of a function. -/
theorem funcDef (hparams : Derives (.list .identifier) ts (us ++ rest))
    (hbody : Derives (.rule .block) us rest) :
    Derives (.rule .funcDef) (.keyword .func :: .identifier name :: ts ++ us) rest := by
  have hbody : Derives (Rule.body .funcDef)
      ([.keyword .func] ++ [.identifier name] ++ ts ++ us) rest :=
    .seq (.seq (.seq .token .identifier) hparams) hbody
  exact .rule hbody

/-- The definition of a class. -/
theorem classDef
    (hmembers : Derives
      (.star ((.rule .varDecl ||| .rule .constDecl ||| .rule .funcDef) ++ .opt (.sign .semicolon)))
      ts (.punctuator .rightBrace :: rest)) :
    Derives (.rule .classDef) (.keyword .class :: .identifier name ::
      .punctuator .leftBrace :: ts ++ [.punctuator .rightBrace]) rest := by
  have hbody : Derives (Rule.body .classDef) ([.keyword .class] ++ [.identifier name] ++
      [.punctuator .leftBrace] ++ ts ++ [.punctuator .rightBrace]) rest :=
    .seq (.seq (.seq (.seq .token .identifier) .token) hmembers) .token
  exact .rule hbody

/-- A conditional that ends with its body. -/
theorem ifStmt (hcondition : Derives (.rule .expr) ts (us ++ rest))
    (hbody : Derives (.rule .block) us rest) :
    Derives (.rule .ifStmt) (.keyword .if :: ts ++ us) rest := by
  have hbody : Derives (Rule.body .ifStmt) ([.keyword .if] ++ ts ++ us ++ []) rest :=
    .seq (.seq (.seq .token hcondition) hbody) .optNone
  rw [List.append_nil] at hbody
  exact .rule hbody

/-- A conditional with an alternative. -/
theorem ifStmtElse (hcondition : Derives (.rule .expr) ts (us ++ (.keyword .else :: vs ++ rest)))
    (hbody : Derives (.rule .block) us (.keyword .else :: vs ++ rest))
    (halternative : Derives (.rule .ifStmt ||| .rule .block) vs rest) :
    Derives (.rule .ifStmt) (.keyword .if :: ts ++ us ++ .keyword .else :: vs) rest := by
  have hbody : Derives (Rule.body .ifStmt)
      ([.keyword .if] ++ ts ++ us ++ ([.keyword .else] ++ vs)) rest :=
    .seq (.seq (.seq .token hcondition) hbody) (.optSome (.seq .token halternative))
  exact .rule hbody

/-- A loop. -/
theorem loopStmt (hbody : Derives (.rule .block) ts rest) :
    Derives (.rule .loopStmt) (.keyword .loop :: ts) rest := by
  have hbody : Derives (Rule.body .loopStmt) ([.keyword .loop] ++ ts) rest := .seq .token hbody
  exact .rule hbody

/-- A loop with a condition. -/
theorem whileStmt (hcondition : Derives (.rule .expr) ts (us ++ rest))
    (hbody : Derives (.rule .block) us rest) :
    Derives (.rule .whileStmt) (.keyword .while :: ts ++ us) rest := by
  have hbody : Derives (Rule.body .whileStmt) ([.keyword .while] ++ ts ++ us) rest :=
    .seq (.seq .token hcondition) hbody
  exact .rule hbody

/-- An operation on stored data is derived from its keyword. -/
theorem crudOp : Derives (.word .create ||| .word .read ||| .word .update ||| .word .delete)
    [.keyword op.keyword] rest := by
  cases op <;> exact .of_mem (by decide) .token

/-- A statement on stored data without arguments, where no parenthesis follows. -/
theorem crudStmt (hrest : rest.head? ≠ some (.punctuator .leftParen)) :
    Derives (.rule .crudStmt) [.keyword op.keyword, .identifier name] rest := by
  have hbody : Derives (Rule.body .crudStmt)
      ([.keyword op.keyword] ++ [.identifier name] ++ []) rest :=
    .seq (.seq crudOp .identifier) (.altRight (.notBefore hrest))
  exact .rule hbody

/-- A statement on stored data with arguments. -/
theorem crudStmtWith (hargs : Derives (.rule .args) ts rest) :
    Derives (.rule .crudStmt) (.keyword op.keyword :: .identifier name :: ts) rest := by
  have hbody : Derives (Rule.body .crudStmt)
      ([.keyword op.keyword] ++ [.identifier name] ++ ts) rest :=
    .seq (.seq crudOp .identifier) (.altLeft hargs)
  exact .rule hbody

/-- A `return` without a value. -/
theorem returnStmt : Derives (.rule .returnStmt) [.keyword .return] rest := by
  have hbody : Derives (Rule.body .returnStmt) ([.keyword .return] ++ []) rest :=
    .seq .token .optNone
  exact .rule hbody

/-- A `return` with a value. -/
theorem returnStmtWith (hvalue : Derives (.rule .expr) ts rest) :
    Derives (.rule .returnStmt) (.keyword .return :: ts) rest := by
  have hbody : Derives (Rule.body .returnStmt) ([.keyword .return] ++ ts) rest :=
    .seq .token (.optSome hvalue)
  exact .rule hbody

/-- Statements between braces. -/
theorem block (hstmts : Derives (.star (.rule .stmt)) ts (.punctuator .rightBrace :: rest)) :
    Derives (.rule .block) (.punctuator .leftBrace :: ts ++ [.punctuator .rightBrace]) rest := by
  have hbody : Derives (Rule.body .block)
      ([.punctuator .leftBrace] ++ ts ++ [.punctuator .rightBrace]) rest :=
    .seq (.seq .token hstmts) .token
  exact .rule hbody

end Derives

/-- A statement that may follow `else` is none on stored data. -/
theorem Stmt.IsAlternative.not_isBareCrud {stmt : Stmt} {ts : List TokenKind}
    (h : stmt.IsAlternative) : ¬ stmt.IsBareCrud ts := by
  rintro ⟨_, _, _, rfl, -⟩
  exact h

/-- A member of a class is none on stored data. -/
theorem Stmt.IsMember.not_isBareCrud {stmt : Stmt} {ts : List TokenKind} (h : stmt.IsMember) :
    ¬ stmt.IsBareCrud ts := by
  rintro ⟨_, _, _, rfl, -⟩
  exact h

mutual

/-- A statement without parts that could not be read is derived from its rule. -/
theorem Stmt.Written.derives {stmt : Stmt} {r : Rule} {ts rest : List TokenKind}
    (h : Stmt.Written .greedy stmt ts) (hcount : stmt.errorCount = 0)
    (hcrud : stmt.IsBareCrud ts → rest.head? ≠ some (.punctuator .leftParen))
    (hr : stmt.rule? = some r) : Derives (.rule r) ts rest := by
  match h with
  | .var =>
    obtain rfl := Option.some.inj hr
    exact .varDecl
  | .varWith hvalue =>
    obtain rfl := Option.some.inj hr
    exact .varDeclWith (hvalue.derives rest)
  | .const hvalue =>
    obtain rfl := Option.some.inj hr
    exact .constDecl (hvalue.derives rest)
  | .func hparams hbody =>
    obtain rfl := Option.some.inj hr
    exact .funcDef (derives_params hparams) (Block.Written.derives hbody hcount)
  | .class hmembers =>
    obtain rfl := Option.some.inj hr
    exact .classDef (derives_members hmembers hcount)
  | .if hcondition hbody =>
    obtain rfl := Option.some.inj hr
    obtain ⟨hcount, -⟩ := Nat.add_eq_zero_iff.1 hcount
    exact .ifStmt (hcondition.derives _) (Block.Written.derives hbody hcount)
  | @Stmt.Written.ifElse _ _ _ alternative _ _ _ vs hcondition hbody hkind hstmt =>
    obtain rfl := Option.some.inj hr
    obtain ⟨hcount, hcount'⟩ := Nat.add_eq_zero_iff.1 hcount
    -- behind `else` there is a conditional or a block, each with a rule of its own
    have hderives (r : Rule) (hr : alternative.rule? = some r) : Derives (.rule r) vs rest :=
      Stmt.Written.derives hstmt hcount' (absurd · hkind.not_isBareCrud) hr
    have helse : Derives (.rule .ifStmt ||| .rule .block) vs rest := by
      cases alternative with
      | «if» => exact .altLeft (hderives _ rfl)
      | block => exact .altRight (hderives _ rfl)
      | _ => exact absurd hkind id
    exact .ifStmtElse (hcondition.derives _) (Block.Written.derives hbody hcount) helse
  | .loop hbody =>
    obtain rfl := Option.some.inj hr
    exact .loopStmt (Block.Written.derives hbody hcount)
  | .while hcondition hbody =>
    obtain rfl := Option.some.inj hr
    exact .whileStmt (hcondition.derives _) (Block.Written.derives hbody hcount)
  | @Stmt.Written.crud _ op target span =>
    obtain rfl := Option.some.inj hr
    exact .crudStmt (hcrud ⟨op, target, span, rfl, rfl⟩)
  | .crudWith hargs =>
    obtain rfl := Option.some.inj hr
    exact .crudStmtWith (derives_args rest hargs)
  | .return =>
    obtain rfl := Option.some.inj hr
    exact .returnStmt
  | .returnWith hvalue =>
    obtain rfl := Option.some.inj hr
    exact .returnStmtWith (hvalue.derives rest)
  | .block hbody =>
    obtain rfl := Option.some.inj hr
    exact Block.Written.derives hbody hcount
  | .expr he =>
    obtain rfl := Option.some.inj hr
    exact he.derives rest
  | .error _ => cases hr

/-- A block in which everything could be read is derivable. -/
theorem Block.Written.derives {body : Block Stmt} {ts rest : List TokenKind}
    (h : Block.Written .greedy body ts) (hcount : Block.errorCount body = 0) :
    Derives (.rule .block) ts rest := by
  match body, h with
  | _, .braces hstmts => exact .block (Stmt.ListWritten.derives hstmts hcount (by simp))

/-- Statements are derived one behind the other. -/
theorem Stmt.ListWritten.derives {stmts : List Stmt} {ts rest : List TokenKind}
    (h : Stmt.ListWritten .greedy .greedy stmts ts) (hcount : Stmt.errorCountOfAll stmts = 0)
    (hrest : rest.head? ≠ some (.punctuator .leftParen)) :
    Derives (.star (.rule .stmt)) ts rest := by
  match h with
  | .nil => exact .starNil
  | @Stmt.ListWritten.cons _ _ stmt stmts ts semi us hstmt hsemi hgreedy hstmts =>
    obtain ⟨hcount, hcount'⟩ := Nat.add_eq_zero_iff.1 hcount
    -- each statement is derived from the rule for its form, as one of the alternatives
    obtain ⟨r, hr, hrule⟩ := Stmt.exists_rule? hcount
    -- a parenthesis behind a bare statement on stored data would have been read as arguments
    have hcrud (hbare : stmt.IsBareCrud ts) :
        (semi ++ (us ++ rest)).head? ≠ some (.punctuator .leftParen) := by
      rcases hsemi with rfl | rfl
      · cases us with
        | nil => exact hrest
        | cons k us =>
          intro hk
          obtain ⟨args, ps, vs, hargs, hus⟩ := hstmts.exists_arguments hcount' hk
          exact hgreedy hbare args ps vs hargs hus
      · simp
    exact .starCons (hrule _ _ _ (Stmt.Written.derives hstmt hcount hcrud hr) hsemi)
      (Stmt.ListWritten.derives hstmts hcount' hrest)

/-- Members of a class are derived one behind the other. -/
theorem derives_members {members : List Stmt} {ts rest : List TokenKind}
    (h : Stmt.ListWritten .greedy .isMember members ts)
    (hcount : Stmt.errorCountOfAll members = 0) :
    Derives (.star ((.rule .varDecl ||| .rule .constDecl ||| .rule .funcDef) ++
      .opt (.sign .semicolon))) ts rest := by
  match h with
  | .nil => exact .starNil
  | @Stmt.ListWritten.cons _ _ stmt members ts semi us hstmt hsemi hmember hmembers =>
    obtain ⟨hcount, hcount'⟩ := Nat.add_eq_zero_iff.1 hcount
    have hderives (r : Rule) (next : List TokenKind) (hr : stmt.rule? = some r) :
        Derives (.rule r) ts next :=
      Stmt.Written.derives hstmt hcount (absurd · hmember.not_isBareCrud) hr
    -- a member has one of three forms, which are the alternatives of the rule for members
    have hbody (next : List TokenKind) :
        Derives (.rule .varDecl ||| .rule .constDecl ||| .rule .funcDef) ts next := by
      cases stmt with
      | var => exact .altLeft (.altLeft (hderives _ next rfl))
      | const => exact .altLeft (.altRight (hderives _ next rfl))
      | func => exact .altRight (hderives _ next rfl)
      | _ => exact absurd hmember id
    exact .starCons (.seq (hbody _) (.optionally hsemi)) (derives_members hmembers hcount')

end

end Statements

namespace Parsing

/-- A source is read without a diagnostic if and only if the grammar derives its tokens. -/
theorem diagnostics_eq_nil_iff_derivable (lines : LineIndex) (tokens : List Token) :
    (ofTokens tokens).diagnostics lines tokens = [] ↔ Derivable (kindsOf tokens) := by
  rw [diagnostics, List.map_eq_nil_iff]
  constructor
  · intro hsilent
    -- the tokens spell the tree that is read, and it has no statements that could not be read
    obtain ⟨program, -, hwritten, hcount⟩ := exists_program tokens
    rw [hsilent] at hcount
    exact .rule (hwritten.derives hcount.symm (by simp))
  · intro h
    -- what is derived can be written as settled statements, and these are read back
    obtain ⟨stmts, hstmts⟩ := h.exists_settled
    obtain ⟨-, -, -, hsilent⟩ := exists_program_of_settled hstmts
    exact hsilent

end Parsing

end CrudLang
