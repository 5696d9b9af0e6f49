import CrudLang.Proofs.Grammar.Separated

/-!
# Optional separators carry no meaning

Where a statement ends is decided by the token behind it, as far as it does not carry the statement
on. A separator carries nothing on, and with separators put in, each statement begins and ends as
before. So statements that are settled stay settled (`Stmt.Settled.separated`), if the separators
are put in where these statements end. That the tokens spell the same tree is enough for that: they
can be cut into the pieces of a tree in one way only (`Stmt.Written.cut`). By induction on where the
separators are put in, the whole program stays settled (`Stmt.ListSeparated.settled`), and so it is
read as before (`Parsing.separators_optional`).
-/

namespace CrudLang

section Settled

mutual

/-- In a settled statement everything could be read. -/
theorem Stmt.Written.errorCount_eq_zero {stmt : Stmt} {ts : List TokenKind}
    (h : Stmt.Written .settled stmt ts) (hstmt : ∀ span, stmt ≠ .error span) :
    stmt.errorCount = 0 := by
  match h with
  | .var | .varWith _ | .const _ | .crud | .crudWith _ | .return | .returnWith _ | .expr _ => rfl
  | .func _ hbody | .if _ hbody | .loop hbody | .while _ hbody | .block hbody =>
    exact Block.Written.errorCount_eq_zero hbody
  -- neither a member nor what stands behind `else` is an error by itself
  | .class hmembers =>
    refine Stmt.ListWritten.errorCount_eq_zero (fun stmt _ _ hmember span hstmt => ?_) hmembers
    rw [hstmt] at hmember
    exact hmember
  | .ifElse _ hbody hkind halternative =>
    refine Nat.add_eq_zero_iff.2 ⟨Block.Written.errorCount_eq_zero hbody, ?_⟩
    refine Stmt.Written.errorCount_eq_zero halternative fun span hstmt => ?_
    rw [hstmt] at hkind
    exact hkind
  | .error _ => exact absurd rfl (hstmt _)

theorem Block.Written.errorCount_eq_zero {body : Block Stmt} {ts : List TokenKind}
    (h : Block.Written .settled body ts) : Block.errorCount body = 0 := by
  match body, h with
  | _, .braces hstmts =>
    exact Stmt.ListWritten.errorCount_eq_zero (fun _ _ _ hstmt _ => hstmt.readable) hstmts

theorem Stmt.ListWritten.errorCount_eq_zero {next : Follow} {stmts : List Stmt}
    {ts : List TokenKind} (hnext : ∀ stmt ts us, next stmt ts us → ∀ span, stmt ≠ .error span)
    (h : Stmt.ListWritten .settled next stmts ts) : Stmt.errorCountOfAll stmts = 0 := by
  match h with
  | .nil => rfl
  | .cons hstmt _ hafter hstmts =>
    exact Nat.add_eq_zero_iff.2 ⟨Stmt.Written.errorCount_eq_zero hstmt (hnext _ _ _ hafter),
      Stmt.ListWritten.errorCount_eq_zero hnext hstmts⟩

end

end Settled

/-- A statement on stored data that has no arguments when separators are put in had none before. -/
theorem Stmt.Separated.isBareCrud {follow : Follow} {stmt : Stmt} {ts us : List TokenKind}
    (h : Stmt.Separated follow stmt ts us) (hus : stmt.IsBareCrud us) : stmt.IsBareCrud ts := by
  obtain ⟨op, target, span, rfl, hus⟩ := hus
  cases h with
  | crud => exact ⟨op, target, span, rfl, rfl⟩
  | crudWith hargs =>
    obtain rfl : _ = [] := by simpa using hus
    exact absurd rfl (written_args hargs).2.ne_nil

/-- A statement stays settled when separators are put in, inside it or behind it. -/
theorem Stmt.Settled.separated {follow : Follow} {stmt : Stmt} {ts ts' us us' : List TokenKind}
    (h : stmt.Settled ts us) (hstmt : Stmt.Separated follow stmt ts ts')
    (hus : us'.head? = us.head? ∨ us'.head? = some (.punctuator .semicolon)) :
    stmt.Settled ts' us' := by
  rcases hus with heq | hsemi
  · have hafter : stmt.Settled ts us' := h.of_head?_eq heq
    have hlast := hstmt.sameEnds.last
    exact { hafter with
      expression hends := by
        have he := hafter.expression hends
        exact ⟨he.operator, fun hname => he.arguments (hlast ▸ hname), he.assign⟩
      bareCrud hbare := hafter.bareCrud (hstmt.isBareCrud hbare) }
  · refine .of_stops (fun _ => h.readable) fun k hk => ?_
    obtain rfl := Option.some.inj (hsemi.symm.trans hk)
    simp [TokenKind.Stops, TokenKind.startsExpression, BinaryOp.ofKind?]

/-- A condition on statements and what follows them that only statements meet that could be read,
and that separators do not change. -/
structure Follow.Keeps (next : Follow) : Prop where
  readable {stmt ts us} : next stmt ts us → ∀ span, stmt ≠ .error span
  separated {follow stmt ts ts' us us'} : next stmt ts us → Stmt.Separated follow stmt ts ts' →
    (us'.head? = us.head? ∨ us'.head? = some (.punctuator .semicolon)) → next stmt ts' us'

theorem Follow.Keeps.settled : Follow.settled.Keeps where
  readable h _ := h.readable
  separated := Stmt.Settled.separated

theorem Follow.Keeps.isMember : Follow.isMember.Keeps where
  readable hmember span hstmt := by
    rw [hstmt] at hmember
    exact hmember
  separated hmember _ _ := hmember

/-- What stands behind a statement begins as before, or with the semicolon that was put in. -/
theorem MayBePutIn.head?_append {p : Punctuator} {ts ts' us us' : List TokenKind}
    (h : MayBePutIn p ts ts') (hus : us'.head? = us.head?) :
    (ts' ++ us').head? = (ts ++ us).head? ∨ (ts' ++ us').head? = some (.punctuator p) := by
  obtain ⟨-, rfl | rfl⟩ := h
  · rw [List.head?_append, List.head?_append, hus]
    exact .inl rfl
  · exact .inr rfl

mutual

/-- A statement that is written as settled statements inside stays so when separators are put in.
The pieces of the tree stand in the same places in both writings, so the induction goes through both
at once. -/
theorem Stmt.Separated.settled {stmt : Stmt} {ts us vs : List TokenKind}
    (h : Stmt.Separated .any stmt ts us) (hsettled : Stmt.Written .settled stmt vs)
    (hcount : stmt.errorCount = 0) (hvs : vs = ts) : Stmt.Written .settled stmt us := by
  match h, hsettled with
  -- without statements inside, there is nothing to settle
  | .var, _ => exact .var
  | .varWith hvalue, _ => exact .varWith hvalue.written.2
  | .const hvalue, _ => exact .const hvalue.written.2
  -- elsewhere, a block is cut out behind the parameters or the condition
  | .func hparams hbody, .func hparams' hbody' =>
    obtain ⟨hparams, hparams''⟩ := written_params hparams
    have hcounts := (recordedCount_params hparams').trans (recordedCount_params hparams).symm
    obtain ⟨-, hus, -⟩ := hbody'.cut hbody.written hcount hcounts hparams'.ends hparams.ends
      .nil .nil (by simpa using hvs)
    exact .func hparams'' (Block.Separated.settled hbody hbody' hcount hus)
  | .class hmembers, .class hmembers' =>
    have hts := List.append_cancel_right (List.cons.inj (List.cons.inj (List.cons.inj hvs).2).2).2
    exact .class (Stmt.ListSeparated.settled .isMember hmembers hmembers' hcount hts)
  | .if hcondition hbody, .if hcondition' hbody' =>
    obtain ⟨hcondition, hcondition''⟩ := hcondition.written
    have hcount := (Nat.add_eq_zero_iff.1 hcount).1
    obtain ⟨hus, -⟩ := hbody'.cut_condition hbody.written hcount hcondition' hcondition .nil .nil
      (by simpa using hvs)
    exact .if hcondition'' (Block.Separated.settled hbody hbody' hcount hus)
  | .ifElse hcondition hbody hkind halternative, .ifElse hcondition' hbody' _ halternative' =>
    obtain ⟨hcondition, hcondition''⟩ := hcondition.written
    obtain ⟨hcount, hcount'⟩ := Nat.add_eq_zero_iff.1 hcount
    obtain ⟨hus, hvs⟩ := hbody'.cut_condition hbody.written hcount hcondition' hcondition
      (.recorded rfl) (.recorded rfl) (List.cons.inj hvs).2
    exact .ifElse hcondition'' (Block.Separated.settled hbody hbody' hcount hus) hkind
      (Stmt.Separated.settled halternative halternative' hcount' (List.cons.inj hvs).2)
  | .loop hbody, .loop hbody' =>
    exact .loop (Block.Separated.settled hbody hbody' hcount (List.cons.inj hvs).2)
  | .while hcondition hbody, .while hcondition' hbody' =>
    obtain ⟨hcondition, hcondition''⟩ := hcondition.written
    obtain ⟨hus, -⟩ := hbody'.cut_condition hbody.written hcount hcondition' hcondition .nil .nil
      (by simpa using hvs)
    exact .while hcondition'' (Block.Separated.settled hbody hbody' hcount hus)
  | .crud, _ => exact .crud
  | .crudWith hargs, _ => exact .crudWith (written_args hargs).2
  | .return, _ => exact .return
  | .returnWith hvalue, _ => exact .returnWith hvalue.written.2
  | .block hbody, .block hbody' => exact .block (Block.Separated.settled hbody hbody' hcount hvs)
  | .expr he, _ => exact .expr he.written.2

theorem Block.Separated.settled {body : Block Stmt} {ts us vs : List TokenKind}
    (h : Block.Separated .any body ts us) (hsettled : Block.Written .settled body vs)
    (hcount : Block.errorCount body = 0) (hvs : vs = ts) : Block.Written .settled body us := by
  match body, h, hsettled with
  | _, .braces hstmts, .braces hstmts' =>
    have hts := List.append_cancel_right (List.cons.inj hvs).2
    exact .braces (Stmt.ListSeparated.settled .settled hstmts hstmts' hcount hts)

theorem Stmt.ListSeparated.settled {next next' : Follow} (hnext : next.Keeps) {stmts : List Stmt}
    {ts us vs : List TokenKind} (h : Stmt.ListSeparated .any next' stmts ts us)
    (hsettled : Stmt.ListWritten .settled next stmts vs)
    (hcount : Stmt.errorCountOfAll stmts = 0) (hvs : vs = ts) :
    Stmt.ListWritten .settled next stmts us := by
  match h, hsettled with
  | .nil, _ => exact .nil
  | .cons hstmt hsemi _ hstmts, .cons hstmt' hsemi' hafter hstmts' =>
    obtain ⟨hcount, hcounts⟩ := Nat.add_eq_zero_iff.1 hcount
    -- both writings have the statement in the same place
    obtain ⟨rfl, rfl, rfl⟩ :=
      hstmt'.cut hstmt.written hsemi' hsemi.1 hstmts' hstmts.written hcount hcounts hvs
    exact .cons (Stmt.Separated.settled hstmt hstmt' hcount rfl) hsemi.optionally
      (hnext.separated hafter hstmt (hsemi.head?_append hstmts.head?_eq))
      (Stmt.ListSeparated.settled hnext hstmts hstmts' hcounts rfl)

end

section Spans

variable {stmt : Stmt} {ts us : List TokenKind}

theorem Stmt.EndsInExpression.of_eraseSpans (h : stmt.eraseSpans.EndsInExpression) :
    stmt.EndsInExpression := by
  cases stmt with
  | var name init => cases init with
    | none => exact h
    | some value => trivial
  | «return» value => cases value with
    | none => exact h
    | some value => trivial
  | const | expr => trivial
  | _ => exact h

theorem Stmt.IsBareCrud.of_eraseSpans (h : stmt.eraseSpans.IsBareCrud ts) : stmt.IsBareCrud ts := by
  obtain ⟨op, target, span, hstmt, rfl⟩ := h
  cases stmt with
  | crud op' target' args' span' =>
    rw [Stmt.eraseSpans] at hstmt
    obtain ⟨rfl, rfl, hargs, -⟩ := Stmt.crud.inj hstmt
    obtain rfl := List.map_eq_nil_iff.1 hargs
    exact ⟨op', target', span', rfl, rfl⟩
  | _ => cases hstmt

/-- The spans in a statement make no difference to what carries it on. -/
theorem Stmt.Settled.eraseSpans (h : stmt.Settled ts us) : stmt.eraseSpans.Settled ts us where
  readable {span} hspan := by
    cases stmt with
    | error => exact h.readable rfl
    | _ => cases hspan
  assign := h.assign
  alternative := h.alternative
  expression hends := h.expression hends.of_eraseSpans
  bareCrud hbare := h.bareCrud hbare.of_eraseSpans
  bareReturn {span k} hspan := by
    cases stmt with
    | «return» value => cases value with
      | none => exact h.bareReturn rfl
      | some value => cases hspan
    | _ => cases hspan

end Spans

namespace Parsing

/-- Tokens that are read without a diagnostic spell their program without an error. -/
theorem listWritten_greedy {tokens : List Token} {program : Program} {lines : LineIndex}
    (hsilent : (ofTokens tokens).diagnostics lines tokens = [])
    (hprogram : (ofTokens tokens).program = some program) :
    Stmt.ListWritten .greedy .greedy program.stmts (kindsOf tokens) ∧ program.errorCount = 0 := by
  obtain ⟨program', hprogram', hwritten, hcount⟩ := exists_program tokens
  obtain rfl := Option.some.inj (hprogram'.symm.trans hprogram)
  have hfailures : (ofTokens tokens).failures = [] := List.map_eq_nil_iff.1 hsilent
  rw [hfailures] at hcount
  exact ⟨hwritten, hcount.symm⟩

/-- Without the spans, they are settled statements. -/
theorem listWritten_settled {tokens : List Token} {program : Program} {lines : LineIndex}
    (hsilent : (ofTokens tokens).diagnostics lines tokens = [])
    (hprogram : (ofTokens tokens).program = some program) :
    Stmt.ListWritten .settled .settled (Stmt.eraseSpansOfAll program.stmts) (kindsOf tokens) := by
  obtain ⟨hwritten, hcount⟩ := listWritten_greedy hsilent hprogram
  have hderivable : Derivable (kindsOf tokens) := .rule (hwritten.derives hcount (by simp))
  obtain ⟨stmts, hstmts⟩ := hderivable.exists_settled
  -- the settled statements are those of the program, up to spans
  obtain ⟨program', hprogram', hlike, -⟩ := exists_program_of_settled hstmts
  obtain rfl := Option.some.inj (hprogram'.symm.trans hprogram)
  have hcount := hstmts.errorCount_eq_zero fun _ _ _ => Follow.Keeps.settled.readable
  have herase (stmt : Stmt) (ts us : List TokenKind) (h : Follow.settled stmt ts us) :
      Follow.settled stmt.eraseSpans ts us := Stmt.Settled.eraseSpans h
  have hsettled := ((hstmts.separated hcount).eraseSpans herase herase).written
  rwa [Stmt.eraseSpansOfAll_eq_map, ← hlike, ← Stmt.eraseSpansOfAll_eq_map] at hsettled

/-- Tokens that are read without a diagnostic spell their program, and none of the separators that
are missing needs to be put in. -/
theorem separated_self {tokens : List Token} {program : Program} {lines : LineIndex}
    (hsilent : (ofTokens tokens).diagnostics lines tokens = [])
    (hprogram : (ofTokens tokens).program = some program) :
    program.Separated (kindsOf tokens) (kindsOf tokens) := by
  obtain ⟨hwritten, hcount⟩ := listWritten_greedy hsilent hprogram
  exact (hwritten.mono (fun _ _ _ _ => trivial) fun _ _ _ _ => trivial).separated hcount

/-- Optional separators carry no meaning: if tokens are read without a diagnostic, and semicolons
are put in behind any statements and members of classes that have none, and commas behind the last
items of any lists that have none there, then the tokens are again read without a diagnostic, as the
same tree up to spans. -/
theorem separators_optional {tokens tokens' : List Token} {program : Program}
    {lines : LineIndex} (hsilent : (ofTokens tokens).diagnostics lines tokens = [])
    (hprogram : (ofTokens tokens).program = some program)
    (h : program.Separated (kindsOf tokens) (kindsOf tokens')) (lines' : LineIndex) :
    (ofTokens tokens').diagnostics lines' tokens' = [] ∧
      (ofTokens tokens').program.map Program.eraseSpans = some program.eraseSpans := by
  have hsettled := listWritten_settled hsilent hprogram
  have hcount := hsettled.errorCount_eq_zero fun _ _ _ => Follow.Keeps.settled.readable
  have herased := Stmt.ListSeparated.eraseSpans (fun _ _ _ => id) (fun _ _ _ => id) h
  -- the same statements are settled in both lists
  obtain ⟨program', hprogram', hlike, -⟩ := exists_program_of_settled hsettled
  obtain rfl := Option.some.inj (hprogram'.symm.trans hprogram)
  obtain ⟨program', hread, hlike', hfailures⟩ :=
    exists_program_of_settled (herased.settled .settled hsettled hcount rfl)
  refine ⟨by rw [diagnostics, hfailures, List.map_nil], ?_⟩
  rw [hread, Option.map_some, Program.eraseSpans, Program.eraseSpans, hlike', ← hlike]

/-- The class `class C { func f(a) { read D(a) } }` with all separators that it lacks: a comma
behind the parameter and behind the argument, and semicolons behind the statement, the member and
the class. -/
theorem separators_optional_class :
    let name (text : String) : Ident := ⟨text, default⟩
    let body : Block Stmt := ⟨[.crud .read (name "D") [.name (name "a")] default], default⟩
    let program : Program :=
      ⟨[.class (name "C") [.func (name "f") [name "a"] body default] default], default⟩
    let kinds : List TokenKind :=
      [.keyword .class, .identifier "C", .punctuator .leftBrace, .keyword .func, .identifier "f",
        .punctuator .leftParen, .identifier "a", .punctuator .rightParen, .punctuator .leftBrace,
        .keyword .read, .identifier "D", .punctuator .leftParen, .identifier "a",
        .punctuator .rightParen, .punctuator .rightBrace, .punctuator .rightBrace]
    let kinds' : List TokenKind :=
      [.keyword .class, .identifier "C", .punctuator .leftBrace, .keyword .func, .identifier "f",
        .punctuator .leftParen, .identifier "a", .punctuator .comma, .punctuator .rightParen,
        .punctuator .leftBrace, .keyword .read, .identifier "D", .punctuator .leftParen,
        .identifier "a", .punctuator .comma, .punctuator .rightParen, .punctuator .semicolon,
        .punctuator .rightBrace, .punctuator .semicolon, .punctuator .rightBrace,
        .punctuator .semicolon]
    let tokens : List Token := kinds.map fun kind => ⟨kind, kind.text, 1, default⟩
    let tokens' : List Token := kinds'.map fun kind => ⟨kind, kind.text, 1, default⟩
    let lines := LineIndex.ofSource ""
    (ofTokens tokens).diagnostics lines tokens = [] ∧ (ofTokens tokens).program = some program ∧
      program.Separated (kindsOf tokens) (kindsOf tokens') ∧
      (ofTokens tokens').diagnostics lines tokens' = [] ∧
      (ofTokens tokens').program.map Program.eraseSpans = some program.eraseSpans := by
  intro name body program kinds kinds' tokens tokens' lines
  have hsilent : (ofTokens tokens).diagnostics lines tokens = [] := by cbv
  have hprogram : (ofTokens tokens).program = some program := by cbv
  have hcomma : MayBePutIn .comma [] [.punctuator .comma] := ⟨.inl rfl, .inr rfl⟩
  have hsemicolon : MayBePutIn .semicolon [] [.punctuator .semicolon] := ⟨.inl rfl, .inr rfl⟩
  have harg : Expr.Separated 0 (.name (name "a")) [.identifier "a"] [.identifier "a"] := .atom .name
  have hparam : (name "a").Separated [.identifier "a"] [.identifier "a"] := ⟨rfl, rfl⟩
  have hread : Stmt.Separated .any (.crud .read (name "D") [.name (name "a")] default) _ _ :=
    .crudWith (.cons harg .nil hcomma)
  have hbody : Block.Separated .any body _ _ := .braces (.cons hread hsemicolon trivial .nil)
  have hfunc : Stmt.Separated .any (.func (name "f") [name "a"] body default) _ _ :=
    .func (.cons hparam .nil hcomma) hbody
  have hclass : Stmt.Separated .any (.class (name "C") [_] default) _ _ :=
    .class (.cons hfunc hsemicolon trivial .nil)
  have h : program.Separated (kindsOf tokens) (kindsOf tokens') :=
    .cons hclass hsemicolon trivial .nil
  exact ⟨hsilent, hprogram, h, separators_optional hsilent hprogram h lines⟩

end Parsing

end CrudLang
