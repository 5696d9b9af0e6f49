import CrudLang.Proofs.Grammar.Braces
import CrudLang.Proofs.Grammar.StatementSpelling

/-!
# Recovery from syntax errors

Reading a program always gets to the end of the input. Statements are never stuck but at the end or
at a closing brace (`of_statementBy_eq_fail`), so a block ends at its matching brace and need
not be skipped as a whole (`statementBy_strictBlock_eq`), and what stops the statements of a program
is the end of the input. The bounds on the rounds of a recursion and of a repetition are never met:
each round reads a token (`expression_eq`, `statementBy_eq`, `Parser.exists_many_eq_ok`).

* `Parsing.length_diagnostics_eq_errorCount`: for every list of tokens there is a tree, and it has
  as many statements that could not be read as there are diagnostics.
* `Parsing.exists_program_written`: the tokens of the input spell that tree, each of them once.
-/

namespace CrudLang

namespace Grammar

open CrudLang.Parser

section Statements

variable {block : Parser Stmt → Parser (Block Stmt)} (hblock : IsBlockGuarded block)
include hblock

/-- A statement can be read or skipped unless the input is at its end or at a closing brace. -/
theorem of_statementBy_eq_fail {s : State} {f : Failure} (hs : statementBy block s = .fail f) :
    s.rest.tokens = [] ∨
      ∃ r rest, s.rest.tokens = r :: rest ∧ r.kind = .punctuator .rightBrace := by
  cases htokens : s.rest.tokens with
  | nil => exact .inl rfl
  | cons r rest =>
    -- before any other token, the recovery would skip something
    refine .inr ⟨r, rest, rfl, Classical.byContradiction fun hr => ?_⟩
    obtain ⟨v, t, hv⟩ := exists_statementError_eq_ok (s := { s with pending := none }) htokens hr
    rw [statementBy_eq hblock, statementStep, recoverWith] at hs
    split at hs
    · cases hs
    · rw [hv] at hs
      cases hs

end Statements

section StrictBlocks

theorem consumes_statementBy_strictBlock : Consumes (statementBy strictBlock) :=
  .of_spells spells_statementBy_strictBlock fun _ _ _ h => h.ne_nil rfl

theorem keepsDepth_statementStep {b : Parser (Block Stmt)} (hb : KeepsDepth b) :
    KeepsDepth (statementStep b) :=
  @BlockGuarded.statementStep _ _ blockGuarded_keepsDepth b b hb

theorem keepsDepth_statementBy_strictBlock : KeepsDepth (statementBy strictBlock) :=
  .fix fun p hp => keepsDepth_statementStep (blockGuarded_keepsDepth.strictBlock (q := p) hp)

/-- Between braces that match, statements are read up to the closing brace. -/
theorem exists_between_many_statementBy_eq_ok {s : State} {l : Token} {ts after : List Token}
    (hs : s.rest.tokens = l :: ts) (hl : l.kind = .punctuator .leftBrace)
    (hafter : afterClosing 0 ts = some after) :
    ∃ stmts t, between .leftBrace .rightBrace (many (statementBy strictBlock)) s = .ok stmts t ∧
      t.rest.tokens = after := by
  have hfail (u : State) (f : Failure) (hf : statementBy strictBlock u = .fail f) :
      afterClosing 0 u.rest.tokens = none ∨
        ∃ r rest, u.rest.tokens = r :: rest ∧ r.kind = .punctuator .rightBrace := by
    rcases of_statementBy_eq_fail isBlockGuarded_strictBlock hf with hend | hclose
    · exact .inl (by rw [hend]; rfl)
    · exact .inr hclose
  exact exists_between_many_eq_ok consumes_statementBy_strictBlock
    keepsDepth_statementBy_strictBlock (fun u f _ hf => hfail u f hf) hs hl hafter

/-- Statements between braces are read if the braces match. -/
theorem exists_bracedStatements_eq_ok {s : State} {l : Token} {ts after : List Token}
    (hs : s.rest.tokens = l :: ts) (hl : l.kind = .punctuator .leftBrace)
    (hafter : afterClosing 0 ts = some after) :
    ∃ body t, bracedStatements (statementBy strictBlock) s = .ok body t := by
  obtain ⟨stmts, t, ht, -⟩ := exists_between_many_statementBy_eq_ok hs hl hafter
  exact exists_withSpan_eq_ok (exists_bind_eq_ok ⟨stmts, t, ht⟩ fun stmts t =>
    ⟨Block.mk stmts, t, rfl⟩)

/-- A block that could be skipped has matching braces. -/
theorem exists_afterClosing_of_skippedBlock {s t : State} {body : Block Stmt}
    (hs : skippedBlock s = .ok body t) : ∃ l ts after, s.rest.tokens = l :: ts ∧
      l.kind = .punctuator .leftBrace ∧ afterClosing 0 ts = some after := by
  have hbraces : Ensures skippedBlock fun _ read rest _ => ∃ l ts, read = l :: ts ∧
      l.kind = .punctuator .leftBrace ∧ afterClosing 0 (ts ++ rest) = some rest := by
    refine .withSpan ?_
    refine keepsDepth_balanced.ensures_braces.bind fun _ _ _ => ?_
    exact .pure fun rest h => by simpa using h
  obtain ⟨read, new, hread, -, l, ts, rfl, hl, hafter⟩ := hbraces s body t hs
  exact ⟨l, _, _, hread, hl, hafter⟩

/-- A block is never skipped: if its braces match, its statements can be read. -/
theorem block_statementBy_strictBlock :
    block (statementBy strictBlock) = strictBlock (statementBy strictBlock) := by
  have hrecover : recoverWith (bracedStatements (statementBy strictBlock)) skippedBlock =
      bracedStatements (statementBy strictBlock) := by
    funext s
    rw [recoverWith]
    cases hbraced : bracedStatements (statementBy strictBlock) s with
    | ok body t => rfl
    | fail f =>
      cases hskipped : skippedBlock { s with pending := none } with
      | fail f' => rfl
      | ok body t =>
        -- the braces match, so the statements between them would have been read
        obtain ⟨l, ts, after, hs, hl, hafter⟩ := exists_afterClosing_of_skippedBlock hskipped
        obtain ⟨body', t', hok⟩ := exists_bracedStatements_eq_ok (s := s) hs hl hafter
        rw [hbraced] at hok
        cases hok
  rw [block, strictBlock, hrecover]

/-- Skipping blocks as a whole makes no difference. -/
theorem statementBy_strictBlock_eq : statementBy strictBlock = statement := by
  apply eq_fix_of_eq (isGuarded_statementStep isBlockGuarded_block)
  rw [block_statementBy_strictBlock]
  exact statementBy_eq isBlockGuarded_strictBlock

theorem exists_between_many_statement_eq_ok {s : State} {l : Token} {ts after : List Token}
    (hs : s.rest.tokens = l :: ts) (hl : l.kind = .punctuator .leftBrace)
    (hafter : afterClosing 0 ts = some after) :
    ∃ stmts t, between .leftBrace .rightBrace (many statement) s = .ok stmts t ∧
      t.rest.tokens = after :=
  statementBy_strictBlock_eq ▸ exists_between_many_statementBy_eq_ok hs hl hafter

/-- The equation for statements, without the skipping of blocks. -/
theorem statement_eq : statement = statementStep (strictBlock statement) := by
  rw [← statementBy_strictBlock_eq]
  exact statementBy_eq isBlockGuarded_strictBlock

end StrictBlocks

theorem keepsDepth_statement : KeepsDepth statement :=
  statementBy_strictBlock_eq ▸ keepsDepth_statementBy_strictBlock

/-- The tokens of a statement spell it, and there are as many failures as statements inside that
could not be read. -/
theorem spells_statement : Spells statement Stmt.Reading :=
  statementBy_strictBlock_eq ▸ spells_statementBy_strictBlock

theorem consumes_statement : Consumes statement :=
  .of_spells spells_statement fun _ _ _ h => h.ne_nil rfl

theorem consumes_member_strictBlock : Consumes (member (strictBlock statement)) :=
  .of_spells (spells_member (spells_strictBlock spells_statement)) fun _ _ _ h => h.1.ne_nil rfl

/-- A statement of a program, or a stray brace. -/
theorem spells_recoverWith_strayBrace : Spells (recoverWith statement strayBrace) Stmt.Reading := by
  refine .recoverWith spells_statement (spells_strayBrace.mono fun stmt ts us n h => ?_)
  obtain ⟨⟨hts, span, rfl⟩, rfl⟩ := h
  exact ⟨ts, [], (List.append_nil ts).symm, .inl rfl, .of_written (.error hts) (by simp) rfl⟩

theorem spells_statements : Spells (statements statement) (Stmt.ListReading .greedy) :=
  spells_many spells_recoverWith_strayBrace

theorem consumes_recoverWith_strayBrace : Consumes (recoverWith statement strayBrace) :=
  .of_spells spells_recoverWith_strayBrace fun _ _ _ h => h.ne_nil rfl

/-- At the top level, only the end of the input stops the statements. -/
theorem exists_statements_eq_ok (s : State) :
    ∃ stmts t, statements statement s = .ok stmts t ∧ t.rest.tokens = [] := by
  obtain ⟨stmts, t, u, f, hstmts, hu, hf⟩ := exists_many_eq_ok consumes_recoverWith_strayBrace s
  refine ⟨stmts, t, hstmts, ?_⟩
  rw [← hu]
  rw [recoverWith] at hf
  split at hf
  next => cases hf
  next f' hfail =>
    rcases of_statementBy_eq_fail isBlockGuarded_block hfail with hend | ⟨r, rest, htokens, hr⟩
    · exact hend
    -- a closing brace is taken as a statement that cannot be read
    · obtain ⟨t', hclose, -⟩ := exists_token_eq_ok (s := { u with pending := none }) htokens
      rw [hr] at hclose
      obtain ⟨v, t'', hstray⟩ : ∃ v t', strayBrace { u with pending := none } = .ok v t' :=
        exists_withSpan_eq_ok (exists_bind_eq_ok ⟨(), t', hclose⟩ fun _ t =>
          ⟨Stmt.error, t, rfl⟩)
      rw [hstray] at hf
      cases hf

end Grammar

namespace Parsing

open Grammar

/-- What has been read to its end is a program. -/
theorem ofTokensBy_eq {stmt : Parser Stmt} {tokens : List Token} {stmts : List Stmt} {s : State}
    (h : statements stmt ⟨.ofList tokens, none, []⟩ = .ok stmts s) (hs : s.rest.tokens = []) :
    ofTokensBy stmt tokens = ⟨some ⟨stmts, spanOfRun tokens⟩, s.reported⟩ := by
  rw [ofTokensBy, h]
  dsimp only
  rw [Parser.endOfInput, Input.next?_eq_none_iff.2 hs]

/-- Every list of tokens is read to its end. -/
theorem exists_ofTokens_eq (tokens : List Token) : ∃ stmts t,
    statements statement ⟨.ofList tokens, none, []⟩ = .ok stmts t ∧ t.rest.tokens = [] ∧
      ofTokens tokens = ⟨some ⟨stmts, spanOfRun tokens⟩, t.reported⟩ := by
  obtain ⟨stmts, t, ht, hend⟩ := exists_statements_eq_ok ⟨.ofList tokens, none, []⟩
  exact ⟨stmts, t, ht, hend, ofTokensBy_eq ht hend⟩

/-- Every list of tokens is read to its end. Its tokens spell the tree, and there are as many
failures as statements in the tree that could not be read. -/
theorem exists_program (tokens : List Token) : ∃ program, (ofTokens tokens).program = some program ∧
    Stmt.ListWritten .greedy .greedy program.stmts (kindsOf tokens) ∧
      (ofTokens tokens).failures.length = program.errorCount := by
  obtain ⟨stmts, t, ht, hend, hprogram⟩ := exists_ofTokens_eq tokens
  obtain ⟨read, new, hread, hnew, hwritten, hcount⟩ := spells_statements _ stmts t ht
  rw [hprogram]
  refine ⟨_, rfl, ?_, ?_⟩
  · rw [hend, List.append_nil] at hread
    rw [Input.tokens_ofList] at hread
    exact hread ▸ hwritten
  · rw [hnew]
    exact hcount

/-- Recovery is total: every list of tokens is read as a tree, and each diagnostic stands for one
statement in the tree that could not be read, at whatever depth. In particular there is no such
statement if and only if nothing is reported. -/
theorem length_diagnostics_eq_errorCount (lines : LineIndex) (tokens : List Token) :
    ∃ program, (ofTokens tokens).program = some program ∧
      ((ofTokens tokens).diagnostics lines tokens).length = program.errorCount ∧
        (program.errorCount = 0 ↔ (ofTokens tokens).diagnostics lines tokens = []) := by
  obtain ⟨program, hprogram, -, hcount⟩ := exists_program tokens
  have hlength : ((ofTokens tokens).diagnostics lines tokens).length = program.errorCount := by
    rw [diagnostics, List.length_map, hcount]
  exact ⟨program, hprogram, hlength, by rw [← hlength, List.length_eq_zero_iff]⟩

/-- No token is lost or invented: every list of tokens is read as a tree that it spells, each token
in its place. -/
theorem exists_program_written (tokens : List Token) :
    ∃ program, (ofTokens tokens).program = some program ∧ program.Written (kindsOf tokens) := by
  obtain ⟨program, hprogram, hwritten, -⟩ := exists_program tokens
  have hany {stmt : Stmt} {ts us : List TokenKind} (_ : Follow.greedy stmt ts us) :
      Follow.any stmt ts us := trivial
  exact ⟨program, hprogram, hwritten.mono (fun _ _ _ => hany) fun _ _ _ => hany⟩

end Parsing

end CrudLang
