import CrudLang.Proofs.Isolation.Context
import CrudLang.Proofs.Isolation.Endings
import CrudLang.Proofs.Isolation.Exchange

/-!
# Statements with a hole

Here the rules of the grammar are walked through for `Frames`: a statement is the same whatever
block the one at the hole is exchanged for, or it is a `Stmt.Context` with the block in its hole. As
many failures are reported before the block as there are statements before the hole that could not
be read, and likewise behind it. The tokens before the hole are no head of a class, so its brace is
that of a block (`frames_statements`).
-/

namespace CrudLang.Grammar

open CrudLang.Parser

/-- A block with a hole, behind tokens that do not end with the head of a class. -/
def blockAround : Holed (Block Stmt) := fun V ts m n =>
  (∃ K : Block.Context, (V = fun b => K.fill b) ∧ K.errorsBefore = m ∧ K.errorsAfter = n) ∧
    HeadFree ts

/-- A statement with a hole, behind tokens that do not end with the head of a class. -/
def stmtAround : Holed Stmt := fun V ts m n =>
  (∃ K : Stmt.Context, (V = fun b => K.fill b) ∧ K.errorsBefore = m ∧ K.errorsAfter = n) ∧
    HeadFree ts

/-- Statements of which one is with a hole, behind tokens that do not end with the head of a
class. -/
def stmtsAround : Holed (List Stmt) := fun V ts m n =>
  (∃ (before : List Stmt) (K : Stmt.Context) (after : List Stmt),
    (V = fun b => before ++ K.fill b :: after) ∧
      Stmt.errorCountOfAll before + K.errorsBefore = m ∧
        K.errorsAfter + Stmt.errorCountOfAll after = n) ∧
    HeadFree ts

/-- A statement around a block with a hole. -/
theorem stmtAround_frame (frame : Stmt.Frame) (us : List TokenKind) {V : Block Stmt → Block Stmt}
    {ts : List TokenKind} {m n : Nat} (h : blockAround V ts m n) (hus : HeadFree us) :
    stmtAround (fun b => frame.fill (V b)) (us ++ ts) m (n + frame.errorsAfter) := by
  obtain ⟨⟨K, rfl, rfl, rfl⟩, hts⟩ := h
  exact ⟨⟨.body frame K, rfl, rfl, rfl⟩, hts.append fun _ => hus⟩

variable {H : Hole} {b : Option (Block Stmt) → Parser (Block Stmt)}

/-- The hole in the definition of a function is in its body. -/
theorem frames_functionDefinition (hb : Frames H blockAround b) :
    Frames H stmtAround.spanned fun taken => functionDefinition (b taken) := by
  have hparameters : Spells parameters (Silently (ItemList Ident.Written)) :=
    .labelled (.itemList spells_identifier)
  refine .labelled ?_
  refine .bind (.token _) (.token _) fun _ _ hfunc => ?_
  refine .bind congruence_steady.identifier spells_identifier fun name _ hname => ?_
  refine .bind congruence_steady.parameters hparameters fun params ps hparams => ?_
  refine .map ?_
  refine hb.mono fun V ts m n hV span => ?_
  rw [hfunc, hname]
  exact stmtAround_frame (.func name params span) ([_, _] ++ ps) hV hparams.headFree

/-- The hole in a loop is in its body. -/
theorem frames_loopStatement (hb : Frames H blockAround b) :
    Frames H stmtAround.spanned fun taken => loopStatement (b taken) := by
  refine .bind (.token _) (.token _) fun _ _ hloop => ?_
  refine .map ?_
  refine hb.mono fun V ts m n hV span => ?_
  rw [hloop]
  exact stmtAround_frame (.loop span) _ hV (.of_not_mem (by simp))

/-- The hole in a loop with a condition is in its body. -/
theorem frames_whileStatement (hb : Frames H blockAround b) :
    Frames H stmtAround.spanned fun taken => whileStatement (b taken) := by
  refine .bind (.token _) (.token _) fun _ _ hwhile => ?_
  refine .bind congruence_steady.expression spells_expression fun condition cs hcondition => ?_
  refine .map ?_
  refine hb.mono fun V ts m n hV span => ?_
  have hfree := hcondition.headFree (k := .keyword .while) (by simp)
  rw [hwhile]
  exact stmtAround_frame (.while condition span) (_ :: cs) hV hfree

/-- The hole in a block that stands alone is in this block. -/
theorem frames_blockStatement (hb : Frames H blockAround b) :
    Frames H stmtAround.spanned fun taken => blockStatement (b taken) := by
  refine .map ?_
  exact hb.mono fun _ _ _ _ hV _ => stmtAround_frame .block [] hV .nil

/-- The tokens behind a statement that stands right before the hole, or before a name and the
hole. -/
theorem braceOrName_of_hole {ts : List TokenKind}
    (h : ts = [] ∨ ∃ name, ts = [.identifier name]) :
    BraceOrName (ts ++ kindsOf H.input.tokens) := by
  rcases h with rfl | ⟨name, rfl⟩
  · exact ⟨_, _, H.kindsOf_input, .inl rfl⟩
  · exact ⟨_, _, rfl, .inr ⟨name, rfl⟩⟩

/-- What is known of a statement that holds no block, for the statements around it. -/
def FreeReading (stmt : Stmt) (ts us : List TokenKind) (n : Nat) : Prop :=
  n = stmt.errorCount ∧ (BraceOrName us → HeadFree ts)

/-- Statements one behind the other, of which one may be with a hole. -/
theorem frames_many {p : Option (Block Stmt) → Parser Stmt} (hp : Frames H stmtAround p)
    (hP : Spells (p none) FreeReading) :
    Frames H stmtsAround fun taken => many (p taken) := by
  have hQ : Spells (many (p none)) fun stmts _ _ n => n = Stmt.errorCountOfAll stmts :=
    .many hP (fun _ => rfl) fun stmt stmts _ _ _ _ _ hstmt hstmts => by
      rw [hstmt.1, hstmts, Stmt.errorCountOfAll]
  refine .many hp hP hQ ?_ ?_
  · rintro V ts m n stmts us rest k ⟨⟨K, rfl, rfl, rfl⟩, hts⟩ rfl
    exact ⟨⟨[], K, stmts, rfl, by simp [Stmt.errorCountOfAll], rfl⟩, hts⟩
  · rintro stmt us k V ts m n ⟨rfl, hus⟩ ⟨⟨before, K, after, rfl, rfl, rfl⟩, hts⟩
    refine ⟨⟨stmt :: before, K, after, rfl, ?_, rfl⟩, ?_⟩
    · rw [Stmt.errorCountOfAll, Nat.add_assoc]
    · exact hts.append fun h => hus (braceOrName_of_hole h)

/-- The hole in statements between braces is in one of them. -/
theorem frames_between {p : Option (Block Stmt) → Parser (List Stmt)}
    {P : List Stmt → List TokenKind → List TokenKind → Nat → Prop}
    (hp : Frames H stmtsAround p) (hP : Spells (p none) P) :
    Frames H (fun V ts m n => ∃ us, ts = .punctuator .leftBrace :: us ∧ stmtsAround V us m n)
      fun taken => between .leftBrace .rightBrace (p taken) := by
  refine .bind (.token _) (.token _) fun _ _ hopen => ?_
  have hclose : Frames H (fun _ _ _ _ => False) fun _ => punctuator .rightBrace :=
    .of_steady (.token _) (Spells.token _)
  refine .bind₂ (g := fun stmts _ => stmts) hp hP hclose (Spells.token _) ?_ ?_
  · rintro V ts m n _ us vs k hV ⟨-, rfl⟩
    exact ⟨ts, by rw [hopen]; rfl, hV⟩
  · exact fun _ _ _ _ _ _ _ _ h => h.elim

/-- A block around a statement with a hole. -/
theorem frames_strictBlock {p : Option (Block Stmt) → Parser Stmt} (hp : Frames H stmtAround p)
    (hP : Spells (p none) FreeReading) :
    Frames H blockAround fun taken => strictBlock (p taken) := by
  have hQ : Spells (many (p none)) fun _ _ _ _ => True :=
    .many hP (fun _ => trivial) fun _ _ _ _ _ _ _ _ _ => trivial
  refine .labelled (.withSpan ?_)
  refine .map ?_
  refine (frames_between (frames_many hp hP) hQ).mono ?_
  rintro V _ m n ⟨us, rfl, ⟨before, K, after, rfl, rfl, rfl⟩, hus⟩ span
  have hbrace : HeadFree [.punctuator .leftBrace] := .of_not_mem (by simp)
  have hts := hus.append fun _ => hbrace
  exact ⟨⟨.inside before K after span, rfl, rfl, rfl⟩, hts⟩

/-- What is known of a statement that can be read at all. -/
theorem freeReading_of_reading {stmt : Stmt} {ts us : List TokenKind} {n : Nat}
    (h : stmt.Reading ts us n) (herror : ∀ span, stmt ≠ .error span) :
    FreeReading stmt ts us n := by
  obtain ⟨body, semi, rfl, hsemi, hbody⟩ := h
  exact ⟨hbody.count, fun _ => (hbody.written.headFree herror).append_semicolon hsemi⟩

/-- The hole in a member of a class is in the body of a function. -/
theorem frames_member (hb : Frames H blockAround b) (hB : Spells (b none) Block.Reading) :
    Frames H stmtAround fun taken => member (b taken) := by
  have hstmt : Frames H stmtAround fun taken =>
      withSpan (choice varDeclaration [constDeclaration, functionDefinition (b taken)]) := by
    refine .withSpan ?_
    refine .orElse (.of_steady congruence_steady.varDeclaration spells_varDeclaration) ?_
    exact .orElse (.of_steady congruence_steady.constDeclaration spells_constDeclaration)
      (frames_functionDefinition hb)
  -- without a hole, only that the reader goes on matters
  have hP : Spells
      (withSpan (choice varDeclaration [constDeclaration, functionDefinition (b none)]))
      fun _ _ _ _ => True := by
    refine .withSpan ?_
    refine .orElse (spells_varDeclaration.mono fun _ _ _ _ _ _ => trivial) ?_
    refine .orElse (spells_constDeclaration.mono fun _ _ _ _ _ _ => trivial) ?_
    exact (spells_functionDefinition hB).mono fun _ _ _ _ _ _ => trivial
  have hsemicolon : Frames H (fun _ _ _ _ => False) fun _ => optional (punctuator .semicolon) :=
    .of_steady congruence_steady.semicolon (.optionally .semicolon)
  refine .labelled ?_
  refine .bind₂ (g := fun stmt _ => stmt) hstmt hP hsemicolon (.optionally .semicolon) ?_
    fun _ _ _ _ _ _ _ _ h => h.elim
  rintro V ts m n _ us vs k hV ⟨-, rfl⟩
  exact hV

/-- The hole in the definition of a class is in one of its members. -/
theorem frames_classDefinition (hb : Frames H blockAround b) (hB : Spells (b none) Block.Reading) :
    Frames H stmtAround.spanned fun taken => classDefinition (b taken) := by
  have hP : Spells (member (b none)) FreeReading :=
    (spells_member hB).mono fun stmt ts us n h => freeReading_of_reading h.1 fun span => by
      rintro rfl
      exact h.2
  have hQ : Spells (many (member (b none))) fun _ _ _ _ => True :=
    .many hP (fun _ => trivial) fun _ _ _ _ _ _ _ _ _ => trivial
  refine .labelled ?_
  refine .bind (.token _) (.token _) fun _ _ hclass => ?_
  refine .bind congruence_steady.identifier spells_identifier fun name _ hname => ?_
  refine .map ?_
  refine (frames_between (frames_many (frames_member hb hB) hP) hQ).mono ?_
  rintro V _ m n ⟨us, rfl, ⟨before, K, after, rfl, rfl, rfl⟩, hus⟩ span
  refine ⟨⟨.member name before K after span, rfl, rfl, rfl⟩, ?_⟩
  rw [hclass, hname]
  -- behind the brace the head of the class is complete
  have hbrace : HeadFree ([.keyword .class, .identifier name.name] ++ [.punctuator .leftBrace]) :=
    .concat (by simp) (by simp)
  have hts := hus.append fun _ => hbrace
  exact hts

/-- The hole in a conditional is in its body or in what stands behind `else`. -/
theorem frames_conditional (hb : Frames H blockAround b) (hB : Spells (b none) Block.Reading) :
    Frames H stmtAround fun taken => conditional (b taken) := by
  refine .fix (spells_conditional hB) fun c hc hC => ?_
  refine .withSpan ?_
  refine .bind (.token _) (.token _) fun _ _ hif => ?_
  refine .bind congruence_steady.expression spells_expression fun condition cs hcondition => ?_
  have hfree := hcondition.headFree (k := .keyword .if) (by simp)
  have halternative : Frames H (fun V ts m n => ∃ (K : Stmt.Context),
      (V = fun b => some (K.fill b)) ∧ K.errorsBefore = m ∧ K.errorsAfter = n ∧ HeadFree ts)
      fun taken => optional (do keyword .else; choice (c taken) [Stmt.block <$> b taken]) := by
    refine .orElse (.map ?_) (.pure none)
    refine .bind (.token _) (.token _) fun _ _ helse => ?_
    have hblock : Frames H stmtAround fun taken => Stmt.block <$> b taken := by
      refine .map ?_
      exact hb.mono fun _ _ _ _ hV => stmtAround_frame .block [] hV .nil
    refine (hc.orElse hblock).mono ?_
    rintro V ts m n ⟨⟨K, rfl, rfl, rfl⟩, hts⟩
    rw [helse]
    have helse : HeadFree [.keyword .else] := .of_not_mem (by simp)
    exact ⟨K, rfl, rfl, rfl, hts.append fun _ => helse⟩
  have hQ : Spells (optional (do keyword .else; choice (c none) [Stmt.block <$> b none]))
      fun alternative _ _ n => n = Stmt.errorCountOf? alternative :=
    .optional ((spells_alternative hB hC).mono fun _ _ _ _ ⟨_, _, _, _, hn⟩ => hn) fun _ => rfl
  refine .bind₂ (g := fun body alternative => Stmt.if condition body alternative) hb hB
    halternative hQ ?_ ?_
  · -- the hole is in the body, and the alternative stands behind it
    rintro V ts m n alternative us vs k hV rfl span
    rw [hif]
    exact stmtAround_frame (.if condition alternative span) (_ :: cs) hV hfree
  · -- the hole is in the alternative, in front of which the body ends with its brace
    rintro body us k V ts m n ⟨hbody, rfl⟩ ⟨K, rfl, rfl, rfl, hts⟩ span
    refine ⟨⟨.alternative condition body K span, rfl, rfl, rfl⟩, ?_⟩
    obtain ⟨us, rfl⟩ := hbody.exists_concat
    rw [hif]
    have hbrace : HeadFree (us ++ [.punctuator .rightBrace]) := .concat (by simp) (by simp)
    have hts := (hts.append fun _ => hbrace).append fun _ => hfree
    exact hts

/-- A statement without its semicolon is a conditional or of one of the other forms. -/
theorem frames_bareStatement (hb : Frames H blockAround b) (hB : Spells (b none) Block.Reading) :
    Frames H stmtAround fun taken => bareStatement (b taken) := by
  have C := congruence_steady
  refine .orElse (frames_conditional hb hB) (.withSpan ?_)
  refine .orElse (.of_steady C.varDeclaration spells_varDeclaration) ?_
  refine .orElse (.of_steady C.constDeclaration spells_constDeclaration) ?_
  refine .orElse (frames_functionDefinition hb) (.orElse (frames_classDefinition hb hB) ?_)
  refine .orElse (frames_loopStatement hb) (.orElse (frames_whileStatement hb) ?_)
  refine .orElse (.of_steady C.crudStatement spells_crudStatement) ?_
  refine .orElse (.of_steady C.returnStatement spells_returnStatement) ?_
  exact .orElse (frames_blockStatement hb) (.of_steady C.expressionStatement
    spells_expressionStatement)

/-- A statement that is skipped has no hole, so recovery leaves those with one as they are. -/
theorem frames_statementStep (hb : Frames H blockAround b) (hB : Spells (b none) Block.Reading) :
    Frames H stmtAround fun taken => statementStep (b taken) := by
  have hsemicolon : Frames H (fun _ _ _ _ => False) fun _ => optional (punctuator .semicolon) :=
    .of_steady congruence_steady.semicolon (.optionally .semicolon)
  refine .recoverWith (.labelled ?_) steady_statementError spells_statementError
  refine .bind₂ (g := fun stmt _ => stmt) (frames_bareStatement hb hB) (spells_bareStatement hB)
    hsemicolon (.optionally .semicolon) ?_ fun _ _ _ _ _ _ _ _ h => h.elim
  rintro V ts m n _ us vs k hV ⟨-, rfl⟩
  exact hV

/-- At the hole the block is taken for another one, and elsewhere there may be a hole inside. -/
theorem frames_blockOr {p : Option (Block Stmt) → Parser Stmt} (hp : Frames H stmtAround p)
    (hP : Spells (p none) FreeReading) :
    Frames H blockAround fun taken => blockOr H.input.size (takenBlock taken) (p taken) := by
  intro rest pending hfits
  -- the place is told by how many tokens are left
  by_cases hsize : rest.size = H.input.size
  · obtain rfl := hfits.eq_input hsize
    refine .around id H.behind (H.pending pending) [] [] [] rfl List.suffix_rfl (fun taken R => ?_)
      ⟨⟨.hole, rfl, rfl, rfl⟩, .nil⟩
    rw [blockOr, if_pos hsize]
    cases taken with
    | none =>
      rw [takenBlock, H.strictBlock_eq]
      simp [Hole.reports]
    | some body =>
      rw [takenBlock, replacedBy, H.strictBlock_eq]
      simp [Hole.reports]
  · exact (frames_strictBlock hp hP rest pending hfits).congr fun taken R => if_neg hsize

/-- A statement is the same for all blocks in the hole, or it is a statement with a hole. -/
theorem frames_statementWith : Frames H stmtAround (statementWith H.input.size) := by
  have hP : Spells (statementWith H.input.size none) fun stmt ts us n =>
      stmt.Reading ts us n ∧ (BraceOrName us → HeadFree ts) := by
    rw [statementWith_none]
    exact spells_statement.and headFree_statement
  unfold statementWith statementBy at hP ⊢
  refine .fix hP fun p hp hP => ?_
  have hfree : Spells (p none) FreeReading := hP.mono fun stmt ts us n ⟨hreading, hts⟩ => by
    obtain ⟨body, semi, -, -, hbody⟩ := hreading
    exact ⟨hbody.count, hts⟩
  -- with no block put in, what is read at the hole is a block like any other
  have hB : Spells (blockOr H.input.size (takenBlock none) (p none)) Block.Reading := by
    intro s body t hs
    by_cases hsize : s.rest.size = H.input.size
    · exact spells_strictBlock spells_statement s body t ((if_pos hsize).symm.trans hs)
    · exact spells_strictBlock (hP.mono fun _ _ _ _ h => h.1) s body t
        ((if_neg hsize).symm.trans hs)
  exact frames_statementStep (frames_blockOr hp hfree) hB

/-- The statements of a program are the same for all blocks in the hole, or one of them is with a
hole. -/
theorem frames_statements :
    Frames H stmtsAround fun taken => statements (statementWith H.input.size taken) := by
  have hP : Spells (recoverWith (statementWith H.input.size none) strayBrace) FreeReading := by
    rw [statementWith_none]
    refine .recoverWith ((spells_statement.and headFree_statement).mono ?_) ?_
    · rintro stmt ts us n ⟨⟨body, semi, -, -, hbody⟩, hts⟩
      exact ⟨hbody.count, hts⟩
    · refine .withSpan ?_
      refine .silently (.token _) fun _ _ hbrace => ?_
      refine .pure fun us span => ?_
      rw [hbrace]
      exact ⟨rfl, fun _ => .of_not_mem (by simp)⟩
  exact frames_many (frames_statementWith.recoverWith steady_strayBrace spells_strayBrace) hP

end CrudLang.Grammar
