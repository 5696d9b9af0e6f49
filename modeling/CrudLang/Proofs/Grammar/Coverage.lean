import CrudLang.Proofs.Grammar.Placement

/-!
# Statements cover their tokens

A form of statement returns what becomes a statement once its span is known, and its children are
placed among its tokens (`Grammar.Builds`). The same tokens spell the statement, without a semicolon
behind it (`Stmt.Framed.covers`). A block covers the tokens from brace to matching brace, and a
statement that cannot be read covers its extent.

At the level of the program, a closing brace that closes nothing is a statement of its own
(`Node.Stands`). All parts of a program but itself stand among its tokens
(`Parsing.exists_program_stands`, `Placed.exists_stands`).
-/

namespace CrudLang

open Grammar CrudLang.Parser

/-- What a statement is made of: it could be read, its span is that of its tokens, and its children
are placed among them. -/
structure Stmt.Framed (stmt : Stmt) (run rest : List Token) : Prop where
  sound : ∀ span, stmt ≠ .error span
  span : stmt.span = spanOfRun run
  children : Placed Covers (Node.stmt stmt).children run rest

/-- What a statement is made of and how it is spelled, together. -/
theorem Stmt.Framed.covers {follow : Follow} {stmt : Stmt} {run rest : List Token}
    (h : stmt.Framed run rest) (hwritten : Stmt.Written follow stmt (kindsOf run)) :
    Covers (.stmt stmt) run rest :=
  .stmt h.sound (hwritten.mono fun _ _ _ _ => trivial) h.span h.children

/-- A block as a statement covers the same tokens. -/
theorem Stmt.Framed.block {body : Block Stmt} {run rest : List Token}
    (h : Covers (.block body) run rest) : (Stmt.block body).Framed run rest where
  sound := nofun
  span := by
    cases h with
    | block _ _ _ hspan => exact hspan
  children := .one h

/-- A node is a closing brace that closes nothing. -/
def Node.IsStray (n : Node) (run : List Token) : Prop :=
  ∃ brace, run = [brace] ∧ brace.kind = .punctuator .rightBrace ∧ n = .stmt (.error brace.span)

/-- A node covers a run of tokens, or it is a closing brace that closes nothing. -/
def Node.Stands (n : Node) (run rest : List Token) : Prop :=
  Covers n run rest ∨ n.IsStray run

namespace Node.Stands

variable {root n : Node} {run rest : List Token}

/-- Below a closing brace that closes nothing there is nothing. -/
theorem exists_of_hasPart (h : root.Stands run rest) (hn : root.HasPart n) :
    ∃ before own after, run = before ++ own ++ after ∧
      (Covers n own (after ++ rest) ∨ n = root ∧ n.IsStray own) := by
  rcases h with h | ⟨brace, rfl, hkind, rfl⟩
  · obtain ⟨before, own, after, rfl, hcovers⟩ := h.exists_of_hasPart hn
    exact ⟨before, own, after, rfl, .inl hcovers⟩
  · rcases hn.eq_or_exists with rfl | ⟨c, hc, -⟩
    · exact ⟨[], [brace], [], rfl, .inr ⟨rfl, brace, rfl, hkind, rfl⟩⟩
    · cases hc

/-- A node that stands somewhere has a token. -/
theorem ne_nil (h : n.Stands run rest) : run ≠ [] := by
  rcases h with h | ⟨brace, rfl, -⟩
  · exact h.ne_nil
  · exact List.cons_ne_nil _ _

/-- A closing brace that closes nothing has no children, so those of any node stand. -/
theorem children (h : n.Stands run rest) : Placed Stands n.children run rest := by
  rcases h with h | ⟨brace, rfl, -, rfl⟩
  · exact h.children.mono fun _ _ _ => .inl
  · exact .nil

end Node.Stands

namespace Placed

variable {ns : List Node} {c n : Node} {run rest : List Token}

/-- Every part of a node stands among the tokens that the node does. -/
theorem exists_of_hasPart (h : Placed Covers ns run rest) (hc : c ∈ ns) (hn : c.HasPart n) :
    ∃ before own after, run = before ++ own ++ after ∧ Covers n own (after ++ rest) := by
  obtain ⟨before, own, after, rfl, hcovers⟩ := h.exists_of_mem hc
  obtain ⟨before', own', after', rfl, hn⟩ := hcovers.exists_of_hasPart hn
  refine ⟨before ++ before', own', after' ++ after, by simp only [List.append_assoc], ?_⟩
  rwa [List.append_assoc]

/-- A part of one of the nodes stands in tokens of its own, and it is a closing brace that closes
nothing only if it is that node. -/
theorem exists_stands (h : Placed Node.Stands ns run rest) (hc : c ∈ ns) (hn : c.HasPart n) :
    ∃ before own after, run = before ++ own ++ after ∧
      (Covers n own (after ++ rest) ∨ n = c ∧ n.IsStray own) := by
  obtain ⟨before, own, after, rfl, hstands⟩ := h.exists_of_mem hc
  obtain ⟨before', own', after', rfl, hn⟩ := hstands.exists_of_hasPart hn
  refine ⟨before ++ before', own', after' ++ after, by simp only [List.append_assoc], ?_⟩
  rwa [List.append_assoc]

end Placed

namespace Grammar

/-- What becomes a statement once its span is known has these children. -/
def Builds (build : Span → Stmt) (nodes : List Node) : Prop :=
  ∀ span, (∀ span', build span ≠ .error span') ∧ (build span).span = span ∧
    (Node.stmt (build span)).children = nodes

section Forms

/-- A form of statement, given the span of its tokens. -/
theorem framed_of_continues {p : Parser (Span → Stmt)} (hp : Continues [] p Builds) :
    Ensures p fun build read rest _ => (build (spanOfRun read)).Framed read rest := by
  refine Ensures.mono hp fun build read rest _ ⟨nodes, hbuilds, hplaced⟩ => ?_
  obtain ⟨hsound, hspan, hchildren⟩ := hbuilds (spanOfRun read)
  exact ⟨hsound, hspan, hchildren ▸ hplaced⟩

/-- The children are the name and, behind `=`, the value. -/
theorem continues_varDeclaration : Continues [] varDeclaration Builds := by
  have hvalue : Places (do punctuator .assign; expression) fun value => [.expr value] :=
    .skip (.token _) fun _ => places_expression
  refine .skip (.token _) fun _ => ?_
  refine .bind places_identifier fun name => ?_
  refine .bind hvalue.optional fun init => ?_
  exact .pure fun _ => ⟨nofun, rfl, rfl⟩

/-- The children are the name and the value, which must be there. -/
theorem continues_constDeclaration : Continues [] constDeclaration Builds := by
  refine .skip (.token _) fun _ => ?_
  refine .bind places_identifier fun name => ?_
  refine .skip (.token _) fun _ => ?_
  refine .bind places_expression fun value => ?_
  exact .pure fun _ => ⟨nofun, rfl, rfl⟩

/-- The children are the name and the arguments, if there are any. -/
theorem continues_crudStatement : Continues [] crudStatement Builds := by
  have hargs : Places (optional (arguments expression)) fun args => (args.getD []).map .expr :=
    Ensures.optional (places_arguments places_expression) fun _ => .nil
  refine .labelled ?_
  refine .skip spells_crudOperator fun op => ?_
  refine .bind places_identifier fun name => ?_
  refine .bind hargs fun args => ?_
  exact .pure fun _ => ⟨nofun, rfl, rfl⟩

/-- A statement is placed among its tokens and the semicolon behind it. -/
theorem places_terminated {p : Parser Stmt}
    (hp : Ensures p fun stmt read rest _ => Covers (.stmt stmt) read rest) :
    Places (do
      let stmt ← p
      let _ ← optional (punctuator .semicolon)
      pure stmt) fun stmt => [.stmt stmt] := by
  refine .of_continues ?_
  refine .bind (.of_covers hp) fun stmt => ?_
  refine .skip (Spells.optionally .semicolon) fun _ => ?_
  exact .pure rfl

theorem places_parameters : Places parameters fun params => params.map .ident :=
  .labelled (.between (.separated places_identifier (.token _)))

section Blocks

variable {b : Parser (Block Stmt)}
variable (hblock : Ensures b fun body read rest _ => Covers (.block body) read rest)
include hblock

/-- The children are the name, the parameters and the body. -/
theorem continues_functionDefinition : Continues [] (functionDefinition b) Builds := by
  refine .labelled ?_
  refine .skip (.token _) fun _ => ?_
  refine .bind places_identifier fun name => ?_
  refine .bind places_parameters fun params => ?_
  refine .bind (.of_covers hblock) fun body => ?_
  exact .pure fun _ => ⟨nofun, rfl, by simp [Node.children]⟩

variable (hread : Spells b Block.Reading)
include hread

/-- A member is placed among its tokens and the semicolon behind it. -/
theorem places_member : Places (member b) fun stmt => [.stmt stmt] := by
  have hbare : Ensures (withSpan <| choice varDeclaration [constDeclaration, functionDefinition b])
      fun stmt read rest _ => stmt.Framed read rest := by
    refine .withSpan ?_
    refine .choice (framed_of_continues continues_varDeclaration) fun q hq => ?_
    simp only [List.mem_cons, List.not_mem_nil, or_false] at hq
    rcases hq with rfl | rfl
    · exact framed_of_continues continues_constDeclaration
    · exact framed_of_continues (continues_functionDefinition hblock)
  refine .labelled (places_terminated ?_)
  exact (hbare.and (spells_bareMember hread)).mono fun _ _ _ _ ⟨hframed, hspelled⟩ =>
    hframed.covers hspelled.1.written

theorem continues_classDefinition : Continues [] (classDefinition b) Builds := by
  refine .labelled ?_
  refine .skip (.token _) fun _ => ?_
  refine .bind places_identifier fun name => ?_
  refine .bind (.between (.many (places_member hblock hread))) fun members => ?_
  exact .pure fun _ => ⟨nofun, rfl, rfl⟩

/-- Each form of statement, given the span of its tokens. -/
theorem framed_form (form : Form) : Ensures (form.parser b) fun build read rest _ =>
    (build (spanOfRun read)).Framed read rest := by
  have hblocks : Places b fun body => [.block body] := .of_covers hblock
  -- each form continues its keyword with the parts that it is built of
  cases form with
  | var => exact framed_of_continues continues_varDeclaration
  | const => exact framed_of_continues continues_constDeclaration
  | func => exact framed_of_continues (continues_functionDefinition hblock)
  | «class» => exact framed_of_continues (continues_classDefinition hblock hread)
  | loop =>
    refine framed_of_continues ?_
    refine .skip (.token _) fun _ => ?_
    refine .bind hblocks fun body => ?_
    exact .pure fun _ => ⟨nofun, rfl, rfl⟩
  | «while» =>
    refine framed_of_continues ?_
    refine .skip (.token _) fun _ => ?_
    refine .bind places_expression fun value => ?_
    refine .bind hblocks fun body => ?_
    exact .pure fun _ => ⟨nofun, rfl, rfl⟩
  | crud => exact framed_of_continues continues_crudStatement
  | «return» =>
    refine framed_of_continues ?_
    refine .skip (.token _) fun _ => ?_
    refine .bind places_expression.optional fun value => ?_
    exact .pure fun _ => ⟨nofun, rfl, rfl⟩
  | block => exact .map (g := fun body _ => Stmt.block body) (hblock.mono fun _ _ _ _ h => .block h)
  | expr =>
    refine framed_of_continues ?_
    refine .bind places_expression fun value => ?_
    exact .pure fun _ => ⟨nofun, rfl, rfl⟩

/-- A conditional is placed among its tokens if those behind `else` are. -/
theorem framed_conditionalStep {c : Parser Stmt} (hc : Places c fun stmt => [.stmt stmt]) :
    Ensures (conditionalStep b c) fun stmt read rest _ => stmt.Framed read rest := by
  have hblocks : Places b fun body => [.block body] := .of_covers hblock
  have hstatement : Places (Stmt.block <$> b) fun stmt => [.stmt stmt] := by
    refine .map ?_
    refine (hblock.and hread).mono fun _ _ _ _ ⟨hcovers, hspelled⟩ => ?_
    refine .one ?_
    exact (Stmt.Framed.block hcovers).covers (.block hspelled.1)
  have halternative : Places (do keyword .else; choice c [Stmt.block <$> b])
      fun stmt => [.stmt stmt] := by
    refine .skip (.token _) fun _ => ?_
    exact .orElse hc hstatement
  refine .withSpan ?_
  refine framed_of_continues ?_
  refine .skip (.token _) fun _ => ?_
  refine .bind places_expression fun value => ?_
  refine .bind hblocks fun body => ?_
  refine .bind halternative.optional fun alternative => ?_
  exact .pure fun _ => ⟨nofun, rfl, rfl⟩

/-- What stands behind `else` is spelled by its tokens too, so both are carried along the chain. -/
theorem framed_conditional :
    Ensures (conditional b) fun stmt read rest _ => stmt.Framed read rest := by
  have hboth : Ensures (conditional b) fun stmt read rest new =>
      (stmt.BareReading (kindsOf read) (kindsOf rest) new.length ∧ stmt.IsAlternative) ∧
        stmt.Framed read rest := by
    refine .fix fun c hc => ?_
    -- the conditional behind `else` covers its tokens
    have hspelled := spells_conditionalStep hread (hc.mono fun _ _ _ _ h => h.1)
    have hcovers : Ensures c fun stmt read rest _ => Covers (.stmt stmt) read rest :=
      hc.mono fun _ _ _ _ ⟨hspelled, hframed⟩ => hframed.covers hspelled.1.written
    exact Ensures.and hspelled (framed_conditionalStep hblock hread (.of_covers hcovers))
  exact hboth.mono fun _ _ _ _ h => h.2

/-- A statement of any form covers its tokens. -/
theorem covers_bareStatement :
    Ensures (bareStatement b) fun stmt read rest _ => Covers (.stmt stmt) read rest := by
  have hframed : Ensures (bareStatement b) fun stmt read rest _ => stmt.Framed read rest := by
    refine .orElse (framed_conditional hblock hread) (.withSpan ?_)
    refine .choice (framed_form hblock hread .var) fun q hq => ?_
    obtain ⟨form, rfl⟩ := Form.exists_of_mem (List.mem_cons_of_mem _ hq)
    exact framed_form hblock hread form
  exact (hframed.and (spells_bareStatement hread)).mono fun _ _ _ _ ⟨hframed, hspelled⟩ =>
    hframed.covers hspelled.written

/-- A statement with its semicolon, or one that covers its extent. -/
theorem places_statementStep : Places (statementStep b) fun stmt => [.stmt stmt] := by
  have hterminated := places_terminated (covers_bareStatement hblock hread)
  intro s stmt t ht
  rcases of_recoverWith_eq_ok ht with hs | ⟨f, u, -, hu, rfl⟩
  · exact hterminated.labelled s stmt t hs
  · -- what is skipped is the whole extent
    obtain ⟨run, new, hrun, hnew, rfl, hne, -⟩ := ensures_statementError _ stmt u hu
    have hextent := (skipped_of_statementError_eq_ok hu).extent hrun
    exact ⟨run, new ++ [f], hrun, by rw [hnew, List.append_assoc], .one (.error hne hextent)⟩

end Blocks

end Forms

section Statements

/-- A block covers the tokens from brace to brace. -/
theorem covers_strictBlock {p : Parser Stmt} (hdepth : KeepsDepth p)
    (hp : Places p fun stmt => [.stmt stmt]) :
    Ensures (strictBlock p) fun body read rest _ => Covers (.block body) read rest := by
  have hmany : KeepsDepth (many p) := congruence_keepsDepth.many (q := p) hdepth
  have hinner := hmany.and hp.many
  have hbraces : Ensures (Parser.between .leftBrace .rightBrace (many p)) fun stmts read rest _ =>
      Covers (.block ⟨stmts, spanOfRun read⟩) read rest := by
    refine .between hinner fun stmts l inner r rest _ hl hr ⟨hkeeps, hplaced⟩ => ?_
    -- the matching brace is the one that was read
    have hafter : afterClosing 0 (inner ++ r :: rest) = some rest := by
      rw [hkeeps, afterClosing_close_zero hr]
    obtain ⟨inner', r', heq, hr', hbalanced⟩ := afterClosing_eq_some_iff.1 hafter
    obtain ⟨rfl, -⟩ := List.append_inj' heq rfl
    exact .block hl hr hbalanced rfl hplaced
  exact .labelled (.withSpan hbraces.map)

/-- Statements are placed among their tokens. What is read inside a block is spelled by its tokens
and leaves the matching of braces as it was, so this is carried along. -/
theorem places_statement : Places statement fun stmt => [.stmt stmt] := by
  have hall : Ensures (statementBy strictBlock) fun stmt read rest new =>
      (stmt.Reading (kindsOf read) (kindsOf rest) new.length ∧
        ∀ depth, afterClosing depth (read ++ rest) = afterClosing depth rest) ∧
          Placed Covers [.stmt stmt] read rest := by
    refine .fix fun p hp => ?_
    -- all three are needed of the statements in a block, and hold of a statement around it
    have hblock := spells_strictBlock (hp.mono fun _ _ _ _ h => h.1.1)
    have hdepth : KeepsDepth p := hp.mono fun _ _ _ _ h => h.1.2
    have hcovers := covers_strictBlock hdepth (hp.mono fun _ _ _ _ h => h.2)
    have hkeeps : KeepsDepth (statementStep (strictBlock p)) :=
      keepsDepth_statementStep (blockGuarded_keepsDepth.strictBlock (q := p) hdepth)
    exact (Ensures.and (spells_statementStep hblock) hkeeps).and
      (places_statementStep hcovers hblock)
  rw [← statementBy_strictBlock_eq]
  exact hall.mono fun _ _ _ _ h => h.2

theorem stands_strayBrace :
    Ensures strayBrace fun stmt read rest _ => Node.Stands (.stmt stmt) read rest := by
  refine .withSpan ?_
  refine (Ensures.token _).bind fun _ _ _ => ?_
  refine .pure fun _ h => .inr ?_
  obtain ⟨brace, rfl, hkind⟩ := List.map_eq_singleton_iff.1 h.1
  exact ⟨brace, rfl, hkind, rfl⟩

/-- The statements of a program stand one behind the other among its tokens. -/
theorem stands_statements : Ensures (statements statement) fun stmts read rest _ =>
    Placed Node.Stands (stmts.map .stmt) read rest := by
  have hone : Ensures (recoverWith statement strayBrace) fun stmt read rest _ =>
      Placed Node.Stands [.stmt stmt] read rest := by
    refine .recoverWith (Ensures.mono places_statement fun _ _ _ _ h => ?_)
      (stands_strayBrace.mono fun _ _ _ _ h _ => .one h)
    exact h.mono fun _ _ _ => .inl
  exact .many hone (fun _ => .nil) fun _ _ _ _ _ _ _ hfirst hothers => hfirst.append hothers

end Statements

end Grammar

/-- The statements of a program stand one behind the other among all tokens. -/
theorem Parsing.exists_program_stands (tokens : List Token) : ∃ program,
    (ofTokens tokens).program = some program ∧ program.span = spanOfRun tokens ∧
      Placed Node.Stands (Node.program program).children tokens [] := by
  obtain ⟨stmts, t, ht, hend, hprogram⟩ := exists_ofTokens_eq tokens
  obtain ⟨read, new, hread, -, hplaced⟩ := stands_statements _ stmts t ht
  rw [hend, List.append_nil, Input.tokens_ofList] at hread
  rw [hend, ← hread] at hplaced
  exact ⟨⟨stmts, spanOfRun tokens⟩, by rw [hprogram], rfl, hplaced⟩

end CrudLang
