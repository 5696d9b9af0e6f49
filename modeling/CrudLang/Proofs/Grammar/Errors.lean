import CrudLang.Proofs.Grammar.Onward
import CrudLang.Proofs.Grammar.StatementReading
import Mathlib.Data.List.Forall2

/-!
# Where statements cannot be read

The statements of a tree that could not be read stand one behind the other among the tokens,
whatever is between them, and for each of them a failure has been reported, in the same order. A
statement does not fail before it begins, so neither is its failure further back: `Grammar.Marked`
states this of the tokens read, and `Grammar.marks_statements` proves it of all statements.
-/

namespace CrudLang

mutual

/-- Where the statements in a statement stand that could not be read, from left to right. -/
def Stmt.errorSpans : Stmt → List Span
  | .func _ _ body _ => Block.errorSpans body
  | .class _ members _ => Stmt.errorSpansOfAll members
  | .if _ body alternative _ => Block.errorSpans body ++ Stmt.errorSpansOf? alternative
  | .loop body _ => Block.errorSpans body
  | .while _ body _ => Block.errorSpans body
  | .block body => Block.errorSpans body
  | .error span => [span]
  | .var _ _ _ | .const _ _ _ | .crud _ _ _ _ | .return _ _ | .expr _ _ => []

/-- Where the statements in a block stand that could not be read. -/
def Block.errorSpans : Block Stmt → List Span
  | ⟨stmts, _⟩ => Stmt.errorSpansOfAll stmts

/-- Where the statements among statements stand that could not be read. -/
def Stmt.errorSpansOfAll : List Stmt → List Span
  | [] => []
  | stmt :: rest => stmt.errorSpans ++ Stmt.errorSpansOfAll rest

/-- Where the statements behind `else` stand that could not be read. -/
def Stmt.errorSpansOf? : Option Stmt → List Span
  | none => []
  | some stmt => stmt.errorSpans

end

/-- Where the statements of a program stand that could not be read, from left to right. -/
def Program.errorSpans (program : Program) : List Span :=
  Stmt.errorSpansOfAll program.stmts

namespace Grammar

open CrudLang.Parser

/-- Among the tokens read, with `rest` behind them, there are runs of tokens one behind the other
with these spans, and each of the failures is not further back than the run begins. -/
inductive Marked (rest : List Token) : List Token → List Span → List Failure → Prop
  | nil {read : List Token} : Marked rest read [] []
  | cons {before run after : List Token} {spans : List Span} {f : Failure} {fs : List Failure} :
      run ≠ [] → f.rest.size ≤ (run ++ after ++ rest).length → Marked rest after spans fs →
      Marked rest (before ++ run ++ after) (spanOfRun run :: spans) (f :: fs)

namespace Marked

variable {rest first read : List Token} {spans spans' : List Span} {fs fs' : List Failure}

/-- All the tokens read are the run of a single failure. -/
theorem one {f : Failure} (hread : read ≠ []) (hf : f.rest.size ≤ (read ++ rest).length) :
    Marked rest read [spanOfRun read] [f] := by
  have hmarked : Marked rest ([] ++ read ++ []) [spanOfRun read] [f] := by
    refine .cons hread ?_ .nil
    rwa [List.append_nil]
  rwa [List.nil_append, List.append_nil] at hmarked

/-- Tokens before the first run. -/
theorem prepend (first : List Token) (h : Marked rest read spans fs) :
    Marked rest (first ++ read) spans fs := by
  cases h with
  | nil => exact .nil
  | @cons before run after _ _ _ hrun hf hmore =>
    rw [← List.append_assoc, ← List.append_assoc]
    exact .cons hrun hf hmore

/-- Runs behind others. -/
theorem append (h : Marked (read ++ rest) first spans fs) (h' : Marked rest read spans' fs') :
    Marked rest (first ++ read) (spans ++ spans') (fs ++ fs') := by
  induction h with
  | nil => exact h'.prepend _
  | @cons before run after _ _ _ hrun hf _ ih =>
    rw [List.append_assoc _ after]
    refine .cons hrun ?_ ih
    simpa only [List.append_assoc] using hf

/-- What stands between two braces. -/
theorem between {l r : Token} (h : Marked (r :: rest) read spans fs) :
    Marked rest (l :: read ++ [r]) spans fs := by
  have hbrace : Marked rest [r] [] [] := .nil
  have hmarked : Marked rest (read ++ [r]) (spans ++ []) (fs ++ []) := append h hbrace
  rw [List.append_nil, List.append_nil] at hmarked
  exact hmarked.prepend [l]

/-- Each run stands among the tokens read, and its failure is not further back. -/
theorem forall₂ (h : Marked rest read spans fs) : List.Forall₂ (fun span f =>
    ∃ before run after, read = before ++ run ++ after ∧ run ≠ [] ∧ span = spanOfRun run ∧
      f.rest.size ≤ (run ++ after ++ rest).length) spans fs := by
  induction h with
  | nil => exact .nil
  | @cons before run after _ _ _ hrun hf _ ih =>
    refine .cons ⟨before, run, after, rfl, hrun, rfl, hf⟩ (ih.imp fun span f hspan => ?_)
    obtain ⟨before', run', after', rfl, h'⟩ := hspan
    exact ⟨before ++ run ++ before', run', after', by simp only [List.append_assoc], h'⟩

/-- Each span begins with a token that is read. -/
theorem exists_start (h : Marked rest read spans fs) {span : Span} (hspan : span ∈ spans) :
    ∃ t ∈ read, span.start = t.span.start := by
  induction h with
  | nil => cases hspan
  | @cons before run after _ _ _ hrun _ _ ih =>
    rcases List.mem_cons.1 hspan with rfl | hspan
    · obtain ⟨first, ts, rfl⟩ := List.exists_cons_of_ne_nil hrun
      exact ⟨first, by simp, rfl⟩
    · obtain ⟨t, ht, hstart⟩ := ih hspan
      exact ⟨t, List.mem_append_right _ ht, hstart⟩

/-- The spans stand one behind the other if the tokens do. -/
theorem pairwise (h : Marked rest read spans fs)
    (hread : read.Pairwise fun t u => t.span.stop ≤ u.span.start) :
    spans.Pairwise fun a b => a.stop ≤ b.start := by
  induction h with
  | nil => exact .nil
  | @cons before run after _ _ _ hrun _ hmore ih =>
    obtain ⟨-, hafter, happart⟩ := List.pairwise_append.1 hread
    refine .cons (fun b hb => ?_) (ih hafter)
    obtain ⟨t, ht, hstart⟩ := hmore.exists_start hb
    obtain ⟨first, ts, rfl⟩ := List.exists_cons_of_ne_nil hrun
    rw [hstart]
    exact happart _ (List.mem_append_right _ (List.getLast_mem hrun)) t ht

end Marked

/-- The statements in what is read that could not be read are marked by the failures reported. -/
def Marks {α : Type} (p : Parser α) (errorSpans : α → List Span) : Prop :=
  Ensures p fun v read rest new => Marked rest read (errorSpans v) new

namespace Marks

variable {α β : Type} {p q : Parser α} {spans : α → List Span} {spans' : β → List Span}

/-- Reading something silently before something else. -/
theorem silently {f : α → Parser β} (hp : Quiet p) (hf : ∀ a, Marks (f a) spans') :
    Marks (p >>= f) spans' := by
  refine hp.ensures.bind fun a first before => ?_
  refine (hf a).mono fun b read rest new h hsilent => ?_
  rw [hsilent]
  exact h.prepend first

/-- The spans are those of the value that is made. -/
theorem map {g : α → β} (hp : Marks p fun a => spans' (g a)) : Marks (g <$> p) spans' :=
  Ensures.map hp

/-- What is not read cannot fail to be read. -/
theorem pure {a : α} (h : spans a = []) : Marks (Pure.pure a) spans :=
  Ensures.pure fun _ => h ▸ .nil

/-- Reading something behind something else that is all that matters. -/
theorem bind_quiet {f : α → Parser β} (hp : Marks p spans)
    (hf : ∀ a, Ensures (f a) fun b _ _ new => spans' b = spans a ∧ new = []) :
    Marks (p >>= f) spans' := by
  refine Ensures.bind hp fun a first before => ?_
  refine (hf a).mono fun b read rest new h hmarked => ?_
  obtain ⟨hspans, rfl⟩ := h
  rw [hspans, ← List.append_nil (spans a)]
  exact hmarked.append .nil

/-- Whichever alternative is taken, it has reported its own failures. -/
theorem orElse (hp : Marks p spans) (hq : Marks q spans) : Marks (Parser.orElse p q) spans :=
  Ensures.orElse hp hq

/-- Whichever of the alternatives is taken. -/
theorem choice {rest : List (Parser α)} (h : ∀ q ∈ p :: rest, Marks q spans) :
    Marks (Parser.choice p rest) spans :=
  choice_of_forall orElse h

/-- The span of the statement that is built makes no difference to those inside. -/
theorem withSpan {p : Parser (Span → α)} (hp : ∀ span, Marks p fun build => spans (build span)) :
    Marks (Parser.withSpan p) spans := by
  intro s v t ht
  obtain ⟨build, hbuild, rfl⟩ := of_withSpan_eq_ok ht
  exact hp _ s build t hbuild

/-- A label changes pending failures, not those reported. -/
theorem labelled {c : Construct} (hp : Marks p spans) : Marks (Parser.labelled c p) spans :=
  Ensures.labelled hp

/-- Two tokens around what is read. -/
theorem between {left right : Punctuator} (hp : Marks p spans) :
    Marks (Parser.between left right p) spans :=
  Ensures.between hp fun _ _ _ _ _ _ _ _ h => h.between

/-- Statements that cannot be read are marked where they are skipped. -/
theorem recoverWith {p r : Parser Stmt} (hp : Marks p Stmt.errorSpans) (honward : Onward p)
    (hr : Ensures r fun stmt read _ new =>
      stmt = .error (spanOfRun read) ∧ read ≠ [] ∧ new = []) :
    Marks (Parser.recoverWith p r) Stmt.errorSpans := by
  intro s v t ht
  rcases of_recoverWith_eq_ok ht with hv | ⟨f, u, hf, hu, rfl⟩
  · exact hp s v t hv
  · -- all that is skipped is one run, and the failure is that of the parser at its first token
    obtain ⟨read, new, hread, hnew, rfl, hne, rfl⟩ := hr _ v u hu
    refine ⟨read, [f], hread, ?_, .one hne ?_⟩
    · dsimp only
      rw [hnew, List.append_nil]
    · rw [← show s.rest.tokens = read ++ u.rest.tokens from hread, s.rest.size_eq]
      exact honward.fail hf

end Marks

section Statements

/-- A name is read without reports. -/
theorem quiet_identifier : Quiet identifier :=
  .of_silently spells_identifier

/-- An expression is read without reports. -/
theorem quiet_expression : Quiet expression :=
  .of_silently spells_expression

/-- A token is read without reports. -/
theorem quiet_token (kind : TokenKind) : Quiet (token kind) :=
  (Skips.token kind).quiet

/-- A semicolon behind a statement changes nothing. -/
theorem ensures_semicolon (stmt : Stmt) :
    Ensures (do let _ ← optional (punctuator .semicolon); pure stmt) fun stmt' _ _ new =>
      stmt'.errorSpans = stmt.errorSpans ∧ new = [] := by
  refine (Quiet.optional (quiet_token _)).ensures.bind fun _ _ _ => ?_
  refine Ensures.pure fun _ hsilent => ?_
  exact ⟨rfl, by rw [hsilent]; rfl⟩

/-- Statements one behind the other, each with the failures reported for it. -/
theorem marks_many {p : Parser Stmt} (hp : Marks p Stmt.errorSpans) :
    Marks (many p) Stmt.errorSpansOfAll :=
  Ensures.many hp (fun _ => .nil) fun _ _ _ _ _ _ _ hstmt hstmts => hstmt.append hstmts

/-- There is no statement inside the declaration of a variable. -/
theorem marks_varDeclaration (span : Span) :
    Marks varDeclaration fun build => (build span).errorSpans := by
  have hvalue : Quiet (do punctuator .assign; expression) :=
    .bind (quiet_token _) fun _ => quiet_expression
  refine .silently (quiet_token _) fun _ => ?_
  refine .silently quiet_identifier fun name => ?_
  refine .silently hvalue.optional fun init => ?_
  exact .pure rfl

/-- There is none inside the declaration of a constant. -/
theorem marks_constDeclaration (span : Span) :
    Marks constDeclaration fun build => (build span).errorSpans := by
  refine .silently (quiet_token _) fun _ => ?_
  refine .silently quiet_identifier fun name => ?_
  refine .silently (quiet_token _) fun _ => ?_
  refine .silently quiet_expression fun value => ?_
  exact .pure rfl

/-- There is none inside a statement on stored data. -/
theorem marks_crudStatement (span : Span) :
    Marks crudStatement fun build => (build span).errorSpans := by
  have hargs : Quiet (arguments expression) := .of_silently (spells_arguments spells_expression)
  refine .labelled ?_
  refine .silently (.of_silently spells_crudOperator) fun op => ?_
  refine .silently quiet_identifier fun name => ?_
  refine .silently hargs.optional fun args => ?_
  exact .pure rfl

section Blocks

variable {b : Parser (Block Stmt)} (hb : Marks b Block.errorSpans)
include hb

/-- The statements inside the definition of a function are in its body. -/
theorem marks_functionDefinition (span : Span) :
    Marks (functionDefinition b) fun build => (build span).errorSpans := by
  have hparameters : Quiet parameters :=
    .of_silently (P := ItemList Ident.Written) (.labelled (.itemList spells_identifier))
  refine .labelled ?_
  refine .silently (quiet_token _) fun _ => ?_
  refine .silently quiet_identifier fun name => ?_
  refine .silently hparameters fun params => ?_
  exact .map (g := Stmt.func name params) hb

/-- The statements inside a member of a class are in the body of a function. -/
theorem marks_member : Marks (member b) Stmt.errorSpans := by
  refine .labelled (.bind_quiet (.withSpan fun span => .choice fun q hq => ?_) ensures_semicolon)
  simp only [List.mem_cons, List.not_mem_nil, or_false] at hq
  rcases hq with rfl | rfl | rfl
  · exact marks_varDeclaration span
  · exact marks_constDeclaration span
  · exact marks_functionDefinition hb span

/-- The statements inside a conditional are in its body, and then in what stands behind `else`. -/
theorem marks_conditional : Marks (conditional b) Stmt.errorSpans := by
  refine Ensures.fix fun c hc => ?_
  refine Marks.withSpan fun span => ?_
  refine .silently (quiet_token _) fun _ => ?_
  refine .silently quiet_expression fun condition => ?_
  have halternative : Marks (do keyword .else; choice c [Stmt.block <$> b]) Stmt.errorSpans := by
    refine .silently (quiet_token _) fun _ => ?_
    exact .orElse hc (.map hb)
  have hoptional : Marks (optional (do keyword .else; choice c [Stmt.block <$> b]))
      Stmt.errorSpansOf? := Ensures.optional halternative fun _ => .nil
  refine Ensures.bind hb fun body first before => ?_
  refine Ensures.map (g := Stmt.if condition body) ?_
  exact hoptional.mono fun alternative read rest new h hbody => hbody.append h

/-- Whatever the form of a statement, those inside it are marked. -/
theorem marks_form (form : Form) (span : Span) :
    Marks (form.parser b) fun build => (build span).errorSpans := by
  -- errors are inside blocks and members only, not in names and expressions
  cases form with
  | var => exact marks_varDeclaration span
  | const => exact marks_constDeclaration span
  | func => exact marks_functionDefinition hb span
  | «class» =>
    refine .labelled ?_
    refine .silently (quiet_token _) fun _ => ?_
    refine .silently quiet_identifier fun name => ?_
    exact .map (g := Stmt.class name) (.between (marks_many (marks_member hb)))
  | loop =>
    refine .silently (quiet_token _) fun _ => ?_
    exact .map (g := Stmt.loop) hb
  | «while» =>
    refine .silently (quiet_token _) fun _ => ?_
    refine .silently quiet_expression fun condition => ?_
    exact .map (g := Stmt.while condition) hb
  | crud => exact marks_crudStatement span
  | «return» =>
    refine .silently (quiet_token _) fun _ => ?_
    refine .silently quiet_expression.optional fun value => ?_
    exact .pure rfl
  | block => exact .map (g := fun body _ => Stmt.block body) hb
  | expr =>
    refine .silently quiet_expression fun value => ?_
    exact .pure rfl

/-- A statement without its semicolon is a conditional or of one of the forms. -/
theorem marks_bareStatement : Marks (bareStatement b) Stmt.errorSpans := by
  refine .orElse (marks_conditional hb) ?_
  refine .withSpan fun span => ?_
  refine .choice fun q hq => ?_
  obtain ⟨form, rfl⟩ := Form.exists_of_mem hq
  exact marks_form hb form span

end Blocks

/-- The statements of a block stand between its braces. -/
theorem marks_strictBlock {p : Parser Stmt} (hp : Marks p Stmt.errorSpans) :
    Marks (strictBlock p) Block.errorSpans := by
  refine .labelled ?_
  refine .withSpan fun _ => ?_
  exact .map (g := Block.mk) (.between (marks_many hp))

/-- The statements in a statement that could not be read are marked by the failures reported. -/
theorem marks_statement : Marks statement Stmt.errorSpans := by
  rw [← statementBy_strictBlock_eq]
  refine Onward.ensures_fix (fun p hp => onward_statementStep (onward_strictBlock hp))
    fun p honward hp => ?_
  exact Marks.recoverWith (.labelled (.bind_quiet (marks_bareStatement (marks_strictBlock hp))
    ensures_semicolon)) (onward_terminated (onward_strictBlock honward)).labelled
      ensures_statementError

/-- At the top level, a closing brace that closes nothing is a statement of its own. -/
theorem marks_statements : Marks (statements statement) Stmt.errorSpansOfAll :=
  marks_many (.recoverWith marks_statement onward_statement ensures_strayBrace)

end Statements

end Grammar

end CrudLang
