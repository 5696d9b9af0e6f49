import CrudLang.Proofs.Grammar.Accepted
import CrudLang.Proofs.Grammar.Steady
import CrudLang.Proofs.Isolation.Confinement

/-!
# Blocks with balanced content

In a `Balanced` list of tokens every brace has its counterpart. A block with such a content is read
up to its closing brace, whatever the content is: a `Hole` records what is read there, what is
reported inside and what is pending behind (`exists_hole`).
-/

namespace CrudLang

/-- The span of tokens goes from the first one to the last. -/
theorem spanOfRun_cons_concat (first last : Token) (ts : List Token) :
    spanOfRun (first :: (ts ++ [last])) = ⟨first.span.start, last.span.stop⟩ := by
  simp only [spanOfRun, ← List.cons_append, List.getLast_concat]

/-- The span of tokens depends on the first one and the last one only. -/
theorem spanOfRun_eq {run run' : List Token} (hhead : run.head? = run'.head?)
    (hlast : run.getLast? = run'.getLast?) : spanOfRun run = spanOfRun run' := by
  cases run with
  | nil =>
    cases run' with
    | nil => rfl
    | cons => cases hhead
  | cons first rest =>
    cases run' with
    | nil => cases hhead
    | cons first' rest' =>
      rw [List.getLast?_eq_some_getLast (by simp), List.getLast?_eq_some_getLast (by simp)] at hlast
      rw [spanOfRun, spanOfRun, Option.some.inj hlast, Option.some.inj hhead]

namespace Grammar

open CrudLang.Parser

/-- A block with balanced content, and what is read there. -/
structure Hole where
  /-- The opening brace. -/
  opening : Token
  /-- The tokens between the braces. -/
  content : List Token
  /-- The closing brace. -/
  closing : Token
  /-- The tokens behind the block. -/
  after : List Token
  /-- The statements between the braces. -/
  stmts : List Stmt
  /-- The failures reported between the braces. -/
  inside : List Failure
  /-- What is pending behind the block, given what was pending before. -/
  pending : Option Failure → Option Failure
  opens : opening.kind = .punctuator .leftBrace
  balanced : Balanced content
  closes : closing.kind = .punctuator .rightBrace
  reads : ∀ before reported,
    strictBlock statement ⟨.ofList (opening :: (content ++ closing :: after)), before, reported⟩ =
      .ok ⟨stmts, opening.span.start, closing.span.stop⟩
        ⟨.ofList after, pending before, reported ++ inside⟩
  /-- Nothing is noted behind the closing brace. -/
  keeps : ∀ before, Keeps after before (pending before)

namespace Hole

variable (H : Hole)

/-- The tokens from the opening brace on. -/
def tokens : List Token :=
  H.opening :: (H.content ++ H.closing :: H.after)

/-- The input from the opening brace on. -/
def input : Input :=
  .ofList H.tokens

/-- The input behind the closing brace. -/
def behind : Input :=
  .ofList H.after

/-- The block that is read. -/
def body : Block Stmt :=
  ⟨H.stmts, H.opening.span.start, H.closing.span.stop⟩

/-- What is behind the opening brace closes it. -/
theorem afterClosing_eq : afterClosing 0 (H.content ++ H.closing :: H.after) = some H.after := by
  rw [afterClosing_append H.balanced, afterClosing_close_zero H.closes]

theorem kindsOf_input : kindsOf H.input.tokens =
    .punctuator .leftBrace :: kindsOf (H.content ++ H.closing :: H.after) :=
  congrArg (· :: _) H.opens

theorem strictBlock_eq (before : Option Failure) (reported : List Failure) :
    strictBlock statement ⟨H.input, before, reported⟩ =
      .ok H.body ⟨H.behind, H.pending before, reported ++ H.inside⟩ :=
  H.reads before reported

theorem suffix : H.behind.tokens <:+ H.input.tokens :=
  ⟨H.opening :: (H.content ++ [H.closing]), by simp [behind, input, tokens]⟩

theorem less : H.behind.size < H.input.size := by
  simp [behind, input, tokens]
  omega

/-- There are as many failures as statements between the braces that could not be read. -/
theorem length_inside : H.inside.length = Block.errorCount H.body := by
  obtain ⟨read, new, -, hnew, -, hcount⟩ :=
    spells_strictBlock spells_statement _ _ _ (H.strictBlock_eq none [])
  rw [List.nil_append, List.nil_append] at hnew
  exact (congrArg List.length hnew).trans hcount

end Hole

section Reading

variable {l r : Token} {content after : List Token}

/-- What is read from brace to brace. -/
theorem take_braces (l r : Token) (content after : List Token) :
    (l :: (content ++ r :: after)).take ((l :: (content ++ r :: after)).length - after.length) =
      l :: (content ++ [r]) := by
  have htokens : l :: (content ++ r :: after) = (l :: (content ++ [r])) ++ after := by simp
  rw [htokens, List.length_append, Nat.add_sub_cancel, List.take_left]

/-- The statements between matching braces are read up to the closing one, and nothing is pending
behind it. -/
theorem exists_balanced_eq_ok (after : List Token) (hl : l.kind = .punctuator .leftBrace)
    (hcontent : Balanced content) (hr : r.kind = .punctuator .rightBrace) :
    ∃ stmts pending new, PendingBefore after pending ∧
      bracedStatements statement ⟨.ofList (l :: (content ++ r :: after)), none, []⟩ =
        .ok ⟨stmts, l.span.start, r.span.stop⟩ ⟨.ofList after, pending, new⟩ := by
  have hafter : afterClosing 0 (content ++ r :: after) = some after := by
    rw [afterClosing_append hcontent, afterClosing_close_zero hr]
  let s : State := ⟨.ofList (l :: (content ++ r :: after)), none, []⟩
  obtain ⟨stmts, ⟨rest, pending, new⟩, ht, hrest⟩ :=
    exists_between_many_statement_eq_ok (s := s) rfl hl hafter
  obtain rfl : rest = .ofList after := Input.ext hrest
  refine ⟨stmts, pending, new, ?_, ?_⟩
  · exact of_between_eq_ok (s := s) (.many (confined_statement (Nat.le_refl _)) consumes_statement)
      (Nat.le_refl _) rfl hafter .none ht
  · rw [bracedStatements, withSpan, bind_apply, ht]
    dsimp only [pure_apply]
    rw [Input.size_ofList, Input.size_ofList, Input.tokens_ofList, take_braces,
      spanOfRun_cons_concat]

/-- What was reported before makes no difference to the statements between braces. -/
theorem bracedStatements_eq_of_reported {a rest : Input} {pending pending' : Option Failure}
    {new : List Failure} {body : Block Stmt}
    (h : bracedStatements statement ⟨a, pending, []⟩ = .ok body ⟨rest, pending', new⟩)
    (reported : List Failure) :
    bracedStatements statement ⟨a, pending, reported⟩ =
      .ok body ⟨rest, pending', reported ++ new⟩ := by
  have hsteady : Steady (bracedStatements statement) :=
    blockGuarded_steady.bracedStatements (q := statement) steady_statement
  rcases hsteady a pending with ⟨f, hf⟩ | ⟨v, rest', pending'', new', hv⟩
  · cases (hf []).symm.trans h
  · obtain ⟨rfl, ht⟩ := Reply.ok.inj ((hv []).symm.trans h)
    simp only [List.nil_append, State.mk.injEq] at ht
    obtain ⟨rfl, rfl, rfl⟩ := ht
    exact hv reported

/-- A block with balanced content can be read. -/
theorem exists_hole (hl : l.kind = .punctuator .leftBrace) (hcontent : Balanced content)
    (hr : r.kind = .punctuator .rightBrace) :
    ∃ H : Hole, H.opening = l ∧ H.content = content ∧ H.closing = r ∧ H.after = after := by
  obtain ⟨stmts, pending, new, hpending, hbraced⟩ := exists_balanced_eq_ok after hl hcontent hr
  -- the block is read with nothing pending, and what was pending is joined behind it
  let start : Input := .ofList (l :: (content ++ r :: after))
  refine ⟨⟨l, content, r, after, stmts, new,
    fun before => pendingBehind before start .block pending, hl, hcontent, hr, ?_, ?_⟩,
    rfl, rfl, rfl, rfl⟩
  · intro before reported
    rw [strictBlock, labelled_eq_ok (bracedStatements_eq_of_reported hbraced reported)]
  · exact fun before =>
      ⟨fun hbefore => hbefore.behind hpending, fun f hf hle => hf ▸ pendingBehind_eq hpending hle⟩

end Reading

end Grammar

end CrudLang
