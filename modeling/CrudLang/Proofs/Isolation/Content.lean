import CrudLang.Proofs.Isolation.Framing
import CrudLang.Proofs.Isolation.Lockstep

/-!
# The content of a block makes no difference outside it

Where a block of the tree is filled with other tokens in which braces are balanced, the tree
remains the same outside the block, and what is reported outside it remains the same too, word for
word. This holds although a parser carries along what it failed at furthest, and although whatever
may stand between the braces (`Parsing.block_isolated`).

That a brace opens a block of the tree is said by exchanging the block for another one
(`Parsing.OpensBlock`): the tree is then a `Program.Context` with the block in its hole, and so it
is for every other block.
-/

namespace CrudLang

open Grammar

namespace Twins

variable {W : Twins}

/-- Failures at corresponding places make the same diagnostic. -/
theorem Failures.diagnostic_eq {f g : Failure} (h : W.Failures f g) (lines : LineIndex)
    (eoi : Nat) : f.diagnostic lines eoi = g.diagnostic lines eoi := by
  have hfound : f.found = g.found := h.rest.head?_eq
  have htext : f.foundText = g.foundText := by rw [Failure.foundText, Failure.foundText, hfound]
  have hspan : f.span eoi = g.span eoi := by rw [Failure.span, Failure.span, hfound]
  have hexpected : f.expectedTexts = g.expectedTexts := by
    rw [Failure.expectedTexts, Failure.expectedTexts, h.expected]
  have hmessage : f.message = g.message := by
    rw [Failure.message, Failure.message, htext, hexpected]
  rw [Failure.diagnostic, Failure.diagnostic, hmessage, htext, hspan]

theorem map_diagnostic_eq {fs gs : List Failure} (h : List.Forall₂ W.Failures fs gs)
    (lines : LineIndex) (eoi : Nat) :
    fs.map (Failure.diagnostic lines eoi) = gs.map (Failure.diagnostic lines eoi) := by
  induction h with
  | nil => rfl
  | cons hfg _ ih => rw [List.map_cons, List.map_cons, hfg.diagnostic_eq, ih]

end Twins

namespace Parsing

/-- Reads tokens as a program, where the block that token number `i` opens is taken for another
one. -/
def exchanging (tokens : List Token) (i : Nat) (body : Block Stmt) : Parsing :=
  ofTokensBy (statementWith (tokens.length - i) (some body)) tokens

/-- Token number `i` opens a block of the tree: taking the block for another one makes another
tree. -/
def OpensBlock (tokens : List Token) (i : Nat) : Prop :=
  ∃ body, (exchanging tokens i body).program ≠ (ofTokens tokens).program

/-- Behind the tokens `ts` the block of `H` is read as a part of the tree `K`, and whatever it is
taken for, it is put in its hole. The failures inside the block are reported between those before
and those behind the hole. -/
structure ReadsAround (H : Hole) (ts : List Token) (K : Program.Context)
    (before after : List Failure) : Prop where
  exchanging : ∀ body, exchanging (ts ++ H.tokens) ts.length body =
    ⟨some (K.fill body), before ++ after⟩
  ofTokens : ofTokens (ts ++ H.tokens) = ⟨some (K.fill H.body), before ++ H.inside ++ after⟩
  length_before : before.length = K.errorsBefore
  length_after : after.length = K.errorsAfter
  headFree : HeadFree (kindsOf ts)

/-- A block is read as a part of the tree, or the tree is the same whatever it is taken for. -/
theorem exchanging_cases (H : Hole) (ts : List Token) :
    (∀ body, exchanging (ts ++ H.tokens) ts.length body = ofTokens (ts ++ H.tokens)) ∨
      ∃ K before after, ReadsAround H ts K before after := by
  have hsize : (ts ++ H.tokens).length - ts.length = H.input.size := by simp [Hole.input]
  have hexchanging (body : Block Stmt) : exchanging (ts ++ H.tokens) ts.length body =
      ofTokensBy (statementWith H.input.size (some body)) (ts ++ H.tokens) := by
    rw [exchanging, hsize]
  have hread : ofTokens (ts ++ H.tokens) =
      ofTokensBy (statementWith H.input.size none) (ts ++ H.tokens) := by
    rw [statementWith_none, ofTokens]
  -- every list of tokens is read to its end
  obtain ⟨stmts, s, hs, hend⟩ := exists_statements_eq_ok ⟨.ofList (ts ++ H.tokens), none, []⟩
  rw [← statementWith_none H.input.size] at hs
  have hfits : H.Fits (.ofList (ts ++ H.tokens)) := .inl (List.suffix_append ts H.tokens)
  cases frames_statements (H := H) (.ofList (ts ++ H.tokens)) none hfits with
  | fails f h => cases (h none []).symm.trans hs
  | same v rest pending new hrest h =>
    refine .inl fun body => ?_
    rw [hexchanging, hread, ofTokensBy, ofTokensBy, h, h]
  | around V rest pending before after us hus hrest h hA =>
    obtain rfl : us = ts := (List.append_cancel_right hus).symm
    obtain ⟨⟨first, K, last, rfl, hbefore, hafter⟩, hfree⟩ := hA
    obtain ⟨-, rfl⟩ := Reply.ok.inj ((h none []).symm.trans hs)
    refine .inr ⟨⟨first, K, last, spanOfRun (us ++ H.tokens)⟩, before, after,
      ⟨fun body => ?_, ?_, hbefore.symm, hafter.symm, hfree⟩⟩
    · rw [hexchanging, ofTokensBy_eq (h (some body) []) hend]
      simp [Program.Context.fill, Hole.reports]
    · rw [hread, ofTokensBy_eq (h none []) hend]
      simp [Program.Context.fill, Hole.reports]

/-- Where the blocks of two inputs are taken for the same, the trees are the same, and the failures
are at corresponding places. -/
theorem exchanging_twins (W : Twins) (body : Block Stmt) :
    (exchanging (W.before ++ W.first.tokens) W.before.length body).program =
        (exchanging (W.before ++ W.second.tokens) W.before.length body).program ∧
      List.Forall₂ W.Failures
        (exchanging (W.before ++ W.first.tokens) W.before.length body).failures
        (exchanging (W.before ++ W.second.tokens) W.before.length body).failures := by
  have hsize (H : Hole) : (W.before ++ H.tokens).length - W.before.length = H.input.size := by
    simp [Hole.input]
  have hinputs : W.Inputs (.ofList (W.before ++ W.first.tokens))
      (.ofList (W.before ++ W.second.tokens)) := .before List.suffix_rfl rfl rfl
  -- the span of the program is that of all its tokens, the first and the last of which correspond
  have hspan : spanOfRun (W.before ++ W.first.tokens) =
      spanOfRun (W.before ++ W.second.tokens) := by
    have hend : W.Inputs (.ofList []) (.ofList []) := .behind List.nil_suffix
    simpa only [Input.tokens_ofList, Input.size_ofList, List.length_nil, Nat.sub_zero,
      List.take_length] using hinputs.spanOfRun_eq hend (Nat.zero_le _)
  have hreply := Twins.inStep_statements body _ ⟨.ofList (W.before ++ W.first.tokens), none, []⟩
    ⟨.ofList (W.before ++ W.second.tokens), none, []⟩ ⟨hinputs, .of_none, .nil⟩
    (Nat.lt_succ_self _)
  unfold exchanging
  rw [hsize, hsize, ofTokensBy, ofTokensBy]
  generalize statements _ _ = x at hreply
  generalize statements _ _ = y at hreply
  -- no tree on either side, or the same statements and then the check for the end of the input
  cases hreply with
  | fail hfailures => exact ⟨rfl, .cons hfailures .nil⟩
  | @ok stmts s t hst _ =>
    have hend := Twins.inStep_endOfInput _ s t hst (Nat.lt_succ_self _)
    dsimp only
    generalize Parser.endOfInput s = x at hend
    generalize Parser.endOfInput t = y at hend
    cases hend with
    | fail hfailures =>
      exact ⟨rfl, List.rel_append hst.reported (.cons hfailures .nil)⟩
    | ok hend _ => exact ⟨by rw [hspan], hend.reported⟩

/-- The tree is `K` with `body` in its hole, the block that token number `i` opens; what is reported
is `before` and `after` for the statements around the block and `inside` for those in it. -/
structure BlockAt (lines : LineIndex) (tokens : List Token) (i : Nat) (K : Program.Context)
    (body : Block Stmt) (before inside after : List Diagnostic) : Prop where
  program : (ofTokens tokens).program = some (K.fill body)
  exchanging : ∀ other, (exchanging tokens i other).program = some (K.fill other)
  diagnostics : (ofTokens tokens).diagnostics lines tokens = before ++ inside ++ after
  length_before : before.length = K.errorsBefore
  length_inside : inside.length = Block.errorCount body
  length_after : after.length = K.errorsAfter

theorem ReadsAround.blockAt {H : Hole} {ts : List Token} {K : Program.Context}
    {before after : List Failure} (h : ReadsAround H ts K before after) (lines : LineIndex) :
    ∃ inside, BlockAt lines (ts ++ H.tokens) ts.length K H.body
      (before.map (Failure.diagnostic lines (endOfTokens (ts ++ H.tokens)))) inside
      (after.map (Failure.diagnostic lines (endOfTokens (ts ++ H.tokens)))) := by
  refine ⟨H.inside.map (Failure.diagnostic lines (endOfTokens (ts ++ H.tokens))),
    ⟨congrArg Parsing.program h.ofTokens,
      fun other => congrArg Parsing.program (h.exchanging other), ?_, ?_, ?_, ?_⟩⟩
  · rw [diagnostics, h.ofTokens, List.map_append, List.map_append]
  · rw [List.length_map, h.length_before]
  · rw [List.length_map, H.length_inside]
  · rw [List.length_map, h.length_after]

/-- Where the block is another one, the same is read around it. -/
theorem ReadsAround.second {W : Twins} {K : Program.Context} {before after : List Failure}
    (h : ReadsAround W.first W.before K before after) : ∃ before' after',
      ReadsAround W.second W.before K before' after' ∧ List.Forall₂ W.Failures before before' ∧
        List.Forall₂ W.Failures after after' := by
  have hprogram (body : Block Stmt) : some (K.fill body) =
      (Parsing.exchanging (W.before ++ W.second.tokens) W.before.length body).program := by
    rw [← (exchanging_twins W body).1, h.exchanging]
  rcases exchanging_cases W.second W.before with hsame | ⟨K', before', after', h'⟩
  · -- the tree is not the same for all blocks
    obtain ⟨body, hne⟩ := K.exists_fill_ne (K.fill default)
    refine absurd (Option.some.inj ?_) hne
    rw [hprogram, hprogram, hsame, hsame]
  · obtain rfl : K = K' := Program.Context.eq_of_fill_eq fun body =>
      Option.some.inj ((hprogram body).trans (congrArg Parsing.program (h'.exchanging body)))
    have hfailures := (exchanging_twins W default).2
    rw [h.exchanging, h'.exchanging] at hfailures
    have hlength : before.length = before'.length := h.length_before.trans h'.length_before.symm
    refine ⟨before', after', h', ?_, ?_⟩
    · simpa [← hlength] using List.forall₂_take_append _ _ _ hfailures
    · simpa [← hlength] using List.forall₂_drop_append _ _ _ hfailures

section Isolated

variable {X Y C C' : List Token} {l r : Token}

/-- The end of the last token is the same. -/
theorem endOfTokens_eq : endOfTokens (X ++ l :: (C ++ r :: Y)) =
    endOfTokens (X ++ l :: (C' ++ r :: Y)) := by
  have hlast (C : List Token) : (X ++ l :: (C ++ r :: Y)).getLast? = (r :: Y).getLast? := by
    rw [← List.cons_append, ← List.append_assoc, List.getLast?_append_cons]
  rw [endOfTokens, endOfTokens, hlast, hlast]

/-- The content of a block makes no difference outside it: if a brace opens a block of the tree,
then it does so whatever other tokens with balanced braces stand between it and its closing brace,
the tree is the same outside the block, and what is reported outside it is the same. -/
theorem block_isolated (lines : LineIndex) (hl : l.kind = .punctuator .leftBrace)
    (hr : r.kind = .punctuator .rightBrace) (hC : Balanced C) (hC' : Balanced C')
    (hopens : OpensBlock (X ++ l :: (C ++ r :: Y)) X.length) :
    OpensBlock (X ++ l :: (C' ++ r :: Y)) X.length ∧
      ∃ (K : Program.Context) (stmts stmts' : List Stmt)
        (before inside inside' after : List Diagnostic),
        BlockAt lines (X ++ l :: (C ++ r :: Y)) X.length K
            ⟨stmts, ⟨l.span.start, r.span.stop⟩⟩ before inside after ∧
          BlockAt lines (X ++ l :: (C' ++ r :: Y)) X.length K
            ⟨stmts', ⟨l.span.start, r.span.stop⟩⟩ before inside' after := by
  have hhole : ∃ H : Hole, H.opening = l ∧ H.content = C ∧ H.closing = r ∧ H.after = Y :=
    exists_hole hl hC hr
  have hhole' : ∃ H : Hole, H.opening = l ∧ H.content = C' ∧ H.closing = r ∧ H.after = Y :=
    exists_hole hl hC' hr
  obtain ⟨H, hopening, rfl, hclosing, hafter⟩ := hhole
  obtain ⟨H', rfl, rfl, rfl, rfl⟩ := hhole'
  have hfirst : X ++ H'.opening :: (H.content ++ H'.closing :: H'.after) = X ++ H.tokens := by
    rw [Hole.tokens, hopening, hclosing, hafter]
  have hbody : H.body = ⟨H.stmts, ⟨H'.opening.span.start, H'.closing.span.stop⟩⟩ := by
    rw [Hole.body, hopening, hclosing]
  have hend : endOfTokens (X ++ H.tokens) = endOfTokens (X ++ H'.tokens) :=
    (congrArg endOfTokens hfirst).symm.trans endOfTokens_eq
  rw [hfirst] at hopens ⊢
  obtain ⟨body, hne⟩ := hopens
  rcases exchanging_cases H X with hsame | ⟨K, before, after, hreads⟩
  · exact absurd (congrArg Parsing.program (hsame body)) hne
  let W : Twins := ⟨X, H, H', hopening, hclosing, hafter, hreads.headFree⟩
  obtain ⟨before', after', hreads', hbefore, hafter⟩ := ReadsAround.second (W := W) hreads
  obtain ⟨inside, hblock⟩ := hreads.blockAt lines
  obtain ⟨inside', hblock'⟩ := hreads'.blockAt lines
  rw [← hend, ← Twins.map_diagnostic_eq hbefore, ← Twins.map_diagnostic_eq hafter] at hblock'
  rw [hbody] at hblock
  refine ⟨?_, K, H.stmts, H'.stmts, _, inside, inside', _, hblock, hblock'⟩
  -- what is put into the hole makes a difference
  obtain ⟨other, hother⟩ := K.exists_fill_ne (K.fill H'.body)
  refine ⟨other, fun h => hother (Option.some.inj ?_)⟩
  exact (hblock'.exchanging other).symm.trans (h.trans hblock'.program)

/-- The body of the loop in `) loop { var } }` is a block, and so it is in `) loop { } }`; what is
reported of the parenthesis and of the last brace is the same. -/
theorem block_isolated_loop :
    let token (kind : TokenKind) : Token := ⟨kind, kind.text, 1, default⟩
    let l := token (.punctuator .leftBrace)
    let r := token (.punctuator .rightBrace)
    let X := [token (.punctuator .rightParen), token (.keyword .loop)]
    let C := [token (.keyword .var)]
    let lines := LineIndex.ofSource ""
    Balanced C ∧ OpensBlock (X ++ l :: (C ++ r :: [r])) X.length ∧
      OpensBlock (X ++ l :: ([] ++ r :: [r])) X.length ∧
      ∃ (K : Program.Context) (stmts stmts' : List Stmt)
        (before inside inside' after : List Diagnostic),
        BlockAt lines (X ++ l :: (C ++ r :: [r])) X.length K
            ⟨stmts, ⟨l.span.start, r.span.stop⟩⟩ before inside after ∧
          BlockAt lines (X ++ l :: ([] ++ r :: [r])) X.length K
            ⟨stmts', ⟨l.span.start, r.span.stop⟩⟩ before inside' after := by
  intro token l r X C lines
  have hC : Balanced C := .other (by simp [token]) (by simp [token]) .nil
  -- another body of the loop makes a tree with another number of statements that cannot be read
  have hopens : OpensBlock (X ++ l :: (C ++ r :: [r])) X.length := by
    refine ⟨⟨[], default⟩, fun h => ?_⟩
    have hcount : (exchanging (X ++ l :: (C ++ r :: [r])) X.length ⟨[], default⟩).program.map
        Program.errorCount ≠ (ofTokens (X ++ l :: (C ++ r :: [r]))).program.map
          Program.errorCount := by
      decide +kernel
    exact hcount (congrArg (Option.map Program.errorCount) h)
  exact ⟨hC, hopens, block_isolated lines rfl rfl hC .nil hopens⟩

end Isolated

end Parsing

end CrudLang
