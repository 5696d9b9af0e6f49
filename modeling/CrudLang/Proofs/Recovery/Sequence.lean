import CrudLang.Proofs.Recovery.Order

/-!
# Failures are reported in the order of their places

Whatever the tokens are, no failure is reported behind one that is further on. A statement that
cannot be read fails between the place where it begins and the place where the skipping of it ends,
so between two statements the failures reported so far are not behind the present place
(`Grammar.Stage.settled`). There is one exception. The failure of a conditional behind `else` may be
pending before `else` (`Grammar.Stage.dangling`), so it is reported for the statement that begins
with `else`, wherever it is. But the skipping of that statement ends at `if`, and there the
conditional fails again and not further back (`Grammar.Stage.again`).

The step lemma is `Grammar.Sequenced.statement`, about one statement, and the run lemma is
`Parsing.failures_inSequence`.
-/

namespace CrudLang

open Grammar CrudLang.Parser

namespace Grammar

/-- The failures reported so far are in the order of their places, and not behind the present
place. -/
structure InSequence (a : Input) (fs : List Failure) : Prop where
  pairwise : fs.Pairwise fun e f => f.rest.size ≤ e.rest.size
  behind : ∀ e ∈ fs, a.size ≤ e.rest.size

theorem advances_inSequence : Advances InSequence := fun a b fs t h ha =>
  ⟨h.pairwise, fun e he => by
    have hsize := Input.size_of_tokens_eq_cons ha
    have hle := h.behind e he
    omega⟩

/-- Where reading stands between two statements. -/
inductive Stage (s : State) : Prop
  /-- No failure is behind the present place, and none is pending behind the place where the
  skipping of the next statement would end. -/
  | settled (hbehind : ∀ e ∈ s.reported, s.rest.size ≤ e.rest.size)
      (hpending : UpToLanding s.rest s.pending)
  /-- The failure of the conditional behind `else` may be pending. -/
  | dangling (hbehind : ∀ e ∈ s.reported, s.rest.size ≤ e.rest.size) (hdangling : Dangling s)
  /-- That failure has been reported for the statement that began with `else`. -/
  | again {size : Nat} (hbreaks : s.rest.BreaksOff size)
      (hbehind : ∀ e ∈ s.reported, size ≤ e.rest.size) (hpending : UpToLanding s.rest s.pending)

/-- Between two statements, the failures reported so far are in the order of their places. -/
structure Sequenced (s : State) : Prop where
  pairwise : s.reported.Pairwise fun e f => f.rest.size ≤ e.rest.size
  stage : Stage s

section Statements

variable {s t u : State} {f : Failure} {v : Stmt} {n : Nat}

theorem InSequence.sequenced {a : Input} {fs : List Failure} (h : InSequence a fs) :
    Sequenced ⟨a, none, fs⟩ :=
  ⟨h.pairwise, .settled h.behind (.none _)⟩

/-- A failure no further back than the ones before is in order. -/
theorem Sequenced.concat (h : Sequenced s) (hf : ∀ e ∈ s.reported, f.rest.size ≤ e.rest.size) :
    (s.reported ++ [f]).Pairwise fun e f => f.rest.size ≤ e.rest.size := by
  refine List.pairwise_append.2 ⟨h.pairwise, List.pairwise_singleton _ _, fun e he g hg => ?_⟩
  rw [List.mem_singleton.1 hg]
  exact hf e he

/-- Behind a statement that is skipped no failure is further back, if its own is not. -/
theorem Skipped.stage (h : Skipped s u) (hf : (statementLanding s.rest.tokens).length ≤ f.rest.size)
    (hbehind : ∀ e ∈ s.reported, f.rest.size ≤ e.rest.size) :
    Stage { u with reported := u.reported ++ [f] } := by
  have hle := Nat.le_trans h.size_le hf
  refine .settled (fun e he => ?_) h.upToLanding
  rcases List.mem_append.1 he with he | he
  · exact Nat.le_trans hle (hbehind e (h.reported ▸ he))
  · rwa [List.mem_singleton.1 he]

section Dangling

variable {token : Token} {b : Input} {size : Nat} (htokens : s.rest.tokens = token :: b.tokens)
variable (hkind : token.kind = .keyword .else) (hb : b.BreaksOff size)
include htokens hkind hb

/-- Behind `else`, skipping would end at the conditional that cannot be read. -/
theorem statementLanding_of_breaksOff : statementLanding s.rest.tokens = b.tokens := by
  obtain ⟨i, is, his, hi⟩ := hb.head
  rw [htokens, statementLanding_of_not_halts (hkind ▸ by decide), ← htokens,
    landing_of_elseIf (htokens.trans (congrArg _ his)) hkind hi, his]

theorem Skipped.breaksOff (h : Skipped s u) : u.rest.BreaksOff size := by
  have hlanding := statementLanding_of_breaksOff htokens hkind hb
  rcases h.landing with ⟨heq, -⟩ | ⟨semi, heq, hsemi⟩
  · rwa [Input.ext (heq.trans hlanding)]
  · -- no semicolon stands where `if` does
    obtain ⟨i, is, his, hi⟩ := hb.head
    obtain ⟨rfl, -⟩ := List.cons.inj (his.symm.trans (hlanding.symm.trans heq))
    cases hi.symm.trans hsemi

end Dangling

/-- Skipping a statement keeps failures in sequence. -/
theorem Sequenced.skipped (h : Sequenced s) (hskipped : Skipped s u)
    (hf : labelled .statement (terminated (bareStatement (strictBlock statement))) s = .fail f) :
    Sequenced { u with reported := u.reported ++ [f] } := by
  have hup := size_le_of_labelled_eq_fail hf
  have hconcat (hle : ∀ e ∈ s.reported, f.rest.size ≤ e.rest.size) :
      (u.reported ++ [f]).Pairwise fun e f => f.rest.size ≤ e.rest.size := by
    rw [hskipped.reported]
    exact h.concat hle
  cases h.stage with
  | settled hbehind hpending =>
    have hle (e : Failure) (he : e ∈ s.reported) := Nat.le_trans hup (hbehind e he)
    have hlow := le_size_of_labelled_eq_fail (Nat.le_refl _) hpending hf
    exact ⟨hconcat hle, hskipped.stage hlow hle⟩
  | again hbreaks hbehind hpending =>
    -- the conditional breaks off once more, no further back than what was reported for `else`
    obtain ⟨g, hg, hsize⟩ := exists_labelled_eq_fail_of_breaksOff hbreaks
    obtain rfl := Reply.fail.inj (hg.symm.trans hf)
    have hle (e : Failure) (he : e ∈ s.reported) := Nat.le_trans hsize (hbehind e he)
    have hlow := le_size_of_labelled_eq_fail (Nat.le_refl _) hpending hf
    exact ⟨hconcat hle, hskipped.stage hlow hle⟩
  | dangling hbehind hdangling =>
    -- the pending failure is reported now, and skipping stops at the conditional it comes from
    obtain ⟨token, b, size, htokens, hkind, hbreaks, hpending⟩ := hdangling
    have hle (e : Failure) (he : e ∈ s.reported) := Nat.le_trans hup (hbehind e he)
    have hlimit : size ≤ (statementLanding s.rest.tokens).length := by
      rw [statementLanding_of_breaksOff htokens hkind hbreaks, b.size_eq]
      exact Nat.le_of_lt hbreaks.size_lt
    have hlow := le_size_of_labelled_eq_fail hlimit hpending hf
    have hagain := Skipped.breaksOff htokens hkind hbreaks hskipped
    refine ⟨hconcat hle, .again hagain (fun e he => ?_) hskipped.upToLanding⟩
    rcases List.mem_append.1 he with he | he
    · exact Nat.le_trans hlow (hle e (hskipped.reported ▸ he))
    · rwa [List.mem_singleton.1 he]

/-- A statement keeps failures in sequence, be it read or skipped. -/
theorem Sequenced.statement (hb : Maintains InSequence n (strictBlock statement))
    (hs : s.rest.size < n) (h : Sequenced s) (ht : Grammar.statement s = .ok v t) :
    Sequenced t := by
  rw [statement_eq_terminated] at ht
  rcases of_recoverWith_eq_ok ht with hv | ⟨f, u, hf, hu, rfl⟩
  · -- only where nothing dangles can a statement be read
    cases h.stage with
    | settled hbehind hpending =>
      obtain ⟨-, hread⟩ :=
        (maintains_terminated advances_inSequence hb).labelled s v t hs ⟨h.pairwise, hbehind⟩ hv
      exact ⟨hread.pairwise, (pending_of_labelled_eq_ok hpending hv).elim (.settled hread.behind)
        (.dangling hread.behind)⟩
    | dangling hbehind hdangling =>
      obtain ⟨token, b, size, htokens, hkind, -⟩ := hdangling
      obtain ⟨f, hf⟩ := exists_labelled_eq_fail_of_else htokens hkind
      cases hf.symm.trans hv
    | again hbreaks hbehind hpending =>
      obtain ⟨f, hf, -⟩ := exists_labelled_eq_fail_of_breaksOff hbreaks
      cases hf.symm.trans hv
  · exact h.skipped (skipped_of_statementError_eq_ok hu) hf

/-- Where a closing brace stands, there is no conditional to come that cannot be read. -/
theorem Sequenced.settled_of_rightBrace (h : Sequenced s) {brace : Token} {after : List Token}
    (htokens : s.rest.tokens = brace :: after) (hkind : brace.kind = .punctuator .rightBrace) :
    InSequence s.rest s.reported ∧ UpToLanding s.rest s.pending := by
  cases h.stage with
  | settled hbehind hpending => exact ⟨⟨h.pairwise, hbehind⟩, hpending⟩
  | dangling hbehind hdangling =>
    obtain ⟨token, b, size, htokens', hkind', -⟩ := hdangling
    obtain ⟨rfl, -⟩ := List.cons.inj (htokens.symm.trans htokens')
    cases hkind.symm.trans hkind'
  | again hbreaks hbehind hpending =>
    obtain ⟨token, ts, htokens', hkind'⟩ := hbreaks.head
    obtain ⟨rfl, -⟩ := List.cons.inj (htokens.symm.trans htokens')
    cases hkind.symm.trans hkind'

/-- Blocks keep failures in sequence. -/
theorem maintains_inSequence_strictBlock (n : Nat) :
    Maintains InSequence n (strictBlock Grammar.statement) :=
  maintains_strictBlock advances_inSequence (fun _ _ h => h.sequenced)
    (fun _ _ _ h htokens hkind => (h.settled_of_rightBrace htokens hkind).1)
    (fun _ _ _ _ hb hs h ht => h.statement hb hs ht) n

/-- A statement of a program, or a closing brace that closes nothing. -/
theorem Sequenced.step (h : Sequenced s)
    (ht : recoverWith Grammar.statement strayBrace s = .ok v t) :
    Sequenced t := by
  rcases of_recoverWith_eq_ok ht with hv | ⟨f, u, hf, hu, rfl⟩
  · exact h.statement (maintains_inSequence_strictBlock _) (Nat.lt_succ_self _) hv
  · obtain ⟨brace, after, hbrace, hkind, rfl⟩ := of_strayBrace_eq_ok hu
    replace hbrace : s.rest.tokens = brace :: after := hbrace
    obtain ⟨hbehind, hpending⟩ := h.settled_of_rightBrace hbrace hkind
    have hnext := advances_inSequence _ (.ofList after) _ _ hbehind hbrace
    have hsize : s.rest.size = (Input.ofList after).size + 1 := Input.size_of_tokens_eq_cons hbrace
    have hfsize := size_eq_of_statement_eq_fail hpending hbrace hkind hf
    -- the brace is reported where it stands, and reading goes on behind it
    refine ⟨h.concat fun e he => hfsize ▸ hbehind.behind e he, .settled (fun e he => ?_)
      (.none _)⟩
    rcases List.mem_append.1 he with he | he
    · exact hnext.behind e he
    · rw [List.mem_singleton.1 he]
      dsimp only
      omega

end Statements

end Grammar

namespace Parsing

/-- Failures are reported in the order of their places. -/
theorem failures_inSequence (tokens : List Token) :
    (ofTokens tokens).failures.Pairwise fun e f => f.rest.size ≤ e.rest.size := by
  obtain ⟨stmts, t, ht, -, heq⟩ := exists_ofTokens_eq tokens
  have hstart : Sequenced ⟨.ofList tokens, none, []⟩ :=
    ⟨.nil, .settled (fun _ he => nomatch he) (.none _)⟩
  obtain ⟨u, hu, -, hreported⟩ := exists_of_many_eq_ok consumes_recoverWith_strayBrace
    (fun s v t _ h ht => h.step ht) (Nat.lt_succ_self tokens.length) hstart ht
  rw [heq]
  exact hreported ▸ hu.pairwise

end Parsing

end CrudLang
