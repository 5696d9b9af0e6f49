import CrudLang.Proofs.Analysis.Layout
import CrudLang.Proofs.Recovery.Order

/-!
# One mistake, one diagnostic

Where every conditional behind `else` can be read, syntax errors are reported from left to right,
each of them at another token. Only a closing brace that closes nothing may be reported again: once
for the statement that ends there and once for itself (`Parsing.diagnostics_leftToRight`). The
condition holds in particular where no `else` is directly followed by `if`
(`NoBrokenElseIf.of_isChain`).

A conditional behind `else` that cannot be read is different. The statement before it ends and the
failure stays pending, so it is reported for the statement that begins with `else`. The skipping of
that one ends at `if`, and the conditional is read again and fails at the same place.
-/

namespace CrudLang

open Grammar CrudLang.Parser

/-- How many braces are open behind the tokens, if so many are open before them. A closing brace
closes the last one if there is one. -/
def openBraces : Nat → List Token → Nat
  | depth, [] => depth
  | depth, t :: ts =>
    if t.kind = .punctuator .leftBrace then openBraces (depth + 1) ts
    else if t.kind = .punctuator .rightBrace then openBraces (depth - 1) ts
    else openBraces depth ts

/-- Token number `i` is a closing brace that closes nothing. -/
def IsStray (tokens : List Token) (i : Nat) : Prop :=
  tokens[i]?.map Token.kind = some (.punctuator .rightBrace) ∧ openBraces 0 (tokens.take i) = 0

instance (tokens : List Token) (i : Nat) : Decidable (IsStray tokens i) :=
  inferInstanceAs (Decidable (_ ∧ _))

namespace Grammar

section Braces

theorem openBraces_append (depth : Nat) (first second : List Token) :
    openBraces depth (first ++ second) = openBraces (openBraces depth first) second := by
  induction first generalizing depth with
  | nil => rfl
  | cons t ts ih =>
    rw [List.cons_append, openBraces, openBraces]
    split
    · exact ih _
    split
    · exact ih _
    · exact ih _

theorem openBraces_of_closes {depth : Nat} {tokens before after : List Token} {brace : Token}
    (h : Closes after depth tokens) (htokens : tokens = before ++ brace :: after) :
    openBraces depth before = 0 := by
  have hno {depth : Nat} : ¬ Closes after depth after := fun h => Nat.lt_irrefl _ h.length_lt
  -- the way goes through `before`, and at its end only the last brace is left
  induction h generalizing before with
  | last =>
    cases before with
    | nil => rfl
    | cons t ts =>
      have hlength := congrArg List.length htokens
      simp only [List.length_append, List.length_cons] at hlength
      omega
  | opening hl hrest ih =>
    cases before with
    | nil => exact (hno ((List.cons.inj htokens).2 ▸ hrest)).elim
    | cons t ts =>
      obtain ⟨rfl, hts⟩ := List.cons.inj htokens
      rw [openBraces, if_pos hl]
      exact ih hts
  | closing hr hrest ih =>
    cases before with
    | nil => exact (hno ((List.cons.inj htokens).2 ▸ hrest)).elim
    | cons t ts =>
      obtain ⟨rfl, hts⟩ := List.cons.inj htokens
      rw [openBraces, if_neg (by simp [hr]), if_pos hr]
      exact ih hts
  | other hl hr hrest ih =>
    cases before with
    | nil => exact (hno ((List.cons.inj htokens).2 ▸ hrest)).elim
    | cons t ts =>
      obtain ⟨rfl, hts⟩ := List.cons.inj htokens
      rw [openBraces, if_neg hl, if_neg hr]
      exact ih hts

/-- The brace that closes the last open one closes nothing more. -/
theorem openBraces_of_afterClosing {depth : Nat} {before after : List Token} {brace : Token}
    (h : afterClosing depth (before ++ brace :: after) = some after) :
    openBraces depth before = 0 :=
  openBraces_of_closes (.of_eq_some h) rfl

end Braces

section Program

variable {tokens : List Token} {Twice : Nat → Prop} {s t : State}

/-- So many tokens are left where a closing brace stands that closes nothing. -/
def StrayAtSize (tokens : List Token) (size : Nat) : Prop :=
  ∃ i, IsStray tokens i ∧ i + size = tokens.length

/-- Between the statements of a program no brace is open: the next closing brace that has no opening
brace before it closes nothing. -/
structure TopLevel (tokens : List Token) (s : State) : Prop where
  settled : Settled (StrayAtSize tokens) s
  unopened : ∃ before, tokens = before ++ s.rest.tokens ∧ ∀ inner brace after,
    s.rest.tokens = inner ++ brace :: after → afterClosing 0 s.rest.tokens = some after →
      openBraces 0 (before ++ inner) = 0

theorem TopLevel.start (hwhole : NoBrokenElseIf tokens) :
    TopLevel tokens ⟨.ofList tokens, none, []⟩ where
  settled := ⟨⟨hwhole, .nil, fun _ he => nomatch he⟩, .none _⟩
  unopened := ⟨[], rfl, fun _ _ _ heq hafter => openBraces_of_afterClosing (heq ▸ hafter)⟩

/-- Behind a statement the same closing braces close nothing as before it. -/
theorem TopLevel.behind_statement {v : Stmt} (h : TopLevel tokens s) (hv : statement s = .ok v t) :
    TopLevel tokens t where
  settled := h.settled.statement (maintains_inOrder_strictBlock _ _) (Nat.lt_succ_self _) hv
  unopened := by
    obtain ⟨before, htokens, hunopened⟩ := h.unopened
    obtain ⟨read, -, hread, -, hsame⟩ := keepsDepth_statement s v t hv
    refine ⟨before ++ read, by rw [htokens, hread, List.append_assoc],
      fun inner brace after heq hafter => ?_⟩
    rw [List.append_assoc]
    refine hunopened (read ++ inner) brace after ?_ ?_
    · rw [hread, heq, List.append_assoc]
    · rw [hread, hsame]
      exact hafter

/-- A closing brace between the statements closes nothing, and its failure is reported there. -/
theorem TopLevel.behind_strayBrace {f : Failure} {brace : Token} {after : List Token}
    (h : TopLevel tokens s) (hf : statement s = .fail f)
    (hbrace : s.rest.tokens = brace :: after) (hkind : brace.kind = .punctuator .rightBrace) :
    TopLevel tokens ⟨.ofList after, none, s.reported ++ [f]⟩ := by
  obtain ⟨before, htokens, hunopened⟩ := h.unopened
  have hnext : InOrder (StrayAtSize tokens) (.ofList after) s.reported :=
    h.settled.inOrder.next hbrace
  have hsize : s.rest.size = (Input.ofList after).size + 1 := Input.size_of_tokens_eq_cons hbrace
  have hfsize := size_eq_of_statement_eq_fail h.settled.pending hbrace hkind hf
  have hopen : openBraces 0 before = 0 := by
    have hclosed := hunopened [] brace after hbrace
      (by rw [hbrace, afterClosing_close_zero hkind])
    rwa [List.append_nil] at hclosed
  have hstray : StrayAtSize tokens f.rest.size := by
    refine ⟨before.length, ⟨?_, ?_⟩, ?_⟩
    · rw [htokens, hbrace, List.getElem?_append_right (Nat.le_refl _), Nat.sub_self]
      exact congrArg some hkind
    · rw [htokens, List.take_left]
      exact hopen
    · rw [htokens, List.length_append, s.rest.size_eq, hfsize]
  refine ⟨⟨⟨hnext.noBrokenElseIf, ?_, fun e he => ?_⟩, .none _⟩, ?_⟩
  · exact h.settled.inOrder.pairwise_concat (Nat.le_of_eq hfsize) fun _ => .inr ⟨hfsize, hstray⟩
  · rcases List.mem_append.1 he with he | he
    · exact hnext.behind e he
    · obtain rfl := List.mem_singleton.1 he
      exact .inl (by dsimp only; omega)
  · -- no brace is open behind the stray one either
    refine ⟨before ++ [brace], by rw [htokens, hbrace]; simp,
      fun inner other rest heq hafter => ?_⟩
    rw [List.append_assoc, openBraces_append, hopen, List.singleton_append, openBraces,
      if_neg (by rw [hkind]; decide), if_pos hkind]
    exact openBraces_of_afterClosing (heq ▸ hafter)

/-- A statement of a program, or a closing brace that closes nothing. -/
theorem TopLevel.step {v : Stmt} (h : TopLevel tokens s)
    (ht : recoverWith statement strayBrace s = .ok v t) : TopLevel tokens t := by
  rcases of_recoverWith_eq_ok ht with hv | ⟨f, u, hf, hu, rfl⟩
  · exact h.behind_statement hv
  · obtain ⟨brace, after, hbrace, hkind, rfl⟩ := of_strayBrace_eq_ok hu
    exact h.behind_strayBrace hf hbrace hkind

end Program

end Grammar

namespace Parsing

variable {tokens : List Token}

/-- Failures are reported from left to right, each at another place but for stray closing braces. -/
theorem failures_inOrder (hwhole : NoBrokenElseIf tokens) :
    (ofTokens tokens).failures.Pairwise fun e f =>
      f.rest.size < e.rest.size ∨ f.rest.size = e.rest.size ∧ StrayAtSize tokens f.rest.size := by
  obtain ⟨stmts, t, ht, -, heq⟩ := exists_ofTokens_eq tokens
  rw [heq]
  obtain ⟨u, hu, -, hreported⟩ := exists_of_many_eq_ok consumes_recoverWith_strayBrace
    (fun s v t _ h ht => h.step ht) (Nat.lt_succ_self tokens.length) (TopLevel.start hwhole) ht
  exact hreported ▸ hu.settled.inOrder.pairwise

/-- A failure is at a token, or at the end of the input. -/
theorem eq_drop_of_mem_failures {f : Failure} (hf : f ∈ (ofTokens tokens).failures) :
    f.rest.size ≤ tokens.length ∧ f.rest.tokens = tokens.drop (tokens.length - f.rest.size) := by
  obtain ⟨-, -, -, -, -, hfailures⟩ := ofTokens_layout (rfl : kindsOf tokens = _)
  obtain ⟨i, hi, hdrop, -⟩ := (List.forall₂_same.1 hfailures f hf).rest
  have hsize : f.rest.size = tokens.length - i := by
    rw [← f.rest.size_eq, hdrop, List.length_drop]
  have hlength : tokens.length - f.rest.size = i := by omega
  exact ⟨by omega, by rw [hlength, hdrop]⟩

theorem span_of_mem_failures {f : Failure} (hf : f ∈ (ofTokens tokens).failures) :
    f.span (endOfTokens tokens) = spanAt tokens (tokens.length - f.rest.size) :=
  span_eq_spanAt (eq_drop_of_mem_failures hf).2

/-- The syntax errors of a source are at tokens from left to right, or at the end. -/
theorem exists_places (lines : LineIndex) (hwhole : NoBrokenElseIf tokens) : ∃ places : List Nat,
    ((ofTokens tokens).diagnostics lines tokens).map (fun d => d.primary.span) =
      places.map (spanAt tokens) ∧ (∀ i ∈ places, i ≤ tokens.length) ∧
        places.Pairwise fun i j => i < j ∨ i = j ∧ IsStray tokens i := by
  -- the place of a failure is the number of tokens in front of it
  refine ⟨(ofTokens tokens).failures.map fun f => tokens.length - f.rest.size, ?_, ?_, ?_⟩
  · rw [diagnostics, List.map_map, List.map_map]
    exact List.map_congr_left fun f hf => span_of_mem_failures hf
  · intro i hi
    obtain ⟨f, -, rfl⟩ := List.mem_map.1 hi
    exact Nat.sub_le _ _
  · refine List.pairwise_map.2 ((failures_inOrder hwhole).imp_of_mem fun {e f} he hf h => ?_)
    have hle := (eq_drop_of_mem_failures he).1
    rcases h with hless | ⟨heq, i, hi, hsum⟩
    · exact .inl (by omega)
    · obtain rfl : tokens.length - e.rest.size = i := by omega
      exact .inr ⟨by rw [heq], hi⟩

section Spans

variable (hspans : tokens.Pairwise fun t u => t.span.stop ≤ u.span.start)
include hspans

/-- No token ends behind the last one. -/
theorem stop_le_endOfTokens (hwidth : ∀ t ∈ tokens, t.span.start ≤ t.span.stop) {t : Token}
    (ht : t ∈ tokens) : t.span.stop ≤ endOfTokens tokens := by
  rcases List.eq_nil_or_concat' tokens with rfl | ⟨init, last, rfl⟩
  · cases ht
  · have hend : endOfTokens (init ++ [last]) = last.span.stop := by simp [endOfTokens]
    rw [hend]
    rcases List.mem_append.1 ht with ht | ht
    · have hle := (List.pairwise_append.1 hspans).2.2 t ht last (List.mem_singleton_self _)
      have hlast := hwidth last (List.mem_append_right _ (List.mem_singleton_self _))
      omega
    · rw [List.mem_singleton.1 ht]

/-- A token ends before spans further on begin. -/
theorem stop_le_start_spanAt (hwidth : ∀ t ∈ tokens, t.span.start ≤ t.span.stop) {i j : Nat}
    (hi : i < tokens.length) (hij : i < j) : tokens[i].span.stop ≤ (spanAt tokens j).start := by
  rcases Nat.lt_or_ge j tokens.length with hlt | hge
  · have hright : spanAt tokens j = tokens[j].span := by simp [spanAt, hlt]
    rw [hright]
    exact List.pairwise_iff_getElem.1 hspans i j hi hlt hij
  · have hright : spanAt tokens j = .point (endOfTokens tokens) := by
      simp [spanAt, List.getElem?_eq_none hge]
    rw [hright]
    exact stop_le_endOfTokens hspans hwidth (List.getElem_mem hi)

variable (hwidth : ∀ t ∈ tokens, t.span.start < t.span.stop)
include hwidth

/-- Further on, spans begin further on. -/
theorem start_spanAt_lt {i j : Nat} (hij : i < j) (hj : j ≤ tokens.length) :
    (spanAt tokens i).start < (spanAt tokens j).start := by
  have hi : i < tokens.length := Nat.lt_of_lt_of_le hij hj
  have hleft : spanAt tokens i = tokens[i].span := by simp [spanAt, hi]
  rw [hleft]
  exact Nat.lt_of_lt_of_le (hwidth _ (List.getElem_mem hi))
    (stop_le_start_spanAt hspans (fun t ht => Nat.le_of_lt (hwidth t ht)) hi hij)

/-- One mistake, one diagnostic: where every conditional behind `else` can be read, the syntax
errors are reported from left to right, each of them at another token or at the end of the input.
Only a closing brace that closes nothing may be reported again. -/
theorem diagnostics_leftToRight (lines : LineIndex) (hwhole : NoBrokenElseIf tokens) :
    ((ofTokens tokens).diagnostics lines tokens).Pairwise fun d e =>
      d.primary.span.start < e.primary.span.start ∨ d.primary.span = e.primary.span ∧
        ∃ i, IsStray tokens i ∧ d.primary.span = spanAt tokens i := by
  obtain ⟨places, hplaces, hbound, hordered⟩ := exists_places lines hwhole
  have hpairwise : (places.map (spanAt tokens)).Pairwise fun a b =>
      a.start < b.start ∨ a = b ∧ ∃ i, IsStray tokens i ∧ a = spanAt tokens i := by
    refine List.pairwise_map.2 (hordered.imp_of_mem fun {i j} _ hj h => ?_)
    rcases h with hless | ⟨rfl, hstray⟩
    · exact .inl (start_spanAt_lt hspans hwidth hless (hbound j hj))
    · exact .inr ⟨rfl, i, hstray, rfl⟩
  rw [← hplaces] at hpairwise
  exact List.pairwise_map.1 hpairwise

end Spans

/-- Two mistakes, and two diagnostics, although a conditional stands behind `else` between them: it
can be read. -/
theorem diagnostics_leftToRight_two :
    let first : Token := ⟨.punctuator .assign, "=", 1, ⟨0, 1⟩⟩
    let conditional (start : Nat) (name : String) : List Token :=
      [⟨.keyword .if, "if", 1, ⟨start, start + 2⟩⟩,
        ⟨.identifier name, name, 1, ⟨start + 3, start + 4⟩⟩,
        ⟨.punctuator .leftBrace, "\x7b", 1, ⟨start + 5, start + 6⟩⟩,
        ⟨.punctuator .rightBrace, "\x7d", 1, ⟨start + 6, start + 7⟩⟩]
    let tokens : List Token := first :: conditional 2 "x" ++
      ⟨.keyword .else, "else", 1, ⟨10, 14⟩⟩ :: conditional 15 "y" ++
        [{ first with span := ⟨23, 24⟩ }]
    let lines := LineIndex.ofSource "= if x \x7b\x7d else if y \x7b\x7d ="
    NoBrokenElseIf tokens ∧
      ((ofTokens tokens).diagnostics lines tokens).map (fun d => d.primary.span) =
        [⟨0, 1⟩, ⟨23, 24⟩] ∧
      ((ofTokens tokens).diagnostics lines tokens).Pairwise fun d e =>
        d.primary.span.start < e.primary.span.start ∨ d.primary.span = e.primary.span ∧
          ∃ i, IsStray tokens i ∧ d.primary.span = spanAt tokens i := by
  intro first conditional tokens lines
  have hread : ∀ size, ¬ (Input.ofList (conditional 15 "y" ++
      [{ first with span := ⟨23, 24⟩ }])).BreaksOff size := by
    rintro size ⟨-, f, hf, -⟩
    have hfail := congrArg (Reply.rec (motive := fun _ => Bool) (fun _ _ => false) fun _ => true) hf
    change _ = true at hfail
    exact absurd hfail (by decide +kernel)
  have hwhole : NoBrokenElseIf tokens := by
    simpa [tokens, conditional, first, NoBrokenElseIf.cons_iff, NoBrokenElseIf.nil] using hread
  exact ⟨hwhole, by decide +kernel, diagnostics_leftToRight (by decide) (by decide) lines hwhole⟩

end Parsing

end CrudLang
