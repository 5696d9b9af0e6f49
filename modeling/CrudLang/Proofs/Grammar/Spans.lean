import CrudLang.Proofs.Grammar.Coverage

/-!
# Spans nest

Where the tokens are in order, the span of a node is that of the run of tokens that it covers. The
children stand one behind the other in that run, so their spans are inside that of the node and do
not overlap (`Node.Nests`). This holds of all nodes of the tree that is read from any tokens in
order, whatever could not be read (`Parsing.spans_nest`).
-/

namespace CrudLang

/-- A node of a tree that is read from `tokens` begins and ends where tokens do, and the spans of
its children are inside its own, one behind the other. -/
structure Node.Nests (tokens : List Token) (n : Node) : Prop where
  start : ∃ t ∈ tokens, n.span.start = t.span.start
  stop : ∃ t ∈ tokens, n.span.stop = t.span.stop
  contains : ∀ c ∈ n.children, n.span.start ≤ c.span.start ∧ c.span.stop ≤ n.span.stop
  apart : n.children.Pairwise fun a b => a.span.stop ≤ b.span.start

/-- Two tokens in order that end at the same place are the same. -/
theorem Ordered.eq_of_stop_eq {run : List Token} (h : Ordered run) {t u : Token} (ht : t ∈ run)
    (hu : u ∈ run) (hstop : t.span.stop = u.span.stop) : t = u := by
  have hless {i j : Nat} (hj : j < run.length) (hij : i < j) :
      run[i].span.stop < run[j].span.stop :=
    Nat.lt_of_le_of_lt (List.pairwise_iff_getElem.1 h.apart i j (Nat.lt_trans hij hj) hj hij)
      (h.width _ (List.getElem_mem hj))
  obtain ⟨i, hi, rfl⟩ := List.getElem_of_mem ht
  obtain ⟨j, hj, rfl⟩ := List.getElem_of_mem hu
  rcases Nat.lt_trichotomy i j with hij | rfl | hij
  · exact absurd hstop (Nat.ne_of_lt (hless hj hij))
  · rfl
  · exact absurd hstop (Nat.ne_of_gt (hless hi hij))

variable {n : Node} {ns : List Node} {run rest tokens : List Token}

theorem Node.Stands.span_eq (h : n.Stands run rest) (hrun : Ordered run) :
    n.span = spanOfRun run := by
  rcases h with h | ⟨brace, rfl, -, rfl⟩
  · exact h.span_eq hrun
  · rfl

namespace Placed

/-- The spans of nodes are inside that of the run that they stand in. -/
theorem span_mem (h : Placed Node.Stands ns run rest) (hrun : Ordered run) (hn : n ∈ ns) :
    (spanOfRun run).start ≤ n.span.start ∧ n.span.stop ≤ (spanOfRun run).stop := by
  obtain ⟨before, own, after, rfl, hstands⟩ := h.exists_of_mem hn
  have hown := (List.infix_append before own after).sublist
  rw [hstands.span_eq (hrun.sublist hown)]
  exact ⟨hrun.start_le_start hown hstands.ne_nil, hrun.stop_le_stop hown hstands.ne_nil⟩

/-- The spans of nodes stand one behind the other, as the nodes do. -/
theorem pairwise (h : Placed Node.Stands ns run rest) (hrun : Ordered run) :
    ns.Pairwise fun a b => a.span.stop ≤ b.span.start := by
  induction h with
  | nil => exact .nil
  | @cons n ns before own after rest hn hns ih =>
    have hafter : Ordered after := hrun.sublist (List.sublist_append_right _ after)
    refine .cons (fun m hm => ?_) (ih hafter)
    -- what the node covers is before all that stands behind it
    have hbehind : Ordered (own ++ after) := by
      rw [List.append_assoc] at hrun
      exact hrun.sublist (List.sublist_append_right before _)
    have hne : after ≠ [] := hns.ne_nil Node.Stands.ne_nil (List.ne_nil_of_mem hm)
    rw [hn.span_eq (hbehind.sublist (List.sublist_append_left own after))]
    exact Nat.le_trans (hbehind.stop_le_start hn.ne_nil hne) (hns.span_mem hafter hm).1

end Placed

theorem Node.Nests.of_placed (h : Placed Node.Stands n.children run rest) (htokens : Ordered tokens)
    (hrun : run.Sublist tokens) (hne : run ≠ []) (hspan : n.span = spanOfRun run) :
    n.Nests tokens where
  start := ⟨run.head hne, hrun.subset (List.head_mem hne), by rw [hspan, start_spanOfRun hne]⟩
  stop := ⟨run.getLast hne, hrun.subset (List.getLast_mem hne), by rw [hspan, stop_spanOfRun hne]⟩
  contains c hc := by
    rw [hspan]
    exact h.span_mem (htokens.sublist hrun) hc
  apart := h.pairwise (htokens.sublist hrun)

/-- The last token of a statement that could be read is no semicolon. -/
theorem Stmt.Written.getLast_ne_semicolon {follow : Follow} {stmt : Stmt}
    (h : Stmt.Written follow stmt (kindsOf run)) (hsound : ∀ span, stmt ≠ .error span)
    (hne : run ≠ []) : (run.getLast hne).kind ≠ .punctuator .semicolon := by
  obtain ⟨us, k, hkinds, hk, -⟩ := h.exists_last hsound
  have hlast : (kindsOf run).getLast? = some k := by rw [hkinds, List.getLast?_concat]
  rw [List.getLast?_map, List.getLast?_eq_some_getLast hne] at hlast
  rwa [Option.some.inj hlast]

namespace Parsing

/-- Spans nest: whatever tokens in order are read, and whatever of them could not be read, all nodes
of the tree begin and end where tokens do and contain their children one behind the other. The
program goes from the first token to the last. The span of a statement that could be read is that of
tokens that spell it without a semicolon behind it, and no semicolon ends where it does. -/
theorem spans_nest (h : Ordered tokens) : ∃ program, (ofTokens tokens).program = some program ∧
    (tokens = [] → program = ⟨[], ⟨0, 0⟩⟩) ∧
    (∀ hne : tokens ≠ [],
      program.span = ⟨(tokens.head hne).span.start, (tokens.getLast hne).span.stop⟩ ∧
        ∀ n, (Node.program program).HasPart n → n.Nests tokens) ∧
    ∀ stmt, (Node.program program).HasPart (.stmt stmt) → (∀ span, stmt ≠ .error span) →
      ∃ before run after, tokens = before ++ run ++ after ∧ stmt.span = spanOfRun run ∧
        Stmt.Written .any stmt (kindsOf run) ∧
        ∀ t ∈ tokens, t.kind = .punctuator .semicolon → t.span.stop ≠ stmt.span.stop := by
  obtain ⟨program, hprogram, hspan, hplaced⟩ := exists_program_stands tokens
  refine ⟨program, hprogram, fun hnil => ?_, fun hne => ⟨?_, fun n hn => ?_⟩,
    fun stmt hstmt hsound => ?_⟩
  · -- where there are no tokens, no statement could stand
    subst hnil
    obtain ⟨stmts, span⟩ := program
    cases stmts with
    | nil => exact congrArg (Program.mk []) hspan
    | cons => exact absurd rfl (hplaced.ne_nil Node.Stands.ne_nil (List.cons_ne_nil _ _))
  · rw [hspan, ← start_spanOfRun hne, ← stop_spanOfRun hne]
  · rcases hn.eq_or_exists with rfl | ⟨c, hc, hn⟩
    · exact .of_placed hplaced h (List.Sublist.refl tokens) hne hspan
    · obtain ⟨before, own, after, htokens, hown⟩ := hplaced.exists_stands hc hn
      have hstands : n.Stands own (after ++ []) := hown.imp_right And.right
      have hsub : own.Sublist tokens := htokens ▸ (List.infix_append before own after).sublist
      exact .of_placed hstands.children h hsub hstands.ne_nil (hstands.span_eq (h.sublist hsub))
  · rcases hstmt.eq_or_exists with heq | ⟨c, hc, hstmt⟩
    · cases heq
    · obtain ⟨before, own, after, htokens, hcovers | ⟨-, brace, -, -, heq⟩⟩ :=
        hplaced.exists_stands hc hstmt
      · have hne := hcovers.ne_nil
        cases hcovers with
        | error => exact absurd rfl (hsound _)
        | stmt _ hwritten hspan =>
          refine ⟨before, own, after, htokens, hspan, hwritten, fun t ht hsemi hstop => ?_⟩
          -- the semicolon would be the last token of the statement
          rw [hspan, stop_spanOfRun hne] at hstop
          have hlast : own.getLast hne ∈ tokens := by
            rw [htokens]
            exact (List.infix_append before own after).subset (List.getLast_mem hne)
          obtain rfl := h.eq_of_stop_eq ht hlast hstop
          exact hwritten.getLast_ne_semicolon hsound hne hsemi
      · exact absurd (Node.stmt.inj heq) (hsound _)

/-- The sum ends with its right operand, the statement with the parenthesis behind that, and the
program with the semicolon. -/
theorem spans_nest_parentheses :
    let tokens : List Token := [⟨.identifier "x", "x", 1, ⟨0, 1⟩⟩,
      ⟨.punctuator .plus, "+", 1, ⟨2, 3⟩⟩, ⟨.punctuator .leftParen, "(", 1, ⟨4, 5⟩⟩,
      ⟨.number "1", "1", 1, ⟨5, 6⟩⟩, ⟨.punctuator .rightParen, ")", 1, ⟨6, 7⟩⟩,
      ⟨.punctuator .semicolon, ";", 1, ⟨7, 8⟩⟩]
    Ordered tokens ∧
      (ofTokens tokens).program =
        some ⟨[.expr (.binary .add (.name ⟨"x", ⟨0, 1⟩⟩) (.number "1" ⟨5, 6⟩) ⟨0, 6⟩) ⟨0, 7⟩],
          ⟨0, 8⟩⟩ ∧
      ∃ program, (ofTokens tokens).program = some program ∧
        (tokens = [] → program = ⟨[], ⟨0, 0⟩⟩) ∧
        (∀ hne : tokens ≠ [],
          program.span = ⟨(tokens.head hne).span.start, (tokens.getLast hne).span.stop⟩ ∧
            ∀ n, (Node.program program).HasPart n → n.Nests tokens) ∧
        ∀ stmt, (Node.program program).HasPart (.stmt stmt) → (∀ span, stmt ≠ .error span) →
          ∃ before run after, tokens = before ++ run ++ after ∧ stmt.span = spanOfRun run ∧
            Stmt.Written .any stmt (kindsOf run) ∧
            ∀ t ∈ tokens, t.kind = .punctuator .semicolon → t.span.stop ≠ stmt.span.stop := by
  intro tokens
  have hordered : Ordered tokens := ⟨by decide, by decide⟩
  exact ⟨hordered, by cbv, spans_nest hordered⟩

end Parsing

end CrudLang
