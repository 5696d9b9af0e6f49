import CrudLang.Proofs.Comparison.Layout

/-!
# Operators as signs and as words

The operators `&&`, `||` and `!` can also be written as the words `and`, `or` and `not`. The rules
of the grammar name both spellings side by side, so where one is read, the other one is too, and as
the same operator (`Alignment.inStep_table`). What was expected beside the token that is read
differs, but that is behind us once it is read. Where no operator is read, both spellings are
unexpected, and both are skipped, as neither of them is a place where the skipping of a statement
ends.

So lists of tokens that differ in such spellings are read in step, malformed ones too
(`Parsing.ofTokens_respelled`).
-/

namespace CrudLang

open Grammar CrudLang.Parser

namespace TokenKind

/-- The kind of a token, where operators with two spellings are written as words. -/
def asWord : TokenKind → TokenKind
  | .punctuator .andAnd => .keyword .and
  | .punctuator .orOr => .keyword .or
  | .punctuator .bang => .keyword .not
  | k => k

theorem asWord_eq_self {k : TokenKind} (h : k ∉ spelledTwice) : k.asWord = k := by
  unfold asWord
  split
  · exact absurd (by decide) h
  · exact absurd (by decide) h
  · exact absurd (by decide) h
  · rfl

/-- Only an operator has another spelling. -/
theorem eq_or_mem_of_asWord {k k' : TokenKind} (h : k.asWord = k'.asWord) :
    k = k' ∨ k ∈ spelledTwice ∧ k' ∈ spelledTwice := by
  have hword : ∀ k ∈ spelledTwice, k.asWord ∈ spelledTwice := by decide
  by_cases hk : k ∈ spelledTwice
  · by_cases hk' : k' ∈ spelledTwice
    · exact .inr ⟨hk, hk'⟩
    · rw [asWord_eq_self hk'] at h
      exact absurd (h ▸ hword k hk) hk'
  · by_cases hk' : k' ∈ spelledTwice
    · rw [asWord_eq_self hk] at h
      exact absurd (h ▸ hword k' hk') hk
    · rw [asWord_eq_self hk, asWord_eq_self hk'] at h
      exact .inl h

end TokenKind

/-- The tokens stand in the same place and mean the same, but perhaps an operator is written as a
sign in one of them and as a word in the other one. -/
structure Token.Respelled (t u : Token) : Prop where
  kind : t.kind.asWord = u.kind.asWord
  span : t.span = u.span

/-- The span of a run depends on the spans of its tokens alone. -/
theorem spanOfRun_congr {run run' : List Token} (h : run.map Token.span = run'.map Token.span) :
    spanOfRun run = spanOfRun run' := by
  cases run with
  | nil =>
    obtain rfl := List.map_eq_nil_iff.1 h.symm
    rfl
  | cons t ts =>
    obtain ⟨u, us, rfl, hspan, -⟩ := List.map_eq_cons_iff.1 h.symm
    have hlast := congrArg List.getLast? h
    rw [List.getLast?_map, List.getLast?_map, List.getLast?_eq_some_getLast (List.cons_ne_nil t ts),
      List.getLast?_eq_some_getLast (List.cons_ne_nil u us)] at hlast
    rw [spanOfRun, spanOfRun, hspan]
    exact congrArg (fun span : Span => (⟨t.span.start, span.stop⟩ : Span)) (Option.some.inj hlast)

/-- Where the tokens end, whatever is asked of the next one holds. -/
theorem Input.forall_of_end {a : Input} {P : Token → Prop} (ha : a.tokens = []) :
    ∀ token rest, a.tokens = token :: rest → P token := by
  intro token rest htokens
  cases ha.symm.trans htokens

namespace Grammar

/-- The reader of a token that means something. -/
def rowReader {α β : Type} (meaning : β → α) (row : TokenKind × β) : Parser α := do
  token row.1
  pure (meaning row.2)

/-- A table of tokens reads a token that it has, as what the token means. What is pending behind it
is what was pending before, with failures noted that are behind us. -/
theorem exists_table_eq_ok {α β : Type} {meaning : β → α} {rows : List (TokenKind × β)} {v : β}
    {first : Parser α} {others : List (Parser α)}
    (hrows : first :: others = rows.map (rowReader meaning))
    {s : State} {t : Token} {next : Input} (htokens : s.rest.tokens = t :: next.tokens)
    (hmem : (t.kind, v) ∈ rows) (hunique : ∀ row ∈ rows, row.1 = t.kind → row.2 = v)
    {P : Option Failure → Prop} (hnotes : Notes next.tokens P) (hP : P s.pending) :
    ∃ p, choice first others s = .ok (meaning v) ⟨next, p, s.reported⟩ ∧ P p := by
  induction rows generalizing first others s with
  | nil => cases hmem
  | cons row rows ih =>
    obtain ⟨rfl, rfl⟩ := List.cons.inj hrows
    have hread := token_apply_cons row.1 htokens
    by_cases hk : t.kind = row.1
    · -- this is the token
      have hfirst : rowReader meaning row s = .ok (meaning v) ⟨next, s.pending, s.reported⟩ := by
        rw [rowReader, bind_apply, hread, if_pos hk, ← hunique row List.mem_cons_self hk.symm]
        rfl
      refine ⟨s.pending, ?_, hP⟩
      cases rows with
      | nil => exact hfirst
      | cons => rw [List.map_cons, choice, orElse, hfirst]
    · -- another token was expected here, which is behind us in the end
      have hfirst : rowReader meaning row s = .fail (.note s.pending s.rest (.token row.1)) := by
        rw [rowReader, bind_apply, hread, if_neg hk]
      have hmem' : (t.kind, v) ∈ rows := by
        rcases List.mem_cons.1 hmem with rfl | hmem
        · exact absurd rfl hk
        · exact hmem
      cases rows with
      | nil => cases hmem'
      | cons row' rows =>
        rw [List.map_cons, choice, orElse, hfirst]
        refine ih (s := ⟨s.rest, _, s.reported⟩) rfl htokens hmem'
          (fun row hrow => hunique row (List.mem_cons_of_mem _ hrow)) (hnotes _ _ _ hP ?_)
        rw [← s.rest.size_eq, htokens]
        exact Nat.lt_succ_self _

end Grammar

namespace Alignment

/-- What is pending behind two corresponding places, when failures further back were noted. -/
theorem Pendings.exists_notes {L : Likeness} {W : Alignment L} {a b next next' : Input}
    {p q : Option Failure} (h : W.Pendings a b p q) (hab : W.Inputs a b)
    (hnext : W.Inputs next next') (hless : next.size < a.size) :
    ∃ P Q, Notes next.tokens P ∧ Notes next'.tokens Q ∧ P p ∧ Q q ∧
      ∀ p' q', P p' → Q q' → W.Pendings next next' p' q' := by
  have hless' : next'.size < b.size := (W.lt_iff hnext hab).1 hless
  have hbehind (hp : PendingBefore next.tokens p) (hq : PendingBefore next'.tokens q) :
      ∃ P Q, Notes next.tokens P ∧ Notes next'.tokens Q ∧ P p ∧ Q q ∧
        ∀ p' q', P p' → Q q' → W.Pendings next next' p' q' :=
    ⟨_, _, notes_pendingBefore, notes_pendingBefore, hp, hq, fun _ _ hp' hq' => .inr ⟨hp', hq'⟩⟩
  rcases h with ⟨f, g, rfl, rfl, hfg⟩ | ⟨hp, hq⟩
  · by_cases hf : f.rest.size ≤ next.size
    · -- a failure further on stays
      have hg : g.rest.size ≤ next'.size := (le_iff hfg.rest hnext).1 hf
      rw [← next.size_eq] at hf
      rw [← next'.size_eq] at hg
      refine ⟨_, _, notes_eq hf, notes_eq hg, rfl, rfl, ?_⟩
      rintro p' q' rfl rfl
      exact .of_failures hfg
    · have hg : ¬ g.rest.size ≤ next'.size := fun hg => hf ((le_iff hfg.rest hnext).2 hg)
      exact hbehind (.of_lt (Nat.lt_of_not_le hf)) (.of_lt (Nat.lt_of_not_le hg))
  · refine hbehind (hp.mono ?_) (hq.mono ?_)
    · rw [next.size_eq, a.size_eq]
      exact Nat.le_of_lt hless
    · rw [next'.size_eq, b.size_eq]
      exact Nat.le_of_lt hless'

variable {tokens tokens' : List Token}

/-- Tokens that differ in their spellings: places with the same index correspond. -/
def respelled (h : List.Forall₂ Token.Respelled tokens tokens') : Alignment .equal where
  Inputs := SameIndex tokens tokens'
  Refused k := k ∈ spelledTwice
  limit := 0
  lt_iff := SameIndex.lt_iff h.length_eq
  head_cases hab := by
    rcases hab.head_cases h with ⟨t, u, a', b', ha, hb, htu, hab'⟩ | ⟨ha, hb⟩
    · rcases TokenKind.eq_or_mem_of_asWord htu.kind with hkind | ⟨ht, hu⟩
      · exact .inl ⟨t, u, a', b', ha, hb, hkind, .inl hab'⟩
      · refine .inr ⟨fun token rest htoken => ?_, fun token rest htoken => ?_⟩
        · obtain ⟨rfl, -⟩ := List.cons.inj (ha.symm.trans htoken)
          exact ht
        · obtain ⟨rfl, -⟩ := List.cons.inj (hb.symm.trans htoken)
          exact hu
    · exact .inr ⟨Input.forall_of_end ha, Input.forall_of_end hb⟩
  span_run hab hab' _ := by
    have hspans : tokens.map Token.span = tokens'.map Token.span :=
      map_eq_map_of_forall₂ (h.imp fun _ _ htu => htu.span)
    rw [hab.size_eq h.length_eq, hab'.size_eq h.length_eq]
    obtain ⟨i, -, ha, hb⟩ := hab
    refine spanOfRun_congr ?_
    rw [List.map_take, List.map_take, ha, hb, List.map_drop, List.map_drop, hspans]

section Respelled

variable {h : List.Forall₂ Token.Respelled tokens tokens'} {n : Nat} {α : Type}
variable {V : α → α → Prop}

/-- A token is skipped in step where both spellings are skipped. -/
theorem inStep_skip {read? : TokenKind → Option Unit} {e : Expectation}
    (hread : ∀ k ∈ spelledTwice, read? k = some ()) :
    (respelled h).InStep n (fun _ _ => True) (satisfy read? e) (satisfy read? e) := by
  refine .satisfy_alike (fun _ _ _ => trivial) fun a b _ hab => ?_
  rcases SameIndex.head_cases h hab with ⟨t, u, a', b', ha, hb, htu, hab'⟩ | ⟨ha, hb⟩
  · refine .inl ⟨t, u, a', b', ha, hb, ?_, .inl hab'⟩
    rcases TokenKind.eq_or_mem_of_asWord htu.kind with hkind | ⟨ht, hu⟩
    · rw [hkind]
    · rw [hread _ ht, hread _ hu]
  · exact .inr ⟨Input.forall_of_end ha, Input.forall_of_end hb⟩

variable {β : Type} (meaning : β → α) (rows : List (TokenKind × β)) {first : Parser α}
variable {others : List (Parser α)} (hrows : first :: others = rows.map (rowReader meaning))
variable (hspellings : ∀ row ∈ rows, ∀ k ∈ spelledTwice, k.asWord = row.1.asWord →
  (k, row.2) ∈ rows)
variable (hV : ∀ v, V v v)
include hrows hspellings hV

/-- Where no operator of the table stands that is spelled twice, the table is read in step. -/
theorem inStepOn_table : (respelled h).InStepOn
    (fun a => ∀ t ts, a.tokens = t :: ts → t.kind ∈ spelledTwice → ∀ v, (t.kind, v) ∉ rows) V
    (choice first others) (choice first others) := by
  refine .choice fun q hq => ?_
  rw [hrows] at hq
  obtain ⟨row, hrow, rfl⟩ := List.mem_map.1 hq
  refine .bind_on (V := fun _ _ => True) (Q := fun _ => True) ?_ (fun _ _ _ _ _ _ => trivial)
    fun _ _ _ => .pure (hV _)
  refine .satisfy_alike (fun _ _ _ => trivial) fun a b hplain hab => ?_
  rcases SameIndex.head_cases h hab with ⟨t, u, a', b', ha, hb, htu, hab'⟩ | ⟨ha, hb⟩
  · refine .inl ⟨t, u, a', b', ha, hb, ?_, .inl hab'⟩
    rcases TokenKind.eq_or_mem_of_asWord htu.kind with hkind | ⟨ht, -⟩
    · rw [hkind]
    · -- neither of the two spellings is in the table
      have hnot := hplain t _ ha ht
      have hrow' : t.kind ≠ row.1 := fun heq => hnot row.2 (heq ▸ hrow)
      have hother : u.kind ≠ row.1 := fun heq =>
        hnot row.2 (hspellings row hrow t.kind ht (heq ▸ htu.kind))
      rw [if_neg hrow', if_neg hother]
  · exact .inr ⟨Input.forall_of_end ha, Input.forall_of_end hb⟩

/-- A table that has both spellings of its operators is read in step. -/
theorem inStep_table (hunique : ∀ row ∈ rows, ∀ row' ∈ rows, row.1 = row'.1 → row.2 = row'.2) :
    (respelled h).InStep n V (choice first others) (choice first others) := by
  have hforward : Forward (choice first others) := by
    have hrow (q : Parser α) (hq : q ∈ first :: others) : Spells q fun _ _ _ _ => True := by
      rw [hrows] at hq
      obtain ⟨row, -, rfl⟩ := List.mem_map.1 hq
      exact (Spells.token row.1).bind fun _ _ _ => .pure fun _ _ => trivial
    have hchoice : Spells (choice first others) fun _ _ _ _ => True :=
      .choice (hrow first List.mem_cons_self) fun q hq => hrow q (List.mem_cons_of_mem first hq)
    exact .of_spells hchoice
  refine ⟨fun s t hst _ => ?_, fun s v u _ hv => ⟨⟨v, hV v⟩, hforward s v u hv⟩,
    fun _ hbeyond _ => absurd hbeyond (not_beyond rfl _)⟩
  have hplain := (inStepOn_table (h := h) meaning rows hrows hspellings hV).step s t hst
  rcases SameIndex.head_cases h hst.rest with ⟨x, y, a', b', ha, hb, hxy, hab'⟩ | ⟨ha, -⟩
  · by_cases hx : x.kind ∈ spelledTwice ∧ ∃ v, (x.kind, v) ∈ rows
    · obtain ⟨-, v, hv⟩ := hx
      have hv' : (y.kind, v) ∈ rows := by
        rcases TokenKind.eq_or_mem_of_asWord hxy.kind with hkind | ⟨-, hy⟩
        · rwa [← hkind]
        · exact hspellings _ hv y.kind hy hxy.kind.symm
      -- both spellings are read, and what was expected beside them is behind us
      have hsize := Input.size_of_tokens_eq_cons ha
      obtain ⟨P, Q, hP, hQ, hp, hq, hpending⟩ :=
        hst.pending.exists_notes hst.rest hab' (by omega)
      obtain ⟨p, hreads, hp⟩ :=
        exists_table_eq_ok hrows ha hv (fun row hrow => hunique row hrow _ hv) hP hp
      obtain ⟨q, hreads', hq⟩ := exists_table_eq_ok hrows hb hv'
        (fun row hrow => hunique row hrow _ hv') hQ hq
      rw [hreads, hreads']
      exact .ok (hV _) ⟨hab', hpending p q hp hq, hst.reported⟩ (by dsimp only; omega)
    · refine hplain fun t ts hts ht v hv => hx ?_
      obtain ⟨rfl, -⟩ := List.cons.inj (ha.symm.trans hts)
      exact ⟨ht, v, hv⟩
  · exact hplain fun t ts hts => by cases ha.symm.trans hts

omit hrows hspellings hV

/-- At corresponding places the same place of the source is found. -/
theorem respelled_span {f g : Failure} (hfg : (respelled h).Failures f g) (eoi : Nat) :
    f.span eoi = g.span eoi := by
  rw [Failure.span, Failure.span, Failure.found, Failure.found]
  rcases SameIndex.head_cases h hfg.rest with ⟨t, u, a', b', ha, hb, htu, -⟩ | ⟨ha, hb⟩
  · rw [ha, hb]
    exact htu.span
  · rw [ha, hb]

/-- The whole grammar keeps readers of tokens that differ in their spellings in step. -/
theorem respelled_recovery : Recovery .equal (· ∈ spelledTwice) (respelled h).InStep where
  toSimulation := (respelled h).simulation
  refused := List.mem_append_right _
  -- only three tables hold operators that are spelled twice, and each of them holds both spellings
  unaryOperator {n} := by
    let rows : List (TokenKind × UnaryOp) :=
      [(.punctuator .minus, .neg), (.punctuator .bang, .not), (.keyword .not, .not)]
    have hbuilt (build : Span → UnaryOp × Span) :
        Likeness.equal.built (fun a b => a.1 = b.1 ∧ a.2 = b.2) build build := by
      rintro _ span rfl
      exact ⟨rfl, rfl⟩
    exact InStepOn.withSpan
      (inStep_table (fun op span => (op, span)) rows rfl (by decide) hbuilt (by decide))
  andOperator := inStep_table id (BinaryOp.tokens 2) rfl (by decide) (fun _ => rfl) (by decide)
  orOperator := inStep_table id (BinaryOp.tokens 1) rfl (by decide) (fun _ => rfl) (by decide)
  operator := id
  skip := inStep_skip
  recoverWith hp hr := InStepOn.recoverWith rfl hp hr

end Respelled

end Alignment

namespace Parsing

/-- Tokens that differ in their spellings are read alike: the trees are equal, and the same failures
are reported at the same places. -/
theorem ofTokens_respelled {tokens tokens' : List Token}
    (h : List.Forall₂ Token.Respelled tokens tokens') :
    ∃ program, (ofTokens tokens).program = some program ∧
      (ofTokens tokens').program = some program ∧
      List.Forall₂ (Alignment.respelled h).Failures (ofTokens tokens).failures
        (ofTokens tokens').failures := by
  obtain ⟨stmts, stmts', hprogram, hprogram', hstmts, hfailures⟩ :=
    exists_ofTokens_eq_of_inputs (W := Alignment.respelled h) Alignment.respelled_recovery rfl
      ⟨0, Nat.zero_le _, rfl, rfl⟩
  obtain rfl := eq_of_forall₂ hstmts
  have hspan : spanOfRun tokens = spanOfRun tokens' :=
    spanOfRun_congr (map_eq_map_of_forall₂ (h.imp fun _ _ htu => htu.span))
  exact ⟨_, hprogram, by rw [hprogram', hspan], hfailures⟩

/-- Operators as signs and as words are interchangeable: if some of them are respelled in a list of
tokens, well-formed or not, then the tree is the same, and as many syntax diagnostics are reported,
at the same places. -/
theorem operators_interchangeable {tokens tokens' : List Token}
    (h : List.Forall₂ Token.Respelled tokens tokens') (lines lines' : LineIndex) :
    ∃ program, (ofTokens tokens).program = some program ∧
      (ofTokens tokens').program = some program ∧
      ((ofTokens tokens).diagnostics lines tokens).map (·.primary.span) =
        ((ofTokens tokens').diagnostics lines' tokens').map (·.primary.span) := by
  obtain ⟨program, hprogram, hprogram', hfailures⟩ := ofTokens_respelled h
  refine ⟨program, hprogram, hprogram', ?_⟩
  have hspans : tokens.map Token.span = tokens'.map Token.span :=
    map_eq_map_of_forall₂ (h.imp fun _ _ htu => htu.span)
  have hlast (tokens : List Token) :
      endOfTokens tokens = ((tokens.map Token.span).getLast?.map Span.stop).getD 0 := by
    rw [List.getLast?_map, Option.map_map]
    rfl
  have heoi : endOfTokens tokens = endOfTokens tokens' := by rw [hlast, hlast, hspans]
  have hspan (lines : LineIndex) (eoi : Nat) :
      (fun d : Diagnostic => d.primary.span) ∘ Failure.diagnostic lines eoi =
        Failure.span eoi := rfl
  rw [diagnostics, diagnostics, List.map_map, List.map_map, hspan, hspan, ← heoi]
  exact map_eq_map_of_forall₂ (hfailures.imp fun _ _ hfg => Alignment.respelled_span hfg _)

/-- A negation and a conjunction, where the second operand is missing. -/
theorem operators_interchangeable_unfinished :
    let tokens : List Token := [⟨.punctuator .bang, "!", 1, ⟨0, 1⟩⟩,
      ⟨.identifier "x", "x", 1, ⟨4, 5⟩⟩, ⟨.punctuator .andAnd, "&&", 1, ⟨6, 8⟩⟩]
    let tokens' : List Token := [⟨.keyword .not, "not", 1, ⟨0, 1⟩⟩,
      ⟨.identifier "x", "x", 1, ⟨4, 5⟩⟩, ⟨.keyword .and, "and", 1, ⟨6, 8⟩⟩]
    List.Forall₂ Token.Respelled tokens tokens' ∧
      ∃ program, (ofTokens tokens).program = some program ∧
        (ofTokens tokens').program = some program ∧
        ((ofTokens tokens).diagnostics (.ofSource "") tokens).map (·.primary.span) =
          ((ofTokens tokens').diagnostics (.ofSource "") tokens').map (·.primary.span) := by
  intro tokens tokens'
  have h : List.Forall₂ Token.Respelled tokens tokens' :=
    .cons ⟨rfl, rfl⟩ (.cons ⟨rfl, rfl⟩ (.cons ⟨rfl, rfl⟩ .nil))
  exact ⟨h, operators_interchangeable h _ _⟩

end Parsing

end CrudLang
