import CrudLang.Proofs.Comparison.Identity
import CrudLang.Proofs.Comparison.Seam
import CrudLang.Proofs.Grammar.Steady

/-!
# Resynchronization

What is read without a failure leaves no trace in what is read behind it, if that begins anew:
behind a semicolon, at a keyword that opens a statement, or behind a closing brace that closes
nothing (`Parsing.resynchronizes`).

A run over the first tokens alone and one over all of them are compared statement by statement. They
are in step up to the seam between the two (`Seam.statement_step`), where the first run is at its
end and the second one goes on (`Seam.Arrived`, `Seam.statements_append`). What it has then pending
is not behind the seam. It may still be right at the seam, if there is no semicolon before it: but a
keyword supersedes it (`Parsing.statements_eq_of_keyword`), and a closing brace is reported together
with it (`Parsing.exists_strayBrace_eq_ok`).
-/

namespace CrudLang

open Grammar CrudLang.Parser

namespace Seam

variable (S : Seam)

/-- What is pending at the seam is further back than these tokens: it may be at the first token of
what comes next, but not behind a semicolon. -/
def limit : List Token :=
  if S.separator = [] then S.rest else S.head :: S.rest

theorem length_limit_lt : S.limit.length < S.behind.length := by
  rw [limit, behind, List.length_append, List.length_cons]
  split
  · omega
  next h =>
    have := List.length_pos_iff.2 h
    rw [List.length_cons]
    omega

/-- The first run is at its end, and the second one has read the same and goes on with what comes
next. -/
structure Arrived (s t : State) : Prop where
  first : s.rest.tokens = []
  second : t.rest.tokens = S.head :: S.rest
  pending : PendingBefore S.limit t.pending
  reported : List.Forall₂ S.alignment.Failures s.reported t.reported

variable {S}

/-- Nothing is pending behind the seam. -/
theorem pendingBefore_limit {s t : State} (hst : S.alignment.States s t) :
    PendingBefore S.limit t.pending := by
  have hplace {a b : Input} (hab : S.alignment.Inputs a b) : S.limit.length < b.size := by
    obtain ⟨ts, -, -, hb⟩ := hab
    have hlimit := S.length_limit_lt
    rw [← b.size_eq, hb, List.length_append]
    omega
  rcases hst.pending with ⟨f, g, -, hg, hfg⟩ | ⟨-, ht⟩
  · intro g' hg'
    obtain rfl := Option.some.inj (hg.symm.trans hg')
    exact hplace hfg.rest
  · exact ht.mono (by rw [t.rest.size_eq]; exact Nat.le_of_lt (hplace hst.rest))

/-- Behind a statement that ends before the seam, its semicolon is before the seam too. -/
theorem states_semicolon {n : Nat} {s t : State} (hst : S.alignment.States s t)
    (ha : S.Ahead n s.rest) : ∃ v u w, optional (punctuator .semicolon) s = .ok v u ∧
      optional (punctuator .semicolon) t = .ok v w ∧ S.alignment.States u w ∧ S.Ahead n u.rest := by
  obtain ⟨ts, hts, hs, ht⟩ := hst.rest
  cases ts with
  | nil =>
    have hsize : S.separator.length = s.rest.size := by rw [← s.rest.size_eq, hs, List.nil_append]
    exact absurd ha.2 (by omega)
  | cons token ts =>
    rw [List.cons_append] at hs ht
    by_cases hkind : token.kind = .punctuator .semicolon
    · -- this is not the last token before the seam
      refine ⟨_, _, _, optional_token_of_eq hs hkind, optional_token_of_eq ht hkind,
        ⟨?_, ?_, ?_⟩, ?_⟩
      · exact ⟨ts, (List.suffix_cons token ts).trans hts, rfl, rfl⟩
      · have hsize := Input.size_of_tokens_eq_cons (b := .ofList (ts ++ S.separator)) hs
        have hsize' := Input.size_of_tokens_eq_cons (b := .ofList (ts ++ S.behind)) ht
        exact hst.pending.mono (by dsimp only; omega) (by dsimp only; omega)
      · exact hst.reported
      · cases ts with
        | nil => exact absurd hkind (S.last hts).1
        | cons u us =>
          have hsize := Input.size_of_tokens_eq_cons (b := .ofList (u :: us ++ S.separator)) hs
          have hless := ha.1
          refine ⟨by dsimp only; omega, ?_⟩
          show S.separator.length < (u :: us ++ S.separator).length
          rw [List.length_append, List.length_cons]
          omega
    · have hne {u : State} {us : List Token} (hu : u.rest.tokens = token :: us) (t : Token)
          (vs : List Token) (hvs : u.rest.tokens = t :: vs) : t.kind ≠ .punctuator .semicolon := by
        obtain ⟨rfl, -⟩ := List.cons.inj (hu.symm.trans hvs)
        exact hkind
      exact ⟨_, _, _, optional_token_of_ne (hne hs), optional_token_of_ne (hne ht),
        ⟨hst.rest, .of_failures (hst.pending.note hst.rest _), hst.reported⟩, ha⟩

/-- Behind a statement that ends at the seam, the semicolon at the seam is read. -/
theorem arrived_semicolon {s t : State} (hst : S.alignment.States s t)
    (hs : s.rest.tokens = S.separator) : ∃ v u w, optional (punctuator .semicolon) s = .ok v u ∧
      optional (punctuator .semicolon) t = .ok v w ∧ S.Arrived u w := by
  have hpending := pendingBefore_limit hst
  have ht : t.rest.tokens = S.behind := by
    obtain ⟨ts, -, hs', ht⟩ := hst.rest
    obtain rfl : ts = [] := List.append_left_eq_self.1 (hs'.symm.trans hs)
    exact ht
  rcases S.separator_eq with hsep | ⟨semi, hsep, hsemi⟩
  · -- what comes next is no semicolon
    rw [hsep] at hs
    rw [behind, hsep, List.nil_append] at ht
    have hne (token : Token) (us : List Token) (hus : t.rest.tokens = token :: us) :
        token.kind ≠ .punctuator .semicolon := by
      obtain ⟨rfl, -⟩ := List.cons.inj (ht.symm.trans hus)
      rcases S.stops hsep with hhead | ⟨k, -, hhead⟩ <;> rw [hhead] <;> simp
    refine ⟨_, _, _, optional_token_of_ne (by simp [hs]), optional_token_of_ne hne, hs, ht,
      notes_pendingBefore _ _ _ hpending ?_, hst.reported⟩
    rw [← t.rest.size_eq, ht, limit, if_pos hsep]
    exact Nat.lt_succ_self _
  · rw [hsep] at hs
    rw [behind, hsep] at ht
    exact ⟨_, _, _, optional_token_of_eq hs hsemi, optional_token_of_eq ht hsemi, rfl, rfl,
      hpending, hst.reported⟩

/-- The first run goes on before the seam, and the second one in step with it; or they have
arrived. -/
def GoesOn (S : Seam) (s t : State) : Prop :=
  (S.alignment.States s t ∧ ∃ n, S.Ahead n s.rest) ∨ S.Arrived s t

theorem terminated_step {n : Nat} {s s' t : State} {v : Stmt} (hst : S.alignment.States s t)
    (ha : S.Ahead (n + 1) s.rest)
    (hv : terminated (bareStatement (strictBlock statement)) s = .ok v s') :
    ∃ t', terminated (bareStatement (strictBlock statement)) t = .ok v t' ∧ S.GoesOn s' t' := by
  obtain ⟨stmt, u, hstmt, hrest⟩ := of_bind_eq_ok hv
  have hreply := (S.inStepOn_bareStatement n).step s t hst ha
  rw [hstmt] at hreply
  generalize hw : bareStatement (strictBlock statement) t = y at hreply
  cases hreply with
  | lost h => exact absurd h (Alignment.not_lost rfl _)
  | @ok _ stmt' _ w heq huw hle =>
    obtain rfl : stmt = stmt' := heq
    -- the statement ends before the seam or at it
    have hgoes : ∃ v' u' w', optional (punctuator .semicolon) u = .ok v' u' ∧
        optional (punctuator .semicolon) w = .ok v' w' ∧ S.GoesOn u' w' := by
      by_cases hahead : S.separator.length < u.rest.size
      · obtain ⟨v', u', w', hu', hw', hstates, ha'⟩ :=
          states_semicolon huw ⟨Nat.lt_of_le_of_lt hle ha.1, hahead⟩
        exact ⟨v', u', w', hu', hw', .inl ⟨hstates, _, ha'⟩⟩
      · have hseparator : u.rest.tokens = S.separator := by
          obtain ⟨ts, -, hu, -⟩ := huw.rest
          rw [← u.rest.size_eq, hu, List.length_append] at hahead
          obtain rfl := List.length_eq_zero_iff.1 (show ts.length = 0 by omega)
          exact hu
        obtain ⟨v', u', w', hu', hw', harrived⟩ := arrived_semicolon huw hseparator
        exact ⟨v', u', w', hu', hw', .inr harrived⟩
    obtain ⟨v', u', w', hu', hw', hgoes⟩ := hgoes
    rw [bind_apply, hu'] at hrest
    obtain ⟨rfl, rfl⟩ := Reply.ok.inj hrest
    exact ⟨w', by rw [terminated, bind_apply, hw]; dsimp only; rw [bind_apply, hw']; rfl, hgoes⟩

/-- A parser that skips reports why. -/
theorem of_recoverWith_silently {α : Type} {p r : Parser α} (hr : Quiet r) {s t : State} {v : α}
    (hv : recoverWith p r s = .ok v t) (hsilent : t.reported = s.reported) : p s = .ok v t := by
  rcases of_recoverWith_eq_ok hv with hp | ⟨f, u, -, hu, rfl⟩
  · exact hp
  · obtain ⟨-, new, -, hnew, -⟩ := hr _ v u hu
    have hlength := congrArg List.length hsilent
    simp only [hnew, List.length_append, List.length_singleton] at hlength
    omega

/-- A statement that is read without a failure in the first run is read in the second one too. -/
theorem statement_step {s s' t : State} {v : Stmt} (hst : S.alignment.States s t)
    (ha : ∃ n, S.Ahead n s.rest) (hv : recoverWith statement strayBrace s = .ok v s')
    (hsilent : s'.reported = s.reported) :
    ∃ t', recoverWith statement strayBrace t = .ok v t' ∧ S.GoesOn s' t' := by
  have hle := Nat.le_of_lt (consumes_recoverWith_strayBrace s v s' hv)
  -- neither of the two recoveries was needed
  have hstmt := of_recoverWith_silently
    (spells_strayBrace.mono fun _ _ _ _ h => ⟨trivial, h.2⟩) hv hsilent
  rw [statement_eq_terminated] at hstmt ⊢
  have hlabelled := of_recoverWith_silently
    (spells_statementError.mono fun _ _ _ _ h => ⟨trivial, h.2⟩) hstmt hsilent
  obtain ⟨n, ha⟩ := ha
  obtain ⟨u, hu, rfl⟩ := of_labelled_eq_ok hlabelled
  obtain ⟨w, hw, hgoes⟩ := terminated_step (s := { s with pending := none })
    (t := { t with pending := none }) ⟨hst.rest, .of_none, hst.reported⟩
    ⟨Nat.lt_succ_of_lt ha.1, ha.2⟩ hu
  refine ⟨_, by rw [recoverWith, recoverWith, labelled_eq_ok hw], ?_⟩
  refine hgoes.imp ?_ fun h =>
    ⟨h.first, h.second, (pendingBefore_limit hst).behind h.pending, h.reported⟩
  rintro ⟨huw, hahead⟩
  exact ⟨⟨huw.rest, hst.pending.behind hst.rest huw.pending huw.rest hle _, huw.reported⟩, hahead⟩

/-- The second run reads what the first one reads, and then goes on with what comes next. -/
theorem statements_append {s e t : State} {stmts : List Stmt} (hst : S.alignment.States s t)
    (ha : ∃ n, S.Ahead n s.rest) (hs : statements statement s = .ok stmts e)
    (hend : e.rest.tokens = []) (hsilent : e.reported = []) :
    ∃ t', t'.rest.tokens = S.head :: S.rest ∧ PendingBefore S.limit t'.pending ∧
      t'.reported = [] ∧ ∀ more u, statements statement t' = .ok more u →
        statements statement t = .ok (stmts ++ more) u := by
  have hconsumes := consumes_recoverWith_strayBrace
  have hsize : e.rest.size = 0 := by rw [← e.rest.size_eq, hend]; rfl
  generalize hn : s.rest.size = n
  induction n using Nat.strongRecOn generalizing s t stmts with
  | ind n ih =>
    rcases of_many_eq_ok hconsumes hs with ⟨v, s', vs, hv, hvs, rfl⟩ | ⟨-, hrest, -⟩
    swap
    · -- before the seam some tokens are left
      obtain ⟨_, -, hahead⟩ := ha
      rw [hrest] at hsize
      omega
    obtain ⟨-, new, -, hnew, -⟩ := spells_statements s' vs e hvs
    obtain ⟨-, new', -, hnew', -⟩ := spells_recoverWith_strayBrace s v s' hv
    obtain ⟨hs', -⟩ := List.append_eq_nil_iff.1 (hnew.symm.trans hsilent)
    obtain ⟨hs₀, -⟩ := List.append_eq_nil_iff.1 (hnew'.symm.trans hs')
    obtain ⟨t', ht', ⟨hst', ha'⟩ | harrived⟩ := statement_step hst ha hv (hs'.trans hs₀.symm)
    · obtain ⟨t'', hrest, hpending, hreported, hmore⟩ :=
        ih _ (hn ▸ hconsumes s v s' hv) hst' ha' hvs rfl
      exact ⟨t'', hrest, hpending, hreported, fun more u hu =>
        many_eq_cons hconsumes ht' (hmore more u hu)⟩
    · rcases of_many_eq_ok hconsumes hvs with ⟨w, u, -, hw, -, -⟩ | ⟨rfl, -, -⟩
      · have hless := hconsumes s' w u hw
        rw [← s'.rest.size_eq, harrived.first] at hless
        exact absurd hless (Nat.not_lt_zero _)
      refine ⟨t', harrived.second, harrived.pending, ?_, fun more u hu =>
        many_eq_cons hconsumes ht' hu⟩
      have hreported := harrived.reported
      rw [hs'] at hreported
      exact List.forall₂_nil_left_iff.1 hreported

/-- The tokens of a program that is read without a failure, in front of tokens that do not carry its
last statement on. -/
theorem exists_of_silent {tokens : List Token} {head : Token} (rest : List Token)
    (hsilent : (Parsing.ofTokens tokens).failures = []) (hne : tokens ≠ [])
    (hstops : (∀ t, tokens.getLast? = some t → t.kind ≠ .punctuator .semicolon) →
      head.kind = .punctuator .rightBrace ∨ ∃ k ∈ statementKeywords, head.kind = .keyword k) :
    ∃ S : Seam, tokens = S.before ++ S.separator ∧ S.before ≠ [] ∧ S.head = head ∧ S.rest = rest ∧
      (S.separator = [] → ∀ t, tokens.getLast? = some t → t.kind ≠ .punctuator .semicolon) := by
  obtain ⟨stmts, e, hstmts, hend, heq⟩ := Parsing.exists_ofTokens_eq tokens
  rw [heq] at hsilent
  obtain ⟨read, new, hread, hnew, hwritten, hcount⟩ := spells_statements _ stmts e hstmts
  obtain ⟨read', new', hread', hnew', hbalanced⟩ := readsBalanced_statements _ stmts e hstmts
  rw [hend, List.append_nil, Input.tokens_ofList] at hread hread'
  subst hread hread'
  obtain rfl : new = [] := hnew.symm.trans hsilent
  obtain rfl : new' = [] := hnew'.symm.trans hsilent
  -- the seam is behind the last token that is not a semicolon
  rcases hwritten.endsStatement hcount.symm with htokens | ⟨us, k, semi, htokens, hsemi, hk, helse⟩
  · exact absurd (List.map_eq_nil_iff.1 htokens) hne
  obtain ⟨front, back, rfl, rfl, hback⟩ := List.map_eq_append_iff.1 htokens
  obtain ⟨t, separator, rfl, rfl, rfl⟩ := List.map_eq_cons_iff.1 hback
  have hsplit : front ++ t :: separator = (front ++ [t]) ++ separator := by simp
  have hlast (h : separator = []) (t' : Token)
      (ht' : (front ++ t :: separator).getLast? = some t') :
      t'.kind ≠ .punctuator .semicolon := by
    rw [h, List.getLast?_concat] at ht'
    obtain rfl := Option.some.inj ht'
    exact hk
  refine ⟨⟨front ++ [t], separator, head, rest, ?_, fun {l vs} hsuffix hl => ?_, fun {t'} ht' => ?_,
    fun h => hstops (hlast h)⟩, hsplit, by simp, rfl, rfl, hlast⟩
  · rcases hsemi with hnil | hsingle
    · exact .inl (List.map_eq_nil_iff.1 hnil)
    · obtain ⟨semicolon, rfl, hkind⟩ := List.map_eq_singleton_iff.1 hsingle
      exact .inr ⟨semicolon, rfl, hkind⟩
  · obtain ⟨ws, hws⟩ := hsuffix
    exact (hbalanced rfl).exists_afterClosing ⟨ws, by rw [hsplit, ← hws]; simp⟩ hl
  · obtain ⟨ws, hws⟩ := ht'
    obtain rfl : t' = t := by simpa using (List.append_inj' hws rfl).2
    exact ⟨hk, helse⟩

end Seam

namespace Parsing

/-- At the end of the tokens no statement is read, and nothing is reported. -/
theorem of_statements_eq_ok_of_end {s t : State} {stmts : List Stmt} (hend : s.rest.tokens = [])
    (h : statements statement s = .ok stmts t) : stmts = [] ∧ t.reported = s.reported := by
  rcases of_many_eq_ok consumes_recoverWith_strayBrace h with
    ⟨v, u, -, hv, -⟩ | ⟨hnil, -, hreported⟩
  · have hless := consumes_recoverWith_strayBrace s v u hv
    rw [← s.rest.size_eq, hend] at hless
    exact absurd hless (Nat.not_lt_zero _)
  · exact ⟨hnil, hreported⟩

/-- Without tokens there are no statements. -/
theorem ofTokens_nil : ofTokens [] = ⟨some ⟨[], spanOfRun []⟩, []⟩ := by
  obtain ⟨stmts, t, ht, -, heq⟩ := exists_ofTokens_eq []
  obtain ⟨rfl, hreported⟩ := of_statements_eq_ok_of_end rfl ht
  rw [heq, hreported]

/-- Behind tokens that are read without a failure, a program goes on with what it has read, and with
nothing pending behind the next token. -/
theorem exists_statements_append {tokens : List Token} (head : Token) (rest : List Token)
    (hsilent : (ofTokens tokens).failures = [])
    (hstops : tokens ≠ [] → (∀ t, tokens.getLast? = some t → t.kind ≠ .punctuator .semicolon) →
      head.kind = .punctuator .rightBrace ∨ ∃ k ∈ statementKeywords, head.kind = .keyword k) :
    ∃ stmts pending, (ofTokens tokens).program = some ⟨stmts, spanOfRun tokens⟩ ∧
      PendingBefore rest pending ∧
      (PendingBefore (head :: rest) pending ∨ tokens ≠ [] ∧
        ∀ t, tokens.getLast? = some t → t.kind ≠ .punctuator .semicolon) ∧
      ∀ more u, statements statement ⟨.ofList (head :: rest), pending, []⟩ = .ok more u →
        statements statement ⟨.ofList (tokens ++ head :: rest), none, []⟩ =
          .ok (stmts ++ more) u := by
  obtain ⟨stmts, e, hstmts, hend, heq⟩ := exists_ofTokens_eq tokens
  by_cases hne : tokens = []
  · subst hne
    obtain ⟨rfl, -⟩ := of_statements_eq_ok_of_end rfl hstmts
    exact ⟨[], none, congrArg Parsing.program heq, .none, .inl .none, fun more u hu => hu⟩
  · obtain ⟨S, rfl, hbefore, rfl, rfl, hlast⟩ :=
      Seam.exists_of_silent rest hsilent hne (hstops hne)
    have hahead : S.separator.length < (S.before ++ S.separator).length := by
      have hlength := List.length_pos_iff.2 hbefore
      rw [List.length_append]
      omega
    rw [heq] at hsilent
    obtain ⟨t, ht, hpending, hreported, hmore⟩ := Seam.statements_append (S := S)
      (t := ⟨.ofList (S.before ++ S.separator ++ S.head :: S.rest), none, []⟩)
      ⟨⟨S.before, List.suffix_refl _, rfl, List.append_assoc _ _ _⟩, .of_none, .nil⟩
      ⟨_, Nat.lt_succ_self _, hahead⟩ hstmts hend hsilent
    obtain ⟨rest, pending, reported⟩ := t
    obtain rfl : rest = .ofList (S.head :: S.rest) := Input.ext ht
    obtain rfl : reported = [] := hreported
    refine ⟨stmts, pending, congrArg Parsing.program heq, hpending.mono ?_, ?_, hmore⟩
    -- without a semicolon something may be pending right at the seam
    · rw [Seam.limit]
      split
      · exact Nat.le_refl _
      · exact Nat.le_succ _
    · by_cases hsep : S.separator = []
      · exact .inr ⟨hne, hlast hsep⟩
      · rw [Seam.limit, if_neg hsep] at hpending
        exact .inl hpending

/-- Before a keyword that opens a statement, it makes no difference to the program what is
pending. -/
theorem statements_eq_of_keyword {head : Token} {rest : List Token} {k : Keyword}
    (hkind : head.kind = .keyword k) (hk : k ∈ statementKeywords) {pending : Option Failure}
    (hpending : PendingBefore rest pending) : ∃ stmts u w,
      statements statement ⟨.ofList (head :: rest), pending, []⟩ = .ok stmts u ∧
      statements statement ⟨.ofList (head :: rest), none, []⟩ = .ok stmts w ∧
      u.rest = w.rest ∧ u.reported = w.reported := by
  have hreplies := Alignment.replies_statement_of_keyword
    (rfl : (Input.ofList (head :: rest)).tokens = head :: rest) hkind hk hpending []
  generalize hx : statement ⟨.ofList (head :: rest), pending, []⟩ = x at hreplies
  generalize hy : statement ⟨.ofList (head :: rest), none, []⟩ = y at hreplies
  cases hreplies with
  | @ok v _ s t heq hst hle =>
    subst heq
    obtain ⟨stmts, u, w, hu, hw, hrest, hreported⟩ := Alignment.statements_eq_of_states hst
    exact ⟨v :: stmts, u, w,
      many_eq_cons consumes_recoverWith_strayBrace (by rw [recoverWith, hx]) hu,
      many_eq_cons consumes_recoverWith_strayBrace (by rw [recoverWith, hy]) hw, hrest, hreported⟩
  | fail hfg hle =>
    -- a statement is read or skipped, except at a closing brace
    rcases of_statementBy_eq_fail isBlockGuarded_block hy with hend | ⟨r, _, htokens, hr⟩
    · cases hend
    · obtain ⟨rfl, -⟩ := List.cons.inj htokens
      exact absurd (hkind.symm.trans hr) (by simp)
  | lost h => exact absurd h (Alignment.not_lost rfl _)

/-- A closing brace that closes nothing is reported, and nothing remains pending. -/
theorem exists_strayBrace_eq_ok {brace : Token} (hbrace : brace.kind = .punctuator .rightBrace)
    (rest : List Token) (pending : Option Failure) : ∃ f,
      recoverWith statement strayBrace ⟨.ofList (brace :: rest), pending, []⟩ =
        .ok (.error brace.span) ⟨.ofList rest, none, [f]⟩ := by
  have hhead (k : TokenKind) (hk : (kindsOf (brace :: rest)).head? = some k) :
      k = .punctuator .rightBrace := by
    obtain rfl := Option.some.inj hk
    exact hbrace
  -- no statement begins with a closing brace, so it is taken as a stray one
  obtain ⟨f, hf⟩ := rejects_statement hhead ⟨.ofList (brace :: rest), pending, []⟩ rfl
  refine ⟨f, ?_⟩
  have hpunctuator : punctuator .rightBrace ⟨.ofList (brace :: rest), none, []⟩ =
      .ok () ⟨.ofList rest, none, []⟩ := by
    rw [punctuator, token_apply_cons _ (t := brace) (a := .ofList rest) rfl, if_pos hbrace]
  have hrun : (brace :: rest).take ((brace :: rest).length - rest.length) = [brace] := by simp
  rw [recoverWith, hf]
  dsimp only
  rw [strayBrace, withSpan, bind_apply, hpunctuator]
  dsimp only [pure_apply]
  rw [Input.tokens_ofList, Input.size_ofList, Input.size_ofList, hrun]
  rfl

/-- What has been reported stays in front. -/
theorem statements_eq_of_reported {input : Input} {pending : Option Failure} {stmts : List Stmt}
    {u : State} (h : statements statement ⟨input, pending, []⟩ = .ok stmts u)
    (before : List Failure) :
    statements statement ⟨input, pending, before⟩ =
      .ok stmts { u with reported := before ++ u.reported } := by
  have hsteady : Steady (statements statement) :=
    congruence_steady.many (q := recoverWith statement strayBrace)
      (steady_statement.recoverWith steady_strayBrace)
  rcases hsteady input pending with ⟨f, hf⟩ | ⟨v, rest, pending', new, hv⟩
  · cases (hf []).symm.trans h
  · obtain ⟨rfl, rfl⟩ := Reply.ok.inj ((hv []).symm.trans h)
    exact hv before

/-- Behind these tokens, those begin a new statement: nothing is before them, a semicolon is, or
they begin with a keyword that opens a statement. -/
def StartsAnew (tokens more : List Token) : Prop :=
  tokens = [] ∨ (∃ t, tokens.getLast? = some t ∧ t.kind = .punctuator .semicolon) ∨
    ∃ t k, more.head? = some t ∧ t.kind = .keyword k ∧ k ∈ statementKeywords

/-- Where the tokens end does not depend on what is before them. -/
theorem diagnostics_eq_of_append (lines : LineIndex) (tokens more : List Token) :
    (ofTokens more).failures.map (Failure.diagnostic lines (endOfTokens (tokens ++ more))) =
      (ofTokens more).diagnostics lines more := by
  cases more with
  | nil =>
    rw [ofTokens_nil]
    rfl
  | cons head rest =>
    have hend : endOfTokens (tokens ++ head :: rest) = endOfTokens (head :: rest) := by
      rw [endOfTokens, endOfTokens, List.getLast?_append_of_ne_nil _ (List.cons_ne_nil head rest)]
    rw [diagnostics, hend]

/-- Tokens that start anew are read as if nothing were before them. -/
theorem ofTokens_append {tokens more : List Token} (hsilent : (ofTokens tokens).failures = [])
    (hanew : StartsAnew tokens more) : ∃ stmts stmts',
      (ofTokens tokens).program = some ⟨stmts, spanOfRun tokens⟩ ∧
      (ofTokens more).program = some ⟨stmts', spanOfRun more⟩ ∧
      (ofTokens (tokens ++ more)).program = some ⟨stmts ++ stmts', spanOfRun (tokens ++ more)⟩ ∧
      (ofTokens (tokens ++ more)).failures = (ofTokens more).failures := by
  cases more with
  | nil =>
    obtain ⟨stmts, _, -, -, heq⟩ := exists_ofTokens_eq tokens
    refine ⟨stmts, [], congrArg Parsing.program heq, congrArg Parsing.program ofTokens_nil, ?_, ?_⟩
    · rw [List.append_nil, List.append_nil, heq]
    · rw [List.append_nil, hsilent, ofTokens_nil]
  | cons head rest =>
    obtain ⟨stmts, pending, hprogram, hpending, hbefore, hmore⟩ :=
      exists_statements_append head rest hsilent fun hne hlast => by
        rcases hanew with rfl | ⟨t, ht, hsemicolon⟩ | ⟨t, k, ht, hkind, hk⟩
        · exact absurd rfl hne
        · exact absurd hsemicolon (hlast t ht)
        · obtain rfl := Option.some.inj ht
          exact .inr ⟨k, hk, hkind⟩
    -- what is pending makes no difference to the statements behind the seam
    have hsame : ∃ stmts' u w,
        statements statement ⟨.ofList (head :: rest), pending, []⟩ = .ok stmts' u ∧
        statements statement ⟨.ofList (head :: rest), none, []⟩ = .ok stmts' w ∧
        u.rest = w.rest ∧ u.reported = w.reported := by
      rcases hbefore with hbefore | ⟨hne, hlast⟩
      · exact Alignment.statements_eq_of_states ⟨rfl, .inr ⟨hbefore, .none⟩, .nil⟩
      · rcases hanew with rfl | ⟨t, ht, hsemicolon⟩ | ⟨t, k, ht, hkind, hk⟩
        · exact absurd rfl hne
        · exact absurd hsemicolon (hlast t ht)
        · obtain rfl := Option.some.inj ht
          exact statements_eq_of_keyword hkind hk hpending
    obtain ⟨stmts', u, w, hu, hw, hrest, hreported⟩ := hsame
    obtain ⟨stmts'', w', hw', hend, heq⟩ := exists_ofTokens_eq (head :: rest)
    obtain ⟨rfl, rfl⟩ := Reply.ok.inj (hw.symm.trans hw')
    have happend : ofTokens (tokens ++ head :: rest) =
        ⟨some ⟨stmts ++ stmts', spanOfRun (tokens ++ head :: rest)⟩, u.reported⟩ :=
      ofTokensBy_eq (hmore stmts' u hu) (by rw [hrest, hend])
    rw [heq, happend]
    exact ⟨stmts, stmts', hprogram, rfl, rfl, hreported⟩

/-- Behind a closing brace that closes nothing, tokens are read as if nothing were before them. -/
theorem ofTokens_append_rightBrace {tokens : List Token} (more : List Token) {brace : Token}
    (hsilent : (ofTokens tokens).failures = []) (hbrace : brace.kind = .punctuator .rightBrace) :
    ∃ stmts stmts' f,
      (ofTokens tokens).program = some ⟨stmts, spanOfRun tokens⟩ ∧
      (ofTokens more).program = some ⟨stmts', spanOfRun more⟩ ∧
      (ofTokens (tokens ++ brace :: more)).program =
        some ⟨stmts ++ .error brace.span :: stmts', spanOfRun (tokens ++ brace :: more)⟩ ∧
      (ofTokens (tokens ++ brace :: more)).failures = f :: (ofTokens more).failures := by
  obtain ⟨stmts, pending, hprogram, -, -, hmore⟩ :=
    exists_statements_append brace more hsilent fun _ _ => .inl hbrace
  obtain ⟨stmts', u, hu, hend, heq⟩ := exists_ofTokens_eq more
  -- what is pending at the brace goes into its diagnostic, and nothing remains pending behind it
  obtain ⟨f, hf⟩ := exists_strayBrace_eq_ok hbrace more pending
  have happend : ofTokens (tokens ++ brace :: more) =
      ⟨some ⟨stmts ++ .error brace.span :: stmts', spanOfRun (tokens ++ brace :: more)⟩,
        f :: u.reported⟩ :=
    ofTokensBy_eq (hmore _ _ (many_eq_cons consumes_recoverWith_strayBrace hf
      (statements_eq_of_reported hu [f]))) hend
  rw [heq, happend]
  exact ⟨stmts, stmts', f, hprogram, rfl, rfl, rfl⟩

/-- Tokens that are read without a diagnostic leave no trace in what is read behind them. If these
start anew, they give their own statements and diagnostics. A closing brace between the two closes
nothing: it is one statement that cannot be read, with one diagnostic, and the tokens behind it once
more give their own statements and diagnostics. -/
theorem resynchronizes (lines : LineIndex) (tokens more : List Token)
    (hsilent : (ofTokens tokens).diagnostics lines tokens = []) : ∃ stmts stmts',
      (ofTokens tokens).program = some ⟨stmts, spanOfRun tokens⟩ ∧
      (ofTokens more).program = some ⟨stmts', spanOfRun more⟩ ∧
      (StartsAnew tokens more →
        (ofTokens (tokens ++ more)).program = some ⟨stmts ++ stmts', spanOfRun (tokens ++ more)⟩ ∧
        (ofTokens (tokens ++ more)).diagnostics lines (tokens ++ more) =
          (ofTokens more).diagnostics lines more) ∧
      ∀ brace : Token, brace.kind = .punctuator .rightBrace →
        (ofTokens (tokens ++ brace :: more)).program =
          some ⟨stmts ++ .error brace.span :: stmts', spanOfRun (tokens ++ brace :: more)⟩ ∧
        ∃ d, (ofTokens (tokens ++ brace :: more)).diagnostics lines (tokens ++ brace :: more) =
          d :: (ofTokens more).diagnostics lines more := by
  have hfailures : (ofTokens tokens).failures = [] := List.map_eq_nil_iff.1 hsilent
  obtain ⟨stmts, _, -, -, heq⟩ := exists_ofTokens_eq tokens
  obtain ⟨stmts', _, -, -, heq'⟩ := exists_ofTokens_eq more
  have hfirst {stmts₀ : List Stmt} {span : Span}
      (h : (ofTokens tokens).program = some ⟨stmts₀, span⟩) : stmts = stmts₀ := by
    rw [heq] at h
    exact congrArg Program.stmts (Option.some.inj h)
  have hsecond {stmts₀ : List Stmt} {span : Span}
      (h : (ofTokens more).program = some ⟨stmts₀, span⟩) : stmts' = stmts₀ := by
    rw [heq'] at h
    exact congrArg Program.stmts (Option.some.inj h)
  refine ⟨stmts, stmts', congrArg Parsing.program heq, congrArg Parsing.program heq',
    fun hanew => ?_, fun brace hbrace => ?_⟩
  · obtain ⟨_, _, hprogram, hprogram', happend, hreported⟩ := ofTokens_append hfailures hanew
    obtain ⟨rfl, rfl⟩ := And.intro (hfirst hprogram) (hsecond hprogram')
    rw [diagnostics, hreported]
    exact ⟨happend, diagnostics_eq_of_append lines tokens more⟩
  · obtain ⟨_, _, f, hprogram, hprogram', happend, hreported⟩ :=
      ofTokens_append_rightBrace more hfailures hbrace
    obtain ⟨rfl, rfl⟩ := And.intro (hfirst hprogram) (hsecond hprogram')
    refine ⟨happend, f.diagnostic lines (endOfTokens (tokens ++ brace :: more)), ?_⟩
    rw [diagnostics, hreported, List.map_cons, List.append_cons tokens brace more,
      diagnostics_eq_of_append]

/-- Behind the statement `x`, a program goes on with the keyword `return`, which stands for a
statement of its own, and so it does behind a closing brace. The parenthesis behind `return` is
reported in each case as if nothing were before. -/
theorem resynchronizes_return :
    let name : Token := ⟨.identifier "x", "x", 1, ⟨0, 1⟩⟩
    let brace : Token := ⟨.punctuator .rightBrace, "\x7d", 1, ⟨2, 3⟩⟩
    let keyword : Token := ⟨.keyword .return, "return", 1, ⟨4, 10⟩⟩
    let parenthesis : Token := ⟨.punctuator .rightParen, ")", 1, ⟨11, 12⟩⟩
    let more := [keyword, parenthesis]
    let lines := LineIndex.ofSource "x \x7d return )"
    (ofTokens [name]).diagnostics lines [name] = [] ∧ StartsAnew [name] more ∧
      ((ofTokens more).diagnostics lines more).map (fun d => (d.span, d.message)) =
        [(⟨11, 12⟩, "unexpected token: expected expression or `;` or statement, found `)`")] ∧
      ∃ stmts stmts', (ofTokens [name]).program = some ⟨stmts, ⟨0, 1⟩⟩ ∧
        (ofTokens more).program = some ⟨stmts', ⟨4, 12⟩⟩ ∧
        ((ofTokens (name :: more)).program = some ⟨stmts ++ stmts', ⟨0, 12⟩⟩ ∧
          (ofTokens (name :: more)).diagnostics lines (name :: more) =
            (ofTokens more).diagnostics lines more) ∧
        (ofTokens (name :: brace :: more)).program =
            some ⟨stmts ++ .error ⟨2, 3⟩ :: stmts', ⟨0, 12⟩⟩ ∧
          ∃ d, (ofTokens (name :: brace :: more)).diagnostics lines (name :: brace :: more) =
            d :: (ofTokens more).diagnostics lines more := by
  intro name brace keyword parenthesis more lines
  have hsilent : (ofTokens [name]).diagnostics lines [name] = [] := by decide +kernel
  have hanew : StartsAnew [name] more := .inr (.inr ⟨keyword, .return, rfl, rfl, by decide⟩)
  have hreported : ((ofTokens more).diagnostics lines more).map (fun d => (d.span, d.message)) =
      [(⟨11, 12⟩, "unexpected token: expected expression or `;` or statement, found `)`")] := by
    decide +kernel
  obtain ⟨stmts, stmts', hprogram, hprogram', happend, hbrace⟩ :=
    resynchronizes lines [name] more hsilent
  exact ⟨hsilent, hanew, hreported, stmts, stmts', hprogram, hprogram', happend hanew,
    hbrace brace rfl⟩

end Parsing

end CrudLang
