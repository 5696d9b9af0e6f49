import CrudLang.Proofs.Recovery.Alternatives
import CrudLang.Proofs.Recovery.Reporting
import CrudLang.Proofs.Recovery.Skipped
import Mathlib.Data.List.Chain

/-!
# Failures are reported from left to right

A statement that cannot be read fails no further on than the place where the skipping of it ends,
and the next one does not fail before that place. If skipping has ended there without a semicolon,
then at a keyword, and the next statement fails behind the keyword. So where every conditional
behind `else` can be read (`NoBrokenElseIf`), failures are reported from left to right, each at a
place of its own (`Grammar.InOrder`). Only a closing brace that closes nothing may be reported
again, once for the statement that ends there and once for itself.

The step lemma is `Grammar.Settled.statement`, about one statement, and blocks maintain the order
(`Grammar.maintains_inOrder_strictBlock`).
-/

namespace CrudLang

open Grammar CrudLang.Parser

/-- Behind no `else` a conditional begins that cannot be read. -/
def NoBrokenElseIf (tokens : List Token) : Prop :=
  ∀ t rest, t :: rest <:+ tokens → t.kind = .keyword .else →
    ∀ size, ¬ (Input.ofList rest).BreaksOff size

namespace NoBrokenElseIf

variable {tokens rest : List Token}

/-- What is behind the tokens of a part is behind those of the whole. -/
theorem suffix (h : NoBrokenElseIf tokens) (hrest : rest <:+ tokens) : NoBrokenElseIf rest :=
  fun t rest' hsuffix => h t rest' (hsuffix.trans hrest)

/-- Without tokens there is no `else`. -/
theorem nil : NoBrokenElseIf [] :=
  fun _ _ hsuffix => nomatch List.suffix_nil.1 hsuffix

/-- The first token and those behind it are looked at separately. -/
theorem cons_iff {t : Token} : NoBrokenElseIf (t :: rest) ↔
    (t.kind = .keyword .else → ∀ size, ¬ (Input.ofList rest).BreaksOff size) ∧
      NoBrokenElseIf rest := by
  constructor
  · exact fun h => ⟨h t rest (List.suffix_refl _), h.suffix (List.suffix_cons t rest)⟩
  · rintro ⟨hfirst, hrest⟩ u rest' hsuffix hu
    rcases List.suffix_cons_iff.1 hsuffix with heq | hsuffix
    · obtain ⟨rfl, rfl⟩ := List.cons.inj heq
      exact hfirst hu
    · exact hrest u rest' hsuffix hu

/-- No conditional behind `else` breaks off if no `else` is directly followed by `if`. -/
theorem of_isChain (h : tokens.IsChain fun t u => t.kind = .keyword .else → u.kind ≠ .keyword .if) :
    NoBrokenElseIf tokens := by
  intro t rest hsuffix ht size hbreaks
  obtain ⟨u, us, rfl, hu⟩ := hbreaks.head
  exact (List.isChain_cons_cons.1 (h.suffix hsuffix)).1 ht hu

end NoBrokenElseIf

namespace Grammar

/-- The failures reported so far are at places from left to right, and not behind the present place.
They are at different places but for those in `Twice`, and at the present place only if skipping may
have ended there. -/
structure InOrder (Twice : Nat → Prop) (a : Input) (fs : List Failure) : Prop where
  noBrokenElseIf : NoBrokenElseIf a.tokens
  pairwise : fs.Pairwise fun e f =>
    f.rest.size < e.rest.size ∨ f.rest.size = e.rest.size ∧ Twice f.rest.size
  behind : ∀ e ∈ fs, a.size < e.rest.size ∨ a.size = e.rest.size ∧ a.Resumes

variable {Twice : Nat → Prop} {n : Nat}

theorem InOrder.next {a b : Input} {fs : List Failure} {t : Token} (h : InOrder Twice a fs)
    (ha : a.tokens = t :: b.tokens) : InOrder Twice b fs where
  noBrokenElseIf := h.noBrokenElseIf.suffix (ha ▸ List.suffix_cons t b.tokens)
  pairwise := h.pairwise
  behind e he := by
    have hsize := Input.size_of_tokens_eq_cons ha
    rcases h.behind e he with hless | ⟨heq, -⟩
    · exact .inl (by omega)
    · exact .inl (by omega)

theorem advances_inOrder (Twice : Nat → Prop) : Advances (InOrder Twice) :=
  fun _ _ _ _ h ha => h.next ha

/-- Failures are in order, and nothing is pending behind the place where the skipping of the next
statement would end. -/
structure Settled (Twice : Nat → Prop) (s : State) : Prop where
  inOrder : InOrder Twice s.rest s.reported
  pending : UpToLanding s.rest s.pending

section Failing

variable {s t : State} {f : Failure} {v : Stmt}

/-- Nothing dangles where every conditional behind `else` can be read. -/
theorem not_dangling (hwhole : NoBrokenElseIf s.rest.tokens) : ¬ Dangling s := by
  rintro ⟨t, b, size, htokens, ht, hbreaks, -⟩
  have hb : Input.ofList b.tokens = b := Input.ext rfl
  exact hwhole t b.tokens (htokens ▸ List.suffix_refl _) ht size (hb ▸ hbreaks)

theorem of_strayBrace_eq_ok (ht : strayBrace s = .ok v t) : ∃ brace after,
    s.rest.tokens = brace :: after ∧ brace.kind = .punctuator .rightBrace ∧
      t = ⟨.ofList after, s.pending, s.reported⟩ := by
  obtain ⟨build, hbuild, -⟩ := of_withSpan_eq_ok ht
  obtain ⟨v, u, hv, hpure⟩ := of_bind_eq_ok hbuild
  obtain ⟨-, rfl⟩ := of_pure_eq_ok hpure
  rcases token_cases (.punctuator .rightBrace) s with heq | ⟨r, rs, htokens, hr, heq⟩
  · cases heq.symm.trans hv
  · exact ⟨r, rs, htokens, hr, (Reply.ok.inj (hv.symm.trans heq)).2⟩

/-- Where a closing brace stands, a statement fails right there. -/
theorem size_eq_of_statement_eq_fail {brace : Token} {after : List Token}
    (h : UpToLanding s.rest s.pending) (htokens : s.rest.tokens = brace :: after)
    (hkind : brace.kind = .punctuator .rightBrace) (hf : statement s = .fail f) :
    f.rest.size = s.rest.size := by
  rw [statement_eq_terminated] at hf
  have hfail := of_recoverWith_eq_fail hf
  refine Nat.le_antisymm (size_le_of_labelled_eq_fail hfail) ?_
  have hlow := le_size_of_labelled_eq_fail (Nat.le_refl _) h hfail
  rwa [htokens, statementLanding_rightBrace hkind, ← htokens, s.rest.size_eq] at hlow

end Failing

section Statements

variable {s t : State}

/-- A token other than a semicolon and a closing brace at which skipping ends is a keyword. -/
theorem Halts.exists_keyword {k : TokenKind} (h : Halts k) (hsemicolon : k ≠ .punctuator .semicolon)
    (hr : k ≠ .punctuator .rightBrace) : ∃ word ∈ statementKeywords, k = .keyword word := by
  obtain ⟨hmem, hl⟩ := h
  simp only [statementBoundaries, List.mem_cons, List.not_mem_nil, or_false] at hmem
  rcases hmem with rfl | rfl | rfl | rfl | rfl | rfl | rfl | rfl | rfl | rfl | rfl | rfl | rfl |
    rfl | rfl
  · exact absurd rfl hl
  · exact absurd rfl hsemicolon
  · exact absurd rfl hr
  all_goals exact ⟨_, by decide, rfl⟩

/-- A failure is behind those reported before if it is not before the present place, and not at it
where skipping may have ended. -/
theorem InOrder.pairwise_concat {a : Input} {fs : List Failure} {f : Failure}
    (h : InOrder Twice a fs) (hle : f.rest.size ≤ a.size)
    (hless : a.Resumes → f.rest.size < a.size ∨ f.rest.size = a.size ∧ Twice f.rest.size) :
    (fs ++ [f]).Pairwise fun e f =>
      f.rest.size < e.rest.size ∨ f.rest.size = e.rest.size ∧ Twice f.rest.size := by
  refine List.pairwise_append.2 ⟨h.pairwise, List.pairwise_singleton _ _, fun e he g hg => ?_⟩
  obtain rfl := List.mem_singleton.1 hg
  rcases h.behind e he with hbefore | ⟨heq, hresumes⟩
  · exact .inl (Nat.lt_of_le_of_lt hle hbefore)
  · exact heq ▸ hless hresumes

/-- A statement leaves failures in order, be it read or skipped. -/
theorem Settled.statement (hb : Maintains (InOrder Twice) n (strictBlock statement)) {v : Stmt}
    (hs : s.rest.size < n) (h : Settled Twice s) (ht : Grammar.statement s = .ok v t) :
    Settled Twice t := by
  have hwhole := h.inOrder.noBrokenElseIf
  rw [statement_eq_terminated] at ht
  rcases of_recoverWith_eq_ok ht with hv | ⟨f, u, hf, hu, rfl⟩
  · have hread := (maintains_terminated (advances_inOrder Twice) hb).labelled s v t hs h.inOrder hv
    exact ⟨hread.2, (pending_of_labelled_eq_ok h.pending hv).resolve_right
      (not_dangling hread.2.noBrokenElseIf)⟩
  -- the statement is skipped, and its failure is between its beginning and where skipping ends
  have hskipped := skipped_of_statementError_eq_ok hu
  have hup := size_le_of_labelled_eq_fail hf
  have hlow := le_size_of_labelled_eq_fail (Nat.le_refl _) h.pending hf
  obtain ⟨r, rest, htokens, hr⟩ := hskipped.head
  refine ⟨⟨hwhole.suffix hskipped.suffix, ?_, fun e he => ?_⟩, hskipped.upToLanding⟩
  · dsimp only
    rw [hskipped.reported]
    refine h.inOrder.pairwise_concat hup fun hresumes => .inl ?_
    -- where skipping ended before, a keyword stands, and a statement fails behind its keyword
    obtain ⟨hhalts, hsemicolon⟩ := hresumes r rest htokens
    obtain ⟨k, hk, hkind⟩ := hhalts.exists_keyword hsemicolon hr
    exact size_lt_of_labelled_eq_fail htokens hkind hk hf
  · dsimp only at he ⊢
    rw [hskipped.reported] at he
    rcases List.mem_append.1 he with he | he
    · have hless : u.rest.size < s.rest.size :=
        Consumes.of_spells spells_statementError (fun _ _ _ h => h.1.1 rfl)
          { s with pending := none } v u hu
      rcases h.inOrder.behind e he with hbehind | ⟨heq, -⟩ <;> exact .inl (by omega)
    · obtain rfl := List.mem_singleton.1 he
      exact hskipped.size_lt_or_resumes hlow

/-- Blocks leave failures in order. -/
theorem maintains_inOrder_strictBlock (Twice : Nat → Prop) (n : Nat) :
    Maintains (InOrder Twice) n (strictBlock Grammar.statement) := by
  have hopen (a : Input) (fs : List Failure) (h : InOrder Twice a fs) :
      Settled Twice ⟨a, none, fs⟩ := ⟨h, .none a⟩
  exact maintains_strictBlock (advances_inOrder Twice) hopen (fun s _ _ h _ _ => h.inOrder)
    (fun n s v t hb hs h ht => h.statement hb hs ht) n

end Statements

end Grammar

end CrudLang
