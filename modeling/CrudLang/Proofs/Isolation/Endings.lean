import CrudLang.Proofs.Grammar.Accepted
import CrudLang.Proofs.Parser.Pending

/-!
# What stands before a block

The only brace that opens no block is that of a class, behind its name. `HeadFree ts` says that
`ts` does not end with the head of a class definition or with a part of it, so that a brace
behind `ts` is none of a class. A statement that is read right before a brace or a name is of this
kind (`headFree_statement`).
-/

namespace CrudLang

/-- The tokens do not end with the head of a class definition or with a part of it. -/
structure HeadFree (ts : List TokenKind) : Prop where
  keyword : ∀ us, ts ≠ us ++ [.keyword .class]
  name : ∀ us name, ts ≠ us ++ [.keyword .class, .identifier name]

namespace HeadFree

variable {ts us : List TokenKind}

/-- Where there is no keyword for classes, there is no head of a class. -/
theorem of_not_mem (h : .keyword .class ∉ ts) : HeadFree ts where
  keyword us hts := h (by simp [hts])
  name us name hts := h (by simp [hts])

/-- No tokens are no head of a class. -/
theorem nil : HeadFree [] :=
  of_not_mem List.not_mem_nil

/-- What matters is the last token, unless it is a name. -/
theorem concat {k : TokenKind} (hclass : k ≠ .keyword .class)
    (hname : ∀ name, k ≠ .identifier name) : HeadFree (ts ++ [k]) where
  keyword us h := hclass (List.cons.inj (List.append_inj' h rfl).2).1
  name us name h := by
    have h' : ts ++ [k] = (us ++ [.keyword .class]) ++ [.identifier name] := by simpa using h
    exact hname name (List.cons.inj (List.append_inj' h' rfl).2).1

/-- What stands before matters if there is nothing behind it or a name only. -/
theorem append (hus : HeadFree us)
    (hts : us = [] ∨ (∃ name, us = [.identifier name]) → HeadFree ts) : HeadFree (ts ++ us) := by
  rcases List.eq_nil_or_concat us with rfl | ⟨init, last, rfl⟩
  · rw [List.append_nil]
    exact hts (.inl rfl)
  rw [List.concat_eq_append] at hus hts ⊢
  constructor
  · intro vs h
    rw [← List.append_assoc] at h
    exact hus.keyword init (by rw [(List.append_inj' h rfl).2])
  · intro vs name h
    have h' : (ts ++ init) ++ [last] = (vs ++ [.keyword .class]) ++ [.identifier name] := by
      simpa using h
    obtain ⟨hinit, hlast⟩ := List.append_inj' h' rfl
    obtain rfl := (List.cons.inj hlast).1
    -- the keyword is the last token of `init`, or there is none and it is the last one of `ts`
    rcases List.eq_nil_or_concat init with rfl | ⟨init, last, rfl⟩
    · exact (hts (.inr ⟨name, rfl⟩)).keyword vs (by simpa using hinit)
    · rw [List.concat_eq_append, ← List.append_assoc] at hinit
      obtain rfl := (List.cons.inj (List.append_inj' hinit rfl).2).1
      exact hus.name init name (by simp)

/-- A semicolon that may be there makes no head of a class. -/
theorem append_semicolon (hts : HeadFree ts) (hus : Optionally .semicolon us) :
    HeadFree (ts ++ us) := by
  rcases hus with rfl | rfl
  · rwa [List.append_nil]
  · exact .concat (by simp) (by simp)

end HeadFree

/-- Items between parentheses end with a parenthesis. -/
theorem ItemList.headFree {α : Type} {item : α → List TokenKind → Prop} {vs : List α}
    {ts us : List TokenKind} (h : ItemList item vs ts) : HeadFree (us ++ ts) := by
  have hlast : ∃ init, ts = init ++ [.punctuator .rightParen] := by
    cases h with
    | nil => exact ⟨[.punctuator .leftParen], rfl⟩
    | cons _ _ _ => exact ⟨_, rfl⟩
  obtain ⟨init, rfl⟩ := hlast
  rw [← List.append_assoc]
  exact .concat (by simp) (by simp)

/-- No class begins in an expression. -/
theorem Expr.Written.headFree {level : Nat} {e : Expr} {k : TokenKind} {ts : List TokenKind}
    (h : Expr.Written level e ts) (hk : k ≠ .keyword .class) : HeadFree (k :: ts) := by
  refine .of_not_mem fun hmem => ?_
  rcases List.mem_cons.1 hmem with hmem | hmem
  · exact hk hmem.symm
  · simpa [TokenKind.InExpression] using h.inExpression _ hmem

/-- A statement that could be read does not end with the head of a class. -/
theorem Stmt.Written.headFree {follow : Follow} {stmt : Stmt} {ts : List TokenKind}
    (h : Stmt.Written follow stmt ts) (herror : ∀ span, stmt ≠ .error span) : HeadFree ts := by
  rcases h.exists_concat_or_braceless herror with ⟨us, rfl⟩ | hts
  · exact .concat (by simp) (by simp)
  · refine .of_not_mem fun hmem => ?_
    simpa [TokenKind.InBraceless, TokenKind.InExpression] using hts _ hmem

/-- The next token is an opening brace or a name. -/
def BraceOrName (ts : List TokenKind) : Prop :=
  ∃ k us, ts = k :: us ∧ (k = .punctuator .leftBrace ∨ ∃ name, k = .identifier name)

namespace Grammar

open CrudLang.Parser

section Returns

variable {α β : Type}

/-- Whatever the parser returns is of this kind. -/
def Returns (p : Parser α) (Q : α → Prop) : Prop :=
  ∀ s v t, p s = .ok v t → Q v

namespace Returns

variable {p q : Parser α} {Q : α → Prop}

/-- A value is returned as it is. -/
theorem pure {a : α} (h : Q a) : Returns (Pure.pure a) Q := by
  intro s v t hs
  obtain ⟨rfl, -⟩ := of_pure_eq_ok hs
  exact h

/-- The last part of a sequence returns the value. -/
theorem bind {f : β → Parser α} {p : Parser β} (hf : ∀ b, Returns (f b) Q) :
    Returns (p >>= f) Q := by
  intro s v t hs
  obtain ⟨b, u, -, hb⟩ := of_bind_eq_ok hs
  exact hf b u v t hb

/-- Either alternative may return the value. -/
theorem orElse (hp : Returns p Q) (hq : Returns q Q) : Returns (orElse p q) Q := by
  intro s v t hs
  rcases of_orElse_eq_ok hs with h | ⟨f, -, h⟩
  · exact hp s v t h
  · exact hq _ v t h

/-- Any of the alternatives may return the value. -/
theorem choice {rest : List (Parser α)} (h : ∀ q ∈ p :: rest, Returns q Q) :
    Returns (choice p rest) Q :=
  choice_of_forall orElse h

/-- A label makes no difference to the value. -/
theorem labelled {c : Construct} (hp : Returns p Q) : Returns (labelled c p) Q := by
  intro s v t hs
  obtain ⟨u, hu, -⟩ := of_labelled_eq_ok hs
  exact hp _ v u hu

/-- The value is returned at whatever span it has. -/
theorem withSpan {p : Parser (Span → α)} (hp : Returns p fun build => ∀ span, Q (build span)) :
    Returns (withSpan p) Q := by
  intro s v t hs
  obtain ⟨build, hbuild, rfl⟩ := of_withSpan_eq_ok hs
  exact hp s build t hbuild _

end Returns

end Returns

/-- A conditional is no statement that could not be read. -/
theorem returns_conditional (b : Parser (Block Stmt)) :
    Returns (conditional b) fun stmt => ∀ span, stmt ≠ .error span := by
  intro s stmt t hs
  rw [conditional_eq_fix, fix_apply] at hs
  refine Returns.withSpan (Q := fun stmt => ∀ span, stmt ≠ .error span) ?_ s stmt t hs
  -- the last part of the sequence makes the statement
  repeat refine .bind fun _ => ?_
  exact .pure (by simp)

/-- Nor is a statement of any of the other forms. -/
theorem returns_form (b : Parser (Block Stmt)) (form : Form) :
    Returns (form.parser b) fun build => ∀ span error, build span ≠ .error error := by
  cases form with
  | func | «class» | crud =>
    refine .labelled ?_
    repeat refine .bind fun _ => ?_
    exact .pure (by simp)
  | _ =>
    repeat refine .bind fun _ => ?_
    exact .pure (by simp)

/-- Only recovery makes a statement that could not be read. -/
theorem returns_bareStatement (b : Parser (Block Stmt)) :
    Returns (bareStatement b) fun stmt => ∀ span, stmt ≠ .error span := by
  refine .orElse (returns_conditional b) (.withSpan (.choice fun q hq => ?_))
  obtain ⟨form, rfl⟩ := Form.exists_of_mem hq
  exact returns_form b form

/-- Before a brace or a name the skipping of a statement ends only behind a semicolon. -/
theorem headFree_statementError : Spells statementError fun _ ts us _ =>
    BraceOrName us → HeadFree ts := by
  -- at such a token another unit could be skipped
  have hunit {u : State} {f : Failure} (hf : furtherUnit u = .fail f) :
      ¬ BraceOrName (kindsOf u.rest.tokens) := by
    rintro ⟨k, us, hus, hk⟩
    obtain ⟨token, ts, htokens, rfl, -⟩ := List.map_eq_cons_iff.1 hus
    have hskipped : token.kind = .punctuator .leftBrace ∨ token.kind ∉ statementBoundaries := by
      refine hk.imp_right ?_
      rintro ⟨name, hname⟩
      rw [hname]
      simp [statementBoundaries]
    obtain ⟨t, ht⟩ : ∃ t, furtherUnit u = .ok () t := exists_unit_eq_ok htokens hskipped
    rw [ht] at hf
    cases hf
  have hunits : Spells (many furtherUnit) fun _ _ us _ => ¬ BraceOrName us := by
    intro s vs t hs
    obtain ⟨read, new, hread, hnew, -⟩ := Quiet.many skips_furtherUnit s vs t hs
    obtain ⟨vs', t', u, f, hvs, hu, hf⟩ := exists_many_eq_ok skips_furtherUnit.consumes s
    obtain ⟨-, rfl⟩ := Reply.ok.inj (hs.symm.trans hvs)
    exact ⟨read, new, hread, hnew, hu ▸ hunit hf⟩
  refine .withSpan ?_
  refine .bind skips_firstUnit fun _ ts _ => ?_
  refine .bind hunits fun _ us _ => ?_
  refine .bind (.optionally .semicolon) fun _ vs _ => ?_
  refine .pure fun rest hsemi hus _ _ hrest => ?_
  rcases hsemi.1 with rfl | rfl
  · exact absurd hrest (by simpa using hus)
  · have hfree : HeadFree (ts ++ us ++ [.punctuator .semicolon]) := .concat (by simp) (by simp)
    simpa [List.append_assoc] using hfree

/-- A statement that is read right before a brace or a name does not end with the head of a
class. -/
theorem headFree_statement : Spells statement fun _ ts us _ => BraceOrName us → HeadFree ts := by
  have hstatement : statement = statementStep (strictBlock statement) := by
    rw [← statementBy_strictBlock_eq]
    exact statementBy_eq isBlockGuarded_strictBlock
  have hbare : Spells (bareStatement (strictBlock statement)) fun stmt ts _ _ => HeadFree ts := by
    intro s stmt t hs
    obtain ⟨read, new, hread, hnew, h⟩ :=
      spells_bareStatement (spells_strictBlock spells_statement) s stmt t hs
    exact ⟨read, new, hread, hnew, h.written.headFree (returns_bareStatement _ s stmt t hs)⟩
  rw [hstatement]
  refine .recoverWith (.labelled <| .bind hbare fun stmt ts _ => ?_) headFree_statementError
  refine .bind (.optionally .semicolon) fun _ semi _ => ?_
  refine .pure fun us hsemi hts _ => ?_
  rw [List.append_nil]
  exact hts.append_semicolon hsemi.1

end Grammar

end CrudLang
