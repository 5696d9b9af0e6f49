import CrudLang.Proofs.Comparison.Enclosed
import CrudLang.Proofs.Grammar.Accepted

/-!
# Going on behind a program

A program that is read without a failure is read in the same way in front of other tokens, unless
these carry its last statement on. A `Seam` is made of the tokens of such a program and of what
comes next: behind a semicolon that may be anything, and without a semicolon it begins with a
closing brace or with a keyword that opens a statement. Up to the seam the two inputs are read in
step, since no reader gets over it but the one that is for the semicolon
(`Seam.inStepOn_bareStatement`).

Blocks are read in step because they end before the seam, and behind `else` a statement begins
before the seam.
-/

namespace CrudLang

open Grammar CrudLang.Parser

/-- The tokens of a program, and what comes next. -/
structure Seam where
  /-- The tokens of the program, but for a semicolon behind the last one. -/
  before : List Token
  /-- The semicolon behind them, if there is one. -/
  separator : List Token
  /-- The first token of what comes next. -/
  head : Token
  /-- The tokens behind that one. -/
  rest : List Token
  separator_eq : separator = [] ∨ ∃ t : Token, separator = [t] ∧ t.kind = .punctuator .semicolon
  closes {l vs} : l :: vs <:+ before → l.kind = .punctuator .leftBrace →
    ∃ after, afterClosing 0 (vs ++ separator) = some after
  last {t} : [t] <:+ before → t.kind ≠ .punctuator .semicolon ∧ t.kind ≠ .keyword .else
  stops : separator = [] → head.kind = .punctuator .rightBrace ∨
    ∃ k ∈ statementKeywords, head.kind = .keyword k

namespace Seam

variable (S : Seam)

/-- The tokens behind the program. -/
def behind : List Token :=
  S.separator ++ S.head :: S.rest

/-- A token that only a new statement can begin with, or that ends a statement. -/
def Parts (k : TokenKind) : Prop :=
  k ∈ statementBoundaries ∧ k ≠ .punctuator .leftBrace

/-- A semicolon that ends the program parts it from what comes next. -/
theorem parts_head {t : Token} {ts : List Token} (h : S.separator = t :: ts) : Parts t.kind := by
  rcases S.separator_eq with hsep | ⟨t', hsep, ht'⟩
  · rw [hsep] at h
    cases h
  · rw [hsep] at h
    obtain ⟨rfl, -⟩ := List.cons.inj h
    rw [ht']
    exact ⟨by decide, by decide⟩

/-- Whatever stands behind the program parts it from what comes next. -/
theorem parts_head_behind {t : Token} {ts : List Token} (h : S.behind = t :: ts) :
    Parts t.kind := by
  rcases S.separator_eq with hsep | ⟨t', hsep, ht'⟩
  · rw [behind, hsep, List.nil_append] at h
    obtain ⟨rfl, -⟩ := List.cons.inj h
    rcases S.stops hsep with hhead | ⟨k, hk, hhead⟩ <;> rw [hhead]
    · exact ⟨by decide, by decide⟩
    · refine ⟨?_, by simp⟩
      exact (by decide : ∀ k ∈ statementKeywords, .keyword k ∈ statementBoundaries) k hk
  · rw [behind, hsep] at h
    obtain ⟨rfl, -⟩ := List.cons.inj h
    rw [ht']
    exact ⟨by decide, by decide⟩

theorem length_take {a a' : Input} {run : List Token} (h : a.tokens = run ++ a'.tokens) :
    a.tokens.take (a.size - a'.size) = run := by
  rw [← a.size_eq, ← a'.size_eq, h, List.length_append, Nat.add_sub_cancel, List.take_left]

/-- The program alone, and with what comes next: the places correspond up to the seam. -/
def alignment : Alignment .equal where
  Inputs a b := ∃ ts, ts <:+ S.before ∧ a.tokens = ts ++ S.separator ∧ b.tokens = ts ++ S.behind
  Refused := Parts
  limit := 0
  lt_iff := by
    rintro a b a' b' ⟨ts, -, ha, hb⟩ ⟨ts', -, ha', hb'⟩
    rw [← a.size_eq, ← b.size_eq, ← a'.size_eq, ← b'.size_eq, ha, hb, ha', hb', List.length_append,
      List.length_append, List.length_append, List.length_append]
    omega
  head_cases := by
    rintro a b ⟨ts, hts, ha, hb⟩
    cases ts with
    | nil =>
      refine .inr ⟨fun t rest h => ?_, fun t rest h => ?_⟩
      · exact S.parts_head (ha.symm.trans h)
      · exact S.parts_head_behind (hb.symm.trans h)
    | cons t ts =>
      exact .inl ⟨t, t, .ofList (ts ++ S.separator), .ofList (ts ++ S.behind), ha, hb, rfl,
        .inl ⟨ts, (List.suffix_cons t ts).trans hts, rfl, rfl⟩⟩
  span_run := by
    rintro a b a' b' ⟨ts, hts, ha, hb⟩ ⟨ts', hts', ha', hb'⟩ hle
    have hlength : ts'.length ≤ ts.length := by
      rw [← a.size_eq, ← a'.size_eq, ha, ha', List.length_append, List.length_append] at hle
      omega
    obtain ⟨run, rfl⟩ := List.suffix_of_suffix_length_le hts' hts hlength
    rw [length_take (show a.tokens = run ++ a'.tokens by rw [ha, ha', List.append_assoc]),
      length_take (show b.tokens = run ++ b'.tokens by rw [hb, hb', List.append_assoc])]
    rfl

theorem commonBetweenBraces : S.alignment.CommonBetweenBraces := by
  rintro a b ⟨ts, hts, ha, hb⟩ ⟨after, hafter⟩
  cases ts with
  | nil =>
    -- no brace is closed behind the program
    rw [ha, List.nil_append] at hafter
    rcases S.separator_eq with hsep | ⟨t, hsep, ht⟩
    · rw [hsep] at hafter
      cases hafter
    · rw [hsep, afterClosing_other (by simp [ht]) (by simp [ht])] at hafter
      cases hafter
  | cons t ts =>
    exact ⟨t, t, .ofList (ts ++ S.separator), .ofList (ts ++ S.behind), ha, hb, rfl,
      .inl ⟨ts, (List.suffix_cons t ts).trans hts, rfl, rfl⟩⟩

/-- Opening braces have their closing braces before the seam. -/
theorem closed {a b : Input} {l : Token} {vs : List Token} (hab : S.alignment.Inputs a b)
    (ha : a.tokens = l :: vs) (hl : l.kind = .punctuator .leftBrace) :
    ∃ after, afterClosing 0 vs = some after := by
  obtain ⟨ts, hts, hseparator, -⟩ := hab
  rw [hseparator] at ha
  cases ts with
  | nil => exact absurd hl (S.parts_head ha).2
  | cons t ts =>
    obtain ⟨rfl, rfl⟩ := List.cons.inj ha
    exact S.closes hts hl

section Forms

variable {n : Nat} {α : Type} {V : α → α → Prop}

theorem expressionSimulation :
    ExpressionSimulation .equal S.alignment.Refused S.alignment.InStep :=
  S.alignment.simulation.expressionSimulation fun _ hk => hk.1

theorem inStep_strictBlock (n : Nat) : S.alignment.InStep n Likeness.equal.body
    (strictBlock statement) (strictBlock statement) :=
  Alignment.inStep_strictBlock rfl S.commonBetweenBraces (fun h => h.2 rfl)
    (fun _ _ _ _ => S.closed) (fun _ => rfl) n

/-- Fewer than `n` tokens are left, some of them before the seam. -/
def Ahead (n : Nat) (a : Input) : Prop :=
  a.size < n ∧ S.separator.length < a.size

variable {S} in
/-- Before the seam, the inputs have the same tokens. -/
theorem Ahead.common {a b : Input} (ha : S.Ahead n a) (hab : S.alignment.Inputs a b) :
    S.alignment.Common a b := by
  obtain ⟨ts, hts, hseparator, hbehind⟩ := hab
  cases ts with
  | nil =>
    have hsize : S.separator.length = a.size := by rw [← a.size_eq, hseparator, List.nil_append]
    exact absurd ha.2 (by omega)
  | cons t ts =>
    exact ⟨t, t, .ofList (ts ++ S.separator), .ofList (ts ++ S.behind), hseparator, hbehind, rfl,
      .inl ⟨ts, (List.suffix_cons t ts).trans hts, rfl, rfl⟩⟩

/-- A single token. -/
theorem inStepOn_token (kind : TokenKind) :
    S.alignment.InStepOn (S.Ahead n) (fun _ _ => True) (token kind) (token kind) := by
  unfold token
  exact .satisfy_on (fun _ _ _ => trivial) fun _ _ ha hab => .inl (ha.common hab)

/-- Behind a keyword the seam may be anywhere. -/
theorem inStepOn_keyword_bind {k : Keyword} {f : Unit → Parser α}
    (hf : S.alignment.InStep n V (f ()) (f ())) :
    S.alignment.InStepOn (S.Ahead (n + 1)) V (keyword k >>= f) (keyword k >>= f) :=
  (S.inStepOn_token (.keyword k)).bind_on (fun s v s' hs hv _ =>
    Nat.lt_of_lt_of_le (Consumes.token _ s v s' hv) (Nat.le_of_lt_succ hs.1)) fun _ _ _ => hf

/-- Behind `else` some tokens are left before the seam. -/
theorem inStep_else (n : Nat)
    (hif : S.alignment.InStepOn (S.Ahead n) Likeness.equal.stmt
      (conditional (strictBlock statement)) (conditional (strictBlock statement))) :
    S.alignment.InStep n Likeness.equal.stmt
      (do keyword .else; behindElse (strictBlock statement))
      (do keyword .else; behindElse (strictBlock statement)) := by
  have A := S.alignment.simulation
  have hbody : S.alignment.InStepOn (S.Ahead n) Likeness.equal.stmt
      (Stmt.block <$> strictBlock statement) (Stmt.block <$> strictBlock statement) :=
    (A.map (S.inStep_strictBlock n) fun _ _ hbody => Likeness.equal.block hbody).mono
      fun _ ha => ha.1
  have halternative : S.alignment.InStepOn (S.Ahead n) Likeness.equal.stmt
      (behindElse (strictBlock statement)) (behindElse (strictBlock statement)) :=
    hif.orElse_on (fun _ _ hs _ => hs) hbody
  have hspells := spells_strictBlock spells_statement
  refine .of_places rfl (fun v => ⟨v, rfl⟩)
    (.of_spells (spells_alternative hspells (spells_conditional hspells))) ?_
  refine ((A.token (n := n) fun h => ?_).mono fun _ ha => ha.1).bind_on (fun s v s' hs hv _ => ?_)
    fun _ _ _ => halternative
  · exact absurd h.1 (by decide)
  rcases token_cases (.keyword .else) s with heq | ⟨t, us, htokens, ht, heq⟩
  · cases heq.symm.trans hv
  obtain ⟨-, rfl⟩ := Reply.ok.inj (heq.symm.trans hv)
  obtain ⟨hsize, b, ts, hts, ha, -⟩ := hs
  rw [← s.rest.size_eq, htokens, List.length_cons] at hsize
  refine ⟨by rw [Input.size_ofList]; omega, ?_⟩
  -- the keyword is not the last token before the seam
  rw [htokens] at ha
  cases ts with
  | nil =>
    have hparts := (S.parts_head ha.symm).1
    rw [ht] at hparts
    exact absurd hparts (by decide)
  | cons t' ts =>
    obtain ⟨rfl, rfl⟩ := List.cons.inj ha
    cases ts with
    | nil => exact absurd ht (S.last hts).2
    | cons u us =>
      show S.separator.length < (u :: us ++ S.separator).length
      rw [List.length_append, List.length_cons]
      omega

theorem inStepOn_conditional (n : Nat) : S.alignment.InStepOn (S.Ahead n) Likeness.equal.stmt
    (conditional (strictBlock statement)) (conditional (strictBlock statement)) := by
  have hspells := spells_strictBlock spells_statement
  induction n with
  | zero => exact Alignment.InStep.zero.mono fun _ ha => ha.1
  | succ n ih =>
    rw [conditional_eq_behindIf fun _ => .of_spells hspells]
    exact .withSpan (S.inStepOn_keyword_bind (S.expressionSimulation.behindIf
      (S.inStep_strictBlock n) (S.inStep_else n ih)))

/-- Before the seam, statements of every form are read in step. -/
theorem inStepOn_form (form : Form) :
    S.alignment.InStepOn (S.Ahead (n + 1)) (Likeness.equal.built Likeness.equal.stmt)
      (form.parser (strictBlock statement)) (form.parser (strictBlock statement)) := by
  have A := S.expressionSimulation
  have hb := S.inStep_strictBlock
  -- behind its keyword, each form is read as in any simulation of expressions and blocks
  cases form with
  | var => exact S.inStepOn_keyword_bind (A.behindVar)
  | const => exact S.inStepOn_keyword_bind (A.behindConst)
  | func => exact .labelled (S.inStepOn_keyword_bind (A.behindFunc (hb n)))
  | «class» =>
    have hmembers := Alignment.inStep_members rfl S.commonBetweenBraces (fun h => h.2 rfl)
      (fun _ _ _ _ => S.closed) (fun _ => rfl) n
    refine .labelled (S.inStepOn_keyword_bind (A.bind (A.identifier)
      fun _ _ hname => A.bind hmembers fun _ _ hmembers => A.pure fun _ _ hs => ?_))
    exact Likeness.equal.classDef hname hmembers hs
  | loop => exact S.inStepOn_keyword_bind (A.behindLoop (hb n))
  | «while» => exact S.inStepOn_keyword_bind (A.behindWhile (hb n))
  | crud =>
    have hop : S.alignment.InStepOn (S.Ahead (n + 1)) Eq crudOperator crudOperator := by
      unfold crudOperator select
      exact .satisfy_on (fun _ _ _ => rfl) fun _ _ ha hab => .inl (ha.common hab)
    refine .labelled (hop.bind_on (Q := fun a => a.size < n + 1) (fun s v s' hs _ hle =>
      Nat.lt_of_le_of_lt hle hs.1) fun op _ hop => ?_)
    rw [← hop]
    exact A.behindCrud op
  | «return» => exact S.inStepOn_keyword_bind (A.behindReturn)
  | block => exact (A.blockStatement (hb (n + 1))).mono fun _ ha => ha.1
  | expr => exact (A.expressionStatement).mono fun _ ha => ha.1

/-- Before the seam, statements are read in step. -/
theorem inStepOn_bareStatement (n : Nat) :
    S.alignment.InStepOn (S.Ahead (n + 1)) Likeness.equal.stmt
      (bareStatement (strictBlock statement)) (bareStatement (strictBlock statement)) := by
  refine (S.inStepOn_conditional (n + 1)).orElse_on (fun _ _ hs _ => hs) (.withSpan
    (.choice fun q hq => ?_))
  obtain ⟨form, rfl⟩ := Form.exists_of_mem hq
  exact S.inStepOn_form form

end Forms

end Seam

end CrudLang
