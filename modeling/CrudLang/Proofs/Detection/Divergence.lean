import CrudLang.Proofs.Comparison.Statements
import CrudLang.Proofs.Detection.Abreast

/-!
# The statements of two inputs with a common beginning

The parser for programs goes abreast with itself on the two lists of a `Fork`
(`abreast_statements`). What stands in front of blocks is plain, so for it the rules of a
`Simulation` are used. A block may report failures of its own; behind a block everything is
optional.

It follows that the first failure in the first list is behind the fork, or failures are reported in
the second list as well (`Fork.past_or_failures`).
-/

namespace CrudLang

open Grammar CrudLang.Parser

namespace Grammar

/-- Whether something can be skipped depends on the first token. -/
theorem decidesBy_statementError :
    Parser.DecidesBy statementError (· ≠ .punctuator .rightBrace) := by
  refine fun s token ts htokens => ⟨fun ⟨v, t, ht⟩ => ?_, exists_statementError_eq_ok htokens⟩
  obtain ⟨r, rest, hrest, hr⟩ := exists_head_of_statementError_eq_ok ht
  obtain ⟨rfl, -⟩ := List.cons.inj (htokens.symm.trans hrest)
  exact hr

/-- Only a closing brace is skipped as one that closes nothing. -/
theorem decidesBy_strayBrace : Parser.DecidesBy strayBrace (· = .punctuator .rightBrace) := by
  refine fun s token ts htokens => ⟨fun ⟨v, t, ht⟩ => ?_, fun hbrace => ?_⟩
  · obtain ⟨build, hbuild, -⟩ := of_withSpan_eq_ok ht
    obtain ⟨_, u, hu, _⟩ := of_bind_eq_ok hbuild
    rcases token_cases (.punctuator .rightBrace) s with heq | ⟨r, us, hrest, hr, -⟩
    · cases heq.symm.trans hu
    · obtain ⟨rfl, -⟩ := List.cons.inj (htokens.symm.trans hrest)
      exact hr
  · obtain ⟨t, ht, -⟩ := exists_token_eq_ok htokens
    rw [hbrace] at ht
    exact exists_withSpan_eq_ok (exists_bind_eq_ok ⟨(), t, ht⟩ fun _ u => ⟨Stmt.error, u, rfl⟩)

end Grammar

namespace Fork

variable (F : Fork)

/-- What reads no braces goes abreast by rules that do not depend on its values. -/
theorem simulation : Simulation .upToSpans (fun k => k = .punctuator .leftBrace)
    fun n _ V p q => F.Abreast .plain n V p q where
  zero := .zero
  weaken h := h.weaken
  pure h := .pure h
  bind h hfg := h.bind hfg
  satisfy hrefuses hV := .satisfy (hrefuses _ rfl) hV
  read hrefuses hV hfg := (Abreast.satisfy (hrefuses _ rfl) hV).bind_below
    (fun s v t hs ht => Nat.lt_of_lt_of_le (Consumes.satisfy s v t ht) (Nat.le_of_lt_succ hs)) hfg
  orElse h h' := h.orElse h'
  withSpan h := h.withSpan
  labelled h := h.labelled (by simp)
  many hconsumes h := h.many_plain hconsumes

/-- Names and expressions read no braces. -/
theorem expressionSimulation : ExpressionSimulation .upToSpans (fun k => k = .punctuator .leftBrace)
    fun n _ V p q => F.Abreast .plain n V p q :=
  F.simulation.expressionSimulation fun k hk => by
    rw [hk]
    decide

/-- The parser goes abreast with itself, whatever the values. -/
abbrev Follows (m : Manner) (n : Nat) {α : Type} (p : Parser α) : Prop :=
  F.Abreast m n (fun _ _ => True) p p

variable {F} {n : Nat}

section Parts

variable {m : Manner} {α β : Type}

/-- What is built goes abreast at spans too. -/
theorem Follows.withSpan {p : Parser (Span → α)} (h : F.Follows m n p) :
    F.Follows m n (withSpan p) :=
  Abreast.withSpan (h.mono fun _ _ _ _ _ _ => trivial)

/-- What a plain parser is made of may be forgotten. -/
theorem Abreast.follows {V : α → α → Prop} {p : Parser α} (h : F.Abreast .plain n V p p) :
    F.Follows m n p :=
  h.of_plain.mono fun _ _ _ => trivial

/-- A keyword is no brace. -/
theorem follows_keyword (k : Keyword) : F.Follows .plain n (keyword k) :=
  F.simulation.token (by simp)

/-- Nor is the semicolon that may end a statement. -/
theorem follows_semicolon : F.Follows m n (optional (punctuator .semicolon)) :=
  (F.simulation.optional (F.simulation.token (by simp))).follows

/-- There are no classes in the first list, so none begins before the fork. -/
theorem follows_class {f : Unit → Parser β} (hm : m ≠ .plain)
    (hext : Extends (keyword .class >>= f)) : F.Follows m n (keyword .class >>= f) := by
  have hfail {s : State} (hs : ∀ t ts, s.rest.tokens = t :: ts → t.kind ≠ .keyword .class) :
      (keyword .class >>= f) s = .fail (.note s.pending s.rest (.token (.keyword .class))) :=
    token_bind_eq_fail hs
  have hclassless {s : State} (hs : s.rest.tokens <:+ F.first) (t : Token) (ts : List Token)
      (htokens : s.rest.tokens = t :: ts) : t.kind ≠ .keyword .class :=
    F.regular.classless t (hs.subset (htokens ▸ List.mem_cons_self))
  refine ⟨⟨fun s _ hs _ hbeyond => ?_, fun s v t f _ hs _ _ ht => ?_,
    fun s v t _ ht => ⟨⟨v, trivial⟩, .of_extends hext hm ht⟩⟩, fun s t _ hplaces _ _ => ?_⟩
  · -- the failure is noted where the reader is
    rw [hfail (hclassless hs)]
    exact hbeyond.missed_note _
  · cases (hfail (hclassless hs)).symm.trans ht
  · -- the second list has the same token here
    obtain ⟨token, ts, us, hts, hus, -⟩ := hplaces.exists_head
    have hkind := hclassless hplaces.suffix token ts hts
    rw [hfail (hclassless hplaces.suffix),
      hfail fun t' us' hus' => (List.cons.inj (hus.symm.trans hus')).1 ▸ hkind]
    exact .fail

end Parts

section Blocks

variable {b : Parser (Block Stmt)} (hb : F.Follows .nested n b) (hspells : Spells b Block.Reading)
include hb

/-- The definition of a function: its block comes last. -/
theorem follows_functionDefinition : F.Follows .nested n (functionDefinition b) := by
  have hname : F.Abreast .plain n _ identifier identifier := F.expressionSimulation.identifier
  have hparams : F.Abreast .plain n _ parameters parameters := F.expressionSimulation.parameters
  refine .labelled (by simp) ?_
  refine (follows_keyword .func).bind fun _ _ _ => ?_
  exact hname.bind fun _ _ _ => hparams.bind fun _ _ _ => hb.map fun _ _ _ => trivial

/-- A loop: its block comes last. -/
theorem follows_loopStatement : F.Follows .nested n (loopStatement b) :=
  (follows_keyword .loop).bind fun _ _ _ => hb.map fun _ _ _ => trivial

/-- A loop with a condition: its block comes last. -/
theorem follows_whileStatement : F.Follows .nested n (whileStatement b) :=
  (follows_keyword .while).bind fun _ _ _ =>
    (F.expressionSimulation.expression n).bind fun _ _ _ => hb.map fun _ _ _ => trivial

/-- A block that stands alone. -/
theorem follows_blockStatement : F.Follows .nested n (blockStatement b) :=
  hb.map fun _ _ _ => trivial

include hspells

omit hb in
/-- The definition of a class is not entered before the fork. -/
theorem follows_classDefinition : F.Follows .nested n (classDefinition b) := by
  have hmember : Extends (member b) := .of_spells (spells_member hspells)
  refine .labelled (by simp) (follows_class (by simp) ?_)
  refine (Extends.token _).bind fun _ => ?_
  refine (Extends.of_spells spells_identifier).bind fun _ => ?_
  refine hmember.many.between.bind fun _ => ?_
  exact .pure _

/-- A conditional behind `if`, given what stands behind `else`. -/
theorem follows_behindIf (helse : F.Follows .nested n (behindElse b)) :
    F.Follows .nested n (behindIf b) := by
  have halternative : Spells (do keyword .else; behindElse b) _ :=
    spells_alternative hspells (spells_conditional hspells)
  have hoptional : F.Follows .nested n (optional (do keyword .else; behindElse b)) :=
    .orElse (.map ((follows_keyword .else).bind fun _ _ _ => helse) fun _ _ _ => trivial)
      (.pure trivial)
  refine (F.expressionSimulation.expression n).bind fun _ _ _ => ?_
  refine hb.bind_total (fun _ _ _ => ?_) (fun _ => ?_) (fun _ => ?_) fun _ => ?_
  · exact hoptional.map fun _ _ _ => trivial
  · exact (Total.optional _).bind fun _ => .pure _
  · exact (Total.optional _).bind fun _ => .pure _
  · exact (Extends.of_spells halternative).optional.bind fun _ => .pure _

/-- A conditional, by recursion behind `else`, which is optional. -/
theorem follows_conditional : F.Follows .nested n (conditional b) := by
  induction n with
  | zero => exact .zero
  | succ n ih =>
    rw [conditional_eq_behindIf fun _ => .of_spells hspells]
    have helse : F.Follows .nested n (behindElse b) :=
      .orElse (ih hb.weaken) (hb.weaken.map fun _ _ _ => trivial)
    refine Follows.withSpan ((follows_keyword .if).bind_below (fun s v t hs ht => ?_) fun _ _ _ =>
      follows_behindIf hb.weaken hspells helse)
    exact Nat.lt_of_lt_of_le (Consumes.token _ s v t ht) (Nat.le_of_lt_succ hs)

/-- A statement without the semicolon that may end it. -/
theorem follows_bareStatement : F.Follows .nested n (bareStatement b) := by
  have hkeyword (k : Keyword) (hk : TokenKind.keyword k = .punctuator .leftBrace) :
      .keyword k ∈ spelledTwice := by
    cases hk
  refine .orElse (follows_conditional hb hspells) (Follows.withSpan (.choice fun q hq => ?_))
  obtain ⟨form, rfl⟩ := Form.exists_of_mem hq
  -- a form without a block is plain; the others have rules of their own
  cases form with
  | var => exact (F.expressionSimulation.varDeclaration hkeyword).follows
  | const => exact (F.expressionSimulation.constDeclaration hkeyword).follows
  | func => exact follows_functionDefinition hb
  | «class» => exact follows_classDefinition hspells
  | loop => exact follows_loopStatement hb
  | «while» => exact follows_whileStatement hb
  | crud => exact (F.expressionSimulation.crudStatement hkeyword).follows
  | «return» => exact (F.expressionSimulation.returnStatement hkeyword).follows
  | block => exact follows_blockStatement hb
  | expr => exact (F.expressionSimulation.expressionStatement).follows

/-- A statement with the semicolon: behind its blocks everything is optional. -/
theorem follows_terminated : F.Follows .nested n (terminated (bareStatement b)) := by
  refine (follows_bareStatement hb hspells).bind_total (fun _ _ _ => ?_) (fun _ => ?_)
    (fun _ => ?_) fun _ => ?_
  · exact follows_semicolon.map fun _ _ _ => trivial
  · exact (Total.optional _).bind fun _ => .pure _
  · exact (Total.optional _).bind fun _ => .pure _
  · exact (Extends.token _).optional.bind fun _ => .pure _

end Blocks

/-- Statements between braces are read up to the closing brace. -/
theorem follows_strictBlock (h : F.Follows .free n statement) :
    F.Follows .nested (n + 1) (strictBlock statement) := by
  have hextends : Extends statement := .of_spells spells_statement
  have hstmts : F.Follows .free n (many statement) :=
    (h.many consumes_statement hextends).mono fun _ _ _ => trivial
  have hreaches : Parser.ReachesClosing (many statement) := fun _ _ _ _ htokens hl hafter =>
    (exists_between_many_statement_eq_ok htokens hl hafter).imp
      fun _ => Exists.imp fun _ => And.left
  -- what a statement inside reports is kept, since the closing brace is reached
  have hbraces : F.Follows .nested (n + 1) (between .leftBrace .rightBrace (many statement)) :=
    .braces hreaches hstmts hextends.many fun v => ⟨v, trivial⟩
  exact .labelled (by simp) (Follows.withSpan (hbraces.map fun _ _ _ => trivial))

/-- A statement, recovery included, by induction on how many tokens are left. -/
theorem follows_statement (n : Nat) : F.Follows .free n statement := by
  induction n with
  | zero => exact .zero
  | succ n ih =>
    rw [statement_eq_terminated]
    have hstmt := follows_terminated (follows_strictBlock ih) (spells_strictBlock spells_statement)
    exact (hstmt.labelled (by simp)).recoverWith (fun v => ⟨v, trivial⟩)
      (spells_statementError.mono fun _ _ _ _ h => h.2) decidesBy_statementError

/-- The parser for programs goes abreast with itself. -/
theorem abreast_statements (n : Nat) :
    F.Abreast .free n (List.Forall₂ fun _ _ => True) (statements statement)
      (statements statement) :=
  ((follows_statement n).recoverWith (fun v => ⟨v, trivial⟩)
    (spells_strayBrace.mono fun _ _ _ _ h => h.2) decidesBy_strayBrace).many
      consumes_recoverWith_strayBrace (.of_spells spells_recoverWith_strayBrace)

/-- The first failure in the first list is behind the fork, or there are failures in the second
list. -/
theorem past_or_failures {f : Failure} {fs : List Failure}
    (h : (Parsing.ofTokens F.first).failures = f :: fs) :
    F.Past f.rest ∨ (Parsing.ofTokens F.second).failures ≠ [] := by
  obtain ⟨stmts, s, hs, hrest, heq⟩ := Parsing.exists_ofTokens_eq F.first
  obtain ⟨stmts', t, ht, -, heq'⟩ := Parsing.exists_ofTokens_eq F.second
  rw [heq] at h
  rw [heq']
  have hplaces : F.Places (.ofList F.first) (.ofList F.second) :=
    ⟨F.shared, List.suffix_refl _, rfl, rfl⟩
  have hreply := (abreast_statements (F.first.length + 1)).step ⟨.ofList F.first, none, []⟩
    ⟨.ofList F.second, none, []⟩ (Nat.lt_succ_self _) hplaces rfl rfl
  rw [hs, ht] at hreply
  cases hreply with
  | ok _ hend =>
    -- the end of the input is behind the fork
    obtain ⟨_, _, _, htokens, -⟩ := hend.exists_head
    cases hrest.symm.trans htokens
  | reported _ ht => exact .inr ht
  | missed hmissed => exact .inl (hmissed.1 f (congrArg List.head? h))

end Fork

end CrudLang
