import CrudLang.Proofs.Comparison.Alignment
import CrudLang.Proofs.Grammar.Shape

/-!
# Tokens that differ in their places

Two lists of tokens of the same kinds are read alike, whatever the spans, lines and lexemes of the
tokens are: the trees are equal up to spans, and at the same indices the same is reported
(`Parsing.layout`). Every place in the one list corresponds to the place with the same index in the
other one (`Alignment.layout`), so the whole grammar stays in step, recovery included.
-/

namespace CrudLang

section UpToSpans

variable {α β : Type} {f : α → β}

theorem map_eq_map_of_forall₂ {xs ys : List α} (h : List.Forall₂ (fun x y => f x = f y) xs ys) :
    xs.map f = ys.map f := by
  induction h with
  | nil => rfl
  | cons hxy _ ih => rw [List.map_cons, List.map_cons, hxy, ih]

theorem map_eq_map_of_rel {x y : Option α} (h : Option.Rel (fun x y => f x = f y) x y) :
    x.map f = y.map f := by
  cases h with
  | some hxy => exact congrArg some hxy
  | none => rfl

end UpToSpans

/-- Alike blocks are equal up to spans. -/
theorem Block.eraseSpans_eq_of_alike {span : Span → Span → Prop} {b b' : Block Stmt}
    (h : Block.Alike span (fun stmt stmt' => stmt.eraseSpans = stmt'.eraseSpans) b b') :
    Block.eraseSpans b = Block.eraseSpans b' := by
  rw [Block.eraseSpans, Block.eraseSpans, Stmt.eraseSpansOfAll_eq_map,
    Stmt.eraseSpansOfAll_eq_map, map_eq_map_of_forall₂ h.stmts]

/-- Trees that are equal up to spans. -/
def Likeness.upToSpans : Likeness where
  span _ _ := True
  ident i i' := i.eraseSpan = i'.eraseSpan
  expr e e' := e.eraseSpans = e'.eraseSpans
  stmt stmt stmt' := stmt.eraseSpans = stmt'.eraseSpans
  span_refl _ := trivial
  span_join _ _ := trivial
  span_expr _ := trivial
  ident_mk _ _ _ _ := rfl
  number _ _ _ _ := rfl
  string _ _ _ _ := rfl
  bool _ _ _ _ := rfl
  name h := by simp only [Expr.eraseSpans, h]
  unary _ _ _ _ _ h _ := by simp only [Expr.eraseSpans, h]
  binary _ _ _ _ _ _ _ h h' _ := by simp only [Expr.eraseSpans, h, h']
  assign h h' _ := by simp only [Expr.eraseSpans, h, h']
  call h h' _ := by
    simp only [Expr.eraseSpans, h, Expr.eraseSpansOfAll_eq_map, map_eq_map_of_forall₂ h']
  new h h' _ := by
    simp only [Expr.eraseSpans, h, Expr.eraseSpansOfAll_eq_map, map_eq_map_of_forall₂ h']
  var h h' _ := by simp only [Stmt.eraseSpans, h, map_eq_map_of_rel h']
  const h h' _ := by simp only [Stmt.eraseSpans, h, h']
  func h h' h'' _ := by
    simp only [Stmt.eraseSpans, h, map_eq_map_of_forall₂ h', Block.eraseSpans_eq_of_alike h'']
  classDef h h' _ := by
    simp only [Stmt.eraseSpans, h, Stmt.eraseSpansOfAll_eq_map, map_eq_map_of_forall₂ h']
  conditional h h' h'' _ := by
    simp only [Stmt.eraseSpans, h, Block.eraseSpans_eq_of_alike h', Stmt.eraseSpansOf?_eq_map,
      map_eq_map_of_rel h'']
  loop h _ := by simp only [Stmt.eraseSpans, Block.eraseSpans_eq_of_alike h]
  loopWhile h h' _ := by simp only [Stmt.eraseSpans, h, Block.eraseSpans_eq_of_alike h']
  crud _ _ _ _ _ _ _ h h' _ := by simp only [Stmt.eraseSpans, h, map_eq_map_of_forall₂ h']
  returning h _ := by simp only [Stmt.eraseSpans, map_eq_map_of_rel h]
  block h := by simp only [Stmt.eraseSpans, Block.eraseSpans_eq_of_alike h]
  expression h _ := by simp only [Stmt.eraseSpans, h]
  error _ := rfl

/-- The two places have the same index in two lists of tokens. -/
def SameIndex (tokens tokens' : List Token) (a b : Input) : Prop :=
  ∃ i ≤ tokens.length, a.tokens = tokens.drop i ∧ b.tokens = tokens'.drop i

namespace SameIndex

variable {tokens tokens' : List Token} {a b a' b' : Input}

/-- In lists of one length, places with the same index are as far from the end. -/
theorem size_eq (hab : SameIndex tokens tokens' a b) (hlength : tokens.length = tokens'.length) :
    a.size = b.size := by
  obtain ⟨i, -, ha, hb⟩ := hab
  rw [← a.size_eq, ← b.size_eq, ha, hb, List.length_drop, List.length_drop, hlength]

theorem lt_iff (hlength : tokens.length = tokens'.length) (hab : SameIndex tokens tokens' a b)
    (hab' : SameIndex tokens tokens' a' b') : a.size < a'.size ↔ b.size < b'.size := by
  rw [hab.size_eq hlength, hab'.size_eq hlength]

/-- At places with the same index there stand related tokens, or the lists end there. -/
theorem head_cases {R : Token → Token → Prop} (h : List.Forall₂ R tokens tokens')
    (hab : SameIndex tokens tokens' a b) :
    (∃ t u a' b', a.tokens = t :: a'.tokens ∧ b.tokens = u :: b'.tokens ∧ R t u ∧
      SameIndex tokens tokens' a' b') ∨ a.tokens = [] ∧ b.tokens = [] := by
  obtain ⟨i, hi, ha, hb⟩ := hab
  have hdrop := List.forall₂_drop i h
  rw [← ha, ← hb] at hdrop
  cases htokens : a.tokens with
  | nil =>
    rw [htokens] at hdrop
    exact .inr ⟨rfl, List.forall₂_nil_left_iff.1 hdrop⟩
  | cons t ts =>
    rw [htokens] at hdrop
    obtain ⟨u, us, htu, -, hus⟩ := List.forall₂_cons_left_iff.1 hdrop
    rw [htokens] at ha
    rw [hus] at hb
    -- a token stands at this index, so the next one is still within the list
    have hnext : i < tokens.length := by
      by_contra hle
      rw [List.drop_eq_nil_of_le (Nat.le_of_not_lt hle)] at ha
      cases ha
    refine .inl ⟨t, u, .ofList ts, .ofList us, rfl, hus, htu, i + 1, hnext, ?_, ?_⟩
    · rw [Input.tokens_ofList, ← List.drop_drop, ← ha, List.drop_one, List.tail_cons]
    · rw [Input.tokens_ofList, ← List.drop_drop, ← hb, List.drop_one, List.tail_cons]

end SameIndex

theorem forall₂_kind_of_kindsOf {tokens tokens' : List Token}
    (h : kindsOf tokens = kindsOf tokens') :
    List.Forall₂ (fun t u => t.kind = u.kind) tokens tokens' := by
  rwa [← List.forall₂_eq_eq_eq, kindsOf, kindsOf, List.forall₂_map_left_iff,
    List.forall₂_map_right_iff] at h

namespace Alignment

variable {tokens tokens' : List Token}

/-- Tokens of the same kinds: places with the same index correspond. -/
def layout (h : kindsOf tokens = kindsOf tokens') : Alignment .upToSpans where
  Inputs a b := ∃ i ≤ tokens.length, a.tokens = tokens.drop i ∧ b.tokens = tokens'.drop i
  Refused _ := False
  limit := 0
  lt_iff := SameIndex.lt_iff (forall₂_kind_of_kindsOf h).length_eq
  head_cases hab := by
    rcases SameIndex.head_cases (forall₂_kind_of_kindsOf h) hab with
      ⟨t, u, a', b', ha, hb, hkind, hab'⟩ | ⟨ha, hb⟩
    · exact .inl ⟨t, u, a', b', ha, hb, hkind, .inl hab'⟩
    · refine .inr ⟨fun token rest h => ?_, fun token rest h => ?_⟩
      · cases ha.symm.trans h
      · cases hb.symm.trans h
  span_run _ _ _ := trivial

variable {h : kindsOf tokens = kindsOf tokens'}

/-- At corresponding places the same is found, so failures there say the same. -/
theorem layout_message {f g : Failure} (hfg : (layout h).Failures f g) : f.message = g.message := by
  obtain ⟨i, -, hf, hg⟩ := hfg.rest
  have hkind : f.found.map Token.kind = g.found.map Token.kind := by
    rw [Failure.found, Failure.found, hf, hg, ← List.head?_map, ← List.head?_map, List.map_drop,
      List.map_drop]
    exact congrArg (fun kinds => (kinds.drop i).head?) h
  have htext (f : Failure) : f.foundText =
      ((f.found.map Token.kind).map fun k => s!"`{k.text}`").getD "end of input" := by
    rw [Failure.foundText]
    cases f.found <;> rfl
  rw [Failure.message, Failure.message, Failure.expectedTexts, Failure.expectedTexts, hfg.expected,
    htext, htext, hkind]

end Alignment

namespace Parsing

open Grammar

/-- Lists of tokens that correspond from the first place on are read in step: the statements are
alike, and the same failures are reported at corresponding places. -/
theorem exists_ofTokens_eq_of_inputs {L : Likeness} {W : Alignment L} {Refused : TokenKind → Prop}
    (hrecovery : Recovery L Refused W.InStep) (hlimit : W.limit = 0) {tokens tokens' : List Token}
    (hstart : W.Inputs (.ofList tokens) (.ofList tokens')) :
    ∃ stmts stmts', (ofTokens tokens).program = some ⟨stmts, spanOfRun tokens⟩ ∧
      (ofTokens tokens').program = some ⟨stmts', spanOfRun tokens'⟩ ∧
      List.Forall₂ L.stmt stmts stmts' ∧
      List.Forall₂ W.Failures (ofTokens tokens).failures (ofTokens tokens').failures := by
  have hstates : W.States ⟨.ofList tokens, none, []⟩ ⟨.ofList tokens', none, []⟩ :=
    ⟨hstart, .of_none, .nil⟩
  obtain ⟨stmts, stmts', u, w, hu, hw, hstmts, huw⟩ :=
    Alignment.exists_statements_eq_ok_of_states hrecovery hlimit hstates
  obtain ⟨_, _, hs, -, heq⟩ := exists_ofTokens_eq tokens
  obtain ⟨_, _, ht, -, heq'⟩ := exists_ofTokens_eq tokens'
  obtain ⟨rfl, rfl⟩ := Reply.ok.inj (hu.symm.trans hs)
  obtain ⟨rfl, rfl⟩ := Reply.ok.inj (hw.symm.trans ht)
  rw [heq, heq']
  exact ⟨stmts, stmts', rfl, rfl, hstmts, huw.reported⟩

/-- Tokens of the same kinds are read alike: the trees are equal up to spans, and the same failures
are reported at the same places. -/
theorem ofTokens_layout {tokens tokens' : List Token} (h : kindsOf tokens = kindsOf tokens') :
    ∃ program program', (ofTokens tokens).program = some program ∧
      (ofTokens tokens').program = some program' ∧
      program.eraseSpans = program'.eraseSpans ∧
      List.Forall₂ (Alignment.layout h).Failures (ofTokens tokens).failures
        (ofTokens tokens').failures := by
  obtain ⟨stmts, stmts', hprogram, hprogram', hstmts, hfailures⟩ :=
    exists_ofTokens_eq_of_inputs ((Alignment.layout h).recovery rfl rfl) rfl
      ⟨0, Nat.zero_le _, rfl, rfl⟩
  refine ⟨_, _, hprogram, hprogram', ?_, hfailures⟩
  rw [Program.eraseSpans, Program.eraseSpans, map_eq_map_of_forall₂ hstmts]

end Parsing

end CrudLang
