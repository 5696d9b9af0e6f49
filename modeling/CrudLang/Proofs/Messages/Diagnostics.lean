import CrudLang.Proofs.Messages.Statements

/-!
# What syntax errors say

A syntax error tells the truth. What it says it has found stands at the place it points to, and none
of the things it lists does, each of which is listed once (`Parsing.diagnostics_sincere`).

It is also of use: it always lists something, by the source form of a token or by the name of a
construct (`Parsing.diagnostics_telling`). With one exception, it lists nothing else. While a brace
is skipped that is never closed, any token is expected up to the end of the input, and that is
still pending there, so a syntax error at the end of such a source may list it as well.
-/

namespace CrudLang

namespace Expectation

/-- All expectations with a text that can be refuted: tokens that are always written the same,
constructs, any token at all, and the end of the input. -/
def listed : List Expectation :=
  let keywords : List Keyword := [.var, .const, .func, .class, .new, .return, .if, .else, .loop,
    .while, .create, .read, .update, .delete, .and, .or, .not, .true, .false]
  let punctuators : List Punctuator := [.plus, .minus, .star, .slash, .percent, .assign, .equal,
    .notEqual, .less, .greater, .lessEqual, .greaterEqual, .andAnd, .orOr, .bang, .leftParen,
    .rightParen, .leftBrace, .rightBrace, .comma, .semicolon]
  let constructs : List Construct := [.identifier, .expression, .argumentList, .block,
    .parameterList, .functionDefinition, .classMember, .classDefinition, .crudStatement, .statement]
  keywords.map (token <| .keyword ·) ++ punctuators.map (token <| .punctuator ·) ++
    constructs.map construct ++ [anyToken, endOfInput]

/-- Different expectations have different texts. -/
theorem eq_of_text? : ∀ e ∈ listed, ∀ e' ∈ listed, e.text? = e'.text? → e = e' := by
  decide +kernel

theorem token_mem_listed {kind : TokenKind} (h : kind.IsFixed) : token kind ∈ listed := by
  cases h with
  | keyword k => cases k <;> decide
  | punctuator p => cases p <;> decide

theorem SincereAt.mem_listed {tokens : List Token} {a : Input} {e : Expectation} {text : String}
    (h : e.SincereAt tokens a) (htext : e.text? = some text) : e ∈ listed := by
  cases e with
  | token kind => exact token_mem_listed h.1
  | construct c => cases c <;> decide
  | anyToken => decide
  | endOfInput => decide
  | somethingElse => cases htext

theorem IsNamed.exists_text {e : Expectation} (h : e.IsNamed) : ∃ text, e.text? = some text := by
  cases e with
  | token kind => exact ⟨_, rfl⟩
  | construct c => exact ⟨_, rfl⟩
  | endOfInput => exact ⟨_, rfl⟩
  | anyToken => cases h
  | somethingElse => cases h

end Expectation

/-- Removing what occurs again changes nothing where nothing does. -/
theorem eraseDups_of_nodup {texts : List String} (h : texts.Nodup) : texts.eraseDups = texts := by
  induction texts with
  | nil => rfl
  | cons text texts ih =>
    obtain ⟨hnew, hnodup⟩ := List.nodup_cons.1 h
    have hfilter : texts.filter (fun other => !other == text) = texts := by
      refine List.filter_eq_self.2 fun other hother => ?_
      rw [Bool.not_eq_true', beq_eq_false_iff_ne]
      rintro rfl
      exact hnew hother
    rw [List.eraseDups_cons, hfilter, ih hnodup]

namespace Failure

variable {tokens : List Token} {f : Failure}

/-- The texts of what was expected, in the order in which it was expected. -/
def items (f : Failure) : List String :=
  f.expected.filterMap Expectation.text?

/-- What is expected at a sincere failure is told from its text. -/
theorem Sincere.mem_expected (hf : f.Sincere tokens) {e : Expectation} {text : String}
    (he : e ∈ Expectation.listed) (htext : e.text? = some text) (hitem : text ∈ f.items) :
    e ∈ f.expected := by
  obtain ⟨e', he', htext'⟩ := List.mem_filterMap.1 hitem
  obtain rfl : e' = e := Expectation.eq_of_text? e' ((hf.sincere e' he').mem_listed htext') e he
    (htext'.trans htext.symm)
  exact he'

/-- A sincere failure lists no text twice. -/
theorem Sincere.nodup_items (hf : f.Sincere tokens) : f.items.Nodup := by
  refine List.pairwise_filterMap.2 (hf.nodup.imp_of_mem fun {e e'} he he' hne => ?_)
  rintro text htext text' htext' rfl
  exact hne (Expectation.eq_of_text? e ((hf.sincere e he).mem_listed htext) e'
    ((hf.sincere e' he').mem_listed htext') (htext.trans htext'.symm))

theorem Telling.items_ne_nil (hf : f.Telling) : f.items ≠ [] := by
  obtain ⟨e, he, hnamed⟩ := hf
  obtain ⟨text, htext⟩ := hnamed.exists_text
  exact List.ne_nil_of_mem (List.mem_filterMap.2 ⟨e, he, htext⟩)

/-- The message of a failure lists all its items. -/
theorem Sincere.message_eq (hf : f.Sincere tokens) (htelling : f.Telling) : f.message =
    "unexpected token: expected " ++ " or ".intercalate f.items ++ ", found " ++ f.foundText := by
  have htexts : f.expectedTexts = f.items := eraseDups_of_nodup hf.nodup_items
  have hsome : f.expectedTexts.isEmpty = false := by
    rw [htexts, List.isEmpty_eq_false_iff]
    exact htelling.items_ne_nil
  rw [message, hsome, htexts]
  rfl

/-- A sincere failure has found a token of the source, or the end of the input, and it does not list
what it has found. -/
theorem Sincere.found_cases (hf : f.Sincere tokens) (eoi : Nat) :
    (∃ t ∈ tokens, f.span eoi = t.span ∧ f.foundText = s!"`{t.kind.text}`" ∧
      .token t.kind ∉ f.expected ∧ (t.kind.IsFixed → f.foundText ∉ f.items)) ∨
    (f.span eoi = ⟨eoi, eoi⟩ ∧ f.foundText = "end of input" ∧ f.foundText ∉ f.items) := by
  cases htokens : f.rest.tokens with
  | nil =>
    right
    have hfound : f.foundText = "end of input" := by simp [foundText, found, htokens]
    refine ⟨by simp [span, found, htokens, Span.point], hfound, fun hitem => ?_⟩
    rw [hfound] at hitem
    -- the end is expected only where it is not
    have hlisted : Expectation.endOfInput ∈ f.expected := hf.mem_expected (by decide) rfl hitem
    exact hf.sincere _ hlisted htokens
  | cons t ts =>
    left
    have hmem : t ∈ tokens := hf.suffix.subset (htokens ▸ List.mem_cons_self)
    have hfound : f.foundText = s!"`{t.kind.text}`" := by simp [foundText, found, htokens]
    have hnot : .token t.kind ∉ f.expected := fun hlisted =>
      (hf.sincere _ hlisted).2 (by rw [htokens]; rfl)
    refine ⟨t, hmem, by simp [span, found, htokens], hfound, hnot, fun hfixed hitem => ?_⟩
    rw [hfound] at hitem
    exact hnot (hf.mem_expected (Expectation.token_mem_listed hfixed) rfl hitem)

/-- An item of a syntax error that means something to a reader of it: a token in source form, the
name of a construct, or the end of the input. -/
inductive IsItem : String → Prop
  | token {kind : TokenKind} : kind.IsFixed → IsItem s!"`{kind.text}`"
  | construct (c : Construct) : IsItem c.text
  | endOfInput : IsItem "end of input"

theorem Telling.exists_item (hf : f.Telling) (hsincere : f.Sincere tokens) :
    ∃ item ∈ f.items, IsItem item := by
  obtain ⟨e, he, hnamed⟩ := hf
  cases e with
  | token kind =>
    exact ⟨_, List.mem_filterMap.2 ⟨_, he, rfl⟩, .token (hsincere.sincere _ he).1⟩
  | construct c => exact ⟨_, List.mem_filterMap.2 ⟨_, he, rfl⟩, .construct c⟩
  | endOfInput => exact ⟨_, List.mem_filterMap.2 ⟨_, he, rfl⟩, .endOfInput⟩
  | anyToken => cases hnamed
  | somethingElse => cases hnamed

/-- All items of a sincere failure are of this kind, unless it is at the end of a source with an
unclosed brace. -/
theorem Sincere.item_cases (hf : f.Sincere tokens) {item : String} (hitem : item ∈ f.items) :
    IsItem item ∨ item = "any" ∧ f.foundText = "end of input" ∧ HasUnclosedBrace tokens := by
  obtain ⟨e, he, htext⟩ := List.mem_filterMap.1 hitem
  have hsincere := hf.sincere e he
  -- only a token that is read away without being named has no source form, and that is at the end
  cases e with
  | token kind => exact .inl (Option.some.inj htext ▸ .token hsincere.1)
  | construct c => exact .inl (Option.some.inj htext ▸ .construct c)
  | endOfInput => exact .inl (Option.some.inj htext ▸ .endOfInput)
  | anyToken =>
    refine .inr ⟨(Option.some.inj htext).symm, ?_, hsincere.2⟩
    simp [foundText, found, hsincere.1]
  | somethingElse => cases htext

end Failure

namespace Parsing

open Grammar

/-- All failures that are reported are sincere and telling. -/
theorem failures_frank (tokens : List Token) :
    ∀ f ∈ (ofTokens tokens).failures, f.Sincere tokens ∧ f.Telling := by
  obtain ⟨stmts, t, ht, -, heq⟩ := exists_ofTokens_eq tokens
  rw [heq]
  exact ((tells_statements (tokens.length + 1)).ok _ stmts t (Nat.lt_succ_self _)
    (.start tokens) ht).2.reported

/-- Syntax errors tell the truth about what they found. Either a token of the input has the primary
span, it is named as found, and it is not among the tokens listed as expected, or the end of the
input was found behind the last token. No item is listed twice. -/
theorem diagnostics_sincere (lines : LineIndex) (tokens : List Token) :
    ∀ d ∈ (ofTokens tokens).diagnostics lines tokens, ∃ f ∈ (ofTokens tokens).failures,
      d.message =
        "unexpected token: expected " ++ " or ".intercalate f.items ++ ", found " ++ f.foundText ∧
      d.primary.message = s!"unexpected {f.foundText}" ∧ f.items.Nodup ∧
      ((∃ t ∈ tokens, d.primary.span = t.span ∧ f.foundText = s!"`{t.kind.text}`" ∧
          .token t.kind ∉ f.expected ∧ (t.kind.IsFixed → f.foundText ∉ f.items)) ∨
        (d.primary.span = ⟨endOfTokens tokens, endOfTokens tokens⟩ ∧
          f.foundText = "end of input" ∧ f.foundText ∉ f.items)) := by
  intro d hd
  obtain ⟨f, hf, rfl⟩ := List.mem_map.1 hd
  obtain ⟨hsincere, htelling⟩ := failures_frank tokens f hf
  exact ⟨f, hf, hsincere.message_eq htelling, rfl, hsincere.nodup_items,
    hsincere.found_cases (endOfTokens tokens)⟩

/-- A name is missing, and the sign of assignment stands in its place. -/
theorem diagnostics_sincere_missingName :
    let tokens : List Token := [⟨.keyword .const, "const", 1, ⟨0, 5⟩⟩,
      ⟨.punctuator .assign, "=", 1, ⟨6, 7⟩⟩, ⟨.number "3", "3", 1, ⟨8, 9⟩⟩]
    let lines := LineIndex.ofSource "const = 3"
    ∃ d ∈ (ofTokens tokens).diagnostics lines tokens,
      (d.message, d.primary.span) = ("unexpected token: expected identifier, found `=`", ⟨6, 7⟩) ∧
      ∃ f ∈ (ofTokens tokens).failures,
        d.message = "unexpected token: expected " ++ " or ".intercalate f.items ++ ", found " ++
          f.foundText ∧
        d.primary.message = s!"unexpected {f.foundText}" ∧ f.items.Nodup ∧
        ((∃ t ∈ tokens, d.primary.span = t.span ∧ f.foundText = s!"`{t.kind.text}`" ∧
            .token t.kind ∉ f.expected ∧ (t.kind.IsFixed → f.foundText ∉ f.items)) ∨
          (d.primary.span = ⟨endOfTokens tokens, endOfTokens tokens⟩ ∧
            f.foundText = "end of input" ∧ f.foundText ∉ f.items)) := by
  intro tokens lines
  have hall : ((ofTokens tokens).diagnostics lines tokens).map
      (fun d => (d.message, d.primary.span)) =
      [("unexpected token: expected identifier, found `=`", ⟨6, 7⟩)] := by decide +kernel
  obtain ⟨d, hd, heq⟩ := List.mem_map.1 (hall ▸ List.mem_singleton_self _)
  exact ⟨d, hd, heq, diagnostics_sincere lines tokens d hd⟩

/-- Syntax errors are of use: each of them lists a token in source form, a construct or the end of
the input. It lists nothing else, except that `any` may be listed at the end of a source in which
some brace is never closed. -/
theorem diagnostics_telling (lines : LineIndex) (tokens : List Token) :
    ∀ d ∈ (ofTokens tokens).diagnostics lines tokens, ∃ items found,
      d.message =
        "unexpected token: expected " ++ " or ".intercalate items ++ ", found " ++ found ∧
      d.primary.message = s!"unexpected {found}" ∧ (∃ item ∈ items, Failure.IsItem item) ∧
      ∀ item ∈ items, Failure.IsItem item ∨
        item = "any" ∧ found = "end of input" ∧ HasUnclosedBrace tokens := by
  intro d hd
  obtain ⟨f, hf, rfl⟩ := List.mem_map.1 hd
  obtain ⟨hsincere, htelling⟩ := failures_frank tokens f hf
  exact ⟨f.items, f.foundText, hsincere.message_eq htelling, rfl, htelling.exists_item hsincere,
    fun _ hitem => hsincere.item_cases hitem⟩

/-- The second brace is skipped up to the end of the input, and the first one is not closed
there. -/
theorem diagnostics_telling_unclosed :
    let brace : Token := ⟨.punctuator .leftBrace, "\x7b", 1, ⟨0, 1⟩⟩
    let tokens : List Token := [brace, { brace with span := ⟨2, 3⟩ }]
    let lines := LineIndex.ofSource "\x7b \x7b"
    ∃ d ∈ (ofTokens tokens).diagnostics lines tokens,
      d.message = "unexpected token: expected `\x7b` or `\x7d` or any or `;` or statement, " ++
        "found end of input" ∧
      ∃ items found,
        d.message =
          "unexpected token: expected " ++ " or ".intercalate items ++ ", found " ++ found ∧
        d.primary.message = s!"unexpected {found}" ∧ (∃ item ∈ items, Failure.IsItem item) ∧
        ∀ item ∈ items, Failure.IsItem item ∨
          item = "any" ∧ found = "end of input" ∧ HasUnclosedBrace tokens := by
  intro brace tokens lines
  have hall : ((ofTokens tokens).diagnostics lines tokens).map (·.message) =
      ["unexpected token: expected `\x7b` or `\x7d` or any or `;` or statement, " ++
        "found end of input"] := by decide +kernel
  obtain ⟨d, hd, heq⟩ := List.mem_map.1 (hall ▸ List.mem_singleton_self _)
  exact ⟨d, hd, heq, diagnostics_telling lines tokens d hd⟩

end Parsing

end CrudLang
