import CrudLang.Proofs.Token.Literals

/-!
# Tokens as they are shown

`TokenKind.text` shows a token as the source may have it. A keyword, an identifier, a number and a
punctuator are shown by their lexeme (`TokenKind.WrittenAs.toList_text`). A string is shown by its
quoted value, and quoting knows escapes that the language does not have: the null character is
shown as `\0`, and a character without a printed form, or one that extends a grapheme, by its code
point. The language leaves such an escape as it stands (`Quoted.standsFor_escape`).

So what is shown is read as one token, which has the kind that was shown up to the characters
that do not read back (`Lexing.ofSource_text`).
-/

namespace CrudLang

namespace Quoted

/-- The language has an escape for the character, or the character is shown as it is. -/
def ReadsBack (c : Char) : Prop :=
  c ∈ Chunk.escapes.map Prod.snd ∨
    c.toNat ≠ 0 ∧ extendsGrapheme c = false ∧ isPrintable c = true

instance : DecidablePred ReadsBack := fun _ => inferInstanceAs (Decidable (_ ∨ _))

/-- What the language reads in the form in which a character is shown. -/
def reread (c : Char) : List Char :=
  if ReadsBack c then [c] else escape c

/-- A number is written in the digits of its base. -/
theorem exists_eq_digitChar {base n : Nat} (hbase : 1 < base) {c : Char}
    (h : c ∈ Nat.toDigits base n) : ∃ d < base, c = Nat.digitChar d := by
  induction n using Nat.strong_induction_on with
  | _ n ih =>
    rw [Nat.toDigits_eq_if hbase] at h
    split at h
    next hless => exact ⟨n, hless, List.mem_singleton.1 h⟩
    next hle =>
      rcases List.mem_append.1 h with h | h
      · exact ih (n / base) (Nat.div_lt_self (by omega) hbase) h
      · exact ⟨n % base, Nat.mod_lt _ (by omega), List.mem_singleton.1 h⟩

/-- A hexadecimal digit has no meaning of its own in a string literal. -/
theorem digitChar_plain : ∀ d < 16,
    Nat.digitChar d ≠ '"' ∧ Nat.digitChar d ≠ '\\' ∧ Nat.digitChar d ≠ '\n' := by
  decide

/-- A character that the language has an escape for is shown by it. -/
theorem escape_of_mem_escapes {letter c : Char} (h : (letter, c) ∈ Chunk.escapes) :
    escape c = ['\\', letter] := by
  simp only [Chunk.escapes, List.mem_cons, Prod.mk.injEq, List.not_mem_nil, or_false] at h
  rcases h with ⟨rfl, rfl⟩ | ⟨rfl, rfl⟩ | ⟨rfl, rfl⟩ | ⟨rfl, rfl⟩ | ⟨rfl, rfl⟩ <;> rfl

/-- Any other character is shown by an escape that the language does not have, or as it is. -/
theorem escape_of_notMem_escapes {c : Char} (h : c ∉ Chunk.escapes.map Prod.snd) :
    escape c =
      if c.toNat = 0 then ['\\', '0']
      else if extendsGrapheme c || !isPrintable c then
        ['\\', 'u', '\x7b'] ++ Nat.toDigits 16 c.toNat ++ ['\x7d']
      else [c] := by
  simp only [Chunk.escapes, List.map_cons, List.map_nil, List.mem_cons, List.not_mem_nil, or_false,
    not_or] at h
  obtain ⟨hbackslash, hquote, hnewline, htab, hreturn⟩ := h
  simp only [escape, hbackslash, hquote, hnewline, htab, hreturn, if_false]

/-- A code point is written in characters that have no meaning of their own in a string literal,
behind an escape that is unknown, so it stands for itself. -/
theorem standsFor_codePoint (code : Nat) :
    Chunk.StandsFor (['\\', 'u', '\x7b'] ++ Nat.toDigits 16 code ++ ['\x7d'])
      (['\\', 'u', '\x7b'] ++ Nat.toDigits 16 code ++ ['\x7d']) := by
  have hplain : ∀ d ∈ '\x7b' :: Nat.toDigits 16 code ++ ['\x7d'],
      d ≠ '"' ∧ d ≠ '\\' ∧ d ≠ '\n' := by
    intro d hd
    rcases List.mem_append.1 hd with hd | hd
    · rcases List.mem_cons.1 hd with rfl | hd
      · decide
      · obtain ⟨digit, hdigit, rfl⟩ := exists_eq_digitChar (by decide) hd
        exact digitChar_plain digit hdigit
    · rw [List.mem_singleton.1 hd]
      decide
  exact (Chunk.StandsFor.unknown (by decide) (by decide)).append (.raws hplain)

/-- What a character is shown as stands for what the language reads in it. -/
theorem standsFor_escape (c : Char) : Chunk.StandsFor (escape c) (reread c) := by
  -- the cases are those of `escape`, in the same order
  by_cases hnamed : c ∈ Chunk.escapes.map Prod.snd
  · obtain ⟨⟨letter, d⟩, hmem, rfl⟩ := List.mem_map.1 hnamed
    rw [reread, if_pos (.inl hnamed), escape_of_mem_escapes hmem]
    exact .known hmem
  by_cases hnull : c.toNat = 0
  · have hback : ¬ ReadsBack c := by simp [ReadsBack, hnamed, hnull]
    rw [reread, if_neg hback, escape_of_notMem_escapes hnamed, if_pos hnull]
    exact .unknown (by decide) (by decide)
  by_cases hform : extendsGrapheme c || !isPrintable c
  · have hback : ¬ ReadsBack c := by
      rintro (hmem | ⟨-, hextends, hprintable⟩)
      · exact hnamed hmem
      · simp [hextends, hprintable] at hform
    rw [reread, if_neg hback, escape_of_notMem_escapes hnamed, if_neg hnull, if_pos hform]
    exact standsFor_codePoint c.toNat
  · have hplain : extendsGrapheme c = false ∧ isPrintable c = true := by simpa using hform
    rw [reread, if_pos (.inr ⟨hnull, hplain⟩), escape_of_notMem_escapes hnamed, if_neg hnull,
      if_neg hform]
    have hne (d : Char) (hd : d ∈ Chunk.escapes.map Prod.snd) : c ≠ d := fun h => hnamed (h ▸ hd)
    exact .raw (hne _ (by decide)) (hne _ (by decide)) (hne _ (by decide))

/-- What reads back as something else is shown by an escape. -/
theorem exists_escape_eq_cons {c : Char} (h : ¬ ReadsBack c) : ∃ rest, escape c = '\\' :: rest := by
  rw [escape_of_notMem_escapes fun hnamed => h (.inl hnamed)]
  split_ifs with hnull hform
  · exact ⟨_, rfl⟩
  · exact ⟨_, rfl⟩
  · exact absurd (.inr ⟨hnull, by simpa using hform⟩) h

/-- A text is read as it is shown just if all its characters are. -/
theorem flatMap_reread_eq_self_iff {s : List Char} :
    s.flatMap reread = s ↔ ∀ c ∈ s, ReadsBack c := by
  induction s with
  | nil => simp
  | cons c s ih =>
    rw [List.flatMap_cons, List.forall_mem_cons, reread]
    by_cases hback : ReadsBack c
    · rw [if_pos hback, List.singleton_append, List.cons_inj_right, ih]
      exact (and_iff_right hback).symm
    · rw [if_neg hback]
      refine iff_of_false (fun h => hback ?_) fun h => hback h.1
      -- the backslash itself reads back
      obtain ⟨rest, hescape⟩ := exists_escape_eq_cons hback
      rw [hescape, List.cons_append, List.cons.injEq] at h
      rw [← h.1]
      decide

end Quoted

namespace TokenKind

variable {kind : TokenKind} {text : List Char}

/-- If it is a string, each of its characters is shown in a form that is read as this character. -/
def ReadsBack (kind : TokenKind) : Prop :=
  ∀ value, kind = .string value → ∀ c ∈ value.toList, Quoted.ReadsBack c

/-- What the language reads in the form in which a kind is shown. -/
def reread : TokenKind → TokenKind
  | .string value => .string (.ofList (value.toList.flatMap Quoted.reread))
  | kind => kind

theorem reread_eq_self_iff : kind.reread = kind ↔ kind.ReadsBack := by
  cases kind with
  | string value =>
    rw [reread, string.injEq, ← String.toList_inj, String.toList_ofList,
      Quoted.flatMap_reread_eq_self_iff]
    exact ⟨fun h _ heq => string.inj heq ▸ h, fun h => h value rfl⟩
  | keyword | identifier | number | punctuator => exact iff_of_true rfl nofun

/-- All but strings are written in one way, and shown in it. -/
theorem WrittenAs.toList_text (h : kind.WrittenAs text) (hstring : ∀ value, kind ≠ .string value) :
    kind.text.toList = text := by
  obtain ⟨rule, hmem, hmeaning⟩ := h
  -- the rule of the lexeme decides how its kind keeps the text
  match rule, hmem with
  | .blank, _ | .comment, _ | .malformedNumber, _ => cases hmeaning
  | .unrecognized, hmem => exact absurd hmem (Language.notMem_zero _)
  | .word, _ =>
    cases hword : Keyword.ofString? (.ofList text) with
    | none =>
      obtain rfl : TokenKind.identifier (.ofList text) = kind := by
        simpa [Chunk.meaning, hword] using hmeaning
      exact String.toList_ofList
    | some k =>
      obtain rfl : TokenKind.keyword k = kind := by
        simpa [Chunk.meaning, hword] using hmeaning
      rw [TokenKind.text, Keyword.text_of_ofString? hword, String.toList_ofList]
  | .number, _ =>
    cases hmeaning
    exact String.toList_ofList
  | .string body, ⟨hbody, _⟩ =>
    obtain ⟨value, hvalue⟩ := Chunk.exists_unescape?_eq_some hbody
    obtain rfl : TokenKind.string (.ofList value) = kind := by
      simpa [Chunk.meaning, hvalue] using hmeaning
    exact absurd rfl (hstring _)
  | .punctuator p, hmem =>
    cases hmeaning
    exact (Set.mem_singleton_iff.1 hmem).symm

/-- What a kind is shown as is a way of writing what is read in it. -/
theorem writtenAs_text (h : kind.WrittenAs text) : kind.reread.WrittenAs kind.text.toList := by
  by_cases hstring : ∃ value, kind = .string value
  · obtain ⟨value, rfl⟩ := hstring
    rw [TokenKind.text, Quoted.quote, String.toList_ofList]
    exact (Chunk.StandsFor.flatMap Quoted.standsFor_escape value.toList).writtenAs
  · have hother : ∀ value, kind ≠ .string value := fun value hvalue => hstring ⟨value, hvalue⟩
    have hreread : kind.reread = kind :=
      reread_eq_self_iff.2 fun value hvalue => absurd hvalue (hother value)
    rwa [hreread, h.toList_text hother]

end TokenKind

namespace Lexing

/-- Tokens are shown in source form, but for some strings. What is shown for a token of a source is
lexed as one token, and nothing is reported. This token has the kind that was shown, with its value,
if the kind is no string, and otherwise just if every character of the value reads back: it is a
quote, a backslash, a tab, a carriage return or a line feed, or it is shown as it is. -/
theorem ofSource_text {source : String} {token : Token} (h : token ∈ (ofSource source).tokens) :
    let shown := token.kind.text
    ofSource shown = ⟨[⟨token.kind.reread, shown, 1, ⟨0, shown.utf8ByteSize⟩⟩], []⟩ ∧
      (token.kind.reread = token.kind ↔ token.kind.ReadsBack) :=
  ⟨(TokenKind.writtenAs_text (writtenAs_of_mem_tokens h)).ofSource_eq, TokenKind.reread_eq_self_iff⟩

/-- A null character is shown as a backslash and a zero, and this is what is read. -/
theorem ofSource_text_null :
    let token : Token := ⟨.string "\x00", "\"\x00\"", 1, ⟨0, 3⟩⟩
    token ∈ (ofSource "\"\x00\"").tokens ∧ token.kind.text = "\"\\0\"" ∧
      ofSource "\"\\0\"" = ⟨[⟨.string "\\0", "\"\\0\"", 1, ⟨0, 4⟩⟩], []⟩ ∧
      token.kind.reread ≠ token.kind := by
  intro token
  have htokens : (ofSource "\"\x00\"").tokens = [token] := by decide +kernel
  have hmem : token ∈ (ofSource "\"\x00\"").tokens := htokens ▸ List.mem_singleton_self token
  obtain ⟨hlexed, hback⟩ := ofSource_text hmem
  refine ⟨hmem, by decide, hlexed, fun heq => ?_⟩
  exact absurd (hback.1 heq "\x00" rfl '\x00' (by decide)) (by decide)

end Lexing

end CrudLang
