import CrudLang.Token.Chunk
import Mathlib.Computability.Language
import Mathlib.Data.List.TakeWhile

/-!
# Lexemes

Each class of lexemes is a language over the characters, written as a regular expression:
`ChunkKind.lexemes`. `Chunk.Munches` says what the longest match is at the head of a text, and what
is taken where no lexeme matches. It says so without naming an order in which rules are tried, so
it leaves room for one chunk only if no text belongs to two classes.

`Chunk.munches_cut` is the result: the rule that the first character chooses takes the longest
match.
-/

namespace CrudLang

open Computability

/-- The texts that consist of one character with a property. -/
def oneOf (p : Char → Bool) : Language Char :=
  {s | ∃ c, p c ∧ s = [c]}

namespace Chunk

/-- Digits, at least one. -/
def digits : Language Char :=
  oneOf Char.isDigit * (oneOf Char.isDigit)∗

/-- An integer or a decimal fraction. -/
def number : Language Char :=
  digits * (1 + {['.']} * digits)

/-- A letter or an underscore, and letters, digits and underscores behind it. -/
def word : Language Char :=
  oneOf isWordStart * (oneOf isWordPart)∗

/-- An item of a string body. -/
def stringItem : Language Char :=
  oneOf (fun c => c ≠ '"' ∧ c ≠ '\\' ∧ c ≠ '\n') + {['\\']} * oneOf (· ≠ '\n')

end Chunk

/-- The texts of the lexemes of a class. -/
def ChunkKind.lexemes : ChunkKind → Language Char
  | .blank => oneOf Chunk.isBlank * (oneOf Chunk.isBlank)∗
  | .comment => {['/', '/']} * (oneOf (· ≠ '\n'))∗
  | .word => Chunk.word
  | .number => Chunk.number
  | .malformedNumber => Chunk.number * Chunk.word
  | .string body => {s | body ∈ Chunk.stringItem∗ ∧ s = '"' :: body ++ ['"']}
  | .punctuator p => {p.text.toList}
  | .unrecognized => 0

/-- The texts of all lexemes. -/
def lexemes : Language Char :=
  {s | ∃ kind : ChunkKind, s ∈ kind.lexemes}

/-- The longest text of a language at the head of a text. -/
structure IsLongestPrefix (l : Language Char) (s r : List Char) : Prop where
  mem : s ∈ l
  isPrefix : s <+: r
  length_le : ∀ t ∈ l, t <+: r → t.length ≤ s.length

/-- There is one longest text at most. -/
theorem IsLongestPrefix.unique {l : Language Char} {s t r : List Char} (hs : IsLongestPrefix l s r)
    (ht : IsLongestPrefix l t r) : s = t :=
  (List.prefix_of_prefix_length_le hs.isPrefix ht.isPrefix
    (ht.length_le s hs.mem hs.isPrefix)).eq_of_length_le (hs.length_le t ht.mem ht.isPrefix)

/-- What is taken from the head of a text: the longest lexeme; where there is none, an opening
quote with the items of a string body behind it, or else one character. -/
inductive Chunk.Munches : List Char → Chunk → Prop
  | lexeme {kind text r} : text ∈ kind.lexemes → IsLongestPrefix lexemes text r →
      Chunk.Munches r ⟨kind, text⟩
  | openString {body rest} : (∀ s ∈ lexemes, ¬s <+: '"' :: rest) →
      IsLongestPrefix stringItem∗ body rest →
      Chunk.Munches ('"' :: rest) ⟨.unrecognized, '"' :: body⟩
  | character {c rest} : (∀ s ∈ lexemes, ¬s <+: c :: rest) → c ≠ '"' →
      Chunk.Munches (c :: rest) ⟨.unrecognized, [c]⟩

section Languages

variable {p q : Char → Bool} {s t : List Char} {l : Language Char}

/-- A repetition goes on with one more text of the language in front. -/
theorem append_mem_kstar (hs : s ∈ l) (ht : t ∈ l∗) : s ++ t ∈ l∗ := by
  rw [← Language.one_add_self_mul_kstar_eq_kstar]
  exact .inr (Language.append_mem_mul hs ht)

/-- What holds of the empty text and is kept by one more text of the language in front holds of
every repetition. -/
theorem kstar_induction {motive : List Char → Prop} (nil : motive [])
    (append : ∀ s ∈ l, ∀ t, motive t → motive (s ++ t)) (hs : s ∈ l∗) : motive s := by
  obtain ⟨parts, rfl, hparts⟩ := Language.mem_kstar.1 hs
  clear hs
  induction parts with
  | nil => exact nil
  | cons part parts ih =>
    obtain ⟨hpart, hrest⟩ := List.forall_mem_cons.1 hparts
    exact append part hpart _ (ih hrest)

/-- A repetition of characters with a property is a text of such characters. -/
theorem mem_kstar_oneOf_iff : s ∈ (oneOf p)∗ ↔ ∀ c ∈ s, p c := by
  constructor
  · intro h
    refine kstar_induction (motive := fun s => ∀ c ∈ s, p c) (by simp) ?_ h
    rintro _ ⟨d, hd, rfl⟩ t ht
    exact List.forall_mem_cons.2 ⟨hd, ht⟩
  · intro h
    induction s with
    | nil => exact Language.nil_mem_kstar _
    | cons c s ih =>
      have hc : [c] ∈ oneOf p := ⟨c, h c List.mem_cons_self, rfl⟩
      exact append_mem_kstar hc (ih fun d hd => h d (List.mem_cons_of_mem c hd))

/-- One character with a property, and any number of characters with another one. -/
theorem mem_oneOf_mul_kstar_iff :
    s ∈ oneOf p * (oneOf q)∗ ↔ ∃ c t, s = c :: t ∧ p c ∧ ∀ d ∈ t, q d := by
  rw [Language.mem_mul]
  constructor
  · rintro ⟨_, ⟨c, hc, rfl⟩, t, ht, rfl⟩
    exact ⟨c, t, rfl, hc, mem_kstar_oneOf_iff.1 ht⟩
  · rintro ⟨c, t, rfl, hc, ht⟩
    exact ⟨[c], ⟨c, hc, rfl⟩, t, mem_kstar_oneOf_iff.2 ht, rfl⟩

end Languages

namespace Punctuator

/-- A punctuator is one sign that stands for it, or two. -/
theorem single?_or_pair? (p : Punctuator) :
    (∃ c, p.text.toList = [c] ∧ single? c = some p) ∨
      ∃ c d, p.text.toList = [c, d] ∧ pair? c d = some p := by
  cases p <;> first | exact .inl ⟨_, rfl, rfl⟩ | exact .inr ⟨_, _, rfl, rfl⟩

/-- A punctuator at the head of a text is found, or a longer one. -/
theorem exists_longest?_append (p : Punctuator) (u : List Char) :
    ∃ q more rest, longest? (p.text.toList ++ u) = some (q, rest) ∧
      q.text.toList = p.text.toList ++ more ∧ (u = [] → q = p) := by
  rcases p.single?_or_pair? with ⟨c, htext, hsingle⟩ | ⟨c, d, htext, hpair⟩
  · rw [htext]
    cases u with
    | nil => exact ⟨p, [], [], by simp [longest?, hsingle], by rw [htext, List.append_nil], by simp⟩
    | cons d v =>
      cases hpair : pair? c d with
      | none =>
        refine ⟨p, [], d :: v, by simp [longest?, hpair, hsingle], ?_, by simp⟩
        rw [htext, List.append_nil]
      | some q => exact ⟨q, [d], v, by simp [longest?, hpair], text_of_pair? hpair, by simp⟩
  · refine ⟨p, [], u, ?_, by rw [List.append_nil], fun _ => rfl⟩
    simp [htext, longest?, hpair]

/-- No other rule takes the signs that punctuators begin with. -/
theorem head_text (p : Punctuator) {c : Char} {s : List Char} (h : p.text.toList = c :: s) :
    Chunk.isBlank c = false ∧ Chunk.isWordStart c = false ∧ c.isDigit = false ∧ c ≠ '"' := by
  have hhead : p.text.toList.head? = some c := by rw [h, List.head?_cons]
  cases p <;> cases hhead <;> decide

end Punctuator

namespace Chunk

section Numbers

variable {s u : List Char} {c : Char}

theorem not_isDigit_of_isWordStart (h : isWordStart c) : c.isDigit = false ∧ c ≠ '.' := by
  constructor
  · delta isWordStart Char.isAlpha Char.isUpper Char.isLower Char.isDigit at *
    rcases eq_or_ne c '_' with rfl | hne
    · decide
    · grind
  · rintro rfl
    exact absurd h (by decide)

theorem mem_digits_iff : s ∈ digits ↔ s ≠ [] ∧ ∀ c ∈ s, c.isDigit := by
  rw [digits, mem_oneOf_mul_kstar_iff]
  cases s with
  | nil => simp
  | cons c t => simp

theorem mem_number_iff :
    s ∈ number ↔ s ∈ digits ∨ ∃ whole ∈ digits, ∃ fraction ∈ digits,
      s = whole ++ '.' :: fraction := by
  rw [number, Language.mem_mul]
  constructor
  · rintro ⟨whole, hwhole, _, rfl | ⟨_, rfl, fraction, hfraction, rfl⟩, rfl⟩
    · rw [List.append_nil]
      exact .inl hwhole
    · exact .inr ⟨whole, hwhole, fraction, hfraction, rfl⟩
  · rintro (h | ⟨whole, hwhole, fraction, hfraction, rfl⟩)
    · exact ⟨s, h, [], .inl rfl, List.append_nil s⟩
    · exact ⟨whole, hwhole, _, .inr ⟨['.'], rfl, fraction, hfraction, rfl⟩, rfl⟩

/-- A number begins with a digit. -/
theorem exists_isDigit_of_mem_number (h : s ∈ number) : ∃ c t, s = c :: t ∧ c.isDigit := by
  have hdigits {whole : List Char} (h : whole ∈ digits) : ∃ c t, whole = c :: t ∧ c.isDigit := by
    obtain ⟨hne, hall⟩ := mem_digits_iff.1 h
    obtain ⟨c, t, rfl⟩ := List.exists_cons_of_ne_nil hne
    exact ⟨c, t, rfl, hall c List.mem_cons_self⟩
  rcases mem_number_iff.1 h with h | ⟨whole, hwhole, fraction, _, rfl⟩
  · exact hdigits h
  · obtain ⟨c, t, rfl, hc⟩ := hdigits hwhole
    exact ⟨c, t ++ '.' :: fraction, rfl, hc⟩

/-- Digits in front of a text are taken along. -/
theorem splitNumber_digits_append (h : ∀ c ∈ s, c.isDigit) (u : List Char) :
    splitNumber (s ++ u) = (s ++ (splitNumber u).1, (splitNumber u).2) := by
  unfold splitNumber
  rw [List.takeWhile_append_of_pos h, List.dropWhile_append_of_pos h]
  split
  · rfl
  · split <;> simp

/-- A point is taken with the digits behind it. -/
theorem splitNumber_point_append (h : s ∈ digits) (u : List Char) :
    splitNumber ('.' :: s ++ u) = ('.' :: s ++ u.takeWhile Char.isDigit,
      u.dropWhile Char.isDigit) := by
  obtain ⟨hne, hall⟩ := mem_digits_iff.1 h
  have hpoint : Char.isDigit '.' = false := by decide
  have htaken : (s ++ u).takeWhile Char.isDigit ≠ [] := by
    rw [List.takeWhile_append_of_pos hall]
    exact List.append_ne_nil_of_left_ne_nil hne _
  unfold splitNumber
  simp only [List.cons_append, List.takeWhile_cons, List.dropWhile_cons, hpoint, true_and,
    Bool.false_eq_true, if_false, if_pos htaken]
  rw [List.takeWhile_append_of_pos hall, List.dropWhile_append_of_pos hall, List.nil_append]

/-- All of a number at the head of a text is taken. -/
theorem exists_splitNumber_append (h : s ∈ number) (u : List Char) :
    ∃ more, (splitNumber (s ++ u)).1 = s ++ more := by
  rcases mem_number_iff.1 h with h | ⟨whole, hwhole, fraction, hfraction, rfl⟩
  · exact ⟨(splitNumber u).1, by rw [splitNumber_digits_append (mem_digits_iff.1 h).2]⟩
  · refine ⟨u.takeWhile Char.isDigit, ?_⟩
    rw [List.append_assoc, splitNumber_digits_append (mem_digits_iff.1 hwhole).2,
      splitNumber_point_append hfraction, List.append_assoc]

/-- A number ends where its text ends or where neither a digit nor a point follows. -/
theorem splitNumber_append_of_stops (h : s ∈ number)
    (hu : ∀ c, u.head? = some c → c.isDigit = false ∧ c ≠ '.') :
    splitNumber (s ++ u) = (s, u) := by
  obtain ⟨hsplit, htake, hdrop⟩ : splitNumber u = ([], u) ∧ u.takeWhile Char.isDigit = [] ∧
      u.dropWhile Char.isDigit = u := by
    cases u with
    | nil => simp [splitNumber]
    | cons c v =>
      obtain ⟨hdigit, hpoint⟩ := hu c rfl
      simp [splitNumber, hdigit, hpoint]
  rcases mem_number_iff.1 h with h | ⟨whole, hwhole, fraction, hfraction, rfl⟩
  · rw [splitNumber_digits_append (mem_digits_iff.1 h).2, hsplit, List.append_nil]
  · rw [List.append_assoc, splitNumber_digits_append (mem_digits_iff.1 hwhole).2,
      splitNumber_point_append hfraction, htake, hdrop, List.append_nil]

/-- What is split off a text that begins with a digit is a number. -/
theorem splitNumber_mem (rest : List Char) (hc : c.isDigit) :
    (splitNumber (c :: rest)).1 ∈ number := by
  have hwhole : (c :: rest).takeWhile Char.isDigit ∈ digits :=
    mem_digits_iff.2 ⟨by simp [hc], fun d hd => List.mem_takeWhile_imp hd⟩
  unfold splitNumber
  split
  · exact mem_number_iff.2 (.inl hwhole)
  · split
    next h =>
      obtain ⟨rfl, hne⟩ := h
      exact mem_number_iff.2 (.inr ⟨_, hwhole, _,
        mem_digits_iff.2 ⟨hne, fun d hd => List.mem_takeWhile_imp hd⟩, rfl⟩)
    next => exact mem_number_iff.2 (.inl hwhole)

end Numbers

section Strings

variable {s : List Char}

/-- The items of a string body at the head of a text are taken. -/
theorem splitStringBody_append_of_mem (h : s ∈ stringItem∗) (u : List Char) :
    splitStringBody (s ++ u) = (s ++ (splitStringBody u).1, (splitStringBody u).2) := by
  refine kstar_induction (motive := fun s =>
    splitStringBody (s ++ u) = (s ++ (splitStringBody u).1, (splitStringBody u).2)) rfl ?_ h
  intro item hitem s ih
  rw [List.append_assoc]
  rcases hitem with ⟨c, hc, rfl⟩ | ⟨_, rfl, _, ⟨d, hd, rfl⟩, rfl⟩
  · simp only [decide_eq_true_eq] at hc
    rw [List.singleton_append, splitStringBody.eq_def]
    simp [hc, ih]
  · simp only [decide_eq_true_eq] at hd
    simp [splitStringBody, hd, ih]

/-- What is split off a text consists of items of a string body. -/
theorem splitStringBody_mem (s : List Char) : (splitStringBody s).1 ∈ stringItem∗ := by
  fun_induction splitStringBody s with
  | case1 | case2 | case3 | case5 => exact Language.nil_mem_kstar _
  | case4 d rest hd ih =>
    exact append_mem_kstar (.inr ⟨['\\'], rfl, [d], ⟨d, by simpa using hd, rfl⟩, rfl⟩) ih
  | case6 c rest hbackslash hend ih =>
    exact append_mem_kstar (.inl ⟨c, by simp_all, rfl⟩) ih

end Strings

section Cutting

variable {c : Char} {rest s u : List Char}

theorem cut_of_isBlank (hc : isBlank c) :
    cut c rest = (⟨.blank, c :: rest.takeWhile isBlank⟩, rest.dropWhile isBlank) :=
  if_pos hc

theorem cut_slashes :
    cut '/' ('/' :: rest) =
      (⟨.comment, '/' :: '/' :: rest.takeWhile (· ≠ '\n')⟩, rest.dropWhile (· ≠ '\n')) := by
  simp [cut, show isBlank '/' = false by decide]

theorem not_isBlank_of_isWordPart (hc : isWordPart c) : isBlank c = false ∧ c ≠ '/' := by
  refine ⟨Bool.eq_false_iff.2 fun hblank => ?_, ?_⟩
  · simp only [isBlank, Bool.or_eq_true, decide_eq_true_eq] at hblank
    rcases hblank with (((rfl | rfl) | rfl) | rfl) | rfl <;> exact absurd hc (by decide)
  · rintro rfl
    exact absurd hc (by decide)

theorem isWordPart_of_isWordStart (hc : isWordStart c) : isWordPart c := by
  simp only [isWordStart, isWordPart, Char.isAlphanum, Bool.or_eq_true] at hc ⊢
  rcases hc with hc | hc
  · exact .inl (.inl hc)
  · exact .inr hc

theorem cut_of_isWordStart (hc : isWordStart c) :
    cut c rest = (⟨.word, c :: rest.takeWhile isWordPart⟩, rest.dropWhile isWordPart) := by
  obtain ⟨hblank, hslash⟩ := not_isBlank_of_isWordPart (isWordPart_of_isWordStart hc)
  simp [cut, hblank, hslash, hc]

theorem cut_of_isDigit (hc : c.isDigit) : cut c rest = cutNumber (c :: rest) := by
  have hpart : isWordPart c := by simp [isWordPart, Char.isAlphanum, hc]
  obtain ⟨hblank, hslash⟩ := not_isBlank_of_isWordPart hpart
  have hstart : isWordStart c = false :=
    Bool.eq_false_iff.2 fun hstart => by simp [(not_isDigit_of_isWordStart hstart).1] at hc
  simp [cut, hblank, hslash, hstart, hc]

theorem cut_quote : cut '"' rest = cutString rest := by
  simp [cut, show isBlank '"' = false by decide, show isWordStart '"' = false by decide,
    show Char.isDigit '"' = false by decide]

/-- A number at the head of a text is taken, as a malformed one if a word follows. -/
theorem exists_cutNumber_append (h : s ∈ number) (u : List Char) :
    ∃ kind more, (cutNumber (s ++ u)).1 = ⟨kind, s ++ more⟩ ∧ kind ≠ .unrecognized := by
  obtain ⟨more, hmore⟩ := exists_splitNumber_append h u
  unfold cutNumber
  rw [hmore]
  split
  · exact ⟨.number, more, rfl, by decide⟩
  · split
    · exact ⟨.malformedNumber, more ++ _, by rw [List.append_assoc], by decide⟩
    · exact ⟨.number, more, rfl, by decide⟩

/-- A number is malformed if a word follows, and the word is part of it. -/
theorem cutNumber_append_word {n w : List Char} (hn : n ∈ number) (hw : w ∈ word) (u : List Char) :
    (cutNumber (n ++ w ++ u)).1 = ⟨.malformedNumber, n ++ w ++ u.takeWhile isWordPart⟩ := by
  obtain ⟨c, v, rfl, hc, hv⟩ := mem_oneOf_mul_kstar_iff.1 hw
  have hall : ∀ d ∈ c :: v, isWordPart d :=
    List.forall_mem_cons.2 ⟨isWordPart_of_isWordStart hc, hv⟩
  have hsplit : splitNumber (n ++ (c :: v ++ u)) = (n, c :: v ++ u) :=
    splitNumber_append_of_stops hn fun d hd =>
      not_isDigit_of_isWordStart (by rwa [← Option.some.inj hd])
  have htake : (c :: (v ++ u)).takeWhile isWordPart = c :: (v ++ u.takeWhile isWordPart) :=
    List.takeWhile_append_of_pos hall
  rw [List.append_assoc, cutNumber, hsplit]
  simp only [List.cons_append, hc, if_true]
  rw [htake, List.append_assoc, List.cons_append]

/-- A string body is closed by the quote behind it. -/
theorem cutString_append_quote {body : List Char} (hbody : body ∈ stringItem∗) (u : List Char) :
    (cutString (body ++ '"' :: u)).1 = ⟨.string body, '"' :: body ++ ['"']⟩ := by
  have hquote : splitStringBody ('"' :: u) = ([], '"' :: u) := by
    rw [splitStringBody.eq_def]
    simp
  rw [cutString, splitStringBody_append_of_mem hbody, hquote]
  simp

/-- What is taken from a text that begins with a digit is a number or a malformed one. -/
theorem cutNumber_mem (rest : List Char) (hc : c.isDigit) :
    (cutNumber (c :: rest)).1.text ∈ (cutNumber (c :: rest)).1.kind.lexemes := by
  have hnumber := splitNumber_mem rest hc
  unfold cutNumber
  split
  · exact hnumber
  · split
    next d more _ hd =>
      have hword : (d :: more).takeWhile isWordPart ∈ word := by
        rw [List.takeWhile_cons_of_pos (isWordPart_of_isWordStart hd)]
        exact mem_oneOf_mul_kstar_iff.2 ⟨d, _, rfl, hd, fun _ hd => List.mem_takeWhile_imp hd⟩
      exact Language.append_mem_mul hnumber hword
    next => exact hnumber

/-- What is taken behind a quote is a complete string, or the items of its body. -/
theorem cutString_cases (rest : List Char) :
    (cutString rest).1.text ∈ (cutString rest).1.kind.lexemes ∨
      (cutString rest).1 = ⟨.unrecognized, '"' :: (splitStringBody rest).1⟩ := by
  unfold cutString
  split
  · exact .inr rfl
  · split
    · exact .inl ⟨splitStringBody_mem rest, rfl⟩
    · exact .inr rfl

/-- A punctuator at the head of a text is taken, or a longer lexeme that it begins. -/
theorem exists_cut_punctuator {p : Punctuator} (h : p.text.toList = c :: s) (u : List Char) :
    ∃ kind more, (cut c (s ++ u)).1 = ⟨kind, c :: s ++ more⟩ ∧ kind ≠ .unrecognized ∧
      (u = [] → kind = .punctuator p) := by
  obtain ⟨hblank, hstart, hdigit, hquote⟩ := p.head_text h
  obtain ⟨q, more, rest, hlongest, htext, hself⟩ := p.exists_longest?_append u
  rw [h, List.cons_append] at hlongest
  by_cases hcomment : c = '/' ∧ (s ++ u).head? = some '/'
  · obtain ⟨rfl, hhead⟩ := hcomment
    obtain ⟨v, hv⟩ := List.head?_eq_some_iff.1 hhead
    -- only the slash alone begins with a slash
    have hs : s = [] := by cases p <;> simp_all [Punctuator.text]
    rw [hv, cut_slashes, hs]
    refine ⟨.comment, '/' :: v.takeWhile (· ≠ '\n'), rfl, by decide, ?_⟩
    rintro rfl
    simp [hs] at hv
  · refine ⟨.punctuator q, more, ?_, by simp, fun hu => congrArg _ (hself hu)⟩
    rw [← h, ← htext]
    simp only [cut, hblank, hstart, hdigit, hquote, hlongest, if_neg hcomment,
      Bool.false_eq_true, if_false]

/-- A lexeme at the head of a text is taken, with more text behind it or without; it is taken for
what it is if nothing follows. -/
theorem exists_cut_append {kind : ChunkKind} (h : c :: s ∈ kind.lexemes) (u : List Char) :
    ∃ kind' more, (cut c (s ++ u)).1 = ⟨kind', c :: s ++ more⟩ ∧ kind' ≠ .unrecognized ∧
      (u = [] → kind' = kind) := by
  -- the first character chooses the rule, and the rule takes the lexeme and what continues it
  match kind, h with
  | .blank, h =>
    obtain ⟨d, t, heq, hd, ht⟩ := mem_oneOf_mul_kstar_iff.1 h
    obtain ⟨rfl, rfl⟩ := List.cons.inj heq
    refine ⟨.blank, u.takeWhile isBlank, ?_, by decide, fun _ => rfl⟩
    rw [cut_of_isBlank hd, List.takeWhile_append_of_pos ht, List.cons_append]
  | .comment, ⟨_, rfl, t, ht, heq⟩ =>
    obtain ⟨rfl, hs : '/' :: t = s⟩ := List.cons.inj heq
    subst hs
    have hline := mem_kstar_oneOf_iff.1 ht
    refine ⟨.comment, u.takeWhile (· ≠ '\n'), ?_, by decide, fun _ => rfl⟩
    rw [List.cons_append, cut_slashes, List.takeWhile_append_of_pos hline]
    rfl
  | .word, h =>
    obtain ⟨d, t, heq, hd, ht⟩ := mem_oneOf_mul_kstar_iff.1 h
    obtain ⟨rfl, rfl⟩ := List.cons.inj heq
    refine ⟨.word, u.takeWhile isWordPart, ?_, by decide, fun _ => rfl⟩
    rw [cut_of_isWordStart hd, List.takeWhile_append_of_pos ht, List.cons_append]
  | .number, h =>
    obtain ⟨d, t, heq, hd⟩ := exists_isDigit_of_mem_number h
    obtain ⟨rfl, rfl⟩ := List.cons.inj heq
    obtain ⟨kind, more, hcut, hkind⟩ := exists_cutNumber_append h u
    refine ⟨kind, more, by rw [cut_of_isDigit hd]; exact hcut, hkind, ?_⟩
    rintro rfl
    have halone := splitNumber_append_of_stops h (u := []) (by simp)
    rw [cutNumber, halone] at hcut
    exact (congrArg Chunk.kind hcut).symm
  | .malformedNumber, ⟨n, hn, w, hw, heq⟩ =>
    obtain ⟨d, t, rfl, hd⟩ := exists_isDigit_of_mem_number hn
    obtain ⟨rfl, hs : t ++ w = s⟩ := List.cons.inj heq
    subst hs
    refine ⟨.malformedNumber, u.takeWhile isWordPart, ?_, by decide, fun _ => rfl⟩
    rw [cut_of_isDigit hd]
    exact cutNumber_append_word hn hw u
  | .string body, ⟨hbody, heq⟩ =>
    obtain ⟨rfl, hs : s = body ++ ['"']⟩ := List.cons.inj heq
    subst hs
    refine ⟨.string body, [], ?_, by simp, fun _ => rfl⟩
    rw [cut_quote, List.append_assoc, List.append_nil]
    exact cutString_append_quote hbody u
  | .punctuator _, h => exact exists_cut_punctuator (Set.mem_singleton_iff.1 h).symm u
  | .unrecognized, h => exact absurd h (Language.notMem_zero _)

/-- Every lexeme has a character. -/
theorem ne_nil_of_mem_lexemes {kind : ChunkKind} (h : s ∈ kind.lexemes) : s ≠ [] := by
  rintro rfl
  match kind, h with
  | .blank, h | .word, h =>
    obtain ⟨_, _, heq, _⟩ := mem_oneOf_mul_kstar_iff.1 h
    cases heq
  | .comment, ⟨_, rfl, _, _, heq⟩ => cases heq
  | .number, h =>
    obtain ⟨_, _, heq, _⟩ := exists_isDigit_of_mem_number h
    cases heq
  | .malformedNumber, ⟨_, hn, _, _, heq⟩ =>
    obtain ⟨_, _, rfl, _⟩ := exists_isDigit_of_mem_number hn
    cases heq
  | .string _, ⟨_, heq⟩ => cases heq
  | .punctuator p, h => cases p <;> cases h

/-- A text belongs to one class of lexemes only. -/
theorem kind_eq_of_mem_lexemes {kind kind' : ChunkKind} (h : s ∈ kind.lexemes)
    (h' : s ∈ kind'.lexemes) : kind = kind' := by
  obtain ⟨c, t, rfl⟩ := List.exists_cons_of_ne_nil (ne_nil_of_mem_lexemes h)
  obtain ⟨taken, _, hcut, _, hkind⟩ := exists_cut_append h []
  obtain ⟨taken', _, hcut', _, hkind'⟩ := exists_cut_append h' []
  rw [← hkind rfl, ← hkind' rfl]
  exact congrArg Chunk.kind (hcut.symm.trans hcut')

/-- What is taken as a lexeme is one of its class. -/
theorem cut_cases (c : Char) (rest : List Char) :
    (cut c rest).1.text ∈ (cut c rest).1.kind.lexemes ∨
      c = '"' ∧ (cut c rest).1 = ⟨.unrecognized, '"' :: (splitStringBody rest).1⟩ ∨
      c ≠ '"' ∧ (cut c rest).1 = ⟨.unrecognized, [c]⟩ := by
  -- the cases are the rules, in the order in which they are tried
  by_cases hblank : isBlank c
  · rw [cut_of_isBlank hblank]
    exact .inl (mem_oneOf_mul_kstar_iff.2
      ⟨c, _, rfl, hblank, fun _ hd => List.mem_takeWhile_imp hd⟩)
  by_cases hcomment : c = '/' ∧ rest.head? = some '/'
  · obtain ⟨rfl, hhead⟩ := hcomment
    obtain ⟨line, rfl⟩ := List.head?_eq_some_iff.1 hhead
    rw [cut_slashes]
    have hline : line.takeWhile (· ≠ '\n') ∈ (oneOf (· ≠ '\n'))∗ :=
      mem_kstar_oneOf_iff.2 fun d hd =>
        List.mem_takeWhile_imp (p := fun d => decide (d ≠ '\n')) hd
    exact .inl ⟨['/', '/'], rfl, _, hline, rfl⟩
  by_cases hword : isWordStart c
  · rw [cut_of_isWordStart hword]
    exact .inl (mem_oneOf_mul_kstar_iff.2 ⟨c, _, rfl, hword, fun _ hd => List.mem_takeWhile_imp hd⟩)
  by_cases hdigit : c.isDigit
  · rw [cut_of_isDigit hdigit]
    exact .inl (cutNumber_mem rest hdigit)
  by_cases hquote : c = '"'
  · subst hquote
    rw [cut_quote]
    exact (cutString_cases rest).imp_right fun h => .inl ⟨rfl, h⟩
  · simp only [cut, hblank, hcomment, hword, hdigit, hquote, if_false]
    cases hlongest : Punctuator.longest? (c :: rest) with
    | some found => exact .inl rfl
    | none => exact .inr (.inr ⟨hquote, rfl⟩)

/-- Where a lexeme stands at the head of a text, it is taken, or more than it. -/
theorem prefix_cut_of_mem_lexemes {rest : List Char} (hs : s ∈ lexemes) (h : s <+: c :: rest) :
    s <+: (cut c rest).1.text ∧ (cut c rest).1.kind ≠ .unrecognized := by
  obtain ⟨kind, hs⟩ := hs
  obtain ⟨d, t, rfl⟩ := List.exists_cons_of_ne_nil (ne_nil_of_mem_lexemes hs)
  obtain ⟨u, hu⟩ := h
  obtain ⟨rfl, rfl⟩ := List.cons.inj hu
  obtain ⟨kind', more, hcut, hkind, -⟩ := exists_cut_append hs u
  rw [List.append_eq, hcut]
  exact ⟨List.prefix_append _ _, hkind⟩

/-- At the head of a text the longest match is taken. -/
theorem munches_cut (c : Char) (rest : List Char) : Munches (c :: rest) (cut c rest).1 := by
  rcases cut_cases c rest with hmem | ⟨rfl, hcut⟩ | ⟨hquote, hcut⟩
  · exact .lexeme hmem ⟨⟨_, hmem⟩, ⟨_, cut_append c rest⟩, fun t ht hbegins =>
      (prefix_cut_of_mem_lexemes ht hbegins).1.length_le⟩
  · have hnone (t : List Char) (ht : t ∈ lexemes) : ¬t <+: '"' :: rest := fun hbegins =>
      (prefix_cut_of_mem_lexemes ht hbegins).2 (by rw [hcut])
    rw [hcut]
    -- the items that are taken are all that a longer run could be made of
    refine .openString hnone ⟨splitStringBody_mem rest, ⟨_, splitStringBody_append rest⟩, ?_⟩
    rintro body hbody ⟨u, rfl⟩
    rw [splitStringBody_append_of_mem hbody, List.length_append]
    exact Nat.le_add_right _ _
  · have hnone (t : List Char) (ht : t ∈ lexemes) : ¬t <+: c :: rest := fun hbegins =>
      (prefix_cut_of_mem_lexemes ht hbegins).2 (by rw [hcut])
    rw [hcut]
    exact .character hnone hquote

/-- The text determines what is taken from its head. -/
theorem Munches.unique {r : List Char} {a b : Chunk} (ha : Munches r a) (hb : Munches r b) :
    a = b := by
  -- where a lexeme is taken by one, the other may not say that there is none
  cases ha with
  | lexeme hmem htext =>
    cases hb with
    | lexeme hmem' htext' =>
      obtain rfl := htext.unique htext'
      rw [kind_eq_of_mem_lexemes hmem hmem']
    | openString hnone => exact absurd htext.isPrefix (hnone _ htext.mem)
    | character hnone => exact absurd htext.isPrefix (hnone _ htext.mem)
  | openString hnone hbody =>
    cases hb with
    | lexeme _ htext' => exact absurd htext'.isPrefix (hnone _ htext'.mem)
    | openString _ hbody' => rw [hbody.unique hbody']
    | character _ hquote => exact absurd rfl hquote
  | character hnone hquote =>
    cases hb with
    | lexeme _ htext' => exact absurd htext'.isPrefix (hnone _ htext'.mem)
    | openString => exact absurd rfl hquote
    | character => rfl

end Cutting

end Chunk

end CrudLang
