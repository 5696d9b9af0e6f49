import CrudLang.Proofs.Token.MaximalMunch

/-!
# What stands behind a lexeme

A chunk ends where the next character does not continue it. So a chunk that is a token ends at the
same place if something else follows that continues it no more (`Chunk.cut_append_of_stops`): a
blank, or the same character as before. A point is left out, since behind digits it is the digits
behind the point that matter. A line feed is part of no chunk but a blank one
(`Chunk.Munches.newline_notMem`).
-/

namespace CrudLang

open Computability

namespace Chunk

section Neighbours

variable {c d : Char} {s after after' : List Char}

/-- The chunk is a token. -/
def IsToken (chunk : Chunk) : Prop :=
  ∃ kind, chunk.meaning = .token kind

/-- What stands behind a lexeme continues it no more than what stood there before: it begins with a
blank, or with the same character and that is no point. -/
def Stops (after after' : List Char) : Prop :=
  ∀ d, after'.head? = some d → isBlank d ∨ after.head? = some d ∧ d ≠ '.'

/-- A blank is none of the characters that continue a lexeme. -/
theorem of_isBlank (h : isBlank d) :
    isWordPart d = false ∧ d.isDigit = false ∧ d ≠ '.' ∧ d ≠ '/' ∧
      ∀ c, Punctuator.pair? c d = none := by
  simp only [isBlank, Bool.or_eq_true, decide_eq_true_eq] at h
  have hpair (c : Char) : Punctuator.pair? c d = none := by
    unfold Punctuator.pair?
    split
    · simp at h
    · simp at h
    · simp at h
    · simp at h
    · simp at h
    · simp at h
    · rfl
  rcases h with (((rfl | rfl) | rfl) | rfl) | rfl <;>
    exact ⟨by decide, by decide, by decide, by decide, hpair⟩

/-- A run of characters ends where it ended before. -/
theorem takeWhile_of_stops {p : Char → Bool} (hblank : ∀ d, isBlank d → p d = false)
    (hhead : ∀ d, after.head? = some d → p d = false) (h : Stops after after') :
    after'.takeWhile p = [] ∧ after'.dropWhile p = after' := by
  cases after' with
  | nil => exact ⟨rfl, rfl⟩
  | cons d u =>
    have hd : p d = false := (h d rfl).elim (hblank d) fun hsame => hhead d hsame.1
    exact ⟨by rw [List.takeWhile_cons, hd]; rfl, by rw [List.dropWhile_cons, hd]; rfl⟩

/-- A dropped run of characters ends before a character of another sort. -/
theorem eq_false_of_head?_dropWhile {p : Char → Bool} (h : (s.dropWhile p).head? = some d) :
    p d = false := by
  have hnot := List.head?_dropWhile_not p s
  rwa [h] at hnot

/-- No digit follows the number that is split off. -/
theorem not_isDigit_of_splitNumber (h : (splitNumber s).2.head? = some d) : d.isDigit = false := by
  unfold splitNumber at h
  split at h
  next => cases h
  next point rest hdrop =>
    split at h
    · exact eq_false_of_head?_dropWhile h
    · exact eq_false_of_head?_dropWhile (s := s) (by rw [hdrop]; exact h)

/-- The text behind a chunk is what the chunk leaves of the text. -/
theorem cut_eq_of_fst {kind : ChunkKind} (h : (cut c (s ++ after)).1 = ⟨kind, c :: s⟩) :
    cut c (s ++ after) = (⟨kind, c :: s⟩, after) := by
  have happend := cut_append c (s ++ after)
  rw [h, ← List.cons_append] at happend
  exact Prod.ext h (List.append_cancel_left happend)

theorem cutNumber_append_of_stops (hcut : cutNumber (s ++ after) = (⟨.number, s⟩, after))
    (hs : s ∈ number) (h : Stops after after') : (cutNumber (s ++ after')).1 = ⟨.number, s⟩ := by
  -- behind the number stands neither a digit nor a word
  have hsplit : (splitNumber (s ++ after)).2 = after ∧
      ∀ d, after.head? = some d → isWordStart d = false := by
    unfold cutNumber at hcut
    split at hcut
    next hrest =>
      obtain ⟨-, rfl⟩ := Prod.mk.inj hcut
      exact ⟨hrest, fun d hd => by simp at hd⟩
    next e more hrest =>
      split at hcut
      · simp at hcut
      next hword =>
        obtain ⟨-, rfl⟩ := Prod.mk.inj hcut
        refine ⟨hrest, fun d hd => ?_⟩
        obtain rfl := Option.some.inj hd
        exact Bool.eq_false_iff.2 hword
  have hhead (d : Char) (hd : after'.head? = some d) :
      d.isDigit = false ∧ d ≠ '.' ∧ isWordStart d = false := by
    rcases h d hd with hblank | ⟨hsame, hpoint⟩
    · obtain ⟨hword, hdigit, hpoint, -⟩ := of_isBlank hblank
      refine ⟨hdigit, hpoint, Bool.eq_false_iff.2 fun hstart => ?_⟩
      rw [isWordPart_of_isWordStart hstart] at hword
      cases hword
    · exact ⟨not_isDigit_of_splitNumber (by rw [hsplit.1]; exact hsame), hpoint, hsplit.2 d hsame⟩
  have hsplit' : splitNumber (s ++ after') = (s, after') :=
    splitNumber_append_of_stops hs fun d hd => ⟨(hhead d hd).1, (hhead d hd).2.1⟩
  unfold cutNumber
  rw [hsplit']
  cases after' with
  | nil => rfl
  | cons d u => simp [(hhead d rfl).2.2]

/-- A punctuator that is written with one sign is formed by it. -/
theorem single?_of_text {p : Punctuator} (hp : p.text.toList = [c]) :
    Punctuator.single? c = some p := by
  rcases p.single?_or_pair? with ⟨e, htext, hsingle⟩ | ⟨e, f, htext, -⟩
  · rw [htext] at hp
    obtain rfl : e = c := by simpa using hp
    exact hsingle
  · rw [htext] at hp
    simp at hp

/-- Behind a sign that is taken alone nothing stands that forms a pair with it. -/
theorem pair?_eq_none_of_stops {p : Punctuator} {u : List Char}
    (hlongest : Punctuator.longest? (c :: after) = some (p, after))
    (h : Stops after (d :: u)) : Punctuator.pair? c d = none := by
  rcases h d rfl with hblank | ⟨hsame, -⟩
  · exact (of_isBlank hblank).2.2.2.2 c
  · obtain ⟨v, rfl⟩ := List.head?_eq_some_iff.1 hsame
    rw [Punctuator.longest?] at hlongest
    cases hq : Punctuator.pair? c d with
    | none => rfl
    | some q =>
      -- a pair would have left less behind
      rw [hq] at hlongest
      have hlength := congrArg (fun r => r.map fun r => r.2.length) hlongest
      simp at hlength

/-- A punctuator at the head of a text is taken again. -/
theorem longest?_append_of_stops {p : Punctuator} (hs : p.text.toList = c :: s)
    (hlongest : Punctuator.longest? (c :: (s ++ after)) = some (p, after))
    (h : Stops after after') : Punctuator.longest? (c :: (s ++ after')) = some (p, after') := by
  cases s with
  | cons d s =>
    -- both signs of the pair are part of the lexeme
    simp only [List.cons_append, Punctuator.longest?] at hlongest ⊢
    split at hlongest
    next q hq =>
      obtain ⟨rfl, happ⟩ := Prod.mk.inj (Option.some.inj hlongest)
      have htext := Punctuator.text_of_pair? hq
      rw [hs] at htext
      obtain rfl : s = [] := by simpa using htext
      rfl
    next hq =>
      simp only [Option.map_eq_some_iff, Prod.mk.injEq] at hlongest
      obtain ⟨q, hq, rfl, -⟩ := hlongest
      rw [Punctuator.text_of_single? hq] at hs
      simp at hs
  | nil =>
    have hsingle := single?_of_text hs
    cases after' with
    | nil => simp [Punctuator.longest?, hsingle]
    | cons d u =>
      have hpair := pair?_eq_none_of_stops hlongest h
      simp [Punctuator.longest?, hpair, hsingle]

theorem cutNumber_kind (s : List Char) :
    (cutNumber s).1.kind = .number ∨ (cutNumber s).1.kind = .malformedNumber := by
  unfold cutNumber
  split
  · exact .inl rfl
  · split
    · exact .inr rfl
    · exact .inl rfl

/-- A word ends where it ended before. -/
theorem cut_word_append (hword : isWordStart c) {kind : ChunkKind}
    (hcut : cut c (s ++ after) = (⟨kind, c :: s⟩, after)) (h : Stops after after') :
    (cut c (s ++ after')).1 = ⟨kind, c :: s⟩ := by
  rw [cut_of_isWordStart hword] at hcut ⊢
  obtain ⟨⟨rfl, hs⟩, hafter⟩ := by simpa using hcut
  have hhead (d : Char) (hd : after.head? = some d) : isWordPart d = false :=
    eq_false_of_head?_dropWhile (s := s ++ after) (by rw [hafter]; exact hd)
  have hall : ∀ d ∈ s, isWordPart d := fun d hd => by
    rw [← hs] at hd
    exact List.mem_takeWhile_imp hd
  rw [List.takeWhile_append_of_pos hall,
    (takeWhile_of_stops (fun d hd => (of_isBlank hd).1) hhead h).1, List.append_nil]

/-- A complete string ends with its closing quote. -/
theorem cutString_append_of_isToken {kind : ChunkKind}
    (hcut : cutString (s ++ after) = (⟨kind, '"' :: s⟩, after)) (htoken : IsToken ⟨kind, '"' :: s⟩)
    (after' : List Char) : (cutString (s ++ after')).1 = ⟨kind, '"' :: s⟩ := by
  obtain ⟨k, hmeaning⟩ := htoken
  have hbody := splitStringBody_mem (s ++ after)
  unfold cutString at hcut
  split at hcut
  · obtain ⟨⟨rfl, -⟩, -⟩ := by simpa using hcut
    cases hmeaning
  split at hcut
  · obtain ⟨⟨rfl, hs⟩, -⟩ := by simpa using hcut
    generalize (splitStringBody (s ++ after)).1 = body at hs hbody
    subst hs
    rw [List.append_assoc]
    exact cutString_append_quote hbody after'
  · obtain ⟨⟨rfl, -⟩, -⟩ := by simpa using hcut
    cases hmeaning

/-- Two slashes begin a comment only if they did before. -/
theorem head?_ne_slash_of_stops (hslash : ¬ (s ++ after).head? = some '/')
    (h : Stops after after') : ¬ (s ++ after').head? = some '/' := by
  cases s with
  | cons e s => exact hslash
  | nil =>
    intro hhead
    rcases h '/' hhead with hblank | ⟨hsame, -⟩
    · exact (of_isBlank hblank).2.2.2.1 rfl
    · exact hslash hsame

/-- A lexeme that is a token is taken again in front of what continues it no more. -/
theorem cut_append_of_stops {kind : ChunkKind}
    (hcut : cut c (s ++ after) = (⟨kind, c :: s⟩, after)) (htoken : IsToken ⟨kind, c :: s⟩)
    (h : Stops after after') : cut c (s ++ after') = (⟨kind, c :: s⟩, after') := by
  apply cut_eq_of_fst
  obtain ⟨k, hmeaning⟩ := htoken
  -- the first character chooses the rule, but for comments, of which the second one is needed too
  by_cases hblank : isBlank c
  · rw [cut_of_isBlank hblank] at hcut
    obtain ⟨⟨rfl, -⟩, -⟩ := by simpa using hcut
    cases hmeaning
  by_cases hword : isWordStart c
  · exact cut_word_append hword hcut h
  by_cases hdigit : c.isDigit
  · rw [cut_of_isDigit hdigit] at hcut ⊢
    have hkind := cutNumber_kind (c :: (s ++ after))
    have hmem := cutNumber_mem (s ++ after) hdigit
    rw [hcut] at hkind hmem
    dsimp only at hkind hmem
    rcases hkind with rfl | rfl
    · exact cutNumber_append_of_stops (s := c :: s) hcut hmem h
    · cases hmeaning
  by_cases hquote : c = '"'
  · subst hquote
    rw [cut_quote] at hcut ⊢
    exact cutString_append_of_isToken hcut ⟨k, hmeaning⟩ after'
  by_cases hslash : c = '/' ∧ (s ++ after).head? = some '/'
  · obtain ⟨rfl, hhead⟩ := hslash
    obtain ⟨line, hline⟩ := List.head?_eq_some_iff.1 hhead
    rw [hline, cut_slashes] at hcut
    obtain ⟨⟨rfl, -⟩, -⟩ := by simpa using hcut
    cases hmeaning
  have hslash' : ¬ (c = '/' ∧ (s ++ after').head? = some '/') := fun hs =>
    head?_ne_slash_of_stops (fun hhead => hslash ⟨hs.1, hhead⟩) h hs.2
  rw [cut, if_neg hblank, if_neg hslash, if_neg hword, if_neg hdigit, if_neg hquote] at hcut
  rw [cut, if_neg hblank, if_neg hslash', if_neg hword, if_neg hdigit, if_neg hquote]
  split at hcut
  next p more hlongest =>
    obtain ⟨⟨rfl, hs⟩, rfl⟩ := by simpa using hcut
    rw [longest?_append_of_stops hs hlongest h]
    exact congrArg (Chunk.mk _) hs
  next =>
    obtain ⟨⟨rfl, -⟩, -⟩ := by simpa using hcut
    cases hmeaning

end Neighbours

section Newlines

variable {chunk : Chunk} {s : List Char}

theorem newline_notMem_of_mem_word (h : s ∈ word) : '\n' ∉ s := by
  intro hs
  obtain ⟨c, t, rfl, hc, ht⟩ := mem_oneOf_mul_kstar_iff.1 h
  rcases List.mem_cons.1 hs with rfl | hs
  · exact absurd hc (by decide)
  · exact absurd (ht _ hs) (by decide)

theorem newline_notMem_of_mem_number (h : s ∈ number) : '\n' ∉ s := by
  have hdigits {s : List Char} (h : s ∈ digits) : '\n' ∉ s := fun hs =>
    absurd ((mem_digits_iff.1 h).2 _ hs) (by decide)
  rcases mem_number_iff.1 h with h | ⟨whole, hwhole, fraction, hfraction, rfl⟩
  · exact hdigits h
  · simp [hdigits hwhole, hdigits hfraction]

theorem newline_notMem_of_mem_stringItems (h : s ∈ stringItem∗) : '\n' ∉ s := by
  refine kstar_induction (motive := ('\n' ∉ ·)) List.not_mem_nil ?_ h
  rintro item (⟨c, hc, rfl⟩ | ⟨_, rfl, _, ⟨d, hd, rfl⟩, rfl⟩) t ht
  · have hne := (of_decide_eq_true hc).2.2
    simpa [ht] using hne.symm
  · simpa [ht] using Ne.symm (of_decide_eq_true hd)

/-- Only blanks contain line feeds. -/
theorem newline_notMem_of_mem_lexemes {kind : ChunkKind} (h : s ∈ kind.lexemes)
    (hkind : kind ≠ .blank) : '\n' ∉ s := by
  match kind, h with
  | .blank, _ => exact absurd rfl hkind
  | .comment, ⟨_, rfl, line, hline, heq⟩ =>
    obtain rfl := heq
    have hall := mem_kstar_oneOf_iff.1 hline
    exact fun hmem => absurd (hall '\n' (by simpa using hmem)) (by decide)
  | .word, h => exact newline_notMem_of_mem_word h
  | .number, h => exact newline_notMem_of_mem_number h
  | .malformedNumber, ⟨n, hn, w, hw, heq⟩ =>
    obtain rfl := heq
    exact fun hs => (List.mem_append.1 hs).elim (newline_notMem_of_mem_number hn)
      (newline_notMem_of_mem_word hw)
  | .string body, ⟨hbody, heq⟩ =>
    subst heq
    simpa using newline_notMem_of_mem_stringItems hbody
  | .punctuator p, heq =>
    obtain rfl : s = p.text.toList := heq
    cases p <;> decide
  | .unrecognized, h => exact absurd h (Language.notMem_zero _)

/-- What is taken from the head of a text contains a line feed only if it is blank. -/
theorem Munches.newline_notMem {r : List Char} (hmunch : Munches r chunk)
    (hkind : chunk.kind ≠ .blank) : '\n' ∉ chunk.text := by
  cases hmunch with
  | lexeme hmem _ => exact newline_notMem_of_mem_lexemes hmem hkind
  | openString _ hlongest => simpa using newline_notMem_of_mem_stringItems hlongest.mem
  | @character c rest hnone _ =>
    intro hmem
    -- a line feed alone would be a blank, and so a lexeme
    obtain rfl : '\n' = c := by simpa using hmem
    have hblank : ['\n'] ∈ ChunkKind.lexemes .blank :=
      mem_oneOf_mul_kstar_iff.2 ⟨'\n', [], rfl, by decide, by simp⟩
    exact hnone _ ⟨_, hblank⟩ ⟨rest, rfl⟩

/-- A chunk that is taken for a blank consists of blanks. -/
theorem Munches.isBlank_of_mem {r : List Char} (h : Munches r chunk) (hkind : chunk.kind = .blank) :
    ∀ d ∈ chunk.text, isBlank d := by
  cases h with
  | lexeme hmem _ =>
    dsimp only at hkind
    subst hkind
    obtain ⟨d, u, rfl, hd, hu⟩ := mem_oneOf_mul_kstar_iff.1 hmem
    exact List.forall_mem_cons.2 ⟨hd, hu⟩
  | openString _ _ => cases hkind
  | character _ _ => cases hkind

/-- What means nothing is blank or a comment. -/
theorem kind_of_meaning_eq_skipped (h : chunk.meaning = .skipped) :
    chunk.kind = .blank ∨ chunk.kind = .comment := by
  unfold meaning at h
  split at h
  next hkind => exact .inl hkind
  next hkind => exact .inr hkind
  next => cases h
  next => cases h
  next => cases h
  next => split at h <;> cases h
  next => cases h
  next => cases h

end Newlines

end Chunk

end CrudLang
