import CrudLang.Token.Punctuator

/-!
# Cutting source text into chunks

A source text is cut from left to right into chunks: blanks, comments, words, numbers, strings,
punctuators, and stretches that no rule accepts. The first character decides which rule applies,
and every rule takes as much text as it can. `chunks` concatenates back to the text, which is
`text_chunks`.
-/

namespace CrudLang

/-- What a chunk of source text is. -/
inductive ChunkKind where
  /-- A run of blanks. -/
  | blank
  /-- Two slashes and the rest of the line. -/
  | comment
  /-- An identifier or a reserved word. -/
  | word
  /-- An integer or a decimal fraction. -/
  | number
  /-- A number that runs into a word. -/
  | malformedNumber
  /-- A complete string literal, with the text between its quotes. -/
  | string (body : List Char)
  /-- An operator or a delimiter. -/
  | punctuator (punctuator : Punctuator)
  /-- Text that no rule accepts. -/
  | unrecognized
deriving DecidableEq, Repr, Inhabited

/-- A stretch of source text that one rule has taken. -/
structure Chunk where
  /-- Which rule. -/
  kind : ChunkKind
  /-- What it has taken. -/
  text : List Char
deriving DecidableEq, Repr, Inhabited

namespace Chunk

/-- Blanks separate lexemes and mean nothing else. -/
def isBlank (c : Char) : Bool :=
  c = ' ' || c = '\t' || c = '\r' || c = '\n' || c = '\x0c'

/-- A word begins with an ASCII letter or an underscore. -/
def isWordStart (c : Char) : Bool :=
  c.isAlpha || c = '_'

/-- A word goes on with ASCII letters, digits and underscores. -/
def isWordPart (c : Char) : Bool :=
  c.isAlphanum || c = '_'

/-- Splits off the digits at the head of a text, and a point with the digits behind it if there
are any. -/
def splitNumber (s : List Char) : List Char × List Char :=
  let whole := s.takeWhile Char.isDigit
  match s.dropWhile Char.isDigit with
  | [] => (whole, [])
  | point :: rest =>
    if point = '.' ∧ (rest.takeWhile Char.isDigit) ≠ [] then
      (whole ++ point :: rest.takeWhile Char.isDigit, rest.dropWhile Char.isDigit)
    else (whole, point :: rest)

/-- Splits off the complete items of a string body: a character other than quote, backslash and
line feed, or a backslash with any character but a line feed. -/
def splitStringBody : List Char → List Char × List Char
  | [] => ([], [])
  | c :: rest =>
    if c = '\\' then
      match rest with
      | [] => ([], [c])
      | d :: rest' =>
        if d = '\n' then ([], c :: d :: rest')
        else (c :: d :: (splitStringBody rest').1, (splitStringBody rest').2)
    else if c = '"' ∨ c = '\n' then ([], c :: rest)
    else (c :: (splitStringBody rest).1, (splitStringBody rest).2)

/-- The chunk at the head of a text that begins with a digit, with the text behind it. -/
def cutNumber (s : List Char) : Chunk × List Char :=
  match (splitNumber s).2 with
  | [] => (⟨.number, (splitNumber s).1⟩, [])
  | c :: more =>
    if isWordStart c then
      (⟨.malformedNumber, (splitNumber s).1 ++ (c :: more).takeWhile isWordPart⟩,
        (c :: more).dropWhile isWordPart)
    else (⟨.number, (splitNumber s).1⟩, c :: more)

/-- The chunk behind an opening quote, with the text behind it: a string literal if the body ends
with a quote, else text that no rule accepts. -/
def cutString (s : List Char) : Chunk × List Char :=
  match (splitStringBody s).2 with
  | [] => (⟨.unrecognized, '"' :: (splitStringBody s).1⟩, [])
  | c :: more =>
    if c = '"' then
      (⟨.string (splitStringBody s).1, '"' :: (splitStringBody s).1 ++ ['"']⟩, more)
    else (⟨.unrecognized, '"' :: (splitStringBody s).1⟩, c :: more)

/-- The chunk at the head of the text `c :: rest`, with the text behind it. -/
def cut (c : Char) (rest : List Char) : Chunk × List Char :=
  if isBlank c then (⟨.blank, c :: rest.takeWhile isBlank⟩, rest.dropWhile isBlank)
  else if c = '/' ∧ rest.head? = some '/' then
    (⟨.comment, c :: rest.takeWhile (· ≠ '\n')⟩, rest.dropWhile (· ≠ '\n'))
  else if isWordStart c then
    (⟨.word, c :: rest.takeWhile isWordPart⟩, rest.dropWhile isWordPart)
  else if c.isDigit then cutNumber (c :: rest)
  else if c = '"' then cutString rest
  else
    match Punctuator.longest? (c :: rest) with
    | some (p, more) => (⟨.punctuator p, p.text.toList⟩, more)
    | none => (⟨.unrecognized, [c]⟩, rest)

theorem splitNumber_append (s : List Char) : (splitNumber s).1 ++ (splitNumber s).2 = s := by
  unfold splitNumber
  have h := List.takeWhile_append_dropWhile (p := Char.isDigit) (l := s)
  split
  next hdrop => simpa [hdrop] using h
  next point rest hdrop =>
    rw [hdrop] at h
    split
    · simpa [List.takeWhile_append_dropWhile] using h
    · exact h

theorem splitStringBody_append (s : List Char) :
    (splitStringBody s).1 ++ (splitStringBody s).2 = s := by
  fun_induction splitStringBody s <;> simp_all

theorem cutNumber_append (s : List Char) : (cutNumber s).1.text ++ (cutNumber s).2 = s := by
  unfold cutNumber
  have h := splitNumber_append s
  split
  next hrest => simpa [hrest] using h
  next c more hrest =>
    rw [hrest] at h
    split
    · simpa [List.append_assoc, List.takeWhile_append_dropWhile] using h
    · exact h

theorem cutString_append (s : List Char) :
    (cutString s).1.text ++ (cutString s).2 = '"' :: s := by
  unfold cutString
  have h := splitStringBody_append s
  split
  next hrest => simpa [hrest] using h
  next c more hrest =>
    rw [hrest] at h
    split
    next hc => subst hc; simpa using h
    next => simpa using h

/-- The chunk and the text behind it make up the text. -/
theorem cut_append (c : Char) (rest : List Char) :
    (cut c rest).1.text ++ (cut c rest).2 = c :: rest := by
  unfold cut
  split
  · simp [List.takeWhile_append_dropWhile]
  split
  · simp [List.takeWhile_append_dropWhile]
  split
  · simp [List.takeWhile_append_dropWhile]
  split
  · exact cutNumber_append _
  split
  next hc => subst hc; exact cutString_append rest
  split
  next p more h => exact (Punctuator.eq_append_of_longest? h).symm
  next => rfl

theorem splitNumber_ne_nil {c : Char} (rest : List Char) (hc : c.isDigit) :
    (splitNumber (c :: rest)).1 ≠ [] := by
  unfold splitNumber
  split
  · simp [hc]
  · split <;> simp [hc]

/-- A chunk is never empty. -/
theorem cut_text_ne_nil (c : Char) (rest : List Char) : (cut c rest).1.text ≠ [] := by
  unfold cut
  split
  · simp
  split
  · simp
  split
  · simp
  split
  next hc =>
    have h := splitNumber_ne_nil rest hc
    unfold cutNumber
    split
    · exact h
    · split <;> simp [h]
  split
  · unfold cutString
    split
    · simp
    · split <;> simp
  split
  next p more h => cases p <;> simp [Punctuator.text]
  next => simp

/-- The text behind a chunk is shorter than the text. -/
theorem cut_length_le (c : Char) (rest : List Char) : (cut c rest).2.length ≤ rest.length := by
  have happ := congrArg List.length (cut_append c rest)
  have hne := List.length_pos_iff.2 (cut_text_ne_nil c rest)
  simp only [List.length_append, List.length_cons] at happ
  omega

end Chunk

/-- Cuts a source text into chunks. -/
def chunks : List Char → List Chunk
  | [] => []
  | c :: rest => (Chunk.cut c rest).1 :: chunks (Chunk.cut c rest).2
termination_by s => s.length
decreasing_by
  have := Chunk.cut_length_le c rest
  simp only [List.length_cons]
  omega

/-- The chunks of a text make up the text. -/
theorem text_chunks (s : List Char) : (chunks s).flatMap Chunk.text = s := by
  fun_induction chunks s with
  | case1 => rfl
  | case2 c rest ih => rw [List.flatMap_cons, ih, Chunk.cut_append]

end CrudLang
