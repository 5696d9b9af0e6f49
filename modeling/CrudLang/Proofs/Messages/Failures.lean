import CrudLang.Proofs.Grammar.Braces
import CrudLang.Proofs.Parser.Pending

/-!
# What failures say

A failure lists what could have stood at its place. It is sincere if none of that stands there
(`Failure.Sincere`), and telling if it names something that has a name (`Failure.Telling`). Failures
are united by their places, and both properties survive that: sincerity because failures that are
equally far on are at the same place, and telling unless what was expected was superseded by
something without a name. So a failure without a name must not be further on than the place where
reading goes on: what is noted there is then added to it (`Failure.Frank`).

The expectation of any token at all is noted only while a brace is skipped that is never closed, and
only where the input ends.
-/

namespace CrudLang

/-- A kind of token that is always written the same: a keyword or a punctuator. -/
inductive TokenKind.IsFixed : TokenKind → Prop
  | keyword (k : Keyword) : IsFixed (.keyword k)
  | punctuator (p : Punctuator) : IsFixed (.punctuator p)

/-- Some opening brace among the tokens has no closing brace. -/
def HasUnclosedBrace (tokens : List Token) : Prop :=
  ∃ brace behind, brace :: behind <:+ tokens ∧ brace.kind = .punctuator .leftBrace ∧
    Grammar.afterClosing 0 behind = none

namespace Expectation

/-- What was expected at a place of the source does not stand there. -/
def SincereAt (tokens : List Token) (a : Input) : Expectation → Prop
  | .token kind => kind.IsFixed ∧ a.tokens.head?.map Token.kind ≠ some kind
  | .anyToken => a.tokens = [] ∧ HasUnclosedBrace tokens
  | .endOfInput => a.tokens ≠ []
  | .construct _ | .somethingElse => True

/-- The expectation has a name: a token, a construct, or the end of the input. -/
def IsNamed : Expectation → Prop
  | .token _ | .construct _ | .endOfInput => True
  | .anyToken | .somethingElse => False

/-- A token was expected that is always written the same, and another one stands there, or none. -/
theorem SincereAt.token {tokens : List Token} {kind : TokenKind} (hkind : kind.IsFixed) {a : Input}
    (ha : ∀ t ts, a.tokens = t :: ts → t.kind ≠ kind) :
    (Expectation.token kind).SincereAt tokens a := by
  refine ⟨hkind, fun hfound => ?_⟩
  cases htokens : a.tokens with
  | nil => simp [htokens] at hfound
  | cons t ts =>
    rw [htokens] at hfound
    exact ha t ts htokens (Option.some.inj hfound)

section Unite

variable {first second : List Expectation}

theorem unite_cons (next : Expectation) : unite first (next :: second) =
    unite (if next ∈ first then first else first ++ [next]) second :=
  rfl

@[simp] theorem mem_unite {e : Expectation} :
    e ∈ unite first second ↔ e ∈ first ∨ e ∈ second := by
  induction second generalizing first with
  | nil => simp [unite]
  | cons next second ih =>
    rw [unite_cons, ih]
    split
    next hmem =>
      -- what is already there is the same as what comes first
      rw [List.mem_cons]
      constructor
      · exact Or.imp_right .inr
      · rintro (he | rfl | he)
        · exact .inl he
        · exact .inl hmem
        · exact .inr he
    · simp only [List.mem_append, List.mem_cons, List.not_mem_nil, or_false, or_assoc]

theorem nodup_unite (h : first.Nodup) : (unite first second).Nodup := by
  induction second generalizing first with
  | nil => exact h
  | cons next second ih =>
    rw [unite_cons]
    apply ih
    split
    · exact h
    next hnew =>
      refine List.nodup_append.2 ⟨h, by simp, fun e he e' he' => ?_⟩
      rw [List.mem_singleton.1 he']
      rintro rfl
      exact hnew he

end Unite

end Expectation

/-- Two ends of one list of tokens that are equally long are the same input. -/
theorem Input.eq_of_suffix {a b : Input} {tokens : List Token} (ha : a.tokens <:+ tokens)
    (hb : b.tokens <:+ tokens) (h : a.size = b.size) : a = b := by
  have hlength : a.tokens.length = b.tokens.length := by rw [a.size_eq, b.size_eq, h]
  have hsuffix := List.suffix_of_suffix_length_le ha hb (Nat.le_of_eq hlength)
  exact Input.ext (hsuffix.eq_of_length hlength)

namespace Failure

/-- The failure is at a place of the source, and it lists once each what does not stand there. -/
structure Sincere (tokens : List Token) (f : Failure) : Prop where
  suffix : f.rest.tokens <:+ tokens
  nodup : f.expected.Nodup
  sincere : ∀ e ∈ f.expected, e.SincereAt tokens f.rest

/-- The failure lists something that has a name. -/
def Telling (f : Failure) : Prop :=
  ∃ e ∈ f.expected, e.IsNamed

/-- The failure is sincere, and it is telling or not further on than `a`, so that it becomes telling
as soon as something with a name is noted at `a`. -/
structure Frank (tokens : List Token) (a : Input) (f : Failure) : Prop where
  sincere : f.Sincere tokens
  telling : f.Telling ∨ a.size ≤ f.rest.size

variable {tokens : List Token} {a b : Input} {f g : Failure}

theorem Sincere.one {e : Expectation} (ha : a.tokens <:+ tokens) (he : e.SincereAt tokens a) :
    Sincere tokens ⟨a, [e]⟩ where
  suffix := ha
  nodup := by simp
  sincere := by
    intro e' he'
    rwa [List.mem_singleton.1 he']

/-- Sincere failures at one place are united to a sincere one. -/
theorem Sincere.unite {first second : List Expectation} (h : Sincere tokens ⟨a, first⟩)
    (h' : Sincere tokens ⟨b, second⟩) (hsize : b.size = a.size) :
    Sincere tokens ⟨a, Expectation.unite first second⟩ := by
  -- what the second one lists does not stand at its own place, which is the same
  obtain rfl := Input.eq_of_suffix h'.suffix h.suffix hsize
  refine ⟨h.suffix, Expectation.nodup_unite h.nodup, fun e he => ?_⟩
  rcases Expectation.mem_unite.1 he with he | he
  · exact h.sincere e he
  · exact h'.sincere e he

theorem Telling.unite_left {first second : List Expectation} (h : Telling ⟨a, first⟩) :
    Telling ⟨a, Expectation.unite first second⟩ :=
  h.imp fun _ he => he.imp_left fun he => Expectation.mem_unite.2 (.inl he)

theorem Telling.unite_right {first second : List Expectation} (h : Telling ⟨b, second⟩) :
    Telling ⟨a, Expectation.unite first second⟩ :=
  h.imp fun _ he => he.imp_left fun he => Expectation.mem_unite.2 (.inr he)

theorem Telling.one {e : Expectation} (he : e.IsNamed) : Telling ⟨a, [e]⟩ :=
  ⟨e, List.mem_singleton_self e, he⟩

/-- A frank failure remains frank where reading goes on. -/
theorem Frank.mono (h : f.Frank tokens a) (hsize : b.size ≤ a.size) : f.Frank tokens b where
  sincere := h.sincere
  telling := h.telling.imp_right (Nat.le_trans hsize)

section Note

variable {pending : Option Failure} (hpending : ∀ f ∈ pending, f.Frank tokens a)
  (ha : a.tokens <:+ tokens) {e : Expectation} (he : e.SincereAt tokens a)
include hpending ha he

theorem Sincere.note : (Failure.note pending a e).Sincere tokens := by
  rcases note_cases pending a e with ⟨heq, -⟩ | ⟨f, rfl, ⟨hsize, heq⟩ | ⟨-, heq⟩⟩ <;> rw [heq]
  · exact .one ha he
  · exact (hpending f rfl).sincere.unite (.one ha he) hsize
  · exact (hpending f rfl).sincere

/-- Whatever is noted, a failure further on is kept only if it is telling. -/
theorem Frank.note : (Failure.note pending a e).Frank tokens a := by
  refine ⟨.note hpending ha he, ?_⟩
  rcases note_cases pending a e with ⟨heq, -⟩ | ⟨f, rfl, ⟨hsize, heq⟩ | ⟨hless, heq⟩⟩ <;> rw [heq]
  · exact .inr (Nat.le_refl _)
  · exact .inr (Nat.le_of_eq hsize)
  · exact .inl ((hpending f rfl).telling.resolve_right (Nat.not_le_of_lt hless))

omit ha he in
/-- With something noted that has a name, the failure is telling. -/
theorem Telling.note (hnamed : e.IsNamed) : (Failure.note pending a e).Telling := by
  rcases note_cases pending a e with ⟨heq, -⟩ | ⟨f, rfl, ⟨-, heq⟩ | ⟨hless, heq⟩⟩ <;> rw [heq]
  · exact .one hnamed
  · exact (Telling.one (a := a) hnamed).unite_right
  · exact (hpending f rfl).telling.resolve_right (Nat.not_le_of_lt hless)

end Note

/-- Noting something without a name makes a telling failure that is not further back no worse. -/
theorem Telling.note_of_le (hf : f.Telling) (hsize : f.rest.size ≤ a.size) (e : Expectation) :
    (Failure.note (some f) a e).Telling := by
  rcases note_cases (some f) a e with ⟨-, hbefore⟩ | ⟨g, ⟨⟩, ⟨-, heq⟩ | ⟨-, heq⟩⟩
  · have hless := hbefore f rfl
    rw [a.size_eq] at hless
    exact absurd hsize (Nat.not_le_of_lt hless)
  · rw [heq]
    exact hf.unite_left
  · rwa [heq]

/-- A construct is named in place of its parts, and a name of its own makes a failure telling. -/
theorem Sincere.summarize (hf : f.Sincere tokens) (start : Input) (c : Construct) :
    (f.summarize start c).Sincere tokens := by
  unfold Failure.summarize
  split
  · exact .one hf.suffix trivial
  · exact hf

theorem Telling.summarize (hf : f.Telling) (start : Input) (c : Construct) :
    (f.summarize start c).Telling := by
  unfold Failure.summarize
  split
  · exact .one trivial
  · exact hf

theorem Telling.of_summarize {start : Input} (h : f.rest.size = start.size) (c : Construct) :
    (f.summarize start c).Telling := by
  rw [Failure.summarize, if_pos h]
  exact .one trivial

theorem Frank.summarize (hf : f.Frank tokens a) (start : Input) (c : Construct) :
    (f.summarize start c).Frank tokens a where
  sincere := hf.sincere.summarize start c
  telling := hf.telling.imp (·.summarize start c) fun hsize => by rwa [rest_summarize]

section Join

variable {pending : Option Failure} (hpending : ∀ f ∈ pending, f.Frank tokens a)
include hpending

theorem Sincere.join (hg : g.Sincere tokens) : (Failure.join pending g).Sincere tokens := by
  rcases join_cases pending g with ⟨heq, -⟩ | ⟨f, rfl, ⟨hsize, heq | heq⟩ | ⟨-, heq⟩⟩ <;> rw [heq]
  · exact hg
  · exact (hpending f rfl).sincere.unite hg hsize.symm
  · -- the lists are united the other way round, but at the same place
    have hf := (hpending f rfl).sincere
    rw [Input.eq_of_suffix hf.suffix hg.suffix hsize]
    exact hg.unite hf hsize
  · exact (hpending f rfl).sincere

/-- A telling failure that is not further back than `a` stays so beside what was pending at `a`. -/
theorem Telling.join (hg : g.Telling) (hsize : g.rest.size ≤ a.size) :
    (Failure.join pending g).Telling := by
  rcases join_cases pending g with ⟨heq, -⟩ | ⟨f, rfl, ⟨-, heq | heq⟩ | ⟨hless, heq⟩⟩ <;> rw [heq]
  · exact hg
  · exact hg.unite_right
  · exact hg.unite_left
  · exact (hpending f rfl).telling.resolve_right
      (Nat.not_le_of_lt (Nat.lt_of_lt_of_le hless hsize))

/-- What was pending and what is pending now are joined frankly. -/
theorem Frank.join (hg : g.Frank tokens a) : (Failure.join pending g).Frank tokens a := by
  refine ⟨.join hpending hg.sincere, ?_⟩
  rcases join_cases pending g with ⟨heq, -⟩ | ⟨f, rfl, ⟨hsize, heq | heq⟩ | ⟨-, heq⟩⟩ <;> rw [heq]
  · exact hg.telling
  · exact (hpending f rfl).telling.imp_left (·.unite_left)
  · exact hg.telling.imp (·.unite_left) (hsize ▸ ·)
  · exact (hpending f rfl).telling

end Join

end Failure

end CrudLang
