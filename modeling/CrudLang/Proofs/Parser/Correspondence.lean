import CrudLang.Proofs.Parser.Pending

/-!
# Failures at corresponding places

Which failure is kept is decided by where the failures are, and by what was expected there
(`Failure.note`, `Failure.join`, `Failure.summarize`). A `Correspondence` relates places of two
inputs such that which of two places is further on is the same in both. Then failures at
corresponding places remain at corresponding places, whatever they are joined to
(`Correspondence.Pendings`).
-/

namespace CrudLang

/-- Places of two inputs correspond. -/
structure Correspondence where
  /-- The places correspond. -/
  Inputs : Input → Input → Prop
  /-- Which of two places is further on is the same in both inputs. -/
  lt_iff {a b a' b' : Input} : Inputs a b → Inputs a' b' → (a.size < a'.size ↔ b.size < b'.size)

namespace Correspondence

variable (R : Correspondence)

/-- The failures are at corresponding places, and the same was expected there. -/
structure Failures (f g : Failure) : Prop where
  rest : R.Inputs f.rest g.rest
  expected : f.expected = g.expected

/-- The same is pending at two places, unless it is behind us. -/
def Pendings (a b : Input) (p q : Option Failure) : Prop :=
  (∃ f g, p = some f ∧ q = some g ∧ R.Failures f g) ∨
    (PendingBefore a.tokens p ∧ PendingBefore b.tokens q)

variable {R} {a b a' b' : Input}

/-- Which of two places is not further back is the same in both inputs. -/
theorem le_iff (h : R.Inputs a b) (h' : R.Inputs a' b') : a.size ≤ a'.size ↔ b.size ≤ b'.size := by
  rw [← Nat.not_lt, ← Nat.not_lt, R.lt_iff h' h]

/-- Whether two places are the same is the same in both inputs. -/
theorem eq_iff (h : R.Inputs a b) (h' : R.Inputs a' b') : a.size = a'.size ↔ b.size = b'.size := by
  rw [Nat.eq_iff_le_and_ge, Nat.eq_iff_le_and_ge, le_iff h h', le_iff h' h]

namespace Failures

variable {f g : Failure}

/-- A construct summarizes both failures or neither. -/
theorem summarize (h : R.Failures f g) (hab : R.Inputs a b) (c : Construct) :
    R.Failures (f.summarize a c) (g.summarize b c) := by
  have heq := eq_iff h.rest hab
  unfold Failure.summarize
  by_cases hsize : f.rest.size = a.size
  · rw [if_pos hsize, if_pos (heq.1 hsize)]
    exact ⟨h.rest, rfl⟩
  · rw [if_neg hsize, if_neg fun hb => hsize (heq.2 hb)]
    exact h

/-- Joining failures decides by their places and by what was expected. -/
theorem join {f' g' : Failure} (h : R.Failures f g) (h' : R.Failures f' g') :
    R.Failures (.join (some f) f') (.join (some g) g') := by
  have hlt := R.lt_iff h'.rest h.rest
  have hgt := R.lt_iff h.rest h'.rest
  dsimp only [Failure.join]
  -- each question that is asked about the first two failures has the same answer for the others
  by_cases hfurther : f'.rest.size < f.rest.size
  · rw [if_pos hfurther, if_pos (hlt.1 hfurther)]
    exact h'
  rw [if_neg hfurther, if_neg fun hg => hfurther (hlt.2 hg)]
  by_cases hback : f.rest.size < f'.rest.size
  · rw [if_pos hback, if_pos (hgt.1 hback)]
    exact h
  rw [if_neg hback, if_neg fun hg => hback (hgt.2 hg), h.expected, h'.expected]
  split
  · exact ⟨h.rest, rfl⟩
  · exact ⟨h.rest, rfl⟩

/-- What is noted beside two failures is kept in both cases or in neither. -/
theorem note (h : R.Failures f g) (hab : R.Inputs a b) (e : Expectation) :
    R.Failures (.note (some f) a e) (.note (some g) b e) := by
  have hlt := R.lt_iff hab h.rest
  have heq := eq_iff hab h.rest
  dsimp only [Failure.note]
  by_cases hfurther : a.size < f.rest.size
  · rw [if_pos hfurther, if_pos (hlt.1 hfurther)]
    exact ⟨hab, rfl⟩
  rw [if_neg hfurther, if_neg fun hb => hfurther (hlt.2 hb)]
  by_cases hsame : a.size = f.rest.size
  · rw [if_pos hsame, if_pos (heq.1 hsame), h.expected]
    exact ⟨h.rest, rfl⟩
  · rw [if_neg hsame, if_neg fun hb => hsame (heq.2 hb)]
    exact h

end Failures

namespace Pendings

variable {p q p' q' : Option Failure}

theorem of_failures {f g : Failure} (h : R.Failures f g) : R.Pendings a b (some f) (some g) :=
  .inl ⟨f, g, rfl, rfl, h⟩

/-- What is behind us remains behind us. -/
theorem mono (h : R.Pendings a b p q) (ha : a'.size ≤ a.size) (hb : b'.size ≤ b.size) :
    R.Pendings a' b' p q :=
  h.imp_right fun ⟨hp, hq⟩ => ⟨hp.mono (by rwa [a.size_eq, a'.size_eq]),
    hq.mono (by rwa [b.size_eq, b'.size_eq])⟩

/-- The same holds beside pending failures, also if these are behind us. -/
theorem note (h : R.Pendings a b p q) (hab : R.Inputs a b) (e : Expectation) :
    R.Failures (.note p a e) (.note q b e) := by
  rcases h with ⟨f, g, rfl, rfl, hfg⟩ | ⟨hp, hq⟩
  · exact hfg.note hab e
  · rw [Failure.note_of_before hp, Failure.note_of_before hq]
    exact ⟨hab, rfl⟩

/-- A failure where reading is, or further on, is joined to what is pending. -/
theorem join {f g : Failure} (h : R.Pendings a b p q) (hab : R.Inputs a b) (hfg : R.Failures f g)
    (hf : f.rest.size ≤ a.size) : R.Failures (.join p f) (.join q g) := by
  rcases h with ⟨f', g', rfl, rfl, hfg'⟩ | ⟨hp, hq⟩
  · exact hfg'.join hfg
  · rw [Failure.join_of_before hp hf, Failure.join_of_before hq ((le_iff hfg.rest hab).1 hf)]
    exact hfg

/-- What is pending before a construct is kept behind it if only failures further back are pending
inside. -/
theorem behind_of_before (h : R.Pendings a' b' p q) (hab' : R.Inputs a' b')
    (hp' : PendingBefore a'.tokens p') (hq' : PendingBefore b'.tokens q') (c : Construct) :
    R.Pendings a' b' (pendingBehind p a c p') (pendingBehind q b c q') := by
  rcases h with ⟨f, g, rfl, rfl, hfg⟩ | ⟨hp, hq⟩
  · by_cases hf : f.rest.size ≤ a'.size
    · -- what was pending is further on than all that failed inside
      have hg := (le_iff hfg.rest hab').1 hf
      rw [← a'.size_eq] at hf
      rw [← b'.size_eq] at hg
      rw [pendingBehind_eq hp' hf, pendingBehind_eq hq' hg]
      exact .of_failures hfg
    · have hg : ¬ g.rest.size ≤ b'.size := fun hg => hf ((le_iff hfg.rest hab').2 hg)
      exact .inr ⟨(PendingBefore.of_lt (by omega)).behind hp',
        (PendingBefore.of_lt (by omega)).behind hq'⟩
  · exact .inr ⟨hp.behind hp', hq.behind hq'⟩

/-- Joining what is pending inside a construct to what was pending before it. -/
theorem behind (h : R.Pendings a b p q) (hab : R.Inputs a b) (h' : R.Pendings a' b' p' q')
    (hab' : R.Inputs a' b') (ha : a'.size ≤ a.size) (c : Construct) :
    R.Pendings a' b' (pendingBehind p a c p') (pendingBehind q b c q') := by
  have hb : b'.size ≤ b.size := (le_iff hab' hab).1 ha
  rcases h' with ⟨f, g, rfl, rfl, hfg⟩ | ⟨hp', hq'⟩
  · have hsummary := hfg.summarize hab c
    by_cases hf : f.rest.size ≤ a.size
    · exact .of_failures (h.join hab hsummary (by rwa [Failure.rest_summarize]))
    -- a failure further back than the construct is only of interest if something else is pending
    have hg : ¬ g.rest.size ≤ b.size := fun hg => hf ((le_iff hfg.rest hab).2 hg)
    rcases h.mono ha hb with ⟨f', g', rfl, rfl, hfg'⟩ | ⟨hp, hq⟩
    · exact .of_failures (hfg'.join hsummary)
    · exact .inr ⟨hp.behind (.of_lt (by omega)), hq.behind (.of_lt (by omega))⟩
  · exact (h.mono ha hb).behind_of_before hab' hp' hq' c

end Pendings

end Correspondence

end CrudLang
