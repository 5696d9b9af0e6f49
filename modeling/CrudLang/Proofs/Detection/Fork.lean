import CrudLang.Proofs.Detection.Foresight

/-!
# Two inputs with a common beginning

A `Fork` is a pair of token lists that have the same tokens up to some place, the last of these
included. Two readers of them go abreast: as long as the first one has not been behind the fork, it
does what the second one does. If the second list is read without a failure, then the failure that
counts in the first one is behind the fork, even if reading does not get there.

That a reader has been behind the fork must not be forgotten (`Fork.Beyond`). A named construct puts
aside what is pending, and inside of it a failure may be reported; but that happens only inside of
blocks, and a reader that has failed somewhere has not read an opening brace on its way there. So
what is inside of blocks is further on (`Fork.Clear`).
-/

namespace CrudLang

open Grammar CrudLang.Parser

/-- Before any token, whether the parser succeeds depends on the kind of that token. -/
def Parser.DecidesBy {α : Type} (p : Parser α) (C : TokenKind → Prop) : Prop :=
  ∀ s token ts, s.rest.tokens = token :: ts → ((∃ v t, p s = .ok v t) ↔ C token.kind)

/-- Two lists of tokens with a common beginning. In both, every opening brace has its closing brace,
and in the first one there are no classes. -/
structure Fork where
  /-- The tokens of both lists, but for the last one that they share. -/
  shared : List Token
  /-- The last token that the lists share. -/
  last : Token
  /-- What follows in the first list. -/
  left : List Token
  /-- What follows in the second list. -/
  right : List Token
  regular : Regular (shared ++ last :: left)
  closed : ∀ l ts, l :: ts <:+ shared ++ last :: right → l.kind = .punctuator .leftBrace →
    ∃ after, afterClosing 0 ts = some after

namespace Fork

variable (F : Fork)

/-- The first list. -/
def first : List Token :=
  F.shared ++ F.last :: F.left

/-- The second list. -/
def second : List Token :=
  F.shared ++ F.last :: F.right

/-- The same place before the fork, in both lists. -/
def Places (a b : Input) : Prop :=
  ∃ ts, ts <:+ F.shared ∧ a.tokens = ts ++ F.last :: F.left ∧ b.tokens = ts ++ F.last :: F.right

/-- The place in the first list is behind the fork. -/
def Past (a : Input) : Prop :=
  a.size ≤ F.left.length

/-- From the place to the fork, no brace is opened. -/
def Clear (a : Input) : Prop :=
  ∀ l ts, l :: ts <:+ a.tokens → l.kind = .punctuator .leftBrace → ts.length < F.left.length

/-- The reader is behind the fork, or it has failed there, and no brace is opened before the
fork. -/
structure Beyond (s : State) : Prop where
  clear : F.Clear s.rest
  past : F.Past s.rest ∨ ∃ f, s.pending = some f ∧ F.Past f.rest

/-- The reader has been behind the fork, and it has not reported a failure before that. If it has
failed, it has done so without reading an opening brace before the fork. -/
def Missed (a : Input) {α : Type} : Reply α → Prop
  | .ok _ t => (∀ f, t.reported.head? = some f → F.Past f.rest) ∧ (t.reported = [] → F.Beyond t)
  | .fail f => F.Clear a ∧ F.Past f.rest

/-- The readers have read alike values to the same place and have not reported anything, or they
have both failed, or they have both reported something, or the first one has been behind the
fork. -/
inductive Replies (a : Input) {α : Type} (V : α → α → Prop) : Reply α → Reply α → Prop
  | ok {v w s t} : V v w → F.Places s.rest t.rest → s.reported = [] → t.reported = [] →
      Replies a V (.ok v s) (.ok w t)
  | fail {f g} : Replies a V (.fail f) (.fail g)
  | reported {v w s t} : s.reported ≠ [] → t.reported ≠ [] → Replies a V (.ok v s) (.ok w t)
  | missed {x y} : F.Missed a x → Replies a V x y

/-- What a reader may report. -/
inductive Manner where
  /-- It reports nothing, and it reads no opening brace. -/
  | plain
  /-- It reports failures inside of blocks. -/
  | nested
  /-- It may report a failure of its own. -/
  | free

/-- Reading goes on from the first state to the second one. -/
def Moves (m : Manner) (s t : State) : Prop :=
  ∃ read new, s.rest.tokens = read ++ t.rest.tokens ∧ t.reported = s.reported ++ new ∧
    (m = .plain → new = [] ∧ ∀ k ∈ kindsOf read, k ≠ .punctuator .leftBrace)

variable {F}

section Places

variable {a b : Input}

theorem Clear.suffix (h : F.Clear a) (hb : b.tokens <:+ a.tokens) : F.Clear b :=
  fun l ts hl => h l ts (hl.trans hb)

/-- A clear place remains clear if other tokens than opening braces are put in front. -/
theorem Clear.append {read : List Token} (h : F.Clear b) (ha : a.tokens = read ++ b.tokens)
    (hread : ∀ k ∈ kindsOf read, k ≠ .punctuator .leftBrace) : F.Clear a := by
  intro l ts hl hkind
  rw [ha] at hl
  obtain ⟨us, hus⟩ := hl
  rcases List.append_eq_append_iff.1 hus with ⟨vs, hread', hvs⟩ | ⟨vs, -, hvs⟩
  · cases vs with
    | nil => exact h l ts ⟨[], hvs⟩ hkind
    | cons v vs =>
      obtain ⟨rfl, -⟩ := List.cons.inj hvs
      refine absurd hkind (hread l.kind ?_)
      rw [hread']
      exact List.mem_map_of_mem (List.mem_append_right us List.mem_cons_self)
  · exact h l ts ⟨vs, hvs.symm⟩ hkind

theorem Past.clear (h : F.Past a) : F.Clear a := by
  intro l ts hl _
  have hle := hl.length_le
  rw [a.size_eq, List.length_cons] at hle
  exact Nat.lt_of_lt_of_le hle h

theorem Places.suffix (h : F.Places a b) : a.tokens <:+ F.first := by
  obtain ⟨ts, hts, ha, -⟩ := h
  rw [ha, first]
  obtain ⟨us, hus⟩ := hts
  exact ⟨us, by rw [← hus, List.append_assoc]⟩

theorem Places.suffix_right (h : F.Places a b) : b.tokens <:+ F.second := by
  obtain ⟨ts, hts, -, hb⟩ := h
  rw [hb, second]
  obtain ⟨us, hus⟩ := hts
  exact ⟨us, by rw [← hus, List.append_assoc]⟩

/-- The same token stands at both places. Behind it they correspond again, or the first one is
behind the fork. -/
theorem Places.exists_head (h : F.Places a b) : ∃ t ts us, a.tokens = t :: ts ∧
    b.tokens = t :: us ∧ (F.Places (.ofList ts) (.ofList us) ∨ F.Past (.ofList ts)) := by
  obtain ⟨ts, hts, ha, hb⟩ := h
  cases ts with
  | nil => exact ⟨F.last, F.left, F.right, ha, hb, .inr (Nat.le_refl _)⟩
  | cons t ts =>
    exact ⟨t, ts ++ F.last :: F.left, ts ++ F.last :: F.right, ha, hb,
      .inl ⟨ts, (List.suffix_cons t ts).trans hts, rfl, rfl⟩⟩

/-- What depends on the first token is the same at both places. -/
theorem Places.decides_iff {α : Type} {p : Parser α} {C : TokenKind → Prop} {s t : State}
    (h : F.Places s.rest t.rest) (hp : p.DecidesBy C) :
    (∃ v u, p s = .ok v u) ↔ ∃ v u, p t = .ok v u := by
  obtain ⟨token, ts, us, hts, hus, -⟩ := h.exists_head
  rw [hp s token ts hts, hp t token us hus]

end Places

section Missed

variable {α : Type} {V : α → α → Prop} {a : Input} {s t : State}

theorem Past.beyond (h : F.Past s.rest) : F.Beyond s :=
  ⟨h.clear, .inl h⟩

theorem Past.of_suffix {b : Input} (h : F.Past a) (hb : b.tokens <:+ a.tokens) : F.Past b := by
  have hle := hb.length_le
  rw [a.size_eq, b.size_eq] at hle
  exact Nat.le_trans hle h

/-- What fails where reading goes on is noted behind the fork. -/
theorem Beyond.missed_note (h : F.Beyond s) (e : Expectation) :
    F.Missed s.rest (.fail (.note s.pending s.rest e) : Reply α) := by
  refine ⟨h.clear, ?_⟩
  rcases h.past with hpast | ⟨f, hf, hpast⟩
  · exact Nat.le_trans (Failure.size_note_le _ _ _) hpast
  · rw [hf]
    exact Nat.le_trans (Failure.size_note_some_le _ _ _) hpast

/-- Whatever the value, only what is reported and pending matters. -/
theorem Missed.of_leading {v : α} {β : Type} {w : β} (h : F.Missed a (.ok v s))
    (hrest : t.rest.tokens <:+ s.rest.tokens) (hpending : t.pending = s.pending)
    (hreported : t.reported = s.reported) {b : Input} : F.Missed b (.ok w t) := by
  refine ⟨fun f hf => h.1 f (hreported ▸ hf), fun hquiet => ?_⟩
  have hbeyond := h.2 (hreported.symm.trans hquiet)
  refine ⟨hbeyond.clear.suffix hrest, ?_⟩
  rw [hpending]
  exact hbeyond.past.imp_left fun hpast => hpast.of_suffix hrest

end Missed

namespace Moves

variable {m : Manner} {s t u : State}

theorem refl (s : State) : Moves m s s :=
  ⟨[], [], rfl, (List.append_nil _).symm, fun _ => ⟨rfl, by simp⟩⟩

theorem trans (h : Moves m s t) (h' : Moves m t u) : Moves m s u := by
  obtain ⟨read, new, hread, hnew, hplain⟩ := h
  obtain ⟨read', new', hread', hnew', hplain'⟩ := h'
  refine ⟨read ++ read', new ++ new', ?_, ?_, fun hm => ?_⟩
  · rw [hread, hread', List.append_assoc]
  · rw [hnew', hnew, List.append_assoc]
  · obtain ⟨rfl, hbraceless⟩ := hplain hm
    obtain ⟨rfl, hbraceless'⟩ := hplain' hm
    refine ⟨rfl, fun k hk => ?_⟩
    rw [kindsOf_append] at hk
    exact (List.mem_append.1 hk).elim (hbraceless k) (hbraceless' k)

theorem suffix (h : Moves m s t) : t.rest.tokens <:+ s.rest.tokens := by
  obtain ⟨read, _, hread, -⟩ := h
  exact ⟨read, hread.symm⟩

/-- A plain reader reports nothing. -/
theorem quiet (h : Moves .plain s t) (hs : s.reported = []) : t.reported = [] := by
  obtain ⟨_, new, -, hnew, hplain⟩ := h
  rw [hnew, hs, (hplain rfl).1, List.append_nil]

/-- What a plain reader has read leaves the place clear. -/
theorem clear (h : Moves .plain s t) (ht : F.Clear t.rest) : F.Clear s.rest := by
  obtain ⟨read, _, hread, -, hplain⟩ := h
  exact ht.append hread (hplain rfl).2

/-- Less may be said of a reader. -/
theorem of_plain (h : Moves .plain s t) : Moves m s t := by
  obtain ⟨read, new, hread, hnew, hplain⟩ := h
  exact ⟨read, new, hread, hnew, fun _ => hplain rfl⟩

theorem of_extends {α : Type} {p : Parser α} (hp : Extends p) (hm : m ≠ .plain) {v : α}
    (ht : p s = .ok v t) : Moves m s t := by
  obtain ⟨read, new, hread, hnew, -⟩ := hp s v t ht
  exact ⟨read, new, hread, hnew, fun h => absurd h hm⟩

/-- Once a failure has been reported, no other one is reported first. -/
theorem head?_eq (h : Moves m s t) (hs : s.reported ≠ []) :
    t.reported.head? = s.reported.head? := by
  obtain ⟨_, new, -, hnew, -⟩ := h
  obtain ⟨f, fs, hfs⟩ := List.exists_cons_of_ne_nil hs
  rw [hnew, hfs]
  rfl

theorem ne_nil (h : Moves m s t) (hs : s.reported ≠ []) : t.reported ≠ [] := by
  obtain ⟨_, new, -, hnew, -⟩ := h
  rw [hnew]
  exact fun h => hs (List.append_eq_nil_iff.1 h).1

end Moves

end Fork

end CrudLang
