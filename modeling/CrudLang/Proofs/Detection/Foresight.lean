import CrudLang.Proofs.Grammar.Braces
import CrudLang.Proofs.Parser.Pending

/-!
# How far a parser gets

Whatever a parser notes on its way, up to that place it has read the beginning of something that it
accepts. `Foresees n p Pre` is the form in which the grammar rules say so: `Pre` is what may be read
from the beginning of `p` up to a failure. The failure that counts is the first one reported, and
while nothing has been reported, it is the pending one (`State.leading`).

A parser that may report a failure must not fail afterwards, for then its report would be lost.
Hence there are two rules for sequences: either the first part is silent (`Foresees.bind`), or the
second part always succeeds (`Foresees.bind_total`).
-/

namespace CrudLang

open Grammar CrudLang.Parser

/-- The failure that counts: the first one reported, or the pending one if there is none. -/
def State.leading (s : State) : Option Failure :=
  s.reported.head?.or s.pending

namespace State

variable {s t : State}

/-- While nothing has been reported, the pending failure counts. -/
theorem leading_of_nil (h : s.reported = []) : s.leading = s.pending := by
  rw [leading, h]
  rfl

/-- The first failure reported counts, whatever is pending. -/
theorem leading_of_cons {f : Failure} {fs : List Failure} (h : s.reported = f :: fs) :
    s.leading = some f := by
  rw [leading, h]
  rfl

/-- Once a failure has been reported, later ones make no difference. -/
theorem leading_of_append {new : List Failure} (hs : s.reported ≠ [])
    (h : t.reported = s.reported ++ new) : t.leading = s.leading := by
  obtain ⟨f, fs, hfs⟩ := List.exists_cons_of_ne_nil hs
  rw [leading_of_cons hfs]
  exact leading_of_cons (by rw [h, hfs, List.cons_append])

end State

/-- Tokens without classes, in which every opening brace has its closing brace. -/
structure Regular (tokens : List Token) : Prop where
  classless : ∀ t ∈ tokens, t.kind ≠ .keyword .class
  closed : ∀ l ts, l :: ts <:+ tokens → l.kind = .punctuator .leftBrace →
    ∃ after, afterClosing 0 ts = some after

/-- What is left of regular tokens is regular. -/
theorem Regular.suffix {tokens rest : List Token} (h : Regular tokens) (hrest : rest <:+ tokens) :
    Regular rest where
  classless t ht := h.classless t (hrest.subset ht)
  closed l ts hl := h.closed l ts (hl.trans hrest)

namespace Parser

/-- The parser always succeeds. -/
def Total {α : Type} (p : Parser α) : Prop :=
  ∀ s, ∃ v t, p s = .ok v t

/-- The parser takes tokens off the input and reports failures behind those already reported. -/
def Extends {α : Type} (p : Parser α) : Prop :=
  Ensures p fun _ _ _ _ => True

section Total

variable {α β : Type} {p : Parser α} {f : α → Parser β}

/-- A value is read without reading anything. -/
theorem Total.pure (a : α) : Total (Pure.pure a : Parser α) :=
  fun s => ⟨a, s, rfl⟩

/-- A sequence of readers that always succeed always succeeds. -/
theorem Total.bind (hp : Total p) (hf : ∀ a, Total (f a)) : Total (p >>= f) :=
  fun s => exists_bind_eq_ok (hp s) fun a t => hf a t

/-- Something that may be missing is read successfully even if it is missing. -/
theorem Total.optional (p : Parser α) : Total (optional p) :=
  exists_optional_eq_ok p

/-- A repetition ends with the first failure, so it always succeeds. -/
theorem Total.many (hp : Consumes p) : Total (many p) := fun s => by
  obtain ⟨vs, t, -, -, hvs, -⟩ := exists_many_eq_ok hp s
  exact ⟨vs, t, hvs⟩

/-- A reader of something that its tokens spell takes tokens off and only adds reports. -/
theorem Extends.of_spells {P : α → List TokenKind → List TokenKind → Nat → Prop}
    (h : Spells p P) : Extends p :=
  Ensures.mono h fun _ _ _ _ _ => trivial

/-- A value adds no reports. -/
theorem Extends.pure (a : α) : Extends (Pure.pure a : Parser α) :=
  Ensures.pure fun _ => trivial

/-- A sequence adds the reports of both parts. -/
theorem Extends.bind (hp : Extends p) (hf : ∀ a, Extends (f a)) : Extends (p >>= f) :=
  Ensures.bind hp fun a _ _ => (hf a).mono fun _ _ _ _ _ _ => trivial

/-- A token adds no reports. -/
theorem Extends.token (kind : TokenKind) : Extends (token kind) :=
  .of_spells (.token kind)

/-- A repetition adds the reports of all rounds. -/
theorem Extends.many (hp : Extends p) : Extends (many p) :=
  Ensures.many (P := fun _ _ _ _ => True) hp (fun _ => trivial) fun _ _ _ _ _ _ _ _ _ => trivial

/-- Something between two tokens adds its own reports. -/
theorem Extends.between {left right : Punctuator} (hp : Extends p) :
    Extends (between left right p) := by
  refine (Extends.token _).bind fun _ => ?_
  refine hp.bind fun _ => ?_
  refine (Extends.token _).bind fun _ => ?_
  exact .pure _

/-- Something that may be missing adds its own reports or none. -/
theorem Extends.optional (hp : Extends p) : Extends (optional p) :=
  Ensures.optional (hp.mono fun _ _ _ _ _ => trivial) fun _ => trivial

end Total

/-- From here less than `n` tokens are left. Nothing has been reported, the pending failure is at a
place with the property `K`, and so is every place up to which what is read has the property
`Pre`. -/
structure Outlook (n : Nat) (Pre : List TokenKind → Prop) (K : List Token → Prop) (s : State) :
    Prop where
  size : s.rest.size < n
  regular : Regular s.rest.tokens
  quiet : s.reported = []
  pending : ∀ f, s.pending = some f → K f.rest.tokens
  allows : ∀ read rest, s.rest.tokens = read ++ rest → Pre (kindsOf read) → K rest

/-- The places up to which what is read has the property `Pre` are the only ones where the parser
notes a failure. -/
structure Foresees (n : Nat) {α : Type} (p : Parser α) (Pre : List TokenKind → Prop) : Prop where
  ok : ∀ K s v t, Outlook n Pre K s → p s = .ok v t → ∀ f, t.leading = some f → K f.rest.tokens
  fail : ∀ K s f, Outlook n Pre K s → p s = .fail f → K f.rest.tokens

namespace Outlook

variable {n m : Nat} {Pre Pre' : List TokenKind → Prop} {K : List Token → Prop} {s t : State}

/-- An outlook for some beginnings is one for fewer of them. -/
theorem mono (h : Outlook n Pre K s) (hPre : ∀ ts, Pre' ts → Pre ts) : Outlook n Pre' K s :=
  { h with allows := fun read rest hread hts => h.allows read rest hread (hPre _ hts) }

/-- What is noted where reading goes on is where it may be. -/
theorem note (h : Outlook n Pre K s) (hnil : Pre []) (e : Expectation) :
    K (Failure.note s.pending s.rest e).rest.tokens := by
  rcases Failure.rest_note s.pending s.rest e with heq | ⟨f, hf, heq⟩ <;> rw [heq]
  · exact h.allows [] _ rfl hnil
  · exact h.pending f hf

/-- The outlook behind what has been read. -/
theorem next (h : Outlook n Pre K s) {read : List Token}
    (hread : s.rest.tokens = read ++ t.rest.tokens) (hsize : t.rest.size < m)
    (hquiet : t.reported = []) (hleading : ∀ f, t.leading = some f → K f.rest.tokens)
    (hPre : ∀ us more, t.rest.tokens = us ++ more → Pre' (kindsOf us) →
      Pre (kindsOf read ++ kindsOf us)) : Outlook m Pre' K t where
  size := hsize
  regular := h.regular.suffix (hread ▸ List.suffix_append read _)
  quiet := hquiet
  pending f hf := hleading f ((State.leading_of_nil hquiet).trans hf)
  allows us more hus hts := by
    refine h.allows (read ++ us) more ?_ ?_
    · rw [hread, hus, List.append_assoc]
    · rw [kindsOf_append]
      exact hPre us more hus hts

end Outlook

namespace Foresees

variable {n m : Nat} {α β : Type} {p q : Parser α} {Pre Pre' : List TokenKind → Prop}

/-- Nothing is said of inputs of no size. -/
theorem zero : Foresees 0 p Pre where
  ok _ _ _ _ h := absurd h.size (Nat.not_lt_zero _)
  fail _ _ _ h := absurd h.size (Nat.not_lt_zero _)

/-- What is foreseen of longer inputs is foreseen of shorter ones. -/
theorem weaken (h : Foresees (n + 1) p Pre) : Foresees n p Pre where
  ok K s v t hs := h.ok K s v t { hs with size := Nat.lt_succ_of_lt hs.size }
  fail K s f hs := h.fail K s f { hs with size := Nat.lt_succ_of_lt hs.size }

/-- Failures that are noted only behind some beginnings are noted only behind more of them. -/
theorem mono (h : Foresees n p Pre) (hPre : ∀ ts, Pre ts → Pre' ts) : Foresees n p Pre' where
  ok K s v t hs := h.ok K s v t (hs.mono hPre)
  fail K s f hs := h.fail K s f (hs.mono hPre)

/-- A value is read without noting anything. -/
theorem pure (a : α) : Foresees n (Pure.pure a) Pre where
  ok K s v t hs ht f hf := by
    obtain ⟨-, rfl⟩ := of_pure_eq_ok ht
    exact hs.pending f ((State.leading_of_nil hs.quiet).symm.trans hf)
  fail _ _ _ _ hf := by cases hf

/-- A token is noted as missing only where nothing has been read. -/
theorem satisfy {read? : TokenKind → Option α} {e : Expectation} (hnil : Pre []) :
    Foresees n (satisfy read? e) Pre where
  ok K s v t hs ht f hf := by
    obtain ⟨token, -, -, hreported⟩ := of_satisfy_eq_ok ht
    rw [State.leading_of_nil (hreported.trans hs.quiet), pending_of_satisfy_eq_ok ht] at hf
    exact hs.pending f hf
  fail K s f hs hf := by
    rw [of_satisfy_eq_fail hf]
    exact hs.note hnil e

/-- The same for one kind of token. -/
theorem token {kind : TokenKind} (hnil : Pre []) : Foresees n (token kind) Pre :=
  satisfy hnil

/-- One thing after the other, where the first one is silent and leaves less than `m` tokens. -/
theorem bind_below {f : α → Parser β} {W : α → List TokenKind → Prop} (hp : Foresees n p Pre)
    (hW : Spells p (Silently W))
    (hsize : ∀ s v t, s.rest.size < n → p s = .ok v t → t.rest.size < m)
    (hf : ∀ a ts, W a ts → Foresees m (f a) fun us => Pre (ts ++ us)) :
    Foresees n (p >>= f) Pre := by
  -- the outlook behind the first part, whatever the reply of the second
  have hthen (K : List Token → Prop) (s : State) (a : α) (t : State) (hs : Outlook n Pre K s)
      (ha : p s = .ok a t) :
      ∃ ts, W a ts ∧ Outlook m (fun us => Pre (ts ++ us)) K t := by
    obtain ⟨read, new, hread, hnew, hwritten, hsilent⟩ := hW s a t ha
    obtain rfl := List.length_eq_zero_iff.1 hsilent
    rw [hs.quiet, List.append_nil] at hnew
    exact ⟨kindsOf read, hwritten, hs.next hread (hsize s a t hs.size ha) hnew
      (hp.ok K s a t hs ha) fun _ _ _ hts => hts⟩
  refine ⟨fun K s b u hs hu => ?_, fun K s e hs he => ?_⟩
  · obtain ⟨a, t, ha, hb⟩ := of_bind_eq_ok hu
    obtain ⟨ts, hts, ht⟩ := hthen K s a t hs ha
    exact (hf a ts hts).ok K t b u ht hb
  · rcases of_bind_eq_fail he with he | ⟨a, t, ha, he⟩
    · exact hp.fail K s e hs he
    · obtain ⟨ts, hts, ht⟩ := hthen K s a t hs ha
      exact (hf a ts hts).fail K t e ht he

/-- One thing after the other, where the first one is silent. -/
theorem bind {f : α → Parser β} {W : α → List TokenKind → Prop} (hp : Foresees n p Pre)
    (hW : Spells p (Silently W))
    (hf : ∀ a ts, W a ts → Foresees n (f a) fun us => Pre (ts ++ us)) :
    Foresees n (p >>= f) Pre :=
  hp.bind_below hW (fun _ _ _ hs ha => Nat.lt_of_le_of_lt (Ensures.size_le hW ha) hs) hf

/-- Behind a token there is less input. -/
theorem token_bind {kind : TokenKind} {f : Unit → Parser β} (hnil : Pre [])
    (hf : Foresees n (f ()) fun us => Pre (kind :: us)) :
    Foresees (n + 1) (Parser.token kind >>= f) Pre := by
  refine bind_below (satisfy hnil) (Spells.token kind) (fun s v t hs ht =>
    Nat.lt_of_lt_of_le (Consumes.token kind s v t ht) (Nat.le_of_lt_succ hs)) fun _ ts hts => ?_
  rw [hts]
  exact hf

/-- What always succeeds may stand behind something that reports failures. Of what is read first,
only what is read silently matters. -/
theorem bind_total_below {f : α → Parser β}
    {Q : α → List TokenKind → List TokenKind → Nat → Prop} {Then : α → List TokenKind → Prop}
    (hp : Foresees n p Pre) (hQ : Spells p Q)
    (hsize : ∀ s v t, s.rest.size < n → p s = .ok v t → t.rest.size < m)
    (hf : ∀ a, Foresees m (f a) (Then a)) (htotal : ∀ a, Total (f a)) (hext : ∀ a, Extends (f a))
    (hPre : ∀ a ts us more, Q a ts (us ++ more) 0 → Then a us → Pre (ts ++ us)) :
    Foresees n (p >>= f) Pre where
  ok K s b u hs hu g hg := by
    obtain ⟨a, t, ha, hb⟩ := of_bind_eq_ok hu
    have hleading := hp.ok K s a t hs ha
    by_cases hquiet : t.reported = []
    · obtain ⟨read, new, hread, hnew, hwritten⟩ := hQ s a t ha
      obtain rfl : new = [] := (List.append_eq_nil_iff.1 (hnew.symm.trans hquiet)).2
      -- what has been read first is followed by what is read now
      refine (hf a).ok K t b u ?_ hb g hg
      refine hs.next hread (hsize s a t hs.size ha) hquiet hleading fun us more hus hts => ?_
      refine hPre a _ _ (kindsOf more) ?_ hts
      rwa [← kindsOf_append, ← hus]
    · -- the first report stays the leading failure
      obtain ⟨-, new, -, hnew, -⟩ := hext a t b u hb
      exact hleading g ((State.leading_of_append hquiet hnew).symm.trans hg)
  fail K s e hs he := by
    rcases of_bind_eq_fail he with he | ⟨a, t, -, he⟩
    · exact hp.fail K s e hs he
    · obtain ⟨b, u, hu⟩ := htotal a t
      cases hu.symm.trans he

/-- A reader that may report failures, and behind it one that always succeeds. -/
theorem bind_total {f : α → Parser β}
    {Q : α → List TokenKind → List TokenKind → Nat → Prop} {Then : α → List TokenKind → Prop}
    (hp : Foresees n p Pre) (hQ : Spells p Q) (hf : ∀ a, Foresees n (f a) (Then a))
    (htotal : ∀ a, Total (f a)) (hext : ∀ a, Extends (f a))
    (hPre : ∀ a ts us more, Q a ts (us ++ more) 0 → Then a us → Pre (ts ++ us)) :
    Foresees n (p >>= f) Pre :=
  hp.bind_total_below hQ (fun _ _ _ hs ha => Nat.lt_of_le_of_lt (Ensures.size_le hQ ha) hs) hf
    htotal hext hPre

/-- Nothing is noted where the value is made. -/
theorem bind_pure {g : α → β} (hp : Foresees n p Pre) :
    Foresees n (p >>= fun a => Pure.pure (g a)) Pre where
  ok K s b u hs hu := by
    obtain ⟨a, t, ha, hb⟩ := of_bind_eq_ok hu
    obtain ⟨-, rfl⟩ := of_pure_eq_ok hb
    exact hp.ok K s a t hs ha
  fail K s e hs he := by
    rcases of_bind_eq_fail he with he | ⟨a, t, -, he⟩
    · exact hp.fail K s e hs he
    · cases he

/-- Only the value is changed. -/
theorem map {g : α → β} (hp : Foresees n p Pre) : Foresees n (g <$> p) Pre :=
  hp.bind_pure

/-- Each of the two alternatives starts at the same place. -/
theorem orElse (hp : Foresees n p Pre) (hq : Foresees n q Pre) : Foresees n (orElse p q) Pre := by
  -- the second alternative has the failure of the first pending
  have hsecond {K : List Token → Prop} {s : State} {f : Failure} (hs : Outlook n Pre K s)
      (hf : p s = .fail f) : Outlook n Pre K { s with pending := some f } :=
    { hs with
      pending := fun g hg => by
        obtain rfl := Option.some.inj hg
        exact hp.fail K s f hs hf }
  refine ⟨fun K s v t hs ht => ?_, fun K s e hs he => ?_⟩
  · rcases of_orElse_eq_ok ht with hv | ⟨f, hf, hv⟩
    · exact hp.ok K s v t hs hv
    · exact hq.ok K _ v t (hsecond hs hf) hv
  · obtain ⟨f, hf, he⟩ := of_orElse_eq_fail he
    exact hq.fail K _ e (hsecond hs hf) he

/-- Each of the alternatives starts at the same place. -/
theorem choice {rest : List (Parser α)} (h : ∀ q ∈ p :: rest, Foresees n q Pre) :
    Foresees n (choice p rest) Pre :=
  choice_of_forall orElse h

/-- Where something is missing, only its own failures have been noted. -/
theorem optional (hp : Foresees n p Pre) : Foresees n (optional p) Pre :=
  hp.map.orElse (pure none)

/-- The span of what is read. -/
theorem withSpan {p : Parser (Span → α)} (hp : Foresees n p Pre) :
    Foresees n (withSpan p) Pre where
  ok K s v t hs ht := by
    obtain ⟨build, hbuild, -⟩ := of_withSpan_eq_ok ht
    exact hp.ok K s build t hs hbuild
  fail K s f hs hf := hp.fail K s f hs (of_withSpan_eq_fail hf)

/-- A label changes what is expected, not up to where was read. -/
theorem labelled {c : Construct} (hp : Foresees n p Pre) : Foresees n (labelled c p) Pre := by
  have hinside {K : List Token → Prop} {s : State} (hs : Outlook n Pre K s) :
      Outlook n Pre K { s with pending := none } :=
    { hs with pending := fun f hf => by cases hf }
  refine ⟨fun K s v t hs ht f hf => ?_, fun K s f hs hf => ?_⟩
  · obtain ⟨u, hu, rfl⟩ := of_labelled_eq_ok ht
    have hleading := hp.ok K _ v u (hinside hs) hu
    cases hreported : u.reported with
    | cons r rs =>
      exact hleading f ((State.leading_of_cons hreported).trans
        ((State.leading_of_cons (by exact hreported)).symm.trans hf))
    | nil =>
      -- what is pending was pending before or inside
      have hpending := (State.leading_of_nil (by exact hreported)).symm.trans hf
      rcases rest_pendingBehind hpending with ⟨g, hg, heq⟩ | ⟨g, hg, heq⟩ <;> rw [heq]
      · exact hs.pending g hg
      · exact hleading g ((State.leading_of_nil hreported).trans hg)
  · obtain ⟨g, hg, rfl⟩ := of_labelled_eq_fail hf
    rcases Failure.rest_join s.pending (g.summarize s.rest c) with heq | ⟨e, he, heq⟩ <;> rw [heq]
    · rw [Failure.rest_summarize]
      exact hp.fail K _ g (hinside hs) hg
    · exact hs.pending e he

/-- A failure is reported where it has been noted. -/
theorem recoverWith {r : Parser α} (hp : Foresees n p Pre)
    (hr : Spells r fun _ _ _ n => n = 0) : Foresees n (recoverWith p r) Pre where
  ok K s v t hs ht e he := by
    rcases of_recoverWith_eq_ok ht with hv | ⟨f, u, hf, hu, rfl⟩
    · exact hp.ok K s v t hs hv e he
    · obtain ⟨read, new, -, hnew, hsilent⟩ := hr _ v u hu
      obtain rfl := List.length_eq_zero_iff.1 hsilent
      rw [List.append_nil, hs.quiet] at hnew
      rw [State.leading_of_cons (by rw [hnew]; rfl)] at he
      obtain rfl := Option.some.inj he
      exact hp.fail K s f hs hf
  fail K s e hs he := hp.fail K s e hs (of_recoverWith_eq_fail he)

/-- A repetition of something silent. Its rounds have read what has the property `W`. -/
theorem many {P : α → List TokenKind → Prop} {W : List TokenKind → Prop} (hconsumes : Consumes p)
    (hP : Spells p (Silently P)) (hp : ∀ ts, W ts → Foresees n p fun us => Pre (ts ++ us))
    (hW : ∀ ts v us, W ts → P v us → W (ts ++ us)) (hnil : W []) : Foresees n (many p) Pre := by
  have hbehind {ts : List TokenKind} (hts : W ts) :
      Foresees n (Parser.many p) fun us => Pre (ts ++ us) := by
    -- by induction on the input, for whatever the rounds before have read
    induction n generalizing ts with
    | zero => exact .zero
    | succ n ih =>
      rw [many_eq hconsumes]
      refine orElse (bind_below (m := n) (hp ts hts) hP (fun s v t hs ht => ?_) fun v us hv => ?_)
        (pure [])
      · exact Nat.lt_of_lt_of_le (hconsumes s v t ht) (Nat.le_of_lt_succ hs)
      · have hmore := ih (fun ts hts => (hp ts hts).weaken) (hW ts v us hts hv)
        refine bind_pure (hmore.mono fun vs hvs => ?_)
        rwa [List.append_assoc] at hvs
  exact hbehind hnil

end Foresees

end Parser

end CrudLang
