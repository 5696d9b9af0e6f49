import CrudLang.Proofs.Parser.Ensures

/-!
# What values are drawn from

`Draws tokens p V` says of the values that `p` reads from an input within a list of tokens that they
satisfy `V`. In contrast to `Parser.Ensures` neither the tokens read nor their order matters, only
where they come from. There is one rule for each combinator.
-/

namespace CrudLang.Parser

variable {α β : Type} {tokens : List Token}

/-- What `p` reads from an input within `tokens` satisfies `V`, and the input behind it is within
`tokens` too. -/
def Draws (tokens : List Token) (p : Parser α) (V : α → Prop) : Prop :=
  ∀ s v t, p s = .ok v t → s.rest.tokens ⊆ tokens → t.rest.tokens ⊆ tokens ∧ V v

namespace Draws

variable {p q : Parser α} {V W : α → Prop}

/-- What a parser ensures of a value and the tokens read may be all that is needed. -/
theorem of_ensures {Q : α → List Token → List Token → List Failure → Prop} (h : Ensures p Q)
    (hV : ∀ v read rest new, read ⊆ tokens → Q v read rest new → V v) : Draws tokens p V := by
  intro s v t hs hsub
  obtain ⟨read, new, hread, -, hQ⟩ := h s v t hs
  rw [hread] at hsub
  have hsub := List.append_subset.1 hsub
  exact ⟨hsub.2, hV v read _ new hsub.1 hQ⟩

/-- What is drawn may be said more weakly. -/
theorem mono (h : Draws tokens p V) (hVW : ∀ v, V v → W v) : Draws tokens p W :=
  fun s v t hs hsub => (h s v t hs hsub).imp_right (hVW v)

/-- Reading nothing. -/
theorem pure {a : α} (h : V a) : Draws tokens (Pure.pure a) V := by
  intro s v t hs hsub
  obtain ⟨rfl, rfl⟩ := of_pure_eq_ok hs
  exact ⟨hsub, h⟩

/-- Reading one thing after the other. -/
theorem bind {f : α → Parser β} {W : β → Prop} (hp : Draws tokens p V)
    (hf : ∀ a, V a → Draws tokens (f a) W) : Draws tokens (p >>= f) W := by
  intro s v u hs hsub
  obtain ⟨a, t, ha, hv⟩ := of_bind_eq_ok hs
  obtain ⟨hrest, hVa⟩ := hp s a t ha hsub
  exact hf a hVa t v u hv hrest

/-- A function of what is read. -/
theorem map {g : α → β} {W : β → Prop} (h : Draws tokens p fun a => W (g a)) :
    Draws tokens (g <$> p) W := by
  refine bind h fun a ha => ?_
  exact pure ha

/-- Reading a token whose value is of no interest. -/
theorem token (kind : TokenKind) : Draws tokens (token kind) fun _ => True :=
  .of_ensures (Ensures.token kind) fun _ _ _ _ _ _ => trivial

/-- The second parser where the first one fails. -/
theorem orElse (hp : Draws tokens p V) (hq : Draws tokens q V) : Draws tokens (orElse p q) V := by
  intro s v t hs hsub
  rcases of_orElse_eq_ok hs with h | ⟨f, -, h⟩
  · exact hp s v t h hsub
  · exact hq _ v t h hsub

/-- The first of several parsers that succeeds. -/
theorem choice {rest : List (Parser α)} (h : ∀ q ∈ p :: rest, Draws tokens q V) :
    Draws tokens (choice p rest) V :=
  choice_of_forall orElse h

/-- A value if there is one. -/
theorem optional (h : Draws tokens p V) :
    Draws tokens (optional p) fun value => ∀ v ∈ value, V v := by
  have hsome : Draws tokens (some <$> p) fun value => ∀ v ∈ value, V v :=
    map (h.mono fun a ha v hv => Option.some.inj hv ▸ ha)
  exact orElse hsome (pure fun v hv => nomatch hv)

/-- A value that is told its span. -/
theorem withSpan {p : Parser (Span → α)} (h : Draws tokens p fun build => ∀ span, V (build span)) :
    Draws tokens (withSpan p) V := by
  intro s v t hs hsub
  obtain ⟨build, hbuild, rfl⟩ := of_withSpan_eq_ok hs
  exact (h s build t hbuild hsub).imp_right fun hV => hV _

/-- A name for what is expected makes no difference. -/
theorem labelled {c : Construct} (h : Draws tokens p V) : Draws tokens (labelled c p) V := by
  intro s v t hs hsub
  unfold Parser.labelled at hs
  split at hs
  next => cases hs
  next w u hu =>
    have hV := h _ w u hu hsub
    split at hs <;> obtain ⟨rfl, rfl⟩ := Reply.ok.inj hs <;> exact hV

/-- What is read to recover is drawn from the same tokens. -/
theorem recoverWith (hp : Draws tokens p V) (hq : Draws tokens q V) :
    Draws tokens (recoverWith p q) V := by
  intro s v t hs hsub
  rcases of_recoverWith_eq_ok hs with h | ⟨f, t', -, h, rfl⟩
  · exact hp s v t h hsub
  · exact hq _ v t' h hsub

/-- What is drawn depends on how a parser answers at each place alone. -/
theorem isLocal : Local fun p => Draws tokens p V := by
  intro p h s
  obtain ⟨q, hq, heq⟩ := h s.rest
  rw [heq s rfl]
  exact hq s

/-- A recursive definition draws what its body draws of every parser that draws it. -/
theorem fix {body : Parser α → Parser α} (hbody : ∀ p, Draws tokens p V → Draws tokens (body p) V) :
    Draws tokens (fix body) V :=
  isLocal.fix (fun _ _ _ h => nomatch h) hbody

/-- As many values as there are. -/
theorem many (h : Draws tokens p V) : Draws tokens (many p) fun values => ∀ v ∈ values, V v := by
  refine fix fun more hmore => orElse ?_ (pure (List.forall_mem_nil _))
  refine bind h fun v hv => ?_
  refine bind hmore fun vs hvs => ?_
  exact pure (List.forall_mem_cons.2 ⟨hv, hvs⟩)

/-- What stands between two punctuators. -/
theorem between {left right : Punctuator} (h : Draws tokens p V) :
    Draws tokens (between left right p) V := by
  refine bind (token _) fun _ _ => ?_
  refine bind h fun v hv => ?_
  refine bind (token _) fun _ _ => ?_
  exact pure hv

/-- Items with commas between them, in parentheses. -/
theorem items (h : Draws tokens p V) :
    Draws tokens (Parser.between .leftParen .rightParen (separated p (punctuator .comma)))
      fun values => ∀ v ∈ values, V v := by
  refine between (orElse ?_ (pure (List.forall_mem_nil _)))
  refine bind h fun first hfirst => ?_
  refine bind (many (bind (token _) fun _ _ => h)) fun others hothers => ?_
  refine bind (optional (token _)) fun _ _ => ?_
  exact pure (List.forall_mem_cons.2 ⟨hfirst, hothers⟩)

/-- Operands that are combined from left to right. -/
theorem chainLeft {operator : Parser β} {combine : α → β → α → α} (h : Draws tokens p V)
    (hoperator : Draws tokens operator fun _ => True)
    (hcombine : ∀ a op b, V a → V b → V (combine a op b)) :
    Draws tokens (chainLeft p operator combine) V := by
  have hothers : Draws tokens
      (Parser.many (do let op ← operator; let right ← p; Pure.pure (op, right)))
      fun others => ∀ other ∈ others, V other.2 := by
    refine many (bind hoperator fun op _ => ?_)
    exact bind h fun right hright => pure hright
  refine bind h fun first hfirst => ?_
  refine bind hothers fun others hothers => ?_
  refine pure ?_
  induction others generalizing first with
  | nil => exact hfirst
  | cons other others ih =>
    obtain ⟨hother, hothers⟩ := List.forall_mem_cons.1 hothers
    exact ih _ (hcombine _ _ _ hfirst hother) hothers

end Draws

end CrudLang.Parser
