import CrudLang.Proofs.Isolation.Hole

/-!
# Exchanging a block

`Grammar.statementWith n` reads statements of the grammar, but the block that begins where `n`
tokens are left may be taken for another one. Whatever is read is then either the same for all
blocks, or it is a tree with a hole in which the block is put: `Frames` says so of a reader, given
what is known of the tree. The combinators preserve it.

The failures that are reported inside the block stand between those that belong to the statements
before the hole and to the statements behind it.
-/

namespace CrudLang

/-- Reads by `p`, but returns another value and reports nothing. -/
def Parser.replacedBy {α : Type} (value : α) (p : Parser α) : Parser α := fun s =>
  match p s with
  | .ok _ t => .ok value { t with reported := s.reported }
  | .fail f => .fail f

section Both

variable {α β γ : Type} {p : Parser α} {q : Parser β} {g : α → β → γ}
variable {s t u : State} {v : α} {w : β}

/-- Two parsers one after the other, of whose values something is made. -/
theorem Parser.both_eq_ok (hp : p s = .ok v t) (hq : q t = .ok w u) :
    (p >>= fun v => q >>= fun w => pure (g v w)) s = .ok (g v w) u := by
  rw [bind_apply, hp]
  dsimp only
  rw [bind_apply, hq]
  rfl

theorem Parser.both_eq_fail {f : Failure} (hp : p s = .ok v t) (hq : q t = .fail f) :
    (p >>= fun v => q >>= fun w => pure (g v w)) s = .fail f := by
  rw [bind_apply, hp]
  dsimp only
  rw [bind_apply, hq]

end Both

namespace Grammar

open CrudLang.Parser

/-- Reads a block by `p` where `n` tokens are left, and elsewhere as a block of the grammar. -/
def blockOr (n : Nat) (p : Parser (Block Stmt)) (stmt : Parser Stmt) : Parser (Block Stmt) :=
  fun s => if s.rest.size = n then p s else strictBlock stmt s

/-- Reads a block as it is, or takes it for another one. -/
def takenBlock : Option (Block Stmt) → Parser (Block Stmt)
  | none => strictBlock statement
  | some body => (strictBlock statement).replacedBy body

/-- A statement, where the block that begins `n` tokens before the end may be taken for another
one. -/
def statementWith (n : Nat) (taken : Option (Block Stmt)) : Parser Stmt :=
  statementBy (blockOr n (takenBlock taken))

theorem isBlockGuarded_blockOr {n : Nat} {p : Parser (Block Stmt)}
    (hp : ∀ m, AgreeBelow m p p) : IsBlockGuarded (blockOr n p) := by
  intro m stmt stmt' hstmt s hs
  unfold blockOr
  split
  · exact hp _ s hs
  · exact isBlockGuarded_strictBlock m stmt stmt' hstmt s hs

theorem agreeBelow_takenBlock (taken : Option (Block Stmt)) (m : Nat) :
    AgreeBelow m (takenBlock taken) (takenBlock taken) := by
  have hblock : AgreeBelow m (strictBlock statement) (strictBlock statement) :=
    .of_spells (spells_strictBlock spells_statement)
  cases taken with
  | none => exact hblock
  | some body =>
    refine fun s hs => ⟨rfl, fun v t ht => ?_⟩
    rw [takenBlock, replacedBy] at ht
    split at ht
    next u hu =>
      obtain ⟨-, rfl⟩ := Reply.ok.inj ht
      exact (hblock s hs).2 _ u hu
    next => cases ht

/-- The equation for statements of which one block may be exchanged. -/
theorem statementWith_eq (n : Nat) (taken : Option (Block Stmt)) : statementWith n taken =
    statementStep (blockOr n (takenBlock taken) (statementWith n taken)) :=
  statementBy_eq (isBlockGuarded_blockOr (agreeBelow_takenBlock taken))

/-- Without an exchange, statements are read as usual. -/
theorem statementWith_none (n : Nat) : statementWith n none = statement := by
  have hguarded := isBlockGuarded_blockOr (n := n) (agreeBelow_takenBlock none)
  refine (eq_fix_of_eq (isGuarded_statementStep hguarded) ?_).symm
  -- both ways to read a block are the same
  have hsame : blockOr n (takenBlock none) statement = strictBlock statement := by
    funext s
    unfold blockOr
    split
    · rfl
    · rfl
  rw [hsame]
  exact statement_eq

namespace Hole

variable (H : Hole)

/-- The failures that are reported inside the block, unless it is exchanged. -/
def reports : Option (Block Stmt) → List Failure
  | none => H.inside
  | some _ => []

/-- The input ends with the hole, or it begins behind the opening brace. -/
def Fits (rest : Input) : Prop :=
  H.input.tokens <:+ rest.tokens ∨ rest.tokens <:+ H.input.tokens

variable {H}

theorem Fits.of_suffix {rest rest' : Input} (h : H.Fits rest)
    (hsuffix : rest'.tokens <:+ rest.tokens) : H.Fits rest' := by
  rcases h with h | h
  · exact List.suffix_or_suffix_of_suffix h hsuffix
  · exact .inr (hsuffix.trans h)

theorem Fits.eq_input {rest : Input} (h : H.Fits rest) (hsize : rest.size = H.input.size) :
    rest = H.input := by
  have hlength : rest.tokens.length = H.input.tokens.length := by
    rw [rest.size_eq, H.input.size_eq, hsize]
  refine Input.ext ?_
  rcases h with h | h
  · exact (h.eq_of_length hlength.symm).symm
  · exact h.eq_of_length hlength

end Hole

section Frames

variable (H : Hole) {α β γ : Type}

/-- A property of values with a hole, the tokens before the hole, and the numbers of failures before
and behind it. -/
def Holed (α : Type) : Type :=
  (Block Stmt → α) → List TokenKind → Nat → Nat → Prop

/-- The same property of values that still lack their span. -/
def Holed.spanned {α : Type} (A : Holed α) : Holed (Span → α) := fun V ts m n =>
  ∀ span, A (fun b => V b span) ts m n

/-- What a reader does at a place, for all blocks that the hole may be filled with: it fails, it
reads the same value, or it reads a value with the hole inside. -/
inductive Framed (A : Holed α) (p : Option (Block Stmt) → Parser α) (rest : Input)
    (pending : Option Failure) : Prop
  | fails (f : Failure) (h : ∀ taken R, p taken ⟨rest, pending, R⟩ = .fail f)
  | same (v : α) (rest' : Input) (pending' : Option Failure) (new : List Failure)
      (hrest : rest'.tokens <:+ rest.tokens)
      (h : ∀ taken R, p taken ⟨rest, pending, R⟩ = .ok v ⟨rest', pending', R ++ new⟩)
  | around (V : Block Stmt → α) (rest' : Input) (pending' : Option Failure)
      (before after : List Failure) (ts : List Token) (hts : rest.tokens = ts ++ H.input.tokens)
      (hrest : rest'.tokens <:+ H.behind.tokens)
      (h : ∀ taken R, p taken ⟨rest, pending, R⟩ =
        .ok (V (taken.getD H.body)) ⟨rest', pending', R ++ (before ++ H.reports taken ++ after)⟩)
      (hA : A V (kindsOf ts) before.length after.length)

/-- Wherever the reader begins, it does the same for all blocks, up to the block in the hole. -/
def Frames (A : Holed α) (p : Option (Block Stmt) → Parser α) : Prop :=
  ∀ rest pending, H.Fits rest → Framed H A p rest pending

variable {H} {A : Holed α} {p q : Option (Block Stmt) → Parser α}

/-- Behind the hole there is no place for another one. -/
theorem Hole.not_around {rest : Input} {ts : List Token}
    (hrest : rest.tokens <:+ H.behind.tokens) : rest.tokens ≠ ts ++ H.input.tokens := by
  intro h
  have hbehind := hrest.length_le
  have hless := H.less
  rw [h, List.length_append, H.input.size_eq, H.behind.size_eq] at hbehind
  omega

theorem Framed.congr {rest : Input} {pending₁ pending₂ : Option Failure}
    (h : Framed H A p rest pending₁)
    (heq : ∀ taken R, q taken ⟨rest, pending₂, R⟩ = p taken ⟨rest, pending₁, R⟩) :
    Framed H A q rest pending₂ := by
  cases h with
  | fails f h => exact .fails f fun taken R => (heq taken R).trans (h taken R)
  | same v rest' pending' new hrest h =>
    exact .same v rest' pending' new hrest fun taken R => (heq taken R).trans (h taken R)
  | around V rest' pending' before after ts hts hrest h hA =>
    exact .around V rest' pending' before after ts hts hrest
      (fun taken R => (heq taken R).trans (h taken R)) hA

namespace Frames

theorem mono {B : Holed α} (hp : Frames H A p) (h : ∀ V ts m n, A V ts m n → B V ts m n) :
    Frames H B p := by
  intro rest pending hfits
  cases hp rest pending hfits with
  | fails f h => exact .fails f h
  | same v rest' pending' new hrest h => exact .same v rest' pending' new hrest h
  | around V rest' pending' before after ts hts hrest hp hA =>
    exact .around V rest' pending' before after ts hts hrest hp (h _ _ _ _ hA)

/-- A reader of anything but blocks. -/
theorem of_steady {p : Parser α} {P : α → List TokenKind → List TokenKind → Nat → Prop}
    (hp : Steady p) (hspells : Spells p P) : Frames H A fun _ => p := by
  intro rest pending _
  rcases hp rest pending with ⟨f, hf⟩ | ⟨v, rest', pending', new, hv⟩
  · exact .fails f fun _ => hf
  · obtain ⟨read, -, hread, -⟩ := hspells _ v _ (hv [])
    exact .same v rest' pending' new ⟨read, hread.symm⟩ fun _ => hv

/-- First something that holds no block, then something that may be with a hole. -/
theorem bind {p : Parser β} {P : β → List TokenKind → Prop} (hp : Steady p)
    (hspells : Spells p (Silently P)) {f : β → Option (Block Stmt) → Parser α}
    (hf : ∀ b ts, P b ts → Frames H (fun V us m n => A V (ts ++ us) m n) (f b)) :
    Frames H A fun taken => p >>= fun b => f b taken := by
  intro rest pending hfits
  rcases hp rest pending with ⟨e, he⟩ | ⟨b, rest', pending', new, hb⟩
  · exact .fails e fun taken R => by rw [bind_apply, he]
  obtain ⟨read, new', hread, hnew, hP, hsilent⟩ := hspells _ b _ (hb [])
  obtain rfl : new = [] := by
    rw [List.length_eq_zero_iff.1 hsilent] at hnew
    simpa using hnew
  have hsuffix : rest'.tokens <:+ rest.tokens := ⟨read, hread.symm⟩
  -- the second reader begins where the first one ended
  have hsecond (taken : Option (Block Stmt)) (R : List Failure) :
      (p >>= fun b => f b taken) ⟨rest, pending, R⟩ = f b taken ⟨rest', pending', R⟩ := by
    rw [bind_apply, hb]
    simp
  cases hf b (kindsOf read) hP rest' pending' (hfits.of_suffix hsuffix) with
  | fails e he => exact .fails e fun taken R => (hsecond taken R).trans (he taken R)
  | same v rest'' pending'' new hrest hv =>
    exact .same v rest'' pending'' new (hrest.trans hsuffix) fun taken R =>
      (hsecond taken R).trans (hv taken R)
  | around V rest'' pending'' before after ts hts hrest hv hA =>
    refine .around V rest'' pending'' before after (read ++ ts) ?_ hrest
      (fun taken R => (hsecond taken R).trans (hv taken R)) ?_
    · rw [hread, hts, List.append_assoc]
    · rwa [kindsOf_append]

theorem pure (v : α) : Frames H A fun _ => (Pure.pure v : Parser α) :=
  .of_steady (.pure v) (Spells.pure_silently (P := fun _ _ => True) trivial)

/-- Makes something of what was read. -/
theorem map {g : α → β} {p : Option (Block Stmt) → Parser α} {A : Holed β}
    (hp : Frames H (fun V => A fun b => g (V b)) p) :
    Frames H A fun taken => p taken >>= fun v => Pure.pure (g v) := by
  intro rest pending hfits
  cases hp rest pending hfits with
  | fails f h => exact .fails f fun taken R => by rw [bind_apply, h]
  | same v rest' pending' new hrest h =>
    exact .same (g v) rest' pending' new hrest fun taken R => by rw [bind_apply, h]; rfl
  | around V rest' pending' before after ts hts hrest h hA =>
    exact .around (fun b => g (V b)) rest' pending' before after ts hts hrest
      (fun taken R => by rw [bind_apply, h]; rfl) hA

/-- Two parts, of which one may be with a hole: the failures of the other part are before the hole
or behind it. -/
theorem bind₂ {A : Holed α} {B : Holed β} {C : Holed γ} {g : α → β → γ}
    {p : Option (Block Stmt) → Parser α} {q : Option (Block Stmt) → Parser β}
    {P : α → List TokenKind → List TokenKind → Nat → Prop}
    {Q : β → List TokenKind → List TokenKind → Nat → Prop}
    (hp : Frames H A p) (hP : Spells (p none) P) (hq : Frames H B q) (hQ : Spells (q none) Q)
    (hfirst : ∀ V ts m n v us vs k, A V ts m n → Q v us vs k →
      C (fun b => g (V b) v) ts m (n + k))
    (hsecond : ∀ v us k V ts m n, P v us (ts ++ kindsOf H.input.tokens) k → B V ts m n →
      C (fun b => g v (V b)) (us ++ ts) (k + m) n) :
    Frames H C fun taken => p taken >>= fun v => q taken >>= fun w => Pure.pure (g v w) := by
  intro rest pending hfits
  -- the hole is in the first part, in the second one or in neither
  cases hp rest pending hfits with
  | fails f h => exact .fails f fun taken R => by rw [bind_apply, h]
  | same v rest' pending' new hrest h =>
    obtain ⟨read, new', hread, hnew, hv⟩ := hP _ v _ (h none [])
    obtain rfl : new' = new := by simpa using hnew.symm
    cases hq rest' pending' (hfits.of_suffix hrest) with
    | fails f h' => exact .fails f fun taken R => both_eq_fail (h taken R) (h' taken _)
    | same w rest'' pending'' new'' hrest'' h' =>
      refine .same (g v w) rest'' pending'' (new' ++ new'') (hrest''.trans hrest) fun taken R => ?_
      rw [both_eq_ok (h taken R) (h' taken _), List.append_assoc]
    | around V rest'' pending'' before after ts hts hrest'' h' hB =>
      refine .around (fun b => g v (V b)) rest'' pending'' (new' ++ before) after (read ++ ts) ?_
        hrest'' (fun taken R => ?_) ?_
      · rw [hread, hts, List.append_assoc]
      · rw [both_eq_ok (h taken R) (h' taken _)]
        simp only [List.append_assoc]
      · rw [kindsOf_append, List.length_append]
        refine hsecond v _ _ V _ _ _ ?_ hB
        rwa [← kindsOf_append, ← hts]
  | around V rest' pending' before after ts hts hrest h hA =>
    cases hq rest' pending' (.inr (hrest.trans H.suffix)) with
    | fails f h' => exact .fails f fun taken R => both_eq_fail (h taken R) (h' taken _)
    | same w rest'' pending'' new hrest'' h' =>
      obtain ⟨read, new', hread, hnew, hw⟩ := hQ _ w _ (h' none [])
      obtain rfl : new' = new := by simpa using hnew.symm
      refine .around (fun b => g (V b) w) rest'' pending'' before (after ++ new') ts hts
        (hrest''.trans hrest) (fun taken R => ?_) ?_
      · rw [both_eq_ok (h taken R) (h' taken _)]
        simp only [List.append_assoc]
      · rw [List.length_append]
        exact hfirst V _ _ _ w _ _ _ hA hw
    | around _ _ _ _ _ _ hts' _ _ _ => exact absurd hts' (Hole.not_around hrest)

theorem orElse (hp : Frames H A p) (hq : Frames H A q) :
    Frames H A fun taken => Parser.orElse (p taken) (q taken) := by
  intro rest pending hfits
  cases hp rest pending hfits with
  | fails f h =>
    exact (hq rest (some f) hfits).congr fun taken R => by rw [Parser.orElse, h]
  | same v rest' pending' new hrest h =>
    exact .same v rest' pending' new hrest fun taken R => by rw [Parser.orElse, h]
  | around V rest' pending' before after ts hts hrest h hA =>
    exact .around V rest' pending' before after ts hts hrest
      (fun taken R => by rw [Parser.orElse, h]) hA

theorem withSpan {p : Option (Block Stmt) → Parser (Span → α)}
    (hp : Frames H A.spanned p) : Frames H A fun taken => Parser.withSpan (p taken) := by
  intro rest pending hfits
  cases hp rest pending hfits with
  | fails f h => exact .fails f fun taken R => by rw [Parser.withSpan, h]
  | same build rest' pending' new hrest h =>
    exact .same (build (spanOfRun (rest.tokens.take (rest.size - rest'.size)))) rest' pending' new
      hrest fun taken R => by rw [Parser.withSpan, h]
  | around V rest' pending' before after ts hts hrest h hA =>
    exact .around (fun b => V b (spanOfRun (rest.tokens.take (rest.size - rest'.size)))) rest'
      pending' before after ts hts hrest (fun taken R => by rw [Parser.withSpan, h]) (hA _)

theorem labelled {c : Construct} (hp : Frames H A p) :
    Frames H A fun taken => Parser.labelled c (p taken) := by
  intro rest pending hfits
  cases hp rest none hfits with
  | fails f h =>
    exact .fails (.join pending (f.summarize rest c)) fun taken R => by rw [Parser.labelled, h]
  | same v rest' pending' new hrest h =>
    exact .same v rest' (pendingBehind pending rest c pending') new hrest fun taken R =>
      labelled_eq_ok (s := ⟨rest, pending, R⟩) (h taken R)
  | around V rest' pending' before after ts hts hrest h hA =>
    exact .around V rest' (pendingBehind pending rest c pending') before after ts hts hrest
      (fun taken R => labelled_eq_ok (s := ⟨rest, pending, R⟩) (h taken R)) hA

/-- What cannot be read is skipped, so it is the same for all blocks. -/
theorem recoverWith {r : Parser α} {P : α → List TokenKind → List TokenKind → Nat → Prop}
    (hp : Frames H A p) (hr : Steady r) (hP : Spells r P) :
    Frames H A fun taken => Parser.recoverWith (p taken) r := by
  intro rest pending hfits
  cases hp rest pending hfits with
  | fails f h =>
    -- the recovery does not see the block, so it goes the same way for all of them
    rcases hr rest none with ⟨f', hf'⟩ | ⟨v, rest', pending', new, hv⟩
    · exact .fails f fun taken R => by rw [Parser.recoverWith, h]; dsimp only; rw [hf']
    · obtain ⟨read, -, hread, -⟩ := hP _ v _ (hv [])
      refine .same v rest' pending' (new ++ [f]) ⟨read, hread.symm⟩ fun taken R => ?_
      rw [Parser.recoverWith, h]
      dsimp only
      rw [hv, ← List.append_assoc]
  | same v rest' pending' new hrest h =>
    exact .same v rest' pending' new hrest fun taken R => by rw [Parser.recoverWith, h]
  | around V rest' pending' before after ts hts hrest h hA =>
    exact .around V rest' pending' before after ts hts hrest
      (fun taken R => by rw [Parser.recoverWith, h]) hA

/-- A recursion calls itself on shorter inputs. -/
theorem fix {body : Option (Block Stmt) → Parser α → Parser α}
    {P : α → List TokenKind → List TokenKind → Nat → Prop}
    (hP : Spells (Parser.fix (body none)) P)
    (hbody : ∀ p, Frames H A p → Spells (p none) P → Frames H A fun taken => body taken (p taken)) :
    Frames H A fun taken => Parser.fix (body taken) := by
  intro rest
  generalize hsize : rest.size = size
  induction size using Nat.strongRecOn generalizing rest with
  | ind size ih =>
    intro pending hfits
    -- on an input that is not shorter, the recursive call fails for all blocks
    have hbelow : Frames H A fun taken => below size (Parser.fix (body taken)) := by
      intro rest' pending' hfits'
      by_cases hless : rest'.size < size
      · exact (ih rest'.size hless rest' rfl pending' hfits').congr fun taken R => if_pos hless
      · exact .fails ⟨rest', []⟩ fun taken R => if_neg hless
    have hbelowP : Spells (below size (Parser.fix (body none))) P := by
      intro s v t hs
      by_cases hless : s.rest.size < size
      · exact hP s v t ((if_pos hless).symm.trans hs)
      · cases (if_neg hless).symm.trans hs
    refine (hbody _ hbelow hbelowP rest pending hfits).congr fun taken R => ?_
    rw [fix_apply]
    subst hsize
    rfl

/-- Items one behind the other, of which one may be with a hole. -/
theorem many {L : Holed (List α)} {P : α → List TokenKind → List TokenKind → Nat → Prop}
    {Q : List α → List TokenKind → List TokenKind → Nat → Prop}
    (hp : Frames H A p) (hP : Spells (p none) P) (hQ : Spells (Parser.many (p none)) Q)
    (hhead : ∀ V ts m n vs us rest k, A V ts m n → Q vs us rest k →
      L (fun b => V b :: vs) ts m (n + k))
    (htail : ∀ v us k V ts m n, P v us (ts ++ kindsOf H.input.tokens) k → L V ts m n →
      L (fun b => v :: V b) (us ++ ts) (k + m) n) :
    Frames H L fun taken => Parser.many (p taken) := by
  refine .fix hQ fun _ hmore hmoreQ => ?_
  exact .orElse (.bind₂ hp hP hmore hmoreQ hhead htail) (.pure [])

end Frames

end Frames

end Grammar

end CrudLang
