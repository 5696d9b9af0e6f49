import CrudLang.Token.Basic

/-!
# The grammar in extended Backus-Naur form

The grammar as a table: `Rule.body` gives the right-hand side of each rule, in terms of tokens,
other rules, sequences, alternatives, repetitions and optional parts. `Derives e ts rest` says that
`e` derives the tokens `ts` where `rest` stands behind them.

The grammar leaves open whether a statement on stored data takes the arguments that stand behind
it; `Ebnf.notBefore` says that it does: without arguments, no parenthesis may follow.
-/

namespace CrudLang

/-- The rules of the grammar. -/
inductive Rule where
  | program
  | stmt
  | varDecl
  | constDecl
  | funcDef
  | classDef
  | ifStmt
  | loopStmt
  | whileStmt
  | crudStmt
  | returnStmt
  | block
  | expr
  | or
  | and
  | equality
  | comparison
  | sum
  | product
  | unary
  | atom
  | args
deriving DecidableEq, Repr

/-- A right-hand side of the grammar. -/
inductive Ebnf where
  /-- One particular token. -/
  | token (kind : TokenKind)
  /-- Any identifier. -/
  | identifier
  /-- Any number. -/
  | number
  /-- Any string. -/
  | string
  /-- A rule by its name. -/
  | rule (name : Rule)
  /-- One thing after the other. -/
  | seq (first second : Ebnf)
  /-- One thing or the other. -/
  | alt (first second : Ebnf)
  /-- Any number of times. -/
  | star (item : Ebnf)
  /-- Once or not at all. -/
  | opt (item : Ebnf)
  /-- Nothing, but not in front of the token. -/
  | notBefore (kind : TokenKind)
deriving DecidableEq

namespace Ebnf

instance : Append Ebnf := ⟨seq⟩

instance : OrOp Ebnf := ⟨alt⟩

/-- A keyword. -/
def word (k : Keyword) : Ebnf :=
  token (.keyword k)

/-- A punctuator. -/
def sign (p : Punctuator) : Ebnf :=
  token (.punctuator p)

/-- Items with commas between them and maybe one behind the last, between parentheses. -/
def list (item : Ebnf) : Ebnf :=
  sign .leftParen ++ opt (item ++ star (sign .comma ++ item) ++ opt (sign .comma)) ++
    sign .rightParen

/-- The alternatives of a right-hand side. -/
def alternatives : Ebnf → List Ebnf
  | alt first second => first.alternatives ++ [second]
  | e => [e]

end Ebnf

open Ebnf in
/-- The right-hand side of each rule. -/
def Rule.body : Rule → Ebnf
  | .program => star (rule .stmt)
  | .stmt =>
    (rule .varDecl ||| rule .constDecl ||| rule .funcDef ||| rule .classDef ||| rule .ifStmt |||
      rule .loopStmt ||| rule .whileStmt ||| rule .crudStmt ||| rule .returnStmt ||| rule .block |||
      rule .expr) ++ opt (sign .semicolon)
  | .varDecl => word .var ++ identifier ++ opt (sign .assign ++ rule .expr)
  | .constDecl => word .const ++ identifier ++ sign .assign ++ rule .expr
  | .funcDef => word .func ++ identifier ++ list identifier ++ rule .block
  | .classDef =>
    word .class ++ identifier ++ sign .leftBrace ++
      star ((rule .varDecl ||| rule .constDecl ||| rule .funcDef) ++ opt (sign .semicolon)) ++
      sign .rightBrace
  | .ifStmt =>
    word .if ++ rule .expr ++ rule .block ++ opt (word .else ++ (rule .ifStmt ||| rule .block))
  | .loopStmt => word .loop ++ rule .block
  | .whileStmt => word .while ++ rule .expr ++ rule .block
  | .crudStmt =>
    (word .create ||| word .read ||| word .update ||| word .delete) ++ identifier ++
      (rule .args ||| notBefore (.punctuator .leftParen))
  | .returnStmt => word .return ++ opt (rule .expr)
  | .block => sign .leftBrace ++ star (rule .stmt) ++ sign .rightBrace
  | .expr => identifier ++ sign .assign ++ rule .expr ||| rule .or
  | .or => rule .and ++ star ((sign .orOr ||| word .or) ++ rule .and)
  | .and => rule .equality ++ star ((sign .andAnd ||| word .and) ++ rule .equality)
  | .equality => rule .comparison ++ star ((sign .equal ||| sign .notEqual) ++ rule .comparison)
  | .comparison =>
    rule .sum ++
      star ((sign .less ||| sign .lessEqual ||| sign .greater ||| sign .greaterEqual) ++ rule .sum)
  | .sum => rule .product ++ star ((sign .plus ||| sign .minus) ++ rule .product)
  | .product => rule .unary ++ star ((sign .star ||| sign .slash ||| sign .percent) ++ rule .unary)
  | .unary => star (sign .minus ||| sign .bang ||| word .not) ++ rule .atom
  | .atom =>
    number ||| string ||| word .true ||| word .false |||
      word .new ++ identifier ++ opt (rule .args) ||| identifier ++ rule .args ||| identifier |||
      sign .leftParen ++ rule .expr ++ sign .rightParen
  | .args => list (rule .expr)

/-- A right-hand side derives tokens that stand in front of a rest. -/
inductive Derives : Ebnf → List TokenKind → List TokenKind → Prop
  | token {k rest} : Derives (.token k) [k] rest
  | identifier {name rest} : Derives .identifier [.identifier name] rest
  | number {text rest} : Derives .number [.number text] rest
  | string {value rest} : Derives .string [.string value] rest
  | rule {r ts rest} : Derives (Rule.body r) ts rest → Derives (.rule r) ts rest
  | seq {a b ts us rest} : Derives a ts (us ++ rest) → Derives b us rest →
      Derives (.seq a b) (ts ++ us) rest
  | altLeft {a b ts rest} : Derives a ts rest → Derives (.alt a b) ts rest
  | altRight {a b ts rest} : Derives b ts rest → Derives (.alt a b) ts rest
  | starNil {a rest} : Derives (.star a) [] rest
  | starCons {a ts us rest} : Derives a ts (us ++ rest) → Derives (.star a) us rest →
      Derives (.star a) (ts ++ us) rest
  | optNone {a rest} : Derives (.opt a) [] rest
  | optSome {a ts rest} : Derives a ts rest → Derives (.opt a) ts rest
  | notBefore {k rest} : rest.head? ≠ some k → Derives (.notBefore k) [] rest

/-- A list of tokens is derivable if the grammar derives it as a whole. -/
def Derivable (ts : List TokenKind) : Prop :=
  Derives (.rule .program) ts []

/-- To derive tokens, one of the alternatives is enough. -/
theorem Derives.of_mem {a e : Ebnf} {ts rest : List TokenKind} (ha : a ∈ e.alternatives)
    (h : Derives a ts rest) : Derives e ts rest := by
  induction e with
  | alt first second ih _ =>
    rcases List.mem_append.1 ha with hfirst | hsecond
    · exact .altLeft (ih hfirst)
    · exact .altRight (List.mem_singleton.1 hsecond ▸ h)
  | _ => exact List.mem_singleton.1 ha ▸ h

/-- What rules mean: which tokens they stand for in front of a rest. -/
abbrev Meanings :=
  Rule → List TokenKind → List TokenKind → Prop

/-- Tokens one behind the other, each run of them in front of the others and the rest. -/
inductive Repeated (item : List TokenKind → List TokenKind → Prop) :
    List TokenKind → List TokenKind → Prop
  | nil {rest} : Repeated item [] rest
  | cons {ts us rest} : item ts (us ++ rest) → Repeated item us rest →
      Repeated item (ts ++ us) rest

/-- The tokens that a right-hand side stands for, given what the rules in it mean. -/
def Ebnf.Means (meanings : Meanings) : Ebnf → List TokenKind → List TokenKind → Prop
  | .token k, ts, _ => ts = [k]
  | .identifier, ts, _ => ∃ name, ts = [.identifier name]
  | .number, ts, _ => ∃ text, ts = [.number text]
  | .string, ts, _ => ∃ value, ts = [.string value]
  | .rule r, ts, rest => meanings r ts rest
  | .seq a b, ts, rest =>
    ∃ us vs, ts = us ++ vs ∧ a.Means meanings us (vs ++ rest) ∧ b.Means meanings vs rest
  | .alt a b, ts, rest => a.Means meanings ts rest ∨ b.Means meanings ts rest
  | .star a, ts, rest => Repeated (a.Means meanings) ts rest
  | .opt a, ts, rest => ts = [] ∨ a.Means meanings ts rest
  | .notBefore k, ts, rest => ts = [] ∧ rest.head? ≠ some k

/-- Tokens stand for a right-hand side as one of its alternatives. -/
theorem Ebnf.Means.exists_mem {meanings : Meanings} {e : Ebnf} {ts rest : List TokenKind}
    (h : e.Means meanings ts rest) : ∃ a ∈ e.alternatives, a.Means meanings ts rest := by
  induction e with
  | alt first second ih _ =>
    rcases h with hfirst | hsecond
    · obtain ⟨a, ha, hmeans⟩ := ih hfirst
      exact ⟨a, List.mem_append_left _ ha, hmeans⟩
    · exact ⟨second, List.mem_append_right _ (List.mem_singleton.2 rfl), hsecond⟩
  | _ => exact ⟨_, List.mem_singleton.2 rfl, h⟩

/-- Whatever is derived has its meaning, if the meaning of each rule is at least that of its
right-hand side. -/
theorem Derives.means {meanings : Meanings}
    (hmeanings : ∀ r ts rest, (Rule.body r).Means meanings ts rest → meanings r ts rest)
    {e : Ebnf} {ts rest : List TokenKind} (h : Derives e ts rest) : e.Means meanings ts rest := by
  induction h with
  | token => exact rfl
  | identifier | number | string => exact ⟨_, rfl⟩
  | rule _ ih => exact hmeanings _ _ _ ih
  | seq _ _ iha ihb => exact ⟨_, _, rfl, iha, ihb⟩
  | altLeft _ ih => exact .inl ih
  | altRight _ ih => exact .inr ih
  | starNil => exact .nil
  | starCons _ _ ih ihs => exact .cons ih ihs
  | optNone => exact .inl rfl
  | optSome _ ih => exact .inr ih
  | notBefore hrest => exact ⟨rfl, hrest⟩

end CrudLang
