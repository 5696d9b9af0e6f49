/-!
# Reading UTF-8

A source arrives as bytes. `Encoding.decode` turns them into text, or says where the longest valid
part ends and how long the faulty sequence behind it is; a sequence that is cut off by the end of
the input has no length. Overlong forms, surrogates and code points past the last one are
refused at the byte that makes them so.
-/

namespace CrudLang

/-- Where bytes stop being UTF-8. -/
structure EncodingError where
  /-- How many bytes are valid. -/
  validUpTo : Nat
  /-- The length of the faulty sequence, or none if the input ends within a sequence. -/
  errorLength : Option Nat
deriving DecidableEq, Repr

namespace Encoding

/-- A sequence of bytes that has begun and is not complete. -/
structure Pending where
  /-- The offset of its first byte. -/
  start : Nat
  /-- How many of its bytes were read. -/
  taken : Nat
  /-- How many of its bytes are still to come, after the next one. -/
  missing : Nat
  /-- The least byte that may come next. -/
  low : Nat
  /-- The greatest byte that may come next. -/
  high : Nat
  /-- The bits of the code point that were read. -/
  value : Nat
deriving Repr

/-- Begins a sequence of several bytes, if its first byte allows one. -/
def begin? (start byte : Nat) : Option Pending :=
  if byte < 0xc2 then none
  else if byte ≤ 0xdf then some ⟨start, 1, 0, 0x80, 0xbf, byte - 0xc0⟩
  else if byte = 0xe0 then some ⟨start, 1, 1, 0xa0, 0xbf, 0⟩
  else if byte = 0xed then some ⟨start, 1, 1, 0x80, 0x9f, 0xd⟩
  else if byte ≤ 0xef then some ⟨start, 1, 1, 0x80, 0xbf, byte - 0xe0⟩
  else if byte = 0xf0 then some ⟨start, 1, 2, 0x90, 0xbf, 0⟩
  else if byte ≤ 0xf3 then some ⟨start, 1, 2, 0x80, 0xbf, byte - 0xf0⟩
  else if byte = 0xf4 then some ⟨start, 1, 2, 0x80, 0x8f, 4⟩
  else none

/-- Reads bytes from an offset on, given the sequence that has begun, if any. -/
def decodeFrom (offset : Nat) : Option Pending → List UInt8 → Except EncodingError (List Char)
  | none, [] => .ok []
  | some p, [] => .error ⟨p.start, none⟩
  | none, b :: rest =>
    if b.toNat < 0x80 then
      (Char.ofNat b.toNat :: ·) <$> decodeFrom (offset + 1) none rest
    else
      match begin? offset b.toNat with
      | none => .error ⟨offset, some 1⟩
      | some p => decodeFrom (offset + 1) (some p) rest
  | some p, b :: rest =>
    if p.low ≤ b.toNat ∧ b.toNat ≤ p.high then
      let value := p.value * 64 + (b.toNat - 0x80)
      match p.missing with
      | 0 => (Char.ofNat value :: ·) <$> decodeFrom (offset + 1) none rest
      | n + 1 => decodeFrom (offset + 1) (some ⟨p.start, p.taken + 1, n, 0x80, 0xbf, value⟩) rest
    else .error ⟨p.start, some p.taken⟩

/-- Reads bytes as text. -/
def decode (bytes : List UInt8) : Except EncodingError String :=
  String.ofList <$> decodeFrom 0 none bytes

end Encoding

end CrudLang
