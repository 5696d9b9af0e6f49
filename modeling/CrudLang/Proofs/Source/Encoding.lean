import CrudLang.Source.Encoding
import CrudLang.Proofs.Source.LineNumbers
import Mathlib.Algebra.Group.Nat.Defs

/-!
# Decoding inverts encoding

Bytes are read as a text if and only if they are the bytes of that text
(`Encoding.decode_eq_ok_iff`). A sequence of several bytes holds six bits of its code point in each
byte but the first. Which code points can still come of a sequence that has begun is told by the
bits that were read and by the bounds on the next byte (`Pending.Allows`), and it is read to its end
if and only if the bytes that are missing are those of such a code point
(`Encoding.decodeFrom_some_eq_ok_iff`). So what is left is that a first byte allows just the code
points whose encoding it begins (`Encoding.begin?_iff`).
-/

namespace CrudLang.Encoding

/-- The last bytes that encode a code point, one more than `n`, with six bits in each. -/
def lastBytes (value : Nat) : Nat → List UInt8
  | 0 => [.ofNat (value % 64 + 128)]
  | n + 1 => .ofNat (value / 64 ^ (n + 1) % 64 + 128) :: lastBytes value n

namespace Pending

/-- The bounds on the next byte are such that it holds six bits. -/
def Bounded (p : Pending) : Prop :=
  0x80 ≤ p.low ∧ p.high ≤ 0xbf

/-- The code point has the bits that were read, and the next ones are within the bounds. -/
@[mk_iff]
structure Allows (p : Pending) (value : Nat) : Prop where
  read : value / 64 ^ (p.missing + 1) = p.value
  low : p.low ≤ value / 64 ^ p.missing % 64 + 128
  high : value / 64 ^ p.missing % 64 + 128 ≤ p.high

variable {start taken n low high bits value byte : Nat}

/-- With the last byte, the code point is complete. -/
theorem allows_zero_iff (hbyte : byte = value % 64 + 128) :
    Allows ⟨start, taken, 0, low, high, bits⟩ value ↔
      (low ≤ byte ∧ byte ≤ high) ∧ value = bits * 64 + (byte - 0x80) := by
  constructor
  · rintro ⟨hread, hl, hh⟩
    simp only [Nat.pow_zero, Nat.div_one, Nat.zero_add, Nat.pow_one] at hread hl hh
    omega
  · rintro ⟨⟨hl, hh⟩, hvalue⟩
    refine ⟨?_, ?_, ?_⟩ <;>
      simp only [Nat.pow_zero, Nat.div_one, Nat.zero_add, Nat.pow_one] <;> omega

/-- Before, another byte is read, and the next one may be any. -/
theorem allows_succ_iff (hbyte : byte = value / 64 ^ (n + 1) % 64 + 128) :
    Allows ⟨start, taken, n + 1, low, high, bits⟩ value ↔ (low ≤ byte ∧ byte ≤ high) ∧
      Allows ⟨start, taken + 1, n, 0x80, 0xbf, bits * 64 + (byte - 0x80)⟩ value := by
  -- a byte takes six bits, and those above it have been read before
  have hdiv : value / 64 ^ (n + 2) = value / 64 ^ (n + 1) / 64 := by
    rw [Nat.div_div_eq_div_mul, ← Nat.pow_succ]
  constructor
  · rintro ⟨hread, hl, hh⟩
    dsimp only at hread hl hh
    rw [hdiv] at hread
    refine ⟨by omega, ⟨?_, ?_, ?_⟩⟩ <;> dsimp only <;> omega
  · rintro ⟨⟨hl, hh⟩, hread, -, -⟩
    dsimp only at hread
    refine ⟨?_, ?_, ?_⟩ <;> dsimp only
    · rw [hdiv]
      omega
    · omega
    · omega

end Pending

theorem map_eq_ok_iff {ε α β : Type} {f : α → β} {x : Except ε α} {b : β} :
    f <$> x = .ok b ↔ ∃ a, x = .ok a ∧ b = f a := by
  cases x with
  | error e => simp [Functor.map, Except.map]
  | ok a => simp [Functor.map, Except.map, eq_comm]

section Sequences

variable {offset start taken n low high bits : Nat}
variable {b : UInt8} {bytes : List UInt8} {cs : List Char}

/-- A byte that is made of six bits. -/
theorem eq_ofNat_iff :
    b = UInt8.ofNat (n % 64 + 128) ↔ b.toNat = n % 64 + 128 := by
  rw [← UInt8.toNat_inj, UInt8.toNat_ofNat']
  omega

theorem decodeFrom_last :
    decodeFrom offset (some ⟨start, taken, 0, low, high, bits⟩) (b :: bytes) = .ok cs ↔
      (low ≤ b.toNat ∧ b.toNat ≤ high) ∧ ∃ cs', decodeFrom (offset + 1) none bytes = .ok cs' ∧
        cs = Char.ofNat (bits * 64 + (b.toNat - 0x80)) :: cs' := by
  rw [decodeFrom]
  dsimp only
  split
  next hb => rw [map_eq_ok_iff, and_iff_right hb]
  next hb => exact iff_of_false nofun fun h => hb h.1

theorem decodeFrom_next :
    decodeFrom offset (some ⟨start, taken, n + 1, low, high, bits⟩) (b :: bytes) = .ok cs ↔
      (low ≤ b.toNat ∧ b.toNat ≤ high) ∧ decodeFrom (offset + 1)
        (some ⟨start, taken + 1, n, 0x80, 0xbf, bits * 64 + (b.toNat - 0x80)⟩) bytes = .ok cs := by
  rw [decodeFrom]
  dsimp only
  split
  next hb => rw [and_iff_right hb]
  next hb => exact iff_of_false nofun fun h => hb h.1

/-- A sequence that has begun is read to its end just if its missing bytes are those of a code point
that it allows. -/
theorem decodeFrom_some_eq_ok_iff {p : Pending} (hp : p.Bounded) (offset : Nat)
    (bytes : List UInt8) (cs : List Char) :
    decodeFrom offset (some p) bytes = .ok cs ↔ ∃ value rest cs', p.Allows value ∧
      bytes = lastBytes value p.missing ++ rest ∧ cs = Char.ofNat value :: cs' ∧
      decodeFrom (offset + (p.missing + 1)) none rest = .ok cs' := by
  obtain ⟨start, taken, missing, low, high, bits⟩ := p
  obtain ⟨hlow, hhigh⟩ := hp
  dsimp only at hlow hhigh ⊢
  -- the bounds matter for the next byte alone; behind it, any byte that holds six bits may come
  induction missing generalizing offset taken low high bits bytes with
  | zero =>
    cases bytes with
    | nil => exact iff_of_false (by rw [decodeFrom]; nofun) (by rintro ⟨-, -, -, -, ⟨⟩, -⟩)
    | cons b bytes =>
      rw [decodeFrom_last]
      constructor
      · rintro ⟨hb, cs', hcs', rfl⟩
        have hbyte : b.toNat = (bits * 64 + (b.toNat - 0x80)) % 64 + 128 := by omega
        exact ⟨_, bytes, cs', (Pending.allows_zero_iff hbyte).2 ⟨hb, rfl⟩,
          congrArg (· :: bytes) (eq_ofNat_iff.2 hbyte), rfl, hcs'⟩
      · rintro ⟨value, rest, cs', hallows, hbytes, rfl, hcs'⟩
        obtain ⟨hb, rfl⟩ := List.cons.inj hbytes
        obtain ⟨hbounds, hvalue⟩ := (Pending.allows_zero_iff (eq_ofNat_iff.1 hb)).1 hallows
        exact ⟨hbounds, cs', hcs', by rw [← hvalue]⟩
  | succ n ih =>
    cases bytes with
    | nil => exact iff_of_false (by rw [decodeFrom]; nofun) (by rintro ⟨-, -, -, -, ⟨⟩, -⟩)
    | cons b bytes =>
      rw [decodeFrom_next, ih _ _ _ _ _ _ (Nat.le_refl _) (Nat.le_refl _), Nat.add_right_comm,
        Nat.add_assoc]
      constructor
      · rintro ⟨hb, value, rest, cs', hallows, rfl, rfl, hcs'⟩
        have hbyte : b.toNat = value / 64 ^ (n + 1) % 64 + 128 := by
          have hread : value / 64 ^ (n + 1) = bits * 64 + (b.toNat - 0x80) := hallows.read
          omega
        exact ⟨value, rest, cs', (Pending.allows_succ_iff hbyte).2 ⟨hb, hallows⟩,
          congrArg (· :: _) (eq_ofNat_iff.2 hbyte), rfl, hcs'⟩
      · rintro ⟨value, rest, cs', hallows, hbytes, rfl, hcs'⟩
        obtain ⟨hb, rfl⟩ := List.cons.inj hbytes
        obtain ⟨hbounds, hallows⟩ := (Pending.allows_succ_iff (eq_ofNat_iff.1 hb)).1 hallows
        exact ⟨hbounds, value, rest, cs', hallows, rfl, rfl, hcs'⟩

end Sequences

section Characters

/-- How many bytes encode a code point behind the first two. -/
def further (value : Nat) : Nat :=
  if value ≤ 0x7ff then 0 else if value ≤ 0xffff then 1 else 2

/-- The first one of several bytes that encode a code point: their number and the leading bits. -/
def firstByte (value : Nat) : Nat :=
  if value ≤ 0x7ff then value / 64 + 0xc0
  else if value ≤ 0xffff then value / 4096 + 0xe0
  else value / 262144 + 0xf0

theorem firstByte_cases (value : Nat) :
    value ≤ 0x7ff ∧ firstByte value = value / 64 + 0xc0 ∧ further value = 0 ∨
      0x7ff < value ∧ value ≤ 0xffff ∧ firstByte value = value / 4096 + 0xe0 ∧ further value = 1 ∨
      0xffff < value ∧ firstByte value = value / 262144 + 0xf0 ∧ further value = 2 := by
  unfold firstByte further
  split_ifs <;> omega

theorem toNat_val_ofNat {value : Nat} (h : value.isValidChar) :
    (Char.ofNat value).val.toNat = value := by
  rw [Char.ofNat, dif_pos h]
  rfl

theorem utf8EncodeChar_of_le {value : Nat} (h : value ≤ 0x7f) :
    String.utf8EncodeChar (Char.ofNat value) = [.ofNat value] := by
  unfold String.utf8EncodeChar
  rw [toNat_val_ofNat (.inl (by omega))]
  exact if_pos h

theorem utf8EncodeChar_of_lt {value : Nat} (hvalid : value.isValidChar) (h : 0x7f < value) :
    String.utf8EncodeChar (Char.ofNat value) =
      .ofNat (firstByte value) :: lastBytes value (further value) := by
  unfold String.utf8EncodeChar firstByte further
  rw [toNat_val_ofNat hvalid]
  dsimp only
  rw [if_neg (Nat.not_le_of_lt h)]
  split_ifs
  · rw [Nat.mod_eq_of_lt (by omega : value / 64 < 32)]
    rfl
  · rw [Nat.mod_eq_of_lt (by omega : value / 4096 < 16)]
    rfl
  · rw [Nat.mod_eq_of_lt (by omega : value / 262144 < 8)]
    rfl

/-- A first byte allows a code point with a number of further bytes just if they encode it. -/
theorem begin?_iff (offset : Nat) {value byte n : Nat} :
    (∃ p, begin? offset byte = some p ∧ p.Allows value ∧ p.missing = n) ↔
      value.isValidChar ∧ 0x7f < value ∧ byte = firstByte value ∧ n = further value := by
  have hcases := firstByte_cases value
  -- the bounds on the second byte keep out overlong forms, surrogates and what is past the last
  -- code point
  fun_cases begin? offset byte
  all_goals
    simp only [Option.some.injEq, reduceCtorEq, false_and, exists_false, false_iff, exists_eq_left',
      Pending.allows_iff, Nat.reduceAdd, Nat.reducePow, Nat.div_one]
    omega

/-- A first byte with further bytes behind it encodes a code point just if it allows it and the
further bytes are its last ones. -/
theorem exists_begin?_iff (offset : Nat) {value : Nat} {b : UInt8} {bytes : List UInt8} :
    (∃ p, begin? offset b.toNat = some p ∧ p.Allows value ∧ bytes = lastBytes value p.missing) ↔
      value.isValidChar ∧ 0x7f < value ∧
        String.utf8EncodeChar (Char.ofNat value) = b :: bytes := by
  constructor
  · rintro ⟨p, hp, hallows, rfl⟩
    obtain ⟨hvalid, hvalue, hb, hn⟩ := (begin?_iff offset).1 ⟨p, hp, hallows, rfl⟩
    refine ⟨hvalid, hvalue, ?_⟩
    rw [utf8EncodeChar_of_lt hvalid hvalue, ← hb, ← hn, UInt8.ofNat_toNat]
  · rintro ⟨hvalid, hvalue, hbytes⟩
    -- a number below 256 is the byte that it is turned into
    have hbyte : firstByte value < 256 := by
      have hcases := firstByte_cases value
      unfold Nat.isValidChar at hvalid
      omega
    rw [utf8EncodeChar_of_lt hvalid hvalue] at hbytes
    obtain ⟨rfl, rfl⟩ := List.cons.inj hbytes
    obtain ⟨p, hp, hallows, hn⟩ := (begin?_iff offset).2 ⟨hvalid, hvalue, rfl, rfl⟩
    refine ⟨p, ?_, hallows, by rw [hn]⟩
    rwa [UInt8.toNat_ofNat_of_lt' hbyte]

end Characters

section Texts

theorem length_lastBytes (value n : Nat) : (lastBytes value n).length = n + 1 := by
  induction n with
  | zero => rfl
  | succ n ih => rw [lastBytes, List.length_cons, ih]

theorem of_begin?_eq_some {offset byte : Nat} {p : Pending} (h : begin? offset byte = some p) :
    0xc2 ≤ byte ∧ p.Bounded := by
  revert h
  fun_cases begin? offset byte <;> rintro ⟨⟩ <;> simp only [Pending.Bounded] <;> omega

/-- Reading goes on just behind the bytes of a character. -/
theorem decodeFrom_cons_eq_ok_iff {offset : Nat} {b : UInt8} {bytes : List UInt8} {cs : List Char} :
    decodeFrom offset none (b :: bytes) = .ok cs ↔ ∃ c rest cs',
      b :: bytes = String.utf8EncodeChar c ++ rest ∧ cs = c :: cs' ∧
        decodeFrom (offset + c.utf8Size) none rest = .ok cs' := by
  simp only [← String.length_utf8EncodeChar]
  rw [decodeFrom]
  constructor
  · intro h
    split at h
    -- a byte that is a character of its own
    next hb =>
      obtain ⟨cs', hcs', rfl⟩ := map_eq_ok_iff.1 h
      have hbytes : String.utf8EncodeChar (Char.ofNat b.toNat) = [b] := by
        rw [utf8EncodeChar_of_le (Nat.le_of_lt_succ hb), UInt8.ofNat_toNat]
      exact ⟨_, bytes, cs', by rw [hbytes]; rfl, rfl, by rwa [hbytes]⟩
    -- a byte that begins a sequence, or none
    next hb =>
      split at h
      next => cases h
      next p hp =>
        obtain ⟨value, rest, cs', hallows, rfl, rfl, hcs'⟩ :=
          (decodeFrom_some_eq_ok_iff (of_begin?_eq_some hp).2 _ _ _).1 h
        obtain ⟨-, -, hbytes⟩ := (exists_begin?_iff offset).1 ⟨p, hp, hallows, rfl⟩
        refine ⟨_, rest, cs', by rw [hbytes]; rfl, rfl, ?_⟩
        rwa [hbytes, List.length_cons, length_lastBytes, Nat.add_comm _ 1, ← Nat.add_assoc]
  · rintro ⟨c, rest, cs', hbytes, rfl, hcs'⟩
    obtain ⟨value, hvalid, rfl⟩ : ∃ value : Nat, value.isValidChar ∧ Char.ofNat value = c :=
      ⟨c.toNat, c.valid, Char.ofNat_toNat c⟩
    -- the code point tells which of the two the byte is
    by_cases hvalue : value ≤ 0x7f
    · rw [utf8EncodeChar_of_le hvalue] at hbytes hcs'
      obtain ⟨rfl, rfl⟩ := List.cons.inj hbytes
      have hbyte : (UInt8.ofNat value).toNat = value :=
        UInt8.toNat_ofNat_of_lt' (Nat.lt_of_le_of_lt hvalue (by decide))
      rw [hbyte, if_pos (Nat.lt_succ_of_le hvalue)]
      exact map_eq_ok_iff.2 ⟨cs', hcs', rfl⟩
    · obtain ⟨bytes', hchar, rfl⟩ : ∃ bytes',
          String.utf8EncodeChar (Char.ofNat value) = b :: bytes' ∧ bytes = bytes' ++ rest := by
        rcases List.cons_eq_append_iff.1 hbytes with ⟨hnil, -⟩ | ⟨bytes', hchar, rfl⟩
        · exact absurd hnil String.utf8EncodeChar_ne_nil
        · exact ⟨bytes', hchar, rfl⟩
      obtain ⟨p, hp, hallows, rfl⟩ := (exists_begin?_iff offset).2
        ⟨hvalid, Nat.lt_of_not_le hvalue, hchar⟩
      obtain ⟨hb, hbounded⟩ := of_begin?_eq_some hp
      rw [if_neg (by omega), hp]
      refine (decodeFrom_some_eq_ok_iff hbounded _ _ _).2 ⟨value, rest, cs', hallows, rfl, rfl, ?_⟩
      rwa [hchar, List.length_cons, length_lastBytes, Nat.add_comm _ 1, ← Nat.add_assoc] at hcs'

/-- From whatever offset on, bytes are read as the characters that they encode. -/
theorem decodeFrom_none_eq_ok_iff (offset : Nat) (bytes : List UInt8) (cs : List Char) :
    decodeFrom offset none bytes = .ok cs ↔ bytes = cs.flatMap String.utf8EncodeChar := by
  -- a character takes a byte at least, so the induction is on the number of bytes
  generalize hlength : bytes.length = length
  induction length using Nat.strongRecOn generalizing offset bytes cs with
  | ind length ih =>
    cases bytes with
    | nil =>
      rw [decodeFrom, Except.ok.injEq]
      cases cs with
      | nil => exact iff_of_true rfl rfl
      | cons c cs =>
        refine iff_of_false nofun fun h => String.utf8EncodeChar_ne_nil (c := c) ?_
        exact (List.append_eq_nil_iff.1 h.symm).1
    | cons b bytes =>
      have hless {c : Char} {rest : List UInt8}
          (h : b :: bytes = String.utf8EncodeChar c ++ rest) : rest.length < length := by
        have hpos := c.utf8Size_pos
        rw [← hlength, h, List.length_append, String.length_utf8EncodeChar]
        omega
      rw [decodeFrom_cons_eq_ok_iff]
      constructor
      · rintro ⟨c, rest, cs', hbytes, rfl, hcs'⟩
        rw [hbytes, List.flatMap_cons, ← (ih _ (hless hbytes) _ _ _ rfl).1 hcs']
      · intro h
        cases cs with
        | nil => cases h
        | cons c cs => exact ⟨c, _, cs, h, rfl, (ih _ (hless h) _ _ _ rfl).2 rfl⟩

/-- Bytes are read as a text just if they are the bytes of the text. -/
theorem decode_eq_ok_iff (bytes : List UInt8) (source : String) :
    decode bytes = .ok source ↔ bytes = source.toUTF8.data.toList := by
  rw [decode, map_eq_ok_iff, toList_toUTF8]
  constructor
  · rintro ⟨cs, hcs, rfl⟩
    rw [String.toList_ofList]
    exact (decodeFrom_none_eq_ok_iff _ _ _).1 hcs
  · intro h
    exact ⟨source.toList, (decodeFrom_none_eq_ok_iff _ _ _).2 h, String.ofList_toList.symm⟩

end Texts

end CrudLang.Encoding
