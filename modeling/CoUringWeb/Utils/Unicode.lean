import CoUringWeb.Framework.Machine
import Mathlib.Data.Nat.Bitwise

/-!
# `fromUnicode`

The UTF-8 encoder of `include/utils.h`, with its branches up to six bytes.  On the code points of
the basic multilingual plane that are not surrogates it is the standard encoding.
-/

namespace CoUringWeb

open Machine

/-- The byte `((uChar >> shift) & mask) | lead`. -/
def utf8Byte (uChar shift mask lead : ℕ) : UInt8 :=
  UInt8.ofNat (((uChar >>> shift) &&& mask) ||| lead)

/-- The bytes `bytes[1]`, …, `bytes[bytes[0]]` of the result; above `0x7FFFFFFF` nothing is
written. -/
def fromUnicode (uChar : ℕ) : Bytes :=
  if uChar ≤ 0x7F then [utf8Byte uChar 0 0x7F 0]
  else if uChar ≤ 0x7FF then [utf8Byte uChar 6 0x1F 0xC0, utf8Byte uChar 0 0x3F 0x80]
  else if uChar ≤ 0xFFFF then
    [utf8Byte uChar 12 0x0F 0xE0, utf8Byte uChar 6 0x3F 0x80, utf8Byte uChar 0 0x3F 0x80]
  else if uChar ≤ 0x1FFFFF then
    [utf8Byte uChar 18 0x07 0xF0, utf8Byte uChar 12 0x3F 0x80, utf8Byte uChar 6 0x3F 0x80,
      utf8Byte uChar 0 0x3F 0x80]
  else if uChar ≤ 0x3FFFFFF then
    [utf8Byte uChar 24 0x03 0xF8, utf8Byte uChar 18 0x3F 0x80, utf8Byte uChar 12 0x3F 0x80,
      utf8Byte uChar 6 0x3F 0x80, utf8Byte uChar 0 0x3F 0x80]
  else if uChar ≤ 0x7FFFFFFF then
    [utf8Byte uChar 30 0x01 0xFC, utf8Byte uChar 24 0x3F 0x80, utf8Byte uChar 18 0x3F 0x80,
      utf8Byte uChar 12 0x3F 0x80, utf8Byte uChar 6 0x3F 0x80, utf8Byte uChar 0 0x3F 0x80]
  else []

/-- A field of `k` bits below a lead that has none of them. -/
theorem utf8Byte_eq (uChar shift k lead : ℕ) (hlead : lead % 2 ^ k = 0) :
    utf8Byte uChar shift (2 ^ k - 1) lead =
      UInt8.ofNat (uChar / 2 ^ shift % 2 ^ k + lead) := by
  have hfield : uChar / 2 ^ shift % 2 ^ k < 2 ^ k := Nat.mod_lt _ (Nat.two_pow_pos k)
  obtain ⟨m, rfl⟩ := Nat.dvd_of_mod_eq_zero hlead
  rw [utf8Byte, Nat.shiftRight_eq_div_pow, Nat.and_two_pow_sub_one_eq_mod, Nat.or_comm,
    ← Nat.two_pow_add_eq_or_of_lt hfield, Nat.add_comm]

/-- A code point of the basic multilingual plane, surrogates excepted. -/
def IsBmpScalar (n : ℕ) : Prop := n < 0xD800 ∨ (0xDFFF < n ∧ n < 0x10000)

instance (n : ℕ) : Decidable (IsBmpScalar n) := by
  unfold IsBmpScalar; infer_instance

theorem IsBmpScalar.isValidChar {n : ℕ} (h : IsBmpScalar n) : n.isValidChar := by
  unfold IsBmpScalar at h
  unfold Nat.isValidChar
  omega

theorem fromUnicode_eq_utf8 {n : ℕ} (h : IsBmpScalar n) :
    fromUnicode n = String.utf8EncodeChar (Char.ofNat n) := by
  have hval := val_charOfNat h.isValidChar
  have hlt : n ≤ 0xFFFF := by
    unfold IsBmpScalar at h
    omega
  unfold fromUnicode String.utf8EncodeChar
  dsimp only
  rw [hval]
  -- each byte is one bit field over its lead
  have hone : utf8Byte n 0 0x7F 0 = UInt8.ofNat (n % 128) := by
    simpa using utf8Byte_eq n 0 7 0 rfl
  have htail : ∀ shift, utf8Byte n shift 0x3F 0x80 = UInt8.ofNat (n / 2 ^ shift % 64 + 128) :=
    fun shift => utf8Byte_eq n shift 6 0x80 rfl
  have htwo : utf8Byte n 6 0x1F 0xC0 = UInt8.ofNat (n / 64 % 32 + 192) :=
    utf8Byte_eq n 6 5 0xC0 rfl
  have hthree : utf8Byte n 12 0x0F 0xE0 = UInt8.ofNat (n / 4096 % 16 + 224) :=
    utf8Byte_eq n 12 4 0xE0 rfl
  split
  · rename_i hn
    rw [hone, Nat.mod_eq_of_lt (by omega)]
  · split
    · rw [htwo, htail, pow_zero, Nat.div_one]
    · rw [hthree, htail, htail, pow_zero, Nat.div_one]
      rfl

end CoUringWeb
