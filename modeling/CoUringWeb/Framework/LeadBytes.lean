import Mathlib.Data.FinEnum
import Mathlib.Data.List.Basic
import Mathlib.Tactic.IntervalCases
import Mathlib.Tactic.Ring

/-!
# Numbers in a lead byte and continuation bytes

A code for numbers below `2 ^ 31`: the lead byte says by its high bits how many bytes follow it,
from none to five, and has the high part of the number; each byte after it has the form `10xxxxxx`
and six bits of the rest.

`decodeOne` reads one number from the front of a list of bytes and `decode` reads them all.  The
first gives back what `encode` wrote, whatever follows, and so the second gives back a list from the
concatenation of its codes (`decode_flatMap`), for any code whose words `decodeOne` reads.
-/

namespace LeadBytes

/-! ## Reading -/

/-- The fixed bits of a lead byte with `k` bytes after it. -/
def leadBits : ℕ → ℕ
  | 0 => 0x00
  | 1 => 0xC0
  | 2 => 0xE0
  | 3 => 0xF0
  | 4 => 0xF8
  | _ => 0xFC

/-- The number of values of the other bits of such a byte. -/
def leadSize : ℕ → ℕ
  | 0 => 0x80
  | 1 => 0x20
  | 2 => 0x10
  | 3 => 0x08
  | 4 => 0x04
  | _ => 0x02

/-- The byte has the form `10xxxxxx`. -/
def IsContinuation (b : UInt8) : Prop := b &&& 0xC0 = 0x80

instance (b : UInt8) : Decidable (IsContinuation b) := by
  unfold IsContinuation; infer_instance

/-- What a lead byte says: how many bytes follow, and the high part of the number. -/
def readLead (b : UInt8) : Option (ℕ × ℕ) :=
  if b.toNat < 0x80 then some (0, b.toNat)
  else if b.toNat < 0xC0 then none
  else if b.toNat < 0xE0 then some (1, b.toNat - 0xC0)
  else if b.toNat < 0xF0 then some (2, b.toNat - 0xE0)
  else if b.toNat < 0xF8 then some (3, b.toNat - 0xF0)
  else if b.toNat < 0xFC then some (4, b.toNat - 0xF8)
  else if b.toNat < 0xFE then some (5, b.toNat - 0xFC)
  else none

/-- Takes in so many continuation bytes, most significant first. -/
def readTail : ℕ → ℕ → List UInt8 → Option (ℕ × List UInt8)
  | 0, acc, bytes => some (acc, bytes)
  | _ + 1, _, [] => none
  | k + 1, acc, b :: bytes =>
    if IsContinuation b then readTail k (64 * acc + (b.toNat - 0x80)) bytes else none

/-- The number at the front, and the bytes after it. -/
def decodeOne : List UInt8 → Option (ℕ × List UInt8)
  | [] => none
  | b :: bytes => (readLead b).bind fun p => readTail p.1 p.2 bytes

/-- With fuel for at least so many numbers. -/
def decodeFrom : ℕ → List UInt8 → Option (List ℕ)
  | _, [] => some []
  | 0, _ :: _ => none
  | fuel + 1, b :: bytes =>
    (decodeOne (b :: bytes)).bind fun p => (decodeFrom fuel p.2).map (p.1 :: ·)

/-- All numbers of a list of bytes. -/
def decode (bytes : List UInt8) : Option (List ℕ) := decodeFrom bytes.length bytes

/-! ## Writing -/

/-- The continuation bytes for the low `6 * k` bits of `n`. -/
def tail : ℕ → ℕ → List UInt8
  | 0, _ => []
  | k + 1, n => UInt8.ofNat (n / 64 ^ k % 64 + 0x80) :: tail k n

/-- The code of `n` with `k` continuation bytes. -/
def encode (k n : ℕ) : List UInt8 := UInt8.ofNat (n / 64 ^ k + leadBits k) :: tail k n

theorem isContinuation_iff :
    ∀ b : UInt8, IsContinuation b ↔ 0x80 ≤ b.toNat ∧ b.toNat < 0xC0 := by
  decide +kernel

theorem toNat_continuation (m : ℕ) : (UInt8.ofNat (m % 64 + 0x80)).toNat = m % 64 + 0x80 := by
  rw [UInt8.toNat_ofNat']
  omega

theorem isContinuation_ofNat (m : ℕ) : IsContinuation (UInt8.ofNat (m % 64 + 0x80)) := by
  rw [isContinuation_iff, toNat_continuation]
  omega

/-- All bytes after the lead have the form `10xxxxxx`. -/
theorem isContinuation_of_mem_tail {k n : ℕ} : ∀ b ∈ tail k n, IsContinuation b := by
  induction k with
  | zero => simp [tail]
  | succ k ih => exact List.forall_mem_cons.2 ⟨isContinuation_ofNat _, ih⟩

/-- A lead byte says how many bytes follow it, so it is no continuation byte. -/
theorem readLead_ofNat {k m : ℕ} (hk : k ≤ 5) (hm : m < leadSize k) :
    readLead (UInt8.ofNat (m + leadBits k)) = some (k, m) := by
  have htoNat : (UInt8.ofNat (m + leadBits k)).toNat = m + leadBits k := by
    rw [UInt8.toNat_ofNat']
    interval_cases k <;> simp only [leadBits, leadSize] at hm ⊢ <;> omega
  unfold readLead
  rw [htoNat]
  interval_cases k <;> simp only [leadBits, leadSize] at hm ⊢ <;> grind

theorem not_isContinuation_of_readLead {b : UInt8} {p : ℕ × ℕ} (h : readLead b = some p) :
    ¬ IsContinuation b := by
  rw [isContinuation_iff]
  rintro ⟨hlo, hhi⟩
  rw [readLead, if_neg (by omega), if_pos hhi] at h
  cases h

theorem readTail_tail (k acc n : ℕ) (rest : List UInt8) :
    readTail k acc (tail k n ++ rest) = some (acc * 64 ^ k + n % 64 ^ k, rest) := by
  induction k generalizing acc with
  | zero => simp [readTail, tail, Nat.mod_one]
  | succ k ih =>
    have hvalue : (64 * acc + n / 64 ^ k % 64) * 64 ^ k + n % 64 ^ k =
        acc * 64 ^ (k + 1) + n % 64 ^ (k + 1) := by
      rw [Nat.mod_pow_succ, pow_succ]
      ring
    rw [tail, List.cons_append, readTail, if_pos (isContinuation_ofNat _), toNat_continuation,
      Nat.add_sub_cancel, ih, hvalue]

/-- One number is read back, whatever follows it. -/
theorem decodeOne_encode {k n : ℕ} (hk : k ≤ 5) (hn : n / 64 ^ k < leadSize k)
    (rest : List UInt8) : decodeOne (encode k n ++ rest) = some (n, rest) := by
  rw [encode, List.cons_append, decodeOne, readLead_ofNat hk hn, Option.bind_some, readTail_tail,
    Nat.div_add_mod']

/-! ## Concatenations -/

variable {word : ℕ → List UInt8}

theorem decodeFrom_flatMap {l : List ℕ}
    (hword : ∀ n ∈ l, ∀ rest, decodeOne (word n ++ rest) = some (n, rest)) {fuel : ℕ}
    (hfuel : l.length ≤ fuel) : decodeFrom fuel (l.flatMap word) = some l := by
  induction l generalizing fuel with
  | nil => cases fuel <;> rfl
  | cons n l ih =>
    obtain ⟨fuel, rfl⟩ : ∃ f, fuel = f + 1 :=
      Nat.exists_eq_add_one_of_ne_zero (by rw [List.length_cons] at hfuel; omega)
    have hone := hword n List.mem_cons_self (l.flatMap word)
    have hrest := ih (fun m hm => hword m (List.mem_cons_of_mem n hm))
      (Nat.le_of_succ_le_succ hfuel)
    rw [List.flatMap_cons]
    cases hbytes : word n ++ l.flatMap word with
    | nil =>
      rw [hbytes] at hone
      cases hone
    | cons b bytes =>
      rw [hbytes] at hone
      rw [decodeFrom, hone, Option.bind_some, hrest, Option.map_some]

theorem length_le_flatMap {l : List ℕ} (hword : ∀ n ∈ l, word n ≠ []) :
    l.length ≤ (l.flatMap word).length := by
  induction l with
  | nil => exact Nat.zero_le _
  | cons n l ih =>
    have hpos := List.length_pos_iff.2 (hword n List.mem_cons_self)
    have hrest := ih fun m hm => hword m (List.mem_cons_of_mem n hm)
    rw [List.flatMap_cons, List.length_append, List.length_cons]
    omega

/-- A list of numbers is read back from the concatenation of their words. -/
theorem decode_flatMap {l : List ℕ}
    (hword : ∀ n ∈ l, ∀ rest, decodeOne (word n ++ rest) = some (n, rest)) :
    decode (l.flatMap word) = some l := by
  refine decodeFrom_flatMap hword (length_le_flatMap fun n hn hnil => ?_)
  have hone := hword n hn []
  rw [hnil] at hone
  cases hone

end LeadBytes
