import Mathlib.Data.List.Basic
import Mathlib.Order.Defs.LinearOrder
import Mathlib.Tactic.Linarith

/-!
# Machine words and bytes

Unsigned words are natural numbers and signed ones integers, with the reduction written out
(`uint32`, `uint64`, `sizeSub`, `int32`), so that a wrap is visible where it happens.  Strings are
lists of bytes; `ascii` spells a literal.
-/

namespace Machine

/-! ## Words -/

/-- Reduction to a 32-bit unsigned word. -/
def uint32 (n : ℕ) : ℕ := n % 2 ^ 32

/-- Reduction to a 64-bit unsigned word. -/
def uint64 (n : ℕ) : ℕ := n % 2 ^ 64

/-- Subtraction of 64-bit sizes: a negative difference wraps. -/
def sizeSub (n k : ℕ) : ℕ := if k ≤ n then n - k else 2 ^ 64 + n - k

/-- The value of a 32-bit signed word. -/
def int32 (n : ℤ) : ℤ := Int.bmod n (2 ^ 32)

/-- A signed word converted to a 32-bit unsigned one. -/
def ofInt32 (n : ℤ) : ℕ := (n % 2 ^ 32).toNat

theorem uint32_lt (n : ℕ) : uint32 n < 2 ^ 32 := Nat.mod_lt _ (by norm_num)

theorem uint32_of_lt {n : ℕ} (h : n < 2 ^ 32) : uint32 n = n := Nat.mod_eq_of_lt h

theorem uint64_of_lt {n : ℕ} (h : n < 2 ^ 64) : uint64 n = n := Nat.mod_eq_of_lt h

theorem uint32_succ (n : ℕ) : uint32 (uint32 n + 1) = uint32 (n + 1) := by
  unfold uint32; omega

theorem int32_of_lt {n : ℕ} (h : n < 2 ^ 31) : int32 n = n := by
  unfold int32
  rw [Int.bmod_eq_of_le] <;> omega

theorem ofInt32_natCast {n : ℕ} (h : n < 2 ^ 32) : ofInt32 n = n := by
  unfold ofInt32
  omega

theorem sizeSub_of_le {n k : ℕ} (h : k ≤ n) : sizeSub n k = n - k := if_pos h

/-- A counter that each step advances exactly while it is below a bound, run over a list. -/
theorem foldl_counter {β γ : Type} (step : β → ℕ → β) (count : ℕ → β) {bound : ℕ} (f : γ → ℕ)
    (hstep : ∀ k n, k + n < bound → step (count k) n = count (k + n)) (l : List γ) (k : ℕ)
    (h : k + (l.map f).sum < bound) :
    l.foldl (fun b x => step b (f x)) (count k) = count (k + (l.map f).sum) := by
  induction l generalizing k with
  | nil => rfl
  | cons x l ih =>
    rw [List.map_cons, List.sum_cons, ← Nat.add_assoc] at h ⊢
    rw [List.foldl_cons, hstep k (f x) (by omega), ih _ h]

/-! ## Bytes -/

/-- A string of bytes. -/
abbrev Bytes := List UInt8

/-- The byte of an ASCII character. -/
def ch (c : Char) : UInt8 := UInt8.ofNat c.toNat

/-- The value of a character made of a code point. -/
theorem val_charOfNat {n : ℕ} (h : n.isValidChar) : (Char.ofNat n).val.toNat = n := by
  rw [Char.ofNat, dif_pos h]
  rfl

/-- The bytes of an ASCII literal. -/
def ascii (s : String) : Bytes := s.toList.map ch

instance byteOrder : LinearOrder UInt8 where
  le_refl := UInt8.le_refl
  le_trans _ _ _ := UInt8.le_trans
  le_antisymm _ _ := UInt8.le_antisymm
  le_total := UInt8.le_total
  lt_iff_le_not_ge a b := by
    simp only [UInt8.lt_iff_toNat_lt, UInt8.le_iff_toNat_le]
    omega
  toDecidableLE := inferInstance
  toDecidableLT := inferInstance

end Machine
