import CoUringWeb.Framework.Machine
import Mathlib.Data.List.TakeWhile
import Mathlib.Data.Nat.Digits.Lemmas
import Mathlib.Tactic.IntervalCases
import Mathlib.Tactic.Ring

/-!
# Numerals

Decimal and hexadecimal digits as ASCII bytes, the number a run of decimal digits denotes, and the
shortest decimal numeral of a number, which denotes it.
-/

namespace Numerals

open Machine

def isDigit (c : UInt8) : Bool := ch '0' ≤ c && c ≤ ch '9'

/-- The number a run of digits denotes. -/
def decimal (ds : Bytes) : ℕ := ds.foldl (fun n c => 10 * n + (c.toNat - (ch '0').toNat)) 0

/-- The value of a hexadecimal digit, in either case. -/
def hexVal (c : UInt8) : Option ℕ :=
  if ch '0' ≤ c ∧ c ≤ ch '9' then some (c.toNat - (ch '0').toNat)
  else if ch 'a' ≤ c ∧ c ≤ ch 'f' then some (c.toNat - (ch 'a').toNat + 10)
  else if ch 'A' ≤ c ∧ c ≤ ch 'F' then some (c.toNat - (ch 'A').toNat + 10)
  else none

/-- The byte of a decimal digit. -/
def digitByte (d : ℕ) : UInt8 := UInt8.ofNat (d + (ch '0').toNat)

/-- The shortest numeral of `n`. -/
def decimalDigits (n : ℕ) : Bytes :=
  if n = 0 then ascii "0" else (Nat.digits 10 n).reverse.map digitByte

theorem digitByte_value {d : ℕ} (hd : d < 10) :
    isDigit (digitByte d) ∧ (digitByte d).toNat - (ch '0').toNat = d := by
  interval_cases d <;> decide

theorem isDigit_of_mem_decimalDigits {n : ℕ} {c : UInt8} (hc : c ∈ decimalDigits n) :
    isDigit c := by
  unfold decimalDigits at hc
  split at hc
  · obtain rfl : c = ch '0' := by simpa [ascii] using hc
    decide
  · obtain ⟨d, hd, rfl⟩ := List.mem_map.mp hc
    have hlt : d < 10 := Nat.digits_lt_base (by norm_num) (List.mem_reverse.mp hd)
    exact (digitByte_value hlt).1

theorem decimalDigits_ne_nil (n : ℕ) : decimalDigits n ≠ [] := by
  unfold decimalDigits
  split
  · decide
  · simpa [Nat.digits_eq_nil_iff_eq_zero]

/-- The number of digits between two powers of ten. -/
theorem length_decimalDigits {n k : ℕ} (hlow : 10 ^ k ≤ n) (hhigh : n < 10 ^ (k + 1)) :
    (decimalDigits n).length = k + 1 := by
  have hn : n ≠ 0 := fun h => absurd (Nat.pow_pos (by norm_num)) (by omega : ¬ 0 < 10 ^ k)
  have hmore : k < (Nat.digits 10 n).length := (Nat.lt_digits_length_iff (by norm_num) n).2 hlow
  have hless : (Nat.digits 10 n).length ≤ k + 1 :=
    (Nat.digits_length_le_iff (by norm_num) n).2 hhigh
  rw [decimalDigits, if_neg hn, List.length_map, List.length_reverse]
  omega

theorem length_decimalDigits_le {n k : ℕ} (h : n < 10 ^ (k + 1)) :
    (decimalDigits n).length ≤ k + 1 := by
  unfold decimalDigits
  split
  · exact Nat.succ_le_succ (Nat.zero_le k)
  · rw [List.length_map, List.length_reverse]
    exact (Nat.digits_length_le_iff (by norm_num) n).2 h

theorem decimal_reverse_map {ds : List ℕ} (h : ∀ d ∈ ds, d < 10) :
    decimal (ds.reverse.map digitByte) = Nat.ofDigits 10 ds := by
  unfold decimal
  rw [List.map_reverse, List.foldl_reverse]
  induction ds with
  | nil => rfl
  | cons d ds ih =>
    have hd : (digitByte d).toNat - (ch '0').toNat = d :=
      (digitByte_value (h d List.mem_cons_self)).2
    rw [List.map_cons, List.foldr_cons, ih fun e he => h e (List.mem_cons_of_mem d he), hd,
      Nat.ofDigits_cons]
    ring

/-- A numeral denotes the number it was made from. -/
theorem decimal_decimalDigits (n : ℕ) : decimal (decimalDigits n) = n := by
  unfold decimalDigits
  split
  · rename_i hn
    rw [hn]
    rfl
  · rw [decimal_reverse_map fun d hd => Nat.digits_lt_base (by norm_num) hd, Nat.ofDigits_digits]

theorem decimalDigits_injective : Function.Injective decimalDigits :=
  Function.LeftInverse.injective decimal_decimalDigits

/-! ## Reading a number -/

/-- `isspace` in the C locale. -/
def isSpace (c : UInt8) : Bool := c = ch ' ' ∨ (9 ≤ c ∧ c ≤ 13)

/-- The number at the start of a text, after white space and one sign. -/
def leadingNumber (s : Bytes) : Option ℤ :=
  let s := s.dropWhile isSpace
  let negative := s.head? = some (ch '-')
  let digits := (if negative ∨ s.head? = some (ch '+') then s.drop 1 else s).takeWhile isDigit
  if digits = [] then none
  else if negative then some (-(decimal digits : ℤ)) else some (decimal digits : ℤ)

inductive StoiError where
  | invalid_argument
  | out_of_range
  deriving DecidableEq, Repr

/-- `std::stoi(s)` -/
def stoi (s : Bytes) : Except StoiError ℤ :=
  match leadingNumber s with
  | none => .error .invalid_argument
  | some n => if -2 ^ 31 ≤ n ∧ n < 2 ^ 31 then .ok n else .error .out_of_range

theorem digit_starts_number {c : UInt8} (hc : isDigit c) :
    isSpace c = false ∧ c ≠ ch '-' ∧ c ≠ ch '+' := by
  simp only [isDigit, isSpace, ch, Bool.and_eq_true, decide_eq_true_eq, decide_eq_false_iff_not,
    UInt8.le_iff_toNat_le, ne_eq, ← UInt8.toNat_inj] at hc ⊢
  simp at hc ⊢
  omega

theorem leadingNumber_decimalDigits (n : ℕ) : leadingNumber (decimalDigits n) = some (n : ℤ) := by
  have hall : ∀ d ∈ decimalDigits n, isDigit d := fun d hd => isDigit_of_mem_decimalDigits hd
  have htake : (decimalDigits n).takeWhile isDigit = decimalDigits n :=
    List.takeWhile_eq_self_iff.2 hall
  obtain ⟨c, ds, hds⟩ := List.exists_cons_of_ne_nil (decimalDigits_ne_nil n)
  obtain ⟨hspace, hminus, hplus⟩ := digit_starts_number (hall c (hds ▸ List.mem_cons_self))
  have hskip : (decimalDigits n).dropWhile isSpace = decimalDigits n := by
    rw [hds, List.dropWhile_cons, hspace]
    rfl
  have hhead : (decimalDigits n).head? = some c := by rw [hds]; rfl
  simp only [leadingNumber, hskip, hhead, Option.some.injEq, hminus, hplus, or_self, if_false,
    htake, decimalDigits_ne_nil, decimal_decimalDigits]

theorem stoi_eq_ok {s : Bytes} {n : ℤ} :
    stoi s = .ok n ↔ leadingNumber s = some n ∧ -2 ^ 31 ≤ n ∧ n < 2 ^ 31 := by
  unfold stoi
  cases leadingNumber s with
  | none => simp
  | some m =>
    dsimp only
    split
    · rename_i hrange
      rw [Except.ok.injEq, Option.some.injEq]
      exact ⟨fun h => ⟨h, h ▸ hrange⟩, fun h => h.1⟩
    · rename_i hrange
      rw [Option.some.injEq]
      constructor
      · intro h
        cases h
      · rintro ⟨rfl, h⟩
        exact absurd h hrange

end Numerals
