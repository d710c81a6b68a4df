import CoUringWeb.Framework.LeadBytes
import CoUringWeb.Utils.Unicode

/-!
# Lists of code points

Each branch of `fromUnicode` writes the code with a lead byte of its own
(`fromUnicode_eq_encode`), so the code points can be read back from the concatenation of what it
writes for them.
-/

namespace CoUringWeb

open Machine LeadBytes

theorem utf8Byte_tail (n j : ℕ) :
    utf8Byte n (6 * j) 0x3F 0x80 = UInt8.ofNat (n / 64 ^ j % 64 + 0x80) := by
  have hbyte := utf8Byte_eq n (6 * j) 6 0x80 rfl
  rwa [pow_mul] at hbyte

theorem utf8Byte_lead {n j k lead : ℕ} (hlead : lead % 2 ^ k = 0) (hn : n / 64 ^ j < 2 ^ k) :
    utf8Byte n (6 * j) (2 ^ k - 1) lead = UInt8.ofNat (n / 64 ^ j + lead) := by
  have hpow : 2 ^ (6 * j) = 64 ^ j := pow_mul 2 6 j
  rw [utf8Byte_eq n (6 * j) k lead hlead, hpow, Nat.mod_eq_of_lt hn]

/-- The bytes that a branch with `j` continuation bytes writes; the lead byte has `k` free bits. -/
theorem encode_eq_utf8Bytes {n j k : ℕ} (hlead : leadBits j % 2 ^ k = 0) (hn : n / 64 ^ j < 2 ^ k) :
    encode j n = utf8Byte n (6 * j) (2 ^ k - 1) (leadBits j) ::
      (List.range j).reverse.map fun i => utf8Byte n (6 * i) 0x3F 0x80 := by
  have htail (i : ℕ) :
      tail i n = (List.range i).reverse.map fun i => utf8Byte n (6 * i) 0x3F 0x80 := by
    induction i with
    | zero => rfl
    | succ i ih =>
      rw [tail, ih, List.range_succ, List.reverse_append, List.reverse_singleton,
        List.singleton_append, List.map_cons, utf8Byte_tail]
  rw [encode, utf8Byte_lead hlead hn, htail]

theorem fromUnicode_eq_encode {n : ℕ} (h : n ≤ 0x7FFFFFFF) :
    ∃ k ≤ 5, n / 64 ^ k < leadSize k ∧ fromUnicode n = encode k n := by
  unfold fromUnicode
  by_cases h₁ : n ≤ 0x7F
  · have hn : n / 64 ^ 0 < 2 ^ 7 := by omega
    exact ⟨0, by omega, hn, by rw [if_pos h₁, encode_eq_utf8Bytes rfl hn]; rfl⟩
  rw [if_neg h₁]
  by_cases h₂ : n ≤ 0x7FF
  · have hn : n / 64 ^ 1 < 2 ^ 5 := by omega
    exact ⟨1, by omega, hn, by rw [if_pos h₂, encode_eq_utf8Bytes rfl hn]; rfl⟩
  rw [if_neg h₂]
  by_cases h₃ : n ≤ 0xFFFF
  · have hn : n / 64 ^ 2 < 2 ^ 4 := by omega
    exact ⟨2, by omega, hn, by rw [if_pos h₃, encode_eq_utf8Bytes rfl hn]; rfl⟩
  rw [if_neg h₃]
  by_cases h₄ : n ≤ 0x1FFFFF
  · have hn : n / 64 ^ 3 < 2 ^ 3 := by omega
    exact ⟨3, by omega, hn, by rw [if_pos h₄, encode_eq_utf8Bytes rfl hn]; rfl⟩
  rw [if_neg h₄]
  by_cases h₅ : n ≤ 0x3FFFFFF
  · have hn : n / 64 ^ 4 < 2 ^ 2 := by omega
    exact ⟨4, by omega, hn, by rw [if_pos h₅, encode_eq_utf8Bytes rfl hn]; rfl⟩
  rw [if_neg h₅, if_pos h]
  have hn : n / 64 ^ 5 < 2 ^ 1 := by omega
  exact ⟨5, le_rfl, hn, by rw [encode_eq_utf8Bytes rfl hn]; rfl⟩

/-- A list of code points is read back from what `fromUnicode` writes for them, and the bytes of the
form `10xxxxxx` are those that are not the first of a code point. -/
theorem decode_flatMap_fromUnicode {l : List ℕ} (h : ∀ n ∈ l, n ≤ 0x7FFFFFFF) :
    decode (l.flatMap fromUnicode) = some l ∧
      ∀ n ∈ l, ∃ lead rest, fromUnicode n = lead :: rest ∧ ¬ IsContinuation lead ∧
        ∀ b ∈ rest, IsContinuation b := by
  constructor
  · refine decode_flatMap fun n hn rest => ?_
    obtain ⟨k, hk, hsize, heq⟩ := fromUnicode_eq_encode (h n hn)
    rw [heq]
    exact decodeOne_encode hk hsize rest
  · intro n hn
    obtain ⟨k, hk, hsize, heq⟩ := fromUnicode_eq_encode (h n hn)
    exact ⟨_, _, heq, not_isContinuation_of_readLead (readLead_ofNat hk hsize),
      isContinuation_of_mem_tail⟩

theorem decode_flatMap_fromUnicode_bounds :
    decode ([0, 0x7F, 0x80, 0xFFFF, 0x10000, 0x7FFFFFFF].flatMap fromUnicode) =
      some [0, 0x7F, 0x80, 0xFFFF, 0x10000, 0x7FFFFFFF] :=
  (decode_flatMap_fromUnicode (by decide)).1

end CoUringWeb
