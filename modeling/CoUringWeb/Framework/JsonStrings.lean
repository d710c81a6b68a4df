import CoUringWeb.Framework.JsonSyntax

/-!
# What a string literal denotes

The escapes of a literal denote UTF-16 code units.  One that is no surrogate is a code point of its
own; a high surrogate and the low one after it are a code point above U+FFFF together.  `Denotes`
relates a literal to its bytes: the raw ones as they are, and the code points in UTF-8.  A literal
with a surrogate on its own denotes nothing.
-/

namespace JsonSyntax

open Machine Numerals

namespace StrItem

/-- The code point of a surrogate pair. -/
def pairValue (hi lo : ℕ) : ℕ := 0x10000 + 0x400 * (hi - 0xD800) + (lo - 0xDC00)

/-- An escape that is a high surrogate, and one that is a low surrogate. -/
inductive IsPair : StrItem → StrItem → ℕ → Prop where
  | mk {a b c d a' b' c' d' : UInt8}
      (hi : 0xD800 ≤ codeUnit a b c d ∧ codeUnit a b c d ≤ 0xDBFF)
      (lo : 0xDC00 ≤ codeUnit a' b' c' d' ∧ codeUnit a' b' c' d' ≤ 0xDFFF) :
      IsPair (.uni a b c d) (.uni a' b' c' d')
        (pairValue (codeUnit a b c d) (codeUnit a' b' c' d'))

theorem IsPair.surrogates {i j : StrItem} {n : ℕ} (h : IsPair i j n) :
    ¬ i.NotSurrogate ∧ ¬ j.NotSurrogate := by
  obtain ⟨hi, lo⟩ := h
  simp only [NotSurrogate, not_not]
  omega

theorem IsPair.value_bounds {i j : StrItem} {n : ℕ} (h : IsPair i j n) :
    0x10000 ≤ n ∧ n ≤ 0x10FFFF := by
  obtain ⟨hi, lo⟩ := h
  unfold pairValue
  omega

/-- The code point of a pair takes four bytes. -/
theorem IsPair.length_utf8 {i j : StrItem} {n : ℕ} (h : IsPair i j n) :
    (String.utf8EncodeChar (Char.ofNat n)).length = 4 := by
  have hbounds := h.value_bounds
  have hval : (Char.ofNat n).val.toNat = n := by
    apply val_charOfNat
    unfold Nat.isValidChar
    omega
  have hbig : ∀ m : UInt32, m.toNat ≤ 0xFFFF → ¬ (Char.ofNat n).val ≤ m := by
    intro m hm hle
    rw [UInt32.le_iff_toNat_le, hval] at hle
    omega
  rw [String.length_utf8EncodeChar, Char.utf8Size, if_neg (hbig _ (by decide)),
    if_neg (hbig _ (by decide)), if_neg (hbig _ (by decide))]

end StrItem

/-- The literal with these characters denotes these bytes. -/
inductive Denotes : List StrItem → Bytes → Prop where
  | nil : Denotes [] []
  | single {i : StrItem} {items : List StrItem} {s : Bytes} (hi : i.NotSurrogate)
      (h : Denotes items s) : Denotes (i :: items) (i.denote ++ s)
  | pair {i j : StrItem} {n : ℕ} {items : List StrItem} {s : Bytes} (hpair : i.IsPair j n)
      (h : Denotes items s) :
      Denotes (i :: j :: items) (String.utf8EncodeChar (Char.ofNat n) ++ s)

/-- Without surrogates each character denotes its bytes by itself. -/
theorem Denotes.eq_itemsDenote {items : List StrItem} {s : Bytes} (h : Denotes items s)
    (hitems : ∀ i ∈ items, i.NotSurrogate) : s = itemsDenote items := by
  induction h with
  | nil => rfl
  | single hi h ih =>
    rw [ih fun j hj => hitems j (List.mem_cons_of_mem _ hj)]
    rfl
  | pair hpair h ih => exact absurd (hitems _ List.mem_cons_self) hpair.surrogates.1

/-- No byte in the text of a literal is a control character. -/
theorem StrItem.WellFormed.le_of_mem_text {i : StrItem} (h : i.WellFormed) {c : UInt8}
    (hc : c ∈ i.text) : 0x20 ≤ c := by
  have hescape : ∀ x ∈ ascii "\"\\/bfnrt", (0x20 : UInt8) ≤ x := by decide +kernel
  have hdigit : ∀ x : UInt8, (hexVal x).isSome → 0x20 ≤ x := by decide +kernel
  cases i with
  | raw x =>
    obtain rfl : c = x := by simpa [text] using hc
    exact h.1
  | esc x =>
    rcases List.mem_cons.1 hc with rfl | hc
    · decide
    · obtain rfl : c = x := by simpa using hc
      exact hescape c h
  | uni a b c' d =>
    rcases List.mem_cons.1 hc with rfl | hc
    · decide
    rcases List.mem_cons.1 hc with rfl | hc
    · decide
    exact hdigit c (h c hc)

theorem le_of_mem_itemsText {items : List StrItem} (h : ItemsWellFormed items) {c : UInt8}
    (hc : c ∈ itemsText items) : 0x20 ≤ c := by
  obtain ⟨i, hi, hc⟩ := List.mem_flatMap.1 hc
  exact (h i hi).le_of_mem_text hc

end JsonSyntax
