import CoUringWeb.Framework.HashSwitch
import CoUringWeb.Framework.Machine

/-!
# `getContentType`

The content type of a file name extension, from `src/http.cpp`, and the hash of `include/utils.h`
that it switches on.  The hash is a polynomial in 31 modulo `10 ^ 9 + 9` whose coefficients are the
distances from the character before `a`: one is zero, and those of the characters before it and
of the bytes from 128 on are negative, so they wrap modulo `2 ^ 64` before they are reduced.

`getContentType` compares hash values only.  It is the switch on the extensions themselves for the
extensions it knows and for the strings that share a hash value with none of them
(`getContentType_eq_contentType_iff`).
-/

namespace CoUringWeb

open Machine HashSwitch

/-! ## The hash -/

/-- `i - 'a' + 1` for a signed `char`, converted to `uint64_t` -/
def charWeight (c : UInt8) : ℕ := ((c.toInt8.toInt - 96) % 2 ^ 64).toNat

/-- The loop of both hash functions, with `hashVal` and `powerOfP`. -/
def hashLoop : Bytes → ℕ → ℕ → ℕ
  | [], hashVal, _ => hashVal
  | c :: str, hashVal, powerOfP =>
    hashLoop str (uint64 (hashVal + uint64 (charWeight c * powerOfP)) % 1000000009)
      (uint64 (powerOfP * 31) % 1000000009)

def stringHash (str : Bytes) : ℕ :=
  uint64 (hashLoop str 0 1 % 1000000009 + 1000000009) % 1000000009

def stringHashConstexpr (str : Bytes) : ℕ :=
  uint64 (hashLoop str 0 1 % 1000000009 + 1000000009) % 1000000009

/-! ## The switch -/

def getContentType (fileExt : Bytes) : Bytes :=
  let hashVal := stringHash fileExt
  if hashVal = stringHashConstexpr (ascii "jpg") ∨
      hashVal = stringHashConstexpr (ascii "jpeg") then ascii "image/jpeg"
  else if hashVal = stringHashConstexpr (ascii "png") then ascii "image/png"
  else if hashVal = stringHashConstexpr (ascii "gif") then ascii "image/gif"
  else if hashVal = stringHashConstexpr (ascii "htm") ∨
      hashVal = stringHashConstexpr (ascii "html") then ascii "text/html"
  else if hashVal = stringHashConstexpr (ascii "js") then ascii "application/javascript"
  else if hashVal = stringHashConstexpr (ascii "css") then ascii "text/css"
  else if hashVal = stringHashConstexpr (ascii "txt") then ascii "text/plain"
  else []

/-- The extensions with a content type. -/
def contentTypes : List (Bytes × Bytes) :=
  [(ascii "jpg", ascii "image/jpeg"), (ascii "jpeg", ascii "image/jpeg"),
    (ascii "png", ascii "image/png"), (ascii "gif", ascii "image/gif"),
    (ascii "htm", ascii "text/html"), (ascii "html", ascii "text/html"),
    (ascii "js", ascii "application/javascript"), (ascii "css", ascii "text/css"),
    (ascii "txt", ascii "text/plain")]

/-- The content type of an extension, and nothing for an unknown one. -/
def contentType (fileExt : Bytes) : Bytes := select contentTypes [] fileExt

theorem getContentType_eq_selectHash (fileExt : Bytes) :
    getContentType fileExt = selectHash stringHash contentTypes [] fileExt := by
  have hconst : stringHashConstexpr = stringHash := rfl
  simp only [getContentType, contentTypes, selectHash_cons, selectHash_nil, ite_or, hconst, eq_comm]

/-- `getContentType` knows an extension for what it is if and only if it is one of the nine or
shares its hash value with none of them. -/
theorem getContentType_eq_contentType_iff (fileExt : Bytes) :
    getContentType fileExt = contentType fileExt ↔
      (∃ c ∈ contentTypes, c.1 = fileExt) ∨
        ∀ c ∈ contentTypes, stringHash c.1 ≠ stringHash fileExt := by
  rw [getContentType_eq_selectHash]
  exact selectHash_eq_select_iff (by decide +kernel) (by decide)

/-! ## Strings with one hash value -/

theorem hashLoop_append (s t : Bytes) (hashVal powerOfP : ℕ) :
    ∃ powerOfP', hashLoop (s ++ t) hashVal powerOfP =
      hashLoop t (hashLoop s hashVal powerOfP) powerOfP' := by
  induction s generalizing hashVal powerOfP with
  | nil => exact ⟨powerOfP, rfl⟩
  | cons c s ih => exact ih _ _

/-- A character of weight zero changes nothing. -/
theorem hashLoop_backticks (n : ℕ) {hashVal : ℕ} (h : hashVal < 1000000009) (powerOfP : ℕ) :
    hashLoop (List.replicate n (ch '`')) hashVal powerOfP = hashVal := by
  have hweight : charWeight (ch '`') = 0 := by decide
  induction n generalizing powerOfP with
  | zero => rfl
  | succ n ih =>
    have hword : uint64 hashVal = hashVal := uint64_of_lt (by omega)
    have hzero : uint64 0 = 0 := rfl
    rw [List.replicate_succ, hashLoop, hweight, Nat.zero_mul, hzero, Nat.add_zero, hword,
      Nat.mod_eq_of_lt h, ih]

theorem hashLoop_lt (s : Bytes) {hashVal : ℕ} (h : hashVal < 1000000009) (powerOfP : ℕ) :
    hashLoop s hashVal powerOfP < 1000000009 := by
  induction s generalizing hashVal powerOfP with
  | nil => exact h
  | cons c s ih => exact ih (Nat.mod_lt _ (by norm_num)) _

/-- A string keeps its hash value when backticks are appended to it. -/
theorem stringHash_append_backticks (s : Bytes) (n : ℕ) :
    stringHash (s ++ List.replicate n (ch '`')) = stringHash s := by
  obtain ⟨powerOfP, happend⟩ := hashLoop_append s (List.replicate n (ch '`')) 0 1
  rw [stringHash, happend, hashLoop_backticks n (hashLoop_lt s (by norm_num) 1), stringHash]

/-- Every known extension with backticks after it passes for the extension. -/
theorem getContentType_append_backticks (fileExt : Bytes) (n : ℕ) :
    getContentType (fileExt ++ List.replicate n (ch '`')) = getContentType fileExt := by
  simp only [getContentType, stringHash_append_backticks]

/-- The extension "jpg" with a backtick after it is taken for a picture. -/
theorem unknown_extension_has_type :
    ∃ fileExt, contentType fileExt = [] ∧ getContentType fileExt = ascii "image/jpeg" :=
  ⟨ascii "jpg`", by decide, by decide +kernel⟩

end CoUringWeb
