import CoUringWeb.Json.Denotation
import CoUringWeb.Json.Safety

/-!
# The integers `parseNum` reads

`getNum` takes every character a number may have, and `ss_ >> num` then reads a prefix of them and
saturates; nothing looks at what is left of the stream, nor at its `failbit`.  So a run of number
characters is read as the integer it denotes exactly when it is one, in the range of `int64_t`.
-/

namespace CoUringWeb

namespace JsonParser

open Machine Numerals JsonSyntax Exceptions

variable {δ : Type} [StreamDouble δ]

/-- An optional minus sign and digits. -/
def IsSignedDigits (tok : Bytes) : Prop :=
  ∃ minus digits, IsMinus minus ∧ AllDigits digits ∧ digits ≠ [] ∧ tok = minus ++ digits

/-- The run is an integer in the range of `int64_t`. -/
def IsInt64 (tok : Bytes) : Prop :=
  IsSignedDigits tok ∧ -2 ^ 63 ≤ intValue tok ∧ intValue tok < 2 ^ 63

/-- `parseNum` returns the integer that the run denotes, or throws `JsonParseError`. -/
def ReadsExactly (tok : Bytes) (x : Except JsonError (JsonPtr δ × ℕ)) : Prop :=
  Safe (fun r => IsSignedDigits tok ∧ ∃ n : Int64, r.1 = .jsonInteger n ∧ n.toInt = intValue tok) x

/-- A run of number characters is read exactly, or refused, if and only if it is an integer in the
range of `int64_t` or ends the text. -/
theorem parseNum_exact_iff (view : Bytes) (k : ℕ) :
    ReadsExactly (numberRun view k) (parseNum view k : Except JsonError (JsonPtr δ × ℕ)) ↔
      IsInt64 (numberRun view k) ∨ view.length ≤ k + (numberRun view k).length := by
  rcases Nat.lt_or_ge (k + (numberRun view k).length) view.length with hlt | hend
  · rw [or_iff_left (by omega), parseNum_of_lt hlt]
    constructor
    · rintro ⟨hdigits, n, -, hn⟩
      exact ⟨hdigits, hn ▸ Int64.le_toInt n, hn ▸ Int64.toInt_lt n⟩
    · rintro ⟨⟨minus, digits, hminus, hdigits, hne, htok⟩, hlo, hhi⟩
      refine ⟨⟨minus, digits, hminus, hdigits, hne, htok⟩, Int64.ofInt (intValue _), ?_,
        Int64.toInt_ofInt_of_le hlo hhi⟩
      rw [htok] at hlo hhi ⊢
      exact (numValue_of_digits hminus hdigits hne hlo hhi).1
  · rw [or_iff_right_of_imp fun _ => hend, parseNum_of_end hend]
    exact ⟨fun _ => hend, fun _ => isParseError _ _⟩

/-- An integer above the range is read as the largest one. -/
theorem large_integer_saturated :
    (parse (ascii "[99999999999999999999]") : Except JsonError (JsonPtr Bytes)) =
        .ok (.jsonArray [.jsonInteger 9223372036854775807]) ∧
      (numberRun (ascii "[99999999999999999999]") 1).any isDoubleChar = false ∧
      ¬ ReadsExactly (numberRun (ascii "[99999999999999999999]") 1)
        (parseNum (ascii "[99999999999999999999]") 1 : Except JsonError (JsonPtr Bytes × ℕ)) := by
  have hrun : numberRun (ascii "[99999999999999999999]") 1 = ascii "99999999999999999999" := by
    decide
  have hnum : (parseNum (ascii "[99999999999999999999]") 1 : Except JsonError (JsonPtr Bytes × ℕ)) =
      .ok (.jsonInteger 9223372036854775807, 21) := by
    rfl
  refine ⟨rfl, by rw [hrun]; decide, ?_⟩
  rw [hnum, hrun]
  rintro ⟨-, n, hn, hvalue⟩
  cases hn
  exact absurd hvalue (by decide)

end JsonParser

end CoUringWeb
