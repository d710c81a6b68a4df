import Mathlib.Data.List.Basic

/-!
# Computations that may throw

Inversion of a sequence of `Except` computations: a sequence returns when both parts return, and
throws when the first part throws or the second does.

`Ends allowed post x` is the judgement that `x` returns with `post` or throws something `allowed`;
its rules follow the shape of the computation.
-/

namespace Exceptions

universe u v

variable {ε : Type u} {α β : Type v}

theorem bind_eq_ok {x : Except ε α} {f : α → Except ε β} {b : β} :
    (x >>= f) = .ok b ↔ ∃ a, x = .ok a ∧ f a = .ok b := by
  constructor
  · intro h
    cases x with
    | error e => cases h
    | ok a => exact ⟨a, rfl, h⟩
  · rintro ⟨a, rfl, h⟩
    exact h

theorem bind_eq_error {x : Except ε α} {f : α → Except ε β} {e : ε} :
    (x >>= f) = .error e ↔ x = .error e ∨ ∃ a, x = .ok a ∧ f a = .error e := by
  constructor
  · intro h
    cases x with
    | error e' =>
      cases h
      exact Or.inl rfl
    | ok a => exact Or.inr ⟨a, rfl, h⟩
  · rintro (rfl | ⟨a, rfl, h⟩)
    · rfl
    · exact h

theorem ok_bind (a : α) (f : α → Except ε β) : (Except.ok a >>= f) = f a := rfl

theorem throw_bind (e : ε) (f : α → Except ε β) : (throw e >>= f) = throw e := rfl

theorem throw_ne_ok {e : ε} {a : α} : (throw e : Except ε α) ≠ .ok a := by
  intro h
  cases h

theorem pure_eq_ok {a b : α} : (pure a : Except ε α) = .ok b ↔ a = b := by
  constructor
  · intro h
    cases h
    rfl
  · rintro rfl
    rfl

/-- A check that throws is passed when the computation returns. -/
theorem ite_throw_eq_ok {p : Prop} [Decidable p] {e : ε} {x : Except ε α} {a : α} :
    (if p then throw e else x) = .ok a ↔ ¬ p ∧ x = .ok a := by
  by_cases hp : p
  · rw [if_pos hp]
    exact ⟨fun h => absurd h throw_ne_ok, fun h => absurd hp h.1⟩
  · rw [if_neg hp]
    exact ⟨fun h => ⟨hp, h⟩, fun h => h.2⟩

/-- A check that throws is passed when the computation returns. -/
theorem ite_else_throw_eq_ok {p : Prop} [Decidable p] {e : ε} {x : Except ε α} {a : α} :
    (if p then x else throw e) = .ok a ↔ p ∧ x = .ok a := by
  by_cases hp : p
  · rw [if_pos hp]
    exact ⟨fun h => ⟨hp, h⟩, fun h => h.2⟩
  · rw [if_neg hp]
    exact ⟨fun h => absurd h throw_ne_ok, fun h => absurd h.1 hp⟩

/-! ## How a computation ends -/

/-- `x` returns a result with the property `post`, or throws an error that is `allowed`. -/
def Ends (allowed : ε → Prop) (post : α → Prop) : Except ε α → Prop
  | .ok a => post a
  | .error e => allowed e

variable {allowed : ε → Prop} {m post : α → Prop} {post' : β → Prop}

theorem ends_pure {a : α} (h : post a) : Ends allowed post (pure a : Except ε α) := h

theorem Ends.bind {x : Except ε α} {f : α → Except ε β} (hx : Ends allowed m x)
    (hf : ∀ a, m a → Ends allowed post' (f a)) : Ends allowed post' (x >>= f) := by
  cases x with
  | error e => exact hx
  | ok a => exact hf a hx

theorem Ends.mono {x : Except ε α} (hx : Ends allowed m x) (h : ∀ a, m a → post a) :
    Ends allowed post x := by
  cases x with
  | error e => exact hx
  | ok a => exact h a hx

/-- A loop keeps its invariant when each turn does. -/
theorem ends_foldlM {γ : Type*} {f : α → γ → Except ε α} (l : List γ)
    (hf : ∀ a c, c ∈ l → m a → Ends allowed m (f a c)) {a : α} (ha : m a) :
    Ends allowed m (l.foldlM f a) := by
  induction l generalizing a with
  | nil => exact ha
  | cons c l ih =>
    rw [List.foldlM_cons]
    exact (hf a c List.mem_cons_self ha).bind fun b hb =>
      ih (fun a' c' hc => hf a' c' (List.mem_cons_of_mem c hc)) hb

/-- A check that throws something allowed. -/
theorem ends_ite_throw {p : Prop} [Decidable p] {e : ε} {x : Except ε α} (he : allowed e)
    (hx : ¬ p → Ends allowed post x) : Ends allowed post (if p then throw e else x) := by
  split
  · exact he
  · rename_i hp
    exact hx hp

theorem ends_ite {p : Prop} [Decidable p] {x y : Except ε α} (hx : p → Ends allowed post x)
    (hy : ¬ p → Ends allowed post y) : Ends allowed post (if p then x else y) := by
  split
  · rename_i hp
    exact hx hp
  · rename_i hp
    exact hy hp

end Exceptions
