import Mathlib.Data.List.Basic
import Mathlib.Data.Nat.ModEq
import Mathlib.Logic.Function.Basic

/-!
# Bounded queues and ring buffers

A bounded queue is specified as a machine on lists (`BoundedFifo`): a push is refused exactly when
the list is full, a pop takes the head and fails exactly on the empty list.  A concrete machine
answers every sequence of calls like the list when a relation between the two is kept by each call
with equal answers (`answers_eq_of_simulation`).

The second part is the arithmetic of a ring of `c` slots in which the element with counter value
`n` lives in slot `n % c`: counters less than `c` apart never share a slot (`slot_injective`), and
the slots of a window of the ring hold a given list (`Holds`).
-/

/-! ## The bounded queue -/

namespace BoundedFifo

variable {T S : Type*}

/-- A call of the queue. -/
inductive Call (T : Type*) where
  | push (v : T)
  | pop
  deriving DecidableEq, Repr

/-- What a call answers. -/
inductive Answer (T : Type*) where
  | pushed (accepted : Bool)
  | popped (v : Option T)
  deriving DecidableEq, Repr

/-- One call on the queue whose elements are `l`, oldest first. -/
def call (bound : ℕ) (l : List T) : Call T → List T × Answer T
  | .push v => if l.length < bound then (l ++ [v], .pushed true) else (l, .pushed false)
  | .pop =>
    match l with
    | [] => ([], .popped none)
    | v :: l => (l, .popped (some v))

/-- The answers of a machine to a sequence of calls. -/
def answers (f : S → Call T → S × Answer T) : S → List (Call T) → List (Answer T)
  | _, [] => []
  | s, c :: cs => (f s c).2 :: answers f (f s c).1 cs

/-- The state of a machine after a sequence of calls. -/
def after (f : S → Call T → S × Answer T) : S → List (Call T) → S
  | s, [] => s
  | s, c :: cs => after f (f s c).1 cs

theorem answers_append (f : S → Call T → S × Answer T) (s : S) (cs ds : List (Call T)) :
    answers f s (cs ++ ds) = answers f s cs ++ answers f (after f s cs) ds := by
  induction cs generalizing s with
  | nil => rfl
  | cons c cs ih => simp [answers, after, ih]

theorem after_append (f : S → Call T → S × Answer T) (s : S) (cs ds : List (Call T)) :
    after f s (cs ++ ds) = after f (after f s cs) ds := by
  induction cs generalizing s with
  | nil => rfl
  | cons c cs ih => simp [after, ih]

/-- A machine answers like the bounded list when each call keeps a relation to the list and gives
the list's answer.  The relation may depend on the calls still to come. -/
theorem answers_eq_of_simulation {f : S → Call T → S × Answer T} {bound : ℕ}
    {R : List (Call T) → S → List T → Prop}
    (h : ∀ c cs s l, R (c :: cs) s l →
      R cs (f s c).1 (call bound l c).1 ∧ (f s c).2 = (call bound l c).2)
    {s : S} {l : List T} (cs : List (Call T)) (hs : R cs s l) :
    answers f s cs = answers (call bound) l cs := by
  induction cs generalizing s l with
  | nil => rfl
  | cons c cs ih =>
    obtain ⟨hR, hout⟩ := h c cs s l hs
    rw [answers, answers, hout, ih hR]

end BoundedFifo

/-! ## Slots of a ring -/

namespace Ring

variable {T : Type*} {c : ℕ}

/-- Counters less than `c` apart that share a slot are equal. -/
theorem slot_injective {a b : ℕ} (hab : a ≤ b) (hb : b < a + c) (h : a % c = b % c) : a = b := by
  have hdvd : c ∣ b - a := (Nat.modEq_iff_dvd' hab).1 h
  have hzero : b - a = 0 := Nat.eq_zero_of_dvd_of_lt hdvd (by omega)
  omega

/-- With `r ≤ w` and at most `c - 1` counters between them, the slot after `w` is that of `r`
exactly when `c - 1` counters lie between. -/
theorem next_slot_eq_iff {r w : ℕ} (hrw : r ≤ w) (hw : w < r + c) :
    (w + 1) % c = r % c ↔ w - r = c - 1 := by
  constructor
  · intro h
    by_contra hne
    have := slot_injective (c := c) (a := r) (b := w + 1) (by omega) (by omega) h.symm
    omega
  · intro h
    have : w + 1 = r + c := by omega
    rw [this, Nat.add_mod_right]

/-- The slots of the counters `r, r + 1, ..` hold the list `l`. -/
def Holds (slots : ℕ → T) (c r : ℕ) (l : List T) : Prop :=
  ∀ i (hi : i < l.length), slots ((r + i) % c) = l[i]

theorem holds_nil (slots : ℕ → T) (c r : ℕ) : Holds slots c r [] :=
  fun i hi => absurd hi (Nat.not_lt_zero i)

/-- The first slot of the window holds the head of the list, and the rest of the window the rest
of the list. -/
theorem holds_cons {slots : ℕ → T} {r : ℕ} {v : T} {l : List T} :
    Holds slots c r (v :: l) ↔ slots (r % c) = v ∧ Holds slots c (r + 1) l := by
  constructor
  · intro h
    have hhead : slots ((r + 0) % c) = v := h 0 (Nat.succ_pos _)
    refine ⟨hhead, fun i hi => ?_⟩
    have := h (i + 1) (Nat.succ_lt_succ hi)
    rwa [← Nat.add_assoc, Nat.add_right_comm] at this
  · rintro ⟨hv, hl⟩ i hi
    cases i with
    | zero => simpa using hv
    | succ i =>
      have := hl i (by simpa using hi)
      rwa [Nat.add_right_comm, Nat.add_assoc] at this

/-- A window one longer holds one more element, in the slot after the shorter window. -/
theorem holds_concat {slots : ℕ → T} {r : ℕ} {l : List T} {v : T} :
    Holds slots c r (l ++ [v]) ↔ Holds slots c r l ∧ slots ((r + l.length) % c) = v := by
  constructor
  · intro h
    refine ⟨fun i hi => ?_, ?_⟩
    · have := h i (by rw [List.length_append]; omega)
      rwa [List.getElem_append_left hi] at this
    · have := h l.length (by rw [List.length_append, List.length_singleton]; omega)
      rwa [List.getElem_concat_length rfl] at this
  · rintro ⟨hl, hv⟩ i hi
    rcases Nat.lt_or_ge i l.length with hlt | hge
    · rw [List.getElem_append_left hlt]
      exact hl i hlt
    · have hi' : i = l.length := by
        rw [List.length_append, List.length_singleton] at hi
        omega
      subst hi'
      rw [List.getElem_concat_length rfl]
      exact hv

/-- Writing the slot just after a window that does not fill the ring overwrites nothing in it. -/
theorem holds_update {slots : ℕ → T} {r : ℕ} {l : List T} (hl : l.length < c)
    (h : Holds slots c r l) (v : T) :
    Holds (Function.update slots ((r + l.length) % c) v) c r l := by
  intro i hi
  have hne : (r + i) % c ≠ (r + l.length) % c := fun heq => by
    have := slot_injective (c := c) (a := r + i) (b := r + l.length) (by omega) (by omega) heq
    omega
  rw [Function.update_of_ne hne, h i hi]

/-- Writing the slot just after a window that does not fill the ring extends the window. -/
theorem holds_write {slots : ℕ → T} {r : ℕ} {l : List T} (hl : l.length < c)
    (h : Holds slots c r l) (v : T) :
    Holds (Function.update slots ((r + l.length) % c) v) c r (l ++ [v]) :=
  holds_concat.2 ⟨holds_update hl h v, Function.update_self _ _ _⟩

end Ring
