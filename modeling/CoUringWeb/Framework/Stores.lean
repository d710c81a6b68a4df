import Mathlib.Data.Int.Notation
import Mathlib.Data.List.Basic
import Mathlib.Tactic.Linarith

/-!
# Stores into strings and buffers

A store puts a run of elements at an offset.  `overwrite` stores into a list, which keeps its
length when the run fits; `store` stores into a memory, a partial function from offsets, of which
nothing is known where nothing was stored.

A list that is filled from the left is `filled w n`: what was stored so far and `n` cells that
still hold the blank.  Storing at the end of what was stored appends to it
(`overwrite_filled`), and so does storing into a memory at the end of the last store
(`store_store`).
-/

namespace Stores

variable {α : Type*}

/-! ## Lists -/

/-- The list with `src` stored at offset `k`. -/
def overwrite (l : List α) (k : ℕ) (src : List α) : List α :=
  l.take k ++ (src ++ l.drop (k + src.length))

theorem length_overwrite {l src : List α} {k : ℕ} (h : k + src.length ≤ l.length) :
    (overwrite l k src).length = l.length := by
  simp only [overwrite, List.length_append, List.length_take, List.length_drop]
  omega

/-- What was stored from the left, and `n` cells that still hold `blank`. -/
def filled (blank : α) (w : List α) (n : ℕ) : List α := w ++ List.replicate n blank

theorem length_filled (blank : α) (w : List α) (n : ℕ) :
    (filled blank w n).length = w.length + n := by
  simp [filled]

theorem filled_zero (blank : α) (w : List α) : filled blank w 0 = w := by
  simp [filled]

theorem overwrite_filled (blank : α) (w src : List α) {n : ℕ} (h : src.length ≤ n) :
    overwrite (filled blank w n) w.length src = filled blank (w ++ src) (n - src.length) := by
  obtain ⟨m, rfl⟩ := Nat.exists_eq_add_of_le h
  have hcells : List.replicate (src.length + m) blank =
      List.replicate src.length blank ++ List.replicate m blank := List.replicate_add ..
  unfold overwrite filled
  rw [List.take_left' rfl, List.drop_append, hcells]
  simp

/-! ## Memories -/

/-- The element at each offset, where one was stored. -/
abbrev Memory (α : Type*) := ℤ → Option α

namespace Memory

/-- Nothing was stored. -/
def unwritten : Memory α := fun _ => none

/-- A list at offset `0`. -/
def ofList (l : List α) : Memory α := fun i => if 0 ≤ i then l[i.toNat]? else none

/-- The first `n` cells, with `blank` where nothing was stored. -/
def toList (blank : α) (m : Memory α) (n : ℕ) : List α :=
  (List.range n).map fun i : ℕ => (m (i : ℤ)).getD blank

theorem length_toList (blank : α) (m : Memory α) (n : ℕ) : (toList blank m n).length = n := by
  rw [toList, List.length_map, List.length_range]

theorem toList_ofList (blank : α) (l : List α) : toList blank (ofList l) l.length = l := by
  apply List.ext_getElem
  · rw [length_toList]
  · intro i hi hl
    simp [toList, ofList, hl]

end Memory

/-- The memory with `src` stored at offset `k`. -/
def store (m : Memory α) (k : ℤ) (src : List α) : Memory α :=
  fun i => if k ≤ i ∧ i < k + src.length then src[(i - k).toNat]? else m i

theorem store_of_mem {m : Memory α} {k i : ℤ} {src : List α} (h : k ≤ i ∧ i < k + src.length) :
    store m k src i = src[(i - k).toNat]? := if_pos h

theorem store_nil (m : Memory α) (k : ℤ) : store m k [] = m := by
  funext i
  exact if_neg (by simp)

/-- A store leaves the other offsets alone. -/
theorem store_of_notMem {m : Memory α} {k i : ℤ} {src : List α}
    (h : ¬ (k ≤ i ∧ i < k + src.length)) : store m k src i = m i := if_neg h

/-- Two stores one behind the other are one store. -/
theorem store_store (m : Memory α) (k : ℤ) (a b : List α) :
    store (store m k a) (k + a.length) b = store m k (a ++ b) := by
  funext i
  by_cases hb : k + a.length ≤ i ∧ i < k + a.length + b.length
  · have hi : k ≤ i ∧ i < k + (a ++ b).length := by
      rw [List.length_append]
      omega
    have hplace : (i - k).toNat = a.length + (i - (k + a.length)).toNat := by omega
    rw [store_of_mem hb, store_of_mem hi, hplace, List.getElem?_append_right (by omega)]
    simp
  · rw [store_of_notMem hb]
    by_cases ha : k ≤ i ∧ i < k + a.length
    · have hi : k ≤ i ∧ i < k + (a ++ b).length := by
        rw [List.length_append]
        omega
      rw [store_of_mem ha, store_of_mem hi, List.getElem?_append_left (by omega)]
    · have hi : ¬ (k ≤ i ∧ i < k + (a ++ b).length) := by
        rw [List.length_append]
        omega
      rw [store_of_notMem ha, store_of_notMem hi]

/-- A store over the first cells of a list at offset `0`. -/
theorem store_ofList (a b l : List α) (h : a.length = b.length) :
    store (Memory.ofList (b ++ l)) 0 a = Memory.ofList (a ++ l) := by
  funext i
  by_cases hi : 0 ≤ i ∧ i < 0 + (a.length : ℤ)
  · rw [store_of_mem hi, Memory.ofList, if_pos hi.1, Int.sub_zero,
      List.getElem?_append_left (by omega)]
  · rw [store_of_notMem hi, Memory.ofList, Memory.ofList]
    by_cases h0 : 0 ≤ i
    · rw [if_pos h0, if_pos h0, List.getElem?_append_right (by omega),
        List.getElem?_append_right (by omega), h]
    · rw [if_neg h0, if_neg h0]

/-- The stores of `m` on top of another memory. -/
def overlay (m buffer : Memory α) : Memory α := fun i => (m i).or (buffer i)

theorem overlay_unwritten (buffer : Memory α) : overlay Memory.unwritten buffer = buffer := by
  funext i
  exact Option.none_or

theorem store_overlay (m buffer : Memory α) (k : ℤ) (src : List α) :
    store (overlay m buffer) k src = overlay (store m k src) buffer := by
  funext i
  by_cases h : k ≤ i ∧ i < k + src.length
  · have hlt : (i - k).toNat < src.length := by omega
    rw [store_of_mem h, overlay, store_of_mem h, List.getElem?_eq_getElem hlt, Option.some_or]
  · rw [store_of_notMem h, overlay, overlay, store_of_notMem h]

/-- The memory holds `l` at offset `0`. -/
def Holds (m : Memory α) (l : List α) : Prop := ∀ i : ℕ, i < l.length → m i = l[i]?

theorem Holds.of_append {m : Memory α} {l l' : List α} (h : Holds m (l ++ l')) : Holds m l := by
  intro i hi
  rw [h i (by rw [List.length_append]; omega), List.getElem?_append_left hi]

/-- A store at the end of the list. -/
theorem Holds.store {m : Memory α} {l : List α} (h : Holds m l) (src : List α) :
    Holds (store m l.length src) (l ++ src) := by
  intro i hi
  rw [List.length_append] at hi
  by_cases hlt : i < l.length
  · rw [store_of_notMem (by omega), h i hlt, List.getElem?_append_left hlt]
  · have hplace : ((i : ℤ) - l.length).toNat = i - l.length := by omega
    rw [store_of_mem (by omega), hplace, List.getElem?_append_right (by omega)]

theorem holds_nil (m : Memory α) : Holds m [] := fun _ hi => by cases hi

/-- Nothing is stored outside the first `n` cells. -/
def Within (m : Memory α) (n : ℕ) : Prop := ∀ i, m i ≠ none → 0 ≤ i ∧ i < n

theorem within_unwritten (n : ℕ) : Within (Memory.unwritten : Memory α) n :=
  fun _ hi => absurd rfl hi

theorem Within.store {m : Memory α} {n : ℕ} (h : Within m n) {k : ℕ} {src : List α}
    (hk : k + src.length ≤ n) : Within (store m k src) n := by
  intro i hi
  by_cases hmem : (k : ℤ) ≤ i ∧ i < k + src.length
  · omega
  · rw [store_of_notMem hmem] at hi
    exact h i hi

/-- Every element of `m` is the one of `l` at the same offset. -/
def Agrees (m : Memory α) (l : List α) : Prop :=
  ∀ i b, m i = some b → 0 ≤ i ∧ l[i.toNat]? = some b

theorem Agrees.lt {m : Memory α} {l : List α} (h : Agrees m l) {i : ℤ} {b : α}
    (hi : m i = some b) : i < l.length := by
  obtain ⟨h0, hl⟩ := h i b hi
  obtain ⟨hlt, -⟩ := List.getElem?_eq_some_iff.1 hl
  omega

theorem Agrees.append {m : Memory α} {l : List α} (h : Agrees m l) (l' : List α) :
    Agrees m (l ++ l') := by
  intro i b hi
  have hlt := h.lt hi
  obtain ⟨h0, hl⟩ := h i b hi
  exact ⟨h0, by rw [List.getElem?_append_left (by omega), hl]⟩

/-- A store at the end of the list. -/
theorem Agrees.store {m : Memory α} {l : List α} (h : Agrees m l) (src : List α) :
    Agrees (store m l.length src) (l ++ src) := by
  intro i b hi
  by_cases hmem : (l.length : ℤ) ≤ i ∧ i < l.length + src.length
  · rw [store_of_mem hmem] at hi
    have hplace : (i - l.length).toNat = i.toNat - l.length := by omega
    exact ⟨by omega, by rw [List.getElem?_append_right (by omega), ← hplace, hi]⟩
  · rw [store_of_notMem hmem] at hi
    exact h.append src i b hi

/-- The same store on both sides. -/
theorem Agrees.overwrite {m : Memory α} {l : List α} (h : Agrees m l) {k : ℕ} {src : List α}
    (hk : k + src.length ≤ l.length) : Agrees (Stores.store m k src) (overwrite l k src) := by
  have htake : (l.take k).length = k := List.length_take_of_le (by omega)
  intro i b hi
  unfold Stores.overwrite
  by_cases hmem : (k : ℤ) ≤ i ∧ i < k + src.length
  · rw [store_of_mem hmem] at hi
    have hplace : (i - k).toNat = i.toNat - k := by omega
    exact ⟨by omega, by rw [List.getElem?_append_right (by omega), htake,
      List.getElem?_append_left (by omega), ← hplace, hi]⟩
  · rw [store_of_notMem hmem] at hi
    obtain ⟨h0, hl⟩ := h i b hi
    refine ⟨h0, ?_⟩
    by_cases hlow : i < k
    · rw [List.getElem?_append_left (by omega), List.getElem?_take_of_lt (by omega), hl]
    · rw [List.getElem?_append_right (by omega), htake, List.getElem?_append_right (by omega),
        List.getElem?_drop, ← hl]
      congr 1
      omega

end Stores
