import Mathlib.Data.List.Sort

/-!
# Keys with deadlines

A table of keys with a deadline each, in the order in which the keys were added.  A key is added
unless it is there, removed, or popped when its deadline has come; the keys popped together come in
order of their deadlines, and keys with the same deadline in the order of the table.

Insertion sort is stable: it sorts by the deadline and, among equal deadlines, by any rank that
increases along the table (`pairwise_insertionSort_of_rank`).
-/

namespace DeadlineTable

/-! ## Stability -/

section Stable

variable {α τ ι : Type*} [LinearOrder τ] [Preorder ι] (time : α → τ) (rank : α → ι)

/-- `a` comes before `b`: by its time or, at the same time, by its rank. -/
def Before (a b : α) : Prop := time a < time b ∨ (time a = time b ∧ rank a < rank b)

variable {time rank}

theorem Before.time_le {a b : α} (h : Before time rank a b) : time a ≤ time b :=
  h.elim le_of_lt fun h => h.1.le

/-- Inserting an element of a rank below all others. -/
theorem pairwise_orderedInsert_of_rank {a : α} {l : List α} (hl : l.Pairwise (Before time rank))
    (ha : ∀ b ∈ l, rank a < rank b) :
    (l.orderedInsert (fun a b => time a ≤ time b) a).Pairwise (Before time rank) := by
  induction l with
  | nil => simp
  | cons b l ih =>
    obtain ⟨hb, hl'⟩ := List.pairwise_cons.1 hl
    rw [List.forall_mem_cons] at ha
    rw [List.orderedInsert_cons]
    split
    · rename_i hle
      refine List.pairwise_cons.2 ⟨?_, hl⟩
      intro c hc
      have hrank : rank a < rank c := by
        rcases List.mem_cons.1 hc with rfl | hc
        · exact ha.1
        · exact ha.2 c hc
      have htime : time a ≤ time c := by
        rcases List.mem_cons.1 hc with rfl | hc
        · exact hle
        · exact hle.trans (hb c hc).time_le
      exact htime.lt_or_eq.imp_right fun heq => ⟨heq, hrank⟩
    · rename_i hnle
      refine List.pairwise_cons.2 ⟨?_, ih hl' ha.2⟩
      intro c hc
      rcases (List.mem_orderedInsert _).1 hc with rfl | hc
      · exact Or.inl (not_le.1 hnle)
      · exact hb c hc

/-- Insertion sort is stable. -/
theorem pairwise_insertionSort_of_rank {l : List α} (hl : l.Pairwise fun a b => rank a < rank b) :
    (l.insertionSort fun a b => time a ≤ time b).Pairwise (Before time rank) := by
  induction l with
  | nil => simp
  | cons a l ih =>
    obtain ⟨ha, hl'⟩ := List.pairwise_cons.1 hl
    rw [List.insertionSort_cons]
    apply pairwise_orderedInsert_of_rank (ih hl')
    intro b hb
    exact ha b ((List.mem_insertionSort _).1 hb)

end Stable

/-! ## The table -/

variable {κ τ : Type*} [DecidableEq κ] [LinearOrder τ]

inductive Call (κ τ : Type*) where
  | add (key : κ) (deadline : τ)
  | remove (key : κ)
  | popExpired (now : τ)
  deriving DecidableEq, Repr

/-- What a call answers. -/
inductive Answer (κ : Type*) where
  | added (accepted : Bool)
  | removed (found : Bool)
  | popped (keys : List κ)
  deriving DecidableEq, Repr

/-- The deadline or the clock reading of a call. -/
def Call.time : Call κ τ → Option τ
  | .add _ deadline => some deadline
  | .remove _ => none
  | .popExpired now => some now

/-- The key is in the table. -/
def Live (t : List (κ × τ)) (key : κ) : Prop := key ∈ t.map Prod.fst

instance (t : List (κ × τ)) (key : κ) : Decidable (Live t key) := by
  unfold Live; infer_instance

/-- The keys whose deadline has come, by deadline and then in the order of the table. -/
def due (t : List (κ × τ)) (now : τ) : List κ :=
  ((t.filter fun e => e.2 ≤ now).insertionSort fun a b => a.2 ≤ b.2).map Prod.fst

/-- One call on the table. -/
def call (t : List (κ × τ)) : Call κ τ → List (κ × τ) × Answer κ
  | .add key deadline =>
    if Live t key then (t, .added false) else (t ++ [(key, deadline)], .added true)
  | .remove key =>
    if Live t key then (t.filter fun e => e.1 ≠ key, .removed true) else (t, .removed false)
  | .popExpired now => (t.filter fun e => now < e.2, .popped (due t now))

end DeadlineTable
