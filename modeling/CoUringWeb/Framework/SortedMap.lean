import Mathlib.Data.List.Sort
import Mathlib.Order.Lattice

/-!
# Finite maps as sorted association lists

`SortedMap κ ν` is an association list with strictly increasing keys.  The order of the entries is
the iteration order of an ordered map; a map whose iteration order is never observed may be
represented by it as well.

The operations are defined on plain lists first (`SortedAssoc`), because a recursive data type can
hold a list of entries but not a list together with a proof about it.  `SortedMap` then packs a
list with the proof that it is sorted, and every operation keeps that proof.

An entry is in the list exactly when a lookup returns it (`SortedMap.mem_entries`), and a sorted
list is determined by its entries (`SortedAssoc.eq_of_mem_iff`).
-/

/-! ## Operations on plain lists -/

namespace SortedAssoc

variable {κ ν : Type*} [LinearOrder κ]

/-- The keys of the list increase strictly. -/
def Sorted (m : List (κ × ν)) : Prop := m.Pairwise fun p q => p.1 < q.1

instance (m : List (κ × ν)) : Decidable (Sorted m) := by
  unfold Sorted; infer_instance

/-- The value of the first entry with key `k`. -/
def find (k : κ) : List (κ × ν) → Option ν
  | [] => none
  | (k', v) :: m => if k = k' then some v else find k m

/-- Sets the value of `k`, adding an entry in key order when there is none. -/
def insertOrAssign (k : κ) (v : ν) : List (κ × ν) → List (κ × ν)
  | [] => [(k, v)]
  | (k', v') :: m =>
    if k < k' then (k, v) :: (k', v') :: m
    else if k = k' then (k, v) :: m
    else (k', v') :: insertOrAssign k v m

/-- Adds an entry for `k` unless there is one already. -/
def insert (k : κ) (v : ν) (m : List (κ × ν)) : List (κ × ν) :=
  if (find k m).isSome then m else insertOrAssign k v m

attribute [local simp] find insertOrAssign

@[simp] theorem find_nil (k : κ) : find k ([] : List (κ × ν)) = none := rfl

theorem mem_insertOrAssign {k : κ} {v : ν} {m : List (κ × ν)} {p : κ × ν}
    (h : p ∈ insertOrAssign k v m) : p = (k, v) ∨ p ∈ m := by
  induction m with
  | nil => exact Or.inl (by simpa [insertOrAssign] using h)
  | cons q m ih =>
    obtain ⟨k', v'⟩ := q
    unfold insertOrAssign at h
    split at h
    · exact List.mem_cons.1 h
    · split at h
      · rcases List.mem_cons.1 h with rfl | h
        · exact Or.inl rfl
        · exact Or.inr (List.mem_cons_of_mem _ h)
      · rcases List.mem_cons.1 h with rfl | h
        · exact Or.inr List.mem_cons_self
        · exact (ih h).imp_right (List.mem_cons_of_mem _)

theorem sorted_insertOrAssign {k : κ} {v : ν} {m : List (κ × ν)} (hm : Sorted m) :
    Sorted (insertOrAssign k v m) := by
  induction m with
  | nil => simp [Sorted]
  | cons q m ih =>
    obtain ⟨k', v'⟩ := q
    obtain ⟨hq, hm'⟩ := List.pairwise_cons.1 hm
    unfold insertOrAssign
    split
    · rename_i hlt
      refine List.pairwise_cons.2 ⟨fun p hp => ?_, hm⟩
      rcases List.mem_cons.1 hp with rfl | hp
      · exact hlt
      · exact hlt.trans (hq p hp)
    · rename_i hnlt
      split
      · rename_i heq
        subst heq
        exact List.pairwise_cons.2 ⟨hq, hm'⟩
      · rename_i hne
        refine List.pairwise_cons.2 ⟨fun p hp => ?_, ih hm'⟩
        rcases mem_insertOrAssign hp with rfl | hp
        · exact lt_of_le_of_ne (not_lt.1 hnlt) (Ne.symm hne)
        · exact hq p hp

@[simp] theorem find_insertOrAssign_self (k : κ) (v : ν) (m : List (κ × ν)) :
    find k (insertOrAssign k v m) = some v := by
  induction m with
  | nil => simp
  | cons q m ih =>
    obtain ⟨k', v'⟩ := q
    unfold insertOrAssign
    split
    · simp
    · split
      · simp
      · rename_i hne
        simp [hne, ih]

theorem find_insertOrAssign_of_ne {k k' : κ} (h : k' ≠ k) (v : ν) (m : List (κ × ν)) :
    find k' (insertOrAssign k v m) = find k' m := by
  induction m with
  | nil => simp [h]
  | cons q m ih =>
    obtain ⟨k'', v''⟩ := q
    unfold insertOrAssign
    split
    · simp [h]
    · split
      · rename_i heq
        subst heq
        simp [h]
      · simp [ih]

theorem find_insertOrAssign_eq_or (k k' : κ) (v : ν) (m : List (κ × ν)) :
    find k (insertOrAssign k' v m) = (if k = k' then some v else none).or (find k m) := by
  by_cases hk : k = k'
  · subst hk
    rw [find_insertOrAssign_self, if_pos rfl, Option.some_or]
  · rw [find_insertOrAssign_of_ne hk, if_neg hk, Option.none_or]

theorem find_eq_some_iff_mem {k : κ} {v : ν} {m : List (κ × ν)} (hm : Sorted m) :
    find k m = some v ↔ (k, v) ∈ m := by
  induction m with
  | nil => simp
  | cons q m ih =>
    obtain ⟨k', v'⟩ := q
    obtain ⟨hq, hm'⟩ := List.pairwise_cons.1 hm
    by_cases hk : k = k'
    · subst hk
      have hnot : (k, v) ∉ m := fun hmem => lt_irrefl k (hq (k, v) hmem)
      simp [hnot, eq_comm]
    · simp [hk, ih hm']

/-- The entries after an assignment: the new one, and those of the other keys. -/
theorem mem_insertOrAssign_iff {k : κ} {v : ν} {m : List (κ × ν)} (hm : Sorted m) {p : κ × ν} :
    p ∈ insertOrAssign k v m ↔ p = (k, v) ∨ p.1 ≠ k ∧ p ∈ m := by
  obtain ⟨k', v'⟩ := p
  rw [← find_eq_some_iff_mem (sorted_insertOrAssign hm), ← find_eq_some_iff_mem hm]
  by_cases hk : k' = k
  · subst hk
    rw [find_insertOrAssign_self]
    simp [eq_comm]
  · rw [find_insertOrAssign_of_ne hk]
    simp [hk]

/-- Sorted lists with the same entries are equal. -/
theorem eq_of_mem_iff {l m : List (κ × ν)} (hl : Sorted l) (hm : Sorted m)
    (h : ∀ p, p ∈ l ↔ p ∈ m) : l = m := by
  have hirrefl : Std.Irrefl fun p q : κ × ν => p.1 < q.1 := ⟨fun p => lt_irrefl p.1⟩
  have hantisymm : Std.Antisymm fun p q : κ × ν => p.1 < q.1 :=
    ⟨fun p q hpq hqp => absurd hqp (lt_asymm hpq)⟩
  exact List.Pairwise.eq_of_mem_iff hl hm h

/-- Of two assignments to one key the later one counts. -/
theorem insertOrAssign_insertOrAssign (k : κ) (v w : ν) (m : List (κ × ν)) :
    insertOrAssign k v (insertOrAssign k w m) = insertOrAssign k v m := by
  induction m with
  | nil => simp
  | cons q m ih =>
    obtain ⟨k', v'⟩ := q
    rcases lt_trichotomy k k' with hlt | rfl | hgt
    · simp [hlt]
    · simp
    · simp [hgt.not_gt, hgt.ne', ih]

@[simp] theorem find_append (k : κ) (l m : List (κ × ν)) :
    find k (l ++ m) = (find k l).or (find k m) := by
  induction l with
  | nil => simp
  | cons q l ih =>
    obtain ⟨k', v'⟩ := q
    by_cases hk : k = k'
    · simp [hk]
    · simp [hk, ih]

/-- Assigns entries one after another. -/
def assignAll (m : List (κ × ν)) (entries : List (κ × ν)) : List (κ × ν) :=
  entries.foldl (fun m p => insertOrAssign p.1 p.2 m) m

/-- Each key then has the value of its last entry. -/
theorem find_assignAll (k : κ) (m entries : List (κ × ν)) :
    find k (assignAll m entries) = find k (entries.reverse ++ m) := by
  induction entries generalizing m with
  | nil => rfl
  | cons q entries ih =>
    obtain ⟨k', v'⟩ := q
    have hassign : find k (insertOrAssign k' v' m) = find k ((k', v') :: m) := by
      rw [find_insertOrAssign_eq_or, find]
      split <;> rfl
    rw [assignAll, List.foldl_cons, ← assignAll, ih, List.reverse_cons, List.append_assoc,
      find_append, hassign, ← find_append]
    rfl

/-- A sorted list is rebuilt by inserting its entries from the left. -/
theorem insertOrAssign_of_forall_lt {k : κ} {v : ν} {m : List (κ × ν)}
    (h : ∀ p ∈ m, p.1 < k) : insertOrAssign k v m = m ++ [(k, v)] := by
  induction m with
  | nil => rfl
  | cons q m ih =>
    have hq : q.1 < k := h q List.mem_cons_self
    obtain ⟨k', v'⟩ := q
    unfold insertOrAssign
    rw [if_neg (not_lt.2 hq.le), if_neg (ne_of_gt hq),
      ih fun p hp => h p (List.mem_cons_of_mem _ hp)]
    rfl

/-- Values can be changed before or after an entry is set. -/
theorem insertOrAssign_map {μ : Type*} (f : ν → μ) (k : κ) (v : ν) (m : List (κ × ν)) :
    (insertOrAssign k v m).map (fun p => (p.1, f p.2)) =
      insertOrAssign k (f v) (m.map fun p => (p.1, f p.2)) := by
  induction m with
  | nil => rfl
  | cons q m ih =>
    obtain ⟨k', v'⟩ := q
    simp only [insertOrAssign, List.map_cons]
    split
    · rfl
    · split
      · rfl
      · rw [List.map_cons, ih]

end SortedAssoc

/-! ## Sorted maps -/

/-- A finite map: an association list whose keys increase strictly. -/
structure SortedMap (κ ν : Type*) [LinearOrder κ] where
  entries : List (κ × ν)
  sorted : SortedAssoc.Sorted entries

namespace SortedMap

variable {κ ν : Type*} [LinearOrder κ]

instance [DecidableEq ν] : DecidableEq (SortedMap κ ν) := fun m n =>
  decidable_of_iff (m.entries = n.entries)
    ⟨fun h => by cases m; cases n; cases h; rfl, fun h => by rw [h]⟩

instance : EmptyCollection (SortedMap κ ν) := ⟨⟨[], List.Pairwise.nil⟩⟩

/-- The value of `k`, if it has one. -/
def find (m : SortedMap κ ν) (k : κ) : Option ν := SortedAssoc.find k m.entries

/-- The key has a value. -/
def HasKey (m : SortedMap κ ν) (k : κ) : Prop := (m.find k).isSome

instance (m : SortedMap κ ν) (k : κ) : Decidable (m.HasKey k) := by
  unfold HasKey; infer_instance

/-- Sets the value of `k`. -/
def insertOrAssign (m : SortedMap κ ν) (k : κ) (v : ν) : SortedMap κ ν :=
  ⟨SortedAssoc.insertOrAssign k v m.entries, SortedAssoc.sorted_insertOrAssign m.sorted⟩

/-- Sets the value of `k` unless it has one already. -/
def insert (m : SortedMap κ ν) (k : κ) (v : ν) : SortedMap κ ν :=
  if m.HasKey k then m else m.insertOrAssign k v

/-- The entries whose keys meet `p`. -/
def filter (m : SortedMap κ ν) (p : κ → Bool) : SortedMap κ ν :=
  ⟨m.entries.filter fun e => p e.1, m.sorted.sublist List.filter_sublist⟩

/-- Removes the entry of `k`. -/
def erase (m : SortedMap κ ν) (k : κ) : SortedMap κ ν := m.filter fun k' => decide (k' ≠ k)

theorem mem_entries {m : SortedMap κ ν} {k : κ} {v : ν} :
    (k, v) ∈ m.entries ↔ m.find k = some v :=
  (SortedAssoc.find_eq_some_iff_mem m.sorted).symm

theorem nodup_entries (m : SortedMap κ ν) : m.entries.Nodup :=
  m.sorted.imp fun hlt heq => absurd (congrArg Prod.fst heq) (ne_of_lt hlt)

/-- The number of entries. -/
def size (m : SortedMap κ ν) : ℕ := m.entries.length

/-- A map and one from its values back to its keys have the same size. -/
theorem size_eq_of_inverse {μ : Type*} [LinearOrder μ] {m : SortedMap κ ν} {w : SortedMap μ κ}
    {word : ν → μ} (h : ∀ t k, w.find t = some k ↔ ∃ v, m.find k = some v ∧ word v = t) :
    m.size = w.size := by
  have hnodup : (m.entries.map fun e => (word e.2, e.1)).Nodup := by
    refine m.nodup_entries.map_on ?_
    rintro ⟨k, v⟩ he ⟨k', v'⟩ he' heq
    obtain rfl : k = k' := congrArg Prod.snd heq
    obtain rfl : v = v' := Option.some_inj.1 ((mem_entries.1 he).symm.trans (mem_entries.1 he'))
    rfl
  have hperm : w.entries.Perm (m.entries.map fun e => (word e.2, e.1)) := by
    rw [List.perm_ext_iff_of_nodup w.nodup_entries hnodup]
    rintro ⟨t, k⟩
    rw [mem_entries, h, List.mem_map]
    constructor
    · rintro ⟨v, hv, rfl⟩
      exact ⟨(k, v), mem_entries.2 hv, rfl⟩
    · rintro ⟨⟨k', v⟩, he, heq⟩
      cases heq
      exact ⟨v, mem_entries.1 he, rfl⟩
  rw [size, size, hperm.length_eq, List.length_map]

theorem hasKey_iff {m : SortedMap κ ν} {k : κ} : m.HasKey k ↔ ∃ v, m.find k = some v :=
  Option.isSome_iff_exists

theorem not_hasKey_iff {m : SortedMap κ ν} {k : κ} : ¬ m.HasKey k ↔ m.find k = none := by
  simp [HasKey]

@[simp] theorem entries_empty : (∅ : SortedMap κ ν).entries = [] := rfl

@[simp] theorem find_empty (k : κ) : (∅ : SortedMap κ ν).find k = none := rfl

theorem find_insertOrAssign (m : SortedMap κ ν) (k k' : κ) (v : ν) :
    (m.insertOrAssign k v).find k' = if k' = k then some v else m.find k' := by
  split
  · rename_i h
    subst h
    exact SortedAssoc.find_insertOrAssign_self _ _ _
  · rename_i h
    exact SortedAssoc.find_insertOrAssign_of_ne h _ _

theorem find_insert (m : SortedMap κ ν) (k k' : κ) (v : ν) :
    (m.insert k v).find k' = if k' = k ∧ ¬ m.HasKey k then some v else m.find k' := by
  unfold insert
  by_cases hk : m.HasKey k
  · rw [if_pos hk, if_neg fun h => h.2 hk]
  · rw [if_neg hk, find_insertOrAssign]
    simp [hk]

theorem insert_of_hasKey {m : SortedMap κ ν} {k : κ} (h : m.HasKey k) (v : ν) :
    m.insert k v = m := if_pos h

theorem find_filter (m : SortedMap κ ν) (p : κ → Bool) (k : κ) :
    (m.filter p).find k = if p k then m.find k else none := by
  have key : ∀ v, (m.filter p).find k = some v ↔ p k = true ∧ m.find k = some v := by
    intro v
    rw [← mem_entries, ← mem_entries]
    simp [filter, List.mem_filter, and_comm]
  by_cases hp : p k
  · rw [if_pos hp]
    exact Option.ext fun v => by rw [key]; simp [hp]
  · rw [if_neg hp]
    exact Option.eq_none_iff_forall_ne_some.2 fun v hv => hp ((key v).1 hv).1

theorem find_erase (m : SortedMap κ ν) (k k' : κ) :
    (m.erase k).find k' = if k' = k then none else m.find k' := by
  by_cases h : k' = k <;> simp [erase, find_filter, h]

theorem hasKey_erase {m : SortedMap κ ν} {k k' : κ} :
    (m.erase k).HasKey k' ↔ k' ≠ k ∧ m.HasKey k' := by
  by_cases h : k' = k <;> simp [HasKey, find_erase, h]

theorem hasKey_insert {m : SortedMap κ ν} {k k' : κ} {v : ν} :
    (m.insert k v).HasKey k' ↔ k' = k ∨ m.HasKey k' := by
  by_cases hk : m.HasKey k
  · rw [insert_of_hasKey hk]
    exact ⟨Or.inr, fun h => h.elim (fun e => e ▸ hk) id⟩
  · by_cases h : k' = k
    · simp [HasKey, find_insert, h, not_hasKey_iff.1 hk]
    · simp [HasKey, find_insert, h]

/-! ### Entries after an update -/

theorem find_insertOrAssign_eq_some {m : SortedMap κ ν} {k k' : κ} {v v' : ν} :
    (m.insertOrAssign k v).find k' = some v' ↔
      (k' = k ∧ v' = v) ∨ (k' ≠ k ∧ m.find k' = some v') := by
  rw [find_insertOrAssign]
  by_cases h : k' = k <;> simp [h, eq_comm]

theorem find_insert_eq_some {m : SortedMap κ ν} {k k' : κ} {v v' : ν} (hk : ¬ m.HasKey k) :
    (m.insert k v).find k' = some v' ↔ (k' = k ∧ v' = v) ∨ (k' ≠ k ∧ m.find k' = some v') := by
  rw [insert, if_neg hk, find_insertOrAssign_eq_some]

theorem find_erase_eq_some {m : SortedMap κ ν} {k k' : κ} {v' : ν} :
    (m.erase k).find k' = some v' ↔ k' ≠ k ∧ m.find k' = some v' := by
  rw [find_erase]
  by_cases h : k' = k <;> simp [h]

/-! ### Entries after a run of insertions -/

/-- Of the values inserted for a key, the first one stays. -/
theorem find_foldl_insert {β : Type*} (key : β → κ) (value : β → ν) (l : List β)
    (m : SortedMap κ ν) (k : κ) :
    (l.foldl (fun m b => m.insert (key b) (value b)) m).find k =
      (m.find k).or ((l.find? fun b => key b = k).map value) := by
  induction l generalizing m with
  | nil => simp
  | cons b l ih =>
    rw [List.foldl_cons, ih, find_insert, List.find?_cons]
    by_cases hkey : key b = k
    · cases hfind : m.find k with
      | none => simp [HasKey, hkey, hfind]
      | some v => simp [HasKey, hkey, hfind]
    · simp [hkey, Ne.symm hkey]

end SortedMap
