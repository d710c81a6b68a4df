import CoUringWeb.Framework.Machine
import CoUringWeb.Framework.SortedMap
import Mathlib.Data.List.Nodup

/-!
# `TimerQueue`

The timer queue of `include/timer.h` and `src/timer.cpp`.  A key with a deadline in milliseconds is
kept in two maps: `key2timeid_` sends it to the low 32 bits of the deadline and a running index,
and `timeid2key_` sends the 64-bit word packed from these two back to the key.  `popExpired` takes
every entry whose word is at most the word packed from the clock and `UINT32_MAX`.

`Wf` is the invariant that the schedulers need, for any number of calls: each entry of
`timeid2key_` is the entry of its own key.  A key therefore has at most one entry, `remove` and
`popExpired` leave none behind, and the word of an entry still tells the low bits of the deadline
its key was added with.
-/

namespace CoUringWeb

open Machine

/-- The fields of `TimerQueue`. -/
structure TimerQueue where
  index_ : ℕ
  key2timeid_ : SortedMap ℕ (ℕ × ℕ)
  timeid2key_ : SortedMap ℕ ℕ
  deriving DecidableEq

namespace TimerQueue

def empty : TimerQueue := { index_ := 0, key2timeid_ := ∅, timeid2key_ := ∅ }

/-- `(expiredTimePoint << 32) | id` on 64 bits. -/
def timeid (expiredTimePoint id : ℕ) : ℕ := uint64 (expiredTimePoint <<< 32) ||| id

def add (q : TimerQueue) (key expiredTimePoint : ℕ) : TimerQueue × Bool :=
  if q.key2timeid_.HasKey key then (q, false)
  else
    let id := q.index_
    ({ key2timeid_ := q.key2timeid_.insert key (uint32 expiredTimePoint, id)
       timeid2key_ := q.timeid2key_.insert (timeid expiredTimePoint id) key
       index_ := uint32 (q.index_ + 1) }, true)

def remove (q : TimerQueue) (key : ℕ) : TimerQueue × Bool :=
  match q.key2timeid_.find key with
  | none => (q, false)
  | some (expiredTimePoint, id) =>
    if q.timeid2key_.HasKey (timeid expiredTimePoint id) then
      ({ q with
          key2timeid_ := q.key2timeid_.erase key
          timeid2key_ := q.timeid2key_.erase (timeid expiredTimePoint id) }, true)
    else (q, false)

/-- The word `popExpired` compares with, at the clock reading `now`. -/
def flag (now : ℕ) : ℕ := timeid now (2 ^ 32 - 1)

/-- The entries before `upper_bound(flag)`, in order. -/
def expiredEntries (q : TimerQueue) (now : ℕ) : List (ℕ × ℕ) :=
  (q.timeid2key_.filter fun t => t ≤ flag now).entries

/-- `popExpired` at the clock reading `now`; the second part is what it appends to `keys`. -/
def popExpired (q : TimerQueue) (now : ℕ) : TimerQueue × List ℕ :=
  let expired := q.expiredEntries now
  ({ q with
      key2timeid_ := expired.foldl (fun m e => m.erase e.2) q.key2timeid_
      timeid2key_ := q.timeid2key_.filter fun t => ¬ t ≤ flag now }, expired.map Prod.snd)

/-! ## The packed word -/

theorem timeid_eq {id : ℕ} (hid : id < 2 ^ 32) (d : ℕ) :
    timeid d id = d % 2 ^ 32 * 2 ^ 32 + id := by
  have hshift : uint64 (d <<< 32) = 2 ^ 32 * (d % 2 ^ 32) := by
    rw [uint64, Nat.shiftLeft_eq, show 2 ^ 64 = 2 ^ 32 * 2 ^ 32 by norm_num, Nat.mul_comm d,
      Nat.mul_mod_mul_left]
  rw [timeid, hshift, ← Nat.two_pow_add_eq_or_of_lt hid, Nat.mul_comm]

theorem timeid_uint32 (d id : ℕ) : timeid (uint32 d) id = timeid d id := by
  have hshift : uint64 (uint32 d <<< 32) = uint64 (d <<< 32) := by
    simp only [uint64, uint32, Nat.shiftLeft_eq]
    omega
  rw [timeid, timeid, hshift]

/-- The cut of `popExpired` compares the low 32 bits of deadline and clock. -/
theorem timeid_le_flag_iff {id : ℕ} (hid : id < 2 ^ 32) (d now : ℕ) :
    timeid d id ≤ flag now ↔ d % 2 ^ 32 ≤ now % 2 ^ 32 := by
  rw [flag, timeid_eq hid, timeid_eq (by norm_num)]
  omega

/-! ## The invariant -/

/-- The key has an entry in `timeid2key_`. -/
def Live (q : TimerQueue) (key : ℕ) : Prop := ∃ t, q.timeid2key_.find t = some key

/-- Every entry of `timeid2key_` is the entry of its own key. -/
structure Wf (q : TimerQueue) : Prop where
  index_lt : q.index_ < 2 ^ 32
  own : ∀ t key, q.timeid2key_.find t = some key →
    ∃ d id, q.key2timeid_.find key = some (d, id) ∧ id < 2 ^ 32 ∧ timeid d id = t

theorem wf_empty : empty.Wf where
  index_lt := by norm_num [empty]
  own t key h := by simp [empty] at h

/-- A key has at most one entry. -/
theorem Wf.entry_unique {q : TimerQueue} (h : q.Wf) {t t' key : ℕ}
    (ht : q.timeid2key_.find t = some key) (ht' : q.timeid2key_.find t' = some key) : t = t' := by
  obtain ⟨d, id, hkey, -, rfl⟩ := h.own t key ht
  obtain ⟨d', id', hkey', -, rfl⟩ := h.own t' key ht'
  cases hkey.symm.trans hkey'
  rfl

/-! ### `add` -/

/-- The entries after `add` are the old ones and possibly one for the new key, packed from its
deadline. -/
theorem find_add {q : TimerQueue} {key d t key' : ℕ}
    (h : (q.add key d).1.timeid2key_.find t = some key') :
    q.timeid2key_.find t = some key' ∨ (key' = key ∧ t = timeid d q.index_) := by
  unfold add at h
  split at h
  · exact Or.inl h
  · rw [SortedMap.find_insert] at h
    split at h
    · rename_i ht
      exact Or.inr ⟨(Option.some_inj.1 h).symm, ht.1⟩
    · exact Or.inl h

theorem add_wf {q : TimerQueue} (h : q.Wf) (key d : ℕ) : (q.add key d).1.Wf := by
  unfold add
  split
  · exact h
  · rename_i hnew
    refine ⟨uint32_lt _, fun t key' ht => ?_⟩
    simp only [SortedMap.find_insert] at ht ⊢
    split at ht
    · rename_i hkey
      cases ht
      refine ⟨uint32 d, q.index_, by simp [hnew], h.index_lt, ?_⟩
      rw [timeid_uint32, hkey.1]
    · obtain ⟨d', id', hkey', hid', htimeid⟩ := h.own t key' ht
      have hne : key' ≠ key := fun e => hnew (SortedMap.hasKey_iff.2 ⟨_, e ▸ hkey'⟩)
      exact ⟨d', id', by simp [hne, hkey'], hid', htimeid⟩

/-- The word of the next index is free as long as no word was made from that index. -/
theorem not_hasKey_timeid {q : TimerQueue} (hindex : q.index_ < 2 ^ 32)
    (h : ∀ t key, q.timeid2key_.find t = some key → t % 2 ^ 32 ≠ q.index_) (d : ℕ) :
    ¬ q.timeid2key_.HasKey (timeid d q.index_) := by
  intro hkey
  obtain ⟨key, hfind⟩ := SortedMap.hasKey_iff.1 hkey
  refine h _ key hfind ?_
  rw [timeid_eq hindex]
  omega

theorem index_add_le (q : TimerQueue) (key d : ℕ) : (q.add key d).1.index_ ≤ q.index_ + 1 := by
  unfold add
  split
  · exact Nat.le_succ _
  · exact Nat.mod_le _ _

/-- While the index does not wrap, the low half of every word is below it. -/
theorem word_lt_add {q : TimerQueue} (hlt : q.index_ + 1 < 2 ^ 32)
    (h : ∀ t key, q.timeid2key_.find t = some key → t % 2 ^ 32 < q.index_) (key d : ℕ)
    {t key' : ℕ} (ht : (q.add key d).1.timeid2key_.find t = some key') :
    t % 2 ^ 32 < (q.add key d).1.index_ := by
  unfold add at ht ⊢
  split at ht <;> rename_i hhas
  · rw [if_pos hhas]
    exact h t key' ht
  · rw [if_neg hhas]
    simp only [uint32_of_lt hlt]
    rw [SortedMap.find_insert] at ht
    split at ht
    · rename_i heq
      rw [heq.1, timeid_eq (by omega)]
      omega
    · exact Nat.lt_succ_of_lt (h t key' ht)

theorem live_add {q : TimerQueue} {key d key' : ℕ} (h : (q.add key d).1.Live key') :
    q.Live key' ∨ key' = key := by
  obtain ⟨t, ht⟩ := h
  exact (find_add ht).imp (fun h => ⟨t, h⟩) And.left

/-! ### `remove` -/

theorem find_remove {q : TimerQueue} {key t key' : ℕ}
    (h : (q.remove key).1.timeid2key_.find t = some key') :
    q.timeid2key_.find t = some key' := by
  unfold remove at h
  split at h
  · exact h
  · split at h
    · rw [SortedMap.find_erase] at h
      split at h
      · cases h
      · exact h
    · exact h

theorem remove_wf {q : TimerQueue} (h : q.Wf) (key : ℕ) : (q.remove key).1.Wf := by
  refine ⟨?_, fun t key' ht => ?_⟩
  · unfold remove
    split
    · exact h.index_lt
    · split <;> exact h.index_lt
  · obtain ⟨d', id', hkey', hid', htimeid⟩ := h.own t key' (find_remove ht)
    refine ⟨d', id', ?_, hid', htimeid⟩
    unfold remove at ht ⊢
    split at ht
    · exact hkey'
    · rename_i d id hkey
      split at ht <;> rename_i hhas
      · rw [if_pos hhas]
        rw [SortedMap.find_erase] at ht
        rw [SortedMap.find_erase]
        have hne : key' ≠ key := fun e => by
          subst e
          cases hkey.symm.trans hkey'
          simp [htimeid] at ht
        rw [if_neg hne]
        exact hkey'
      · rw [if_neg hhas]
        exact hkey'

/-- After `remove` the key has no entry, whatever `remove` answers. -/
theorem not_live_remove {q : TimerQueue} (h : q.Wf) (key : ℕ) : ¬ (q.remove key).1.Live key := by
  rintro ⟨t, ht⟩
  obtain ⟨d, id, hkey, -, htimeid⟩ := h.own t key (find_remove ht)
  unfold remove at ht
  rw [hkey] at ht
  simp only [htimeid] at ht
  split at ht <;> rename_i hhas
  · simp [SortedMap.find_erase] at ht
  · exact hhas (SortedMap.hasKey_iff.2 ⟨key, ht⟩)

theorem index_remove (q : TimerQueue) (key : ℕ) : (q.remove key).1.index_ = q.index_ := by
  unfold remove
  split
  · rfl
  · split <;> rfl

theorem live_remove {q : TimerQueue} {key key' : ℕ} (h : (q.remove key).1.Live key') :
    q.Live key' := h.imp fun _ => find_remove

/-! ### `popExpired` -/

theorem mem_popExpired {q : TimerQueue} {now key : ℕ} :
    key ∈ (q.popExpired now).2 ↔ ∃ t, q.timeid2key_.find t = some key ∧ t ≤ flag now := by
  simp only [popExpired, expiredEntries, List.mem_map, Prod.exists, SortedMap.mem_entries,
    SortedMap.find_filter]
  constructor
  · rintro ⟨t, key, h, rfl⟩
    split at h
    · rename_i ht
      exact ⟨t, h, by simpa using ht⟩
    · cases h
  · rintro ⟨t, h, ht⟩
    exact ⟨t, key, by simpa [ht] using h, rfl⟩

theorem find_popExpired {q : TimerQueue} {now t key : ℕ} :
    (q.popExpired now).1.timeid2key_.find t = some key ↔
      q.timeid2key_.find t = some key ∧ ¬ t ≤ flag now := by
  simp only [popExpired, SortedMap.find_filter]
  by_cases ht : t ≤ flag now <;> simp [ht]

/-- Erasing the keys of a list of entries leaves the lookups of all other keys as they were. -/
theorem find_foldl_erase {l : List (ℕ × ℕ)} {m : SortedMap ℕ (ℕ × ℕ)} {key : ℕ}
    (h : key ∉ l.map Prod.snd) :
    (l.foldl (fun m e => m.erase e.2) m).find key = m.find key := by
  induction l generalizing m with
  | nil => rfl
  | cons e l ih =>
    rw [List.map_cons, List.mem_cons, not_or] at h
    rw [List.foldl_cons, ih h.2, SortedMap.find_erase, if_neg h.1]

/-- Erasing the keys of a list of entries leaves none of them. -/
theorem find_foldl_erase_of_mem {l : List (ℕ × ℕ)} {m : SortedMap ℕ (ℕ × ℕ)} {key : ℕ}
    (h : key ∈ l.map Prod.snd ∨ m.find key = none) :
    (l.foldl (fun m e => m.erase e.2) m).find key = none := by
  induction l generalizing m with
  | nil => exact h.resolve_left (by simp)
  | cons e l ih =>
    rw [List.foldl_cons]
    apply ih
    rw [List.map_cons, List.mem_cons] at h
    rw [SortedMap.find_erase]
    rcases h with (rfl | hmem) | hnone
    · exact Or.inr (if_pos rfl)
    · exact Or.inl hmem
    · exact Or.inr (by rw [hnone, ite_self])

theorem popExpired_wf {q : TimerQueue} (h : q.Wf) (now : ℕ) : (q.popExpired now).1.Wf := by
  refine ⟨h.index_lt, fun t key ht => ?_⟩
  rw [find_popExpired] at ht
  obtain ⟨d, id, hkey, hid, htimeid⟩ := h.own t key ht.1
  refine ⟨d, id, ?_, hid, htimeid⟩
  have hkept : key ∉ (q.popExpired now).2 := fun hmem => by
    obtain ⟨t', ht', hle⟩ := mem_popExpired.1 hmem
    exact ht.2 (h.entry_unique ht' ht.1 ▸ hle)
  exact (find_foldl_erase hkept).trans hkey

theorem live_popExpired {q : TimerQueue} {now key : ℕ} (h : (q.popExpired now).1.Live key) :
    q.Live key := h.imp fun _ ht => (find_popExpired.1 ht).1

theorem live_of_mem_popExpired {q : TimerQueue} {now key : ℕ} (h : key ∈ (q.popExpired now).2) :
    q.Live key := (mem_popExpired.1 h).imp fun _ => And.left

/-- A popped key has no entry left. -/
theorem not_live_of_mem_popExpired {q : TimerQueue} (h : q.Wf) {now key : ℕ}
    (hmem : key ∈ (q.popExpired now).2) : ¬ (q.popExpired now).1.Live key := by
  rintro ⟨t, ht⟩
  rw [find_popExpired] at ht
  obtain ⟨t', ht', hle⟩ := mem_popExpired.1 hmem
  exact ht.2 (h.entry_unique ht' ht.1 ▸ hle)

/-- No key is popped twice. -/
theorem nodup_popExpired {q : TimerQueue} (h : q.Wf) (now : ℕ) : (q.popExpired now).2.Nodup := by
  have hnodup : (q.expiredEntries now).Nodup := SortedMap.nodup_entries _
  refine List.Nodup.map_on (fun e he e' he' heq => ?_) hnodup
  obtain ⟨t, key⟩ := e
  obtain ⟨t', key'⟩ := e'
  simp only at heq
  subst heq
  have hfind : ∀ u, (u, key) ∈ q.expiredEntries now → q.timeid2key_.find u = some key :=
    fun u hu => by
      have := SortedMap.mem_entries.1 hu
      rw [SortedMap.find_filter] at this
      split at this
      · exact this
      · cases this
  rw [h.entry_unique (hfind t he) (hfind t' he')]

/-! ### Both maps -/

/-- Every key of `key2timeid_` has its entry in `timeid2key_`. -/
def Paired (q : TimerQueue) : Prop :=
  ∀ key d id, q.key2timeid_.find key = some (d, id) →
    q.timeid2key_.find (timeid d id) = some key

theorem paired_empty : empty.Paired := fun key d id h => by simp [empty] at h

/-- The entry of a new key is there when its word was free. -/
theorem Paired.add {q : TimerQueue} (h : q.Paired) {key d : ℕ}
    (hword : ¬ q.timeid2key_.HasKey (timeid d q.index_)) : (q.add key d).1.Paired := by
  unfold TimerQueue.add
  split
  · exact h
  · rename_i hnew
    intro key' d' id' hkey
    rcases (SortedMap.find_insert_eq_some hnew).1 hkey with ⟨rfl, heq⟩ | ⟨-, hold⟩
    · cases heq
      rw [timeid_uint32]
      exact (SortedMap.find_insert_eq_some hword).2 (Or.inl ⟨rfl, rfl⟩)
    · have hfind := h key' d' id' hold
      refine (SortedMap.find_insert_eq_some hword).2 (Or.inr ⟨fun heq => ?_, hfind⟩)
      exact hword (heq ▸ SortedMap.hasKey_iff.2 ⟨_, hfind⟩)

theorem Paired.remove {q : TimerQueue} (h : q.Paired) (key : ℕ) : (q.remove key).1.Paired := by
  unfold TimerQueue.remove
  split
  · exact h
  · rename_i d id hkey
    split
    · intro key' d' id' hkey'
      obtain ⟨hne, hold⟩ := SortedMap.find_erase_eq_some.1 hkey'
      refine SortedMap.find_erase_eq_some.2 ⟨fun heq => hne ?_, h key' d' id' hold⟩
      exact Option.some_inj.1 ((heq ▸ h key' d' id' hold).symm.trans (h key d id hkey))
    · exact h

/-- After `remove` neither map has the key. -/
theorem Paired.not_hasKey_remove {q : TimerQueue} (h : q.Paired) (key : ℕ) :
    ¬ (q.remove key).1.key2timeid_.HasKey key := by
  unfold TimerQueue.remove
  split
  · rename_i hnone
    exact SortedMap.not_hasKey_iff.2 hnone
  · rename_i d id hkey
    rw [if_pos (SortedMap.hasKey_iff.2 ⟨key, h key d id hkey⟩)]
    exact fun hhas => (SortedMap.hasKey_erase.1 hhas).1 rfl

theorem hasKey_remove {q : TimerQueue} {key key' : ℕ}
    (h : (q.remove key).1.key2timeid_.HasKey key') : q.key2timeid_.HasKey key' := by
  unfold TimerQueue.remove at h
  split at h
  · exact h
  · split at h
    · exact (SortedMap.hasKey_erase.1 h).2
    · exact h

theorem hasKey_popExpired {q : TimerQueue} {now key : ℕ}
    (h : (q.popExpired now).1.key2timeid_.HasKey key) :
    q.key2timeid_.HasKey key ∧ key ∉ (q.popExpired now).2 := by
  obtain ⟨v, hv⟩ := SortedMap.hasKey_iff.1 h
  have hkept : key ∉ (q.popExpired now).2 := fun hmem => by
    have hnone : (q.popExpired now).1.key2timeid_.find key = none :=
      find_foldl_erase_of_mem (Or.inl hmem)
    rw [hnone] at hv
    cases hv
  exact ⟨SortedMap.hasKey_iff.2 ⟨v, (find_foldl_erase hkept).symm.trans hv⟩, hkept⟩

theorem Paired.popExpired {q : TimerQueue} (h : q.Paired) (now : ℕ) :
    (q.popExpired now).1.Paired := by
  intro key d id hkey
  have hkept := (hasKey_popExpired (SortedMap.hasKey_iff.2 ⟨_, hkey⟩)).2
  have hfind := h key d id ((find_foldl_erase hkept).symm.trans hkey)
  exact find_popExpired.2 ⟨hfind, fun hle => hkept (mem_popExpired.2 ⟨_, hfind, hle⟩)⟩

theorem hasKey_add {q : TimerQueue} {key d key' : ℕ}
    (h : (q.add key d).1.key2timeid_.HasKey key') : key' = key ∨ q.key2timeid_.HasKey key' := by
  unfold TimerQueue.add at h
  split at h
  · exact Or.inr h
  · exact SortedMap.hasKey_insert.1 h

/-- A key with a timer keeps it. -/
theorem hasKey_add_iff {q : TimerQueue} {key d key' : ℕ} :
    (q.add key d).1.key2timeid_.HasKey key' ↔ key' = key ∨ q.key2timeid_.HasKey key' := by
  refine ⟨hasKey_add, fun h => ?_⟩
  unfold TimerQueue.add
  split
  · rename_i hhas
    exact h.elim (fun heq => heq ▸ hhas) id
  · exact SortedMap.hasKey_insert.2 h

theorem Paired.hasKey_remove_iff {q : TimerQueue} (h : q.Paired) {key key' : ℕ} :
    (q.remove key).1.key2timeid_.HasKey key' ↔ key' ≠ key ∧ q.key2timeid_.HasKey key' := by
  constructor
  · exact fun hkey => ⟨fun heq => h.not_hasKey_remove key (heq ▸ hkey), hasKey_remove hkey⟩
  · rintro ⟨hne, hkey⟩
    unfold TimerQueue.remove
    split
    · exact hkey
    · split
      · exact SortedMap.hasKey_erase.2 ⟨hne, hkey⟩
      · exact hkey

theorem hasKey_popExpired_iff {q : TimerQueue} {now key : ℕ} :
    (q.popExpired now).1.key2timeid_.HasKey key ↔
      q.key2timeid_.HasKey key ∧ key ∉ (q.popExpired now).2 := by
  refine ⟨hasKey_popExpired, fun ⟨hkey, hkept⟩ => ?_⟩
  obtain ⟨v, hv⟩ := SortedMap.hasKey_iff.1 hkey
  exact SortedMap.hasKey_iff.2 ⟨v, (find_foldl_erase hkept).trans hv⟩

/-- The timers of the other keys run out as before. -/
theorem Paired.mem_popExpired_remove {q : TimerQueue} (h : q.Paired) {now key key' : ℕ}
    (hne : key' ≠ key) :
    key' ∈ ((q.remove key).1.popExpired now).2 ↔ key' ∈ (q.popExpired now).2 := by
  rw [mem_popExpired, mem_popExpired]
  refine exists_congr fun t => and_congr_left fun _ => ⟨find_remove, fun ht => ?_⟩
  unfold TimerQueue.remove
  split
  · exact ht
  · rename_i d id hkey
    split
    · -- the word that goes belongs to `key`
      refine SortedMap.find_erase_eq_some.2 ⟨fun heq => hne ?_, ht⟩
      rw [heq, h key d id hkey] at ht
      exact (Option.some_inj.1 ht).symm
    · exact ht

/-- The two maps know the same keys. -/
theorem Wf.live_iff {q : TimerQueue} (h : q.Wf) (hpaired : q.Paired) {key : ℕ} :
    q.Live key ↔ q.key2timeid_.HasKey key := by
  constructor
  · rintro ⟨t, ht⟩
    obtain ⟨d, id, hkey, -, -⟩ := h.own t key ht
    exact SortedMap.hasKey_iff.2 ⟨_, hkey⟩
  · intro hkey
    obtain ⟨⟨d, id⟩, hfind⟩ := SortedMap.hasKey_iff.1 hkey
    exact ⟨_, hpaired key d id hfind⟩

end TimerQueue

end CoUringWeb
