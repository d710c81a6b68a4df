import CoUringWeb.Core.TimerRuns

/-!
# The two maps of `TimerQueue`

`add` packs the word of an entry from the deadline it is given, `remove` packs it again from the low
half that `key2timeid_` kept.  `Inverse` says that both mean the same entry: a key has the pair of a
deadline and an index exactly when the word of the pair has the key.  Nothing is assumed about
deadlines and clock readings; the running index must not come around.
-/

namespace CoUringWeb

open Machine Transition DeadlineTable

namespace TimerQueue

/-- The two maps are inverse to each other. -/
structure Inverse (q : TimerQueue) : Prop where
  pair_lt : ∀ key d i, q.key2timeid_.find key = some (d, i) → d < 2 ^ 32 ∧ i < 2 ^ 32
  word_lt : ∀ t key, q.timeid2key_.find t = some key → t < 2 ^ 64
  find_iff : ∀ key d i, d < 2 ^ 32 → i < 2 ^ 32 →
    (q.key2timeid_.find key = some (d, i) ↔ q.timeid2key_.find (d * 2 ^ 32 + i) = some key)

/-- The key is in neither map. -/
def Absent (q : TimerQueue) (key : ℕ) : Prop := ¬ q.key2timeid_.HasKey key ∧ ¬ q.Live key

variable {q : TimerQueue} {T : List Timer} {key : ℕ}

theorem timeid_of_lt {d i : ℕ} (hd : d < 2 ^ 32) (hi : i < 2 ^ 32) :
    timeid d i = d * 2 ^ 32 + i := by
  rw [timeid_eq hi, Nat.mod_eq_of_lt hd]

theorem Timer.word_eq (e : Timer) (hid : e.id < 2 ^ 32) :
    e.word = uint32 e.deadline * 2 ^ 32 + e.id := timeid_eq hid _

/-- Both maps of a queue are determined by the timers it holds. -/
theorem Holds.inverse (h : Holds q T) : q.Inverse := by
  refine ⟨?_, ?_, ?_⟩
  · intro key d i hkey
    obtain ⟨e, he, -, rfl, rfl⟩ := (h.find_key key d i).1 hkey
    exact ⟨uint32_lt _, h.id_lt_two_pow he⟩
  · intro t key hword
    obtain ⟨e, he, rfl, -⟩ := (h.find_word t key).1 hword
    have hid := h.id_lt_two_pow he
    have hdeadline := uint32_lt e.deadline
    rw [e.word_eq hid]
    omega
  · intro key d i hd hi
    rw [h.find_key, h.find_word]
    constructor
    · rintro ⟨e, he, hkey, rfl, rfl⟩
      exact ⟨e, he, e.word_eq hi, hkey⟩
    · rintro ⟨e, he, hword, hkey⟩
      have hid := h.id_lt_two_pow he
      rw [e.word_eq hid] at hword
      exact ⟨e, he, hkey, by omega, by omega⟩

namespace Inverse

/-- The entries of `timeid2key_` are those of `key2timeid_`, packed. -/
theorem find_word_iff (h : q.Inverse) (t key : ℕ) :
    q.timeid2key_.find t = some key ↔
      ∃ p, q.key2timeid_.find key = some p ∧ p.1 * 2 ^ 32 + p.2 = t := by
  constructor
  · intro hword
    have ht := h.word_lt t key hword
    have hsplit : t / 2 ^ 32 * 2 ^ 32 + t % 2 ^ 32 = t := Nat.div_add_mod' t (2 ^ 32)
    refine ⟨(t / 2 ^ 32, t % 2 ^ 32), ?_, hsplit⟩
    rw [h.find_iff key _ _ (by omega) (Nat.mod_lt _ (by norm_num)), hsplit]
    exact hword
  · rintro ⟨⟨d, i⟩, hkey, rfl⟩
    obtain ⟨hd, hi⟩ := h.pair_lt key d i hkey
    exact (h.find_iff key d i hd hi).1 hkey

theorem size_eq (h : q.Inverse) : q.key2timeid_.size = q.timeid2key_.size :=
  SortedMap.size_eq_of_inverse h.find_word_iff

theorem paired (h : q.Inverse) : q.Paired := by
  intro key d i hkey
  obtain ⟨hd, hi⟩ := h.pair_lt key d i hkey
  rw [timeid_of_lt hd hi]
  exact (h.find_iff key d i hd hi).1 hkey

theorem live_iff (h : q.Inverse) : q.Live key ↔ q.key2timeid_.HasKey key := by
  rw [Live, SortedMap.hasKey_iff]
  constructor
  · rintro ⟨t, hword⟩
    obtain ⟨p, hkey, -⟩ := (h.find_word_iff t key).1 hword
    exact ⟨p, hkey⟩
  · rintro ⟨⟨d, i⟩, hkey⟩
    exact ⟨_, h.paired key d i hkey⟩

theorem absent_iff (h : q.Inverse) : q.Absent key ↔ ¬ q.key2timeid_.HasKey key := by
  rw [Absent, h.live_iff, and_self]

/-- `remove` finds the word that `add` stored. -/
theorem remove_iff (h : q.Inverse) : (q.remove key).2 = true ↔ q.key2timeid_.HasKey key := by
  unfold TimerQueue.remove
  split
  · rename_i hnone
    simp [SortedMap.hasKey_iff, hnone]
  · rename_i d i hkey
    rw [if_pos (SortedMap.hasKey_iff.2 ⟨key, h.paired key d i hkey⟩)]
    simp [SortedMap.hasKey_iff, hkey]

end Inverse

/-! ## Runs -/

theorem Holds.exists_remove (h : Holds q T) (key : ℕ) : ∃ T', Holds (q.remove key).1 T' := by
  by_cases hkey : key ∈ T.map Timer.key
  · obtain ⟨e, he, rfl⟩ := List.mem_map.1 hkey
    exact ⟨_, h.remove he⟩
  · rw [h.remove_eq_of_not_mem hkey]
    exact ⟨T, h⟩

/-- One call that does not bring the running index around. -/
theorem Holds.call (h : Holds q T) (c : Call ℕ ℕ)
    (hindex : q.index_ + [(q.call c).2].count (.added true) < 2 ^ 32) :
    (∃ T', Holds (q.call c).1 T') ∧
      (q.call c).1.index_ = q.index_ + [(q.call c).2].count (.added true) := by
  cases c with
  | add key d =>
    by_cases hkey : q.key2timeid_.HasKey key
    · have hadd : q.add key d = (q, false) := if_pos hkey
      simp only [TimerQueue.call, hadd]
      exact ⟨⟨T, h⟩, rfl⟩
    · have hanswer : (q.add key d).2 = true := by rw [TimerQueue.add, if_neg hkey]
      have hnext : (q.add key d).1.index_ = uint32 (q.index_ + 1) := by
        rw [TimerQueue.add, if_neg hkey]
      simp only [TimerQueue.call, hanswer, List.count_singleton_self] at hindex ⊢
      exact ⟨⟨_, h.add hkey hindex d⟩, hnext.trans (uint32_of_lt hindex)⟩
  | remove key => exact ⟨h.exists_remove key, index_remove q key⟩
  | popExpired now => exact ⟨⟨_, h.popExpired now⟩, rfl⟩

theorem Holds.final (h : Holds q T) (cs : List (Call ℕ ℕ))
    (hadds : q.index_ + (outputs TimerQueue.call q cs).count (.added true) < 2 ^ 32) :
    ∃ T', Holds (final TimerQueue.call q cs) T' := by
  induction cs generalizing q T with
  | nil => exact ⟨T, h⟩
  | cons c cs ih =>
    have hcount : (outputs TimerQueue.call q (c :: cs)).count (.added true) =
        [(q.call c).2].count (.added true) +
          (outputs TimerQueue.call (q.call c).1 cs).count (.added true) := by
      rw [outputs, ← List.count_append, List.singleton_append]
    rw [hcount] at hadds
    obtain ⟨⟨T', hT'⟩, hindex⟩ := h.call c (by omega)
    exact ih hT' (by omega)

/-- With fewer than `2 ^ 32` successful calls of `add` the maps are inverse to each other, `remove`
succeeds exactly on the keys that are there, and a key that was removed or popped is in neither. -/
theorem maps_inverse (cs : List (Call ℕ ℕ))
    (hadds : (outputs call empty cs).count (.added true) < 2 ^ 32) :
    (final call empty cs).Inverse ∧
      (final call empty cs).key2timeid_.size = (final call empty cs).timeid2key_.size ∧
      (∀ key, ((final call empty cs).remove key).2 = true ↔
        (final call empty cs).key2timeid_.HasKey key) ∧
      (∀ key, ((final call empty cs).remove key).1.Absent key) ∧
      ∀ now, ∀ key ∈ ((final call empty cs).popExpired now).2,
        ((final call empty cs).popExpired now).1.Absent key := by
  obtain ⟨T, hT⟩ := holds_empty.final cs (by simpa [empty] using hadds)
  have hinverse := hT.inverse
  refine ⟨hinverse, hinverse.size_eq, fun key => hinverse.remove_iff, fun key => ?_,
    fun now key hmem => ?_⟩
  · obtain ⟨T', hT'⟩ := hT.exists_remove key
    exact hT'.inverse.absent_iff.2 (hinverse.paired.not_hasKey_remove key)
  · rw [(hT.popExpired now).inverse.absent_iff]
    exact fun hkey => (hasKey_popExpired hkey).2 hmem

/-- Deadlines and a clock reading on both sides of `2 ^ 32`. -/
theorem maps_inverse_wrap :
    (final call empty [.add 1 (2 ^ 32 - 1), .add 2 (2 ^ 32 + 3), .add 1 7, .add 3 (2 ^ 32 - 1),
        .popExpired (2 ^ 32 + 3), .remove 3]).Inverse ∧
      (final call empty [.add 1 (2 ^ 32 - 1), .add 2 (2 ^ 32 + 3), .add 1 7, .add 3 (2 ^ 32 - 1),
        .popExpired (2 ^ 32 + 3), .remove 3]).key2timeid_.entries = [(1, (2 ^ 32 - 1, 0))] :=
  ⟨(maps_inverse _ (by decide)).1, by decide⟩

end TimerQueue

end CoUringWeb
