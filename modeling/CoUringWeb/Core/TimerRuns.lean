import CoUringWeb.Core.Timer
import CoUringWeb.Framework.DeadlineTable
import CoUringWeb.Framework.Transition

/-!
# Runs of `TimerQueue`

`Holds` says that the two maps of a queue hold a list of timers: each has its entry in
`key2timeid_` and its entry in `timeid2key_`, and the running index increases along the list.  It is
kept as long as the running index does not come around, that is by the first `2 ^ 32 - 1` successful
calls of `add`.

When, besides, all deadlines and clock readings agree on their bits above the low 32, the order of
the packed words is the order of the deadlines, and the queue answers like the table of keys and
deadlines (`outputs_eq_deadlineTable`).

Without that assumption `popExpired` compares the low 32 bits alone.  `fires_on_time_iff` says, for
any run, when no timer is fired before its deadline.
-/

namespace CoUringWeb

open Machine Transition DeadlineTable

namespace TimerQueue

/-! ## The timers in a queue -/

structure Timer where
  key : ℕ
  deadline : ℕ
  id : ℕ
  deriving DecidableEq, Repr

/-- The entry of `timeid2key_`. -/
def Timer.word (e : Timer) : ℕ := timeid e.deadline e.id

/-- The queue holds the timers `T`, in the order in which they were added. -/
structure Holds (q : TimerQueue) (T : List Timer) : Prop where
  index_lt : q.index_ < 2 ^ 32
  rank : T.Pairwise fun e e' => e.id < e'.id
  id_lt : ∀ e ∈ T, e.id < q.index_
  keys : (T.map Timer.key).Nodup
  find_key : ∀ key d id, q.key2timeid_.find key = some (d, id) ↔
    ∃ e ∈ T, e.key = key ∧ uint32 e.deadline = d ∧ e.id = id
  find_word : ∀ t key, q.timeid2key_.find t = some key ↔ ∃ e ∈ T, e.word = t ∧ e.key = key

theorem holds_empty : Holds empty [] where
  index_lt := by norm_num [empty]
  rank := List.Pairwise.nil
  id_lt e he := by simp at he
  keys := List.nodup_nil
  find_key key d id := by simp [empty]
  find_word t key := by simp [empty]

section Holds

variable {q : TimerQueue} {T : List Timer}

theorem Holds.id_lt_two_pow (h : Holds q T) {e : Timer} (he : e ∈ T) : e.id < 2 ^ 32 :=
  (h.id_lt e he).trans h.index_lt

/-- A timer is determined by its index. -/
theorem Holds.eq_of_id (h : Holds q T) {e e' : Timer} (he : e ∈ T) (he' : e' ∈ T)
    (hid : e.id = e'.id) : e = e' := by
  have hids : (T.map Timer.id).Nodup := List.pairwise_map.2 (h.rank.imp Nat.ne_of_lt)
  exact List.inj_on_of_nodup_map hids he he' hid

/-- A timer is determined by its packed word. -/
theorem Holds.eq_of_word (h : Holds q T) {e e' : Timer} (he : e ∈ T) (he' : e' ∈ T)
    (hword : e.word = e'.word) : e = e' := by
  have hlt := h.id_lt_two_pow he
  have hlt' := h.id_lt_two_pow he'
  rw [Timer.word, Timer.word, timeid_eq hlt, timeid_eq hlt'] at hword
  exact h.eq_of_id he he' (by omega)

/-- A timer is determined by its key. -/
theorem Holds.eq_of_key (h : Holds q T) {e e' : Timer} (he : e ∈ T) (he' : e' ∈ T)
    (hkey : e.key = e'.key) : e = e' :=
  List.inj_on_of_nodup_map h.keys he he' hkey

theorem Holds.hasKey_iff (h : Holds q T) {key : ℕ} :
    q.key2timeid_.HasKey key ↔ key ∈ T.map Timer.key := by
  rw [SortedMap.hasKey_iff, List.mem_map]
  constructor
  · rintro ⟨⟨d, id⟩, hfind⟩
    obtain ⟨e, he, hkey, -⟩ := (h.find_key key d id).1 hfind
    exact ⟨e, he, hkey⟩
  · rintro ⟨e, he, hkey⟩
    exact ⟨_, (h.find_key key _ _).2 ⟨e, he, hkey, rfl, rfl⟩⟩

/-! ### `add` -/

/-- The packed word of the next timer is new. -/
theorem Holds.word_unused (h : Holds q T) (d : ℕ) :
    ¬ q.timeid2key_.HasKey (timeid d q.index_) := by
  rw [SortedMap.hasKey_iff]
  rintro ⟨key, hfind⟩
  obtain ⟨e, he, hword, -⟩ := (h.find_word _ _).1 hfind
  have hid := h.id_lt e he
  have hindex := h.index_lt
  rw [Timer.word, timeid_eq (h.id_lt_two_pow he), timeid_eq hindex] at hword
  omega

theorem Holds.add (h : Holds q T) {key : ℕ} (hkey : ¬ q.key2timeid_.HasKey key)
    (hindex : q.index_ + 1 < 2 ^ 32) (d : ℕ) :
    Holds (q.add key d).1 (T ++ [{ key := key, deadline := d, id := q.index_ }]) := by
  have hnext : uint32 (q.index_ + 1) = q.index_ + 1 := uint32_of_lt hindex
  rw [TimerQueue.add, if_neg hkey]
  refine ⟨uint32_lt _, ?_, ?_, ?_, ?_, ?_⟩
  · rw [List.pairwise_append]
    refine ⟨h.rank, List.pairwise_singleton _ _, ?_⟩
    intro e he e' he'
    rw [List.mem_singleton.1 he']
    exact h.id_lt e he
  · simp only [hnext, List.mem_append, List.mem_singleton]
    rintro e (he | rfl)
    · exact Nat.lt_succ_of_lt (h.id_lt e he)
    · exact Nat.lt_succ_self _
  · rw [List.map_append, List.nodup_append]
    refine ⟨h.keys, List.nodup_singleton _, ?_⟩
    rintro k hk k' hk' rfl
    obtain rfl : k = key := by simpa using hk'
    exact hkey (h.hasKey_iff.2 hk)
  · intro key' d' id'
    rw [SortedMap.find_insert_eq_some hkey, h.find_key]
    simp only [List.mem_append, List.mem_singleton, or_and_right, exists_or, exists_eq_left,
      Prod.mk.injEq]
    constructor
    · rintro (⟨rfl, rfl, rfl⟩ | ⟨-, e, he⟩)
      · exact Or.inr ⟨rfl, rfl, rfl⟩
      · exact Or.inl ⟨e, he⟩
    · rintro (⟨e, he, rfl, hd⟩ | ⟨rfl, rfl, rfl⟩)
      · refine Or.inr ⟨?_, e, he, rfl, hd⟩
        rintro rfl
        exact hkey (h.hasKey_iff.2 (List.mem_map_of_mem he))
      · exact Or.inl ⟨rfl, rfl, rfl⟩
  · intro t key'
    rw [SortedMap.find_insert_eq_some (h.word_unused d), h.find_word]
    simp only [List.mem_append, List.mem_singleton, or_and_right, exists_or, exists_eq_left]
    constructor
    · rintro (⟨rfl, rfl⟩ | ⟨-, e, he⟩)
      · exact Or.inr ⟨rfl, rfl⟩
      · exact Or.inl ⟨e, he⟩
    · rintro (⟨e, he, rfl, rfl⟩ | ⟨rfl, rfl⟩)
      · refine Or.inr ⟨?_, e, he, rfl, rfl⟩
        intro hword
        exact h.word_unused d (SortedMap.hasKey_iff.2 ⟨_, (h.find_word _ _).2 ⟨e, he, hword, rfl⟩⟩)
      · exact Or.inl ⟨rfl, rfl⟩

/-! ### `remove` -/

theorem Holds.remove_eq (h : Holds q T) {e : Timer} (he : e ∈ T) :
    q.remove e.key =
      ({ q with
          key2timeid_ := q.key2timeid_.erase e.key
          timeid2key_ := q.timeid2key_.erase e.word }, true) := by
  have hkey : q.key2timeid_.find e.key = some (uint32 e.deadline, e.id) :=
    (h.find_key _ _ _).2 ⟨e, he, rfl, rfl, rfl⟩
  have hword : q.timeid2key_.HasKey (timeid (uint32 e.deadline) e.id) := by
    rw [timeid_uint32]
    exact SortedMap.hasKey_iff.2 ⟨e.key, (h.find_word _ _).2 ⟨e, he, rfl, rfl⟩⟩
  simp only [TimerQueue.remove, hkey, if_pos hword]
  rw [timeid_uint32]
  rfl

theorem Holds.remove_eq_of_not_mem (h : Holds q T) {key : ℕ} (hkey : key ∉ T.map Timer.key) :
    q.remove key = (q, false) := by
  have hfind : q.key2timeid_.find key = none :=
    SortedMap.not_hasKey_iff.1 fun hhas => hkey (h.hasKey_iff.1 hhas)
  simp only [TimerQueue.remove, hfind]

/-- Taking out timers whose entries are no longer found. -/
theorem Holds.filter (h : Holds q T) {q' : TimerQueue} (p : Timer → Prop) [DecidablePred p]
    (hindex : q'.index_ = q.index_)
    (hkey : ∀ e ∈ T, q'.key2timeid_.find e.key =
      if p e then q.key2timeid_.find e.key else none)
    (hword : ∀ e ∈ T, q'.timeid2key_.find e.word =
      if p e then q.timeid2key_.find e.word else none)
    (hkeys : ∀ key d id, q'.key2timeid_.find key = some (d, id) →
      q.key2timeid_.find key = some (d, id))
    (hwords : ∀ t key, q'.timeid2key_.find t = some key → q.timeid2key_.find t = some key) :
    Holds q' (T.filter fun e => p e) := by
  refine ⟨hindex ▸ h.index_lt, h.rank.sublist List.filter_sublist, ?_, ?_, ?_, ?_⟩
  · intro e he
    rw [hindex]
    exact h.id_lt e (List.mem_filter.1 he).1
  · exact h.keys.sublist (List.filter_sublist.map Timer.key)
  · intro key d id
    simp only [List.mem_filter, decide_eq_true_eq]
    constructor
    · intro hfind
      obtain ⟨e, he, rfl, hd, hid⟩ := (h.find_key key d id).1 (hkeys key d id hfind)
      rw [hkey e he] at hfind
      split at hfind
      · rename_i hp
        exact ⟨e, ⟨he, hp⟩, rfl, hd, hid⟩
      · cases hfind
    · rintro ⟨e, ⟨he, hp⟩, rfl, hd, hid⟩
      rw [hkey e he, if_pos hp]
      exact (h.find_key _ _ _).2 ⟨e, he, rfl, hd, hid⟩
  · intro t key
    simp only [List.mem_filter, decide_eq_true_eq]
    constructor
    · intro hfind
      obtain ⟨e, he, rfl, hk⟩ := (h.find_word t key).1 (hwords t key hfind)
      rw [hword e he] at hfind
      split at hfind
      · rename_i hp
        exact ⟨e, ⟨he, hp⟩, rfl, hk⟩
      · cases hfind
    · rintro ⟨e, ⟨he, hp⟩, rfl, hk⟩
      rw [hword e he, if_pos hp]
      exact (h.find_word _ _).2 ⟨e, he, rfl, hk⟩

theorem Holds.remove (h : Holds q T) {e : Timer} (he : e ∈ T) :
    Holds (q.remove e.key).1 (T.filter fun e' => e'.key ≠ e.key) := by
  rw [h.remove_eq he]
  refine h.filter (fun e' => e'.key ≠ e.key) rfl ?_ ?_ ?_ ?_
  · intro e' he'
    by_cases hkey : e'.key = e.key <;> simp [SortedMap.find_erase, hkey]
  · intro e' he'
    by_cases hkey : e'.key = e.key
    · obtain rfl := h.eq_of_key he' he hkey
      simp [SortedMap.find_erase]
    · have hword : e'.word ≠ e.word := by
        intro hword
        exact hkey (congrArg Timer.key (h.eq_of_word he' he hword))
      simp [SortedMap.find_erase, hword, hkey]
  · intro key d id hfind
    exact (SortedMap.find_erase_eq_some.1 hfind).2
  · intro t key hfind
    exact (SortedMap.find_erase_eq_some.1 hfind).2

/-! ### `popExpired` -/

theorem Holds.mem_popExpired (h : Holds q T) {now key : ℕ} :
    key ∈ (q.popExpired now).2 ↔ ∃ e ∈ T, e.word ≤ flag now ∧ e.key = key := by
  rw [TimerQueue.mem_popExpired]
  constructor
  · rintro ⟨t, hfind, hle⟩
    obtain ⟨e, he, rfl, hkey⟩ := (h.find_word t key).1 hfind
    exact ⟨e, he, hle, hkey⟩
  · rintro ⟨e, he, hle, hkey⟩
    exact ⟨e.word, (h.find_word _ _).2 ⟨e, he, rfl, hkey⟩, hle⟩

theorem Holds.popExpired (h : Holds q T) (now : ℕ) :
    Holds (q.popExpired now).1 (T.filter fun e => ¬ e.word ≤ flag now) := by
  have hkept : ∀ key, key ∉ (q.popExpired now).2 →
      (q.popExpired now).1.key2timeid_.find key = q.key2timeid_.find key := fun key hmem =>
    find_foldl_erase hmem
  have hgone : ∀ key, key ∈ (q.popExpired now).2 →
      (q.popExpired now).1.key2timeid_.find key = none := fun key hmem =>
    find_foldl_erase_of_mem (Or.inl hmem)
  refine h.filter (fun e => ¬ e.word ≤ flag now) rfl ?_ ?_ ?_ ?_
  · intro e he
    by_cases hle : e.word ≤ flag now
    · rw [hgone _ (h.mem_popExpired.2 ⟨e, he, hle, rfl⟩), if_neg (not_not.2 hle)]
    · rw [if_pos hle]
      apply hkept
      rw [h.mem_popExpired]
      rintro ⟨e', he', hle', hkey⟩
      rw [h.eq_of_key he' he hkey] at hle'
      exact hle hle'
  · intro e he
    simp only [TimerQueue.popExpired, SortedMap.find_filter]
    by_cases hle : e.word ≤ flag now <;> simp [hle]
  · intro key d id hfind
    by_cases hmem : key ∈ (q.popExpired now).2
    · rw [hgone key hmem] at hfind
      cases hfind
    · rwa [hkept key hmem] at hfind
  · intro t key hfind
    exact (find_popExpired.1 hfind).1

end Holds

/-! ## The queue as a table of deadlines -/

/-- One call; `popExpired` is given the clock reading. -/
def call (q : TimerQueue) : Call ℕ ℕ → TimerQueue × Answer ℕ
  | .add key d => let r := q.add key d; (r.1, .added r.2)
  | .remove key => let r := q.remove key; (r.1, .removed r.2)
  | .popExpired now => let r := q.popExpired now; (r.1, .popped r.2)

def Timer.entry (e : Timer) : ℕ × ℕ := (e.key, e.deadline)

theorem live_map_entry {T : List Timer} {key : ℕ} :
    DeadlineTable.Live (T.map Timer.entry) key ↔ key ∈ T.map Timer.key := by
  rw [DeadlineTable.Live, List.map_map]
  rfl

section Epoch

variable {q : TimerQueue} {T : List Timer} {now : ℕ}

/-- With equal high bits the packed words are cut at the deadline. -/
theorem Holds.word_le_flag_iff (h : Holds q T) {e : Timer} (he : e ∈ T)
    (hepoch : e.deadline / 2 ^ 32 = now / 2 ^ 32) : e.word ≤ flag now ↔ e.deadline ≤ now := by
  rw [Timer.word, timeid_le_flag_iff (h.id_lt_two_pow he)]
  omega

/-- With equal high bits the packed words are in the order of the deadlines, and timers with one
deadline in the order in which they were added. -/
theorem Holds.word_lt (h : Holds q T) {e e' : Timer} (he : e ∈ T) (he' : e' ∈ T)
    (hepoch : e.deadline / 2 ^ 32 = e'.deadline / 2 ^ 32)
    (hbefore : Before Timer.deadline Timer.id e e') : e.word < e'.word := by
  have hlt := h.id_lt_two_pow he
  have hlt' := h.id_lt_two_pow he'
  rw [Timer.word, Timer.word, timeid_eq hlt, timeid_eq hlt']
  unfold Before at hbefore
  omega

theorem Holds.popExpired_answer (h : Holds q T)
    (hepoch : ∀ e ∈ T, e.deadline / 2 ^ 32 = now / 2 ^ 32) :
    (q.popExpired now).2 = due (T.map Timer.entry) now := by
  let S := (T.filter fun e => e.deadline ≤ now).insertionSort fun e e' => e.deadline ≤ e'.deadline
  have hmem : ∀ e, e ∈ S ↔ e ∈ T ∧ e.deadline ≤ now := by
    intro e
    simp only [S, List.mem_insertionSort, List.mem_filter, decide_eq_true_eq]
  have hsorted : SortedAssoc.Sorted (S.map fun e => (e.word, e.key)) := by
    have hrank := h.rank.sublist (List.filter_sublist (p := fun e => e.deadline ≤ now))
    refine List.pairwise_map.2 ((pairwise_insertionSort_of_rank hrank).imp_of_mem ?_)
    intro e e' he he' hbefore
    have heT := ((hmem e).1 he).1
    have heT' := ((hmem e').1 he').1
    exact h.word_lt heT heT' ((hepoch e heT).trans (hepoch e' heT').symm) hbefore
  have hentries : q.expiredEntries now = S.map fun e => (e.word, e.key) := by
    refine SortedAssoc.eq_of_mem_iff (SortedMap.sorted _) hsorted ?_
    rintro ⟨t, key⟩
    simp only [expiredEntries, SortedMap.mem_entries, SortedMap.find_filter, List.mem_map,
      Prod.mk.injEq, hmem]
    constructor
    · intro hfind
      split at hfind
      · rename_i hle
        obtain ⟨e, he, rfl, hkey⟩ := (h.find_word t key).1 hfind
        have hdue := (h.word_le_flag_iff he (hepoch e he)).1 (by simpa using hle)
        exact ⟨e, ⟨he, hdue⟩, rfl, hkey⟩
      · cases hfind
    · rintro ⟨e, ⟨he, hdue⟩, rfl, hkey⟩
      have hle := (h.word_le_flag_iff he (hepoch e he)).2 hdue
      rw [if_pos (by simpa using hle)]
      exact (h.find_word _ _).2 ⟨e, he, rfl, hkey⟩
  have htable : S.map Timer.entry =
      ((T.map Timer.entry).filter fun e => e.2 ≤ now).insertionSort fun a b => a.2 ≤ b.2 := by
    rw [List.filter_map]
    exact List.map_insertionSort _ _ _ _ fun e _ e' _ => Iff.rfl
  rw [DeadlineTable.due, ← htable]
  simp only [TimerQueue.popExpired, hentries, List.map_map]
  rfl

/-- The queue and the table after some calls, when `rest` is still to come; `epoch` are the common
high bits of deadlines and clock readings. -/
structure Refines (epoch : ℕ) (rest : List (Call ℕ ℕ)) (q : TimerQueue) (t : List (ℕ × ℕ)) :
    Prop where
  holds : ∃ T, Holds q T ∧ T.map Timer.entry = t
  adds : q.index_ + (outputs call q rest).count (.added true) < 2 ^ 32
  times : ∀ c ∈ rest, ∀ d ∈ c.time, d / 2 ^ 32 = epoch
  deadlines : ∀ e ∈ t, e.2 / 2 ^ 32 = epoch

variable {epoch : ℕ} {rest : List (Call ℕ ℕ)} {t : List (ℕ × ℕ)} {key d : ℕ}

theorem Refines.add (h : Refines epoch (.add key d :: rest) q t) :
    Refines epoch rest (q.call (.add key d)).1 (DeadlineTable.call t (.add key d)).1 ∧
      (q.call (.add key d)).2 = (DeadlineTable.call t (.add key d)).2 := by
  obtain ⟨⟨T, hT, rfl⟩, hadds, htimes, hdeadlines⟩ := h
  rw [List.forall_mem_cons] at htimes
  by_cases hkey : key ∈ T.map Timer.key
  · have hadd : q.add key d = (q, false) := if_pos (hT.hasKey_iff.2 hkey)
    simp only [TimerQueue.call, hadd, outputs] at hadds ⊢
    rw [DeadlineTable.call, if_pos (live_map_entry.2 hkey)]
    exact ⟨⟨⟨T, hT, rfl⟩, by simpa using hadds, htimes.2, hdeadlines⟩, rfl⟩
  · have hnew : ¬ q.key2timeid_.HasKey key := fun hhas => hkey (hT.hasKey_iff.1 hhas)
    have hanswer : (q.add key d).2 = true := by rw [TimerQueue.add, if_neg hnew]
    have hindex : (q.add key d).1.index_ = uint32 (q.index_ + 1) := by
      rw [TimerQueue.add, if_neg hnew]
    simp only [TimerQueue.call, outputs, hanswer, List.count_cons_self] at hadds ⊢
    have hlt : q.index_ + 1 < 2 ^ 32 := by omega
    rw [DeadlineTable.call, if_neg (fun hlive => hkey (live_map_entry.1 hlive))]
    refine ⟨⟨⟨_, hT.add hnew hlt d, by simp [Timer.entry]⟩, ?_, htimes.2, ?_⟩, rfl⟩
    · rw [hindex, uint32_of_lt hlt]
      omega
    · intro e he
      rcases List.mem_append.1 he with he | he
      · exact hdeadlines e he
      · rw [List.mem_singleton.1 he]
        exact htimes.1 d rfl

theorem Refines.remove (h : Refines epoch (.remove key :: rest) q t) :
    Refines epoch rest (q.call (.remove key)).1 (DeadlineTable.call t (.remove key)).1 ∧
      (q.call (.remove key)).2 = (DeadlineTable.call t (.remove key)).2 := by
  obtain ⟨⟨T, hT, rfl⟩, hadds, htimes, hdeadlines⟩ := h
  rw [List.forall_mem_cons] at htimes
  by_cases hkey : key ∈ T.map Timer.key
  · obtain ⟨e, he, rfl⟩ := List.mem_map.1 hkey
    have hindex : (q.remove e.key).1.index_ = q.index_ := by rw [hT.remove_eq he]
    have hanswer : (q.remove e.key).2 = true := by rw [hT.remove_eq he]
    simp only [TimerQueue.call, outputs, hanswer] at hadds ⊢
    rw [DeadlineTable.call, if_pos (live_map_entry.2 hkey)]
    refine ⟨⟨⟨_, hT.remove he, ?_⟩, ?_, htimes.2, ?_⟩, rfl⟩
    · rw [List.filter_map]
      rfl
    · rw [hindex]
      simpa using hadds
    · exact fun e he => hdeadlines e (List.mem_filter.1 he).1
  · have hremove := hT.remove_eq_of_not_mem hkey
    simp only [TimerQueue.call, hremove, outputs] at hadds ⊢
    rw [DeadlineTable.call, if_neg (fun hlive => hkey (live_map_entry.1 hlive))]
    exact ⟨⟨⟨T, hT, rfl⟩, by simpa using hadds, htimes.2, hdeadlines⟩, rfl⟩

theorem Refines.popExpired (h : Refines epoch (.popExpired now :: rest) q t) :
    Refines epoch rest (q.call (.popExpired now)).1 (DeadlineTable.call t (.popExpired now)).1 ∧
      (q.call (.popExpired now)).2 = (DeadlineTable.call t (.popExpired now)).2 := by
  obtain ⟨⟨T, hT, rfl⟩, hadds, htimes, hdeadlines⟩ := h
  rw [List.forall_mem_cons] at htimes
  have hnow : ∀ e ∈ T, e.deadline / 2 ^ 32 = now / 2 ^ 32 := by
    intro e he
    rw [htimes.1 now rfl]
    exact hdeadlines _ (List.mem_map_of_mem he)
  have hanswer := hT.popExpired_answer hnow
  have hindex : (q.popExpired now).1.index_ = q.index_ := rfl
  simp only [TimerQueue.call, outputs, hanswer, DeadlineTable.call] at hadds ⊢
  refine ⟨⟨⟨_, hT.popExpired now, ?_⟩, ?_, htimes.2, ?_⟩, trivial⟩
  · rw [List.filter_map]
    congr 1
    apply List.filter_congr
    intro e he
    simp only [Function.comp_apply, decide_eq_decide]
    rw [hT.word_le_flag_iff he (hnow e he), not_le]
    rfl
  · rw [hindex]
    simpa using hadds
  · exact fun e he => hdeadlines e (List.mem_filter.1 he).1

/-- Each call keeps the relation and answers like the table. -/
theorem Refines.call {c : Call ℕ ℕ} (h : Refines epoch (c :: rest) q t) :
    Refines epoch rest (q.call c).1 (DeadlineTable.call t c).1 ∧
      (q.call c).2 = (DeadlineTable.call t c).2 := by
  cases c with
  | add key d => exact h.add
  | remove key => exact h.remove
  | popExpired now => exact h.popExpired

/-- With fewer than `2 ^ 32` successful calls of `add`, and all deadlines and clock readings equal
on their bits above the low 32, the queue answers like the table of keys and deadlines and has the
same keys. -/
theorem outputs_eq_deadlineTable (cs : List (Call ℕ ℕ))
    (hadds : (outputs call empty cs).count (.added true) < 2 ^ 32)
    (hepoch : ∀ c ∈ cs, ∀ c' ∈ cs, ∀ d ∈ c.time, ∀ d' ∈ c'.time, d / 2 ^ 32 = d' / 2 ^ 32) :
    outputs call empty cs = outputs DeadlineTable.call [] cs ∧
      ∀ key, (final call empty cs).key2timeid_.HasKey key ↔
        DeadlineTable.Live (final DeadlineTable.call [] cs) key := by
  obtain ⟨epoch, htimes⟩ : ∃ epoch, ∀ c ∈ cs, ∀ d ∈ c.time, d / 2 ^ 32 = epoch := by
    by_cases hnone : ∃ c ∈ cs, ∃ d, d ∈ c.time
    · obtain ⟨c, hc, d, hd⟩ := hnone
      exact ⟨d / 2 ^ 32, fun c' hc' d' hd' => hepoch c' hc' c hc d' hd' d hd⟩
    · exact ⟨0, fun c hc d hd => absurd ⟨c, hc, d, hd⟩ hnone⟩
  have hstart : Refines epoch cs empty [] :=
    ⟨⟨[], holds_empty, rfl⟩, by simpa [empty] using hadds, htimes, by simp⟩
  obtain ⟨houts, hfinal⟩ := outputs_eq_of_simulation (fun c rest q t => Refines.call) cs hstart
  obtain ⟨T, hT, htable⟩ := hfinal.holds
  refine ⟨houts, ?_⟩
  intro key
  rw [← htable, live_map_entry, hT.hasKey_iff]

end Epoch

/-- Two timers with one deadline and one with an earlier one, popped in one call. -/
theorem outputs_eq_deadlineTable_three :
    outputs call empty
        [.add 7 50, .add 8 40, .add 9 50, .add 7 30, .popExpired 50, .remove 8] =
      outputs DeadlineTable.call []
        [.add 7 50, .add 8 40, .add 9 50, .add 7 30, .popExpired 50, .remove 8] :=
  (outputs_eq_deadlineTable
    [.add 7 50, .add 8 40, .add 9 50, .add 7 30, .popExpired 50, .remove 8] (by decide)
    (by decide)).1

end TimerQueue

/-! ## No timer fires early -/

/-- A key that `popExpired` returned, with the deadline it was added with. -/
structure Firing where
  key : ℕ
  deadline : Option ℕ
  now : ℕ
  deriving DecidableEq, Repr

/-- The deadline had come. -/
def Firing.OnTime (f : Firing) : Prop := ∃ d, f.deadline = some d ∧ d ≤ f.now

instance (f : Firing) : Decidable f.OnTime :=
  decidable_of_iff (f.deadline.any fun d => d ≤ f.now) (by simp [Firing.OnTime, Option.any_eq_true])

/-- The queue, the last clock reading, and the history. -/
structure TimerLog where
  queue : TimerQueue
  clock : ℕ
  /-- the deadline of each key's last successful `add` -/
  deadlines : SortedMap ℕ ℕ
  fired : List Firing
  deriving DecidableEq

namespace TimerLog

def new : TimerLog := { queue := TimerQueue.empty, clock := 0, deadlines := ∅, fired := [] }

/-- One call; clock readings do not decrease. -/
def step (w : TimerLog) : Call ℕ ℕ → Option TimerLog
  | .add key d =>
    let r := w.queue.add key d
    some { w with
      queue := r.1
      deadlines := if r.2 then w.deadlines.insertOrAssign key d else w.deadlines }
  | .remove key => some { w with queue := (w.queue.remove key).1 }
  | .popExpired now =>
    if w.clock ≤ now then
      let r := w.queue.popExpired now
      some { w with
        queue := r.1
        clock := now
        fired := w.fired ++
          r.2.map fun key => { key := key, deadline := w.deadlines.find key, now := now } }
    else none

/-- At a clock reading, the low 32 bits of a deadline that has not come are above those of the
clock. -/
def InEpoch (w : TimerLog) : Call ℕ ℕ → Prop
  | .popExpired now => ∀ key d, w.queue.Live key → w.deadlines.find key = some d → now < d →
      now % 2 ^ 32 < d % 2 ^ 32
  | _ => True

/-- The packed word of every entry tells the low bits of its key's deadline. -/
structure Inv (w : TimerLog) : Prop where
  wf : w.queue.Wf
  own : ∀ t key, w.queue.timeid2key_.find t = some key →
    ∃ d id, w.deadlines.find key = some d ∧ id < 2 ^ 32 ∧ TimerQueue.timeid d id = t

theorem inv_new : Inv new where
  wf := TimerQueue.wf_empty
  own t key h := by simp [new, TimerQueue.empty] at h

theorem Inv.add {w : TimerLog} (h : Inv w) (key d : ℕ) :
    Inv { w with
      queue := (w.queue.add key d).1
      deadlines :=
        if (w.queue.add key d).2 then w.deadlines.insertOrAssign key d else w.deadlines } := by
  refine ⟨TimerQueue.add_wf h.wf key d, ?_⟩
  by_cases hkey : w.queue.key2timeid_.HasKey key
  · have hadd : w.queue.add key d = (w.queue, false) := if_pos hkey
    simpa [hadd] using h.own
  · have hanswer : (w.queue.add key d).2 = true := by rw [TimerQueue.add, if_neg hkey]
    intro t key' ht
    simp only [hanswer, if_true, SortedMap.find_insertOrAssign_eq_some]
    rcases TimerQueue.find_add ht with hold | ⟨rfl, rfl⟩
    · obtain ⟨d', id, hd, hid, hword⟩ := h.own t key' hold
      refine ⟨d', id, Or.inr ⟨?_, hd⟩, hid, hword⟩
      rintro rfl
      obtain ⟨d₀, id₀, hfind, -⟩ := h.wf.own t _ hold
      exact hkey (SortedMap.hasKey_iff.2 ⟨_, hfind⟩)
    · exact ⟨d, _, Or.inl ⟨rfl, rfl⟩, h.wf.index_lt, rfl⟩

theorem inv_step {w v : TimerLog} {c : Call ℕ ℕ} (h : Inv w) (hv : step w c = some v) : Inv v := by
  cases c with
  | add key d =>
    cases hv
    exact h.add key d
  | remove key =>
    cases hv
    exact ⟨TimerQueue.remove_wf h.wf key, fun t key' ht => h.own t key' (TimerQueue.find_remove ht)⟩
  | popExpired now =>
    simp only [step] at hv
    split at hv <;> cases hv
    exact ⟨TimerQueue.popExpired_wf h.wf now,
      fun t key ht => h.own t key (TimerQueue.find_popExpired.1 ht).1⟩

/-- A step fires only timers whose low bits have come. -/
theorem fired_step {w v : TimerLog} {c : Call ℕ ℕ} (h : Inv w) (hv : step w c = some v) {f : Firing}
    (hf : f ∈ v.fired) :
    f ∈ w.fired ∨ ∃ d, c = .popExpired f.now ∧ w.queue.Live f.key ∧
      w.deadlines.find f.key = some d ∧ f.deadline = some d ∧ d % 2 ^ 32 ≤ f.now % 2 ^ 32 := by
  cases c with
  | add key d =>
    cases hv
    exact Or.inl hf
  | remove key =>
    cases hv
    exact Or.inl hf
  | popExpired now =>
    simp only [step] at hv
    split at hv <;> cases hv
    rcases List.mem_append.1 hf with hf | hf
    · exact Or.inl hf
    · obtain ⟨key, hkey, rfl⟩ := List.mem_map.1 hf
      obtain ⟨t, ht, hle⟩ := TimerQueue.mem_popExpired.1 hkey
      obtain ⟨d, id, hd, hid, rfl⟩ := h.own t key ht
      exact Or.inr ⟨d, rfl, ⟨_, ht⟩, hd, hd, (TimerQueue.timeid_le_flag_iff hid d now).1 hle⟩

theorem fired_grow {w v : TimerLog} {c : Call ℕ ℕ} (hv : step w c = some v) :
    w.fired <+: v.fired := by
  cases c with
  | add key d =>
    cases hv
    exact List.prefix_rfl
  | remove key =>
    cases hv
    exact List.prefix_rfl
  | popExpired now =>
    simp only [step] at hv
    split at hv <;> cases hv
    exact List.prefix_append _ _

/-- A step outside the condition fires a timer early. -/
theorem early_of_not_inEpoch {w v : TimerLog} {c : Call ℕ ℕ} (h : Inv w) (hc : ¬ InEpoch w c)
    (hv : step w c = some v) : ∃ f ∈ v.fired, ¬ f.OnTime := by
  cases c with
  | add key d => exact absurd trivial hc
  | remove key => exact absurd trivial hc
  | popExpired now =>
    simp only [InEpoch, not_forall] at hc
    obtain ⟨key, d, ⟨t, ht⟩, hd, hlt, hlow⟩ := hc
    simp only [step] at hv
    split at hv <;> cases hv
    obtain ⟨d', id, hd', hid, rfl⟩ := h.own t key ht
    cases hd.symm.trans hd'
    have hpopped : key ∈ (w.queue.popExpired now).2 := TimerQueue.mem_popExpired.2
      ⟨_, ht, (TimerQueue.timeid_le_flag_iff hid d now).2 (by omega)⟩
    refine ⟨_, List.mem_append_right _ (List.mem_map_of_mem hpopped), ?_⟩
    rintro ⟨d', hd', hle⟩
    cases hd.symm.trans hd'
    exact absurd hle (not_le.2 hlt)

/-- No timer is fired before its deadline if and only if, at every call of `popExpired`, the
deadlines that have not come have higher low bits than the clock. -/
theorem fires_on_time_iff {cs : List (Call ℕ ℕ)} {w : TimerLog} (hrun : run step new cs = some w) :
    (∀ f ∈ w.fired, f.OnTime) ↔ Always step InEpoch new cs := by
  constructor
  · intro hontime
    refine always_of_run (I := Inv) (B := fun u => ∃ f ∈ u.fired, ¬ f.OnTime)
      (fun u c v hu hv => inv_step hu hv) (fun u c v hu hc hv => early_of_not_inEpoch hu hc hv) ?_
      inv_new hrun ?_
    · rintro u c v ⟨f, hf, hearly⟩ hv
      exact ⟨f, (fired_grow hv).subset hf, hearly⟩
    · rintro ⟨f, hf, hearly⟩
      exact hearly (hontime f hf)
  · intro hepoch
    refine (run_invariant_of_always (I := fun u => Inv u ∧ ∀ f ∈ u.fired, f.OnTime) ?_
      ⟨inv_new, by simp [new]⟩ hepoch hrun).2
    rintro u c v ⟨hinv, hontime⟩ hc hv
    refine ⟨inv_step hinv hv, ?_⟩
    intro f hf
    rcases fired_step hinv hv hf with hold | ⟨d, rfl, hlive, hd, hdeadline, hlow⟩
    · exact hontime f hold
    · refine ⟨d, hdeadline, ?_⟩
      by_contra hlt
      have := hc f.key d hlive hd (not_le.1 hlt)
      omega

theorem fires_on_time_iff_same_epoch :
    ∃ w, run step new [.add 1 10, .popExpired 9, .popExpired 10] = some w ∧
      (w.fired.map Firing.now = [10]) ∧
      Always step InEpoch new [.add 1 10, .popExpired 9, .popExpired 10] := by
  refine ⟨_, rfl, by decide, ?_⟩
  have hrun : run step new [.add 1 10, .popExpired 9, .popExpired 10] = some _ := rfl
  exact (fires_on_time_iff hrun).1 (by decide)

/-- A timer of ten milliseconds set five milliseconds before a multiple of `2 ^ 32` fires at the
next clock reading. -/
theorem fires_early :
    ∃ w, run step new [.popExpired (400 * 2 ^ 32 - 5), .add 1 (400 * 2 ^ 32 - 5 + 10),
        .popExpired (400 * 2 ^ 32 - 4)] = some w ∧
      ∃ f ∈ w.fired, ¬ f.OnTime := by
  exact ⟨_, rfl, _, List.mem_singleton.2 rfl, by decide⟩

end TimerLog

end CoUringWeb
