import CoUringWeb.Core.UringRuns

/-!
# A whole call of `UringScheduler::poll`

`poll_ends_iff` says for which queues the `while (true)` of `poll` ends: every entry before the
first one with `user_data == 0` has to belong to a request that is still pending, each to another
one.  The loop then looks at the entries in order and marks each seen once.  On any other queue it
reaches an entry whose request was handed out before; the `continue` leaves that entry the oldest
unseen one, and the loop finds it again for ever.

`poll_run` connects the two levels: a call of `poll` that ends is a run of the single turns of
`UringRuns.lean`, with the same hand-outs.
-/

namespace CoUringWeb

open Machine Transition

namespace UringScheduler

/-! ## Termination -/

/-- The ids of the entries before the first one with `user_data == 0`. -/
def leadingIds (cq : List Cqe) : List ℕ :=
  (cq.map Cqe.user_data).takeWhile fun id => id ≠ 0

/-- Each of these entries belongs to a pending request, and no two to the same one. -/
def EntriesPending (s : UringScheduler) (cq : List Cqe) : Prop :=
  (leadingIds cq).Nodup ∧ ∀ id ∈ leadingIds cq, s.ioIndex2req_.HasKey id

instance (s : UringScheduler) (cq : List Cqe) : Decidable (s.EntriesPending cq) := by
  unfold EntriesPending; infer_instance

theorem leadingIds_cons_zero {cqe : Cqe} (h : cqe.user_data = 0) (rest : List Cqe) :
    leadingIds (cqe :: rest) = [] := by
  simp [leadingIds, h]

theorem leadingIds_cons {cqe : Cqe} (h : cqe.user_data ≠ 0) (rest : List Cqe) :
    leadingIds (cqe :: rest) = cqe.user_data :: leadingIds rest := by
  simp [leadingIds, h]

theorem loopTurn_zero (s : UringScheduler) {cqe : Cqe} (h : cqe.user_data = 0) :
    s.loopTurn cqe = { sched := s, handed := none, seen := true, again := false } := by
  simp [loopTurn, h]

theorem loopTurn_deleted {s : UringScheduler} {cqe : Cqe} (h : cqe.user_data ≠ 0)
    (hfind : s.ioIndex2req_.find cqe.user_data = none) :
    s.loopTurn cqe = { sched := s, handed := none, seen := false, again := true } := by
  simp [loopTurn, h, hfind]

/-- On a pending entry the request leaves the map, the entry is seen and the loop goes on. -/
theorem loopTurn_pending {s : UringScheduler} {cqe : Cqe} (h : cqe.user_data ≠ 0)
    (hkey : s.ioIndex2req_.HasKey cqe.user_data) :
    (s.loopTurn cqe).sched.ioIndex2req_ = s.ioIndex2req_.erase cqe.user_data ∧
      (s.loopTurn cqe).seen = true ∧ (s.loopTurn cqe).again = true := by
  obtain ⟨req, hreq⟩ := SortedMap.hasKey_iff.1 hkey
  simp [loopTurn, h, hreq]

/-- Pending entries stay pending when the first of them has been handed out, and conversely. -/
theorem entriesPending_cons {s s' : UringScheduler} {cqe : Cqe} {rest : List Cqe}
    (h : cqe.user_data ≠ 0) (hkey : s.ioIndex2req_.HasKey cqe.user_data)
    (hmap : s'.ioIndex2req_ = s.ioIndex2req_.erase cqe.user_data) :
    s.EntriesPending (cqe :: rest) ↔ s'.EntriesPending rest := by
  simp only [EntriesPending, leadingIds_cons h, List.nodup_cons, List.forall_mem_cons, hmap,
    SortedMap.hasKey_erase]
  constructor
  · rintro ⟨⟨hnew, hnodup⟩, -, hall⟩
    exact ⟨hnodup, fun id hid => ⟨fun heq => hnew (heq ▸ hid), hall id hid⟩⟩
  · rintro ⟨hnodup, hall⟩
    exact ⟨⟨fun hmem => (hall _ hmem).1 rfl, hnodup⟩, hkey, fun id hid => (hall id hid).2⟩

/-- While the entries are pending, each turn marks the entry it looks at.  Only an entry with
`user_data == 0` ends the loop before the queue is empty. -/
theorem pollLoop_ends {p : PollState} (h : p.sched.EntriesPending p.cq) :
    ∃ q n, pollLoop (p.cq.length + 1) p = some q ∧
      q.looked = p.looked ++ List.range' p.head n ∧ q.seen = p.seen ++ List.range' p.head n ∧
      ((∀ cqe ∈ p.cq, cqe.user_data ≠ 0) → n = p.cq.length ∧ q.cq = []) := by
  obtain ⟨cq, hcq⟩ : ∃ cq, p.cq = cq := ⟨_, rfl⟩
  induction cq generalizing p with
  | nil => exact ⟨p, 0, by simp [pollLoop, hcq], by simp, by simp, fun _ => by simp [hcq]⟩
  | cons cqe rest ih =>
    rw [hcq] at h
    by_cases hzero : cqe.user_data = 0
    · refine ⟨p.next cqe rest, 1, ?_, ?_, ?_, fun hne => ?_⟩
      · simp [pollLoop, hcq, loopTurn_zero _ hzero]
      · simp [PollState.next, loopTurn_zero _ hzero]
      · simp [PollState.next, loopTurn_zero _ hzero]
      · exact absurd hzero (hne cqe (hcq ▸ List.mem_cons_self))
    · have hkey : p.sched.ioIndex2req_.HasKey cqe.user_data :=
        h.2 _ (by rw [leadingIds_cons hzero]; exact List.mem_cons_self)
      obtain ⟨hmap, hseen, hagain⟩ := loopTurn_pending hzero hkey
      have hnext : (p.next cqe rest).sched.EntriesPending (p.next cqe rest).cq := by
        simp only [PollState.next, hseen, if_true]
        exact (entriesPending_cons hzero hkey hmap).1 h
      have hrest : (p.next cqe rest).cq = rest := by simp [PollState.next, hseen]
      obtain ⟨q, n, hq, hlooked, hmarked, hall⟩ := ih hnext hrest
      refine ⟨q, n + 1, ?_, ?_, ?_, fun hne => ?_⟩
      · rw [hrest] at hq
        rw [hcq, List.length_cons, pollLoop]
        simp [hcq, hagain, hq]
      · rw [hlooked]
        simp [PollState.next, hseen, List.range'_succ]
      · rw [hmarked]
        simp [PollState.next, hseen, List.range'_succ]
      · obtain ⟨hn, hempty⟩ := hall fun c hc => hne c (by
          rw [hcq]
          exact List.mem_cons_of_mem _ (hrest ▸ hc))
        exact ⟨by rw [hn, hrest, hcq, List.length_cons], hempty⟩

/-- If the loop ends at all, the entries were pending. -/
theorem entriesPending_of_pollLoop {fuel : ℕ} {p q : PollState} (h : pollLoop fuel p = some q) :
    p.sched.EntriesPending p.cq := by
  induction fuel generalizing p with
  | zero => simp [pollLoop] at h
  | succ fuel ih =>
    rw [pollLoop] at h
    cases hcq : p.cq with
    | nil => simp [EntriesPending, leadingIds]
    | cons cqe rest =>
      simp only [hcq] at h
      by_cases hzero : cqe.user_data = 0
      · simp [EntriesPending, leadingIds_cons_zero hzero]
      · by_cases hkey : p.sched.ioIndex2req_.HasKey cqe.user_data
        · obtain ⟨hmap, hseen, hagain⟩ := loopTurn_pending hzero hkey
          rw [if_pos hagain] at h
          have hnext := ih h
          simp only [PollState.next, hseen, if_true] at hnext
          exact (entriesPending_cons hzero hkey hmap).2 hnext
        · -- the entry is still the oldest unseen one at the next turn
          have hturn := loopTurn_deleted hzero (SortedMap.not_hasKey_iff.1 hkey)
          rw [if_pos (by rw [hturn])] at h
          have hnext := ih h
          simpa [PollState.next, hturn, hcq] using hnext

/-- With another entry in the way no fuel suffices. -/
theorem poll_eq_none {s : UringScheduler} {cq : List Cqe} (h : ¬ s.EntriesPending cq)
    (ready : List Handle) (fuel now : ℕ) : poll fuel (PollState.start s cq ready) now = none := by
  refine Option.eq_none_iff_forall_ne_some.2 fun q hq => ?_
  obtain ⟨q', hq', -⟩ := Option.map_eq_some_iff.1 hq
  exact h (entriesPending_of_pollLoop hq')

/-- `poll` ends and marks each entry it looks at exactly once if and only if the entries up to the
first one with `user_data == 0` belong to distinct pending requests. -/
theorem poll_ends_iff (s : UringScheduler) (cq : List Cqe) (ready : List Handle) (now : ℕ) :
    (∃ fuel q, poll fuel (PollState.start s cq ready) now = some q ∧
      ∀ n ∈ q.looked, q.seen.count n = 1) ↔ s.EntriesPending cq := by
  constructor
  · rintro ⟨fuel, q, hq, -⟩
    by_contra h
    rw [poll_eq_none h] at hq
    cases hq
  · intro h
    obtain ⟨q, n, hq, hlooked, hseen, -⟩ := pollLoop_ends (p := PollState.start s cq ready) h
    refine ⟨_, _, Option.map_eq_some_iff.2 ⟨q, hq, rfl⟩, fun k hk => ?_⟩
    dsimp only at hk ⊢
    rw [hlooked] at hk
    rw [hseen]
    exact List.count_eq_one_of_mem (List.nodup_range' 1) hk

/-- The completion of a read that timed out keeps the next `poll` busy for ever. -/
theorem poll_spins_on_expired_read :
    ∃ w, run Uring.step Uring.new
        [.read { capicaty := 8, fd := 3, context := 100, op := .OP_READ, timeout := 10 } 0,
          .popExpired 20, .expire, .complete 0 5] = some w ∧
      ∀ fuel now, poll fuel (PollState.start w.sched w.cq []) now = none := by
  exact ⟨_, rfl, fun fuel now => poll_eq_none (by decide) [] fuel now⟩

/-! ## A call as a run of turns -/

/-- `v` hands out, after `w`, the contexts that `ready'` has after `ready`. -/
def Serves (w v : Uring) (ready ready' : List Handle) : Prop :=
  ∃ served : List HandOut, v.handed = w.handed ++ served ∧
    ready' = ready ++ served.map fun o => o.req.context

theorem Serves.refl (w : Uring) (ready : List Handle) : Serves w w ready ready :=
  ⟨[], by simp, by simp⟩

theorem Serves.trans {u v w : Uring} {ready ready' ready'' : List Handle}
    (h : Serves u v ready ready') (h' : Serves v w ready' ready'') : Serves u w ready ready'' := by
  obtain ⟨served, hv, rfl⟩ := h
  obtain ⟨served', hw, rfl⟩ := h'
  exact ⟨served ++ served', by rw [hw, hv, List.append_assoc], by simp⟩

theorem serves_reaped (w : Uring) (cqe : Cqe) (rest : List Cqe) (ready : List Handle) :
    Serves w (w.reaped cqe rest) ready
      (ready ++ ((w.sched.loopTurn cqe).handed.map IoRequest.context).toList) := by
  refine ⟨_, rfl, ?_⟩
  cases (w.sched.loopTurn cqe).handed <;> rfl

theorem serves_expiredKey (w : Uring) (key : ℕ) (keys : List ℕ) (ready : List Handle) :
    Serves w (w.expiredKey key keys) ready
      (ready ++ ((w.sched.expireTurn key).2.map IoRequest.context).toList) := by
  refine ⟨_, rfl, ?_⟩
  cases (w.sched.expireTurn key).2 <;> rfl

theorem pollLoop_run {fuel : ℕ} {p q : PollState} {w : Uring} (hsched : w.sched = p.sched)
    (hcq : w.cq = p.cq) (h : pollLoop fuel p = some q) :
    ∃ n v, run Uring.step w (List.replicate n .reap) = some v ∧ v.sched = q.sched ∧
      v.cq = q.cq ∧ v.expireds = w.expireds ∧ Serves w v p.ready q.ready := by
  induction fuel generalizing p w with
  | zero => simp [pollLoop] at h
  | succ fuel ih =>
    rw [pollLoop] at h
    cases hentries : p.cq with
    | nil =>
      simp only [hentries, Option.some.injEq] at h
      subst h
      exact ⟨0, w, rfl, hsched, hcq, rfl, Serves.refl w _⟩
    | cons cqe rest =>
      simp only [hentries] at h
      have hstep : Uring.step w .reap = some (w.reaped cqe rest) := by
        simp only [Uring.step, hcq, hentries]
      have hnext : Serves w (w.reaped cqe rest) p.ready (p.next cqe rest).ready := by
        have := serves_reaped w cqe rest p.ready
        rwa [hsched] at this
      have hsched' : (w.reaped cqe rest).sched = (p.next cqe rest).sched := by
        simp [Uring.reaped, PollState.next, hsched]
      have hcq' : (w.reaped cqe rest).cq = (p.next cqe rest).cq := by
        simp [Uring.reaped, PollState.next, hsched, hcq]
      split at h
      · obtain ⟨n, v, hrun, hv, hvcq, hexpireds, hserves⟩ := ih hsched' hcq' h
        exact ⟨n + 1, v, run_cons.2 ⟨_, hstep, hrun⟩, hv, hvcq, hexpireds, hnext.trans hserves⟩
      · cases h
        exact ⟨1, _, run_singleton.2 hstep, hsched', hcq', rfl, hnext⟩

theorem expireLoop_run {s : UringScheduler} {w : Uring} (hsched : w.sched = s)
    (keys : List ℕ) (hkeys : w.expireds = keys) (ready : List Handle) :
    ∃ v, run Uring.step w (List.replicate keys.length .expire) = some v ∧
      v.sched = (expireLoop s ready keys).1 ∧ v.cq = w.cq ∧ v.expireds = [] ∧
      Serves w v ready (expireLoop s ready keys).2 := by
  induction keys generalizing s w ready with
  | nil => exact ⟨w, rfl, hsched, rfl, hkeys, Serves.refl w _⟩
  | cons key keys ih =>
    subst hsched
    have hstep : Uring.step w .expire = some (w.expiredKey key keys) := by
      simp only [Uring.step, hkeys]
    obtain ⟨v, hrun, hv, hcq, hexpireds, hserves⟩ := ih (w := w.expiredKey key keys) rfl rfl
      (ready ++ ((w.sched.expireTurn key).2.map IoRequest.context).toList)
    exact ⟨v, run_cons.2 ⟨_, hstep, hrun⟩, hv, hcq, hexpireds,
      (serves_expiredKey w key keys ready).trans hserves⟩

/-- A call of `poll` that ends is a run of its turns. -/
theorem poll_run {fuel now : ℕ} {q : PollState} {ready : List Handle} {w : Uring}
    (hexpireds : w.expireds = [])
    (h : poll fuel (PollState.start w.sched w.cq ready) now = some q) :
    ∃ n m v,
      run Uring.step w
        (List.replicate n .reap ++ .popExpired now :: List.replicate m .expire) = some v ∧
      v.sched = q.sched ∧ v.cq = q.cq ∧ v.expireds = [] ∧ Serves w v ready q.ready := by
  obtain ⟨p, hp, rfl⟩ := Option.map_eq_some_iff.1 h
  obtain ⟨n, u, hrun, hsched, hcq, hkeys, hserves⟩ :=
    pollLoop_run (w := w) (p := PollState.start w.sched w.cq ready) rfl rfl hp
  rw [hexpireds] at hkeys
  let popped := p.sched.timerQueue_.popExpired now
  let t : Uring :=
    { u with
      sched := { u.sched with timerQueue_ := popped.1 }
      expireds := popped.2
      clock := now }
  have hpop : Uring.step u (.popExpired now) = some t := by
    simp only [Uring.step, if_pos hkeys, hsched, t, popped]
  obtain ⟨v, hrun', hv, hcq', hdone, hserves'⟩ :=
    expireLoop_run (s := { p.sched with timerQueue_ := popped.1 }) (w := t)
      (by simp only [t, hsched]) popped.2 rfl p.ready
  refine ⟨n, popped.2.length, v, run_append.2 ⟨u, hrun, run_cons.2 ⟨t, hpop, hrun'⟩⟩, hv,
    hcq'.trans hcq, hdone, hserves.trans hserves'⟩

end UringScheduler

end CoUringWeb
