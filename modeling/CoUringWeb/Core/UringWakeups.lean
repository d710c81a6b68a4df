import CoUringWeb.Core.UringLoopRuns

/-!
# Wake-ups of the coroutines on `UringScheduler`

Every suspended coroutine has its operation in flight, or its completion entry in the queue, or its
address ready (`no_wakeup_lost`): the loop never forgets a coroutine, in the runs of `UringLoop`,
which are followed up to the first operation that moves bytes after its request was handed out.

A timer hands a request out while its operation goes on, and the entry of that operation then keeps
`poll` busy for ever.  Coroutines that set no timeout are free of this (`untimed_poll_ends`): no
operation outlives its request, every unseen entry belongs to a pending request, each to another
one, and so the `while (true)` of `poll` empties the queue and ends in every state of every run.

The bound on the number of requests is that of `ioIndex_`, a `uint64_t` that comes round after it.
-/

namespace CoUringWeb

open Machine Transition Awaiting Interleaving

namespace Uring

/-! ## Nothing is forgotten -/

/-- Every pending request has its operation in flight or an unseen entry. -/
def Accounted (w : Uring) : Prop :=
  ∀ id, w.sched.ioIndex2req_.HasKey id → id ∈ w.flying ∨ ∃ cqe ∈ w.cq, cqe.user_data = id

theorem accounted_new : Accounted new := by
  intro id hid
  simp [new, UringScheduler.new, SortedMap.HasKey] at hid

variable {w v : Uring}

theorem Sound.pos_of_pending (hs : w.Sound) {id : ℕ} (hid : w.sched.ioIndex2req_.HasKey id) :
    id ≠ 0 := by
  obtain ⟨req, hreq⟩ := SortedMap.hasKey_iff.1 hid
  have := hs.inv.ids.le_length (hs.issued_of_pending hreq)
  omega

/-- What one step can be, as far as requests, operations and entries are concerned. -/
inductive Turn (w v : Uring) : Prop where
  | submits (req : IoRequest) (h : Submits w v req)
  | finishes (id : ℕ) (res : ℤ) (h : Finishes w v id res)
  | quiet (h : Quiet w v)
  | handsOut (req : IoRequest) (o : HandOut) (h : HandsOut w v req o)
      (hcause : (∃ cqe, w.cq = cqe :: v.cq ∧ cqe.user_data = o.id) ∨ o.id ∈ w.expireds)

theorem turn_of_step (hs : w.Sound) {a : Action} (h : w.step a = some v) : Turn w v := by
  cases a with
  | read req now | write req now =>
    rcases submits_or_keeps h with ⟨req, hq⟩ | ⟨hsubmissions, -⟩
    · exact .submits req hq
    · -- a call that returns has submitted a request
      exfalso
      simp only [step, Option.map_eq_some_iff] at h
      obtain ⟨r, -, rfl⟩ := h
      simp [submitted] at hsubmissions
  | complete i res =>
    obtain ⟨sqe, hsqe, -⟩ := Option.map_eq_some_iff.1 h
    exact .finishes _ res (step_complete hs.kernel hsqe h)
  | reap =>
    rcases step_reap h with hq | ⟨cqe, req, o, hcq, hq, hid, -⟩
    · exact .quiet hq
    · exact .handsOut req o hq (Or.inl ⟨cqe, hcq, hid.symm⟩)
  | popExpired now => exact .quiet (step_popExpired h)
  | expire =>
    rcases step_expire h with hq | ⟨key, req, o, hkey, hq, rfl, -⟩
    · exact .quiet hq
    · exact .handsOut req o hq (Or.inr hkey)

/-- An entry that leaves the queue is of another request than those still pending. -/
theorem Accounted.step (ha : Accounted w) (hs : w.Sound) {a : Action} (h : w.step a = some v) :
    Accounted v := by
  intro id hid
  cases turn_of_step hs h with
  | submits req hq =>
    rw [hq.pending, SortedMap.hasKey_insert] at hid
    rcases hid with rfl | hid
    · exact Or.inl (by simp [flying, hq.inFlight])
    · rcases ha id hid with hfly | hcqe
      · exact Or.inl (by
          rw [flying, hq.inFlight, List.map_append]
          exact List.mem_append_left _ hfly)
      · exact Or.inr (by rwa [hq.cq])
  | finishes id' res hq =>
    rw [hq.pending] at hid
    by_cases heq : id = id'
    · exact Or.inr ⟨_, by rw [hq.cq]; exact List.mem_append_right _ List.mem_cons_self, heq.symm⟩
    · rcases ha id hid with hfly | ⟨cqe, hcqe, hcid⟩
      · exact Or.inl ((hq.flying id).2 ⟨heq, hfly⟩)
      · exact Or.inr ⟨cqe, by rw [hq.cq]; exact List.mem_append_left _ hcqe, hcid⟩
  | quiet hq =>
    rw [hq.pending] at hid
    refine (ha id hid).imp (fun hfly => by rwa [flying, hq.inFlight]) ?_
    rintro ⟨cqe, hcqe, hcid⟩
    rcases hq.cq with heq | ⟨cqe', heq, hzero⟩
    · exact ⟨cqe, heq ▸ hcqe, hcid⟩
    · rw [heq] at hcqe
      rcases List.mem_cons.1 hcqe with rfl | hcqe
      · exact absurd (hcid.symm.trans hzero) (hs.pos_of_pending hid)
      · exact ⟨cqe, hcqe, hcid⟩
  | handsOut req o hq hcause =>
    rw [hq.pending, SortedMap.hasKey_erase] at hid
    refine (ha id hid.2).imp (fun hfly => by rwa [flying, hq.inFlight]) ?_
    rintro ⟨cqe, hcqe, hcid⟩
    rcases hq.cq with heq | ⟨cqe', heq, hcid'⟩
    · exact ⟨cqe, heq ▸ hcqe, hcid⟩
    · rw [heq] at hcqe
      rcases List.mem_cons.1 hcqe with rfl | hcqe
      · exact absurd (hcid.symm.trans hcid') hid.1
      · exact ⟨cqe, hcqe, hcid⟩

/-! ## Without timeouts -/

/-- No request has a timeout, no timer has been popped, and every operation in flight and every
unseen entry belongs to a pending request, each entry to another one. -/
structure Untimed (w : Uring) : Prop where
  timeouts : ∀ x ∈ w.submissions, x.2.timeout ≤ 0
  expireds : w.expireds = []
  flying : ∀ id ∈ w.flying, w.sched.ioIndex2req_.HasKey id
  unseen : ∀ cqe ∈ w.cq, w.sched.ioIndex2req_.HasKey cqe.user_data
  nodup : (w.cq.map Cqe.user_data).Nodup

theorem untimed_new : Untimed new where
  timeouts := by simp [new]
  expireds := rfl
  flying := by simp [new, Uring.flying]
  unseen := by simp [new]
  nodup := List.nodup_nil

theorem Untimed.no_timer (hu : Untimed w) (hs : w.Sound) (now : ℕ) :
    (w.sched.timerQueue_.popExpired now).2 = [] := by
  refine List.eq_nil_iff_forall_not_mem.2 fun key hkey => ?_
  obtain ⟨t, ht, -⟩ := TimerQueue.mem_popExpired.1 hkey
  obtain ⟨d, id, -, -, harmed⟩ := hs.inv.timers.own t key ht
  obtain ⟨req, hreq, htimeout⟩ := hs.timed key d harmed
  exact absurd htimeout (not_lt.2 (hu.timeouts _ hreq))

/-- A key comes to `expireds` by `popExpired` only. -/
theorem expireds_of_step {a : Action} (h : w.step a = some v) :
    v.expireds ⊆ w.expireds ∨ ∃ now, v.expireds = (w.sched.timerQueue_.popExpired now).2 := by
  cases effect_of_step h with
  | ignored a keys hkeys => exact Or.inl hkeys
  | popped now => exact Or.inr ⟨now, rfl⟩
  | expired key keys req hkeys hreq =>
    exact Or.inl (by rw [hkeys]; exact List.subset_cons_self _ _)
  | _ => exact Or.inl (List.Subset.refl _)

theorem Untimed.step (hu : Untimed w) (hs : w.Sound) {a : Action} (h : w.step a = some v)
    (htimeouts : ∀ x ∈ v.submissions, x.2.timeout ≤ 0) : Untimed v := by
  have hexpireds : v.expireds = [] := by
    rcases expireds_of_step h with hsub | ⟨now, heq⟩
    · rw [hu.expireds] at hsub
      exact List.subset_nil.1 hsub
    · rw [heq, hu.no_timer hs now]
  cases turn_of_step hs h with
  | submits req hq =>
    refine ⟨htimeouts, hexpireds, fun id hid => ?_, fun cqe hcqe => ?_, ?_⟩
    · rw [hq.pending, SortedMap.hasKey_insert]
      rw [Uring.flying, hq.inFlight, List.map_append] at hid
      rcases List.mem_append.1 hid with hid | hid
      · exact Or.inr (hu.flying id hid)
      · simp only [List.map_cons, IoRequest.sqe_user_data, List.map_nil,
          List.mem_singleton] at hid
        exact Or.inl hid
    · rw [hq.pending, SortedMap.hasKey_insert]
      rw [hq.cq] at hcqe
      exact Or.inr (hu.unseen cqe hcqe)
    · rw [hq.cq]
      exact hu.nodup
  | finishes id res hq =>
    refine ⟨htimeouts, hexpireds, fun id' hid => ?_, fun cqe hcqe => ?_, ?_⟩
    · rw [hq.pending]
      exact hu.flying id' ((hq.flying id').1 hid).2
    · rw [hq.pending]
      rw [hq.cq] at hcqe
      rcases List.mem_append.1 hcqe with hcqe | hcqe
      · exact hu.unseen cqe hcqe
      · rw [List.mem_singleton.1 hcqe]
        exact hu.flying id hq.was
    · -- an operation in flight has no entry yet
      rw [hq.cq, List.map_append, List.nodup_append]
      refine ⟨hu.nodup, List.nodup_singleton _, fun id' hid id'' hid'' => ?_⟩
      obtain ⟨cqe, hcqe, rfl⟩ := List.mem_map.1 hid
      rw [List.mem_singleton.1 hid'']
      exact fun heq => hs.kernel.unseen cqe hcqe (heq ▸ hq.was)
  | quiet hq =>
    have hcq : v.cq = w.cq := by
      rcases hq.cq with heq | ⟨cqe, heq, hzero⟩
      · exact heq
      · exact absurd hzero (hs.pos_of_pending (hu.unseen cqe (heq ▸ List.mem_cons_self)))
    refine ⟨htimeouts, hexpireds, ?_, ?_, ?_⟩
    · rw [hq.pending, Uring.flying, hq.inFlight]
      exact hu.flying
    · rw [hq.pending, hcq]
      exact hu.unseen
    · rw [hcq]
      exact hu.nodup
  | handsOut req o hq hcause =>
    obtain ⟨cqe, hcq, hid⟩ := hcause.resolve_right (by simp [hu.expireds])
    have hnodup := hu.nodup
    rw [hcq, List.map_cons, List.nodup_cons] at hnodup
    refine ⟨htimeouts, hexpireds, fun id' hid' => ?_, fun cqe' hcqe' => ?_, hnodup.2⟩
    · rw [hq.pending, SortedMap.hasKey_erase]
      rw [Uring.flying, hq.inFlight] at hid'
      refine ⟨?_, hu.flying id' hid'⟩
      rintro rfl
      exact hs.kernel.unseen cqe (hcq ▸ List.mem_cons_self) (hid ▸ hid')
    · rw [hq.pending, SortedMap.hasKey_erase]
      refine ⟨fun heq => hnodup.1 ?_, hu.unseen cqe' (hcq ▸ List.mem_cons_of_mem _ hcqe')⟩
      rw [hid, ← heq]
      exact List.mem_map_of_mem hcqe'

/-- The `while (true)` of `poll` finds each of its entries pending. -/
theorem Untimed.entriesPending (hu : Untimed w) : w.sched.EntriesPending w.cq := by
  have hsub : UringScheduler.leadingIds w.cq <+: w.cq.map Cqe.user_data :=
    List.takeWhile_prefix _
  refine ⟨hu.nodup.sublist hsub.sublist, fun id hid => ?_⟩
  obtain ⟨cqe, hcqe, rfl⟩ := List.mem_map.1 (hsub.subset hid)
  exact hu.unseen cqe hcqe

end Uring

namespace UringLoop

variable {A E F S : Type*} {p : Coroutine A E F S} {w v : UringLoop F S}

/-- What a step keeps of the ring, the loop keeps as long as fewer than `2 ^ 64` requests are
submitted. -/
theorem ring_invariant {I : Uring → Prop} (hnew : I Uring.new)
    (hstep : ∀ (w : Uring) a v, w.Sound → I w → w.step a = some v → I v)
    {bs : List (Action A E)} (hrun : run (step p) new bs = some w)
    (hlt : w.ring.submissions.length < 2 ^ 64) : w.ring.Sound ∧ I w.ring := by
  refine run_invariant
    (I := fun u => u.ring.submissions.length < 2 ^ 64 → u.ring.Sound ∧ I u.ring)
    (fun u b v hu hv hlt => ?_) (fun _ => ⟨Uring.sound_new, hnew⟩) hrun hlt
  obtain ⟨-, heffect⟩ := effect_of_step hv
  have hle := submissions_mono heffect
  obtain ⟨hs, hI⟩ := hu (by omega)
  rcases ring_of_effect heffect with heq | ⟨a, ha⟩
  · rw [heq]
    exact ⟨hs, hI⟩
  · exact ⟨hs.step ha hlt, hstep _ a _ hs hI ha⟩

/-- No suspended coroutine is forgotten, as far as runs are followed (up to `stray`) and below
`2 ^ 64` requests: its operation is in flight, or the entry of its operation is in the queue, or its
address is ready. -/
theorem no_wakeup_lost {bs : List (Action A E)} (hrun : run (step p) new bs = some w)
    (hlt : w.ring.submissions.length < 2 ^ 64) {h : Handle} {f : Frame S}
    (hf : w.frames h = some f) :
    f.id ∈ w.ring.flying ∨ (∃ cqe ∈ w.ring.cq, cqe.user_data = f.id) ∨
      ∃ o ∈ w.ready, o.id = f.id ∧ o.req.context = h := by
  obtain ⟨cs, t, -, -, hm⟩ := run_threads hrun hlt
  have haccounted := (ring_invariant Uring.accounted_new (fun _ _ _ hs ha h => ha.step hs h)
    hrun hlt).2
  rcases (hm.links.suspended h f hf).request with hp | ⟨⟨o, ho, hid⟩, -⟩
  · exact (haccounted f.id (SortedMap.hasKey_iff.2 ⟨_, hp.found⟩)).imp_right Or.inl
  · obtain ⟨g, hg, hgid⟩ := hm.links.addresses o ho
    exact Or.inr (Or.inr ⟨o, ho, hid, hm.links.eq_of_id hg hf (hgid.trans hid)⟩)

theorem no_wakeup_lost_readOnce :
    ∃ w f, run (step readOnce) new [.clear, .connect () () 100 0, .poll, .complete 0 2 [1, 2]] =
        some w ∧ w.frames 100 = some f ∧
      (f.id ∈ w.ring.flying ∨ (∃ cqe ∈ w.ring.cq, cqe.user_data = f.id) ∨
        ∃ o ∈ w.ready, o.id = f.id ∧ o.req.context = 100) := by
  have hrun : run (step readOnce) new
      [.clear, .connect () () 100 0, .poll, .complete 0 2 [1, 2]] = some _ := rfl
  exact ⟨_, _, hrun, rfl, no_wakeup_lost hrun (by decide) rfl⟩

/-! ## Coroutines without timeouts -/

/-- Some piece of the coroutine ends at this `co_await`. -/
def Awaits (p : Coroutine A E F S) (q : Await) : Prop :=
  (∃ a e s, (p.start a e).next = .awaits q s) ∨
    ∃ s e r s', (p.resume s e r).next = .awaits q s'

theorem submissions_of_settled {h : Handle} {n now : ℕ} {ran : Ran F Await S}
    (hv : Settled w h n ran now v) :
    v.ring.submissions = w.ring.submissions ∨ ∃ q s, ran.next = .awaits q s ∧
      v.ring.submissions = w.ring.submissions ++ [(w.ring.sched.ioIndex_, q.suspend h)] := by
  cases hv with
  | awaits q s ring hnext hring =>
    obtain ⟨ring', hring', hq⟩ := Uring.submits_of_op (w := w.ring) (q.suspend h) now
    cases hring.symm.trans hring'
    exact Or.inr ⟨q, s, hnext, hq.submissions⟩
  | ended hnext => exact Or.inl rfl
  | broken hnext => exact Or.inl rfl

/-- A step of the loop submits what a coroutine awaits, or nothing. -/
theorem submissions_of_effect {b : Action A E} (hs : w.ring.Sound) (hv : Effect p w b v) :
    v.ring.submissions = w.ring.submissions ∨ ∃ q h, Awaits p q ∧
      v.ring.submissions = w.ring.submissions ++ [(w.ring.sched.ioIndex_, q.suspend h)] := by
  cases hv with
  | connected a e h now v hpoint hfree hv =>
    rcases submissions_of_settled (settled_of_settle hv) with heq | ⟨q, s, hnext, heq⟩
    · exact Or.inl heq
    · exact Or.inr ⟨q, h, Or.inl ⟨a, e, s, hnext⟩, heq⟩
  | completed i res bytes sqe ring hsqe hres hring =>
    rw [completed_ring]
    exact Or.inl (Uring.step_complete hs.kernel hsqe hring).submissions
  | reaped point ring hpoint hring =>
    rw [handOver_ring]
    rcases Uring.step_reap hring with hq | ⟨_, _, _, -, hq, -⟩
    · exact Or.inl hq.submissions
    · exact Or.inl hq.submissions
  | popped now ring hring => exact Or.inl (Uring.step_popExpired hring).submissions
  | expired ring hpoint hring =>
    rw [handOver_ring]
    rcases Uring.step_expire hring with hq | ⟨_, _, _, -, hq, -⟩
    · exact Or.inl hq.submissions
    · exact Or.inl hq.submissions
  | resumed e now o os f v hready hpoint hf hv =>
    rcases submissions_of_settled (settled_of_settle hv) with heq | ⟨q, s, hnext, heq⟩
    · exact Or.inl heq
    · exact Or.inr ⟨q, o.req.context, Or.inr ⟨f.state, e, f.req, s, hnext⟩, heq⟩
  | _ => exact Or.inl rfl

theorem status_of_store (w : UringLoop F S) (h : Handle) (g : IoRequest → IoRequest) :
    (w.store h g).status = w.status ∨ (w.store h g).status = .dangling := by
  unfold store; split <;> simp

theorem status_of_handOver (w : UringLoop F S) (ring : Uring) :
    (w.handOver ring).status = w.status ∨ (w.handOver ring).status = .dangling := by
  unfold handOver
  split
  · exact Or.inl rfl
  · exact status_of_store _ _ _

theorem status_of_settled {h : Handle} {n now : ℕ} {ran : Ran F Await S}
    (hv : Settled w h n ran now v) : v.status = w.status ∨ v.status = .broken := by
  cases hv with
  | awaits q s ring hnext hring => exact Or.inl rfl
  | ended hnext => exact Or.inl rfl
  | broken hnext => exact Or.inr rfl

/-- Only an operation whose request is not pending can be stray. -/
theorem stray_of_effect {b : Action A E} (hs : w.ring.Sound) (hw : w.status = .running)
    (hv : Effect p w b v) (hstray : v.status = .stray) :
    ∃ id ∈ w.ring.flying, ¬ w.ring.sched.ioIndex2req_.HasKey id := by
  have hnot {u : UringLoop F S} {other : Status} (hother : other ≠ .stray)
      (hu : u.status = w.status ∨ u.status = other) : u.status ≠ .stray := by
    rcases hu with hu | hu <;> simp [hu, hw, hother]
  cases hv with
  | connected a e h now v hpoint hfree hv =>
    have hstatus := status_of_settled (settled_of_settle hv)
    exact absurd hstray (hnot (by simp) hstatus)
  | completed i res bytes sqe ring hsqe hres hring =>
    have hq := Uring.step_complete hs.kernel hsqe hring
    refine ⟨sqe.user_data, hq.was, ?_⟩
    rw [SortedMap.not_hasKey_iff, ← hq.pending]
    unfold completed at hstray
    split at hstray
    · exact absurd hstray (hnot (by simp) (status_of_store _ _ _))
    · assumption
  | reaped point ring hpoint hring =>
    exact absurd hstray (hnot (by simp) (status_of_handOver _ _))
  | expired ring hpoint hring =>
    exact absurd hstray (hnot (by simp) (status_of_handOver _ _))
  | lost e now o os hready hnone => simp at hstray
  | resumed e now o os f v hready hpoint hf hv =>
    have hstatus := status_of_settled (settled_of_settle hv)
    exact absurd hstray (hnot (by simp) hstatus)
  | _ => simp [hw] at hstray

theorem untimed_run (hp : ∀ q, Awaits p q → q.req.timeout ≤ 0) {bs : List (Action A E)}
    (hrun : run (step p) new bs = some w) (hlt : w.ring.submissions.length < 2 ^ 64) :
    w.ring.Sound ∧ w.ring.Untimed ∧ w.status ≠ .stray := by
  refine run_invariant
    (I := fun u => u.ring.submissions.length < 2 ^ 64 →
      u.ring.Sound ∧ u.ring.Untimed ∧ u.status ≠ .stray)
    (fun u b v hu hv hlt => ?_)
    (fun _ => ⟨Uring.sound_new, Uring.untimed_new, by simp [new]⟩) hrun hlt
  obtain ⟨hstatus, heffect⟩ := effect_of_step hv
  have hle := submissions_mono heffect
  obtain ⟨hs, huntimed, -⟩ := hu (by omega)
  have htimeouts : ∀ x ∈ v.ring.submissions, x.2.timeout ≤ 0 := by
    rcases submissions_of_effect hs heffect with heq | ⟨q, h, hq, heq⟩
    · rw [heq]
      exact huntimed.timeouts
    · rw [heq]
      intro x hx
      rcases List.mem_append.1 hx with hx | hx
      · exact huntimed.timeouts x hx
      · rw [List.mem_singleton.1 hx, Await.suspend_timeout]
        exact hp q hq
  refine ⟨?_, ?_, fun hstray => ?_⟩
  · rcases ring_of_effect heffect with heq | ⟨a, ha⟩
    · exact heq ▸ hs
    · exact hs.step ha hlt
  · rcases ring_of_effect heffect with heq | ⟨a, ha⟩
    · exact heq ▸ huntimed
    · exact huntimed.step hs ha htimeouts
  · obtain ⟨id, hid, hnot⟩ := stray_of_effect hs hstatus heffect hstray
    exact hnot (huntimed.flying id hid)

/-- Coroutines without timeouts: no operation outlives its request, no timer is ever popped, and
in every state the `while (true)` of `poll` looks at each entry in the queue exactly once, in
order, marks it seen and ends with an empty queue. -/
theorem untimed_poll_ends (hp : ∀ q, Awaits p q → q.req.timeout ≤ 0) {bs : List (Action A E)}
    (hrun : run (step p) new bs = some w) (hlt : w.ring.submissions.length < 2 ^ 64) :
    w.status ≠ .stray ∧ w.ring.expireds = [] ∧ ∀ ready, ∃ q,
      UringScheduler.pollLoop (w.ring.cq.length + 1) (.start w.ring.sched w.ring.cq ready) =
        some q ∧
      q.looked = List.range w.ring.cq.length ∧ q.seen = List.range w.ring.cq.length ∧
      q.cq = [] := by
  obtain ⟨hs, huntimed, hstray⟩ := untimed_run hp hrun hlt
  refine ⟨hstray, huntimed.expireds, fun ready => ?_⟩
  obtain ⟨q, n, hq, hlooked, hseen, hall⟩ := UringScheduler.pollLoop_ends
    (p := .start w.ring.sched w.ring.cq ready) huntimed.entriesPending
  -- no entry has `user_data == 0`: each belongs to a pending request, and ids start at 1
  obtain ⟨rfl, hempty⟩ := hall fun cqe hcqe => hs.pos_of_pending (huntimed.unseen cqe hcqe)
  refine ⟨q, hq, ?_, ?_, hempty⟩
  · simpa [UringScheduler.PollState.start, List.range_eq_range'] using hlooked
  · simpa [UringScheduler.PollState.start, List.range_eq_range'] using hseen

end UringLoop

end CoUringWeb
