import CoUringWeb.Core.EpollExpiry

/-!
# Stale request pointers in `EpollScheduler`

`ioIndex2req_` keeps the addresses of requests that their coroutines own, so an entry may not
outlive the push of its context.  `Forgets` says that none does, and that the timer queue knows
only ids of entries.  Immediate results never enter the map, and the event loop erases what it
pushes; two paths do not: a failing `epoll_ctl` pushes a context right after its entry was made,
and the expiry loop pushes the contexts of entries it leaves in the map.
-/

namespace CoUringWeb

open Machine Transition

namespace EpollScheduler

/-- `pushed` are the numbers and `ids` the ids of the requests whose contexts were pushed. -/
structure Forgets (s : EpollScheduler) (pushed ids : List ℕ) : Prop where
  wf : s.timerQueue_.Wf
  paired : s.timerQueue_.Paired
  timed : ∀ id, s.timerQueue_.key2timeid_.HasKey id →
    ∃ p, s.ioIndex2req_.find id = some p ∧ p.req.timeout > 0
  pointers : ∀ id p, s.ioIndex2req_.find id = some p → p.number ∉ pushed
  forgotten : ∀ id ∈ ids, ¬ s.ioIndex2req_.HasKey id

variable {s : EpollScheduler} {pushed ids : List ℕ} {n : ℕ}

theorem forgets_new : Forgets new [] [] where
  wf := TimerQueue.wf_empty
  paired := TimerQueue.paired_empty
  timed id h := by simp [new, TimerQueue.empty, SortedMap.HasKey] at h
  pointers id p h := List.not_mem_nil
  forgotten id hid := by simp at hid

/-- The timer queue does not know the id of a request that was pushed. -/
theorem Forgets.not_timed (h : Forgets s pushed ids) {id : ℕ} (hid : id ∈ ids) :
    ¬ s.timerQueue_.key2timeid_.HasKey id ∧ ¬ s.timerQueue_.Live id := by
  have hkey : ¬ s.timerQueue_.key2timeid_.HasKey id := fun hkey => by
    obtain ⟨p, hp, -⟩ := h.timed id hkey
    exact h.forgotten id hid (SortedMap.hasKey_iff.2 ⟨p, hp⟩)
  refine ⟨hkey, ?_⟩
  rintro ⟨t, ht⟩
  obtain ⟨d, i, hfind, -, -⟩ := h.wf.own t id ht
  exact hkey (SortedMap.hasKey_iff.2 ⟨_, hfind⟩)

theorem Forgets.complete (h : Forgets s pushed ids) (hnew : ∀ id p,
      s.ioIndex2req_.find id = some p → p.number < n) (p : ReqPtr) (retCode : ℤ)
    (sent : List Segment) : Forgets (s.complete p retCode sent).sched (pushed ++ [n]) ids := by
  refine { h with pointers := fun id q hq hmem => ?_ }
  rcases List.mem_append.1 hmem with hmem | hmem
  · exact h.pointers id q hq hmem
  · exact (hnew id q hq).ne (List.mem_singleton.1 hmem)

theorem Forgets.added (h : Forgets s pushed ids) (hfresh : ¬ s.ioIndex2req_.HasKey s.ioIndex_)
    (hunused : s.ioIndex_ ∉ ids) (hn : n ∉ pushed)
    (hword : ∀ d, ¬ s.timerQueue_.timeid2key_.HasKey (TimerQueue.timeid d s.timerQueue_.index_))
    (req : IoRequest) (sent : List Segment) (fd : ℕ) (events : Interest) (now : ℕ) :
    Forgets (s.added n req sent fd events now).sched pushed ids := by
  have hfind : ∀ id p, s.ioIndex2req_.find id = some p →
      (s.added n req sent fd events now).sched.ioIndex2req_.find id = some p := by
    intro id p hp
    refine (SortedMap.find_insert_eq_some hfresh).2 (Or.inr ⟨fun heq => ?_, hp⟩)
    exact hfresh (SortedMap.hasKey_iff.2 ⟨p, heq ▸ hp⟩)
  refine ⟨?_, ?_, fun id hid => ?_, fun id p hp => ?_, fun id hid hkey => ?_⟩
  · simp only [EpollScheduler.added]
    split
    · exact TimerQueue.add_wf h.wf _ _
    · exact h.wf
  · simp only [EpollScheduler.added]
    split
    · exact h.paired.add (hword _)
    · exact h.paired
  · have hcases : s.timerQueue_.key2timeid_.HasKey id ∨ (id = s.ioIndex_ ∧ req.timeout > 0) := by
      simp only [EpollScheduler.added] at hid
      split at hid
      · rename_i htimeout
        exact (TimerQueue.hasKey_add hid).symm.imp_right fun heq => ⟨heq, htimeout⟩
      · exact Or.inl hid
    rcases hcases with hold | ⟨rfl, htimeout⟩
    · obtain ⟨p, hp, htimeout⟩ := h.timed id hold
      exact ⟨p, hfind id p hp, htimeout⟩
    · exact ⟨_, (SortedMap.find_insert_eq_some hfresh).2 (Or.inl ⟨rfl, rfl⟩), htimeout⟩
  · rcases (SortedMap.find_insert_eq_some hfresh).1 hp with ⟨-, rfl⟩ | ⟨-, hold⟩
    · exact hn
    · exact h.pointers id p hold
  · rcases SortedMap.hasKey_insert.1 hkey with rfl | hold
    · exact hunused hid
    · exact h.forgotten id hid hold

/-- The event loop forgets the request it pushes. -/
theorem Forgets.finish (h : Forgets s pushed ids)
    (hinjective : ∀ id id' p p', s.ioIndex2req_.find id = some p →
      s.ioIndex2req_.find id' = some p' → p.number = p'.number → id = id')
    {e : Event} {p : ReqPtr} (hp : s.ioIndex2req_.find e.data = some p) (retCode : ℤ)
    (sent : List Segment) :
    Forgets (s.finish e p retCode sent).sched (pushed ++ [p.number]) (ids ++ [e.data]) := by
  refine ⟨?_, ?_, fun id hid => ?_, fun id q hq hmem => ?_, fun id hid hkey => ?_⟩
  · simp only [EpollScheduler.finish]
    split
    · exact TimerQueue.remove_wf h.wf _
    · exact h.wf
  · simp only [EpollScheduler.finish]
    split
    · exact h.paired.remove _
    · exact h.paired
  · have hcases : s.timerQueue_.key2timeid_.HasKey id ∧ id ≠ e.data := by
      simp only [EpollScheduler.finish] at hid
      split at hid
      · refine ⟨TimerQueue.hasKey_remove hid, ?_⟩
        rintro rfl
        exact h.paired.not_hasKey_remove _ hid
      · rename_i htimeout
        refine ⟨hid, ?_⟩
        rintro rfl
        obtain ⟨p', hp', htimeout'⟩ := h.timed _ hid
        cases hp.symm.trans hp'
        exact htimeout htimeout'
    obtain ⟨q, hq, htimeout⟩ := h.timed id hcases.1
    exact ⟨q, SortedMap.find_erase_eq_some.2 ⟨hcases.2, hq⟩, htimeout⟩
  · obtain ⟨hne, hold⟩ := SortedMap.find_erase_eq_some.1 hq
    rcases List.mem_append.1 hmem with hmem | hmem
    · exact h.pointers id q hold hmem
    · exact hne (hinjective id e.data q p hold hp (List.mem_singleton.1 hmem))
  · obtain ⟨hne, hold⟩ := SortedMap.hasKey_erase.1 hkey
    rcases List.mem_append.1 hid with hid | hid
    · exact h.forgotten id hid hold
    · exact hne (List.mem_singleton.1 hid)

theorem Forgets.assign (h : Forgets s pushed ids) {id : ℕ} {p : ReqPtr}
    (hp : s.ioIndex2req_.find id = some p) (retCode : ℤ) :
    Forgets
      { s with
        ioIndex2req_ := s.ioIndex2req_.insertOrAssign id
          { p with req := { p.req with retCode := retCode } } } pushed ids := by
  refine { h with timed := fun id' hid' => ?_, pointers := fun id' q hq => ?_,
                  forgotten := fun id' hid' hkey => ?_ }
  · exact timed_assign hp retCode (h.timed id' hid')
  · rcases SortedMap.find_insertOrAssign_eq_some.1 hq with ⟨rfl, rfl⟩ | ⟨-, hold⟩
    · exact h.pointers id' p hp
    · exact h.pointers id' q hold
  · exact h.forgotten id' hid' ((shrinks_assign hp _).subset id' hkey)

theorem Forgets.handleEvent (h : Forgets s pushed ids)
    (hinjective : ∀ id id' p p', s.ioIndex2req_.find id = some p →
      s.ioIndex2req_.find id' = some p' → p.number = p'.number → id = id')
    {e : Event} {r : EventResult} (hr : s.handleEvent e = some r) :
    Forgets r.sched (pushed ++ r.queued.map Queued.number)
      (ids ++ r.queued.filterMap Queued.id) := by
  rcases handleEvent_cases hr with
    ⟨hs, hq, -⟩ | ⟨p, retCode, sent, hp, rfl⟩ | ⟨p, retCode, hp, hq, -, hs⟩
  · simpa [hs, hq] using h
  · exact h.finish hinjective hp retCode sent
  · rw [hs, hq]
    simpa using h.assign hp retCode

theorem Forgets.handleEvents {timedOut reportable : List ℕ} (h : Forgets s pushed ids)
    (honce : Once s n pushed timedOut reportable []) {events : List Event} {r : EventResult}
    (hreported : ∀ e ∈ events, e.data ∈ reportable) (hlate : ∀ e ∈ events, e.data ∉ timedOut)
    (hr : s.handleEvents events = some r) :
    Forgets r.sched (pushed ++ r.queued.map Queued.number)
      (ids ++ r.queued.filterMap Queued.id) := by
  induction events generalizing s pushed ids r with
  | nil =>
    cases hr
    simpa using h
  | cons e es ih =>
    obtain ⟨r₁, r₂, hr₁, hr₂, rfl⟩ := handleEvents_cons_eq_some hr
    rw [List.forall_mem_cons] at hreported hlate
    have hfirst := h.handleEvent honce.injective hr₁
    have hrest := ih hfirst (honce.handleEvent hreported.1 hlate.1 hr₁) hreported.2 hlate.2 hr₂
    simpa using hrest

/-- A `poll` whose expiry loop finds nothing. -/
theorem Forgets.poll {t : EventResult} {now : ℕ} {r : PollResult} (h : Forgets t.sched pushed ids)
    (hpoll : IsPoll t now r)
    (hnone : ∀ id ∈ (t.sched.timerQueue_.popExpired now).2, ¬ t.sched.ioIndex2req_.HasKey id) :
    Forgets r.sched pushed ids := by
  have hfind : ∀ id, r.sched.ioIndex2req_.find id = t.sched.ioIndex2req_.find id := by
    intro id
    rw [hpoll.find_eq]
    by_cases hid : id ∈ (t.sched.timerQueue_.popExpired now).2
    · rw [SortedMap.not_hasKey_iff.1 (hnone id hid), Option.map_none]
    · simp [hid]
  refine ⟨?_, ?_, fun id hid => ?_, fun id p hp => ?_, fun id hid hkey => ?_⟩
  · exact hpoll.timerQueue_eq ▸ TimerQueue.popExpired_wf h.wf now
  · exact hpoll.timerQueue_eq ▸ h.paired.popExpired now
  · rw [hpoll.timerQueue_eq] at hid
    rw [hfind]
    exact h.timed id (TimerQueue.hasKey_popExpired hid).1
  · exact h.pointers id p (hfind id ▸ hp)
  · exact h.forgotten id hid (by rwa [SortedMap.HasKey, hfind] at hkey)

/-! ## Ids -/

/-- The event loop pushes the requests of ids it finds. -/
theorem hasKey_of_handleEvents {events : List Event} {r : EventResult}
    (hr : s.handleEvents events = some r) :
    ∀ q ∈ r.queued, ∀ id ∈ q.id, s.ioIndex2req_.HasKey id := by
  induction events generalizing s r with
  | nil =>
    cases hr
    simp
  | cons e es ih =>
    obtain ⟨r₁, r₂, hr₁, hr₂, rfl⟩ := handleEvents_cons_eq_some hr
    intro q hq id hid
    rcases List.mem_append.1 hq with hq | hq
    · rcases handleEvent_cases hr₁ with
        ⟨-, hnone, -⟩ | ⟨p, retCode, sent, hp, rfl⟩ | ⟨p, retCode, hp, hnone, -, -⟩
      · simp [hnone] at hq
      · cases List.mem_singleton.1 hq
        cases hid
        exact SortedMap.hasKey_iff.2 ⟨p, hp⟩
      · simp [hnone] at hq
    · exact (shrinks_handleEvent hr₁).subset id (ih hr₂ q hq id hid)

end EpollScheduler

/-! ## Runs -/

namespace Epoll

open EpollScheduler

/-- No address in `ioIndex2req_` is that of a request whose context was pushed, and the id of such a
request is in neither map. -/
structure Forgotten (w : Epoll) : Prop where
  pointers : ∀ id p, w.sched.ioIndex2req_.find id = some p → p.number ∉ w.queuedNumbers
  ids : ∀ q ∈ w.queued, ∀ id ∈ q.id, ¬ w.sched.ioIndex2req_.HasKey id ∧
    ¬ w.sched.timerQueue_.key2timeid_.HasKey id ∧ ¬ w.sched.timerQueue_.Live id

/-- A request that has to wait is registered. -/
def AddSucceeds (w : Epoll) : Action → Prop
  | .read _ readsz add _ => readsz = .eagain → add = true
  | .write req results add _ => Waits { number := w.requests, req := req } results → add = true
  | _ => True

/-- The next id belonged to no request before, and the word of its timer is free. -/
def NeverUsed (w : Epoll) (a : Action) : Prop :=
  a.Submits → w.sched.ioIndex_ ∉ w.queued.filterMap Queued.id ∧
    ∀ e ∈ w.sched.timerQueue_.timeid2key_.entries, e.1 % 2 ^ 32 ≠ w.sched.timerQueue_.index_

instance (w : Epoll) : ∀ a, Decidable (AddSucceeds w a)
  | .read _ readsz add _ => inferInstanceAs (Decidable (readsz = .eagain → add = true))
  | .write req results add _ =>
    inferInstanceAs (Decidable (Waits { number := w.requests, req := req } results → add = true))
  | .poll _ _ => .isTrue trivial
  | .resume => .isTrue trivial
  | .close _ => .isTrue trivial

instance (w : Epoll) (a : Action) : Decidable (NeverUsed w a) :=
  inferInstanceAs (Decidable (a.Submits → _))

/-- No request has timed out, and what was pushed is forgotten. -/
structure Forgetting (w : Epoll) : Prop extends Untimed w where
  forgets : w.sched.Forgets w.queuedNumbers (w.queued.filterMap Queued.id)

theorem forgetting_new : Forgetting new := ⟨untimed_new, forgets_new⟩

theorem Forgetting.forgotten {w : Epoll} (h : Forgetting w) : Forgotten w where
  pointers := h.forgets.pointers
  ids q hq id hid := by
    have hmem : id ∈ w.queued.filterMap Queued.id := List.mem_filterMap.2 ⟨q, hq, hid⟩
    exact ⟨h.forgets.forgotten id hmem, h.forgets.not_timed hmem⟩

/-- The word of the next timer is free. -/
theorem Forgetting.word_free {w : Epoll} (h : Forgetting w) {a : Action} (ha : a.Submits)
    (hunused : NeverUsed w a) (d : ℕ) : ¬ w.sched.timerQueue_.timeid2key_.HasKey
      (TimerQueue.timeid d w.sched.timerQueue_.index_) :=
  TimerQueue.not_hasKey_timeid h.forgets.wf.index_lt
    (fun _ _ hfind => (hunused ha).2 _ (SortedMap.mem_entries.2 hfind)) d

theorem filterMap_called (w : Epoll) (r : CallResult) :
    (w.called r).queued.filterMap Queued.id =
      w.queued.filterMap Queued.id ++ (r.queued.bind Queued.id).toList := by
  cases hq : r.queued with
  | none => simp [called, hq]
  | some q => cases hid : q.id <;> simp [called, hq, hid]

/-- The request completes at once. -/
theorem Forgetting.complete {w : Epoll} (h : Forgetting w) (p : ReqPtr) (retCode : ℤ)
    (sent : List Segment) (hn : p.number = w.requests) :
    (w.sched.complete p retCode sent).sched.Forgets
      (w.called (w.sched.complete p retCode sent)).queuedNumbers
      ((w.called (w.sched.complete p retCode sent)).queued.filterMap Queued.id) := by
  rw [queuedNumbers_called, filterMap_called]
  simpa [EpollScheduler.complete, hn] using h.forgets.complete h.once.number_lt p retCode sent

/-- The request has to wait and is registered. -/
theorem Forgetting.added {w : Epoll} (h : Forgetting w) {a : Action} (ha : a.Submits)
    (hfresh : FreshId w a) (hunused : NeverUsed w a) (req : IoRequest) (sent : List Segment)
    (fd : ℕ) (events : Interest) (now : ℕ) :
    (w.sched.added w.requests req sent fd events now).sched.Forgets
      (w.called (w.sched.added w.requests req sent fd events now)).queuedNumbers
      ((w.called (w.sched.added w.requests req sent fd events now)).queued.filterMap
        Queued.id) := by
  rw [queuedNumbers_called, filterMap_called]
  simpa [EpollScheduler.added] using h.forgets.added (hfresh ha).1 (hunused ha).1
    h.once.new_not_pushed (h.word_free ha hunused) req sent fd events now

theorem Forgetting.poll {w : Epoll} (h : Forgetting w) {events : List Event} {now : ℕ}
    {r : PollResult} (hreported : ∀ e ∈ events, e.data ∈ w.registered)
    (hexpiry : NoExpiry w (.poll events now)) (hr : w.sched.poll events now [] = some r) :
    r.sched.Forgets (w.polled r).queuedNumbers ((w.polled r).queued.filterMap Queued.id) := by
  obtain ⟨t, ht, hpoll⟩ := poll_isPoll hr
  have hevents := h.forgets.handleEvents h.once hreported (fun e _ => h.not_late e.data) ht
  have hkept := hevents.poll hpoll (hexpiry t ht)
  rw [queuedNumbers_polled]
  simpa [polled, hpoll.queued_eq, hpoll.expired_eq_nil (hexpiry t ht)] using hkept

theorem Forgetting.noExpiry_iff {w : Epoll} (h : Forgetting w) (a : Action) :
    NoExpiry w a ↔ InTime w a := noExpiry_iff_inTime h.forgets.paired a

theorem forgetting_step {w v : Epoll} {a : Action} (h : Forgetting w)
    (ha : FreshId w a ∧ NeverUsed w a) (hP : AddSucceeds w a ∧ InTime w a)
    (hv : step w a = some v) : Forgetting v := by
  have hexpiry := (h.noExpiry_iff a).2 hP.2
  refine ⟨h.toUntimed.step ha.1 hexpiry (effect_of_step hv), ?_⟩
  obtain ⟨hfresh, hunused⟩ := ha
  cases a with
  | read req readsz add now =>
    obtain ⟨r, hr, rfl⟩ := step_read hv
    obtain ⟨-, ⟨-, retCode, rfl⟩ | ⟨-, -, rfl⟩ | ⟨hwaits, hadd, -⟩⟩ := handleRead_cases hr
    · exact h.complete _ _ _ rfl
    · exact h.added (by trivial) hfresh hunused _ _ _ _ _
    · cases hadd.symm.trans (hP.1 hwaits)
  | write req results add now =>
    obtain ⟨r, hr, rfl⟩ := step_write hv
    obtain ⟨-, o, ho, ⟨retCode, -, rfl⟩ | ⟨retCode, -, -, rfl⟩ | ⟨retCode, hend, hadd, -⟩⟩ :=
      handleWrite_cases hr
    · exact h.complete _ _ _ rfl
    · exact h.added (by trivial) hfresh hunused _ _ _ _ _
    · cases hadd.symm.trans (hP.1 ⟨o, ho, retCode, hend⟩)
  | poll events now =>
    obtain ⟨⟨-, -, hreported⟩, ⟨-, rfl⟩ | ⟨r, hr, rfl⟩⟩ := step_poll hv
    · exact h.forgets
    · exact h.poll hreported hexpiry hr
  | resume =>
    obtain ⟨c, cs, -, rfl⟩ := step_resume hv
    exact h.forgets
  | close fd =>
    obtain rfl := step_close hv
    exact h.forgets

/-! ### Steps that leave an entry behind -/

/-- The entry of a request whose registration failed stays. -/
theorem not_forgotten_of_addFailed {w : Epoll} (hfresh : ¬ w.sched.ioIndex2req_.HasKey
    w.sched.ioIndex_) (req : IoRequest) (sent : List Segment) :
    ¬ Forgotten (w.called (w.sched.addFailed w.requests req sent)) := by
  intro hforgotten
  refine hforgotten.pointers w.sched.ioIndex_ { number := w.requests, req := req }
    ((SortedMap.find_insert_eq_some hfresh).2 (Or.inl ⟨rfl, rfl⟩)) ?_
  rw [queuedNumbers_called]
  simp [EpollScheduler.addFailed]

/-- The entry of a request that the expiry loop finds stays. -/
theorem not_forgotten_of_poll {w v : Epoll} {events : List Event} {now : ℕ}
    (hexpiry : ¬ NoExpiry w (.poll events now)) (hv : step w (.poll events now) = some v) :
    ¬ Forgotten v := by
  simp only [NoExpiry, not_forall, not_not] at hexpiry
  obtain ⟨t, ht, id, hid, hkey⟩ := hexpiry
  obtain ⟨p, hp⟩ := SortedMap.hasKey_iff.1 hkey
  obtain ⟨-, ⟨hnone, -⟩ | ⟨r, hr, rfl⟩⟩ := step_poll hv
  · simp [EpollScheduler.poll, Option.mem_def.1 ht] at hnone
  obtain ⟨t', ht', hpoll⟩ := poll_isPoll hr
  cases Option.some_inj.1 (ht'.symm.trans ht)
  intro hforgotten
  refine hforgotten.pointers id (ReqPtr.expired p) ?_ ?_
  · have hfind := hpoll.find_eq id
    rwa [hp, Option.map_some, if_pos hid] at hfind
  · rw [queuedNumbers_polled]
    exact List.mem_append_right _ (List.mem_map_of_mem (hpoll.mem_expired hid hp))

theorem not_forgotten_of_step {w v : Epoll} {a : Action} (h : Forgetting w) (hfresh : FreshId w a)
    (hP : ¬ (AddSucceeds w a ∧ InTime w a)) (hv : step w a = some v) : ¬ Forgotten v := by
  cases a with
  | read req readsz add now =>
    have hadd : ¬ (readsz = .eagain → add = true) := fun hadd => hP ⟨hadd, trivial⟩
    obtain ⟨r, hr, rfl⟩ := step_read hv
    obtain ⟨-, ⟨hwaits, -⟩ | ⟨-, hadd', -⟩ | ⟨-, -, rfl⟩⟩ := handleRead_cases hr
    · exact absurd (fun heagain => absurd heagain hwaits) hadd
    · exact absurd (fun _ => hadd') hadd
    · exact not_forgotten_of_addFailed (hfresh trivial).1 _ _
  | write req results add now =>
    have hadd : ¬ (Waits { number := w.requests, req := req } results → add = true) :=
      fun hadd => hP ⟨hadd, trivial⟩
    obtain ⟨r, hr, rfl⟩ := step_write hv
    obtain ⟨-, o, ho, ⟨c, hend, -⟩ | ⟨-, -, hadd', -⟩ | ⟨-, -, -, rfl⟩⟩ := handleWrite_cases hr
    · refine absurd (fun hwaits => ?_) hadd
      obtain ⟨o', ho', c', hend'⟩ := hwaits
      cases Option.some_inj.1 (ho'.symm.trans ho)
      cases hend'.symm.trans hend
    · exact absurd (fun _ => hadd') hadd
    · exact not_forgotten_of_addFailed (hfresh trivial).1 _ _
  | poll events now =>
    exact not_forgotten_of_poll (fun hexpiry => hP ⟨trivial, (h.noExpiry_iff _).1 hexpiry⟩) hv
  | _ => exact absurd ⟨trivial, trivial⟩ hP

/-! ### Ids and timers below the counters -/

/-- Every id that was pushed is below `ioIndex_`, and the timers were made from old indices. -/
structure Numbered (w : Epoll) : Prop where
  counted : Counted w
  timers : Timers w
  queued_lt : ∀ id ∈ w.queued.filterMap Queued.id, id < w.sched.ioIndex_

theorem numbered_new : Numbered new where
  counted := counted_new
  timers := timers_new
  queued_lt id hid := by simp [new] at hid

theorem Numbered.queued_called {w : Epoll} (h : Numbered w) {r : CallResult}
    (hr : w.sched.IsCall w.requests r) (hlt : w.requests + 1 < 2 ^ 64) :
    ∀ id ∈ (w.called r).queued.filterMap Queued.id, id < (w.called r).sched.ioIndex_ := by
  have hindex := h.counted.index_le
  have hnext : uint64 (w.sched.ioIndex_ + 1) = w.sched.ioIndex_ + 1 := uint64_of_lt (by omega)
  intro id hid
  rw [filterMap_called] at hid
  cases hr with
  | complete req retCode sent => exact h.queued_lt id (by simpa [EpollScheduler.complete] using hid)
  | added req sent fd events now =>
    simp only [Epoll.called, EpollScheduler.added, hnext]
    exact Nat.lt_succ_of_lt (h.queued_lt id (by simpa [EpollScheduler.added] using hid))
  | addFailed req sent =>
    simp only [Epoll.called, EpollScheduler.addFailed, hnext]
    have hmem : id ∈ w.queued.filterMap Queued.id ∨ id = w.sched.ioIndex_ := by
      simpa [EpollScheduler.addFailed] using hid
    rcases hmem with hid | rfl
    · exact Nat.lt_succ_of_lt (h.queued_lt id hid)
    · exact Nat.lt_succ_self _

theorem Numbered.queued_polled {w : Epoll} (h : Numbered w) {events : List Event} {now : ℕ}
    {r : PollResult} (hr : w.sched.poll events now [] = some r) :
    ∀ id ∈ (w.polled r).queued.filterMap Queued.id, id < (w.polled r).sched.ioIndex_ := by
  obtain ⟨t, ht, hpoll⟩ := poll_isPoll hr
  have hindex : (w.polled r).sched.ioIndex_ = w.sched.ioIndex_ := (shrinks_poll hr).index_eq
  intro id hid
  rw [hindex]
  obtain ⟨q, hq, hid⟩ := List.mem_filterMap.1 hid
  simp only [Epoll.polled, List.mem_append] at hq
  rcases hq with (hq | hq) | hq
  · exact h.queued_lt id (List.mem_filterMap.2 ⟨q, hq, hid⟩)
  · exact h.counted.pending id (hasKey_of_handleEvents ht q (hpoll.queued_eq ▸ hq) id hid)
  · rw [hpoll.expired_eq] at hq
    obtain ⟨id', -, hq⟩ := List.mem_filterMap.1 hq
    obtain ⟨p, hp, rfl⟩ := Option.map_eq_some_iff.1 hq
    cases hid
    exact h.counted.pending id
      ((shrinks_handleEvents ht).subset id (SortedMap.hasKey_iff.2 ⟨p, hp⟩))

theorem Numbered.step {w v : Epoll} {a : Action} (h : Numbered w) (hlt : v.requests < 2 ^ 32)
    (hv : Effect w a v) : Numbered v := by
  refine ⟨h.counted.step (by omega) hv, h.timers.step hlt hv, ?_⟩
  cases hv with
  | called a ha r hr =>
    have hlt : w.requests + 1 < 2 ^ 32 := hlt
    exact h.queued_called hr (by omega)
  | polled events now r hreported hr => exact h.queued_polled hr
  | aborted a => exact h.queued_lt
  | resumed h' hs => exact h.queued_lt
  | closed fd => exact h.queued_lt

theorem Numbered.neverUsed {w : Epoll} (h : Numbered w) (a : Action) : NeverUsed w a := by
  refine fun _ => ⟨fun hmem => (h.queued_lt _ hmem).ne rfl, fun e he => ?_⟩
  exact (h.timers.word_lt e.1 e.2 (SortedMap.mem_entries.1 he)).ne

/-- With fewer than `2 ^ 32` requests no id and no timer's word is used twice. -/
theorem always_neverUsed {as : List Action} {w : Epoll} (hrun : run step new as = some w)
    (hlt : w.requests < 2 ^ 32) : Always step (fun u a => FreshId u a ∧ NeverUsed u a) new as :=
  always_of_lt (fun _ _ _ hv => requests_le (effect_of_step hv))
    (fun _ _ _ hu hv hlt => hu.step hlt (effect_of_step hv))
    (fun _ a hu _ => ⟨hu.counted.fresh a, hu.neverUsed a⟩) numbered_new hrun hlt

/-- No request that was pushed is left in one of the maps in any state of a run exactly when
`epoll_ctl` never fails for a request that has to wait and the events of each `poll` finish every
request whose timer has run out.  That no id is used twice always holds below `2 ^ 32` requests. -/
theorem forgotten_iff {as : List Action} {w : Epoll} (hrun : run step new as = some w) :
    (Always step (fun u a => FreshId u a ∧ NeverUsed u a) new as →
      ((∀ bs u, bs <+: as → run step new bs = some u → Forgotten u) ↔
        Always step (fun u a => AddSucceeds u a ∧ InTime u a) new as)) ∧
    (w.requests < 2 ^ 32 → Always step (fun u a => FreshId u a ∧ NeverUsed u a) new as) := by
  refine ⟨fun hunused => ?_, always_neverUsed hrun⟩
  exact forall_prefix_iff_always (fun u hu => Forgetting.forgotten hu)
    (fun u a v hu ha hP hv => forgetting_step hu ha hP hv)
    (fun u a v hu ha hP hv => not_forgotten_of_step hu ha.1 hP hv) forgetting_new hunused hrun

/-- A read that waits with a timer, and its data; a second read fails at once. -/
def twoReads : List Action :=
  [.read { capicaty := 8, fd := 3, context := 100, op := .OP_READ, timeout := 10 } .eagain true 0,
    .read { capicaty := 8, fd := 4, context := 200, op := .OP_READ, timeout := 10 } .error true 0,
    .poll [{ epollin := true, epollout := false, data := 0, first := .count 5 }] 20]

theorem forgotten_iff_twoReads :
    ∃ w, run step new twoReads = some w ∧ w.queuedNumbers = [1, 0] ∧ Forgotten w := by
  refine ⟨_, rfl, by decide, ?_⟩
  have hrun : run step new twoReads = some _ := rfl
  have hiff := (forgotten_iff hrun).1 (by decide)
  exact hiff.2 (by decide) _ _ (List.prefix_refl _) hrun

/-- A read whose `epoll_ctl` fails is pushed, and its address stays in `ioIndex2req_`. -/
theorem addFailed_stays :
    ∃ as w, Always step (fun u a => FreshId u a ∧ NeverUsed u a) new as ∧
      run step new as = some w ∧ ¬ Forgotten w := by
  refine ⟨[.read { capicaty := 8, fd := 3, context := 100, op := .OP_READ } .eagain false 0], _,
    by decide, rfl, fun hforgotten => ?_⟩
  exact hforgotten.pointers 0 _ rfl (by decide)

end Epoll

end CoUringWeb
