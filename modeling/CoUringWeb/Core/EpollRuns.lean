import CoUringWeb.Core.Epoll
import CoUringWeb.Framework.Transition

/-!
# Runs of `Scheduler::loop` over `EpollScheduler`

A run interleaves calls of `handleRead` and `handleWrite`, whole calls of `poll`, resumptions of
the contexts that `poll` left in `readyHandleAddrs`, and closed descriptors.  The system calls may
answer anything; `epoll_wait` reports only ids that are registered.

`queued` records every context pushed for resumption, on `completedHandleAddrs_` or on
`readyHandleAddrs`, and `timedOut` the ids the expiry loop pushed.

The invariant `Once` says that a request whose context was pushed is never found again, with one
exception: a request pushed by the expiry loop stays in `ioIndex2req_` and registered with epoll.
An event for such an id (`NoLateEvent` excludes them) pushes its context a second time.
-/

namespace CoUringWeb

open Machine Transition

/-! ## The system -/

/-- The scheduler, the epoll set, `readyHandleAddrs` of `Scheduler::loop`, and the history. -/
structure Epoll where
  sched : EpollScheduler
  epollset : List Registration
  ready : List Handle
  resumed : List Handle
  /-- the number of calls of `handleRead` and `handleWrite` -/
  requests : ℕ
  sent : List Segment
  queued : List Queued
  timedOut : List ℕ
  /-- an assertion failed -/
  aborted : Bool
  deriving DecidableEq

namespace Epoll

inductive Action where
  | read (req : IoRequest) (readsz : IoResult) (add : Bool) (now : ℕ)
  | write (req : IoRequest) (results : List IoResult) (add : Bool) (now : ℕ)
  | poll (events : List Event) (now : ℕ)
  /-- `Scheduler::loop` resumes the next ready coroutine -/
  | resume
  /-- a coroutine closes a descriptor; epoll forgets it -/
  | close (fd : ℕ)
  deriving DecidableEq, Repr

def new : Epoll :=
  { sched := EpollScheduler.new, epollset := [], ready := [], resumed := [], requests := 0
    sent := [], queued := [], timedOut := [], aborted := false }

/-- The ids registered with epoll. -/
def registered (w : Epoll) : List ℕ := w.epollset.map Registration.data

/-- The numbers of the requests whose contexts were pushed, in order. -/
def queuedNumbers (w : Epoll) : List ℕ := w.queued.map Queued.number

/-- The state after a call of `handleRead` or `handleWrite`. -/
def called (w : Epoll) (r : EpollScheduler.CallResult) : Epoll :=
  { w with
    sched := r.sched
    epollset := w.epollset ++ r.registered.toList
    requests := w.requests + 1
    sent := w.sent ++ r.sent
    queued := w.queued ++ r.queued.toList }

/-- The state after a call of `poll`. -/
def polled (w : Epoll) (r : EpollScheduler.PollResult) : Epoll :=
  { w with
    sched := r.sched
    epollset := w.epollset.filter fun g => g.fd ∉ r.deleted
    ready := r.ready
    sent := w.sent ++ r.sent
    queued := w.queued ++ r.queued ++ r.expired
    timedOut := w.timedOut ++ r.expired.filterMap Queued.id }

theorem registered_called (w : Epoll) (r : EpollScheduler.CallResult) :
    (w.called r).registered = w.registered ++ (r.registered.map Registration.data).toList := by
  cases hg : r.registered <;> simp [called, registered, hg]

theorem queuedNumbers_called (w : Epoll) (r : EpollScheduler.CallResult) :
    (w.called r).queuedNumbers = w.queuedNumbers ++ (r.queued.map Queued.number).toList := by
  cases hq : r.queued <;> simp [called, queuedNumbers, hq]

theorem queuedNumbers_polled (w : Epoll) (r : EpollScheduler.PollResult) :
    (w.polled r).queuedNumbers =
      w.queuedNumbers ++ r.queued.map Queued.number ++ r.expired.map Queued.number := by
  simp [polled, queuedNumbers]

/-- `poll` and `close` only take ids out of the epoll set. -/
theorem registered_filter_subset (l : List Registration) (p : Registration → Bool) :
    (l.filter p).map Registration.data ⊆ l.map Registration.data :=
  (List.filter_sublist.map Registration.data).subset

def step (w : Epoll) (a : Action) : Option Epoll :=
  if w.aborted then none
  else
    match a with
    | .read req readsz add now =>
      (w.sched.handleRead { number := w.requests, req := req } readsz add now).map w.called
    | .write req results add now =>
      (w.sched.handleWrite { number := w.requests, req := req } results add now).map w.called
    | .poll events now =>
      -- the ready coroutines have been resumed, and only registered ids are reported
      if w.ready = [] ∧ events.length ≤ 32 ∧ ∀ e ∈ events, e.data ∈ w.registered then
        match w.sched.poll events now [] with
        | none => some { w with aborted := true }
        | some r => some (w.polled r)
      else none
    | .resume =>
      match w.ready with
      | [] => none
      | h :: hs => some { w with ready := hs, resumed := w.resumed ++ [h] }
    | .close fd => some { w with epollset := w.epollset.filter fun g => g.fd ≠ fd }

theorem step_read {w v : Epoll} {req : IoRequest} {readsz : IoResult} {add : Bool} {now : ℕ}
    (h : step w (.read req readsz add now) = some v) :
    ∃ r, w.sched.handleRead { number := w.requests, req := req } readsz add now = some r ∧
      v = w.called r := by
  unfold step at h
  split at h
  · cases h
  · obtain ⟨r, hr, rfl⟩ := Option.map_eq_some_iff.1 h
    exact ⟨r, hr, rfl⟩

theorem step_write {w v : Epoll} {req : IoRequest} {results : List IoResult} {add : Bool} {now : ℕ}
    (h : step w (.write req results add now) = some v) :
    ∃ r, w.sched.handleWrite { number := w.requests, req := req } results add now = some r ∧
      v = w.called r := by
  unfold step at h
  split at h
  · cases h
  · obtain ⟨r, hr, rfl⟩ := Option.map_eq_some_iff.1 h
    exact ⟨r, hr, rfl⟩

theorem step_poll {w v : Epoll} {events : List Event} {now : ℕ}
    (h : step w (.poll events now) = some v) :
    (w.ready = [] ∧ events.length ≤ 32 ∧ ∀ e ∈ events, e.data ∈ w.registered) ∧
      ((w.sched.poll events now [] = none ∧ v = { w with aborted := true }) ∨
        ∃ r, w.sched.poll events now [] = some r ∧ v = w.polled r) := by
  unfold step at h
  split at h
  · cases h
  · dsimp only at h
    split at h
    · rename_i hguard
      refine ⟨hguard, ?_⟩
      cases hr : w.sched.poll events now [] with
      | none =>
        rw [hr] at h
        cases h
        exact Or.inl ⟨rfl, rfl⟩
      | some r =>
        rw [hr] at h
        cases h
        exact Or.inr ⟨r, rfl, rfl⟩
    · cases h

theorem step_resume {w v : Epoll} (h : step w .resume = some v) :
    ∃ c cs, w.ready = c :: cs ∧ v = { w with ready := cs, resumed := w.resumed ++ [c] } := by
  unfold step at h
  split at h
  · cases h
  · dsimp only at h
    split at h
    · cases h
    · rename_i c cs hready
      cases h
      exact ⟨c, cs, hready, rfl⟩

theorem step_close {w v : Epoll} {fd : ℕ} (h : step w (.close fd) = some v) :
    v = { w with epollset := w.epollset.filter fun g => g.fd ≠ fd } := by
  unfold step at h
  split at h
  · cases h
  · cases h
    rfl

end Epoll

/-! ## What the operations can do -/

namespace EpollScheduler

/-- A call pushes the context at once, or remembers the request, with or without a registration. -/
inductive IsCall (s : EpollScheduler) (number : ℕ) : CallResult → Prop where
  | complete (req : IoRequest) (retCode : ℤ) (sent : List Segment) :
      IsCall s number (s.complete { number := number, req := req } retCode sent)
  | added (req : IoRequest) (sent : List Segment) (fd : ℕ) (events : Interest) (now : ℕ) :
      IsCall s number (s.added number req sent fd events now)
  | addFailed (req : IoRequest) (sent : List Segment) :
      IsCall s number (s.addFailed number req sent)

theorem handleRead_cases {s : EpollScheduler} {p : ReqPtr} {readsz : IoResult} {add : Bool}
    {now : ℕ} {r : CallResult} (h : s.handleRead p readsz add now = some r) :
    p.req.op = .OP_READ ∧
      ((readsz ≠ .eagain ∧ ∃ retCode, r = s.complete p retCode []) ∨
        (readsz = .eagain ∧ add = true ∧
          r = s.added p.number { p.req with retCode := 0 } [] p.req.fd .EPOLLIN now) ∨
        (readsz = .eagain ∧ add = false ∧
          r = s.addFailed p.number { p.req with retCode := -1 } [])) := by
  unfold handleRead at h
  split at h
  · rename_i hop
    refine ⟨hop, ?_⟩
    split at h
    · cases h
      exact Or.inl ⟨by simp, _, rfl⟩
    · split at h <;> rename_i hadd <;> cases h
      · exact Or.inr (Or.inl ⟨rfl, hadd, rfl⟩)
      · exact Or.inr (Or.inr ⟨rfl, by simpa using hadd, rfl⟩)
    · cases h
      exact Or.inl ⟨by simp, _, rfl⟩
  · cases h

theorem handleWrite_cases {s : EpollScheduler} {p : ReqPtr} {results : List IoResult} {add : Bool}
    {now : ℕ} {r : CallResult} (h : s.handleWrite p results add now = some r) :
    p.req.op = .OP_WRITE ∧ ∃ o, writes p results = some o ∧
      ((∃ retCode, o.2 = .completed retCode ∧ r = s.complete p retCode o.1) ∨
        (∃ retCode, o.2 = .uncompleted retCode ∧ add = true ∧
          r = s.added p.number { p.req with retCode := retCode } o.1 (uint32 s.ioIndex_) .EPOLLOUT
            now) ∨
        (∃ retCode, o.2 = .uncompleted retCode ∧ add = false ∧
          r = s.addFailed p.number { p.req with retCode := retCode } o.1)) := by
  unfold handleWrite at h
  split at h
  · rename_i hop
    obtain ⟨⟨sent, outcome⟩, ho, rfl⟩ := Option.map_eq_some_iff.1 h
    refine ⟨hop, _, ho, ?_⟩
    cases outcome with
    | completed retCode => exact Or.inl ⟨retCode, rfl, rfl⟩
    | uncompleted retCode =>
      cases add with
      | true => exact Or.inr (Or.inl ⟨retCode, rfl, rfl, rfl⟩)
      | false => exact Or.inr (Or.inr ⟨retCode, rfl, rfl, rfl⟩)
  · cases h

theorem handleRead_isCall {s : EpollScheduler} {p : ReqPtr} {readsz : IoResult} {add : Bool}
    {now : ℕ} {r : CallResult} (h : s.handleRead p readsz add now = some r) :
    s.IsCall p.number r := by
  obtain ⟨-, ⟨-, retCode, rfl⟩ | ⟨-, -, rfl⟩ | ⟨-, -, rfl⟩⟩ := handleRead_cases h
  · exact .complete p.req _ _
  · exact .added _ _ _ _ _
  · exact .addFailed _ _

theorem handleWrite_isCall {s : EpollScheduler} {p : ReqPtr} {results : List IoResult} {add : Bool}
    {now : ℕ} {r : CallResult} (h : s.handleWrite p results add now = some r) :
    s.IsCall p.number r := by
  obtain ⟨-, o, -, ⟨retCode, -, rfl⟩ | ⟨retCode, -, -, rfl⟩ | ⟨retCode, -, -, rfl⟩⟩ :=
    handleWrite_cases h
  · exact .complete p.req _ _
  · exact .added _ _ _ _ _
  · exact .addFailed _ _

/-- The writes of `handleWrite` end with `EAGAIN`. -/
def Waits (p : ReqPtr) (results : List IoResult) : Prop :=
  ∃ o ∈ writes p results, ∃ retCode, o.2 = .uncompleted retCode

instance (p : ReqPtr) (results : List IoResult) : Decidable (Waits p results) :=
  match h : writes p results with
  | none => .isFalse fun ⟨_, ho, _⟩ => by cases h.symm.trans ho
  | some (_, .completed _) => .isFalse fun ⟨_, ho, _, hend⟩ => by
    cases h.symm.trans ho
    cases hend
  | some (_, .uncompleted _) => .isTrue ⟨_, h, _, rfl⟩

/-- A list of events is its first event and, from what that leaves, the others. -/
theorem handleEvents_cons_eq_some {s : EpollScheduler} {e : Event} {es : List Event}
    {r : EventResult} (h : s.handleEvents (e :: es) = some r) :
    ∃ r₁ r₂, s.handleEvent e = some r₁ ∧ r₁.sched.handleEvents es = some r₂ ∧
      r = { sched := r₂.sched
            sent := r₁.sent ++ r₂.sent
            deleted := r₁.deleted ++ r₂.deleted
            queued := r₁.queued ++ r₂.queued } := by
  obtain ⟨r₁, hr₁, hrest⟩ := Option.bind_eq_some_iff.1 h
  obtain ⟨r₂, hr₂, rfl⟩ := Option.map_eq_some_iff.1 hrest
  exact ⟨r₁, r₂, hr₁, hr₂, rfl⟩

/-- An event leaves everything as it is, finishes its request, or moves its `retCode` on. -/
theorem handleEvent_cases {s : EpollScheduler} {e : Event} {r : EventResult}
    (h : s.handleEvent e = some r) :
    (r.sched = s ∧ r.queued = [] ∧ r.deleted = []) ∨
    (∃ p retCode sent, s.ioIndex2req_.find e.data = some p ∧ r = s.finish e p retCode sent) ∨
    ∃ p retCode, s.ioIndex2req_.find e.data = some p ∧ r.queued = [] ∧ r.deleted = [] ∧
      r.sched =
        { s with
          ioIndex2req_ := s.ioIndex2req_.insertOrAssign e.data
            { p with req := { p.req with retCode := retCode } } } := by
  unfold handleEvent at h
  split at h
  · split at h
    · cases h
      exact Or.inl ⟨rfl, rfl, rfl⟩
    · rename_i p hp
      split at h
      · unfold handleIn at h
        split at h <;> cases h
        · exact Or.inr (Or.inl ⟨p, _, _, hp, rfl⟩)
        · exact Or.inr (Or.inl ⟨p, _, _, hp, rfl⟩)
      · unfold handleOut at h
        split at h
        · dsimp only at h
          split at h
          · split at h <;> cases h
            exact Or.inr (Or.inr ⟨p, _, hp, rfl, rfl, rfl⟩)
          · split at h <;> cases h
            · exact Or.inr (Or.inl ⟨p, _, _, hp, rfl⟩)
            · exact Or.inr (Or.inl ⟨p, _, _, hp, rfl⟩)
        · cases h
          exact Or.inr (Or.inl ⟨p, _, _, hp, rfl⟩)
        · cases h
  · cases h

/-- What the expiry loop makes of a request that it finds. -/
def ReqPtr.expired (p : ReqPtr) : ReqPtr := { p with req := { p.req with retCode := -1 } }

/-- The expiry loop sets the `retCode` of the requests it finds. -/
theorem find_expireLoop (s : EpollScheduler) (ids : List ℕ) (id : ℕ) :
    (s.expireLoop ids).1.ioIndex2req_.find id =
      (s.ioIndex2req_.find id).map fun p => if id ∈ ids then ReqPtr.expired p else p := by
  induction ids generalizing s with
  | nil => simp [expireLoop]
  | cons next ids ih =>
    have hturn : (s.expireTurn next).1.ioIndex2req_.find id =
        (s.ioIndex2req_.find id).map fun p => if id = next then ReqPtr.expired p else p := by
      unfold expireTurn
      cases hp : s.ioIndex2req_.find next with
      | none => by_cases h : id = next <;> simp [h, hp]
      | some p =>
        by_cases h : id = next <;> simp [h, hp, SortedMap.find_insertOrAssign, ReqPtr.expired]
    rw [expireLoop, ih, hturn, Option.map_map]
    congr 1
    funext p
    by_cases h : id = next <;> by_cases h' : id ∈ ids <;> simp [h, h', ReqPtr.expired]

/-- The expiry loop pushes the requests it finds. -/
theorem expireLoop_snd (s : EpollScheduler) (ids : List ℕ) :
    (s.expireLoop ids).2 = ids.filterMap fun id => (s.ioIndex2req_.find id).map fun p =>
      { number := p.number, req := (ReqPtr.expired p).req, id := some id } := by
  induction ids generalizing s with
  | nil => rfl
  | cons next ids ih =>
    -- what the turn sets is set again by every other visit
    have hrest : ∀ id, ((s.expireTurn next).1.ioIndex2req_.find id).map
        (fun p => ({ number := p.number, req := (ReqPtr.expired p).req, id := some id } : Queued)) =
          (s.ioIndex2req_.find id).map fun p =>
            { number := p.number, req := (ReqPtr.expired p).req, id := some id } := by
      intro id
      have hturn := find_expireLoop s [next] id
      simp only [expireLoop, List.mem_singleton] at hturn
      rw [hturn, Option.map_map]
      congr 1
      funext p
      by_cases h : id = next <;> simp [h, ReqPtr.expired]
    rw [expireLoop, ih, List.filterMap_cons, funext hrest]
    cases hp : s.ioIndex2req_.find next with
    | none => simp [expireTurn, hp]
    | some p => simp [expireTurn, hp, ReqPtr.expired]

theorem timerQueue_expireLoop (s : EpollScheduler) (ids : List ℕ) :
    (s.expireLoop ids).1.timerQueue_ = s.timerQueue_ := by
  induction ids generalizing s with
  | nil => rfl
  | cons next ids ih =>
    rw [expireLoop, ih]
    unfold expireTurn
    split <;> rfl

/-- What a `poll` does after its events did `t`. -/
structure IsPoll (t : EventResult) (now : ℕ) (r : PollResult) : Prop where
  sent_eq : r.sent = t.sent
  deleted_eq : r.deleted = t.deleted
  queued_eq : r.queued = t.queued
  timerQueue_eq : r.sched.timerQueue_ = (t.sched.timerQueue_.popExpired now).1
  find_eq : ∀ id, r.sched.ioIndex2req_.find id = (t.sched.ioIndex2req_.find id).map fun p =>
    if id ∈ (t.sched.timerQueue_.popExpired now).2 then ReqPtr.expired p else p
  expired_eq : r.expired = (t.sched.timerQueue_.popExpired now).2.filterMap fun id =>
    (t.sched.ioIndex2req_.find id).map fun p =>
      { number := p.number, req := (ReqPtr.expired p).req, id := some id }

theorem poll_isPoll {s : EpollScheduler} {events : List Event} {now : ℕ} {ready : List Handle}
    {r : PollResult} (hr : s.poll events now ready = some r) :
    ∃ t, s.handleEvents events = some t ∧ IsPoll t now r := by
  obtain ⟨t, ht, rfl⟩ := Option.map_eq_some_iff.1 hr
  refine ⟨t, ht, rfl, rfl, rfl, timerQueue_expireLoop _ _, fun id => find_expireLoop _ _ id,
    expireLoop_snd _ _⟩

/-- An id that the expiry loop finds is pushed. -/
theorem IsPoll.mem_expired {t : EventResult} {now : ℕ} {r : PollResult} (h : IsPoll t now r)
    {id : ℕ} {p : ReqPtr} (hid : id ∈ (t.sched.timerQueue_.popExpired now).2)
    (hp : t.sched.ioIndex2req_.find id = some p) :
    { number := p.number, req := (ReqPtr.expired p).req, id := some id } ∈ r.expired := by
  rw [h.expired_eq]
  exact List.mem_filterMap.2 ⟨id, hid, by rw [hp, Option.map_some]⟩

/-- When no id is found, nothing is pushed by the expiry loop. -/
theorem IsPoll.expired_eq_nil {t : EventResult} {now : ℕ} {r : PollResult} (h : IsPoll t now r)
    (hnone : ∀ id ∈ (t.sched.timerQueue_.popExpired now).2, ¬ t.sched.ioIndex2req_.HasKey id) :
    r.expired = [] := by
  rw [h.expired_eq, List.filterMap_eq_nil_iff]
  intro id hid
  rw [SortedMap.not_hasKey_iff.1 (hnone id hid), Option.map_none]

/-- The event loop as a run: the scheduler after one event. -/
def eventStep (s : EpollScheduler) (e : Event) : Option EpollScheduler :=
  (s.handleEvent e).map EventResult.sched

/-! ## Every context is pushed once -/

/-- With `n` requests so far, the contexts of the requests `pushed` were pushed; `due` are the
popped keys that the expiry loop has still to visit.  A request whose context was pushed is found
under an id again only if that id is neither live nor due, and epoll may report that id only if its
request timed out. -/
structure Once (s : EpollScheduler) (n : ℕ) (pushed timedOut reportable due : List ℕ) : Prop where
  timer : s.timerQueue_.Wf
  nodup : pushed.Nodup
  pushed_lt : ∀ k ∈ pushed, k < n
  number_lt : ∀ id p, s.ioIndex2req_.find id = some p → p.number < n
  injective : ∀ id id' p p', s.ioIndex2req_.find id = some p →
    s.ioIndex2req_.find id' = some p' → p.number = p'.number → id = id'
  live : ∀ id, s.timerQueue_.Live id →
    ∃ p, s.ioIndex2req_.find id = some p ∧ p.req.timeout > 0
  stale : ∀ id p, s.ioIndex2req_.find id = some p → p.number ∈ pushed →
    ¬ s.timerQueue_.Live id ∧ id ∉ due ∧ (id ∈ reportable → id ∈ timedOut)
  due_nodup : due.Nodup
  due_not_live : ∀ id ∈ due, ¬ s.timerQueue_.Live id

variable {s : EpollScheduler} {n : ℕ} {pushed timedOut reportable due : List ℕ}

theorem once_new : Once new 0 [] [] [] [] where
  timer := TimerQueue.wf_empty
  nodup := List.nodup_nil
  pushed_lt k hk := by simp at hk
  number_lt id p h := by simp [new] at h
  injective id id' p p' h := by simp [new] at h
  live id h := by
    obtain ⟨t, ht⟩ := h
    simp [new, TimerQueue.empty] at ht
  stale id p h := by simp [new] at h
  due_nodup := List.nodup_nil
  due_not_live id hid := by simp at hid

/-- Fewer ids may be reported, more have timed out. -/
theorem Once.mono {timedOut' reportable' : List ℕ} (h : Once s n pushed timedOut reportable due)
    (htimedOut : timedOut ⊆ timedOut') (hreportable : reportable' ⊆ reportable) :
    Once s n pushed timedOut' reportable' due :=
  { h with
    stale := fun id p hp hpushed =>
      let ⟨hlive, hdue, hlate⟩ := h.stale id p hp hpushed
      ⟨hlive, hdue, fun hid => htimedOut (hlate (hreportable hid))⟩ }

/-! ### `handleRead` and `handleWrite` -/

/-- The number of the new request is not among the pushed ones. -/
theorem Once.new_not_pushed (h : Once s n pushed timedOut reportable due) : n ∉ pushed :=
  fun hn => lt_irrefl n (h.pushed_lt n hn)

theorem Once.nodup_push (h : Once s n pushed timedOut reportable due) {k : ℕ} (hk : k ∉ pushed) :
    (pushed ++ [k]).Nodup :=
  h.nodup.append (List.nodup_singleton k) (by simpa using hk)

theorem Once.push_lt (h : Once s n pushed timedOut reportable due) {k : ℕ} (hk : k < n + 1) :
    ∀ j ∈ pushed ++ [k], j < n + 1 := by
  intro j hj
  rcases List.mem_append.1 hj with hj | hj
  · exact Nat.lt_succ_of_lt (h.pushed_lt j hj)
  · rw [List.mem_singleton.1 hj]
    exact hk

theorem Once.complete (h : Once s n pushed timedOut reportable []) (p : ReqPtr) (retCode : ℤ)
    (sent : List Segment) :
    Once (s.complete p retCode sent).sched (n + 1) (pushed ++ [n]) timedOut reportable [] := by
  refine { h with nodup := ?_, pushed_lt := ?_, number_lt := ?_, stale := ?_ }
  · exact h.nodup_push h.new_not_pushed
  · exact h.push_lt (Nat.lt_succ_self n)
  · exact fun id p hp => Nat.lt_succ_of_lt (h.number_lt id p hp)
  · intro id p hp hpushed
    rcases List.mem_append.1 hpushed with hpushed | hpushed
    · exact h.stale id p hp hpushed
    · exact absurd (List.mem_singleton.1 hpushed) (Nat.ne_of_lt (h.number_lt id p hp))

/-- Remembering the new request under a fresh id keeps the numbers below the bound and apart. -/
theorem Once.insert (h : Once s n pushed timedOut reportable [])
    (hfresh : ¬ s.ioIndex2req_.HasKey s.ioIndex_) (req : IoRequest) :
    let m := s.ioIndex2req_.insert s.ioIndex_ { number := n, req := req }
    (∀ id p, m.find id = some p → p.number < n + 1) ∧
    ∀ id id' p p', m.find id = some p → m.find id' = some p' → p.number = p'.number → id = id' := by
  intro m
  refine ⟨fun id p hp => ?_, fun id id' p p' hp hp' heq => ?_⟩
  · rcases (SortedMap.find_insert_eq_some hfresh).1 hp with ⟨-, rfl⟩ | ⟨-, hold⟩
    · exact Nat.lt_succ_self n
    · exact Nat.lt_succ_of_lt (h.number_lt id p hold)
  · rcases (SortedMap.find_insert_eq_some hfresh).1 hp with ⟨rfl, rfl⟩ | ⟨-, hold⟩ <;>
      rcases (SortedMap.find_insert_eq_some hfresh).1 hp' with ⟨rfl, rfl⟩ | ⟨-, hold'⟩
    · rfl
    · exact absurd heq.symm (Nat.ne_of_lt (h.number_lt id' p' hold'))
    · exact absurd heq (Nat.ne_of_lt (h.number_lt id p hold))
    · exact h.injective id id' p p' hold hold' heq

theorem Once.added (h : Once s n pushed timedOut reportable [])
    (hfresh : ¬ s.ioIndex2req_.HasKey s.ioIndex_) (req : IoRequest) (sent : List Segment) (fd : ℕ)
    (events : Interest) (now : ℕ) :
    Once (s.added n req sent fd events now).sched (n + 1) pushed timedOut
      (reportable ++ [s.ioIndex_]) [] := by
  obtain ⟨hnumber, hinjective⟩ := h.insert hfresh req
  have hlive : ∀ id, (s.added n req sent fd events now).sched.timerQueue_.Live id →
      s.timerQueue_.Live id ∨ (id = s.ioIndex_ ∧ req.timeout > 0) := by
    intro id hid
    simp only [EpollScheduler.added] at hid
    split at hid
    · rename_i htimeout
      exact (TimerQueue.live_add hid).imp_right fun heq => ⟨heq, htimeout⟩
    · exact Or.inl hid
  refine ⟨?_, h.nodup, fun k hk => Nat.lt_succ_of_lt (h.pushed_lt k hk), hnumber, hinjective,
    fun id hid => ?_, fun id p hp hpushed => ?_, List.nodup_nil, fun id hid => by simp at hid⟩
  · simp only [EpollScheduler.added]
    split
    · exact TimerQueue.add_wf h.timer _ _
    · exact h.timer
  · rcases hlive id hid with hold | ⟨rfl, htimeout⟩
    · obtain ⟨p, hp, htimeout⟩ := h.live id hold
      refine ⟨p, (SortedMap.find_insert_eq_some hfresh).2 (Or.inr ⟨fun heq => ?_, hp⟩), htimeout⟩
      exact hfresh (SortedMap.hasKey_iff.2 ⟨p, heq ▸ hp⟩)
    · exact ⟨_, (SortedMap.find_insert_eq_some hfresh).2 (Or.inl ⟨rfl, rfl⟩), htimeout⟩
  · rcases (SortedMap.find_insert_eq_some hfresh).1 hp with ⟨-, rfl⟩ | ⟨hne, hold⟩
    · exact absurd hpushed h.new_not_pushed
    · obtain ⟨hnotLive, hdue, hlate⟩ := h.stale id p hold hpushed
      refine ⟨fun hid => ?_, hdue, fun hid => hlate ?_⟩
      · rcases hlive id hid with hid | ⟨rfl, -⟩
        · exact hnotLive hid
        · exact hne rfl
      · simpa [hne] using hid

theorem Once.addFailed (h : Once s n pushed timedOut reportable [])
    (hfresh : ¬ s.ioIndex2req_.HasKey s.ioIndex_) (hunregistered : s.ioIndex_ ∉ reportable)
    (req : IoRequest) (sent : List Segment) :
    Once (s.addFailed n req sent).sched (n + 1) (pushed ++ [n]) timedOut reportable [] := by
  obtain ⟨hnumber, hinjective⟩ := h.insert hfresh req
  have hnotLive : ¬ s.timerQueue_.Live s.ioIndex_ := fun hlive =>
    let ⟨p, hp, _⟩ := h.live _ hlive
    hfresh (SortedMap.hasKey_iff.2 ⟨p, hp⟩)
  refine ⟨h.timer, h.nodup_push h.new_not_pushed, h.push_lt (Nat.lt_succ_self n), hnumber,
    hinjective, fun id hid => ?_, fun id p hp hpushed => ?_, List.nodup_nil,
    fun id hid => by simp at hid⟩
  · obtain ⟨p, hp, htimeout⟩ := h.live id hid
    refine ⟨p, (SortedMap.find_insert_eq_some hfresh).2 (Or.inr ⟨fun heq => ?_, hp⟩), htimeout⟩
    exact hfresh (SortedMap.hasKey_iff.2 ⟨p, heq ▸ hp⟩)
  · rcases (SortedMap.find_insert_eq_some hfresh).1 hp with ⟨rfl, rfl⟩ | ⟨hne, hold⟩
    · exact ⟨hnotLive, List.not_mem_nil, fun hid => absurd hid hunregistered⟩
    · rcases List.mem_append.1 hpushed with hpushed | hpushed
      · exact h.stale id p hold hpushed
      · exact absurd (List.mem_singleton.1 hpushed) (Nat.ne_of_lt (h.number_lt id p hold))

theorem Once.call (h : Once s n pushed timedOut reportable [])
    (hfresh : ¬ s.ioIndex2req_.HasKey s.ioIndex_) (hunregistered : s.ioIndex_ ∉ reportable)
    {r : CallResult} (hr : s.IsCall n r) :
    Once r.sched (n + 1) (pushed ++ (r.queued.map Queued.number).toList) timedOut
      (reportable ++ (r.registered.map Registration.data).toList) [] := by
  cases hr with
  | complete req retCode sent =>
    simpa [EpollScheduler.complete] using h.complete { number := n, req := req } retCode sent
  | added req sent fd events now =>
    simpa [EpollScheduler.added] using h.added hfresh req sent fd events now
  | addFailed req sent =>
    simpa [EpollScheduler.addFailed] using h.addFailed hfresh hunregistered req sent

/-! ### The event loop -/

/-- Finishing the request of a reported id that did not time out. -/
theorem Once.finish (h : Once s n pushed timedOut reportable []) {e : Event} {p : ReqPtr}
    (hp : s.ioIndex2req_.find e.data = some p) (hreported : e.data ∈ reportable)
    (hlate : e.data ∉ timedOut) (retCode : ℤ) (sent : List Segment) :
    Once (s.finish e p retCode sent).sched n (pushed ++ [p.number]) timedOut reportable [] := by
  have hnew : p.number ∉ pushed := fun hpushed =>
    hlate ((h.stale e.data p hp hpushed).2.2 hreported)
  have hlive : ∀ id, (s.finish e p retCode sent).sched.timerQueue_.Live id →
      s.timerQueue_.Live id ∧ id ≠ e.data := by
    intro id hid
    simp only [EpollScheduler.finish] at hid
    split at hid
    · refine ⟨TimerQueue.live_remove hid, ?_⟩
      rintro rfl
      exact TimerQueue.not_live_remove h.timer _ hid
    · rename_i htimeout
      refine ⟨hid, ?_⟩
      rintro rfl
      obtain ⟨p', hp', htimeout'⟩ := h.live _ hid
      cases hp.symm.trans hp'
      exact htimeout htimeout'
  refine ⟨?_, h.nodup_push hnew, ?_, fun id q hq => ?_, fun id id' q q' hq hq' heq => ?_,
    fun id hid => ?_, fun id q hq hpushed => ?_, List.nodup_nil, fun id hid => by simp at hid⟩
  · simp only [EpollScheduler.finish]
    split
    · exact TimerQueue.remove_wf h.timer _
    · exact h.timer
  · intro k hk
    rcases List.mem_append.1 hk with hk | hk
    · exact h.pushed_lt k hk
    · rw [List.mem_singleton.1 hk]
      exact h.number_lt _ p hp
  · exact h.number_lt id q (SortedMap.find_erase_eq_some.1 hq).2
  · exact h.injective id id' q q' (SortedMap.find_erase_eq_some.1 hq).2
      (SortedMap.find_erase_eq_some.1 hq').2 heq
  · obtain ⟨hold, hne⟩ := hlive id hid
    obtain ⟨q, hq, htimeout⟩ := h.live id hold
    exact ⟨q, SortedMap.find_erase_eq_some.2 ⟨hne, hq⟩, htimeout⟩
  · obtain ⟨hne, hold⟩ := SortedMap.find_erase_eq_some.1 hq
    rcases List.mem_append.1 hpushed with hpushed | hpushed
    · obtain ⟨hnotLive, hdue, hstale⟩ := h.stale id q hold hpushed
      exact ⟨fun hid => hnotLive (hlive id hid).1, hdue, hstale⟩
    · exact absurd (h.injective id e.data q p hold hp (List.mem_singleton.1 hpushed)) hne

/-- Writing `retCode` through the address of a request leaves the timeouts as they are. -/
theorem timed_assign {m : SortedMap ℕ ReqPtr} {id id' : ℕ} {p : ReqPtr} (hp : m.find id = some p)
    (retCode : ℤ) (h : ∃ q, m.find id' = some q ∧ q.req.timeout > 0) :
    ∃ q, (m.insertOrAssign id { p with req := { p.req with retCode := retCode } }).find id' =
      some q ∧ q.req.timeout > 0 := by
  obtain ⟨q, hq, htimeout⟩ := h
  by_cases heq : id' = id
  · subst heq
    cases hp.symm.trans hq
    exact ⟨_, SortedMap.find_insertOrAssign_eq_some.2 (Or.inl ⟨rfl, rfl⟩), htimeout⟩
  · exact ⟨q, SortedMap.find_insertOrAssign_eq_some.2 (Or.inr ⟨heq, hq⟩), htimeout⟩

/-- Writing `retCode` through the address of a request that stays in the map. -/
theorem Once.assign (h : Once s n pushed timedOut reportable due) {id : ℕ} {p : ReqPtr}
    (hp : s.ioIndex2req_.find id = some p) (retCode : ℤ) :
    Once
      { s with
        ioIndex2req_ := s.ioIndex2req_.insertOrAssign id
          { p with req := { p.req with retCode := retCode } } }
      n pushed timedOut reportable due := by
  -- every entry has the number it had before
  have hold : ∀ id' q, (s.ioIndex2req_.insertOrAssign id
      { p with req := { p.req with retCode := retCode } }).find id' = some q →
      ∃ q', s.ioIndex2req_.find id' = some q' ∧ q'.number = q.number := by
    intro id' q hq
    rcases SortedMap.find_insertOrAssign_eq_some.1 hq with ⟨rfl, rfl⟩ | ⟨-, hq⟩
    · exact ⟨p, hp, rfl⟩
    · exact ⟨q, hq, rfl⟩
  refine { h with number_lt := ?_, injective := ?_, live := ?_, stale := ?_ }
  · intro id' q hq
    obtain ⟨q', hq', heq⟩ := hold id' q hq
    exact heq ▸ h.number_lt id' q' hq'
  · intro id₁ id₂ q₁ q₂ hq₁ hq₂ heq
    obtain ⟨q₁', hq₁', heq₁⟩ := hold id₁ q₁ hq₁
    obtain ⟨q₂', hq₂', heq₂⟩ := hold id₂ q₂ hq₂
    exact h.injective id₁ id₂ q₁' q₂' hq₁' hq₂' (heq₁.trans (heq.trans heq₂.symm))
  · exact fun id' hid' => timed_assign hp retCode (h.live id' hid')
  · intro id' q hq hpushed
    obtain ⟨q', hq', heq⟩ := hold id' q hq
    exact h.stale id' q' hq' (heq ▸ hpushed)

theorem Once.handleEvent (h : Once s n pushed timedOut reportable []) {e : Event} {r : EventResult}
    (hreported : e.data ∈ reportable) (hlate : e.data ∉ timedOut)
    (hr : s.handleEvent e = some r) :
    Once r.sched n (pushed ++ r.queued.map Queued.number) timedOut reportable [] := by
  rcases handleEvent_cases hr with
    ⟨hs, hq, -⟩ | ⟨p, retCode, sent, hp, rfl⟩ | ⟨p, retCode, hp, hq, -, hs⟩
  · rw [hs, hq]
    simpa using h
  · exact h.finish hp hreported hlate retCode sent
  · rw [hs, hq]
    simpa using h.assign hp retCode

theorem Once.handleEvents (h : Once s n pushed timedOut reportable []) {events : List Event}
    {r : EventResult} (hreported : ∀ e ∈ events, e.data ∈ reportable)
    (hlate : ∀ e ∈ events, e.data ∉ timedOut) (hr : s.handleEvents events = some r) :
    Once r.sched n (pushed ++ r.queued.map Queued.number) timedOut reportable [] := by
  induction events generalizing s pushed r with
  | nil =>
    cases hr
    simpa using h
  | cons e es ih =>
    obtain ⟨r₁, r₂, hr₁, hr₂, rfl⟩ := handleEvents_cons_eq_some hr
    rw [List.forall_mem_cons] at hreported hlate
    have hfirst := h.handleEvent hreported.1 hlate.1 hr₁
    have hrest := ih hfirst hreported.2 hlate.2 hr₂
    simpa using hrest

/-! ### The expiry loop -/

theorem Once.popExpired (h : Once s n pushed timedOut reportable []) (now : ℕ) :
    let popped := s.timerQueue_.popExpired now
    Once { s with timerQueue_ := popped.1 } n pushed timedOut reportable popped.2 := by
  refine ⟨TimerQueue.popExpired_wf h.timer now, h.nodup, h.pushed_lt, h.number_lt, h.injective,
    fun id hid => h.live id (TimerQueue.live_popExpired hid), fun id p hp hpushed => ?_,
    TimerQueue.nodup_popExpired h.timer now,
    fun id hid => TimerQueue.not_live_of_mem_popExpired h.timer hid⟩
  obtain ⟨hnotLive, -, hlate⟩ := h.stale id p hp hpushed
  exact ⟨fun hid => hnotLive (TimerQueue.live_popExpired hid),
    fun hid => hnotLive (TimerQueue.live_of_mem_popExpired hid), hlate⟩

/-- The next due id is dropped when it is not found. -/
theorem Once.drop {id : ℕ} {ids : List ℕ} (h : Once s n pushed timedOut reportable (id :: ids)) :
    Once s n pushed timedOut reportable ids :=
  { h with
    stale := fun id' p hp hpushed =>
      let ⟨hlive, hdue, hlate⟩ := h.stale id' p hp hpushed
      ⟨hlive, fun hmem => hdue (List.mem_cons_of_mem _ hmem), hlate⟩
    due_nodup := (List.nodup_cons.1 h.due_nodup).2
    due_not_live := fun id' hid' => h.due_not_live id' (List.mem_cons_of_mem _ hid') }

/-- Pushing the context of the next due id. -/
theorem Once.expire {id : ℕ} {ids : List ℕ} (h : Once s n pushed timedOut reportable (id :: ids))
    {p : ReqPtr} (hp : s.ioIndex2req_.find id = some p) :
    Once s n (pushed ++ [p.number]) (timedOut ++ [id]) reportable ids := by
  have hnew : p.number ∉ pushed := fun hpushed =>
    (h.stale id p hp hpushed).2.1 List.mem_cons_self
  have hids := List.nodup_cons.1 h.due_nodup
  refine { h.drop with nodup := h.nodup_push hnew, pushed_lt := ?_, stale := ?_ }
  · intro k hk
    rcases List.mem_append.1 hk with hk | hk
    · exact h.pushed_lt k hk
    · rw [List.mem_singleton.1 hk]
      exact h.number_lt id p hp
  · intro id' q hq hpushed
    rcases List.mem_append.1 hpushed with hpushed | hpushed
    · obtain ⟨hlive, hdue, hlate⟩ := h.drop.stale id' q hq hpushed
      exact ⟨hlive, hdue, fun hid => List.mem_append_left _ (hlate hid)⟩
    · obtain rfl : id' = id := h.injective id' id q p hq hp (List.mem_singleton.1 hpushed)
      exact ⟨h.due_not_live _ List.mem_cons_self, hids.1,
        fun _ => List.mem_append_right _ (List.mem_singleton.2 rfl)⟩

theorem Once.expireLoop {ids : List ℕ} (h : Once s n pushed timedOut reportable ids) :
    let r := s.expireLoop ids
    Once r.1 n (pushed ++ r.2.map Queued.number) (timedOut ++ r.2.filterMap Queued.id) reportable
      [] := by
  induction ids generalizing s pushed timedOut with
  | nil => simpa [EpollScheduler.expireLoop] using h
  | cons id ids ih =>
    cases hp : s.ioIndex2req_.find id with
    | none =>
      have hturn : s.expireTurn id = (s, none) := by simp [expireTurn, hp]
      simpa [EpollScheduler.expireLoop, hturn] using ih h.drop
    | some p =>
      have hrest := ih ((h.expire hp).assign hp (-1))
      simpa [EpollScheduler.expireLoop, expireTurn, hp] using hrest

/-! ### `poll` -/

theorem Once.poll (h : Once s n pushed timedOut reportable []) {events : List Event} {now : ℕ}
    {ready : List Handle} {r : PollResult} (hreported : ∀ e ∈ events, e.data ∈ reportable)
    (hlate : ∀ e ∈ events, e.data ∉ timedOut) (hr : s.poll events now ready = some r) :
    Once r.sched n (pushed ++ r.queued.map Queued.number ++ r.expired.map Queued.number)
      (timedOut ++ r.expired.filterMap Queued.id) reportable [] := by
  obtain ⟨t, ht, rfl⟩ := Option.map_eq_some_iff.1 hr
  have hexpired := ((h.handleEvents hreported hlate ht).popExpired now).expireLoop
  exact { hexpired with }

/-! ### No id is added by `poll` -/

/-- `t` has the counter of `s` and no id that `s` does not have. -/
structure Shrinks (s t : EpollScheduler) : Prop where
  index_eq : t.ioIndex_ = s.ioIndex_
  subset : ∀ id, t.ioIndex2req_.HasKey id → s.ioIndex2req_.HasKey id

theorem Shrinks.refl (s : EpollScheduler) : Shrinks s s := ⟨rfl, fun _ => id⟩

theorem Shrinks.trans {s t u : EpollScheduler} (h : Shrinks s t) (h' : Shrinks t u) :
    Shrinks s u :=
  ⟨h'.index_eq.trans h.index_eq, fun id hid => h.subset id (h'.subset id hid)⟩

theorem shrinks_finish (s : EpollScheduler) (e : Event) (p : ReqPtr) (retCode : ℤ)
    (sent : List Segment) : Shrinks s (s.finish e p retCode sent).sched :=
  ⟨rfl, fun _ hid => (SortedMap.hasKey_erase.1 hid).2⟩

theorem shrinks_assign {s : EpollScheduler} {id : ℕ} {p : ReqPtr}
    (hp : s.ioIndex2req_.find id = some p) (q : ReqPtr) :
    Shrinks s { s with ioIndex2req_ := s.ioIndex2req_.insertOrAssign id q } := by
  refine ⟨rfl, fun id' hid' => ?_⟩
  obtain ⟨q', hq'⟩ := SortedMap.hasKey_iff.1 hid'
  rcases SortedMap.find_insertOrAssign_eq_some.1 hq' with ⟨rfl, -⟩ | ⟨-, hq'⟩
  · exact SortedMap.hasKey_iff.2 ⟨p, hp⟩
  · exact SortedMap.hasKey_iff.2 ⟨q', hq'⟩

theorem shrinks_handleEvent {s : EpollScheduler} {e : Event} {r : EventResult}
    (hr : s.handleEvent e = some r) : Shrinks s r.sched := by
  rcases handleEvent_cases hr with
    ⟨hs, -⟩ | ⟨p, retCode, sent, -, rfl⟩ | ⟨p, retCode, hp, -, -, hs⟩
  · rw [hs]
    exact Shrinks.refl s
  · exact shrinks_finish s e p retCode sent
  · rw [hs]
    exact shrinks_assign hp _

theorem shrinks_handleEvents {s : EpollScheduler} {events : List Event} {r : EventResult}
    (hr : s.handleEvents events = some r) : Shrinks s r.sched := by
  induction events generalizing s r with
  | nil =>
    cases hr
    exact Shrinks.refl s
  | cons e es ih =>
    obtain ⟨r₁, r₂, hr₁, hr₂, rfl⟩ := handleEvents_cons_eq_some hr
    have hrest : Shrinks r₁.sched r₂.sched := ih hr₂
    exact (shrinks_handleEvent hr₁).trans hrest

theorem shrinks_expireLoop (s : EpollScheduler) (ids : List ℕ) :
    Shrinks s (s.expireLoop ids).1 := by
  induction ids generalizing s with
  | nil => exact Shrinks.refl s
  | cons id ids ih =>
    have hturn : Shrinks s (s.expireTurn id).1 := by
      unfold expireTurn
      split
      · exact Shrinks.refl s
      · rename_i p hp
        exact shrinks_assign hp _
    exact hturn.trans (ih _)

theorem shrinks_poll {s : EpollScheduler} {events : List Event} {now : ℕ} {ready : List Handle}
    {r : PollResult} (hr : s.poll events now ready = some r) : Shrinks s r.sched := by
  obtain ⟨t, ht, rfl⟩ := Option.map_eq_some_iff.1 hr
  have hexpired := shrinks_expireLoop
    { t.sched with timerQueue_ := (t.sched.timerQueue_.popExpired now).1 }
    (t.sched.timerQueue_.popExpired now).2
  have hevents := shrinks_handleEvents ht
  exact ⟨hexpired.index_eq.trans hevents.index_eq,
    fun id hid => hevents.subset id (hexpired.subset id hid)⟩

end EpollScheduler

/-! ## Runs -/

namespace Epoll

/-- The action is a call of `handleRead` or `handleWrite`. -/
def Action.Submits : Action → Prop
  | .read _ _ _ _ | .write _ _ _ _ => True
  | _ => False

instance : DecidablePred Action.Submits
  | .read _ _ _ _ => .isTrue trivial
  | .write _ _ _ _ => .isTrue trivial
  | .poll _ _ => .isFalse id
  | .resume => .isFalse id
  | .close _ => .isFalse id

/-- The possible effects of an action. -/
inductive Effect (w : Epoll) : Action → Epoll → Prop where
  | called (a : Action) (ha : a.Submits) (r : EpollScheduler.CallResult)
      (hr : w.sched.IsCall w.requests r) : Effect w a (w.called r)
  | polled (events : List Event) (now : ℕ) (r : EpollScheduler.PollResult)
      (hreported : ∀ e ∈ events, e.data ∈ w.registered)
      (hr : w.sched.poll events now [] = some r) : Effect w (.poll events now) (w.polled r)
  | aborted (a : Action) : Effect w a { w with aborted := true }
  | resumed (h : Handle) (hs : List Handle) :
      Effect w .resume { w with ready := hs, resumed := w.resumed ++ [h] }
  | closed (fd : ℕ) :
      Effect w (.close fd) { w with epollset := w.epollset.filter fun g => g.fd ≠ fd }

theorem effect_of_step {w v : Epoll} {a : Action} (h : step w a = some v) : Effect w a v := by
  cases a with
  | read req readsz add now =>
    obtain ⟨r, hr, rfl⟩ := step_read h
    exact .called _ (by trivial) r (EpollScheduler.handleRead_isCall hr)
  | write req results add now =>
    obtain ⟨r, hr, rfl⟩ := step_write h
    exact .called _ (by trivial) r (EpollScheduler.handleWrite_isCall hr)
  | poll events now =>
    obtain ⟨⟨-, -, hreported⟩, ⟨-, rfl⟩ | ⟨r, hr, rfl⟩⟩ := step_poll h
    · exact .aborted _
    · exact .polled _ _ r hreported hr
  | resume =>
    obtain ⟨c, cs, -, rfl⟩ := step_resume h
    exact .resumed c cs
  | close fd =>
    obtain rfl := step_close h
    exact .closed fd

/-! ### The conditions on a step -/

/-- No event is reported for an id whose request was pushed by the expiry loop of an earlier
`poll`. -/
def NoLateEvent (w : Epoll) : Action → Prop
  | .poll events _ => ∀ e ∈ events, e.data ∉ w.timedOut
  | _ => True

instance (w : Epoll) : ∀ a, Decidable (NoLateEvent w a)
  | .read _ _ _ _ => .isTrue trivial
  | .write _ _ _ _ => .isTrue trivial
  | .poll events _ => inferInstanceAs (Decidable (∀ e ∈ events, e.data ∉ w.timedOut))
  | .resume => .isTrue trivial
  | .close _ => .isTrue trivial

/-- The expiry loop finds none of the ids that `popExpired` gives it.  `InTime` says when, on the
state before the `poll`. -/
def NoExpiry (w : Epoll) : Action → Prop
  | .poll events now => ∀ r ∈ w.sched.handleEvents events,
    ∀ id ∈ (r.sched.timerQueue_.popExpired now).2, ¬ r.sched.ioIndex2req_.HasKey id
  | _ => True

instance (w : Epoll) : ∀ a, Decidable (NoExpiry w a)
  | .read _ _ _ _ => .isTrue trivial
  | .write _ _ _ _ => .isTrue trivial
  | .poll events now =>
    inferInstanceAs (Decidable (∀ r ∈ w.sched.handleEvents events,
      ∀ id ∈ (r.sched.timerQueue_.popExpired now).2, ¬ r.sched.ioIndex2req_.HasKey id))
  | .resume => .isTrue trivial
  | .close _ => .isTrue trivial

/-- A call of `handleRead` or `handleWrite` finds the next id unused. -/
def FreshId (w : Epoll) (a : Action) : Prop :=
  a.Submits → ¬ w.sched.ioIndex2req_.HasKey w.sched.ioIndex_ ∧ w.sched.ioIndex_ ∉ w.registered

instance (w : Epoll) (a : Action) : Decidable (FreshId w a) :=
  inferInstanceAs (Decidable (a.Submits → _))

/-! ### Every context is pushed once -/

/-- `Once` for the state between two actions. -/
def Inv (w : Epoll) : Prop :=
  w.sched.Once w.requests w.queuedNumbers w.timedOut w.registered []

theorem inv_new : Inv new := EpollScheduler.once_new

theorem inv_step {w v : Epoll} {a : Action} (h : Inv w) (hlate : NoLateEvent w a)
    (hfresh : FreshId w a) (hv : Effect w a v) : Inv v := by
  unfold Inv at h ⊢
  cases hv with
  | called a ha r hr =>
    rw [queuedNumbers_called, registered_called]
    exact h.call (hfresh ha).1 (hfresh ha).2 hr
  | polled events now r hreported hr =>
    rw [queuedNumbers_polled]
    exact (h.poll hreported hlate hr).mono (List.Subset.refl _) (registered_filter_subset _ _)
  | aborted a => exact h
  | resumed h' hs => exact h
  | closed fd => exact h.mono (List.Subset.refl _) (registered_filter_subset _ _)

/-! ### Runs without an expiry -/

/-- `Inv` when no request has timed out. -/
structure Untimed (w : Epoll) : Prop where
  once : Inv w
  timedOut_eq : w.timedOut = []

theorem untimed_new : Untimed new := ⟨inv_new, rfl⟩

theorem Untimed.not_late {w : Epoll} (h : Untimed w) (id : ℕ) : id ∉ w.timedOut :=
  h.timedOut_eq ▸ List.not_mem_nil

theorem timedOut_of_noExpiry {w v : Epoll} {a : Action} (ha : NoExpiry w a) (hv : Effect w a v) :
    v.timedOut = w.timedOut := by
  cases hv with
  | polled events now r hreported hr =>
    obtain ⟨t, ht, hpoll⟩ := EpollScheduler.poll_isPoll hr
    simp [polled, hpoll.expired_eq_nil (ha t ht)]
  | _ => rfl

theorem Untimed.step {w v : Epoll} {a : Action} (h : Untimed w) (hfresh : FreshId w a)
    (ha : NoExpiry w a) (hv : Effect w a v) : Untimed v := by
  have hlate : NoLateEvent w a := by
    cases a with
    | poll events now => exact fun e _ => h.not_late e.data
    | _ => trivial
  exact ⟨inv_step h.once hlate hfresh hv, (timedOut_of_noExpiry ha hv).trans h.timedOut_eq⟩

/-! ### Ids below the counter -/

/-- The ids in use are below `ioIndex_`, which counts requests. -/
structure Counted (w : Epoll) : Prop where
  index_le : w.sched.ioIndex_ ≤ w.requests
  pending : ∀ id, w.sched.ioIndex2req_.HasKey id → id < w.sched.ioIndex_
  registered : ∀ id ∈ w.registered, id < w.sched.ioIndex_

theorem Counted.fresh {w : Epoll} (h : Counted w) (a : Action) : FreshId w a := fun _ =>
  ⟨fun hkey => lt_irrefl _ (h.pending _ hkey), fun hmem => lt_irrefl _ (h.registered _ hmem)⟩

theorem counted_new : Counted new :=
  ⟨le_rfl, fun id hid => by simp [new, EpollScheduler.new, SortedMap.HasKey] at hid,
    fun id hid => by simp [new, registered] at hid⟩

theorem Counted.call {w : Epoll} (h : Counted w) {r : EpollScheduler.CallResult}
    (hr : w.sched.IsCall w.requests r) (hlt : w.requests + 1 < 2 ^ 64) : Counted (w.called r) := by
  have hindex := h.index_le
  have hnext : uint64 (w.sched.ioIndex_ + 1) = w.sched.ioIndex_ + 1 := uint64_of_lt (by omega)
  cases hr with
  | complete req retCode sent =>
    refine ⟨Nat.le_succ_of_le hindex, h.pending, fun id hid => h.registered id ?_⟩
    rw [registered_called] at hid
    simpa [EpollScheduler.complete] using hid
  | added req sent fd events now =>
    refine ⟨?_, fun id hid => ?_, fun id hid => ?_⟩
    · simpa [called, EpollScheduler.added, hnext] using hindex
    · simp only [called, EpollScheduler.added, hnext]
      rcases SortedMap.hasKey_insert.1 hid with rfl | hid
      · exact Nat.lt_succ_self _
      · exact Nat.lt_succ_of_lt (h.pending id hid)
    · simp only [called, EpollScheduler.added, hnext]
      have hmem : id ∈ w.registered ∨ id = w.sched.ioIndex_ := by
        rw [registered_called] at hid
        simpa [EpollScheduler.added] using hid
      rcases hmem with hid | rfl
      · exact Nat.lt_succ_of_lt (h.registered id hid)
      · exact Nat.lt_succ_self _
  | addFailed req sent =>
    refine ⟨?_, fun id hid => ?_, fun id hid => ?_⟩
    · simpa [called, EpollScheduler.addFailed, hnext] using hindex
    · simp only [called, EpollScheduler.addFailed, hnext]
      rcases SortedMap.hasKey_insert.1 hid with rfl | hid
      · exact Nat.lt_succ_self _
      · exact Nat.lt_succ_of_lt (h.pending id hid)
    · simp only [called, EpollScheduler.addFailed, hnext]
      refine Nat.lt_succ_of_lt (h.registered id ?_)
      rw [registered_called] at hid
      simpa [EpollScheduler.addFailed] using hid

theorem Counted.step {w v : Epoll} {a : Action} (h : Counted w) (hlt : v.requests < 2 ^ 64)
    (hv : Effect w a v) : Counted v := by
  cases hv with
  | called a ha r hr => exact h.call hr hlt
  | polled events now r hreported hr =>
    have hshrinks := EpollScheduler.shrinks_poll hr
    have hindex : (w.polled r).sched.ioIndex_ = w.sched.ioIndex_ := hshrinks.index_eq
    refine ⟨?_, fun id hid => ?_, fun id hid => ?_⟩
    · rw [hindex]
      exact h.index_le
    · rw [hindex]
      exact h.pending id (hshrinks.subset id hid)
    · rw [hindex]
      exact h.registered id (registered_filter_subset _ _ hid)
  | aborted a => exact ⟨h.index_le, h.pending, h.registered⟩
  | resumed h' hs => exact ⟨h.index_le, h.pending, h.registered⟩
  | closed fd =>
    exact ⟨h.index_le, h.pending,
      fun id hid => h.registered id (registered_filter_subset _ _ hid)⟩

theorem requests_le {w v : Epoll} {a : Action} (hv : Effect w a v) : w.requests ≤ v.requests := by
  cases hv with
  | called a ha r hr => exact Nat.le_succ _
  | _ => exact le_rfl

/-- With fewer than `2 ^ 64` requests every id is unused when it is issued. -/
theorem always_freshId {as : List Action} {w : Epoll} (hrun : run step new as = some w)
    (hlt : w.requests < 2 ^ 64) : Always step FreshId new as :=
  always_of_lt (fun _ _ _ hv => requests_le (effect_of_step hv))
    (fun _ _ _ hu hv hlt => hu.step hlt (effect_of_step hv)) (fun _ a hu _ => hu.fresh a)
    counted_new hrun hlt

/-- In a run without late events no request has its context pushed twice; an id is never found in
use below `2 ^ 64` requests. -/
theorem queued_at_most_once {as : List Action} {w : Epoll} (hrun : run step new as = some w) :
    (Always step (fun u a => NoLateEvent u a ∧ FreshId u a) new as → w.queuedNumbers.Nodup) ∧
    (w.requests < 2 ^ 64 → Always step FreshId new as) := by
  refine ⟨fun hP => ?_, always_freshId hrun⟩
  have hinv : Inv w := run_invariant_of_always
    (fun u a v hu hstep hv => inv_step hu hstep.1 hstep.2 (effect_of_step hv)) inv_new hP hrun
  exact hinv.nodup

/-- One of two reads completes; the other one expires, and nothing comes for it afterwards. -/
def expiredRead : List Action :=
  [.read { capicaty := 8, fd := 3, context := 100, op := .OP_READ, timeout := 10 } .eagain true 0,
    .read { capicaty := 8, fd := 4, context := 200, op := .OP_READ, timeout := 10 } .eagain true 0,
    .poll [{ epollin := true, epollout := false, data := 1, first := .count 5 }] 5, .resume,
    .poll [] 20, .poll [] 21, .resume]

theorem queued_at_most_once_expired :
    ∃ w, run step new expiredRead = some w ∧ w.resumed = [200, 100] ∧ w.queuedNumbers.Nodup ∧
      Always step FreshId new expiredRead := by
  have hrun : run step new expiredRead = some _ := rfl
  exact ⟨_, hrun, by decide, (queued_at_most_once hrun).1 (by decide),
    (queued_at_most_once hrun).2 (by decide)⟩

/-- A read that times out stays registered: its context is pushed by the expiry loop of one `poll`
and by the `EPOLLIN` branch of the next, and both copies are resumed. -/
theorem expired_read_resumed_twice :
    ∃ w, run step new
        [.read { capicaty := 8, fd := 3, context := 100, op := .OP_READ, timeout := 10 } .eagain
            true 0,
          .poll [] 20,
          .poll [{ epollin := true, epollout := false, data := 0, first := .count 5 }] 21,
          .resume, .resume] = some w ∧
      w.requests = 1 ∧ w.queuedNumbers = [0, 0] ∧ w.resumed = [100, 100] := by
  exact ⟨_, rfl, by decide, by decide, by decide⟩

end Epoll

end CoUringWeb
