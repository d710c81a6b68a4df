import CoUringWeb.Core.EpollRuns

/-!
# Timers against events in one `poll` of `EpollScheduler`

`poll` handles its events first and then the timers that have run out.  `NoExpiry` says that the
expiry loop finds no request; it speaks of the maps as the event loop leaves them.  `InTime` says
the same of the state before the `poll`: each request whose timer has run out is finished by one of
the events.

What the events do to a request depends on the events of its own id only (`find_handleEvents`), and
finishing one request leaves the timers of the others alone as long as both maps of the timer queue
agree (`Paired`).  Then the two conditions are the same (`noExpiry_iff_inTime`).  Below `2 ^ 32`
requests that holds in every run (`always_noExpiry_iff`).
-/

namespace CoUringWeb

open Machine Transition

/-! ## The events of one request -/

/-- The request that an event finds under its id, after the event: `none` when there is none or the
event has finished it, and no value at all when an `assert` has failed. -/
def Event.turn (e : Event) : Option ReqPtr → Option (Option ReqPtr)
  | none => if e.epollin ∨ e.epollout then some none else none
  | some p =>
    if e.epollin then
      if e.first = .eagain then none else some none
    else if e.epollout then
      match e.first with
      | .count n =>
        let retCode := int32 (n + p.req.retCode)
        if 0 < n ∧ ofInt32 retCode ≠ p.req.size then
          if e.second = .eagain then some (some { p with req := { p.req with retCode := retCode } })
          else none
        else some none
      | .error => some none
      | .eagain => none
    else none

/-- What is under the id `id` after the events. -/
def afterEvents (id : ℕ) : List Event → Option ReqPtr → Option (Option ReqPtr)
  | [], p => some p
  | e :: es, p => if e.data = id then (e.turn p).bind (afterEvents id es) else afterEvents id es p

namespace EpollScheduler

variable {s : EpollScheduler}

/-- No `assert` of the event loop fails. -/
def Passes (s : EpollScheduler) (events : List Event) : Prop :=
  ∀ e ∈ events, afterEvents e.data events (s.ioIndex2req_.find e.data) ≠ none

instance (s : EpollScheduler) (events : List Event) : Decidable (s.Passes events) :=
  inferInstanceAs (Decidable (∀ e ∈ events, _))

theorem turn_eq (s : EpollScheduler) (e : Event) :
    e.turn (s.ioIndex2req_.find e.data) =
      (s.handleEvent e).map fun r => r.sched.ioIndex2req_.find e.data := by
  unfold handleEvent
  cases hp : s.ioIndex2req_.find e.data with
  | none =>
    simp only [Event.turn]
    split <;> simp [hp]
  | some p =>
    dsimp only
    by_cases hin : e.epollin = true
    · rw [if_pos (Or.inl hin), if_pos hin, Event.turn, if_pos hin, handleIn]
      cases e.first <;> simp [finish, SortedMap.find_erase]
    · by_cases hout : e.epollout = true
      · rw [if_pos (Or.inr hout), if_neg hin, Event.turn, if_neg hin, if_pos hout, handleOut]
        cases e.first with
        | count n =>
          dsimp only
          split
          · split <;> simp [SortedMap.find_insertOrAssign]
          · split <;> simp [finish, SortedMap.find_erase]
        | eagain => rfl
        | error => simp [finish, SortedMap.find_erase]
      · rw [if_neg (by simp [hin, hout]), Event.turn, if_neg hin, if_neg hout]
        rfl

theorem find_handleEvent_of_ne {e : Event} {r : EventResult} (hr : s.handleEvent e = some r)
    {id : ℕ} (hne : id ≠ e.data) : r.sched.ioIndex2req_.find id = s.ioIndex2req_.find id := by
  rcases handleEvent_cases hr with
    ⟨hs, -, -⟩ | ⟨p, retCode, sent, hp, rfl⟩ | ⟨p, retCode, hp, -, -, hs⟩
  · rw [hs]
  · simp [finish, SortedMap.find_erase, hne]
  · simp [hs, SortedMap.find_insertOrAssign, hne]

/-- The event loop does to a request what the events of its id do. -/
theorem find_handleEvents {events : List Event} {r : EventResult}
    (hr : s.handleEvents events = some r) (id : ℕ) :
    afterEvents id events (s.ioIndex2req_.find id) = some (r.sched.ioIndex2req_.find id) := by
  induction events generalizing s r with
  | nil =>
    cases hr
    rfl
  | cons e es ih =>
    obtain ⟨r₁, r₂, hr₁, hr₂, rfl⟩ := handleEvents_cons_eq_some hr
    rw [afterEvents, ← ih hr₂]
    split
    · rename_i heq
      rw [← heq, turn_eq, hr₁]
      rfl
    · rename_i hne
      rw [find_handleEvent_of_ne hr₁ (Ne.symm hne)]

/-- A failing `assert` fails in the events of one id. -/
theorem not_passes_of_handleEvents {events : List Event} (h : s.handleEvents events = none) :
    ¬ s.Passes events := by
  induction events generalizing s with
  | nil => cases h
  | cons e es ih =>
    intro hpasses
    cases hr : s.handleEvent e with
    | none =>
      apply hpasses e List.mem_cons_self
      rw [afterEvents, if_pos rfl, turn_eq, hr]
      rfl
    | some r =>
      have hrest : r.sched.handleEvents es = none := by simpa [handleEvents, hr] using h
      refine ih hrest fun e' he' hnone => hpasses e' (List.mem_cons_of_mem _ he') ?_
      rw [afterEvents]
      split
      · rename_i heq
        rw [← heq, turn_eq, hr]
        exact heq ▸ hnone
      · rename_i hne
        rw [← find_handleEvent_of_ne hr (Ne.symm hne)]
        exact hnone

/-- The event loop goes through exactly when no `assert` fails. -/
theorem passes_iff (s : EpollScheduler) (events : List Event) :
    s.Passes events ↔ ∃ r, s.handleEvents events = some r := by
  constructor
  · intro hpasses
    refine Option.ne_none_iff_exists'.1 fun hnone => not_passes_of_handleEvents hnone hpasses
  · rintro ⟨r, hr⟩ e -
    rw [find_handleEvents hr]
    simp

/-! ## The timers of the other requests -/

/-- An event leaves the timers as they are, or takes out that of the request it finishes. -/
theorem timerQueue_handleEvent {e : Event} {r : EventResult} (hr : s.handleEvent e = some r) :
    r.sched.timerQueue_ = s.timerQueue_ ∨
      r.sched.timerQueue_ = (s.timerQueue_.remove e.data).1 ∧
        ¬ r.sched.ioIndex2req_.HasKey e.data := by
  rcases handleEvent_cases hr with
    ⟨hs, -, -⟩ | ⟨p, retCode, sent, hp, rfl⟩ | ⟨p, retCode, hp, -, -, hs⟩
  · exact Or.inl (by rw [hs])
  · simp only [finish]
    split
    · exact Or.inr ⟨rfl, by simp [SortedMap.hasKey_erase]⟩
    · exact Or.inl rfl
  · exact Or.inl (by rw [hs])

/-- What the event loop makes of the timer queue: it only takes entries out, and the timers of the
requests that are still pending run out as before. -/
structure KeepsTimers (s : EpollScheduler) (r : EventResult) : Prop where
  index_eq : r.sched.timerQueue_.index_ = s.timerQueue_.index_
  word_of_word : ∀ t key, r.sched.timerQueue_.timeid2key_.find t = some key →
    s.timerQueue_.timeid2key_.find t = some key
  wf : s.timerQueue_.Wf → r.sched.timerQueue_.Wf
  paired : s.timerQueue_.Paired → r.sched.timerQueue_.Paired
  popped : s.timerQueue_.Paired → ∀ now id, r.sched.ioIndex2req_.HasKey id →
    (id ∈ (r.sched.timerQueue_.popExpired now).2 ↔ id ∈ (s.timerQueue_.popExpired now).2)

theorem keepsTimers_handleEvent {e : Event} {r : EventResult} (hr : s.handleEvent e = some r) :
    KeepsTimers s r := by
  rcases timerQueue_handleEvent hr with heq | ⟨heq, herased⟩
  · constructor <;> simp [heq]
  · refine ⟨?_, fun t key hfind => ?_, fun h => ?_, fun h => ?_, fun h now id hid => ?_⟩
    · rw [heq, TimerQueue.index_remove]
    · exact TimerQueue.find_remove (heq ▸ hfind)
    · exact heq ▸ TimerQueue.remove_wf h _
    · exact heq ▸ h.remove _
    · rw [heq]
      exact h.mem_popExpired_remove (by rintro rfl; exact herased hid)

theorem keepsTimers_handleEvents {events : List Event} {r : EventResult}
    (hr : s.handleEvents events = some r) : KeepsTimers s r := by
  induction events generalizing s r with
  | nil =>
    cases hr
    exact ⟨rfl, fun _ _ h => h, id, id, fun _ _ _ _ => Iff.rfl⟩
  | cons e es ih =>
    obtain ⟨r₁, r₂, hr₁, hr₂, rfl⟩ := handleEvents_cons_eq_some hr
    have hfirst := keepsTimers_handleEvent hr₁
    have hrest := ih hr₂
    refine ⟨hrest.index_eq.trans hfirst.index_eq, fun t key hfind => ?_,
      fun h => hrest.wf (hfirst.wf h), fun h => hrest.paired (hfirst.paired h),
      fun h now id hid => ?_⟩
    · exact hfirst.word_of_word t key (hrest.word_of_word t key hfind)
    · exact (hrest.popped (hfirst.paired h) now id hid).trans
        (hfirst.popped h now id ((shrinks_handleEvents hr₂).subset id hid))

end EpollScheduler

/-! ## The two conditions -/

namespace Epoll

open EpollScheduler

/-- Unless an `assert` fails, every request whose timer has run out is finished by an event of the
same `poll`. -/
def InTime (w : Epoll) : Action → Prop
  | .poll events now => w.sched.Passes events → ∀ id ∈ (w.sched.timerQueue_.popExpired now).2,
      afterEvents id events (w.sched.ioIndex2req_.find id) = some none
  | _ => True

instance (w : Epoll) : ∀ a, Decidable (InTime w a)
  | .read _ _ _ _ => .isTrue trivial
  | .write _ _ _ _ => .isTrue trivial
  | .poll events now =>
    inferInstanceAs (Decidable (w.sched.Passes events →
      ∀ id ∈ (w.sched.timerQueue_.popExpired now).2,
        afterEvents id events (w.sched.ioIndex2req_.find id) = some none))
  | .resume => .isTrue trivial
  | .close _ => .isTrue trivial

theorem noExpiry_iff_inTime {w : Epoll} (hpaired : w.sched.timerQueue_.Paired) (a : Action) :
    NoExpiry w a ↔ InTime w a := by
  cases a with
  | poll events now =>
    simp only [NoExpiry, InTime, passes_iff, Option.mem_def]
    constructor
    · rintro h ⟨r, hr⟩ id hid
      rw [find_handleEvents hr, Option.some_inj, ← SortedMap.not_hasKey_iff]
      intro hkey
      have hpopped := (keepsTimers_handleEvents hr).popped hpaired now id hkey
      exact h r hr id (hpopped.2 hid) hkey
    · intro h r hr id hid hkey
      have hpopped := (keepsTimers_handleEvents hr).popped hpaired now id hkey
      have hafter := h ⟨r, hr⟩ id (hpopped.1 hid)
      rw [find_handleEvents hr, Option.some_inj, ← SortedMap.not_hasKey_iff] at hafter
      exact hafter hkey
  | _ => exact Iff.rfl

/-! ## Runs -/

/-- The two maps of the timer queue agree.  With `n` requests so far, the timers' words were made
from fewer than `n` indices. -/
structure Timers (w : Epoll) : Prop where
  wf : w.sched.timerQueue_.Wf
  paired : w.sched.timerQueue_.Paired
  index_le : w.sched.timerQueue_.index_ ≤ w.requests
  word_lt : ∀ t key, w.sched.timerQueue_.timeid2key_.find t = some key →
    t % 2 ^ 32 < w.sched.timerQueue_.index_

theorem timers_new : Timers new where
  wf := TimerQueue.wf_empty
  paired := TimerQueue.paired_empty
  index_le := le_rfl
  word_lt t key h := by simp [new, EpollScheduler.new, TimerQueue.empty] at h

theorem Timers.added {w : Epoll} (h : Timers w) (req : IoRequest) (sent : List Segment) (fd : ℕ)
    (events : Interest) (now : ℕ) (hlt : w.requests + 1 < 2 ^ 32) :
    Timers (w.called (w.sched.added w.requests req sent fd events now)) := by
  have htimer := h.index_le
  by_cases htimeout : req.timeout > 0
  · have hqueue : (w.called (w.sched.added w.requests req sent fd events now)).sched.timerQueue_ =
        (w.sched.timerQueue_.add w.sched.ioIndex_ (now + req.timeout.toNat)).1 := if_pos htimeout
    have hfree := TimerQueue.not_hasKey_timeid h.wf.index_lt
      (fun t key ht => (h.word_lt t key ht).ne)
    refine ⟨?_, ?_, ?_, fun t key hfind => ?_⟩
    · rw [hqueue]
      exact TimerQueue.add_wf h.wf _ _
    · rw [hqueue]
      exact h.paired.add (hfree _)
    · rw [hqueue]
      exact (TimerQueue.index_add_le _ _ _).trans (Nat.succ_le_succ htimer)
    · rw [hqueue] at hfind ⊢
      exact TimerQueue.word_lt_add (by omega) h.word_lt _ _ hfind
  · have hqueue : (w.called (w.sched.added w.requests req sent fd events now)).sched.timerQueue_ =
        w.sched.timerQueue_ := if_neg htimeout
    constructor <;> rw [hqueue]
    · exact h.wf
    · exact h.paired
    · exact Nat.le_succ_of_le htimer
    · exact h.word_lt

theorem Timers.polled {w : Epoll} (h : Timers w) {events : List Event} {now : ℕ} {r : PollResult}
    (hr : w.sched.poll events now [] = some r) : Timers (w.polled r) := by
  obtain ⟨t, ht, hpoll⟩ := poll_isPoll hr
  have hkeeps := keepsTimers_handleEvents ht
  have hqueue : (w.polled r).sched.timerQueue_ = (t.sched.timerQueue_.popExpired now).1 :=
    hpoll.timerQueue_eq
  have hindex : (w.polled r).sched.timerQueue_.index_ = w.sched.timerQueue_.index_ := by
    rw [hqueue]
    exact hkeeps.index_eq
  refine ⟨?_, ?_, hindex ▸ h.index_le, fun u key hfind => ?_⟩
  · exact hqueue ▸ TimerQueue.popExpired_wf (hkeeps.wf h.wf) now
  · exact hqueue ▸ (hkeeps.paired h.paired).popExpired now
  · rw [hindex]
    rw [hqueue] at hfind
    exact h.word_lt u key (hkeeps.word_of_word u key (TimerQueue.find_popExpired.1 hfind).1)

theorem Timers.step {w v : Epoll} {a : Action} (h : Timers w) (hlt : v.requests < 2 ^ 32)
    (hv : Effect w a v) : Timers v := by
  cases hv with
  | called a ha r hr =>
    have hle : w.sched.timerQueue_.index_ ≤ w.requests + 1 := Nat.le_succ_of_le h.index_le
    cases hr with
    | complete req retCode sent => exact ⟨h.wf, h.paired, hle, h.word_lt⟩
    | added req sent fd events now => exact h.added req sent fd events now hlt
    | addFailed req sent => exact ⟨h.wf, h.paired, hle, h.word_lt⟩
  | polled events now r hreported hr => exact h.polled hr
  | aborted a => exact ⟨h.wf, h.paired, h.index_le, h.word_lt⟩
  | resumed h' hs => exact ⟨h.wf, h.paired, h.index_le, h.word_lt⟩
  | closed fd => exact ⟨h.wf, h.paired, h.index_le, h.word_lt⟩

/-- With fewer than `2 ^ 32` requests the two conditions are the same at every step of a run. -/
theorem always_noExpiry_iff {as : List Action} {w : Epoll} (hrun : run step new as = some w)
    (hlt : w.requests < 2 ^ 32) : Always step NoExpiry new as ↔ Always step InTime new as := by
  have hsame : Always step (fun u a => NoExpiry u a ↔ InTime u a) new as :=
    always_of_lt (fun _ _ _ hv => requests_le (effect_of_step hv))
      (fun _ _ _ hu hv hlt => hu.step hlt (effect_of_step hv))
      (fun _ a hu _ => noExpiry_iff_inTime hu.paired a) timers_new hrun hlt
  exact ⟨fun h => (h.and hsame).imp fun _ _ h => h.2.1 h.1,
    fun h => (h.and hsame).imp fun _ _ h => h.2.2 h.1⟩

end Epoll

end CoUringWeb
