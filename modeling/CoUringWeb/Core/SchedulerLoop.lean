import CoUringWeb.Core.EpollRuns
import Mathlib.Data.Multiset.AddSub

/-!
# The two vectors of `Scheduler::loop`

`Scheduler::loop` over `EpollScheduler` with its control points and with `readyHandleAddrs` as the
code has it: cleared at the loop head, handed to `poll`, and read by the range `for` while the
resumed coroutines push on `completedHandleAddrs_`.  At the end of `poll` the two vectors are
swapped, so that the expired contexts become the backlog of the next iteration.

A run of the loop is a run of `Epoll`, in which `ready` is what the range `for` has not read yet
(`loop_simulates`).  There the contexts are resumed in the order in which they were queued: those
queued are those resumed, then those ready, then the backlog (`Epoll.contexts_eq`).
-/

namespace CoUringWeb

open Machine Transition

def Queued.context (q : Queued) : Handle := q.req.context

/-! ## What is pushed -/

namespace EpollScheduler

variable {s : EpollScheduler}

theorem IsCall.pushes {number : ℕ} {r : CallResult} (hr : s.IsCall number r) :
    r.sched.completedHandleAddrs_ =
      s.completedHandleAddrs_ ++ r.queued.toList.map Queued.context := by
  cases hr with
  | complete req retCode sent => rfl
  | added req sent fd events now => exact (List.append_nil _).symm
  | addFailed req sent => rfl

theorem handleEvent_pushes {e : Event} {r : EventResult} (hr : s.handleEvent e = some r) :
    r.sched.completedHandleAddrs_ = s.completedHandleAddrs_ ++ r.queued.map Queued.context := by
  rcases handleEvent_cases hr with
    ⟨hs, hqueued, -⟩ | ⟨p, retCode, sent, -, rfl⟩ | ⟨p, retCode, -, hqueued, -, hs⟩
  · simp [hs, hqueued]
  · rfl
  · simp [hs, hqueued]

theorem handleEvents_pushes {events : List Event} {r : EventResult}
    (hr : s.handleEvents events = some r) :
    r.sched.completedHandleAddrs_ = s.completedHandleAddrs_ ++ r.queued.map Queued.context := by
  induction events generalizing s r with
  | nil =>
    cases hr
    exact (List.append_nil _).symm
  | cons e es ih =>
    obtain ⟨r₁, r₂, hr₁, hr₂, rfl⟩ := handleEvents_cons_eq_some hr
    calc r₂.sched.completedHandleAddrs_
        = r₁.sched.completedHandleAddrs_ ++ r₂.queued.map Queued.context := ih hr₂
      _ = s.completedHandleAddrs_ ++ (r₁.queued ++ r₂.queued).map Queued.context := by
        rw [handleEvent_pushes hr₁, List.map_append, List.append_assoc]

/-- The expiry loop pushes on the other vector. -/
theorem completed_expireLoop (s : EpollScheduler) (ids : List ℕ) :
    (s.expireLoop ids).1.completedHandleAddrs_ = s.completedHandleAddrs_ := by
  induction ids generalizing s with
  | nil => rfl
  | cons id ids ih =>
    rw [expireLoop, ih]
    unfold expireTurn
    split <;> rfl

/-- The two vectors after a `poll`: the backlog and the contexts of the events are ready, and the
expired contexts are the new backlog, behind what the caller's vector held. -/
theorem poll_swaps {events : List Event} {now : ℕ} {ready : List Handle} {r : PollResult}
    (hr : s.poll events now ready = some r) :
    r.ready = s.completedHandleAddrs_ ++ r.queued.map Queued.context ∧
      r.sched.completedHandleAddrs_ = ready ++ r.expired.map Queued.context := by
  obtain ⟨t, ht, rfl⟩ := Option.map_eq_some_iff.1 hr
  exact ⟨(completed_expireLoop _ _).trans (handleEvents_pushes ht), rfl⟩

end EpollScheduler

namespace Epoll

/-- The contexts queued for resumption so far, in order. -/
def contexts (w : Epoll) : List Handle := w.queued.map Queued.context

/-- `w` is `v` after the contexts `more` were pushed on `completedHandleAddrs_`. -/
structure Pushes (v w : Epoll) (more : List Handle) : Prop where
  contexts_eq : w.contexts = v.contexts ++ more
  backlog_eq : w.sched.completedHandleAddrs_ = v.sched.completedHandleAddrs_ ++ more
  ready_eq : w.ready = v.ready
  resumed_eq : w.resumed = v.resumed

theorem pushes_called (v : Epoll) {r : EpollScheduler.CallResult}
    (hr : v.sched.IsCall v.requests r) :
    Pushes v (v.called r) (r.queued.toList.map Queued.context) :=
  ⟨List.map_append, hr.pushes, rfl, rfl⟩

/-- The action is one of a coroutine: it calls `handleRead` or `handleWrite`, or closes a
descriptor. -/
def Action.OfCoroutine : Action → Prop
  | .read _ _ _ _ | .write _ _ _ _ | .close _ => True
  | .poll _ _ | .resume => False

instance : DecidablePred Action.OfCoroutine
  | .read _ _ _ _ | .write _ _ _ _ | .close _ => .isTrue trivial
  | .poll _ _ | .resume => .isFalse id

variable {v w : Epoll} {a : Action}

theorem pushes_of_step (ha : a.OfCoroutine) (h : step v a = some w) : ∃ more, Pushes v w more := by
  cases a with
  | read req readsz add now =>
    obtain ⟨r, hr, rfl⟩ := step_read h
    exact ⟨_, pushes_called v (EpollScheduler.handleRead_isCall hr)⟩
  | write req results add now =>
    obtain ⟨r, hr, rfl⟩ := step_write h
    exact ⟨_, pushes_called v (EpollScheduler.handleWrite_isCall hr)⟩
  | close fd =>
    obtain rfl := step_close h
    exact ⟨[], (List.append_nil _).symm, (List.append_nil _).symm, rfl, rfl⟩
  | poll events now => exact ha.elim
  | resume => exact ha.elim

/-- The contexts queued are those resumed, then those ready, then the backlog. -/
def Conserved (w : Epoll) : Prop :=
  w.contexts = w.resumed ++ w.ready ++ w.sched.completedHandleAddrs_

theorem Conserved.push {more : List Handle} (h : Conserved v) (hv : Pushes v w more) :
    Conserved w := by
  unfold Conserved at h ⊢
  rw [hv.contexts_eq, hv.backlog_eq, hv.ready_eq, hv.resumed_eq, h, List.append_assoc]

theorem Conserved.step (h : Conserved v) (hv : Epoll.step v a = some w) : Conserved w := by
  cases a with
  | read req readsz add now | write req results add now | close fd =>
    obtain ⟨more, hmore⟩ := pushes_of_step (by trivial) hv
    exact h.push hmore
  | poll events now =>
    obtain ⟨⟨hready, -, -⟩, ⟨-, rfl⟩ | ⟨r, hr, rfl⟩⟩ := step_poll hv
    · exact h
    · obtain ⟨hswap, hbacklog⟩ := EpollScheduler.poll_swaps hr
      unfold Conserved at h ⊢
      calc (v.polled r).contexts
          = v.contexts ++ r.queued.map Queued.context ++ r.expired.map Queued.context := by
            simp [contexts, polled]
        _ = v.resumed ++ (v.sched.completedHandleAddrs_ ++ r.queued.map Queued.context) ++
              r.expired.map Queued.context := by
            rw [h, hready, List.append_nil, List.append_assoc v.resumed]
        _ = (v.polled r).resumed ++ (v.polled r).ready ++
              (v.polled r).sched.completedHandleAddrs_ := by
            simp only [polled, hswap, hbacklog, List.nil_append]
  | resume =>
    obtain ⟨c, cs, hready, rfl⟩ := step_resume hv
    unfold Conserved at h ⊢
    simpa [contexts, hready] using h

/-- In every run the contexts are resumed in the order in which they were queued. -/
theorem contexts_eq {as : List Action} (hrun : run step new as = some w) :
    w.contexts = w.resumed ++ w.ready ++ w.sched.completedHandleAddrs_ :=
  run_invariant (fun _ _ _ h hv => Conserved.step h hv) (s := new) (I := Conserved) rfl hrun

theorem step_poll_of_ready (haborted : ¬ v.aborted) (hready : v.ready = []) {events : List Event}
    (hlength : events.length ≤ 32) (hreported : ∀ e ∈ events, e.data ∈ v.registered) (now : ℕ) :
    step v (.poll events now) =
      match v.sched.poll events now [] with
      | none => some { v with aborted := true }
      | some r => some (v.polled r) := by
  unfold step
  rw [if_neg haborted]
  exact if_pos ⟨hready, hlength, hreported⟩

theorem step_resume_of_ready (haborted : ¬ v.aborted) {c : Handle} {cs : List Handle}
    (hready : v.ready = c :: cs) :
    step v .resume = some { v with ready := cs, resumed := v.resumed ++ [c] } := by
  unfold step
  rw [if_neg haborted]
  simp only [hready]

/-- What a coroutine does leaves the vector of the range `for` alone. -/
theorem step_withReady (ha : a.OfCoroutine) (h : step v a = some w) (ready : List Handle) :
    step { v with ready := ready } a = some { w with ready := ready } := by
  have haborted : ¬ v.aborted := fun hv => by simp [step, hv] at h
  unfold step
  rw [if_neg haborted]
  cases a with
  | read req readsz add now =>
    obtain ⟨r, hr, rfl⟩ := step_read h
    exact congrArg (Option.map _) hr
  | write req results add now =>
    obtain ⟨r, hr, rfl⟩ := step_write h
    exact congrArg (Option.map _) hr
  | close fd =>
    obtain rfl := step_close h
    rfl
  | poll events now => exact ha.elim
  | resume => exact ha.elim

end Epoll

/-! ## The loop -/

/-- Where `Scheduler::loop` is. -/
inductive Point where
  /-- before `readyHandleAddrs.clear()` -/
  | head
  /-- at `while (queue_->pop(conn)) func_(conn, this)` -/
  | connections
  /-- in the range `for`, after `i` resumptions -/
  | resuming (i : ℕ)
  deriving DecidableEq, Repr

/-- `ready` is the whole of `readyHandleAddrs` here. -/
structure SchedulerLoop extends Epoll where
  point : Point
  deriving DecidableEq

namespace SchedulerLoop

inductive Action where
  /-- `readyHandleAddrs.clear()` -/
  | clear
  /-- a coroutine, started by `func_` or resumed, does something at any point but the head -/
  | coroutine (a : Epoll.Action)
  /-- `impl_.poll(readyHandleAddrs)` -/
  | poll (events : List Event) (now : ℕ)
  /-- `handle.resume()` -/
  | resume
  /-- the end of the range `for` -/
  | finish
  deriving DecidableEq, Repr

def new : SchedulerLoop := { Epoll.new with point := .head }

def step (l : SchedulerLoop) (a : Action) : Option SchedulerLoop :=
  if l.aborted then none
  else
    match a with
    | .clear =>
      if l.point = .head then some { l with ready := [], point := .connections } else none
    | .coroutine a =>
      if l.point ≠ .head ∧ a.OfCoroutine then
        (Epoll.step l.toEpoll a).map fun w => { w with point := l.point }
      else none
    | .poll events now =>
      -- only registered ids are reported
      if l.point = .connections ∧ events.length ≤ 32 ∧ ∀ e ∈ events, e.data ∈ l.registered then
        match l.sched.poll events now l.ready with
        | none => some { l with aborted := true }
        | some r => some { l.toEpoll.polled r with point := .resuming 0 }
      else none
    | .resume =>
      match l.point with
      | .resuming i =>
        (l.ready[i]?).map fun h =>
          { l with resumed := l.resumed ++ [h], point := .resuming (i + 1) }
      | _ => none
    | .finish =>
      if l.point = .resuming l.ready.length then some { l with point := .head } else none

/-- What the range `for` has not read yet. -/
def unread (l : SchedulerLoop) : List Handle :=
  match l.point with
  | .resuming i => l.ready.drop i
  | _ => []

/-- The effects of the actions. -/
inductive Effect (l : SchedulerLoop) : Action → SchedulerLoop → Prop where
  | clear (hpoint : l.point = .head) :
      Effect l .clear { l with ready := [], point := .connections }
  | coroutine (a : Epoll.Action) (w : Epoll) (hpoint : l.point ≠ .head) (ha : a.OfCoroutine)
      (hw : Epoll.step l.toEpoll a = some w) :
      Effect l (.coroutine a) { w with point := l.point }
  | aborted (events : List Event) (now : ℕ) (hpoint : l.point = .connections)
      (hlength : events.length ≤ 32) (hreported : ∀ e ∈ events, e.data ∈ l.registered)
      (hr : l.sched.poll events now l.ready = none) :
      Effect l (.poll events now) { l with aborted := true }
  | polled (events : List Event) (now : ℕ) (r : EpollScheduler.PollResult)
      (hpoint : l.point = .connections) (hlength : events.length ≤ 32)
      (hreported : ∀ e ∈ events, e.data ∈ l.registered)
      (hr : l.sched.poll events now l.ready = some r) :
      Effect l (.poll events now) { l.toEpoll.polled r with point := .resuming 0 }
  | resume (i : ℕ) (h : Handle) (hpoint : l.point = .resuming i) (hget : l.ready[i]? = some h) :
      Effect l .resume { l with resumed := l.resumed ++ [h], point := .resuming (i + 1) }
  | finish (hpoint : l.point = .resuming l.ready.length) :
      Effect l .finish { l with point := .head }

variable {l m : SchedulerLoop} {a : Action}

theorem not_aborted_of_step (h : step l a = some m) : ¬ l.aborted := fun hl => by
  simp [step, hl] at h

theorem effect_of_step (h : step l a = some m) : Effect l a m := by
  have haborted := not_aborted_of_step h
  unfold step at h
  rw [if_neg haborted] at h
  cases a with
  | clear =>
    dsimp only at h
    split at h <;> cases h
    rename_i hpoint
    exact .clear hpoint
  | coroutine a =>
    dsimp only at h
    split at h
    · rename_i hguard
      obtain ⟨w, hw, rfl⟩ := Option.map_eq_some_iff.1 h
      exact .coroutine a w hguard.1 hguard.2 hw
    · cases h
  | poll events now =>
    dsimp only at h
    split at h
    · rename_i hguard
      obtain ⟨hpoint, hlength, hreported⟩ := hguard
      cases hr : l.sched.poll events now l.ready with
      | none =>
        rw [hr] at h
        cases h
        exact .aborted events now hpoint hlength hreported hr
      | some r =>
        rw [hr] at h
        cases h
        exact .polled events now r hpoint hlength hreported hr
    · cases h
  | resume =>
    dsimp only at h
    split at h
    · rename_i i hpoint
      obtain ⟨c, hc, rfl⟩ := Option.map_eq_some_iff.1 h
      exact .resume i c hpoint hc
    · cases h
  | finish =>
    dsimp only at h
    split at h <;> cases h
    rename_i hpoint
    exact .finish hpoint

/-! ## The loop and `Epoll` -/

/-- The state of `Epoll`, which does not have what was read. -/
def outstanding (l : SchedulerLoop) : Epoll := { l.toEpoll with ready := l.unread }

/-- `w` is the state of the loop, and `readyHandleAddrs` is cleared in front of `poll`. -/
structure Matches (l : SchedulerLoop) (w : Epoll) : Prop where
  eq : w = l.outstanding
  cleared : l.point = .connections → l.ready = []

theorem Matches.step {w : Epoll} (hl : Matches l w) (h : step l a = some m) :
    ∃ bs v, run Epoll.step w bs = some v ∧ Matches m v := by
  have haborted := not_aborted_of_step h
  obtain ⟨rfl, hcleared⟩ := hl
  cases effect_of_step h with
  | clear hpoint =>
    refine ⟨[], _, rfl, ?_, fun _ => rfl⟩
    simp [outstanding, unread, hpoint]
  | coroutine a v hpoint ha hv =>
    obtain ⟨more, hmore⟩ := Epoll.pushes_of_step ha hv
    refine ⟨[a], _, run_singleton.2 (Epoll.step_withReady ha hv _), ?_, fun hp => ?_⟩
    · simp [outstanding, unread, hmore.ready_eq]
    · exact hmore.ready_eq.trans (hcleared hp)
  | aborted events now hpoint hlength hreported hr =>
    have hunread : l.unread = [] := by simp [unread, hpoint]
    refine ⟨[.poll events now], _, run_singleton.2 ?_, rfl, hcleared⟩
    have hstep := Epoll.step_poll_of_ready (v := l.outstanding) haborted hunread hlength
      hreported now
    have hpoll : l.outstanding.sched.poll events now [] = none := hcleared hpoint ▸ hr
    rw [hstep, hpoll]
    rfl
  | polled events now r hpoint hlength hreported hr =>
    have hunread : l.unread = [] := by simp [unread, hpoint]
    refine ⟨[.poll events now], _, run_singleton.2 ?_, rfl, fun hp => by cases hp⟩
    have hstep := Epoll.step_poll_of_ready (v := l.outstanding) haborted hunread hlength
      hreported now
    have hpoll : l.outstanding.sched.poll events now [] = some r := hcleared hpoint ▸ hr
    rw [hstep, hpoll]
    rfl
  | resume i c hpoint hget =>
    obtain ⟨hlt, rfl⟩ := List.getElem?_eq_some_iff.1 hget
    have hunread : l.unread = l.ready[i] :: l.ready.drop (i + 1) := by
      simp only [unread, hpoint, List.drop_eq_getElem_cons hlt]
    refine ⟨[.resume], _, run_singleton.2 ?_, rfl, fun hp => by cases hp⟩
    exact Epoll.step_resume_of_ready (v := l.outstanding) haborted hunread
  | finish hpoint =>
    refine ⟨[], _, rfl, ?_, fun hp => by cases hp⟩
    simp [outstanding, unread, hpoint]

variable {as : List Action}

theorem loop_simulates (hrun : run step new as = some l) :
    ∃ bs w, run Epoll.step Epoll.new bs = some w ∧ Matches l w :=
  run_simulation (fun _ _ _ _ hl h => hl.step h) ⟨rfl, fun hp => by cases hp⟩ hrun

/-- The contexts queued are those resumed, then those of the range `for`, then the backlog. -/
theorem contexts_eq (hrun : run step new as = some l) :
    l.contexts = l.resumed ++ l.unread ++ l.sched.completedHandleAddrs_ := by
  obtain ⟨bs, w, hw, rfl, -⟩ := loop_simulates hrun
  exact Epoll.contexts_eq hw

/-! ## One iteration -/

/-- What is resumed by the end of the iteration, as far as it is settled: up to `poll` the backlog,
and then what the swap made of it. -/
def settled (l : SchedulerLoop) : List Handle :=
  match l.point with
  | .head => l.resumed
  | .connections => l.resumed ++ l.sched.completedHandleAddrs_
  | .resuming i => l.resumed ++ l.ready.drop i

/-- Within an iteration nothing that is settled is lost or moved. -/
theorem settled_grow (ha : a ≠ .clear) (h : Effect l a m) : l.settled <+: m.settled := by
  cases h with
  | clear hpoint => exact absurd rfl ha
  | coroutine a w hpoint hof hw =>
    obtain ⟨more, hmore⟩ := Epoll.pushes_of_step hof hw
    cases hp : l.point with
    | head => exact absurd hp hpoint
    | connections =>
      simp only [settled, hp, hmore.resumed_eq, hmore.backlog_eq, ← List.append_assoc]
      exact List.prefix_append _ _
    | resuming i =>
      simp only [settled, hp, hmore.resumed_eq, hmore.ready_eq]
      exact List.prefix_rfl
  | aborted events now hpoint hlength hreported hr => exact List.prefix_rfl
  | polled events now r hpoint hlength hreported hr =>
    have hswap := (EpollScheduler.poll_swaps hr).1
    have hresumed : (l.toEpoll.polled r).resumed = l.resumed := rfl
    have hready : (l.toEpoll.polled r).ready = r.ready := rfl
    simp only [settled, hpoint, hresumed, hready, hswap, List.drop_zero, ← List.append_assoc]
    exact List.prefix_append _ _
  | resume i c hpoint hget =>
    obtain ⟨hlt, rfl⟩ := List.getElem?_eq_some_iff.1 hget
    simp only [settled, hpoint, List.append_assoc, List.singleton_append,
      ← List.drop_eq_getElem_cons hlt]
    exact List.prefix_rfl
  | finish hpoint =>
    simp only [settled, hpoint, List.drop_length, List.append_nil]
    exact List.prefix_rfl

/-- `u` is the loop head at which the last iteration of the run `as` began. -/
def LastHead (as : List Action) (u : SchedulerLoop) : Prop :=
  ∃ bs cs, as = bs ++ .clear :: cs ∧ .clear ∉ cs ∧ run step new bs = some u

/-- A run begins with an iteration. -/
theorem exists_lastHead (hrun : run step new as = some l) (hne : as ≠ []) :
    ∃ u, LastHead as u := by
  have hmem : Action.clear ∈ as := by
    obtain ⟨a, as, rfl⟩ := List.exists_cons_of_ne_nil hne
    obtain ⟨u, hu, -⟩ := run_cons.1 hrun
    cases effect_of_step hu with
    | clear hpoint => exact List.mem_cons_self
    | coroutine a w hpoint ha hw => exact absurd rfl hpoint
    | aborted events now hpoint hlength hreported hr => cases hpoint
    | polled events now r hpoint hlength hreported hr => cases hpoint
    | resume i c hpoint hget => cases hpoint
    | finish hpoint => cases hpoint
  -- the last occurrence is the first one from behind
  obtain ⟨cs, bs, hsplit, hcs⟩ := List.eq_append_cons_of_mem (List.mem_reverse.2 hmem)
  have has : as = bs.reverse ++ .clear :: cs.reverse := by
    rw [← List.reverse_reverse as, hsplit]
    simp
  rw [has] at hrun
  obtain ⟨u, hu, -⟩ := run_append.1 hrun
  exact ⟨u, _, _, has, fun hc => hcs (List.mem_reverse.1 hc), hu⟩

variable {u : SchedulerLoop}

theorem contexts_eq_of_head (hrun : run step new as = some l) (hhead : l.point = .head) :
    l.contexts = l.resumed ++ l.sched.completedHandleAddrs_ := by
  simpa [unread, hhead] using contexts_eq hrun

theorem LastHead.point_eq (hu : LastHead as u) (hrun : run step new as = some l) :
    u.point = .head := by
  obtain ⟨bs, cs, rfl, -, hbs⟩ := hu
  obtain ⟨u', hu', hrest⟩ := run_append.1 hrun
  cases hbs.symm.trans hu'
  obtain ⟨v, hv, -⟩ := run_cons.1 hrest
  cases effect_of_step hv with
  | clear hpoint => exact hpoint

/-- At a loop head everything queued before the last iteration has been resumed. -/
theorem LastHead.contexts_prefix (hu : LastHead as u) (hrun : run step new as = some l)
    (hhead : l.point = .head) : u.contexts <+: l.resumed := by
  have hpoint := hu.point_eq hrun
  obtain ⟨bs, cs, rfl, hcs, hbs⟩ := hu
  obtain ⟨u', hu', hrest⟩ := run_append.1 hrun
  cases hbs.symm.trans hu'
  obtain ⟨v, hv, hrest⟩ := run_cons.1 hrest
  have hstart : v.settled = u.contexts := by
    cases effect_of_step hv with
    | clear _ => exact (contexts_eq_of_head hbs hpoint).symm
  have hapart : Always step (fun _ a => a ≠ Action.clear) v cs :=
    always_of_mem (P := fun a => a ≠ Action.clear) (fun a ha heq => hcs (heq ▸ ha)) v
  have hgrow : v.settled <+: l.settled :=
    run_invariant_of_always (I := fun m => v.settled <+: m.settled)
      (fun _ _ _ hs ha ht => hs.trans (settled_grow ha (effect_of_step ht))) List.prefix_rfl
      hapart hrest
  rw [hstart] at hgrow
  simpa only [settled, hhead] using hgrow

/-- In every run of the loop, at every loop head, the contexts queued so far are those resumed and
those in `completedHandleAddrs_`.  The last iteration resumed what the loop head before it had in
`completedHandleAddrs_`, and left there only contexts queued since. -/
theorem contexts_conserved (hrun : run step new as = some l) (hhead : l.point = .head) :
    (l.contexts : Multiset Handle) = l.resumed + l.sched.completedHandleAddrs_ ∧
    (as = [] ∨ ∃ u early, LastHead as u ∧
      l.contexts = u.contexts ++ early ++ l.sched.completedHandleAddrs_ ∧
      l.resumed = u.resumed ++ u.sched.completedHandleAddrs_ ++ early) := by
  have hcontexts := contexts_eq_of_head hrun hhead
  refine ⟨by rw [hcontexts, Multiset.coe_add], or_iff_not_imp_left.2 fun hne => ?_⟩
  obtain ⟨u, hu⟩ := exists_lastHead hrun hne
  obtain ⟨early, hearly⟩ := hu.contexts_prefix hrun hhead
  have hbefore : u.contexts = u.resumed ++ u.sched.completedHandleAddrs_ := by
    have hpoint := hu.point_eq hrun
    obtain ⟨bs, cs, -, -, hbs⟩ := hu
    exact contexts_eq_of_head hbs hpoint
  exact ⟨u, early, hu, by rw [hearly, hcontexts], by rw [← hearly, hbefore]⟩

/-- A read expires in the iteration in which another one completes, and the coroutine resumed for
that one reads again. -/
theorem contexts_conserved_expiry :
    ∃ l, run step new
        [.clear,
          .coroutine
            (.read { capicaty := 8, fd := 3, context := 100, op := .OP_READ, timeout := 10 } .eagain
              true 0),
          .coroutine (.read { capicaty := 8, fd := 4, context := 200, op := .OP_READ } (.count 5)
            true 0),
          .poll [] 20, .resume,
          .coroutine (.read { capicaty := 8, fd := 4, context := 300, op := .OP_READ } (.count 5)
            true 20), .finish] = some l ∧
      l.resumed = [200] ∧ l.sched.completedHandleAddrs_ = [100, 300] ∧
      (l.contexts : Multiset Handle) = l.resumed + l.sched.completedHandleAddrs_ := by
  refine ⟨_, rfl, by decide, by decide, ?_⟩
  have hrun : run step new
      [.clear,
        .coroutine
          (.read { capicaty := 8, fd := 3, context := 100, op := .OP_READ, timeout := 10 } .eagain
            true 0),
        .coroutine (.read { capicaty := 8, fd := 4, context := 200, op := .OP_READ } (.count 5)
          true 0),
        .poll [] 20, .resume,
        .coroutine (.read { capicaty := 8, fd := 4, context := 300, op := .OP_READ } (.count 5)
          true 20), .finish] = some _ := rfl
  exact (contexts_conserved hrun rfl).1

end SchedulerLoop

end CoUringWeb
