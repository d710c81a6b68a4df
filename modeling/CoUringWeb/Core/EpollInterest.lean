import CoUringWeb.Core.EpollExpiry
import Mathlib.Logic.Function.Basic

/-!
# The epoll set and the pending requests

`Watched` relates what epoll watches to the requests that `ioIndex2req_` remembers: every
registered id is remembered with the registered descriptor as its `req.fd`, and the descriptor of
every request that still waits is registered under its id.

`handleRead` establishes it for a new request.  `handleWrite` hands the id to `epoll_ctl` in the
place of the descriptor, so there it depends on the two numbers being equal
(`RegistersDescriptor`).  The expiry loop pushes the context of a request and leaves it registered.
-/

namespace CoUringWeb

open Machine Transition

namespace EpollScheduler

/-! ## The relation -/

/-- The number and the descriptor of the request under an id. -/
def owner (s : EpollScheduler) (id : ℕ) : Option (ℕ × ℕ) :=
  (s.ioIndex2req_.find id).map fun p => (p.number, p.req.fd)

/-- The contexts of the requests `pushed` were pushed, and `reported` are ids for which events may
still come in the same `poll`. -/
structure Watched (owner : ℕ → Option (ℕ × ℕ)) (pushed reported : List ℕ)
    (set : List Registration) : Prop where
  fds_nodup : (set.map Registration.fd).Nodup
  own : ∀ g ∈ set, ∃ number, owner g.data = some (number, g.fd)
  covered : ∀ id number fd, owner id = some (number, fd) → (number ∉ pushed ∨ id ∈ reported) →
    ∃ g ∈ set, g.fd = fd ∧ g.data = id

variable {owner : ℕ → Option (ℕ × ℕ)} {pushed reported : List ℕ} {set : List Registration}
  {id number fd : ℕ}

theorem watched_empty : Watched (fun _ => none) [] [] [] where
  fds_nodup := List.nodup_nil
  own g hg := by simp at hg
  covered id number fd h := by cases h

/-- A descriptor is registered once. -/
theorem Watched.eq_of_fd (h : Watched owner pushed reported set) {g g' : Registration}
    (hg : g ∈ set) (hg' : g' ∈ set) (heq : g.fd = g'.fd) : g = g' :=
  List.inj_on_of_nodup_map h.fds_nodup hg hg' heq

theorem Watched.push (h : Watched owner pushed [] set) (more : List ℕ) :
    Watched owner (pushed ++ more) [] set :=
  { h with
    covered := fun id number fd ho hwaits => h.covered id number fd ho
      (hwaits.imp_left fun hnew hmem => hnew (List.mem_append_left _ hmem)) }

/-- The events of a `poll` are reported for registered ids. -/
theorem Watched.report (h : Watched owner pushed [] set) :
    Watched owner pushed (set.map Registration.data) set := by
  refine { h with covered := fun id number fd ho hwaits => ?_ }
  rcases hwaits with hnew | hreported
  · exact h.covered id number fd ho (Or.inl hnew)
  · obtain ⟨g, hg, rfl⟩ := List.mem_map.1 hreported
    obtain ⟨number', ho'⟩ := h.own g hg
    cases ho.symm.trans ho'
    exact ⟨g, hg, rfl, rfl⟩

theorem Watched.unreport (h : Watched owner pushed reported set) :
    Watched owner pushed [] set :=
  { h with
    covered := fun id number fd ho hwaits => h.covered id number fd ho
      (Or.inl (hwaits.resolve_right List.not_mem_nil)) }

/-- A new request waits and its own descriptor was registered. -/
theorem Watched.register (h : Watched owner pushed [] set) {g : Registration}
    (hid : owner g.data = none) (hfd : g.fd ∉ set.map Registration.fd) :
    Watched (Function.update owner g.data (some (number, g.fd))) pushed [] (set ++ [g]) := by
  refine ⟨?_, fun g' hg' => ?_, fun id' number' fd' ho hwaits => ?_⟩
  · rw [List.map_append]
    exact h.fds_nodup.append (List.nodup_singleton _) (by simpa using hfd)
  · rcases List.mem_append.1 hg' with hg' | hg'
    · obtain ⟨number', ho⟩ := h.own g' hg'
      have hne : g'.data ≠ g.data := fun heq => by
        rw [heq, hid] at ho
        cases ho
      exact ⟨number', by rwa [Function.update_of_ne hne]⟩
    · rw [List.mem_singleton.1 hg']
      exact ⟨number, Function.update_self _ _ _⟩
  · by_cases heq : id' = g.data
    · rw [heq, Function.update_self] at ho
      cases ho
      exact ⟨g, by simp, rfl, heq.symm⟩
    · rw [Function.update_of_ne heq] at ho
      obtain ⟨g', hg', hmatch⟩ := h.covered id' number' fd' ho hwaits
      exact ⟨g', List.mem_append_left _ hg', hmatch⟩

/-- A new request is remembered and pushed at once. -/
theorem Watched.remember (h : Watched owner pushed [] set) (hid : owner id = none) :
    Watched (Function.update owner id (some (number, fd))) (pushed ++ [number]) [] set := by
  refine ⟨h.fds_nodup, fun g hg => ?_, fun id' number' fd' ho hwaits => ?_⟩
  · obtain ⟨number', ho⟩ := h.own g hg
    have hne : g.data ≠ id := fun heq => by
      rw [heq, hid] at ho
      cases ho
    exact ⟨number', by rwa [Function.update_of_ne hne]⟩
  · have hnew := hwaits.resolve_right List.not_mem_nil
    by_cases heq : id' = id
    · rw [heq, Function.update_self] at ho
      cases ho
      exact absurd (by simp) hnew
    · rw [Function.update_of_ne heq] at ho
      exact h.covered id' number' fd' ho
        (Or.inl fun hmem => hnew (List.mem_append_left _ hmem))

/-- The request of a reported id is pushed and leaves the map and the epoll set. -/
theorem Watched.finish (h : Watched owner pushed reported set)
    (ho : owner id = some (number, fd)) (hreported : id ∈ reported) :
    Watched (Function.update owner id none) (pushed ++ [number]) reported
      (set.filter fun g => g.fd ≠ fd) := by
  obtain ⟨g, hg, hgfd, hgid⟩ := h.covered id number fd ho (Or.inr hreported)
  refine ⟨?_, fun g' hg' => ?_, fun id' number' fd' ho' hwaits => ?_⟩
  · exact h.fds_nodup.sublist (List.filter_sublist.map _)
  · obtain ⟨hg', hne⟩ := List.mem_filter.1 hg'
    obtain ⟨number', ho'⟩ := h.own g' hg'
    have hid : g'.data ≠ id := fun heq => by
      rw [heq, ho] at ho'
      cases ho'
      simp at hne
    exact ⟨number', by rwa [Function.update_of_ne hid]⟩
  · by_cases heq : id' = id
    · rw [heq, Function.update_self] at ho'
      cases ho'
    · rw [Function.update_of_ne heq] at ho'
      obtain ⟨g', hg', hmatch⟩ := h.covered id' number' fd' ho'
        (hwaits.imp_left fun hnew hmem => hnew (List.mem_append_left _ hmem))
      refine ⟨g', List.mem_filter.2 ⟨hg', ?_⟩, hmatch⟩
      have hne : g'.fd ≠ fd := fun hfd => by
        have hsame := h.eq_of_fd hg' hg (hfd.trans hgfd.symm)
        exact heq (hmatch.2.symm.trans (hsame ▸ hgid))
      simpa using hne

/-- A descriptor that no waiting request has is closed. -/
theorem Watched.close (h : Watched owner pushed [] set)
    (hidle : ∀ id number, owner id = some (number, fd) → number ∈ pushed) :
    Watched owner pushed [] (set.filter fun g => g.fd ≠ fd) := by
  refine ⟨h.fds_nodup.sublist (List.filter_sublist.map _),
    fun g hg => h.own g (List.mem_filter.1 hg).1, fun id number fd' ho hwaits => ?_⟩
  obtain ⟨g, hg, hgfd, hgid⟩ := h.covered id number fd' ho hwaits
  refine ⟨g, List.mem_filter.2 ⟨hg, ?_⟩, hgfd, hgid⟩
  have hne : g.fd ≠ fd := fun heq =>
    hwaits.resolve_right List.not_mem_nil (hidle id number (by rw [ho, ← hgfd, heq]))
  simpa using hne

/-! ## The operations -/

variable {s : EpollScheduler}

theorem owner_eq_none (h : ¬ s.ioIndex2req_.HasKey id) : s.owner id = none := by
  rw [EpollScheduler.owner, SortedMap.not_hasKey_iff.1 h, Option.map_none]

/-- A request is remembered under the next id. -/
theorem owner_insert (hfresh : ¬ s.ioIndex2req_.HasKey s.ioIndex_) {t : EpollScheduler}
    {p : ReqPtr} (ht : t.ioIndex2req_ = s.ioIndex2req_.insert s.ioIndex_ p) :
    t.owner = Function.update s.owner s.ioIndex_ (some (p.number, p.req.fd)) := by
  funext id
  by_cases h : id = s.ioIndex_ <;>
    simp [EpollScheduler.owner, ht, SortedMap.find_insert, h, hfresh]

theorem owner_finish {e : Event} {p : ReqPtr} (retCode : ℤ) (sent : List Segment) :
    (s.finish e p retCode sent).sched.owner = Function.update s.owner e.data none := by
  funext id
  by_cases h : id = e.data <;> simp [EpollScheduler.owner, finish, SortedMap.find_erase, h]

/-- Writing `retCode` through the address of a request changes no owner. -/
theorem owner_assign {p : ReqPtr} (hp : s.ioIndex2req_.find id = some p) (retCode : ℤ)
    {t : EpollScheduler} (ht : t.ioIndex2req_ = s.ioIndex2req_.insertOrAssign id
      { p with req := { p.req with retCode := retCode } }) : t.owner = s.owner := by
  funext id'
  by_cases h : id' = id <;>
    simp [EpollScheduler.owner, ht, SortedMap.find_insertOrAssign, h, hp]

theorem owner_expireLoop (ids : List ℕ) : (s.expireLoop ids).1.owner = s.owner := by
  funext id
  rw [EpollScheduler.owner, find_expireLoop, Option.map_map]
  by_cases h : id ∈ ids <;> simp [EpollScheduler.owner, h, Function.comp_def, ReqPtr.expired]

/-- `EPOLL_CTL_DEL` succeeds for the descriptors `fds`. -/
def DelSucceeds (fds : List ℕ) (s : EpollScheduler) (e : Event) : Prop :=
  ∀ p ∈ s.ioIndex2req_.find e.data, p.req.fd ∈ fds → e.del = true

instance (fds : List ℕ) (s : EpollScheduler) (e : Event) : Decidable (DelSucceeds fds s e) :=
  inferInstanceAs (Decidable (∀ p ∈ s.ioIndex2req_.find e.data, _))

variable {fds : List ℕ}

theorem Watched.handleEvent {e : Event} {r : EventResult}
    (h : Watched s.owner pushed reported set) (hfds : set.map Registration.fd ⊆ fds)
    (hreported : e.data ∈ reported) (hdel : DelSucceeds fds s e)
    (hr : s.handleEvent e = some r) :
    Watched r.sched.owner (pushed ++ r.queued.map Queued.number) reported
      (set.filter fun g => g.fd ∉ r.deleted) := by
  rcases handleEvent_cases hr with
    ⟨hs, hq, hd⟩ | ⟨p, retCode, sent, hp, rfl⟩ | ⟨p, retCode, hp, hq, hd, hs⟩
  · simpa [hs, hq, hd] using h
  · have ho : s.owner e.data = some (p.number, p.req.fd) := by
      rw [EpollScheduler.owner, hp, Option.map_some]
    obtain ⟨g, hg, hgfd, -⟩ := h.covered _ _ _ ho (Or.inr hreported)
    have hmem : p.req.fd ∈ fds := hfds (hgfd ▸ List.mem_map_of_mem hg)
    rw [owner_finish]
    simpa [EpollScheduler.finish, hdel p hp hmem] using h.finish ho hreported
  · rw [owner_assign hp retCode (by rw [hs])]
    simpa [hq, hd] using h

theorem Watched.handleEvents {events : List Event} {r : EventResult}
    (h : Watched s.owner pushed reported set) (hfds : set.map Registration.fd ⊆ fds)
    (hreported : ∀ e ∈ events, e.data ∈ reported)
    (hdel : Always eventStep (DelSucceeds fds) s events) (hr : s.handleEvents events = some r) :
    Watched r.sched.owner (pushed ++ r.queued.map Queued.number) reported
      (set.filter fun g => g.fd ∉ r.deleted) := by
  induction events generalizing s pushed set r with
  | nil =>
    cases hr
    simpa using h
  | cons e es ih =>
    obtain ⟨r₁, r₂, hr₁, hr₂, rfl⟩ := handleEvents_cons_eq_some hr
    rw [List.forall_mem_cons] at hreported
    have hfirst := h.handleEvent hfds hreported.1 hdel.1 hr₁
    have hfds' : (set.filter fun g => g.fd ∉ r₁.deleted).map Registration.fd ⊆ fds :=
      List.Subset.trans (List.filter_sublist.map _).subset hfds
    have hnext : eventStep s e = some r₁.sched := by rw [eventStep, hr₁, Option.map_some]
    have hrest := ih hfirst hfds' hreported.2 (hdel.2 _ hnext) hr₂
    simpa [List.filter_filter, Bool.and_comm] using hrest

end EpollScheduler

/-! ## Runs -/

namespace Epoll

open EpollScheduler

/-- What `epoll_ctl` and the coroutines promise: a descriptor is not added twice, one that is in the
epoll set can be taken out, and a descriptor is not closed while a request waits for it. -/
def FdsHeld (w : Epoll) : Action → Prop
  | .read req readsz add _ =>
    readsz = .eagain → add = true → req.fd ∉ w.epollset.map Registration.fd
  | .write req results add _ =>
    Waits { number := w.requests, req := req } results → add = true →
      uint32 w.sched.ioIndex_ ∉ w.epollset.map Registration.fd
  | .poll events _ => Always eventStep (DelSucceeds (w.epollset.map Registration.fd)) w.sched events
  | .resume => True
  | .close fd =>
    ∀ e ∈ w.sched.ioIndex2req_.entries, e.2.req.fd = fd → e.2.number ∈ w.queuedNumbers

/-- `handleWrite` registers the descriptor of its request: the id it hands to `epoll_ctl` is that
number. -/
def RegistersDescriptor (w : Epoll) : Action → Prop
  | .write req results add _ =>
    Waits { number := w.requests, req := req } results → add = true →
      uint32 w.sched.ioIndex_ = req.fd
  | _ => True

instance (w : Epoll) : ∀ a, Decidable (FdsHeld w a)
  | .read req readsz add _ =>
    inferInstanceAs (Decidable (readsz = .eagain → add = true →
      req.fd ∉ w.epollset.map Registration.fd))
  | .write req results add _ =>
    inferInstanceAs (Decidable (Waits { number := w.requests, req := req } results → add = true →
      uint32 w.sched.ioIndex_ ∉ w.epollset.map Registration.fd))
  | .poll events _ =>
    inferInstanceAs (Decidable
      (Always eventStep (DelSucceeds (w.epollset.map Registration.fd)) w.sched events))
  | .resume => .isTrue trivial
  | .close fd =>
    inferInstanceAs (Decidable (∀ e ∈ w.sched.ioIndex2req_.entries, e.2.req.fd = fd →
      e.2.number ∈ w.queuedNumbers))

instance (w : Epoll) : ∀ a, Decidable (RegistersDescriptor w a)
  | .read _ _ _ _ => .isTrue trivial
  | .write req results add _ =>
    inferInstanceAs (Decidable (Waits { number := w.requests, req := req } results → add = true →
      uint32 w.sched.ioIndex_ = req.fd))
  | .poll _ _ => .isTrue trivial
  | .resume => .isTrue trivial
  | .close _ => .isTrue trivial

/-- The descriptor of each waiting request is registered under its id, and each registered id is
that of a waiting request. -/
structure InterestMatches (w : Epoll) : Prop where
  registered : ∀ id p, w.sched.ioIndex2req_.find id = some p → p.number ∉ w.queuedNumbers →
    ∃ g ∈ w.epollset, g.fd = p.req.fd ∧ g.data = id
  pending : ∀ g ∈ w.epollset, ∃ p, w.sched.ioIndex2req_.find g.data = some p ∧
    p.number ∉ w.queuedNumbers

/-- `Watched` for the state between two actions. -/
def Interested (w : Epoll) : Prop := Watched w.sched.owner w.queuedNumbers [] w.epollset

theorem interested_new : Interested new := watched_empty

theorem Interested.registered {w : Epoll} (h : Interested w) {id : ℕ} {p : ReqPtr}
    (hp : w.sched.ioIndex2req_.find id = some p) (hwaits : p.number ∉ w.queuedNumbers) :
    ∃ g ∈ w.epollset, g.fd = p.req.fd ∧ g.data = id :=
  h.covered id p.number p.req.fd (by rw [owner, hp, Option.map_some]) (Or.inl hwaits)

theorem Interested.remembered {w : Epoll} (h : Interested w) {g : Registration}
    (hg : g ∈ w.epollset) : ∃ p, w.sched.ioIndex2req_.find g.data = some p := by
  obtain ⟨number, ho⟩ := h.own g hg
  obtain ⟨p, hp, -⟩ := Option.map_eq_some_iff.1 ho
  exact ⟨p, hp⟩

/-- A call that pushes its context at once. -/
theorem Interested.complete {w : Epoll} (h : Interested w) (p : ReqPtr) (retCode : ℤ)
    (sent : List Segment) : Interested (w.called (w.sched.complete p retCode sent)) := by
  unfold Interested at h ⊢
  have hsame : (w.called (w.sched.complete p retCode sent)).sched.owner = w.sched.owner := rfl
  rw [queuedNumbers_called, hsame]
  simpa [called, EpollScheduler.complete] using h.push [p.number]

/-- A call that leaves its request waiting under the descriptor `fd`. -/
theorem Interested.added {w : Epoll} (h : Interested w)
    (hfresh : ¬ w.sched.ioIndex2req_.HasKey w.sched.ioIndex_) {req : IoRequest} {fd : ℕ}
    (sent : List Segment) (events : Interest) (now : ℕ)
    (hown : fd = req.fd) (hfd : fd ∉ w.epollset.map Registration.fd) :
    Interested (w.called (w.sched.added w.requests req sent fd events now)) := by
  subst hown
  unfold Interested at h ⊢
  rw [queuedNumbers_called, owner_insert (p := { number := w.requests, req := req }) hfresh rfl]
  simpa [called, EpollScheduler.added] using
    h.register (g := { fd := req.fd, events := events, data := w.sched.ioIndex_ })
      (owner_eq_none hfresh) hfd

theorem Interested.addFailed {w : Epoll} (h : Interested w)
    (hfresh : ¬ w.sched.ioIndex2req_.HasKey w.sched.ioIndex_) (req : IoRequest)
    (sent : List Segment) :
    Interested (w.called (w.sched.addFailed w.requests req sent)) := by
  unfold Interested at h ⊢
  rw [queuedNumbers_called, owner_insert (p := { number := w.requests, req := req }) hfresh rfl]
  simpa [called, EpollScheduler.addFailed] using h.remember (owner_eq_none hfresh)

theorem Interested.poll {w : Epoll} (h : Interested w) {events : List Event} {now : ℕ}
    {r : EpollScheduler.PollResult} (hreported : ∀ e ∈ events, e.data ∈ w.registered)
    (hdel : Always eventStep (DelSucceeds (w.epollset.map Registration.fd)) w.sched events)
    (hr : w.sched.poll events now [] = some r) : Interested (w.polled r) := by
  obtain ⟨t, ht, rfl⟩ := Option.map_eq_some_iff.1 hr
  have hevents := (Watched.report h).handleEvents (List.Subset.refl _) hreported hdel ht
  unfold Interested
  rw [queuedNumbers_polled]
  have howner := owner_expireLoop
    (s := { t.sched with timerQueue_ := (t.sched.timerQueue_.popExpired now).1 })
    (t.sched.timerQueue_.popExpired now).2
  exact howner ▸ hevents.unreport.push _

theorem interested_step {w v : Epoll} {a : Action} (h : Interested w)
    (ha : FdsHeld w a ∧ FreshId w a) (hown : RegistersDescriptor w a) (hv : step w a = some v) :
    Interested v := by
  obtain ⟨hheld, hfresh⟩ := ha
  cases a with
  | read req readsz add now =>
    obtain ⟨r, hr, rfl⟩ := step_read hv
    obtain ⟨-, ⟨-, retCode, rfl⟩ | ⟨hwaits, hadd, rfl⟩ | ⟨-, -, rfl⟩⟩ := handleRead_cases hr
    · exact h.complete _ _ _
    · exact h.added (hfresh trivial).1 _ _ _ rfl (hheld hwaits hadd)
    · exact h.addFailed (hfresh trivial).1 _ _
  | write req results add now =>
    obtain ⟨r, hr, rfl⟩ := step_write hv
    obtain ⟨-, o, ho, ⟨retCode, -, rfl⟩ | ⟨retCode, hend, hadd, rfl⟩ | ⟨retCode, -, -, rfl⟩⟩ :=
      handleWrite_cases hr
    · exact h.complete _ _ _
    · have hwaits : Waits { number := w.requests, req := req } results := ⟨o, ho, retCode, hend⟩
      exact h.added (hfresh trivial).1 _ _ _ (hown hwaits hadd) (hheld hwaits hadd)
    · exact h.addFailed (hfresh trivial).1 _ _
  | poll events now =>
    obtain ⟨⟨-, -, hreported⟩, ⟨-, rfl⟩ | ⟨r, hr, rfl⟩⟩ := step_poll hv
    · exact h
    · exact h.poll hreported hheld hr
  | resume =>
    obtain ⟨c, cs, -, rfl⟩ := step_resume hv
    exact h
  | close fd =>
    obtain rfl := step_close hv
    refine Watched.close h fun id number ho => ?_
    obtain ⟨p, hp, hkey⟩ := Option.map_eq_some_iff.1 ho
    cases hkey
    exact hheld (id, p) (SortedMap.mem_entries.2 hp) rfl

/-! ### Runs without an expiry -/

/-- No request has timed out, and epoll watches what waits. -/
structure Watching (w : Epoll) : Prop extends Untimed w where
  interested : Interested w

theorem watching_new : Watching new := ⟨untimed_new, interested_new⟩

theorem Watching.matches {w : Epoll} (h : Watching w) : InterestMatches w where
  registered id p hp hwaits := h.interested.registered hp hwaits
  pending g hg := by
    obtain ⟨p, hp⟩ := h.interested.remembered hg
    refine ⟨p, hp, fun hpushed => ?_⟩
    exact h.not_late _ ((h.once.stale g.data p hp hpushed).2.2 (List.mem_map_of_mem hg))

theorem watching_step {w v : Epoll} {a : Action} (h : Watching w) (ha : FdsHeld w a ∧ FreshId w a)
    (hP : RegistersDescriptor w a ∧ NoExpiry w a) (hv : step w a = some v) : Watching v :=
  ⟨h.toUntimed.step ha.2 hP.2 (effect_of_step hv), interested_step h.interested ha hP.1 hv⟩

/-- A write that is registered under another descriptor waits unwatched. -/
theorem not_matches_of_write {w v : Epoll} {req : IoRequest} {results : List IoResult} {add : Bool}
    {now : ℕ} (h : Watching w) (hfresh : FreshId w (.write req results add now))
    (hown : ¬ RegistersDescriptor w (.write req results add now))
    (hv : step w (.write req results add now) = some v) : ¬ InterestMatches v := by
  simp only [RegistersDescriptor, Classical.not_imp] at hown
  obtain ⟨⟨o, ho, retCode, hend⟩, hadd, hne⟩ := hown
  obtain ⟨hnew, hunregistered⟩ := hfresh trivial
  obtain ⟨r, hr, rfl⟩ := step_write hv
  obtain ⟨-, o', ho', hcases⟩ := handleWrite_cases hr
  cases Option.some_inj.1 (ho'.symm.trans ho)
  rcases hcases with ⟨c, hend', -⟩ | ⟨c, hend', -, rfl⟩ | ⟨c, -, hadd', -⟩
  · cases hend'.symm.trans hend
  · cases hend'.symm.trans hend
    intro hmatches
    obtain ⟨g, hg, hgfd, hgid⟩ := hmatches.registered w.sched.ioIndex_
      { number := w.requests, req := { req with retCode := retCode } }
      (by simp [called, EpollScheduler.added, SortedMap.find_insert, hnew])
      (by
        rw [queuedNumbers_called]
        simpa [EpollScheduler.added] using h.once.new_not_pushed)
    rcases List.mem_append.1 hg with hg | hg
    · exact hunregistered (hgid ▸ List.mem_map_of_mem hg)
    · rw [EpollScheduler.added, Option.toList_some, List.mem_singleton] at hg
      exact hne (by rw [← hgfd, hg])
  · cases hadd'.symm.trans hadd

/-- A request that the expiry loop finds is pushed and stays registered. -/
theorem not_matches_of_poll {w v : Epoll} {events : List Event} {now : ℕ} (h : Watching w)
    (hdel : FdsHeld w (.poll events now)) (hexpiry : ¬ NoExpiry w (.poll events now))
    (hv : step w (.poll events now) = some v) : ¬ InterestMatches v := by
  simp only [NoExpiry, not_forall, not_not] at hexpiry
  obtain ⟨t, ht, id, hid, hkey⟩ := hexpiry
  obtain ⟨p, hp⟩ := SortedMap.hasKey_iff.1 hkey
  obtain ⟨⟨-, -, hreported⟩, ⟨hnone, -⟩ | ⟨r, hr, rfl⟩⟩ := step_poll hv
  · simp [EpollScheduler.poll, Option.mem_def.1 ht] at hnone
  obtain ⟨t', ht', hpoll⟩ := poll_isPoll hr
  cases Option.some_inj.1 (ht'.symm.trans ht)
  -- up to the expiry loop the context of `p` was not pushed, so `id` is registered
  have honce := (EpollScheduler.Once.handleEvents h.once hreported
    (fun e _ => h.not_late e.data) ht').popExpired now
  have hwaits : p.number ∉ w.queuedNumbers ++ t.queued.map Queued.number := fun hpushed =>
    (honce.stale id p hp hpushed).2.1 hid
  have hevents := (Watched.report h.interested).handleEvents (List.Subset.refl _) hreported hdel ht'
  obtain ⟨g, hg, -, hgid⟩ := hevents.covered id p.number p.req.fd
    (by rw [owner, hp, Option.map_some]) (Or.inl hwaits)
  intro hmatches
  rw [← hpoll.deleted_eq] at hg
  obtain ⟨p', hp', hwaits'⟩ := hmatches.pending g hg
  have hp' : r.sched.ioIndex2req_.find id = some p' := hgid ▸ hp'
  rw [hpoll.find_eq, hp, Option.map_some, if_pos hid, Option.some_inj] at hp'
  refine hwaits' ?_
  rw [queuedNumbers_polled, ← hp']
  exact List.mem_append_right _ (List.mem_map_of_mem (hpoll.mem_expired hid hp))

/-- The epoll set matches the waiting requests in every state of a run exactly when every write is
registered under its own descriptor and the expiry loop finds no request.  While only the first
holds, the waiting requests are still watched and every registered id is remembered.  Below
`2 ^ 32` requests the second says that the events of each `poll` finish every request whose timer
has run out. -/
theorem interest_matches_iff {as : List Action} {w : Epoll} (hrun : run step new as = some w)
    (hheld : Always step (fun u a => FdsHeld u a ∧ FreshId u a) new as) :
    ((∀ bs u, bs <+: as → run step new bs = some u → InterestMatches u) ↔
      Always step (fun u a => RegistersDescriptor u a ∧ NoExpiry u a) new as) ∧
    (Always step RegistersDescriptor new as →
      (∀ id p, w.sched.ioIndex2req_.find id = some p → p.number ∉ w.queuedNumbers →
        ∃ g ∈ w.epollset, g.fd = p.req.fd ∧ g.data = id) ∧
      ∀ g ∈ w.epollset, w.sched.ioIndex2req_.HasKey g.data) ∧
    (w.requests < 2 ^ 32 → (Always step NoExpiry new as ↔ Always step InTime new as)) := by
  refine ⟨?_, ?_, always_noExpiry_iff hrun⟩
  · refine forall_prefix_iff_always (fun u hu => Watching.matches hu)
      (fun u a v hu ha hP hv => watching_step hu ha hP hv) (fun u a v hu ha hP hv => ?_)
      watching_new hheld hrun
    cases a with
    | write req results add now =>
      exact not_matches_of_write hu ha.2 (fun hown => hP ⟨hown, trivial⟩) hv
    | poll events now =>
      exact not_matches_of_poll hu ha.1 (fun hexpiry => hP ⟨trivial, hexpiry⟩) hv
    | _ => exact absurd ⟨trivial, trivial⟩ hP
  · intro hown
    have hkept : Interested w := run_invariant_of_always
      (fun u a v hu ha hv => interested_step hu ha.1 ha.2 hv) interested_new (hheld.and hown) hrun
    refine ⟨fun id p hp hwaits => hkept.registered hp hwaits, fun g hg => ?_⟩
    exact SortedMap.hasKey_iff.2 (hkept.remembered hg)

/-- A read of descriptor 3 waits, and a write of descriptor 1 waits under the id 1; then data for
the read arrives. -/
def readAndWrite : List Action :=
  [.read { capicaty := 8, fd := 3, context := 100, op := .OP_READ } .eagain true 0,
    .write { data := ascii "abcd", size := 4, fd := 1, context := 200, op := .OP_WRITE } [.eagain]
      true 0,
    .poll [{ epollin := true, epollout := false, data := 0, first := .count 5 }] 5]

theorem interest_matches_iff_readAndWrite :
    ∃ w, run step new readAndWrite = some w ∧ w.registered = [1] ∧ InterestMatches w := by
  refine ⟨_, rfl, by decide, ?_⟩
  have hrun : run step new readAndWrite = some _ := rfl
  exact ((interest_matches_iff hrun (by decide)).1.2 (by decide)) _ _ (List.prefix_refl _) hrun

/-- The first write of a run waits for descriptor 7, and descriptor 0 is registered for it. -/
theorem write_registers_id :
    ∃ as w, Always step (fun u a => FdsHeld u a ∧ FreshId u a) new as ∧ run step new as = some w ∧
      ¬ InterestMatches w := by
  refine ⟨[.write { data := ascii "abcd", size := 4, fd := 7, context := 200, op := .OP_WRITE }
    [.eagain] true 0], _, by decide, rfl, fun hmatches => ?_⟩
  obtain ⟨g, hg, hgfd, -⟩ := hmatches.registered 0 _ rfl (by decide)
  cases List.mem_singleton.1 hg
  cases hgfd

end Epoll

end CoUringWeb
