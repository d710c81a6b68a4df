import CoUringWeb.Core.UringRuns

/-!
# Timers and pending requests of `UringScheduler`

`timerQueue_` and `ioIndex2req_` are two containers for the ids of the timed requests, updated in
four places.  `InStep` ties them together, also while the expiry loop of `poll` is under way: an id
that was popped has no timer any more and is pending until its turn.

Between two calls the ids with a timer are the ids of the pending requests that have a `timeout`
(`timers_eq_pending`).  This needs that a request with a `timeout` does not get an id that a
request without one still has; the counter `ioIndex_` has to come around for that.
-/

namespace CoUringWeb

open Machine Transition

namespace UringScheduler

/-- `expireds` are the ids popped whose turn has not come, and `n` bounds the timers set so far. -/
structure InStep (s : UringScheduler) (expireds : List ℕ) (n : ℕ) : Prop where
  wf : s.timerQueue_.Wf
  paired : s.timerQueue_.Paired
  index_le : s.timerQueue_.index_ ≤ n
  word_lt : ∀ t key, s.timerQueue_.timeid2key_.find t = some key →
    t % 2 ^ 32 < s.timerQueue_.index_
  known : ∀ id, s.timerQueue_.key2timeid_.HasKey id →
    ∃ req, s.ioIndex2req_.find id = some req ∧ req.timeout > 0
  timed : ∀ id req, s.ioIndex2req_.find id = some req → req.timeout > 0 →
    s.timerQueue_.key2timeid_.HasKey id ∨ id ∈ expireds
  popped : ∀ id ∈ expireds, ¬ s.timerQueue_.key2timeid_.HasKey id

variable {s : UringScheduler} {expireds : List ℕ} {n : ℕ}

theorem inStep_new : InStep new [] 0 where
  wf := TimerQueue.wf_empty
  paired := TimerQueue.paired_empty
  index_le := le_rfl
  word_lt t key h := by simp [new, TimerQueue.empty] at h
  known id h := by simp [new, TimerQueue.empty, SortedMap.HasKey] at h
  timed id req h := by simp [new] at h
  popped id h := by simp at h

/-- Between two calls the keys of the timer queue are the ids of the timed requests. -/
theorem InStep.live_iff (h : InStep s [] n) (id : ℕ) :
    s.timerQueue_.Live id ↔ ∃ req, s.ioIndex2req_.find id = some req ∧ req.timeout > 0 := by
  rw [h.wf.live_iff h.paired]
  refine ⟨h.known id, fun ⟨req, hreq, htimeout⟩ => ?_⟩
  exact (h.timed id req hreq htimeout).resolve_right List.not_mem_nil

/-! ## Operations -/

/-- A new request is remembered under the next id, unless that id is taken. -/
theorem find_submit (req : IoRequest) (opcode : Opcode) (len now : ℕ) {id : ℕ} {req' : IoRequest} :
    (s.submit req opcode len now).1.ioIndex2req_.find id = some req' ↔
      s.ioIndex2req_.find id = some req' ∨
        id = s.ioIndex_ ∧ ¬ s.ioIndex2req_.HasKey id ∧ req' = req := by
  simp only [submit, SortedMap.find_insert]
  by_cases hnew : id = s.ioIndex_ ∧ ¬ s.ioIndex2req_.HasKey s.ioIndex_
  · obtain ⟨rfl, hfree⟩ := hnew
    simp [hfree, SortedMap.not_hasKey_iff.1 hfree, eq_comm]
  · rw [if_neg hnew]
    refine (or_iff_left ?_).symm
    rintro ⟨rfl, hfree, -⟩
    exact hnew ⟨rfl, hfree⟩

/-- A request without a `timeout` sets no timer. -/
theorem InStep.submit_untimed (h : InStep s [] n) {req : IoRequest} (htimeout : ¬ req.timeout > 0)
    (opcode : Opcode) (len now : ℕ) : InStep (s.submit req opcode len now).1 [] n := by
  have htimer : (s.submit req opcode len now).1.timerQueue_ = s.timerQueue_ := if_neg htimeout
  refine ⟨htimer ▸ h.wf, htimer ▸ h.paired, htimer ▸ h.index_le, htimer ▸ h.word_lt,
    fun id hkey => ?_, fun id req' hfind htimeout' => ?_, fun id hmem => by cases hmem⟩
  · obtain ⟨req', hreq', htimeout'⟩ := h.known id (htimer ▸ hkey)
    exact ⟨req', (find_submit req opcode len now).2 (Or.inl hreq'), htimeout'⟩
  · rw [htimer]
    rcases (find_submit req opcode len now).1 hfind with hold | ⟨-, -, rfl⟩
    · exact h.timed id req' hold htimeout'
    · exact absurd htimeout' htimeout

/-- A request with a `timeout` sets one, when no request without one has its id. -/
theorem InStep.submit_timed (h : InStep s [] n) {req : IoRequest} (htimeout : req.timeout > 0)
    (hid : ∀ req', s.ioIndex2req_.find s.ioIndex_ = some req' → req'.timeout > 0)
    (hn : n + 1 < 2 ^ 32) (opcode : Opcode) (len now : ℕ) :
    InStep (s.submit req opcode len now).1 [] (n + 1) := by
  have hindex := h.index_le
  have hword (d : ℕ) :
      ¬ s.timerQueue_.timeid2key_.HasKey (TimerQueue.timeid d s.timerQueue_.index_) := by
    intro hkey
    obtain ⟨key, hfind⟩ := SortedMap.hasKey_iff.1 hkey
    have hlt := h.word_lt _ key hfind
    rw [TimerQueue.timeid_eq h.wf.index_lt] at hlt
    omega
  have htimer : (s.submit req opcode len now).1.timerQueue_ =
      (s.timerQueue_.add s.ioIndex_ (now + req.timeout.toNat)).1 := if_pos htimeout
  refine ⟨htimer ▸ TimerQueue.add_wf h.wf _ _, htimer ▸ h.paired.add (hword _), ?_,
    fun t key hfind => ?_, fun id hkey => ?_, fun id req' hfind htimeout' => Or.inl ?_,
    fun id hmem => by cases hmem⟩
  · rw [htimer]
    exact (TimerQueue.index_add_le _ _ _).trans (Nat.succ_le_succ hindex)
  · rw [htimer] at hfind ⊢
    exact TimerQueue.word_lt_add (by omega) h.word_lt _ _ hfind
  · rw [htimer, TimerQueue.hasKey_add_iff] at hkey
    rcases hkey with rfl | hold
    · by_cases hfree : s.ioIndex2req_.HasKey s.ioIndex_
      · obtain ⟨req', hreq'⟩ := SortedMap.hasKey_iff.1 hfree
        exact ⟨req', (find_submit req opcode len now).2 (Or.inl hreq'), hid req' hreq'⟩
      · exact ⟨req, (find_submit req opcode len now).2 (Or.inr ⟨rfl, hfree, rfl⟩), htimeout⟩
    · obtain ⟨req', hreq', htimeout'⟩ := h.known id hold
      exact ⟨req', (find_submit req opcode len now).2 (Or.inl hreq'), htimeout'⟩
  · rw [htimer, TimerQueue.hasKey_add_iff]
    rcases (find_submit req opcode len now).1 hfind with hold | ⟨heq, -, -⟩
    · exact Or.inr ((h.timed id req' hold htimeout').resolve_right List.not_mem_nil)
    · exact Or.inl heq

/-- The completion of a request takes its id out of both containers. -/
theorem InStep.loopTurn (h : InStep s expireds n) (cqe : Cqe) :
    InStep (s.loopTurn cqe).sched expireds n := by
  unfold UringScheduler.loopTurn
  split
  · exact h
  dsimp only
  split
  · exact h
  rename_i req hreq
  by_cases htimeout : req.timeout > 0
  · simp only [if_pos htimeout]
    refine ⟨TimerQueue.remove_wf h.wf _, h.paired.remove _, ?_, fun t key hfind => ?_,
      fun id hkey => ?_, fun id req' hfind htimeout' => ?_, fun id hmem hkey => ?_⟩
    · rw [TimerQueue.index_remove]
      exact h.index_le
    · rw [TimerQueue.index_remove]
      exact h.word_lt t key (TimerQueue.find_remove hfind)
    · obtain ⟨hne, hkey⟩ := h.paired.hasKey_remove_iff.1 hkey
      obtain ⟨req', hreq', htimeout'⟩ := h.known id hkey
      exact ⟨req', SortedMap.find_erase_eq_some.2 ⟨hne, hreq'⟩, htimeout'⟩
    · obtain ⟨hne, hold⟩ := SortedMap.find_erase_eq_some.1 hfind
      exact (h.timed id req' hold htimeout').imp_left fun hkey =>
        h.paired.hasKey_remove_iff.2 ⟨hne, hkey⟩
    · exact h.popped id hmem (h.paired.hasKey_remove_iff.1 hkey).2
  · simp only [if_neg htimeout]
    refine { h with known := fun id hkey => ?_, timed := fun id req' hfind => ?_ }
    · obtain ⟨req', hreq', htimeout'⟩ := h.known id hkey
      refine ⟨req', SortedMap.find_erase_eq_some.2 ⟨?_, hreq'⟩, htimeout'⟩
      rintro rfl
      cases hreq.symm.trans hreq'
      exact htimeout htimeout'
    · exact h.timed id req' (SortedMap.find_erase_eq_some.1 hfind).2

/-- A popped id has no timer any more, and waits for its turn. -/
theorem InStep.popExpired (h : InStep s [] n) (now : ℕ) :
    InStep { s with timerQueue_ := (s.timerQueue_.popExpired now).1 }
      (s.timerQueue_.popExpired now).2 n where
  wf := TimerQueue.popExpired_wf h.wf now
  paired := h.paired.popExpired now
  index_le := h.index_le
  word_lt t key hfind := h.word_lt t key (TimerQueue.find_popExpired.1 hfind).1
  known id hkey := h.known id (TimerQueue.hasKey_popExpired_iff.1 hkey).1
  timed id req hfind htimeout := by
    have hkey := (h.timed id req hfind htimeout).resolve_right List.not_mem_nil
    rw [TimerQueue.hasKey_popExpired_iff, and_iff_right hkey]
    exact (em _).symm
  popped id hmem hkey := (TimerQueue.hasKey_popExpired_iff.1 hkey).2 hmem

/-- The turn of a popped id takes it out of `ioIndex2req_`. -/
theorem InStep.expireTurn {id : ℕ} {ids : List ℕ} (h : InStep s (id :: ids) n) :
    InStep (s.expireTurn id).1 ids n := by
  have hid := h.popped id List.mem_cons_self
  have hpopped : ∀ id' ∈ ids, ¬ s.timerQueue_.key2timeid_.HasKey id' :=
    fun id' hmem => h.popped id' (List.mem_cons_of_mem id hmem)
  unfold UringScheduler.expireTurn
  split
  · rename_i hnone
    refine { h with timed := fun id' req hfind htimeout => ?_, popped := hpopped }
    refine (h.timed id' req hfind htimeout).imp_right fun hmem => ?_
    refine (List.mem_cons.1 hmem).resolve_left ?_
    rintro rfl
    rw [hnone] at hfind
    cases hfind
  · refine { h with known := fun id' hkey => ?_, timed := fun id' req' hfind htimeout => ?_,
                    popped := hpopped }
    · obtain ⟨req', hreq', htimeout⟩ := h.known id' hkey
      exact ⟨req', SortedMap.find_erase_eq_some.2 ⟨fun heq => hid (heq ▸ hkey), hreq'⟩, htimeout⟩
    · obtain ⟨hne, hold⟩ := SortedMap.find_erase_eq_some.1 hfind
      exact (h.timed id' req' hold htimeout).imp_right fun hmem =>
        (List.mem_cons.1 hmem).resolve_left hne

end UringScheduler

namespace Uring

open UringScheduler

/-! ## Runs -/

/-- No call is made while the expiry loop of `poll` is under way. -/
def CallsApart (w : Uring) (a : Action) : Prop := a.Submits → w.expireds = []

instance (w : Uring) (a : Action) : Decidable (CallsApart w a) :=
  match a with
  | .read _ _ | .write _ _ => decidable_of_iff (w.expireds = []) ⟨fun h _ => h, fun h => h trivial⟩
  | .complete _ _ | .reap | .popExpired _ | .expire => .isTrue fun h => h.elim

/-- A request with a `timeout` does not get the id of a pending request without one. -/
def TimerIdFree (w : Uring) : Action → Prop
  | .read req _ | .write req _ => req.timeout > 0 →
    ∀ req', w.sched.ioIndex2req_.find w.sched.ioIndex_ = some req' → req'.timeout > 0
  | _ => True

/-- The two containers of the scheduler are in step. -/
def TimersInStep (w : Uring) : Prop := InStep w.sched w.expireds w.armed.length

variable {w v : Uring} {a : Action}

theorem TimersInStep.submitted (h : TimersInStep w) (hexpireds : w.expireds = [])
    {req : IoRequest} (hid : req.timeout > 0 →
      ∀ req', w.sched.ioIndex2req_.find w.sched.ioIndex_ = some req' → req'.timeout > 0)
    (opcode : Opcode) (len now : ℕ)
    (hlt : (w.submitted req now (w.sched.submit req opcode len now)).armed.length < 2 ^ 32) :
    TimersInStep (w.submitted req now (w.sched.submit req opcode len now)) := by
  unfold TimersInStep at h ⊢
  rw [hexpireds] at h
  by_cases htimeout : req.timeout > 0
  · have harmed : (w.submitted req now (w.sched.submit req opcode len now)).armed.length =
        w.armed.length + 1 := by simp [Uring.submitted, htimeout]
    rw [harmed] at hlt ⊢
    simpa only [Uring.submitted, hexpireds] using
      h.submit_timed htimeout (hid htimeout) hlt opcode len now
  · have harmed : (w.submitted req now (w.sched.submit req opcode len now)).armed.length =
        w.armed.length := by simp [Uring.submitted, htimeout]
    rw [harmed]
    simpa only [Uring.submitted, hexpireds] using h.submit_untimed htimeout opcode len now

theorem TimersInStep.step (h : TimersInStep w) (hapart : CallsApart w a) (hid : TimerIdFree w a)
    (hlt : v.armed.length < 2 ^ 32) (hv : Uring.step w a = some v) : TimersInStep v := by
  cases a with
  | read req now =>
    simp only [Uring.step, handleRead] at hv
    split at hv <;> cases hv
    exact h.submitted (hapart trivial) hid _ _ now hlt
  | write req now =>
    simp only [Uring.step, handleWrite] at hv
    split at hv <;> cases hv
    exact h.submitted (hapart trivial) hid _ _ now hlt
  | complete i res =>
    obtain ⟨sqe, hsqe, rfl⟩ := Option.map_eq_some_iff.1 hv
    exact h
  | reap =>
    simp only [Uring.step] at hv
    split at hv <;> cases hv
    exact h.loopTurn _
  | popExpired now =>
    simp only [Uring.step] at hv
    split at hv <;> cases hv
    rename_i hexpireds
    unfold TimersInStep at h
    rw [hexpireds] at h
    exact h.popExpired now
  | expire =>
    simp only [Uring.step] at hv
    split at hv <;> cases hv
    rename_i key keys hexpireds
    unfold TimersInStep at h
    rw [hexpireds] at h
    exact h.expireTurn

theorem timersInStep_run {as : List Action} (hrun : run Uring.step new as = some w)
    (hP : Always Uring.step (fun u a => CallsApart u a ∧ TimerIdFree u a) new as)
    (hlt : w.armed.length < 2 ^ 32) : TimersInStep w := by
  refine run_invariant_of_always (I := fun u => u.armed.length < 2 ^ 32 → TimersInStep u)
    (s := new) ?_ (fun _ => inStep_new) hP hrun hlt
  intro u a v hu hstep hv hlt
  have hle : u.armed.length ≤ v.armed.length := (armed_grow (effect_of_step hv)).length_le
  exact (hu (by omega)).step hstep.1 hstep.2 hlt hv

/-- With fewer than `2 ^ 64` requests no id is taken. -/
theorem always_timerIdFree {as : List Action} (hrun : run Uring.step new as = some w)
    (hlt : w.submissions.length < 2 ^ 64) : Always Uring.step TimerIdFree new as := by
  refine always_of_lt (I := Inv) (fun _ _ _ hv => (submissions_grow (effect_of_step hv)).length_le)
    (fun _ _ _ hu hv hlt => inv_step hu hlt (effect_of_step hv)) ?_ inv_new hrun hlt
  intro u a hu hlt
  have hfree : ¬ u.sched.ioIndex2req_.HasKey u.sched.ioIndex_ := fun hkey =>
    hu.ids.fresh (by simpa [issued] using hlt) ((hu.ids.split _).2 (Or.inl hkey))
  cases a with
  | read req now | write req now =>
    exact fun _ req' hreq' => absurd (SortedMap.hasKey_iff.2 ⟨req', hreq'⟩) hfree
  | _ => trivial

/-- In every run with fewer than `2 ^ 32` timed requests, of which none gets the id of a pending
request without a `timeout`, the keys of the timer queue between two calls are the ids of the
pending requests with a `timeout`. -/
theorem timers_eq_pending {as : List Action} (hrun : run Uring.step new as = some w)
    (hapart : Always Uring.step CallsApart new as) (hlt : w.armed.length < 2 ^ 32)
    (hid : Always Uring.step TimerIdFree new as ∨ w.submissions.length < 2 ^ 64)
    (hbetween : w.expireds = []) (id : ℕ) :
    (w.sched.timerQueue_.Live id ↔
      ∃ req, w.sched.ioIndex2req_.find id = some req ∧ req.timeout > 0) ∧
    (w.sched.timerQueue_.Live id ↔ w.sched.timerQueue_.key2timeid_.HasKey id) := by
  have hfree := hid.elim (fun hfree => hfree) fun hlt => always_timerIdFree hrun hlt
  have h := timersInStep_run hrun (hapart.and hfree) hlt
  unfold TimersInStep at h
  rw [hbetween] at h
  exact ⟨h.live_iff id, h.wf.live_iff h.paired⟩

/-- Two timed requests, of which one is completed and one expires, and one that is pending. -/
theorem timers_eq_pending_race :
    ∃ w, run Uring.step new
        [.read { capicaty := 8, fd := 3, context := 100, op := .OP_READ, timeout := 10 } 0,
          .write { size := 1, fd := 4, context := 200, op := .OP_WRITE, timeout := 10 } 0,
          .complete 0 5, .reap, .popExpired 20, .expire,
          .read { capicaty := 8, fd := 3, context := 100, op := .OP_READ, timeout := 10 } 30] =
        some w ∧
      ∀ id, w.sched.timerQueue_.Live id ↔
        ∃ req, w.sched.ioIndex2req_.find id = some req ∧ req.timeout > 0 := by
  refine ⟨_, rfl, fun id => ?_⟩
  have hrun : run Uring.step new
      [.read { capicaty := 8, fd := 3, context := 100, op := .OP_READ, timeout := 10 } 0,
        .write { size := 1, fd := 4, context := 200, op := .OP_WRITE, timeout := 10 } 0,
        .complete 0 5, .reap, .popExpired 20, .expire,
        .read { capicaty := 8, fd := 3, context := 100, op := .OP_READ, timeout := 10 } 30] =
      some _ := rfl
  exact (timers_eq_pending hrun (by decide) (by decide) (Or.inr (by decide)) rfl id).1

/-! ## When the ids come around -/

/-- A request without a `timeout`. -/
def untimed : IoRequest := { capicaty := 8, fd := 3, context := 100, op := .OP_READ }

def timed : IoRequest := { untimed with timeout := 10 }

/-- A read that is completed at once, while the first one waits, and the `poll` that hands it
out. -/
def answered : List Action := [.read untimed 0, .complete 1 5, .reap, .popExpired 0]

/-- The first read waits, and `k` others were completed after it. -/
structure FirstWaits (w : Uring) (k : ℕ) : Prop where
  index : w.sched.ioIndex_ = uint64 (k + 2)
  timers : w.sched.timerQueue_ = TimerQueue.empty
  pending : w.sched.ioIndex2req_.find 1 = some untimed
  inFlight : ∃ sqe, w.inFlight = [sqe]
  cq : w.cq = []
  expireds : w.expireds = []
  armed : w.armed = []

/-- The entry of a pending request other than the first one is seen, and the first one waits on. -/
theorem loopTurn_answered {s : UringScheduler} {i : ℕ} (hi : i ≠ 1) (hkey : s.ioIndex2req_.HasKey i)
    (htimers : s.timerQueue_ = TimerQueue.empty)
    (hpending : s.ioIndex2req_.find 1 = some untimed) :
    (s.loopTurn { user_data := i, res := 5 }).seen = true ∧
      (s.loopTurn { user_data := i, res := 5 }).sched.ioIndex_ = s.ioIndex_ ∧
      (s.loopTurn { user_data := i, res := 5 }).sched.timerQueue_ = TimerQueue.empty ∧
      (s.loopTurn { user_data := i, res := 5 }).sched.ioIndex2req_.find 1 = some untimed := by
  unfold UringScheduler.loopTurn
  by_cases hzero : i = 0
  · simp [hzero, htimers, hpending]
  · obtain ⟨req, hreq⟩ := SortedMap.hasKey_iff.1 hkey
    have hremove : (TimerQueue.empty.remove i).1 = TimerQueue.empty := rfl
    simp [hzero, hreq, htimers, hpending, hremove, SortedMap.find_erase, hi.symm]

theorem FirstWaits.next {w : Uring} {k : ℕ} (h : FirstWaits w k) (hk : k + 2 ≤ 2 ^ 64) :
    ∃ v, run Uring.step w answered = some v ∧ FirstWaits v (k + 1) := by
  have hi : w.sched.ioIndex_ ≠ 1 := by
    rw [h.index, uint64]
    omega
  obtain ⟨sqe, hsqe⟩ := h.inFlight
  -- the read
  let r := w.sched.submit untimed .read (uint32 (2 ^ 32 + untimed.capicaty - untimed.size)) 0
  let u₁ := w.submitted untimed 0 r
  have hread : Uring.step w (.read untimed 0) = some u₁ := rfl
  -- its completion
  let cqe : Cqe := { user_data := w.sched.ioIndex_, res := 5 }
  let u₂ : Uring := { u₁ with inFlight := [sqe], cq := [cqe], posted := u₁.posted ++ [cqe] }
  have hcomplete : Uring.step u₁ (.complete 1 5) = some u₂ := by
    simp [Uring.step, u₁, u₂, r, cqe, Uring.submitted, hsqe, h.cq, submit]
  -- the turn of `poll` that finds it
  have hreap : Uring.step u₂ .reap = some (u₂.reaped cqe []) := rfl
  have hkey : u₂.sched.ioIndex2req_.HasKey w.sched.ioIndex_ :=
    SortedMap.hasKey_insert.2 (Or.inl rfl)
  have hpending : u₂.sched.ioIndex2req_.find 1 = some untimed :=
    (find_submit untimed .read (uint32 (2 ^ 32 + untimed.capicaty - untimed.size)) 0).2
      (Or.inl h.pending)
  obtain ⟨hseen, hindex, htimers, hfind⟩ := loopTurn_answered hi hkey h.timers hpending
  have hpop : Uring.step (u₂.reaped cqe []) (.popExpired 0) =
      some { u₂.reaped cqe [] with
        sched := { (u₂.reaped cqe []).sched with timerQueue_ := TimerQueue.empty }
        expireds := []
        clock := 0 } := by
    have hexpireds : (u₂.reaped cqe []).expireds = [] := h.expireds
    have htimers : (u₂.reaped cqe []).sched.timerQueue_ = TimerQueue.empty := htimers
    simp only [Uring.step, if_pos hexpireds, htimers]
    rfl
  refine ⟨_, run_cons.2 ⟨u₁, hread, run_cons.2 ⟨u₂, hcomplete, run_cons.2 ⟨_, hreap,
    run_singleton.2 hpop⟩⟩⟩, ?_⟩
  refine ⟨?_, rfl, hfind, ⟨sqe, rfl⟩, ?_, rfl, h.armed⟩
  · refine hindex.trans ?_
    show uint64 (w.sched.ioIndex_ + 1) = _
    rw [h.index]
    unfold uint64
    omega
  · exact if_pos hseen

/-- After `2 ^ 64` requests the ids come around, and a timed request gets the id of the first one,
which has no `timeout` and waits still: its id has a timer now. -/
theorem timer_of_untimed_request :
    ∃ w, run Uring.step new (.read untimed 0 :: ((List.replicate (2 ^ 64 - 1) answered).flatten ++
        [.read timed 0])) = some w ∧
      w.armed.length = 1 ∧ w.expireds = [] ∧ w.sched.timerQueue_.Live 1 ∧
      w.sched.ioIndex2req_.find 1 = some untimed := by
  have hruns : ∀ n ≤ 2 ^ 64 - 1, ∃ u, run Uring.step new
      (.read untimed 0 :: (List.replicate n answered).flatten) = some u ∧ FirstWaits u n := by
    intro n hn
    induction n with
    | zero => exact ⟨_, rfl, rfl, rfl, rfl, ⟨_, rfl⟩, rfl, rfl, rfl⟩
    | succ n ih =>
      obtain ⟨u, hu, hwaits⟩ := ih (by omega)
      obtain ⟨v, hv, hnext⟩ := hwaits.next (by omega)
      refine ⟨v, ?_, hnext⟩
      rw [List.replicate_succ', List.flatten_append, List.flatten_singleton, ← List.cons_append]
      exact run_append.2 ⟨u, hu, hv⟩
  obtain ⟨u, hu, hwaits⟩ := hruns (2 ^ 64 - 1) le_rfl
  have hindex : u.sched.ioIndex_ = 1 := hwaits.index
  let v := u.submitted timed 0
    (u.sched.submit timed .read (uint32 (2 ^ 32 + timed.capicaty - timed.size)) 0)
  have hread : Uring.step u (.read timed 0) = some v := rfl
  refine ⟨v, ?_, ?_, hwaits.expireds, ?_, ?_⟩
  · rw [← List.cons_append]
    exact run_append.2 ⟨u, hu, run_singleton.2 hread⟩
  · simp [v, Uring.submitted, timed, hwaits.armed]
  · have htimer : v.sched.timerQueue_ = (TimerQueue.empty.add 1 10).1 := by
      simp [v, Uring.submitted, submit, timed, hwaits.timers, hindex]
    rw [htimer]
    exact ⟨TimerQueue.timeid 10 0, rfl⟩
  · exact (find_submit timed .read (uint32 (2 ^ 32 + timed.capicaty - timed.size)) 0).2
      (Or.inl hwaits.pending)

end Uring

end CoUringWeb
