import CoUringWeb.Core.UringLoop

/-!
# Coroutines on `UringScheduler` are threads with blocking calls

Every run of the loop with fewer than `2 ^ 64` requests is a run of the threads of
`Framework/Awaiting.lean` with the same log of events (`run_threads`): each `co_await` is a call of
its coroutine that blocks, and ends with the result of its own operation or with `-1` after its own
timeout.  The loop and the ring find the coroutine by the address of its frame, which is given to
another coroutine when the first has ended; no store of `retCode` and no `resume()` goes to a frame
that is gone or has another owner, and the bytes of a read go to the coroutine that waits for them.

Runs end at the first operation that moves bytes after its request was handed out (`stray`), which
only a timeout can bring about.  The proof needs this: from there on the bytes may land in a buffer
of another coroutine, which then gets bytes that are not of its own operation.

`Matches` is the simulation relation.  It says of each suspended coroutine that its request is
pending in the ring, with the bytes of its own operation in its buffer if that has completed, or
that it has been handed out and its address is still to be read by the loop over
`readyHandleAddrs`; and that there is no other pending request and no other address.
-/

namespace CoUringWeb

open Machine Transition Awaiting Interleaving

/-! ## What a step of the ring does -/

namespace Uring

/-- The ids of the operations in flight. -/
def flying (w : Uring) : List ℕ := w.inFlight.map Sqe.user_data

/-- What the runs of the ring keep, with the operation of each request and the timeout of each
timer. -/
structure Sound (w : Uring) : Prop where
  inv : Inv w
  kernel : KernelDone w
  timed : ∀ id d, (id, d) ∈ w.armed → ∃ req, (id, req) ∈ w.submissions ∧ 0 < req.timeout
  sqes : ∀ sqe ∈ w.inFlight,
    ∃ req, (sqe.user_data, req) ∈ w.submissions ∧ sqe = req.sqe sqe.user_data

theorem sound_new : Sound new where
  inv := inv_new
  kernel := kernelDone_new
  timed := by simp [new]
  sqes := by simp [new]

/-- `v` is `w` after the request was submitted under the next id. -/
structure Submits (w v : Uring) (req : IoRequest) : Prop where
  submissions : v.submissions = w.submissions ++ [(w.sched.ioIndex_, req)]
  inFlight : v.inFlight = w.inFlight ++ [req.sqe w.sched.ioIndex_]
  armed : ∀ x ∈ v.armed, x ∈ w.armed ∨ x.1 = w.sched.ioIndex_ ∧ 0 < req.timeout
  pending : v.sched.ioIndex2req_ = w.sched.ioIndex2req_.insert w.sched.ioIndex_ req
  cq : v.cq = w.cq
  handed : v.handed = w.handed

/-- `v` is `w` after a turn that handed nothing out; it may have skipped an entry with
`user_data == 0`. -/
structure Quiet (w v : Uring) : Prop where
  submissions : v.submissions = w.submissions
  inFlight : v.inFlight = w.inFlight
  pending : v.sched.ioIndex2req_ = w.sched.ioIndex2req_
  cq : v.cq = w.cq ∨ ∃ cqe, w.cq = cqe :: v.cq ∧ cqe.user_data = 0
  handed : v.handed = w.handed

/-- `v` is `w` after the pending request `req` was handed out as `o`. -/
structure HandsOut (w v : Uring) (req : IoRequest) (o : HandOut) : Prop where
  submissions : v.submissions = w.submissions
  inFlight : v.inFlight = w.inFlight
  found : w.sched.ioIndex2req_.find o.id = some req
  context : o.req.context = req.context
  pending : v.sched.ioIndex2req_ = w.sched.ioIndex2req_.erase o.id
  cq : v.cq = w.cq ∨ ∃ cqe, w.cq = cqe :: v.cq ∧ cqe.user_data = o.id
  handed : v.handed = w.handed ++ [o]

/-- `v` is `w` after the operation with the id `id` was completed. -/
structure Finishes (w v : Uring) (id : ℕ) (res : ℤ) : Prop where
  submissions : v.submissions = w.submissions
  was : id ∈ w.flying
  flying : ∀ id', id' ∈ v.flying ↔ id' ≠ id ∧ id' ∈ w.flying
  pending : v.sched.ioIndex2req_ = w.sched.ioIndex2req_
  cq : v.cq = w.cq ++ [{ user_data := id, res := res }]
  handed : v.handed = w.handed

variable {w v : Uring}

theorem submits_of_op (req : IoRequest) (now : ℕ) :
    ∃ v, w.step (UringLoop.submission req now) = some v ∧ Submits w v req := by
  have harmed (r : UringScheduler × Sqe) (hr : r.2.user_data = w.sched.ioIndex_) :
      ∀ x ∈ (w.submitted req now r).armed, x ∈ w.armed ∨ x.1 = w.sched.ioIndex_ ∧
        0 < req.timeout := by
    intro x hx
    simp only [submitted] at hx
    split at hx
    · rcases List.mem_append.1 hx with hx | hx
      · exact Or.inl hx
      · rw [List.mem_singleton.1 hx]
        exact Or.inr ⟨hr, by assumption⟩
    · exact Or.inl hx
  cases hop : req.op with
  | OP_READ =>
    simp only [UringLoop.submission, hop, step, UringScheduler.handleRead, if_true,
      Option.map_some]
    exact ⟨_, rfl, rfl, by simp [submitted, UringScheduler.submit, IoRequest.sqe, hop],
      harmed _ rfl, rfl, rfl, rfl⟩
  | OP_WRITE =>
    simp only [UringLoop.submission, hop, step, UringScheduler.handleWrite, if_true,
      Option.map_some]
    exact ⟨_, rfl, rfl, by simp [submitted, UringScheduler.submit, IoRequest.sqe, hop],
      harmed _ rfl, rfl, rfl, rfl⟩

theorem step_complete {i : ℕ} {res : ℤ} {sqe : Sqe} (hk : KernelDone w)
    (hsqe : w.inFlight[i]? = some sqe) (h : w.step (.complete i res) = some v) :
    Finishes w v sqe.user_data res := by
  simp only [step, hsqe, Option.map_some, Option.some.injEq] at h
  subst h
  have hget : w.flying[i]? = some sqe.user_data := by
    rw [flying, List.getElem?_map, hsqe]
    rfl
  obtain ⟨hlt, heq⟩ := List.getElem?_eq_some_iff.1 hget
  have hnodup : w.flying.Nodup := hk.nodup
  refine ⟨rfl, List.mem_of_getElem? hget, fun id => ?_, rfl, rfl, rfl⟩
  have herase : (w.inFlight.eraseIdx i).map Sqe.user_data = w.flying.erase sqe.user_data := by
    rw [← List.eraseIdx_map, ← heq, hnodup.erase_getElem]
    rfl
  rw [flying, herase, hnodup.mem_erase_iff]

theorem step_popExpired {now : ℕ} (h : w.step (.popExpired now) = some v) : Quiet w v := by
  simp only [step] at h
  split at h <;> cases h
  exact ⟨rfl, rfl, rfl, Or.inl rfl, rfl⟩

/-- A turn of the `while` loop of `poll`. -/
theorem step_reap (h : w.step .reap = some v) :
    Quiet w v ∨ ∃ cqe req o, w.cq = cqe :: v.cq ∧ HandsOut w v req o ∧
      o.id = cqe.user_data ∧ o.req.retCode = cqe.res := by
  simp only [step] at h
  split at h <;> cases h
  rename_i cqe rest hcq
  unfold reaped UringScheduler.loopTurn
  split
  · rename_i hzero
    exact Or.inl ⟨rfl, rfl, rfl, Or.inr ⟨cqe, hcq, hzero⟩, List.append_nil _⟩
  · dsimp only
    split
    · exact Or.inl ⟨rfl, rfl, rfl, Or.inl rfl, List.append_nil _⟩
    · rename_i req hreq
      exact Or.inr ⟨cqe, req, _, hcq,
        ⟨rfl, rfl, hreq, rfl, rfl, Or.inr ⟨cqe, hcq, rfl⟩, rfl⟩, rfl, rfl⟩

/-- A turn of the loop of `poll` over `expireds`. -/
theorem step_expire (h : w.step .expire = some v) :
    Quiet w v ∨ ∃ key req o, key ∈ w.expireds ∧ HandsOut w v req o ∧ o.id = key ∧
      o.req.retCode = -1 := by
  cases effect_of_step h with
  | submitted a ha => exact ha.elim
  | ignored a keys hkeys => exact Or.inl ⟨rfl, rfl, rfl, Or.inl rfl, rfl⟩
  | expired key keys req hkeys hreq =>
    exact Or.inr ⟨key, req, _, by rw [hkeys]; exact List.mem_cons_self,
      ⟨rfl, rfl, hreq, rfl, rfl, Or.inl rfl, rfl⟩, rfl, rfl⟩

theorem Quiet.mem_cq (h : Quiet w v) {cqe : Cqe} (hcqe : cqe ∈ v.cq) : cqe ∈ w.cq := by
  rcases h.cq with heq | ⟨cqe', heq, -⟩
  · exact heq ▸ hcqe
  · exact heq ▸ List.mem_cons_of_mem _ hcqe

theorem HandsOut.mem_cq {req : IoRequest} {o : HandOut} (h : HandsOut w v req o) {cqe : Cqe}
    (hcqe : cqe ∈ v.cq) : cqe ∈ w.cq := by
  rcases h.cq with heq | ⟨cqe', heq, -⟩
  · exact heq ▸ hcqe
  · exact heq ▸ List.mem_cons_of_mem _ hcqe

/-- A step submits a request, or it keeps the requests and the timers set and adds no operation. -/
theorem submits_or_keeps {a : Action} (h : w.step a = some v) :
    (∃ req, Submits w v req) ∨
      v.submissions = w.submissions ∧ v.armed = w.armed ∧ v.inFlight ⊆ w.inFlight := by
  have hsubmits (req : IoRequest) (now : ℕ) (ha : a = UringLoop.submission req now) :
      ∃ req, Submits w v req := by
    obtain ⟨u, hu, hs⟩ := submits_of_op (w := w) req now
    rw [ha, hu] at h
    cases h
    exact ⟨req, hs⟩
  cases a with
  | read req now =>
    refine Or.inl (hsubmits req now ?_)
    have hop : req.op = .OP_READ := by
      by_contra hop
      simp [step, UringScheduler.handleRead, hop] at h
    rw [UringLoop.submission, hop]
  | write req now =>
    refine Or.inl (hsubmits req now ?_)
    have hop : req.op = .OP_WRITE := by
      by_contra hop
      simp [step, UringScheduler.handleWrite, hop] at h
    rw [UringLoop.submission, hop]
  | complete i res =>
    cases effect_of_step h with
    | submitted a ha => exact ha.elim
    | completed i sqe res hsqe => exact Or.inr ⟨rfl, rfl, List.eraseIdx_subset⟩
    | ignored a keys hkeys => exact Or.inr ⟨rfl, rfl, List.Subset.refl _⟩
  | _ =>
    cases effect_of_step h with
    | submitted a ha => exact ha.elim
    | _ => exact Or.inr ⟨rfl, rfl, List.Subset.refl _⟩

/-! ### What the runs keep -/

namespace Sound

theorem submission_unique (h : Sound w) {id : ℕ} {req req' : IoRequest}
    (hreq : (id, req) ∈ w.submissions) (hreq' : (id, req') ∈ w.submissions) : req = req' := by
  have hnodup : (w.submissions.map Prod.fst).Nodup := by
    have hrange := h.inv.ids.range
    rw [issued] at hrange
    rw [hrange]
    exact List.nodup_range' 1
  have := List.inj_on_of_nodup_map hnodup hreq hreq' rfl
  exact congrArg Prod.snd this

theorem fresh (h : Sound w) (hlt : w.submissions.length < 2 ^ 64) :
    w.sched.ioIndex_ ∉ w.issued :=
  h.inv.ids.fresh (by simpa [issued] using hlt)

theorem freshId (h : Sound w) (hlt : w.submissions.length < 2 ^ 64) (a : Action) :
    FreshId w a := by
  refine fun _ => ⟨fun hmem => ?_, fun cqe hcqe heq => ?_⟩
  · obtain ⟨sqe, hsqe, heq⟩ := List.mem_map.1 hmem
    exact h.fresh hlt (heq ▸ h.inv.sources.inFlight sqe hsqe)
  · exact h.fresh hlt (heq ▸ (h.inv.sources.unseen cqe hcqe).2)

theorem issued_of_pending (h : Sound w) {id : ℕ} {req : IoRequest}
    (hreq : w.sched.ioIndex2req_.find id = some req) : id ∈ w.issued :=
  List.mem_map.2 ⟨_, h.inv.sources.pending id req hreq, rfl⟩

theorem pending_not_handed (h : Sound w) {id : ℕ} {req : IoRequest}
    (hreq : w.sched.ioIndex2req_.find id = some req) : ∀ o ∈ w.handed, o.id ≠ id := by
  rintro o ho rfl
  exact h.inv.ids.disjoint _ (SortedMap.hasKey_iff.2 ⟨req, hreq⟩) (List.mem_map_of_mem ho)

/-- A popped key that is still pending belongs to a request with a timeout. -/
theorem timeout_pos (h : Sound w) {key : ℕ} {req : IoRequest} (hkey : key ∈ w.expireds)
    (hreq : w.sched.ioIndex2req_.find key = some req) : 0 < req.timeout := by
  obtain ⟨d, hd, -⟩ := h.inv.timers.due key hkey
  obtain ⟨req', hreq', htimeout⟩ := h.timed key d hd
  rwa [h.submission_unique (h.inv.sources.pending key req hreq) hreq']

theorem step (h : Sound w) {a : Action} (hv : w.step a = some v)
    (hlt : v.submissions.length < 2 ^ 64) : Sound v := by
  have heffect := effect_of_step hv
  have hle : w.submissions.length ≤ v.submissions.length := (submissions_grow heffect).length_le
  have hinv := inv_step h.inv hlt heffect
  have hkernel := h.kernel.step (h.freshId (by omega) a) heffect
  rcases submits_or_keeps hv with ⟨req, hs⟩ | ⟨hsubmissions, harmed, hinFlight⟩
  · have hold : ∀ x ∈ w.submissions, x ∈ v.submissions := fun x hx => by
      rw [hs.submissions]
      exact List.mem_append_left _ hx
    have hnew : (w.sched.ioIndex_, req) ∈ v.submissions := by
      rw [hs.submissions]
      exact List.mem_append_right _ List.mem_cons_self
    refine ⟨hinv, hkernel, fun id d hd => ?_, fun sqe hsqe => ?_⟩
    · rcases hs.armed _ hd with hd | ⟨rfl, htimeout⟩
      · obtain ⟨req', hreq', htimeout⟩ := h.timed id d hd
        exact ⟨req', hold _ hreq', htimeout⟩
      · exact ⟨req, hnew, htimeout⟩
    · rw [hs.inFlight] at hsqe
      rcases List.mem_append.1 hsqe with hsqe | hsqe
      · obtain ⟨req', hreq', heq⟩ := h.sqes sqe hsqe
        exact ⟨req', hold _ hreq', heq⟩
      · obtain rfl := List.mem_singleton.1 hsqe
        refine ⟨req, ?_, ?_⟩ <;> rw [IoRequest.sqe_user_data]
        exact hnew
  · refine ⟨hinv, hkernel, ?_, fun sqe hsqe => ?_⟩
    · rw [harmed, hsubmissions]
      exact h.timed
    · rw [hsubmissions]
      exact h.sqes sqe (hinFlight hsqe)

end Sound

end Uring

namespace UringLoop

variable {A E F S : Type*}

/-! ## The requests of the suspended coroutines -/

/-- The request in the frame `f` at `h` is pending, and its buffer holds what its operation has
stored so far. -/
structure Pending (ring : Uring) (h : Handle) (f : Frame S) : Prop where
  found : ring.sched.ioIndex2req_.find f.id = some (f.call.suspend h)
  stored : f.id ∈ ring.flying ∧ f.req = f.call.suspend h ∨
    f.id ∉ ring.flying ∧ ∃ res bytes, f.call.Completes res bytes ∧
      f.req = (f.call.suspend h).fill bytes ∧
      ∀ cqe ∈ ring.cq, cqe.user_data = f.id → cqe.res = res

theorem Pending.mono {ring ring' : Uring} {h : Handle} {f : Frame S} (hf : Pending ring h f)
    (hfind : ring'.sched.ioIndex2req_.find f.id = ring.sched.ioIndex2req_.find f.id)
    (hflying : f.id ∈ ring'.flying ↔ f.id ∈ ring.flying)
    (hcq : ∀ cqe ∈ ring'.cq, cqe.user_data = f.id → cqe ∈ ring.cq) : Pending ring' h f := by
  refine ⟨hfind.trans hf.found, ?_⟩
  rw [hflying]
  refine hf.stored.imp_right fun ⟨hnot, res, bytes, hres, hreq, hall⟩ => ?_
  exact ⟨hnot, res, bytes, hres, hreq, fun cqe hcqe hid => hall cqe (hcq cqe hcqe hid) hid⟩

/-- The coroutine of the frame `f` at `h` is suspended: its request is pending, or answered and
ready. -/
structure Suspended (ring : Uring) (ready : List HandOut) (h : Handle) (f : Frame S) : Prop where
  submitted : (f.id, f.call.suspend h) ∈ ring.submissions
  request : Pending ring h f ∨ (∃ o ∈ ready, o.id = f.id) ∧ f.call.Answers f.req

/-- A frame that is changed in place keeps its address. -/
theorem exists_update {frames : Handle → Option (Frame S)} {h' h : Handle} {f g : Frame S}
    (hf : frames h' = some f) (f' : Frame S) (hid : f'.id = f.id) (hg : frames h = some g) :
    ∃ g', Function.update frames h' (some f') h = some g' ∧ g'.id = g.id := by
  by_cases heq : h = h'
  · rw [heq, hf] at hg
    cases hg
    exact ⟨f', by rw [heq, Function.update_self], hid⟩
  · exact ⟨g, by rw [Function.update_of_ne heq, hg], rfl⟩

/-- The pending requests and the ready addresses are those of the suspended coroutines. -/
structure Links (ring : Uring) (ready : List HandOut) (frames : Handle → Option (Frame S)) :
    Prop where
  sound : ring.Sound
  handed : ready <:+ ring.handed
  requests : ∀ id req, ring.sched.ioIndex2req_.find id = some req →
    ∃ f, frames req.context = some f ∧ f.id = id
  addresses : ∀ o ∈ ready, ∃ f, frames o.req.context = some f ∧ f.id = o.id
  suspended : ∀ h f, frames h = some f → Suspended ring ready h f

namespace Links

variable {ring ring' : Uring} {ready : List HandOut} {frames : Handle → Option (Frame S)}

/-- No two frames have requests with the same id. -/
theorem eq_of_id (hl : Links ring ready frames) {h h' : Handle} {f f' : Frame S}
    (hf : frames h = some f) (hf' : frames h' = some f') (hid : f.id = f'.id) : h = h' := by
  have hsub := (hl.suspended h f hf).submitted
  have hsub' := (hl.suspended h' f' hf').submitted
  rw [hid] at hsub
  simpa using congrArg IoRequest.context (hl.sound.submission_unique hsub hsub')

theorem id_issued (hl : Links ring ready frames) {h : Handle} {f : Frame S}
    (hf : frames h = some f) : f.id ∈ ring.issued :=
  List.mem_map.2 ⟨_, (hl.suspended h f hf).submitted, rfl⟩

theorem new : Links Uring.new [] (fun _ => none : Handle → Option (Frame S)) where
  sound := Uring.sound_new
  handed := List.suffix_refl _
  requests := by simp [Uring.new, UringScheduler.new]
  addresses := by simp
  suspended := by simp

/-- A turn that hands nothing out. -/
theorem quiet (hl : Links ring ready frames) (hq : Uring.Quiet ring ring') (hs : ring'.Sound) :
    Links ring' ready frames where
  sound := hs
  handed := by
    rw [hq.handed]
    exact hl.handed
  requests := by
    rw [hq.pending]
    exact hl.requests
  addresses := hl.addresses
  suspended h f hf := by
    obtain ⟨hsub, hreq⟩ := hl.suspended h f hf
    refine ⟨hq.submissions ▸ hsub, hreq.imp_left fun hp => hp.mono ?_ ?_ ?_⟩
    · rw [hq.pending]
    · rw [Uring.flying, Uring.flying, hq.inFlight]
    · exact fun cqe hcqe _ => hq.mem_cq hcqe

/-- A coroutine at a free address is suspended on a new request. -/
theorem suspend (hl : Links ring ready frames) {h : Handle} {q : Await} {s : S} {n : ℕ}
    (hfree : frames h = none) (hq : Uring.Submits ring ring' (q.suspend h)) (hs : ring'.Sound)
    (hlt : ring.submissions.length < 2 ^ 64) :
    Links ring' ready (Function.update frames h
      (some { req := q.suspend h, state := s, call := q, thread := n
              id := ring.sched.ioIndex_ })) := by
  have hfresh := hl.sound.fresh hlt
  have hnokey : ¬ ring.sched.ioIndex2req_.HasKey ring.sched.ioIndex_ := fun hkey => by
    obtain ⟨req, hreq⟩ := SortedMap.hasKey_iff.1 hkey
    exact hfresh (hl.sound.issued_of_pending hreq)
  have hne {h' : Handle} {f : Frame S} (hf : frames h' = some f) : h' ≠ h := by
    rintro rfl
    rw [hfree] at hf
    cases hf
  refine ⟨hs, hq.handed ▸ hl.handed, fun id req hfind => ?_, fun o ho => ?_,
    fun h' f hf => ?_⟩
  · rw [hq.pending, SortedMap.find_insert] at hfind
    split at hfind
    · rename_i hid
      cases hfind
      exact ⟨_, by rw [Await.suspend_context, Function.update_self], hid.1.symm⟩
    · obtain ⟨f, hf, hid⟩ := hl.requests id req hfind
      exact ⟨f, by rw [Function.update_of_ne (hne hf), hf], hid⟩
  · obtain ⟨f, hf, hid⟩ := hl.addresses o ho
    exact ⟨f, by rw [Function.update_of_ne (hne hf), hf], hid⟩
  · by_cases heq : h' = h
    · subst heq
      rw [Function.update_self] at hf
      cases hf
      refine ⟨?_, Or.inl ⟨?_, Or.inl ⟨?_, rfl⟩⟩⟩
      · rw [hq.submissions]
        exact List.mem_append_right _ List.mem_cons_self
      · rw [hq.pending, SortedMap.find_insert, if_pos ⟨rfl, hnokey⟩]
      · simp [Uring.flying, hq.inFlight]
    · rw [Function.update_of_ne heq] at hf
      obtain ⟨hsub, hreq⟩ := hl.suspended h' f hf
      have hid : f.id ≠ ring.sched.ioIndex_ := fun hid => hfresh (hid ▸ hl.id_issued hf)
      refine ⟨?_, hreq.imp_left fun hp => hp.mono ?_ ?_ ?_⟩
      · rw [hq.submissions]
        exact List.mem_append_left _ hsub
      · rw [hq.pending, SortedMap.find_insert, if_neg fun hand => hid hand.1]
      · simp [Uring.flying, hq.inFlight, hid]
      · rw [hq.cq]
        exact fun cqe hcqe _ => hcqe

/-- The coroutine at the first ready address is resumed: its frame is no longer suspended. -/
theorem resume {o : HandOut} (hl : Links ring (o :: ready) frames) :
    ∃ f, frames o.req.context = some f ∧ f.call.Answers f.req ∧
      Links ring ready (Function.update frames o.req.context none) := by
  obtain ⟨f, hf, hid⟩ := hl.addresses o List.mem_cons_self
  have hhanded : o ∈ ring.handed := hl.handed.subset List.mem_cons_self
  have hnodup : ((o :: ready).map HandOut.id).Nodup :=
    hl.sound.inv.ids.nodup.sublist (hl.handed.sublist.map _)
  rw [List.map_cons, List.nodup_cons] at hnodup
  have hanswers : f.call.Answers f.req := by
    rcases (hl.suspended _ f hf).request with hp | ⟨-, hanswers⟩
    · exact absurd hid.symm (hl.sound.pending_not_handed hp.found o hhanded)
    · exact hanswers
  refine ⟨f, hf, hanswers, hl.sound, (List.suffix_cons o ready).trans hl.handed,
    fun id req hfind => ?_, fun o' ho' => ?_, fun h' f' hf' => ?_⟩
  · obtain ⟨f', hf', hid'⟩ := hl.requests id req hfind
    have hne : req.context ≠ o.req.context := by
      intro heq
      rw [heq, hf] at hf'
      cases hf'
      exact hl.sound.pending_not_handed hfind o hhanded (hid.symm.trans hid')
    exact ⟨f', by rw [Function.update_of_ne hne, hf'], hid'⟩
  · obtain ⟨f', hf', hid'⟩ := hl.addresses o' (List.mem_cons_of_mem _ ho')
    have hne : o'.req.context ≠ o.req.context := by
      intro heq
      rw [heq, hf] at hf'
      cases hf'
      exact hnodup.1 (List.mem_map.2 ⟨o', ho', hid'.symm.trans hid⟩)
    exact ⟨f', by rw [Function.update_of_ne hne, hf'], hid'⟩
  · have hne : h' ≠ o.req.context := by
      rintro rfl
      simp at hf'
    rw [Function.update_of_ne hne] at hf'
    obtain ⟨hsub, hreq⟩ := hl.suspended h' f' hf'
    refine ⟨hsub, hreq.imp_right ?_⟩
    rintro ⟨⟨o', ho', hid'⟩, hans⟩
    rcases List.mem_cons.1 ho' with rfl | ho'
    · exact absurd (hl.eq_of_id hf' hf (hid'.symm.trans hid.symm)) hne
    · exact ⟨⟨o', ho', hid'⟩, hans⟩

/-- The kernel completes an operation: a request that is not pending is not affected. -/
theorem suspended_of_finishes {id : ℕ} {res : ℤ} (hl : Links ring ready frames)
    (hq : Uring.Finishes ring ring' id res) {h : Handle} {f : Frame S} (hf : frames h = some f)
    (hid : f.id = id → ring.sched.ioIndex2req_.find id = none) : Suspended ring' ready h f := by
  obtain ⟨hsub, hreq⟩ := hl.suspended h f hf
  refine ⟨hq.submissions ▸ hsub, hreq.imp_left fun hp => ?_⟩
  have hne : f.id ≠ id := fun heq => by
    have hfound := hp.found
    rw [heq, hid heq] at hfound
    cases hfound
  refine hp.mono (by rw [hq.pending]) (by simp [hq.flying, hne]) fun cqe hcqe heq => ?_
  rw [hq.cq] at hcqe
  rcases List.mem_append.1 hcqe with hcqe | hcqe
  · exact hcqe
  · rw [List.mem_singleton.1 hcqe] at heq
    exact absurd heq.symm hne

/-- An operation whose request was handed out before. -/
theorem finish_unclaimed {id : ℕ} {res : ℤ} (hl : Links ring ready frames)
    (hq : Uring.Finishes ring ring' id res) (hs : ring'.Sound)
    (hnone : ring'.sched.ioIndex2req_.find id = none) : Links ring' ready frames where
  sound := hs
  handed := by
    rw [hq.handed]
    exact hl.handed
  requests := by
    rw [hq.pending]
    exact hl.requests
  addresses := hl.addresses
  suspended h f hf := by
    rw [hq.pending] at hnone
    exact hl.suspended_of_finishes hq hf fun _ => hnone

/-- An operation whose request is pending: its bytes are now in the buffer. -/
theorem finish {id : ℕ} {req : IoRequest} {res : ℤ} {bytes : Bytes} {f : Frame S}
    (hl : Links ring ready frames) (hq : Uring.Finishes ring ring' id res) (hs : ring'.Sound)
    (hfound : ring'.sched.ioIndex2req_.find id = some req)
    (hres : (req.sqe id).Completes res bytes) (hf : frames req.context = some f)
    (hid : f.id = id) :
    Links ring' ready (Function.update frames req.context
      (some { f with req := f.req.fill bytes })) := by
  rw [hq.pending] at hfound
  have hkeeps {h : Handle} {g : Frame S} := exists_update (h := h) (g := g) hf
    { f with req := f.req.fill bytes } rfl
  refine ⟨hs, hq.handed ▸ hl.handed, fun id' req' hfind => ?_, fun o ho => ?_,
    fun h g hg => ?_⟩
  · rw [hq.pending] at hfind
    obtain ⟨g, hg, hgid⟩ := hl.requests id' req' hfind
    obtain ⟨g', hg', hid'⟩ := hkeeps hg
    exact ⟨g', hg', hid'.trans hgid⟩
  · obtain ⟨g, hg, hgid⟩ := hl.addresses o ho
    obtain ⟨g', hg', hid'⟩ := hkeeps hg
    exact ⟨g', hg', hid'.trans hgid⟩
  · by_cases heq : h = req.context
    · subst heq
      rw [Function.update_self] at hg
      cases hg
      obtain ⟨hsub, hreq⟩ := hl.suspended _ f hf
      have hcall : f.call.suspend req.context = req := by
        rw [hid] at hsub
        exact hl.sound.submission_unique hsub (hl.sound.inv.sources.pending id req hfound)
      have hflying := hq.flying id
      refine ⟨hq.submissions ▸ hsub, Or.inl ⟨?_, Or.inr ⟨?_, res, bytes, ?_, ?_, ?_⟩⟩⟩
      · rw [hq.pending, hid, hcall]
        exact hfound
      · rw [hid, hflying]
        exact fun hand => hand.1 rfl
      · rw [← Await.completes_iff f.call req.context id, hcall]
        exact hres
      · -- the operation was in flight, so that nothing was stored before
        rcases hreq with hp | ⟨⟨o, ho, hoid⟩, -⟩
        · rcases hp.stored with ⟨-, hstored⟩ | ⟨hnot, -⟩
          · exact congrArg (IoRequest.fill · bytes) hstored
          · exact absurd (hid ▸ hq.was) hnot
        · exact absurd (hoid.trans hid)
            (hl.sound.pending_not_handed hfound o (hl.handed.subset ho))
      · intro cqe hcqe hcid
        rw [hq.cq] at hcqe
        rcases List.mem_append.1 hcqe with hcqe | hcqe
        · exact absurd (hcid.trans hid ▸ hq.was) (hl.sound.kernel.unseen cqe hcqe)
        · rw [List.mem_singleton.1 hcqe]
    · rw [Function.update_of_ne heq] at hg
      refine hl.suspended_of_finishes hq hg fun hgid => ?_
      exact absurd (hl.eq_of_id hg hf (hgid.trans hid.symm)) heq

/-- A pending request is handed out. -/
theorem handOut {req : IoRequest} {o : HandOut} {f : Frame S} (hl : Links ring ready frames)
    (hq : Uring.HandsOut ring ring' req o) (hs : ring'.Sound)
    (hf : frames o.req.context = some f) (hid : f.id = o.id)
    (hanswers : Pending ring o.req.context f →
      f.call.Answers { f.req with retCode := o.req.retCode }) :
    Links ring' (ready ++ [o]) (Function.update frames o.req.context
      (some { f with req := { f.req with retCode := o.req.retCode } })) := by
  have hkeeps {h : Handle} {g : Frame S} := exists_update (h := h) (g := g) hf
    { f with req := { f.req with retCode := o.req.retCode } } rfl
  have hnothanded := hl.sound.pending_not_handed hq.found
  refine ⟨hs, ?_, fun id req' hfind => ?_, fun o' ho' => ?_, fun h g hg => ?_⟩
  · rw [hq.handed]
    exact (List.suffix_append_self_iff).2 hl.handed
  · rw [hq.pending, SortedMap.find_erase_eq_some] at hfind
    obtain ⟨g, hg, hgid⟩ := hl.requests id req' hfind.2
    obtain ⟨g', hg', hid'⟩ := hkeeps hg
    exact ⟨g', hg', hid'.trans hgid⟩
  · rcases List.mem_append.1 ho' with ho' | ho'
    · obtain ⟨g, hg, hgid⟩ := hl.addresses o' ho'
      obtain ⟨g', hg', hid'⟩ := hkeeps hg
      exact ⟨g', hg', hid'.trans hgid⟩
    · rw [List.mem_singleton.1 ho']
      obtain ⟨g', hg', hid'⟩ := hkeeps hf
      exact ⟨g', hg', hid'.trans hid⟩
  · by_cases heq : h = o.req.context
    · subst heq
      rw [Function.update_self] at hg
      cases hg
      obtain ⟨hsub, hreq⟩ := hl.suspended _ f hf
      refine ⟨hq.submissions ▸ hsub, Or.inr ⟨⟨o, ?_, hid.symm⟩, hanswers ?_⟩⟩
      · exact List.mem_append_right _ List.mem_cons_self
      · rcases hreq with hp | ⟨⟨o', ho', hoid⟩, -⟩
        · exact hp
        · exact absurd (hoid.trans hid) (hnothanded o' (hl.handed.subset ho'))
    · rw [Function.update_of_ne heq] at hg
      have hne : g.id ≠ o.id := fun hgid => heq (hl.eq_of_id hg hf (hgid.trans hid.symm))
      obtain ⟨hsub, hreq⟩ := hl.suspended h g hg
      refine ⟨hq.submissions ▸ hsub, ?_⟩
      rcases hreq with hp | ⟨⟨o', ho', hoid⟩, hans⟩
      · refine Or.inl (hp.mono ?_ ?_ fun cqe hcqe _ => hq.mem_cq hcqe)
        · rw [hq.pending, SortedMap.find_erase, if_neg hne]
        · rw [Uring.flying, Uring.flying, hq.inFlight]
      · exact Or.inr ⟨⟨o', List.mem_append_left _ ho', hoid⟩, hans⟩

end Links

/-! ## The points of the coroutines -/

/-- The suspended threads are the suspended coroutines, at the same points.  The thread `running`
runs a piece. -/
structure Follows (running : Option ℕ) (frames : Handle → Option (Frame S))
    (t : Threads A F Await IoRequest S) : Prop where
  point : ∀ h f, frames h = some f →
    running ≠ some f.thread ∧ ∃ a, t.threads[f.thread]? = some (a, .awaits f.call f.state)
  unique : ∀ h f h' f', frames h = some f → frames h' = some f' → f.thread = f'.thread → h = h'
  suspended : ∀ n a q s, running ≠ some n → t.threads[n]? = some (a, .awaits q s) →
    ∃ h f, frames h = some f ∧ f.thread = n

namespace Follows

variable {running : Option ℕ} {frames : Handle → Option (Frame S)}
  {t t' : Threads A F Await IoRequest S} {h : Handle} {f : Frame S} {n : ℕ}

theorem new : Follows none (fun _ => none) (Threads.new : Threads A F Await IoRequest S) where
  point := by simp
  unique := by simp
  suspended := by simp [Threads.new]

/-- A store in the request of a frame. -/
theorem store (hw : Follows running frames t) (hf : frames h = some f) (req : IoRequest) :
    Follows running (Function.update frames h (some { f with req := req })) t := by
  have hback (h' : Handle) (g : Frame S)
      (hg : Function.update frames h (some { f with req := req }) h' = some g) :
      ∃ g', frames h' = some g' ∧ g'.thread = g.thread ∧ g'.call = g.call ∧ g'.state = g.state := by
    by_cases heq : h' = h
    · rw [heq, Function.update_self] at hg
      cases hg
      exact ⟨f, by rw [heq, hf], rfl, rfl, rfl⟩
    · rw [Function.update_of_ne heq] at hg
      exact ⟨g, hg, rfl, rfl, rfl⟩
  refine ⟨fun h' g hg => ?_, fun h' g h'' g' hg hg' heq => ?_, fun m a q s hm hget => ?_⟩
  · obtain ⟨g', hg', hthread, hcall, hstate⟩ := hback h' g hg
    rw [← hthread, ← hcall, ← hstate]
    exact hw.point h' g' hg'
  · obtain ⟨k, hk, hthread, -⟩ := hback h' g hg
    obtain ⟨k', hk', hthread', -⟩ := hback h'' g' hg'
    exact hw.unique h' k h'' k' hk hk' (by rw [hthread, hthread', heq])
  · obtain ⟨h', g, hg, rfl⟩ := hw.suspended m a q s hm hget
    by_cases heq : h' = h
    · rw [heq, hf] at hg
      cases hg
      exact ⟨h, _, Function.update_self .., rfl⟩
    · exact ⟨h', g, by rw [Function.update_of_ne heq, hg], rfl⟩

/-- The next thread is about to be started. -/
theorem start (hw : Follows none frames t) : Follows (some t.threads.length) frames t := by
  refine ⟨fun h f hf => ⟨?_, (hw.point h f hf).2⟩, hw.unique, fun m a q s _ hget =>
    hw.suspended m a q s (by simp) hget⟩
  obtain ⟨a, hget⟩ := (hw.point h f hf).2
  have hlt := (List.getElem?_eq_some_iff.1 hget).1
  intro heq
  have := Option.some.inj heq
  omega

/-- The coroutine of the frame `f` is about to run its next piece. -/
theorem resume (hw : Follows none frames t) (hf : frames h = some f) :
    Follows (some f.thread) (Function.update frames h none) t := by
  have hback {h' : Handle} {g : Frame S} (hg : Function.update frames h none h' = some g) :
      h' ≠ h ∧ frames h' = some g := by
    have hne : h' ≠ h := by
      rintro rfl
      simp at hg
    rw [Function.update_of_ne hne] at hg
    exact ⟨hne, hg⟩
  refine ⟨fun h' g hg => ?_, fun h' g h'' g' hg hg' heq => ?_, fun m a q s hm hget => ?_⟩
  · obtain ⟨hne, hg⟩ := hback hg
    exact ⟨fun heq => hne (hw.unique h' g h f hg hf (Option.some.inj heq).symm),
      (hw.point h' g hg).2⟩
  · exact hw.unique h' g h'' g' (hback hg).2 (hback hg').2 heq
  · obtain ⟨h', g, hg, rfl⟩ := hw.suspended m a q s (by simp) hget
    refine ⟨h', g, ?_, rfl⟩
    rw [Function.update_of_ne, hg]
    rintro rfl
    rw [hf] at hg
    cases hg
    exact hm rfl

/-- The running thread is suspended again. -/
theorem suspend {a : A} {q : Await} {s : S} (req : IoRequest) (id : ℕ)
    (hw : Follows (some n) frames t) (hfree : frames h = none)
    (hget : t'.threads[n]? = some (a, .awaits q s))
    (hothers : ∀ m ≠ n, t'.threads[m]? = t.threads[m]?) :
    Follows none (Function.update frames h
      (some { req := req, state := s, call := q, thread := n, id := id })) t' := by
  have hne {h' : Handle} {g : Frame S} (hg : frames h' = some g) : h' ≠ h := by
    rintro rfl
    rw [hfree] at hg
    cases hg
  have hthread {h' : Handle} {g : Frame S} (hg : frames h' = some g) : g.thread ≠ n :=
    fun heq => (hw.point h' g hg).1 (by rw [heq])
  refine ⟨fun h' g hg => ⟨by simp, ?_⟩, fun h' g h'' g' hg hg' heq => ?_,
    fun m b q' s' _ hget' => ?_⟩
  · by_cases heq : h' = h
    · rw [heq, Function.update_self] at hg
      cases hg
      exact ⟨a, hget⟩
    · rw [Function.update_of_ne heq] at hg
      rw [hothers _ (hthread hg)]
      exact (hw.point h' g hg).2
  · by_cases hh : h' = h <;> by_cases hh' : h'' = h
    · rw [hh, hh']
    · rw [hh, Function.update_self] at hg
      rw [Function.update_of_ne hh'] at hg'
      cases hg
      exact absurd heq.symm (hthread hg')
    · rw [hh', Function.update_self] at hg'
      rw [Function.update_of_ne hh] at hg
      cases hg'
      exact absurd heq (hthread hg)
    · rw [Function.update_of_ne hh] at hg
      rw [Function.update_of_ne hh'] at hg'
      exact hw.unique h' g h'' g' hg hg' heq
  · by_cases hm : m = n
    · exact ⟨h, _, Function.update_self .., hm.symm⟩
    · rw [hothers m hm] at hget'
      obtain ⟨h', g, hg, hgm⟩ := hw.suspended m b q' s' (by simp [Ne.symm hm]) hget'
      exact ⟨h', g, by rw [Function.update_of_ne (hne hg), hg], hgm⟩

/-- The running thread has come to its end. -/
theorem finish {a : A} {next : Next Await S} (hw : Follows (some n) frames t)
    (hnext : ∀ q s, next ≠ .awaits q s) (hget : t'.threads[n]? = some (a, next))
    (hothers : ∀ m ≠ n, t'.threads[m]? = t.threads[m]?) : Follows none frames t' := by
  refine ⟨fun h' g hg => ⟨by simp, ?_⟩, hw.unique, fun m b q s _ hget' => ?_⟩
  · have hthread : g.thread ≠ n := fun heq => (hw.point h' g hg).1 (by rw [heq])
    rw [hothers _ hthread]
    exact (hw.point h' g hg).2
  · have hm : m ≠ n := by
      rintro rfl
      rw [hget] at hget'
      cases hget'
      exact hnext q s rfl
    rw [hothers m hm] at hget'
    exact hw.suspended m b q s (by simp [Ne.symm hm]) hget'

end Follows

/-! ## The simulation -/

/-- The loop does what the threads do. -/
structure Matches (w : UringLoop F S) (t : Threads A F Await IoRequest S) : Prop where
  links : Links w.ring w.ready w.frames
  follows : Follows none w.frames t
  started : w.started = t.threads.length
  log : w.log = t.log
  clearing : w.point = .clearing → w.ready = []
  alive : w.status ≠ .dangling
  broken : w.status = .broken ↔ ∃ (n : ℕ) (a : A), t.threads[n]? = some (a, .broken)

theorem matches_new : Matches (new : UringLoop F S) (Threads.new : Threads A F Await IoRequest S)
    where
  links := Links.new
  follows := Follows.new
  started := rfl
  log := rfl
  clearing := fun _ => rfl
  alive := by simp [new]
  broken := by simp [new, Threads.new]

variable {p : Coroutine A E F S} {w v : UringLoop F S} {t t' : Threads A F Await IoRequest S}

theorem store_of_frame {h : Handle} {f : Frame S} (hf : w.frames h = some f)
    (g : IoRequest → IoRequest) :
    w.store h g =
      { w with frames := Function.update w.frames h (some { f with req := g f.req }) } := by
  rw [store, hf]

/-- A piece that was run by a thread is settled in the loop. -/
theorem settle_matches {h : Handle} {n now : ℕ} {ran : Ran F Await S} {a : A}
    (hl : Links w.ring w.ready (Function.update w.frames h none))
    (hw : Follows (some n) (Function.update w.frames h none) t)
    (hget : t'.threads[n]? = some (a, ran.next))
    (hothers : ∀ m ≠ n, t'.threads[m]? = t.threads[m]?)
    (hlog : w.log ++ tagged n ran.events = t'.log) (hstarted : w.started = t'.threads.length)
    (hpoint : w.point ≠ .clearing) (hstatus : w.status = .running)
    (hintact : ¬ ∃ (m : ℕ) (b : A), t.threads[m]? = some (b, .broken))
    (hv : w.settle h n ran now = some v) (hlt : v.ring.submissions.length < 2 ^ 64) :
    Matches v t' := by
  have hintact' (hnext : ran.next ≠ .broken) :
      ¬ ∃ (m : ℕ) (b : A), t'.threads[m]? = some (b, .broken) := by
    rintro ⟨m, b, hm⟩
    by_cases heq : m = n
    · rw [heq, hget] at hm
      exact hnext (congrArg Prod.snd (Option.some.inj hm))
    · rw [hothers m heq] at hm
      exact hintact ⟨m, b, hm⟩
  have hfree : Function.update w.frames h none h = none := Function.update_self ..
  cases settled_of_settle hv with
  | awaits q s ring hnext hring =>
    obtain ⟨ring', hring', hsub⟩ := Uring.submits_of_op (w := w.ring) (q.suspend h) now
    cases hring.symm.trans hring'
    have hlt' : w.ring.submissions.length < 2 ^ 64 := by
      have hlt : ring.submissions.length < 2 ^ 64 := hlt
      rw [hsub.submissions, List.length_append] at hlt
      omega
    have hlinks := hl.suspend (s := s) (n := n) hfree hsub (hl.sound.step hring hlt) hlt'
    have hfollows := hw.suspend (q.suspend h) w.ring.sched.ioIndex_ hfree (hnext ▸ hget) hothers
    rw [Function.update_idem] at hlinks hfollows
    exact ⟨hlinks, hfollows, hstarted, hlog, fun hp => absurd hp hpoint, by simp [hstatus],
      iff_of_false (by simp [hstatus]) (hintact' (by simp [hnext]))⟩
  | ended hnext =>
    exact ⟨hl, hw.finish (by simp [hnext]) hget hothers, hstarted, hlog,
      fun hp => absurd hp hpoint, by simp [hstatus],
      iff_of_false (by simp [hstatus]) (hintact' (by simp [hnext]))⟩
  | broken hnext =>
    exact ⟨hl, hw.finish (by simp [hnext]) hget hothers, hstarted, hlog,
      fun hp => absurd hp hpoint, by simp, iff_of_true rfl ⟨n, a, by rw [hget, hnext]⟩⟩

/-- A turn of `poll` that left `ring`. -/
theorem handOver_matches {ring : Uring} (hm : Matches w t) (hpoint : w.point ≠ .clearing)
    (hs : ring.Sound)
    (hturn : Uring.Quiet w.ring ring ∨ ∃ req o, Uring.HandsOut w.ring ring req o ∧
      ∀ f : Frame S, f.id = o.id → Pending w.ring o.req.context f →
        f.call.Answers { f.req with retCode := o.req.retCode }) :
    Matches (w.handOver ring) t := by
  rcases hturn with hq | ⟨req, o, hq, hanswers⟩
  · rw [handOver, hq.handed, List.drop_length]
    exact ⟨hm.links.quiet hq hs, hm.follows, hm.started, hm.log, hm.clearing, hm.alive,
      hm.broken⟩
  · obtain ⟨f, hf, hid⟩ := hm.links.requests o.id req hq.found
    rw [← hq.context] at hf
    rw [handOver, hq.handed, List.drop_left]
    dsimp only
    rw [store_of_frame (by exact hf)]
    exact ⟨hm.links.handOut hq hs hf hid (hanswers f hid), hm.follows.store hf _, hm.started,
      hm.log, fun hp => absurd hp hpoint, hm.alive, hm.broken⟩

/-- What a completion entry reports is the answer of its own operation. -/
theorem answers_of_reap {ring : Uring} {cqe : Cqe} {rest : List Cqe} {o : HandOut}
    {f : Frame S} (hs : ring.Sound) (hcq : ring.cq = cqe :: rest) (hid : o.id = cqe.user_data)
    (hret : o.req.retCode = cqe.res) (hf : f.id = o.id) (hp : Pending ring o.req.context f) :
    f.call.Answers { f.req with retCode := o.req.retCode } := by
  have hmem : cqe ∈ ring.cq := by
    rw [hcq]
    exact List.mem_cons_self
  rcases hp.stored with ⟨hflying, -⟩ | ⟨-, res, bytes, hres, hreq, hall⟩
  · rw [hf, hid] at hflying
    exact absurd hflying (hs.kernel.unseen cqe hmem)
  · refine .completed o.req.context res bytes hres ?_
    rw [hreq, hret, hall cqe hmem (by rw [hf, hid])]

theorem answers_of_expire {ring : Uring} {req : IoRequest} {o : HandOut} {f : Frame S}
    (hs : ring.Sound) (hkey : o.id ∈ ring.expireds)
    (hfound : ring.sched.ioIndex2req_.find o.id = some req) (hret : o.req.retCode = -1)
    (hf : f.id = o.id) (hp : Pending ring o.req.context f) :
    f.call.Answers { f.req with retCode := o.req.retCode } := by
  have htimeout : 0 < f.call.req.timeout := by
    have hpos := hs.timeout_pos hkey hfound
    have hfound' := hp.found
    rw [hf, hfound] at hfound'
    cases hfound'
    simpa using hpos
  rw [hret]
  rcases hp.stored with ⟨-, hreq⟩ | ⟨-, res, bytes, hres, hreq, -⟩
  · exact .expired o.req.context [] htimeout (Or.inl rfl) (by rw [hreq]; rfl)
  · exact .expired o.req.context bytes htimeout (Or.inr ⟨res, hres⟩) (by rw [hreq])

@[simp] theorem store_ring (w : UringLoop F S) (h : Handle) (g : IoRequest → IoRequest) :
    (w.store h g).ring = w.ring := by
  unfold store; split <;> rfl

@[simp] theorem handOver_ring (w : UringLoop F S) (ring : Uring) :
    (w.handOver ring).ring = ring := by
  unfold handOver; split <;> simp

@[simp] theorem completed_ring (w : UringLoop F S) (ring : Uring) (id : ℕ) (res : ℤ)
    (bytes : Bytes) : (w.completed ring id res bytes).ring = ring := by
  unfold completed
  split
  · simp
  · split <;> rfl

/-- The kernel has completed an operation. -/
theorem completed_matches {ring : Uring} {i : ℕ} {sqe : Sqe} {res : ℤ} {bytes : Bytes}
    (hm : Matches w t) (hstatus : w.status = .running)
    (hsqe : w.ring.inFlight[i]? = some sqe) (hres : sqe.Completes res bytes)
    (hring : w.ring.step (.complete i res) = some ring) (hs : ring.Sound) :
    Matches (w.completed ring sqe.user_data res bytes) t := by
  have hsound := hm.links.sound
  have hq := Uring.step_complete hsound.kernel hsqe hring
  unfold completed
  split
  · rename_i req hfound
    have hpending := hfound
    rw [hq.pending] at hpending
    obtain ⟨f, hf, hid⟩ := hm.links.requests _ req hpending
    obtain ⟨req', hreq', hsqe'⟩ := hsound.sqes sqe (List.mem_of_getElem? hsqe)
    rw [hsound.submission_unique hreq' (hsound.inv.sources.pending _ req hpending)] at hsqe'
    rw [store_of_frame (by exact hf)]
    exact ⟨hm.links.finish hq hs hfound (hsqe' ▸ hres) hf hid, hm.follows.store hf _, hm.started,
      hm.log, hm.clearing, hm.alive, hm.broken⟩
  · rename_i hnone
    have hlinks := hm.links.finish_unclaimed hq hs hnone
    split
    · exact ⟨hlinks, hm.follows, hm.started, hm.log, hm.clearing, by simp,
        iff_of_false (by simp) (mt hm.broken.2 (by simp [hstatus]))⟩
    · exact ⟨hlinks, hm.follows, hm.started, hm.log, hm.clearing, hm.alive, hm.broken⟩

/-- A coroutine is started at a free address. -/
theorem connect_matches {a : A} {e : E} {h : Handle} {now : ℕ} (hm : Matches w t)
    (hpoint : w.point = .accepting) (hfree : w.frames h = none) (hstatus : w.status = .running)
    (hv : { w with started := w.started + 1 }.settle h w.started (p.start a e) now = some v)
    (hlt : v.ring.submissions.length < 2 ^ 64) :
    Matches v { threads := t.threads ++ [(a, (p.start a e).next)]
                log := t.log ++ tagged t.threads.length (p.start a e).events } := by
  have hupdate : Function.update w.frames h none = w.frames := by
    rw [← hfree, Function.update_eq_self]
  rw [hm.started] at hv
  refine settle_matches (w := { w with started := t.threads.length + 1 }) (t := t) (a := a) ?_ ?_
    ?_ ?_ ?_ ?_ ?_ hstatus (mt hm.broken.2 (by simp [hstatus])) hv hlt
  · exact hupdate.symm ▸ hm.links
  · exact hupdate.symm ▸ hm.follows.start
  · exact List.getElem?_concat_length
  · intro m hne
    rcases Nat.lt_or_gt_of_ne hne with hlt | hlt
    · exact List.getElem?_append_left hlt
    · rw [List.getElem?_eq_none (by simp; omega), List.getElem?_eq_none (by omega)]
  · simp [hm.log]
  · simp
  · simp [hpoint]

/-- The coroutine at the first ready address is resumed: its thread gets its answer. -/
theorem resume_matches {o : HandOut} {os : List HandOut} (e : E) (now : ℕ) (hm : Matches w t)
    (hready : w.ready = o :: os) (hpoint : w.point = .resuming) (hstatus : w.status = .running) :
    ∃ f a, w.frames o.req.context = some f ∧ f.call.Answers f.req ∧
      t.threads[f.thread]? = some (a, .awaits f.call f.state) ∧
      ∀ v, { w with ready := os, log := w.log ++ tagged f.thread [TraceEvent.got f.req] }.settle
          o.req.context f.thread (p.resume f.state e f.req) now = some v →
        v.ring.submissions.length < 2 ^ 64 →
        Matches v
          { threads := t.threads.set f.thread (a, (p.resume f.state e f.req).next)
            log := t.log ++
              tagged f.thread (.got f.req :: (p.resume f.state e f.req).events) } := by
  have hlinks := hm.links
  rw [hready] at hlinks
  obtain ⟨f, hf, hanswers, hlinks⟩ := hlinks.resume
  obtain ⟨a, hget⟩ := (hm.follows.point _ f hf).2
  have hn := (List.getElem?_eq_some_iff.1 hget).1
  refine ⟨f, a, hf, hanswers, hget, fun v hv hlt => ?_⟩
  refine settle_matches (w := { w with
      ready := os, log := w.log ++ tagged f.thread [TraceEvent.got f.req] }) (a := a)
    hlinks (hm.follows.resume hf) ?_ ?_ ?_ ?_ ?_ hstatus (mt hm.broken.2 (by simp [hstatus])) hv hlt
  · exact List.getElem?_set_self hn
  · exact fun m hne => List.getElem?_set_ne (Ne.symm hne)
  · simp [hm.log, tagged]
  · simp [hm.started]
  · simp [hpoint]

/-- A step of the loop is a step of the threads, or none. -/
theorem effect_matches {b : Action A E} (hm : Matches w t) (hstatus : w.status = .running)
    (hv : Effect p w b v) (hlt : v.ring.submissions.length < 2 ^ 64) :
    ∃ bs t', run (Threads.step p) t bs = some t' ∧
      Always (Threads.step p) (Threads.Allowed Await.Answers) t bs ∧ Matches v t' := by
  have hsame (hm' : Matches v t) : ∃ bs t', run (Threads.step p) t bs = some t' ∧
      Always (Threads.step p) (Threads.Allowed Await.Answers) t bs ∧ Matches v t' :=
    ⟨[], t, rfl, trivial, hm'⟩
  have hsound := hm.links.sound
  cases hv with
  | cleared hpoint =>
    refine hsame ⟨?_, hm.follows, hm.started, hm.log, fun _ => rfl, hm.alive, hm.broken⟩
    rw [← hm.clearing hpoint]
    exact hm.links
  | moved b point hpoint =>
    exact hsame ⟨hm.links, hm.follows, hm.started, hm.log, hpoint, hm.alive, hm.broken⟩
  | connected a e h now v hpoint hfree hv =>
    exact ⟨[.start a e], _, rfl, ⟨trivial, fun _ _ => trivial⟩,
      connect_matches hm hpoint hfree hstatus hv hlt⟩
  | completed i res bytes sqe ring hsqe hres hring =>
    rw [completed_ring] at hlt
    exact hsame (completed_matches hm hstatus hsqe hres hring (hsound.step hring hlt))
  | reaped point ring hpoint hring =>
    rw [handOver_ring] at hlt
    have hm' : Matches { w with point := point } t :=
      ⟨hm.links, hm.follows, hm.started, hm.log, fun hp => absurd hp hpoint, hm.alive,
        hm.broken⟩
    refine hsame (handOver_matches hm' hpoint (hsound.step hring hlt) ?_)
    refine (Uring.step_reap hring).imp_right ?_
    rintro ⟨cqe, req, o, hcq, hq, hid, hret⟩
    exact ⟨req, o, hq, fun f hf => answers_of_reap hsound hcq hid hret hf⟩
  | popped now ring hring =>
    exact hsame ⟨hm.links.quiet (Uring.step_popExpired hring) (hsound.step hring hlt), hm.follows,
      hm.started, hm.log, by simp, hm.alive, hm.broken⟩
  | expired ring hpoint hring =>
    rw [handOver_ring] at hlt
    refine hsame (handOver_matches hm (by simp [hpoint]) (hsound.step hring hlt) ?_)
    refine (Uring.step_expire hring).imp_right ?_
    rintro ⟨key, req, o, hkey, hq, rfl, hret⟩
    exact ⟨req, o, hq, fun f hf => answers_of_expire hsound hkey hq.found hret hf⟩
  | lost e now o os hready hnone =>
    obtain ⟨f, hf, -⟩ := hm.links.addresses o (by rw [hready]; exact List.mem_cons_self)
    rw [hf] at hnone
    cases hnone
  | resumed e now o os f v hready hpoint hf hv =>
    obtain ⟨f', a, hf', hanswers, hget, hmatches⟩ :=
      resume_matches (p := p) e now hm hready hpoint hstatus
    cases hf.symm.trans hf'
    refine ⟨[.answer f.thread e f.req], _, ?_, ⟨?_, fun _ _ => trivial⟩, hmatches v hv hlt⟩
    · simp [run_singleton, Threads.step, hget]
    · intro a' q s hget'
      cases hget.symm.trans hget'
      exact hanswers

/-! ## Runs -/

theorem ring_of_settled {h : Handle} {n now : ℕ} {ran : Ran F Await S}
    (hv : Settled w h n ran now v) :
    v.ring = w.ring ∨ ∃ a, w.ring.step a = some v.ring := by
  cases hv with
  | awaits q s ring hnext hring => exact Or.inr ⟨_, hring⟩
  | ended hnext => exact Or.inl rfl
  | broken hnext => exact Or.inl rfl

/-- A step of the loop is a step of the ring, or the ring does not move. -/
theorem ring_of_effect {b : Action A E} (hv : Effect p w b v) :
    v.ring = w.ring ∨ ∃ a, w.ring.step a = some v.ring := by
  cases hv with
  | connected a e h now v hpoint hfree hv =>
    have hring := ring_of_settled (settled_of_settle hv)
    exact hring
  | completed i res bytes sqe ring hsqe hres hring =>
    exact Or.inr ⟨_, by rw [completed_ring, hring]⟩
  | reaped point ring hpoint hring => exact Or.inr ⟨_, by rw [handOver_ring, hring]⟩
  | popped now ring hring => exact Or.inr ⟨_, hring⟩
  | expired ring hpoint hring => exact Or.inr ⟨_, by rw [handOver_ring, hring]⟩
  | resumed e now o os f v hready hpoint hf hv =>
    have hring := ring_of_settled (settled_of_settle hv)
    exact hring
  | _ => exact Or.inl rfl

theorem submissions_mono {b : Action A E} (hv : Effect p w b v) :
    w.ring.submissions.length ≤ v.ring.submissions.length := by
  rcases ring_of_effect hv with heq | ⟨a, ha⟩
  · rw [heq]
  · exact (Uring.submissions_grow (Uring.effect_of_step ha)).length_le

/-- Every run of the loop is matched by a run of threads. -/
theorem run_threads {bs : List (Action A E)} (hrun : run (step p) new bs = some w)
    (hlt : w.ring.submissions.length < 2 ^ 64) :
    ∃ cs t, run (Threads.step p) Threads.new cs = some t ∧
      Always (Threads.step p) (Threads.Allowed Await.Answers) Threads.new cs ∧ Matches w t := by
  have hstep (u : UringLoop F S) (b : Action A E) (v : UringLoop F S)
      (t : Threads A F Await IoRequest S)
      (hm : u.ring.submissions.length < 2 ^ 64 → Matches u t) (hv : u.step p b = some v) :
      ∃ cs t', run (Threads.step p) t cs = some t' ∧
        Always (Threads.step p) (Threads.Allowed Await.Answers) t cs ∧
        (v.ring.submissions.length < 2 ^ 64 → Matches v t') := by
    by_cases hlt : v.ring.submissions.length < 2 ^ 64
    · obtain ⟨hstatus, heffect⟩ := effect_of_step hv
      have hle := submissions_mono heffect
      obtain ⟨cs, t', hcs, hallowed, hm'⟩ := effect_matches (hm (by omega)) hstatus heffect hlt
      exact ⟨cs, t', hcs, hallowed, fun _ => hm'⟩
    · exact ⟨[], t, rfl, trivial, fun h => absurd h hlt⟩
  obtain ⟨cs, t, hcs, hallowed, hm⟩ := run_simulation_always hstep (fun _ => matches_new) hrun
  exact ⟨cs, t, hcs, hallowed, hm hlt⟩

theorem Matches.suspended_iff (hm : Matches w t) (n : ℕ) (q : Await) (s : S) :
    (∃ a, t.threads[n]? = some (a, .awaits q s)) ↔
      ∃ h f, w.frames h = some f ∧ f.thread = n ∧ f.call = q ∧ f.state = s := by
  constructor
  · rintro ⟨a, hget⟩
    obtain ⟨h, f, hf, rfl⟩ := hm.follows.suspended n a q s (by simp) hget
    obtain ⟨-, a', hget'⟩ := hm.follows.point h f hf
    cases hget.symm.trans hget'
    exact ⟨h, f, hf, rfl, rfl, rfl⟩
  · rintro ⟨h, f, hf, rfl, rfl, rfl⟩
    exact (hm.follows.point h f hf).2

/-- Every run of the loop with fewer than `2 ^ 64` requests, up to the first operation that moves
bytes after its request was handed out (`stray`), is a run of threads with the same events, in which
each `co_await` blocks until it ends with the result of its own operation, or with `-1` after its
own timeout.  In the state reached the suspended coroutines are the suspended threads, and neither a
store of `retCode` nor a `resume()` has used an address without a frame. -/
theorem coroutines_are_threads {bs : List (Action A E)} (hrun : run (step p) new bs = some w)
    (hlt : w.ring.submissions.length < 2 ^ 64) :
    w.status ≠ .dangling ∧ ∃ cs t, run (Threads.step p) Threads.new cs = some t ∧
      Always (Threads.step p) (Threads.Allowed Await.Answers) Threads.new cs ∧
      t.log = w.log ∧ t.threads.length = w.started ∧
      ∀ n q s, (∃ a, t.threads[n]? = some (a, .awaits q s)) ↔
        ∃ h f, w.frames h = some f ∧ f.thread = n ∧ f.call = q ∧ f.state = s := by
  obtain ⟨cs, t, hcs, hallowed, hm⟩ := run_threads hrun hlt
  exact ⟨hm.alive, cs, t, hcs, hallowed, hm.log.symm, hm.started.symm, hm.suspended_iff⟩

/-- A coroutine that reads once, within ten milliseconds. -/
def readOnce : Coroutine Unit Unit Unit Unit where
  start := fun _ _ =>
    { effects := [], next := asyncRead { capicaty := 4, op := .OP_READ, timeout := 10 } () }
  resume := fun _ _ _ => { effects := [()], next := .ended }

/-- The second coroutine gets the address of the first and times out. -/
theorem coroutines_are_threads_readOnce :
    ∃ w, run (step readOnce) new
        [.clear, .connect () () 100 0, .poll, .complete 0 2 [1, 2], .reap, .popExpired 0, .polled,
          .resume () 0, .resumed, .clear, .connect () () 100 0, .poll, .popExpired 20, .expire,
          .polled, .resume () 20] = some w ∧
      w.started = 2 ∧ w.log.length = 6 ∧ w.status ≠ .dangling := by
  have hrun : run (step readOnce) new
      [.clear, .connect () () 100 0, .poll, .complete 0 2 [1, 2], .reap, .popExpired 0, .polled,
        .resume () 0, .resumed, .clear, .connect () () 100 0, .poll, .popExpired 20, .expire,
        .polled, .resume () 20] = some _ := rfl
  exact ⟨_, hrun, rfl, rfl, (coroutines_are_threads hrun (by decide)).1⟩

/-- What the coroutine `n` has done it can do alone, and it is suspended exactly where its frame
says. -/
theorem alone_of_run {bs : List (Action A E)} (hrun : run (step p) new bs = some w)
    (hlt : w.ring.submissions.length < 2 ^ 64) {n : ℕ} (hn : n < w.started) :
    ∃ a next, Alone p Await.Answers a (part n w.log) next ∧
      (∀ q s, next = .awaits q s ↔
        ∃ h f, w.frames h = some f ∧ f.thread = n ∧ f.call = q ∧ f.state = s) ∧
      (w.status ≠ .broken → next ≠ .broken) := by
  obtain ⟨cs, t, hcs, hallowed, hm⟩ := run_threads hrun hlt
  rw [hm.started] at hn
  obtain ⟨x, hx⟩ : ∃ x, t.threads[n]? = some x := ⟨_, List.getElem?_eq_getElem hn⟩
  refine ⟨x.1, x.2, ?_, fun q s => ?_, fun hstatus hnext => hstatus (hm.broken.2 ⟨n, x.1, ?_⟩)⟩
  · have halone := Threads.alone_of_run hcs hallowed hx
    rwa [Threads.events, ← hm.log] at halone
  · rw [← hm.suspended_iff n q s, hx]
    constructor
    · intro heq
      exact ⟨x.1, by rw [← heq]⟩
    · rintro ⟨a, heq⟩
      rw [Option.some.inj heq]
  · rw [hx, ← hnext]

/-- A coroutine that cannot break alone does not break on the loop. -/
theorem not_broken (halone : ∀ a es, ¬ Alone p Await.Answers a es .broken)
    {bs : List (Action A E)} (hrun : run (step p) new bs = some w)
    (hlt : w.ring.submissions.length < 2 ^ 64) : w.status ≠ .broken := by
  obtain ⟨cs, t, hcs, hallowed, hm⟩ := run_threads hrun hlt
  intro hstatus
  obtain ⟨n, a, hget⟩ := hm.broken.1 hstatus
  exact halone a _ (Threads.alone_of_run hcs hallowed hget)

/-- Coroutines that are tidy by themselves are tidy on the loop, in every interleaving. -/
theorem run_accesses {T : Type*} [DecidableEq T]
    {access : TraceEvent F Await IoRequest → Option (Access T)}
    (htidy : ∀ a es next, Alone p Await.Answers a es next → Tidy (es.filterMap access))
    {bs : List (Action A E)} (hrun : run (step p) new bs = some w)
    (hlt : w.ring.submissions.length < 2 ^ 64) :
    run Access.on 0 ((w.log.map Prod.snd).filterMap access) =
      some (∑ n ∈ Finset.range w.started, owned ((part n w.log).filterMap access)) := by
  obtain ⟨cs, t, hcs, hallowed, hm⟩ := run_threads hrun hlt
  have hthreads := (Threads.inv_run hcs hallowed).run_accesses access
    (fun _ es _ => owned (es.filterMap access)) htidy
  rw [hm.log, hthreads, hm.started]
  refine congrArg some (Finset.sum_congr rfl fun n hn => ?_)
  rw [List.getElem?_eq_getElem (Finset.mem_range.1 hn)]
  rfl

end UringLoop

end CoUringWeb
