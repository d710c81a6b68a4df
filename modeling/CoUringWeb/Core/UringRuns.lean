import CoUringWeb.Core.Uring
import CoUringWeb.Framework.Transition
import Mathlib.Data.List.InsertIdx
import Mathlib.Data.List.Range

/-!
# Runs of `UringScheduler` against the kernel

A run interleaves calls of `handleRead` and `handleWrite`, completions by the kernel, and `poll`
taken apart into one completion entry (`reap`) or one expired key (`expire`) at a time.  The kernel
completes any operation in flight, in any order, with any result; it posts one entry for it that
carries the submitted `user_data`, and the operation is then no longer in flight.

The history fields of `Uring` record the requests submitted, the timers set, the entries posted
and, for every context `poll` hands out, the request with its return code and the reason.

* `Inv` is the invariant of the runs with fewer than `2 ^ 64` requests: the ids issued are split
  between `ioIndex2req_` and the ids handed out, and every hand-out is justified by an entry with
  that id or by the id's own timer.
* `KernelDone` ties the entries to the operations in flight: an id with an unseen entry has no
  operation in flight.  So the completion branch hands out a request only when its operation is
  over.  The expiry branch hands out whatever is pending, and a request whose operation is still in
  flight is handed out by it all the same (`ExpiryCompleted` is the exception).
-/

namespace CoUringWeb

open Machine Transition

/-! ## The system -/

/-- Why `poll` hands a request out. -/
inductive Cause where
  /-- its completion entry was found -/
  | completed (res : ℤ)
  /-- its key was popped at the clock reading `now` -/
  | expired (now : ℕ)
  deriving DecidableEq, Repr

/-- A context appended to `readyHandleAddrs`, with the request as it is at that moment. -/
structure HandOut where
  id : ℕ
  req : IoRequest
  cause : Cause
  /-- the operation submitted under the id is still in flight -/
  outstanding : Bool
  deriving DecidableEq, Repr

/-- The scheduler, the ring, the local `expireds` of `poll`, and the history. -/
structure Uring where
  sched : UringScheduler
  inFlight : List Sqe
  cq : List Cqe
  expireds : List ℕ
  clock : ℕ
  submissions : List (ℕ × IoRequest)
  armed : List (ℕ × ℕ)
  posted : List Cqe
  handed : List HandOut
  deriving DecidableEq

namespace Uring

inductive Action where
  /-- `handleRead` at a clock reading -/
  | read (req : IoRequest) (now : ℕ)
  /-- `handleWrite` at a clock reading -/
  | write (req : IoRequest) (now : ℕ)
  /-- the kernel completes the `i`-th operation in flight -/
  | complete (i : ℕ) (res : ℤ)
  /-- one turn of the `while` loop of `poll` -/
  | reap
  /-- `timerQueue_.popExpired` at a clock reading -/
  | popExpired (now : ℕ)
  /-- one turn of the expiry loop of `poll` -/
  | expire
  deriving DecidableEq, Repr

def new : Uring :=
  { sched := UringScheduler.new, inFlight := [], cq := [], expireds := [], clock := 0
    submissions := [], armed := [], posted := [], handed := [] }

/-- The operation submitted under the id is in flight. -/
def isInFlight (w : Uring) (id : ℕ) : Bool := w.inFlight.any fun sqe => sqe.user_data == id

/-- The state after a call of `handleRead` or `handleWrite` that left `s` and submitted `sqe`. -/
def submitted (w : Uring) (req : IoRequest) (now : ℕ) (r : UringScheduler × Sqe) : Uring :=
  { w with
    sched := r.1
    inFlight := w.inFlight ++ [r.2]
    submissions := w.submissions ++ [(r.2.user_data, req)]
    armed :=
      if req.timeout > 0 then w.armed ++ [(r.2.user_data, now + req.timeout.toNat)] else w.armed }

/-- The state after one turn of the `while` loop on the entry `cqe`. -/
def reaped (w : Uring) (cqe : Cqe) (rest : List Cqe) : Uring :=
  let o := w.sched.loopTurn cqe
  { w with
    sched := o.sched
    cq := if o.seen then rest else w.cq
    handed := w.handed ++
      (o.handed.map fun req =>
        { id := cqe.user_data, req := req, cause := .completed cqe.res
          outstanding := w.isInFlight cqe.user_data : HandOut }).toList }

/-- The state after one turn of the expiry loop on the key `key`. -/
def expiredKey (w : Uring) (key : ℕ) (keys : List ℕ) : Uring :=
  let r := w.sched.expireTurn key
  { w with
    sched := r.1
    expireds := keys
    handed := w.handed ++
      (r.2.map fun req =>
        { id := key, req := req, cause := .expired w.clock
          outstanding := w.isInFlight key : HandOut }).toList }

def step (w : Uring) : Action → Option Uring
  | .read req now => (w.sched.handleRead req now).map (w.submitted req now)
  | .write req now => (w.sched.handleWrite req now).map (w.submitted req now)
  | .complete i res =>
    w.inFlight[i]?.map fun sqe =>
      { w with
        inFlight := w.inFlight.eraseIdx i
        cq := w.cq ++ [{ user_data := sqe.user_data, res := res }]
        posted := w.posted ++ [{ user_data := sqe.user_data, res := res }] }
  | .reap =>
    match w.cq with
    | [] => none
    | cqe :: rest => some (w.reaped cqe rest)
  | .popExpired now =>
    -- the previous expiry loop has ended
    if w.expireds = [] then
      let popped := w.sched.timerQueue_.popExpired now
      some { w with
        sched := { w.sched with timerQueue_ := popped.1 }
        expireds := popped.2
        clock := now }
    else none
  | .expire =>
    match w.expireds with
    | [] => none
    | key :: keys => some (w.expiredKey key keys)

/-- The ids issued, in order. -/
def issued (w : Uring) : List ℕ := w.submissions.map Prod.fst

/-- The ids handed out, in order. -/
def handedIds (w : Uring) : List ℕ := w.handed.map HandOut.id

/-! ## What a step can do -/

/-- The action is a call of `handleRead` or `handleWrite`. -/
def Action.Submits : Action → Prop
  | .read _ _ | .write _ _ => True
  | _ => False

/-- The possible effects of an action. -/
inductive Effect (w : Uring) : Action → Uring → Prop where
  | submitted (a : Action) (ha : a.Submits) (req : IoRequest) (opcode : Opcode) (len now : ℕ) :
      Effect w a (w.submitted req now (w.sched.submit req opcode len now))
  | completed (i : ℕ) (sqe : Sqe) (res : ℤ) (h : w.inFlight[i]? = some sqe) :
      Effect w (.complete i res)
        { w with
          inFlight := w.inFlight.eraseIdx i
          cq := w.cq ++ [{ user_data := sqe.user_data, res := res }]
          posted := w.posted ++ [{ user_data := sqe.user_data, res := res }] }
  /-- an entry with `user_data == 0` is marked seen -/
  | skipped (cqe : Cqe) (rest : List Cqe) (h : w.cq = cqe :: rest) :
      Effect w .reap { w with cq := rest }
  /-- nothing changes: an entry or a key of a request that is no longer pending -/
  | ignored (a : Action) (keys : List ℕ) (h : keys ⊆ w.expireds) :
      Effect w a { w with expireds := keys }
  | reaped (cqe : Cqe) (rest : List Cqe) (req : IoRequest) (h : w.cq = cqe :: rest)
      (hreq : w.sched.ioIndex2req_.find cqe.user_data = some req) :
      Effect w .reap
        { w with
          sched :=
            { w.sched with
              ioIndex2req_ := w.sched.ioIndex2req_.erase cqe.user_data
              timerQueue_ :=
                if req.timeout > 0 then (w.sched.timerQueue_.remove cqe.user_data).1
                else w.sched.timerQueue_ }
          cq := rest
          handed := w.handed ++
            [{ id := cqe.user_data, req := { req with retCode := cqe.res }
               cause := .completed cqe.res, outstanding := w.isInFlight cqe.user_data }] }
  | popped (now : ℕ) :
      Effect w (.popExpired now)
        { w with
          sched := { w.sched with timerQueue_ := (w.sched.timerQueue_.popExpired now).1 }
          expireds := (w.sched.timerQueue_.popExpired now).2
          clock := now }
  | expired (key : ℕ) (keys : List ℕ) (req : IoRequest) (h : w.expireds = key :: keys)
      (hreq : w.sched.ioIndex2req_.find key = some req) :
      Effect w .expire
        { w with
          sched := { w.sched with ioIndex2req_ := w.sched.ioIndex2req_.erase key }
          expireds := keys
          handed := w.handed ++
            [{ id := key, req := { req with retCode := -1 }, cause := .expired w.clock
               outstanding := w.isInFlight key }] }

theorem effect_reaped (w : Uring) {cqe : Cqe} {rest : List Cqe} (h : w.cq = cqe :: rest) :
    Effect w .reap (w.reaped cqe rest) := by
  unfold reaped UringScheduler.loopTurn
  split
  · simpa using Effect.skipped cqe rest h
  · dsimp only
    split
    · simpa using Effect.ignored .reap w.expireds (List.Subset.refl _)
    · rename_i req hreq
      exact Effect.reaped cqe rest req h hreq

theorem effect_expiredKey (w : Uring) {key : ℕ} {keys : List ℕ} (h : w.expireds = key :: keys) :
    Effect w .expire (w.expiredKey key keys) := by
  unfold expiredKey UringScheduler.expireTurn
  split
  · simpa using Effect.ignored .expire keys (by rw [h]; exact List.subset_cons_self _ _)
  · rename_i req hreq
    exact Effect.expired key keys req h hreq

theorem effect_of_step {w v : Uring} {a : Action} (h : step w a = some v) : Effect w a v := by
  cases a with
  | read req now =>
    simp only [step, UringScheduler.handleRead] at h
    split at h <;> cases h
    exact Effect.submitted (.read req now) trivial req _ _ now
  | write req now =>
    simp only [step, UringScheduler.handleWrite] at h
    split at h <;> cases h
    exact Effect.submitted (.write req now) trivial req _ _ now
  | complete i res =>
    simp only [step, Option.map_eq_some_iff] at h
    obtain ⟨sqe, hsqe, rfl⟩ := h
    exact Effect.completed i sqe res hsqe
  | reap =>
    simp only [step] at h
    split at h <;> cases h
    exact effect_reaped w (by assumption)
  | popExpired now =>
    simp only [step] at h
    split at h <;> cases h
    exact Effect.popped now
  | expire =>
    simp only [step] at h
    split at h <;> cases h
    exact effect_expiredKey w (by assumption)

/-! ### The history only grows -/

theorem submissions_grow {w v : Uring} {a : Action} (h : Effect w a v) :
    w.submissions <+: v.submissions := by
  cases h with
  | submitted a ha req opcode len now => exact List.prefix_append _ _
  | _ => exact List.prefix_rfl

theorem handed_grow {w v : Uring} {a : Action} (h : Effect w a v) : w.handed <+: v.handed := by
  cases h with
  | reaped cqe rest req h hreq => exact List.prefix_append _ _
  | expired key keys req h hreq => exact List.prefix_append _ _
  | _ => exact List.prefix_rfl

/-- A hand-out is an old one, or the result of a completion entry or of a popped key. -/
theorem handed_cases {w v : Uring} {a : Action} {o : HandOut} (h : Effect w a v)
    (ho : o ∈ v.handed) :
    o ∈ w.handed ∨
    (∃ cqe rest req, a = .reap ∧ w.cq = cqe :: rest ∧
      w.sched.ioIndex2req_.find cqe.user_data = some req ∧
      o = { id := cqe.user_data, req := { req with retCode := cqe.res }
            cause := .completed cqe.res, outstanding := w.isInFlight cqe.user_data }) ∨
    ∃ key keys req, a = .expire ∧ w.expireds = key :: keys ∧
      w.sched.ioIndex2req_.find key = some req ∧
      o = { id := key, req := { req with retCode := -1 }, cause := .expired w.clock
            outstanding := w.isInFlight key } := by
  cases h with
  | reaped cqe rest req hcq hreq =>
    rcases List.mem_append.1 ho with ho | ho
    · exact Or.inl ho
    · exact Or.inr (Or.inl ⟨cqe, rest, req, rfl, hcq, hreq, List.mem_singleton.1 ho⟩)
  | expired key keys req hkeys hreq =>
    rcases List.mem_append.1 ho with ho | ho
    · exact Or.inl ho
    · exact Or.inr (Or.inr ⟨key, keys, req, rfl, hkeys, hreq, List.mem_singleton.1 ho⟩)
  | _ => exact Or.inl ho

theorem posted_grow {w v : Uring} {a : Action} (h : Effect w a v) : w.posted <+: v.posted := by
  cases h with
  | completed i sqe res h => exact List.prefix_append _ _
  | _ => exact List.prefix_rfl

theorem armed_grow {w v : Uring} {a : Action} (h : Effect w a v) : w.armed <+: v.armed := by
  cases h with
  | submitted a ha req opcode len now =>
    simp only [submitted]
    split
    · exact List.prefix_append _ _
    · exact List.prefix_rfl
  | _ => exact List.prefix_rfl

/-! ## The ids -/

/-- The ids issued are `1, 2, …`; each is pending or handed out, and not both. -/
structure Ids (w : Uring) : Prop where
  index : w.sched.ioIndex_ = uint64 (w.issued.length + 1)
  range : w.issued = List.range' 1 w.issued.length
  split : ∀ id, id ∈ w.issued ↔ w.sched.ioIndex2req_.HasKey id ∨ id ∈ w.handedIds
  disjoint : ∀ id, w.sched.ioIndex2req_.HasKey id → id ∉ w.handedIds
  nodup : w.handedIds.Nodup

theorem Ids.le_length {w : Uring} (h : Ids w) {id : ℕ} (hid : id ∈ w.issued) :
    1 ≤ id ∧ id ≤ w.issued.length := by
  rw [h.range, List.mem_range'_1] at hid
  omega

/-- The next id is new, as long as the counter has not come around. -/
theorem Ids.fresh {w : Uring} (h : Ids w) (hlt : w.issued.length < 2 ^ 64) :
    w.sched.ioIndex_ ∉ w.issued := by
  intro hmem
  have hle := h.le_length hmem
  rw [h.index, uint64] at hle
  rcases Nat.lt_or_ge (w.issued.length + 1) (2 ^ 64) with hsmall | hbig
  · rw [Nat.mod_eq_of_lt hsmall] at hle
    omega
  · have heq : w.issued.length + 1 = 2 ^ 64 := by omega
    rw [heq, Nat.mod_self] at hle
    omega

theorem Ids.submit {w : Uring} (h : Ids w) (hlt : w.issued.length + 1 < 2 ^ 64) (req : IoRequest)
    (opcode : Opcode) (len now : ℕ) :
    Ids (w.submitted req now (w.sched.submit req opcode len now)) := by
  have hid : w.sched.ioIndex_ = w.issued.length + 1 := by rw [h.index, uint64_of_lt hlt]
  have hnew : w.sched.ioIndex_ ∉ w.issued := h.fresh (by omega)
  have hissued : (w.submitted req now (w.sched.submit req opcode len now)).issued =
      w.issued ++ [w.sched.ioIndex_] := by
    simp [issued, submitted, UringScheduler.submit]
  have hkey : ∀ id,
      (w.submitted req now (w.sched.submit req opcode len now)).sched.ioIndex2req_.HasKey id ↔
        id = w.sched.ioIndex_ ∨ w.sched.ioIndex2req_.HasKey id :=
    fun id => SortedMap.hasKey_insert
  refine ⟨?_, ?_, fun id => ?_, fun id => ?_, h.nodup⟩
  · rw [hissued, List.length_append, List.length_singleton, ← hid]
    rfl
  · rw [hissued, List.length_append, List.length_singleton, List.range'_1_concat, ← h.range, hid,
      Nat.add_comm 1]
  · rw [hissued, List.mem_append, List.mem_singleton, hkey, h.split]
    exact ⟨fun hid => hid.elim (fun hid => hid.imp_left Or.inr) fun hid => Or.inl (Or.inl hid),
      fun hid => hid.elim (fun hid => hid.elim Or.inr fun hid => Or.inl (Or.inl hid))
        fun hid => Or.inl (Or.inr hid)⟩
  · rw [hkey]
    rintro (rfl | hid)
    · exact fun hmem => hnew ((h.split _).2 (Or.inr hmem))
    · exact h.disjoint id hid

/-- Moving one pending id to the ids handed out keeps the partition. -/
theorem Ids.handOut {w v : Uring} (h : Ids w) {id : ℕ} (hid : w.sched.ioIndex2req_.HasKey id)
    (hindex : v.sched.ioIndex_ = w.sched.ioIndex_) (hissued : v.issued = w.issued)
    (hmap : v.sched.ioIndex2req_ = w.sched.ioIndex2req_.erase id)
    (hhanded : v.handedIds = w.handedIds ++ [id]) : Ids v := by
  refine ⟨?_, ?_, fun id' => ?_, fun id' => ?_, ?_⟩
  · rw [hindex, hissued, h.index]
  · rw [hissued, ← h.range]
  · rw [hissued, hmap, hhanded, SortedMap.hasKey_erase, h.split, List.mem_append,
      List.mem_singleton]
    by_cases heq : id' = id
    · subst heq
      simp [hid]
    · simp [heq]
  · rw [hmap, hhanded, SortedMap.hasKey_erase, List.mem_append, List.mem_singleton]
    rintro ⟨hne, hkey⟩ (hmem | heq)
    · exact h.disjoint id' hkey hmem
    · exact hne heq
  · rw [hhanded, List.nodup_append]
    refine ⟨h.nodup, List.nodup_singleton id, fun a ha b hb => ?_⟩
    cases List.mem_singleton.1 hb
    rintro rfl
    exact h.disjoint _ hid ha

theorem Ids.step {w v : Uring} {a : Action} (h : Ids w) (hlt : v.submissions.length < 2 ^ 64)
    (hv : Effect w a v) : Ids v := by
  cases hv with
  | submitted a ha req opcode len now =>
    refine h.submit ?_ req opcode len now
    simpa [submitted, issued] using hlt
  | reaped cqe rest req hcq hreq =>
    exact h.handOut (SortedMap.hasKey_iff.2 ⟨req, hreq⟩) rfl rfl rfl (by simp [handedIds])
  | expired key keys req hkeys hreq =>
    exact h.handOut (SortedMap.hasKey_iff.2 ⟨req, hreq⟩) rfl rfl rfl (by simp [handedIds])
  | _ => exact ⟨h.index, h.range, h.split, h.disjoint, h.nodup⟩

/-! ## The timers -/

/-- Every entry of the timer queue and every popped key stems from a timer set for that id. -/
structure Timers (w : Uring) : Prop where
  wf : w.sched.timerQueue_.Wf
  own : ∀ t key, w.sched.timerQueue_.timeid2key_.find t = some key →
    ∃ d id, id < 2 ^ 32 ∧ t = TimerQueue.timeid d id ∧ (key, d) ∈ w.armed
  due : ∀ key ∈ w.expireds, ∃ d, (key, d) ∈ w.armed ∧ d % 2 ^ 32 ≤ w.clock % 2 ^ 32

/-- Setting the timer of the submitted request. -/
theorem Timers.submit {w : Uring} (h : Timers w) (req : IoRequest) (opcode : Opcode)
    (len now : ℕ) : Timers (w.submitted req now (w.sched.submit req opcode len now)) := by
  by_cases htimeout : req.timeout > 0
  · simp only [submitted, UringScheduler.submit, if_pos htimeout]
    refine ⟨TimerQueue.add_wf h.wf _ _, fun t key ht => ?_, fun key hkey => ?_⟩
    · rcases TimerQueue.find_add ht with hold | ⟨rfl, rfl⟩
      · obtain ⟨d, id, hid, heq, hmem⟩ := h.own t key hold
        exact ⟨d, id, hid, heq, List.mem_append_left _ hmem⟩
      · exact ⟨_, _, h.wf.index_lt, rfl, List.mem_append_right _ (List.mem_singleton.2 rfl)⟩
    · obtain ⟨d, hmem, hle⟩ := h.due key hkey
      exact ⟨d, List.mem_append_left _ hmem, hle⟩
  · simp only [submitted, UringScheduler.submit, if_neg htimeout]
    exact ⟨h.wf, h.own, h.due⟩

theorem Timers.step {w v : Uring} {a : Action} (h : Timers w) (hv : Effect w a v) : Timers v := by
  cases hv with
  | submitted a ha req opcode len now => exact h.submit req opcode len now
  | completed i sqe res hsqe => exact ⟨h.wf, h.own, h.due⟩
  | skipped cqe rest hcq => exact ⟨h.wf, h.own, h.due⟩
  | ignored a keys hkeys => exact ⟨h.wf, h.own, fun key hkey => h.due key (hkeys hkey)⟩
  | reaped cqe rest req hcq hreq =>
    split
    · exact ⟨TimerQueue.remove_wf h.wf _,
        fun t key ht => h.own t key (TimerQueue.find_remove ht), h.due⟩
    · exact ⟨h.wf, h.own, h.due⟩
  | popped now =>
    refine ⟨TimerQueue.popExpired_wf h.wf now,
      fun t key ht => h.own t key (TimerQueue.find_popExpired.1 ht).1, fun key hkey => ?_⟩
    obtain ⟨t, ht, hle⟩ := TimerQueue.mem_popExpired.1 hkey
    obtain ⟨d, id, hid, rfl, hmem⟩ := h.own t key ht
    exact ⟨d, hmem, (TimerQueue.timeid_le_flag_iff hid d now).1 hle⟩
  | expired key keys req hkeys hreq =>
    exact ⟨h.wf, h.own, fun key' hkey' => h.due key' (hkeys ▸ List.mem_cons_of_mem _ hkey')⟩

/-! ## What the hand-outs report -/

/-- Pending requests, operations in flight and unseen entries stem from submissions. -/
structure Sources (w : Uring) : Prop where
  pending : ∀ id req, w.sched.ioIndex2req_.find id = some req → (id, req) ∈ w.submissions
  inFlight : ∀ sqe ∈ w.inFlight, sqe.user_data ∈ w.issued
  unseen : ∀ cqe ∈ w.cq, cqe ∈ w.posted ∧ cqe.user_data ∈ w.issued

theorem Sources.submit {w : Uring} (h : Sources w) (req : IoRequest) (opcode : Opcode)
    (len now : ℕ) : Sources (w.submitted req now (w.sched.submit req opcode len now)) := by
  have hissued : ∀ id ∈ w.issued,
      id ∈ (w.submitted req now (w.sched.submit req opcode len now)).issued := fun id hid => by
    simp only [issued, submitted, List.map_append]
    exact List.mem_append_left _ hid
  refine ⟨fun id req' hfind => ?_, fun sqe hsqe => ?_,
    fun cqe hcqe => ⟨(h.unseen cqe hcqe).1, hissued _ (h.unseen cqe hcqe).2⟩⟩
  · simp only [submitted, UringScheduler.submit, SortedMap.find_insert] at hfind
    split at hfind
    · rename_i hid
      cases hfind
      exact List.mem_append_right _ (by simp [UringScheduler.submit, hid.1])
    · exact List.mem_append_left _ (h.pending id req' hfind)
  · rcases List.mem_append.1 hsqe with hsqe | hsqe
    · exact hissued _ (h.inFlight sqe hsqe)
    · cases List.mem_singleton.1 hsqe
      simp [issued, submitted]

/-- Forgetting a pending request and an unseen entry keeps the sources of the others. -/
theorem Sources.erase {w : Uring} (h : Sources w) (id : ℕ) {id' : ℕ} {req : IoRequest}
    (hfind : (w.sched.ioIndex2req_.erase id).find id' = some req) : (id', req) ∈ w.submissions := by
  rw [SortedMap.find_erase] at hfind
  split at hfind
  · cases hfind
  · exact h.pending id' req hfind

theorem Sources.step {w v : Uring} {a : Action} (h : Sources w) (hv : Effect w a v) :
    Sources v := by
  cases hv with
  | submitted a ha req opcode len now => exact h.submit req opcode len now
  | completed i sqe res hsqe =>
    refine ⟨h.pending, fun s hs => h.inFlight s (List.mem_of_mem_eraseIdx hs), fun cqe hmem => ?_⟩
    rcases List.mem_append.1 hmem with hmem | hmem
    · exact ⟨List.mem_append_left _ (h.unseen cqe hmem).1, (h.unseen cqe hmem).2⟩
    · cases List.mem_singleton.1 hmem
      exact ⟨List.mem_append_right _ hmem, h.inFlight sqe (List.mem_of_getElem? hsqe)⟩
  | skipped cqe rest hcq =>
    exact ⟨h.pending, h.inFlight, fun c hc => h.unseen c (hcq ▸ List.mem_cons_of_mem _ hc)⟩
  | ignored a keys hkeys => exact ⟨h.pending, h.inFlight, h.unseen⟩
  | reaped cqe rest req hcq hreq =>
    exact ⟨fun _ _ => h.erase cqe.user_data, h.inFlight,
      fun c hc => h.unseen c (by rw [hcq]; exact List.mem_cons_of_mem _ hc)⟩
  | popped now => exact ⟨h.pending, h.inFlight, h.unseen⟩
  | expired key keys req hkeys hreq => exact ⟨fun _ _ => h.erase key, h.inFlight, h.unseen⟩

/-- The request handed out is the one submitted under its id, and its `retCode` is the `res` of an
entry posted for that id, or `-1` after a timer set for that id was popped. -/
def Justified (w : Uring) (o : HandOut) : Prop :=
  match o.cause with
  | .completed res =>
    { user_data := o.id, res := res } ∈ w.posted ∧
      ∃ req, (o.id, req) ∈ w.submissions ∧ o.req = { req with retCode := res }
  | .expired now =>
    (∃ d, (o.id, d) ∈ w.armed ∧ d % 2 ^ 32 ≤ now % 2 ^ 32) ∧
      ∃ req, (o.id, req) ∈ w.submissions ∧ o.req = { req with retCode := -1 }

/-- A justification is not lost. -/
theorem Justified.mono {w v : Uring} {a : Action} {o : HandOut} (h : Justified w o)
    (hv : Effect w a v) : Justified v o := by
  have hsub := (submissions_grow hv).subset
  unfold Justified at h ⊢
  split at h
  · obtain ⟨hposted, req, hreq, heq⟩ := h
    exact ⟨(posted_grow hv).subset hposted, req, hsub hreq, heq⟩
  · obtain ⟨⟨d, hd, hle⟩, req, hreq, heq⟩ := h
    exact ⟨⟨d, (armed_grow hv).subset hd, hle⟩, req, hsub hreq, heq⟩

/-- What a step hands out is justified. -/
theorem justified_step {w v : Uring} {a : Action} (htimers : Timers w) (hsources : Sources w)
    (h : ∀ o ∈ w.handed, Justified w o) (hv : Effect w a v) : ∀ o ∈ v.handed, Justified v o := by
  intro o ho
  rcases handed_cases hv ho with
    hold | ⟨cqe, rest, req, -, hcq, hreq, rfl⟩ | ⟨key, keys, req, -, hkeys, hreq, rfl⟩
  · exact (h o hold).mono hv
  · refine Justified.mono ?_ hv
    exact ⟨(hsources.unseen cqe (by rw [hcq]; exact List.mem_cons_self)).1, req,
      hsources.pending _ _ hreq, rfl⟩
  · refine Justified.mono ?_ hv
    exact ⟨htimers.due key (by rw [hkeys]; exact List.mem_cons_self), req,
      hsources.pending _ _ hreq, rfl⟩

/-! ## Every request's own result, at most once -/

structure Inv (w : Uring) : Prop where
  ids : Ids w
  timers : Timers w
  sources : Sources w
  justified : ∀ o ∈ w.handed, Justified w o

theorem inv_new : Inv new where
  ids := ⟨rfl, rfl, by simp [new, issued, handedIds, UringScheduler.new, SortedMap.HasKey],
    by simp [new, handedIds], by simp [new, handedIds]⟩
  timers := ⟨TimerQueue.wf_empty, by simp [new, UringScheduler.new, TimerQueue.empty],
    by simp [new]⟩
  sources := ⟨by simp [new, UringScheduler.new], by simp [new], by simp [new]⟩
  justified := by simp [new]

theorem inv_step {w v : Uring} {a : Action} (h : Inv w) (hlt : v.submissions.length < 2 ^ 64)
    (hv : Effect w a v) : Inv v where
  ids := h.ids.step hlt hv
  timers := h.timers.step hv
  sources := h.sources.step hv
  justified := justified_step h.timers h.sources h.justified hv

theorem inv_run {as : List Action} {w : Uring} (hrun : run step new as = some w)
    (hlt : w.submissions.length < 2 ^ 64) : Inv w := by
  refine run_invariant (I := fun v => v.submissions.length < 2 ^ 64 → Inv v) ?_ (fun _ => inv_new)
    hrun hlt
  intro v a u hv hstep hlt
  have heffect := effect_of_step hstep
  have hle : v.submissions.length ≤ u.submissions.length := (submissions_grow heffect).length_le
  exact inv_step (hv (by omega)) hlt heffect

/-- In every run with fewer than `2 ^ 64` requests the ids issued are distinct and are the disjoint
union of the ids pending and the ids handed out, no id is handed out twice, and every hand-out
reports the result of its own request. -/
theorem delivers_own_result_once {as : List Action} {w : Uring} (hrun : run step new as = some w)
    (hlt : w.submissions.length < 2 ^ 64) :
    w.issued.Nodup ∧
    (∀ id, id ∈ w.issued ↔ w.sched.ioIndex2req_.HasKey id ∨ id ∈ w.handedIds) ∧
    (∀ id, w.sched.ioIndex2req_.HasKey id → id ∉ w.handedIds) ∧
    w.handedIds.Nodup ∧ ∀ o ∈ w.handed, Justified w o := by
  have h := inv_run hrun hlt
  refine ⟨?_, h.ids.split, h.ids.disjoint, h.ids.nodup, h.justified⟩
  rw [h.ids.range]
  exact List.nodup_range' 1

/-- Two requests race for their timers: the first is completed in time, the second is not. -/
theorem delivers_own_result_once_race :
    ∃ w, run step new
        [.read { capicaty := 8, fd := 3, context := 100, op := .OP_READ, timeout := 10 } 0,
          .write { size := 1, fd := 4, context := 200, op := .OP_WRITE, timeout := 10 } 0,
          .complete 0 5, .reap, .popExpired 20, .expire, .complete 0 1, .reap] = some w ∧
      w.submissions.length < 2 ^ 64 ∧ w.issued = [1, 2] ∧ w.handedIds = [1, 2] ∧
      w.handedIds.Nodup ∧ ∀ o ∈ w.handed, Justified w o := by
  refine ⟨_, rfl, by decide, by decide, by decide, ?_⟩
  have hrun : run step new
      [.read { capicaty := 8, fd := 3, context := 100, op := .OP_READ, timeout := 10 } 0,
        .write { size := 1, fd := 4, context := 200, op := .OP_WRITE, timeout := 10 } 0,
        .complete 0 5, .reap, .popExpired 20, .expire, .complete 0 1, .reap] = some _ := rfl
  exact (delivers_own_result_once hrun (by decide)).2.2.2

/-! ## Hand-outs while the operation is in flight -/

theorem isInFlight_iff {w : Uring} {id : ℕ} :
    w.isInFlight id = true ↔ id ∈ w.inFlight.map Sqe.user_data := by
  simp [isInFlight, List.any_eq_true]

/-- No two operations in flight carry the same id, and an id with an unseen entry is not in
flight. -/
structure KernelDone (w : Uring) : Prop where
  nodup : (w.inFlight.map Sqe.user_data).Nodup
  unseen : ∀ cqe ∈ w.cq, cqe.user_data ∉ w.inFlight.map Sqe.user_data

/-- A call of `handleRead` or `handleWrite` issues an id that no operation in flight and no unseen
entry carries. -/
def FreshId (w : Uring) (a : Action) : Prop :=
  a.Submits → w.sched.ioIndex_ ∉ w.inFlight.map Sqe.user_data ∧
    ∀ cqe ∈ w.cq, cqe.user_data ≠ w.sched.ioIndex_

/-- When the expiry loop finds its key pending, the operation of that request has completed. -/
def ExpiryCompleted (w : Uring) (a : Action) : Prop :=
  a = .expire → ∀ key ∈ w.expireds.head?, w.sched.ioIndex2req_.HasKey key →
    key ∉ w.inFlight.map Sqe.user_data

theorem kernelDone_new : KernelDone new := ⟨List.nodup_nil, by simp [new]⟩

theorem KernelDone.step {w v : Uring} {a : Action} (h : KernelDone w) (hfresh : FreshId w a)
    (hv : Effect w a v) : KernelDone v := by
  cases hv with
  | submitted a ha req opcode len now =>
    obtain ⟨hinFlight, hcq⟩ := hfresh ha
    have hids : (w.submitted req now (w.sched.submit req opcode len now)).inFlight.map
        Sqe.user_data = w.inFlight.map Sqe.user_data ++ [w.sched.ioIndex_] := by
      simp [submitted, UringScheduler.submit]
    refine ⟨?_, fun cqe hmem => ?_⟩
    · rw [hids]
      exact List.nodup_append.2 ⟨h.nodup, List.nodup_singleton _, fun id hid id' hid' => by
        cases List.mem_singleton.1 hid'
        exact fun heq => hinFlight (heq ▸ hid)⟩
    · rw [hids, List.mem_append, List.mem_singleton]
      exact not_or.2 ⟨h.unseen cqe hmem, hcq cqe hmem⟩
  | completed i sqe res hsqe =>
    have hids : (w.inFlight.eraseIdx i).map Sqe.user_data =
        (w.inFlight.map Sqe.user_data).eraseIdx i := (List.eraseIdx_map _ _ _).symm
    have hgone : sqe.user_data ∉ (w.inFlight.map Sqe.user_data).eraseIdx i := by
      have hget : (w.inFlight.map Sqe.user_data)[i]? = some sqe.user_data := by
        rw [List.getElem?_map, hsqe]
        rfl
      obtain ⟨hlt, heq⟩ := List.getElem?_eq_some_iff.1 hget
      rw [← heq, ← h.nodup.erase_getElem]
      exact h.nodup.not_mem_erase
    refine ⟨?_, fun cqe hmem => ?_⟩
    · rw [hids]
      exact h.nodup.sublist (List.eraseIdx_sublist _ _)
    · rw [hids]
      rcases List.mem_append.1 hmem with hmem | hmem
      · exact fun hin => h.unseen cqe hmem (List.mem_of_mem_eraseIdx hin)
      · cases List.mem_singleton.1 hmem
        exact hgone
  | skipped cqe rest hcq =>
    exact ⟨h.nodup, fun c hc => h.unseen c (by rw [hcq]; exact List.mem_cons_of_mem _ hc)⟩
  | reaped cqe rest req hcq hreq =>
    exact ⟨h.nodup, fun c hc => h.unseen c (by rw [hcq]; exact List.mem_cons_of_mem _ hc)⟩
  | _ => exact ⟨h.nodup, h.unseen⟩

/-- The completion branch hands out no operation in flight, the expiry branch none when
`ExpiryCompleted` holds. -/
theorem outstanding_step {w v : Uring} {a : Action} (h : KernelDone w)
    (hexpiry : ExpiryCompleted w a)
    (hsafe : ∀ o ∈ w.handed, o.outstanding = false) (hv : Effect w a v) :
    ∀ o ∈ v.handed, o.outstanding = false := by
  intro o ho
  rcases handed_cases hv ho with
    hold | ⟨cqe, rest, req, -, hcq, -, rfl⟩ | ⟨key, keys, req, rfl, hkeys, hreq, rfl⟩
  · exact hsafe o hold
  · rw [← Bool.not_eq_true, isInFlight_iff]
    exact h.unseen cqe (by rw [hcq]; exact List.mem_cons_self)
  · rw [← Bool.not_eq_true, isInFlight_iff]
    exact hexpiry rfl key (by rw [hkeys]; rfl) (SortedMap.hasKey_iff.2 ⟨req, hreq⟩)

/-- A turn of the expiry loop outside `ExpiryCompleted` hands out an operation in flight. -/
theorem outstanding_of_not_expiryCompleted {w v : Uring} {a : Action} (h : ¬ ExpiryCompleted w a)
    (hv : step w a = some v) : ∃ o ∈ v.handed, o.outstanding = true := by
  unfold ExpiryCompleted at h
  push Not at h
  obtain ⟨rfl, key, hkey, hpending, hinFlight⟩ := h
  obtain ⟨req, hreq⟩ := SortedMap.hasKey_iff.1 hpending
  obtain ⟨keys, hkeys⟩ : ∃ keys, w.expireds = key :: keys := by
    cases hw : w.expireds with
    | nil => simp [hw] at hkey
    | cons key' keys => exact ⟨keys, by simpa [hw] using hkey⟩
  simp only [step, hkeys, Option.some.injEq] at hv
  subst hv
  refine ⟨{ id := key, req := { req with retCode := -1 }, cause := .expired w.clock
            outstanding := w.isInFlight key }, ?_, isInFlight_iff.2 hinFlight⟩
  simp [expiredKey, UringScheduler.expireTurn, hreq]

/-- With fewer than `2 ^ 64` requests every id is fresh when it is issued. -/
theorem always_freshId {as : List Action} {w : Uring} (hrun : run step new as = some w)
    (hlt : w.submissions.length < 2 ^ 64) : Always step FreshId new as := by
  refine always_of_lt (I := Inv) (fun _ _ _ hv => (submissions_grow (effect_of_step hv)).length_le)
    (fun _ _ _ hu hv hlt => inv_step hu hlt (effect_of_step hv)) ?_ inv_new hrun hlt
  intro u a hu hlt
  have hnew : u.sched.ioIndex_ ∉ u.issued :=
    hu.ids.fresh (by simp only [issued, List.length_map]; omega)
  refine fun _ => ⟨fun hmem => ?_, fun cqe hcqe heq => ?_⟩
  · obtain ⟨sqe, hsqe, heq⟩ := List.mem_map.1 hmem
    exact hnew (heq ▸ hu.sources.inFlight sqe hsqe)
  · exact hnew (heq ▸ (hu.sources.unseen cqe hcqe).2)

/-- A run whose expiries find only completed operations hands out no operation in flight, and no
other run does; reuse of an id that is still in flight needs `2 ^ 64` requests. -/
theorem handed_not_outstanding_iff {as : List Action} {w : Uring}
    (hrun : run step new as = some w) :
    (Always step (fun u a => FreshId u a ∧ ExpiryCompleted u a) new as →
      ∀ o ∈ w.handed, o.outstanding = false) ∧
    ((∀ o ∈ w.handed, o.outstanding = false) → Always step ExpiryCompleted new as) ∧
    (w.submissions.length < 2 ^ 64 → Always step FreshId new as) := by
  refine ⟨fun hP => ?_, fun hsafe => ?_, always_freshId hrun⟩
  · refine (run_invariant_of_always
      (I := fun u => KernelDone u ∧ ∀ o ∈ u.handed, o.outstanding = false) ?_
      ⟨kernelDone_new, by simp [new]⟩ hP hrun).2
    intro u a v ⟨hdone, hsafe⟩ hstep hv
    have heffect := effect_of_step hv
    exact ⟨hdone.step hstep.1 heffect, outstanding_step hdone hstep.2 hsafe heffect⟩
  · refine always_of_run (I := fun _ => True) (B := fun u => ∃ o ∈ u.handed, o.outstanding = true)
      (fun _ _ _ _ _ => trivial) (fun u a v _ hP hv => outstanding_of_not_expiryCompleted hP hv)
      ?_ trivial hrun ?_
    · rintro u a v ⟨o, ho, hout⟩ hv
      exact ⟨o, (handed_grow (effect_of_step hv)).subset ho, hout⟩
    · rintro ⟨o, ho, hout⟩
      simp [hsafe o ho] at hout

theorem handed_not_outstanding_iff_expired_in_time :
    ∃ w, run step new
        [.read { capicaty := 8, fd := 3, context := 100, op := .OP_READ, timeout := 10 } 0,
          .popExpired 20, .complete 0 5, .expire] = some w ∧
      Always step ExpiryCompleted new
        [.read { capicaty := 8, fd := 3, context := 100, op := .OP_READ, timeout := 10 } 0,
          .popExpired 20, .complete 0 5, .expire] ∧
      w.handed.length = 1 := by
  refine ⟨_, rfl, ?_, by decide⟩
  have hrun : run step new
      [.read { capicaty := 8, fd := 3, context := 100, op := .OP_READ, timeout := 10 } 0,
        .popExpired 20, .complete 0 5, .expire] = some _ := rfl
  exact (handed_not_outstanding_iff hrun).2.1 (by decide)

/-- A read that times out is handed out while the kernel may still write into its buffer. -/
theorem expired_read_still_in_flight :
    ∃ w, run step new
        [.read { capicaty := 8, fd := 3, context := 100, op := .OP_READ, timeout := 10 } 0,
          .popExpired 20, .expire] = some w ∧
      ∃ o ∈ w.handed, o.outstanding = true := by
  refine ⟨_, rfl, _, List.mem_singleton.2 rfl, by decide⟩

end Uring

end CoUringWeb
