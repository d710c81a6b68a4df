import CoUringWeb.Core.EpollRuns

/-!
# The writes of `EpollScheduler`

Every answer of `write` with a positive count is a `Segment` of the history `sent`.  `Written` says
how the history, the pending requests and the queued ones belong together: the segments of a
request follow each other from offset 0, a pending request has the number of accepted bytes in
`retCode`, and a queued one has there `size`, `0` or `-1`, with `size` exactly when all bytes were
accepted.

The operations keep it as long as the answers stay within `Action.Handled`.  Outside of it the
`EPOLLOUT` branch of `poll` asserts that a write after a partial one fails, an expired request is
written from offset `-1`, a failing `epoll_ctl` leaves the count of a partial write as the result,
and `retCode` overflows.
-/

namespace CoUringWeb

open Machine Transition

/-! ## Segments -/

namespace Segment

/-- The bytes of the buffer `data` that the kernel took. -/
def bytes (data : Bytes) (g : Segment) : Bytes := (data.drop g.offset.toNat).take g.count

def total (gs : List Segment) : ℕ := (gs.map count).sum

/-- The first segment starts at `offset`, each other one where the one before it ends. -/
def Consecutive : ℤ → List Segment → Prop
  | _, [] => True
  | offset, g :: gs => g.offset = offset ∧ Consecutive (offset + g.count) gs

/-- The segments of one request. -/
def ofRequest (sent : List Segment) (number : ℕ) : List Segment :=
  sent.filter fun g => g.number = number

theorem total_append (gs hs : List Segment) : total (gs ++ hs) = total gs + total hs := by
  simp [total]

theorem Consecutive.append {offset : ℤ} {gs hs : List Segment} (h : Consecutive offset gs)
    (h' : Consecutive (offset + total gs) hs) : Consecutive offset (gs ++ hs) := by
  induction gs generalizing offset with
  | nil => simpa [total] using h'
  | cons g gs ih =>
    refine ⟨h.1, ih h.2 ?_⟩
    simpa [total, add_assoc] using h'

/-- Consecutive segments make up one window of the buffer. -/
theorem Consecutive.flatMap_bytes {offset : ℕ} {gs : List Segment} (h : Consecutive offset gs)
    (data : Bytes) : gs.flatMap (bytes data) = (data.drop offset).take (total gs) := by
  induction gs generalizing offset with
  | nil => simp [total]
  | cons g gs ih =>
    have htail : Consecutive ((offset + g.count : ℕ) : ℤ) gs := by simpa using h.2
    have htotal : total (g :: gs) = g.count + total gs := by simp [total]
    rw [List.flatMap_cons, ih htail, bytes, h.1, htotal, List.take_add, List.drop_drop]
    rfl

theorem ofRequest_append_of_ne {sent gs : List Segment} {number : ℕ}
    (h : ∀ g ∈ gs, g.number ≠ number) : ofRequest (sent ++ gs) number = ofRequest sent number := by
  have hnone : gs.filter (fun g => g.number = number) = [] := by
    simpa [List.filter_eq_nil_iff] using h
  simp [ofRequest, hnone]

theorem ofRequest_append_of_eq {sent gs : List Segment} {number : ℕ}
    (h : ∀ g ∈ gs, g.number = number) :
    ofRequest (sent ++ gs) number = ofRequest sent number ++ gs := by
  have hall : gs.filter (fun g => g.number = number) = gs := by
    simpa [List.filter_eq_self] using h
  simp [ofRequest, hall]

theorem ofRequest_of_lt {sent : List Segment} {n : ℕ} (h : ∀ g ∈ sent, g.number < n) :
    ofRequest sent n = [] := by
  simpa [ofRequest, List.filter_eq_nil_iff] using fun g hg => (h g hg).ne

end Segment

/-- The bytes that were moved. -/
def IoResult.bytes : IoResult → ℕ
  | .count n => n
  | _ => 0

/-- An event is reported for a registration that asked for it. -/
def Event.AskedBy (e : Event) (g : Registration) : Prop :=
  g.data = e.data ∧ (e.epollin = true → g.events = .EPOLLIN) ∧
    (e.epollout = true → g.events = .EPOLLOUT)

namespace EpollScheduler

/-! ## The answers of `write` -/

/-- The kernel never takes more than it is offered. -/
def Fit : ℕ → List IoResult → Prop
  | remaining, .count n :: results =>
    n ≤ remaining ∧ (0 < n → n < remaining → Fit (remaining - n) results)
  | _, _ => True

/-- With `accepted` bytes so far, `retCode` does not overflow, and `epoll_ctl` succeeds after a
partial write. -/
def Handled (size : ℕ) (add : Bool) : ℕ → List IoResult → Prop
  | accepted, .count n :: results =>
    accepted + n < 2 ^ 31 ∧ (0 < n → accepted + n < size → Handled size add (accepted + n) results)
  | accepted, .eagain :: _ => accepted = 0 ∨ add = true
  | _, _ => True

instance decidableFit : ∀ remaining results, Decidable (Fit remaining results)
  | _, [] => .isTrue trivial
  | _, .error :: _ => .isTrue trivial
  | _, .eagain :: _ => .isTrue trivial
  | remaining, .count n :: results =>
    have := decidableFit (remaining - n) results
    inferInstanceAs (Decidable (n ≤ remaining ∧ (0 < n → n < remaining → _)))

instance decidableHandled (size : ℕ) (add : Bool) :
    ∀ accepted results, Decidable (Handled size add accepted results)
  | _, [] => .isTrue trivial
  | _, .error :: _ => .isTrue trivial
  | accepted, .eagain :: _ => inferInstanceAs (Decidable (accepted = 0 ∨ add = true))
  | accepted, .count n :: results =>
    have := decidableHandled size add (accepted + n) results
    inferInstanceAs (Decidable (accepted + n < 2 ^ 31 ∧ (0 < n → accepted + n < size → _)))

/-- What the end of the writes says after `total` accepted bytes. -/
inductive WriteEnd.Tells (size : ℕ) (add : Bool) : ℕ → WriteEnd → Prop where
  | all : Tells size add size (.completed size)
  | closed {total : ℕ} (h : total < size) : Tells size add total (.completed 0)
  | error {total : ℕ} (h : total < size) : Tells size add total (.completed (-1))
  | blocked {total : ℕ} (h : total < size) (hadd : total = 0 ∨ add = true) :
      Tells size add total (.uncompleted total)

/-- The writes from offset `accepted` on, and their end. -/
structure Outcome (p : ReqPtr) (add : Bool) (accepted : ℕ) (r : List Segment × WriteEnd) :
    Prop where
  number : ∀ g ∈ r.1, g.number = p.number
  consecutive : Segment.Consecutive accepted r.1
  tells : r.2.Tells p.req.size add (accepted + Segment.total r.1)

variable {p : ReqPtr} {add : Bool} {results : List IoResult} {accepted : ℕ}

theorem Outcome.ends {e : WriteEnd} (h : e.Tells p.req.size add accepted) :
    Outcome p add accepted ([], e) :=
  ⟨by simp, trivial, by simpa [Segment.total] using h⟩

/-- One accepted count in front of an outcome. -/
theorem Outcome.cons {k : ℕ} {r : List Segment × WriteEnd} (h : Outcome p add (accepted + k) r) :
    Outcome p add accepted
      ({ number := p.number, offset := accepted, count := k } :: r.1, r.2) := by
  refine ⟨?_, ⟨rfl, by simpa using h.consecutive⟩, ?_⟩
  · simpa using h.number
  · simpa [Segment.total, add_assoc] using h.tells

/-- The whole rest was accepted. -/
theorem Outcome.all {k : ℕ} (h : p.req.size = accepted + k) :
    Outcome p add accepted
      ([{ number := p.number, offset := accepted, count := k }],
        .completed ((accepted + k : ℕ) : ℤ)) := by
  have hends : Outcome p add (accepted + k) ([], .completed ((accepted + k : ℕ) : ℤ)) :=
    Outcome.ends (h ▸ .all)
  exact hends.cons

/-- A turn of the loop, below the overflow of `retCode`. -/
theorem writeLoop_count {k : ℕ} (hpos : 0 < k) (hlt : accepted + k < 2 ^ 31) :
    writeLoop p accepted (.count k :: results) =
      let segment : Segment := { number := p.number, offset := accepted, count := k }
      if accepted + k = p.req.size then some ([segment], .completed ((accepted + k : ℕ) : ℤ))
      else (writeLoop p ((accepted + k : ℕ) : ℤ) results).map fun r => (segment :: r.1, r.2) := by
  obtain ⟨n, rfl⟩ := Nat.exists_eq_succ_of_ne_zero hpos.ne'
  have hcode : int32 (accepted + ((n : ℤ) + 1)) = ((accepted + n.succ : ℕ) : ℤ) := by
    exact_mod_cast int32_of_lt hlt
  have hword : accepted + n.succ < 2 ^ 32 := by omega
  simp only [writeLoop, hcode, ofInt32_natCast hword]

theorem writeLoop_outcome {r : List Segment × WriteEnd} (haccepted : accepted < p.req.size)
    (hfit : Fit (p.req.size - accepted) results)
    (hhandled : Handled p.req.size add accepted results)
    (hr : writeLoop p accepted results = some r) : Outcome p add accepted r := by
  induction results generalizing accepted r with
  | nil => cases hr
  | cons result results ih =>
    cases result with
    | error =>
      cases hr
      exact Outcome.ends (.error haccepted)
    | eagain =>
      cases hr
      exact Outcome.ends (.blocked haccepted hhandled)
    | count k =>
      obtain ⟨hle, hfit⟩ := hfit
      obtain ⟨hlt, hhandled⟩ := hhandled
      rcases Nat.eq_zero_or_pos k with rfl | hpos
      · cases hr
        exact Outcome.ends (.closed haccepted)
      · rw [writeLoop_count hpos hlt] at hr
        dsimp only at hr
        split at hr
        · rename_i hall
          cases hr
          exact Outcome.all hall.symm
        · rename_i hpart
          obtain ⟨t, ht, rfl⟩ := Option.map_eq_some_iff.1 hr
          have hmore : accepted + k < p.req.size := by omega
          have hfit' : Fit (p.req.size - (accepted + k)) results := by
            rw [← Nat.sub_sub]
            exact hfit hpos (by omega)
          exact (ih hmore hfit' (hhandled hpos hmore) ht).cons

/-- The first write and the loop end alike; only the comparison with `size` is spelled
differently. -/
theorem writes_eq_writeLoop (hlt : ∀ k ∈ results.head?, k.bytes < 2 ^ 31) :
    writes p results = writeLoop p 0 results := by
  cases results with
  | nil => rfl
  | cons result results =>
    cases result with
    | error => rfl
    | eagain => rfl
    | count n =>
      cases n with
      | zero => rfl
      | succ n =>
        have hlt : 0 + n.succ < 2 ^ 31 := by simpa [IoResult.bytes] using hlt
        have hturn := @writeLoop_count p results _ _ n.succ_pos hlt
        rw [Nat.cast_zero] at hturn
        rw [hturn]
        simp [writes, eq_comm]

theorem writes_outcome {r : List Segment × WriteEnd} (hpos : 0 < p.req.size)
    (hfit : Fit p.req.size results)
    (hhandled : Handled p.req.size add 0 results) (hr : writes p results = some r) :
    Outcome p add 0 r := by
  have hfirst : ∀ k ∈ results.head?, k.bytes < 2 ^ 31 := by
    intro k hk
    obtain ⟨rest, rfl⟩ := List.head?_eq_some_iff.1 hk
    cases k with
    | count k => simpa [IoResult.bytes] using hhandled.1
    | _ => simp [IoResult.bytes]
  rw [writes_eq_writeLoop hfirst] at hr
  exact writeLoop_outcome hpos hfit hhandled hr

/-! ## The history and the requests -/

/-- The segments of the request follow each other and add up to `total` bytes. -/
structure Sent (sent : List Segment) (number total : ℕ) : Prop where
  consecutive : Segment.Consecutive 0 (Segment.ofRequest sent number)
  total_eq : Segment.total (Segment.ofRequest sent number) = total

theorem Sent.append_of_ne {sent gs : List Segment} {number total : ℕ} (h : Sent sent number total)
    (hne : ∀ g ∈ gs, g.number ≠ number) : Sent (sent ++ gs) number total := by
  have hsame : Segment.ofRequest (sent ++ gs) number = Segment.ofRequest sent number :=
    Segment.ofRequest_append_of_ne hne
  exact ⟨hsame ▸ h.consecutive, hsame ▸ h.total_eq⟩

theorem Sent.append_of_eq {sent gs : List Segment} {number total : ℕ} (h : Sent sent number total)
    (heq : ∀ g ∈ gs, g.number = number) (hgs : Segment.Consecutive total gs) :
    Sent (sent ++ gs) number (total + Segment.total gs) := by
  refine ⟨?_, ?_⟩ <;> rw [Segment.ofRequest_append_of_eq heq]
  · refine h.consecutive.append ?_
    simpa [h.total_eq] using hgs
  · rw [Segment.total_append, h.total_eq]

/-- A pending write: `retCode` counts the accepted bytes, and there are more to come. -/
def Counts (sent : List Segment) (p : ReqPtr) : Prop :=
  ∃ total : ℕ, Sent sent p.number total ∧ p.req.retCode = total ∧ total < p.req.size

/-- A write that was pushed: `retCode` is `size` when all bytes were accepted and `0` or `-1`
otherwise. -/
def Reports (sent : List Segment) (q : Queued) : Prop :=
  ∃ total : ℕ, Sent sent q.number total ∧
    ((q.req.retCode = q.req.size ∧ total = q.req.size) ∨
      ((q.req.retCode = 0 ∨ q.req.retCode = -1) ∧ total < q.req.size))

/-- The write `p` under `id`.  After its context was pushed, `id` is not registered or `retCode`
tells that it expired. -/
structure Underway (sent : List Segment) (pushed reportable : List ℕ) (id : ℕ) (p : ReqPtr) : Prop
    where
  size_lt : p.req.size < 2 ^ 32
  partly : ∃ total, Sent sent p.number total ∧ total < p.req.size
  counts : p.number ∉ pushed → Counts sent p
  pushed_over : p.number ∈ pushed → p.req.retCode = -1 ∨ id ∉ reportable

/-- `m` remembers some of the first `n` requests, `sent` and `queued` are the history, and `asked`
is the epoll set. -/
structure Written (m : SortedMap ℕ ReqPtr) (n : ℕ) (sent : List Segment) (queued : List Queued)
    (asked : List Registration) : Prop where
  number_lt : ∀ id p, m.find id = some p → p.number < n
  injective : ∀ id id' p p', m.find id = some p → m.find id' = some p' →
    p.number = p'.number → id = id'
  sent_lt : ∀ g ∈ sent, g.number < n
  queued_lt : ∀ q ∈ queued, q.number < n
  asked_op : ∀ g ∈ asked, ∀ p, m.find g.data = some p →
    (g.events = .EPOLLOUT ↔ p.req.op = .OP_WRITE)
  underway : ∀ id p, m.find id = some p → p.req.op = .OP_WRITE →
    Underway sent (queued.map Queued.number) (asked.map Registration.data) id p
  reports : ∀ q ∈ queued, q.req.op = .OP_WRITE → Reports sent q

theorem written_empty : Written ∅ 0 [] [] [] where
  number_lt id p h := by simp at h
  injective id id' p p' h := by simp at h
  sent_lt g hg := by simp at hg
  queued_lt q hq := by simp at hq
  asked_op g hg := by simp at hg
  underway id p h := by simp at h
  reports q hq := by simp at hq

variable {m : SortedMap ℕ ReqPtr} {n : ℕ} {sent gs : List Segment} {queued : List Queued}
  {asked : List Registration}

/-! ### What keeps the invariant -/

theorem Written.succ (h : Written m n sent queued asked) : Written m (n + 1) sent queued asked :=
  { h with
    number_lt := fun id p hp => Nat.lt_succ_of_lt (h.number_lt id p hp)
    sent_lt := fun g hg => Nat.lt_succ_of_lt (h.sent_lt g hg)
    queued_lt := fun q hq => Nat.lt_succ_of_lt (h.queued_lt q hq) }

theorem Written.erase (h : Written m n sent queued asked) (id : ℕ) :
    Written (m.erase id) n sent queued asked where
  number_lt id' p hp := h.number_lt id' p (SortedMap.find_erase_eq_some.1 hp).2
  injective id₁ id₂ p₁ p₂ h₁ h₂ :=
    h.injective id₁ id₂ p₁ p₂ (SortedMap.find_erase_eq_some.1 h₁).2
      (SortedMap.find_erase_eq_some.1 h₂).2
  sent_lt := h.sent_lt
  queued_lt := h.queued_lt
  asked_op g hg p hp := h.asked_op g hg p (SortedMap.find_erase_eq_some.1 hp).2
  underway id' p hp := h.underway id' p (SortedMap.find_erase_eq_some.1 hp).2
  reports := h.reports

/-- Fewer descriptors are in the epoll set. -/
theorem Written.mono {asked' : List Registration} (h : Written m n sent queued asked)
    (hsubset : asked' ⊆ asked) : Written m n sent queued asked' :=
  { h with
    asked_op := fun g hg => h.asked_op g (hsubset hg)
    underway := fun id p hp hop =>
      let hup := h.underway id p hp hop
      { hup with
        pushed_over := fun hpushed => (hup.pushed_over hpushed).imp_right
          fun hid hmem => hid (List.map_subset _ hsubset hmem) } }

/-- An id without a request is registered. -/
theorem Written.ask (h : Written m n sent queued asked) {g : Registration}
    (hg : m.find g.data = none) : Written m n sent queued (asked ++ [g]) := by
  refine { h with asked_op := fun g' hg' p hp => ?_, underway := fun id p hp hop => ?_ }
  · rcases List.mem_append.1 hg' with hg' | hg'
    · exact h.asked_op g' hg' p hp
    · rw [List.mem_singleton.1 hg', hg] at hp
      cases hp
  · have hup := h.underway id p hp hop
    refine { hup with
      pushed_over := fun hpushed => (hup.pushed_over hpushed).imp_right fun hid hmem => ?_ }
    rw [List.map_append, List.mem_append] at hmem
    rcases hmem with hmem | hmem
    · exact hid hmem
    · rw [List.mem_singleton.1 hmem, hg] at hp
      cases hp

/-- No request in the map has the number. -/
def NotHeld (m : SortedMap ℕ ReqPtr) (number : ℕ) : Prop :=
  ∀ id p, m.find id = some p → p.number ≠ number

theorem Written.notHeld_erase (h : Written m n sent queued asked) {id : ℕ} {p : ReqPtr}
    (hp : m.find id = some p) : NotHeld (m.erase id) p.number := by
  intro id' p' hp' heq
  obtain ⟨hne, hp'⟩ := SortedMap.find_erase_eq_some.1 hp'
  exact hne (h.injective id' id p' p hp' hp heq)

/-- Bytes of a request that is neither in the map nor pushed are accepted. -/
theorem Written.send (h : Written m n sent queued asked) {number : ℕ} (hlt : number < n)
    (hheld : NotHeld m number) (hqueued : number ∉ queued.map Queued.number)
    (hgs : ∀ g ∈ gs, g.number = number) : Written m n (sent ++ gs) queued asked := by
  have hother : ∀ k total, k ≠ number → Sent sent k total → Sent (sent ++ gs) k total :=
    fun k total hne hsent => hsent.append_of_ne fun g hg heq => hne (heq.symm.trans (hgs g hg))
  refine { h with sent_lt := ?_, underway := fun id p hp hop => ?_, reports := ?_ }
  · intro g hg
    rcases List.mem_append.1 hg with hg | hg
    · exact h.sent_lt g hg
    · rw [hgs g hg]
      exact hlt
  · have hup := h.underway id p hp hop
    have hne := hheld id p hp
    refine ⟨hup.size_lt, ?_, fun hpushed => ?_, hup.pushed_over⟩
    · exact hup.partly.imp fun total ht => ⟨hother _ _ hne ht.1, ht.2⟩
    · exact (hup.counts hpushed).imp fun total ht => ⟨hother _ _ hne ht.1, ht.2⟩
  · intro q hq hop
    have hne : q.number ≠ number := fun heq => hqueued (heq ▸ List.mem_map_of_mem hq)
    exact (h.reports q hq hop).imp fun total ht => ⟨hother _ _ hne ht.1, ht.2⟩

/-- The context of a request that is not in the map is pushed. -/
theorem Written.push (h : Written m n sent queued asked) {q : Queued} (hlt : q.number < n)
    (hheld : NotHeld m q.number) (hq : q.req.op = .OP_WRITE → Reports sent q) :
    Written m n sent (queued ++ [q]) asked := by
  refine { h with queued_lt := ?_, underway := fun id p hp hop => ?_, reports := ?_ }
  · intro q' hq'
    rcases List.mem_append.1 hq' with hq' | hq'
    · exact h.queued_lt q' hq'
    · rw [List.mem_singleton.1 hq']
      exact hlt
  · have hup := h.underway id p hp hop
    have hne := hheld id p hp
    simp only [List.map_append, List.map_cons, List.map_nil]
    refine ⟨hup.size_lt, hup.partly, fun hpushed => ?_, fun hpushed => ?_⟩
    · exact hup.counts fun hmem => hpushed (List.mem_append_left _ hmem)
    · exact hup.pushed_over (by simpa [hne] using hpushed)
  · intro q' hq'
    rcases List.mem_append.1 hq' with hq' | hq'
    · exact h.reports q' hq'
    · rw [List.mem_singleton.1 hq']
      exact hq

/-- A request takes the place of the one under `id`. -/
theorem Written.place {id : ℕ} (h : Written (m.erase id) n sent queued asked) {p : ReqPtr}
    (hlt : p.number < n) (hheld : NotHeld (m.erase id) p.number)
    (hasked : ∀ g ∈ asked, g.data = id → (g.events = .EPOLLOUT ↔ p.req.op = .OP_WRITE))
    (hp : p.req.op = .OP_WRITE →
      Underway sent (queued.map Queued.number) (asked.map Registration.data) id p) :
    Written (m.insertOrAssign id p) n sent queued asked := by
  have hcases : ∀ id' p', (m.insertOrAssign id p).find id' = some p' →
      (id' = id ∧ p' = p) ∨ (m.erase id).find id' = some p' := fun id' p' hp' =>
    (SortedMap.find_insertOrAssign_eq_some.1 hp').imp_right SortedMap.find_erase_eq_some.2
  refine ⟨fun id' p' hp' => ?_, fun id₁ id₂ p₁ p₂ h₁ h₂ heq => ?_, h.sent_lt, h.queued_lt,
    fun g hg p' hp' => ?_, fun id' p' hp' => ?_, h.reports⟩
  · rcases hcases id' p' hp' with ⟨-, rfl⟩ | hp'
    · exact hlt
    · exact h.number_lt id' p' hp'
  · rcases hcases id₁ p₁ h₁ with ⟨rfl, rfl⟩ | hold₁ <;>
      rcases hcases id₂ p₂ h₂ with ⟨rfl, rfl⟩ | hold₂
    · rfl
    · exact absurd heq.symm (hheld id₂ p₂ hold₂)
    · exact absurd heq (hheld id₁ p₁ hold₁)
    · exact h.injective id₁ id₂ p₁ p₂ hold₁ hold₂ heq
  · rcases hcases g.data p' hp' with ⟨hid, rfl⟩ | hp'
    · exact hasked g hg hid
    · exact h.asked_op g hg p' hp'
  · rcases hcases id' p' hp' with ⟨rfl, rfl⟩ | hp'
    · exact hp
    · exact h.underway id' p' hp'

/-! ### `handleRead` and `handleWrite` -/

theorem Written.notHeld_new (h : Written m n sent queued asked) : NotHeld m n :=
  fun id p hp => (h.number_lt id p hp).ne

theorem Written.new_not_queued (h : Written m n sent queued asked) :
    n ∉ queued.map Queued.number := by
  intro hmem
  obtain ⟨q, hq, heq⟩ := List.mem_map.1 hmem
  exact (h.queued_lt q hq).ne heq

theorem Written.sent_new (h : Written m n sent queued asked) : Sent sent n 0 := by
  have hnone := Segment.ofRequest_of_lt h.sent_lt
  exact ⟨by rw [hnone]; trivial, by rw [hnone]; rfl⟩

/-- Bytes of a new request are accepted. -/
theorem Written.begin (h : Written m n sent queued asked) (hgs : ∀ g ∈ gs, g.number = n) :
    Written m (n + 1) (sent ++ gs) queued asked :=
  h.succ.send (Nat.lt_succ_self n) h.notHeld_new h.new_not_queued hgs

theorem NotHeld.erase {number : ℕ} (h : NotHeld m number) (id : ℕ) :
    NotHeld (m.erase id) number :=
  fun id' p hp => h id' p (SortedMap.find_erase_eq_some.1 hp).2

theorem Written.complete (h : Written m n sent queued asked) {p : ReqPtr} (hn : p.number = n)
    {retCode : ℤ} (hgs : ∀ g ∈ gs, g.number = n)
    (hp : p.req.op = .OP_WRITE → Reports (sent ++ gs)
      { number := p.number, req := { p.req with retCode := retCode }, id := none }) :
    Written m (n + 1) (sent ++ gs)
      (queued ++ [{ number := p.number, req := { p.req with retCode := retCode }, id := none }])
      asked := by
  refine (h.begin hgs).push ?_ ?_ hp
  · rw [hn]
    exact Nat.lt_succ_self n
  · rw [hn]
    exact h.notHeld_new

theorem Written.added (h : Written m n sent queued asked) {p : ReqPtr} (hn : p.number = n)
    {g : Registration} (hfresh : g.data ∉ asked.map Registration.data)
    (hevents : g.events = .EPOLLOUT ↔ p.req.op = .OP_WRITE) (hgs : ∀ g ∈ gs, g.number = n)
    (hp : p.req.op = .OP_WRITE → p.req.size < 2 ^ 32 ∧ Counts (sent ++ gs) p) :
    Written (m.insertOrAssign g.data p) (n + 1) (sent ++ gs) queued (asked ++ [g]) := by
  subst hn
  have hnone : (m.erase g.data).find g.data = none := by rw [SortedMap.find_erase, if_pos rfl]
  have hasked := ((h.begin hgs).erase g.data).ask hnone
  refine hasked.place (Nat.lt_succ_self _) (h.notHeld_new.erase _) (fun g' hg' hdata => ?_)
    fun hop => ?_
  · rcases List.mem_append.1 hg' with hg' | hg'
    · exact absurd (hdata ▸ List.mem_map_of_mem hg') hfresh
    · rw [List.mem_singleton.1 hg']
      exact hevents
  · obtain ⟨hsize, hcounts⟩ := hp hop
    exact ⟨hsize, hcounts.imp fun total ht => ⟨ht.1, ht.2.2⟩, fun _ => hcounts,
      fun hmem => absurd hmem h.new_not_queued⟩

theorem Written.addFailed (h : Written m n sent queued asked) {p : ReqPtr} (hn : p.number = n)
    {id : ℕ} (hfresh : id ∉ asked.map Registration.data) (hgs : ∀ g ∈ gs, g.number = n)
    (hp : p.req.op = .OP_WRITE → p.req.size < 2 ^ 32 ∧
      (∃ total, Sent (sent ++ gs) p.number total ∧ total < p.req.size) ∧
      Reports (sent ++ gs) { number := p.number, req := p.req, id := some id }) :
    Written (m.insertOrAssign id p) (n + 1) (sent ++ gs)
      (queued ++ [{ number := p.number, req := p.req, id := some id }]) asked := by
  subst hn
  have hheld := h.notHeld_new.erase id
  have hpushed := ((h.begin hgs).erase id).push
    (q := { number := p.number, req := p.req, id := some id }) (Nat.lt_succ_self _) hheld
    fun hop => (hp hop).2.2
  refine hpushed.place (Nat.lt_succ_self _) hheld (fun g' hg' hdata => ?_) fun hop => ?_
  · exact absurd (hdata ▸ List.mem_map_of_mem hg') hfresh
  · obtain ⟨hsize, hpartly, -⟩ := hp hop
    exact ⟨hsize, hpartly, fun hmem => absurd (by simp) hmem, fun _ => Or.inr hfresh⟩

variable {s : EpollScheduler} {r : CallResult} {now : ℕ}

theorem insert_eq_insertOrAssign (hfresh : ¬ s.ioIndex2req_.HasKey s.ioIndex_) (q : ReqPtr) :
    s.ioIndex2req_.insert s.ioIndex_ q = s.ioIndex2req_.insertOrAssign s.ioIndex_ q :=
  if_neg hfresh

theorem Written.handleRead (h : Written s.ioIndex2req_ n sent queued asked) (hn : p.number = n)
    {readsz : IoResult} (hfresh : ¬ s.ioIndex2req_.HasKey s.ioIndex_)
    (hunregistered : s.ioIndex_ ∉ asked.map Registration.data)
    (hr : s.handleRead p readsz add now = some r) :
    Written r.sched.ioIndex2req_ (n + 1) (sent ++ r.sent) (queued ++ r.queued.toList)
      (asked ++ r.registered.toList) := by
  have hnone : ∀ g ∈ ([] : List Segment), g.number = n := by simp
  obtain ⟨hop, ⟨-, retCode, rfl⟩ | ⟨-, -, rfl⟩ | ⟨-, -, rfl⟩⟩ := handleRead_cases hr
  · have hread : p.req.op ≠ .OP_WRITE := by simp [hop]
    simpa [EpollScheduler.complete] using h.complete hn hnone (absurd · hread)
  · have hread : p.req.op ≠ .OP_WRITE := by simp [hop]
    simpa [EpollScheduler.added, insert_eq_insertOrAssign hfresh] using
      h.added (p := { number := p.number, req := { p.req with retCode := 0 } }) hn
        (g := { fd := p.req.fd, events := .EPOLLIN, data := s.ioIndex_ }) hunregistered
        (by simp [hread]) hnone (absurd · hread)
  · have hread : p.req.op ≠ .OP_WRITE := by simp [hop]
    simpa [EpollScheduler.addFailed, insert_eq_insertOrAssign hfresh] using
      h.addFailed (p := { number := p.number, req := { p.req with retCode := -1 } }) hn
        hunregistered hnone (absurd · hread)

/-- What the writes say about the new request. -/
theorem Outcome.reports (h : Written s.ioIndex2req_ n sent queued asked) (hn : p.number = n)
    {o : List Segment × WriteEnd} (ho : Outcome p add 0 o) :
    match o.2 with
    | .completed retCode => Reports (sent ++ o.1)
        { number := p.number, req := { p.req with retCode := retCode }, id := none }
    | .uncompleted retCode => Counts (sent ++ o.1)
        { number := p.number, req := { p.req with retCode := retCode } } ∧
          (retCode = 0 ∨ add = true) := by
  subst hn
  have hsent := h.sent_new.append_of_eq ho.number (by simpa using ho.consecutive)
  have htells := ho.tells
  rcases o with ⟨gs, e⟩
  generalize 0 + Segment.total gs = total at hsent htells
  cases htells with
  | all => exact ⟨_, hsent, Or.inl ⟨rfl, rfl⟩⟩
  | closed hlt => exact ⟨_, hsent, Or.inr ⟨Or.inl rfl, hlt⟩⟩
  | error hlt => exact ⟨_, hsent, Or.inr ⟨Or.inr rfl, hlt⟩⟩
  | blocked hlt hadd => exact ⟨⟨_, hsent, rfl, hlt⟩, by exact_mod_cast hadd⟩

theorem Written.handleWrite (h : Written s.ioIndex2req_ n sent queued asked) (hn : p.number = n)
    (hfresh : ¬ s.ioIndex2req_.HasKey s.ioIndex_)
    (hunregistered : s.ioIndex_ ∉ asked.map Registration.data) (hpos : 0 < p.req.size)
    (hsize : p.req.size < 2 ^ 32) (hfit : Fit p.req.size results)
    (hhandled : Handled p.req.size add 0 results)
    (hr : s.handleWrite p results add now = some r) :
    Written r.sched.ioIndex2req_ (n + 1) (sent ++ r.sent) (queued ++ r.queued.toList)
      (asked ++ r.registered.toList) := by
  obtain ⟨hop, o, ho, hcases⟩ := handleWrite_cases hr
  have houtcome := writes_outcome hpos hfit hhandled ho
  have hnumber : ∀ g ∈ o.1, g.number = n := fun g hg => (houtcome.number g hg).trans hn
  have hreports := houtcome.reports h hn
  rcases hcases with ⟨retCode, hend, rfl⟩ | ⟨retCode, hend, hadd, rfl⟩ | ⟨retCode, hend, hadd, rfl⟩
  · rw [hend] at hreports
    simpa [EpollScheduler.complete] using h.complete hn hnumber fun _ => hreports
  · rw [hend] at hreports
    simpa [EpollScheduler.added, insert_eq_insertOrAssign hfresh] using
      h.added (p := { number := p.number, req := { p.req with retCode := retCode } }) hn
        (g := { fd := uint32 s.ioIndex_, events := .EPOLLOUT, data := s.ioIndex_ }) hunregistered
        (by simp [hop]) hnumber fun _ => ⟨hsize, hreports.1⟩
  · rw [hend] at hreports
    obtain ⟨⟨total, hsent, hcode, hlt⟩, hzero⟩ := hreports
    have hzero : retCode = 0 := by simpa [hadd] using hzero
    simpa [EpollScheduler.addFailed, insert_eq_insertOrAssign hfresh] using
      h.addFailed (p := { number := p.number, req := { p.req with retCode := retCode } }) hn
        hunregistered hnumber fun _ =>
          ⟨hsize, ⟨total, hsent, hlt⟩, total, hsent, Or.inr ⟨Or.inl hzero, hlt⟩⟩

/-! ### The event loop -/

/-- The request under `id` is pushed and leaves the map. -/
theorem Written.finish (h : Written m n sent queued asked) {id : ℕ} (hp : m.find id = some p)
    (retCode : ℤ) (hgs : ∀ g ∈ gs, g.number = p.number)
    (hnew : gs = [] ∨ p.number ∉ queued.map Queued.number)
    (hreports : p.req.op = .OP_WRITE → Reports (sent ++ gs)
      { number := p.number, req := { p.req with retCode := retCode }, id := some id }) :
    Written (m.erase id) n (sent ++ gs)
      (queued ++
        [{ number := p.number, req := { p.req with retCode := retCode }, id := some id }])
      asked := by
  have hheld := h.notHeld_erase hp
  have hlt := h.number_lt id p hp
  have hsent : Written (m.erase id) n (sent ++ gs) queued asked := by
    rcases hnew with rfl | hnew
    · simpa using h.erase id
    · exact (h.erase id).send hlt hheld hnew hgs
  exact hsent.push hlt hheld hreports

/-- More bytes of the request under `id` are accepted. -/
theorem Written.progress (h : Written m n sent queued asked) {id : ℕ} (hp : m.find id = some p)
    (hop : p.req.op = .OP_WRITE) (retCode : ℤ) (hgs : ∀ g ∈ gs, g.number = p.number)
    (hnew : p.number ∉ queued.map Queued.number)
    (hcounts : Counts (sent ++ gs)
      { number := p.number, req := { p.req with retCode := retCode } }) :
    Written (m.insertOrAssign id { p with req := { p.req with retCode := retCode } }) n
      (sent ++ gs) queued asked := by
  have hheld := h.notHeld_erase hp
  have hlt := h.number_lt id p hp
  refine ((h.erase id).send hlt hheld hnew hgs).place hlt hheld (fun g hg hid => ?_) fun _ => ?_
  · exact h.asked_op g hg p (hid ▸ hp)
  · exact ⟨(h.underway id p hp hop).size_lt, hcounts.imp fun total ht => ⟨ht.1, ht.2.2⟩,
      fun _ => hcounts, fun hmem => absurd hmem hnew⟩

/-- The request under `id` is pushed by the expiry loop and stays in the map. -/
theorem Written.expire (h : Written m n sent queued asked) {id : ℕ} (hp : m.find id = some p) :
    Written (m.insertOrAssign id { p with req := { p.req with retCode := -1 } }) n sent
      (queued ++ [{ number := p.number, req := { p.req with retCode := -1 }, id := some id }])
      asked := by
  have hheld := h.notHeld_erase hp
  have hlt := h.number_lt id p hp
  have hpushed := (h.erase id).push
    (q := { number := p.number, req := { p.req with retCode := -1 }, id := some id }) hlt hheld
    fun hop => (h.underway id p hp hop).partly.imp fun total ht =>
      ⟨ht.1, Or.inr ⟨Or.inr rfl, ht.2⟩⟩
  refine hpushed.place hlt hheld (fun g hg hid => ?_) fun hop => ?_
  · exact h.asked_op g hg p (hid ▸ hp)
  · have hup := h.underway id p hp hop
    exact ⟨hup.size_lt, hup.partly, fun hmem => absurd (by simp) hmem, fun _ => Or.inl rfl⟩

/-- The request that the `EPOLLOUT` branch handles. -/
def writeOf (s : EpollScheduler) (e : Event) : Option ReqPtr :=
  if e.epollin then none else if e.epollout then s.ioIndex2req_.find e.data else none

/-- The kernel does not take more than `req->size - req->retCode`. -/
def EventFits (s : EpollScheduler) (e : Event) : Prop :=
  ∀ q ∈ s.writeOf e, e.first.bytes ≤ ofInt32 (q.req.size - q.req.retCode)

/-- The first write of the `EPOLLOUT` branch does not answer `EAGAIN` and takes nothing of a
request that expired; `retCode` does not overflow; and a write after a partial one answers
`EAGAIN`. -/
def EventHandled (s : EpollScheduler) (e : Event) : Prop :=
  ∀ q ∈ s.writeOf e, e.first ≠ .eagain ∧
    (0 < e.first.bytes → 0 ≤ q.req.retCode ∧ q.req.retCode + e.first.bytes < 2 ^ 31 ∧
      (q.req.retCode + e.first.bytes < q.req.size → e.second = .eagain))

instance (s : EpollScheduler) (e : Event) : Decidable (s.EventFits e) :=
  inferInstanceAs (Decidable (∀ q ∈ s.writeOf e, _))

instance (s : EpollScheduler) (e : Event) : Decidable (s.EventHandled e) :=
  inferInstanceAs (Decidable (∀ q ∈ s.writeOf e, _))

/-- No assertion of the `EPOLLOUT` branch fails. -/
def WriteAsserts (s : EpollScheduler) (e : Event) : Prop :=
  ∀ q ∈ s.writeOf e, ∃ t, s.handleOut e q = some t

variable {e : Event} {t : EventResult}

/-- What the `EPOLLOUT` branch does to a write that is asked for. -/
theorem Written.handleOut (h : Written s.ioIndex2req_ n sent queued asked)
    (hp : s.ioIndex2req_.find e.data = some p) (hop : p.req.op = .OP_WRITE)
    (hreported : e.data ∈ asked.map Registration.data) (hwrite : s.writeOf e = some p)
    (hfit : s.EventFits e) (hhandled : s.EventHandled e) :
    ∃ t, s.handleOut e p = some t ∧
      Written t.sched.ioIndex2req_ n (sent ++ t.sent) (queued ++ t.queued) asked := by
  have hfit := hfit p hwrite
  obtain ⟨hfirst, hpartial⟩ := hhandled p hwrite
  have hup := h.underway _ p hp hop
  have hnone : ∀ g ∈ ([] : List Segment), g.number = p.number := by simp
  unfold EpollScheduler.handleOut
  cases hanswer : e.first with
  | eagain => exact absurd hanswer hfirst
  | error =>
    refine ⟨s.finish e p (-1) [], rfl, h.finish hp (-1) hnone (Or.inl rfl) fun _ => ?_⟩
    exact hup.partly.imp fun total ht =>
      ⟨by simpa [EpollScheduler.finish] using ht.1, Or.inr ⟨Or.inr rfl, ht.2⟩⟩
  | count k =>
    rcases Nat.eq_zero_or_pos k with rfl | hpos
    · refine ⟨s.finish e p 0 [], by simp, h.finish hp 0 hnone (Or.inl rfl) fun _ => ?_⟩
      exact hup.partly.imp fun total ht =>
        ⟨by simpa [EpollScheduler.finish] using ht.1, Or.inr ⟨Or.inl rfl, ht.2⟩⟩
    · rw [hanswer] at hfit hpartial
      simp only [IoResult.bytes] at hfit hpartial
      obtain ⟨hcode, hlt, hsecond⟩ := hpartial hpos
      -- `retCode` is not `-1`, so the context was not pushed before
      have hnew : p.number ∉ queued.map Queued.number := by
        intro hmem
        rcases hup.pushed_over hmem with hexpired | hgone
        · omega
        · exact hgone hreported
      obtain ⟨total, hsent, htotal, hmore⟩ := hup.counts hnew
      have hsize := hup.size_lt
      have hle : total + k ≤ p.req.size := by
        rw [htotal, ← Nat.cast_sub hmore.le, ofInt32_natCast (by omega)] at hfit
        omega
      have hcode' : int32 (k + p.req.retCode) = ((total + k : ℕ) : ℤ) := by
        rw [htotal, add_comm]
        exact_mod_cast int32_of_lt (n := total + k) (by omega)
      have hsegment :
          ∀ g ∈ [({ number := p.number, offset := p.req.retCode, count := k } : Segment)],
          g.number = p.number := by simp
      have hsent' := hsent.append_of_eq hsegment ⟨htotal, trivial⟩
      simp only [hcode', ofInt32_natCast (show total + k < 2 ^ 32 by omega)]
      by_cases hall : total + k = p.req.size
      · refine ⟨_, by rw [if_neg (by simp [hall]), if_neg hpos.ne'],
          h.finish hp ((total + k : ℕ) : ℤ) hsegment (Or.inr hnew) fun _ => ?_⟩
        exact ⟨_, hsent', Or.inl ⟨by simp [hall], by simpa [Segment.total] using hall⟩⟩
      · refine ⟨_, by rw [if_pos ⟨hpos, hall⟩, if_pos (hsecond (by omega))], ?_⟩
        have hmore' : total + k < p.req.size := by omega
        simpa using h.progress hp hop ((total + k : ℕ) : ℤ) hsegment hnew
          ⟨_, hsent', by simp [Segment.total], by simpa [Segment.total] using hmore'⟩

theorem handleIn_cases (ht : s.handleIn e p = some t) :
    ∃ retCode, t = s.finish e p retCode [] := by
  unfold EpollScheduler.handleIn at ht
  split at ht <;> cases ht
  · exact ⟨_, rfl⟩
  · exact ⟨_, rfl⟩

/-- Every request whose event the `EPOLLOUT` branch handles is a write. -/
theorem Written.op_of_writeOf (h : Written s.ioIndex2req_ n sent queued asked) {g : Registration}
    (hg : g ∈ asked) (hasked : e.AskedBy g) (hp : s.writeOf e = some p) :
    s.ioIndex2req_.find e.data = some p ∧ p.req.op = .OP_WRITE := by
  unfold writeOf at hp
  split at hp
  · cases hp
  · split at hp
    · rename_i hout
      exact ⟨hp, (h.asked_op g hg p (hasked.1 ▸ hp)).1 (hasked.2.2 hout)⟩
    · cases hp

theorem Written.writeAsserts (h : Written s.ioIndex2req_ n sent queued asked)
    (hasked : ∃ g ∈ asked, e.AskedBy g) (hfit : s.EventFits e) (hhandled : s.EventHandled e) :
    s.WriteAsserts e := by
  obtain ⟨g, hg, hasked⟩ := hasked
  intro q hq
  obtain ⟨hp, hop⟩ := h.op_of_writeOf hg hasked hq
  have hreported : e.data ∈ asked.map Registration.data := hasked.1 ▸ List.mem_map_of_mem hg
  obtain ⟨t, ht, -⟩ := h.handleOut hp hop hreported hq hfit hhandled
  exact ⟨t, ht⟩

theorem Written.handleEvent (h : Written s.ioIndex2req_ n sent queued asked)
    (hasked : ∃ g ∈ asked, e.AskedBy g) (hfit : s.EventFits e) (hhandled : s.EventHandled e)
    (ht : s.handleEvent e = some t) :
    Written t.sched.ioIndex2req_ n (sent ++ t.sent) (queued ++ t.queued) asked := by
  obtain ⟨g, hg, hasked⟩ := hasked
  unfold EpollScheduler.handleEvent at ht
  split at ht
  · rename_i hflag
    split at ht
    · cases ht
      simpa using h
    · rename_i q hq
      split at ht
      · rename_i hin
        have hread : q.req.op ≠ .OP_WRITE := by
          have hiff := h.asked_op g hg q (hasked.1 ▸ hq)
          rw [hasked.2.1 hin] at hiff
          simpa using hiff
        obtain ⟨retCode, rfl⟩ := handleIn_cases ht
        have hnone : ∀ g ∈ ([] : List Segment), g.number = q.number := by simp
        exact h.finish hq retCode hnone (Or.inl rfl) (absurd · hread)
      · rename_i hin
        have hout : e.epollout = true := hflag.resolve_left hin
        have hwrite : s.writeOf e = some q := by rw [writeOf, if_neg hin, if_pos hout, hq]
        have hop := (h.op_of_writeOf hg hasked hwrite).2
        have hreported : e.data ∈ asked.map Registration.data := hasked.1 ▸ List.mem_map_of_mem hg
        obtain ⟨t', ht', hkept⟩ := h.handleOut hq hop hreported hwrite hfit hhandled
        cases ht'.symm.trans ht
        exact hkept
  · cases ht

theorem Written.handleEvents {events : List Event}
    (h : Written s.ioIndex2req_ n sent queued asked)
    (hasked : ∀ e ∈ events, ∃ g ∈ asked, e.AskedBy g) (hfit : Always eventStep EventFits s events)
    (hhandled : Always eventStep EventHandled s events) :
    Always eventStep WriteAsserts s events ∧
      ∀ t, s.handleEvents events = some t →
        Written t.sched.ioIndex2req_ n (sent ++ t.sent) (queued ++ t.queued) asked := by
  induction events generalizing s sent queued with
  | nil =>
    refine ⟨trivial, fun t ht => ?_⟩
    cases ht
    simpa using h
  | cons e es ih =>
    rw [List.forall_mem_cons] at hasked
    have hnext : ∀ r, s.handleEvent e = some r → eventStep s e = some r.sched :=
      fun r hr => by rw [eventStep, hr, Option.map_some]
    have hrest := fun r hr => ih (h.handleEvent hasked.1 hfit.1 hhandled.1 hr) hasked.2
      (hfit.2 _ (hnext r hr)) (hhandled.2 _ (hnext r hr))
    refine ⟨⟨h.writeAsserts hasked.1 hfit.1 hhandled.1, fun u hu => ?_⟩, fun t ht => ?_⟩
    · obtain ⟨r, hr, rfl⟩ := Option.map_eq_some_iff.1 hu
      exact (hrest r hr).1
    · obtain ⟨r, r', hr, hr', rfl⟩ := handleEvents_cons_eq_some ht
      simpa using (hrest r hr).2 r' hr'

/-! ### `poll` -/

theorem Written.expireLoop (h : Written s.ioIndex2req_ n sent queued asked) (ids : List ℕ) :
    Written (s.expireLoop ids).1.ioIndex2req_ n sent (queued ++ (s.expireLoop ids).2) asked := by
  induction ids generalizing s queued with
  | nil => simpa [EpollScheduler.expireLoop] using h
  | cons id ids ih =>
    cases hp : s.ioIndex2req_.find id with
    | none => simpa [EpollScheduler.expireLoop, expireTurn, hp] using ih h
    | some p =>
      have hturn : Written (s.expireTurn id).1.ioIndex2req_ n sent
          (queued ++ (s.expireTurn id).2.toList) asked := by
        simpa [expireTurn, hp] using h.expire hp
      simpa [EpollScheduler.expireLoop] using ih hturn

theorem Written.poll {events : List Event} {ready : List Handle} {t : PollResult}
    (h : Written s.ioIndex2req_ n sent queued asked)
    (hasked : ∀ e ∈ events, ∃ g ∈ asked, e.AskedBy g) (hfit : Always eventStep EventFits s events)
    (hhandled : Always eventStep EventHandled s events)
    (ht : s.poll events now ready = some t) :
    Written t.sched.ioIndex2req_ n (sent ++ t.sent) (queued ++ t.queued ++ t.expired) asked := by
  obtain ⟨r, hr, rfl⟩ := Option.map_eq_some_iff.1 ht
  have hevents := (h.handleEvents hasked hfit hhandled).2 r hr
  exact hevents.expireLoop
    (s := { r.sched with timerQueue_ := (r.sched.timerQueue_.popExpired now).1 }) _

end EpollScheduler

/-! ## Runs -/

namespace Epoll

open EpollScheduler

/-- What the guard of `asyncWrite`, the type of `size` and the kernel promise. -/
def Promised (w : Epoll) : Action → Prop
  | .write req results _ _ => 0 < req.size ∧ req.size < 2 ^ 32 ∧ Fit req.size results
  | .poll events _ =>
    (∀ e ∈ events, ∃ g ∈ w.epollset, e.AskedBy g) ∧ Always eventStep EventFits w.sched events
  | _ => True

/-- The answers to the writes stay within what the code handles. -/
def WritesHandled (w : Epoll) : Action → Prop
  | .write req results add _ => Handled req.size add 0 results
  | .poll events _ => Always eventStep EventHandled w.sched events
  | _ => True

/-- No assertion about a write fails in the step. -/
def AssertsHold (w : Epoll) : Action → Prop
  | .poll events _ => Always eventStep WriteAsserts w.sched events
  | _ => True

/-- The bytes of `data` that were accepted for the request are its first `total` ones, each
accepted once. -/
def Accepted (w : Epoll) (number : ℕ) (data : Bytes) (total : ℕ) : Prop :=
  Sent w.sent number total ∧
    (Segment.ofRequest w.sent number).flatMap (Segment.bytes data) = data.take total

/-- A pending write has the number of accepted bytes in `retCode`, and a pushed one has there
`size` exactly when all bytes were accepted, and otherwise `0` or `-1`. -/
structure WritesExact (w : Epoll) : Prop where
  pending : ∀ id p, w.sched.ioIndex2req_.find id = some p → p.req.op = .OP_WRITE →
    p.number ∉ w.queuedNumbers →
      ∃ total : ℕ, w.Accepted p.number p.req.data total ∧ p.req.retCode = total
  pushed : ∀ q ∈ w.queued, q.req.op = .OP_WRITE →
    ∃ total : ℕ, w.Accepted q.number q.req.data total ∧
      (q.req.retCode = q.req.size ↔ total = q.req.size) ∧
      (q.req.retCode = q.req.size ∨ q.req.retCode = 0 ∨ q.req.retCode = -1)

/-- `Written` for the state between two actions. -/
def WriteInv (w : Epoll) : Prop :=
  Written w.sched.ioIndex2req_ w.requests w.sent w.queued w.epollset

theorem accepted_of_sent {w : Epoll} {number total : ℕ} (h : Sent w.sent number total)
    (data : Bytes) : w.Accepted number data total := by
  refine ⟨h, ?_⟩
  have hconsecutive : Segment.Consecutive ((0 : ℕ) : ℤ) (Segment.ofRequest w.sent number) :=
    h.consecutive
  rw [hconsecutive.flatMap_bytes, h.total_eq, List.drop_zero]

theorem WriteInv.exact {w : Epoll} (h : WriteInv w) : WritesExact w where
  pending id p hp hop hpending := by
    obtain ⟨total, hsent, hcode, -⟩ := (h.underway id p hp hop).counts hpending
    exact ⟨total, accepted_of_sent hsent _, hcode⟩
  pushed q hq hop := by
    obtain ⟨total, hsent, hreports⟩ := h.reports q hq hop
    refine ⟨total, accepted_of_sent hsent _, ?_⟩
    rcases hreports with ⟨hcode, htotal⟩ | ⟨hcode, hlt⟩
    · exact ⟨iff_of_true hcode htotal, Or.inl hcode⟩
    · exact ⟨iff_of_false (by omega) hlt.ne, Or.inr hcode⟩

theorem writeInv_new : WriteInv new := written_empty

theorem writeInv_step {w v : Epoll} {a : Action} (h : WriteInv w)
    (ha : Promised w a ∧ WritesHandled w a ∧ FreshId w a) (hv : step w a = some v) :
    WriteInv v := by
  obtain ⟨hpromised, hhandled, hfresh⟩ := ha
  cases a with
  | read req readsz add now =>
    obtain ⟨r, hr, rfl⟩ := step_read hv
    obtain ⟨hnew, hunregistered⟩ := hfresh trivial
    exact Written.handleRead h rfl hnew hunregistered hr
  | write req results add now =>
    obtain ⟨r, hr, rfl⟩ := step_write hv
    obtain ⟨hnew, hunregistered⟩ := hfresh trivial
    obtain ⟨hpos, hsize, hfit⟩ := hpromised
    have hhandled : Handled req.size add 0 results := hhandled
    exact Written.handleWrite h rfl hnew hunregistered hpos hsize hfit hhandled hr
  | poll events now =>
    obtain ⟨-, ⟨-, rfl⟩ | ⟨r, hr, rfl⟩⟩ := step_poll hv
    · exact h
    · exact (h.poll hpromised.1 hpromised.2 hhandled hr).mono (List.filter_subset_self _)
  | resume =>
    obtain ⟨c, cs, -, rfl⟩ := step_resume hv
    exact h
  | close fd =>
    obtain rfl := step_close hv
    exact h.mono (List.filter_subset_self _)

theorem assertsHold_of_writeInv {w : Epoll} {a : Action} (h : WriteInv w)
    (ha : Promised w a ∧ WritesHandled w a ∧ FreshId w a) : AssertsHold w a := by
  cases a with
  | poll events now => exact (h.handleEvents ha.1.1 ha.1.2 ha.2.1).1
  | _ => trivial

/-- In a run whose writes are answered within what the code handles, every byte of a write is
accepted in order and once, `retCode` tells how many were, and no assertion about a write fails. -/
theorem writes_exact {as : List Action} {w : Epoll} (hrun : run step new as = some w)
    (hP : Always step (fun u a => Promised u a ∧ WritesHandled u a ∧ FreshId u a) new as) :
    WritesExact w ∧ Always step AssertsHold new as := by
  have hstep : ∀ u a v, WriteInv u → (Promised u a ∧ WritesHandled u a ∧ FreshId u a) →
      step u a = some v → WriteInv v := fun u a v hu ha hv => writeInv_step hu ha hv
  refine ⟨(run_invariant_of_always hstep writeInv_new hP hrun).exact, ?_⟩
  exact Always.of_invariant hstep (fun u a hu ha => assertsHold_of_writeInv hu ha) writeInv_new hP

instance (e : Event) (g : Registration) : Decidable (e.AskedBy g) :=
  inferInstanceAs (Decidable (g.data = e.data ∧ (e.epollin = true → g.events = .EPOLLIN) ∧
    (e.epollout = true → g.events = .EPOLLOUT)))

instance (w : Epoll) : ∀ a, Decidable (Promised w a)
  | .read _ _ _ _ => .isTrue trivial
  | .write req results _ _ =>
    inferInstanceAs (Decidable (0 < req.size ∧ req.size < 2 ^ 32 ∧ Fit req.size results))
  | .poll events _ =>
    inferInstanceAs (Decidable ((∀ e ∈ events, ∃ g ∈ w.epollset, e.AskedBy g) ∧
      Always eventStep EventFits w.sched events))
  | .resume => .isTrue trivial
  | .close _ => .isTrue trivial

instance (w : Epoll) : ∀ a, Decidable (WritesHandled w a)
  | .read _ _ _ _ => .isTrue trivial
  | .write req results add _ => inferInstanceAs (Decidable (Handled req.size add 0 results))
  | .poll events _ => inferInstanceAs (Decidable (Always eventStep EventHandled w.sched events))
  | .resume => .isTrue trivial
  | .close _ => .isTrue trivial

/-- A write of ten bytes: two answers of the first call, then two events. -/
def tenBytes : List Action :=
  [.write { data := ascii "0123456789", size := 10, fd := 0, context := 100, op := .OP_WRITE }
      [.count 2, .count 3, .eagain] true 0,
    .poll [{ epollin := false, epollout := true, data := 0, first := .count 1 }] 5,
    .poll [{ epollin := false, epollout := true, data := 0, first := .count 4 }] 6]

theorem writes_exact_tenBytes :
    ∃ w, run step new tenBytes = some w ∧ w.queued.map (fun q => q.req.retCode) = [10] ∧
      WritesExact w := by
  refine ⟨_, rfl, by decide, ?_⟩
  have hrun : run step new tenBytes = some _ := rfl
  exact (writes_exact hrun (by decide)).1

/-- Between the first write of the `EPOLLOUT` branch and the second one the peer made room, so the
second one succeeds and `assert(ret == -1)` fails. -/
theorem second_write_aborts :
    ∃ as w, Always step Promised new as ∧ run step new as = some w ∧ w.aborted = true ∧
      ¬ Always step AssertsHold new as := by
  refine ⟨[.write { data := ascii "01234567", size := 8, fd := 0, context := 100, op := .OP_WRITE }
      [.eagain] true 0,
    .poll [{ epollin := false, epollout := true, data := 0, first := .count 3, second := .count 5 }]
      5], _, by decide, rfl, rfl, fun hall => ?_⟩
  obtain ⟨-, hpoll⟩ := hall
  obtain ⟨⟨hassert, -⟩, -⟩ := hpoll _ rfl
  obtain ⟨t, ht⟩ := hassert _ rfl
  cases ht

end Epoll

end CoUringWeb
