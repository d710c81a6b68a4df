import CoUringWeb.Framework.Machine
import CoUringWeb.Framework.RingBuffer

/-!
# `LockfreeQueue`: whole calls

The single-producer ring of `include/lockfree_queue.h`.  `writeIndex_` and `readIndex_` are
`std::atomic<uint32_t>` counters that are never reduced to the capacity; `count2Index` maps a
counter to its slot.  The slots come from `malloc`, so the queue starts with arbitrary contents.

Here `push` and `pop` run alone, one whole call after the other.  The interleaved reading, in
which every load, copy, increment and compare-exchange is a step of its own, is in
`Queue/Interleaved.lean`, with the proof that an undisturbed call there is the call here.

The slot of a counter is the counter modulo the capacity, while the counter itself wraps modulo
`2 ^ 32`; consecutive counters therefore keep consecutive slots across the wrap exactly when the
capacity divides `2 ^ 32`.  `slotOk` names the counters at which the two reductions agree,
`answers_eq_fifo` shows that a run that stays on such counters is a bounded FIFO, and
`push_refused_at_wrap` that past `2 ^ 32 - 1` accepted pushes a push can be refused too early.
-/

namespace CoUringWeb

open Machine BoundedFifo

variable {T : Type*}

/-- The fields of `LockfreeQueue<T, true>` that its calls read. -/
structure LockfreeQueue (T : Type*) where
  writeIndex_ : ℕ
  readIndex_ : ℕ
  capicity_ : ℕ
  queue_ : ℕ → T

namespace LockfreeQueue

/-- The capacity of a queue built by the default constructor. -/
def DefaultCapicity : ℕ := 25600

/-- The constructor; `mem` is what `malloc` returned. -/
def new (capicity : ℕ) (mem : ℕ → T) : LockfreeQueue T :=
  { writeIndex_ := 0, readIndex_ := 0, capicity_ := capicity, queue_ := mem }

def count2Index (q : LockfreeQueue T) (count : ℕ) : ℕ := count % q.capicity_

/-- The full test of `push`, on the two loaded counters. -/
def isFull (q : LockfreeQueue T) (currentWriteIndex readIndex : ℕ) : Bool :=
  q.count2Index (uint32 (currentWriteIndex + 1)) == q.count2Index readIndex

def push (q : LockfreeQueue T) (data : T) : LockfreeQueue T × Bool :=
  let currentWriteIndex := q.writeIndex_
  if q.isFull currentWriteIndex q.readIndex_ then (q, false)
  else
    ({ q with
        queue_ := Function.update q.queue_ (q.count2Index currentWriteIndex) data
        writeIndex_ := uint32 (q.writeIndex_ + 1) }, true)

def pop (q : LockfreeQueue T) : LockfreeQueue T × Option T :=
  let currentReadIndex := q.readIndex_
  if currentReadIndex = q.writeIndex_ then (q, none)
  else
    let data := q.queue_ (q.count2Index currentReadIndex)
    -- no other consumer runs between the load and the compare-exchange, so it succeeds
    ({ q with readIndex_ := uint32 (currentReadIndex + 1) }, some data)

/-- One whole call. -/
def call (q : LockfreeQueue T) : Call T → LockfreeQueue T × Answer T
  | .push v => let r := q.push v; (r.1, .pushed r.2)
  | .pop => let r := q.pop; (r.1, .popped r.2)

/-! ## The queue holds a list -/

/-- The counter `n`, reduced to 32 bits, still selects the slot `n % c`. -/
def slotOk (c n : ℕ) : Prop := uint32 n % c = n % c

theorem slotOk_of_dvd {c : ℕ} (h : c ∣ 2 ^ 32) (n : ℕ) : slotOk c n :=
  Nat.mod_mod_of_dvd n h

theorem slotOk_of_lt {c n : ℕ} (h : n < 2 ^ 32) : slotOk c n := by
  rw [slotOk, uint32_of_lt h]

/-- The queue holds the list `l`, oldest element first, at the unreduced counters
`r, r + 1, .., r + l.length - 1`. -/
structure Represents (q : LockfreeQueue T) (c r : ℕ) (l : List T) : Prop where
  capicity : q.capicity_ = c
  read : q.readIndex_ = uint32 r
  write : q.writeIndex_ = uint32 (r + l.length)
  room : l.length < c
  holds : Ring.Holds q.queue_ c r l

theorem represents_new {c : ℕ} (hc : 0 < c) (mem : ℕ → T) : (new c mem).Represents c 0 [] where
  capicity := rfl
  read := rfl
  write := rfl
  room := hc
  holds := Ring.holds_nil _ _ _

/-- On counters that select their own slots the full test counts the elements. -/
theorem isFull_iff {q : LockfreeQueue T} {c r : ℕ} {l : List T} (h : q.Represents c r l)
    (hr : slotOk c r) (hw : slotOk c (r + l.length + 1)) :
    q.isFull q.writeIndex_ q.readIndex_ = true ↔ l.length = c - 1 := by
  have hslot := Ring.next_slot_eq_iff (c := c) (r := r) (w := r + l.length)
    (Nat.le_add_right _ _) (Nat.add_lt_add_left h.room r)
  rw [Nat.add_sub_cancel_left] at hslot
  rw [isFull, beq_iff_eq, count2Index, count2Index, h.capicity, h.write, h.read, uint32_succ, hw,
    hr]
  exact hslot

theorem push_of_isFull {q : LockfreeQueue T} (h : q.isFull q.writeIndex_ q.readIndex_ = true)
    (v : T) : q.push v = (q, false) := if_pos h

theorem push_of_not_isFull {q : LockfreeQueue T}
    (h : ¬ q.isFull q.writeIndex_ q.readIndex_ = true) (v : T) :
    q.push v =
      ({ q with
          queue_ := Function.update q.queue_ (q.count2Index q.writeIndex_) v
          writeIndex_ := uint32 (q.writeIndex_ + 1) }, true) := if_neg h

theorem push_represents {q : LockfreeQueue T} {c r : ℕ} {l : List T} (h : q.Represents c r l)
    (hr : slotOk c r) (hw : slotOk c (r + l.length)) (hw' : slotOk c (r + l.length + 1)) (v : T) :
    (q.push v).2 = decide (l.length < c - 1) ∧
      (q.push v).1.Represents c r (if l.length < c - 1 then l ++ [v] else l) := by
  have hroom := h.room
  have hfull := isFull_iff h hr hw'
  by_cases hlen : l.length < c - 1
  · rw [push_of_not_isFull (fun hf => by have := hfull.1 hf; omega), if_pos hlen]
    refine ⟨(decide_eq_true hlen).symm, ⟨h.capicity, h.read, ?_, ?_, ?_⟩⟩
    · show uint32 (q.writeIndex_ + 1) = _
      rw [h.write, uint32_succ, List.length_append, List.length_singleton, Nat.add_assoc]
    · rw [List.length_append, List.length_singleton]
      omega
    · have hindex : q.count2Index q.writeIndex_ = (r + l.length) % c := by
        rw [count2Index, h.capicity, h.write, hw]
      show Ring.Holds (Function.update q.queue_ (q.count2Index q.writeIndex_) v) c r (l ++ [v])
      rw [hindex]
      exact Ring.holds_write h.room h.holds v
  · rw [push_of_isFull (hfull.2 (by omega)), if_neg hlen]
    exact ⟨(decide_eq_false hlen).symm, h⟩

theorem pop_represents_nil {q : LockfreeQueue T} {c r : ℕ} (h : q.Represents c r []) :
    q.pop = (q, none) := by
  have : q.readIndex_ = q.writeIndex_ := by rw [h.read, h.write]; rfl
  rw [pop, if_pos this]

theorem pop_represents_cons {q : LockfreeQueue T} {c r : ℕ} {v : T} {l : List T}
    (h : q.Represents c r (v :: l)) (hc : c < 2 ^ 32) (hr : slotOk c r) :
    q.pop.2 = some v ∧ q.pop.1.Represents c (r + 1) l := by
  have hroom := h.room
  have hne : q.readIndex_ ≠ q.writeIndex_ := by
    rw [h.read, h.write]
    simp only [uint32, List.length_cons] at hroom ⊢
    omega
  obtain ⟨hv, hl⟩ := Ring.holds_cons.1 h.holds
  have hdata : q.queue_ (q.count2Index q.readIndex_) = v := by
    rw [count2Index, h.capicity, h.read, hr, hv]
  rw [pop, if_neg hne]
  refine ⟨congrArg some hdata, ⟨h.capicity, ?_, ?_, ?_, hl⟩⟩
  · show uint32 (q.readIndex_ + 1) = _
    rw [h.read, uint32_succ]
  · show q.writeIndex_ = _
    rw [h.write, List.length_cons, Nat.add_right_comm, Nat.add_assoc]
  · rw [List.length_cons] at hroom
    omega

/-! ## Runs of whole calls -/

/-- The number of pushes among the calls. -/
def pushCount : List (Call T) → ℕ
  | [] => 0
  | .push _ :: cs => pushCount cs + 1
  | .pop :: cs => pushCount cs

/-- A run that never leaves the counters at which the slot of a counter is right is a bounded
FIFO: a push is refused exactly when `c - 1` elements are queued, and a pop returns the oldest
element and fails exactly on the empty queue. -/
theorem answers_eq_fifo {c : ℕ} (hc : 0 < c) (hc32 : c < 2 ^ 32) (mem : ℕ → T)
    (cs : List (Call T)) (hslot : ∀ n ≤ pushCount cs, slotOk c n) :
    answers call (new c mem) cs = answers (BoundedFifo.call (c - 1)) [] cs := by
  -- `r + l.length` elements have been pushed, so the pushes to come stay on good counters
  refine answers_eq_of_simulation
    (R := fun cs q l => ∃ r, q.Represents c r l ∧ ∀ n ≤ r + l.length + pushCount cs, slotOk c n)
    ?_ cs ⟨0, represents_new hc mem, by simpa using hslot⟩
  rintro (v | _) cs q l ⟨r, hq, hok⟩
  · have hle : r + l.length + 1 ≤ r + l.length + pushCount (Call.push v :: cs) := by
      simp only [pushCount]
      omega
    obtain ⟨hout, hrep⟩ := push_represents hq (hok r (by omega)) (hok _ (by omega)) (hok _ hle) v
    by_cases hlen : l.length < c - 1
    · rw [if_pos hlen] at hrep
      simp only [call, BoundedFifo.call, if_pos hlen, hout, decide_eq_true hlen, and_true]
      refine ⟨r, hrep, fun n hn => hok n ?_⟩
      simp only [pushCount, List.length_append, List.length_singleton] at hn ⊢
      omega
    · rw [if_neg hlen] at hrep
      simp only [call, BoundedFifo.call, if_neg hlen, hout, decide_eq_false hlen, and_true]
      refine ⟨r, hrep, fun n hn => hok n ?_⟩
      simp only [pushCount]
      omega
  · cases l with
    | nil =>
      simp only [call, BoundedFifo.call, pop_represents_nil hq, and_true]
      exact ⟨r, hq, hok⟩
    | cons v l =>
      obtain ⟨hout, hrep⟩ := pop_represents_cons hq hc32 (hok r (by omega))
      simp only [call, BoundedFifo.call, hout, and_true]
      refine ⟨r + 1, hrep, fun n hn => hok n ?_⟩
      simp only [pushCount, List.length_cons]
      omega

/-! ## The wrap of the counters -/

/-- `n` pairs of calls that push `v` and pop it again. -/
def pairCalls (v : T) (n : ℕ) : List (Call T) := (List.replicate n [Call.push v, Call.pop]).flatten

/-- `n` pairs of calls, then `k` pushes of `v`. -/
def pumpCalls (v : T) (n k : ℕ) : List (Call T) := pairCalls v n ++ List.replicate k (Call.push v)

theorem pairCalls_succ (v : T) (n : ℕ) :
    pairCalls v (n + 1) = pairCalls v n ++ [Call.push v, Call.pop] := by
  rw [pairCalls, List.replicate_succ', List.flatten_append, List.flatten_singleton, pairCalls]

theorem represents_pairCalls {c : ℕ} (hc : 2 ≤ c) (hc32 : c < 2 ^ 32) (mem : ℕ → T) (v : T)
    {n : ℕ} (hn : n < 2 ^ 32) : (after call (new c mem) (pairCalls v n)).Represents c n [] := by
  induction n with
  | zero => exact represents_new (by omega) mem
  | succ n ih =>
    obtain ⟨-, hpush⟩ := push_represents (ih (by omega)) (slotOk_of_lt (by omega))
      (slotOk_of_lt (by simpa using by omega)) (slotOk_of_lt (by simpa using hn)) v
    rw [if_pos (by rw [List.length_nil]; omega), List.nil_append] at hpush
    rw [pairCalls_succ, after_append]
    exact (pop_represents_cons hpush hc32 (slotOk_of_lt (by omega))).2

theorem represents_pushes {q : LockfreeQueue T} {c r : ℕ} (hq : q.Represents c r []) (v : T)
    {k : ℕ} (hk : k ≤ c - 1) (hr : r + k < 2 ^ 32) :
    (after call q (List.replicate k (Call.push v))).Represents c r (List.replicate k v) := by
  induction k with
  | zero => exact hq
  | succ k ih =>
    obtain ⟨-, hpush⟩ := push_represents (ih (by omega) (by omega)) (slotOk_of_lt (by omega))
      (slotOk_of_lt (by simpa using by omega)) (slotOk_of_lt (by simpa using by omega)) v
    rw [if_pos (by rw [List.length_replicate]; omega), ← List.replicate_succ'] at hpush
    rw [List.replicate_succ', after_append]
    exact hpush

theorem represents_pumpCalls {c : ℕ} (hc : 2 ≤ c) (hc32 : c < 2 ^ 32) (mem : ℕ → T) (v : T)
    {n k : ℕ} (hk : k ≤ c - 1) (hn : n + k < 2 ^ 32) :
    (after call (new c mem) (pumpCalls v n k)).Represents c n (List.replicate k v) := by
  rw [pumpCalls, after_append]
  exact represents_pushes (represents_pairCalls hc hc32 mem v (by omega)) v hk hn

/-- The bounded FIFO holds the same list after the same calls. -/
theorem fifo_pumpCalls {bound : ℕ} (hb : 0 < bound) (v : T) (n : ℕ) {k : ℕ} (hk : k ≤ bound) :
    after (BoundedFifo.call bound) [] (pumpCalls v n k) = List.replicate k v := by
  have hpairs : after (BoundedFifo.call bound) [] (pairCalls v n) = [] := by
    induction n with
    | zero => rfl
    | succ n ih => simp [pairCalls_succ, after_append, ih, after, BoundedFifo.call, hb]
  rw [pumpCalls, after_append, hpairs]
  induction k with
  | zero => rfl
  | succ k ih =>
    rw [List.replicate_succ', after_append, ih (by omega), List.replicate_succ']
    simp [after, BoundedFifo.call, show k < bound from hk]

/-- When `2 ^ 32 - 1` elements have been pushed, the next push reads its successor counter as `0`:
with `readIndex_` at a multiple of the capacity it is refused, however few elements are queued. -/
theorem push_refused_at_wrap {q : LockfreeQueue T} {c n : ℕ} {l : List T}
    (hq : q.Represents c n l) (hn : n + l.length = 2 ^ 32 - 1) (hdvd : c ∣ n) (v : T) :
    q.push v = (q, false) := by
  refine push_of_isFull ?_ v
  have hwrap : uint32 (n + l.length + 1) = 0 := by rw [hn]; rfl
  have hread : uint32 n = n := uint32_of_lt (by omega)
  rw [isFull, beq_iff_eq, count2Index, count2Index, hq.capicity, hq.write, hq.read, uint32_succ,
    hwrap, hread, Nat.zero_mod, Nat.mod_eq_zero_of_dvd hdvd]

/-- For a capacity that does not divide `2 ^ 32` some multiple `n` of it lies fewer than `c - 1`
counters before `2 ^ 32 - 1`. -/
theorem exists_wrap_point {c : ℕ} (hc : 2 ≤ c) (hdvd : ¬ c ∣ 2 ^ 32) :
    ∃ n k, k < c - 1 ∧ n + k = 2 ^ 32 - 1 ∧ c ∣ n := by
  refine ⟨2 ^ 32 - 1 - (2 ^ 32 - 1) % c, (2 ^ 32 - 1) % c, ?_, ?_, ?_⟩
  · have hlt : (2 ^ 32 - 1) % c < c := Nat.mod_lt _ (by omega)
    have hne : (2 ^ 32 - 1) % c ≠ c - 1 := fun h => hdvd (by
      have hdm := Nat.div_add_mod (2 ^ 32 - 1) c
      rw [h] at hdm
      exact ⟨(2 ^ 32 - 1) / c + 1, by rw [Nat.mul_add]; omega⟩)
    omega
  · have := Nat.mod_le (2 ^ 32 - 1) c
    omega
  · exact Nat.dvd_sub_mod _

/-- The queue is a bounded FIFO for runs of whole calls of any length exactly when its capacity
divides `2 ^ 32`; for every capacity it is one for runs of fewer than `2 ^ 32` pushes. -/
theorem isBoundedFifo_iff {c : ℕ} (hc : 2 ≤ c) (hc32 : c < 2 ^ 32) (mem : ℕ → T) :
    ((∀ cs, answers call (new c mem) cs = answers (BoundedFifo.call (c - 1)) [] cs) ↔
      c ∣ 2 ^ 32) ∧
    ∀ cs, pushCount cs < 2 ^ 32 →
      answers call (new c mem) cs = answers (BoundedFifo.call (c - 1)) [] cs := by
  refine ⟨⟨fun h => ?_, fun hdvd cs => ?_⟩, fun cs hcs => ?_⟩
  · by_contra hdvd
    obtain ⟨n, k, hk, hn, hcn⟩ := exists_wrap_point hc hdvd
    have hq := represents_pumpCalls hc hc32 mem (mem 0) (n := n) (k := k) (by omega) (by omega)
    have hrefused := push_refused_at_wrap hq (by rw [List.length_replicate]; exact hn) hcn (mem 0)
    have hlast := h (pumpCalls (mem 0) n k ++ [Call.push (mem 0)])
    rw [answers_append, answers_append, h (pumpCalls (mem 0) n k), List.append_cancel_left_eq,
      fifo_pumpCalls (by omega) _ _ (by omega)] at hlast
    simp [answers, call, hrefused, BoundedFifo.call, hk] at hlast
  · exact answers_eq_fifo (by omega) hc32 mem cs fun n _ => slotOk_of_dvd hdvd n
  · exact answers_eq_fifo (by omega) hc32 mem cs fun n hn => slotOk_of_lt (by omega)

theorem isBoundedFifo_iff_four :
    ((∀ cs, answers call (new 4 fun _ => 0) cs = answers (BoundedFifo.call 3) [] cs) ↔
      4 ∣ 2 ^ 32) ∧
    ∀ cs, pushCount cs < 2 ^ 32 →
      answers call (new 4 fun _ => 0) cs = answers (BoundedFifo.call 3) [] cs :=
  isBoundedFifo_iff (by norm_num) (by norm_num) fun _ => 0

/-- With the default capacity, after `2 ^ 32 - 1` accepted pushes and all but 4095 of them popped
again, a push is refused although the bounded FIFO accepts it. -/
theorem default_capicity_refuses_early :
    let calls := pumpCalls 7 (2 ^ 32 - 1 - 4095) 4095
    let q := after call (new DefaultCapicity fun _ => 0) calls
    q.Represents DefaultCapicity (2 ^ 32 - 1 - 4095) (List.replicate 4095 7) ∧
      4095 < DefaultCapicity - 1 ∧ q.push 7 = (q, false) ∧
      answers call (new DefaultCapicity fun _ => 0) (calls ++ [.push 7]) ≠
        answers (BoundedFifo.call (DefaultCapicity - 1)) [] (calls ++ [.push 7]) := by
  intro calls q
  have hrep : q.Represents DefaultCapicity (2 ^ 32 - 1 - 4095) (List.replicate 4095 7) :=
    represents_pumpCalls (by decide) (by decide) _ _ (by decide) (by decide)
  have hrefused : q.push 7 = (q, false) :=
    push_refused_at_wrap hrep (by rw [List.length_replicate]; norm_num) (by decide) 7
  refine ⟨hrep, by decide, hrefused, fun h => ?_⟩
  have hlen := congrArg List.getLast? h
  rw [answers_append, answers_append,
    fifo_pumpCalls (by decide) 7 (2 ^ 32 - 1 - 4095) (show 4095 ≤ DefaultCapicity - 1 by decide)]
    at hlen
  simp only [answers, List.getLast?_append, List.getLast?_singleton, Option.some_or,
    Option.some_inj, call, BoundedFifo.call, List.length_replicate] at hlen
  rw [if_pos (show 4095 < DefaultCapicity - 1 by decide)] at hlen
  rw [show after call (new DefaultCapicity fun _ => 0) calls = q from rfl, hrefused] at hlen
  exact absurd hlen (by decide)

end LockfreeQueue

end CoUringWeb
