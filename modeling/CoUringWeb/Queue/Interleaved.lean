import CoUringWeb.Framework.Transition
import CoUringWeb.Queue.LockfreeQueue

/-!
# `LockfreeQueue`: one producer, any number of consumers

The calls of `LockfreeQueue.lean` taken apart into their atomic steps: each load of an index, the
slot copy, the increment of `writeIndex_` and the compare-exchange on `readIndex_` is one step,
and the steps of the producer and of the consumers interleave in any order.

`pushed` and `popped` record the values in the order of the successful `fetch_add`s and
compare-exchanges, and `refused` how many elements were queued when a push that returned `false`
loaded `readIndex_`.

The invariant `Inv` relates every program counter to the counters.  A consumer that holds a stale
index `r < popped.length` may copy a slot the producer is reusing; what it copied is then never
returned, because `readIndex_` only grows and its compare-exchange fails.  A consumer whose index
is still `popped.length` copied the right element, because the producer never writes into the
window of queued elements: that needs the full test only below `2 ^ 32 - 1` pushes.  At
`2 ^ 32 - 1` the successor counter wraps to `0` and the full test may refuse a push that has room
(`NoWrapClash` is the exception), but it still protects the queued elements.
-/

namespace CoUringWeb

open Machine

namespace LockfreeQueue

variable {T C : Type*}

/-! ## Atomic steps -/

/-- Where the producer stands in `push`. -/
inductive ProducerPc (T : Type*) where
  /-- not in a call -/
  | idle
  /-- `writeIndex_` is loaded -/
  | loaded (data : T) (currentWriteIndex : ℕ)
  /-- `readIndex_` is loaded and the queue is not full -/
  | checked (data : T) (currentWriteIndex : ℕ)
  /-- the slot is written -/
  | copied (data : T)

/-- Where a consumer stands in `pop`. -/
inductive ConsumerPc (T : Type*) where
  /-- not in a call, or back at the head of the loop -/
  | idle
  /-- `readIndex_` is loaded -/
  | loaded (currentReadIndex : ℕ)
  /-- `writeIndex_` is loaded and differs -/
  | checked (currentReadIndex : ℕ)
  /-- the slot is copied to `data` -/
  | copied (currentReadIndex : ℕ) (data : T)

/-- The queue, the program counters of its users, and the history of the run. -/
structure Conc (C T : Type*) where
  queue : LockfreeQueue T
  producer : ProducerPc T
  consumer : C → ConsumerPc T
  pushed : List T
  popped : List T
  refused : List ℕ

/-- Whose turn it is; a push is started with its argument. -/
inductive Turn (C T : Type*) where
  | push (data : T)
  | producer
  | consumer (c : C)

/-- A fresh queue that nobody uses yet. -/
def Conc.new (capicity : ℕ) (mem : ℕ → T) : Conc C T :=
  { queue := LockfreeQueue.new capicity mem, producer := .idle, consumer := fun _ => .idle
    pushed := [], popped := [], refused := [] }

/-- The producer's next atomic step. -/
def producerStep (s : Conc C T) : Option (Conc C T) :=
  match s.producer with
  | .idle => none
  | .loaded data currentWriteIndex =>
    if s.queue.isFull currentWriteIndex s.queue.readIndex_ then
      some { s with
        producer := .idle
        refused := s.refused ++ [s.pushed.length - s.popped.length] }
    else some { s with producer := .checked data currentWriteIndex }
  | .checked data currentWriteIndex =>
    some { s with
      producer := .copied data
      queue := { s.queue with
        queue_ := Function.update s.queue.queue_ (s.queue.count2Index currentWriteIndex) data } }
  | .copied data =>
    some { s with
      producer := .idle
      queue := { s.queue with writeIndex_ := uint32 (s.queue.writeIndex_ + 1) }
      pushed := s.pushed ++ [data] }

/-- Moves the consumer `c` to the program counter `pc`. -/
def Conc.setConsumer [DecidableEq C] (s : Conc C T) (c : C) (pc : ConsumerPc T) : Conc C T :=
  { s with consumer := Function.update s.consumer c pc }

/-- The next atomic step of the consumer `c`. -/
def consumerStep [DecidableEq C] (s : Conc C T) (c : C) : Conc C T :=
  match s.consumer c with
  | .idle => s.setConsumer c (.loaded s.queue.readIndex_)
  | .loaded currentReadIndex =>
    if currentReadIndex = s.queue.writeIndex_ then s.setConsumer c .idle
    else s.setConsumer c (.checked currentReadIndex)
  | .checked currentReadIndex =>
    s.setConsumer c
      (.copied currentReadIndex (s.queue.queue_ (s.queue.count2Index currentReadIndex)))
  | .copied currentReadIndex data =>
    if s.queue.readIndex_ = currentReadIndex then
      { s.setConsumer c .idle with
        queue := { s.queue with readIndex_ := uint32 (currentReadIndex + 1) }
        popped := s.popped ++ [data] }
    else s.setConsumer c .idle

/-- One atomic step. -/
def turn [DecidableEq C] (s : Conc C T) : Turn C T → Option (Conc C T)
  | .push data =>
    match s.producer with
    | .idle => some { s with producer := .loaded data s.queue.writeIndex_ }
    | _ => none
  | .producer => producerStep s
  | .consumer c => some (consumerStep s c)

/-! ## The invariant -/

/-- What the producer's program counter promises. -/
def ProducerInv (c : ℕ) (s : Conc C T) : Prop :=
  match s.producer with
  | .idle => True
  | .loaded _ w => w = s.pushed.length
  | .checked _ w => w = s.pushed.length ∧ (w + 1 < 2 ^ 32 → w + 1 - s.popped.length < c)
  | .copied data =>
    s.queue.queue_ (s.pushed.length % c) = data ∧
      (s.pushed.length + 1 < 2 ^ 32 → s.pushed.length + 1 - s.popped.length < c)

/-- What a consumer's program counter promises: an index it holds is at most `readIndex_`, and what
it copied at the current `readIndex_` is the element there. -/
def ConsumerInv (s : Conc C T) : ConsumerPc T → Prop
  | .idle => True
  | .loaded r => r ≤ s.popped.length
  | .checked r => r ≤ s.popped.length ∧ r < s.pushed.length
  | .copied r data =>
    r ≤ s.popped.length ∧ r < s.pushed.length ∧
      (r = s.popped.length → s.pushed[r]? = some data)

/-- The invariant of the runs with fewer than `2 ^ 32` accepted pushes. -/
structure Inv (c : ℕ) (s : Conc C T) : Prop where
  capicity : s.queue.capicity_ = c
  few : s.pushed.length < 2 ^ 32
  write : s.queue.writeIndex_ = s.pushed.length
  read : s.queue.readIndex_ = s.popped.length
  fifo : s.popped <+: s.pushed
  room : s.pushed.length - s.popped.length < c
  holds : Ring.Holds s.queue.queue_ c s.popped.length (s.pushed.drop s.popped.length)
  producer : ProducerInv c s
  consumer : ∀ i, ConsumerInv s (s.consumer i)

theorem inv_new {c : ℕ} (hc : 0 < c) (mem : ℕ → T) : Inv c (Conc.new c mem : Conc C T) where
  capicity := rfl
  few := by show 0 < 2 ^ 32; norm_num
  write := rfl
  read := rfl
  fifo := List.nil_prefix
  room := hc
  holds := Ring.holds_nil _ _ _
  producer := trivial
  consumer _ := trivial

theorem Inv.popped_le {c : ℕ} {s : Conc C T} (h : Inv c s) : s.popped.length ≤ s.pushed.length :=
  h.fifo.length_le

/-- The slot after the queued elements is that of `pushed.length`. -/
theorem Inv.next_slot {c : ℕ} {s : Conc C T} (h : Inv c s) :
    s.popped.length + (s.pushed.drop s.popped.length).length = s.pushed.length := by
  rw [List.length_drop, Nat.add_sub_cancel' h.popped_le]

/-- What the full test says of the loaded counters: below the wrap it counts the elements, at the
wrap it only asks whether `readIndex_` is a multiple of the capacity. -/
theorem Inv.isFull_iff {c : ℕ} {s : Conc C T} (h : Inv c s) :
    s.queue.isFull s.pushed.length s.queue.readIndex_ = true ↔
      if s.pushed.length + 1 = 2 ^ 32 then s.popped.length % c = 0
      else s.pushed.length - s.popped.length = c - 1 := by
  have hfew := h.few
  have hpop := h.popped_le
  have hroom := h.room
  rw [isFull, beq_iff_eq, count2Index, count2Index, h.capicity, h.read]
  split
  · rename_i hwrap
    rw [hwrap, show uint32 (2 ^ 32) = 0 from rfl, Nat.zero_mod, eq_comm]
  · rw [uint32_of_lt (by omega)]
    exact Ring.next_slot_eq_iff hpop (by omega)

theorem inv_producerStep {c : ℕ} {s t : Conc C T} (h : Inv c s) (hstep : producerStep s = some t)
    (hfew : t.pushed.length < 2 ^ 32) : Inv c t := by
  have hprod := h.producer
  have hpop := h.popped_le
  have hroom := h.room
  have hslot := h.next_slot
  unfold producerStep at hstep
  unfold ProducerInv at hprod
  split at hstep
  · cases hstep
  · rename_i data w hpc
    rw [hpc] at hprod
    simp only at hprod
    subst hprod
    split at hstep <;> rename_i hfull <;> cases hstep
    · exact { h with producer := trivial }
    · refine { h with producer := ⟨rfl, fun hw => ?_⟩ }
      rw [h.isFull_iff, if_neg (by omega)] at hfull
      show s.pushed.length + 1 - s.popped.length < c
      omega
  · rename_i data w hpc
    rw [hpc] at hprod
    obtain ⟨rfl, hcheck⟩ := hprod
    cases hstep
    have hindex : s.queue.count2Index s.pushed.length =
        (s.popped.length + (s.pushed.drop s.popped.length).length) % c := by
      rw [hslot, count2Index, h.capicity]
    refine { h with holds := ?_, producer := ⟨?_, hcheck⟩ }
    · show Ring.Holds (Function.update s.queue.queue_ _ data) c _ _
      rw [hindex]
      exact Ring.holds_update (by rw [List.length_drop]; exact hroom) h.holds data
    · show Function.update s.queue.queue_ _ data _ = data
      rw [count2Index, h.capicity, Function.update_self]
  · rename_i data hpc
    rw [hpc] at hprod
    obtain ⟨hdata, hcheck⟩ := hprod
    cases hstep
    have hlen : (s.pushed ++ [data]).length = s.pushed.length + 1 := by simp
    simp only [hlen] at hfew
    refine
      { h with
        few := by simpa only [hlen] using hfew
        write := ?_
        fifo := h.fifo.trans (List.prefix_append _ _)
        room := ?_
        holds := ?_
        producer := trivial
        consumer := fun i => ?_ }
    · show uint32 (s.queue.writeIndex_ + 1) = (s.pushed ++ [data]).length
      rw [h.write, uint32_of_lt hfew, hlen]
    · show (s.pushed ++ [data]).length - s.popped.length < c
      rw [hlen]
      exact hcheck hfew
    · show Ring.Holds s.queue.queue_ c _ ((s.pushed ++ [data]).drop s.popped.length)
      rw [List.drop_append_of_le_length hpop, Ring.holds_concat, hslot]
      exact ⟨h.holds, hdata⟩
    · have hi := h.consumer i
      show ConsumerInv _ (s.consumer i)
      cases hpc' : s.consumer i <;> rw [hpc'] at hi <;> simp only [ConsumerInv, hlen] at hi ⊢
      · exact hi
      · exact ⟨hi.1, by omega⟩
      · refine ⟨hi.1, by omega, fun hr => ?_⟩
        rw [List.getElem?_append_left hi.2.1]
        exact hi.2.2 hr

/-- Moving one consumer to a program counter that keeps its promise keeps the invariant. -/
theorem Inv.setConsumer [DecidableEq C] {c : ℕ} {s : Conc C T} (h : Inv c s) (i : C)
    {pc : ConsumerPc T}
    (hpc : ConsumerInv s pc) : Inv c (s.setConsumer i pc) := by
  refine { h with consumer := fun j => ?_ }
  show ConsumerInv s (Function.update s.consumer i pc j)
  by_cases hj : j = i
  · rw [hj, Function.update_self]
    exact hpc
  · rw [Function.update_of_ne hj]
    exact h.consumer j

/-- The element at `readIndex_`, when there is one. -/
theorem Inv.slot_read {c : ℕ} {s : Conc C T} (h : Inv c s)
    (hlt : s.popped.length < s.pushed.length) :
    s.pushed[s.popped.length]? =
      some (s.queue.queue_ (s.queue.count2Index s.popped.length)) := by
  have hdrop : 0 < (s.pushed.drop s.popped.length).length := by
    rw [List.length_drop]
    omega
  have hhead := h.holds 0 hdrop
  rw [Nat.add_zero, List.getElem_drop] at hhead
  rw [count2Index, h.capicity, hhead, List.getElem?_eq_getElem (by simpa using hlt)]
  simp

/-- A successful compare-exchange returns the oldest queued element. -/
theorem Inv.pop [DecidableEq C] {c : ℕ} {s : Conc C T} (h : Inv c s) (i : C) {data : T}
    (hdata : s.pushed[s.popped.length]? = some data) :
    Inv c
      { s.setConsumer i .idle with
        queue := { s.queue with readIndex_ := uint32 (s.popped.length + 1) }
        popped := s.popped ++ [data] } := by
  have hlt : s.popped.length < s.pushed.length := (List.getElem?_eq_some_iff.1 hdata).1
  have hfew := h.few
  have hroom := h.room
  have hlen : (s.popped ++ [data]).length = s.popped.length + 1 := by simp
  have hsplit : s.pushed.drop s.popped.length = data :: s.pushed.drop (s.popped.length + 1) := by
    rw [List.drop_eq_getElem_cons hlt]
    rw [List.getElem?_eq_getElem hlt] at hdata
    rw [Option.some_inj.1 hdata]
  have hbase : Inv c (s.setConsumer i .idle) := h.setConsumer i trivial
  refine
    { hbase with
      read := ?_
      fifo := ?_
      room := ?_
      holds := ?_
      producer := ?_
      consumer := fun j => ?_ }
  · show uint32 (s.popped.length + 1) = (s.popped ++ [data]).length
    rw [hlen, uint32_of_lt (by omega)]
  · show s.popped ++ [data] <+: s.pushed
    have htake : s.popped = s.pushed.take s.popped.length := List.prefix_iff_eq_take.1 h.fifo
    refine ⟨s.pushed.drop (s.popped.length + 1), ?_⟩
    calc s.popped ++ [data] ++ s.pushed.drop (s.popped.length + 1)
        = s.popped ++ s.pushed.drop s.popped.length := by rw [hsplit]; simp
      _ = s.pushed.take s.popped.length ++ s.pushed.drop s.popped.length := by rw [← htake]
      _ = s.pushed := List.take_append_drop _ _
  · show s.pushed.length - (s.popped ++ [data]).length < c
    omega
  · show Ring.Holds s.queue.queue_ c (s.popped ++ [data]).length
      (s.pushed.drop (s.popped ++ [data]).length)
    rw [hlen]
    have hholds := h.holds
    rw [hsplit, Ring.holds_cons] at hholds
    exact hholds.2
  · have hprod := h.producer
    unfold ProducerInv at hprod ⊢
    simp only [Conc.setConsumer, hlen]
    split <;> rename_i hpc <;> rw [hpc] at hprod
    · trivial
    · exact hprod
    · exact ⟨hprod.1, fun hw => by have := hprod.2 hw; omega⟩
    · exact ⟨hprod.1, fun hw => by have := hprod.2 hw; omega⟩
  · have hj := hbase.consumer j
    show ConsumerInv _ ((s.setConsumer i .idle).consumer j)
    cases hpc : (s.setConsumer i .idle).consumer j <;> rw [hpc] at hj <;>
      simp only [ConsumerInv, Conc.setConsumer, hlen] at hj ⊢
    · omega
    · omega
    · exact ⟨by omega, hj.2.1, fun hr => absurd hr (by omega)⟩

theorem inv_consumerStep [DecidableEq C] {c : ℕ} {s : Conc C T} (h : Inv c s) (i : C) :
    Inv c (consumerStep s i) := by
  have hi := h.consumer i
  have hpop := h.popped_le
  unfold consumerStep
  split <;> rename_i hpc <;> rw [hpc] at hi <;> simp only [ConsumerInv] at hi
  · exact h.setConsumer i h.read.le
  · rename_i r
    split <;> rename_i hr
    · exact h.setConsumer i trivial
    · rw [h.write] at hr
      exact h.setConsumer i ⟨hi, by omega⟩
  · rename_i r
    refine h.setConsumer i ⟨hi.1, hi.2, fun hr => ?_⟩
    subst hr
    exact h.slot_read hi.2
  · rename_i r data
    split <;> rename_i hr
    · rw [h.read] at hr
      subst hr
      exact h.pop i (hi.2.2 rfl)
    · exact h.setConsumer i trivial

theorem inv_turn [DecidableEq C] {c : ℕ} {s t : Conc C T} {a : Turn C T} (h : Inv c s)
    (hstep : turn s a = some t) (hfew : t.pushed.length < 2 ^ 32) : Inv c t := by
  cases a with
  | push data =>
    simp only [turn] at hstep
    split at hstep <;> cases hstep
    exact { h with producer := h.write }
  | producer => exact inv_producerStep h hstep hfew
  | consumer i =>
    cases hstep
    exact inv_consumerStep h i

/-- Steps only append to the history. -/
theorem history_turn [DecidableEq C] {s t : Conc C T} {a : Turn C T} (hstep : turn s a = some t) :
    s.pushed <+: t.pushed ∧ s.popped <+: t.popped ∧ s.refused <+: t.refused := by
  cases a with
  | push data =>
    simp only [turn] at hstep
    split at hstep <;> cases hstep
    simp
  | producer =>
    simp only [turn, producerStep] at hstep
    split at hstep
    · cases hstep
    · split at hstep <;> cases hstep <;> simp
    · cases hstep
      simp
    · cases hstep
      simp
  | consumer i =>
    simp only [turn, consumerStep] at hstep
    cases hstep
    split
    · simp [Conc.setConsumer]
    · split <;> simp [Conc.setConsumer]
    · simp [Conc.setConsumer]
    · split <;> simp [Conc.setConsumer]

/-! ## Runs -/

/-- Every push that returned `false` found the queue full. -/
def RefusedOnlyWhenFull (c : ℕ) (s : Conc C T) : Prop := ∀ n ∈ s.refused, n = c - 1

/-- The turn is not the full test of a push after `2 ^ 32 - 1` accepted ones that finds
`readIndex_` at a multiple of the capacity without the queue being full. -/
def NoWrapClash (c : ℕ) (s : Conc C T) : Turn C T → Prop
  | .producer =>
    match s.producer with
    | .loaded _ currentWriteIndex =>
      currentWriteIndex + 1 = 2 ^ 32 → s.queue.readIndex_ % c = 0 →
        s.queue.readIndex_ + c = 2 ^ 32
    | _ => True
  | _ => True

/-- A turn refuses a push exactly when it is a full test that succeeds, and then it records how
many elements are queued. -/
theorem refused_turn [DecidableEq C] {c : ℕ} {s t : Conc C T} {a : Turn C T} (h : Inv c s)
    (hstep : turn s a = some t) :
    t.refused = s.refused ∨
      (a = .producer ∧ (∃ data, s.producer = .loaded data s.pushed.length) ∧
        s.queue.isFull s.pushed.length s.queue.readIndex_ = true ∧
        t.refused = s.refused ++ [s.pushed.length - s.popped.length]) := by
  cases a with
  | push data =>
    simp only [turn] at hstep
    split at hstep <;> cases hstep
    exact Or.inl rfl
  | producer =>
    have hprod := h.producer
    simp only [turn, producerStep] at hstep
    unfold ProducerInv at hprod
    split at hstep
    · cases hstep
    · rename_i data w hpc
      rw [hpc] at hprod
      simp only at hprod
      subst hprod
      split at hstep <;> rename_i hfull <;> cases hstep
      · exact Or.inr ⟨rfl, ⟨data, hpc⟩, hfull, rfl⟩
      · exact Or.inl rfl
    · cases hstep
      exact Or.inl rfl
    · cases hstep
      exact Or.inl rfl
  | consumer i =>
    simp only [turn, consumerStep] at hstep
    cases hstep
    left
    split
    · rfl
    · split <;> rfl
    · rfl
    · split <;> rfl

/-- With the invariant, a full test that succeeds meets `NoWrapClash` exactly when the queue is
full. -/
theorem Inv.noWrapClash_iff {c : ℕ} (hc : 0 < c) {s : Conc C T} (h : Inv c s) {data : T}
    (hpc : s.producer = .loaded data s.pushed.length)
    (hfull : s.queue.isFull s.pushed.length s.queue.readIndex_ = true) :
    NoWrapClash c s .producer ↔ s.pushed.length - s.popped.length = c - 1 := by
  have hpop := h.popped_le
  rw [h.isFull_iff] at hfull
  simp only [NoWrapClash, hpc, h.read]
  split at hfull
  · rename_i hw
    constructor
    · intro hcond
      have := hcond hw hfull
      omega
    · intro hlen _ _
      omega
  · rename_i hw
    exact ⟨fun _ => hfull, fun _ hw' => absurd hw' hw⟩

theorem pushed_lt_of_turn [DecidableEq C] {s t : Conc C T} {a : Turn C T}
    (hstep : turn s a = some t) (hfew : t.pushed.length < 2 ^ 32) : s.pushed.length < 2 ^ 32 :=
  lt_of_le_of_lt (history_turn hstep).1.length_le hfew

/-- A turn that refuses no push with room left meets `NoWrapClash`. -/
theorem noWrapClash_of_refused [DecidableEq C] {c : ℕ} (hc : 0 < c) {s t : Conc C T}
    {a : Turn C T} (h : Inv c s) (hstep : turn s a = some t) (hok : RefusedOnlyWhenFull c t) :
    NoWrapClash c s a := by
  rcases refused_turn h hstep with hsame | ⟨rfl, ⟨data, hpc⟩, hfull, happ⟩
  · cases a with
    | push _ => trivial
    | consumer _ => trivial
    | producer =>
      have hprod := h.producer
      unfold ProducerInv at hprod
      simp only [NoWrapClash]
      split
      · rename_i data w hpc
        rw [hpc] at hprod
        simp only at hprod
        subst hprod
        -- a successful full test would have been recorded
        intro hw hread
        have hfull : s.queue.isFull s.pushed.length s.queue.readIndex_ = true := by
          rw [h.isFull_iff, if_pos hw]
          rwa [h.read] at hread
        simp only [turn, producerStep, hpc, hfull, if_true] at hstep
        cases hstep
        simp at hsame
      · trivial
  · rw [h.noWrapClash_iff hc hpc hfull]
    exact hok _ (by rw [happ]; simp)

/-- A turn that meets `NoWrapClash` refuses no push with room left. -/
theorem refused_of_noWrapClash [DecidableEq C] {c : ℕ} (hc : 0 < c) {s t : Conc C T}
    {a : Turn C T} (h : Inv c s) (hstep : turn s a = some t) (hok : RefusedOnlyWhenFull c s)
    (hclash : NoWrapClash c s a) : RefusedOnlyWhenFull c t := by
  intro n hn
  rcases refused_turn h hstep with hsame | ⟨rfl, ⟨data, hpc⟩, hfull, happ⟩
  · exact hok n (hsame ▸ hn)
  · rw [happ, List.mem_append, List.mem_singleton] at hn
    rcases hn with hn | rfl
    · exact hok n hn
    · exact (h.noWrapClash_iff hc hpc hfull).1 hclash

/-- For every capacity and every interleaving with fewer than `2 ^ 32` accepted pushes: the values
popped, in the order of their compare-exchanges, are the first of the values pushed, and pushes
are refused only by a full queue, exactly when no full test clashes with the wrap of
`writeIndex_`. -/
theorem interleaved_fifo_iff [DecidableEq C] {c : ℕ} (hc : 1 ≤ c) (mem : ℕ → T)
    {as : List (Turn C T)} {s : Conc C T}
    (hrun : Transition.run turn (Conc.new c mem) as = some s) (hfew : s.pushed.length < 2 ^ 32) :
    (s.popped <+: s.pushed ∧ RefusedOnlyWhenFull c s) ↔
      Transition.Always turn (NoWrapClash c) (Conc.new c mem) as := by
  have hstart : Inv c (Conc.new c mem : Conc C T) := inv_new hc mem
  constructor
  · rintro ⟨-, hrefused⟩
    exact Transition.always_of_run
      (I := fun u => u.pushed.length < 2 ^ 32 → Inv c u)
      (B := fun u => ¬ (u.pushed.length < 2 ^ 32 ∧ RefusedOnlyWhenFull c u))
      (fun u a v hu hstep hv => inv_turn (hu (pushed_lt_of_turn hstep hv)) hstep hv)
      (fun u a v hu hclash hstep hv => hclash
        (noWrapClash_of_refused hc (hu (pushed_lt_of_turn hstep hv.1)) hstep hv.2))
      (fun u a v hu hstep hv => hu ⟨pushed_lt_of_turn hstep hv.1, fun n hn =>
        hv.2 n ((history_turn hstep).2.2.subset hn)⟩)
      (fun _ => hstart) hrun (not_not_intro ⟨hfew, hrefused⟩)
  · intro halways
    have hend := Transition.run_invariant_of_always
      (I := fun u => u.pushed.length < 2 ^ 32 → Inv c u ∧ RefusedOnlyWhenFull c u)
      (fun u a v hu hclash hstep hv =>
        have hinv := (hu (pushed_lt_of_turn hstep hv)).1
        ⟨inv_turn hinv hstep hv, refused_of_noWrapClash hc hinv hstep
          (hu (pushed_lt_of_turn hstep hv)).2 hclash⟩)
      (fun _ => ⟨hstart, fun n hn => absurd hn List.not_mem_nil⟩) halways hrun hfew
    exact ⟨hend.1.fifo, hend.2⟩

theorem interleaved_fifo_iff_push_pop :
    let turns : List (Turn ℕ ℕ) :=
      [.push 5, .consumer 0, .producer, .consumer 1, .producer, .producer, .consumer 1,
        .consumer 1, .consumer 1]
    ∃ s, Transition.run turn (Conc.new 3 fun _ => 0) turns = some s ∧ s.popped = [5] ∧
      ((s.popped <+: s.pushed ∧ RefusedOnlyWhenFull 3 s) ↔
        Transition.Always turn (NoWrapClash 3) (Conc.new 3 fun _ => 0) turns) :=
  ⟨_, rfl, rfl, interleaved_fifo_iff (by norm_num) _ rfl (by decide)⟩

/-! ## The clash with the wrap -/

/-- The turns of one undisturbed push of `0` and one undisturbed pop. -/
def pairTurns : List (Turn Unit ℕ) :=
  [.push 0, .producer, .producer, .producer, .consumer (), .consumer (), .consumer (),
    .consumer ()]

/-- The state after `k` undisturbed pairs on a queue of capacity 3. -/
def pairState (k : ℕ) : Conc Unit ℕ :=
  { queue := { writeIndex_ := k, readIndex_ := k, capicity_ := 3, queue_ := fun _ => 0 }
    producer := .idle, consumer := fun _ => .idle
    pushed := List.replicate k 0, popped := List.replicate k 0, refused := [] }

theorem run_pairTurns {k : ℕ} (hk : k < 2 ^ 32 - 1) :
    Transition.run turn (pairState k) pairTurns = some (pairState (k + 1)) := by
  have hsucc : uint32 (k + 1) = k + 1 := uint32_of_lt (by omega)
  have hroom : ¬ (k + 1) % 3 = k % 3 := by omega
  simp [pairTurns, pairState, Transition.run, turn, producerStep, consumerStep, Conc.setConsumer,
    isFull, count2Index, hsucc, hroom, List.replicate_succ']

/-- After `2 ^ 32 - 1` pairs the full test compares slot `0` with slot `0`. -/
theorem run_push_at_wrap {k : ℕ} (hk : k + 1 = 2 ^ 32) :
    Transition.run turn (pairState k) [.push 0, .producer] =
      some { pairState k with refused := [0] } := by
  have hfull : (pairState k).queue.isFull k k = true := by
    have hwrap : uint32 (k + 1) = 0 := by rw [hk]; rfl
    have hread : k % 3 = 0 := by omega
    rw [isFull, beq_iff_eq, count2Index, count2Index, hwrap]
    exact hread.symm
  have hnone : (pairState k).pushed.length - (pairState k).popped.length = 0 := Nat.sub_self _
  rw [Transition.run_cons]
  refine ⟨{ pairState k with producer := .loaded 0 k }, rfl, ?_⟩
  rw [Transition.run_singleton]
  simp only [turn, producerStep]
  rw [if_pos (show (pairState k).queue.isFull k (pairState k).queue.readIndex_ = true from hfull),
    hnone]
  rfl

/-- A run on a queue of capacity 3 with `2 ^ 32 - 1` accepted pushes, all of them popped, after
which a push is refused by the empty queue. -/
theorem push_refused_by_empty_queue :
    let turns := (List.replicate (2 ^ 32 - 1) pairTurns).flatten ++ [.push 0, .producer]
    ∃ s, Transition.run turn (Conc.new 3 fun _ => 0) turns = some s ∧
      s.pushed.length = 2 ^ 32 - 1 ∧ s.popped.length = 2 ^ 32 - 1 ∧ s.refused = [0] ∧
      ¬ RefusedOnlyWhenFull 3 s := by
  have hpairs : Transition.run turn (pairState 0) (List.replicate (2 ^ 32 - 1) pairTurns).flatten =
      some (pairState (2 ^ 32 - 1)) := Transition.run_replicate fun k hk => run_pairTurns hk
  refine ⟨{ pairState (2 ^ 32 - 1) with refused := [0] },
    Transition.run_append.2 ⟨_, hpairs, run_push_at_wrap (by norm_num)⟩,
    List.length_replicate, List.length_replicate, rfl, fun h => ?_⟩
  exact absurd (h 0 (List.mem_singleton.2 rfl)) (by norm_num)

/-! ## Undisturbed calls -/

/-- A push whose steps no other party disturbs does what the whole call does. -/
theorem run_push_alone [DecidableEq C] {s : Conc C T} (hidle : s.producer = .idle) (v : T) :
    ∃ n t, Transition.run turn s (.push v :: List.replicate n .producer) = some t ∧
      t.queue = (s.queue.push v).1 ∧ t.producer = .idle ∧ t.consumer = s.consumer ∧
      t.pushed = (if (s.queue.push v).2 then s.pushed ++ [v] else s.pushed) := by
  by_cases hfull : s.queue.isFull s.queue.writeIndex_ s.queue.readIndex_ = true
  · refine ⟨1, { s with
      producer := .idle
      refused := s.refused ++ [s.pushed.length - s.popped.length] }, ?_, ?_, rfl, rfl, ?_⟩
    · simp [Transition.run, turn, producerStep, hidle, hfull]
    · rw [push_of_isFull hfull]
    · rw [push_of_isFull hfull]
      rfl
  · refine ⟨3, { s with
      producer := .idle
      queue := (s.queue.push v).1
      pushed := s.pushed ++ [v] }, ?_, rfl, rfl, rfl, ?_⟩
    · rw [push_of_not_isFull hfull]
      simp [Transition.run, turn, producerStep, hidle, hfull, count2Index]
    · rw [push_of_not_isFull hfull]
      rfl

/-- A pop whose steps no other party disturbs does what the whole call does. -/
theorem run_pop_alone [DecidableEq C] {s : Conc C T} {i : C} (hidle : s.consumer i = .idle) :
    ∃ n t, Transition.run turn s (List.replicate n (.consumer i)) = some t ∧
      t.queue = s.queue.pop.1 ∧ t.producer = s.producer ∧ t.consumer = s.consumer ∧
      t.popped = s.popped ++ s.queue.pop.2.toList := by
  have hback : Function.update s.consumer i .idle = s.consumer := by
    rw [← hidle, Function.update_eq_self]
  by_cases hempty : s.queue.readIndex_ = s.queue.writeIndex_
  · refine ⟨2, s, ?_, ?_, rfl, rfl, ?_⟩
    · simp [Transition.run, turn, consumerStep, Conc.setConsumer, hidle, hempty, hback]
    · rw [pop, if_pos hempty]
    · rw [pop, if_pos hempty]
      simp
  · refine ⟨4, { s with
      queue := s.queue.pop.1
      popped := s.popped ++ s.queue.pop.2.toList }, ?_, rfl, rfl, rfl, rfl⟩
    rw [pop, if_neg hempty]
    simp [Transition.run, turn, consumerStep, Conc.setConsumer, hidle, hempty, hback,
      count2Index]

end LockfreeQueue

end CoUringWeb
