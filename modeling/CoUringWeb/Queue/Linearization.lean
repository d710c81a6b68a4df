import CoUringWeb.Queue.Interleaved

/-!
# `LockfreeQueue`: the calls of an interleaved run

A call of the interleaved queue takes effect at its last atomic step, the one at which it returns:
a refused push at its load of `readIndex_`, an accepted one at its `fetch_add`, a pop that fails at
its load of `writeIndex_`, and one that succeeds at its compare-exchange.  `returned` reads that
step off a state, and `linearized_iff` says that in the order of their returns the calls of any
number of threads are answered like the calls of one list.

A pop that finds the queue empty compares the `readIndex_` it loaded earlier.  The index may be
stale by then, but the stale index is at most `readIndex_`, which is at most `writeIndex_`: if the
first equals the last, the queue is empty at this very step.

`turns_le` bounds the retries.  A compare-exchange fails only when another consumer popped after
the load, and a consumer's failures are charged to those pops one to one.
-/

namespace CoUringWeb

open Machine BoundedFifo

namespace LockfreeQueue

variable {T C : Type*}

/-! ## Returns -/

/-- A call that returns, with its answer and the party it returns to: the producer, or one of the
consumers. -/
structure Return (C T : Type*) where
  party : Option C
  call : Call T
  answer : Answer T

/-- The party whose step a turn is. -/
def Turn.party : Turn C T → Option C
  | .push _ => none
  | .producer => none
  | .consumer c => some c

/-- The return of the producer's next step. -/
def producerReturn (s : Conc C T) : Option (Return C T) :=
  match s.producer with
  | .loaded data currentWriteIndex =>
    if s.queue.isFull currentWriteIndex s.queue.readIndex_ then
      some ⟨none, .push data, .pushed false⟩
    else none
  | .copied data => some ⟨none, .push data, .pushed true⟩
  | _ => none

/-- The return of the next step of the consumer `c`. -/
def consumerReturn (s : Conc C T) (c : C) : Option (Return C T) :=
  match s.consumer c with
  | .loaded currentReadIndex =>
    if currentReadIndex = s.queue.writeIndex_ then some ⟨some c, .pop, .popped none⟩ else none
  | .copied currentReadIndex data =>
    if s.queue.readIndex_ = currentReadIndex then some ⟨some c, .pop, .popped (some data)⟩ else none
  | _ => none

/-- The call that returns at a turn, if one does. -/
def returned (s : Conc C T) : Turn C T → Option (Return C T)
  | .push _ => none
  | .producer => producerReturn s
  | .consumer c => consumerReturn s c

/-- The calls of a run in the order in which they return. -/
def returns [DecidableEq C] (s : Conc C T) (as : List (Turn C T)) : List (Return C T) :=
  Transition.emitted turn returned s as

/-- The elements queued, oldest first. -/
def Conc.content (s : Conc C T) : List T := s.pushed.drop s.popped.length

/-! ## The order of the returns is a sequential order -/

variable {c : ℕ} {s t : Conc C T}

theorem Conc.content_length (s : Conc C T) :
    s.content.length = s.pushed.length - s.popped.length := by
  rw [Conc.content, List.length_drop]

/-- The push that returns at the producer's step answers like the list, unless the full test
clashes with the wrap of `writeIndex_`; other steps of the producer leave the elements as they
are. -/
theorem producerReturn_answer (hc : 1 ≤ c) (h : Inv c s) (hstep : producerStep s = some t)
    (hfew : t.pushed.length < 2 ^ 32) :
    match producerReturn s with
    | none => NoWrapClash c s (.producer : Turn C T) ∧ t.content = s.content
    | some r =>
      ((BoundedFifo.call (c - 1) s.content r.call).2 = r.answer ↔
          NoWrapClash c s (.producer : Turn C T)) ∧
        (NoWrapClash c s (.producer : Turn C T) →
          t.content = (BoundedFifo.call (c - 1) s.content r.call).1) := by
  have hprod := h.producer
  have hlen := s.content_length
  have hroom := h.room
  unfold ProducerInv at hprod
  cases hpc : s.producer with
  | idle =>
    rw [producerStep, hpc] at hstep
    cases hstep
  | loaded data w =>
    rw [hpc] at hprod
    change w = s.pushed.length at hprod
    subst hprod
    simp only [producerStep, hpc] at hstep
    simp only [producerReturn, hpc]
    by_cases hfull : s.queue.isFull s.pushed.length s.queue.readIndex_ = true
    · rw [if_pos hfull] at hstep ⊢
      cases hstep
      have hclash := h.noWrapClash_iff hc hpc hfull
      -- the list refuses exactly when it holds `c - 1` elements
      have hcall : (BoundedFifo.call (c - 1) s.content (.push data)).2 = .pushed false ↔
          s.pushed.length - s.popped.length = c - 1 := by
        rw [BoundedFifo.call, ← hlen]
        split
        · simp only [Answer.pushed.injEq, Bool.true_eq_false, false_iff]
          omega
        · simp only [true_iff]
          omega
      refine ⟨hcall.trans hclash.symm, fun hno => ?_⟩
      rw [BoundedFifo.call, if_neg (by rw [hlen, hclash.1 hno]; omega)]
      rfl
    · rw [if_neg hfull] at hstep ⊢
      cases hstep
      refine ⟨?_, rfl⟩
      simp only [NoWrapClash, hpc]
      intro hw hread
      rw [h.isFull_iff, if_pos hw, ← h.read] at hfull
      exact absurd hread hfull
  | checked data w =>
    simp only [producerStep, hpc] at hstep
    cases hstep
    simp only [producerReturn, NoWrapClash, hpc, true_and]
    rfl
  | copied data =>
    rw [hpc] at hprod
    simp only [producerStep, hpc] at hstep
    cases hstep
    have hpushed : s.pushed.length + 1 < 2 ^ 32 := by simpa using hfew
    have hlt : s.content.length < c - 1 := by
      have := hprod.2 hpushed
      have := h.popped_le
      omega
    simp only [producerReturn, NoWrapClash, hpc, BoundedFifo.call, if_pos hlt, true_and,
      true_imp_iff]
    exact List.drop_append_of_le_length h.popped_le

/-- The pop that returns at a consumer's step answers like the list; other steps of a consumer
leave the elements as they are. -/
theorem consumerReturn_answer [DecidableEq C] (h : Inv c s) (i : C) :
    match consumerReturn s i with
    | none => (consumerStep s i).content = s.content
    | some r =>
      (BoundedFifo.call (c - 1) s.content r.call).2 = r.answer ∧
        (consumerStep s i).content = (BoundedFifo.call (c - 1) s.content r.call).1 := by
  have hi := h.consumer i
  cases hpc : s.consumer i with
  | idle =>
    simp only [consumerReturn, consumerStep, hpc]
    rfl
  | loaded r =>
    rw [hpc] at hi
    change r ≤ s.popped.length at hi
    simp only [consumerReturn, consumerStep, hpc]
    by_cases hr : r = s.queue.writeIndex_
    · rw [if_pos hr, if_pos hr]
      -- the index is stale or not: below `readIndex_`, and equal to `writeIndex_`
      have hempty : s.content = [] := by
        rw [h.write] at hr
        rw [Conc.content, List.drop_eq_nil_iff]
        omega
      refine ⟨by rw [hempty]; rfl, ?_⟩
      show s.content = _
      rw [hempty]
      rfl
    · rw [if_neg hr, if_neg hr]
      rfl
  | checked r =>
    simp only [consumerReturn, consumerStep, hpc]
    rfl
  | copied r data =>
    rw [hpc] at hi
    simp only [consumerReturn, consumerStep, hpc]
    by_cases hr : s.queue.readIndex_ = r
    · rw [if_pos hr, if_pos hr]
      rw [h.read] at hr
      subst hr
      obtain ⟨hlt, hdata⟩ := List.getElem?_eq_some_iff.1 (hi.2.2 rfl)
      have hcontent : s.content = data :: s.pushed.drop (s.popped.length + 1) := by
        rw [Conc.content, List.drop_eq_getElem_cons hlt, hdata]
      rw [hcontent]
      refine ⟨rfl, ?_⟩
      show s.pushed.drop (s.popped ++ [data]).length = _
      rw [List.length_append, List.length_singleton]
      rfl
    · rw [if_neg hr, if_neg hr]
      rfl

/-- For every capacity, every number of consumers and every interleaving with fewer than `2 ^ 32`
accepted pushes: the calls, taken in the order in which they return, are answered like the calls of
one list of at most `c - 1` elements, exactly when no full test clashes with the wrap of
`writeIndex_`. -/
theorem linearized_iff [DecidableEq C] (hc : 1 ≤ c) (mem : ℕ → T) {as : List (Turn C T)}
    (hrun : Transition.run turn (Conc.new c mem) as = some s) (hfew : s.pushed.length < 2 ^ 32) :
    Transition.outputs (BoundedFifo.call (c - 1)) []
          ((returns (Conc.new c mem) as).map Return.call) =
        (returns (Conc.new c mem) as).map Return.answer ↔
      Transition.Always turn (NoWrapClash c) (Conc.new c mem) as := by
  have hbound : Transition.Always turn
      (fun u a => ∀ v, turn u a = some v → v.pushed.length < 2 ^ 32)
      (Conc.new c mem : Conc C T) as :=
    Transition.always_after_of_lt (μ := fun u => u.pushed.length)
      (fun _ _ _ h => (history_turn h).1.length_le) hrun hfew
  apply Transition.outputs_eq_iff_always
    (R := fun (u : Conc C T) l => Inv c u ∧ l = u.content) _ _ ⟨inv_new hc mem, rfl⟩ hbound hrun
  · rintro u a v l ⟨hu, rfl⟩ hlt hstep hout
    have hv := inv_turn hu hstep (hlt v hstep)
    cases a with
    | push data =>
      refine ⟨trivial, hv, ?_⟩
      simp only [turn] at hstep
      split at hstep <;> cases hstep
      rfl
    | producer =>
      have h := producerReturn_answer hc hu hstep (hlt v hstep)
      rw [show producerReturn u = none from hout] at h
      exact ⟨h.1, hv, h.2.symm⟩
    | consumer i =>
      have h := consumerReturn_answer hu i
      rw [show consumerReturn u i = none from hout] at h
      cases hstep
      exact ⟨trivial, hv, h.symm⟩
  · rintro u a v l r ⟨hu, rfl⟩ hlt hstep hout
    have hv := inv_turn hu hstep (hlt v hstep)
    cases a with
    | push data => cases hout
    | producer =>
      have h := producerReturn_answer hc hu hstep (hlt v hstep)
      rw [show producerReturn u = some r from hout] at h
      exact ⟨h.1, fun hno => ⟨hv, (h.2 hno).symm⟩⟩
    | consumer i =>
      have h := consumerReturn_answer hu i
      rw [show consumerReturn u i = some r from hout] at h
      cases hstep
      exact ⟨⟨fun _ => trivial, fun _ => h.1⟩, fun _ => ⟨hv, h.2.symm⟩⟩

/-- Two consumers race for one element, a push is refused in between, and the consumer that lost
finds the queue empty. -/
def race : List (Turn ℕ ℕ) :=
  [.push 5, .producer, .producer, .producer, .consumer 0, .consumer 1, .consumer 0, .consumer 1,
    .consumer 0, .consumer 1, .push 6, .producer, .consumer 1, .consumer 0, .consumer 0,
    .consumer 0]

theorem linearized_iff_race :
    (∃ s, Transition.run turn (Conc.new 2 fun _ => 0) race = some s ∧ s.pushed.length < 2 ^ 32) ∧
      (Transition.outputs (BoundedFifo.call 1) []
          ((returns (Conc.new 2 fun _ => 0) race).map Return.call) =
            (returns (Conc.new 2 fun _ => 0) race).map Return.answer ↔
        Transition.Always turn (NoWrapClash 2) (Conc.new 2 fun _ => 0) race) :=
  have hrun : ∃ s, Transition.run turn (Conc.new 2 fun _ => 0) race = some s ∧
      s.pushed.length < 2 ^ 32 := ⟨_, rfl, by decide⟩
  ⟨hrun, linearized_iff (by norm_num) _ hrun.choose_spec.1 hrun.choose_spec.2⟩

/-! ## Retries -/

/-- The return is that of a pop that got an element. -/
def Return.took (r : Return C T) : Bool :=
  match r.answer with
  | .popped (some _) => true
  | _ => false

/-- The steps a consumer has taken since it was at the head of the loop. -/
def ConsumerPc.phase : ConsumerPc T → ℕ
  | .idle => 0
  | .loaded _ => 1
  | .checked _ => 2
  | .copied _ _ => 3

theorem ConsumerPc.phase_le (pc : ConsumerPc T) : pc.phase ≤ 3 := by
  cases pc <;> simp [phase]

/-- The steps the producer has taken in its call. -/
def ProducerPc.phase : ProducerPc T → ℕ
  | .idle => 0
  | .loaded _ _ => 1
  | .checked _ _ => 2
  | .copied _ => 3

theorem ProducerPc.phase_le (pc : ProducerPc T) : pc.phase ≤ 3 := by
  cases pc <;> simp [phase]

/-- The index a consumer holds. -/
def ConsumerPc.index : ConsumerPc T → Option ℕ
  | .idle => none
  | .loaded r => some r
  | .checked r => some r
  | .copied r _ => some r

/-- `1` when the consumer holds an index that is no longer `readIndex_`: its compare-exchange is
going to fail, if `readIndex_` does not wrap around to it. -/
def stale (s : Conc C T) (i : C) : ℕ :=
  match (s.consumer i).index with
  | none => 0
  | some r => if s.queue.readIndex_ = r then 0 else 1

theorem stale_le (s : Conc C T) (i : C) : stale s i ≤ 1 := by
  unfold stale
  split
  · omega
  · split <;> omega

theorem stale_congr {i : C} (hindex : (t.consumer i).index = (s.consumer i).index)
    (hread : t.queue.readIndex_ = s.queue.readIndex_) : stale t i = stale s i := by
  rw [stale, stale, hindex, hread]

/-- The producer never retries: each of its steps advances it or returns. -/
theorem producerStep_credit {s t : Conc C T} (h : producerStep s = some t) :
    1 + s.producer.phase ≤ t.producer.phase + 4 * (producerReturn s).toList.length := by
  cases hpc : s.producer with
  | idle =>
    rw [producerStep, hpc] at h
    cases h
  | loaded data w =>
    simp only [producerStep, hpc] at h
    simp only [producerReturn, hpc]
    split at h <;> rename_i hfull <;> cases h
    · simp [hfull, ProducerPc.phase]
    · simp [hfull, ProducerPc.phase]
  | checked data w =>
    simp only [producerStep, hpc] at h
    cases h
    simp [ProducerPc.phase]
  | copied data =>
    simp only [producerStep, hpc] at h
    cases h
    simp [producerReturn, hpc, ProducerPc.phase]

theorem producerStep_consumer {s t : Conc C T} (h : producerStep s = some t) :
    t.consumer = s.consumer ∧ t.queue.readIndex_ = s.queue.readIndex_ := by
  unfold producerStep at h
  split at h
  · cases h
  · split at h <;> cases h <;> exact ⟨rfl, rfl⟩
  · cases h
    exact ⟨rfl, rfl⟩
  · cases h
    exact ⟨rfl, rfl⟩

theorem producerReturn_party {s : Conc C T} {r : Return C T} (h : producerReturn s = some r) :
    r.party = none ∧ r.took = false := by
  unfold producerReturn at h
  split at h
  · split at h <;> cases h
    exact ⟨rfl, rfl⟩
  · cases h
    exact ⟨rfl, rfl⟩
  · cases h

theorem consumerReturn_party {s : Conc C T} {i : C} {r : Return C T}
    (h : consumerReturn s i = some r) : r.party = some i := by
  unfold consumerReturn at h
  split at h
  · split at h <;> cases h
    rfl
  · split at h <;> cases h
    rfl
  · cases h

section Retries

variable [DecidableEq C]

/-- How many turns of the list are the party's. -/
def turnsOf (p : Option C) (as : List (Turn C T)) : ℕ := as.countP fun a => a.party = p

/-- How many of the returns are the party's. -/
def returnsOf (p : Option C) (rs : List (Return C T)) : ℕ := rs.countP fun r => r.party = p

/-- How many of the returns are pops of other parties that got an element. -/
def takenByOthers (p : Option C) (rs : List (Return C T)) : ℕ :=
  rs.countP fun r => r.party ≠ p && r.took

@[simp] theorem consumer_setConsumer_self (s : Conc C T) (i : C) (pc : ConsumerPc T) :
    (s.setConsumer i pc).consumer i = pc := Function.update_self ..

theorem consumer_setConsumer_of_ne (s : Conc C T) {i j : C} (h : i ≠ j) (pc : ConsumerPc T) :
    (s.setConsumer j pc).consumer i = s.consumer i := Function.update_of_ne h ..

/-- Each step of a consumer advances it, returns, or is a failed compare-exchange, which uses up
the staleness of its index. -/
theorem consumerStep_credit (s : Conc C T) (i : C) :
    1 + (s.consumer i).phase + 4 * stale (consumerStep s i) i ≤
      ((consumerStep s i).consumer i).phase + 4 * stale s i +
        4 * (consumerReturn s i).toList.length := by
  cases hpc : s.consumer i with
  | idle =>
    simp [consumerStep, hpc, stale, ConsumerPc.index, ConsumerPc.phase, Conc.setConsumer]
  | loaded r =>
    by_cases hr : r = s.queue.writeIndex_
    · simp [consumerStep, consumerReturn, hpc, hr, stale, ConsumerPc.index, ConsumerPc.phase,
        Conc.setConsumer]
    · have hstale : stale (s.setConsumer i (.checked r)) i = stale s i :=
        stale_congr (by simp [hpc, ConsumerPc.index]) rfl
      simp [consumerStep, consumerReturn, hpc, hr, hstale, ConsumerPc.phase]
  | checked r =>
    have hstale (data : T) : stale (s.setConsumer i (.copied r data)) i = stale s i :=
      stale_congr (by simp [hpc, ConsumerPc.index]) rfl
    simp [consumerStep, consumerReturn, hpc, hstale, ConsumerPc.phase]
  | copied r data =>
    by_cases hr : s.queue.readIndex_ = r
    · simp [consumerStep, consumerReturn, hpc, hr, stale, ConsumerPc.index, ConsumerPc.phase,
        Conc.setConsumer]
    · simp [consumerStep, consumerReturn, hpc, hr, stale, ConsumerPc.index, ConsumerPc.phase,
        Conc.setConsumer]

/-- A step of another consumer makes an index stale only by popping. -/
theorem consumerStep_stale (s : Conc C T) {i j : C} (hij : i ≠ j) :
    (consumerStep s j).consumer i = s.consumer i ∧
      stale (consumerStep s j) i ≤
        stale s i + takenByOthers (some i) (consumerReturn s j).toList := by
  have hother (pc : ConsumerPc T) : stale (s.setConsumer j pc) i = stale s i :=
    stale_congr (by rw [consumer_setConsumer_of_ne s hij]) rfl
  have hstay (pc : ConsumerPc T) := consumer_setConsumer_of_ne s hij pc
  cases hpc : s.consumer j with
  | idle =>
    simp only [consumerStep, hpc]
    exact ⟨hstay _, by rw [hother]; exact Nat.le_add_right _ _⟩
  | loaded r =>
    simp only [consumerStep, hpc]
    split <;> exact ⟨hstay _, by rw [hother]; exact Nat.le_add_right _ _⟩
  | checked r =>
    simp only [consumerStep, hpc]
    exact ⟨hstay _, by rw [hother]; exact Nat.le_add_right _ _⟩
  | copied r data =>
    simp only [consumerStep, consumerReturn, hpc]
    split
    · refine ⟨hstay _, ?_⟩
      have hone :
          takenByOthers (some i) [(⟨some j, .pop, .popped (some data)⟩ : Return C T)] = 1 := by
        simp [takenByOthers, Return.took, Ne.symm hij]
      rw [Option.toList_some, hone]
      exact Nat.le_trans (stale_le _ i) (Nat.le_add_left _ _)
    · exact ⟨hstay _, by rw [hother]; exact Nat.le_add_right _ _⟩

theorem returnsOf_append (p : Option C) (rs rs' : List (Return C T)) :
    returnsOf p (rs ++ rs') = returnsOf p rs + returnsOf p rs' := List.countP_append ..

theorem takenByOthers_append (p : Option C) (rs rs' : List (Return C T)) :
    takenByOthers p (rs ++ rs') = takenByOthers p rs + takenByOthers p rs' :=
  List.countP_append ..

theorem turnsOf_cons (p : Option C) (a : Turn C T) (as : List (Turn C T)) :
    turnsOf p (a :: as) = turnsOf p as + if a.party = p then 1 else 0 := by
  simp [turnsOf, List.countP_cons]

/-- A step of a consumer leaves the producer's side alone. -/
theorem consumerStep_producer (s : Conc C T) (i : C) :
    (consumerStep s i).producer = s.producer ∧ (consumerStep s i).pushed = s.pushed ∧
      (consumerStep s i).refused = s.refused := by
  unfold consumerStep
  split <;> (try split) <;> exact ⟨rfl, rfl, rfl⟩

/-- Returns of one party count for it. -/
theorem returnsOf_toList {p : Option C} {o : Option (Return C T)} (h : ∀ r ∈ o, r.party = p) :
    returnsOf p o.toList = o.toList.length := by
  refine List.countP_eq_length.2 fun r hr => ?_
  simpa using h r (Option.mem_toList.1 hr)

/-- What one turn does to the account of a consumer. -/
theorem turn_credit {a : Turn C T} (h : turn s a = some t) (i : C) :
    (if a.party = some i then 1 else 0) + (s.consumer i).phase + 4 * stale t i ≤
      (t.consumer i).phase + 4 * stale s i + 4 * (returnsOf (some i) (returned s a).toList +
        takenByOthers (some i) (returned s a).toList) := by
  cases a with
  | push data =>
    simp only [turn] at h
    split at h <;> cases h
    have hsame : stale { s with producer := .loaded data s.queue.writeIndex_ } i = stale s i :=
      stale_congr rfl rfl
    rw [hsame, if_neg (by simp [Turn.party])]
    dsimp only
    omega
  | producer =>
    obtain ⟨hconsumer, hread⟩ := producerStep_consumer h
    have hsame : stale t i = stale s i := stale_congr (by rw [hconsumer]) hread
    rw [hsame, hconsumer, if_neg (by simp [Turn.party])]
    omega
  | consumer j =>
    cases h
    by_cases hij : i = j
    · subst hij
      have hcredit := consumerStep_credit s i
      have hcount : returnsOf (some i) (consumerReturn s i).toList =
          (consumerReturn s i).toList.length := returnsOf_toList fun r hr => consumerReturn_party hr
      rw [if_pos (by rfl)]
      simp only [returned, hcount]
      omega
    · obtain ⟨hstay, hstale⟩ := consumerStep_stale s hij
      rw [hstay, if_neg (by simp [Turn.party, Ne.symm hij])]
      simp only [returned]
      omega

theorem turns_credit {as : List (Turn C T)} (hrun : Transition.run turn s as = some t) (i : C) :
    turnsOf (some i) as + (s.consumer i).phase + 4 * stale t i ≤
      (t.consumer i).phase + 4 * stale s i + 4 * (returnsOf (some i) (returns s as) +
        takenByOthers (some i) (returns s as)) := by
  induction as generalizing s with
  | nil =>
    cases hrun
    simp [turnsOf]
  | cons a as ih =>
    obtain ⟨u, hu, hut⟩ := Transition.run_cons.1 hrun
    have hstep := turn_credit hu i
    have hrest := ih hut
    rw [returns, Transition.emitted_cons hu, returnsOf_append, takenByOthers_append, turnsOf_cons]
    rw [returns] at hrest
    omega

/-- What one turn does to the account of the producer. -/
theorem turn_credit_producer {a : Turn C T} (h : turn s a = some t) :
    (if a.party = none then 1 else 0) + s.producer.phase ≤
      t.producer.phase + 4 * returnsOf none (returned s a).toList := by
  cases a with
  | push data =>
    simp only [turn] at h
    split at h <;> cases h
    rename_i hpc
    simp [Turn.party, hpc, ProducerPc.phase]
  | producer =>
    have hcredit := producerStep_credit h
    have hcount : returnsOf none (producerReturn s).toList = (producerReturn s).toList.length :=
      returnsOf_toList fun r hr => (producerReturn_party hr).1
    rw [if_pos (by rfl)]
    simp only [returned, hcount]
    omega
  | consumer j =>
    cases h
    rw [(consumerStep_producer s j).1, if_neg (by simp [Turn.party])]
    omega

theorem turns_credit_producer {as : List (Turn C T)}
    (hrun : Transition.run turn s as = some t) :
    turnsOf none as + s.producer.phase ≤
      t.producer.phase + 4 * returnsOf none (returns s as) := by
  induction as generalizing s with
  | nil =>
    cases hrun
    simp [turnsOf]
  | cons a as ih =>
    obtain ⟨u, hu, hut⟩ := Transition.run_cons.1 hrun
    have hstep := turn_credit_producer hu
    have hrest := ih hut
    rw [returns, Transition.emitted_cons hu, returnsOf_append, turnsOf_cons]
    rw [returns] at hrest
    omega

/-- In every run the producer takes at most four steps for each of its calls that returned, and a
consumer at most four for each of its calls that returned and each element another consumer took;
either takes up to three more for a call under way.  So a call that retries has let another one
through, and the pop of a queue with one consumer never retries. -/
theorem turns_le {as : List (Turn C T)} (mem : ℕ → T)
    (hrun : Transition.run turn (Conc.new c mem) as = some t) :
    turnsOf none as ≤ 4 * returnsOf none (returns (Conc.new c mem) as) + 3 ∧
      ∀ i, turnsOf (some i) as ≤ 4 * (returnsOf (some i) (returns (Conc.new c mem) as) +
        takenByOthers (some i) (returns (Conc.new c mem) as)) + 3 := by
  refine ⟨?_, fun i => ?_⟩
  · have := turns_credit_producer hrun
    have := t.producer.phase_le
    omega
  · have := turns_credit hrun i
    have := (t.consumer i).phase_le
    have hfresh : stale (Conc.new c mem : Conc C T) i = 0 := rfl
    omega

/-- Consumer 0 takes six steps: its first compare-exchange fails against consumer 1, and its second
try finds the queue empty. -/
theorem turns_le_race :
    turnsOf none race ≤ 4 * returnsOf none (returns (Conc.new 2 fun _ => 0) race) + 3 ∧
      ∀ i, turnsOf (some i) race ≤
        4 * (returnsOf (some i) (returns (Conc.new 2 fun _ => 0) race) +
          takenByOthers (some i) (returns (Conc.new 2 fun _ => 0) race)) + 3 :=
  turns_le (fun _ => 0) rfl

end Retries

end LockfreeQueue

end CoUringWeb
