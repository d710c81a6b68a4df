import CoUringWeb.Core.TcpServer
import CoUringWeb.Queue.Linearization

/-!
# `TcpServer::run` and `Scheduler::loop` over the interleaved queues

In `TcpServer.lean` a push and a pop are one step each.  Here they are the atomic steps of
`Queue/Interleaved.lean`: the acceptor and the workers run at the same time, and a step of one may
fall between any two steps of a call of another.  Each queue has one producer, the acceptor, and
one consumer, its worker.

`server` forgets the program counters inside the calls and keeps the elements of each queue.  A step
here is either invisible there or the step of the same name, because a call takes effect at the
step at which it returns (`Queue/Linearization.lean`): `sim_step`.  The acceptor carries every
connection it has accepted past at most one push at a time, so below `2 ^ 32` connections no queue
comes near the wrap of its `writeIndex_`.
-/

namespace CoUringWeb

open Machine BoundedFifo Transition

variable {C T : Type*}

/-! ## The two ends of one queue -/

namespace LockfreeQueue

/-- The queue when its only consumer is one worker. -/
abbrev Channel (T : Type*) := Conc Unit T

/-- The next step of a caller of `push(data)`. -/
def pushTurn (q : Channel T) (data : T) : Turn Unit T :=
  match q.producer with
  | .idle => .push data
  | _ => .producer

/-- The push in progress, if there is one, is `push(data)`. -/
def ProducerPc.Carries (data : T) : ProducerPc T → Prop
  | .idle => True
  | .loaded v _ => v = data
  | .checked v _ => v = data
  | .copied v => v = data

variable {c : ℕ} {q r : Channel T} {data : T}

theorem pushed_length_turn {a : Turn Unit T} (h : turn q a = some r) :
    r.pushed.length ≤ q.pushed.length + 1 := by
  cases a with
  | push data =>
    simp only [turn] at h
    split at h <;> cases h
    exact Nat.le_succ _
  | producer =>
    simp only [turn, producerStep] at h
    split at h
    · cases h
    · split at h <;> cases h <;> exact Nat.le_succ _
    · cases h
      exact Nat.le_succ _
    · cases h
      simp
  | consumer i =>
    cases h
    unfold consumerStep
    split <;> (try split) <;> exact Nat.le_succ _

/-- Away from the wrap the full test counts the elements. -/
theorem noWrapClash_of_lt (h : Inv c q) (hfew : q.pushed.length + 1 < 2 ^ 32) :
    NoWrapClash c q (.producer : Turn Unit T) := by
  have hprod := h.producer
  unfold ProducerInv at hprod
  simp only [NoWrapClash]
  split
  · rename_i data w hpc
    rw [hpc] at hprod
    change w = q.pushed.length at hprod
    omega
  · trivial

/-- What a step of `push(data)` does: it goes on with the push, or the push returns what the list
answers. -/
inductive PushStep (c : ℕ) (q r : Channel T) (data : T) : Option (Return Unit T) → Prop
  | goesOn (content : r.content = q.content) (pushed : r.pushed.length = q.pushed.length)
      (refused : r.refused = q.refused) (carries : r.producer.Carries data)
      (phase : r.producer.phase = q.producer.phase + 1) : PushStep c q r data none
  | returns (accepted : Bool)
      (answers : BoundedFifo.call (c - 1) q.content (.push data) = (r.content, .pushed accepted))
      (pushed : r.pushed.length = q.pushed.length + accepted.toNat)
      (refused : r.refused.length = q.refused.length + (!accepted).toNat)
      (idle : r.producer = .idle) (phase : accepted = false → q.producer.phase = 1) :
      PushStep c q r data (some ⟨none, .push data, .pushed accepted⟩)

/-- The list refuses a push exactly when it is full. -/
theorem call_push_false {bound : ℕ} {l l' : List T}
    (h : BoundedFifo.call bound l (.push data) = (l', .pushed false)) :
    ¬ l.length < bound ∧ l' = l := by
  rw [BoundedFifo.call] at h
  split at h <;> rename_i hroom <;> cases h
  exact ⟨hroom, rfl⟩

theorem inv_pushTurn (h : Inv c q) (hstep : turn q (pushTurn q data) = some r)
    (hfew : q.pushed.length + 1 < 2 ^ 32) : Inv c r :=
  inv_turn h hstep (Nat.lt_of_le_of_lt (pushed_length_turn hstep) hfew)

theorem pushStep_of_turn (hc : 1 ≤ c) (h : Inv c q) (hcarries : q.producer.Carries data)
    (hstep : turn q (pushTurn q data) = some r) (hfew : q.pushed.length + 1 < 2 ^ 32) :
    PushStep c q r data (returned q (pushTurn q data)) := by
  have hr : r.pushed.length < 2 ^ 32 := Nat.lt_of_le_of_lt (pushed_length_turn hstep) hfew
  cases hpc : q.producer with
  | idle =>
    rw [show pushTurn q data = .push data by simp [pushTurn, hpc]] at hstep ⊢
    simp only [turn, hpc] at hstep
    cases hstep
    exact .goesOn rfl rfl rfl rfl (by simp [hpc, ProducerPc.phase])
  | loaded v w =>
    rw [show pushTurn q data = .producer by simp [pushTurn, hpc]] at hstep ⊢
    have hanswer := producerReturn_answer hc h hstep hr
    rw [hpc] at hcarries
    change v = data at hcarries
    subst hcarries
    simp only [turn, producerStep, hpc] at hstep
    simp only [returned, producerReturn, hpc] at hanswer ⊢
    by_cases hfull : q.queue.isFull w q.queue.readIndex_ = true
    · simp only [if_pos hfull] at hstep hanswer ⊢
      cases hstep
      have hcall := hanswer.1.2 (noWrapClash_of_lt h hfew)
      have hcontent := hanswer.2 (noWrapClash_of_lt h hfew)
      exact .returns false (Prod.ext hcontent.symm hcall) rfl (by simp) rfl
        fun _ => by simp [hpc, ProducerPc.phase]
    · simp only [if_neg hfull] at hstep ⊢
      cases hstep
      exact .goesOn rfl rfl rfl rfl (by simp [hpc, ProducerPc.phase])
  | checked v w =>
    rw [show pushTurn q data = .producer by simp [pushTurn, hpc]] at hstep ⊢
    rw [hpc] at hcarries
    simp only [turn, producerStep, hpc] at hstep
    simp only [returned, producerReturn, hpc]
    cases hstep
    exact .goesOn rfl rfl rfl hcarries (by simp [hpc, ProducerPc.phase])
  | copied v =>
    rw [show pushTurn q data = .producer by simp [pushTurn, hpc]] at hstep ⊢
    have hanswer := producerReturn_answer hc h hstep hr
    rw [hpc] at hcarries
    change v = data at hcarries
    subst hcarries
    simp only [turn, producerStep, hpc] at hstep
    simp only [returned, producerReturn, hpc] at hanswer ⊢
    cases hstep
    have hcall := hanswer.1.2 (noWrapClash_of_lt h hfew)
    have hcontent := hanswer.2 (noWrapClash_of_lt h hfew)
    exact .returns true (Prod.ext hcontent.symm hcall) (by simp) rfl rfl
      fun h => by cases h

/-- What a step of `pop` does. -/
inductive PopStep (c : ℕ) (q r : Channel T) : Option (Return Unit T) → Prop
  | goesOn (content : r.content = q.content) : PopStep c q r none
  | returns (data : Option T)
      (answers : BoundedFifo.call (c - 1) q.content .pop = (r.content, .popped data)) :
      PopStep c q r (some ⟨some (), .pop, .popped data⟩)

theorem popStep_of_turn (h : Inv c q) :
    PopStep c q (consumerStep q ()) (returned q (.consumer ())) := by
  have hanswer := consumerReturn_answer h ()
  cases hreturn : consumerReturn q () with
  | none =>
    rw [hreturn] at hanswer
    rw [returned, hreturn]
    exact .goesOn hanswer
  | some ret =>
    obtain ⟨data, hret⟩ : ∃ data, ret = ⟨some (), .pop, .popped data⟩ := by
      unfold consumerReturn at hreturn
      split at hreturn <;> (try split at hreturn) <;> cases hreturn <;> exact ⟨_, rfl⟩
    subst hret
    rw [hreturn] at hanswer
    rw [returned, hreturn]
    exact .returns data (Prod.ext hanswer.2.symm hanswer.1)

end LockfreeQueue

/-! ## The server -/

open LockfreeQueue

structure ServerThreads (C : Type*) where
  index : ℕ
  acceptor : AcceptorPc C
  queues_ : ℕ → Channel (Accepted C)
  workers : ℕ → WorkerPc
  /-- the connections accepted so far -/
  accepted : List C
  /-- the connections a worker called `func_` on -/
  started : ℕ → List (Accepted C)

namespace ServerThreads

/-- The server when its threads start; `mem i` is what `malloc` returned for queue `i`. -/
def init (capicity : ℕ) (mem : ℕ → ℕ → Accepted C) : ServerThreads C where
  index := 0
  acceptor := .accepting
  queues_ := fun i => Conc.new capicity (mem i)
  workers := fun _ => .popping
  accepted := []
  started := fun _ => []

/-- What the acceptor does with the answer of a push: the next queue for the same connection, or
the next queue for the next one. -/
def pushed (s : ServerThreads C) (accepted : Bool) : ServerThreads C :=
  { s with
    index := uint64 (s.index + 1)
    acceptor := if accepted then .accepting else s.acceptor }

/-- What worker `i` does with the answer of a pop: the call of `func_`, or the end of its loop. -/
def popped (s : ServerThreads C) (i : ℕ) : Option (Accepted C) → ServerThreads C
  | some conn => { s with started := Function.update s.started i (s.started i ++ [conn]) }
  | none => { s with workers := Function.update s.workers i .polling }

/-- Goes on with the answer of a call, if one returned. -/
def answered (s : ServerThreads C) (i : ℕ) :
    Option (Return Unit (Accepted C)) → ServerThreads C
  | none => s
  | some ⟨_, _, .pushed accepted⟩ => s.pushed accepted
  | some ⟨_, _, .popped conn⟩ => s.popped i conn

/-- The step `a` of queue `i`, after which its caller goes on with the answer. -/
def queueStep (s : ServerThreads C) (i : ℕ) (a : Turn Unit (Accepted C)) :
    Option (ServerThreads C) :=
  (turn (s.queues_ i) a).map fun q =>
    { s with queues_ := Function.update s.queues_ i q }.answered i (returned (s.queues_ i) a)

/-- One step: the actions are those of `Server`, but `push` and `pop` are the next atomic step of
the call. -/
def step (thread_count : ℕ) (s : ServerThreads C) : ServerAction C → Option (ServerThreads C)
  | .accept conn =>
    match s.acceptor, conn with
    | .accepting, none => some s
    | .accepting, some conn =>
      some { s with
        acceptor := .pushing ⟨s.accepted.length, conn⟩, accepted := s.accepted ++ [conn] }
    | .pushing _, _ => none
  | .push =>
    match s.acceptor with
    | .accepting => none
    | .pushing tcpConn =>
      let i := s.index % thread_count
      s.queueStep i (pushTurn (s.queues_ i) tcpConn)
  | .pop i =>
    if i < thread_count ∧ s.workers i = .popping then s.queueStep i (.consumer ()) else none
  | .poll i =>
    if i < thread_count ∧ s.workers i = .polling then
      some { s with workers := Function.update s.workers i .popping }
    else none

/-- The server with each queue reduced to its elements. -/
def server (s : ServerThreads C) : Server C where
  index := s.index
  acceptor := s.acceptor
  queues_ := fun i => (s.queues_ i).content
  workers := s.workers
  accepted := s.accepted
  started := s.started

/-! ## The invariant -/

/-- The connection the acceptor holds, counted. -/
def pending (s : ServerThreads C) : ℕ :=
  match s.acceptor with
  | .accepting => 0
  | .pushing _ => 1

structure Inv (c thread_count : ℕ) (s : ServerThreads C) : Prop where
  queues : ∀ i, LockfreeQueue.Inv c (s.queues_ i)
  /-- the call of `push` in progress is the one the acceptor makes -/
  carries : ∀ tcpConn, s.acceptor = .pushing tcpConn →
    (s.queues_ (s.index % thread_count)).producer.Carries tcpConn
  idle : ∀ i, s.acceptor = .accepting ∨ i ≠ s.index % thread_count →
    (s.queues_ i).producer = .idle
  /-- a queue took only connections the acceptor has let go -/
  few : ∀ i, (s.queues_ i).pushed.length + s.pending ≤ s.accepted.length

theorem inv_init {c : ℕ} (hc : 1 ≤ c) (thread_count : ℕ) (mem : ℕ → ℕ → Accepted C) :
    Inv c thread_count (init c mem) where
  queues i := LockfreeQueue.inv_new hc (mem i)
  carries _ h := by cases h
  idle _ _ := rfl
  few _ := Nat.le_refl _

variable {c thread_count : ℕ} {s t : ServerThreads C}

/-- What holds of the new queue and held of the others holds of all. -/
theorem forall_update (queues : ℕ → Channel (Accepted C)) (i : ℕ) {q : Channel (Accepted C)}
    (P : ℕ → Channel (Accepted C) → Prop) (hq : P i q) (hothers : ∀ j ≠ i, P j (queues j)) (j : ℕ) :
    P j (Function.update queues i q j) :=
  (Function.forall_update_iff queues P).2 ⟨hq, hothers⟩ j

/-- Replacing one queue replaces its elements. -/
theorem content_update (queues : ℕ → Channel (Accepted C)) (i : ℕ) (q : Channel (Accepted C)) :
    (fun j => (Function.update queues i q j).content) =
      Function.update (fun j => (queues j).content) i q.content := by
  funext j
  by_cases hj : j = i
  · subst hj
    rw [Function.update_self, Function.update_self]
  · rw [Function.update_of_ne hj, Function.update_of_ne hj]

theorem content_update_same (queues : ℕ → Channel (Accepted C)) {i : ℕ}
    {q : Channel (Accepted C)} (h : q.content = (queues i).content) :
    (fun j => (Function.update queues i q j).content) = fun j => (queues j).content := by
  rw [content_update, h]
  exact Function.update_eq_self i _

theorem accepted_answered (s : ServerThreads C) (i : ℕ)
    (ret : Option (Return Unit (Accepted C))) : (s.answered i ret).accepted = s.accepted := by
  unfold answered
  split
  · rfl
  · rfl
  · unfold popped
    split <;> rfl

/-- The queue the acceptor pushes to has taken fewer than all accepted connections. -/
theorem Inv.pushed_lt (h : Inv c thread_count s) {tcpConn : Accepted C}
    (hpushing : s.acceptor = .pushing tcpConn) (i : ℕ) :
    (s.queues_ i).pushed.length + 1 ≤ s.accepted.length := by
  have := h.few i
  rwa [pending, hpushing] at this

/-- What the acceptor's step in a call of `push` does. -/
inductive PushEffect (c thread_count : ℕ) (s t : ServerThreads C) (tcpConn : Accepted C) : Prop
  | goesOn (server : t.server = s.server)
      (refused : ∀ j, (t.queues_ j).refused = (s.queues_ j).refused)
      (phase : (t.queues_ (s.index % thread_count)).producer.phase =
        (s.queues_ (s.index % thread_count)).producer.phase + 1)
  | accepted (server : Server.push thread_count (c - 1) s.server tcpConn = t.server)
      (acceptor : t.acceptor = .accepting)
      (index : t.index = uint64 (s.index + 1))
      (refused : ∀ j, (t.queues_ j).refused.length = (s.queues_ j).refused.length)
  | refused (server : Server.push thread_count (c - 1) s.server tcpConn = t.server)
      (queues : ∀ j, (t.queues_ j).content = (s.queues_ j).content)
      (acceptor : t.acceptor = s.acceptor)
      (index : t.index = uint64 (s.index + 1))
      (full : ¬ (s.queues_ (s.index % thread_count)).content.length < c - 1)
      (phase : (s.queues_ (s.index % thread_count)).producer.phase = 1)
      (idle : ∀ j, (t.queues_ j).producer = .idle)
      (refused : (t.queues_ (s.index % thread_count)).refused ≠ [])

/-- The acceptor's step in a call of `push`. -/
theorem push_step (hc : 1 ≤ c) (h : Inv c thread_count s) {tcpConn : Accepted C}
    (hpushing : s.acceptor = .pushing tcpConn) (hfew : s.accepted.length < 2 ^ 32)
    (hstep : s.queueStep (s.index % thread_count)
      (pushTurn (s.queues_ (s.index % thread_count)) tcpConn) = some t) :
    Inv c thread_count t ∧ PushEffect c thread_count s t tcpConn := by
  obtain ⟨q, hq, rfl⟩ := Option.map_eq_some_iff.1 hstep
  have hlt := h.pushed_lt hpushing (s.index % thread_count)
  have hcase := pushStep_of_turn hc (h.queues _) (h.carries _ hpushing) hq (by omega)
  have hqueues := forall_update s.queues_ (s.index % thread_count)
    (fun _ r => LockfreeQueue.Inv c r) (inv_pushTurn (h.queues _) hq (by omega))
    fun j _ => h.queues j
  generalize hret : returned (s.queues_ (s.index % thread_count))
    (pushTurn (s.queues_ (s.index % thread_count)) tcpConn) = ret at hcase
  cases hcase with
  | goesOn content pushed refused carries phase =>
    refine ⟨⟨hqueues, fun conn hconn => ?_, fun j hj => ?_, ?_⟩, .goesOn ?_ ?_ ?_⟩
    · cases hpushing.symm.trans hconn
      simpa [answered] using carries
    · rcases hj with hj | hj
      · cases hpushing.symm.trans hj
      · change j ≠ s.index % thread_count at hj
        show (Function.update s.queues_ _ q j).producer = .idle
        rw [Function.update_of_ne hj]
        exact h.idle j (Or.inr hj)
    · apply forall_update s.queues_ _ fun _ r => r.pushed.length + s.pending ≤ s.accepted.length
      · rw [pushed]
        exact h.few _
      · exact fun j _ => h.few j
    · simp only [server, answered]
      rw [content_update_same _ content]
    · apply forall_update s.queues_ _ fun j r => r.refused = (s.queues_ j).refused
      · exact refused
      · exact fun j _ => rfl
    · simpa [answered] using phase
  | returns accepted answers pushed refused idle phase =>
    have hidle := forall_update s.queues_ (s.index % thread_count)
      (fun _ r => r.producer = .idle) idle fun j hj => h.idle j (Or.inr hj)
    have hanswers : BoundedFifo.call (c - 1) (s.server.queues_ (s.server.index % thread_count))
        (.push tcpConn) = (q.content, .pushed accepted) := answers
    refine ⟨⟨hqueues, fun conn _ => ?_, fun j _ => hidle j, ?_⟩, ?_⟩
    · show (Function.update s.queues_ _ q _).producer.Carries conn
      rw [hidle]
      trivial
    · have hfew := forall_update s.queues_ (s.index % thread_count)
        (fun _ r => r.pushed.length + 1 ≤ s.accepted.length + accepted.toNat)
        (by rw [pushed]; omega) fun j _ => Nat.le_add_right_of_le (h.pushed_lt hpushing j)
      cases accepted with
      | false => simpa [answered, ServerThreads.pushed, pending, hpushing] using hfew
      | true => simpa [answered, ServerThreads.pushed, pending] using hfew
    · cases accepted with
      | false =>
        obtain ⟨hfull, hcontent⟩ := call_push_false answers
        refine .refused ?_ ?_ ?_ rfl hfull (phase rfl) hidle ?_
        · simp only [Server.push, hanswers]
          simp [server, answered, ServerThreads.pushed, content_update]
        · apply forall_update s.queues_ _ fun j r => r.content = (s.queues_ j).content
          · exact hcontent
          · exact fun j _ => rfl
        · simp [answered, ServerThreads.pushed]
        · show (Function.update s.queues_ _ q _).refused ≠ []
          rw [Function.update_self]
          intro hnil
          rw [hnil] at refused
          simp at refused
      | true =>
        refine .accepted ?_ ?_ rfl ?_
        · simp only [Server.push, hanswers]
          simp [server, answered, ServerThreads.pushed, content_update]
        · simp [answered, ServerThreads.pushed]
        · apply forall_update s.queues_ _ fun j r => r.refused.length = (s.queues_ j).refused.length
          · exact refused
          · exact fun j _ => rfl

/-- A worker's step in a call of `pop`. -/
theorem pop_step (h : Inv c thread_count s) {i : ℕ}
    (hstep : s.queueStep i (.consumer ()) = some t) :
    Inv c thread_count t ∧
      (t.server = s.server ∨ Server.pop (c - 1) s.server i = t.server) := by
  obtain ⟨q, hq, rfl⟩ := Option.map_eq_some_iff.1 hstep
  cases hq
  obtain ⟨hproducer, hpushed, -⟩ := consumerStep_producer (s.queues_ i) ()
  have hsame := forall_update s.queues_ i
    (fun j r => r.producer = (s.queues_ j).producer ∧ r.pushed = (s.queues_ j).pushed)
    ⟨hproducer, hpushed⟩ fun j _ => ⟨rfl, rfl⟩
  have hkept : Inv c thread_count
      { s with queues_ := Function.update s.queues_ i (consumerStep (s.queues_ i) ()) } := by
    refine ⟨?_, fun conn hconn => ?_, fun j hj => ?_, fun j => ?_⟩
    · apply forall_update s.queues_ _ fun _ r => LockfreeQueue.Inv c r
      · exact inv_consumerStep (h.queues i) ()
      · exact fun j _ => h.queues j
    · show (Function.update s.queues_ i _ _).producer.Carries conn
      rw [(hsame _).1]
      exact h.carries conn hconn
    · show (Function.update s.queues_ i _ j).producer = .idle
      rw [(hsame j).1]
      exact h.idle j hj
    · show (Function.update s.queues_ i _ j).pushed.length + s.pending ≤ s.accepted.length
      rw [(hsame j).2]
      exact h.few j
  have hcase := popStep_of_turn (h.queues i)
  generalize hret : returned (s.queues_ i) (.consumer ()) = ret at hcase
  cases hcase with
  | goesOn content =>
    refine ⟨hkept, Or.inl ?_⟩
    simp only [server, answered]
    rw [content_update_same _ content]
  | returns data answers =>
    have hanswers : BoundedFifo.call (c - 1) (s.server.queues_ i) .pop =
        ((consumerStep (s.queues_ i) ()).content, .popped data) := answers
    cases data with
    | none =>
      refine ⟨{ hkept with }, Or.inr ?_⟩
      simp only [Server.pop, hanswers]
      simp [server, answered, popped, content_update]
    | some conn =>
      refine ⟨{ hkept with }, Or.inr ?_⟩
      simp only [Server.pop, hanswers]
      simp [server, answered, popped, content_update]

/-- What a step does to the queues and the acceptor, seen through `server`. -/
theorem sim_step (hc : 1 ≤ c) {a : ServerAction C} (h : Inv c thread_count s)
    (hstep : step thread_count s a = some t) (hfew : t.accepted.length < 2 ^ 32) :
    Inv c thread_count t ∧
      (t.server = s.server ∨ Server.step thread_count (c - 1) s.server a = some t.server) := by
  cases a with
  | accept conn =>
    dsimp only [step] at hstep
    split at hstep
    · rename_i hacceptor
      cases hstep
      exact ⟨h, Or.inl rfl⟩
    · rename_i conn hacceptor
      cases hstep
      refine ⟨⟨h.queues, fun tcpConn _ => ?_, fun i _ => h.idle i (Or.inl hacceptor), fun i => ?_⟩,
        Or.inr ?_⟩
      · show (s.queues_ _).producer.Carries tcpConn
        rw [h.idle _ (Or.inl hacceptor)]
        trivial
      · have := h.few i
        rw [pending, hacceptor] at this
        simpa [pending] using this
      · simp [Server.step, server, hacceptor]
    · cases hstep
  | push =>
    dsimp only [step] at hstep
    split at hstep
    · cases hstep
    · rename_i tcpConn hacceptor
      have haccepted : t.accepted = s.accepted := by
        obtain ⟨q, -, rfl⟩ := Option.map_eq_some_iff.1 hstep
        exact accepted_answered ..
      rw [haccepted] at hfew
      obtain ⟨hinv, heffect⟩ := push_step hc h hacceptor hfew hstep
      have hserver : Server.step thread_count (c - 1) s.server .push =
          some (Server.push thread_count (c - 1) s.server tcpConn) := by
        simp [Server.step, server, hacceptor]
      refine ⟨hinv, ?_⟩
      cases heffect with
      | goesOn server => exact Or.inl server
      | accepted server => exact Or.inr (hserver.trans (congrArg some server))
      | refused server => exact Or.inr (hserver.trans (congrArg some server))
  | pop i =>
    dsimp only [step] at hstep
    split at hstep
    · rename_i hi
      obtain ⟨hinv, hserver⟩ := pop_step h hstep
      refine ⟨hinv, hserver.imp_right fun heq => ?_⟩
      rw [← heq]
      exact if_pos hi
    · cases hstep
  | poll i =>
    dsimp only [step] at hstep
    split at hstep
    · rename_i hi
      cases hstep
      exact ⟨{ h with }, Or.inr (if_pos hi)⟩
    · cases hstep

theorem accepted_step {a : ServerAction C} (hstep : step thread_count s a = some t) :
    s.accepted.length ≤ t.accepted.length := by
  have hqueue {i : ℕ} {b : Turn Unit (Accepted C)} (h : s.queueStep i b = some t) :
      s.accepted.length ≤ t.accepted.length := by
    obtain ⟨q, -, rfl⟩ := Option.map_eq_some_iff.1 h
    rw [accepted_answered]
  cases a with
  | accept conn =>
    dsimp only [step] at hstep
    split at hstep <;> cases hstep
    · exact Nat.le_refl _
    · simp
  | push =>
    dsimp only [step] at hstep
    split at hstep
    · cases hstep
    · exact hqueue hstep
  | pop i =>
    dsimp only [step] at hstep
    split at hstep
    · exact hqueue hstep
    · cases hstep
  | poll i =>
    dsimp only [step] at hstep
    split at hstep <;> cases hstep
    exact Nat.le_refl _

/-! ## Runs -/

/-- Below `2 ^ 32` connections, the state is one the server of `TcpServer.lean` can be in. -/
structure Sound (c thread_count : ℕ) (s : ServerThreads C) : Prop where
  threads : Inv c thread_count s
  server : Server.Inv thread_count s.server

theorem sound_step (hc : 1 ≤ c) (hpos : 1 ≤ thread_count) {a : ServerAction C}
    (h : Sound c thread_count s) (hstep : step thread_count s a = some t)
    (hfew : t.accepted.length < 2 ^ 32) : Sound c thread_count t := by
  obtain ⟨hinv, hserver⟩ := sim_step hc h.threads hstep hfew
  refine ⟨hinv, ?_⟩
  rcases hserver with heq | hserver
  · rw [heq]
    exact h.server
  · exact Server.inv_step hpos h.server hserver

theorem sound_init (hc : 1 ≤ c) (thread_count : ℕ) (mem : ℕ → ℕ → Accepted C) :
    Sound c thread_count (init c mem) :=
  ⟨inv_init hc thread_count mem, Server.inv_init thread_count⟩

theorem sound_run (hc : 1 ≤ c) (hpos : 1 ≤ thread_count) {as : List (ServerAction C)}
    (hs : Sound c thread_count s) (hrun : run (step thread_count) s as = some t)
    (hfew : t.accepted.length < 2 ^ 32) : Sound c thread_count t :=
  run_invariant (I := fun u => u.accepted.length < 2 ^ 32 → Sound c thread_count u)
    (fun _ _ _ hu hstep hlt =>
      sound_step hc hpos (hu (Nat.lt_of_le_of_lt (accepted_step hstep) hlt)) hstep hlt)
    (fun _ => hs) hrun hfew

/-- The state as the server of `TcpServer.lean` sees it. -/
def Refines (c thread_count : ℕ) (s : ServerThreads C) (s' : Server C) : Prop :=
  s.accepted.length < 2 ^ 32 → Inv c thread_count s ∧ s' = s.server

theorem refines_step (hc : 1 ≤ c) (s : ServerThreads C) (a : ServerAction C)
    (t : ServerThreads C) (s' : Server C) (h : Refines c thread_count s s')
    (hstep : step thread_count s a = some t) :
    Refines c thread_count t s' ∨
      ∃ t', Server.step thread_count (c - 1) s' a = some t' ∧ Refines c thread_count t t' := by
  by_cases hlt : t.accepted.length < 2 ^ 32
  · obtain ⟨hinv, rfl⟩ := h (Nat.lt_of_le_of_lt (accepted_step hstep) hlt)
    obtain ⟨ht, hserver | hserver⟩ := sim_step hc hinv hstep hlt
    · exact Or.inl fun _ => ⟨ht, hserver.symm⟩
    · exact Or.inr ⟨_, hserver, fun _ => ⟨ht, rfl⟩⟩
  · exact Or.inl fun hlt' => absurd hlt' hlt

/-- However the atomic steps of the acceptor and of the workers fall between each other, below
`2 ^ 32` connections the server behaves like one whose pushes and pops are single steps: a run of it
is a run of that server with the invisible steps left out.  So every connection the acceptor has
moved past is in one queue or was given to `func_` by one worker, once. -/
theorem threads_serve_once (hc : 1 ≤ c) (hpos : 1 ≤ thread_count) (mem : ℕ → ℕ → Accepted C)
    {as : List (ServerAction C)} (hrun : run (step thread_count) (init c mem) as = some t)
    (hfew : t.accepted.length < 2 ^ 32) :
    (∃ bs, bs.Sublist as ∧
      run (Server.step thread_count (c - 1)) Server.init bs = some t.server) ∧
    ∀ k, t.server.MovedPast k → t.server.PlacedOnce thread_count k := by
  refine ⟨?_, (sound_run hc hpos (sound_init hc thread_count mem) hrun hfew).server.placed⟩
  have hstart : Refines c thread_count (init c mem) Server.init :=
    fun _ => ⟨inv_init hc thread_count mem, rfl⟩
  obtain ⟨bs, t', hsub, hbs, ht⟩ := run_stutter (refines_step hc) hstart hrun
  obtain ⟨-, rfl⟩ := ht hfew
  exact ⟨bs, hsub, hbs⟩

/-- Both queues refuse the third connection while worker 0 is in the middle of a pop. -/
def interleavedWorkers : List (ServerAction ℕ) :=
  [.accept (some 70), .push, .push, .push, .push, .accept (some 71), .push, .pop 0, .push, .pop 0,
    .push, .push, .accept (some 72), .push, .push, .pop 0, .push, .pop 1, .push, .pop 0]

theorem threads_serve_once_interleavedWorkers :
    ∃ t : ServerThreads ℕ,
      run (step 2) (init 2 fun _ _ => ⟨0, 0⟩) interleavedWorkers = some t ∧
      (∃ bs, bs.Sublist interleavedWorkers ∧
        run (Server.step 2 1) Server.init bs = some t.server) ∧
      ∀ k, t.server.MovedPast k → t.server.PlacedOnce 2 k := by
  have hrun : ∃ t : ServerThreads ℕ,
      run (step 2) (init 2 fun _ _ => ⟨0, 0⟩) interleavedWorkers = some t ∧
        t.accepted.length < 2 ^ 32 := ⟨_, rfl, by decide⟩
  obtain ⟨t, hrun, hfew⟩ := hrun
  exact ⟨t, hrun, threads_serve_once (by norm_num) (by norm_num) _ hrun hfew⟩

/-! ## The acceptor's turns -/

/-- What a worker's step leaves to the acceptor. -/
structure Yields (s t : ServerThreads C) : Prop where
  index : t.index = s.index
  acceptor : t.acceptor = s.acceptor
  accepted : t.accepted = s.accepted
  history : t.server.history = s.server.history
  producer : ∀ j, (t.queues_ j).producer = (s.queues_ j).producer
  refused : ∀ j, (t.queues_ j).refused = (s.queues_ j).refused
  content : ∀ j, (t.queues_ j).content.length ≤ (s.queues_ j).content.length

theorem yields_pop (h : Inv c thread_count s) {i : ℕ}
    (hstep : s.queueStep i (.consumer ()) = some t) : Yields s t := by
  have hhistory : t.server.history = s.server.history := by
    rcases (pop_step h hstep).2 with heq | heq
    · rw [heq]
    · rw [← heq, Server.history_pop]
  obtain ⟨q, hq, rfl⟩ := Option.map_eq_some_iff.1 hstep
  have hpopped : (s.queues_ i).popped.length ≤ q.popped.length :=
    (history_turn hq).2.1.length_le
  cases hq
  obtain ⟨hproducer, hpushed, hrefused⟩ := consumerStep_producer (s.queues_ i) ()
  have hsame (j : ℕ) := forall_update s.queues_ i
    (fun j r => r.producer = (s.queues_ j).producer ∧ r.refused = (s.queues_ j).refused ∧
      r.content.length ≤ (s.queues_ j).content.length)
    ⟨hproducer, hrefused, by rw [Conc.content_length, Conc.content_length, hpushed]; omega⟩
    (fun j _ => ⟨rfl, rfl, Nat.le_refl _⟩) j
  have hcase := popStep_of_turn (h.queues i)
  generalize returned (s.queues_ i) (.consumer ()) = ret at hcase hhistory
  rcases hcase with - | ⟨- | conn, -⟩
  all_goals
    exact ⟨rfl, rfl, rfl, hhistory, fun j => (hsame j).1, fun j => (hsame j).2.1,
      fun j => (hsame j).2.2⟩

/-- A step of a worker, as the acceptor sees it. -/
theorem yields_step (h : Inv c thread_count s) {a : ServerAction C} (hpush : a ≠ .push)
    (haccept : ∀ conn, a ≠ .accept conn) (hstep : step thread_count s a = some t) :
    Yields s t := by
  cases a with
  | accept conn => exact absurd rfl (haccept conn)
  | push => exact absurd rfl hpush
  | pop i =>
    dsimp only [step] at hstep
    split at hstep
    · exact yields_pop h hstep
    · cases hstep
  | poll i =>
    dsimp only [step] at hstep
    split at hstep <;> cases hstep
    exact ⟨rfl, rfl, rfl, rfl, fun _ => rfl, fun _ => rfl, fun _ => Nat.le_refl _⟩

/-- As long as no push is refused, `index` counts the connections the acceptor has let go, and they
were dealt to the workers in turn. -/
def Dealt (thread_count : ℕ) (s : ServerThreads C) : Prop :=
  (∀ i, (s.queues_ i).refused = []) →
    s.index + s.pending = s.accepted.length ∧
      ∀ i, (s.server.history i).map Accepted.number =
        (List.range s.index).filter fun k => k % thread_count = i

theorem Yields.dealt (h : Yields s t) (hdealt : Dealt thread_count s) : Dealt thread_count t := by
  intro hnone
  obtain ⟨hindex, hturns⟩ := hdealt fun i => (h.refused i).symm.trans (hnone i)
  have hpending : t.pending = s.pending := by rw [pending, pending, h.acceptor]
  rw [h.index, hpending, h.accepted, h.history]
  exact ⟨hindex, hturns⟩

/-- A connection whose push is accepted goes to the worker of its number. -/
theorem PushEffect.dealt {tcpConn : Accepted C} (h : PushEffect c thread_count s t tcpConn)
    (hs : Server.Inv thread_count s.server) (hpushing : s.acceptor = .pushing tcpConn)
    (hfew : s.accepted.length < 2 ^ 32) (hdealt : Dealt thread_count s) :
    Dealt thread_count t := by
  have hnumber : tcpConn.number + 1 = s.accepted.length := (hs.pushing tcpConn hpushing).1
  have hpending : s.pending = 1 := by rw [pending, hpushing]
  intro hnone
  cases h with
  | goesOn server refused phase =>
    obtain ⟨hindex, hturns⟩ := hdealt fun i => (refused i).symm.trans (hnone i)
    have hfields : t.index = s.index ∧ t.acceptor = s.acceptor ∧ t.accepted = s.accepted :=
      ⟨congrArg Server.index server, congrArg Server.acceptor server,
        congrArg Server.accepted server⟩
    have hsame : t.pending = s.pending := by rw [pending, pending, hfields.2.1]
    rw [hfields.1, hsame, hfields.2.2, server]
    exact ⟨hindex, hturns⟩
  | accepted server acceptor index refused =>
    have hnone' (i : ℕ) : (s.queues_ i).refused = [] := by
      have := refused i
      rw [hnone i] at this
      exact List.eq_nil_of_length_eq_zero this.symm
    obtain ⟨hindex, hturns⟩ := hdealt hnone'
    have hwrap : t.index = s.index + 1 := by rw [index, uint64_of_lt (by omega)]
    have haccepted : t.accepted = s.accepted := by
      have := Server.push_accepted thread_count (c - 1) s.server tcpConn
      rw [server] at this
      exact this
    refine ⟨?_, fun i => ?_⟩
    · have hlet : t.pending = 0 := by rw [pending, acceptor]
      rw [hwrap, haccepted, hlet]
      omega
    · rcases Server.push_cases thread_count (c - 1) s.server tcpConn with
        ⟨-, hacceptor⟩ | ⟨hhistory, -⟩
      · rw [server] at hacceptor
        cases (acceptor.symm.trans hacceptor).trans hpushing
      · rw [server] at hhistory
        rw [hhistory, hwrap, List.range_succ, List.filter_append, ← hturns i]
        by_cases hi : i = s.index % thread_count
        · have heq : tcpConn.number = s.index := by omega
          subst hi
          rw [show s.server.index = s.index from rfl, Function.update_self, List.map_append]
          simp [heq]
        · rw [show s.server.index = s.index from rfl, Function.update_of_ne hi]
          simp [Ne.symm hi]
  | refused server queues acceptor index full phase idle refused =>
    exact absurd (hnone _) refused

theorem dealt_step (hc : 1 ≤ c) {a : ServerAction C} (h : Sound c thread_count s)
    (hdealt : Dealt thread_count s) (hstep : step thread_count s a = some t)
    (hfew : t.accepted.length < 2 ^ 32) : Dealt thread_count t := by
  cases a with
  | accept conn =>
    dsimp only [step] at hstep
    split at hstep
    · cases hstep
      exact hdealt
    · rename_i conn hacceptor
      cases hstep
      intro hnone
      obtain ⟨hindex, hturns⟩ := hdealt hnone
      refine ⟨?_, hturns⟩
      rw [pending, hacceptor] at hindex
      simpa [pending] using hindex
    · cases hstep
  | push =>
    have hlt := Nat.lt_of_le_of_lt (accepted_step hstep) hfew
    dsimp only [step] at hstep
    split at hstep
    · cases hstep
    · rename_i tcpConn hacceptor
      have heffect := (push_step hc h.threads hacceptor hlt hstep).2
      exact heffect.dealt h.server hacceptor hlt hdealt
  | pop i => exact (yields_step (a := .pop i) h.threads nofun nofun hstep).dealt hdealt
  | poll i => exact (yields_step (a := .poll i) h.threads nofun nofun hstep).dealt hdealt

/-- If no push was refused, worker `i` was handed the connections whose numbers are `i` modulo
`thread_count`, each once and in order. -/
theorem round_robin (hc : 1 ≤ c) (hpos : 1 ≤ thread_count) (mem : ℕ → ℕ → Accepted C)
    {as : List (ServerAction C)} (hrun : run (step thread_count) (init c mem) as = some t)
    (hfew : t.accepted.length < 2 ^ 32) (hnone : ∀ i, (t.queues_ i).refused = []) (i : ℕ) :
    (t.server.history i).map Accepted.number =
      (List.range (t.accepted.length - t.pending)).filter fun k => k % thread_count = i := by
  have hdealt : Dealt thread_count t := by
    have hboth := run_invariant
      (I := fun u => u.accepted.length < 2 ^ 32 →
        Sound c thread_count u ∧ Dealt thread_count u)
      (fun u a v hu hstep hlt =>
        have hu := hu (Nat.lt_of_le_of_lt (accepted_step hstep) hlt)
        ⟨sound_step hc hpos hu.1 hstep hlt, dealt_step hc hu.1 hu.2 hstep hlt⟩)
      (fun _ => ⟨sound_init hc thread_count mem, fun _ => ⟨rfl, fun _ => rfl⟩⟩) hrun
    exact (hboth hfew).2
  obtain ⟨hindex, hturns⟩ := hdealt hnone
  rw [← hindex, Nat.add_sub_cancel]
  exact hturns i

theorem round_robin_threeConnections :
    ∃ t : ServerThreads ℕ,
      run (step 2) (init 3 fun _ _ => ⟨0, 0⟩)
        ([70, 71, 72].flatMap fun conn => .accept (some conn) :: List.replicate 4 .push) =
          some t ∧
      (t.server.history 0).map Accepted.number =
        (List.range (t.accepted.length - t.pending)).filter fun k => k % 2 = 0 := by
  have hrun : ∃ t : ServerThreads ℕ, run (step 2) (init 3 fun _ _ => ⟨0, 0⟩)
      ([70, 71, 72].flatMap fun conn => .accept (some conn) :: List.replicate 4 .push) = some t ∧
      t.accepted.length < 2 ^ 32 ∧ ∀ i, (t.queues_ i).refused = [] :=
    ⟨_, rfl, by decide, fun i => match i with | 0 => rfl | 1 => rfl | _ + 2 => rfl⟩
  obtain ⟨t, hrun, hfew, hnone⟩ := hrun
  exact ⟨t, hrun, round_robin (by norm_num) (by norm_num) _ hrun hfew hnone 0⟩

/-! ## The push loop ends when a queue has room -/

/-- How many of the actions are steps of the acceptor in a call of `push`. -/
def pushes (as : List (ServerAction C)) : ℕ := as.countP fun a => a matches .push

/-- The acceptor holds a connection and reaches a queue with room after `m` refused pushes. -/
structure Waiting (c thread_count j m : ℕ) (s : ServerThreads C) : Prop where
  acceptor : ∃ tcpConn, s.acceptor = .pushing tcpConn
  index : s.index < 2 ^ 64
  room : (s.queues_ j).content.length < c - 1
  ahead : uint64 (s.index + m) % thread_count = j

/-- The steps the acceptor has left until the push that is accepted returns: two for a refused push
and four for the last one. -/
def budget (thread_count m : ℕ) (s : ServerThreads C) : ℕ :=
  2 * m + 4 - (s.queues_ (s.index % thread_count)).producer.phase

theorem Waiting.push {j m : ℕ} (h : Waiting c thread_count j m s) {tcpConn : Accepted C}
    (heffect : PushEffect c thread_count s t tcpConn) :
    t.acceptor = .accepting ∨ ∃ m', Waiting c thread_count j m' t ∧
      budget thread_count m' t + 1 ≤ budget thread_count m s := by
  cases heffect with
  | goesOn server refused phase =>
    right
    have hindex : t.index = s.index := congrArg Server.index server
    have hacceptor : t.acceptor = s.acceptor := congrArg Server.acceptor server
    have hcontent : (t.queues_ j).content = (s.queues_ j).content :=
      congrFun (congrArg Server.queues_ server) j
    refine ⟨m, ⟨hacceptor ▸ h.acceptor, hindex ▸ h.index, hcontent ▸ h.room, hindex ▸ h.ahead⟩, ?_⟩
    have := ProducerPc.phase_le (t.queues_ (s.index % thread_count)).producer
    rw [budget, budget, hindex]
    omega
  | accepted server acceptor => exact Or.inl acceptor
  | refused server queues acceptor index full phase idle refused =>
    right
    cases m with
    | zero =>
      -- the queue with room is the one that refused
      have hhere := h.ahead
      rw [Nat.add_zero, uint64_of_lt h.index] at hhere
      rw [hhere] at full
      exact absurd h.room full
    | succ m =>
      have hahead : uint64 (t.index + m) % thread_count = j := by
        rw [← h.ahead, index, uint64, uint64, uint64, Nat.mod_add_mod]
        congr 2
        omega
      refine ⟨m, ⟨acceptor ▸ h.acceptor, ?_, queues j ▸ h.room, hahead⟩, ?_⟩
      · rw [index]
        exact Nat.mod_lt _ (by norm_num)
      · rw [budget, budget, phase, idle]
        simp only [ProducerPc.phase]
        omega

theorem Waiting.yields {j m : ℕ} (h : Waiting c thread_count j m s) (hyields : Yields s t) :
    Waiting c thread_count j m t ∧ budget thread_count m t = budget thread_count m s := by
  refine ⟨⟨hyields.acceptor ▸ h.acceptor, hyields.index ▸ h.index, ?_, hyields.index ▸ h.ahead⟩, ?_⟩
  · exact Nat.lt_of_le_of_lt (hyields.content j) h.room
  · rw [budget, budget, hyields.index, hyields.producer]

theorem waiting_step (hc : 1 ≤ c) {j m : ℕ} {a : ServerAction C} (h : Inv c thread_count s)
    (hwait : Waiting c thread_count j m s) (hstep : step thread_count s a = some t)
    (hfew : t.accepted.length < 2 ^ 32) :
    t.acceptor = .accepting ∨ ∃ m', Waiting c thread_count j m' t ∧
      budget thread_count m' t + pushes [a] ≤ budget thread_count m s := by
  obtain ⟨tcpConn, hacceptor⟩ := hwait.acceptor
  cases a with
  | accept conn => simp [step, hacceptor] at hstep
  | push =>
    have hlt := Nat.lt_of_le_of_lt (accepted_step hstep) hfew
    simp only [step, hacceptor] at hstep
    exact hwait.push (push_step hc h hacceptor hlt hstep).2
  | pop i =>
    obtain ⟨hwait, hbudget⟩ := hwait.yields (yields_step (a := .pop i) h nofun nofun hstep)
    exact Or.inr ⟨m, hwait, hbudget.le⟩
  | poll i =>
    obtain ⟨hwait, hbudget⟩ := hwait.yields (yields_step (a := .poll i) h nofun nofun hstep)
    exact Or.inr ⟨m, hwait, hbudget.le⟩

theorem accepting_of_waiting (hc : 1 ≤ c) (hpos : 1 ≤ thread_count) {j m : ℕ}
    {bs : List (ServerAction C)} (h : Sound c thread_count s)
    (hwait : Waiting c thread_count j m s) (hrun : run (step thread_count) s bs = some t)
    (hfew : t.accepted.length < 2 ^ 32) (hpushes : budget thread_count m s ≤ pushes bs) :
    ∃ cs u, cs <+: bs ∧ run (step thread_count) s cs = some u ∧ u.acceptor = .accepting := by
  induction bs generalizing s m with
  | nil =>
    have := ProducerPc.phase_le (s.queues_ (s.index % thread_count)).producer
    simp only [pushes, List.countP_nil, budget] at hpushes
    omega
  | cons a bs ih =>
    obtain ⟨u, hu, hut⟩ := run_cons.1 hrun
    have hmono : u.accepted.length ≤ t.accepted.length :=
      run_invariant (I := fun v => u.accepted.length ≤ v.accepted.length)
        (fun _ _ _ hv hstep => Nat.le_trans hv (accepted_step hstep)) (Nat.le_refl _) hut
    have hlt : u.accepted.length < 2 ^ 32 := Nat.lt_of_le_of_lt hmono hfew
    rcases waiting_step hc h.threads hwait hu hlt with haccepting | ⟨m', hwait', hbudget⟩
    · exact ⟨[a], u, ⟨bs, rfl⟩, run_singleton.2 hu, haccepting⟩
    · have hrest : budget thread_count m' u ≤ pushes bs := by
        rw [pushes, ← List.singleton_append, List.countP_append] at hpushes
        simp only [pushes] at hbudget ⊢
        omega
      obtain ⟨cs, v, hcs, hv, haccepting⟩ :=
        ih (sound_step hc hpos h hu hlt) hwait' hut hrest
      exact ⟨a :: cs, v, List.cons_prefix_cons.2 ⟨rfl, hcs⟩, run_cons.2 ⟨u, hu, hv⟩, haccepting⟩

/-- The index comes to any queue within two rounds, also over the wrap of the 64-bit counter. -/
theorem exists_ahead {i j n : ℕ} (hi : i < 2 ^ 64) (hj : j < n) (hn : n ≤ 2 ^ 64) :
    ∃ m < 2 * n, uint64 (i + m) % n = j := by
  have hmod : i % n < n := Nat.mod_lt _ (by omega)
  have hreach : (i + (j + (n - i % n)) % n) % n = j := by
    have hsplit : i + (j + (n - i % n)) = j + n + n * (i / n) := by
      have := Nat.mod_add_div i n
      omega
    rw [Nat.add_mod_mod, hsplit, Nat.add_mul_mod_self_left, Nat.add_mod_right, Nat.mod_eq_of_lt hj]
  have hd : (j + (n - i % n)) % n < n := Nat.mod_lt _ (by omega)
  by_cases hwrap : i + (j + (n - i % n)) % n < 2 ^ 64
  · exact ⟨(j + (n - i % n)) % n, by omega, by rw [uint64_of_lt hwrap, hreach]⟩
  · -- the counter wraps first, and then counts up from zero
    refine ⟨2 ^ 64 - i + j, by omega, ?_⟩
    have hj' : j < 2 ^ 64 := Nat.lt_of_lt_of_le hj hn
    rw [show i + (2 ^ 64 - i + j) = j + 2 ^ 64 by omega, uint64, Nat.add_mod_right,
      Nat.mod_eq_of_lt hj', Nat.mod_eq_of_lt hj]

theorem index_step (hc : 1 ≤ c) {a : ServerAction C} (h : Inv c thread_count s)
    (hindex : s.index < 2 ^ 64) (hstep : step thread_count s a = some t)
    (hfew : t.accepted.length < 2 ^ 32) : t.index < 2 ^ 64 := by
  cases a with
  | accept conn =>
    dsimp only [step] at hstep
    split at hstep <;> cases hstep <;> exact hindex
  | push =>
    have hlt := Nat.lt_of_le_of_lt (accepted_step hstep) hfew
    dsimp only [step] at hstep
    split at hstep
    · cases hstep
    · rename_i tcpConn hacceptor
      cases (push_step hc h hacceptor hlt hstep).2 with
      | goesOn server => exact (congrArg Server.index server).trans_lt hindex
      | accepted server acceptor index => exact index.trans_lt (Nat.mod_lt _ (by norm_num))
      | refused server queues acceptor index => exact index.trans_lt (Nat.mod_lt _ (by norm_num))
  | pop i => exact (yields_step (a := .pop i) h nofun nofun hstep).index.trans_lt hindex
  | poll i => exact (yields_step (a := .poll i) h nofun nofun hstep).index.trans_lt hindex

/-- In every reachable state in which the acceptor holds a connection and some queue has room, the
connection is accepted within `4 * thread_count + 2` steps of the acceptor, whatever the workers do
meanwhile.  This needs fewer than `2 ^ 32` connections, because beyond that the wrap of a queue's
`writeIndex_` can refuse a push that has room, and fewer than `2 ^ 31` threads. -/
theorem accepting_of_room (hc : 1 ≤ c) (mem : ℕ → ℕ → Accepted C)
    (hcount : thread_count < 2 ^ 31) {as bs : List (ServerAction C)}
    (hs : run (step thread_count) (init c mem) as = some s) {tcpConn : Accepted C}
    (hpushing : s.acceptor = .pushing tcpConn) {j : ℕ} (hj : j < thread_count)
    (hroom : (s.queues_ j).content.length < c - 1)
    (hrun : run (step thread_count) s bs = some t) (hfew : t.accepted.length < 2 ^ 32)
    (hpushes : 4 * thread_count + 2 ≤ pushes bs) :
    ∃ cs u, cs <+: bs ∧ run (step thread_count) s cs = some u ∧ u.acceptor = .accepting := by
  have hpos : 1 ≤ thread_count := by omega
  have hmono : s.accepted.length ≤ t.accepted.length :=
    run_invariant (I := fun v => s.accepted.length ≤ v.accepted.length)
      (fun _ _ _ hv hstep => Nat.le_trans hv (accepted_step hstep)) (Nat.le_refl _) hrun
  obtain ⟨hsound, hindex⟩ := run_invariant
    (I := fun u => u.accepted.length < 2 ^ 32 → Sound c thread_count u ∧ u.index < 2 ^ 64)
    (fun u a v hu hstep hlt =>
      have hu := hu (Nat.lt_of_le_of_lt (accepted_step hstep) hlt)
      ⟨sound_step hc hpos hu.1 hstep hlt, index_step hc hu.1.threads hu.2 hstep hlt⟩)
    (fun _ => ⟨sound_init hc thread_count mem, Nat.two_pow_pos 64⟩) hs
    (Nat.lt_of_le_of_lt hmono hfew)
  obtain ⟨m, hm, hahead⟩ := exists_ahead hindex hj (by omega)
  apply accepting_of_waiting hc hpos hsound ⟨⟨tcpConn, hpushing⟩, hindex, hroom, hahead⟩ hrun hfew
  rw [budget]
  omega

/-- The second connection waits for its queue while the third comes in. -/
theorem accepting_of_room_pushes :
    ∃ s t : ServerThreads ℕ, ∃ cs u,
      run (step 2) (init 2 fun _ _ => ⟨0, 0⟩)
        (.accept (some 70) :: List.replicate 4 .push ++ [.accept (some 71)]) = some s ∧
      run (step 2) s (List.replicate 4 .push ++ .accept (some 72) :: List.replicate 6 .push) =
        some t ∧
      cs <+: List.replicate 4 .push ++ .accept (some 72) :: List.replicate 6 .push ∧
      run (step 2) s cs = some u ∧ u.acceptor = .accepting := by
  have hs : ∃ s : ServerThreads ℕ, run (step 2) (init 2 fun _ _ => ⟨0, 0⟩)
      (.accept (some 70) :: List.replicate 4 .push ++ [.accept (some 71)]) = some s ∧
      s.acceptor = .pushing ⟨1, 71⟩ ∧ (s.queues_ 1).content.length < 1 ∧
      ∃ t, run (step 2) s (List.replicate 4 .push ++ .accept (some 72) ::
        List.replicate 6 .push) = some t ∧ t.accepted.length < 2 ^ 32 :=
    ⟨_, rfl, rfl, by decide, _, rfl, by decide⟩
  obtain ⟨s, hs, hpushing, hroom, t, hrun, hfew⟩ := hs
  obtain ⟨cs, u, hcs, hu, haccepting⟩ := accepting_of_room (by norm_num) _ (by norm_num) hs
    hpushing (by norm_num) hroom hrun hfew (by decide)
  exact ⟨s, t, cs, u, hs, hrun, hcs, hu, haccepting⟩

end ServerThreads

end CoUringWeb
