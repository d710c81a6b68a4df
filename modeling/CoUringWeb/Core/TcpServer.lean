import CoUringWeb.Framework.Machine
import CoUringWeb.Framework.RingBuffer
import CoUringWeb.Framework.Transition
import Mathlib.Data.List.Nodup

/-!
# `TcpServer::run` and `Scheduler::loop`

The acceptor of `include/core.h` hands each connection to one of `thread_count` worker queues: it
tries the queues in turn until one accepts.  Its index moves on after each try, whether the push was
refused or not.  A worker takes connections from its queue and calls `func_` on them until the queue
is empty, then polls its scheduler, which does not concern the queues.

A push and a pop are one step each, of a queue that holds at most `bound` connections; a pop that
returns a connection is followed by the call of `func_` in the same step.  Connections carry the
number of their `accept`, and `started i` lists the connections that worker `i` called `func_` on.

`history i` is what was ever pushed to queue `i`, in order.  A step of a worker leaves it as it is,
so the invariant speaks of the histories alone.
-/

namespace CoUringWeb

open Machine BoundedFifo Transition

variable {C : Type*}

/-- A connection with the number of its `accept`. -/
structure Accepted (C : Type*) where
  number : ℕ
  conn : C
  deriving DecidableEq, Repr

/-- Where the acceptor is: before `accept`, or in the loop that pushes `tcpConn`. -/
inductive AcceptorPc (C : Type*) where
  | accepting
  | pushing (tcpConn : Accepted C)
  deriving DecidableEq, Repr

/-- Where a worker is: in the loop that pops, or after it. -/
inductive WorkerPc where
  | popping
  | polling
  deriving DecidableEq, Repr

structure Server (C : Type*) where
  index : ℕ
  acceptor : AcceptorPc C
  queues_ : ℕ → List (Accepted C)
  workers : ℕ → WorkerPc
  /-- the connections accepted so far -/
  accepted : List C
  /-- the connections a worker called `func_` on -/
  started : ℕ → List (Accepted C)

inductive ServerAction (C : Type*) where
  /-- `accept` returns a connection, or `-1` -/
  | accept (conn : Option C)
  | push
  | pop (i : ℕ)
  | poll (i : ℕ)
  deriving DecidableEq, Repr

namespace Server

/-- The server when its threads start. -/
def init : Server C where
  index := 0
  acceptor := .accepting
  queues_ := fun _ => []
  workers := fun _ => .popping
  accepted := []
  started := fun _ => []

/-! ## Steps -/

/-- One evaluation of the condition of the push loop, and the `index++` after it. -/
def push (thread_count bound : ℕ) (s : Server C) (tcpConn : Accepted C) : Server C :=
  let i := s.index % thread_count
  match call bound (s.queues_ i) (.push tcpConn) with
  | (q, .pushed true) =>
    { s with
      index := uint64 (s.index + 1), acceptor := .accepting
      queues_ := Function.update s.queues_ i q }
  | (q, _) =>
    { s with index := uint64 (s.index + 1), queues_ := Function.update s.queues_ i q }

/-- One evaluation of `queue_->pop(conn)` by worker `i`, with the call of `func_`. -/
def pop (bound : ℕ) (s : Server C) (i : ℕ) : Server C :=
  match call bound (s.queues_ i) .pop with
  | (q, .popped (some conn)) =>
    { s with
      queues_ := Function.update s.queues_ i q
      started := Function.update s.started i (s.started i ++ [conn]) }
  | (q, _) =>
    { s with
      queues_ := Function.update s.queues_ i q
      workers := Function.update s.workers i .polling }

def step (thread_count bound : ℕ) (s : Server C) : ServerAction C → Option (Server C)
  | .accept conn =>
    match s.acceptor, conn with
    | .accepting, none => some s
    | .accepting, some conn =>
      some { s with
        acceptor := .pushing ⟨s.accepted.length, conn⟩, accepted := s.accepted ++ [conn] }
    | .pushing _, _ => none
  | .push =>
    match s.acceptor with
    | .accepting => none
    | .pushing tcpConn => some (s.push thread_count bound tcpConn)
  | .pop i => if i < thread_count ∧ s.workers i = .popping then some (s.pop bound i) else none
  | .poll i =>
    if i < thread_count ∧ s.workers i = .polling then
      some { s with workers := Function.update s.workers i .popping }
    else none

/-- What was pushed to queue `i`, oldest first. -/
def history (s : Server C) (i : ℕ) : List (Accepted C) := s.started i ++ s.queues_ i

theorem history_pop (bound : ℕ) (s : Server C) (i : ℕ) : (s.pop bound i).history = s.history := by
  unfold pop
  cases hq : s.queues_ i with
  | nil =>
    have hsame : Function.update s.queues_ i [] = s.queues_ := by
      rw [← hq, Function.update_eq_self]
    simp only [call, hsame]
    rfl
  | cons conn q =>
    funext j
    by_cases hj : j = i
    · subst hj
      simp [call, history, hq]
    · simp [call, history, hj]

theorem pop_acceptor (bound : ℕ) (s : Server C) (i : ℕ) :
    (s.pop bound i).acceptor = s.acceptor ∧ (s.pop bound i).accepted = s.accepted := by
  unfold pop
  split <;> exact ⟨rfl, rfl⟩

/-- A push is refused and changes nothing but the index, or it ends a history. -/
theorem push_cases (thread_count bound : ℕ) (s : Server C) (tcpConn : Accepted C) :
    ((s.push thread_count bound tcpConn).history = s.history ∧
      (s.push thread_count bound tcpConn).acceptor = s.acceptor) ∨
    ((s.push thread_count bound tcpConn).history = Function.update s.history
        (s.index % thread_count) (s.history (s.index % thread_count) ++ [tcpConn]) ∧
      (s.push thread_count bound tcpConn).acceptor = .accepting) := by
  dsimp only [push]
  by_cases hroom : (s.queues_ (s.index % thread_count)).length < bound
  · have hcall : call bound (s.queues_ (s.index % thread_count)) (.push tcpConn) =
        (s.queues_ (s.index % thread_count) ++ [tcpConn], .pushed true) := if_pos hroom
    rw [hcall]
    refine Or.inr ⟨?_, rfl⟩
    funext j
    by_cases hj : j = s.index % thread_count
    · subst hj
      simp [history]
    · simp [history, hj]
  · have hcall : call bound (s.queues_ (s.index % thread_count)) (.push tcpConn) =
        (s.queues_ (s.index % thread_count), .pushed false) := if_neg hroom
    have hsame : Function.update s.queues_ (s.index % thread_count)
        (s.queues_ (s.index % thread_count)) = s.queues_ := Function.update_eq_self ..
    rw [hcall]
    dsimp only
    rw [hsame]
    exact Or.inl ⟨rfl, rfl⟩

theorem push_accepted (thread_count bound : ℕ) (s : Server C) (tcpConn : Accepted C) :
    (s.push thread_count bound tcpConn).accepted = s.accepted := by
  dsimp only [push]
  split <;> rfl

/-- What a step does to the histories and the acceptor: nothing, an `accept`, or a push. -/
theorem step_cases {thread_count bound : ℕ} {s t : Server C} {a : ServerAction C}
    (h : step thread_count bound s a = some t) :
    (t.history = s.history ∧ t.acceptor = s.acceptor ∧ t.accepted = s.accepted) ∨
    (∃ conn, s.acceptor = .accepting ∧ t.history = s.history ∧
      t.acceptor = .pushing ⟨s.accepted.length, conn⟩ ∧ t.accepted = s.accepted ++ [conn]) ∨
    ∃ tcpConn, s.acceptor = .pushing tcpConn ∧ t.acceptor = .accepting ∧
      t.accepted = s.accepted ∧ t.history = Function.update s.history (s.index % thread_count)
        (s.history (s.index % thread_count) ++ [tcpConn]) := by
  cases a with
  | accept conn =>
    dsimp only [step] at h
    split at h
    · cases h
      exact Or.inl ⟨rfl, rfl, rfl⟩
    · rename_i conn hacceptor
      cases h
      exact Or.inr (Or.inl ⟨conn, hacceptor, rfl, rfl, rfl⟩)
    · cases h
  | push =>
    dsimp only [step] at h
    split at h
    · cases h
    · rename_i tcpConn hacceptor
      cases h
      rcases push_cases thread_count bound s tcpConn with ⟨hhistory, hacc⟩ | ⟨hhistory, hacc⟩
      · exact Or.inl ⟨hhistory, hacc, push_accepted ..⟩
      · exact Or.inr (Or.inr ⟨tcpConn, hacceptor, hacc, push_accepted .., hhistory⟩)
  | pop i =>
    dsimp only [step] at h
    split at h
    · cases h
      exact Or.inl ⟨history_pop bound s i, pop_acceptor bound s i⟩
    · cases h
  | poll i =>
    dsimp only [step] at h
    split at h
    · cases h
      exact Or.inl ⟨rfl, rfl, rfl⟩
    · cases h

/-! ## The invariant -/

/-- The acceptor has moved past the connection with number `k`: it is accepted and not the one being
pushed. -/
def MovedPast (s : Server C) (k : ℕ) : Prop :=
  k < s.accepted.length ∧ ∀ tcpConn, s.acceptor = .pushing tcpConn → k < tcpConn.number

/-- The connection with number `k` is in the history of one worker, and there once. -/
def PlacedOnce (thread_count : ℕ) (s : Server C) (k : ℕ) : Prop :=
  ∃ i < thread_count, k ∈ (s.history i).map Accepted.number ∧
    ∀ j ≠ i, k ∉ (s.history j).map Accepted.number

structure Inv (thread_count : ℕ) (s : Server C) : Prop where
  /-- the connection being pushed is the last one accepted -/
  pushing : ∀ tcpConn, s.acceptor = .pushing tcpConn →
    tcpConn.number + 1 = s.accepted.length ∧ s.accepted[tcpConn.number]? = some tcpConn.conn
  placed : ∀ k, s.MovedPast k → s.PlacedOnce thread_count k
  ordered : ∀ i, (s.history i).Pairwise fun p q => p.number < q.number
  /-- the histories hold connections the acceptor has moved past -/
  moved : ∀ i, ∀ p ∈ s.history i, s.MovedPast p.number ∧ s.accepted[p.number]? = some p.conn

theorem inv_init (thread_count : ℕ) : Inv thread_count (init : Server C) where
  pushing := fun _ h => by cases h
  placed := fun k hk => absurd hk.1 (Nat.not_lt_zero k)
  ordered := fun _ => List.Pairwise.nil
  moved := fun _ _ hp => by cases hp

variable {thread_count : ℕ} {s t : Server C}

/-- A new connection is not among those the acceptor has moved past. -/
theorem Inv.accept (h : Inv thread_count s) {conn : C} (hacceptor : s.acceptor = .accepting)
    (hhistory : t.history = s.history)
    (hpushing : t.acceptor = .pushing ⟨s.accepted.length, conn⟩)
    (haccepted : t.accepted = s.accepted ++ [conn]) : Inv thread_count t := by
  have hmoved (k : ℕ) : t.MovedPast k ↔ s.MovedPast k := by
    constructor
    · rintro ⟨-, hk⟩
      refine ⟨hk _ hpushing, fun tcpConn htcp => ?_⟩
      rw [hacceptor] at htcp
      cases htcp
    · rintro ⟨hk, -⟩
      refine ⟨by rw [haccepted, List.length_append]; omega, fun tcpConn htcp => ?_⟩
      rw [hpushing] at htcp
      cases htcp
      exact hk
  refine ⟨fun tcpConn htcp => ?_, fun k hk => ?_, fun i => ?_, fun i p hp => ?_⟩
  · rw [hpushing] at htcp
    cases htcp
    rw [haccepted]
    exact ⟨by rw [List.length_append, List.length_singleton], List.getElem?_concat_length⟩
  · unfold PlacedOnce
    rw [hhistory]
    exact h.placed k ((hmoved k).1 hk)
  · rw [hhistory]
    exact h.ordered i
  · rw [hhistory] at hp
    obtain ⟨hp, hconn⟩ := h.moved i p hp
    refine ⟨(hmoved _).2 hp, ?_⟩
    rw [haccepted, List.getElem?_append_left hp.1, hconn]

/-- The connection that is pushed was in no history, and comes after all that were. -/
theorem Inv.push (h : Inv thread_count s) (hpos : 1 ≤ thread_count) {tcpConn : Accepted C}
    (hpushing : s.acceptor = .pushing tcpConn) (hacceptor : t.acceptor = .accepting)
    (haccepted : t.accepted = s.accepted)
    (hhistory : t.history = Function.update s.history (s.index % thread_count)
      (s.history (s.index % thread_count) ++ [tcpConn])) : Inv thread_count t := by
  obtain ⟨hnumber, hconn⟩ := h.pushing tcpConn hpushing
  have hbelow : ∀ i, ∀ p ∈ s.history i, p.number < tcpConn.number :=
    fun i p hp => (h.moved i p hp).1.2 tcpConn hpushing
  have hmoved {k : ℕ} (hk : k < s.accepted.length) : t.MovedPast k := by
    refine ⟨by rwa [haccepted], fun tcpConn' htcp => ?_⟩
    rw [hacceptor] at htcp
    cases htcp
  have hmem (j : ℕ) (p : Accepted C) :
      p ∈ t.history j ↔ p ∈ s.history j ∨ j = s.index % thread_count ∧ p = tcpConn := by
    rw [hhistory]
    by_cases hj : j = s.index % thread_count
    · subst hj
      simp
    · simp [hj]
  have hnew (j k : ℕ) : k ∈ (t.history j).map Accepted.number ↔
      k ∈ (s.history j).map Accepted.number ∨
        j = s.index % thread_count ∧ k = tcpConn.number := by
    simp only [List.mem_map, hmem]
    constructor
    · rintro ⟨p, hp | ⟨hj, rfl⟩, rfl⟩
      · exact Or.inl ⟨p, hp, rfl⟩
      · exact Or.inr ⟨hj, rfl⟩
    · rintro (⟨p, hp, rfl⟩ | ⟨hj, rfl⟩)
      · exact ⟨p, Or.inl hp, rfl⟩
      · exact ⟨tcpConn, Or.inr ⟨hj, rfl⟩, rfl⟩
  refine ⟨fun tcpConn' htcp => ?_, fun k hk => ?_, fun j => ?_, fun j p hp => ?_⟩
  · rw [hacceptor] at htcp
    cases htcp
  · have hk' : k < s.accepted.length := haccepted ▸ hk.1
    by_cases hlast : k = tcpConn.number
    · -- the connection pushed now: in no other history
      refine ⟨s.index % thread_count, Nat.mod_lt _ hpos, (hnew _ _).2 (Or.inr ⟨rfl, hlast⟩), ?_⟩
      intro j hj hk
      rcases (hnew j k).1 hk with hk | ⟨hj', -⟩
      · obtain ⟨p, hp, hpk⟩ := List.mem_map.1 hk
        have := hbelow j p hp
        omega
      · exact hj hj'
    · have hold : s.MovedPast k := by
        refine ⟨hk', fun tcpConn' htcp => ?_⟩
        rw [hpushing] at htcp
        cases htcp
        omega
      obtain ⟨i, hi, hin, hout⟩ := h.placed k hold
      refine ⟨i, hi, (hnew i k).2 (Or.inl hin), fun j hj hkj => ?_⟩
      rcases (hnew j k).1 hkj with hkj | ⟨-, hk⟩
      · exact hout j hj hkj
      · exact hlast hk
  · rw [hhistory]
    by_cases hj : j = s.index % thread_count
    · subst hj
      rw [Function.update_self]
      refine List.pairwise_append.2 ⟨h.ordered _, List.pairwise_singleton _ _, ?_⟩
      intro p hp q hq
      rw [List.mem_singleton.1 hq]
      exact hbelow _ p hp
    · rw [Function.update_of_ne hj]
      exact h.ordered j
  · rcases (hmem j p).1 hp with hp | ⟨-, rfl⟩
    · obtain ⟨hp, hconn⟩ := h.moved j p hp
      exact ⟨hmoved hp.1, by rw [haccepted, hconn]⟩
    · exact ⟨hmoved (by omega), by rw [haccepted, hconn]⟩

theorem inv_step (hpos : 1 ≤ thread_count) {bound : ℕ} {a : ServerAction C}
    (h : Inv thread_count s) (hstep : step thread_count bound s a = some t) :
    Inv thread_count t := by
  rcases step_cases hstep with ⟨hhistory, hacceptor, haccepted⟩ |
    ⟨conn, hacceptor, hhistory, hpushing, haccepted⟩ |
    ⟨tcpConn, hpushing, hacceptor, haccepted, hhistory⟩
  · obtain ⟨hpushing, hplaced, hordered, hmoved⟩ := h
    unfold MovedPast PlacedOnce at hplaced
    unfold MovedPast at hmoved
    constructor
    · rw [hacceptor, haccepted]
      exact hpushing
    · unfold MovedPast PlacedOnce
      rw [hacceptor, haccepted, hhistory]
      exact hplaced
    · rw [hhistory]
      exact hordered
    · unfold MovedPast
      rw [hacceptor, haccepted, hhistory]
      exact hmoved
  · exact h.accept hacceptor hhistory hpushing haccepted
  · exact h.push hpos hpushing hacceptor haccepted hhistory

/-! ## Every connection is served once -/

theorem Inv.count_history (h : Inv thread_count s) {i k : ℕ}
    (hk : k ∈ (s.history i).map Accepted.number) :
    ((s.queues_ i).map Accepted.number).count k + ((s.started i).map Accepted.number).count k =
      1 := by
  have hnodup : ((s.history i).map Accepted.number).Nodup :=
    (List.pairwise_map.2 (h.ordered i)).imp fun hlt => Nat.ne_of_lt hlt
  have hcount := List.count_eq_one_of_mem hnodup hk
  rw [history, List.map_append, List.count_append] at hcount
  omega

theorem notMem_history_iff {i k : ℕ} : k ∉ (s.history i).map Accepted.number ↔
    k ∉ (s.queues_ i).map Accepted.number ∧ k ∉ (s.started i).map Accepted.number := by
  rw [history, List.map_append, List.mem_append, not_or, and_comm]

/-- In every state of every run, a connection the acceptor has moved past is in the queue of one
worker or was given to `func_` by it, once, and no other worker has or had it; the one being pushed
is nowhere yet; and a worker starts its connections in the order they were accepted. -/
theorem served_once {bound : ℕ} (hpos : 1 ≤ thread_count) {as : List (ServerAction C)}
    (hrun : run (step thread_count bound) init as = some t) :
    (∀ k, t.MovedPast k → ∃ i < thread_count,
      ((t.queues_ i).map Accepted.number).count k +
        ((t.started i).map Accepted.number).count k = 1 ∧
      ∀ j ≠ i, k ∉ (t.queues_ j).map Accepted.number ∧ k ∉ (t.started j).map Accepted.number) ∧
    (∀ tcpConn, t.acceptor = .pushing tcpConn → ∀ i,
      tcpConn.number ∉ (t.queues_ i).map Accepted.number ∧
        tcpConn.number ∉ (t.started i).map Accepted.number) ∧
    (∀ i, ∀ p ∈ t.started i ++ t.queues_ i, t.accepted[p.number]? = some p.conn) ∧
    ∀ i, (t.started i).Pairwise fun p q => p.number < q.number := by
  have h : Inv thread_count t :=
    run_invariant (fun _ _ _ hs hstep => inv_step hpos hs hstep) (inv_init thread_count) hrun
  refine ⟨fun k hk => ?_, fun tcpConn hpushing i => ?_, fun i p hp => (h.moved i p hp).2,
    fun i => (List.pairwise_append.1 (h.ordered i)).1⟩
  · obtain ⟨i, hi, hin, hout⟩ := h.placed k hk
    exact ⟨i, hi, h.count_history hin, fun j hj => notMem_history_iff.1 (hout j hj)⟩
  · rw [← notMem_history_iff]
    intro hmem
    obtain ⟨p, hp, hnumber⟩ := List.mem_map.1 hmem
    have := (h.moved i p hp).1.2 tcpConn hpushing
    omega

/-- The third connection finds the first queue full. -/
def twoWorkers : List (ServerAction ℕ) :=
  [.accept (some 70), .push, .accept (some 71), .push, .accept none, .accept (some 72), .push,
    .pop 1, .push, .pop 0, .pop 1]

theorem served_once_twoWorkers :
    ∃ t : Server ℕ, run (step 2 1) init twoWorkers = some t ∧
      (∀ k, t.MovedPast k → ∃ i < 2,
        ((t.queues_ i).map Accepted.number).count k +
          ((t.started i).map Accepted.number).count k = 1 ∧
        ∀ j ≠ i, k ∉ (t.queues_ j).map Accepted.number ∧ k ∉ (t.started j).map Accepted.number) ∧
      (∀ tcpConn, t.acceptor = .pushing tcpConn → ∀ i,
        tcpConn.number ∉ (t.queues_ i).map Accepted.number ∧
          tcpConn.number ∉ (t.started i).map Accepted.number) ∧
      (∀ i, ∀ p ∈ t.started i ++ t.queues_ i, t.accepted[p.number]? = some p.conn) ∧
      ∀ i, (t.started i).Pairwise fun p q => p.number < q.number := by
  cases hrun : run (step 2 1) init twoWorkers with
  | none => cases hrun
  | some t => exact ⟨t, rfl, served_once (by decide) hrun⟩

end Server

end CoUringWeb
