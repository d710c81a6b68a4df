import CoUringWeb.Core.ServerProcess
import CoUringWeb.Http.StaticWebRuns

/-!
# The descriptors of the web server

The whole process with `static_web_http` as the function of its workers.  A connection is open from
its `accept` on: first the acceptor holds it, then a queue, then the coroutine that a worker starts
for it, which takes it over and closes it.  In every interleaving of the acceptor and the workers
only open descriptors are used and closed, and what is open is what each connection has left open
(`descriptors_of_process`).  As long as `accept` and `open` return descriptors that are not in use,
no two connections have the same one (`descriptors_exclusive`).
-/

namespace CoUringWeb

open Machine Transition Awaiting Interleaving

namespace StaticWeb

/-- What an event of the process does to a descriptor. -/
def serverAccess : ServerEvent ℕ FdEffect → Option (Access ℕ)
  | .accepted fd => some (.acquires fd)
  -- the coroutine takes over the connection it is started with
  | .ran (.did (.accepted _)) => none
  | .ran e => access e

/-! ## The coroutine takes over its connection -/

/-- The events do not include that a coroutine was started. -/
def TakesNone (events : List (TraceEvent FdEffect Await IoRequest)) : Prop :=
  ∀ fd, TraceEvent.did (FdEffect.accepted fd) ∉ events

theorem filterMap_ran {events : List (TraceEvent FdEffect Await IoRequest)}
    (h : TakesNone events) :
    (events.map ServerEvent.ran).filterMap serverAccess = events.filterMap access := by
  rw [List.filterMap_map]
  refine List.filterMap_congr fun e he => ?_
  match e with
  | .did (.accepted fd) => exact absurd he (h fd)
  | .did (.opened _) | .did (.closed _) | .did .threw | .asked _ | .got _ => rfl

theorem takesNone_asked (next : Next Await State) :
    TakesNone (next.asked : List (TraceEvent FdEffect Await IoRequest)) := by
  cases next <;> simp [TakesNone, Next.asked]

theorem takesNone_piece (conn : ℕ) (effects : List Effect) :
    ∀ fd, FdEffect.accepted fd ∉ (piece conn effects).effects := by
  induction effects with
  | nil => simp [piece]
  | cons e rest ih =>
    cases e with
    | close fd => simpa [piece_close] using ih
    | asyncWrite data size => simp [piece_asyncWrite]

theorem takesNone_resume (st : State) (env : Environment) (r : IoRequest) :
    TakesNone (.got r :: (coroutine.resume st env r).events) := by
  have hran (ran : Ran FdEffect Await State) (h : ∀ fd, FdEffect.accepted fd ∉ ran.effects) :
      TakesNone (.got r :: ran.events) := by
    intro fd hmem
    rcases List.mem_cons.1 hmem with heq | hmem
    · cases heq
    · rcases List.mem_append.1 hmem with hmem | hmem
      · obtain ⟨f, hf, heq⟩ := List.mem_map.1 hmem
        cases heq
        exact h fd hf
      · exact takesNone_asked _ fd hmem
  apply hran
  cases st with
  | reading conn =>
    have hanswered := answered_answer env conn r.retCode r.data
    change ∀ fd, FdEffect.accepted fd ∉ (answer env conn r.retCode r.data).effects
    generalize answer env conn r.retCode r.data = ran at hanswered
    cases hanswered with
    | replied file data size => cases file <;> simp
    | _ => simp
  | writing conn rest => exact takesNone_piece conn rest

/-- A coroutine is started with its connection, and with nothing after that. -/
theorem takes_of_alone {conn : ℕ} {events : List (TraceEvent FdEffect Await IoRequest)}
    {next : Next Await State} (h : Alone coroutine Await.Answers conn events next) :
    ∃ rest, events = .did (.accepted conn) :: rest ∧ TakesNone rest := by
  induction h with
  | start env =>
    simp only [coroutine]
    split
    · exact ⟨_, rfl, by simp [TakesNone, asyncRead, Next.asked]⟩
    · exact ⟨_, rfl, by simp [TakesNone, Next.asked]⟩
  | resume h env r hr ih =>
    obtain ⟨rest, rfl, hrest⟩ := ih
    refine ⟨_, rfl, fun fd hmem => ?_⟩
    rcases List.mem_append.1 hmem with hmem | hmem
    · exact hrest fd hmem
    · exact takesNone_resume _ env r fd hmem

/-- With its connection handed over, the coroutine has the accesses it has alone. -/
theorem filterMap_alone {conn : ℕ} {events : List (TraceEvent FdEffect Await IoRequest)}
    {next : Next Await State} (h : Alone coroutine Await.Answers conn events next) :
    (.accepted conn :: events.map .ran).filterMap serverAccess = events.filterMap access := by
  obtain ⟨rest, rfl, hrest⟩ := takes_of_alone h
  have hran := filterMap_ran hrest
  simpa [List.filterMap_cons, serverAccess, access] using hran

/-! ## Runs of the process -/

open ServerProcess

/-- The descriptors open in the process, `none` when one has been used or closed that was not
open. -/
def openTable (s : ServerProcess ℕ FdEffect State) : Option (Multiset ℕ) :=
  run Access.on 0 ((s.log.map Prod.snd).filterMap serverAccess)

/-- What has been opened for the connection with the number `k` and is still open. -/
def holds (s : ServerProcess ℕ FdEffect State) (k : ℕ) : Multiset ℕ :=
  owned ((part k s.log).filterMap serverAccess)

variable {c thread_count : ℕ} {as : List (ProcessAction ℕ Environment)}
  {s : ServerProcess ℕ FdEffect State}

theorem table_of_inv (h : Inv c thread_count coroutine s) :
    openTable s = some (∑ k ∈ Finset.range s.server.accepted.length, holds s k) := by
  refine h.run_accesses (fun conn => rfl) fun conn es next halone => ?_
  obtain ⟨t, ht, -⟩ := holds_of_alone halone
  rw [filterMap_alone halone]
  exact (tidy_of_run ht).1

/-- Where a connection is, and what is open for it. -/
def Held (thread_count : ℕ) (s : ServerProcess ℕ FdEffect State) (k conn : ℕ) : Prop :=
  Waits thread_count s.server ⟨k, conn⟩ ∧ holds s k = {conn} ∨
  ∃ i < thread_count, ∃ n : ℕ, (s.server.started i)[n]? = some ⟨k, conn⟩ ∧
    ((∃ h f, (s.loops i).frames h = some f ∧ f.thread = n ∧ f.call.req.fd = conn ∧
        holds s k = {conn}) ∨
      (∀ h f, (s.loops i).frames h = some f → f.thread ≠ n) ∧
        (holds s k = 0 ↔ .ran (.did .threw) ∉ part k s.log))

theorem held_of_served {k conn : ℕ} (h : Served thread_count coroutine s k conn)
    (hstatus : ∀ i < thread_count, (s.loops i).status ≠ .broken) :
    Held thread_count s k conn := by
  cases h with
  | waits hwaits hnone hpart =>
    refine Or.inl ⟨hwaits, ?_⟩
    rw [holds, hpart]
    rfl
  | started i n events next hi hstarted hunique hpart halone hsuspended hbroken =>
    refine Or.inr ⟨i, hi, n, hstarted, ?_⟩
    obtain ⟨t, ht, hholds⟩ := holds_of_alone halone
    have hheld : holds s k = t := by
      rw [holds, hpart, filterMap_alone halone]
      exact (tidy_of_run ht).2
    have hthrew : ServerEvent.ran (.did .threw) ∉ part k s.log ↔
        TraceEvent.did FdEffect.threw ∉ events := by
      rw [hpart]
      simp
    have hnone (hnext : ∀ q st, next ≠ .awaits q st) :
        ∀ h f, (s.loops i).frames h = some f → f.thread ≠ n := fun h f hf heq =>
      hnext f.call f.state ((hsuspended _ _).2 ⟨h, f, hf, heq, rfl, rfl⟩)
    rw [hthrew]
    cases hholds with
    | reading hnot q hq =>
      obtain ⟨h, f, hf, hthread, rfl, -⟩ := (hsuspended q _).1 rfl
      exact Or.inl ⟨h, f, hf, hthread, hq, hheld⟩
    | writing hnot q hq =>
      obtain ⟨h, f, hf, hthread, rfl, -⟩ := (hsuspended q _).1 rfl
      exact Or.inl ⟨h, f, hf, hthread, hq, hheld⟩
    | ended hnot => exact Or.inr ⟨hnone (by simp), by simp [hheld, hnot]⟩
    | threw hthrew files => exact Or.inr ⟨hnone (by simp), by simp [hheld, hthrew]⟩
    | broken t => exact absurd rfl (hbroken (hstatus i hi))

/-- One worker; it is given the first connection, which asks for the file of two bytes, while the
acceptor pushes the second. -/
def oneWorker : List (ProcessAction ℕ Environment) :=
  [.accept (some 9), .push, .push, .push, .push, .loop 0 .clear] ++
    List.replicate 3 (.pop 0 smallFile 100 0) ++
    [.accept (some 10), .pop 0 smallFile 100 0, .push, .pop 0 smallFile 100 0, .push,
      .pop 0 smallFile 100 0, .push] ++
    [.loop 0 (.complete 0 23 (ascii "GET /a.css HTTP/1.1\r\n\r\n")), .loop 0 .reap,
      .loop 0 (.popExpired 0), .loop 0 .polled, .loop 0 (.resume smallFile 0), .loop 0 .resumed]

theorem oneWorker_run :
    ∃ s, run (step 1 coroutine) (init 3 fun _ _ => ⟨0, 0⟩) oneWorker = some s ∧
      s.Bounded 1 ∧ (∀ i < 1, (s.loops i).status ≠ .broken) ∧ s.server.accepted = [9, 10] ∧
      Always Access.on (fun table a => a.Fresh table) 0
        ((s.log.map Prod.snd).filterMap serverAccess) ∧
      9 ∈ holds s 0 := by
  have hrun : (run (step 1 coroutine) (init 3 fun _ _ => ⟨0, 0⟩) oneWorker).map
      (fun s : ServerProcess ℕ FdEffect State => decide (s.Bounded 1 ∧
        (∀ i : ℕ, i < 1 → (s.loops i).status ≠ .broken) ∧ s.server.accepted = [9, 10] ∧
        Always Access.on (fun table a => a.Fresh table) 0
          ((s.log.map Prod.snd).filterMap serverAccess) ∧ 9 ∈ holds s 0)) = some true := by
    decide +kernel
  obtain ⟨s, hs, heq⟩ := Option.map_eq_some_iff.1 hrun
  exact ⟨s, hs, of_decide_eq_true heq⟩

/-- In every interleaving of the acceptor, the workers and the kernel the process uses and closes
only descriptors that are open, with fewer than `2 ^ 32` connections and `2 ^ 64` requests in each
worker (`Bounded`) and as long as no coroutine has stopped the process (`broken`).  What is open is
what is open for each connection: the connection itself while it waits and while its coroutine is
suspended, and nothing once the coroutine has ended, unless an exception has ended it. -/
theorem descriptors_of_process (hc : 1 ≤ c) (hpos : 1 ≤ thread_count) (mem : ℕ → ℕ → Accepted ℕ)
    (hrun : run (step thread_count coroutine) (init c mem) as = some s)
    (hbounded : s.Bounded thread_count)
    (hstatus : ∀ i < thread_count, (s.loops i).status ≠ .broken) :
    openTable s = some (∑ k ∈ Finset.range s.server.accepted.length, holds s k) ∧
    ∀ k conn, s.server.accepted[k]? = some conn → Held thread_count s k conn := by
  have hinv := inv_run hc hpos mem hrun hbounded
  exact ⟨table_of_inv hinv, fun k conn hk => held_of_served (hinv.served hk) hstatus⟩

theorem descriptors_of_process_oneWorker :
    ∃ s, run (step 1 coroutine) (init 3 fun _ _ => ⟨0, 0⟩) oneWorker = some s ∧
      openTable s = some (∑ k ∈ Finset.range s.server.accepted.length, holds s k) := by
  obtain ⟨s, hs, hbounded, hstatus, -⟩ := oneWorker_run
  exact ⟨s, hs, (descriptors_of_process (by norm_num) (by norm_num) _ hs hbounded hstatus).1⟩

/-- If `accept` and `open` return only descriptors that are not open, none is open for two
connections, nor twice for one, within the same bounds: what a worker reads, writes and closes is
its own. -/
theorem descriptors_exclusive (hc : 1 ≤ c) (hpos : 1 ≤ thread_count) (mem : ℕ → ℕ → Accepted ℕ)
    (hrun : run (step thread_count coroutine) (init c mem) as = some s)
    (hbounded : s.Bounded thread_count)
    (hfresh : Always Access.on (fun table a => a.Fresh table) 0
      ((s.log.map Prod.snd).filterMap serverAccess))
    {k j fd : ℕ} (hk : k < s.server.accepted.length) (hj : j < s.server.accepted.length)
    (hfdk : fd ∈ holds s k) (hfdj : fd ∈ holds s j) : k = j ∧ (holds s k).count fd = 1 := by
  have hnodup := nodup_of_fresh hfresh (table_of_inv (inv_run hc hpos mem hrun hbounded))
  refine ⟨owner_unique hnodup (Finset.mem_range.2 hk) (Finset.mem_range.2 hj) hfdk hfdj, ?_⟩
  exact Multiset.count_eq_one_of_mem (nodup_of_mem hnodup (Finset.mem_range.2 hk)) hfdk

theorem descriptors_exclusive_oneWorker :
    ∃ s, run (step 1 coroutine) (init 3 fun _ _ => ⟨0, 0⟩) oneWorker = some s ∧
      (holds s 0).count 9 = 1 := by
  obtain ⟨s, hs, hbounded, -, haccepted, hfresh, hmem⟩ := oneWorker_run
  have hlt : 0 < s.server.accepted.length := by
    rw [haccepted]
    exact Nat.two_pos
  exact ⟨s, hs, (descriptors_exclusive (by norm_num) (by norm_num) _ hs hbounded hfresh hlt hlt
    hmem hmem).2⟩

end StaticWeb

end CoUringWeb
