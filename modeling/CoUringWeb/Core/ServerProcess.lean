import CoUringWeb.Core.TcpServerThreads
import CoUringWeb.Core.UringLoopRuns

/-!
# The whole server

The acceptor of `TcpServer::run` and the `Scheduler::loop` of every worker, with the queues between
them and the coroutines the workers start: `ServerThreads` and one `UringLoop` for each worker.  A
worker's loop takes a step of `pop` where it is in its `while (queue_->pop(conn))`; when that step
returns a connection the loop calls `func_` on it, and when it returns that the queue is empty the
loop goes on to `poll`.

`log` is what has happened to each connection, under the number of its `accept`: that it was
accepted, and what the coroutine started for it has done.  However the steps of the acceptor, of the
workers and of the kernel fall between each other, the part of one connection is that of one
coroutine run on it alone, with calls that block, or the connection still waits
(`served_alone`).  So what each coroutine keeps alone the process keeps (`run_accesses`).  `Causes`
says which action causes which events, and in which surroundings a piece of a coroutine runs.

As in `UringLoop`, the loop of a worker is followed up to the first operation that moves bytes after
its request was handed out, and there the run of the process ends.  Without timeouts that does not
happen; with them what is said of every run is said up to there, and `served_alone` would fail
afterwards.
-/

namespace CoUringWeb

open Machine Transition Awaiting Interleaving LockfreeQueue

variable {A E F S : Type*}

/-! ## The coroutines of one loop -/

namespace UringLoop

/-- The connections that an action starts a coroutine for. -/
def Action.connects : Action A E → List A
  | .connect a _ _ _ => [a]
  | _ => []

/-- The loop has started a coroutine for each of `conns`, in this order, and each of them does what
it can do alone. -/
def Serves (p : Coroutine A E F S) (conns : List A) (w : UringLoop F S) : Prop :=
  ∃ t, Threads.Inv p Await.Answers t ∧ Matches w t ∧ t.threads.map Prod.fst = conns

variable {p : Coroutine A E F S} {w v : UringLoop F S} {b : Action A E} {conns : List A}

theorem serves_new : Serves p [] (new : UringLoop F S) :=
  ⟨Threads.new, Threads.inv_new, matches_new, rfl⟩

theorem settle_started {h : Handle} {n now : ℕ} {ran : Ran F Await S}
    (hv : w.settle h n ran now = some v) : v.started = w.started := by
  cases settled_of_settle hv <;> rfl

@[simp] theorem store_started (w : UringLoop F S) (h : Handle) (g : IoRequest → IoRequest) :
    (w.store h g).started = w.started := by
  unfold store; split <;> rfl

@[simp] theorem store_log (w : UringLoop F S) (h : Handle) (g : IoRequest → IoRequest) :
    (w.store h g).log = w.log := by
  unfold store; split <;> rfl

@[simp] theorem handOver_started (w : UringLoop F S) (ring : Uring) :
    (w.handOver ring).started = w.started := by
  unfold handOver; split <;> simp

@[simp] theorem handOver_log (w : UringLoop F S) (ring : Uring) :
    (w.handOver ring).log = w.log := by
  unfold handOver; split <;> simp

@[simp] theorem completed_started (w : UringLoop F S) (ring : Uring) (id : ℕ) (res : ℤ)
    (bytes : Bytes) : (w.completed ring id res bytes).started = w.started := by
  unfold completed
  split
  · simp
  · split <;> rfl

@[simp] theorem completed_log (w : UringLoop F S) (ring : Uring) (id : ℕ) (res : ℤ)
    (bytes : Bytes) : (w.completed ring id res bytes).log = w.log := by
  unfold completed
  split
  · simp
  · split <;> rfl

/-- No action but `connect` starts a coroutine. -/
theorem started_of_effect (hb : b.connects = []) (hv : Effect p w b v) :
    v.started = w.started := by
  cases hv with
  | connected a e h now v hpoint hfree hv => cases hb
  | resumed e now o os f v hready hpoint hf hv =>
    have hstarted := settle_started hv
    exact hstarted
  | completed => exact completed_started ..
  | reaped => exact handOver_started ..
  | expired => exact handOver_started ..
  | cleared | moved | popped | lost => rfl

theorem settle_log {h : Handle} {n now : ℕ} {ran : Ran F Await S}
    (hv : w.settle h n ran now = some v) : v.log = w.log ++ tagged n ran.events := by
  cases settled_of_settle hv <;> rfl

/-- The events of a step are those of one piece of one coroutine: the first piece of a new one, or
the next piece of the one whose address is the first ready. -/
inductive Causes (p : Coroutine A E F S) (w v : UringLoop F S) : Action A E → Prop where
  | nothing (b : Action A E) (hlog : v.log = w.log) : Causes p w v b
  | start (a : A) (e : E) (h : Handle) (now : ℕ)
      (hlog : v.log = w.log ++ tagged w.started (p.start a e).events) :
      Causes p w v (.connect a e h now)
  | resume (e : E) (now : ℕ) (o : HandOut) (os : List HandOut) (f : Frame S)
      (hready : w.ready = o :: os) (hf : w.frames o.req.context = some f)
      (hlog : v.log =
        w.log ++ tagged f.thread (.got f.req :: (p.resume f.state e f.req).events)) :
      Causes p w v (.resume e now)

theorem causes_of_effect (hv : Effect p w b v) : Causes p w v b := by
  cases hv with
  | connected a e h now v hpoint hfree hv =>
    have hlog := settle_log hv
    exact .start a e h now hlog
  | resumed e now o os f v hready hpoint hf hv =>
    refine .resume e now o os f hready hf ?_
    rw [settle_log hv, List.append_assoc]
    rfl
  | completed => exact .nothing _ (completed_log ..)
  | reaped => exact .nothing _ (handOver_log ..)
  | expired => exact .nothing _ (handOver_log ..)
  | cleared | moved | popped | lost => exact .nothing _ rfl

theorem Causes.log (h : Causes p w v b) : ∃ n es, v.log = w.log ++ tagged n es := by
  cases h with
  | nothing b hlog => exact ⟨0, [], hlog.trans (List.append_nil _).symm⟩
  | start a e h now hlog => exact ⟨_, _, hlog⟩
  | resume e now o os f hready hf hlog => exact ⟨_, _, hlog⟩

theorem connected_of_step {a : A} {e : E} {h : Handle} {now : ℕ}
    (hv : w.step p (.connect a e h now) = some v) :
    w.status = .running ∧ w.point = .accepting ∧ w.frames h = none ∧
      { w with started := w.started + 1 }.settle h w.started (p.start a e) now = some v := by
  unfold step at hv
  split at hv <;> [rename_i hstatus; cases hv]
  simp only [advance] at hv
  split at hv <;> [rename_i hguard; cases hv]
  exact ⟨hstatus, hguard.1, Option.isNone_iff_eq_none.1 hguard.2, hv⟩

/-- A step starts the coroutine of its action, and all of them go on as they do alone. -/
theorem Serves.step (h : Serves p conns w) (hv : w.step p b = some v)
    (hlt : v.ring.submissions.length < 2 ^ 64) : Serves p (conns ++ b.connects) v := by
  obtain ⟨t, hinv, hm, rfl⟩ := h
  have hothers (hb : b.connects = []) : Serves p (t.threads.map Prod.fst ++ b.connects) v := by
    obtain ⟨hstatus, heffect⟩ := effect_of_step hv
    obtain ⟨bs, t', hrun, hallowed, hm'⟩ := effect_matches hm hstatus heffect hlt
    have hinv' := run_invariant_of_always (fun _ _ _ => Threads.inv_step) hinv hallowed hrun
    -- the threads keep their arguments, and there are no more of them than before
    have hargs : t.threads.map Prod.fst <+: t'.threads.map Prod.fst :=
      run_invariant (I := fun u => t.threads.map Prod.fst <+: u.threads.map Prod.fst)
        (fun _ _ _ hu hstep => hu.trans (Threads.args_step hstep)) (List.prefix_refl _) hrun
    have hlength : t.threads.length = t'.threads.length := by
      rw [← hm.started, ← hm'.started, started_of_effect hb heffect]
    refine ⟨t', hinv', hm', ?_⟩
    rw [hb, List.append_nil]
    exact (hargs.eq_of_length (by simpa using hlength)).symm
  cases b with
  | connect a e h now =>
    obtain ⟨hstatus, hpoint, hfree, hsettle⟩ := connected_of_step hv
    refine ⟨_, Threads.inv_step (b := .start a e) hinv trivial rfl,
      connect_matches hm hpoint hfree hstatus hsettle hlt, ?_⟩
    rw [List.map_append]
    rfl
  | _ => exact hothers rfl

theorem Serves.lt (h : Serves p conns w) : ∀ x ∈ w.log, x.1 < conns.length := by
  obtain ⟨t, hinv, hm, rfl⟩ := h
  rw [hm.log, List.length_map]
  exact hinv.lt

theorem Serves.length (h : Serves p conns w) : w.started = conns.length := by
  obtain ⟨t, -, hm, rfl⟩ := h
  rw [hm.started, List.length_map]

/-- The coroutine at the first ready address has the answer to what it has asked. -/
theorem Serves.answers (h : Serves p conns w) {o : HandOut} {os : List HandOut}
    (hready : w.ready = o :: os) {f : Frame S} (hf : w.frames o.req.context = some f) :
    f.thread < conns.length ∧ f.call.Answers f.req := by
  obtain ⟨t, -, hm, rfl⟩ := h
  have hlinks := hm.links
  rw [hready] at hlinks
  obtain ⟨g, hg, hanswers, -⟩ := hlinks.resume
  cases hf.symm.trans hg
  obtain ⟨-, a, hget⟩ := hm.follows.point _ f hf
  refine ⟨?_, hanswers⟩
  rw [List.length_map]
  exact (List.getElem?_eq_some_iff.1 hget).1

/-- Each coroutine has done what it can do alone, and is suspended exactly where its frame says. -/
theorem Serves.alone (h : Serves p conns w) {n : ℕ} {a : A} (hn : conns[n]? = some a) :
    ∃ next, Alone p Await.Answers a (part n w.log) next ∧
      (∀ q s, next = .awaits q s ↔
        ∃ h f, w.frames h = some f ∧ f.thread = n ∧ f.call = q ∧ f.state = s) ∧
      (w.status ≠ .broken → next ≠ .broken) := by
  obtain ⟨t, hinv, hm, rfl⟩ := h
  rw [List.getElem?_map, Option.map_eq_some_iff] at hn
  obtain ⟨⟨a', next⟩, hget, rfl⟩ := hn
  refine ⟨next, ?_, fun q s => ?_, fun hstatus hnext => hstatus (hm.broken.2 ⟨n, a', ?_⟩)⟩
  · have halone := hinv.alone n a' next hget
    rwa [Threads.events, ← hm.log] at halone
  · rw [← hm.suspended_iff n q s, hget]
    constructor
    · rintro rfl
      exact ⟨a', rfl⟩
    · rintro ⟨a, heq⟩
      exact congrArg Prod.snd (Option.some.inj heq)
  · rw [hget, hnext]

theorem submissions_mono_step (hv : w.step p b = some v) :
    w.ring.submissions.length ≤ v.ring.submissions.length :=
  submissions_mono (effect_of_step hv).2

end UringLoop

/-! ## The process -/

inductive ServerEvent (A F : Type*) where
  /-- `accept` has returned the connection -/
  | accepted (conn : A)
  /-- its coroutine has caused an event -/
  | ran (e : TraceEvent F Await IoRequest)

structure ServerProcess (A F S : Type*) where
  server : ServerThreads A
  loops : ℕ → UringLoop F S
  /-- what has happened, each event with the number of its connection -/
  log : List (ℕ × ServerEvent A F)

inductive ProcessAction (A E : Type*) where
  | accept (conn : Option A)
  | push
  /-- a step of `pop` by worker `i`; a coroutine started for its result gets a frame at `h` -/
  | pop (i : ℕ) (e : E) (h : Handle) (now : ℕ)
  /-- the loop of worker `i` takes a step between two of its `pop`s -/
  | loop (i : ℕ) (b : UringLoop.Action A E)

/-- The action does not follow on a `pop`. -/
def UringLoop.Action.apart : UringLoop.Action A E → Bool
  | .connect _ _ _ _ | .poll => false
  | _ => true

namespace ServerProcess

/-- The process when its threads start. -/
def init (capicity : ℕ) (mem : ℕ → ℕ → Accepted A) : ServerProcess A F S where
  server := .init capicity mem
  loops := fun _ => .new
  log := []

/-- The number of the connection that worker `i` has started its coroutine `n` for. -/
def number (server : ServerThreads A) (i n : ℕ) : ℕ :=
  ((server.started i)[n]?.map Accepted.number).getD 0

/-- A step of worker `i` has left the queues and its loop as given. -/
def advanced (s : ServerProcess A F S) (i : ℕ) (server : ServerThreads A) (loop : UringLoop F S) :
    ServerProcess A F S where
  server := server
  loops := Function.update s.loops i loop
  log := s.log ++
    (loop.log.drop (s.loops i).log.length).map fun x => (number server i x.1, .ran x.2)

/-- The loop goes on with what `pop` has returned, if it has. -/
def popped (p : Coroutine A E F S) (w : UringLoop F S) (e : E) (h : Handle) (now : ℕ) :
    Option (Return Unit (Accepted A)) → Option (UringLoop F S)
  | some ⟨_, _, .popped (some conn)⟩ => w.step p (.connect conn.conn e h now)
  | some ⟨_, _, .popped none⟩ => w.step p .poll
  | _ => some w

/-- A step while the process runs. -/
def advance (thread_count : ℕ) (p : Coroutine A E F S) (s : ServerProcess A F S) :
    ProcessAction A E → Option (ServerProcess A F S)
  | .accept conn =>
    (s.server.step thread_count (.accept conn)).map fun server =>
      { s with
        server := server
        log := s.log ++ conn.toList.map fun a => (s.server.accepted.length, .accepted a) }
  | .push => (s.server.step thread_count .push).map fun server => { s with server := server }
  | .pop i e h now =>
    if (s.loops i).point = .accepting then
      (s.server.step thread_count (.pop i)).bind fun server =>
        (popped p (s.loops i) e h now (returned (s.server.queues_ i) (.consumer ()))).map
          (s.advanced i server)
    else none
  | .loop i b =>
    if i < thread_count ∧ b.apart then
      (match b with
        | .resumed => s.server.step thread_count (.poll i)
        | _ => some s.server).bind fun server =>
          ((s.loops i).step p b).map (s.advanced i server)
    else none

/-- The process runs until a coroutine of one worker has stopped it, or it is undefined. -/
def step (thread_count : ℕ) (p : Coroutine A E F S) (s : ServerProcess A F S)
    (a : ProcessAction A E) : Option (ServerProcess A F S) :=
  if ∀ i < thread_count, (s.loops i).status = .running then s.advance thread_count p a else none

/-! ## What a step can do -/

/-- The connections that the answer of a `pop` gives to the worker. -/
def given : Option (Return Unit (Accepted A)) → List (Accepted A)
  | some ⟨_, _, .popped (some conn)⟩ => [conn]
  | _ => []

variable {thread_count : ℕ} {p : Coroutine A E F S} {s t : ServerProcess A F S}

/-- The possible effects of an action. -/
inductive Effect (thread_count : ℕ) (p : Coroutine A E F S) (s : ServerProcess A F S) :
    ServerProcess A F S → Prop where
  | acceptor (conns : List A) (a : ServerAction A) (server : ServerThreads A)
      (hserver : s.server.step thread_count a = some server) (hone : conns.length ≤ 1)
      (haccepted : server.accepted = s.server.accepted ++ conns)
      (hstarted : server.started = s.server.started) :
      Effect thread_count p s
        { s with
          server := server
          log := s.log ++ conns.map fun a => (s.server.accepted.length, .accepted a) }
  | worker (i : ℕ) (hi : i < thread_count) (conns : List (Accepted A))
      (server : ServerThreads A) (loop : UringLoop F S)
      (hserver : server = s.server ∨ ∃ a, s.server.step thread_count a = some server)
      (haccepted : server.accepted = s.server.accepted)
      (hstarted : server.started =
        Function.update s.server.started i (s.server.started i ++ conns))
      (hloop : loop = s.loops i ∧ conns = [] ∨
        ∃ b, (s.loops i).step p b = some loop ∧ b.connects = conns.map Accepted.conn) :
      Effect thread_count p s (s.advanced i server loop)

theorem server_accept {server : ServerThreads A} {conn : Option A}
    (h : s.server.step thread_count (.accept conn) = some server) :
    server.accepted = s.server.accepted ++ conn.toList ∧ server.started = s.server.started := by
  dsimp only [ServerThreads.step] at h
  split at h <;> cases h
  · exact ⟨(List.append_nil _).symm, rfl⟩
  · exact ⟨rfl, rfl⟩

theorem server_push {server : ServerThreads A}
    (h : s.server.step thread_count .push = some server) :
    server.accepted = s.server.accepted ∧ server.started = s.server.started := by
  dsimp only [ServerThreads.step] at h
  split at h
  · cases h
  · obtain ⟨q, hq, rfl⟩ := Option.map_eq_some_iff.1 h
    refine ⟨ServerThreads.accepted_answered .., ?_⟩
    -- only a `pop` gives a connection to a worker
    unfold pushTurn
    split
    · rfl
    · simp only [returned, producerReturn]
      split <;> (try split) <;> rfl

theorem server_pop {server : ServerThreads A} {i : ℕ}
    (h : s.server.step thread_count (.pop i) = some server) :
    i < thread_count ∧ server.accepted = s.server.accepted ∧
      server.started = Function.update s.server.started i
        (s.server.started i ++ given (returned (s.server.queues_ i) (.consumer ()))) := by
  dsimp only [ServerThreads.step] at h
  split at h <;> [rename_i hguard; cases h]
  obtain ⟨q, hq, rfl⟩ := Option.map_eq_some_iff.1 h
  refine ⟨hguard.1, ServerThreads.accepted_answered .., ?_⟩
  generalize returned (s.server.queues_ i) (.consumer ()) = ret
  have hsame : Function.update s.server.started i (s.server.started i ++ []) =
      s.server.started := by rw [List.append_nil, Function.update_eq_self]
  unfold ServerThreads.answered given
  split
  · exact hsame.symm
  · exact hsame.symm
  · rename_i conn
    cases conn with
    | none => exact hsame.symm
    | some conn => rfl

theorem server_poll {server : ServerThreads A} {i : ℕ}
    (h : s.server.step thread_count (.poll i) = some server) :
    server.accepted = s.server.accepted ∧ server.started = s.server.started := by
  dsimp only [ServerThreads.step] at h
  split at h <;> cases h
  exact ⟨rfl, rfl⟩

/-- A step of worker `i` that gives it nothing. -/
theorem effect_of_loop {i : ℕ} (hi : i < thread_count) {b : UringLoop.Action A E}
    {server : ServerThreads A} {loop : UringLoop F S} (hb : b.connects = [])
    (hserver : server = s.server ∨ ∃ a, s.server.step thread_count a = some server)
    (hsame : server.accepted = s.server.accepted ∧ server.started = s.server.started)
    (hloop : (s.loops i).step p b = some loop) :
    Effect thread_count p s (s.advanced i server loop) := by
  refine .worker i hi [] server loop hserver hsame.1 ?_ (Or.inr ⟨b, hloop, hb⟩)
  rw [List.append_nil, Function.update_eq_self, hsame.2]

theorem effect_of_popped {i : ℕ} {e : E} {h : Handle} {now : ℕ} {server : ServerThreads A}
    {loop : UringLoop F S} (hserver : s.server.step thread_count (.pop i) = some server)
    (hloop : popped p (s.loops i) e h now (returned (s.server.queues_ i) (.consumer ())) =
      some loop) : Effect thread_count p s (s.advanced i server loop) := by
  obtain ⟨hi, haccepted, hstarted⟩ := server_pop hserver
  refine .worker i hi _ server loop (Or.inr ⟨_, hserver⟩) haccepted hstarted ?_
  generalize returned (s.server.queues_ i) (.consumer ()) = ret at hloop
  unfold popped at hloop
  unfold given
  split at hloop
  · exact Or.inr ⟨_, hloop, rfl⟩
  · exact Or.inr ⟨_, hloop, rfl⟩
  · rename_i hconn hnone
    cases hloop
    refine Or.inl ⟨rfl, ?_⟩
    split
    · exact absurd rfl (hconn _ _ _)
    · rfl

theorem effect_of_step {a : ProcessAction A E} (h : s.step thread_count p a = some t) :
    Effect thread_count p s t := by
  unfold step at h
  split at h <;> [skip; cases h]
  cases a with
  | accept conn =>
    obtain ⟨server, hserver, rfl⟩ := Option.map_eq_some_iff.1 h
    obtain ⟨haccepted, hstarted⟩ := server_accept hserver
    exact .acceptor conn.toList _ server hserver (by cases conn <;> simp) haccepted hstarted
  | push =>
    obtain ⟨server, hserver, rfl⟩ := Option.map_eq_some_iff.1 h
    obtain ⟨haccepted, hstarted⟩ := server_push hserver
    have heffect := Effect.acceptor (p := p) [] _ server hserver (Nat.zero_le _)
      (haccepted.trans (List.append_nil _).symm) hstarted
    simpa using heffect
  | pop i e h' now =>
    dsimp only [advance] at h
    split at h <;> [skip; cases h]
    obtain ⟨server, hserver, h⟩ := Option.bind_eq_some_iff.1 h
    obtain ⟨loop, hloop, rfl⟩ := Option.map_eq_some_iff.1 h
    exact effect_of_popped hserver hloop
  | loop i b =>
    dsimp only [advance] at h
    split at h <;> [rename_i hguard; cases h]
    obtain ⟨server, hserver, h⟩ := Option.bind_eq_some_iff.1 h
    obtain ⟨loop, hloop, rfl⟩ := Option.map_eq_some_iff.1 h
    have hb : b.connects = [] := by
      have := hguard.2
      cases b <;> first | rfl | cases this
    split at hserver
    · exact effect_of_loop hguard.1 hb (Or.inr ⟨_, hserver⟩) (server_poll hserver) hloop
    · cases hserver
      exact effect_of_loop hguard.1 hb (Or.inl rfl) ⟨rfl, rfl⟩ hloop

/-! ## The connections and their coroutines -/

structure Inv (c thread_count : ℕ) (p : Coroutine A E F S) (s : ServerProcess A F S) : Prop where
  server : s.server.Sound c thread_count
  serves : ∀ i, (s.loops i).Serves p ((s.server.started i).map Accepted.conn)
  lt : ∀ x ∈ s.log, x.1 < s.server.accepted.length
  /-- nothing but its `accept` has happened to a connection that no worker was given -/
  waiting : ∀ k conn, s.server.accepted[k]? = some conn →
    (∀ i, ∀ x ∈ s.server.started i, x.number ≠ k) → part k s.log = [.accepted conn]
  ran : ∀ i n x, (s.server.started i)[n]? = some x →
    part x.number s.log = .accepted x.conn :: (part n (s.loops i).log).map .ran

theorem inv_init {c : ℕ} (hc : 1 ≤ c) (thread_count : ℕ) (p : Coroutine A E F S)
    (mem : ℕ → ℕ → Accepted A) : Inv c thread_count p (init c mem) where
  server := ServerThreads.sound_init hc thread_count mem
  serves _ := UringLoop.serves_new
  lt _ hx := by cases hx
  waiting _ _ hk := by cases hk
  ran _ _ _ hx := by cases hx

variable {c : ℕ}

/-- What a worker was given, the acceptor has accepted. -/
theorem started_lt {server : ServerThreads A} (h : server.Sound c thread_count) {i : ℕ}
    {x : Accepted A} (hx : x ∈ server.started i) :
    x.number < server.accepted.length ∧ server.accepted[x.number]? = some x.conn :=
  have hmoved := h.server.moved i x (List.mem_append_left _ hx)
  ⟨hmoved.1.1, hmoved.2⟩

/-- Only the workers are given connections. -/
theorem started_worker {server : ServerThreads A} (h : server.Sound c thread_count) {i : ℕ}
    {x : Accepted A} (hx : x ∈ server.started i) : i < thread_count := by
  have hhistory : x ∈ server.server.history i := List.mem_append_left _ hx
  obtain ⟨k, hk, -, hothers⟩ := h.server.placed x.number (h.server.moved i x hhistory).1
  by_contra hi
  exact hothers i (by omega) (List.mem_map_of_mem hhistory)

/-- A connection is started once. -/
theorem started_unique {server : ServerThreads A} (h : server.Sound c thread_count) {i j m n : ℕ}
    {x y : Accepted A} (hx : (server.started i)[m]? = some x)
    (hy : (server.started j)[n]? = some y) (heq : x.number = y.number) : i = j ∧ m = n := by
  have hhistory {i m : ℕ} {x : Accepted A} (hx : (server.started i)[m]? = some x) :
      (server.server.history i)[m]? = some x :=
    (List.getElem?_append_left (List.getElem?_eq_some_iff.1 hx).1).trans hx
  have hmem {i m : ℕ} {x : Accepted A} (hx : (server.started i)[m]? = some x) :
      x.number ∈ (server.server.history i).map Accepted.number :=
    List.mem_map_of_mem (List.mem_of_getElem? (hhistory hx))
  have hmoved := (h.server.moved i x (List.mem_of_getElem? (hhistory hx))).1
  obtain ⟨k, -, -, hothers⟩ := h.server.placed x.number hmoved
  have hi : i = k := by
    by_contra hne
    exact hothers i hne (hmem hx)
  have hj : j = k := by
    by_contra hne
    exact hothers j hne (heq ▸ hmem hy)
  subst hi hj
  refine ⟨rfl, ?_⟩
  have hordered := List.pairwise_iff_getElem.1 (h.server.ordered j)
  obtain ⟨hm, hxm⟩ := List.getElem?_eq_some_iff.1 (hhistory hx)
  obtain ⟨hn, hyn⟩ := List.getElem?_eq_some_iff.1 (hhistory hy)
  rcases Nat.lt_trichotomy m n with hlt | hlt | hlt
  · have := hordered m n hm hn hlt
    rw [hxm, hyn] at this
    omega
  · exact hlt
  · have := hordered n m hn hm hlt
    rw [hxm, hyn] at this
    omega

theorem advanced_log {i n : ℕ} {es : List (TraceEvent F Await IoRequest)}
    (server : ServerThreads A) {loop : UringLoop F S}
    (hlog : loop.log = (s.loops i).log ++ tagged n es) :
    (s.advanced i server loop).log = s.log ++ tagged (number server i n) (es.map .ran) := by
  rw [advanced, hlog, List.drop_left]
  simp [tagged]

theorem number_eq {server : ServerThreads A} {i n : ℕ} {x : Accepted A}
    (hx : (server.started i)[n]? = some x) : number server i n = x.number := by
  rw [number, hx]
  rfl

/-- What an action adds to the log: the return of an `accept`, the first piece of a new coroutine,
or the next piece of one that has got the answer to what it has asked. -/
inductive Causes (p : Coroutine A E F S) (s t : ServerProcess A F S) :
    ProcessAction A E → Prop where
  | nothing (a : ProcessAction A E) (hlog : t.log = s.log) : Causes p s t a
  | accept (conn : A)
      (hlog : t.log = s.log ++ tagged s.server.accepted.length [.accepted conn]) :
      Causes p s t (.accept (some conn))
  | start (i : ℕ) (e : E) (h : Handle) (now k : ℕ) (conn : A)
      (hlog : t.log = s.log ++ tagged k ((p.start conn e).events.map .ran)) :
      Causes p s t (.pop i e h now)
  | resume (i : ℕ) (e : E) (now : ℕ) (h : Handle) (f : Frame S) (x : Accepted A)
      (hf : (s.loops i).frames h = some f) (hx : (s.server.started i)[f.thread]? = some x)
      (hanswers : f.call.Answers f.req)
      (hlog : t.log = s.log ++
        tagged x.number ((.got f.req :: (p.resume f.state e f.req).events).map .ran)) :
      Causes p s t (.loop i (.resume e now))

theorem Inv.causes (h : Inv c thread_count p s) {a : ProcessAction A E}
    (hstep : s.step thread_count p a = some t) : Causes p s t a := by
  have hnothing {i : ℕ} {server : ServerThreads A} {loop : UringLoop F S}
      (hlog : loop.log = (s.loops i).log) : (s.advanced i server loop).log = s.log := by
    rw [advanced, hlog, List.drop_length, List.map_nil, List.append_nil]
  have hcauses {i : ℕ} {b : UringLoop.Action A E} {loop : UringLoop F S}
      (hloop : (s.loops i).step p b = some loop) : UringLoop.Causes p (s.loops i) loop b :=
    UringLoop.causes_of_effect (UringLoop.effect_of_step hloop).2
  unfold step at hstep
  split at hstep <;> [skip; cases hstep]
  cases a with
  | accept conn =>
    obtain ⟨server, -, rfl⟩ := Option.map_eq_some_iff.1 hstep
    cases conn with
    | none => exact .nothing _ (List.append_nil _)
    | some conn => exact .accept conn rfl
  | push =>
    obtain ⟨server, -, rfl⟩ := Option.map_eq_some_iff.1 hstep
    exact .nothing _ rfl
  | pop i e h' now =>
    dsimp only [advance] at hstep
    split at hstep <;> [skip; cases hstep]
    obtain ⟨server, -, hstep⟩ := Option.bind_eq_some_iff.1 hstep
    obtain ⟨loop, hloop, rfl⟩ := Option.map_eq_some_iff.1 hstep
    unfold popped at hloop
    split at hloop
    · cases hcauses hloop with
      | nothing b hlog => exact .nothing _ (hnothing hlog)
      | start conn e h' now hlog => exact .start i e h' now _ _ (advanced_log server hlog)
    · cases hcauses hloop with
      | nothing b hlog => exact .nothing _ (hnothing hlog)
    · cases hloop
      exact .nothing _ (hnothing rfl)
  | loop i b =>
    dsimp only [advance] at hstep
    split at hstep <;> [rename_i hguard; cases hstep]
    obtain ⟨server, hserver, hstep⟩ := Option.bind_eq_some_iff.1 hstep
    obtain ⟨loop, hloop, rfl⟩ := Option.map_eq_some_iff.1 hstep
    cases hcauses hloop with
    | nothing b hlog => exact .nothing _ (hnothing hlog)
    | start conn e h' now hlog => cases hguard.2
    | resume e now o os f hready hf hlog =>
      cases hserver
      obtain ⟨hlt, hanswers⟩ := (h.serves i).answers hready hf
      rw [List.length_map] at hlt
      have hx := List.getElem?_eq_getElem hlt
      refine .resume i e now _ f _ hf hx hanswers ?_
      rw [advanced_log s.server hlog, number_eq hx]

theorem inv_acceptor (h : Inv c thread_count p s) {conns : List A} {server : ServerThreads A}
    (hsound : server.Sound c thread_count) (hone : conns.length ≤ 1)
    (haccepted : server.accepted = s.server.accepted ++ conns)
    (hstarted : server.started = s.server.started) :
    Inv c thread_count p
      { s with
        server := server
        log := s.log ++ conns.map fun a => (s.server.accepted.length, .accepted a) } := by
  have hlog : (conns.map fun a => (s.server.accepted.length, (.accepted a : ServerEvent A F))) =
      tagged s.server.accepted.length (conns.map .accepted) := by
    simp [tagged]
  rw [hlog]
  have hnew : part s.server.accepted.length s.log = [] := part_of_forall_lt h.lt
  refine ⟨hsound, ?_, fun x hx => ?_, fun k conn hk hnone => ?_, fun i n x hx => ?_⟩
  · rw [hstarted]
    exact h.serves
  · rw [haccepted, List.length_append]
    rcases List.mem_append.1 hx with hx | hx
    · exact Nat.lt_add_right _ (h.lt x hx)
    · obtain ⟨e, he, rfl⟩ := List.mem_map.1 hx
      have := List.length_pos_of_mem he
      rw [List.length_map] at this
      exact Nat.lt_add_of_pos_right this
  · rw [haccepted] at hk
    rw [hstarted] at hnone
    rw [part_append]
    by_cases hlt : k < s.server.accepted.length
    · rw [List.getElem?_append_left hlt] at hk
      rw [part_tagged_of_ne (by omega), List.append_nil]
      exact h.waiting k conn hk hnone
    · -- the connection accepted now
      rw [List.getElem?_append_right (by omega)] at hk
      obtain ⟨hlen, hget⟩ := List.getElem?_eq_some_iff.1 hk
      have hk' : k = s.server.accepted.length := by omega
      have hconns : conns = [conn] := by
        obtain ⟨a, rfl⟩ := List.length_eq_one_iff.1 (Nat.le_antisymm hone (by omega))
        simpa using hget
      rw [hk', hnew, part_tagged_self, hconns]
      rfl
  · rw [hstarted] at hx
    have hlt := (started_lt h.server (List.mem_of_getElem? hx)).1
    rw [part_append, part_tagged_of_ne (by omega), List.append_nil]
    exact h.ran i n x hx

/-- The events of a worker's step are those of a coroutine that it has started. -/
theorem events_of_step {i : ℕ} {server : ServerThreads A} {loop : UringLoop F S}
    (hserves : loop.Serves p ((server.started i).map Accepted.conn))
    (hloop : loop = s.loops i ∨ ∃ b, (s.loops i).step p b = some loop) :
    ∃ n es, loop.log = (s.loops i).log ++ tagged n es ∧
      (es = [] ∨ ∃ y, (server.started i)[n]? = some y) := by
  rcases hloop with rfl | ⟨b, hb⟩
  · exact ⟨0, [], (List.append_nil _).symm, Or.inl rfl⟩
  · obtain ⟨n, es, hlog⟩ := (UringLoop.causes_of_effect (UringLoop.effect_of_step hb).2).log
    refine ⟨n, es, hlog, ?_⟩
    cases es with
    | nil => exact Or.inl rfl
    | cons e es =>
      have hn := hserves.lt (n, e) (by rw [hlog]; simp [tagged])
      rw [List.length_map] at hn
      exact Or.inr ⟨_, List.getElem?_eq_getElem hn⟩

/-- A worker takes a step: what it was given before it keeps. -/
theorem inv_worker (h : Inv c thread_count p s) {i : ℕ} {conns : List (Accepted A)}
    {server : ServerThreads A} {loop : UringLoop F S} (hsound : server.Sound c thread_count)
    (haccepted : server.accepted = s.server.accepted)
    (hstarted : server.started =
      Function.update s.server.started i (s.server.started i ++ conns))
    (hserves : loop.Serves p ((server.started i).map Accepted.conn))
    (hloop : loop = s.loops i ∨ ∃ b, (s.loops i).step p b = some loop) :
    Inv c thread_count p (s.advanced i server loop) := by
  obtain ⟨n, es, hlog, hsome⟩ := events_of_step hserves hloop
  have hold (j : ℕ) : s.server.started j <+: server.started j := by
    rw [hstarted]
    by_cases hj : j = i
    · rw [hj, Function.update_self]
      exact List.prefix_append _ _
    · rw [Function.update_of_ne hj]
  have hloops (j m : ℕ) : part m ((Function.update s.loops i loop) j).log =
      part m (s.loops j).log ++ if j = i then part m (tagged n es) else [] := by
    by_cases hj : j = i
    · rw [hj, Function.update_self, if_pos rfl, hlog, part_append]
    · rw [Function.update_of_ne hj, if_neg hj, List.append_nil]
  refine ⟨hsound, fun j => ?_, fun x hx => ?_, fun k conn hk hnone => ?_, fun j m x hx => ?_⟩
  · by_cases hj : j = i
    · subst hj
      simpa [advanced] using hserves
    · have hj' : server.started j = s.server.started j := by
        rw [hstarted, Function.update_of_ne hj]
      simpa [advanced, Function.update_of_ne hj, hj'] using h.serves j
  · rw [advanced_log server hlog] at hx
    change x.1 < server.accepted.length
    rcases List.mem_append.1 hx with hx | hx
    · rw [haccepted]
      exact h.lt x hx
    · obtain ⟨e, he, rfl⟩ := List.mem_map.1 hx
      rcases hsome with rfl | ⟨y, hy⟩
      · cases he
      · exact number_eq hy ▸ (started_lt hsound (List.mem_of_getElem? hy)).1
  · rw [advanced_log server hlog, part_append]
    have hwaiting := h.waiting k conn (haccepted ▸ hk) fun j x hx =>
      hnone j x ((hold j).subset hx)
    rw [hwaiting]
    rcases hsome with rfl | ⟨y, hy⟩
    · rfl
    · rw [part_tagged_of_ne, List.append_nil]
      exact number_eq hy ▸ hnone i y (List.mem_of_getElem? hy)
  · change (server.started j)[m]? = some x at hx
    have hlt := started_lt hsound (List.mem_of_getElem? hx)
    -- what happened before
    have hbefore : part x.number s.log =
        .accepted x.conn :: (part m (s.loops j).log).map .ran := by
      by_cases hm : m < (s.server.started j).length
      · apply h.ran j m x
        obtain ⟨rest, hrest⟩ := hold j
        rwa [← hrest, List.getElem?_append_left hm] at hx
      · have hnew : part m (s.loops j).log = [] := part_of_forall_lt fun e he => by
          have := (h.serves j).lt e he
          rw [List.length_map] at this
          omega
        rw [hnew]
        refine h.waiting x.number x.conn (haccepted ▸ hlt.2) fun j' y hy heq => ?_
        -- it would have been started twice
        obtain ⟨m', hm', hget⟩ := List.getElem_of_mem hy
        have hy' : (server.started j')[m']? = some y := by
          obtain ⟨rest, hrest⟩ := hold j'
          rw [← hrest, List.getElem?_append_left hm', List.getElem?_eq_getElem hm', hget]
        obtain ⟨rfl, rfl⟩ := started_unique hsound hy' hx heq
        exact hm hm'
    rw [advanced_log server hlog, part_append, hbefore]
    change _ = _ :: (part m ((Function.update s.loops i loop) j).log).map _
    rw [hloops, List.map_append, List.cons_append]
    congr 2
    rcases hsome with rfl | ⟨y, hy⟩
    · split <;> rfl
    · rw [number_eq hy]
      by_cases heq : y.number = x.number
      · obtain ⟨rfl, rfl⟩ := started_unique hsound hy hx heq
        rw [heq, if_pos rfl, part_tagged_self, part_tagged_self]
      · rw [part_tagged_of_ne heq]
        split
        · rename_i hj
          subst hj
          have hne : n ≠ m := by
            rintro rfl
            rw [hx] at hy
            exact heq (congrArg Accepted.number (Option.some.inj hy)).symm
          rw [part_tagged_of_ne hne, List.map_nil]
        · rfl

/-! ## Runs -/

/-- No counter of the process has wrapped. -/
def Bounded (thread_count : ℕ) (s : ServerProcess A F S) : Prop :=
  s.server.accepted.length < 2 ^ 32 ∧
    ∀ i < thread_count, (s.loops i).ring.submissions.length < 2 ^ 64

instance (thread_count : ℕ) (s : ServerProcess A F S) : Decidable (s.Bounded thread_count) :=
  inferInstanceAs (Decidable (_ ∧ _))

theorem bounded_of_effect (h : Effect thread_count p s t) (ht : t.Bounded thread_count) :
    s.Bounded thread_count := by
  cases h with
  | acceptor conns a server hserver hone haccepted hstarted =>
    refine ⟨Nat.lt_of_le_of_lt ?_ ht.1, ht.2⟩
    change _ ≤ server.accepted.length
    rw [haccepted]
    exact (List.prefix_append _ _).length_le
  | worker i hi conns server loop hserver haccepted hstarted hloop =>
    refine ⟨haccepted ▸ ht.1, fun j hjlt => ?_⟩
    have hj := ht.2 j hjlt
    change ((Function.update s.loops i loop) j).ring.submissions.length < 2 ^ 64 at hj
    by_cases heq : j = i
    · subst heq
      rw [Function.update_self] at hj
      rcases hloop with ⟨rfl, -⟩ | ⟨b, hb, -⟩
      · exact hj
      · exact Nat.lt_of_le_of_lt (UringLoop.submissions_mono_step hb) hj
    · rwa [Function.update_of_ne heq] at hj

theorem inv_effect (hc : 1 ≤ c) (hpos : 1 ≤ thread_count) (h : Inv c thread_count p s)
    (ht : Effect thread_count p s t) (hbounded : t.Bounded thread_count) :
    Inv c thread_count p t := by
  cases ht with
  | acceptor conns a server hserver hone haccepted hstarted =>
    exact inv_acceptor h (ServerThreads.sound_step hc hpos h.server hserver hbounded.1) hone
      haccepted hstarted
  | worker i hi conns server loop hserver haccepted hstarted hloop =>
    have hsound : server.Sound c thread_count := by
      rcases hserver with rfl | ⟨a, ha⟩
      · exact h.server
      · exact ServerThreads.sound_step hc hpos h.server ha hbounded.1
    have hlt : loop.ring.submissions.length < 2 ^ 64 := by
      have hlt := hbounded.2 i hi
      change ((Function.update s.loops i loop) i).ring.submissions.length < 2 ^ 64 at hlt
      rwa [Function.update_self] at hlt
    have hserves : loop.Serves p ((server.started i).map Accepted.conn) := by
      rw [hstarted, Function.update_self, List.map_append]
      rcases hloop with ⟨rfl, rfl⟩ | ⟨b, hb, hconnects⟩
      · rw [List.map_nil, List.append_nil]
        exact h.serves i
      · exact hconnects ▸ (h.serves i).step hb hlt
    exact inv_worker h hsound haccepted hstarted hserves
      (hloop.imp And.left fun ⟨b, hb, _⟩ => ⟨b, hb⟩)

theorem inv_run (hc : 1 ≤ c) (hpos : 1 ≤ thread_count) (mem : ℕ → ℕ → Accepted A)
    {as : List (ProcessAction A E)} (hrun : run (step thread_count p) (init c mem) as = some s)
    (hbounded : s.Bounded thread_count) : Inv c thread_count p s :=
  run_invariant (I := fun u => u.Bounded thread_count → Inv c thread_count p u)
    (fun _ _ _ hu hstep hv =>
      have heffect := effect_of_step hstep
      inv_effect hc hpos (hu (bounded_of_effect heffect hv)) heffect hv)
    (fun _ => inv_init hc thread_count p mem) hrun hbounded

theorem bounded_of_run {as : List (ProcessAction A E)}
    (hrun : run (step thread_count p) s as = some t) (ht : t.Bounded thread_count) :
    s.Bounded thread_count :=
  run_invariant (I := fun u => u.Bounded thread_count → s.Bounded thread_count)
    (fun _ _ _ hu hstep hv => hu (bounded_of_effect (effect_of_step hstep) hv)) id hrun ht

/-- What was accepted and what has happened stays. -/
theorem grows_of_effect (h : Effect thread_count p s t) :
    s.log <+: t.log ∧ s.server.accepted <+: t.server.accepted := by
  cases h with
  | acceptor conns a server hserver hone haccepted hstarted =>
    exact ⟨List.prefix_append _ _, haccepted ▸ List.prefix_append _ _⟩
  | worker i hi conns server loop hserver haccepted hstarted hloop =>
    exact ⟨List.prefix_append _ _, haccepted ▸ List.prefix_refl _⟩

theorem grows_of_run {as : List (ProcessAction A E)}
    (hrun : run (step thread_count p) s as = some t) :
    s.log <+: t.log ∧ s.server.accepted <+: t.server.accepted :=
  run_invariant (I := fun u => s.log <+: u.log ∧ s.server.accepted <+: u.server.accepted)
    (fun _ _ _ hu hstep =>
      have hgrows := grows_of_effect (effect_of_step hstep)
      ⟨hu.1.trans hgrows.1, hu.2.trans hgrows.2⟩)
    ⟨List.prefix_refl _, List.prefix_refl _⟩ hrun

/-- The connection is still on its way to a worker: the acceptor holds it, or one queue does. -/
def Waits (thread_count : ℕ) (server : ServerThreads A) (conn : Accepted A) : Prop :=
  server.acceptor = .pushing conn ∨ ∃ i < thread_count, conn ∈ (server.queues_ i).content

/-- A connection that was accepted waits, or worker `i` was given it. -/
theorem waits_or_started {server : ServerThreads A} (h : server.Sound c thread_count) {k : ℕ}
    {conn : A} (hk : server.accepted[k]? = some conn) :
    Waits thread_count server ⟨k, conn⟩ ∨ ∃ i, (⟨k, conn⟩ : Accepted A) ∈ server.started i := by
  obtain ⟨hlt, -⟩ := List.getElem?_eq_some_iff.1 hk
  by_cases hmoved : server.server.MovedPast k
  · obtain ⟨i, hi, hmem, -⟩ := h.server.placed k hmoved
    obtain ⟨x, hx, hxk⟩ := List.mem_map.1 hmem
    have hconn := (h.server.moved i x hx).2
    have heq : x = ⟨k, conn⟩ := by
      obtain ⟨number, conn'⟩ := x
      obtain rfl : number = k := hxk
      rw [Accepted.mk.injEq]
      exact ⟨rfl, Option.some.inj (hconn.symm.trans hk)⟩
    rw [heq] at hx
    rcases List.mem_append.1 hx with hx | hx
    · exact Or.inr ⟨i, hx⟩
    · exact Or.inl (Or.inr ⟨i, hi, hx⟩)
  · -- the acceptor has not moved past it
    cases hacceptor : server.acceptor with
    | accepting =>
      refine absurd ⟨hlt, fun tcpConn htcp => ?_⟩ hmoved
      cases hacceptor.symm.trans htcp
    | pushing tcpConn =>
      obtain ⟨hnumber, hconn⟩ := h.server.pushing tcpConn hacceptor
      change tcpConn.number + 1 = server.accepted.length at hnumber
      have hle : tcpConn.number = k := by
        by_contra hne
        refine hmoved ⟨hlt, fun tcpConn' htcp => ?_⟩
        cases hacceptor.symm.trans htcp
        omega
      refine Or.inl (Or.inl (hacceptor.trans ?_))
      obtain ⟨number, conn'⟩ := tcpConn
      obtain rfl : number = k := hle
      obtain rfl : conn' = conn := Option.some.inj (hconn.symm.trans hk)
      rfl

/-- What has happened to the connection with the number `k`. -/
inductive Served (thread_count : ℕ) (p : Coroutine A E F S) (s : ServerProcess A F S) (k : ℕ)
    (conn : A) : Prop where
  | waits (hwaits : Waits thread_count s.server ⟨k, conn⟩)
      (hnone : ∀ i, ∀ x ∈ s.server.started i, x.number ≠ k)
      (hpart : part k s.log = [.accepted conn])
  /-- worker `i` has started its coroutine `n` for the connection, and no other was started for
  it -/
  | started (i n : ℕ) (events : List (TraceEvent F Await IoRequest)) (next : Next Await S)
      (hi : i < thread_count) (hstarted : (s.server.started i)[n]? = some ⟨k, conn⟩)
      (hunique : ∀ (j m : ℕ) x, (s.server.started j)[m]? = some x → x.number = k → j = i ∧ m = n)
      (hpart : part k s.log = .accepted conn :: events.map .ran)
      (halone : Alone p Await.Answers conn events next)
      (hsuspended : ∀ q st, next = .awaits q st ↔
        ∃ h f, (s.loops i).frames h = some f ∧ f.thread = n ∧ f.call = q ∧ f.state = st)
      (hbroken : (s.loops i).status ≠ .broken → next ≠ .broken)

theorem Inv.served (h : Inv c thread_count p s) {k : ℕ} {conn : A}
    (hk : s.server.accepted[k]? = some conn) : Served thread_count p s k conn := by
  by_cases hgiven : ∃ i, ∃ x ∈ s.server.started i, x.number = k
  · obtain ⟨i, x, hmem, rfl⟩ := hgiven
    obtain rfl : x.conn = conn := Option.some.inj ((started_lt h.server hmem).2.symm.trans hk)
    obtain ⟨n, hn, hget⟩ := List.getElem_of_mem hmem
    have hx : (s.server.started i)[n]? = some x := by
      rw [List.getElem?_eq_getElem hn, hget]
    obtain ⟨next, halone, hsuspended, hbroken⟩ := (h.serves i).alone (n := n) (a := x.conn)
      (by rw [List.getElem?_map, hx]; rfl)
    exact .started i n _ next (started_worker h.server hmem) hx
      (fun j m y hy heq => started_unique h.server hy hx heq) (h.ran i n x hx) halone
      hsuspended hbroken
  · have hnone : ∀ i, ∀ x ∈ s.server.started i, x.number ≠ k :=
      fun i x hx hxk => hgiven ⟨i, x, hx, hxk⟩
    refine .waits ((waits_or_started h.server hk).resolve_right ?_) hnone
      (h.waiting k conn hk hnone)
    exact fun ⟨i, hx⟩ => hnone i _ hx rfl

/-- In every run of the process with fewer than `2 ^ 32` connections and `2 ^ 64` requests in each
worker, as far as it is followed (no worker is past an operation that moved bytes after its request
was handed out, see `stray`), each accepted connection still waits, no coroutine was started for it,
and nothing has happened to it but its `accept`; or exactly one coroutine of one worker was started
for it, what has happened to it since is what this coroutine does alone, with calls that block, and
the coroutine is suspended exactly where its frame in the loop of that worker says.  A loop has
started as many coroutines as its worker was given connections. -/
theorem served_alone (hc : 1 ≤ c) (hpos : 1 ≤ thread_count) (mem : ℕ → ℕ → Accepted A)
    {as : List (ProcessAction A E)} (hrun : run (step thread_count p) (init c mem) as = some s)
    (hbounded : s.Bounded thread_count) {k : ℕ} {conn : A}
    (hk : s.server.accepted[k]? = some conn) :
    (∀ i, (s.loops i).started = (s.server.started i).length) ∧
    ((Waits thread_count s.server ⟨k, conn⟩ ∧ part k s.log = [.accepted conn] ∧
        ∀ i, ∀ x ∈ s.server.started i, x.number ≠ k) ∨
      ∃ i < thread_count, ∃ n events next, (s.server.started i)[n]? = some ⟨k, conn⟩ ∧
        (∀ (j m : ℕ) x, (s.server.started j)[m]? = some x → x.number = k → j = i ∧ m = n) ∧
        part k s.log = .accepted conn :: events.map .ran ∧
        Alone p Await.Answers conn events next ∧
        ∀ q st, next = .awaits q st ↔
          ∃ h f, (s.loops i).frames h = some f ∧ f.thread = n ∧ f.call = q ∧ f.state = st) := by
  have hinv := inv_run hc hpos mem hrun hbounded
  refine ⟨fun i => by rw [(hinv.serves i).length, List.length_map], ?_⟩
  cases hinv.served hk with
  | waits hwaits hnone hpart => exact Or.inl ⟨hwaits, hpart, hnone⟩
  | started i n events next hi hstarted hunique hpart halone hsuspended hbroken =>
    exact Or.inr ⟨i, hi, n, events, next, hstarted, hunique, hpart, halone, hsuspended⟩

/-- Two workers; the first is given a connection while the acceptor pushes the next one, and starts
its coroutine. -/
def twoReaders : List (ProcessAction Unit Unit) :=
  [.accept (some ()), .push, .loop 0 .clear, .push, .push, .push, .accept (some ()),
    .pop 0 () 100 0, .push, .pop 0 () 100 0, .push, .pop 0 () 100 0, .pop 0 () 100 0]

theorem served_alone_twoReaders :
    ∃ s : ServerProcess Unit Unit Unit,
      run (step 2 UringLoop.readOnce) (init 3 fun _ _ => Accepted.mk 0 ()) twoReaders = some s ∧
      ∃ i < 2, ∃ n : ℕ, (s.server.started i)[n]? = some ⟨0, ()⟩ ∧
        ∀ (j m : ℕ) x, (s.server.started j)[m]? = some x → x.number = 0 → j = i ∧ m = n := by
  have hrun : ∃ s : ServerProcess Unit Unit Unit,
      run (step 2 UringLoop.readOnce) (init 3 fun _ _ => Accepted.mk 0 ()) twoReaders = some s ∧
        s.Bounded 2 ∧ s.server.accepted = [(), ()] ∧ (part 0 s.log).length = 2 :=
    ⟨_, rfl, ⟨by decide, by decide⟩, rfl, rfl⟩
  obtain ⟨s, hrun, hbounded, haccepted, hpart⟩ := hrun
  refine ⟨s, hrun, ?_⟩
  have hfirst : s.server.accepted[0]? = some () := by rw [haccepted]; rfl
  rcases (served_alone (by norm_num) (by norm_num) _ hrun hbounded hfirst).2 with
    ⟨-, hlog, -⟩ | ⟨i, hi, n, events, next, hstarted, hunique, -⟩
  · rw [hlog] at hpart
    cases hpart
  · exact ⟨i, hi, n, hstarted, hunique⟩

/-! ## Resources of the process -/

variable {T : Type*} [DecidableEq T]

/-- If a connection is tidy as long as it waits, and its coroutine alone is, then the process is,
and what is acquired is the sum of what the connections own. -/
theorem Inv.run_accesses (h : Inv c thread_count p s) {access : ServerEvent A F → Option (Access T)}
    (hwaits : ∀ conn, Tidy ([ServerEvent.accepted conn].filterMap access))
    (halone : ∀ conn es next, Alone p Await.Answers conn es next →
      Tidy ((.accepted conn :: es.map .ran).filterMap access)) :
    run Access.on 0 ((s.log.map Prod.snd).filterMap access) =
      some (∑ k ∈ Finset.range s.server.accepted.length,
        owned ((part k s.log).filterMap access)) := by
  have htidy (k : ℕ) : Tidy (part k (view access s.log)) := by
    rw [part_view]
    cases hk : s.server.accepted[k]? with
    | none =>
      have hnone : part k s.log = [] := part_of_forall_lt fun x hx => by
        have := h.lt x hx
        have := List.getElem?_eq_none_iff.1 hk
        omega
      rw [hnone]
      rfl
    | some conn =>
      cases h.served hk with
      | waits hwaits' hnone hpart => exact hpart ▸ hwaits conn
      | started i n events next hi hstarted hunique hpart halone' hsuspended hbroken =>
        exact hpart ▸ halone conn events next halone'
  have hlt : ∀ x ∈ view access s.log, x.1 < s.server.accepted.length :=
    forall_mem_view (P := fun k => k < s.server.accepted.length) h.lt
  rw [← map_snd_view, run_interleaved hlt htidy]
  simp only [part_view]

end ServerProcess

end CoUringWeb
