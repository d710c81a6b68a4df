import CoUringWeb.Core.UringPoll
import CoUringWeb.Framework.Awaiting

/-!
# Coroutines on `UringScheduler`

`Scheduler::loop` over `UringScheduler`, with the coroutines it starts and resumes.  A coroutine is
a program cut into pieces at its `co_await`s; the address of its frame is chosen by the allocator
among those not in use, so that the frame of a coroutine that has ended may be given to another
one.  The request of a suspended coroutine lies in its frame.  The ring keeps the address of that
request, and `poll` and the kernel store through it: `retCode` when the request is handed out, and
the bytes of a read when the operation completes.

The loop knows addresses only.  A store or a `resume()` at an address with no frame is `dangling`.
The stores meant are that of `retCode` by the loop and that of the bytes of a read whose request is
still pending by the kernel.

A timer hands a request out while its operation goes on.  When that operation moves bytes later, it
uses a buffer that its coroutine may have freed, and that another coroutine may have been given.
This is `stray`, and runs are followed up to it: what is proved of every run is proved of the
process up to the first operation that moves bytes after its request was handed out.  Without
timeouts there is none (`untimed_run`).
-/

namespace CoUringWeb

open Machine Transition Awaiting Interleaving

/-! ## What a coroutine awaits -/

/-- A `co_await` on the scheduler: the awaiter and its request. -/
structure Await where
  op : IoRequestOp
  req : IoRequest
  deriving DecidableEq, Repr

/-- `Scheduler::asyncRead`, awaited at once. -/
def asyncRead {S : Type*} (req : IoRequest) (s : S) : Next Await S := .awaits ⟨.OP_READ, req⟩ s

/-- `Scheduler::asyncWrite`, awaited at once; a request of size 0 aborts. -/
def asyncWrite {S : Type*} (req : IoRequest) (s : S) : Next Await S :=
  if req.size = 0 then .broken else .awaits ⟨.OP_WRITE, req⟩ s

/-- The operation that is submitted for a request. -/
def IoRequest.sqe (req : IoRequest) (id : ℕ) : Sqe :=
  match req.op with
  | .OP_READ =>
    { opcode := .read, fd := req.fd, len := uint32 (2 ^ 32 + req.capicaty - req.size)
      user_data := id }
  | .OP_WRITE => { opcode := .write, fd := req.fd, len := req.size, user_data := id }

@[simp] theorem IoRequest.sqe_user_data (req : IoRequest) (id : ℕ) :
    (req.sqe id).user_data = id := by
  unfold sqe; split <;> rfl

/-- The buffer after a read has stored `bytes` in it. -/
def IoRequest.fill (req : IoRequest) (bytes : Bytes) : IoRequest :=
  { req with data := bytes ++ req.data.drop bytes.length }

@[simp] theorem IoRequest.fill_nil (req : IoRequest) : req.fill [] = req := rfl

@[simp] theorem IoRequest.fill_context (req : IoRequest) (bytes : Bytes) :
    (req.fill bytes).context = req.context := rfl

/-- The result `res` and the bytes stored that the kernel can give for an operation. -/
def Sqe.Completes (sqe : Sqe) (res : ℤ) (bytes : Bytes) : Prop :=
  match sqe.opcode with
  | .read => res < 0 ∧ bytes = [] ∨ res = bytes.length ∧ bytes.length ≤ sqe.len
  | .write => res ≤ sqe.len ∧ bytes = []

instance (sqe : Sqe) (res : ℤ) (bytes : Bytes) : Decidable (sqe.Completes res bytes) := by
  unfold Sqe.Completes; split <;> infer_instance

namespace Await

/-- `await_suspend` in the coroutine at the address `h`: the request that is submitted. -/
def suspend (q : Await) (h : Handle) : IoRequest :=
  match q.op with
  | .OP_READ => q.req.asyncRead h
  | .OP_WRITE => q.req.asyncWrite h

@[simp] theorem suspend_context (q : Await) (h : Handle) : (q.suspend h).context = h := by
  unfold suspend; split <;> rfl

@[simp] theorem suspend_timeout (q : Await) (h : Handle) :
    (q.suspend h).timeout = q.req.timeout := by
  unfold suspend; split <;> rfl

@[simp] theorem suspend_op (q : Await) (h : Handle) : (q.suspend h).op = q.op := by
  unfold suspend; split <;> simp_all [IoRequest.asyncRead, IoRequest.asyncWrite]

def Completes (q : Await) (res : ℤ) (bytes : Bytes) : Prop :=
  ((q.suspend 0).sqe 0).Completes res bytes

theorem completes_iff (q : Await) (h : Handle) (id : ℕ) (res : ℤ) (bytes : Bytes) :
    ((q.suspend h).sqe id).Completes res bytes ↔ q.Completes res bytes := by
  unfold Completes suspend; split <;> rfl

/-- How a `co_await` can end: with the result of its own operation, or with `-1` after its own
timeout. -/
inductive Answers (q : Await) (r : IoRequest) : Prop where
  | completed (h : Handle) (res : ℤ) (bytes : Bytes) (hres : q.Completes res bytes)
      (hr : r = { (q.suspend h).fill bytes with retCode := res })
  | expired (h : Handle) (bytes : Bytes) (htimeout : 0 < q.req.timeout)
      (hbytes : bytes = [] ∨ ∃ res, q.Completes res bytes)
      (hr : r = { (q.suspend h).fill bytes with retCode := -1 })

/-- The answer is the request that was awaited, with other results. -/
theorem Answers.request {q : Await} {r : IoRequest} (h : q.Answers r) :
    r.op = q.op ∧ r.fd = q.req.fd := by
  have hsuspend (h : Handle) : (q.suspend h).fd = q.req.fd := by
    unfold suspend; split <;> rfl
  cases h with
  | completed h res bytes hres hr =>
    subst hr
    exact ⟨suspend_op q h, hsuspend h⟩
  | expired h bytes htimeout hbytes hr =>
    subst hr
    exact ⟨suspend_op q h, hsuspend h⟩

end Await

/-- A coroutine that takes an argument of type `A`; `E` is what it finds in its surroundings. -/
abbrev Coroutine (A E F S : Type*) := Program A E F Await IoRequest S

/-! ## The loop -/

/-- The frame of a suspended coroutine: its request, its state and the `co_await` it is suspended
at.  `thread` numbers the coroutines in the order in which they were started, and `id` is the one
the request was submitted under. -/
structure Frame (S : Type*) where
  req : IoRequest
  state : S
  call : Await
  thread : ℕ
  id : ℕ

namespace UringLoop

/-- Where the loop is. -/
inductive Point where
  | clearing
  /-- the `while (queue_->pop(conn))` -/
  | accepting
  /-- the `while (true)` of `poll` -/
  | polling
  /-- that loop has ended at an entry with `user_data == 0` -/
  | popping
  /-- the loop of `poll` over `expireds` -/
  | expiring
  /-- the loop over `readyHandleAddrs` -/
  | resuming
  deriving DecidableEq, Repr

inductive Status where
  | running
  /-- a coroutine stopped the process or is undefined -/
  | broken
  /-- an operation moved bytes after its request was handed out -/
  | stray
  /-- a store or a `resume()` at an address with no frame -/
  | dangling
  deriving DecidableEq, Repr

end UringLoop

/-- The ring and the loop.  `ready` is what the loop over `readyHandleAddrs` has not read yet, each
address with its hand-out. -/
structure UringLoop (F S : Type*) where
  ring : Uring
  point : UringLoop.Point
  ready : List HandOut
  frames : Handle → Option (Frame S)
  started : ℕ
  log : List (ℕ × TraceEvent F Await IoRequest)
  status : UringLoop.Status

namespace UringLoop

variable {A E F S : Type*}

inductive Action (A E : Type*) where
  | clear
  /-- `pop` gives a connection, and the coroutine started for it gets a frame at `h` -/
  | connect (a : A) (e : E) (h : Handle) (now : ℕ)
  /-- `pop` fails -/
  | poll
  /-- the kernel completes the `i`-th operation in flight -/
  | complete (i : ℕ) (res : ℤ) (bytes : Bytes)
  | reap
  | popExpired (now : ℕ)
  | expire
  /-- `poll` returns -/
  | polled
  | resume (e : E) (now : ℕ)
  /-- the loop over `readyHandleAddrs` ends -/
  | resumed

def new : UringLoop F S :=
  { ring := Uring.new, point := .clearing, ready := [], frames := fun _ => none, started := 0
    log := [], status := .running }

/-- The `handleRead` or `handleWrite` of a request. -/
def submission (req : IoRequest) (now : ℕ) : Uring.Action :=
  match req.op with
  | .OP_READ => .read req now
  | .OP_WRITE => .write req now

/-- A store through the address of a request in the frame at `h`. -/
def store (w : UringLoop F S) (h : Handle) (g : IoRequest → IoRequest) : UringLoop F S :=
  match w.frames h with
  | some f => { w with frames := Function.update w.frames h (some { f with req := g f.req }) }
  | none => { w with status := .dangling }

/-- The coroutine `n`, whose frame is at `h`, has run a piece.  It is suspended again, or its frame
is freed. -/
def settle (w : UringLoop F S) (h : Handle) (n : ℕ) (ran : Ran F Await S) (now : ℕ) :
    Option (UringLoop F S) :=
  let v := { w with log := w.log ++ tagged n ran.events }
  match ran.next with
  | .awaits q s =>
    (w.ring.step (submission (q.suspend h) now)).map fun ring =>
      { v with
        ring := ring
        frames := Function.update w.frames h
          (some { req := q.suspend h, state := s, call := q, thread := n
                  id := w.ring.sched.ioIndex_ }) }
  | .ended => some { v with frames := Function.update w.frames h none }
  | .broken => some { v with frames := Function.update w.frames h none, status := .broken }

/-- A turn of one of the two loops of `poll` has left `ring`: the hand-out of that turn, if there
is one, is stored in its request and becomes ready. -/
def handOver (w : UringLoop F S) (ring : Uring) : UringLoop F S :=
  match ring.handed.drop w.ring.handed.length with
  | [] => { w with ring := ring }
  | o :: _ =>
    { w with ring := ring, ready := w.ready ++ [o] }.store o.req.context
      fun req => { req with retCode := o.req.retCode }

/-- The kernel has completed an operation with the id `id` and left `ring`. -/
def completed (w : UringLoop F S) (ring : Uring) (id : ℕ) (res : ℤ) (bytes : Bytes) :
    UringLoop F S :=
  match ring.sched.ioIndex2req_.find id with
  | some req => { w with ring := ring }.store req.context fun req => req.fill bytes
  | none => if 0 < res then { w with ring := ring, status := .stray } else { w with ring := ring }

/-- A step of the loop or of the kernel while the process runs. -/
def advance (p : Coroutine A E F S) (w : UringLoop F S) : Action A E → Option (UringLoop F S)
  | .clear => if w.point = .clearing then some { w with ready := [], point := .accepting } else none
  | .connect a e h now =>
    if w.point = .accepting ∧ (w.frames h).isNone then
      { w with started := w.started + 1 }.settle h w.started (p.start a e) now
    else none
  | .poll => if w.point = .accepting then some { w with point := .polling } else none
  | .complete i res bytes =>
    match w.ring.inFlight[i]? with
    | none => none
    | some sqe =>
      if sqe.Completes res bytes then
        (w.ring.step (.complete i res)).map fun ring => w.completed ring sqe.user_data res bytes
      else none
  | .reap =>
    match w.ring.cq with
    | [] => none
    | cqe :: _ =>
      if w.point = .polling then
        (w.ring.step .reap).map fun ring =>
          { w with point := if (w.ring.sched.loopTurn cqe).again then .polling else .popping
            }.handOver ring
      else none
  | .popExpired now =>
    -- the `while (true)` ends without an entry, on `-ETIME` or another error
    if w.point = .polling ∨ w.point = .popping then
      (w.ring.step (.popExpired now)).map fun ring => { w with ring := ring, point := .expiring }
    else none
  | .expire => if w.point = .expiring then (w.ring.step .expire).map w.handOver else none
  | .polled =>
    if w.point = .expiring ∧ w.ring.expireds = [] then some { w with point := .resuming } else none
  | .resume e now =>
    match w.ready with
    | [] => none
    | o :: os =>
      if w.point = .resuming then
        match w.frames o.req.context with
        | none => some { w with status := .dangling }
        | some f =>
          { w with ready := os, log := w.log ++ tagged f.thread [TraceEvent.got f.req] }.settle
            o.req.context f.thread (p.resume f.state e f.req) now
      else none
  | .resumed =>
    if w.point = .resuming ∧ w.ready = [] then some { w with point := .clearing } else none

def step (p : Coroutine A E F S) (w : UringLoop F S) (b : Action A E) : Option (UringLoop F S) :=
  if w.status = .running then w.advance p b else none

/-! ## What a step can do -/

/-- The possible effects of an action. -/
inductive Effect (p : Coroutine A E F S) (w : UringLoop F S) : Action A E → UringLoop F S → Prop
    where
  | cleared (hpoint : w.point = .clearing) :
      Effect p w .clear { w with ready := [], point := .accepting }
  /-- the loop goes on to another point -/
  | moved (b : Action A E) (point : Point) (hpoint : point = .clearing → w.ready = []) :
      Effect p w b { w with point := point }
  | connected (a : A) (e : E) (h : Handle) (now : ℕ) (v : UringLoop F S)
      (hpoint : w.point = .accepting) (hfree : w.frames h = none)
      (hv : { w with started := w.started + 1 }.settle h w.started (p.start a e) now = some v) :
      Effect p w (.connect a e h now) v
  | completed (i : ℕ) (res : ℤ) (bytes : Bytes) (sqe : Sqe) (ring : Uring)
      (hsqe : w.ring.inFlight[i]? = some sqe) (hres : sqe.Completes res bytes)
      (hring : w.ring.step (.complete i res) = some ring) :
      Effect p w (.complete i res bytes) (w.completed ring sqe.user_data res bytes)
  | reaped (point : Point) (ring : Uring) (hpoint : point ≠ .clearing)
      (hring : w.ring.step .reap = some ring) :
      Effect p w .reap ({ w with point := point }.handOver ring)
  | popped (now : ℕ) (ring : Uring) (hring : w.ring.step (.popExpired now) = some ring) :
      Effect p w (.popExpired now) { w with ring := ring, point := .expiring }
  | expired (ring : Uring) (hpoint : w.point = .expiring)
      (hring : w.ring.step .expire = some ring) :
      Effect p w .expire (w.handOver ring)
  | lost (e : E) (now : ℕ) (o : HandOut) (os : List HandOut) (hready : w.ready = o :: os)
      (hnone : w.frames o.req.context = none) :
      Effect p w (.resume e now) { w with status := .dangling }
  | resumed (e : E) (now : ℕ) (o : HandOut) (os : List HandOut) (f : Frame S)
      (v : UringLoop F S) (hready : w.ready = o :: os) (hpoint : w.point = .resuming)
      (hf : w.frames o.req.context = some f)
      (hv : { w with ready := os, log := w.log ++ tagged f.thread [TraceEvent.got f.req] }.settle
        o.req.context f.thread (p.resume f.state e f.req) now = some v) :
      Effect p w (.resume e now) v

variable {p : Coroutine A E F S} {w v : UringLoop F S} {b : Action A E}

theorem effect_of_advance (hv : w.advance p b = some v) : Effect p w b v := by
  cases b with
  | clear =>
    simp only [advance] at hv
    split at hv <;> cases hv
    exact .cleared (by assumption)
  | connect a e h now =>
    simp only [advance] at hv
    split at hv <;> [rename_i hguard; cases hv]
    exact .connected a e h now v hguard.1 (Option.isNone_iff_eq_none.1 hguard.2) hv
  | poll =>
    simp only [advance] at hv
    split at hv <;> cases hv
    exact .moved _ _ (by simp)
  | complete i res bytes =>
    simp only [advance] at hv
    split at hv <;> [cases hv; rename_i sqe hsqe]
    split at hv <;> [rename_i hres; cases hv]
    obtain ⟨ring, hring, rfl⟩ := Option.map_eq_some_iff.1 hv
    exact .completed i res bytes sqe ring hsqe hres hring
  | reap =>
    simp only [advance] at hv
    split at hv <;> [cases hv; skip]
    split at hv <;> [skip; cases hv]
    obtain ⟨ring, hring, rfl⟩ := Option.map_eq_some_iff.1 hv
    exact .reaped _ ring (by split <;> simp) hring
  | popExpired now =>
    simp only [advance] at hv
    split at hv <;> [skip; cases hv]
    obtain ⟨ring, hring, rfl⟩ := Option.map_eq_some_iff.1 hv
    exact .popped now ring hring
  | expire =>
    simp only [advance] at hv
    split at hv <;> [rename_i hpoint; cases hv]
    obtain ⟨ring, hring, rfl⟩ := Option.map_eq_some_iff.1 hv
    exact .expired ring hpoint hring
  | polled =>
    simp only [advance] at hv
    split at hv <;> cases hv
    exact .moved _ _ (by simp)
  | resume e now =>
    simp only [advance] at hv
    split at hv <;> [cases hv; rename_i o os hready]
    split at hv <;> [rename_i hpoint; cases hv]
    split at hv
    · rename_i hnone
      cases hv
      exact .lost e now o os hready hnone
    · rename_i f hf
      exact .resumed e now o os f v hready hpoint hf hv
  | resumed =>
    simp only [advance] at hv
    split at hv <;> [rename_i hguard; cases hv]
    cases hv
    exact .moved _ _ fun _ => hguard.2

theorem effect_of_step (hv : w.step p b = some v) : w.status = .running ∧ Effect p w b v := by
  unfold step at hv
  split at hv <;> [skip; cases hv]
  exact ⟨by assumption, effect_of_advance hv⟩

/-- What a piece of a coroutine leaves. -/
inductive Settled (w : UringLoop F S) (h : Handle) (n : ℕ) (ran : Ran F Await S) (now : ℕ) :
    UringLoop F S → Prop where
  | awaits (q : Await) (s : S) (ring : Uring) (hnext : ran.next = .awaits q s)
      (hring : w.ring.step (submission (q.suspend h) now) = some ring) :
      Settled w h n ran now
        { w with
          log := w.log ++ tagged n ran.events
          ring := ring
          frames := Function.update w.frames h
            (some { req := q.suspend h, state := s, call := q, thread := n
                    id := w.ring.sched.ioIndex_ }) }
  | ended (hnext : ran.next = .ended) :
      Settled w h n ran now
        { w with
          log := w.log ++ tagged n ran.events
          frames := Function.update w.frames h none }
  | broken (hnext : ran.next = .broken) :
      Settled w h n ran now
        { w with
          log := w.log ++ tagged n ran.events
          frames := Function.update w.frames h none
          status := .broken }

theorem settled_of_settle {h : Handle} {n now : ℕ} {ran : Ran F Await S}
    (hv : w.settle h n ran now = some v) : Settled w h n ran now v := by
  unfold settle at hv
  cases hnext : ran.next with
  | awaits q s =>
    simp only [hnext, Option.map_eq_some_iff] at hv
    obtain ⟨ring, hring, rfl⟩ := hv
    exact .awaits q s ring hnext hring
  | ended =>
    simp only [hnext, Option.some.injEq] at hv
    subst hv
    exact .ended hnext
  | broken =>
    simp only [hnext, Option.some.injEq] at hv
    subst hv
    exact .broken hnext

end UringLoop

end CoUringWeb
