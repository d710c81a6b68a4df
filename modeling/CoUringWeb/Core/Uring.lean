import CoUringWeb.Core.IoRequest
import CoUringWeb.Core.Timer

/-!
# `UringScheduler`

The io_uring scheduler of `src/core.cpp`.  `handleRead` and `handleWrite` submit one operation and
remember the request under the id they put into the operation's `user_data`; `poll` hands out
requests whose completion entry it finds, then those whose timer expired.

The completion queue is the list of entries not yet marked seen, oldest first.
`io_uring_wait_cqe_timeout` returns its head, or `-ETIME` when it is empty, and
`io_uring_cqe_seen` removes the head.

The `while (true)` of `poll` is `pollLoop`, which carries fuel: `none` means that the fuel ran out.
`poll_ends_iff` says for which queues some fuel suffices: an entry whose id is no longer in
`ioIndex2req_` is not marked seen before the `continue`, so the loop finds it again for ever.
-/

namespace CoUringWeb

open Machine

/-! ## The ring -/

inductive Opcode where
  | read
  | write
  deriving DecidableEq, Repr

/-- A submitted operation. -/
structure Sqe where
  opcode : Opcode
  fd : ℕ
  len : ℕ
  user_data : ℕ
  deriving DecidableEq, Repr

/-- A completion entry. -/
structure Cqe where
  user_data : ℕ
  res : ℤ
  deriving DecidableEq, Repr

/-! ## The scheduler -/

structure UringScheduler where
  ioIndex_ : ℕ
  ioIndex2req_ : SortedMap ℕ IoRequest
  timerQueue_ : TimerQueue
  deriving DecidableEq

namespace UringScheduler

def new : UringScheduler := { ioIndex_ := 1, ioIndex2req_ := ∅, timerQueue_ := TimerQueue.empty }

/-- What `handleRead` and `handleWrite` share after their assertion: the operation gets the next
id, the request is remembered under it, and its timer is set. -/
def submit (s : UringScheduler) (req : IoRequest) (opcode : Opcode) (len now : ℕ) :
    UringScheduler × Sqe :=
  let id := s.ioIndex_
  ({ ioIndex_ := uint64 (s.ioIndex_ + 1)
     ioIndex2req_ := s.ioIndex2req_.insert id req
     timerQueue_ :=
      if req.timeout > 0 then (s.timerQueue_.add id (now + req.timeout.toNat)).1
      else s.timerQueue_ },
   { opcode := opcode, fd := req.fd, len := len, user_data := id })

/-- `handleRead` at the clock reading `now`; `none` when the assertion fails. -/
def handleRead (s : UringScheduler) (req : IoRequest) (now : ℕ) : Option (UringScheduler × Sqe) :=
  if req.op = .OP_READ then
    some (s.submit req .read (uint32 (2 ^ 32 + req.capicaty - req.size)) now)
  else none

/-- `handleWrite` at the clock reading `now`; `none` when the assertion fails. -/
def handleWrite (s : UringScheduler) (req : IoRequest) (now : ℕ) : Option (UringScheduler × Sqe) :=
  if req.op = .OP_WRITE then some (s.submit req .write req.size now) else none

/-- What one turn of the loop of `poll` does with the entry it looks at. -/
structure LoopTurn where
  sched : UringScheduler
  /-- the request whose context is appended to `readyHandleAddrs` -/
  handed : Option IoRequest
  /-- `io_uring_cqe_seen` is called -/
  seen : Bool
  /-- the loop goes on -/
  again : Bool

/-- The body of the loop of `poll` for the entry `cqe`. -/
def loopTurn (s : UringScheduler) (cqe : Cqe) : LoopTurn :=
  if cqe.user_data = 0 then { sched := s, handed := none, seen := true, again := false }
  else
    let id := cqe.user_data
    match s.ioIndex2req_.find id with
    -- the request was deleted before: `continue`
    | none => { sched := s, handed := none, seen := false, again := true }
    | some req =>
      { sched :=
          { s with
            ioIndex2req_ := s.ioIndex2req_.erase id
            timerQueue_ :=
              if req.timeout > 0 then (s.timerQueue_.remove id).1 else s.timerQueue_ }
        handed := some { req with retCode := cqe.res }
        seen := true
        again := true }

/-- The body of the expiry loop of `poll` for the key `key`. -/
def expireTurn (s : UringScheduler) (key : ℕ) : UringScheduler × Option IoRequest :=
  match s.ioIndex2req_.find key with
  | none => (s, none)
  | some req =>
    ({ s with ioIndex2req_ := s.ioIndex2req_.erase key }, some { req with retCode := -1 })

/-! ## `poll` -/

/-- A call of `poll`: the scheduler, the unseen entries, `readyHandleAddrs`, and the positions of
the entries looked at and marked seen so far. -/
structure PollState where
  sched : UringScheduler
  cq : List Cqe
  ready : List Handle
  head : ℕ
  looked : List ℕ
  seen : List ℕ

/-- The start of a call. -/
def PollState.start (s : UringScheduler) (cq : List Cqe) (ready : List Handle) : PollState :=
  { sched := s, cq := cq, ready := ready, head := 0, looked := [], seen := [] }

/-- The state after looking at the oldest entry `cqe`, when `rest` comes after it. -/
def PollState.next (p : PollState) (cqe : Cqe) (rest : List Cqe) : PollState :=
  let o := p.sched.loopTurn cqe
  { sched := o.sched
    cq := if o.seen then rest else p.cq
    ready := p.ready ++ (o.handed.map IoRequest.context).toList
    head := if o.seen then p.head + 1 else p.head
    looked := p.looked ++ [p.head]
    seen := if o.seen then p.seen ++ [p.head] else p.seen }

/-- The `while (true)` of `poll`. -/
def pollLoop : ℕ → PollState → Option PollState
  | 0, _ => none
  | fuel + 1, p =>
    match p.cq with
    -- `-ETIME`
    | [] => some p
    | cqe :: rest =>
      if (p.sched.loopTurn cqe).again then pollLoop fuel (p.next cqe rest)
      else some (p.next cqe rest)

/-- The expiry loop of `poll`. -/
def expireLoop (s : UringScheduler) (ready : List Handle) :
    List ℕ → UringScheduler × List Handle
  | [] => (s, ready)
  | key :: keys =>
    let r := s.expireTurn key
    expireLoop r.1 (ready ++ (r.2.map IoRequest.context).toList) keys

/-- `poll`, with the clock reading of its `popExpired`. -/
def poll (fuel : ℕ) (p : PollState) (now : ℕ) : Option PollState :=
  (pollLoop fuel p).map fun q =>
    let popped := q.sched.timerQueue_.popExpired now
    let r := expireLoop { q.sched with timerQueue_ := popped.1 } q.ready popped.2
    { q with sched := r.1, ready := r.2 }

end UringScheduler

end CoUringWeb
