import CoUringWeb.Core.IoRequest
import CoUringWeb.Core.Timer

/-!
# `EpollScheduler`

The epoll scheduler of `src/core.cpp`.  `handleRead` and `handleWrite` try the operation at once.
When it would block they remember the request under a fresh id and register that id with epoll;
`poll` finishes the requests whose events it is given, then hands out those whose timer expired.

What the system calls answer is an argument: an `IoResult` for each `read` and `write`, a Boolean
for each `epoll_ctl`, a number for each clock reading.  The asserts are compiled in, so a failing
one ends the process; `none` stands for that (and, in `handleWrite`, for a list of answers that is
too short).

`ioIndex2req_` keeps addresses.  A `ReqPtr` is such an address (the number of the call) together
with the request as it is now; where the source writes through the address of a request that stays
in the map, the entry is assigned.
-/

namespace CoUringWeb

open Machine

/-! ## System calls -/

/-- What `read` and `write` answer. -/
inductive IoResult where
  | count (n : ℕ)
  | eagain
  | error
  deriving DecidableEq, Repr

inductive Interest where
  | EPOLLIN
  | EPOLLOUT
  deriving DecidableEq, Repr

/-- A descriptor in the epoll set; every one is registered with `EPOLLET` besides `events`. -/
structure Registration where
  fd : ℕ
  events : Interest
  data : ℕ
  deriving DecidableEq, Repr

/-- An event of `epoll_wait`, with the answers to the calls made while it is handled: the first and
the second `read` or `write`, and whether `EPOLL_CTL_DEL` succeeds. -/
structure Event where
  epollin : Bool
  epollout : Bool
  data : ℕ
  first : IoResult
  second : IoResult := .eagain
  del : Bool := true
  deriving DecidableEq, Repr

/-- The kernel took `count` bytes at `offset` of the buffer of request `number`. -/
structure Segment where
  number : ℕ
  offset : ℤ
  count : ℕ
  deriving DecidableEq, Repr

/-! ## The scheduler -/

structure ReqPtr where
  number : ℕ
  req : IoRequest
  deriving DecidableEq, Repr

/-- A context pushed for resumption, with the request as it is at that moment and its id. -/
structure Queued where
  number : ℕ
  req : IoRequest
  id : Option ℕ
  deriving DecidableEq, Repr

structure EpollScheduler where
  ioIndex_ : ℕ
  ioIndex2req_ : SortedMap ℕ ReqPtr
  completedHandleAddrs_ : List Handle
  timerQueue_ : TimerQueue
  deriving DecidableEq

namespace EpollScheduler

def new : EpollScheduler :=
  { ioIndex_ := 0, ioIndex2req_ := ∅, completedHandleAddrs_ := [], timerQueue_ := TimerQueue.empty }

/-- The effects of a call of `handleRead` or `handleWrite`. -/
structure CallResult where
  sched : EpollScheduler
  sent : List Segment
  registered : Option Registration
  queued : Option Queued

/-- `req.retCode = retCode; completedHandleAddrs_.push_back(req.context)` -/
def complete (s : EpollScheduler) (p : ReqPtr) (retCode : ℤ) (sent : List Segment) : CallResult :=
  { sched := { s with completedHandleAddrs_ := s.completedHandleAddrs_ ++ [p.req.context] }
    sent := sent
    registered := none
    queued := some { number := p.number, req := { p.req with retCode := retCode }, id := none } }

/-- The operation would block and `fd` was registered: the request is remembered and its timer is
set. -/
def added (s : EpollScheduler) (number : ℕ) (req : IoRequest) (sent : List Segment) (fd : ℕ)
    (events : Interest) (now : ℕ) : CallResult :=
  let id := s.ioIndex_
  { sched :=
      { s with
        ioIndex_ := uint64 (s.ioIndex_ + 1)
        ioIndex2req_ := s.ioIndex2req_.insert id { number := number, req := req }
        timerQueue_ :=
          if req.timeout > 0 then (s.timerQueue_.add id (now + req.timeout.toNat)).1
          else s.timerQueue_ }
    sent := sent
    registered := some { fd := fd, events := events, data := id }
    queued := none }

/-- The operation would block and `epoll_ctl` failed: the context is pushed, and the request stays
in the map. -/
def addFailed (s : EpollScheduler) (number : ℕ) (req : IoRequest) (sent : List Segment) :
    CallResult :=
  let id := s.ioIndex_
  { sched :=
      { s with
        ioIndex_ := uint64 (s.ioIndex_ + 1)
        ioIndex2req_ := s.ioIndex2req_.insert id { number := number, req := req }
        completedHandleAddrs_ := s.completedHandleAddrs_ ++ [req.context] }
    sent := sent
    registered := none
    queued := some { number := number, req := req, id := some id } }

/-! ### `handleRead` -/

def handleRead (s : EpollScheduler) (p : ReqPtr) (readsz : IoResult) (add : Bool) (now : ℕ) :
    Option CallResult :=
  if p.req.op = .OP_READ then
    match readsz with
    | .error => some (s.complete p (-1) [])
    | .eagain =>
      if add then some (s.added p.number { p.req with retCode := 0 } [] p.req.fd .EPOLLIN now)
      else some (s.addFailed p.number { p.req with retCode := -1 } [])
    | .count n => some (s.complete p n [])
  else none

/-! ### `handleWrite` -/

/-- How the writes of `handleWrite` end, with `req.retCode`. -/
inductive WriteEnd where
  | completed (retCode : ℤ)
  | uncompleted (retCode : ℤ)
  deriving DecidableEq, Repr

/-- The `while (written != -1)` loop from `req.retCode = retCode` on. -/
def writeLoop (p : ReqPtr) : ℤ → List IoResult → Option (List Segment × WriteEnd)
  | _, [] => none
  | _, .error :: _ => some ([], .completed (-1))
  | retCode, .eagain :: _ => some ([], .uncompleted retCode)
  | _, .count 0 :: _ => some ([], .completed 0)
  | retCode, .count (n + 1) :: results =>
    let segment : Segment := { number := p.number, offset := retCode, count := n + 1 }
    let retCode' := int32 (retCode + (n + 1))
    if ofInt32 retCode' = p.req.size then some ([segment], .completed retCode')
    else (writeLoop p retCode' results).map fun r => (segment :: r.1, r.2)

/-- The writes of `handleWrite`: the first one, and the loop after a partial one. -/
def writes (p : ReqPtr) : List IoResult → Option (List Segment × WriteEnd)
  | [] => none
  | .error :: _ => some ([], .completed (-1))
  | .eagain :: _ => some ([], .uncompleted 0)
  | .count 0 :: _ => some ([], .completed 0)
  | .count (n + 1) :: results =>
    let segment : Segment := { number := p.number, offset := 0, count := n + 1 }
    if p.req.size = n + 1 then some ([segment], .completed (n + 1))
    else (writeLoop p (n + 1) results).map fun r => (segment :: r.1, r.2)

/-- The id is what is registered: `epoll_ctl(epollfd_, EPOLL_CTL_ADD, id, &event)`. -/
def handleWrite (s : EpollScheduler) (p : ReqPtr) (results : List IoResult) (add : Bool)
    (now : ℕ) : Option CallResult :=
  if p.req.op = .OP_WRITE then
    (writes p results).map fun r =>
      match r.2 with
      | .completed retCode => s.complete p retCode r.1
      | .uncompleted retCode =>
        let req := { p.req with retCode := retCode }
        if add then s.added p.number req r.1 (uint32 s.ioIndex_) .EPOLLOUT now
        else s.addFailed p.number req r.1
  else none

/-! ### `poll` -/

/-- The effects of one event, or of several. -/
structure EventResult where
  sched : EpollScheduler
  sent : List Segment
  /-- the descriptors taken out of the epoll set -/
  deleted : List ℕ
  queued : List Queued

/-- The event's request is done: it leaves the map, the timer queue and the epoll set, and its
context is pushed. -/
def finish (s : EpollScheduler) (e : Event) (p : ReqPtr) (retCode : ℤ) (sent : List Segment) :
    EventResult :=
  { sched :=
      { s with
        ioIndex2req_ := s.ioIndex2req_.erase e.data
        timerQueue_ :=
          if p.req.timeout > 0 then (s.timerQueue_.remove e.data).1 else s.timerQueue_
        completedHandleAddrs_ := s.completedHandleAddrs_ ++ [p.req.context] }
    sent := sent
    deleted := if e.del then [p.req.fd] else []
    queued :=
      [{ number := p.number, req := { p.req with retCode := retCode }, id := some e.data }] }

/-- The `EPOLLIN` branch for the request `p`. -/
def handleIn (s : EpollScheduler) (e : Event) (p : ReqPtr) : Option EventResult :=
  match e.first with
  | .count n => some (s.finish e p n [])
  | .error => some (s.finish e p (-1) [])
  -- `assert(err != EAGAIN)`
  | .eagain => none

/-- The `EPOLLOUT` branch for the request `p`. -/
def handleOut (s : EpollScheduler) (e : Event) (p : ReqPtr) : Option EventResult :=
  match e.first with
  | .count n =>
    let segment : Segment := { number := p.number, offset := p.req.retCode, count := n }
    let retCode := int32 (n + p.req.retCode)
    if 0 < n ∧ ofInt32 retCode ≠ p.req.size then
      -- a partial write: the next one has to fail with `EAGAIN`
      if e.second = .eagain then
        some
          { sched :=
              { s with
                ioIndex2req_ := s.ioIndex2req_.insertOrAssign e.data
                  { p with req := { p.req with retCode := retCode } } }
            sent := [segment]
            deleted := []
            queued := [] }
      else none
    else if n = 0 then some (s.finish e p 0 [])
    else some (s.finish e p retCode [segment])
  | .error => some (s.finish e p (-1) [])
  -- `assert(err != EAGAIN)`
  | .eagain => none

/-- The body of the event loop of `poll`. -/
def handleEvent (s : EpollScheduler) (e : Event) : Option EventResult :=
  if e.epollin ∨ e.epollout then
    match s.ioIndex2req_.find e.data with
    | none => some { sched := s, sent := [], deleted := [], queued := [] }
    | some p => if e.epollin then s.handleIn e p else s.handleOut e p
  -- `assert(0)`
  else none

/-- The event loop of `poll`. -/
def handleEvents (s : EpollScheduler) : List Event → Option EventResult
  | [] => some { sched := s, sent := [], deleted := [], queued := [] }
  | e :: es =>
    (s.handleEvent e).bind fun r =>
      (r.sched.handleEvents es).map fun t =>
        { sched := t.sched
          sent := r.sent ++ t.sent
          deleted := r.deleted ++ t.deleted
          queued := r.queued ++ t.queued }

/-- The body of the expiry loop of `poll`: the request stays in the map. -/
def expireTurn (s : EpollScheduler) (id : ℕ) : EpollScheduler × Option Queued :=
  match s.ioIndex2req_.find id with
  | none => (s, none)
  | some p =>
    let expired : IoRequest := { p.req with retCode := -1 }
    ({ s with ioIndex2req_ := s.ioIndex2req_.insertOrAssign id { p with req := expired } },
      some { number := p.number, req := expired, id := some id })

/-- The expiry loop of `poll`. -/
def expireLoop (s : EpollScheduler) : List ℕ → EpollScheduler × List Queued
  | [] => (s, [])
  | id :: ids =>
    let r := s.expireTurn id
    let t := r.1.expireLoop ids
    (t.1, r.2.toList ++ t.2)

/-- The effects of a call of `poll`. -/
structure PollResult where
  sched : EpollScheduler
  ready : List Handle
  sent : List Segment
  deleted : List ℕ
  queued : List Queued
  expired : List Queued

/-- `poll` on the events of its `epoll_wait`, at the clock reading of its `popExpired`. -/
def poll (s : EpollScheduler) (events : List Event) (now : ℕ) (ready : List Handle) :
    Option PollResult :=
  (s.handleEvents events).map fun r =>
    let popped := r.sched.timerQueue_.popExpired now
    let t := { r.sched with timerQueue_ := popped.1 }.expireLoop popped.2
    -- `swap(readyHandleAddrs, completedHandleAddrs_)`
    { sched :=
        { t.1 with
          completedHandleAddrs_ := ready ++ t.2.map fun q => q.req.context }
      ready := t.1.completedHandleAddrs_
      sent := r.sent
      deleted := r.deleted
      queued := r.queued
      expired := t.2 }

end EpollScheduler

end CoUringWeb
