import CoUringWeb.Core.UringWakeups

/-!
# The echo server

The coroutine `Echo` of `echo.cpp` on `UringLoop`.  For each turn of its loop it allocates a buffer,
reads into it within three seconds, writes back what was read, and frees the buffer; it ends and
closes its connection when a read gives nothing.  What a write returns is not looked at.

In every interleaving of any number of connections each coroutine writes back exactly the chunks it
has read, in their order, and what its writes report as written is what was read if and only if each
of them reports its whole chunk (`echo_of_run`).  Every buffer is freed once and every connection
closed once, by its own coroutine (`resources_of_run`).

Both are about the runs of `UringLoop`, which end at the first operation that moves bytes after its
request was handed out.  For `echo_of_run` that matters: a read that timed out goes on, and bytes
that come later may land in a buffer that `malloc` has given to another connection.
-/

namespace CoUringWeb

open Machine Transition Awaiting Interleaving

namespace Echo

/-- A descriptor or a buffer. -/
inductive Resource where
  | fd (fd : ℕ)
  | buffer (address : ℕ)
  deriving DecidableEq, Repr

inductive Effect where
  /-- the coroutine is started with the connection -/
  | accepted (fd : ℕ)
  /-- what `malloc` returns, `0` for `nullptr` -/
  | malloc (address : ℕ)
  | free (address : ℕ)
  | close (fd : ℕ)
  deriving DecidableEq, Repr

/-- The next `malloc`: its result and what the buffer contains. -/
structure Heap where
  address : ℕ
  contents : Bytes
  deriving DecidableEq, Repr

inductive State where
  | reading (conn address : ℕ)
  | writing (conn address : ℕ)
  deriving DecidableEq, Repr

/-- A turn of the loop up to the `asyncRead`. -/
def turn (conn : ℕ) (heap : Heap) : Ran Effect Await State where
  effects := [.malloc heap.address]
  next := asyncRead
    { data := heap.contents, capicaty := 1024, fd := conn, op := .OP_READ, timeout := 3000 }
    (.reading conn heap.address)

/-- `Echo`; its argument is the connection. -/
def coroutine : Coroutine ℕ Heap Effect State where
  start conn heap := { turn conn heap with effects := .accepted conn :: (turn conn heap).effects }
  resume s heap req :=
    match s with
    | .reading conn address =>
      if req.retCode ≤ 0 then { effects := [.free address, .close req.fd], next := .ended }
      else
        { effects := []
          next := asyncWrite { req with size := ofInt32 req.retCode } (.writing conn address) }
    | .writing conn address =>
      { turn conn heap with effects := .free address :: (turn conn heap).effects }

/-! ## The streams -/

/-- The chunk an event has read. -/
def chunkRead : TraceEvent Effect Await IoRequest → Option Bytes
  | .got r => if r.op = .OP_READ ∧ 0 < r.retCode then some (r.data.take r.retCode.toNat) else none
  | _ => none

/-- The chunk an event asks to be written. -/
def chunkAsked : TraceEvent Effect Await IoRequest → Option Bytes
  | .asked q => if q.op = .OP_WRITE then some (q.req.data.take q.req.size) else none
  | _ => none

/-- The bytes that an event reports as written. -/
def chunkWritten : TraceEvent Effect Await IoRequest → Option Bytes
  | .got r => if r.op = .OP_WRITE then some (r.data.take r.retCode.toNat) else none
  | _ => none

/-- The event reports a write that has not written its whole request. -/
def isShort : TraceEvent Effect Await IoRequest → Prop
  | .got r => r.op = .OP_WRITE ∧ r.retCode < r.size
  | _ => False

@[simp] theorem chunkRead_did (f : Effect) : chunkRead (.did f) = none := rfl
@[simp] theorem chunkRead_asked (q : Await) : chunkRead (.asked q) = none := rfl
@[simp] theorem chunkAsked_did (f : Effect) : chunkAsked (.did f) = none := rfl
@[simp] theorem chunkAsked_got (r : IoRequest) : chunkAsked (.got r) = none := rfl
@[simp] theorem chunkWritten_did (f : Effect) : chunkWritten (.did f) = none := rfl
@[simp] theorem chunkWritten_asked (q : Await) : chunkWritten (.asked q) = none := rfl
@[simp] theorem isShort_did (f : Effect) : ¬ isShort (.did f) := id
@[simp] theorem isShort_asked (q : Await) : ¬ isShort (.asked q) := id

theorem chunkAsked_turn (conn : ℕ) (heap : Heap) :
    (turn conn heap).events.filterMap chunkAsked = [] := rfl

theorem chunkRead_turn (conn : ℕ) (heap : Heap) :
    (turn conn heap).events.filterMap chunkRead = [] := rfl

theorem length_flatten_le {cs ds : List Bytes} (h : List.Forall₂ (· <+: ·) cs ds) :
    cs.flatten.length ≤ ds.flatten.length := by
  induction h with
  | nil => exact le_rfl
  | cons hc _ ih =>
    have := hc.length_le
    simp only [List.flatten_cons, List.length_append]
    omega

/-- Chunks that are cut short make up the same stream only if none is cut. -/
theorem flatten_eq_iff {cs ds : List Bytes} (h : List.Forall₂ (· <+: ·) cs ds) :
    cs.flatten = ds.flatten ↔ cs = ds := by
  refine ⟨fun heq => ?_, fun heq => by rw [heq]⟩
  induction h with
  | nil => rfl
  | cons hc hcs ih =>
    -- the rests are no longer, so that neither is the first chunk
    have hlength := congrArg List.length heq
    have hrest := length_flatten_le hcs
    have hfirst := hc.length_le
    simp only [List.flatten_cons, List.length_append] at hlength heq
    have hc' := hc.eq_of_length (by omega)
    rw [hc', List.append_cancel_left_eq] at heq
    rw [hc', ih heq]

/-! ## One coroutine -/

/-- The kernel answers a read with no more than there is room for. -/
theorem read_answer {req r : IoRequest} (hcapicaty : req.capicaty = 1024) (hsize : req.size = 0)
    (h : Await.Answers ⟨.OP_READ, req⟩ r) :
    r.op = .OP_READ ∧ r.fd = req.fd ∧
      (0 < r.retCode → r.retCode.toNat ≤ r.data.length ∧ r.retCode.toNat ≤ 1024) := by
  cases h with
  | completed h res bytes hres hr =>
    subst hr
    refine ⟨rfl, rfl, fun hpos => ?_⟩
    have hroom : uint32 (2 ^ 32 + req.capicaty - req.size) = 1024 := by
      rw [hcapicaty, hsize]
      rfl
    rcases hres with ⟨hneg, -⟩ | ⟨rfl, hle⟩
    · exact absurd hpos (not_lt.2 hneg.le)
    · have hle : bytes.length ≤ uint32 (2 ^ 32 + req.capicaty - req.size) := hle
      simp [IoRequest.fill]
      omega
  | expired h bytes htimeout hbytes hr =>
    subst hr
    exact ⟨rfl, rfl, fun hpos => absurd hpos (by simp)⟩

/-- The kernel answers a write with no more than was asked, and leaves the request alone. -/
theorem write_answer {req r : IoRequest} (h : Await.Answers ⟨.OP_WRITE, req⟩ r) :
    r.op = .OP_WRITE ∧ r.data = req.data ∧ r.size = req.size ∧ r.retCode ≤ req.size := by
  cases h with
  | completed h res bytes hres hr =>
    obtain ⟨hle, rfl⟩ := hres
    subst hr
    exact ⟨rfl, rfl, rfl, hle⟩
  | expired h bytes htimeout hbytes hr =>
    have hnil : bytes = [] := by
      rcases hbytes with rfl | ⟨res, -, rfl⟩ <;> rfl
    subst hnil hr
    exact ⟨rfl, rfl, rfl, by simp⟩

/-- The writes report a part of each of these chunks, and the whole of each if none is short. -/
structure Mirrors (events : List (TraceEvent Effect Await IoRequest)) (chunks : List Bytes) :
    Prop where
  parts : List.Forall₂ (· <+: ·) (events.filterMap chunkWritten) chunks
  whole : events.filterMap chunkWritten = chunks ↔ ∀ e ∈ events, ¬ isShort e

/-- Events that report no write. -/
theorem Mirrors.append {es fs : List (TraceEvent Effect Await IoRequest)} {chunks : List Bytes}
    (h : Mirrors es chunks) (hwritten : fs.filterMap chunkWritten = [])
    (hshort : ∀ e ∈ fs, ¬ isShort e) : Mirrors (es ++ fs) chunks := by
  refine ⟨?_, ?_⟩
  · rw [List.filterMap_append, hwritten, List.append_nil]
    exact h.parts
  · rw [List.filterMap_append, hwritten, List.append_nil, h.whole, List.forall_mem_append]
    exact ⟨fun hes => ⟨hes, hshort⟩, And.left⟩

/-- A write reports how much of its chunk it has written. -/
theorem Mirrors.write {es : List (TraceEvent Effect Await IoRequest)} {chunks : List Bytes}
    (h : Mirrors es chunks) {req r : IoRequest} (hpos : 0 < req.size)
    (hdata : req.size ≤ req.data.length) (hr : Await.Answers ⟨.OP_WRITE, req⟩ r) :
    Mirrors (es ++ [TraceEvent.got r]) (chunks ++ [req.data.take req.size]) := by
  obtain ⟨hop, hrdata, hrsize, hle⟩ := write_answer hr
  have hwritten : (es ++ [TraceEvent.got r]).filterMap chunkWritten =
      es.filterMap chunkWritten ++ [req.data.take r.retCode.toNat] := by
    simp [chunkWritten, hop, hrdata]
  have hwhole : req.data.take r.retCode.toNat = req.data.take req.size ↔ ¬ isShort (.got r) := by
    simp only [isShort, hop, hrsize, true_and, not_lt]
    constructor
    · intro heq
      have := congrArg List.length heq
      simp only [List.length_take] at this
      omega
    · intro hge
      rw [show r.retCode.toNat = req.size by omega]
  refine ⟨?_, ?_⟩
  · rw [hwritten]
    exact List.rel_append h.parts (.cons (List.take_prefix_take_left (by omega)) .nil)
  · rw [hwritten, List.forall_mem_append, ← h.whole, List.forall_mem_singleton, ← hwhole]
    constructor
    · intro heq
      obtain ⟨hes, hc⟩ := List.append_inj' heq rfl
      exact ⟨hes, by simpa using hc⟩
    · rintro ⟨hes, hc⟩
      rw [hes, hc]

/-- What an event does to a descriptor or a buffer: an operation uses the descriptor of its
request, and `free(nullptr)` does nothing. -/
def access : TraceEvent Effect Await IoRequest → Option (Access Resource)
  | .did (.accepted fd) => some (.acquires (.fd fd))
  | .did (.malloc address) => if address = 0 then none else some (.acquires (.buffer address))
  | .did (.free address) => if address = 0 then none else some (.releases (.buffer address))
  | .did (.close fd) => some (.releases (.fd fd))
  | .asked q => some (.uses (.fd q.req.fd))
  | .got _ => none

/-- The connection and the buffer of a suspended coroutine. -/
def held (conn address : ℕ) : Multiset Resource :=
  if address = 0 then {.fd conn} else {.buffer address, .fd conn}

/-- What holds of a coroutine that was started with `conn` and has caused `events`. -/
inductive At (conn : ℕ) (events : List (TraceEvent Effect Await IoRequest)) :
    Next Await State → Prop where
  | reading (address : ℕ) (req : IoRequest) (hfd : req.fd = conn) (hcapicaty : req.capicaty = 1024)
      (hsize : req.size = 0) (hmirrors : Mirrors events (events.filterMap chunkRead))
      (htable : run Access.on 0 (events.filterMap access) = some (held conn address)) :
      At conn events (.awaits ⟨.OP_READ, req⟩ (.reading conn address))
  | writing (address : ℕ) (req : IoRequest) (chunks : List Bytes) (hfd : req.fd = conn)
      (hsize : 0 < req.size) (hdata : req.size ≤ req.data.length)
      (hread : events.filterMap chunkRead = chunks ++ [req.data.take req.size])
      (hmirrors : Mirrors events chunks)
      (htable : run Access.on 0 (events.filterMap access) = some (held conn address)) :
      At conn events (.awaits ⟨.OP_WRITE, req⟩ (.writing conn address))
  | ended (hmirrors : Mirrors events (events.filterMap chunkRead))
      (htable : run Access.on 0 (events.filterMap access) = some 0) :
      At conn events .ended

/-- The next turn of the loop starts with a new buffer. -/
theorem at_turn {conn : ℕ} {es : List (TraceEvent Effect Await IoRequest)} (heap : Heap)
    (hmirrors : Mirrors es (es.filterMap chunkRead))
    (htable : run Access.on 0 (es.filterMap access) = some {.fd conn}) :
    At conn (es ++ (turn conn heap).events) (turn conn heap).next := by
  have hread : (turn conn heap).events.filterMap chunkRead = [] := rfl
  refine .reading heap.address _ rfl rfl rfl ?_ ?_
  · rw [List.filterMap_append, hread, List.append_nil]
    exact hmirrors.append rfl (by simp [turn, Ran.events, Next.asked, asyncRead, isShort])
  · rw [List.filterMap_append, run_append]
    refine ⟨_, htable, ?_⟩
    by_cases hnull : heap.address = 0
    · simp [turn, Ran.events, Next.asked, asyncRead, access, hnull, run, Access.on, held]
    · simp [turn, Ran.events, Next.asked, asyncRead, access, hnull, run, Access.on, held]

/-- The coroutine frees its buffer. -/
theorem run_free {conn address : ℕ} {es : List (TraceEvent Effect Await IoRequest)}
    (htable : run Access.on 0 (es.filterMap access) = some (held conn address)) (r : IoRequest) :
    run Access.on 0 ((es ++ [TraceEvent.got r, .did (Effect.free address)]).filterMap access) =
      some {.fd conn} := by
  rw [List.filterMap_append, run_append]
  refine ⟨_, htable, ?_⟩
  by_cases hnull : address = 0
  · simp [List.filterMap_cons, access, hnull, held]
  · simp [List.filterMap_cons, access, hnull, run, Access.on, held]

/-- What holds of a coroutine at `next`: it has asked to be written what it has read, and it keeps
to its own resources. -/
def Ok (conn : ℕ) (events : List (TraceEvent Effect Await IoRequest)) (next : Next Await State) :
    Prop :=
  events.filterMap chunkAsked = events.filterMap chunkRead ∧ At conn events next

variable {conn address : ℕ} {es : List (TraceEvent Effect Await IoRequest)} {req r : IoRequest}

/-- A read that gives nothing ends the coroutine. -/
theorem ok_close (hasked : es.filterMap chunkAsked = es.filterMap chunkRead)
    (hmirrors : Mirrors es (es.filterMap chunkRead))
    (htable : run Access.on 0 (es.filterMap access) = some (held conn address))
    (hop : r.op = .OP_READ) (hend : r.retCode ≤ 0) :
    Ok conn (es ++ [.got r, .did (.free address), .did (.close conn)]) .ended := by
  have hread : chunkRead (.got r) = none := by simp [chunkRead, hend]
  have hwritten : chunkWritten (.got r) = none := by simp [chunkWritten, hop]
  have hshort : ¬ isShort (.got r) := by simp [isShort, hop]
  refine ⟨?_, .ended ?_ ?_⟩
  · simp [List.filterMap_cons, hread, hasked]
  · rw [List.filterMap_append, show [TraceEvent.got r, .did (.free address),
      .did (.close conn)].filterMap chunkRead = [] by simp [List.filterMap_cons, hread],
      List.append_nil]
    exact hmirrors.append (by simp [List.filterMap_cons, hwritten]) (by simp [hshort])
  · have hclose : es ++ [TraceEvent.got r, .did (Effect.free address), .did (Effect.close conn)] =
        (es ++ [.got r, .did (.free address)]) ++ [.did (.close conn)] := by simp
    rw [hclose, List.filterMap_append, run_append]
    refine ⟨_, run_free htable r, ?_⟩
    simp [access, run, Access.on]

/-- What a read gives is asked to be written. -/
theorem ok_write (hasked : es.filterMap chunkAsked = es.filterMap chunkRead)
    (hmirrors : Mirrors es (es.filterMap chunkRead))
    (htable : run Access.on 0 (es.filterMap access) = some (held conn address))
    (hop : r.op = .OP_READ) (hfd : r.fd = conn) (hpos : 0 < r.retCode)
    (hroom : r.retCode.toNat ≤ r.data.length ∧ r.retCode.toNat ≤ 1024) :
    Ok conn (es ++ [.got r, .asked ⟨.OP_WRITE, { r with size := ofInt32 r.retCode }⟩])
      (.awaits ⟨.OP_WRITE, { r with size := ofInt32 r.retCode }⟩ (.writing conn address)) := by
  have hsize : ofInt32 r.retCode = r.retCode.toNat := by
    unfold ofInt32
    omega
  have hread : chunkRead (.got r) = some (r.data.take r.retCode.toNat) := by
    simp [chunkRead, hop, hpos]
  have hwritten : chunkWritten (.got r) = none := by simp [chunkWritten, hop]
  have hshort : ¬ isShort (.got r) := by simp [isShort, hop]
  rw [hsize]
  refine ⟨?_, .writing address _ (es.filterMap chunkRead) hfd ?_ hroom.1 ?_ ?_ ?_⟩
  · simp [List.filterMap_cons, hread, chunkAsked, hasked]
  · dsimp only
    omega
  · simp [List.filterMap_cons, hread]
  · exact hmirrors.append (by simp [List.filterMap_cons, hwritten]) (by simp [hshort])
  · rw [List.filterMap_append, run_append]
    refine ⟨_, htable, ?_⟩
    by_cases hnull : address = 0
    · simp [List.filterMap_cons, access, run, Access.on, held, hnull, hfd]
    · simp [List.filterMap_cons, access, run, Access.on, held, hnull, hfd]

/-- After a write the coroutine goes on with its next turn. -/
theorem ok_turn {chunks : List Bytes} {heap : Heap}
    (hasked : es.filterMap chunkAsked = es.filterMap chunkRead)
    (hread : es.filterMap chunkRead = chunks ++ [req.data.take req.size])
    (hmirrors : Mirrors es chunks)
    (htable : run Access.on 0 (es.filterMap access) = some (held conn address))
    (hsize : 0 < req.size) (hdata : req.size ≤ req.data.length)
    (hr : Await.Answers ⟨.OP_WRITE, req⟩ r) :
    Ok conn (es ++ .got r :: .did (.free address) :: (turn conn heap).events)
      (turn conn heap).next := by
  obtain ⟨hop, -⟩ := write_answer hr
  have hnone : chunkRead (.got r) = none := by simp [chunkRead, hop]
  have hsplit : es ++ .got r :: .did (.free address) :: (turn conn heap).events =
      (es ++ [.got r, .did (.free address)]) ++ (turn conn heap).events := by simp
  have hread' : (es ++ [TraceEvent.got r, .did (Effect.free address)]).filterMap chunkRead =
      chunks ++ [req.data.take req.size] := by
    rw [← hread]
    simp [List.filterMap_cons, hnone]
  rw [hsplit]
  refine ⟨?_, at_turn heap ?_ (run_free htable r)⟩
  · rw [List.filterMap_append, List.filterMap_append (f := chunkRead), chunkAsked_turn,
      chunkRead_turn, hread', ← hread, ← hasked]
    simp [List.filterMap_cons]
  · rw [hread']
    have hwrite : Mirrors ((es ++ [.got r]) ++ [.did (.free address)]) _ :=
      (hmirrors.write hsize hdata hr).append (by simp [List.filterMap_cons]) (by simp)
    simpa using hwrite

theorem ok_of_alone {next : Next Await State} (h : Alone coroutine Await.Answers conn es next) :
    Ok conn es next := by
  induction h with
  | start heap =>
    have hmirrors : Mirrors [.did (.accepted conn)] ([.did (.accepted conn)].filterMap chunkRead) :=
      ⟨.nil, by simp [List.filterMap_cons]⟩
    exact ⟨rfl, at_turn heap hmirrors rfl⟩
  | resume h heap r hr ih =>
    obtain ⟨hasked, hat⟩ := ih
    cases hat with
    | reading address req hfd hcapicaty hsize hmirrors htable =>
      obtain ⟨hop, hrfd, hroom⟩ := read_answer hcapicaty hsize hr
      by_cases hend : r.retCode ≤ 0
      · have hran : coroutine.resume (.reading conn address) heap r =
            { effects := [.free address, .close conn], next := .ended } := by
          simp [coroutine, hend, hrfd, hfd]
        rw [hran]
        exact ok_close hasked hmirrors htable hop hend
      · have hpos : 0 < r.retCode := by omega
        have hne : ofInt32 r.retCode ≠ 0 := by
          have := hroom hpos
          unfold ofInt32
          omega
        have hran : coroutine.resume (.reading conn address) heap r =
            { effects := []
              next := .awaits ⟨.OP_WRITE, { r with size := ofInt32 r.retCode }⟩
                (.writing conn address) } := by
          simp [coroutine, hend, asyncWrite, hne]
        rw [hran]
        exact ok_write hasked hmirrors htable hop (hrfd.trans hfd) hpos (hroom hpos)
    | writing address req chunks hfd hsize hdata hread hmirrors htable =>
      exact ok_turn hasked hread hmirrors htable hsize hdata hr

/-! ## Runs of the loop -/

open UringLoop

variable {bs : List (UringLoop.Action ℕ Heap)} {w : UringLoop Effect State}

/-- Two connections: the peer of the first sends `hi`, of which one byte is written back, and the
second times out and leaves its address to a third. -/
def threeConnections : List (UringLoop.Action ℕ Heap) :=
  [.clear, .connect 9 ⟨1000, []⟩ 100 0, .connect 10 ⟨2000, []⟩ 200 0, .poll,
    .complete 0 2 (ascii "hi"), .reap, .popExpired 0, .polled, .resume ⟨0, []⟩ 0, .resumed,
    .clear, .poll, .complete 1 1 [], .reap, .popExpired 3000, .expire, .polled,
    .resume ⟨1000, []⟩ 3000, .resume ⟨0, []⟩ 3000, .resumed, .clear,
    .connect 11 ⟨2000, []⟩ 200 3000, .poll]

theorem threeConnections_run : ∃ w, run (step coroutine) new threeConnections = some w ∧
    w.started = 3 ∧ w.ring.submissions.length = 5 ∧
    ((part 0 w.log).filterMap chunkWritten).flatten = ascii "h" := by
  have hrun : (run (step coroutine) new threeConnections).map
      (fun w => (w.started, w.ring.submissions.length,
        ((part 0 w.log).filterMap chunkWritten).flatten)) = some (3, 5, ascii "h") := by
    decide +kernel
  obtain ⟨w, hw, heq⟩ := Option.map_eq_some_iff.1 hrun
  simp only [Prod.mk.injEq] at heq
  exact ⟨w, hw, heq⟩

/-- Up to the first operation that moves bytes after its request was handed out (`stray`), and below
`2 ^ 64` requests: on every connection the coroutine asks to be written exactly the chunks it has
read, in their order; and the bytes its writes report are the bytes it has read if and only if no
write has reported less than its chunk and none is under way. -/
theorem echo_of_run (hrun : run (step coroutine) new bs = some w)
    (hlt : w.ring.submissions.length < 2 ^ 64) {n : ℕ} (hn : n < w.started) :
    (part n w.log).filterMap chunkAsked = (part n w.log).filterMap chunkRead ∧
    (((part n w.log).filterMap chunkWritten).flatten =
        ((part n w.log).filterMap chunkRead).flatten ↔
      (∀ e ∈ part n w.log, ¬ isShort e) ∧
        ∀ h f, w.frames h = some f → f.thread = n → f.call.op = .OP_READ) := by
  obtain ⟨conn, next, halone, hsuspended, -⟩ := alone_of_run hrun hlt hn
  obtain ⟨hasked, hat⟩ := ok_of_alone halone
  refine ⟨hasked, ?_⟩
  have hcall (h : Handle) (f : Frame State) (hf : w.frames h = some f) (hthread : f.thread = n) :
      next = .awaits f.call f.state := (hsuspended _ _).2 ⟨h, f, hf, hthread, rfl, rfl⟩
  have hmirrored (hmirrors : Mirrors (part n w.log) ((part n w.log).filterMap chunkRead))
      (hidle : ∀ h f, w.frames h = some f → f.thread = n → f.call.op = .OP_READ) :
      ((part n w.log).filterMap chunkWritten).flatten =
          ((part n w.log).filterMap chunkRead).flatten ↔
        (∀ e ∈ part n w.log, ¬ isShort e) ∧
          ∀ h f, w.frames h = some f → f.thread = n → f.call.op = .OP_READ := by
    rw [flatten_eq_iff hmirrors.parts, hmirrors.whole]
    exact ⟨fun hshort => ⟨hshort, hidle⟩, And.left⟩
  cases hat with
  | reading address req hfd hcapicaty hsize hmirrors htable =>
    refine hmirrored hmirrors fun h f hf hthread => ?_
    have heq := hcall h f hf hthread
    rw [← (Next.awaits.inj heq).1]
  | ended hmirrors htable =>
    exact hmirrored hmirrors fun h f hf hthread => absurd (hcall h f hf hthread) (by simp)
  | writing address req chunks hfd hsize hdata hread hmirrors htable =>
    -- the chunk under way has not been reported
    obtain ⟨h, f, hf, hthread, hf', -⟩ := (hsuspended _ _).1 rfl
    constructor
    · intro heq
      have hlength := congrArg List.length heq
      have hle := length_flatten_le hmirrors.parts
      rw [hread, List.flatten_append, List.length_append] at hlength
      simp only [List.flatten_cons, List.flatten_nil, List.append_nil, List.length_take] at hlength
      omega
    · rintro ⟨-, hidle⟩
      have hop := hidle h f hf hthread
      rw [hf'] at hop
      cases hop

theorem echo_of_run_threeConnections :
    ∃ w, run (step coroutine) new threeConnections = some w ∧
      (part 0 w.log).filterMap chunkAsked = (part 0 w.log).filterMap chunkRead ∧
      ((part 0 w.log).filterMap chunkWritten).flatten = ascii "h" := by
  obtain ⟨w, hw, hstarted, hlength, hwritten⟩ := threeConnections_run
  exact ⟨w, hw, (echo_of_run hw (by omega) (by omega)).1, hwritten⟩

/-- What the coroutine `n` has open and allocated. -/
def left (w : UringLoop Effect State) (n : ℕ) : Multiset Resource :=
  owned ((part n w.log).filterMap access)

/-- No interleaving of echo coroutines, as far as it is followed (up to `stray`) and below `2 ^ 64`
requests, stops the process, uses or closes a descriptor that is not open, or frees a buffer that is
not allocated.  A suspended coroutine has its connection and its buffer, and one that has ended has
left nothing. -/
theorem resources_of_run (hrun : run (step coroutine) new bs = some w)
    (hlt : w.ring.submissions.length < 2 ^ 64) :
    w.status ≠ .broken ∧
    run Access.on 0 ((w.log.map Prod.snd).filterMap access) =
      some (∑ n ∈ Finset.range w.started, left w n) ∧
    ∀ n < w.started,
      (∃ h f address, w.frames h = some f ∧ f.thread = n ∧
        left w n = held f.call.req.fd address) ∨
      (∀ h f, w.frames h = some f → f.thread ≠ n) ∧ left w n = 0 := by
  have hat {conn : ℕ} {es : List (TraceEvent Effect Await IoRequest)} {next : Next Await State}
      (h : Alone coroutine Await.Answers conn es next) : At conn es next := (ok_of_alone h).2
  refine ⟨not_broken (fun conn es halone => by cases hat halone) hrun hlt,
    run_accesses (fun conn es next halone => ?_) hrun hlt, fun n hn => ?_⟩
  · cases hat halone with
    | reading address req hfd hcapicaty hsize hmirrors htable => exact (tidy_of_run htable).1
    | writing address req chunks hfd hsize hdata hread hmirrors htable =>
      exact (tidy_of_run htable).1
    | ended hmirrors htable => exact (tidy_of_run htable).1
  · obtain ⟨conn, next, halone, hsuspended, -⟩ := alone_of_run hrun hlt hn
    cases hat halone with
    | reading address req hfd hcapicaty hsize hmirrors htable =>
      obtain ⟨h, f, hf, hthread, hcall, -⟩ := (hsuspended _ _).1 rfl
      refine Or.inl ⟨h, f, address, hf, hthread, ?_⟩
      rw [hcall, left, (tidy_of_run htable).2, ← hfd]
    | writing address req chunks hfd hsize hdata hread hmirrors htable =>
      obtain ⟨h, f, hf, hthread, hcall, -⟩ := (hsuspended _ _).1 rfl
      refine Or.inl ⟨h, f, address, hf, hthread, ?_⟩
      rw [hcall, left, (tidy_of_run htable).2, ← hfd]
    | ended hmirrors htable =>
      refine Or.inr ⟨fun h f hf hthread => ?_, (tidy_of_run htable).2⟩
      have hnext := (hsuspended f.call f.state).2 ⟨h, f, hf, hthread, rfl, rfl⟩
      cases hnext

theorem resources_of_run_threeConnections :
    ∃ w, run (step coroutine) new threeConnections = some w ∧ w.started = 3 ∧
      run Access.on 0 ((w.log.map Prod.snd).filterMap access) =
        some (∑ n ∈ Finset.range w.started, left w n) := by
  obtain ⟨w, hw, hstarted, hlength, -⟩ := threeConnections_run
  exact ⟨w, hw, hstarted, (resources_of_run hw (by omega)).2.1⟩

end Echo

end CoUringWeb
