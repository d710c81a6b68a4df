import CoUringWeb.Core.UringWakeups
import CoUringWeb.Http.StaticWeb

/-!
# `static_web_http` on the scheduler

`static_web_http` as a coroutine of `UringLoop`: it reads one request, and `StaticWeb.lean` says
what it does from there on.  Its effects here are those on descriptors: the connection it is
started with, the file it opens, and what it closes.  An exception ends the coroutine in
`unhandled_exception`, which does nothing, so that what it holds stays open.

The coroutine is tidy by itself: it reads, writes and closes its own connection and its own file
only (`tidy_of_alone`).  So no interleaving of any number of them closes a descriptor that is not
open or has an operation on one, and what is open is the connections of the suspended coroutines
and what exceptions have left open (`descriptors_of_run`).  The coroutine sets no timeout, so that
`poll` always ends and no operation outlives its request (`poll_ends_of_run`).
-/

namespace CoUringWeb

open Machine Transition Awaiting Interleaving CoUringWeb.Path

namespace StaticWeb

/-- What the coroutine does to the table of descriptors. -/
inductive FdEffect where
  /-- it is started with the connection -/
  | accepted (fd : ℕ)
  | opened (fd : ℕ)
  | closed (fd : ℕ)
  /-- an exception ends it -/
  | threw
  deriving DecidableEq, Repr

inductive State where
  /-- at the `asyncRead` of the request -/
  | reading (conn : ℕ)
  /-- at an `asyncWrite`, with what is left to do -/
  | writing (conn : ℕ) (rest : List Effect)
  deriving DecidableEq, Repr

/-- `defaultHttpRequestReadBufferSize` -/
def readBufferSize : ℕ := 8192

/-- The request of the first `asyncRead`. -/
def readRequest (conn : ℕ) : IoRequest :=
  { data := List.replicate readBufferSize 0, capicaty := readBufferSize, fd := conn, op := .OP_READ
    timeout := 0 }

/-- The request of an `asyncWrite`. -/
def writeRequest (conn : ℕ) (data : Bytes) (size : ℕ) : IoRequest :=
  { data := data, size := size, fd := conn, op := .OP_WRITE, timeout := 0 }

/-- The effects up to the next `co_await`. -/
def piece (conn : ℕ) : List Effect → Ran FdEffect Await State
  | [] => { effects := [], next := .ended }
  | .close fd :: rest =>
    let ran := piece conn rest
    { ran with effects := .closed fd :: ran.effects }
  | .asyncWrite data size :: rest =>
    { effects := [], next := asyncWrite (writeRequest conn data size) (.writing conn rest) }

theorem piece_close (conn fd : ℕ) (rest : List Effect) :
    piece conn (.close fd :: rest) =
      { effects := .closed fd :: (piece conn rest).effects, next := (piece conn rest).next } := rfl

theorem piece_asyncWrite (conn : ℕ) (data : Bytes) (size : ℕ) (rest : List Effect) :
    piece conn (.asyncWrite data size :: rest) =
      { effects := []
        next := asyncWrite (writeRequest conn data size) (.writing conn rest) } := rfl

/-- The file that is opened for the request, if one is. -/
def openedFile (env : Environment) (retCode : ℤ) (reqBuff : Bytes) : Option ℕ :=
  if retCode ≤ 0 then none
  else
    match HttpRequest.fromRawData (reqBuff.take retCode.toNat) with
    | none => none
    | some httpRequest => env.openFile (cStr (append env.http_dir httpRequest.getUrl))

/-- The piece after the read. -/
def answer (env : Environment) (conn : ℕ) (retCode : ℤ) (reqBuff : Bytes) :
    Ran FdEffect Await State :=
  let opens := (openedFile env retCode reqBuff).toList.map FdEffect.opened
  match static_web_http env conn retCode reqBuff with
  | .returned effects =>
    { piece conn effects with effects := opens ++ (piece conn effects).effects }
  | .threw effects =>
    { effects := opens ++ (piece conn effects).effects ++ [.threw], next := .ended }
  | .undefined => { effects := opens, next := .broken }

/-- `static_web_http`; its argument is the connection. -/
def coroutine : Coroutine ℕ Environment FdEffect State where
  start conn env :=
    if env.allocates readBufferSize then
      { effects := [.accepted conn], next := asyncRead (readRequest conn) (.reading conn) }
    else { effects := [.accepted conn, .threw], next := .ended }
  resume s env req :=
    match s with
    | .reading conn => answer env conn req.retCode req.data
    | .writing conn rest => piece conn rest

/-! ## What one piece can be -/

theorem sendFile_ne_threw (env : Environment) (conn fd n : ℕ) (response : HttpResponse)
    (headersSize fileSize : ℤ) (effects : List Effect) :
    sendFile env conn fd n response headersSize fileSize ≠ .threw effects := by
  intro h
  unfold sendFile at h
  repeat' split at h
  all_goals cases h

/-- How the coroutine can go on once its file is open. -/
theorem serveFile_cases (env : Environment) (conn fd : ℕ) (url : Bytes) :
    serveFile env conn fd url = .returned (.close fd :: notFound conn) ∨
      (∃ res size, serveFile env conn fd url =
        .returned [.close fd, .asyncWrite res size, .close conn]) ∨
      serveFile env conn fd url = .threw [] ∨ serveFile env conn fd url = .undefined := by
  unfold serveFile
  dsimp only
  split
  · exact Or.inl rfl
  · split
    · exact Or.inr (Or.inr (Or.inr rfl))
    · split
      · cases hsend : sendFile env conn fd _ _ _ _ with
        | returned effects =>
          rcases sendFile_eq_returned hsend with rfl | ⟨res, -, rfl⟩
          · exact Or.inl rfl
          · exact Or.inr (Or.inl ⟨res, _, rfl⟩)
        | threw effects => exact absurd hsend (sendFile_ne_threw _ _ _ _ _ _ _ _)
        | undefined => exact Or.inr (Or.inr (Or.inr rfl))
      · exact Or.inr (Or.inr (Or.inl rfl))

/-- The coroutine opens no file and answers without one, or it goes on with the file. -/
theorem static_web_http_cases (env : Environment) (conn : ℕ) (retCode : ℤ) (reqBuff : Bytes) :
    (openedFile env retCode reqBuff = none ∧
      (static_web_http env conn retCode reqBuff = .returned [.close conn] ∨
        static_web_http env conn retCode reqBuff = .returned (notFound conn))) ∨
    ∃ fd url, openedFile env retCode reqBuff = some fd ∧
      static_web_http env conn retCode reqBuff = serveFile env conn fd url := by
  by_cases hretCode : retCode ≤ 0
  · exact Or.inl ⟨if_pos hretCode, Or.inl (if_pos hretCode)⟩
  · rw [openedFile, static_web_http, if_neg hretCode, if_neg hretCode]
    cases HttpRequest.fromRawData (reqBuff.take retCode.toNat) with
    | none => exact Or.inl ⟨rfl, Or.inl rfl⟩
    | some httpRequest =>
      dsimp only
      cases env.openFile (cStr (append env.http_dir httpRequest.getUrl)) with
      | none => exact Or.inl ⟨rfl, Or.inr rfl⟩
      | some fd => exact Or.inr ⟨fd, _, rfl, rfl⟩

/-- What the piece after the read can be. -/
inductive Answered (conn : ℕ) : Ran FdEffect Await State → Prop where
  | refused : Answered conn { effects := [.closed conn], next := .ended }
  /-- a reply is written; the file, if one was opened, is closed again -/
  | replied (file : Option ℕ) (data : Bytes) (size : ℕ) :
      Answered conn
        { effects := file.toList.flatMap fun fd => [.opened fd, .closed fd]
          next := asyncWrite (writeRequest conn data size) (.writing conn [.close conn]) }
  | threw (fd : ℕ) : Answered conn { effects := [.opened fd, .threw], next := .ended }
  | undefined (fd : ℕ) : Answered conn { effects := [.opened fd], next := .broken }

theorem answered_answer (env : Environment) (conn : ℕ) (retCode : ℤ) (reqBuff : Bytes) :
    Answered conn (answer env conn retCode reqBuff) := by
  unfold answer
  rcases static_web_http_cases env conn retCode reqBuff with
    ⟨hopened, hrun | hrun⟩ | ⟨fd, url, hopened, hrun⟩
  · rw [hopened, hrun]
    exact .refused
  · rw [hopened, hrun]
    simp only [notFound, piece_asyncWrite, Option.toList_none, List.map_nil, List.nil_append]
    exact .replied none _ _
  · rw [hopened, hrun]
    rcases serveFile_cases env conn fd url with hfile | ⟨res, size, hfile⟩ | hfile | hfile
    · rw [hfile]
      simp only [notFound, piece_close, piece_asyncWrite, Option.toList_some, List.map_cons,
        List.map_nil, List.singleton_append]
      exact .replied (some fd) _ _
    · rw [hfile]
      exact .replied (some fd) res size
    · rw [hfile]
      exact .threw fd
    · rw [hfile]
      exact .undefined fd

/-! ## Descriptors -/

/-- What an event does to a descriptor: an operation uses the one of its request. -/
def access : TraceEvent FdEffect Await IoRequest → Option (Access ℕ)
  | .did (.accepted fd) | .did (.opened fd) => some (.acquires fd)
  | .did (.closed fd) => some (.releases fd)
  | .did .threw => none
  | .asked q => some (.uses q.req.fd)
  | .got _ => none

/-- The descriptors open after a list of events, `none` when one is used or closed that is not
open. -/
def table (events : List (TraceEvent FdEffect Await IoRequest)) : Option (Multiset ℕ) :=
  run Access.on 0 (events.filterMap access)

theorem table_append {es fs : List (TraceEvent FdEffect Await IoRequest)} {s t : Multiset ℕ}
    (hes : table es = some s) (hfs : run Access.on s (fs.filterMap access) = some t) :
    table (es ++ fs) = some t := by
  rw [table, List.filterMap_append, run_append]
  exact ⟨s, hes, hfs⟩

/-- What a coroutine that was started with `conn` and has caused `events` has open. -/
inductive Holds (conn : ℕ) (events : List (TraceEvent FdEffect Await IoRequest)) :
    Next Await State → Multiset ℕ → Prop where
  | reading (hthrew : .did .threw ∉ events) (q : Await) (hq : q.req.fd = conn) :
      Holds conn events (.awaits q (.reading conn)) {conn}
  | writing (hthrew : .did .threw ∉ events) (q : Await) (hq : q.req.fd = conn) :
      Holds conn events (.awaits q (.writing conn [.close conn])) {conn}
  | ended (hthrew : .did .threw ∉ events) : Holds conn events .ended 0
  | threw (hthrew : .did .threw ∈ events) (files : Multiset ℕ) :
      Holds conn events .ended (conn ::ₘ files)
  | broken (s : Multiset ℕ) : Holds conn events .broken s

/-- The piece after the read keeps to the connection and its own file. -/
theorem holds_of_answered {conn : ℕ} {events : List (TraceEvent FdEffect Await IoRequest)}
    (hthrew : .did .threw ∉ events) {ran : Ran FdEffect Await State} (h : Answered conn ran)
    (r : IoRequest) :
    ∃ s, run Access.on {conn} ((.got r :: ran.events).filterMap access) = some s ∧
      Holds conn (events ++ .got r :: ran.events) ran.next s := by
  cases h with
  | refused =>
    refine ⟨0, ?_, .ended (by simp [Ran.events, Next.asked, hthrew])⟩
    simp [Ran.events, Next.asked, List.filterMap_cons, access, run, Access.on]
  | replied file data size =>
    by_cases hsize : size = 0
    · have hnext : asyncWrite (writeRequest conn data size) (State.writing conn [.close conn]) =
          .broken := if_pos hsize
      rw [hnext]
      refine ⟨{conn}, ?_, .broken _⟩
      cases file <;>
        simp [Ran.events, Next.asked, List.filterMap_cons, access, run, Access.on]
    · have hnext : asyncWrite (writeRequest conn data size) (State.writing conn [.close conn]) =
          .awaits ⟨.OP_WRITE, writeRequest conn data size⟩ (.writing conn [.close conn]) :=
        if_neg hsize
      rw [hnext]
      refine ⟨{conn}, ?_, .writing ?_ _ rfl⟩
      · cases file <;>
          simp [Ran.events, Next.asked, List.filterMap_cons, access, run, Access.on, writeRequest]
      · cases file <;> simp [Ran.events, Next.asked, hthrew]
  | threw fd =>
    refine ⟨conn ::ₘ {fd}, ?_, .threw (by simp [Ran.events]) _⟩
    simpa [Ran.events, Next.asked, List.filterMap_cons, access, run, Access.on] using
      Multiset.pair_comm fd conn
  | undefined fd =>
    refine ⟨fd ::ₘ {conn}, ?_, .broken _⟩
    simp [Ran.events, Next.asked, List.filterMap_cons, access, run, Access.on]

/-- The coroutine uses and closes its own descriptors only. -/
theorem holds_of_alone {conn : ℕ} {events : List (TraceEvent FdEffect Await IoRequest)}
    {next : Next Await State} (h : Alone coroutine Await.Answers conn events next) :
    ∃ s, table events = some s ∧ Holds conn events next s := by
  induction h with
  | start env =>
    by_cases hallocates : env.allocates readBufferSize
    · simp only [coroutine, if_pos hallocates]
      refine ⟨{conn}, ?_, .reading (by simp [Ran.events, asyncRead, Next.asked]) _ rfl⟩
      simp [table, Ran.events, asyncRead, Next.asked, access, run, Access.on, readRequest]
    · simp only [coroutine, if_neg hallocates]
      refine ⟨{conn}, ?_, .threw (by simp [Ran.events]) 0⟩
      simp [table, Ran.events, Next.asked, List.filterMap_cons, access, run, Access.on]
  | resume h env r hr ih =>
    obtain ⟨s, hs, hholds⟩ := ih
    cases hholds with
    | reading hthrew q hq =>
      obtain ⟨t, ht, hholds⟩ :=
        holds_of_answered hthrew (answered_answer env conn r.retCode r.data) r
      exact ⟨t, table_append hs ht, hholds⟩
    | writing hthrew q hq =>
      refine ⟨0, table_append hs ?_, .ended ?_⟩
      · simp [coroutine, piece, Ran.events, Next.asked, List.filterMap_cons, access, run, Access.on]
      · simp [coroutine, piece, Ran.events, Next.asked, hthrew]

/-! ## Runs of the loop -/

theorem timeout_of_piece {conn : ℕ} {effects : List Effect} {q : Await} {s : State}
    (h : (piece conn effects).next = .awaits q s) : q.req.timeout = 0 := by
  induction effects with
  | nil => simp [piece] at h
  | cons e rest ih =>
    cases e with
    | close fd => exact ih h
    | asyncWrite data size =>
      rw [piece_asyncWrite] at h
      dsimp only [asyncWrite] at h
      split at h <;> cases h
      rfl

/-- The coroutine sets no timeout. -/
theorem untimed {q : Await} (h : UringLoop.Awaits coroutine q) : q.req.timeout ≤ 0 := by
  rcases h with ⟨conn, env, s, h⟩ | ⟨st, env, r, s, h⟩
  · simp only [coroutine] at h
    split at h <;> cases h
    exact le_rfl
  · cases st with
    | reading conn =>
      simp only [coroutine, answer] at h
      split at h
      · exact le_of_eq (timeout_of_piece h)
      · cases h
      · cases h
    | writing conn rest => exact le_of_eq (timeout_of_piece h)

open UringLoop

variable {bs : List (UringLoop.Action ℕ Environment)} {w : UringLoop FdEffect State}

/-- With `static_web_http` no operation outlives its request, and in every state the
`while (true)` of `poll` looks at each entry in the queue exactly once, in order, marks it seen and
ends with an empty queue.  Nothing is left out by the status `.stray`: no run reaches it. -/
theorem poll_ends_of_run (hrun : run (step coroutine) new bs = some w)
    (hlt : w.ring.submissions.length < 2 ^ 64) :
    w.status ≠ .stray ∧ w.ring.expireds = [] ∧ ∀ ready, ∃ q,
      UringScheduler.pollLoop (w.ring.cq.length + 1) (.start w.ring.sched w.ring.cq ready) =
        some q ∧
      q.looked = List.range w.ring.cq.length ∧ q.seen = List.range w.ring.cq.length ∧
      q.cq = [] :=
  untimed_poll_ends (fun _ => untimed) hrun hlt

/-- One connection asks for the file of two bytes and is served, the other is closed by its peer. -/
def twoConnections : List (UringLoop.Action ℕ Environment) :=
  [.clear, .connect 9 smallFile 100 0, .connect 10 smallFile 200 0, .poll, .complete 1 0 [],
    .complete 0 23 (ascii "GET /a.css HTTP/1.1\r\n\r\n"), .reap, .reap, .popExpired 0, .polled,
    .resume smallFile 0, .resume smallFile 0, .resumed]

theorem twoConnections_run : ∃ w, run (step coroutine) new twoConnections = some w ∧
    w.started = 2 ∧ w.ring.submissions.length = 3 ∧ w.status = .running ∧
    w.ring.flying = [3] := by
  have hrun : (run (step coroutine) new twoConnections).map
      (fun w => (w.started, w.ring.submissions.length, w.status, w.ring.flying)) =
        some (2, 3, .running, [3]) := by
    decide +kernel
  obtain ⟨w, hw, heq⟩ := Option.map_eq_some_iff.1 hrun
  simp only [Prod.mk.injEq] at heq
  exact ⟨w, hw, heq⟩

theorem poll_ends_of_run_twoConnections :
    ∃ w, run (step coroutine) new twoConnections = some w ∧ w.status ≠ .stray := by
  obtain ⟨w, hw, -, hlength, -⟩ := twoConnections_run
  exact ⟨w, hw, (poll_ends_of_run hw (by omega)).1⟩

/-- What the coroutine `n` has open. -/
def left (w : UringLoop FdEffect State) (n : ℕ) : Multiset ℕ :=
  owned ((part n w.log).filterMap access)

/-- No interleaving of coroutines running `static_web_http` uses or closes a descriptor that is not
open, below `2 ^ 64` requests and as long as none of them has stopped the process (`broken`).  What
is open is what each of them has left open: its connection while it is suspended, and nothing once
it has ended, unless an exception has ended it. -/
theorem descriptors_of_run (hrun : run (step coroutine) new bs = some w)
    (hlt : w.ring.submissions.length < 2 ^ 64) (hstatus : w.status ≠ .broken) :
    table (w.log.map Prod.snd) = some (∑ n ∈ Finset.range w.started, left w n) ∧
    ∀ n < w.started,
      (∃ h f, w.frames h = some f ∧ f.thread = n ∧ left w n = {f.call.req.fd}) ∨
      (∀ h f, w.frames h = some f → f.thread ≠ n) ∧
        (left w n = 0 ↔ .did .threw ∉ part n w.log) := by
  refine ⟨run_accesses (fun conn es next halone => ?_) hrun hlt, fun n hn => ?_⟩
  · obtain ⟨s, hs, -⟩ := holds_of_alone halone
    exact (tidy_of_run hs).1
  · obtain ⟨conn, next, halone, hsuspended, hbroken⟩ := alone_of_run hrun hlt hn
    obtain ⟨s, hs, hholds⟩ := holds_of_alone halone
    have hleft : left w n = s := (tidy_of_run hs).2
    have hnone (hnext : ∀ q st, next ≠ .awaits q st) :
        ∀ h f, w.frames h = some f → f.thread ≠ n := fun h f hf heq =>
      hnext f.call f.state ((hsuspended _ _).2 ⟨h, f, hf, heq, rfl, rfl⟩)
    cases hholds with
    | reading hthrew q hq =>
      obtain ⟨h, f, hf, hthread, rfl, -⟩ := (hsuspended q _).1 rfl
      exact Or.inl ⟨h, f, hf, hthread, by rw [hleft, hq]⟩
    | writing hthrew q hq =>
      obtain ⟨h, f, hf, hthread, rfl, -⟩ := (hsuspended q _).1 rfl
      exact Or.inl ⟨h, f, hf, hthread, by rw [hleft, hq]⟩
    | ended hthrew => exact Or.inr ⟨hnone (by simp), by simp [hleft, hthrew]⟩
    | threw hthrew files => exact Or.inr ⟨hnone (by simp), by simp [hleft, hthrew]⟩
    | broken s => exact absurd rfl (hbroken hstatus)

theorem descriptors_of_run_twoConnections :
    ∃ w, run (step coroutine) new twoConnections = some w ∧ w.started = 2 ∧
      table (w.log.map Prod.snd) = some (∑ n ∈ Finset.range w.started, left w n) := by
  obtain ⟨w, hw, hstarted, hlength, hstatus, -⟩ := twoConnections_run
  exact ⟨w, hw, hstarted, (descriptors_of_run hw (by omega) (by simp [hstatus])).1⟩

end StaticWeb

end CoUringWeb
