import CoUringWeb.Framework.Delimiters
import CoUringWeb.Http.StaticWebServer

/-!
# What a client of the web server is sent

A reply is a message: a status line, header lines, an empty line and a body (`IsMessage`).  The
header lines of `static_web_http` have no carriage return of their own, so that whoever reads a
reply up to its first empty line finds the header block that was written, and behind it exactly the
bytes that `Content-Length` counts (`Framed`).  This holds however many bytes the read of the file
returns: the buffer is zero-filled and has room for `Content-Length` of them.

In every interleaving of the whole process each connection is sent at most one reply
(`replies_of_process`).  The run has a step that resumes the coroutine of this connection with what
was read from it, and the reply is made of what that step finds in its surroundings: the file that
`open` gives, the size that `getFileSizeByFd` makes of what `fstat` answers, and the bytes that
`read` returns.
-/

namespace CoUringWeb

open Machine Numerals Stores Transition Awaiting Interleaving Delimiters HashSwitch CoUringWeb.Path

/-! ## The header block as a message -/

namespace HttpResponse

/-- The text of a header, without its terminator. -/
def headerLine (header : Bytes × Bytes) : Bytes := header.1 ++ (ascii ": " ++ header.2)

/-- The status line, without its terminator. -/
def statusLine (response : HttpResponse) : Bytes :=
  ascii "HTTP/" ++ (response.version_.text ++ (ascii " " ++
    (decimalDigits response.statusCode_.value ++ (ascii " " ++
      getStatusText response.statusCode_))))

/-- The lines a client reads up to the empty line. -/
def headLines (response : HttpResponse) : List Bytes :=
  response.statusLine :: response.headers_.entries.map headerLine

theorem cr_notMem_getStatusText (code : HttpResponseStatusCodes) :
    ch '\r' ∉ getStatusText code := by
  cases code <;> decide

theorem cr_notMem_decimalDigits (n : ℕ) : ch '\r' ∉ decimalDigits n :=
  fun h => absurd (isDigit_of_mem_decimalDigits h) (by decide)

theorem cr_notMem_statusLine (response : HttpResponse) : ch '\r' ∉ response.statusLine := by
  have hversion : ch '\r' ∉ response.version_.text := by
    cases response.version_ <;> decide
  have hascii : ch '\r' ∉ ascii "HTTP/" ∧ ch '\r' ∉ ascii " " := by decide
  simp [statusLine, hascii, hversion, cr_notMem_decimalDigits, cr_notMem_getStatusText]

/-- A header block whose headers have no carriage return is the head of a message. -/
theorem rendering_isMessage {response : HttpResponse} (hbody : response.body_ = [])
    (hheaders : ∀ h ∈ response.headers_.entries, ch '\r' ∉ h.1 ∧ ch '\r' ∉ h.2)
    (content : Bytes) :
    IsMessage (ch '\r') (ch '\n') (rendering response ++ content) response.headLines content where
  eq := by
    have hlines : (response.headers_.entries.map headerLine).flatMap
        (fun l => l ++ [ch '\r', ch '\n']) = HttpRequest.headerBlock response.headers_.entries := by
      rw [List.flatMap_map, HttpRequest.headerBlock]
      refine List.flatMap_congr fun h _ => ?_
      simp [headerLine, ascii]
    rw [headLines, List.flatMap_cons, hlines, rendering, headTail, hbody, statusLine]
    simp [ascii]
  ne_nil := by
    intro l hl
    rcases List.mem_cons.1 hl with rfl | hl
    · simp [statusLine, ascii]
    · obtain ⟨h, -, rfl⟩ := List.mem_map.1 hl
      simp [headerLine, ascii]
  notMem := by
    intro l hl
    rcases List.mem_cons.1 hl with rfl | hl
    · exact cr_notMem_statusLine response
    · obtain ⟨h, hh, rfl⟩ := List.mem_map.1 hl
      have hcolon : ch '\r' ∉ ascii ": " := by decide
      simp [headerLine, hheaders h hh, hcolon]

end HttpResponse

open HttpResponse

/-! ## The headers of a file -/

theorem getContentType_eq_or (fileExt : Bytes) :
    getContentType fileExt = [] ∨ ∃ c ∈ contentTypes, getContentType fileExt = c.2 := by
  rw [getContentType_eq_selectHash]
  exact selectHash_eq_or

/-- The headers in their order; the content type is only there when the extension has one. -/
theorem fileResponse_entries (url : Bytes) (fileSize : ℤ) :
    ∃ types : List (Bytes × Bytes), types.length ≤ 1 ∧
      (∀ h ∈ types, h.1 = ascii "Content-Type" ∧ ∃ c ∈ contentTypes, h.2 = c.2) ∧
      (fileResponse url fileSize).headers_.entries =
        (ascii "Content-Length", intText fileSize) ::
          (types ++ [(ascii "server", ServerString)]) := by
  unfold fileResponse
  split
  · exact ⟨[], by simp, by simp, rfl⟩
  · rename_i ext hext
    dsimp only
    split
    · exact ⟨[], by simp, by simp, rfl⟩
    · rename_i hne
      refine ⟨[(ascii "Content-Type", getContentType ext)], by simp, ?_, rfl⟩
      simpa using (getContentType_eq_or ext).resolve_left hne

/-- The version, the status and the body are those of a new response. -/
theorem fileResponse_fields (url : Bytes) (fileSize : ℤ) :
    (fileResponse url fileSize).version_ = .V10 ∧
      getStatusText (fileResponse url fileSize).statusCode_ ≠ [] ∧
      (fileResponse url fileSize).body_ = [] := by
  obtain ⟨headers, hresponse⟩ := fileResponse_eq url fileSize
  have hstatus : getStatusText .C200 ≠ [] := by decide
  rw [hresponse]
  exact ⟨rfl, hstatus, rfl⟩

theorem contentTypes_text : ∀ c ∈ contentTypes, ch '\r' ∉ c.2 ∧ c.2.length ≤ 22 := by
  decide +kernel

theorem intText_natCast (n : ℕ) : intText n = decimalDigits n := if_neg (by omega)

/-- A reply with a file is a message: its head is the header block, its body the file. -/
theorem fileResponse_isMessage (url content : Bytes) :
    IsMessage (ch '\r') (ch '\n') (rendering (fileResponse url content.length) ++ content)
      (fileResponse url content.length).headLines content := by
  obtain ⟨types, -, htypes, hentries⟩ := fileResponse_entries url content.length
  apply rendering_isMessage (fileResponse_fields url content.length).2.2
  intro h hh
  rw [hentries, List.mem_cons, List.mem_append, List.mem_singleton, intText_natCast] at hh
  rcases hh with rfl | hh | rfl
  · have hname : ch '\r' ∉ ascii "Content-Length" := by decide
    exact ⟨hname, cr_notMem_decimalDigits _⟩
  · obtain ⟨hkey, c, hc, hvalue⟩ := htypes h hh
    rw [hkey, hvalue]
    exact ⟨by decide, (contentTypes_text c hc).1⟩
  · decide

/-- The only line that starts as `Content-Length` does says how long the body is. -/
theorem contentLength_mem_headLines_iff (url value : Bytes) (n : ℕ) :
    ascii "Content-Length: " ++ value ∈ (fileResponse url n).headLines ↔
      value = decimalDigits n := by
  obtain ⟨types, -, htypes, hentries⟩ := fileResponse_entries url n
  have hcut : ascii "Content-Length: " ++ value =
      headerLine (ascii "Content-Length", value) := rfl
  have hkey (key other : Bytes) (hkey : (ch ':') ∉ key) (hne : key ≠ ascii "Content-Length")
      (heq : headerLine (ascii "Content-Length", value) = headerLine (key, other)) : False := by
    have hcolon : ascii "Content-Length" ++ ch ':' :: (ch ' ' :: value) =
        key ++ ch ':' :: (ch ' ' :: other) := heq
    exact hne (append_cons_inj (by decide) hkey hcolon).1.symm
  rw [headLines, List.mem_cons, hentries, intText_natCast, hcut]
  constructor
  · rintro (heq | hmem)
    · exact absurd (List.cons.inj heq).1 (by decide)
    · obtain ⟨h, hh, heq⟩ := List.mem_map.1 hmem
      rw [List.mem_cons, List.mem_append, List.mem_singleton] at hh
      rcases hh with rfl | hh | rfl
      · exact (List.append_cancel_left (List.append_cancel_left heq)).symm
      · refine (hkey h.1 h.2 ?_ ?_ heq.symm).elim
        · rw [(htypes h hh).1]
          decide
        · rw [(htypes h hh).1]
          decide
      · exact (hkey _ _ (by decide) (by decide) heq.symm).elim
  · rintro rfl
    exact Or.inr (List.mem_cons_self)

theorem length_headerBlock_types {types : List (Bytes × Bytes)} (hone : types.length ≤ 1)
    (htypes : ∀ h ∈ types, h.1 = ascii "Content-Type" ∧ ∃ c ∈ contentTypes, h.2 = c.2) :
    (HttpRequest.headerBlock types).length ≤ 38 := by
  match types with
  | [] => exact Nat.zero_le _
  | [h] =>
    obtain ⟨hkey, c, hc, hvalue⟩ := htypes h List.mem_cons_self
    have hlength := (contentTypes_text c hc).2
    have hname : (ascii "Content-Type").length = 12 := by decide
    rw [length_headerBlock_singleton, hkey, hvalue, hname]
    omega
  | _ :: _ :: _ => simp at hone

/-- The header block of a file is short, whatever its size. -/
theorem length_rendering_fileResponse (url : Bytes) {n : ℕ} (h : n < 2 ^ 31) :
    (rendering (fileResponse url n)).length < 200 := by
  obtain ⟨hversion, hstatus, hbody⟩ := fileResponse_fields url n
  obtain ⟨types, hone, htypes, hentries⟩ := fileResponse_entries url n
  have hcode : (fileResponse url n).statusCode_ = .C200 := by
    obtain ⟨headers, hresponse⟩ := fileResponse_eq url n
    rw [hresponse]
  have htext : (getStatusText .C200).length = 2 := by decide
  have hdigits : (decimalDigits n).length ≤ 10 := length_decimalDigits_le (by omega)
  have hlength := length_headerBlock_singleton (ascii "Content-Length") (decimalDigits n)
  have hserver := length_headerBlock_singleton (ascii "server") ServerString
  have hname : (ascii "Content-Length").length = 14 := by decide
  have hserverName : (ascii "server").length = 6 ∧ ServerString.length = 18 := by decide
  have hblock := length_headerBlock_types hone htypes
  rw [length_rendering (by rw [hversion]; decide), length_headTail hstatus, hcode, htext, hbody,
    hentries, headerBlock_cons, headerBlock_append, intText_natCast, List.length_append,
    List.length_append, List.length_nil]
  omega

/-! ## What is sent -/

/-- A buffer with room for `k` bytes of the file is sent with the bytes that the read returned and
zeros behind them. -/
theorem sendFile_eq {env : Environment} {conn fd k : ℕ} {r : HttpResponse}
    (hversion : r.version_ = .V10) (hstatus : getStatusText r.statusCode_ ≠ [])
    (hbody : r.body_ = []) (hint : (rendering r).length + k < 2 ^ 31) :
    sendFile env conn fd ((rendering r).length + k) r (rendering r).length k =
      match env.read fd k with
      | none => .returned (.close fd :: notFound conn)
      | some data =>
        if k < data.length then .undefined
        else .returned [.close fd,
          .asyncWrite (rendering r ++ filled 0 data (k - data.length)) ((rendering r).length + k),
          .close conn] := by
  have hcount : ((k : ℤ) % 2 ^ 64).toNat = k := by omega
  have hbuffer : store (Memory.ofList (List.replicate ((rendering r).length + k) 0)) 0
      (rendering r) = Memory.ofList (filled 0 (rendering r) k) := by
    rw [List.replicate_add, store_ofList _ _ _ List.length_replicate.symm]
    rfl
  have hcells : Memory.toList 0 (Memory.ofList (filled 0 (rendering r) k))
      ((rendering r).length + k) = filled 0 (rendering r) k := by
    rw [← length_filled (0 : UInt8) (rendering r) k]
    exact Memory.toList_ofList 0 _
  have hsize : ofInt32 ((rendering r).length + k : ℤ) = (rendering r).length + k := by
    exact_mod_cast ofInt32_natCast (n := (rendering r).length + k) (by omega)
  have hroom : ¬ (((rendering r).length : ℤ) < 0 ∨
      (((rendering r).length + k : ℕ) : ℤ) < (rendering r).length) := by
    omega
  rw [sendFile, if_neg hroom, toRawDataWithoutBody_v10 hversion hstatus hbody (by omega), hbuffer]
  dsimp only
  rw [hcount]
  cases env.read fd k with
  | none => rfl
  | some data =>
    dsimp only
    by_cases hlong : k < data.length
    · rw [if_pos hlong, if_pos (by omega)]
    · have hcode : int32 data.length ≠ -1 := by
        rw [int32_of_lt (by omega)]
        omega
      rw [if_neg hlong, if_neg (by omega), if_neg hcode, hcells, Int.toNat_natCast,
        overwrite_filled 0 (rendering r) data (by omega), hsize, filled, List.append_assoc]
      rfl

/-- The surroundings of the coroutine with the allocator of C++: `new char[n]` throws for a size
that is no `ptrdiff_t`. -/
structure Host extends Environment where
  allocates_lt : ∀ n, allocates n = true → n < 2 ^ 63

/-- What may be sent for a request: the reply that nothing was found, or a file as the read of it
returned it, filled up with zeros to the size that was found for it. -/
inductive Reply (env : Environment) (url : Bytes) : Bytes → Prop where
  | notFound : Reply env url content404
  | file (fd size : ℕ) (data : Bytes)
      (hopen : env.openFile (cStr (append env.http_dir url)) = some fd)
      (hsize : getFileSizeByFd (env.fstat fd) = size) (hread : env.read fd size = some data)
      (hdata : data.length ≤ size) :
      Reply env url (rendering (fileResponse url size) ++ filled 0 data (size - data.length))

theorem getFileSizeByFd_lt (st_size : Option ℤ) : getFileSizeByFd st_size < 2 ^ 31 := by
  cases st_size with
  | none => decide
  | some st_size =>
    have hlt : Int.bmod st_size (2 ^ 32) < (2 ^ 32 + 1) / 2 := Int.bmod_lt (by norm_num)
    exact hlt

theorem fileResponse_headersSize (url : Bytes) {n : ℕ} (h : n < 2 ^ 31) :
    (fileResponse url n).getRawDataSizeWithoutBody = (rendering (fileResponse url n)).length := by
  have hlength := length_rendering_fileResponse url h
  obtain ⟨hversion, hstatus, hbody⟩ := fileResponse_fields url n
  refine getRawDataSizeWithoutBody_eq_length ?_ hstatus hbody (by omega)
  rw [hversion]
  decide

/-- `serveFile` sends a file behind a header block with its size, or that nothing was found. -/
theorem serveFile_eq_returned {host : Host} {conn fd : ℕ} {url : Bytes} {effects : List Effect}
    (h : serveFile host.toEnvironment conn fd url = .returned effects) :
    effects = .close fd :: notFound conn ∨
      ∃ (size : ℕ) (data : Bytes), getFileSizeByFd (host.fstat fd) = size ∧
        host.read fd size = some data ∧ data.length ≤ size ∧
        effects = [.close fd,
          .asyncWrite (rendering (fileResponse url size) ++ filled 0 data (size - data.length))
            ((rendering (fileResponse url size)).length + size), .close conn] := by
  unfold serveFile at h
  dsimp only at h
  split at h
  · exact Or.inl (Outcome.returned.inj h).symm
  · split at h
    · cases h
    · rename_i hint
      split at h
      · rename_i hallocates
        have hn := host.allocates_lt _ hallocates
        have hlt := getFileSizeByFd_lt (host.fstat fd)
        generalize hsize : getFileSizeByFd (host.fstat fd) = fileSize at *
        by_cases hneg : fileSize < 0
        · -- the buffer is too small for the header block
          rw [sendFile, if_pos (by omega)] at h
          cases h
        · obtain ⟨size, rfl⟩ := Int.eq_ofNat_of_zero_le (not_lt.1 hneg)
          have hheaders := fileResponse_headersSize url (n := size) (by omega)
          obtain ⟨hversion, hstatus, hbody⟩ := fileResponse_fields url size
          have hcount : (((rendering (fileResponse url size)).length + size : ℤ) % 2 ^ 64).toNat =
              (rendering (fileResponse url size)).length + size := by omega
          rw [hheaders, hcount, sendFile_eq hversion hstatus hbody (by omega)] at h
          cases hread : host.read fd size with
          | none =>
            rw [hread] at h
            exact Or.inl (Outcome.returned.inj h).symm
          | some data =>
            rw [hread] at h
            dsimp only at h
            split at h
            · cases h
            · rename_i hdata
              exact Or.inr ⟨size, data, rfl, hread, not_lt.1 hdata, (Outcome.returned.inj h).symm⟩
      · cases h

theorem Reply.length {env : Environment} {url data : Bytes} (h : Reply env url data) :
    data.length ≠ 0 := by
  cases h with
  | notFound => decide +kernel
  | file => simp [rendering, ascii]

/-- The coroutine closes its connection without a reply, or with one as its only write. -/
theorem static_web_http_eq_returned {host : Host} {conn : ℕ} {retCode : ℤ} {reqBuff : Bytes}
    {effects : List Effect}
    (h : static_web_http host.toEnvironment conn retCode reqBuff = .returned effects) :
    effects = [.close conn] ∨
      ∃ (httpRequest : HttpRequest) (data : Bytes) (file : Option ℕ), 0 < retCode ∧
        HttpRequest.fromRawData (reqBuff.take retCode.toNat) = some httpRequest ∧
        Reply host.toEnvironment httpRequest.getUrl data ∧
        effects = file.toList.map .close ++ [.asyncWrite data data.length, .close conn] := by
  by_cases hretCode : retCode ≤ 0
  · rw [static_web_http, if_pos hretCode] at h
    exact Or.inl (Outcome.returned.inj h).symm
  · rw [static_web_http, if_neg hretCode] at h
    cases hrequest : HttpRequest.fromRawData (reqBuff.take retCode.toNat) with
    | none =>
      rw [hrequest] at h
      exact Or.inl (Outcome.returned.inj h).symm
    | some httpRequest =>
      rw [hrequest] at h
      dsimp only at h
      cases hopen : host.openFile (cStr (append host.http_dir httpRequest.getUrl)) with
      | none =>
        rw [hopen] at h
        exact Or.inr ⟨httpRequest, content404, none, not_le.1 hretCode, rfl, .notFound,
          (Outcome.returned.inj h).symm⟩
      | some fd =>
        rw [hopen] at h
        rcases serveFile_eq_returned h with rfl | ⟨size, data, hsize, hread, hdata, rfl⟩
        · exact Or.inr ⟨httpRequest, content404, some fd, not_le.1 hretCode, rfl, .notFound, rfl⟩
        · refine Or.inr ⟨httpRequest, _, some fd, not_le.1 hretCode, rfl,
            .file fd size data hopen hsize hread hdata, ?_⟩
          have hlength : (rendering (fileResponse httpRequest.getUrl size) ++
              filled 0 data (size - data.length)).length =
                (rendering (fileResponse httpRequest.getUrl size)).length + size := by
            rw [List.length_append, length_filled]
            omega
          rw [hlength]
          rfl

/-! ## What a client reads -/

/-- Whoever reads `data` up to its first empty line finds a head, and behind it a body that is as
long as the head says, if it says so. -/
structure Framed (data : Bytes) : Prop where
  message : ∃ head body, IsMessage (ch '\r') (ch '\n') data head body
  contentLength : ∀ head body, IsMessage (ch '\r') (ch '\n') data head body →
    ∀ value, ascii "Content-Length: " ++ value ∈ head → value = decimalDigits body.length

theorem framed_of_isMessage {data body : Bytes} {head : List Bytes}
    (h : IsMessage (ch '\r') (ch '\n') data head body)
    (hlength : ∀ value, ascii "Content-Length: " ++ value ∈ head →
      value = decimalDigits body.length) : Framed data where
  message := ⟨head, body, h⟩
  contentLength head' body' h' := by
    obtain ⟨rfl, rfl⟩ := h.unique h'
    exact hlength

/-- The reply that nothing was found says nothing about its length: the end of the connection is
the end of its body. -/
theorem content404_isMessage : ∃ body, IsMessage (ch '\r') (ch '\n') content404
    [ascii "HTTP/1.0 404 Not Found", ascii "Content-type: text/html"] body :=
  ⟨content404.drop 51, by decide +kernel, by decide, by decide⟩

theorem Reply.framed {env : Environment} {url data : Bytes} (h : Reply env url data) :
    Framed data := by
  cases h with
  | notFound =>
    obtain ⟨body, hmessage⟩ := content404_isMessage
    refine framed_of_isMessage hmessage fun value hmem => ?_
    have hne : ∀ l ∈ [ascii "HTTP/1.0 404 Not Found", ascii "Content-type: text/html"],
        l.take 9 ≠ ascii "Content-L" := by decide
    refine absurd ?_ (hne _ hmem)
    rfl
  | file fd size data hopen hsize hread hdata =>
    have hlength : (filled 0 data (size - data.length)).length = size := by
      rw [length_filled]
      omega
    have hmessage := fileResponse_isMessage url (filled 0 data (size - data.length))
    rw [hlength] at hmessage
    refine framed_of_isMessage hmessage fun value hmem => ?_
    rw [hlength]
    exact (contentLength_mem_headLines_iff url value size).1 hmem

namespace StaticWeb

/-! ## What one coroutine writes -/

/-- The coroutine in surroundings that keep to the contract of the allocator. -/
def hosted : Coroutine ℕ Host FdEffect State where
  start conn host := coroutine.start conn host.toEnvironment
  resume s host req := coroutine.resume s host.toEnvironment req

/-- The request of an `asyncWrite`. -/
def written : TraceEvent FdEffect Await IoRequest → Option IoRequest
  | .asked q => if q.op = .OP_WRITE then some q.req else none
  | .did _ | .got _ => none

/-- Where a coroutine is, and what it has written: nothing until it gets its request, which is the
first thing it gets, and at most one request after that. -/
inductive Conversed (conn : ℕ) (events : List (TraceEvent FdEffect Await IoRequest)) :
    Next Await State → Prop where
  | reading (q : Await) (hq : q.op = .OP_READ ∧ q.req.fd = conn) (hgot : ∀ r, .got r ∉ events)
      (hwritten : events.filterMap written = []) :
      Conversed conn events (.awaits q (.reading conn))
  | writing (q : Await) (hone : (events.filterMap written).length = 1) :
      Conversed conn events (.awaits q (.writing conn [.close conn]))
  | stopped (hone : (events.filterMap written).length ≤ 1) {next : Next Await State}
      (hnext : ∀ q st, next ≠ .awaits q st) : Conversed conn events next

/-- What the piece after the read of `r` comes to: it ends without a write, or it asks for a reply
to be written. -/
inductive Replies (host : Host) (conn : ℕ) (r : IoRequest) (ran : Ran FdEffect Await State) :
    Prop where
  | silent (hwritten : (.got r :: ran.events).filterMap written = [])
      (hnext : ∀ q st, ran.next ≠ .awaits q st)
  | replies (httpRequest : HttpRequest) (data : Bytes) (hretCode : 0 < r.retCode)
      (hrequest : HttpRequest.fromRawData (r.data.take r.retCode.toNat) = some httpRequest)
      (hreply : Reply host.toEnvironment httpRequest.getUrl data)
      (hwritten : (.got r :: ran.events).filterMap written = [writeRequest conn data data.length])
      (hnext : ran.next = .awaits ⟨.OP_WRITE, writeRequest conn data data.length⟩
        (.writing conn [.close conn]))

theorem filterMap_written_did (effects : List FdEffect) :
    ((effects.map .did : List (TraceEvent FdEffect Await IoRequest))).filterMap written = [] := by
  rw [List.filterMap_map, List.filterMap_eq_nil_iff]
  exact fun _ _ => rfl

theorem filterMap_written_got (r : IoRequest) (effects : List FdEffect) (next : Next Await State) :
    (.got r :: (Ran.mk effects next).events).filterMap written = next.asked.filterMap written := by
  rw [List.filterMap_cons]
  simp only [written, Ran.events, List.filterMap_append, filterMap_written_did, List.nil_append]

theorem filterMap_written_start (conn : ℕ) (host : Host) :
    (hosted.start conn host).events.filterMap written = [] := by
  simp only [hosted, coroutine]
  split <;> rfl

/-- A piece that ends writes nothing. -/
theorem replies_of_ended {host : Host} {conn : ℕ} {r : IoRequest} (effects : List FdEffect)
    {next : Next Await State} (hnext : ∀ q st, next ≠ .awaits q st) :
    Replies host conn r ⟨effects, next⟩ := by
  have hasked : (next.asked : List (TraceEvent FdEffect Await IoRequest)) = [] := by
    cases next with
    | awaits q st => exact absurd rfl (hnext q st)
    | ended | broken => rfl
  refine .silent ?_ hnext
  rw [filterMap_written_got, hasked, List.filterMap_nil]

theorem piece_closes (conn : ℕ) (fds : List ℕ) (rest : List Effect) :
    piece conn (fds.map .close ++ rest) =
      { effects := fds.map .closed ++ (piece conn rest).effects
        next := (piece conn rest).next } := by
  induction fds with
  | nil => rfl
  | cons fd fds ih => rw [List.map_cons, List.cons_append, piece_close, ih]; rfl

theorem replies_of_answer (host : Host) (conn : ℕ) (r : IoRequest) :
    Replies host conn r (answer host.toEnvironment conn r.retCode r.data) := by
  unfold answer
  cases hrun : static_web_http host.toEnvironment conn r.retCode r.data with
  | threw effects => exact replies_of_ended _ (by simp)
  | undefined => exact replies_of_ended _ (by simp)
  | returned effects =>
    rcases static_web_http_eq_returned hrun with
      rfl | ⟨httpRequest, data, file, hretCode, hrequest, hreply, rfl⟩
    · exact replies_of_ended _ (by simp [piece])
    · have hnext : asyncWrite (writeRequest conn data data.length)
          (State.writing conn [.close conn]) =
            .awaits ⟨.OP_WRITE, writeRequest conn data data.length⟩
              (.writing conn [.close conn]) :=
        if_neg hreply.length
      dsimp only
      rw [piece_closes, piece_asyncWrite, hnext]
      refine .replies httpRequest data hretCode hrequest hreply ?_ rfl
      rw [filterMap_written_got]
      rfl

/-- One coroutine writes at most once, and not before it has got what it reads first. -/
theorem conversed_of_alone {conn : ℕ} {events : List (TraceEvent FdEffect Await IoRequest)}
    {next : Next Await State} (h : Alone hosted Await.Answers conn events next) :
    Conversed conn events next := by
  induction h with
  | start host =>
    simp only [hosted, coroutine]
    split
    · refine .reading ⟨.OP_READ, readRequest conn⟩ ⟨rfl, rfl⟩ ?_ rfl
      simp [Ran.events, asyncRead, Next.asked]
    · refine .stopped ?_ (by simp)
      exact Nat.zero_le 1
  | resume h host r hr ih =>
    cases ih with
    | reading q hq hgot hwritten =>
      cases replies_of_answer host conn r with
      | silent hsilent hnext =>
        refine .stopped ?_ hnext
        rw [List.filterMap_append, hwritten, List.nil_append]
        exact (congrArg List.length hsilent).trans_le (Nat.zero_le 1)
      | replies httpRequest data hretCode hrequest hreply hone hnext =>
        change Conversed conn _ (answer host.toEnvironment conn r.retCode r.data).next
        rw [hnext]
        refine .writing _ ?_
        rw [List.filterMap_append, hwritten, List.nil_append]
        exact congrArg List.length hone
    | writing q hone =>
      refine .stopped (le_of_eq ?_) (by simp [hosted, coroutine, piece])
      rw [List.filterMap_append, List.length_append, hone]
      rfl
    | stopped hone hnext => exact absurd rfl (hnext _ _)

/-! ## Runs of the process -/

open ServerProcess

/-- The write that an event of the process asks for. -/
def sent : ServerEvent ℕ FdEffect → Option IoRequest
  | .ran e => written e
  | .accepted _ => none

/-- The requests that were written to the connection with the number `k`. -/
def writes (s : ServerProcess ℕ FdEffect State) (k : ℕ) : List IoRequest :=
  (part k s.log).filterMap sent

theorem filterMap_sent_ran (events : List (TraceEvent FdEffect Await IoRequest)) :
    (events.map .ran).filterMap sent = events.filterMap written := by
  rw [List.filterMap_map]
  rfl

variable {c thread_count : ℕ} {s u v : ServerProcess ℕ FdEffect State} {k : ℕ}

/-- The events of one connection leave the writes to the others alone. -/
theorem writes_of_log {n : ℕ} {events : List (ServerEvent ℕ FdEffect)}
    (hlog : v.log = u.log ++ tagged n events) :
    writes v k = writes u k ++ if n = k then events.filterMap sent else [] := by
  rw [writes, hlog, part_append, List.filterMap_append]
  split
  · rename_i heq
    rw [heq, part_tagged_self]
    rfl
  · rename_i hne
    rw [part_tagged_of_ne hne]
    rfl

theorem writes_grow (h : u.log <+: v.log) : writes u k <+: writes v k := by
  obtain ⟨rest, hrest⟩ := h
  rw [writes, writes, ← hrest, part_append, List.filterMap_append]
  exact List.prefix_append _ _

theorem length_writes_le (h : Inv c thread_count hosted s) {conn : ℕ}
    (hk : s.server.accepted[k]? = some conn) : (writes s k).length ≤ 1 := by
  cases h.served hk with
  | waits hwaits hnone hpart =>
    rw [writes, hpart]
    exact Nat.zero_le 1
  | started i n events next hi hstarted hunique hpart halone hsuspended hbroken =>
    have hwrites : writes s k = events.filterMap written := by
      rw [writes, hpart, List.filterMap_cons, filterMap_sent_ran]
      rfl
    rw [hwrites]
    cases conversed_of_alone halone with
    | reading q hq hgot hwritten =>
      rw [hwritten]
      exact Nat.zero_le 1
    | writing q hone => exact hone.le
    | stopped hone hnext => exact hone

/-- A suspended coroutine is in the middle of its conversation. -/
theorem conversed_of_frame (hu : Inv c thread_count hosted u) {i : ℕ} {h : Handle}
    {f : Frame State} {x : Accepted ℕ} (hx : (u.server.started i)[f.thread]? = some x)
    (hf : (u.loops i).frames h = some f) :
    ∃ events, part x.number u.log = .accepted x.conn :: events.map .ran ∧
      Conversed x.conn events (.awaits f.call f.state) := by
  have hmem := List.mem_of_getElem? hx
  cases hu.served (started_lt hu.server hmem).2 with
  | waits hwaits hnone hpart => exact absurd rfl (hnone i x hmem)
  | started j n events next hj hstarted hunique hpart halone hsuspended hbroken =>
    obtain ⟨rfl, rfl⟩ := hunique i _ x hx rfl
    obtain rfl := (hsuspended f.call f.state).2 ⟨h, f, hf, rfl, rfl, rfl⟩
    exact ⟨events, hpart, conversed_of_alone halone⟩

/-- From `u` to `v` the coroutine of the connection `k` runs on in the surroundings `host`: it gets
`r`, the first thing that was read from its connection, and its only write is the reply `data`. -/
structure RepliesTo (host : Host) (k conn : ℕ) (u v : ServerProcess ℕ FdEffect State)
    (r : IoRequest) (httpRequest : HttpRequest) (data : Bytes) : Prop where
  first : ∀ r', .ran (.got r') ∉ part k u.log
  got : .ran (.got r) ∈ part k v.log
  read : r.op = .OP_READ ∧ r.fd = conn
  retCode : 0 < r.retCode
  request : HttpRequest.fromRawData (r.data.take r.retCode.toNat) = some httpRequest
  reply : Reply host.toEnvironment httpRequest.getUrl data
  unwritten : writes u k = []
  written : writes v k = [writeRequest conn data data.length]

/-- The step that writes to a connection first is the one that resumes its coroutine with what was
read, and the surroundings of this step make the reply. -/
theorem repliesTo_of_step (hu : Inv c thread_count hosted u) {a : ProcessAction ℕ Host}
    (hstep : u.step thread_count hosted a = some v) (hbefore : writes u k = [])
    (hafter : writes v k ≠ []) :
    ∃ i host now conn r httpRequest data, a = .loop i (.resume host now) ∧
      u.server.accepted[k]? = some conn ∧ RepliesTo host k conn u v r httpRequest data := by
  cases hu.causes hstep with
  | nothing a hlog =>
    rw [writes, hlog] at hafter
    exact absurd hbefore hafter
  | accept conn hlog =>
    rw [writes_of_log hlog, hbefore] at hafter
    exact absurd (ite_self _) hafter
  | start i host h now n conn hlog =>
    rw [writes_of_log hlog, hbefore, filterMap_sent_ran, filterMap_written_start] at hafter
    exact absurd (ite_self _) hafter
  | resume i host now h f x hf hx hanswers hlog =>
    have hwrites := writes_of_log (k := k) hlog
    rw [hbefore, List.nil_append, filterMap_sent_ran] at hwrites
    by_cases hne : x.number = k
    · rw [if_pos hne] at hwrites
      have hconn : u.server.accepted[k]? = some x.conn :=
        hne ▸ (started_lt hu.server (List.mem_of_getElem? hx)).2
      refine ⟨i, host, now, x.conn, f.req, ?_⟩
      obtain ⟨events, hpart, hconversed⟩ := conversed_of_frame hu hx hf
      rw [hne] at hpart
      have hnothing : events.filterMap written = [] := by
        rw [← filterMap_sent_ran, ← hbefore, writes, hpart]
        rfl
      obtain ⟨req, state, call, thread, id⟩ := f
      cases hconversed with
      | reading q hq hgot hwritten =>
        cases replies_of_answer host x.conn req with
        | silent hsilent hnext => exact absurd (hwrites.trans hsilent) hafter
        | replies httpRequest data hretCode hrequest hreply hone hnext =>
          refine ⟨httpRequest, data, rfl, hconn, ?_, ?_, ?_, hretCode, hrequest, hreply,
            hbefore, hwrites.trans hone⟩
          · simpa [hpart] using hgot
          · rw [hlog, hne, part_append, part_tagged_self]
            simp
          · exact ⟨hanswers.request.1.trans hq.1, hanswers.request.2.trans hq.2⟩
      | writing q hone => simp [hnothing] at hone
      | stopped hone hnext => exact absurd rfl (hnext _ _)
    · rw [if_neg hne] at hwrites
      exact absurd hwrites hafter

/-- In every interleaving of the acceptor, the workers and the kernel, with fewer than `2 ^ 32`
connections and `2 ^ 64` requests in each worker, each accepted connection is sent at most one
reply.  It is written in the step that resumes the coroutine of the connection with what was read
first from it; it answers that request with what the surroundings of this step are; its request has
the length of the reply as its size; and a client finds behind the header block exactly the bytes
that `Content-Length` counts. -/
theorem replies_of_process (hc : 1 ≤ c) (hpos : 1 ≤ thread_count) (mem : ℕ → ℕ → Accepted ℕ)
    {as : List (ProcessAction ℕ Host)}
    (hrun : run (step thread_count hosted) (init c mem) as = some s)
    (hbounded : s.Bounded thread_count) {k conn : ℕ} (hk : s.server.accepted[k]? = some conn) :
    writes s k = [] ∨
      ∃ before after i host now u v r httpRequest data,
        as = before ++ .loop i (.resume host now) :: after ∧
        run (step thread_count hosted) (init c mem) before = some u ∧
        u.step thread_count hosted (.loop i (.resume host now)) = some v ∧
        RepliesTo host k conn u v r httpRequest data ∧ Framed data ∧
        writes s k = [writeRequest conn data data.length] := by
  by_cases hempty : writes s k = []
  · exact Or.inl hempty
  · right
    obtain ⟨before, a, after, u, v, rfl, hu, hnone, hstep, hsome, hafter⟩ :=
      exists_step_of_run (P := fun u => writes u k ≠ []) (fun h => h rfl) hrun hempty
    have hboundedv := bounded_of_run hafter hbounded
    have hinv : Inv c thread_count hosted u :=
      inv_run hc hpos mem hu (bounded_of_effect (effect_of_step hstep) hboundedv)
    obtain ⟨i, host, now, conn', r, httpRequest, data, rfl, hconn, hreplies⟩ :=
      repliesTo_of_step hinv hstep (not_not.1 hnone) hsome
    obtain ⟨-, haccepted⟩ := grows_of_effect (effect_of_step hstep)
    obtain ⟨hlog, haccepted'⟩ := grows_of_run hafter
    -- the connection keeps its number, and no second write follows
    obtain rfl : conn' = conn := by
      obtain ⟨rest, hrest⟩ := haccepted.trans haccepted'
      have hlt := (List.getElem?_eq_some_iff.1 hconn).1
      rw [← hrest, List.getElem?_append_left hlt, hconn] at hk
      exact Option.some.inj hk
    have hwrites : writes v k = writes s k :=
      (writes_grow hlog).eq_of_length_le (by
        rw [hreplies.written]
        exact length_writes_le (inv_run hc hpos mem hrun hbounded) hk)
    exact ⟨before, after, i, host, now, u, v, r, httpRequest, data, rfl, hu, hstep, hreplies,
      hreplies.reply.framed, hwrites ▸ hreplies.written⟩

/-- The file of two bytes, with an allocator that gives a megabyte. -/
def smallHost : Host where
  toEnvironment := { smallFile with allocates := fun n => decide (n ≤ 2 ^ 20) }
  allocates_lt := by
    intro n hn
    have hle : n ≤ 2 ^ 20 := of_decide_eq_true hn
    omega

/-- One worker is given one connection, which asks for the file. -/
def oneReply : List (ProcessAction ℕ Host) :=
  [.accept (some 9), .push, .push, .push, .push, .loop 0 .clear] ++
    List.replicate 6 (.pop 0 smallHost 100 0) ++
    [.loop 0 (.complete 0 23 (ascii "GET /a.css HTTP/1.1\r\n\r\n")), .loop 0 .reap,
      .loop 0 (.popExpired 0), .loop 0 .polled, .loop 0 (.resume smallHost 0), .loop 0 .resumed]

theorem replies_of_process_oneReply :
    ∃ s, run (step 1 hosted) (init 3 fun _ _ => ⟨0, 0⟩) oneReply = some s ∧
      ∃ data, Framed data ∧ writes s 0 = [writeRequest 9 data data.length] := by
  have hrun : (run (step 1 hosted) (init 3 fun _ _ => ⟨0, 0⟩) oneReply).map
      (fun s : ServerProcess ℕ FdEffect State => decide (s.Bounded 1 ∧
        s.server.accepted = [9] ∧ writes s 0 ≠ [])) = some true := by
    decide +kernel
  obtain ⟨s, hs, heq⟩ := Option.map_eq_some_iff.1 hrun
  obtain ⟨hbounded, haccepted, hne⟩ := of_decide_eq_true heq
  refine ⟨s, hs, ?_⟩
  obtain ⟨-, -, -, -, -, -, -, -, -, data, -, -, -, -, hframed, hwrites⟩ :=
    (replies_of_process (by norm_num) (by norm_num) _ hs hbounded
      (k := 0) (by rw [haccepted]; rfl)).resolve_left hne
  exact ⟨data, hframed, hwrites⟩

end StaticWeb

end CoUringWeb
