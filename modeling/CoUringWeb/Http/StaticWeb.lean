import CoUringWeb.Http.ContentType
import CoUringWeb.Http.Rendering
import CoUringWeb.Http.StaticPath

/-!
# `static_web_http`

The coroutine of `include/http.h` that answers one connection with a file.  What the kernel and the
allocator do is a parameter (`Environment`), and so is how the read of the request ended.  The
result is what the coroutine does to its descriptors, in order.

The size of the file goes through `int`: `getFileSizeByFd` truncates the 64-bit `st_size` and gives
`-1` when `fstat` fails, the size of the buffer is an `int` sum, and so is the size of the reply.
`served_whole_iff` says that a file is served whole exactly when that sum does not overflow.
-/

namespace CoUringWeb

open Machine Numerals Stores CoUringWeb.Path

/-- What the configuration says and what the calls of the coroutine give. -/
structure Environment where
  http_dir : Bytes
  /-- `open` for reading; `none` is `-1` -/
  openFile : Bytes → Option ℕ
  /-- `st_size` of `fstat`; `none` when it fails -/
  fstat : ℕ → Option ℤ
  /-- `read` of so many bytes; `none` is `-1` -/
  read : ℕ → ℕ → Option Bytes
  /-- `new char[n]` returns -/
  allocates : ℕ → Bool

/-- What the coroutine does to a descriptor. -/
inductive Effect where
  /-- `asyncWrite` on the connection, with `data` and `size` of the request -/
  | asyncWrite (data : Bytes) (size : ℕ)
  | close (fd : ℕ)
  deriving DecidableEq, Repr

inductive Outcome where
  | returned (effects : List Effect)
  /-- an exception ends the coroutine -/
  | threw (effects : List Effect)
  | undefined
  deriving DecidableEq, Repr

def ServerString : Bytes := ascii "co_uring_httpd/0.1"

/-- `content404`, a `char` array with its terminator -/
def content404 : Bytes :=
  ascii "HTTP/1.0 404 Not Found\r\n" ++ ascii "Content-type: text/html\r\n" ++ ascii "\r\n" ++
    ascii "<html>" ++ ascii "<head>" ++ ascii "<title>co_uring_httpd: Not Found</title>" ++
    ascii "</head>" ++ ascii "<body>" ++ ascii "<h1>Not Found (404)</h1>" ++
    ascii "<p>Your client is asking for an object that was not found on this server.</p>" ++
    ascii "</body>" ++ ascii "</html>" ++ [0]

/-- `std::to_string` of an `int` -/
def intText (n : ℤ) : Bytes :=
  if n < 0 then ch '-' :: decimalDigits n.natAbs else decimalDigits n.natAbs

/-- `getFileSizeByFd`, from what `fstat` gives -/
def getFileSizeByFd (st_size : Option ℤ) : ℤ :=
  match st_size with
  | none => -1
  | some st_size => int32 st_size

/-- `url.substr(url.find_last_of('.') + 1)`, when there is a dot -/
def fileExtname (url : Bytes) : Option Bytes :=
  if ch '.' ∈ url then some (url.reverse.takeWhile fun c => c ≠ ch '.').reverse else none

/-- The response for a file; it has no body, the file is read behind its header block. -/
def fileResponse (url : Bytes) (fileSize : ℤ) : HttpResponse :=
  let response : HttpResponse := {}
  let response :=
    match fileExtname url with
    | none => response
    | some ext =>
      if getContentType ext = [] then response
      else response.setHeader (ascii "Content-Type") (getContentType ext)
  let response := response.setHeader (ascii "server") ServerString
  response.setHeader (ascii "Content-Length") (intText fileSize)

/-- The reply when there is no file to send. -/
def notFound (conn : ℕ) : List Effect :=
  [.asyncWrite content404 content404.length, .close conn]

/-- The rest of `static_web_http` with a buffer of `n` bytes, `headersSize` of them for the header
block and `fileSize` for the file. -/
def sendFile (env : Environment) (conn fd n : ℕ) (response : HttpResponse)
    (headersSize fileSize : ℤ) : Outcome :=
  -- the stores of `toRawDataWithoutBody` end at `headersSize`
  if headersSize < 0 ∨ (n : ℤ) < headersSize then .undefined
  else
    match response.toRawDataWithoutBody (Memory.ofList (List.replicate n 0)) with
    | none => .undefined
    | some buffer =>
      match env.read fd (fileSize % 2 ^ 64).toNat with
      | none => .returned (.close fd :: notFound conn)
      | some data =>
        if (n : ℤ) < headersSize + data.length then .undefined
        else if int32 data.length = -1 then .returned (.close fd :: notFound conn)
        else
          let res := overwrite (buffer.toList 0 n) headersSize.toNat data
          .returned [.close fd, .asyncWrite res (ofInt32 (headersSize + fileSize)), .close conn]

/-- `static_web_http` once the file is open at `fd`. -/
def serveFile (env : Environment) (conn fd : ℕ) (url : Bytes) : Outcome :=
  let fileSize := getFileSizeByFd (env.fstat fd)
  if fileSize = -1 then .returned (.close fd :: notFound conn)
  else
    let response := fileResponse url fileSize
    let headersSize := response.getRawDataSizeWithoutBody
    let bufferSize := headersSize + fileSize
    -- an `int` sum that overflows is undefined
    if bufferSize < -2 ^ 31 ∨ 2 ^ 31 ≤ bufferSize then .undefined
    else
      let n := (bufferSize % 2 ^ 64).toNat
      if env.allocates n then sendFile env conn fd n response headersSize fileSize
      else .threw []

/-- `static_web_http`, from the result of the first `asyncRead` on. -/
def static_web_http (env : Environment) (conn : ℕ) (retCode : ℤ) (reqBuff : Bytes) : Outcome :=
  if retCode ≤ 0 then .returned [.close conn]
  else
    match HttpRequest.fromRawData (reqBuff.take retCode.toNat) with
    | none => .returned [.close conn]
    | some httpRequest =>
      let url := httpRequest.getUrl
      match env.openFile (cStr (append env.http_dir url)) with
      | none => .returned (notFound conn)
      | some fd => serveFile env conn fd url

/-! ## The response for a file -/

/-- Only the headers of the response are set. -/
theorem fileResponse_eq (url : Bytes) (fileSize : ℤ) :
    ∃ headers, fileResponse url fileSize = { headers_ := headers } := by
  unfold fileResponse
  dsimp only
  split
  · exact ⟨_, rfl⟩
  · split <;> exact ⟨_, rfl⟩

theorem fileResponse_contentLength (url : Bytes) (n : ℕ) :
    (fileResponse url n).headers_.find (ascii "Content-Length") = some (decimalDigits n) := by
  have htext : intText n = decimalDigits n := if_neg (by omega)
  rw [fileResponse, HttpResponse.setHeader, SortedMap.find_insertOrAssign, if_pos rfl, htext]

namespace HttpResponse

variable {r : HttpResponse}

/-- For the version 1.0 the header block is one store. -/
theorem toRawDataWithoutBody_v10 (hversion : r.version_ = .V10)
    (hstatus : getStatusText r.statusCode_ ≠ []) (hbody : r.body_ = [])
    (hlen : (rendering r).length < 2 ^ 31) (buffer : Memory UInt8) :
    r.toRawDataWithoutBody buffer = some (store buffer 0 (rendering r)) := by
  have hne : r.version_ ≠ .VERSION_NOTHING := by
    rw [hversion]
    decide
  have hstart : startCells r.version_ buffer = store buffer 0 (ascii "HTTP/1.0") := by
    rw [hversion]
    rfl
  have htext : ascii "HTTP/1.0" ++ headTail r = rendering r := by
    rw [rendering, hversion, hbody, List.append_nil]
    rfl
  rw [toRawDataWithoutBody, writeWithoutBody_eq hne hstatus hlen, hstart, ← htext,
    ← store_store buffer 0 (ascii "HTTP/1.0")]
  rfl

/-- The size function gives the length of the header block. -/
theorem getRawDataSizeWithoutBody_eq_length (hversion : r.version_ ≠ .VERSION_NOTHING)
    (hstatus : getStatusText r.statusCode_ ≠ []) (hbody : r.body_ = [])
    (hlen : (rendering r).length < 2 ^ 31) :
    r.getRawDataSizeWithoutBody = (rendering r).length := by
  rw [getRawDataSizeWithoutBody_eq hversion hstatus hlen, length_rendering hversion, hbody]
  rfl

end HttpResponse

/-! ## Serving a file -/

open HttpResponse

/-- A file is served whole: the header block with its size, and all of its bytes behind it. -/
def ServedWhole (conn fd : ℕ) (url content : Bytes) (outcome : Outcome) : Prop :=
  let response := fileResponse url content.length
  response.headers_.find (ascii "Content-Length") = some (decimalDigits content.length) ∧
    outcome = .returned [.close fd,
      .asyncWrite (rendering response ++ content) ((rendering response).length + content.length),
      .close conn]

theorem length_content404_lt : content404.length < 2 ^ 31 := by
  decide +kernel

/-- A reply of the file has the length of its buffer; the other replies are `content404`. -/
theorem sendFile_eq_returned {env : Environment} {conn fd n : ℕ} {response : HttpResponse}
    {headersSize fileSize : ℤ} {effects : List Effect}
    (h : sendFile env conn fd n response headersSize fileSize = .returned effects) :
    effects = .close fd :: notFound conn ∨
      ∃ res : Bytes, res.length = n ∧
        effects = [.close fd, .asyncWrite res (ofInt32 (headersSize + fileSize)), .close conn] := by
  unfold sendFile at h
  split at h
  · cases h
  · split at h
    · cases h
    · rename_i buffer _
      split at h
      · cases h
        exact Or.inl rfl
      · rename_i data _
        split at h
        · cases h
        · split at h
          · cases h
            exact Or.inl rfl
          · cases h
            refine Or.inr ⟨_, ?_, rfl⟩
            rw [length_overwrite (by rw [Memory.length_toList]; omega), Memory.length_toList]

/-- The size of a reply whose buffer has that size is an `int`. -/
theorem lt_of_serveFile {env : Environment} {conn fd size : ℕ} {url data : Bytes}
    (h : serveFile env conn fd url =
      .returned [.close fd, .asyncWrite data size, .close conn])
    (hsize : data.length = size) : size < 2 ^ 31 := by
  have hnotFound (heq : Effect.close fd :: notFound conn =
      [.close fd, .asyncWrite data size, .close conn]) : size < 2 ^ 31 := by
    obtain ⟨rfl, rfl⟩ : content404 = data ∧ content404.length = size := by
      simpa [notFound] using heq
    exact length_content404_lt
  unfold serveFile at h
  dsimp only at h
  split at h
  · exact hnotFound (Outcome.returned.inj h)
  · split at h
    · cases h
    · rename_i hint
      split at h
      · rcases sendFile_eq_returned h with heq | ⟨res, hres, heq⟩
        · exact hnotFound heq.symm
        · obtain ⟨rfl, rfl⟩ : data = res ∧ size = ofInt32 _ := by
            simpa using heq
          unfold ofInt32 at hsize ⊢
          omega
      · cases h

/-- A buffer with room for the file gets the header block and the file behind it. -/
theorem sendFile_whole {env : Environment} {conn fd : ℕ} {r : HttpResponse} {content : Bytes}
    (hversion : r.version_ = .V10) (hstatus : getStatusText r.statusCode_ ≠ [])
    (hbody : r.body_ = []) (hint : (rendering r).length + content.length < 2 ^ 31)
    (hread : env.read fd content.length = some content) :
    sendFile env conn fd ((rendering r).length + content.length) r (rendering r).length
        content.length =
      .returned [.close fd,
        .asyncWrite (rendering r ++ content) ((rendering r).length + content.length),
        .close conn] := by
  have hcount : ((content.length : ℤ) % 2 ^ 64).toNat = content.length := by omega
  have hcode : int32 content.length ≠ -1 := by
    rw [int32_of_lt (by omega)]
    omega
  have hbuffer : store (Memory.ofList (List.replicate ((rendering r).length + content.length) 0))
      0 (rendering r) = Memory.ofList (filled 0 (rendering r) content.length) := by
    rw [List.replicate_add, store_ofList _ _ _ List.length_replicate.symm]
    rfl
  have hcells : Memory.toList 0 (Memory.ofList (filled 0 (rendering r) content.length))
      ((rendering r).length + content.length) = filled 0 (rendering r) content.length := by
    rw [← length_filled (0 : UInt8) (rendering r) content.length]
    exact Memory.toList_ofList 0 _
  have hsize : ofInt32 ((rendering r).length + content.length : ℤ) =
      (rendering r).length + content.length := by
    exact_mod_cast ofInt32_natCast (n := (rendering r).length + content.length) (by omega)
  have hroom : ¬ (((rendering r).length : ℤ) < 0 ∨
      (((rendering r).length + content.length : ℕ) : ℤ) < (rendering r).length) := by
    omega
  have hend : ¬ ((((rendering r).length + content.length : ℕ) : ℤ) <
      (rendering r).length + content.length) := by
    omega
  rw [sendFile, if_neg hroom,
    toRawDataWithoutBody_v10 hversion hstatus hbody (by omega), hbuffer]
  dsimp only
  rw [hcount, hread]
  dsimp only
  rw [if_neg hend, if_neg hcode, hcells, Int.toNat_natCast,
    overwrite_filled 0 (rendering r) content le_rfl, Nat.sub_self, filled_zero, hsize]

/-- A file is served whole if and only if the sizes of its header block and of the file add up to
an `int`. -/
theorem serveFile_whole_iff {env : Environment} {conn fd : ℕ} {url content : Bytes}
    (hstat : env.fstat fd = some (content.length : ℤ))
    (hread : env.read fd content.length = some content)
    (hallocates : env.allocates
      ((rendering (fileResponse url content.length)).length + content.length) = true) :
    ServedWhole conn fd url content (serveFile env conn fd url) ↔
      (rendering (fileResponse url content.length)).length + content.length < 2 ^ 31 := by
  constructor
  · rintro ⟨-, houtcome⟩
    exact lt_of_serveFile houtcome (by rw [List.length_append])
  · intro hint
    refine ⟨fileResponse_contentLength url content.length, ?_⟩
    obtain ⟨headers, hresponse⟩ := fileResponse_eq url content.length
    have hversion : (fileResponse url content.length).version_ = .V10 := by rw [hresponse]
    have hbody : (fileResponse url content.length).body_ = [] := by rw [hresponse]
    have hcode : (fileResponse url content.length).statusCode_ = .C200 := by rw [hresponse]
    have hstatus : getStatusText (fileResponse url content.length).statusCode_ ≠ [] := by
      rw [hcode]
      decide
    have hfileSize : getFileSizeByFd (env.fstat fd) = content.length := by
      rw [hstat, getFileSizeByFd, int32_of_lt (by omega)]
    have hheaders : (fileResponse url content.length).getRawDataSizeWithoutBody =
        (rendering (fileResponse url content.length)).length :=
      getRawDataSizeWithoutBody_eq_length (by rw [hversion]; decide) hstatus hbody (by omega)
    have hn : (((rendering (fileResponse url content.length)).length + content.length : ℤ) %
        2 ^ 64).toNat = (rendering (fileResponse url content.length)).length + content.length := by
      omega
    unfold serveFile
    dsimp only
    rw [hfileSize, if_neg (by omega), hheaders, if_neg (by omega), hn, if_pos hallocates]
    exact sendFile_whole hversion hstatus hbody hint hread

/-- An accepted request for a regular file is answered with the whole file if and only if the sizes
of the header block and of the file add up to an `int`. -/
theorem served_whole_iff {env : Environment} {conn fd : ℕ} {retCode : ℤ} {reqBuff content : Bytes}
    {httpRequest : HttpRequest} (hretCode : 0 < retCode)
    (haccepted : HttpRequest.fromRawData (reqBuff.take retCode.toNat) = some httpRequest)
    (hopen : env.openFile (cStr (append env.http_dir httpRequest.getUrl)) = some fd)
    (hstat : env.fstat fd = some (content.length : ℤ))
    (hread : env.read fd content.length = some content)
    (hallocates : env.allocates ((rendering
      (fileResponse httpRequest.getUrl content.length)).length + content.length) = true) :
    ServedWhole conn fd httpRequest.getUrl content (static_web_http env conn retCode reqBuff) ↔
      (rendering (fileResponse httpRequest.getUrl content.length)).length + content.length <
        2 ^ 31 := by
  have hrun : static_web_http env conn retCode reqBuff =
      serveFile env conn fd httpRequest.getUrl := by
    rw [static_web_http, if_neg (by omega), haccepted]
    dsimp only
    rw [hopen]
  rw [hrun]
  exact serveFile_whole_iff hstat hread hallocates

/-- A file of two bytes. -/
def smallFile : Environment where
  http_dir := ascii "/srv/www"
  openFile := fun path => if path = ascii "/srv/www/a.css" then some 7 else none
  fstat := fun _ => some 2
  read := fun _ n => some ((ascii "p0").take n)
  allocates := fun _ => true

theorem served_whole_smallFile :
    ServedWhole 9 7 (ascii "a.css") (ascii "p0")
        (static_web_http smallFile 9 23 (ascii "GET /a.css HTTP/1.1\r\n\r\n")) ↔
      (rendering (fileResponse (ascii "a.css") (ascii "p0").length)).length +
        (ascii "p0").length < 2 ^ 31 := by
  let req : HttpRequest := { url_ := ascii "/a.css", method_ := .GET, version_ := .V11 }
  have hurl : req.getUrl = ascii "a.css" := by decide
  have hreq : HttpRequest.fromRawData
      ((ascii "GET /a.css HTTP/1.1\r\n\r\n").take (23 : ℤ).toNat) = some req := by
    decide +kernel
  have hopen : smallFile.openFile (cStr (append smallFile.http_dir req.getUrl)) = some 7 := by
    decide +kernel
  have hread : smallFile.read 7 (ascii "p0").length = some (ascii "p0") := by decide
  rw [← hurl]
  exact served_whole_iff (by decide) hreq hopen rfl hread rfl

/-- A file of `2 ^ 32 + 5` bytes. -/
def largeFile : Environment where
  http_dir := ascii "/srv/www"
  openFile := fun _ => some 7
  fstat := fun _ => some (2 ^ 32 + 5)
  read := fun _ n => some (List.replicate (min n (2 ^ 32 + 5)) (ch 'x'))
  allocates := fun _ => true

/-- Of the large file five bytes are sent, with a header block that says so. -/
theorem large_file_cut :
    static_web_http largeFile 9 23 (ascii "GET /a.bin HTTP/1.1\r\n\r\n") =
        .returned [.close 7,
          .asyncWrite (ascii "HTTP/1.0 200 OK\r\nContent-Length: 5\r\n" ++
            ascii "server: co_uring_httpd/0.1\r\n\r\nxxxxx") 71,
          .close 9] ∧
      ¬ ServedWhole 9 7 (ascii "a.bin") (List.replicate (2 ^ 32 + 5) (ch 'x'))
        (static_web_http largeFile 9 23 (ascii "GET /a.bin HTTP/1.1\r\n\r\n")) := by
  have hrun : static_web_http largeFile 9 23 (ascii "GET /a.bin HTTP/1.1\r\n\r\n") =
      serveFile largeFile 9 7 (ascii "a.bin") := by decide +kernel
  rw [hrun]
  refine ⟨by decide +kernel, ?_⟩
  rintro ⟨-, houtcome⟩
  have hlt := lt_of_serveFile houtcome (by rw [List.length_append])
  rw [List.length_replicate] at hlt
  omega

end CoUringWeb
