import CoUringWeb.Http.Reading
import CoUringWeb.Http.Response

/-!
# The text of a response

`rendering` is the text a response stands for: the status line, the header block and the body.
`toRawData` builds it by stores at a running index.  Each store appends to what the string holds so
far (`memcpy_filled`, `setAt_filled`), except the one for version 0.9, which goes to the start of
the string: `startBytes` is what the first eight bytes are in the end.
-/

namespace CoUringWeb

open Machine Numerals Stores Exceptions
open HttpRequest (headerBlock)

namespace HttpResponse

/-! ## What a response stands for -/

/-- The text behind the version, up to the body. -/
def headTail (response : HttpResponse) : Bytes :=
  ascii " " ++ (decimalDigits response.statusCode_.value ++ (ascii " " ++
    (getStatusText response.statusCode_ ++ (ascii "\r\n" ++
      (headerBlock response.headers_.entries ++ ascii "\r\n")))))

def rendering (response : HttpResponse) : Bytes :=
  ascii "HTTP/" ++ (response.version_.text ++ (headTail response ++ response.body_))

/-- The first eight bytes of `toRawData`. -/
def startBytes : HttpVersion → Bytes
  | .V9 => ascii "0.9P/" ++ [0, 0, 0]
  | version => ascii "HTTP/" ++ version.text

theorem headerBlock_append (hs hs' : List (Bytes × Bytes)) :
    headerBlock (hs ++ hs') = headerBlock hs ++ headerBlock hs' := List.flatMap_append

theorem headerBlock_cons (h : Bytes × Bytes) (hs : List (Bytes × Bytes)) :
    headerBlock (h :: hs) = headerBlock [h] ++ headerBlock hs := headerBlock_append [h] hs

theorem length_headerBlock_singleton (key value : Bytes) :
    (headerBlock [(key, value)]).length = key.length + 1 + 1 + value.length + 2 := by
  simp [headerBlock, ascii]
  omega

theorem length_headerBlock (hs : List (Bytes × Bytes)) :
    (headerBlock hs).length =
      (hs.map fun h => h.1.length + 1 + 1 + h.2.length + 2).sum := by
  induction hs with
  | nil => rfl
  | cons h hs ih =>
    rw [headerBlock_cons, List.length_append, length_headerBlock_singleton, ih, List.map_cons,
      List.sum_cons]

variable {r : HttpResponse}

theorem length_headTail (hstatus : getStatusText r.statusCode_ ≠ []) :
    (headTail r).length = 1 + 3 + 1 + (getStatusText r.statusCode_).length + 2 +
      (headerBlock r.headers_.entries).length + 2 := by
  simp [headTail, length_code hstatus, ascii]
  omega

theorem length_startBytes {version : HttpVersion} (h : version ≠ .VERSION_NOTHING) :
    (startBytes version).length = 8 := by
  cases version with
  | VERSION_NOTHING => exact absurd rfl h
  | V9 | V10 | V11 => rfl

theorem length_rendering (hversion : r.version_ ≠ .VERSION_NOTHING) :
    (rendering r).length = 8 + (headTail r).length + r.body_.length := by
  simp [rendering, HttpVersion.length_text hversion, http_length]
  omega

/-! ## The index -/

theorem advance_natCast {i n : ℕ} (h : i + n < 2 ^ 31) : advance i n = ((i + n : ℕ) : ℤ) := by
  rw [advance, ← Int.natCast_add, int32_of_lt h]

/-- The index behind what was stored. -/
theorem advance_length (w src : Bytes) {n : ℕ} (hn : src.length = n) (h : w.length + n < 2 ^ 31) :
    advance w.length n = ((w ++ src).length : ℤ) := by
  rw [advance_natCast h, List.length_append, hn]

theorem advance_one (w : Bytes) (c : UInt8) (h : w.length + 1 < 2 ^ 31) :
    advance w.length 1 = ((w ++ [c]).length : ℤ) := advance_length w [c] rfl h

/-- The size of the string `toRawData` fills. -/
theorem rawSize_eq (hversion : r.version_ ≠ .VERSION_NOTHING)
    (hstatus : getStatusText r.statusCode_ ≠ []) (hlen : (rendering r).length < 2 ^ 31) :
    r.rawSize = 8 + (headTail r).length + r.body_.length := by
  rw [length_rendering hversion, length_headTail hstatus, length_headerBlock] at hlen
  have hfold := foldl_counter (fun k n => uint64 (k + n)) id
    (fun h : Bytes × Bytes => h.1.length + 1 + 1 + h.2.length + 2)
    (fun k n h => uint64_of_lt h) r.headers_.entries
    (13 + (getStatusText r.statusCode_).length + 2) (by omega)
  simp only [id] at hfold
  have htext : uint64 (13 + (getStatusText r.statusCode_).length) =
      13 + (getStatusText r.statusCode_).length := uint64_of_lt (by omega)
  have hline : uint64 (13 + (getStatusText r.statusCode_).length + 2) =
      13 + (getStatusText r.statusCode_).length + 2 := uint64_of_lt (by omega)
  simp only [rawSize]
  rw [htext, hline, hfold, length_headTail hstatus, length_headerBlock]
  unfold uint64
  omega

/-- The size of the buffer `toRawDataWithoutBody` is given. -/
theorem getRawDataSizeWithoutBody_eq (hversion : r.version_ ≠ .VERSION_NOTHING)
    (hstatus : getStatusText r.statusCode_ ≠ []) (hlen : (rendering r).length < 2 ^ 31) :
    r.getRawDataSizeWithoutBody = ((8 + (headTail r).length : ℕ) : ℤ) := by
  rw [length_rendering hversion, length_headTail hstatus, length_headerBlock] at hlen
  have hfold := foldl_counter advance Nat.cast
    (fun h : Bytes × Bytes => h.1.length + 1 + 1 + h.2.length + 2)
    (fun k n h => advance_natCast h) r.headers_.entries
    (13 + (getStatusText r.statusCode_).length + 2) (by omega)
  have htext : advance 13 (getStatusText r.statusCode_).length =
      ((13 + (getStatusText r.statusCode_).length : ℕ) : ℤ) :=
    advance_natCast (i := 13) (by omega)
  simp only [getRawDataSizeWithoutBody]
  rw [htext, advance_natCast (by omega), hfold, advance_natCast (by omega),
    length_headTail hstatus, length_headerBlock]
  push_cast
  omega

/-! ## The stores of `toRawData` -/

theorem memcpy_filled {w src : Bytes} {n : ℕ} (h : src.length ≤ n) :
    memcpy (filled 0 w n) w.length src = .ok (filled 0 (w ++ src) (n - src.length)) := by
  rw [memcpy, if_pos (by rw [length_filled]; omega), Int.toNat_natCast, overwrite_filled 0 w src h]

theorem setAt_filled {w : Bytes} {c : UInt8} {n : ℕ} (h : 1 ≤ n) :
    setAt (filled 0 w n) w.length c = .ok (filled 0 (w ++ [c]) (n - 1)) := by
  rw [setAt, if_pos (by rw [length_filled]; omega), Int.toNat_natCast,
    overwrite_filled 0 w [c] h, List.length_singleton]

/-- The first three bytes of the code are all of it. -/
theorem firstBytes_codeData (hstatus : getStatusText r.statusCode_ ≠ []) :
    firstBytes (codeData r.statusCode_) 3 = .ok (decimalDigits r.statusCode_.value) := by
  have hcode := length_code hstatus
  rw [firstBytes, codeData, if_pos (by simp [hcode]), ← hcode, List.take_left' rfl]

/-- After the version the first eight bytes are there, whichever version it is. -/
theorem putVersion_filled {version : HttpVersion} (hversion : version ≠ .VERSION_NOTHING) {n : ℕ}
    (hn : 3 ≤ n) :
    putVersion version (filled 0 (ascii "HTTP/") n) 5 =
      .ok (filled 0 (startBytes version) (n - 3), 8) := by
  have hindex : advance 5 3 = 8 := advance_natCast (i := 5) (n := 3) (by norm_num)
  have hnext (text : Bytes) (htext : text.length = 3) :
      memcpy (filled 0 (ascii "HTTP/") n) 5 text =
        .ok (filled 0 (ascii "HTTP/" ++ text) (n - 3)) := by
    rw [← htext] at hn ⊢
    exact memcpy_filled hn
  cases version with
  | VERSION_NOTHING => exact absurd rfl hversion
  | V10 =>
    rw [putVersion, hnext (ascii "1.0") rfl, ok_bind, hindex]
    rfl
  | V11 =>
    rw [putVersion, hnext (ascii "1.1") rfl, ok_bind, hindex]
    rfl
  | V9 =>
    have hstart : memcpy (filled 0 (ascii "HTTP/") n) 0 (ascii "0.9") =
        .ok (filled 0 (ascii "0.9P/" ++ [0, 0, 0]) (n - 3)) := by
      obtain ⟨m, rfl⟩ := Nat.exists_eq_add_of_le hn
      have hroom : (0 : ℤ) ≤ 0 ∧ 0 + ((ascii "0.9").length : ℤ) ≤
          ((filled 0 (ascii "HTTP/") (3 + m)).length : ℤ) := by
        rw [length_filled, http_length]
        have : (ascii "0.9").length = 3 := rfl
        omega
      rw [memcpy, if_pos hroom, Nat.add_sub_cancel_left, filled, List.replicate_add]
      rfl
    rw [putVersion, hstart, ok_bind, hindex]
    rfl

/-- One turn of the loop appends a header line. -/
theorem putHeader_filled {w : Bytes} {header : Bytes × Bytes} {n : ℕ}
    (hn : (headerBlock [header]).length ≤ n)
    (hlen : w.length + (headerBlock [header]).length < 2 ^ 31) :
    putHeader (filled 0 w n, w.length) header =
      .ok (filled 0 (w ++ headerBlock [header]) (n - (headerBlock [header]).length),
        ((w ++ headerBlock [header]).length : ℤ)) := by
  obtain ⟨key, value⟩ := header
  rw [length_headerBlock_singleton] at hn hlen
  simp only [putHeader]
  rw [memcpy_filled (by omega), ok_bind, advance_length w key rfl (by omega),
    setAt_filled (by omega), ok_bind, advance_one _ (ch ':') (by simp; omega),
    setAt_filled (by omega), ok_bind, advance_one _ (ch ' ') (by simp; omega),
    memcpy_filled (by omega), ok_bind, advance_length _ value rfl (by simp; omega),
    setAt_filled (by omega), ok_bind, advance_one _ (ch '\r') (by simp; omega),
    setAt_filled (by omega), ok_bind, advance_one _ (ch '\n') (by simp; omega)]
  have htext : w ++ key ++ [ch ':'] ++ [ch ' '] ++ value ++ [ch '\r'] ++ [ch '\n'] =
      w ++ headerBlock [(key, value)] := by
    simp [headerBlock, ascii]
  rw [htext, length_headerBlock_singleton]
  exact congrArg (fun m => Except.ok (filled 0 (w ++ headerBlock [(key, value)]) m, _)) (by omega)

/-- The loop appends the header block. -/
theorem putHeaders_filled {headers : List (Bytes × Bytes)} {w : Bytes} {n : ℕ}
    (hn : (headerBlock headers).length ≤ n)
    (hlen : w.length + (headerBlock headers).length < 2 ^ 31) :
    headers.foldlM putHeader (filled 0 w n, (w.length : ℤ)) =
      .ok (filled 0 (w ++ headerBlock headers) (n - (headerBlock headers).length),
        ((w ++ headerBlock headers).length : ℤ)) := by
  induction headers generalizing w n with
  | nil =>
    rw [List.foldlM_nil, show headerBlock [] = [] from rfl, List.append_nil]
    rfl
  | cons header headers ih =>
    rw [headerBlock_cons header headers] at hn hlen ⊢
    rw [List.length_append] at hn hlen
    rw [List.foldlM_cons, putHeader_filled (by omega) (by omega), ok_bind,
      ih (by omega) (by rw [List.length_append]; omega), List.append_assoc, Nat.sub_sub,
      ← List.length_append]

/-- What `toRawData` fills its string with. -/
theorem writeRawData_eq (hversion : r.version_ ≠ .VERSION_NOTHING)
    (hstatus : getStatusText r.statusCode_ ≠ []) (hlen : (rendering r).length < 2 ^ 31) :
    r.writeRawData (List.replicate r.rawSize 0) =
      .ok (startBytes r.version_ ++ (headTail r ++ r.body_)) := by
  have hsize := rawSize_eq hversion hstatus hlen
  rw [length_rendering hversion] at hlen
  have htail := length_headTail hstatus
  have hstart := length_startBytes hversion
  have hcode := length_code hstatus
  have hfirst : memcpy (List.replicate r.rawSize 0) 0 (ascii "HTTP/") =
      .ok (filled 0 (ascii "HTTP/") (r.rawSize - 5)) :=
    memcpy_filled (w := []) (n := r.rawSize) (by rw [http_length]; omega)
  have hcrlf : (ascii "\r\n").length = 2 := rfl
  have hfive : advance 0 5 = 5 := advance_natCast (i := 0) (n := 5) (by norm_num)
  have height : (8 : ℤ) = (startBytes r.version_).length := by rw [hstart]; rfl
  simp only [writeRawData]
  rw [hfirst, ok_bind, hfive, putVersion_filled hversion (by omega), ok_bind]
  simp only [height]
  rw [setAt_filled (by omega), ok_bind, advance_one _ (ch ' ') (by omega),
    firstBytes_codeData hstatus, ok_bind, memcpy_filled (by omega), ok_bind,
    advance_length _ _ hcode (by simp; omega)]
  rw [setAt_filled (by omega), ok_bind, advance_one _ (ch ' ') (by simp; omega),
    if_neg hstatus, memcpy_filled (by omega), ok_bind, advance_length _ _ rfl (by simp; omega),
    memcpy_filled (by omega), ok_bind, advance_length _ _ hcrlf (by simp; omega)]
  rw [putHeaders_filled (by omega) (by simp; omega), ok_bind]
  dsimp only
  rw [setAt_filled (by omega), ok_bind, advance_one _ (ch '\r') (by simp; omega),
    setAt_filled (by omega), ok_bind, advance_one _ (ch '\n') (by simp; omega),
    memcpy_filled (by omega), ok_bind, advance_length _ r.body_ rfl (by simp; omega)]
  have htext : startBytes r.version_ ++ [ch ' '] ++ decimalDigits r.statusCode_.value ++
      [ch ' '] ++ getStatusText r.statusCode_ ++ ascii "\r\n" ++
      headerBlock r.headers_.entries ++ [ch '\r'] ++ [ch '\n'] ++ r.body_ =
      startBytes r.version_ ++ (headTail r ++ r.body_) := by
    simp [headTail, ascii]
  have hlength : (startBytes r.version_ ++ (headTail r ++ r.body_)).length =
      8 + (headTail r).length + r.body_.length := by
    simp [hstart]
    omega
  have hrest : r.rawSize - 5 - 3 - 1 - (decimalDigits r.statusCode_.value).length - 1 -
      (getStatusText r.statusCode_).length - (ascii "\r\n").length -
      (headerBlock r.headers_.entries).length - 1 - 1 - r.body_.length = 0 := by omega
  rw [htext, hrest, filled_zero, if_neg (by rw [hlength, ← hsize]; omega)]
  rfl

/-- `toRawData` gives the text of the response, but for its first eight bytes. -/
theorem toRawData_eq (hversion : r.version_ ≠ .VERSION_NOTHING)
    (hstatus : getStatusText r.statusCode_ ≠ []) (hlen : (rendering r).length < 2 ^ 31) :
    r.toRawData = some (startBytes r.version_ ++ (headTail r ++ r.body_)) := by
  rw [toRawData, writeRawData_eq hversion hstatus hlen]

theorem startBytes_eq_iff {version : HttpVersion} (h : version ≠ .VERSION_NOTHING) :
    startBytes version = ascii "HTTP/" ++ version.text ↔ version = .V10 ∨ version = .V11 := by
  cases version with
  | VERSION_NOTHING => exact absurd rfl h
  | V9 | V10 | V11 => decide

/-- `toRawData` gives the text of the response for the versions 1.0 and 1.1, and for these only. -/
theorem toRawData_eq_rendering_iff (r : HttpResponse) (hversion : r.version_ ≠ .VERSION_NOTHING)
    (hstatus : getStatusText r.statusCode_ ≠ []) (hlen : (rendering r).length < 2 ^ 31) :
    r.toRawData = some (rendering r) ↔ r.version_ = .V10 ∨ r.version_ = .V11 := by
  rw [toRawData_eq hversion hstatus hlen, rendering, ← List.append_assoc (ascii "HTTP/"),
    Option.some_inj, List.append_left_inj, startBytes_eq_iff hversion]

/-- A response with a header and a body. -/
def notFoundPage : HttpResponse where
  version_ := .V11
  statusCode_ := .C404
  headers_ := (∅ : SortedMap Bytes Bytes).insert (ascii "Content-Length") (ascii "4")
  body_ := ascii "none"

theorem toRawData_eq_rendering_notFound :
    notFoundPage.toRawData = some (rendering notFoundPage) ↔
      notFoundPage.version_ = .V10 ∨ notFoundPage.version_ = .V11 :=
  toRawData_eq_rendering_iff notFoundPage (by decide) (by decide) (by decide)

/-- The version 0.9 goes to the start of the string. -/
theorem version_at_start :
    ({ version_ := .V9 } : HttpResponse).toRawData =
        some (ascii "0.9P/" ++ [0, 0, 0] ++ ascii " 200 OK\r\n\r\n") ∧
      rendering { version_ := .V9 } = ascii "HTTP/0.9 200 OK\r\n\r\n" := by
  decide

/-! ## The stores of `toRawDataWithoutBody` -/

/-- A store at the end of the last one. -/
theorem store_next (m : Memory UInt8) (p : ℕ) (w src : Bytes) :
    store (store m p w) ((p + w.length : ℕ) : ℤ) src = store m p (w ++ src) := by
  rw [Int.natCast_add, store_store]

theorem advance_next (p : ℕ) (w src : Bytes) {n : ℕ} (hn : src.length = n)
    (h : p + w.length + n < 2 ^ 31) :
    advance ((p + w.length : ℕ) : ℤ) n = ((p + (w ++ src).length : ℕ) : ℤ) := by
  rw [advance_natCast h, List.length_append, hn, Nat.add_assoc]

theorem advance_next_one (p : ℕ) (w : Bytes) (c : UInt8) (h : p + w.length + 1 < 2 ^ 31) :
    advance ((p + w.length : ℕ) : ℤ) 1 = ((p + (w ++ [c]).length : ℕ) : ℤ) :=
  advance_next p w [c] rfl h

/-- The buffer after the version. -/
def startCells (version : HttpVersion) (buffer : Memory UInt8) : Memory UInt8 :=
  match version with
  | .V9 => store (store buffer 0 (ascii "HTTP/")) 0 (ascii "0.9")
  | version => store buffer 0 (ascii "HTTP/" ++ version.text)

theorem storeVersion_eq {version : HttpVersion} (hversion : version ≠ .VERSION_NOTHING)
    (buffer : Memory UInt8) :
    storeVersion version (store buffer 0 (ascii "HTTP/")) 5 =
      .ok (startCells version buffer, 8) := by
  have hindex : advance 5 3 = 8 := advance_natCast (i := 5) (n := 3) (by norm_num)
  have hnext (text : Bytes) : store (store buffer 0 (ascii "HTTP/")) 5 text =
      store buffer 0 (ascii "HTTP/" ++ text) := store_store buffer 0 (ascii "HTTP/") text
  cases version with
  | VERSION_NOTHING => exact absurd rfl hversion
  | V10 =>
    rw [storeVersion, hnext, hindex]
    rfl
  | V11 =>
    rw [storeVersion, hnext, hindex]
    rfl
  | V9 =>
    rw [storeVersion, hindex]
    rfl

/-- One turn of the loop appends a header line to what was stored from `p` on. -/
theorem storeHeader_eq {m : Memory UInt8} {p : ℕ} {w : Bytes} {header : Bytes × Bytes}
    (hlen : p + w.length + (headerBlock [header]).length < 2 ^ 31) :
    storeHeader (store m p w, ((p + w.length : ℕ) : ℤ)) header =
      (store m p (w ++ headerBlock [header]),
        ((p + (w ++ headerBlock [header]).length : ℕ) : ℤ)) := by
  obtain ⟨key, value⟩ := header
  rw [length_headerBlock_singleton] at hlen
  simp only [storeHeader]
  rw [store_next, advance_next p w key rfl (by omega),
    store_next, advance_next_one p _ (ch ':') (by simp; omega),
    store_next, advance_next_one p _ (ch ' ') (by simp; omega),
    store_next, advance_next p _ value rfl (by simp; omega),
    store_next, advance_next_one p _ (ch '\r') (by simp; omega),
    store_next, advance_next_one p _ (ch '\n') (by simp; omega)]
  have htext : w ++ key ++ [ch ':'] ++ [ch ' '] ++ value ++ [ch '\r'] ++ [ch '\n'] =
      w ++ headerBlock [(key, value)] := by
    simp [headerBlock, ascii]
  rw [htext]

/-- The loop appends the header block. -/
theorem storeHeaders_eq {m : Memory UInt8} {p : ℕ} {headers : List (Bytes × Bytes)} {w : Bytes}
    (hlen : p + w.length + (headerBlock headers).length < 2 ^ 31) :
    headers.foldl storeHeader (store m p w, ((p + w.length : ℕ) : ℤ)) =
      (store m p (w ++ headerBlock headers),
        ((p + (w ++ headerBlock headers).length : ℕ) : ℤ)) := by
  induction headers generalizing w with
  | nil => rw [List.foldl_nil, show headerBlock [] = [] from rfl, List.append_nil]
  | cons header headers ih =>
    rw [headerBlock_cons header headers] at hlen ⊢
    rw [List.length_append] at hlen
    rw [List.foldl_cons, storeHeader_eq (by omega), ih (by rw [List.length_append]; omega),
      List.append_assoc]

/-- What `toRawDataWithoutBody` stores, and the index it ends at. -/
theorem writeWithoutBody_eq (hversion : r.version_ ≠ .VERSION_NOTHING)
    (hstatus : getStatusText r.statusCode_ ≠ []) (hlen : (rendering r).length < 2 ^ 31)
    (buffer : Memory UInt8) :
    r.writeWithoutBody buffer =
      .ok (store (startCells r.version_ buffer) (8 : ℕ) (headTail r),
        ((8 + (headTail r).length : ℕ) : ℤ)) := by
  rw [length_rendering hversion] at hlen
  have htail := length_headTail hstatus
  have hcode := length_code hstatus
  have hcrlf : (ascii "\r\n").length = 2 := rfl
  have hfive : advance 0 5 = 5 := advance_natCast (i := 0) (n := 5) (by norm_num)
  have hstart : store (startCells r.version_ buffer) 8 [ch ' '] =
      store (startCells r.version_ buffer) (8 : ℕ) [ch ' '] := rfl
  have hnine : advance 8 1 = ((8 + [ch ' '].length : ℕ) : ℤ) :=
    advance_natCast (i := 8) (n := 1) (by norm_num)
  have hfirst {ε : Type} (f : ResponseError → ε) :
      (firstBytes (codeData r.statusCode_) 3).mapError f =
        .ok (decimalDigits r.statusCode_.value) := by
    rw [firstBytes_codeData hstatus]
    rfl
  simp only [writeWithoutBody]
  rw [hfive, storeVersion_eq hversion, ok_bind]
  dsimp only
  rw [hstart, hnine, hfirst, ok_bind, store_next, advance_next 8 _ _ hcode (by simp),
    store_next, advance_next_one 8 _ (ch ' ') (by simp; omega), if_neg hstatus, store_next,
    advance_next 8 _ _ rfl (by simp; omega), store_next,
    advance_next 8 _ _ hcrlf (by simp; omega), storeHeaders_eq (by simp; omega)]
  dsimp only
  rw [store_next, advance_next_one 8 _ (ch '\r') (by simp; omega), store_next,
    advance_next_one 8 _ (ch '\n') (by simp; omega)]
  have htext : [ch ' '] ++ decimalDigits r.statusCode_.value ++ [ch ' '] ++
      getStatusText r.statusCode_ ++ ascii "\r\n" ++ headerBlock r.headers_.entries ++
      [ch '\r'] ++ [ch '\n'] = headTail r := by
    simp [headTail, ascii]
  rw [htext]
  rfl

/-! ## The two serialisers -/

theorem startCells_overlay (version : HttpVersion) (buffer : Memory UInt8) :
    startCells version buffer = overlay (startCells version Memory.unwritten) buffer := by
  cases version <;>
    simp only [startCells, ← store_overlay, overlay_unwritten]

/-- The first eight bytes of the string are those stored in the buffer. -/
theorem startCells_agrees {version : HttpVersion} (h : version ≠ .VERSION_NOTHING) :
    Agrees (startCells version Memory.unwritten) (startBytes version) := by
  have hnone : Agrees (Memory.unwritten : Memory UInt8) [] := fun i b hi => by cases hi
  have hwhole (text : Bytes) : Agrees (store Memory.unwritten 0 text) text := hnone.store text
  cases version with
  | VERSION_NOTHING => exact absurd rfl h
  | V9 =>
    have hstart : Agrees (startCells .V9 Memory.unwritten)
        (overwrite (ascii "HTTP/") 0 (ascii "0.9")) := (hwhole _).overwrite (by decide)
    exact hstart.append [0, 0, 0]
  | V10 | V11 => exact hwhole _

/-- Where nothing is stored among the first eight bytes, the string holds a zero. -/
theorem startBytes_of_startCells {version : HttpVersion} (h : version ≠ .VERSION_NOTHING) {i : ℕ}
    (hi : i < 8) (hcell : startCells version Memory.unwritten i = none) :
    (startBytes version)[i]? = some 0 := by
  revert hcell
  cases version with
  | VERSION_NOTHING => exact absurd rfl h
  | V9 | V10 | V11 => interval_cases i <;> decide

/-- The stores of `toRawDataWithoutBody` are the bytes of `toRawData` at the same offsets, below
the size that `getRawDataSizeWithoutBody` gives; where nothing is stored the string holds a zero.
`m` are the stores into a buffer of which nothing is known, and any buffer gets the same. -/
theorem serialisers_agree (r : HttpResponse) (hversion : r.version_ ≠ .VERSION_NOTHING)
    (hstatus : getStatusText r.statusCode_ ≠ []) (hlen : (rendering r).length < 2 ^ 31) :
    ∃ (s : Bytes) (m : Memory UInt8) (size : ℕ),
      r.getRawDataSizeWithoutBody = size ∧
      r.writeRawData (List.replicate r.rawSize 0) = .ok s ∧ r.toRawData = some s ∧
      s.length = size + r.body_.length ∧ r.body_ <:+ s ∧
      (∀ buffer, r.writeWithoutBody buffer = .ok (overlay m buffer, (size : ℤ)) ∧
        r.toRawDataWithoutBody buffer = some (overlay m buffer)) ∧
      (∀ i b, m i = some b → 0 ≤ i ∧ i < size ∧ s[i.toNat]? = some b) ∧
      ∀ i : ℕ, i < size → m i = none → s[i]? = some 0 := by
  have hstart := length_startBytes hversion
  have hwrite (buffer : Memory UInt8) : r.writeWithoutBody buffer =
      .ok (overlay (store (startCells r.version_ Memory.unwritten) (8 : ℕ) (headTail r)) buffer,
        ((8 + (headTail r).length : ℕ) : ℤ)) := by
    rw [writeWithoutBody_eq hversion hstatus hlen, startCells_overlay, store_overlay]
  have hagrees : Agrees (store (startCells r.version_ Memory.unwritten) (8 : ℕ) (headTail r))
      (startBytes r.version_ ++ headTail r) := by
    rw [← hstart]
    exact (startCells_agrees hversion).store (headTail r)
  have hhead : (startBytes r.version_ ++ headTail r).length = 8 + (headTail r).length := by
    rw [List.length_append, hstart]
  refine ⟨startBytes r.version_ ++ (headTail r ++ r.body_), _, 8 + (headTail r).length,
    getRawDataSizeWithoutBody_eq hversion hstatus hlen, writeRawData_eq hversion hstatus hlen,
    toRawData_eq hversion hstatus hlen, ?_, ?_, fun buffer => ⟨hwrite buffer, ?_⟩, ?_, ?_⟩
  · rw [← List.append_assoc, List.length_append, hhead]
  · rw [← List.append_assoc]
    exact List.suffix_append _ _
  · rw [toRawDataWithoutBody, hwrite]
  · intro i b hi
    have hlt := hagrees.lt hi
    rw [hhead] at hlt
    obtain ⟨h0, hs⟩ := hagrees.append r.body_ i b hi
    rw [List.append_assoc] at hs
    exact ⟨h0, hlt, hs⟩
  · intro i hi hnone
    -- what is not stored lies before the offset of the second store
    have hlow : i < 8 := by
      by_contra hge
      rw [store_of_mem (by omega), List.getElem?_eq_none_iff] at hnone
      omega
    rw [store_of_notMem (by omega)] at hnone
    rw [List.getElem?_append_left (by omega)]
    exact startBytes_of_startCells hversion hlow hnone

theorem serialisers_agree_version09 :
    ∃ (s : Bytes) (m : Memory UInt8) (size : ℕ),
      ({ version_ := .V9, body_ := ascii "x" } : HttpResponse).getRawDataSizeWithoutBody = size ∧
      writeRawData { version_ := .V9, body_ := ascii "x" }
        (List.replicate (rawSize { version_ := .V9, body_ := ascii "x" }) 0) = .ok s ∧
      toRawData { version_ := .V9, body_ := ascii "x" } = some s ∧
      s.length = size + (ascii "x").length ∧ ascii "x" <:+ s ∧
      (∀ buffer, writeWithoutBody { version_ := .V9, body_ := ascii "x" } buffer =
          .ok (overlay m buffer, (size : ℤ)) ∧
        toRawDataWithoutBody { version_ := .V9, body_ := ascii "x" } buffer =
          some (overlay m buffer)) ∧
      (∀ i b, m i = some b → 0 ≤ i ∧ i < size ∧ s[i.toNat]? = some b) ∧
      ∀ i : ℕ, i < size → m i = none → s[i]? = some 0 :=
  serialisers_agree { version_ := .V9, body_ := ascii "x" } (by decide) (by decide) (by decide)

end HttpResponse

end CoUringWeb
