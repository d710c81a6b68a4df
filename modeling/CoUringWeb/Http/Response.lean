import CoUringWeb.Framework.Exceptions
import CoUringWeb.Framework.Stores
import CoUringWeb.Http.Request
import CoUringWeb.Http.StatusCode

/-!
# `HttpResponse`

Responses and the three traversals of their headers in `src/http.cpp`: `toRawData`, which stores
into a zero-filled string and checks some of its stores, `getRawDataSizeWithoutBody`, and
`toRawDataWithoutBody`, which stores into a buffer of its caller and checks none.

The index of both serialisers is an `int`; `advance` reduces it to 32 bits.  A `memcpy` outside
the string or past the end of its source is undefined.  The enumeration has no further versions,
so that the `default` branches of the two switches on the version are never taken.
-/

namespace CoUringWeb

open Machine Numerals Stores

structure HttpResponse where
  version_ : HttpVersion := .V10
  statusCode_ : HttpResponseStatusCodes := .C200
  headers_ : SortedMap Bytes Bytes := ∅
  body_ : Bytes := []
  deriving DecidableEq

/-- How a serialiser leaves its `try` block. -/
inductive ResponseError where
  | out_of_range (what : String)
  | invalid_argument (what : String)
  /-- undefined behaviour; no handler sees it -/
  | undefined
  deriving DecidableEq, Repr

namespace HttpResponse

def setHeader (response : HttpResponse) (key value : Bytes) : HttpResponse :=
  { response with headers_ := response.headers_.insertOrAssign key value }

/-- `index += n` for an `int` index -/
def advance (index : ℤ) (n : ℕ) : ℤ := int32 (index + n)

/-- The first `n` bytes behind a pointer into `src`. -/
def firstBytes (src : Bytes) (n : ℕ) : Except ResponseError Bytes :=
  if n ≤ src.length then .ok (src.take n) else .error .undefined

/-- `to_string(statusCode_).data()`, with its terminator. -/
def codeData (code : HttpResponseStatusCodes) : Bytes := decimalDigits code.value ++ [0]

/-! ## `toRawData` -/

/-- `memcpy(res.data() + index, src.data(), src.size())` -/
def memcpy (res : Bytes) (index : ℤ) (src : Bytes) : Except ResponseError Bytes :=
  if 0 ≤ index ∧ index + src.length ≤ res.length then .ok (overwrite res index.toNat src)
  else .error .undefined

/-- `res.at(index) = c` -/
def setAt (res : Bytes) (index : ℤ) (c : UInt8) : Except ResponseError Bytes :=
  if 0 ≤ index ∧ index < res.length then .ok (overwrite res index.toNat [c])
  else .error (.out_of_range "basic_string::at")

/-- The `switch` on the version. -/
def putVersion (version : HttpVersion) (res : Bytes) (index : ℤ) :
    Except ResponseError (Bytes × ℤ) :=
  match version with
  | .VERSION_NOTHING => throw (.invalid_argument "http response version 为 NOTHING")
  | .V10 => do return (← memcpy res index (ascii "1.0"), advance index 3)
  | .V11 => do return (← memcpy res index (ascii "1.1"), advance index 3)
  -- this branch alone stores at the start of the string
  | .V9 => do return (← memcpy res 0 (ascii "0.9"), advance index 3)

/-- One turn of the loop over the headers. -/
def putHeader (state : Bytes × ℤ) (header : Bytes × Bytes) :
    Except ResponseError (Bytes × ℤ) := do
  let (res, index) := state
  let (key, value) := header
  let res ← memcpy res index key
  let index := advance index key.length
  let res ← setAt res index (ch ':')
  let index := advance index 1
  let res ← setAt res index (ch ' ')
  let index := advance index 1
  let res ← memcpy res index value
  let index := advance index value.length
  let res ← setAt res index (ch '\r')
  let index := advance index 1
  let res ← setAt res index (ch '\n')
  let index := advance index 1
  return (res, index)

/-- `resSize` of `toRawData` -/
def rawSize (response : HttpResponse) : ℕ :=
  let resSize := 13
  let resSize := uint64 (resSize + (getStatusText response.statusCode_).length)
  let resSize := uint64 (resSize + 2)
  let resSize := response.headers_.entries.foldl
    (fun resSize header => uint64 (resSize + (header.1.length + 1 + 1 + header.2.length + 2)))
    resSize
  let resSize := uint64 (resSize + 2)
  uint64 (resSize + response.body_.length)

/-- The `try` block of `toRawData`. -/
def writeRawData (response : HttpResponse) (res : Bytes) : Except ResponseError Bytes := do
  let index := 0
  let res ← memcpy res index (ascii "HTTP/")
  let index := advance index 5
  let (res, index) ← putVersion response.version_ res index
  let res ← setAt res index (ch ' ')
  let index := advance index 1
  let res ← memcpy res index (← firstBytes (codeData response.statusCode_) 3)
  let index := advance index 3
  let res ← setAt res index (ch ' ')
  let index := advance index 1
  let statusText := getStatusText response.statusCode_
  if statusText = [] then throw (.invalid_argument "未知的 http response status code")
  let res ← memcpy res index statusText
  let index := advance index statusText.length
  let res ← memcpy res index (ascii "\r\n")
  let index := advance index 2
  let (res, index) ← response.headers_.entries.foldlM putHeader (res, index)
  let res ← setAt res index (ch '\r')
  let index := advance index 1
  let res ← setAt res index (ch '\n')
  let index := advance index 1
  let res ← memcpy res index response.body_
  let index := advance index response.body_.length
  -- the comparison converts the index to a size
  if index % 2 ^ 64 ≠ res.length then throw (.out_of_range "http response 转化时越界")
  return res

/-- `toRawData`; `none` when its behaviour is undefined. -/
def toRawData (response : HttpResponse) : Option Bytes :=
  match response.writeRawData (List.replicate response.rawSize 0) with
  | .ok res => some res
  | .error (.out_of_range _) => some []
  | .error (.invalid_argument _) => some []
  | .error .undefined => none

/-! ## `getRawDataSizeWithoutBody` and `toRawDataWithoutBody` -/

def getRawDataSizeWithoutBody (response : HttpResponse) : ℤ :=
  let resSize := 13
  let resSize := advance resSize (getStatusText response.statusCode_).length
  let resSize := advance resSize 2
  let resSize := response.headers_.entries.foldl
    (fun resSize header => advance resSize (header.1.length + 1 + 1 + header.2.length + 2))
    resSize
  advance resSize 2

/-- The `switch` on the version; an exception leaves the buffer as it is. -/
def storeVersion (version : HttpVersion) (buffer : Memory UInt8) (index : ℤ) :
    Except (ResponseError × Memory UInt8) (Memory UInt8 × ℤ) :=
  match version with
  | .VERSION_NOTHING => throw (.invalid_argument "http response version 为 NOTHING", buffer)
  | .V10 => return (store buffer index (ascii "1.0"), advance index 3)
  | .V11 => return (store buffer index (ascii "1.1"), advance index 3)
  -- this branch alone stores at the start of the buffer
  | .V9 => return (store buffer 0 (ascii "0.9"), advance index 3)

/-- One turn of the loop over the headers. -/
def storeHeader (state : Memory UInt8 × ℤ) (header : Bytes × Bytes) : Memory UInt8 × ℤ :=
  let (buffer, index) := state
  let (key, value) := header
  let buffer := store buffer index key
  let index := advance index key.length
  let buffer := store buffer index [ch ':']
  let index := advance index 1
  let buffer := store buffer index [ch ' ']
  let index := advance index 1
  let buffer := store buffer index value
  let index := advance index value.length
  let buffer := store buffer index [ch '\r']
  let index := advance index 1
  let buffer := store buffer index [ch '\n']
  let index := advance index 1
  (buffer, index)

/-- The `try` block of `toRawDataWithoutBody`, with the index it ends at. -/
def writeWithoutBody (response : HttpResponse) (buffer : Memory UInt8) :
    Except (ResponseError × Memory UInt8) (Memory UInt8 × ℤ) := do
  let index := 0
  let buffer := store buffer index (ascii "HTTP/")
  let index := advance index 5
  let (buffer, index) ← storeVersion response.version_ buffer index
  let buffer := store buffer index [ch ' ']
  let index := advance index 1
  let code ← (firstBytes (codeData response.statusCode_) 3).mapError fun e => (e, buffer)
  let buffer := store buffer index code
  let index := advance index 3
  let buffer := store buffer index [ch ' ']
  let index := advance index 1
  let statusText := getStatusText response.statusCode_
  if statusText = [] then
    throw (.invalid_argument "未知的 http response status code", buffer)
  let buffer := store buffer index statusText
  let index := advance index statusText.length
  let buffer := store buffer index (ascii "\r\n")
  let index := advance index 2
  let (buffer, index) := response.headers_.entries.foldl storeHeader (buffer, index)
  let buffer := store buffer index [ch '\r']
  let index := advance index 1
  let buffer := store buffer index [ch '\n']
  let index := advance index 1
  return (buffer, index)

/-- `toRawDataWithoutBody`; `none` when its behaviour is undefined. -/
def toRawDataWithoutBody (response : HttpResponse) (buffer : Memory UInt8) :
    Option (Memory UInt8) :=
  match response.writeWithoutBody buffer with
  | .ok (buffer, _) => some buffer
  | .error (.out_of_range _, buffer) => some buffer
  | .error (.invalid_argument _, buffer) => some buffer
  | .error (.undefined, _) => none

end HttpResponse

end CoUringWeb
