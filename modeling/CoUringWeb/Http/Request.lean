import CoUringWeb.Framework.Exceptions
import CoUringWeb.Framework.Machine
import CoUringWeb.Framework.SortedMap
import Mathlib.Data.List.Lex

/-!
# `HttpRequest`

Requests and their parser, `HttpRequest::fromRawData` of `src/http.cpp`.  The parser walks over the
text with an `int` index; texts are shorter than `2 ^ 31` bytes, so the index is a number here.
`at` and `substr` throw `out_of_range` past the end, the parser throws `invalid_argument`, and
`fromRawData` turns both into `nullopt` (after a log line).

The four scanning loops of the source (the URL, a header's name, the spaces after the colon, a
header's value) advance the index while `at(index)` meets a condition; they are `scanWhile` with
that condition.  The loop over the header lines carries fuel; each turn moves the index on, so
`raw.length + 1` turns are enough (`headerLoop_ne_fuel`).
-/

namespace CoUringWeb

open Machine

inductive HttpMethod where
  | METHOD_NOTHING
  | GET
  | POST
  | HEAD
  | PUT
  | PATCH
  | DELETE
  deriving DecidableEq, Repr

inductive HttpVersion where
  | VERSION_NOTHING
  | V9
  | V10
  | V11
  deriving DecidableEq, Repr

/-- The fields of `HttpRequest` with their initialisers. -/
structure HttpRequest where
  url_ : Bytes := []
  headers_ : SortedMap Bytes Bytes := ∅
  body_ : Bytes := []
  method_ : HttpMethod := .METHOD_NOTHING
  version_ : HttpVersion := .VERSION_NOTHING
  deriving DecidableEq

/-- What `fromRawData` throws inside its `try` block. -/
inductive RequestError where
  | out_of_range
  | invalid_argument (what : String)
  /-- the fuel of `headerLoop` ran out; this never happens -/
  | fuel
  deriving DecidableEq, Repr

namespace HttpRequest

/-- `getUrl`; `front` of the empty string reads its terminator. -/
def getUrl (req : HttpRequest) : Bytes :=
  if req.url_ = ascii "/" then ascii "index.html"
  else if req.url_.headD 0 = ch '/' then req.url_.drop 1
  else req.url_

/-! ## Reading the text -/

/-- `raw.at(index)` -/
def charAt (raw : Bytes) (index : ℕ) : Except RequestError UInt8 :=
  match raw[index]? with
  | some c => .ok c
  | none => .error .out_of_range

/-- `raw.substr(index, n)` -/
def substr (raw : Bytes) (index n : ℕ) : Except RequestError Bytes :=
  if index ≤ raw.length then .ok ((raw.drop index).take n) else .error .out_of_range

/-- `while (p(raw.at(index))) index++`, on the text from `index` on. -/
def scanFrom (p : UInt8 → Bool) : Bytes → ℕ → Except RequestError ℕ
  | [], _ => .error .out_of_range
  | c :: cs, index => if p c then scanFrom p cs (index + 1) else .ok index

def scanWhile (p : UInt8 → Bool) (raw : Bytes) (index : ℕ) : Except RequestError ℕ :=
  scanFrom p (raw.drop index) index

/-! ## The parser -/

/-- The `switch` on the first byte: the method and the index after it. -/
def parseMethod (raw : Bytes) : Except RequestError (HttpMethod × ℕ) := do
  let c ← charAt raw 0
  if c = ch 'G' then
    if (← substr raw 0 3) = ascii "GET" then return (.GET, 3)
    else throw (.invalid_argument "http请求方法错误")
  else if c = ch 'P' then
    if (← substr raw 0 4) = ascii "POST" then return (.POST, 4)
    else if (← substr raw 0 3) = ascii "PUT" then return (.PUT, 3)
    else if (← substr raw 0 5) = ascii "PATCH" then return (.PATCH, 5)
    else throw (.invalid_argument "http请求方法错误")
  else if c = ch 'D' then
    if (← substr raw 0 6) = ascii "DELETE" then return (.DELETE, 6)
    else throw (.invalid_argument "http请求方法错误")
  else if c = ch 'H' then
    if (← substr raw 0 4) = ascii "HEAD" then return (.HEAD, 4)
    else throw (.invalid_argument "http请求方法错误")
  else throw (.invalid_argument "http请求方法错误")

/-- The version after `HTTP/`. -/
def parseVersion (raw : Bytes) (index : ℕ) : Except RequestError HttpVersion := do
  if (← substr raw index 3) = ascii "0.9" then return .V9
  else if (← substr raw index 3) = ascii "1.0" then return .V10
  else if (← substr raw index 3) = ascii "1.1" then return .V11
  else throw (.invalid_argument "http版本错误")

/-- One header line: its name, its value and the index after it. -/
def parseHeader (raw : Bytes) (index : ℕ) : Except RequestError (Bytes × Bytes × ℕ) := do
  let colon ← scanWhile (fun c => c ≠ ch ':') raw index
  let key ← substr raw index (colon - index)
  let begin ← scanWhile (fun c => c = ch ' ') raw (colon + 1)
  let stop ← scanWhile (fun c => c ≠ ch '\r') raw begin
  let value ← substr raw begin (stop - begin)
  if (← substr raw stop 2) = ascii "\r\n" then return (key, value, stop + 2)
  else throw (.invalid_argument "http请求头格式错误")

/-- The loop over the header lines; `insert` keeps the first value of a name. -/
def headerLoop (raw : Bytes) :
    ℕ → ℕ → SortedMap Bytes Bytes → Except RequestError (SortedMap Bytes Bytes × ℕ)
  | 0, _, _ => throw .fuel
  | fuel + 1, index, headers => do
    if (← substr raw index 2) = ascii "\r\n" then return (headers, index)
    else
      let (key, value, next) ← parseHeader raw index
      headerLoop raw fuel next (headers.insert key value)

/-- The `try` block of `fromRawData`. -/
def parse (raw : Bytes) : Except RequestError HttpRequest := do
  let (method, index) ← parseMethod raw
  if (← charAt raw index) ≠ ch ' ' then throw (.invalid_argument "http请求方法后不是空格")
  let begin := index + 1
  let stop ← scanWhile (fun c => c ≠ ch ' ') raw begin
  let url ← substr raw begin (stop - begin)
  let index := stop + 1
  if (← substr raw index 5) ≠ ascii "HTTP/" then throw (.invalid_argument "http版本错误")
  let index := index + 5
  let version ← parseVersion raw index
  let index := index + 3
  if (← substr raw index 2) ≠ ascii "\r\n" then throw (.invalid_argument "http请求格式错误")
  let index := index + 2
  let (headers, index) ← headerLoop raw (raw.length + 1) index ∅
  let index := index + 2
  let body ←
    if index < sizeSub raw.length 1 then substr raw index (raw.length - index) else pure []
  return { url_ := url, headers_ := headers, body_ := body, method_ := method, version_ := version }

def fromRawData (raw : Bytes) : Option HttpRequest := (parse raw).toOption

/-! ## Bounds on the index -/

theorem substr_eq_ok {raw : Bytes} {index n : ℕ} {s : Bytes} (h : substr raw index n = .ok s) :
    index ≤ raw.length ∧ s = (raw.drop index).take n := by
  unfold substr at h
  split at h <;> cases h
  exact ⟨by assumption, rfl⟩

theorem substr_eq_error {raw : Bytes} {index n : ℕ} {e : RequestError}
    (h : substr raw index n = .error e) : e = .out_of_range := by
  unfold substr at h
  split at h <;> cases h
  rfl

/-- A scan stops at the first byte that does not meet the condition. -/
theorem scanFrom_eq_ok {p : UInt8 → Bool} {cs : Bytes} {index stop : ℕ}
    (h : scanFrom p cs index = .ok stop) :
    ∃ run c rest, cs = run ++ c :: rest ∧ (∀ x ∈ run, p x = true) ∧ p c = false ∧
      stop = index + run.length := by
  induction cs generalizing index with
  | nil => cases h
  | cons c cs ih =>
    unfold scanFrom at h
    split at h
    · rename_i hc
      obtain ⟨run, c', rest, rfl, hrun, hc', rfl⟩ := ih h
      refine ⟨c :: run, c', rest, rfl, List.forall_mem_cons.2 ⟨hc, hrun⟩, hc', ?_⟩
      rw [List.length_cons]
      omega
    · rename_i hc
      cases h
      exact ⟨[], c, cs, rfl, by simp, by simpa using hc, rfl⟩

theorem scanFrom_eq_error {p : UInt8 → Bool} {cs : Bytes} {index : ℕ} {e : RequestError}
    (h : scanFrom p cs index = .error e) : e = .out_of_range := by
  induction cs generalizing index with
  | nil =>
    cases h
    rfl
  | cons c cs ih =>
    unfold scanFrom at h
    split at h
    · exact ih h
    · cases h

theorem scanWhile_le {p : UInt8 → Bool} {raw : Bytes} {index stop : ℕ}
    (h : scanWhile p raw index = .ok stop) : index ≤ stop := by
  obtain ⟨run, c, rest, -, -, -, rfl⟩ := scanFrom_eq_ok h
  exact Nat.le_add_right _ _

/-- A header line is not empty and ends within the text. -/
theorem parseHeader_bounds {raw : Bytes} {index next : ℕ} {key value : Bytes}
    (h : parseHeader raw index = .ok (key, value, next)) :
    index + 2 < next ∧ next ≤ raw.length := by
  obtain ⟨colon, hcolon, h⟩ := Exceptions.bind_eq_ok.1 h
  obtain ⟨key', -, h⟩ := Exceptions.bind_eq_ok.1 h
  obtain ⟨begin, hbegin, h⟩ := Exceptions.bind_eq_ok.1 h
  obtain ⟨stop, hstop, h⟩ := Exceptions.bind_eq_ok.1 h
  obtain ⟨value', -, h⟩ := Exceptions.bind_eq_ok.1 h
  obtain ⟨tail, htail, h⟩ := Exceptions.bind_eq_ok.1 h
  split at h
  · rename_i heq
    cases h
    obtain ⟨-, rfl⟩ := substr_eq_ok htail
    have hlen : ((raw.drop stop).take 2).length = 2 := by rw [heq]; rfl
    rw [List.length_take, List.length_drop] at hlen
    have hle := scanWhile_le hcolon
    have hle' := scanWhile_le hbegin
    have hle'' := scanWhile_le hstop
    omega
  · cases h

theorem parseHeader_ne_fuel {raw : Bytes} {index : ℕ} : parseHeader raw index ≠ .error .fuel := by
  intro h
  have hscan : ∀ p i, scanWhile p raw i ≠ .error .fuel := fun p i hi => by
    cases scanFrom_eq_error hi
  have hsubstr : ∀ i n, substr raw i n ≠ .error .fuel := fun i n hi => by
    cases substr_eq_error hi
  rcases Exceptions.bind_eq_error.1 h with h | ⟨colon, -, h⟩
  · exact hscan _ _ h
  rcases Exceptions.bind_eq_error.1 h with h | ⟨key, -, h⟩
  · exact hsubstr _ _ h
  rcases Exceptions.bind_eq_error.1 h with h | ⟨begin, -, h⟩
  · exact hscan _ _ h
  rcases Exceptions.bind_eq_error.1 h with h | ⟨stop, -, h⟩
  · exact hscan _ _ h
  rcases Exceptions.bind_eq_error.1 h with h | ⟨value, -, h⟩
  · exact hsubstr _ _ h
  rcases Exceptions.bind_eq_error.1 h with h | ⟨tail, -, h⟩
  · exact hsubstr _ _ h
  split at h <;> cases h

/-- The loop over the header lines never runs out of fuel. -/
theorem headerLoop_ne_fuel {raw : Bytes} {fuel index : ℕ} {headers : SortedMap Bytes Bytes}
    (hpos : 0 < fuel) (hfuel : raw.length < fuel + index) :
    headerLoop raw fuel index headers ≠ .error .fuel := by
  induction fuel generalizing index headers with
  | zero => exact absurd hpos (lt_irrefl 0)
  | succ fuel ih =>
    intro h
    rcases Exceptions.bind_eq_error.1 h with h | ⟨line, -, h⟩
    · cases substr_eq_error h
    · split at h
      · cases h
      · rcases Exceptions.bind_eq_error.1 h with h | ⟨⟨key, value, next⟩, hheader, h⟩
        · exact parseHeader_ne_fuel h
        · have hbounds := parseHeader_bounds hheader
          exact ih (by omega) (by omega) h

end HttpRequest

end CoUringWeb
