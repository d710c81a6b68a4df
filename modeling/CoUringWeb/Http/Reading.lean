import CoUringWeb.Http.Request

/-!
# The texts that `fromRawData` accepts

A `RequestText` is a request with everything its bytes say: the method and the version, the URL,
each header line with the spaces after its colon, and the body.  `parse_eq_ok_iff` states that
`fromRawData` accepts exactly the bytes of the texts that are `Scanned`, and what request it makes
of one.

The scans of the parser run to the next delimiter and do not stop at the end of a line.  So a
scanned text may have line ends in its URL and in the names of its headers: only the byte that ends
the scan is excluded.
-/

namespace CoUringWeb

open Machine

/-! ## Texts -/

def HttpMethod.text : HttpMethod → Bytes
  | .METHOD_NOTHING => []
  | .GET => ascii "GET"
  | .POST => ascii "POST"
  | .HEAD => ascii "HEAD"
  | .PUT => ascii "PUT"
  | .PATCH => ascii "PATCH"
  | .DELETE => ascii "DELETE"

def HttpVersion.text : HttpVersion → Bytes
  | .VERSION_NOTHING => []
  | .V9 => ascii "0.9"
  | .V10 => ascii "1.0"
  | .V11 => ascii "1.1"

theorem HttpMethod.space_notMem_text (m : HttpMethod) : ch ' ' ∉ m.text := by
  cases m <;> decide

theorem HttpVersion.length_text {v : HttpVersion} (h : v ≠ .VERSION_NOTHING) :
    v.text.length = 3 := by
  cases v with
  | VERSION_NOTHING => exact absurd rfl h
  | V9 | V10 | V11 => rfl

def crlf : Bytes := [ch '\r', ch '\n']

theorem ascii_crlf : ascii "\r\n" = crlf := rfl

theorem crlf_length : crlf.length = 2 := rfl

theorem http_length : (ascii "HTTP/").length = 5 := rfl

/-- A header line: its name, the number of spaces after the colon, and its value. -/
structure HeaderText where
  name : Bytes
  spaces : ℕ
  value : Bytes
  deriving DecidableEq, Repr

namespace HeaderText

def line (t : HeaderText) : Bytes :=
  t.name ++ ch ':' :: (List.replicate t.spaces (ch ' ') ++ (t.value ++ crlf))

theorem length_line (t : HeaderText) :
    t.line.length = t.name.length + 1 + t.spaces + t.value.length + 2 := by
  simp [line, crlf]
  omega

/-- A line is blank when its name begins with a line end. -/
theorem take_line_append {t : HeaderText} {tail : Bytes} :
    (t.line ++ tail).take 2 = crlf ↔ t.name.take 2 = crlf := by
  obtain ⟨name, spaces, value⟩ := t
  match name with
  | [] => simp [line, crlf, ch]
  | [c] => simp [line, crlf, ch]
  | c :: d :: name => simp [line]

/-- The scans of the parser stop where the name, the spaces and the value end. -/
structure Scanned (t : HeaderText) : Prop where
  name : ch ':' ∉ t.name
  begins : t.name.take 2 ≠ crlf
  value : ch '\r' ∉ t.value
  value_head : t.value.head? ≠ some (ch ' ')

end HeaderText

structure RequestText where
  method : HttpMethod
  url : Bytes
  version : HttpVersion
  headers : List HeaderText
  body : Bytes
  deriving DecidableEq, Repr

namespace RequestText

/-- The request line up to its end. -/
def requestLine (t : RequestText) : Bytes :=
  t.method.text ++ ch ' ' :: (t.url ++ ch ' ' :: (ascii "HTTP/" ++ t.version.text))

def bytes (t : RequestText) : Bytes :=
  t.requestLine ++ (crlf ++ (t.headers.flatMap HeaderText.line ++ (crlf ++ t.body)))

structure Scanned (t : RequestText) : Prop where
  method : t.method ≠ .METHOD_NOTHING
  url : ch ' ' ∉ t.url
  version : t.version ≠ .VERSION_NOTHING
  headers : ∀ h ∈ t.headers, h.Scanned

/-- The request that `fromRawData` makes of the text: the first value of each name, and the body
when it has two bytes at least. -/
def request (t : RequestText) : HttpRequest :=
  { url_ := t.url
    headers_ := t.headers.foldl (fun m h => m.insert h.name h.value) ∅
    body_ := if 2 ≤ t.body.length then t.body else []
    method_ := t.method
    version_ := t.version }

theorem find_headers (t : RequestText) (name : Bytes) :
    t.request.headers_.find name =
      (t.headers.find? fun h => h.name = name).map HeaderText.value := by
  rw [request, SortedMap.find_foldl_insert, SortedMap.find_empty, Option.none_or]
  congr!

end RequestText

namespace HttpRequest

/-! ## Reading at a position -/

/-- `rest` is what comes from `index` on. -/
def At (raw : Bytes) (index : ℕ) (rest : Bytes) : Prop :=
  index ≤ raw.length ∧ raw.drop index = rest

variable {raw rest : Bytes} {index : ℕ}

theorem at_zero (raw : Bytes) : At raw 0 raw := ⟨Nat.zero_le _, rfl⟩

theorem at_of_eq_append {s tail : Bytes} (h : raw = s ++ tail) : At raw s.length tail := by
  rw [h]
  exact ⟨by simp, List.drop_left⟩

theorem At.append {s tail : Bytes} (h : At raw index (s ++ tail)) :
    At raw (index + s.length) tail := by
  obtain ⟨hle, hdrop⟩ := h
  have hlen := congrArg List.length hdrop
  rw [List.length_drop, List.length_append] at hlen
  refine ⟨by omega, ?_⟩
  rw [← List.drop_drop, hdrop, List.drop_left]

theorem At.advance {s tail : Bytes} {n : ℕ} (h : At raw index (s ++ tail)) (hn : s.length = n) :
    At raw (index + n) tail :=
  hn ▸ h.append

theorem At.succ {c : UInt8} {tail : Bytes} (h : At raw index (c :: tail)) :
    At raw (index + 1) tail :=
  At.append (s := [c]) h

theorem At.length_eq (h : At raw index rest) : raw.length = index + rest.length := by
  obtain ⟨hle, rfl⟩ := h
  rw [List.length_drop]
  omega

theorem At.charAt_eq_ok (h : At raw index rest) {c : UInt8} :
    charAt raw index = .ok c ↔ ∃ tail, rest = c :: tail := by
  obtain ⟨hle, rfl⟩ := h
  unfold charAt
  cases hget : raw[index]? with
  | none =>
    have hnil : raw.drop index = [] := List.drop_eq_nil_iff.2 (List.getElem?_eq_none_iff.1 hget)
    simp [hnil]
  | some d =>
    obtain ⟨hlt, rfl⟩ := List.getElem?_eq_some_iff.1 hget
    constructor
    · rintro ⟨⟩
      exact ⟨_, List.drop_eq_getElem_cons hlt⟩
    · rintro ⟨tail, htail⟩
      rw [List.drop_eq_getElem_cons hlt, List.cons.injEq] at htail
      rw [htail.1]

theorem At.substr (h : At raw index rest) (n : ℕ) : substr raw index n = .ok (rest.take n) := by
  rw [HttpRequest.substr, if_pos h.1, h.2]

theorem At.scanWhile_eq_ok (h : At raw index rest) {p : UInt8 → Bool} {stop : ℕ} :
    scanWhile p raw index = .ok stop ↔ ∃ run c tail, rest = run ++ c :: tail ∧
      (∀ x ∈ run, p x = true) ∧ p c = false ∧ stop = index + run.length := by
  obtain ⟨hle, rfl⟩ := h
  refine ⟨scanFrom_eq_ok, ?_⟩
  rintro ⟨run, c, tail, hdrop, hrun, hc, rfl⟩
  rw [scanWhile, hdrop]
  clear hdrop hle
  induction run generalizing index with
  | nil => simp [scanFrom, hc]
  | cons x run ih =>
    rw [List.forall_mem_cons] at hrun
    rw [List.cons_append, scanFrom, if_pos hrun.1, ih hrun.2, List.length_cons]
    congr 1
    omega

/-- The scan up to a delimiter. -/
theorem At.scanTo_eq_ok (h : At raw index rest) {d : UInt8} {stop : ℕ} :
    scanWhile (fun c => c ≠ d) raw index = .ok stop ↔ ∃ run tail, rest = run ++ d :: tail ∧
      d ∉ run ∧ stop = index + run.length := by
  rw [h.scanWhile_eq_ok]
  constructor
  · rintro ⟨run, c, tail, hrest, hrun, hc, hstop⟩
    obtain rfl : c = d := by simpa using hc
    exact ⟨run, tail, hrest, fun hmem => by simpa using hrun _ hmem, hstop⟩
  · rintro ⟨run, tail, hrest, hrun, hstop⟩
    refine ⟨run, d, tail, hrest, fun x hx => ?_, by simp, hstop⟩
    simpa using ne_of_mem_of_not_mem hx hrun

/-- The scan over a run of one byte. -/
theorem At.scanOver_eq_ok (h : At raw index rest) {d : UInt8} {stop : ℕ} :
    scanWhile (fun c => c = d) raw index = .ok stop ↔ ∃ n tail,
      rest = List.replicate n d ++ tail ∧ tail ≠ [] ∧ tail.head? ≠ some d ∧ stop = index + n := by
  rw [h.scanWhile_eq_ok]
  constructor
  · rintro ⟨run, c, tail, hrest, hrun, hc, hstop⟩
    have heq : run = List.replicate run.length d :=
      List.eq_replicate_of_mem fun x hx => by simpa using hrun x hx
    rw [heq] at hrest
    exact ⟨run.length, c :: tail, hrest, List.cons_ne_nil _ _, by simpa using hc, hstop⟩
  · rintro ⟨n, tail, hrest, hne, hhead, hstop⟩
    obtain ⟨c, tail, rfl⟩ := List.exists_cons_of_ne_nil hne
    refine ⟨List.replicate n d, c, tail, hrest, fun x hx => ?_, by simpa using hhead, ?_⟩
    · simpa using List.eq_of_mem_replicate hx
    · rw [List.length_replicate, hstop]

/-- A text of known length starts there. -/
theorem take_eq_iff {s : Bytes} {n : ℕ} (hn : s.length = n) :
    rest.take n = s ↔ ∃ tail, rest = s ++ tail := by
  constructor
  · rintro rfl
    exact ⟨rest.drop n, (List.take_append_drop n rest).symm⟩
  · rintro ⟨tail, rfl⟩
    rw [← hn, List.take_left]

/-! ## The request line -/

theorem parseMethod_eq_ok {m : HttpMethod} :
    parseMethod raw = .ok (m, index) ↔
      m ≠ .METHOD_NOTHING ∧ index = m.text.length ∧ ∃ tail, raw = m.text ++ tail := by
  constructor
  · intro h
    obtain ⟨c, -, h⟩ := Exceptions.bind_eq_ok.1 h
    simp only [(at_zero raw).substr, Exceptions.ok_bind] at h
    split_ifs at h with _ hget _ hpost hput hpatch _ hdelete _ hhead <;> cases h
    · exact ⟨by decide, rfl, (take_eq_iff rfl).1 hget⟩
    · exact ⟨by decide, rfl, (take_eq_iff rfl).1 hpost⟩
    · exact ⟨by decide, rfl, (take_eq_iff rfl).1 hput⟩
    · exact ⟨by decide, rfl, (take_eq_iff rfl).1 hpatch⟩
    · exact ⟨by decide, rfl, (take_eq_iff rfl).1 hdelete⟩
    · exact ⟨by decide, rfl, (take_eq_iff rfl).1 hhead⟩
  · rintro ⟨hm, rfl, tail, rfl⟩
    cases m with
    | METHOD_NOTHING => exact absurd rfl hm
    | GET | POST | HEAD | PUT | PATCH | DELETE => rfl

theorem At.parseVersion_eq_ok (h : At raw index rest) {v : HttpVersion} :
    parseVersion raw index = .ok v ↔
      v ≠ .VERSION_NOTHING ∧ ∃ tail, rest = v.text ++ tail := by
  unfold parseVersion
  simp only [h.substr, Exceptions.ok_bind]
  constructor
  · intro h
    split_ifs at h with h9 h10 h11 <;> cases h
    · exact ⟨by decide, (take_eq_iff rfl).1 h9⟩
    · exact ⟨by decide, (take_eq_iff rfl).1 h10⟩
    · exact ⟨by decide, (take_eq_iff rfl).1 h11⟩
  · rintro ⟨hv, tail, rfl⟩
    cases v with
    | VERSION_NOTHING => exact absurd rfl hv
    | V9 | V10 | V11 => rfl

/-! ## The header lines -/

/-- What `parseHeader` reads is a header line; nothing says that its name is on one line. -/
theorem At.parseHeader_eq_ok (h : At raw index rest) {key value : Bytes} {next : ℕ} :
    parseHeader raw index = .ok (key, value, next) ↔
      ∃ (t : HeaderText) (tail : Bytes), rest = t.line ++ tail ∧
        ch ':' ∉ t.name ∧ ch '\r' ∉ t.value ∧ t.value.head? ≠ some (ch ' ') ∧
        key = t.name ∧ value = t.value ∧ next = index + t.line.length := by
  constructor
  · intro hparse
    obtain ⟨colon, hcolon, hparse⟩ := Exceptions.bind_eq_ok.1 hparse
    obtain ⟨name, rest₁, rfl, hname, rfl⟩ := h.scanTo_eq_ok.1 hcolon
    rw [h.substr, Nat.add_sub_cancel_left, List.take_left, Exceptions.ok_bind] at hparse
    have h₁ := h.append.succ
    obtain ⟨start, hstart, hparse⟩ := Exceptions.bind_eq_ok.1 hparse
    obtain ⟨n, rest₂, rfl, -, hhead, rfl⟩ := h₁.scanOver_eq_ok.1 hstart
    have h₂ := h₁.append
    rw [List.length_replicate] at h₂
    obtain ⟨stop, hstop, hparse⟩ := Exceptions.bind_eq_ok.1 hparse
    obtain ⟨val, rest₃, rfl, hval, rfl⟩ := h₂.scanTo_eq_ok.1 hstop
    rw [h₂.substr, Nat.add_sub_cancel_left, List.take_left, Exceptions.ok_bind,
      h₂.append.substr, Exceptions.ok_bind, Exceptions.ite_else_throw_eq_ok] at hparse
    obtain ⟨hend, hparse⟩ := hparse
    cases hparse
    obtain ⟨tail, htail⟩ := (take_eq_iff (by rfl)).1 hend
    refine ⟨⟨key, n, value⟩, tail, ?_, hname, hval, ?_, rfl, rfl, ?_⟩
    · rw [htail]
      simp [HeaderText.line, crlf, ascii]
    · intro hspace
      cases value with
      | nil => cases hspace
      | cons c cs => exact hhead hspace
    · simp [HeaderText.line, crlf]
      omega
  · rintro ⟨⟨_, n, _⟩, tail, rfl, hname, hval, hhead, rfl, rfl, rfl⟩
    rw [HeaderText.line] at h
    simp only [List.append_assoc, List.cons_append] at h
    have h₁ := h.append.succ
    have h₂ := h₁.append
    rw [List.length_replicate] at h₂
    unfold parseHeader
    rw [h.scanTo_eq_ok.2 ⟨_, _, rfl, hname, rfl⟩, Exceptions.ok_bind,
      h.substr, Nat.add_sub_cancel_left, List.take_left, Exceptions.ok_bind,
      h₁.scanOver_eq_ok.2 ⟨n, _, rfl, by simp [crlf], ?_, rfl⟩, Exceptions.ok_bind,
      h₂.scanTo_eq_ok.2 ⟨value, _, rfl, hval, rfl⟩, Exceptions.ok_bind,
      h₂.substr, Nat.add_sub_cancel_left, List.take_left, Exceptions.ok_bind,
      h₂.append.substr, Exceptions.ok_bind, if_pos (by rfl)]
    · have hnext : index + key.length + 1 + n + value.length + 2 =
          index + (HeaderText.mk key n value).line.length := by
        simp only [HeaderText.length_line]
        omega
      rw [hnext]
      rfl
    · intro hspace
      cases value with
      | nil => simp [crlf, ch] at hspace
      | cons c cs => exact hhead hspace

/-- The loop reads header lines up to a blank one. -/
theorem At.headerLoop_eq_ok (h : At raw index rest) {fuel : ℕ} (hfuel : rest.length < fuel)
    {headers headers' : SortedMap Bytes Bytes} {index' : ℕ} :
    headerLoop raw fuel index headers = .ok (headers', index') ↔
      ∃ (ts : List HeaderText) (tail : Bytes),
        rest = ts.flatMap HeaderText.line ++ (crlf ++ tail) ∧ (∀ t ∈ ts, t.Scanned) ∧
        headers' = ts.foldl (fun m t => m.insert t.name t.value) headers ∧
        index' = index + (ts.flatMap HeaderText.line).length := by
  induction fuel generalizing index rest headers with
  | zero => exact absurd hfuel (Nat.not_lt_zero _)
  | succ fuel ih =>
    rw [headerLoop, h.substr, Exceptions.ok_bind, ascii_crlf]
    constructor
    · intro hloop
      split at hloop
      · rename_i hblank
        cases hloop
        obtain ⟨tail, rfl⟩ := (take_eq_iff (by rfl)).1 hblank
        exact ⟨[], tail, rfl, by simp, rfl, rfl⟩
      · rename_i hblank
        obtain ⟨⟨key, value, next⟩, hheader, hloop⟩ := Exceptions.bind_eq_ok.1 hloop
        obtain ⟨t, tail, rfl, hname, hval, hhead, rfl, rfl, rfl⟩ := h.parseHeader_eq_ok.1 hheader
        rw [List.length_append, HeaderText.length_line] at hfuel
        obtain ⟨ts, tail', rfl, hts, hheaders, hindex⟩ := (ih h.append (by omega)).1 hloop
        have ht : t.Scanned :=
          ⟨hname, fun hbegins => hblank (HeaderText.take_line_append.2 hbegins), hval, hhead⟩
        refine ⟨t :: ts, tail', ?_, List.forall_mem_cons.2 ⟨ht, hts⟩, hheaders, ?_⟩
        · rw [List.flatMap_cons, List.append_assoc]
        · rw [hindex, List.flatMap_cons, List.length_append, Nat.add_assoc]
    · rintro ⟨ts, tail, rfl, hts, hheaders, hindex⟩
      cases ts with
      | nil =>
        rw [if_pos (by rfl), hheaders, hindex]
        rfl
      | cons t ts =>
        rw [List.forall_mem_cons] at hts
        obtain ⟨ht, hts⟩ := hts
        rw [List.flatMap_cons, List.append_assoc] at h hfuel ⊢
        rw [List.length_append, HeaderText.length_line] at hfuel
        rw [if_neg (fun hblank => ht.begins (HeaderText.take_line_append.1 hblank)),
          h.parseHeader_eq_ok.2 ⟨t, _, rfl, ht.name, ht.value, ht.value_head, rfl, rfl, rfl⟩,
          Exceptions.ok_bind]
        refine (ih h.append (by omega)).2 ⟨ts, tail, rfl, hts, hheaders, ?_⟩
        rw [hindex, List.flatMap_cons, List.length_append, Nat.add_assoc]

/-! ## The whole text -/

/-- The guard before the body takes a rest of one byte for no body. -/
theorem At.body_eq (h : At raw index rest) (hpos : 1 ≤ raw.length)
    (f : Bytes → Except RequestError HttpRequest) :
    (if index < sizeSub raw.length 1 then HttpRequest.substr raw index (raw.length - index) >>= f
      else pure [] >>= f) = f (if 2 ≤ rest.length then rest else []) := by
  have hlen := h.length_eq
  rw [sizeSub_of_le hpos]
  by_cases hbody : 2 ≤ rest.length
  · rw [if_pos (by omega), if_pos hbody, h.substr, Exceptions.ok_bind,
      List.take_of_length_le (by omega)]
  · rw [if_neg (by omega), if_neg hbody]
    rfl

/-- `fromRawData` accepts the scanned texts. -/
theorem parse_eq_ok_iff {req : HttpRequest} :
    parse raw = .ok req ↔ ∃ t : RequestText, t.Scanned ∧ t.bytes = raw ∧ req = t.request := by
  unfold parse
  simp only [Exceptions.throw_bind, ascii_crlf]
  constructor
  · intro h
    obtain ⟨⟨method, start⟩, hmethod, h⟩ := Exceptions.bind_eq_ok.1 h
    obtain ⟨hm, rfl, rest, hraw⟩ := parseMethod_eq_ok.1 hmethod
    have h₀ := at_of_eq_append hraw
    obtain ⟨c, hc, h⟩ := Exceptions.bind_eq_ok.1 h
    obtain ⟨rest₁, rfl⟩ := h₀.charAt_eq_ok.1 hc
    simp only [Exceptions.ite_throw_eq_ok, not_ne_iff] at h
    obtain ⟨rfl, h⟩ := h
    have h₁ := h₀.succ
    obtain ⟨stop, hstop, h⟩ := Exceptions.bind_eq_ok.1 h
    obtain ⟨url, rest₂, rfl, hurl, rfl⟩ := h₁.scanTo_eq_ok.1 hstop
    have h₂ := h₁.append.succ
    simp only [h₁.substr, h₂.substr, Nat.add_sub_cancel_left, List.take_left, Exceptions.ok_bind,
      Exceptions.ite_throw_eq_ok, not_ne_iff] at h
    obtain ⟨hhttp, h⟩ := h
    obtain ⟨rest₃, rfl⟩ := (take_eq_iff http_length).1 hhttp
    have h₃ := h₂.advance http_length
    obtain ⟨version, hversion, h⟩ := Exceptions.bind_eq_ok.1 h
    obtain ⟨hv, rest₄, rfl⟩ := h₃.parseVersion_eq_ok.1 hversion
    have h₄ := h₃.advance (HttpVersion.length_text hv)
    simp only [h₄.substr, Exceptions.ok_bind, Exceptions.ite_throw_eq_ok, not_ne_iff] at h
    obtain ⟨hend, h⟩ := h
    obtain ⟨rest₅, rfl⟩ := (take_eq_iff crlf_length).1 hend
    have h₅ := h₄.advance crlf_length
    have hlen := h₅.length_eq
    obtain ⟨⟨headers, last⟩, hheaders, h⟩ := Exceptions.bind_eq_ok.1 h
    obtain ⟨ts, body, rfl, hts, rfl, rfl⟩ := (h₅.headerLoop_eq_ok (by omega)).1 hheaders
    have h₆ := h₅.append.advance crlf_length
    refine ⟨⟨method, url, version, ts, body⟩, ⟨hm, hurl, hv, hts⟩, ?_, ?_⟩
    · rw [hraw]
      simp [RequestText.bytes, RequestText.requestLine]
    · dsimp only at h
      rw [h₆.body_eq (by omega)] at h
      cases h
      rfl
  · rintro ⟨⟨method, url, version, ts, body⟩, ⟨hm, hurl, hv, hts⟩, hraw, rfl⟩
    have hraw' : raw = method.text ++ ch ' ' :: (url ++ ch ' ' :: (ascii "HTTP/" ++
        (version.text ++ (crlf ++ (ts.flatMap HeaderText.line ++ (crlf ++ body)))))) := by
      rw [← hraw]
      simp [RequestText.bytes, RequestText.requestLine]
    have h₀ := at_of_eq_append hraw'
    have h₁ := h₀.succ
    have h₂ := h₁.append.succ
    have h₃ := h₂.advance http_length
    have h₄ := h₃.advance (HttpVersion.length_text hv)
    have h₅ := h₄.advance crlf_length
    have hlen := h₅.length_eq
    have h₆ := h₅.append.advance crlf_length
    rw [parseMethod_eq_ok.2 ⟨hm, rfl, _, hraw'⟩, Exceptions.ok_bind,
      h₀.charAt_eq_ok.2 ⟨_, rfl⟩, Exceptions.ok_bind, if_neg (not_not.2 rfl),
      h₁.scanTo_eq_ok.2 ⟨_, _, rfl, hurl, rfl⟩, Exceptions.ok_bind,
      h₁.substr, Nat.add_sub_cancel_left, List.take_left, Exceptions.ok_bind,
      h₂.substr, (take_eq_iff http_length).2 ⟨_, rfl⟩, Exceptions.ok_bind,
      if_neg (not_not.2 rfl), h₃.parseVersion_eq_ok.2 ⟨hv, _, rfl⟩, Exceptions.ok_bind,
      h₄.substr, (take_eq_iff crlf_length).2 ⟨_, rfl⟩, Exceptions.ok_bind,
      if_neg (not_not.2 rfl), (h₅.headerLoop_eq_ok (by omega)).2 ⟨ts, body, rfl, hts, rfl, rfl⟩,
      Exceptions.ok_bind]
    exact h₆.body_eq (by omega) _

theorem fromRawData_eq_some_iff {req : HttpRequest} :
    fromRawData raw = some req ↔
      ∃ t : RequestText, t.Scanned ∧ t.bytes = raw ∧ req = t.request := by
  rw [← parse_eq_ok_iff, fromRawData]
  cases parse raw with
  | error e => simp [Except.toOption]
  | ok req' => simp [Except.toOption]

/-! ## Reading what was written -/

/-- The header block that `HttpResponse::toRawData` writes. -/
def headerBlock (headers : List (Bytes × Bytes)) : Bytes :=
  headers.flatMap fun h => h.1 ++ (ascii ": " ++ (h.2 ++ ascii "\r\n"))

/-- The text of a request with that header block. -/
def rawRequest (method : HttpMethod) (url : Bytes) (version : HttpVersion)
    (headers : List (Bytes × Bytes)) (body : Bytes) : Bytes :=
  method.text ++ (ascii " " ++ (url ++ (ascii " HTTP/" ++ (version.text ++ (ascii "\r\n" ++
    (headerBlock headers ++ (ascii "\r\n" ++ body)))))))

/-- A written header line has one space after its colon. -/
def writtenHeader (h : Bytes × Bytes) : HeaderText := ⟨h.1, 1, h.2⟩

theorem headerBlock_eq (headers : List (Bytes × Bytes)) :
    headerBlock headers = (headers.map writtenHeader).flatMap HeaderText.line := by
  rw [List.flatMap_map, headerBlock]
  congr

theorem rawRequest_eq (method : HttpMethod) (url : Bytes) (version : HttpVersion)
    (headers : List (Bytes × Bytes)) (body : Bytes) :
    rawRequest method url version headers body =
      (RequestText.mk method url version (headers.map writtenHeader) body).bytes := by
  rw [rawRequest, headerBlock_eq, RequestText.bytes, RequestText.requestLine]
  simp [ascii, crlf]

theorem writtenHeader_scanned {h : Bytes × Bytes} (hname : ch ':' ∉ h.1 ∧ ch '\r' ∉ h.1)
    (hvalue : ch '\r' ∉ h.2 ∧ h.2.head? ≠ some (ch ' ')) : (writtenHeader h).Scanned := by
  refine ⟨hname.1, fun hbegins => hname.2 ?_, hvalue.1, hvalue.2⟩
  exact List.mem_of_mem_take (hbegins ▸ List.mem_cons_self : ch '\r' ∈ h.1.take 2)

/-- A written request is read back, with the first value of each name. -/
theorem fromRawData_rawRequest {method : HttpMethod} {url : Bytes} {version : HttpVersion}
    {headers : List (Bytes × Bytes)} (body : Bytes) (hmethod : method ≠ .METHOD_NOTHING)
    (hurl : ch ' ' ∉ url) (hversion : version ≠ .VERSION_NOTHING)
    (hnames : ∀ h ∈ headers, ch ':' ∉ h.1 ∧ ch '\r' ∉ h.1)
    (hvalues : ∀ h ∈ headers, ch '\r' ∉ h.2 ∧ h.2.head? ≠ some (ch ' ')) :
    ∃ req, fromRawData (rawRequest method url version headers body) = some req ∧
      req.method_ = method ∧ req.url_ = url ∧ req.version_ = version ∧
      ∀ name, req.headers_.find name = (headers.find? fun h => h.1 = name).map Prod.snd := by
  let t : RequestText := ⟨method, url, version, headers.map writtenHeader, body⟩
  have hscanned : t.Scanned := by
    refine ⟨hmethod, hurl, hversion, fun line hline => ?_⟩
    obtain ⟨h, hmem, rfl⟩ := List.mem_map.1 hline
    exact writtenHeader_scanned (hnames h hmem) (hvalues h hmem)
  refine ⟨t.request, fromRawData_eq_some_iff.2 ⟨t, hscanned, (rawRequest_eq ..).symm, rfl⟩,
    rfl, rfl, rfl, fun name => ?_⟩
  rw [RequestText.find_headers, List.find?_map, Option.map_map]
  rfl

theorem fromRawData_rawRequest_twoHeaders :
    ∃ req, fromRawData (rawRequest .PUT (ascii "/a") .V10
        [(ascii "Host", ascii "x"), (ascii "Host", ascii "y: z")] (ascii "a: b\r\n")) = some req ∧
      req.method_ = .PUT ∧ req.url_ = ascii "/a" ∧ req.version_ = .V10 ∧
      ∀ name, req.headers_.find name =
        ([(ascii "Host", ascii "x"), (ascii "Host", ascii "y: z")].find?
          fun h => h.1 = name).map Prod.snd :=
  fromRawData_rawRequest (ascii "a: b\r\n") (by decide) (by decide) (by decide) (by decide)
    (by decide)

end HttpRequest

end CoUringWeb
