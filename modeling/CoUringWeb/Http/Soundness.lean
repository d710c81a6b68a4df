import CoUringWeb.Framework.Delimiters
import CoUringWeb.Http.Reading

/-!
# Requests line by line

What a request should be made of: a request line and header lines that each stand on a line of
their own.  A text is `Proper` when no field has a line end in it.

`fromRawData` looks for the space after the URL and for the colon after a name without stopping at
the end of the line, and takes a line feed as part of a value.  `fromRawData_byLines_iff` says for
which accepted texts this does no harm: those whose lines, cut at each CRLF, have their own
delimiters (`LineDelimited`).
-/

namespace CoUringWeb

open Machine Delimiters

/-! ## Proper texts -/

/-- A field without line ends. -/
def Unbroken (s : Bytes) : Prop := ch '\r' ∉ s ∧ ch '\n' ∉ s

instance (s : Bytes) : Decidable (Unbroken s) := by
  unfold Unbroken; infer_instance

theorem unbroken_append {s t : Bytes} : Unbroken (s ++ t) ↔ Unbroken s ∧ Unbroken t := by
  simp only [Unbroken, List.mem_append, not_or]
  tauto

theorem unbroken_cons {c : UInt8} {s : Bytes} :
    Unbroken (c :: s) ↔ (c ≠ ch '\r' ∧ c ≠ ch '\n') ∧ Unbroken s := by
  simp only [Unbroken, List.mem_cons, not_or, ne_eq, eq_comm]
  tauto

theorem unbroken_replicate_space (n : ℕ) : Unbroken (List.replicate n (ch ' ')) := by
  constructor <;> intro h <;> exact absurd (List.eq_of_mem_replicate h) (by decide)

theorem HttpMethod.text_unbroken (m : HttpMethod) : Unbroken m.text := by
  cases m <;> decide

theorem HttpVersion.text_unbroken (v : HttpVersion) : Unbroken v.text := by
  cases v <;> decide

theorem HttpVersion.space_notMem_text (v : HttpVersion) : ch ' ' ∉ ascii "HTTP/" ++ v.text := by
  cases v <;> decide

namespace HeaderText

/-- A header line without its end. -/
def content (t : HeaderText) : Bytes :=
  t.name ++ ch ':' :: (List.replicate t.spaces (ch ' ') ++ t.value)

theorem line_eq (t : HeaderText) : t.line = t.content ++ crlf := by
  simp [line, content]

structure Proper (t : HeaderText) : Prop where
  name : ch ':' ∉ t.name
  name_unbroken : Unbroken t.name
  value_unbroken : Unbroken t.value
  value_head : t.value.head? ≠ some (ch ' ')

theorem Proper.content_unbroken {t : HeaderText} (h : t.Proper) : Unbroken t.content := by
  rw [content, unbroken_append, unbroken_cons, unbroken_append]
  exact ⟨h.name_unbroken, by decide, unbroken_replicate_space _, h.value_unbroken⟩

theorem colon_mem_content (t : HeaderText) : ch ':' ∈ t.content :=
  List.mem_append_right _ List.mem_cons_self

end HeaderText

namespace RequestText

structure Proper (t : RequestText) : Prop where
  method : t.method ≠ .METHOD_NOTHING
  url_ne_nil : t.url ≠ []
  url : ch ' ' ∉ t.url
  url_unbroken : Unbroken t.url
  version : t.version ≠ .VERSION_NOTHING
  headers : ∀ h ∈ t.headers, h.Proper

/-- Only the URL can bring a line end into a request line. -/
theorem mem_requestLine {t : RequestText} {c : UInt8} (hc : c = ch '\r' ∨ c = ch '\n') :
    c ∈ t.requestLine ↔ c ∈ t.url := by
  have hmethod : c ∉ t.method.text := by
    rcases hc with rfl | rfl
    exacts [t.method.text_unbroken.1, t.method.text_unbroken.2]
  have hversion : c ∉ t.version.text := by
    rcases hc with rfl | rfl
    exacts [t.version.text_unbroken.1, t.version.text_unbroken.2]
  have hrest : c ≠ ch ' ' ∧ c ∉ ascii "HTTP/" := by
    rcases hc with rfl | rfl <;> decide
  simp only [requestLine, List.mem_append, List.mem_cons]
  tauto

theorem requestLine_unbroken_iff (t : RequestText) : Unbroken t.requestLine ↔ Unbroken t.url :=
  and_congr (not_congr (mem_requestLine (Or.inl rfl))) (not_congr (mem_requestLine (Or.inr rfl)))

end RequestText

/-! ## Lines of a text -/

/-- The lines of a text, cut at each CRLF. -/
def linesOf (raw : Bytes) : List Bytes := lines (ch '\r') (ch '\n') raw

/-- The lines between the first one and the first blank one. -/
def headerLines (raw : Bytes) : List Bytes := (linesOf raw).tail.takeWhile fun l => l ≠ []

/-- Three parts with single spaces between them, and the second not empty. -/
def RequestLineShape (l : Bytes) : Prop :=
  match l.splitOn (ch ' ') with
  | [_, url, _] => url ≠ []
  | _ => False

instance (l : Bytes) : Decidable (RequestLineShape l) := by
  unfold RequestLineShape; split <;> infer_instance

/-- The first line has the two spaces of a request line, each header line has a colon, and none of
them has a lone CR or LF. -/
def LineDelimited (raw : Bytes) : Prop :=
  (∀ l ∈ (linesOf raw).head?, RequestLineShape l ∧ Unbroken l) ∧
    ∀ l ∈ headerLines raw, ch ':' ∈ l ∧ Unbroken l

instance (raw : Bytes) : Decidable (LineDelimited raw) := by
  unfold LineDelimited; infer_instance

theorem linesOf_ne_nil (raw : Bytes) : linesOf raw ≠ [] := lines_ne_nil raw

theorem linesOf_append {l rest : Bytes} (hl : Unbroken l) :
    linesOf (l ++ (crlf ++ rest)) = l :: linesOf rest :=
  lines_append hl.1

/-! ### The lines of a proper text -/

theorem linesOf_flatMap {ts : List HeaderText} (hts : ∀ t ∈ ts, t.Proper) (rest : Bytes) :
    linesOf (ts.flatMap HeaderText.line ++ rest) = ts.map HeaderText.content ++ linesOf rest := by
  induction ts with
  | nil => rfl
  | cons t ts ih =>
    rw [List.forall_mem_cons] at hts
    rw [List.flatMap_cons, HeaderText.line_eq, List.append_assoc, List.append_assoc,
      linesOf_append hts.1.content_unbroken, ih hts.2, List.map_cons, List.cons_append]

namespace RequestText

variable {t : RequestText}

theorem splitOn_requestLine (hurl : ch ' ' ∉ t.url) :
    t.requestLine.splitOn (ch ' ') = [t.method.text, t.url, ascii "HTTP/" ++ t.version.text] := by
  rw [requestLine, List.splitOn_append_cons_self_of_not_mem t.method.space_notMem_text,
    List.splitOn_append_cons_self_of_not_mem hurl,
    List.splitOn_eq_singleton t.version.space_notMem_text]

theorem Proper.linesOf_bytes (h : t.Proper) :
    linesOf t.bytes =
      t.requestLine :: (t.headers.map HeaderText.content ++ [] :: linesOf t.body) := by
  rw [bytes, linesOf_append (t.requestLine_unbroken_iff.2 h.url_unbroken),
    linesOf_flatMap h.headers, ← List.nil_append (crlf ++ t.body),
    linesOf_append ⟨List.not_mem_nil, List.not_mem_nil⟩]

theorem Proper.headerLines_bytes (h : t.Proper) :
    headerLines t.bytes = t.headers.map HeaderText.content := by
  rw [headerLines, h.linesOf_bytes, List.tail_cons, List.takeWhile_append_of_pos]
  · simp
  · intro l hl
    obtain ⟨header, -, rfl⟩ := List.mem_map.1 hl
    simpa using List.ne_nil_of_mem header.colon_mem_content

theorem Proper.lineDelimited (h : t.Proper) : LineDelimited t.bytes := by
  constructor
  · intro l hl
    rw [h.linesOf_bytes] at hl
    cases hl
    refine ⟨?_, t.requestLine_unbroken_iff.2 h.url_unbroken⟩
    rw [RequestLineShape, splitOn_requestLine h.url]
    exact h.url_ne_nil
  · intro l hl
    rw [h.headerLines_bytes] at hl
    obtain ⟨header, hmem, rfl⟩ := List.mem_map.1 hl
    exact ⟨header.colon_mem_content, (h.headers _ hmem).content_unbroken⟩

end RequestText

/-! ### Lines that show a text to be proper -/

/-- A text with the CR-free `u` before a CR has the first line `u`, if that line is free of CR. -/
theorem head_linesOf {raw u v : Bytes} (hraw : raw = u ++ ch '\r' :: v) (hu : ch '\r' ∉ u)
    (h : ∀ l ∈ (linesOf raw).head?, ch '\r' ∉ l) : u ∈ (linesOf raw).head? := by
  obtain ⟨l, ls, hlines⟩ := List.exists_cons_of_ne_nil (linesOf_ne_nil raw)
  rw [hlines] at h ⊢
  obtain ⟨rfl, -⟩ := eq_of_lines_eq_cons hlines hraw (h l rfl) hu
  rfl

namespace HeaderText

variable {t : HeaderText}

/-- The colon of a line ends the name when no CR comes before it. -/
theorem Scanned.proper (h : t.Scanned) (rest : Bytes)
    (hlines : ∀ l ∈ (linesOf (t.line ++ rest)).head?, ch ':' ∈ l ∧ Unbroken l) :
    t.Proper := by
  have hcr : ∀ l ∈ (linesOf (t.line ++ rest)).head?, ch '\r' ∉ l :=
    fun l hl => (hlines l hl).2.1
  by_cases hname : ch '\r' ∈ t.name
  · -- the line would end within the name, before the colon
    obtain ⟨u, v, heq, hu⟩ := List.eq_append_cons_of_mem hname
    have hraw : t.line ++ rest = u ++ ch '\r' :: (v ++ ch ':' ::
        (List.replicate t.spaces (ch ' ') ++ (t.value ++ crlf)) ++ rest) := by
      rw [line, heq]
      simp
    have hcolon := (hlines u (head_linesOf hraw hu hcr)).1
    exact absurd (heq ▸ List.mem_append_left _ hcolon) h.name
  · have hcontent : ch '\r' ∉ t.content := by
      rw [content, List.mem_append, List.mem_cons, List.mem_append, not_or, not_or, not_or]
      exact ⟨hname, by decide, (unbroken_replicate_space _).1, h.value⟩
    have hraw : t.line ++ rest = t.content ++ ch '\r' :: (ch '\n' :: rest) := by
      rw [line_eq, crlf]
      simp
    have hunbroken := (hlines _ (head_linesOf hraw hcontent hcr)).2
    rw [content, unbroken_append, unbroken_cons, unbroken_append] at hunbroken
    exact ⟨h.name, hunbroken.1, hunbroken.2.2.2, h.value_head⟩

/-- A scanned line is not a blank one. -/
theorem Scanned.head_ne_nil (h : t.Scanned) (rest : Bytes) :
    ∀ l ∈ (linesOf (t.line ++ rest)).head?, l ≠ [] := by
  rintro l hl rfl
  obtain ⟨ls, hlines⟩ := List.head?_eq_some_iff.1 hl
  rcases eq_or_of_lines_eq_cons hlines with hnil | ⟨rest', heq, -⟩
  · have hlen := congrArg List.length hnil
    rw [List.length_append, length_line, List.length_nil] at hlen
    omega
  · exact h.begins (take_line_append.1 (by rw [heq]; rfl))

end HeaderText

theorem proper_of_headerLines {ts : List HeaderText} (hts : ∀ t ∈ ts, t.Scanned) {rest : Bytes}
    (h : ∀ l ∈ (linesOf (ts.flatMap HeaderText.line ++ rest)).takeWhile (fun l => l ≠ []),
      ch ':' ∈ l ∧ Unbroken l) :
    ∀ t ∈ ts, t.Proper := by
  induction ts with
  | nil => simp
  | cons t ts ih =>
    rw [List.forall_mem_cons] at hts ⊢
    rw [List.flatMap_cons, List.append_assoc] at h
    have hproper : t.Proper := by
      refine hts.1.proper (ts.flatMap HeaderText.line ++ rest) fun l hl => h l ?_
      obtain ⟨ls, hlines⟩ := List.head?_eq_some_iff.1 hl
      rw [hlines, List.takeWhile_cons, if_pos (by simpa using hts.1.head_ne_nil _ l hl)]
      exact List.mem_cons_self
    refine ⟨hproper, ih hts.2 fun l hl => h l ?_⟩
    rw [HeaderText.line_eq, List.append_assoc, linesOf_append hproper.content_unbroken,
      List.takeWhile_cons, if_pos (by simpa using List.ne_nil_of_mem t.colon_mem_content)]
    exact List.mem_cons_of_mem _ hl

namespace RequestText

/-- The second space of the first line ends the URL when no CR comes before it. -/
theorem Scanned.proper {t : RequestText} (h : t.Scanned) (hlines : LineDelimited t.bytes) :
    t.Proper := by
  obtain ⟨hfirst, hheaders⟩ := hlines
  have hcr : ∀ l ∈ (linesOf t.bytes).head?, ch '\r' ∉ l := fun l hl => (hfirst l hl).2.1
  by_cases hurl : ch '\r' ∈ t.url
  · obtain ⟨u, v, heq, hu⟩ := List.eq_append_cons_of_mem hurl
    have hspace : ch ' ' ∉ u := fun hmem => h.url (heq ▸ List.mem_append_left _ hmem)
    have hline : ch '\r' ∉ t.method.text ++ ch ' ' :: u := by
      rw [List.mem_append, List.mem_cons, not_or, not_or]
      exact ⟨t.method.text_unbroken.1, by decide, hu⟩
    have hraw : t.bytes = (t.method.text ++ ch ' ' :: u) ++ ch '\r' :: (v ++ ch ' ' ::
        (ascii "HTTP/" ++ t.version.text) ++
        (crlf ++ (t.headers.flatMap HeaderText.line ++ (crlf ++ t.body)))) := by
      rw [bytes, requestLine, heq]
      simp
    have hshape := (hfirst _ (head_linesOf hraw hline hcr)).1
    rw [RequestLineShape, List.splitOn_append_cons_self_of_not_mem t.method.space_notMem_text,
      List.splitOn_eq_singleton hspace] at hshape
    exact hshape.elim
  · have hline : ch '\r' ∉ t.requestLine := fun hmem => hurl ((mem_requestLine (Or.inl rfl)).1 hmem)
    have hraw : t.bytes = t.requestLine ++ ch '\r' :: (ch '\n' ::
        (t.headers.flatMap HeaderText.line ++ (crlf ++ t.body))) := by
      rw [bytes, crlf]
      simp
    obtain ⟨hshape, hunbroken⟩ := hfirst _ (head_linesOf hraw hline hcr)
    rw [RequestLineShape, splitOn_requestLine h.url] at hshape
    have hbytes : linesOf t.bytes =
        t.requestLine :: linesOf (t.headers.flatMap HeaderText.line ++ (crlf ++ t.body)) :=
      linesOf_append hunbroken
    rw [headerLines, hbytes] at hheaders
    exact ⟨h.method, hshape, h.url, t.requestLine_unbroken_iff.1 hunbroken, h.version,
      proper_of_headerLines h.headers hheaders⟩

end RequestText

/-! ## Soundness of the parser -/

/-- The request stands line by line in the text it was read from: the head is a request line and
header lines, and each header is the name and the value of one of them. -/
def ByLines (raw : Bytes) (req : HttpRequest) : Prop :=
  ∃ t : RequestText, t.Proper ∧ t.bytes = raw ∧
    ∀ name value, req.headers_.find name = some value →
      ∃ h ∈ t.headers, h.name = name ∧ h.value = value

/-- An accepted request was read line by line if and only if the lines of its text have their own
delimiters. -/
theorem fromRawData_byLines_iff {raw : Bytes} {req : HttpRequest}
    (h : HttpRequest.fromRawData raw = some req) : ByLines raw req ↔ LineDelimited raw := by
  constructor
  · rintro ⟨t, ht, rfl, -⟩
    exact ht.lineDelimited
  · intro hlines
    obtain ⟨t, ht, rfl, rfl⟩ := HttpRequest.fromRawData_eq_some_iff.1 h
    refine ⟨t, ht.proper hlines, rfl, fun name value hfind => ?_⟩
    rw [RequestText.find_headers, Option.map_eq_some_iff] at hfind
    obtain ⟨header, hheader, rfl⟩ := hfind
    exact ⟨header, List.mem_of_find?_eq_some hheader,
      by simpa using List.find?_some hheader, rfl⟩

theorem fromRawData_byLines_iff_host :
    ByLines (ascii "GET / HTTP/1.1\r\nHost: x\r\n\r\n")
      { url_ := ascii "/", method_ := .GET, version_ := .V11
        headers_ := (∅ : SortedMap Bytes Bytes).insert (ascii "Host") (ascii "x") } ↔
      LineDelimited (ascii "GET / HTTP/1.1\r\nHost: x\r\n\r\n") :=
  fromRawData_byLines_iff rfl

/-- A line without a colon becomes part of the next header's name. -/
theorem header_spans_lines :
    ∃ raw req, HttpRequest.fromRawData raw = some req ∧ ¬ ByLines raw req := by
  refine ⟨ascii "GET / HTTP/1.1\r\nfoo\r\nbar: x\r\n\r\n",
    { url_ := ascii "/", method_ := .GET, version_ := .V11
      headers_ := (∅ : SortedMap Bytes Bytes).insert (ascii "foo\r\nbar") (ascii "x") }, rfl, ?_⟩
  rintro ⟨t, ht, -, hheaders⟩
  obtain ⟨h, hmem, hname, -⟩ := hheaders (ascii "foo\r\nbar") (ascii "x") rfl
  have hbroken := (ht.headers h hmem).name_unbroken
  rw [hname] at hbroken
  exact absurd hbroken (by decide)

end CoUringWeb
