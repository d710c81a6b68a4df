import CoUringWeb.Framework.Delimiters
import CoUringWeb.Http.Reading

/-!
# The head of a request

A scanned text is determined by its bytes (`RequestText.Scanned.unique`), so an accepted request has
one head, which ends with the blank line after its headers (`HeadEnds`), and the rest is its body.

A request that is cut off is accepted exactly when its whole head is left, and then it is the same
request with a shorter body (`fromRawData_take`).  The body that the parser returns is the rest
after the head unless that is a single byte, which the guard before the body takes for nothing
(`body_eq_rest_iff`).
-/

namespace CoUringWeb

open Machine Delimiters

/-! ## Texts are determined by their bytes -/

theorem HttpMethod.text_injective : Function.Injective HttpMethod.text := by
  intro m m' h
  cases m <;> cases m' <;> first | rfl | exact absurd h (by decide)

theorem HttpVersion.text_injective : Function.Injective HttpVersion.text := by
  intro v v' h
  cases v <;> cases v' <;> first | rfl | exact absurd h (by decide)

namespace HeaderText

/-- The spaces after the colon end where the value begins. -/
theorem Scanned.value_cons {t : HeaderText} (h : t.Scanned) (s : Bytes) :
    ∃ c tail, t.value ++ ch '\r' :: ch '\n' :: s = c :: tail ∧ decide (c = ch ' ') = false := by
  have hhead := h.value_head
  cases hvalue : t.value with
  | nil => exact ⟨ch '\r', ch '\n' :: s, rfl, by decide⟩
  | cons c cs =>
    rw [hvalue, List.head?_cons] at hhead
    exact ⟨c, cs ++ ch '\r' :: ch '\n' :: s, rfl, by simpa using hhead⟩

theorem Scanned.unique {t t' : HeaderText} (h : t.Scanned) (h' : t'.Scanned) {s s' : Bytes}
    (heq : t.line ++ s = t'.line ++ s') : t = t' ∧ s = s' := by
  obtain ⟨name, spaces, value⟩ := t
  obtain ⟨name', spaces', value'⟩ := t'
  simp only [line, crlf, List.append_assoc, List.cons_append, List.nil_append] at heq
  obtain ⟨rfl, hrest⟩ := append_cons_inj h.name h'.name heq
  obtain ⟨c, tail, hc, hne⟩ := h.value_cons s
  obtain ⟨c', tail', hc', hne'⟩ := h'.value_cons s'
  dsimp only at hc hc'
  have hspaces : ∀ n, ∀ x ∈ List.replicate n (ch ' '), decide (x = ch ' ') = true := by
    intro n x hx
    simpa using List.eq_of_mem_replicate hx
  rw [hc, hc'] at hrest
  obtain ⟨hreplicate, rfl, rfl⟩ := span_unique (hspaces _) (hspaces _) hne hne' hrest
  have hlen : spaces = spaces' := by simpa using congrArg List.length hreplicate
  obtain ⟨rfl, hs⟩ := append_cons_inj h.value h'.value (hc.trans hc'.symm)
  exact ⟨by rw [hlen], (List.cons.inj hs).2⟩

end HeaderText

/-- Header lines end at the blank line. -/
theorem headerLines_unique {ts ts' : List HeaderText} (h : ∀ t ∈ ts, t.Scanned)
    (h' : ∀ t ∈ ts', t.Scanned) {s s' : Bytes}
    (heq : ts.flatMap HeaderText.line ++ (crlf ++ s) =
      ts'.flatMap HeaderText.line ++ (crlf ++ s')) : ts = ts' ∧ s = s' := by
  have hblank : ∀ {t : HeaderText} {rest tail : Bytes}, t.Scanned →
      crlf ++ tail ≠ t.line ++ rest := fun ht hline =>
    ht.begins (HeaderText.take_line_append.1 (by rw [← hline]; rfl))
  induction ts generalizing ts' with
  | nil =>
    cases ts' with
    | nil => exact ⟨rfl, List.append_cancel_left heq⟩
    | cons t' ts' =>
      rw [List.flatMap_cons, List.append_assoc] at heq
      exact absurd heq (hblank (h' t' List.mem_cons_self))
  | cons t ts ih =>
    rw [List.forall_mem_cons] at h
    cases ts' with
    | nil =>
      rw [List.flatMap_cons, List.append_assoc] at heq
      exact absurd heq.symm (hblank h.1)
    | cons t' ts' =>
      rw [List.forall_mem_cons] at h'
      simp only [List.flatMap_cons, List.append_assoc] at heq
      obtain ⟨rfl, hrest⟩ := h.1.unique h'.1 heq
      obtain ⟨rfl, rfl⟩ := ih h.2 h'.2 hrest
      exact ⟨rfl, rfl⟩

namespace RequestText

/-- A scanned text is determined by its bytes. -/
theorem Scanned.unique {t t' : RequestText} (h : t.Scanned) (h' : t'.Scanned)
    (heq : t.bytes = t'.bytes) : t = t' := by
  obtain ⟨method, url, version, headers, body⟩ := t
  obtain ⟨method', url', version', headers', body'⟩ := t'
  simp only [bytes, requestLine, List.append_assoc, List.cons_append] at heq
  obtain ⟨hmethod, hrest⟩ := append_cons_inj method.space_notMem_text method'.space_notMem_text heq
  obtain ⟨rfl, hline⟩ := append_cons_inj h.url h'.url hrest
  have hlen : version.text.length = version'.text.length :=
    (HttpVersion.length_text h.version).trans (HttpVersion.length_text h'.version).symm
  obtain ⟨hversion, hlines⟩ := List.append_inj (List.append_cancel_left hline) hlen
  obtain ⟨rfl, rfl⟩ := headerLines_unique h.headers h'.headers (List.append_cancel_left hlines)
  rw [HttpMethod.text_injective hmethod, HttpVersion.text_injective hversion]

/-! ## The head -/

/-- The request line and the header lines, with the blank line after them. -/
def head (t : RequestText) : Bytes :=
  t.requestLine ++ (crlf ++ (t.headers.flatMap HeaderText.line ++ crlf))

theorem bytes_eq (t : RequestText) : t.bytes = t.head ++ t.body := by
  simp only [bytes, head, List.append_assoc]

/-- The same head before another body. -/
def withBody (t : RequestText) (body : Bytes) : RequestText := { t with body := body }

@[simp] theorem head_withBody (t : RequestText) (body : Bytes) : (t.withBody body).head = t.head :=
  rfl

@[simp] theorem bytes_withBody (t : RequestText) (body : Bytes) :
    (t.withBody body).bytes = t.head ++ body :=
  bytes_eq _

theorem Scanned.withBody {t : RequestText} (h : t.Scanned) (body : Bytes) :
    (t.withBody body).Scanned :=
  ⟨h.method, h.url, h.version, h.headers⟩

/-- What comes before the body of a request does not depend on the body. -/
theorem request_withBody (t : RequestText) (body : Bytes) :
    (t.withBody body).request =
      { t.request with body_ := if 2 ≤ body.length then body else [] } :=
  rfl

end RequestText

/-- The head of the request in `raw` ends before the offset `h`. -/
def HeadEnds (raw : Bytes) (h : ℕ) : Prop :=
  ∃ t : RequestText, t.Scanned ∧ t.bytes = raw ∧ t.head.length = h

theorem headEnds_iff {t : RequestText} (ht : t.Scanned) {h : ℕ} :
    HeadEnds t.bytes h ↔ h = t.head.length := by
  constructor
  · rintro ⟨t', ht', heq, rfl⟩
    rw [ht'.unique ht heq]
  · rintro rfl
    exact ⟨t, ht, rfl, rfl⟩

namespace HttpRequest

/-! ## The body -/

/-- An accepted request has one head, and its body is the rest after it unless that is one byte. -/
theorem body_eq_rest_iff {raw : Bytes} {req : HttpRequest} (hreq : fromRawData raw = some req) :
    ∃ h, (∀ h', HeadEnds raw h' ↔ h' = h) ∧ (req.body_ = raw.drop h ↔ raw.length ≠ h + 1) := by
  obtain ⟨t, ht, rfl, rfl⟩ := fromRawData_eq_some_iff.1 hreq
  refine ⟨t.head.length, fun h' => headEnds_iff ht, ?_⟩
  have hrest : t.bytes.drop t.head.length = t.body := by rw [t.bytes_eq, List.drop_left]
  have hlen : t.bytes.length = t.head.length + t.body.length := by
    rw [t.bytes_eq, List.length_append]
  rw [hrest, hlen, RequestText.request]
  dsimp only
  constructor
  · intro hbody hone
    rw [if_neg (by omega)] at hbody
    rw [← hbody, List.length_nil] at hone
    omega
  · intro hone
    split
    · rfl
    · exact (List.eq_nil_of_length_eq_zero (by omega)).symm

theorem body_eq_rest_iff_twoBytes :
    ∃ req h, fromRawData (ascii "GET / HTTP/1.1\r\n\r\nab") = some req ∧
      (∀ h', HeadEnds (ascii "GET / HTTP/1.1\r\n\r\nab") h' ↔ h' = h) ∧
      (req.body_ = (ascii "GET / HTTP/1.1\r\n\r\nab").drop h ↔
        (ascii "GET / HTTP/1.1\r\n\r\nab").length ≠ h + 1) := by
  have hreq : fromRawData (ascii "GET / HTTP/1.1\r\n\r\nab") = some
      { url_ := ascii "/", method_ := .GET, version_ := .V11, body_ := ascii "ab" } := by
    decide +kernel
  obtain ⟨h, hunique, hbody⟩ := body_eq_rest_iff hreq
  exact ⟨_, h, hreq, hunique, hbody⟩

/-- A body of one byte is lost. -/
theorem one_byte_body_lost :
    ∃ raw req h, fromRawData raw = some req ∧ HeadEnds raw h ∧ req.body_ ≠ raw.drop h := by
  let t : RequestText := ⟨.GET, ascii "/", .V11, [], ascii "x"⟩
  have ht : t.Scanned := ⟨by decide, by decide, by decide, by simp [t]⟩
  refine ⟨t.bytes, t.request, t.head.length, fromRawData_eq_some_iff.2 ⟨t, ht, rfl, rfl⟩,
    (headEnds_iff ht).2 rfl, ?_⟩
  decide

/-! ## Requests cut off -/

/-- A text that is cut off is scanned exactly when its head is left. -/
theorem fromRawData_take_eq_some_iff {t : RequestText} (ht : t.Scanned) {n : ℕ}
    {req : HttpRequest} :
    fromRawData (t.bytes.take n) = some req ↔
      t.head.length ≤ n ∧ req = (t.withBody (t.body.take (n - t.head.length))).request := by
  constructor
  · intro hreq
    obtain ⟨t', ht', hbytes, rfl⟩ := fromRawData_eq_some_iff.1 hreq
    have hwhole : (t'.withBody (t'.body ++ t.bytes.drop n)).bytes = t.bytes := by
      rw [RequestText.bytes_withBody, ← List.append_assoc, ← t'.bytes_eq, hbytes,
        List.take_append_drop]
    have heq := (ht'.withBody _).unique ht hwhole
    have hhead : t.head = t'.head := by rw [← heq, RequestText.head_withBody]
    have hle : t.head.length ≤ n := by
      have hlen := congrArg List.length hbytes
      rw [t'.bytes_eq, List.length_append, List.length_take, ← hhead] at hlen
      omega
    refine ⟨hle, ?_⟩
    have hbody : t'.body = t.body.take (n - t.head.length) := by
      rw [t'.bytes_eq, t.bytes_eq, ← hhead, List.take_append, List.take_of_length_le hle] at hbytes
      exact List.append_cancel_left hbytes
    rw [← hbody, ← heq]
    rfl
  · rintro ⟨hle, rfl⟩
    refine fromRawData_eq_some_iff.2 ⟨_, ht.withBody _, ?_, rfl⟩
    rw [RequestText.bytes_withBody, t.bytes_eq, List.take_append, List.take_of_length_le hle]

/-- A request that is cut off is rejected within its head, and otherwise the same up to its body. -/
theorem fromRawData_take {q : Bytes} {req : HttpRequest} (hreq : fromRawData q = some req) :
    ∃ h, ∀ n ≤ q.length, ((fromRawData (q.take n)).isSome ↔ h ≤ n) ∧
      ∀ req', fromRawData (q.take n) = some req' →
        req'.method_ = req.method_ ∧ req'.url_ = req.url_ ∧ req'.version_ = req.version_ ∧
          req'.headers_ = req.headers_ ∧ req'.body_ <+: req.body_ := by
  obtain ⟨t, ht, rfl, rfl⟩ := fromRawData_eq_some_iff.1 hreq
  refine ⟨t.head.length, fun n hn => ⟨?_, fun req' hreq' => ?_⟩⟩
  · rw [Option.isSome_iff_exists]
    simp only [fromRawData_take_eq_some_iff ht, exists_and_left, exists_eq, and_true]
  · obtain ⟨hle, rfl⟩ := (fromRawData_take_eq_some_iff ht).1 hreq'
    refine ⟨rfl, rfl, rfl, rfl, ?_⟩
    -- a body that is left whole or in part has two bytes only if the whole body has
    have htake := List.take_prefix (n - t.head.length) t.body
    rw [RequestText.request_withBody, RequestText.request]
    dsimp only
    split
    · rename_i htwo
      rw [if_pos (htwo.trans htake.length_le)]
      exact htake
    · exact List.nil_prefix

theorem fromRawData_take_post :
    ∃ h, ∀ n ≤ (ascii "POST /a HTTP/1.0\r\nk: v\r\n\r\nxyz").length,
      ((fromRawData ((ascii "POST /a HTTP/1.0\r\nk: v\r\n\r\nxyz").take n)).isSome ↔ h ≤ n) ∧
      ∀ req', fromRawData ((ascii "POST /a HTTP/1.0\r\nk: v\r\n\r\nxyz").take n) = some req' →
        req'.method_ = .POST ∧ req'.url_ = ascii "/a" ∧ req'.version_ = .V10 ∧
          req'.headers_ = (∅ : SortedMap Bytes Bytes).insert (ascii "k") (ascii "v") ∧
          req'.body_ <+: ascii "xyz" := by
  have hreq : fromRawData (ascii "POST /a HTTP/1.0\r\nk: v\r\n\r\nxyz") = some
      { url_ := ascii "/a", method_ := .POST, version_ := .V10, body_ := ascii "xyz"
        headers_ := (∅ : SortedMap Bytes Bytes).insert (ascii "k") (ascii "v") } := by
    decide +kernel
  exact fromRawData_take hreq

end HttpRequest

end CoUringWeb
