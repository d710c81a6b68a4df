import CoUringWeb.Json.Tokens

/-!
# The grammar `JsonParser` reads

Over the syntax trees of `JsonSyntax` the parser has a grammar of its own.  Members of an object
follow RFC 8259 except that there has to be one.  Between the elements of an array the loop of
`parseArray` wants no comma, only not two in a row, and after a nested array it passes over one byte
whatever it is.  A number is any run of number characters, and must not end the text; an empty
string needs two bytes behind it.

`Accepts v t` is that grammar, for a value `v` with the bytes `t` behind it, and `parsed v` is what
the parser makes of `v`.
-/

namespace CoUringWeb

namespace JsonParser

open Machine Numerals JsonSyntax

variable {δ : Type} [StreamDouble δ]

/-! ## Gaps in arrays -/

/-- Where the loop of `parseArray` stands: about to pass over the byte after a nested array, or
ready for any byte, with its `endByComma`. -/
inductive Before where
  | skip
  | ready (endByComma : Bool)

/-- White space with at most one comma, and none when `endByComma` is set. -/
def gapAccepted : Bool → Bytes → Bool
  | _, [] => true
  | endByComma, c :: gap =>
    if c = ch ',' then !endByComma && gapAccepted true gap else isWs c && gapAccepted endByComma gap

namespace Before

def accepts : Before → Bytes → Bool
  | ready endByComma, gap => gapAccepted endByComma gap
  | skip, [] => false
  | skip, _ :: gap => gapAccepted false gap

/-- Where the loop stands after the element `v`. -/
def of (v : Value) : Before := if v.isArr then skip else ready false

end Before

theorem gapAccepted.isGapByte {endByComma : Bool} {gap : Bytes} (h : gapAccepted endByComma gap) :
    ∀ c ∈ gap, isGapByte c := by
  induction gap generalizing endByComma with
  | nil => simp
  | cons c gap ih =>
    intro x hx
    rw [gapAccepted] at h
    split at h
    · rename_i hc
      simp only [Bool.and_eq_true] at h
      rcases List.mem_cons.mp hx with rfl | hx
      · simp [JsonSyntax.isGapByte, hc]
      · exact ih h.2 x hx
    · simp only [Bool.and_eq_true] at h
      rcases List.mem_cons.mp hx with rfl | hx
      · simp [JsonSyntax.isGapByte, h.1]
      · exact ih h.2 x hx

/-! ## Gaps of RFC 8259 -/

theorem gapAccepted_of_allWs {b : Bool} {gap : Bytes} (h : AllWs gap) : gapAccepted b gap := by
  induction gap with
  | nil => rfl
  | cons c gap ih =>
    have hc : isWs c := h c List.mem_cons_self
    have hcomma : c ≠ ch ',' := by
      rintro rfl
      exact absurd hc (by decide)
    rw [gapAccepted, if_neg hcomma, hc, ih fun x hx => h x (List.mem_cons_of_mem c hx)]
    rfl

theorem gapAccepted_of_isSeparator {gap : Bytes} (h : IsSeparator gap) : gapAccepted false gap := by
  obtain ⟨a, b, ha, hb, rfl⟩ := h
  induction a with
  | nil =>
    rw [List.nil_append, gapAccepted, if_pos rfl, gapAccepted_of_allWs hb]
    rfl
  | cons c a ih =>
    have hc : isWs c := ha c List.mem_cons_self
    have hcomma : c ≠ ch ',' := by
      rintro rfl
      exact absurd hc (by decide)
    rw [List.cons_append, gapAccepted, if_neg hcomma, hc,
      ih fun x hx => ha x (List.mem_cons_of_mem c hx)]
    rfl

theorem gapAccepted_of_isGap {first : Bool} {gap : Bytes} (h : IsGap first gap) :
    gapAccepted false gap := by
  cases first with
  | true => exact gapAccepted_of_allWs h
  | false => exact gapAccepted_of_isSeparator h

/-- The rest of a separator, whatever its first byte is. -/
theorem skip_accepts_of_isSeparator {gap : Bytes} (h : IsSeparator gap) :
    Before.skip.accepts gap := by
  obtain ⟨a, b, ha, hb, rfl⟩ := h
  cases a with
  | nil => exact gapAccepted_of_allWs hb
  | cons c a =>
    exact gapAccepted_of_isSeparator
      ⟨a, b, fun x hx => ha x (List.mem_cons_of_mem c hx), hb, rfl⟩

theorem skip_accepts_of_allWs {gap : Bytes} (h : AllWs gap) :
    Before.skip.accepts gap ↔ gap ≠ [] := by
  cases gap with
  | nil => simp [Before.accepts]
  | cons c gap =>
    have hgap : gapAccepted false gap :=
      gapAccepted_of_allWs fun x hx => h x (List.mem_cons_of_mem c hx)
    simp [Before.accepts, hgap]

/-! ## Values -/

/-- The first byte of `t` does not belong to a number, and there is one. -/
def EndsNumber (t : Bytes) : Prop := ∃ c s, t = c :: s ∧ ¬ isNumberByte c

/-- A run of number characters that may start with its first one. -/
def IsRun (tok : Bytes) : Prop :=
  (∃ c s, tok = c :: s ∧ isNumberStart c) ∧ ∀ c ∈ tok, isNumberByte c

theorem isNumberByte_of_isNumberStart (c : UInt8) (h : isNumberStart c) : isNumberByte c := by
  simp only [isNumberStart, isNumberByte, decide_eq_true_eq] at h ⊢
  tauto

theorem parseNum_eq_ok_of_start {view s : Bytes} {k j : ℕ} {c : UInt8} {p : JsonPtr δ}
    (hat : At view k (c :: s)) (hc : isNumberStart c) (h : parseNum view k = .ok (p, j)) :
    ∃ tok t, IsRun tok ∧ c :: s = tok ++ t ∧ EndsNumber t ∧ p = numValue tok ∧ At view j t := by
  obtain ⟨tok, x, t, htext, hrun, hx, rfl, rfl⟩ := parseNum_eq_ok hat h
  cases tok with
  | nil =>
    obtain rfl : c = x := (List.cons.inj htext).1
    exact absurd (isNumberByte_of_isNumberStart c hc) hx
  | cons y tok =>
    obtain rfl : c = y := (List.cons.inj htext).1
    rw [htext] at hat
    exact ⟨c :: tok, x :: t, ⟨⟨c, tok, rfl, hc⟩, hrun⟩, htext, ⟨x, t, rfl, hx⟩, rfl, hat.append⟩

mutual

/-- The parser reads `v` when `t` follows. -/
def Accepts : Value → Bytes → Prop
  | .null, _ => True
  | .bool _, _ => True
  | .num tok, t => IsRun tok ∧ EndsNumber t
  | .str items, t => ItemsWellFormed items ∧ (items = [] → 2 ≤ t.length)
  | .arr es, t => AcceptsElems es (.ready false) t
  | .obj ms, t => AcceptsMembers ms true t

def AcceptsElems : Elems → Before → Bytes → Prop
  | .close gap, before, _ => before.accepts gap
  | .elem gap v rest, before, t =>
    before.accepts gap ∧ Accepts v (rest.text ++ t) ∧ AcceptsElems rest (.of v) t

def AcceptsMembers : Members → Bool → Bytes → Prop
  | .close gap, first, _ => first = false ∧ AllWs gap
  | .member gap key pre post v rest, first, t =>
    IsGap first gap ∧ ItemsWellFormed key ∧ AllWs pre ∧ AllWs post ∧ Accepts v (rest.text ++ t) ∧
      AcceptsMembers rest false t

end

/-- The label a value starts with. -/
def valueLabel : Value → Label
  | .null => .null
  | .bool _ => .bool
  | .num _ => .num
  | .str _ => .quote
  | .arr _ => .arrayBegin
  | .obj _ => .mapBegin

theorem text_head {v : Value}
    (h : ∀ tok, v = .num tok → ∃ c s, tok = c :: s ∧ isNumberStart c) :
    ∃ c s, v.text = c :: s ∧ label c = valueLabel v := by
  cases v with
  | null => exact ⟨ch 'n', ascii "ull", by decide, by decide⟩
  | bool b =>
    cases b
    · exact ⟨ch 'f', ascii "alse", by decide, by decide⟩
    · exact ⟨ch 't', ascii "rue", by decide, by decide⟩
  | num tok =>
    obtain ⟨c, s, rfl, hc⟩ := h tok rfl
    exact ⟨c, s, rfl, (label_num c).mpr hc⟩
  | str items => exact ⟨ch '"', itemsText items ++ [ch '"'], rfl, (label_quote _).mpr rfl⟩
  | arr es => exact ⟨ch '[', es.text, rfl, (label_arrayBegin _).mpr rfl⟩
  | obj ms => exact ⟨ch '{', ms.text, rfl, (label_mapBegin _).mpr rfl⟩

theorem accepts_head {v : Value} {t : Bytes} (h : Accepts v t) :
    ∃ c s, v.text = c :: s ∧ label c = valueLabel v := by
  apply text_head
  rintro tok rfl
  exact h.1.1

/-- A text the parser reads: an array or an object of its grammar between white space. -/
structure Reading where
  lead : Bytes
  root : Value
  trail : Bytes
  lead_ws : AllWs lead
  trail_ws : AllWs trail
  container : root.isContainer
  accepts : Accepts root trail

def Reading.text (r : Reading) : Bytes := r.lead ++ (r.root.text ++ r.trail)

/-! ## What the parser makes of them -/

/-- `null` in an array -/
def isNullValue : Value → Bool
  | .null => true
  | _ => false

mutual

/-- The object the parser returns for `v`. -/
def parsed : Value → JsonPtr δ
  | .null => .jsonNull
  | .bool b => .jsonBool b
  | .num tok => numValue tok
  | .str items => .jsonString (itemsBytes items)
  | .arr es => .jsonArray (parsedElems es)
  | .obj ms => .jsonMap (parsedMembers ms [])

/-- For `null` the vector gets a null pointer. -/
def parsedElems : Elems → List (JsonPtr δ)
  | .close _ => []
  | .elem _ v rest => (if isNullValue v then .nullptr else parsed v) :: parsedElems rest

def parsedMembers : Members → List (Bytes × JsonPtr δ) → List (Bytes × JsonPtr δ)
  | .close _, data => data
  | .member _ key _ _ v rest, data =>
    parsedMembers rest (SortedAssoc.insertOrAssign (itemsBytes key) (parsed v) data)

end

/-! ## One more byte in front -/

theorem acceptsElems_push {before before' : Before} {c : UInt8}
    (h : ∀ gap, before'.accepts gap → before.accepts (c :: gap)) {es : Elems} {t : Bytes}
    (hes : AcceptsElems es before' t) : AcceptsElems (es.push c) before t := by
  cases es with
  | close gap => exact h gap hes
  | elem gap v rest => exact ⟨h gap hes.1, hes.2⟩

theorem acceptsElems_push_ws {c : UInt8} (hc : isWs c) {es : Elems} {endByComma : Bool}
    {t : Bytes} (hes : AcceptsElems es (.ready endByComma) t) :
    AcceptsElems (es.push c) (.ready endByComma) t := by
  apply acceptsElems_push _ hes
  intro gap hgap
  have hcomma : c ≠ ch ',' := by
    rintro rfl
    exact absurd hc (by decide)
  have hgap : gapAccepted endByComma gap := hgap
  simp [Before.accepts, gapAccepted, hcomma, hc, hgap]

theorem acceptsElems_push_comma {es : Elems} {t : Bytes}
    (hes : AcceptsElems es (.ready true) t) :
    AcceptsElems (es.push (ch ',')) (.ready false) t := by
  apply acceptsElems_push _ hes
  intro gap hgap
  have hgap : gapAccepted true gap := hgap
  simp [Before.accepts, gapAccepted, hgap]

theorem acceptsElems_push_skip (c : UInt8) {es : Elems} {t : Bytes}
    (hes : AcceptsElems es (.ready false) t) : AcceptsElems (es.push c) .skip t :=
  acceptsElems_push (fun _ hgap => hgap) hes

@[simp] theorem parsedElems_push (c : UInt8) (es : Elems) :
    (parsedElems (es.push c) : List (JsonPtr δ)) = parsedElems es := by
  cases es <;> rfl

theorem allWs_cons {c : UInt8} {s : Bytes} (hc : isWs c) (hs : AllWs s) : AllWs (c :: s) := by
  intro x hx
  rcases List.mem_cons.mp hx with rfl | hx
  · exact hc
  · exact hs x hx

theorem isGap_cons_ws {first : Bool} {c : UInt8} {gap : Bytes} (hc : isWs c)
    (hgap : IsGap first gap) : IsGap first (c :: gap) := by
  cases first with
  | true => exact allWs_cons hc hgap
  | false =>
    obtain ⟨a, b, ha, hb, rfl⟩ := hgap
    exact ⟨c :: a, b, allWs_cons hc ha, hb, rfl⟩

theorem acceptsMembers_push_ws {c : UInt8} (hc : isWs c) {ms : Members} {first : Bool} {t : Bytes}
    (hms : AcceptsMembers ms first t) : AcceptsMembers (ms.push c) first t := by
  cases ms with
  | close gap => exact ⟨hms.1, allWs_cons hc hms.2⟩
  | member gap key pre post v rest => exact ⟨isGap_cons_ws hc hms.1, hms.2⟩

theorem acceptsMembers_push_comma {ms : Members} {t : Bytes} (hms : AcceptsMembers ms true t) :
    AcceptsMembers (ms.push (ch ',')) false t := by
  cases ms with
  | close gap => exact absurd hms.1 (by decide)
  | member gap key pre post v rest =>
    exact ⟨⟨[], gap, by simp [AllWs], hms.1, rfl⟩, hms.2⟩

@[simp] theorem parsedMembers_push (c : UInt8) (ms : Members) (data : List (Bytes × JsonPtr δ)) :
    parsedMembers (ms.push c) data = parsedMembers ms data := by
  cases ms <;> rfl

end JsonParser

end CoUringWeb
