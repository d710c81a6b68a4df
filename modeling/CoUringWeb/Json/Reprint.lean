import Mathlib.Tactic.TFAE
import CoUringWeb.Framework.JsonStrings
import CoUringWeb.Json.Children
import CoUringWeb.Json.RoundTrip
import CoUringWeb.Json.Unambiguous

/-!
# `parse`, then `dump`, then `parse`

What `parse` returns for a text without fractions and exponents has the shape `Shaped`.  Printed
again it is read back unless one of two things is in the way: a null pointer among the elements of
an array, which `dump` dereferences, or a control character in a string or a key that `dump` does
not escape.  Then the printed text is no JSON text, and `parse` refuses it; it never makes another
object of it (`reprinted_tfae`).
-/

namespace CoUringWeb

namespace JsonParser

open Machine Numerals JsonSyntax Exceptions Delimiters

variable {δ : Type}

/-! ## What the parser returns -/

mutual

/-- No number is a `double`. -/
def NoDouble : JsonPtr δ → Prop
  | .jsonDouble _ => False
  | .jsonArray data => NoDoubleElems data
  | .jsonMap data => NoDoubleMembers data
  | _ => True

def NoDoubleElems : List (JsonPtr δ) → Prop
  | [] => True
  | p :: rest => NoDouble p ∧ NoDoubleElems rest

def NoDoubleMembers : List (Bytes × JsonPtr δ) → Prop
  | [] => True
  | (_, p) :: rest => NoDouble p ∧ NoDoubleMembers rest

end

mutual

/-- Every string and every key has the property `P`. -/
def Strings (P : Bytes → Prop) : JsonPtr δ → Prop
  | .jsonString data => P data
  | .jsonArray data => StringsElems P data
  | .jsonMap data => StringsMembers P data
  | _ => True

def StringsElems (P : Bytes → Prop) : List (JsonPtr δ) → Prop
  | [] => True
  | p :: rest => Strings P p ∧ StringsElems P rest

def StringsMembers (P : Bytes → Prop) : List (Bytes × JsonPtr δ) → Prop
  | [] => True
  | (k, p) :: rest => P k ∧ Strings P p ∧ StringsMembers P rest

end

mutual

/-- Integers, booleans and strings in arrays and in objects that are not empty; a null pointer only
as an element, `null` only as a member. -/
def Shaped : JsonPtr δ → Prop
  | .jsonBool _ => True
  | .jsonString _ => True
  | .jsonInteger _ => True
  | .jsonArray data => ShapedElems data
  | .jsonMap data => data ≠ [] ∧ SortedAssoc.Sorted data ∧ ShapedMembers data
  | _ => False

def ShapedElems : List (JsonPtr δ) → Prop
  | [] => True
  | p :: rest => (p = .nullptr ∨ Shaped p) ∧ ShapedElems rest

def ShapedMembers : List (Bytes × JsonPtr δ) → Prop
  | [] => True
  | (_, p) :: rest => (p = .jsonNull ∨ Shaped p) ∧ ShapedMembers rest

end

theorem noDoubleMembers_iff {data : List (Bytes × JsonPtr δ)} :
    NoDoubleMembers data ↔ ∀ q ∈ data, NoDouble q.2 := by
  induction data with
  | nil => simp [NoDoubleMembers]
  | cons q m ih => simp [NoDoubleMembers, ih]

theorem shapedMembers_iff {data : List (Bytes × JsonPtr δ)} :
    ShapedMembers data ↔ ∀ q ∈ data, q.2 = .jsonNull ∨ Shaped q.2 := by
  induction data with
  | nil => simp [ShapedMembers]
  | cons q m ih => simp [ShapedMembers, ih]

mutual

theorem dumpable_of_shaped {p : JsonPtr δ} (h : Shaped p) (hnull : NonNull p)
    (hstrings : Strings Printable p) : Dumpable p := by
  match p with
  | .nullptr | .jsonNull | .jsonDouble _ => exact absurd h (by simp [Shaped])
  | .jsonBool _ | .jsonInteger _ => trivial
  | .jsonString data => exact hstrings
  | .jsonArray data => exact dumpableElems_of_shaped h hnull hstrings
  | .jsonMap data => exact ⟨h.1, h.2.1, dumpableMembers_of_shaped h.2.2 hnull hstrings⟩

theorem dumpableElems_of_shaped {data : List (JsonPtr δ)} (h : ShapedElems data)
    (hnull : NonNullElems data) (hstrings : StringsElems Printable data) : DumpableElems data := by
  match data with
  | [] => trivial
  | p :: rest =>
    have hp : Shaped p := h.1.resolve_left fun heq => by
      have := hnull.1
      rw [heq] at this
      exact this
    exact ⟨dumpable_of_shaped hp hnull.1 hstrings.1,
      dumpableElems_of_shaped h.2 hnull.2 hstrings.2⟩

theorem dumpableMembers_of_shaped {data : List (Bytes × JsonPtr δ)} (h : ShapedMembers data)
    (hnull : NonNullMembers data) (hstrings : StringsMembers Printable data) :
    DumpableMembers data := by
  match data with
  | [] => trivial
  | (k, p) :: rest =>
    exact ⟨hstrings.1, h.1.imp_right fun hp => dumpable_of_shaped hp hnull.1 hstrings.2.1,
      dumpableMembers_of_shaped h.2 hnull.2 hstrings.2.2⟩

end

variable [StreamDouble δ]

mutual

theorem shaped_parsed (v : Value) {t : Bytes} (hv : Accepts v t)
    (hdouble : NoDouble (parsed v : JsonPtr δ)) :
    v = .null ∨ Shaped (parsed v : JsonPtr δ) := by
  cases v with
  | null => exact Or.inl rfl
  | bool b => exact Or.inr trivial
  | num tok =>
    right
    rw [parsed, numValue] at hdouble ⊢
    split at hdouble
    · exact hdouble.elim
    · rename_i htok
      rw [if_neg htok]
      trivial
  | str items => exact Or.inr trivial
  | arr es => exact Or.inr (shaped_parsedElems es hv hdouble)
  | obj ms =>
    right
    obtain ⟨hne, hsorted, hmembers⟩ := shaped_parsedMembers ms [] hv (by simp) List.Pairwise.nil
      fun q hq => by cases hq
    exact ⟨hne, hsorted, shapedMembers_iff.2 fun q hq =>
      hmembers q hq (noDoubleMembers_iff.1 hdouble q hq)⟩

theorem shaped_parsedElems (es : Elems) {before : Before} {t : Bytes}
    (hes : AcceptsElems es before t) (hdouble : NoDoubleElems (parsedElems es : List (JsonPtr δ))) :
    ShapedElems (parsedElems es : List (JsonPtr δ)) := by
  cases es with
  | close gap => trivial
  | elem gap v rest =>
    refine ⟨?_, shaped_parsedElems rest hes.2.2 hdouble.2⟩
    have hp := hdouble.1
    cases hnull : isNullValue v with
    | true => exact Or.inl rfl
    | false =>
      rw [hnull] at hp
      refine Or.inr ((shaped_parsed v hes.2.1 hp).resolve_left ?_)
      rintro rfl
      cases hnull

/-- The values that stay in the map are those of accepted members. -/
theorem shaped_parsedMembers (ms : Members) (data : List (Bytes × JsonPtr δ)) {first : Bool}
    {t : Bytes} (hms : AcceptsMembers ms first t) (hfirst : first = false → data ≠ [])
    (hsorted : SortedAssoc.Sorted data)
    (hdata : ∀ q ∈ data, NoDouble q.2 → q.2 = .jsonNull ∨ Shaped q.2) :
    parsedMembers ms data ≠ [] ∧ SortedAssoc.Sorted (parsedMembers ms data) ∧
      ∀ q ∈ parsedMembers ms data, NoDouble q.2 → q.2 = .jsonNull ∨ Shaped q.2 := by
  cases ms with
  | close gap => exact ⟨hfirst hms.1, hsorted, hdata⟩
  | member gap key pre post v rest =>
    obtain ⟨-, -, -, -, hv, hrest⟩ := hms
    refine shaped_parsedMembers rest _ hrest (fun _ hnil => ?_)
      (SortedAssoc.sorted_insertOrAssign hsorted) fun q hq => ?_
    · have hfind := SortedAssoc.find_insertOrAssign_self (itemsBytes key) (parsed v) data
      rw [hnil] at hfind
      cases hfind
    · rcases SortedAssoc.mem_insertOrAssign hq with rfl | hq
      · intro hp
        refine (shaped_parsed v hv hp).imp_left ?_
        rintro rfl
        rfl
      · exact hdata q hq

end

/-! ## What `dump` prints -/

theorem dumpArray_eq_ok {indent : ℤ} {depth : ℕ} {data : List (JsonPtr δ)} {x : Bytes}
    (h : dumpChild indent depth (.jsonArray data) = .ok x) :
    data = [] ∧ x = ascii "[]" ∨ data ≠ [] ∧ ∃ body, dumpElems indent depth data = .ok body ∧
      x = ch '[' :: (body ++ (newLine indent depth ++ [ch ']'])) := by
  cases data with
  | nil => exact Or.inl ⟨rfl, (pure_eq_ok.1 h).symm⟩
  | cons p rest =>
    rw [dumpChild, List.isEmpty_cons, if_neg (by simp), bind_eq_ok] at h
    obtain ⟨body, hbody, h⟩ := h
    exact Or.inr ⟨by simp, body, hbody, by simpa using (pure_eq_ok.1 h).symm⟩

theorem dumpMap_eq_ok {indent : ℤ} {depth : ℕ} {data : List (Bytes × JsonPtr δ)} {x : Bytes}
    (hne : data ≠ []) (h : dumpChild indent depth (.jsonMap data) = .ok x) :
    ∃ body, dumpMembers indent depth data = .ok body ∧
      x = ch '{' :: (body ++ (newLine indent depth ++ [ch '}'])) := by
  obtain ⟨p, rest, rfl⟩ := List.exists_cons_of_ne_nil hne
  rw [dumpChild, List.isEmpty_cons, if_neg (by simp), bind_eq_ok] at h
  obtain ⟨body, hbody, h⟩ := h
  exact ⟨body, hbody, by simpa using (pure_eq_ok.1 h).symm⟩

/-- The comma after an element, unless it is the last one. -/
def commaBefore {α : Type} (rest : List α) : Bytes := if rest.isEmpty then [] else ascii ","

theorem dumpElems_eq_ok {indent : ℤ} {depth : ℕ} {p : JsonPtr δ} {rest : List (JsonPtr δ)}
    {x : Bytes} (h : dumpElems indent depth (p :: rest) = .ok x) :
    ∃ child body, dumpChild indent (depth + 1) p = .ok child ∧
      dumpElems indent depth rest = .ok body ∧
      x = newLine indent (depth + 1) ++ (child ++ (commaBefore rest ++ body)) := by
  rw [dumpElems, bind_eq_ok] at h
  obtain ⟨child, hchild, h⟩ := h
  obtain ⟨body, hbody, h⟩ := bind_eq_ok.1 h
  exact ⟨child, body, hchild, hbody, by simpa [commaBefore] using (pure_eq_ok.1 h).symm⟩

theorem dumpMembers_eq_ok {indent : ℤ} {depth : ℕ} {k : Bytes} {p : JsonPtr δ}
    {rest : List (Bytes × JsonPtr δ)} {x : Bytes}
    (h : dumpMembers indent depth ((k, p) :: rest) = .ok x) :
    ∃ child body, dumpChild indent (depth + 1) p = .ok child ∧
      dumpMembers indent depth rest = .ok body ∧
      x = newLine indent (depth + 1) ++
        (dumpString k ++ (ascii " : " ++ (child ++ (commaBefore rest ++ body)))) := by
  rw [dumpMembers, bind_eq_ok] at h
  obtain ⟨child, hchild, h⟩ := h
  obtain ⟨body, hbody, h⟩ := bind_eq_ok.1 h
  exact ⟨child, body, hchild, hbody, by simpa [commaBefore] using (pure_eq_ok.1 h).symm⟩

/-! ## A JSON text has no control characters -/

/-- A byte that may stand somewhere in a JSON text. -/
def IsTextByte (c : UInt8) : Prop := 0x20 ≤ c ∨ isWs c

instance (c : UInt8) : Decidable (IsTextByte c) := inferInstanceAs (Decidable (_ ∨ _))

theorem isTextByte_of_number : ∀ c, isNumberByte c → IsTextByte c := by decide +kernel

theorem isTextByte_of_gap : ∀ c, isGapByte c → IsTextByte c := by decide +kernel

theorem textBytes_literal :
    ∀ s ∈ [ascii "null", ascii "true", ascii "false"], ∀ c ∈ s, IsTextByte c := by
  decide +kernel

theorem textBytes_str {items : List StrItem} (h : ItemsWellFormed items) :
    ∀ c ∈ strText items, IsTextByte c := by
  intro c hc
  rcases List.mem_cons.1 hc with rfl | hc
  · decide
  · rcases List.mem_append.1 hc with hc | hc
    · exact Or.inl (le_of_mem_itemsText h hc)
    · rw [List.mem_singleton.1 hc]
      decide

mutual

theorem textBytes_value (v : Value) (h : v.WellFormed) : ∀ c ∈ v.text, IsTextByte c := by
  cases v with
  | null => exact textBytes_literal _ (by simp [Value.text])
  | bool b => cases b <;> exact textBytes_literal _ (by simp [Value.text])
  | num tok => exact fun c hc => isTextByte_of_number c (IsNumber.isNumberByte h c hc)
  | str items => exact textBytes_str h
  | arr es =>
    intro c hc
    rcases List.mem_cons.1 hc with rfl | hc
    · decide
    · exact textBytes_elems es h c hc
  | obj ms =>
    intro c hc
    rcases List.mem_cons.1 hc with rfl | hc
    · decide
    · exact textBytes_members ms h c hc

theorem textBytes_elems (es : Elems) {first : Bool} (h : es.WellFormed first) :
    ∀ c ∈ es.text, IsTextByte c := by
  intro c hc
  cases es with
  | close gap =>
    rcases List.mem_append.1 hc with hc | hc
    · exact isTextByte_of_gap c (AllWs.isGapByte h c hc)
    · rw [List.mem_singleton.1 hc]
      decide
  | elem gap v rest =>
    rcases List.mem_append.1 hc with hc | hc
    · exact isTextByte_of_gap c (h.1.isGapByte c hc)
    · rcases List.mem_append.1 hc with hc | hc
      · exact textBytes_value v h.2.1 c hc
      · exact textBytes_elems rest h.2.2 c hc

theorem textBytes_members (ms : Members) {first : Bool} (h : ms.WellFormed first) :
    ∀ c ∈ ms.text, IsTextByte c := by
  intro c hc
  cases ms with
  | close gap =>
    rcases List.mem_append.1 hc with hc | hc
    · exact isTextByte_of_gap c (AllWs.isGapByte h c hc)
    · rw [List.mem_singleton.1 hc]
      decide
  | member gap key pre post v rest =>
    obtain ⟨hgap, hkey, hpre, hpost, hv, hrest⟩ := h
    simp only [Members.text, List.mem_append, List.mem_cons] at hc
    rcases hc with hc | hc | hc | rfl | hc | hc | hc
    · exact isTextByte_of_gap c (hgap.isGapByte c hc)
    · exact textBytes_str hkey c hc
    · exact isTextByte_of_gap c (AllWs.isGapByte hpre c hc)
    · decide
    · exact isTextByte_of_gap c (AllWs.isGapByte hpost c hc)
    · exact textBytes_value v hv c hc
    · exact textBytes_members rest hrest c hc

end

theorem textBytes_document (d : Document) : ∀ c ∈ d.text, IsTextByte c := by
  intro c hc
  rcases List.mem_append.1 hc with hc | hc
  · exact Or.inr (d.lead_ws c hc)
  · rcases List.mem_append.1 hc with hc | hc
    · exact textBytes_value d.root d.wellFormed c hc
    · exact Or.inr (d.trail_ws c hc)

/-! ## What is printed without control characters -/

/-- A character is printed as itself or as an escape, and a control character without an escape of
its own is printed as itself. -/
theorem dumpChar_spec : ∀ c : UInt8, dumpChar c ≠ [] ∧ (dumpChar c).head? ≠ some (ch '"') ∧
    ((c < 0x20 → c ∈ [8, 12, ch '\n', ch '\r', ch '\t']) ∨ dumpChar c = [c] ∧ c < 0x20) := by
  decide +kernel

theorem isTextByte_control : ∀ c, IsTextByte c → c < 0x20 →
    c ∈ [8, 12, ch '\n', ch '\r', ch '\t'] := by
  decide +kernel

theorem printable_of_textBytes {s : Bytes} (h : ∀ c ∈ dumpString s, IsTextByte c) :
    Printable s := by
  intro c hc hlt
  obtain ⟨-, -, hcontrol | ⟨hraw, -⟩⟩ := dumpChar_spec c
  · exact hcontrol hlt
  · apply isTextByte_control c _ hlt
    have hmem : c ∈ dumpChar c := by simp [hraw]
    exact h c (List.mem_cons_of_mem _ (List.mem_append_left _ (List.mem_flatMap.2 ⟨c, hc, hmem⟩)))

mutual

/-- If what is printed has text bytes only, no control character was left in it. -/
theorem strings_of_textBytes {indent : ℤ} {depth : ℕ} {p : JsonPtr δ} {x : Bytes}
    (hdump : dumpChild indent depth p = .ok x) (hx : ∀ c ∈ x, IsTextByte c) :
    NonNull p ∧ Strings Printable p := by
  match p with
  | .nullptr => cases hdump
  | .jsonNull | .jsonBool _ | .jsonInteger _ | .jsonDouble _ => exact ⟨trivial, trivial⟩
  | .jsonString data =>
    obtain rfl := pure_eq_ok.1 hdump
    exact ⟨trivial, printable_of_textBytes hx⟩
  | .jsonArray data =>
    rcases dumpArray_eq_ok hdump with ⟨rfl, -⟩ | ⟨-, body, hbody, rfl⟩
    · exact ⟨trivial, trivial⟩
    · exact stringsElems_of_textBytes hbody fun c hc => hx c (by simp [hc])
  | .jsonMap data =>
    by_cases hne : data = []
    · rw [hne]
      exact ⟨trivial, trivial⟩
    · obtain ⟨body, hbody, rfl⟩ := dumpMap_eq_ok hne hdump
      exact stringsMembers_of_textBytes hbody fun c hc => hx c (by simp [hc])

theorem stringsElems_of_textBytes {indent : ℤ} {depth : ℕ} {data : List (JsonPtr δ)} {x : Bytes}
    (hdump : dumpElems indent depth data = .ok x) (hx : ∀ c ∈ x, IsTextByte c) :
    NonNullElems data ∧ StringsElems Printable data := by
  match data with
  | [] => exact ⟨trivial, trivial⟩
  | p :: rest =>
    obtain ⟨child, body, hchild, hbody, rfl⟩ := dumpElems_eq_ok hdump
    obtain ⟨hnull, hstrings⟩ := strings_of_textBytes hchild fun c hc => hx c (by simp [hc])
    obtain ⟨hnulls, hrest⟩ := stringsElems_of_textBytes hbody fun c hc => hx c (by simp [hc])
    exact ⟨⟨hnull, hnulls⟩, hstrings, hrest⟩

theorem stringsMembers_of_textBytes {indent : ℤ} {depth : ℕ} {data : List (Bytes × JsonPtr δ)}
    {x : Bytes} (hdump : dumpMembers indent depth data = .ok x) (hx : ∀ c ∈ x, IsTextByte c) :
    NonNullMembers data ∧ StringsMembers Printable data := by
  match data with
  | [] => exact ⟨trivial, trivial⟩
  | (k, p) :: rest =>
    obtain ⟨child, body, hchild, hbody, rfl⟩ := dumpMembers_eq_ok hdump
    obtain ⟨hnull, hstrings⟩ := strings_of_textBytes hchild fun c hc => hx c (by simp [hc])
    obtain ⟨hnulls, hrest⟩ := stringsMembers_of_textBytes hbody fun c hc => hx c (by simp [hc])
    exact ⟨⟨hnull, hnulls⟩, printable_of_textBytes fun c hc => hx c (by simp [hc]), hstrings, hrest⟩

end

/-! ## What is printed is a JSON text -/

theorem isInt_decimalDigits (n : ℕ) : IsInt (decimalDigits n) := by
  by_cases hn : n = 0
  · exact Or.inl (by rw [decimalDigits, if_pos hn])
  · refine Or.inr ⟨decimalDigits_ne_nil n, fun hhead => ?_, fun c hc =>
      isDigit_of_mem_decimalDigits hc⟩
    -- the first digit is the last of the list of digits, which is not zero
    have hdigits : Nat.digits 10 n ≠ [] := by rwa [ne_eq, Nat.digits_eq_nil_iff_eq_zero]
    have hlast := Nat.getLast_digit_ne_zero 10 hn
    have hlt : (Nat.digits 10 n).getLast hdigits < 10 :=
      Nat.digits_lt_base (by norm_num) (List.getLast_mem hdigits)
    rw [decimalDigits, if_neg hn, List.head?_map, List.head?_reverse,
      List.getLast?_eq_some_getLast hdigits, Option.map_some, Option.some.injEq] at hhead
    have hvalue := (digitByte_value hlt).2
    rw [hhead] at hvalue
    exact hlast (by simpa using hvalue.symm)

theorem isNumber_writeInt64 (n : Int64) : IsNumber (writeInt64 n) := by
  apply IsInteger.isNumber
  unfold writeInt64
  split
  · exact ⟨ascii "-", _, Or.inr rfl, isInt_decimalDigits _, rfl⟩
  · exact ⟨[], _, Or.inl rfl, isInt_decimalDigits _, rfl⟩

mutual

theorem wellFormed_syntaxOf (indent : ℤ) (depth : ℕ) (p : JsonPtr δ)
    (h : p = .jsonNull ∨ Dumpable p) : (syntaxOf indent depth p).WellFormed := by
  match p with
  | .nullptr | .jsonNull | .jsonBool _ => trivial
  | .jsonDouble _ => simp [Dumpable] at h
  | .jsonString data => exact charItem_wellFormed (h.resolve_left (by simp))
  | .jsonInteger data => exact isNumber_writeInt64 data
  | .jsonArray data =>
    have helems := wellFormed_elemsOf indent depth true data (h.resolve_left (by simp))
    rw [syntaxOf]
    split
    · exact fun c hc => by cases hc
    · exact helems
  | .jsonMap data =>
    have hdata : Dumpable (.jsonMap data) := h.resolve_left (by simp)
    have hmembers := wellFormed_membersOf indent depth true data hdata.2.2
    rw [syntaxOf]
    split
    · exact fun c hc => by cases hc
    · exact hmembers

theorem wellFormed_elemsOf (indent : ℤ) (depth : ℕ) (first : Bool) (data : List (JsonPtr δ))
    (h : DumpableElems data) : (elemsOf indent depth first data).WellFormed first := by
  match data with
  | [] => exact newLine_ws indent depth
  | p :: rest =>
    exact ⟨lineGap_isGap indent (depth + 1) first,
      wellFormed_syntaxOf indent (depth + 1) p (Or.inr h.1),
      wellFormed_elemsOf indent depth false rest h.2⟩

theorem wellFormed_membersOf (indent : ℤ) (depth : ℕ) (first : Bool)
    (data : List (Bytes × JsonPtr δ)) (h : DumpableMembers data) :
    (membersOf indent depth first data).WellFormed first := by
  match data with
  | [] => exact newLine_ws indent depth
  | (k, p) :: rest =>
    have hspace : AllWs (ascii " ") := by simp [AllWs, ascii, isWs]
    exact ⟨lineGap_isGap indent (depth + 1) first, charItem_wellFormed h.1, hspace, hspace,
      wellFormed_syntaxOf indent (depth + 1) p h.2.1,
      wellFormed_membersOf indent depth false rest h.2.2⟩

end

/-- What is printed of an object that `parse` can give back is a JSON text, and `parse` gives it
back. -/
theorem reprinted (p : JsonPtr δ) (indent : ℤ) (hroot : IsContainer p) (hp : Dumpable p) :
    ∃ x, dump p indent = .ok x ∧ IsDocument x ∧ parse x = .ok p := by
  have hdump : dump p indent = .ok (syntaxOf indent 0 p).text := by
    have hchild := dumpChild_eq indent 0 p (Or.inr hp)
    cases p <;> first | exact hchild | exact hroot.elim
  have hcontainer : (syntaxOf indent 0 p).isContainer := by
    cases p <;> first | rfl | exact hroot.elim
  have hws : AllWs [] := by simp [AllWs]
  refine ⟨_, hdump, ⟨⟨[], syntaxOf indent 0 p, [], hws, hws, hcontainer,
    wellFormed_syntaxOf indent 0 p (Or.inr hp)⟩, List.append_nil _⟩, ?_⟩
  have hparse := parse_text (δ := δ) ⟨[], syntaxOf indent 0 p, [], hws, hws, hcontainer,
    accepts_syntaxOf indent 0 p hp (Or.inr hroot)⟩
  rw [parsed_syntaxOf indent 0 p (Or.inr hp)] at hparse
  simpa [Reading.text] using hparse

/-! ## What the parser reads of what is printed -/

/-- The label of the first byte that is printed of a value. -/
def childLabel : JsonPtr δ → Label
  | .jsonBool _ => .bool
  | .jsonString _ => .quote
  | .jsonInteger _ | .jsonDouble _ => .num
  | .jsonArray _ => .arrayBegin
  | .jsonMap _ => .mapBegin
  | .nullptr | .jsonNull => .null

theorem dumpChild_head {indent : ℤ} {depth : ℕ} {p : JsonPtr δ} {x : Bytes}
    (hp : p = .jsonNull ∨ Shaped p) (hdump : dumpChild indent depth p = .ok x) :
    ∃ c y, x = c :: y ∧ label c = childLabel p := by
  match p with
  | .nullptr => cases hdump
  | .jsonDouble _ => simp [Shaped] at hp
  | .jsonNull =>
    obtain rfl := pure_eq_ok.1 hdump
    exact ⟨ch 'n', ascii "ull", by decide, by rw [childLabel]; decide⟩
  | .jsonBool data =>
    obtain rfl := pure_eq_ok.1 hdump
    cases data
    · exact ⟨ch 'f', ascii "alse", by decide, by rw [childLabel]; decide⟩
    · exact ⟨ch 't', ascii "rue", by decide, by rw [childLabel]; decide⟩
  | .jsonString data =>
    obtain rfl := pure_eq_ok.1 hdump
    exact ⟨ch '"', _, rfl, (label_quote _).2 rfl⟩
  | .jsonInteger data =>
    obtain rfl := pure_eq_ok.1 hdump
    obtain ⟨c, y, heq, hc⟩ := (isRun_writeInt64 data).1
    exact ⟨c, y, heq, (label_num c).2 hc⟩
  | .jsonArray data =>
    rcases dumpArray_eq_ok hdump with ⟨-, rfl⟩ | ⟨-, body, -, rfl⟩
    · exact ⟨ch '[', [ch ']'], by decide, (label_arrayBegin _).2 rfl⟩
    · exact ⟨ch '[', _, rfl, (label_arrayBegin _).2 rfl⟩
  | .jsonMap data =>
    have hne : data ≠ [] := (hp.resolve_left (by simp)).1
    obtain ⟨body, -, rfl⟩ := dumpMap_eq_ok hne hdump
    exact ⟨ch '{', _, rfl, (label_mapBegin _).2 rfl⟩

omit [StreamDouble δ] in
/-- A value starts with a byte that belongs to no gap and closes nothing. -/
theorem childLabel_ne {p : JsonPtr δ} {c : UInt8} (hc : label c = childLabel p) :
    isGapByte c = false ∧ c ≠ ch ']' ∧ c ≠ ch '}' := by
  obtain ⟨v, hv⟩ : ∃ v, childLabel p = valueLabel v := by
    cases p
    · exact ⟨.null, rfl⟩
    · exact ⟨.null, rfl⟩
    · exact ⟨.bool true, rfl⟩
    · exact ⟨.str [], rfl⟩
    · exact ⟨.num [], rfl⟩
    · exact ⟨.num [], rfl⟩
    · exact ⟨.arr (.close []), rfl⟩
    · exact ⟨.obj (.close []), rfl⟩
  exact label_value_ne v c (hc.trans hv)

/-- The parser reads a printed literal as what was printed, and only if it is printable. -/
theorem string_printed {k : Bytes} {items : List StrItem} {s t : Bytes}
    (hitems : ItemsWellFormed items) (h : dumpString k ++ s = strText items ++ t) :
    Printable k ∧ itemsBytes items = k ∧ s = t := by
  have hbody : k.flatMap dumpChar ++ ch '"' :: s = itemsText items ++ ch '"' :: t := by
    simpa [dumpString, strText] using h
  clear h
  induction k generalizing items with
  | nil =>
    cases items with
    | nil => exact ⟨fun c hc => (by cases hc), rfl, (List.cons.inj hbody).2⟩
    | cons i items =>
      rw [itemsText_cons, List.append_assoc] at hbody
      exact absurd hbody.symm (StrItem.text_ne_quote (hitems i List.mem_cons_self))
  | cons c k ih =>
    obtain ⟨hne, hquote, hcontrol⟩ := dumpChar_spec c
    obtain ⟨d, ds, hd⟩ := List.exists_cons_of_ne_nil hne
    rw [List.flatMap_cons, List.append_assoc] at hbody
    cases items with
    | nil =>
      rw [hd] at hbody hquote
      exact absurd (congrArg some (List.cons.inj hbody).1) hquote
    | cons i items =>
      have hi := hitems i List.mem_cons_self
      rw [itemsText_cons, List.append_assoc] at hbody
      rcases hcontrol with hcontrol | ⟨hraw, hlt⟩
      · obtain ⟨htext, hbytes, hwf⟩ := charItem_spec c
        rw [← htext] at hbody
        obtain ⟨rfl, hrest⟩ := StrItem.text_unique (hwf hcontrol) hi hbody
        obtain ⟨hk, hread, hst⟩ := ih (fun j hj => hitems j (List.mem_cons_of_mem _ hj)) hrest
        refine ⟨fun b hb => ?_, by rw [itemsBytes_cons, hbytes, hread]; rfl, hst⟩
        rcases List.mem_cons.1 hb with rfl | hb
        · exact hcontrol
        · exact hk b hb
      · -- no character of a literal starts with a control character
        rw [hraw] at hbody
        have hmem : c ∈ i.text := by
          cases htext : i.text with
          | nil => cases i <;> cases htext
          | cons e es =>
            rw [htext] at hbody
            rw [(List.cons.inj hbody).1]
            exact List.mem_cons_self
        have hle := hi.le_of_mem_text hmem
        exact absurd hlt (UInt8.not_lt.2 hle)

/-- A printed gap is the one that the parser passes over. -/
theorem gap_printed {before : Before} {gap gap' : Bytes} {c d : UInt8} {x y : Bytes}
    (hgap : ∀ b ∈ gap, isGapByte b) (hskip : before = .skip → gap ≠ [])
    (hgap' : before.accepts gap') (hc : isGapByte c = false) (hd : isGapByte d = false)
    (h : gap ++ c :: x = gap' ++ d :: y) : c = d ∧ x = y := by
  have hgapBytes : ∀ b ∈ gap', isGapByte b := by
    cases before with
    | ready b => exact gapAccepted.isGapByte hgap'
    | skip =>
      cases gap' with
      | nil => cases hgap'
      | cons e gap' =>
        obtain ⟨b, gap, rfl⟩ := List.exists_cons_of_ne_nil (hskip rfl)
        obtain rfl : b = e := (List.cons.inj h).1
        intro b' hb'
        rcases List.mem_cons.1 hb' with rfl | hb'
        · exact hgap _ List.mem_cons_self
        · exact gapAccepted.isGapByte hgap' b' hb'
  exact (span_unique hgap hgapBytes hc hd h).2

theorem isGapByte_newLine (indent : ℤ) (depth : ℕ) : ∀ b ∈ newLine indent depth, isGapByte b :=
  AllWs.isGapByte (newLine_ws indent depth)

theorem isGapByte_append {s t : Bytes} (hs : ∀ b ∈ s, isGapByte b) (ht : ∀ b ∈ t, isGapByte b) :
    ∀ b ∈ s ++ t, isGapByte b :=
  fun b hb => (List.mem_append.1 hb).elim (hs b) (ht b)

theorem isGapByte_comma {α : Type} (rest : List α) : ∀ b ∈ commaBefore rest, isGapByte b := by
  intro b hb
  cases rest with
  | nil => cases hb
  | cons p rest =>
    obtain rfl : b = ch ',' := by simpa [commaBefore, ascii, ch] using hb
    decide

/-- What is printed after a child ends a number. -/
theorem endsNumber_rest {α : Type} {rest : List α} {indent : ℤ} {depth : ℕ} {body s : Bytes}
    (h : rest = [] → body = []) :
    EndsNumber (commaBefore rest ++ (body ++ (newLine indent depth ++ s))) := by
  cases rest with
  | nil =>
    rw [h rfl]
    exact ⟨ch '\n', pad indent depth ++ s, rfl, by decide⟩
  | cons p rest => exact ⟨ch ',', body ++ (newLine indent depth ++ s), rfl, by decide⟩

/-- The bracket that closes an array. -/
theorem elems_closed (before : Before) (gap : Bytes) {s t : Bytes} {es : Elems}
    (hgap : ∀ b ∈ gap, isGapByte b) (hskip : before = .skip → gap ≠ [])
    (hes : AcceptsElems es before t) (h : gap ++ ch ']' :: s = es.text ++ t) :
    (∃ gap', es = .close gap') ∧ s = t := by
  cases es with
  | close gap' =>
    rw [Elems.text, List.append_assoc] at h
    exact ⟨⟨gap', rfl⟩, (gap_printed hgap hskip hes (by decide) (by decide) h).2⟩
  | elem gap' w rest =>
    obtain ⟨d, y, hwtext, hd⟩ := accepts_head hes.2.1
    obtain ⟨hdgap, hdbracket, -⟩ := label_value_ne w d hd
    rw [Elems.text, hwtext, List.append_assoc] at h
    exact absurd (gap_printed hgap hskip hes.1 (by decide) hdgap h).1.symm hdbracket

mutual

/-- If the parser reads a value where one was printed, it reads the one that was printed, and
nothing was printed unescaped. -/
theorem value_printed {indent : ℤ} {depth : ℕ} (p : JsonPtr δ) (w : Value) {x s t : Bytes}
    (hp : p = .jsonNull ∨ Shaped p) (hdump : dumpChild indent depth p = .ok x)
    (hw : Accepts w t) (h : x ++ s = w.text ++ t) (hs : EndsNumber s ∨ IsContainer p) :
    (NonNull p ∧ Strings Printable p) ∧ parsed w = p ∧ s = t := by
  have hlabel : childLabel p = valueLabel w := by
    obtain ⟨c, y, rfl, hc⟩ := dumpChild_head hp hdump
    obtain ⟨d, z, hwtext, hd⟩ := accepts_head hw
    rw [hwtext] at h
    rw [← hc, ← hd, (List.cons.inj h).1]
  match p with
  | .nullptr => cases hdump
  | .jsonDouble _ => simp [Shaped] at hp
  | .jsonNull =>
    cases w <;> simp only [childLabel, valueLabel, reduceCtorEq] at hlabel
    obtain rfl := pure_eq_ok.1 hdump
    exact ⟨⟨trivial, trivial⟩, rfl, List.append_cancel_left h⟩
  | .jsonBool data =>
    cases w <;> simp only [childLabel, valueLabel, reduceCtorEq] at hlabel
    rename_i b
    obtain rfl := pure_eq_ok.1 hdump
    refine ⟨⟨trivial, trivial⟩, ?_⟩
    cases data <;> cases b
    · exact ⟨rfl, List.append_cancel_left h⟩
    · exact absurd (List.cons.inj h).1 (by decide)
    · exact absurd (List.cons.inj h).1 (by decide)
    · exact ⟨rfl, List.append_cancel_left h⟩
  | .jsonString data =>
    cases w <;> simp only [childLabel, valueLabel, reduceCtorEq] at hlabel
    obtain rfl := pure_eq_ok.1 hdump
    obtain ⟨hprintable, hread, hst⟩ := string_printed hw.1 h
    exact ⟨⟨trivial, hprintable⟩, by rw [parsed, hread], hst⟩
  | .jsonInteger data =>
    cases w <;> simp only [childLabel, valueLabel, reduceCtorEq] at hlabel
    obtain rfl := pure_eq_ok.1 hdump
    have hs : EndsNumber s := by simpa [IsContainer] using hs
    obtain ⟨rfl, hst⟩ := numTok_unique (isRun_writeInt64 data).2 hw.1.2 hs hw.2 h
    exact ⟨⟨trivial, trivial⟩, by rw [parsed, numValue_writeInt64], hst⟩
  | .jsonArray data =>
    cases w <;> simp only [childLabel, valueLabel, reduceCtorEq] at hlabel
    rename_i es
    have hdata : ShapedElems data := hp.resolve_left (by simp)
    rcases dumpArray_eq_ok hdump with ⟨rfl, rfl⟩ | ⟨-, body, hbody, rfl⟩
    · obtain ⟨⟨gap', rfl⟩, hst⟩ := elems_closed (.ready false) [] (by simp) (by simp) hw
        (List.cons.inj h).2
      exact ⟨⟨trivial, trivial⟩, rfl, hst⟩
    · obtain ⟨hkept, hes, hst⟩ := elems_printed data es [] hdata hbody (by simp) hw
        (s := s) (by simpa [Value.text] using h)
      exact ⟨hkept, by rw [parsed, hes], hst⟩
  | .jsonMap data =>
    cases w <;> simp only [childLabel, valueLabel, reduceCtorEq] at hlabel
    rename_i ms
    obtain ⟨hne, hsorted, hdata⟩ : Shaped (.jsonMap data) := hp.resolve_left (by simp)
    obtain ⟨body, hbody, rfl⟩ := dumpMap_eq_ok hne hdump
    obtain ⟨hkept, hms, hst⟩ := members_printed data ms [] hdata hbody (by simp) hw
      (s := s) (by simpa [Value.text] using h)
    exact ⟨hkept, by rw [parsed, hms [] hsorted, List.nil_append], hst⟩

theorem elems_printed {indent : ℤ} {depth : ℕ} (data : List (JsonPtr δ)) (es : Elems)
    (comma : Bytes) {before : Before} {body s t : Bytes} (hdata : ShapedElems data)
    (hdump : dumpElems indent depth data = .ok body) (hcomma : ∀ b ∈ comma, isGapByte b)
    (hes : AcceptsElems es before t)
    (h : comma ++ (body ++ (newLine indent depth ++ ch ']' :: s)) = es.text ++ t) :
    (NonNullElems data ∧ StringsElems Printable data) ∧ parsedElems es = data ∧ s = t := by
  match data with
  | [] =>
    obtain rfl := pure_eq_ok.1 hdump
    obtain ⟨⟨gap', rfl⟩, hst⟩ := elems_closed before (comma ++ newLine indent depth)
      (isGapByte_append hcomma (isGapByte_newLine indent depth)) (by simp [newLine]) hes
      (by simpa using h)
    exact ⟨⟨trivial, trivial⟩, rfl, hst⟩
  | p :: rest =>
    obtain ⟨child, body, hchild, hbody, rfl⟩ := dumpElems_eq_ok hdump
    have hp : p = .jsonNull ∨ Shaped p := by
      right
      refine hdata.1.resolve_left ?_
      rintro rfl
      cases hchild
    obtain ⟨c, y, rfl, hc⟩ := dumpChild_head hp hchild
    obtain ⟨hcgap, hcbracket, -⟩ := childLabel_ne hc
    have hgap := isGapByte_append hcomma (isGapByte_newLine indent (depth + 1))
    have hskip : before = .skip → comma ++ newLine indent (depth + 1) ≠ [] := by simp [newLine]
    cases es with
    | close gap' =>
      have h : (comma ++ newLine indent (depth + 1)) ++ c :: (y ++ (commaBefore rest ++
          (body ++ (newLine indent depth ++ ch ']' :: s)))) = gap' ++ ch ']' :: t := by
        simpa [Elems.text] using h
      exact absurd (gap_printed hgap hskip hes hcgap (by decide) h).1 hcbracket
    | elem gap' w rest' =>
      obtain ⟨hgap', hw, hrest'⟩ := hes
      obtain ⟨d, z, hwtext, hd⟩ := accepts_head hw
      have h : (comma ++ newLine indent (depth + 1)) ++ c :: (y ++ (commaBefore rest ++
          (body ++ (newLine indent depth ++ ch ']' :: s)))) =
            gap' ++ d :: (z ++ (rest'.text ++ t)) := by
        simpa [Elems.text, hwtext] using h
      obtain ⟨rfl, htail⟩ := gap_printed hgap hskip hgap' hcgap (label_value_ne w d hd).1 h
      have hvalues : (c :: y) ++ (commaBefore rest ++ (body ++ (newLine indent depth ++
          ch ']' :: s))) = w.text ++ (rest'.text ++ t) := by
        simp [hwtext, htail]
      have hends : EndsNumber (commaBefore rest ++ (body ++ (newLine indent depth ++
          ch ']' :: s))) := by
        refine endsNumber_rest ?_
        rintro rfl
        exact (pure_eq_ok.1 hbody).symm
      obtain ⟨hkept, hread, hrests⟩ := value_printed p w hp hchild hw hvalues (Or.inl hends)
      obtain ⟨hkepts, hreads, hst⟩ :=
        elems_printed rest rest' _ hdata.2 hbody (isGapByte_comma rest) hrest' hrests
      have hnull : isNullValue w = false := by
        cases w with
        | null =>
          obtain rfl : p = .jsonNull := hread.symm
          exact absurd hdata.1 (by simp [Shaped])
        | _ => rfl
      refine ⟨⟨⟨hkept.1, hkepts.1⟩, hkept.2, hkepts.2⟩, ?_, hst⟩
      rw [parsedElems, hnull, hread, hreads]
      rfl

theorem members_printed {indent : ℤ} {depth : ℕ} (data : List (Bytes × JsonPtr δ)) (ms : Members)
    (comma : Bytes) {first : Bool} {body s t : Bytes} (hdata : ShapedMembers data)
    (hdump : dumpMembers indent depth data = .ok body) (hcomma : ∀ b ∈ comma, isGapByte b)
    (hms : AcceptsMembers ms first t)
    (h : comma ++ (body ++ (newLine indent depth ++ ch '}' :: s)) = ms.text ++ t) :
    (NonNullMembers data ∧ StringsMembers Printable data) ∧
      (∀ acc, SortedAssoc.Sorted (acc ++ data) → parsedMembers ms acc = acc ++ data) ∧ s = t := by
  have hquote : isGapByte (ch '"') = false := by decide
  have hbrace : isGapByte (ch '}') = false := by decide
  match data with
  | [] =>
    obtain rfl := pure_eq_ok.1 hdump
    have hgap := isGapByte_append hcomma (isGapByte_newLine indent depth)
    cases ms with
    | close gap' =>
      have h : (comma ++ newLine indent depth) ++ ch '}' :: s = gap' ++ ch '}' :: t := by
        simpa [Members.text] using h
      obtain ⟨-, -, hst⟩ := span_unique hgap (AllWs.isGapByte hms.2) hbrace hbrace h
      exact ⟨⟨trivial, trivial⟩, fun acc _ => by simp [parsedMembers], hst⟩
    | member gap' key pre post w rest' =>
      have h : (comma ++ newLine indent depth) ++ ch '}' :: s = gap' ++ ch '"' :: (itemsText key ++
          ch '"' :: (pre ++ ch ':' :: (post ++ (w.text ++ (rest'.text ++ t))))) := by
        simpa [Members.text, strText] using h
      obtain ⟨-, hc, -⟩ := span_unique hgap hms.1.isGapByte hbrace hquote h
      exact absurd hc (by decide)
  | (k, p) :: rest =>
    obtain ⟨child, body, hchild, hbody, rfl⟩ := dumpMembers_eq_ok hdump
    have hgap := isGapByte_append hcomma (isGapByte_newLine indent (depth + 1))
    obtain ⟨c, y, rfl, hc⟩ := dumpChild_head hdata.1 hchild
    cases ms with
    | close gap' =>
      have h : (comma ++ newLine indent (depth + 1)) ++ ch '"' :: (k.flatMap dumpChar ++ ch '"' ::
          (ascii " : " ++ (c :: y ++ (commaBefore rest ++ (body ++ (newLine indent depth ++
            ch '}' :: s)))))) = gap' ++ ch '}' :: t := by
        simpa [Members.text, dumpString] using h
      obtain ⟨-, hc, -⟩ := span_unique hgap (AllWs.isGapByte hms.2) hquote hbrace h
      exact absurd hc (by decide)
    | member gap' key pre post w rest' =>
      obtain ⟨hgap', hkey, hpre, hpost, hw, hrest'⟩ := hms
      obtain ⟨d, z, hwtext, hd⟩ := accepts_head hw
      -- gap, key, white space, colon, white space and value agree in turn
      have h : (comma ++ newLine indent (depth + 1)) ++ ch '"' :: (k.flatMap dumpChar ++ ch '"' ::
          (ascii " : " ++ (c :: y ++ (commaBefore rest ++ (body ++ (newLine indent depth ++
            ch '}' :: s)))))) = gap' ++ ch '"' :: (itemsText key ++ ch '"' ::
              (pre ++ ch ':' :: (post ++ (w.text ++ (rest'.text ++ t))))) := by
        simpa [Members.text, dumpString, strText] using h
      obtain ⟨-, -, hkeys⟩ := span_unique hgap hgap'.isGapByte hquote hquote h
      obtain ⟨hprintable, hkeyRead, hcolons⟩ := string_printed hkey
        (s := ascii " : " ++ (c :: y ++ (commaBefore rest ++ (body ++ (newLine indent depth ++
          ch '}' :: s)))))
        (t := pre ++ ch ':' :: (post ++ (w.text ++ (rest'.text ++ t))))
        (by simpa [dumpString, strText] using hkeys)
      have hspace : ∀ b ∈ ascii " ", isWs b := by simp [ascii, isWs]
      obtain ⟨-, -, hposts⟩ := span_unique hspace hpre (by decide) (by decide) (c := ch ':')
        (s := ascii " " ++ (c :: y ++ (commaBefore rest ++ (body ++ (newLine indent depth ++
          ch '}' :: s))))) hcolons
      obtain ⟨-, rfl, htail⟩ := span_unique hspace hpost (isWs_of_not_gap (childLabel_ne hc).1)
        (isWs_of_not_gap (label_value_ne w d hd).1) (c := c) (d := d)
        (s := y ++ (commaBefore rest ++ (body ++ (newLine indent depth ++ ch '}' :: s))))
        (t := z ++ (rest'.text ++ t)) (by simpa [hwtext] using hposts)
      have hvalues : (c :: y) ++ (commaBefore rest ++ (body ++ (newLine indent depth ++
          ch '}' :: s))) = w.text ++ (rest'.text ++ t) := by
        simp [hwtext, htail]
      have hends : EndsNumber (commaBefore rest ++ (body ++ (newLine indent depth ++
          ch '}' :: s))) := by
        refine endsNumber_rest ?_
        rintro rfl
        exact (pure_eq_ok.1 hbody).symm
      obtain ⟨hkept, hread, hrests⟩ := value_printed p w hdata.1 hchild hw hvalues (Or.inl hends)
      obtain ⟨hkepts, hreads, hst⟩ :=
        members_printed rest rest' _ hdata.2 hbody (isGapByte_comma rest) hrest' hrests
      refine ⟨⟨⟨hkept.1, hkepts.1⟩, hprintable, hkept.2, hkepts.2⟩, fun acc hsorted => ?_, hst⟩
      have hbehind : ∀ q ∈ acc, q.1 < k := fun q hq =>
        (List.pairwise_append.mp hsorted).2.2 q hq (k, p) List.mem_cons_self
      rw [parsedMembers, hkeyRead, hread, SortedAssoc.insertOrAssign_of_forall_lt hbehind,
        hreads _ (by simpa using hsorted)]
      simp

end

/-- What the parser reads of a printed array or object is the one that was printed. -/
theorem parse_printed {p q : JsonPtr δ} {indent : ℤ} {x : Bytes} (hroot : IsContainer p)
    (hp : Shaped p) (hdump : dump p indent = .ok x) (hparse : parse x = .ok q) :
    (NonNull p ∧ Strings Printable p) ∧ q = p := by
  have hchild : dumpChild indent 0 p = .ok x := by
    cases p <;> first | exact hdump | exact hroot.elim
  obtain ⟨c, y, rfl, hc⟩ := dumpChild_head (Or.inr hp) hchild
  have hcws := isWs_of_not_gap (childLabel_ne hc).1
  rcases parseFrom_eq_ok At.zero hparse with ⟨hws, -⟩ | ⟨r, htext, rfl⟩
  · have hcws' := hws c List.mem_cons_self
    rw [hcws] at hcws'
    cases hcws'
  · -- the text starts with a bracket, so nothing stands before the root
    obtain ⟨d, z, hrootText, hd⟩ := accepts_head r.accepts
    have h : [] ++ c :: y = r.lead ++ d :: (z ++ r.trail) := by
      simpa [Reading.text, hrootText] using htext.symm
    obtain ⟨-, rfl, htail⟩ := span_unique (by simp) r.lead_ws hcws
      (isWs_of_not_gap (label_value_ne r.root d hd).1) h
    have hvalue : (c :: y) ++ [] = r.root.text ++ r.trail := by
      simp [hrootText, htail]
    obtain ⟨hkept, hread, -⟩ :=
      value_printed p r.root (Or.inr hp) hchild r.accepts hvalue (Or.inr hroot)
    exact ⟨hkept, hread⟩

/-- What `parse` returns has the shape. -/
theorem shaped_of_parse {s : Bytes} {v : JsonPtr δ} (h : parse s = .ok v) (hroot : IsContainer v)
    (hdouble : NoDouble v) : Shaped v := by
  rcases parseFrom_eq_ok At.zero h with ⟨-, rfl⟩ | ⟨r, -, rfl⟩
  · exact hroot.elim
  · refine (shaped_parsed r.root r.accepts hdouble).resolve_left fun hnull => ?_
    rw [hnull] at hroot
    exact hroot

/-- The members of `{"b":["\n"],"a":null}` in key order. -/
def sampleMembers : JsonPtr Bytes :=
  .jsonMap [(ascii "a", .jsonNull), (ascii "b", .jsonArray [.jsonString [ch '\n']])]

theorem parse_sampleMembers :
    parse (ascii "\x7b\"b\":[\"\\n\"],\"a\":null\x7d") = .ok sampleMembers := by
  rw [sampleMembers]
  rfl

/-- Parsed and printed again with any indentation, a tree without doubles comes back, or the
printed text is no JSON text and `parse` refuses it.  It comes back when no array in it has the
element `null` and no string or key a control character without an escape of its own. -/
theorem reprinted_tfae {s : Bytes} {v : JsonPtr δ} (h : parse s = .ok v) (hroot : IsContainer v)
    (hdouble : NoDouble v) (indent : ℤ) :
    List.TFAE [NonNull v ∧ Strings Printable v,
      ∃ x, dump v indent = .ok x ∧ parse x = .ok v,
      ∃ x, dump v indent = .ok x ∧ IsDocument x,
      ∃ x q, dump v indent = .ok x ∧ parse x = .ok (q : JsonPtr δ)] := by
  have hv := shaped_of_parse h hroot hdouble
  tfae_have 1 → 3 := fun ⟨hnull, hstrings⟩ => by
    obtain ⟨x, hdump, hdocument, -⟩ :=
      reprinted v indent hroot (dumpable_of_shaped hv hnull hstrings)
    exact ⟨x, hdump, hdocument⟩
  tfae_have 1 → 2 := fun ⟨hnull, hstrings⟩ => by
    obtain ⟨x, hdump, -, hparse⟩ :=
      reprinted v indent hroot (dumpable_of_shaped hv hnull hstrings)
    exact ⟨x, hdump, hparse⟩
  tfae_have 3 → 1 := by
    rintro ⟨x, hdump, d, rfl⟩
    have hchild : dumpChild indent 0 v = .ok d.text := by
      cases v <;> first | exact hdump | exact hroot.elim
    exact strings_of_textBytes hchild (textBytes_document d)
  tfae_have 2 → 4 := fun ⟨x, hdump, hparse⟩ => ⟨x, v, hdump, hparse⟩
  tfae_have 4 → 1 := fun ⟨x, q, hdump, hparse⟩ => (parse_printed hroot hv hdump hparse).1
  tfae_finish

theorem reprinted_tfae_members :
    List.TFAE [NonNull sampleMembers ∧ Strings Printable sampleMembers,
      ∃ x, dump sampleMembers 2 = .ok x ∧ parse x = .ok sampleMembers,
      ∃ x, dump sampleMembers 2 = .ok x ∧ IsDocument x,
      ∃ x q, dump sampleMembers 2 = .ok x ∧ parse x = .ok (q : JsonPtr Bytes)] :=
  reprinted_tfae parse_sampleMembers trivial
    (by simp [sampleMembers, NoDouble, NoDoubleMembers, NoDoubleElems]) 2

end JsonParser

end CoUringWeb
