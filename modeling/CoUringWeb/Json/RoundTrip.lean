import CoUringWeb.Json.Denotation
import CoUringWeb.Json.Dump
import CoUringWeb.Json.ParserComplete

/-!
# `dump`, then `parse`

`syntaxOf` is the syntax tree of what `dump` prints.  Its text is what is printed, the parser's
grammar has it, and what the parser makes of it is the object that was printed.
-/

namespace CoUringWeb

namespace JsonParser

open Machine Numerals JsonSyntax Exceptions

variable {δ : Type} [StreamDouble δ]

/-! ## The trees that come back -/

/-- No byte is a control character other than `\b`, `\f`, `\n`, `\r` and `\t`. -/
def Printable (s : Bytes) : Prop := ∀ c ∈ s, c < 0x20 → c ∈ [8, 12, ch '\n', ch '\r', ch '\t']

def IsContainer : JsonPtr δ → Prop
  | .jsonArray _ => True
  | .jsonMap _ => True
  | _ => False

mutual

/-- Integers, booleans and printable strings, in arrays and in objects that are not empty; `null`
only as a member of an object. -/
def Dumpable : JsonPtr δ → Prop
  | .jsonBool _ => True
  | .jsonString data => Printable data
  | .jsonInteger _ => True
  | .jsonArray data => DumpableElems data
  | .jsonMap data => data ≠ [] ∧ SortedAssoc.Sorted data ∧ DumpableMembers data
  | _ => False

def DumpableElems : List (JsonPtr δ) → Prop
  | [] => True
  | o :: rest => Dumpable o ∧ DumpableElems rest

def DumpableMembers : List (Bytes × JsonPtr δ) → Prop
  | [] => True
  | (k, v) :: rest => Printable k ∧ (v = .jsonNull ∨ Dumpable v) ∧ DumpableMembers rest

end

/-! ## The syntax tree of the printed text -/

/-- The character of a literal `dumpChar` prints. -/
def charItem (c : UInt8) : StrItem :=
  if c = ch '"' then .esc (ch '"')
  else if c = ch '\\' then .esc (ch '\\')
  else if c = 8 then .esc (ch 'b')
  else if c = 12 then .esc (ch 'f')
  else if c = ch '\n' then .esc (ch 'n')
  else if c = ch '\r' then .esc (ch 'r')
  else if c = ch '\t' then .esc (ch 't')
  else .raw c

/-- A comma, unless this is the first line, and the new line. -/
def lineGap (indent : ℤ) (depth : ℕ) (first : Bool) : Bytes :=
  (if first then [] else ascii ",") ++ newLine indent depth

mutual

def syntaxOf (indent : ℤ) (depth : ℕ) : JsonPtr δ → Value
  | .jsonBool data => .bool data
  | .jsonString data => .str (data.map charItem)
  | .jsonInteger data => .num (writeInt64 data)
  | .jsonDouble data => .num (StreamDouble.write data)
  | .jsonArray data =>
    .arr (if data.isEmpty then .close [] else elemsOf indent depth true data)
  | .jsonMap data =>
    .obj (if data.isEmpty then .close [] else membersOf indent depth true data)
  | _ => .null

def elemsOf (indent : ℤ) (depth : ℕ) (first : Bool) : List (JsonPtr δ) → Elems
  | [] => .close (newLine indent depth)
  | o :: rest => .elem (lineGap indent (depth + 1) first) (syntaxOf indent (depth + 1) o)
      (elemsOf indent depth false rest)

def membersOf (indent : ℤ) (depth : ℕ) (first : Bool) : List (Bytes × JsonPtr δ) → Members
  | [] => .close (newLine indent depth)
  | (k, v) :: rest => .member (lineGap indent (depth + 1) first) (k.map charItem) (ascii " ")
      (ascii " ") (syntaxOf indent (depth + 1) v) (membersOf indent depth false rest)

end

/-! ## Its text is what `dump` prints -/

theorem charItem_spec : ∀ c, (charItem c).text = dumpChar c ∧ itemBytes (charItem c) = [c] ∧
    ((c < 0x20 → c ∈ [8, 12, ch '\n', ch '\r', ch '\t']) → (charItem c).WellFormed) := by
  decide +kernel

theorem strText_map (s : Bytes) : strText (s.map charItem) = dumpString s := by
  have hitems : itemsText (s.map charItem) = s.flatMap dumpChar := by
    unfold itemsText
    rw [List.flatMap_map]
    exact congrArg (fun f => List.flatMap f s) (funext fun c => (charItem_spec c).1)
  rw [strText, hitems, dumpString]

mutual

theorem dumpChild_eq (indent : ℤ) (depth : ℕ) (o : JsonPtr δ) (ho : o = .jsonNull ∨ Dumpable o) :
    dumpChild indent depth o = .ok (syntaxOf indent depth o).text := by
  cases o with
  | nullptr => simp [Dumpable] at ho
  | jsonNull => rfl
  | jsonBool data => cases data <;> rfl
  | jsonString data =>
    rw [syntaxOf, Value.text, strText_map]
    rfl
  | jsonInteger data => rfl
  | jsonDouble data => simp [Dumpable] at ho
  | jsonArray data =>
    have hdata : DumpableElems data := by
      rcases ho with ho | ho
      · cases ho
      · exact ho
    cases data with
    | nil => rfl
    | cons o rest =>
      obtain ⟨body, hbody, htext⟩ := dumpElems_eq indent depth true (o :: rest) hdata
      simp [dumpChild, syntaxOf, Value.text, hbody, htext, bind, Except.bind, pure, Except.pure]
  | jsonMap data =>
    have hdata : DumpableMembers data := by
      rcases ho with ho | ho
      · cases ho
      · exact ho.2.2
    cases data with
    | nil => rfl
    | cons o rest =>
      obtain ⟨body, hbody, htext⟩ := dumpMembers_eq indent depth true (o :: rest) hdata
      simp [dumpChild, syntaxOf, Value.text, hbody, htext, bind, Except.bind, pure, Except.pure]

/-- The loop prints the comma after an element, the syntax tree has it before the next. -/
theorem dumpElems_eq (indent : ℤ) (depth : ℕ) (first : Bool) (data : List (JsonPtr δ))
    (hdata : DumpableElems data) :
    ∃ body, dumpElems indent depth data = .ok body ∧
      (elemsOf indent depth first data).text =
        (if first || data.isEmpty then [] else ascii ",") ++ body ++ newLine indent depth ++
          [ch ']'] := by
  match data with
  | [] => exact ⟨[], rfl, by simp [elemsOf, Elems.text]⟩
  | o :: rest =>
    have hchild := dumpChild_eq indent (depth + 1) o (Or.inr hdata.1)
    obtain ⟨body, hbody, htext⟩ := dumpElems_eq indent depth false rest hdata.2
    refine ⟨_, by simp only [dumpElems, hchild, hbody]; rfl, ?_⟩
    rw [elemsOf, Elems.text, htext]
    simp [lineGap]

theorem dumpMembers_eq (indent : ℤ) (depth : ℕ) (first : Bool) (data : List (Bytes × JsonPtr δ))
    (hdata : DumpableMembers data) :
    ∃ body, dumpMembers indent depth data = .ok body ∧
      (membersOf indent depth first data).text =
        (if first || data.isEmpty then [] else ascii ",") ++ body ++ newLine indent depth ++
          [ch '}'] := by
  match data with
  | [] => exact ⟨[], rfl, by simp [membersOf, Members.text]⟩
  | (k, v) :: rest =>
    have hchild := dumpChild_eq indent (depth + 1) v hdata.2.1
    obtain ⟨body, hbody, htext⟩ := dumpMembers_eq indent depth false rest hdata.2.2
    refine ⟨_, by simp only [dumpMembers, hchild, hbody]; rfl, ?_⟩
    rw [membersOf, Members.text, htext, strText_map]
    simp [lineGap, ascii]

end

/-! ## The parser reads it -/

theorem charItem_wellFormed {s : Bytes} (hs : Printable s) : ItemsWellFormed (s.map charItem) := by
  intro i hi
  obtain ⟨c, hc, rfl⟩ := List.mem_map.mp hi
  exact (charItem_spec c).2.2 (hs c hc)

theorem itemsBytes_map (s : Bytes) : itemsBytes (s.map charItem) = s := by
  induction s with
  | nil => rfl
  | cons c s ih =>
    rw [List.map_cons, itemsBytes_cons, (charItem_spec c).2.1, ih, List.singleton_append]

theorem writeInt64_eq (n : Int64) :
    ∃ minus int, IsMinus minus ∧ AllDigits int ∧ int ≠ [] ∧ writeInt64 n = minus ++ int ∧
      intValue (writeInt64 n) = n.toInt := by
  have hdigits : ∀ m, AllDigits (decimalDigits m) := fun m c hc => isDigit_of_mem_decimalDigits hc
  by_cases hn : n.toInt < 0
  · have htext : writeInt64 n = ascii "-" ++ decimalDigits n.toInt.natAbs := if_pos hn
    refine ⟨_, _, Or.inr rfl, hdigits _, decimalDigits_ne_nil _, htext, ?_⟩
    rw [htext]
    change -(decimal (decimalDigits n.toInt.natAbs) : ℤ) = n.toInt
    rw [decimal_decimalDigits]
    omega
  · have htext : writeInt64 n = [] ++ decimalDigits n.toInt.natAbs := if_neg hn
    refine ⟨_, _, Or.inl rfl, hdigits _, decimalDigits_ne_nil _, htext, ?_⟩
    have hhead : (decimalDigits n.toInt.natAbs).head? ≠ some (ch '-') := by
      intro h
      have := hdigits _ _ (List.mem_of_mem_head? h)
      exact absurd this (by decide)
    rw [htext, List.nil_append, intValue, if_neg hhead, decimal_decimalDigits]
    omega

theorem numValue_writeInt64 (n : Int64) :
    (numValue (writeInt64 n) : JsonPtr δ) = .jsonInteger n := by
  obtain ⟨minus, int, hminus, hint, hne, htext, hvalue⟩ := writeInt64_eq n
  have hlo := n.le_toInt
  have hhi := n.toInt_lt
  have hread := numValue_of_digits (δ := δ) hminus hint hne (by rw [← htext, hvalue]; exact hlo)
    (by rw [← htext, hvalue]; exact hhi)
  rw [htext, hread.1, ← htext, hvalue, Int64.ofInt_toInt]

theorem isRun_writeInt64 (n : Int64) : IsRun (writeInt64 n) := by
  obtain ⟨minus, int, hminus, hint, hne, htext, -⟩ := writeInt64_eq n
  obtain ⟨c, s, rfl⟩ := List.exists_cons_of_ne_nil hne
  have hc : isDigit c := hint c List.mem_cons_self
  rw [htext]
  rcases hminus with rfl | rfl
  · exact ⟨⟨c, s, rfl, by simp [isNumberStart, hc]⟩, hint.isNumberByte⟩
  · refine ⟨⟨ch '-', c :: s, rfl, by decide⟩, ?_⟩
    intro x hx
    rcases List.mem_append.mp hx with hx | hx
    · obtain rfl : x = ch '-' := by simpa [ascii] using hx
      decide
    · exact hint.isNumberByte x hx

theorem newLine_ws (indent : ℤ) (depth : ℕ) : AllWs (newLine indent depth) := by
  intro c hc
  rcases List.mem_cons.mp hc with rfl | hc
  · decide
  · rw [List.eq_of_mem_replicate hc]
    decide

theorem lineGap_isGap (indent : ℤ) (depth : ℕ) (first : Bool) :
    IsGap first (lineGap indent depth first) := by
  cases first with
  | true => exact newLine_ws indent depth
  | false => exact ⟨[], newLine indent depth, by simp [AllWs], newLine_ws indent depth, rfl⟩

/-- At least two bytes, of which the first is none of a number. -/
def EndsChild (t : Bytes) : Prop := EndsNumber t ∧ 2 ≤ t.length

theorem endsChild_elemsOf (indent : ℤ) (depth : ℕ) (data : List (JsonPtr δ)) (t : Bytes) :
    EndsChild ((elemsOf indent depth false data).text ++ t) := by
  cases data with
  | nil =>
    exact ⟨⟨ch '\n', pad indent depth ++ [ch ']'] ++ t, by simp [elemsOf, Elems.text, newLine],
      by decide⟩, by simp [elemsOf, Elems.text, newLine]; omega⟩
  | cons o rest =>
    exact ⟨⟨ch ',', newLine indent (depth + 1) ++ ((syntaxOf indent (depth + 1) o).text ++
      (elemsOf indent depth false rest).text) ++ t, by simp [elemsOf, Elems.text, lineGap, ascii],
      by decide⟩, by simp [elemsOf, Elems.text, lineGap, ascii, newLine]⟩

theorem endsChild_membersOf (indent : ℤ) (depth : ℕ) (data : List (Bytes × JsonPtr δ)) (t : Bytes) :
    EndsChild ((membersOf indent depth false data).text ++ t) := by
  cases data with
  | nil =>
    exact ⟨⟨ch '\n', pad indent depth ++ [ch '}'] ++ t, by simp [membersOf, Members.text, newLine],
      by decide⟩, by simp [membersOf, Members.text, newLine]; omega⟩
  | cons o rest =>
    obtain ⟨k, v⟩ := o
    exact ⟨⟨ch ',', _, by simp only [membersOf, Members.text, lineGap, ascii]; rfl, by decide⟩,
      by simp [membersOf, Members.text, lineGap, ascii, newLine]⟩

/-- The gaps `dump` prints between elements are accepted wherever the loop stands. -/
theorem lineGap_accepted (indent : ℤ) (depth : ℕ) (first : Bool) {before : Before}
    (hfirst : first → before = .ready false) (hbefore : before ≠ .ready true) :
    before.accepts (lineGap indent depth first) := by
  cases before with
  | ready b =>
    obtain rfl : b = false := by simpa using hbefore
    exact gapAccepted_of_isGap (lineGap_isGap indent depth first)
  | skip =>
    cases first with
    | true => exact absurd (hfirst rfl) (by simp)
    | false => exact skip_accepts_of_isSeparator (lineGap_isGap indent depth false)

theorem newLine_accepted (indent : ℤ) (depth : ℕ) {before : Before} :
    before.accepts (newLine indent depth) := by
  cases before with
  | ready b => exact gapAccepted_of_allWs (newLine_ws indent depth)
  | skip => exact (skip_accepts_of_allWs (newLine_ws indent depth)).mpr (by simp [newLine])

theorem of_ne_ready_true (v : Value) : Before.of v ≠ .ready true := by
  unfold Before.of
  split <;> simp

mutual

theorem accepts_syntaxOf (indent : ℤ) (depth : ℕ) (o : JsonPtr δ) {t : Bytes} (ho : Dumpable o)
    (ht : EndsChild t ∨ IsContainer o) : Accepts (syntaxOf indent depth o) t := by
  cases o with
  | nullptr => exact absurd ho (by simp [Dumpable])
  | jsonNull => exact absurd ho (by simp [Dumpable])
  | jsonBool data => trivial
  | jsonString data =>
    have ht : EndsChild t := by simpa [IsContainer] using ht
    exact ⟨charItem_wellFormed ho, fun _ => ht.2⟩
  | jsonInteger data =>
    have ht : EndsChild t := by simpa [IsContainer] using ht
    exact ⟨isRun_writeInt64 data, ht.1⟩
  | jsonDouble data => exact absurd ho (by simp [Dumpable])
  | jsonArray data =>
    have helems : AcceptsElems (elemsOf indent depth true data) (.ready false) t :=
      accepts_elemsOf indent depth true data ho (fun _ => rfl) (by simp)
    cases data with
    | nil => exact rfl
    | cons o rest => exact helems
  | jsonMap data =>
    have hmembers := accepts_membersOf indent depth true data (t := t) ho.2.2 fun _ => ho.1
    cases data with
    | nil => exact absurd rfl ho.1
    | cons o rest => exact hmembers

theorem accepts_elemsOf (indent : ℤ) (depth : ℕ) (first : Bool) (data : List (JsonPtr δ))
    {before : Before} {t : Bytes} (hdata : DumpableElems data)
    (hfirst : first → before = .ready false) (hbefore : before ≠ .ready true) :
    AcceptsElems (elemsOf indent depth first data) before t := by
  match data with
  | [] => exact newLine_accepted indent depth
  | o :: rest =>
    refine ⟨lineGap_accepted indent (depth + 1) first hfirst hbefore, ?_, ?_⟩
    · exact accepts_syntaxOf indent (depth + 1) o hdata.1
        (Or.inl (endsChild_elemsOf indent depth rest t))
    · exact accepts_elemsOf indent depth false rest hdata.2 (by simp) (of_ne_ready_true _)

theorem accepts_membersOf (indent : ℤ) (depth : ℕ) (first : Bool) (data : List (Bytes × JsonPtr δ))
    {t : Bytes} (hdata : DumpableMembers data) (hfirst : first → data ≠ []) :
    AcceptsMembers (membersOf indent depth first data) first t := by
  match data with
  | [] =>
    refine ⟨?_, newLine_ws indent depth⟩
    by_contra h
    exact hfirst (by simpa using h) rfl
  | (k, v) :: rest =>
    obtain ⟨hk, hv, hrest⟩ := hdata
    have hspace : AllWs (ascii " ") := by simp [AllWs, ascii, isWs]
    refine ⟨lineGap_isGap indent (depth + 1) first, charItem_wellFormed hk, hspace, hspace, ?_, ?_⟩
    · rcases hv with rfl | hv
      · trivial
      · exact accepts_syntaxOf indent (depth + 1) v hv
          (Or.inl (endsChild_membersOf indent depth rest t))
    · exact accepts_membersOf indent depth false rest hrest (by simp)

end

/-! ## The parser makes the object of it -/

theorem isNullValue_syntaxOf (indent : ℤ) (depth : ℕ) {o : JsonPtr δ} (ho : Dumpable o) :
    isNullValue (syntaxOf indent depth o) = false := by
  cases o <;> first | rfl | exact absurd ho (by simp [Dumpable])

mutual

theorem parsed_syntaxOf (indent : ℤ) (depth : ℕ) (o : JsonPtr δ) (ho : o = .jsonNull ∨ Dumpable o) :
    parsed (syntaxOf indent depth o) = o := by
  cases o with
  | nullptr => simp [Dumpable] at ho
  | jsonNull => rfl
  | jsonBool data => rfl
  | jsonString data => rw [syntaxOf, parsed, itemsBytes_map]
  | jsonInteger data => rw [syntaxOf, parsed, numValue_writeInt64]
  | jsonDouble data => simp [Dumpable] at ho
  | jsonArray data =>
    have hdata : DumpableElems data := by
      rcases ho with ho | ho
      · cases ho
      · exact ho
    have helems := parsed_elemsOf indent depth true data hdata
    cases data with
    | nil => rfl
    | cons o rest => simpa [syntaxOf, parsed] using helems
  | jsonMap data =>
    obtain ⟨-, hsorted, hdata⟩ : data ≠ [] ∧ SortedAssoc.Sorted data ∧ DumpableMembers data := by
      rcases ho with ho | ho
      · cases ho
      · exact ho
    have hmembers := parsed_membersOf indent depth true data [] hdata (by simpa using hsorted)
    cases data with
    | nil => rfl
    | cons o rest => simpa [syntaxOf, parsed] using hmembers

theorem parsed_elemsOf (indent : ℤ) (depth : ℕ) (first : Bool) (data : List (JsonPtr δ))
    (hdata : DumpableElems data) : parsedElems (elemsOf indent depth first data) = data := by
  match data with
  | [] => rfl
  | o :: rest =>
    have hchild := parsed_syntaxOf indent (depth + 1) o (Or.inr hdata.1)
    rw [elemsOf, parsedElems, isNullValue_syntaxOf indent (depth + 1) hdata.1, hchild,
      parsed_elemsOf indent depth false rest hdata.2]
    rfl

/-- The members come in key order, so each is set behind the ones before it. -/
theorem parsed_membersOf (indent : ℤ) (depth : ℕ) (first : Bool) (data : List (Bytes × JsonPtr δ))
    (acc : List (Bytes × JsonPtr δ)) (hdata : DumpableMembers data)
    (hsorted : SortedAssoc.Sorted (acc ++ data)) :
    parsedMembers (membersOf indent depth first data) acc = acc ++ data := by
  match data with
  | [] => simp [membersOf, parsedMembers]
  | (k, v) :: rest =>
    obtain ⟨-, hv, hrest⟩ := hdata
    have hbehind : ∀ q ∈ acc, q.1 < k := by
      intro q hq
      exact (List.pairwise_append.mp hsorted).2.2 q hq (k, v) List.mem_cons_self
    rw [membersOf, parsedMembers, itemsBytes_map, parsed_syntaxOf indent (depth + 1) v hv,
      SortedAssoc.insertOrAssign_of_forall_lt hbehind,
      parsed_membersOf indent depth false rest _ hrest (by simpa using hsorted)]
    simp

end

/-- What `dump` prints of an array or an object with any indentation is parsed back. -/
theorem parse_dump (o : JsonPtr δ) (indent : ℤ) (hroot : IsContainer o) (ho : Dumpable o) :
    ∃ text, dump o indent = .ok text ∧ parse text = .ok o := by
  have hdump : dump o indent = .ok (syntaxOf indent 0 o).text := by
    have hchild := dumpChild_eq indent 0 o (Or.inr ho)
    cases o <;> first | exact hchild | exact absurd hroot (by simp [IsContainer])
  have hcontainer : (syntaxOf indent 0 o).isContainer := by
    cases o <;> first | rfl | exact absurd hroot (by simp [IsContainer])
  have hws : AllWs [] := by simp [AllWs]
  have hparse := parse_text (δ := δ)
    ⟨[], syntaxOf indent 0 o, [], hws, hws, hcontainer,
      accepts_syntaxOf indent 0 o ho (Or.inr hroot)⟩
  refine ⟨_, hdump, ?_⟩
  rw [parsed_syntaxOf indent 0 o (Or.inr ho)] at hparse
  simpa [Reading.text] using hparse

/-- Nested arrays, an empty string, a line feed in a key and a null member. -/
def sampleTree : JsonPtr Bytes :=
  .jsonMap [(ascii "a", .jsonArray [.jsonArray [], .jsonString [], .jsonInteger (-7)]),
    (ascii "b\n", .jsonNull), (ascii "c", .jsonBool false)]

theorem parse_dump_sample :
    ∃ text, dump sampleTree 2 = .ok text ∧ parse text = .ok sampleTree := by
  have hprintable : Printable (ascii "a") ∧ Printable [] ∧ Printable (ascii "b\n") ∧
      Printable (ascii "c") := by
    simp [Printable, ascii, ch]
  obtain ⟨ha, hempty, hb, hc⟩ := hprintable
  apply parse_dump sampleTree 2 trivial
  refine ⟨by simp, by decide, ⟨ha, Or.inr ?_, hb, Or.inl rfl, hc, Or.inr trivial, trivial⟩⟩
  exact ⟨trivial, hempty, trivial, trivial⟩

end JsonParser

end CoUringWeb
