import CoUringWeb.Framework.Numerals
import Mathlib.Data.FinEnum

/-!
# The syntax of JSON

RFC 8259 at the level of bytes.  A concrete syntax tree keeps every byte of the text it stands for,
white space and separators included, so that `text` is a function and a grammar is a predicate on
trees; another grammar over the same trees can be compared with this one.

`Document` is a JSON text whose value is an array or an object.  `weight` scans a text for brackets
that stand outside strings; it is zero on every document.
-/

namespace JsonSyntax

open Machine Numerals

/-! ## White space and separators -/

def isWs (c : UInt8) : Bool := c = ch ' ' ∨ c = ch '\t' ∨ c = ch '\n' ∨ c = ch '\r'

def AllWs (s : Bytes) : Prop := ∀ c ∈ s, isWs c

/-- A comma with white space around it. -/
def IsSeparator (s : Bytes) : Prop := ∃ a b, AllWs a ∧ AllWs b ∧ s = a ++ ch ',' :: b

/-- A byte that may stand between two values. -/
def isGapByte (c : UInt8) : Bool := isWs c ∨ c = ch ','

theorem AllWs.isGapByte {s : Bytes} (h : AllWs s) : ∀ c ∈ s, isGapByte c := by
  intro c hc
  simp [JsonSyntax.isGapByte, h c hc]

theorem IsSeparator.isGapByte {s : Bytes} (h : IsSeparator s) : ∀ c ∈ s, isGapByte c := by
  obtain ⟨a, b, ha, hb, rfl⟩ := h
  intro c hc
  rcases List.mem_append.mp hc with hc | hc
  · exact ha.isGapByte c hc
  · rcases List.mem_cons.mp hc with rfl | hc
    · decide
    · exact hb.isGapByte c hc

theorem IsSeparator.ne_nil {s : Bytes} (h : IsSeparator s) : s ≠ [] := by
  obtain ⟨a, b, -, -, rfl⟩ := h
  simp

/-! ## Numbers -/

def AllDigits (s : Bytes) : Prop := ∀ c ∈ s, isDigit c

/-- `int`: a zero, or digits of which the first is not a zero -/
def IsInt (s : Bytes) : Prop := s = ascii "0" ∨ (s ≠ [] ∧ s.head? ≠ some (ch '0') ∧ AllDigits s)

/-- `[ minus ]` -/
def IsMinus (s : Bytes) : Prop := s = [] ∨ s = ascii "-"

/-- `[ frac ]` -/
def IsFrac (s : Bytes) : Prop := s = [] ∨ ∃ ds, ds ≠ [] ∧ AllDigits ds ∧ s = ch '.' :: ds

/-- `[ exp ]` -/
def IsExp (s : Bytes) : Prop :=
  s = [] ∨ ∃ e sign ds, (e = ch 'e' ∨ e = ch 'E') ∧
    (sign = [] ∨ sign = ascii "+" ∨ sign = ascii "-") ∧
    ds ≠ [] ∧ AllDigits ds ∧ s = e :: (sign ++ ds)

/-- `number = [ minus ] int [ frac ] [ exp ]` -/
def IsNumber (tok : Bytes) : Prop :=
  ∃ minus int frac exp, IsMinus minus ∧ IsInt int ∧ IsFrac frac ∧ IsExp exp ∧
    tok = minus ++ int ++ frac ++ exp

/-- A number without fraction and exponent. -/
def IsInteger (tok : Bytes) : Prop := ∃ minus int, IsMinus minus ∧ IsInt int ∧ tok = minus ++ int

/-- What an integer denotes. -/
def intValue (tok : Bytes) : ℤ :=
  if tok.head? = some (ch '-') then -(decimal tok.tail : ℤ) else decimal tok

/-- The bytes numbers are made of. -/
def isNumberByte (c : UInt8) : Bool :=
  isDigit c ∨ c = ch '.' ∨ c = ch 'e' ∨ c = ch 'E' ∨ c = ch '-' ∨ c = ch '+'

/-- The bytes a number may start with. -/
def isNumberStart (c : UInt8) : Bool := c = ch '-' ∨ isDigit c

theorem AllDigits.isNumberByte {s : Bytes} (h : AllDigits s) : ∀ c ∈ s, isNumberByte c := by
  intro c hc
  simp [JsonSyntax.isNumberByte, h c hc]

theorem IsInt.allDigits {s : Bytes} (h : IsInt s) : AllDigits s := by
  rcases h with rfl | ⟨-, -, h⟩
  · intro c hc
    obtain rfl : c = ch '0' := by simpa [ascii] using hc
    decide
  · exact h

theorem IsInt.ne_nil {s : Bytes} (h : IsInt s) : s ≠ [] := by
  rcases h with rfl | ⟨h, -, -⟩
  · decide
  · exact h

theorem IsInteger.isNumber {tok : Bytes} (h : IsInteger tok) : IsNumber tok := by
  obtain ⟨minus, int, hminus, hint, rfl⟩ := h
  exact ⟨minus, int, [], [], hminus, hint, Or.inl rfl, Or.inl rfl, by simp⟩

theorem IsNumber.isNumberByte {tok : Bytes} (h : IsNumber tok) : ∀ c ∈ tok, isNumberByte c := by
  obtain ⟨minus, int, frac, exp, hminus, hint, hfrac, hexp, rfl⟩ := h
  have hminusByte : JsonSyntax.isNumberByte (ch '-') := by decide
  have hplusByte : JsonSyntax.isNumberByte (ch '+') := by decide
  have hm : ∀ c ∈ minus, JsonSyntax.isNumberByte c := by
    rcases hminus with rfl | rfl <;> simp [ascii, hminusByte]
  have hf : ∀ c ∈ frac, JsonSyntax.isNumberByte c := by
    rcases hfrac with rfl | ⟨ds, -, hds, rfl⟩
    · simp
    · intro c hc
      rcases List.mem_cons.mp hc with rfl | hc
      · decide
      · exact hds.isNumberByte c hc
  have he : ∀ c ∈ exp, JsonSyntax.isNumberByte c := by
    rcases hexp with rfl | ⟨e, sign, ds, he, hsign, -, hds, rfl⟩
    · simp
    · intro c hc
      rcases List.mem_cons.mp hc with rfl | hc
      · rcases he with rfl | rfl <;> decide
      · rcases List.mem_append.mp hc with hc | hc
        · have hs : ∀ c ∈ sign, JsonSyntax.isNumberByte c := by
            rcases hsign with rfl | rfl | rfl <;> simp [ascii, hminusByte, hplusByte]
          exact hs c hc
        · exact hds.isNumberByte c hc
  intro c hc
  simp only [List.mem_append] at hc
  rcases hc with ((hc | hc) | hc) | hc
  · exact hm c hc
  · exact hint.allDigits.isNumberByte c hc
  · exact hf c hc
  · exact he c hc

/-- A number is not empty and starts with a sign or a digit. -/
theorem IsNumber.exists_start {tok : Bytes} (h : IsNumber tok) :
    ∃ c s, tok = c :: s ∧ isNumberStart c := by
  obtain ⟨minus, int, frac, exp, hminus, hint, -, -, rfl⟩ := h
  rcases hminus with rfl | rfl
  · obtain ⟨c, s, rfl⟩ := List.exists_cons_of_ne_nil hint.ne_nil
    have hc : isDigit c := hint.allDigits c List.mem_cons_self
    exact ⟨c, s ++ frac ++ exp, by simp, by simp [isNumberStart, hc]⟩
  · exact ⟨ch '-', int ++ frac ++ exp, by simp [ascii], by decide⟩

/-! ## Strings -/

/-- One character of a string literal. -/
inductive StrItem where
  | raw (c : UInt8)
  /-- a backslash and `c` -/
  | esc (c : UInt8)
  /-- `\u` and four digits -/
  | uni (a b c d : UInt8)
  deriving DecidableEq

namespace StrItem

def text : StrItem → Bytes
  | raw c => [c]
  | esc c => [ch '\\', c]
  | uni a b c d => [ch '\\', ch 'u', a, b, c, d]

def WellFormed : StrItem → Prop
  | raw c => 0x20 ≤ c ∧ c ≠ ch '"' ∧ c ≠ ch '\\'
  | esc c => c ∈ ascii "\"\\/bfnrt"
  | uni a b c d => ∀ x ∈ [a, b, c, d], (hexVal x).isSome

instance decidableWellFormed : (i : StrItem) → Decidable i.WellFormed
  | raw c => inferInstanceAs (Decidable (0x20 ≤ c ∧ c ≠ ch '"' ∧ c ≠ ch '\\'))
  | esc c => inferInstanceAs (Decidable (c ∈ ascii "\"\\/bfnrt"))
  | uni a b c d => inferInstanceAs (Decidable (∀ x ∈ [a, b, c, d], (hexVal x).isSome))

/-- The code unit four hexadecimal digits denote. -/
def codeUnit (a b c d : UInt8) : ℕ :=
  4096 * (hexVal a).getD 0 + 256 * (hexVal b).getD 0 + 16 * (hexVal c).getD 0 + (hexVal d).getD 0

/-- The bytes a character of a literal denotes, in UTF-8 for an escaped code point. -/
def denote : StrItem → Bytes
  | raw c => [c]
  | esc c =>
    if c = ch 'b' then [8]
    else if c = ch 'f' then [12]
    else if c = ch 'n' then [10]
    else if c = ch 'r' then [13]
    else if c = ch 't' then [9]
    else [c]
  | uni a b c d => String.utf8EncodeChar (Char.ofNat (codeUnit a b c d))

/-- The character is no half of a surrogate pair. -/
def NotSurrogate : StrItem → Prop
  | uni a b c d => ¬ (0xD800 ≤ codeUnit a b c d ∧ codeUnit a b c d ≤ 0xDFFF)
  | _ => True

instance decidableNotSurrogate : (i : StrItem) → Decidable i.NotSurrogate
  | raw _ => .isTrue trivial
  | esc _ => .isTrue trivial
  | uni a b c d =>
    inferInstanceAs (Decidable (¬ (0xD800 ≤ codeUnit a b c d ∧ codeUnit a b c d ≤ 0xDFFF)))

theorem codeUnit_lt (a b c d : UInt8) : codeUnit a b c d < 0x10000 := by
  have hdigit : ∀ x : UInt8, (hexVal x).getD 0 < 16 := by decide +kernel
  have ha := hdigit a
  have hb := hdigit b
  have hc := hdigit c
  have hd := hdigit d
  unfold codeUnit
  omega

/-- What follows a character of a string and the character itself can be read off the text. -/
theorem text_unique {i j : StrItem} (hi : i.WellFormed) (hj : j.WellFormed) {s t : Bytes}
    (h : i.text ++ s = j.text ++ t) : i = j ∧ s = t := by
  have hu : ∀ {c : UInt8}, c ∈ ascii "\"\\/bfnrt" → c ≠ ch 'u' := by
    intro c hc
    rintro rfl
    exact absurd hc (by decide)
  cases i <;> cases j <;> simp only [text, List.cons_append, List.nil_append, List.cons.injEq] at h
  case raw.raw => simpa using h
  case raw.esc => exact absurd h.1 hi.2.2
  case raw.uni => exact absurd h.1 hi.2.2
  case esc.raw => exact absurd h.1.symm hj.2.2
  case esc.esc => simpa using h
  case esc.uni => exact absurd h.2.1 (hu hi)
  case uni.raw => exact absurd h.1.symm hj.2.2
  case uni.esc => exact absurd h.2.1.symm (hu hj)
  case uni.uni => simpa [and_assoc] using h

theorem text_ne_quote {i : StrItem} (hi : i.WellFormed) {s t : Bytes} :
    i.text ++ s ≠ ch '"' :: t := by
  intro h
  cases i <;> simp only [text, List.cons_append, List.nil_append, List.cons.injEq] at h
  case raw => exact hi.2.1 h.1
  case esc => exact absurd h.1 (by decide)
  case uni => exact absurd h.1 (by decide)

end StrItem

def itemsText (items : List StrItem) : Bytes := items.flatMap StrItem.text

/-- The bytes the characters of a literal denote. -/
def itemsDenote (items : List StrItem) : Bytes := items.flatMap StrItem.denote

/-- A string literal. -/
def strText (items : List StrItem) : Bytes := ch '"' :: (itemsText items ++ [ch '"'])

@[simp] theorem itemsText_nil : itemsText [] = [] := rfl

@[simp] theorem itemsText_cons (i : StrItem) (items : List StrItem) :
    itemsText (i :: items) = i.text ++ itemsText items := rfl

def ItemsWellFormed (items : List StrItem) : Prop := ∀ i ∈ items, i.WellFormed

instance (items : List StrItem) : Decidable (ItemsWellFormed items) := by
  unfold ItemsWellFormed; infer_instance

theorem itemsText_unique {a b : List StrItem} (ha : ItemsWellFormed a) (hb : ItemsWellFormed b)
    {s t : Bytes} (h : itemsText a ++ ch '"' :: s = itemsText b ++ ch '"' :: t) :
    a = b ∧ s = t := by
  induction a generalizing b with
  | nil =>
    cases b with
    | nil => simpa using h
    | cons j b =>
      rw [itemsText_cons, List.append_assoc] at h
      exact absurd h.symm (StrItem.text_ne_quote (hb j List.mem_cons_self))
  | cons i a ih =>
    cases b with
    | nil =>
      rw [itemsText_cons, List.append_assoc] at h
      exact absurd h (StrItem.text_ne_quote (ha i List.mem_cons_self))
    | cons j b =>
      rw [itemsText_cons, itemsText_cons, List.append_assoc, List.append_assoc] at h
      obtain ⟨rfl, htail⟩ :=
        StrItem.text_unique (ha i List.mem_cons_self) (hb j List.mem_cons_self) h
      obtain ⟨rfl, hst⟩ := ih (fun x hx => ha x (List.mem_cons_of_mem _ hx))
        (fun x hx => hb x (List.mem_cons_of_mem _ hx)) htail
      exact ⟨rfl, hst⟩

theorem strText_unique {a b : List StrItem} (ha : ItemsWellFormed a) (hb : ItemsWellFormed b)
    {s t : Bytes} (h : strText a ++ s = strText b ++ t) : a = b ∧ s = t := by
  apply itemsText_unique ha hb
  simpa [strText] using h

/-! ## Values -/

mutual

inductive Value where
  | null
  | bool (b : Bool)
  | num (tok : Bytes)
  | str (items : List StrItem)
  | arr (es : Elems)
  | obj (ms : Members)

/-- The elements of an array from some point on: each with the bytes before it, and at the end the
bytes before the closing bracket. -/
inductive Elems where
  | close (gap : Bytes)
  | elem (gap : Bytes) (v : Value) (rest : Elems)

/-- The members of an object from some point on; `pre` and `post` stand around the colon. -/
inductive Members where
  | close (gap : Bytes)
  | member (gap : Bytes) (key : List StrItem) (pre post : Bytes) (v : Value) (rest : Members)

end

mutual

def Value.text : Value → Bytes
  | .null => ascii "null"
  | .bool b => if b then ascii "true" else ascii "false"
  | .num tok => tok
  | .str items => strText items
  | .arr es => ch '[' :: es.text
  | .obj ms => ch '{' :: ms.text

def Elems.text : Elems → Bytes
  | .close gap => gap ++ [ch ']']
  | .elem gap v rest => gap ++ (v.text ++ rest.text)

def Members.text : Members → Bytes
  | .close gap => gap ++ [ch '}']
  | .member gap key pre post v rest =>
    gap ++ (strText key ++ (pre ++ ch ':' :: (post ++ (v.text ++ rest.text))))

end

/-- What stands before a value: white space at the start, a separator later on. -/
def IsGap (first : Bool) (gap : Bytes) : Prop := if first then AllWs gap else IsSeparator gap

mutual

def Value.WellFormed : Value → Prop
  | .null => True
  | .bool _ => True
  | .num tok => IsNumber tok
  | .str items => ItemsWellFormed items
  | .arr es => es.WellFormed true
  | .obj ms => ms.WellFormed true

def Elems.WellFormed (first : Bool) : Elems → Prop
  | .close gap => AllWs gap
  | .elem gap v rest => IsGap first gap ∧ v.WellFormed ∧ rest.WellFormed false

def Members.WellFormed (first : Bool) : Members → Prop
  | .close gap => AllWs gap
  | .member gap key pre post v rest =>
    IsGap first gap ∧ ItemsWellFormed key ∧ AllWs pre ∧ AllWs post ∧ v.WellFormed ∧
      rest.WellFormed false

end

/-- The elements with one more byte before the first. -/
def Elems.push (c : UInt8) : Elems → Elems
  | .close gap => .close (c :: gap)
  | .elem gap v rest => .elem (c :: gap) v rest

/-- The members with one more byte before the first. -/
def Members.push (c : UInt8) : Members → Members
  | .close gap => .close (c :: gap)
  | .member gap key pre post v rest => .member (c :: gap) key pre post v rest

@[simp] theorem Elems.text_push (c : UInt8) (es : Elems) : (es.push c).text = c :: es.text := by
  cases es <;> simp [Elems.push, Elems.text]

@[simp] theorem Members.text_push (c : UInt8) (ms : Members) :
    (ms.push c).text = c :: ms.text := by
  cases ms <;> simp [Members.push, Members.text]

def Value.isArr : Value → Bool
  | .arr _ => true
  | _ => false

def Value.isContainer : Value → Bool
  | .arr _ => true
  | .obj _ => true
  | _ => false

/-- A JSON text whose value is an array or an object. -/
structure Document where
  lead : Bytes
  root : Value
  trail : Bytes
  lead_ws : AllWs lead
  trail_ws : AllWs trail
  container : root.isContainer
  wellFormed : root.WellFormed

def Document.text (d : Document) : Bytes := d.lead ++ (d.root.text ++ d.trail)

/-- `T` is the text of a document. -/
def IsDocument (T : Bytes) : Prop := ∃ d : Document, d.text = T

/-! ## Brackets outside strings -/

/-- Where a byte stands: outside strings, right after a `]` there, in a string, or after a backslash
in a string. -/
inductive Mode where
  | out
  | shut
  | str
  | esc
  deriving DecidableEq

namespace Mode

def next : Mode → UInt8 → Mode
  | out, c => if c = ch '"' then str else if c = ch ']' then shut else out
  | shut, _ => out
  | str, c => if c = ch '"' then out else if c = ch '\\' then esc else str
  | esc, _ => str

/-- `1` for an opening bracket and `-1` for a closing one, outside strings.  Right after a `]` every
byte that cannot stand between two values counts `-1`. -/
def weight : Mode → UInt8 → ℤ
  | out, c =>
    if c = ch '[' ∨ c = ch '{' then 1 else if c = ch ']' ∨ c = ch '}' then -1 else 0
  | shut, c => if isGapByte c then 0 else -1
  | _, _ => 0

end Mode

/-- The mode after a text. -/
def after (m : Mode) (s : Bytes) : Mode := s.foldl Mode.next m

/-- The weight of a text. -/
def weight : Mode → Bytes → ℤ
  | _, [] => 0
  | m, c :: s => m.weight c + weight (m.next c) s

@[simp] theorem after_nil (m : Mode) : after m [] = m := rfl

@[simp] theorem after_cons (m : Mode) (c : UInt8) (s : Bytes) :
    after m (c :: s) = after (m.next c) s := rfl

@[simp] theorem after_append (m : Mode) (s t : Bytes) :
    after m (s ++ t) = after (after m s) t := List.foldl_append

@[simp] theorem weight_nil (m : Mode) : weight m [] = 0 := rfl

@[simp] theorem weight_cons (m : Mode) (c : UInt8) (s : Bytes) :
    weight m (c :: s) = m.weight c + weight (m.next c) s := rfl

@[simp] theorem weight_append (m : Mode) (s t : Bytes) :
    weight m (s ++ t) = weight m s + weight (after m s) t := by
  induction s generalizing m with
  | nil => simp
  | cons c s ih => simp [ih, add_assoc]

/-- A byte that changes neither mode nor weight outside strings. -/
def isPlain (c : UInt8) : Bool := Mode.out.next c = .out ∧ Mode.out.weight c = 0

theorem scan_plain {s : Bytes} (h : ∀ c ∈ s, isPlain c) :
    after .out s = .out ∧ weight .out s = 0 := by
  induction s with
  | nil => exact ⟨rfl, rfl⟩
  | cons c s ih =>
    have hc : Mode.out.next c = .out ∧ Mode.out.weight c = 0 := by
      simpa [isPlain] using h c List.mem_cons_self
    obtain ⟨hafter, hweight⟩ := ih fun x hx => h x (List.mem_cons_of_mem _ hx)
    simp [hc, hafter, hweight]

theorem isGapByte_plain (c : UInt8) (h : isGapByte c) : isPlain c := by
  simp only [isGapByte, isWs, decide_eq_true_eq] at h
  rcases h with (rfl | rfl | rfl | rfl) | rfl <;> decide

theorem isNumberByte_plain : ∀ c : UInt8, isNumberByte c → isPlain c := by decide +kernel

theorem scan_gap {s : Bytes} (h : ∀ c ∈ s, isGapByte c) : after .out s = .out ∧ weight .out s = 0 :=
  scan_plain fun c hc => isGapByte_plain c (h c hc)

theorem scan_item {i : StrItem} (h : i.WellFormed) :
    after .str i.text = .str ∧ weight .str i.text = 0 := by
  cases i with
  | raw c => simp [StrItem.text, Mode.next, Mode.weight, h.2.1, h.2.2]
  | esc c => simp [StrItem.text, Mode.next, Mode.weight, ch]
  | uni a b c d =>
    have hraw : ∀ x : UInt8, (hexVal x).isSome → x ≠ ch '"' ∧ x ≠ ch '\\' := by decide +kernel
    have ha := hraw a (h a (by simp))
    have hb := hraw b (h b (by simp))
    have hc := hraw c (h c (by simp))
    have hd := hraw d (h d (by simp))
    have hbackslash : Mode.str.next (ch '\\') = .esc := by decide
    simp only [StrItem.text, after_cons, after_nil, weight_cons, weight_nil, hbackslash]
    simp [Mode.next, Mode.weight, ha, hb, hc, hd]

theorem scan_string {items : List StrItem} (h : ItemsWellFormed items) :
    after .out (strText items) = .out ∧ weight .out (strText items) = 0 := by
  have hitems : after .str (itemsText items) = .str ∧ weight .str (itemsText items) = 0 := by
    induction items with
    | nil => exact ⟨rfl, rfl⟩
    | cons i items ih =>
      obtain ⟨hafter, hweight⟩ := scan_item (h i List.mem_cons_self)
      obtain ⟨hafter', hweight'⟩ := ih fun x hx => h x (List.mem_cons_of_mem _ hx)
      simp [hafter, hweight, hafter', hweight']
  have hopen : Mode.out.next (ch '"') = .str ∧ Mode.out.weight (ch '"') = 0 := by decide
  have hclose : Mode.str.next (ch '"') = .out ∧ Mode.str.weight (ch '"') = 0 := by decide
  simp [strText, hopen, hclose, hitems.1, hitems.2]

/-! ## Documents are balanced -/

/-- A mode outside strings. -/
def Mode.IsOutside (m : Mode) : Prop := m = .out ∨ m = .shut

theorem IsGap.isGapByte {first : Bool} {gap : Bytes} (h : IsGap first gap) :
    ∀ c ∈ gap, JsonSyntax.isGapByte c := by
  cases first with
  | true => exact AllWs.isGapByte h
  | false => exact IsSeparator.isGapByte h

/-- A gap after a `]` leads out of the mode `shut` unless it is empty. -/
theorem scan_gap_outside {m : Mode} (hm : m.IsOutside) {gap : Bytes}
    (h : ∀ c ∈ gap, isGapByte c) :
    weight m gap = 0 ∧ (after m gap).IsOutside ∧ (gap ≠ [] → after m gap = .out) := by
  rcases hm with rfl | rfl
  · obtain ⟨hafter, hweight⟩ := scan_gap h
    exact ⟨hweight, Or.inl hafter, fun _ => hafter⟩
  · cases gap with
    | nil => exact ⟨rfl, Or.inr rfl, fun hne => absurd rfl hne⟩
    | cons c gap =>
      have hc : Mode.shut.next c = .out ∧ Mode.shut.weight c = 0 := by
        simp [Mode.next, Mode.weight, h c List.mem_cons_self]
      obtain ⟨hafter, hweight⟩ := scan_gap fun x hx => h x (List.mem_cons_of_mem c hx)
      simp [hc, hafter, hweight, Mode.IsOutside]

theorem scan_isGap {m : Mode} (hm : m.IsOutside) {first : Bool} (hfirst : first → m = .out)
    {gap : Bytes} (h : IsGap first gap) : weight m gap = 0 ∧ after m gap = .out := by
  obtain ⟨hweight, -, hafter⟩ := scan_gap_outside hm h.isGapByte
  refine ⟨hweight, ?_⟩
  cases first with
  | false => exact hafter (IsSeparator.ne_nil h)
  | true =>
    rw [hfirst rfl]
    exact (scan_gap h.isGapByte).1

/-- The name of a member and what is around it leave the value to be scanned from outside. -/
theorem scan_member {m : Mode} (hm : m.IsOutside) {first : Bool} (hfirst : first → m = .out)
    {gap pre post : Bytes} {key : List StrItem} (hgap : IsGap first gap)
    (hkey : ItemsWellFormed key) (hpre : AllWs pre) (hpost : AllWs post) (s : Bytes) :
    weight m (gap ++ (strText key ++ (pre ++ ch ':' :: (post ++ s)))) = weight .out s ∧
      after m (gap ++ (strText key ++ (pre ++ ch ':' :: (post ++ s)))) = after .out s := by
  obtain ⟨hweight, hafter⟩ := scan_isGap hm hfirst hgap
  obtain ⟨hafterk, hweightk⟩ := scan_string hkey
  obtain ⟨hafterp, hweightp⟩ := scan_gap hpre.isGapByte
  obtain ⟨hafterq, hweightq⟩ := scan_gap hpost.isGapByte
  have hcolon : Mode.out.next (ch ':') = .out ∧ Mode.out.weight (ch ':') = 0 := by decide
  simp [hweight, hafter, hweightk, hafterk, hweightp, hafterp, hcolon, hweightq, hafterq]

theorem scan_close {m : Mode} (hm : m.IsOutside) :
    (m.weight (ch ']') = -1 ∧ (m.next (ch ']')).IsOutside) ∧
      (m.weight (ch '}') = -1 ∧ m.next (ch '}') = .out) := by
  rcases hm with rfl | rfl
  · exact ⟨⟨by decide, Or.inr rfl⟩, by decide⟩
  · exact ⟨⟨by decide, Or.inl rfl⟩, by decide⟩

mutual

theorem Value.scan (v : Value) (h : v.WellFormed) :
    weight .out v.text = 0 ∧ (after .out v.text).IsOutside := by
  cases v with
  | null => exact ⟨by decide, Or.inl (by decide)⟩
  | bool b => cases b <;> exact ⟨by decide, Or.inl (by decide)⟩
  | num tok =>
    obtain ⟨hafter, hweight⟩ :=
      scan_plain fun c hc => isNumberByte_plain c (IsNumber.isNumberByte h c hc)
    exact ⟨hweight, Or.inl hafter⟩
  | str items =>
    obtain ⟨hafter, hweight⟩ := scan_string h
    exact ⟨hweight, Or.inl hafter⟩
  | arr es =>
    obtain ⟨hweight, hafter⟩ := es.scan true .out h (Or.inl rfl) fun _ => rfl
    have hopen : Mode.out.next (ch '[') = .out ∧ Mode.out.weight (ch '[') = 1 := by decide
    simp [Value.text, hopen, hweight, hafter]
  | obj ms =>
    obtain ⟨hweight, hafter⟩ := ms.scan true .out h (Or.inl rfl) fun _ => rfl
    have hopen : Mode.out.next (ch '{') = .out ∧ Mode.out.weight (ch '{') = 1 := by decide
    simp [Value.text, hopen, hweight, hafter, Mode.IsOutside]

theorem Elems.scan (es : Elems) (first : Bool) (m : Mode) (h : es.WellFormed first)
    (hm : m.IsOutside) (hfirst : first → m = .out) :
    weight m es.text = -1 ∧ (after m es.text).IsOutside := by
  cases es with
  | close gap =>
    obtain ⟨hweight, houtside, -⟩ := scan_gap_outside hm (AllWs.isGapByte h)
    obtain ⟨⟨hclose, hnext⟩, -⟩ := scan_close houtside
    simp [Elems.text, hweight, hclose, hnext]
  | elem gap v rest =>
    obtain ⟨hgap, hv, hrest⟩ := h
    obtain ⟨hweight, hafter⟩ := scan_isGap hm hfirst hgap
    obtain ⟨hweightv, houtside⟩ := v.scan hv
    obtain ⟨hweightr, hafterr⟩ := rest.scan false (after .out v.text) hrest houtside (by simp)
    simp [Elems.text, hweight, hafter, hweightv, hweightr, hafterr]

theorem Members.scan (ms : Members) (first : Bool) (m : Mode) (h : ms.WellFormed first)
    (hm : m.IsOutside) (hfirst : first → m = .out) :
    weight m ms.text = -1 ∧ after m ms.text = .out := by
  cases ms with
  | close gap =>
    obtain ⟨hweight, houtside, -⟩ := scan_gap_outside hm (AllWs.isGapByte h)
    obtain ⟨-, hclose, hnext⟩ := scan_close houtside
    simp [Members.text, hweight, hclose, hnext]
  | member gap key pre post v rest =>
    obtain ⟨hgap, hkey, hpre, hpost, hv, hrest⟩ := h
    obtain ⟨hweight, hafter⟩ := scan_member hm hfirst hgap hkey hpre hpost (v.text ++ rest.text)
    obtain ⟨hweightv, houtside⟩ := v.scan hv
    obtain ⟨hweightr, hafterr⟩ := rest.scan false (after .out v.text) hrest houtside (by simp)
    rw [Members.text, hweight, hafter]
    simp [hweightv, hweightr, hafterr]

end

/-- The brackets of a document that stand outside its strings balance. -/
theorem Document.weight_text (d : Document) : weight .out d.text = 0 := by
  obtain ⟨hafter, hweight⟩ := scan_gap d.lead_ws.isGapByte
  obtain ⟨hweightv, houtside⟩ := d.root.scan d.wellFormed
  obtain ⟨hweightt, -⟩ := scan_gap_outside houtside d.trail_ws.isGapByte
  simp [Document.text, hafter, hweight, hweightv, hweightt]

end JsonSyntax
