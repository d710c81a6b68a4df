import CoUringWeb.Framework.Delimiters
import CoUringWeb.Json.Reading

/-!
# A JSON text has one reading

The parser's grammar overlaps with RFC 8259, and on a text that is in both there is one syntax tree:
a reading of a document's text is that document.

The byte after a nested array is where the two could part, since the parser passes over it.  If it
is a bracket, the reading closes fewer brackets than it opens; in a document they balance.
-/

namespace CoUringWeb

namespace JsonParser

open Machine JsonSyntax Delimiters

/-! ## Bytes that are passed over -/

def skipsGap : Before → Bytes → ℕ
  | .skip, c :: _ => if isGapByte c then 0 else 1
  | _, _ => 0

mutual

/-- How many bytes that are neither white space nor a comma are passed over in `v`. -/
def skips : Value → ℕ
  | .arr es => skipsElems es (.ready false)
  | .obj ms => skipsMembers ms
  | _ => 0

def skipsElems : Elems → Before → ℕ
  | .close gap, before => skipsGap before gap
  | .elem gap v rest, before => skipsGap before gap + skips v + skipsElems rest (.of v)

def skipsMembers : Members → ℕ
  | .close _ => 0
  | .member _ _ _ _ v rest => skips v + skipsMembers rest

end

/-! ## The weight of a reading -/

/-- The mode of the scan where the loop of `parseArray` stands. -/
def Before.mode : Before → Mode
  | skip => .shut
  | ready _ => .out

theorem mode_isOutside (before : Before) : before.mode.IsOutside := by
  cases before with
  | skip => exact Or.inr rfl
  | ready _ => exact Or.inl rfl

theorem scan_before {before : Before} {gap : Bytes} (h : before.accepts gap) :
    weight before.mode gap = -(skipsGap before gap : ℤ) ∧ after before.mode gap = .out := by
  cases before with
  | ready b =>
    obtain ⟨hafter, hweight⟩ := scan_gap (gapAccepted.isGapByte h)
    exact ⟨by simpa [skipsGap, Before.mode] using hweight, hafter⟩
  | skip =>
    cases gap with
    | nil => cases h
    | cons c gap =>
      obtain ⟨hafter, hweight⟩ := scan_gap (gapAccepted.isGapByte h)
      have hnext : Mode.shut.next c = .out := rfl
      refine ⟨?_, by simpa [Before.mode, hnext] using hafter⟩
      by_cases hc : isGapByte c <;> simp [Before.mode, hnext, hweight, skipsGap, Mode.weight, hc]

mutual

theorem accepts_scan (v : Value) {t : Bytes} (h : Accepts v t) :
    weight .out v.text = -(skips v : ℤ) ∧ after .out v.text = (Before.of v).mode := by
  cases v with
  | null => exact ⟨by decide, by decide⟩
  | bool b => cases b <;> exact ⟨by decide, by decide⟩
  | num tok =>
    obtain ⟨hafter, hweight⟩ := scan_plain fun c hc => isNumberByte_plain c (h.1.2 c hc)
    exact ⟨hweight, hafter⟩
  | str items =>
    obtain ⟨hafter, hweight⟩ := scan_string h.1
    exact ⟨hweight, hafter⟩
  | arr es =>
    obtain ⟨hweight, hafter⟩ := acceptsElems_scan es (.ready false) h
    have hopen : Mode.out.next (ch '[') = .out ∧ Mode.out.weight (ch '[') = 1 := by decide
    simp only [Before.mode] at hweight hafter
    simp [Value.text, hopen, hweight, hafter, skips, Before.of, Value.isArr, Before.mode]
    ring
  | obj ms =>
    obtain ⟨hweight, hafter⟩ := acceptsMembers_scan ms true .out h (Or.inl rfl) fun _ => rfl
    have hopen : Mode.out.next (ch '{') = .out ∧ Mode.out.weight (ch '{') = 1 := by decide
    simp [Value.text, hopen, hweight, hafter, skips, Before.of, Value.isArr, Before.mode]
    ring

theorem acceptsElems_scan (es : Elems) (before : Before) {t : Bytes}
    (h : AcceptsElems es before t) :
    weight before.mode es.text = -1 - (skipsElems es before : ℤ) ∧
      after before.mode es.text = .shut := by
  have hclose : Mode.out.next (ch ']') = .shut ∧ Mode.out.weight (ch ']') = -1 := by decide
  cases es with
  | close gap =>
    obtain ⟨hweight, hafter⟩ := scan_before h
    simp only [Elems.text, weight_append, after_append, hweight, hafter, skipsElems, weight_cons,
      weight_nil, after_cons, after_nil, hclose, and_true]
    ring
  | elem gap v rest =>
    obtain ⟨hgap, hv, hrest⟩ := h
    obtain ⟨hweight, hafter⟩ := scan_before hgap
    obtain ⟨hweightv, hafterv⟩ := accepts_scan v hv
    obtain ⟨hweightr, hafterr⟩ := acceptsElems_scan rest (.of v) hrest
    simp only [Elems.text, weight_append, after_append, hweight, hafter, hweightv, hafterv,
      hweightr, hafterr, skipsElems, and_true]
    push_cast
    ring

theorem acceptsMembers_scan (ms : Members) (first : Bool) (m : Mode) {t : Bytes}
    (h : AcceptsMembers ms first t) (hm : m.IsOutside) (hfirst : first → m = .out) :
    weight m ms.text = -1 - (skipsMembers ms : ℤ) ∧ after m ms.text = .out := by
  cases ms with
  | close gap =>
    obtain ⟨hweight, houtside, -⟩ := scan_gap_outside hm (AllWs.isGapByte h.2)
    obtain ⟨-, hclose, hnext⟩ := scan_close houtside
    simp [Members.text, hweight, hclose, hnext, skipsMembers]
  | member gap key pre post v rest =>
    obtain ⟨hgap, hkey, hpre, hpost, hv, hrest⟩ := h
    obtain ⟨hweight, hafter⟩ := scan_member hm hfirst hgap hkey hpre hpost (v.text ++ rest.text)
    obtain ⟨hweightv, hafterv⟩ := accepts_scan v hv
    obtain ⟨hweightr, hafterr⟩ := acceptsMembers_scan rest false (Before.of v).mode hrest
      (mode_isOutside _) (by simp)
    rw [Members.text, hweight, hafter]
    simp only [weight_append, after_append, hweightv, hafterv, hweightr, hafterr, skipsMembers,
      and_true]
    push_cast
    ring

end

/-- Every odd byte a reading passes over is a closing bracket too few. -/
theorem Reading.weight_text (r : Reading) : weight .out r.text = -(skips r.root : ℤ) := by
  obtain ⟨hafter, hweight⟩ := scan_gap r.lead_ws.isGapByte
  obtain ⟨hweightv, hafterv⟩ := accepts_scan r.root r.accepts
  obtain ⟨hweightt, -⟩ := scan_gap_outside (mode_isOutside (.of r.root)) r.trail_ws.isGapByte
  simp [Reading.text, hafter, hweight, hweightv, hafterv, hweightt]

/-! ## The first byte after a gap -/

/-- A byte a value can start with does not belong to a gap and closes no array. -/
theorem label_value_ne : ∀ (v : Value) (c : UInt8), label c = valueLabel v →
    isGapByte c = false ∧ c ≠ ch ']' ∧ c ≠ ch '}' := by
  intro v c hc
  -- each of these bytes has another label
  have hne : valueLabel v ≠ .comma ∧ valueLabel v ≠ .space ∧ valueLabel v ≠ .arrayEnd ∧
      valueLabel v ≠ .mapEnd := by
    cases v <;> simp [valueLabel]
  rw [← hc, ne_eq, label_comma, ne_eq, label_space, ne_eq, label_arrayEnd, ne_eq,
    label_mapEnd] at hne
  refine ⟨?_, hne.2.2⟩
  simp [isGapByte, hne.1, hne.2.1]

theorem wellFormed_head {v : Value} (h : v.WellFormed) :
    ∃ c s, v.text = c :: s ∧ label c = valueLabel v := by
  apply text_head
  rintro tok rfl
  exact IsNumber.exists_start h

theorem numTok_unique {a b s t : Bytes} (ha : ∀ c ∈ a, isNumberByte c)
    (hb : ∀ c ∈ b, isNumberByte c) (hs : EndsNumber s) (ht : EndsNumber t)
    (h : a ++ s = b ++ t) : a = b ∧ s = t := by
  obtain ⟨c, s, rfl, hc⟩ := hs
  obtain ⟨d, t, rfl, hd⟩ := ht
  obtain ⟨rfl, rfl, rfl⟩ := span_unique ha hb (by simpa using hc) (by simpa using hd) h
  exact ⟨rfl, rfl⟩

theorem isGapByte_ne_number : ∀ c, isGapByte c → ¬ isNumberByte c := by decide +kernel

/-- What follows a value in a document ends a number. -/
theorem endsNumber_gap {gap u : Bytes} (hgap : ∀ c ∈ gap, isGapByte c)
    (hu : gap = [] → EndsNumber u) : EndsNumber (gap ++ u) := by
  cases gap with
  | nil => exact hu rfl
  | cons c gap => exact ⟨c, gap ++ u, rfl, isGapByte_ne_number c (hgap c List.mem_cons_self)⟩

theorem elems_endsNumber {es : Elems} {t : Bytes} (h : es.WellFormed false) :
    EndsNumber (es.text ++ t) := by
  cases es with
  | close gap =>
    rw [Elems.text, List.append_assoc]
    apply endsNumber_gap (AllWs.isGapByte h)
    intro _
    exact ⟨ch ']', t, rfl, by decide⟩
  | elem gap v rest =>
    rw [Elems.text, List.append_assoc]
    apply endsNumber_gap (IsSeparator.isGapByte h.1)
    intro hnil
    exact absurd hnil (IsSeparator.ne_nil h.1)

theorem members_endsNumber {ms : Members} {t : Bytes} (h : ms.WellFormed false) :
    EndsNumber (ms.text ++ t) := by
  cases ms with
  | close gap =>
    rw [Members.text, List.append_assoc]
    apply endsNumber_gap (AllWs.isGapByte h)
    intro _
    exact ⟨ch '}', t, rfl, by decide⟩
  | member gap key pre post v rest =>
    rw [Members.text, List.append_assoc]
    apply endsNumber_gap (IsSeparator.isGapByte h.1)
    intro hnil
    exact absurd hnil (IsSeparator.ne_nil h.1)

/-! ## Two trees for one text -/

theorem accepts_gapBytes {before : Before} {gap : Bytes} (h : before.accepts gap)
    (hskips : skipsGap before gap = 0) : ∀ c ∈ gap, isGapByte c := by
  cases before with
  | ready b => exact gapAccepted.isGapByte h
  | skip =>
    cases gap with
    | nil => simp
    | cons c gap =>
      intro x hx
      rcases List.mem_cons.mp hx with rfl | hx
      · by_contra hc
        simp [skipsGap, hc] at hskips
      · exact gapAccepted.isGapByte h x hx

theorem isWs_of_not_gap {c : UInt8} (h : isGapByte c = false) : isWs c = false := by
  simp only [isGapByte, decide_eq_false_iff_not, not_or, Bool.not_eq_true] at h
  exact h.1

mutual

/-- A value of a document and a value the parser reads, in which no odd byte is passed over, are the
same when their texts begin alike. -/
theorem value_unique (v w : Value) {s t : Bytes} (h : v.text ++ s = w.text ++ t)
    (hv : v.WellFormed) (hw : Accepts w t) (hskips : skips w = 0)
    (hs : EndsNumber s ∨ v.isContainer) :
    v = w ∧ s = t := by
  -- the first byte tells the kind of both
  have hlabel : valueLabel v = valueLabel w := by
    obtain ⟨c, x, hvtext, hvlabel⟩ := wellFormed_head hv
    obtain ⟨d, y, hwtext, hwlabel⟩ := accepts_head hw
    rw [hvtext, hwtext] at h
    rw [← hvlabel, ← hwlabel, (List.cons.inj h).1]
  cases v with
  | null =>
    cases w <;> simp only [valueLabel, reduceCtorEq] at hlabel
    exact ⟨rfl, List.append_cancel_left h⟩
  | bool b =>
    cases w <;> simp only [valueLabel, reduceCtorEq] at hlabel
    rename_i d
    cases b <;> cases d
    · exact ⟨rfl, List.append_cancel_left h⟩
    · exact absurd (List.cons.inj h).1 (by decide)
    · exact absurd (List.cons.inj h).1 (by decide)
    · exact ⟨rfl, List.append_cancel_left h⟩
  | num tok =>
    cases w <;> simp only [valueLabel, reduceCtorEq] at hlabel
    have hs : EndsNumber s := by simpa [Value.isContainer] using hs
    obtain ⟨rfl, hst⟩ := numTok_unique (IsNumber.isNumberByte hv) hw.1.2 hs hw.2 h
    exact ⟨rfl, hst⟩
  | str items =>
    cases w <;> simp only [valueLabel, reduceCtorEq] at hlabel
    obtain ⟨rfl, hst⟩ := strText_unique hv hw.1 h
    exact ⟨rfl, hst⟩
  | arr es =>
    cases w <;> simp only [valueLabel, reduceCtorEq] at hlabel
    rename_i es'
    obtain ⟨rfl, hst⟩ := elems_unique es es' (.ready false) (List.cons.inj h).2 hv hw hskips
    exact ⟨rfl, hst⟩
  | obj ms =>
    cases w <;> simp only [valueLabel, reduceCtorEq] at hlabel
    rename_i ms'
    obtain ⟨rfl, hst⟩ := members_unique ms ms' true true (List.cons.inj h).2 hv hw hskips
    exact ⟨rfl, hst⟩

theorem elems_unique (es fs : Elems) {first : Bool} (before : Before) {s t : Bytes}
    (h : es.text ++ s = fs.text ++ t) (hes : es.WellFormed first) (hfs : AcceptsElems fs before t)
    (hskips : skipsElems fs before = 0) : es = fs ∧ s = t := by
  cases es with
  | close gap =>
    cases fs with
    | close gap' =>
      simp only [Elems.text, List.append_assoc, List.cons_append, List.nil_append] at h
      obtain ⟨rfl, -, hst⟩ := span_unique (AllWs.isGapByte hes) (accepts_gapBytes hfs hskips)
        (by decide) (by decide) h
      exact ⟨rfl, hst⟩
    | elem gap' w rest' =>
      simp only [skipsElems, Nat.add_eq_zero_iff] at hskips
      obtain ⟨d, y, hwtext, hwlabel⟩ := accepts_head hfs.2.1
      obtain ⟨hgap, hbracket, -⟩ := label_value_ne w d hwlabel
      simp only [Elems.text, hwtext, List.append_assoc, List.cons_append, List.nil_append] at h
      obtain ⟨-, hd, -⟩ := span_unique (AllWs.isGapByte hes)
        (accepts_gapBytes hfs.1 hskips.1.1) (by decide) hgap h
      exact absurd hd.symm hbracket
  | elem gap v rest =>
    obtain ⟨hgap, hv, hrest⟩ := hes
    obtain ⟨c, x, hvtext, hvlabel⟩ := wellFormed_head hv
    obtain ⟨hcgap, hcbracket, -⟩ := label_value_ne v c hvlabel
    cases fs with
    | close gap' =>
      simp only [Elems.text, hvtext, List.append_assoc, List.cons_append, List.nil_append] at h
      obtain ⟨-, hc, -⟩ := span_unique hgap.isGapByte (accepts_gapBytes hfs hskips) hcgap
        (by decide) h
      exact absurd hc hcbracket
    | elem gap' w rest' =>
      simp only [skipsElems, Nat.add_eq_zero_iff] at hskips
      obtain ⟨⟨hskipsGap, hskipsw⟩, hskipsRest⟩ := hskips
      obtain ⟨hgap', hw, hrest'⟩ := hfs
      obtain ⟨d, y, hwtext, hwlabel⟩ := accepts_head hw
      obtain ⟨hdgap, -, -⟩ := label_value_ne w d hwlabel
      have hheads :
          gap ++ c :: (x ++ (rest.text ++ s)) = gap' ++ d :: (y ++ (rest'.text ++ t)) := by
        simpa [Elems.text, hvtext, hwtext] using h
      obtain ⟨rfl, rfl, htail⟩ := span_unique hgap.isGapByte (accepts_gapBytes hgap' hskipsGap)
        hcgap hdgap hheads
      have hvalues : v.text ++ (rest.text ++ s) = w.text ++ (rest'.text ++ t) := by
        simp [hvtext, hwtext, htail]
      obtain ⟨rfl, hrests⟩ := value_unique v w hvalues hv hw hskipsw
        (Or.inl (elems_endsNumber hrest))
      obtain ⟨rfl, hst⟩ := elems_unique rest rest' (.of v) hrests hrest hrest' hskipsRest
      exact ⟨rfl, hst⟩

theorem members_unique (ms ns : Members) (first first' : Bool) {s t : Bytes}
    (h : ms.text ++ s = ns.text ++ t) (hms : ms.WellFormed first)
    (hns : AcceptsMembers ns first' t) (hskips : skipsMembers ns = 0) : ms = ns ∧ s = t := by
  have hquote : isGapByte (ch '"') = false := by decide
  have hbrace : isGapByte (ch '}') = false := by decide
  have hcolon : isWs (ch ':') = false := by decide
  cases ms with
  | close gap =>
    cases ns with
    | close gap' =>
      simp only [Members.text, List.append_assoc, List.cons_append, List.nil_append] at h
      obtain ⟨rfl, -, hst⟩ := span_unique (AllWs.isGapByte hms) (AllWs.isGapByte hns.2) hbrace
        hbrace h
      exact ⟨rfl, hst⟩
    | member gap' key' pre' post' w rest' =>
      simp only [Members.text, strText, List.append_assoc, List.cons_append, List.nil_append] at h
      obtain ⟨-, hc, -⟩ := span_unique (AllWs.isGapByte hms) hns.1.isGapByte hbrace hquote h
      exact absurd hc (by decide)
  | member gap key pre post v rest =>
    obtain ⟨hgap, hkey, hpre, hpost, hv, hrest⟩ := hms
    cases ns with
    | close gap' =>
      simp only [Members.text, strText, List.append_assoc, List.cons_append, List.nil_append] at h
      obtain ⟨-, hc, -⟩ := span_unique hgap.isGapByte (AllWs.isGapByte hns.2) hquote hbrace h
      exact absurd hc (by decide)
    | member gap' key' pre' post' w rest' =>
      simp only [skipsMembers, Nat.add_eq_zero_iff] at hskips
      obtain ⟨hskipsw, hskipsRest⟩ := hskips
      obtain ⟨hgap', hkey', hpre', hpost', hw, hrest'⟩ := hns
      simp only [Members.text, List.append_assoc, List.cons_append] at h
      -- gap, key, white space, colon, white space and value agree in turn
      have hkeys := span_unique hgap.isGapByte hgap'.isGapByte hquote hquote
        (s := itemsText key ++
          ([ch '"'] ++ (pre ++ ch ':' :: (post ++ (v.text ++ (rest.text ++ s))))))
        (t := itemsText key' ++
          ([ch '"'] ++ (pre' ++ ch ':' :: (post' ++ (w.text ++ (rest'.text ++ t))))))
        (by simpa [strText] using h)
      obtain ⟨rfl, -, -⟩ := hkeys
      obtain ⟨rfl, hcolons⟩ := strText_unique hkey hkey' (List.append_cancel_left h)
      obtain ⟨rfl, -, hposts⟩ := span_unique hpre hpre' hcolon hcolon hcolons
      obtain ⟨c, x, hvtext, hvlabel⟩ := wellFormed_head hv
      obtain ⟨d, y, hwtext, hwlabel⟩ := accepts_head hw
      have hvalues := span_unique hpost hpost' (isWs_of_not_gap (label_value_ne v c hvlabel).1)
        (isWs_of_not_gap (label_value_ne w d hwlabel).1) (s := x ++ (rest.text ++ s))
        (t := y ++ (rest'.text ++ t)) (by simpa [hvtext, hwtext] using hposts)
      obtain ⟨rfl, -, -⟩ := hvalues
      obtain ⟨rfl, hrests⟩ := value_unique v w (List.append_cancel_left hposts) hv hw hskipsw
        (Or.inl (members_endsNumber hrest))
      obtain ⟨rfl, hst⟩ := members_unique rest rest' false false hrests hrest hrest' hskipsRest
      exact ⟨rfl, hst⟩

end

/-- A reading of the text of a document is the document. -/
theorem reading_unique (d : Document) (r : Reading) (h : r.text = d.text) :
    r.lead = d.lead ∧ r.root = d.root ∧ r.trail = d.trail := by
  have hskips : skips r.root = 0 := by
    have hbalance := d.weight_text
    rw [← h, r.weight_text] at hbalance
    omega
  obtain ⟨c, x, hctext, hclabel⟩ := wellFormed_head d.wellFormed
  obtain ⟨e, y, hetext, helabel⟩ := accepts_head r.accepts
  have hheads : d.lead ++ c :: (x ++ d.trail) = r.lead ++ e :: (y ++ r.trail) := by
    simpa [Reading.text, Document.text, hctext, hetext] using h.symm
  obtain ⟨hlead, rfl, htail⟩ := span_unique d.lead_ws r.lead_ws
    (isWs_of_not_gap (label_value_ne _ c hclabel).1)
    (isWs_of_not_gap (label_value_ne _ e helabel).1) hheads
  have hroots : d.root.text ++ d.trail = r.root.text ++ r.trail := by
    simp [hctext, hetext, htail]
  obtain ⟨hroot, htrail⟩ := value_unique d.root r.root hroots d.wellFormed r.accepts hskips
    (Or.inr d.container)
  exact ⟨hlead.symm, hroot.symm, htrail.symm⟩

end JsonParser

end CoUringWeb
