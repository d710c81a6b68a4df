import CoUringWeb.Json.Denotation
import CoUringWeb.Json.ParserComplete
import CoUringWeb.Json.ParserSound
import CoUringWeb.Json.Unambiguous

/-!
# The parser and RFC 8259

Which documents the parser reads as what they denote, and on which texts it returns although they
are no documents.  Both come down to the one reading a text can have.
-/

namespace CoUringWeb

namespace JsonParser

open Machine Numerals JsonSyntax

variable {δ : Type} [StreamDouble δ]

/-! ## Documents the parser reads -/

mutual

/-- What keeps the parser from misreading `v` when `t` follows: no object is empty, no array ends
right after a nested array, and two bytes follow every empty string. -/
def Survives : Value → Bytes → Prop
  | .str items, t => items = [] → 2 ≤ t.length
  | .arr es, t => SurvivesElems es false t
  | .obj ms, t => SurvivesMembers ms true t
  | _, _ => True

def SurvivesElems : Elems → Bool → Bytes → Prop
  | .close gap, afterArray, _ => afterArray → gap ≠ []
  | .elem _ v rest, _, t => Survives v (rest.text ++ t) ∧ SurvivesElems rest v.isArr t

def SurvivesMembers : Members → Bool → Bytes → Prop
  | .close _, first, _ => first = false
  | .member _ _ _ _ v rest, _, t => Survives v (rest.text ++ t) ∧ SurvivesMembers rest false t

end

mutual

theorem accepts_iff_survives (v : Value) {t : Bytes} (hv : v.WellFormed)
    (ht : EndsNumber t ∨ v.isContainer) : Accepts v t ↔ Survives v t := by
  cases v with
  | null => exact Iff.rfl
  | bool b => exact Iff.rfl
  | num tok =>
    have ht : EndsNumber t := by simpa [Value.isContainer] using ht
    have hrun : IsRun tok := ⟨IsNumber.exists_start hv, IsNumber.isNumberByte hv⟩
    simp [Accepts, Survives, hrun, ht]
  | str items =>
    have hitems : ItemsWellFormed items := hv
    simp [Accepts, Survives, hitems]
  | arr es => exact acceptsElems_iff_survives es true false hv (by simp)
  | obj ms => exact acceptsMembers_iff_survives ms true hv

theorem acceptsElems_iff_survives (es : Elems) (first afterArray : Bool) {t : Bytes}
    (hes : es.WellFormed first) (hfirst : first → afterArray = false) :
    AcceptsElems es (if afterArray then .skip else .ready false) t ↔
      SurvivesElems es afterArray t := by
  cases es with
  | close gap =>
    cases afterArray with
    | false => simp [AcceptsElems, SurvivesElems, Before.accepts, gapAccepted_of_allWs hes]
    | true => simpa [AcceptsElems, SurvivesElems] using skip_accepts_of_allWs hes
  | elem gap v rest =>
    obtain ⟨hgap, hv, hrest⟩ := hes
    have hvalue := accepts_iff_survives v (t := rest.text ++ t) hv (Or.inl (elems_endsNumber hrest))
    have helems := acceptsElems_iff_survives rest false v.isArr (t := t) hrest (by simp)
    have hbefore : (if afterArray then Before.skip else .ready false).accepts gap := by
      cases afterArray with
      | false => exact gapAccepted_of_isGap hgap
      | true =>
        obtain rfl : first = false := by simpa using hfirst
        exact skip_accepts_of_isSeparator hgap
    rw [AcceptsElems, SurvivesElems, hvalue, Before.of, helems]
    simp [hbefore]

theorem acceptsMembers_iff_survives (ms : Members) (first : Bool) {t : Bytes}
    (hms : ms.WellFormed first) : AcceptsMembers ms first t ↔ SurvivesMembers ms first t := by
  cases ms with
  | close gap =>
    have hgap : AllWs gap := hms
    simp [AcceptsMembers, SurvivesMembers, hgap]
  | member gap key pre post v rest =>
    obtain ⟨hgap, hkey, hpre, hpost, hv, hrest⟩ := hms
    have hvalue := accepts_iff_survives v (t := rest.text ++ t) hv
      (Or.inl (members_endsNumber hrest))
    have hmembers := acceptsMembers_iff_survives rest false (t := t) hrest
    simp [AcceptsMembers, SurvivesMembers, hgap, hkey, hpre, hpost, hvalue, hmembers]

end

/-- A document has a reading when it survives. -/
def readingOf (d : Document) (h : Survives d.root d.trail) : Reading where
  lead := d.lead
  root := d.root
  trail := d.trail
  lead_ws := d.lead_ws
  trail_ws := d.trail_ws
  container := d.container
  accepts := (accepts_iff_survives d.root d.wellFormed (Or.inr d.container)).mpr h

theorem denote_container_ne_null {v : Value} (h : v.isContainer) :
    (denote v : JsonPtr δ) ≠ .jsonNull := by
  cases v <;> simp_all [denote, Value.isContainer]

/-- The parser returns what a document denotes exactly when nothing in it is misread and no array
in it has the element `null`. -/
theorem parse_eq_denote_iff (d : Document) (hdomain : InDomain d.root) :
    parse d.text = .ok (denote d.root : JsonPtr δ) ↔
      Survives d.root d.trail ∧ NoNullElement (denote d.root : JsonPtr δ) := by
  have hparsed := parsed_eq_nullify (δ := δ) d.root d.wellFormed hdomain
  constructor
  · intro h
    rcases parseFrom_eq_ok At.zero h with ⟨-, hnull⟩ | ⟨r, htext, hvalue⟩
    · exact absurd hnull (denote_container_ne_null d.container)
    · obtain ⟨-, hroot, htrail⟩ := reading_unique d r htext
      have haccepts := r.accepts
      rw [hroot, htrail] at haccepts
      rw [hroot, hparsed] at hvalue
      exact ⟨(accepts_iff_survives d.root d.wellFormed (Or.inr d.container)).mp haccepts,
        (nullify_eq_self _).mp hvalue.symm⟩
  · rintro ⟨hsurvives, hnull⟩
    have hrun := parse_text (δ := δ) (readingOf d hsurvives)
    rwa [show (readingOf d hsurvives).root = d.root from rfl, hparsed,
      (nullify_eq_self _).mpr hnull] at hrun

theorem isInteger_digit {d : ℕ} (hd : d < 10) : IsInteger [digitByte d] := by
  refine ⟨[], [digitByte d], Or.inl rfl, ?_, rfl⟩
  interval_cases d
  · exact Or.inl (by decide)
  all_goals exact Or.inr ⟨by decide, by decide, by simp [AllDigits]; decide⟩

/-- `{"a":[1] }` -/
def memberArray : Document where
  lead := []
  root := .obj (.member [] [.raw (ch 'a')] [] [] (.arr (.elem [] (.num [digitByte 1]) (.close [])))
    (.close [ch ' ']))
  trail := []
  lead_ws := by simp [AllWs]
  trail_ws := by simp [AllWs]
  container := rfl
  wellFormed := by
    have hnumber : IsNumber [digitByte 1] := (isInteger_digit (by decide)).isNumber
    have hkey : (StrItem.raw (ch 'a')).WellFormed := ⟨by decide, by decide, by decide⟩
    simp [Value.WellFormed, Elems.WellFormed, Members.WellFormed, IsGap, AllWs, ItemsWellFormed,
      hnumber, hkey]
    decide

theorem parse_eq_denote_iff_member_array :
    parse memberArray.text = .ok (denote memberArray.root : JsonPtr Bytes) := by
  have hdomain : InDomain memberArray.root :=
    ⟨by simp [InDomainItems, StrItem.NotSurrogate], ⟨⟨isInteger_digit (by decide), by decide,
      by decide⟩, trivial⟩, trivial⟩
  have hsurvives : Survives memberArray.root memberArray.trail :=
    ⟨⟨trivial, fun h => by cases h⟩, rfl⟩
  have hdenote : (denote memberArray.root : JsonPtr Bytes) =
      .jsonMap [(ascii "a", .jsonArray [.jsonInteger 1])] := rfl
  apply (parse_eq_denote_iff memberArray hdomain).mpr
  refine ⟨hsurvives, ?_⟩
  rw [hdenote]
  simp [NoNullElement, NoNullElements, NoNullMembers]

/-- `[[1]]` -/
def nestedArray : Document where
  lead := []
  root := .arr (.elem [] (.arr (.elem [] (.num [digitByte 1]) (.close []))) (.close []))
  trail := []
  lead_ws := by simp [AllWs]
  trail_ws := by simp [AllWs]
  container := rfl
  wellFormed := by
    have hnumber : IsNumber [digitByte 1] := (isInteger_digit (by decide)).isNumber
    simp [Value.WellFormed, Elems.WellFormed, IsGap, AllWs, hnumber]

/-- The parser passes over the bracket that closes the outer array. -/
theorem nested_array_not_read :
    InDomain nestedArray.root ∧ nestedArray.text = ascii "[[1]]" ∧
      ∀ p : JsonPtr Bytes, parse nestedArray.text ≠ .ok p := by
  have hdomain : InDomain nestedArray.root :=
    ⟨⟨⟨isInteger_digit (by decide), by decide, by decide⟩, trivial⟩, trivial⟩
  refine ⟨hdomain, by decide, ?_⟩
  have hthrows : (parse nestedArray.text : Except JsonError (JsonPtr Bytes)) =
      .error (.parseError "列表解析错误 : 非法字符" []) := rfl
  intro p
  rw [hthrows]
  simp

/-! ## Texts that are no documents -/

/-- What is wrong with a reading that is no document. -/
inductive Slip where
  /-- Apart from white space, `found` stands before or after an element of an array where the
  grammar has `expected`. -/
  | separator (found expected : Bytes)
  /-- `tok` is no number. -/
  | number (tok : Bytes)

/-- The bytes of a gap that are not white space. -/
def visible (gap : Bytes) : Bytes := gap.filter fun c => !isWs c

/-- What a gap before an element has to hold. -/
def expected (first : Bool) : Bytes := if first then [] else ascii ","

def GapSlip (expected gap : Bytes) (slip : Slip) : Prop :=
  visible gap ≠ expected ∧ slip = .separator (visible gap) expected

mutual

def HasSlip (slip : Slip) : Value → Prop
  | .num tok => ¬ IsNumber tok ∧ slip = .number tok
  | .arr es => HasSlipElems slip true es
  | .obj ms => HasSlipMembers slip ms
  | _ => False

def HasSlipElems (slip : Slip) (first : Bool) : Elems → Prop
  | .close gap => GapSlip [] gap slip
  | .elem gap v rest =>
    GapSlip (expected first) gap slip ∨ HasSlip slip v ∨ HasSlipElems slip false rest

def HasSlipMembers (slip : Slip) : Members → Prop
  | .close _ => False
  | .member _ _ _ _ v rest => HasSlip slip v ∨ HasSlipMembers slip rest

end

theorem visible_eq_nil {gap : Bytes} : visible gap = [] ↔ AllWs gap := by
  simp [visible, AllWs, List.filter_eq_nil_iff]

theorem visible_eq_expected {first : Bool} {gap : Bytes} :
    visible gap = expected first ↔ IsGap first gap := by
  cases first with
  | true => exact visible_eq_nil
  | false =>
    have hcomma : isWs (ch ',') = false := by decide
    constructor
    · intro h
      obtain ⟨a, b, rfl, ha, -, hb⟩ := List.filter_eq_cons_iff.mp h
      refine ⟨a, b, ?_, visible_eq_nil.mp hb, rfl⟩
      intro c hc
      simpa using ha c hc
    · rintro ⟨a, b, ha, hb, rfl⟩
      have ha : visible a = [] := visible_eq_nil.mpr ha
      have hb : visible b = [] := visible_eq_nil.mpr hb
      unfold visible at *
      rw [List.filter_append, ha, List.filter_cons, hcomma, hb]
      rfl

theorem gapSlip_forall {expected gap : Bytes} :
    (∀ slip, ¬ GapSlip expected gap slip) ↔ visible gap = expected := by
  constructor
  · intro h
    by_contra hne
    exact h (.separator (visible gap) expected) ⟨hne, rfl⟩
  · rintro h slip ⟨hne, -⟩
    exact hne h

mutual

/-- A value the parser reads is well formed when it has no slip. -/
theorem wellFormed_iff_no_slip (v : Value) {t : Bytes} (hv : Accepts v t) :
    v.WellFormed ↔ ∀ slip, ¬ HasSlip slip v := by
  cases v with
  | null => simp [Value.WellFormed, HasSlip]
  | bool b => simp [Value.WellFormed, HasSlip]
  | num tok => simp [Value.WellFormed, HasSlip]
  | str items =>
    have hitems : ItemsWellFormed items := hv.1
    simp [Value.WellFormed, HasSlip, hitems]
  | arr es => exact elems_wellFormed_iff es true (.ready false) hv
  | obj ms => exact members_wellFormed_iff ms true hv

theorem elems_wellFormed_iff (es : Elems) (first : Bool) (before : Before) {t : Bytes}
    (hes : AcceptsElems es before t) :
    es.WellFormed first ↔ ∀ slip, ¬ HasSlipElems slip first es := by
  cases es with
  | close gap =>
    simp only [Elems.WellFormed, HasSlipElems]
    rw [gapSlip_forall, visible_eq_nil]
  | elem gap v rest =>
    obtain ⟨-, hv, hrest⟩ := hes
    have hvalue := wellFormed_iff_no_slip v hv
    have helems := elems_wellFormed_iff rest false (.of v) hrest
    simp only [Elems.WellFormed, HasSlipElems, not_or, forall_and]
    rw [gapSlip_forall, visible_eq_expected, hvalue, helems]

theorem members_wellFormed_iff (ms : Members) (first : Bool) {t : Bytes}
    (hms : AcceptsMembers ms first t) :
    ms.WellFormed first ↔ ∀ slip, ¬ HasSlipMembers slip ms := by
  cases ms with
  | close gap =>
    have hgap : AllWs gap := hms.2
    simp [Members.WellFormed, HasSlipMembers, hgap]
  | member gap key pre post v rest =>
    obtain ⟨hgap, hkey, hpre, hpost, hv, hrest⟩ := hms
    have hvalue := wellFormed_iff_no_slip v hv
    have hmembers := members_wellFormed_iff rest false hrest
    simp only [Members.WellFormed, HasSlipMembers, not_or, forall_and]
    rw [hvalue, hmembers]
    simp [hgap, hkey, hpre, hpost]

end

theorem isDocument_iff_no_slip (r : Reading) :
    IsDocument r.text ↔ ∀ slip, ¬ HasSlip slip r.root := by
  rw [← wellFormed_iff_no_slip r.root r.accepts]
  constructor
  · rintro ⟨d, htext⟩
    obtain ⟨-, hroot, -⟩ := reading_unique d r htext.symm
    rw [hroot]
    exact d.wellFormed
  · intro h
    exact ⟨⟨r.lead, r.root, r.trail, r.lead_ws, r.trail_ws, r.container, h⟩, rfl⟩

theorem not_isDocument_of_allWs {T : Bytes} (h : AllWs T) : ¬ IsDocument T := by
  rintro ⟨d, rfl⟩
  obtain ⟨c, s, htext, hlabel⟩ := wellFormed_head d.wellFormed
  have hc : isWs c := h c (by simp [Document.text, htext])
  have hgap := (label_value_ne d.root c hlabel).1
  simp [isGapByte, hc] at hgap

/-- The parser returns only on documents exactly when the text is not blank and nothing is wrong
with any reading of it. -/
theorem isDocument_of_parse_iff (T : Bytes) :
    (∀ p : JsonPtr δ, parse T = .ok p → IsDocument T) ↔
      ¬ AllWs T ∧ ∀ r : Reading, r.text = T → ∀ slip, ¬ HasSlip slip r.root := by
  constructor
  · intro h
    refine ⟨?_, ?_⟩
    · intro hblank
      exact not_isDocument_of_allWs hblank (h _ (parse_blank hblank))
    · rintro r rfl
      exact (isDocument_iff_no_slip r).mp (h _ (parse_text r))
  · rintro ⟨hblank, hslips⟩ p hp
    rcases parseFrom_eq_ok At.zero hp with ⟨hws, -⟩ | ⟨r, rfl, -⟩
    · exact absurd hws hblank
    · exact (isDocument_iff_no_slip r).mpr (hslips r rfl)

/-- `[1 2]` -/
def missingComma : Reading where
  lead := []
  root := .arr (.elem [] (.num [digitByte 1]) (.elem [ch ' '] (.num [digitByte 2]) (.close [])))
  trail := []
  lead_ws := by simp [AllWs]
  trail_ws := by simp [AllWs]
  container := rfl
  accepts := by
    have hrun : ∀ d < 10, IsRun [digitByte d] := by
      intro d hd
      have hnumber := (isInteger_digit hd).isNumber
      exact ⟨IsNumber.exists_start hnumber, IsNumber.isNumberByte hnumber⟩
    exact ⟨rfl, ⟨hrun 1 (by decide), _, _, rfl, by decide⟩, by decide,
      ⟨hrun 2 (by decide), _, _, rfl, by decide⟩, rfl⟩

/-- Without a comma, and without anything at all. -/
theorem parses_without_comma :
    (∃ p : JsonPtr Bytes, parse (ascii "[1 2]") = .ok p) ∧ ¬ IsDocument (ascii "[1 2]") ∧
      (∃ p : JsonPtr Bytes, parse [] = .ok p) ∧ ¬ IsDocument [] := by
  refine ⟨⟨_, rfl⟩, ?_, ⟨_, rfl⟩, not_isDocument_of_allWs (by simp [AllWs])⟩
  have htext : missingComma.text = ascii "[1 2]" := by decide
  rw [← htext, isDocument_iff_no_slip]
  intro h
  apply h (.separator [] (ascii ","))
  exact Or.inr (Or.inr (Or.inl ⟨by decide, rfl⟩))

end JsonParser

end CoUringWeb
