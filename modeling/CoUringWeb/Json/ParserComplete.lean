import CoUringWeb.Json.Reading
import CoUringWeb.Json.Turns

/-!
# `parse` on a reading

On every text of its grammar, and on every blank text, the parser returns, with the result the
grammar gives.  One lemma for each thing a loop passes over, white space, a separator or a value;
then induction on the syntax tree.
-/

namespace CoUringWeb

namespace JsonParser

open Machine JsonSyntax

variable {δ : Type} [StreamDouble δ]

/-! ## Gaps -/

/-- Where the loop of `parseArray` is when the gap starts at `k`. -/
def Before.entry (before : Before) (k : ℕ) : ℕ :=
  match before with
  | skip => k + 1
  | ready _ => k

def Before.endByComma : Before → Bool
  | skip => false
  | ready endByComma => endByComma

theorem label_of_isWs {c : UInt8} (hc : isWs c) : label c = .space := (label_space c).mpr hc

/-- One turn of a loop on the first byte of `c :: gap` leaves the fuel and the index for `gap`. -/
theorem advance_cons (c : UInt8) (gap : Bytes) (fuel k : ℕ) :
    fuel + 1 - (c :: gap).length = fuel - gap.length ∧
      k + (c :: gap).length = k + 1 + gap.length := by
  rw [List.length_cons]
  omega

theorem arrayLoop_gap {view gap s : Bytes} {k : ℕ} (fuel : ℕ) (acc : List (JsonPtr δ)) {b : Bool}
    (hat : At view k (gap ++ s)) (hfuel : gap.length ≤ fuel) (hgap : gapAccepted b gap) :
    ∃ b', arrayLoop view fuel k acc b =
      arrayLoop view (fuel - gap.length) (k + gap.length) acc b' := by
  induction gap generalizing k fuel b with
  | nil => exact ⟨b, rfl⟩
  | cons c gap ih =>
    obtain ⟨fuel, rfl⟩ : ∃ f, fuel = f + 1 := Nat.exists_eq_add_one_of_ne_zero (by
      rw [List.length_cons] at hfuel
      omega)
    have hfuel : gap.length ≤ fuel := by simpa using hfuel
    rw [(advance_cons c gap fuel k).1, (advance_cons c gap fuel k).2]
    rw [gapAccepted] at hgap
    split at hgap
    · rename_i hc
      obtain ⟨hb, hgap⟩ : b = false ∧ gapAccepted true gap = true := by simpa using hgap
      have hlabel : label c = .comma := (label_comma c).mpr hc
      obtain ⟨b', hrun⟩ := ih fuel (At.next hat) hfuel hgap
      refine ⟨b', ?_⟩
      rw [← hrun, arrayLoop, if_pos (At.lt hat), At.charAt hat]
      simp [bind, Except.bind, hlabel, hb]
    · obtain ⟨hc, hgap⟩ : isWs c = true ∧ gapAccepted b gap = true := by simpa using hgap
      obtain ⟨b', hrun⟩ := ih fuel (At.next hat) hfuel hgap
      refine ⟨b', ?_⟩
      rw [← hrun, arrayLoop, if_pos (At.lt hat), At.charAt hat]
      simp [bind, Except.bind, label_of_isWs hc]

/-- The gap after an element, wherever the loop stands. -/
theorem arrayLoop_before {view gap s : Bytes} {k : ℕ} (fuel : ℕ) (acc : List (JsonPtr δ))
    {before : Before} (hat : At view k (gap ++ s)) (hfuel : gap.length ≤ fuel)
    (hgap : before.accepts gap) :
    ∃ b' fuel', fuel ≤ fuel' + gap.length ∧
      arrayLoop view fuel (before.entry k) acc before.endByComma =
        arrayLoop view fuel' (k + gap.length) acc b' := by
  cases before with
  | ready b =>
    obtain ⟨b', hrun⟩ := arrayLoop_gap fuel acc hat hfuel hgap
    exact ⟨b', fuel - gap.length, by omega, hrun⟩
  | skip =>
    cases gap with
    | nil => cases hgap
    | cons c gap =>
      rw [List.length_cons] at hfuel
      obtain ⟨b', hrun⟩ := arrayLoop_gap fuel (b := false) acc (At.next hat) (by omega) hgap
      refine ⟨b', fuel - gap.length, by rw [List.length_cons]; omega, ?_⟩
      rw [Before.entry, Before.endByComma, hrun, List.length_cons, Nat.add_right_comm, add_assoc k]

theorem mapLoop_ws {view gap s : Bytes} {k fuel : ℕ} (data : List (Bytes × JsonPtr δ))
    (state : ParseState) (str : Bytes) (hat : At view k (gap ++ s)) (hfuel : gap.length ≤ fuel)
    (hgap : AllWs gap) :
    mapLoop view fuel k data state str =
      mapLoop view (fuel - gap.length) (k + gap.length) data state str := by
  induction gap generalizing k fuel with
  | nil => rfl
  | cons c gap ih =>
    obtain ⟨fuel, rfl⟩ : ∃ f, fuel = f + 1 := Nat.exists_eq_add_one_of_ne_zero (by
      rw [List.length_cons] at hfuel
      omega)
    rw [(advance_cons c gap fuel k).1, (advance_cons c gap fuel k).2,
      ← ih (At.next hat) (by simpa using hfuel) fun x hx => hgap x (List.mem_cons_of_mem c hx)]
    rw [mapLoop, if_pos (At.lt hat), At.charAt hat]
    simp [bind, Except.bind, label_of_isWs (hgap c List.mem_cons_self)]

/-- The state in which `parseMap` meets the gap before a member. -/
def stateBefore (first : Bool) : ParseState := if first then .keyStart else .valueEnd

theorem mapLoop_gap {view gap s : Bytes} {k fuel : ℕ} (data : List (Bytes × JsonPtr δ))
    {first : Bool} (str : Bytes) (hat : At view k (gap ++ s)) (hfuel : gap.length ≤ fuel)
    (hgap : IsGap first gap) :
    mapLoop view fuel k data (stateBefore first) str =
      mapLoop view (fuel - gap.length) (k + gap.length) data .keyStart str := by
  cases first with
  | true => exact mapLoop_ws data .keyStart str hat hfuel hgap
  | false =>
    obtain ⟨a, b, ha, hb, rfl⟩ := hgap
    simp only [List.length_append, List.length_cons] at hfuel ⊢
    rw [List.append_assoc] at hat
    have hcomma : At view (k + a.length) (ch ',' :: (b ++ s)) := hat.append
    obtain ⟨fuel', hfuel'⟩ : ∃ f, fuel - a.length = f + 1 :=
      Nat.exists_eq_add_one_of_ne_zero (by omega)
    have hlabel : label (ch ',') = .comma := by decide
    have hturn : mapLoop view (fuel' + 1) (k + a.length) data .valueEnd str =
        mapLoop view fuel' (k + a.length + 1) data .keyStart str := by
      rw [mapLoop, if_pos hcomma.lt, hcomma.charAt]
      simp [bind, Except.bind, hlabel]
    have hend : fuel' - b.length = fuel - (a.length + (b.length + 1)) ∧
        k + a.length + 1 + b.length = k + (a.length + (b.length + 1)) := by omega
    rw [stateBefore, if_neg (by decide), mapLoop_ws data .valueEnd str hat (by omega) ha, hfuel',
      hturn, mapLoop_ws data .keyStart str hcomma.next (by omega) hb, hend.1, hend.2]

/-! ## Values -/

/-- A nested array or object is read by its own function. -/
def ContainerRuns (δ : Type) [StreamDouble δ] (view : Bytes) (fuel k : ℕ) : Value → Prop
  | .arr es => parseArray view fuel k =
      .ok ((parsedElems es : List (JsonPtr δ)), k + (Value.arr es).text.length)
  | .obj ms => parseMap view fuel k =
      .ok ((parsedMembers ms [] : List (Bytes × JsonPtr δ)), k + (Value.obj ms).text.length)
  | _ => True

theorem boolText_eq (b : Bool) : (Value.bool b).text = boolText b := by
  cases b <;> rfl

/-- One turn of the loop of `parseArray` on a value. -/
theorem arrayLoop_value {view u : Bytes} {k fuel : ℕ} {v : Value} (acc : List (JsonPtr δ))
    (b : Bool)
    (hat : At view k (v.text ++ u)) (hv : Accepts v u) (hu : u ≠ [])
    (hrun : ContainerRuns δ view fuel k v) :
    arrayLoop view (fuel + 1) k acc b =
      arrayLoop view fuel ((Before.of v).entry (k + v.text.length))
        (acc ++ [if isNullValue v then .nullptr else parsed v]) (Before.of v).endByComma := by
  obtain ⟨c, s, htext, hlabel⟩ := accepts_head hv
  have hhead : At view k (c :: (s ++ u)) := by simpa [htext] using hat
  rw [arrayLoop, if_pos hhead.lt, hhead.charAt]
  cases v with
  | null =>
    have hlen : (Value.text .null).length = 4 := by decide
    simp [bind, Except.bind, hlabel, valueLabel, isNull_run hat hu, hlen, isNullValue, Before.of,
      Value.isArr, Before.entry, Before.endByComma]
  | bool d =>
    rw [boolText_eq] at hat
    simp [bind, Except.bind, hlabel, valueLabel, parseBool_run hat hu, boolText_eq, isNullValue,
      Before.of, Value.isArr, Before.entry, Before.endByComma, parsed]
  | num tok =>
    obtain ⟨⟨-, hbytes⟩, x, t, rfl, hx⟩ := hv
    have hnum : parseNum view k = .ok ((numValue tok : JsonPtr δ), k + tok.length) :=
      parseNum_run hat hbytes hx
    simp [bind, Except.bind, hlabel, valueLabel, hnum, isNullValue, Before.of, Value.isArr,
      Before.entry, Before.endByComma, parsed, Value.text]
  | str items =>
    have hstr := parseString_run hat hv.1 hu hv.2
    simp [bind, Except.bind, hlabel, valueLabel, hstr, isNullValue, Before.of, Value.isArr,
      Before.entry, Before.endByComma, parsed, Value.text]
  | arr es =>
    have hrun : parseArray view fuel k = .ok _ := hrun
    simp [bind, Except.bind, hlabel, valueLabel, hrun, isNullValue, Before.of, Value.isArr,
      Before.entry, Before.endByComma, parsed]
  | obj ms =>
    have hrun : parseMap view fuel k = .ok _ := hrun
    simp [bind, Except.bind, hlabel, valueLabel, hrun, isNullValue, Before.of, Value.isArr,
      Before.entry, Before.endByComma, parsed]

theorem parseValue_run {view u : Bytes} {k fuel : ℕ} {v : Value}
    (hat : At view k (v.text ++ u)) (hv : Accepts v u) (hu : u ≠ [])
    (hrun : ContainerRuns δ view fuel k v) :
    parseValue view fuel k = .ok ((parsed v : JsonPtr δ), k + v.text.length) := by
  obtain ⟨c, s, htext, hlabel⟩ := accepts_head hv
  have hhead : At view k (c :: (s ++ u)) := by simpa [htext] using hat
  rw [parseValue, hhead.charAt]
  cases v with
  | null =>
    have hlen : (Value.text .null).length = 4 := by decide
    simp [bind, Except.bind, pure, Except.pure, hlabel, valueLabel, isNull_run hat hu, hlen, parsed]
  | bool d =>
    rw [boolText_eq] at hat
    simp [bind, Except.bind, pure, Except.pure, hlabel, valueLabel, parseBool_run hat hu,
      boolText_eq, parsed]
  | num tok =>
    obtain ⟨⟨-, hbytes⟩, x, t, rfl, hx⟩ := hv
    have hnum : parseNum view k = .ok ((numValue tok : JsonPtr δ), k + tok.length) :=
      parseNum_run hat hbytes hx
    simp [bind, Except.bind, hlabel, valueLabel, hnum, parsed, Value.text]
  | str items =>
    have hstr := parseString_run hat hv.1 hu hv.2
    simp [bind, Except.bind, pure, Except.pure, hlabel, valueLabel, hstr, parsed, Value.text]
  | arr es =>
    have hrun : parseArray view fuel k = .ok _ := hrun
    simp [bind, Except.bind, pure, Except.pure, hlabel, valueLabel, hrun, parsed]
  | obj ms =>
    have hrun : parseMap view fuel k = .ok _ := hrun
    simp [bind, Except.bind, pure, Except.pure, hlabel, valueLabel, hrun, parsed]

/-- One turn of the loop of `parseMap` on the value of a member. -/
theorem mapLoop_value {view u : Bytes} {k fuel : ℕ} {v : Value} (data : List (Bytes × JsonPtr δ))
    (str : Bytes) (hat : At view k (v.text ++ u)) (hv : Accepts v u) (hu : u ≠ [])
    (hrun : ContainerRuns δ view fuel k v) :
    mapLoop view (fuel + 1) k data .valueStart str =
      mapLoop view fuel (k + v.text.length) (SortedAssoc.insertOrAssign str (parsed v) data)
        .valueEnd str := by
  obtain ⟨c, s, htext, hlabel⟩ := accepts_head hv
  have hhead : At view k (c :: (s ++ u)) := by simpa [htext] using hat
  have hspace : label c ≠ .space := by
    rw [hlabel]
    cases v <;> simp [valueLabel]
  rw [mapLoop_valueStart data str hhead.charAt hspace, parseValue_run hat hv hu hrun]
  rfl

/-! ## Keys and brackets -/

theorem mapLoop_key {view u : Bytes} {k fuel : ℕ} {key : List StrItem}
    (data : List (Bytes × JsonPtr δ)) (str : Bytes) (hat : At view k (strText key ++ u))
    (hkey : ItemsWellFormed key) (hu : 2 ≤ u.length) :
    mapLoop view (fuel + 1) k data .keyStart str =
      mapLoop view fuel (k + (strText key).length) data .keyEnd (itemsBytes key) := by
  have hcons : strText key ++ u = ch '"' :: (itemsText key ++ [ch '"'] ++ u) := rfl
  have hlabel : label (ch '"') = .quote := by decide
  have hne : u ≠ [] := by
    rintro rfl
    simp at hu
  have hstr := parseString_run hat hkey hne fun _ => hu
  rw [hcons] at hat
  rw [mapLoop, if_pos hat.lt, hat.charAt]
  simp [bind, Except.bind, hlabel, hstr]

theorem mapLoop_colon {view u : Bytes} {k fuel : ℕ} (data : List (Bytes × JsonPtr δ)) (str : Bytes)
    (hat : At view k (ch ':' :: u)) :
    mapLoop view (fuel + 1) k data .keyEnd str =
      mapLoop view fuel (k + 1) data .valueStart str := by
  have hlabel : label (ch ':') = .colon := by decide
  rw [mapLoop, if_pos hat.lt, hat.charAt]
  simp [bind, Except.bind, hlabel]

theorem mapLoop_close {view u : Bytes} {k fuel : ℕ} (data : List (Bytes × JsonPtr δ)) (str : Bytes)
    (hat : At view k (ch '}' :: u)) :
    mapLoop view (fuel + 1) k data .valueEnd str = .ok (data, k + 1) := by
  have hlabel : label (ch '}') = .mapEnd := by decide
  rw [mapLoop, if_pos hat.lt, hat.charAt]
  simp [bind, Except.bind, pure, Except.pure, hlabel]

theorem arrayLoop_close {view u : Bytes} {k fuel : ℕ} (acc : List (JsonPtr δ)) (b : Bool)
    (hat : At view k (ch ']' :: u)) :
    arrayLoop view (fuel + 1) k acc b = .ok (acc, k + 1) := by
  have hlabel : label (ch ']') = .arrayEnd := by decide
  rw [arrayLoop, if_pos hat.lt, hat.charAt]
  simp [bind, Except.bind, pure, Except.pure, hlabel]

/-! ## Induction on the syntax tree -/

theorem elems_text_ne_nil : (es : Elems) → es.text ≠ []
  | .close gap => by simp [Elems.text]
  | .elem gap v rest => by simp [Elems.text, elems_text_ne_nil rest]

theorem members_text_ne_nil (ms : Members) : ms.text ≠ [] := by
  cases ms <;> simp [Members.text]

theorem accepts_text_pos {v : Value} {t : Bytes} (h : Accepts v t) : 1 ≤ v.text.length := by
  obtain ⟨c, s, htext, -⟩ := accepts_head h
  simp [htext]

mutual

theorem container_run (v : Value) (fuel : ℕ) {view t : Bytes} {k : ℕ}
    (hat : At view k (v.text ++ t))
    (hv : Accepts v t) (hfuel : 2 * (v.text.length + t.length) ≤ fuel) :
    ContainerRuns δ view fuel k v := by
  cases v with
  | null => trivial
  | bool b => trivial
  | num tok => trivial
  | str items => trivial
  | arr es =>
    have htext : (Value.arr es).text = ch '[' :: es.text := rfl
    have hat : At view k (ch '[' :: (es.text ++ t)) := hat
    rw [htext, List.length_cons] at hfuel
    obtain ⟨fuel, rfl⟩ : ∃ f, fuel = f + 1 := Nat.exists_eq_add_one_of_ne_zero (by omega)
    have hguard : ¬ k + 1 > sizeSub view.length 1 := by
      have hlen := hat.length
      have hpos := List.length_pos_iff.mpr (elems_text_ne_nil es)
      rw [List.length_cons, List.length_append] at hlen
      rw [sizeSub_of_le (by omega)]
      omega
    have hloop := elems_run es (.ready false) fuel ([] : List (JsonPtr δ))
      hat.next hv (by omega)
    simp only [Before.entry, Before.endByComma, List.nil_append] at hloop
    rw [ContainerRuns, parseArray, hat.charAt]
    simp [bind, Except.bind, hguard, hloop, htext, add_assoc, add_comm]
  | obj ms =>
    have htext : (Value.obj ms).text = ch '{' :: ms.text := rfl
    have hat : At view k (ch '{' :: (ms.text ++ t)) := hat
    rw [htext, List.length_cons] at hfuel
    obtain ⟨fuel, rfl⟩ : ∃ f, fuel = f + 1 := Nat.exists_eq_add_one_of_ne_zero (by omega)
    have hguard : ¬ k + 1 > sizeSub view.length 1 := by
      have hlen := hat.length
      have hpos := List.length_pos_iff.mpr (members_text_ne_nil ms)
      rw [List.length_cons, List.length_append] at hlen
      rw [sizeSub_of_le (by omega)]
      omega
    have hloop := members_run ms true fuel ([] : List (Bytes × JsonPtr δ)) []
      hat.next hv (by omega)
    simp only [stateBefore, if_pos] at hloop
    rw [ContainerRuns, parseMap, hat.charAt]
    simp [bind, Except.bind, hguard, hloop, htext, add_assoc, add_comm]

theorem elems_run (es : Elems) (before : Before) (fuel : ℕ) {view t : Bytes} {k : ℕ}
    (acc : List (JsonPtr δ)) (hat : At view k (es.text ++ t)) (hes : AcceptsElems es before t)
    (hfuel : 2 * (es.text.length + t.length) + 1 ≤ fuel) :
    arrayLoop view fuel (before.entry k) acc before.endByComma =
      .ok (acc ++ parsedElems es, k + es.text.length) := by
  cases es with
  | close gap =>
    simp only [Elems.text, List.length_append, List.length_singleton] at hfuel ⊢
    rw [Elems.text, List.append_assoc] at hat
    obtain ⟨b, fuel', hle, hgap⟩ := arrayLoop_before fuel acc hat (by omega) hes
    obtain ⟨fuel', rfl⟩ : ∃ f, fuel' = f + 1 := Nat.exists_eq_add_one_of_ne_zero (by omega)
    rw [hgap, arrayLoop_close acc b hat.append]
    simp [parsedElems, add_assoc]
  | elem gap v rest =>
    obtain ⟨hbefore, hv, hrest⟩ := hes
    have hpos := accepts_text_pos hv
    simp only [Elems.text, List.length_append] at hfuel ⊢
    rw [Elems.text, List.append_assoc, List.append_assoc] at hat
    obtain ⟨b, fuel', hle, hgap⟩ := arrayLoop_before fuel acc hat (by omega) hbefore
    obtain ⟨fuel', rfl⟩ : ∃ f, fuel' = f + 1 := Nat.exists_eq_add_one_of_ne_zero (by omega)
    have hvalue : At view (k + gap.length) (v.text ++ (rest.text ++ t)) := hat.append
    have hne : rest.text ++ t ≠ [] := by simp [elems_text_ne_nil]
    have hnested := container_run v fuel' hvalue hv (by
      rw [List.length_append]
      omega)
    rw [hgap, arrayLoop_value acc b hvalue hv hne hnested,
      elems_run rest _ fuel' _ hvalue.append hrest (by omega)]
    simp [parsedElems, add_assoc]

theorem members_run (ms : Members) (first : Bool) (fuel : ℕ) {view t : Bytes} {k : ℕ}
    (data : List (Bytes × JsonPtr δ)) (str : Bytes) (hat : At view k (ms.text ++ t))
    (hms : AcceptsMembers ms first t) (hfuel : 2 * (ms.text.length + t.length) + 1 ≤ fuel) :
    mapLoop view fuel k data (stateBefore first) str =
      .ok (parsedMembers ms data, k + ms.text.length) := by
  cases ms with
  | close gap =>
    obtain ⟨rfl, hgap⟩ := hms
    simp only [Members.text, List.length_append, List.length_singleton] at hfuel ⊢
    rw [Members.text, List.append_assoc] at hat
    obtain ⟨fuel', hfuel'⟩ : ∃ f, fuel - gap.length = f + 1 :=
      Nat.exists_eq_add_one_of_ne_zero (by omega)
    rw [stateBefore, if_neg (by decide), mapLoop_ws data .valueEnd str hat (by omega) hgap, hfuel',
      mapLoop_close data str hat.append]
    simp [parsedMembers, add_assoc]
  | member gap key pre post v rest =>
    obtain ⟨hgap, hkey, hpre, hpost, hv, hrest⟩ := hms
    have hpos := accepts_text_pos hv
    have hquote : 1 ≤ (strText key).length := by simp [strText]
    have hrestpos := List.length_pos_iff.mpr (members_text_ne_nil rest)
    simp only [Members.text, List.length_append, List.length_cons] at hfuel ⊢
    simp only [Members.text, List.append_assoc, List.cons_append] at hat
    -- the gap, the key, the colon with its white space, and the value, in turn
    have hatkey := hat.append
    have hatpre := hatkey.append
    have hatcolon := hatpre.append
    have hatpost := hatcolon.next
    have hatvalue := hatpost.append
    have hatrest := hatvalue.append
    obtain ⟨f₁, hf₁⟩ : ∃ f, fuel - gap.length = f + 1 :=
      Nat.exists_eq_add_one_of_ne_zero (by omega)
    obtain ⟨f₂, hf₂⟩ : ∃ f, f₁ - pre.length = f + 1 :=
      Nat.exists_eq_add_one_of_ne_zero (by omega)
    obtain ⟨f₃, hf₃⟩ : ∃ f, f₂ - post.length = f + 1 :=
      Nat.exists_eq_add_one_of_ne_zero (by omega)
    have hne : rest.text ++ t ≠ [] := by simp [members_text_ne_nil]
    have hnested := container_run v f₃ hatvalue hv (by
      rw [List.length_append]
      omega)
    rw [mapLoop_gap data str hat (by omega) hgap, hf₁,
      mapLoop_key data str hatkey hkey (by simp only [List.length_append, List.length_cons]; omega),
      mapLoop_ws data .keyEnd _ hatpre (by omega) hpre, hf₂, mapLoop_colon data _ hatcolon,
      mapLoop_ws data .valueStart _ hatpost (by omega) hpost, hf₃,
      mapLoop_value data _ hatvalue hv hne hnested]
    have hgo := members_run rest false f₃
      (SortedAssoc.insertOrAssign (itemsBytes key) (parsed v) data) (itemsBytes key) hatrest hrest
      (by omega)
    rw [stateBefore, if_neg (by decide)] at hgo
    rw [hgo, parsedMembers]
    congr 2
    omega

end

/-! ## The whole text -/

theorem parseEnd_run {view s : Bytes} {k : ℕ} (fuel : ℕ) (hat : At view k s)
    (hfuel : s.length < fuel)
    (hs : AllWs s) : parseEnd view fuel k = .ok () := by
  induction s generalizing k fuel with
  | nil =>
    obtain ⟨fuel, rfl⟩ : ∃ f, fuel = f + 1 := Nat.exists_eq_add_one_of_ne_zero (by omega)
    rw [parseEnd, if_neg (hat.eq_nil_iff.mp rfl)]
    rfl
  | cons c s ih =>
    obtain ⟨fuel, rfl⟩ : ∃ f, fuel = f + 1 := Nat.exists_eq_add_one_of_ne_zero (by omega)
    rw [parseEnd, if_pos hat.lt, hat.charAt]
    simp only [bind, Except.bind, label_of_isWs (hs c List.mem_cons_self)]
    exact ih fuel hat.next (by simpa using hfuel) fun x hx => hs x (List.mem_cons_of_mem c hx)

theorem parseFrom_ws {view lead s : Bytes} {k fuel : ℕ} (hat : At view k (lead ++ s))
    (hfuel : lead.length ≤ fuel) (hlead : AllWs lead) :
    (parseFrom view fuel k : Except JsonError (JsonPtr δ)) =
      parseFrom view (fuel - lead.length) (k + lead.length) := by
  induction lead generalizing k fuel with
  | nil => rfl
  | cons c lead ih =>
    rw [List.length_cons] at hfuel
    obtain ⟨fuel, rfl⟩ : ∃ f, fuel = f + 1 := Nat.exists_eq_add_one_of_ne_zero (by omega)
    rw [(advance_cons c lead fuel k).1, (advance_cons c lead fuel k).2,
      ← ih (At.next hat) (by omega) fun x hx => hlead x (List.mem_cons_of_mem c hx),
      parseFrom, if_pos (At.lt hat), At.charAt hat]
    simp [bind, Except.bind, label_of_isWs (hlead c List.mem_cons_self)]

theorem parse_blank {view : Bytes} (h : AllWs view) :
    (parse view : Except JsonError (JsonPtr δ)) = .ok .jsonNull := by
  have hat : At view 0 (view ++ []) := by simpa using At.zero
  have hend := hat.append.eq_nil_iff.mp rfl
  rw [parse, parseFrom_ws hat (by omega) h, Nat.add_sub_cancel_left, parseFrom, if_neg hend]
  rfl

/-- On a reading the parser returns what the grammar gives. -/
theorem parse_text (r : Reading) :
    (parse r.text : Except JsonError (JsonPtr δ)) = .ok (parsed r.root) := by
  have hat : At r.text 0 (r.lead ++ (r.root.text ++ r.trail)) := At.zero
  have hroot : At r.text r.lead.length (r.root.text ++ r.trail) := by simpa using hat.append
  have htrail := hroot.append
  have hlen := hat.length
  have hpos := accepts_text_pos r.accepts
  simp only [List.length_append] at hlen
  obtain ⟨fuel, hfuel⟩ : ∃ f, r.text.length + 1 - r.lead.length = f + 1 :=
    Nat.exists_eq_add_one_of_ne_zero (by omega)
  have hnested := container_run (δ := δ) r.root (2 * r.text.length + 2) hroot r.accepts
    (by omega)
  have hend := parseEnd_run (r.text.length + 1) htrail (by omega) r.trail_ws
  rw [parse, parseFrom_ws hat (by omega) r.lead_ws, hfuel, Nat.zero_add]
  have hcontainer := r.container
  cases hr : r.root with
  | arr es =>
    have hlabel : label (ch '[') = .arrayBegin := by decide
    rw [hr] at hroot hnested hend
    have hnested : parseArray r.text (2 * r.text.length + 2) r.lead.length = .ok _ := hnested
    rw [parseFrom, if_pos (At.lt hroot), At.charAt hroot]
    simp [bind, Except.bind, hlabel, hnested, hend, pure, Except.pure, parsed]
  | obj ms =>
    have hlabel : label (ch '{') = .mapBegin := by decide
    rw [hr] at hroot hnested hend
    have hnested : parseMap r.text (2 * r.text.length + 2) r.lead.length = .ok _ := hnested
    rw [parseFrom, if_pos (At.lt hroot), At.charAt hroot]
    simp [bind, Except.bind, hlabel, hnested, hend, pure, Except.pure, parsed]
  | null => simp [hr, Value.isContainer] at hcontainer
  | bool b => simp [hr, Value.isContainer] at hcontainer
  | num tok => simp [hr, Value.isContainer] at hcontainer
  | str items => simp [hr, Value.isContainer] at hcontainer

end JsonParser

end CoUringWeb
