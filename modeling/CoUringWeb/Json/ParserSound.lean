import CoUringWeb.Json.Reading
import CoUringWeb.Json.Turns

/-!
# Where `parse` returns

Every text on which the parser returns is blank or a value of its grammar between white space, and
the result is what the grammar says.  The four functions that call one another are treated together,
by induction on their fuel.
-/

namespace CoUringWeb

namespace JsonParser

open Machine JsonSyntax Exceptions

variable {δ : Type} [StreamDouble δ]

/-! ## What each function finds -/

def ArraySound (δ : Type) [StreamDouble δ] (view : Bytes) (fuel : ℕ) : Prop :=
  ∀ {s : Bytes} {k j : ℕ} {vec : List (JsonPtr δ)}, At view k s →
    parseArray view fuel k = .ok (vec, j) →
      ∃ es t, s = (Value.arr es).text ++ t ∧ AcceptsElems es (.ready false) t ∧
        vec = parsedElems es ∧ At view j t

def ArrayLoopSound (δ : Type) [StreamDouble δ] (view : Bytes) (fuel : ℕ) : Prop :=
  ∀ {s : Bytes} {k j : ℕ} {acc vec : List (JsonPtr δ)} {endByComma : Bool}, At view k s →
    arrayLoop view fuel k acc endByComma = .ok (vec, j) →
      ∃ es t, s = es.text ++ t ∧ AcceptsElems es (.ready endByComma) t ∧
        vec = acc ++ parsedElems es ∧ At view j t

def MapSound (δ : Type) [StreamDouble δ] (view : Bytes) (fuel : ℕ) : Prop :=
  ∀ {s : Bytes} {k j : ℕ} {m : List (Bytes × JsonPtr δ)}, At view k s →
    parseMap view fuel k = .ok (m, j) →
      ∃ ms t, s = (Value.obj ms).text ++ t ∧ AcceptsMembers ms true t ∧
        m = parsedMembers ms [] ∧ At view j t

/-- The loop of `parseMap` in each of its states reads `s` up to `t`: the rest of a member list, or
what is left of a member whose key `str` is known, and the members after it. -/
def ReadsMembers (state : ParseState) (str : Bytes) (data m : List (Bytes × JsonPtr δ))
    (s t : Bytes) : Prop :=
  match state with
  | .keyStart => ∃ ms, s = ms.text ++ t ∧ AcceptsMembers ms true t ∧ m = parsedMembers ms data
  | .keyEnd => ∃ pre post v rest, s = pre ++ ch ':' :: (post ++ (v.text ++ (rest.text ++ t))) ∧
      AllWs pre ∧ AllWs post ∧ Accepts v (rest.text ++ t) ∧ AcceptsMembers rest false t ∧
      m = parsedMembers rest (SortedAssoc.insertOrAssign str (parsed v) data)
  | .valueStart => ∃ post v rest, s = post ++ (v.text ++ (rest.text ++ t)) ∧
      AllWs post ∧ Accepts v (rest.text ++ t) ∧ AcceptsMembers rest false t ∧
      m = parsedMembers rest (SortedAssoc.insertOrAssign str (parsed v) data)
  | .valueEnd => ∃ ms, s = ms.text ++ t ∧ AcceptsMembers ms false t ∧ m = parsedMembers ms data

def MapLoopSound (δ : Type) [StreamDouble δ] (view : Bytes) (fuel : ℕ) : Prop :=
  ∀ {s : Bytes} {k j : ℕ} {data m : List (Bytes × JsonPtr δ)} {state : ParseState} {str : Bytes},
    At view k s → mapLoop view fuel k data state str = .ok (m, j) →
      ∃ t, ReadsMembers state str data m s t ∧ At view j t

/-! ## Arrays -/

/-- At the end of the text or behind it the loop of `parseArray` throws. -/
theorem arrayLoop_ne_ok {view : Bytes} {fuel k j : ℕ} {acc vec : List (JsonPtr δ)}
    {endByComma : Bool} (hk : ¬ k < view.length) :
    arrayLoop view fuel k acc endByComma ≠ .ok (vec, j) := by
  intro h
  cases fuel with
  | zero =>
    rw [arrayLoop_zero] at h
    cases h
  | succ fuel =>
    rw [arrayLoop, if_neg hk] at h
    cases h

/-- An element in front of what the loop reads from `u` on. -/
theorem readsElems_elem {v : Value} {u t : Bytes} {es : Elems} (endByComma : Bool)
    (hu : u = es.text ++ t) (hv : Accepts v u) (hes : AcceptsElems es (.of v) t) :
    v.text ++ u = (Elems.elem [] v es).text ++ t ∧
      AcceptsElems (.elem [] v es) (.ready endByComma) t := by
  subst hu
  exact ⟨by simp [Elems.text], rfl, hv, hes⟩

/-- What a turn of the loop of `parseArray` reads at index `k`, where the text goes on with `s`. -/
inductive TurnReads (view : Bytes) (k : ℕ) (endByComma : Bool) : Bytes → ArrayTurn δ → Prop where
  | space {c : UInt8} {u : Bytes} (hc : isWs c) :
    TurnReads view k endByComma (c :: u) ⟨.space, k, k + 1, k + 1⟩
  | comma {u : Bytes} (hcomma : endByComma = false) :
    TurnReads view k endByComma (ch ',' :: u) ⟨.comma, k, k + 1, k + 1⟩
  | close {u : Bytes} : TurnReads view k endByComma (ch ']' :: u) ⟨.close, k, k + 1, k + 1⟩
  | value {v : Value} {u : Bytes} {stop : ℕ} (harr : v.isArr = false) (hv : Accepts v u)
    (hstop : At view stop u) :
    TurnReads view k endByComma (v.text ++ u)
      ⟨.element (if isNullValue v then .nullptr else parsed v), k, stop, stop⟩
  | array {es : Elems} {u : Bytes} {stop : ℕ} (hes : Accepts (.arr es) u) (hstop : At view stop u) :
    TurnReads view k endByComma ((Value.arr es).text ++ u)
      ⟨.element (.jsonArray (parsedElems es)), k, stop, stop + 1⟩
  /-- a string that the end of the text cuts off -/
  | unclosed {s b : Bytes} {stop : ℕ} (hstop : At view stop []) :
    TurnReads view k endByComma s ⟨.element (.jsonString b), k, stop, stop⟩

theorem turnReads_value {view s u : Bytes} {k stop : ℕ} {endByComma : Bool} {v : Value}
    {p : JsonPtr δ} (harr : v.isArr = false)
    (hp : (if isNullValue v then .nullptr else parsed v) = p) (htext : s = v.text ++ u)
    (hv : Accepts v u) (hstop : At view stop u) :
    TurnReads view k endByComma s ⟨.element p, k, stop, stop⟩ := by
  subst hp htext
  exact .value harr hv hstop

theorem arrayTurn_sound {view s : Bytes} {fuel k : ℕ} {endByComma : Bool} {turn : ArrayTurn δ}
    (harray : ArraySound δ view fuel) (hmap : MapSound δ view fuel) (hat : At view k s)
    (h : arrayTurn view fuel k endByComma = .ok turn) : TurnReads view k endByComma s turn := by
  rw [arrayTurn, if_pos (lt_of_arrayTurn h), bind_eq_ok] at h
  obtain ⟨c, hc, h⟩ := h
  obtain ⟨s, rfl⟩ := hat.of_charAt hc
  cases hlabel : label c <;> simp only [hlabel, throw_bind, bind_eq_ok] at h
  case comma =>
    obtain rfl := (label_comma c).mp hlabel
    simp only [ite_throw_eq_ok, Bool.not_eq_true] at h
    obtain ⟨hcomma, h⟩ := h
    cases h
    exact .comma hcomma
  case space =>
    cases h
    exact .space ((label_space c).mp hlabel)
  case arrayEnd =>
    obtain rfl := (label_arrayEnd c).mp hlabel
    cases h
    exact .close
  case arrayBegin =>
    obtain ⟨⟨data, stop⟩, harr, h⟩ := h
    cases h
    obtain ⟨es, u, htext, hes, rfl, hstop⟩ := harray hat harr
    rw [htext]
    exact .array hes hstop
  case mapBegin =>
    obtain ⟨⟨data, stop⟩, hobj, h⟩ := h
    cases h
    obtain ⟨ms, u, htext, hms, rfl, hstop⟩ := hmap hat hobj
    exact turnReads_value (v := .obj ms) rfl (by simp [isNullValue, parsed]) htext hms hstop
  case null =>
    obtain ⟨null, hnull, h⟩ := h
    obtain ⟨rfl, h⟩ := ite_else_throw_eq_ok.mp h
    cases h
    obtain ⟨u, htext, hstop⟩ := isNull_eq_true hat hnull
    exact turnReads_value (v := .null) rfl (by simp [isNullValue]) htext trivial hstop
  case bool =>
    obtain ⟨⟨data, stop⟩, hbool, h⟩ := h
    cases h
    obtain ⟨u, htext, hstop⟩ := parseBool_eq_ok hat hbool
    exact turnReads_value (v := .bool data) rfl (by simp [isNullValue, parsed]) htext trivial hstop
  case quote =>
    obtain ⟨⟨data, stop⟩, hstr, h⟩ := h
    cases h
    rcases parseString_eq_ok hat hstr with ⟨items, u, hitems, htext, rfl, hempty, hstop⟩ | hstop
    · exact turnReads_value (v := .str items) rfl (by simp [isNullValue, parsed]) htext
        ⟨hitems, hempty⟩ hstop
    · exact .unclosed hstop
  case num =>
    obtain ⟨⟨p, stop⟩, hnum, h⟩ := h
    cases h
    obtain ⟨tok, u, hrun, htext, hends, rfl, hstop⟩ :=
      parseNum_eq_ok_of_start hat ((label_num c).mp hlabel) hnum
    exact turnReads_value (v := .num tok) rfl (by simp [isNullValue, parsed]) htext
      ⟨hrun, hends⟩ hstop
  all_goals cases h

theorem arrayLoopSound_succ {view : Bytes} {fuel : ℕ} (harray : ArraySound δ view fuel)
    (hmap : MapSound δ view fuel) (hloop : ArrayLoopSound δ view fuel) :
    ArrayLoopSound δ view (fuel + 1) := by
  intro s k j acc vec endByComma hat h
  rw [arrayLoop_succ, bind_eq_ok] at h
  obtain ⟨turn, hturn, h⟩ := h
  cases arrayTurn_sound harray hmap hat hturn with
  | @space c _ hc =>
    obtain ⟨es, t, rfl, hes, hvec, hj⟩ := hloop hat.next h
    exact ⟨es.push c, t, by simp, acceptsElems_push_ws hc hes, by simpa using hvec, hj⟩
  | comma hcomma =>
    obtain ⟨es, t, rfl, hes, hvec, hj⟩ := hloop hat.next h
    exact ⟨es.push (ch ','), t, by simp, hcomma ▸ acceptsElems_push_comma hes,
      by simpa using hvec, hj⟩
  | close =>
    cases h
    exact ⟨.close [], _, rfl, rfl, by simp [parsedElems], hat.next⟩
  | @value v u stop harr hv hstop =>
    obtain ⟨es, t, hu, hes, hvec, hj⟩ := hloop hstop h
    have hbefore : Before.of v = .ready false := by simp [Before.of, harr]
    obtain ⟨htext, haccepts⟩ := readsElems_elem endByComma hu hv (hbefore ▸ hes)
    exact ⟨.elem [] v es, t, htext, haccepts, by simp [parsedElems, hvec], hj⟩
  | @array es u stop hes hstop =>
    -- the byte after the nested array is passed over
    cases u with
    | nil =>
      have hend := hstop.eq_nil_iff.mp rfl
      exact absurd h (arrayLoop_ne_ok fun hnext => hend (by dsimp only at hnext; omega))
    | cons x u =>
      obtain ⟨es', t, hu, hes', hvec, hj⟩ := hloop hstop.next h
      have hu' : x :: u = (es'.push x).text ++ t := by simp [hu]
      obtain ⟨htext, haccepts⟩ := readsElems_elem (v := .arr es) endByComma hu' hes
        (acceptsElems_push_skip x hes')
      exact ⟨.elem [] (.arr es) (es'.push x), t, htext, haccepts,
        by simp [parsedElems, parsed, isNullValue, hvec], hj⟩
  | unclosed hstop => exact absurd h (arrayLoop_ne_ok (hstop.eq_nil_iff.mp rfl))

theorem arraySound_succ {view : Bytes} {fuel : ℕ} (hloop : ArrayLoopSound δ view fuel) :
    ArraySound δ view (fuel + 1) := by
  intro s k j vec hat h
  simp only [parseArray, throw_bind, ite_throw_eq_ok, bind_eq_ok] at h
  obtain ⟨c, hc, hopen, -, h⟩ := h
  obtain ⟨s, rfl⟩ := hat.of_charAt hc
  obtain rfl : c = ch '[' := not_not.mp hopen
  obtain ⟨es, t, rfl, hes, hvec, hj⟩ := hloop hat.next h
  exact ⟨es, t, by simp [Value.text], hes, by simpa using hvec, hj⟩

/-! ## Objects -/

/-- At the end of the text the loop of `parseMap` throws. -/
theorem mapLoop_ne_ok {view : Bytes} {fuel k j : ℕ} {data m : List (Bytes × JsonPtr δ)}
    {state : ParseState} {str : Bytes} (hk : ¬ k < view.length) :
    mapLoop view fuel k data state str ≠ .ok (m, j) := by
  intro h
  cases fuel with
  | zero =>
    rw [mapLoop_zero] at h
    cases h
  | succ fuel =>
    rw [mapLoop, if_neg hk] at h
    cases h

/-- White space in front changes nothing, in any state. -/
theorem readsMembers_ws {state : ParseState} {str : Bytes} {data m : List (Bytes × JsonPtr δ)}
    {s t : Bytes} {c : UInt8} (hc : isWs c) (h : ReadsMembers state str data m s t) :
    ReadsMembers state str data m (c :: s) t := by
  cases state with
  | keyStart =>
    obtain ⟨ms, rfl, hms, hm⟩ := h
    exact ⟨ms.push c, by simp, acceptsMembers_push_ws hc hms, by simpa⟩
  | keyEnd =>
    obtain ⟨pre, post, v, rest, rfl, hpre, hrest⟩ := h
    exact ⟨c :: pre, post, v, rest, rfl, allWs_cons hc hpre, hrest⟩
  | valueStart =>
    obtain ⟨post, v, rest, rfl, hpost, hrest⟩ := h
    exact ⟨c :: post, v, rest, rfl, allWs_cons hc hpost, hrest⟩
  | valueEnd =>
    obtain ⟨ms, rfl, hms, hm⟩ := h
    exact ⟨ms.push c, by simp, acceptsMembers_push_ws hc hms, by simpa⟩

/-- What the parser of a value reads is a value, unless the text ends behind it. -/
theorem parseValue_sound {view s : Bytes} {fuel k i : ℕ} {p : JsonPtr δ}
    (harray : ArraySound δ view fuel) (hmap : MapSound δ view fuel) (hat : At view k s)
    (h : parseValue view fuel k = .ok (p, i)) :
    (∃ v u, s = v.text ++ u ∧ Accepts v u ∧ p = parsed v ∧ At view i u) ∨ At view i [] := by
  rw [parseValue, bind_eq_ok] at h
  obtain ⟨c, hc, h⟩ := h
  obtain ⟨s, rfl⟩ := hat.of_charAt hc
  cases hlabel : label c <;> simp only [hlabel, bind_eq_ok] at h
  case quote =>
    obtain ⟨⟨b, j⟩, hstr, h⟩ := h
    cases h
    rcases parseString_eq_ok hat hstr with ⟨items, u, hitems, htext, rfl, hempty, hi⟩ | hi
    · exact Or.inl ⟨.str items, u, htext, ⟨hitems, hempty⟩, by simp [parsed], hi⟩
    · exact Or.inr hi
  case bool =>
    obtain ⟨⟨b, j⟩, hbool, h⟩ := h
    cases h
    obtain ⟨u, htext, hi⟩ := parseBool_eq_ok hat hbool
    exact Or.inl ⟨.bool b, u, htext, trivial, by simp [parsed], hi⟩
  case null =>
    obtain ⟨null, hnull, h⟩ := h
    obtain ⟨rfl, h⟩ := ite_else_throw_eq_ok.mp h
    cases h
    obtain ⟨u, htext, hi⟩ := isNull_eq_true hat hnull
    exact Or.inl ⟨.null, u, htext, trivial, by simp [parsed], hi⟩
  case num =>
    obtain ⟨tok, u, hrun, htext, hends, rfl, hi⟩ :=
      parseNum_eq_ok_of_start hat ((label_num c).mp hlabel) h
    exact Or.inl ⟨.num tok, u, htext, ⟨hrun, hends⟩, by simp [parsed], hi⟩
  case arrayBegin =>
    obtain ⟨⟨vec, j⟩, harr, h⟩ := h
    cases h
    obtain ⟨es, u, htext, hes, rfl, hi⟩ := harray hat harr
    exact Or.inl ⟨.arr es, u, htext, hes, by simp [parsed], hi⟩
  case mapBegin =>
    obtain ⟨⟨data, j⟩, hobj, h⟩ := h
    cases h
    obtain ⟨ms, u, htext, hms, rfl, hi⟩ := hmap hat hobj
    exact Or.inl ⟨.obj ms, u, htext, hms, by simp [parsed], hi⟩
  all_goals cases h

theorem mapLoopSound_succ {view : Bytes} {fuel : ℕ} (harray : ArraySound δ view fuel)
    (hmap : MapSound δ view fuel) (hloop : MapLoopSound δ view fuel) :
    MapLoopSound δ view (fuel + 1) := by
  intro s k j data m state str hat h
  have hk : k < view.length := not_not.mp fun hk => mapLoop_ne_ok hk h
  obtain ⟨c, hc⟩ : ∃ c, charAt view k = .ok c := ⟨view[k], by simp [charAt, hk]⟩
  obtain ⟨s, rfl⟩ := hat.of_charAt hc
  by_cases hvalue : state = .valueStart ∧ label c ≠ .space
  · -- the value `v` is read, and the loop goes on from `u`
    obtain ⟨rfl, hspace⟩ := hvalue
    rw [mapLoop_valueStart data str hc hspace, bind_eq_ok] at h
    obtain ⟨⟨p, i⟩, hp, h⟩ := h
    rcases parseValue_sound harray hmap hat hp with ⟨v, u, hs, hv, rfl, hi⟩ | hi
    · obtain ⟨t, ⟨ms, rfl, hms, hm⟩, hj⟩ := hloop hi h
      exact ⟨t, ⟨[], v, ms, hs, by simp [AllWs], hv, hms, hm⟩, hj⟩
    · exact absurd h (mapLoop_ne_ok (hi.eq_nil_iff.mp rfl))
  · rw [mapLoop, if_pos hk, hc, ok_bind] at h
    cases hlabel : label c <;>
      simp only [hlabel, throw_bind, ite_throw_eq_ok, bind_eq_ok, not_not] at h
    case space =>
      obtain ⟨t, hreads, hj⟩ := hloop hat.next h
      exact ⟨t, readsMembers_ws ((label_space c).mp hlabel) hreads, hj⟩
    case comma =>
      obtain rfl := (label_comma c).mp hlabel
      obtain ⟨rfl, h⟩ := h
      obtain ⟨t, ⟨ms, rfl, hms, hm⟩, hj⟩ := hloop hat.next h
      exact ⟨t, ⟨ms.push (ch ','), by simp, acceptsMembers_push_comma hms, by simpa⟩, hj⟩
    case colon =>
      obtain rfl := (label_colon c).mp hlabel
      obtain ⟨rfl, h⟩ := h
      obtain ⟨t, ⟨post, v, rest, rfl, hrest⟩, hj⟩ := hloop hat.next h
      exact ⟨t, ⟨[], post, v, rest, rfl, by simp [AllWs], hrest⟩, hj⟩
    case mapEnd =>
      obtain rfl := (label_mapEnd c).mp hlabel
      obtain ⟨rfl, h⟩ := h
      cases h
      exact ⟨s, ⟨.close [], rfl, ⟨rfl, by simp [AllWs]⟩, rfl⟩, hat.next⟩
    case quote =>
      split at h
      · rename_i hstate
        subst hstate
        obtain ⟨⟨key, i⟩, hkey, h⟩ := bind_eq_ok.mp h
        rcases parseString_eq_ok hat hkey with ⟨items, u, hitems, htext, rfl, -, hi⟩ | hi
        · obtain ⟨t, ⟨pre, post, v, rest, rfl, hpre, hpost, hv, hrest, hm⟩, hj⟩ := hloop hi h
          refine ⟨t, ⟨.member [] items pre post v rest, by simp [htext, Members.text], ?_, hm⟩, hj⟩
          exact ⟨by simp [IsGap, AllWs], hitems, hpre, hpost, hv, hrest⟩
        · exact absurd h (mapLoop_ne_ok (hi.eq_nil_iff.mp rfl))
      · rw [ite_else_throw_eq_ok] at h
        exact absurd ⟨h.1, by simp [hlabel]⟩ hvalue
    case bool | null | num | arrayBegin | mapBegin => exact absurd ⟨h.1, by simp [hlabel]⟩ hvalue
    all_goals cases h

theorem mapSound_succ {view : Bytes} {fuel : ℕ} (hloop : MapLoopSound δ view fuel) :
    MapSound δ view (fuel + 1) := by
  intro s k j m hat h
  simp only [parseMap, throw_bind, ite_throw_eq_ok, bind_eq_ok] at h
  obtain ⟨c, hc, hopen, -, h⟩ := h
  obtain ⟨s, rfl⟩ := hat.of_charAt hc
  obtain rfl : c = ch '{' := not_not.mp hopen
  obtain ⟨t, ⟨ms, rfl, hms, hm⟩, hj⟩ := hloop hat.next h
  exact ⟨ms, t, by simp [Value.text], hms, hm, hj⟩

/-! ## The whole text -/

theorem sound (view : Bytes) (fuel : ℕ) :
    ArraySound δ view fuel ∧ ArrayLoopSound δ view fuel ∧ MapSound δ view fuel ∧
      MapLoopSound δ view fuel := by
  induction fuel with
  | zero =>
    refine ⟨?_, ?_, ?_, ?_⟩
    · intro s k j vec _ h
      rw [parseArray_zero] at h
      cases h
    · intro s k j acc vec endByComma _ h
      rw [arrayLoop_zero] at h
      cases h
    · intro s k j m _ h
      rw [parseMap_zero] at h
      cases h
    · intro s k j data m state str _ h
      rw [mapLoop_zero] at h
      cases h
  | succ fuel ih =>
    obtain ⟨harray, harrayLoop, hmap, hmapLoop⟩ := ih
    exact ⟨arraySound_succ harrayLoop, arrayLoopSound_succ harray hmap harrayLoop,
      mapSound_succ hmapLoop, mapLoopSound_succ harray hmap hmapLoop⟩

theorem parseEnd_eq_ok {view s : Bytes} {fuel k : ℕ} (hat : At view k s)
    (h : parseEnd view fuel k = .ok ()) : AllWs s := by
  induction fuel generalizing k s with
  | zero => cases h
  | succ fuel ih =>
    rw [parseEnd] at h
    split at h
    · obtain ⟨c, hc, h⟩ := bind_eq_ok.mp h
      obtain ⟨s, rfl⟩ := hat.of_charAt hc
      split at h
      · rename_i hlabel
        exact allWs_cons ((label_space c).mp hlabel) (ih hat.next h)
      · cases h
    · rename_i hend
      rw [hat.eq_nil_iff.mpr hend]
      simp [AllWs]

/-- Where `parse` returns, the text is blank or a reading, and the result is the reading's. -/
theorem parseFrom_eq_ok {view s : Bytes} {fuel k : ℕ} {p : JsonPtr δ} (hat : At view k s)
    (h : parseFrom view fuel k = .ok p) :
    (AllWs s ∧ p = .jsonNull) ∨ ∃ r : Reading, r.text = s ∧ p = parsed r.root := by
  induction fuel generalizing k s with
  | zero => cases h
  | succ fuel ih =>
    rw [parseFrom] at h
    split at h
    · obtain ⟨c, hc, h⟩ := bind_eq_ok.mp h
      obtain ⟨s, rfl⟩ := hat.of_charAt hc
      obtain ⟨harray, -, hmap, -⟩ := sound (δ := δ) view (2 * view.length + 2)
      split at h
      · obtain ⟨⟨data, i⟩, hobj, h⟩ := bind_eq_ok.mp h
        obtain ⟨⟨⟩, hend, h⟩ := bind_eq_ok.mp h
        obtain ⟨ms, t, htext, hms, rfl, hi⟩ := hmap hat hobj
        obtain rfl := pure_eq_ok.mp h
        exact Or.inr ⟨⟨[], .obj ms, t, by simp [AllWs], parseEnd_eq_ok hi hend, rfl, hms⟩,
          by simp [Reading.text, htext], by simp [parsed]⟩
      · obtain ⟨⟨data, i⟩, harr, h⟩ := bind_eq_ok.mp h
        obtain ⟨⟨⟩, hend, h⟩ := bind_eq_ok.mp h
        obtain ⟨es, t, htext, hes, rfl, hi⟩ := harray hat harr
        obtain rfl := pure_eq_ok.mp h
        exact Or.inr ⟨⟨[], .arr es, t, by simp [AllWs], parseEnd_eq_ok hi hend, rfl, hes⟩,
          by simp [Reading.text, htext], by simp [parsed]⟩
      · rename_i hlabel
        have hws : isWs c := (label_space c).mp hlabel
        rcases ih hat.next h with ⟨hs, hp⟩ | ⟨r, rfl, hp⟩
        · exact Or.inl ⟨allWs_cons hws hs, hp⟩
        · exact Or.inr ⟨{ r with lead := c :: r.lead, lead_ws := allWs_cons hws r.lead_ws },
            by simp [Reading.text], hp⟩
      · cases h
    · rename_i hend
      obtain rfl := hat.eq_nil_iff.mpr hend
      exact Or.inl ⟨by simp [AllWs], (pure_eq_ok.mp h).symm⟩

end JsonParser

end CoUringWeb
