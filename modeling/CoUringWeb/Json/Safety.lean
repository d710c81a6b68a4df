import CoUringWeb.Json.Reading

/-!
# The parser is safe on every text

On any text the parser returns or throws `JsonParseError`: it reads nothing outside the text, no
assertion fails, and the fuel of its loops suffices.  Each function is described by how far it moves
the index; the loops need fuel for what is left of the text, twice over because a nested array or
object takes one turn for the loop and one for the call.
-/

namespace CoUringWeb

namespace JsonParser

open Machine Numerals JsonSyntax Exceptions

variable {δ : Type} [StreamDouble δ] {view : Bytes} {k fuel : ℕ}

/-- The one exception the parser throws. -/
def JsonError.IsParseError (e : JsonError) : Prop := ∃ text detail, e = .parseError text detail

theorem isParseError (text : String) (detail : Bytes) :
    JsonError.IsParseError (.parseError text detail) := ⟨text, detail, rfl⟩

/-- Returns with `post`, or throws `JsonParseError`. -/
def Safe {α : Type} (post : α → Prop) (x : Except JsonError α) : Prop :=
  Ends JsonError.IsParseError post x

/-! ## Reading the text -/

theorem charAt_safe (hk : k < view.length) :
    Safe (fun c => view[k]? = some c) (charAt view k) := by
  rw [charAt, List.getElem?_eq_getElem hk]
  exact rfl

theorem window_safe {n : ℕ} (hk : k + n ≤ view.length) :
    Safe (fun _ => True) (window view k n) := by
  rw [window, if_pos hk]
  exact trivial

/-! ## Leaves -/

theorem getNum_safe (ss : Bytes) (isDouble : Bool) (hfuel : view.length - k < fuel) :
    Safe (fun r => k ≤ r.2.2) (getNum view fuel k ss isDouble) := by
  induction fuel generalizing k ss isDouble with
  | zero => omega
  | succ fuel ih =>
    rw [getNum]
    refine ends_ite (fun hlt => ?_) fun _ => isParseError _ _
    refine (charAt_safe hlt).bind fun c _ => ends_ite (fun _ => ?_) fun _ => le_rfl
    exact (ih _ _ (by omega)).mono fun r hr => by omega

theorem parseNum_safe (hk : k < view.length) {c : UInt8} (hc : view[k]? = some c)
    (hlabel : label c = .num) :
    Safe (fun r : JsonPtr δ × ℕ => k < r.2) (parseNum view k) := by
  have hnum : isNumChar c := by
    rw [isNumChar_eq]
    exact isNumberByte_of_isNumberStart c ((label_num c).mp hlabel)
  have hfirst : Safe (fun r => k < r.2.2) (getNum view (view.length + 1) k [] false) := by
    rw [getNum, if_pos hk, charAt, hc]
    refine Ends.bind (m := fun x => x = c) rfl ?_
    rintro x rfl
    rw [if_pos hnum]
    exact getNum_safe _ _ (by omega)
  rw [parseNum]
  refine hfirst.bind ?_
  rintro ⟨ss, isDouble, j⟩ hj
  exact ends_ite (fun _ => hj) fun _ => hj

theorem unicodeToWchar_safe (hk : k + 4 ≤ view.length) :
    Safe (fun _ => True) (unicodeToWchar view k) := by
  rw [unicodeToWchar]
  refine (window_safe hk).bind fun digits _ => ?_
  split
  · exact trivial
  · exact isParseError _ _

theorem getEscape_safe (hk : k ≤ view.length) (hlen : 2 ≤ view.length) :
    Safe (fun r => k < r.2) (getEscape view k) := by
  rw [getEscape, sizeSub_of_le hlen, sizeSub_of_le (by omega)]
  simp only [throw_bind]
  refine ends_ite_throw (isParseError _ _) fun hguard => ?_
  refine (charAt_safe (by omega)).bind fun c _ => ends_ite_throw (isParseError _ _) fun _ => ?_
  refine ends_ite (fun _ => ends_ite_throw (isParseError _ _) fun hguard' => ?_) fun _ => ?_
  · refine (unicodeToWchar_safe (by omega)).bind fun n _ => ends_pure ?_
    omega
  · split
    · exact Nat.lt_succ_self k
    · exact isParseError _ _

theorem getString_safe (s : Bytes) (hlen : 2 ≤ view.length) (hfuel : view.length - k < fuel) :
    Safe (fun r => k ≤ r.2) (getString view fuel k s) := by
  induction fuel generalizing k s with
  | zero => omega
  | succ fuel ih =>
    rw [getString]
    simp only [throw_bind]
    refine ends_ite (fun hlt => ?_) fun _ => le_rfl
    refine (charAt_safe hlt).bind fun c _ => ends_ite_throw (isParseError _ _) fun _ => ?_
    refine ends_ite (fun _ => ?_) fun _ => ends_ite (fun _ => Nat.le_succ k) fun _ => ?_
    · refine (getEscape_safe (by omega) hlen).bind ?_
      rintro ⟨bytes, j⟩ hj
      exact (ih _ (by omega)).mono fun r hr => by omega
    · exact (ih _ (by omega)).mono fun r hr => by omega

theorem parseString_safe (hquote : view[k]? = some (ch '"')) :
    Safe (fun r => k < r.2) (parseString view k) := by
  have hk : k < view.length := (List.getElem?_eq_some_iff.1 hquote).1
  rw [parseString, charAt, hquote, sizeSub_of_le (by omega)]
  simp only [throw_bind]
  refine Ends.bind (m := fun c => c = ch '"') rfl ?_
  rintro c rfl
  rw [if_neg (not_not.2 rfl)]
  refine ends_ite_throw (isParseError _ _) fun hguard => ?_
  exact (getString_safe _ (by omega) (by omega)).mono fun r hr => hr

theorem parseBool_safe (hk : k < view.length) : Safe (fun r => k < r.2) (parseBool view k) := by
  rw [parseBool, sizeSub_of_le (by omega)]
  simp only [throw_bind]
  refine ends_ite_throw (isParseError _ _) fun hguard => ?_
  refine (window_safe (by omega)).bind fun four _ => ends_ite (fun _ => ?_) fun _ => ?_
  · exact ends_pure (by omega)
  · refine ends_ite (fun hguard' => ?_) fun _ => isParseError _ _
    refine (window_safe (by omega)).bind fun five _ => ends_ite (fun _ => ?_) fun _ => ?_
    · exact ends_pure (by omega)
    · exact isParseError _ _

theorem isNull_safe : Safe (fun _ => True) (isNull view k) := by
  rw [isNull]
  refine ends_ite (fun hguard => ?_) fun _ => trivial
  exact (window_safe (by omega)).bind fun four _ => trivial

/-! ## Arrays and maps -/

/-- The four functions that call one another, on enough fuel for the rest of the text. -/
structure SafeAt (δ : Type) [StreamDouble δ] (view : Bytes) (fuel : ℕ) : Prop where
  arrayLoop : ∀ {k : ℕ} (vec : List (JsonPtr δ)) (endByComma : Bool), 2 * (view.length - k) < fuel →
    Safe (fun r => k < r.2) (arrayLoop view fuel k vec endByComma)
  parseArray : ∀ {k : ℕ}, view[k]? = some (ch '[') → 2 * (view.length - k) ≤ fuel →
    Safe (fun r : List (JsonPtr δ) × ℕ => k < r.2) (parseArray view fuel k)
  mapLoop : ∀ {k : ℕ} (data : List (Bytes × JsonPtr δ)) (state : ParseState) (str : Bytes),
    2 * (view.length - k) < fuel → Safe (fun r => k < r.2) (mapLoop view fuel k data state str)
  parseMap : ∀ {k : ℕ}, view[k]? = some (ch '{') → 2 * (view.length - k) ≤ fuel →
    Safe (fun r : List (Bytes × JsonPtr δ) × ℕ => k < r.2) (parseMap view fuel k)

/-- The loop goes on from a later index. -/
theorem SafeAt.arrayLoop_next (h : SafeAt δ view fuel) {j : ℕ} (hk : k < view.length) (hj : k < j)
    (hfuel : 2 * (view.length - k) ≤ fuel) (vec : List (JsonPtr δ)) (endByComma : Bool) :
    Safe (fun r => k < r.2) (JsonParser.arrayLoop view fuel j vec endByComma) :=
  (h.arrayLoop vec endByComma (by omega)).mono fun _ hr => hj.trans hr

theorem SafeAt.mapLoop_next (h : SafeAt δ view fuel) {j : ℕ} (hk : k < view.length) (hj : k < j)
    (hfuel : 2 * (view.length - k) ≤ fuel) (data : List (Bytes × JsonPtr δ)) (state : ParseState)
    (str : Bytes) : Safe (fun r => k < r.2) (JsonParser.mapLoop view fuel j data state str) :=
  (h.mapLoop data state str (by omega)).mono fun _ hr => hj.trans hr

theorem SafeAt.arrayLoop_succ (h : SafeAt δ view fuel) (vec : List (JsonPtr δ)) (endByComma : Bool)
    (hfuel : 2 * (view.length - k) < fuel + 1) :
    Safe (fun r => k < r.2) (JsonParser.arrayLoop view (fuel + 1) k vec endByComma) := by
  rw [JsonParser.arrayLoop]
  refine ends_ite (fun hk => ?_) fun _ => isParseError _ _
  have hfuel : 2 * (view.length - k) ≤ fuel := by omega
  refine (charAt_safe hk).bind fun c hc => ?_
  cases hlabel : label c <;> simp only [throw_bind]
  case comma =>
    exact ends_ite_throw (isParseError _ _) fun _ => h.arrayLoop_next hk k.lt_succ_self hfuel _ _
  case arrayBegin =>
    obtain rfl := (label_arrayBegin c).mp hlabel
    refine (h.parseArray hc hfuel).bind ?_
    rintro ⟨data, j⟩ hj
    exact h.arrayLoop_next hk (Nat.lt_succ_of_lt hj) hfuel _ _
  case arrayEnd => exact k.lt_succ_self
  case mapBegin =>
    obtain rfl := (label_mapBegin c).mp hlabel
    refine (h.parseMap hc hfuel).bind ?_
    rintro ⟨data, j⟩ hj
    exact h.arrayLoop_next hk hj hfuel _ _
  case null =>
    refine isNull_safe.bind fun found _ => ends_ite (fun _ => ?_) fun _ => isParseError _ _
    exact h.arrayLoop_next hk (by omega) hfuel _ _
  case bool =>
    refine (parseBool_safe hk).bind ?_
    rintro ⟨data, j⟩ hj
    exact h.arrayLoop_next hk hj hfuel _ _
  case quote =>
    obtain rfl := (label_quote c).mp hlabel
    refine (parseString_safe hc).bind ?_
    rintro ⟨data, j⟩ hj
    exact h.arrayLoop_next hk hj hfuel _ _
  case space => exact h.arrayLoop_next hk k.lt_succ_self hfuel _ _
  case num =>
    refine (parseNum_safe hk hc hlabel).bind ?_
    rintro ⟨p, j⟩ hj
    exact h.arrayLoop_next hk hj hfuel _ _
  all_goals exact isParseError _ _

theorem SafeAt.parseArray_succ (h : SafeAt δ view fuel) (hc : view[k]? = some (ch '['))
    (hfuel : 2 * (view.length - k) ≤ fuel + 1) :
    Safe (fun r : List (JsonPtr δ) × ℕ => k < r.2) (JsonParser.parseArray view (fuel + 1) k) := by
  have hk : k < view.length := (List.getElem?_eq_some_iff.1 hc).1
  rw [JsonParser.parseArray, charAt, hc]
  simp only [throw_bind]
  refine Ends.bind (m := fun c => c = ch '[') rfl ?_
  rintro c rfl
  rw [if_neg (not_not.2 rfl)]
  refine ends_ite_throw (isParseError _ _) fun _ => ?_
  exact (h.arrayLoop _ _ (by omega)).mono fun r hr => by omega

theorem SafeAt.mapLoop_succ (h : SafeAt δ view fuel) (data : List (Bytes × JsonPtr δ))
    (state : ParseState) (str : Bytes) (hfuel : 2 * (view.length - k) < fuel + 1) :
    Safe (fun r => k < r.2) (JsonParser.mapLoop view (fuel + 1) k data state str) := by
  rw [JsonParser.mapLoop]
  refine ends_ite (fun hk => ?_) fun _ => isParseError _ _
  have hfuel : 2 * (view.length - k) ≤ fuel := by omega
  refine (charAt_safe hk).bind fun c hc => ?_
  cases hlabel : label c <;> simp only [throw_bind]
  case space => exact h.mapLoop_next hk k.lt_succ_self hfuel _ _ _
  case comma =>
    refine ends_ite_throw (isParseError _ _) fun _ => ?_
    exact h.mapLoop_next hk k.lt_succ_self hfuel _ _ _
  case quote =>
    obtain rfl := (label_quote c).mp hlabel
    refine ends_ite (fun _ => ?_) fun _ => ends_ite (fun _ => ?_) fun _ => isParseError _ _
    all_goals
      refine (parseString_safe hc).bind ?_
      rintro ⟨s, j⟩ hj
      exact h.mapLoop_next hk hj hfuel _ _ _
  case colon =>
    refine ends_ite_throw (isParseError _ _) fun _ => ?_
    exact h.mapLoop_next hk k.lt_succ_self hfuel _ _ _
  case bool =>
    refine ends_ite_throw (isParseError _ _) fun _ => (parseBool_safe hk).bind ?_
    rintro ⟨b, j⟩ hj
    exact h.mapLoop_next hk hj hfuel _ _ _
  case null =>
    refine ends_ite_throw (isParseError _ _) fun _ => isNull_safe.bind fun found _ => ?_
    refine ends_ite (fun _ => ?_) fun _ => isParseError _ _
    exact h.mapLoop_next hk (by omega) hfuel _ _ _
  case num =>
    refine ends_ite_throw (isParseError _ _) fun _ => (parseNum_safe hk hc hlabel).bind ?_
    rintro ⟨p, j⟩ hj
    exact h.mapLoop_next hk hj hfuel _ _ _
  case arrayBegin =>
    obtain rfl := (label_arrayBegin c).mp hlabel
    refine ends_ite_throw (isParseError _ _) fun _ => (h.parseArray hc hfuel).bind ?_
    rintro ⟨vec, j⟩ hj
    exact h.mapLoop_next hk hj hfuel _ _ _
  case mapBegin =>
    obtain rfl := (label_mapBegin c).mp hlabel
    refine ends_ite_throw (isParseError _ _) fun _ => (h.parseMap hc hfuel).bind ?_
    rintro ⟨m, j⟩ hj
    exact h.mapLoop_next hk hj hfuel _ _ _
  case mapEnd => exact ends_ite_throw (isParseError _ _) fun _ => k.lt_succ_self
  all_goals exact isParseError _ _

theorem SafeAt.parseMap_succ (h : SafeAt δ view fuel) (hc : view[k]? = some (ch '{'))
    (hfuel : 2 * (view.length - k) ≤ fuel + 1) :
    Safe (fun r : List (Bytes × JsonPtr δ) × ℕ => k < r.2)
      (JsonParser.parseMap view (fuel + 1) k) := by
  have hk : k < view.length := (List.getElem?_eq_some_iff.1 hc).1
  rw [JsonParser.parseMap, charAt, hc]
  simp only [throw_bind]
  refine Ends.bind (m := fun c => c = ch '{') rfl ?_
  rintro c rfl
  rw [if_neg (not_not.2 rfl)]
  refine ends_ite_throw (isParseError _ _) fun _ => ?_
  exact (h.mapLoop _ _ _ (by omega)).mono fun r hr => by omega

theorem safeAt (view : Bytes) (fuel : ℕ) : SafeAt δ view fuel := by
  induction fuel with
  | zero =>
    have hlt : ∀ {k : ℕ} {c : UInt8}, view[k]? = some c → ¬ 2 * (view.length - k) ≤ 0 := by
      intro k c hc
      have hk : k < view.length := (List.getElem?_eq_some_iff.1 hc).1
      omega
    exact ⟨fun _ _ h => absurd h (Nat.not_lt_zero _), fun hc h => absurd h (hlt hc),
      fun _ _ _ h => absurd h (Nat.not_lt_zero _), fun hc h => absurd h (hlt hc)⟩
  | succ fuel ih => exact ⟨ih.arrayLoop_succ, ih.parseArray_succ, ih.mapLoop_succ, ih.parseMap_succ⟩

/-! ## The whole text -/

theorem parseEnd_safe (hfuel : view.length - k < fuel) :
    Safe (fun _ => True) (parseEnd view fuel k) := by
  induction fuel generalizing k with
  | zero => omega
  | succ fuel ih =>
    rw [parseEnd]
    refine ends_ite (fun hk => ?_) fun _ => trivial
    refine (charAt_safe hk).bind fun c _ => ?_
    split
    · exact ih (by omega)
    · exact isParseError _ _

theorem parseFrom_safe (hfuel : view.length - k < fuel) :
    Safe (fun _ : JsonPtr δ => True) (parseFrom view fuel k) := by
  induction fuel generalizing k with
  | zero => omega
  | succ fuel ih =>
    rw [parseFrom]
    refine ends_ite (fun hk => ?_) fun _ => trivial
    refine (charAt_safe hk).bind fun c hc => ?_
    have hend : ∀ j, Safe (fun _ => True) (parseEnd view (view.length + 1) j) := fun j =>
      parseEnd_safe (by omega)
    cases hlabel : label c
    case mapBegin =>
      obtain rfl := (label_mapBegin c).mp hlabel
      refine ((safeAt view _).parseMap hc (by omega)).bind fun r _ => ?_
      exact (hend _).bind fun _ _ => trivial
    case arrayBegin =>
      obtain rfl := (label_arrayBegin c).mp hlabel
      refine ((safeAt view _).parseArray hc (by omega)).bind fun r _ => ?_
      exact (hend _).bind fun _ _ => trivial
    case space => exact ih (by omega)
    all_goals exact isParseError _ _

/-- On every text `parse` returns or throws `JsonParseError`. -/
theorem parse_returns_or_throws (view : Bytes) :
    (∃ p : JsonPtr δ, parse view = .ok p) ∨
      ∃ text detail,
        (parse view : Except JsonError (JsonPtr δ)) = .error (.parseError text detail) := by
  have hsafe : Safe (fun _ : JsonPtr δ => True) (parse view) := parseFrom_safe (by omega)
  cases hparse : (parse view : Except JsonError (JsonPtr δ)) with
  | ok p => exact Or.inl ⟨p, rfl⟩
  | error e =>
    rw [hparse] at hsafe
    obtain ⟨text, detail, rfl⟩ := hsafe
    exact Or.inr ⟨text, detail, rfl⟩

end JsonParser

end CoUringWeb
