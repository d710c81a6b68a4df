import CoUringWeb.Framework.Exceptions
import CoUringWeb.Framework.JsonSyntax
import CoUringWeb.Json.Parser
import Mathlib.Data.List.TakeWhile

/-!
# What the parser makes of a token

`At view i s` says that `s` is the rest of the text from index `i` on.  The results here describe
`parseNum`, `parseString`, `parseBool` and the test for `null` by what they find there: on a token
of the grammar with enough bytes behind it they return its value, and they return nothing else.
-/

namespace CoUringWeb

namespace JsonParser

open Machine Numerals JsonSyntax Exceptions

variable {δ : Type} [StreamDouble δ]

/-! ## Positions -/

/-- `s` is what `view` holds from index `i` on. -/
structure At (view : Bytes) (i : ℕ) (s : Bytes) : Prop where
  le : i ≤ view.length
  drop : view.drop i = s

theorem lt_of_charAt {view : Bytes} {i : ℕ} {c : UInt8} (h : charAt view i = .ok c) :
    i < view.length := by
  by_contra hi
  rw [charAt, List.getElem?_eq_none (Nat.le_of_not_lt hi)] at h
  cases h

namespace At

variable {view s t w : Bytes} {i n : ℕ} {c : UInt8}

theorem length (h : At view i s) : i + s.length = view.length := by
  have hle := h.le
  rw [← h.drop, List.length_drop]
  omega

theorem zero : At view 0 view := ⟨Nat.zero_le _, rfl⟩

theorem append (h : At view i (w ++ s)) : At view (i + w.length) s := by
  have hlen := h.length
  rw [List.length_append] at hlen
  refine ⟨by omega, ?_⟩
  rw [← List.drop_drop, h.drop, List.drop_left]

theorem next (h : At view i (c :: s)) : At view (i + 1) s := append (w := [c]) h

theorem lt (h : At view i (c :: s)) : i < view.length := by
  have hlen := h.length
  rw [List.length_cons] at hlen
  omega

theorem eq_nil_iff (h : At view i s) : s = [] ↔ ¬ i < view.length := by
  have hlen := h.length
  rw [← List.length_eq_zero_iff]
  omega

theorem getElem? (h : At view i (c :: s)) : view[i]? = some c := by
  rw [← List.head?_drop, h.drop]
  rfl

theorem charAt (h : At view i (c :: s)) : JsonParser.charAt view i = .ok c := by
  rw [JsonParser.charAt, h.getElem?]

theorem window (h : At view i s) (hn : n ≤ s.length) :
    JsonParser.window view i n = .ok (s.take n) := by
  have hlen := h.length
  rw [JsonParser.window, if_pos (by omega), h.drop]

theorem sizeSub (h : At view i s) : sizeSub view.length i = s.length := by
  rw [sizeSub_of_le h.le]
  have hlen := h.length
  omega

end At

/-! ## Labels -/

theorem label_spec : ∀ c, (label c = .comma ↔ c = ch ',') ∧ (label c = .arrayBegin ↔ c = ch '[') ∧
    (label c = .arrayEnd ↔ c = ch ']') ∧ (label c = .mapBegin ↔ c = ch '{') ∧
    (label c = .mapEnd ↔ c = ch '}') ∧ (label c = .colon ↔ c = ch ':') ∧
    (label c = .null ↔ c = ch 'n') ∧ (label c = .quote ↔ c = ch '"') ∧
    (label c = .bool ↔ c = ch 't' ∨ c = ch 'f') ∧ (label c = .space ↔ isWs c) ∧
    (label c = .num ↔ isNumberStart c) := by
  decide +kernel

theorem label_comma (c : UInt8) : label c = .comma ↔ c = ch ',' := (label_spec c).1

theorem label_arrayBegin (c : UInt8) : label c = .arrayBegin ↔ c = ch '[' := (label_spec c).2.1

theorem label_arrayEnd (c : UInt8) : label c = .arrayEnd ↔ c = ch ']' := (label_spec c).2.2.1

theorem label_mapBegin (c : UInt8) : label c = .mapBegin ↔ c = ch '{' := (label_spec c).2.2.2.1

theorem label_mapEnd (c : UInt8) : label c = .mapEnd ↔ c = ch '}' := (label_spec c).2.2.2.2.1

theorem label_colon (c : UInt8) : label c = .colon ↔ c = ch ':' := (label_spec c).2.2.2.2.2.1

theorem label_quote (c : UInt8) : label c = .quote ↔ c = ch '"' := (label_spec c).2.2.2.2.2.2.2.1

theorem label_space (c : UInt8) : label c = .space ↔ isWs c :=
  (label_spec c).2.2.2.2.2.2.2.2.2.1

theorem label_num (c : UInt8) : label c = .num ↔ isNumberStart c :=
  (label_spec c).2.2.2.2.2.2.2.2.2.2

theorem isNumChar_eq (c : UInt8) : isNumChar c = isNumberByte c := by
  rw [Bool.eq_iff_iff]
  simp only [isNumChar, isNumberByte, isDoubleChar, decide_eq_true_eq]
  tauto

/-! ## Numbers -/

/-- What `parseNum` makes of the characters it has put into `ss_`. -/
def numValue (tok : Bytes) : JsonPtr δ :=
  if tok.any isDoubleChar then .jsonDouble (StreamDouble.read tok) else .jsonInteger (readInt64 tok)

theorem getNum_run {view : Bytes} (tok s : Bytes) {i fuel : ℕ} (ss : Bytes) (isDouble : Bool)
    (hat : At view i (tok ++ s)) (hfuel : tok.length < fuel) (hrun : ∀ c ∈ tok, isNumberByte c) :
    getNum view fuel i ss isDouble =
      getNum view (fuel - tok.length) (i + tok.length) (ss ++ tok)
        (isDouble || tok.any isDoubleChar) := by
  induction tok generalizing i fuel ss isDouble with
  | nil => simp
  | cons c tok ih =>
    obtain ⟨fuel, rfl⟩ := Nat.exists_eq_succ_of_ne_zero (Nat.ne_zero_of_lt hfuel)
    have hc : isNumChar c := by
      rw [isNumChar_eq]
      exact hrun c List.mem_cons_self
    have htail := ih (ss ++ [c]) (isDouble || isDoubleChar c) (At.next hat)
      (by simpa using hfuel) fun x hx => hrun x (List.mem_cons_of_mem c hx)
    rw [getNum, if_pos hat.lt, hat.charAt]
    change (if isNumChar c then _ else _) = _
    rw [if_pos hc, htail]
    congr 1
    · simp
    · simp only [List.length_cons]; omega
    · simp
    · simp [Bool.or_assoc]

/-- A maximal run of number characters is read whole when a byte follows. -/
theorem parseNum_run {view tok t : Bytes} {c : UInt8} {i : ℕ} (hat : At view i (tok ++ c :: t))
    (hrun : ∀ x ∈ tok, isNumberByte x) (hc : ¬ isNumberByte c) :
    (parseNum view i : Except JsonError (JsonPtr δ × ℕ)) = .ok (numValue tok, i + tok.length) := by
  have hlen : tok.length < view.length + 1 := by
    have := hat.length
    simp only [List.length_append] at this
    omega
  obtain ⟨fuel, hfuel⟩ : ∃ fuel, view.length + 1 - tok.length = fuel + 1 :=
    Nat.exists_eq_succ_of_ne_zero (by omega)
  have hstop : getNum view (view.length + 1) i [] false =
      .ok (tok, tok.any isDoubleChar, i + tok.length) := by
    have hend : At view (i + tok.length) (c :: t) := hat.append
    rw [getNum_run tok (c :: t) [] false hat hlen hrun, hfuel, getNum, if_pos hend.lt, hend.charAt]
    change (if isNumChar c then _ else _) = _
    rw [isNumChar_eq, if_neg hc]
    simp [pure, Except.pure]
  rw [parseNum, hstop]
  unfold numValue
  split <;> simp_all [bind, Except.bind, pure, Except.pure]

/-- The maximal run of number characters from index `k` on. -/
def numberRun (view : Bytes) (k : ℕ) : Bytes := (view.drop k).takeWhile isNumChar

theorem numberRun_append_dropWhile (view : Bytes) (k : ℕ) :
    numberRun view k ++ (view.drop k).dropWhile isNumChar = view.drop k :=
  List.takeWhile_append_dropWhile

theorem isNumberByte_of_mem_numberRun {view : Bytes} {k : ℕ} :
    ∀ c ∈ numberRun view k, isNumberByte c := by
  intro c hc
  rw [← isNumChar_eq]
  exact List.mem_takeWhile_imp hc

/-- When the run ends the text, `parseNum` throws. -/
theorem parseNum_of_end {view : Bytes} {k : ℕ}
    (hend : view.length ≤ k + (numberRun view k).length) :
    (parseNum view k : Except JsonError (JsonPtr δ × ℕ)) =
      .error (.parseError "字符串解析错误 : " view) := by
  rcases Nat.lt_or_ge view.length k with hk | hk
  · rw [parseNum, getNum, if_neg (by omega)]
    rfl
  · have hlen : k + (numberRun view k).length = view.length := by
      have := (List.takeWhile_prefix (p := isNumChar) (l := view.drop k)).length_le
      rw [List.length_drop] at this
      unfold numberRun at hend ⊢
      omega
    have hat : At view k (numberRun view k ++ []) := by
      refine ⟨hk, ?_⟩
      rw [List.append_nil]
      refine (List.IsPrefix.eq_of_length (List.takeWhile_prefix _) ?_).symm
      rw [List.length_drop]
      unfold numberRun at hlen
      omega
    obtain ⟨fuel, hfuel⟩ : ∃ fuel, view.length + 1 - (numberRun view k).length = fuel + 1 :=
      Nat.exists_eq_succ_of_ne_zero (by omega)
    rw [parseNum, getNum_run _ [] [] false hat (by omega) isNumberByte_of_mem_numberRun, hfuel,
      getNum, if_neg (by omega)]
    rfl

/-- The byte after the run. -/
theorem exists_numberRun_append {view : Bytes} {k : ℕ}
    (hlt : k + (numberRun view k).length < view.length) :
    ∃ c t, view.drop k = numberRun view k ++ c :: t ∧ ¬ isNumberByte c := by
  have hsplit := numberRun_append_dropWhile view k
  cases hrest : (view.drop k).dropWhile isNumChar with
  | nil =>
    rw [hrest, List.append_nil] at hsplit
    rw [hsplit, List.length_drop] at hlt
    omega
  | cons c t =>
    refine ⟨c, t, by rw [← hsplit, hrest], ?_⟩
    have hhead := List.head?_dropWhile_not isNumChar (view.drop k)
    rw [hrest] at hhead
    rw [← isNumChar_eq]
    simpa using hhead

/-- When a byte follows the run, `parseNum` reads it. -/
theorem parseNum_of_lt {view : Bytes} {k : ℕ} (hlt : k + (numberRun view k).length < view.length) :
    (parseNum view k : Except JsonError (JsonPtr δ × ℕ)) =
      .ok (numValue (numberRun view k), k + (numberRun view k).length) := by
  obtain ⟨c, t, hsplit, hc⟩ := exists_numberRun_append hlt
  have hat : At view k (numberRun view k ++ c :: t) := ⟨by omega, hsplit⟩
  exact parseNum_run hat isNumberByte_of_mem_numberRun hc

/-- `parseNum` returns only after a maximal run of number characters that a byte follows. -/
theorem parseNum_eq_ok {view s : Bytes} {i j : ℕ} {p : JsonPtr δ} (hat : At view i s)
    (h : parseNum view i = .ok (p, j)) :
    ∃ tok c t, s = tok ++ c :: t ∧ (∀ x ∈ tok, isNumberByte x) ∧ ¬ isNumberByte c ∧
      p = numValue tok ∧ j = i + tok.length := by
  rcases Nat.lt_or_ge (i + (numberRun view i).length) view.length with hlt | hend
  · obtain ⟨c, t, hsplit, hc⟩ := exists_numberRun_append hlt
    rw [parseNum_of_lt hlt] at h
    cases h
    exact ⟨numberRun view i, c, t, hat.drop.symm.trans hsplit, isNumberByte_of_mem_numberRun, hc,
      rfl, rfl⟩
  · rw [parseNum_of_end hend] at h
    cases h

/-! ## Strings -/

/-- The bytes `parseString` appends for one character of a literal. -/
def itemBytes : StrItem → Bytes
  | .raw c => [c]
  | .esc c => (escapeByte c).toList
  | .uni a b c d => fromUnicode ((hex4 [a, b, c, d]).getD 0)

def itemsBytes (items : List StrItem) : Bytes := items.flatMap itemBytes

@[simp] theorem itemsBytes_nil : itemsBytes [] = [] := rfl

@[simp] theorem itemsBytes_cons (i : StrItem) (items : List StrItem) :
    itemsBytes (i :: items) = itemBytes i ++ itemsBytes items := rfl

/-- The bytes that may follow a backslash, and that none of them is a control character or `u`. -/
theorem escapeByte_spec : ∀ c, ((escapeByte c).isSome ↔ c ∈ ascii "\"\\/bfnrt") ∧
    (c ∈ ascii "\"\\/bfnrt" → isControl c = false ∧ c ≠ ch 'u') := by
  decide +kernel

theorem isControl_eq (c : UInt8) : isControl c = false ↔ 0x20 ≤ c := by
  simp only [isControl, decide_eq_false_iff_not, UInt8.le_iff_toNat_le]
  change ¬ c.toNat ≤ 31 ↔ 32 ≤ c.toNat
  omega

theorem getEscape_esc {view s : Bytes} {k : ℕ} {c : UInt8} (hat : At view k (c :: s))
    (hs : 2 ≤ s.length) (hc : (StrItem.esc c).WellFormed) :
    getEscape view k = .ok (itemBytes (.esc c), k + 1) := by
  have hlen := hat.length
  rw [List.length_cons] at hlen
  have hguard : ¬ k ≥ sizeSub view.length 2 := by
    rw [sizeSub_of_le (by omega)]
    omega
  obtain ⟨b, hb⟩ := Option.isSome_iff_exists.mp ((escapeByte_spec c).1.mpr hc)
  obtain ⟨hcontrol, hu⟩ := (escapeByte_spec c).2 hc
  simp [getEscape, hguard, hat.charAt, hcontrol, hu, hb, itemBytes, bind, Except.bind, pure,
    Except.pure]

theorem hex4_eq_codeUnit {a b c d : UInt8} (h : (StrItem.uni a b c d).WellFormed) :
    hex4 [a, b, c, d] = some (StrItem.codeUnit a b c d) := by
  obtain ⟨w, hw⟩ := Option.isSome_iff_exists.mp (h a (by simp))
  obtain ⟨x, hx⟩ := Option.isSome_iff_exists.mp (h b (by simp))
  obtain ⟨y, hy⟩ := Option.isSome_iff_exists.mp (h c (by simp))
  obtain ⟨z, hz⟩ := Option.isSome_iff_exists.mp (h d (by simp))
  simp [hex4, StrItem.codeUnit, hw, hx, hy, hz]

theorem getEscape_uni {view s : Bytes} {k : ℕ} {a b c d : UInt8}
    (hat : At view k (ch 'u' :: a :: b :: c :: d :: s)) (hs : 2 ≤ s.length)
    (hd : (StrItem.uni a b c d).WellFormed) :
    getEscape view k = .ok (itemBytes (.uni a b c d), k + 5) := by
  have hlen := hat.length
  simp only [List.length_cons] at hlen
  have hguard : ¬ k ≥ sizeSub view.length 2 := by
    rw [sizeSub_of_le (by omega)]
    omega
  have hguard' : ¬ k + 5 ≥ sizeSub view.length 1 := by
    rw [sizeSub_of_le (by omega)]
    omega
  have hcontrol : isControl (ch 'u') = false := by decide
  have hwindow : window view (k + 1) 4 = .ok [a, b, c, d] := hat.next.window (by simp)
  have hn := hex4_eq_codeUnit hd
  simp [getEscape, hguard, hguard', hat.charAt, hcontrol, unicodeToWchar, hwindow, hn, itemBytes,
    bind, Except.bind, pure, Except.pure]

theorem getString_item {view s : Bytes} {k fuel : ℕ} {i : StrItem} (acc : Bytes)
    (hat : At view k (i.text ++ s)) (hs : 2 ≤ s.length) (hi : i.WellFormed) :
    getString view (fuel + 1) k acc =
      getString view fuel (k + i.text.length) (acc ++ itemBytes i) := by
  cases i with
  | raw c =>
    have hcontrol : isControl c = false := (isControl_eq c).mpr hi.1
    rw [getString, if_pos (At.lt hat), At.charAt hat]
    simp [hcontrol, hi.2.1, hi.2.2, StrItem.text, itemBytes, bind, Except.bind]
  | esc c =>
    have hcontrol : isControl (ch '\\') = false := by decide
    have hescape := getEscape_esc (At.next hat) hs hi
    rw [getString, if_pos (At.lt hat), At.charAt hat]
    simp [hcontrol, hescape, StrItem.text, bind, Except.bind, add_assoc]
  | uni a b c d =>
    have hcontrol : isControl (ch '\\') = false := by decide
    have hescape := getEscape_uni (At.next hat) hs hi
    rw [getString, if_pos (At.lt hat), At.charAt hat]
    simp [hcontrol, hescape, StrItem.text, bind, Except.bind, add_assoc]

theorem length_le_itemsText (items : List StrItem) : items.length ≤ (itemsText items).length := by
  induction items with
  | nil => rfl
  | cons i items ih =>
    have hi : 1 ≤ i.text.length := by cases i <;> simp [StrItem.text]
    rw [itemsText_cons, List.length_append, List.length_cons]
    omega

theorem getString_items {view t : Bytes} {items : List StrItem} {k fuel : ℕ} (acc : Bytes)
    (hat : At view k (itemsText items ++ ch '"' :: t)) (ht : t ≠ []) (hfuel : items.length < fuel)
    (hi : ItemsWellFormed items) :
    getString view fuel k acc =
      .ok (acc ++ itemsBytes items, k + (itemsText items).length + 1) := by
  obtain ⟨fuel, rfl⟩ := Nat.exists_eq_succ_of_ne_zero (Nat.ne_zero_of_lt hfuel)
  induction items generalizing k fuel acc with
  | nil =>
    have hquote : isControl (ch '"') = false ∧ ch '"' ≠ ch '\\' := by decide
    rw [Nat.succ_eq_add_one, getString, if_pos (At.lt hat), At.charAt hat]
    simp [hquote, bind, Except.bind, pure, Except.pure]
  | cons i items ih =>
    rw [itemsText_cons, List.append_assoc] at hat
    have hfollow : 2 ≤ (itemsText items ++ ch '"' :: t).length := by
      have := List.length_pos_iff.mpr ht
      rw [List.length_append, List.length_cons]
      omega
    obtain ⟨fuel, rfl⟩ := Nat.exists_eq_succ_of_ne_zero (n := fuel) (by
      rintro rfl
      simp at hfuel)
    rw [Nat.succ_eq_add_one, getString_item acc hat hfollow (hi i List.mem_cons_self),
      ih (acc ++ itemBytes i) hat.append (fun x hx => hi x (List.mem_cons_of_mem i hx)) fuel
        (by simpa using hfuel)]
    simp [add_assoc]

/-- The literal of a string is read whole when a byte follows, and two if it is empty. -/
theorem parseString_run {view t : Bytes} {items : List StrItem} {k : ℕ}
    (hat : At view k (strText items ++ t)) (hi : ItemsWellFormed items) (ht : t ≠ [])
    (hempty : items = [] → 2 ≤ t.length) :
    parseString view k = .ok (itemsBytes items, k + (strText items).length) := by
  have hcons : strText items ++ t = ch '"' :: (itemsText items ++ ch '"' :: t) := by
    simp [strText]
  rw [hcons] at hat
  have hlen := hat.length
  have hitems := length_le_itemsText items
  have hpos := List.length_pos_iff.mpr ht
  simp only [List.length_cons, List.length_append] at hlen
  have hguard : ¬ sizeSub view.length k ≤ 3 := by
    rw [hat.sizeSub]
    simp only [List.length_cons, List.length_append]
    cases items with
    | nil =>
      have := hempty rfl
      omega
    | cons i items =>
      simp only [List.length_cons] at hitems
      omega
  have hend : k + 1 + (itemsText items).length + 1 = k + (strText items).length := by
    simp only [strText, List.length_cons, List.length_append, List.length_nil]
    omega
  have hstring : getString view (view.length + 1) (k + 1) [] =
      .ok (itemsBytes items, k + (strText items).length) := by
    rw [getString_items [] hat.next ht (by omega) hi, hend, List.nil_append]
  rw [parseString, hat.charAt]
  simp [hguard, hstring, bind, Except.bind]

theorem At.of_charAt {view s : Bytes} {k : ℕ} {c : UInt8} (hat : At view k s)
    (h : JsonParser.charAt view k = .ok c) : ∃ t, s = c :: t := by
  cases s with
  | nil =>
    have hget : view[k]? = none := by
      rw [← List.head?_drop, hat.drop]
      rfl
    rw [JsonParser.charAt, hget] at h
    cases h
  | cons x t =>
    rw [hat.charAt] at h
    cases h
    exact ⟨t, rfl⟩

theorem At.of_window {view s w : Bytes} {k n : ℕ} (hat : At view k s)
    (h : JsonParser.window view k n = .ok w) : ∃ t, s = w ++ t ∧ w.length = n := by
  have hlen := hat.length
  unfold JsonParser.window at h
  split at h
  · cases h
    rw [hat.drop]
    exact ⟨s.drop n, (List.take_append_drop n s).symm, by rw [List.length_take]; omega⟩
  · cases h

theorem hex4_eq_some {ds : Bytes} {n : ℕ} (h : hex4 ds = some n) :
    ∃ a b c d, ds = [a, b, c, d] ∧ (StrItem.uni a b c d).WellFormed := by
  unfold hex4 at h
  split at h
  · rename_i a b c d
    simp only [bind, Option.bind_eq_some_iff] at h
    obtain ⟨w, hw, x, hx, y, hy, z, hz, -⟩ := h
    exact ⟨a, b, c, d, rfl, by simp [StrItem.WellFormed, hw, hx, hy, hz]⟩
  · cases h

theorem unicodeToWchar_eq_ok {view s : Bytes} {k n : ℕ} (hat : At view k s)
    (h : unicodeToWchar view k = .ok n) :
    ∃ a b c d t, s = [a, b, c, d] ++ t ∧ (StrItem.uni a b c d).WellFormed ∧
      hex4 [a, b, c, d] = some n := by
  simp only [unicodeToWchar, bind_eq_ok] at h
  obtain ⟨ds, hwindow, h⟩ := h
  split at h
  · rename_i m hm
    obtain ⟨t, hs, -⟩ := hat.of_window hwindow
    obtain ⟨a, b, c, d, rfl, hdigits⟩ := hex4_eq_some hm
    cases h
    exact ⟨a, b, c, d, t, hs, hdigits, hm⟩
  · cases h

theorem getEscape_eq_ok {view s bs : Bytes} {k j : ℕ} (hat : At view k s)
    (h : getEscape view k = .ok (bs, j)) :
    ∃ i t, i.WellFormed ∧ ch '\\' :: s = i.text ++ t ∧ bs = itemBytes i ∧ At view j t := by
  simp only [getEscape, throw_bind, ite_throw_eq_ok, bind_eq_ok] at h
  obtain ⟨-, c, hc, -, h⟩ := h
  obtain ⟨s, rfl⟩ := hat.of_charAt hc
  by_cases hu : c = ch 'u'
  · rw [if_pos hu, ite_throw_eq_ok, bind_eq_ok] at h
    obtain ⟨-, n, hn, h⟩ := h
    obtain ⟨x₁, x₂, x₃, x₄, t, rfl, hdigits, hhex⟩ := unicodeToWchar_eq_ok hat.next hn
    cases h
    refine ⟨.uni x₁ x₂ x₃ x₄, t, hdigits, by simp [StrItem.text, hu], by simp [itemBytes, hhex], ?_⟩
    exact At.append (w := [c, x₁, x₂, x₃, x₄]) hat
  · rw [if_neg hu] at h
    split at h
    · rename_i b hb
      cases h
      have hmem : c ∈ ascii "\"\\/bfnrt" := (escapeByte_spec c).1.mp (by simp [hb])
      exact ⟨.esc c, s, hmem, rfl, by simp [itemBytes, hb], hat.next⟩
    · cases h

/-- `getString` returns at the closing quote of a literal or at the end of the text. -/
theorem getString_eq_ok {view s acc bs : Bytes} {fuel k j : ℕ} (hat : At view k s)
    (h : getString view fuel k acc = .ok (bs, j)) :
    (∃ items t, ItemsWellFormed items ∧ s = itemsText items ++ ch '"' :: t ∧
      bs = acc ++ itemsBytes items ∧ At view j t) ∨ At view j [] := by
  induction fuel generalizing k s acc with
  | zero => cases h
  | succ fuel ih =>
    rw [getString] at h
    split at h
    · simp only [throw_bind, bind_eq_ok, ite_throw_eq_ok] at h
      obtain ⟨c, hc, hcontrol, h⟩ := h
      obtain ⟨s, rfl⟩ := hat.of_charAt hc
      -- one character `i`, then the rest of the literal
      have hstep : ∀ (i : StrItem) (t : Bytes) (m : ℕ), i.WellFormed → c :: s = i.text ++ t →
          At view m t → getString view fuel m (acc ++ itemBytes i) = .ok (bs, j) →
          (∃ items t, ItemsWellFormed items ∧ c :: s = itemsText items ++ ch '"' :: t ∧
            bs = acc ++ itemsBytes items ∧ At view j t) ∨ At view j [] := by
        intro i t m hi htext hm hloop
        rcases ih hm hloop with ⟨items, u, hitems, rfl, rfl, hj⟩ | hj
        · refine Or.inl ⟨i :: items, u, ?_, by simp [htext], by simp, hj⟩
          simpa [ItemsWellFormed] using And.intro hi hitems
        · exact Or.inr hj
      split at h
      · rename_i hbackslash
        obtain ⟨⟨bytes, m⟩, hescape, h⟩ := bind_eq_ok.mp h
        obtain ⟨i, t, hi, htext, rfl, hm⟩ := getEscape_eq_ok hat.next hescape
        exact hstep i t m hi (by rw [hbackslash, htext]) hm h
      · rename_i hbackslash
        split at h
        · rename_i hquote
          cases h
          exact Or.inl ⟨[], s, by simp [ItemsWellFormed], by simp [hquote], by simp, hat.next⟩
        · rename_i hquote
          have hc : 0x20 ≤ c := (isControl_eq c).mp (by simpa using hcontrol)
          exact hstep (.raw c) s (k + 1) ⟨hc, hquote, hbackslash⟩ rfl hat.next h
    · rename_i hend
      cases h
      obtain rfl : s = [] := hat.eq_nil_iff.mpr hend
      exact Or.inr hat

/-- `parseString` returns after a literal, or at the end of the text. -/
theorem parseString_eq_ok {view s bs : Bytes} {k j : ℕ} (hat : At view k s)
    (h : parseString view k = .ok (bs, j)) :
    (∃ items t, ItemsWellFormed items ∧ s = strText items ++ t ∧ bs = itemsBytes items ∧
      (items = [] → 2 ≤ t.length) ∧ At view j t) ∨ At view j [] := by
  simp only [parseString, throw_bind, ite_throw_eq_ok, bind_eq_ok] at h
  obtain ⟨c, hc, hquote, hguard, h⟩ := h
  obtain ⟨s, rfl⟩ := hat.of_charAt hc
  obtain rfl : c = ch '"' := not_not.mp hquote
  rcases getString_eq_ok hat.next h with ⟨items, t, hitems, rfl, rfl, hj⟩ | hj
  · refine Or.inl ⟨items, t, hitems, by simp [strText], by simp, ?_, hj⟩
    rintro rfl
    rw [hat.sizeSub] at hguard
    simp only [itemsText_nil, List.nil_append, List.length_cons] at hguard
    omega
  · exact Or.inr hj

/-! ## Booleans and null -/

/-- The bytes of a boolean. -/
def boolText (b : Bool) : Bytes := if b then ascii "true" else ascii "false"

theorem parseBool_run {view t : Bytes} {b : Bool} {k : ℕ} (hat : At view k (boolText b ++ t))
    (ht : t ≠ []) : parseBool view k = .ok (b, k + (boolText b).length) := by
  have hlen := hat.length
  have hpos := List.length_pos_iff.mpr ht
  rw [List.length_append] at hlen
  cases b with
  | true =>
    have htext : (boolText true).length = 4 := by decide
    have hguard : ¬ k + 3 ≥ sizeSub view.length 1 := by
      rw [sizeSub_of_le (by omega)]
      omega
    have hwindow : window view k 4 = .ok (ascii "true") := hat.window (by
      rw [List.length_append]
      omega)
    simp [parseBool, hguard, hwindow, htext, bind, Except.bind, pure, Except.pure]
  | false =>
    have htext : (boolText false).length = 5 := by decide
    have hguard : ¬ k + 3 ≥ sizeSub view.length 1 := by
      rw [sizeSub_of_le (by omega)]
      omega
    have hguard' : k + 5 ≤ sizeSub view.length 1 := by
      rw [sizeSub_of_le (by omega)]
      omega
    have hfour : window view k 4 = .ok (ascii "fals") := hat.window (by
      rw [List.length_append]
      omega)
    have hfive : window view k 5 = .ok (ascii "false") := hat.window (by
      rw [List.length_append]
      omega)
    have hne : ascii "fals" ≠ ascii "true" := by decide
    simp [parseBool, hguard, hguard', hfour, hfive, hne, htext, bind, Except.bind, pure,
      Except.pure]

theorem parseBool_eq_ok {view s : Bytes} {b : Bool} {k j : ℕ} (hat : At view k s)
    (h : parseBool view k = .ok (b, j)) : ∃ t, s = boolText b ++ t ∧ At view j t := by
  simp only [parseBool, throw_bind, ite_throw_eq_ok, bind_eq_ok] at h
  obtain ⟨-, w, hfour, h⟩ := h
  obtain ⟨t, rfl, hw⟩ := hat.of_window hfour
  split at h
  · rename_i htrue
    cases h
    have hend := hat.append
    rw [hw] at hend
    exact ⟨t, by rw [htrue]; rfl, hend⟩
  · rw [ite_else_throw_eq_ok, bind_eq_ok] at h
    obtain ⟨-, v, hfive, h⟩ := h
    rw [ite_else_throw_eq_ok] at h
    obtain ⟨hfalse, h⟩ := h
    obtain ⟨u, hu, hv⟩ := hat.of_window hfive
    rw [hu] at hat
    cases h
    have hend := hat.append
    rw [hv] at hend
    exact ⟨u, by rw [hu, hfalse]; rfl, hend⟩

theorem isNull_run {view t : Bytes} {k : ℕ} (hat : At view k (ascii "null" ++ t)) (ht : t ≠ []) :
    isNull view k = .ok true := by
  have hlen := hat.length
  have hpos := List.length_pos_iff.mpr ht
  have htext : (ascii "null").length = 4 := by decide
  rw [List.length_append] at hlen
  have hwindow : window view k 4 = .ok (ascii "null") := hat.window (by
    rw [List.length_append]
    omega)
  rw [isNull, if_pos (by omega), hwindow]
  simp [bind, Except.bind, pure, Except.pure]

theorem isNull_eq_true {view s : Bytes} {k : ℕ} (hat : At view k s)
    (h : isNull view k = .ok true) : ∃ t, s = ascii "null" ++ t ∧ At view (k + 4) t := by
  unfold isNull at h
  split at h
  · obtain ⟨w, hwindow, h⟩ := bind_eq_ok.mp h
    have hnull : w = ascii "null" := by simpa [pure_eq_ok] using h
    obtain ⟨t, rfl, hw⟩ := hat.of_window hwindow
    have hend := hat.append
    rw [hw] at hend
    exact ⟨t, by rw [hnull], hend⟩
  · cases h

end JsonParser

end CoUringWeb
