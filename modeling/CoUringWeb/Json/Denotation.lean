import CoUringWeb.Json.Reading

/-!
# The tree a JSON text denotes

`denote` says what object a JSON value stands for, without reference to the parser.  On values whose
numbers are integers in the range of `int64_t` and whose escapes are no surrogates the parser builds
the same object, except that a `null` in an array becomes a null pointer.
-/

namespace CoUringWeb

namespace JsonParser

open Machine Numerals JsonSyntax

variable {δ : Type} [StreamDouble δ]

/-! ## Denotation -/

mutual

/-- The object `v` denotes.  Numbers with a fraction or an exponent are left to the stream. -/
def denote : Value → JsonPtr δ
  | .null => .jsonNull
  | .bool b => .jsonBool b
  | .num tok =>
    if tok.any isDoubleChar then .jsonDouble (StreamDouble.read tok)
    else .jsonInteger (Int64.ofInt (intValue tok))
  | .str items => .jsonString (itemsDenote items)
  | .arr es => .jsonArray (denoteElems es)
  | .obj ms => .jsonMap (denoteMembers ms [])

def denoteElems : Elems → List (JsonPtr δ)
  | .close _ => []
  | .elem _ v rest => denote v :: denoteElems rest

/-- A later member replaces an earlier one with the same key. -/
def denoteMembers : Members → List (Bytes × JsonPtr δ) → List (Bytes × JsonPtr δ)
  | .close _, data => data
  | .member _ key _ _ v rest, data =>
    denoteMembers rest (SortedAssoc.insertOrAssign (itemsDenote key) (denote v) data)

end

/-- The last value among the members with key `k`. -/
def lastMember (k : Bytes) : Members → Option Value
  | .close _ => none
  | .member _ key _ _ v rest =>
    (lastMember k rest).or (if k = itemsDenote key then some v else none)

/-- The last of duplicate keys wins. -/
theorem find_denoteMembers (k : Bytes) (ms : Members) (data : List (Bytes × JsonPtr δ)) :
    SortedAssoc.find k (denoteMembers ms data) =
      ((lastMember k ms).map denote).or (SortedAssoc.find k data) := by
  match ms with
  | .close gap => simp [denoteMembers, lastMember]
  | .member gap key pre post v rest =>
    rw [denoteMembers, find_denoteMembers k rest, lastMember,
      SortedAssoc.find_insertOrAssign_eq_or, Option.map_or, Option.or_assoc]
    split <;> rfl

/-! ## The domain -/

def InDomainItems (items : List StrItem) : Prop := ∀ i ∈ items, i.NotSurrogate

mutual

/-- Numbers are integers in the range of `int64_t` without fraction or exponent, and no escape is a
surrogate. -/
def InDomain : Value → Prop
  | .num tok => IsInteger tok ∧ -2 ^ 63 ≤ intValue tok ∧ intValue tok < 2 ^ 63
  | .str items => InDomainItems items
  | .arr es => InDomainElems es
  | .obj ms => InDomainMembers ms
  | _ => True

def InDomainElems : Elems → Prop
  | .close _ => True
  | .elem _ v rest => InDomain v ∧ InDomainElems rest

def InDomainMembers : Members → Prop
  | .close _ => True
  | .member _ key _ _ v rest => InDomainItems key ∧ InDomain v ∧ InDomainMembers rest

end

/-! ## Numbers and strings -/

theorem isDigit_spec : ∀ c, isDigit c → isDoubleChar c = false ∧ c ≠ ch '-' ∧ c ≠ ch '+' := by
  decide +kernel

/-- Digits after an optional minus sign are read as the number they denote. -/
theorem numValue_of_digits {minus int : Bytes} (hminus : IsMinus minus) (hdigits : AllDigits int)
    (hne : int ≠ []) (hlo : -2 ^ 63 ≤ intValue (minus ++ int))
    (hhi : intValue (minus ++ int) < 2 ^ 63) :
    (numValue (minus ++ int) : JsonPtr δ) = .jsonInteger (Int64.ofInt (intValue (minus ++ int))) ∧
      (minus ++ int).any isDoubleChar = false := by
  have hnotdouble : int.any isDoubleChar = false := by
    rw [List.any_eq_false]
    intro c hc
    simp [(isDigit_spec c (hdigits c hc)).1]
  have htake : int.takeWhile isDigit = int := List.takeWhile_eq_self_iff.mpr hdigits
  rcases hminus with rfl | rfl
  · obtain ⟨c, s, rfl⟩ := List.exists_cons_of_ne_nil hne
    have hc : c ≠ ch '-' ∧ c ≠ ch '+' := (isDigit_spec c (hdigits c List.mem_cons_self)).2
    have hvalue : intValue (c :: s) = decimal (c :: s) := by simp [intValue, hc.1]
    rw [List.nil_append] at hlo hhi ⊢
    rw [hvalue] at hlo hhi ⊢
    refine ⟨?_, hnotdouble⟩
    rw [numValue, if_neg (by simp [hnotdouble]), readInt64]
    simp only [List.head?_cons, Option.some.injEq, hc.1, hc.2, or_self, if_false, htake]
    rw [if_neg (not_lt.mpr hlo), if_neg (not_le.mpr hhi)]
  · have hvalue : intValue (ascii "-" ++ int) = -(decimal int : ℤ) := by simp [intValue, ascii]
    have hminus : (ascii "-").any isDoubleChar = false := by decide
    rw [hvalue] at hlo hhi ⊢
    have hany : (ascii "-" ++ int).any isDoubleChar = false := by
      rw [List.any_append, hminus, hnotdouble]
      rfl
    refine ⟨?_, hany⟩
    have hhead : (ascii "-" ++ int).head? = some (ch '-') := by simp [ascii]
    have hdrop : (ascii "-" ++ int).drop 1 = int := rfl
    rw [numValue, if_neg (by simp [hany]), readInt64]
    simp only [hhead, true_or, if_true, hdrop, htake]
    rw [if_neg (not_lt.mpr hlo), if_neg (not_le.mpr hhi)]

theorem numValue_of_isInteger {tok : Bytes} (h : IsInteger tok) (hlo : -2 ^ 63 ≤ intValue tok)
    (hhi : intValue tok < 2 ^ 63) :
    (numValue tok : JsonPtr δ) = .jsonInteger (Int64.ofInt (intValue tok)) ∧
      tok.any isDoubleChar = false := by
  obtain ⟨minus, int, hminus, hint, rfl⟩ := h
  exact numValue_of_digits hminus hint.allDigits hint.ne_nil hlo hhi

theorem itemBytes_eq_denote {i : StrItem} (hi : i.WellFormed) (hsurrogate : i.NotSurrogate) :
    itemBytes i = i.denote := by
  cases i with
  | raw c => rfl
  | esc c =>
    have hescape : ∀ x ∈ ascii "\"\\/bfnrt", itemBytes (.esc x) = (StrItem.esc x).denote := by
      decide +kernel
    exact hescape c hi
  | uni a b c d =>
    have hscalar : IsBmpScalar (StrItem.codeUnit a b c d) := by
      have hlt := StrItem.codeUnit_lt a b c d
      unfold StrItem.NotSurrogate at hsurrogate
      unfold IsBmpScalar
      omega
    rw [itemBytes, hex4_eq_codeUnit hi, Option.getD_some, fromUnicode_eq_utf8 hscalar,
      StrItem.denote]

theorem itemsBytes_eq_denote {items : List StrItem} (hi : ItemsWellFormed items)
    (hsurrogate : InDomainItems items) : itemsBytes items = itemsDenote items := by
  induction items with
  | nil => rfl
  | cons i items ih =>
    have hhead := itemBytes_eq_denote (hi i List.mem_cons_self) (hsurrogate i List.mem_cons_self)
    have htail := ih (fun x hx => hi x (List.mem_cons_of_mem i hx)) fun x hx =>
      hsurrogate x (List.mem_cons_of_mem i hx)
    rw [itemsBytes_cons, hhead, htail]
    rfl

/-! ## Null in arrays -/

section Null

variable {δ : Type}

def isJsonNull : JsonPtr δ → Bool
  | .jsonNull => true
  | _ => false

mutual

/-- The object with a null pointer for every `JsonNull` in an array. -/
def nullify : JsonPtr δ → JsonPtr δ
  | .jsonArray data => .jsonArray (nullifyElems data)
  | .jsonMap data => .jsonMap (nullifyMembers data)
  | p => p

def nullifyElems : List (JsonPtr δ) → List (JsonPtr δ)
  | [] => []
  | p :: rest => (if isJsonNull p then .nullptr else nullify p) :: nullifyElems rest

def nullifyMembers : List (Bytes × JsonPtr δ) → List (Bytes × JsonPtr δ)
  | [] => []
  | (k, p) :: rest => (k, nullify p) :: nullifyMembers rest

end

mutual

/-- No array in the tree has a `JsonNull` for an element. -/
def NoNullElement : JsonPtr δ → Prop
  | .jsonArray data => NoNullElements data
  | .jsonMap data => NoNullMembers data
  | _ => True

def NoNullElements : List (JsonPtr δ) → Prop
  | [] => True
  | p :: rest => p ≠ .jsonNull ∧ NoNullElement p ∧ NoNullElements rest

def NoNullMembers : List (Bytes × JsonPtr δ) → Prop
  | [] => True
  | (_, p) :: rest => NoNullElement p ∧ NoNullMembers rest

end

mutual

theorem nullify_eq_self (p : JsonPtr δ) : nullify p = p ↔ NoNullElement p := by
  cases p with
  | jsonArray data => simp [nullify, NoNullElement, nullifyElems_eq_self data]
  | jsonMap data => simp [nullify, NoNullElement, nullifyMembers_eq_self data]
  | _ => simp [nullify, NoNullElement]

theorem nullifyElems_eq_self (data : List (JsonPtr δ)) :
    nullifyElems data = data ↔ NoNullElements data := by
  match data with
  | [] => simp [nullifyElems, NoNullElements]
  | p :: rest =>
    have hp := nullify_eq_self p
    have hrest := nullifyElems_eq_self rest
    cases p <;> simp_all [nullifyElems, NoNullElements, isJsonNull]

theorem nullifyMembers_eq_self (data : List (Bytes × JsonPtr δ)) :
    nullifyMembers data = data ↔ NoNullMembers data := by
  match data with
  | [] => simp [nullifyMembers, NoNullMembers]
  | (k, p) :: rest =>
    have hp := nullify_eq_self p
    have hrest := nullifyMembers_eq_self rest
    simp_all [nullifyMembers, NoNullMembers]

end

theorem nullifyMembers_eq_map (data : List (Bytes × JsonPtr δ)) :
    nullifyMembers data = data.map fun q => (q.1, nullify q.2) := by
  induction data with
  | nil => rfl
  | cons q data ih => rw [nullifyMembers, ih, List.map_cons]

end Null

theorem isJsonNull_denote (v : Value) : isJsonNull (denote v : JsonPtr δ) = isNullValue v := by
  cases v with
  | num tok =>
    rw [denote]
    split <;> rfl
  | _ => rfl

/-! ## The parser builds what the text denotes -/

mutual

theorem parsed_eq_nullify (v : Value) (hv : v.WellFormed) (hdomain : InDomain v) :
    (parsed v : JsonPtr δ) = nullify (denote v) := by
  cases v with
  | null => rfl
  | bool b => rfl
  | num tok =>
    obtain ⟨hint, hlo, hhi⟩ := hdomain
    obtain ⟨hvalue, hdouble⟩ := numValue_of_isInteger (δ := δ) hint hlo hhi
    simp [parsed, hvalue, denote, hdouble, nullify]
  | str items => simp [parsed, denote, nullify, itemsBytes_eq_denote hv hdomain]
  | arr es => rw [parsed, denote, nullify, parsedElems_eq_nullify es true hv hdomain]
  | obj ms =>
    have hms := parsedMembers_eq_nullify ms true ([] : List (Bytes × JsonPtr δ)) hv hdomain
    rw [parsed, denote, nullify, ← hms]
    rfl

theorem parsedElems_eq_nullify (es : Elems) (first : Bool) (hes : es.WellFormed first)
    (hdomain : InDomainElems es) :
    (parsedElems es : List (JsonPtr δ)) = nullifyElems (denoteElems es) := by
  cases es with
  | close gap => rfl
  | elem gap v rest =>
    obtain ⟨-, hv, hrest⟩ := hes
    rw [parsedElems, denoteElems, nullifyElems, isJsonNull_denote,
      parsed_eq_nullify v hv hdomain.1, parsedElems_eq_nullify rest false hrest hdomain.2]

theorem parsedMembers_eq_nullify (ms : Members) (first : Bool) (data : List (Bytes × JsonPtr δ))
    (hms : ms.WellFormed first) (hdomain : InDomainMembers ms) :
    parsedMembers ms (nullifyMembers data) = nullifyMembers (denoteMembers ms data) := by
  cases ms with
  | close gap => rfl
  | member gap key pre post v rest =>
    obtain ⟨-, hkey, -, -, hv, hrest⟩ := hms
    obtain ⟨hdomainKey, hdomainValue, hdomainRest⟩ := hdomain
    rw [parsedMembers, denoteMembers, ← parsedMembers_eq_nullify rest false _ hrest hdomainRest,
      itemsBytes_eq_denote hkey hdomainKey, parsed_eq_nullify v hv hdomainValue,
      nullifyMembers_eq_map, nullifyMembers_eq_map, SortedAssoc.insertOrAssign_map]

end

end JsonParser

end CoUringWeb
