import CoUringWeb.Json.Tokens

/-!
# One turn of each loop

The loops of `parseArray` and of `parseMap` call a parser for the value at the byte they stand at.
`arrayTurn` is one turn of the first loop: what it finds at its byte, where that ends, and where the
next turn starts.  `parseValue` is what the second loop does where a value is due.
-/

namespace CoUringWeb

namespace JsonParser

open Machine JsonSyntax Exceptions

variable {δ : Type}

/-! ## Arrays -/

inductive ArrayItem (δ : Type) where
  | space
  | comma
  | element (p : JsonPtr δ)
  | close

namespace ArrayItem

@[simp]
def isClose : ArrayItem δ → Bool
  | close => true
  | _ => false

/-- What the turn appends to `vec`. -/
@[simp]
def elements : ArrayItem δ → List (JsonPtr δ)
  | element p => [p]
  | _ => []

/-- `endByComma` after the turn. -/
@[simp]
def endByComma : ArrayItem δ → Bool → Bool
  | space, b => b
  | comma, _ => true
  | _, _ => false

end ArrayItem

/-- A turn on the bytes from `start` to `stop`; for an element, `stop` is where its own parser
stops.  The next turn starts at `next`. -/
structure ArrayTurn (δ : Type) where
  item : ArrayItem δ
  start : ℕ
  stop : ℕ
  next : ℕ

variable [StreamDouble δ]

/-- One turn of the loop of `parseArray` from `start` on. -/
def arrayTurn (view : Bytes) (fuel start : ℕ) (endByComma : Bool) :
    Except JsonError (ArrayTurn δ) :=
  if start < view.length then do
    let c ← charAt view start
    match label c with
    | .comma =>
      if endByComma then throw (.parseError "列表解析错误 : 逗号错误" [])
      return ⟨.comma, start, start + 1, start + 1⟩
    | .arrayBegin =>
      let (data, stop) ← parseArray view fuel start
      return ⟨.element (.jsonArray data), start, stop, stop + 1⟩
    | .arrayEnd => return ⟨.close, start, start + 1, start + 1⟩
    | .mapBegin =>
      let (data, stop) ← parseMap view fuel start
      return ⟨.element (.jsonMap data), start, stop, stop⟩
    | .null =>
      if ← isNull view start then return ⟨.element .nullptr, start, start + 4, start + 4⟩
      else throw (.parseError "列表解析错误 : 非法字符 " (view.drop start))
    | .bool =>
      let (data, stop) ← parseBool view start
      return ⟨.element (.jsonBool data), start, stop, stop⟩
    | .quote =>
      let (data, stop) ← parseString view start
      return ⟨.element (.jsonString data), start, stop, stop⟩
    | .space => return ⟨.space, start, start + 1, start + 1⟩
    | .num =>
      let (p, stop) ← parseNum view start
      return ⟨.element p, start, stop, stop⟩
    | _ => throw (.parseError "列表解析错误 : 非法字符" [])
  else throw (.parseError "列表解析错误 : 非法字符" [])

variable {view : Bytes} {fuel k : ℕ}

theorem lt_of_arrayTurn {endByComma : Bool} {turn : ArrayTurn δ}
    (h : arrayTurn view fuel k endByComma = .ok turn) : k < view.length := by
  by_contra hk
  rw [arrayTurn, if_neg hk] at h
  cases h

/-- The loop of `parseArray` is a turn, and the loop again unless the turn closes the array. -/
theorem arrayLoop_succ {endByComma : Bool} (acc : List (JsonPtr δ)) :
    arrayLoop view (fuel + 1) k acc endByComma = (do
      let turn ← arrayTurn view fuel k endByComma
      if turn.item.isClose then return (acc ++ turn.item.elements, turn.next)
      arrayLoop view fuel turn.next (acc ++ turn.item.elements)
        (turn.item.endByComma endByComma)) := by
  rw [arrayLoop, arrayTurn]
  split
  · cases charAt view k with
    | error e => rfl
    | ok c =>
      cases hlabel : label c with
      | comma =>
        cases endByComma
        · simp [bind, Except.bind, pure, Except.pure, hlabel]
        · simp [bind, Except.bind, hlabel]
          rfl
      | arrayBegin =>
        cases (parseArray view fuel k : Except JsonError (List (JsonPtr δ) × ℕ)) <;>
          simp [bind, Except.bind, pure, Except.pure, hlabel]
      | mapBegin =>
        cases (parseMap view fuel k : Except JsonError (List (Bytes × JsonPtr δ) × ℕ)) <;>
          simp [bind, Except.bind, pure, Except.pure, hlabel]
      | null =>
        cases isNull view k with
        | error e => simp [bind, Except.bind, hlabel]
        | ok null =>
          cases null
          · simp [bind, Except.bind, hlabel]
            rfl
          · simp [bind, Except.bind, pure, Except.pure, hlabel]
      | bool =>
        cases parseBool view k <;>
          simp [bind, Except.bind, pure, Except.pure, hlabel]
      | quote =>
        cases parseString view k <;>
          simp [bind, Except.bind, pure, Except.pure, hlabel]
      | num =>
        cases (parseNum view k : Except JsonError (JsonPtr δ × ℕ)) <;>
          simp [bind, Except.bind, pure, Except.pure, hlabel]
      | space | arrayEnd => simp [bind, Except.bind, pure, Except.pure, hlabel]
      | mapEnd | colon | other => simp [bind, Except.bind, hlabel]; rfl
  · rfl

/-! ## Members -/

/-- The parser that the loop of `parseMap` calls for a value. -/
def parseValue (view : Bytes) (fuel startIndex : ℕ) : Except JsonError (JsonPtr δ × ℕ) := do
  let c ← charAt view startIndex
  match label c with
  | .quote =>
    let (s, startIndex) ← parseString view startIndex
    return (.jsonString s, startIndex)
  | .bool =>
    let (b, startIndex) ← parseBool view startIndex
    return (.jsonBool b, startIndex)
  | .null =>
    if ← isNull view startIndex then return (.jsonNull, startIndex + 4)
    else throw (.parseError "Map解析错误 : 非法字符" [])
  | .num => parseNum view startIndex
  | .arrayBegin =>
    let (vec, startIndex) ← parseArray view fuel startIndex
    return (.jsonArray vec, startIndex)
  | .mapBegin =>
    let (m, startIndex) ← parseMap view fuel startIndex
    return (.jsonMap m, startIndex)
  | .comma => throw (.parseError "Map解析错误 : 逗号错误" [])
  | .colon | .mapEnd => throw (.parseError "Map解析错误 : 格式错误" [])
  | _ => throw (.parseError "Map解析错误 : 非法字符" [])

/-- In `valueStart` the loop passes over white space, or calls the parser of a value and stores what
that returns. -/
theorem mapLoop_valueStart {c : UInt8} (data : List (Bytes × JsonPtr δ)) (str : Bytes)
    (hc : charAt view k = .ok c) (hspace : label c ≠ .space) :
    mapLoop view (fuel + 1) k data .valueStart str = (do
      let (p, i) ← parseValue view fuel k
      mapLoop view fuel i (SortedAssoc.insertOrAssign str p data) .valueEnd str) := by
  rw [mapLoop, if_pos (lt_of_charAt hc), parseValue, hc]
  cases hlabel : label c with
  | space => exact absurd hlabel hspace
  | null =>
    cases isNull view k with
    | error e => simp [bind, Except.bind, hlabel]
    | ok null =>
      cases null
      · simp [bind, Except.bind, hlabel]
        rfl
      · simp [bind, Except.bind, pure, Except.pure, hlabel]
  | bool =>
    cases parseBool view k <;> simp [bind, Except.bind, pure, Except.pure, hlabel]
  | quote =>
    cases parseString view k <;> simp [bind, Except.bind, pure, Except.pure, hlabel]
  | num =>
    cases (parseNum view k : Except JsonError (JsonPtr δ × ℕ)) <;> simp [bind, Except.bind, hlabel]
  | arrayBegin =>
    cases (parseArray view fuel k : Except JsonError (List (JsonPtr δ) × ℕ)) <;>
      simp [bind, Except.bind, pure, Except.pure, hlabel]
  | mapBegin =>
    cases (parseMap view fuel k : Except JsonError (List (Bytes × JsonPtr δ) × ℕ)) <;>
      simp [bind, Except.bind, pure, Except.pure, hlabel]
  | comma | colon | mapEnd | arrayEnd | other => simp [bind, Except.bind, hlabel]; rfl

end JsonParser

end CoUringWeb
