import CoUringWeb.Json.Value
import CoUringWeb.Utils.Unicode

/-!
# `JsonParser::parse`

The parser of `src/json.cpp`.  Every function takes the whole text `view` and the index
`startIndex`, and returns its result with the index it leaves.  Reading outside the text is the
error `outOfBounds` and a failed `assert` the error `assertFailed`, so that their absence is
something to prove; the subtractions from `view.size()` in the guards wrap as they do in the source.

The loops carry fuel, and so does the recursion between `parseArray` and `parseMap`, where a turn of
a loop takes one and the call of the other function another.
-/

namespace CoUringWeb

open Machine Numerals

/-- How a call of the parser or of `dump` can end other than by returning. -/
inductive JsonError where
  /-- `throw JsonParseError(text + detail)` -/
  | parseError (text : String) (detail : Bytes)
  | outOfBounds
  | assertFailed
  /-- a null pointer is dereferenced -/
  | nullPointer
  | fuel
  deriving DecidableEq

namespace JsonParser

variable {δ : Type} [StreamDouble δ]

/-! ## Reading the text -/

/-- `view[i]` -/
def charAt (view : Bytes) (i : ℕ) : Except JsonError UInt8 :=
  match view[i]? with
  | some c => .ok c
  | none => .error .outOfBounds

/-- `string_view(&view[i], n)` -/
def window (view : Bytes) (i n : ℕ) : Except JsonError Bytes :=
  if i + n ≤ view.length then .ok ((view.drop i).take n) else .error .outOfBounds

/-- The labels of the `switch` statements of `parse`, `parseArray` and `parseMap`. -/
inductive Label where
  | comma
  | arrayBegin
  | arrayEnd
  | mapBegin
  | mapEnd
  | colon
  | null
  | bool
  | quote
  | space
  | num
  | other
  deriving DecidableEq, Repr

def label (c : UInt8) : Label :=
  if c = ch ',' then .comma
  else if c = ch '[' then .arrayBegin
  else if c = ch ']' then .arrayEnd
  else if c = ch '{' then .mapBegin
  else if c = ch '}' then .mapEnd
  else if c = ch ':' then .colon
  else if c = ch 'n' then .null
  else if c = ch 't' ∨ c = ch 'f' then .bool
  else if c = ch '"' then .quote
  else if c = ch ' ' ∨ c = ch '\r' ∨ c = ch '\t' ∨ c = ch '\n' then .space
  else if c = ch '-' ∨ isDigit c then .num
  else .other

/-! ## Numbers -/

/-- The characters that make a number a `double`. -/
def isDoubleChar (c : UInt8) : Bool := c = ch '.' ∨ c = ch 'e' ∨ c = ch 'E'

def isNumChar (c : UInt8) : Bool := isDoubleChar c ∨ c = ch '-' ∨ c = ch '+' ∨ isDigit c

/-- The loop of `getNum`: what is put into `ss_`, `isDouble`, and the index of the first other
character. -/
def getNum (view : Bytes) : ℕ → ℕ → Bytes → Bool → Except JsonError (Bytes × Bool × ℕ)
  | 0, _, _, _ => .error .fuel
  | fuel + 1, i, ss, isDouble =>
    if i < view.length then do
      let c ← charAt view i
      if isNumChar c then getNum view fuel (i + 1) (ss ++ [c]) (isDouble || isDoubleChar c)
      else return (ss, isDouble, i)
    else .error (.parseError "字符串解析错误 : " view)

def parseNum (view : Bytes) (startIndex : ℕ) : Except JsonError (JsonPtr δ × ℕ) := do
  let (ss, isDouble, startIndex) ← getNum view (view.length + 1) startIndex [] false
  if isDouble then return (.jsonDouble (StreamDouble.read ss), startIndex)
  else return (.jsonInteger (readInt64 ss), startIndex)

/-! ## Strings -/

/-- The number four hexadecimal digits denote. -/
def hex4 : Bytes → Option ℕ
  | [a, b, c, d] => do
    return 4096 * (← hexVal a) + 256 * (← hexVal b) + 16 * (← hexVal c) + (← hexVal d)
  | _ => none

/-- `unicodeToWchar(&view[i])` -/
def unicodeToWchar (view : Bytes) (i : ℕ) : Except JsonError ℕ := do
  let digits ← window view i 4
  match hex4 digits with
  | some n => return n
  | none => throw (.parseError "字符串解析错误 : \\u后为 " digits)

/-- The byte a two-character escape stands for. -/
def escapeByte (c : UInt8) : Option UInt8 :=
  if c = ch '"' then some (ch '"')
  else if c = ch '\\' then some (ch '\\')
  else if c = ch '/' then some (ch '/')
  else if c = ch 'b' then some 8
  else if c = ch 'f' then some 12
  else if c = ch 'n' then some (ch '\n')
  else if c = ch 'r' then some (ch '\r')
  else if c = ch 't' then some (ch '\t')
  else none

/-- `c >= 0 && c <= 31`, for a signed `char` -/
def isControl (c : UInt8) : Bool := c ≤ 31

/-- The escape whose second character is at `startIndex`: the bytes it stands for and the index
after it. -/
def getEscape (view : Bytes) (startIndex : ℕ) : Except JsonError (Bytes × ℕ) := do
  if startIndex ≥ sizeSub view.length 2 then throw (.parseError "字符串解析错误 : " view)
  let c ← charAt view startIndex
  if isControl c then throw (.parseError "json字符串中不能含有控制字符" [])
  if c = ch 'u' then
    if startIndex + 5 ≥ sizeSub view.length 1 then throw (.parseError "字符串解析错误 : " view)
    return (fromUnicode (← unicodeToWchar view (startIndex + 1)), startIndex + 5)
  else
    match escapeByte c with
    | some b => return ([b], startIndex + 1)
    | none => throw (.parseError "字符串解析错误 : " view)

/-- The loop of `getString`.  At the end of the text it returns what it has. -/
def getString (view : Bytes) : ℕ → ℕ → Bytes → Except JsonError (Bytes × ℕ)
  | 0, _, _ => .error .fuel
  | fuel + 1, startIndex, s =>
    if startIndex < view.length then do
      let c ← charAt view startIndex
      if isControl c then throw (.parseError "json字符串中不能含有控制字符" [])
      if c = ch '\\' then
        let (bytes, startIndex) ← getEscape view (startIndex + 1)
        getString view fuel startIndex (s ++ bytes)
      else if c = ch '"' then return (s, startIndex + 1)
      else getString view fuel (startIndex + 1) (s ++ [c])
    else return (s, startIndex)

def parseString (view : Bytes) (startIndex : ℕ) : Except JsonError (Bytes × ℕ) := do
  if (← charAt view startIndex) ≠ ch '"' then throw .assertFailed
  if sizeSub view.length startIndex ≤ 3 then throw (.parseError "字符串解析错误 : " view)
  getString view (view.length + 1) (startIndex + 1) []

/-! ## Booleans and null -/

def parseBool (view : Bytes) (startIndex : ℕ) : Except JsonError (Bool × ℕ) := do
  if startIndex + 3 ≥ sizeSub view.length 1 then throw (.parseError "bool类型解析错误 : " view)
  if (← window view startIndex 4) = ascii "true" then return (true, startIndex + 4)
  if startIndex + 5 ≤ sizeSub view.length 1 then
    if (← window view startIndex 5) = ascii "false" then return (false, startIndex + 5)
  throw (.parseError "bool类型解析错误 : " view)

/-- `startIndex + 4 < view.size() && string_view(&(view[startIndex]), 4) == "null"` -/
def isNull (view : Bytes) (startIndex : ℕ) : Except JsonError Bool := do
  if startIndex + 4 < view.length then return (← window view startIndex 4) = ascii "null"
  else return false

/-! ## Arrays and maps -/

inductive ParseState where
  | keyStart
  | keyEnd
  | valueStart
  | valueEnd
  deriving DecidableEq, Repr

mutual

/-- The loop of `parseArray`. -/
def arrayLoop (view : Bytes) :
    ℕ → ℕ → List (JsonPtr δ) → Bool → Except JsonError (List (JsonPtr δ) × ℕ)
  | 0, _, _, _ => .error .fuel
  | fuel + 1, startIndex, vec, endByComma =>
    if startIndex < view.length then do
      let c ← charAt view startIndex
      match label c with
      | .comma =>
        if endByComma then throw (.parseError "列表解析错误 : 逗号错误" [])
        arrayLoop view fuel (startIndex + 1) vec true
      | .arrayBegin =>
        let (data, startIndex) ← parseArray view fuel startIndex
        arrayLoop view fuel (startIndex + 1) (vec ++ [.jsonArray data]) false
      | .arrayEnd => return (vec, startIndex + 1)
      | .mapBegin =>
        let (data, startIndex) ← parseMap view fuel startIndex
        arrayLoop view fuel startIndex (vec ++ [.jsonMap data]) false
      | .null =>
        -- `vec.emplace_back()` appends a null pointer
        if ← isNull view startIndex then
          arrayLoop view fuel (startIndex + 4) (vec ++ [.nullptr]) false
        else throw (.parseError "列表解析错误 : 非法字符 " (view.drop startIndex))
      | .bool =>
        let (data, startIndex) ← parseBool view startIndex
        arrayLoop view fuel startIndex (vec ++ [.jsonBool data]) false
      | .quote =>
        let (data, startIndex) ← parseString view startIndex
        arrayLoop view fuel startIndex (vec ++ [.jsonString data]) false
      | .space => arrayLoop view fuel (startIndex + 1) vec endByComma
      | .num =>
        let (p, startIndex) ← parseNum view startIndex
        arrayLoop view fuel startIndex (vec ++ [p]) false
      | _ => throw (.parseError "列表解析错误 : 非法字符" [])
    else throw (.parseError "列表解析错误 : 非法字符" [])
  termination_by structural fuel => fuel

def parseArray (view : Bytes) : ℕ → ℕ → Except JsonError (List (JsonPtr δ) × ℕ)
  | 0, _ => .error .fuel
  | fuel + 1, startIndex => do
    if (← charAt view startIndex) ≠ ch '[' then throw .assertFailed
    if startIndex + 1 > sizeSub view.length 1 then
      throw (.parseError "列表解析错误 : 方括号错误" [])
    arrayLoop view fuel (startIndex + 1) [] false
  termination_by structural fuel => fuel

/-- The loop of `parseMap`; `str` is the last key. -/
def mapLoop (view : Bytes) :
    ℕ → ℕ → List (Bytes × JsonPtr δ) → ParseState → Bytes →
      Except JsonError (List (Bytes × JsonPtr δ) × ℕ)
  | 0, _, _, _, _ => .error .fuel
  | fuel + 1, startIndex, data, state, str =>
    if startIndex < view.length then do
      let c ← charAt view startIndex
      match label c with
      | .space => mapLoop view fuel (startIndex + 1) data state str
      | .comma =>
        if state ≠ .valueEnd then throw (.parseError "Map解析错误 : 逗号错误" [])
        mapLoop view fuel (startIndex + 1) data .keyStart str
      | .quote =>
        if state = .keyStart then
          let (key, startIndex) ← parseString view startIndex
          mapLoop view fuel startIndex data .keyEnd key
        else if state = .valueStart then
          let (s, startIndex) ← parseString view startIndex
          mapLoop view fuel startIndex (SortedAssoc.insertOrAssign str (.jsonString s) data)
            .valueEnd str
        else throw (.parseError "Map解析错误 : 格式错误" [])
      | .colon =>
        if state ≠ .keyEnd then throw (.parseError "Map解析错误 : 格式错误" [])
        mapLoop view fuel (startIndex + 1) data .valueStart str
      | .bool =>
        if state ≠ .valueStart then throw (.parseError "Map解析错误 : 格式错误" [])
        let (b, startIndex) ← parseBool view startIndex
        mapLoop view fuel startIndex (SortedAssoc.insertOrAssign str (.jsonBool b) data) .valueEnd
          str
      | .null =>
        if state ≠ .valueStart then throw (.parseError "Map解析错误 : 格式错误" [])
        if ← isNull view startIndex then
          mapLoop view fuel (startIndex + 4) (SortedAssoc.insertOrAssign str .jsonNull data)
            .valueEnd str
        else throw (.parseError "Map解析错误 : 非法字符" [])
      | .num =>
        if state ≠ .valueStart then throw (.parseError "Map解析错误 : 格式错误" [])
        let (p, startIndex) ← parseNum view startIndex
        mapLoop view fuel startIndex (SortedAssoc.insertOrAssign str p data) .valueEnd str
      | .arrayBegin =>
        if state ≠ .valueStart then throw (.parseError "Map解析错误 : 格式错误" [])
        let (vec, startIndex) ← parseArray view fuel startIndex
        mapLoop view fuel startIndex (SortedAssoc.insertOrAssign str (.jsonArray vec) data)
          .valueEnd str
      | .mapBegin =>
        if state ≠ .valueStart then throw (.parseError "Map解析错误 : 格式错误" [])
        let (m, startIndex) ← parseMap view fuel startIndex
        mapLoop view fuel startIndex (SortedAssoc.insertOrAssign str (.jsonMap m) data) .valueEnd
          str
      | .mapEnd =>
        if state ≠ .valueEnd then throw (.parseError "Map解析错误 : 格式错误" [])
        return (data, startIndex + 1)
      | _ => throw (.parseError "Map解析错误 : 非法字符" [])
    else throw (.parseError "Map解析错误 : 格式错误" [])
  termination_by structural fuel => fuel

def parseMap (view : Bytes) : ℕ → ℕ → Except JsonError (List (Bytes × JsonPtr δ) × ℕ)
  | 0, _ => .error .fuel
  | fuel + 1, startIndex => do
    if (← charAt view startIndex) ≠ ch '{' then throw .assertFailed
    if startIndex + 1 > sizeSub view.length 1 then
      throw (.parseError "列表解析错误 : 大括号错误" [])
    mapLoop view fuel (startIndex + 1) [] .keyStart []
  termination_by structural fuel => fuel
end

section Fuel

attribute [local simp] arrayLoop parseArray mapLoop parseMap

variable {view : Bytes} {k : ℕ}

theorem arrayLoop_zero {vec : List (JsonPtr δ)} {endByComma : Bool} :
    arrayLoop view 0 k vec endByComma = .error .fuel := by
  simp

theorem parseArray_zero :
    (parseArray view 0 k : Except JsonError (List (JsonPtr δ) × ℕ)) = .error .fuel := by
  simp

theorem mapLoop_zero {data : List (Bytes × JsonPtr δ)} {state : ParseState} {str : Bytes} :
    mapLoop view 0 k data state str = .error .fuel := by
  simp

theorem parseMap_zero :
    (parseMap view 0 k : Except JsonError (List (Bytes × JsonPtr δ) × ℕ)) = .error .fuel := by
  simp

end Fuel

/-! ## The whole text -/

/-- The loop after the top-level value: only white space may follow. -/
def parseEnd (view : Bytes) : ℕ → ℕ → Except JsonError Unit
  | 0, _ => .error .fuel
  | fuel + 1, startIndex =>
    if startIndex < view.length then do
      let c ← charAt view startIndex
      match label c with
      | .space => parseEnd view fuel (startIndex + 1)
      | _ => throw (.parseError "Json解析错误 : 末尾非法字符" [])
    else return ()

/-- The loop of `parse` from `startIndex` on. -/
def parseFrom (view : Bytes) : ℕ → ℕ → Except JsonError (JsonPtr δ)
  | 0, _ => .error .fuel
  | fuel + 1, startIndex =>
    if startIndex < view.length then do
      let c ← charAt view startIndex
      match label c with
      | .mapBegin =>
        let (data, startIndex) ← parseMap view (2 * view.length + 2) startIndex
        parseEnd view (view.length + 1) startIndex
        return .jsonMap data
      | .arrayBegin =>
        let (data, startIndex) ← parseArray view (2 * view.length + 2) startIndex
        parseEnd view (view.length + 1) startIndex
        return .jsonArray data
      | .space => parseFrom view fuel (startIndex + 1)
      | _ => throw (.parseError "Json解析错误 : 非法字符" [])
    else return .jsonNull

def parse (view : Bytes) : Except JsonError (JsonPtr δ) := parseFrom view (view.length + 1) 0

end JsonParser

end CoUringWeb
