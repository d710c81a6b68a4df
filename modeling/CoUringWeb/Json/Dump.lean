import CoUringWeb.Json.Parser

/-!
# `JsonParser::dump`

The printer of `src/json.cpp`.  Its functions append to `res`; here they return what they append.
The `switch` on the type of a child, which `dumpArray` and `dumpMap` both have, is `dumpChild`;
their parameter `singleLine` is never read.
-/

namespace CoUringWeb

namespace JsonParser

open Machine

variable {δ : Type} [StreamDouble δ]

/-! ## Strings -/

/-- The `switch` of `dumpString`. -/
def dumpChar (c : UInt8) : Bytes :=
  if c = ch '"' then ascii "\\\""
  else if c = ch '\\' then ascii "\\\\"
  else if c = 8 then ascii "\\b"
  else if c = 12 then ascii "\\f"
  else if c = ch '\n' then ascii "\\n"
  else if c = ch '\r' then ascii "\\r"
  else if c = ch '\t' then ascii "\\t"
  else [c]

def dumpString (view : Bytes) : Bytes := ch '"' :: (view.flatMap dumpChar ++ [ch '"'])

def dumpBool (data : Bool) : Bytes := if data then ascii "true" else ascii "false"

/-! ## Arrays and maps -/

/-- The loops that append `indent` spaces `depth` times. -/
def pad (indent : ℤ) (depth : ℕ) : Bytes := List.replicate (depth * indent.toNat) (ch ' ')

/-- A new line, and the indentation of `depth`. -/
def newLine (indent : ℤ) (depth : ℕ) : Bytes := ch '\n' :: pad indent depth

mutual

def dumpChild (indent : ℤ) (depth : ℕ) : JsonPtr δ → Except JsonError Bytes
  | .nullptr => .error .nullPointer
  | .jsonNull => return ascii "null"
  | .jsonBool data => return dumpBool data
  | .jsonString data => return dumpString data
  | .jsonInteger data => return writeInt64 data
  | .jsonDouble data => return StreamDouble.write data
  | .jsonArray data =>
    if data.isEmpty then return ascii "[]"
    else return ch '[' :: (← dumpElems indent depth data) ++ newLine indent depth ++ [ch ']']
  | .jsonMap data =>
    if data.isEmpty then return ascii "{}"
    else return ch '{' :: (← dumpMembers indent depth data) ++ newLine indent depth ++ [ch '}']

/-- The loop of `dumpArray`. -/
def dumpElems (indent : ℤ) (depth : ℕ) : List (JsonPtr δ) → Except JsonError Bytes
  | [] => return []
  | o :: rest => do
    let child ← dumpChild indent (depth + 1) o
    let comma := if rest.isEmpty then [] else ascii ","
    return newLine indent (depth + 1) ++ child ++ comma ++ (← dumpElems indent depth rest)

/-- The loop of `dumpMap`. -/
def dumpMembers (indent : ℤ) (depth : ℕ) : List (Bytes × JsonPtr δ) → Except JsonError Bytes
  | [] => return []
  | (k, v) :: rest => do
    let child ← dumpChild indent (depth + 1) v
    let comma := if rest.isEmpty then [] else ascii ","
    return newLine indent (depth + 1) ++ dumpString k ++ ascii " : " ++ child ++ comma ++
      (← dumpMembers indent depth rest)

end

def dumpArray (data : List (JsonPtr δ)) (depth : ℕ) (indent : ℤ) : Except JsonError Bytes :=
  dumpChild indent depth (.jsonArray data)

def dumpMap (data : List (Bytes × JsonPtr δ)) (depth : ℕ) (indent : ℤ) : Except JsonError Bytes :=
  dumpChild indent depth (.jsonMap data)

def dump (obj : JsonPtr δ) (indent : ℤ) : Except JsonError Bytes :=
  match obj with
  | .nullptr => .error .nullPointer
  | .jsonArray data => dumpArray data 0 indent
  | .jsonMap data => dumpMap data 0 indent
  | _ => .error (.parseError "dump错误 : 不是array或map类型" [])

end JsonParser

end CoUringWeb
