import CoUringWeb.Framework.Numerals
import CoUringWeb.Framework.SortedMap
import Mathlib.Data.List.Lex

/-!
# JSON values

The objects of `include/json.h`.  A child of an array or a map is a `unique_ptr<JsonObj>`, which
may be null, so the model is the pointer: `nullptr`, or the object it points to.  `JsonMap` keeps a
`std::map`, whose entries are in key order.

A `double` is a parameter `δ` of the model, with what a `stringstream` reads and writes for it.
-/

namespace CoUringWeb

open Machine Numerals

/-- Reading and writing a `double` through a `stringstream`. -/
class StreamDouble (δ : Type) where
  /-- `ss >> num` on a stream with these bytes -/
  read : Bytes → δ
  /-- the bytes of `ss << num` -/
  write : δ → Bytes

/-- A `double` kept as its text. -/
instance : StreamDouble Bytes := { read := id, write := id }

/-- `std::unique_ptr<JsonObj>` -/
inductive JsonPtr (δ : Type) where
  | nullptr
  /-- `JsonObj` itself, with `JsonBaseType::JsonNull` -/
  | jsonNull
  | jsonBool (data : Bool)
  | jsonString (data : Bytes)
  | jsonInteger (data : Int64)
  | jsonDouble (data : δ)
  | jsonArray (data : List (JsonPtr δ))
  | jsonMap (data : List (Bytes × JsonPtr δ))

/-! ## Decimal integers -/

/-- `ss >> num` for an `int64_t`: the longest prefix that is a decimal integer, saturated; `0` when
there is none. -/
def readInt64 (s : Bytes) : Int64 :=
  let negative := s.head? = some (ch '-')
  let digits := if negative ∨ s.head? = some (ch '+') then s.drop 1 else s
  let n : ℤ := decimal (digits.takeWhile isDigit)
  let n : ℤ := if negative then -n else n
  if n < -2 ^ 63 then Int64.ofInt (-2 ^ 63)
  else if 2 ^ 63 ≤ n then Int64.ofInt (2 ^ 63 - 1)
  else Int64.ofInt n

/-- The bytes of `ss << num` for an `int64_t`. -/
def writeInt64 (n : Int64) : Bytes :=
  if n.toInt < 0 then ch '-' :: decimalDigits n.toInt.natAbs else decimalDigits n.toInt.natAbs

end CoUringWeb
