import CoUringWeb.Json.Dump

/-!
# Objects and what a program does with them

The copy constructors, assignments and lookups of `JsonArray`, `JsonMap` and `JsonObj` in
`src/json.cpp`.  A program holds a list of objects; a reference is an object with a path into it.
An operation that dereferences a null pointer fails with `nullPointer`; one that leaves its
operands, casts an object to what it is not or uses a destroyed object fails with `undefined`.

`operator[]` on a map inserts a null pointer for a key that is not there, and the reference it
returns is the null one; reading through that reference is what fails.  The loops of the copy
assignments read the source as they go, since the target may lie inside of it.
-/

namespace CoUringWeb

open Machine

variable {δ : Type}

inductive JsonFault where
  /-- a null pointer is dereferenced -/
  | nullPointer
  | undefined
  deriving DecidableEq, Repr

/-! ## Copies -/

mutual

/-- The `switch` of the copy constructors on the type of a child. -/
def copyChild : JsonPtr δ → Except JsonFault (JsonPtr δ)
  | .nullptr => .error .nullPointer
  | .jsonNull => return .jsonNull
  | .jsonBool data => return .jsonBool data
  | .jsonString data => return .jsonString data
  | .jsonInteger data => return .jsonInteger data
  | .jsonDouble data => return .jsonDouble data
  | .jsonArray data => return .jsonArray (← copyElems data)
  | .jsonMap data => return .jsonMap (← copyMembers data [])

/-- The loop of `JsonArray(const vector<unique_ptr<JsonObj>> &)`. -/
def copyElems : List (JsonPtr δ) → Except JsonFault (List (JsonPtr δ))
  | [] => return []
  | p :: vec => do return (← copyChild p) :: (← copyElems vec)

/-- The loop of `JsonMap(const JsonMapImpl &)`. -/
def copyMembers :
    List (Bytes × JsonPtr δ) → List (Bytes × JsonPtr δ) →
      Except JsonFault (List (Bytes × JsonPtr δ))
  | [], data => return data
  | (k, v) :: m, data => do
    copyMembers m (SortedAssoc.insertOrAssign k (← copyChild v) data)

end

/-- What the `switch` of `JsonArray::operator=` appends for a child; it has no case for `JsonNull`
and `JsonBoolType`. -/
def assignedElem : JsonPtr δ → Except JsonFault (List (JsonPtr δ))
  | .nullptr => .error .nullPointer
  | .jsonNull => return []
  | .jsonBool _ => return []
  | p => return [← copyChild p]

/-! ## Places in a tree -/

inductive JsonPlace where
  | index (i : ℕ)
  | key (k : Bytes)
  deriving DecidableEq, Repr

namespace JsonPtr

/-- The child pointer at a place. -/
def child : JsonPtr δ → JsonPlace → Option (JsonPtr δ)
  | .jsonArray data, .index i => data[i]?
  | .jsonMap data, .key k => SortedAssoc.find k data
  | _, _ => none

def setChild : JsonPtr δ → JsonPlace → JsonPtr δ → JsonPtr δ
  | .jsonArray data, .index i, q => .jsonArray (data.set i q)
  | .jsonMap data, .key k, q => .jsonMap (SortedAssoc.insertOrAssign k q data)
  | p, _, _ => p

/-- The pointer at the end of a path. -/
def get : JsonPtr δ → List JsonPlace → Option (JsonPtr δ)
  | p, [] => some p
  | p, place :: path => (p.child place).bind fun c => c.get path

/-- The tree with another pointer at the end of a path. -/
def set : JsonPtr δ → List JsonPlace → JsonPtr δ → JsonPtr δ
  | _, [], q => q
  | p, place :: path, q =>
    match p.child place with
    | none => p
    | some c => p.setChild place (c.set path q)

end JsonPtr

/-- A reference: one of the program's objects, and a path into it. -/
structure JsonRef where
  object : ℕ
  path : List JsonPlace
  deriving DecidableEq, Repr

namespace JsonRef

def child (ref : JsonRef) (place : JsonPlace) : JsonRef := { ref with path := ref.path ++ [place] }

/-- `ref` lies inside of `top`. -/
def Inside (ref top : JsonRef) : Prop := ref.object = top.object ∧ top.path <+: ref.path

instance (ref top : JsonRef) : Decidable (ref.Inside top) := by
  unfold Inside; infer_instance

end JsonRef

/-- The objects a program holds. -/
abbrev Objects (δ : Type) := List (JsonPtr δ)

namespace Objects

def get (s : Objects δ) (ref : JsonRef) : Option (JsonPtr δ) :=
  s[ref.object]?.bind fun p => p.get ref.path

def set (s : Objects δ) (ref : JsonRef) (q : JsonPtr δ) : Objects δ :=
  s.modify ref.object fun p => p.set ref.path q

end Objects

/-! ## Operations -/

inductive JsonOp where
  | parse (view : Bytes)
  | copyConstruct (src : JsonRef)
  | copyAssign (dst src : JsonRef)
  | moveAssign (dst src : JsonRef)
  | lookupIndex (obj : JsonRef) (index : ℤ)
  | lookupKey (obj : JsonRef) (str : Bytes)
  | getData (obj : JsonRef)
  | dump (obj : JsonRef) (indent : ℤ)
  deriving DecidableEq, Repr

/-- What an operation gives its caller. -/
inductive JsonAnswer where
  | returned
  | reference (ref : JsonRef)
  | text (res : Bytes)
  | typeError (what : String)
  | error (e : JsonError)
  deriving DecidableEq

/-- The copy constructors. -/
def copyObject : Option (JsonPtr δ) → Except JsonFault (JsonPtr δ)
  | some .nullptr => .error .nullPointer
  | some (.jsonArray data) => return .jsonArray (← copyElems data)
  | some (.jsonMap data) => return .jsonMap (← copyMembers data [])
  | _ => .error .undefined

/-- One turn of the loop of `JsonArray::operator=(const JsonArray &)`. -/
def assignElem (dst src : JsonRef) (s : Objects δ) (i : ℕ) : Except JsonFault (Objects δ) :=
  match s.get dst, s.get (src.child (.index i)) with
  | some (.jsonArray data), some p => do
    return s.set dst (.jsonArray (data ++ (← assignedElem p)))
  | _, _ => .error .undefined

/-- One turn of the loop of `JsonMap::operator=(const JsonMap &)`. -/
def assignMember (dst src : JsonRef) (s : Objects δ) (k : Bytes) : Except JsonFault (Objects δ) :=
  match s.get dst, s.get (src.child (.key k)) with
  | some (.jsonMap data), some v => do
    return s.set dst (.jsonMap (SortedAssoc.insertOrAssign k (← copyChild v) data))
  | _, _ => .error .undefined

/-- The copy assignments. -/
def copyAssign (s : Objects δ) (dst src : JsonRef) : Except JsonFault (Objects δ) :=
  match s.get dst, s.get src with
  | some .nullptr, _ => .error .nullPointer
  | _, some .nullptr => .error .nullPointer
  | some (.jsonArray _), some (.jsonArray vec) =>
    if src = dst then .ok s
    -- `data.clear()` destroys a source inside of the target
    else if src.Inside dst then .error .undefined
    else (List.range vec.length).foldlM (assignElem dst src) (s.set dst (.jsonArray []))
  | some (.jsonMap _), some (.jsonMap m) =>
    if src = dst then .ok s
    else if src.Inside dst then .error .undefined
    else (m.map Prod.fst).foldlM (assignMember dst src) (s.set dst (.jsonMap []))
  | _, _ => .error .undefined

/-- `data.swap(o.data)` for two objects with the data of `p` and of `q`.  When one is inside of the
other, the outer one gets the data of the inner one, and nothing reaches the rest any more. -/
def swapData (s : Objects δ) (dst src : JsonRef) (p q : JsonPtr δ) : Objects δ :=
  if src = dst then s
  else if src.Inside dst then s.set dst q
  else if dst.Inside src then s.set src p
  else (s.set dst q).set src p

/-- The move assignments. -/
def moveAssign (s : Objects δ) (dst src : JsonRef) : Except JsonFault (Objects δ) :=
  match s.get dst, s.get src with
  | some .nullptr, _ => .error .nullPointer
  | _, some .nullptr => .error .nullPointer
  | some (.jsonArray data), some (.jsonArray odata) =>
    .ok (swapData s dst src (.jsonArray data) (.jsonArray odata))
  | some (.jsonMap data), some (.jsonMap odata) =>
    .ok (swapData s dst src (.jsonMap data) (.jsonMap odata))
  | _, _ => .error .undefined

/-- `operator[](int)` -/
def lookupIndex (s : Objects δ) (obj : JsonRef) (index : ℤ) :
    Except JsonFault (Objects δ × JsonAnswer) :=
  match s.get obj with
  | none => .error .undefined
  | some .nullptr => .error .nullPointer
  | some (.jsonArray data) =>
    if 0 ≤ index ∧ index < data.length then
      .ok (s, .reference (obj.child (.index index.toNat)))
    else .error .undefined
  | some _ => .ok (s, .typeError "不是JsonArray类型")

/-- Both `operator[]` with a string; `data[str]` inserts a null pointer for a new key. -/
def lookupKey (s : Objects δ) (obj : JsonRef) (str : Bytes) :
    Except JsonFault (Objects δ × JsonAnswer) :=
  match s.get obj with
  | none => .error .undefined
  | some .nullptr => .error .nullPointer
  | some (.jsonMap data) =>
    .ok (s.set obj (.jsonMap (SortedAssoc.insert str .nullptr data)),
      .reference (obj.child (.key str)))
  | some _ => .ok (s, .typeError "不是JsonMap类型")

/-- `getData`, up to the address it returns. -/
def getData (s : Objects δ) (obj : JsonRef) : Except JsonFault (Objects δ × JsonAnswer) :=
  match s.get obj with
  | none => .error .undefined
  | some .nullptr => .error .nullPointer
  | some _ => .ok (s, .returned)

variable [StreamDouble δ]

def parseObject (s : Objects δ) (view : Bytes) : Objects δ × JsonAnswer :=
  match JsonParser.parse view with
  | .ok p => (s ++ [p], .reference ⟨s.length, []⟩)
  | .error e => (s, .error e)

def dumpObject (s : Objects δ) (obj : JsonRef) (indent : ℤ) :
    Except JsonFault (Objects δ × JsonAnswer) :=
  match s.get obj with
  | none => .error .undefined
  | some p =>
    match JsonParser.dump p indent with
    | .ok res => .ok (s, .text res)
    | .error .nullPointer => .error .nullPointer
    | .error e => .ok (s, .error e)

def perform (s : Objects δ) : JsonOp → Except JsonFault (Objects δ × JsonAnswer)
  | .parse view => .ok (parseObject s view)
  | .copyConstruct src => do return (s ++ [← copyObject (s.get src)], .reference ⟨s.length, []⟩)
  | .copyAssign dst src => do return (← copyAssign s dst src, .reference dst)
  | .moveAssign dst src => do return (← moveAssign s dst src, .reference dst)
  | .lookupIndex obj index => lookupIndex s obj index
  | .lookupKey obj str => lookupKey s obj str
  | .getData obj => getData s obj
  | .dump obj indent => dumpObject s obj indent

/-- The objects after an operation that returns or throws. -/
def objectStep (s : Objects δ) (op : JsonOp) : Option (Objects δ) :=
  match perform s op with
  | .ok (t, _) => some t
  | .error _ => none

end CoUringWeb
