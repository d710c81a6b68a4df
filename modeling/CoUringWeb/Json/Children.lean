import CoUringWeb.Framework.Transition
import CoUringWeb.Json.Objects
import CoUringWeb.Json.ParserComplete
import CoUringWeb.Json.ParserSound

/-!
# The children of arrays and maps

`NonNull` says that no child pointer of a tree is null.  What `parse` returns has that property
exactly when no array of the text holds `null`, and the operations on objects keep it, except for
a lookup in a map of a key that is not there.  While it holds, nothing dereferences a null pointer.
-/

namespace CoUringWeb

open Machine JsonSyntax Exceptions

variable {δ : Type}

mutual

/-- The pointer and all child pointers below it are not null. -/
def NonNull : JsonPtr δ → Prop
  | .nullptr => False
  | .jsonArray data => NonNullElems data
  | .jsonMap data => NonNullMembers data
  | _ => True

def NonNullElems : List (JsonPtr δ) → Prop
  | [] => True
  | p :: vec => NonNull p ∧ NonNullElems vec

def NonNullMembers : List (Bytes × JsonPtr δ) → Prop
  | [] => True
  | (_, p) :: m => NonNull p ∧ NonNullMembers m

end

theorem nonNullElems_iff {data : List (JsonPtr δ)} :
    NonNullElems data ↔ ∀ p ∈ data, NonNull p := by
  induction data with
  | nil => simp [NonNullElems]
  | cons p vec ih => simp [NonNullElems, ih]

theorem nonNullMembers_iff {data : List (Bytes × JsonPtr δ)} :
    NonNullMembers data ↔ ∀ q ∈ data, NonNull q.2 := by
  induction data with
  | nil => simp [NonNullMembers]
  | cons q m ih => simp [NonNullMembers, ih]

theorem nonNull_array {data : List (JsonPtr δ)} :
    NonNull (.jsonArray data) ↔ ∀ p ∈ data, NonNull p := by
  rw [NonNull, nonNullElems_iff]

theorem nonNull_map {data : List (Bytes × JsonPtr δ)} :
    NonNull (.jsonMap data) ↔ ∀ q ∈ data, NonNull q.2 := by
  rw [NonNull, nonNullMembers_iff]

theorem nonNullMembers_nil : NonNullMembers ([] : List (Bytes × JsonPtr δ)) := trivial

theorem nonNullMembers_insertOrAssign {k : Bytes} {v : JsonPtr δ}
    {data : List (Bytes × JsonPtr δ)} (hv : NonNull v) (hdata : NonNullMembers data) :
    NonNullMembers (SortedAssoc.insertOrAssign k v data) := by
  rw [nonNullMembers_iff] at hdata ⊢
  intro q hq
  rcases SortedAssoc.mem_insertOrAssign hq with rfl | hq
  · exact hv
  · exact hdata q hq

/-! ## Copies -/

mutual

theorem copyChild_nonNull {p : JsonPtr δ} (h : NonNull p) :
    ∃ q, copyChild p = .ok q ∧ NonNull q := by
  match p with
  | .nullptr => exact absurd h (by simp [NonNull])
  | .jsonNull | .jsonBool _ | .jsonString _ | .jsonInteger _ | .jsonDouble _ =>
    exact ⟨_, rfl, h⟩
  | .jsonArray data =>
    have helems : NonNullElems data := h
    obtain ⟨data', hdata, hnonNull⟩ := copyElems_nonNull helems
    exact ⟨.jsonArray data', by rw [copyChild, hdata]; rfl, hnonNull⟩
  | .jsonMap data =>
    have hmembers : NonNullMembers data := h
    obtain ⟨data', hdata, hnonNull⟩ := copyMembers_nonNull hmembers nonNullMembers_nil
    exact ⟨.jsonMap data', by rw [copyChild, hdata]; rfl, hnonNull⟩

theorem copyElems_nonNull {vec : List (JsonPtr δ)} (h : NonNullElems vec) :
    ∃ data, copyElems vec = .ok data ∧ NonNullElems data := by
  match vec with
  | [] => exact ⟨[], rfl, trivial⟩
  | p :: vec =>
    obtain ⟨q, hq, hqn⟩ := copyChild_nonNull h.1
    obtain ⟨data, hdata, hdatan⟩ := copyElems_nonNull h.2
    exact ⟨q :: data, by rw [copyElems, hq, hdata]; rfl, hqn, hdatan⟩

theorem copyMembers_nonNull {m data : List (Bytes × JsonPtr δ)} (h : NonNullMembers m)
    (hdata : NonNullMembers data) :
    ∃ data', copyMembers m data = .ok data' ∧ NonNullMembers data' := by
  match m with
  | [] => exact ⟨data, rfl, hdata⟩
  | (k, v) :: m =>
    obtain ⟨q, hq, hqn⟩ := copyChild_nonNull h.1
    obtain ⟨data', hdata', hdatan⟩ :=
      copyMembers_nonNull h.2 (nonNullMembers_insertOrAssign (k := k) hqn hdata)
    exact ⟨data', by rw [copyMembers, hq]; exact hdata', hdatan⟩

end

/-- Nothing dereferences a null pointer, and what returns has the property `post`. -/
abbrev NoNullDeref {α : Type} (post : α → Prop) (x : Except JsonFault α) : Prop :=
  Ends (fun e => e ≠ .nullPointer) post x

theorem noNullDeref_of_ok {α : Type} {post : α → Prop} {x : Except JsonFault α} {a : α}
    (hx : x = .ok a) (ha : post a) : NoNullDeref post x := by
  rw [hx]
  exact ha

theorem noNullDeref_copyChild {p : JsonPtr δ} (h : NonNull p) :
    NoNullDeref NonNull (copyChild p) := by
  obtain ⟨q, hq, hqn⟩ := copyChild_nonNull h
  exact noNullDeref_of_ok hq hqn

theorem noNullDeref_assignedElem {p : JsonPtr δ} (h : NonNull p) :
    NoNullDeref (fun new => ∀ q ∈ new, NonNull q) (assignedElem p) := by
  have hcopied : NoNullDeref (fun new => ∀ q ∈ new, NonNull q)
      (do return [← copyChild p] : Except JsonFault (List (JsonPtr δ))) := by
    refine (noNullDeref_copyChild h).bind fun q hq => ?_
    intro q' hq'
    rwa [List.mem_singleton.1 hq']
  cases p with
  | nullptr => exact absurd h (by simp [NonNull])
  | jsonNull | jsonBool data => exact fun q hq => by cases hq
  | jsonString data | jsonInteger data | jsonDouble data | jsonArray data | jsonMap data =>
    exact hcopied

theorem noNullDeref_copyObject {o : Option (JsonPtr δ)} (h : ∀ p, o = some p → NonNull p) :
    NoNullDeref NonNull (copyObject o) := by
  match o with
  | none => exact fun h => by cases h
  | some p =>
    have hp := h p rfl
    cases p with
    | nullptr => exact absurd hp (by simp [NonNull])
    | jsonArray data =>
      obtain ⟨data', hdata, hnonNull⟩ := copyElems_nonNull hp
      exact noNullDeref_of_ok (a := .jsonArray data') (by rw [copyObject, hdata]; rfl) hnonNull
    | jsonMap data =>
      obtain ⟨data', hdata, hnonNull⟩ := copyMembers_nonNull hp nonNullMembers_nil
      exact noNullDeref_of_ok (a := .jsonMap data') (by rw [copyObject, hdata]; rfl) hnonNull
    | _ => exact fun h => by cases h

/-! ## Places in a tree -/

theorem mem_of_find {k : Bytes} {v : JsonPtr δ} {data : List (Bytes × JsonPtr δ)}
    (h : SortedAssoc.find k data = some v) : (k, v) ∈ data := by
  induction data with
  | nil => cases h
  | cons q m ih =>
    obtain ⟨k', v'⟩ := q
    rw [SortedAssoc.find] at h
    split at h
    · rename_i hk
      rw [hk, Option.some.inj h]
      exact List.mem_cons_self
    · exact List.mem_cons_of_mem _ (ih h)

theorem nonNull_child {p c : JsonPtr δ} {place : JsonPlace} (hp : NonNull p)
    (h : p.child place = some c) : NonNull c := by
  cases p with
  | jsonArray data =>
    cases place with
    | index i => exact nonNull_array.1 hp c (List.mem_of_getElem? h)
    | key k => cases h
  | jsonMap data =>
    cases place with
    | index i => cases h
    | key k => exact nonNull_map.1 hp (k, c) (mem_of_find h)
  | _ => cases h

theorem nonNull_setChild {p q : JsonPtr δ} (place : JsonPlace) (hp : NonNull p) (hq : NonNull q) :
    NonNull (p.setChild place q) := by
  cases p with
  | jsonArray data =>
    cases place with
    | index i =>
      refine nonNull_array.2 fun p' hp' => ?_
      rcases List.mem_or_eq_of_mem_set hp' with hmem | rfl
      · exact nonNull_array.1 hp p' hmem
      · exact hq
    | key k => exact hp
  | jsonMap data =>
    cases place with
    | index i => exact hp
    | key k => exact nonNullMembers_insertOrAssign hq hp
  | _ => exact hp

theorem nonNull_get {path : List JsonPlace} {p q : JsonPtr δ} (hp : NonNull p)
    (h : p.get path = some q) : NonNull q := by
  induction path generalizing p with
  | nil =>
    cases h
    exact hp
  | cons place path ih =>
    obtain ⟨c, hc, hq⟩ := Option.bind_eq_some_iff.1 h
    exact ih (nonNull_child hp hc) hq

theorem nonNull_set {path : List JsonPlace} {p q : JsonPtr δ} (hp : NonNull p) (hq : NonNull q) :
    NonNull (p.set path q) := by
  induction path generalizing p with
  | nil => exact hq
  | cons place path ih =>
    rw [JsonPtr.set]
    cases hc : p.child place with
    | none => exact hp
    | some c => exact nonNull_setChild place hp (ih (nonNull_child hp hc))

theorem child_setChild {p c q : JsonPtr δ} {place : JsonPlace} (h : p.child place = some c) :
    (p.setChild place q).child place = some q := by
  cases p with
  | jsonArray data =>
    cases place with
    | index i =>
      obtain ⟨hi, -⟩ := List.getElem?_eq_some_iff.1 h
      exact List.getElem?_set_self hi
    | key k => cases h
  | jsonMap data =>
    cases place with
    | index i => cases h
    | key k => exact SortedAssoc.find_insertOrAssign_self k q data
  | _ => cases h

theorem get_set {path : List JsonPlace} {p r q : JsonPtr δ} (h : p.get path = some r) :
    (p.set path q).get path = some q := by
  induction path generalizing p with
  | nil => rfl
  | cons place path ih =>
    obtain ⟨c, hc, hr⟩ := Option.bind_eq_some_iff.1 h
    rw [JsonPtr.set, hc, JsonPtr.get, child_setChild hc]
    exact ih hr

namespace Objects

/-- No child pointer of the objects is null, nor an object itself. -/
def NonNull (s : Objects δ) : Prop := ∀ p ∈ s, CoUringWeb.NonNull p

theorem NonNull.get {s : Objects δ} (hs : s.NonNull) {ref : JsonRef} {p : JsonPtr δ}
    (h : s.get ref = some p) : CoUringWeb.NonNull p := by
  obtain ⟨root, hroot, hp⟩ := Option.bind_eq_some_iff.1 h
  exact nonNull_get (hs root (List.mem_of_getElem? hroot)) hp

theorem NonNull.set {s : Objects δ} (hs : s.NonNull) (ref : JsonRef) {q : JsonPtr δ}
    (hq : CoUringWeb.NonNull q) : (s.set ref q).NonNull := by
  intro p hp
  unfold Objects.set at hp
  obtain ⟨i, hi, rfl⟩ := List.getElem_of_mem hp
  rw [List.getElem_modify]
  split
  · exact nonNull_set (hs _ (List.getElem_mem _)) hq
  · exact hs _ (List.getElem_mem _)

theorem NonNull.append {s : Objects δ} (hs : s.NonNull) {p : JsonPtr δ}
    (hp : CoUringWeb.NonNull p) : NonNull (s ++ [p]) := by
  intro q hq
  rcases List.mem_append.1 hq with hq | hq
  · exact hs q hq
  · rwa [List.mem_singleton.1 hq]

theorem get_set_self {s : Objects δ} {ref : JsonRef} {p q : JsonPtr δ} (h : s.get ref = some p) :
    (s.set ref q).get ref = some q := by
  obtain ⟨root, hroot, hp⟩ := Option.bind_eq_some_iff.1 h
  rw [Objects.get, Objects.set, List.getElem?_modify_eq, hroot]
  exact CoUringWeb.get_set hp

end Objects

/-! ## Operations that read -/

section Dump

variable [StreamDouble δ]

open JsonParser

mutual

theorem dumpChild_nonNull (indent : ℤ) (depth : ℕ) {p : JsonPtr δ} (h : NonNull p) :
    ∃ res, dumpChild indent depth p = .ok res := by
  match p with
  | .nullptr => exact absurd h (by simp [NonNull])
  | .jsonNull | .jsonBool _ | .jsonString _ | .jsonInteger _ | .jsonDouble _ => exact ⟨_, rfl⟩
  | .jsonArray data =>
    have helems : NonNullElems data := h
    obtain ⟨res, hres⟩ := dumpElems_nonNull indent depth helems
    rw [dumpChild, hres]
    split <;> exact ⟨_, rfl⟩
  | .jsonMap data =>
    have hmembers : NonNullMembers data := h
    obtain ⟨res, hres⟩ := dumpMembers_nonNull indent depth hmembers
    rw [dumpChild, hres]
    split <;> exact ⟨_, rfl⟩

theorem dumpElems_nonNull (indent : ℤ) (depth : ℕ) {data : List (JsonPtr δ)}
    (h : NonNullElems data) : ∃ res, dumpElems indent depth data = .ok res := by
  match data with
  | [] => exact ⟨_, rfl⟩
  | p :: vec =>
    obtain ⟨child, hchild⟩ := dumpChild_nonNull indent (depth + 1) h.1
    obtain ⟨rest, hrest⟩ := dumpElems_nonNull indent depth h.2
    rw [dumpElems, hchild, hrest]
    exact ⟨_, rfl⟩

theorem dumpMembers_nonNull (indent : ℤ) (depth : ℕ) {data : List (Bytes × JsonPtr δ)}
    (h : NonNullMembers data) : ∃ res, dumpMembers indent depth data = .ok res := by
  match data with
  | [] => exact ⟨_, rfl⟩
  | (k, v) :: m =>
    obtain ⟨child, hchild⟩ := dumpChild_nonNull indent (depth + 1) h.1
    obtain ⟨rest, hrest⟩ := dumpMembers_nonNull indent depth h.2
    rw [dumpMembers, hchild, hrest]
    exact ⟨_, rfl⟩

end

theorem dump_ne_nullPointer (indent : ℤ) {p : JsonPtr δ} (h : NonNull p) :
    dump p indent ≠ .error .nullPointer := by
  cases p with
  | nullptr => exact absurd h (by simp [NonNull])
  | jsonArray data =>
    obtain ⟨res, hres⟩ := dumpChild_nonNull indent 0 h
    rw [dump, dumpArray, hres]
    exact fun h => by cases h
  | jsonMap data =>
    obtain ⟨res, hres⟩ := dumpChild_nonNull indent 0 h
    rw [dump, dumpMap, hres]
    exact fun h => by cases h
  | _ => exact fun h => by cases h

variable {s : Objects δ}

theorem noNullDeref_dumpObject (hs : s.NonNull) (obj : JsonRef) (indent : ℤ) :
    NoNullDeref (fun r => r.1.NonNull) (dumpObject s obj indent) := by
  unfold dumpObject
  cases hobj : s.get obj with
  | none => exact fun h => by cases h
  | some p =>
    have hdump := dump_ne_nullPointer indent (hs.get hobj)
    dsimp only
    split
    · exact hs
    · rename_i hnull
      exact absurd hnull hdump
    · exact hs

end Dump

variable {s : Objects δ}

theorem noNullDeref_getData (hs : s.NonNull) (obj : JsonRef) :
    NoNullDeref (fun r => r.1.NonNull) (getData s obj) := by
  unfold getData
  split
  · exact fun h => by cases h
  · rename_i hobj
    exact absurd (hs.get hobj) (by simp [NonNull])
  · exact hs

theorem noNullDeref_lookupIndex (hs : s.NonNull) (obj : JsonRef) (index : ℤ) :
    NoNullDeref (fun r => r.1.NonNull) (lookupIndex s obj index) := by
  unfold lookupIndex
  split
  · exact fun h => by cases h
  · rename_i hobj
    exact absurd (hs.get hobj) (by simp [NonNull])
  · split
    · exact hs
    · exact fun h => by cases h
  · exact hs

/-- A lookup of a key that is there changes nothing. -/
theorem noNullDeref_lookupKey (hs : s.NonNull) (obj : JsonRef) (str : Bytes) :
    NoNullDeref (fun r => (∀ data, s.get obj = some (.jsonMap data) →
      (SortedAssoc.find str data).isSome) → r.1.NonNull) (lookupKey s obj str) := by
  unfold lookupKey
  split
  · exact fun h => by cases h
  · rename_i hobj
    exact absurd (hs.get hobj) (by simp [NonNull])
  · rename_i data hobj
    intro hfound
    have hinsert : SortedAssoc.insert str .nullptr data = data := if_pos (hfound data hobj)
    rw [hinsert]
    exact hs.set obj (hs.get hobj)
  · exact fun _ => hs

/-! ## Assignments -/

theorem noNullDeref_assignElem (hs : s.NonNull) (dst src : JsonRef) (i : ℕ) :
    NoNullDeref Objects.NonNull (assignElem dst src s i) := by
  unfold assignElem
  split
  · rename_i data p hdst hsrc
    refine (noNullDeref_assignedElem (hs.get hsrc)).bind fun new hnew => ?_
    refine hs.set dst (nonNull_array.2 fun q hq => ?_)
    rcases List.mem_append.1 hq with hq | hq
    · exact nonNull_array.1 (hs.get hdst) q hq
    · exact hnew q hq
  · exact fun h => by cases h

theorem noNullDeref_assignMember (hs : s.NonNull) (dst src : JsonRef) (k : Bytes) :
    NoNullDeref Objects.NonNull (assignMember dst src s k) := by
  unfold assignMember
  split
  · rename_i data v hdst hsrc
    refine (noNullDeref_copyChild (hs.get hsrc)).bind fun q hq => ?_
    exact hs.set dst (nonNullMembers_insertOrAssign hq (hs.get hdst))
  · exact fun h => by cases h

theorem noNullDeref_copyAssign (hs : s.NonNull) (dst src : JsonRef) :
    NoNullDeref Objects.NonNull (copyAssign s dst src) := by
  unfold copyAssign
  split
  · rename_i hdst
    exact absurd (hs.get hdst) (by simp [NonNull])
  · rename_i hsrc _
    exact absurd (hs.get hsrc) (by simp [NonNull])
  · refine ends_ite (fun _ => hs) fun _ => ends_ite (fun _ h => by cases h) fun _ => ?_
    exact ends_foldlM _ (fun t i _ ht => noNullDeref_assignElem ht dst src i)
      (hs.set dst (nonNull_array.2 fun p hp => by cases hp))
  · refine ends_ite (fun _ => hs) fun _ => ends_ite (fun _ h => by cases h) fun _ => ?_
    exact ends_foldlM _ (fun t k _ ht => noNullDeref_assignMember ht dst src k)
      (hs.set dst (nonNull_map.2 fun q hq => by cases hq))
  · exact fun h => by cases h

theorem nonNull_swapData (hs : s.NonNull) (dst src : JsonRef) {p q : JsonPtr δ} (hp : NonNull p)
    (hq : NonNull q) : (swapData s dst src p q).NonNull := by
  unfold swapData
  split
  · exact hs
  · split
    · exact hs.set dst hq
    · split
      · exact hs.set src hp
      · exact (hs.set dst hq).set src hp

theorem noNullDeref_moveAssign (hs : s.NonNull) (dst src : JsonRef) :
    NoNullDeref Objects.NonNull (moveAssign s dst src) := by
  unfold moveAssign
  split
  · rename_i hdst
    exact absurd (hs.get hdst) (by simp [NonNull])
  · rename_i hsrc _
    exact absurd (hs.get hsrc) (by simp [NonNull])
  · rename_i hdst hsrc
    exact nonNull_swapData hs dst src (hs.get hdst) (hs.get hsrc)
  · rename_i hdst hsrc
    exact nonNull_swapData hs dst src (hs.get hdst) (hs.get hsrc)
  · exact fun h => by cases h

/-! ## Texts -/

open JsonParser

/-- A member of the list has the name `k`. -/
def memberNamed (k : Bytes) : Members → Prop
  | .close _ => False
  | .member _ key _ _ _ rest => k = itemsBytes key ∨ memberNamed k rest

mutual

/-- No array of the value has `null` for an element, except in members that a later member of the
same name replaces. -/
def NoNullInArrays : Value → Prop
  | .arr es => NoNullInElems es
  | .obj ms => NoNullInMembers ms
  | _ => True

def NoNullInElems : Elems → Prop
  | .close _ => True
  | .elem _ v rest => isNullValue v = false ∧ NoNullInArrays v ∧ NoNullInElems rest

def NoNullInMembers : Members → Prop
  | .close _ => True
  | .member _ key _ _ v rest =>
    (memberNamed (itemsBytes key) rest ∨ NoNullInArrays v) ∧ NoNullInMembers rest

end

variable [StreamDouble δ]

mutual

/-- The children of what the parser makes of a value. -/
theorem nonNull_parsed_iff (v : Value) : NonNull (parsed v : JsonPtr δ) ↔ NoNullInArrays v := by
  match v with
  | .null | .bool _ | .str _ => simp [parsed, NonNull, NoNullInArrays]
  | .num tok =>
    rw [parsed, numValue]
    split <;> simp [NonNull, NoNullInArrays]
  | .arr es => exact nonNull_parsedElems_iff es
  | .obj ms =>
    have hsorted : SortedAssoc.Sorted ([] : List (Bytes × JsonPtr δ)) := List.Pairwise.nil
    have hmembers := nonNull_parsedMembers_iff ms hsorted
    simpa [parsed, NonNull, NoNullInArrays] using hmembers

theorem nonNull_parsedElems_iff (es : Elems) :
    NonNullElems (parsedElems es : List (JsonPtr δ)) ↔ NoNullInElems es := by
  match es with
  | .close _ => simp [parsedElems, NonNullElems, NoNullInElems]
  | .elem _ v rest =>
    have hv := nonNull_parsed_iff v
    have hrest := nonNull_parsedElems_iff rest
    cases hnull : isNullValue v with
    | true => simp [parsedElems, NonNullElems, NoNullInElems, hnull, NonNull]
    | false => simp [parsedElems, NonNullElems, NoNullInElems, hnull, hv, hrest]

theorem nonNull_parsedMembers_iff (ms : Members) {data : List (Bytes × JsonPtr δ)}
    (hdata : SortedAssoc.Sorted data) :
    NonNullMembers (parsedMembers ms data) ↔
      NoNullInMembers ms ∧ ∀ q ∈ data, memberNamed q.1 ms ∨ NonNull q.2 := by
  match ms with
  | .close _ => simp [parsedMembers, NoNullInMembers, memberNamed, nonNullMembers_iff]
  | .member _ key _ _ v rest =>
    have hv := nonNull_parsed_iff v
    have hrest := nonNull_parsedMembers_iff rest
      (SortedAssoc.sorted_insertOrAssign (k := itemsBytes key) (v := parsed v) hdata)
    have hmem (q : Bytes × JsonPtr δ) :=
      SortedAssoc.mem_insertOrAssign_iff (k := itemsBytes key) (v := parsed v) hdata (p := q)
    rw [parsedMembers, hrest, NoNullInMembers]
    constructor
    · rintro ⟨hr, hall⟩
      have hnew := hall (itemsBytes key, parsed v) ((hmem _).2 (Or.inl rfl))
      refine ⟨⟨hnew.imp_right hv.1, hr⟩, fun q hq => ?_⟩
      by_cases hk : q.1 = itemsBytes key
      · exact Or.inl (Or.inl hk)
      · exact (hall q ((hmem q).2 (Or.inr ⟨hk, hq⟩))).imp_left Or.inr
    · rintro ⟨⟨hnew, hr⟩, hall⟩
      refine ⟨hr, fun q hq => ?_⟩
      rcases (hmem q).1 hq with rfl | ⟨hk, hq⟩
      · exact hnew.imp_right hv.2
      · exact (hall q hq).imp_left fun h => h.resolve_left hk

end

/-- What the parser returns has no null child if and only if the text has no `null` in an array. -/
theorem nonNull_parse_iff {view : Bytes} {p : JsonPtr δ} (h : parse view = .ok p) :
    NonNull p ↔ ∀ r : Reading, r.text = view → NoNullInArrays r.root := by
  constructor
  · rintro hp r rfl
    obtain rfl : parsed r.root = p := Except.ok.inj ((parse_text r).symm.trans h)
    exact (nonNull_parsed_iff r.root).1 hp
  · intro htext
    have hat : At view 0 view := At.zero
    rcases parseFrom_eq_ok hat h with ⟨-, rfl⟩ | ⟨r, hr, rfl⟩
    · trivial
    · exact (nonNull_parsed_iff r.root).2 (htext r hr)

/-! ## Runs -/

/-- When an operation gives no null child to the objects: a text holds no `null` in an array, and
the key of a lookup in a map is there. -/
def KeepsChildren (s : Objects δ) : JsonOp → Prop
  | .parse view => ∀ r : Reading, r.text = view → NoNullInArrays r.root
  | .lookupKey obj str =>
    ∀ data, s.get obj = some (.jsonMap data) → (SortedAssoc.find str data).isSome
  | _ => True

/-- While no child is null, no operation dereferences a null pointer; one that keeps the children
leaves none null. -/
theorem noNullDeref_perform (hs : s.NonNull) (op : JsonOp) :
    NoNullDeref (fun r => KeepsChildren s op → r.1.NonNull) (perform s op) := by
  cases op with
  | parse view =>
    intro htext
    unfold parseObject
    split
    · rename_i p hparse
      exact hs.append ((nonNull_parse_iff hparse).2 htext)
    · exact hs
  | copyConstruct src =>
    refine (noNullDeref_copyObject fun p hp => hs.get hp).bind fun q hq => ?_
    exact fun _ => hs.append hq
  | copyAssign dst src =>
    exact (noNullDeref_copyAssign hs dst src).bind fun t ht _ => ht
  | moveAssign dst src =>
    exact (noNullDeref_moveAssign hs dst src).bind fun t ht _ => ht
  | lookupIndex obj index => exact (noNullDeref_lookupIndex hs obj index).mono fun r hr _ => hr
  | lookupKey obj str => exact noNullDeref_lookupKey hs obj str
  | getData obj => exact (noNullDeref_getData hs obj).mono fun r hr _ => hr
  | dump obj indent => exact (noNullDeref_dumpObject hs obj indent).mono fun r hr _ => hr

theorem perform_ne_nullPointer (hs : s.NonNull) (op : JsonOp) :
    perform s op ≠ .error .nullPointer := by
  intro h
  have hends := noNullDeref_perform hs op
  rw [h] at hends
  exact hends rfl

theorem objectStep_eq_some {t : Objects δ} {op : JsonOp} :
    objectStep s op = some t ↔ ∃ answer, perform s op = .ok (t, answer) := by
  unfold objectStep
  split
  · rename_i u answer hperform
    simp [hperform]
  · rename_i e hperform
    simp [hperform]

theorem objectStep_nonNull {t : Objects δ} {op : JsonOp} (hs : s.NonNull) (hop : KeepsChildren s op)
    (h : objectStep s op = some t) : t.NonNull := by
  obtain ⟨answer, hperform⟩ := objectStep_eq_some.1 h
  have hends := noNullDeref_perform hs op
  rw [hperform] at hends
  exact hends hop

/-- An operation that does not keep the children leaves a null one. -/
theorem not_nonNull_of_objectStep {t : Objects δ} {op : JsonOp} (hop : ¬ KeepsChildren s op)
    (h : objectStep s op = some t) : ¬ t.NonNull := by
  obtain ⟨answer, hperform⟩ := objectStep_eq_some.1 h
  intro ht
  cases op with
  | parse view =>
    have hparsed : parseObject s view = (t, answer) := Except.ok.inj hperform
    apply hop
    rintro r rfl
    rw [parseObject, parse_text] at hparsed
    obtain rfl : s ++ [parsed r.root] = t := (Prod.mk.inj hparsed).1
    have hroot : NonNull (parsed r.root : JsonPtr δ) :=
      ht _ (List.mem_append_right s List.mem_cons_self)
    exact (nonNull_parsed_iff r.root).1 hroot
  | lookupKey obj str =>
    apply hop
    intro data hobj
    by_contra hnew
    have hlookup : lookupKey s obj str = .ok (t, answer) := hperform
    have hinsert : SortedAssoc.insert str .nullptr data =
        SortedAssoc.insertOrAssign str .nullptr data := if_neg hnew
    rw [lookupKey, hobj] at hlookup
    dsimp only at hlookup
    rw [hinsert] at hlookup
    obtain rfl := (Prod.mk.inj (Except.ok.inj hlookup)).1
    have hmap := ht.get (Objects.get_set_self hobj)
    have hfind := SortedAssoc.find_insertOrAssign_self str (.nullptr : JsonPtr δ) data
    exact nonNull_map.1 hmap _ (mem_of_find hfind)
  | _ => exact hop trivial

/-- In the states of a run no child is null, and no operation dereferences a null pointer, if and
only if every operation of the run keeps the children. -/
theorem children_nonNull_iff {ops : List JsonOp} {t : Objects δ}
    (hrun : Transition.run objectStep ([] : Objects δ) ops = some t) :
    (∀ before s, before <+: ops → Transition.run objectStep ([] : Objects δ) before = some s →
      s.NonNull ∧ ∀ op, perform s op ≠ .error .nullPointer) ↔
      Transition.Always objectStep KeepsChildren ([] : Objects δ) ops :=
  Transition.forall_prefix_iff_always (I := Objects.NonNull)
    (fun _ hs => ⟨hs, perform_ne_nullPointer hs⟩)
    (fun _ _ _ hs _ hop hstep => objectStep_nonNull hs hop hstep)
    (fun _ _ _ _ _ hop hstep hu => not_nonNull_of_objectStep hop hstep hu.1)
    (fun _ hp => by cases hp) (Transition.always_of_forall (fun _ _ => trivial) _ _) hrun

theorem children_nonNull_copies :
    (∀ before s, before <+: [.parse (ascii "\x7b\"a\":[true]\x7d"), .lookupKey ⟨0, []⟩ (ascii "a"),
        .copyConstruct ⟨0, [.key (ascii "a")]⟩, .moveAssign ⟨1, []⟩ ⟨0, [.key (ascii "a")]⟩] →
      Transition.run objectStep ([] : Objects Bytes) before = some s →
      s.NonNull ∧ ∀ op, perform s op ≠ .error .nullPointer) ↔
      Transition.Always objectStep KeepsChildren ([] : Objects Bytes)
        [.parse (ascii "\x7b\"a\":[true]\x7d"), .lookupKey ⟨0, []⟩ (ascii "a"),
          .copyConstruct ⟨0, [.key (ascii "a")]⟩, .moveAssign ⟨1, []⟩ ⟨0, [.key (ascii "a")]⟩] :=
  children_nonNull_iff (t := [.jsonMap [(ascii "a", .jsonArray [.jsonBool true])],
    .jsonArray [.jsonBool true]]) rfl

/-- `null` in an array and a lookup of a key that is not there each leave a null child. -/
theorem null_children :
    (Transition.run objectStep ([] : Objects Bytes) [.parse (ascii "[null]")] =
        some [.jsonArray [.nullptr]] ∧
      ¬ Objects.NonNull ([.jsonArray [.nullptr]] : Objects Bytes) ∧
      perform ([.jsonArray [.nullptr]] : Objects Bytes) (.dump ⟨0, []⟩ 4) = .error .nullPointer) ∧
    Transition.run objectStep ([] : Objects Bytes)
        [.parse (ascii "\x7b\"a\":[]\x7d"), .lookupKey ⟨0, []⟩ (ascii "b")] =
        some [.jsonMap [(ascii "a", .jsonArray []), (ascii "b", .nullptr)]] ∧
      ¬ Objects.NonNull
        ([.jsonMap [(ascii "a", .jsonArray []), (ascii "b", .nullptr)]] : Objects Bytes) := by
  refine ⟨⟨rfl, fun h => ?_, rfl⟩, rfl, fun h => ?_⟩
  · exact (h _ List.mem_cons_self).1
  · exact (h _ List.mem_cons_self).2.1

end CoUringWeb
