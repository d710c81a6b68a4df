import CoUringWeb.Json.Children

/-!
# Copies

A copy constructor makes a tree equal to its source, for every source without null children.  The
copy assignments do the same, with one exception: the `switch` of `JsonArray::operator=` has no case
for `JsonNull` and `JsonBoolType`, so that it leaves such elements out.

The loops of the copy assignments read the source while they write the target, which is no
difference as long as neither lies inside the other (`JsonRef.Apart`).
-/

namespace CoUringWeb

open Machine Exceptions

variable {δ : Type}

mutual

/-- Every `std::map` of the tree is in key order. -/
def Ordered : JsonPtr δ → Prop
  | .jsonArray data => OrderedElems data
  | .jsonMap data => SortedAssoc.Sorted data ∧ OrderedMembers data
  | _ => True

def OrderedElems : List (JsonPtr δ) → Prop
  | [] => True
  | p :: vec => Ordered p ∧ OrderedElems vec

def OrderedMembers : List (Bytes × JsonPtr δ) → Prop
  | [] => True
  | (_, p) :: m => Ordered p ∧ OrderedMembers m

end

/-! ## Copy construction -/

mutual

theorem copyChild_eq {p : JsonPtr δ} (h : NonNull p) (ho : Ordered p) : copyChild p = .ok p := by
  match p with
  | .nullptr => exact absurd h (by simp [NonNull])
  | .jsonNull | .jsonBool _ | .jsonString _ | .jsonInteger _ | .jsonDouble _ => rfl
  | .jsonArray data =>
    have helems : NonNullElems data := h
    have hordered : OrderedElems data := ho
    rw [copyChild, copyElems_eq helems hordered]
    rfl
  | .jsonMap data =>
    have hmembers : NonNullMembers data := h
    obtain ⟨hsorted, hordered⟩ : SortedAssoc.Sorted data ∧ OrderedMembers data := ho
    rw [copyChild, copyMembers_eq [] hmembers hordered hsorted]
    rfl

theorem copyElems_eq {vec : List (JsonPtr δ)} (h : NonNullElems vec) (ho : OrderedElems vec) :
    copyElems vec = .ok vec := by
  match vec with
  | [] => rfl
  | p :: vec =>
    rw [copyElems, copyChild_eq h.1 ho.1, copyElems_eq h.2 ho.2]
    rfl

/-- The members come in key order, so each is set behind the ones before it. -/
theorem copyMembers_eq {m : List (Bytes × JsonPtr δ)} (acc : List (Bytes × JsonPtr δ))
    (h : NonNullMembers m) (ho : OrderedMembers m) (hsorted : SortedAssoc.Sorted (acc ++ m)) :
    copyMembers m acc = .ok (acc ++ m) := by
  match m with
  | [] => rw [copyMembers, List.append_nil]; rfl
  | (k, v) :: m =>
    have hbehind : ∀ q ∈ acc, q.1 < k := by
      intro q hq
      exact (List.pairwise_append.1 hsorted).2.2 q hq (k, v) List.mem_cons_self
    rw [copyMembers, copyChild_eq h.1 ho.1, ok_bind,
      SortedAssoc.insertOrAssign_of_forall_lt hbehind,
      copyMembers_eq _ h.2 ho.2 (by simpa using hsorted)]
    simp

end

/-! ## Places that do not meet -/

namespace JsonPtr

theorem get_append (path path' : List JsonPlace) (p : JsonPtr δ) :
    p.get (path ++ path') = (p.get path).bind fun c => c.get path' := by
  induction path generalizing p with
  | nil => rfl
  | cons place path ih =>
    rw [List.cons_append, get, get, Option.bind_assoc]
    congr 1
    funext c
    exact ih c

theorem child_setChild_of_ne {place place' : JsonPlace} (h : place' ≠ place) (p q : JsonPtr δ) :
    (p.setChild place q).child place' = p.child place' := by
  cases p <;> cases place <;> cases place' <;> try rfl
  case jsonArray.index.index data i j =>
    have hij : i ≠ j := fun heq => h (by rw [heq])
    exact List.getElem?_set_ne hij
  case jsonMap.key.key data k k' =>
    have hk : k' ≠ k := fun heq => h (by rw [heq])
    exact SortedAssoc.find_insertOrAssign_of_ne hk q data

theorem setChild_setChild (place : JsonPlace) (p q r : JsonPtr δ) :
    (p.setChild place q).setChild place r = p.setChild place r := by
  cases p <;> cases place <;> try rfl
  case jsonArray.index data i => simp [setChild]
  case jsonMap.key data k => simp [setChild, SortedAssoc.insertOrAssign_insertOrAssign]

theorem set_set (path : List JsonPlace) (p q r : JsonPtr δ) :
    (p.set path q).set path r = p.set path r := by
  induction path generalizing p with
  | nil => rfl
  | cons place path ih =>
    rw [set]
    cases hc : p.child place with
    | none => simp [set, hc]
    | some c => simp [set, hc, child_setChild hc, setChild_setChild, ih]

/-- Neither path leads through the end of the other. -/
theorem get_set_of_apart {a b : List JsonPlace} (hab : ¬ a <+: b) (hba : ¬ b <+: a)
    (p q : JsonPtr δ) : (p.set b q).get a = p.get a := by
  induction b generalizing a p with
  | nil => exact absurd List.nil_prefix hba
  | cons place b ih =>
    cases a with
    | nil => exact absurd List.nil_prefix hab
    | cons place' a =>
      rw [set]
      cases hc : p.child place with
      | none => rfl
      | some c =>
        by_cases hplace : place' = place
        · subst hplace
          have hab' : ¬ a <+: b := fun h => hab (List.cons_prefix_cons.2 ⟨rfl, h⟩)
          have hba' : ¬ b <+: a := fun h => hba (List.cons_prefix_cons.2 ⟨rfl, h⟩)
          rw [get, get, child_setChild hc, hc]
          exact ih hab' hba' c
        · rw [get, get, child_setChild_of_ne hplace]

end JsonPtr

namespace JsonRef

/-- Two objects of which neither lies inside the other. -/
def Apart (a b : JsonRef) : Prop := ¬ a.Inside b ∧ ¬ b.Inside a

instance (a b : JsonRef) : Decidable (a.Apart b) := by
  unfold Apart; infer_instance

theorem Apart.ne {a b : JsonRef} (h : a.Apart b) : a ≠ b := by
  rintro rfl
  exact h.1 ⟨rfl, List.prefix_rfl⟩

theorem Apart.child {a b : JsonRef} (h : a.Apart b) (place : JsonPlace) :
    (a.child place).Apart b := by
  constructor
  · rintro ⟨hobject, hpath⟩
    rcases List.prefix_concat_iff.1 hpath with heq | hpath
    · refine h.2 ⟨hobject.symm, ?_⟩
      rw [heq]
      exact List.prefix_append _ _
    · exact h.1 ⟨hobject, hpath⟩
  · rintro ⟨hobject, hpath⟩
    exact h.2 ⟨hobject, (List.prefix_append _ _).trans hpath⟩

end JsonRef

namespace Objects

variable (s : Objects δ)

theorem get_child (ref : JsonRef) (place : JsonPlace) :
    s.get (ref.child place) = (s.get ref).bind fun p => p.child place := by
  rw [get, get, Option.bind_assoc]
  congr 1
  funext p
  rw [JsonRef.child, JsonPtr.get_append]
  congr 1
  funext c
  rw [JsonPtr.get]
  cases c.child place <;> rfl

theorem set_set (ref : JsonRef) (q r : JsonPtr δ) : (s.set ref q).set ref r = s.set ref r := by
  apply List.ext_getElem?
  intro i
  simp only [set, List.getElem?_modify]
  split
  · simp [Option.map_map, Function.comp_def, JsonPtr.set_set]
  · simp

theorem get_set_of_apart {a b : JsonRef} (h : a.Apart b) (q : JsonPtr δ) :
    (s.set b q).get a = s.get a := by
  rw [get, set]
  by_cases hobject : b.object = a.object
  · have hab : ¬ a.path <+: b.path := fun hpath => h.2 ⟨hobject, hpath⟩
    have hba : ¬ b.path <+: a.path := fun hpath => h.1 ⟨hobject.symm, hpath⟩
    rw [hobject, List.getElem?_modify_eq, get]
    cases s[a.object]? with
    | none => rfl
    | some p => exact JsonPtr.get_set_of_apart hab hba p q
  · rw [List.getElem?_modify_ne _ _ hobject]
    rfl

end Objects

/-! ## Copy assignment -/

/-- `JsonArray::operator=` has a case for the type of the child. -/
def IsAssigned : JsonPtr δ → Bool
  | .jsonNull => false
  | .jsonBool _ => false
  | _ => true

theorem isAssigned_iff {c : JsonPtr δ} :
    IsAssigned c ↔ c ≠ .jsonNull ∧ ∀ b, c ≠ .jsonBool b := by
  cases c <;> simp [IsAssigned]

variable {s : Objects δ} {dst src : JsonRef}

theorem assignedElem_eq {p : JsonPtr δ} (h : NonNull p) (ho : Ordered p) :
    assignedElem p = .ok ([p].filter IsAssigned) := by
  cases p with
  | nullptr => exact absurd h (by simp [NonNull])
  | jsonNull | jsonBool data => rfl
  | jsonString data | jsonInteger data | jsonDouble data | jsonArray data | jsonMap data =>
    rw [assignedElem, copyChild_eq h ho]
    · rfl
    all_goals simp

/-- One turn on an array appends the element, if there is a case for it. -/
theorem assignElem_eq {q : JsonPtr δ} {vec acc : List (JsonPtr δ)} {i : ℕ} (hapart : src.Apart dst)
    (hdst : s.get dst = some q) (hsrc : s.get src = some (.jsonArray vec)) (hi : i < vec.length)
    (h : NonNull vec[i]) (ho : Ordered vec[i]) :
    assignElem dst src (s.set dst (.jsonArray acc)) i =
      .ok (s.set dst (.jsonArray (acc ++ [vec[i]].filter IsAssigned))) := by
  have hplace : (s.set dst (.jsonArray acc)).get (src.child (.index i)) = some vec[i] := by
    rw [Objects.get_set_of_apart s (hapart.child _), Objects.get_child, hsrc]
    exact List.getElem?_eq_getElem hi
  rw [assignElem, Objects.get_set_self hdst, hplace]
  dsimp only
  rw [assignedElem_eq h ho, ok_bind, Objects.set_set]
  rfl

theorem copyAssign_array {q : JsonPtr δ} {vec : List (JsonPtr δ)} {n : ℕ}
    (hapart : src.Apart dst) (hdst : s.get dst = some q)
    (hsrc : s.get src = some (.jsonArray vec)) (h : ∀ p ∈ vec, NonNull p ∧ Ordered p)
    (hn : n ≤ vec.length) :
    (List.range n).foldlM (assignElem dst src) (s.set dst (.jsonArray [])) =
      .ok (s.set dst (.jsonArray ((vec.take n).filter IsAssigned))) := by
  induction n with
  | zero => rfl
  | succ n ih =>
    obtain ⟨hnonNull, hordered⟩ := h vec[n] (List.getElem_mem _)
    rw [List.range_succ, List.foldlM_append, ih (by omega), ok_bind, List.foldlM_cons,
      assignElem_eq hapart hdst hsrc hn hnonNull hordered, ok_bind, List.foldlM_nil,
      List.take_succ_eq_append_getElem hn, List.filter_append]
    rfl

/-- One turn on a map appends the member, since the members come in key order. -/
theorem assignMember_eq {q v : JsonPtr δ} {m acc : List (Bytes × JsonPtr δ)} {k : Bytes}
    (hapart : src.Apart dst) (hdst : s.get dst = some q) (hsrc : s.get src = some (.jsonMap m))
    (hfind : SortedAssoc.find k m = some v) (hbehind : ∀ e ∈ acc, e.1 < k) (h : NonNull v)
    (ho : Ordered v) :
    assignMember dst src (s.set dst (.jsonMap acc)) k =
      .ok (s.set dst (.jsonMap (acc ++ [(k, v)]))) := by
  have hplace : (s.set dst (.jsonMap acc)).get (src.child (.key k)) = some v := by
    rw [Objects.get_set_of_apart s (hapart.child _), Objects.get_child, hsrc]
    exact hfind
  rw [assignMember, Objects.get_set_self hdst, hplace]
  dsimp only
  rw [copyChild_eq h ho, ok_bind, Objects.set_set, SortedAssoc.insertOrAssign_of_forall_lt hbehind]
  rfl

theorem copyAssign_map {q : JsonPtr δ} {m rest : List (Bytes × JsonPtr δ)}
    (acc : List (Bytes × JsonPtr δ)) (hapart : src.Apart dst) (hdst : s.get dst = some q)
    (hsrc : s.get src = some (.jsonMap m)) (hm : m = acc ++ rest) (hsorted : SortedAssoc.Sorted m)
    (h : ∀ e ∈ m, NonNull e.2 ∧ Ordered e.2) :
    (rest.map Prod.fst).foldlM (assignMember dst src) (s.set dst (.jsonMap acc)) =
      .ok (s.set dst (.jsonMap m)) := by
  induction rest generalizing acc with
  | nil =>
    rw [hm, List.append_nil]
    rfl
  | cons e rest ih =>
    obtain ⟨k, v⟩ := e
    have hmem : (k, v) ∈ m := by simp [hm]
    have hbehind : ∀ e ∈ acc, e.1 < k := by
      rw [hm] at hsorted
      exact fun e he => (List.pairwise_append.1 hsorted).2.2 e he (k, v) List.mem_cons_self
    have hfind := (SortedAssoc.find_eq_some_iff_mem hsorted).2 hmem
    rw [List.map_cons, List.foldlM_cons,
      assignMember_eq hapart hdst hsrc hfind hbehind (h _ hmem).1 (h _ hmem).2, ok_bind]
    exact ih (acc ++ [(k, v)]) (by simp [hm])

theorem orderedElems_iff {data : List (JsonPtr δ)} :
    OrderedElems data ↔ ∀ p ∈ data, Ordered p := by
  induction data with
  | nil => simp [OrderedElems]
  | cons p vec ih => simp [OrderedElems, ih]

theorem orderedMembers_iff {data : List (Bytes × JsonPtr δ)} :
    OrderedMembers data ↔ ∀ e ∈ data, Ordered e.2 := by
  induction data with
  | nil => simp [OrderedMembers]
  | cons e m ih => simp [OrderedMembers, ih]

/-- What the copy assignments leave in the target. -/
def assigned : JsonPtr δ → JsonPtr δ
  | .jsonArray vec => .jsonArray (vec.filter IsAssigned)
  | p => p

/-- Two arrays or two maps. -/
inductive SameContainer : JsonPtr δ → JsonPtr δ → Prop where
  | array (data vec : List (JsonPtr δ)) : SameContainer (.jsonArray data) (.jsonArray vec)
  | map (data m : List (Bytes × JsonPtr δ)) : SameContainer (.jsonMap data) (.jsonMap m)

theorem copyObject_eq {p q : JsonPtr δ} (hkind : SameContainer q p) (h : NonNull p)
    (ho : Ordered p) : copyObject (some p) = .ok p := by
  have hcopy := copyChild_eq h ho
  cases hkind <;> exact hcopy

theorem copyAssign_eq {p q : JsonPtr δ} (hapart : src.Apart dst) (hdst : s.get dst = some q)
    (hsrc : s.get src = some p) (hkind : SameContainer q p) (h : NonNull p) (ho : Ordered p) :
    copyAssign s dst src = .ok (s.set dst (assigned p)) := by
  cases hkind with
  | array data vec =>
    have hall : ∀ p ∈ vec, NonNull p ∧ Ordered p := fun p hp =>
      ⟨nonNull_array.1 h p hp, orderedElems_iff.1 ho p hp⟩
    rw [copyAssign, hdst, hsrc]
    dsimp only
    rw [if_neg hapart.ne, if_neg hapart.1, copyAssign_array hapart hdst hsrc hall le_rfl,
      List.take_length]
    rfl
  | map data m =>
    have hall : ∀ e ∈ m, NonNull e.2 ∧ Ordered e.2 := fun e he =>
      ⟨nonNull_map.1 h e he, orderedMembers_iff.1 ho.2 e he⟩
    rw [copyAssign, hdst, hsrc]
    dsimp only
    rw [if_neg hapart.ne, if_neg hapart.1]
    exact copyAssign_map [] hapart hdst hsrc rfl ho.1 hall

/-- Copy construction and copy assignment both give a tree equal to the source, which they leave as
it was, if and only if the source is no array with a `JsonNull` or a `JsonBoolType` element. -/
theorem copies_equal_iff {p q : JsonPtr δ} (hapart : src.Apart dst) (hdst : s.get dst = some q)
    (hsrc : s.get src = some p) (hkind : SameContainer q p) (h : NonNull p) (ho : Ordered p) :
    (copyObject (s.get src) = .ok p ∧
      ∃ t, copyAssign s dst src = .ok t ∧ t.get dst = some p ∧ t.get src = some p) ↔
      ∀ vec, p = .jsonArray vec → ∀ c ∈ vec, c ≠ .jsonNull ∧ ∀ b, c ≠ .jsonBool b := by
  have hassigned : (∀ vec, p = .jsonArray vec → ∀ c ∈ vec, c ≠ .jsonNull ∧ ∀ b, c ≠ .jsonBool b) ↔
      assigned p = p := by
    cases hkind with
    | array data vec =>
      have hcases : (∀ c ∈ vec, c ≠ .jsonNull ∧ ∀ b, c ≠ .jsonBool b) ↔ ∀ c ∈ vec, IsAssigned c :=
        forall₂_congr fun c _ => isAssigned_iff.symm
      rw [assigned, JsonPtr.jsonArray.injEq, List.filter_eq_self, ← hcases]
      exact ⟨fun h => h vec rfl, fun h vec' hvec => JsonPtr.jsonArray.inj hvec ▸ h⟩
    | map data m => exact ⟨fun _ => rfl, fun _ vec hvec => by cases hvec⟩
  have hsource : (s.set dst (assigned p)).get src = some p := by
    rw [Objects.get_set_of_apart s hapart, hsrc]
  rw [hassigned, hsrc, copyObject_eq hkind h ho, copyAssign_eq hapart hdst hsrc hkind h ho]
  constructor
  · rintro ⟨-, t, ht, htarget, -⟩
    obtain rfl := Except.ok.inj ht
    rw [Objects.get_set_self hdst] at htarget
    exact Option.some.inj htarget
  · intro hsame
    refine ⟨rfl, _, rfl, ?_, hsource⟩
    rw [Objects.get_set_self hdst, hsame]

/-- A string element is copied both ways. -/
theorem copies_equal_string :
    (copyObject (Objects.get ([.jsonArray [.jsonString (ascii "a")], .jsonArray []] :
        Objects Bytes) ⟨0, []⟩) = .ok (.jsonArray [.jsonString (ascii "a")]) ∧
      ∃ t, copyAssign ([.jsonArray [.jsonString (ascii "a")], .jsonArray []] : Objects Bytes)
          ⟨1, []⟩ ⟨0, []⟩ = .ok t ∧
        t.get ⟨1, []⟩ = some (.jsonArray [.jsonString (ascii "a")]) ∧
        t.get ⟨0, []⟩ = some (.jsonArray [.jsonString (ascii "a")])) ↔
      ∀ vec, (.jsonArray [.jsonString (ascii "a")] : JsonPtr Bytes) = .jsonArray vec →
        ∀ c ∈ vec, c ≠ .jsonNull ∧ ∀ b, c ≠ .jsonBool b :=
  copies_equal_iff (by decide) rfl rfl (.array _ _) ⟨trivial, trivial⟩ ⟨trivial, trivial⟩

/-- Of the array `[true,7]` an assignment copies only the second element. -/
theorem assigned_array_shorter :
    Transition.run objectStep ([] : Objects Bytes)
        [.parse (ascii "[true,7]"), .parse (ascii "[]")] =
          some [.jsonArray [.jsonBool true, .jsonInteger 7], .jsonArray []] ∧
      copyAssign ([.jsonArray [.jsonBool true, .jsonInteger 7], .jsonArray []] : Objects Bytes)
          ⟨1, []⟩ ⟨0, []⟩ =
        .ok [.jsonArray [.jsonBool true, .jsonInteger 7], .jsonArray [.jsonInteger 7]] ∧
      copyObject (some (.jsonArray [.jsonBool true, .jsonInteger 7]) : Option (JsonPtr Bytes)) =
        .ok (.jsonArray [.jsonBool true, .jsonInteger 7]) ∧
      (.jsonArray [.jsonInteger 7] : JsonPtr Bytes) ≠
        .jsonArray [.jsonBool true, .jsonInteger 7] := by
  refine ⟨rfl, rfl, rfl, fun h => ?_⟩
  have hlength := congrArg List.length (JsonPtr.jsonArray.inj h)
  exact absurd hlength (by decide)

end CoUringWeb
