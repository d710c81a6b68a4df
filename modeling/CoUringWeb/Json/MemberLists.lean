import CoUringWeb.Json.ParserComplete
import CoUringWeb.Json.ParserSound

/-!
# The member lists `parseMap` reads

The spans of the values are those their own parsers consume (`parseValue`); around them `parseMap`
takes the tokens of a member list and white space, and nothing else.
-/

namespace CoUringWeb

namespace JsonParser

open Machine JsonSyntax Exceptions

variable {δ : Type}

/-- A member as it stands in the text: `value` holds the bytes that the value's parser consumed, and
`child` what it returned. -/
structure Member (δ : Type) where
  before : Bytes
  key : List StrItem
  pre : Bytes
  post : Bytes
  value : Bytes
  child : JsonPtr δ
  after : Bytes

namespace Member

/-- The bytes in front of the value. -/
def lead (mem : Member δ) : Bytes :=
  mem.before ++ (strText mem.key ++ (mem.pre ++ ch ':' :: mem.post))

def text (mem : Member δ) : Bytes := mem.lead ++ (mem.value ++ mem.after)

/-- The entry of the map. -/
def entry (mem : Member δ) : Bytes × JsonPtr δ := (itemsBytes mem.key, mem.child)

end Member

/-- Members with a comma in front of each. -/
def restText (rest : List (Member δ)) : Bytes := rest.flatMap fun mem => ch ',' :: mem.text

variable [StreamDouble δ]

/-- The member stands at `i`, with white space between its tokens. -/
structure Member.Reads (view : Bytes) (i : ℕ) (mem : Member δ) : Prop where
  before_ws : AllWs mem.before
  key : ItemsWellFormed mem.key
  pre_ws : AllWs mem.pre
  post_ws : AllWs mem.post
  value : parseValue view (2 * view.length + 2) (i + mem.lead.length) =
    .ok (mem.child, i + mem.lead.length + mem.value.length)
  after_ws : AllWs mem.after

/-- The members stand one after another from `i` on, with a comma between two of them. -/
def ReadMembers (view : Bytes) : ℕ → List (Member δ) → Prop
  | _, [] => True
  | i, mem :: rest => mem.Reads view i ∧ ReadMembers view (i + mem.text.length + 1) rest

variable {view : Bytes} {fuel k j : ℕ}

/-! ## Members -/

theorem lt_of_parseMap {m : List (Bytes × JsonPtr δ)} (h : parseMap view fuel k = .ok (m, j)) :
    k < view.length := by
  cases fuel with
  | zero =>
    rw [parseMap_zero] at h
    cases h
  | succ fuel =>
    obtain ⟨c, hc, -⟩ := bind_eq_ok.mp h
    exact lt_of_charAt hc

/-- A member in front of the text `s`; the white space `after` at the start of `s` belongs to the
member. -/
theorem member_reads {mem : Member δ} {v : Value} {s : Bytes}
    (hat : At view k (mem.lead ++ (v.text ++ s))) (hvalue : mem.value = v.text)
    (hchild : mem.child = parsed v) (hbefore : AllWs mem.before) (hkey : ItemsWellFormed mem.key)
    (hpre : AllWs mem.pre) (hpost : AllWs mem.post) (hv : Accepts v s) (hs : s ≠ [])
    (hafter : AllWs mem.after) : mem.Reads view k where
  before_ws := hbefore
  key := hkey
  pre_ws := hpre
  post_ws := hpost
  value := by
    have hlen := hat.append.length
    rw [List.length_append] at hlen
    rw [hvalue, hchild]
    exact parseValue_run hat.append hv hs (container_run v _ hat.append hv (by omega))
  after_ws := hafter

/-- The rest of a member list: white space behind the last member, and more members. -/
theorem rest_reads (ms : Members) {k : ℕ} {t : Bytes} (hms : AcceptsMembers ms false t)
    (hat : At view k (ms.text ++ t)) :
    ∃ (after : Bytes) (rest : List (Member δ)), AllWs after ∧
      ms.text = after ++ (restText rest ++ [ch '}']) ∧
      ReadMembers view (k + after.length + 1) rest ∧
      ∀ data, parsedMembers ms data = SortedAssoc.assignAll data (rest.map Member.entry) := by
  cases ms with
  | close gap =>
    exact ⟨gap, [], hms.2, rfl, trivial, fun data => rfl⟩
  | member gap key pre post v ms =>
    obtain ⟨⟨after, before, hafter, hbefore, rfl⟩, hkey, hpre, hpost, hv, hms⟩ := hms
    have hat : At view k (after ++ ch ',' :: (before ++ (strText key ++ (pre ++ ch ':' :: post)) ++
        (v.text ++ (ms.text ++ t)))) := by
      simpa [Members.text] using hat
    obtain ⟨after', rest, hafter', htext, hrest, hdata⟩ :=
      rest_reads ms hms hat.append.next.append.append
    refine ⟨after, ⟨before, key, pre, post, v.text, parsed v, after'⟩ :: rest, hafter, ?_, ⟨?_, ?_⟩,
      fun data => ?_⟩
    · simp [Members.text, htext, restText, Member.text, Member.lead]
    · exact member_reads hat.append.next rfl rfl hbefore hkey hpre hpost hv (by simp [htext])
        hafter'
    · convert hrest using 1
      simp [Member.text, Member.lead]
      omega
    · rw [parsedMembers, hdata]
      rfl

/-- What `parseMap` reads is a nonempty member list between braces, each value as its own parser
reads it, and the map it returns has for each key the value of its last member. -/
theorem parseMap_memberList {m : List (Bytes × JsonPtr δ)}
    (h : parseMap view fuel k = .ok (m, j)) :
    ∃ (first : Member δ) (rest : List (Member δ)),
      view.drop k = ch '{' :: (first.text ++ (restText rest ++ ch '}' :: view.drop j)) ∧
      j ≤ view.length ∧ ReadMembers view (k + 1) (first :: rest) ∧
      ∀ key, SortedAssoc.find key m =
        SortedAssoc.find key ((first :: rest).map Member.entry).reverse := by
  have hat : At view k (view.drop k) := ⟨(lt_of_parseMap h).le, rfl⟩
  obtain ⟨ms, t, htext, hms, rfl, hj⟩ := (sound view fuel).2.2.1 hat h
  cases ms with
  | close gap => exact absurd hms.1 (by decide)
  | member before key pre post v ms =>
    obtain ⟨hbefore, hkey, hpre, hpost, hv, hms⟩ := hms
    have hat : At view (k + 1) ((before ++ (strText key ++ (pre ++ ch ':' :: post))) ++
        (v.text ++ (ms.text ++ t))) := by
      refine At.next (c := ch '{') ?_
      simpa [htext, Value.text, Members.text] using hat
    obtain ⟨after, rest, hafter, hrestText, hrest, hdata⟩ :=
      rest_reads (δ := δ) ms hms hat.append.append
    refine ⟨⟨before, key, pre, post, v.text, parsed v, after⟩, rest, ?_, hj.le,
      ⟨member_reads hat rfl rfl hbefore hkey hpre hpost hv (by simp [hrestText]) hafter, ?_⟩,
      fun name => ?_⟩
    · simp [htext, hj.drop, Value.text, Members.text, hrestText, Member.text, Member.lead]
    · convert hrest using 1
      simp [Member.text, Member.lead]
      omega
    · have hfind := SortedAssoc.find_assignAll name ([] : List (Bytes × JsonPtr δ))
        (List.map Member.entry (⟨before, key, pre, post, v.text, parsed v, after⟩ :: rest))
      rw [List.append_nil] at hfind
      rw [parsedMembers, hdata]
      exact hfind

/-- Of two members with one key the second one counts. -/
theorem parseMap_memberList_repeated_key :
    ∃ (first : Member Bytes) (rest : List (Member Bytes)),
      ascii "\x7b\"a\": 1, \"a\":2 \x7d" =
        ch '{' :: (first.text ++ (restText rest ++ ch '}' :: [])) ∧
      16 ≤ 16 ∧ ReadMembers (ascii "\x7b\"a\": 1, \"a\":2 \x7d") 1 (first :: rest) ∧
      ∀ key, SortedAssoc.find key [(ascii "a", JsonPtr.jsonInteger 2)] =
        SortedAssoc.find key ((first :: rest).map Member.entry).reverse := by
  have h : (parseMap (ascii "\x7b\"a\": 1, \"a\":2 \x7d") 34 0 :
      Except JsonError (List (Bytes × JsonPtr Bytes) × ℕ)) =
      .ok ([(ascii "a", .jsonInteger 2)], 16) := rfl
  exact parseMap_memberList h

end JsonParser

end CoUringWeb
