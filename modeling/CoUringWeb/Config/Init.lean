import CoUringWeb.Framework.Exceptions
import CoUringWeb.Json.Objects
import CoUringWeb.Json.ParserComplete
import CoUringWeb.Json.ParserSound

/-!
# `Config::init`

The configuration of `src/config.cpp` and `include/config.h`.  `init` takes the object `parse`
returns for a `JsonMap`, and each property takes the address `getData` returns for that of a
`std::string`; neither looks at `jsonBaseType`.  A cast to what the object is not fails with
`undefined`, as in the other operations on objects.

Where `parse` returns, `init` does what its callers expect exactly on the texts of
`StringProperties`, and on any other text it runs into the fault instead of an exception.
-/

namespace CoUringWeb

open Machine JsonSyntax Exceptions

variable {δ : Type}

/-! ## Casts -/

/-- What the address `getData` returns points to. -/
inductive DataPtr (δ : Type) where
  | nullptr
  | bool (data : Bool)
  | string (data : Bytes)
  | integer (data : Int64)
  | double (data : δ)
  | array (data : List (JsonPtr δ))
  | map (data : List (Bytes × JsonPtr δ))

/-- `p->getData()` -/
def JsonPtr.getData : JsonPtr δ → Except JsonFault (DataPtr δ)
  | .nullptr => .error .nullPointer
  | .jsonNull => .ok .nullptr
  | .jsonDouble data => .ok (.double data)
  | .jsonInteger data => .ok (.integer data)
  | .jsonBool data => .ok (.bool data)
  | .jsonMap data => .ok (.map data)
  | .jsonArray data => .ok (.array data)
  | .jsonString data => .ok (.string data)

/-- `*((std::string *)p)` -/
def DataPtr.castString : DataPtr δ → Except JsonFault Bytes
  | .nullptr => .error .nullPointer
  | .string data => .ok data
  | _ => .error .undefined

/-- The `data` of `*((JsonMap *)p)`. -/
def JsonPtr.castMap : JsonPtr δ → Except JsonFault (List (Bytes × JsonPtr δ))
  | .nullptr => .error .nullPointer
  | .jsonMap data => .ok data
  | _ => .error .undefined

theorem castMap_eq_ok {p : JsonPtr δ} {data : List (Bytes × JsonPtr δ)} :
    p.castMap = .ok data ↔ p = .jsonMap data := by
  cases p with
  | jsonMap m =>
    rw [JsonPtr.castMap, Except.ok.injEq, JsonPtr.jsonMap.injEq]
  | _ => exact ⟨fun h => (by cases h), fun h => (by cases h)⟩

/-- Only a JSON string can be read through the address as a `std::string`. -/
theorem getData_castString_eq_ok {p : JsonPtr δ} {s : Bytes} :
    (p.getData >>= DataPtr.castString) = .ok s ↔ p = .jsonString s := by
  cases p with
  | jsonString data =>
    constructor
    · intro h
      cases h
      rfl
    · intro h
      cases h
      rfl
  | _ => exact ⟨fun h => (by cases h), fun h => (by cases h)⟩

/-! ## The configuration -/

/-- How `init` can end other than by returning. -/
inductive ConfigError where
  /-- `throw invalid_argument(text + path)` -/
  | invalidArgument (text : String) (path : Bytes)
  | parse (e : JsonError)
  | fault (e : JsonFault)
  deriving DecidableEq

structure Config (δ : Type) where
  map_ : List (Bytes × JsonPtr δ)
  logger_file_name_ : Bytes
  logger_output_dir_ : Bytes
  http_dir_ : Bytes

namespace Config

/-- `new Config()` -/
def new : Config δ :=
  { map_ := [], logger_file_name_ := [], logger_output_dir_ := [], http_dir_ := [] }

/-- The macro `CONFIG_PROP`: the value of the property `name`. -/
def initProp (map_ : List (Bytes × JsonPtr δ)) (name default_value : Bytes) :
    Except JsonFault Bytes :=
  match SortedAssoc.find name map_ with
  | none => return default_value
  | some it => it.getData >>= DataPtr.castString

/-- The default of `logger_file_name` -/
def default_logger_file_name : Bytes := ascii "co_uring_http"

def default_logger_output_dir : Bytes := ascii "/home/zhouheng/C++/co_uring_http/log"

def default_http_dir : Bytes := ascii "/home/zhouheng/C++/co_uring_http/public"

def init_logger_file_name (c : Config δ) : Except JsonFault (Config δ) := do
  return { c with
    logger_file_name_ := ← initProp c.map_ (ascii "logger_file_name") default_logger_file_name }

def init_logger_output_dir (c : Config δ) : Except JsonFault (Config δ) := do
  return { c with
    logger_output_dir_ := ← initProp c.map_ (ascii "logger_output_dir") default_logger_output_dir }

def init_http_dir (c : Config δ) : Except JsonFault (Config δ) := do
  return { c with http_dir_ := ← initProp c.map_ (ascii "http_dir") default_http_dir }

/-- What `init` does with the parsed file. -/
def assign (c : Config δ) (temp : JsonPtr δ) : Except JsonFault (Config δ) := do
  let c := { c with map_ := ← temp.castMap }
  let c ← c.init_http_dir
  let c ← c.init_logger_file_name
  c.init_logger_output_dir

end Config

/-- `files` gives the bytes of a file that can be opened. -/
def readTextFile (files : Bytes → Option Bytes) (path : Bytes) : Except ConfigError Bytes :=
  match files path with
  | none => .error (.invalidArgument "没有这个文件: " path)
  | some content => .ok content

namespace Config

variable [StreamDouble δ]

/-- `init` on the instance `c`. -/
def init (c : Config δ) (files : Bytes → Option Bytes) (config_file : Bytes) :
    Except ConfigError (Config δ) :=
  if config_file = [] then .ok c
  else do
    let content ← readTextFile files config_file
    let temp ← (JsonParser.parse content).mapError .parse
    (c.assign temp).mapError .fault

end Config

/-! ## What the properties should be -/

/-- `s` is what the members bind to `name`: a string, or the default when there is no such name. -/
def Reads (map_ : List (Bytes × JsonPtr δ)) (name default_value s : Bytes) : Prop :=
  SortedAssoc.find name map_ = some (.jsonString s) ∨
    SortedAssoc.find name map_ = none ∧ s = default_value

theorem exists_reads_iff {map_ : List (Bytes × JsonPtr δ)} {name default_value : Bytes} :
    (∃ s, Reads map_ name default_value s) ↔
      ∀ p, SortedAssoc.find name map_ = some p → ∃ s, p = .jsonString s := by
  cases h : SortedAssoc.find name map_ with
  | none => exact ⟨fun _ p hp => (by cases hp), fun _ => ⟨default_value, Or.inr ⟨h, rfl⟩⟩⟩
  | some p =>
    constructor
    · rintro ⟨s, hs | ⟨hnone, -⟩⟩ q hq
      · exact ⟨s, Option.some.inj (hq.symm.trans (h.symm.trans hs))⟩
      · exact absurd (h.symm.trans hnone) (Option.some_ne_none p)
    · intro hstring
      obtain ⟨s, rfl⟩ := hstring p rfl
      exact ⟨s, Or.inl h⟩

/-- The object `p` is a map, and the configuration holds what it binds to the properties. -/
structure Configured (p : JsonPtr δ) (c : Config δ) : Prop where
  isMap : p = .jsonMap c.map_
  http_dir : Reads c.map_ (ascii "http_dir") Config.default_http_dir c.http_dir_
  logger_file_name :
    Reads c.map_ (ascii "logger_file_name") Config.default_logger_file_name c.logger_file_name_
  logger_output_dir :
    Reads c.map_ (ascii "logger_output_dir") Config.default_logger_output_dir c.logger_output_dir_

/-- The names of the properties. -/
def propNames : List Bytes :=
  [ascii "http_dir", ascii "logger_file_name", ascii "logger_output_dir"]

theorem exists_configured_iff {p : JsonPtr δ} :
    (∃ c, Configured p c) ↔ ∃ data, p = .jsonMap data ∧
      ∀ name ∈ propNames, ∀ q, SortedAssoc.find name data = some q → ∃ s, q = .jsonString s := by
  simp only [propNames, List.forall_mem_cons]
  constructor
  · rintro ⟨c, rfl, hdir, hfile, hout⟩
    exact ⟨c.map_, rfl, exists_reads_iff.1 ⟨_, hdir⟩, exists_reads_iff.1 ⟨_, hfile⟩,
      exists_reads_iff.1 ⟨_, hout⟩, fun _ h => (by cases h)⟩
  · rintro ⟨data, rfl, hdir, hfile, hout, -⟩
    obtain ⟨dir, hdir⟩ := exists_reads_iff.2 hdir
    obtain ⟨file, hfile⟩ := exists_reads_iff.2 hfile
    obtain ⟨out, hout⟩ := exists_reads_iff.2 hout
    exact ⟨⟨data, file, out, dir⟩, rfl, hdir, hfile, hout⟩

/-- The call throws an exception that its caller can catch. -/
def Reported (result : Except ConfigError (Config δ)) : Prop :=
  ∃ e, result = .error e ∧ ∀ f, e ≠ .fault f

/-- What a type-safe `init` does with the object `p`: it takes over an object whose properties are
strings, and reports anything else. -/
def TypeSafe (p : JsonPtr δ) (result : Except ConfigError (Config δ)) : Prop :=
  (∃ c, result = .ok c ∧ Configured p c) ∨ (¬ ∃ c, Configured p c) ∧ Reported result

theorem not_typeSafe_of_fault (p : JsonPtr δ) (e : JsonFault) :
    ¬ TypeSafe p (.error (.fault e)) := by
  rintro (⟨c, hok, -⟩ | ⟨-, e', herror, hfault⟩)
  · cases hok
  · cases herror
    exact hfault e rfl

namespace Config

theorem initProp_eq_ok {map_ : List (Bytes × JsonPtr δ)} {name default_value s : Bytes} :
    initProp map_ name default_value = .ok s ↔ Reads map_ name default_value s := by
  unfold initProp Reads
  cases h : SortedAssoc.find name map_ with
  | none =>
    rw [pure_eq_ok]
    simp [eq_comm]
  | some p => simp [getData_castString_eq_ok]

/-- `init` gets through with a parsed file exactly when it is an object whose properties are
strings; what it leaves does not depend on the configuration before. -/
theorem assign_eq_ok {c c' : Config δ} {p : JsonPtr δ} :
    c.assign p = .ok c' ↔ Configured p c' := by
  simp only [assign, init_http_dir, init_logger_file_name, init_logger_output_dir, bind_eq_ok,
    pure_eq_ok, castMap_eq_ok, initProp_eq_ok]
  constructor
  · rintro ⟨data, rfl, _, ⟨dir, hdir, rfl⟩, _, ⟨file, hfile, rfl⟩, out, hout, rfl⟩
    exact ⟨rfl, hdir, hfile, hout⟩
  · rintro ⟨rfl, hdir, hfile, hout⟩
    exact ⟨_, rfl, _, ⟨_, hdir, rfl⟩, _, ⟨_, hfile, rfl⟩, _, hout, rfl⟩

theorem typeSafe_assign_iff (c : Config δ) (p : JsonPtr δ) :
    TypeSafe p ((c.assign p).mapError .fault) ↔ ∃ c', Configured p c' := by
  cases h : c.assign p with
  | ok c' =>
    have hc' : Configured p c' := assign_eq_ok.1 h
    exact ⟨fun _ => ⟨c', hc'⟩, fun _ => Or.inl ⟨c', rfl, hc'⟩⟩
  | error e =>
    refine ⟨fun hsafe => absurd hsafe (not_typeSafe_of_fault p e), ?_⟩
    rintro ⟨c', hc'⟩
    have hok : c.assign p = .ok c' := assign_eq_ok.2 hc'
    cases h.symm.trans hok

end Config

/-! ## Texts -/

namespace JsonParser

/-- The last value among the members whose name the parser reads as `k`. -/
def lastValue (k : Bytes) : Members → Option Value
  | .close _ => none
  | .member _ key _ _ v rest =>
    (lastValue k rest).or (if k = itemsBytes key then some v else none)

variable [StreamDouble δ]

theorem find_parsedMembers (k : Bytes) (ms : Members) (data : List (Bytes × JsonPtr δ)) :
    SortedAssoc.find k (parsedMembers ms data) =
      ((lastValue k ms).map parsed).or (SortedAssoc.find k data) := by
  match ms with
  | .close gap => simp [parsedMembers, lastValue]
  | .member gap key pre post v rest =>
    rw [parsedMembers, find_parsedMembers k rest, lastValue, SortedAssoc.find_insertOrAssign_eq_or,
      Option.map_or, Option.or_assoc]
    split <;> rfl

/-- Only string literals become strings. -/
theorem exists_parsed_eq_jsonString_iff (v : Value) :
    (∃ s, (parsed v : JsonPtr δ) = .jsonString s) ↔ ∃ items, v = .str items := by
  cases v with
  | str items => exact ⟨fun _ => ⟨items, rfl⟩, fun _ => ⟨itemsBytes items, by rw [parsed]⟩⟩
  | num tok =>
    rw [parsed, numValue]
    split <;> simp
  | _ => simp [parsed]

theorem parsed_eq_jsonMap_iff {v : Value} {data : List (Bytes × JsonPtr δ)} :
    parsed v = .jsonMap data ↔ ∃ ms, v = .obj ms ∧ parsedMembers ms [] = data := by
  cases v with
  | obj ms => simp [parsed]
  | num tok =>
    rw [parsed, numValue]
    split <;> simp
  | _ => simp [parsed]

end JsonParser

open JsonParser

/-- The text is a JSON object in which every property that has a value has a string literal for its
last one. -/
def StringProperties (content : Bytes) : Prop :=
  ∃ (r : Reading) (ms : Members), r.text = content ∧ r.root = .obj ms ∧
    ∀ name ∈ propNames, ∀ v, lastValue name ms = some v → ∃ items, v = .str items

variable [StreamDouble δ]

theorem exists_configured_parsed_iff (ms : Members) :
    (∃ c, Configured (parsed (.obj ms) : JsonPtr δ) c) ↔
      ∀ name ∈ propNames, ∀ v, lastValue name ms = some v → ∃ items, v = .str items := by
  have hfind (name : Bytes) :
      SortedAssoc.find name (parsedMembers ms [] : List (Bytes × JsonPtr δ)) =
        (lastValue name ms).map parsed := by
    rw [find_parsedMembers]
    simp [SortedAssoc.find]
  rw [parsed, exists_configured_iff]
  constructor
  · rintro ⟨data, hdata, hstrings⟩ name hname v hv
    rw [← JsonPtr.jsonMap.inj hdata] at hstrings
    refine (exists_parsed_eq_jsonString_iff (δ := δ) v).1 (hstrings name hname _ ?_)
    rw [hfind, hv, Option.map_some]
  · intro hstrings
    refine ⟨_, rfl, fun name hname q hq => ?_⟩
    rw [hfind] at hq
    obtain ⟨v, hv, rfl⟩ := Option.map_eq_some_iff.1 hq
    exact (exists_parsed_eq_jsonString_iff v).2 (hstrings name hname v hv)

/-- Where `parse` returns, there is a configuration to take over exactly on these texts. -/
theorem exists_configured_parse_iff {content : Bytes} {p : JsonPtr δ}
    (h : parse content = .ok p) : (∃ c, Configured p c) ↔ StringProperties content := by
  constructor
  · rintro ⟨c, hc⟩
    rcases parseFrom_eq_ok At.zero h with ⟨-, rfl⟩ | ⟨r, hr, rfl⟩
    · cases hc.isMap
    · obtain ⟨ms, hroot, -⟩ := parsed_eq_jsonMap_iff.1 hc.isMap
      rw [hroot] at hc
      exact ⟨r, ms, hr, hroot, (exists_configured_parsed_iff ms).1 ⟨c, hc⟩⟩
  · rintro ⟨r, ms, rfl, hroot, hstrings⟩
    obtain rfl : parsed r.root = p := Except.ok.inj ((parse_text r).symm.trans h)
    rw [hroot]
    exact (exists_configured_parsed_iff ms).2 hstrings

namespace Config

theorem init_eq_assign {files : Bytes → Option Bytes} {config_file content : Bytes} (c : Config δ)
    {p : JsonPtr δ} (hne : config_file ≠ []) (hfile : files config_file = some content)
    (h : parse content = .ok p) : c.init files config_file = (c.assign p).mapError .fault := by
  rw [init, if_neg hne, readTextFile, hfile]
  dsimp only
  rw [ok_bind, h, Except.mapError, ok_bind]

/-- `init` is type-safe on exactly the texts that are objects whose properties are strings. -/
theorem init_typeSafe_iff {files : Bytes → Option Bytes} {config_file content : Bytes}
    (c : Config δ) {p : JsonPtr δ} (hne : config_file ≠ [])
    (hfile : files config_file = some content) (h : parse content = .ok p) :
    TypeSafe p (c.init files config_file) ↔ StringProperties content := by
  rw [init_eq_assign c hne hfile h, typeSafe_assign_iff, exists_configured_parse_iff h]

theorem init_typeSafe_iff_http_dir :
    TypeSafe (.jsonMap [(ascii "http_dir", .jsonString (ascii "/srv"))] : JsonPtr Bytes)
      (Config.new.init (fun _ => some (ascii "\x7b\"http_dir\":\"/srv\"\x7d"))
        (ascii "config.json")) ↔
      StringProperties (ascii "\x7b\"http_dir\":\"/srv\"\x7d") :=
  init_typeSafe_iff Config.new (by decide) rfl rfl

/-- A number is read as a `std::string`, a `null` through a null pointer, and the object of a blank
file as a `JsonMap`. -/
theorem init_faults :
    (parse (ascii "\x7b\"http_dir\":8080\x7d") =
        .ok (.jsonMap [(ascii "http_dir", .jsonInteger 8080)] : JsonPtr Bytes) ∧
      (Config.new : Config Bytes).init (fun _ => some (ascii "\x7b\"http_dir\":8080\x7d"))
        (ascii "config.json") = .error (.fault .undefined) ∧
      ¬ TypeSafe (.jsonMap [(ascii "http_dir", .jsonInteger 8080)] : JsonPtr Bytes)
        (Config.new.init (fun _ => some (ascii "\x7b\"http_dir\":8080\x7d"))
          (ascii "config.json"))) ∧
    ((Config.new : Config Bytes).init (fun _ => some (ascii "\x7b\"http_dir\":null\x7d"))
        (ascii "config.json") = .error (.fault .nullPointer) ∧
      (Config.new : Config Bytes).init (fun _ => some (ascii " ")) (ascii "config.json") =
        .error (.fault .undefined)) := by
  have hnumber : (Config.new : Config Bytes).init
      (fun _ => some (ascii "\x7b\"http_dir\":8080\x7d")) (ascii "config.json") =
      .error (.fault .undefined) := rfl
  refine ⟨⟨rfl, hnumber, ?_⟩, rfl, rfl⟩
  rw [hnumber]
  exact not_typeSafe_of_fault _ _

end Config

end CoUringWeb
