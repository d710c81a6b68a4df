import CoUringWeb.Framework.LexicalPath
import CoUringWeb.Http.Request

/-!
# The path `static_web_http` opens

`static_web_http` appends the URL of an accepted request to the configured `http_dir` and opens the
result.  Appending is `operator/` of `std::filesystem::path` on POSIX: an absolute right side
replaces the left one, otherwise a separator goes between unless the left side is empty or ends
with one.  `open` gets a C string, so it sees the path up to its first NUL, and resolves `.` and
`..`; `locate` is the lexical normal form of what it sees.

`getUrl` takes one leading slash off, so that the path stays relative to `http_dir`.
`opened_inside_iff` says for which URLs that is enough: a URL that still starts with a slash
replaces `http_dir`, and one that climbs has to come back down through the names of `http_dir`.
-/

namespace CoUringWeb

open Machine LexicalPath

/-! ## Paths as bytes -/

namespace Path

/-- `is_absolute` -/
def isAbsolute (p : Bytes) : Bool := p.head? == some (ch '/')

/-- `has_filename` -/
def hasFilename (p : Bytes) : Bool := p != [] && p.getLast? != some (ch '/')

/-- `a / b` -/
def append (a b : Bytes) : Bytes :=
  if isAbsolute b then b else if hasFilename a then a ++ ch '/' :: b else a ++ b

/-- What a callee sees of `p.c_str()`. -/
def cStr (p : Bytes) : Bytes := p.takeWhile fun c => c ≠ 0

/-- The segment between two separators; doubled separators count once. -/
def toSeg (s : Bytes) : Option (Seg Bytes) :=
  if s = [] then none
  else if s = ascii "." then some .cur
  else if s = ascii ".." then some .up
  else some (.name s)

def segments (p : Bytes) : List (Seg Bytes) :=
  (p.splitOnP fun c => c == ch '/').filterMap toSeg

/-- The lexical normal form of a path. -/
def locate (p : Bytes) : Location Bytes :=
  (if isAbsolute p then Location.root else Location.here).resolve (segments p)

/-! ### The segments of an appended path -/

theorem segments_append_slash (a b : Bytes) :
    segments (a ++ ch '/' :: b) = segments a ++ segments b := by
  rw [segments, List.splitOnP_append_cons _ _ (by simp), List.filterMap_append]
  rfl

theorem segments_nil : segments [] = [] := rfl

/-- A left side without a file name is empty or ends with a separator. -/
theorem eq_of_not_hasFilename {a : Bytes} (h : hasFilename a = false) :
    a = [] ∨ ∃ a', a = a' ++ [ch '/'] := by
  rcases List.eq_nil_or_concat a with rfl | ⟨a', c, rfl⟩
  · exact Or.inl rfl
  · refine Or.inr ⟨a', ?_⟩
    have hc : c = ch '/' := by simpa [hasFilename] using h
    rw [hc, List.concat_eq_append]

theorem append_of_isAbsolute {b : Bytes} (hb : isAbsolute b = true) (a : Bytes) :
    append a b = b := if_pos hb

theorem append_of_not_isAbsolute {b : Bytes} (hb : isAbsolute b = false) (a : Bytes) :
    append a b = if hasFilename a then a ++ ch '/' :: b else a ++ b :=
  if_neg (by simp [hb])

theorem segments_append {b : Bytes} (hb : isAbsolute b = false) (a : Bytes) :
    segments (append a b) = segments a ++ segments b := by
  rw [append_of_not_isAbsolute hb]
  split
  · exact segments_append_slash a b
  · rename_i hname
    rcases eq_of_not_hasFilename (by simpa using hname) with rfl | ⟨a', rfl⟩
    · rfl
    · rw [List.append_assoc, List.singleton_append, segments_append_slash, segments_append_slash,
        segments_nil, List.append_nil]

theorem isAbsolute_append {b : Bytes} (hb : isAbsolute b = false) (a : Bytes) :
    isAbsolute (append a b) = isAbsolute a := by
  rw [append_of_not_isAbsolute hb]
  cases a with
  | nil => simpa [hasFilename, isAbsolute] using hb
  | cons c a => split <;> rfl

theorem locate_append {b : Bytes} (hb : isAbsolute b = false) (a : Bytes) :
    locate (append a b) = (locate a).resolve (segments b) := by
  rw [locate, locate, isAbsolute_append hb, segments_append hb, Location.resolve_append]

/-! ### The path up to its first NUL -/

theorem cStr_cons (c : UInt8) (p : Bytes) : cStr (c :: p) = if c = 0 then [] else c :: cStr p := by
  by_cases hc : c = 0 <;> simp [cStr, hc]

theorem isAbsolute_cStr (p : Bytes) : isAbsolute (cStr p) = isAbsolute p := by
  cases p with
  | nil => rfl
  | cons c p =>
    rw [cStr_cons]
    split
    · rename_i hc
      subst hc
      rfl
    · rfl

/-- A NUL on the left hides the right side. -/
theorem cStr_append_of_mem {a : Bytes} (h : (0 : UInt8) ∈ a) (b : Bytes) :
    cStr (a ++ b) = cStr a := by
  induction a with
  | nil => cases h
  | cons c a ih =>
    rw [List.cons_append, cStr_cons, cStr_cons]
    split
    · rfl
    · rename_i hc
      have hmem : (0 : UInt8) ∈ a := (List.mem_cons.1 h).resolve_left fun h0 => hc h0.symm
      rw [ih hmem]

theorem cStr_append {a : Bytes} (h : (0 : UInt8) ∉ a) (b : Bytes) :
    cStr (a ++ b) = a ++ cStr b := by
  induction a with
  | nil => rfl
  | cons c a ih =>
    rw [List.mem_cons, not_or] at h
    rw [List.cons_append, cStr_cons, if_neg fun h0 => h.1 h0.symm, ih h.2]
    rfl

theorem cStr_of_not_mem {p : Bytes} (h : (0 : UInt8) ∉ p) : cStr p = p := by
  have hp := cStr_append h []
  rwa [List.append_nil, show cStr [] = [] from rfl, List.append_nil] at hp

end Path

/-! ## The opened path -/

open CoUringWeb.Path

/-- The path passed to `open`, as `open` sees it, when the request `raw` is accepted. -/
def openedPath (httpDir raw : Bytes) : Option Bytes :=
  (HttpRequest.fromRawData raw).map fun req => cStr (append httpDir req.getUrl)

/-- When the URL keeps the opened path inside `httpDir`.  Both are read up to their first NUL; a NUL
in `httpDir` hides a relative URL altogether. -/
def UrlContained (httpDir url : Bytes) : Prop :=
  let dir := locate (cStr httpDir)
  if isAbsolute url then dir.rooted = true ∧ dir.names <+: (locate (cStr url)).names
  else if 0 ∈ httpDir then True
  else
    let target := Location.here.resolve (segments (cStr url))
    dir.names.drop (dir.names.length - target.ups) <+: target.names ∧
      (dir.rooted = true ∨ target.ups ≤ dir.names.length)

instance (httpDir url : Bytes) : Decidable (UrlContained httpDir url) := by
  unfold UrlContained; infer_instance

theorem locate_rooted (p : Bytes) : (locate p).rooted = isAbsolute p := by
  rw [locate, Location.resolve_rooted]
  cases isAbsolute p <;> rfl

/-- An absolute path has no climb left. -/
theorem locate_ups {p : Bytes} (h : isAbsolute p = true) : (locate p).ups = 0 := by
  rw [locate, if_pos h, Location.resolve_ups rfl]
  rfl

theorem inside_append_iff (httpDir url : Bytes) :
    Location.Inside (locate (cStr httpDir)) (locate (cStr (append httpDir url))) ↔
      UrlContained httpDir url := by
  unfold UrlContained
  dsimp only
  by_cases hurl : isAbsolute url
  · have hrooted : (locate (cStr url)).rooted = true := by
      rw [locate_rooted, isAbsolute_cStr, hurl]
    have hups : (locate (cStr url)).ups = 0 := locate_ups (by rw [isAbsolute_cStr, hurl])
    rw [if_pos hurl, append_of_isAbsolute hurl, Location.Inside, hrooted, hups]
    constructor
    · rintro ⟨hdir, -, hnames⟩
      exact ⟨hdir.symm, hnames⟩
    · rintro ⟨hdir, hnames⟩
      refine ⟨hdir.symm, (locate_ups ?_).symm, hnames⟩
      rwa [locate_rooted] at hdir
  · have hurl' : isAbsolute url = false := by simpa using hurl
    rw [if_neg hurl]
    by_cases hnul : (0 : UInt8) ∈ httpDir
    · rw [if_pos hnul, iff_true]
      have hopened : cStr (append httpDir url) = cStr httpDir := by
        rw [append_of_not_isAbsolute hurl']
        split <;> exact cStr_append_of_mem hnul _
      rw [hopened]
      exact Location.inside_refl _
    · rw [if_neg hnul]
      have hurl'' : isAbsolute (cStr url) = false := (isAbsolute_cStr url).trans hurl'
      have hopened : cStr (append httpDir url) = append httpDir (cStr url) := by
        rw [append_of_not_isAbsolute hurl', append_of_not_isAbsolute hurl'']
        split
        · rw [cStr_append hnul]
          rfl
        · exact cStr_append hnul url
      rw [hopened, cStr_of_not_mem hnul, locate_append hurl'' httpDir]
      exact Location.inside_resolve_iff _ _

/-- The path opened for an accepted request is inside `http_dir` if and only if the request's URL
is contained. -/
theorem opened_inside_iff {httpDir raw : Bytes} {req : HttpRequest}
    (h : HttpRequest.fromRawData raw = some req) :
    (∀ path, openedPath httpDir raw = some path →
      Location.Inside (locate (cStr httpDir)) (locate path)) ↔
      UrlContained httpDir req.getUrl := by
  rw [← inside_append_iff, openedPath, h]
  constructor
  · intro hpath
    exact hpath _ rfl
  · rintro hinside path hpath
    cases hpath
    exact hinside

theorem opened_inside_iff_index :
    (∀ path, openedPath (ascii "/srv/www") (ascii "GET / HTTP/1.1\r\n\r\n") = some path →
      Location.Inside (locate (cStr (ascii "/srv/www"))) (locate path)) ↔
      UrlContained (ascii "/srv/www") (ascii "index.html") :=
  have hreq : HttpRequest.fromRawData (ascii "GET / HTTP/1.1\r\n\r\n") =
      some { url_ := ascii "/", method_ := .GET, version_ := .V11 } := rfl
  opened_inside_iff hreq

/-- A URL that climbs, and one with a doubled slash, leave `http_dir`. -/
theorem opened_outside :
    (∃ path, openedPath (ascii "/srv/www") (ascii "GET /../key HTTP/1.1\r\n\r\n") = some path ∧
      ¬ Location.Inside (locate (cStr (ascii "/srv/www"))) (locate path)) ∧
    ∃ path, openedPath (ascii "/srv/www") (ascii "GET //etc/passwd HTTP/1.1\r\n\r\n") = some path ∧
      ¬ Location.Inside (locate (cStr (ascii "/srv/www"))) (locate path) :=
  ⟨⟨_, rfl, by decide⟩, ⟨_, rfl, by decide⟩⟩

end CoUringWeb
