import Mathlib.Data.List.Basic
import Mathlib.Data.List.Induction

/-!
# Lexical normal forms of paths

A path is a list of segments: `.`, `..`, or a name.  `Location` is what is left of a path when the
dots are resolved without looking at a file system: whether it starts at the root, how many levels
it climbs above its starting point, and the names it then descends through.  At the root `..` has
no effect.

`resolve_eq` splits the resolution of a path from a location into the climb and the descent of the
path's own normal form.  `inside_resolve_iff` uses it to say when a path followed from a location
ends inside that location: after the climb it has to come back down through the names it left.
-/

namespace LexicalPath

variable {ν : Type*}

/-- A segment between two separators. -/
inductive Seg (ν : Type*) where
  | cur
  | up
  | name (n : ν)
  deriving DecidableEq

/-- A lexical normal form: `ups` times `..`, then `names`; from the root if `rooted`. -/
structure Location (ν : Type*) where
  rooted : Bool
  ups : ℕ
  names : List ν
  deriving DecidableEq

namespace Location

/-- The root directory. -/
def root : Location ν := { rooted := true, ups := 0, names := [] }

/-- The current directory. -/
def here : Location ν := { rooted := false, ups := 0, names := [] }

/-- Follows one segment. -/
def follow (l : Location ν) : Seg ν → Location ν
  | .cur => l
  | .up =>
    if l.names = [] then if l.rooted then l else { l with ups := l.ups + 1 }
    else { l with names := l.names.dropLast }
  | .name n => { l with names := l.names ++ [n] }

/-- Follows a list of segments. -/
def resolve (l : Location ν) (segs : List (Seg ν)) : Location ν := segs.foldl follow l

/-- Climbs `m` levels. -/
def climb (l : Location ν) (m : ℕ) : Location ν :=
  if m ≤ l.names.length then { l with names := l.names.take (l.names.length - m) }
  else if l.rooted then { l with names := [] }
  else { l with ups := l.ups + (m - l.names.length), names := [] }

/-- Descends through names. -/
def descend (l : Location ν) (names : List ν) : Location ν :=
  { l with names := l.names ++ names }

/-- `l` is `base` or below it. -/
def Inside (base l : Location ν) : Prop :=
  l.rooted = base.rooted ∧ l.ups = base.ups ∧ base.names <+: l.names

instance [DecidableEq ν] (base l : Location ν) : Decidable (Inside base l) := by
  unfold Inside; infer_instance

theorem inside_refl (l : Location ν) : Inside l l := ⟨rfl, rfl, List.prefix_rfl⟩

/-! ## Following segments -/

@[simp] theorem resolve_nil (l : Location ν) : l.resolve [] = l := rfl

theorem resolve_append (l : Location ν) (p q : List (Seg ν)) :
    l.resolve (p ++ q) = (l.resolve p).resolve q := List.foldl_append

theorem resolve_concat (l : Location ν) (p : List (Seg ν)) (s : Seg ν) :
    l.resolve (p ++ [s]) = (l.resolve p).follow s := by
  rw [resolve_append]
  rfl

theorem follow_rooted (l : Location ν) (s : Seg ν) : (l.follow s).rooted = l.rooted := by
  cases s with
  | cur => rfl
  | name n => rfl
  | up =>
    unfold follow
    dsimp only
    split
    · split <;> rfl
    · rfl

theorem resolve_rooted (l : Location ν) (segs : List (Seg ν)) :
    (l.resolve segs).rooted = l.rooted := by
  induction segs using List.reverseRecOn with
  | nil => rfl
  | append_singleton segs s ih => rw [resolve_concat, follow_rooted, ih]

/-- A rooted location never climbs. -/
theorem resolve_ups {l : Location ν} (hl : l.rooted = true) (segs : List (Seg ν)) :
    (l.resolve segs).ups = l.ups := by
  induction segs using List.reverseRecOn with
  | nil => rfl
  | append_singleton segs s ih =>
    have hrooted := (resolve_rooted l segs).trans hl
    rw [resolve_concat, ← ih]
    cases s with
    | cur => rfl
    | name n => rfl
    | up =>
      unfold follow
      dsimp only
      rw [if_pos hrooted]
      split <;> rfl

/-! ## Climb and descent -/

@[simp] theorem climb_zero (l : Location ν) : l.climb 0 = l := by
  simp [climb]

theorem climb_succ (l : Location ν) (m : ℕ) : l.climb (m + 1) = (l.climb m).follow .up := by
  unfold climb follow
  dsimp only
  by_cases hle : m + 1 ≤ l.names.length
  · have hne : l.names.take (l.names.length - m) ≠ [] := by
      rw [ne_eq, List.take_eq_nil_iff]
      rintro (h | h)
      · omega
      · rw [h] at hle
        simp at hle
    have htake : (l.names.take (l.names.length - m)).dropLast =
        l.names.take (l.names.length - (m + 1)) := by
      rw [List.dropLast_eq_take, List.take_take, List.length_take]
      congr 1
      omega
    rw [if_pos hle, if_pos (by omega : m ≤ l.names.length), if_neg hne, htake]
  · rw [if_neg hle]
    by_cases hm : m ≤ l.names.length
    · have hlen : m = l.names.length := by omega
      rw [if_pos hm, hlen]
      simp
    · rw [if_neg hm]
      cases hrooted : l.rooted
      · simp only [Bool.false_eq_true, if_false, if_true]
        congr 1
        omega
      · simp

theorem descend_follow_up {l : Location ν} {names : List ν} (h : names ≠ []) :
    (l.descend names).follow .up = l.descend names.dropLast := by
  simp [descend, follow, h, List.dropLast_append_of_ne_nil]

/-- Following a path is its own climb and then its own descent. -/
theorem resolve_eq (l : Location ν) (segs : List (Seg ν)) :
    l.resolve segs = (l.climb (here.resolve segs).ups).descend (here.resolve segs).names := by
  induction segs using List.reverseRecOn with
  | nil => simp [here, descend]
  | append_singleton segs s ih =>
    rw [resolve_concat, resolve_concat, ih]
    have hrooted : (here.resolve segs : Location ν).rooted = false := resolve_rooted here segs
    generalize here.resolve segs = rel at hrooted
    cases s with
    | cur => rfl
    | name n => simp [descend, follow]
    | up =>
      by_cases hnames : rel.names = []
      · have hfollow : rel.follow .up = { rel with ups := rel.ups + 1 } := by
          simp [follow, hnames, hrooted]
        rw [hfollow, climb_succ]
        simp [descend, hnames]
      · have hfollow : rel.follow .up = { rel with names := rel.names.dropLast } := by
          simp [follow, hnames]
        rw [hfollow, descend_follow_up hnames]

/-- A path followed from `base` ends inside `base` exactly when its normal form descends again
through the names it climbed out of, and it does not climb above the start of a `base` that is not
rooted. -/
theorem inside_resolve_iff (base : Location ν) (segs : List (Seg ν)) :
    Inside base (base.resolve segs) ↔
      base.names.drop (base.names.length - (here.resolve segs).ups) <+: (here.resolve segs).names ∧
        (base.rooted = true ∨ (here.resolve segs).ups ≤ base.names.length) := by
  rw [resolve_eq]
  generalize here.resolve segs = rel
  by_cases hle : rel.ups ≤ base.names.length
  · have hsplit : base.names.take (base.names.length - rel.ups) ++
        base.names.drop (base.names.length - rel.ups) = base.names := List.take_append_drop _ _
    have hprefix : base.names <+: base.names.take (base.names.length - rel.ups) ++ rel.names ↔
        base.names.drop (base.names.length - rel.ups) <+: rel.names := by
      have hinj := @List.prefix_append_right_inj ν (base.names.drop (base.names.length - rel.ups))
        rel.names (base.names.take (base.names.length - rel.ups))
      rwa [hsplit] at hinj
    simp [Inside, climb, descend, hle, hprefix]
  · have hdrop : base.names.length - rel.ups = 0 := by omega
    cases hrooted : base.rooted
    · have hups : rel.ups - base.names.length ≠ 0 := by omega
      simp [Inside, climb, descend, hle, hrooted, hups]
    · simp [Inside, climb, descend, hle, hrooted, hdrop]

end Location

end LexicalPath
