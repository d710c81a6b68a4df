import CoUringWeb.Utils.Split

/-!
# `stringsJoin`

The join of `include/utils.h`, with its special cases for short lists and for an empty separator.
It puts the separator between the strings (`stringsJoin_eq_intercalate`), so it undoes the split at
a delimiter that is not empty.
-/

namespace CoUringWeb

open Machine

/-- `stringsJoin(v, sv)` -/
def stringsJoin (v : List Bytes) (sv : Bytes := []) : Bytes :=
  if v.length = 0 then []
  else if v.length = 1 then v.getLastD []
  else if sv ≠ [] then (v.dropLast.flatMap fun s => s ++ sv) ++ v.getLastD []
  else v.flatten

/-- The loop over all strings but the last, and the last after it. -/
theorem flatMap_dropLast_append_getLastD (sv : Bytes) (v : List Bytes) :
    (v.dropLast.flatMap fun s => s ++ sv) ++ v.getLastD [] = sv.intercalate v := by
  induction v with
  | nil => rfl
  | cons s v ih =>
    cases v with
    | nil => simp
    | cons t v =>
      rw [List.dropLast_cons_of_ne_nil (List.cons_ne_nil t v), List.flatMap_cons,
        List.getLastD_cons, List.append_assoc, List.intercalate_cons_cons, ← ih,
        List.getLastD_cons, List.getLastD_cons]

theorem intercalate_nil_left (v : List Bytes) : ([] : Bytes).intercalate v = v.flatten := by
  induction v with
  | nil => rfl
  | cons s v ih =>
    cases v with
    | nil => simp
    | cons t v =>
      rw [List.intercalate_cons_cons, ih, List.append_nil]
      rfl

theorem stringsJoin_eq_intercalate (v : List Bytes) (sv : Bytes) :
    stringsJoin v sv = sv.intercalate v := by
  have hloop := flatMap_dropLast_append_getLastD sv v
  unfold stringsJoin
  split
  · rename_i hlength
    rw [List.length_eq_zero_iff.1 hlength, List.intercalate_nil]
  · split
    · rename_i hlength
      obtain ⟨s, rfl⟩ := List.length_eq_one_iff.1 hlength
      rw [List.intercalate_singleton]
      rfl
    · split
      · exact hloop
      · rename_i hsv
        rw [not_not.1 hsv, intercalate_nil_left]

/-- Without a limit the pieces of a text are what is between the leftmost occurrences of the
delimiter, whichever overload splits it, and joining them gives the text back. -/
theorem stringsJoin_split {str d : Bytes} (hd : 1 ≤ d.length) (hlen : d.length ≤ str.length) :
    splitToStrings str d = splitToViews str d ∧
      (∀ p ∈ splitToViews str d, ¬ d <:+: p) ∧
      (splitToViews str d).length = occurrences d str + 1 ∧
      stringsJoin (splitToStrings str d) d = str ∧
      ∀ c, d = [c] → splitToViewsChar str c = splitToViews str d ∧
        splitToStringsChar str c = splitToStrings str d := by
  have hne : d ≠ [] := List.length_pos_iff.1 hd
  have hpieces : Pieces d str (splitToViews str d) := splitToViews_pieces hne hlen
  refine ⟨rfl, hpieces.not_infix hne, hpieces.length_eq hne, ?_, ?_⟩
  · rw [stringsJoin_eq_intercalate]
    exact hpieces.intercalate_eq
  · rintro c rfl
    have hstr : str ≠ [] := List.length_pos_iff.1 (hd.trans hlen)
    have hchar : splitToViewsChar str c = splitToViews str [c] :=
      (splitToViewsChar_pieces c hstr).unique hpieces
    exact ⟨hchar, hchar⟩

/-- Overlapping occurrences, a piece that is empty, and an empty tail. -/
theorem stringsJoin_split_aaa :
    splitToStrings (ascii "aaa,aa") (ascii "aa") = splitToViews (ascii "aaa,aa") (ascii "aa") ∧
      (∀ p ∈ splitToViews (ascii "aaa,aa") (ascii "aa"), ¬ ascii "aa" <:+: p) ∧
      (splitToViews (ascii "aaa,aa") (ascii "aa")).length =
        occurrences (ascii "aa") (ascii "aaa,aa") + 1 ∧
      stringsJoin (splitToStrings (ascii "aaa,aa") (ascii "aa")) (ascii "aa") = ascii "aaa,aa" ∧
      ∀ c, ascii "aa" = [c] →
        splitToViewsChar (ascii "aaa,aa") c = splitToViews (ascii "aaa,aa") (ascii "aa") ∧
        splitToStringsChar (ascii "aaa,aa") c = splitToStrings (ascii "aaa,aa") (ascii "aa") :=
  stringsJoin_split (by decide) (by decide)

end CoUringWeb
