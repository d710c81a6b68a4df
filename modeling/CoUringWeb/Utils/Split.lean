import CoUringWeb.Framework.Machine
import CoUringWeb.Framework.Pieces

/-!
# `splitToViews` and `splitToStrings`

The two overloads of each in `include/utils.h`.  They differ in how a delimiter is recognised at an
index and in its width; the loop is `splitLoop` with these two.  Texts are shorter than `2 ^ 31`
bytes, so the positions are numbers here, and so is the limit, which starts at `-1` or above and
goes down by one for each piece.  Without a limit the loop gives the pieces between the leftmost
occurrences of the delimiter (`splitLoop_pieces`), and with one the first of them
(`splitLoop_take`).
-/

namespace CoUringWeb

open Machine

/-- `str.substr(point, n)` for a `point` within the text. -/
def substrView (str : Bytes) (point n : ℕ) : Bytes := (str.drop point).take n

/-- The loop and the piece after it.  `hit i` says that the delimiter is at `i`; the fuel is more
than what is left of the text. -/
def splitLoop (str : Bytes) (hit : ℕ → Bool) (width : ℕ) : ℕ → ℕ → ℕ → ℤ → List Bytes
  | 0, _, _, _ => []
  | fuel + 1, i, point, maxsplit =>
    if i < str.length then
      if maxsplit ≠ 0 then
        if hit i then
          substrView str point (i - point) ::
            splitLoop str hit width fuel (i + width) (i + width) (maxsplit - 1)
        else splitLoop str hit width fuel (i + 1) point maxsplit
      else []
    else if maxsplit ≠ 0 ∧ point ≤ str.length then [substrView str point (str.length - point)]
    else []

/-- `splitToViews(str, delimiter, maxsplit)` for a string `delimiter` -/
def splitToViews (str delimiter : Bytes) (maxsplit : ℤ := -1) : List Bytes :=
  if maxsplit = 0 ∨ str.length < delimiter.length ∨ str.length = 0 ∨ delimiter.length = 0 then []
  else
    splitLoop str (fun i => substrView str i delimiter.length = delimiter) delimiter.length
      (str.length + 1) 0 0 maxsplit

/-- `splitToViews(str, delimiter, maxsplit)` for a character `delimiter` -/
def splitToViewsChar (str : Bytes) (delimiter : UInt8) (maxsplit : ℤ := -1) : List Bytes :=
  if maxsplit = 0 ∨ str.length = 0 then []
  else splitLoop str (fun i => str[i]? = some delimiter) 1 (str.length + 1) 0 0 maxsplit

/-- `splitToStrings(str, delimiter, maxsplit)` for a string `delimiter` -/
def splitToStrings (str delimiter : Bytes) (maxsplit : ℤ := -1) : List Bytes :=
  if maxsplit = 0 ∨ str.length < delimiter.length ∨ str.length = 0 ∨ delimiter.length = 0 then []
  else
    splitLoop str (fun i => substrView str i delimiter.length = delimiter) delimiter.length
      (str.length + 1) 0 0 maxsplit

/-- `splitToStrings(str, delimiter, maxsplit)` for a character `delimiter` -/
def splitToStringsChar (str : Bytes) (delimiter : UInt8) (maxsplit : ℤ := -1) : List Bytes :=
  if maxsplit = 0 ∨ str.length = 0 then []
  else splitLoop str (fun i => str[i]? = some delimiter) 1 (str.length + 1) 0 0 maxsplit

/-! ## The pieces -/

/-- The loop without a limit.  What is left is looked at from `point` on, and the delimiter does not
occur between `point` and `i`. -/
theorem splitLoop_pieces {str d : Bytes} {hit : ℕ → Bool} (hd : d ≠ [])
    (hhit : ∀ i, i < str.length → (hit i = true ↔ d <+: str.drop i))
    {fuel i point : ℕ} {maxsplit : ℤ} (hfuel : str.length < fuel + i) (hpoint : point ≤ i)
    (hi : i ≤ str.length) (hmax : maxsplit < 0)
    (hnone : ∀ j, point ≤ j → j < i → ¬ d <+: str.drop j) :
    Pieces d (str.drop point) (splitLoop str hit d.length fuel i point maxsplit) := by
  induction fuel generalizing i point maxsplit with
  | zero => omega
  | succ fuel ih =>
    have hdpos : 0 < d.length := List.length_pos_iff.2 hd
    rw [splitLoop]
    split
    · rename_i hlt
      rw [if_pos (by omega)]
      split
      · rename_i hmatch
        obtain ⟨t, ht⟩ := (hhit i hlt).1 hmatch
        have hlen := congrArg List.length ht
        rw [List.length_append, List.length_drop] at hlen
        have hrest : str.drop (i + d.length) = t := by
          rw [← List.drop_drop, ← ht, List.drop_left]
        have hdrop : str.drop i = (str.drop point).drop (i - point) := by
          rw [List.drop_drop, Nat.add_sub_cancel' hpoint]
        refine Pieces.cut (t := t) ?_ (fun j hj => ?_) ?_
        · rw [substrView, ht, hdrop, List.take_append_drop]
        · rw [substrView, List.length_take] at hj
          rw [List.drop_drop]
          exact hnone (point + j) (by omega) (by omega)
        · rw [← hrest]
          exact ih (by omega) le_rfl (by omega) (by omega) fun j h₁ h₂ => by omega
      · rename_i hmiss
        refine ih (by omega) (by omega) hlt hmax fun j h₁ h₂ => ?_
        rcases Nat.lt_succ_iff_lt_or_eq.1 h₂ with h₂ | rfl
        · exact hnone j h₁ h₂
        · exact fun h => hmiss ((hhit j hlt).2 h)
    · rename_i hge
      rw [if_pos ⟨by omega, by omega⟩, substrView,
        List.take_of_length_le (by rw [List.length_drop])]
      refine Pieces.last fun hinfix => ?_
      obtain ⟨j, hj⟩ := Pieces.infix_iff_exists_drop.1 hinfix
      rw [List.drop_drop] at hj
      by_cases hlt : point + j < i
      · exact hnone _ (by omega) hlt hj
      · rw [List.drop_eq_nil_of_le (by omega), List.prefix_nil] at hj
        exact hd hj

theorem splitToViews_pieces {str d : Bytes} (hd : d ≠ []) (hlen : d.length ≤ str.length) :
    Pieces d str (splitToViews str d) := by
  have hdpos : 0 < d.length := List.length_pos_iff.2 hd
  rw [splitToViews, if_neg (by omega)]
  refine splitLoop_pieces hd (fun i _ => ?_) (by omega) le_rfl (Nat.zero_le _) (by omega)
    fun j _ h => absurd h (Nat.not_lt_zero j)
  rw [decide_eq_true_iff, substrView, eq_comm, ← List.prefix_iff_eq_take]

theorem splitToViewsChar_pieces {str : Bytes} (c : UInt8) (hstr : str ≠ []) :
    Pieces [c] str (splitToViewsChar str c) := by
  have hpos : 0 < str.length := List.length_pos_iff.2 hstr
  rw [splitToViewsChar, if_neg (by omega)]
  refine splitLoop_pieces (List.cons_ne_nil c []) (fun i hi => ?_) (by omega) le_rfl (Nat.zero_le _)
    (by omega) fun j _ h => absurd h (Nat.not_lt_zero j)
  rw [decide_eq_true_iff, List.getElem?_eq_getElem hi, Option.some.injEq,
    List.drop_eq_getElem_cons hi, List.cons_prefix_cons, eq_comm]
  exact (and_iff_left List.nil_prefix).symm

/-! ## Limits -/

/-- The loop with a limit stops after so many pieces of the loop without one; the induction is on
the fuel, and a delimiter takes one from both limits. -/
theorem splitLoop_take (str : Bytes) (hit : ℕ → Bool) (width fuel i point k : ℕ) {maxsplit : ℤ}
    (hmax : maxsplit < 0) :
    splitLoop str hit width fuel i point k =
      (splitLoop str hit width fuel i point maxsplit).take k := by
  induction fuel generalizing i point k maxsplit with
  | zero => simp [splitLoop]
  | succ fuel ih =>
    have hne : maxsplit ≠ 0 := by omega
    rw [splitLoop, splitLoop]
    cases k with
    | zero => simp
    | succ k =>
      have hk : ((k + 1 : ℕ) : ℤ) ≠ 0 := by omega
      have hpred : ((k + 1 : ℕ) : ℤ) - 1 = k := by omega
      simp only [hne, hk, hpred, ne_eq, not_false_eq_true, if_true, true_and]
      split
      · split
        · have hrest := ih (i + width) (i + width) k (show maxsplit - 1 < 0 by omega)
          rw [List.take_succ_cons, hrest]
        · exact ih _ _ _ hmax
      · split <;> simp

/-- The early return and the loop after it; `p` is what is checked besides the limit. -/
theorem split_take_of_guard (str : Bytes) (hit : ℕ → Bool) (width : ℕ) (p : Prop) [Decidable p]
    (k : ℕ) :
    (if (k : ℤ) = 0 ∨ p then [] else splitLoop str hit width (str.length + 1) 0 0 k) =
      (if (-1 : ℤ) = 0 ∨ p then []
        else splitLoop str hit width (str.length + 1) 0 0 (-1)).take k := by
  by_cases hp : p
  · rw [if_pos (Or.inr hp), if_pos (Or.inr hp), List.take_nil]
  · have hunlimited : ¬ ((-1 : ℤ) = 0 ∨ p) := not_or.2 ⟨by omega, hp⟩
    rw [if_neg hunlimited]
    cases k with
    | zero => rw [if_pos (Or.inl Nat.cast_zero), List.take_zero]
    | succ k =>
      have hlimited : ¬ (((k + 1 : ℕ) : ℤ) = 0 ∨ p) := not_or.2 ⟨by omega, hp⟩
      rw [if_neg hlimited]
      exact splitLoop_take str hit width _ 0 0 (k + 1) (by omega)

/-- Each overload with a limit returns the first pieces of what it returns without one. -/
theorem split_take (str delimiter : Bytes) (c : UInt8) (k : ℕ) :
    splitToViews str delimiter k = (splitToViews str delimiter).take k ∧
      splitToViewsChar str c k = (splitToViewsChar str c).take k ∧
      splitToStrings str delimiter k = (splitToStrings str delimiter).take k ∧
      splitToStringsChar str c k = (splitToStringsChar str c).take k :=
  ⟨split_take_of_guard _ _ _ _ k, split_take_of_guard _ _ _ _ k, split_take_of_guard _ _ _ _ k,
    split_take_of_guard _ _ _ _ k⟩

end CoUringWeb
