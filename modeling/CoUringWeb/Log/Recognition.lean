import CoUringWeb.Log.Rotate

/-!
# Which directory entries `getNum` gets through

`getNum` looks for the number behind the last dot of what follows `fileName_` in the name of an
entry.  It checks that there are two pieces around `fileName_`, but not that there is a piece behind
it to take apart: when the entry ends in `fileName_`, the second split gives nothing and `back()` is
called on an empty vector.
-/

namespace CoUringWeb

open Machine Numerals

namespace GlobalLoggerManager

variable {F pName : Bytes}

/-- The name ends in `F`, and `F` does not begin anywhere before. -/
def EndsInOnly (F pName : Bytes) : Prop :=
  F ≠ [] ∧ ∃ front, pName = front ++ F ∧ ∀ j < front.length, ¬ F <+: pName.drop j

/-- Nothing follows the first `fileName_` exactly when the name ends in it. -/
theorem splitToViews_eq_pair_nil_iff {front : Bytes} :
    splitToViews pName F = [front, []] ↔
      F ≠ [] ∧ pName = front ++ F ∧ ∀ j < front.length, ¬ F <+: pName.drop j := by
  constructor
  · intro hsplit
    have hguard : ¬ ((-1 : ℤ) = 0 ∨ pName.length < F.length ∨ pName.length = 0 ∨
        F.length = 0) := by
      intro h
      rw [splitToViews, if_pos h] at hsplit
      cases hsplit
    have hF : F ≠ [] := List.length_pos_iff.1 (by omega)
    have hpieces : Pieces F pName [front, []] := hsplit ▸ splitToViews_pieces hF (by omega)
    cases hpieces with
    | cut hs hfirst hrest =>
      cases hrest with
      | last h => exact ⟨hF, by rw [hs, List.append_nil], hfirst⟩
      | cut _ _ hnone => exact absurd rfl hnone.ne_nil
  · rintro ⟨hF, rfl, hfirst⟩
    have hlast : Pieces F [] [[]] := Pieces.last fun h => hF (List.infix_nil.1 h)
    have hlen : F.length ≤ (front ++ F).length := by
      rw [List.length_append]
      omega
    exact (splitToViews_pieces hF hlen).unique (Pieces.cut (by rw [List.append_nil]) hfirst hlast)

/-- The name of the log file does not end in its only `fileName_`, which stands at its start. -/
theorem not_endsInOnly_logName : ¬ EndsInOnly F (logName F) := by
  rintro ⟨-, front, hfront, hfirst⟩
  have hlen := congrArg List.length hfront
  simp only [logName, List.length_append] at hlen
  have hdot : (ascii ".").length = 1 := rfl
  exact hfirst 0 (by omega) (List.prefix_append _ _)

/-- `back()` is called on non-empty vectors only, except on a name that ends in its only
`fileName_`. -/
theorem exists_getNum_iff_not_endsInOnly :
    (∃ num, getNum F pName = .ok num) ↔ ¬ EndsInOnly F pName := by
  rw [exists_getNum_iff]
  constructor
  · rintro h ⟨hF, front, hends⟩
    have hne : pName ≠ logName F := by
      rintro rfl
      exact not_endsInOnly_logName ⟨hF, front, hends⟩
    exact h hne front (splitToViews_eq_pair_nil_iff.2 ⟨hF, hends⟩)
  · intro h _ front hsplit
    obtain ⟨hF, hends⟩ := splitToViews_eq_pair_nil_iff.1 hsplit
    exact h ⟨hF, front, hends⟩

/-- `F` begins nowhere in the name but at its start. -/
def OnlyAtStart (F pName : Bytes) : Prop := ∀ j, F <+: pName.drop j → j = 0

theorem OnlyAtStart.not_infix {rest : Bytes} (h : OnlyAtStart F (F ++ rest)) :
    ¬ F <:+: rest := by
  intro hinfix
  obtain ⟨j, hj⟩ := Pieces.infix_iff_exists_drop.1 hinfix
  have hzero : F.length + j = 0 := h (F.length + j) (by rwa [← List.drop_drop, List.drop_left])
  -- the empty text begins everywhere
  obtain rfl : F = [] := List.length_eq_zero_iff.1 (by omega)
  exact absurd (h 1 List.nil_prefix) one_ne_zero

/-- The number of a log file is read from its name. -/
theorem getNum_numberedName {N : ℕ} (hN : 1 ≤ N) (hlt : N < 2 ^ 31)
    (hstart : OnlyAtStart F (numberedName F (decimalDigits N))) :
    getNum F (numberedName F (decimalDigits N)) = .ok (N : ℤ) := by
  have hpos : (0 : ℤ) < N := by omega
  rw [numberedName_eq] at hstart
  rw [getNum_eq_ok hpos]
  exact ⟨(logName_ne_numberedName _).symm, numericSuffix_numberedName hstart.not_infix, by omega⟩

/-- `getNum` takes the name apart without leaving its vectors, and numbers a log file. -/
structure TakesApart (F pName : Bytes) : Prop where
  inside : ∃ num, getNum F pName = .ok num
  number : ∀ N, 1 ≤ N → N < 2 ^ 31 → pName = numberedName F (decimalDigits N) →
    OnlyAtStart F pName → getNum F pName = .ok (N : ℤ)

/-- `getNum` gets through exactly the names that do not end in their only `fileName_`. -/
theorem takesApart_iff (F pName : Bytes) : TakesApart F pName ↔ ¬ EndsInOnly F pName := by
  rw [← exists_getNum_iff_not_endsInOnly]
  constructor
  · exact TakesApart.inside
  · intro hinside
    refine ⟨hinside, ?_⟩
    rintro N hN hlt rfl hstart
    exact getNum_numberedName hN hlt hstart

/-- An entry with the name of the log files. -/
theorem getNum_leaves :
    getNum (ascii "app") (ascii "app") = .error .back_of_empty ∧
      ¬ TakesApart (ascii "app") (ascii "app") := by
  have hleaves : getNum (ascii "app") (ascii "app") = .error .back_of_empty := rfl
  refine ⟨hleaves, fun h => ?_⟩
  obtain ⟨num, hnum⟩ := h.inside
  rw [hleaves] at hnum
  cases hnum

end GlobalLoggerManager

end CoUringWeb
