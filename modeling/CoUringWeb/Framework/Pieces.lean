import Mathlib.Data.List.Basic

/-!
# Pieces between occurrences of a delimiter

A text over any alphabet, cut at the leftmost occurrences of a delimiter that do not overlap.
`Pieces d s ps` is that relation; it determines the pieces (`Pieces.unique`).  There is one more of
them than `occurrences` counts, none contains the delimiter, and the text is their concatenation
with the delimiter between them.
-/

universe u

variable {α : Type u}

/-- `ps` are the pieces of `s` between the leftmost occurrences of `d`. -/
inductive Pieces (d : List α) : List α → List (List α) → Prop where
  | last {s : List α} (h : ¬ d <:+: s) : Pieces d s [s]
  | cut {s p t : List α} {ps : List (List α)} (hs : s = p ++ (d ++ t))
      (hfirst : ∀ j < p.length, ¬ d <+: s.drop j) (h : Pieces d t ps) : Pieces d s (p :: ps)

namespace Pieces

variable {d s t : List α} {ps qs : List (List α)}

theorem ne_nil (h : Pieces d s ps) : ps ≠ [] := by
  cases h with
  | last h => exact List.cons_ne_nil _ _
  | cut hs hfirst h => exact List.cons_ne_nil _ _

/-- An infix begins somewhere. -/
theorem infix_iff_exists_drop : d <:+: s ↔ ∃ j, d <+: s.drop j := by
  constructor
  · rintro ⟨u, v, rfl⟩
    exact ⟨u.length, v, by simp⟩
  · rintro ⟨j, hj⟩
    exact hj.isInfix.trans (List.drop_suffix j s).isInfix

/-- The first of two leftmost occurrences is not after the second. -/
theorem length_le_of_first {p q : List α} (hp : s = p ++ (d ++ t))
    (hq : ∀ j < q.length, ¬ d <+: s.drop j) : q.length ≤ p.length := by
  by_contra hlt
  refine hq p.length (by omega) ⟨t, ?_⟩
  rw [hp, List.drop_left]

theorem unique (h : Pieces d s ps) (h' : Pieces d s qs) : ps = qs := by
  induction h generalizing qs with
  | last h =>
    cases h' with
    | last h' => rfl
    | cut hs hfirst h' => exact absurd (hs ▸ ⟨_, _, by rw [List.append_assoc]⟩) h
  | @cut s p t ps hs hfirst h ih =>
    cases h' with
    | last h' => exact absurd (hs ▸ ⟨_, _, by rw [List.append_assoc]⟩) h'
    | @cut _ q t' qs hs' hfirst' h' =>
      have hlen : p.length = q.length :=
        Nat.le_antisymm (length_le_of_first hs' hfirst) (length_le_of_first hs hfirst')
      obtain ⟨rfl, htail⟩ := List.append_inj (hs.symm.trans hs') hlen
      rw [ih (List.append_cancel_left htail ▸ h')]

/-- A text that begins with the delimiter has an empty first piece. -/
theorem cut_nil (h : Pieces d t ps) : Pieces d (d ++ t) ([] :: ps) :=
  cut rfl (fun _ hj => absurd hj (Nat.not_lt_zero _)) h

/-- A delimiter of one symbol, with a piece before it that lacks the symbol. -/
theorem cut_of_notMem {c : α} {p : List α} (hp : c ∉ p) (h : Pieces [c] t ps) :
    Pieces [c] (p ++ ([c] ++ t)) (p :: ps) := by
  refine cut rfl (fun j hj hpre => hp ?_) h
  rw [List.drop_append_of_le_length (Nat.le_of_lt hj), List.drop_eq_getElem_cons hj,
    List.cons_append, List.cons_prefix_cons] at hpre
  rw [hpre.1]
  exact List.getElem_mem hj

/-! ## What the pieces are -/

/-- No piece contains the delimiter. -/
theorem not_infix (hd : d ≠ []) (h : Pieces d s ps) : ∀ p ∈ ps, ¬ d <:+: p := by
  induction h with
  | last h =>
    intro p hp
    rwa [List.mem_singleton.1 hp]
  | @cut s p t ps hs hfirst h ih =>
    intro q hq
    rcases List.mem_cons.1 hq with rfl | hq
    · rintro hinfix
      obtain ⟨j, hj⟩ := infix_iff_exists_drop.1 hinfix
      have hlt : j < q.length := by
        by_contra hge
        rw [List.drop_eq_nil_of_le (by omega), List.prefix_nil] at hj
        exact hd hj
      refine hfirst j hlt ?_
      rw [hs, List.drop_append_of_le_length (Nat.le_of_lt hlt)]
      exact hj.trans (List.prefix_append _ _)
    · exact ih q hq

/-- Joining the pieces gives the text back. -/
theorem intercalate_eq (h : Pieces d s ps) : d.intercalate ps = s := by
  induction h with
  | last h => exact List.intercalate_singleton
  | cut hs hfirst h ih =>
    rw [List.intercalate_cons_of_ne_nil h.ne_nil, ih, hs, List.append_assoc]

end Pieces

section Occurrences

variable [DecidableEq α]

/-- The leftmost occurrences of `d` that do not overlap, from left to right; the first `skip`
symbols belong to the occurrence before. -/
def occurrencesFrom (d : List α) : ℕ → List α → ℕ
  | _, [] => 0
  | skip + 1, _ :: s => occurrencesFrom d skip s
  | 0, c :: s =>
    if d <+: c :: s then occurrencesFrom d (d.length - 1) s + 1 else occurrencesFrom d 0 s

/-- The number of leftmost occurrences of `d` in `s` that do not overlap. -/
def occurrences (d s : List α) : ℕ := occurrencesFrom d 0 s

example : occurrences [0, 0] [0, 0, 0, 1, 0, 0] = 2 := rfl

variable {d s t : List α} {ps : List (List α)}

theorem occurrencesFrom_append (u : List α) :
    occurrencesFrom d u.length (u ++ t) = occurrences d t := by
  induction u with
  | nil => rfl
  | cons c u ih => exact ih

theorem occurrences_append (hd : d ≠ []) : occurrences d (d ++ t) = occurrences d t + 1 := by
  obtain ⟨c, u, rfl⟩ := List.exists_cons_of_ne_nil hd
  have hprefix : c :: u <+: c :: (u ++ t) := ⟨t, rfl⟩
  rw [occurrences, List.cons_append, occurrencesFrom, if_pos hprefix, List.length_cons,
    Nat.add_sub_cancel, occurrencesFrom_append]

theorem occurrences_of_first {p : List α} (hfirst : ∀ j < p.length, ¬ d <+: (p ++ s).drop j) :
    occurrences d (p ++ s) = occurrences d s := by
  induction p with
  | nil => rfl
  | cons c p ih =>
    have hmiss : ¬ d <+: c :: (p ++ s) := hfirst 0 (Nat.succ_pos _)
    rw [occurrences, List.cons_append, occurrencesFrom, if_neg hmiss]
    exact ih fun j hj => hfirst (j + 1) (Nat.succ_lt_succ hj)

theorem occurrences_eq_zero (h : ¬ d <:+: s) : occurrences d s = 0 := by
  have hfirst (j : ℕ) (_ : j < s.length) : ¬ d <+: (s ++ []).drop j := by
    rw [List.append_nil]
    exact fun hj => h (Pieces.infix_iff_exists_drop.2 ⟨j, hj⟩)
  have hnone := occurrences_of_first hfirst
  rwa [List.append_nil] at hnone

/-- There is one more piece than there are occurrences. -/
theorem Pieces.length_eq (hd : d ≠ []) (h : Pieces d s ps) :
    ps.length = occurrences d s + 1 := by
  induction h with
  | last h => rw [occurrences_eq_zero h, List.length_singleton]
  | cut hs hfirst h ih =>
    subst hs
    rw [List.length_cons, ih, occurrences_of_first hfirst, occurrences_append hd]

end Occurrences
