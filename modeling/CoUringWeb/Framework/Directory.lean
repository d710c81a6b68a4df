import CoUringWeb.Framework.SortedMap
import Mathlib.Data.Set.Finite.Lemmas
import Mathlib.Data.Set.Finite.List

/-!
# Directories

Files by name, with a `rename` that replaces its target and fails when its source is missing.  The
directory keeps the names at which a rename has replaced a file.

`shift` renames the files of numbered slots to the next number, in a given order.  In descending
order no rename runs into a file that has yet to move: `find_shift_succ` gives the result, and
`shift_keeps_iff` says that each file is at the next number if and only if all the numbers in use
are in the list.

`joined` is the text of all slots in a row, the highest number first.  It does not change when a
file moves to a free slot next to its own (`joined_move`), and grows at its end when the file before
which all is empty does (`joined_append`).
-/

variable {κ ν : Type*} [LinearOrder κ]

structure Directory (κ ν : Type*) [LinearOrder κ] where
  files : SortedMap κ ν
  /-- the names at which a rename has replaced a file -/
  replaced : List κ := []

namespace Directory

/-- Moves a file to a name; a file that has this name is replaced. -/
def rename (d : Directory κ ν) (source target : κ) : Option (Directory κ ν) :=
  (d.files.find source).map fun file =>
    { files := (d.files.erase source).insertOrAssign target file
      replaced :=
        if source ≠ target ∧ d.files.HasKey target then d.replaced ++ [target] else d.replaced }

/-- A rename whose failure is passed over; it may fail for reasons of its own. -/
def tryRename (fails : Bool) (d : Directory κ ν) (source target : κ) : Directory κ ν :=
  if fails then d else (d.rename source target).getD d

variable {d : Directory κ ν} {source target : κ}

theorem rename_eq_some {v : ν} (h : d.files.find source = some v) :
    d.rename source target = some (d.tryRename false source target) := by
  simp [tryRename, rename, h]

theorem find_tryRename (k : κ) :
    (d.tryRename false source target).files.find k =
      if k = target then (d.files.find source).or (d.files.find target)
      else if k = source then none else d.files.find k := by
  cases hfind : d.files.find source with
  | none =>
    have hsame : d.tryRename false source target = d := by simp [tryRename, rename, hfind]
    rw [hsame, Option.none_or]
    split
    · rename_i hk
      rw [hk]
    · split
      · rename_i hk
        rw [hk, hfind]
      · rfl
  | some file =>
    have hmoved : (d.tryRename false source target).files =
        (d.files.erase source).insertOrAssign target file := by simp [tryRename, rename, hfind]
    rw [hmoved, SortedMap.find_insertOrAssign, SortedMap.find_erase]
    rfl

/-- A rename replaces nothing when source or target is missing. -/
theorem replaced_tryRename (h : ¬ (d.files.HasKey source ∧ d.files.HasKey target)) :
    (d.tryRename false source target).replaced = d.replaced := by
  cases hfind : d.files.find source with
  | none => simp [tryRename, rename, hfind]
  | some file =>
    have htarget : ¬ d.files.HasKey target := fun ht => h ⟨SortedMap.hasKey_iff.2 ⟨file, hfind⟩, ht⟩
    simp [tryRename, rename, hfind, htarget]

/-! ## Shifting numbered slots -/

section Shift

variable {slot : ℕ → κ} {ns : List ℕ}

/-- Renames the file of each slot in the list to the next slot. -/
def shift (slot : ℕ → κ) (ns : List ℕ) (d : Directory κ ν) : Directory κ ν :=
  ns.foldl (fun d n => d.tryRename false (slot n) (slot (n + 1))) d

theorem shift_cons (n : ℕ) (ns : List ℕ) (d : Directory κ ν) :
    shift slot (n :: ns) d = shift slot ns (d.tryRename false (slot n) (slot (n + 1))) := rfl

theorem shift_append (ms ns : List ℕ) (d : Directory κ ν) :
    shift slot (ms ++ ns) d = shift slot ns (shift slot ms d) := List.foldl_append

/-- What a slot passes on to the next one. -/
def moved (slot : ℕ → κ) (ns : List ℕ) (d : Directory κ ν) (k : ℕ) : Option ν :=
  if k ∈ ns then d.files.find (slot k) else none

/-- What stays in a slot. -/
def kept (slot : ℕ → κ) (ns : List ℕ) (d : Directory κ ν) (k : ℕ) : Option ν :=
  if k ∈ ns then none else d.files.find (slot k)

variable (hslot : Function.Injective slot)
include hslot

theorem find_step (n k : ℕ) :
    (d.tryRename false (slot n) (slot (n + 1))).files.find (slot k) =
      if k = n + 1 then (d.files.find (slot n)).or (d.files.find (slot (n + 1)))
      else if k = n then none else d.files.find (slot k) := by
  rw [find_tryRename]
  simp only [hslot.eq_iff]

/-- A file that is moved on leaves the moves of lower slots as they are. -/
theorem kept_step {n k : ℕ} (hk : k ≤ n) :
    kept slot ns (d.tryRename false (slot n) (slot (n + 1))) k = kept slot (n :: ns) d k := by
  have hne : k ≠ n + 1 := by omega
  unfold kept
  rw [find_step hslot, if_neg hne]
  by_cases hkn : k = n
  · simp [hkn]
  · simp [hkn]

theorem moved_step {n k : ℕ} (hk : k < n) :
    moved slot ns (d.tryRename false (slot n) (slot (n + 1))) k = moved slot (n :: ns) d k := by
  have hne : k ≠ n + 1 := by omega
  unfold moved
  rw [find_step hslot, if_neg hne, if_neg hk.ne]
  simp [hk.ne]

/-- A slot in descending order gets what the one before it passes on, or keeps what it has. -/
theorem find_shift_succ (hns : ns.Pairwise (· ≥ ·)) (d : Directory κ ν) (k : ℕ) :
    (shift slot ns d).files.find (slot (k + 1)) =
      (moved slot ns d k).or (kept slot ns d (k + 1)) := by
  induction ns generalizing d with
  | nil => simp [shift, moved, kept]
  | cons n ns ih =>
    obtain ⟨hn, hns⟩ := List.pairwise_cons.1 hns
    have hout : ∀ j, n < j → j ∉ ns := fun j hj hmem => absurd (hn j hmem) (by omega)
    rw [shift_cons, ih hns]
    rcases lt_trichotomy k n with hk | rfl | hk
    · rw [moved_step hslot hk, kept_step hslot hk]
    · -- the file that the first rename puts there stays
      have hmoved : moved slot ns (d.tryRename false (slot k) (slot (k + 1))) k = none := by
        simp [moved, find_step hslot]
      have hk := hout (k + 1) k.lt_succ_self
      rw [hmoved, Option.none_or]
      simp [moved, kept, hk, find_step hslot]
    · have h₁ := hout k hk
      have h₂ := hout (k + 1) (by omega)
      have h₃ : k + 1 ≠ n := by omega
      simp [moved, kept, h₁, h₂, h₃, hk.ne', find_step hslot]

theorem find_shift_zero (hns : ns.Pairwise (· ≥ ·)) (d : Directory κ ν) :
    (shift slot ns d).files.find (slot 0) = kept slot ns d 0 := by
  induction ns generalizing d with
  | nil => simp [shift, kept]
  | cons n ns ih =>
    obtain ⟨hn, hns⟩ := List.pairwise_cons.1 hns
    rw [shift_cons, ih hns, kept_step hslot (Nat.zero_le n)]

omit hslot in
theorem find_shift_of_forall_ne {k : κ} (hk : ∀ n, k ≠ slot n) (d : Directory κ ν) :
    (shift slot ns d).files.find k = d.files.find k := by
  induction ns generalizing d with
  | nil => rfl
  | cons n ns ih => rw [shift_cons, ih, find_tryRename, if_neg (hk _), if_neg (hk _)]

theorem hasKey_step {n k : ℕ} (hk : k ≤ n)
    (h : (d.tryRename false (slot n) (slot (n + 1))).files.HasKey (slot k)) :
    k < n ∧ d.files.HasKey (slot k) := by
  have hne : k ≠ n + 1 := by omega
  obtain ⟨file, hfile⟩ := SortedMap.hasKey_iff.1 h
  rw [find_step hslot, if_neg hne] at hfile
  split at hfile
  · cases hfile
  · exact ⟨by omega, SortedMap.hasKey_iff.2 ⟨file, hfile⟩⟩

/-- No rename replaces a file when each slot in the way of a move is itself shifted. -/
theorem replaced_shift (hns : ns.Pairwise (· ≥ ·)) {d : Directory κ ν}
    (hused : ∀ n ∈ ns, d.files.HasKey (slot n) → d.files.HasKey (slot (n + 1)) → n + 1 ∈ ns) :
    (shift slot ns d).replaced = d.replaced := by
  induction ns generalizing d with
  | nil => rfl
  | cons n ns ih =>
    obtain ⟨hn, hns⟩ := List.pairwise_cons.1 hns
    have htarget : ¬ (d.files.HasKey (slot n) ∧ d.files.HasKey (slot (n + 1))) := by
      rintro ⟨hsource, htarget⟩
      rcases List.mem_cons.1 (hused n List.mem_cons_self hsource htarget) with heq | hmem
      · omega
      · exact absurd (hn _ hmem) (by omega)
    rw [shift_cons, ih hns ?_, replaced_tryRename htarget]
    intro m hm hsource hnext
    obtain ⟨hlt, hsource⟩ := hasKey_step hslot (hn m hm) hsource
    obtain ⟨hlt', hnext⟩ := hasKey_step hslot hlt hnext
    rcases List.mem_cons.1 (hused m (List.mem_cons_of_mem n hm) hsource hnext) with heq | hmem
    · omega
    · exact hmem

theorem finite_slots (d : Directory κ ν) : {n | d.files.HasKey (slot n)}.Finite := by
  have hkeys : {k | d.files.HasKey k}.Finite := by
    refine (List.finite_toSet (d.files.entries.map Prod.fst)).subset fun k hk => ?_
    obtain ⟨file, hfile⟩ := SortedMap.hasKey_iff.1 hk
    exact List.mem_map.2 ⟨(k, file), SortedMap.mem_entries.2 hfile, rfl⟩
  exact hkeys.preimage hslot.injOn

/-- Each file is at the next slot if and only if all slots in use are shifted: the last one left out
has nothing to come after it. -/
theorem shift_keeps_iff (hns : ns.Pairwise (· ≥ ·)) (d : Directory κ ν) :
    (∀ n file, d.files.find (slot n) = some file →
      (shift slot ns d).files.find (slot (n + 1)) = some file) ↔
      ∀ n, d.files.HasKey (slot n) → n ∈ ns := by
  constructor
  · intro hkeeps n hn
    by_contra hout
    obtain ⟨m, ⟨hm, hmout⟩, hmax⟩ := Set.exists_max_image {n | d.files.HasKey (slot n) ∧ n ∉ ns} id
      ((finite_slots hslot d).subset fun _ h => h.1) ⟨n, hn, hout⟩
    obtain ⟨file, hfile⟩ := SortedMap.hasKey_iff.1 hm
    have hnext := hkeeps m file hfile
    rw [find_shift_succ hslot hns, moved, if_neg hmout, Option.none_or, kept] at hnext
    split at hnext
    · cases hnext
    · rename_i hout'
      have hle : m + 1 ≤ m := hmax (m + 1) ⟨SortedMap.hasKey_iff.2 ⟨file, hnext⟩, hout'⟩
      omega
  · intro hused n file hfile
    have hn : n ∈ ns := hused n (SortedMap.hasKey_iff.2 ⟨file, hfile⟩)
    rw [find_shift_succ hslot hns, moved, if_pos hn, hfile]
    rfl

/-- A content stays in the directory, and leaves slot `0`, when no file is moved onto one that is
not moved itself. -/
theorem exists_find_shift (hns : ns.Pairwise (· ≥ ·)) (hzero : 0 ∈ ns) {d : Directory κ ν}
    (hfree : ∀ n, d.files.HasKey (slot (n + 1)) → n + 1 ∉ ns → ¬ (n ∈ ns ∧ d.files.HasKey (slot n)))
    {k : κ} {file : ν} (hk : d.files.find k = some file) :
    ∃ k', k' ≠ slot 0 ∧ (shift slot ns d).files.find k' = some file := by
  by_cases hother : ∀ n, k ≠ slot n
  · exact ⟨k, hother 0, (find_shift_of_forall_ne hother d).trans hk⟩
  push Not at hother
  obtain ⟨n, rfl⟩ := hother
  by_cases hn : n ∈ ns
  · refine ⟨slot (n + 1), hslot.ne n.succ_ne_zero, ?_⟩
    rw [find_shift_succ hslot hns, moved, if_pos hn, hk]
    rfl
  · obtain ⟨m, rfl⟩ : ∃ m, n = m + 1 := Nat.exists_eq_add_one_of_ne_zero fun h => hn (h ▸ hzero)
    have hmoved : moved slot ns d m = none := by
      by_contra hfile
      rw [moved] at hfile
      split at hfile
      · rename_i hm
        refine hfree m (SortedMap.hasKey_iff.2 ⟨file, hk⟩) hn ⟨hm, ?_⟩
        exact SortedMap.hasKey_iff.2 (Option.ne_none_iff_exists'.1 hfile)
      · exact hfile rfl
    refine ⟨slot (m + 1), hslot.ne m.succ_ne_zero, ?_⟩
    rw [find_shift_succ hslot hns, hmoved, Option.none_or, kept, if_neg hn, hk]

/-- A content that only one file has is lost when this file is in the way of a move. -/
theorem find_shift_ne (hns : ns.Pairwise (· ≥ ·)) {d : Directory κ ν} {n : ℕ} (hout : n + 1 ∉ ns)
    (hn : n ∈ ns) (hsource : d.files.HasKey (slot n)) {file : ν}
    (hfile : d.files.find (slot (n + 1)) = some file)
    (honly : ∀ k, d.files.find k = some file → k = slot (n + 1)) (k : κ) :
    (shift slot ns d).files.find k ≠ some file := by
  intro hk
  obtain ⟨source, hsource⟩ := SortedMap.hasKey_iff.1 hsource
  by_cases hother : ∀ m, k ≠ slot m
  · rw [find_shift_of_forall_ne hother] at hk
    exact hother _ (honly k hk)
  push Not at hother
  obtain ⟨m, rfl⟩ := hother
  cases m with
  | zero =>
    rw [find_shift_zero hslot hns, kept] at hk
    split at hk
    · cases hk
    · exact absurd (hslot (honly _ hk)) (by omega)
  | succ m =>
    rw [find_shift_succ hslot hns, Option.or_eq_some_iff] at hk
    rcases hk with hk | ⟨hnone, hk⟩
    · rw [moved] at hk
      split at hk
      · rename_i hm
        exact hout (hslot (honly _ hk) ▸ hm)
      · cases hk
    · rw [kept] at hk
      split at hk
      · cases hk
      · obtain rfl : m = n := by
          have heq := hslot (honly _ hk)
          omega
        rw [moved, if_pos hn, hsource] at hnone
        cases hnone

end Shift

/-! ## The text of numbered slots -/

section Joined

variable {β : Type*} {text text' : ℕ → List β}

/-- The texts of the slots below `B`, the highest number first. -/
def joined (text : ℕ → List β) : ℕ → List β
  | 0 => []
  | B + 1 => text B ++ joined text B

theorem joined_congr {B : ℕ} (h : ∀ n < B, text' n = text n) : joined text' B = joined text B := by
  induction B with
  | zero => rfl
  | succ B ih => rw [joined, joined, h B B.lt_succ_self, ih fun n hn => h n (Nat.lt_succ_of_lt hn)]

theorem joined_eq_nil {B : ℕ} (h : ∀ n < B, text n = []) : joined text B = [] := by
  induction B with
  | zero => rfl
  | succ B ih =>
    rw [joined, h B B.lt_succ_self, ih fun n hn => h n (Nat.lt_succ_of_lt hn), List.nil_append]

/-- Text that is added to a file in front of which all slots are empty comes last. -/
theorem joined_append {B p : ℕ} (hp : p < B) (hbelow : ∀ n < p, text n = []) {added : List β}
    (hadded : text' p = text p ++ added) (hothers : ∀ n ≠ p, text' n = text n) :
    joined text' B = joined text B ++ added := by
  induction B with
  | zero => exact absurd hp p.not_lt_zero
  | succ B ih =>
    rw [joined, joined]
    by_cases hB : p = B
    · subst hB
      have hnil : joined text p = [] := joined_eq_nil hbelow
      have hnil' : joined text' p = [] :=
        joined_eq_nil fun n hn => (hothers n hn.ne).trans (hbelow n hn)
      rw [hadded, hnil, hnil', List.append_nil, List.append_nil]
    · rw [hothers B (Ne.symm hB), ih (by omega), List.append_assoc]

/-- A file that moves to the next slot, which is free, keeps its place. -/
theorem joined_move {B n : ℕ} (hn : n + 1 < B) (hfree : text (n + 1) = [])
    (hmoved : text' (n + 1) = text n) (hleft : text' n = [])
    (hothers : ∀ k, k ≠ n → k ≠ n + 1 → text' k = text k) : joined text' B = joined text B := by
  induction B with
  | zero => exact absurd hn (Nat.not_lt_zero _)
  | succ B ih =>
    by_cases hB : B = n + 1
    · subst hB
      have hrest : joined text' n = joined text n :=
        joined_congr fun k hk => hothers k (by omega) (by omega)
      simp only [joined, hfree, hmoved, hleft, hrest, List.nil_append]
    · rw [joined, joined, hothers B (by omega) hB, ih (by omega)]

end Joined

end Directory
