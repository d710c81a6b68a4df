import CoUringWeb.Framework.Transition
import CoUringWeb.Log.Rotate

/-!
# `GlobalLoggerManager` and the threads that log

`rotate` of `Rotate.lean` runs alone.  In the program the logger thread rotates while any number of
other threads call `writev` on `loggerFileFd_`; a write may fall between any two of the renames, the
`open` and the `dup2`, and goes to whatever file the descriptor refers to at that time.

Here the directory maps names to inodes, the texts belong to the inodes, and each call of the system
is one step.  A `writev` is atomic and appends: the descriptor that `init` opens has `O_APPEND`, and
the later ones share the offset of the descriptor they were duplicated from.  What a `writev` writes
is any part of the record, so that a short or failed one is covered.  `open` and `dup2` succeed.

`transcript_of_run` says that nothing is lost and nothing changes its place, at any time: the log
files from the highest number to the current one, read in a row, are what they were at the start
followed by all that was written since.  The file behind `loggerFileFd_` may be called `.log.1` for
a while, but then `.log` does not exist yet or is empty.
-/

namespace CoUringWeb

open Machine Numerals Transition

namespace GlobalLoggerManager

/-! ## Steps -/

/-- Where the thread that rotates stands. -/
inductive RotatePc where
  /-- between two calls of `checkNeedRotate` -/
  | sleeping
  /-- in the loop over the numbers, or at the rename of the current log file when none is left -/
  | looping (nums : List ℤ)
  /-- before `open` -/
  | opening
  /-- before `dup2` -/
  | duplicating (newfd : ℕ)
  /-- the program is gone -/
  | failed (error : RotateError)

/-- The log files and the threads. -/
structure LogFiles where
  /-- the names and their inodes -/
  dir : Directory Bytes ℕ
  /-- the texts of the inodes -/
  contents : ℕ → Bytes
  /-- the inodes from here on are unused -/
  inodes : ℕ
  /-- the inode that the descriptor refers to -/
  loggerFileFd_ : ℕ
  pc : RotatePc
  /-- what the calls of `writev` have written -/
  written : Bytes
  /-- the descriptors that `rotate` has opened, by their inodes -/
  opened : List ℕ

inductive LogAction where
  /-- a `writev` that writes these bytes -/
  | writev (bytes : Bytes)
  /-- `checkNeedRotate`, and if it says so the loop over the directory, in this order -/
  | checkNeedRotate (listing : List Bytes)
  /-- the next rename; it may fail for reasons of its own -/
  | rename (fails : Bool)
  | openFile
  | dup2
  deriving DecidableEq

namespace LogFiles

/-- `open` with `O_CREAT`: the inode of the name, or a new one. -/
def openCreate (s : LogFiles) (name : Bytes) : LogFiles × ℕ :=
  match s.dir.files.find name with
  | some inode => (s, inode)
  | none =>
    ({ s with
        dir := { s.dir with files := s.dir.files.insert name s.inodes }
        contents := Function.update s.contents s.inodes []
        inodes := s.inodes + 1 }, s.inodes)

/-- `init`, up to the first `checkNeedRotate`, on the files that are there. -/
def init (fileName_ : Bytes) (dir : Directory Bytes ℕ) (contents : ℕ → Bytes) (inodes : ℕ) :
    LogFiles :=
  let s : LogFiles :=
    { dir := dir, contents := contents, inodes := inodes, loggerFileFd_ := 0, pc := .sleeping
      written := [], opened := [] }
  let (s, fd) := s.openCreate (logName fileName_)
  { s with loggerFileFd_ := fd }

/-- A `writev` to the descriptor. -/
def append (s : LogFiles) (bytes : Bytes) : LogFiles :=
  { s with
    contents := Function.update s.contents s.loggerFileFd_
      (s.contents s.loggerFileFd_ ++ bytes)
    written := s.written ++ bytes }

/-- `checkNeedRotate` -/
def needRotate (singleFileSizeLimit : ℕ) (s : LogFiles) : Bool :=
  let st_size := (s.contents s.loggerFileFd_).length
  if st_size ≤ 0 then false else singleFileSizeLimit ≤ st_size

/-- The next rename of `rotate`. -/
def renameStep (fileName_ : Bytes) (fails : Bool) (s : LogFiles) : Option LogFiles :=
  match s.pc with
  | .looping (num :: nums) =>
    if num + 1 ≥ 2 ^ 31 then some { s with pc := .failed .overflow }
    else
      some { s with
        pc := .looping nums
        dir := s.dir.tryRename fails (numberedName fileName_ (to_string num))
          (numberedName fileName_ (to_string (num + 1))) }
  | .looping [] =>
    match if fails then none
      else s.dir.rename (logName fileName_) (logName fileName_ ++ ascii ".1") with
    | none => some { s with pc := .failed .filesystem_error }
    | some dir => some { s with pc := .opening, dir := dir }
  | _ => none

def step (singleFileSizeLimit : ℕ) (fileName_ : Bytes) (s : LogFiles) :
    LogAction → Option LogFiles
  | .writev bytes =>
    match s.pc with
    | .failed _ => none
    | _ => some (s.append bytes)
  | .checkNeedRotate listing =>
    match s.pc with
    | .sleeping =>
      if listing.Perm (s.dir.files.entries.map Prod.fst) then
        if s.needRotate singleFileSizeLimit then
          match collectNums fileName_ listing with
          | .ok nums => some { s with pc := .looping (nums.insertionSort (· ≥ ·)) }
          | .error error => some { s with pc := .failed error }
        else some s
      else none
    | _ => none
  | .rename fails => s.renameStep fileName_ fails
  | .openFile =>
    match s.pc with
    | .opening =>
      let (s, newfd) := s.openCreate (logName fileName_)
      some { s with pc := .duplicating newfd, opened := s.opened ++ [newfd] }
    | _ => none
  | .dup2 =>
    match s.pc with
    | .duplicating newfd => some { s with pc := .sleeping, loggerFileFd_ := newfd }
    | _ => none

/-! ## The invariant -/

/-- The text of a slot. -/
def text (F : Bytes) (s : LogFiles) (n : ℕ) : Bytes :=
  (s.dir.files.find (slot F n)).elim [] s.contents

/-- Where the file behind `loggerFileFd_` is, and what is in the way of the renames to come. -/
def Placed (F : Bytes) (s : LogFiles) : Prop :=
  match s.pc with
  | .sleeping => s.dir.files.find (slot F 0) = some s.loggerFileFd_
  | .looping nums =>
    s.dir.files.find (slot F 0) = some s.loggerFileFd_ ∧ nums.Pairwise (· ≥ ·) ∧
      (∀ num ∈ nums, 0 < num) ∧
      ∀ n : ℕ, n = 0 ∨ (n : ℤ) ∈ nums → n + 1 < 2 ^ 31 → s.dir.files.HasKey (slot F n) →
        s.dir.files.HasKey (slot F (n + 1)) → ((n + 1 : ℕ) : ℤ) ∈ nums
  | .opening =>
    s.dir.files.find (slot F 0) = none ∧ s.dir.files.find (slot F 1) = some s.loggerFileFd_
  | .duplicating newfd =>
    s.dir.files.find (slot F 0) = some newfd ∧ s.contents newfd = [] ∧
      s.dir.files.find (slot F 1) = some s.loggerFileFd_
  | .failed _ => True

/-- The names of a directory have inodes of their own. -/
structure Unlinked (F : Bytes) (dir : Directory Bytes ℕ) (inodes : ℕ) : Prop where
  distinct : ∀ m n inode, dir.files.find (slot F m) = some inode →
    dir.files.find (slot F n) = some inode → m = n
  used : ∀ name inode, dir.files.find name = some inode → inode < inodes

/-- `before` are the log files at the start. -/
structure Inv (F : Bytes) (before : ℕ → Bytes) (s : LogFiles) : Prop where
  unlinked : Unlinked F s.dir s.inodes
  placed : Placed F s
  transcript : ∀ B, (∀ n, s.dir.files.HasKey (slot F n) → n < B) →
    Directory.joined (s.text F) B = Directory.joined before B ++ s.written

variable {F : Bytes} {before : ℕ → Bytes} {s t : LogFiles}

theorem text_of_find {n inode : ℕ} (h : s.dir.files.find (slot F n) = some inode) :
    s.text F n = s.contents inode := by
  rw [text, h, Option.elim_some]

theorem text_of_find_none {n : ℕ} (h : s.dir.files.find (slot F n) = none) : s.text F n = [] := by
  rw [text, h, Option.elim_none]

/-- All files in front of the one behind `loggerFileFd_` are empty. -/
theorem Placed.exists_slot (h : Placed F s) (hpc : ∀ error, s.pc ≠ .failed error) :
    ∃ p, s.dir.files.find (slot F p) = some s.loggerFileFd_ ∧ ∀ q < p, s.text F q = [] := by
  unfold Placed at h
  cases hs : s.pc with
  | sleeping =>
    rw [hs] at h
    exact ⟨0, h, fun q hq => absurd hq q.not_lt_zero⟩
  | looping nums =>
    rw [hs] at h
    exact ⟨0, h.1, fun q hq => absurd hq q.not_lt_zero⟩
  | opening =>
    rw [hs] at h
    refine ⟨1, h.2, fun q hq => ?_⟩
    obtain rfl : q = 0 := by omega
    exact text_of_find_none h.1
  | duplicating newfd =>
    rw [hs] at h
    refine ⟨1, h.2.2, fun q hq => ?_⟩
    obtain rfl : q = 0 := by omega
    exact (text_of_find h.1).trans h.2.1
  | failed error => exact absurd hs (hpc error)

/-! ### Writes -/

theorem Inv.append (h : Inv F before s) (hpc : ∀ error, s.pc ≠ .failed error) (bytes : Bytes) :
    Inv F before (s.append bytes) := by
  obtain ⟨p, hp, hbelow⟩ := h.placed.exists_slot hpc
  refine ⟨h.unlinked, ?_, fun B hB => ?_⟩
  · have hplaced := h.placed
    unfold Placed at hplaced ⊢
    rw [show (s.append bytes).pc = s.pc from rfl]
    cases hs : s.pc with
    | duplicating newfd =>
      rw [hs] at hplaced
      obtain ⟨hnew, hempty, hold⟩ := hplaced
      -- the new file is not the one that is written to
      have hne : newfd ≠ s.loggerFileFd_ := by
        rintro rfl
        exact absurd (h.unlinked.distinct 0 1 _ hnew hold) (by decide)
      exact ⟨hnew, (Function.update_of_ne hne ..).trans hempty, hold⟩
    | sleeping => rwa [hs] at hplaced
    | looping nums => rwa [hs] at hplaced
    | opening => rwa [hs] at hplaced
    | failed error => trivial
  · have hrest := h.transcript B hB
    rw [show (s.append bytes).written = s.written ++ bytes from rfl, ← List.append_assoc, ← hrest]
    apply Directory.joined_append (hB p (SortedMap.hasKey_iff.2 ⟨_, hp⟩)) hbelow
    · have htext : (s.append bytes).text F p = (s.append bytes).contents s.loggerFileFd_ :=
        text_of_find hp
      rw [htext, text_of_find hp]
      exact Function.update_self ..
    · intro n hn
      cases hfind : s.dir.files.find (slot F n) with
      | none =>
        exact (text_of_find_none (s := s.append bytes) hfind).trans (text_of_find_none hfind).symm
      | some inode =>
        have hne : inode ≠ s.loggerFileFd_ := by
          rintro rfl
          exact hn (h.unlinked.distinct n p _ hfind hp)
        have htext : (s.append bytes).text F n = (s.append bytes).contents inode :=
          text_of_find hfind
        rw [htext, text_of_find hfind]
        exact Function.update_of_ne hne ..

/-! ### Renames -/

/-- A rename to the next slot, which is free if there is a file to move. -/
theorem joined_rename {n B : ℕ}
    (hfree : s.dir.files.HasKey (slot F n) → ¬ s.dir.files.HasKey (slot F (n + 1)))
    (hfind : ∀ k, t.dir.files.find (slot F k) =
      if k = n + 1 then (s.dir.files.find (slot F n)).or (s.dir.files.find (slot F (n + 1)))
      else if k = n then none else s.dir.files.find (slot F k))
    (hcontents : t.contents = s.contents)
    (hB : ∀ k, t.dir.files.HasKey (slot F k) → k < B) :
    (∀ k, s.dir.files.HasKey (slot F k) → k < B) ∧
      Directory.joined (t.text F) B = Directory.joined (s.text F) B := by
  cases hsource : s.dir.files.find (slot F n) with
  | none =>
    have hsame (k : ℕ) : t.dir.files.find (slot F k) = s.dir.files.find (slot F k) := by
      rw [hfind, hsource, Option.none_or]
      split
      · rename_i hk
        rw [hk]
      · split
        · rename_i hk
          rw [hk, hsource]
        · rfl
    refine ⟨fun k hk => hB k ?_, Directory.joined_congr fun k _ => ?_⟩
    · rwa [SortedMap.HasKey, hsame]
    · rw [text, text, hsame, hcontents]
  | some inode =>
    have htarget : s.dir.files.find (slot F (n + 1)) = none :=
      SortedMap.not_hasKey_iff.1 (hfree (SortedMap.hasKey_iff.2 ⟨inode, hsource⟩))
    have hmoved : t.dir.files.find (slot F (n + 1)) = some inode := by
      rw [hfind, if_pos rfl, hsource]
      rfl
    have hnext := hB (n + 1) (SortedMap.hasKey_iff.2 ⟨inode, hmoved⟩)
    have hleft : t.dir.files.find (slot F n) = none := by
      rw [hfind, if_neg (by omega), if_pos rfl]
    have hothers (k : ℕ) (hk : k ≠ n) (hk' : k ≠ n + 1) :
        t.dir.files.find (slot F k) = s.dir.files.find (slot F k) := by
      rw [hfind, if_neg hk', if_neg hk]
    constructor
    · intro k hk
      by_cases hkn : k = n
      · omega
      · by_cases hkn' : k = n + 1
        · omega
        · refine hB k ?_
          rwa [SortedMap.HasKey, hothers k hkn hkn']
    · apply Directory.joined_move hnext (text_of_find_none htarget)
      · rw [text_of_find hmoved, text_of_find hsource, hcontents]
      · exact text_of_find_none hleft
      · intro k hk hk'
        rw [text, text, hothers k hk hk', hcontents]

theorem Unlinked.rename {dir : Directory Bytes ℕ} {inodes : ℕ} (h : Unlinked F dir inodes)
    (n : ℕ) : Unlinked F (dir.tryRename false (slot F n) (slot F (n + 1))) inodes := by
  have horigin {k inode : ℕ} (hk : k ≠ n + 1)
      (hfind : (dir.tryRename false (slot F n) (slot F (n + 1))).files.find (slot F k) =
        some inode) : k ≠ n ∧ dir.files.find (slot F k) = some inode := by
    rw [Directory.find_step slot_injective, if_neg hk] at hfind
    split at hfind
    · cases hfind
    · exact ⟨‹_›, hfind⟩
  have htarget {k inode : ℕ} (hk : k ≠ n + 1)
      (hfind : (dir.tryRename false (slot F n) (slot F (n + 1))).files.find (slot F k) =
        some inode)
      (hnext : (dir.tryRename false (slot F n) (slot F (n + 1))).files.find (slot F (n + 1)) =
        some inode) : False := by
    obtain ⟨hne, hfind⟩ := horigin hk hfind
    rw [Directory.find_step slot_injective, if_pos rfl, Option.or_eq_some_iff] at hnext
    rcases hnext with hnext | ⟨-, hnext⟩
    · exact hne (h.distinct k n inode hfind hnext)
    · exact hk (h.distinct k (n + 1) inode hfind hnext)
  constructor
  · intro m k inode hm hk
    by_cases hm' : m = n + 1
    · subst hm'
      by_contra hne
      exact htarget (Ne.symm hne) hk hm
    · by_cases hk' : k = n + 1
      · subst hk'
        exact (htarget hm' hm hk).elim
      · exact h.distinct m k inode (horigin hm' hm).2 (horigin hk' hk).2
  · intro name inode hname
    rw [Directory.find_tryRename] at hname
    split at hname
    · rcases Option.or_eq_some_iff.1 hname with hname | ⟨-, hname⟩
      · exact h.used _ _ hname
      · exact h.used _ _ hname
    · split at hname
      · cases hname
      · exact h.used _ _ hname

theorem numberedName_to_string {num : ℤ} (hpos : 0 < num) :
    numberedName F (to_string num) = slot F num.toNat ∧
      numberedName F (to_string (num + 1)) = slot F (num.toNat + 1) := by
  obtain ⟨k, rfl⟩ : ∃ k : ℕ, num = k + 1 := ⟨(num - 1).toNat, by omega⟩
  exact ⟨rfl, rfl⟩

/-- One turn of the loop over the numbers. -/
theorem Inv.loop (h : Inv F before s) {num : ℤ} {nums : List ℤ} (hs : s.pc = .looping (num :: nums))
    (hlt : num + 1 < 2 ^ 31) :
    Inv F before { s with
      pc := .looping nums
      dir := s.dir.tryRename false (numberedName F (to_string num))
        (numberedName F (to_string (num + 1))) } := by
  have hplaced := h.placed
  unfold Placed at hplaced
  rw [hs] at hplaced
  obtain ⟨hcurrent, hsorted, hpos, hfree⟩ := hplaced
  obtain ⟨hge, hsorted'⟩ := List.pairwise_cons.1 hsorted
  rw [List.forall_mem_cons] at hpos
  obtain ⟨n, rfl⟩ : ∃ n : ℕ, num = (n + 1 : ℕ) := ⟨(num - 1).toNat, by omega⟩
  obtain ⟨hsource, htarget⟩ := numberedName_to_string (F := F) hpos.1
  rw [Int.toNat_natCast] at hsource htarget
  rw [hsource, htarget]
  have hstep := Directory.find_step (d := s.dir) (slot_injective (F := F)) (n + 1)
  have hunused : s.dir.files.HasKey (slot F (n + 1)) →
      ¬ s.dir.files.HasKey (slot F (n + 1 + 1)) := by
    intro hused hnext
    have hmem := hfree (n + 1) (Or.inr List.mem_cons_self) (by omega) hused hnext
    rcases List.mem_cons.1 hmem with heq | hmem
    · omega
    · have := hge _ hmem
      omega
  refine ⟨h.unlinked.rename (n + 1), ⟨?_, hsorted', hpos.2, ?_⟩, fun B hB => ?_⟩
  · show (s.dir.tryRename false _ _).files.find (slot F 0) = some s.loggerFileFd_
    rw [hstep, if_neg (by omega), if_neg (by omega)]
    exact hcurrent
  · intro m hm hmlt hused hnext
    have hle : m ≤ n + 1 := by
      rcases hm with rfl | hm
      · omega
      · have := hge _ hm
        omega
    obtain ⟨hlt, hused⟩ := Directory.hasKey_step slot_injective hle hused
    obtain ⟨hlt', hnext⟩ := Directory.hasKey_step slot_injective hlt hnext
    have hmem := hfree m (hm.imp_right (List.mem_cons_of_mem _)) hmlt hused hnext
    rcases List.mem_cons.1 hmem with heq | hmem
    · omega
    · exact hmem
  · obtain ⟨hB, hjoined⟩ := joined_rename
      (t := { s with
        pc := .looping nums
        dir := s.dir.tryRename false (slot F (n + 1)) (slot F (n + 1 + 1)) }) hunused hstep rfl hB
    exact hjoined.trans (h.transcript B hB)

/-- The rename of the current log file. -/
theorem Inv.renameLog (h : Inv F before s) (hs : s.pc = .looping []) :
    ∃ dir, s.dir.rename (logName F) (logName F ++ ascii ".1") = some dir ∧
      Inv F before { s with pc := .opening, dir := dir } := by
  have hplaced := h.placed
  unfold Placed at hplaced
  rw [hs] at hplaced
  obtain ⟨hcurrent, -, -, hfree⟩ := hplaced
  refine ⟨_, Directory.rename_eq_some hcurrent, ?_⟩
  rw [← slot_one, show logName F = slot F 0 from rfl]
  have hstep := Directory.find_step (d := s.dir) (slot_injective (F := F)) 0
  have hused : s.dir.files.HasKey (slot F 0) := SortedMap.hasKey_iff.2 ⟨_, hcurrent⟩
  have hunused : ¬ s.dir.files.HasKey (slot F 1) := fun hnext =>
    absurd (hfree 0 (Or.inl rfl) (by norm_num) hused hnext) List.not_mem_nil
  refine ⟨h.unlinked.rename 0, ⟨?_, ?_⟩, fun B hB => ?_⟩
  · show (s.dir.tryRename false _ _).files.find (slot F 0) = none
    rw [hstep, if_neg (by omega), if_pos rfl]
  · show (s.dir.tryRename false _ _).files.find (slot F 1) = some s.loggerFileFd_
    rw [hstep, if_pos rfl, hcurrent]
    rfl
  · obtain ⟨hB, hjoined⟩ := joined_rename
      (t := { s with
        pc := .opening
        dir := s.dir.tryRename false (slot F 0) (slot F (0 + 1)) }) (fun _ => hunused) hstep rfl hB
    exact hjoined.trans (h.transcript B hB)

/-! ### The new file -/

/-- A file that `open` makes is empty. -/
theorem openCreate_new {s : LogFiles} {n : Bytes} (h : s.dir.files.find n = none) :
    s.openCreate n =
      ({ s with
          dir := { s.dir with files := s.dir.files.insert n s.inodes }
          contents := Function.update s.contents s.inodes []
          inodes := s.inodes + 1 }, s.inodes) := by
  rw [openCreate, h]

theorem find_insert_new {dir : Directory Bytes ℕ} {name : Bytes} (h : dir.files.find name = none)
    (inode : ℕ) (k : Bytes) :
    (dir.files.insert name inode).find k = if k = name then some inode else dir.files.find k := by
  have hnokey : ¬ dir.files.HasKey name := SortedMap.not_hasKey_iff.2 h
  rw [SortedMap.find_insert]
  simp [hnokey]

theorem Unlinked.insert {dir : Directory Bytes ℕ} {inodes : ℕ} (h : Unlinked F dir inodes)
    (name : Bytes) (hname : dir.files.find name = none) :
    Unlinked F { dir with files := dir.files.insert name inodes } (inodes + 1) := by
  have hold {k : Bytes} {inode : ℕ} (hk : k ≠ name)
      (hfind : (dir.files.insert name inodes).find k = some inode) :
      dir.files.find k = some inode := by
    rwa [find_insert_new hname, if_neg hk] at hfind
  have hnew {k : Bytes} {inode : ℕ} (hk : k = name)
      (hfind : (dir.files.insert name inodes).find k = some inode) : inode = inodes := by
    rw [find_insert_new hname, if_pos hk] at hfind
    exact (Option.some.inj hfind).symm
  constructor
  · intro m n inode hm hn
    by_cases hm' : slot F m = name
    · by_cases hn' : slot F n = name
      · exact slot_injective (hm'.trans hn'.symm)
      · have := h.used _ _ (hold hn' hn)
        have := hnew hm' hm
        omega
    · by_cases hn' : slot F n = name
      · have := h.used _ _ (hold hm' hm)
        have := hnew hn' hn
        omega
      · exact h.distinct m n inode (hold hm' hm) (hold hn' hn)
  · intro k inode hfind
    by_cases hk : k = name
    · have := hnew hk hfind
      omega
    · exact Nat.lt_succ_of_lt (h.used _ _ (hold hk hfind))

/-- A new file in slot `0` is empty, and the other slots keep their texts. -/
theorem text_openCreate (h : Unlinked F s.dir s.inodes) (hname : s.dir.files.find (slot F 0) = none)
    (n : ℕ) : (s.openCreate (logName F)).1.text F n = s.text F n := by
  have hopen := openCreate_new (s := s) (n := logName F) hname
  rw [hopen, text]
  show ((s.dir.files.insert (slot F 0) s.inodes).find (slot F n)).elim []
    (Function.update s.contents s.inodes []) = _
  rw [find_insert_new hname]
  split
  · rename_i hn
    rw [Option.elim_some, Function.update_self, slot_injective hn, text_of_find_none hname]
  · rw [text]
    cases hfind : s.dir.files.find (slot F n) with
    | none => rfl
    | some inode =>
      have hne : inode ≠ s.inodes := (h.used _ _ hfind).ne
      rw [Option.elim_some, Option.elim_some, Function.update_of_ne hne]

theorem Inv.openFile (h : Inv F before s) (hs : s.pc = .opening) :
    Inv F before { (s.openCreate (logName F)).1 with
      pc := .duplicating (s.openCreate (logName F)).2
      opened := s.opened ++ [(s.openCreate (logName F)).2] } := by
  have hplaced := h.placed
  unfold Placed at hplaced
  rw [hs] at hplaced
  obtain ⟨hnone, hold⟩ := hplaced
  have hopen := openCreate_new (s := s) (n := logName F) hnone
  have htext := text_openCreate h.unlinked hnone
  rw [hopen] at htext ⊢
  refine ⟨h.unlinked.insert _ hnone, ⟨?_, Function.update_self .., ?_⟩, fun B hB => ?_⟩
  · exact (find_insert_new hnone ..).trans (if_pos rfl)
  · exact (find_insert_new hnone ..).trans
      ((if_neg (slot_injective.ne (by decide))).trans hold)
  · have hB' (n : ℕ) (hn : s.dir.files.HasKey (slot F n)) : n < B := by
      refine hB n ?_
      obtain ⟨inode, hinode⟩ := SortedMap.hasKey_iff.1 hn
      refine SortedMap.hasKey_iff.2 ⟨inode, (find_insert_new hnone ..).trans ?_⟩
      rw [if_neg, hinode]
      intro heq
      rw [heq] at hinode
      cases hnone.symm.trans hinode
    exact (Directory.joined_congr fun n _ => htext n).trans (h.transcript B hB')

theorem Inv.dup2 (h : Inv F before s) {newfd : ℕ} (hs : s.pc = .duplicating newfd) :
    Inv F before { s with pc := .sleeping, loggerFileFd_ := newfd } := by
  have hplaced := h.placed
  unfold Placed at hplaced
  rw [hs] at hplaced
  exact ⟨h.unlinked, hplaced.1, h.transcript⟩

/-! ### The numbers -/

/-- The numbers that the loop over the directory reads, when `fileName_` does not occur again in the
names of the log files. -/
theorem Inv.looping (h : Inv F before s) (hF : ∀ N, ¬ F <:+: ascii ".log." ++ decimalDigits N)
    (hs : s.pc = .sleeping) {listing : List Bytes} {nums : List ℤ}
    (hlisting : listing.Perm (s.dir.files.entries.map Prod.fst))
    (hcollect : collectNums F listing = .ok nums) :
    Inv F before { s with pc := .looping (nums.insertionSort (· ≥ ·)) } := by
  have hplaced := h.placed
  unfold Placed at hplaced
  rw [hs] at hplaced
  have hmem (num : ℤ) : num ∈ nums.insertionSort (· ≥ ·) ↔ num ∈ nums := List.mem_insertionSort _
  refine ⟨h.unlinked, ⟨hplaced, List.pairwise_insertionSort _ _, fun num hnum => ?_, ?_⟩,
    h.transcript⟩
  · exact ((collectNums_eq_ok hcollect num).1 ((hmem num).1 hnum)).1
  · intro n _ hlt _ hnext
    obtain ⟨inode, hinode⟩ := SortedMap.hasKey_iff.1 hnext
    have hlisted : slot F (n + 1) ∈ listing :=
      hlisting.mem_iff.2 (List.mem_map.2 ⟨(_, inode), SortedMap.mem_entries.2 hinode, rfl⟩)
    have hpos : (0 : ℤ) < (n + 1 : ℕ) := by omega
    have hget : getNum F (slot F (n + 1)) = .ok ((n + 1 : ℕ) : ℤ) :=
      (getNum_eq_ok hpos).2 ⟨(logName_ne_numberedName _).symm,
        numericSuffix_numberedName (hF (n + 1)), by omega⟩
    exact (hmem _).2 ((collectNums_eq_ok hcollect _).2 ⟨hpos, _, hlisted, hget⟩)

theorem Inv.fail (h : Inv F before s) (error : RotateError) :
    Inv F before { s with pc := .failed error } :=
  ⟨h.unlinked, trivial, h.transcript⟩

/-- Every step keeps the invariant, but a rename that fails for reasons of its own. -/
theorem inv_step {limit : ℕ} {a : LogAction} (h : Inv F before s)
    (hF : ∀ N, ¬ F <:+: ascii ".log." ++ decimalDigits N) (ha : a ≠ .rename true)
    (hstep : step limit F s a = some t) : Inv F before t := by
  cases a with
  | writev bytes =>
    simp only [step] at hstep
    split at hstep
    · cases hstep
    · rename_i hpc
      cases hstep
      exact h.append hpc bytes
  | checkNeedRotate listing =>
    simp only [step] at hstep
    split at hstep
    · rename_i hs
      split at hstep
      · rename_i hlisting
        split at hstep
        · split at hstep <;> rename_i hcollect <;> cases hstep
          · exact h.looping hF hs hlisting hcollect
          · exact h.fail _
        · cases hstep
          exact h
      · cases hstep
    · cases hstep
  | rename fails =>
    obtain rfl : fails = false := by
      cases fails with
      | false => rfl
      | true => exact absurd rfl ha
    simp only [step, renameStep] at hstep
    split at hstep
    · rename_i num nums hs
      split at hstep
      · cases hstep
        exact h.fail _
      · rename_i hlt
        cases hstep
        exact h.loop hs (by omega)
    · rename_i hs
      obtain ⟨dir, hrename, hinv⟩ := h.renameLog hs
      rw [if_neg Bool.false_ne_true, hrename] at hstep
      cases hstep
      exact hinv
    · cases hstep
  | openFile =>
    simp only [step] at hstep
    split at hstep
    · rename_i hs
      cases hstep
      have hopened : (s.openCreate (logName F)).1.opened = s.opened := by
        unfold openCreate
        split <;> rfl
      rw [hopened]
      exact h.openFile hs
    · cases hstep
  | dup2 =>
    simp only [step] at hstep
    split at hstep
    · rename_i newfd hs
      cases hstep
      exact h.dup2 hs
    · cases hstep

/-! ## Runs -/

theorem written_init (dir : Directory Bytes ℕ) (contents : ℕ → Bytes) (inodes : ℕ) :
    (init F dir contents inodes).written = [] := by
  simp only [init, openCreate]
  split <;> rfl

/-- `init` makes the current log file when there is none. -/
theorem inv_init {dir : Directory Bytes ℕ} {inodes : ℕ} (h : Unlinked F dir inodes)
    (contents : ℕ → Bytes) :
    Inv F ((init F dir contents inodes).text F) (init F dir contents inodes) := by
  have hplaced : (init F dir contents inodes).dir.files.find (slot F 0) =
      some (init F dir contents inodes).loggerFileFd_ ∧
      Unlinked F (init F dir contents inodes).dir (init F dir contents inodes).inodes := by
    simp only [init, openCreate]
    cases hlog : dir.files.find (logName F) with
    | some inode => exact ⟨hlog, h⟩
    | none => exact ⟨(find_insert_new hlog ..).trans (if_pos rfl), h.insert _ hlog⟩
  refine ⟨hplaced.2, ?_, fun B _ => ?_⟩
  · unfold Placed
    rw [show (init F dir contents inodes).pc = .sleeping by
      simp only [init, openCreate]
      split <;> rfl]
    exact hplaced.1
  · rw [written_init, List.append_nil]

/-- What the `writev`s of a run have written. -/
def logged (as : List LogAction) : Bytes :=
  as.flatMap fun
    | .writev bytes => bytes
    | _ => []

theorem written_step {limit : ℕ} {a : LogAction} (h : step limit F s a = some t) :
    t.written = s.written ++ logged [a] := by
  have hopened : (s.openCreate (logName F)).1.written = s.written := by
    unfold openCreate
    split <;> rfl
  cases a with
  | writev bytes =>
    simp only [step] at h
    split at h <;> cases h
    simp [logged, append]
  | checkNeedRotate listing =>
    simp only [step] at h
    split at h
    · split at h
      · split at h
        · split at h <;> cases h <;> simp [logged]
        · cases h
          simp [logged]
      · cases h
    · cases h
  | rename fails =>
    simp only [step, renameStep] at h
    split at h
    · split at h <;> cases h <;> simp [logged]
    · split at h <;> cases h <;> simp [logged]
    · cases h
  | openFile =>
    simp only [step] at h
    split at h <;> cases h
    simp [logged, hopened]
  | dup2 =>
    simp only [step] at h
    split at h <;> cases h
    simp [logged]

theorem written_run {limit : ℕ} {as : List LogAction} (hrun : run (step limit F) s as = some t) :
    t.written = s.written ++ logged as := by
  induction as generalizing s with
  | nil =>
    cases hrun
    simp [logged]
  | cons a as ih =>
    obtain ⟨u, hu, hut⟩ := run_cons.1 hrun
    rw [ih hut, written_step hu, List.append_assoc]
    simp [logged]

/-- Nothing that is logged is lost or changes its place: in every state of every run, with any
number of threads that log and rotations under way, the log files from the highest number to the
current one hold in a row what they held at the start, followed by all that was written since in the
order of the `writev`s.  The numbers must be readable from the names, no rename may fail for
reasons of its own, and at the start no two of the names may be links of one file, while a new file
gets an inode of its own (`Unlinked`). -/
theorem transcript_of_run {limit : ℕ} (hF : ∀ N, ¬ F <:+: ascii ".log." ++ decimalDigits N)
    {dir : Directory Bytes ℕ} {inodes : ℕ} (hdir : Unlinked F dir inodes) (contents : ℕ → Bytes)
    {as : List LogAction} (has : ∀ a ∈ as, a ≠ .rename true)
    (hrun : run (step limit F) (init F dir contents inodes) as = some t) {B : ℕ}
    (hB : ∀ n, t.dir.files.HasKey (slot F n) → n < B) :
    Directory.joined (t.text F) B =
      Directory.joined ((init F dir contents inodes).text F) B ++ logged as := by
  have h := run_invariant_of_always (P := fun _ a => a ≠ .rename true)
    (fun _ _ _ hs ha hstep => inv_step hs hF ha hstep) (inv_init hdir contents)
    (always_of_mem has _) hrun
  have hwritten := written_run hrun
  rw [written_init, List.nil_append] at hwritten
  rw [h.transcript B hB, hwritten]

/-- The log file of `app` and number 1, in inodes 0 and 1. -/
def appDir : Directory Bytes ℕ :=
  { files := ((∅ : SortedMap Bytes ℕ).insert (logName (ascii "app")) 0).insert
      (numberedName (ascii "app") (ascii "1")) 1 }

theorem appDir_unlinked : Unlinked (ascii "app") appDir 2 := by
  have hempty : Unlinked (ascii "app") { files := (∅ : SortedMap Bytes ℕ) } 0 :=
    ⟨fun _ _ _ h _ => (by cases h), fun _ _ h => (by cases h)⟩
  have hlog := hempty.insert (logName (ascii "app")) rfl
  exact hlog.insert (numberedName (ascii "app") (ascii "1"))
    ((find_insert_new rfl ..).trans (if_neg (logName_ne_numberedName _).symm))

theorem app_not_infix (N : ℕ) : ¬ ascii "app" <:+: ascii ".log." ++ decimalDigits N := by
  intro h
  have hmem : ch 'a' ∈ ascii ".log." ++ decimalDigits N := h.subset (by decide)
  rcases List.mem_append.1 hmem with hmem | hmem
  · exact absurd hmem (by decide)
  · exact absurd (isDigit_of_mem_decimalDigits hmem) (by decide)

/-- A rotation with a write between any two of its steps. -/
def appRun : List LogAction :=
  [.writev (ascii "a"),
    .checkNeedRotate [numberedName (ascii "app") (ascii "1"), logName (ascii "app")],
    .writev (ascii "b"), .rename false, .writev (ascii "c"), .rename false, .writev (ascii "d"),
    .openFile, .writev (ascii "e"), .dup2, .writev (ascii "f")]

/-- Before the run. -/
def appInit : LogFiles :=
  init (ascii "app") appDir (fun inode => if inode = 0 then ascii "new" else ascii "old") 2

theorem transcript_of_run_app :
    ∃ t, run (step 3 (ascii "app")) appInit appRun = some t ∧
      (∀ n, t.dir.files.HasKey (slot (ascii "app") n) → n < 3) ∧
      Directory.joined (t.text (ascii "app")) 3 =
        Directory.joined (appInit.text (ascii "app")) 3 ++ logged appRun := by
  have hrun : ∃ t, run (step 3 (ascii "app")) appInit appRun = some t ∧
      t.dir.files.entries.map Prod.fst =
        [slot (ascii "app") 0, slot (ascii "app") 1, slot (ascii "app") 2] := ⟨_, rfl, rfl⟩
  obtain ⟨t, hrun, hnames⟩ := hrun
  have hB (n : ℕ) (hn : t.dir.files.HasKey (slot (ascii "app") n)) : n < 3 := by
    obtain ⟨inode, hinode⟩ := SortedMap.hasKey_iff.1 hn
    have hmem : slot (ascii "app") n ∈ t.dir.files.entries.map Prod.fst :=
      List.mem_map.2 ⟨(_, inode), SortedMap.mem_entries.2 hinode, rfl⟩
    rw [hnames] at hmem
    simp only [List.mem_cons, slot_injective.eq_iff, List.not_mem_nil, or_false] at hmem
    omega
  exact ⟨t, hrun, hB, transcript_of_run app_not_infix appDir_unlinked _ (by decide) hrun hB⟩

/-! ## A rotation that nobody disturbs -/

/-- The directory with texts in the place of inodes. -/
def Shows (s : LogFiles) (dir : Directory Bytes Bytes) : Prop :=
  ∀ name, (s.dir.files.find name).map s.contents = dir.files.find name

theorem Shows.tryRename {dir : Directory Bytes Bytes} (h : Shows s dir) (fails : Bool)
    (source target : Bytes) (pc : RotatePc) :
    Shows { s with pc := pc, dir := s.dir.tryRename fails source target }
      (dir.tryRename fails source target) := by
  cases fails with
  | true => exact h
  | false =>
    intro name
    rw [Directory.find_tryRename, Directory.find_tryRename, ← h source, ← h target, ← h name]
    split
    · cases s.dir.files.find source <;> rfl
    · split <;> rfl

theorem exists_find_of_tryRename {dir : Directory Bytes ℕ} {fails : Bool}
    {source target name : Bytes} {inode : ℕ}
    (h : (dir.tryRename fails source target).files.find name = some inode) :
    ∃ name', dir.files.find name' = some inode := by
  cases fails with
  | true => exact ⟨name, h⟩
  | false =>
    rw [Directory.find_tryRename] at h
    split at h
    · rcases Option.or_eq_some_iff.1 h with h | ⟨-, h⟩
      · exact ⟨source, h⟩
      · exact ⟨target, h⟩
    · split at h
      · cases h
      · exact ⟨name, h⟩

theorem Shows.loop {limit : ℕ} {dir after : Directory Bytes Bytes} (h : Shows s dir)
    {fails : ℕ → Bool} {turn : ℕ} {nums : List ℤ} (hs : s.pc = .looping nums)
    (hloop : renameLoop F fails turn nums dir = .ok after) :
    ∃ moved, run (step limit F) s
        ((List.range' turn nums.length).map fun i => .rename (fails i)) =
          some { s with pc := .looping [], dir := moved } ∧
      Shows { s with pc := .looping [], dir := moved } after ∧
      ∀ name inode, moved.files.find name = some inode →
        ∃ name', s.dir.files.find name' = some inode := by
  induction nums generalizing s turn dir with
  | nil =>
    cases hloop
    refine ⟨s.dir, ?_, h, fun name inode hfind => ⟨name, hfind⟩⟩
    rw [← hs]
    rfl
  | cons num nums ih =>
    rw [renameLoop] at hloop
    split at hloop
    · cases hloop
    · rename_i hlt
      obtain ⟨moved, hrun, hshows, horigin⟩ :=
        ih (h.tryRename (fails turn) _ _ (.looping nums)) rfl hloop
      refine ⟨moved, ?_, hshows, fun name inode hfind => ?_⟩
      · rw [List.length_cons, List.range'_succ, List.map_cons, run_cons]
        refine ⟨_, ?_, hrun⟩
        simp only [step, renameStep, hs, if_neg hlt]
      · obtain ⟨name', hname'⟩ := horigin name inode hfind
        exact exists_find_of_tryRename hname'

/-- When nobody writes, the steps of a rotation do what `rotate` does. -/
theorem run_rotate {limit : ℕ} {dir after : Directory Bytes Bytes} (h : Shows s dir)
    (hused : ∀ name inode, s.dir.files.find name = some inode → inode < s.inodes)
    (hs : s.pc = .sleeping) (hneed : s.needRotate limit = true) {fails : ℕ → Bool}
    {listing : List Bytes} (hlisting : listing.Perm (s.dir.files.entries.map Prod.fst))
    (hrotate : rotate F fails listing dir = .ok after) :
    ∃ n t, run (step limit F) s (.checkNeedRotate listing ::
        ((List.range' 0 n).map fun i => .rename (fails i)) ++
          [.rename false, .openFile, .dup2]) = some t ∧
      Shows t after ∧ t.pc = .sleeping := by
  obtain ⟨nums, hcollect, hrotate⟩ := Exceptions.bind_eq_ok.1 hrotate
  obtain ⟨dir', hloop, hrotate⟩ := Exceptions.bind_eq_ok.1 hrotate
  have hstart : Shows { s with pc := .looping (nums.insertionSort (· ≥ ·)) } dir := h
  obtain ⟨moved, hrun, hshows, horigin⟩ := hstart.loop rfl hloop
  have hne : logName F ≠ logName F ++ ascii ".1" := logName_ne_numberedName (ascii "1")
  cases hlog : moved.files.find (logName F) with
  | none =>
    -- there is no current log file, and `rotate` throws
    have hnone : dir'.files.find (logName F) = none := by
      rw [← hshows, show moved.files.find (logName F) = none from hlog, Option.map_none]
    rw [Directory.rename, hnone] at hrotate
    cases hrotate
  | some inode =>
    have hsome : dir'.files.find (logName F) = some (s.contents inode) := by
      rw [← hshows, show moved.files.find (logName F) = some inode from hlog, Option.map_some]
    rw [Directory.rename_eq_some hsome] at hrotate
    cases hrotate
    have hrenamed := hshows.tryRename false (logName F) (logName F ++ ascii ".1") .opening
    have hfree : (moved.tryRename false (logName F) (logName F ++ ascii ".1")).files.find
        (logName F) = none := by
      rw [Directory.find_tryRename, if_neg hne, if_pos rfl]
    have hfree' : ¬ (dir'.tryRename false (logName F) (logName F ++ ascii ".1")).files.HasKey
        (logName F) := by
      rw [SortedMap.not_hasKey_iff, Directory.find_tryRename, if_neg hne, if_pos rfl]
    let renamed := moved.tryRename false (logName F) (logName F ++ ascii ".1")
    refine ⟨_, { s with
      dir := { renamed with files := renamed.files.insert (logName F) s.inodes }
      contents := Function.update s.contents s.inodes []
      inodes := s.inodes + 1
      loggerFileFd_ := s.inodes
      pc := .sleeping
      opened := s.opened ++ [s.inodes] },
      run_append.2 ⟨_, run_cons.2 ⟨_, ?_, hrun⟩, ?_⟩, ?_, rfl⟩
    · simp only [step, hs, if_pos hlisting, hneed, if_true, hcollect]
    · simp only [run_cons, run_nil, step, renameStep, if_neg Bool.false_ne_true,
        Directory.rename_eq_some hlog, Option.some.injEq, exists_eq_left']
      rw [openCreate_new (s := { s with
        pc := .opening
        dir := moved.tryRename false (logName F) (logName F ++ ascii ".1") }) hfree]
    · intro name
      show ((SortedMap.insert _ (logName F) s.inodes).find name).map
        (Function.update s.contents s.inodes []) = _
      rw [find_insert_new hfree, SortedMap.find_insert]
      by_cases hname : name = logName F
      · rw [if_pos hname, if_pos ⟨hname, hfree'⟩, Option.map_some, Function.update_self]
      · rw [if_neg hname, if_neg fun h => hname h.1, ← hrenamed name]
        show Option.map _ ((moved.tryRename false _ _).files.find name) =
          Option.map s.contents ((moved.tryRename false _ _).files.find name)
        cases hfind : (moved.tryRename false (logName F) (logName F ++ ascii ".1")).files.find
            name with
        | none => rfl
        | some inode' =>
          obtain ⟨name', hname'⟩ := exists_find_of_tryRename hfind
          obtain ⟨name'', hname''⟩ := horigin name' inode' hname'
          have hold : inode' ≠ s.inodes := (hused _ _ hname'').ne
          rw [Option.map_some, Option.map_some, Function.update_of_ne hold]

/-! ## How often, and what stays open -/

/-- What a completed rotation has taken. -/
structure Counted (limit base k : ℕ) (s : LogFiles) : Prop where
  bytes : k * limit + (s.contents s.loggerFileFd_).length ≤ base + s.written.length
  full : s.pc ≠ .sleeping → (∀ error, s.pc ≠ .failed error) →
    limit ≤ (s.contents s.loggerFileFd_).length
  opened : s.opened.length = k + if s.pc matches .duplicating _ then 1 else 0

/-- How many rotations of a run were completed. -/
def rotations (as : List LogAction) : ℕ := as.countP fun a => a matches .dup2

theorem counted_step {limit base k : ℕ} {a : LogAction} (h : Inv F before s)
    (hcounted : Counted limit base k s) (ha : a ≠ .rename true)
    (hstep : step limit F s a = some t) : Counted limit base (k + rotations [a]) t := by
  obtain ⟨hbytes, hfull, hopened⟩ := hcounted
  cases a with
  | writev bytes =>
    simp only [step] at hstep
    split at hstep
    · cases hstep
    · cases hstep
      have hlength : ((s.append bytes).contents s.loggerFileFd_).length =
          (s.contents s.loggerFileFd_).length + bytes.length := by
        show (Function.update s.contents s.loggerFileFd_ _ s.loggerFileFd_).length = _
        rw [Function.update_self, List.length_append]
      refine ⟨?_, fun hpc herror => ?_, hopened⟩
      · show k * limit + ((s.append bytes).contents s.loggerFileFd_).length ≤
          base + (s.written ++ bytes).length
        rw [hlength, List.length_append]
        omega
      · exact (hfull hpc herror).trans (hlength ▸ Nat.le_add_right _ _)
  | checkNeedRotate listing =>
    simp only [step] at hstep
    split at hstep
    · rename_i hs
      rw [hs] at hopened
      split at hstep
      · split at hstep
        · rename_i hneed
          have hlimit : limit ≤ (s.contents s.loggerFileFd_).length := by
            simp only [needRotate] at hneed
            split at hneed
            · cases hneed
            · simpa using hneed
          split at hstep <;> cases hstep
          · exact ⟨hbytes, fun _ _ => hlimit, hopened⟩
          · exact ⟨hbytes, fun _ _ => hlimit, hopened⟩
        · cases hstep
          exact ⟨hbytes, hfull, by rw [hs]; exact hopened⟩
      · cases hstep
    · cases hstep
  | rename fails =>
    simp only [step, renameStep] at hstep
    split at hstep
    · rename_i num nums hs
      rw [hs] at hopened
      have hlimit := hfull (by rw [hs]; nofun) (by rw [hs]; nofun)
      split at hstep <;> cases hstep
      · exact ⟨hbytes, fun _ _ => hlimit, hopened⟩
      · exact ⟨hbytes, fun _ _ => hlimit, hopened⟩
    · rename_i hs
      rw [hs] at hopened
      have hlimit := hfull (by rw [hs]; nofun) (by rw [hs]; nofun)
      split at hstep <;> cases hstep
      · exact ⟨hbytes, fun _ _ => hlimit, hopened⟩
      · exact ⟨hbytes, fun _ _ => hlimit, hopened⟩
    · cases hstep
  | openFile =>
    simp only [step] at hstep
    split at hstep
    · rename_i hs
      have hplaced := h.placed
      unfold Placed at hplaced
      rw [hs] at hplaced hopened
      have hopen := openCreate_new (s := s) (n := logName F) hplaced.1
      have hne : s.loggerFileFd_ ≠ s.inodes := (h.unlinked.used _ _ hplaced.2).ne
      have hkept : Function.update s.contents s.inodes [] s.loggerFileFd_ =
          s.contents s.loggerFileFd_ := Function.update_of_ne hne ..
      have hlimit := hfull (by rw [hs]; nofun) (by rw [hs]; nofun)
      rw [hopen] at hstep
      cases hstep
      refine ⟨?_, fun _ _ => ?_, ?_⟩
      · show k * limit + (Function.update s.contents s.inodes [] s.loggerFileFd_).length ≤ _
        rw [hkept]
        exact hbytes
      · show limit ≤ (Function.update s.contents s.inodes [] s.loggerFileFd_).length
        rw [hkept]
        exact hlimit
      · simpa [rotations] using hopened
    · cases hstep
  | dup2 =>
    simp only [step] at hstep
    split at hstep
    · rename_i newfd hs
      have hplaced := h.placed
      unfold Placed at hplaced
      rw [hs] at hplaced hopened
      have hlimit := hfull (by rw [hs]; nofun) (by rw [hs]; nofun)
      cases hstep
      refine ⟨?_, fun hpc => absurd rfl hpc, ?_⟩
      · show (k + 1) * limit + (s.contents newfd).length ≤ base + s.written.length
        rw [hplaced.2.1, Nat.succ_mul, List.length_nil]
        omega
      · simpa [rotations] using hopened
    · cases hstep

theorem counted_run {limit base k : ℕ} (hF : ∀ N, ¬ F <:+: ascii ".log." ++ decimalDigits N)
    {as : List LogAction} (has : ∀ a ∈ as, a ≠ .rename true) (h : Inv F before s)
    (hcounted : Counted limit base k s) (hrun : run (step limit F) s as = some t) :
    Counted limit base (k + rotations as) t := by
  induction as generalizing s k with
  | nil =>
    cases hrun
    exact hcounted
  | cons a as ih =>
    obtain ⟨u, hu, hut⟩ := run_cons.1 hrun
    rw [List.forall_mem_cons] at has
    have hstep := counted_step h hcounted has.1 hu
    have hsum : rotations (a :: as) = rotations [a] + rotations as := by
      rw [rotations, ← List.singleton_append, List.countP_append]
      rfl
    rw [hsum, ← Nat.add_assoc]
    exact ih has.2 (inv_step h hF has.1 hu) hstep hut

/-- Each completed rotation takes as many bytes as the limit, and leaves one more descriptor open:
the one that `open` returned is never closed, only the one it is duplicated onto. -/
theorem rotations_of_run {limit : ℕ} (hF : ∀ N, ¬ F <:+: ascii ".log." ++ decimalDigits N)
    {dir : Directory Bytes ℕ} {inodes : ℕ} (hdir : Unlinked F dir inodes) (contents : ℕ → Bytes)
    {as : List LogAction} (has : ∀ a ∈ as, a ≠ .rename true)
    (hrun : run (step limit F) (init F dir contents inodes) as = some t) :
    rotations as * limit ≤ ((init F dir contents inodes).text F 0).length + (logged as).length ∧
      t.opened.length = rotations as + if t.pc matches .duplicating _ then 1 else 0 := by
  have hinit := inv_init (F := F) hdir contents
  have hpc : (init F dir contents inodes).pc = .sleeping ∧
      (init F dir contents inodes).opened = [] := by
    simp only [init, openCreate]
    split <;> exact ⟨rfl, rfl⟩
  have hplaced := hinit.placed
  unfold Placed at hplaced
  rw [hpc.1] at hplaced
  have hcounted : Counted limit ((init F dir contents inodes).text F 0).length 0
      (init F dir contents inodes) := by
    refine ⟨?_, fun h => absurd hpc.1 h, by rw [hpc.1, hpc.2]; rfl⟩
    rw [text_of_find hplaced]
    omega
  obtain ⟨hbytes, -, hopened⟩ := counted_run hF has hinit hcounted hrun
  have hwritten := written_run hrun
  rw [written_init, List.nil_append] at hwritten
  rw [Nat.zero_add] at hbytes hopened
  rw [hwritten] at hbytes
  exact ⟨by omega, hopened⟩

theorem rotations_of_run_app :
    ∃ t, run (step 3 (ascii "app")) appInit appRun = some t ∧
      rotations appRun * 3 ≤ (appInit.text (ascii "app") 0).length + (logged appRun).length ∧
      t.opened.length = rotations appRun + if t.pc matches .duplicating _ then 1 else 0 := by
  have hrun : ∃ t, run (step 3 (ascii "app")) appInit appRun = some t := ⟨_, rfl⟩
  obtain ⟨t, hrun⟩ := hrun
  exact ⟨t, hrun, rotations_of_run app_not_infix appDir_unlinked _ (by decide) hrun⟩

end LogFiles

end GlobalLoggerManager

end CoUringWeb
