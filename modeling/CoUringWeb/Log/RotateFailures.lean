import CoUringWeb.Log.Rotate

/-!
# Renames that fail in `rotate`

A rename of a numbered log file that throws is passed over, and the loop goes on to the next lower
number, whose target is the file that has just failed to move.  `rotate_keepsContents_iff` says for
which sets of failing renames no content is lost.
-/

namespace CoUringWeb

open Machine Numerals

namespace GlobalLoggerManager

variable {F : Bytes}

/-- The renames of the numbers in `failing` fail, at whichever turns of the loop they come. -/
def failsAt (fileName_ : Bytes) (failing : ℕ → Bool) (listing : List Bytes) (turn : ℕ) : Bool :=
  match collectNums fileName_ listing with
  | .ok nums => ((nums.insertionSort (· ≥ ·))[turn]?).any fun num => failing num.toNat
  | .error _ => false

/-- Each content of the directory before is the content of a file afterwards. -/
def KeepsContents (before after : Directory Bytes Bytes) : Prop :=
  ∀ name content, before.files.find name = some content →
    ∃ name', after.files.find name' = some content

/-! ## The run of `rotate` -/

/-- The loop over the numbers returns only when they are below the largest `int`. -/
theorem lt_of_renameLoop {fails : ℕ → Bool} {nums : List ℤ} {turn : ℕ}
    {dir after : Directory Bytes Bytes} (h : renameLoop F fails turn nums dir = .ok after) :
    ∀ num ∈ nums, num < 2 ^ 31 - 1 := by
  induction nums generalizing turn dir with
  | nil => simp
  | cons num nums ih =>
    rw [renameLoop] at h
    split at h
    · cases h
    · rename_i hlt
      exact List.forall_mem_cons.2 ⟨by omega, ih h⟩

theorem rotate_failsAt {failing : ℕ → Bool} {listing : List Bytes} {nums : List ℤ}
    {dir : Directory Bytes Bytes} (hcollect : collectNums F listing = .ok nums)
    (hnums : ∀ num ∈ nums, 0 < num ∧ num < 2 ^ 31 - 1) (hlog : dir.files.HasKey (logName F)) :
    rotate F (failsAt F failing listing) listing dir =
      .ok (rotated F (moving failing nums) dir) := by
  refine rotate_eq hcollect hnums (fun i num hi => ?_) hlog
  rw [failsAt, hcollect]
  simp [hi]

/-- `rotate` comes to the new log file when each entry has a number below the largest `int`, or
none. -/
theorem range_of_rotate {fails : ℕ → Bool} {listing : List Bytes}
    {dir after : Directory Bytes Bytes} (h : rotate F fails listing dir = .ok after) :
    ∀ name ∈ listing, ∃ num < 2 ^ 31 - 1, getNum F name = .ok num := by
  intro name hname
  obtain ⟨nums, hcollect, h⟩ := Exceptions.bind_eq_ok.1 h
  obtain ⟨dir', hloop, -⟩ := Exceptions.bind_eq_ok.1 h
  obtain ⟨num, hnum⟩ := exists_collectNums_iff.1 ⟨nums, hcollect⟩ name hname
  refine ⟨num, ?_, hnum⟩
  by_contra hlarge
  have hmem := (collectNums_eq_ok hcollect num).2 ⟨by omega, name, hname, hnum⟩
  exact hlarge (lt_of_renameLoop hloop num ((List.mem_insertionSort _).2 hmem))

/-- With every entry's number in that range `rotate` makes the moves that do not fail. -/
theorem exists_rotate_eq {listing : List Bytes} {dir : Directory Bytes Bytes}
    (hlt : ∀ name ∈ listing, ∃ num < 2 ^ 31 - 1, getNum F name = .ok num)
    (hlog : dir.files.HasKey (logName F)) (failing : ℕ → Bool) :
    ∃ nums, collectNums F listing = .ok nums ∧
      rotate F (failsAt F failing listing) listing dir =
        .ok (rotated F (moving failing nums) dir) := by
  obtain ⟨nums, hcollect⟩ := exists_collectNums_iff.2 fun name hname =>
    (hlt name hname).imp fun num h => h.2
  refine ⟨nums, hcollect, rotate_failsAt hcollect (fun num hnum => ?_) hlog⟩
  obtain ⟨hpos, name, hname, hget⟩ := (collectNums_eq_ok hcollect num).1 hnum
  obtain ⟨num', hlt', hget'⟩ := hlt name hname
  cases hget.symm.trans hget'
  exact ⟨hpos, hlt'⟩

/-! ## Contents -/

/-- A directory in which each file contains its own name. -/
def ownNames (listing : List Bytes) : Directory Bytes Bytes :=
  { files := listing.foldl (fun m name => m.insert name name) ∅ }

theorem find_ownNames {listing : List Bytes} {name content : Bytes} :
    (ownNames listing).files.find name = some content ↔ name ∈ listing ∧ content = name := by
  rw [ownNames, SortedMap.find_foldl_insert, SortedMap.find_empty, Option.none_or]
  generalize hfind : List.find? _ listing = found
  cases found with
  | none =>
    have hnot : name ∉ listing := fun hmem => by
      simpa using List.find?_eq_none.1 hfind name hmem
    simp [hnot]
  | some b =>
    have hmem := List.mem_of_find?_eq_some hfind
    obtain rfl : b = name := by simpa using List.find?_some hfind
    rw [and_iff_right hmem, Option.map_some, Option.some_inj, eq_comm]

theorem mem_ownNames (listing : List Bytes) (name : Bytes) :
    name ∈ listing ↔ (ownNames listing).files.HasKey name := by
  rw [SortedMap.hasKey_iff]
  simp [find_ownNames]

theorem slot_ne_nil (n : ℕ) : slot F n ≠ [] := by
  cases n <;> simp [slot, numberedName, logName, outputFileExtensionName, ascii]

theorem succ_mem_slots_moving {failing : ℕ → Bool} {nums : List ℤ} {n : ℕ} :
    n + 1 ∈ slots (moving failing nums) ↔ ((n + 1 : ℕ) : ℤ) ∈ nums ∧ failing (n + 1) = false := by
  rw [mem_slots]
  constructor
  · rintro (⟨num, hnum, htoNat⟩ | hzero)
    · obtain rfl : num = ((n + 1 : ℕ) : ℤ) := by omega
      exact mem_moving.1 hnum
    · cases hzero
  · exact fun h => Or.inl ⟨_, mem_moving.2 h, rfl⟩

/-- A recognised log file moves unless its rename fails. -/
theorem succ_mem_slots_iff {listing : List Bytes} {nums : List ℤ} {failing : ℕ → Bool}
    (hcollect : collectNums F listing = .ok nums)
    (hrec : ∀ N ≥ 1, numberedName F (decimalDigits N) ∈ listing →
      getNum F (numberedName F (decimalDigits N)) = .ok N) {n : ℕ}
    (hmem : slot F (n + 1) ∈ listing) :
    n + 1 ∈ slots (moving failing nums) ↔ failing (n + 1) = false := by
  rw [succ_mem_slots_moving, and_iff_right]
  exact (collectNums_eq_ok hcollect _).2 ⟨by omega, _, hmem, hrec (n + 1) n.succ_pos hmem⟩

/-- The file in the way of a move is lost. -/
theorem not_keepsContents {listing : List Bytes} {nums : List ℤ} {n : ℕ}
    (hout : n + 1 ∉ slots nums) (hn : n ∈ slots nums) (hsource : slot F n ∈ listing)
    (htarget : slot F (n + 1) ∈ listing) :
    ¬ KeepsContents (ownNames listing) (rotated F nums (ownNames listing)) := by
  intro hkeeps
  have hfile := find_ownNames.2 ⟨htarget, rfl⟩
  obtain ⟨name, hname⟩ := hkeeps _ _ hfile
  rw [find_rotated] at hname
  split at hname
  · exact slot_ne_nil (n + 1) (Option.some.inj hname).symm
  · exact Directory.find_shift_ne slot_injective (slots_pairwise nums) hout hn
      ((mem_ownNames listing _).1 hsource) hfile
      (fun k hk => (find_ownNames.1 hk).2.symm) name hname

/-- No content is lost when no file is in the way of a move. -/
theorem keepsContents_rotated {nums : List ℤ} {dir : Directory Bytes Bytes}
    (hfree : ∀ n, dir.files.HasKey (slot F (n + 1)) → n + 1 ∉ slots nums →
      ¬ (n ∈ slots nums ∧ dir.files.HasKey (slot F n))) :
    KeepsContents dir (rotated F nums dir) := by
  intro name content hcontent
  obtain ⟨name', hne, hname'⟩ := Directory.exists_find_shift slot_injective (slots_pairwise nums)
    (mem_slots.2 (Or.inr rfl)) hfree hcontent
  refine ⟨name', ?_⟩
  rw [find_rotated, if_neg (show name' ≠ logName F from hne), hname']

/-- Where the names of the numbered log files are recognised, no content is lost, whatever the
contents are, if and only if each numbered file whose rename fails is not number 1 and the file one
below it is missing or fails to move as well. -/
theorem rotate_keepsContents_iff {listing : List Bytes} (hlog : logName F ∈ listing)
    (hrec : ∀ N ≥ 1, numberedName F (decimalDigits N) ∈ listing →
      getNum F (numberedName F (decimalDigits N)) = .ok N) (failing : ℕ → Bool) :
    (∀ dir : Directory Bytes Bytes, (∀ name, name ∈ listing ↔ dir.files.HasKey name) →
      ∃ after, rotate F (failsAt F failing listing) listing dir = .ok after ∧
        KeepsContents dir after) ↔
      (∀ name ∈ listing, ∃ num < 2 ^ 31 - 1, getNum F name = .ok num) ∧
        ∀ N ≥ 1, numberedName F (decimalDigits N) ∈ listing → failing N →
          2 ≤ N ∧ (numberedName F (decimalDigits (N - 1)) ∈ listing → failing (N - 1)) := by
  constructor
  · intro hall
    obtain ⟨after, hrotate, hkeeps⟩ := hall (ownNames listing) (mem_ownNames listing)
    have hlt := range_of_rotate hrotate
    obtain ⟨nums, hcollect, hrotated⟩ := exists_rotate_eq hlt ((mem_ownNames _ _).1 hlog) failing
    cases hrotate.symm.trans hrotated
    refine ⟨hlt, fun N hN hmem hfails => ?_⟩
    obtain ⟨n, rfl⟩ := Nat.exists_eq_add_of_le' hN
    have hout : n + 1 ∉ slots (moving failing nums) := by
      rw [succ_mem_slots_iff hcollect hrec hmem, hfails]
      decide
    cases n with
    | zero => exact absurd hkeeps (not_keepsContents hout (mem_slots.2 (Or.inr rfl)) hlog hmem)
    | succ n =>
      refine ⟨by omega, fun hbelow => ?_⟩
      by_contra hmoving
      have hin := (succ_mem_slots_iff hcollect hrec hbelow).2 (by simpa using hmoving)
      exact not_keepsContents hout hin hbelow hmem hkeeps
  · rintro ⟨hlt, hchain⟩ dir hdir
    obtain ⟨nums, hcollect, hrotated⟩ := exists_rotate_eq hlt ((hdir _).1 hlog) failing
    refine ⟨_, hrotated, keepsContents_rotated ?_⟩
    rintro n hkey hout ⟨hn, hbelow⟩
    have hmem := (hdir _).2 hkey
    rw [succ_mem_slots_iff hcollect hrec hmem, Bool.not_eq_false] at hout
    obtain ⟨htwo, hchain⟩ := hchain (n + 1) n.succ_pos hmem hout
    obtain ⟨m, rfl⟩ : ∃ m, n = m + 1 := Nat.exists_eq_add_one_of_ne_zero (by omega)
    have hbelow := (hdir _).2 hbelow
    have hfails : failing (m + 1) = true := hchain hbelow
    rw [succ_mem_slots_iff hcollect hrec hbelow, hfails] at hn
    cases hn

/-- Numbers 1 and 3, of which the move of number 3 fails. -/
theorem rotate_keepsContents_gap :
    ∃ after, rotate (ascii "app") (failsAt (ascii "app") (fun N => N = 3)
        ([0, 1, 3].map (slot (ascii "app")))) ([0, 1, 3].map (slot (ascii "app")))
        (ownNames ([0, 1, 3].map (slot (ascii "app")))) = .ok after ∧
      KeepsContents (ownNames ([0, 1, 3].map (slot (ascii "app")))) after := by
  have hslots : ∀ N ≥ 1, numberedName (ascii "app") (decimalDigits N) ∈
      [0, 1, 3].map (slot (ascii "app")) → N = 1 ∨ N = 3 := by
    intro N hN hmem
    obtain ⟨n, rfl⟩ := Nat.exists_eq_add_of_le' hN
    have hmem := (List.mem_map_of_injective slot_injective (a := n + 1)).1 hmem
    simpa using hmem
  refine (rotate_keepsContents_iff (by decide) ?_ fun N => N = 3).2 ⟨?_, ?_⟩ _ (mem_ownNames _)
  · intro N hN hmem
    rcases hslots N hN hmem with rfl | rfl
    · rfl
    · rfl
  · intro name hname
    obtain ⟨n, hn, rfl⟩ := List.mem_map.1 hname
    have hn : n = 0 ∨ n = 1 ∨ n = 3 := by simpa using hn
    rcases hn with rfl | rfl | rfl
    exacts [⟨-1, by decide, rfl⟩, ⟨1, by decide, rfl⟩, ⟨3, by decide, rfl⟩]
  · intro N hN hmem hfails
    rcases hslots N hN hmem with rfl | rfl
    · simp at hfails
    · refine ⟨by decide, fun hbelow => ?_⟩
      rcases hslots 2 (by decide) hbelow with h | h <;> cases h

/-- When number 1 does not move, the current log file is moved onto it. -/
theorem failed_rename_loses :
    getNum (ascii "app") (numberedName (ascii "app") (ascii "1")) = .ok 1 ∧
      ∃ after, rotate (ascii "app") (failsAt (ascii "app") (fun N => N = 1)
          [logName (ascii "app"), numberedName (ascii "app") (ascii "1")])
          [logName (ascii "app"), numberedName (ascii "app") (ascii "1")]
          (twoLogs (ascii "app")) = .ok after ∧
        ¬ KeepsContents (twoLogs (ascii "app")) after := by
  have hrun : (rotate (ascii "app") (failsAt (ascii "app") (fun N => N = 1)
      [logName (ascii "app"), numberedName (ascii "app") (ascii "1")])
      [logName (ascii "app"), numberedName (ascii "app") (ascii "1")]
      (twoLogs (ascii "app"))).map (fun d => d.files.entries) =
        .ok [(ascii "app.log", []), (ascii "app.log.1", ascii "new")] := rfl
  cases hrotate : rotate (ascii "app") (failsAt (ascii "app") (fun N => N = 1)
      [logName (ascii "app"), numberedName (ascii "app") (ascii "1")])
      [logName (ascii "app"), numberedName (ascii "app") (ascii "1")]
      (twoLogs (ascii "app")) with
  | error e =>
    rw [hrotate] at hrun
    cases hrun
  | ok after =>
    rw [hrotate] at hrun
    have hentries : after.files.entries = _ := Except.ok.inj hrun
    refine ⟨rfl, after, rfl, fun hkeeps => ?_⟩
    obtain ⟨name, hname⟩ := hkeeps (numberedName (ascii "app") (ascii "1")) (ascii "old") rfl
    have hmem := SortedMap.mem_entries.2 hname
    rw [hentries] at hmem
    rcases List.mem_pair.1 hmem with h | h
    · exact absurd (show ascii "old" = [] from congrArg Prod.snd h) (by decide)
    · exact absurd (show ascii "old" = ascii "new" from congrArg Prod.snd h) (by decide)

end GlobalLoggerManager

end CoUringWeb
