import CoUringWeb.Framework.Directory
import CoUringWeb.Framework.Exceptions
import CoUringWeb.Framework.Numerals
import CoUringWeb.Utils.Split
import Mathlib.Data.List.Lex

/-!
# `GlobalLoggerManager::rotate`

Log rotation, `rotate` of `src/logger.cpp`, on the directory of the log files.  `rotate` reads a
number off the name of each entry, renames the numbered log files in descending order, and renames
the current one to number 1.  The directory is listed in any order, and `open` and `dup2` succeed.

The numbers are found by splitting the names at `fileName_`, so that a file is missed when
`fileName_` occurs in its name once more, and the name that ends in `fileName_` is taken apart into
an empty vector.  `rotate_losesNothing_iff` says for which directories this does no harm.
-/

namespace CoUringWeb

open Machine Numerals

namespace GlobalLoggerManager

/-- What keeps `rotate` from returning. -/
inductive RotateError where
  /-- `back()` of an empty vector: undefined behaviour -/
  | back_of_empty
  /-- `num + 1` above the range of `int`: undefined behaviour -/
  | overflow
  /-- thrown by the last rename, which is in no `try` block -/
  | filesystem_error
  deriving DecidableEq, Repr

/-! ## Names -/

def outputFileExtensionName : Bytes := ascii "log"

/-- `fileName_ + '.' + outputFileExtensionName` -/
def logName (fileName_ : Bytes) : Bytes := fileName_ ++ (ascii "." ++ outputFileExtensionName)

/-- `std::to_string(num)` for a number that is not negative -/
def to_string (num : ℤ) : Bytes := decimalDigits num.toNat

/-- `fileName_ + '.' + outputFileExtensionName + '.' + num` -/
def numberedName (fileName_ num : Bytes) : Bytes := logName fileName_ ++ (ascii "." ++ num)

/-! ## The numbers in the directory -/

/-- `getNum`; an exception of `stoi` is caught. -/
def getNum (fileName_ pName : Bytes) : Except RotateError ℤ :=
  if pName ≠ logName fileName_ then
    match splitToViews pName fileName_ with
    | [_, back] =>
      match (splitToViewsChar back (ch '.')).getLast? with
      | none => throw .back_of_empty
      | some text =>
        match stoi text with
        | .ok num => pure num
        | .error _ => pure (-1)
    | _ => pure (-1)
  else pure (-1)

/-- The loop over the directory entries. -/
def collectNums (fileName_ : Bytes) : List Bytes → Except RotateError (List ℤ)
  | [] => pure []
  | pName :: listing => do
    let num ← getNum fileName_ pName
    let nums ← collectNums fileName_ listing
    pure (if num > 0 then num :: nums else nums)

/-! ## The renames -/

/-- The loop over the numbers.  `fails turn` says that the rename of this turn fails for a reason of
its own; a failed rename is passed over. -/
def renameLoop (fileName_ : Bytes) (fails : ℕ → Bool) :
    ℕ → List ℤ → Directory Bytes Bytes → Except RotateError (Directory Bytes Bytes)
  | _, [], dir => pure dir
  | turn, num :: nums, dir =>
    if num + 1 ≥ 2 ^ 31 then throw .overflow
    else
      let oldNum := to_string num
      let newNum := to_string (num + 1)
      renameLoop fileName_ fails (turn + 1) nums
        (dir.tryRename (fails turn) (numberedName fileName_ oldNum) (numberedName fileName_ newNum))

/-- `rotate` on a directory with the entries `listing`.  `open` makes the log file when it is not
there. -/
def rotate (fileName_ : Bytes) (fails : ℕ → Bool) (listing : List Bytes)
    (dir : Directory Bytes Bytes) : Except RotateError (Directory Bytes Bytes) := do
  let nums ← collectNums fileName_ listing
  let dir ← renameLoop fileName_ fails 0 (nums.insertionSort (· ≥ ·)) dir
  match dir.rename (logName fileName_) (logName fileName_ ++ ascii ".1") with
  | none => throw .filesystem_error
  | some dir => pure { dir with files := dir.files.insert (logName fileName_) [] }

/-! ## Recognised names -/

/-- The text of a name in which `getNum` looks for the number. -/
def numberText (fileName_ pName : Bytes) : Option Bytes :=
  match splitToViews pName fileName_ with
  | [_, back] => (splitToViewsChar back (ch '.')).getLast?
  | _ => none

/-- The number that this text starts with, in the range of `int` or not. -/
def numericSuffix (fileName_ pName : Bytes) : Option ℤ :=
  (numberText fileName_ pName).bind leadingNumber

variable {F : Bytes}

/-- A positive number is read from the name. -/
theorem getNum_eq_ok {pName : Bytes} {num : ℤ} (hpos : 0 < num) :
    getNum F pName = .ok num ↔
      pName ≠ logName F ∧ numericSuffix F pName = some num ∧ num < 2 ^ 31 := by
  have hdefault : (pure (-1) : Except RotateError ℤ) ≠ .ok num := fun h => by
    cases h
    omega
  unfold getNum numericSuffix numberText
  by_cases hlog : pName = logName F
  · rw [if_neg (not_not.2 hlog)]
    exact ⟨fun h => absurd h hdefault, fun h => absurd hlog h.1⟩
  rw [if_pos hlog, and_iff_right hlog]
  split
  · rename_i front back hsplit
    cases (splitToViewsChar back (ch '.')).getLast? with
    | none => simp
    | some text =>
      rw [Option.bind_some]
      dsimp only
      constructor
      · intro h
        split at h
        · rename_i hstoi
          cases h
          exact ⟨(stoi_eq_ok.1 hstoi).1, (stoi_eq_ok.1 hstoi).2.2⟩
        · exact absurd h hdefault
      · rintro ⟨h, hlt⟩
        rw [stoi_eq_ok.2 ⟨h, by omega, hlt⟩]
        rfl
  · exact ⟨fun h => absurd h hdefault, fun h => by cases h.1⟩

theorem splitToViewsChar_ne_nil {back : Bytes} (h : back ≠ []) (c : UInt8) :
    splitToViewsChar back c ≠ [] :=
  (splitToViewsChar_pieces c h).ne_nil

/-- `getNum` takes the last of no pieces when a name ends in its only `fileName_`. -/
theorem exists_getNum_iff {pName : Bytes} :
    (∃ num, getNum F pName = .ok num) ↔
      (pName ≠ logName F → ∀ front, splitToViews pName F ≠ [front, []]) := by
  unfold getNum
  by_cases hlog : pName = logName F
  · rw [if_neg (not_not.2 hlog)]
    exact ⟨fun _ h => absurd hlog h, fun _ => ⟨-1, rfl⟩⟩
  rw [if_pos hlog]
  split
  · rename_i front back hsplit
    rw [hsplit]
    by_cases hback : back = []
    · subst hback
      constructor
      · rintro ⟨num, hnum⟩
        cases hnum
      · intro h
        exact absurd rfl (h hlog front)
    · have hlast := List.getLast?_eq_some_getLast (splitToViewsChar_ne_nil hback (ch '.'))
      rw [hlast]
      dsimp only
      constructor
      · rintro - - front' heq
        cases heq
        exact hback rfl
      · intro _
        split
        exacts [⟨_, rfl⟩, ⟨_, rfl⟩]
  · rename_i hother
    exact ⟨fun _ _ front hsplit => hother front [] hsplit, fun _ => ⟨-1, rfl⟩⟩

/-! ### The names of the log files -/

theorem numberedName_eq (num : Bytes) : numberedName F num = F ++ (ascii ".log." ++ num) := by
  simp [numberedName, logName, outputFileExtensionName, ascii]

theorem pieces_suffix {num : Bytes} (hnum : ch '.' ∉ num) :
    Pieces [ch '.'] (ascii ".log." ++ num) [[], ascii "log", num] := by
  have hlast : ¬ [ch '.'] <:+: num := fun h => hnum (h.subset List.mem_cons_self)
  have hlog : ch '.' ∉ ascii "log" := by decide
  exact Pieces.cut_nil (Pieces.cut_of_notMem hlog (Pieces.last hlast))

/-- The number of a log file whose name shows `fileName_` only at its start. -/
theorem numericSuffix_numberedName {N : ℕ} (hF : ¬ F <:+: ascii ".log." ++ decimalDigits N) :
    numericSuffix F (numberedName F (decimalDigits N)) = some (N : ℤ) := by
  have hne : F ≠ [] := fun h => hF (h ▸ List.nil_infix)
  have hsplit : splitToViews (numberedName F (decimalDigits N)) F =
      [[], ascii ".log." ++ decimalDigits N] := by
    rw [numberedName_eq]
    exact (splitToViews_pieces hne (by simp)).unique (Pieces.cut_nil (Pieces.last hF))
  have hdot : ch '.' ∉ decimalDigits N := fun h =>
    absurd (isDigit_of_mem_decimalDigits h) (by decide)
  have hsplit' : splitToViewsChar (ascii ".log." ++ decimalDigits N) (ch '.') =
      [[], ascii "log", decimalDigits N] :=
    (splitToViewsChar_pieces _ (by simp [ascii])).unique (pieces_suffix hdot)
  rw [numericSuffix, numberText, hsplit]
  dsimp only
  rw [hsplit']
  exact leadingNumber_decimalDigits N

/-! ## The slots of the log files -/

/-- The current log file and the numbered ones. -/
def slot (F : Bytes) : ℕ → Bytes
  | 0 => logName F
  | n + 1 => numberedName F (decimalDigits (n + 1))

theorem logName_ne_numberedName (num : Bytes) : logName F ≠ numberedName F num := by
  intro h
  have hlen := congrArg List.length h
  rw [numberedName, List.length_append, List.length_append] at hlen
  have hdot : (ascii ".").length = 1 := rfl
  omega

theorem slot_injective : Function.Injective (slot F) := by
  intro m n h
  match m, n with
  | 0, 0 => rfl
  | 0, n + 1 => exact absurd h (logName_ne_numberedName _)
  | m + 1, 0 => exact absurd h.symm (logName_ne_numberedName _)
  | m + 1, n + 1 =>
    rw [slot, slot, numberedName, numberedName] at h
    exact decimalDigits_injective (List.append_cancel_left (List.append_cancel_left h))

theorem slot_one : slot F 1 = logName F ++ ascii ".1" := rfl

/-! ## The run of `rotate` -/

/-- The loop over the directory returns the positive numbers of its entries. -/
theorem collectNums_eq_ok {listing : List Bytes} {nums : List ℤ}
    (h : collectNums F listing = .ok nums) (num : ℤ) :
    num ∈ nums ↔ 0 < num ∧ ∃ pName ∈ listing, getNum F pName = .ok num := by
  induction listing generalizing nums with
  | nil =>
    cases h
    simp
  | cons pName listing ih =>
    obtain ⟨n, hn, h⟩ := Exceptions.bind_eq_ok.1 h
    obtain ⟨nums', hnums', h⟩ := Exceptions.bind_eq_ok.1 h
    cases h
    have hhead : getNum F pName = .ok num ↔ num = n := by
      rw [hn, Except.ok.injEq, eq_comm]
    rw [List.exists_mem_cons_iff, hhead]
    split
    · rename_i hpos
      rw [List.mem_cons, ih hnums']
      constructor
      · rintro (rfl | ⟨hnum, hex⟩)
        · exact ⟨hpos, Or.inl rfl⟩
        · exact ⟨hnum, Or.inr hex⟩
      · rintro ⟨hnum, rfl | hex⟩
        · exact Or.inl rfl
        · exact Or.inr ⟨hnum, hex⟩
    · rename_i hneg
      rw [ih hnums']
      constructor
      · rintro ⟨hnum, hex⟩
        exact ⟨hnum, Or.inr hex⟩
      · rintro ⟨hnum, rfl | hex⟩
        · exact absurd hnum hneg
        · exact ⟨hnum, hex⟩

theorem exists_collectNums_iff {listing : List Bytes} :
    (∃ nums, collectNums F listing = .ok nums) ↔
      ∀ pName ∈ listing, ∃ num, getNum F pName = .ok num := by
  induction listing with
  | nil => exact ⟨fun _ _ h => by simp at h, fun _ => ⟨[], rfl⟩⟩
  | cons pName listing ih =>
    rw [List.forall_mem_cons, ← ih]
    constructor
    · rintro ⟨nums, h⟩
      obtain ⟨n, hn, h⟩ := Exceptions.bind_eq_ok.1 h
      obtain ⟨nums', hnums', -⟩ := Exceptions.bind_eq_ok.1 h
      exact ⟨⟨n, hn⟩, nums', hnums'⟩
    · rintro ⟨⟨n, hn⟩, nums', hnums'⟩
      exact ⟨_, by rw [collectNums, hn, hnums']; rfl⟩

/-- The loop over the numbers shifts the numbered log files but those whose rename fails for a
reason of its own. -/
theorem renameLoop_eq {failing : ℕ → Bool} {fails : ℕ → Bool} {nums : List ℤ}
    (hnums : ∀ num ∈ nums, 0 < num ∧ num < 2 ^ 31 - 1) (turn : ℕ)
    (hfails : ∀ i num, nums[i]? = some num → fails (turn + i) = failing num.toNat)
    (dir : Directory Bytes Bytes) :
    renameLoop F fails turn nums dir =
      .ok (Directory.shift (slot F) ((nums.filter fun num => !failing num.toNat).map Int.toNat)
        dir) := by
  induction nums generalizing turn dir with
  | nil => rfl
  | cons num nums ih =>
    rw [List.forall_mem_cons] at hnums
    obtain ⟨⟨hpos, hlt⟩, hnums⟩ := hnums
    have hrest : ∀ i num, nums[i]? = some num → fails (turn + 1 + i) = failing num.toNat := by
      intro i num' hi
      rw [Nat.add_assoc, Nat.add_comm 1]
      exact hfails (i + 1) num' hi
    have hfirst : fails turn = failing num.toNat := hfails 0 num rfl
    obtain ⟨k, rfl⟩ : ∃ k : ℕ, num = k + 1 := ⟨(num - 1).toNat, by omega⟩
    rw [renameLoop, if_neg (by omega), ih hnums _ hrest, hfirst, List.filter_cons]
    cases failing ((k : ℤ) + 1).toNat with
    | true => rfl
    | false =>
      rw [Bool.not_false, if_pos rfl, List.map_cons, Directory.shift_cons]
      rfl

/-- The numbers whose files move, in the order of the loop. -/
def moving (failing : ℕ → Bool) (nums : List ℤ) : List ℤ :=
  (nums.insertionSort (· ≥ ·)).filter fun num => !failing num.toNat

theorem mem_moving {failing : ℕ → Bool} {nums : List ℤ} {num : ℤ} :
    num ∈ moving failing nums ↔ num ∈ nums ∧ failing num.toNat = false := by
  simp [moving]

theorem moving_sorted (failing : ℕ → Bool) (nums : List ℤ) :
    (moving failing nums).insertionSort (· ≥ ·) = moving failing nums :=
  ((List.pairwise_insertionSort (· ≥ ·) nums).filter _).insertionSort_eq

/-- The numbers in the order of the loop, and the current log file after them. -/
def slots (nums : List ℤ) : List ℕ := (nums.insertionSort (· ≥ ·)).map Int.toNat ++ [0]

theorem mem_slots {nums : List ℤ} {n : ℕ} :
    n ∈ slots nums ↔ (∃ num ∈ nums, num.toNat = n) ∨ n = 0 := by
  simp [slots]

theorem slots_pairwise (nums : List ℤ) : (slots nums).Pairwise (· ≥ ·) := by
  rw [slots, List.pairwise_append]
  refine ⟨?_, List.pairwise_singleton _ _, fun m _ n hn => ?_⟩
  · refine (List.pairwise_insertionSort (· ≥ ·) nums).map _ fun a b hab => ?_
    exact Int.toNat_le_toNat hab
  · rw [List.mem_singleton] at hn
    exact hn ▸ Nat.zero_le m

/-- The directory with the log files shifted and a new one. -/
def rotated (F : Bytes) (nums : List ℤ) (dir : Directory Bytes Bytes) : Directory Bytes Bytes :=
  let shifted := Directory.shift (slot F) (slots nums) dir
  { shifted with files := shifted.files.insert (logName F) [] }

theorem rotate_eq {failing : ℕ → Bool} {fails : ℕ → Bool} {listing : List Bytes} {nums : List ℤ}
    {dir : Directory Bytes Bytes} (hcollect : collectNums F listing = .ok nums)
    (hnums : ∀ num ∈ nums, 0 < num ∧ num < 2 ^ 31 - 1)
    (hfails : ∀ i num, (nums.insertionSort (· ≥ ·))[i]? = some num → fails i = failing num.toNat)
    (hlog : dir.files.HasKey (logName F)) :
    rotate F fails listing dir = .ok (rotated F (moving failing nums) dir) := by
  have hsorted : ∀ num ∈ nums.insertionSort (· ≥ ·), 0 < num ∧ num < 2 ^ 31 - 1 :=
    fun num hnum => hnums num ((List.mem_insertionSort _).1 hnum)
  obtain ⟨content, hcontent⟩ := SortedMap.hasKey_iff.1 hlog
  have hslots : slots (moving failing nums) = (moving failing nums).map Int.toNat ++ [0] := by
    rw [slots, moving_sorted]
  have hpairwise := (List.pairwise_append.1 (hslots ▸ slots_pairwise (moving failing nums))).1
  have hzero : 0 ∉ (moving failing nums).map Int.toNat := fun h => by
    obtain ⟨num, hnum, hzero⟩ := List.mem_map.1 h
    have hpos := (hnums num (mem_moving.1 hnum).1).1
    omega
  -- the current log file is still there when the loop is done
  have hfind :
      (Directory.shift (slot F) ((moving failing nums).map Int.toNat) dir).files.find (slot F 0) =
        some content := by
    rw [Directory.find_shift_zero slot_injective hpairwise, Directory.kept, if_neg hzero]
    exact hcontent
  have hloop := renameLoop_eq (F := F) hsorted 0 (fun i num hi => by
    rw [Nat.zero_add]
    exact hfails i num hi) dir
  rw [rotate, hcollect, Exceptions.ok_bind, hloop, Exceptions.ok_bind, ← slot_one,
    show logName F = slot F 0 from rfl, ← moving, Directory.rename_eq_some hfind, rotated, hslots,
    Directory.shift_append]
  rfl

/-- All numbers move when no rename fails for a reason of its own. -/
theorem rotate_eq_rotated {listing : List Bytes} {nums : List ℤ} {dir : Directory Bytes Bytes}
    (hcollect : collectNums F listing = .ok nums)
    (hnums : ∀ num ∈ nums, 0 < num ∧ num < 2 ^ 31 - 1) (hlog : dir.files.HasKey (logName F)) :
    rotate F (fun _ => false) listing dir = .ok (rotated F nums dir) := by
  have hall : moving (fun _ => false) nums = nums.insertionSort (· ≥ ·) := by simp [moving]
  have hslots : slots (moving (fun _ => false) nums) = slots nums := by
    rw [slots, moving_sorted, hall, slots]
  have hrotate : rotate F (fun _ => false) listing dir =
      .ok (rotated F (moving (fun _ => false) nums) dir) :=
    rotate_eq hcollect hnums (fun _ _ _ => rfl) hlog
  rw [hrotate, rotated, hslots, rotated]

/-! ## What a rotation keeps -/

/-- Every log file has moved on by one, and nothing else has changed. -/
structure LosesNothing (F : Bytes) (before after : Directory Bytes Bytes) : Prop where
  newest : after.files.find (numberedName F (decimalDigits 1)) = before.files.find (logName F)
  numbered : ∀ N ≥ 1, ∀ content,
    before.files.find (numberedName F (decimalDigits N)) = some content →
      after.files.find (numberedName F (decimalDigits (N + 1))) = some content
  fresh : after.files.find (logName F) = some []
  others : ∀ name, name ≠ logName F → (∀ N ≥ 1, name ≠ numberedName F (decimalDigits N)) →
    after.files.find name = before.files.find name
  replaced : after.replaced = before.replaced

/-- No name but that of the log file ends in its only `fileName_`, and the number of each numbered
log file is read from its name, where `fileName_` must not occur again, or from another name. -/
structure Recognised (F : Bytes) (listing : List Bytes) : Prop where
  tails : ∀ pName ∈ listing, pName ≠ logName F → ∀ front, splitToViews pName F ≠ [front, []]
  numbers : ∀ N ≥ 1, numberedName F (decimalDigits N) ∈ listing →
    ¬ F <:+: ascii ".log." ++ decimalDigits N ∨
      ∃ pName ∈ listing, pName ≠ logName F ∧ numericSuffix F pName = some (N : ℤ)

/-- The new log file takes the slot that the shift has left free. -/
theorem find_rotated (nums : List ℤ) (dir : Directory Bytes Bytes) (name : Bytes) :
    (rotated F nums dir).files.find name =
      if name = logName F then some []
      else (Directory.shift (slot F) (slots nums) dir).files.find name := by
  have hfree : (Directory.shift (slot F) (slots nums) dir).files.find (slot F 0) = none := by
    rw [Directory.find_shift_zero slot_injective (slots_pairwise nums), Directory.kept,
      if_pos (mem_slots.2 (Or.inr rfl))]
  have hnokey : ¬ (Directory.shift (slot F) (slots nums) dir).files.HasKey (logName F) :=
    SortedMap.not_hasKey_iff.2 hfree
  rw [rotated, SortedMap.find_insert]
  simp [hnokey]

theorem find_rotated_slot (nums : List ℤ) (dir : Directory Bytes Bytes) (n : ℕ) :
    (rotated F nums dir).files.find (slot F (n + 1)) =
      (Directory.shift (slot F) (slots nums) dir).files.find (slot F (n + 1)) := by
  have hne : slot F (n + 1) ≠ logName F := (logName_ne_numberedName _).symm
  rw [find_rotated, if_neg hne]

/-- Nothing is lost if and only if all slots in use are shifted. -/
theorem losesNothing_rotated_iff {nums : List ℤ} {dir : Directory Bytes Bytes}
    (hlog : dir.files.HasKey (logName F)) :
    LosesNothing F dir (rotated F nums dir) ↔
      ∀ n, dir.files.HasKey (slot F n) → n ∈ slots nums := by
  rw [← Directory.shift_keeps_iff slot_injective (slots_pairwise nums)]
  constructor
  · rintro h n content hcontent
    rw [← find_rotated_slot]
    match n with
    | 0 => exact h.newest.trans hcontent
    | n + 1 => exact h.numbered (n + 1) n.succ_pos content hcontent
  · intro hkeeps
    have hused := (Directory.shift_keeps_iff slot_injective (slots_pairwise nums) dir).1 hkeeps
    obtain ⟨content, hcontent⟩ := SortedMap.hasKey_iff.1 hlog
    refine ⟨?_, ?_, ?_, ?_, ?_⟩
    · rw [hcontent]
      exact (find_rotated_slot nums dir 0).trans (hkeeps 0 content hcontent)
    · intro N hN content hcontent
      obtain ⟨n, rfl⟩ := Nat.exists_eq_add_of_le' hN
      exact (find_rotated_slot nums dir (n + 1)).trans (hkeeps (n + 1) content hcontent)
    · rw [find_rotated, if_pos rfl]
    · intro name hlogName hnumbered
      rw [find_rotated, if_neg hlogName]
      refine Directory.find_shift_of_forall_ne (fun n => ?_) dir
      match n with
      | 0 => exact hlogName
      | n + 1 => exact hnumbered (n + 1) n.succ_pos
    · exact Directory.replaced_shift slot_injective (slots_pairwise nums)
        fun n _ _ hnext => hused (n + 1) hnext

/-- Rotation loses nothing if and only if the names in the directory are recognised. -/
theorem rotate_losesNothing_iff {listing : List Bytes} {dir : Directory Bytes Bytes}
    (hlisting : ∀ name, name ∈ listing ↔ dir.files.HasKey name)
    (hlog : dir.files.HasKey (logName F))
    (hsuffix : ∀ name ∈ listing, ∀ num, numericSuffix F name = some num → num < 2 ^ 31 - 1) :
    (∃ after, rotate F (fun _ => false) listing dir = .ok after ∧ LosesNothing F dir after) ↔
      Recognised F listing := by
  have hrange : ∀ {nums}, collectNums F listing = .ok nums →
      ∀ num ∈ nums, 0 < num ∧ num < 2 ^ 31 - 1 := by
    intro nums hcollect num hnum
    obtain ⟨hpos, name, hname, hget⟩ := (collectNums_eq_ok hcollect num).1 hnum
    exact ⟨hpos, hsuffix name hname num ((getNum_eq_ok hpos).1 hget).2.1⟩
  constructor
  · rintro ⟨after, hrotate, hkeeps⟩
    obtain ⟨nums, hcollect, -⟩ := Exceptions.bind_eq_ok.1 hrotate
    rw [rotate_eq_rotated hcollect (hrange hcollect) hlog] at hrotate
    cases hrotate
    have hused := (losesNothing_rotated_iff hlog).1 hkeeps
    refine ⟨fun name hname => ?_, fun N hN hmem => ?_⟩
    · exact exists_getNum_iff.1 (exists_collectNums_iff.1 ⟨nums, hcollect⟩ name hname)
    · obtain ⟨n, rfl⟩ := Nat.exists_eq_add_of_le' hN
      rcases mem_slots.1 (hused (n + 1) ((hlisting _).1 hmem)) with ⟨num, hnum, htoNat⟩ | hzero
      · obtain ⟨hpos, name, hname, hget⟩ := (collectNums_eq_ok hcollect num).1 hnum
        obtain rfl : num = ((n + 1 : ℕ) : ℤ) := by omega
        obtain ⟨hne, hsuffix, -⟩ := (getNum_eq_ok hpos).1 hget
        exact Or.inr ⟨name, hname, hne, hsuffix⟩
      · cases hzero
  · intro hrec
    obtain ⟨nums, hcollect⟩ := exists_collectNums_iff.2 fun name hname =>
      exists_getNum_iff.2 (hrec.tails name hname)
    refine ⟨_, rotate_eq_rotated hcollect (hrange hcollect) hlog,
      (losesNothing_rotated_iff hlog).2 ?_⟩
    intro n hn
    match n with
    | 0 => exact mem_slots.2 (Or.inr rfl)
    | n + 1 =>
      have hmem := (hlisting _).2 hn
      obtain ⟨name, hname, hne, hnum⟩ : ∃ name ∈ listing, name ≠ logName F ∧
          numericSuffix F name = some ((n + 1 : ℕ) : ℤ) := by
        rcases hrec.numbers (n + 1) n.succ_pos hmem with honce | hother
        · exact ⟨_, hmem, (logName_ne_numberedName _).symm, numericSuffix_numberedName honce⟩
        · exact hother
      have hpos : 0 < ((n + 1 : ℕ) : ℤ) := by omega
      have hlt := hsuffix name hname _ hnum
      have hget := (getNum_eq_ok hpos).2 ⟨hne, hnum, by omega⟩
      exact mem_slots.2
        (Or.inl ⟨_, (collectNums_eq_ok hcollect _).2 ⟨hpos, name, hname, hget⟩, rfl⟩)

/-- The current log file and number 1. -/
def twoLogs (F : Bytes) : Directory Bytes Bytes :=
  { files := ((∅ : SortedMap Bytes Bytes).insert (logName F) (ascii "new")).insert
      (numberedName F (ascii "1")) (ascii "old") }

theorem mem_twoLogs (F name : Bytes) :
    name ∈ [logName F, numberedName F (ascii "1")] ↔ (twoLogs F).files.HasKey name := by
  rw [twoLogs, SortedMap.hasKey_insert, SortedMap.hasKey_insert]
  simp [SortedMap.HasKey, or_comm]

theorem rotate_losesNothing_iff_app :
    (∃ after, rotate (ascii "app") (fun _ => false)
        [logName (ascii "app"), numberedName (ascii "app") (ascii "1")] (twoLogs (ascii "app")) =
          .ok after ∧ LosesNothing (ascii "app") (twoLogs (ascii "app")) after) ↔
      Recognised (ascii "app") [logName (ascii "app"), numberedName (ascii "app") (ascii "1")] := by
  refine rotate_losesNothing_iff (mem_twoLogs _) (by decide) fun name hname num hnum => ?_
  rcases List.mem_cons.1 hname with rfl | hname
  · have hnone : numericSuffix (ascii "app") (logName (ascii "app")) = none := rfl
    rw [hnone] at hnum
    cases hnum
  · rw [List.mem_singleton] at hname
    have hone : numericSuffix (ascii "app") (numberedName (ascii "app") (ascii "1")) = some 1 := rfl
    rw [hname, hone] at hnum
    cases hnum
    decide

/-- With the file name `log`, the file `log.log.1` is not recognised and is replaced; an entry with
the name of the log files themselves has `rotate` take the last of no pieces. -/
theorem rotate_loses :
    (¬ ∃ after, rotate (ascii "log") (fun _ => false)
        [logName (ascii "log"), numberedName (ascii "log") (ascii "1")] (twoLogs (ascii "log")) =
          .ok after ∧ LosesNothing (ascii "log") (twoLogs (ascii "log")) after) ∧
      ∀ dir, rotate (ascii "app") (fun _ => false) [ascii "app", logName (ascii "app")] dir =
        .error .back_of_empty := by
  constructor
  · rintro ⟨after, hrotate, hkeeps⟩
    have hrun : (rotate (ascii "log") (fun _ => false)
        [logName (ascii "log"), numberedName (ascii "log") (ascii "1")] (twoLogs (ascii "log"))).map
          (fun d => d.files.find (numberedName (ascii "log") (ascii "2"))) = .ok none := rfl
    rw [hrotate] at hrun
    have hlost : after.files.find (numberedName (ascii "log") (ascii "2")) = none :=
      Except.ok.inj hrun
    have hmoved := hkeeps.numbered 1 le_rfl (ascii "old") rfl
    exact absurd (hlost.symm.trans hmoved) (by decide)
  · intro dir
    rfl

end GlobalLoggerManager

end CoUringWeb
