import CoUringWeb.Framework.Numerals
import CoUringWeb.Framework.Stores
import CoUringWeb.Framework.Transition

/-!
# `LoggerInfoBuilder`

A log record is built in a buffer of `logInfoMaxSize` bytes, as in `include/logger.h`: `format`
allocates it and prints the header, each `build` appends a piece, and the destructor of `Logger`
puts a newline behind the text and hands the buffer to `writev`.  A buffer is what was stored at
which offset (`Memory`), so that a store outside of it shows.

`snprintf` stores a text cut to the size it is given, and returns the length of the whole text.
Where that is no `int` there is no step.  The text of a `double` is a parameter.
-/

namespace CoUringWeb

open Machine Numerals Stores

/-- The text of a `double` by `%f`. -/
class PrintfDouble (δ : Type) where
  text : δ → Bytes

/-- A `double` kept as its text. -/
instance : PrintfDouble Bytes := { text := id }

/-! ## Texts -/

/-- `%d` and `%ld` -/
def signedDigits (num : ℤ) : Bytes :=
  if num < 0 then ch '-' :: decimalDigits num.natAbs else decimalDigits num.natAbs

/-- `%.3lld` -/
def threeDigits (num : ℤ) : Bytes :=
  let digits := decimalDigits num.natAbs
  (if num < 0 then [ch '-'] else []) ++ (List.replicate (3 - digits.length) (ch '0') ++ digits)

/-- The bytes of a C string: those in front of the first `NUL`. -/
def cString (str : Bytes) : Bytes := str.takeWhile (· ≠ 0)

/-- `snprintf(p + offset, n, ...)` on a text that is formatted already. -/
def snprintf (p : Memory UInt8) (offset n : ℕ) (text : Bytes) : Option (Memory UInt8 × ℕ) :=
  if text.length < 2 ^ 31 then
    some (if n = 0 then p else store p offset (text.take (n - 1) ++ [0]), text.length)
  else none

inductive LogLevel where
  | TRACE
  | DEBUG
  | INFO
  | WARN
  | ERROR
  | FATAL
  deriving DecidableEq, Repr

structure Iovec where
  /-- `none` for `nullptr` -/
  iov_base : Option (Memory UInt8)
  iov_len : ℕ

/-- A builder, with the thread's static members. -/
structure LoggerInfoBuilder where
  timeHeader : Bytes
  threadTime : ℤ
  threadId : ℕ
  /-- `iovecs_[0]` -/
  iovec0 : Iovec
  /-- `iovecs_[1]` -/
  iovec1 : Iovec

namespace LoggerInfoBuilder

def logInfoMaxSize : ℕ := 512

def timeHeaderLength : ℕ := 20

def LogLevelName : LogLevel → Bytes
  | .TRACE => ascii "TRACE "
  | .DEBUG => ascii "DEBUG "
  | .INFO => ascii "INFO  "
  | .WARN => ascii "WARN  "
  | .ERROR => ascii "ERROR "
  | .FATAL => ascii "FATAL "

/-- A new builder on a thread with these static members. -/
def new (timeHeader : Bytes) (threadTime : ℤ) (threadId : ℕ) : LoggerInfoBuilder :=
  ⟨timeHeader, threadTime, threadId, ⟨none, 0⟩, ⟨none, 0⟩⟩

/-! ## Calls -/

/-- What a call of `format` gets from outside: `std::time`, `pthread_self`, what `strftime` leaves
in `timeHeader` for the local time, and `time_since_epoch().count()`. -/
structure FormatEnv where
  time : ℤ
  self : ℕ
  timeText : Bytes
  count : ℤ
  deriving DecidableEq, Repr

/-- What `build` appends. -/
inductive Piece (δ : Type) where
  | string_view (view : Bytes)
  | string (s : Bytes)
  | c_str (str : Bytes)
  /-- an exception, by its `what()` -/
  | exception (what : Bytes)
  | int32 (num : Int32)
  | uint32 (num : UInt32)
  | int64 (num : Int64)
  | uint64 (num : UInt64)
  /-- a `float`, as the `double` it is promoted to -/
  | float (num : δ)
  | double (num : δ)
  | char (c : UInt8)
  deriving DecidableEq, Repr

inductive Call (δ : Type) where
  | format (level : LogLevel) (file : Bytes) (line : UInt32) (func : Bytes) (env : FormatEnv)
  | build (piece : Piece δ)
  deriving DecidableEq, Repr

variable {δ : Type} [PrintfDouble δ]

/-- The header of a record. -/
def headerText (level : LogLevel) (file : Bytes) (line : UInt32) (func : Bytes) (threadId : ℕ)
    (count : ℤ) : Bytes :=
  threeDigits ((count.tdiv 1000000).tmod 1000) ++ (ascii " [ " ++ (cString file ++ (ascii " - " ++
    (cString func ++ (ascii " - " ++ (decimalDigits line.toNat ++ (ascii " ] [thread " ++
      (decimalDigits threadId ++ (ascii "] " ++ (LogLevelName level ++ ascii ": "))))))))))

/-- `threadId` once `format` has set it. -/
def threadIdFor (b : LoggerInfoBuilder) (env : FormatEnv) : ℕ :=
  if b.threadId = 0 then env.self else b.threadId

def format (b : LoggerInfoBuilder) (level : LogLevel) (file : Bytes) (line : UInt32) (func : Bytes)
    (env : FormatEnv) : Option LoggerInfoBuilder := do
  let threadId := b.threadIdFor env
  let timeHeader := if env.time ≠ b.threadTime then env.timeText else b.timeHeader
  let (iov_base, length) ← snprintf Memory.unwritten 0 logInfoMaxSize
    (headerText level file line func threadId env.count)
  return ⟨timeHeader, env.time, threadId, ⟨some (Memory.ofList timeHeader), timeHeaderLength⟩,
    ⟨some iov_base, uint64 (b.iovec1.iov_len + length)⟩⟩

/-- `build(string_view)`.  No view has `2 ^ 64 - 1` bytes, so `size + 1` does not wrap. -/
def buildView (v : Iovec) (view : Bytes) : Option Iovec := do
  let iov_base ← v.iov_base
  if view.length + 1 > sizeSub logInfoMaxSize v.iov_len then
    return ⟨some (store iov_base v.iov_len (view.take (sizeSub logInfoMaxSize v.iov_len))),
      logInfoMaxSize⟩
  else return ⟨some (store iov_base v.iov_len view), uint64 (v.iov_len + view.length)⟩

/-- `build` of a number with this text. -/
def buildFormatted (v : Iovec) (text : Bytes) : Option Iovec := do
  let iov_base ← v.iov_base
  let (iov_base, length) ← snprintf iov_base v.iov_len (sizeSub logInfoMaxSize v.iov_len) text
  return ⟨some iov_base, uint64 (v.iov_len + length)⟩

/-- `build(char)` -/
def buildChar (v : Iovec) (c : UInt8) : Option Iovec := do
  let iov_base ← v.iov_base
  if v.iov_len < logInfoMaxSize then return ⟨some (store iov_base v.iov_len [c]), v.iov_len + 1⟩
  else return v

def build (v : Iovec) : Piece δ → Option Iovec
  | .string_view view => buildView v view
  | .string s => buildView v s
  | .c_str str => buildView v (cString str)
  | .exception what => buildView v (cString what)
  | .int32 num => buildFormatted v (signedDigits num.toInt)
  | .uint32 num => buildFormatted v (decimalDigits num.toNat)
  | .int64 num => buildFormatted v (signedDigits num.toInt)
  | .uint64 num => buildFormatted v (decimalDigits num.toNat)
  | .float num => buildFormatted v (PrintfDouble.text num)
  | .double num => buildFormatted v (PrintfDouble.text num)
  | .char c => buildChar v c

def step (b : LoggerInfoBuilder) : Call δ → Option LoggerInfoBuilder
  | .format level file line func env => b.format level file line func env
  | .build piece => do
    let v ← build b.iovec1 piece
    return { b with iovec1 := v }

/-- The destructor of `Logger`: the two vectors it hands to `writev`. -/
def destroy (b : LoggerInfoBuilder) : Option (Iovec × Iovec) := do
  let iov_base ← b.iovec1.iov_base
  let len := min (Machine.int32 b.iovec1.iov_len) (logInfoMaxSize - 1)
  return (b.iovec0, ⟨some (store iov_base len [ch '\n']), uint64 (b.iovec1.iov_len + 1)⟩)

/-! ## What stays in the buffer -/

/-- The length is that of the buffer at most, and nothing was stored outside of the buffer. -/
def InBuffer (v : Iovec) : Prop :=
  v.iov_len ≤ logInfoMaxSize ∧ ∀ p ∈ v.iov_base, Within p logInfoMaxSize

/-- The text that `snprintf` makes of a number. -/
def Piece.formatted : Piece δ → Option Bytes
  | .int32 num => some (signedDigits num.toInt)
  | .uint32 num => some (decimalDigits num.toNat)
  | .int64 num => some (signedDigits num.toInt)
  | .uint64 num => some (decimalDigits num.toNat)
  | .float num => some (PrintfDouble.text num)
  | .double num => some (PrintfDouble.text num)
  | _ => none

/-- The text that a call makes by `snprintf`. -/
def Call.formatted (b : LoggerInfoBuilder) : Call δ → Option Bytes
  | .format level file line func env =>
    some (headerText level file line func (b.threadIdFor env) env.count)
  | .build piece => piece.formatted

/-- There is room for the whole text. -/
def Fits (b : LoggerInfoBuilder) (call : Call δ) : Prop :=
  ∀ text ∈ call.formatted b, b.iovec1.iov_len + text.length ≤ logInfoMaxSize

instance (b : LoggerInfoBuilder) (call : Call δ) : Decidable (Fits b call) :=
  match h : call.formatted b with
  | none => .isTrue fun text ht => by rw [h] at ht; cases ht
  | some text => decidable_of_iff (b.iovec1.iov_len + text.length ≤ logInfoMaxSize) (by
      simp [Fits, h])

theorem snprintf_eq_some {p q : Memory UInt8} {offset n length : ℕ} {text : Bytes} :
    snprintf p offset n text = some (q, length) ↔ text.length < 2 ^ 31 ∧
      (if n = 0 then p else store p offset (text.take (n - 1) ++ [0])) = q ∧
      text.length = length := by
  unfold snprintf
  split
  · rename_i hint
    rw [and_iff_right hint, Option.some_inj, Prod.mk.injEq]
  · rename_i hint
    simp only [reduceCtorEq, hint, false_and]

theorem snprintf_within {p q : Memory UInt8} {offset length : ℕ} {text : Bytes}
    (hp : Within p logInfoMaxSize) (hoffset : offset ≤ logInfoMaxSize)
    (h : snprintf p offset (sizeSub logInfoMaxSize offset) text = some (q, length)) :
    Within q logInfoMaxSize := by
  obtain ⟨-, rfl, -⟩ := snprintf_eq_some.1 h
  rw [sizeSub_of_le hoffset]
  split
  · exact hp
  · apply hp.store
    simp only [List.length_append, List.length_take, List.length_singleton]
    omega

/-- A text that is added with its whole length stays in the buffer if and only if it fits. -/
theorem inBuffer_add_iff {p : Memory UInt8} {len : ℕ} {text : Bytes} (hp : Within p logInfoMaxSize)
    (hlen : len ≤ logInfoMaxSize) (hint : text.length < 2 ^ 31) :
    InBuffer ⟨some p, uint64 (len + text.length)⟩ ↔ len + text.length ≤ logInfoMaxSize := by
  have hwrap : uint64 (len + text.length) = len + text.length :=
    uint64_of_lt (by simp only [logInfoMaxSize] at hlen; omega)
  rw [hwrap]
  exact ⟨And.left, fun hfits => ⟨hfits, fun q hq => by cases hq; exact hp⟩⟩

theorem buildFormatted_inBuffer {v w : Iovec} {text : Bytes} (hv : InBuffer v)
    (h : buildFormatted v text = some w) :
    InBuffer w ↔ v.iov_len + text.length ≤ logInfoMaxSize := by
  obtain ⟨hlen, hwithin⟩ := hv
  simp only [buildFormatted, Option.bind_eq_bind, Option.bind_eq_some_iff] at h
  obtain ⟨p, hp, ⟨q, length⟩, hq, h⟩ := h
  cases h
  have hq' := snprintf_within (hwithin p hp) hlen hq
  obtain ⟨hint, -, rfl⟩ := snprintf_eq_some.1 hq
  exact inBuffer_add_iff hq' hlen hint

/-- A view is cut where the buffer ends. -/
theorem buildView_inBuffer {v w : Iovec} {view : Bytes} (hv : InBuffer v)
    (h : buildView v view = some w) : InBuffer w := by
  obtain ⟨hlen, hwithin⟩ := hv
  simp only [buildView, sizeSub_of_le hlen, Option.bind_eq_bind, Option.bind_eq_some_iff] at h
  obtain ⟨p, hp, h⟩ := h
  split at h
  · cases h
    refine ⟨le_rfl, fun q hq => ?_⟩
    cases hq
    apply (hwithin p hp).store
    rw [List.length_take]
    omega
  · rename_i hroom
    cases h
    have hwrap : uint64 (v.iov_len + view.length) = v.iov_len + view.length :=
      uint64_of_lt (by simp only [logInfoMaxSize] at hlen hroom; omega)
    have hfits : v.iov_len + view.length ≤ logInfoMaxSize := by omega
    refine ⟨hwrap.symm ▸ hfits, fun q hq => ?_⟩
    cases hq
    exact (hwithin p hp).store hfits

theorem buildChar_inBuffer {v w : Iovec} {c : UInt8} (hv : InBuffer v)
    (h : buildChar v c = some w) : InBuffer w := by
  obtain ⟨hlen, hwithin⟩ := hv
  simp only [buildChar, Option.bind_eq_bind, Option.bind_eq_some_iff] at h
  obtain ⟨p, hp, h⟩ := h
  split at h
  · rename_i hroom
    cases h
    refine ⟨hroom, fun q hq => ?_⟩
    cases hq
    exact (hwithin p hp).store hroom
  · cases h
    exact ⟨hlen, hwithin⟩

/-- Every piece stays in the buffer but a number that does not fit. -/
theorem build_inBuffer {v w : Iovec} {piece : Piece δ} (hv : InBuffer v)
    (h : build v piece = some w) :
    InBuffer w ↔ ∀ text ∈ piece.formatted, v.iov_len + text.length ≤ logInfoMaxSize := by
  cases piece with
  | string_view view | string s => simpa [Piece.formatted] using buildView_inBuffer hv h
  | c_str str | exception what => simpa [Piece.formatted] using buildView_inBuffer hv h
  | char c => simpa [Piece.formatted] using buildChar_inBuffer hv h
  | int32 num | uint32 num | int64 num | uint64 num | float num | double num =>
    simpa [Piece.formatted] using buildFormatted_inBuffer hv h

theorem format_inBuffer {b b' : LoggerInfoBuilder} {level : LogLevel} {file func : Bytes}
    {line : UInt32} {env : FormatEnv} (hb : InBuffer b.iovec1)
    (h : b.format level file line func env = some b') :
    InBuffer b'.iovec1 ↔ b.iovec1.iov_len +
      (headerText level file line func (b.threadIdFor env) env.count).length ≤ logInfoMaxSize := by
  simp only [format, Option.bind_eq_bind, Option.bind_eq_some_iff] at h
  obtain ⟨⟨q, length⟩, hq, h⟩ := h
  cases h
  have hq' := snprintf_within (within_unwritten _) (Nat.zero_le _) hq
  obtain ⟨hint, -, rfl⟩ := snprintf_eq_some.1 hq
  exact inBuffer_add_iff hq' hb.1 hint

theorem step_inBuffer {b b' : LoggerInfoBuilder} {call : Call δ} (hb : InBuffer b.iovec1)
    (h : step b call = some b') : InBuffer b'.iovec1 ↔ Fits b call := by
  cases call with
  | format level file line func env =>
    rw [format_inBuffer hb h]
    simp [Fits, Call.formatted]
  | build piece =>
    simp only [step, Option.bind_eq_bind, Option.bind_eq_some_iff] at h
    obtain ⟨w, hw, h⟩ := h
    cases h
    exact build_inBuffer hb hw

/-- A record stays in its buffer all along a run of calls if and only if the header, and each number
at its turn, fits. -/
theorem record_inBuffer_iff (timeHeader : Bytes) (threadTime : ℤ) (threadId : ℕ)
    {calls : List (Call δ)} {b : LoggerInfoBuilder}
    (hrun : Transition.run step (new timeHeader threadTime threadId) calls = some b) :
    (∀ cs u, cs <+: calls →
      Transition.run step (new timeHeader threadTime threadId) cs = some u → InBuffer u.iovec1) ↔
      Transition.Always step Fits (new timeHeader threadTime threadId) calls :=
  Transition.forall_prefix_iff_always (I := fun u => InBuffer u.iovec1) (F := fun _ _ => True)
    (fun _ h => h) (fun _ _ _ hs _ hfits ht => (step_inBuffer hs ht).2 hfits)
    (fun _ _ _ hs _ hnot ht hin => hnot ((step_inBuffer hs ht).1 hin))
    ⟨Nat.zero_le _, fun _ hp => by cases hp⟩
    (Transition.always_of_forall (fun _ _ => trivial) _ _) hrun

/-- A header, a text and a number that fit. -/
theorem record_inBuffer_short :
    ∃ b, Transition.run step (new [] 0 0)
        [.format .INFO (ascii "a.cpp") 7 (ascii "f") ⟨0, 1, [], 0⟩,
          .build (.string (ascii "n = ")), (.build (.int32 (-42)) : Call Bytes)] = some b ∧
      InBuffer b.iovec1 := by
  have hrun : Transition.run step (new [] 0 0)
      [.format .INFO (ascii "a.cpp") 7 (ascii "f") ⟨0, 1, [], 0⟩,
        .build (.string (ascii "n = ")), (.build (.int32 (-42)) : Call Bytes)] = some _ := rfl
  exact ⟨_, rfl, (record_inBuffer_iff [] 0 0 hrun).2 (by decide) _ _ List.prefix_rfl hrun⟩

/-- A number behind a text that fills the buffer. -/
theorem number_behind_full_buffer :
    ∃ b, Transition.run step (new [] 0 0)
        [.format .INFO (ascii "a.cpp") 7 (ascii "f") ⟨0, 1, [], 0⟩,
          .build (.string (List.replicate 512 (ch 'x'))), (.build (.int32 7) : Call Bytes)] =
        some b ∧
      ¬ InBuffer b.iovec1 := by
  have hlen : (Transition.run step (new [] 0 0)
      [.format .INFO (ascii "a.cpp") 7 (ascii "f") ⟨0, 1, [], 0⟩,
        .build (.string (List.replicate 512 (ch 'x'))),
        (.build (.int32 7) : Call Bytes)]).map (fun b => b.iovec1.iov_len) = some 513 := by
    decide +kernel
  obtain ⟨b, hb, hlen⟩ := Option.map_eq_some_iff.1 hlen
  refine ⟨b, hb, ?_⟩
  rintro ⟨hle, -⟩
  rw [hlen] at hle
  exact absurd hle (by decide)

/-! ## Records of texts and characters -/

/-- The bytes of a piece that is not a number. -/
def Piece.text : Piece δ → Bytes
  | .string_view view => view
  | .string s => s
  | .c_str str => cString str
  | .exception what => cString what
  | .char c => [c]
  | _ => []

/-- The buffer holds of the text what it has room for. -/
def HoldsText (v : Iovec) (text : Bytes) : Prop :=
  v.iov_len = min text.length logInfoMaxSize ∧
    ∃ p, v.iov_base = some p ∧ Holds p (text.take logInfoMaxSize)

/-- The bytes that `writev` gets from the vector. -/
def IsBytes (v : Iovec) (l : Bytes) : Prop :=
  v.iov_len = l.length ∧ ∃ p, v.iov_base = some p ∧ Holds p l

theorem buildView_holdsText {v : Iovec} {text : Bytes} (hv : HoldsText v text) (view : Bytes) :
    ∃ w, buildView v view = some w ∧ HoldsText w (text ++ view) := by
  obtain ⟨hlen, p, hp, hholds⟩ := hv
  have hle : v.iov_len ≤ logInfoMaxSize := by omega
  rw [buildView, hp, sizeSub_of_le hle]
  rcases Nat.lt_or_ge text.length logInfoMaxSize with hroom | hfull
  · rw [Nat.min_eq_left hroom.le] at hlen
    rw [List.take_of_length_le hroom.le] at hholds
    by_cases hcut : view.length + 1 > logInfoMaxSize - v.iov_len
    · refine ⟨_, if_pos hcut, ?_, _, rfl, ?_⟩
      · rw [List.length_append]
        dsimp only
        omega
      · rw [List.take_append, List.take_of_length_le hroom.le, hlen]
        exact hholds.store _
    · refine ⟨_, if_neg hcut, ?_, _, rfl, ?_⟩
      · have hwrap : uint64 (v.iov_len + view.length) = v.iov_len + view.length :=
          uint64_of_lt (by simp only [logInfoMaxSize] at hroom hcut; omega)
        rw [hwrap, List.length_append]
        dsimp only
        omega
      · rw [List.take_of_length_le (by rw [List.length_append]; omega), hlen]
        exact hholds.store _
  · rw [Nat.min_eq_right hfull] at hlen
    refine ⟨_, if_pos (by omega), ?_, _, rfl, ?_⟩
    · rw [List.length_append]
      dsimp only
      omega
    · rw [hlen, Nat.sub_self, List.take_zero, store_nil, List.take_append_of_le_length hfull]
      exact hholds

theorem buildChar_holdsText {v : Iovec} {text : Bytes} (hv : HoldsText v text) (c : UInt8) :
    ∃ w, buildChar v c = some w ∧ HoldsText w (text ++ [c]) := by
  obtain ⟨hlen, p, hp, hholds⟩ := hv
  rw [buildChar, hp]
  rcases Nat.lt_or_ge text.length logInfoMaxSize with hroom | hfull
  · rw [Nat.min_eq_left hroom.le] at hlen
    rw [List.take_of_length_le hroom.le] at hholds
    refine ⟨_, if_pos (by omega), ?_, _, rfl, ?_⟩
    · rw [List.length_append, List.length_singleton]
      dsimp only
      omega
    · rw [List.take_of_length_le (by rw [List.length_append]; exact hroom), hlen]
      exact hholds.store _
  · rw [Nat.min_eq_right hfull] at hlen
    refine ⟨_, if_neg (by omega), ?_, p, hp, ?_⟩
    · rw [List.length_append]
      omega
    · rw [List.take_append_of_le_length hfull]
      exact hholds

theorem build_holdsText {v : Iovec} {text : Bytes} (hv : HoldsText v text) {piece : Piece δ}
    (hpiece : piece.formatted = none) :
    ∃ w, build v piece = some w ∧ HoldsText w (text ++ piece.text) := by
  cases piece with
  | string_view view | string s => exact buildView_holdsText hv _
  | c_str str | exception what => exact buildView_holdsText hv _
  | char c => exact buildChar_holdsText hv c
  | int32 num | uint32 num | int64 num | uint64 num | float num | double num => cases hpiece

theorem run_holdsText {b : LoggerInfoBuilder} {text : Bytes} (hb : HoldsText b.iovec1 text)
    {pieces : List (Piece δ)} (hpieces : ∀ piece ∈ pieces, piece.formatted = none) :
    ∃ s, Transition.run step b (pieces.map .build) = some s ∧
      HoldsText s.iovec1 (text ++ pieces.flatMap Piece.text) := by
  induction pieces generalizing b text with
  | nil => exact ⟨b, rfl, by simpa using hb⟩
  | cons piece pieces ih =>
    rw [List.forall_mem_cons] at hpieces
    obtain ⟨w, hw, hholds⟩ := build_holdsText hb hpieces.1
    obtain ⟨s, hs, hs'⟩ := ih (b := { b with iovec1 := w }) hholds hpieces.2
    refine ⟨s, Transition.run_cons.2 ⟨_, ?_, hs⟩, by simpa [List.append_assoc] using hs'⟩
    rw [step, hw]
    rfl

theorem format_holdsText (timeHeader : Bytes) (threadTime : ℤ) (threadId : ℕ) {level : LogLevel}
    {file func : Bytes} {line : UInt32} {env : FormatEnv}
    (hshort : (headerText level file line func
      ((new timeHeader threadTime threadId).threadIdFor env) env.count).length < logInfoMaxSize) :
    ∃ b, (new timeHeader threadTime threadId).format level file line func env = some b ∧
      HoldsText b.iovec1 (headerText level file line func
        ((new timeHeader threadTime threadId).threadIdFor env) env.count) := by
  generalize hheader : headerText level file line func
    ((new timeHeader threadTime threadId).threadIdFor env) env.count = header at hshort
  have hprint : snprintf Memory.unwritten 0 logInfoMaxSize header =
      some (store Memory.unwritten 0 (header.take (logInfoMaxSize - 1) ++ [0]), header.length) :=
    snprintf_eq_some.2 ⟨by simp only [logInfoMaxSize] at hshort; omega, if_neg (by decide), rfl⟩
  refine ⟨_, by rw [format, hheader, hprint]; rfl, ?_, _, rfl, ?_⟩
  · rw [Nat.min_eq_left hshort.le]
    exact (congrArg uint64 (Nat.zero_add _)).trans
      (uint64_of_lt (by simp only [logInfoMaxSize] at hshort; omega))
  · have hall : header.take (logInfoMaxSize - 1) = header :=
      List.take_of_length_le (Nat.le_pred_of_lt hshort)
    rw [hall, List.take_of_length_le hshort.le]
    have hstore := (holds_nil Memory.unwritten).store (header ++ [0])
    rw [List.nil_append] at hstore
    exact hstore.of_append

/-- What the destructor of `Logger` writes, when the text and the newline fit. -/
theorem destroy_holdsText {b : LoggerInfoBuilder} {text : Bytes} (hb : HoldsText b.iovec1 text) :
    ∃ v₀ v₁, destroy b = some (v₀, v₁) ∧
      (IsBytes v₁ (text.take (logInfoMaxSize - 1) ++ [ch '\n']) ↔
        text.length ≤ logInfoMaxSize - 1) := by
  obtain ⟨hlen, p, hp, hholds⟩ := hb
  refine ⟨b.iovec0, _, by rw [destroy, hp]; rfl, ?_⟩
  constructor
  · rintro ⟨hsize, -⟩
    rw [List.length_append, List.length_take, List.length_singleton,
      uint64_of_lt (by simp only [logInfoMaxSize] at hlen; omega), hlen] at hsize
    simp only [logInfoMaxSize] at hsize ⊢
    omega
  · intro hshort
    rw [Nat.min_eq_left (by omega)] at hlen
    rw [List.take_of_length_le hshort]
    have hint : Machine.int32 b.iovec1.iov_len = b.iovec1.iov_len :=
      int32_of_lt (by simp only [logInfoMaxSize] at hshort; omega)
    have hwrap : uint64 (b.iovec1.iov_len + 1) = b.iovec1.iov_len + 1 :=
      uint64_of_lt (by simp only [logInfoMaxSize] at hshort; omega)
    refine ⟨?_, _, rfl, ?_⟩
    · rw [hwrap, List.length_append, hlen]
      rfl
    · have hplace : min (Machine.int32 b.iovec1.iov_len) ((logInfoMaxSize : ℤ) - 1) =
          (text.length : ℤ) := by
        simp only [logInfoMaxSize] at hshort ⊢
        rw [hint, hlen]
        exact min_eq_left (by omega)
      rw [List.take_of_length_le (by omega)] at hholds
      rw [hplace]
      exact hholds.store _

/-- The second vector of a record of texts and characters is the first `logInfoMaxSize - 1` bytes of
the record and a newline if and only if the record has no more bytes than that. -/
theorem record_content_iff (timeHeader : Bytes) (threadTime : ℤ) (threadId : ℕ) (level : LogLevel)
    (file func : Bytes) (line : UInt32) (env : FormatEnv) (pieces : List (Piece δ))
    (hshort : (headerText level file line func
      ((new timeHeader threadTime threadId).threadIdFor env) env.count).length < logInfoMaxSize)
    (hpieces : ∀ piece ∈ pieces, piece.formatted = none) :
    let text := headerText level file line func
      ((new timeHeader threadTime threadId).threadIdFor env) env.count ++
        pieces.flatMap Piece.text
    ∃ b v₀ v₁, Transition.run step (new timeHeader threadTime threadId)
        (.format level file line func env :: pieces.map .build) = some b ∧
      destroy b = some (v₀, v₁) ∧
      (IsBytes v₁ (text.take (logInfoMaxSize - 1) ++ [ch '\n']) ↔
        text.length ≤ logInfoMaxSize - 1) := by
  obtain ⟨b, hformat, hb⟩ := format_holdsText timeHeader threadTime threadId hshort
  obtain ⟨s, hrun, hs⟩ := run_holdsText hb hpieces
  obtain ⟨v₀, v₁, hdestroy, hiff⟩ := destroy_holdsText hs
  exact ⟨s, v₀, v₁, Transition.run_cons.2 ⟨b, hformat, hrun⟩, hdestroy, hiff⟩

theorem record_content_short :
    ∃ b v₀ v₁, Transition.run step (new [] 0 0)
        (.format .INFO (ascii "a.cpp") 7 (ascii "f") ⟨0, 1, [], 0⟩ ::
          [(.string (ascii "ok") : Piece Bytes), .char (ch '!')].map .build) = some b ∧
      destroy b = some (v₀, v₁) ∧
      IsBytes v₁ (ascii "000 [ a.cpp - f - 7 ] [thread 1] INFO  : ok!\n") := by
  obtain ⟨b, v₀, v₁, hrun, hdestroy, hiff⟩ := record_content_iff [] 0 0 .INFO (ascii "a.cpp")
    (ascii "f") 7 ⟨0, 1, [], 0⟩ [(.string (ascii "ok") : Piece Bytes), .char (ch '!')] (by decide)
    (by decide)
  exact ⟨b, v₀, v₁, hrun, hdestroy, hiff.2 (by decide)⟩

/-- A text that fills the buffer leaves a vector that is longer than the buffer. -/
theorem full_record_overlong :
    (headerText .INFO (ascii "a.cpp") 7 (ascii "f") 1 0).length < logInfoMaxSize ∧
      ∃ b v₀ v₁, Transition.run step (new [] 0 0)
          [.format .INFO (ascii "a.cpp") 7 (ascii "f") ⟨0, 1, [], 0⟩,
            (.build (.string (List.replicate 512 (ch 'x'))) : Call Bytes)] = some b ∧
        destroy b = some (v₀, v₁) ∧ v₁.iov_len = 513 ∧
        ¬ IsBytes v₁ ((headerText .INFO (ascii "a.cpp") 7 (ascii "f") 1 0 ++
          List.replicate 512 (ch 'x')).take (logInfoMaxSize - 1) ++ [ch '\n']) := by
  have hlen : ((Transition.run step (new [] 0 0)
      [.format .INFO (ascii "a.cpp") 7 (ascii "f") ⟨0, 1, [], 0⟩,
        (.build (.string (List.replicate 512 (ch 'x'))) : Call Bytes)]).bind destroy).map
          (fun v => v.2.iov_len) = some 513 := by
    decide +kernel
  obtain ⟨⟨v₀, v₁⟩, hv, hlen⟩ := Option.map_eq_some_iff.1 hlen
  obtain ⟨b, hrun, hdestroy⟩ := Option.bind_eq_some_iff.1 hv
  refine ⟨by decide, b, v₀, v₁, hrun, hdestroy, hlen, ?_⟩
  rintro ⟨hsize, -⟩
  rw [hlen, List.length_append, List.length_take, List.length_singleton] at hsize
  simp only [logInfoMaxSize] at hsize
  omega

end LoggerInfoBuilder

end CoUringWeb
