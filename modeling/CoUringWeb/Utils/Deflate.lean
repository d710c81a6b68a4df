import CoUringWeb.Framework.Machine
import CoUringWeb.Framework.Stores

/-!
# `deflateCompress` and `deflateUncompress`

The two functions of `src/utils.cpp` on top of zlib, which is a parameter: what its calls return
and store (`Zlib`), with what is assumed of it for a text and its stream (`Zlib.StreamOf`).  The
sizes of a `z_stream` have 32 bits, and those of a string 64.

`deflateUncompress` gives the text four times the space of its stream, or 1024 bytes.
`deflateUncompress_deflateCompress_iff` says that this decides whether the text comes back.
-/

namespace CoUringWeb

open Machine Stores

def Z_OK : ℤ := 0

def Z_STREAM_END : ℤ := 1

/-- What `deflate` and `inflate` return, the rest of `avail_in`, and what they stored at `next_out`;
`total_out` is its length. -/
structure ZResult where
  err : ℤ
  avail_in : ℕ
  out : Bytes
  deriving DecidableEq, Repr

/-- The calls of zlib.  `deflate` and `inflate` are the first call on a stream, with `Z_FINISH`, on
`avail_in` bytes at `next_in` and with room for `avail_out` bytes. -/
structure Zlib where
  deflateInit : ℤ
  deflate : Bytes → ℕ → ZResult
  deflateEnd : ℤ
  inflateInit : ℤ
  inflate : Bytes → ℕ → ZResult
  inflateEnd : ℤ

variable (z : Zlib)

/-- `res.resize(zs.total_out)` on a string of `resSize` bytes into which the call stored. -/
def ZResult.resized (r : ZResult) (resSize : ℕ) : Bytes :=
  (overwrite (List.replicate resSize 0) 0 r.out).take r.out.length

def deflateCompress (view : Bytes) : Bytes :=
  let resSize := max (uint64 (2 * view.length)) 1024
  if z.deflateInit ≠ Z_OK then []
  else
    let r := z.deflate (view.take (uint32 view.length)) (uint32 resSize)
    if r.err ≠ Z_STREAM_END then []
    else if r.avail_in ≠ 0 then []
    else if z.deflateEnd ≠ Z_OK then []
    else r.resized resSize

def deflateUncompress (view : Bytes) : Bytes :=
  let resSize := max (uint64 (view.length * 4)) 1024
  if z.inflateInit ≠ Z_OK then []
  else
    let r := z.inflate (view.take (uint32 view.length)) (uint32 resSize)
    if r.err ≠ Z_STREAM_END then []
    else if r.avail_in ≠ 0 then []
    else if z.inflateEnd ≠ Z_OK then []
    else r.resized resSize

/-- What is assumed of zlib for the text `x` and its stream `c`: `deflate` emits the whole stream or
says that it lacks room, and `inflate` restores the text exactly when there is room for it. -/
structure Zlib.StreamOf (x c : Bytes) : Prop where
  deflate : ∀ n < 2 ^ 32, (z.deflate x n).err = Z_STREAM_END →
    c.length ≤ n ∧ z.deflate x n = ⟨Z_STREAM_END, 0, c⟩
  inflateInit : z.inflateInit = Z_OK
  inflate : ∀ n < 2 ^ 32, x.length ≤ n → z.inflate c n = ⟨Z_STREAM_END, 0, x⟩
  inflate_lacks_room : ∀ n < 2 ^ 32, n < x.length → (z.inflate c n).err ≠ Z_STREAM_END
  inflateEnd : z.inflateEnd = Z_OK

variable {z}

theorem ZResult.resized_eq (r : ZResult) (resSize : ℕ) : r.resized resSize = r.out := by
  rw [ZResult.resized, overwrite, List.take_zero, List.nil_append]
  exact List.take_left

theorem take_uint32 {view : Bytes} (h : view.length < 2 ^ 32) :
    view.take (uint32 view.length) = view := by
  rw [uint32_of_lt h, List.take_length]

/-- A text that `deflateCompress` does not fail on becomes its stream. -/
theorem deflateCompress_eq {x c : Bytes} (hz : z.StreamOf x c) (hx : x.length < 2 ^ 31)
    (h : deflateCompress z x ≠ []) : deflateCompress z x = c ∧ c.length < 2 ^ 32 := by
  unfold deflateCompress at h ⊢
  simp only [take_uint32 (show x.length < 2 ^ 32 by omega)] at h ⊢
  have hn := uint32_lt (max (uint64 (2 * x.length)) 1024)
  generalize uint32 (max (uint64 (2 * x.length)) 1024) = n at h hn ⊢
  split at h
  · exact absurd rfl h
  rename_i hinit
  split at h
  · exact absurd rfl h
  rename_i herr
  obtain ⟨hroom, hr⟩ := hz.deflate n hn (not_not.1 herr)
  rw [hr] at h ⊢
  split at h
  · exact absurd rfl h
  split at h
  · exact absurd rfl h
  rename_i hend
  exact ⟨by simp [hinit, hend, ZResult.resized_eq], by omega⟩

/-- The text comes back if and only if `deflateUncompress` gives it room: four times the bytes of
its stream, or 1024, as a 32-bit size. -/
theorem deflateUncompress_deflateCompress_iff {x c : Bytes} (hz : z.StreamOf x c)
    (hx : x.length < 2 ^ 31) (h : deflateCompress z x ≠ []) :
    deflateUncompress z (deflateCompress z x) = x ↔
      x.length ≤ uint32 (max (4 * c.length) 1024) := by
  obtain ⟨hc, hlen⟩ := deflateCompress_eq hz hx h
  have hwrap : uint64 (c.length * 4) = 4 * c.length := by
    rw [uint64_of_lt (by omega), Nat.mul_comm]
  rw [hc]
  unfold deflateUncompress
  simp only [take_uint32 hlen, hwrap]
  have hn := uint32_lt (max (4 * c.length) 1024)
  generalize uint32 (max (4 * c.length) 1024) = n at hn ⊢
  rw [if_neg (not_not.2 hz.inflateInit)]
  rcases Nat.lt_or_ge n x.length with hlacks | hroom
  · rw [if_pos (hz.inflate_lacks_room n hn hlacks)]
    refine iff_of_false ?_ (by omega)
    rintro rfl
    exact absurd hlacks (Nat.not_lt_zero n)
  · refine iff_of_true ?_ hroom
    rw [hz.inflate n hn hroom]
    simp [hz.inflateEnd, ZResult.resized_eq]

/-! ## A text and its stream -/

/-- A zlib that knows one text and its stream. -/
def oneStream (x c : Bytes) : Zlib where
  deflateInit := Z_OK
  deflate view n :=
    if view = x ∧ c.length ≤ n then ⟨Z_STREAM_END, 0, c⟩ else ⟨Z_OK, view.length, []⟩
  deflateEnd := Z_OK
  inflateInit := Z_OK
  inflate view n :=
    if view = c ∧ x.length ≤ n then ⟨Z_STREAM_END, 0, x⟩ else ⟨-5, 0, []⟩
  inflateEnd := Z_OK

theorem oneStream_streamOf (x c : Bytes) : (oneStream x c).StreamOf x c where
  deflate n _ h := by
    by_cases hroom : c.length ≤ n
    · exact ⟨hroom, if_pos ⟨rfl, hroom⟩⟩
    · have hr : (oneStream x c).deflate x n = ⟨Z_OK, x.length, []⟩ := if_neg fun hc => hroom hc.2
      rw [hr] at h
      exact absurd h (show ¬ Z_OK = Z_STREAM_END by decide)
  inflateInit := rfl
  inflate n _ hroom := if_pos ⟨rfl, hroom⟩
  inflate_lacks_room n _ hlacks := by
    have hr : (oneStream x c).inflate c n = ⟨-5, 0, []⟩ := if_neg fun hc => by omega
    rw [hr]
    decide
  inflateEnd := rfl

/-- 1024 equal bytes fill the room that `deflateUncompress` has for their stream of 17. -/
theorem deflateUncompress_full :
    deflateUncompress (oneStream (List.replicate 1024 (ch 'a'))
        [120, 156, 75, 76, 28, 5, 163, 96, 20, 140, 84, 0, 0, 243, 120, 132, 16])
      (deflateCompress (oneStream (List.replicate 1024 (ch 'a'))
        [120, 156, 75, 76, 28, 5, 163, 96, 20, 140, 84, 0, 0, 243, 120, 132, 16])
        (List.replicate 1024 (ch 'a'))) = List.replicate 1024 (ch 'a') :=
  (deflateUncompress_deflateCompress_iff (oneStream_streamOf _ _)
    (by rw [List.length_replicate]; norm_num) (by decide +kernel)).2
    (by rw [List.length_replicate]; decide)

/-- 1200 equal bytes -/
def repetitive : Bytes := List.replicate 1200 (ch 'a')

/-- Their stream, which has 18 bytes. -/
def repetitiveStream : Bytes :=
  [120, 156, 75, 76, 28, 5, 163, 96, 20, 140, 130, 161, 1, 0, 210, 254, 198, 192]

/-- `deflateUncompress` has 1024 bytes of room for these 1200. -/
theorem repetitive_lost :
    (oneStream repetitive repetitiveStream).StreamOf repetitive repetitiveStream ∧
      deflateCompress (oneStream repetitive repetitiveStream) repetitive = repetitiveStream ∧
      deflateUncompress (oneStream repetitive repetitiveStream)
        (deflateCompress (oneStream repetitive repetitiveStream) repetitive) ≠ repetitive :=
  ⟨oneStream_streamOf _ _, by decide +kernel, by decide +kernel⟩

end CoUringWeb
