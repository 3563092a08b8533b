import Briefs.Lib.Bytes
import Mathlib.Tactic.Common

/-!
# BrieFS — inline contents as a byte array

Up to 256 bytes of a regular file lie in the inode, in the place of its eight extent records
(`union` in `struct briefs_inode`). Write, truncate, zero range, punch and fallocate each have a
branch for such a file (`file.c`), and none of them but truncate clears bytes when the size grows:
they rely on the bytes past `i_size` being zero.

A file without bytes is not marked inline. Truncating it up and zeroing its range only change the
size, but `fallocate` gives it an extent of one unwritten block, also if it keeps the size, and the
next write takes the inline branch all the same, because `i_size` is 0. The record of the extent is
then part of the bytes.

## Results

* `runs_mirror` — as long as no write comes to an empty file that has an extent, the bytes are
  those of a flat array and those past the size are zero.
* `prealloc_leaks` — after a fallocate that keeps the size they are not.
-/

namespace Briefs.File

open Briefs.Bytes

--
-- The code
--

/-- A regular file of which at most the first block is mapped: `InodeFlagInlineData`, `i_size`, the
256 bytes that `inline_data` and `inline_extents` share, `num_extents_total` and
`cached_max_end`. -/
structure Tiny where
  inlineData : Bool
  size       : Nat
  area       : Nat → BitVec 8
  total      : Nat
  maxEnd     : Nat

/-- `BRIEFS_INODE_INLINE_DATA_SIZE`. -/
def tinyLimit : Nat := 256

/-- A `u64` or `u32` in memory. -/
def littleEndian (bytes n : Nat) : List (BitVec 8) :=
  (List.range bytes).map fun i => BitVec.ofNat 8 (n >>> (8 * i))

/-- A `struct briefs_extent` for one unwritten block at file block 0. -/
def extentRecord (phys : Nat) : List (BitVec 8) :=
  littleEndian 8 0 ++ littleEndian 8 phys ++ littleEndian 8 1 ++ littleEndian 4 1 ++ littleEndian 4 0

/-- The calls; `fails` tells that the list of the extents cannot be allocated, `block` is the
data block that the allocator hands out, if any. -/
inductive TinyOp where
  | write (pos : Nat) (buf : List (BitVec 8))
  | truncate (newSize : Nat) (fails : Bool)
  | zeroRange (keepSize : Bool) (offset len : Nat)
  | punch (offset len : Nat)
  | fallocate (keepSize : Bool) (offset len : Nat) (block : Option Nat)

/-- The inline section of `briefs_write_iter`; `none` when the bytes go to the page cache. -/
def Tiny.write (s : Tiny) (pos : Nat) (buf : List (BitVec 8)) : Option Tiny :=
  if buf = [] then some s
  else if (s.inlineData = true ∨ s.size = 0) ∧ pos + buf.length ≤ tinyLimit then
    some { s with
      inlineData := true
      size := max s.size (pos + buf.length)
      area := put s.area pos buf }
  else none

/-- The size part of `briefs_setattr`; `none` when the file is promoted. -/
def Tiny.truncate (s : Tiny) (newSize : Nat) (fails : Bool) : Option Tiny :=
  let truncBlock := (newSize + 4095) / 4096
  if newSize = s.size ∧ (s.total = 0 ∨ s.maxEnd ≤ truncBlock) then some s
  else if s.size < newSize ∧ s.inlineData = true then
    if newSize ≤ tinyLimit then
      some { s with size := newSize, area := fill s.area s.size (newSize - s.size) 0#8 }
    else none
  else if s.size < newSize then some { s with size := newSize }
  else if s.inlineData then
    if newSize = 0 then some { s with inlineData := false, size := 0, area := fun _ => 0#8 }
    else some { s with size := newSize, area := fill s.area newSize (s.size - newSize) 0#8 }
  else if s.total = 0 ∨ fails = true ∨ truncBlock ≠ 0 then
    -- no extent, or the list is not read, or the extent is kept
    some { s with size := newSize }
  else some { s with size := newSize, area := fun _ => 0#8, total := 0, maxEnd := 0 }

/-- The size after a range that ends at `stop`. -/
def Tiny.grown (s : Tiny) (keepSize : Bool) (stop : Nat) : Nat :=
  if keepSize = false ∧ s.size < stop then stop else s.size

/-- `briefs_do_zero_range` for a range inside the inline limit. -/
def Tiny.zeroRange (s : Tiny) (keepSize : Bool) (offset len : Nat) : Option Tiny :=
  if tinyLimit < offset + len then none
  else if s.inlineData then
    some { s with
      size := s.grown keepSize (offset + len)
      area := fill s.area offset (min (offset + len) s.size - offset) 0#8 }
  else some { s with size := s.grown keepSize (offset + len) }

/-- `briefs_do_punch_hole`; a range inside the first block frees nothing. -/
def Tiny.punch (s : Tiny) (offset len : Nat) : Option Tiny :=
  if tinyLimit < offset + len then none
  else if s.inlineData then
    some { s with area := fill s.area offset (min (offset + len) s.size - offset) 0#8 }
  else some s

/-- `briefs_fallocate` for a range inside the inline limit. Without a block it fails, after the
size was set. -/
def Tiny.fallocate (s : Tiny) (keepSize : Bool) (offset len : Nat) (block : Option Nat) :
    Option Tiny :=
  if tinyLimit < offset + len then none
  else if s.inlineData then some { s with size := s.grown keepSize (offset + len) }
  else
    match block with
    | some phys =>
      if s.total = 0 then
        some { s with
          size := s.grown keepSize (offset + len)
          area := put s.area 0 (extentRecord phys)
          total := 1
          maxEnd := max s.maxEnd 1 }
      else some { s with size := s.grown keepSize (offset + len) }
    | none => some { s with size := s.grown keepSize (offset + len) }

/-- One call; `none` when the file leaves the inode. -/
def Tiny.step (s : Tiny) : TinyOp → Option Tiny
  | .write pos buf => s.write pos buf
  | .truncate newSize fails => s.truncate newSize fails
  | .zeroRange keepSize offset len => s.zeroRange keepSize offset len
  | .punch offset len => s.punch offset len
  | .fallocate keepSize offset len block => s.fallocate keepSize offset len block

/-- What `briefs_read_iter` reads: holes and unwritten blocks are zeros. -/
def Tiny.content (s : Tiny) : List (BitVec 8) :=
  upTo (if s.inlineData then s.area else fun _ => 0#8) s.size

/-- The block that `briefs_promote_inline_data` writes. -/
def Tiny.promoteBlock (s : Tiny) (o : Nat) : BitVec 8 := if o < s.size then s.area o else 0#8

/-- A new file. -/
def emptyTiny : Tiny := ⟨false, 0, fun _ => 0#8, 0, 0⟩

--
-- The array
--

/-- A byte of a flat array; zero past its end. -/
def flatAt (l : List (BitVec 8)) (o : Nat) : BitVec 8 := (l[o]?).getD 0#8

/-- What the calls do to a flat array. -/
def flatStep (l : List (BitVec 8)) : TinyOp → List (BitVec 8)
  | .write pos buf =>
    if buf = [] then l else upTo (put (flatAt l) pos buf) (max l.length (pos + buf.length))
  | .truncate newSize _ => upTo (flatAt l) newSize
  | .zeroRange keepSize offset len =>
    upTo (fill (flatAt l) offset len 0#8) (if keepSize then l.length else max l.length (offset + len))
  | .punch offset len => upTo (fill (flatAt l) offset len 0#8) l.length
  | .fallocate keepSize offset len _ =>
    upTo (flatAt l) (if keepSize then l.length else max l.length (offset + len))

section Flat

variable {l : List (BitVec 8)} {g : Nat → BitVec 8} {n o : Nat}

theorem flatAt_of_ge (h : l.length ≤ o) : flatAt l o = 0#8 := by
  unfold flatAt
  rw [List.getElem?_eq_none h, Option.getD_none]

theorem flatAt_upTo (h : o < n) : flatAt (upTo g n) o = g o := by
  unfold flatAt
  rw [getElem?_upTo h, Option.getD_some]

theorem flatAt_upTo_of_ge (h : n ≤ o) : flatAt (upTo g n) o = 0#8 :=
  flatAt_of_ge (by rwa [length_upTo])

/-- An array that was read up to a bound past which the buffer is zero. -/
theorem flatAt_upTo_of_zero (hZero : ∀ o, n ≤ o → g o = 0#8) (o : Nat) :
    flatAt (upTo g n) o = g o := by
  by_cases ho : o < n
  · exact flatAt_upTo ho
  · rw [flatAt_upTo_of_ge (by omega), hZero o (by omega)]

theorem upTo_flatAt (l : List (BitVec 8)) : upTo (flatAt l) l.length = l := by
  apply List.ext_getElem?
  intro o
  by_cases ho : o < l.length
  · rw [getElem?_upTo ho]
    unfold flatAt
    rw [List.getElem?_eq_getElem ho, Option.getD_some]
  · rw [List.getElem?_eq_none (by rw [length_upTo]; omega), List.getElem?_eq_none (by omega)]

end Flat

--
-- One call
--

/-- The file holds the array: an inline file byte by byte, zeros past the end, and another file
reads as zeros and has a clear area as long as it has no extent. -/
structure Mirrors (s : Tiny) (l : List (BitVec 8)) : Prop where
  size   : s.size = l.length
  inline : s.inlineData = true → ∀ o, s.area o = flatAt l o
  zeros  : s.inlineData = false → ∀ o, flatAt l o = 0#8
  clear  : s.inlineData = false → s.total = 0 → ∀ o, s.area o = 0#8

/-- A write does not come to an empty file that has an extent. -/
def TinyOp.Clear (s : Tiny) : TinyOp → Prop
  | .write _ buf => buf = [] ∨ s.inlineData = true ∨ s.total = 0
  | _ => True

section Step

variable {s s' : Tiny} {l : List (BitVec 8)}

/-- The bytes before a call that stores inline. -/
theorem Mirrors.area (h : Mirrors s l) (hEmpty : s.inlineData = true ∨ s.total = 0) (o : Nat) :
    s.area o = flatAt l o := by
  by_cases hInline : s.inlineData = true
  · exact h.inline hInline o
  · have hFlat : s.inlineData = false := by simpa using hInline
    rw [h.clear hFlat (hEmpty.resolve_left hInline) o, h.zeros hFlat o]

/-- A file that is not inline reads as zeros whatever its size. -/
theorem mirrors_zeros {n : Nat} {g : Nat → BitVec 8} (hFlat : s.inlineData = false)
    (hSize : s.size = n) (hg : ∀ o, g o = 0#8) (hArea : s.total = 0 → ∀ o, s.area o = 0#8) :
    Mirrors s (upTo g n) := by
  refine ⟨hSize.trans length_upTo.symm, fun hInline => ?_, fun _ o => ?_, fun _ => hArea⟩
  · rw [hFlat] at hInline
    cases hInline
  · rw [flatAt_upTo_of_zero fun o _ => hg o]
    exact hg o

/-- An inline file that holds the array. -/
theorem mirrors_inline (hFlag : s.inlineData = true) (hSize : s.size = l.length)
    (hArea : ∀ o, s.area o = flatAt l o) : Mirrors s l := by
  refine ⟨hSize, fun _ => hArea, fun hNo => ?_, fun hNo => ?_⟩
  · rw [hFlag] at hNo
    cases hNo
  · rw [hFlag] at hNo
    cases hNo

theorem Mirrors.write (h : Mirrors s l) {pos : Nat} {buf : List (BitVec 8)}
    (hClear : (TinyOp.write pos buf).Clear s) (hEq : s.write pos buf = some s') :
    Mirrors s' (flatStep l (.write pos buf)) := by
  unfold Tiny.write at hEq
  dsimp only [flatStep]
  by_cases hNil : buf = []
  · rw [if_pos hNil] at hEq ⊢
    cases hEq
    exact h
  · rw [if_neg hNil] at hEq ⊢
    by_cases hIn : (s.inlineData = true ∨ s.size = 0) ∧ pos + buf.length ≤ tinyLimit
    · rw [if_pos hIn] at hEq
      cases hEq
      have hArea := h.area (hClear.resolve_left hNil)
      refine mirrors_inline rfl ?_ fun o => ?_
      · rw [length_upTo, ← h.size]
      · show put s.area pos buf o = _
        have hSame : put s.area pos buf o = put (flatAt l) pos buf o := by
          unfold put
          rw [hArea]
        rw [flatAt_upTo_of_zero, hSame]
        intro p hp
        rw [put_of_ge (by omega)]
        exact flatAt_of_ge (by omega)
    · rw [if_neg hIn] at hEq
      cases hEq

theorem Mirrors.truncate (h : Mirrors s l) {newSize : Nat} {fails : Bool}
    (hEq : s.truncate newSize fails = some s') :
    Mirrors s' (flatStep l (.truncate newSize fails)) := by
  have hSize := h.size
  unfold Tiny.truncate at hEq
  dsimp only [flatStep] at hEq ⊢
  by_cases hSame : newSize = s.size ∧ (s.total = 0 ∨ s.maxEnd ≤ (newSize + 4095) / 4096)
  · rw [if_pos hSame] at hEq
    cases hEq
    rw [hSame.1, hSize, upTo_flatAt]
    exact h
  rw [if_neg hSame] at hEq
  have hPast : ∀ o, s.size ≤ o → flatAt l o = 0#8 := fun o ho => flatAt_of_ge (by omega)
  by_cases hFlag : s.inlineData = true
  · have hArea := h.inline hFlag
    by_cases hGrow : s.size < newSize
    · rw [if_pos ⟨hGrow, hFlag⟩] at hEq
      by_cases hFits : newSize ≤ tinyLimit
      · rw [if_pos hFits] at hEq
        cases hEq
        refine mirrors_inline hFlag length_upTo.symm fun o => ?_
        show fill s.area s.size (newSize - s.size) 0#8 o = _
        rw [flatAt_upTo_of_zero fun p hp => hPast p (by omega)]
        by_cases hIn : s.size ≤ o ∧ o < s.size + (newSize - s.size)
        · rw [fill_inside hIn, hPast o hIn.1]
        · rw [fill_outside hIn, hArea]
      · rw [if_neg hFits] at hEq
        cases hEq
    · rw [if_neg (fun hNo => hGrow hNo.1), if_neg hGrow, if_pos hFlag] at hEq
      by_cases hZero : newSize = 0
      · rw [if_pos hZero] at hEq
        cases hEq
        rw [hZero]
        exact ⟨rfl, nofun, fun _ o => flatAt_upTo_of_ge (Nat.zero_le _), fun _ _ _ => rfl⟩
      · rw [if_neg hZero] at hEq
        cases hEq
        refine mirrors_inline hFlag length_upTo.symm fun o => ?_
        show fill s.area newSize (s.size - newSize) 0#8 o = _
        by_cases hKept : o < newSize
        · rw [flatAt_upTo hKept, fill_outside (by omega), hArea]
        · rw [flatAt_upTo_of_ge (by omega)]
          by_cases hIn : newSize ≤ o ∧ o < newSize + (s.size - newSize)
          · exact fill_inside hIn
          · rw [fill_outside hIn, hArea, hPast o (by omega)]
  · have hFlat : s.inlineData = false := by simpa using hFlag
    have hZeros := h.zeros hFlat
    rw [if_neg fun hNo => hFlag hNo.2] at hEq
    by_cases hGrow : s.size < newSize
    · rw [if_pos hGrow] at hEq
      cases hEq
      exact mirrors_zeros hFlat rfl hZeros (h.clear hFlat)
    · rw [if_neg hGrow, if_neg hFlag] at hEq
      split at hEq
      · cases hEq
        exact mirrors_zeros hFlat rfl hZeros (h.clear hFlat)
      · cases hEq
        exact mirrors_zeros hFlat rfl hZeros fun _ _ => rfl

theorem grown_eq (h : s.size = l.length) (keepSize : Bool) (stop : Nat) :
    s.grown keepSize stop = if keepSize then l.length else max l.length stop := by
  unfold Tiny.grown
  cases keepSize with
  | true =>
    rw [if_neg fun hNo => absurd hNo.1 nofun]
    exact h
  | false =>
    simp only [Bool.false_eq_true, if_false, true_and]
    split
    · omega
    · omega

/-- The size grows, and what lies between is zero already. -/
theorem Mirrors.grow (h : Mirrors s l) (hFlag : s.inlineData = true) {n : Nat}
    (hn : l.length ≤ n) : Mirrors { s with size := n } (upTo (flatAt l) n) := by
  refine mirrors_inline hFlag length_upTo.symm fun o => ?_
  rw [flatAt_upTo_of_zero fun p hp => flatAt_of_ge (by omega)]
  exact h.inline hFlag o

/-- A range below the size is cleared, and the size does not shrink. -/
theorem Mirrors.clearRange (h : Mirrors s l) (hFlag : s.inlineData = true) {offset len n : Nat}
    (hn : l.length ≤ n) :
    Mirrors { s with size := n, area := fill s.area offset (min (offset + len) s.size - offset) 0#8 }
      (upTo (fill (flatAt l) offset len 0#8) n) := by
  have hSize := h.size
  have hZero : ∀ o, l.length ≤ o → fill (flatAt l) offset len 0#8 o = 0#8 := by
    intro o ho
    unfold fill
    split
    · rfl
    · exact flatAt_of_ge ho
  refine mirrors_inline hFlag length_upTo.symm fun o => ?_
  rw [flatAt_upTo_of_zero fun p hp => hZero p (by omega)]
  show fill s.area offset (min (offset + len) s.size - offset) 0#8 o = _
  by_cases hPast : l.length ≤ o
  · rw [hZero o hPast, fill_outside (by omega), h.inline hFlag, flatAt_of_ge hPast]
  · by_cases hIn : offset ≤ o ∧ o < offset + len
    · rw [fill_inside hIn, fill_inside (by omega)]
    · rw [fill_outside hIn, fill_outside (by omega), h.inline hFlag]

theorem le_grown (l : List (BitVec 8)) (keepSize : Bool) (stop : Nat) :
    l.length ≤ if keepSize then l.length else max l.length stop := by
  split
  · exact Nat.le_refl _
  · exact Nat.le_max_left _ _

theorem fill_zeros (hZeros : ∀ o, flatAt l o = 0#8) (offset len : Nat) (o : Nat) :
    fill (flatAt l) offset len 0#8 o = 0#8 := by
  unfold fill
  split
  · rfl
  · exact hZeros o

theorem Mirrors.zeroRange (h : Mirrors s l) {keepSize : Bool} {offset len : Nat}
    (hEq : s.zeroRange keepSize offset len = some s') :
    Mirrors s' (flatStep l (.zeroRange keepSize offset len)) := by
  unfold Tiny.zeroRange at hEq
  rw [grown_eq h.size] at hEq
  split at hEq
  · cases hEq
  by_cases hFlag : s.inlineData = true
  · rw [if_pos hFlag] at hEq
    cases hEq
    exact h.clearRange hFlag (le_grown l keepSize _)
  · have hFlat : s.inlineData = false := by simpa using hFlag
    rw [if_neg hFlag] at hEq
    cases hEq
    exact mirrors_zeros hFlat rfl (fill_zeros (h.zeros hFlat) offset len) (h.clear hFlat)

theorem Mirrors.punch (h : Mirrors s l) {offset len : Nat} (hEq : s.punch offset len = some s') :
    Mirrors s' (flatStep l (.punch offset len)) := by
  unfold Tiny.punch at hEq
  split at hEq
  · cases hEq
  by_cases hFlag : s.inlineData = true
  · rw [if_pos hFlag] at hEq
    cases hEq
    dsimp only [flatStep]
    rw [← h.size]
    exact h.clearRange hFlag (Nat.le_of_eq h.size.symm)
  · have hFlat : s.inlineData = false := by simpa using hFlag
    rw [if_neg hFlag] at hEq
    cases hEq
    dsimp only [flatStep]
    rw [← h.size]
    exact mirrors_zeros hFlat rfl (fill_zeros (h.zeros hFlat) offset len) (h.clear hFlat)

theorem Mirrors.fallocate (h : Mirrors s l) {keepSize : Bool} {offset len : Nat}
    {block : Option Nat} (hEq : s.fallocate keepSize offset len block = some s') :
    Mirrors s' (flatStep l (.fallocate keepSize offset len block)) := by
  unfold Tiny.fallocate at hEq
  rw [grown_eq h.size] at hEq
  split at hEq
  · cases hEq
  by_cases hFlag : s.inlineData = true
  · rw [if_pos hFlag] at hEq
    cases hEq
    exact h.grow hFlag (le_grown l keepSize _)
  · have hFlat : s.inlineData = false := by simpa using hFlag
    have hZeros := h.zeros hFlat
    rw [if_neg hFlag] at hEq
    cases block with
    | none =>
      cases hEq
      exact mirrors_zeros hFlat rfl hZeros (h.clear hFlat)
    | some phys =>
      dsimp only at hEq
      split at hEq
      · cases hEq
        exact mirrors_zeros hFlat rfl hZeros fun hNo => absurd hNo Nat.one_ne_zero
      · cases hEq
        exact mirrors_zeros hFlat rfl hZeros (h.clear hFlat)

/-- Every call does to the file what it does to the array. -/
theorem Mirrors.step (h : Mirrors s l) {op : TinyOp} (hClear : op.Clear s)
    (hEq : s.step op = some s') : Mirrors s' (flatStep l op) := by
  cases op with
  | write pos buf => exact h.write hClear hEq
  | truncate newSize fails => exact h.truncate hEq
  | zeroRange keepSize offset len => exact h.zeroRange hEq
  | punch offset len => exact h.punch hEq
  | fallocate keepSize offset len block => exact h.fallocate hEq

/-- What is read of the file is the array. -/
theorem Mirrors.content (h : Mirrors s l) : s.content = l := by
  have hEach : ∀ o, (if s.inlineData then s.area else fun _ => 0#8) o = flatAt l o := by
    intro o
    by_cases hFlag : s.inlineData = true
    · rw [if_pos hFlag]
      exact h.inline hFlag o
    · rw [if_neg hFlag, h.zeros (by simpa using hFlag)]
  unfold Tiny.content
  rw [h.size, upTo_congr fun o _ => hEach o, upTo_flatAt]

/-- The block of a promotion is the array with zeros behind it. -/
theorem Mirrors.promoteBlock (h : Mirrors s l) (hFlag : s.inlineData = true) (o : Nat) :
    s.promoteBlock o = flatAt l o := by
  have hSize := h.size
  unfold Tiny.promoteBlock
  split
  · exact h.inline hFlag o
  · exact (flatAt_of_ge (by omega)).symm

end Step

--
-- All calls
--

/-- The states that a sequence of calls goes through, with the array beside it; each call under
`P`. -/
inductive TinyRuns (P : Tiny → TinyOp → Prop) : Tiny → List (BitVec 8) → Prop
  | start : TinyRuns P emptyTiny []
  | step {s s' : Tiny} {l : List (BitVec 8)} {op : TinyOp} :
      TinyRuns P s l → P s op → s.step op = some s' → TinyRuns P s' (flatStep l op)

/-- In every sequence of calls from a new file in which no write comes to an empty file that has
an extent, the bytes that are read are those of the flat array, the inline bytes past the size are
zero after each call, and a promotion writes the array with zeros behind it. -/
theorem runs_mirror {s : Tiny} {l : List (BitVec 8)}
    (hRun : TinyRuns (fun s op => op.Clear s) s l) :
    s.content = l ∧
      (s.inlineData = true → ∀ o, s.size ≤ o → s.area o = 0#8) ∧
      (s.inlineData = true → ∀ o, s.promoteBlock o = flatAt l o) := by
  have hMirrors : Mirrors s l := by
    induction hRun with
    | start => exact ⟨rfl, nofun, fun _ _ => rfl, fun _ _ _ => rfl⟩
    | step _ hClear hEq ih => exact ih.step hClear hEq
  refine ⟨hMirrors.content, fun hFlag o ho => ?_, hMirrors.promoteBlock⟩
  have hSize := hMirrors.size
  rw [hMirrors.inline hFlag]
  exact flatAt_of_ge (by omega)

/-- After a write of two bytes at position 3. -/
def writtenTiny : Tiny := ⟨true, 5, put (fun _ => 0#8) 3 [1#8, 2#8], 0, 0⟩

theorem runs_mirror_written :
    writtenTiny.content = [0#8, 0#8, 0#8, 1#8, 2#8] ∧
      (writtenTiny.inlineData = true → ∀ o, writtenTiny.size ≤ o → writtenTiny.area o = 0#8) ∧
      (writtenTiny.inlineData = true →
        ∀ o, writtenTiny.promoteBlock o = flatAt [0#8, 0#8, 0#8, 1#8, 2#8] o) :=
  runs_mirror
    (show TinyRuns _ _ (flatStep [] (.write 3 [1#8, 2#8])) from
      TinyRuns.start.step (Or.inr (Or.inr rfl)) rfl)

/-- A fallocate of 100 bytes that keeps the size, a byte at 0 and a byte at 20: the record of the
extent lies past the size after the first write, and its bytes are read after the second. -/
theorem prealloc_leaks :
    ∃ s s' l l', TinyRuns (fun _ _ => True) s l ∧ TinyRuns (fun _ _ => True) s' l' ∧
      s.inlineData = true ∧ s.size = 1 ∧ s.area 8 = 0xE9#8 ∧
      s'.content ≠ l' ∧ s'.content[8]? = some 0xE9#8 ∧ l'[8]? = some 0#8 := by
  let first : TinyOp := .fallocate true 0 100 (some 1001)
  let second : TinyOp := .write 0 [1#8]
  let third : TinyOp := .write 20 [2#8]
  have hFirst : TinyRuns (fun _ _ => True) _ (flatStep [] first) :=
    TinyRuns.start.step trivial rfl
  have hSecond : TinyRuns (fun _ _ => True) _ (flatStep _ second) := hFirst.step trivial rfl
  have hThird : TinyRuns (fun _ _ => True) _ (flatStep _ third) := hSecond.step trivial rfl
  exact ⟨_, _, _, _, hSecond, hThird, rfl, rfl, by decide, by decide, by decide, by decide⟩

end Briefs.File
