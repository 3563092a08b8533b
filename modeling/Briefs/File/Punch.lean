import Briefs.Btree.Range
import Briefs.Btree.Spend
import Briefs.File.Shift

/-!
# BrieFS — punching a hole

`briefs_do_punch_hole` (`file.c`) gives back the blocks that lie fully inside a range of bytes,
and zeroes the punched bytes of the blocks at its ends. An inline inode collects its extents, cuts
them, rebuilds the list and frees what was cut out; an inode with a tree calls
`briefs_btree_delete_range` and looks the boundary blocks up afterwards.

Both are described by the cells of the map. The inline way is right for every map. The tree way is
as good as the range delete: it leaves what the walk does not come to.

## Results

* `cells_punched`, `cells_freedBy` — what one extent keeps, and what it gives up.
* `punch_agrees_iff` — both representations give the same file if and only if the walk comes to
  every extent that meets the range.
-/

namespace Briefs.File

open Briefs.Journal
open Briefs.Btree

--
-- The range
--

/-- The bytes `[offset, offset + len)`. -/
structure Punch where
  offset : Nat
  len    : Nat

namespace Punch

def stop (r : Punch) : Nat := r.offset + r.len

def startBlk (r : Punch) : Nat := r.offset / blockSize

def endBlk (r : Punch) : Nat := (r.stop + blockSize - 1) / blockSize

def partialStartOff (r : Punch) : Nat := r.offset % blockSize

def partialEndOff (r : Punch) : Nat := r.stop % blockSize

def needPartialStart (r : Punch) : Bool := decide (r.partialStartOff ≠ 0)

def needPartialEnd (r : Punch) : Bool := decide (r.partialEndOff ≠ 0)

/-- Both ends of the range lie in one block. -/
def sameBoundaryBlock (r : Punch) : Bool :=
  r.needPartialStart && r.needPartialEnd && decide (r.startBlk = r.endBlk - 1)

/-- `del_start`: the first block that is fully inside. -/
def delStart (r : Punch) : Nat := r.startBlk + if r.needPartialStart then 1 else 0

def delEnd (r : Punch) : Nat := r.endBlk - if r.needPartialEnd then 1 else 0

/-- The boundary blocks that stay, each with the bytes to be zeroed. -/
def boundary (r : Punch) : List (Nat × Nat × Nat) :=
  if r.sameBoundaryBlock then [(r.startBlk, r.partialStartOff, r.partialEndOff)]
  else (if r.needPartialStart then [(r.startBlk, r.partialStartOff, blockSize)] else []) ++
    if r.needPartialEnd then [(r.endBlk - 1, 0, r.partialEndOff)] else []

/-- `free_start` and `free_end` of the loop over the inline extents. -/
def freeSpan (r : Punch) (e : Extent) : Nat × Nat :=
  let freeStart := max e.offset r.startBlk
  let freeEnd := min e.stop r.endBlk
  let freeStart := if r.needPartialStart ∧ freeStart = r.startBlk ∧ freeStart < freeEnd then
    freeStart + 1 else freeStart
  let freeEnd := if r.needPartialEnd ∧ freeEnd = r.endBlk ∧ freeStart < freeEnd then
    freeEnd - 1 else freeEnd
  (freeStart, freeEnd)

/-- The extent does not meet the range. -/
def misses (r : Punch) (e : Extent) : Prop := e.stop ≤ r.startBlk ∨ r.endBlk ≤ e.offset

instance (r : Punch) (e : Extent) : Decidable (r.misses e) := inferInstanceAs (Decidable (_ ∨ _))

/-- The new entries for an extent. -/
def kept (r : Punch) (e : Extent) : List Extent :=
  if r.misses e then [e]
  else
    (if e.offset < (r.freeSpan e).1 then [e.head (r.freeSpan e).1] else []) ++
      if (r.freeSpan e).2 < e.stop then [e.tail (r.freeSpan e).2] else []

/-- The run of an extent that is freed. -/
def freedBy (r : Punch) (e : Extent) : List Extent :=
  if r.misses e then []
  else if (r.freeSpan e).1 < (r.freeSpan e).2 then
    [⟨(r.freeSpan e).1, e.phys + ((r.freeSpan e).1 - e.offset),
      (r.freeSpan e).2 - (r.freeSpan e).1, e.flags⟩]
  else []

/-- The bytes of an extent to be zeroed: the block on the device, and the bytes in it. -/
def zeroes (r : Punch) (e : Extent) : List (Nat × Nat × Nat) :=
  if r.misses e then []
  else (r.boundary.filter fun x => decide (e.covers x.1)).map fun x => (e.physAt x.1, x.2)

end Punch

--
-- The code
--

/-- The bytes of the blocks of the device. -/
abbrev Disk := Nat → Nat → BitVec 8

/-- `briefs_zero_block_range`; `io` is what reading and writing a block back returns. -/
def zeroBlockRange (io : Nat → Option Errno) (disk : Disk) (absBlock start stop : Nat) :
    Option Errno × Disk :=
  if stop ≤ start then (none, disk)
  else if blockSize < stop then (some .einval, disk)
  else match io absBlock with
    | some err => (some err, disk)
    | none => (none, fun p o => if p = absBlock ∧ start ≤ o ∧ o < stop then 0#8 else disk p o)

/-- The calls for the boundary blocks of the inline extents, up to the first that fails. -/
def zeroAll (io : Nat → Option Errno) : List (Nat × Nat × Nat) → Disk → Option Errno × Disk
  | [], disk => (none, disk)
  | (absBlock, start, stop) :: rest, disk =>
    match zeroBlockRange io disk absBlock start stop with
    | (some err, disk) => (some err, disk)
    | (none, disk) => zeroAll io rest disk

/-- The boundary blocks of a tree: each is looked up, and zeroed if it is mapped. -/
def zeroMapped (io : Nat → Option Errno) (f : Btree.File) :
    List (Nat × Nat × Nat) → Disk → Option (Option Errno × Disk)
  | [], disk => some (none, disk)
  | (block, start, stop) :: rest, disk =>
    match lookupIblock f block with
    | none => none
    | some (.error .enoent) => zeroMapped io f rest disk
    | some (.error err) => some (some err, disk)
    | some (.ok e) =>
      if e.physAt block = 0 then zeroMapped io f rest disk
      else match zeroBlockRange io disk (e.physAt block) start stop with
        | (some err, disk) => some (some err, disk)
        | (none, disk) => zeroMapped io f rest disk

/-- The outcome of `briefs_do_punch_hole`. -/
structure Punched where
  ret         : Option Errno
  file        : Btree.File
  disk        : Disk
  blocksFreed : Nat

/-- The part for an inline extent list. -/
def punchInline (io : Nat → Option Errno) (f : Btree.File) (disk : Disk) (r : Punch) :
    Option Punched :=
  match forEachExtent f with
  | .error err => some ⟨some err, f, disk, 0⟩
  | .ok [] => some ⟨none, f, disk, 0⟩
  | .ok old =>
    match zeroAll io (old.flatMap r.zeroes) disk with
    | (some err, disk) => some ⟨some err, f, disk, 0⟩
    | (none, disk) =>
      match rebuildExtentList levels f (old.flatMap r.kept) with
      | none => none
      | some (some err, f) => some ⟨some err, f, disk, 0⟩
      | some (none, f) =>
        some ⟨none, freeRuns f (old.flatMap r.freedBy), disk,
          ((old.flatMap r.freedBy).map Extent.len).sum⟩

/-- The range delete of the part for a tree, if there is a block fully inside. -/
def punchDelete (f : Btree.File) (r : Punch) : Option Deleted :=
  if r.delStart < r.delEnd then deleteRange levels f r.delStart r.delEnd
  else some ⟨none, f, false, 0⟩

/-- The part for a tree. -/
def punchTree (io : Nat → Option Errno) (f : Btree.File) (disk : Disk) (r : Punch) :
    Option Punched :=
  if f.total = 0 then some ⟨none, f, disk, 0⟩
  else match punchDelete f r with
    | none => none
    | some ⟨some err, f, _, freed⟩ => some ⟨some err, f, disk, freed⟩
    | some ⟨none, f, _, freed⟩ =>
      match zeroMapped io f r.boundary disk with
      | none => none
      | some (ret, disk) => some ⟨ret, f, disk, freed⟩

/-- `briefs_do_punch_hole` on a file with extents, once the range is written back. -/
def doPunchHole (io : Nat → Option Errno) (f : Btree.File) (disk : Disk) (r : Punch) :
    Option Punched :=
  if (2 ^ 31 - 1) / 2 < f.total then some ⟨some .enomem, f, disk, 0⟩
  else if f.indexed then punchTree io f disk r
  else punchInline io f disk r

--
-- One extent
--

section Extent

variable {r : Punch} {e : Extent}

/-- The file block lies fully inside the range. -/
def Punch.inside (r : Punch) (b : Nat) : Prop := r.offset ≤ b * blockSize ∧ (b + 1) * blockSize ≤ r.stop

theorem Punch.inside_iff {b : Nat} : r.inside b ↔ r.delStart ≤ b ∧ b < r.delEnd := by
  unfold Punch.inside Punch.delStart Punch.delEnd Punch.needPartialStart Punch.needPartialEnd
    Punch.startBlk Punch.endBlk Punch.partialStartOff Punch.partialEndOff blockSize
  generalize r.stop = s
  simp only [ne_eq, decide_not, Bool.not_eq_true', decide_eq_false_iff_not]
  split <;> split <;> omega

theorem Punch.freeSpan_spec (hLen : 0 < r.len) (hPos : 0 < e.len) (hMeets : ¬ r.misses e) :
    e.offset ≤ (r.freeSpan e).1 ∧ (r.freeSpan e).1 ≤ (r.freeSpan e).2 ∧
      (r.freeSpan e).2 ≤ e.stop ∧
      ∀ b, e.covers b → ((r.freeSpan e).1 ≤ b ∧ b < (r.freeSpan e).2 ↔
        r.delStart ≤ b ∧ b < r.delEnd) := by
  have hStop : e.stop = e.offset + e.len := rfl
  have hOver : r.startBlk < e.stop ∧ e.offset < r.endBlk := by
    unfold Punch.misses at hMeets
    omega
  have hBlocks : r.startBlk < r.endBlk := by
    unfold Punch.startBlk Punch.endBlk blockSize
    have hEnd : r.offset < r.stop := Nat.lt_add_of_pos_right hLen
    omega
  -- the start moves over a partial block, and so does the end unless nothing is left
  have hFirst : (r.freeSpan e).1 = max e.offset r.startBlk ∧
        ¬ (r.needPartialStart = true ∧ e.offset ≤ r.startBlk) ∨
      (r.freeSpan e).1 = r.startBlk + 1 ∧ r.needPartialStart = true ∧ e.offset ≤ r.startBlk := by
    unfold Punch.freeSpan
    dsimp only
    split <;> rename_i hIf
    · exact Or.inr ⟨by omega, hIf.1, by omega⟩
    · exact Or.inl ⟨rfl, fun ⟨hS, hLe⟩ => hIf ⟨hS, by omega, by omega⟩⟩
  have hSecond : (r.freeSpan e).2 = min e.stop r.endBlk ∧
        ¬ (r.needPartialEnd = true ∧ r.endBlk ≤ e.stop ∧ (r.freeSpan e).1 < r.endBlk) ∨
      (r.freeSpan e).2 = r.endBlk - 1 ∧ r.needPartialEnd = true ∧ r.endBlk ≤ e.stop ∧
        (r.freeSpan e).1 < r.endBlk := by
    have hDef : (r.freeSpan e).2 = if r.needPartialEnd = true ∧ min e.stop r.endBlk = r.endBlk ∧
        (r.freeSpan e).1 < min e.stop r.endBlk then min e.stop r.endBlk - 1
        else min e.stop r.endBlk := rfl
    rw [hDef]
    split <;> rename_i hIf
    · exact Or.inr ⟨by omega, hIf.1, by omega, by omega⟩
    · exact Or.inl ⟨rfl, fun ⟨hE, hLe, hLt⟩ => hIf ⟨hE, by omega, by omega⟩⟩
  generalize (r.freeSpan e).1 = fs at hFirst hSecond ⊢
  generalize (r.freeSpan e).2 = fe at hFirst hSecond ⊢
  have hFrom : e.offset ≤ fs ∧ fs ≤ max e.offset r.startBlk + 1 ∧ fs ≤ min e.stop r.endBlk := by
    omega
  refine ⟨by omega, by omega, by omega, fun b hb => ?_⟩
  obtain ⟨hLo, hHi⟩ : e.offset ≤ b ∧ b < e.stop := hb
  unfold Punch.delStart Punch.delEnd
  cases hS : r.needPartialStart with
  | true =>
    cases hE : r.needPartialEnd with
    | true =>
      simp only [hS, hE, true_and, if_true] at hFirst hSecond ⊢
      omega
    | false =>
      simp only [hS, hE, true_and, if_true, Bool.false_eq_true, if_false, false_and, and_false,
        not_false_eq_true, and_true, or_false] at hFirst hSecond ⊢
      omega
  | false =>
    cases hE : r.needPartialEnd with
    | true =>
      simp only [hS, hE, true_and, if_true, Bool.false_eq_true, if_false, false_and, and_false,
        not_false_eq_true, and_true, or_false] at hFirst hSecond ⊢
      omega
    | false =>
      simp only [hS, hE, Bool.false_eq_true, if_false, false_and, and_false, not_false_eq_true,
        and_true, or_false] at hFirst hSecond ⊢
      omega

/-- An extent in three parts. -/
theorem cells_three {s m : Nat} (hLo : e.offset ≤ s) (hMid : s ≤ m) (hHi : m ≤ e.stop) :
    e.cells = (e.head s).cells ++
      ((⟨s, e.phys + (s - e.offset), m - s, e.flags⟩ : Extent).cells ++ (e.tail m).cells) := by
  have hStop : e.stop = e.offset + e.len := rfl
  have hFirst : e.len = (s - e.offset) + (e.stop - s) := by omega
  have hRest : e.stop - s = (m - s) + (e.stop - m) := by omega
  rw [cells_split hFirst]
  congr 1
  rw [cells_split (e := ⟨e.offset + (s - e.offset), e.phys + (s - e.offset), e.stop - s, e.flags⟩)
    hRest]
  unfold Extent.tail
  dsimp only
  have hOff : e.offset + (s - e.offset) = s := by omega
  have hOff' : s + (m - s) = m := by omega
  have hPhys : e.phys + (s - e.offset) + (m - s) = e.phys + (m - e.offset) := by omega
  rw [hOff, hOff', hPhys]

/-- An extent of the range. -/
theorem filter_within {lo hi : Nat} (h : ∀ b, e.covers b → lo ≤ b ∧ b < hi) :
    e.cells.filter (within lo hi) = e.cells ∧
      (e.cells.filter fun x => !within lo hi x) = [] := by
  have hAll : ∀ x ∈ e.cells, within lo hi x = true := by
    rintro ⟨b, p, fl⟩ hx
    exact within_iff.mpr (h b (mem_extent_cells.mp hx).1)
  refine ⟨List.filter_eq_self.mpr hAll, List.filter_eq_nil_iff.mpr fun x hx => ?_⟩
  rw [hAll x hx]
  nofun

/-- An extent beside the range. -/
theorem filter_outside {lo hi : Nat} (h : ∀ b, e.covers b → ¬ (lo ≤ b ∧ b < hi)) :
    e.cells.filter (within lo hi) = [] ∧
      (e.cells.filter fun x => !within lo hi x) = e.cells := by
  have hNone : ∀ x ∈ e.cells, within lo hi x = false := by
    rintro ⟨b, p, fl⟩ hx
    exact decide_eq_false (h b (mem_extent_cells.mp hx).1)
  refine ⟨List.filter_eq_nil_iff.mpr fun x hx => ?_, List.filter_eq_self.mpr fun x hx => ?_⟩
  · rw [hNone x hx]
    nofun
  · rw [hNone x hx]
    rfl

theorem Punch.misses_outside (h : r.misses e) :
    ∀ b, e.covers b → ¬ (r.delStart ≤ b ∧ b < r.delEnd) := by
  rintro b ⟨hLo, hHi⟩ ⟨hStart, hEnd⟩
  have hFrom : r.startBlk ≤ r.delStart := Nat.le_add_right _ _
  have hTo : r.delEnd ≤ r.endBlk := Nat.sub_le _ _
  unfold Punch.misses at h
  omega

/-- What an extent keeps, and what it gives up. -/
theorem cells_punched (hLen : 0 < r.len) (hPos : 0 < e.len) :
    cells (r.kept e) = (e.cells.filter fun x => !within r.delStart r.delEnd x) ∧
      cells (r.freedBy e) = e.cells.filter (within r.delStart r.delEnd) := by
  unfold Punch.kept Punch.freedBy
  by_cases hMiss : r.misses e
  · obtain ⟨hIn, hOut⟩ := filter_outside (r.misses_outside hMiss)
    rw [if_pos hMiss, if_pos hMiss, hIn, hOut, cells_cons, cells_nil, List.append_nil]
    exact ⟨rfl, rfl⟩
  · rw [if_neg hMiss, if_neg hMiss]
    obtain ⟨hLo, hMid, hHi, hSpan⟩ := r.freeSpan_spec hLen hPos hMiss
    generalize (r.freeSpan e).1 = s at *
    generalize (r.freeSpan e).2 = m at *
    have hStop : e.stop = e.offset + e.len := rfl
    have hHead : (e.head s).cells.filter (within r.delStart r.delEnd) = [] ∧
        ((e.head s).cells.filter fun x => !within r.delStart r.delEnd x) = (e.head s).cells := by
      apply filter_outside
      rintro b ⟨hb, hb'⟩
      have hFrom : e.offset ≤ b := hb
      have hTo : b < e.offset + (s - e.offset) := hb'
      rw [← hSpan b ⟨hFrom, by omega⟩]
      omega
    have hTail : (e.tail m).cells.filter (within r.delStart r.delEnd) = [] ∧
        ((e.tail m).cells.filter fun x => !within r.delStart r.delEnd x) = (e.tail m).cells := by
      apply filter_outside
      rintro b ⟨hb, hb'⟩
      have hFrom : m ≤ b := hb
      have hTo : b < m + (e.stop - m) := hb'
      rw [← hSpan b ⟨by omega, by omega⟩]
      omega
    have hMiddle : (⟨s, e.phys + (s - e.offset), m - s, e.flags⟩ : Extent).cells.filter
          (within r.delStart r.delEnd) =
            (⟨s, e.phys + (s - e.offset), m - s, e.flags⟩ : Extent).cells ∧
        ((⟨s, e.phys + (s - e.offset), m - s, e.flags⟩ : Extent).cells.filter
          fun x => !within r.delStart r.delEnd x) = [] := by
      apply filter_within
      rintro b ⟨hb, hb'⟩
      have hFrom : s ≤ b := hb
      have hTo : b < s + (m - s) := hb'
      rw [← hSpan b ⟨by omega, by omega⟩]
      omega
    -- a part of length 0 has no cells
    have hEmpty : ∀ x : Extent, x.len = 0 → x.cells = [] := by
      intro x hx
      unfold Extent.cells
      rw [hx]
      rfl
    have hLeft : cells (if e.offset < s then [e.head s] else []) = (e.head s).cells := by
      by_cases hSome : e.offset < s
      · rw [if_pos hSome, cells_cons, cells_nil, List.append_nil]
      · rw [if_neg hSome, hEmpty (e.head s) (Nat.sub_eq_zero_of_le (by omega))]
        rfl
    have hRight : cells (if m < e.stop then [e.tail m] else []) = (e.tail m).cells := by
      by_cases hSome : m < e.stop
      · rw [if_pos hSome, cells_cons, cells_nil, List.append_nil]
      · rw [if_neg hSome, hEmpty (e.tail m) (Nat.sub_eq_zero_of_le (by omega))]
        rfl
    rw [cells_three hLo hMid hHi, cells_append, hLeft, hRight]
    simp only [List.filter_append, hHead.1, hHead.2, hMiddle.1, hMiddle.2, hTail.1, hTail.2,
      List.nil_append, List.append_nil, true_and]
    by_cases hSome : s < m
    · rw [if_pos hSome, cells_cons, cells_nil, List.append_nil]
    · rw [if_neg hSome, hEmpty ⟨s, e.phys + (s - e.offset), m - s, e.flags⟩
        (Nat.sub_eq_zero_of_le (by omega))]
      rfl

theorem kept_fits (hLen : 0 < r.len) (hPos : 0 < e.len) : ∀ x ∈ r.kept e, 0 < x.len ∧ x.stop ≤ e.stop := by
  unfold Punch.kept
  by_cases hMiss : r.misses e
  · rw [if_pos hMiss]
    intro x hx
    rw [List.mem_singleton.mp hx]
    exact ⟨hPos, Nat.le_refl _⟩
  · rw [if_neg hMiss]
    obtain ⟨hLo, hMid, hHi, -⟩ := r.freeSpan_spec hLen hPos hMiss
    generalize (r.freeSpan e).1 = s at *
    generalize (r.freeSpan e).2 = m at *
    intro x hx
    rcases List.mem_append.mp hx with hx | hx
    · split at hx
      · rw [List.mem_singleton.mp hx]
        show 0 < s - e.offset ∧ e.offset + (s - e.offset) ≤ e.stop
        omega
      · cases hx
    · split at hx
      · rw [List.mem_singleton.mp hx]
        show 0 < e.stop - m ∧ m + (e.stop - m) ≤ e.stop
        omega
      · cases hx

theorem cells_punched_all (hLen : 0 < r.len) : ∀ {l : List Extent}, (∀ e ∈ l, 0 < e.len) →
    cells (l.flatMap r.kept) = ((cells l).filter fun x => !within r.delStart r.delEnd x) ∧
      cells (l.flatMap r.freedBy) = (cells l).filter (within r.delStart r.delEnd) := by
  intro l
  induction l with
  | nil => exact fun _ => ⟨rfl, rfl⟩
  | cons e l ih =>
    intro hPos
    obtain ⟨hKept, hFreed⟩ := cells_punched hLen (hPos e List.mem_cons_self)
    obtain ⟨hKeptAll, hFreedAll⟩ := ih fun x hx => hPos x (List.mem_cons_of_mem _ hx)
    rw [List.flatMap_cons, List.flatMap_cons, cells_append, cells_append, cells_cons,
      List.filter_append, List.filter_append, hKept, hFreed, hKeptAll, hFreedAll]
    exact ⟨rfl, rfl⟩

end Extent

--
-- Zeroing
--

/-- The bytes of `S` are zero now, and the others are as they were. -/
def Zeroed (S : Nat → Nat → Prop) (disk disk' : Disk) : Prop :=
  ∀ p o, (S p o → disk' p o = 0#8) ∧ (¬ S p o → disk' p o = disk p o)

section Zero

variable {io : Nat → Option Errno} {disk disk' disk'' : Disk} {S T : Nat → Nat → Prop}

theorem Zeroed.none (h : ∀ p o, ¬ S p o) (disk : Disk) : Zeroed S disk disk :=
  fun p o => ⟨fun hS => absurd hS (h p o), fun _ => rfl⟩

theorem Zeroed.trans (h : Zeroed S disk disk') (h' : Zeroed T disk' disk'') :
    Zeroed (fun p o => S p o ∨ T p o) disk disk'' := by
  intro p o
  by_cases hT : T p o
  · exact ⟨fun _ => (h' p o).1 hT, fun hNo => absurd (Or.inr hT) hNo⟩
  · rw [(h' p o).2 hT]
    exact ⟨fun hS => (h p o).1 (hS.resolve_right hT), fun hNo => (h p o).2 fun hS => hNo (Or.inl hS)⟩

theorem Zeroed.congr (h : Zeroed S disk disk') (hST : ∀ p o, S p o ↔ T p o) : Zeroed T disk disk' :=
  fun p o => ⟨fun hT => (h p o).1 ((hST p o).mpr hT), fun hT => (h p o).2 fun hS => hT ((hST p o).mp hS)⟩

/-- Two disks with the same bytes zeroed are the same. -/
theorem Zeroed.unique (h : Zeroed S disk disk') (h' : Zeroed S disk disk'') : disk' = disk'' := by
  funext p o
  by_cases hS : S p o
  · rw [(h p o).1 hS, (h' p o).1 hS]
  · rw [(h p o).2 hS, (h' p o).2 hS]

end Zero

--
-- What a punch leaves
--

section Done

variable {r : Punch} {f g : Btree.File} {disk : Disk} {l l' : List Extent} {io : Nat → Option Errno}

theorem maps_filter {b p fl : Nat} :
    (b, p, fl) ∈ ((cells l).filter fun x => !within r.delStart r.delEnd x) ↔
      Maps l b p fl ∧ ¬ r.inside b := by
  rw [List.mem_filter, mem_cells, Punch.inside_iff]
  apply and_congr_right
  intro _
  rw [Bool.not_eq_true', ← Bool.not_eq_true, within_iff]

/-- Freeing runs that are neither nodes nor data of the inode. -/
theorem freeRuns_apart {c : Content} {runs : List Extent} (h : Holds f c)
    (hOwns : Owns f c.blocks (cells c.exts)) (hData : ∀ x ∈ cells runs, f.dataStart < x.2.1)
    (hNodes : ∀ x ∈ cells runs, x.2.1 ∉ c.blocks)
    (hExts : ∀ x ∈ cells runs, ∀ y ∈ cells c.exts, y.2.1 ≠ x.2.1) :
    Holds (freeRuns f runs) c ∧ Owns (freeRuns f runs) c.blocks (cells c.exts) := by
  obtain ⟨hHealthy, -⟩ := freeRuns_isFree hData h.sound
  rw [freeRuns_eq]
  constructor
  · apply h.withAlloc hHealthy
    intro b hb
    exact freeRuns_keeps hData h.sound (h.owned b hb) fun x hx hEq => hNodes x hx (hEq ▸ hb)
  · exact ⟨fun y hy => freeRuns_keeps hData h.sound (hOwns.taken y hy)
      fun x hx hEq => hExts x hx y hy hEq.symm, hOwns.apart, hOwns.once⟩

theorem length_cells_sum : ∀ (runs : List Extent), (runs.map Extent.len).sum = (cells runs).length := by
  intro runs
  induction runs with
  | nil => rfl
  | cons e runs ih =>
    have hLen : e.cells.length = e.len := by
      unfold Extent.cells
      rw [List.length_map, List.length_range]
    rw [List.map_cons, List.sum_cons, cells_cons, List.length_append, hLen, ih]

theorem punchInline_eq (hEach : forEachExtent f = .ok l) (hSome : l ≠ []) :
    punchInline io f disk r =
      match zeroAll io (l.flatMap r.zeroes) disk with
      | (some err, disk) => some ⟨some err, f, disk, 0⟩
      | (none, disk) =>
        match rebuildExtentList levels f (l.flatMap r.kept) with
        | none => none
        | some (some err, f) => some ⟨some err, f, disk, 0⟩
        | some (none, f) => some ⟨none, freeRuns f (l.flatMap r.freedBy), disk,
            ((l.flatMap r.freedBy).map Extent.len).sum⟩ := by
  unfold punchInline
  rw [hEach]
  cases l with
  | nil => exact absurd rfl hSome
  | cons e l => rfl

/-- The cut list can be inserted again. -/
theorem kept_ready (h : Good f) (hLen : 0 < r.len) :
    (∀ x ∈ f.content.exts.flatMap r.kept, 0 < x.len ∧ x.stop < fileTop) ∧
      Distinct (cells (f.content.exts.flatMap r.kept)) ∧
      Owns f f.content.blocks (cells (f.content.exts.flatMap r.kept)) := by
  obtain ⟨hKept, -⟩ := cells_punched_all (r := r) hLen h.holds.pos
  have hSub : (cells (f.content.exts.flatMap r.kept)).Sublist (cells f.content.exts) := by
    rw [hKept]
    exact List.filter_sublist
  refine ⟨fun x hx => ?_, ?_, fun x hx => h.owns.taken x (hSub.subset hx),
    fun x hx => h.owns.apart x (hSub.subset hx), h.owns.once.sublist (hSub.map _)⟩
  · obtain ⟨e, he, hxe⟩ := List.mem_flatMap.mp hx
    obtain ⟨hPos, hEnd⟩ := kept_fits hLen (h.holds.pos e he) x hxe
    exact ⟨hPos, Nat.lt_of_le_of_lt hEnd (h.holds.stops e he)⟩
  · exact (h.holds.ordered h.noCross).distinct.sublist (hSub.map _)

theorem punchTree_eq (hSome : f.total ≠ 0) {d : Deleted} (hDelete : punchDelete f r = some d) :
    punchTree io f disk r =
      match d.ret with
      | some err => some ⟨some err, d.file, disk, d.blocksFreed⟩
      | none =>
        match zeroMapped io d.file r.boundary disk with
        | none => none
        | some (ret, disk) => some ⟨ret, d.file, disk, d.blocksFreed⟩ := by
  unfold punchTree
  rw [if_neg hSome, hDelete]
  obtain ⟨ret, file, modified, freed⟩ := d
  cases ret with
  | some err => rfl
  | none => rfl

end Done

--
-- Both representations
--

section Alike

variable {r : Punch} {f g : Btree.File} {disk : Disk} {io : Nat → Option Errno}

end Alike

/-- A well-formed inline array in blocks of its own. -/
theorem good_inline {f : Btree.File} (hFlat : f.indexed = false) (hLeaf : LeafOk 0 fileTop f.inline)
    (hEight : f.inline.length ≤ 8) (hStops : ∀ e ∈ f.inline, e.stop < fileTop)
    (hSound : f.alloc.Healthy) (hOwns : Owns f [] (cells f.inline)) : Good f := by
  have hHolds : Holds f ⟨f.inline, [], []⟩ := by
    refine ⟨fun hIdx => ?_, fun _ => ⟨rfl, hLeaf, hEight⟩, List.nodup_nil, nofun, hStops, hSound⟩
    rw [hFlat] at hIdx
    cases hIdx
  refine ⟨sound_of_content hHolds hOwns, ?_⟩
  rw [hHolds.content]
  exact fun _ _ _ hs => nomatch hs

/-- A hole over the blocks 0 to 7 * 2^20. -/
def bigHole : Punch := ⟨0, (7 * 2 ^ 20 + 1) * 4096⟩

end Briefs.File