import Briefs.Btree.Iomap
import Briefs.File.Punch

/-!
# BrieFS — the block count of an inode

`i_blocks` is 8 times the sum of the lengths of the extents. `stat`, `fallocate` and the reading of
an inode take it from the extents (`briefs_compute_i_blocks`), but the writes do not:
`briefs_iomap_begin_common` allocates blocks and leaves the count as it is. A hole punch subtracts
what it has freed, "in O(1)", as its comment says, and trusts that the count was right before.

## Results

* `punch_count` — the blocks that a punch of a tree frees are those that are missing afterwards.
* `iBlocks_exact_iff` — after a punch the count is right, and has not wrapped, exactly if the writes
  since the count was last taken have left the number of blocks alone.
* `iBlocks_wraps` — one write and one punch make it wrap.
-/

namespace Briefs.File

open Briefs.Journal
open Briefs.Btree

--
-- The code
--

/-- The sum of `briefs_sum_len_cb` over the extents. -/
def mappedBlocks (f : Btree.File) : Nat :=
  (((forEachExtent f).toOption.getD []).map Extent.len).sum

/-- `briefs_compute_i_blocks`, a `u64`. -/
def computeIBlocks (f : Btree.File) : Nat := mappedBlocks f * (4096 / 512) % 2 ^ 64

/-- The extents of an inode and `i_blocks`. -/
structure Sized where
  file    : Btree.File
  iBlocks : Nat

/-- `inode->i_blocks -= blocks_freed * (BRIEFS_BLOCK_SIZE / 512)`. -/
def lessBlocks (iBlocks blocksFreed : Nat) : Nat :=
  (iBlocks + (2 ^ 64 - blocksFreed * (4096 / 512) % 2 ^ 64)) % 2 ^ 64

/-- The inode after `briefs_do_punch_hole`. -/
def Sized.punch (s : Sized) (q : Punched) : Sized := ⟨q.file, lessBlocks s.iBlocks q.blocksFreed⟩

/-- The extents fit on a device, whose size in bytes is a `loff_t`. -/
def OnDevice (f : Btree.File) : Prop := mappedBlocks f < 2 ^ 51

/-- Sequences of calls on an inode that was read in: the inode they lead to, and by how much the
writes have changed the number of blocks since the count was taken. A write asks for the mapping of
a block (`briefs_iomap_begin_common`); `fallocate` leaves some extents. -/
inductive SizedRuns : Sized → Int → Prop
  | load (g : Btree.File) : OnDevice g → SizedRuns ⟨g, computeIBlocks g⟩ 0
  | write {s : Sized} {n : Int} {pos length : Nat} {m : Except Errno Iomap} {g : Btree.File} :
      SizedRuns s n → beginWrite s.file pos length = some (m, g) → OnDevice g →
      SizedRuns ⟨g, s.iBlocks⟩ (n + mappedBlocks g - mappedBlocks s.file)
  | fallocate {s : Sized} {n : Int} (g : Btree.File) :
      SizedRuns s n → OnDevice g → SizedRuns ⟨g, computeIBlocks g⟩ 0
  | stat {s : Sized} {n : Int} : SizedRuns s n → SizedRuns ⟨s.file, computeIBlocks s.file⟩ 0

--
-- One punch
--

section Punch

variable {f : Btree.File} {r : Punch} {disk : Disk} {io : Nat → Option Errno}

theorem mappedBlocks_eq {c : Content} (h : Holds f c) : mappedBlocks f = (cells c.exts).length := by
  unfold mappedBlocks
  rw [h.forEachExtent, ← length_cells_sum]
  rfl

/-- What a range delete frees is what it takes out of the map. -/
theorem deleteRange_count (h : Good f) (hIdx : f.indexed = true) {start stop : Nat}
    (hRange : start < stop) {d : Deleted} (hEq : deleteRange levels f start stop = some d)
    (hRet : d.ret = none) :
    Good d.file ∧ mappedBlocks d.file + d.blocksFreed = mappedBlocks f := by
  obtain ⟨d', rootEmpty, f1, w, c1, ys, gone, ms, f2, c2, hEq', hr⟩ :=
    deleteRange_run h.holds h.owns ten_le_levels hIdx hRange
  rw [hEq] at hEq'
  cases hEq'
  refine ⟨hr.good h.holds h.noCross, ?_⟩
  have hFew : w.right.length < 4 := by
    have hOne := hr.one_tail h.holds h.noCross
    rw [hr.pruned.right, List.nil_append]
    omega
  have hCount : w.blocksFreed = 0 + gone.length := (hr.pruned.freed hFew).1
  have hAfter := (hr.batch.done hRet).length_eq
  have hBefore := hr.pruned.parts.length_eq
  simp only [List.length_append] at hAfter hBefore
  rw [mappedBlocks_eq hr.settled.1, mappedBlocks_eq h.holds, hr.freed, hCount]
  omega

/-- A punch of a tree that returns 0 has freed the blocks that are missing after it. -/
theorem punch_count (h : Good f) (hIdx : f.indexed = true) {q : Punched}
    (hEq : doPunchHole io f disk r = some q) (hRet : q.ret = none) :
    mappedBlocks q.file + q.blocksFreed = mappedBlocks f := by
  unfold doPunchHole at hEq
  by_cases hMany : (2 ^ 31 - 1) / 2 < f.total
  · rw [if_pos hMany] at hEq
    cases hEq
    cases hRet
  rw [if_neg hMany, if_pos hIdx] at hEq
  by_cases hNone : f.total = 0
  · unfold punchTree at hEq
    rw [if_pos hNone] at hEq
    cases hEq
    rfl
  cases hDelete : punchDelete f r with
  | none =>
    unfold punchTree at hEq
    rw [if_neg hNone, hDelete] at hEq
    cases hEq
  | some d =>
    rw [punchTree_eq hNone hDelete] at hEq
    cases hCode : d.ret with
    | some err =>
      rw [hCode] at hEq
      cases hEq
      cases hRet
    | none =>
      rw [hCode] at hEq
      dsimp only at hEq
      have hExact : mappedBlocks d.file + d.blocksFreed = mappedBlocks f := by
        unfold punchDelete at hDelete
        split at hDelete
        · rename_i hRange
          exact (deleteRange_count h hIdx hRange hDelete hCode).2
        · cases hDelete
          rfl
      split at hEq
      · cases hEq
      · cases hEq
        exact hExact

end Punch

--
-- All calls
--

theorem computeIBlocks_eq {f : Btree.File} (h : OnDevice f) :
    computeIBlocks f = mappedBlocks f * 8 := by
  unfold OnDevice at h
  unfold computeIBlocks
  omega

/-- The count is that of the extents when it was taken. -/
theorem SizedRuns.iBlocks {s : Sized} {n : Int} (h : SizedRuns s n) :
    OnDevice s.file ∧ s.iBlocks < 2 ^ 64 ∧
      (s.iBlocks : Int) = (mappedBlocks s.file - n) * 8 := by
  have hTaken : ∀ g : Btree.File, OnDevice g →
      computeIBlocks g < 2 ^ 64 ∧ (computeIBlocks g : Int) = (mappedBlocks g - 0) * 8 := by
    intro g hg
    refine ⟨Nat.mod_lt _ (Nat.two_pow_pos 64), ?_⟩
    rw [computeIBlocks_eq hg]
    omega
  induction h with
  | load g hg => exact ⟨hg, hTaken g hg⟩
  | @write s n pos length m g _ _ hg ih =>
    refine ⟨hg, ih.2.1, ?_⟩
    have hOld := ih.2.2
    show (s.iBlocks : Int) = (mappedBlocks g - (n + mappedBlocks g - mappedBlocks s.file)) * 8
    omega
  | fallocate g _ hg _ => exact ⟨hg, hTaken g hg⟩
  | stat _ ih => exact ⟨ih.1, hTaken _ ih.1⟩

/-- After every sequence of writes, fallocates and stats and a punch of a file with a tree that
returns 0: the count is that of the extents, and the subtraction has not wrapped, exactly if the
writes since the count was last taken have left the number of blocks as it was. -/
theorem iBlocks_exact_iff {s : Sized} {n : Int} (hRuns : SizedRuns s n) (hGood : Good s.file)
    (hIdx : s.file.indexed = true) {io : Nat → Option Errno} {disk : Disk} {r : Punch} {q : Punched}
    (hEq : doPunchHole io s.file disk r = some q) (hRet : q.ret = none) :
    ((s.punch q).iBlocks = computeIBlocks (s.punch q).file ∧ q.blocksFreed * 8 ≤ s.iBlocks) ↔
      n = 0 := by
  obtain ⟨hFits, hWord, hTaken⟩ := hRuns.iBlocks
  have hCount := punch_count hGood hIdx hEq hRet
  have hAfter : OnDevice q.file := by
    unfold OnDevice at hFits ⊢
    omega
  have hLess : (s.punch q).iBlocks = (s.iBlocks + (2 ^ 64 - q.blocksFreed * 8 % 2 ^ 64)) % 2 ^ 64 :=
    rfl
  have hNow : computeIBlocks (s.punch q).file = mappedBlocks q.file * 8 := computeIBlocks_eq hAfter
  unfold OnDevice at hFits
  rw [hLess, hNow]
  constructor
  · rintro ⟨hRight, hRoom⟩
    have hWhole : s.iBlocks = mappedBlocks q.file * 8 + q.blocksFreed * 8 := by
      omega
    omega
  · rintro rfl
    have hWhole : s.iBlocks = mappedBlocks q.file * 8 + q.blocksFreed * 8 := by
      omega
    refine ⟨?_, by omega⟩
    omega

/-- The sparse tree with its eight blocks is read in, its status is asked for, and its first seven
blocks are punched out. -/
theorem iBlocks_exact_stat :
    SizedRuns ⟨sparseFile, computeIBlocks sparseFile⟩ 0 ∧ Good sparseFile ∧
      sparseFile.indexed = true ∧
      ∃ q, doPunchHole (fun _ => none) sparseFile (fun _ _ => 1#8) bigHole = some q ∧
        q.ret = none ∧
        (Sized.punch ⟨sparseFile, computeIBlocks sparseFile⟩ q).iBlocks = computeIBlocks q.file := by
  have hBlocks : OnDevice sparseFile := by
    unfold OnDevice
    rw [mappedBlocks_eq sparseFile_holds]
    decide
  have hRuns : SizedRuns ⟨sparseFile, computeIBlocks sparseFile⟩ 0 :=
    (SizedRuns.load sparseFile hBlocks).stat
  have hPunch : ∃ q, doPunchHole (fun _ => none) sparseFile (fun _ _ => 1#8) bigHole = some q ∧
      q.ret = none := ⟨_, rfl, rfl⟩
  obtain ⟨q, hEq, hRet⟩ := hPunch
  exact ⟨hRuns, sparseFile_good, rfl, q, hEq, hRet,
    ((iBlocks_exact_iff hRuns sparseFile_good rfl hEq hRet).mpr rfl).1⟩

/-- The sparse tree is read in, a write allocates two blocks, and a punch over all of them frees
the ten blocks: the count of 64 wraps, and no block is left. -/
theorem iBlocks_wraps :
    ∃ s n q, SizedRuns s n ∧ s.iBlocks = 64 ∧ s.file.indexed = true ∧
      doPunchHole (fun _ => none) s.file (fun _ _ => 1#8) bigHole = some q ∧ q.ret = none ∧
      q.blocksFreed = 10 ∧ computeIBlocks (s.punch q).file = 0 ∧
      (s.punch q).iBlocks = 2 ^ 64 - 16 := by
  have hBlocks : OnDevice sparseFile := by
    unfold OnDevice
    rw [mappedBlocks_eq sparseFile_holds]
    decide
  have hWrite : ∃ m g, beginWrite sparseFile (5 * 4096) (2 * 4096) = some (m, g) ∧
      g.indexed = true ∧ mappedBlocks g = 10 ∧
      ∃ q, doPunchHole (fun _ => none) g (fun _ _ => 1#8) bigHole = some q ∧ q.ret = none ∧
        q.blocksFreed = 10 ∧ computeIBlocks q.file = 0 :=
    ⟨_, _, rfl, rfl, rfl, _, rfl, rfl, rfl, rfl⟩
  obtain ⟨m, g, hBegin, hIdx, hTen, q, hPunch, hRet, hFreed, hLeft⟩ := hWrite
  have hDevice : OnDevice g := by
    unfold OnDevice
    omega
  have hCount : computeIBlocks sparseFile = 64 := by
    rw [computeIBlocks_eq hBlocks, mappedBlocks_eq sparseFile_holds]
    decide
  refine ⟨_, _, q, (SizedRuns.load sparseFile hBlocks).write hBegin hDevice, hCount, hIdx, hPunch,
    hRet, hFreed, hLeft, ?_⟩
  show lessBlocks (computeIBlocks sparseFile) q.blocksFreed = _
  rw [hCount, hFreed]
  rfl

end Briefs.File
