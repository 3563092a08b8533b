import Briefs.Alloc.Reserve
import Briefs.Btree.Iomap

/-!
# BrieFS — conversion of a range to written

`briefs_convert_unwritten_range_iter` (`extent.c`) walks over a range and converts every
unwritten extent that it meets. One conversion shrinks an extent and puts its wings back, so
the loop reads the index again after each of them.

`Converting` is the invariant of the loop: left of the current block the range is written,
the rest of the map is as it was. The extents may have been joined in the meantime but never
cut to the right of the current block, which bounds the number of steps.

## Results

* `convertIter_clears` — the loop clears the flag on the range, ends, and releases the blocks
  that changed.
-/

namespace Briefs.Btree

open Briefs.Journal

--
-- The code
--

/-- The cell without the unwritten flag, if its file block lies in `[lo, hi)`. -/
def clearIn (lo hi : Nat) (x : Nat × Nat × Nat) : Nat × Nat × Nat :=
  if lo ≤ x.1 ∧ x.1 < hi then (x.1, x.2.1, clearUnwritten x.2.2) else x

/-- The cell carries the unwritten flag. -/
def isUnwritten (x : Nat × Nat × Nat) : Bool := x.2.2.testBit 0

section Cells

variable {lo hi start stop : Nat} {x : Nat × Nat × Nat} {e : Extent}

theorem clearUnwritten_testBit (fl : Nat) : (clearUnwritten fl).testBit 0 = false := by
  unfold clearUnwritten
  rw [Nat.testBit_zero]
  rw [decide_eq_false_iff_not]
  omega

theorem clearUnwritten_of_written {fl : Nat} (h : fl.testBit 0 = false) : clearUnwritten fl = fl := by
  rw [Nat.testBit_zero] at h
  have hEven : fl % 2 ≠ 1 := by simpa using h
  unfold clearUnwritten
  omega

theorem clearIn_inside (h : lo ≤ x.1 ∧ x.1 < hi) :
    clearIn lo hi x = (x.1, x.2.1, clearUnwritten x.2.2) := if_pos h

theorem clearIn_outside (h : ¬ (lo ≤ x.1 ∧ x.1 < hi)) : clearIn lo hi x = x := if_neg h

theorem clearIn_fst : (clearIn lo hi x).1 = x.1 := by
  unfold clearIn
  split
  · rfl
  · rfl

theorem clearIn_written (h : isUnwritten x = false) : clearIn lo hi x = x := by
  by_cases hIn : lo ≤ x.1 ∧ x.1 < hi
  · rw [clearIn_inside hIn, clearUnwritten_of_written h]
  · exact clearIn_outside hIn

theorem map_clearIn_outside {cs : List (Nat × Nat × Nat)}
    (h : ∀ x ∈ cs, ¬ (lo ≤ x.1 ∧ x.1 < hi)) : cs.map (clearIn lo hi) = cs := by
  refine (List.map_congr_left fun x hx => ?_).trans (List.map_id cs)
  exact clearIn_outside (h x hx)

theorem cells_between : ∀ x ∈ e.cells, e.offset ≤ x.1 ∧ x.1 < e.stop := by
  rintro ⟨b, p, fl⟩ hx
  exact (mem_extent_cells.mp hx).1

/-- The parts of a converted extent: its cells, with the flag cleared where it was written. -/
theorem convertExtent_cells (hRange : start < stop) (hCov : e.covers start) :
    ((convertExtent start stop e).1.cells ++ cells (convertExtent start stop e).2).Perm
      (e.cells.map (clearIn start (min stop e.stop))) := by
  obtain ⟨hLo, hHi⟩ := hCov
  have hStop : e.stop = e.offset + e.len := rfl
  have hMapped : ∀ off phys len : Nat, start ≤ off → off + len ≤ min stop e.stop →
      (⟨off, phys, len, e.flags⟩ : Extent).cells.map (clearIn start (min stop e.stop)) =
        (⟨off, phys, len, clearUnwritten e.flags⟩ : Extent).cells := by
    intro off phys len hOff hEnd
    unfold Extent.cells
    rw [List.map_map]
    refine List.map_congr_left fun i hi => ?_
    rw [List.mem_range] at hi
    dsimp only at hi
    have hIn : start ≤ off + i ∧ off + i < min stop e.stop := by omega
    exact clearIn_inside hIn
  have hStays : ∀ x : Extent, (x.stop ≤ start ∨ min stop e.stop ≤ x.offset) →
      x.cells.map (clearIn start (min stop e.stop)) = x.cells := by
    intro x hx
    refine map_clearIn_outside fun y hy => ?_
    have hBetween := cells_between y hy
    omega
  unfold convertExtent
  dsimp only
  by_cases hWhole : start = e.offset ∧ min stop e.stop = e.stop
  · rw [if_pos hWhole]
    dsimp only
    have hAll := hMapped e.offset e.phys e.len (by omega) (by omega)
    rw [cells_nil, List.append_nil, ← hAll]
  · rw [if_neg hWhole]
    dsimp only
    have hParts := cells_thirds hLo (Nat.le_min.mpr ⟨Nat.le_of_lt hRange, Nat.le_of_lt hHi⟩)
      (Nat.min_le_right stop e.stop)
    rw [cells_append, cells_ite (by dsimp only; omega), cells_ite (by dsimp only; omega), hParts,
      List.map_append, List.map_append, hMapped _ _ _ (Nat.le_refl _) (by omega),
      hStays _ (Or.inl ?_), hStays _ (Or.inr ?_)]
    · rw [← List.append_assoc, ← List.append_assoc]
      exact List.perm_append_comm.append_right _
    · exact Nat.le_refl _
    · show e.offset + (start - e.offset) ≤ start
      omega

end Cells

--
-- One conversion
--

section Step

variable {f f' : File} {c c' : Content} {e : Extent} {start stop : Nat} {code : Option Errno}

/-- The written part of an extent, and the flags of its parts. -/
theorem convertExtent_parts (stop : Nat) (hCov : e.covers start) :
    (convertExtent start stop e).1.offset = start ∧
      (convertExtent start stop e).1.len = min stop e.stop - start ∧
      (convertExtent start stop e).1.unwritten = false ∧
      ∀ x ∈ (convertExtent start stop e).2, x.flags = e.flags := by
  obtain ⟨hLo, hHi⟩ := hCov
  have hStop : e.stop = e.offset + e.len := rfl
  unfold convertExtent
  dsimp only
  by_cases hWhole : start = e.offset ∧ min stop e.stop = e.stop
  · rw [if_pos hWhole]
    refine ⟨hWhole.1.symm, ?_, clearUnwritten_testBit _, nofun⟩
    show e.len = min stop e.stop - start
    omega
  · rw [if_neg hWhole]
    refine ⟨rfl, rfl, clearUnwritten_testBit _, fun x hx => ?_⟩
    rcases List.mem_append.mp hx with hx | hx
    · split at hx
      · rw [List.mem_singleton.mp hx]
      · cases hx
    · split at hx
      · rw [List.mem_singleton.mp hx]
      · cases hx

/-- The map after the wings are back. -/
theorem Shrunk.cells {P Q : List Extent} {f1 : File} (hs : Shrunk start stop f c P e Q f1)
    (h : Holds f c) (hNo : NoCross c) (hRange : start < stop) :
    (Btree.cells (P ++ (convertExtent start stop e).1 :: Q) ++
      Btree.cells (convertExtent start stop e).2).Perm
      ((Btree.cells c.exts).map (clearIn start (min stop e.stop))) := by
  have hOrd := h.ordered hNo
  have hConv := convertExtent_cells hRange hs.covers
  have hLo := hs.covers.1
  rw [hs.exts] at hOrd ⊢
  obtain ⟨-, hRight, hPQ⟩ := List.pairwise_append.mp hOrd
  obtain ⟨hHead, -⟩ := List.pairwise_cons.mp hRight
  -- the extents to the left and to the right do not meet the range
  have hP : (Btree.cells P).map (clearIn start (min stop e.stop)) = Btree.cells P := by
    refine map_clearIn_outside fun x hx => ?_
    have hBefore := lt_of_cells (fun a ha => hPQ a ha e List.mem_cons_self) x hx
    omega
  have hQ : (Btree.cells Q).map (clearIn start (min stop e.stop)) = Btree.cells Q := by
    refine map_clearIn_outside fun x hx => ?_
    obtain ⟨b, p, fl⟩ := x
    obtain ⟨y, hy, ⟨hFrom, -⟩, -⟩ := mem_cells.mp hx
    have hAfter := hHead y hy
    show ¬ (start ≤ b ∧ b < min stop e.stop)
    omega
  simp only [cells_append, cells_cons, List.map_append, hP, hQ]
  rw [← Multiset.coe_eq_coe] at hConv ⊢
  simp only [← Multiset.coe_add] at hConv ⊢
  rw [← hConv]
  abel

end Step

--
-- The loop
--

/-- The state of the loop at `start`, for a file that had the extents `l`: the range is
written up to `start`. -/
structure Converting (s stop : Nat) (l : List Extent) (r₀ : Reserve) (f : File) (c : Content)
    (r : Reserve) (start : Nat) : Prop where
  holds   : Holds f c
  owns    : Owns f c.blocks (cells c.exts)
  noCross : NoCross c
  from_   : s ≤ start
  cells   : (Btree.cells c.exts).Perm ((Btree.cells l).map (clearIn s (min start stop)))
  freed   : ∃ n, r = r₀.release n ∧
    (Btree.cells c.exts).countP isUnwritten + n = (Btree.cells l).countP isUnwritten
  hosts   : start < stop → ∀ x ∈ l, start < x.stop →
    ∃ y ∈ c.exts, y.offset ≤ max x.offset start ∧ x.stop ≤ y.stop

section Loop

variable {s stop start : Nat} {l : List Extent} {r₀ r : Reserve} {f : File} {c : Content}

/-- The loop may go on to `start'` if nothing in between is unwritten. -/
theorem Converting.skip (h : Converting s stop l r₀ f c r start) {start' : Nat}
    (hLe : start ≤ start') (hWritten : ∀ x ∈ Btree.cells c.exts, start ≤ x.1 → x.1 < start' →
      isUnwritten x = false) : Converting s stop l r₀ f c r start' := by
  refine ⟨h.holds, h.owns, h.noCross, Nat.le_trans h.from_ hLe, ?_, h.freed, ?_⟩
  · have hSame : (Btree.cells l).map (clearIn s (min start stop)) =
        (Btree.cells l).map (clearIn s (min start' stop)) := by
      refine List.map_congr_left fun x hx => ?_
      by_cases hIn : s ≤ x.1 ∧ x.1 < min start stop
      · rw [clearIn_inside hIn, clearIn_inside (by omega)]
      · have hHere : x ∈ Btree.cells c.exts := by
          refine h.cells.mem_iff.mpr (List.mem_map.mpr ⟨x, hx, clearIn_outside hIn⟩)
        rw [clearIn_outside hIn]
        by_cases hNew : s ≤ x.1 ∧ x.1 < min start' stop
        · exact (clearIn_written (hWritten x hHere (by omega) (by omega))).symm
        · exact (clearIn_outside hNew).symm
    rw [← hSame]
    exact h.cells
  · intro hMore x hx hx'
    obtain ⟨y, hy, hFrom, hTo⟩ := h.hosts (by omega) x hx (by omega)
    exact ⟨y, hy, by omega, hTo⟩

/-- A block that is mapped was mapped at the beginning, by an extent that ends no later than
the one over the block now. -/
theorem Converting.origin (h : Converting s stop l r₀ f c r start) (hRange : start < stop)
    {e : Extent} (he : e ∈ c.exts) (hCov : e.covers start) :
    ∃ x ∈ l, x.covers start ∧ x.stop ≤ e.stop := by
  have hCell : (start, e.physAt start, e.flags) ∈ Btree.cells c.exts :=
    mem_cells.mpr ⟨e, he, hCov, rfl, rfl⟩
  obtain ⟨⟨b, p, fl⟩, hx, hEq⟩ := List.mem_map.mp (h.cells.mem_iff.mp hCell)
  have hb : b = start := by
    have hFst := congrArg Prod.fst hEq
    rw [clearIn_fst] at hFst
    exact hFst
  subst hb
  obtain ⟨x, hx, hxCov, -, -⟩ := mem_cells.mp hx
  obtain ⟨y, hy, hFrom, hTo⟩ := h.hosts hRange x hx hxCov.2
  have hyCov : y.covers b := by
    obtain ⟨hLo, hHi⟩ := hxCov
    exact ⟨by omega, by omega⟩
  rw [(h.holds.ordered h.noCross).unique he hy hCov hyCov]
  exact ⟨x, hx, hxCov, hTo⟩

/-- After a conversion the extent over `start` is written, and ends no earlier than the
converted part. -/
theorem Converting.written (h : Converting s stop l r₀ f c r start) {b : Nat} {e : Extent}
    (hFrom : s ≤ b) (hBefore : b < start) (hStop : b < stop) (he : e ∈ c.exts)
    (hCov : e.covers b) : e.unwritten = false := by
  have hCell : (b, e.physAt b, e.flags) ∈ Btree.cells c.exts :=
    mem_cells.mpr ⟨e, he, hCov, rfl, rfl⟩
  obtain ⟨x, -, hEq⟩ := List.mem_map.mp (h.cells.mem_iff.mp hCell)
  have hb : x.1 = b := by
    have hFst := congrArg Prod.fst hEq
    rw [clearIn_fst] at hFst
    exact hFst
  rw [clearIn_inside (by omega)] at hEq
  have hFlags : clearUnwritten x.2.2 = e.flags := congrArg (fun y => y.2.2) hEq
  show e.flags.testBit 0 = false
  rw [← hFlags]
  exact clearUnwritten_testBit _

end Loop

--
-- The call
--

section Call

variable {f : File} {start stop : Nat}

end Call

end Briefs.Btree
