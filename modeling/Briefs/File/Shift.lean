import Briefs.Btree.Frame
import Briefs.Btree.Iomap
import Briefs.File.Emit

/-!
# BrieFS — collapse and insert range

`briefs_shift_extents` (`file.c`) rewrites the extent list for `FALLOC_FL_COLLAPSE_RANGE`
and `FALLOC_FL_INSERT_RANGE`: it collects the extents, cuts those that reach over the ends
of the range, moves what comes after it, frees what a collapse removes, and rebuilds the
index from the new list.

One round of the loop is described by its cells: those that stay, moved, and those that are
freed. The map of the file afterwards is read off from that.

## Results

* `cells_kept`, `cells_dropped` — the cells that one extent leaves, and those it gives up.
* `shift_moves_map` — a shift that returns 0 moves the map exactly.
-/

namespace Briefs.File

open Briefs.Journal
open Briefs.Btree

--
-- The code
--

/-- The parameter `dir`: −1 and +1. -/
inductive Shift where
  | collapse
  | insert
deriving DecidableEq, Repr

/-- One round of the loop: the new entries for an extent. -/
def Shift.kept (S L : Nat) (e : Extent) : Shift → List Extent
  | .collapse =>
    if e.stop ≤ S then [e]
    else if S + L ≤ e.offset then [{ e with offset := e.offset - L }]
    else if S ≤ e.offset ∧ e.stop ≤ S + L then []
    else
      (if e.offset < S then [e.head S] else []) ++
        if S + L < e.stop then
          [{ e with offset := S, phys := e.phys + (S + L - e.offset), len := e.stop - (S + L) }]
        else []
  | .insert =>
    if e.stop ≤ S then [e]
    else if S ≤ e.offset then [{ e with offset := e.offset + L }]
    else [e.head S,
      { e with offset := S + L, phys := e.phys + (S - e.offset), len := e.stop - S }]

/-- The part of the extent that the round frees. -/
def Shift.dropped (S L : Nat) (e : Extent) : Shift → List Extent
  | .collapse =>
    if e.stop ≤ S then []
    else if S + L ≤ e.offset then []
    else if S ≤ e.offset ∧ e.stop ≤ S + L then [e]
    else if max e.offset S < min e.stop (S + L) then [e.middle S (S + L)]
    else []
  | .insert => []

/-- The calls of `briefs_free_blocks_range`, one after the other. -/
def freeRuns (f : Btree.File) (runs : List Extent) : Btree.File :=
  runs.foldl (fun f e => f.freeData e.phys e.len) f

/-- The number of unwritten blocks in a list of runs. -/
def unwrittenIn (runs : List Extent) : Nat :=
  (runs.map fun e => if e.unwritten then e.len else 0).sum

/-- The outcome of `briefs_shift_extents`: the temporary list `new` and the runs that were
freed, beside the state. -/
structure Shifted where
  ret            : Option Errno
  file           : Btree.File
  new            : List Extent
  freed          : List Extent
  unwrittenFreed : Nat

/-- `briefs_shift_extents`. -/
def shiftExtents (f : Btree.File) (S L : Nat) (dir : Shift) : Option Shifted :=
  match forEachExtent f with
  | .error err => some ⟨some err, f, [], [], 0⟩
  | .ok [] => some ⟨none, f, [], [], 0⟩
  | .ok old =>
    let new := old.flatMap fun e => dir.kept S L e
    let freed := old.flatMap fun e => dir.dropped S L e
    (rebuildExtentList levels (freeRuns f freed) new).map fun r =>
      ⟨r.1, r.2, new, freed, unwrittenIn freed⟩

--
-- One round
--

/-- The file block stays. -/
def Shift.stays (S L b : Nat) : Shift → Bool
  | .collapse => !(decide (S ≤ b) && decide (b < S + L))
  | .insert => true

/-- Where a file block that stays goes. -/
def Shift.target (S L b : Nat) : Shift → Nat
  | .collapse => if b < S then b else b - L
  | .insert => if b < S then b else b + L

/-- A cell at its new place. -/
def Shift.place (S L : Nat) (dir : Shift) (x : Nat × Nat × Nat) : Nat × Nat × Nat :=
  (dir.target S L x.1, x.2)

section Round

variable {S L : Nat} {e : Extent} {dir : Shift}

/-- An extent at another offset. -/
theorem cells_moved {x : Extent} {off : Nat} {g : Nat × Nat × Nat → Nat × Nat × Nat}
    (h : ∀ i < x.len, g (x.offset + i, x.phys + i, x.flags) = (off + i, x.phys + i, x.flags)) :
    ({ x with offset := off } : Extent).cells = x.cells.map g := by
  unfold Extent.cells
  rw [List.map_map]
  apply List.map_congr_left
  intro i hi
  exact (h i (List.mem_range.mp hi)).symm

theorem filter_stays_all (h : ∀ b, e.covers b → dir.stays S L b = true) :
    e.cells.filter (fun x => dir.stays S L x.1) = e.cells := by
  rw [List.filter_eq_self]
  rintro ⟨b, p, fl⟩ hx
  exact h b (mem_extent_cells.mp hx).1

theorem filter_stays_none (h : ∀ b, e.covers b → dir.stays S L b = false) :
    e.cells.filter (fun x => dir.stays S L x.1) = [] := by
  rw [List.filter_eq_nil_iff]
  rintro ⟨b, p, fl⟩ hx hIn
  have hOut := h b (mem_extent_cells.mp hx).1
  rw [hOut] at hIn
  cases hIn

theorem stays_collapse {b : Nat} :
    Shift.stays S L b .collapse = true ↔ b < S ∨ S + L ≤ b := by
  unfold Shift.stays
  simp only [Bool.not_eq_true', Bool.and_eq_false_iff, decide_eq_false_iff_not]
  omega

theorem not_stays_collapse {b : Nat} :
    Shift.stays S L b .collapse = false ↔ S ≤ b ∧ b < S + L := by
  rw [← Bool.not_eq_true, stays_collapse]
  omega

/-- The cells of an extent that a shift leaves, at their new places. -/
theorem cells_kept (hL : 0 < L) : cells (dir.kept S L e) =
    (e.cells.filter fun x => dir.stays S L x.1).map (dir.place S L) := by
  have hStop : e.stop = e.offset + e.len := rfl
  cases dir with
  | insert =>
    rw [filter_stays_all (fun _ _ => rfl)]
    unfold Shift.kept
    dsimp only
    by_cases hBefore : e.stop ≤ S
    · rw [if_pos hBefore, cells_cons, cells_nil, List.append_nil]
      apply cells_moved (x := e)
      intro i hi
      have hLow : e.offset + i < S := by omega
      unfold Shift.place Shift.target
      dsimp only
      rw [if_pos hLow]
    rw [if_neg hBefore]
    by_cases hAfter : S ≤ e.offset
    · rw [if_pos hAfter, cells_cons, cells_nil, List.append_nil]
      apply cells_moved (x := e)
      intro i hi
      have hHigh : ¬ e.offset + i < S := by omega
      unfold Shift.place Shift.target
      dsimp only
      rw [if_neg hHigh, Nat.add_right_comm]
    · -- the extent reaches over `S`
      rw [if_neg hAfter, cells_cons, cells_cons, cells_nil, List.append_nil]
      have hParts : e.len = (S - e.offset) + (e.stop - S) := by omega
      rw [cells_split hParts, List.map_append]
      congr 1
      · apply cells_moved (x := e.head S)
        intro i hi
        have hi' : i < S - e.offset := hi
        have hLow : e.offset + i < S := by omega
        unfold Shift.place Shift.target Extent.head
        dsimp only
        rw [if_pos hLow]
      · apply cells_moved
          (x := ⟨e.offset + (S - e.offset), e.phys + (S - e.offset), e.stop - S, e.flags⟩)
        intro i hi
        have hHigh : ¬ e.offset + (S - e.offset) + i < S := by omega
        unfold Shift.place Shift.target
        dsimp only
        rw [if_neg hHigh]
        simp only [Prod.mk.injEq, and_true]
        omega
  | collapse =>
    unfold Shift.kept
    dsimp only
    by_cases hBefore : e.stop ≤ S
    · rw [if_pos hBefore, cells_cons, cells_nil, List.append_nil, filter_stays_all]
      · apply cells_moved (x := e)
        intro i hi
        have hLow : e.offset + i < S := by omega
        unfold Shift.place Shift.target
        dsimp only
        rw [if_pos hLow]
      · rintro b ⟨-, hb⟩
        exact stays_collapse.mpr (by omega)
    rw [if_neg hBefore]
    by_cases hAfter : S + L ≤ e.offset
    · rw [if_pos hAfter, cells_cons, cells_nil, List.append_nil, filter_stays_all]
      · apply cells_moved (x := e)
        intro i hi
        have hHigh : ¬ e.offset + i < S := by omega
        unfold Shift.place Shift.target
        dsimp only
        rw [if_neg hHigh]
        simp only [Prod.mk.injEq, and_true]
        omega
      · rintro b ⟨hb, -⟩
        exact stays_collapse.mpr (by omega)
    rw [if_neg hAfter]
    by_cases hInside : S ≤ e.offset ∧ e.stop ≤ S + L
    · rw [if_pos hInside, filter_stays_none]
      · rfl
      · rintro b ⟨hb, hb'⟩
        exact not_stays_collapse.mpr (by omega)
    · have hRange : S < S + L := by omega
      have hReach : S < e.stop := by omega
      rw [if_neg hInside, cells_append, cells_parts hRange hReach (by omega)]
      simp only [List.filter_append, List.map_append]
      have hMiddle : ((e.middle S (S + L)).cells.filter
          fun x => Shift.stays S L x.1 .collapse) = [] := by
        apply filter_stays_none
        rintro b ⟨hb, hb'⟩
        have hLo : max e.offset S ≤ b := hb
        have hHi : b < max e.offset S + (min e.stop (S + L) - max e.offset S) := hb'
        exact not_stays_collapse.mpr (by omega)
      rw [hMiddle, List.map_nil, List.nil_append]
      congr 1
      · by_cases hHead : e.offset < S
        · rw [if_pos hHead, cells_cons, cells_nil, List.append_nil, filter_stays_all]
          · apply cells_moved (x := e.head S)
            intro i hi
            have hi' : i < S - e.offset := hi
            have hLow : e.offset + i < S := by omega
            unfold Shift.place Shift.target Extent.head
            dsimp only
            rw [if_pos hLow]
          · rintro b ⟨hb, hb'⟩
            have hHi : b < e.offset + (S - e.offset) := hb'
            exact stays_collapse.mpr (by omega)
        · rw [if_neg hHead]
          rfl
      · by_cases hTail : S + L < e.stop
        · rw [if_pos hTail, if_pos hTail, cells_cons, cells_nil, List.append_nil, filter_stays_all]
          · apply cells_moved (x := e.tail (S + L))
            intro i hi
            have hHigh : ¬ S + L + i < S := by omega
            unfold Shift.place Shift.target Extent.tail
            dsimp only
            rw [if_neg hHigh]
            simp only [Prod.mk.injEq, and_true]
            omega
          · rintro b ⟨hb, -⟩
            have hLo : S + L ≤ b := hb
            exact stays_collapse.mpr (by omega)
        · rw [if_neg hTail, if_neg hTail]
          rfl

/-- The cells of an extent that a shift frees. -/
theorem cells_dropped : cells (dir.dropped S L e) =
    e.cells.filter fun x => !dir.stays S L x.1 := by
  have hStop : e.stop = e.offset + e.len := rfl
  cases dir with
  | insert =>
    symm
    rw [show cells (Shift.dropped S L e .insert) = [] from rfl, List.filter_eq_nil_iff]
    intro x _ hIn
    cases hIn
  | collapse =>
    have hRange : (fun x : Nat × Nat × Nat => !Shift.stays S L x.1 .collapse) =
        inRange S (S + L) := by
      funext x
      unfold Shift.stays inRange
      rw [Bool.not_not]
    rw [hRange]
    unfold Shift.dropped
    dsimp only
    by_cases hBefore : e.stop ≤ S
    · rw [if_pos hBefore, filter_cells_none]
      · rfl
      · rintro b ⟨-, hb⟩
        omega
    rw [if_neg hBefore]
    by_cases hAfter : S + L ≤ e.offset
    · rw [if_pos hAfter, filter_cells_none]
      · rfl
      · rintro b ⟨hb, -⟩
        omega
    rw [if_neg hAfter]
    by_cases hInside : S ≤ e.offset ∧ e.stop ≤ S + L
    · rw [if_pos hInside, cells_cons, cells_nil, List.append_nil, filter_cells_all]
      rintro b ⟨hb, hb'⟩
      omega
    · rw [if_neg hInside, filter_cells_clip]
      by_cases hSome : max e.offset S < min e.stop (S + L)
      · rw [if_pos hSome, cells_cons, cells_nil, List.append_nil,
          filter_cells (by omega) (by omega) (by omega)]
        rfl
      · rw [if_neg hSome, filter_cells_none]
        · rfl
        · intro b _
          omega

theorem kept_pos (hPos : 0 < e.len) : ∀ x ∈ dir.kept S L e, 0 < x.len := by
  have hStop : e.stop = e.offset + e.len := rfl
  cases dir with
  | insert =>
    unfold Shift.kept
    dsimp only
    split
    · simpa using hPos
    · split
      · simpa using hPos
      · intro x hx
        rcases List.mem_cons.mp hx with rfl | hx
        · show 0 < S - e.offset
          omega
        · rw [List.mem_singleton.mp hx]
          show 0 < e.stop - S
          omega
  | collapse =>
    unfold Shift.kept
    dsimp only
    split
    · simpa using hPos
    · split
      · simpa using hPos
      · split
        · exact nofun
        · intro x hx
          rcases List.mem_append.mp hx with hx | hx
          · split at hx
            · rw [List.mem_singleton.mp hx]
              show 0 < S - e.offset
              omega
            · cases hx
          · split at hx
            · rw [List.mem_singleton.mp hx]
              show 0 < e.stop - (S + L)
              omega
            · cases hx

/-- Every extent leaves at most two entries, so that the list of `2 * old_n` suffices. -/
theorem length_kept_le : (dir.kept S L e).length ≤ 2 := by
  cases dir with
  | insert =>
    unfold Shift.kept
    dsimp only
    split
    · exact Nat.le_succ 1
    · split
      · exact Nat.le_succ 1
      · exact Nat.le_refl 2
  | collapse =>
    unfold Shift.kept
    dsimp only
    split
    · exact Nat.le_succ 1
    · split
      · exact Nat.le_succ 1
      · split
        · exact Nat.zero_le 2
        · rw [List.length_append]
          split <;> split <;> simp

end Round

--
-- Freeing the runs
--

section FreeRuns

variable {f : Btree.File} {runs : List Extent}

/-- Freeing changes the allocator only. -/
theorem freeRuns_eq : ∀ (runs : List Extent) (f : Btree.File),
    freeRuns f runs = { f with alloc := (freeRuns f runs).alloc } := by
  intro runs
  induction runs with
  | nil => exact fun _ => rfl
  | cons e runs ih =>
    intro f
    show freeRuns (f.freeData e.phys e.len) runs = _
    rw [ih]
    rfl

/-- After the calls exactly their blocks are free besides those that were. -/
theorem freeRuns_isFree : ∀ {runs : List Extent} {f : Btree.File},
    (∀ x ∈ cells runs, f.dataStart < x.2.1) → f.alloc.Healthy →
    (freeRuns f runs).alloc.Healthy ∧
      ∀ rel, (freeRuns f runs).alloc.isFree rel = true ↔ f.alloc.isFree rel = true ∨
        rel < f.alloc.blockCount ∧ ∃ x ∈ cells runs, x.2.1 = f.dataStart + rel := by
  intro runs
  induction runs with
  | nil =>
    intro f _ hHealthy
    refine ⟨hHealthy, fun rel => ?_⟩
    show f.alloc.isFree rel = true ↔ _
    simp
  | cons e runs ih =>
    intro f hData hHealthy
    rw [cells_cons] at hData ⊢
    have hHere : ∀ x ∈ e.cells, f.dataStart < x.2.1 :=
      fun x hx => hData x (List.mem_append_left _ hx)
    have hRest : ∀ x ∈ cells runs, (f.freeData e.phys e.len).dataStart < x.2.1 :=
      fun x hx => hData x (List.mem_append_right _ hx)
    -- a call for an empty run does nothing
    have hSound : (f.freeData e.phys e.len).alloc.Healthy := by
      by_cases hNone : e.len = 0
      · rw [hNone]
        show (f.alloc.freeBlocks (e.phys - f.dataStart) 0).Healthy
        unfold Alloc.freeBlocks
        rw [if_pos (Or.inl rfl)]
        exact hHealthy
      · have hFirst : (e.offset, e.phys, e.flags) ∈ e.cells :=
          mem_extent_cells.mpr ⟨⟨Nat.le_refl _, by unfold Extent.stop; omega⟩,
            by unfold Extent.physAt; omega, rfl⟩
        exact (freeData_sound (hHere _ hFirst) hHealthy).1
    obtain ⟨hDone, hFree⟩ := ih hRest hSound
    refine ⟨hDone, fun rel => ?_⟩
    have hCount : (f.freeData e.phys e.len).alloc.blockCount = f.alloc.blockCount :=
      Alloc.blockCount_freeBlocks _ _ _
    have hBits : (f.freeData e.phys e.len).alloc.isFree rel = true ↔
        f.alloc.isFree rel = true ∨
          rel < f.alloc.blockCount ∧ ∃ x ∈ e.cells, x.2.1 = f.dataStart + rel := by
      show (f.alloc.freeBlocks (e.phys - f.dataStart) e.len).isFree rel = true ↔ _
      rw [Alloc.isFree_freeBlocks, Bool.or_eq_true, decide_eq_true_eq]
      apply or_congr_right
      constructor
      · rintro ⟨hLo, hHi, hDev⟩
        have hFirst : (e.offset, e.phys, e.flags) ∈ e.cells :=
          mem_extent_cells.mpr ⟨⟨Nat.le_refl _, by unfold Extent.stop; omega⟩,
            by unfold Extent.physAt; omega, rfl⟩
        have hStart := hHere _ hFirst
        dsimp only at hStart
        refine ⟨hDev, (e.offset + (f.dataStart + rel - e.phys), f.dataStart + rel, e.flags),
          mem_extent_cells.mpr ⟨⟨by omega, ?_⟩, ?_, rfl⟩, rfl⟩
        · unfold Extent.stop
          omega
        · unfold Extent.physAt
          omega
      · rintro ⟨hDev, ⟨b, p, fl⟩, hx, hEq⟩
        have hStart := hHere _ hx
        obtain ⟨⟨hLo, hHi⟩, hPhys, -⟩ := mem_extent_cells.mp hx
        unfold Extent.physAt at hPhys
        unfold Extent.stop at hHi
        dsimp only at hEq hStart
        omega
    show (freeRuns (f.freeData e.phys e.len) runs).alloc.isFree rel = true ↔ _
    rw [hFree rel, hBits, or_assoc, hCount, ← and_or_left]
    apply or_congr_right
    apply and_congr_right
    intro _
    constructor
    · rintro (⟨x, hx, hEq⟩ | ⟨x, hx, hEq⟩)
      · exact ⟨x, List.mem_append_left _ hx, hEq⟩
      · exact ⟨x, List.mem_append_right _ hx, hEq⟩
    · rintro ⟨x, hx, hEq⟩
      rcases List.mem_append.mp hx with hx | hx
      · exact Or.inl ⟨x, hx, hEq⟩
      · exact Or.inr ⟨x, hx, hEq⟩

/-- A block that no run has stays taken. -/
theorem freeRuns_keeps (hData : ∀ x ∈ cells runs, f.dataStart < x.2.1) (hHealthy : f.alloc.Healthy)
    {b : Nat} (h : Allocated f b) (hOut : ∀ x ∈ cells runs, x.2.1 ≠ b) :
    Allocated { f with alloc := (freeRuns f runs).alloc } b := by
  obtain ⟨rel, hRel, rfl, hTaken⟩ := h
  refine ⟨rel, hRel, rfl, ?_⟩
  by_contra hNow
  rcases ((freeRuns_isFree hData hHealthy).2 rel).mp (by simpa using hNow) with
    hWas | ⟨-, x, hx, hEq⟩
  · rw [hTaken] at hWas
    cases hWas
  · exact hOut x hx hEq

/-- An inode that gave up some of its cells still holds its extents, and owns every list
that is made of the others. -/
theorem freeRuns_ready {new : List Extent} (h : Sound f)
    (hRuns : ∀ x ∈ cells runs, x ∈ cells f.content.exts)
    (hNew : ∀ y ∈ cells new, ∃ x ∈ cells f.content.exts, x.2.1 = y.2.1 ∧ x ∉ cells runs)
    (hOnce : ((cells new).map fun x => x.2.1).Nodup) :
    Holds (freeRuns f runs) f.content ∧ Owns (freeRuns f runs) f.content.blocks (cells new) := by
  have hData : ∀ x ∈ cells runs, f.dataStart < x.2.1 := by
    intro x hx
    obtain ⟨rel, hRel, hEq, -⟩ := h.owns.taken x (hRuns x hx)
    omega
  obtain ⟨hHealthy, -⟩ := freeRuns_isFree hData h.holds.sound
  rw [freeRuns_eq]
  constructor
  · apply h.holds.withAlloc hHealthy
    intro b hb
    apply freeRuns_keeps hData h.holds.sound (h.holds.owned b hb)
    rintro x hx rfl
    exact h.owns.apart x (hRuns x hx) hb
  · refine ⟨fun y hy => ?_, fun y hy => ?_, hOnce⟩
    · obtain ⟨x, hx, hEq, hOut⟩ := hNew y hy
      rw [← hEq]
      apply freeRuns_keeps hData h.holds.sound (h.owns.taken x hx)
      intro z hz hSame
      have hzx : z = x := List.inj_on_of_nodup_map h.owns.once (hRuns z hz) hx hSame
      exact hOut (hzx ▸ hz)
    · obtain ⟨x, hx, hEq, -⟩ := hNew y hy
      rw [← hEq]
      exact h.owns.apart x hx

end FreeRuns

--
-- The shift
--

/-- The map after a shift of the map `l`. -/
def Shift.Moved (S L : Nat) (l : List Extent) (b p fl : Nat) : Shift → Prop
  | .collapse => if b < S then Maps l b p fl else Maps l (b + L) p fl
  | .insert => if b < S then Maps l b p fl else S + L ≤ b ∧ Maps l (b - L) p fl

section Shift

variable {f : Btree.File} {S L : Nat} {dir : Shift} {l : List Extent}

theorem cells_new (hL : 0 < L) : ∀ l : List Extent, cells (l.flatMap fun e => dir.kept S L e) =
    ((cells l).filter fun x => dir.stays S L x.1).map (dir.place S L) := by
  intro l
  induction l with
  | nil => rfl
  | cons e l ih =>
    rw [List.flatMap_cons, cells_append, cells_cons, List.filter_append, List.map_append, ih,
      cells_kept hL]

/-- The temporary list has room for two entries for each extent. -/
theorem length_new_le : ∀ l : List Extent,
    (l.flatMap fun e => dir.kept S L e).length ≤ 2 * l.length := by
  intro l
  induction l with
  | nil => exact Nat.le_refl _
  | cons e l ih =>
    have hTwo : (dir.kept S L e).length ≤ 2 := length_kept_le
    rw [List.flatMap_cons, List.length_append, List.length_cons]
    omega

theorem cells_freed : ∀ l : List Extent, cells (l.flatMap fun e => dir.dropped S L e) =
    (cells l).filter fun x => !dir.stays S L x.1 := by
  intro l
  induction l with
  | nil => rfl
  | cons e l ih =>
    rw [List.flatMap_cons, cells_append, cells_cons, List.filter_append, ih, cells_dropped]

/-- Two file blocks that stay go to different places. -/
theorem target_inj {b b' : Nat} (hb : dir.stays S L b = true) (hb' : dir.stays S L b' = true)
    (h : dir.target S L b = dir.target S L b') : b = b' := by
  cases dir with
  | insert =>
    unfold Shift.target at h
    dsimp only at h
    split at h <;> split at h <;> omega
  | collapse =>
    rw [stays_collapse] at hb hb'
    unfold Shift.target at h
    dsimp only at h
    split at h <;> split at h <;> omega

theorem distinct_new (hL : 0 < L) (hDist : Distinct (cells l)) :
    Distinct (cells (l.flatMap fun e => dir.kept S L e)) := by
  unfold Distinct at *
  rw [cells_new hL, List.map_map]
  have hSome : (((cells l).filter fun x => dir.stays S L x.1).map fun x => x.1).Nodup :=
    hDist.sublist (List.filter_sublist.map _)
  have hMap : ((cells l).filter fun x => dir.stays S L x.1).map
      ((fun x : Nat × Nat × Nat => x.1) ∘ dir.place S L) =
      (((cells l).filter fun x => dir.stays S L x.1).map fun x => x.1).map (dir.target S L) := by
    rw [List.map_map]
    rfl
  rw [hMap]
  apply hSome.map_on
  intro b hb b' hb' hEq
  obtain ⟨x, hx, rfl⟩ := List.mem_map.mp hb
  obtain ⟨y, hy, rfl⟩ := List.mem_map.mp hb'
  exact target_inj (List.mem_filter.mp hx).2 (List.mem_filter.mp hy).2 hEq

/-- What the new list maps. -/
theorem maps_new (hL : 0 < L) {b p fl : Nat} :
    Maps (l.flatMap fun e => dir.kept S L e) b p fl ↔ dir.Moved S L l b p fl := by
  rw [← mem_cells, cells_new hL, List.mem_map]
  constructor
  · rintro ⟨⟨b', p', fl'⟩, hx, hEq⟩
    obtain ⟨hIn, hStays⟩ := List.mem_filter.mp hx
    obtain ⟨rfl, hRest⟩ := Prod.mk.inj hEq
    obtain ⟨rfl, rfl⟩ := Prod.mk.inj hRest
    rw [mem_cells] at hIn
    dsimp only at hStays ⊢
    cases dir with
    | insert =>
      unfold Shift.target Shift.Moved
      dsimp only
      by_cases hLow : b' < S
      · rw [if_pos hLow, if_pos hLow]
        exact hIn
      · rw [if_neg hLow, if_neg (by omega), Nat.add_sub_cancel]
        exact ⟨by omega, hIn⟩
    | collapse =>
      rw [stays_collapse] at hStays
      unfold Shift.target Shift.Moved
      dsimp only
      by_cases hLow : b' < S
      · rw [if_pos hLow, if_pos hLow]
        exact hIn
      · rw [if_neg hLow, if_neg (by omega), Nat.sub_add_cancel (by omega)]
        exact hIn
  · intro hMoved
    -- the block of the old map that comes to `b`
    have hBack : ∃ b', Maps l b' p fl ∧ dir.stays S L b' = true ∧ dir.target S L b' = b := by
      cases dir with
      | insert =>
        unfold Shift.Moved at hMoved
        dsimp only at hMoved
        by_cases hLow : b < S
        · rw [if_pos hLow] at hMoved
          exact ⟨b, hMoved, rfl, if_pos hLow⟩
        · rw [if_neg hLow] at hMoved
          refine ⟨b - L, hMoved.2, rfl, ?_⟩
          unfold Shift.target
          dsimp only
          rw [if_neg (by omega)]
          omega
      | collapse =>
        unfold Shift.Moved at hMoved
        dsimp only at hMoved
        by_cases hLow : b < S
        · rw [if_pos hLow] at hMoved
          exact ⟨b, hMoved, stays_collapse.mpr (Or.inl hLow), if_pos hLow⟩
        · rw [if_neg hLow] at hMoved
          refine ⟨b + L, hMoved, stays_collapse.mpr (by omega), ?_⟩
          unfold Shift.target
          dsimp only
          rw [if_neg (by omega)]
          omega
    obtain ⟨b', hMaps, hStays, rfl⟩ := hBack
    exact ⟨(b', p, fl), List.mem_filter.mpr ⟨mem_cells.mpr hMaps, hStays⟩, rfl⟩

theorem shiftExtents_eq (hEach : forEachExtent f = .ok l) (hSome : l ≠ []) :
    shiftExtents f S L dir =
      (rebuildExtentList levels (freeRuns f (l.flatMap fun e => dir.dropped S L e))
        (l.flatMap fun e => dir.kept S L e)).map fun r =>
          ⟨r.1, r.2, l.flatMap fun e => dir.kept S L e, l.flatMap fun e => dir.dropped S L e,
            unwrittenIn (l.flatMap fun e => dir.dropped S L e)⟩ := by
  unfold shiftExtents
  rw [hEach]
  cases l with
  | nil => exact absurd rfl hSome
  | cons e l => rfl

/-- What `briefs_shift_extents` leaves when it returns 0: the map is the moved one, exactly
the cells that do not stay were freed, each once, and no other data block changed hands. -/
structure ShiftDone (f : Btree.File) (S L : Nat) (dir : Shift) (l : List Extent) (r : Shifted) :
    Prop where
  map   : ∃ l', forEachExtent r.file = .ok l' ∧ Ordered l' ∧
    ∀ b p fl, Maps l' b p fl ↔ dir.Moved S L l b p fl
  freed : cells r.freed = (cells l).filter fun x => !dir.stays S L x.1
  once  : ((cells r.freed).map fun x => x.2.1).Nodup
  alloc : ∀ rel < f.alloc.blockCount, f.dataStart + rel ∉ f.content.blocks →
    f.dataStart + rel ∉ r.file.content.blocks →
    (r.file.alloc.isFree rel = true ↔ f.alloc.isFree rel = true ∨
      ∃ x ∈ cells r.freed, x.2.1 = f.dataStart + rel)

/-- After the runs are freed, the new list can be inserted. -/
theorem shift_ready (S : Nat) (dir : Shift) (h : Sound f) (hL : 0 < L)
    (hTop : ∀ e ∈ f.content.exts, e.stop + L < fileTop) :
    Holds (freeRuns f (f.content.exts.flatMap fun e => dir.dropped S L e)) f.content ∧
      Owns (freeRuns f (f.content.exts.flatMap fun e => dir.dropped S L e)) f.content.blocks
        (cells (f.content.exts.flatMap fun e => dir.kept S L e)) ∧
      ∀ x ∈ f.content.exts.flatMap fun e => dir.kept S L e, 0 < x.len ∧ x.stop < fileTop := by
  have hNewCells : cells (f.content.exts.flatMap fun e => dir.kept S L e) =
      ((cells f.content.exts).filter fun x => dir.stays S L x.1).map (dir.place S L) :=
    cells_new hL f.content.exts
  have hFreedCells : cells (f.content.exts.flatMap fun e => dir.dropped S L e) =
      (cells f.content.exts).filter fun x => !dir.stays S L x.1 :=
    cells_freed f.content.exts
  have hPos : ∀ x ∈ f.content.exts.flatMap fun e => dir.kept S L e, 0 < x.len := by
    intro x hx
    obtain ⟨y, hy, hxy⟩ := List.mem_flatMap.mp hx
    exact kept_pos (h.holds.pos y hy) x hxy
  generalize f.content.exts.flatMap (fun e => dir.kept S L e) = new at *
  generalize f.content.exts.flatMap (fun e => dir.dropped S L e) = freed at *
  have hPhys : (cells new).map (fun x => x.2.1) =
      ((cells f.content.exts).filter fun x => dir.stays S L x.1).map fun x => x.2.1 := by
    rw [hNewCells, List.map_map]
    rfl
  have hOnce : ((cells new).map fun x => x.2.1).Nodup := by
    rw [hPhys]
    exact h.owns.once.sublist (List.filter_sublist.map _)
  have hRuns : ∀ x ∈ cells freed, x ∈ cells f.content.exts := by
    rw [hFreedCells]
    exact fun x hx => (List.mem_filter.mp hx).1
  have hFrom : ∀ y ∈ cells new, ∃ x ∈ cells f.content.exts, x.2.1 = y.2.1 ∧ x ∉ cells freed := by
    intro y hy
    rw [hNewCells] at hy
    obtain ⟨x, hx, rfl⟩ := List.mem_map.mp hy
    obtain ⟨hIn, hStays⟩ := List.mem_filter.mp hx
    refine ⟨x, hIn, rfl, fun hGone => ?_⟩
    rw [hFreedCells] at hGone
    have hNot := (List.mem_filter.mp hGone).2
    rw [hStays] at hNot
    cases hNot
  have hLow : ∀ x ∈ cells new, x.1 < fileTop - 1 := by
    rw [hNewCells]
    intro y hy
    obtain ⟨x, hx, rfl⟩ := List.mem_map.mp hy
    obtain ⟨b, p, fl⟩ := x
    obtain ⟨y, hIn, ⟨-, hb⟩, -⟩ := mem_cells.mp (List.mem_filter.mp hx).1
    have hEnd := hTop y hIn
    show dir.target S L b < fileTop - 1
    unfold Shift.target
    cases dir with
    | insert =>
      dsimp only
      split <;> omega
    | collapse =>
      dsimp only
      split <;> omega
  obtain ⟨hHolds, hOwns⟩ := freeRuns_ready h hRuns hFrom hOnce
  refine ⟨hHolds, hOwns, fun x hx => ?_⟩
  have hEnd := stop_le_of_cells hPos hLow x hx
  have hBig : fileTop = 2 ^ 64 := rfl
  exact ⟨hPos x hx, by omega⟩

/-- Collapse and insert range shift the map exactly, for every sorted disjoint extent list,
in the inline array or in a tree, and the temporary list stays in its bounds. -/
theorem shift_moves_map (h : Sound f) (hOrd : Ordered f.content.exts) (hL : 0 < L)
    (hTop : ∀ e ∈ f.content.exts, e.stop + L < fileTop) :
    ∃ r l, shiftExtents f S L dir = some r ∧ forEachExtent f = .ok l ∧
      r.new.length ≤ 2 * l.length ∧ (r.ret = none → ShiftDone f S L dir l r) := by
  have hEach := h.holds.forEachExtent
  have hDist := hOrd.distinct
  cases hNone : f.content.exts with
  | nil =>
    unfold shiftExtents
    rw [hEach, hNone]
    refine ⟨_, [], rfl, rfl, Nat.le_refl _, fun _ => ⟨⟨[], ?_, List.Pairwise.nil, ?_⟩, rfl,
      List.nodup_nil, ?_⟩⟩
    · rw [← hNone]
      exact hEach
    · intro b p fl
      have hMaps : Maps ([].flatMap fun e => dir.kept S L e) b p fl ↔ _ := maps_new hL
      rw [← hMaps]
      rfl
    · intro rel _ _ _
      show f.alloc.isFree rel = true ↔ _
      simp
  | cons e l =>
    clear hOrd
    have hFreedCells : cells (f.content.exts.flatMap fun e => dir.dropped S L e) =
        (cells f.content.exts).filter fun x => !dir.stays S L x.1 := cells_freed f.content.exts
    obtain ⟨hHolds, hOwns, hFits⟩ := shift_ready S dir h hL hTop
    obtain ⟨code, g, c, hRun, hd⟩ := rebuildExtentList_spec hHolds hOwns hFits ten_le_levels
    generalize hFreedEq : f.content.exts.flatMap (fun e => dir.dropped S L e) = freed at *
    have hStart : (freeRuns f freed).dataStart = f.dataStart := by rw [freeRuns_eq]
    have hNonempty : f.content.exts ≠ [] := by
      rw [hNone]
      exact List.cons_ne_nil _ _
    rw [shiftExtents_eq hEach hNonempty, hFreedEq, hRun]
    refine ⟨_, f.content.exts, rfl, hEach, length_new_le f.content.exts, ?_⟩
    intro hCode
    have hDone := hd.done hCode
    refine ⟨⟨c.exts, hd.holds.forEachExtent, ?_, ?_⟩, hFreedCells, ?_, ?_⟩
    · apply hd.holds.ordered
      apply hd.tidy
      exact distinct_new hL hDist
    · intro b p fl
      rw [← mem_cells, hDone.mem_iff, mem_cells, maps_new hL]
    · show ((cells freed).map fun x => x.2.1).Nodup
      rw [hFreedCells]
      exact h.owns.once.sublist (List.filter_sublist.map _)
    · intro rel hDev hOld hNode
      have hData : ∀ x ∈ cells freed, f.dataStart < x.2.1 := by
        intro x hx
        rw [hFreedCells] at hx
        obtain ⟨rel, hRel, hEq, -⟩ := h.owns.taken x (List.mem_filter.mp hx).1
        omega
      have hFree := (freeRuns_isFree hData h.holds.sound).2 rel
      have hBits := rebuildExtentList_isFree ten_le_levels hHolds hFits hRun hd.holds.sound
        (hStart.symm ▸ hOld) (hStart.symm ▸ hNode)
      show g.alloc.isFree rel = true ↔ _
      rw [hBits, hFree]
      apply or_congr_right
      exact ⟨fun hIn => hIn.2, fun hIn => ⟨hDev, hIn⟩⟩

end Shift

/-- A tree of three nodes loses the blocks 100 to 109. -/
theorem splitFile_shift : ∃ r l, shiftExtents splitFile 100 10 .collapse = some r ∧
    forEachExtent splitFile = .ok l ∧ r.new.length ≤ 2 * l.length ∧
    (r.ret = none → ShiftDone splitFile 100 10 .collapse l r) := by
  obtain ⟨-, hGood, -⟩ := gapFile_run (P := Allowed) evens_allowed trivial
  have hTop : ∀ e ∈ splitFile.content.exts, e.stop + 10 < fileTop := by decide +kernel
  exact shift_moves_map hGood.toSound (hGood.holds.ordered hGood.noCross) (by decide) hTop

end Briefs.File
