import Briefs.Btree.Runs

/-!
# BrieFS — pieces of extent lists

`briefs_emit_clipped` and `briefs_emit_subtract` (`file.c`) copy the pieces of a sorted
extent list that lie in a range, or in a range but outside of a mask, and move them by a
signed number of blocks. The sums are those of unsigned 64-bit words, so a move down is a
large `rebase`.

The cells of the output are the cells of the input that pass a test, moved. That is how the
operations that build a new list from such pieces are described.

## Results

* `cells_emitClipped`, `cells_emitSubtract` — the cells of the pieces.
-/

namespace Briefs.File

open Briefs.Journal
open Briefs.Btree

--
-- The code
--

/-- The piece `[s, en)` of an extent, moved. -/
def piece (e : Extent) (s en rebase : Nat) : Extent :=
  ⟨(s + rebase) % 2 ^ 64, e.phys + (s - e.offset), en - s, e.flags⟩

/-- `briefs_emit_clipped`. -/
def emitClipped (src : List Extent) (lo hi rebase : Nat) : List Extent :=
  src.filterMap fun e =>
    let s := max e.offset lo
    let en := min e.stop hi
    if en ≤ s then none else some (piece e s en rebase)

/-- The loop over the mask for one extent, from block `cur` on. -/
def subtractMask (e : Extent) (en rebase : Nat) : List Extent → Nat → List Extent
  | [], cur => if cur < en then [piece e cur en rebase] else []
  | m :: mask, cur =>
    if en ≤ cur then []
    else if m.stop ≤ cur then subtractMask e en rebase mask cur
    else if en ≤ m.offset then [piece e cur en rebase]
    else
      (if cur < max m.offset cur then [piece e cur (max m.offset cur) rebase] else []) ++
        subtractMask e en rebase mask (min m.stop en)

/-- `briefs_emit_subtract`. -/
def emitSubtract (src : List Extent) (lo hi : Nat) (mask : List Extent) (rebase : Nat) :
    List Extent :=
  src.flatMap fun e =>
    let s := max e.offset lo
    let en := min e.stop hi
    if en ≤ s then [] else subtractMask e en rebase mask s

--
-- Pieces of one extent
--

/-- The file block lies in `[lo, hi)`. -/
def inRange (lo hi : Nat) (x : Nat × Nat × Nat) : Bool := decide (lo ≤ x.1) && decide (x.1 < hi)

theorem inRange_iff {lo hi : Nat} {x : Nat × Nat × Nat} :
    inRange lo hi x = true ↔ lo ≤ x.1 ∧ x.1 < hi := by
  unfold inRange
  simp only [Bool.and_eq_true, decide_eq_true_eq]

/-- A cell that is moved from `B` to `A`. -/
def move (A B : Nat) (x : Nat × Nat × Nat) : Nat × Nat × Nat := (x.1 + A - B, x.2)

theorem move_self (A : Nat) (x : Nat × Nat × Nat) : move A A x = x := by
  unfold move
  rw [Nat.add_sub_cancel]

/-- The words `rebase` add as the move from `B` to `A`, on the blocks of `[lo, top)`. -/
def Moves (rebase A B lo top : Nat) : Prop :=
  B ≤ lo ∧ ∀ b, lo ≤ b → b < top → (b + rebase) % 2 ^ 64 = b + A - B

/-- No move at all. -/
theorem moves_zero {lo top : Nat} (hTop : top ≤ 2 ^ 64) : Moves 0 0 0 lo top := by
  refine ⟨Nat.zero_le _, fun b _ hb => ?_⟩
  rw [Nat.add_zero, Nat.mod_eq_of_lt (by omega)]
  rfl

section Piece

variable {e : Extent} {lo hi s en rebase A B : Nat}

theorem filter_cells_none (h : ∀ b, e.covers b → b < lo ∨ hi ≤ b) :
    e.cells.filter (inRange lo hi) = [] := by
  rw [List.filter_eq_nil_iff]
  rintro ⟨b, p, fl⟩ hx hIn
  obtain ⟨hCov, -⟩ := mem_extent_cells.mp hx
  rw [inRange_iff] at hIn
  dsimp only at hIn
  have hOut := h b hCov
  omega

theorem filter_cells_all (h : ∀ b, e.covers b → lo ≤ b ∧ b < hi) :
    e.cells.filter (inRange lo hi) = e.cells := by
  rw [List.filter_eq_self]
  rintro ⟨b, p, fl⟩ hx
  obtain ⟨hCov, -⟩ := mem_extent_cells.mp hx
  exact inRange_iff.mpr (h b hCov)

/-- The cells of an extent in a part of its range. -/
theorem filter_cells (hLo : e.offset ≤ s) (hMid : s ≤ en) (hHi : en ≤ e.stop) :
    e.cells.filter (inRange s en) =
      (⟨s, e.phys + (s - e.offset), en - s, e.flags⟩ : Extent).cells := by
  have hStop : e.stop = e.offset + e.len := rfl
  have hFirst : e.len = (s - e.offset) + (e.stop - s) := by omega
  have hOff : e.offset + (s - e.offset) = s := by omega
  rw [cells_split hFirst, List.filter_append, hOff]
  have hBefore : (({ e with len := s - e.offset } : Extent).cells).filter (inRange s en) = [] := by
    apply filter_cells_none
    rintro b ⟨-, hb⟩
    left
    unfold Extent.stop at hb
    dsimp only at hb
    omega
  rw [hBefore, List.nil_append]
  have hSecond : (⟨s, e.phys + (s - e.offset), e.stop - s, e.flags⟩ : Extent).len =
      (en - s) + (e.stop - en) := by
    dsimp only
    omega
  have hAfter : ((⟨s + (en - s), e.phys + (s - e.offset) + (en - s), e.stop - en, e.flags⟩ :
      Extent).cells).filter (inRange s en) = [] := by
    apply filter_cells_none
    rintro b ⟨hb, -⟩
    right
    dsimp only at hb
    omega
  have hHere : ((⟨s, e.phys + (s - e.offset), en - s, e.flags⟩ : Extent).cells).filter
      (inRange s en) = (⟨s, e.phys + (s - e.offset), en - s, e.flags⟩ : Extent).cells := by
    apply filter_cells_all
    rintro b ⟨hb, hb'⟩
    unfold Extent.stop at hb'
    dsimp only at hb hb'
    omega
  rw [cells_split hSecond, List.filter_append, hAfter, hHere, List.append_nil]

/-- The cells of a piece. -/
theorem cells_piece (hLo : e.offset ≤ s) (hMid : s < en) (hHi : en ≤ e.stop)
    (hMoves : Moves rebase A B s en) :
    (piece e s en rebase).cells = (e.cells.filter (inRange s en)).map (move A B) := by
  obtain ⟨hB, hAll⟩ := hMoves
  rw [filter_cells hLo (Nat.le_of_lt hMid) hHi]
  unfold piece Extent.cells
  rw [List.map_map]
  apply List.map_congr_left
  intro i hi
  rw [List.mem_range] at hi
  dsimp only at hi
  rw [hAll s (Nat.le_refl _) hMid]
  unfold move
  simp only [Function.comp_apply, Prod.mk.injEq, and_true]
  omega

theorem Moves.mono {top lo' top' : Nat} (h : Moves rebase A B lo top) (hLo : lo ≤ lo')
    (hTop : top' ≤ top) : Moves rebase A B lo' top' :=
  ⟨Nat.le_trans h.1 hLo, fun b hb hb' => h.2 b (Nat.le_trans hLo hb) (Nat.lt_of_lt_of_le hb' hTop)⟩

/-- The cells in a range are those in the part of the range that the extent covers. -/
theorem filter_cells_clip : e.cells.filter (inRange lo hi) =
    e.cells.filter (inRange (max e.offset lo) (min e.stop hi)) := by
  apply List.filter_congr
  rintro ⟨b, p, fl⟩ hx
  obtain ⟨⟨hb, hb'⟩, -⟩ := mem_extent_cells.mp hx
  rw [Bool.eq_iff_iff, inRange_iff, inRange_iff]
  dsimp only
  omega

end Piece

--
-- Clipping
--

/-- The cells of the pieces in a range. -/
theorem cells_emitClipped {lo hi rebase A B top : Nat} (hMoves : Moves rebase A B lo top) :
    ∀ {src : List Extent}, (∀ e ∈ src, min e.stop hi ≤ top) →
      cells (emitClipped src lo hi rebase) =
        ((cells src).filter (inRange lo hi)).map (move A B) := by
  intro src
  induction src with
  | nil => exact fun _ => rfl
  | cons e src ih =>
    intro hTop
    obtain ⟨hHere, hRest⟩ := List.forall_mem_cons.mp hTop
    have hMore := ih hRest
    rw [cells_cons, List.filter_append, List.map_append, ← hMore, filter_cells_clip]
    unfold emitClipped
    rw [List.filterMap_cons]
    dsimp only
    by_cases hNone : min e.stop hi ≤ max e.offset lo
    · rw [if_pos hNone, filter_cells_none, List.map_nil, List.nil_append]
      intro b _
      omega
    · rw [if_neg hNone]
      dsimp only
      rw [cells_cons, cells_piece (Nat.le_max_left _ _) (by omega) (Nat.min_le_left _ _)
        (hMoves.mono (Nat.le_max_right _ _) hHere)]

--
-- Subtracting
--

/-- The file block is in the mask. -/
def masked (mask : List Extent) (x : Nat × Nat × Nat) : Bool :=
  mask.any fun m => decide (m.covers x.1)

theorem masked_iff {mask : List Extent} {x : Nat × Nat × Nat} :
    masked mask x = true ↔ ∃ m ∈ mask, m.covers x.1 := by
  unfold masked
  simp only [List.any_eq_true, decide_eq_true_eq]

/-- The cells of an extent in two parts. -/
theorem filter_cells_split {e : Extent} {k : Nat} (hLo : e.offset ≤ k) (hHi : k ≤ e.stop)
    (p : Nat × Nat × Nat → Bool) :
    e.cells.filter p = (e.cells.filter fun x => p x && decide (x.1 < k)) ++
      e.cells.filter fun x => p x && decide (k ≤ x.1) := by
  have hStop : e.stop = e.offset + e.len := rfl
  have hLen : e.len = (k - e.offset) + (e.stop - k) := by omega
  have hLeft : ∀ x ∈ ({ e with len := k - e.offset } : Extent).cells, x.1 < k := by
    rintro ⟨b, q, fl⟩ hx
    obtain ⟨⟨-, hb⟩, -⟩ := mem_extent_cells.mp hx
    unfold Extent.stop at hb
    dsimp only at hb ⊢
    omega
  have hRight : ∀ x ∈ ({ e with
      offset := e.offset + (k - e.offset), phys := e.phys + (k - e.offset), len := e.stop - k } :
      Extent).cells, k ≤ x.1 := by
    rintro ⟨b, q, fl⟩ hx
    obtain ⟨⟨hb, -⟩, -⟩ := mem_extent_cells.mp hx
    dsimp only at hb ⊢
    omega
  rw [cells_split hLen]
  simp only [List.filter_append]
  have hA : (({ e with len := k - e.offset } : Extent).cells.filter fun x =>
      p x && decide (x.1 < k)) = ({ e with len := k - e.offset } : Extent).cells.filter p := by
    apply List.filter_congr
    intro x hx
    simp [hLeft x hx]
  have hB : (({ e with len := k - e.offset } : Extent).cells.filter fun x =>
      p x && decide (k ≤ x.1)) = [] := by
    rw [List.filter_eq_nil_iff]
    intro x hx hIn
    have hb := hLeft x hx
    simp only [Bool.and_eq_true, decide_eq_true_eq] at hIn
    omega
  have hC : (({ e with
      offset := e.offset + (k - e.offset), phys := e.phys + (k - e.offset), len := e.stop - k } :
      Extent).cells.filter fun x => p x && decide (x.1 < k)) = [] := by
    rw [List.filter_eq_nil_iff]
    intro x hx hIn
    have hb := hRight x hx
    simp only [Bool.and_eq_true, decide_eq_true_eq] at hIn
    omega
  have hD : (({ e with
      offset := e.offset + (k - e.offset), phys := e.phys + (k - e.offset), len := e.stop - k } :
      Extent).cells.filter fun x => p x && decide (k ≤ x.1)) = ({ e with
      offset := e.offset + (k - e.offset), phys := e.phys + (k - e.offset), len := e.stop - k } :
      Extent).cells.filter p := by
    apply List.filter_congr
    intro x hx
    simp [hRight x hx]
  rw [hA, hB, hC, hD, List.append_nil, List.nil_append]

/-- The cells of an unmoved piece. -/
theorem cells_piece_zero {e : Extent} {s en : Nat} (hLo : e.offset ≤ s) (hMid : s < en)
    (hHi : en ≤ e.stop) (hTop : en ≤ 2 ^ 64) :
    cells [piece e s en 0] = e.cells.filter (inRange s en) := by
  have hSame : move 0 0 = id := funext fun x => move_self 0 x
  rw [cells_cons, cells_nil, List.append_nil, cells_piece hLo hMid hHi (moves_zero hTop), hSame,
    List.map_id]

/-- The cells of the pieces outside of the mask, for one extent. -/
theorem cells_subtractMask {e : Extent} {en : Nat} (hHi : en ≤ e.stop) (hTop : en ≤ 2 ^ 64) :
    ∀ {mask : List Extent} {cur : Nat}, Ordered mask → e.offset ≤ cur →
      cells (subtractMask e en 0 mask cur) =
        e.cells.filter fun x => inRange cur en x && !masked mask x := by
  intro mask
  induction mask with
  | nil =>
    intro cur _ hLo
    have hAll : (fun x => inRange cur en x && !masked [] x) = inRange cur en := by
      funext x
      exact Bool.and_true _
    rw [hAll]
    unfold subtractMask
    by_cases hIn : cur < en
    · rw [if_pos hIn, cells_piece_zero hLo hIn hHi hTop]
    · rw [if_neg hIn, filter_cells_none, cells_nil]
      intro b _
      omega
  | cons m mask ih =>
    intro cur hOrd hLo
    obtain ⟨hAfter, hRest⟩ := List.pairwise_cons.mp hOrd
    have hSize := m.offset_le_stop
    -- A later part of the mask starts behind `m`.
    have hLater : ∀ b, b < m.stop → ¬ ∃ n ∈ mask, n.covers b := by
      rintro b hb ⟨n, hn, hCov⟩
      have hStart := hAfter n hn
      have hFrom := hCov.1
      omega
    have hMask : ∀ x, (masked (m :: mask) x = true) ↔ m.covers x.1 ∨ ∃ n ∈ mask, n.covers x.1 := by
      intro x
      rw [masked_iff, List.exists_mem_cons_iff]
    unfold subtractMask
    by_cases hDone : en ≤ cur
    · rw [if_pos hDone, cells_nil, eq_comm, List.filter_eq_nil_iff]
      intro x _ hIn
      rw [Bool.and_eq_true, inRange_iff] at hIn
      omega
    rw [if_neg hDone]
    by_cases hBehind : m.stop ≤ cur
    · rw [if_pos hBehind, ih hRest hLo]
      apply List.filter_congr
      intro x _
      rw [Bool.eq_iff_iff, Bool.and_eq_true, Bool.and_eq_true, inRange_iff, Bool.not_eq_true',
        Bool.not_eq_true', Bool.eq_false_iff, Bool.eq_false_iff, Ne, Ne, hMask, masked_iff]
      constructor
      · rintro ⟨hIn, hOut⟩
        refine ⟨hIn, ?_⟩
        rintro (hCov | hSome)
        · have hEnd := hCov.2
          omega
        · exact hOut hSome
      · rintro ⟨hIn, hOut⟩
        exact ⟨hIn, fun hSome => hOut (Or.inr hSome)⟩
    rw [if_neg hBehind]
    by_cases hBefore : en ≤ m.offset
    · rw [if_pos hBefore, cells_piece_zero hLo (by omega) hHi hTop]
      apply List.filter_congr
      intro x _
      rw [Bool.eq_iff_iff, Bool.and_eq_true, inRange_iff, Bool.not_eq_true', Bool.eq_false_iff, Ne,
        hMask]
      constructor
      · intro hIn
        refine ⟨hIn, ?_⟩
        rintro (hCov | hSome)
        · have hFrom := hCov.1
          omega
        · exact hLater x.1 (by omega) hSome
      · exact fun hIn => hIn.1
    rw [if_neg hBefore, cells_append, ih hRest (by omega),
      filter_cells_split (k := max m.offset cur) (by omega) (by omega)
        fun x => inRange cur en x && !masked (m :: mask) x]
    congr 1
    · -- before the part of the mask
      have hFirst : cells (if cur < max m.offset cur then [piece e cur (max m.offset cur) 0] else []) =
          e.cells.filter (inRange cur (max m.offset cur)) := by
        by_cases hGap : cur < max m.offset cur
        · rw [if_pos hGap, cells_piece_zero hLo hGap (by omega) (by omega)]
        · rw [if_neg hGap, filter_cells_none, cells_nil]
          intro b _
          omega
      rw [hFirst]
      apply List.filter_congr
      intro x _
      rw [Bool.eq_iff_iff, Bool.and_eq_true, Bool.and_eq_true, inRange_iff, inRange_iff,
        Bool.not_eq_true', Bool.eq_false_iff, Ne, hMask, decide_eq_true_eq]
      constructor
      · intro hIn
        refine ⟨⟨by omega, ?_⟩, hIn.2⟩
        rintro (hCov | hSome)
        · have hFrom := hCov.1
          omega
        · exact hLater x.1 (by omega) hSome
      · rintro ⟨⟨hIn, -⟩, hUp⟩
        exact ⟨hIn.1, hUp⟩
    · -- behind it
      apply List.filter_congr
      intro x _
      rw [Bool.eq_iff_iff, Bool.and_eq_true, Bool.and_eq_true, Bool.and_eq_true, inRange_iff,
        inRange_iff, Bool.not_eq_true', Bool.not_eq_true', Bool.eq_false_iff, Bool.eq_false_iff, Ne,
        Ne, hMask, masked_iff, decide_eq_true_eq]
      constructor
      · rintro ⟨hIn, hOut⟩
        refine ⟨⟨by omega, ?_⟩, by omega⟩
        rintro (hCov | hSome)
        · have hEnd := hCov.2
          omega
        · exact hOut hSome
      · rintro ⟨⟨hIn, hOut⟩, hUp⟩
        have hEnd : m.stop ≤ x.1 := by
          by_contra hInside
          exact hOut (Or.inl ⟨by omega, by omega⟩)
        exact ⟨by omega, fun hSome => hOut (Or.inr hSome)⟩

/-- The cells of the pieces in a range outside of the mask. -/
theorem cells_emitSubtract {lo hi : Nat} {mask : List Extent} (hOrd : Ordered mask) :
    ∀ {src : List Extent}, (∀ e ∈ src, e.stop ≤ 2 ^ 64) →
      cells (emitSubtract src lo hi mask 0) =
        (cells src).filter fun x => inRange lo hi x && !masked mask x := by
  intro src
  induction src with
  | nil => exact fun _ => rfl
  | cons e src ih =>
    intro hTop
    obtain ⟨hHere, hRest⟩ := List.forall_mem_cons.mp hTop
    have hMore := ih hRest
    unfold emitSubtract at hMore ⊢
    rw [List.flatMap_cons, cells_append, cells_cons, List.filter_append, hMore]
    congr 1
    dsimp only
    -- The range can be clipped to that of the extent.
    have hClip : (e.cells.filter fun x => inRange lo hi x && !masked mask x) =
        e.cells.filter fun x => inRange (max e.offset lo) (min e.stop hi) x && !masked mask x := by
      apply List.filter_congr
      rintro ⟨b, p, fl⟩ hx
      obtain ⟨⟨hb, hb'⟩, -⟩ := mem_extent_cells.mp hx
      rw [Bool.eq_iff_iff, Bool.and_eq_true, Bool.and_eq_true, inRange_iff, inRange_iff]
      dsimp only
      constructor
      · exact fun hIn => ⟨by omega, hIn.2⟩
      · exact fun hIn => ⟨by omega, hIn.2⟩
    rw [hClip]
    by_cases hNone : min e.stop hi ≤ max e.offset lo
    · rw [if_pos hNone, cells_nil, eq_comm, List.filter_eq_nil_iff]
      intro x _ hIn
      rw [Bool.and_eq_true, inRange_iff] at hIn
      omega
    · rw [if_neg hNone, cells_subtractMask (Nat.min_le_left _ _) (by omega) hOrd
        (Nat.le_max_left _ _)]

end Briefs.File
