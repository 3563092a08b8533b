import Briefs.Btree.Insert

/-!
# BrieFS — insertion into a sorted extent list

`insertExtent` on a list that is ordered and disjoint. The overlap test starts
at the entry before the slot and stops at the first entry behind the new
extent, which is enough for such a list.

## Results

* `mem_of_lookupLeaf`, `lookupLeaf_of_mem` — lookup in an ordered list finds the
  extent that covers the block.
* `ordered_insertExtent` — insertion keeps the list ordered.
* `mapped_insertExtent` — insertion keeps the physical block of every file block
  that was mapped.
-/

namespace Briefs.Btree

open Briefs.Journal

/-- Ordered by offset, without overlap. -/
def Ordered (extents : List Extent) : Prop :=
  extents.Pairwise fun a b => a.stop ≤ b.offset

theorem Extent.offset_le_stop (e : Extent) : e.offset ≤ e.stop := Nat.le_add_right _ _

theorem mem_of_lookupLeaf {iblock : Nat} {extents : List Extent} {e : Extent}
    (h : lookupLeaf iblock extents = some e) : e ∈ extents ∧ e.covers iblock := by
  induction extents with
  | nil => cases h
  | cons x rest ih =>
    unfold lookupLeaf at h
    split at h
    · rename_i hCov
      cases h
      exact ⟨List.mem_cons_self, hCov⟩
    · split at h
      · cases h
      · obtain ⟨hMem, hCov⟩ := ih h
        exact ⟨List.mem_cons_of_mem _ hMem, hCov⟩

theorem lookupLeaf_of_mem {iblock : Nat} {extents : List Extent} {e : Extent}
    (hOrd : Ordered extents) (hMem : e ∈ extents) (hCov : e.covers iblock) :
    lookupLeaf iblock extents = some e := by
  unfold Ordered at hOrd
  induction extents with
  | nil => cases hMem
  | cons x rest ih =>
    rw [List.pairwise_cons] at hOrd
    unfold lookupLeaf
    rcases List.mem_cons.mp hMem with rfl | hMem
    · rw [if_pos hCov]
    · -- an earlier entry ends before `e` starts
      have hStop := hOrd.1 e hMem
      have hOff := x.offset_le_stop
      have hLo := hCov.1
      have hNot : ¬ x.covers iblock := by
        intro hx
        have hHi := hx.2
        omega
      rw [if_neg hNot, if_neg (by omega)]
      exact ih hOrd.2 hMem

--
-- The slot
--

theorem offset_le_of_mem_take {extents : List Extent} {offset : Nat} :
    ∀ e ∈ extents.take (findPos extents offset), e.offset ≤ offset := by
  intro e he
  obtain ⟨i, hi, hGet⟩ := List.mem_take_iff_getElem.mp he
  have hLt : i < extents.findIdx fun e => decide (offset < e.offset) := by
    unfold findPos at hi
    omega
  have hNot := List.not_of_lt_findIdx hLt
  rw [hGet] at hNot
  simpa using hNot

theorem lt_offset_of_mem_drop {extents : List Extent} {offset : Nat} (hOrd : Ordered extents) :
    ∀ e ∈ extents.drop (findPos extents offset), offset < e.offset := by
  intro e he
  have hLen : findPos extents offset < extents.length := by
    by_contra hGe
    rw [List.drop_eq_nil_of_le (by omega)] at he
    cases he
  have hFirst : offset < (extents[findPos extents offset]).offset := by
    have hAt := List.findIdx_getElem (p := fun e : Extent => decide (offset < e.offset)) (w := hLen)
    exact of_decide_eq_true hAt
  rw [List.drop_eq_getElem_cons hLen] at he
  rcases List.mem_cons.mp he with rfl | he
  · exact hFirst
  · have hDrop : Ordered (extents.drop (findPos extents offset)) :=
      List.Pairwise.sublist (List.drop_sublist _ _) hOrd
    rw [List.drop_eq_getElem_cons hLen] at hDrop
    have hStop := (List.pairwise_cons.mp hDrop).1 e he
    have hOff := (extents[findPos extents offset]).offset_le_stop
    omega

theorem findPos_le_length (extents : List Extent) (offset : Nat) :
    findPos extents offset ≤ extents.length := List.findIdx_le_length

theorem stop_le_of_overlapScan {ext : Extent} {extents : List Extent} (hOrd : Ordered extents)
    (hGt : ∀ e ∈ extents, ext.offset < e.offset) (h : overlapScan ext extents = false) :
    ∀ e ∈ extents, ext.stop ≤ e.offset := by
  cases extents with
  | nil =>
    intro e he
    cases he
  | cons x rest =>
    have hFirst : ext.stop ≤ x.offset := by
      by_contra hLt
      unfold overlapScan at h
      have hx := hGt x List.mem_cons_self
      have hStop := x.offset_le_stop
      rw [if_neg hLt, if_pos (by omega)] at h
      cases h
    intro e he
    rcases List.mem_cons.mp he with rfl | he
    · exact hFirst
    · have hNext := (List.pairwise_cons.mp hOrd).1 e he
      have hStop := x.offset_le_stop
      omega

/-- The overlap test leaves the new extent alone in its gap. -/
theorem slot_clear {ext : Extent} {extents : List Extent} (hOrd : Ordered extents)
    (hLen : 0 < ext.len)
    (hScan : overlapScan ext (extents.drop (findPos extents ext.offset - 1)) = false) :
    (∀ e ∈ extents.take (findPos extents ext.offset), e.stop ≤ ext.offset) ∧
      ∀ e ∈ extents.drop (findPos extents ext.offset), ext.stop ≤ e.offset := by
  have hBefore : ∀ e ∈ extents.take (findPos extents ext.offset), e.offset ≤ ext.offset :=
    offset_le_of_mem_take
  have hAfter : ∀ e ∈ extents.drop (findPos extents ext.offset), ext.offset < e.offset :=
    lt_offset_of_mem_drop hOrd
  have hBound := findPos_le_length extents ext.offset
  generalize findPos extents ext.offset = pos at hScan hBefore hAfter hBound ⊢
  have hDrop : ∀ k, Ordered (extents.drop k) := fun k =>
    List.Pairwise.sublist (List.drop_sublist _ _) hOrd
  cases pos with
  | zero =>
    refine ⟨fun e he => by simp at he, ?_⟩
    exact stop_le_of_overlapScan (hDrop 0) hAfter hScan
  | succ k =>
    have hk : k < extents.length := by omega
    rw [Nat.add_sub_cancel, List.drop_eq_getElem_cons hk] at hScan
    have hTake : extents.take (k + 1) = extents.take k ++ [extents[k]] :=
      List.take_succ_eq_append_getElem hk
    have hMem : extents[k] ∈ extents.take (k + 1) := by
      rw [hTake]
      exact List.mem_append_right _ (List.mem_singleton_self _)
    have hLast : (extents[k]).offset ≤ ext.offset := hBefore _ hMem
    have hExt : ext.offset < ext.stop := Nat.lt_add_of_pos_right hLen
    unfold overlapScan at hScan
    rw [if_neg (by omega)] at hScan
    split at hScan
    · cases hScan
    rename_i hClear
    refine ⟨?_, stop_le_of_overlapScan (hDrop _) hAfter hScan⟩
    intro e he
    rw [hTake, List.mem_append, List.mem_singleton] at he
    rcases he with he | rfl
    · have hTakeOrd : Ordered (extents.take (k + 1)) :=
        List.Pairwise.sublist (List.take_sublist _ _) hOrd
      rw [hTake] at hTakeOrd
      have hNext := (List.pairwise_append.mp hTakeOrd).2.2 e he (extents[k]) (by simp)
      have hStop := (extents[k]).offset_le_stop
      omega
    · omega

--
-- Insertion
--

/-- What an insertion does: it enlarges the entry before the slot, or the one
after it, or takes the slot. -/
theorem insertExtent_cases {extents extents' : List Extent} {ext : Extent} {added : Bool}
    (h : insertExtent extents ext = .ok (added, extents')) :
    ∃ l r, extents = l ++ r ∧ l = extents.take (findPos extents ext.offset) ∧
      r = extents.drop (findPos extents ext.offset) ∧
      overlapScan ext (extents.drop (findPos extents ext.offset - 1)) = false ∧
      ((∃ l' left, l = l' ++ [left] ∧ adjoins left ext = true ∧ added = false ∧
          extents' = l' ++ { left with len := left.len + ext.len } :: r) ∨
        (∃ right r', r = right :: r' ∧ adjoins ext right = true ∧ added = false ∧
          extents' = l ++ { right with
            offset := ext.offset, phys := ext.phys, len := right.len + ext.len } :: r') ∨
        (added = true ∧ extents' = l ++ ext :: r)) := by
  refine ⟨_, _, (List.take_append_drop (findPos extents ext.offset) extents).symm, rfl, rfl, ?_⟩
  have hBound := findPos_le_length extents ext.offset
  unfold insertExtent at h
  generalize findPos extents ext.offset = pos at h hBound ⊢
  dsimp only at h
  split at h
  · cases h
  rename_i hScan
  refine ⟨by simpa using hScan, ?_⟩
  split at h
  · rename_i left hLeft
    obtain ⟨hLast, hAdj⟩ := Option.filter_eq_some_iff.mp hLeft
    injection h with h
    injection h with hAdded hList
    refine .inl ⟨extents.take (pos - 1), left, ?_, hAdj, hAdded.symm, hList.symm⟩
    have hSplit := List.dropLast_append_getLast? left hLast
    have hDrop : (extents.take pos).dropLast = extents.take (pos - 1) := by
      rw [List.dropLast_eq_take, List.length_take, List.take_take]
      congr 1
      omega
    rw [← hDrop, hSplit]
  · rename_i right hLeft hRight
    obtain ⟨hHead, hAdj⟩ := Option.filter_eq_some_iff.mp hRight
    injection h with h
    injection h with hAdded hList
    refine .inr (.inl ⟨right, extents.drop (pos + 1), ?_, hAdj, hAdded.symm, hList.symm⟩)
    have hTail : (extents.drop pos).tail = extents.drop (pos + 1) := List.tail_drop
    rw [← hTail]
    exact List.eq_cons_of_mem_head? hHead
  · injection h with h
    injection h with hAdded hList
    exact .inr (.inr ⟨hAdded.symm, hList.symm⟩)

theorem adjoins_iff {a b : Extent} : adjoins a b = true ↔
    a.offset + a.len = b.offset ∧ a.phys + a.len = b.phys ∧ a.flags = b.flags := by
  unfold adjoins
  simp only [Bool.and_eq_true, beq_iff_eq, and_assoc]

/-- An extent that takes a slot adjoins neither neighbour. -/
theorem insertExtent_apart {extents extents' : List Extent} {ext : Extent}
    (h : insertExtent extents ext = .ok (true, extents')) :
    (∀ x, (extents.take (findPos extents ext.offset)).getLast? = some x → adjoins x ext ≠ true) ∧
      ∀ x, (extents.drop (findPos extents ext.offset)).head? = some x → adjoins ext x ≠ true := by
  unfold insertExtent at h
  generalize findPos extents ext.offset = pos at h ⊢
  dsimp only at h
  split at h
  · cases h
  split at h
  · cases h
  · cases h
  · rename_i hLeft hRight
    exact ⟨fun x hx => Option.filter_eq_none_iff.mp hLeft x hx,
      fun x hx => Option.filter_eq_none_iff.mp hRight x hx⟩

/-- An extent is merged when an entry adjoins it. -/
theorem insertExtent_merges {extents extents' : List Extent} {ext : Extent} {added : Bool}
    (hOrd : Ordered extents) (hPos : ∀ e ∈ extents, 0 < e.len) (hLen : 0 < ext.len)
    (h : insertExtent extents ext = .ok (added, extents')) :
    added = false ↔ ∃ x ∈ extents, adjoins x ext = true ∨ adjoins ext x = true := by
  obtain ⟨l, r, hSplit, hl, hr, hScan, hCases⟩ := insertExtent_cases h
  obtain ⟨hBefore, hAfter⟩ := slot_clear hOrd hLen hScan
  rw [← hl] at hBefore
  rw [← hr] at hAfter
  constructor
  · rintro rfl
    rcases hCases with ⟨l', left, rfl, hAdj, -⟩ | ⟨right, r', rfl, hAdj, -⟩ | ⟨hNo, -⟩
    · exact ⟨left, by simp [hSplit], Or.inl hAdj⟩
    · exact ⟨right, by simp [hSplit], Or.inr hAdj⟩
    · cases hNo
  · rintro ⟨x, hx, hAdj⟩
    cases added with
    | false => rfl
    | true =>
      obtain ⟨hLeft, hRight⟩ := insertExtent_apart h
      rw [← hl] at hLeft
      rw [← hr] at hRight
      rw [hSplit] at hOrd hPos hx
      obtain ⟨hOrdL, hOrdR, -⟩ := List.pairwise_append.mp hOrd
      have hxLen := hPos x hx
      -- what adjoins the extent is the neighbour of the slot
      have hEnd : ext.stop = ext.offset + ext.len := rfl
      rcases List.mem_append.mp hx with hIn | hIn
      · have hStop := hBefore x hIn
        have hEndX : x.stop = x.offset + x.len := rfl
        rcases hAdj with hAdj | hAdj
        · have hOff := (adjoins_iff.mp hAdj).1
          obtain ⟨l', y, rfl⟩ : ∃ l' y, l = l' ++ [y] :=
            ⟨_, _, (List.dropLast_append_getLast (List.ne_nil_of_mem hIn)).symm⟩
          rcases List.mem_append.mp hIn with hIn | hIn
          · have hNext := (List.pairwise_append.mp hOrdL).2.2 x hIn y List.mem_cons_self
            have hyStop := hBefore y (by simp)
            have hyLen := hPos y (by simp)
            have hEndY : y.stop = y.offset + y.len := rfl
            omega
          · obtain rfl := List.mem_singleton.mp hIn
            exact absurd hAdj (hLeft x (by simp))
        · have hOff := (adjoins_iff.mp hAdj).1
          omega
      · have hStart := hAfter x hIn
        rcases hAdj with hAdj | hAdj
        · have hOff := (adjoins_iff.mp hAdj).1
          omega
        · have hOff := (adjoins_iff.mp hAdj).1
          cases r with
          | nil => cases hIn
          | cons y r =>
            rcases List.mem_cons.mp hIn with rfl | hIn
            · exact absurd hAdj (hRight x rfl)
            · have hNext := (List.pairwise_cons.mp hOrdR).1 x hIn
              have hyStart := hAfter y List.mem_cons_self
              have hyLen := hPos y (by simp)
              have hEndY : y.stop = y.offset + y.len := rfl
              omega

/-- Insertion keeps the list ordered. -/
theorem ordered_insertExtent {extents extents' : List Extent} {ext : Extent} {added : Bool}
    (hOrd : Ordered extents) (hLen : 0 < ext.len)
    (h : insertExtent extents ext = .ok (added, extents')) : Ordered extents' := by
  obtain ⟨l, r, hSplit, hl, hr, hScan, hCases⟩ := insertExtent_cases h
  obtain ⟨hBefore, hAfter⟩ := slot_clear hOrd hLen hScan
  rw [← hl] at hBefore
  rw [← hr] at hAfter
  rw [hSplit] at hOrd
  obtain ⟨hL, hR, hLR⟩ := List.pairwise_append.mp hOrd
  have hExt : ext.stop = ext.offset + ext.len := rfl
  rcases hCases with ⟨l', left, rfl, hAdj, -, rfl⟩ | ⟨right, r', rfl, hAdj, -, rfl⟩ | ⟨-, rfl⟩
  · obtain ⟨hOff, -, -⟩ := adjoins_iff.mp hAdj
    obtain ⟨hL', -, hLeft⟩ := List.pairwise_append.mp hL
    refine List.pairwise_append.mpr ⟨hL', List.pairwise_cons.mpr ⟨?_, hR⟩, ?_⟩
    · intro e he
      have hNext := hAfter e he
      show left.offset + (left.len + ext.len) ≤ e.offset
      omega
    · intro a ha b hb
      rcases List.mem_cons.mp hb with rfl | hb
      · exact hLeft a ha left (List.mem_singleton_self _)
      · exact hLR a (List.mem_append_left _ ha) b hb
  · obtain ⟨hOff, -, -⟩ := adjoins_iff.mp hAdj
    obtain ⟨hRight, hR'⟩ := List.pairwise_cons.mp hR
    refine List.pairwise_append.mpr ⟨hL, List.pairwise_cons.mpr ⟨?_, hR'⟩, ?_⟩
    · intro e he
      have hNext : right.offset + right.len ≤ e.offset := hRight e he
      show ext.offset + (right.len + ext.len) ≤ e.offset
      omega
    · intro a ha b hb
      rcases List.mem_cons.mp hb with rfl | hb
      · exact hBefore a ha
      · exact hLR a ha b (List.mem_cons_of_mem _ hb)
  · refine List.pairwise_append.mpr ⟨hL, List.pairwise_cons.mpr ⟨hAfter, hR⟩, ?_⟩
    intro a ha b hb
    rcases List.mem_cons.mp hb with rfl | hb
    · exact hBefore a ha
    · exact hLR a ha b hb

/-- An entry survives an insertion, or an entry that contains it takes its
place. -/
theorem mem_insertExtent {extents extents' : List Extent} {ext e : Extent} {added : Bool}
    (h : insertExtent extents ext = .ok (added, extents')) (he : e ∈ extents) :
    ∃ e' ∈ extents', ∀ b, e.covers b → e'.covers b ∧ e'.physAt b = e.physAt b := by
  obtain ⟨l, r, hSplit, -, -, -, hCases⟩ := insertExtent_cases h
  rw [hSplit, List.mem_append] at he
  have hKeep : ∀ x : Extent, e = x → ∀ b, e.covers b → x.covers b ∧ x.physAt b = e.physAt b := by
    rintro x rfl b hb
    exact ⟨hb, rfl⟩
  rcases hCases with ⟨l', left, rfl, hAdj, -, rfl⟩ | ⟨right, r', rfl, hAdj, -, rfl⟩ | ⟨-, rfl⟩
  · rw [List.mem_append, List.mem_singleton] at he
    rcases he with (he | rfl) | he
    · exact ⟨e, List.mem_append_left _ he, hKeep e rfl⟩
    · refine ⟨_, List.mem_append_right _ List.mem_cons_self, ?_⟩
      rintro b ⟨hLo, hHi⟩
      unfold Extent.stop at hHi
      refine ⟨⟨hLo, ?_⟩, rfl⟩
      show b < e.offset + (e.len + ext.len)
      omega
    · exact ⟨e, List.mem_append_right _ (List.mem_cons_of_mem _ he), hKeep e rfl⟩
  · obtain ⟨hOff, hPhys, -⟩ := adjoins_iff.mp hAdj
    rw [List.mem_cons] at he
    rcases he with he | rfl | he
    · exact ⟨e, List.mem_append_left _ he, hKeep e rfl⟩
    · refine ⟨_, List.mem_append_right _ List.mem_cons_self, ?_⟩
      rintro b ⟨hLo, hHi⟩
      unfold Extent.stop at hHi
      refine ⟨⟨?_, ?_⟩, ?_⟩
      · show ext.offset ≤ b
        omega
      · show b < ext.offset + (e.len + ext.len)
        omega
      · show ext.phys + (b - ext.offset) = e.phys + (b - e.offset)
        omega
    · exact ⟨e, List.mem_append_right _ (List.mem_cons_of_mem _ he), hKeep e rfl⟩
  · rcases he with he | he
    · exact ⟨e, List.mem_append_left _ he, hKeep e rfl⟩
    · exact ⟨e, List.mem_append_right _ (List.mem_cons_of_mem _ he), hKeep e rfl⟩

/-- Insertion keeps the physical block of every block that was mapped. -/
theorem mapped_insertExtent {extents extents' : List Extent} {ext e : Extent} {added : Bool}
    {iblock : Nat} (hOrd : Ordered extents) (hLen : 0 < ext.len)
    (h : insertExtent extents ext = .ok (added, extents'))
    (hLook : lookupLeaf iblock extents = some e) :
    ∃ e', lookupLeaf iblock extents' = some e' ∧ e'.physAt iblock = e.physAt iblock := by
  obtain ⟨hMem, hCov⟩ := mem_of_lookupLeaf hLook
  obtain ⟨e', hMem', hKeep⟩ := mem_insertExtent h hMem
  obtain ⟨hCov', hPhys⟩ := hKeep iblock hCov
  exact ⟨e', lookupLeaf_of_mem (ordered_insertExtent hOrd hLen h) hMem' hCov', hPhys⟩

end Briefs.Btree
