import Briefs.Btree.Iomap

/-!
# BrieFS — promotion and truncation of a file

A regular file keeps up to 256 bytes in the inode (`InodeFlagInlineData`) and otherwise has
extents. `briefs_promote_inline_data` moves the bytes to a block, and the size part of
`briefs_setattr` changes the size and frees what lies past the new end (`file.c`): a range
delete for a tree, and for the inline array a new list of the extents that are kept.

The bytes, the times and the journal are left out.

## Results

* `Inode.Sound.promote`, `Inode.Sound.truncate` — both keep the extent state sound.
-/

namespace Briefs.File

open Briefs.Journal
open Briefs.Btree

--
-- The code
--

/-- A regular file: the extents, `InodeFlagInlineData` and `i_size`. -/
structure Inode where
  file       : Btree.File
  inlineData : Bool
  size       : Nat

/-- `BRIEFS_INODE_INLINE_DATA_SIZE`. -/
def inlineDataSize : Nat := 256

/-- `briefs_promote_inline_data`. -/
def Inode.promote (i : Inode) : Option Errno × Inode :=
  if i.inlineData = false then (none, i)
  else if i.size = 0 then (none, { i with inlineData := false })
  else
    match i.file.alloc.allocBlock with
    | (rel, a) =>
      if rel = 0 then (some .enospc, { i with file := { i.file with alloc := a } })
      else
        let ext : Extent := ⟨0, i.file.dataStart + rel, 1, 0⟩
        (none, { i with
          inlineData := false
          file := { i.file with
            alloc := a, inline := [ext], total := 1, root := 0, maxEnd := max i.file.maxEnd 1 } })

/-- The first block past the size. -/
def truncBlock (size : Nat) : Nat := (size + blockSize - 1) / blockSize

/-- The test of the equal-size shortcut of `briefs_setattr`. -/
def Inode.shortcut (i : Inode) (newSize : Nat) : Prop :=
  i.file.total = 0 ∨ i.file.maxEnd ≤ truncBlock newSize

instance (i : Inode) (newSize : Nat) : Decidable (i.shortcut newSize) :=
  inferInstanceAs (Decidable (_ ∨ _))

/-- One round of the loop over the inline extents: what is kept, and the data blocks from
block `t` on are freed. -/
def truncateStep (t : Nat) (e : Extent) (f : Btree.File) : List Extent × Btree.File :=
  if e.stop ≤ t then ([e], f)
  else if e.offset < t then
    ([e.head t], f.freeData (e.phys + (t - e.offset)) (e.len - (t - e.offset)))
  else ([], f.freeData e.phys e.len)

/-- The loop. -/
def truncateExts (t : Nat) : List Extent → Btree.File → List Extent × Btree.File
  | [], f => ([], f)
  | e :: rest, f =>
    let (kept, f) := truncateStep t e f
    let (out, f) := truncateExts t rest f
    (kept ++ out, f)

/-- The extents past `t` go. -/
def truncateFile (f : Btree.File) (t : Nat) : Option (Option Errno × Btree.File) :=
  if f.total = 0 then some (none, f)
  else if f.indexed then
    (deleteRange levels f t (2 ^ 64 - 1)).map fun r => (r.ret, r.file)
  else
    match truncateExts t f.inline f with
    | (kept, f) => rebuildExtentList levels f kept

/-- The size part of `briefs_setattr`. The size of a file that shrinks is set before its
extents are freed. -/
def Inode.truncate (i : Inode) (newSize : Nat) : Option (Option Errno × Inode) :=
  if newSize = i.size ∧ i.shortcut newSize then some (none, i)
  else if i.size < newSize ∧ i.inlineData = true then
    if newSize ≤ inlineDataSize then some (none, { i with size := newSize })
    else match i.promote with
      | (some err, i) => some (some err, i)
      | (none, i) => some (none, { i with size := newSize })
  else if i.size < newSize then some (none, { i with size := newSize })
  else if i.inlineData then
    some (none, { i with size := newSize, inlineData := decide (newSize ≠ 0) })
  else match truncateFile i.file (truncBlock newSize) with
    | none => none
    | some (code, f) => some (code, { i with size := newSize, file := f })

--
-- Freeing past a block
--

section Truncate

variable {f : Btree.File} {t : Nat}

/-- The loop frees like the range delete of a leaf. -/
theorem truncateStep_eq (ht : t < 2 ^ 64 - 1) {e : Extent} (hLen : 0 < e.len)
    (hPhys : 0 < e.phys) (hStop : e.stop < fileTop) (w : DeleteCtx) :
    truncateStep t e f = ((leafDeleteStep t (2 ^ 64 - 1) e f w).1,
      (leafDeleteStep t (2 ^ 64 - 1) e f w).2.1) := by
  have hEnd : e.stop = e.offset + e.len := rfl
  have hTop : fileTop = 2 ^ 64 := rfl
  unfold truncateStep leafDeleteStep
  by_cases hBefore : e.stop ≤ t
  · rw [if_pos hBefore, if_pos (Or.inl hBefore)]
  · have hIn : ¬ (e.stop ≤ t ∨ 2 ^ 64 - 1 ≤ e.offset) := by omega
    have hMin : min e.stop (2 ^ 64 - 1) = e.stop := by omega
    rw [if_neg hBefore, if_neg hIn]
    dsimp only
    rw [hMin]
    by_cases hHead : e.offset < t
    · have hMax : max e.offset t = t := by omega
      have hLeft : e.stop - t = e.len - (t - e.offset) := by omega
      have hFrees : (decide (0 < e.phys) && decide (0 < e.len) &&
          decide (0 < e.len - (t - e.offset))) = true := by
        simp only [Bool.and_eq_true, decide_eq_true_eq]
        omega
      rw [if_pos hHead, if_pos hHead, hMax, hLeft, hFrees]
      rfl
    · have hMax : max e.offset t = e.offset := by omega
      have hLeft : e.stop - e.offset = e.len := by omega
      have hFrees : (decide (0 < e.phys) && decide (0 < e.len) && decide (0 < e.len)) = true := by
        simp only [Bool.and_eq_true, decide_eq_true_eq]
        omega
      rw [if_neg hHead, if_neg hHead, hMax, hLeft, hFrees, Nat.sub_self, Nat.add_zero]
      rfl

theorem truncateExts_eq (ht : t < 2 ^ 64 - 1) : ∀ {l : List Extent} (f : Btree.File) (w : DeleteCtx),
    (∀ e ∈ l, 0 < e.len ∧ 0 < e.phys ∧ e.stop < fileTop) →
    truncateExts t l f =
      ((leafDelete t (2 ^ 64 - 1) l f w).1, (leafDelete t (2 ^ 64 - 1) l f w).2.1) := by
  intro l
  induction l with
  | nil => exact fun _ _ _ => rfl
  | cons e l ih =>
    intro f w hAll
    obtain ⟨⟨hLen, hPhys, hStop⟩, hRest⟩ := List.forall_mem_cons.mp hAll
    unfold truncateExts leafDelete
    dsimp only
    rw [truncateStep_eq ht hLen hPhys hStop w,
      ih _ (leafDeleteStep t (2 ^ 64 - 1) e f w).2.2 hRest]

/-- What promotion and truncation leave of the extents. -/
structure Kept (f g : Btree.File) : Prop where
  sound : Sound g
  tidy  : NoCross f.content → NoCross g.content
  total : NoCross f.content → f.total = f.content.exts.length → g.total = g.content.exts.length
  tail  : TailOk f.maxEnd f.content.exts → TailOk g.maxEnd g.content.exts

theorem Kept.refl (h : Sound f) : Kept f f where
  sound := h
  tidy  := fun hNo => hNo
  total := fun _ hTotal => hTotal
  tail  := fun hTail => hTail

theorem kept_of_content {g : Btree.File} {c : Content} (hHolds : Holds g c)
    (hOwns : Owns g c.blocks (cells c.exts)) (hTidy : NoCross f.content → NoCross c)
    (hTotal : NoCross f.content → f.total = f.content.exts.length → g.total = c.exts.length)
    (hTail : TailOk f.maxEnd f.content.exts → TailOk g.maxEnd c.exts) : Kept f g := by
  have hEq := hHolds.content
  exact ⟨sound_of_content hHolds hOwns, hEq.symm ▸ hTidy, hEq.symm ▸ hTotal, hEq.symm ▸ hTail⟩

/-- The data blocks of an inline array are numbered from 1 on. -/
theorem phys_pos (h : Sound f) {e : Extent} (he : e ∈ f.content.exts) : 0 < e.phys := by
  have hLen := h.holds.pos e he
  have hFirst : (e.offset, e.physAt e.offset, e.flags) ∈ cells f.content.exts := by
    apply mem_cells.mpr
    refine ⟨e, he, ⟨Nat.le_refl _, ?_⟩, rfl, rfl⟩
    show e.offset < e.offset + e.len
    omega
  obtain ⟨rel, hRel, hEq, -⟩ := h.owns.taken _ hFirst
  have hAt : e.physAt e.offset = f.dataStart + rel := hEq
  unfold Extent.physAt at hAt
  omega

/-- What the loop over the inline extents leaves: the extents before block `t`. -/
structure InlineCut (f : Btree.File) (t : Nat) (kept : List Extent) (g : Btree.File) : Prop where
  flat    : g.indexed = false
  holds   : Holds g (Content.ofExts g.inline)
  owns    : Owns g [] (cells kept)
  shrinks : Shrinks kept f.inline
  fits    : ∀ e ∈ kept, 0 < e.len ∧ e.stop < fileTop
  single  : Distinct (cells kept)
  before  : ∀ x ∈ cells kept, x.1 < t

theorem truncateExts_cut (h : Sound f) (ht : t < 2 ^ 64 - 1) (hFlat : f.indexed = false) :
    InlineCut f t (truncateExts t f.inline f).1 (truncateExts t f.inline f).2 := by
  obtain ⟨hContent, hLeaf, hEight⟩ := h.holds.flat hFlat
  have hExts : f.content.exts = f.inline := by rw [hContent]
  have hBlocks : f.content.blocks = [] := by rw [hContent]
  have hOwns : Owns f [] (cells f.inline) := hExts ▸ hBlocks ▸ h.owns
  have hEach : ∀ e ∈ f.inline, 0 < e.len ∧ 0 < e.phys ∧ e.stop < fileTop := by
    intro e he
    have hMem : e ∈ f.content.exts := hExts ▸ he
    exact ⟨hLeaf.pos e he, phys_pos h hMem, h.holds.stops e hMem⟩
  have hData : InData f (Content.ofExts f.inline) := by
    refine ⟨nofun, fun x hx => ?_⟩
    obtain ⟨rel, hRel, hEq, -⟩ := hOwns.taken x hx
    omega
  obtain ⟨ys, gone, hp⟩ := leafDelete_spec ht f.inline f ⟨[], 0, false, 0, 0, 0⟩
    (fun e he => (hEach e he).1) hData
  rw [truncateExts_eq ht f ⟨[], 0, false, 0, 0, 0⟩ hEach]
  dsimp only
  generalize leafDelete t (2 ^ 64 - 1) f.inline f ⟨[], 0, false, 0, 0, 0⟩ = r at hp
  obtain ⟨kept, g, w⟩ := r
  dsimp only at hp ⊢
  have hShrinks : Shrinks kept f.inline := hp.exts
  have hGone : g.indexed = false := hp.same.indexed.trans hFlat
  have hFits : ∀ e ∈ kept, 0 < e.len ∧ e.stop < fileTop := by
    intro e he
    obtain ⟨hPos, y, hy, hOff, -, -, hStop⟩ := hShrinks.mem e he
    have hTop := (hEach y hy).2.2
    exact ⟨hPos, by omega⟩
  refine ⟨hGone, ?_, (hp.owns hOwns).left, hShrinks, hFits,
    (hShrinks.ordered hLeaf.ordered).distinct, ?_⟩
  · have hInline := hp.same.inline
    refine ⟨fun hNo => ?_, fun _ => ⟨rfl, hInline ▸ hLeaf, hInline ▸ hEight⟩, List.nodup_nil, nofun,
      ?_, (hp.sound h.holds.sound).1⟩
    · rw [hGone] at hNo
      cases hNo
    · intro e he
      have hMem : e ∈ g.inline := he
      rw [hInline] at hMem
      exact (hEach e hMem).2.2
  · rintro ⟨b, p, fl⟩ hx
    by_contra hPast
    obtain ⟨e, he, ⟨-, hHi⟩, -⟩ := mem_cells.mp hx
    have hTop : fileTop = 2 ^ 64 := rfl
    have hStop := (hFits e he).2
    have hNo := hp.rest (b, p, fl) hx (by omega) (by show b < 2 ^ 64 - 1; omega)
    exact absurd hNo List.not_mem_nil

/-- A new list of the inline extents that are kept. -/
theorem truncateInline_spec (h : Sound f) (ht : t < 2 ^ 64 - 1) (hFlat : f.indexed = false) :
    ∃ code g, rebuildExtentList levels (truncateExts t f.inline f).2
      (truncateExts t f.inline f).1 = some (code, g) ∧ Kept f g := by
  have hCut := truncateExts_cut h ht hFlat
  obtain ⟨code, g, c', hEq, hd⟩ := rebuildExtentList_spec hCut.holds hCut.owns hCut.fits ten_le_levels
  exact ⟨code, g, hEq, kept_of_content hd.holds hd.owns (fun _ => hd.tidy hCut.single)
    (fun _ _ => hd.total) fun _ => Or.inr hd.tail⟩

theorem truncateFile_spec (h : Sound f) (ht : t < 2 ^ 64 - 1) :
    ∃ code g, truncateFile f t = some (code, g) ∧ Kept f g := by
  unfold truncateFile
  by_cases hTotal : f.total = 0
  · rw [if_pos hTotal]
    exact ⟨none, f, rfl, Kept.refl h⟩
  rw [if_neg hTotal]
  by_cases hIdx : f.indexed = true
  · -- No extent reaches past the last block number.
    have hNone : ∀ y ∈ f.content.exts, ¬ 2 ^ 64 - 1 < y.stop := by
      intro y hy
      have hStop := h.holds.stops y hy
      have hTop : fileTop = 2 ^ 64 := rfl
      omega
    obtain ⟨code, g, hEq, hDone⟩ := h.step (show Allowed f (.deleteRange t (2 ^ 64 - 1)) from trivial)
    rw [if_pos hIdx]
    refine ⟨code, g, hEq, hDone.sound, fun hNo => hDone.tidy hNo trivial, ?_, ?_⟩
    · intro hNo hLen
      exact hDone.total hNo hLen fun y hy _ hOver => absurd hOver (hNone y hy)
    · intro hTail
      exact hDone.tail hTail fun _ y hy _ hOver => absurd hOver (hNone y hy)
  · rw [if_neg hIdx]
    exact truncateInline_spec h ht (by simpa using hIdx)

end Truncate

--
-- Files
--

/-- The extents are sound, and a file with inline data has none. -/
structure Inode.Sound (i : Inode) : Prop where
  sound  : Btree.Sound i.file
  inline : i.inlineData = true → i.file.indexed = false ∧ i.file.inline = []

section Inode

variable {i : Inode}

theorem Inode.Sound.content (h : i.Sound) (hInline : i.inlineData = true) :
    i.file.content = Content.none := by
  obtain ⟨hIdx, hNil⟩ := h.inline hInline
  unfold Btree.File.content
  rw [hIdx, hNil]
  rfl

/-- The state after a promotion. -/
theorem promoted_holds (f : Btree.File) (hIdx : f.indexed = false) {a : Alloc} (hHealthy : a.Healthy)
    {rel : Nat} (hRel : rel ≠ 0) (hTaken : a.isFree rel = false) :
    let ext : Extent := ⟨0, f.dataStart + rel, 1, 0⟩
    let g := { f with
      alloc := a, inline := [ext], total := 1, root := 0, maxEnd := max f.maxEnd 1 }
    Holds g (Content.ofExts [ext]) ∧ Owns g [] (cells [ext]) := by
  intro ext g
  have hOne : ∀ x ∈ cells [ext], x.2.1 = f.dataStart + rel := by
    rintro ⟨b, p, fl⟩ hx
    obtain ⟨e, he, ⟨hLo, hHi⟩, hPhys, -⟩ := mem_cells.mp hx
    obtain rfl := List.mem_singleton.mp he
    have hStop : ext.stop = 1 := rfl
    have hAt : ext.physAt b = f.dataStart + rel + (b - 0) := rfl
    dsimp only
    omega
  constructor
  · refine ⟨fun hNo => ?_, fun _ => ⟨rfl, ⟨List.pairwise_singleton _ _, ?_, ?_, ?_⟩, ?_⟩,
      List.nodup_nil, nofun, ?_, hHealthy⟩
    · rw [show g.indexed = f.indexed from rfl, hIdx] at hNo
      cases hNo
    · intro e he
      rw [List.mem_singleton.mp he]
      exact Nat.one_pos
    · intro e he
      rw [List.mem_singleton.mp he]
      refine ⟨Nat.le_refl _, ?_⟩
      show 0 < fileTop
      decide
    · show 1 ≤ leafFanout
      decide
    · show 1 ≤ 8
      decide
    · intro e he
      rw [List.mem_singleton.mp he]
      show 0 + 1 < fileTop
      decide
  · refine ⟨fun x hx => ⟨rel, hRel, hOne x hx, hTaken⟩, fun x _ => List.not_mem_nil, ?_⟩
    show (List.map _ [(0, _, _)]).Nodup
    exact List.nodup_singleton _

/-- Promotion leaves the block of the bytes as the one extent. -/
theorem Inode.Sound.promote (h : i.Sound) :
    i.promote.2.Sound ∧ Kept i.file i.promote.2.file ∧ i.promote.2.size = i.size := by
  unfold Inode.promote
  by_cases hFlag : i.inlineData = false
  · rw [if_pos hFlag]
    exact ⟨h, Kept.refl h.sound, rfl⟩
  rw [if_neg hFlag]
  have hInline : i.inlineData = true := by simpa using hFlag
  by_cases hSize : i.size = 0
  · rw [if_pos hSize]
    exact ⟨⟨h.sound, nofun⟩, Kept.refl h.sound, rfl⟩
  rw [if_neg hSize]
  have hTook := Alloc.allocBlock_spec i.file.alloc
  have hHealthy := h.sound.holds.sound.allocBlock
  obtain ⟨hIdx, hNil⟩ := h.inline hInline
  have hNone := h.content hInline
  generalize i.file.alloc.allocBlock = r at hTook hHealthy ⊢
  obtain ⟨rel, a⟩ := r
  dsimp only at hTook hHealthy ⊢
  by_cases hRel : rel = 0
  · rw [if_pos hRel]
    have hHolds : Holds { i.file with alloc := a } Content.none := by
      have hOld := h.sound.holds
      rw [hNone] at hOld
      exact ⟨hOld.tree, hOld.flat, hOld.nodup, nofun, hOld.stops, hHealthy⟩
    have hOwns : Owns { i.file with alloc := a } [] (cells []) := ⟨nofun, nofun, List.nodup_nil⟩
    refine ⟨⟨sound_of_content hHolds hOwns, fun _ => ⟨hIdx, hNil⟩⟩, ?_, rfl⟩
    apply kept_of_content hHolds hOwns
    · exact fun _ => nofun
    · intro _ hTotal
      rw [hNone] at hTotal
      exact hTotal
    · exact fun _ => Or.inr nofun
  · rw [if_neg hRel]
    have hTaken : a.isFree rel = false := by
      rw [hTook.frame rel hRel]
      simp
    obtain ⟨hHolds, hOwns⟩ := promoted_holds i.file hIdx hHealthy hRel hTaken
    refine ⟨⟨sound_of_content hHolds hOwns, nofun⟩, ?_, rfl⟩
    apply kept_of_content hHolds hOwns
    · exact fun _ e _ k hk => absurd hk List.not_mem_nil
    · exact fun _ _ => rfl
    · intro _
      right
      intro e he
      rw [List.mem_singleton.mp he]
      exact Nat.le_max_right _ _

/-- Truncation keeps a file sound. -/
theorem Inode.Sound.truncate (h : i.Sound) {newSize : Nat} (hSize : newSize < 2 ^ 63) :
    ∃ code j, i.truncate newSize = some (code, j) ∧ j.Sound ∧ Kept i.file j.file := by
  unfold Inode.truncate
  by_cases hShort : newSize = i.size ∧ i.shortcut newSize
  · rw [if_pos hShort]
    exact ⟨none, i, rfl, h, Kept.refl h.sound⟩
  rw [if_neg hShort]
  by_cases hGrow : i.size < newSize ∧ i.inlineData = true
  · rw [if_pos hGrow]
    obtain ⟨hSound, hKept, -⟩ := h.promote
    by_cases hFits : newSize ≤ inlineDataSize
    · rw [if_pos hFits]
      exact ⟨none, _, rfl, ⟨h.sound, h.inline⟩, Kept.refl h.sound⟩
    · rw [if_neg hFits]
      generalize i.promote = r at hSound hKept
      obtain ⟨code, j⟩ := r
      cases code with
      | some err => exact ⟨some err, j, rfl, hSound, hKept⟩
      | none => exact ⟨none, _, rfl, ⟨hSound.sound, hSound.inline⟩, hKept⟩
  rw [if_neg hGrow]
  by_cases hLonger : i.size < newSize
  · rw [if_pos hLonger]
    exact ⟨none, _, rfl, ⟨h.sound, h.inline⟩, Kept.refl h.sound⟩
  rw [if_neg hLonger]
  by_cases hInline : i.inlineData = true
  · rw [if_pos hInline]
    exact ⟨none, _, rfl, ⟨h.sound, fun _ => h.inline hInline⟩, Kept.refl h.sound⟩
  rw [if_neg hInline]
  have ht : truncBlock newSize < 2 ^ 64 - 1 := by
    unfold truncBlock blockSize
    omega
  obtain ⟨code, g, hEq, hKept⟩ := truncateFile_spec h.sound ht
  rw [hEq]
  exact ⟨code, _, rfl, ⟨hKept.sound, fun hFlag => absurd hFlag hInline⟩, hKept⟩

end Inode

end Briefs.File
