import Briefs.Btree.Runs

/-!
# BrieFS — what an extent operation leaves alone

The blocks of other inodes: whatever is taken and is no node of the tree is still taken
after a batch of insertions or a rebuild, has the same content, and has not become a node.

## Results

* `insertAll_leaves` — a batch of insertions.
* `rebuildExtentList_leaves` — a rebuild.
-/

namespace Briefs.Btree

open Briefs.Journal

/-- The blocks in use outside of the tree stay as they are, while the nodes of the tree
change from `bl` to `bl'`. -/
structure Leaves (f f' : File) (bl bl' : List Nat) : Prop where
  dataStart : f'.dataStart = f.dataStart
  taken     : ∀ b, Allocated f b → b ∉ bl → Allocated f' b
  apart     : ∀ b, Allocated f b → b ∉ bl → b ∉ bl'
  nodes     : ∀ b, Allocated f b → b ∉ bl → f'.nodes b = f.nodes b

section Leaves

variable {f f' f'' : File} {bl bl' bl'' : List Nat} {c : Content} {exts : List Extent}

theorem Leaves.refl (f : File) (bl : List Nat) : Leaves f f bl bl where
  dataStart := rfl
  taken     := fun _ hTaken _ => hTaken
  apart     := fun _ _ hOut => hOut
  nodes     := fun _ _ _ => rfl

theorem Leaves.trans (h : Leaves f f' bl bl') (h' : Leaves f' f'' bl' bl'') :
    Leaves f f'' bl bl'' where
  dataStart := h'.dataStart.trans h.dataStart
  taken     := fun b hTaken hOut => h'.taken b (h.taken b hTaken hOut) (h.apart b hTaken hOut)
  apart     := fun b hTaken hOut => h'.apart b (h.taken b hTaken hOut) (h.apart b hTaken hOut)
  nodes     := fun b hTaken hOut =>
    (h'.nodes b (h.taken b hTaken hOut) (h.apart b hTaken hOut)).trans (h.nodes b hTaken hOut)

theorem Expands.leaves (h : Expands f f' bl bl') : Leaves f f' bl bl' where
  dataStart := h.dataStart
  taken     := fun _ hTaken _ => h.allocated hTaken
  apart     := fun _ hTaken hOut => h.notMem hTaken hOut
  nodes     := fun b hTaken hOut => h.nodes b (h.notMem hTaken hOut)

/-- Freeing nodes leaves no tree. -/
theorem Freed.leaves (h : Freed f f' bl) : Leaves f f'.reset bl [] where
  dataStart := h.dataStart
  taken     := by
    rintro b ⟨rel, hRel, hEq, hTaken⟩ hOut
    refine ⟨rel, hRel, hEq.trans (congrArg (· + rel) h.dataStart.symm), ?_⟩
    show f'.alloc.isFree rel = false
    by_contra hFree
    rcases h.free rel (by simpa using hFree) with hWas | hIn
    · rw [hTaken] at hWas
      cases hWas
    · exact hOut (hEq ▸ hIn)
  apart     := fun _ _ _ => List.not_mem_nil
  nodes     := fun b _ _ => congrFun h.nodes b

theorem insertAll_leaves {fuel : Nat} (hFuel : 10 ≤ fuel) : ∀ (l : List Extent) {f : File}
    {c : Content}, Holds f c → (∀ e ∈ l, 0 < e.len ∧ e.stop < fileTop) →
    ∀ {code : Option Errno} {f' : File}, insertAll fuel l f = some (code, f') →
      Leaves f f' c.blocks f'.content.blocks := by
  intro l
  induction l with
  | nil =>
    intro f c h _ code f' hEq
    obtain ⟨-, rfl⟩ := Prod.mk.inj (Option.some.inj hEq)
    rw [h.content]
    exact Leaves.refl f _
  | cons e l ih =>
    intro f c h hAll code f' hEq
    obtain ⟨⟨hLen, hStop⟩, hRest⟩ := List.forall_mem_cons.mp hAll
    obtain ⟨code1, f1, c1, hEq1, hd⟩ := insertLocked_spec h hLen hStop hFuel
    have hHere := hd.grows.leaves
    unfold insertAll at hEq
    rw [hEq1] at hEq
    cases code1 with
    | some err =>
      obtain ⟨-, rfl⟩ := Prod.mk.inj (Option.some.inj hEq)
      rw [hd.holds.content]
      exact hHere
    | none => exact hHere.trans (ih hd.holds hRest hEq)

theorem rebuildExtentList_leaves {fuel : Nat} (hFuel : 10 ≤ fuel) (h : Holds f c)
    (hFits : ∀ e ∈ exts, 0 < e.len ∧ e.stop < fileTop) {code : Option Errno}
    (hEq : rebuildExtentList fuel f exts = some (code, f')) :
    Leaves f f' c.blocks f'.content.blocks := by
  obtain ⟨f1, hRun, hFreed⟩ := freeNodesOnly_spec h hFuel
  have hHolds := holds_reset (hFreed.sound h.sound)
  unfold rebuildExtentList at hEq
  rw [hRun] at hEq
  exact hFreed.leaves.trans (insertAll_leaves hFuel exts hHolds hFits hEq)

/-- A free block stays free or becomes a node, through any number of insertions. -/
theorem insertAll_used {fuel : Nat} (hFuel : 10 ≤ fuel) : ∀ (l : List Extent) {f : File}
    {c : Content}, Holds f c → (∀ e ∈ l, 0 < e.len ∧ e.stop < fileTop) →
    ∀ {code : Option Errno} {f' : File}, insertAll fuel l f = some (code, f') →
      f'.dataStart = f.dataStart ∧ c.blocks ⊆ f'.content.blocks ∧
      ∀ rel, f.alloc.isFree rel = true →
        f'.alloc.isFree rel = true ∨ f.dataStart + rel ∈ f'.content.blocks := by
  intro l
  induction l with
  | nil =>
    intro f c h _ code f' hEq
    obtain ⟨-, rfl⟩ := Prod.mk.inj (Option.some.inj hEq)
    rw [h.content]
    exact ⟨rfl, List.Subset.refl _, fun rel hFree => Or.inl hFree⟩
  | cons e l ih =>
    intro f c h hAll code f' hEq
    obtain ⟨⟨hLen, hStop⟩, hRest⟩ := List.forall_mem_cons.mp hAll
    obtain ⟨code1, f1, c1, hEq1, hd⟩ := insertLocked_spec h hLen hStop hFuel
    unfold insertAll at hEq
    rw [hEq1] at hEq
    cases code1 with
    | some err =>
      obtain ⟨-, rfl⟩ := Prod.mk.inj (Option.some.inj hEq)
      rw [hd.holds.content]
      exact ⟨hd.grows.dataStart, hd.grows.keeps, hd.grows.used h.sound⟩
    | none =>
      obtain ⟨hStart, hKeeps, hUsed⟩ := ih hd.holds hRest hEq
      refine ⟨hStart.trans hd.grows.dataStart, List.Subset.trans hd.grows.keeps hKeeps, ?_⟩
      intro rel hFree
      rcases hd.grows.used h.sound rel hFree with hStill | hNode
      · rw [← hd.grows.dataStart]
        exact hUsed rel hStill
      · exact Or.inr (hKeeps hNode)

/-- A free block stays free through a rebuild or becomes a node. -/
theorem rebuildExtentList_used {fuel : Nat} (hFuel : 10 ≤ fuel) (h : Holds f c)
    (hFits : ∀ e ∈ exts, 0 < e.len ∧ e.stop < fileTop) {code : Option Errno}
    (hEq : rebuildExtentList fuel f exts = some (code, f')) {rel : Nat}
    (hFree : f.alloc.isFree rel = true) :
    f'.alloc.isFree rel = true ∨ f.dataStart + rel ∈ f'.content.blocks := by
  obtain ⟨f1, hRun, hFreed⟩ := freeNodesOnly_spec h hFuel
  have hHolds := holds_reset (hFreed.sound h.sound)
  unfold rebuildExtentList at hEq
  rw [hRun] at hEq
  obtain ⟨-, -, hUsed⟩ := insertAll_used hFuel exts hHolds hFits hEq
  rw [← hFreed.dataStart]
  exact hUsed rel (hFreed.stays rel hFree)

/-- Outside of the old and the new nodes a rebuild leaves the allocator alone. -/
theorem rebuildExtentList_isFree {fuel : Nat} (hFuel : 10 ≤ fuel) (h : Holds f c)
    (hFits : ∀ e ∈ exts, 0 < e.len ∧ e.stop < fileTop) {code : Option Errno}
    (hEq : rebuildExtentList fuel f exts = some (code, f')) (hSound : f'.alloc.Healthy) {rel : Nat}
    (hOld : f.dataStart + rel ∉ c.blocks) (hNew : f.dataStart + rel ∉ f'.content.blocks) :
    f'.alloc.isFree rel = true ↔ f.alloc.isFree rel = true := by
  have hLeaves := rebuildExtentList_leaves hFuel h hFits hEq
  constructor
  · intro hNow
    by_contra hTaken
    have hRel : rel ≠ 0 := by
      rintro rfl
      rw [hSound.zero] at hNow
      cases hNow
    obtain ⟨rel', -, hSame, hStill⟩ := hLeaves.taken (f.dataStart + rel)
      ⟨rel, hRel, rfl, by simpa using hTaken⟩ hOld
    rw [hLeaves.dataStart] at hSame
    have hRels : rel = rel' := by omega
    rw [hRels, hStill] at hNow
    cases hNow
  · intro hWas
    rcases rebuildExtentList_used hFuel h hFits hEq hWas with hStill | hIn
    · exact hStill
    · exact absurd hIn hNew

end Leaves

end Briefs.Btree
