import Briefs.Btree.Convert

/-!
# BrieFS — rebuilding an extent list

`briefs_rebuild_extent_list` (`file.c`) frees the node blocks of the old tree
(`briefs_btree_free_nodes_only`), makes the inode inline and empty, and inserts the
given extents one after the other.

Every separator of the new tree is the offset of an extent that was inserted before,
so an extent that overlaps none of the others never reaches over one, in whatever
order the list is given.

## Results

* `freeNodesOnly_spec` — only node blocks are freed.
* `rebuildExtentList_spec` — the inode holds the new list.
-/

namespace Briefs.Btree

open Briefs.Journal

--
-- The code
--

/-- The calls for the children of a node, with the guard `cap` passed along. -/
def freeChildren (free : File → Nat → Nat → Option (File × Nat)) :
    List Nat → File → Nat → Option (File × Nat)
  | [], f, cap => some (f, cap)
  | child :: rest, f, cap =>
    match free f cap child with
    | none => none
    | some (f, cap) => freeChildren free rest f cap

/-- `btree_free_nodes_only_subtree` with `fuel` levels left. -/
def freeNodesSubtree : Nat → File → Nat → Nat → Option (File × Nat)
  | 0, _, _, _ => none
  | fuel + 1, f, cap, block =>
    if block = 0 ∨ cap = 0 then some (f, cap)
    else
      match readNode f.nodes block with
      | none => some (f, cap - 1)
      | some (.leaf _) => some (f.freeNode block, cap - 1)
      | some (.internal idx tr) =>
        match freeChildren (freeNodesSubtree fuel) (childList idx tr) f (cap - 1) with
        | none => none
        | some (f, cap) => some (f.freeNode block, cap)

/-- `briefs_btree_free_nodes_only`. -/
def freeNodesOnly (fuel : Nat) (f : File) : Option File :=
  if f.indexed = false ∨ f.root = 0 then some f
  else (freeNodesSubtree fuel f (min (f.total + 16) (2 ^ 20)) f.root).map Prod.fst

/-- `briefs_rebuild_extent_list`. -/
def rebuildExtentList (fuel : Nat) (f : File) (exts : List Extent) : Option (Option Errno × File) :=
  match freeNodesOnly fuel f with
  | none => none
  | some f => insertAll fuel exts f.reset

--
-- Freeing the nodes
--

/-- Some of the blocks `bl` were freed, and nothing else happened. -/
structure Freed (f f' : File) (bl : List Nat) : Prop where
  nodes     : f'.nodes = f.nodes
  dataStart : f'.dataStart = f.dataStart
  free      : ∀ rel, f'.alloc.isFree rel = true → f.alloc.isFree rel = true ∨ f.dataStart + rel ∈ bl
  sound     : f.alloc.Healthy → f'.alloc.Healthy
  stays     : ∀ rel, f.alloc.isFree rel = true → f'.alloc.isFree rel = true

section Freed

variable {f f' f'' : File} {bl bl' : List Nat}

theorem Freed.refl (f : File) (bl : List Nat) : Freed f f bl :=
  ⟨rfl, rfl, fun _ h => Or.inl h, fun h => h, fun _ h => h⟩

theorem Freed.append (h : Freed f f' bl) (h' : Freed f' f'' bl') : Freed f f'' (bl ++ bl') := by
  refine ⟨h'.nodes.trans h.nodes, h'.dataStart.trans h.dataStart, ?_, fun hs => h'.sound (h.sound hs),
    fun rel hFree => h'.stays rel (h.stays rel hFree)⟩
  intro rel hFree
  rcases h'.free rel hFree with hFree | hIn
  · rcases h.free rel hFree with hOld | hIn
    · exact Or.inl hOld
    · exact Or.inr (List.mem_append_left _ hIn)
  · rw [h.dataStart] at hIn
    exact Or.inr (List.mem_append_right _ hIn)

theorem Freed.freeNode (h : Freed f f' bl) {block : Nat} (hData : f.dataStart < block) :
    Freed f (f'.freeNode block) (block :: bl) := by
  refine ⟨h.nodes, h.dataStart, ?_, fun hs => (h.sound hs).freeBlock ?_, ?_⟩
  · intro rel hFree
    rcases freeNode_isFree (h.dataStart ▸ hData) hFree with hFree | hEq
    · rcases h.free rel hFree with hOld | hIn
      · exact Or.inl hOld
      · exact Or.inr (List.mem_cons_of_mem _ hIn)
    · rw [h.dataStart] at hEq
      rw [hEq]
      exact Or.inr List.mem_cons_self
  · rw [h.dataStart]
    omega
  · intro rel hFree
    show (f'.alloc.freeBlock _).isFree rel = true
    rw [Alloc.isFree_freeBlock, h.stays rel hFree, Bool.true_or]

theorem freeChildren_spec {d : Nat} {free : File → Nat → Nat → Option (File × Nat)} {tr hi : Nat}
    (hFree : ∀ {f : File} (cap : Nat) {block lo hi : Nat} {c : Content},
      Sub f.nodes d block lo hi c → (∀ b ∈ c.blocks, f.dataStart < b) →
      ∃ f' cap', free f cap block = some (f', cap') ∧ Freed f f' c.blocks) :
    ∀ {idx : List IdxEntry} {f : File} (cap : Nat) {lo : Nat} {c : Content},
      Kids (Child f.nodes d) tr idx lo hi c → (∀ b ∈ c.blocks, f.dataStart < b) →
      ∃ f' cap', freeChildren free (childList idx tr) f cap = some (f', cap') ∧ Freed f f' c.blocks
  | [], f, cap, lo, c, h, hData => by
    obtain ⟨f', cap', hRun, hFreed⟩ := hFree cap h.2 hData
    refine ⟨f', cap', ?_, hFreed⟩
    show freeChildren free [tr] f cap = some (f', cap')
    unfold freeChildren
    rw [hRun]
    rfl
  | e :: idx, f, cap, lo, c, h, hData => by
    obtain ⟨c₁, c₂, rfl, hFirst, hRest⟩ := h
    obtain ⟨f1, cap1, hRun, hFreed⟩ := hFree cap hFirst.2
      fun b hb => hData b (List.mem_append_left _ hb)
    have hRest1 : Kids (Child f1.nodes d) tr idx e.highKey hi c₂ := by
      rw [hFreed.nodes]
      exact hRest
    obtain ⟨f2, cap2, hRun2, hFreed2⟩ := freeChildren_spec hFree cap1 hRest1 fun b hb => by
      rw [hFreed.dataStart]
      exact hData b (List.mem_append_right _ hb)
    refine ⟨f2, cap2, ?_, hFreed.append hFreed2⟩
    show freeChildren free (e.child :: childList idx tr) f cap = some (f2, cap2)
    unfold freeChildren
    rw [hRun]
    exact hRun2

theorem freeNodesSubtree_spec (fuel : Nat) : ∀ (d : Nat) {f : File} (cap : Nat) {block lo hi : Nat}
    {c : Content}, Sub f.nodes d block lo hi c → (∀ b ∈ c.blocks, f.dataStart < b) →
    ∃ f' cap', freeNodesSubtree (d + 1 + fuel) f cap block = some (f', cap') ∧ Freed f f' c.blocks
  | 0, f, cap, block, lo, hi, c, h, hData => by
    have hFuel : 0 + 1 + fuel = fuel + 1 := by omega
    obtain ⟨hPos, hNode, hBlocks, -, hLeaf⟩ := h
    rw [hBlocks] at hData ⊢
    rw [hFuel]
    unfold freeNodesSubtree
    by_cases hCap : block = 0 ∨ cap = 0
    · rw [if_pos hCap]
      exact ⟨f, cap, rfl, Freed.refl f _⟩
    · rw [if_neg hCap, readNode_of_le hNode hLeaf.fanout]
      exact ⟨_, _, rfl, (Freed.refl f []).freeNode (hData block List.mem_cons_self)⟩
  | d + 1, f, cap, block, lo, hi, c, h, hData => by
    have hFuel : d + 1 + 1 + fuel = (d + 1 + fuel) + 1 := by omega
    obtain ⟨hPos, idx, tr, kids, hNode, hKeys, rfl, hKids⟩ := h
    rw [hFuel]
    unfold freeNodesSubtree
    by_cases hCap : block = 0 ∨ cap = 0
    · rw [if_pos hCap]
      exact ⟨f, cap, rfl, Freed.refl f _⟩
    · rw [if_neg hCap, readNode_of_le hNode hKeys]
      dsimp only
      obtain ⟨f', cap', hRun, hFreed⟩ := freeChildren_spec (freeNodesSubtree_spec fuel d) (cap - 1)
        hKids fun b hb => hData b (List.mem_cons_of_mem _ hb)
      rw [hRun]
      exact ⟨_, _, rfl, hFreed.freeNode (hData block List.mem_cons_self)⟩

/-- `briefs_btree_free_nodes_only` frees node blocks only. -/
theorem freeNodesOnly_spec {c : Content} (h : Holds f c) {fuel : Nat} (hFuel : 10 ≤ fuel) :
    ∃ f', freeNodesOnly fuel f = some f' ∧ Freed f f' c.blocks := by
  unfold freeNodesOnly
  by_cases hSkip : f.indexed = false ∨ f.root = 0
  · rw [if_pos hSkip]
    exact ⟨f, rfl, Freed.refl f _⟩
  · rw [if_neg hSkip]
    have hIdx : f.indexed = true := by
      by_contra hNo
      exact hSkip (Or.inl (by simpa using hNo))
    obtain ⟨d, hSub⟩ := h.tree hIdx
    have hDepth := hSub.depth_le (Nat.le_refl _)
    have hFuelEq : fuel = d + 1 + (fuel - (d + 1)) := by omega
    have hData : ∀ b ∈ c.blocks, f.dataStart < b := by
      intro b hb
      obtain ⟨rel, hRel, rfl, -⟩ := h.owned b hb
      omega
    obtain ⟨f', cap', hRun, hFreed⟩ := freeNodesSubtree_spec (fuel - (d + 1)) d
      (min (f.total + 16) (2 ^ 20)) hSub hData
    rw [← hFuelEq] at hRun
    rw [hRun]
    exact ⟨f', rfl, hFreed⟩

end Freed

--
-- The new list
--

section Rebuild

variable {f : File} {c : Content} {exts : List Extent}

/-- What `briefs_rebuild_extent_list` leaves. -/
structure Rebuilt (f : File) (exts : List Extent) (code : Option Errno) (f' : File) (c' : Content) :
    Prop where
  holds  : Holds f' c'
  owns   : Owns f' c'.blocks (cells c'.exts)
  tidy   : Distinct (cells exts) → NoCross c'
  done   : code = none → (cells c'.exts).Perm (cells exts)
  source : ∀ x ∈ cells c'.exts, x ∈ cells exts
  clash  : code = some .eexist → ¬ Distinct (cells exts)
  codes  : code = none ∨ code = some .eexist ∨ code = some .enospc
  total  : f'.total = c'.exts.length
  tail   : ∀ e ∈ c'.exts, e.stop ≤ f'.maxEnd

theorem rebuildExtentList_spec (h : Holds f c) (hOwns : Owns f c.blocks (cells exts))
    (hFits : ∀ e ∈ exts, 0 < e.len ∧ e.stop < fileTop) {fuel : Nat} (hFuel : 10 ≤ fuel) :
    ∃ code f' c', rebuildExtentList fuel f exts = some (code, f') ∧ Rebuilt f exts code f' c' := by
  obtain ⟨f1, hRun, hFreed⟩ := freeNodesOnly_spec h hFuel
  have hHolds := holds_reset (hFreed.sound h.sound)
  -- the data blocks are no nodes, so they are still taken
  have hOwns1 : Owns f1.reset Content.none.blocks (cells Content.none.exts ++ cells exts) := by
    refine ⟨fun x hx => ?_, fun x hx => List.not_mem_nil, hOwns.once⟩
    obtain ⟨rel, hRel, hEq, hTaken⟩ := hOwns.taken x hx
    refine ⟨rel, hRel, hEq.trans (congrArg (· + rel) hFreed.dataStart.symm), ?_⟩
    show f1.alloc.isFree rel = false
    by_contra hFree
    rcases hFreed.free rel (by simpa using hFree) with hWas | hIn
    · rw [hTaken] at hWas
      exact absurd hWas (by decide)
    · exact hOwns.apart x hx (hEq ▸ hIn)
  obtain ⟨code, f', c', hEq, hb⟩ := insertAll_spec hFuel exts hHolds hOwns1 hFits
  refine ⟨code, f', c', ?_, ?_⟩
  · unfold rebuildExtentList
    rw [hRun]
    exact hEq
  · exact ⟨hb.holds, hb.owns, fun hDist => hb.tidy nofun hDist nofun, fun hCode => hb.done hCode,
      fun x hx => (hb.source x hx).resolve_left List.not_mem_nil, fun hCode => hb.clash hCode,
      hb.codes, hb.total rfl, hb.tail nofun⟩

end Rebuild

end Briefs.Btree
