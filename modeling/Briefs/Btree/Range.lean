import Briefs.Btree.Frame

/-!
# BrieFS — what a range delete removes

`briefs_btree_delete_range` may visit `num_extents_total + 16` nodes, at most 2^20. The guard
is against cycles in a corrupt tree, but a sound tree can have more nodes than that: deletes
leave leaves with one extent and internal nodes with one child. What the walk does not come to
stays mapped, and the call returns 0.

`missed` tells which extents the walk does not look at. If none of them meets the range, the
call removes exactly the range.

## Results

* `deleteRange_exact_iff` — a delete removes exactly its range if and only if the walk comes to
  every extent that meets it.
-/

namespace Briefs.Btree

open Briefs.Journal

/-- The file block lies in the range. -/
def within (start stop : Nat) (x : Nat × Nat × Nat) : Bool :=
  decide (start ≤ x.1 ∧ x.1 < stop)

/-- The call removed the blocks of the range, and nothing else. A block that it freed may be a
node by now, if the tail of an extent was put back. -/
structure RemovesRange (start stop : Nat) (f : File) (r : Deleted) (l l' : List Extent) : Prop where
  map   : (cells l').Perm ((cells l).filter fun x => !within start stop x)
  freed : ∀ x ∈ (cells l).filter (within start stop), ∀ rel, x.2.1 = f.dataStart + rel →
    rel < f.alloc.blockCount →
    r.file.alloc.isFree rel = true ∨ f.dataStart + rel ∈ r.file.content.blocks
  only  : ∀ rel, r.file.alloc.isFree rel = true → f.alloc.isFree rel = true ∨
    (∃ x ∈ (cells l).filter (within start stop), x.2.1 = f.dataStart + rel) ∨
    f.dataStart + rel ∈ f.content.blocks ∧ f.dataStart + rel ∉ r.file.content.blocks
  count : r.blocksFreed = ((cells l).filter (within start stop)).length
  total : r.file.total = l'.length
  good  : Good r.file

/-- Every extent that meets the range is one that the walk looks at. -/
def Reached (f : File) (start stop : Nat) : Prop :=
  ∀ x ∈ cells (missed f.nodes start stop levels f.nodeBudget f.root).1,
    within start stop x = false

instance (f : File) (start stop : Nat) : Decidable (Reached f start stop) :=
  inferInstanceAs (Decidable (∀ x ∈ cells _, _))

/-- The extents below one child, if the walk passes it by. -/
def skippedChild (skip all : Nat → List Extent) (start stop low high child : Nat) : List Extent :=
  if child ≠ 0 ∧ low < stop ∧ start < high then skip child else all child

def skippedChildren (skip all : Nat → List Extent) (start stop tr : Nat) :
    Nat → List IdxEntry → List Extent
  | low, [] => skippedChild skip all start stop low (2 ^ 64 - 1) tr
  | low, e :: idx => skippedChild skip all start stop low e.highKey e.child ++
      skippedChildren skip all start stop tr e.highKey idx

/-- The extents below the children that do not meet the range: what a walk without a budget
does not look at. -/
def skipped (nodes : Nodes) (start stop : Nat) : Nat → Nat → List Extent
  | 0, _ => []
  | fuel + 1, block =>
    if block = 0 then subtreeExtents nodes (fuel + 1) block
    else match readNode nodes block with
      | some (.internal idx tr) =>
        skippedChildren (skipped nodes start stop fuel) (subtreeExtents nodes fuel) start stop tr 0 idx
      | _ => []

section Exact

variable {start stop : Nat} {f f1 f2 : File} {c c1 c2 : Content} {r : Deleted} {rootEmpty : Bool}
  {w : DeleteCtx} {ys ms : List Extent} {gone : List (Nat × Nat × Nat)}

theorem within_iff {x : Nat × Nat × Nat} : within start stop x = true ↔ start ≤ x.1 ∧ x.1 < stop :=
  decide_eq_true_iff

/-- The tails lie behind the range. -/
theorem tails_after :
    ∀ x ∈ cells (ys.map (Extent.tail stop)), within start stop x = false := by
  rintro ⟨b, p, fl⟩ hx
  obtain ⟨e, he, ⟨hLo, -⟩, -⟩ := mem_cells.mp hx
  obtain ⟨y, -, rfl⟩ := List.mem_map.mp he
  have hFrom : stop ≤ b := hLo
  have hOut : ¬ (start ≤ b ∧ b < stop) := by omega
  exact decide_eq_false hOut

/-- The blocks that the put-back leaves free were free before. -/
theorem RangeRun.still_free (h : RangeRun levels start stop f c r rootEmpty f1 w c1 ys gone ms f2 c2)
    {rel : Nat} (hFree : f2.alloc.isFree rel = true) : f1.alloc.isFree rel = true := by
  have hState := afterWalk_alloc f1 rootEmpty
  have hLeaves := insertAll_leaves ten_le_levels _ h.walked h.fits h.putBack
  obtain ⟨hStart, hNodes, -⟩ := insertAll_used ten_le_levels _ h.walked h.fits h.putBack
  by_contra hTaken
  have hRel : rel ≠ 0 := by
    rintro rfl
    rw [h.batch.holds.sound.zero] at hFree
    cases hFree
  have hWas : Allocated (f1.afterWalk rootEmpty) ((f1.afterWalk rootEmpty).dataStart + rel) :=
    ⟨rel, hRel, rfl, by rw [hState.1]; simpa using hTaken⟩
  have hNow : Allocated f2 ((f1.afterWalk rootEmpty).dataStart + rel) := by
    by_cases hNode : (f1.afterWalk rootEmpty).dataStart + rel ∈ c1.blocks
    · rw [h.batch.holds.content] at hNodes
      exact h.batch.holds.owned _ (hNodes hNode)
    · exact hLeaves.taken _ hWas hNode
  obtain ⟨rel', -, hEq, hNot⟩ := hNow
  have hSame : rel' = rel := by omega
  rw [hSame, hFree] at hNot
  cases hNot

/-- What the walk took away, if it came to every extent in the range. -/
theorem RangeRun.parted (h : RangeRun levels start stop f c r rootEmpty f1 w c1 ys gone ms f2 c2)
    (hHolds : Holds f c) (hNo : NoCross c) (hReached : ∀ x ∈ cells ms, within start stop x = false) :
    ((cells c.exts).filter (within start stop)).Perm gone ∧
      ((cells c.exts).filter fun x => !within start stop x).Perm
        (cells c1.exts ++ cells (ys.map (Extent.tail stop))) := by
  have hFew : w.right.length < 4 := by
    have hOne := h.one_tail hHolds hNo
    rw [h.pruned.right, List.nil_append]
    omega
  have hGone : ∀ x ∈ gone, within start stop x = true := fun x hx =>
    within_iff.mpr (h.pruned.within hFew x hx)
  have hLeft : ∀ x ∈ cells c1.exts, within start stop x = false := by
    intro x hx
    by_contra hIn
    have hIn' := within_iff.mp (by simpa using hIn)
    have hMissed := hReached x (h.pruned.rest x hx hIn'.1 hIn'.2)
    exact hIn hMissed
  have hTails : ∀ x ∈ cells (ys.map (Extent.tail stop)), within start stop x = false :=
    tails_after
  have hOut : ∀ cs : List (Nat × Nat × Nat), (∀ x ∈ cs, within start stop x = false) →
      cs.filter (within start stop) = [] ∧ cs.filter (fun x => !within start stop x) = cs := by
    intro cs hcs
    refine ⟨List.filter_eq_nil_iff.mpr fun x hx => ?_, List.filter_eq_self.mpr fun x hx => ?_⟩
    · rw [hcs x hx]
      nofun
    · rw [hcs x hx]
      rfl
  obtain ⟨hKeptNone, hKeptAll⟩ := hOut _ hLeft
  obtain ⟨hTailNone, hTailAll⟩ := hOut _ hTails
  constructor
  · refine (h.pruned.parts.filter _).trans ?_
    rw [List.filter_append, List.filter_append, hKeptNone, hTailNone, List.nil_append,
      List.nil_append, List.filter_eq_self.mpr hGone]
  · refine (h.pruned.parts.filter _).trans ?_
    have hNone : gone.filter (fun x => !within start stop x) = [] := by
      refine List.filter_eq_nil_iff.mpr fun x hx => ?_
      rw [hGone x hx]
      nofun
    rw [List.filter_append, List.filter_append, hKeptAll, hTailAll, hNone, List.append_nil]

/-- A free block stays free, or is a node afterwards. -/
theorem RangeRun.stays (h : RangeRun levels start stop f c r rootEmpty f1 w c1 ys gone ms f2 c2)
    {rel : Nat} (hFree : f.alloc.isFree rel = true) :
    r.file.alloc.isFree rel = true ∨ f.dataStart + rel ∈ r.file.content.blocks := by
  obtain ⟨hHolds2, hAlloc, -⟩ := h.settled
  have hState := afterWalk_alloc f1 rootEmpty
  obtain ⟨-, -, hUsed⟩ := insertAll_used ten_le_levels _ h.walked h.fits h.putBack
  have hNow := hUsed rel (by rw [hState.1]; exact h.pruned.stays rel hFree)
  rw [hState.2, h.pruned.same.dataStart, h.batch.holds.content] at hNow
  rw [hAlloc, hHolds2.content]
  exact hNow

/-- A delete leaves a good file. -/
theorem RangeRun.good (h : RangeRun levels start stop f c r rootEmpty f1 w c1 ys gone ms f2 c2)
    (hHolds : Holds f c) (hNo : NoCross c) : Good r.file := by
  obtain ⟨hHolds2, hAlloc, hStart2⟩ := h.settled
  refine ⟨sound_of_content hHolds2 (h.batch.owns.ofState hAlloc hStart2), ?_⟩
  rw [hHolds2.content]
  exact h.batch.tidy (h.pruned.noCross hNo) (h.distinct hHolds hNo) (h.pruned.tails_clear hNo)

/-- A delete that came to every extent in the range. -/
theorem RangeRun.removes (h : RangeRun levels start stop f c r rootEmpty f1 w c1 ys gone ms f2 c2)
    (hGood : Good f) (hc : c = f.content) (hIdx : f.indexed = true)
    (hTotal : f.total = c.exts.length) (hRet : r.ret = none)
    (hReached : ∀ x ∈ cells ms, within start stop x = false) :
    RemovesRange start stop f r c.exts c2.exts := by
  subst hc
  obtain ⟨hIn, hOut⟩ := h.parted hGood.holds hGood.noCross hReached
  obtain ⟨hHolds2, hAlloc, hStart2⟩ := h.settled
  have hState := afterWalk_alloc f1 rootEmpty
  have hUsed := insertAll_used ten_le_levels _ h.walked h.fits h.putBack
  have hFew : w.right.length < 4 := by
    have hOne := h.one_tail hGood.holds hGood.noCross
    rw [h.pruned.right, List.nil_append]
    omega
  obtain ⟨hCount, hFreed⟩ := h.pruned.freed hFew
  have hStart := h.pruned.same.dataStart
  have hNodes : r.file.content.blocks = f2.content.blocks := by
    rw [hHolds2.content, h.batch.holds.content]
  refine ⟨?_, ?_, ?_, ?_, h.total hIdx hTotal hRet, h.good hGood.holds hGood.noCross⟩
  · exact (h.batch.done hRet).trans hOut.symm
  · intro x hx rel hEq hRel
    have hFree1 := hFreed rel hRel ⟨x, hIn.mem_iff.mp hx, hEq⟩
    rw [hAlloc, hNodes]
    have hNow := hUsed.2.2 rel (by rw [hState.1]; exact hFree1)
    rw [hState.2, hStart] at hNow
    exact hNow
  · intro rel hFree
    rw [hAlloc] at hFree
    rcases h.pruned.free rel (h.still_free hFree) with hWas | ⟨hNode, -⟩ | ⟨x, hx, hEq⟩
    · exact Or.inl hWas
    · refine Or.inr (Or.inr ⟨hNode, fun hStill => ?_⟩)
      rw [hHolds2.content] at hStill
      obtain ⟨rel', -, hEq, hTaken⟩ := hHolds2.owned _ hStill
      have hData : r.file.dataStart = f.dataStart := by
        rw [hStart2, hUsed.1, hState.2, hStart]
      have hSame : rel' = rel := by omega
      rw [hSame, hAlloc, hFree] at hTaken
      cases hTaken
    · exact Or.inr (Or.inl ⟨x, hIn.mem_iff.mpr hx, hEq⟩)
  · rw [h.freed, hCount, hIn.length_eq]
    exact Nat.zero_add _

end Exact

--
-- Small trees
--

section Few

variable {nodes : Nodes} {start stop fuel : Nat}

/-- A budget for every node of the child is budget enough. -/
theorem missedChild_few {d block lo hi low high cap : Nat} {c : Content}
    {miss : Nat → Nat → List Extent × Nat} {skip : Nat → List Extent}
    (h : Child nodes d block lo hi c) (hFuel : d < fuel)
    (hMiss : ∃ left, miss cap block = (skip block, left) ∧ cap ≤ left + c.blocks.length) :
    ∃ left, missedChild miss (subtreeExtents nodes fuel) start stop low high block cap =
      (skippedChild skip (subtreeExtents nodes fuel) start stop low high block, left) ∧
      cap ≤ left + c.blocks.length := by
  unfold missedChild skippedChild
  by_cases hMeets : block ≠ 0 ∧ low < stop ∧ start < high
  · rw [if_pos hMeets, if_pos hMeets]
    exact hMiss
  · rw [if_neg hMeets, if_neg hMeets, h.2.extents hFuel]
    exact ⟨cap, rfl, Nat.le_add_right _ _⟩

theorem missedChildren_few {d tr hi : Nat} {miss : Nat → Nat → List Extent × Nat}
    {skip : Nat → List Extent} (hFuel : d < fuel)
    (hMiss : ∀ {block lo hi cap : Nat} {c : Content}, Child nodes d block lo hi c →
      c.blocks.length ≤ cap →
      ∃ left, miss cap block = (skip block, left) ∧ cap ≤ left + c.blocks.length) :
    ∀ {idx : List IdxEntry} {low lo cap : Nat} {c : Content},
      Kids (Child nodes d) tr idx lo hi c → c.blocks.length ≤ cap →
      ∃ left, missedChildren miss (subtreeExtents nodes fuel) start stop tr low idx cap =
        (skippedChildren skip (subtreeExtents nodes fuel) start stop tr low idx, left) ∧
        cap ≤ left + c.blocks.length := by
  intro idx
  induction idx with
  | nil =>
    intro low lo cap c h hCap
    exact missedChild_few h hFuel (hMiss h hCap)
  | cons k idx ih =>
    intro low lo cap c h hCap
    obtain ⟨c₁, c₂, rfl, hFirst, hRest⟩ := h
    have hLen : (c₁ ++ (Content.sep k.highKey ++ c₂)).blocks.length =
        c₁.blocks.length + c₂.blocks.length := by
      simp
    rw [hLen] at hCap ⊢
    have hHead : c₁.blocks.length ≤ cap := by omega
    obtain ⟨cap₁, hEq₁, hCap₁⟩ : ∃ left,
        missedChild miss (subtreeExtents nodes fuel) start stop low k.highKey k.child cap =
          (skippedChild skip (subtreeExtents nodes fuel) start stop low k.highKey k.child, left) ∧
        cap ≤ left + c₁.blocks.length := missedChild_few hFirst hFuel (hMiss hFirst hHead)
    have hTail : c₂.blocks.length ≤ cap₁ := by omega
    obtain ⟨cap₂, hEq₂, hCap₂⟩ : ∃ left,
        missedChildren miss (subtreeExtents nodes fuel) start stop tr k.highKey idx cap₁ =
          (skippedChildren skip (subtreeExtents nodes fuel) start stop tr k.highKey idx, left) ∧
        cap₁ ≤ left + c₂.blocks.length := ih hRest hTail
    refine ⟨cap₂, ?_, by omega⟩
    unfold missedChildren skippedChildren
    rw [hEq₁]
    dsimp only
    rw [hEq₂]

/-- A walk whose budget pays for every node passes only by the children that do not meet the
range. -/
theorem missed_few : ∀ (fuel : Nat) {d block lo hi cap : Nat} {c : Content},
    Sub nodes d block lo hi c → d < fuel → c.blocks.length ≤ cap →
    ∃ left, missed nodes start stop fuel cap block = (skipped nodes start stop fuel block, left) ∧
      cap ≤ left + c.blocks.length := by
  intro fuel
  induction fuel with
  | zero =>
    intro d block lo hi cap c h hFuel
    omega
  | succ fuel ih =>
    intro d block lo hi cap c h hFuel hCap
    have hPos := h.pos
    have hOne : 0 < c.blocks.length := List.length_pos_of_mem h.block_mem
    unfold missed skipped
    rw [if_neg (by omega), if_neg (by omega)]
    cases d with
    | zero =>
      obtain ⟨-, hNode, -, -, hLeaf⟩ := h
      rw [readNode_of_le hNode hLeaf.fanout]
      exact ⟨cap - 1, rfl, by omega⟩
    | succ d =>
      obtain ⟨-, idx, tr, kids, hNode, hKeys, rfl, hKids⟩ := h
      rw [readNode_of_le hNode hKeys]
      dsimp only at hCap ⊢
      rw [List.length_cons] at hCap ⊢
      have hDown : d < fuel := by omega
      have hBelow : kids.blocks.length ≤ cap - 1 := by omega
      have hEach : ∀ {block lo hi cap : Nat} {c : Content}, Child nodes d block lo hi c →
          c.blocks.length ≤ cap → ∃ left, missed nodes start stop fuel cap block =
            (skipped nodes start stop fuel block, left) ∧ cap ≤ left + c.blocks.length :=
        fun hc hCap => ih hc.2 hDown hCap
      obtain ⟨left, hEq, hLeft⟩ : ∃ left, missedChildren (missed nodes start stop fuel)
          (subtreeExtents nodes fuel) start stop tr 0 idx (cap - 1) =
            (skippedChildren (skipped nodes start stop fuel) (subtreeExtents nodes fuel) start stop
              tr 0 idx, left) ∧ cap - 1 ≤ left + kids.blocks.length :=
        missedChildren_few hDown hEach hKids hBelow
      exact ⟨left, hEq, by omega⟩

/-- A child that is passed by does not meet the range. -/
theorem skippedChild_outside {d block lo hi low high : Nat} {c : Content} {skip : Nat → List Extent}
    (h : Child nodes d block lo hi c) (hFuel : d < fuel) (hLow : low ≤ lo)
    (hEnds : ∀ e ∈ c.exts, e.stop ≤ high)
    (hSkip : ∀ x ∈ cells (skip block), within start stop x = false) :
    ∀ x ∈ cells (skippedChild skip (subtreeExtents nodes fuel) start stop low high block),
      within start stop x = false := by
  unfold skippedChild
  by_cases hMeets : block ≠ 0 ∧ low < stop ∧ start < high
  · rw [if_pos hMeets]
    exact hSkip
  · rw [if_neg hMeets, h.2.extents hFuel]
    rintro ⟨b, p, fl⟩ hx
    obtain ⟨e, he, ⟨hLo, hHi⟩, -⟩ := mem_cells.mp hx
    have hOff := (h.2.offsets e he).1
    have hEnd := hEnds e he
    have hPos := h.2.pos
    have hOut : ¬ (start ≤ b ∧ b < stop) := by omega
    exact decide_eq_false hOut

theorem skippedChildren_outside {d tr hi : Nat} {skip : Nat → List Extent} (hFuel : d < fuel)
    (hSkip : ∀ {block lo hi : Nat} {c : Content}, Child nodes d block lo hi c → NoCross c →
      (∀ e ∈ c.exts, e.stop < fileTop) → ∀ x ∈ cells (skip block), within start stop x = false) :
    ∀ {idx : List IdxEntry} {low lo : Nat} {c : Content}, low ≤ lo →
      Kids (Child nodes d) tr idx lo hi c → NoCross c → (∀ e ∈ c.exts, e.stop < fileTop) →
      ∀ x ∈ cells (skippedChildren skip (subtreeExtents nodes fuel) start stop tr low idx),
        within start stop x = false := by
  intro idx
  induction idx with
  | nil =>
    intro low lo c hLow h hNo hStops
    refine skippedChild_outside h hFuel hLow (fun e he => ?_) (hSkip h hNo hStops)
    have hTop := hStops e he
    unfold fileTop at hTop
    omega
  | cons k idx ih =>
    intro low lo c hLow h hNo hStops x hx
    obtain ⟨c₁, c₂, rfl, hFirst, hRest⟩ := h
    have hLeft : NoCross c₁ := fun e he s hs => hNo e (by simp [he]) s (by simp [hs])
    have hRight : NoCross c₂ := fun e he s hs => hNo e (by simp [he]) s (by simp [hs])
    -- an extent of the first child ends before the separator
    have hEnds : ∀ e ∈ c₁.exts, e.stop ≤ k.highKey := by
      intro e he
      have hOff := (hFirst.2.offsets e he).2.1
      have hSep := hNo e (by simp [he]) k.highKey (by simp)
      unfold Extent.crosses at hSep
      omega
    unfold skippedChildren at hx
    rcases List.mem_append.mp (cells_append _ _ ▸ hx) with hx | hx
    · exact skippedChild_outside hFirst hFuel hLow hEnds
        (hSkip hFirst hLeft fun e he => hStops e (by simp [he])) x hx
    · exact ih (Nat.le_refl k.highKey) hRest hRight (fun e he => hStops e (by simp [he])) x hx

/-- If no extent reaches over a separator, the children that are passed by hold no block of the
range. -/
theorem skipped_outside : ∀ (fuel : Nat) {d block lo hi : Nat} {c : Content},
    Sub nodes d block lo hi c → d < fuel → NoCross c → (∀ e ∈ c.exts, e.stop < fileTop) →
    ∀ x ∈ cells (skipped nodes start stop fuel block), within start stop x = false := by
  intro fuel
  induction fuel with
  | zero =>
    intro d block lo hi c h hFuel
    omega
  | succ fuel ih =>
    intro d block lo hi c h hFuel hNo hStops
    have hPos := h.pos
    unfold skipped
    rw [if_neg (by omega)]
    cases d with
    | zero =>
      obtain ⟨-, hNode, -, -, hLeaf⟩ := h
      rw [readNode_of_le hNode hLeaf.fanout]
      exact nofun
    | succ d =>
      obtain ⟨-, idx, tr, kids, hNode, hKeys, rfl, hKids⟩ := h
      rw [readNode_of_le hNode hKeys]
      have hDown : d < fuel := by omega
      exact skippedChildren_outside hDown (fun hc hNo hStops => ih hc.2 hDown hNo hStops)
        (Nat.zero_le lo) hKids hNo hStops

/-- A tree with no more nodes than the budget is visited wherever it meets the range. -/
theorem Holds.missed_few {f : File} {c : Content} (h : Holds f c) (hIdx : f.indexed = true)
    (hFew : c.blocks.length ≤ f.nodeBudget) :
    (missed f.nodes start stop levels f.nodeBudget f.root).1 =
      skipped f.nodes start stop levels f.root := by
  obtain ⟨d, hSub⟩ := h.tree hIdx
  have hDepth := hSub.depth_le (Nat.le_refl _)
  have hLevels : d < levels := by
    unfold levels
    omega
  obtain ⟨left, hEq, -⟩ : ∃ left, missed f.nodes start stop levels f.nodeBudget f.root =
      (skipped f.nodes start stop levels f.root, left) ∧ f.nodeBudget ≤ left + c.blocks.length :=
    Btree.missed_few levels hSub hLevels hFew
  rw [hEq]

/-- No extent of a tree with few nodes is missed. -/
theorem reached_of_few {f : File} (h : Good f) (hIdx : f.indexed = true)
    (hFew : f.content.blocks.length ≤ f.nodeBudget) : Reached f start stop := by
  obtain ⟨d, hSub⟩ := h.holds.tree hIdx
  have hDepth := hSub.depth_le (Nat.le_refl _)
  unfold Reached
  rw [h.holds.missed_few hIdx hFew]
  exact skipped_outside levels hSub (by unfold levels; omega) h.noCross h.holds.stops

end Few

--
-- The call
--

section Call

variable {start stop : Nat} {f : File}

/-- `briefs_btree_delete_range` on a sound tree, when it returns 0, removes exactly the range
if and only if the walk comes to every extent that meets it. It does in a tree that has no more
nodes than the budget. -/
theorem deleteRange_exact_iff (h : Good f) (hIdx : f.indexed = true)
    (hTotal : f.total = f.content.exts.length) (hRange : start < stop) :
    ∃ r l l', deleteRange levels f start stop = some r ∧ forEachExtent f = .ok l ∧
      forEachExtent r.file = .ok l' ∧
      (r.ret = none → (RemovesRange start stop f r l l' ↔ Reached f start stop)) ∧
      (f.content.blocks.length ≤ f.nodeBudget → Reached f start stop) := by
  obtain ⟨r, rootEmpty, f1, w, c1, ys, gone, ms, f2, c2, hEq, hr⟩ :=
    deleteRange_run h.holds h.owns ten_le_levels hIdx hRange
  refine ⟨r, _, _, hEq, h.holds.forEachExtent, hr.settled.1.forEachExtent, fun hRet => ?_,
    reached_of_few h hIdx⟩
  have hMissed : (missed f.nodes start stop levels f.nodeBudget f.root).1 = ms := by
    rw [hr.missed]
  unfold Reached
  rw [hMissed]
  constructor
  · intro hRemoves x hx
    -- what was not looked at is still mapped
    have hMapped := hr.batch.kept x (hr.pruned.still x hx)
    have hOut := (List.mem_filter.mp (hRemoves.map.mem_iff.mp hMapped)).2
    simpa using hOut
  · intro hReached
    exact hr.removes h rfl hIdx hTotal hRet hReached

end Call

--
-- A sparse tree
--

/-- Block `k` of the file that is left in the sparse tree. -/
def sparseExt (k : Nat) : Extent := ⟨k * 2 ^ 20, 1100 + k, 1, 0⟩

/-- Eight leaves with one extent each, each of them below two nodes with a single child: what
deletes leave of a tree with four levels. -/
def sparseNodes (b : Nat) : Option Node :=
  if b = 1001 then
    some (.internal ((List.range 7).map fun k => ⟨1012 + 10 * k, (k + 1) * 2 ^ 20⟩) 1082)
  else if b < 1010 ∨ 1082 < b then none
  else match (b - 1010) % 10 with
    | 0 => some (.leaf [sparseExt ((b - 1010) / 10)])
    | 1 | 2 => some (.internal [] (b - 1))
    | _ => none

def sparseFile : File :=
  { newFile with nodes := sparseNodes, indexed := true, root := 1001, total := 8 }

def sparseExts : List Extent := (List.range 8).map sparseExt

/-- A leaf and the nodes over it. -/
def sparseChain (k : Nat) : List Nat := [1012 + 10 * k, 1011 + 10 * k, 1010 + 10 * k]

def sparseContent : Content where
  exts := sparseExts
  blocks := 1001 :: (List.range 8).flatMap sparseChain
  seps := (List.range 7).map fun k => (k + 1) * 2 ^ 20

theorem sparse_child {k hi : Nat} (hk : k < 8) (hHi : (k + 1) * 2 ^ 20 ≤ hi) :
    Child sparseNodes 2 (1012 + 10 * k) (k * 2 ^ 20) hi ⟨[sparseExt k], sparseChain k, []⟩ := by
  have hNodes : ∀ k < 8, sparseNodes (1012 + 10 * k) = some (.internal [] (1011 + 10 * k)) ∧
      sparseNodes (1011 + 10 * k) = some (.internal [] (1010 + 10 * k)) ∧
      sparseNodes (1010 + 10 * k) = some (.leaf [sparseExt k]) := by decide
  obtain ⟨hUpper, hLower, hLeaf⟩ := hNodes k hk
  have hRange : k * 2 ^ 20 + 2 ^ 20 ≤ hi := by
    rw [← Nat.succ_mul]
    exact hHi
  have hOk : LeafOk (k * 2 ^ 20) hi [sparseExt k] := by
    refine ⟨List.pairwise_singleton _ _, ?_, ?_, (by decide : 1 ≤ leafFanout)⟩
    · intro x hx
      rw [List.mem_singleton.mp hx]
      exact Nat.one_pos
    · intro x hx
      rw [List.mem_singleton.mp hx]
      exact ⟨Nat.le_refl _, by show k * 2 ^ 20 < hi; omega⟩
  have hWide : ∀ d ≤ 2, Wide d (k * 2 ^ 20) hi := by
    intro d hd
    have hPow : 127 ^ d ≤ 127 ^ 2 := Nat.pow_le_pow_right (by decide) hd
    unfold Wide
    omega
  have hPos : ∀ b, 0 < 1010 + b + 10 * k := fun b => by omega
  have hFirst : Sub sparseNodes 0 (1010 + 10 * k) (k * 2 ^ 20) hi
      ⟨[sparseExt k], [1010 + 10 * k], []⟩ := ⟨hPos 0, hLeaf, rfl, rfl, hOk⟩
  have hSecond : Sub sparseNodes 1 (1011 + 10 * k) (k * 2 ^ 20) hi
      ⟨[sparseExt k], [1011 + 10 * k, 1010 + 10 * k], []⟩ :=
    ⟨hPos 1, [], _, _, hLower, Nat.zero_le _, rfl, hWide 0 (by decide), hFirst⟩
  exact ⟨hWide 2 (Nat.le_refl _), hPos 2, [], _, _, hUpper, Nat.zero_le _, rfl, hWide 1 (by decide),
    hSecond⟩

/-- The children of the root from child `k` on. -/
theorem sparse_kids : ∀ n k, k + n = 7 →
    Kids (Child sparseNodes 2) 1082
      ((List.range' k n).map fun k => ⟨1012 + 10 * k, (k + 1) * 2 ^ 20⟩) (k * 2 ^ 20) fileTop
      ⟨(List.range' k (n + 1)).map sparseExt, (List.range' k (n + 1)).flatMap sparseChain,
        (List.range' k n).map fun k => (k + 1) * 2 ^ 20⟩ := by
  intro n
  induction n with
  | zero =>
    rintro k rfl
    exact sparse_child (by decide) (by decide)
  | succ n ih =>
    intro k hk
    exact ⟨_, _, rfl, sparse_child (by omega) (Nat.le_refl _), ih (k + 1) (by omega)⟩

theorem sparseFile_holds : Holds sparseFile sparseContent := by
  refine ⟨fun _ => ⟨3, ?_⟩, nofun, by decide +kernel, ?_, by decide, newFile_isEmpty.sound⟩
  · exact ⟨by decide, _, 1082, _, rfl, by decide, rfl, sparse_kids 7 0 rfl⟩
  · have hTaken : ∀ b ∈ sparseContent.blocks,
        1000 < b ∧ sparseFile.alloc.isFree (b - 1000) = false := by decide +kernel
    intro b hb
    obtain ⟨hPast, hNot⟩ := hTaken b hb
    exact ⟨b - 1000, by omega, (by show b = 1000 + (b - 1000); omega), hNot⟩

theorem sparseFile_good : Good sparseFile := by
  have hOwns : Owns sparseFile sparseContent.blocks (cells sparseExts) := by
    have hTaken : ∀ x ∈ cells sparseExts, 1000 < x.2.1 ∧
        sparseFile.alloc.isFree (x.2.1 - 1000) = false := by decide +kernel
    refine ⟨fun x hx => ?_, by decide +kernel, by decide +kernel⟩
    obtain ⟨hPast, hNot⟩ := hTaken x hx
    exact ⟨x.2.1 - 1000, by omega, (by show x.2.1 = 1000 + (x.2.1 - 1000); omega), hNot⟩
  refine ⟨sound_of_content sparseFile_holds hOwns, ?_⟩
  rw [sparseFile_holds.content]
  unfold NoCross
  decide

theorem sparseFile_exact_iff :
    ∃ r l l', deleteRange levels sparseFile 0 5 = some r ∧ forEachExtent sparseFile = .ok l ∧
      forEachExtent r.file = .ok l' ∧
      (r.ret = none → (RemovesRange 0 5 sparseFile r l l' ↔ Reached sparseFile 0 5)) ∧
      (sparseFile.content.blocks.length ≤ sparseFile.nodeBudget → Reached sparseFile 0 5) :=
  deleteRange_exact_iff sparseFile_good rfl (by rw [sparseFile_holds.content]; rfl) (by decide)

/-- The tree has twenty-five nodes and eight extents, so the walk ends before it comes to the last
leaf: a delete of everything returns 0 and leaves a block mapped. -/
theorem sparse_delete_leaves_block :
    Good sparseFile ∧ ∃ r l l', deleteRange levels sparseFile 0 (2 ^ 23) = some r ∧
      forEachExtent sparseFile = .ok l ∧ forEachExtent r.file = .ok l' ∧ r.ret = none ∧
      (7 * 2 ^ 20, 1107, 0) ∈ cells l' ∧ ¬ RemovesRange 0 (2 ^ 23) sparseFile r l l' := by
  have hLeft : (7 * 2 ^ 20, 1107, 0) ∈ cells [sparseExt 7] := by decide
  refine ⟨sparseFile_good, _, _, [sparseExt 7], rfl, rfl, rfl, rfl, hLeft, fun hNo => ?_⟩
  obtain ⟨-, hOut⟩ := List.mem_filter.mp (hNo.map.mem_iff.mp hLeft)
  revert hOut
  decide

end Briefs.Btree
