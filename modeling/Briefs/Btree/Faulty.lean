import Briefs.Btree.Range
import Briefs.Btree.Spend

/-!
# BrieFS — a range delete that fails

`briefs_btree_delete_range` walks the tree first and puts the tail of the extent over the end of
the range back afterwards. The walk does not fail: a node that it cannot read keeps its subtree.
Putting the tail back may fail, for want of a node block or because a node cannot be read, and then
the call returns with the tail lost. That is what its comment says; nothing else outside the range
is lost.

Here the walk and the insertion are run with read errors: any set of nodes in the walk, which comes
to each node once, and any of the reads of the insertion.

## Results

* `descendInsertOn_spec` — a descent that is cut off anywhere has moved extents, not lost them.
* `failed_delete_loses_tail` — what a failed call leaves, for all failures.
-/

namespace Briefs.Btree

open Briefs.Journal

--
-- The code with read errors
--

/-- `btree_delete_range_subtree` where `bad` nodes cannot be read. -/
def deleteSubtreeOn (bad : Nat → Bool) (start stop : Nat) :
    Nat → File → DeleteCtx → Nat → Option (Bool × File × DeleteCtx)
  | 0, _, _, _ => none
  | fuel + 1, f, w, block =>
    if ¬ (block = 0 ∨ w.cap = 0) ∧ bad block = true then some (false, f, { w with cap := w.cap - 1 })
    else deleteNode start stop (deleteSubtreeOn bad start stop fuel) f w block

/-- The extents that the walk does not look at. -/
def missedOn (bad : Nat → Bool) (nodes : Nodes) (start stop : Nat) :
    Nat → Nat → Nat → List Extent × Nat
  | 0, cap, _ => ([], cap)
  | fuel + 1, cap, block =>
    if block = 0 ∨ cap = 0 then (subtreeExtents nodes (fuel + 1) block, cap)
    else if bad block = true then (subtreeExtents nodes (fuel + 1) block, cap - 1)
    else match readNode nodes block with
      | some (.internal idx tr) =>
        missedChildren (missedOn bad nodes start stop fuel) (subtreeExtents nodes fuel) start stop
          tr 0 idx (cap - 1)
      | _ => ([], cap - 1)

/-- The descent of an insertion; its reads are numbered, `fails` says which of them fail. Each
level reads its node and then, before it splits, the child. -/
def descendInsertOn (fails : Nat → Bool) (ext : Extent) :
    Nat → Nat → File → Nat → Option (Option Errno × Bool × File)
  | 0, _, _, _ => none
  | fuel + 1, n, f, block =>
    if fails n = true then some (some .eio, false, f)
    else match readNode f.nodes block with
    | none => some (some .eio, false, f)
    | some (.leaf extents) =>
      match insertExtent extents ext with
      | .error e => some (some e, false, f)
      | .ok (added, extents) => some (none, added, f.commitNode block (.leaf extents))
    | some (.internal idx trailingChild) =>
      if fails (n + 1) = true then some (some .eio, false, f)
      else match maybeSplitChild f block idx trailingChild (findChild idx ext.offset) with
      | (some e, f) => some (some e, false, f)
      | (none, f) =>
        match f.nodes block with
        | some (.internal idx trailingChild) =>
          let child := childAt idx trailingChild (findChild idx ext.offset)
          if child = 0 then some (some .eio, false, f)
          else descendInsertOn fails ext fuel (n + 2) f child
        | _ => some (some .eio, false, f)

/-- The part of `briefs_btree_insert_locked` for a tree; read 0 is the one of
`btree_ensure_root_room`. -/
def insertTreeOn (fails : Nat → Bool) (fuel : Nat) (f : File) (ext : Extent) :
    Option (Option Errno × File) :=
  if fails 0 = true then some (some .eio, f)
  else match ensureRootRoom f with
  | (some e, f) => some (some e, f)
  | (none, f) =>
    match descendInsertOn fails ext fuel 1 f f.root with
    | none => none
    | some (some e, _, f) => some (some e, f)
    | some (none, added, f) => some (none, if added then { f with total := f.total + 1 } else f)

/-- `briefs_btree_insert_locked`. -/
def insertLockedOn (fails : Nat → Bool) (fuel : Nat) (f : File) (ext : Extent) :
    Option (Option Errno × File) :=
  if f.indexed then insertTreeOn fails fuel (f.raise ext.stop) ext
  else insertInline (f.raise ext.stop) ext

/-- The loop that puts the tails back, from the `i`-th on. -/
def insertAllOn (fails : Nat → Nat → Bool) (fuel : Nat) :
    Nat → List Extent → File → Option (Option Errno × File)
  | _, [], f => some (none, f)
  | i, e :: rest, f =>
    match insertLockedOn (fails i) fuel f e with
    | none => none
    | some (some err, f) => some (some err, f)
    | some (none, f) => insertAllOn fails fuel (i + 1) rest f

/-- The read errors of a call: the nodes that the walk cannot read, the reads that fail when the
`i`-th tail is put back, and what the enumeration for the tail cache comes to. -/
structure Faults where
  unreadable : Nat → Bool
  fails      : Nat → Nat → Bool
  tail       : File → Nat × Nat

/-- The last part of `briefs_btree_delete_range`. -/
def File.settleOn (faults : Faults) (f : File) (stop : Nat) (rootEmpty : Bool) (countDelta : Int) :
    File :=
  if f.maxEnd ≤ stop then { f with maxEnd := (faults.tail f).1, total := (faults.tail f).2 }
  else if !rootEmpty then { f with total := ((f.total : Int) + countDelta).toNat }
  else f

/-- `briefs_btree_delete_range`. -/
def deleteRangeOn (faults : Faults) (fuel : Nat) (f : File) (start stop : Nat) : Option Deleted :=
  if f.indexed = false ∨ f.root = 0 ∨ stop ≤ start then some ⟨none, f, false, 0⟩
  else
    match deleteSubtreeOn faults.unreadable start stop fuel f
        ⟨[], f.nodeBudget, false, 0, 0, 0⟩ f.root with
    | none => none
    | some (rootEmpty, f, w) =>
      let f := f.afterWalk rootEmpty
      let modified := w.modified || rootEmpty
      if rootEmpty ∧ w.right = [] then some ⟨none, f, modified, w.blocksFreed⟩
      else match insertAllOn faults.fails fuel 0 w.right f with
        | none => none
        | some (some err, f) => some ⟨some err, f, modified, w.blocksFreed⟩
        | some (none, f) =>
          some ⟨none, f.settleOn faults stop rootEmpty w.countDelta, modified, w.blocksFreed⟩

--
-- Without errors
--

/-- Nothing goes wrong. -/
def noFaults : Faults := ⟨fun _ => false, fun _ _ => false, tailOf⟩

theorem deleteSubtreeOn_none (start stop : Nat) : ∀ (fuel : Nat),
    deleteSubtreeOn (fun _ => false) start stop fuel = deleteSubtree start stop fuel := by
  intro fuel
  induction fuel with
  | zero => rfl
  | succ fuel ih =>
    funext f w block
    unfold deleteSubtreeOn deleteSubtree
    rw [ih, if_neg fun hNo => Bool.false_ne_true hNo.2]

theorem descendInsertOn_none (ext : Extent) : ∀ (fuel n : Nat) (f : File) (block : Nat),
    descendInsertOn (fun _ => false) ext fuel n f block = descendInsert ext fuel f block := by
  intro fuel
  induction fuel with
  | zero => exact fun _ _ _ => rfl
  | succ fuel ih =>
    intro n f block
    have hBelow : descendInsertOn (fun _ => false) ext fuel = fun _ => descendInsert ext fuel := by
      funext n f block
      exact ih n f block
    unfold descendInsertOn descendInsert
    rewrite [hBelow]
    rfl

theorem insertAllOn_none (fuel : Nat) : ∀ (l : List Extent) (i : Nat) (f : File),
    insertAllOn (fun _ _ => false) fuel i l f = insertAll fuel l f := by
  intro l
  induction l with
  | nil => exact fun _ _ => rfl
  | cons e l ih =>
    intro i f
    have hFirst : insertLockedOn (fun _ => false) fuel f e = insertLocked fuel f e := by
      have hDescend : descendInsertOn (fun _ => false) e fuel = fun _ => descendInsert e fuel := by
        funext n f block
        exact descendInsertOn_none e fuel n f block
      rw [insertLocked_eq]
      unfold insertLockedOn insertTreeOn insertTree
      rewrite [hDescend]
      rfl
    have hRest : ∀ i, insertAllOn (fun _ _ => false) fuel i l = insertAll fuel l :=
      fun i => funext (ih i)
    unfold insertAllOn insertAll
    rewrite [hFirst, hRest]
    rfl

/-- Without errors it is the call that is studied elsewhere. -/
theorem deleteRangeOn_none (fuel : Nat) (f : File) (start stop : Nat) :
    deleteRangeOn noFaults fuel f start stop = deleteRange fuel f start stop := by
  unfold deleteRangeOn deleteRange noFaults File.settleOn
  simp only [deleteSubtreeOn_none, insertAllOn_none]
  rfl

--
-- The walk
--

section Walk

variable {bad : Nat → Bool} {start stop d fuel : Nat} {f : File}

/-- The nodes that the walk does not enter: there is no budget left, or the node cannot be read. -/
theorem deleteSubtreeOn_skip {w : DeleteCtx} {block lo hi : Nat} {c : Content}
    (h : Sub f.nodes d block lo hi c) (hFuel : d < fuel + 1)
    (hSkip : (block = 0 ∨ w.cap = 0) ∨ bad block = true) :
    ∃ empty f' w' c' ms, deleteSubtreeOn bad start stop (fuel + 1) f w block = some (empty, f', w') ∧
      Walked start stop (fun nodes x => Sub nodes d block lo hi x) f w c empty f' w' c' ms ∧
      ∀ nodes : Nodes, (∀ b ∈ c.blocks, nodes b = f.nodes b) →
        missedOn bad nodes start stop (fuel + 1) w.cap block = (ms, w'.cap) := by
  have hAll : ∀ nodes : Nodes, (∀ b ∈ c.blocks, nodes b = f.nodes b) →
      subtreeExtents nodes (fuel + 1) block = c.exts :=
    fun nodes hSame => (h.congr hSame).extents hFuel
  unfold deleteSubtreeOn missedOn
  by_cases hCap : block = 0 ∨ w.cap = 0
  · rw [if_neg fun hNo => hNo.1 hCap]
    refine ⟨false, f, w, c, c.exts, if_pos hCap, walked_skip w h w.cap, fun nodes hSame => ?_⟩
    rw [if_pos hCap, hAll nodes hSame]
  · have hBad := hSkip.resolve_left hCap
    rw [if_pos ⟨hCap, hBad⟩]
    refine ⟨false, f, _, c, c.exts, rfl, walked_skip w h (w.cap - 1), fun nodes hSame => ?_⟩
    rw [if_neg hCap, if_pos hBad, hAll nodes hSame]

/-- The walk does what it should below the nodes that it can read. -/
theorem deleteSubtreeOn_spec (bad : Nat → Bool) (hRange : start < stop) (fuel : Nat) :
    ∀ (d : Nat), Deletes start stop d (deleteSubtreeOn bad start stop (d + 1 + fuel))
      fun nodes => missedOn bad nodes start stop (d + 1 + fuel) := by
  intro d
  induction d with
  | zero =>
    intro f w block lo hi c h hNodup hData
    rw [show 0 + 1 + fuel = fuel + 1 by omega]
    by_cases hSkip : (block = 0 ∨ w.cap = 0) ∨ bad block = true
    · exact deleteSubtreeOn_skip h (by omega) hSkip
    · obtain ⟨hCap, hBad⟩ := not_or.mp hSkip
      obtain ⟨empty, f', w', c', hRun, hWalked, hLeft⟩ :=
        deleteNode_leaf hRange (deleteSubtreeOn bad start stop fuel) w h hData hCap
      refine ⟨empty, f', w', c', [], ?_, hWalked, fun nodes hSame => ?_⟩
      · unfold deleteSubtreeOn
        rw [if_neg fun hNo => hBad hNo.2]
        exact hRun
      · obtain ⟨-, hLeafNode, hBlocks, -, hLeaf⟩ := h
        have hThere : nodes block = some (.leaf c.exts) := by
          rw [hSame block (hBlocks ▸ List.mem_cons_self)]
          exact hLeafNode
        show missedOn bad nodes start stop (fuel + 1) w.cap block = _
        unfold missedOn
        rw [if_neg hCap, if_neg hBad, readNode_of_le hThere hLeaf.fanout, hLeft]
  | succ d ih =>
    intro f w block lo hi c h hNodup hData
    rw [show d + 1 + 1 + fuel = (d + 1 + fuel) + 1 by omega]
    by_cases hSkip : (block = 0 ∨ w.cap = 0) ∨ bad block = true
    · exact deleteSubtreeOn_skip h (by omega) hSkip
    · obtain ⟨hCap, hBad⟩ := not_or.mp hSkip
      obtain ⟨empty, f', w', c', ms, hRun, hWalked, hMiss⟩ :=
        deleteNode_inner ih (by omega : d < d + 1 + fuel) w h hNodup hData hCap
      refine ⟨empty, f', w', c', ms, ?_, hWalked, fun nodes hSame => ?_⟩
      · unfold deleteSubtreeOn
        rw [if_neg fun hNo => hBad hNo.2]
        exact hRun
      · obtain ⟨idx, tr, hThere, hEq⟩ := hMiss nodes hSame
        show missedOn bad nodes start stop (d + 1 + fuel + 1) w.cap block = _
        unfold missedOn
        rw [if_neg hCap, if_neg hBad, hThere]
        exact hEq

end Walk

--
-- The insertion
--

/-- What a descent leaves: a subtree over the same range, with the same extents if it failed. -/
structure Cut (f : File) (d block lo hi : Nat) (c : Content) (code : Option Errno) (f' : File)
    (c' : Content) : Prop where
  sub  : Sub f'.nodes d block lo hi c'
  grew : Grew f f' c.blocks c'.blocks
  same : code ≠ none → c'.exts = c.exts
  root : f'.root = f.root

theorem Descended.cut {f f' : File} {ext : Extent} {d block lo hi : Nat} {c c' : Content}
    {code : Option Errno} {added : Bool} (h : Descended f ext d block lo hi c code added f' c') :
    Cut f d block lo hi c code f' c' := ⟨h.sub, h.grew, h.same, h.root⟩

/-- A descent that is cut off anywhere has moved extents, not lost them. -/
theorem descendInsertOn_spec (fails : Nat → Bool) {ext : Extent} (hLen : 0 < ext.len) :
    ∀ (d fuel n : Nat) {f : File} {block lo hi : Nat} {c : Content}, Sub f.nodes d block lo hi c →
    (∀ node, f.nodes block = some node → node.numKeys < node.capacity) →
    lo ≤ ext.offset → ext.offset < hi → c.blocks.Nodup → (∀ b ∈ c.blocks, Allocated f b) →
    ∃ code added f' c', descendInsertOn fails ext (d + 1 + fuel) n f block = some (code, added, f') ∧
      Cut f d block lo hi c code f' c' := by
  intro d
  induction d with
  | zero =>
    intro fuel n f block lo hi c h hRoom hLo hHi hNodup hOwned
    rw [show 0 + 1 + fuel = fuel + 1 by omega]
    by_cases hFail : fails n = true
    · refine ⟨some .eio, false, f, c, ?_, h, Grew.refl hNodup hOwned, fun _ => rfl, rfl⟩
      unfold descendInsertOn
      rw [if_pos hFail]
    · obtain ⟨code, added, f', c', hRun, hDesc⟩ :=
        descendInsert_leaf fuel h hRoom hLen hLo hHi hOwned
      refine ⟨code, added, f', c', ?_, hDesc.cut⟩
      obtain ⟨-, hNode, -, -, hLeaf⟩ := h
      have hRead := readNode_of_le hNode hLeaf.fanout
      rw [← hRun]
      unfold descendInsertOn descendInsert
      rewrite [if_neg hFail, hRead]
      rfl
  | succ d ih =>
    intro fuel n f block lo hi c h hRoom hLo hHi hNodup hOwned
    rw [show d + 1 + 1 + fuel = (d + 1 + fuel) + 1 by omega]
    have hStay : ∃ code' added' f' c', some (some Errno.eio, false, f) = some (code', added', f') ∧
        Cut f (d + 1) block lo hi c code' f' c' :=
      ⟨_, _, f, c, rfl, h, Grew.refl hNodup hOwned, fun _ => rfl, rfl⟩
    unfold descendInsertOn
    by_cases hFail : fails n = true
    · rw [if_pos hFail]
      exact hStay
    rw [if_neg hFail]
    have hWhole := h
    obtain ⟨hPos, idx, tr, kids, hNode, hKeys, rfl, hKids⟩ := h
    have hInner : Inner f d block lo hi idx tr kids := ⟨hNode, hKeys, hKids, hNodup, hOwned⟩
    have hKeysLt : idx.length < idxKeys := hRoom _ hNode
    rw [readNode_of_le hNode hKeys]
    dsimp only
    by_cases hFail' : fails (n + 1) = true
    · rw [if_pos hFail']
      exact hStay
    rw [if_neg hFail']
    rcases maybeSplitChild_spec hInner hKeysLt hLo hHi with ⟨hEq, hFull⟩ |
      ⟨f1, idx1, tr1, kids1, hEq, hDone⟩
    · -- no block for the sibling: what the plain descent does there
      obtain ⟨code, added, f', c', hRun, hDesc⟩ := descendInsert_spec hLen (d + 1) fuel hWhole
        hRoom hLo hHi hNodup hOwned
      refine ⟨code, added, f', c', ?_, hDesc.cut⟩
      rw [← hRun, show d + 1 + 1 + fuel = (d + 1 + fuel) + 1 by omega]
      unfold descendInsert
      rw [readNode_of_le hNode hKeys]
      dsimp only
      rw [hEq]
    · rw [hEq]
      dsimp only
      rw [hDone.inner.node]
      dsimp only
      obtain ⟨lo', hi', A, x, B, hKids1, hChild, hHole⟩ := hDone.inner.focus hLo hHi
      rw [if_neg (Nat.ne_of_gt hChild.2.pos)]
      have hInner1 := hDone.inner
      rw [hKids1] at hInner1
      obtain ⟨hxNodup, hxOwned⟩ := hInner1.part
      obtain ⟨code, added, f', x', hRun, hCut⟩ := ih fuel (n + 2) hChild.2 hDone.room
        hHole.keyLo hHole.keyHi hxNodup hxOwned
      obtain ⟨hSub', hGrew'⟩ := hInner1.lift hPos hHole hChild hCut.grew hCut.sub
      rw [← hKids1] at hGrew'
      refine ⟨code, added, f', _, hRun, hSub', hDone.grew.trans hGrew', fun hCode => ?_,
        hCut.root.trans hDone.root⟩
      show (A ++ (x' ++ B)).exts = kids.exts
      rw [← hDone.exts, hKids1]
      simp only [Content.exts_append, hCut.same hCode]

section Insert

variable {f : File} {c : Content} {ext : Extent} {fuel : Nat}

/-- An insertion that fails leaves what was mapped. -/
theorem insertLockedOn_spec (fails : Nat → Bool) (h : Holds f c) (hLen : 0 < ext.len)
    (hStop : ext.stop < fileTop) (hFuel : 10 ≤ fuel) :
    ∃ code f', insertLockedOn fails fuel f ext = some (code, f') ∧
      (code ≠ none → ∃ c', Holds f' c' ∧ c'.exts = c.exts) := by
  have hRaised := h.raise ext.stop
  unfold insertLockedOn
  by_cases hIdx : f.indexed = true
  · rw [if_pos hIdx]
    have hIdx' : (f.raise ext.stop).indexed = true := hIdx
    generalize f.raise ext.stop = g at hRaised hIdx'
    obtain ⟨d, hSub⟩ := hRaised.tree hIdx'
    have hKey : ext.offset < fileTop := by
      unfold Extent.stop at hStop
      omega
    have hTree : ∀ {g' : File}, g'.indexed = true → ¬ g'.indexed = false := by
      intro g' hYes hNo
      rw [hYes] at hNo
      cases hNo
    unfold insertTreeOn
    by_cases hFail : fails 0 = true
    · rw [if_pos hFail]
      exact ⟨_, g, rfl, fun _ => ⟨c, hRaised, rfl⟩⟩
    rw [if_neg hFail]
    rcases ensureRootRoom_spec hSub hRaised.nodup hRaised.owned (Nat.zero_le _) hKey with
      ⟨a, hEq, hGrew, hFull⟩ | ⟨f1, d1, c1, hEq, hReady⟩
    · rw [hEq]
      refine ⟨_, _, rfl, fun _ => ⟨c, ⟨fun _ => ⟨d, hSub⟩, fun hNo => ?_, hRaised.nodup, hGrew.owned,
        hRaised.stops, hGrew.sound hRaised.sound⟩, rfl⟩⟩
      exact absurd hNo (hTree hIdx')
    · rw [hEq]
      dsimp only
      have hDepth := hReady.sub.depth_le (Nat.le_refl _)
      obtain ⟨code, added, f2, c2, hRun, hCut⟩ := descendInsertOn_spec fails hLen d1
        (fuel - (d1 + 1)) 1 hReady.sub hReady.room (Nat.zero_le _) hKey hReady.grew.nodup
        hReady.grew.owned
      rw [show d1 + 1 + (fuel - (d1 + 1)) = fuel by omega] at hRun
      rw [hRun]
      cases code with
      | none => exact ⟨_, _, rfl, fun hNo => absurd rfl hNo⟩
      | some err =>
        have hGrew := hReady.grew.trans hCut.grew
        have hExts : c2.exts = c.exts := (hCut.same nofun).trans hReady.exts
        refine ⟨_, _, rfl, fun _ => ⟨c2, ⟨fun _ => ⟨d1, ?_⟩, fun hNo => ?_, hGrew.nodup, hGrew.owned,
          ?_, hGrew.sound hRaised.sound⟩, hExts⟩⟩
        · rw [hCut.root]
          exact hCut.sub
        · exact absurd hNo (hTree (hGrew.same.indexed.trans hIdx'))
        · rw [hExts]
          exact hRaised.stops
  · rw [if_neg hIdx]
    obtain ⟨code, f', c', hRun, hd⟩ := insertLocked_spec h hLen hStop hFuel
    rw [insertLocked_eq, if_neg hIdx] at hRun
    exact ⟨code, f', hRun, fun hCode => ⟨c', hd.holds, hd.same hCode⟩⟩

/-- At most one tail is put back. -/
theorem insertAllOn_spec (fails : Nat → Nat → Bool) (h : Holds f c) (hFuel : 10 ≤ fuel)
    {l : List Extent} (hOne : l.length ≤ 1) (hFits : ∀ e ∈ l, 0 < e.len ∧ e.stop < fileTop) :
    ∃ code f', insertAllOn fails fuel 0 l f = some (code, f') ∧
      (code ≠ none → (∃ e, l = [e]) ∧ ∃ c', Holds f' c' ∧ c'.exts = c.exts) := by
  match l, hOne with
  | [], _ => exact ⟨none, f, rfl, fun hNo => absurd rfl hNo⟩
  | [e], _ =>
    obtain ⟨hLen, hStop⟩ := hFits e List.mem_cons_self
    obtain ⟨code, f', hRun, hSame⟩ := insertLockedOn_spec (fails 0) h hLen hStop hFuel
    unfold insertAllOn
    rw [hRun]
    cases code with
    | none => exact ⟨none, f', rfl, fun hNo => absurd rfl hNo⟩
    | some err => exact ⟨some err, f', rfl, fun hCode => ⟨⟨e, rfl⟩, hSame hCode⟩⟩

end Insert

--
-- The call
--

section Range

variable {start stop : Nat} {f : File}

/-- What a failed call leaves of the map `l`: outside the range it loses the tail of one extent
over `stop`, and nothing else. -/
def LosesTail (start stop : Nat) (l l' : List Extent) : Prop :=
  ∃ e ∈ l, e.offset < stop ∧ stop < e.stop ∧ ∀ b p fl, ¬ (start ≤ b ∧ b < stop) →
    (Maps l' b p fl ↔ Maps l b p fl ∧ ¬ (stop ≤ b ∧ e.covers b))

theorem Pruned.losesTail {g : File} {w w' : DeleteCtx} {c c' : Content} {y : Extent}
    {gone : List (Nat × Nat × Nat)} {ms : List Extent}
    (h : Pruned start stop f w c g w' c' [y] gone ms) (hDist : Distinct (cells c.exts))
    (hFew : w'.right.length < 4) : LosesTail start stop c.exts c'.exts := by
  obtain ⟨hOff, hStop⟩ := h.beyond y List.mem_cons_self
  have hParts := h.parts
  rw [List.map_singleton, cells_cons, cells_nil, List.append_nil] at hParts
  -- the cells of the tail
  have hTail : ∀ b p fl, (b, p, fl) ∈ (y.tail stop).cells →
      stop ≤ b ∧ y.covers b := by
    intro b p fl hx
    obtain ⟨⟨hFrom, hTo⟩, -⟩ := mem_extent_cells.mp hx
    have hLo : stop ≤ b := hFrom
    rw [Extent.stop_tail hStop] at hTo
    exact ⟨hLo, by omega, hTo⟩
  refine ⟨y, h.tails.subset List.mem_cons_self, hOff, hStop, fun b p fl hOut => ?_⟩
  rw [← mem_cells, ← mem_cells, hParts.mem_iff]
  constructor
  · intro hx
    refine ⟨List.mem_append_left _ hx, fun ⟨hLo, hCov⟩ => ?_⟩
    have hIn : (b, (y.tail stop).physAt b, y.flags) ∈ (y.tail stop).cells ++ gone := by
      refine List.mem_append_left _ (mem_extent_cells.mpr ⟨⟨hLo, ?_⟩, rfl, rfl⟩)
      rw [Extent.stop_tail hStop]
      exact hCov.2
    exact (hDist.perm hParts).apart hx hIn rfl
  · rintro ⟨hx, hNot⟩
    rcases List.mem_append.mp hx with hx | hx
    · exact hx
    · rcases List.mem_append.mp hx with hx | hx
      · exact absurd (hTail b p fl hx) hNot
      · exact absurd (h.within hFew _ hx) hOut

/-- Whatever fails in a range delete, nodes that cannot be read or blocks for nodes that are
missing: if it returns an error, then of the blocks outside the range exactly the tail of the one
extent over `stop` is not mapped any more. -/
theorem failed_delete_loses_tail (h : Good f) (hIdx : f.indexed = true) (hRange : start < stop)
    (faults : Faults) : ∃ q, deleteRangeOn faults levels f start stop = some q ∧
      (q.ret ≠ none → LosesTail start stop f.content.exts q.file.content.exts) := by
  obtain ⟨d, hSub⟩ := h.holds.tree hIdx
  have hLevels := hSub.levels_eq
  have hData := h.holds.inData h.owns
  have hOrd := h.holds.ordered h.noCross
  obtain ⟨rootEmpty, f1, w, c1, ms, hRun, ⟨⟨ys, gone, hp⟩, hGone, hKept⟩, -⟩ :=
    deleteSubtreeOn_spec faults.unreadable hRange (levels - (d + 1)) d
      ⟨[], f.nodeBudget, false, 0, 0, 0⟩ hSub h.holds.nodup hData
  rw [← hLevels] at hRun
  have hHolds : Holds (f1.afterWalk rootEmpty) c1 := Walked.holds h.holds hIdx hp h.owns hGone hKept
  have hRight : w.right = ys.map (Extent.tail stop) := by
    rw [hp.right, List.nil_append]
  have hOne := hp.length_le_one hOrd
  have hFits : ∀ e ∈ w.right, 0 < e.len ∧ e.stop < fileTop := by
    intro e he
    rw [hRight] at he
    obtain ⟨y, hy, rfl⟩ := List.mem_map.mp he
    obtain ⟨-, hOver⟩ := hp.beyond y hy
    rw [Extent.stop_tail hOver]
    refine ⟨?_, h.holds.stops y (hp.tails.subset hy)⟩
    show 0 < y.stop - stop
    omega
  have hFew : w.right.length ≤ 1 := by
    rw [hRight, List.length_map]
    exact hOne
  have hSkip : ¬ (f.indexed = false ∨ f.root = 0 ∨ stop ≤ start) := by
    rintro (hFlat | hRoot | hNone)
    · rw [hIdx] at hFlat
      cases hFlat
    · exact absurd hRoot (Nat.ne_of_gt hSub.pos)
    · omega
  unfold deleteRangeOn
  rw [if_neg hSkip, hRun]
  dsimp only
  by_cases hEmpty : rootEmpty = true ∧ w.right = []
  · rw [if_pos hEmpty]
    exact ⟨_, rfl, fun hNo => absurd rfl hNo⟩
  · rw [if_neg hEmpty]
    obtain ⟨code, f2, hAll, hFailed⟩ := insertAllOn_spec faults.fails hHolds ten_le_levels hFew hFits
    rw [hAll]
    cases code with
    | none => exact ⟨_, rfl, fun hNo => absurd rfl hNo⟩
    | some err =>
      refine ⟨_, rfl, fun _ => ?_⟩
      obtain ⟨⟨e, hTails⟩, c2, hHolds2, hExts⟩ := hFailed nofun
      dsimp only
      rw [hHolds2.content, hExts]
      -- the tail is the one of the only extent over the end of the range
      rw [hRight] at hTails
      obtain ⟨y, rfl, -⟩ := List.map_eq_singleton_iff.mp hTails
      exact hp.losesTail hOrd.distinct (by omega)

end Range

/-- 126 extents, the first of three blocks. -/
def leafExts : List Extent :=
  ⟨0, 1001, 3, 0⟩ :: (List.range 125).map fun i => ⟨10 * (i + 1), 1010 + i, 1, 0⟩

/-- They fill the root leaf of a file, on a full device. -/
def fullLeaf : File :=
  { newFile with
    nodes := Function.update (fun _ => none) 1200 (some (.leaf leafExts))
    indexed := true
    root := 1200
    total := 126
    maxEnd := 1251
    alloc := fullPool }

theorem fullLeaf_good : Good fullLeaf := by
  have hLeaf : LeafOk 0 fileTop leafExts := by
    refine ⟨?_, by decide +kernel, by decide +kernel, by decide +kernel⟩
    unfold Ordered
    decide +kernel
  have hNode : fullLeaf.nodes 1200 = some (.leaf leafExts) := by
    show (Function.update (fun _ => none) 1200 (some (.leaf leafExts)) : Nodes) 1200 = _
    rw [Function.update_self]
  have hTaken : ∀ b, 1000 < b → Allocated fullLeaf b := fun b hb =>
    ⟨b - 1000, by omega, (by show b = 1000 + (b - 1000); omega), fullPool_isFree _⟩
  have hHolds : Holds fullLeaf ⟨leafExts, [1200], []⟩ := by
    refine ⟨fun _ => ⟨0, by decide, hNode, rfl, rfl, hLeaf⟩, nofun, List.nodup_singleton _,
      fun b hb => ?_, by decide +kernel, fullPool_healthy⟩
    rw [List.mem_singleton.mp hb]
    exact hTaken 1200 (by decide)
  refine ⟨sound_of_content hHolds ⟨fun x hx => ?_, by decide +kernel, by decide +kernel⟩, ?_⟩
  · have hPast : ∀ x ∈ cells leafExts, 1000 < x.2.1 := by
      decide +kernel
    exact hTaken _ (hPast x hx)
  · rw [hHolds.content]
    exact fun _ _ _ hs => nomatch hs

/-- What the theorem says of that leaf. -/
theorem fullLeaf_loses_tail : ∃ q, deleteRangeOn noFaults levels fullLeaf 1 2 = some q ∧
    (q.ret ≠ none → LosesTail 1 2 fullLeaf.content.exts q.file.content.exts) :=
  failed_delete_loses_tail fullLeaf_good rfl (by decide) noFaults

/-- The block that is freed is not enough for the two nodes of a new root: the call fails, and
file block 2, which was mapped and is not in the range, is lost. -/
theorem failed_delete_loses_block : Good fullLeaf ∧ fullLeaf.indexed = true ∧
    ∃ q, deleteRangeOn noFaults levels fullLeaf 1 2 = some q ∧ q.ret = some .enospc ∧
      Maps fullLeaf.content.exts 2 1003 0 ∧ ∀ p fl, ¬ Maps q.file.content.exts 2 p fl := by
  have hEval : (deleteRangeOn noFaults levels fullLeaf 1 2).map
      (fun q => (q.ret, decide (∀ e ∈ q.file.content.exts, ¬ e.covers 2))) =
        some (some .enospc, true) := by
    decide +kernel
  obtain ⟨q, hRun, hEq⟩ := Option.map_eq_some_iff.mp hEval
  obtain ⟨hRet, hGone⟩ := Prod.mk.inj hEq
  refine ⟨fullLeaf_good, rfl, q, hRun, hRet,
    ⟨⟨0, 1001, 3, 0⟩, by decide +kernel, ⟨by decide, by decide⟩, rfl, rfl⟩, ?_⟩
  rintro p fl ⟨e, he, hCov, -⟩
  exact of_decide_eq_true hGone e he hCov

end Briefs.Btree
