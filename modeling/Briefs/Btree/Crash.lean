import Briefs.Btree.Leaf

/-!
# BrieFS — the extent tree across a crash

After an fsync the tree nodes on the disk and the inode snapshot in the journal
agree. From then on a node buffer that an insertion dirties can reach the disk
at any time, so a crash finds in each block the node of the fsync or any version
committed since, independently of the other blocks, and the inode with the root
of the fsync or any root published since.

A split truncates the old node in place and hangs the sibling into a parent, or
under a new root, that lives in another block: if the truncated node is the only
write that reaches the disk, what the sibling took is lost.

## Results

* `insertLocked_of_room` — an insertion that finds no full node on its way
  changes one leaf.
* `mapping_survives_of_room` — in a run of such insertions every crash image maps
  what the fsync mapped.
* `root_split_loses_mapping` — a root split after the fsync does not.
-/

namespace Briefs.Btree

open Briefs.Journal

--
-- Runs and crash images
--

/-- The tree maps the file block. -/
def Mapped (nodes : Nodes) (root iblock phys : Nat) : Prop :=
  ∃ fuel e, lookup nodes fuel root iblock = some (.ok e) ∧ e.physAt iblock = phys

/-- The state that an fsync leaves, where the histories start. -/
structure Synced (f : File) : Prop where
  indexed   : f.indexed = true
  commits   : f.commits = []
  published : f.published = []

/-- A run of insertions, each of them allowed by `Ok` in the state before it. -/
inductive Run (fuel : Nat) (Ok : File → Extent → Prop) (f0 : File) : File → Prop where
  | refl : Run fuel Ok f0 f0
  | insert {f f' : File} {ext : Extent} {ret : Option Errno} (h : Run fuel Ok f0 f)
      (hLen : 0 < ext.len) (hOk : Ok f ext) (hIns : insertLocked fuel f ext = some (ret, f')) :
      Run fuel Ok f0 f'

/-- What a crash after the run can leave on the disk. -/
structure CrashImage (f0 f : File) (nodes : Nodes) (root : Nat) : Prop where
  node : ∀ block, nodes block = f0.nodes block ∨
    ∃ n, (block, n) ∈ f.commits ∧ nodes block = some n
  root : root = f0.root ∨ root ∈ f.published

/-- Every crash image still maps the blocks that were mapped at the fsync, to
the same physical blocks. -/
def Survives (f0 f : File) : Prop :=
  ∀ nodes root, CrashImage f0 f nodes root → ∀ iblock phys,
    Mapped f0.nodes f0.root iblock phys → Mapped nodes root iblock phys

/-- No node on the way to `key` is full. -/
def pathHasRoom (nodes : Nodes) (key : Nat) : Nat → Nat → Bool
  | 0, _ => false
  | fuel + 1, block =>
    match readNode nodes block with
    | none => true
    | some (.leaf extents) => decide (extents.length < leafFanout)
    | some (.internal idx trailingChild) =>
      decide (idx.length < idxKeys) &&
        pathHasRoom nodes key fuel (childAt idx trailingChild (findChild idx key))

/-- The insertion needs no split. -/
def HasRoom (fuel : Nat) (f : File) (ext : Extent) : Prop :=
  pathHasRoom f.nodes ext.offset fuel f.root = true

/-- Every leaf is ordered. -/
def LeavesOrdered (nodes : Nodes) : Prop :=
  ∀ block extents, nodes block = some (.leaf extents) → Ordered extents

--
-- Insertion without a split
--

/-- The tree is unchanged, or one leaf took the extent. -/
def OneLeaf (ext : Extent) (f f' : File) : Prop :=
  (f'.nodes = f.nodes ∧ f'.commits = f.commits) ∨
    ∃ block extents added extents', f.nodes block = some (.leaf extents) ∧
      extents.length < leafFanout ∧ insertExtent extents ext = .ok (added, extents') ∧
      f'.nodes = Function.update f.nodes block (some (.leaf extents')) ∧
      f'.commits = f.commits ++ [(block, .leaf extents')]

/-- The root pointer and its history are unchanged. -/
structure SameRoot (f f' : File) : Prop where
  indexed   : f'.indexed = f.indexed
  root      : f'.root = f.root
  published : f'.published = f.published

theorem numKeys_lt_of_room {nodes : Nodes} {key fuel block : Nat} {node : Node}
    (hRoom : pathHasRoom nodes key fuel block = true) (hRead : readNode nodes block = some node) :
    node.numKeys < node.capacity := by
  cases fuel with
  | zero => cases hRoom
  | succ fuel =>
    unfold pathHasRoom at hRoom
    rw [hRead] at hRoom
    cases node with
    | leaf extents => exact of_decide_eq_true hRoom
    | internal idx trailingChild =>
      dsimp only at hRoom
      rw [Bool.and_eq_true] at hRoom
      exact of_decide_eq_true hRoom.1

theorem maybeSplitChild_of_room {f : File} (block : Nat) {fuel p key : Nat}
    {idx : List IdxEntry} {trailingChild : Nat}
    (hRoom : pathHasRoom f.nodes key fuel (childAt idx trailingChild p) = true) :
    maybeSplitChild f block idx trailingChild p = (none, f) ∨
      maybeSplitChild f block idx trailingChild p = (some .eio, f) := by
  unfold maybeSplitChild
  dsimp only
  cases hRead : readNode f.nodes (childAt idx trailingChild p) with
  | none => exact .inr rfl
  | some child =>
    dsimp only
    rw [if_pos (numKeys_lt_of_room hRoom hRead)]
    exact .inl rfl

theorem descendInsert_of_room {ext : Extent} : ∀ (fuel : Nat) {f f' : File} {block : Nat}
    {ret : Option Errno} {added : Bool},
    pathHasRoom f.nodes ext.offset fuel block = true →
    descendInsert ext fuel f block = some (ret, added, f') → OneLeaf ext f f' ∧ SameRoot f f' := by
  intro fuel
  induction fuel with
  | zero =>
    intro f f' block ret added hRoom h
    cases hRoom
  | succ fuel ih =>
    intro f f' block ret added hRoom h
    unfold descendInsert at h
    unfold pathHasRoom at hRoom
    cases hRead : readNode f.nodes block with
    | none =>
      rw [hRead] at h
      cases h
      exact ⟨.inl ⟨rfl, rfl⟩, ⟨rfl, rfl, rfl⟩⟩
    | some node =>
      rw [hRead] at h hRoom
      have hNode := (readNode_eq_some hRead).1
      cases node with
      | leaf extents =>
        dsimp only at h hRoom
        cases hIns : insertExtent extents ext with
        | error e =>
          rw [hIns] at h
          cases h
          exact ⟨.inl ⟨rfl, rfl⟩, ⟨rfl, rfl, rfl⟩⟩
        | ok r =>
          obtain ⟨added', extents'⟩ := r
          rw [hIns] at h
          cases h
          exact ⟨.inr ⟨block, extents, _, extents', hNode, of_decide_eq_true hRoom, hIns,
            rfl, rfl⟩, ⟨rfl, rfl, rfl⟩⟩
      | internal idx trailingChild =>
        dsimp only at h hRoom
        rw [Bool.and_eq_true] at hRoom
        rcases maybeSplitChild_of_room block hRoom.2 with hSplit | hSplit
        · rw [hSplit] at h
          dsimp only at h
          rw [hNode] at h
          dsimp only at h
          split at h
          · cases h
            exact ⟨.inl ⟨rfl, rfl⟩, ⟨rfl, rfl, rfl⟩⟩
          · exact ih hRoom.2 h
        · rw [hSplit] at h
          cases h
          exact ⟨.inl ⟨rfl, rfl⟩, ⟨rfl, rfl, rfl⟩⟩

/-- An insertion that finds no full node on its way. -/
theorem insertLocked_of_room {fuel : Nat} {f f' : File} {ext : Extent} {ret : Option Errno}
    (hIdx : f.indexed = true) (hRoom : HasRoom fuel f ext)
    (h : insertLocked fuel f ext = some (ret, f')) : OneLeaf ext f f' ∧ SameRoot f f' := by
  unfold insertLocked at h
  dsimp only at h
  rw [if_pos hIdx] at h
  unfold ensureRootRoom at h
  dsimp only at h
  cases hRead : readNode f.nodes f.root with
  | none =>
    rw [hRead] at h
    cases h
    exact ⟨.inl ⟨rfl, rfl⟩, ⟨rfl, rfl, rfl⟩⟩
  | some root =>
    rw [hRead] at h
    dsimp only at h
    rw [if_pos (numKeys_lt_of_room hRoom hRead)] at h
    dsimp only at h
    -- the tail cache is the only field that has changed so far
    have hStep : ∀ {ret' : Option Errno} {added : Bool} {g : File},
        descendInsert ext fuel { f with maxEnd := max f.maxEnd (ext.offset + ext.len) } f.root =
          some (ret', added, g) → OneLeaf ext f g ∧ SameRoot f g := by
      intro ret' added g hDesc
      obtain ⟨hLeaf, hSame⟩ := descendInsert_of_room fuel
        (f := { f with maxEnd := max f.maxEnd (ext.offset + ext.len) }) hRoom hDesc
      exact ⟨hLeaf, ⟨hSame.indexed, hSame.root, hSame.published⟩⟩
    split at h
    · cases h
    · rename_i hDesc
      cases h
      exact hStep hDesc
    · rename_i added g hDesc
      obtain ⟨hLeaf, hSame⟩ := hStep hDesc
      cases h
      split
      · exact ⟨hLeaf, ⟨hSame.indexed, hSame.root, hSame.published⟩⟩
      · exact ⟨hLeaf, hSame⟩

--
-- Crash images of a run without splits
--

/-- A version of a leaf: it can be read, and it maps what the leaf mapped. -/
structure Extends (extents0 extents : List Extent) : Prop where
  ordered : Ordered extents
  length  : extents.length ≤ leafFanout
  maps    : ∀ iblock e, lookupLeaf iblock extents0 = some e →
    ∃ e', lookupLeaf iblock extents = some e' ∧ e'.physAt iblock = e.physAt iblock

theorem length_insertExtent {extents extents' : List Extent} {ext : Extent} {added : Bool}
    (h : insertExtent extents ext = .ok (added, extents')) :
    extents'.length ≤ extents.length + 1 := by
  obtain ⟨l, r, rfl, -, -, -, hCases⟩ := insertExtent_cases h
  rcases hCases with ⟨l', left, rfl, -, -, rfl⟩ | ⟨right, r', rfl, -, -, rfl⟩ | ⟨-, rfl⟩ <;>
    simp only [List.length_append, List.length_cons, List.length_nil] <;> omega

theorem Extends.insert {extents0 extents extents' : List Extent} {ext : Extent} {added : Bool}
    (h : Extends extents0 extents) (hLen : 0 < ext.len) (hRoom : extents.length < leafFanout)
    (hIns : insertExtent extents ext = .ok (added, extents')) : Extends extents0 extents' := by
  refine ⟨ordered_insertExtent h.ordered hLen hIns, ?_, ?_⟩
  · have hLe := length_insertExtent hIns
    omega
  · intro iblock e he
    obtain ⟨e1, hLook1, hPhys1⟩ := h.maps iblock e he
    obtain ⟨e2, hLook2, hPhys2⟩ := mapped_insertExtent h.ordered hLen hIns hLook1
    exact ⟨e2, hLook2, hPhys2.trans hPhys1⟩

/-- Every version that a run without splits commits is a version of a leaf of
the fsync. -/
structure OnlyLeaves (f0 f : File) : Prop where
  indexed   : f.indexed = true
  root      : f.root = f0.root
  published : f.published = []
  nodes     : ∀ block, f.nodes block = f0.nodes block ∨ ∃ extents0 extents,
    f0.nodes block = some (.leaf extents0) ∧ f.nodes block = some (.leaf extents) ∧
      Extends extents0 extents
  commits   : ∀ block node, (block, node) ∈ f.commits → ∃ extents0 extents,
    f0.nodes block = some (.leaf extents0) ∧ node = .leaf extents ∧ Extends extents0 extents

theorem onlyLeaves_insert {fuel : Nat} {f0 f f' : File} {ext : Extent} {ret : Option Errno}
    (hOrd : LeavesOrdered f0.nodes) (h : OnlyLeaves f0 f) (hLen : 0 < ext.len)
    (hRoom : HasRoom fuel f ext) (hIns : insertLocked fuel f ext = some (ret, f')) :
    OnlyLeaves f0 f' := by
  obtain ⟨hLeaf, hSame⟩ := insertLocked_of_room h.indexed hRoom hIns
  have hIdx := hSame.indexed.trans h.indexed
  have hRoot := hSame.root.trans h.root
  have hPub := hSame.published.trans h.published
  rcases hLeaf with ⟨hNodes, hCommits⟩ | ⟨block, extents, added, extents', hNode, hFan, hTake,
    hNodes, hCommits⟩
  · refine ⟨hIdx, hRoot, hPub, ?_, ?_⟩
    · rw [hNodes]
      exact h.nodes
    · rw [hCommits]
      exact h.commits
  · -- the leaf was a version of a leaf of the fsync, so the new one is too
    have hVersion : ∃ extents0, f0.nodes block = some (.leaf extents0) ∧
        Extends extents0 extents' := by
      rcases h.nodes block with hOld | ⟨extents0, extents1, hOld, hNow, hExt⟩
      · rw [hNode] at hOld
        have hSelf : Extends extents extents :=
          ⟨hOrd block extents hOld.symm, Nat.le_of_lt hFan, fun iblock e he => ⟨e, he, rfl⟩⟩
        exact ⟨extents, hOld.symm, hSelf.insert hLen hFan hTake⟩
      · rw [hNode] at hNow
        cases hNow
        exact ⟨extents0, hOld, hExt.insert hLen hFan hTake⟩
    obtain ⟨extents0, hOld, hExt⟩ := hVersion
    refine ⟨hIdx, hRoot, hPub, ?_, ?_⟩
    · intro b
      rw [hNodes]
      by_cases hb : b = block
      · subst hb
        exact .inr ⟨extents0, extents', hOld, Function.update_self _ _ _, hExt⟩
      · rw [Function.update_of_ne hb]
        exact h.nodes b
    · intro b node hMem
      rw [hCommits, List.mem_append, List.mem_singleton] at hMem
      rcases hMem with hMem | hMem
      · exact h.commits b node hMem
      · cases hMem
        exact ⟨extents0, extents', hOld, rfl, hExt⟩

theorem onlyLeaves_run {fuel : Nat} {f0 f : File} (hSync : Synced f0)
    (hOrd : LeavesOrdered f0.nodes) (hRun : Run fuel (HasRoom fuel) f0 f) : OnlyLeaves f0 f := by
  induction hRun with
  | refl =>
    refine ⟨hSync.indexed, rfl, hSync.published, fun block => .inl rfl, ?_⟩
    intro block node hMem
    rw [hSync.commits] at hMem
    cases hMem
  | insert _ hLen hOk hIns ih => exact onlyLeaves_insert hOrd ih hLen hOk hIns

theorem readNode_of_extends {nodes : Nodes} {block : Nat} {extents0 extents : List Extent}
    (h : Extends extents0 extents) (hNode : nodes block = some (.leaf extents)) :
    readNode nodes block = some (.leaf extents) := by
  unfold readNode
  rw [hNode]
  exact if_pos h.length

/-- Lookup in a crash image of such a run. -/
theorem lookupBlock_crashImage {f0 f : File} {nodes : Nodes} {root : Nat} (h : OnlyLeaves f0 f)
    (hImage : CrashImage f0 f nodes root) : ∀ (fuel block iblock : Nat) {e : Extent},
    lookupBlock f0.nodes fuel block iblock = some (.ok e) →
    ∃ e', lookupBlock nodes fuel block iblock = some (.ok e') ∧
      e'.physAt iblock = e.physAt iblock := by
  intro fuel
  induction fuel with
  | zero =>
    intro block iblock e he
    cases he
  | succ fuel ih =>
    intro block iblock e he
    unfold lookupBlock at he ⊢
    cases hRead : readNode f0.nodes block with
    | none =>
      rw [hRead] at he
      cases he
    | some node =>
      rw [hRead] at he
      have hNode := (readNode_eq_some hRead).1
      cases node with
      | internal idx trailingChild =>
        -- no version of an internal node was committed
        have hSame : nodes block = f0.nodes block := by
          rcases hImage.node block with hSame | ⟨n, hMem, -⟩
          · exact hSame
          · obtain ⟨extents0, extents, hLeaf, -⟩ := h.commits block n hMem
            rw [hNode] at hLeaf
            cases hLeaf
        have hRead' : readNode nodes block = some (.internal idx trailingChild) := by
          unfold readNode at hRead ⊢
          rw [hSame]
          exact hRead
        rw [hRead']
        dsimp only at he ⊢
        split at he
        · cases he
        · rename_i hChild
          rw [if_neg hChild]
          exact ih _ iblock he
      | leaf extents0 =>
        dsimp only at he
        cases hLook : lookupLeaf iblock extents0 with
        | none =>
          rw [hLook] at he
          cases he
        | some e0 =>
          rw [hLook] at he
          cases he
          rcases hImage.node block with hSame | ⟨n, hMem, hNow⟩
          · have hRead' : readNode nodes block = some (.leaf extents0) := by
              unfold readNode at hRead ⊢
              rw [hSame]
              exact hRead
            rw [hRead']
            dsimp only
            rw [hLook]
            exact ⟨e, rfl, rfl⟩
          · obtain ⟨extents1, extents, hLeaf, rfl, hExt⟩ := h.commits block n hMem
            rw [hNode] at hLeaf
            cases hLeaf
            obtain ⟨e', hLook', hPhys⟩ := hExt.maps iblock e hLook
            rw [readNode_of_extends hExt hNow]
            dsimp only
            rw [hLook']
            exact ⟨e', rfl, hPhys⟩

/-- **The extent tree across a crash.** In every run of insertions after an
fsync that need no split, every crash image maps the blocks that were mapped at
the fsync, to the same physical blocks. -/
theorem mapping_survives_of_room (fuel : Nat) {f0 f : File} (hSync : Synced f0)
    (hOrd : LeavesOrdered f0.nodes) (hRun : Run fuel (HasRoom fuel) f0 f) : Survives f0 f := by
  intro nodes root hImage iblock phys hMapped
  have hLeaves := onlyLeaves_run hSync hOrd hRun
  have hRoot : root = f0.root := by
    rcases hImage.root with hRoot | hRoot
    · exact hRoot
    · rw [hLeaves.published] at hRoot
      cases hRoot
  obtain ⟨n, e, hLook, rfl⟩ := hMapped
  unfold lookup at hLook
  split at hLook
  · cases hLook
  rename_i hNonzero
  obtain ⟨e', hLook', hPhys⟩ := lookupBlock_crashImage hLeaves hImage n f0.root iblock hLook
  refine ⟨n, e', ?_, hPhys⟩
  unfold lookup
  rw [hRoot, if_neg hNonzero]
  exact hLook'

/-- A device of 128 blocks with blocks 64 and 65 free. -/
def twoFree : Alloc where
  l0 _ := 1#64
  l1 _ := 2#64
  l2 w := if w = 1 then 3#64 else 0#64
  l0Words := 1
  l1Words := 1
  l2Words := 2
  blockCount := 128
  freeCount := 2#64
  metaShield := 0#64
  roverW0 := 0
  roverW2High := 0
  firstFreeW2 := 0
  l2Dirty _ := false
  hL2 := Alloc.two_words
  hL1 := Alloc.two_le_word
  hL0 := Alloc.one_le_word

/-- A file whose root, block 110, is a leaf with `n` extents: every second file
block is mapped. -/
def leafFile (n : Nat) : File where
  nodes block := if block = 110 then
      some (.leaf ((List.range n).map fun i =>
        { offset := 2 * i, phys := 1000 + 2 * i, len := 1, flags := 0 }))
    else none
  alloc := twoFree
  dataStart := 100
  indexed := true
  root := 110
  inline := []
  total := n
  maxEnd := 2 * n
  commits := []
  published := []

theorem leavesOrdered_leafFile (n : Nat) : LeavesOrdered (leafFile n).nodes := by
  intro block extents h
  have hList : extents = (List.range n).map fun i =>
      { offset := 2 * i, phys := 1000 + 2 * i, len := 1, flags := 0 } := by
    unfold leafFile at h
    dsimp only at h
    split at h
    · cases h
      rfl
    · cases h
  rw [hList]
  unfold Ordered
  rw [List.pairwise_map]
  refine List.Pairwise.imp ?_ List.pairwise_lt_range
  intro a b hab
  show 2 * a + 1 ≤ 2 * b
  omega

/-- The extents that the split leaves in the old root. -/
def firstHalf : List Extent :=
  (List.range 63).map fun i => { offset := 2 * i, phys := 1000 + 2 * i, len := 1, flags := 0 }

/-- The appended extent. -/
def appended : Extent := { offset := 300, phys := 5000, len := 1, flags := 0 }

/-- A full root leaf is split after the fsync, and the truncated leaf is the
only write that reaches the disk: file block 250 is lost. -/
theorem root_split_loses_mapping :
    ∃ f, Synced (leafFile 126) ∧ LeavesOrdered (leafFile 126).nodes ∧
      Run 4 (fun _ _ => True) (leafFile 126) f ∧ ¬ Survives (leafFile 126) f := by
  have hDone : ((insertLocked 4 (leafFile 126) appended).any fun r =>
      decide ((110, Node.leaf firstHalf) ∈ r.2.commits)) = true := by decide +kernel
  cases hIns : insertLocked 4 (leafFile 126) appended with
  | none =>
    rw [hIns] at hDone
    cases hDone
  | some r =>
    obtain ⟨ret, f⟩ := r
    rw [hIns] at hDone
    have hMem : (110, Node.leaf firstHalf) ∈ f.commits := of_decide_eq_true hDone
    refine ⟨f, ⟨rfl, rfl, rfl⟩, leavesOrdered_leafFile 126,
      .insert .refl (by decide) trivial hIns, ?_⟩
    intro hSurvives
    have hImage : CrashImage (leafFile 126) f
        (Function.update (leafFile 126).nodes 110 (some (.leaf firstHalf))) 110 := by
      refine ⟨fun block => ?_, .inl rfl⟩
      by_cases hBlock : block = 110
      · subst hBlock
        exact .inr ⟨_, hMem, Function.update_self _ _ _⟩
      · exact .inl (Function.update_of_ne hBlock _ _)
    have hMapped : Mapped (leafFile 126).nodes (leafFile 126).root 250 1250 :=
      ⟨1, { offset := 250, phys := 1250, len := 1, flags := 0 }, by decide +kernel, rfl⟩
    obtain ⟨fuel, e, hLook, -⟩ := hSurvives _ _ hImage 250 1250 hMapped
    cases fuel with
    | zero => cases hLook
    | succ fuel =>
      have hLost : lookup (Function.update (leafFile 126).nodes 110 (some (.leaf firstHalf)))
          (fuel + 1) 110 250 = some (.error .enoent) := rfl
      rw [hLost] at hLook
      cases hLook

/-- A file with room in its root leaf. -/
theorem mapping_survives_insert :
    ∃ f, Run 4 (HasRoom 4) (leafFile 3) f ∧ f.commits ≠ [] ∧ Survives (leafFile 3) f := by
  have hDone : ((insertLocked 4 (leafFile 3) appended).any fun r =>
      decide (r.2.commits ≠ [])) = true := by decide
  cases hIns : insertLocked 4 (leafFile 3) appended with
  | none =>
    rw [hIns] at hDone
    cases hDone
  | some r =>
    obtain ⟨ret, f⟩ := r
    rw [hIns] at hDone
    have hRun : Run 4 (HasRoom 4) (leafFile 3) f :=
      .insert .refl (by decide) (by unfold HasRoom; decide) hIns
    exact ⟨f, hRun, of_decide_eq_true hDone,
      mapping_survives_of_room 4 ⟨rfl, rfl, rfl⟩ (leavesOrdered_leafFile 3) hRun⟩

end Briefs.Btree
