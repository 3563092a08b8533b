import Briefs.Btree.Range
import Briefs.Btree.Spend

/-!
# BrieFS — taking a tree down

`briefs_btree_free_all` frees the data and the nodes of an inode, `briefs_btree_free_nodes_only`
the nodes alone. Both walk the tree with a budget of `num_extents_total + 16` nodes, at most 2^20,
which the source takes for more than any tree has.

A walk is the list of the calls of the allocator that it makes (`frees`). Every node of the list
was paid for, so a tree with more nodes than the budget leaves nodes behind; one with no more
nodes is taken down completely.

## Results

* `teardown_complete_iff` — in every state of every run, the teardown and the range delete come to
  every node if and only if there are no more of them than the budget.
-/

namespace Briefs.Btree

open Briefs.Journal

--
-- The code
--

/-- The loop that frees the data blocks of the extents of a leaf, or of the inline array. -/
def File.freeExtents (f : File) (extents : List Extent) : File :=
  extents.foldl (fun f e => if 0 < e.len ∧ 0 < e.phys then f.freeData e.phys e.len else f) f

/-- `btree_free_subtree` with `fuel` levels left. -/
def freeSubtree : Nat → File → Nat → Nat → Option (File × Nat)
  | 0, _, _, _ => none
  | fuel + 1, f, cap, block =>
    if block = 0 ∨ cap = 0 then some (f, cap)
    else
      match readNode f.nodes block with
      | none => some (f, cap - 1)
      | some (.leaf extents) => some ((f.freeExtents extents).freeNode block, cap - 1)
      | some (.internal idx tr) =>
        match freeChildren (freeSubtree fuel) (childList idx tr) f (cap - 1) with
        | none => none
        | some (f, cap) => some (f.freeNode block, cap)

/-- `briefs_btree_free_all`. -/
def freeAll (fuel : Nat) (f : File) : Option File :=
  if f.indexed = false then some (f.freeExtents f.inline)
  else if f.root = 0 then some f
  else (freeSubtree fuel f (min (f.total + 16) (2 ^ 20)) f.root).map Prod.fst

--
-- The calls of the allocator
--

/-- A call of the allocator: for the run of an extent, or for a node. -/
inductive Free where
  | data (phys len : Nat)
  | node (block : Nat)
  deriving DecidableEq

def File.free (f : File) : Free → File
  | .data phys len => f.freeData phys len
  | .node block => f.freeNode block

/-- The calls for the data of some extents. -/
def dataFrees (extents : List Extent) : List Free :=
  (extents.filter fun e => decide (0 < e.len ∧ 0 < e.phys)).map fun e => .data e.phys e.len

def freesChildren (below : Nat → Nat → List Free × Nat) : List Nat → Nat → List Free × Nat
  | [], cap => ([], cap)
  | child :: rest, cap =>
    let (l, cap) := below cap child
    let (r, cap) := freesChildren below rest cap
    (l ++ r, cap)

/-- The calls of a walk below `block`, and the budget that is left. `leaf` is what it frees of a
leaf besides the node. -/
def frees (leaf : List Extent → List Free) (nodes : Nodes) : Nat → Nat → Nat → List Free × Nat
  | 0, cap, _ => ([], cap)
  | fuel + 1, cap, block =>
    if block = 0 ∨ cap = 0 then ([], cap)
    else match readNode nodes block with
      | none => ([], cap - 1)
      | some (.leaf extents) => (leaf extents ++ [.node block], cap - 1)
      | some (.internal idx tr) =>
        let (l, cap) := freesChildren (frees leaf nodes fuel) (childList idx tr) (cap - 1)
        (l ++ [.node block], cap)

/-- The calls of `briefs_btree_free_all`. -/
def File.allFrees (f : File) : List Free :=
  if f.indexed = false then dataFrees f.inline
  else (frees dataFrees f.nodes levels f.nodeBudget f.root).1

/-- The calls of `briefs_btree_free_nodes_only`. -/
def File.nodeFrees (f : File) : List Free :=
  if f.indexed = false then [] else (frees (fun _ => []) f.nodes levels f.nodeBudget f.root).1

section Calls

variable {f : File} {leaf : List Extent → List Free}

theorem foldl_free_nodes (l : List Free) : ∀ (f : File), (l.foldl File.free f).nodes = f.nodes := by
  induction l with
  | nil => exact fun _ => rfl
  | cons x l ih =>
    intro f
    rw [List.foldl_cons, ih]
    cases x with
    | data phys len => rfl
    | node block => rfl

theorem freeExtents_eq (extents : List Extent) : ∀ (f : File),
    f.freeExtents extents = (dataFrees extents).foldl File.free f := by
  induction extents with
  | nil => exact fun _ => rfl
  | cons e extents ih =>
    intro f
    unfold File.freeExtents dataFrees at ih ⊢
    rw [List.foldl_cons, List.filter_cons]
    by_cases hPos : 0 < e.len ∧ 0 < e.phys
    · rw [if_pos hPos, ih, if_pos (decide_eq_true hPos)]
      rfl
    · have hNo : ¬ decide (0 < e.len ∧ 0 < e.phys) = true := by simpa using hPos
      rw [if_neg hPos, ih, if_neg hNo]

/-- The walk makes these calls and does nothing else. -/
def Follows (walk : File → Nat → Nat → Option (File × Nat))
    (calls : Nodes → Nat → Nat → List Free × Nat) : Prop :=
  ∀ (f : File) (cap block : Nat) (r : File × Nat), walk f cap block = some r →
    r = ((calls f.nodes cap block).1.foldl File.free f, (calls f.nodes cap block).2)

theorem freeChildren_follows {walk : File → Nat → Nat → Option (File × Nat)}
    {calls : Nodes → Nat → Nat → List Free × Nat} (h : Follows walk calls) :
    ∀ (children : List Nat) {f : File} {cap : Nat} {r : File × Nat},
      freeChildren walk children f cap = some r →
      r = ((freesChildren (calls f.nodes) children cap).1.foldl File.free f,
        (freesChildren (calls f.nodes) children cap).2) := by
  intro children
  induction children with
  | nil =>
    intro f cap r hEq
    exact (Option.some.inj hEq).symm
  | cons child rest ih =>
    intro f cap r hEq
    unfold freeChildren at hEq
    cases hWalk : walk f cap child with
    | none =>
      rw [hWalk] at hEq
      cases hEq
    | some r₁ =>
      obtain rfl := h f cap child r₁ hWalk
      rw [hWalk] at hEq
      have hRest := ih hEq
      rw [foldl_free_nodes] at hRest
      rw [hRest, ← List.foldl_append]
      rfl

theorem freeChildren_total {walk : File → Nat → Nat → Option (File × Nat)}
    {calls : Nodes → Nat → Nat → List Free × Nat} (h : Follows walk calls) {d tr hi : Nat}
    (hWalk : ∀ (f : File) (cap block lo hi : Nat) (c : Content), Child f.nodes d block lo hi c →
      ∃ r, walk f cap block = some r) :
    ∀ {idx : List IdxEntry} {f : File} {cap lo : Nat} {c : Content},
      Kids (Child f.nodes d) tr idx lo hi c →
      ∃ r, freeChildren walk (childList idx tr) f cap = some r := by
  intro idx
  induction idx with
  | nil =>
    intro f cap lo c hKids
    obtain ⟨r, hRun⟩ := hWalk f cap tr lo hi c hKids
    refine ⟨r, ?_⟩
    show freeChildren walk [tr] f cap = some r
    unfold freeChildren
    rw [hRun]
    rfl
  | cons e idx ih =>
    intro f cap lo c hKids
    obtain ⟨c₁, c₂, rfl, hFirst, hRest⟩ := hKids
    obtain ⟨⟨f₁, cap₁⟩, hRun⟩ := hWalk f cap e.child lo e.highKey c₁ hFirst
    -- freeing changes no node, so the other children are as they were
    have hSame : f₁.nodes = f.nodes := by
      rw [(Prod.mk.inj (h f cap e.child _ hRun)).1, foldl_free_nodes]
    obtain ⟨r, hTail⟩ : ∃ r, freeChildren walk (childList idx tr) f₁ cap₁ = some r :=
      ih (hSame ▸ hRest)
    refine ⟨r, ?_⟩
    show freeChildren walk (e.child :: childList idx tr) f cap = some r
    unfold freeChildren
    rw [hRun]
    exact hTail

/-- One level of a walk over the nodes. -/
theorem follows_succ {walk walk' : File → Nat → Nat → Option (File × Nat)} {fuel : Nat}
    (h : Follows walk fun nodes => frees leaf nodes fuel)
    (hWalk : ∀ f cap block, walk' f cap block = if block = 0 ∨ cap = 0 then some (f, cap) else
      match readNode f.nodes block with
      | none => some (f, cap - 1)
      | some (.leaf extents) => some (((leaf extents).foldl File.free f).freeNode block, cap - 1)
      | some (.internal idx tr) =>
        match freeChildren walk (childList idx tr) f (cap - 1) with
        | none => none
        | some (f, cap) => some (f.freeNode block, cap)) :
    Follows walk' fun nodes => frees leaf nodes (fuel + 1) := by
  intro f cap block r hEq
  rw [hWalk] at hEq
  dsimp only
  unfold frees
  by_cases hStop : block = 0 ∨ cap = 0
  · rw [if_pos hStop] at hEq ⊢
    exact (Option.some.inj hEq).symm
  · rw [if_neg hStop] at hEq ⊢
    cases hNode : readNode f.nodes block with
    | none =>
      rw [hNode] at hEq
      exact (Option.some.inj hEq).symm
    | some node =>
      rw [hNode] at hEq
      cases node with
      | leaf extents =>
        rw [← Option.some.inj hEq, List.foldl_append]
        rfl
      | internal idx tr =>
        dsimp only at hEq
        cases hKids : freeChildren walk (childList idx tr) f (cap - 1) with
        | none =>
          rw [hKids] at hEq
          cases hEq
        | some r₁ =>
          obtain rfl := freeChildren_follows h _ hKids
          rw [hKids] at hEq
          rw [← Option.some.inj hEq, List.foldl_append]
          rfl

theorem freeNodesSubtree_follows : ∀ (fuel : Nat),
    Follows (freeNodesSubtree fuel) fun nodes => frees (fun _ => []) nodes fuel := by
  intro fuel
  induction fuel with
  | zero =>
    intro f cap block r hEq
    cases hEq
  | succ fuel ih => exact follows_succ ih fun _ _ _ => rfl

theorem freeSubtree_follows : ∀ (fuel : Nat),
    Follows (freeSubtree fuel) fun nodes => frees dataFrees nodes fuel := by
  intro fuel
  induction fuel with
  | zero =>
    intro f cap block r hEq
    cases hEq
  | succ fuel ih =>
    refine follows_succ ih fun f cap block => ?_
    unfold freeSubtree
    simp only [freeExtents_eq]

/-- A walk over a tree comes to an end. -/
theorem freeSubtree_total (fuel : Nat) : ∀ (d : Nat) {f : File} (cap : Nat) {block lo hi : Nat}
    {c : Content}, Sub f.nodes d block lo hi c →
    ∃ r, freeSubtree (d + 1 + fuel) f cap block = some r := by
  intro d
  induction d with
  | zero =>
    intro f cap block lo hi c h
    obtain ⟨-, hNode, -, -, hLeaf⟩ := h
    have hFuel : 0 + 1 + fuel = fuel + 1 := by omega
    rw [hFuel]
    unfold freeSubtree
    by_cases hStop : block = 0 ∨ cap = 0
    · rw [if_pos hStop]
      exact ⟨_, rfl⟩
    · rw [if_neg hStop, readNode_of_le hNode hLeaf.fanout]
      exact ⟨_, rfl⟩
  | succ d ih =>
    intro f cap block lo hi c h
    obtain ⟨-, idx, tr, kids, hNode, hKeys, rfl, hKids⟩ := h
    have hFuel : d + 1 + 1 + fuel = (d + 1 + fuel) + 1 := by omega
    rw [hFuel]
    unfold freeSubtree
    by_cases hStop : block = 0 ∨ cap = 0
    · rw [if_pos hStop]
      exact ⟨_, rfl⟩
    · rw [if_neg hStop, readNode_of_le hNode hKeys]
      obtain ⟨r, hRun⟩ : ∃ r, freeChildren (freeSubtree (d + 1 + fuel)) (childList idx tr) f
          (cap - 1) = some r := freeChildren_total (freeSubtree_follows _)
        (fun f cap block lo hi c hc => ih cap hc.2) hKids
      dsimp only
      rw [hRun]
      exact ⟨_, rfl⟩

/-- `briefs_btree_free_all` makes the calls of its list. -/
theorem freeAll_eq {c : Content} (h : Holds f c) :
    freeAll levels f = some (f.allFrees.foldl File.free f) := by
  unfold freeAll File.allFrees
  by_cases hIdx : f.indexed = false
  · rw [if_pos hIdx, if_pos hIdx, freeExtents_eq]
  · rw [if_neg hIdx, if_neg hIdx]
    obtain ⟨d, hSub⟩ := h.tree (by simpa using hIdx)
    have hLevels := hSub.levels_eq
    obtain ⟨r, hRun⟩ := freeSubtree_total (levels - (d + 1)) d f.nodeBudget hSub
    rw [← hLevels] at hRun
    rw [if_neg (Nat.ne_of_gt hSub.pos)]
    show (freeSubtree levels f f.nodeBudget f.root).map Prod.fst = _
    rw [hRun, freeSubtree_follows levels _ _ _ _ hRun]
    rfl

/-- `briefs_btree_free_nodes_only` makes the calls of its list. -/
theorem freeNodesOnly_eq {c : Content} (h : Holds f c) :
    freeNodesOnly levels f = some (f.nodeFrees.foldl File.free f) := by
  obtain ⟨g, hEq, -⟩ := freeNodesOnly_spec h ten_le_levels
  rw [hEq]
  unfold freeNodesOnly at hEq
  unfold File.nodeFrees
  by_cases hIdx : f.indexed = false
  · rw [if_pos (Or.inl hIdx)] at hEq
    rw [if_pos hIdx]
    exact hEq.symm
  · obtain ⟨d, hSub⟩ := h.tree (by simpa using hIdx)
    have hRoot : f.root ≠ 0 := Nat.ne_of_gt hSub.pos
    rw [if_neg (not_or.mpr ⟨hIdx, hRoot⟩)] at hEq
    rw [if_neg hIdx]
    obtain ⟨r, hRun, rfl⟩ := Option.map_eq_some_iff.mp hEq
    rw [freeNodesSubtree_follows levels _ _ _ _ hRun]
    rfl

end Calls

--
-- The budget
--

/-- The nodes that are freed. -/
def freedNodes (l : List Free) : List Nat :=
  l.filterMap fun
    | .node block => some block
    | .data _ _ => none

theorem freedNodes_append (l r : List Free) : freedNodes (l ++ r) = freedNodes l ++ freedNodes r :=
  List.filterMap_append

theorem mem_freedNodes {l : List Free} {b : Nat} (h : Free.node b ∈ l) : b ∈ freedNodes l :=
  List.mem_filterMap.mpr ⟨_, h, rfl⟩

section Budget

variable {leaf : List Extent → List Free} {nodes : Nodes}

theorem freesChildren_paid {below : Nat → Nat → List Free × Nat}
    (h : ∀ cap block, (freedNodes (below cap block).1).length + (below cap block).2 ≤ cap) :
    ∀ (children : List Nat) (cap : Nat),
      (freedNodes (freesChildren below children cap).1).length +
        (freesChildren below children cap).2 ≤ cap := by
  intro children
  induction children with
  | nil => exact fun cap => Nat.le_of_eq (Nat.zero_add cap)
  | cons child rest ih =>
    intro cap
    unfold freesChildren
    have hFirst := h cap child
    have hRest := ih (below cap child).2
    dsimp only
    rw [freedNodes_append, List.length_append]
    omega

/-- Every node that a walk frees is taken from its budget. -/
theorem frees_paid (hLeaf : ∀ extents, freedNodes (leaf extents) = []) : ∀ (fuel cap block : Nat),
    (freedNodes (frees leaf nodes fuel cap block).1).length + (frees leaf nodes fuel cap block).2 ≤
      cap := by
  intro fuel
  induction fuel with
  | zero => exact fun cap _ => Nat.le_of_eq (Nat.zero_add cap)
  | succ fuel ih =>
    intro cap block
    unfold frees
    by_cases hStop : block = 0 ∨ cap = 0
    · rw [if_pos hStop]
      exact Nat.le_of_eq (Nat.zero_add cap)
    · rw [if_neg hStop]
      have hCap : 0 < cap := by omega
      cases readNode nodes block with
      | none =>
        show 0 + (cap - 1) ≤ cap
        omega
      | some node =>
        cases node with
        | leaf extents =>
          dsimp only
          rw [freedNodes_append, hLeaf]
          show 1 + (cap - 1) ≤ cap
          omega
        | internal idx tr =>
          have hBelow := freesChildren_paid ih (childList idx tr) (cap - 1)
          dsimp only
          rw [freedNodes_append, List.length_append]
          show _ + 1 + _ ≤ cap
          omega

/-- The calls free every node of the subtree and every leaf's part. -/
structure Complete (leaf : List Extent → List Free) (c : Content) (l : List Free) : Prop where
  nodes : ∀ b ∈ c.blocks, Free.node b ∈ l
  data  : ∀ e ∈ c.exts, ∃ extents, e ∈ extents ∧ leaf extents ⊆ l

theorem Complete.append {c c' : Content} {l l' : List Free} (h : Complete leaf c l)
    (h' : Complete leaf c' l') : Complete leaf (c ++ c') (l ++ l') := by
  constructor
  · intro b hb
    rcases List.mem_append.mp hb with hb | hb
    · exact List.mem_append_left _ (h.nodes b hb)
    · exact List.mem_append_right _ (h'.nodes b hb)
  · intro e he
    rcases List.mem_append.mp he with he | he
    · obtain ⟨extents, hIn, hSub⟩ := h.data e he
      exact ⟨extents, hIn, fun x hx => List.mem_append_left _ (hSub hx)⟩
    · obtain ⟨extents, hIn, hSub⟩ := h'.data e he
      exact ⟨extents, hIn, fun x hx => List.mem_append_right _ (hSub hx)⟩

theorem freesChildren_complete {d tr hi : Nat} {below : Nat → Nat → List Free × Nat}
    (h : ∀ (cap block lo hi : Nat) (c : Content), Child nodes d block lo hi c →
      c.blocks.length ≤ cap →
      Complete leaf c (below cap block).1 ∧ cap ≤ (below cap block).2 + c.blocks.length) :
    ∀ {idx : List IdxEntry} {cap lo : Nat} {c : Content}, Kids (Child nodes d) tr idx lo hi c →
      c.blocks.length ≤ cap → Complete leaf c (freesChildren below (childList idx tr) cap).1 ∧
        cap ≤ (freesChildren below (childList idx tr) cap).2 + c.blocks.length := by
  intro idx
  induction idx with
  | nil =>
    intro cap lo c hKids hCap
    obtain ⟨hAll, hLeft⟩ := h cap tr lo hi c hKids hCap
    have hEq : freesChildren below (childList [] tr) cap =
        ((below cap tr).1 ++ [], (below cap tr).2) := rfl
    rw [hEq, List.append_nil]
    exact ⟨hAll, hLeft⟩
  | cons e idx ih =>
    intro cap lo c hKids hCap
    obtain ⟨c₁, c₂, rfl, hFirst, hRest⟩ := hKids
    have hLen : (c₁ ++ (Content.sep e.highKey ++ c₂)).blocks.length =
        c₁.blocks.length + c₂.blocks.length := by
      simp
    rw [hLen] at hCap ⊢
    have hHead : c₁.blocks.length ≤ cap := by omega
    obtain ⟨hAll₁, hLeft₁⟩ := h cap e.child lo e.highKey c₁ hFirst hHead
    have hTail : c₂.blocks.length ≤ (below cap e.child).2 := by omega
    obtain ⟨hAll₂, hLeft₂⟩ := ih hRest hTail
    have hEq : freesChildren below (childList (e :: idx) tr) cap =
        ((below cap e.child).1 ++
            (freesChildren below (childList idx tr) (below cap e.child).2).1,
          (freesChildren below (childList idx tr) (below cap e.child).2).2) := rfl
    rw [hEq]
    refine ⟨hAll₁.append ⟨fun b hb => hAll₂.nodes b hb, fun x hx => hAll₂.data x hx⟩, ?_⟩
    dsimp only
    omega

/-- With a budget for every node, the walk frees all of them. -/
theorem frees_complete : ∀ (fuel : Nat) {d cap block lo hi : Nat} {c : Content},
    Sub nodes d block lo hi c → d < fuel → c.blocks.length ≤ cap →
    Complete leaf c (frees leaf nodes fuel cap block).1 ∧
      cap ≤ (frees leaf nodes fuel cap block).2 + c.blocks.length := by
  intro fuel
  induction fuel with
  | zero =>
    intro d cap block lo hi c h hFuel
    omega
  | succ fuel ih =>
    intro d cap block lo hi c h hFuel hCap
    have hPos := h.pos
    have hOne : 0 < c.blocks.length := List.length_pos_of_mem h.block_mem
    unfold frees
    rw [if_neg (by omega)]
    cases d with
    | zero =>
      obtain ⟨-, hNode, hBlocks, -, hLeaf⟩ := h
      rw [readNode_of_le hNode hLeaf.fanout]
      refine ⟨⟨fun b hb => ?_, fun e he => ⟨c.exts, he, fun x hx => List.mem_append_left _ hx⟩⟩, ?_⟩
      · rw [hBlocks, List.mem_singleton] at hb
        rw [hb]
        exact List.mem_append_right _ List.mem_cons_self
      · dsimp only
        omega
    | succ d =>
      obtain ⟨-, idx, tr, kids, hNode, hKeys, rfl, hKids⟩ := h
      rw [readNode_of_le hNode hKeys]
      dsimp only at hCap ⊢
      rw [List.length_cons] at hCap ⊢
      have hDown : d < fuel := by omega
      have hBelow : kids.blocks.length ≤ cap - 1 := by omega
      obtain ⟨hAll, hLeft⟩ :
          Complete leaf kids (freesChildren (frees leaf nodes fuel) (childList idx tr) (cap - 1)).1 ∧
            cap - 1 ≤ (freesChildren (frees leaf nodes fuel) (childList idx tr) (cap - 1)).2 +
              kids.blocks.length :=
        freesChildren_complete (fun _ _ _ _ _ hc hCap => ih hc.2 hDown hCap) hKids hBelow
      refine ⟨⟨fun b hb => ?_, fun e he => ?_⟩, by omega⟩
      · rcases List.mem_cons.mp hb with rfl | hb
        · exact List.mem_append_right _ List.mem_cons_self
        · exact List.mem_append_left _ (hAll.nodes b hb)
      · obtain ⟨extents, hIn, hSub⟩ := hAll.data e he
        exact ⟨extents, hIn, fun x hx => List.mem_append_left _ (hSub hx)⟩

end Budget

--
-- What is free in the end
--

/-- The call is one for the block. -/
def Free.covers (block : Nat) : Free → Prop
  | .data phys len => phys ≤ block ∧ block < phys + len
  | .node b => block = b

theorem free_isFree {f : File} {x : Free} {rel : Nat} (hRel : rel < f.alloc.blockCount) :
    f.alloc.isFree rel = true ∨ x.covers (f.dataStart + rel) →
    (f.free x).alloc.isFree rel = true := by
  intro h
  cases x with
  | data phys len =>
    show (f.alloc.freeBlocks (phys - f.dataStart) len).isFree rel = true
    rw [Alloc.isFree_freeBlocks, Bool.or_eq_true, decide_eq_true_eq]
    refine h.imp_right fun hIn => ?_
    obtain ⟨hLo, hHi⟩ : phys ≤ f.dataStart + rel ∧ f.dataStart + rel < phys + len := hIn
    omega
  | node block =>
    show (f.alloc.freeBlock (block - f.dataStart)).isFree rel = true
    rw [Alloc.isFree_freeBlock, Bool.or_eq_true, decide_eq_true_eq]
    refine h.imp_right fun hIn => ?_
    have hEq : f.dataStart + rel = block := hIn
    omega

theorem free_state (f : File) (x : Free) :
    (f.free x).alloc.blockCount = f.alloc.blockCount ∧ (f.free x).dataStart = f.dataStart := by
  cases x with
  | data phys len => exact ⟨Alloc.blockCount_freeBlocks _ _ _, rfl⟩
  | node block => exact ⟨Alloc.blockCount_freeBlock _ _, rfl⟩

/-- A block of the device that one of the calls is for is free in the end. -/
theorem foldl_free_isFree (l : List Free) : ∀ {f : File} {rel : Nat}, rel < f.alloc.blockCount →
    (f.alloc.isFree rel = true ∨ ∃ x ∈ l, x.covers (f.dataStart + rel)) →
    (l.foldl File.free f).alloc.isFree rel = true := by
  induction l with
  | nil =>
    rintro f rel - (hFree | ⟨x, hx, -⟩)
    · exact hFree
    · cases hx
  | cons y l ih =>
    intro f rel hRel h
    obtain ⟨hCount, hStart⟩ := free_state f y
    rw [List.foldl_cons]
    refine ih (hCount.symm ▸ hRel) ?_
    rw [hStart]
    rcases h with hFree | ⟨x, hx, hIn⟩
    · exact Or.inl (free_isFree hRel (Or.inl hFree))
    · rcases List.mem_cons.mp hx with rfl | hx
      · exact Or.inl (free_isFree hRel (Or.inr hIn))
      · exact Or.inr ⟨x, hx, hIn⟩

--
-- Every state
--

/-- The teardown comes to every extent and to every node, and a range delete to every child that
meets the range: of the range, only what lies below the other children stays mapped. -/
structure TearsDown (f : File) : Prop where
  data   : ∀ e ∈ f.content.exts, Free.data e.phys e.len ∈ f.allFrees
  nodes  : ∀ b ∈ f.content.blocks, Free.node b ∈ f.allFrees
  only   : ∀ b ∈ f.content.blocks, Free.node b ∈ f.nodeFrees
  device : ∀ rel, rel < f.alloc.blockCount → (f.dataStart + rel ∈ f.content.blocks ∨
    ∃ x ∈ cells f.content.exts, x.2.1 = f.dataStart + rel) →
      (f.allFrees.foldl File.free f).alloc.isFree rel = true
  range  : f.indexed = true → ∀ start stop, start < stop →
    ∃ r, deleteRange levels f start stop = some r ∧
      ∀ x ∈ cells r.file.content.exts, within start stop x = true →
        x ∈ cells (skipped f.nodes start stop levels f.root)

section States

variable {f : File}

/-- Every node that is freed is in the budget. -/
theorem nodeFrees_paid (f : File) : (freedNodes f.nodeFrees).length ≤ f.nodeBudget := by
  unfold File.nodeFrees
  by_cases hIdx : f.indexed = false
  · rw [if_pos hIdx]
    exact Nat.zero_le _
  · rw [if_neg hIdx]
    have hPaid : (freedNodes (frees (fun _ => []) f.nodes levels f.nodeBudget f.root).1).length +
        (frees (fun _ => []) f.nodes levels f.nodeBudget f.root).2 ≤ f.nodeBudget :=
      frees_paid (fun _ => rfl) levels f.nodeBudget f.root
    omega

/-- A node is left behind by a walk over more nodes than the budget. -/
theorem Sound.leaves_node (h : Sound f) (hMany : f.nodeBudget < f.content.blocks.length) :
    ∃ b ∈ f.content.blocks, Free.node b ∉ f.nodeFrees := by
  by_contra hAll
  push Not at hAll
  have hSub : f.content.blocks ⊆ freedNodes f.nodeFrees := fun b hb => mem_freedNodes (hAll b hb)
  have hLe := (List.subperm_of_subset h.holds.nodup hSub).length_le
  have hPaid := nodeFrees_paid f
  omega

theorem Sound.phys_pos (h : Sound f) {e : Extent} (he : e ∈ f.content.exts) : 0 < e.phys := by
  have hLen := h.holds.pos e he
  have hStop : e.offset < e.stop := Nat.lt_add_of_pos_right hLen
  have hIn : (e.offset, e.phys, e.flags) ∈ cells f.content.exts := by
    refine mem_cells.mpr ⟨e, he, ⟨Nat.le_refl _, hStop⟩, ?_, rfl⟩
    show e.phys + (e.offset - e.offset) = e.phys
    omega
  obtain ⟨rel, hRel, hEq, -⟩ := h.owns.taken _ hIn
  have hPhys : e.phys = f.dataStart + rel := hEq
  omega

theorem Sound.complete (h : Sound f) (hFew : f.content.blocks.length ≤ f.nodeBudget) :
    Complete dataFrees f.content f.allFrees ∧ Complete (fun _ => []) f.content f.nodeFrees := by
  unfold File.allFrees File.nodeFrees
  by_cases hIdx : f.indexed = false
  · obtain ⟨hEq, -⟩ := h.holds.flat hIdx
    rw [if_pos hIdx, if_pos hIdx, hEq]
    exact ⟨⟨nofun, fun e he => ⟨f.inline, he, fun x hx => hx⟩⟩,
      ⟨nofun, fun e he => ⟨f.inline, he, nofun⟩⟩⟩
  · rw [if_neg hIdx, if_neg hIdx]
    obtain ⟨d, hSub⟩ := h.holds.tree (by simpa using hIdx)
    have hDepth := hSub.depth_le (Nat.le_refl _)
    have hLevels : d < levels := by
      unfold levels
      omega
    exact ⟨(frees_complete levels hSub hLevels hFew).1, (frees_complete levels hSub hLevels hFew).1⟩

theorem Sound.data_freed (h : Sound f) (hFew : f.content.blocks.length ≤ f.nodeBudget) :
    ∀ e ∈ f.content.exts, Free.data e.phys e.len ∈ f.allFrees := by
  intro e he
  obtain ⟨extents, hIn, hSub⟩ := (h.complete hFew).1.data e he
  refine hSub (List.mem_map.mpr ⟨e, List.mem_filter.mpr ⟨hIn, ?_⟩, rfl⟩)
  exact decide_eq_true ⟨h.holds.pos e he, h.phys_pos he⟩

/-- A tree with no more nodes than the budget is taken down. -/
theorem Sound.tearsDown (h : Sound f) (hFew : f.content.blocks.length ≤ f.nodeBudget) :
    TearsDown f := by
  obtain ⟨hAll, hNodes⟩ := h.complete hFew
  refine ⟨h.data_freed hFew, hAll.nodes, hNodes.nodes, ?_, ?_⟩
  · intro rel hRel hUsed
    refine foldl_free_isFree _ hRel (Or.inr ?_)
    rcases hUsed with hNode | ⟨⟨b, p, fl⟩, hx, hEq⟩
    · exact ⟨_, hAll.nodes _ hNode, rfl⟩
    · obtain ⟨e, he, ⟨hLo, hHi⟩, hPhys, -⟩ := mem_cells.mp hx
      refine ⟨_, h.data_freed hFew e he, ?_⟩
      have hStop : e.stop = e.offset + e.len := rfl
      have hAt : e.phys + (b - e.offset) = p := hPhys
      have hBlock : p = f.dataStart + rel := hEq
      show e.phys ≤ f.dataStart + rel ∧ f.dataStart + rel < e.phys + e.len
      omega
  · intro hIdx start stop hRange
    obtain ⟨r, rootEmpty, f1, w, c1, ys, gone, ms, f2, c2, hEq, hRun⟩ :=
      deleteRange_run h.holds h.owns ten_le_levels hIdx hRange
    refine ⟨r, hEq, fun x hx hIn => ?_⟩
    have hMissed : ms = skipped f.nodes start stop levels f.root := by
      rw [← h.holds.missed_few hIdx hFew, hRun.missed]
    rw [hRun.settled.1.content] at hx
    rcases hRun.batch.source x hx with hLeft | hTail
    · obtain ⟨hLo, hHi⟩ := within_iff.mp hIn
      rw [← hMissed]
      exact hRun.pruned.rest x hLeft hLo hHi
    · rw [tails_after x hTail] at hIn
      cases hIn

/-- In every state that a run of operations on an empty inode leads to, `briefs_btree_free_all`
and `briefs_btree_free_nodes_only` make the calls of their lists. Together with
`briefs_btree_delete_range` they come to every node if and only if the tree has no more nodes than
the budget. -/
theorem teardown_complete_iff {f g : File} (hNew : f.IsEmpty) (hRun : Runs Allowed f g) :
    freeAll levels g = some (g.allFrees.foldl File.free g) ∧
      freeNodesOnly levels g = some (g.nodeFrees.foldl File.free g) ∧
      (TearsDown g ↔ g.content.blocks.length ≤ min (g.total + 16) (2 ^ 20)) := by
  have hSound : Sound g := hRun.sound (fun _ _ hAllowed => hAllowed) hNew.good.toSound
  refine ⟨freeAll_eq hSound.holds, freeNodesOnly_eq hSound.holds, fun hDown => ?_, fun hFew =>
    hSound.tearsDown hFew⟩
  by_contra hMany
  have hMore : g.nodeBudget < g.content.blocks.length := by
    show min (g.total + 16) (2 ^ 20) < _
    omega
  obtain ⟨b, hb, hLeft⟩ := hSound.leaves_node hMore
  exact hLeft (hDown.only b hb)

/-- The tree of 127 single blocks has three nodes, and is taken down. -/
theorem splitFile_tearsDown : Runs Allowed newFile splitFile ∧ TearsDown splitFile := by
  have hRun : Runs Allowed newFile splitFile := (gapFile_run evens_allowed trivial).1
  refine ⟨hRun, (teardown_complete_iff newFile_isEmpty hRun).2.2.mpr ?_⟩
  decide +kernel

end States

--
-- A tree with too many nodes
--

/-- A device of 2^32 blocks; the first 2^27 are taken. -/
def vastPool : Alloc where
  l0 := fun _ => 0#64
  l1 := fun _ => 0#64
  l2 := fun i => if i < 2 ^ 21 then 0#64 else ~~~ 0#64
  l0Words := 2 ^ 14
  l1Words := 2 ^ 20
  l2Words := 2 ^ 26
  blockCount := 2 ^ 32
  freeCount := 0#64
  metaShield := 0#64
  roverW0 := 0
  roverW2High := 0
  firstFreeW2 := 2 ^ 21
  l2Dirty := fun _ => false
  hL2 := by decide
  hL1 := by decide
  hL0 := by decide

/-- An inode without extents on that device. -/
def vastFile : File := { newFile with alloc := vastPool.recomputeSummaries }

/-- `n` single blocks with holes between them. -/
def spread (n : Nat) : List Extent := (List.range n).map fun i => ⟨2 * i, 1001 + i, 1, 0⟩

/-- The bits of the device, but for its last word. -/
theorem vastPool_isFree {rel : Nat} (hRel : rel < 2 ^ 32 - 64) :
    vastPool.recomputeSummaries.isFree rel = decide (2 ^ 27 ≤ rel) := by
  have hWord : rel / 64 ≠ 2 ^ 26 - 1 := by omega
  have hBits : vastPool.recomputeSummaries.isFree rel =
      Lib.Words.test (Lib.Words.clear (Function.update vastPool.l2 (2 ^ 26 - 1)
        (vastPool.l2 (2 ^ 26 - 1) &&& Lib.rangeMask 0 64)) 0 0) rel := rfl
  rw [hBits, Lib.Words.test_clear (by decide)]
  have hTest : Lib.Words.test (Function.update vastPool.l2 (2 ^ 26 - 1)
      (vastPool.l2 (2 ^ 26 - 1) &&& Lib.rangeMask 0 64)) rel = decide (2 ^ 27 ≤ rel) := by
    unfold Lib.Words.test
    rw [Function.update_of_ne hWord]
    by_cases hLow : rel / 64 < 2 ^ 21
    · have hNot : ¬ 2 ^ 27 ≤ rel := by omega
      have hZero : vastPool.l2 (rel / 64) = 0#64 := if_pos hLow
      rw [hZero, decide_eq_false hNot]
      exact BitVec.getLsbD_zero
    · have hHigh : 2 ^ 27 ≤ rel := by omega
      have hOnes : vastPool.l2 (rel / 64) = ~~~ 0#64 := if_neg hLow
      have hBit : rel % 64 < 64 := Nat.mod_lt _ (by decide)
      rw [hOnes, decide_eq_true hHigh, BitVec.getLsbD_not, BitVec.getLsbD_zero, decide_eq_true hBit]
      rfl
  rw [hTest]
  by_cases hHigh : 2 ^ 27 ≤ rel
  · have hNe : ¬ rel = 0 * 64 + 0 := by omega
    rw [decide_eq_true hHigh, decide_eq_false hNe]
    rfl
  · rw [decide_eq_false hHigh]
    rfl

theorem vastPool_healthy : vastPool.recomputeSummaries.Healthy := by
  refine ⟨Alloc.consistent_recomputeSummaries ⟨by decide, by decide⟩ fun i hi _ => ?_, ?_⟩
  · exact if_pos hi
  · exact vastPool_isFree (by decide)

theorem vastFile_isEmpty : vastFile.IsEmpty := ⟨rfl, rfl, rfl, vastPool_healthy⟩

/-- There are enough free blocks for many nodes. -/
theorem vastPool_room : ¬ Exhausts (2 ^ 31) vastPool.recomputeSummaries := by
  have hCount := vastPool_healthy.consistent.count
  have hMany : 2 ^ 31 ≤ vastPool.recomputeSummaries.l2.count (2 ^ 26 * 64) := by
    unfold Lib.Words.count
    rw [Nat.count_eq_card_filter_range]
    have hSub : Finset.Ico (2 ^ 27) (2 ^ 32 - 64) ⊆ (Finset.range (2 ^ 26 * 64)).filter
        fun i => vastPool.recomputeSummaries.l2.test i = true := by
      intro i hi
      obtain ⟨hLo, hHi⟩ := Finset.mem_Ico.mp hi
      refine Finset.mem_filter.mpr ⟨Finset.mem_range.mpr (by omega), ?_⟩
      have hFree := vastPool_isFree hHi
      rw [decide_eq_true hLo] at hFree
      exact hFree
    have hCard := Finset.card_le_card hSub
    rw [Nat.card_Ico] at hCard
    omega
  have hWords : vastPool.recomputeSummaries.l2Words = 2 ^ 26 := rfl
  rw [hWords] at hCount
  unfold Exhausts
  omega

theorem cells_spread (n : Nat) : cells (spread n) = (List.range n).map fun i => (2 * i, 1001 + i, 0) := by
  unfold spread cells
  rw [List.flatMap_map, List.map_eq_flatMap]
  rfl

/-- Inserting a list of extents goes on with a run. -/
theorem insertAll_runs {f₀ : File} : ∀ (l : List Extent) {f g : File}, Sound f →
    Owns f f.content.blocks (cells f.content.exts ++ cells l) →
    (∀ e ∈ l, 0 < e.len ∧ e.stop < fileTop) → insertAll levels l f = some (none, g) →
    Runs (fun f op => Allowed f op ∧ ∃ ext, op = .insert ext) f₀ f →
    Runs (fun f op => Allowed f op ∧ ∃ ext, op = .insert ext) f₀ g := by
  intro l
  induction l with
  | nil =>
    intro f g _ _ _ hEq hRun
    obtain ⟨-, rfl⟩ := Prod.mk.inj (Option.some.inj hEq)
    exact hRun
  | cons e l ih =>
    intro f g h hOwns hFits hEq hRun
    obtain ⟨hLen, hStop⟩ := hFits e List.mem_cons_self
    obtain ⟨code, f₁, c₁, hFirst, hd⟩ := insertLocked_spec h.holds hLen hStop ten_le_levels
    unfold insertAll at hEq
    rw [hFirst] at hEq
    cases code with
    | some err => cases hEq
    | none =>
      have hNow := hOwns
      rw [cells_cons, ← List.append_assoc] at hNow
      have hAllowed : Allowed f (.insert e) := ⟨hLen, hStop, hNow.left⟩
      have hOwns₁ : Owns f₁ c₁.blocks (cells c₁.exts ++ cells l) :=
        (hNow.expand hd.grows).perm ((hd.done rfl).symm.append_right _)
      have hContent := hd.holds.content
      refine ih (sound_of_content hd.holds hOwns₁.left) ?_ (fun x hx => hFits x
        (List.mem_cons_of_mem _ hx)) hEq (hRun.step ⟨hAllowed, e, rfl⟩ hFirst)
      rw [hContent]
      exact hOwns₁

/-- A leaf holds at most 126 extents. -/
theorem Sub.exts_le {nodes : Nodes} : ∀ (d : Nat) {block lo hi : Nat} {c : Content},
    Sub nodes d block lo hi c → c.exts.length ≤ leafFanout * c.blocks.length := by
  intro d
  induction d with
  | zero =>
    intro block lo hi c h
    obtain ⟨-, -, hBlocks, -, hLeaf⟩ := h
    rw [hBlocks]
    exact hLeaf.fanout
  | succ d ih =>
    intro block lo hi c h
    obtain ⟨-, idx, tr, kids, -, -, rfl, hKids⟩ := h
    have hBelow : ∀ {idx : List IdxEntry} {lo : Nat} {c : Content},
        Kids (Child nodes d) tr idx lo hi c → c.exts.length ≤ leafFanout * c.blocks.length := by
      intro idx
      induction idx with
      | nil => exact fun h => ih h.2
      | cons k idx ihKids =>
        intro lo c h
        obtain ⟨c₁, c₂, rfl, hFirst, hRest⟩ := h
        have hLeft := ih hFirst.2
        have hRight := ihKids hRest
        have hExts : (c₁ ++ (Content.sep k.highKey ++ c₂)).exts.length =
            c₁.exts.length + c₂.exts.length := by
          simp
        have hBlocks : (c₁ ++ (Content.sep k.highKey ++ c₂)).blocks.length =
            c₁.blocks.length + c₂.blocks.length := by
          simp
        rw [hExts, hBlocks, Nat.mul_add]
        omega
    have hAll := hBelow hKids
    dsimp only
    rw [List.length_cons, Nat.mul_succ]
    omega

/-- Single blocks with holes between them stay extents of their own. -/
theorem exts_of_spread {c : Content} {n : Nat} (hPos : ∀ e ∈ c.exts, 0 < e.len)
    (hCells : (cells c.exts).Perm (cells (spread n))) : c.exts.length = n := by
  have hEven : ∀ x ∈ cells c.exts, x.1 % 2 = 0 := by
    intro x hx
    have hIn := hCells.mem_iff.mp hx
    rw [cells_spread] at hIn
    obtain ⟨i, -, rfl⟩ := List.mem_map.mp hIn
    exact Nat.mul_mod_right 2 i
  -- two neighbours are not both even
  have hOne : ∀ e ∈ c.exts, e.len = 1 := by
    intro e he
    have hLen := hPos e he
    have hStop : e.stop = e.offset + e.len := rfl
    by_contra hMore
    have hFirst := hEven _ (mem_cells.mpr ⟨e, he, ⟨Nat.le_refl _, by omega⟩, rfl, rfl⟩)
    have hNext := hEven _ (mem_cells.mpr ⟨e, he, ⟨Nat.le_succ e.offset, by omega⟩, rfl, rfl⟩)
    dsimp only at hFirst hNext
    omega
  have hLen : ∀ l : List Extent, (∀ e ∈ l, e.len = 1) → (cells l).length = l.length := by
    intro l
    induction l with
    | nil => exact fun _ => rfl
    | cons e l ih =>
      intro hAll
      have hFirst : e.cells.length = 1 := by
        unfold Extent.cells
        rw [List.length_map, List.length_range, hAll e List.mem_cons_self]
      rw [cells_cons, List.length_append, ih fun x hx => hAll x (List.mem_cons_of_mem _ hx), hFirst,
        List.length_cons]
      omega
  rw [← hLen c.exts hOne, hCells.length_eq, cells_spread, List.length_map, List.length_range]

/-- Single blocks that are taken, and no node. -/
theorem vastFile_owns {n : Nat} (hn : n < 2 ^ 27) : Owns vastFile [] (cells (spread n)) := by
  rw [cells_spread]
  refine ⟨fun x hx => ?_, fun _ _ => List.not_mem_nil, ?_⟩
  · obtain ⟨i, hi, rfl⟩ := List.mem_map.mp hx
    have hLt := List.mem_range.mp hi
    refine ⟨1 + i, by omega, ?_, ?_⟩
    · show 1001 + i = 1000 + (1 + i)
      omega
    · show vastPool.recomputeSummaries.isFree (1 + i) = false
      have hLow : ¬ 2 ^ 27 ≤ 1 + i := by omega
      rw [vastPool_isFree (by omega), decide_eq_false hLow]
  · rw [List.map_map]
    refine List.Nodup.map_on ?_ List.nodup_range
    intro i _ j _ hEq
    have hPhys : 1001 + i = 1001 + j := hEq
    omega

/-- Insertions of single blocks make a tree of more nodes than the budget can ever be. -/
theorem spread_grows {n : Nat} (hn : n < 2 ^ 27) (hMany : leafFanout * 2 ^ 20 < n) :
    ∃ g, Runs (fun f op => Allowed f op ∧ ∃ ext, op = .insert ext) vastFile g ∧ Sound g ∧
      g.nodeBudget < g.content.blocks.length := by
  have hGood := vastFile_isEmpty.good
  have hContent := vastFile_isEmpty.content
  have hOwns := vastFile_owns hn
  have hFits : ∀ e ∈ spread n, 0 < e.len ∧ e.stop < fileTop := by
    intro e he
    obtain ⟨i, hi, rfl⟩ := List.mem_map.mp he
    have hLt := List.mem_range.mp hi
    refine ⟨Nat.one_pos, ?_⟩
    show 2 * i + 1 < fileTop
    unfold fileTop
    omega
  have hDist : Distinct (cells vastFile.content.exts ++ cells (spread n)) := by
    rw [hContent]
    show ((cells (spread n)).map fun x => x.1).Nodup
    rw [cells_spread, List.map_map]
    refine List.Nodup.map_on ?_ List.nodup_range
    intro i _ j _ hEq
    have hOffset : 2 * i = 2 * j := hEq
    omega
  have hRoom : ¬ Exhausts (11 * (spread n).length) vastFile.alloc := by
    intro hFull
    refine vastPool_room (hFull.mono ?_)
    unfold spread
    rw [List.length_map, List.length_range]
    omega
  obtain ⟨g, hEq⟩ := insertAll_room ten_le_levels (spread n) hGood.holds hFits hDist hRoom
  have hStart : Owns vastFile vastFile.content.blocks
      (cells vastFile.content.exts ++ cells (spread n)) := by
    rw [hContent]
    exact hOwns
  obtain ⟨code, g', c', hEq', hb⟩ := insertAll_spec ten_le_levels (spread n) hGood.holds hStart hFits
  rw [hEq] at hEq'
  obtain ⟨rfl, rfl⟩ := Prod.mk.inj (Option.some.inj hEq')
  have hSound : Sound g := sound_of_content hb.holds hb.owns
  refine ⟨g, insertAll_runs (spread n) hGood.toSound hStart hFits hEq Runs.refl, hSound, ?_⟩
  have hCells := hb.done rfl
  rw [hContent] at hCells
  have hExts : c'.exts.length = n := exts_of_spread hb.holds.pos hCells
  have hBudget : g.nodeBudget ≤ 2 ^ 20 := Nat.min_le_right _ _
  rw [hb.holds.content]
  by_cases hIdx : g.indexed = true
  · obtain ⟨d, hSub⟩ := hb.holds.tree hIdx
    have hLe := hSub.exts_le
    unfold leafFanout at hLe hMany
    omega
  · obtain ⟨hFlat, -, hFew⟩ := hb.holds.flat (by simpa using hIdx)
    rw [hFlat] at hExts
    have hLen : g.inline.length = n := hExts
    unfold leafFanout at hMany
    omega

/-- 126 * 2^20 + 1 single blocks, and a node that the teardown does not free. -/
theorem teardown_leaves_node : ∃ g,
    Runs (fun f op => Allowed f op ∧ ∃ ext, op = .insert ext) vastFile g ∧
      freeNodesOnly levels g = some (g.nodeFrees.foldl File.free g) ∧
      ∃ b ∈ g.content.blocks, Free.node b ∉ g.nodeFrees := by
  obtain ⟨g, hRun, hSound, hMany⟩ : ∃ g, Runs _ vastFile g ∧ Sound g ∧
    g.nodeBudget < g.content.blocks.length := spread_grows (n := 126 * 2 ^ 20 + 1) (by decide)
      (by decide)
  exact ⟨g, hRun, freeNodesOnly_eq hSound.holds, hSound.leaves_node hMany⟩

end Briefs.Btree
