import Briefs.Btree.Batch
import Mathlib.Data.Multiset.AddSub
import Mathlib.Tactic.Abel

/-!
# BrieFS — range delete

`briefs_btree_delete_range` (`btree.c`): the walk that trims the leaves, frees the
data blocks and drops empty children, the re-insertion of the tail of an extent that
reaches past the end, and the update of the tail cache and the extent count.

The walk only takes away: every extent that is left starts where an old one did and
is no longer, the separators that are left are old ones, and what is freed is no
longer mapped. Dropping a child makes its neighbours responsible for its range, which
is why separators go stale: the key below a child stays while the extents around it
are gone. The metadata reservation for unwritten blocks is left out.

## Results

* `deleteSubtree_spec` — the walk over a subtree.
* `deleteRange_spec` — the whole call keeps the extent state sound.
-/

namespace Briefs.Btree

open Briefs.Journal

--
-- The walk
--

/-- `BRIEFS_EXT_UNWRITTEN`. -/
def Extent.unwritten (e : Extent) : Bool := e.flags.testBit 0

/-- What the walk of `briefs_btree_delete_range` carries along. -/
structure DeleteCtx where
  right          : List Extent
  cap            : Nat
  modified       : Bool
  unwrittenFreed : Nat
  countDelta     : Int
  blocksFreed    : Nat
deriving DecidableEq, Repr

/-- `briefs_free_blocks_range`. -/
def File.freeData (f : File) (phys len : Nat) : File :=
  { f with alloc := f.alloc.freeBlocks (phys - f.dataStart) len }

/-- `briefs_free_block` for a node. -/
def File.freeNode (f : File) (block : Nat) : File :=
  { f with alloc := f.alloc.freeBlock (block - f.dataStart) }

/-- The head of an extent before `start`. -/
def Extent.head (e : Extent) (start : Nat) : Extent :=
  { e with len := start - e.offset }

/-- The tail of an extent from `stop` on. -/
def Extent.tail (stop : Nat) (e : Extent) : Extent :=
  { e with offset := stop, phys := e.phys + (stop - e.offset), len := e.stop - stop }

/-- One round of the loop of `btree_leaf_delete_range`: what is kept of the extent. -/
def leafDeleteStep (start stop : Nat) (e : Extent) (f : File) (w : DeleteCtx) :
    List Extent × File × DeleteCtx :=
  if e.stop ≤ start ∨ stop ≤ e.offset then ([e], f, w)
  else
    let freeStart := max e.offset start
    let freeLen := min e.stop stop - freeStart
    let frees := decide (0 < e.phys) && decide (0 < e.len) && decide (0 < freeLen)
    let w := { w with
      modified       := true
      countDelta     := w.countDelta + ((if e.offset < start then 1 else 0) - 1)
      blocksFreed    := w.blocksFreed + if frees then freeLen else 0
      unwrittenFreed := w.unwrittenFreed + if frees && e.unwritten then freeLen else 0
      right          := if stop < e.stop ∧ w.right.length < 4 then w.right ++ [e.tail stop]
                        else w.right }
    (if e.offset < start then [e.head start] else [],
      if frees then f.freeData (e.phys + (freeStart - e.offset)) freeLen else f, w)

/-- `btree_leaf_delete_range`. -/
def leafDelete (start stop : Nat) : List Extent → File → DeleteCtx → List Extent × File × DeleteCtx
  | [], f, w => ([], f, w)
  | e :: rest, f, w =>
    let (kept, f, w) := leafDeleteStep start stop e f w
    let (out, f, w) := leafDelete start stop rest f w
    (kept ++ out, f, w)

/-- The call for one child, if its key range meets `[start, stop)`. -/
def deleteChild (del : File → DeleteCtx → Nat → Option (Bool × File × DeleteCtx))
    (start stop low high child : Nat) (f : File) (w : DeleteCtx) :
    Option (Bool × File × DeleteCtx) :=
  if child ≠ 0 ∧ low < stop ∧ start < high then del f w child else some (false, f, w)

/-- The loop over the children, from the lower bound of the first one on: which of
them became empty. -/
def deleteChildren (del : File → DeleteCtx → Nat → Option (Bool × File × DeleteCtx))
    (start stop tr : Nat) :
    Nat → List IdxEntry → File → DeleteCtx → Option (List Bool × File × DeleteCtx)
  | low, [], f, w =>
    match deleteChild del start stop low (2 ^ 64 - 1) tr f w with
    | none => none
    | some (empty, f, w) => some ([empty], f, w)
  | low, e :: idx, f, w =>
    match deleteChild del start stop low e.highKey e.child f w with
    | none => none
    | some (empty, f, w) =>
      match deleteChildren del start stop tr e.highKey idx f w with
      | none => none
      | some (rest, f, w) => some (empty :: rest, f, w)

/-- The children that are left, each with the separator below it. -/
def survivors (tr : Nat) : Nat → List IdxEntry → List Bool → List (Nat × Nat)
  | low, [], empties => if empties.headD false then [] else [(tr, low)]
  | low, e :: idx, empties =>
    (if empties.headD false then [] else [(e.child, low)]) ++
      survivors tr e.highKey idx empties.tail

/-- The index array over the children that are left: the separator between two of
them is the lower bound of the second. -/
def compact (child : Nat) : List (Nat × Nat) → List IdxEntry × Nat
  | [] => ([], child)
  | (next, low) :: rest =>
    let (idx, tr) := compact next rest
    ({ child := child, highKey := low } :: idx, tr)

/-- The body of `btree_delete_range_subtree`, with `del` for the call on a child: whether the
subtree became empty and is gone. -/
def deleteNode (start stop : Nat)
    (del : File → DeleteCtx → Nat → Option (Bool × File × DeleteCtx)) (f : File) (w : DeleteCtx)
    (block : Nat) : Option (Bool × File × DeleteCtx) :=
  if block = 0 ∨ w.cap = 0 then some (false, f, w)
  else
    let w := { w with cap := w.cap - 1 }
    match readNode f.nodes block with
    | none => some (false, f, w)
    | some (.leaf extents) =>
      let (out, f, w) := leafDelete start stop extents f w
      if out.isEmpty then some (true, f.freeNode block, w)
      else some (false, f.commitNode block (.leaf out), w)
    | some (.internal idx tr) =>
      match deleteChildren del start stop tr 0 idx f w with
      | none => none
      | some (empties, f, w) =>
        match survivors tr 0 idx empties with
        | [] => some (true, f.freeNode block, w)
        | (first, _) :: rest =>
          let (idx, tr) := compact first rest
          some (false, f.commitNode block (.internal idx tr), w)

/-- `btree_delete_range_subtree` with `fuel` levels left. -/
def deleteSubtree (start stop : Nat) :
    Nat → File → DeleteCtx → Nat → Option (Bool × File × DeleteCtx)
  | 0, _, _, _ => none
  | fuel + 1, f, w, block => deleteNode start stop (deleteSubtree start stop fuel) f w block

/-- The extents below a block. -/
def subtreeExtents (nodes : Nodes) (fuel block : Nat) : List Extent :=
  match walkDescend nodes fuel block with
  | .ok l => l
  | .error _ => []

/-- What the walk does not look at below one child. -/
def missedChild (miss : Nat → Nat → List Extent × Nat) (all : Nat → List Extent)
    (start stop low high child cap : Nat) : List Extent × Nat :=
  if child ≠ 0 ∧ low < stop ∧ start < high then miss cap child else (all child, cap)

/-- What the walk does not look at below the children of a node. -/
def missedChildren (miss : Nat → Nat → List Extent × Nat) (all : Nat → List Extent)
    (start stop tr : Nat) : Nat → List IdxEntry → Nat → List Extent × Nat
  | low, [], cap => missedChild miss all start stop low (2 ^ 64 - 1) tr cap
  | low, e :: idx, cap =>
    let (l, cap) := missedChild miss all start stop low e.highKey e.child cap
    let (r, cap) := missedChildren miss all start stop tr e.highKey idx cap
    (l ++ r, cap)

/-- The extents that the walk does not look at: below the children that do not meet the
range, and below the nodes that it comes to after the `cap`-th one. With what is left of
the budget. -/
def missed (nodes : Nodes) (start stop : Nat) : Nat → Nat → Nat → List Extent × Nat
  | 0, cap, _ => ([], cap)
  | fuel + 1, cap, block =>
    if block = 0 ∨ cap = 0 then (subtreeExtents nodes (fuel + 1) block, cap)
    else match readNode nodes block with
      | some (.internal idx tr) =>
        missedChildren (missed nodes start stop fuel) (subtreeExtents nodes fuel) start stop tr 0
          idx (cap - 1)
      | _ => ([], cap - 1)

--
-- The call
--

/-- The tree is gone: the inode is inline and empty. -/
def File.reset (f : File) : File :=
  { f with indexed := false, root := 0, inline := [], total := 0, maxEnd := 0 }

/-- The state after the walk, before the tails are put back. -/
def File.afterWalk (f : File) (rootEmpty : Bool) : File := if rootEmpty then f.reset else f

/-- `walkChildren` with the extents called back for until an error, and whether there was none. -/
def calledChildren (walk : Nat → List Extent × Bool) : List Nat → List Extent × Bool
  | [] => ([], true)
  | child :: rest =>
    match walk child with
    | (l, false) => (l, false)
    | (l, true) => (l ++ (calledChildren walk rest).1, (calledChildren walk rest).2)

/-- `walkDescend` with the extents called back for until an error. -/
def calledBack (nodes : Nodes) : Nat → Nat → List Extent × Bool
  | 0, block => ([], block == 0)
  | left + 1, block =>
    if block = 0 then ([], true)
    else match readNode nodes block with
      | none => ([], false)
      | some (.leaf extents) => (extents, true)
      | some (.internal idx trailingChild) =>
        calledChildren (calledBack nodes left) (childList idx trailingChild)

/-- The extents that an enumeration calls back for. An error ends it, and what was counted until
then stays. -/
def callbacks (f : File) : List Extent :=
  if f.indexed then if f.root = 0 then [] else (calledBack f.nodes 17 f.root).1 else f.inline

/-- The largest end and the number of the extents that an enumeration calls back for. -/
def tailOf (f : File) : Nat × Nat :=
  ((callbacks f).foldl (fun n e => max n e.stop) 0, (callbacks f).length)

/-- The last part of `briefs_btree_delete_range`. -/
def File.settle (f : File) (stop : Nat) (rootEmpty : Bool) (countDelta : Int) : File :=
  if f.maxEnd ≤ stop then { f with maxEnd := (tailOf f).1, total := (tailOf f).2 }
  else if !rootEmpty then { f with total := ((f.total : Int) + countDelta).toNat }
  else f

/-- The outcome of `briefs_btree_delete_range`. -/
structure Deleted where
  ret         : Option Errno
  file        : File
  modified    : Bool
  blocksFreed : Nat

/-- `briefs_btree_delete_range`. -/
def deleteRange (fuel : Nat) (f : File) (start stop : Nat) : Option Deleted :=
  if f.indexed = false ∨ f.root = 0 ∨ stop ≤ start then some ⟨none, f, false, 0⟩
  else
    match deleteSubtree start stop fuel f
        ⟨[], min (f.total + 16) (2 ^ 20), false, 0, 0, 0⟩ f.root with
    | none => none
    | some (rootEmpty, f, w) =>
      let f := f.afterWalk rootEmpty
      let modified := w.modified || rootEmpty
      if rootEmpty ∧ w.right = [] then some ⟨none, f, modified, w.blocksFreed⟩
      else match insertAll fuel w.right f with
        | none => none
        | some (some err, f) => some ⟨some err, f, modified, w.blocksFreed⟩
        | some (none, f) => some ⟨none, f.settle stop rootEmpty w.countDelta, modified, w.blocksFreed⟩

--
-- What the walk leaves
--

/-- The extents that are left: some are gone, the others keep a head. -/
inductive Shrinks : List Extent → List Extent → Prop
  | nil : Shrinks [] []
  | drop {l' l : List Extent} (e : Extent) : Shrinks l' l → Shrinks l' (e :: l)
  | keep {l' l : List Extent} (e : Extent) {n : Nat} : 0 < n → n ≤ e.len → Shrinks l' l →
      Shrinks ({ e with len := n } :: l') (e :: l)

section Shrinks

variable {l l' r r' : List Extent}

theorem Shrinks.refl : ∀ {l : List Extent}, (∀ e ∈ l, 0 < e.len) → Shrinks l l
  | [], _ => .nil
  | e :: _, h =>
    .keep e (h e List.mem_cons_self) (Nat.le_refl _)
      (Shrinks.refl fun x hx => h x (List.mem_cons_of_mem _ hx))

theorem Shrinks.append (h : Shrinks l' l) (hr : Shrinks r' r) : Shrinks (l' ++ r') (l ++ r) := by
  induction h with
  | nil => exact hr
  | drop e _ ih => exact .drop e ih
  | keep e hPos hLe _ ih => exact .keep e hPos hLe ih

theorem Shrinks.length_le (h : Shrinks l' l) : l'.length ≤ l.length := by
  induction h with
  | nil => exact Nat.le_refl _
  | drop e _ ih => exact Nat.le_succ_of_le ih
  | keep e _ _ _ ih => exact Nat.succ_le_succ ih

theorem Shrinks.mem (h : Shrinks l' l) : ∀ x ∈ l', 0 < x.len ∧
    ∃ e ∈ l, x.offset = e.offset ∧ x.phys = e.phys ∧ x.flags = e.flags ∧ x.stop ≤ e.stop := by
  induction h with
  | nil => nofun
  | drop e _ ih =>
    intro x hx
    obtain ⟨hPos, y, hy, hSame⟩ := ih x hx
    exact ⟨hPos, y, List.mem_cons_of_mem _ hy, hSame⟩
  | keep e hPos hLe _ ih =>
    intro x hx
    rcases List.mem_cons.mp hx with rfl | hx
    · exact ⟨hPos, e, List.mem_cons_self, rfl, rfl, rfl, Nat.add_le_add_left hLe _⟩
    · obtain ⟨hPos, y, hy, hSame⟩ := ih x hx
      exact ⟨hPos, y, List.mem_cons_of_mem _ hy, hSame⟩

theorem Shrinks.ordered (h : Shrinks l' l) (hOrd : Ordered l) : Ordered l' := by
  induction h with
  | nil => exact hOrd
  | drop e _ ih => exact ih (List.pairwise_cons.mp hOrd).2
  | keep e hPos hLe hRest ih =>
    obtain ⟨hHead, hTail⟩ := List.pairwise_cons.mp hOrd
    refine List.pairwise_cons.mpr ⟨?_, ih hTail⟩
    intro x hx
    obtain ⟨-, y, hy, hOff, -⟩ := hRest.mem x hx
    have hLe' := hHead y hy
    unfold Extent.stop at *
    dsimp only at *
    omega

theorem Shrinks.leafOk {lo hi : Nat} (h : Shrinks l' l) (hLeaf : LeafOk lo hi l) : LeafOk lo hi l' := by
  refine ⟨h.ordered hLeaf.ordered, fun x hx => (h.mem x hx).1, ?_,
    Nat.le_trans h.length_le hLeaf.fanout⟩
  intro x hx
  obtain ⟨-, y, hy, hOff, -⟩ := h.mem x hx
  rw [hOff]
  exact hLeaf.range y hy

end Shrinks

/-- What the walk does to a subtree: the content `c` becomes `c'`, the tails of the extents
`ys` over `stop` are put aside, `gone` is not mapped any more, and `ms` was not looked at. An
extent over `stop` is lost only if four are put aside already. -/
structure Pruned (start stop : Nat) (f : File) (w : DeleteCtx) (c : Content) (f' : File)
    (w' : DeleteCtx) (c' : Content) (ys : List Extent) (gone : List (Nat × Nat × Nat))
    (ms : List Extent) : Prop where
  same   : SameInodeState f f'
  root   : f'.root = f.root
  nodes  : ∀ b, b ∉ c.blocks → f'.nodes b = f.nodes b
  blocks : c'.blocks.Sublist c.blocks
  seps   : c'.seps ⊆ c.seps
  exts   : Shrinks c'.exts c.exts
  tails  : ys.Sublist c.exts
  beyond : ∀ y ∈ ys, y.offset < stop ∧ stop < y.stop
  right  : w'.right = w.right ++ ys.map (Extent.tail stop)
  parts  : (cells c.exts).Perm (cells c'.exts ++ (cells (ys.map (Extent.tail stop)) ++ gone))
  count  : w'.countDelta = w.countDelta + (c'.exts.length - c.exts.length : Int)
  free   : ∀ rel, f'.alloc.isFree rel = true → f.alloc.isFree rel = true ∨
    (f.dataStart + rel ∈ c.blocks ∧ f.dataStart + rel ∉ c'.blocks) ∨
    ∃ x ∈ gone, x.2.1 = f.dataStart + rel
  sound  : f.alloc.Healthy →
    f'.alloc.Healthy ∧ f.alloc.freeCount.toNat ≤ f'.alloc.freeCount.toNat
  size   : f'.alloc.blockCount = f.alloc.blockCount
  rest   : ∀ x ∈ cells c'.exts, start ≤ x.1 → x.1 < stop → x ∈ cells ms
  still  : ∀ x ∈ cells ms, x ∈ cells c'.exts
  stays  : ∀ rel, f.alloc.isFree rel = true → f'.alloc.isFree rel = true
  drops  : ∀ rel, rel < f.alloc.blockCount → f.dataStart + rel ∈ c.blocks →
    f.dataStart + rel ∉ c'.blocks → f'.alloc.isFree rel = true
  within : w'.right.length < 4 → ∀ x ∈ gone, start ≤ x.1 ∧ x.1 < stop
  freed  : w'.right.length < 4 → w'.blocksFreed = w.blocksFreed + gone.length ∧
    ∀ rel, rel < f.alloc.blockCount → (∃ x ∈ gone, x.2.1 = f.dataStart + rel) →
      f'.alloc.isFree rel = true

/-- Everything lies in the data region. -/
structure InData (f : File) (c : Content) : Prop where
  nodes : ∀ b ∈ c.blocks, f.dataStart < b
  data  : ∀ x ∈ cells c.exts, f.dataStart < x.2.1

theorem holds_reset {f : File} (h : f.alloc.Healthy) : Holds f.reset Content.none :=
  ⟨nofun, fun _ => ⟨rfl, ⟨List.Pairwise.nil, nofun, nofun, Nat.zero_le _⟩, Nat.zero_le _⟩,
    List.nodup_nil, nofun, nofun, h⟩

theorem Holds.inData {f : File} {c : Content} (h : Holds f c)
    (hOwns : Owns f c.blocks (cells c.exts)) : InData f c := by
  refine ⟨fun b hb => ?_, fun x hx => ?_⟩
  · obtain ⟨rel, hRel, rfl, -⟩ := h.owned b hb
    omega
  · obtain ⟨rel, hRel, hEq, -⟩ := hOwns.taken x hx
    omega

/-- Two groups of three parts, part by part. -/
theorem perm_gather {α : Type} (A T G B U H : List α) :
    (A ++ (T ++ G) ++ (B ++ (U ++ H))).Perm (A ++ B ++ (T ++ U ++ (G ++ H))) := by
  rw [← Multiset.coe_eq_coe]
  simp only [← Multiset.coe_add]
  abel

section Pruned

variable {start stop : Nat} {f f' f'' : File} {w w' w'' : DeleteCtx} {c c' d d' : Content}
  {ys zs ms ns : List Extent} {gone gone' : List (Nat × Nat × Nat)}

/-- The walk does nothing. -/
theorem Pruned.refl (hPos : ∀ e ∈ c.exts, 0 < e.len)
    (hRest : ∀ x ∈ cells c.exts, start ≤ x.1 → x.1 < stop → x ∈ cells ms)
    (hStill : ∀ x ∈ cells ms, x ∈ cells c.exts) : Pruned start stop f w c f w c [] [] ms := by
  refine ⟨SameInodeState.refl f, rfl, fun _ _ => rfl, List.Sublist.refl _, List.Subset.refl _,
    Shrinks.refl hPos, List.nil_sublist _, nofun, ?_, ?_, ?_, fun _ h => Or.inl h,
    fun h => ⟨h, Nat.le_refl _⟩, rfl, hRest, hStill, fun _ h => h,
    fun _ _ hIn hOut => absurd hIn hOut, fun _ => nofun, fun _ => ⟨rfl, fun _ _ hNo => ?_⟩⟩
  · rw [List.map_nil, List.append_nil]
  · rw [List.map_nil, cells_nil, List.append_nil, List.append_nil]
  · omega
  · obtain ⟨x, hx, -⟩ := hNo
    cases hx

/-- The walk does not look at a part. -/
theorem Pruned.skip (hPos : ∀ e ∈ c.exts, 0 < e.len) :
    Pruned start stop f w c f w c [] [] c.exts :=
  Pruned.refl hPos (fun _ hx _ _ => hx) fun _ hx => hx

/-- A separator may go. -/
theorem Pruned.sep (k : Nat) : Pruned start stop f w (Content.sep k) f w Content.none [] [] [] := by
  refine ⟨SameInodeState.refl f, rfl, fun _ _ => rfl, List.nil_sublist _, List.nil_subset _,
    .nil, List.nil_sublist _, nofun, ?_, List.Perm.refl _, ?_, fun _ h => Or.inl h,
    fun h => ⟨h, Nat.le_refl _⟩, rfl, nofun, nofun, fun _ h => h, fun _ _ => nofun,
    fun _ => nofun, fun _ => ⟨rfl, fun _ _ hNo => ?_⟩⟩
  · rw [List.map_nil, List.append_nil]
  · exact (Int.add_zero _).symm
  · obtain ⟨x, hx, -⟩ := hNo
    cases hx

/-- Other separators may be left, as long as they are old ones. -/
theorem Pruned.reseps (h : Pruned start stop f w c f' w' c' ys gone ms) {s : List Nat}
    (hs : s ⊆ c.seps) : Pruned start stop f w c f' w' ⟨c'.exts, c'.blocks, s⟩ ys gone ms :=
  ⟨h.same, h.root, h.nodes, h.blocks, hs, h.exts, h.tails, h.beyond, h.right, h.parts, h.count,
    h.free, h.sound, h.size, h.rest, h.still, h.stays, h.drops, h.within, h.freed⟩

/-- The guard against cycles is no part of the result. -/
theorem Pruned.ofCap {n : Nat} (h : Pruned start stop f { w with cap := n } c f' w' c' ys gone ms) :
    Pruned start stop f w c f' w' c' ys gone ms :=
  ⟨h.same, h.root, h.nodes, h.blocks, h.seps, h.exts, h.tails, h.beyond, h.right, h.parts, h.count,
    h.free, h.sound, h.size, h.rest, h.still, h.stays, h.drops, h.within, h.freed⟩

/-- Fewer tails were put aside before. -/
theorem Pruned.right_le (h : Pruned start stop f w c f' w' c' ys gone ms) :
    w.right.length ≤ w'.right.length := by
  rw [h.right, List.length_append]
  omega

/-- The walk over one part and then over the next. -/
theorem Pruned.append (h : Pruned start stop f w c f' w' c' ys gone ms)
    (h' : Pruned start stop f' w' d f'' w'' d' zs gone' ns) (hNodup : (c.blocks ++ d.blocks).Nodup) :
    Pruned start stop f w (c ++ d) f'' w'' (c' ++ d') (ys ++ zs) (gone ++ gone') (ms ++ ns) := by
  obtain ⟨-, -, hDisj⟩ := List.nodup_append.mp hNodup
  have hStart := h.same.dataStart
  have hMore := h'.right_le
  refine ⟨h.same.trans h'.same, h'.root.trans h.root, ?_, h.blocks.append h'.blocks, ?_,
    h.exts.append h'.exts, h.tails.append h'.tails, ?_, ?_, ?_, ?_, ?_, ?_, h'.size.trans h.size,
    ?_, ?_, fun rel hFree => h'.stays rel (h.stays rel hFree), ?_, ?_, ?_⟩
  · intro b hb
    rw [Content.blocks_append, List.mem_append, not_or] at hb
    rw [h'.nodes b hb.2, h.nodes b hb.1]
  · intro k hk
    rcases List.mem_append.mp hk with hk | hk
    · exact List.mem_append_left _ (h.seps hk)
    · exact List.mem_append_right _ (h'.seps hk)
  · intro y hy
    rcases List.mem_append.mp hy with hy | hy
    · exact h.beyond y hy
    · exact h'.beyond y hy
  · rw [h'.right, h.right, List.map_append, List.append_assoc]
  · simp only [Content.exts_append, cells_append, List.map_append]
    exact (h.parts.append h'.parts).trans (perm_gather _ _ _ _ _ _)
  · rw [h'.count, h.count, Content.exts_append, Content.exts_append, List.length_append,
      List.length_append]
    omega
  · intro rel hFree
    rcases h'.free rel hFree with hFree | ⟨hIn, hOut⟩ | ⟨x, hx, hEq⟩
    · rcases h.free rel hFree with hFree | ⟨hIn, hOut⟩ | ⟨x, hx, hEq⟩
      · exact Or.inl hFree
      · refine Or.inr (Or.inl ⟨List.mem_append_left _ hIn, ?_⟩)
        rw [Content.blocks_append, List.mem_append, not_or]
        exact ⟨hOut, fun hBad => hDisj _ hIn _ (h'.blocks.subset hBad) rfl⟩
      · exact Or.inr (Or.inr ⟨x, List.mem_append_left _ hx, hEq⟩)
    · rw [hStart] at hIn hOut
      refine Or.inr (Or.inl ⟨List.mem_append_right _ hIn, ?_⟩)
      rw [Content.blocks_append, List.mem_append, not_or]
      exact ⟨fun hBad => hDisj _ (h.blocks.subset hBad) _ hIn rfl, hOut⟩
    · rw [hStart] at hEq
      exact Or.inr (Or.inr ⟨x, List.mem_append_right _ hx, hEq⟩)
  · intro hSound
    obtain ⟨hSound', hLe⟩ := h.sound hSound
    obtain ⟨hSound'', hLe'⟩ := h'.sound hSound'
    exact ⟨hSound'', Nat.le_trans hLe hLe'⟩
  · intro x hx hLo hHi
    rw [Content.exts_append, cells_append, List.mem_append] at hx
    rw [cells_append, List.mem_append]
    exact hx.imp (fun hx => h.rest x hx hLo hHi) fun hx => h'.rest x hx hLo hHi
  · intro x hx
    rw [cells_append, List.mem_append] at hx
    rw [Content.exts_append, cells_append, List.mem_append]
    exact hx.imp (h.still x) (h'.still x)
  · intro rel hRel hIn hOut
    rw [Content.blocks_append, List.mem_append] at hIn hOut
    rw [not_or] at hOut
    rcases hIn with hIn | hIn
    · exact h'.stays rel (h.drops rel hRel hIn hOut.1)
    · exact h'.drops rel (by rw [h.size]; exact hRel) (by rw [hStart]; exact hIn)
        (by rw [hStart]; exact hOut.2)
  · intro hFew x hx
    rcases List.mem_append.mp hx with hx | hx
    · exact h.within (by omega) x hx
    · exact h'.within hFew x hx
  · intro hFew
    obtain ⟨hCount, hFreed⟩ := h.freed (by omega)
    obtain ⟨hCount', hFreed'⟩ := h'.freed hFew
    refine ⟨by rw [hCount', hCount, List.length_append]; omega, ?_⟩
    rintro rel hRel ⟨x, hx, hEq⟩
    rcases List.mem_append.mp hx with hx | hx
    · exact h'.stays rel (hFreed rel hRel ⟨x, hx, hEq⟩)
    · exact hFreed' rel (by rw [h.size]; exact hRel) ⟨x, hx, by rw [hStart]; exact hEq⟩

end Pruned

--
-- Leaves
--

/-- The content of a leaf without its block. -/
def Content.ofExts (l : List Extent) : Content := ⟨l, [], []⟩

section Leaf

variable {start stop : Nat} {f : File} {w : DeleteCtx}

theorem freeData_isFree {f : File} {phys len rel : Nat} (hData : f.dataStart < phys)
    (h : (f.freeData phys len).alloc.isFree rel = true) :
    f.alloc.isFree rel = true ∨ (phys ≤ f.dataStart + rel ∧ f.dataStart + rel < phys + len) := by
  have hBits : (f.alloc.isFree rel || decide (phys - f.dataStart ≤ rel ∧
      rel < phys - f.dataStart + len ∧ rel < f.alloc.blockCount)) = true := by
    rw [← Alloc.isFree_freeBlocks]
    exact h
  rw [Bool.or_eq_true, decide_eq_true_eq] at hBits
  rcases hBits with hOld | ⟨hLo, hHi, -⟩
  · exact Or.inl hOld
  · exact Or.inr (by omega)

theorem freeData_sound {f : File} {phys len : Nat} (hData : f.dataStart < phys)
    (h : f.alloc.Healthy) : (f.freeData phys len).alloc.Healthy ∧
      f.alloc.freeCount.toNat ≤ (f.freeData phys len).alloc.freeCount.toNat := by
  have hSound : (f.alloc.freeBlocks (phys - f.dataStart) len).Healthy := h.freeBlocks (by omega)
  refine ⟨hSound, Alloc.freeCount_mono h.consistent hSound.consistent
    (Alloc.blockCount_freeBlocks _ _ _) ?_⟩
  intro n hn
  show (f.alloc.freeBlocks (phys - f.dataStart) len).isFree n = true
  rw [Alloc.isFree_freeBlocks, hn, Bool.true_or]

/-- The part of an extent that lies in `[start, stop)`. -/
def Extent.middle (e : Extent) (start stop : Nat) : Extent :=
  { e with
    offset := max e.offset start
    phys := e.phys + (max e.offset start - e.offset)
    len := min e.stop stop - max e.offset start }

/-- An extent that meets `[start, stop)`: what is before, inside and after. -/
theorem cells_parts {e : Extent} (hRange : start < stop) (hLo : start < e.stop)
    (hHi : e.offset < stop) :
    e.cells = cells (if e.offset < start then [e.head start] else []) ++
      ((e.middle start stop).cells ++ if stop < e.stop then (e.tail stop).cells else []) := by
  have hStop : e.stop = e.offset + e.len := rfl
  have hHead : cells (if e.offset < start then [e.head start] else []) =
      ({ e with len := max e.offset start - e.offset } : Extent).cells := by
    by_cases hBefore : e.offset < start
    · rw [if_pos hBefore, cells_cons, cells_nil, List.append_nil]
      have hMax : max e.offset start = start := by omega
      rw [hMax]
      rfl
    · rw [if_neg hBefore]
      have hMax : max e.offset start - e.offset = 0 := by omega
      rw [hMax]
      rfl
  rw [hHead, cells_thirds (a := max e.offset start) (b := min e.stop stop) (by omega) (by omega)
    (by omega)]
  congr 2
  by_cases hAfter : stop < e.stop
  · rw [if_pos hAfter, Nat.min_eq_right (Nat.le_of_lt hAfter)]
    rfl
  · rw [if_neg hAfter, Nat.min_eq_left (Nat.le_of_not_lt hAfter), Nat.sub_self]
    rfl

/-- One extent of a leaf. -/
theorem leafDeleteStep_spec (hRange : start < stop) (e : Extent) (hPos : 0 < e.len)
    (hData : InData f (Content.ofExts [e])) : ∃ ys gone,
      Pruned start stop f w (Content.ofExts [e]) (leafDeleteStep start stop e f w).2.1
        (leafDeleteStep start stop e f w).2.2
        (Content.ofExts (leafDeleteStep start stop e f w).1) ys gone [] := by
  unfold leafDeleteStep
  by_cases hOut : e.stop ≤ start ∨ stop ≤ e.offset
  · rw [if_pos hOut]
    refine ⟨[], [], Pruned.refl ?_ ?_ nofun⟩
    · intro x hx
      rw [List.mem_singleton.mp hx]
      exact hPos
    · rintro ⟨b, p, fl⟩ hx hLo hHi
      obtain ⟨y, hy, ⟨hFrom, hTo⟩, -⟩ := mem_cells.mp hx
      rw [List.mem_singleton.mp hy] at hFrom hTo
      have hLo' : start ≤ b := hLo
      have hHi' : b < stop := hHi
      omega
  · rw [if_neg hOut]
    have hParts := cells_parts (e := e) hRange (by omega) (by omega)
    have hStop : e.stop = e.offset + e.len := rfl
    dsimp only
    have hMiddle : ∀ p, (e.middle start stop).phys ≤ p →
        p < (e.middle start stop).phys + (e.middle start stop).len →
        ∃ x ∈ (e.middle start stop).cells, x.2.1 = p := by
      intro p hLo hHi
      refine ⟨((e.middle start stop).offset + (p - (e.middle start stop).phys), p,
        (e.middle start stop).flags), mem_extent_cells.mpr ⟨⟨?_, ?_⟩, ?_, rfl⟩, rfl⟩
      · omega
      · unfold Extent.stop
        omega
      · unfold Extent.physAt
        omega
    have hRegion : 0 < (e.middle start stop).len → f.dataStart < (e.middle start stop).phys := by
      intro hFrees
      obtain ⟨x, hx, hEq⟩ := hMiddle _ (Nat.le_refl _) (by omega)
      rw [← hEq]
      refine hData.data x ?_
      show x ∈ cells [e]
      rw [cells_cons, cells_nil, List.append_nil, hParts]
      exact List.mem_append_right _ (List.mem_append_left _ hx)
    have hPhys : e.phys + (max e.offset start - e.offset) = (e.middle start stop).phys := rfl
    have hLen : min e.stop stop - max e.offset start = (e.middle start stop).len := rfl
    rw [hPhys, hLen]
    generalize hFrees : (decide (0 < e.phys) && decide (0 < e.len) &&
      decide (0 < (e.middle start stop).len)) = frees
    have hSome : frees = true → 0 < (e.middle start stop).len := by
      rintro rfl
      simp only [Bool.and_eq_true, decide_eq_true_eq] at hFrees
      exact hFrees.2
    have hKept : Shrinks (if e.offset < start then [e.head start] else []) [e] := by
      by_cases hHead : e.offset < start
      · rw [if_pos hHead]
        exact .keep e (by omega) (by omega) .nil
      · rw [if_neg hHead]
        exact .drop e .nil
    -- whether the tail is put aside or not
    have hTails : ∃ (ys : List Extent) (gone : List (Nat × Nat × Nat)), ys.Sublist [e] ∧
        (∀ y ∈ ys, y.offset < stop ∧ stop < y.stop) ∧
        (if stop < e.stop ∧ w.right.length < 4 then w.right ++ [e.tail stop] else w.right) =
          w.right ++ ys.map (Extent.tail stop) ∧
        ((e.middle start stop).cells ++ if stop < e.stop then (e.tail stop).cells else []).Perm
          (cells (ys.map (Extent.tail stop)) ++ gone) ∧ (e.middle start stop).cells ⊆ gone ∧
        (w.right.length < 4 → gone = (e.middle start stop).cells) := by
      by_cases hTail : stop < e.stop ∧ w.right.length < 4
      · refine ⟨[e], (e.middle start stop).cells, List.Sublist.refl _, ?_, ?_, ?_,
          List.Subset.refl _, fun _ => rfl⟩
        · intro y hy
          rw [List.mem_singleton.mp hy]
          omega
        · rw [if_pos hTail]
          rfl
        · rw [if_pos hTail.1, List.map_singleton, cells_cons, cells_nil, List.append_nil]
          exact List.perm_append_comm
      · refine ⟨[], (e.middle start stop).cells ++
          if stop < e.stop then (e.tail stop).cells else [], List.nil_sublist _, nofun, ?_,
          List.Perm.refl _, List.subset_append_left _ _, ?_⟩
        · rw [if_neg hTail, List.map_nil, List.append_nil]
        · intro hFew
          rw [if_neg fun hOver => hTail ⟨hOver, hFew⟩, List.append_nil]
    obtain ⟨ys, gone, hSub, hOver, hRight, hPerm, hGone, hOnly⟩ := hTails
    have hFewer : (w.right ++ ys.map (Extent.tail stop)).length < 4 → w.right.length < 4 := by
      intro hFew
      rw [List.length_append] at hFew
      omega
    -- the middle part is not empty, so it is freed
    have hMid : 0 < (e.middle start stop).len := by
      show 0 < min e.stop stop - max e.offset start
      omega
    have hFreesTrue : frees = true := by
      rw [← hFrees]
      have hPhysPos : 0 < e.phys := by
        have hIn := hData.data (e.offset, e.phys, e.flags) (mem_cells.mpr
          ⟨e, List.mem_singleton_self _, ⟨Nat.le_refl _, by omega⟩, by
            unfold Extent.physAt
            omega, rfl⟩)
        have hIn' : f.dataStart < e.phys := hIn
        omega
      simp only [Bool.and_eq_true, decide_eq_true_eq]
      exact ⟨⟨hPhysPos, hPos⟩, hMid⟩
    refine ⟨ys, gone, ?_, ?_, ?_, List.nil_sublist _, List.nil_subset _, hKept, hSub, hOver, hRight,
      ?_, ?_, ?_, ?_, ?_, ?_, nofun, ?_, fun _ _ => nofun, ?_, ?_⟩
    · cases frees with
      | true => exact ⟨rfl, rfl, rfl, rfl, rfl⟩
      | false => exact SameInodeState.refl f
    · cases frees with
      | true => rfl
      | false => rfl
    · intro b _
      cases frees with
      | true => rfl
      | false => rfl
    · show (cells [e]).Perm _
      rw [cells_cons, cells_nil, List.append_nil, hParts]
      exact hPerm.append_left _
    · show w.countDelta + _ = w.countDelta + _
      by_cases hHead : e.offset < start
      · rw [if_pos hHead]
        simp [Content.ofExts, hHead]
      · rw [if_neg hHead]
        simp [Content.ofExts, hHead]
    · intro rel hFree
      cases frees with
      | false => exact Or.inl hFree
      | true =>
        rcases freeData_isFree (hRegion (hSome rfl)) hFree with hOld | ⟨hLo, hHi⟩
        · exact Or.inl hOld
        · obtain ⟨x, hx, hEq⟩ := hMiddle _ hLo hHi
          exact Or.inr (Or.inr ⟨x, hGone hx, hEq⟩)
    · intro hSound
      cases frees with
      | true => exact freeData_sound (hRegion (hSome rfl)) hSound
      | false => exact ⟨hSound, Nat.le_refl _⟩
    · cases frees with
      | true => exact Alloc.blockCount_freeBlocks _ _ _
      | false => rfl
    · -- the head ends before the range
      rintro ⟨b, p, fl⟩ hx hLo -
      obtain ⟨y, hy, ⟨-, hTo⟩, -⟩ := mem_cells.mp hx
      have hHead : y ∈ if e.offset < start then [e.head start] else [] := hy
      split at hHead
      · rw [List.mem_singleton.mp hHead] at hTo
        have hEnd : b < e.offset + (start - e.offset) := hTo
        have hLo' : start ≤ b := hLo
        omega
      · cases hHead
    · intro rel hWas
      cases frees with
      | false => exact hWas
      | true =>
        show (f.alloc.freeBlocks _ _).isFree rel = true
        rw [Alloc.isFree_freeBlocks, hWas, Bool.true_or]
    · intro hFew x hx
      rw [hOnly (hFewer (hRight ▸ hFew))] at hx
      obtain ⟨b, p, fl⟩ := x
      obtain ⟨⟨hFrom, hTo⟩, -⟩ := mem_extent_cells.mp hx
      have hFrom' : max e.offset start ≤ b := hFrom
      have hTo' : b < max e.offset start + (min e.stop stop - max e.offset start) := hTo
      show start ≤ b ∧ b < stop
      omega
    · intro hFew
      have hOne := hOnly (hFewer (hRight ▸ hFew))
      subst hFreesTrue
      refine ⟨?_, ?_⟩
      · show w.blocksFreed + (e.middle start stop).len = w.blocksFreed + gone.length
        rw [hOne]
        unfold Extent.cells
        rw [List.length_map, List.length_range]
      · rintro rel hRel ⟨x, hx, hEq⟩
        rw [hOne] at hx
        obtain ⟨b, p, fl⟩ := x
        obtain ⟨⟨hFrom, hTo⟩, hAt, -⟩ := mem_extent_cells.mp hx
        have hEq' : p = f.dataStart + rel := hEq
        have hData' := hRegion hMid
        unfold Extent.physAt at hAt
        unfold Extent.stop at hTo
        show (f.alloc.freeBlocks ((e.middle start stop).phys - f.dataStart)
          (e.middle start stop).len).isFree rel = true
        rw [Alloc.isFree_freeBlocks, Bool.or_eq_true, decide_eq_true_eq]
        exact Or.inr ⟨by omega, by omega, hRel⟩

/-- The extents of a leaf, one after the other. -/
theorem leafDelete_spec (hRange : start < stop) : ∀ (l : List Extent) (f : File) (w : DeleteCtx),
    (∀ e ∈ l, 0 < e.len) → InData f (Content.ofExts l) → ∃ ys gone,
      Pruned start stop f w (Content.ofExts l) (leafDelete start stop l f w).2.1
        (leafDelete start stop l f w).2.2
        (Content.ofExts (leafDelete start stop l f w).1) ys gone []
  | [], f, w, _, _ => ⟨[], [], Pruned.refl nofun nofun nofun⟩
  | e :: l, f, w, hPos, hData => by
    have hDataOne : InData f (Content.ofExts [e]) := by
      refine ⟨nofun, fun x hx => hData.data x ?_⟩
      have hIn : x ∈ cells [e] := hx
      show x ∈ cells ([e] ++ l)
      rw [cells_append]
      exact List.mem_append_left _ hIn
    obtain ⟨ys, gone, hStep⟩ : ∃ ys gone, Pruned start stop f w (Content.ofExts [e])
        (leafDeleteStep start stop e f w).2.1 (leafDeleteStep start stop e f w).2.2
        (Content.ofExts (leafDeleteStep start stop e f w).1) ys gone [] :=
      leafDeleteStep_spec hRange e (hPos e List.mem_cons_self) hDataOne
    have hDataRest : InData (leafDeleteStep start stop e f w).2.1 (Content.ofExts l) := by
      refine ⟨nofun, fun x hx => ?_⟩
      rw [hStep.same.dataStart]
      refine hData.data x ?_
      have hIn : x ∈ cells l := hx
      show x ∈ cells ([e] ++ l)
      rw [cells_append]
      exact List.mem_append_right _ hIn
    obtain ⟨zs, gone', hRest⟩ := leafDelete_spec hRange l _ (leafDeleteStep start stop e f w).2.2
      (fun x hx => hPos x (List.mem_cons_of_mem _ hx)) hDataRest
    exact ⟨ys ++ zs, gone ++ gone', hStep.append hRest List.nodup_nil⟩

end Leaf

--
-- Subtrees
--

section Subtree

variable {start stop : Nat}

/-- What the walk over a subtree leaves: nothing, or a subtree over the same range. -/
structure Walked (start stop : Nat) (P : Nodes → Content → Prop) (f : File) (w : DeleteCtx)
    (c : Content) (empty : Bool) (f' : File) (w' : DeleteCtx) (c' : Content) (ms : List Extent) :
    Prop where
  pruned : ∃ ys gone, Pruned start stop f w c f' w' c' ys gone ms
  gone   : empty = true → c' = Content.none
  kept   : empty = false → P f'.nodes c'

theorem freeNode_isFree {f : File} {block rel : Nat} (hData : f.dataStart < block)
    (h : (f.freeNode block).alloc.isFree rel = true) :
    f.alloc.isFree rel = true ∨ f.dataStart + rel = block := by
  have hBits : (f.alloc.isFree rel || decide (rel = block - f.dataStart ∧
      block - f.dataStart < f.alloc.blockCount)) = true := by
    rw [← Alloc.isFree_freeBlock]
    exact h
  rw [Bool.or_eq_true, decide_eq_true_eq] at hBits
  rcases hBits with hOld | ⟨hEq, -⟩
  · exact Or.inl hOld
  · exact Or.inr (by omega)

/-- A node without children is freed. -/
theorem Pruned.freeNode {f f' : File} {w w' : DeleteCtx} {c c' : Content} {block : Nat}
    {ys ms : List Extent} {gone : List (Nat × Nat × Nat)}
    (h : Pruned start stop f w c f' w' c' ys gone ms) (hData : f.dataStart < block)
    (hOut : block ∉ c.blocks) :
    Pruned start stop f w ⟨c.exts, block :: c.blocks, c.seps⟩ (f'.freeNode block) w' c' ys gone
      ms := by
  have hStart := h.same.dataStart
  have hStays : ∀ rel, f'.alloc.isFree rel = true → (f'.freeNode block).alloc.isFree rel = true := by
    intro rel hFree
    show (f'.alloc.freeBlock (block - f'.dataStart)).isFree rel = true
    rw [Alloc.isFree_freeBlock, hFree, Bool.true_or]
  refine ⟨⟨h.same.dataStart, h.same.indexed, h.same.inline, h.same.total, h.same.maxEnd⟩, h.root, ?_,
    h.blocks.cons _, h.seps, h.exts, h.tails, h.beyond, h.right, h.parts, h.count, ?_, ?_,
    (Alloc.blockCount_freeBlock _ _).trans h.size, h.rest, h.still,
    fun rel hFree => hStays rel (h.stays rel hFree), ?_, h.within, fun hFew =>
      ⟨(h.freed hFew).1, fun rel hRel hIn => hStays rel ((h.freed hFew).2 rel hRel hIn)⟩⟩
  · intro b hb
    exact h.nodes b fun hIn => hb (List.mem_cons_of_mem _ hIn)
  · intro rel hFree
    rcases freeNode_isFree (hStart ▸ hData) hFree with hFree | hEq
    · rcases h.free rel hFree with hOld | ⟨hIn, hGone⟩ | hGone
      · exact Or.inl hOld
      · exact Or.inr (Or.inl ⟨List.mem_cons_of_mem _ hIn, hGone⟩)
      · exact Or.inr (Or.inr hGone)
    · rw [hStart] at hEq
      refine Or.inr (Or.inl ?_)
      rw [hEq]
      exact ⟨List.mem_cons_self, fun hBad => hOut (h.blocks.subset hBad)⟩
  · intro hSound
    obtain ⟨hSound', hLe⟩ := h.sound hSound
    have hFreed : (f'.alloc.freeBlock (block - f'.dataStart)).Healthy :=
      hSound'.freeBlock (by omega)
    exact ⟨hFreed, Nat.le_trans hLe (Alloc.freeCount_mono hSound'.consistent hFreed.consistent
      (Alloc.blockCount_freeBlock _ _) hStays)⟩
  · intro rel hRel hIn hGone
    rcases List.mem_cons.mp hIn with hEq | hIn
    · show (f'.alloc.freeBlock (block - f'.dataStart)).isFree rel = true
      rw [Alloc.isFree_freeBlock, Bool.or_eq_true, decide_eq_true_eq, h.size]
      exact Or.inr ⟨by omega, by omega⟩
    · exact hStays rel (h.drops rel hRel hIn hGone)

/-- A node with children is written. -/
theorem Pruned.commitNode {f f' : File} {w w' : DeleteCtx} {c c' : Content} {block : Nat}
    {ys ms : List Extent} {gone : List (Nat × Nat × Nat)}
    (h : Pruned start stop f w c f' w' c' ys gone ms) (hOut : block ∉ c.blocks) (node : Node) :
    Pruned start stop f w ⟨c.exts, block :: c.blocks, c.seps⟩ (f'.commitNode block node) w'
      ⟨c'.exts, block :: c'.blocks, c'.seps⟩ ys gone ms := by
  refine ⟨⟨h.same.dataStart, h.same.indexed, h.same.inline, h.same.total, h.same.maxEnd⟩, h.root, ?_,
    h.blocks.cons_cons _, h.seps, h.exts, h.tails, h.beyond, h.right, h.parts, h.count, ?_, h.sound,
    h.size, h.rest, h.still, h.stays, ?_, h.within, h.freed⟩
  · intro b hb
    have hNe : b ≠ block := fun hEq => hb (hEq ▸ List.mem_cons_self)
    show Function.update f'.nodes block (some node) b = f.nodes b
    rw [Function.update_of_ne hNe]
    exact h.nodes b fun hIn => hb (List.mem_cons_of_mem _ hIn)
  · intro rel hFree
    rcases h.free rel hFree with hOld | ⟨hIn, hGone⟩ | hGone
    · exact Or.inl hOld
    · refine Or.inr (Or.inl ⟨List.mem_cons_of_mem _ hIn, ?_⟩)
      rw [List.mem_cons, not_or]
      exact ⟨fun hBad => hOut (hBad ▸ hIn), hGone⟩
    · exact Or.inr (Or.inr hGone)
  · intro rel hRel hIn hGone
    rw [List.mem_cons, not_or] at hGone
    rcases List.mem_cons.mp hIn with hEq | hIn
    · exact absurd hEq hGone.1
    · exact h.drops rel hRel hIn hGone.2

/-- The walk over every subtree of depth `d` does what it should, and `miss` tells what it
does not look at; that does not depend on what the walk did before. -/
def Deletes (start stop d : Nat)
    (del : File → DeleteCtx → Nat → Option (Bool × File × DeleteCtx))
    (miss : Nodes → Nat → Nat → List Extent × Nat) : Prop :=
  ∀ {f : File} (w : DeleteCtx) {block lo hi : Nat} {c : Content}, Sub f.nodes d block lo hi c →
    c.blocks.Nodup → InData f c → ∃ empty f' w' c' ms,
      del f w block = some (empty, f', w') ∧
        Walked start stop (fun nodes x => Sub nodes d block lo hi x) f w c empty f' w' c' ms ∧
        ∀ nodes : Nodes, (∀ b ∈ c.blocks, nodes b = f.nodes b) →
          miss nodes w.cap block = (ms, w'.cap)

theorem Sub.extents {nodes : Nodes} {d block lo hi fuel : Nat} {c : Content}
    (h : Sub nodes d block lo hi c) (hFuel : d < fuel) : subtreeExtents nodes fuel block = c.exts := by
  unfold subtreeExtents
  rw [h.walk hFuel]

section Children

variable {d : Nat} {del : File → DeleteCtx → Nat → Option (Bool × File × DeleteCtx)}
  {miss : Nodes → Nat → Nat → List Extent × Nat} {f : File} {fuel : Nat}

theorem InData.mono {f f' : File} {c x : Content} (h : InData f c) (hStart : f'.dataStart = f.dataStart)
    (hBlocks : x.blocks ⊆ c.blocks) (hExts : x.exts ⊆ c.exts) : InData f' x := by
  refine ⟨fun b hb => ?_, fun y hy => ?_⟩
  · rw [hStart]
    exact h.nodes b (hBlocks hb)
  · rw [hStart]
    refine h.data y ?_
    unfold cells at hy ⊢
    rw [List.mem_flatMap] at hy ⊢
    obtain ⟨e, he, hIn⟩ := hy
    exact ⟨e, hExts he, hIn⟩

theorem deleteChild_spec (hDel : Deletes start stop d del miss) (hFuel : d < fuel) (w : DeleteCtx)
    {block lo hi : Nat} {c : Content} (h : Child f.nodes d block lo hi c) (hNodup : c.blocks.Nodup)
    (hData : InData f c) (low high : Nat) : ∃ empty f' w' c' ms,
      deleteChild del start stop low high block f w = some (empty, f', w') ∧
        Walked start stop (fun nodes x => Child nodes d block lo hi x) f w c empty f' w' c' ms ∧
        ∀ nodes : Nodes, (∀ b ∈ c.blocks, nodes b = f.nodes b) →
          missedChild (miss nodes) (subtreeExtents nodes fuel) start stop low high block w.cap =
            (ms, w'.cap) := by
  unfold deleteChild missedChild
  by_cases hMeets : block ≠ 0 ∧ low < stop ∧ start < high
  · obtain ⟨empty, f', w', c', ms, hRun, hWalked, hMiss⟩ := hDel w h.2 hNodup hData
    refine ⟨empty, f', w', c', ms, ?_, ⟨hWalked.pruned, hWalked.gone,
      fun hKept => ⟨h.1, hWalked.kept hKept⟩⟩, fun nodes hSame => ?_⟩
    · rw [if_pos hMeets]
      exact hRun
    · rw [if_pos hMeets]
      exact hMiss nodes hSame
  · refine ⟨false, f, w, c, c.exts, ?_, ⟨⟨[], [], Pruned.skip fun e he => (h.2.offsets e he).2.2⟩,
      nofun, fun _ => h⟩, fun nodes hSame => ?_⟩
    · rw [if_neg hMeets]
    · rw [if_neg hMeets, (h.congr hSame).2.extents hFuel]

theorem Child.widen {nodes : Nodes} {block lo hi lo' hi' : Nat} {c : Content}
    (h : Child nodes d block lo hi c) (hLo : lo' ≤ lo) (hHi : hi ≤ hi') :
    Child nodes d block lo' hi' c :=
  ⟨h.1.mono hLo hHi, h.2.widen hLo hHi⟩

theorem length_survivors_le (tr : Nat) : ∀ (low : Nat) (idx : List IdxEntry) (empties : List Bool),
    (survivors tr low idx empties).length ≤ idx.length + 1
  | low, [], empties => by
    unfold survivors
    split
    · exact Nat.zero_le _
    · exact Nat.le_refl _
  | low, e :: idx, empties => by
    have hRest := length_survivors_le tr e.highKey idx empties.tail
    unfold survivors
    rw [List.length_append, List.length_cons]
    split
    · rw [List.length_nil]
      omega
    · rw [List.length_singleton]
      omega

theorem length_compact : ∀ (child : Nat) (rest : List (Nat × Nat)),
    (compact child rest).1.length = rest.length
  | _, [] => rfl
  | _, (next, _) :: rest => congrArg (· + 1) (length_compact next rest)

/-- The children that are left make up a node: the range of the first one reaches down
to the bound that the loop recorded for it. -/
def Left (nodes : Nodes) (d lo hi : Nat) (seps : List Nat) (low : Nat) (c : Content) :
    List (Nat × Nat) → Prop
  | [] => c = Content.none
  | (first, l) :: rest => (l = low ∨ l ∈ seps) ∧
    Kids (Child nodes d) (compact first rest).2 (compact first rest).1 (max l lo) hi c

theorem deleteChildren_spec (hDel : Deletes start stop d del miss) (hFuel : d < fuel) (tr hi : Nat) :
    ∀ {idx : List IdxEntry} {f : File} (w : DeleteCtx) {low lo : Nat} {c : Content}, low ≤ lo →
      Kids (Child f.nodes d) tr idx lo hi c → c.blocks.Nodup → InData f c →
      ∃ empties f' w' c' ms,
        deleteChildren del start stop tr low idx f w = some (empties, f', w') ∧
        (∃ ys gone, Pruned start stop f w c f' w' c' ys gone ms) ∧
        Left f'.nodes d lo hi c.seps low c' (survivors tr low idx empties) ∧
        ∀ nodes : Nodes, (∀ b ∈ c.blocks, nodes b = f.nodes b) →
          missedChildren (miss nodes) (subtreeExtents nodes fuel) start stop tr low idx w.cap =
            (ms, w'.cap)
  | [], f, w, low, lo, c, hLow, h, hNodup, hData => by
    obtain ⟨empty, f', w', c', ms, hRun, hWalked, hMiss⟩ :=
      deleteChild_spec hDel hFuel w h hNodup hData low (2 ^ 64 - 1)
    refine ⟨[empty], f', w', c', ms, ?_, hWalked.pruned, ?_, hMiss⟩
    · unfold deleteChildren
      rw [hRun]
    · cases empty with
      | true => exact hWalked.gone rfl
      | false =>
        refine ⟨Or.inl rfl, ?_⟩
        rw [Nat.max_eq_right hLow]
        exact hWalked.kept rfl
  | e :: idx, f, w, low, lo, c, hLow, h, hNodup, hData => by
    obtain ⟨c₁, c₂, rfl, hFirst, hRest⟩ := h
    have hKids : e.highKey < hi := hRest.lt fun _ _ _ _ hc => hc.lt
    have hKey : lo < e.highKey := hFirst.lt
    have hNodup' : (c₁.blocks ++ c₂.blocks).Nodup := hNodup
    obtain ⟨hNodup₁, hNodup₂, hDisj⟩ := List.nodup_append.mp hNodup'
    have hData₁ : InData f c₁ := hData.mono rfl (List.subset_append_left _ _)
      (List.subset_append_left _ _)
    obtain ⟨empty, f1, w1, c₁', ms, hRun, hWalked, hMiss⟩ :=
      deleteChild_spec hDel hFuel w hFirst hNodup₁ hData₁ low e.highKey
    obtain ⟨ys, gone, hPruned⟩ := hWalked.pruned
    have hData₂ : InData f1 c₂ := hData.mono hPruned.same.dataStart (List.subset_append_right _ _)
      (List.subset_append_right _ _)
    have hRest1 : Kids (Child f1.nodes d) tr idx e.highKey hi c₂ := by
      refine hRest.mono fun b lo hi x hx hChild => hChild.congr fun b' hb' => hPruned.nodes b' ?_
      exact fun hIn => hDisj b' hIn b' (hx hb') rfl
    obtain ⟨rest, f2, w2, c₂', ns, hRun2, ⟨zs, gone', hPruned2⟩, hLeft, hMiss2⟩ :=
      deleteChildren_spec hDel hFuel tr hi w1 (Nat.le_refl _) hRest1 hNodup₂ hData₂
    have hSep : Pruned start stop f1 w1 (Content.sep e.highKey ++ c₂) f2 w2 (Content.none ++ c₂')
        ([] ++ zs) ([] ++ gone') ([] ++ ns) := (Pruned.sep e.highKey).append hPruned2 hNodup₂
    have hBoth : Pruned start stop f w (c₁ ++ (Content.sep e.highKey ++ c₂)) f2 w2 (c₁' ++ c₂')
        (ys ++ zs) (gone ++ gone') (ms ++ ns) := hPruned.append hSep hNodup
    -- the other children are as they were when the walk came to them
    have hMissed : ∀ nodes : Nodes, (∀ b ∈ (c₁ ++ (Content.sep e.highKey ++ c₂)).blocks,
        nodes b = f.nodes b) → missedChildren (miss nodes) (subtreeExtents nodes fuel) start stop tr
          low (e :: idx) w.cap = (ms ++ ns, w2.cap) := by
      intro nodes hSame
      have hSecond : ∀ b ∈ c₂.blocks, nodes b = f1.nodes b := by
        intro b hb
        rw [hSame b (List.mem_append_right _ hb)]
        exact (hPruned.nodes b fun hIn => hDisj b hIn b hb rfl).symm
      unfold missedChildren
      rw [hMiss nodes fun b hb => hSame b (List.mem_append_left _ hb)]
      dsimp only
      rw [hMiss2 nodes hSecond]
    -- the first child is still there after the walk over the others
    have hStill : ∀ {lo' hi' : Nat}, Child f1.nodes d e.child lo' hi' c₁' →
        Child f2.nodes d e.child lo' hi' c₁' := by
      intro lo' hi' hChild
      refine hChild.congr fun b hb => hPruned2.nodes b ?_
      exact fun hIn => hDisj b (hPruned.blocks.subset hb) b hIn rfl
    have hEq : deleteChildren del start stop tr low (e :: idx) f w = some (empty :: rest, f2, w2) := by
      unfold deleteChildren
      rw [hRun]
      dsimp only
      rw [hRun2]
    have hBound : ∀ l, l = e.highKey ∨ l ∈ c₂.seps → e.highKey ≤ l ∧ l < hi := by
      rintro l (rfl | hl)
      · exact ⟨Nat.le_refl _, hKids⟩
      · have hIn := hRest.seps (fun _ _ _ _ hc => hc.lt) (fun _ _ _ _ hc => hc.seps) l hl
        omega
    generalize hS : survivors tr e.highKey idx rest = S at hLeft
    cases empty with
    | true =>
      have hSurv : survivors tr low (e :: idx) (true :: rest) = S := hS
      obtain rfl := hWalked.gone rfl
      refine ⟨true :: rest, f2, w2, c₂', _, hEq, ⟨_, _, hBoth⟩, ?_, hMissed⟩
      rw [hSurv]
      cases S with
      | nil => exact hLeft
      | cons s S =>
        obtain ⟨first, l⟩ := s
        obtain ⟨hl, hNode⟩ := hLeft
        have hIn := hBound l hl
        refine ⟨Or.inr ?_, ?_⟩
        · rcases hl with rfl | hl
          · exact List.mem_append_right _ List.mem_cons_self
          · exact List.mem_append_right _ (List.mem_cons_of_mem _ hl)
        · have hMax : max l lo = max l e.highKey := by omega
          rw [hMax]
          exact hNode
    | false =>
      have hSurv : survivors tr low (e :: idx) (false :: rest) = (e.child, low) :: S := by
        rw [← hS]
        rfl
      have hChild := hWalked.kept rfl
      have hMax : max low lo = lo := Nat.max_eq_right hLow
      cases S with
      | nil =>
        obtain rfl : c₂' = Content.none := hLeft
        rw [Content.append_none] at hBoth
        refine ⟨false :: rest, f2, w2, c₁', _, hEq, ⟨_, _, hBoth⟩, ?_, hMissed⟩
        rw [hSurv]
        refine ⟨Or.inl rfl, ?_⟩
        rw [hMax]
        exact (hStill hChild).widen (Nat.le_refl _) (Nat.le_of_lt hKids)
      | cons s S =>
        obtain ⟨first, l⟩ := s
        obtain ⟨hl, hNode⟩ := hLeft
        have hIn := hBound l hl
        refine ⟨false :: rest, f2, w2, c₁' ++ (Content.sep l ++ c₂'), _, hEq,
          ⟨ys ++ zs, gone ++ gone', ?_⟩, ?_, hMissed⟩
        · refine hBoth.reseps (s := c₁'.seps ++ (l :: c₂'.seps)) ?_
          intro k hk
          rcases List.mem_append.mp hk with hk | hk
          · exact List.mem_append_left _ (hPruned.seps hk)
          · refine List.mem_append_right _ ?_
            rcases List.mem_cons.mp hk with rfl | hk
            · exact List.mem_cons.mpr hl
            · exact List.mem_cons_of_mem _ (hPruned2.seps hk)
        · rw [hSurv]
          refine ⟨Or.inl rfl, ?_⟩
          have hMax' : max l e.highKey = l := Nat.max_eq_left hIn.1
          rw [hMax'] at hNode
          rw [hMax]
          exact ⟨c₁', c₂', rfl, (hStill hChild).widen (Nat.le_refl _) hIn.1, hNode⟩

end Children

theorem leafDelete_cap (start stop : Nat) : ∀ (l : List Extent) (f : File) (w : DeleteCtx),
    (leafDelete start stop l f w).2.2.cap = w.cap := by
  intro l
  induction l with
  | nil => exact fun _ _ => rfl
  | cons e l ih =>
    intro f w
    have hStep : (leafDeleteStep start stop e f w).2.2.cap = w.cap := by
      unfold leafDeleteStep
      split
      · rfl
      · rfl
    unfold leafDelete
    exact (ih _ _).trans hStep

/-- A leaf. -/
theorem deleteNode_leaf (hRange : start < stop)
    (del : File → DeleteCtx → Nat → Option (Bool × File × DeleteCtx)) (w : DeleteCtx) {block lo hi : Nat} {c : Content}
    (h : Sub f.nodes 0 block lo hi c) (hData : InData f c) (hCap : ¬ (block = 0 ∨ w.cap = 0)) :
    ∃ empty f' w' c', deleteNode start stop del f w block = some (empty, f', w') ∧
      Walked start stop (fun nodes x => Sub nodes 0 block lo hi x) f w c empty f' w' c' [] ∧
      w'.cap = w.cap - 1 := by
  obtain ⟨node, hNode, hRead⟩ := h.node
  obtain ⟨hPos, hLeafNode, hBlocks, hSeps, hLeaf⟩ := h
  obtain ⟨exts, blocks, seps⟩ := c
  dsimp only at hBlocks hSeps hLeaf hLeafNode
  subst hBlocks hSeps
  rw [hLeafNode] at hNode
  obtain rfl := Option.some.inj hNode
  unfold deleteNode
  rw [if_neg hCap]
  dsimp only
  rw [hRead]
  dsimp only
  obtain ⟨ys, gone, hLeafSpec⟩ := leafDelete_spec hRange exts f { w with cap := w.cap - 1 }
    hLeaf.pos (hData.mono rfl (List.nil_subset _) (List.Subset.refl _))
  have hSpec := hLeafSpec.ofCap
  have hLeft : (leafDelete start stop exts f { w with cap := w.cap - 1 }).2.2.cap = w.cap - 1 :=
    leafDelete_cap ..
  have hRegion := hData.nodes block List.mem_cons_self
  generalize leafDelete start stop exts f { w with cap := w.cap - 1 } = r at hSpec hLeft ⊢
  obtain ⟨out, f', w'⟩ := r
  dsimp only at hSpec hLeft ⊢
  by_cases hEmpty : out.isEmpty = true
  · rw [if_pos hEmpty]
    rw [List.isEmpty_iff] at hEmpty
    subst hEmpty
    exact ⟨true, _, w', Content.none, rfl,
      ⟨⟨ys, gone, hSpec.freeNode hRegion List.not_mem_nil⟩, fun _ => rfl, nofun⟩, hLeft⟩
  · rw [if_neg hEmpty]
    refine ⟨false, _, w', _, rfl,
      ⟨⟨ys, gone, hSpec.commitNode List.not_mem_nil (.leaf out)⟩, nofun, ?_⟩, hLeft⟩
    intro _
    refine ⟨hPos, ?_, rfl, rfl, hSpec.exts.leafOk hLeaf⟩
    exact Function.update_self ..

/-- An internal node, whose children are walked as they should. -/
theorem deleteNode_inner (hDel : Deletes start stop d del miss) (hFuel : d < fuel) (w : DeleteCtx)
    {block lo hi : Nat} {c : Content} (h : Sub f.nodes (d + 1) block lo hi c)
    (hNodup : c.blocks.Nodup) (hData : InData f c) (hCap : ¬ (block = 0 ∨ w.cap = 0)) :
    ∃ empty f' w' c' ms, deleteNode start stop del f w block = some (empty, f', w') ∧
      Walked start stop (fun nodes x => Sub nodes (d + 1) block lo hi x) f w c empty f' w' c' ms ∧
      ∀ nodes : Nodes, (∀ b ∈ c.blocks, nodes b = f.nodes b) →
        ∃ idx tr, readNode nodes block = some (.internal idx tr) ∧
          missedChildren (miss nodes) (subtreeExtents nodes fuel) start stop tr 0 idx (w.cap - 1) =
            (ms, w'.cap) := by
  obtain ⟨node, hNode, hRead⟩ := h.node
  obtain ⟨hPos, idx, tr, kids, hInner, hKeys, rfl, hKids⟩ := h
  rw [hInner] at hNode
  obtain rfl := Option.some.inj hNode
  unfold deleteNode
  rw [if_neg hCap]
  dsimp only
  rw [hRead]
  dsimp only
  obtain ⟨hOut, hNodupKids⟩ := List.nodup_cons.mp hNodup
  have hRegion := hData.nodes block List.mem_cons_self
  have hDataKids : InData f kids :=
    hData.mono rfl (List.subset_cons_self _ _) (List.Subset.refl _)
  obtain ⟨empties, f', w', kids', ms, hRun, ⟨ys, gone, hPruned⟩, hLeft, hMiss⟩ :=
    deleteChildren_spec hDel hFuel tr hi { w with cap := w.cap - 1 } (Nat.zero_le lo) hKids
      hNodupKids hDataKids
  have hMissed : ∀ nodes : Nodes, (∀ b ∈ block :: kids.blocks, nodes b = f.nodes b) →
      ∃ idx tr, readNode nodes block = some (.internal idx tr) ∧
        missedChildren (miss nodes) (subtreeExtents nodes fuel) start stop tr 0 idx (w.cap - 1) =
          (ms, w'.cap) := by
    intro nodes hSame
    have hThere : nodes block = some (.internal idx tr) := by
      rw [hSame block List.mem_cons_self]
      exact hInner
    exact ⟨idx, tr, readNode_of_le hThere hKeys,
      hMiss nodes fun b hb => hSame b (List.mem_cons_of_mem _ hb)⟩
  rw [hRun]
  dsimp only
  have hLength := length_survivors_le tr 0 idx empties
  generalize survivors tr 0 idx empties = S at hLeft hLength
  cases S with
  | nil =>
    obtain rfl : kids' = Content.none := hLeft
    exact ⟨true, _, w', Content.none, ms, rfl,
      ⟨⟨ys, gone, hPruned.ofCap.freeNode hRegion hOut⟩, fun _ => rfl, nofun⟩, hMissed⟩
  | cons s S =>
    obtain ⟨first, l⟩ := s
    obtain ⟨-, hNodeKids⟩ := hLeft
    dsimp only
    refine ⟨false, _, w', _, ms, rfl, ⟨⟨ys, gone, hPruned.ofCap.commitNode hOut
      (.internal (compact first S).1 (compact first S).2)⟩, nofun, ?_⟩, hMissed⟩
    intro _
    have hKeys' : (compact first S).1.length ≤ idxKeys := by
      rw [length_compact]
      rw [List.length_cons] at hLength
      omega
    refine ⟨hPos, _, _, kids', Function.update_self .., hKeys', rfl, ?_⟩
    have hWiden := hNodeKids.widen (fun _ _ _ _ _ _ hLo hHi hc => hc.widen hLo hHi)
      (Nat.le_max_right l lo) (Nat.le_refl hi)
    refine hWiden.mono fun b lo hi x hx hChild => hChild.congr fun b' hb' => ?_
    refine Function.update_of_ne ?_ _ _
    rintro rfl
    exact hOut (hPruned.blocks.subset (hx hb'))

/-- A subtree that is left alone. -/
theorem walked_skip (w : DeleteCtx) {block lo hi : Nat} {c : Content} (h : Sub f.nodes d block lo hi c)
    (n : Nat) : Walked start stop (fun nodes x => Sub nodes d block lo hi x) f w c false f
      { w with cap := n } c c.exts := by
  refine ⟨⟨[], [], ?_⟩, nofun, fun _ => h⟩
  have hSkip : Pruned start stop f { w with cap := n } c f { w with cap := n } c [] [] c.exts :=
    Pruned.skip fun e he => (h.offsets e he).2.2
  exact hSkip.ofCap

/-- The walk over a subtree. -/
theorem deleteSubtree_spec (hRange : start < stop) (fuel : Nat) :
    ∀ (d : Nat), Deletes start stop d (deleteSubtree start stop (d + 1 + fuel))
      fun nodes => missed nodes start stop (d + 1 + fuel) := by
  intro d
  induction d with
  | zero =>
    intro f w block lo hi c h hNodup hData
    have hFuel : 0 + 1 + fuel = fuel + 1 := by omega
    rw [hFuel]
    unfold deleteSubtree
    by_cases hCap : block = 0 ∨ w.cap = 0
    · refine ⟨false, f, w, c, c.exts, if_pos hCap, walked_skip w h w.cap, fun nodes hSame => ?_⟩
      show missed nodes start stop (fuel + 1) w.cap block = _
      unfold missed
      rw [if_pos hCap, (h.congr hSame).extents (by omega)]
    · obtain ⟨empty, f', w', c', hRun, hWalked, hLeft⟩ :=
        deleteNode_leaf hRange (deleteSubtree start stop fuel) w h hData hCap
      refine ⟨empty, f', w', c', [], hRun, hWalked, fun nodes hSame => ?_⟩
      obtain ⟨-, hLeafNode, hBlocks, -, hLeaf⟩ := h
      have hThere : nodes block = some (.leaf c.exts) := by
        rw [hSame block (hBlocks ▸ List.mem_cons_self)]
        exact hLeafNode
      show missed nodes start stop (fuel + 1) w.cap block = _
      unfold missed
      rw [if_neg hCap, readNode_of_le hThere hLeaf.fanout, hLeft]
  | succ d ih =>
    intro f w block lo hi c h hNodup hData
    have hFuel : d + 1 + 1 + fuel = (d + 1 + fuel) + 1 := by omega
    rw [hFuel]
    unfold deleteSubtree
    by_cases hCap : block = 0 ∨ w.cap = 0
    · refine ⟨false, f, w, c, c.exts, if_pos hCap, walked_skip w h w.cap, fun nodes hSame => ?_⟩
      show missed nodes start stop (d + 1 + fuel + 1) w.cap block = _
      unfold missed
      rw [if_pos hCap, (h.congr hSame).extents (by omega)]
    · obtain ⟨empty, f', w', c', ms, hRun, hWalked, hMiss⟩ :=
        deleteNode_inner ih (by omega : d < d + 1 + fuel) w h hNodup hData hCap
      refine ⟨empty, f', w', c', ms, hRun, hWalked, fun nodes hSame => ?_⟩
      obtain ⟨idx, tr, hThere, hEq⟩ := hMiss nodes hSame
      show missed nodes start stop (d + 1 + fuel + 1) w.cap block = _
      unfold missed
      rw [if_neg hCap, hThere]
      exact hEq

end Subtree

--
-- The whole call
--

section Range

variable {start stop : Nat} {f f' : File} {w w' : DeleteCtx} {c c' : Content}
  {ys ms : List Extent} {gone : List (Nat × Nat × Nat)}

/-- A block that the walk had no reason to free is still taken. -/
theorem Pruned.allocated (h : Pruned start stop f w c f' w' c' ys gone ms) {p : Nat} (hOld : Allocated f p)
    (hNode : p ∈ c.blocks → p ∈ c'.blocks) (hGone : ∀ x ∈ gone, x.2.1 ≠ p) : Allocated f' p := by
  obtain ⟨rel, hRel, rfl, hTaken⟩ := hOld
  refine ⟨rel, hRel, by rw [h.same.dataStart], ?_⟩
  by_contra hFree
  rcases h.free rel (by simpa using hFree) with hWas | ⟨hIn, hOut⟩ | ⟨x, hx, hEq⟩
  · rw [hTaken] at hWas
    exact absurd hWas (by decide)
  · exact hOut (hNode hIn)
  · exact hGone x hx hEq

/-- What is left, and what is put aside, is still owned. -/
theorem Pruned.owns (h : Pruned start stop f w c f' w' c' ys gone ms) (hOwns : Owns f c.blocks (cells c.exts)) :
    Owns f' c'.blocks (cells c'.exts ++ cells (ys.map (Extent.tail stop))) := by
  have hParts := hOwns.perm h.parts
  rw [← List.append_assoc] at hParts
  refine ⟨?_, ?_, hParts.left.once⟩
  · intro x hx
    have hIn := List.mem_append_left gone hx
    refine h.allocated (hParts.taken x hIn) (fun hBad => absurd hBad (hParts.apart x hIn)) ?_
    intro y hy hEq
    have hOnce := hParts.once
    rw [List.map_append, List.nodup_append] at hOnce
    exact hOnce.2.2 _ (List.mem_map_of_mem hx) _ (List.mem_map_of_mem hy) hEq.symm
  · intro x hx hBad
    exact hParts.apart x (List.mem_append_left gone hx) (h.blocks.subset hBad)

theorem Pruned.owned (h : Pruned start stop f w c f' w' c' ys gone ms) (hOwned : ∀ b ∈ c.blocks, Allocated f b)
    (hOwns : Owns f c.blocks (cells c.exts)) : ∀ b ∈ c'.blocks, Allocated f' b := by
  intro b hb
  have hIn := h.blocks.subset hb
  refine h.allocated (hOwned b hIn) (fun _ => hb) ?_
  rintro x hx rfl
  refine hOwns.apart x (h.parts.mem_iff.mpr ?_) hIn
  exact List.mem_append_right _ (List.mem_append_right _ hx)

/-- At most one extent reaches over `stop`. -/
theorem Pruned.length_le_one (h : Pruned start stop f w c f' w' c' ys gone ms) (hOrd : Ordered c.exts) :
    ys.length ≤ 1 := by
  have hSorted : Ordered ys := List.Pairwise.sublist h.tails hOrd
  match ys, h.beyond, hSorted with
  | [], _, _ => exact Nat.zero_le _
  | [_], _, _ => exact Nat.le_refl _
  | a :: b :: _, hOver, hSorted =>
    have hApart := (List.pairwise_cons.mp hSorted).1 b List.mem_cons_self
    have ha := hOver a List.mem_cons_self
    have hb := hOver b (List.mem_cons_of_mem _ List.mem_cons_self)
    omega

theorem Extent.stop_tail {e : Extent} (h : stop < e.stop) : (e.tail stop).stop = e.stop := by
  show stop + (e.stop - stop) = e.stop
  omega

/-- A tail crosses no separator, like the extent that it is taken from. -/
theorem Pruned.tails_clear (h : Pruned start stop f w c f' w' c' ys gone ms) (hNo : NoCross c) :
    ∀ e ∈ ys.map (Extent.tail stop), ∀ k ∈ c'.seps, ¬ e.crosses k := by
  intro e he k hk ⟨hLo, hHi⟩
  obtain ⟨y, hy, rfl⟩ := List.mem_map.mp he
  have hOver := h.beyond y hy
  refine hNo y (h.tails.subset hy) k (h.seps hk) ⟨?_, ?_⟩
  · have hStart : stop < k := hLo
    omega
  · rw [Extent.stop_tail hOver.2] at hHi
    exact hHi

/-- What is left crosses no separator. -/
theorem Pruned.noCross (h : Pruned start stop f w c f' w' c' ys gone ms) (hNo : NoCross c) : NoCross c' := by
  intro e he k hk hCross
  obtain ⟨-, y, hy, hOff, -, -, hStop⟩ := h.exts.mem e he
  unfold Extent.crosses at hCross
  exact hNo y hy k (h.seps hk) ⟨by omega, by omega⟩

/-- The tail cache is unknown, or no extent ends after it. -/
def TailOk (n : Nat) (exts : List Extent) : Prop := n = 0 ∨ ∀ e ∈ exts, e.stop ≤ n

/-- What `briefs_btree_delete_range` leaves. -/
structure RangeDone (f : File) (c : Content) (stop : Nat) (r : Deleted) (c' : Content) : Prop where
  holds  : Holds r.file c'
  owns   : Owns r.file c'.blocks (cells c'.exts)
  tidy   : NoCross c → NoCross c'
  source : ∀ x ∈ cells c'.exts, x ∈ cells c.exts
  total  : NoCross c → f.total = c.exts.length →
    (∀ y ∈ c.exts, y.offset < stop → stop < y.stop → ¬ Exhausts 11 f.alloc) →
    r.file.total = c'.exts.length
  tail   : TailOk f.maxEnd c.exts →
    (f.maxEnd = 0 → ∀ y ∈ c.exts, y.offset < stop → stop < y.stop → ∀ x ∈ c.exts, x.stop ≤ y.stop) →
    TailOk r.file.maxEnd c'.exts

theorem foldl_max_le {l : List Extent} {n : Nat} : n ≤ l.foldl (fun n e => max n e.stop) n ∧
    ∀ e ∈ l, e.stop ≤ l.foldl (fun n e => max n e.stop) n := by
  induction l generalizing n with
  | nil => exact ⟨Nat.le_refl _, nofun⟩
  | cons x l ih =>
    obtain ⟨hFrom, hAll⟩ := ih (n := max n x.stop)
    rw [List.foldl_cons]
    refine ⟨by omega, ?_⟩
    intro e he
    rcases List.mem_cons.mp he with rfl | he
    · omega
    · exact hAll e he

/-- The extents do not depend on the counters. -/
theorem Holds.settle (h : Holds f c) (stop : Nat) (rootEmpty : Bool) (delta : Int) :
    Holds (f.settle stop rootEmpty delta) c ∧ (f.settle stop rootEmpty delta).nodes = f.nodes ∧
      (f.settle stop rootEmpty delta).alloc = f.alloc ∧
      (f.settle stop rootEmpty delta).dataStart = f.dataStart := by
  unfold File.settle
  split
  · exact ⟨⟨h.tree, h.flat, h.nodup, h.owned, h.stops, h.sound⟩, rfl, rfl, rfl⟩
  · split
    · exact ⟨⟨h.tree, h.flat, h.nodup, h.owned, h.stops, h.sound⟩, rfl, rfl, rfl⟩
    · exact ⟨h, rfl, rfl, rfl⟩

/-- The walk over the whole tree. -/
theorem Walked.holds {rootEmpty : Bool} {d : Nat} (h : Holds f c) (hIdx : f.indexed = true)
    (hp : Pruned start stop f w c f' w' c' ys gone ms) (hOwns : Owns f c.blocks (cells c.exts))
    (hGone : rootEmpty = true → c' = Content.none)
    (hKept : rootEmpty = false → Sub f'.nodes d f.root 0 fileTop c') :
    Holds (f'.afterWalk rootEmpty) c' := by
  obtain ⟨hSound, -⟩ := hp.sound h.sound
  have hIdx' : f'.indexed = true := hp.same.indexed.trans hIdx
  cases rootEmpty with
  | true =>
    obtain rfl := hGone rfl
    exact ⟨nofun, fun _ => ⟨rfl, ⟨List.Pairwise.nil, nofun, nofun, Nat.zero_le _⟩, Nat.zero_le _⟩,
      List.nodup_nil, nofun, nofun, hSound⟩
  | false =>
    refine ⟨fun _ => ⟨d, ?_⟩, fun hNo => ?_, hp.blocks.nodup h.nodup, hp.owned h.owned hOwns, ?_,
      hSound⟩
    · show Sub f'.nodes d f'.root 0 fileTop c'
      rw [hp.root]
      exact hKept rfl
    · have hFlat : f'.indexed = false := hNo
      rw [hIdx'] at hFlat
      cases hFlat
    · intro e he
      obtain ⟨-, y, hy, -, -, -, hStop⟩ := hp.exts.mem e he
      exact Nat.lt_of_le_of_lt hStop (h.stops y hy)

theorem Owns.ofState {g : File} {bl : List Nat} {cs : List (Nat × Nat × Nat)} (h : Owns f bl cs)
    (hAlloc : g.alloc = f.alloc) (hStart : g.dataStart = f.dataStart) : Owns g bl cs := by
  refine ⟨fun x hx => ?_, h.apart, h.once⟩
  obtain ⟨rel, hRel, hEq, hTaken⟩ := h.taken x hx
  exact ⟨rel, hRel, by rw [hStart, hEq], by rw [hAlloc]; exact hTaken⟩

theorem calledChildren_ok {walk : Nat → Except Errno (List Extent)} {called : Nat → List Extent × Bool}
    (hStep : ∀ child l, walk child = .ok l → called child = (l, true)) :
    ∀ {children : List Nat} {l : List Extent}, walkChildren walk children = .ok l →
      calledChildren called children = (l, true)
  | [], _, h => by
    cases h
    rfl
  | child :: rest, l, h => by
    unfold walkChildren at h
    cases hChild : walk child with
    | error e =>
      rw [hChild] at h
      cases h
    | ok l1 =>
      cases hRest : walkChildren walk rest with
      | error e =>
        rw [hChild, hRest] at h
        cases h
      | ok l2 =>
        rw [hChild, hRest] at h
        cases h
        unfold calledChildren
        rw [hStep child l1 hChild, calledChildren_ok hStep hRest]

/-- An enumeration without an error has called back for all of its extents. -/
theorem calledBack_ok {nodes : Nodes} : ∀ {left block : Nat} {l : List Extent},
    walkDescend nodes left block = .ok l → calledBack nodes left block = (l, true)
  | 0, block, l, h => by
    unfold walkDescend at h
    unfold calledBack
    split at h
    · rename_i hZero
      cases h
      simp [hZero]
    · cases h
  | left + 1, block, l, h => by
    unfold walkDescend at h
    unfold calledBack
    split at h
    · rename_i hZero
      cases h
      rw [if_pos hZero]
    · rename_i hBlock
      rw [if_neg hBlock]
      cases hNode : readNode nodes block with
      | none =>
        rw [hNode] at h
        cases h
      | some node =>
        rw [hNode] at h
        cases node with
        | leaf extents =>
          cases h
          rfl
        | internal idx trailingChild =>
          exact calledChildren_ok (fun child l' hl => calledBack_ok hl) h

theorem callbacks_ok {l : List Extent} (h : forEachExtent f = .ok l) : callbacks f = l := by
  unfold forEachExtent at h
  unfold callbacks
  split at h
  · rename_i hIdx
    rw [if_pos hIdx]
    split at h
    · rename_i hRoot
      cases h
      rw [if_pos hRoot]
    · rename_i hRoot
      rw [if_neg hRoot, calledBack_ok h]
  · rename_i hFlat
    cases h
    rw [if_neg hFlat]

/-- The enumeration for the counters. -/
theorem Holds.tailOf (h : Holds f c) :
    tailOf f = (c.exts.foldl (fun n e => max n e.stop) 0, c.exts.length) := by
  unfold Btree.tailOf
  rw [callbacks_ok h.forEachExtent]

theorem Holds.settle_tail (h : Holds f c) {stop : Nat} {rootEmpty : Bool} {delta : Int}
    (hOk : TailOk f.maxEnd c.exts) : TailOk (f.settle stop rootEmpty delta).maxEnd c.exts := by
  unfold File.settle
  by_cases hReach : f.maxEnd ≤ stop
  · rw [if_pos hReach, h.tailOf]
    exact Or.inr foldl_max_le.2
  · rw [if_neg hReach]
    cases rootEmpty with
    | true => exact hOk
    | false => exact hOk

/-- The extent count after the walk and the tails. -/
theorem Pruned.total {f2 : File} {c2 : Content} {rootEmpty : Bool} {l : List Extent} {cap : Nat}
    (hp : Pruned start stop f ⟨[], cap, false, 0, 0, 0⟩ c f' w' c' ys gone ms) (hIdx : f.indexed = true)
    (hGone : rootEmpty = true → c' = Content.none)
    (hb : BatchDone (f'.afterWalk rootEmpty) c' l none f2 c2) (hTotal : f.total = c.exts.length) :
    (f2.settle stop rootEmpty w'.countDelta).total = c2.exts.length := by
  unfold File.settle
  by_cases hReach : f2.maxEnd ≤ stop
  · rw [if_pos hReach, hb.holds.tailOf]
  · rw [if_neg hReach]
    cases rootEmpty with
    | true =>
      obtain rfl := hGone rfl
      exact hb.total rfl
    | false =>
      have hIdx' : (f'.afterWalk false).indexed = true := hp.same.indexed.trans hIdx
      obtain ⟨-, hShift⟩ := hb.shift hIdx'
      have hSame : (f'.afterWalk false).total = f.total := hp.same.total
      have hCount : w'.countDelta = 0 + (c'.exts.length - c.exts.length : Int) := hp.count
      show ((f2.total : Int) + w'.countDelta).toNat = c2.exts.length
      omega

/-- The tail cache after the walk and the tails. -/
theorem Pruned.tailOk {f2 : File} {c2 : Content} {rootEmpty : Bool} {fuel : Nat}
    {code : Option Errno} (hp : Pruned start stop f w c f' w' c' ys gone ms)
    (hGone : rootEmpty = true → c' = Content.none)
    (hEq : insertAll fuel (ys.map (Extent.tail stop)) (f'.afterWalk rootEmpty) = some (code, f2))
    (hb : BatchDone (f'.afterWalk rootEmpty) c' (ys.map (Extent.tail stop)) code f2 c2)
    (hSource : ∀ x ∈ cells c2.exts, x ∈ cells c.exts) (hOk : TailOk f.maxEnd c.exts)
    (hKnown : f.maxEnd = 0 → ∀ y ∈ c.exts, y.offset < stop → stop < y.stop →
      ∀ x ∈ c.exts, x.stop ≤ y.stop) : TailOk f2.maxEnd c2.exts := by
  cases rootEmpty with
  | true =>
    obtain rfl := hGone rfl
    exact Or.inr (hb.tail nofun)
  | false =>
    have hSame : (f'.afterWalk false).maxEnd = f.maxEnd := hp.same.maxEnd
    rcases hOk with hZero | hAll
    · -- the cache is unknown: only the tails raise it
      cases ys with
      | nil =>
        obtain ⟨-, rfl⟩ : none = code ∧ f'.afterWalk false = f2 := by
          simpa [insertAll] using hEq
        exact Or.inl (hSame.trans hZero)
      | cons y ys =>
        have hIn := hp.tails.subset List.mem_cons_self
        obtain ⟨hLo, hHi⟩ := hp.beyond y List.mem_cons_self
        have hLast := hKnown hZero y hIn hLo hHi
        have hReach : y.stop ≤ f2.maxEnd := by
          rw [← Extent.stop_tail hHi]
          exact hb.head (y.tail stop) rfl
        refine Or.inr (stop_le_of_cells hb.holds.pos fun x hx => ?_)
        exact Nat.lt_of_lt_of_le (lt_of_cells hLast x (hSource x hx)) hReach
    · refine Or.inr (hb.tail fun e he => ?_)
      obtain ⟨-, y, hy, -, -, -, hStop⟩ := hp.exts.mem e he
      rw [hSame]
      exact Nat.le_trans hStop (hAll y hy)

/-- The budget of the walk. -/
def File.nodeBudget (f : File) : Nat := min (f.total + 16) (2 ^ 20)

/-- A run of `briefs_btree_delete_range` on a tree: the walk, and the tails that are put
back. -/
structure RangeRun (fuel start stop : Nat) (f : File) (c : Content) (r : Deleted)
    (rootEmpty : Bool) (f1 : File) (w : DeleteCtx) (c1 : Content) (ys : List Extent)
    (gone : List (Nat × Nat × Nat)) (ms : List Extent) (f2 : File) (c2 : Content) : Prop where
  pruned  : Pruned start stop f ⟨[], f.nodeBudget, false, 0, 0, 0⟩ c f1 w c1 ys gone ms
  missed  : missed f.nodes start stop fuel f.nodeBudget f.root = (ms, w.cap)
  empty   : rootEmpty = true → c1 = Content.none
  walked  : Holds (f1.afterWalk rootEmpty) c1
  fits    : ∀ e ∈ ys.map (Extent.tail stop), 0 < e.len ∧ e.stop < fileTop
  putBack : insertAll fuel (ys.map (Extent.tail stop)) (f1.afterWalk rootEmpty) = some (r.ret, f2)
  batch   : BatchDone (f1.afterWalk rootEmpty) c1 (ys.map (Extent.tail stop)) r.ret f2 c2
  freed   : r.blocksFreed = w.blocksFreed
  file    : r.file = f2 ∧ (r.ret ≠ none ∨ rootEmpty = true ∧ ys = []) ∨
    r.file = f2.settle stop rootEmpty w.countDelta

theorem afterWalk_alloc (f : File) (rootEmpty : Bool) :
    (f.afterWalk rootEmpty).alloc = f.alloc ∧ (f.afterWalk rootEmpty).dataStart = f.dataStart := by
  cases rootEmpty with
  | true => exact ⟨rfl, rfl⟩
  | false => exact ⟨rfl, rfl⟩

theorem deleteRange_run (h : Holds f c) (hOwns : Owns f c.blocks (cells c.exts)) {fuel : Nat}
    (hFuel : 10 ≤ fuel) (hIdx : f.indexed = true) (hRange : start < stop) :
    ∃ r rootEmpty f1 w c1 ys gone ms f2 c2, deleteRange fuel f start stop = some r ∧
      RangeRun fuel start stop f c r rootEmpty f1 w c1 ys gone ms f2 c2 := by
  obtain ⟨d, hSub⟩ := h.tree hIdx
  have hDepth := hSub.depth_le (Nat.le_refl _)
  have hFuelEq : fuel = d + 1 + (fuel - (d + 1)) := by omega
  have hData := h.inData hOwns
  obtain ⟨rootEmpty, f1, w, c1, ms, hRun, ⟨⟨ys, gone, hp⟩, hGone, hKept⟩, hMiss⟩ :=
    deleteSubtree_spec hRange (fuel - (d + 1)) d ⟨[], f.nodeBudget, false, 0, 0, 0⟩ hSub h.nodup
      hData
  have hMissed : missed f.nodes start stop (d + 1 + (fuel - (d + 1))) f.nodeBudget f.root =
    (ms, w.cap) := hMiss f.nodes fun _ _ => rfl
  rw [← hFuelEq] at hRun hMissed
  have hHolds : Holds (f1.afterWalk rootEmpty) c1 := Walked.holds h hIdx hp hOwns hGone hKept
  have hRight : w.right = ys.map (Extent.tail stop) := by
    rw [hp.right, List.nil_append]
  have hState := afterWalk_alloc f1 rootEmpty
  have hFits : ∀ e ∈ ys.map (Extent.tail stop), 0 < e.len ∧ e.stop < fileTop := by
    intro e he
    obtain ⟨y, hy, rfl⟩ := List.mem_map.mp he
    obtain ⟨-, hOver⟩ := hp.beyond y hy
    rw [Extent.stop_tail hOver]
    refine ⟨?_, h.stops y (hp.tails.subset hy)⟩
    show 0 < y.stop - stop
    omega
  obtain ⟨code, f2, c2, hEq, hb⟩ :=
    insertAll_spec hFuel _ hHolds ((hp.owns hOwns).ofState hState.1 hState.2) hFits
  have hSkip : ¬ (f.indexed = false ∨ f.root = 0 ∨ stop ≤ start) := by
    rintro (hFlat | hRoot | hNone)
    · rw [hIdx] at hFlat
      cases hFlat
    · exact absurd hRoot (Nat.ne_of_gt hSub.pos)
    · omega
  have hDef : deleteRange fuel f start stop =
      if rootEmpty = true ∧ ys.map (Extent.tail stop) = [] then
        some ⟨none, f1.afterWalk rootEmpty, w.modified || rootEmpty, w.blocksFreed⟩
      else match insertAll fuel (ys.map (Extent.tail stop)) (f1.afterWalk rootEmpty) with
        | none => none
        | some (some err, f) => some ⟨some err, f, w.modified || rootEmpty, w.blocksFreed⟩
        | some (none, f) => some ⟨none, f.settle stop rootEmpty w.countDelta,
            w.modified || rootEmpty, w.blocksFreed⟩ := by
    rw [← hRight]
    unfold deleteRange
    rw [if_neg hSkip]
    show (match deleteSubtree start stop fuel f ⟨[], f.nodeBudget, false, 0, 0, 0⟩ f.root with
      | none => none
      | some (rootEmpty, f, w) => _) = _
    rw [hRun]
  by_cases hEmpty : rootEmpty = true ∧ ys.map (Extent.tail stop) = []
  · rw [if_pos hEmpty] at hDef
    have hNone : ys = [] := List.map_eq_nil_iff.mp hEmpty.2
    rw [hEmpty.2] at hEq
    obtain ⟨rfl, rfl⟩ := Prod.mk.inj (Option.some.inj hEq)
    refine ⟨_, rootEmpty, f1, w, c1, ys, gone, ms, _, c2, hDef, hp, hMissed, hGone, hHolds, hFits,
      ?_, hb, rfl, Or.inl ⟨rfl, Or.inr ⟨hEmpty.1, hNone⟩⟩⟩
    rw [hEmpty.2]
    rfl
  · rw [if_neg hEmpty, hEq] at hDef
    cases code with
    | some err =>
      exact ⟨_, rootEmpty, f1, w, c1, ys, gone, ms, f2, c2, hDef, hp, hMissed, hGone, hHolds, hFits,
        hEq, hb, rfl, Or.inl ⟨rfl, Or.inl nofun⟩⟩
    | none =>
      exact ⟨_, rootEmpty, f1, w, c1, ys, gone, ms, f2, c2, hDef, hp, hMissed, hGone, hHolds, hFits,
        hEq, hb, rfl, Or.inr rfl⟩

section Run

variable {fuel : Nat} {r : Deleted} {rootEmpty : Bool} {f1 f2 : File} {c1 c2 : Content}

/-- What is left and what is put aside is part of the old map. -/
theorem RangeRun.source
    (h : RangeRun fuel start stop f c r rootEmpty f1 w c1 ys gone ms f2 c2) :
    ∀ x ∈ cells c2.exts, x ∈ cells c.exts := by
  intro x hx
  rw [h.pruned.parts.mem_iff, ← List.append_assoc]
  exact List.mem_append_left _ (List.mem_append.mpr (h.batch.source x hx))

theorem RangeRun.distinct
    (h : RangeRun fuel start stop f c r rootEmpty f1 w c1 ys gone ms f2 c2) (hHolds : Holds f c)
    (hNo : NoCross c) : Distinct (cells c1.exts ++ cells (ys.map (Extent.tail stop))) := by
  have hAll := (hHolds.ordered hNo).distinct.perm h.pruned.parts
  rw [← List.append_assoc] at hAll
  exact hAll.left

theorem RangeRun.one_tail
    (h : RangeRun fuel start stop f c r rootEmpty f1 w c1 ys gone ms f2 c2) (hHolds : Holds f c)
    (hNo : NoCross c) : (ys.map (Extent.tail stop)).length ≤ 1 := by
  rw [List.length_map]
  exact h.pruned.length_le_one (hHolds.ordered hNo)

/-- With enough free blocks the tail goes back. -/
theorem RangeRun.room
    (h : RangeRun fuel start stop f c r rootEmpty f1 w c1 ys gone ms f2 c2) (hHolds : Holds f c)
    (hNo : NoCross c)
    (hRoom : ∀ y ∈ c.exts, y.offset < stop → stop < y.stop → ¬ Exhausts 11 f.alloc) :
    r.ret = none := by
  rcases h.batch.codes with hCode | hCode | hCode
  · exact hCode
  · exact absurd (h.distinct hHolds hNo) (h.batch.clash hCode)
  · exfalso
    obtain ⟨y, hy⟩ : ∃ y, y ∈ ys := by
      cases ys with
      | nil =>
        have hNone := h.putBack
        rw [hCode] at hNone
        cases hNone
      | cons y ys => exact ⟨y, List.mem_cons_self⟩
    have hOver := h.pruned.beyond y hy
    have hRoom' := hRoom y (h.pruned.tails.subset hy) hOver.1 hOver.2
    have hFull := h.batch.nospc hCode (h.one_tail hHolds hNo)
    have hMore := (h.pruned.sound hHolds.sound).2
    rw [(afterWalk_alloc f1 rootEmpty).1] at hFull
    unfold Exhausts at hFull hRoom'
    omega

/-- The file after the call, and its counters. -/
theorem RangeRun.settled
    (h : RangeRun fuel start stop f c r rootEmpty f1 w c1 ys gone ms f2 c2) :
    Holds r.file c2 ∧ r.file.alloc = f2.alloc ∧ r.file.dataStart = f2.dataStart := by
  rcases h.file with ⟨hFile, -⟩ | hFile
  · rw [hFile]
    exact ⟨h.batch.holds, rfl, rfl⟩
  · rw [hFile]
    obtain ⟨hSettled, -, hAlloc, hStart⟩ := h.batch.holds.settle stop rootEmpty w.countDelta
    exact ⟨hSettled, hAlloc, hStart⟩

/-- The call counts the extents right, unless it fails. -/
theorem RangeRun.total
    (h : RangeRun fuel start stop f c r rootEmpty f1 w c1 ys gone ms f2 c2)
    (hIdx : f.indexed = true) (hTotal : f.total = c.exts.length) (hRet : r.ret = none) :
    r.file.total = c2.exts.length := by
  have hb := h.batch
  rw [hRet] at hb
  rcases h.file with ⟨hFile, hNo | ⟨rfl, rfl⟩⟩ | hFile
  · exact absurd hRet hNo
  · obtain rfl := h.empty rfl
    rw [hFile]
    exact hb.total rfl
  · rw [hFile]
    exact h.pruned.total hIdx h.empty hb hTotal

end Run

/-- What `briefs_btree_delete_range` does. -/
theorem deleteRange_spec (h : Holds f c) (hOwns : Owns f c.blocks (cells c.exts)) {fuel : Nat}
    (hFuel : 10 ≤ fuel) (start stop : Nat) :
    ∃ r c', deleteRange fuel f start stop = some r ∧ RangeDone f c stop r c' := by
  by_cases hSkip : f.indexed = false ∨ f.root = 0 ∨ stop ≤ start
  · unfold deleteRange
    rw [if_pos hSkip]
    exact ⟨_, c, rfl, h, hOwns, fun hNo => hNo, fun x hx => hx, fun _ hTotal _ => hTotal,
      fun hTail _ => hTail⟩
  · have hIdx : f.indexed = true := by
      by_contra hNo
      exact hSkip (Or.inl (by simpa using hNo))
    obtain ⟨r, rootEmpty, f1, w, c1, ys, gone, ms, f2, c2, hEq, hr⟩ :=
      deleteRange_run h hOwns hFuel hIdx (by omega : start < stop)
    obtain ⟨hHolds, hAlloc, hStart⟩ := hr.settled
    refine ⟨r, c2, hEq, hHolds, hr.batch.owns.ofState hAlloc hStart, ?_, hr.source, ?_, ?_⟩
    · intro hNo
      exact hr.batch.tidy (hr.pruned.noCross hNo) (hr.distinct h hNo) (hr.pruned.tails_clear hNo)
    · intro hNo hTotal hRoom
      exact hr.total hIdx hTotal (hr.room h hNo hRoom)
    · intro hOk hKnown
      have hTail := hr.pruned.tailOk hr.empty hr.putBack hr.batch hr.source hOk hKnown
      rcases hr.file with ⟨hFile, -⟩ | hFile
      · rw [hFile]
        exact hTail
      · rw [hFile]
        exact hr.batch.holds.settle_tail hTail

end Range

end Briefs.Btree
