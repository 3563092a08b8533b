import Briefs.Alloc
import Briefs.Journal.Format

/-!
# BrieFS — the extents of an inode

The inline array and the B+ tree of `btree.c`: node lookup, leaf insertion with
merging, the proactive splits on the way down, the root split and the spill of
the inline array into a tree.

Nodes live in blocks. `Nodes` is what the blocks hold: in the buffer cache for
the operations, on the disk after a crash. `commits` is the history of
`btree_commit_node`, every version that a node buffer had, and `published` the
history of the root pointer; the code does not read them. Block numbers and
lengths are natural numbers: a file has far fewer than 2^64 blocks.
-/

namespace Briefs.Btree

open Briefs.Journal

--
-- Nodes
--

/-- `struct briefs_extent`. -/
structure Extent where
  offset : Nat
  phys   : Nat
  len    : Nat
  flags  : Nat
deriving DecidableEq, Repr

/-- The first file block after the extent. -/
def Extent.stop (e : Extent) : Nat := e.offset + e.len

/-- The extent maps the file block. -/
def Extent.covers (e : Extent) (iblock : Nat) : Prop := e.offset ≤ iblock ∧ iblock < e.stop

instance (e : Extent) (iblock : Nat) : Decidable (e.covers iblock) :=
  inferInstanceAs (Decidable (_ ∧ _))

/-- The physical block of a file block that the extent maps. -/
def Extent.physAt (e : Extent) (iblock : Nat) : Nat := e.phys + (iblock - e.offset)

/-- `struct briefs_btree_idx_entry`. -/
structure IdxEntry where
  child   : Nat
  highKey : Nat
deriving DecidableEq, Repr

/-- `struct briefs_extent_btree_node`: `num_keys` is the length of the list. The
level and the leaf chain are left out, nothing reads them. -/
inductive Node where
  | leaf (extents : List Extent)
  | internal (idx : List IdxEntry) (trailingChild : Nat)
deriving DecidableEq, Repr

/-- `BRIEFS_BTREE_LEAF_FANOUT`. -/
def leafFanout : Nat := 126

/-- `BRIEFS_BTREE_IDX_KEYS`. -/
def idxKeys : Nat := 253

def Node.numKeys : Node → Nat
  | .leaf extents => extents.length
  | .internal idx _ => idx.length

def Node.capacity : Node → Nat
  | .leaf _ => leafFanout
  | .internal _ _ => idxKeys

/-- What the blocks hold; `none` for a block that has no valid node. -/
abbrev Nodes := Nat → Option Node

/-- `btree_read_node`. -/
def readNode (nodes : Nodes) (block : Nat) : Option Node :=
  match nodes block with
  | some node => if node.numKeys ≤ node.capacity then some node else none
  | none => none

theorem readNode_eq_some {nodes : Nodes} {block : Nat} {node : Node}
    (h : readNode nodes block = some node) :
    nodes block = some node ∧ node.numKeys ≤ node.capacity := by
  unfold readNode at h
  cases hNode : nodes block with
  | none =>
    rw [hNode] at h
    cases h
  | some n =>
    rw [hNode] at h
    dsimp only at h
    split at h
    · rename_i hCap
      cases h
      exact ⟨rfl, hCap⟩
    · cases h

/-- `btree_internal_find_child`. -/
def findChild (idx : List IdxEntry) (key : Nat) : Nat :=
  idx.findIdx fun e => decide (key < e.highKey)

/-- The child at position `p`; past the entries it is the trailing child. -/
def childAt (idx : List IdxEntry) (trailingChild p : Nat) : Nat :=
  match idx[p]? with
  | some e => e.child
  | none => trailingChild

/-- `btree_leaf_find_pos`. -/
def findPos (extents : List Extent) (offset : Nat) : Nat :=
  extents.findIdx fun e => decide (offset < e.offset)

--
-- Lookup
--

/-- `btree_lookup_leaf`. -/
def lookupLeaf (iblock : Nat) : List Extent → Option Extent
  | [] => none
  | e :: rest =>
    if e.covers iblock then some e
    else if iblock < e.offset then none
    else lookupLeaf iblock rest

/-- `btree_lookup_block` with `fuel` levels left; `none` when they do not
suffice. -/
def lookupBlock (nodes : Nodes) : Nat → Nat → Nat → Option (Except Errno Extent)
  | 0, _, _ => none
  | fuel + 1, block, iblock =>
    match readNode nodes block with
    | none => some (.error .eio)
    | some (.leaf extents) =>
      match lookupLeaf iblock extents with
      | some e => some (.ok e)
      | none => some (.error .enoent)
    | some (.internal idx trailingChild) =>
      let child := childAt idx trailingChild (findChild idx iblock)
      if child = 0 then some (.error .eio) else lookupBlock nodes fuel child iblock

/-- `briefs_btree_lookup`. -/
def lookup (nodes : Nodes) (fuel root iblock : Nat) : Option (Except Errno Extent) :=
  if root = 0 then some (.error .enoent) else lookupBlock nodes fuel root iblock

--
-- Leaves
--

/-- The overlap test of `btree_leaf_insert`, from the entry before the slot. -/
def overlapScan (ext : Extent) : List Extent → Bool
  | [] => false
  | e :: rest =>
    if ext.stop ≤ e.offset then false
    else if ext.offset < e.stop then true
    else overlapScan ext rest

/-- `b` continues `a`, in the file and on the disk, in the same state. -/
def adjoins (a b : Extent) : Bool :=
  a.offset + a.len == b.offset && a.phys + a.len == b.phys && a.flags == b.flags

/-- The list part of `btree_leaf_insert`, which `btree_inline_insert` shares:
merge with a neighbour of the slot, or insert there. The flag says that an entry
was added. -/
def insertExtent (extents : List Extent) (ext : Extent) : Except Errno (Bool × List Extent) :=
  let pos := findPos extents ext.offset
  if overlapScan ext (extents.drop (pos - 1)) then .error .eexist
  else
    match (extents.take pos).getLast?.filter fun left => adjoins left ext,
        (extents.drop pos).head?.filter fun right => adjoins ext right with
    | some left, _ =>
      .ok (false, extents.take (pos - 1) ++
        { left with len := left.len + ext.len } :: extents.drop pos)
    | none, some right =>
      .ok (false, extents.take pos ++
        { right with offset := ext.offset, phys := ext.phys, len := right.len + ext.len } ::
          extents.drop (pos + 1))
    | none, none => .ok (true, extents.take pos ++ ext :: extents.drop pos)

--
-- The extents of an inode
--

/-- The extent state of an inode, with the node buffers and the allocator that
the tree uses. `root` is `extent_inline_base`, `total` is `num_extents_total`
and `maxEnd` the tail cache `cached_max_end`. -/
structure File where
  nodes     : Nodes
  alloc     : Alloc
  dataStart : Nat
  indexed   : Bool
  root      : Nat
  inline    : List Extent
  total     : Nat
  maxEnd    : Nat
  commits   : List (Nat × Node)
  published : List Nat

/-- `btree_commit_node`. -/
def File.commitNode (f : File) (block : Nat) (node : Node) : File :=
  { f with
    nodes := Function.update f.nodes block (some node)
    commits := f.commits ++ [(block, node)] }

/-- The two halves of a full node and the separator between them. A leaf splits
at the middle; an internal node gives its median key away. -/
def Node.split : Node → Node × Node × Nat
  | .leaf extents =>
    let mid := leafFanout / 2
    (.leaf (extents.take mid), .leaf (extents.drop mid),
      match (extents.drop mid).head? with
      | some e => e.offset
      | none => 0)
  | .internal idx trailingChild =>
    let mid := idxKeys / 2
    match idx[mid]? with
    | some median =>
      (.internal (idx.take mid) median.child, .internal (idx.drop (mid + 1)) trailingChild,
        median.highKey)
    | none => (.internal idx trailingChild, .internal [] trailingChild, 0)

/-- `btree_absorb_split`, the new content of the parent. -/
def absorbSplit (idx : List IdxEntry) (trailingChild p sibling separator : Nat) : Node :=
  match idx[p]? with
  | none =>
    .internal (idx ++ [{ child := trailingChild, highKey := separator }]) sibling
  | some old =>
    .internal (idx.take p ++ { old with highKey := separator } ::
      { child := sibling, highKey := old.highKey } :: idx.drop (p + 1)) trailingChild

/-- `btree_maybe_split_child` for the child at position `p` of the internal node
`block`. -/
def maybeSplitChild (f : File) (block : Nat) (idx : List IdxEntry) (trailingChild p : Nat) :
    Option Errno × File :=
  let childBlock := childAt idx trailingChild p
  match readNode f.nodes childBlock with
  | none => (some .eio, f)
  | some child =>
    if child.numKeys < child.capacity then (none, f)
    else
      let (rel, a) := f.alloc.allocBlockMeta
      if rel = 0 then (some .enospc, { f with alloc := a })
      else
        let sibBlock := f.dataStart + rel
        let (left, sib, separator) := child.split
        let f := { f with alloc := a }
        let f := (f.commitNode childBlock left).commitNode sibBlock sib
        (none, f.commitNode block (absorbSplit idx trailingChild p sibBlock separator))

/-- `btree_descend_insert` with `fuel` levels left: the return code, whether an
entry was added, and the state. -/
def descendInsert (ext : Extent) : Nat → File → Nat → Option (Option Errno × Bool × File)
  | 0, _, _ => none
  | fuel + 1, f, block =>
    match readNode f.nodes block with
    | none => some (some .eio, false, f)
    | some (.leaf extents) =>
      match insertExtent extents ext with
      | .error e => some (some e, false, f)
      | .ok (added, extents) => some (none, added, f.commitNode block (.leaf extents))
    | some (.internal idx trailingChild) =>
      match maybeSplitChild f block idx trailingChild (findChild idx ext.offset) with
      | (some e, f) => some (some e, false, f)
      | (none, f) =>
        -- a split may have routed the offset to the sibling
        match f.nodes block with
        | some (.internal idx trailingChild) =>
          let child := childAt idx trailingChild (findChild idx ext.offset)
          if child = 0 then some (some .eio, false, f) else descendInsert ext fuel f child
        | _ => some (some .eio, false, f)

/-- `btree_ensure_root_room`. -/
def ensureRootRoom (f : File) : Option Errno × File :=
  match readNode f.nodes f.root with
  | none => (some .eio, f)
  | some root =>
    if root.numKeys < root.capacity then (none, f)
    else
      let (rel, a) := f.alloc.allocBlockMeta
      if rel = 0 then (some .enospc, { f with alloc := a })
      else
        let (rel2, a) := a.allocBlockMeta
        if rel2 = 0 then (some .enospc, { f with alloc := a.freeBlock rel })
        else
          let sibBlock := f.dataStart + rel
          let newRoot := f.dataStart + rel2
          let (left, sib, separator) := root.split
          let f := { f with alloc := a }
          let f := (f.commitNode f.root left).commitNode sibBlock sib
          let f := f.commitNode newRoot
            (.internal [{ child := f.root, highKey := separator }] sibBlock)
          (none, { f with root := newRoot, published := f.published ++ [newRoot] })

/-- The insertion sort of `btree_spill_inline`: `k` goes behind the entries that
do not start after it. -/
def sortInsert (k : Extent) : List Extent → List Extent
  | [] => [k]
  | e :: rest => if k.offset < e.offset then k :: e :: rest else e :: sortInsert k rest

/-- The merge loop of `btree_spill_inline`. -/
def mergeRuns : List Extent → List Extent
  | [] => []
  | e :: rest =>
    rest.foldl (fun merged k =>
      match merged.getLast? with
      | some last =>
        if adjoins last k then merged.dropLast ++ [{ last with len := last.len + k.len }]
        else merged ++ [k]
      | none => [k]) [e]

/-- `btree_spill_inline`. -/
def spillInline (f : File) (ext : Extent) : Option Errno × File :=
  let merged := mergeRuns ((f.inline ++ [ext]).foldl (fun sorted k => sortInsert k sorted) [])
  let (rel, a) := f.alloc.allocBlockMeta
  if rel = 0 then (some .enospc, { f with alloc := a })
  else
    let rootBlock := f.dataStart + rel
    let f := { f with alloc := a }.commitNode rootBlock (.leaf merged)
    (none, { f with
      inline := []
      indexed := true
      root := rootBlock
      total := merged.length
      published := f.published ++ [rootBlock] })

/-- `btree_inline_insert`: `none` when the array is full and has to spill. -/
def inlineInsert (f : File) (ext : Extent) : Option (Option Errno × File) :=
  match insertExtent f.inline ext with
  | .error e => some (some e, f)
  | .ok (false, extents) => some (none, { f with inline := extents })
  | .ok (true, extents) =>
    if 8 ≤ f.inline.length then none
    else some (none, { f with inline := extents, total := f.total + 1 })

/-- `briefs_btree_insert_locked`; `none` when `fuel` levels do not suffice. -/
def insertLocked (fuel : Nat) (f : File) (ext : Extent) : Option (Option Errno × File) :=
  let f := { f with maxEnd := max f.maxEnd (ext.offset + ext.len) }
  if f.indexed then
    match ensureRootRoom f with
    | (some e, f) => some (some e, f)
    | (none, f) =>
      match descendInsert ext fuel f f.root with
      | none => none
      | some (some e, _, f) => some (some e, f)
      | some (none, added, f) =>
        some (none, if added then { f with total := f.total + 1 } else f)
  else
    match inlineInsert f ext with
    | some r => some r
    | none => some (spillInline f ext)

end Briefs.Btree
