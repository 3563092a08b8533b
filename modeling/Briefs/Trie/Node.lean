import Mathlib.Data.List.Basic
import Mathlib.Tactic

/-!
# BrieFS — directory trie nodes

A directory trie is a linked structure: every node has a reference to its first
child and to its next sibling, 0 standing for none, one level for each byte of a
name. A node that ends a name is a leaf, either a pure one or an intermediate
node with the leaf status set; it has the whole name, the inode number and the
file type. The links form a forest if the structure is sound: `Chain` relates a
reference to the forest of the nodes that hang from it.
-/

namespace Briefs.Trie

/-- `struct briefs_trie_node`, with the name it refers to in the page's name heap.
`interm` and `statusLeaf` are the bits `NODE_TYPE_INTERM` and `NODE_STATUS_LEAF`
of `node_type`. -/
structure Node where
  firstChild  : Nat
  nextSibling : Nat
  inode       : Nat
  name        : List UInt8
  depth       : Nat
  byteVal     : UInt8
  interm      : Bool
  statusLeaf  : Bool
  ftype       : Nat
  childCount  : Nat
deriving DecidableEq, Repr

/-- `TRIE_IS_LEAF`. -/
def Node.isLeaf (n : Node) : Bool :=
  !n.interm || n.statusLeaf

/-- The nodes by reference, as `trie_read_node` finds them. -/
abbrev Store := Nat → Option Node

/-- `BRIEFS_NAME_LEN`. -/
def nameLen : Nat := 255

/-- A directory entry as the iterator returns it. -/
structure Entry where
  name : List UInt8
  ino  : Nat
  type : Nat
deriving DecidableEq, Repr

/-- The entry a leaf stands for. -/
def Node.entry (n : Node) : Entry :=
  ⟨n.name, n.inode, n.ftype⟩

/-- Does the iterator emit the node? -/
def Node.emits (n : Node) : Bool :=
  n.isLeaf && decide (0 < n.name.length) && decide (n.name.length ≤ nameLen)

--
-- Forests
--

/-- A chain of siblings, each with the chain of its children. -/
inductive Forest where
  | nil
  | cons (ref : Nat) (kids rest : Forest)
deriving DecidableEq, Repr

namespace Forest

/-- The length of the top chain. -/
def width : Forest → Nat
  | nil => 0
  | cons _ _ rest => rest.width + 1

/-- The sum of the weights of all nodes. -/
def weigh (w : Nat → Nat) : Forest → Nat
  | nil => 0
  | cons r kids rest => w r + kids.weigh w + rest.weigh w

/-- Every node, in the order of the links. -/
def refs : Forest → List Nat
  | nil => []
  | cons r kids rest => r :: (kids.refs ++ rest.refs)

theorem weigh_eq_sum (w : Nat → Nat) (f : Forest) : f.weigh w = (f.refs.map w).sum := by
  induction f with
  | nil => rfl
  | cons r kids rest ihKids ihRest =>
    simp only [weigh, refs, List.map_cons, List.sum_cons, List.map_append, List.sum_append, ihKids,
      ihRest]
    omega

/-- At most `h` levels, and at most 256 siblings below any node. -/
def Fits : Nat → Forest → Prop
  | _, nil => True
  | 0, cons _ _ _ => False
  | h + 1, cons _ kids rest => Fits h kids ∧ kids.width ≤ 256 ∧ Fits (h + 1) rest

end Forest

/-- The chain of siblings that starts at a reference, with all that hangs from it. -/
def Chain (s : Store) : Nat → Forest → Prop
  | r, .nil => r = 0
  | r, .cons r' kids rest => r = r' ∧ r ≠ 0 ∧ ∃ n, s r = some n ∧
    Chain s n.firstChild kids ∧ Chain s n.nextSibling rest

end Briefs.Trie
