import Briefs.Trie.Node

/-!
# BrieFS — the trie iterator

The persistent iterator of an open directory (`trie.c`): a stack of node
references, a one-entry buffer for an entry that did not fit into the caller's
buffer, and checkpoints of earlier positions. The walk reads the nodes it pops,
emits leaves, and pushes the children of a node in the order of their chain, so
that they are popped in the reverse order. Two backstops end the walk of a corrupt
trie: a cap on the number of node visits and a table that counts visits of one
reference. Memory allocation does not fail here.
-/

namespace Briefs.Trie

/-- The error numbers the iterator returns, negated, in the source. -/
inductive IterError where
  | enoent
  | estale
  | eio
deriving DecidableEq, Repr

/-- `TRIE_SLOTS_PER_BLOCK`. -/
def slotsPerBlock : Nat := 64

/-- `TRIE_ITER_MAX_SP`. -/
def iterMaxSp : Nat := 128 * 1024

/-- `TRIE_VISIT_BITS`. -/
def visitBits : Nat := 17

/-- `TRIE_VISIT_ENGAGE`. -/
def visitEngage : Nat := 65536

/-- `TRIE_REF_MAX_VISITS`. -/
def refMaxVisits : Nat := 16

/-- `TRIE_CKPT_STRIDE`. -/
def ckptStrideInit : Nat := 64

/-- `TRIE_CKPT_MAX`. -/
def ckptMax : Nat := 4096

/-- `TRIE_CKPT_BUDGET`. -/
def ckptBudget : Nat := 128 * 1024

/-- `sizeof(struct trie_ckpt)`. -/
def ckptSize : Nat := 40

/-- `struct trie_ckpt`. -/
structure Ckpt where
  emitIdx : Nat
  gen     : Nat
  stack   : List (Nat × Bool)
deriving Repr

/-- `struct trie_iter`. The stack has its top first, each reference with its
`leaf_emitted` flag; `vslots` is the revisit table, a reference and its visits in
each slot; `ckpts` has the oldest checkpoint first. -/
structure Iter where
  stack      : List (Nat × Bool)
  pending    : Option Entry
  gen        : Nat
  emitIdx    : Nat
  visited    : Nat
  visitCap   : Nat
  vslots     : Nat → Nat × Nat
  ckpts      : List Ckpt
  ckptStride : Nat
  ckptBytes  : Nat

namespace Iter

/-- `trie_iter_visit_reset`: the dropped table counts as one without visits. -/
def visitReset (it : Iter) : Iter :=
  { it with vslots := fun _ => (0, 0) }

/-- `briefs_trie_iter_init`. -/
def init (it : Iter) (root gen : Nat) : Iter :=
  { it with
    stack    := if root = 0 then [] else [(root, false)]
    pending  := none
    gen      := gen
    emitIdx  := 0
    visited  := 0
    visitCap := 0
    vslots   := fun _ => (0, 0) }

/-- `briefs_trie_iter_alloc`. -/
def alloc : Iter where
  stack      := []
  pending    := none
  gen        := 0
  emitIdx    := 0
  visited    := 0
  visitCap   := 0
  vslots     := fun _ => (0, 0)
  ckpts      := []
  ckptStride := ckptStrideInit
  ckptBytes  := 0

/-- `trie_iter_push`: growing past `TRIE_ITER_MAX_SP` entries fails. -/
def push (it : Iter) (ref : Nat) (emitted : Bool) : Iter × Option IterError :=
  if iterMaxSp < it.stack.length + 1 then (it, some .eio)
  else ({ it with stack := (ref, emitted) :: it.stack }, none)

/-- The slot of the revisit table for a reference. -/
def visitSlot (ref : Nat) : Nat :=
  (ref * 0x9E3779B97F4A7C15) % 2 ^ 64 / 2 ^ (64 - visitBits)

/-- `trie_iter_note_visit`. -/
def noteVisit (it : Iter) (ref : Nat) : Iter × Option IterError :=
  let it := { it with visited := it.visited + 1 }
  if it.visited ≤ visitEngage then (it, none)
  else
    let slot := it.vslots (visitSlot ref)
    if slot.2 ≠ 0 ∧ slot.1 = ref then
      let it := { it with
        vslots := fun i => if i = visitSlot ref then (ref, slot.2 + 1) else it.vslots i }
      if refMaxVisits < slot.2 + 1 then (it, some .eio) else (it, none)
    else
      ({ it with vslots := fun i => if i = visitSlot ref then (ref, 1) else it.vslots i }, none)

/-- The loop of `briefs_trie_iter_next` that pushes the children of a node. -/
def pushChildren (s : Store) : Nat → Iter → Nat → Iter × Option IterError
  | 0, it, _ => (it, some .eio)
  | fuel + 1, it, child =>
    if child = 0 then (it, none)
    else match it.push child false with
      | (it, some err) => (it, some err)
      | (it, none) => match s child with
        | none => (it, none)
        | some cn => match it.noteVisit child with
          | (it, some err) => (it, some err)
          | (it, none) =>
            if it.visitCap < it.visited then (it, some .eio)
            else pushChildren s fuel it cn.nextSibling

/-- The main loop of `briefs_trie_iter_next`. -/
def nextLoop (s : Store) : Nat → Iter → Iter × Except IterError Entry
  | 0, it => (it, .error .eio)
  | fuel + 1, it => match it.stack with
    | [] => (it, .error .enoent)
    | (ref, emitted) :: rest =>
      if it.visitCap < it.visited then (it, .error .eio)
      else
        let it := { it with stack := rest }
        match s ref with
        | none => nextLoop s fuel it
        | some node => match it.noteVisit ref with
          | (it, some err) => (it, .error err)
          | (it, none) =>
            if !emitted && node.emits then
              -- a leaf with children is pushed again, to descend later
              if node.firstChild = 0 then (it, .ok node.entry)
              else match it.push ref true with
                | (it, some err) => (it, .error err)
                | (it, none) => (it, .ok node.entry)
            else match pushChildren s (it.visitCap + 2) it node.firstChild with
              | (it, some err) => (it, .error err)
              | (it, none) => nextLoop s fuel it

/-- The cap on visits, set on the first call. -/
def withCap (it : Iter) (blockCount : Nat) : Iter :=
  if it.visitCap = 0 then { it with visitCap := blockCount * slotsPerBlock + 1024 } else it

/-- `briefs_trie_iter_next`. Every round of the loop visits a node or drops a
reference that cannot be read, so the fuel is never what ends a sound walk. -/
def next (blockCount : Nat) (s : Store) (it : Iter) (currentGen : Nat) :
    Iter × Except IterError Entry :=
  if it.gen ≠ currentGen then (it, .error .estale)
  else
    let it := it.withCap blockCount
    match it.pending with
    | some e => ({ it with pending := none }, .ok e)
    | none => nextLoop s (it.visitCap + it.stack.length + 2) it

--
-- Checkpoints and seeks
--

/-- `briefs_trie_ckpt_clear`. -/
def ckptClear (it : Iter) : Iter :=
  { it with ckpts := [], ckptBytes := 0, ckptStride := ckptStrideInit }

/-- The bytes a checkpoint is charged with. -/
def ckptCost (sp : Nat) : Nat :=
  ckptSize + sp * 9

/-- Every other element, the first included. -/
def everyOther {α : Type} : List α → List α
  | [] => []
  | [a] => [a]
  | a :: _ :: rest => a :: everyOther rest

/-- `trie_ckpt_thin`. -/
def ckptThin (it : Iter) : Iter :=
  if it.ckpts.length < 2 then it
  else
    let kept := everyOther it.ckpts
    { it with
      ckpts      := kept
      ckptBytes  := (kept.map fun c => ckptCost c.stack.length).sum
      ckptStride := it.ckptStride * 2 }

/-- `briefs_trie_ckpt_record`. -/
def ckptRecord (it : Iter) : Iter :=
  if it.pending.isSome then it
  else if it.emitIdx % it.ckptStride ≠ 0 then it
  else if it.ckpts.getLast?.any fun c => it.emitIdx ≤ c.emitIdx then it
  else
    let size := ckptCost it.stack.length
    let full := fun (it : Iter) =>
      decide (ckptMax ≤ it.ckpts.length) || decide (ckptBudget < it.ckptBytes + size)
    let it := if full it then it.ckptThin else it
    if full it then it
    else { it with
      ckpts     := it.ckpts ++ [⟨it.emitIdx, it.gen, it.stack⟩]
      ckptBytes := it.ckptBytes + size }

/-- `trie_ckpt_find`: the last checkpoint at or below the target. -/
def ckptFind (it : Iter) (target : Nat) : Option Ckpt :=
  (it.ckpts.filter fun c => decide (c.emitIdx ≤ target)).getLast?

/-- `trie_ckpt_restore`. -/
def ckptRestore (it : Iter) (cp : Ckpt) : Iter :=
  { it with stack := cp.stack, emitIdx := cp.emitIdx, gen := cp.gen, pending := none }

/-- `trie_iter_skip`. -/
def skip (blockCount : Nat) (s : Store) (currentGen : Nat) : Nat → Iter → Iter
  | 0, it => it
  | steps + 1, it => match it.next blockCount s currentGen with
    | (it, .error _) => it
    | (it, .ok _) =>
      skip blockCount s currentGen steps (ckptRecord { it with emitIdx := it.emitIdx + 1 })

/-- `briefs_trie_iter_seek`. -/
def seek (blockCount : Nat) (s : Store) (root : Nat) (it : Iter) (currentGen target : Nat) : Iter :=
  let it := ({ it with visited := 0 }).visitReset
  if it.gen ≠ currentGen then
    (it.ckptClear.init root currentGen).skip blockCount s currentGen target
  else
    -- a buffered entry is abandoned: the walk is already past it
    let it := if it.pending.isSome then { it with pending := none, emitIdx := it.emitIdx + 1 } else it
    if target = it.emitIdx then it
    else if it.emitIdx < target then it.skip blockCount s currentGen (target - it.emitIdx)
    else match it.ckptFind target with
      | some cp =>
        let it := it.ckptRestore cp
        it.skip blockCount s currentGen (target - it.emitIdx)
      | none => (it.init root currentGen).skip blockCount s currentGen target

end Iter

end Briefs.Trie
