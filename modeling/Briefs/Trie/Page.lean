import Briefs.Replay.World
import Briefs.Trie.Iter

/-!
# BrieFS — trie pages

The pages that hold the nodes of the directory tries (`trie_page.c`): 64 slots and a name
heap that grows from the end of the block toward the slots. Pages are shared: a page of the
partial-page pool serves whichever directory allocates next.

The functions run in `TrieM`, a state that is kept also on errors. Every store into a page
goes through `World.put`, which records what the pages held before: `trace` is the history
of the pages, and `compactions` lists the pages as the compactions of the name heap found
them. The code reads neither. Buffers are never unreadable here; a block that has no trie
page is one whose magic number does not match.
-/

namespace Briefs.Trie

--
-- Pages
--

/-- `struct briefs_trie_node` as it is stored: the name lies in the heap of the page. -/
structure Slot where
  firstChild  : Nat
  nextSibling : Nat
  inode       : Nat
  nameLen     : Nat
  nameOffset  : Nat
  depth       : Nat
  byteVal     : UInt8
  interm      : Bool
  statusLeaf  : Bool
  ftype       : Nat
  childCount  : Nat
deriving DecidableEq, Repr

/-- A slot after `memset`. -/
def Slot.zero : Slot :=
  ⟨0, 0, 0, 0, 0, 0, 0, false, false, 0, 0⟩

/-- `TRIE_IS_LEAF`. -/
def Slot.isLeaf (n : Slot) : Bool :=
  !n.interm || n.statusLeaf

/-- `struct briefs_trie_page` with its slots and its heap; `heap d` is the byte `d` bytes
before the end of the block. -/
structure Page where
  liveCount   : Nat
  freeNameOff : Nat
  free        : Nat → Bool
  slots       : Nat → Slot
  heap        : Nat → UInt8

/-- `BRIEFS_BLOCK_SIZE - trie_page_data_end()`: the room for names. -/
def heapSize : Nat := 4096 - (20 + 64 * 36)

/-- The bytes of a node's name, without the length prefix. -/
def Page.nameBytes (p : Page) (n : Slot) : List UInt8 :=
  (List.range (n.nameLen - 2)).map fun i => p.heap (n.nameOffset - 2 - i)

def Page.setSlot (p : Page) (slot : Nat) (n : Slot) : Page :=
  { p with slots := fun s => if s = slot then n else p.slots s }

/-- Bytes stored from `off` bytes before the end of the block on. -/
def Page.store (p : Page) (off : Nat) (bytes : List UInt8) : Page :=
  { p with heap := fun d =>
      if off < d + bytes.length ∧ d ≤ off then bytes.getD (off - d) 0 else p.heap d }

/-- `TRIE_REF_BLOCK`. -/
def refBlock (ref : Nat) : Nat := ref / 64

/-- `TRIE_REF_SLOT`. -/
def refSlot (ref : Nat) : Nat := ref % 64

/-- `TRIE_MAKE_REF`. -/
def makeRef (block slot : Nat) : Nat := block * 64 + slot % 64

/-- What the blocks hold; `none` for a block that is no trie page. -/
abbrev Pages := Nat → Option Page

def Pages.slot? (ps : Pages) (ref : Nat) : Option Slot :=
  if ref = 0 then none else (ps (refBlock ref)).map fun p => p.slots (refSlot ref)

--
-- The state
--

/-- The pages with the allocator and the partial-page pool: the pages of the list with
their tags, the last one added first, and the hot page, 0 for none. `noScratch` says that
the scratch buffer of a compaction cannot be allocated. -/
structure World where
  pages       : Pages
  alloc       : Alloc
  dataStart   : Nat
  partials    : List (Nat × Nat)
  hotBlock    : Nat
  hotHint     : Nat
  noScratch   : Bool
  trace       : List Pages
  compactions : List (Nat × Page)

/-- The page `block` becomes `p`. -/
def World.put (w : World) (block : Nat) (p : Page) : World :=
  { w with pages := Function.update w.pages block (some p), trace := w.pages :: w.trace }

/-- The error numbers of the trie functions, negated in the source. -/
inductive Errno where
  | enoent
  | eio
  | enospc
  | eexist
  | einval
  | enametoolong
deriving DecidableEq, Repr

/-- A step that may fail; what it did until then stays. -/
def TrieM (α : Type) : Type := World → Except Errno α × World

namespace TrieM

variable {α β : Type}

def ret (a : α) : TrieM α := fun w => (.ok a, w)

def seq (x : TrieM α) (f : α → TrieM β) : TrieM β := fun w =>
  match x w with
  | (.ok a, w) => f a w
  | (.error e, w) => (.error e, w)

instance : Monad TrieM where
  pure := ret
  bind := seq

def fail (e : Errno) : TrieM α := fun w => (.error e, w)

/-- The state is read. -/
def view (f : World → α) : TrieM α := fun w => (.ok (f w), w)

/-- The state changes. -/
def change (f : World → World) : TrieM Unit := fun w => (.ok (), f w)

/-- The error code is left to the caller. -/
def attempt (x : TrieM α) : TrieM (Except Errno α) := fun w =>
  match x w with
  | (r, w) => (.ok r, w)

end TrieM

open TrieM

--
-- Nodes
--

/-- `trie_read_node` and `trie_get_node`. -/
def readSlot (ref : Nat) : TrieM Slot := fun w =>
  match w.pages.slot? ref with
  | some n => (.ok n, w)
  | none => (.error .eio, w)

/-- Stores into the fields of a node. -/
def setSlot (ref : Nat) (f : Slot → Slot) : TrieM Unit := fun w =>
  match w.pages (refBlock ref) with
  | none => (.ok (), w)
  | some p => (.ok (), w.put (refBlock ref) (p.setSlot (refSlot ref) (f (p.slots (refSlot ref)))))

/-- The name of the node is `name`. -/
def nameIs (ref : Nat) (name : List UInt8) : TrieM Bool :=
  view fun w => match w.pages (refBlock ref) with
    | none => false
    | some p => p.nameBytes (p.slots (refSlot ref)) == name

--
-- The name heap
--

/-- A live slot that stores a name. -/
def Page.named (p : Page) (slot : Nat) : Bool :=
  !p.free slot && decide ((p.slots slot).nameOffset ≠ 0) && decide ((p.slots slot).nameLen ≠ 0)

/-- The bytes of all names of live slots below `slot`: what pass 1 has copied before it. -/
def Page.packed (p : Page) (slot : Nat) : Nat :=
  ((List.range slot).map fun s => if p.named s then (p.slots s).nameLen else 0).sum

/-- The checks of pass 1. -/
def Page.sane (p : Page) : Bool :=
  (List.range 64).all fun s => !p.named s ||
    (decide ((p.slots s).nameOffset ≤ p.freeNameOff) &&
      decide ((p.slots s).nameLen ≤ (p.slots s).nameOffset) &&
      decide (p.packed s + (p.slots s).nameLen ≤ p.freeNameOff))

/-- The bytes of a slot's name, with the prefix, as pass 1 copies them. -/
def Page.nameRegion (p : Page) (slot : Nat) : List UInt8 :=
  (List.range (p.slots slot).nameLen).map fun i => p.heap ((p.slots slot).nameOffset - i)

/-- Pass 2 for one slot: `old` is the page as pass 1 saw it. The offset is stored first,
then the name. -/
def packSlot (block : Nat) (old : Page) (slot : Nat) (w : World) : World :=
  if old.named slot then
    match w.pages block with
    | none => w
    | some p =>
      let newOff := old.packed (slot + 1)
      let p := p.setSlot slot { p.slots slot with nameOffset := newOff }
      (w.put block p).put block (p.store newOff (old.nameRegion slot))
  else w

/-- Pass 2 of `trie_page_compact_names`, and the new end of the heap. -/
def packNames (block : Nat) (old : Page) (w : World) : World :=
  let w := (List.range 64).foldl (fun w slot => packSlot block old slot w) w
  match w.pages block with
  | none => w
  | some p => w.put block { p with freeNameOff := old.packed 64 }

/-- `trie_page_compact_names`. -/
def compactNames (block : Nat) : TrieM Unit :=
  change fun w => match w.pages block with
    | none => w
    | some p =>
      if p.freeNameOff = 0 ∨ w.noScratch = true ∨ p.sane = false then w
      else packNames block p { w with compactions := (block, p) :: w.compactions }

/-- The heap has no room for `size` bytes. -/
def heapFull (block size : Nat) : TrieM Bool :=
  view fun w => match w.pages block with
    | none => true
    | some p => decide (heapSize < p.freeNameOff + size)

/-- The end of the heap moves, and the slot gets what is new. -/
def growName (ref nameLen : Nat) : TrieM Unit := fun w =>
  match w.pages (refBlock ref) with
  | none => (.ok (), w)
  | some p =>
    let off := p.freeNameOff + (nameLen + 2)
    let n := p.slots (refSlot ref)
    (.ok (), w.put (refBlock ref) ({ p with freeNameOff := off }.setSlot (refSlot ref)
      { n with nameOffset := off, nameLen := nameLen + 2 }))

/-- `trie_page_alloc_name`. -/
def allocName (ref nameLen : Nat) : TrieM Unit := do
  if nameLen = 0 then ret ()
  else if Trie.nameLen < nameLen then fail .enametoolong
  else do
    let n ← readSlot ref
    if 0 < n.nameOffset ∧ nameLen + 2 ≤ n.nameLen then ret ()
    else do
      let full ← heapFull (refBlock ref) (nameLen + 2)
      if full then do
        compactNames (refBlock ref)
        let full ← heapFull (refBlock ref) (nameLen + 2)
        if full then fail .enospc else growName ref nameLen
      else growName ref nameLen

/-- The name with its length prefix, as it is stored. -/
def nameRecord (name : List UInt8) : List UInt8 :=
  UInt8.ofNat (name.length % 256) :: UInt8.ofNat (name.length / 256) :: name

/-- The bytes of the name go into the heap of the page. -/
def writeName (ref : Nat) (name : List UInt8) : TrieM Unit := fun w =>
  match w.pages (refBlock ref) with
  | none => (.ok (), w)
  | some p =>
    let n := p.slots (refSlot ref)
    (.ok (), (w.put (refBlock ref) (p.store n.nameOffset (nameRecord name))).put (refBlock ref)
      ((p.store n.nameOffset (nameRecord name)).setSlot (refSlot ref)
        { n with nameLen := name.length + 2 }))

/-- `briefs_trie_node_store_name`. -/
def storeName (ref : Nat) (name : List UInt8) : TrieM Unit := do
  if Trie.nameLen < name.length then fail .enametoolong
  else do
    let _ ← readSlot ref
    allocName ref name.length
    if name.length = 0 then setSlot ref fun n => { n with nameLen := 0, nameOffset := 0 }
    else writeName ref name

--
-- Slots
--

/-- `trie_page_alloc_slot`: the first free slot. -/
def Page.freeSlot (p : Page) : Option Nat :=
  (List.range 64).find? fun s => p.free s

/-- The slot is taken and cleared; a name of `size` bytes is reserved for it. -/
def Page.takeSlot (p : Page) (slot size : Nat) : Page :=
  let p := { p with
    liveCount := p.liveCount + 1
    free := fun s => if s = slot then false else p.free s }
  if size = 0 then p.setSlot slot Slot.zero
  else { p with freeNameOff := p.freeNameOff + size }.setSlot slot
    { Slot.zero with nameLen := size, nameOffset := p.freeNameOff + size }

/-- No further node fits. -/
def Page.isFull (p : Page) : Bool :=
  (p.freeSlot).isNone || decide (heapSize ≤ p.freeNameOff)

/-- `trie_alloc_from_block`: the new node, and whether the page became full. -/
def allocFromBlock (block size : Nat) : TrieM (Option (Nat × Bool)) := fun w =>
  match w.pages block with
  | none => (.ok none, w)
  | some p =>
    if heapSize < p.freeNameOff + size ∧ size ≠ 0 then (.ok none, w)
    else match p.freeSlot with
      | none => (.ok none, w)
      | some slot =>
        let p := p.takeSlot slot size
        (.ok (some (makeRef block slot, p.isFull)), w.put block p)

/-- A page with one node in slot 0. -/
def Page.fresh (depth : Nat) (byteVal : UInt8) (interm : Bool) : Page where
  liveCount   := 1
  freeNameOff := 0
  free        := fun s => s ≠ 0
  slots       := fun s => if s = 0 then
    { Slot.zero with depth := depth, byteVal := byteVal, interm := interm } else Slot.zero
  heap        := fun _ => 0

/-- `briefs_trie_page_init` outside of replay. -/
def pageInit (depth : Nat) (byteVal : UInt8) (interm : Bool) : TrieM Nat := fun w =>
  match Replay.allocTrieBlock w.alloc with
  | (rel, a) =>
    let w := { w with alloc := a }
    if rel = 0 then (.error .enospc, w)
    else
      let block := w.dataStart + rel
      (.ok (makeRef block 0), w.put block (Page.fresh depth byteVal interm))

/-- `__trie_page_add_partial_locked`. -/
def World.listPage (w : World) (block hint : Nat) : World :=
  if w.partials.any fun e => e.1 == block then w
  else { w with partials := (block, hint) :: w.partials }

/-- `briefs_trie_page_add_partial`. -/
def addPartial (block hint : Nat) : TrieM Unit :=
  change fun w =>
    let w := w.listPage block hint
    if w.hotBlock = 0 then { w with hotBlock := block, hotHint := hint } else w

def World.setHot (w : World) (block hint : Nat) : World :=
  { w with hotBlock := block, hotHint := hint }

/-- One pass over the entries of the pool; `mine` selects those that are tried. -/
def scanPool (size : Nat) (mine : Nat → Bool) : List (Nat × Nat) → TrieM (Option Nat)
  | [] => ret none
  | (block, hint) :: rest => do
    let got ← if mine hint then allocFromBlock block size else ret none
    match got with
    | none => scanPool size mine rest
    | some (ref, full) => do
      if full then change fun w => { w with partials := w.partials.filter fun e => e.1 != block }
      else change fun w => w.setHot block hint
      ret (some ref)

/-- The fast path of `briefs_trie_alloc_node`: the hot page. -/
def allocHot (size hint : Nat) : TrieM (Option Nat) := do
  let (block, tag) ← view fun w => (w.hotBlock, w.hotHint)
  if block ≠ 0 ∧ (hint = 0 ∨ tag = hint) then do
    let got ← allocFromBlock block size
    match got with
    | some (ref, full) => do
      if full then change fun w => w.setHot 0 0 else ret ()
      ret (some ref)
    | none => do
      change fun w => w.setHot 0 0
      ret none
  else ret none

/-- The last resort of `briefs_trie_alloc_node`: a page of its own for the node. -/
def allocPage (size hint : Nat) : TrieM (Option Nat) := do
  let got ← attempt (pageInit 0 0 false)
  match got with
  | .error _ => ret none
  | .ok ref => do
    if size = 0 then ret () else growName ref (size - 2)
    addPartial (refBlock ref) hint
    change fun w => w.setHot (refBlock ref) hint
    ret (some ref)

/-- `briefs_trie_alloc_node` outside of replay; a scan goes through 64 entries at most. -/
def allocNode (nameLen hint : Nat) : TrieM (Option Nat) := do
  let size := if nameLen = 0 then 0 else nameLen + 2
  let hot ← allocHot size hint
  match hot with
  | some ref => ret (some ref)
  | none => do
    let pool ← view fun w => w.partials.take 64
    let own ← scanPool size (fun tag => hint == 0 || tag == hint) pool
    match own with
    | some ref => ret (some ref)
    | none => do
      let pool ← view fun w => w.partials.take 64
      let any ← scanPool size (fun _ => true) pool
      match any with
      | some ref => ret (some ref)
      | none => allocPage size hint

/-- The slot is cleared and free. -/
def Page.dropSlot (p : Page) (slot : Nat) : Page :=
  { p with
    liveCount := p.liveCount - 1
    free := fun s => if s = slot then true else p.free s }.setSlot slot Slot.zero

/-- `briefs_trie_free_node`. -/
def freeNode (ref : Nat) : TrieM Unit := fun w =>
  match w.pages (refBlock ref) with
  | none => (.ok (), w)
  | some p =>
    if ref = 0 then (.ok (), w)
    else
      let q := if p.free (refSlot ref) then p else p.dropSlot (refSlot ref)
      let w := if p.free (refSlot ref) then w else w.put (refBlock ref) q
      if q.liveCount = 0 then
        (.ok (), { w with
          partials := w.partials.filter fun e => e.1 != refBlock ref
          hotBlock := if w.hotBlock = refBlock ref then 0 else w.hotBlock
          hotHint := if w.hotBlock = refBlock ref then 0 else w.hotHint
          alloc := w.alloc.freeBlock (refBlock ref - w.dataStart) })
      else if q.freeSlot.isSome then (.ok (), w.listPage (refBlock ref) 0)
      else (.ok (), w)

end Briefs.Trie
