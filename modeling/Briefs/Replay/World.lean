import Briefs.Alloc
import Briefs.Journal.Format

/-!
# BrieFS — the file system as replay sees it

`apply_record` and the handlers it calls, on the state they work on: the two
allocators, the inode table and the inode cache, the replay pool of trie blocks
with its excluded set, the pinned roots and the xattr maps.

Directory re-derivation runs the trie code. Seen from here it asks for trie
pages (`briefs_trie_page_init`), gives blocks back and ends with a return code
and a new `dir_trie_root`. It is a program of type `Derive`, and the trie and
everything else that lives in data blocks is a parameter `σ` with the functions
of `FsOps`: what is proved holds whatever the trie code does with the answers.
-/

namespace Briefs.Replay

open Briefs.Journal

--
-- Records
--

/-- `struct briefs_disk_inode`, without its padding. -/
structure DiskInode where
  inodeNumber : Nat
  magic       : Nat
  filemode    : Nat
  uid         : Nat
  gid         : Nat
  filesize    : Nat
  ctimeSec    : Nat
  ctimeNsec   : Nat
  atimeSec    : Nat
  atimeNsec   : Nat
  mtimeSec    : Nat
  mtimeNsec   : Nat
  creationTimeSec  : Nat
  creationTimeNsec : Nat
  nlinks      : Nat
  numExtentsInline : Nat
  extentInlineBase : Nat
  numExtentsTotal  : Nat
  inlineData  : List UInt8
  xattrOffset : Nat
  xattrSize   : Nat
  parentInode : Nat
  flags       : Nat
  dirTrieRoot : Nat
  rdev        : Nat
  generation  : Nat
  userFlags   : Nat
deriving DecidableEq, Repr

/-- A zeroed inode slot. -/
def DiskInode.zero : DiskInode :=
  { inodeNumber := 0, magic := 0, filemode := 0, uid := 0, gid := 0, filesize := 0
    ctimeSec := 0, ctimeNsec := 0, atimeSec := 0, atimeNsec := 0, mtimeSec := 0, mtimeNsec := 0
    creationTimeSec := 0, creationTimeNsec := 0, nlinks := 0, numExtentsInline := 0
    extentInlineBase := 0, numExtentsTotal := 0, inlineData := [], xattrOffset := 0
    xattrSize := 0, parentInode := 0, flags := 0, dirTrieRoot := 0, rdev := 0
    generation := 0, userFlags := 0 }

/-- `_BRIEFS_INODE_MAGIC`, "INOD". -/
def inodeMagic : Nat := 0x494E4F44

/-- `struct jrn_dir_update`; `op` 0 adds the name, any other value deletes it. -/
structure DirUpdate where
  parentIno : Nat
  childIno  : Nat
  op        : Nat
  ftype     : Nat
  name      : List UInt8
deriving DecidableEq, Repr

/-- `struct jrn_inode_update`. Records of older journals end before the
generation. -/
structure InodeUpdate where
  ino       : Nat
  mode      : Nat
  nlink     : Nat
  uid       : Nat
  gid       : Nat
  size      : Nat
  atimeSec  : Nat
  atimeNsec : Nat
  mtimeSec  : Nat
  mtimeNsec : Nat
  ctimeSec  : Nat
  ctimeNsec : Nat
  flags     : Nat
  generation : Option Nat
deriving DecidableEq, Repr

/-- `struct jrn_symlink_data`. -/
structure SymlinkData where
  ino    : Nat
  phys   : Nat
  target : List UInt8
deriving DecidableEq, Repr

/-- `struct jrn_xattr_data`. The data begins with the header of the xattr block;
`version` and `nextBlock` are its fields when `used_size` covers it. -/
structure XattrData where
  ino       : Nat
  physBlock : Nat
  usedSize  : Nat
  version   : Nat
  nextBlock : Nat
  data      : List UInt8
deriving DecidableEq, Repr

/-- The records that reach `apply_record`, with the fields it reads. -/
inductive JRec where
  | extentAlloc (physStart length : Nat)
  | extentFree (physStart length : Nat)
  | inodeUpdate (rec : InodeUpdate)
  | inodeAlloc (ino : Nat)
  | inodeFree (ino : Nat)
  | trieAlloc (block op : Nat)
  | dirUpdate (rec : DirUpdate)
  | inodeFull (ino : Nat) (inodeData : DiskInode)
  | symlinkData (rec : SymlinkData)
  | xattrData (rec : XattrData)
deriving DecidableEq, Repr

--
-- Re-derivation
--

/-- A run of trie code as replay sees it. `pageInit` is a call of
`briefs_trie_page_init`, answered by the data-relative block it initialised or
by `none` when there is no space; `freeBlocks` gives blocks back. -/
inductive Derive (α : Type) where
  | done (a : α)
  | pageInit (k : Option Nat → Derive α)
  | freeBlocks (rel n : Nat) (k : Derive α)

/-- A VFS inode in the inode cache: its copy of the disk inode and the link
count it was loaded with. -/
structure CachedInode where
  diskInode : DiskInode
  nlink     : Nat
  mode      : Nat
  trieSeeded : Bool

/-- The parts of the file system that replay calls and that live in data
blocks. `trieUpdate` is the trie work of `replay_dir_update` (seeding the
partial-page pool, then `briefs_trie_insert` or `briefs_trie_remove` and the
release of the nodes it cut off); it answers with the return code and the new
`dir_trie_root`. `phantom` is the inode that a failed `briefs_iget` leaves in
the cache, and `reclaimed` says that the VFS has dropped a cached inode since. -/
structure FsOps (σ : Type) where
  dataStart      : Nat
  inodeInRange   : Nat → Bool
  trieUpdate     : σ → (Nat → Nat) → CachedInode → DirUpdate →
    Derive (Option Errno × Nat × σ)
  freeInodeData  : σ → CachedInode → Derive σ
  restoreSymlink : σ → CachedInode → SymlinkData → Option Errno × σ
  restoreXattr   : σ → XattrData → Option Errno × σ
  readNode       : σ → Nat → Option (Nat × Nat)
  dirEntries     : σ → Nat → Option (List (Nat × Nat))
  phantom        : σ → Nat → CachedInode
  reclaimed      : σ → Nat → Bool

/-- What re-derivation did to the data blocks, kept as a history: blocks taken
from the replay pool, blocks taken from the allocator, runs given back. -/
inductive Taken where
  | popped (rel : Nat)
  | allocated (rel : Nat)
  | freed (rel n : Nat)
deriving DecidableEq, Repr

/-- The state of replay. `pool` is `replay_trie_blocks`, newest first;
`xattrFinal`, `xattrNext` and `pins` are the hash tables with the newest entry
for a key first. -/
structure World (σ : Type) where
  alloc      : Alloc
  inodeAlloc : Alloc
  slots      : Nat → DiskInode
  icache     : Nat → Option CachedInode
  pool       : List Nat
  roots      : List Nat
  excluded   : List Nat
  pins       : List (Nat × Nat)
  xattrFinal : List (Nat × Nat)
  xattrNext  : List (Nat × Nat)
  xattrLive  : List Nat
  data       : σ
  history    : List Taken

variable {σ : Type}

/-- `abs_to_data`, in machine words. -/
def absToData (dataStart abs : Nat) : Nat := (abs + 2 ^ 64 - dataStart) % 2 ^ 64

/-- `data_to_abs`. -/
def dataToAbs (dataStart rel : Nat) : Nat := (dataStart + rel) % 2 ^ 64

/-- `TRIE_REF_BLOCK`. -/
def trieRefBlock (ref : Nat) : Nat := ref / 64

/-- A lookup in one of the hash tables; 0 when the key is missing. -/
def tableGet (t : List (Nat × Nat)) (key : Nat) : Nat :=
  match t.find? fun e => e.1 == key with
  | some e => e.2
  | none => 0

/-- `briefs_journal_replay_pop_trie_block` on the pool: excluded blocks are
consumed and skipped. -/
def popPool (dataStart : Nat) (excluded : List Nat) : List Nat → Option Nat × List Nat
  | [] => (none, [])
  | rel :: rest =>
    if dataToAbs dataStart rel ∈ excluded then popPool dataStart excluded rest
    else (some rel, rest)

/-- The allocator calls of `briefs_trie_page_init`: from the top of the data
region, else from anywhere. -/
def allocTrieBlock (a : Alloc) : Nat × Alloc :=
  if a.allocBlockHigh.1 = 0 then a.allocBlockHigh.2.allocBlock else a.allocBlockHigh

/-- The block that `briefs_trie_page_init` takes: from the replay pool, else
from the allocator. Block 0 means no space. -/
def takeTrieBlock (ops : FsOps σ) (w : World σ) : Option Nat × World σ :=
  match popPool ops.dataStart w.excluded w.pool with
  | (some rel, rest) =>
    (if rel = 0 then none else some rel,
      { w with pool := rest, history := w.history ++ [.popped rel] })
  | (none, rest) =>
    let (rel, a) := allocTrieBlock w.alloc
    if rel = 0 then (none, { w with pool := rest, alloc := a })
    else (some rel,
      { w with pool := rest, alloc := a, history := w.history ++ [.allocated rel] })

/-- Runs a `Derive` program. -/
def Derive.run {α : Type} (ops : FsOps σ) : Derive α → World σ → α × World σ
  | .done a, w => (a, w)
  | .pageInit k, w =>
    let (block, w) := takeTrieBlock ops w
    (k block).run ops w
  | .freeBlocks rel n k, w =>
    k.run ops
      { w with alloc := w.alloc.freeBlocks rel n, history := w.history ++ [.freed rel n] }

--
-- Inodes
--

/-- `briefs_read_inode_block`: it looks at the inode number only, not at the
slot. -/
def readInodeBlock (ops : FsOps σ) (w : World σ) (ino : Nat) : Except Errno DiskInode :=
  if ino = 0 then .error .einval
  else if ops.inodeInRange ino then .ok (w.slots ino)
  else .error .eio

def World.setSlot (w : World σ) (ino : Nat) (di : DiskInode) : World σ :=
  { w with slots := Function.update w.slots ino di }

def World.cache (w : World σ) (ino : Nat) (c : Option CachedInode) : World σ :=
  { w with icache := Function.update w.icache ino c }

/-- `briefs_persist_disk_inode`. -/
def persistDiskInode (ops : FsOps σ) (w : World σ) (ino : Nat) (di : DiskInode) :
    Option Errno × World σ :=
  match readInodeBlock ops w ino with
  | .error e => (some e, w)
  | .ok _ => (none, w.setSlot ino di)

/-- The inode that `briefs_read_and_fill_inode` builds from a slot. -/
def fillInode (di : DiskInode) : CachedInode :=
  { diskInode := di, nlink := di.nlinks, mode := di.filemode, trieSeeded := false }

/-- `briefs_iget`. A slot without the magic leaves a half-built inode in the
cache, which the next call finds. -/
def iget (ops : FsOps σ) (w : World σ) (ino : Nat) : Except Errno CachedInode × World σ :=
  match w.icache ino, ops.reclaimed w.data ino with
  | some c, false => (.ok c, w)
  | _, _ =>
    match readInodeBlock ops w ino with
    | .error _ => (.error .eio, w.cache ino (some (ops.phantom w.data ino)))
    | .ok di =>
      if di.magic = inodeMagic then (.ok (fillInode di), w.cache ino (some (fillInode di)))
      else (.error .einval, w.cache ino (some (ops.phantom w.data ino)))

/-- `iput` of the only reference to `c`. The inode stays in the cache unless its
link count is 0: then `briefs_evict_inode` frees its data and
`briefs_free_inode_num` zeroes its slot and frees its number. -/
def iput (ops : FsOps σ) (w : World σ) (ino : Nat) (c : CachedInode) : World σ :=
  if c.nlink = 0 then
    let (data, w) := (ops.freeInodeData w.data c).run ops w
    let w := (persistDiskInode ops { w with data := data } ino DiskInode.zero).2
    let w := if ino = 0 then w else { w with inodeAlloc := w.inodeAlloc.freeBlock (ino - 1) }
    w.cache ino none
  else w.cache ino (some c)

--
-- Handlers
--

/-- `replay_dir_update`. -/
def replayDirUpdate (ops : FsOps σ) (rec : DirUpdate) (w : World σ) : Option Errno × World σ :=
  match iget ops w rec.parentIno with
  | (.error .einval, w) => (none, w)
  | (.error e, w) => (some e, w)
  | (.ok c, w) =>
    let ((ret, root, data), w) := (ops.trieUpdate w.data (tableGet w.pins) c rec).run ops w
    let w := { w with data := data }
    let c := { c with diskInode := { c.diskInode with dirTrieRoot := root }, trieSeeded := true }
    let ret := match rec.op, ret with
      | 0, some .eexist => none
      | 0, ret => ret
      | _, some .enoent => none
      | _, ret => ret
    match ret with
    | some e => (some e, iput ops w rec.parentIno c)
    | none =>
      let (pret, w) := persistDiskInode ops w rec.parentIno c.diskInode
      (pret, iput ops w rec.parentIno c)

/-- The fields that `replay_inode_update` writes. -/
def InodeUpdate.applyTo (rec : InodeUpdate) (di : DiskInode) : DiskInode :=
  { di with
    inodeNumber := rec.ino
    magic := inodeMagic
    filemode := rec.mode
    nlinks := rec.nlink
    uid := rec.uid
    gid := rec.gid
    filesize := rec.size
    atimeSec := rec.atimeSec
    atimeNsec := rec.atimeNsec
    mtimeSec := rec.mtimeSec
    mtimeNsec := rec.mtimeNsec
    ctimeSec := rec.ctimeSec
    ctimeNsec := rec.ctimeNsec
    flags := rec.flags }

/-- `replay_inode_update`. -/
def replayInodeUpdate (ops : FsOps σ) (rec : InodeUpdate) (w : World σ) :
    Option Errno × World σ :=
  match readInodeBlock ops w rec.ino with
  | .error .einval => (none, w)
  | .error e => (some e, w)
  | .ok di =>
    if rec.generation.isSome ∧ rec.generation ≠ some di.generation then (none, w)
    else (none, w.setSlot rec.ino (rec.applyTo di))

/-- `replay_inode_full`. -/
def replayInodeFull (ops : FsOps σ) (ino : Nat) (snap : DiskInode) (w : World σ) :
    Option Errno × World σ :=
  match readInodeBlock ops w ino with
  | .error .einval => (none, w)
  | .error e => (some e, w)
  | .ok di =>
    if snap.generation ≠ di.generation then (none, w) else (none, w.setSlot ino snap)

/-- The blocks of an extent, data-relative. -/
def extentBlocks (dataStart physStart length : Nat) : List Nat :=
  (List.range length).map fun b => absToData dataStart ((physStart + b) % 2 ^ 64)

/-- `replay_extent_alloc`. -/
def replayExtentAlloc (ops : FsOps σ) (physStart length : Nat) (w : World σ) : World σ :=
  { w with alloc :=
      (extentBlocks ops.dataStart physStart length).foldl Alloc.reserveBlock w.alloc }

/-- `replay_extent_free`. -/
def replayExtentFree (ops : FsOps σ) (physStart length : Nat) (w : World σ) : World σ :=
  { w with alloc := w.alloc.freeBlocks (absToData ops.dataStart physStart) length }

/-- `replay_trie_alloc`; `collect` is set in pass 1. -/
def replayTrieAlloc (ops : FsOps σ) (block op : Nat) (collect : Bool) (w : World σ) : World σ :=
  let rel := absToData ops.dataStart block
  if op = 0 then
    let w := { w with alloc := w.alloc.reserveBlock rel }
    if collect then { w with pool := rel :: w.pool } else w
  else { w with alloc := w.alloc.freeBlocks rel 1 }

/-- `S_ISLNK`. -/
def isLnk (mode : Nat) : Bool := mode / 4096 % 16 == 10

/-- `replay_symlink_data`. -/
def replaySymlinkData (ops : FsOps σ) (rec : SymlinkData) (w : World σ) :
    Option Errno × World σ :=
  if rec.target.length = 0 ∨ 4096 < rec.target.length then (none, w)
  else
    match iget ops w rec.ino with
    | (.error _, w) => (none, w)
    | (.ok c, w) =>
      if isLnk c.mode then
        let (ret, data) := ops.restoreSymlink w.data c rec
        (ret, iput ops { w with data := data } rec.ino c)
      else (none, iput ops w rec.ino c)

/-- `sizeof(struct briefs_xattr_header)`. -/
def xattrHeaderSize : Nat := 32

/-- `BRIEFS_XATTR_MAX_USED`. -/
def xattrMaxUsed : Nat := 4044

/-- `BRIEFS_XATTR_MAX_CHAIN`. -/
def xattrMaxChain : Nat := 1024

/-- `xattr_rec_next_block`. -/
def xattrRecNextBlock (rec : XattrData) : Nat :=
  if rec.usedSize < xattrHeaderSize then 0
  else if rec.version = 1 then 0
  else rec.nextBlock

/-- `replay_xattr_data`. -/
def replayXattrData (ops : FsOps σ) (rec : XattrData) (w : World σ) : Option Errno × World σ :=
  if rec.usedSize = 0 ∨ xattrMaxUsed < rec.usedSize then (none, w)
  else if rec.physBlock ∈ w.xattrLive then
    let (ret, data) := ops.restoreXattr w.data rec
    (ret, { w with data := data })
  else (none, w)

/-- `apply_record`. -/
def applyRecord (ops : FsOps σ) (reserveOnly : Bool) (rec : JRec) (w : World σ) :
    Option Errno × World σ :=
  match rec with
  | .dirUpdate d => if reserveOnly then (none, w) else replayDirUpdate ops d w
  | .inodeAlloc ino =>
    (none, if 0 < ino then { w with inodeAlloc := w.inodeAlloc.reserveBlock (ino - 1) } else w)
  | .inodeFree ino =>
    (none, if 0 < ino then { w with inodeAlloc := w.inodeAlloc.freeBlock (ino - 1) } else w)
  | .inodeUpdate u => if reserveOnly then (none, w) else replayInodeUpdate ops u w
  | .extentAlloc phys len => (none, replayExtentAlloc ops phys len w)
  | .extentFree phys len => (none, replayExtentFree ops phys len w)
  | .trieAlloc block op => (none, replayTrieAlloc ops block op reserveOnly w)
  | .inodeFull ino snap =>
    if reserveOnly then
      (none, { w with
        xattrFinal := (ino, snap.xattrOffset) :: w.xattrFinal
        roots := if snap.dirTrieRoot = 0 ∨ snap.dirTrieRoot ∈ w.roots then w.roots
          else w.roots ++ [snap.dirTrieRoot]
        pins := (ino, snap.dirTrieRoot) :: w.pins })
    else replayInodeFull ops ino snap w
  | .symlinkData s => if reserveOnly then (none, w) else replaySymlinkData ops s w
  | .xattrData x =>
    if reserveOnly then
      if x.physBlock = 0 then (none, w)
      else
        (none, { w with
          alloc := w.alloc.reserveBlock (absToData ops.dataStart x.physBlock)
          xattrNext := (x.physBlock, xattrRecNextBlock x) :: w.xattrNext })
    else replayXattrData ops x w

end Briefs.Replay
