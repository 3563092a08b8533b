import Briefs.File.Same
import Briefs.File.Setattr
import Briefs.File.Zero

/-!
# BrieFS — the bytes of an exchange

`briefs_exch_contents` (`file.c`), the locked body of a range exchange, without `TO_EOF` and
`FILE1_WRITTEN`. It checks the ranges, writes them back, promotes inline data, drops the cached
pages of the ranges and lets `briefs_exch_engine_same` or `briefs_exch_engine_diff` exchange the
blocks.

The checks accept a length that is no multiple of the block size if both ranges end at the end of
their file. The engines get the length in blocks, rounded down, so the bytes of the last partial
block stay where they are; and its page, if there is one, is cleared and not dropped.

A byte is read from the page cache, and from the block that a lookup finds if its page is not
cached. What write-back does is given by `ExchEnv.writeback`.

## Results

* `exchContents_after` — every byte after a call that returns 0.
* `exchange_swaps_iff` — exactly the requested bytes are exchanged if and only if those that do
  not move read alike.
-/

namespace Briefs.File

open Briefs.Journal
open Briefs.Btree

--
-- The code
--

/-- The error numbers of the call; `code` are those of the functions below it. -/
inductive ExchError where
  | code (e : Errno)
  | eperm
  | etxtbsy
  | ebusy
  | efbig
deriving DecidableEq, Repr

/-- A file of the call: the inode, its bytes if they are inline, and the cached pages. -/
structure Side where
  inode : Inode
  inner : Nat → BitVec 8
  cache : Nat → Option (Nat → BitVec 8)

/-- The device and the files; there is no second one when both are the same inode. -/
structure Files where
  disk   : Disk
  first  : Side
  second : Option Side

/-- The first file, or the second one. -/
def Files.side (s : Files) (second : Bool) : Side :=
  if second = true then s.second.getD s.first else s.first

/-- `struct briefs_exch`, with offsets and length in bytes. -/
structure ExchReq where
  o1     : Nat
  o2     : Nat
  length : Nat
  dryRun : Bool

/-- What a call meets. A flag that a function takes says which file it is about. -/
structure ExchEnv where
  fresh       : Option ExchError                               -- `briefs_check_freshness`
  immutable   : Bool                                           -- `IS_IMMUTABLE` of one of them
  swapfile    : Bool                                           -- `IS_SWAPFILE` of one of them
  limits      : Bool → Nat → Nat → Except ExchError Nat        -- `generic_write_check_limits`
  writeback   : Bool → Nat → Nat → Files → Option ExchError × Files
                                                               -- `filemap_write_and_wait_range`
  removePrivs : Bool → Option ExchError                        -- `file_remove_privs`
  promote     : Bool → SetattrEnv                              -- the block of inline data
  noMemory    : Bool                                           -- the arrays of the engine
  dsync       : Option ExchError                               -- the flushes of `DSYNC`

/-- The nodes and the allocator are shared by the files. -/
def Side.sharing (g s : Side) : Side :=
  { s with inode := { s.inode with file := File.sharing g.inode.file s.inode.file } }

/-- A byte of a block; holes and unwritten blocks read as zero. -/
def blockByte (disk : Disk) (o : Nat) : Option (Nat × Nat) → BitVec 8
  | none => 0#8
  | some (p, fl) => if fl.testBit 0 = true then 0#8 else disk p o

/-- A byte of a file without the page cache. -/
def stored (disk : Disk) (s : Side) (x : Nat) : BitVec 8 :=
  if s.inode.inlineData = true then s.inner x
  else blockByte disk (x % blockSize) (blockAt s.inode.file (x / blockSize))

def cachedByte (cache : Nat → Option (Nat → BitVec 8)) (x : Nat) : Option (BitVec 8) :=
  (cache (x / blockSize)).map fun page => page (x % blockSize)

/-- A byte of a file as it is read. -/
def Files.byte (s : Files) (second : Bool) (x : Nat) : BitVec 8 :=
  (cachedByte (s.side second).cache x).getD (stored s.disk (s.side second) x)

--
-- Reading
--

section Reading

variable {cache : Nat → Option (Nat → BitVec 8)} {lstart lend x : Nat}

end Reading

--
-- Files in order
--

/-- An inode whose index can be searched. Inline data is short, and then there are no extents. -/
structure Side.Ok (s : Side) : Prop where
  good   : Good s.inode.file
  small  : ∀ e ∈ s.inode.file.content.exts, e.stop ≤ 2 ^ 62
  inline : s.inode.inlineData = true → s.inode.file.indexed = false ∧ s.inode.file.inline = []
  short  : s.inode.inlineData = true → s.inode.size ≤ inlineDataSize
  size   : s.inode.size < 2 ^ 63

/-- The files of a call; two inodes are apart. -/
structure Files.Ok (s : Files) : Prop where
  first  : s.first.Ok
  second : ∀ t, s.second = some t → t.Ok ∧ Pair s.first.inode.file t.inode.file

/-- The byte in the page cache, if there is one, is the stored one. -/
def Files.CleanAt (s : Files) (second : Bool) (x : Nat) : Prop :=
  ∀ v, cachedByte (s.side second).cache x = some v → v = stored s.disk (s.side second) x

/-- What `filemap_write_and_wait_range` does: it may map blocks and move bytes from the page cache
to the device, but no byte reads differently; and if it returns 0, the bytes of the range are on
the device. -/
structure ExchEnv.Fair (env : ExchEnv) : Prop where
  ok     : ∀ which lo last s, s.Ok → (env.writeback which lo last s).2.Ok
  same   : ∀ which lo last s, s.Ok →
    (env.writeback which lo last s).2.second.isSome = s.second.isSome
  size   : ∀ which lo last s, s.Ok → ∀ second,
    ((env.writeback which lo last s).2.side second).inode.size = (s.side second).inode.size
  bytes  : ∀ which lo last s, s.Ok → ∀ second x, x < (s.side second).inode.size →
    (env.writeback which lo last s).2.byte second x = s.byte second x
  clean  : ∀ which lo last s, s.Ok → (env.writeback which lo last s).1 = none →
    ∀ x, lo ≤ x → x ≤ last → x < (s.side which).inode.size →
      (env.writeback which lo last s).2.CleanAt which x
  stays  : ∀ which lo last s, s.Ok → ∀ second x, s.CleanAt second x →
    (env.writeback which lo last s).2.CleanAt second x

--
-- Promotion
--

section Promote

variable {f1 f2 : Btree.File} {disk disk' : Disk} {s s' t : Side}

theorem Pair.symm (h : Pair f1 f2) : Pair f2 f1 where
  good1     := h.good2
  good2     := h.good1
  dataStart := h.dataStart.symm
  alloc     := h.alloc.symm
  nodes     := h.nodes.symm
  once      := (List.perm_append_comm.map _).nodup_iff.mp h.once
  data1     := h.data2
  data2     := h.data1
  trees     := fun b hb hb' => h.trees b hb' hb
  small1    := h.small2
  small2    := h.small1

end Promote

--
-- The checks
--

section Checks

variable {env : ExchEnv} {q : ExchReq} {same : Bool} {size1 size2 : Nat}

end Checks

--
-- The steps of the call
--

section Steps

variable {env : ExchEnv} {q : ExchReq} {s u : Files}

theorem Side.Ok.sharing {g t : Side} (ht : t.Ok) (h : Pair g.inode.file (g.sharing t).inode.file) :
    (g.sharing t).Ok :=
  ⟨h.good2, h.small2, ht.inline, ht.short, ht.size⟩

end Steps

--
-- The call
--

/-- Where the range of a file starts. -/
def ExchReq.off (q : ExchReq) (second : Bool) : Nat := if second = true then q.o2 else q.o1

/-- The byte lies in the range of the file. -/
def ExchReq.Within (q : ExchReq) (second : Bool) (x : Nat) : Prop :=
  q.off second ≤ x ∧ x < q.off second + q.length

/-- The files when both ranges have been written back. -/
def flushed (env : ExchEnv) (q : ExchReq) (s : Files) : Files :=
  (env.writeback true q.o2 (q.o2 + q.length - 1)
    (env.writeback false q.o1 (q.o1 + q.length - 1) s).2).2

/-- Byte `j` of the ranges is not moved. -/
def ExchReq.Left (q : ExchReq) (j : Nat) : Prop :=
  q.dryRun = true ∨ q.length / blockSize * blockSize ≤ j

instance (q : ExchReq) (j : Nat) : Decidable (q.Left j) := inferInstanceAs (Decidable (_ ∨ _))

section Call

variable {env : ExchEnv} {q : ExchReq} {s s' t : Files}

/-- The ranges are good for the engines. -/
structure ExchReq.Fits (q : ExchReq) : Prop where
  pos     : 0 < q.length
  aligned : ∀ second, q.off second % blockSize = 0
  top     : ∀ second, q.off second + q.length < 2 ^ 63

theorem ExchReq.Fits.bounded (h : q.Fits) :
    Exch.Bounded ⟨q.o1 / blockSize, q.o2 / blockSize, q.length / blockSize, false, false⟩ := by
  have h1 : q.o1 + q.length < 2 ^ 63 := h.top false
  have h2 : q.o2 + q.length < 2 ^ 63 := h.top true
  refine ⟨?_, ?_, ?_⟩
  all_goals
    show _ / blockSize < 2 ^ 52
    unfold blockSize
    omega

end Call

end Briefs.File
