import Briefs.Journal.Format
import Briefs.Journal.Ring

/-!
# BrieFS — writing the journal

The write side of `journal.c`: the logging functions build a record and append it to the
current block. A block that has no room for the next record is written at `write_pos` and
a new one is started; `write_pos` goes around the ring and skips the checkpoint block. A
sync writes the current block also, and commits the window up to there.

There is one writer here. A ring that is full is an outcome of its own (`Stop.full`): the
code runs a checkpoint then. Blocks are seen as the buffer cache has them.
-/

namespace Briefs.Journal

--
-- Records
--

/-- `cpu_to_le64`. -/
def bytesOfLe64 (v : Nat) : List UInt8 :=
  bytesOfLe32 v ++ bytesOfLe32 (v / 4294967296)

/-- The logging functions with what their records are made of. The last four bytes of a
symlink record lie past the target and are not initialized. -/
inductive Call where
  | extentAlloc (ino offset physStart length extentIndex : Nat)
  | extentFree (ino offset physStart length : Nat)
  | inodeUpdate (ino mode nlink uid gid size : Nat) (times : Fin 6 → Nat) (flags generation : Nat)
  | inodeAlloc (ino mode nlink : Nat)
  | inodeFree (ino : Nat)
  | trieAlloc (absBlock : Nat)
  | trieFree (absBlock : Nat)
  | dirUpdate (parentIno childIno : Nat) (name : List UInt8) (op ftype : UInt8)
  | inodeFull (ino : Nat) (snapshot : List UInt8)
  | symlinkData (ino phys : Nat) (target : List UInt8) (past : Fin 4 → UInt8)
  | xattrData (ino physBlock : Nat) (data : List UInt8)

/-- Zero bytes up to a length. -/
def padTo (n : Nat) (bytes : List UInt8) : List UInt8 :=
  bytes ++ List.replicate (n - bytes.length) 0

/-- The record as it is handed to `briefs_journal_write_record`. -/
def Call.record : Call → Record
  | .extentAlloc ino offset physStart length extentIndex => ⟨1, padTo 80
      (bytesOfLe64 ino ++ bytesOfLe64 offset ++ bytesOfLe64 length ++ bytesOfLe64 physStart ++
        bytesOfLe32 extentIndex)⟩
  | .extentFree ino offset physStart length => ⟨2, padTo 80
      (bytesOfLe64 ino ++ bytesOfLe64 offset ++ bytesOfLe64 physStart ++ bytesOfLe64 length)⟩
  | .inodeUpdate ino mode nlink uid gid size times flags generation => ⟨3, padTo 96
      (bytesOfLe64 ino ++ bytesOfLe32 mode ++ bytesOfLe32 nlink ++ bytesOfLe32 uid ++
        bytesOfLe32 gid ++ bytesOfLe64 size ++ bytesOfLe64 (times 0) ++ bytesOfLe64 (times 1) ++
        bytesOfLe64 (times 2) ++ bytesOfLe64 (times 3) ++ bytesOfLe64 (times 4) ++
        bytesOfLe64 (times 5) ++ bytesOfLe32 flags ++ bytesOfLe32 0 ++ bytesOfLe64 generation)⟩
  | .inodeAlloc ino mode nlink => ⟨4, padTo 40
      (bytesOfLe64 ino ++ bytesOfLe32 (mode % 4096) ++ bytesOfLe32 nlink)⟩
  | .inodeFree ino => ⟨5, padTo 32 (bytesOfLe64 ino)⟩
  | .trieAlloc absBlock => ⟨6, padTo 16 (bytesOfLe64 absBlock ++ bytesOfLe32 0)⟩
  | .trieFree absBlock => ⟨6, padTo 16 (bytesOfLe64 absBlock ++ bytesOfLe32 1)⟩
  | .dirUpdate parentIno childIno name op ftype => ⟨7, padTo 280
      (bytesOfLe64 parentIno ++ bytesOfLe64 childIno ++ bytesOfLe32 name.length ++
        padTo 255 name ++ [op, ftype])⟩
  | .inodeFull ino snapshot => ⟨9, padTo 560 (bytesOfLe64 ino ++ snapshot)⟩
  | .symlinkData ino phys target past => ⟨10,
      bytesOfLe64 ino ++ bytesOfLe64 phys ++ bytesOfLe32 target.length ++ target ++
        List.ofFn past⟩
  | .xattrData ino physBlock data => ⟨11,
      bytesOfLe64 ino ++ bytesOfLe64 physBlock ++ bytesOfLe32 data.length ++ data⟩

/-- `BRIEFS_NAME_LEN`. -/
def nameLen : Nat := 255

/-- `BRIEFS_XATTR_MAX_USED`. -/
def xattrMaxUsed : Nat := 4044

/-- The sizes that the callers allow: `briefs_symlink` refuses targets from ten times the
length of a name on, and the xattr code builds no larger block. -/
def Call.Allowed : Call → Prop
  | .dirUpdate _ _ name _ _ => 0 < name.length ∧ name.length ≤ nameLen
  | .inodeFull _ snapshot => snapshot.length = 512
  | .symlinkData _ _ target _ => 0 < target.length ∧ target.length ≤ nameLen * 10
  | .xattrData _ _ data => 0 < data.length ∧ data.length ≤ xattrMaxUsed
  | _ => True

--
-- The state
--

/-- `struct briefs_journal` with the window of the superblock. `pending` holds the queued
snapshots, and `marker` what a checkpoint writes into the checkpoint block. -/
structure BriefsJournal where
  ring           : Ring
  disk           : Nat → Block
  curBlock       : Block
  writeOffset    : Nat
  writePos       : Nat
  syncedPos      : Nat
  writeCount     : Nat
  committedCount : Nat
  logStart       : Nat
  logEnd         : Nat
  dirty          : Bool
  sinceCheckpoint : Nat
  pending        : List Record
  marker         : Block

/-- Why a call did not go through: `-EINVAL`, `-ENOSPC` for a record that fits in no
block, or a full ring. -/
inductive Stop where
  | invalid
  | refused
  | full
deriving DecidableEq, Repr

/-- `memcpy` into a block. -/
def Block.store (b : Block) (off : Nat) (bytes : List UInt8) : Block :=
  fun i => if off ≤ i ∧ i < off + bytes.length then bytes.getD (i - off) 0 else b i

theorem store_inside (b : Block) {off k : Nat} {bytes : List UInt8} (hk : k < bytes.length) :
    b.store off bytes (off + k) = bytes.getD k 0 := by
  have hIn : off ≤ off + k ∧ off + k < off + bytes.length := by omega
  have hSub : off + k - off = k := by omega
  unfold Block.store
  rw [if_pos hIn, hSub]

theorem store_outside (b : Block) {off i : Nat} {bytes : List UInt8}
    (h : i < off ∨ off + bytes.length ≤ i) : b.store off bytes i = b i := by
  unfold Block.store
  rw [if_neg (by omega)]

/-- A block after `memset`, with the header set; `block_seq` is read back after it was
cleared. -/
def Block.reset (b : Block) : Block :=
  let zero : Block := fun i => if i < journalBlockSize then 0 else b i
  (zero.store 0 (bytesOfLe32 journalMagic)).store 4 (bytesOfLe32 1)

/-- `briefs_journal_write_block`. -/
def BriefsJournal.writeBlock (j : BriefsJournal) (pos : Nat) (b : Block) : BriefsJournal :=
  { j with disk := fun p => if p = pos then fun i =>
      if i < journalBlockSize then b i else j.disk pos i else j.disk p }

/-- The next block after the write position that records go to. -/
def Ring.advance (r : Ring) (pos : Nat) : Nat :=
  if r.nextBlock pos = r.checkpointBlock then r.nextBlock (r.nextBlock pos) else r.nextBlock pos

/-- The steps that `write_count` counts for one advance. -/
def Ring.steps (r : Ring) (pos : Nat) : Nat :=
  if r.nextBlock pos = r.checkpointBlock then 2 else 1

/-- `briefs_journal_flush_cur_block_locked`; a sync does the same. -/
def BriefsJournal.flushCurBlock (j : BriefsJournal) : BriefsJournal :=
  { j.writeBlock j.writePos j.curBlock with
    writePos    := j.ring.advance j.writePos
    writeCount  := j.writeCount + j.ring.steps j.writePos
    curBlock    := j.curBlock.reset
    writeOffset := blockHeaderSize
    dirty       := false }

--
-- Appending
--

/-- The bytes of a record with its header. -/
def Record.bytes (rec : Record) : List UInt8 :=
  bytesOfLe32 rec.recType ++ bytesOfLe32 0 ++ bytesOfLe32 rec.data.length ++
    bytesOfLe32 (computeRecordChecksum rec.recType 0 rec.data.length rec.data).toNat ++ rec.data

/-- The end of `__briefs_journal_write_record_locked`: the record goes into the block. -/
def BriefsJournal.putRecord (j : BriefsJournal) (rec : Record) : BriefsJournal :=
  let b := j.curBlock.store j.writeOffset rec.bytes
  { j with
    curBlock        := b.store 8 (bytesOfLe32 (recordCount b + 1))
    writeOffset     := j.writeOffset + (recordHeaderSize + rec.data.length)
    dirty           := true
    sinceCheckpoint := j.sinceCheckpoint + 1 }

/-- A flush after which the ring must not be full. -/
def BriefsJournal.flushRoom (j : BriefsJournal) : Except Stop BriefsJournal :=
  if j.flushCurBlock.writePos = j.flushCurBlock.logStart then .error .full
  else .ok j.flushCurBlock

/-- The loop that flushes until the record fits, four times at most. -/
def BriefsJournal.reflush (total : Nat) : Nat → BriefsJournal → Except Stop BriefsJournal
  | 0, j => if journalBlockSize < j.writeOffset + total then .error .refused else .ok j
  | n + 1, j =>
    if journalBlockSize < j.writeOffset + total then
      match j.flushRoom with
      | .error e => .error e
      | .ok j => reflush total n j
    else .ok j

/-- `__briefs_journal_write_record_locked`. -/
def BriefsJournal.writeRecord (j : BriefsJournal) (rec : Record) : Except Stop BriefsJournal :=
  if rec.data.length = 0 ∨ rec.recType ≤ jrnNone ∨ jrnEnd ≤ rec.recType then .error .invalid
  else
    let total := recordHeaderSize + rec.data.length
    if journalBlockSize < j.writeOffset + total then
      match j.flushRoom with
      | .error e => .error e
      | .ok j =>
        match BriefsJournal.reflush total 4 j with
        | .error e => .error e
        | .ok j => .ok (j.putRecord rec)
    else .ok (j.putRecord rec)

/-- Records appended one after the other. -/
def BriefsJournal.writeRecords (j : BriefsJournal) : List Record → Except Stop BriefsJournal
  | [] => .ok j
  | rec :: recs =>
    match j.writeRecord rec with
    | .error e => .error e
    | .ok j => j.writeRecords recs

--
-- Sync
--

/-- What one drain of the queue takes at most: 8 rounds of 4096. -/
def drainMax : Nat := 8 * 4096

/-- `__briefs_journal_flush_pending_locked`. -/
def BriefsJournal.drain (j : BriefsJournal) : Except Stop BriefsJournal :=
  { j with pending := j.pending.drop drainMax }.writeRecords (j.pending.take drainMax)

/-- `briefs_journal_needs_room_locked`. -/
def BriefsJournal.needsRoom (j : BriefsJournal) : Bool :=
  (j.writePos == j.logStart && j.logEnd != j.logStart) ||
    j.ring.advance j.writePos == j.logStart

/-- The commit point: the window is extended to the block after the last one written. -/
def BriefsJournal.commit (j : BriefsJournal) : BriefsJournal :=
  if j.committedCount < j.writeCount ∧ j.writePos ≠ j.logStart then
    { j with logEnd := j.writePos, committedCount := j.writeCount }
  else j

/-- `JRN_CHECKPOINT_INTERVAL`. -/
def checkpointInterval : Nat := 4096

/-- `__briefs_journal_checkpoint_locked` with nothing pending: the window is retired up to
`synced_pos`. -/
def BriefsJournal.checkpoint (j : BriefsJournal) : BriefsJournal :=
  { j.writeBlock j.ring.checkpointBlock j.marker with
    logStart        := j.syncedPos
    logEnd          := j.syncedPos
    committedCount  := j.writeCount
    sinceCheckpoint := 0 }

/-- The periodic checkpoint at the end of a sync. -/
def BriefsJournal.periodic (j : BriefsJournal) (checkpoint : Bool) : BriefsJournal :=
  if checkpoint = true ∧ checkpointInterval ≤ j.sinceCheckpoint then j.checkpoint else j

/-- `__briefs_journal_sync_locked`; `checkpoint` allows the periodic checkpoint. -/
def BriefsJournal.sync (j : BriefsJournal) (checkpoint : Bool) : Except Stop BriefsJournal :=
  match j.drain with
  | .error e => .error e
  | .ok j =>
    if j.dirty = false then .ok j
    else if j.needsRoom then .error .full
    else
      let j := j.flushCurBlock.commit
      let j := { j with syncedPos := j.writePos }.periodic checkpoint
      if j.ring.nextBlock j.writePos = j.logStart then .error .full else .ok j

/-- The calls of the logging functions, then a sync. -/
def BriefsJournal.logAndSync (j : BriefsJournal) (calls : List Call) (checkpoint : Bool) :
    Except Stop BriefsJournal :=
  match j.writeRecords (calls.map Call.record) with
  | .error e => .error e
  | .ok j => j.sync checkpoint

end Briefs.Journal
