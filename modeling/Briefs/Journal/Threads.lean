import Briefs.Journal.Write
import Mathlib.Logic.Function.Basic

/-!
# BrieFS — threads on the journal

Appends, syncs, checkpoints and drains as they run beside each other. Each of them runs under
`j->write_lock` and drops it in a few places: a checkpoint and a sync while they wait for
writes, and an append in a full ring while it sleeps. A thread is a stack of frames, one for
each function it is in, with the place where that function goes on; the thread that holds the
lock runs until it drops it. What the code does not decide is in the `Fate` of a step: errors
of writes and allocations, and the clock.

The queue of snapshots has a lock of its own. `briefs_journal_inode_full` puts a snapshot
there, and `briefs_flush_inode_pending_journal_snapshot` takes one from there, whoever holds
`write_lock`. `stamp`, `history`, `appended` and `lost` are notes: they count the snapshots
and say what became of each.
-/

namespace Briefs.Journal

--
-- The state
--

/-- A snapshot of an inode. `stamp` numbers the calls of `briefs_journal_inode_full`, and `origin`
is the call that put its slot in the queue. -/
structure Snapshot where
  ino    : Nat
  origin : Nat
  stamp  : Nat
  data   : List UInt8
deriving DecidableEq

/-- The `JRN_INODE_FULL` record. -/
def Snapshot.record (snap : Snapshot) : Record := (Call.inodeFull snap.ino snap.data).record

/-- The journal with the queue. The snapshots are in `queue` and not in `journal.pending`,
which is for one writer. -/
structure Shared where
  journal      : BriefsJournal
  inCheckpoint : Bool
  queue        : List Snapshot
  stamp        : Nat
  history      : List Snapshot
  appended     : List Snapshot
  lost         : List Snapshot

/-- An error before a step has its effect, an error after it, and `time_after`. -/
structure Fate where
  before : Option Errno
  after  : Option Errno
  late   : Bool

/-- Places in `__briefs_journal_write_record_locked`, with the number of reflushes. -/
inductive WriteAt where
  | entry
  | await (n : Nat)
  | loop (n : Nat)

/-- Places in `briefs_journal_ring_room_locked`. -/
inductive RoomAt where
  | entry
  | top
  | await
  | test
  | slept

/-- Places in `__briefs_journal_checkpoint_locked`. -/
inductive CheckAt where
  | entry
  | flushed
  | await

/-- Places in `__briefs_journal_sync_locked`. `since` is the stamp when the sync began, a note
too; the others are `sync_start`, `own_next` and `own_count`. -/
inductive SyncAt where
  | entry
  | drained (since : Nat)
  | roomMade (since : Nat)
  | capture (since : Nat)
  | forced (since start own count : Nat)
  | flushed (since start own : Nat)
  | tail
  | last

/-- Places in `__briefs_journal_flush_pending_locked`: the batch still to be written, and the
first error. -/
inductive DrainAt where
  | start
  | take (count : Nat)
  | next (batch : List Snapshot) (err : Option Errno)
  | await (snap : Snapshot) (batch : List Snapshot) (err : Option Errno)

/-- A function that a thread is in. -/
inductive Frame where
  | write (rec : Record) (pc : WriteAt)
  | room (pc : RoomAt)
  | checkpoint (pc : CheckAt)
  | sync (checkpoint : Bool) (pc : SyncAt)
  | drain (since round : Nat) (pc : DrainAt)
  | flushOne (snap : Snapshot) (called : Bool)
  | flushAll (called : Bool)

/-- How a step ends: the function goes on, calls another one, drops the lock, or returns. -/
inductive Act where
  | goto (f : Frame)
  | call (f callee : Frame)
  | drop (f : Frame)
  | ret (r : Option Errno)

--
-- Appends
--

namespace Shared

variable (sh : Shared) (ret : Option Errno) (fate : Fate)

/-- The current block is flushed to make room for the record; `n` counts the reflushes. -/
def flushFor (rec : Record) (n : Nat) : Shared × Act :=
  match fate.before with
  | some e => (sh, .ret (some e))
  | none =>
    let j := sh.journal.flushCurBlock
    if j.writePos = j.logStart then
      ({ sh with journal := j }, .call (.write rec (.await n)) (.room .entry))
    else ({ sh with journal := j }, .goto (.write rec (.loop n)))

/-- The record does not fit in what is left of the current block. -/
def Short (rec : Record) : Prop :=
  journalBlockSize < sh.journal.writeOffset + (recordHeaderSize + rec.data.length)

instance (rec : Record) : Decidable (sh.Short rec) := inferInstanceAs (Decidable (_ < _))

/-- `__briefs_journal_write_record_locked`. -/
def writeStep (rec : Record) : WriteAt → Shared × Act
  | .entry =>
    if rec.data.length = 0 ∨ rec.recType ≤ jrnNone ∨ jrnEnd ≤ rec.recType then
      (sh, .ret (some .einval))
    else if sh.Short rec then sh.flushFor fate rec 0
    else ({ sh with journal := sh.journal.putRecord rec }, .ret none)
  | .await n =>
    match ret with
    | some e => (sh, .ret (some e))
    | none => (sh, .goto (.write rec (.loop n)))
  | .loop n =>
    if sh.Short rec then
      if 4 ≤ n then (sh, .ret (some .enospc)) else sh.flushFor fate rec (n + 1)
    else ({ sh with journal := sh.journal.putRecord rec }, .ret none)

/-- `briefs_journal_ring_room_locked`. -/
def roomStep : RoomAt → Shared × Act
  | .entry =>
    if sh.journal.writePos ≠ sh.journal.logStart then (sh, .ret none)
    else if sh.journal.ring.journalEnd - sh.journal.ring.journalStart < 2 then
      (sh, .ret (some .enospc))
    else (sh, .goto (.room .top))
  | .top =>
    if sh.inCheckpoint then (sh, .goto (.room .test))
    else (sh, .call (.room .await) (.checkpoint .entry))
  | .await =>
    match ret with
    | some e => (sh, .ret (some e))
    | none => (sh, .goto (.room .test))
  | .test =>
    if sh.journal.ring.nextBlock sh.journal.writePos ≠ sh.journal.logStart then (sh, .ret none)
    else if fate.late then (sh, .ret (some .enospc))
    else (sh, .drop (.room .slept))
  | .slept =>
    if sh.journal.writePos ≠ sh.journal.logStart then (sh, .ret none)
    else (sh, .goto (.room .top))

end Shared

--
-- Checkpoints
--

/-- `briefs_journal_retire_locked` to `synced_pos`. -/
def BriefsJournal.retire (j : BriefsJournal) : BriefsJournal :=
  { j.writeBlock j.ring.checkpointBlock j.marker with
    logStart       := j.syncedPos
    logEnd         := j.syncedPos
    committedCount := j.writeCount }

namespace Shared

variable (sh : Shared) (ret : Option Errno) (fate : Fate)

/-- The end of a checkpoint that went through. -/
def settle : Shared × Act :=
  ({ sh with
      inCheckpoint := false
      journal := { sh.journal with sinceCheckpoint := 0 } }, .ret none)

/-- `__briefs_journal_checkpoint_locked`. An error before the retire is one of the flushes, of
the allocator syncs or of the checkpoint block; one after it is that of the superblock. -/
def checkpointStep : CheckAt → Shared × Act
  | .entry =>
    if sh.inCheckpoint then (sh, .ret none)
    else ({ sh with inCheckpoint := true }, .drop (.checkpoint .flushed))
  | .flushed =>
    match fate.before with
    | some e => ({ sh with inCheckpoint := false }, .ret (some e))
    | none =>
      match fate.after with
      | some e =>
        ({ sh with journal := sh.journal.retire, inCheckpoint := false }, .ret (some e))
      | none =>
        if sh.journal.dirty then
          ({ sh with journal := sh.journal.retire },
            .call (.checkpoint .await) (.sync false .entry))
        else { sh with journal := sh.journal.retire }.settle
  | .await =>
    match ret with
    | some e => ({ sh with inCheckpoint := false }, .ret (some e))
    | none => sh.settle

end Shared

--
-- Syncs
--

/-- A sync claims the blocks up to `own`, if its range began where `synced_pos` still is. -/
def BriefsJournal.claim (j : BriefsJournal) (start own : Nat) : BriefsJournal :=
  if j.syncedPos = start ∨ j.ring.nextBlock j.syncedPos = start then { j with syncedPos := own }
  else j

namespace Shared

variable (sh : Shared) (ret : Option Errno) (fate : Fate)

/-- `__briefs_journal_sync_locked` outside of replay. -/
def syncStep (checkpoint : Bool) : SyncAt → Shared × Act
  | .entry => (sh, .call (.sync checkpoint (.drained sh.stamp)) (.drain sh.stamp 0 .start))
  | .drained since =>
    match ret with
    | some e => (sh, .ret (some e))
    | none =>
      if sh.journal.dirty = false then (sh, .ret none)
      else if sh.inCheckpoint = false ∧ sh.journal.needsRoom = true then
        (sh, .call (.sync checkpoint (.roomMade since)) (.checkpoint .entry))
      else (sh, .goto (.sync checkpoint (.capture since)))
  | .roomMade since =>
    match ret with
    | some e => (sh, .ret (some e))
    | none =>
      if sh.journal.dirty = false then (sh, .ret none)
      else (sh, .goto (.sync checkpoint (.capture since)))
  | .capture since =>
    match fate.before with
    | some e => (sh, .ret (some e))
    | none =>
      let j := sh.journal.flushCurBlock
      ({ sh with journal := j },
        .drop (.sync checkpoint (.forced since sh.journal.syncedPos j.writePos j.writeCount)))
  | .forced since start own count =>
    match fate.before with
    | some e => (sh, .ret (some e))
    | none =>
      if sh.journal.committedCount < count ∧ own ≠ sh.journal.logStart then
        match fate.after with
        | some e => ({ sh with journal := { sh.journal with logEnd := own } }, .ret (some e))
        | none =>
          ({ sh with journal := { sh.journal with logEnd := own, committedCount := count } },
            .drop (.sync checkpoint (.flushed since start own)))
      else (sh, .drop (.sync checkpoint (.flushed since start own)))
  | .flushed _ start own =>
    match fate.before with
    | some e => (sh, .ret (some e))
    | none =>
      if checkpoint = true ∧ checkpointInterval ≤ sh.journal.sinceCheckpoint then
        ({ sh with journal := sh.journal.claim start own },
          .call (.sync checkpoint .tail) (.checkpoint .entry))
      else ({ sh with journal := sh.journal.claim start own }, .goto (.sync checkpoint .tail))
  | .tail =>
    if sh.inCheckpoint = false ∧
        sh.journal.ring.nextBlock sh.journal.writePos = sh.journal.logStart then
      (sh, .call (.sync checkpoint .last) (.checkpoint .entry))
    else (sh, .ret none)
  | .last => (sh, .ret none)

--
-- Snapshots
--

/-- The record of a snapshot has been written, or the snapshot is gone with the error. -/
def noteWritten (snap : Snapshot) : Option Errno → Shared
  | none => { sh with appended := snap :: sh.appended }
  | some _ => { sh with lost := snap :: sh.lost }

/-- The rounds of a drain. -/
def drainRounds : Nat := 8

/-- The snapshots that a round takes at most. -/
def batchMax : Nat := 4096

/-- `__briefs_journal_flush_pending_locked`. The count is read without the lock of the queue. -/
def drainStep (since round : Nat) : DrainAt → Shared × Act
  | .start =>
    if drainRounds ≤ round ∨ sh.queue.length = 0 then (sh, .ret none)
    else
      match fate.before with
      | some e => (sh, .ret (some e))
      | none => (sh, .goto (.drain since round (.take (min sh.queue.length batchMax))))
  | .take count =>
    ({ sh with queue := sh.queue.drop count },
      .goto (.drain since round (.next (sh.queue.take count) none)))
  | .next [] err =>
    match err with
    | some e => (sh, .ret (some e))
    | none => (sh, .goto (.drain since (round + 1) .start))
  | .next (snap :: batch) err =>
    (sh, .call (.drain since round (.await snap batch err)) (.write snap.record .entry))
  | .await snap batch err =>
    (sh.noteWritten snap ret, .goto (.drain since round (.next batch (err.or ret))))

/-- The second half of `briefs_flush_inode_pending_journal_snapshot`; a device that was shut
down refuses the record. -/
def flushOneStep (snap : Snapshot) : Bool → Shared × Act
  | false =>
    match fate.before with
    | some e => (sh.noteWritten snap (some e), .ret (some e))
    | none => (sh, .call (.flushOne snap true) (.write snap.record .entry))
  | true => (sh.noteWritten snap ret, .ret ret)

/-- One step of the function at the top of the stack. -/
def step : Frame → Shared × Act
  | .write rec pc => sh.writeStep ret fate rec pc
  | .room pc => sh.roomStep ret fate pc
  | .checkpoint pc => sh.checkpointStep ret fate pc
  | .sync checkpoint pc => sh.syncStep ret fate checkpoint pc
  | .drain since round pc => sh.drainStep ret fate since round pc
  | .flushOne snap called => sh.flushOneStep ret fate snap called
  | .flushAll false => (sh, .call (.flushAll true) (.drain 0 0 .start))
  | .flushAll true => (sh, .ret ret)

/-- `briefs_journal_inode_full`: the slot of an inode that is queued is overwritten. -/
def enqueue (ino : Nat) (data : List UInt8) : Shared :=
  match sh.queue.find? fun x => x.ino == ino with
  | some slot =>
    let snap : Snapshot := ⟨ino, slot.origin, sh.stamp, data⟩
    { sh with
      queue   := sh.queue.map fun x => if x.ino = ino then snap else x
      stamp   := sh.stamp + 1
      history := snap :: sh.history }
  | none =>
    let snap : Snapshot := ⟨ino, sh.stamp, sh.stamp, data⟩
    { sh with
      queue   := sh.queue ++ [snap]
      stamp   := sh.stamp + 1
      history := snap :: sh.history }

end Shared

--
-- Threads
--

/-- A thread: what the last call returned, and the functions it is in. -/
structure Thread where
  ret   : Option Errno
  stack : List Frame

/-- All threads; `holder` has `j->write_lock`. -/
structure Sys where
  shared  : Shared
  holder  : Option Nat
  threads : Nat → Thread

/-- The public entries that take the lock. -/
inductive Request where
  | write (c : Call)
  | sync (periodic : Bool)
  | checkpoint
  | flushAll

def Request.frame : Request → Frame
  | .write c => .write c.record .entry
  | .sync periodic => .sync periodic .entry
  | .checkpoint => .checkpoint .entry
  | .flushAll => .flushAll false

/-- A snapshot is queued; a thread takes one inode's snapshot from the queue; a thread enters the
journal; it gets the lock; the thread with the lock makes a step. -/
inductive Event where
  | queue (ino : Nat) (data : List UInt8)
  | grab (t ino : Nat)
  | start (t : Nat) (q : Request)
  | take (t : Nat)
  | run (fate : Fate)

/-- The thread after a step, and whether it keeps the lock. -/
def Act.apply (ret : Option Errno) (rest : List Frame) : Act → Thread × Bool
  | .goto f => (⟨ret, f :: rest⟩, true)
  | .call f callee => (⟨ret, callee :: f :: rest⟩, true)
  | .drop f => (⟨ret, f :: rest⟩, false)
  | .ret r => (⟨r, rest⟩, !rest.isEmpty)

/-- The frames that a step leaves on the stack. -/
def Act.frames : Act → List Frame
  | .goto f => [f]
  | .call f callee => [callee, f]
  | .drop f => [f]
  | .ret _ => []

namespace Sys

def setThread (s : Sys) (t : Nat) (th : Thread) : Sys :=
  { s with threads := Function.update s.threads t th }

/-- The thread with the lock makes a step; with its last return it drops the lock. -/
def runTop (s : Sys) (fate : Fate) (t : Nat) (ret : Option Errno) (f : Frame) (rest : List Frame) :
    Sys :=
  let (sh, act) := s.shared.step ret fate f
  let (th, keeps) := act.apply ret rest
  { (s.setThread t th) with
    shared := sh
    holder := if keeps then some t else none }

def step (s : Sys) : Event → Option Sys
  | .queue ino data => some { s with shared := s.shared.enqueue ino data }
  | .grab t ino =>
    match (s.threads t).stack, s.shared.queue.find? fun x => x.ino == ino with
    | [], some snap =>
      some { (s.setThread t ⟨none, [.flushOne snap false]⟩) with
        shared := { s.shared with queue := s.shared.queue.filter fun x => x.ino != ino } }
    | _, _ => none
  | .start t q =>
    match (s.threads t).stack with
    | [] => some (s.setThread t ⟨none, [q.frame]⟩)
    | _ :: _ => none
  | .take t =>
    match s.holder, (s.threads t).stack with
    | none, _ :: _ => some { s with holder := some t }
    | _, _ => none
  | .run fate =>
    match s.holder with
    | none => none
    | some t =>
      match (s.threads t).stack with
      | [] => none
      | f :: rest => some (s.runTop fate t (s.threads t).ret f rest)

section Inversion

variable {s s' : Sys} {t : Nat}

/-- A snapshot leaves the queue for a thread that is idle. -/
theorem step_grab {ino : Nat} (hStep : s.step (.grab t ino) = some s') :
    ∃ snap, (s.threads t).stack = [] ∧ (s.shared.queue.find? fun x => x.ino == ino) = some snap ∧
      s' = { (s.setThread t ⟨none, [.flushOne snap false]⟩) with
        shared := { s.shared with queue := s.shared.queue.filter fun x => x.ino != ino } } := by
  simp only [Sys.step] at hStep
  split at hStep
  · rename_i snap hIdle hFind
    exact ⟨snap, hIdle, hFind, (Option.some.inj hStep).symm⟩
  · cases hStep

/-- An idle thread enters. -/
theorem step_start {q : Request} (hStep : s.step (.start t q) = some s') :
    (s.threads t).stack = [] ∧ s' = s.setThread t ⟨none, [q.frame]⟩ := by
  simp only [Sys.step] at hStep
  split at hStep
  · rename_i hIdle
    exact ⟨hIdle, (Option.some.inj hStep).symm⟩
  · cases hStep

/-- A thread takes the lock, which is free. -/
theorem step_take (hStep : s.step (.take t) = some s') :
    s.holder = none ∧ s' = { s with holder := some t } := by
  simp only [Sys.step] at hStep
  split at hStep
  · rename_i hFree _
    exact ⟨hFree, (Option.some.inj hStep).symm⟩
  · cases hStep

/-- A step of a thread with the lock. -/
theorem step_run {fate : Fate} (hStep : s.step (.run fate) = some s') :
    ∃ t f rest, s.holder = some t ∧ (s.threads t).stack = f :: rest ∧
      s' = s.runTop fate t (s.threads t).ret f rest := by
  simp only [Sys.step] at hStep
  split at hStep
  · cases hStep
  · rename_i t hHolder
    split at hStep
    · cases hStep
    · rename_i f rest hStack
      exact ⟨t, f, rest, hHolder, hStack, (Option.some.inj hStep).symm⟩

end Inversion

/-- The states that steps lead to, each taken under the condition. -/
inductive Reach (P : Sys → Event → Prop) (start : Sys) : Sys → Prop where
  | refl : Reach P start start
  | step {s s' : Sys} {e : Event} : Reach P start s → P s e → s.step e = some s' → Reach P start s'

end Sys

/-- The sizes that the callers allow; a disk inode has 512 bytes. -/
def Event.Allowed : Event → Prop
  | .queue _ data => data.length = 512
  | .start _ (.write c) => c.Allowed
  | _ => True

end Briefs.Journal
