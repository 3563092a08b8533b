import Briefs.Journal.Ring
import Briefs.Journal.Format

/-!
# BrieFS — the walk of the journal and the passes of replay

`walk_journal` runs from `journal_log_start` to `journal_log_end` around the
ring, decodes the records of each block and hands them to `apply_record`.
`briefs_journal_replay` walks twice (a reservation pass, then the apply pass),
builds the xattr live set and the excluded trie blocks between the walks,
reconciles link counts, syncs the allocators, flushes the device and clears the
window.

Both are generic in a world `ω` and in the calls they make on it (`ReplayOps`):
the file system behind `apply_record` is instantiated elsewhere, and the error
analysis takes the calls as an arbitrary pattern of results. The loop over the
ring has a fuel argument, since a `journal_log_end` outside the ring is never
reached; `none` is a walk that has not ended yet.
-/

namespace Briefs.Replay

open Briefs.Journal

/-- `[journal_log_start, journal_log_end)` of a superblock. -/
structure Window where
  logStart : Nat
  logEnd   : Nat
deriving DecidableEq, Repr

/-- The calls of `briefs_journal_replay` on the rest of the file system. The
first argument of `bread` and `applyRecord` is `reserve_only` (`true` in pass
1); `applyRecord` is also told the block and the index of the record, so that a
pattern of errors can be any function of the call. -/
structure ReplayOps (ω : Type) where
  bread         : Bool → Nat → ω → Option Block × ω
  applyRecord   : Bool → Nat → Nat → Record → ω → Option Errno × ω
  buildLiveSet  : ω → Option Errno × ω
  markExcluded  : ω → ω
  reconcile     : ω → Option Errno × ω
  recompute     : ω → ω
  dataSync      : ω → Option Errno × ω
  inodeSync     : ω → Option Errno × ω
  flush         : ω → Option Errno × ω
  syncSuperblock : Window → ω → Option Errno × ω

/-- World and counters of one walk. The counters are `u32` in the source; a
walk that ends visits at most 65536 blocks of fewer than 256 records. -/
structure WalkState (ω : Type) where
  world   : ω
  records : Nat
  blocks  : Nat
  errors  : Nat

variable {ω : Type}

/-- `-EINVAL` and `-ENOENT` mark a freed inode and are skipped. -/
def skippable : Option Errno → Bool
  | none         => true
  | some .einval => true
  | some .enoent => true
  | some _       => false

/-- The record loop of `walk_journal` on the block at `pos`, from record `i` at
byte `recOff` with `n` records of `record_count` left. -/
def walkRecords (ops : ReplayOps ω) (reserveOnly : Bool) (pos : Nat) (b : Block) :
    Nat → Nat → Nat → WalkState ω → Except (Errno × ω) (WalkState ω)
  | 0, _, _, st => .ok st
  | n + 1, i, recOff, st =>
    if recOff < journalBlockSize then
      match decodeRecord b recOff with
      | .error e => .error (e, st.world)
      | .ok rec =>
        let next := recOff + recordHeaderSize + le32 b (recOff + 8)
        if rec.recType = jrnCheckpoint then
          walkRecords ops reserveOnly pos b n (i + 1) next st
        else
          let (ret, w) := ops.applyRecord reserveOnly pos i rec st.world
          walkRecords ops reserveOnly pos b n (i + 1) next
            { world := w, records := st.records + 1, blocks := st.blocks,
              errors := if skippable ret then st.errors else st.errors + 1 }
    else .ok st

/-- `walk_journal` from `cur`. An invalid header magic leaves the loop with
return value 0. -/
def walkJournal (r : Ring) (ops : ReplayOps ω) (reserveOnly : Bool) (stop : Nat) :
    Nat → Nat → WalkState ω → Option (Except (Errno × ω) (WalkState ω))
  | 0, _, _ => none
  | fuel + 1, cur, st =>
    if cur = stop then some (.ok st)
    else if cur = r.checkpointBlock then
      walkJournal r ops reserveOnly stop fuel (r.nextBlock cur) st
    else if ¬ r.Mem cur then some (.error (.eio, st.world))
    else
      let (bh, w) := ops.bread reserveOnly cur st.world
      match bh with
      | none => some (.error (.eio, w))
      | some b =>
        let st := { st with world := w, blocks := st.blocks + 1 }
        if validMagic b then
          match walkRecords ops reserveOnly cur b (recordCount b) 0 blockHeaderSize st with
          | .error e => some (.error e)
          | .ok st' => walkJournal r ops reserveOnly stop fuel (r.nextBlock cur) st'
        else some (.ok st)

/-- What `briefs_journal_replay` leaves behind: its return code, the window in
memory and on disk, and the world. -/
structure ReplayResult (ω : Type) where
  ret   : Option Errno
  sb    : Window
  disk  : Window
  world : ω

/-- A walk of one pass from fresh counters. -/
def walkPass (r : Ring) (ops : ReplayOps ω) (win : Window) (fuel : Nat) (reserveOnly : Bool)
    (w : ω) : Option (Except (Errno × ω) (WalkState ω)) :=
  walkJournal r ops reserveOnly win.logEnd fuel win.logStart
    { world := w, records := 0, blocks := 0, errors := 0 }

/-- `briefs_journal_replay` from the end of pass 2: reconcile, persist and clear
the window. Errors of the allocator syncs and of the flush are only logged, and
the error count of pass 2 is looked at after the window is cleared. -/
def replayFinish (ops : ReplayOps ω) (win : Window) (st : WalkState ω) : ReplayResult ω :=
  match ops.reconcile st.world with
  | (some e, w) => { ret := some e, sb := win, disk := win, world := w }
  | (none, w) =>
    let w := ops.recompute w
    let w := (ops.dataSync w).2
    let w := (ops.inodeSync w).2
    let w := (ops.flush w).2
    let clean : Window := { logStart := win.logEnd, logEnd := win.logEnd }
    let ret := if st.errors = 0 then none else some Errno.eio
    match ops.syncSuperblock clean w with
    | (none, w)   => { ret := ret, sb := clean, disk := clean, world := w }
    | (some _, w) => { ret := ret, sb := clean, disk := win, world := w }

/-- The early exits of replay (`goto replay_done`): the window stays. -/
def replayAbort (win : Window) (e : Errno) (w : ω) : ReplayResult ω :=
  { ret := some e, sb := win, disk := win, world := w }

/-- `briefs_journal_replay` from the start of pass 2. -/
def replayApply (r : Ring) (ops : ReplayOps ω) (win : Window) (fuel : Nat) (w : ω) :
    Option (ReplayResult ω) :=
  match walkPass r ops win fuel false w with
  | none => none
  | some (.error (e, w)) => some (replayAbort win e w)
  | some (.ok st) => some (replayFinish ops win st)

/-- `briefs_journal_replay`. -/
def replay (r : Ring) (ops : ReplayOps ω) (win : Window) (fuel : Nat) (w : ω) :
    Option (ReplayResult ω) :=
  if win.logStart = win.logEnd then
    some { ret := none, sb := win, disk := win, world := w }
  else
    match walkPass r ops win fuel true w with
    | none => none
    | some (.error (e, w)) => some (replayAbort win e w)
    | some (.ok st) =>
      if st.errors ≠ 0 then some (replayAbort win .eio st.world)
      else
        match ops.buildLiveSet st.world with
        | (some e, w) => some (replayAbort win e w)
        | (none, w) => replayApply r ops win fuel (ops.markExcluded w)

end Briefs.Replay
