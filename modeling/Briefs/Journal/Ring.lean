import Mathlib.Logic.Function.Iterate
import Mathlib.Tactic.Common

/-!
# BrieFS — the journal ring

The journal occupies the blocks `[journal_start, journal_end)`. Its last block
is the checkpoint block: it is reserved for the checkpoint marker and every
cursor skips it. `briefs_journal_init` refuses a ring of fewer than 4 or more
than 65536 blocks, so these bounds are fields of `Ring`.
-/

namespace Briefs.Journal

/-- `BRIEFS_MIN_JOURNAL_BLOCKS`. -/
def minJournalBlocks : Nat := 4

/-- `BRIEFS_MAX_JOURNAL_BLOCKS`. -/
def maxJournalBlocks : Nat := 65536

/-- Journal geometry as `briefs_journal_init` accepts it. -/
structure Ring where
  journalStart  : Nat
  journalBlocks : Nat
  hMin : minJournalBlocks ≤ journalBlocks
  hMax : journalBlocks ≤ maxJournalBlocks

namespace Ring

variable (r : Ring)

/-- `j->journal_end`, one past the last block of the ring. -/
def journalEnd : Nat := r.journalStart + r.journalBlocks

/-- `j->checkpoint_block`, the last block of the ring. -/
def checkpointBlock : Nat := r.journalStart + r.journalBlocks - 1

/-- `briefs_journal_next_block`: one step with wrapping. It does not skip the
checkpoint block; the callers do. -/
def nextBlock (cur : Nat) : Nat :=
  if r.journalEnd ≤ cur + 1 then r.journalStart else cur + 1

/-- A block number inside the ring. -/
def Mem (pos : Nat) : Prop := r.journalStart ≤ pos ∧ pos < r.journalEnd

instance (pos : Nat) : Decidable (r.Mem pos) := inferInstanceAs (Decidable (_ ∧ _))

end Ring

end Briefs.Journal
