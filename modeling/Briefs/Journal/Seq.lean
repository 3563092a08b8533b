import Briefs.Journal.Cursors

/-!
# BrieFS — the numbers of journal blocks

Each journal block carries a `block_seq`, which should increase from block to block, so that a block
of the lap before is told from one of this lap. Two functions start a new block, the flush for a
record that does not fit and the sync, and both clear the block before they read the number that
they add one to. So the first block of a mount has number 0 and every other one has number 1.

What the threads do to the current block comes down to three moves, and each step of each function
is one of them. `Sys.writes` collects the blocks that a run writes at `write_pos`; the checkpoint
block is no part of the log.

## Results

* `Shared.moves_step`, `Sys.moves_step` — what a step does to the current block.
* `numbers_writes` — the numbers of the blocks that a run writes.
* `block_seqs_increase_iff` — they increase as long as there are at most two blocks.
-/

namespace Briefs.Journal

--
-- The number of a block
--

/-- `hdr->block_seq`. -/
def blockSeq (b : Block) : Nat := le32 b 4

/-- `memset` of the block, or `kzalloc`, and the magic. -/
def Block.init (b : Block) : Block :=
  Block.store (fun i => if i < journalBlockSize then 0 else b i) 0 (bytesOfLe32 journalMagic)

theorem blockSeq_init (b : Block) : blockSeq b.init = 0 := by
  have hZero : ∀ i, 4 ≤ i → i < 8 → b.init i = 0 := by
    intro i hLow hHigh
    unfold Block.init
    rw [store_outside _ (Or.inr (by simp; omega))]
    exact if_pos (by unfold journalBlockSize; omega)
  exact le32_of_bytes (by decide) (hZero 4 (by omega) (by omega)) (hZero 5 (by omega) (by omega))
    (hZero 6 (by omega) (by omega)) (hZero 7 (by omega) (by omega))

theorem blockSeq_reset (b : Block) : blockSeq b.reset = 1 := by
  have hByte : ∀ k, k < 4 → b.reset (4 + k) = (bytesOfLe32 1).getD k 0 :=
    fun k hk => store_inside _ hk
  exact le32_of_bytes (by decide) (hByte 0 (by omega)) (hByte 1 (by omega)) (hByte 2 (by omega))
    (hByte 3 (by omega))

/-- A record goes behind the header, of which only the count changes. -/
theorem blockSeq_putRecord {j : BriefsJournal} (hOff : blockHeaderSize ≤ j.writeOffset) (rec : Record) :
    blockSeq (j.putRecord rec).curBlock = blockSeq j.curBlock := by
  have hSize : blockHeaderSize = 16 := rfl
  refine le32_congr fun i _ hHigh => ?_
  show ((j.curBlock.store j.writeOffset rec.bytes).store 8 _) i = j.curBlock i
  rw [store_outside _ (Or.inl (by omega)), store_outside _ (Or.inl (by omega))]

--
-- Steps
--

/-- What can happen to the current block: it is written and the next one started, a record is put
in, or nothing. -/
inductive BriefsJournal.Moves (j : BriefsJournal) : BriefsJournal → Prop where
  | flush : j.Moves j.flushCurBlock
  | put (rec : Record) : j.Moves (j.putRecord rec)
  | aside {j' : BriefsJournal} (hBlock : j'.curBlock = j.curBlock)
      (hOffset : j'.writeOffset = j.writeOffset) (hCount : j'.writeCount = j.writeCount) :
      j.Moves j'

namespace Shared

variable (sh : Shared) (ret : Option Errno) (fate : Fate)

theorem moves_flushFor (rec : Record) (n : Nat) :
    sh.journal.Moves (sh.flushFor fate rec n).1.journal := by
  fun_cases Shared.flushFor sh fate rec n with
  | case1 e hErr => exact .aside rfl rfl rfl
  | case2 hOk j hFull => exact .flush
  | case3 hOk j hRoom => exact .flush

theorem moves_writeStep (rec : Record) (pc : WriteAt) :
    sh.journal.Moves (sh.writeStep ret fate rec pc).1.journal := by
  unfold Shared.writeStep
  cases pc with
  | entry =>
    dsimp only
    split
    · exact .aside rfl rfl rfl
    · split
      · exact sh.moves_flushFor fate rec 0
      · exact .put rec
  | await n =>
    cases ret with
    | some e => exact .aside rfl rfl rfl
    | none => exact .aside rfl rfl rfl
  | loop n =>
    dsimp only
    split
    · split
      · exact .aside rfl rfl rfl
      · exact sh.moves_flushFor fate rec (n + 1)
    · exact .put rec

/-- Waiting for room, checkpoints and drains leave the block to the functions that they call. -/
theorem moves_roomStep (pc : RoomAt) : sh.journal.Moves (sh.roomStep ret fate pc).1.journal := by
  fun_cases Shared.roomStep sh ret fate pc
  all_goals exact .aside rfl rfl rfl

theorem moves_checkpointStep (pc : CheckAt) :
    sh.journal.Moves (sh.checkpointStep ret fate pc).1.journal := by
  fun_cases Shared.checkpointStep sh ret fate pc
  all_goals exact .aside rfl rfl rfl

theorem moves_claim (j : BriefsJournal) (start own : Nat) : j.Moves (j.claim start own) := by
  unfold BriefsJournal.claim
  split
  · exact .aside rfl rfl rfl
  · exact .aside rfl rfl rfl

theorem moves_syncStep (checkpoint : Bool) (pc : SyncAt) :
    sh.journal.Moves (sh.syncStep ret fate checkpoint pc).1.journal := by
  fun_cases Shared.syncStep sh ret fate checkpoint pc
  -- The block is captured.
  case case10 => exact .flush
  -- The blocks are claimed, with and without a checkpoint after it.
  case case16 => exact moves_claim sh.journal _ _
  case case17 => exact moves_claim sh.journal _ _
  all_goals exact .aside rfl rfl rfl

theorem journal_noteWritten (snap : Snapshot) (res : Option Errno) :
    (sh.noteWritten snap res).journal = sh.journal := by
  cases res with
  | none => rfl
  | some e => rfl

theorem moves_of_eq {j j' : BriefsJournal} (h : j' = j) : j.Moves j' := by
  subst h
  exact .aside rfl rfl rfl

theorem moves_drainStep (since round : Nat) (pc : DrainAt) :
    sh.journal.Moves (sh.drainStep ret fate since round pc).1.journal := by
  refine moves_of_eq ?_
  fun_cases Shared.drainStep sh ret fate since round pc
  case case8 => exact sh.journal_noteWritten _ _
  all_goals rfl

theorem moves_flushOneStep (snap : Snapshot) (called : Bool) :
    sh.journal.Moves (sh.flushOneStep ret fate snap called).1.journal := by
  refine moves_of_eq ?_
  fun_cases Shared.flushOneStep sh ret fate snap called
  · exact sh.journal_noteWritten _ _
  · rfl
  · exact sh.journal_noteWritten _ _

/-- A step of any function is one of the moves. -/
theorem moves_step (f : Frame) : sh.journal.Moves (sh.step ret fate f).1.journal := by
  cases f with
  | write rec pc => exact sh.moves_writeStep ret fate rec pc
  | room pc => exact sh.moves_roomStep ret fate pc
  | checkpoint pc => exact sh.moves_checkpointStep ret fate pc
  | sync checkpoint pc => exact sh.moves_syncStep ret fate checkpoint pc
  | drain since round pc => exact sh.moves_drainStep ret fate since round pc
  | flushOne snap called => exact sh.moves_flushOneStep ret fate snap called
  | flushAll called =>
    cases called with
    | false => exact .aside rfl rfl rfl
    | true => exact .aside rfl rfl rfl

theorem journal_enqueue (ino : Nat) (data : List UInt8) :
    (sh.enqueue ino data).journal = sh.journal := by
  unfold Shared.enqueue
  split
  · rfl
  · rfl

end Shared

/-- So is a step of the threads. -/
theorem Sys.moves_step {s s' : Sys} {e : Event} (hStep : s.step e = some s') :
    s.shared.journal.Moves s'.shared.journal := by
  cases e with
  | queue ino data =>
    obtain rfl := Option.some.inj hStep
    exact Shared.moves_of_eq (s.shared.journal_enqueue ino data)
  | grab t ino =>
    obtain ⟨_, _, _, rfl⟩ := Sys.step_grab hStep
    exact .aside rfl rfl rfl
  | start t q =>
    obtain ⟨-, rfl⟩ := Sys.step_start hStep
    exact .aside rfl rfl rfl
  | take t =>
    obtain ⟨-, rfl⟩ := Sys.step_take hStep
    exact .aside rfl rfl rfl
  | run fate =>
    obtain ⟨t, f, rest, _, _, rfl⟩ := Sys.step_run hStep
    exact s.shared.moves_step (s.threads t).ret fate f

--
-- Runs
--

/-- The block that a step wrote, as the disk has it then. `write_count` goes up with each block that
is written at `write_pos`, and never without. -/
def Sys.wrote (s s' : Sys) : List Block :=
  if s'.shared.journal.writeCount = s.shared.journal.writeCount then []
  else [s'.shared.journal.disk s.shared.journal.writePos]

/-- The blocks that a run writes, in order. What cannot happen in a state is passed over. -/
def Sys.writes (s : Sys) : List Event → List Block
  | [] => []
  | e :: es =>
    match s.step e with
    | none => s.writes es
    | some s' => s.wrote s' ++ s'.writes es

/-- The current block has the number `seq`, and records go behind its header. -/
structure BriefsJournal.Numbered (j : BriefsJournal) (seq : Nat) : Prop where
  seq    : blockSeq j.curBlock = seq
  offset : blockHeaderSize ≤ j.writeOffset

theorem BriefsJournal.disk_flushCurBlock (j : BriefsJournal) {i : Nat} (hi : i < journalBlockSize) :
    j.flushCurBlock.disk j.writePos i = j.curBlock i := by
  show (if j.writePos = j.writePos then fun i =>
    if i < journalBlockSize then j.curBlock i else j.disk j.writePos i else j.disk j.writePos) i = _
  rw [if_pos rfl]
  exact if_pos hi

/-- A step writes no block and keeps the number, or it writes the block with that number and the
next one has number 1. -/
theorem Sys.wrote_cases {s s' : Sys} {seq : Nat} (h : s.shared.journal.Numbered seq)
    (hMoves : s.shared.journal.Moves s'.shared.journal) :
    (s.wrote s' = [] ∧ s'.shared.journal.Numbered seq) ∨
      ∃ b, s.wrote s' = [b] ∧ blockSeq b = seq ∧ s'.shared.journal.Numbered 1 := by
  unfold Sys.wrote
  generalize s.shared.journal = j at *
  generalize s'.shared.journal = j' at *
  cases hMoves with
  | flush =>
    have hCount : j.flushCurBlock.writeCount ≠ j.writeCount := by
      have hPos := j.ring.steps_pos j.writePos
      show j.writeCount + j.ring.steps j.writePos ≠ j.writeCount
      omega
    refine Or.inr ⟨_, if_neg hCount, ?_, blockSeq_reset j.curBlock, Nat.le_refl _⟩
    rw [← h.seq]
    exact le32_congr fun i _ hHigh =>
      j.disk_flushCurBlock (by unfold journalBlockSize; omega)
  | put rec =>
    refine Or.inl ⟨if_pos rfl, ?_, Nat.le_trans h.offset (Nat.le_add_right _ _)⟩
    rw [blockSeq_putRecord h.offset, h.seq]
  | aside hBlock hOffset hCount =>
    refine Or.inl ⟨if_pos hCount, ?_, ?_⟩
    · rw [hBlock, h.seq]
    · rw [hOffset]
      exact h.offset

/-- The numbers of the blocks that a run writes: that of the current block, and then 1. -/
theorem numbers_writes {s : Sys} {seq : Nat} (h : s.shared.journal.Numbered seq) (es : List Event) :
    s.writes es = [] ∨ ∃ m, (s.writes es).map blockSeq = seq :: List.replicate m 1 := by
  induction es generalizing s seq with
  | nil => exact Or.inl rfl
  | cons e es ih =>
    unfold Sys.writes
    split
    · exact ih h
    · rename_i s' hStep
      rcases Sys.wrote_cases h (Sys.moves_step hStep) with ⟨hNone, hNext⟩ | ⟨b, hOne, hSeq, hNext⟩
      · rw [hNone]
        exact ih hNext
      · refine Or.inr ?_
        rw [hOne, List.singleton_append, List.map_cons, hSeq]
        rcases ih hNext with hNil | ⟨m, hRest⟩
        · exact ⟨0, by rw [hNil]; rfl⟩
        · exact ⟨m + 1, by rw [hRest]; rfl⟩

--
-- Increasing numbers
--

/-- A number that is greater, up to the wraparound of 32 bits: ahead by less than half the
range. -/
def Newer (old new : Nat) : Prop :=
  0 < (new + 2 ^ 32 - old) % 2 ^ 32 ∧ (new + 2 ^ 32 - old) % 2 ^ 32 < 2 ^ 31

instance : DecidableRel Newer := fun _ _ => inferInstanceAs (Decidable (_ ∧ _))

/-- Each block has a greater number than the one written before it. -/
def SeqsIncrease (blocks : List Block) : Prop := (blocks.map blockSeq).IsChain Newer

instance (blocks : List Block) : Decidable (SeqsIncrease blocks) :=
  inferInstanceAs (Decidable (List.IsChain _ _))

/-- The current block as `briefs_journal_init` leaves it; a replay only moves the cursors. -/
structure Sys.Opened (s : Sys) : Prop where
  block  : ∃ b : Block, s.shared.journal.curBlock = b.init
  offset : s.shared.journal.writeOffset = blockHeaderSize

theorem Sys.Opened.numbered {s : Sys} (h : s.Opened) : s.shared.journal.Numbered 0 := by
  obtain ⟨b, hBlock⟩ := h.block
  refine ⟨?_, Nat.le_of_eq h.offset.symm⟩
  rw [hBlock]
  exact blockSeq_init b

/-- In a run of any threads from a mount, the numbers of the blocks increase if and only if the run
writes no third block. -/
theorem block_seqs_increase_iff {start : Sys} (hOpened : start.Opened) (es : List Event) :
    SeqsIncrease (start.writes es) ↔ (start.writes es).length ≤ 2 := by
  unfold SeqsIncrease
  rcases numbers_writes hOpened.numbered es with hNil | ⟨m, hSeqs⟩
  · rw [hNil]
    simp
  · have hLen : (start.writes es).length = m + 1 := by
      rw [← List.length_map blockSeq, hSeqs, List.length_cons, List.length_replicate]
    rw [hSeqs, hLen]
    cases m with
    | zero => simp
    | succ m =>
      cases m with
      | zero => decide
      | succ m =>
        have hEqual : ¬Newer 1 1 := by decide
        simp [List.replicate_succ, hEqual]

/-- A journal of eight blocks that was just opened. -/
def openedSys : Sys :=
  { smallSys with
    shared := { smallSys.shared with
      journal := { smallJournal 0 with curBlock := Block.init fun _ => 0 } } }

theorem openedSys_opened : openedSys.Opened := ⟨⟨fun _ => 0, rfl⟩, rfl⟩

/-- A thread appends a record, and then syncs. -/
def appendAndSync : List Event :=
  let run : Event := .run ⟨none, none, false⟩
  [.start 0 (.write (.inodeFree 7)), .take 0, run,
    .start 0 (.sync true), .take 0, run, run, run, run, .take 0, run, .take 0, run, run]

/-- The first two blocks have the numbers 0 and 1. -/
theorem two_block_seqs :
    openedSys.Opened ∧ (openedSys.writes (appendAndSync ++ appendAndSync)).length = 2 ∧
      SeqsIncrease (openedSys.writes (appendAndSync ++ appendAndSync)) := by
  have hTwo : (openedSys.writes (appendAndSync ++ appendAndSync)).length = 2 := by decide
  refine ⟨openedSys_opened, hTwo, ?_⟩
  exact (block_seqs_increase_iff openedSys_opened _).mpr (Nat.le_of_eq hTwo)

def threeSyncs : List Event := appendAndSync ++ appendAndSync ++ appendAndSync

/-- The third block has the number of the second. -/
theorem third_block_seq :
    openedSys.Opened ∧ (openedSys.writes threeSyncs).map blockSeq = [0, 1, 1] ∧
      ¬SeqsIncrease (openedSys.writes threeSyncs) := by
  have hSeqs : (openedSys.writes threeSyncs).map blockSeq = [0, 1, 1] := by decide
  refine ⟨openedSys_opened, hSeqs, ?_⟩
  unfold SeqsIncrease
  rw [hSeqs]
  decide

end Briefs.Journal
