import Briefs.Journal.Readback
import Briefs.Journal.Threads

/-!
# BrieFS — the cursors of the journal

Whatever threads do to the journal, in whatever order they get the lock: the cursors stay on
blocks of the ring that records go to, and the current block holds whole records, as many as
its header counts. A thread that drops the lock takes no bound with it. What it keeps in its
frames is `own_next`, a block that `write_pos` has been on, and records that fit in an empty
block; the room in the current block is tested again in the step that copies the record.

## Results

* `Shared.Ok.step` — a step of any function keeps the invariant of the journal and of the frames.
* `Sys.Ok.step` — so does a step of any thread, and a snapshot that is queued or taken.
* `cursors_stay_in_ring` — the invariant in every state that is reached from a mount.
-/

namespace Briefs.Journal

variable {r : Ring} {past : Block} {j : BriefsJournal}

--
-- The journal
--

/-- The cursors are on blocks for records, the current block holds the records that its header
counts, up to `write_offset`, and the memory behind it is as it was. -/
structure BriefsJournal.Tidy (r : Ring) (past : Block) (j : BriefsJournal) : Prop where
  ring      : j.ring = r
  writePos  : r.Data j.writePos
  syncedPos : r.Data j.syncedPos
  logStart  : r.Data j.logStart
  logEnd    : r.Data j.logEnd
  records   : ∃ recs, HoldsRecords j.curBlock recs j.writeOffset
  past      : ∀ i, journalBlockSize ≤ i → j.curBlock i = past i

theorem reset_past (b : Block) {i : Nat} (hi : journalBlockSize ≤ i) : b.reset i = b i := by
  have hSize : journalBlockSize = 4096 := rfl
  unfold Block.reset
  rw [store_outside _ (Or.inr (by simp; omega)), store_outside _ (Or.inr (by simp; omega))]
  exact if_neg (Nat.not_lt.mpr hi)

theorem BriefsJournal.Tidy.flush (h : j.Tidy r past) : j.flushCurBlock.Tidy r past := by
  refine ⟨h.ring, ?_, h.syncedPos, h.logStart, h.logEnd, ⟨[], holdsRecords_reset j.curBlock⟩, ?_⟩
  · show r.Data (j.ring.advance j.writePos)
    rw [h.ring]
    exact h.writePos.advance
  · intro i hi
    show j.curBlock.reset i = past i
    rw [reset_past j.curBlock hi]
    exact h.past i hi

theorem BriefsJournal.Tidy.put (h : j.Tidy r past) {rec : Record} (hFits : rec.Fits)
    (hRoom : j.writeOffset + (recordHeaderSize + rec.data.length) ≤ journalBlockSize) :
    (j.putRecord rec).Tidy r past := by
  obtain ⟨recs, hRecs⟩ := h.records
  refine ⟨h.ring, h.writePos, h.syncedPos, h.logStart, h.logEnd, ⟨_, hRecs.put hFits hRoom⟩, ?_⟩
  intro i hi
  have hSize : journalBlockSize = 4096 := rfl
  have hLen := rec.length_bytes
  show ((j.curBlock.store j.writeOffset rec.bytes).store 8 _) i = past i
  rw [store_outside _ (Or.inr (by simp; omega)), store_outside _ (Or.inr (by omega))]
  exact h.past i hi

theorem BriefsJournal.Tidy.retire (h : j.Tidy r past) : j.retire.Tidy r past :=
  ⟨h.ring, h.writePos, h.syncedPos, h.syncedPos, h.syncedPos, h.records, h.past⟩

theorem BriefsJournal.Tidy.commit (h : j.Tidy r past) {own : Nat} (hOwn : r.Data own) (count : Nat) :
    { j with logEnd := own, committedCount := count }.Tidy r past :=
  ⟨h.ring, h.writePos, h.syncedPos, h.logStart, hOwn, h.records, h.past⟩

theorem BriefsJournal.Tidy.claim (h : j.Tidy r past) {own : Nat} (start : Nat) (hOwn : r.Data own) :
    (j.claim start own).Tidy r past := by
  unfold BriefsJournal.claim
  split
  · exact ⟨h.ring, h.writePos, hOwn, h.logStart, h.logEnd, h.records, h.past⟩
  · exact h

theorem BriefsJournal.Tidy.settle (h : j.Tidy r past) : { j with sinceCheckpoint := 0 }.Tidy r past :=
  ⟨h.ring, h.writePos, h.syncedPos, h.logStart, h.logEnd, h.records, h.past⟩

--
-- Frames
--

/-- A disk inode has 512 bytes. -/
def Snapshot.Whole (snap : Snapshot) : Prop := snap.data.length = 512

theorem Snapshot.Whole.fits {snap : Snapshot} (h : snap.Whole) : snap.record.Fits :=
  Call.record_fits (c := .inodeFull snap.ino snap.data) h

/-- What a function keeps while others run. -/
def Frame.Ok (r : Ring) : Frame → Prop
  | .write rec _ => rec.Fits
  | .sync _ (.forced _ _ own _) => r.Data own
  | .sync _ (.flushed _ _ own) => r.Data own
  | .drain _ _ (.next batch _) => ∀ snap ∈ batch, snap.Whole
  | .drain _ _ (.await snap batch _) => snap.Whole ∧ ∀ snap ∈ batch, snap.Whole
  | .flushOne snap _ => snap.Whole
  | _ => True

def Act.Ok (r : Ring) : Act → Prop
  | .goto f => f.Ok r
  | .call f callee => f.Ok r ∧ callee.Ok r
  | .drop f => f.Ok r
  | .ret _ => True

structure Shared.Ok (r : Ring) (past : Block) (sh : Shared) : Prop where
  tidy  : sh.journal.Tidy r past
  queue : ∀ snap ∈ sh.queue, snap.Whole

/-- The state after a step, and what the thread does next. -/
def StepOk (r : Ring) (past : Block) (x : Shared × Act) : Prop := x.1.Ok r past ∧ x.2.Ok r

variable {sh : Shared} {ret : Option Errno} {fate : Fate}

theorem Shared.Ok.flushFor (h : sh.Ok r past) {rec : Record} (hFits : rec.Fits) (n : Nat) :
    StepOk r past (sh.flushFor fate rec n) := by
  unfold Shared.flushFor
  cases fate.before with
  | some e => exact ⟨h, trivial⟩
  | none =>
    dsimp only
    split
    · exact ⟨⟨h.tidy.flush, h.queue⟩, hFits, trivial⟩
    · exact ⟨⟨h.tidy.flush, h.queue⟩, hFits⟩

/-- The room is tested in the step that copies the record. -/
theorem Shared.Ok.put (h : sh.Ok r past) {rec : Record} (hFits : rec.Fits) (hRoom : ¬sh.Short rec) :
    StepOk r past ({ sh with journal := sh.journal.putRecord rec }, .ret none) :=
  ⟨⟨h.tidy.put hFits (Nat.not_lt.mp hRoom), h.queue⟩, trivial⟩

theorem Shared.Ok.writeStep (h : sh.Ok r past) {rec : Record} (hFits : rec.Fits) (pc : WriteAt) :
    StepOk r past (sh.writeStep ret fate rec pc) := by
  unfold Shared.writeStep
  cases pc with
  | entry =>
    dsimp only
    split
    · exact ⟨h, trivial⟩
    · split
      · exact h.flushFor hFits 0
      · rename_i hRoom
        exact h.put hFits hRoom
  | await n =>
    cases ret with
    | some e => exact ⟨h, trivial⟩
    | none => exact ⟨h, hFits⟩
  | loop n =>
    dsimp only
    split
    · split
      · exact ⟨h, trivial⟩
      · exact h.flushFor hFits (n + 1)
    · rename_i hRoom
      exact h.put hFits hRoom

theorem Shared.Ok.roomStep (h : sh.Ok r past) (pc : RoomAt) :
    StepOk r past (sh.roomStep ret fate pc) := by
  unfold Shared.roomStep
  cases pc with
  | entry =>
    dsimp only
    split
    · exact ⟨h, trivial⟩
    · split
      · exact ⟨h, trivial⟩
      · exact ⟨h, trivial⟩
  | top =>
    dsimp only
    split
    · exact ⟨h, trivial⟩
    · exact ⟨h, trivial, trivial⟩
  | await =>
    cases ret with
    | some e => exact ⟨h, trivial⟩
    | none => exact ⟨h, trivial⟩
  | test =>
    dsimp only
    split
    · exact ⟨h, trivial⟩
    · split
      · exact ⟨h, trivial⟩
      · exact ⟨h, trivial⟩
  | slept =>
    dsimp only
    split
    · exact ⟨h, trivial⟩
    · exact ⟨h, trivial⟩

theorem Shared.Ok.settle (h : sh.Ok r past) : StepOk r past sh.settle :=
  ⟨⟨h.tidy.settle, h.queue⟩, trivial⟩

theorem Shared.Ok.checkpointStep (h : sh.Ok r past) (pc : CheckAt) :
    StepOk r past (sh.checkpointStep ret fate pc) := by
  unfold Shared.checkpointStep
  cases pc with
  | entry =>
    dsimp only
    split
    · exact ⟨h, trivial⟩
    · exact ⟨⟨h.tidy, h.queue⟩, trivial⟩
  | flushed =>
    cases fate.before with
    | some e => exact ⟨⟨h.tidy, h.queue⟩, trivial⟩
    | none =>
      cases fate.after with
      | some e => exact ⟨⟨h.tidy.retire, h.queue⟩, trivial⟩
      | none =>
        dsimp only
        split
        · exact ⟨⟨h.tidy.retire, h.queue⟩, trivial, trivial⟩
        · exact Shared.Ok.settle ⟨h.tidy.retire, h.queue⟩
  | await =>
    cases ret with
    | some e => exact ⟨⟨h.tidy, h.queue⟩, trivial⟩
    | none => exact h.settle

theorem Shared.Ok.syncStep (h : sh.Ok r past) {checkpoint : Bool} {pc : SyncAt}
    (hFrame : (Frame.sync checkpoint pc).Ok r) :
    StepOk r past (sh.syncStep ret fate checkpoint pc) := by
  unfold Shared.syncStep
  cases pc with
  | entry => exact ⟨h, trivial, trivial⟩
  | drained since =>
    cases ret with
    | some e => exact ⟨h, trivial⟩
    | none =>
      dsimp only
      split
      · exact ⟨h, trivial⟩
      · split
        · exact ⟨h, trivial, trivial⟩
        · exact ⟨h, trivial⟩
  | roomMade since =>
    cases ret with
    | some e => exact ⟨h, trivial⟩
    | none =>
      dsimp only
      split
      · exact ⟨h, trivial⟩
      · exact ⟨h, trivial⟩
  | capture since =>
    cases fate.before with
    | some e => exact ⟨h, trivial⟩
    | none =>
      -- The frame takes the block that `write_pos` is on now.
      exact ⟨⟨h.tidy.flush, h.queue⟩, h.tidy.flush.writePos⟩
  | forced since start own count =>
    have hOwn : r.Data own := hFrame
    cases fate.before with
    | some e => exact ⟨h, trivial⟩
    | none =>
      dsimp only
      split
      · cases fate.after with
        | some e => exact ⟨⟨h.tidy.commit hOwn sh.journal.committedCount, h.queue⟩, trivial⟩
        | none => exact ⟨⟨h.tidy.commit hOwn count, h.queue⟩, hOwn⟩
      · exact ⟨h, hOwn⟩
  | flushed since start own =>
    have hOwn : r.Data own := hFrame
    cases fate.before with
    | some e => exact ⟨h, trivial⟩
    | none =>
      dsimp only
      split
      · exact ⟨⟨h.tidy.claim start hOwn, h.queue⟩, trivial, trivial⟩
      · exact ⟨⟨h.tidy.claim start hOwn, h.queue⟩, trivial⟩
  | tail =>
    dsimp only
    split
    · exact ⟨h, trivial, trivial⟩
    · exact ⟨h, trivial⟩
  | last => exact ⟨h, trivial⟩

theorem Shared.Ok.noteWritten (h : sh.Ok r past) (snap : Snapshot) (res : Option Errno) :
    (sh.noteWritten snap res).Ok r past := by
  unfold Shared.noteWritten
  cases res with
  | none => exact ⟨h.tidy, h.queue⟩
  | some e => exact ⟨h.tidy, h.queue⟩

theorem Shared.Ok.drainStep (h : sh.Ok r past) {since round : Nat} {pc : DrainAt}
    (hFrame : (Frame.drain since round pc).Ok r) :
    StepOk r past (sh.drainStep ret fate since round pc) := by
  cases pc with
  | start =>
    unfold Shared.drainStep
    dsimp only
    split
    · exact ⟨h, trivial⟩
    · cases fate.before with
      | some e => exact ⟨h, trivial⟩
      | none => exact ⟨h, trivial⟩
  | take count =>
    refine ⟨⟨h.tidy, ?_⟩, ?_⟩
    · intro snap hIn
      exact h.queue snap (List.mem_of_mem_drop hIn)
    · intro snap hIn
      exact h.queue snap (List.mem_of_mem_take hIn)
  | next batch err =>
    cases batch with
    | nil =>
      cases err with
      | some e => exact ⟨h, trivial⟩
      | none => exact ⟨h, trivial⟩
    | cons snap batch =>
      have hBatch : ∀ x ∈ snap :: batch, x.Whole := hFrame
      have hSnap := hBatch snap List.mem_cons_self
      exact ⟨h, ⟨hSnap, fun x hx => hBatch x (List.mem_cons_of_mem _ hx)⟩, hSnap.fits⟩
  | await snap batch err =>
    obtain ⟨-, hBatch⟩ : snap.Whole ∧ ∀ x ∈ batch, x.Whole := hFrame
    exact ⟨h.noteWritten snap ret, hBatch⟩

/-- A step of the function at the top of a stack. -/
theorem Shared.Ok.step (h : sh.Ok r past) (ret : Option Errno) (fate : Fate) {f : Frame}
    (hFrame : f.Ok r) : StepOk r past (sh.step ret fate f) := by
  cases f with
  | write rec pc => exact h.writeStep hFrame pc
  | room pc => exact h.roomStep pc
  | checkpoint pc => exact h.checkpointStep pc
  | sync checkpoint pc => exact h.syncStep hFrame
  | drain since round pc => exact h.drainStep hFrame
  | flushOne snap called =>
    have hWhole : snap.Whole := hFrame
    show StepOk r past (sh.flushOneStep ret fate snap called)
    unfold Shared.flushOneStep
    cases called with
    | true => exact ⟨h.noteWritten snap ret, trivial⟩
    | false =>
      cases fate.before with
      | some e => exact ⟨h.noteWritten snap (some e), trivial⟩
      | none => exact ⟨h, hWhole, hWhole.fits⟩
  | flushAll called =>
    cases called with
    | true => exact ⟨h, trivial⟩
    | false => exact ⟨h, trivial, trivial⟩

--
-- Threads
--

theorem Act.apply_stack (act : Act) (ret : Option Errno) (rest : List Frame) :
    (act.apply ret rest).1.stack = act.frames ++ rest := by
  cases act with
  | goto f | call f callee | drop f | ret r => rfl

theorem Sys.setThread_same (s : Sys) (t : Nat) (th : Thread) :
    (s.setThread t th).threads t = th := by
  simp only [Sys.setThread, Function.update_self]

theorem Sys.setThread_other (s : Sys) {t t' : Nat} (h : t' ≠ t) (th : Thread) :
    (s.setThread t th).threads t' = s.threads t' := by
  simp only [Sys.setThread, Function.update_of_ne h]

/-- The invariant of the journal and of every function that a thread is in. -/
structure Sys.Ok (r : Ring) (past : Block) (s : Sys) : Prop where
  shared : s.shared.Ok r past
  frames : ∀ t, ∀ f ∈ (s.threads t).stack, f.Ok r

variable {s s' : Sys}

theorem Sys.Ok.setThread (h : s.Ok r past) {sh : Shared} (hShared : sh.Ok r past) (t : Nat)
    {th : Thread} (hFrames : ∀ f ∈ th.stack, f.Ok r) (holder : Option Nat) :
    Sys.Ok r past { (s.setThread t th) with shared := sh, holder := holder } := by
  refine ⟨hShared, fun u f hf => ?_⟩
  change f ∈ (Function.update s.threads t th u).stack at hf
  by_cases hu : u = t
  · rw [hu, Function.update_self] at hf
    exact hFrames f hf
  · rw [Function.update_of_ne hu] at hf
    exact h.frames u f hf

theorem Act.Ok.apply {act : Act} (h : act.Ok r) {rest : List Frame} (hRest : ∀ f ∈ rest, f.Ok r) :
    ∀ f ∈ (act.apply ret rest).1.stack, f.Ok r := by
  cases act with
  | goto f => exact List.forall_mem_cons.mpr ⟨h, hRest⟩
  | call f callee => exact List.forall_mem_cons.mpr ⟨h.2, List.forall_mem_cons.mpr ⟨h.1, hRest⟩⟩
  | drop f => exact List.forall_mem_cons.mpr ⟨h, hRest⟩
  | ret r => exact hRest

theorem Request.frame_ok {q : Request} {t : Nat} (h : (Event.start t q).Allowed) :
    q.frame.Ok r := by
  cases q with
  | write c => exact Call.record_fits h
  | sync periodic => exact trivial
  | checkpoint => exact trivial
  | flushAll => exact trivial

theorem Shared.Ok.enqueue (h : sh.Ok r past) (ino : Nat) {data : List UInt8}
    (hData : data.length = 512) : (sh.enqueue ino data).Ok r past := by
  unfold Shared.enqueue
  cases sh.queue.find? fun x => x.ino == ino with
  | some slot =>
    refine ⟨h.tidy, fun snap hIn => ?_⟩
    obtain ⟨x, hx, rfl⟩ := List.mem_map.mp hIn
    split
    · exact hData
    · exact h.queue x hx
  | none =>
    refine ⟨h.tidy, fun snap hIn => ?_⟩
    rcases List.mem_append.mp hIn with hOld | hLast
    · exact h.queue snap hOld
    · rw [List.mem_singleton.mp hLast]
      exact hData

/-- A step of a thread, or of the queue. -/
theorem Sys.Ok.step (h : s.Ok r past) {e : Event} (hAllowed : e.Allowed)
    (hStep : s.step e = some s') : s'.Ok r past := by
  cases e with
  | queue ino data =>
    obtain rfl := Option.some.inj hStep
    exact ⟨h.shared.enqueue ino hAllowed, h.frames⟩
  | grab t ino =>
    obtain ⟨snap, _, hFind, rfl⟩ := Sys.step_grab hStep
    have hWhole := h.shared.queue snap (List.mem_of_find?_eq_some hFind)
    have hLeft : Shared.Ok r past
        { s.shared with queue := s.shared.queue.filter fun x => x.ino != ino } :=
      ⟨h.shared.tidy, fun x hx => h.shared.queue x (List.mem_filter.mp hx).1⟩
    refine h.setThread hLeft t ?_ s.holder
    exact List.forall_mem_cons.mpr ⟨hWhole, fun _ hf => absurd hf List.not_mem_nil⟩
  | start t q =>
    obtain ⟨-, rfl⟩ := Sys.step_start hStep
    refine h.setThread h.shared t ?_ s.holder
    exact List.forall_mem_cons.mpr
      ⟨Request.frame_ok hAllowed, fun _ hf => absurd hf List.not_mem_nil⟩
  | take t =>
    obtain ⟨-, rfl⟩ := Sys.step_take hStep
    exact ⟨h.shared, h.frames⟩
  | run fate =>
    obtain ⟨t, f, rest, _, hStack, rfl⟩ := Sys.step_run hStep
    have hFrames := h.frames t
    rw [hStack] at hFrames
    obtain ⟨hTop, hRest⟩ := List.forall_mem_cons.mp hFrames
    obtain ⟨hShared, hAct⟩ := h.shared.step (s.threads t).ret fate hTop
    exact h.setThread hShared t (hAct.apply hRest) _

/-- A mounted journal that no thread has entered: `briefs_journal_init` leaves the cursors at the
start of the window, a replay at its end, and the current block is empty or holds the records that
a replay appended when it freed trie pages. -/
structure Sys.Mounted (s : Sys) : Prop where
  writePos : s.shared.journal.writePos = s.shared.journal.logStart ∨
    s.shared.journal.writePos = s.shared.journal.logEnd
  synced   : s.shared.journal.syncedPos = s.shared.journal.writePos
  block    : ∃ recs, HoldsRecords s.shared.journal.curBlock recs s.shared.journal.writeOffset
  queue    : s.shared.queue = []
  idle     : ∀ t, (s.threads t).stack = []

theorem Sys.Mounted.ok (h : s.Mounted)
    (hStart : s.shared.journal.ring.Data s.shared.journal.logStart)
    (hEnd : s.shared.journal.ring.Data s.shared.journal.logEnd) :
    s.Ok s.shared.journal.ring s.shared.journal.curBlock := by
  have hPos : s.shared.journal.ring.Data s.shared.journal.writePos := by
    rcases h.writePos with hEq | hEq
    · rw [hEq]
      exact hStart
    · rw [hEq]
      exact hEnd
  refine ⟨⟨⟨rfl, hPos, ?_, hStart, hEnd, h.block, fun _ _ => rfl⟩, ?_⟩, ?_⟩
  · rw [h.synced]
    exact hPos
  · rw [h.queue]
    exact fun _ hx => absurd hx List.not_mem_nil
  · intro t
    rw [h.idle t]
    exact fun _ hf => absurd hf List.not_mem_nil

theorem Sys.Ok.reach (h : s.Ok r past) (hReach : Sys.Reach (fun _ e => e.Allowed) s s') :
    s'.Ok r past := by
  induction hReach with
  | refl => exact h
  | step _ hAllowed hStep ih => exact ih.step hAllowed hStep

/-- In every state that threads lead to from a mount whose window lies in the ring: the cursors
lie in the ring and not on the checkpoint block, `write_offset` is within the current block,
nothing was written behind it, and its header counts the whole records that it holds. -/
theorem cursors_stay_in_ring {start s : Sys} (hMount : start.Mounted)
    (hStart : start.shared.journal.ring.Data start.shared.journal.logStart)
    (hEnd : start.shared.journal.ring.Data start.shared.journal.logEnd)
    (hReach : Sys.Reach (fun _ e => e.Allowed) start s) :
    (∀ pos, pos = s.shared.journal.writePos ∨ pos = s.shared.journal.syncedPos ∨
        pos = s.shared.journal.logStart ∨ pos = s.shared.journal.logEnd →
      start.shared.journal.ring.Mem pos ∧ pos ≠ start.shared.journal.ring.checkpointBlock) ∧
    s.shared.journal.writeOffset ≤ journalBlockSize ∧
    (∀ i, journalBlockSize ≤ i →
      s.shared.journal.curBlock i = start.shared.journal.curBlock i) ∧
    ∃ recs, Laid s.shared.journal.curBlock blockHeaderSize recs s.shared.journal.writeOffset ∧
      recordCount s.shared.journal.curBlock = recs.length := by
  obtain ⟨⟨hTidy, -⟩, -⟩ := (hMount.ok hStart hEnd).reach hReach
  obtain ⟨recs, hRecs⟩ := hTidy.records
  refine ⟨?_, hRecs.room, hTidy.past, recs, hRecs.laid, hRecs.count⟩
  rintro pos (rfl | rfl | rfl | rfl)
  · exact ⟨hTidy.writePos.mem, hTidy.writePos.log⟩
  · exact ⟨hTidy.syncedPos.mem, hTidy.syncedPos.log⟩
  · exact ⟨hTidy.logStart.mem, hTidy.logStart.log⟩
  · exact ⟨hTidy.logEnd.mem, hTidy.logEnd.log⟩

/-- A journal that was just mounted. -/
def smallSys : Sys :=
  ⟨⟨smallJournal 0, false, [], 0, [], [], []⟩, none, fun _ => ⟨none, []⟩⟩

theorem smallSys_mounted : smallSys.Mounted :=
  ⟨Or.inl rfl, rfl, ⟨[], holdsRecords_reset _⟩, rfl, fun _ => rfl⟩

/-- A thread appends a record; the block then counts one more. -/
theorem cursors_stay_small :
    smallSys.Mounted ∧ smallSys.shared.journal.ring.Data 106 ∧
      ∃ s, Sys.Reach (fun _ e => e.Allowed) smallSys s ∧
        s.shared.journal.writeOffset = 64 ∧ recordCount s.shared.journal.curBlock = 1 ∧
        s.shared.journal.writeOffset ≤ journalBlockSize := by
  have hData : smallSys.shared.journal.ring.Data 106 :=
    ⟨by show 100 ≤ 106 ∧ 106 < 108; omega, by show 106 ≠ 107; omega⟩
  refine ⟨smallSys_mounted, hData, ?_⟩
  have hStart : Sys.Reach (fun _ e => e.Allowed) smallSys
      (smallSys.setThread 0 ⟨none, [.write (Call.inodeFree 7).record .entry]⟩) :=
    .step (e := .start 0 (.write (.inodeFree 7))) .refl trivial rfl
  have hTake := Sys.Reach.step (e := .take 0) hStart trivial rfl
  have hRun := Sys.Reach.step (e := .run ⟨none, none, false⟩) hTake trivial rfl
  exact ⟨_, hRun, by decide, by decide,
    (cursors_stay_in_ring smallSys_mounted hData hData hRun).2.1⟩

end Briefs.Journal
