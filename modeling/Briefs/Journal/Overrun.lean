import Briefs.Journal.Moves

/-!
# BrieFS — going around the ring

The live records are in the window of the superblock, from `journal_log_start` to
`journal_log_end` around the ring. A flush and a sync write at `write_pos`, which must not be in
the window. `write_pos` is not behind the end of the window, counted from its start, and a flush
that brings it to the start asks for room: a checkpoint then empties the window. So the window is
overrun only if a block is written before that checkpoint has retired it, or if it never does.

The code does not rule this out. A checkpoint drops the lock before it retires, and while it is in
flight the tests for room are off; a sync does not repeat its test after a checkpoint; and a
checkpoint may fail. `Sys.Guarded` says that none of this meets a full ring.

## Results

* `Shared.deed_step` — what a step does to the cursors.
* `Sys.InStep.step` — `write_pos` stays in step with the window, or a thread is about to retire it.
* `ring_not_overrun` — in guarded runs no block of the window is written.
* `ring_overrun` — in a run of three threads one is.
-/

namespace Briefs.Journal

variable {r : Ring} {past : Block} {j j' : BriefsJournal} {s s' : Sys}

--
-- The window
--

/-- `pos` is in the window of the superblock, taken around the ring. -/
def BriefsJournal.InLog (j : BriefsJournal) (pos : Nat) : Prop :=
  if j.logStart ≤ j.logEnd then j.logStart ≤ pos ∧ pos < j.logEnd
  else j.logStart ≤ pos ∨ pos < j.logEnd

instance (pos : Nat) : Decidable (j.InLog pos) := inferInstanceAs (Decidable (ite _ _ _))

/-- The way from `lo` to `pos` around the ring, in blocks for records. -/
def Ring.ahead (r : Ring) (lo pos : Nat) : Nat :=
  if lo ≤ pos then pos - lo else pos + (r.journalBlocks - 1) - lo

@[simp]
theorem Ring.ahead_self (r : Ring) (lo : Nat) : r.ahead lo lo = 0 := by simp [Ring.ahead]

theorem inLog_iff {pos : Nat} (hStart : r.Data j.logStart) (hEnd : r.Data j.logEnd)
    (hPos : r.Data pos) :
    j.InLog pos ↔ r.ahead j.logStart pos < r.ahead j.logStart j.logEnd := by
  have hStart := hStart.bounds
  have hEnd := hEnd.bounds
  have hPos := hPos.bounds
  unfold BriefsJournal.InLog Ring.ahead
  split_ifs <;> omega

/-- A step that does not come back to `lo` leads one block further. -/
theorem Ring.Data.ahead_advance {lo pos : Nat} (hLo : r.Data lo) (hPos : r.Data pos)
    (hNe : r.advance pos ≠ lo) : r.ahead lo (r.advance pos) = r.ahead lo pos + 1 := by
  have hLo := hLo.bounds
  have hBounds := hPos.bounds
  rw [hPos.advance_eq] at hNe ⊢
  unfold Ring.ahead
  split_ifs at hNe ⊢ <;> omega

--
-- Steps
--

/-- The window ends at `own`. -/
structure BriefsJournal.Commits (j j' : BriefsJournal) (own count : Nat) : Prop where
  later          : j.committedCount < count
  apart          : own ≠ j.logStart
  writePos       : j'.writePos = j.writePos
  writeCount     : j'.writeCount = j.writeCount
  committedCount : j.committedCount ≤ j'.committedCount
  logStart       : j'.logStart = j.logStart
  logEnd         : j'.logEnd = own

/-- `own_next` and `own_count` of a sync that waits for its writes. -/
def Frame.captured : Frame → Option (Nat × Nat)
  | .sync _ (.forced _ _ own count) => some (own, count)
  | _ => none

/-- The step leaves no frame with something captured. -/
def Act.Bare (act : Act) : Prop := ∀ g ∈ act.frames, g.captured = none

@[simp]
theorem Act.bare_goto (f : Frame) : (Act.goto f).Bare ↔ f.captured = none := by
  simp [Act.Bare, Act.frames]

@[simp]
theorem Act.bare_call (f callee : Frame) :
    (Act.call f callee).Bare ↔ callee.captured = none ∧ f.captured = none := by
  simp [Act.Bare, Act.frames]

@[simp]
theorem Act.bare_drop (f : Frame) : (Act.drop f).Bare ↔ f.captured = none := by
  simp [Act.Bare, Act.frames]

@[simp]
theorem Act.bare_ret (r : Option Errno) : (Act.ret r).Bare := by simp [Act.Bare, Act.frames]

/-- What a step does to the cursors: nothing; a record is short of room and the current block is
written, up to the start of the window or not; a sync captures the block; it commits; a checkpoint
retires the window. -/
inductive Shared.Deed (sh : Shared) (fate : Fate) : Frame → Shared × Act → Prop where
  | rest {f : Frame} {sh' : Shared} {act : Act} (hRests : sh.journal.Rests sh'.journal)
      (hBare : act.Bare) (hFailed : f = .checkpoint .flushed → fate.before ≠ none) :
      sh.Deed fate f (sh', act)
  | lap {rec : Record} {pc : WriteAt} {n : Nat} (hShort : sh.Short rec)
      (hFull : sh.journal.flushCurBlock.writePos = sh.journal.logStart) :
      sh.Deed fate (.write rec pc) ({ sh with journal := sh.journal.flushCurBlock },
        .call (.write rec (.await n)) (.room .entry))
  | flush {rec : Record} {pc : WriteAt} {n : Nat} (hShort : sh.Short rec)
      (hRoom : sh.journal.flushCurBlock.writePos ≠ sh.journal.logStart) :
      sh.Deed fate (.write rec pc) ({ sh with journal := sh.journal.flushCurBlock },
        .goto (.write rec (.loop n)))
  | capture {checkpoint : Bool} {since : Nat} :
      sh.Deed fate (.sync checkpoint (.capture since))
        ({ sh with journal := sh.journal.flushCurBlock },
          .drop (.sync checkpoint (.forced since sh.journal.syncedPos
            sh.journal.flushCurBlock.writePos sh.journal.flushCurBlock.writeCount)))
  | commit {checkpoint : Bool} {since start own count : Nat} {sh' : Shared} {act : Act}
      (hCommits : sh.journal.Commits sh'.journal own count)
      (hSaved : fate.after = none → sh'.journal.committedCount = count) (hBare : act.Bare) :
      sh.Deed fate (.sync checkpoint (.forced since start own count)) (sh', act)
  | retire {sh' : Shared} {act : Act} (hOk : fate.before = none)
      (hRetired : sh.journal.Retired sh'.journal) (hBare : act.Bare) :
      sh.Deed fate (.checkpoint .flushed) (sh', act)

theorem Frame.captured_of_owes {f : Frame} (h : f.owes = false) : f.captured = none := by
  cases f with
  | sync checkpoint pc =>
    cases pc with
    | forced since start own count => exact Bool.noConfusion h
    | entry | drained | roomMade | capture | flushed | tail | last => rfl
  | write | room | checkpoint | drain | flushOne | flushAll => rfl

theorem Act.Free.bare {act : Act} (h : act.Free) : act.Bare :=
  fun g hg => Frame.captured_of_owes (h g hg)

theorem rests_claim (j : BriefsJournal) (start own : Nat) : j.Rests (j.claim start own) := by
  unfold BriefsJournal.claim
  split
  · exact ⟨rfl, rfl, rfl, rfl, rfl⟩
  · exact .refl j

/-- What a step of any function does to the cursors. -/
theorem Shared.deed_step (sh : Shared) (ret : Option Errno) (fate : Fate) (f : Frame) :
    sh.Deed fate f (sh.step ret fate f) := by
  have hMove := sh.move_step ret fate f
  generalize sh.step ret fate f = x at hMove ⊢
  cases hMove with
  | idle hIdles hFree hFailed => exact .rest hIdles.rests hFree.bare hFailed
  | put => exact .rest ⟨rfl, rfl, rfl, rfl, rfl⟩ (by simp) Frame.noConfusion
  | lap hShort hFull => exact .lap hShort hFull
  | flush hShort hRoom => exact .flush hShort hRoom
  | capture => exact .capture
  | commit hOk hSaved hLater hApart =>
    exact .commit ⟨hLater, hApart, rfl, rfl, Nat.le_of_lt hLater, rfl, rfl⟩ (fun _ => rfl)
      (by simp [Frame.captured])
  | torn hTorn hLater hApart =>
    exact .commit ⟨hLater, hApart, rfl, rfl, Nat.le_refl _, rfl, rfl⟩
      (fun hSaved => absurd hSaved hTorn) (by simp)
  | skip hOk hSkip => exact .rest (.refl _) (by simp [Frame.captured]) Frame.noConfusion
  | claim hLeft =>
    refine .rest (rests_claim _ _ _) (fun g hg => ?_) Frame.noConfusion
    rcases hLeft g hg with rfl | hFree
    · rfl
    · exact Frame.captured_of_owes hFree
  | wait hLeft =>
    refine .rest (.refl _) (fun g hg => ?_) Frame.noConfusion
    rcases hLeft g hg with rfl | hFree
    · rfl
    · exact Frame.captured_of_owes hFree
  | retire hOk hEmpties hFree => exact .retire hOk hEmpties.retired hFree.bare

--
-- The condition
--

/-- A checkpoint has dropped the lock and has not retired the window yet. -/
def Sys.Retiring (s : Sys) : Prop :=
  ∃ t rest, (s.threads t).stack = .checkpoint .flushed :: rest

/-- Nothing goes on in a full ring that the code relies on not to: no block is written at the start
of the window before a checkpoint has retired it, and that checkpoint does not fail; an append that
waits for room finds no checkpoint in flight; and a sync that writes has room. -/
def Sys.GuardedTop (s : Sys) (fate : Fate) : Frame → Prop
  | .write rec _ =>
    s.shared.Short rec → s.shared.journal.writePos = s.shared.journal.logStart → ¬s.Retiring
  | .sync _ (.capture _) =>
    s.shared.journal.needsRoom = false ∧
      (s.shared.journal.writePos = s.shared.journal.logStart → ¬s.Retiring)
  | .room .top => s.shared.inCheckpoint = false
  | .checkpoint .flushed =>
    s.shared.journal.writePos = s.shared.journal.logStart → fate.before = none
  | _ => True

def Sys.Guarded (s : Sys) : Event → Prop
  | .run fate =>
    ∀ t f rest, s.holder = some t → (s.threads t).stack = f :: rest → s.GuardedTop fate f
  | _ => True

--
-- The invariant
--

/-- The window ends no later than `write_pos`, counted from its start, and so does what syncs have
captured and may still commit. -/
structure Sys.Paced (r : Ring) (s : Sys) : Prop where
  window : r.ahead s.shared.journal.logStart s.shared.journal.logEnd ≤
    r.ahead s.shared.journal.logStart s.shared.journal.writePos
  syncs  : ∀ t, ∀ f ∈ (s.threads t).stack, ∀ own count, f.captured = some (own, count) →
    s.shared.journal.committedCount < count →
      r.ahead s.shared.journal.logStart own ≤
        r.ahead s.shared.journal.logStart s.shared.journal.writePos

/-- The thread with the lock is on its way to a checkpoint. -/
def Shared.Turning (sh : Shared) : Frame → Prop
  | .room .entry => True
  | .room .top => True
  | .checkpoint .entry => sh.inCheckpoint = false
  | _ => False

/-- The ring is full, and a thread is about to retire the window. -/
structure Sys.Closing (s : Sys) : Prop where
  full  : s.shared.journal.writePos = s.shared.journal.logStart
  phase : (∃ t f rest, s.holder = some t ∧ (s.threads t).stack = f :: rest ∧ s.shared.Turning f) ∨
    s.Retiring

/-- `write_count` is not less than it was when a sync captured it. -/
def Sys.Counted (s : Sys) : Prop :=
  ∀ t, ∀ f ∈ (s.threads t).stack, ∀ own count, f.captured = some (own, count) →
    count ≤ s.shared.journal.writeCount

structure Sys.InStep (r : Ring) (s : Sys) : Prop where
  counted : s.Counted
  state   : s.Paced r ∨ s.Closing

--
-- A step of the thread with the lock
--

/-- The system after a step of thread `t` that ends in `sh'` and `act`. -/
def Sys.stepped (s : Sys) (t : Nat) (ret : Option Errno) (rest : List Frame) (sh' : Shared)
    (act : Act) : Sys :=
  { (s.setThread t (act.apply ret rest).1) with
    shared := sh'
    holder := if (act.apply ret rest).2 then some t else none }

section Top

variable {t : Nat} {ret : Option Errno} {f : Frame} {rest : List Frame} {sh' : Shared} {act : Act}
  {fate : Fate}

theorem Sys.stepped_same :
    ((s.stepped t ret rest sh' act).threads t).stack = act.frames ++ rest := by
  show ((s.setThread t (act.apply ret rest).1).threads t).stack = _
  rw [Sys.setThread_same, Act.apply_stack]

theorem Sys.stepped_other {u : Nat} (hNe : u ≠ t) :
    (s.stepped t ret rest sh' act).threads u = s.threads u := s.setThread_other hNe _

/-- A frame after the step is one that the step left, or one that was there. -/
theorem Sys.mem_stepped (hStack : (s.threads t).stack = f :: rest) {u : Nat} {g : Frame}
    (hg : g ∈ ((s.stepped t ret rest sh' act).threads u).stack) :
    g ∈ act.frames ∨ g ∈ (s.threads u).stack := by
  by_cases hu : u = t
  · subst hu
    rw [Sys.stepped_same] at hg
    rw [hStack]
    rcases List.mem_append.mp hg with hNew | hOld
    · exact Or.inl hNew
    · exact Or.inr (List.mem_cons_of_mem f hOld)
  · rw [Sys.stepped_other hu] at hg
    exact Or.inr hg

/-- What syncs have captured after a step that captures nothing. -/
theorem Sys.captured_stepped (hStack : (s.threads t).stack = f :: rest) (hBare : act.Bare) {u : Nat}
    {g : Frame} (hg : g ∈ ((s.stepped t ret rest sh' act).threads u).stack) {own count : Nat}
    (hCaptured : g.captured = some (own, count)) : g ∈ (s.threads u).stack := by
  rcases Sys.mem_stepped hStack hg with hNew | hOld
  · rw [hBare g hNew] at hCaptured
    exact absurd hCaptured.symm (Option.some_ne_none _)
  · exact hOld

theorem Sys.Paced.rests (h : s.Paced r) (hStack : (s.threads t).stack = f :: rest)
    (hRests : s.shared.journal.Rests sh'.journal) (hBare : act.Bare) :
    (s.stepped t ret rest sh' act).Paced r := by
  refine ⟨?_, fun u g hg own count hCaptured hLater => ?_⟩
  · show r.ahead sh'.journal.logStart sh'.journal.logEnd ≤
      r.ahead sh'.journal.logStart sh'.journal.writePos
    rw [hRests.logStart, hRests.logEnd, hRests.writePos]
    exact h.window
  · have hOld := Sys.captured_stepped hStack hBare hg hCaptured
    change sh'.journal.committedCount < count at hLater
    show r.ahead sh'.journal.logStart own ≤ r.ahead sh'.journal.logStart sh'.journal.writePos
    rw [hRests.committedCount] at hLater
    rw [hRests.logStart, hRests.writePos]
    exact h.syncs u g hOld own count hCaptured hLater

/-- After a retire the window is empty and no sync may commit what it captured. -/
theorem Sys.InStep.retired (h : s.InStep r) (hStack : (s.threads t).stack = f :: rest)
    (hRetired : s.shared.journal.Retired sh'.journal) (hBare : act.Bare) :
    (s.stepped t ret rest sh' act).Paced r := by
  refine ⟨?_, fun u g hg own count hCaptured hLater => ?_⟩
  · show r.ahead sh'.journal.logStart sh'.journal.logEnd ≤ _
    rw [hRetired.window, Ring.ahead_self]
    exact Nat.zero_le _
  · have hOld := h.counted u g (Sys.captured_stepped hStack hBare hg hCaptured) own count hCaptured
    change sh'.journal.committedCount < count at hLater
    rw [hRetired.committedCount] at hLater
    omega

theorem Sys.Paced.commit (h : s.Paced r) (hStack : (s.threads t).stack = f :: rest)
    {own count : Nat} (hOwn : f.captured = some (own, count))
    (hCommits : s.shared.journal.Commits sh'.journal own count) (hBare : act.Bare) :
    (s.stepped t ret rest sh' act).Paced r := by
  have hTop : f ∈ (s.threads t).stack := by
    rw [hStack]
    exact List.mem_cons_self
  refine ⟨?_, fun u g hg own' count' hCaptured hLater => ?_⟩
  · show r.ahead sh'.journal.logStart sh'.journal.logEnd ≤
      r.ahead sh'.journal.logStart sh'.journal.writePos
    rw [hCommits.logStart, hCommits.logEnd, hCommits.writePos]
    exact h.syncs t f hTop own count hOwn hCommits.later
  · have hOld := Sys.captured_stepped hStack hBare hg hCaptured
    change sh'.journal.committedCount < count' at hLater
    show r.ahead sh'.journal.logStart own' ≤ r.ahead sh'.journal.logStart sh'.journal.writePos
    rw [hCommits.logStart, hCommits.writePos]
    exact h.syncs u g hOld own' count' hCaptured
      (Nat.lt_of_le_of_lt hCommits.committedCount hLater)

theorem Sys.Ok.ahead_flush (h : s.Ok r past)
    (hRoom : s.shared.journal.flushCurBlock.writePos ≠ s.shared.journal.logStart) :
    r.ahead s.shared.journal.logStart s.shared.journal.flushCurBlock.writePos =
      r.ahead s.shared.journal.logStart s.shared.journal.writePos + 1 := by
  have hTidy := h.shared.tidy
  have hPos : s.shared.journal.flushCurBlock.writePos = r.advance s.shared.journal.writePos := by
    rw [← hTidy.ring]
    rfl
  rw [hPos] at hRoom ⊢
  exact hTidy.logStart.ahead_advance hTidy.writePos hRoom

/-- A block is written, and `write_pos` does not come to the start of the window. What the step
captures is the new `write_pos`. -/
theorem Sys.Paced.flush (h : s.Paced r) (hOk : s.Ok r past)
    (hStack : (s.threads t).stack = f :: rest)
    (hRoom : s.shared.journal.flushCurBlock.writePos ≠ s.shared.journal.logStart)
    (hNew : ∀ g ∈ act.frames, ∀ own count, g.captured = some (own, count) →
      own = s.shared.journal.flushCurBlock.writePos) :
    (s.stepped t ret rest { s.shared with journal := s.shared.journal.flushCurBlock } act).Paced
      r := by
  have hAhead := hOk.ahead_flush hRoom
  refine ⟨?_, fun u g hg own count hCaptured hLater => ?_⟩
  · show r.ahead s.shared.journal.logStart s.shared.journal.logEnd ≤
      r.ahead s.shared.journal.logStart s.shared.journal.flushCurBlock.writePos
    have hWindow := h.window
    omega
  · show r.ahead s.shared.journal.logStart own ≤
      r.ahead s.shared.journal.logStart s.shared.journal.flushCurBlock.writePos
    rcases Sys.mem_stepped hStack hg with hLeft | hOld
    · rw [hNew g hLeft own count hCaptured]
    · have hBefore := h.syncs u g hOld own count hCaptured hLater
      omega

theorem Sys.Counted.stepped (h : s.Counted) (hStack : (s.threads t).stack = f :: rest)
    (hCount : s.shared.journal.writeCount ≤ sh'.journal.writeCount)
    (hNew : ∀ g ∈ act.frames, ∀ own count, g.captured = some (own, count) →
      count ≤ sh'.journal.writeCount) : (s.stepped t ret rest sh' act).Counted := by
  intro u g hg own count hCaptured
  rcases Sys.mem_stepped hStack hg with hLeft | hOld
  · exact hNew g hLeft own count hCaptured
  · exact Nat.le_trans (h u g hOld own count hCaptured) hCount

theorem Act.Bare.counted (hBare : act.Bare) {n : Nat} : ∀ g ∈ act.frames, ∀ own count,
    g.captured = some (own, count) → count ≤ n := by
  intro g hg own count hCaptured
  rw [hBare g hg] at hCaptured
  exact absurd hCaptured.symm (Option.some_ne_none _)

/-- On the way to the checkpoint the ring stays full. -/
theorem Sys.Closing.turn (hFull : s.shared.journal.writePos = s.shared.journal.logStart)
    (hTurning : s.shared.Turning f) (hGuard : s.GuardedTop fate f) :
    (s.runTop fate t ret f rest).Closing := by
  have hMin := s.shared.journal.ring.hMin
  unfold minJournalBlocks at hMin
  cases f with
  | room pc =>
    cases pc with
    | entry =>
      have hStep : s.shared.step ret fate (.room .entry) = (s.shared, .goto (.room .top)) := by
        show s.shared.roomStep ret fate .entry = _
        unfold Shared.roomStep Ring.journalEnd
        rw [if_neg (not_not.mpr hFull), if_neg (by omega)]
      unfold Sys.runTop
      rw [hStep]
      exact ⟨hFull, Or.inl ⟨t, .room .top, rest, rfl, Sys.stepped_same, trivial⟩⟩
    | top =>
      have hStep : s.shared.step ret fate (.room .top) =
          (s.shared, .call (.room .await) (.checkpoint .entry)) := by
        show s.shared.roomStep ret fate .top = _
        unfold Shared.roomStep
        rw [hGuard]
        rfl
      unfold Sys.runTop
      rw [hStep]
      exact ⟨hFull, Or.inl ⟨t, .checkpoint .entry, _, rfl, Sys.stepped_same, hGuard⟩⟩
    | await => exact hTurning.elim
    | test => exact hTurning.elim
    | slept => exact hTurning.elim
  | checkpoint pc =>
    cases pc with
    | entry =>
      have hStep : s.shared.step ret fate (.checkpoint .entry) =
          ({ s.shared with inCheckpoint := true }, .drop (.checkpoint .flushed)) := by
        show s.shared.checkpointStep ret fate .entry = _
        unfold Shared.checkpointStep
        rw [show s.shared.inCheckpoint = false from hTurning]
        rfl
      unfold Sys.runTop
      rw [hStep]
      exact ⟨hFull, Or.inr ⟨t, rest, Sys.stepped_same⟩⟩
    | flushed => exact hTurning.elim
    | await => exact hTurning.elim
  | write rec pc => exact hTurning.elim
  | sync checkpoint pc => exact hTurning.elim
  | drain since round pc => exact hTurning.elim
  | flushOne snap called => exact hTurning.elim
  | flushAll called => exact hTurning.elim

theorem Sys.Retiring.other {u : Nat} {above : List Frame} (hNe : u ≠ t)
    (hOpen : (s.threads u).stack = .checkpoint .flushed :: above) :
    (s.stepped t ret rest sh' act).Retiring := by
  refine ⟨u, above, ?_⟩
  rw [Sys.stepped_other hNe]
  exact hOpen

theorem Sys.Counted.run (h : s.Counted) (hStack : (s.threads t).stack = f :: rest) :
    (s.runTop fate t ret f rest).Counted := by
  have hDeed := s.shared.deed_step ret fate f
  change (s.stepped t ret rest (s.shared.step ret fate f).1 (s.shared.step ret fate f).2).Counted
  generalize s.shared.step ret fate f = x at hDeed ⊢
  have hFlush : s.shared.journal.writeCount ≤ s.shared.journal.flushCurBlock.writeCount :=
    Nat.le_add_right _ _
  cases hDeed with
  | rest hRests hBare hFailed =>
    exact h.stepped hStack (Nat.le_of_eq hRests.writeCount.symm) hBare.counted
  | lap hShort hFull =>
    exact h.stepped hStack hFlush (Act.Bare.counted (by simp [Frame.captured]))
  | flush hShort hRoom =>
    exact h.stepped hStack hFlush (Act.Bare.counted (by simp [Frame.captured]))
  | capture =>
    refine h.stepped hStack hFlush ?_
    simp [Act.frames, Frame.captured]
  | commit hCommits _ hBare =>
    exact h.stepped hStack (Nat.le_of_eq hCommits.writeCount.symm) hBare.counted
  | retire hOk hRetired hBare =>
    exact h.stepped hStack (Nat.le_of_eq hRetired.writeCount.symm) hBare.counted

/-- The room that a sync has before it writes. -/
theorem advance_ne_of_room (h : s.shared.journal.needsRoom = false) :
    s.shared.journal.flushCurBlock.writePos ≠ s.shared.journal.logStart := by
  unfold BriefsJournal.needsRoom at h
  rw [Bool.or_eq_false_iff] at h
  exact beq_eq_false_iff_ne.mp h.2

/-- From a state in step: a flush that laps the window turns to a checkpoint at once. -/
theorem Sys.Paced.run (hPaced : s.Paced r) (h : s.InStep r) (hOk : s.Ok r past)
    (hStack : (s.threads t).stack = f :: rest) (hGuard : s.GuardedTop fate f) :
    (s.runTop fate t ret f rest).Paced r ∨ (s.runTop fate t ret f rest).Closing := by
  have hDeed := s.shared.deed_step ret fate f
  change (s.stepped t ret rest (s.shared.step ret fate f).1 (s.shared.step ret fate f).2).Paced r ∨
    (s.stepped t ret rest (s.shared.step ret fate f).1 (s.shared.step ret fate f).2).Closing
  generalize s.shared.step ret fate f = x at hDeed ⊢
  cases hDeed with
  | rest hRests hBare hFailed => exact Or.inl (hPaced.rests hStack hRests hBare)
  | lap hShort hFull =>
    exact Or.inr ⟨hFull, Or.inl ⟨t, .room .entry, _, rfl, Sys.stepped_same, trivial⟩⟩
  | flush hShort hRoom =>
    refine Or.inl (hPaced.flush hOk hStack hRoom ?_)
    simp [Act.frames, Frame.captured]
  | capture =>
    refine Or.inl (hPaced.flush hOk hStack (advance_ne_of_room hGuard.1) ?_)
    simp only [Act.frames, List.mem_singleton, forall_eq, Frame.captured, Option.some.injEq,
      Prod.mk.injEq]
    rintro own count ⟨rfl, -⟩
    rfl
  | commit hCommits _ hBare => exact Or.inl (hPaced.commit hStack rfl hCommits hBare)
  | retire hOk hRetired hBare => exact Or.inl (h.retired hStack hRetired hBare)

/-- While a checkpoint is to retire the window of a full ring: nothing is written, so that it stays
full, and the checkpoint does retire it. -/
theorem Sys.Closing.run (hFull : s.shared.journal.writePos = s.shared.journal.logStart)
    (hRetiring : s.Retiring) (h : s.InStep r) (hStack : (s.threads t).stack = f :: rest)
    (hGuard : s.GuardedTop fate f) :
    (s.runTop fate t ret f rest).Paced r ∨ (s.runTop fate t ret f rest).Closing := by
  have hDeed := s.shared.deed_step ret fate f
  change (s.stepped t ret rest (s.shared.step ret fate f).1 (s.shared.step ret fate f).2).Paced r ∨
    (s.stepped t ret rest (s.shared.step ret fate f).1 (s.shared.step ret fate f).2).Closing
  generalize s.shared.step ret fate f = x at hDeed ⊢
  obtain ⟨u, above, hOpen⟩ := hRetiring
  have hOwn : u = t → f = .checkpoint .flushed := by
    rintro rfl
    rw [hStack] at hOpen
    exact (List.cons.inj hOpen).1
  cases hDeed with
  | rest hRests hBare hFailed =>
    by_cases hu : u = t
    · obtain rfl := hOwn hu
      exact absurd (hGuard hFull) (hFailed rfl)
    · refine Or.inr ⟨?_, Or.inr (Sys.Retiring.other hu hOpen)⟩
      show _ = _
      rw [Sys.stepped, hRests.writePos, hRests.logStart, hFull]
  | lap hShort _ => exact absurd ⟨u, above, hOpen⟩ (hGuard hShort hFull)
  | flush hShort hRoom => exact absurd ⟨u, above, hOpen⟩ (hGuard hShort hFull)
  | capture => exact absurd ⟨u, above, hOpen⟩ (hGuard.2 hFull)
  | commit hCommits _ hBare =>
    have hu : u ≠ t := fun hEq => Frame.noConfusion (hOwn hEq)
    refine Or.inr ⟨?_, Or.inr (Sys.Retiring.other hu hOpen)⟩
    show _ = _
    rw [Sys.stepped, hCommits.writePos, hCommits.logStart, hFull]
  | retire hOk hRetired hBare => exact Or.inl (h.retired hStack hRetired hBare)

/-- A step of any function, whose thread has the lock. -/
theorem Sys.InStep.run (h : s.InStep r) (hOk : s.Ok r past) (hHolder : s.holder = some t)
    (hStack : (s.threads t).stack = f :: rest) (hGuard : s.GuardedTop fate f) :
    (s.runTop fate t ret f rest).InStep r := by
  refine ⟨h.counted.run hStack, ?_⟩
  rcases h.state with hPaced | ⟨hFull, hTurning | hRetiring⟩
  · exact hPaced.run h hOk hStack hGuard
  · obtain ⟨u, g, above, hLock, hTop, hTurning⟩ := hTurning
    obtain rfl : t = u := Option.some.inj (hHolder.symm.trans hLock)
    obtain rfl : f = g := by
      rw [hStack] at hTop
      exact (List.cons.inj hTop).1
    exact Or.inr (Sys.Closing.turn hFull hTurning hGuard)
  · exact Sys.Closing.run hFull hRetiring h hStack hGuard

end Top

--
-- Runs
--

/-- The journal is left alone, and so are the threads that are in it. A thread that enters has
nothing captured, and no checkpoint under way. -/
structure Sys.Beside (s s' : Sys) : Prop where
  journal : s'.shared.journal = s.shared.journal
  flag    : s'.shared.inCheckpoint = s.shared.inCheckpoint
  holder  : ∀ t, s.holder = some t → s'.holder = some t
  busy    : ∀ t, (s.threads t).stack ≠ [] → s'.threads t = s.threads t
  fresh   : ∀ t, (s.threads t).stack = [] → ∀ f ∈ (s'.threads t).stack,
    f.captured = none ∧ f ≠ .checkpoint .flushed

theorem fresh_of_idle {th : Thread} {P : Frame → Prop} (hIdle : th.stack = []) :
    ∀ f ∈ th.stack, P f := by
  intro f hf
  rw [hIdle] at hf
  exact absurd hf List.not_mem_nil

theorem Request.frame_fresh (q : Request) :
    q.frame.captured = none ∧ q.frame ≠ .checkpoint .flushed := by
  cases q with
  | write c => exact ⟨rfl, Frame.noConfusion⟩
  | sync periodic => exact ⟨rfl, Frame.noConfusion⟩
  | checkpoint => exact ⟨rfl, by simp [Request.frame]⟩
  | flushAll => exact ⟨rfl, Frame.noConfusion⟩

/-- A thread that was idle enters the journal. -/
theorem Sys.Beside.enter {t : Nat} {f : Frame} (hIdle : (s.threads t).stack = [])
    (hFresh : f.captured = none ∧ f ≠ .checkpoint .flushed) {sh : Shared}
    (hJournal : sh.journal = s.shared.journal)
    (hFlag : sh.inCheckpoint = s.shared.inCheckpoint) :
    s.Beside { (s.setThread t ⟨none, [f]⟩) with shared := sh } := by
  refine ⟨hJournal, hFlag, fun _ hLock => hLock, fun u hBusy => ?_, fun u hu g hg => ?_⟩
  · have hNe : u ≠ t := by
      rintro rfl
      exact hBusy hIdle
    exact s.setThread_other hNe _
  · change g ∈ ((s.setThread t ⟨none, [f]⟩).threads u).stack at hg
    by_cases hEq : u = t
    · subst hEq
      rw [Sys.setThread_same] at hg
      rw [List.mem_singleton.mp hg]
      exact hFresh
    · rw [s.setThread_other hEq, hu] at hg
      exact absurd hg List.not_mem_nil

/-- A step is one of the thread with the lock, or it leaves the journal alone. -/
theorem Sys.step_cases {e : Event} (hStep : s.step e = some s') :
    s.Beside s' ∨ ∃ fate t f rest, e = .run fate ∧ s.holder = some t ∧
      (s.threads t).stack = f :: rest ∧ s' = s.runTop fate t (s.threads t).ret f rest := by
  cases e with
  | queue ino data =>
    obtain rfl := Option.some.inj hStep
    have hFlag : (s.shared.enqueue ino data).inCheckpoint = s.shared.inCheckpoint := by
      unfold Shared.enqueue
      split
      · rfl
      · rfl
    exact Or.inl ⟨s.shared.journal_enqueue ino data, hFlag, fun _ hLock => hLock,
      fun _ _ => rfl, fun _ hIdle => fresh_of_idle hIdle⟩
  | grab t ino =>
    obtain ⟨_, hIdle, _, rfl⟩ := Sys.step_grab hStep
    exact Or.inl (.enter hIdle ⟨rfl, Frame.noConfusion⟩ rfl rfl)
  | start t q =>
    obtain ⟨hIdle, rfl⟩ := Sys.step_start hStep
    exact Or.inl (.enter hIdle q.frame_fresh rfl rfl)
  | take t =>
    obtain ⟨hFree, rfl⟩ := Sys.step_take hStep
    refine Or.inl ⟨rfl, rfl, fun u hLock => ?_, fun _ _ => rfl,
      fun _ hIdle => fresh_of_idle hIdle⟩
    rw [hFree] at hLock
    exact absurd hLock.symm (Option.some_ne_none _)
  | run fate =>
    obtain ⟨t, f, rest, hHolder, hStack, hNext⟩ := Sys.step_run hStep
    exact Or.inr ⟨fate, t, f, rest, rfl, hHolder, hStack, hNext⟩

theorem Sys.Beside.captured (h : s.Beside s') {t : Nat} {f : Frame} (hf : f ∈ (s'.threads t).stack)
    {own count : Nat} (hCaptured : f.captured = some (own, count)) : f ∈ (s.threads t).stack := by
  by_cases hIdle : (s.threads t).stack = []
  · rw [(h.fresh t hIdle f hf).1] at hCaptured
    exact absurd hCaptured.symm (Option.some_ne_none _)
  · rwa [h.busy t hIdle] at hf

theorem Sys.Beside.top (h : s.Beside s') {t : Nat} {f : Frame} {rest : List Frame}
    (hStack : (s.threads t).stack = f :: rest) : (s'.threads t).stack = f :: rest := by
  rw [h.busy t (by rw [hStack]; exact List.cons_ne_nil f rest), hStack]

theorem Sys.InStep.beside (h : s.InStep r) (hBeside : s.Beside s') : s'.InStep r := by
  refine ⟨?_, ?_⟩
  · intro t f hf own count hCaptured
    rw [hBeside.journal]
    exact h.counted t f (hBeside.captured hf hCaptured) own count hCaptured
  · rcases h.state with hPaced | ⟨hFull, hPhase⟩
    · refine Or.inl ⟨?_, fun t f hf own count hCaptured hLater => ?_⟩
      · rw [hBeside.journal]
        exact hPaced.window
      · rw [hBeside.journal] at hLater ⊢
        exact hPaced.syncs t f (hBeside.captured hf hCaptured) own count hCaptured hLater
    · refine Or.inr ⟨by rw [hBeside.journal, hFull], ?_⟩
      rcases hPhase with ⟨t, f, rest, hLock, hStack, hTurning⟩ | ⟨t, rest, hStack⟩
      · refine Or.inl ⟨t, f, rest, hBeside.holder t hLock, hBeside.top hStack, ?_⟩
        unfold Shared.Turning at hTurning ⊢
        rwa [hBeside.flag]
      · exact Or.inr ⟨t, rest, hBeside.top hStack⟩

/-- A step of a thread, or of the queue. -/
theorem Sys.InStep.step (h : s.InStep r) (hOk : s.Ok r past) {e : Event} (hGuard : s.Guarded e)
    (hStep : s.step e = some s') : s'.InStep r := by
  rcases Sys.step_cases hStep with hBeside | ⟨fate, t, f, rest, rfl, hHolder, hStack, rfl⟩
  · exact h.beside hBeside
  · exact h.run hOk hHolder hStack (hGuard t f rest hHolder hStack)

/-- In a full ring that is to be retired no block is written. -/
theorem Sys.InStep.paced (h : s.InStep r) {t : Nat} {f : Frame} {rest : List Frame}
    (hHolder : s.holder = some t) (hStack : (s.threads t).stack = f :: rest)
    (hOff : ¬s.shared.Turning f)
    (hOpen : s.shared.journal.writePos = s.shared.journal.logStart → ¬s.Retiring) : s.Paced r := by
  rcases h.state with hPaced | ⟨hFull, ⟨u, g, above, hLock, hTop, hTurning⟩ | hRetiring⟩
  · exact hPaced
  · obtain rfl : t = u := Option.some.inj (hHolder.symm.trans hLock)
    rw [hStack] at hTop
    rw [(List.cons.inj hTop).1] at hOff
    exact absurd hTurning hOff
  · exact absurd hRetiring (hOpen hFull)

theorem Sys.Paced.not_inLog (h : s.Paced r) (hOk : s.Ok r past) :
    ¬s.shared.journal.InLog s.shared.journal.writePos := by
  have hTidy := hOk.shared.tidy
  rw [inLog_iff hTidy.logStart hTidy.logEnd hTidy.writePos]
  exact Nat.not_lt.mpr h.window

/-- A step that writes a block, from a state in step, writes none of the window. -/
theorem Sys.InStep.not_inLog (h : s.InStep r) (hOk : s.Ok r past) {e : Event} (hGuard : s.Guarded e)
    (hStep : s.step e = some s')
    (hWrites : s'.shared.journal.writeCount ≠ s.shared.journal.writeCount) :
    ¬s.shared.journal.InLog s.shared.journal.writePos := by
  rcases Sys.step_cases hStep with hBeside | ⟨fate, t, f, rest, rfl, hHolder, hStack, rfl⟩
  · exact absurd (congrArg BriefsJournal.writeCount hBeside.journal) hWrites
  · have hTop := hGuard t f rest hHolder hStack
    have hDeed := s.shared.deed_step (s.threads t).ret fate f
    change (s.shared.step (s.threads t).ret fate f).1.journal.writeCount ≠ _ at hWrites
    generalize s.shared.step (s.threads t).ret fate f = x at hDeed hWrites
    cases hDeed with
    | rest hRests hBare hFailed => exact absurd hRests.writeCount hWrites
    | lap hShort hFull => exact (h.paced hHolder hStack id (hTop hShort)).not_inLog hOk
    | flush hShort hRoom => exact (h.paced hHolder hStack id (hTop hShort)).not_inLog hOk
    | capture => exact (h.paced hHolder hStack id hTop.2).not_inLog hOk
    | commit hCommits _ hBare => exact absurd hCommits.writeCount hWrites
    | retire _ hRetired hBare => exact absurd hRetired.writeCount hWrites

theorem Sys.Mounted.inStep (h : s.Mounted)
    (hEmpty : s.shared.journal.logEnd = s.shared.journal.logStart) : s.InStep r := by
  have hNone : ∀ t, ∀ f ∈ (s.threads t).stack, False := by
    intro t f hf
    rw [h.idle t] at hf
    exact absurd hf List.not_mem_nil
  refine ⟨fun t f hf => (hNone t f hf).elim, Or.inl ⟨?_, fun t f hf => (hNone t f hf).elim⟩⟩
  rw [hEmpty, Ring.ahead_self]
  exact Nat.zero_le _

theorem Sys.InStep.reach (h : s.InStep r) (hOk : s.Ok r past)
    (hReach : Sys.Reach (fun s e => e.Allowed ∧ s.Guarded e) s s') :
    s'.InStep r ∧ s'.Ok r past := by
  induction hReach with
  | refl => exact ⟨h, hOk⟩
  | step _ hStepOk hStep ih =>
    exact ⟨ih.1.step ih.2 hStepOk.2 hStep, ih.2.step hStepOk.1 hStep⟩

/-- In every run of any threads from a mount with an empty window, each step of it guarded: a block
that is written is none of the window of the superblock at that moment. -/
theorem ring_not_overrun {start s s' : Sys} {e : Event} (hMount : start.Mounted)
    (hEmpty : start.shared.journal.logEnd = start.shared.journal.logStart)
    (hStart : start.shared.journal.ring.Data start.shared.journal.logStart)
    (hReach : Sys.Reach (fun s e => e.Allowed ∧ s.Guarded e) start s)
    (hGuard : e.Allowed ∧ s.Guarded e) (hStep : s.step e = some s') (hWrote : s.wrote s' ≠ []) :
    ¬s.shared.journal.InLog s.shared.journal.writePos := by
  have hEnd : start.shared.journal.ring.Data start.shared.journal.logEnd := by
    rw [hEmpty]
    exact hStart
  obtain ⟨hInStep, hOk⟩ := (hMount.inStep hEmpty).reach (hMount.ok hStart hEnd) hReach
  exact hInStep.not_inLog hOk hGuard.2 hStep fun hEq => hWrote (if_pos hEq)

--
-- Examples of runs
--

/-- The state after the events, if all of them can happen. -/
def Sys.after (s : Sys) : List Event → Option Sys
  | [] => some s
  | e :: es =>
    match s.step e with
    | none => none
    | some s' => s'.after es

theorem Sys.reach_of_after {start : Sys} {es : List Event} (hAllowed : ∀ e ∈ es, e.Allowed)
    (hReach : Sys.Reach (fun _ e => e.Allowed) start s) (hAfter : s.after es = some s') :
    Sys.Reach (fun _ e => e.Allowed) start s' := by
  induction es generalizing s with
  | nil =>
    obtain rfl := Option.some.inj hAfter
    exact hReach
  | cons e es ih =>
    unfold Sys.after at hAfter
    split at hAfter
    · cases hAfter
    · rename_i s₁ hStep
      obtain ⟨hFirst, hRest⟩ := List.forall_mem_cons.mp hAllowed
      exact ih hRest (hReach.step hFirst hStep) hAfter

/-- The thread appends a record, begins a sync, and makes `n` steps of it. -/
def appendAndSteps (t n : Nat) : List Event :=
  [.start t (.write (.inodeFree 7)), .take t, .run ⟨none, none, false⟩,
    .start t (.sync true), .take t] ++ List.replicate n (.run ⟨none, none, false⟩)

theorem minJournalBlocks_le_four : minJournalBlocks ≤ 4 := Nat.le_refl 4

theorem four_le_maxJournalBlocks : 4 ≤ maxJournalBlocks := by decide

/-- The smallest ring, with three blocks for records. -/
def tinySys : Sys :=
  { smallSys with
    shared := { smallSys.shared with
      journal := { smallJournal 0 with
        ring      := ⟨100, 4, minJournalBlocks_le_four, four_le_maxJournalBlocks⟩
        writePos  := 100
        syncedPos := 100
        logStart  := 100
        logEnd    := 100 } } }

theorem tinySys_mounted : tinySys.Mounted :=
  ⟨Or.inl rfl, rfl, ⟨[], holdsRecords_reset _⟩, rfl, fun _ => rfl⟩

theorem Sys.guarded_run {t : Nat} {f : Frame} {rest : List Frame} {fate : Fate}
    (hHolder : s.holder = some t) (hStack : (s.threads t).stack = f :: rest)
    (hTop : s.GuardedTop fate f) : s.Guarded (.run fate) := by
  intro u g above hLock hTop'
  obtain rfl : t = u := Option.some.inj (hHolder.symm.trans hLock)
  rw [hStack] at hTop'
  obtain ⟨rfl, -⟩ := List.cons.inj hTop'
  exact hTop

/-- One thread is in the journal, in the function `f`. -/
theorem not_retiring_of_one {t : Nat} {f : Frame} (hOthers : ∀ u, u ≠ t → (s.threads u).stack = [])
    (hStack : (s.threads t).stack = [f]) (hNe : f ≠ .checkpoint .flushed) : ¬s.Retiring := by
  rintro ⟨u, rest, hOpen⟩
  by_cases hu : u = t
  · rw [hu, hStack] at hOpen
    exact hNe (List.cons.inj hOpen).1
  · rw [hOthers u hu] at hOpen
    exact absurd hOpen.symm (List.cons_ne_nil _ _)

/-- The first sync on the smallest ring is guarded, and writes outside the window. -/
theorem ring_not_overrun_tiny :
    tinySys.Mounted ∧ ∃ s s', Sys.Reach (fun s e => e.Allowed ∧ s.Guarded e) tinySys s ∧
      s.step (.run ⟨none, none, false⟩) = some s' ∧ s.wrote s' ≠ [] ∧
      ¬s.shared.journal.InLog s.shared.journal.writePos := by
  have hData : tinySys.shared.journal.ring.Data tinySys.shared.journal.logStart :=
    ⟨by show 100 ≤ 100 ∧ 100 < 104; omega, by show 100 ≠ 103; omega⟩
  refine ⟨tinySys_mounted, ?_⟩
  have hStart : Sys.Reach (fun s e => e.Allowed ∧ s.Guarded e) tinySys
      (tinySys.setThread 0 ⟨none, [.write (Call.inodeFree 7).record .entry]⟩) :=
    .step (e := .start 0 (.write (.inodeFree 7))) .refl ⟨trivial, trivial⟩ rfl
  have hTake := Sys.Reach.step (e := .take 0) hStart ⟨trivial, trivial⟩ rfl
  have hPut := Sys.Reach.step (e := .run ⟨none, none, false⟩) hTake
    ⟨trivial, Sys.guarded_run rfl rfl fun hShort => absurd hShort (by decide)⟩ rfl
  have hSync := Sys.Reach.step (e := .start 0 (.sync true)) hPut ⟨trivial, trivial⟩ rfl
  have hLock := Sys.Reach.step (e := .take 0) hSync ⟨trivial, trivial⟩ rfl
  have hEntry := Sys.Reach.step (e := .run ⟨none, none, false⟩) hLock
    ⟨trivial, Sys.guarded_run rfl rfl trivial⟩ rfl
  have hDrain := Sys.Reach.step (e := .run ⟨none, none, false⟩) hEntry
    ⟨trivial, Sys.guarded_run rfl rfl trivial⟩ rfl
  have hDrained := Sys.Reach.step (e := .run ⟨none, none, false⟩) hDrain
    ⟨trivial, Sys.guarded_run rfl rfl trivial⟩ rfl
  refine ⟨_, _, hDrained, rfl, ?_, ?_⟩
  · intro hNil
    exact absurd (congrArg List.length hNil) (by decide)
  · refine ring_not_overrun (e := .run ⟨none, none, false⟩) tinySys_mounted rfl hData hDrained
      ⟨trivial, Sys.guarded_run rfl rfl ⟨rfl, fun _ => ?_⟩⟩ rfl ?_
    · refine not_retiring_of_one (t := 0) (fun u hu => ?_) rfl Frame.noConfusion
      simp only [Sys.runTop, Sys.setThread, Function.update_of_ne hu]
      rfl
    · intro hNil
      exact absurd (congrArg List.length hNil) (by decide)

/-- Two blocks are written and committed. The third sync must make room, and its checkpoint drops
the lock; another thread then writes the third block, and a third thread is about to write. -/
def overrunEvents : List Event :=
  appendAndSync ++ appendAndSync ++ appendAndSteps 0 4 ++ appendAndSteps 1 4 ++ appendAndSteps 2 3

/-- Without an error, a sync writes over the first block of the window while a checkpoint is in
flight. -/
theorem ring_overrun :
    tinySys.Mounted ∧ tinySys.shared.journal.logEnd = tinySys.shared.journal.logStart ∧
      ∃ s s', Sys.Reach (fun _ e => e.Allowed) tinySys s ∧
        s.step (.run ⟨none, none, false⟩) = some s' ∧ s.wrote s' ≠ [] ∧
        s.shared.journal.logStart = 100 ∧ s.shared.journal.logEnd = 102 ∧
        s.shared.journal.writePos = 100 ∧ s.shared.journal.InLog s.shared.journal.writePos := by
  refine ⟨tinySys_mounted, rfl, ?_⟩
  have hAllowed : ∀ e ∈ overrunEvents, e.Allowed := by
    simp [overrunEvents, appendAndSync, appendAndSteps, Event.Allowed, Call.Allowed]
  obtain ⟨s, hs⟩ : ∃ s, tinySys.after overrunEvents = some s :=
    Option.isSome_iff_exists.mp (by decide)
  have hCursors : (tinySys.after overrunEvents).map (fun s => (s.shared.journal.logStart,
      s.shared.journal.logEnd, s.shared.journal.writePos)) = some (100, 102, 100) := by decide
  have hWrites : (tinySys.after overrunEvents).map (fun s =>
      (s.step (.run ⟨none, none, false⟩)).map fun s' => (s.wrote s').length) =
        some (some 1) := by decide
  rw [hs, Option.map_some, Option.some.injEq] at hCursors hWrites
  obtain ⟨s', hStep, hOne⟩ := Option.map_eq_some_iff.mp hWrites
  simp only [Prod.mk.injEq] at hCursors
  obtain ⟨hStart, hEnd, hPos⟩ := hCursors
  refine ⟨s, s', Sys.reach_of_after hAllowed .refl hs, hStep, ?_, hStart, hEnd, hPos, ?_⟩
  · intro hNil
    rw [hNil] at hOne
    exact absurd hOne (by decide)
  · unfold BriefsJournal.InLog
    rw [hStart, hEnd, hPos]
    decide

end Briefs.Journal
