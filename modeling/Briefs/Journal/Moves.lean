import Briefs.Journal.Seq

/-!
# BrieFS — what a step does to the journal

A step of a thread moves the cursors of the journal in one of a few ways, whatever function the
thread is in. `Shared.Move` says which, with the tests that the code made, and what the thread does
next.

## Results

* `Shared.move_step` — a step of any function is one of them.
* `Shared.syncStep_returns` — where a sync returns 0.
-/

namespace Briefs.Journal

--
-- Steps of the functions
--

/-- The frames of a sync that has captured its range. -/
def Frame.owes : Frame → Bool
  | .sync _ (.forced _ _ _ _) => true
  | .sync _ (.flushed _ _ _) => true
  | .sync _ .tail => true
  | .sync _ .last => true
  | _ => false

/-- The step leaves no such frame. -/
def Act.Free (act : Act) : Prop := ∀ g ∈ act.frames, g.owes = false

@[simp]
theorem Act.free_goto (f : Frame) : (Act.goto f).Free ↔ f.owes = false := by
  simp [Act.Free, Act.frames]

@[simp]
theorem Act.free_call (f callee : Frame) :
    (Act.call f callee).Free ↔ callee.owes = false ∧ f.owes = false := by
  simp [Act.Free, Act.frames]

@[simp]
theorem Act.free_drop (f : Frame) : (Act.drop f).Free ↔ f.owes = false := by
  simp [Act.Free, Act.frames]

@[simp]
theorem Act.free_ret (r : Option Errno) : (Act.ret r).Free := by simp [Act.Free, Act.frames]

/-- The cursors that matter here are as they were. -/
structure BriefsJournal.Rests (j j' : BriefsJournal) : Prop where
  writePos       : j'.writePos = j.writePos
  writeCount     : j'.writeCount = j.writeCount
  committedCount : j'.committedCount = j.committedCount
  logStart       : j'.logStart = j.logStart
  logEnd         : j'.logEnd = j.logEnd

theorem BriefsJournal.Rests.refl (j : BriefsJournal) : j.Rests j := ⟨rfl, rfl, rfl, rfl, rfl⟩

/-- The window is empty, and all that was captured is committed. -/
structure BriefsJournal.Retired (j j' : BriefsJournal) : Prop where
  writePos       : j'.writePos = j.writePos
  writeCount     : j'.writeCount = j.writeCount
  committedCount : j'.committedCount = j.writeCount
  window         : j'.logEnd = j'.logStart

/-- The cursors are as they were, and no record was put into the current block. -/
structure BriefsJournal.Idles (j j' : BriefsJournal) : Prop where
  rests       : j.Rests j'
  syncedPos   : j'.syncedPos = j.syncedPos
  writeOffset : j'.writeOffset = j.writeOffset
  dirty       : j'.dirty = j.dirty

theorem BriefsJournal.Idles.refl (j : BriefsJournal) : j.Idles j := ⟨.refl j, rfl, rfl, rfl⟩

/-- The window is retired to `synced_pos`. -/
structure BriefsJournal.Empties (j j' : BriefsJournal) : Prop where
  retired     : j.Retired j'
  logStart    : j'.logStart = j.syncedPos
  syncedPos   : j'.syncedPos = j.syncedPos
  writeOffset : j'.writeOffset = j.writeOffset
  dirty       : j'.dirty = j.dirty

/-- What a step does to the journal: nothing that matters here; a record is put into the current
block; that block is flushed, up to the start of the window or not; a sync captures, commits, with
the superblock written or not, or finds that it need not, claims, and asks for room at its end; a
checkpoint retires the window. -/
inductive Shared.Move (sh : Shared) (fate : Fate) : Frame → Shared × Act → Prop where
  | idle {f : Frame} {sh' : Shared} {act : Act} (hIdles : sh.journal.Idles sh'.journal)
      (hFree : act.Free) (hFailed : f = .checkpoint .flushed → fate.before ≠ none) :
      sh.Move fate f (sh', act)
  | put {rec : Record} {pc : WriteAt} : sh.Move fate (.write rec pc)
      ({ sh with journal := sh.journal.putRecord rec }, .ret none)
  | lap {rec : Record} {pc : WriteAt} {n : Nat} (hShort : sh.Short rec)
      (hFull : sh.journal.flushCurBlock.writePos = sh.journal.logStart) :
      sh.Move fate (.write rec pc) ({ sh with journal := sh.journal.flushCurBlock },
        .call (.write rec (.await n)) (.room .entry))
  | flush {rec : Record} {pc : WriteAt} {n : Nat} (hShort : sh.Short rec)
      (hRoom : sh.journal.flushCurBlock.writePos ≠ sh.journal.logStart) :
      sh.Move fate (.write rec pc) ({ sh with journal := sh.journal.flushCurBlock },
        .goto (.write rec (.loop n)))
  | capture {checkpoint : Bool} {since : Nat} :
      sh.Move fate (.sync checkpoint (.capture since))
        ({ sh with journal := sh.journal.flushCurBlock },
          .drop (.sync checkpoint (.forced since sh.journal.syncedPos
            sh.journal.flushCurBlock.writePos sh.journal.flushCurBlock.writeCount)))
  | commit {checkpoint : Bool} {since start own count : Nat} (hOk : fate.before = none)
      (hSaved : fate.after = none) (hLater : sh.journal.committedCount < count)
      (hApart : own ≠ sh.journal.logStart) :
      sh.Move fate (.sync checkpoint (.forced since start own count))
        ({ sh with journal := { sh.journal with logEnd := own, committedCount := count } },
          .drop (.sync checkpoint (.flushed since start own)))
  | torn {checkpoint : Bool} {since start own count : Nat} {e : Errno}
      (hTorn : fate.after ≠ none) (hLater : sh.journal.committedCount < count)
      (hApart : own ≠ sh.journal.logStart) :
      sh.Move fate (.sync checkpoint (.forced since start own count))
        ({ sh with journal := { sh.journal with logEnd := own } }, .ret (some e))
  | skip {checkpoint : Bool} {since start own count : Nat} (hOk : fate.before = none)
      (hSkip : ¬(sh.journal.committedCount < count ∧ own ≠ sh.journal.logStart)) :
      sh.Move fate (.sync checkpoint (.forced since start own count))
        (sh, .drop (.sync checkpoint (.flushed since start own)))
  | claim {checkpoint : Bool} {since start own : Nat} {act : Act}
      (hLeft : ∀ g ∈ act.frames, g = .sync checkpoint .tail ∨ g.owes = false) :
      sh.Move fate (.sync checkpoint (.flushed since start own))
        ({ sh with journal := sh.journal.claim start own }, act)
  | wait {checkpoint : Bool} {act : Act}
      (hLeft : ∀ g ∈ act.frames, g = .sync checkpoint .last ∨ g.owes = false) :
      sh.Move fate (.sync checkpoint .tail) (sh, act)
  | retire {sh' : Shared} {act : Act} (hOk : fate.before = none)
      (hEmpties : sh.journal.Empties sh'.journal) (hFree : act.Free) :
      sh.Move fate (.checkpoint .flushed) (sh', act)

namespace Shared

variable (sh : Shared) (ret : Option Errno) (fate : Fate)

variable {sh fate} in
/-- A step that does not touch the journal. -/
theorem move_of_eq {f : Frame} {sh' : Shared} {act : Act} (hEq : sh'.journal = sh.journal)
    (hFree : act.Free) (hNe : f ≠ .checkpoint .flushed) : sh.Move fate f (sh', act) := by
  refine .idle ?_ hFree fun h => absurd h hNe
  rw [hEq]
  exact .refl _

theorem move_flushFor {rec : Record} (hShort : sh.Short rec) (pc : WriteAt) (n : Nat) :
    sh.Move fate (.write rec pc) (sh.flushFor fate rec n) := by
  fun_cases Shared.flushFor sh fate rec n with
  | case1 e hErr => exact move_of_eq rfl (by simp) (by simp)
  | case2 hOk j hFull => exact .lap hShort hFull
  | case3 hOk j hRoom => exact .flush hShort hRoom

theorem move_writeStep (rec : Record) (pc : WriteAt) :
    sh.Move fate (.write rec pc) (sh.writeStep ret fate rec pc) := by
  fun_cases Shared.writeStep sh ret fate rec pc
  case case2 _ hShort => exact sh.move_flushFor fate hShort _ 0
  case case7 n hShort _ => exact sh.move_flushFor fate hShort _ (n + 1)
  case case3 => exact .put
  case case8 => exact .put
  all_goals exact move_of_eq rfl (by simp [Frame.owes]) (by simp)

theorem move_roomStep (pc : RoomAt) : sh.Move fate (.room pc) (sh.roomStep ret fate pc) := by
  fun_cases Shared.roomStep sh ret fate pc
  all_goals exact move_of_eq rfl (by simp [Frame.owes]) (by simp)

theorem move_checkpointStep (pc : CheckAt) :
    sh.Move fate (.checkpoint pc) (sh.checkpointStep ret fate pc) := by
  fun_cases Shared.checkpointStep sh ret fate pc
  case case3 e hErr => exact .idle (.refl _) (by simp) fun _ => by simp [hErr]
  case case4 hOk _ _ => exact .retire hOk ⟨⟨rfl, rfl, rfl, rfl⟩, rfl, rfl, rfl, rfl⟩ (by simp)
  case case5 hOk _ _ =>
    exact .retire hOk ⟨⟨rfl, rfl, rfl, rfl⟩, rfl, rfl, rfl, rfl⟩ (by simp [Frame.owes])
  case case6 hOk _ _ => exact .retire hOk ⟨⟨rfl, rfl, rfl, rfl⟩, rfl, rfl, rfl, rfl⟩ (by simp)
  case case8 => exact .idle ⟨⟨rfl, rfl, rfl, rfl, rfl⟩, rfl, rfl, rfl⟩ (by simp) (by simp)
  all_goals exact move_of_eq rfl (by simp [Frame.owes]) (by simp)

theorem move_syncStep (checkpoint : Bool) (pc : SyncAt) :
    sh.Move fate (.sync checkpoint pc) (sh.syncStep ret fate checkpoint pc) := by
  fun_cases Shared.syncStep sh ret fate checkpoint pc
  case case10 => exact .capture
  case case12 hGuard e hErr => exact .torn (by simp [hErr]) hGuard.1 hGuard.2
  case case13 hOk hGuard hSaved => exact .commit hOk hSaved hGuard.1 hGuard.2
  case case14 hOk hGuard => exact .skip hOk hGuard
  case case16 => exact .claim (by simp [Act.frames, Frame.owes])
  case case17 => exact .claim (by simp [Act.frames])
  case case18 => exact .wait (by simp [Act.frames, Frame.owes])
  all_goals exact move_of_eq rfl (by simp [Frame.owes]) (by simp)

theorem move_drainStep (since round : Nat) (pc : DrainAt) :
    sh.Move fate (.drain since round pc) (sh.drainStep ret fate since round pc) := by
  fun_cases Shared.drainStep sh ret fate since round pc
  case case8 => exact move_of_eq (sh.journal_noteWritten _ _) (by simp [Frame.owes]) (by simp)
  all_goals exact move_of_eq rfl (by simp [Frame.owes]) (by simp)

theorem move_flushOneStep (snap : Snapshot) (called : Bool) :
    sh.Move fate (.flushOne snap called) (sh.flushOneStep ret fate snap called) := by
  fun_cases Shared.flushOneStep sh ret fate snap called
  · exact move_of_eq (sh.journal_noteWritten _ _) (by simp) (by simp)
  · exact move_of_eq rfl (by simp [Frame.owes]) (by simp)
  · exact move_of_eq (sh.journal_noteWritten _ _) (by simp) (by simp)

/-- What a step of any function does to the journal. -/
theorem move_step (f : Frame) :
    sh.Move fate f (sh.step ret fate f) := by
  cases f with
  | write rec pc => exact sh.move_writeStep ret fate rec pc
  | room pc => exact sh.move_roomStep ret fate pc
  | checkpoint pc => exact sh.move_checkpointStep ret fate pc
  | sync checkpoint pc => exact sh.move_syncStep ret fate checkpoint pc
  | drain since round pc => exact sh.move_drainStep ret fate since round pc
  | flushOne snap called => exact sh.move_flushOneStep ret fate snap called
  | flushAll called =>
    cases called with
    | false => exact move_of_eq rfl (by simp [Frame.owes]) (by simp)
    | true => exact move_of_eq rfl (by simp) (by simp)

/-- A sync returns 0 when there is nothing to do, or at its end. -/
theorem syncStep_returns {checkpoint : Bool} {pc : SyncAt}
    (hRet : (sh.syncStep ret fate checkpoint pc).2 = .ret none) :
    ((∃ since, pc = .drained since ∨ pc = .roomMade since) ∧ ret = none ∧
      sh.journal.dirty = false) ∨ pc = .tail ∨ pc = .last := by
  revert hRet
  fun_cases Shared.syncStep sh ret fate checkpoint pc
  case case3 since hClean => exact fun _ => Or.inl ⟨⟨since, Or.inl rfl⟩, rfl, hClean⟩
  case case7 since hClean => exact fun _ => Or.inl ⟨⟨since, Or.inr rfl⟩, rfl, hClean⟩
  all_goals simp

end Shared

end Briefs.Journal
