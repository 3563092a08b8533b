import Briefs.Journal.Ledger

/-!
# BrieFS — what a sync makes durable

A sync writes the current block, waits until the blocks from `synced_pos` on are on the disk, and
then commits the window up to there. When it returns 0, a record that was appended before the call
should be safe: in a durable block of the window, or retired in time.

The code does not see to this by itself. `dirty` is cleared when a block is captured and when a full
block is flushed, not when the block is durable; another sync that comes then has nothing to do, and
returns. A checkpoint that retires while a sync is between its capture and its claim takes the end
of the window back, and keeps that sync from committing. And appends may go around the ring up to
blocks that no sync has waited for. `Sys.Mindful` says that none of this happens.

## Results

* `Ledger.Ok.step` — records that are not safe are in the current block or behind `write_pos`, and a
  sync that waits has all of them that it owes.
* `sync_is_durable` — what a sync that returns 0 has made safe.
* `sync_not_durable` — a sync that returns while another one still waits.
-/

namespace Briefs.Journal

variable {r : Ring} {past : Block} {s s' : Sys}

--
-- The condition
--

/-- A flush does not go on to blocks that no sync has claimed; a checkpoint retires while no sync is
between its capture and its claim; and a sync that finds nothing to do finds that all blocks are
committed. -/
def Sys.MindfulTop (s : Sys) (ret : Option Errno) (fate : Fate) : Frame → Prop
  | .write rec _ =>
    s.shared.Short rec → s.shared.journal.flushCurBlock.writePos ≠ s.shared.journal.syncedPos
  | .checkpoint .flushed =>
    fate.before = none → ∀ t, ∀ f ∈ (s.threads t).stack, f.claims = false
  | .sync _ (.drained _) =>
    ret = none → s.shared.journal.dirty = false →
      s.shared.journal.logEnd = s.shared.journal.writePos
  | .sync _ (.roomMade _) =>
    ret = none → s.shared.journal.dirty = false →
      s.shared.journal.logEnd = s.shared.journal.writePos
  | _ => True

def Sys.Mindful (s : Sys) : Event → Prop
  | .run fate => ∀ t f rest, s.holder = some t → (s.threads t).stack = f :: rest →
    s.MindfulTop (s.threads t).ret fate f
  | _ => True

--
-- Steps of a run
--

section Top

variable {l : Ledger} {t : Nat} {ret : Option Errno} {f : Frame} {rest : List Frame} {fate : Fate}
  {sh' : Shared} {act : Act}

/-- A frame after the step was there, or the step left it on the stack of its thread. -/
theorem Sys.mem_stepped_at (hStack : (s.threads t).stack = f :: rest) {u : Nat} {g : Frame}
    (hg : g ∈ ((s.stepped t ret rest sh' act).threads u).stack) :
    g ∈ (s.threads u).stack ∨ u = t ∧ g ∈ act.frames := by
  by_cases hu : u = t
  · rcases Sys.mem_stepped hStack hg with hLeft | hOld
    · exact Or.inr ⟨hu, hLeft⟩
    · exact Or.inl hOld
  · rw [Sys.stepped_other hu] at hg
    exact Or.inl hg

/-- The frames that a step leaves owe nothing, apart from those that are shown to be covered. -/
theorem Ledger.owed_stepped {l' : Ledger} (hStack : (s.threads t).stack = f :: rest)
    (hLeft : ∀ g ∈ act.frames, l'.Owed r (s.stepped t ret rest sh' act) t g) :
    ∀ u, ∀ g ∈ ((s.stepped t ret rest sh' act).threads u).stack, g ∈ (s.threads u).stack ∨
      l'.Owed r (s.stepped t ret rest sh' act) u g := by
  intro u g hg
  rcases Sys.mem_stepped_at hStack hg with hOld | ⟨rfl, hNew⟩
  · exact Or.inl hOld
  · exact Or.inr (hLeft g hNew)

theorem syncedPos_claim (j : BriefsJournal) (start own : Nat) :
    (j.claim start own).syncedPos = j.syncedPos ∨ (j.claim start own).syncedPos = own := by
  unfold BriefsJournal.claim
  split
  · exact Or.inr rfl
  · exact Or.inl rfl

theorem clean_claim (j : BriefsJournal) (start own : Nat) :
    (j.claim start own).dirty = j.dirty ∧ (j.claim start own).writeOffset = j.writeOffset := by
  unfold BriefsJournal.claim
  split
  · exact ⟨rfl, rfl⟩
  · exact ⟨rfl, rfl⟩

theorem Thread.forcing_eq {th : Thread} {checkpoint : Bool} {since start own count : Nat}
    (hStack : th.stack = .sync checkpoint (.forced since start own count) :: rest) :
    th.forcing = some (start, own) := by
  unfold Thread.forcing
  rw [hStack]

/-- A step of the thread with the lock. -/
theorem Ledger.Ok.run (h : l.Ok r s) (hWatched : s.Watched r past l.notes)
    (hSteady : s.Steady (.run fate)) (hHolder : s.holder = some t)
    (hStack : (s.threads t).stack = f :: rest) (hMindful : s.MindfulTop ret fate f)
    (hMove : s.shared.Move fate f (sh', act))
    (hStep : s.step (.run fate) = some (s.stepped t ret rest sh' act)) :
    (l.next s (.run fate) (s.stepped t ret rest sh' act)).Ok r (s.stepped t ret rest sh' act) := by
  have hTop : f ∈ (s.threads t).stack := by
    rw [hStack]
    exact List.mem_cons_self
  have hBusy : (s.threads t).stack ≠ [] := List.ne_nil_of_mem hTop
  have hOwed := h.frames t f hTop
  have hGuard : s.GuardedTop fate f := hSteady.2.2.1 t f rest hHolder hStack
  have hTidy := hWatched.ok.shared.tidy
  cases hMove with
  | idle hIdles hFree _ =>
    refine h.still hWatched hSteady hStep hIdles.rests (Or.inl hIdles.syncedPos) ?_ ?_
    · exact fun hDirty => ⟨hIdles.dirty.symm.trans hDirty, hIdles.writeOffset⟩
    · exact Ledger.owed_stepped hStack fun g hg => Ledger.owed_of_free _ t (hFree g hg)
  | put =>
    refine h.still hWatched hSteady hStep ⟨rfl, rfl, rfl, rfl, rfl⟩ (Or.inl rfl) ?_ ?_
    · exact fun hDirty => Bool.noConfusion hDirty
    · exact Ledger.owed_stepped hStack fun g hg => absurd hg List.not_mem_nil
  | lap hShort hFull =>
    have hPaced := hWatched.inStep.paced hHolder hStack id (hGuard hShort)
    refine h.written hWatched hSteady hStep hPaced rfl (fun hEq hSynced => ?_) ?_
    · exact hMindful hShort (hEq.trans hSynced.symm)
    · refine Ledger.owed_stepped hStack fun g hg => Ledger.owed_of_free _ t ?_
      revert g
      simp [Act.frames, Frame.owes]
  | flush hShort hRoom =>
    have hPaced := hWatched.inStep.paced hHolder hStack id (hGuard hShort)
    refine h.written hWatched hSteady hStep hPaced rfl (fun hEq => absurd hEq hRoom) ?_
    refine Ledger.owed_stepped hStack fun g hg => Ledger.owed_of_free _ t ?_
    revert g
    simp [Act.frames, Frame.owes]
  | capture =>
    have hPaced := hWatched.inStep.paced hHolder hStack id hGuard.2
    have hRoom := advance_ne_of_room hGuard.1
    refine h.written hWatched hSteady hStep hPaced rfl (fun hEq => absurd hEq hRoom) ?_
    refine Ledger.owed_stepped hStack fun g hg => ?_
    obtain rfl := List.mem_singleton.mp hg
    refine h.captures hWatched hSteady hStep hPaced rfl hRoom ?_ ?_
    · unfold Thread.forcing
      rw [hStack]
    · rw [Thread.forcing_eq Sys.stepped_same]
      exact Option.some_ne_none _
  | @commit checkpoint since start own count hFate _ hLater hApart =>
    have hWaits : l.Waits r s t start own count := hOwed
    have hOwn : r.Data own := hWatched.ok.frames t _ hTop
    have hForcing := Thread.forcing_eq hStack
    have hQuiet := hSteady.2.2.2 t _ rest hHolder hStack hLater hApart
    have hPaced := hWatched.inStep.paced hHolder hStack id fun _ => hQuiet
    refine h.committed hWatched hSteady hStep hPaced hHolder hForcing hTop rfl hWaits hOwn hFate
      hLater rfl ?_
    refine Ledger.owed_stepped hStack fun g hg => ?_
    obtain rfl := List.mem_singleton.mp hg
    refine ⟨hApart, Nat.le_refl _, ?_⟩
    refine hWaits.settled h hWatched hSteady hStep hBusy rfl rfl hOwn (Nat.le_refl _) ?_
    exact fun pos hPos hLt =>
      h.durable_committed hWatched.ok hWaits hHolder hForcing hOwn hFate rfl hPos hLt
  | torn hTorn hLater hApart => exact absurd hSteady.2.1 hTorn
  | @skip checkpoint since start own count hFate hSkip =>
    have hWaits : l.Waits r s t start own count := hOwed
    have hReached : r.ahead s.shared.journal.logStart own ≤
        r.ahead s.shared.journal.logStart s.shared.journal.logEnd := by
      rcases hWaits.later with hLater | hReached
      · exact absurd ⟨hLater, hWaits.apart⟩ hSkip
      · exact hReached
    refine h.still hWatched hSteady hStep (.refl _) (Or.inl rfl) (fun hDirty => ⟨hDirty, rfl⟩) ?_
    refine Ledger.owed_stepped hStack fun g hg => ?_
    obtain rfl := List.mem_singleton.mp hg
    refine ⟨hWaits.apart, hReached, ?_⟩
    refine hWaits.settled h hWatched hSteady hStep hBusy rfl rfl hTidy.logEnd hReached ?_
    intro pos hPos hLt
    refine ⟨Sys.not_writes rfl pos, Or.inl (h.window pos hPos ?_)⟩
    rw [inLog_iff hTidy.logStart hTidy.logEnd hPos]
    omega
  | @claim checkpoint since start own _ hLeft =>
    obtain ⟨hApart, hReached, hCovers⟩ := hOwed
    obtain ⟨hDirty, hOffset⟩ := clean_claim s.shared.journal start own
    refine h.still hWatched hSteady hStep (rests_claim _ _ _) ?_ ?_ ?_
    · rcases syncedPos_claim s.shared.journal start own with hEq | hEq
      · exact Or.inl hEq
      · exact Or.inr ⟨fun hBack => hApart (hEq.symm.trans hBack), by
          show r.ahead s.shared.journal.logStart (s.shared.journal.claim start own).syncedPos ≤ _
          rw [hEq]
          exact hReached⟩
    · exact fun hClean => ⟨hDirty.symm.trans hClean, hOffset⟩
    · refine Ledger.owed_stepped hStack fun g hg => ?_
      rcases hLeft g hg with rfl | hFree
      · exact hCovers.step h hWatched hSteady hStep hBusy
      · exact Ledger.owed_of_free _ t hFree
  | wait hLeft =>
    refine h.still hWatched hSteady hStep (.refl _) (Or.inl rfl) (fun hDirty => ⟨hDirty, rfl⟩) ?_
    refine Ledger.owed_stepped hStack fun g hg => ?_
    rcases hLeft g hg with rfl | hFree
    · exact Ledger.Covers.step hOwed h hWatched hSteady hStep hBusy
    · exact Ledger.owed_of_free _ t hFree
  | retire hFate hEmpties hFree =>
    refine h.emptied hWatched hSteady hStep hEmpties (hMindful hFate) ?_
    exact Ledger.owed_stepped hStack fun g hg => Ledger.owed_of_free _ t (hFree g hg)

end Top

/-- A thread that enters the journal owes nothing yet. -/
theorem Sys.entered_free {e : Event} (hStep : s.step e = some s') (hNot : ∀ fate, e ≠ .run fate) :
    ∀ u, ∀ g ∈ (s'.threads u).stack, g ∈ (s.threads u).stack ∨ g.owes = false := by
  have hEnter : ∀ {t : Nat} {f : Frame}, f.owes = false → ∀ u,
      ∀ g ∈ ((s.setThread t ⟨none, [f]⟩).threads u).stack,
        g ∈ (s.threads u).stack ∨ g.owes = false := by
    intro t f hFree u g hg
    by_cases hu : u = t
    · rw [hu, Sys.setThread_same] at hg
      rw [List.mem_singleton.mp hg]
      exact Or.inr hFree
    · rw [s.setThread_other hu] at hg
      exact Or.inl hg
  cases e with
  | queue ino data =>
    obtain rfl := Option.some.inj hStep
    exact fun _ _ hg => Or.inl hg
  | grab t ino =>
    obtain ⟨_, _, _, rfl⟩ := Sys.step_grab hStep
    exact hEnter rfl
  | start t q =>
    obtain ⟨-, rfl⟩ := Sys.step_start hStep
    exact hEnter (by cases q <;> rfl)
  | take t =>
    obtain ⟨-, rfl⟩ := Sys.step_take hStep
    exact fun _ _ hg => Or.inl hg
  | run fate => exact absurd rfl (hNot fate)

theorem Ledger.Ok.step {l : Ledger} {e : Event} (h : l.Ok r s) (hWatched : s.Watched r past l.notes)
    (hSteady : s.Steady e) (hMindful : s.Mindful e) (hStep : s.step e = some s') :
    (l.next s e s').Ok r s' := by
  by_cases hRun : ∃ fate, e = .run fate
  · obtain ⟨fate, rfl⟩ := hRun
    obtain ⟨t, f, rest, hHolder, hStack, rfl⟩ := Sys.step_run hStep
    have hMove := s.shared.move_step (s.threads t).ret fate f
    exact h.run hWatched hSteady hHolder hStack (hMindful t f rest hHolder hStack) hMove hStep
  · have hNew := Sys.entered_free hStep fun fate hEq => hRun ⟨fate, hEq⟩
    rcases Sys.step_cases hStep with hBeside | ⟨fate, _, _, _, hEq, _⟩
    · have hJournal := hBeside.journal
      refine h.still hWatched hSteady hStep ?_ (Or.inl ?_) ?_ fun u g hg => ?_
      · rw [hJournal]
        exact .refl _
      · rw [hJournal]
      · rw [hJournal]
        exact fun hDirty => ⟨hDirty, rfl⟩
      · rcases hNew u g hg with hOld | hFree
        · exact Or.inl hOld
        · exact Or.inr (Ledger.owed_of_free _ u hFree)
    · exact absurd ⟨fate, hEq⟩ hRun

--
-- Runs
--

/-- The condition on a step: it is steady, and mindful. -/
def Sys.Careful (s : Sys) (e : Event) : Prop := s.Steady e ∧ s.Mindful e

theorem Sys.Mounted.ledger (h : s.Mounted)
    (hEmpty : s.shared.journal.logEnd = s.shared.journal.logStart)
    (hCounts : s.shared.journal.committedCount ≤ s.shared.journal.writeCount) :
    Ledger.init.Ok r s := by
  have hSynced : s.shared.journal.syncedPos = s.shared.journal.logStart := by
    rw [h.synced]
    rcases h.writePos with hEq | hEq
    · exact hEq
    · exact hEq.trans hEmpty
  refine ⟨hCounts, ?_, fun _ => rfl, fun _ => Nat.le_refl _, fun _ => Nat.le_refl _,
    fun _ => Nat.le_refl _, fun pos _ hLog => ?_, fun _ hRec => ?_, fun t => ?_⟩
  · rw [hSynced, Ring.ahead_self]
    exact Nat.zero_le _
  · exact absurd hLog (not_inLog_of_empty hEmpty pos)
  · exact absurd hRec List.not_mem_nil
  · exact fresh_of_idle (h.idle t)

theorem Ledger.Ok.logged {start : Sys} {l : Ledger} (h : Ledger.init.Ok r start)
    (hWatched : start.Watched r past .init) (hRun : Sys.Recorded Sys.Careful start s l) :
    l.Ok r s ∧ s.Watched r past l.notes := by
  induction hRun with
  | refl => exact ⟨h, hWatched⟩
  | step _ hCareful hStep ih =>
    exact ⟨ih.1.step ih.2 hCareful.1 hCareful.2 hStep, ih.2.step hCareful.1 hStep⟩

/-- A sync that finds nothing to do, with all blocks committed. -/
theorem Ledger.Ok.safe_of_clean {l : Ledger} (h : l.Ok r s) (hWatched : s.Watched r past l.notes)
    (hDirty : s.shared.journal.dirty = false)
    (hAll : s.shared.journal.logEnd = s.shared.journal.writePos) {rec : Nat} (hRec : rec ∈ l.all) :
    l.Safe s rec := by
  have hTidy := hWatched.ok.shared.tidy
  rcases h.kept rec hRec with hCur | hSafe | ⟨pos, hIn, hBehind⟩
  · rw [h.clean hDirty] at hCur
    exact absurd hCur List.not_mem_nil
  · exact hSafe
  · refine h.safe_of_reached hWatched.ok (hWatched.notes.blocks pos rec hIn).2 hIn ?_
    rcases hBehind with hLt | ⟨hFull, hNe⟩
    · rw [hAll]
      exact hLt
    · -- The window is empty, so that the ring is not full.
      have hSynced := h.synced
      rw [hAll, hFull, Ring.ahead_self] at hSynced
      exact absurd (hTidy.logStart.eq_of_ahead_zero hTidy.syncedPos (by omega)) hNe

/-- In every careful run of any threads from a mount: when a sync that a thread called returns 0,
each record that was appended before the call is in a durable block of the window, or was retired by
a checkpoint that began to flush after it was appended. -/
theorem sync_is_durable {start s s' : Sys} {l : Ledger} {fate : Fate} {t : Nat} {checkpoint : Bool}
    {pc : SyncAt} {rec : Nat} (hMount : start.Mounted)
    (hEmpty : start.shared.journal.logEnd = start.shared.journal.logStart)
    (hStart : start.shared.journal.ring.Data start.shared.journal.logStart)
    (hCounts : start.shared.journal.committedCount ≤ start.shared.journal.writeCount)
    (hRun : Sys.Recorded Sys.Careful start s l) (hCareful : s.Careful (.run fate))
    (hStep : s.step (.run fate) = some s') (hHolder : s.holder = some t)
    (hStack : (s.threads t).stack = [.sync checkpoint pc]) (hReturns : s'.threads t = ⟨none, []⟩)
    (hRec : rec ∈ l.all) (hBefore : rec < l.began t) :
    (l.next s (.run fate) s').Safe s' rec := by
  obtain ⟨hOk, hWatched⟩ := (hMount.ledger hEmpty hCounts).logged
    (hMount.watched hEmpty hStart) hRun
  have hTop : Frame.sync checkpoint pc ∈ (s.threads t).stack := by
    rw [hStack]
    exact List.mem_cons_self
  have hOwed := hOk.frames t _ hTop
  have hRet : (s.shared.syncStep (s.threads t).ret fate checkpoint pc).2 = .ret none := by
    obtain ⟨u, f, rest, hLock, hOther, rfl⟩ := Sys.step_run hStep
    obtain rfl : t = u := Option.some.inj (hHolder.symm.trans hLock)
    rw [hStack] at hOther
    obtain ⟨rfl, rfl⟩ := List.cons.inj hOther
    change (s.stepped t (s.threads t).ret [] (s.shared.syncStep (s.threads t).ret fate checkpoint
      pc).1 (s.shared.syncStep (s.threads t).ret fate checkpoint pc).2).threads t = _ at hReturns
    generalize (s.shared.syncStep (s.threads t).ret fate checkpoint pc).2 = act at hReturns
    change (s.setThread t _).threads t = _ at hReturns
    rw [Sys.setThread_same] at hReturns
    cases act with
    | goto f => exact absurd (congrArg Thread.stack hReturns) (List.cons_ne_nil _ _)
    | call f callee => exact absurd (congrArg Thread.stack hReturns) (List.cons_ne_nil _ _)
    | drop f => exact absurd (congrArg Thread.stack hReturns) (List.cons_ne_nil _ _)
    | ret res => rw [show res = none from congrArg Thread.ret hReturns]
  have hSafe : l.Safe s rec := by
    have hMindful := hCareful.2 t _ [] hHolder hStack
    rcases s.shared.syncStep_returns _ _ hRet with ⟨⟨since, rfl | rfl⟩, hNone, hClean⟩ | rfl | rfl
    · exact hOk.safe_of_clean hWatched hClean (hMindful hNone hClean) hRec
    · exact hOk.safe_of_clean hWatched hClean (hMindful hNone hClean) hRec
    · exact hOwed rec hRec hBefore
    · exact hOwed rec hRec hBefore
  exact hSafe.step hWatched hCareful.1 hStep

--
-- Examples of runs
--

/-- The state and the ledger after the events, if all of them can happen and pass the check. -/
def Sys.logTrace (check : Sys → Event → Bool) (s : Sys) (l : Ledger) :
    List Event → Option (Sys × Ledger)
  | [] => some (s, l)
  | e :: es =>
    if check s e = true then
      match s.step e with
      | none => none
      | some s' => s'.logTrace check (l.next s e s') es
    else none

theorem Sys.logged_of_trace {P : Sys → Event → Prop} {I : Sys → Prop}
    {check : Sys → Event → Bool} (hMeets : ∀ s e, I s → check s e = true → P s e)
    (hKeeps : ∀ s e s', I s → check s e = true → s.step e = some s' → I s')
    {start : Sys} {l l' : Ledger} {es : List Event} (hI : I s) (hRun : Sys.Recorded P start s l)
    (hTrace : s.logTrace check l es = some (s', l')) : Sys.Recorded P start s' l' ∧ I s' := by
  induction es generalizing s l with
  | nil =>
    obtain ⟨rfl, rfl⟩ := Prod.mk.inj (Option.some.inj hTrace)
    exact ⟨hRun, hI⟩
  | cons e es ih =>
    unfold Sys.logTrace at hTrace
    split at hTrace
    · rename_i hCheck
      split at hTrace
      · cases hTrace
      · rename_i s₁ hStep
        exact ih (hKeeps s e s₁ hI hCheck hStep) (hRun.step (hMeets s e hI hCheck) hStep) hTrace
    · cases hTrace

/-- The thread is in a sync, which it called. -/
def Thread.inSync (th : Thread) : Bool :=
  match th.stack with
  | [.sync _ _] => true
  | _ => false

theorem Thread.stack_of_inSync {th : Thread} (h : th.inSync = true) :
    ∃ checkpoint pc, th.stack = [.sync checkpoint pc] := by
  unfold Thread.inSync at h
  split at h
  · rename_i checkpoint pc hStack
    exact ⟨checkpoint, pc, hStack⟩
  · exact Bool.noConfusion h

/-- The thread has left the journal, with 0. -/
def Thread.left (th : Thread) : Bool := th.ret.isNone && th.stack.isEmpty

theorem Thread.eq_of_left {th : Thread} (h : th.left = true) : th = ⟨none, []⟩ := by
  obtain ⟨hRet, hStack⟩ := Bool.and_eq_true_iff.mp h
  rw [Option.isNone_iff_eq_none] at hRet
  rw [List.isEmpty_iff] at hStack
  obtain ⟨ret, stack⟩ := th
  rw [show ret = none from hRet, show stack = [] from hStack]

/-- What is to be checked of an event of a thread that is alone: it appends to a block with room,
and has something to sync. -/
def Sys.carefulCheck (s : Sys) (e : Event) : Bool :=
  s.soloCheck e &&
    match e, (s.threads 0).stack with
    | .run _, .write rec _ :: _ => !decide (s.shared.Short rec)
    | .run _, .checkpoint .flushed :: _ => false
    | .run _, .sync _ (.drained _) :: _ => s.shared.journal.dirty
    | .run _, .sync _ (.roomMade _) :: _ => s.shared.journal.dirty
    | _, _ => true

theorem Sys.Solo.careful (h : s.Solo) {e : Event} (hCheck : s.carefulCheck e = true) :
    s.Careful e := by
  obtain ⟨hSolo, hTop⟩ := Bool.and_eq_true_iff.mp hCheck
  refine ⟨h.steady hSolo, ?_⟩
  cases e with
  | run fate =>
    intro t f rest _ hStack
    obtain rfl := h.eq_zero hStack
    rw [hStack] at hTop
    cases f with
    | write rec pc =>
      have hRoom : ¬s.shared.Short rec := by simpa using hTop
      exact fun hShort => absurd hShort hRoom
    | checkpoint pc =>
      cases pc with
      | flushed => exact Bool.noConfusion hTop
      | entry | await => exact trivial
    | sync checkpoint pc =>
      cases pc with
      | drained since =>
        have hDirty : s.shared.journal.dirty = true := hTop
        exact fun _ hClean => absurd (hDirty.symm.trans hClean) Bool.noConfusion
      | roomMade since =>
        have hDirty : s.shared.journal.dirty = true := hTop
        exact fun _ hClean => absurd (hDirty.symm.trans hClean) Bool.noConfusion
      | entry | capture | forced | flushed | tail | last => exact trivial
    | room | drain | flushOne | flushAll => exact trivial
  | queue | grab | start | take => exact trivial

/-- The record that event 2 appended is safe when the sync that began at event 3 returns. -/
theorem sync_is_durable_small :
    smallSys.Mounted ∧ ∃ s l s', Sys.Recorded Sys.Careful smallSys s l ∧
      s.step (.run ⟨none, none, false⟩) = some s' ∧ 2 ∈ l.all ∧ 2 < l.began 0 ∧
      s'.threads 0 = ⟨none, []⟩ ∧
      (l.next s (.run ⟨none, none, false⟩) s').Safe s' 2 := by
  have hData : smallSys.shared.journal.ring.Data smallSys.shared.journal.logStart :=
    ⟨by show 100 ≤ 106 ∧ 106 < 108; omega, by show 106 ≠ 107; omega⟩
  refine ⟨smallSys_mounted, ?_⟩
  obtain ⟨⟨s, l⟩, hs⟩ :
      ∃ x, smallSys.logTrace Sys.carefulCheck .init appendAndSync.dropLast = some x :=
    Option.isSome_iff_exists.mp (by decide)
  have hFacts : (smallSys.logTrace Sys.carefulCheck .init appendAndSync.dropLast).map (fun x =>
      (x.1.carefulCheck (.run ⟨none, none, false⟩), x.1.holder, (x.1.threads 0).inSync, x.2.all,
        x.2.began 0)) = some (true, some 0, true, [2], 3) := by decide
  have hAfter : (smallSys.logTrace Sys.carefulCheck .init appendAndSync.dropLast).map (fun x =>
      (x.1.step (.run ⟨none, none, false⟩)).map fun s' => (s'.threads 0).left) =
        some (some true) := by decide
  rw [hs, Option.map_some, Option.some.injEq] at hFacts hAfter
  simp only [Prod.mk.injEq] at hFacts
  obtain ⟨hCheck, hHolder, hSync, hAll, hBegan⟩ := hFacts
  obtain ⟨s', hStep, hLeft⟩ := Option.map_eq_some_iff.mp hAfter
  obtain ⟨checkpoint, pc, hStack⟩ := Thread.stack_of_inSync hSync
  have hKeeps : ∀ (s : Sys) (e : Event) (s' : Sys), s.Solo → s.carefulCheck e = true →
      s.step e = some s' → s'.Solo :=
    fun _ _ _ hSolo hOk hNext => hSolo.step (Bool.and_eq_true_iff.mp hOk).1 hNext
  obtain ⟨hRun, hSolo⟩ := Sys.logged_of_trace (I := Sys.Solo) (fun _ _ h hOk => h.careful hOk)
    hKeeps (fun _ _ => rfl) .refl hs
  have hRec : 2 ∈ l.all := by
    rw [hAll]
    exact List.mem_cons_self
  have hBefore : 2 < l.began 0 := by omega
  have hReturns := Thread.eq_of_left hLeft
  exact ⟨s, l, s', hRun, hStep, hRec, hBefore, hReturns,
    sync_is_durable smallSys_mounted rfl hData (Nat.le_refl _) hRun (hSolo.careful hCheck) hStep
      hHolder hStack hReturns hRec hBefore⟩

/-- No error, and the window is empty. -/
def Sys.emptyCheck (s : Sys) (e : Event) : Bool :=
  s.shared.journal.logEnd == s.shared.journal.logStart &&
    match e with
    | .start _ q => q.plain
    | .take _ => true
    | .run fate => fate.before.isNone && fate.after.isNone
    | _ => false

theorem Event.calm_of_emptyCheck {e : Event} (hCheck : s.emptyCheck e = true) : e.Calm := by
  have hEvent := (Bool.and_eq_true_iff.mp hCheck).2
  cases e with
  | queue ino data => exact Bool.noConfusion hEvent
  | grab t ino => exact Bool.noConfusion hEvent
  | start t q =>
    refine ⟨?_, trivial, fun _ hEq => Event.noConfusion hEq⟩
    have hPlain : q.plain = true := hEvent
    cases q with
    | write c =>
      cases c with
      | inodeFree ino => exact trivial
      | _ => exact Bool.noConfusion hPlain
    | sync periodic => exact trivial
    | checkpoint => exact trivial
    | flushAll => exact trivial
  | take t => exact ⟨trivial, trivial, fun _ hEq => Event.noConfusion hEq⟩
  | run fate =>
    simp only [Bool.and_eq_true, Option.isNone_iff_eq_none] at hEvent
    refine ⟨trivial, hEvent.2, fun fate' hEq => ?_⟩
    rw [← Event.run.inj hEq]
    exact hEvent.1

/-- Nothing is retired from an empty window. -/
theorem Sys.Recorded.not_retired {P : Sys → Event → Prop} {start : Sys} {l : Ledger}
    (h : Sys.Recorded (fun s e => P s e ∧ s.shared.journal.logEnd = s.shared.journal.logStart)
      start s l) (rec : Nat) : ¬l.retired rec := by
  induction h with
  | refl => exact id
  | step _ hStepOk _ ih =>
    rintro (hBefore | ⟨⟨pos, hLog, _⟩, _⟩)
    · exact ih hBefore
    · exact not_inLog_of_empty hStepOk.2 pos hLog

theorem Sys.Recorded.mono {P Q : Sys → Event → Prop} (hWeaker : ∀ s e, P s e → Q s e) {start : Sys}
    {l : Ledger} (h : Sys.Recorded P start s l) : Sys.Recorded Q start s l := by
  induction h with
  | refl => exact .refl
  | step _ hStepOk hStep ih => exact ih.step (hWeaker _ _ hStepOk) hStep

/-- A thread appends a record, and its sync drops the lock to wait for the block. Another thread
calls a sync. -/
def hastyEvents : List Event :=
  appendAndSteps 0 4 ++ [.start 1 (.sync true), .take 1] ++
    List.replicate 2 (.run ⟨none, none, false⟩)

/-- Without an error, the sync that thread 1 called at event 9 returns 0. The record that event 2
appended is neither in the window nor retired. -/
theorem sync_not_durable :
    smallSys.Mounted ∧ smallSys.shared.journal.logEnd = smallSys.shared.journal.logStart ∧
      smallSys.shared.journal.committedCount ≤ smallSys.shared.journal.writeCount ∧
      ∃ s l s', Sys.Recorded (fun _ e => e.Calm) smallSys s l ∧
        s.step (.run ⟨none, none, false⟩) = some s' ∧ s.holder = some 1 ∧
        (∃ checkpoint pc, (s.threads 1).stack = [.sync checkpoint pc]) ∧
        s'.threads 1 = ⟨none, []⟩ ∧ 2 ∈ l.all ∧ l.began 1 = 9 ∧
        ¬(l.next s (.run ⟨none, none, false⟩) s').Safe s' 2 := by
  refine ⟨smallSys_mounted, rfl, Nat.le_refl _, ?_⟩
  obtain ⟨⟨s, l⟩, hs⟩ : ∃ x, smallSys.logTrace Sys.emptyCheck .init hastyEvents = some x :=
    Option.isSome_iff_exists.mp (by decide)
  have hFacts : (smallSys.logTrace Sys.emptyCheck .init hastyEvents).map (fun x =>
      (x.1.emptyCheck (.run ⟨none, none, false⟩), x.1.holder, (x.1.threads 1).inSync, x.2.all,
        x.2.began 1)) = some (true, some 1, true, [2], 9) := by decide
  have hAfter : (smallSys.logTrace Sys.emptyCheck .init hastyEvents).map (fun x =>
      (x.1.step (.run ⟨none, none, false⟩)).map fun s' => ((s'.threads 1).left,
        s'.shared.journal.logStart, s'.shared.journal.logEnd)) =
          some (some (true, 106, 106)) := by decide
  rw [hs, Option.map_some, Option.some.injEq] at hFacts hAfter
  simp only [Prod.mk.injEq] at hFacts
  obtain ⟨hCheck, hHolder, hSync, hAll, hBegan⟩ := hFacts
  obtain ⟨s', hStep, hEnd⟩ := Option.map_eq_some_iff.mp hAfter
  simp only [Prod.mk.injEq] at hEnd
  obtain ⟨hLeft, hLogStart, hLogEnd⟩ := hEnd
  have hMeets : ∀ (s : Sys) (e : Event), s.emptyCheck e = true →
      e.Calm ∧ s.shared.journal.logEnd = s.shared.journal.logStart :=
    fun _ _ hOk => ⟨Event.calm_of_emptyCheck hOk, beq_iff_eq.mp (Bool.and_eq_true_iff.mp hOk).1⟩
  obtain ⟨hRun, -⟩ := Sys.logged_of_trace (I := fun _ => True) (fun s e _ hOk => hMeets s e hOk)
    (fun _ _ _ _ _ _ => trivial) trivial .refl hs
  refine ⟨s, l, s', hRun.mono fun _ _ hOk => hOk.1, hStep, hHolder, Thread.stack_of_inSync hSync,
    Thread.eq_of_left hLeft, ?_, hBegan, ?_⟩
  · rw [hAll]
    exact List.mem_cons_self
  · rintro (⟨pos, hLog, _⟩ | hRetired)
    · exact not_inLog_of_empty (hLogEnd.trans hLogStart.symm) pos hLog
    · exact (hRun.step (hMeets s _ hCheck) hStep).not_retired 2 hRetired

end Briefs.Journal
