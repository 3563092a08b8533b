import Briefs.Journal.Overrun

/-!
# BrieFS — how records leave the window

A record that is in the window of the superblock is found by a replay. It should leave the window
only when a checkpoint retires it, and this checkpoint should have started to flush the metadata
and the bitmaps after the record was appended: the record is no longer needed then.

A checkpoint retires what is synced at its end, and it drops the lock while it flushes. A record
that is appended and committed in between is retired as well. `Sys.Patient` says that no sync
commits while a checkpoint is on its way; then the window that is retired is the one from before
the flushes. What syncs commit extends the window, as they commit in the order of their captures.

`Notes` goes beside a run and numbers its events. A record is known by the event that appended it.

## Results

* `Sys.Lined.step` — captures that may still be committed are in order behind the window.
* `Notes.Ok.step` — a checkpoint on its way is younger than all records of the window.
* `records_leave_at_retire` — a record leaves the window at a retire that came after it.
* `record_leaves_early` — a record that was appended and synced during the flushes.
-/

namespace Briefs.Journal

variable {r : Ring} {past : Block} {s s' : Sys}

--
-- Notes on a run
--

/-- The number of events so far; the events that appended the records of the current block, and
those of the block at each position; the event at which a thread's checkpoint began to flush. -/
structure Notes where
  clock  : Nat
  cur    : List Nat
  blocks : Nat → List Nat
  since  : Nat → Nat

def Notes.init : Notes := ⟨0, [], fun _ => [], fun _ => 0⟩

/-- The thread is in a checkpoint that flushes, and has not retired the window yet. -/
def Thread.retiring (th : Thread) : Bool :=
  match th.stack with
  | .checkpoint .flushed :: _ => true
  | _ => false

/-- The notes after a step. A block was written if `write_count` went up, and a record was appended
if `write_offset` did without that. -/
def Notes.next (n : Notes) (s s' : Sys) : Notes where
  clock  := n.clock + 1
  cur    :=
    if s'.shared.journal.writeCount ≠ s.shared.journal.writeCount then []
    else if s'.shared.journal.writeOffset ≠ s.shared.journal.writeOffset then n.clock :: n.cur
    else n.cur
  blocks :=
    if s'.shared.journal.writeCount ≠ s.shared.journal.writeCount then
      Function.update n.blocks s.shared.journal.writePos n.cur
    else n.blocks
  since  := fun t =>
    if (s'.threads t).retiring = true ∧ (s.threads t).retiring = false then n.clock else n.since t

/-- The window holds the record. -/
def Notes.Holds (n : Notes) (s : Sys) (rec : Nat) : Prop :=
  ∃ pos, s.shared.journal.InLog pos ∧ rec ∈ n.blocks pos

/-- The states that a run leads to, with its notes. -/
inductive Sys.Traced (P : Sys → Event → Prop) (start : Sys) : Sys → Notes → Prop where
  | refl : Traced P start start .init
  | step {s s' : Sys} {n : Notes} {e : Event} : Traced P start s n → P s e → s.step e = some s' →
      Traced P start s' (n.next s s')

--
-- The order of commits
--

/-- What syncs have captured and may still commit does not end before the window, and a later
capture does not end before an earlier one. -/
structure Sys.Ordered (r : Ring) (s : Sys) : Prop where
  window : ∀ t, ∀ f ∈ (s.threads t).stack, ∀ own count, f.captured = some (own, count) →
    s.shared.journal.committedCount < count →
      r.ahead s.shared.journal.logStart s.shared.journal.logEnd ≤
        r.ahead s.shared.journal.logStart own
  syncs  : ∀ t, ∀ f ∈ (s.threads t).stack, ∀ own count, f.captured = some (own, count) →
    ∀ u, ∀ g ∈ (s.threads u).stack, ∀ own' count', g.captured = some (own', count') →
      s.shared.journal.committedCount < count → count ≤ count' →
        r.ahead s.shared.journal.logStart own ≤ r.ahead s.shared.journal.logStart own'

/-- In a state in step the captures are in order. -/
def Sys.Lined (r : Ring) (s : Sys) : Prop := s.Paced r → s.Ordered r

/-- At the start of the window there is nothing to be out of order. -/
theorem lined_of_full (hFull : s.shared.journal.writePos = s.shared.journal.logStart) :
    s.Lined r := by
  intro hPaced
  have hZero : r.ahead s.shared.journal.logStart s.shared.journal.writePos = 0 := by
    rw [hFull, Ring.ahead_self]
  have hEnd := hPaced.window
  rw [hZero] at hEnd
  refine ⟨fun t f hf own count _ _ => by omega, ?_⟩
  intro t f hf own count hCaptured u g hg own' count' _ hLater _
  have hOwn := hPaced.syncs t f hf own count hCaptured hLater
  rw [hZero] at hOwn
  omega

--
-- The condition
--

/-- A sync that commits does so while no checkpoint is on its way to a retire. -/
def Sys.PatientTop (s : Sys) : Frame → Prop
  | .sync _ (.forced _ _ own count) =>
    s.shared.journal.committedCount < count → own ≠ s.shared.journal.logStart → ¬s.Retiring
  | _ => True

def Sys.Patient (s : Sys) : Event → Prop
  | .run _ => ∀ t f rest, s.holder = some t → (s.threads t).stack = f :: rest → s.PatientTop f
  | _ => True

/-- The superblock is written without an error. -/
def Event.Saved : Event → Prop
  | .run fate => fate.after = none
  | _ => True

--
-- Steps
--

section Top

variable {t : Nat} {ret : Option Errno} {f : Frame} {rest : List Frame} {sh' : Shared} {act : Act}
  {fate : Fate}

theorem Sys.Ordered.rests (h : s.Ordered r) (hStack : (s.threads t).stack = f :: rest)
    (hRests : s.shared.journal.Rests sh'.journal) (hBare : act.Bare) :
    (s.stepped t ret rest sh' act).Ordered r := by
  refine ⟨fun u g hg own count hCaptured hLater => ?_, ?_⟩
  · change sh'.journal.committedCount < count at hLater
    show r.ahead sh'.journal.logStart sh'.journal.logEnd ≤ r.ahead sh'.journal.logStart own
    rw [hRests.committedCount] at hLater
    rw [hRests.logStart, hRests.logEnd]
    exact h.window u g (Sys.captured_stepped hStack hBare hg hCaptured) own count hCaptured hLater
  · intro u g hg own count hCaptured u' g' hg' own' count' hCaptured' hLater hLe
    change sh'.journal.committedCount < count at hLater
    show r.ahead sh'.journal.logStart own ≤ r.ahead sh'.journal.logStart own'
    rw [hRests.committedCount] at hLater
    rw [hRests.logStart]
    exact h.syncs u g (Sys.captured_stepped hStack hBare hg hCaptured) own count hCaptured u' g'
      (Sys.captured_stepped hStack hBare hg' hCaptured') own' count' hCaptured' hLater hLe

/-- After a retire no sync may commit what it captured. -/
theorem Sys.Counted.ordered (h : s.Counted)
    (hAll : s.shared.journal.writeCount ≤ s.shared.journal.committedCount) : s.Ordered r := by
  refine ⟨fun u g hg own count hCaptured hLater => ?_, ?_⟩
  · have hCount := h u g hg own count hCaptured
    omega
  · intro u g hg own count hCaptured u' g' hg' own' count' _ hLater _
    have hCount := h u g hg own count hCaptured
    omega

/-- The syncs that are left come after the one that commits. -/
theorem Sys.Ordered.commit (h : s.Ordered r) (hStack : (s.threads t).stack = f :: rest)
    {own count : Nat} (hOwn : f.captured = some (own, count))
    (hCommits : s.shared.journal.Commits sh'.journal own count)
    (hSaved : sh'.journal.committedCount = count) (hBare : act.Bare) :
    (s.stepped t ret rest sh' act).Ordered r := by
  have hTop : f ∈ (s.threads t).stack := by
    rw [hStack]
    exact List.mem_cons_self
  refine ⟨fun u g hg own' count' hCaptured hLater => ?_, ?_⟩
  · change sh'.journal.committedCount < count' at hLater
    show r.ahead sh'.journal.logStart sh'.journal.logEnd ≤ r.ahead sh'.journal.logStart own'
    rw [hSaved] at hLater
    rw [hCommits.logStart, hCommits.logEnd]
    exact h.syncs t f hTop own count hOwn u g (Sys.captured_stepped hStack hBare hg hCaptured)
      own' count' hCaptured hCommits.later (Nat.le_of_lt hLater)
  · intro u g hg own₁ count₁ hCaptured u' g' hg' own₂ count₂ hCaptured' hLater hLe
    change sh'.journal.committedCount < count₁ at hLater
    show r.ahead sh'.journal.logStart own₁ ≤ r.ahead sh'.journal.logStart own₂
    rw [hCommits.logStart]
    exact h.syncs u g (Sys.captured_stepped hStack hBare hg hCaptured) own₁ count₁ hCaptured u' g'
      (Sys.captured_stepped hStack hBare hg' hCaptured') own₂ count₂ hCaptured'
      (Nat.lt_of_le_of_lt hCommits.committedCount hLater) hLe

/-- A block is written. What the step captures has the greatest count, and ends at `write_pos`. -/
theorem Sys.Ordered.flush (h : s.Ordered r) (hPaced : s.Paced r) (hCounted : s.Counted)
    (hStack : (s.threads t).stack = f :: rest)
    (hAhead : r.ahead s.shared.journal.logStart s.shared.journal.writePos ≤
      r.ahead s.shared.journal.logStart s.shared.journal.flushCurBlock.writePos)
    (hNew : ∀ g ∈ act.frames, ∀ own count, g.captured = some (own, count) →
      own = s.shared.journal.flushCurBlock.writePos ∧
        count = s.shared.journal.flushCurBlock.writeCount) :
    (s.stepped t ret rest { s.shared with journal := s.shared.journal.flushCurBlock } act).Ordered
      r := by
  have hMore : s.shared.journal.writeCount < s.shared.journal.flushCurBlock.writeCount := by
    have hPos := s.shared.journal.ring.steps_pos s.shared.journal.writePos
    show _ < s.shared.journal.writeCount + s.shared.journal.ring.steps s.shared.journal.writePos
    omega
  have hWindow := hPaced.window
  refine ⟨fun u g hg own count hCaptured hLater => ?_, ?_⟩
  · show r.ahead s.shared.journal.logStart s.shared.journal.logEnd ≤
      r.ahead s.shared.journal.logStart own
    rcases Sys.mem_stepped hStack hg with hLeft | hOld
    · rw [(hNew g hLeft own count hCaptured).1]
      omega
    · exact h.window u g hOld own count hCaptured hLater
  · intro u g hg own count hCaptured u' g' hg' own' count' hCaptured' hLater hLe
    show r.ahead s.shared.journal.logStart own ≤ r.ahead s.shared.journal.logStart own'
    rcases Sys.mem_stepped hStack hg with hLeft | hOld
    · rcases Sys.mem_stepped hStack hg' with hLeft' | hOld'
      · rw [(hNew g hLeft own count hCaptured).1, (hNew g' hLeft' own' count' hCaptured').1]
      · -- The other one was captured before.
        have hCount := hCounted u' g' hOld' own' count' hCaptured'
        have hNewest := (hNew g hLeft own count hCaptured).2
        omega
    · rcases Sys.mem_stepped hStack hg' with hLeft' | hOld'
      · have hOwn := hPaced.syncs u g hOld own count hCaptured hLater
        rw [(hNew g' hLeft' own' count' hCaptured').1]
        omega
      · exact h.syncs u g hOld own count hCaptured u' g' hOld' own' count' hCaptured' hLater hLe

theorem Sys.Lined.run (h : s.Lined r) (hIn : s.InStep r) (hOk : s.Ok r past)
    (hHolder : s.holder = some t) (hStack : (s.threads t).stack = f :: rest)
    (hGuard : s.GuardedTop fate f) (hAfter : fate.after = none) :
    (s.runTop fate t ret f rest).Lined r := by
  have hDeed := s.shared.deed_step ret fate f
  have hCounted : (s.runTop fate t ret f rest).Counted := hIn.counted.run hStack
  change (s.stepped t ret rest (s.shared.step ret fate f).1 (s.shared.step ret fate f).2).Counted
    at hCounted
  change (s.stepped t ret rest (s.shared.step ret fate f).1 (s.shared.step ret fate f).2).Lined r
  generalize s.shared.step ret fate f = x at hDeed hCounted ⊢
  cases hDeed with
  | rest hRests hBare hFailed =>
    rcases hIn.state with hPaced | hClosing
    · exact fun _ => (h hPaced).rests hStack hRests hBare
    · refine lined_of_full ?_
      show _ = _
      rw [Sys.stepped, hRests.writePos, hRests.logStart, hClosing.full]
  | lap hShort hFull => exact lined_of_full hFull
  | flush hShort hRoom =>
    have hPaced := hIn.paced hHolder hStack id (hGuard hShort)
    refine fun _ => (h hPaced).flush hPaced hIn.counted hStack ?_ ?_
    · exact Nat.le_of_lt (by rw [hOk.ahead_flush hRoom]; omega)
    · simp [Act.frames, Frame.captured]
  | capture =>
    have hPaced := hIn.paced hHolder hStack id hGuard.2
    refine fun _ => (h hPaced).flush hPaced hIn.counted hStack ?_ ?_
    · exact Nat.le_of_lt (by rw [hOk.ahead_flush (advance_ne_of_room hGuard.1)]; omega)
    · simp only [Act.frames, List.mem_singleton, forall_eq, Frame.captured, Option.some.injEq,
        Prod.mk.injEq]
      rintro own count ⟨rfl, rfl⟩
      exact ⟨rfl, rfl⟩
  | commit hCommits hSaved hBare =>
    rcases hIn.state with hPaced | hClosing
    · exact fun _ => (h hPaced).commit hStack rfl hCommits (hSaved hAfter) hBare
    · refine lined_of_full ?_
      show _ = _
      rw [Sys.stepped, hCommits.writePos, hCommits.logStart, hClosing.full]
  | retire _ hRetired hBare =>
    refine fun _ => hCounted.ordered (Nat.le_of_eq ?_)
    show _ = _
    rw [Sys.stepped, hRetired.writeCount, hRetired.committedCount]

end Top

theorem Sys.Beside.mem (h : s.Beside s') {t : Nat} {f : Frame} (hf : f ∈ (s.threads t).stack) :
    f ∈ (s'.threads t).stack := by
  rwa [h.busy t (List.ne_nil_of_mem hf)]

theorem Sys.Lined.beside (h : s.Lined r) (hBeside : s.Beside s') : s'.Lined r := by
  intro hPaced
  have hBefore : s.Paced r := by
    refine ⟨?_, fun t f hf own count hCaptured hLater => ?_⟩
    · rw [← hBeside.journal]
      exact hPaced.window
    · rw [← hBeside.journal] at hLater ⊢
      exact hPaced.syncs t f (hBeside.mem hf) own count hCaptured hLater
  have hOrdered := h hBefore
  refine ⟨fun t f hf own count hCaptured hLater => ?_, ?_⟩
  · rw [hBeside.journal] at hLater ⊢
    exact hOrdered.window t f (hBeside.captured hf hCaptured) own count hCaptured hLater
  · intro t f hf own count hCaptured u g hg own' count' hCaptured' hLater hLe
    rw [hBeside.journal] at hLater ⊢
    exact hOrdered.syncs t f (hBeside.captured hf hCaptured) own count hCaptured u g
      (hBeside.captured hg hCaptured') own' count' hCaptured' hLater hLe

theorem Sys.Lined.step (h : s.Lined r) (hIn : s.InStep r) (hOk : s.Ok r past) {e : Event}
    (hGuard : s.Guarded e) (hSaved : e.Saved) (hStep : s.step e = some s') : s'.Lined r := by
  rcases Sys.step_cases hStep with hBeside | ⟨fate, t, f, rest, rfl, hHolder, hStack, rfl⟩
  · exact h.beside hBeside
  · exact h.run hIn hOk hHolder hStack (hGuard t f rest hHolder hStack) hSaved

--
-- The window in a step
--

/-- What a step does to the window and the blocks in it. -/
inductive Notes.Shift (r : Ring) (n : Notes) (s s' : Sys) : Event → Prop where
  | keep {e : Event} (hLog : ∀ pos, s'.shared.journal.InLog pos ↔ s.shared.journal.InLog pos)
      (hBlocks : ∀ pos, s.shared.journal.InLog pos → (n.next s s').blocks pos = n.blocks pos) :
      Shift r n s s' e
  | grow {fate : Fate} (hLog : ∀ pos, r.Data pos → s.shared.journal.InLog pos →
      s'.shared.journal.InLog pos) (hBlocks : (n.next s s').blocks = n.blocks)
      (hQuiet : ¬s.Retiring) : Shift r n s s' (.run fate)
  | clear {fate : Fate} {t : Nat} {rest : List Frame} (hHolder : s.holder = some t)
      (hStack : (s.threads t).stack = .checkpoint .flushed :: rest) (hOk : fate.before = none)
      (hLog : ∀ pos, ¬s'.shared.journal.InLog pos) : Shift r n s s' (.run fate)

theorem not_inLog_of_empty {j : BriefsJournal} (h : j.logEnd = j.logStart) (pos : Nat) :
    ¬j.InLog pos := by
  unfold BriefsJournal.InLog
  rw [h, if_pos (Nat.le_refl _)]
  omega

theorem inLog_congr {j j' : BriefsJournal} (hStart : j'.logStart = j.logStart)
    (hEnd : j'.logEnd = j.logEnd) (pos : Nat) : j'.InLog pos ↔ j.InLog pos := by
  unfold BriefsJournal.InLog
  rw [hStart, hEnd]

theorem blocks_next_same (n : Notes)
    (hSame : s'.shared.journal.writeCount = s.shared.journal.writeCount) :
    (n.next s s').blocks = n.blocks := if_neg (not_not.mpr hSame)

/-- A block that is written outside the window. -/
theorem blocks_next_inLog (n : Notes) (hOut : s'.shared.journal.writeCount ≠
      s.shared.journal.writeCount → ¬s.shared.journal.InLog s.shared.journal.writePos) {pos : Nat}
    (hIn : s.shared.journal.InLog pos) : (n.next s s').blocks pos = n.blocks pos := by
  by_cases hSame : s'.shared.journal.writeCount = s.shared.journal.writeCount
  · rw [blocks_next_same n hSame]
  · have hNe : pos ≠ s.shared.journal.writePos := by
      rintro rfl
      exact hOut hSame hIn
    have hBlocks : (n.next s s').blocks =
        Function.update n.blocks s.shared.journal.writePos n.cur := if_pos hSame
    rw [hBlocks, Function.update_of_ne hNe]

theorem Notes.shift_step (n : Notes) (hIn : s.InStep r) (hLined : s.Lined r) (hOk : s.Ok r past)
    {e : Event} (hGuard : s.Guarded e) (hPatient : s.Patient e) (hStep : s.step e = some s') :
    n.Shift r s s' e := by
  have hOut := hIn.not_inLog hOk hGuard hStep
  have hTidy := hOk.shared.tidy
  rcases Sys.step_cases hStep with hBeside | ⟨fate, t, f, rest, rfl, hHolder, hStack, rfl⟩
  · exact .keep (fun pos => by rw [hBeside.journal]) fun pos hPos => blocks_next_inLog n hOut hPos
  · have hDeed := s.shared.deed_step (s.threads t).ret fate f
    have hShared : (s.runTop fate t (s.threads t).ret f rest).shared =
      (s.shared.step (s.threads t).ret fate f).1 := rfl
    generalize s.shared.step (s.threads t).ret fate f = x at hDeed hShared
    cases hDeed with
    | rest hRests hBare hFailed =>
      refine .keep (fun pos => ?_) fun pos hPos => blocks_next_inLog n hOut hPos
      rw [hShared]
      exact inLog_congr hRests.logStart hRests.logEnd pos
    | lap hShort hFull =>
      refine .keep (fun pos => ?_) fun pos hPos => blocks_next_inLog n hOut hPos
      rw [hShared]
      exact inLog_congr rfl rfl pos
    | flush hShort hRoom =>
      refine .keep (fun pos => ?_) fun pos hPos => blocks_next_inLog n hOut hPos
      rw [hShared]
      exact inLog_congr rfl rfl pos
    | capture =>
      refine .keep (fun pos => ?_) fun pos hPos => blocks_next_inLog n hOut hPos
      rw [hShared]
      exact inLog_congr rfl rfl pos
    | @commit checkpoint since start own count _ _ hCommits hSaved hBare =>
      have hQuiet := hPatient t _ rest hHolder hStack hCommits.later hCommits.apart
      have hPaced := hIn.paced hHolder hStack id fun _ => hQuiet
      have hTop : Frame.sync checkpoint (.forced since start own count) ∈ (s.threads t).stack := by
        rw [hStack]
        exact List.mem_cons_self
      have hFurther := (hLined hPaced).window t _ hTop own count rfl hCommits.later
      have hOwn : r.Data own := hOk.frames t _ hTop
      refine .grow (fun pos hPos hLog => ?_) ?_ hQuiet
      · rw [hShared]
        rw [inLog_iff hTidy.logStart hTidy.logEnd hPos] at hLog
        rw [inLog_iff (by rw [hCommits.logStart]; exact hTidy.logStart)
          (by rw [hCommits.logEnd]; exact hOwn) hPos, hCommits.logStart, hCommits.logEnd]
        omega
      · refine blocks_next_same n ?_
        rw [hShared]
        exact hCommits.writeCount
    | retire hDone hRetired hBare =>
      refine .clear hHolder hStack hDone fun pos => ?_
      rw [hShared]
      exact not_inLog_of_empty hRetired.window pos

--
-- The notes in a step
--

theorem Thread.retiring_iff {th : Thread} :
    th.retiring = true ↔ ∃ rest, th.stack = .checkpoint .flushed :: rest := by
  unfold Thread.retiring
  split
  · rename_i rest hStack
    exact ⟨fun _ => ⟨rest, hStack⟩, fun _ => rfl⟩
  · rename_i hNot
    exact ⟨fun h => Bool.noConfusion h, fun ⟨rest, hStack⟩ => absurd hStack (hNot rest)⟩

/-- Records were appended before now, and are in blocks for records. A checkpoint that has yet to
retire began its flushes after all records of the window were appended. -/
structure Notes.Ok (r : Ring) (s : Sys) (n : Notes) : Prop where
  cur    : ∀ rec ∈ n.cur, rec < n.clock
  blocks : ∀ pos, ∀ rec ∈ n.blocks pos, rec < n.clock ∧ r.Data pos
  since  : ∀ t, (s.threads t).retiring = true → ∀ rec, n.Holds s rec → rec < n.since t

theorem Notes.Ok.blocks_next {n : Notes} (h : n.Ok r s) (hPos : r.Data s.shared.journal.writePos)
    {pos rec : Nat} (hRec : rec ∈ (n.next s s').blocks pos) : rec < n.clock ∧ r.Data pos := by
  by_cases hSame : s'.shared.journal.writeCount = s.shared.journal.writeCount
  · rw [blocks_next_same n hSame] at hRec
    exact h.blocks pos rec hRec
  · have hBlocks : (n.next s s').blocks =
        Function.update n.blocks s.shared.journal.writePos n.cur := if_pos hSame
    rw [hBlocks] at hRec
    by_cases hEq : pos = s.shared.journal.writePos
    · rw [hEq, Function.update_self] at hRec
      rw [hEq]
      exact ⟨h.cur rec hRec, hPos⟩
    · rw [Function.update_of_ne hEq] at hRec
      exact h.blocks pos rec hRec

/-- While a checkpoint is on its way the window does not get new records. -/
theorem Notes.Shift.holds {n : Notes} {e : Event} (h : n.Shift r s s' e) {t rec : Nat}
    (hRetiring : (s.threads t).retiring = true) (hHolds : (n.next s s').Holds s' rec) :
    n.Holds s rec := by
  obtain ⟨pos, hLog, hRec⟩ := hHolds
  cases h with
  | keep hSame hBlocks =>
    have hBefore := (hSame pos).mp hLog
    rw [hBlocks pos hBefore] at hRec
    exact ⟨pos, hBefore, hRec⟩
  | grow _ _ hQuiet =>
    obtain ⟨rest, hStack⟩ := Thread.retiring_iff.mp hRetiring
    exact absurd ⟨t, rest, hStack⟩ hQuiet
  | clear _ _ _ hNone => exact absurd hLog (hNone pos)

theorem Notes.Ok.step {n : Notes} (h : n.Ok r s) (hOk : s.Ok r past) {e : Event}
    (hShift : n.Shift r s s' e) : (n.next s s').Ok r s' := by
  have hOld : ∀ pos rec, rec ∈ (n.next s s').blocks pos → rec < n.clock ∧ r.Data pos :=
    fun _ _ hRec => h.blocks_next hOk.shared.tidy.writePos hRec
  refine ⟨?_, fun pos rec hRec => ?_, fun t hRetiring rec hHolds => ?_⟩
  · intro rec hRec
    show rec < n.clock + 1
    simp only [Notes.next] at hRec
    split at hRec
    · exact absurd hRec List.not_mem_nil
    · split at hRec
      · rcases List.mem_cons.mp hRec with rfl | hRec
        · exact Nat.lt_succ_self _
        · exact Nat.lt_succ_of_lt (h.cur rec hRec)
      · exact Nat.lt_succ_of_lt (h.cur rec hRec)
  · exact ⟨Nat.lt_succ_of_lt (hOld pos rec hRec).1, (hOld pos rec hRec).2⟩
  · show rec < if (s'.threads t).retiring = true ∧ (s.threads t).retiring = false then n.clock
      else n.since t
    by_cases hBefore : (s.threads t).retiring = true
    · rw [if_neg fun hNew => absurd (hBefore.symm.trans hNew.2) Bool.noConfusion]
      exact h.since t hBefore rec (hShift.holds hBefore hHolds)
    · -- The checkpoint begins with this step.
      rw [if_pos ⟨hRetiring, Bool.not_eq_true _ |>.mp hBefore⟩]
      obtain ⟨pos, _, hRec⟩ := hHolds
      exact (hOld pos rec hRec).1

--
-- Runs
--

/-- The condition on a step: it is guarded, no sync commits while a checkpoint is on its way, and
the superblock is written. -/
def Sys.Steady (s : Sys) (e : Event) : Prop :=
  e.Allowed ∧ e.Saved ∧ s.Guarded e ∧ s.Patient e

/-- What holds in the states of a steady run. -/
structure Sys.Watched (r : Ring) (past : Block) (s : Sys) (n : Notes) : Prop where
  ok     : s.Ok r past
  inStep : s.InStep r
  lined  : s.Lined r
  notes  : n.Ok r s

theorem Sys.Watched.step {n : Notes} (h : s.Watched r past n) {e : Event} (hSteady : s.Steady e)
    (hStep : s.step e = some s') : s'.Watched r past (n.next s s') := by
  obtain ⟨hAllowed, hSaved, hGuard, hPatient⟩ := hSteady
  have hShift := n.shift_step h.inStep h.lined h.ok hGuard hPatient hStep
  exact ⟨h.ok.step hAllowed hStep, h.inStep.step h.ok hGuard hStep,
    h.lined.step h.inStep h.ok hGuard hSaved hStep, h.notes.step h.ok hShift⟩

theorem Sys.Mounted.watched (h : s.Mounted)
    (hEmpty : s.shared.journal.logEnd = s.shared.journal.logStart)
    (hStart : s.shared.journal.ring.Data s.shared.journal.logStart) :
    s.Watched s.shared.journal.ring s.shared.journal.curBlock .init := by
  have hEnd : s.shared.journal.ring.Data s.shared.journal.logEnd := by
    rw [hEmpty]
    exact hStart
  refine ⟨h.ok hStart hEnd, h.inStep hEmpty, fun _ => ⟨?_, ?_⟩, ⟨?_, ?_, ?_⟩⟩
  · exact fun t => fresh_of_idle (h.idle t)
  · exact fun t => fresh_of_idle (h.idle t)
  · exact fun _ hRec => absurd hRec List.not_mem_nil
  · exact fun _ _ hRec => absurd hRec List.not_mem_nil
  · intro t hRetiring
    obtain ⟨rest, hStack⟩ := Thread.retiring_iff.mp hRetiring
    rw [h.idle t] at hStack
    exact absurd hStack.symm (List.cons_ne_nil _ _)

theorem Sys.Watched.traced {start : Sys} (h : start.Watched r past .init) {n : Notes}
    (hRun : Sys.Traced Sys.Steady start s n) : s.Watched r past n := by
  induction hRun with
  | refl => exact h
  | step _ hSteady hStep ih => exact ih.step hSteady hStep

/-- In every steady run of any threads from a mount: a record that is in the window leaves it only
with a retire, by a checkpoint that began to flush after the record was appended. -/
theorem records_leave_at_retire {start s s' : Sys} {n : Notes} {e : Event} {rec : Nat}
    (hMount : start.Mounted)
    (hEmpty : start.shared.journal.logEnd = start.shared.journal.logStart)
    (hStart : start.shared.journal.ring.Data start.shared.journal.logStart)
    (hRun : Sys.Traced Sys.Steady start s n) (hSteady : s.Steady e) (hStep : s.step e = some s')
    (hIn : n.Holds s rec) (hOut : ¬(n.next s s').Holds s' rec) :
    ∃ fate t rest, e = .run fate ∧ s.holder = some t ∧
      (s.threads t).stack = .checkpoint .flushed :: rest ∧ fate.before = none ∧
      rec < n.since t := by
  have hWatched := (hMount.watched hEmpty hStart).traced hRun
  have hShift := n.shift_step hWatched.inStep hWatched.lined hWatched.ok hSteady.2.2.1
    hSteady.2.2.2 hStep
  obtain ⟨pos, hLog, hRec⟩ := id hIn
  cases hShift with
  | keep hSame hBlocks =>
    refine absurd ⟨pos, (hSame pos).mpr hLog, ?_⟩ hOut
    rw [hBlocks pos hLog]
    exact hRec
  | grow hMore hBlocks _ =>
    refine absurd ⟨pos, hMore pos (hWatched.notes.blocks pos rec hRec).2 hLog, ?_⟩ hOut
    rw [hBlocks]
    exact hRec
  | @clear fate t rest hHolder hStack hOk _ =>
    exact ⟨fate, t, rest, rfl, hHolder, hStack, hOk,
      hWatched.notes.since t (Thread.retiring_iff.mpr ⟨rest, hStack⟩) rec hIn⟩

--
-- Examples of runs
--

/-- The state and the notes after the events, if all of them can happen. -/
def Sys.trace (s : Sys) (n : Notes) : List Event → Option (Sys × Notes)
  | [] => some (s, n)
  | e :: es =>
    match s.step e with
    | none => none
    | some s' => s'.trace (n.next s s') es

/-- No error and no size that the callers do not allow. -/
def Event.Calm (e : Event) : Prop :=
  e.Allowed ∧ e.Saved ∧ ∀ fate, e = .run fate → fate.before = none

theorem Sys.traced_of_trace {start : Sys} {n n' : Notes} {es : List Event}
    (hCalm : ∀ e ∈ es, e.Calm) (hRun : Sys.Traced (fun _ e => e.Calm) start s n)
    (hTrace : s.trace n es = some (s', n')) : Sys.Traced (fun _ e => e.Calm) start s' n' := by
  induction es generalizing s n with
  | nil =>
    obtain ⟨rfl, rfl⟩ := Prod.mk.inj (Option.some.inj hTrace)
    exact hRun
  | cons e es ih =>
    unfold Sys.trace at hTrace
    split at hTrace
    · cases hTrace
    · rename_i s₁ hStep
      obtain ⟨hFirst, hRest⟩ := List.forall_mem_cons.mp hCalm
      exact ih hRest (hRun.step hFirst hStep) hTrace

/-- Only thread 0 is in the journal. -/
def Sys.Solo (s : Sys) : Prop := ∀ t, t ≠ 0 → (s.threads t).stack = []

/-- The requests of the runs below. -/
def Request.plain : Request → Bool
  | .write (.inodeFree _) => true
  | .sync _ => true
  | .checkpoint => true
  | _ => false

/-- What is to be checked of an event of a thread that is alone. -/
def Sys.soloCheck (s : Sys) : Event → Bool
  | .start t q => t == 0 && q.plain
  | .take _ => true
  | .run fate =>
    fate.before.isNone && fate.after.isNone &&
      match (s.threads 0).stack with
      | .sync _ (.capture _) :: _ => !s.shared.journal.needsRoom
      | .room .top :: _ => !s.shared.inCheckpoint
      | _ => true
  | _ => false

theorem Sys.Solo.not_retiring (h : s.Solo) {f : Frame} {rest : List Frame}
    (hStack : (s.threads 0).stack = f :: rest) (hNe : f ≠ .checkpoint .flushed) : ¬s.Retiring := by
  rintro ⟨t, above, hOpen⟩
  by_cases ht : t = 0
  · rw [ht, hStack] at hOpen
    exact hNe (List.cons.inj hOpen).1
  · rw [h t ht] at hOpen
    exact absurd hOpen.symm (List.cons_ne_nil _ _)

theorem Sys.Solo.eq_zero (h : s.Solo) {t : Nat} {f : Frame} {rest : List Frame}
    (hStack : (s.threads t).stack = f :: rest) : t = 0 := by
  by_contra ht
  rw [h t ht] at hStack
  exact absurd hStack.symm (List.cons_ne_nil _ _)

theorem Sys.Solo.guarded (h : s.Solo) {fate : Fate} (hCheck : s.soloCheck (.run fate) = true) :
    s.Guarded (.run fate) := by
  intro t f rest _ hStack
  obtain rfl := h.eq_zero hStack
  simp only [Sys.soloCheck, Bool.and_eq_true, Option.isNone_iff_eq_none, hStack] at hCheck
  obtain ⟨⟨hBefore, -⟩, hTop⟩ := hCheck
  cases f with
  | write rec pc => exact fun _ _ => h.not_retiring hStack Frame.noConfusion
  | sync checkpoint pc =>
    cases pc with
    | capture since =>
      exact ⟨by simpa using hTop, fun _ => h.not_retiring hStack Frame.noConfusion⟩
    | entry | drained | roomMade | forced | flushed | tail | last => exact trivial
  | room pc =>
    cases pc with
    | top =>
      have hClear : s.shared.inCheckpoint = false := by simpa using hTop
      exact hClear
    | entry | await | test | slept => exact trivial
  | checkpoint pc =>
    cases pc with
    | flushed => exact fun _ => hBefore
    | entry | await => exact trivial
  | drain since round pc => exact trivial
  | flushOne snap called => exact trivial
  | flushAll called => exact trivial

/-- The steps of a thread that is alone are steady, if they pass the check. -/
theorem Sys.Solo.steady (h : s.Solo) {e : Event} (hCheck : s.soloCheck e = true) : s.Steady e := by
  cases e with
  | queue ino data => exact Bool.noConfusion hCheck
  | grab t ino => exact Bool.noConfusion hCheck
  | start t q =>
    refine ⟨?_, trivial, trivial, trivial⟩
    have hPlain : q.plain = true := (Bool.and_eq_true_iff.mp hCheck).2
    cases q with
    | write c =>
      cases c with
      | inodeFree ino => exact trivial
      | _ => exact Bool.noConfusion hPlain
    | sync periodic => exact trivial
    | checkpoint => exact trivial
    | flushAll => exact trivial
  | take t => exact ⟨trivial, trivial, trivial, trivial⟩
  | run fate =>
    have hSaved : fate.after = none := by
      simp only [Sys.soloCheck, Bool.and_eq_true, Option.isNone_iff_eq_none] at hCheck
      exact hCheck.1.2
    refine ⟨trivial, hSaved, h.guarded hCheck, fun t f rest _ hStack => ?_⟩
    obtain rfl := h.eq_zero hStack
    cases f with
    | sync checkpoint pc =>
      cases pc with
      | forced since start own count =>
        exact fun _ _ => h.not_retiring hStack Frame.noConfusion
      | entry | drained | roomMade | capture | flushed | tail | last => exact trivial
    | write | room | checkpoint | drain | flushOne | flushAll => exact trivial

theorem Sys.Solo.setThread (h : s.Solo) (th : Thread) (sh : Shared) (holder : Option Nat) :
    Sys.Solo { (s.setThread 0 th) with shared := sh, holder := holder } := by
  intro u hu
  show ((s.setThread 0 th).threads u).stack = []
  rw [s.setThread_other hu]
  exact h u hu

theorem Sys.Solo.step (h : s.Solo) {e : Event} (hCheck : s.soloCheck e = true)
    (hStep : s.step e = some s') : s'.Solo := by
  cases e with
  | queue ino data => exact Bool.noConfusion hCheck
  | grab t ino => exact Bool.noConfusion hCheck
  | start t q =>
    obtain rfl : t = 0 := beq_iff_eq.mp (Bool.and_eq_true_iff.mp hCheck).1
    obtain ⟨-, rfl⟩ := Sys.step_start hStep
    exact h.setThread _ s.shared s.holder
  | take t =>
    obtain ⟨-, rfl⟩ := Sys.step_take hStep
    exact h
  | run fate =>
    obtain ⟨t, f, rest, _, hStack, rfl⟩ := Sys.step_run hStep
    obtain rfl := h.eq_zero hStack
    exact h.setThread _ _ _

/-- A trace that checks each event. -/
def Sys.soloTrace (s : Sys) (n : Notes) : List Event → Option (Sys × Notes)
  | [] => some (s, n)
  | e :: es =>
    if s.soloCheck e = true then
      match s.step e with
      | none => none
      | some s' => s'.soloTrace (n.next s s') es
    else none

theorem Sys.Solo.traced {start : Sys} {n n' : Notes} {es : List Event} (h : s.Solo)
    (hRun : Sys.Traced Sys.Steady start s n) (hTrace : s.soloTrace n es = some (s', n')) :
    Sys.Traced Sys.Steady start s' n' ∧ s'.Solo := by
  induction es generalizing s n with
  | nil =>
    obtain ⟨rfl, rfl⟩ := Prod.mk.inj (Option.some.inj hTrace)
    exact ⟨hRun, h⟩
  | cons e es ih =>
    unfold Sys.soloTrace at hTrace
    split at hTrace
    · rename_i hCheck
      split at hTrace
      · cases hTrace
      · rename_i s₁ hStep
        exact ih (h.step hCheck hStep) (hRun.step (h.steady hCheck) hStep) hTrace
    · cases hTrace

/-- A thread appends a record and syncs, and then starts a checkpoint, which has the lock again. -/
def lateEvents : List Event :=
  appendAndSync ++ [.start 0 .checkpoint, .take 0, .run ⟨none, none, false⟩, .take 0]

/-- The record that event 2 appended leaves the window with a retire of a checkpoint that began to
flush at event 16. -/
theorem record_leaves_late :
    smallSys.Mounted ∧ ∃ s n s', Sys.Traced Sys.Steady smallSys s n ∧
      s.step (.run ⟨none, none, false⟩) = some s' ∧ n.Holds s 2 ∧ ¬(n.next s s').Holds s' 2 ∧
      ∃ t, s.holder = some t ∧ 2 < n.since t := by
  have hData : smallSys.shared.journal.ring.Data smallSys.shared.journal.logStart :=
    ⟨by show 100 ≤ 106 ∧ 106 < 108; omega, by show 106 ≠ 107; omega⟩
  refine ⟨smallSys_mounted, ?_⟩
  obtain ⟨⟨s, n⟩, hs⟩ : ∃ x, smallSys.soloTrace .init lateEvents = some x :=
    Option.isSome_iff_exists.mp (by decide)
  have hBefore : (smallSys.soloTrace .init lateEvents).map (fun x =>
      (x.1.soloCheck (.run ⟨none, none, false⟩), decide (x.1.shared.journal.InLog 106),
        x.2.blocks 106)) = some (true, true, [2]) := by decide
  have hAfter : (smallSys.soloTrace .init lateEvents).map (fun x =>
      (x.1.step (.run ⟨none, none, false⟩)).map fun s' =>
        (s'.shared.journal.logStart, s'.shared.journal.logEnd)) = some (some (100, 100)) := by
    decide
  rw [hs, Option.map_some, Option.some.injEq] at hBefore hAfter
  simp only [Prod.mk.injEq, decide_eq_true_eq] at hBefore
  obtain ⟨hCheck, hLog, hBlock⟩ := hBefore
  obtain ⟨s', hStep, hWindow⟩ := Option.map_eq_some_iff.mp hAfter
  obtain ⟨hStart, hEnd⟩ := Prod.mk.inj hWindow
  obtain ⟨hRun, hSolo⟩ := Sys.Solo.traced (fun _ _ => rfl) .refl hs
  have hIn : n.Holds s 2 := ⟨106, hLog, by rw [hBlock]; exact List.mem_cons_self⟩
  have hOut : ¬(n.next s s').Holds s' 2 := by
    rintro ⟨pos, hPos, _⟩
    exact not_inLog_of_empty (hEnd.trans hStart.symm) pos hPos
  obtain ⟨_, t, _, _, hHolder, _, _, hSince⟩ := records_leave_at_retire smallSys_mounted rfl hData
    hRun (hSolo.steady hCheck) hStep hIn hOut
  exact ⟨s, n, s', hRun, hStep, hIn, hOut, t, hHolder, hSince⟩

/-- A checkpoint drops the lock; another thread appends a record and syncs it; the checkpoint has
the lock again. -/
def earlyEvents : List Event :=
  [.start 1 .checkpoint, .take 1, .run ⟨none, none, false⟩] ++ appendAndSync ++ [.take 1]

/-- The record that event 5 appended is committed, and leaves the window with the retire of a
checkpoint that began to flush at event 2. -/
theorem record_leaves_early :
    smallSys.Mounted ∧ smallSys.shared.journal.logEnd = smallSys.shared.journal.logStart ∧
      ∃ s n s', Sys.Traced (fun _ e => e.Calm) smallSys s n ∧
        s.step (.run ⟨none, none, false⟩) = some s' ∧ n.Holds s 5 ∧ ¬(n.next s s').Holds s' 5 ∧
        s.holder = some 1 ∧ n.since 1 = 2 ∧ ¬∃ t, s.holder = some t ∧ 5 < n.since t := by
  refine ⟨smallSys_mounted, rfl, ?_⟩
  have hCalm : ∀ e ∈ earlyEvents, e.Calm := by
    simp [earlyEvents, appendAndSync, Event.Calm, Event.Allowed, Event.Saved, Call.Allowed]
  obtain ⟨⟨s, n⟩, hs⟩ : ∃ x, smallSys.trace .init earlyEvents = some x :=
    Option.isSome_iff_exists.mp (by decide)
  have hBefore : (smallSys.trace .init earlyEvents).map (fun x => (x.1.holder, x.2.since 1,
      decide (x.1.shared.journal.InLog 106), x.2.blocks 106)) =
        some (some 1, 2, true, [5]) := by decide
  have hAfter : (smallSys.trace .init earlyEvents).map (fun x =>
      (x.1.step (.run ⟨none, none, false⟩)).map fun s' =>
        (s'.shared.journal.logStart, s'.shared.journal.logEnd)) = some (some (100, 100)) := by
    decide
  rw [hs, Option.map_some, Option.some.injEq] at hBefore hAfter
  simp only [Prod.mk.injEq, decide_eq_true_eq] at hBefore
  obtain ⟨hHolder, hSince, hLog, hBlock⟩ := hBefore
  obtain ⟨s', hStep, hWindow⟩ := Option.map_eq_some_iff.mp hAfter
  obtain ⟨hStart, hEnd⟩ := Prod.mk.inj hWindow
  refine ⟨s, n, s', Sys.traced_of_trace hCalm .refl hs, hStep, ⟨106, hLog, ?_⟩, ?_, hHolder, hSince,
    ?_⟩
  · rw [hBlock]
    exact List.mem_cons_self
  · rintro ⟨pos, hPos, _⟩
    exact not_inLog_of_empty (hEnd.trans hStart.symm) pos hPos
  · rintro ⟨t, hLock, hLater⟩
    obtain rfl : 1 = t := Option.some.inj (hHolder.symm.trans hLock)
    omega

end Briefs.Journal
