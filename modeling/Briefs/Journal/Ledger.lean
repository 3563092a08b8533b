import Briefs.Journal.Retire

/-!
# BrieFS — a ledger of what is durable

A block of the journal is durable once the loop of a sync has waited for it, and a record is safe if
it is in a durable block of the window, or was retired by a checkpoint that began to flush after it
was appended. `Ledger` goes beside a run, with its `Notes`, and keeps count of this.

A record that is appended is in the current block first, and in a block behind `write_pos` then. A
sync captures all of these, and waits; what it waits for is left alone, and the window that it
commits is durable. So a sync that has committed, or that another sync has committed for, has made
safe what it owed.

## Results

* `Ledger.Safe.step` — a record that is safe stays safe.
* `Ledger.Ok.still`, `Ledger.Ok.written`, `Ledger.Ok.committed`, `Ledger.Ok.emptied` — the kinds of
  steps keep the invariant.
-/

namespace Briefs.Journal

variable {r : Ring} {past : Block} {s s' : Sys}

--
-- The ledger of a run
--

/-- The loop of a sync over the blocks that it waits for, from `pos` on. It ends at `sync_end`, the
block that `own` comes after. -/
def Ring.forceLoop (r : Ring) (own : Nat) : Nat → Nat → List Nat
  | 0, _ => []
  | n + 1, pos => pos :: if r.advance pos = own then [] else r.forceLoop own n (r.nextBlock pos)

/-- The range of the sync in which the thread waits. -/
def Thread.forcing (th : Thread) : Option (Nat × Nat) :=
  match th.stack with
  | .sync _ (.forced _ start own _) :: _ => some (start, own)
  | _ => none

/-- All records; the events at which the block at a position was last written, at which a thread
entered the journal and at which its sync captured its range; the positions whose block is durable;
the records that were retired in time. -/
structure Ledger where
  notes    : Notes
  all      : List Nat
  wrote    : Nat → Nat
  began    : Nat → Nat
  captured : Nat → Nat
  durable  : Nat → Prop
  retired  : Nat → Prop

def Ledger.init : Ledger :=
  ⟨.init, [], fun _ => 0, fun _ => 0, fun _ => 0, fun _ => False, fun _ => False⟩

/-- In this step the thread with the lock has waited for the block, without an error. The block was
written before it began to wait. -/
def Ledger.Waited (l : Ledger) (s : Sys) (e : Event) (pos : Nat) : Prop :=
  ∃ fate t start own, e = .run fate ∧ fate.before = none ∧ s.holder = some t ∧
    (s.threads t).forcing = some (start, own) ∧ l.wrote pos ≤ l.captured t ∧
    pos ∈ s.shared.journal.ring.forceLoop own s.shared.journal.ring.journalBlocks start

/-- In this step the record leaves the window with a retire, of a checkpoint that began to flush
after the record was appended. -/
def Notes.Retires (n : Notes) (s s' : Sys) (rec : Nat) : Prop :=
  n.Holds s rec ∧ ¬(n.next s s').Holds s' rec ∧
    ∃ t, s.holder = some t ∧ (s.threads t).retiring = true ∧ rec < n.since t

/-- The step writes the block at the position. -/
def Sys.Writes (s s' : Sys) (pos : Nat) : Prop :=
  s'.shared.journal.writeCount ≠ s.shared.journal.writeCount ∧ pos = s.shared.journal.writePos

/-- The ledger after a step. -/
def Ledger.next (l : Ledger) (s : Sys) (e : Event) (s' : Sys) : Ledger where
  notes    := l.notes.next s s'
  all      :=
    if s'.shared.journal.writeCount ≠ s.shared.journal.writeCount then l.all
    else if s'.shared.journal.writeOffset ≠ s.shared.journal.writeOffset then
      l.notes.clock :: l.all
    else l.all
  wrote    :=
    if s'.shared.journal.writeCount ≠ s.shared.journal.writeCount then
      Function.update l.wrote s.shared.journal.writePos l.notes.clock
    else l.wrote
  began    := fun t =>
    if (s.threads t).stack.isEmpty = true ∧ (s'.threads t).stack.isEmpty = false then
      l.notes.clock
    else l.began t
  captured := fun t =>
    if (s.threads t).forcing = none ∧ (s'.threads t).forcing ≠ none then l.notes.clock
    else l.captured t
  durable  := fun pos => ¬s.Writes s' pos ∧ (l.durable pos ∨ l.Waited s e pos)
  retired  := fun rec => l.retired rec ∨ l.notes.Retires s s' rec

/-- The record is in a durable block of the window, or was retired in time. -/
def Ledger.Safe (l : Ledger) (s : Sys) (rec : Nat) : Prop :=
  (∃ pos, s.shared.journal.InLog pos ∧ l.durable pos ∧ rec ∈ l.notes.blocks pos) ∨ l.retired rec

/-- The states that a run leads to, with its ledger. -/
inductive Sys.Recorded (P : Sys → Event → Prop) (start : Sys) : Sys → Ledger → Prop where
  | refl : Recorded P start start .init
  | step {s s' : Sys} {l : Ledger} {e : Event} : Recorded P start s l → P s e →
      s.step e = some s' → Recorded P start s' (l.next s e s')

--
-- The way around the ring
--

section Ring

variable {lo mid pos own : Nat}

theorem Ring.Data.ahead_lt (hLo : r.Data lo) (hPos : r.Data pos) :
    r.ahead lo pos < r.journalBlocks - 1 := by
  have hLo := hLo.bounds
  have hPos := hPos.bounds
  unfold Ring.ahead
  split_ifs <;> omega

theorem Ring.Data.eq_of_ahead_zero (hLo : r.Data lo) (hPos : r.Data pos)
    (hZero : r.ahead lo pos = 0) : pos = lo := by
  have hLo := hLo.bounds
  have hPos := hPos.bounds
  unfold Ring.ahead at hZero
  split_ifs at hZero <;> omega

/-- The way on from a block in between. -/
theorem Ring.Data.ahead_from (hLo : r.Data lo) (hMid : r.Data mid) (hPos : r.Data pos)
    (hLe : r.ahead lo mid ≤ r.ahead lo pos) :
    r.ahead mid pos = r.ahead lo pos - r.ahead lo mid := by
  have hLo := hLo.bounds
  have hMid := hMid.bounds
  have hPos := hPos.bounds
  unfold Ring.ahead at hLe ⊢
  split_ifs at hLe ⊢ <;> omega

/-- The way on, around to where it began. -/
theorem Ring.Data.ahead_around (hLo : r.Data lo) (hMid : r.Data mid) (hNe : mid ≠ lo) :
    r.ahead mid lo = r.journalBlocks - 1 - r.ahead lo mid := by
  have hLo := hLo.bounds
  have hMid := hMid.bounds
  unfold Ring.ahead
  split_ifs <;> omega

theorem Ring.Data.next_eq (hPos : r.Data pos) : r.nextBlock pos = pos + 1 := by
  have hPos := hPos.bounds
  unfold Ring.nextBlock Ring.journalEnd
  exact if_neg (by omega)

/-- The blocks of a range are those that the loop waits for. It passes the checkpoint block. -/
theorem Ring.Data.mem_forceLoop (hLo : r.Data lo) (hPos : r.Data pos) (hOwn : r.Data own)
    (hLt : r.ahead lo pos < r.ahead lo own) {n : Nat}
    (hFuel : (if lo ≤ pos then pos - lo else pos + r.journalBlocks - lo) < n) :
    pos ∈ r.forceLoop own n lo := by
  induction n using Nat.strong_induction_on generalizing lo with
  | _ n ih =>
    have hBounds := hLo.bounds
    have hPosBounds := hPos.bounds
    have hOwnBounds := hOwn.bounds
    obtain _ | n := n
    · omega
    unfold Ring.forceLoop
    by_cases hEq : pos = lo
    · rw [hEq]
      exact List.mem_cons_self
    refine List.mem_cons_of_mem _ ?_
    have hOn : r.advance lo ≠ own := by
      rintro rfl
      rw [hLo.advance_eq] at hLt
      unfold Ring.ahead at hLt
      split_ifs at hLt <;> omega
    have hAdvance : r.Data (r.advance lo) := hLo.advance
    have hStep : r.ahead (r.advance lo) pos < r.ahead (r.advance lo) own := by
      rw [hLo.advance_eq] at hOn ⊢
      unfold Ring.ahead at hLt ⊢
      split_ifs at hLt hOn ⊢ <;> omega
    rw [if_neg hOn, hLo.next_eq]
    by_cases hLast : lo + 2 = r.journalStart + r.journalBlocks
    · -- The next block is the checkpoint block, and the one after it the first of the ring.
      have hFirst : r.advance lo = r.journalStart := by rw [hLo.advance_eq, if_pos hLast]
      obtain _ | n := n
      · split_ifs at hFuel <;> omega
      have hNext : r.nextBlock (lo + 1) = r.journalStart := by
        unfold Ring.nextBlock Ring.journalEnd
        exact if_pos (by omega)
      have hSkip : r.advance (lo + 1) = r.journalStart := by
        have hMin := r.hMin
        unfold minJournalBlocks at hMin
        unfold Ring.advance
        rw [hNext]
        exact if_neg (by unfold Ring.checkpointBlock; omega)
      unfold Ring.forceLoop
      refine List.mem_cons_of_mem _ ?_
      rw [hSkip, if_neg (by rw [← hFirst]; exact hOn), hNext]
      rw [hFirst] at hAdvance hStep
      refine ih n (by omega) hAdvance hStep ?_
      split_ifs at hFuel ⊢ <;> omega
    · have hFirst : r.advance lo = lo + 1 := by rw [hLo.advance_eq, if_neg hLast]
      rw [hFirst] at hAdvance hStep
      refine ih n (by omega) hAdvance hStep ?_
      split_ifs at hFuel ⊢ <;> omega

end Ring

--
-- The invariant
--

/-- A sync that has captured its range and has not claimed it yet. -/
def Frame.claims : Frame → Bool
  | .sync _ (.forced _ _ _ _) => true
  | .sync _ (.flushed _ _ _) => true
  | _ => false

/-- `pos` is behind `write_pos`, counted from the start of the window. In a full ring all blocks
are. -/
def BriefsJournal.Behind (r : Ring) (j : BriefsJournal) (pos : Nat) : Prop :=
  r.ahead j.logStart pos < r.ahead j.logStart j.writePos ∨
    j.writePos = j.logStart ∧ j.syncedPos ≠ j.logStart

/-- The records from before the thread entered the journal are safe. -/
def Ledger.Covers (l : Ledger) (s : Sys) (t : Nat) : Prop :=
  ∀ rec ∈ l.all, rec < l.began t → l.Safe s rec

/-- A sync that waits: its range begins in the window and is as it captured it, and the records that
it owes and that are not safe are in blocks up to its end. If it will not commit then another sync
has. -/
structure Ledger.Waits (r : Ring) (l : Ledger) (s : Sys) (t start own count : Nat) : Prop where
  data   : r.Data start
  inside : r.ahead s.shared.journal.logStart start ≤
    r.ahead s.shared.journal.logStart s.shared.journal.logEnd
  apart  : own ≠ s.shared.journal.logStart
  later  : s.shared.journal.committedCount < count ∨
    r.ahead s.shared.journal.logStart own ≤
      r.ahead s.shared.journal.logStart s.shared.journal.logEnd
  stable : ∀ pos, r.ahead s.shared.journal.logStart start ≤ r.ahead s.shared.journal.logStart pos →
    r.ahead s.shared.journal.logStart pos < r.ahead s.shared.journal.logStart own →
      l.wrote pos ≤ l.captured t
  covers : ∀ rec ∈ l.all, rec < l.began t → l.Safe s rec ∨ ∃ pos, rec ∈ l.notes.blocks pos ∧
    r.ahead s.shared.journal.logStart pos < r.ahead s.shared.journal.logStart own

/-- What a function of the thread owes. -/
def Ledger.Owed (r : Ring) (l : Ledger) (s : Sys) (t : Nat) : Frame → Prop
  | .sync _ (.forced _ start own count) => l.Waits r s t start own count
  | .sync _ (.flushed _ _ own) =>
    own ≠ s.shared.journal.logStart ∧
      r.ahead s.shared.journal.logStart own ≤
        r.ahead s.shared.journal.logStart s.shared.journal.logEnd ∧ l.Covers s t
  | .sync _ .tail => l.Covers s t
  | .sync _ .last => l.Covers s t
  | _ => True

/-- The window is durable. Records are in the current block, or safe, or in a block behind
`write_pos`. -/
structure Ledger.Ok (r : Ring) (s : Sys) (l : Ledger) : Prop where
  counts   : s.shared.journal.committedCount ≤ s.shared.journal.writeCount
  synced   : r.ahead s.shared.journal.logStart s.shared.journal.syncedPos ≤
    r.ahead s.shared.journal.logStart s.shared.journal.logEnd
  clean    : s.shared.journal.dirty = false → l.notes.cur = []
  wrote    : ∀ pos, l.wrote pos ≤ l.notes.clock
  captured : ∀ t, l.captured t ≤ l.notes.clock
  began    : ∀ t, l.began t ≤ l.notes.clock
  window   : ∀ pos, r.Data pos → s.shared.journal.InLog pos → l.durable pos
  kept     : ∀ rec ∈ l.all, rec ∈ l.notes.cur ∨ l.Safe s rec ∨
    ∃ pos, rec ∈ l.notes.blocks pos ∧ s.shared.journal.Behind r pos
  frames   : ∀ t, ∀ f ∈ (s.threads t).stack, l.Owed r s t f

theorem Ledger.owed_of_free (l : Ledger) (t : Nat) {f : Frame} (h : f.owes = false) :
    l.Owed r s t f := by
  cases f with
  | sync checkpoint pc =>
    cases pc with
    | forced since start own count => exact Bool.noConfusion h
    | flushed since start own => exact Bool.noConfusion h
    | tail => exact Bool.noConfusion h
    | last => exact Bool.noConfusion h
    | entry | drained | roomMade | capture => exact trivial
  | write | room | checkpoint | drain | flushOne | flushAll => exact trivial

/-- In a state in step, a block that is behind `write_pos` is so without a lap. -/
theorem Ledger.Ok.behind {l : Ledger} (h : l.Ok r s) (hOk : s.Ok r past) (hPaced : s.Paced r)
    {pos : Nat} (hBehind : s.shared.journal.Behind r pos) :
    r.ahead s.shared.journal.logStart pos <
      r.ahead s.shared.journal.logStart s.shared.journal.writePos := by
  rcases hBehind with hLt | ⟨hFull, hNe⟩
  · exact hLt
  · have hWindow := hPaced.window
    rw [hFull, Ring.ahead_self] at hWindow
    have hSynced := h.synced
    have hTidy := hOk.shared.tidy
    exact absurd (hTidy.logStart.eq_of_ahead_zero hTidy.syncedPos (by omega)) hNe

--
-- The ledger in a step
--

section Next

variable {l : Ledger} {e : Event}

theorem Ledger.blocks_next {pos : Nat} (hOther : ¬s.Writes s' pos) :
    (l.next s e s').notes.blocks pos = l.notes.blocks pos := by
  by_cases hSame : s'.shared.journal.writeCount = s.shared.journal.writeCount
  · show (l.notes.next s s').blocks pos = _
    rw [blocks_next_same l.notes hSame]
  · have hBlocks : (l.next s e s').notes.blocks =
        Function.update l.notes.blocks s.shared.journal.writePos l.notes.cur := if_pos hSame
    rw [hBlocks, Function.update_of_ne fun hEq => hOther ⟨hSame, hEq⟩]

theorem Ledger.wrote_next {pos : Nat} (hOther : ¬s.Writes s' pos) :
    (l.next s e s').wrote pos = l.wrote pos := by
  by_cases hSame : s'.shared.journal.writeCount = s.shared.journal.writeCount
  · have hWrote : (l.next s e s').wrote = l.wrote := if_neg (not_not.mpr hSame)
    rw [hWrote]
  · have hWrote : (l.next s e s').wrote =
        Function.update l.wrote s.shared.journal.writePos l.notes.clock := if_pos hSame
    rw [hWrote, Function.update_of_ne fun hEq => hOther ⟨hSame, hEq⟩]

theorem Sys.not_writes (hSame : s'.shared.journal.writeCount = s.shared.journal.writeCount)
    (pos : Nat) : ¬s.Writes s' pos := fun hWrites => hWrites.1 hSame

/-- A record is one from before, or was appended in this step. -/
theorem Ledger.mem_all_next {rec : Nat} (hRec : rec ∈ (l.next s e s').all) :
    rec ∈ l.all ∨ rec = l.notes.clock ∧ rec ∈ (l.next s e s').notes.cur := by
  simp only [Ledger.next, Notes.next] at hRec ⊢
  split_ifs at hRec ⊢
  · exact Or.inl hRec
  · rcases List.mem_cons.mp hRec with rfl | hOld
    · exact Or.inr ⟨rfl, List.mem_cons_self⟩
    · exact Or.inl hOld
  · exact Or.inl hRec

theorem Ledger.cur_next (hSame : s'.shared.journal.writeCount = s.shared.journal.writeCount)
    (hOffset : s'.shared.journal.writeOffset = s.shared.journal.writeOffset) :
    (l.next s e s').notes.cur = l.notes.cur := by
  simp only [Ledger.next, Notes.next, if_neg (not_not.mpr hSame), if_neg (not_not.mpr hOffset)]

theorem Ledger.mem_cur_next (hSame : s'.shared.journal.writeCount = s.shared.journal.writeCount)
    {rec : Nat} (hRec : rec ∈ l.notes.cur) : rec ∈ (l.next s e s').notes.cur := by
  simp only [Ledger.next, Notes.next, if_neg (not_not.mpr hSame)]
  split
  · exact List.mem_cons_of_mem _ hRec
  · exact hRec

theorem Ledger.began_next {t : Nat} (hBusy : (s.threads t).stack ≠ []) :
    (l.next s e s').began t = l.began t := by
  refine if_neg fun hEnters => hBusy ?_
  exact List.isEmpty_iff.mp hEnters.1

theorem Ledger.Ok.captured_next (h : l.Ok r s) (t : Nat) :
    l.captured t ≤ (l.next s e s').captured t := by
  show l.captured t ≤ if _ then _ else _
  split
  · exact h.captured t
  · exact Nat.le_refl _

theorem Ledger.Ok.wrote_le (h : l.Ok r s) (pos : Nat) :
    (l.next s e s').wrote pos ≤ l.notes.clock := by
  by_cases hWrites : s.Writes s' pos
  · have hWrote : (l.next s e s').wrote =
        Function.update l.wrote s.shared.journal.writePos l.notes.clock := if_pos hWrites.1
    rw [hWrote, hWrites.2, Function.update_self]
  · rw [Ledger.wrote_next hWrites]
    exact h.wrote pos

/-- The events of the ledger are past. -/
theorem Ledger.Ok.times (h : l.Ok r s) (e : Event) (s' : Sys) :
    (∀ pos, (l.next s e s').wrote pos ≤ l.notes.clock + 1) ∧
      (∀ t, (l.next s e s').captured t ≤ l.notes.clock + 1) ∧
      ∀ t, (l.next s e s').began t ≤ l.notes.clock + 1 := by
  refine ⟨fun pos => Nat.le_succ_of_le (h.wrote_le pos), fun t => ?_, fun t => ?_⟩
  · show (if _ then _ else _) ≤ _
    split
    · exact Nat.le_succ _
    · exact Nat.le_succ_of_le (h.captured t)
  · show (if _ then _ else _) ≤ _
    split
    · exact Nat.le_succ _
    · exact Nat.le_succ_of_le (h.began t)

/-- A record that is safe stays safe: it stays in the window, or is retired. -/
theorem Ledger.Safe.step {rec : Nat} (h : l.Safe s rec) (hWatched : s.Watched r past l.notes)
    (hSteady : s.Steady e) (hStep : s.step e = some s') : (l.next s e s').Safe s' rec := by
  obtain ⟨-, -, hGuard, hPatient⟩ := hSteady
  have hOut := hWatched.inStep.not_inLog hWatched.ok hGuard hStep
  rcases h with ⟨pos, hLog, hDurable, hRec⟩ | hRetired
  · have hOther : ¬s.Writes s' pos := by
      rintro ⟨hWrites, rfl⟩
      exact hOut hWrites hLog
    have hStill : rec ∈ (l.next s e s').notes.blocks pos := by
      rw [Ledger.blocks_next hOther]
      exact hRec
    cases l.notes.shift_step hWatched.inStep hWatched.lined hWatched.ok hGuard hPatient hStep with
    | keep hSame hBlocks =>
      exact Or.inl ⟨pos, (hSame pos).mpr hLog, ⟨hOther, Or.inl hDurable⟩, hStill⟩
    | grow hMore hBlocks _ =>
      have hData := (hWatched.notes.blocks pos rec hRec).2
      exact Or.inl ⟨pos, hMore pos hData hLog, ⟨hOther, Or.inl hDurable⟩, hStill⟩
    | @clear fate t rest hHolder hStack hOk hNone =>
      have hRetiring := Thread.retiring_iff.mpr ⟨rest, hStack⟩
      have hHolds : l.notes.Holds s rec := ⟨pos, hLog, hRec⟩
      refine Or.inr (Or.inr ⟨hHolds, ?_, t, hHolder, hRetiring, ?_⟩)
      · rintro ⟨pos', hLog', _⟩
        exact hNone pos' hLog'
      · exact hWatched.notes.since t hRetiring rec hHolds
  · exact Or.inr (Or.inl hRetired)

/-- What is owed at the end of a sync stays so. -/
theorem Ledger.Covers.step {t : Nat} (h : l.Covers s t) (hOk : l.Ok r s)
    (hWatched : s.Watched r past l.notes) (hSteady : s.Steady e) (hStep : s.step e = some s')
    (hBusy : (s.threads t).stack ≠ []) : (l.next s e s').Covers s' t := by
  intro rec hRec hBefore
  rw [Ledger.began_next hBusy] at hBefore
  rcases Ledger.mem_all_next hRec with hOld | ⟨rfl, -⟩
  · exact (h rec hOld hBefore).step hWatched hSteady hStep
  · have hBegan := hOk.began t
    omega

/-- What is owed in a step that is no retire: the window only grows, and the blocks of a range that
a sync waits for are left alone. -/
theorem Ledger.Owed.step {t : Nat} {f : Frame} (h : l.Owed r s t f) (hOk : l.Ok r s)
    (hWatched : s.Watched r past l.notes) (hSteady : s.Steady e) (hStep : s.step e = some s')
    (hf : f ∈ (s.threads t).stack)
    (hStart : s'.shared.journal.logStart = s.shared.journal.logStart)
    (hEnd : r.ahead s.shared.journal.logStart s.shared.journal.logEnd ≤
      r.ahead s.shared.journal.logStart s'.shared.journal.logEnd)
    (hLater : ∀ own count, f.captured = some (own, count) →
      s.shared.journal.committedCount < count → s'.shared.journal.committedCount < count ∨
        r.ahead s.shared.journal.logStart own ≤
          r.ahead s.shared.journal.logStart s'.shared.journal.logEnd)
    (hOther : ∀ own count, f.captured = some (own, count) → ∀ pos,
      r.ahead s.shared.journal.logStart pos < r.ahead s.shared.journal.logStart own →
        ¬s.Writes s' pos) :
    (l.next s e s').Owed r s' t f := by
  have hBusy : (s.threads t).stack ≠ [] := List.ne_nil_of_mem hf
  cases f with
  | sync checkpoint pc =>
    cases pc with
    | forced since start own count =>
      have hWaits : l.Waits r s t start own count := h
      refine ⟨hWaits.data, ?_, ?_, ?_, fun pos hLow hHigh => ?_, fun rec hRec hBefore => ?_⟩
      · rw [hStart]
        exact Nat.le_trans hWaits.inside hEnd
      · rw [hStart]
        exact hWaits.apart
      · rw [hStart]
        rcases hWaits.later with hCount | hReached
        · exact hLater own count rfl hCount
        · exact Or.inr (Nat.le_trans hReached hEnd)
      · rw [hStart] at hLow hHigh
        rw [Ledger.wrote_next (hOther own count rfl pos hHigh)]
        exact Nat.le_trans (hWaits.stable pos hLow hHigh) (hOk.captured_next t)
      · rw [Ledger.began_next hBusy] at hBefore
        rcases Ledger.mem_all_next hRec with hOld | ⟨rfl, -⟩
        · rcases hWaits.covers rec hOld hBefore with hSafe | ⟨pos, hIn, hHigh⟩
          · exact Or.inl (hSafe.step hWatched hSteady hStep)
          · refine Or.inr ⟨pos, ?_, by rw [hStart]; exact hHigh⟩
            rw [Ledger.blocks_next (hOther own count rfl pos hHigh)]
            exact hIn
        · have hBegan := hOk.began t
          omega
    | flushed since start own =>
      obtain ⟨hApart, hReached, hCovers⟩ := h
      refine ⟨by rw [hStart]; exact hApart, ?_, hCovers.step hOk hWatched hSteady hStep hBusy⟩
      rw [hStart]
      exact Nat.le_trans hReached hEnd
    | tail => exact Ledger.Covers.step h hOk hWatched hSteady hStep hBusy
    | last => exact Ledger.Covers.step h hOk hWatched hSteady hStep hBusy
    | entry | drained | roomMade | capture => exact trivial
  | write | room | checkpoint | drain | flushOne | flushAll => exact trivial

/-- A step that writes no block, commits nothing and retires nothing. It may put a record into the
current block, and a sync may claim blocks of the window. -/
theorem Ledger.Ok.still (h : l.Ok r s) (hWatched : s.Watched r past l.notes) (hSteady : s.Steady e)
    (hStep : s.step e = some s') (hRests : s.shared.journal.Rests s'.shared.journal)
    (hSynced : s'.shared.journal.syncedPos = s.shared.journal.syncedPos ∨
      s'.shared.journal.syncedPos ≠ s.shared.journal.logStart ∧
        r.ahead s.shared.journal.logStart s'.shared.journal.syncedPos ≤
          r.ahead s.shared.journal.logStart s.shared.journal.logEnd)
    (hClean : s'.shared.journal.dirty = false → s.shared.journal.dirty = false ∧
      s'.shared.journal.writeOffset = s.shared.journal.writeOffset)
    (hNew : ∀ t, ∀ f ∈ (s'.threads t).stack, f ∈ (s.threads t).stack ∨
      (l.next s e s').Owed r s' t f) : (l.next s e s').Ok r s' := by
  have hSame : ∀ pos, ¬s.Writes s' pos := Sys.not_writes hRests.writeCount
  obtain ⟨hWrote, hCaptured, hBegan⟩ := h.times e s'
  refine ⟨?_, ?_, fun hDirty => ?_, hWrote, hCaptured, hBegan, fun pos hPos hLog => ?_,
    fun rec hRec => ?_, fun t f hf => ?_⟩
  · rw [hRests.committedCount, hRests.writeCount]
    exact h.counts
  · rw [hRests.logStart, hRests.logEnd]
    rcases hSynced with hEq | ⟨-, hInside⟩
    · rw [hEq]
      exact h.synced
    · exact hInside
  · obtain ⟨hBefore, hOffset⟩ := hClean hDirty
    rw [Ledger.cur_next hRests.writeCount hOffset]
    exact h.clean hBefore
  · rw [inLog_congr hRests.logStart hRests.logEnd pos] at hLog
    exact ⟨hSame pos, Or.inl (h.window pos hPos hLog)⟩
  · rcases Ledger.mem_all_next hRec with hOld | ⟨-, hCur⟩
    · rcases h.kept rec hOld with hCur | hSafe | ⟨pos, hIn, hBehind⟩
      · exact Or.inl (Ledger.mem_cur_next hRests.writeCount hCur)
      · exact Or.inr (Or.inl (hSafe.step hWatched hSteady hStep))
      · refine Or.inr (Or.inr ⟨pos, by rw [Ledger.blocks_next (hSame pos)]; exact hIn, ?_⟩)
        unfold BriefsJournal.Behind at hBehind ⊢
        rw [hRests.logStart, hRests.writePos]
        rcases hBehind with hLt | ⟨hFull, hNe⟩
        · exact Or.inl hLt
        · refine Or.inr ⟨hFull, ?_⟩
          rcases hSynced with hEq | ⟨hApart, -⟩
          · rw [hEq]
            exact hNe
          · exact hApart
    · exact Or.inl hCur
  · rcases hNew t f hf with hOld | hOwed
    · refine (h.frames t f hOld).step h hWatched hSteady hStep hOld hRests.logStart ?_ ?_ ?_
      · rw [hRests.logEnd]
      · intro own count _ hLater
        rw [hRests.committedCount]
        exact Or.inl hLater
      · exact fun _ _ _ pos _ => hSame pos
    · exact hOwed

/-- The end of a range that a sync waits for is not ahead of `write_pos`. -/
theorem Ledger.Waits.le_writePos {t start own count : Nat} (h : l.Waits r s t start own count)
    (hPaced : s.Paced r) {f : Frame} (hf : f ∈ (s.threads t).stack)
    (hCaptured : f.captured = some (own, count)) :
    r.ahead s.shared.journal.logStart own ≤
      r.ahead s.shared.journal.logStart s.shared.journal.writePos := by
  rcases h.later with hLater | hReached
  · exact hPaced.syncs t f hf own count hCaptured hLater
  · exact Nat.le_trans hReached hPaced.window

/-- A frame with something captured is a sync that waits. -/
theorem Ledger.Ok.waits (h : l.Ok r s) {t : Nat} {f : Frame} (hf : f ∈ (s.threads t).stack)
    {own count : Nat} (hCaptured : f.captured = some (own, count)) :
    ∃ start, l.Waits r s t start own count := by
  have hOwed := h.frames t f hf
  cases f with
  | sync checkpoint pc =>
    cases pc with
    | forced since start own' count' =>
      obtain ⟨rfl, rfl⟩ := Prod.mk.inj (Option.some.inj hCaptured)
      exact ⟨start, hOwed⟩
    | entry | drained | roomMade | capture | flushed | tail | last =>
      exact absurd hCaptured.symm (Option.some_ne_none _)
  | write | room | checkpoint | drain | flushOne | flushAll =>
    exact absurd hCaptured.symm (Option.some_ne_none _)

/-- A block behind `write_pos`, or at it, is behind it after a flush. -/
theorem Sys.Ok.behind_flush (hOk : s.Ok r past)
    (hTurn : s.shared.journal.flushCurBlock.writePos = s.shared.journal.logStart →
      s.shared.journal.syncedPos ≠ s.shared.journal.logStart) {pos : Nat}
    (hLe : r.ahead s.shared.journal.logStart pos ≤
      r.ahead s.shared.journal.logStart s.shared.journal.writePos) :
    s.shared.journal.flushCurBlock.Behind r pos := by
  by_cases hFull : s.shared.journal.flushCurBlock.writePos = s.shared.journal.logStart
  · exact Or.inr ⟨hFull, hTurn hFull⟩
  · have hAhead := hOk.ahead_flush hFull
    refine Or.inl ?_
    show r.ahead s.shared.journal.logStart pos <
      r.ahead s.shared.journal.logStart s.shared.journal.flushCurBlock.writePos
    omega

theorem BriefsJournal.count_flush (j : BriefsJournal) : j.writeCount < j.flushCurBlock.writeCount := by
  have hPos := j.ring.steps_pos j.writePos
  show j.writeCount < j.writeCount + j.ring.steps j.writePos
  omega

/-- The records after a block was written. -/
theorem Ledger.Ok.kept_written (h : l.Ok r s) (hWatched : s.Watched r past l.notes)
    (hSteady : s.Steady e) (hStep : s.step e = some s') (hPaced : s.Paced r)
    (hJournal : s'.shared.journal = s.shared.journal.flushCurBlock) {rec : Nat}
    (hRec : rec ∈ (l.next s e s').all) :
    (l.next s e s').Safe s' rec ∨ ∃ pos, rec ∈ (l.next s e s').notes.blocks pos ∧
      r.ahead s.shared.journal.logStart pos ≤
        r.ahead s.shared.journal.logStart s.shared.journal.writePos := by
  have hMore : s'.shared.journal.writeCount ≠ s.shared.journal.writeCount := by
    rw [hJournal]
    exact Nat.ne_of_gt s.shared.journal.count_flush
  have hOld : rec ∈ l.all := by
    have hAll : (l.next s e s').all = l.all := if_pos hMore
    rwa [hAll] at hRec
  rcases h.kept rec hOld with hCur | hSafe | ⟨pos, hIn, hBehind⟩
  · refine Or.inr ⟨s.shared.journal.writePos, ?_, Nat.le_refl _⟩
    have hBlocks : (l.next s e s').notes.blocks =
        Function.update l.notes.blocks s.shared.journal.writePos l.notes.cur := if_pos hMore
    rw [hBlocks, Function.update_self]
    exact hCur
  · exact Or.inl (hSafe.step hWatched hSteady hStep)
  · have hLt := h.behind hWatched.ok hPaced hBehind
    refine Or.inr ⟨pos, ?_, Nat.le_of_lt hLt⟩
    rw [Ledger.blocks_next]
    · exact hIn
    · rintro ⟨-, rfl⟩
      exact Nat.lt_irrefl _ hLt

/-- A step that writes a block, from a state in step. -/
theorem Ledger.Ok.written (h : l.Ok r s) (hWatched : s.Watched r past l.notes)
    (hSteady : s.Steady e) (hStep : s.step e = some s') (hPaced : s.Paced r)
    (hJournal : s'.shared.journal = s.shared.journal.flushCurBlock)
    (hTurn : s.shared.journal.flushCurBlock.writePos = s.shared.journal.logStart →
      s.shared.journal.syncedPos ≠ s.shared.journal.logStart)
    (hNew : ∀ t, ∀ f ∈ (s'.threads t).stack, f ∈ (s.threads t).stack ∨
      (l.next s e s').Owed r s' t f) : (l.next s e s').Ok r s' := by
  have hMore : s'.shared.journal.writeCount ≠ s.shared.journal.writeCount := by
    rw [hJournal]
    exact Nat.ne_of_gt s.shared.journal.count_flush
  have hStart : s'.shared.journal.logStart = s.shared.journal.logStart := by
    rw [hJournal]
    rfl
  have hEnd : s'.shared.journal.logEnd = s.shared.journal.logEnd := by
    rw [hJournal]
    rfl
  have hCommitted : s'.shared.journal.committedCount = s.shared.journal.committedCount := by
    rw [hJournal]
    rfl
  obtain ⟨hWrote, hCaptured, hBegan⟩ := h.times e s'
  refine ⟨?_, ?_, fun _ => if_pos hMore, hWrote, hCaptured, hBegan, fun pos hPos hLog => ?_,
    fun rec hRec => ?_, fun t f hf => ?_⟩
  · rw [hCommitted, hJournal]
    exact Nat.le_trans h.counts (Nat.le_of_lt s.shared.journal.count_flush)
  · rw [hStart, hEnd, hJournal]
    exact h.synced
  · rw [inLog_congr hStart hEnd pos] at hLog
    refine ⟨?_, Or.inl (h.window pos hPos hLog)⟩
    rintro ⟨-, rfl⟩
    exact hPaced.not_inLog hWatched.ok hLog
  · rcases h.kept_written hWatched hSteady hStep hPaced hJournal hRec with hSafe | ⟨pos, hIn, hLe⟩
    · exact Or.inr (Or.inl hSafe)
    · refine Or.inr (Or.inr ⟨pos, hIn, ?_⟩)
      rw [hJournal]
      exact hWatched.ok.behind_flush hTurn hLe
  · rcases hNew t f hf with hOld | hOwed
    · refine (h.frames t f hOld).step h hWatched hSteady hStep hOld hStart ?_ ?_ ?_
      · rw [hEnd]
      · intro own count _ hLater
        rw [hCommitted]
        exact Or.inl hLater
      · rintro own count hHas pos hLt ⟨-, rfl⟩
        obtain ⟨start, hWaits⟩ := h.waits hOld hHas
        exact Nat.not_lt.mpr (hWaits.le_writePos hPaced hOld hHas) hLt
    · exact hOwed

/-- A sync captures its range, and then waits for it. -/
theorem Ledger.Ok.captures (h : l.Ok r s) (hWatched : s.Watched r past l.notes)
    (hSteady : s.Steady e) (hStep : s.step e = some s') (hPaced : s.Paced r)
    (hJournal : s'.shared.journal = s.shared.journal.flushCurBlock)
    (hRoom : s.shared.journal.flushCurBlock.writePos ≠ s.shared.journal.logStart) {t : Nat}
    (hBefore : (s.threads t).forcing = none) (hAfter : (s'.threads t).forcing ≠ none) :
    (l.next s e s').Waits r s' t s.shared.journal.syncedPos
      s.shared.journal.flushCurBlock.writePos s.shared.journal.flushCurBlock.writeCount := by
  have hTidy := hWatched.ok.shared.tidy
  have hAhead := hWatched.ok.ahead_flush hRoom
  have hStart : s'.shared.journal.logStart = s.shared.journal.logStart := by
    rw [hJournal]
    rfl
  refine ⟨hTidy.syncedPos, ?_, ?_, Or.inl ?_, fun pos _ _ => ?_, fun rec hRec _ => ?_⟩
  · rw [hStart, hJournal]
    exact h.synced
  · rw [hStart]
    exact hRoom
  · rw [hJournal]
    exact Nat.lt_of_le_of_lt h.counts s.shared.journal.count_flush
  · have hNow : (l.next s e s').captured t = l.notes.clock := if_pos ⟨hBefore, hAfter⟩
    rw [hNow]
    exact h.wrote_le pos
  · rcases h.kept_written hWatched hSteady hStep hPaced hJournal hRec with hSafe | ⟨pos, hIn, hLe⟩
    · exact Or.inl hSafe
    · refine Or.inr ⟨pos, hIn, ?_⟩
      rw [hStart]
      omega

/-- Records in blocks of the window are safe. -/
theorem Ledger.Ok.safe_of_reached (h : l.Ok r s) (hOk : s.Ok r past) {pos rec : Nat}
    (hPos : r.Data pos) (hIn : rec ∈ l.notes.blocks pos)
    (hReached : r.ahead s.shared.journal.logStart pos <
      r.ahead s.shared.journal.logStart s.shared.journal.logEnd) : l.Safe s rec := by
  have hTidy := hOk.shared.tidy
  have hLog : s.shared.journal.InLog pos := by
    rw [inLog_iff hTidy.logStart hTidy.logEnd hPos]
    exact hReached
  exact Or.inl ⟨pos, hLog, h.window pos hPos hLog, hIn⟩

/-- A checkpoint retires the window while no sync has yet to claim. -/
theorem Ledger.Ok.emptied (h : l.Ok r s) (hWatched : s.Watched r past l.notes)
    (hSteady : s.Steady e) (hStep : s.step e = some s')
    (hEmpties : s.shared.journal.Empties s'.shared.journal)
    (hNone : ∀ t, ∀ f ∈ (s.threads t).stack, f.claims = false)
    (hNew : ∀ t, ∀ f ∈ (s'.threads t).stack, f ∈ (s.threads t).stack ∨
      (l.next s e s').Owed r s' t f) : (l.next s e s').Ok r s' := by
  have hTidy := hWatched.ok.shared.tidy
  have hSame := hEmpties.retired.writeCount
  obtain ⟨hWrote, hCaptured, hBegan⟩ := h.times e s'
  refine ⟨?_, ?_, fun hDirty => ?_, hWrote, hCaptured, hBegan, fun pos _ hLog => ?_,
    fun rec hRec => ?_, fun t f hf => ?_⟩
  · rw [hEmpties.retired.committedCount, hSame]
  · rw [hEmpties.logStart, hEmpties.syncedPos, Ring.ahead_self]
    exact Nat.zero_le _
  · rw [Ledger.cur_next hSame hEmpties.writeOffset]
    rw [hEmpties.dirty] at hDirty
    exact h.clean hDirty
  · exact absurd hLog (not_inLog_of_empty hEmpties.retired.window pos)
  · rcases Ledger.mem_all_next hRec with hOld | ⟨-, hCur⟩
    · rcases h.kept rec hOld with hCur | hSafe | ⟨pos, hIn, hBehind⟩
      · exact Or.inl (Ledger.mem_cur_next hSame hCur)
      · exact Or.inr (Or.inl (hSafe.step hWatched hSteady hStep))
      · have hPos := (hWatched.notes.blocks pos rec hIn).2
        by_cases hLt : r.ahead s.shared.journal.logStart pos <
            r.ahead s.shared.journal.logStart s.shared.journal.syncedPos
        · -- A block of the window, which is retired.
          have hSafe := h.safe_of_reached hWatched.ok hPos hIn (Nat.lt_of_lt_of_le hLt h.synced)
          exact Or.inr (Or.inl (hSafe.step hWatched hSteady hStep))
        · refine Or.inr (Or.inr ⟨pos, ?_, Or.inl ?_⟩)
          · rw [Ledger.blocks_next (Sys.not_writes hSame pos)]
            exact hIn
          · rw [hEmpties.logStart, hEmpties.retired.writePos,
              hTidy.logStart.ahead_from hTidy.syncedPos hPos (Nat.not_lt.mp hLt)]
            rcases hBehind with hBefore | ⟨hFull, hNe⟩
            · rw [hTidy.logStart.ahead_from hTidy.syncedPos hTidy.writePos (by omega)]
              omega
            · have hAll := hTidy.logStart.ahead_lt hPos
              rw [hFull, hTidy.logStart.ahead_around hTidy.syncedPos hNe]
              omega
    · exact Or.inl hCur
  · rcases hNew t f hf with hOld | hOwed
    · have hBusy : (s.threads t).stack ≠ [] := List.ne_nil_of_mem hOld
      have hBefore := h.frames t f hOld
      have hFree := hNone t f hOld
      cases f with
      | sync checkpoint pc =>
        cases pc with
        | forced since start own count => exact Bool.noConfusion hFree
        | flushed since start own => exact Bool.noConfusion hFree
        | tail => exact Ledger.Covers.step hBefore h hWatched hSteady hStep hBusy
        | last => exact Ledger.Covers.step hBefore h hWatched hSteady hStep hBusy
        | entry | drained | roomMade | capture => exact trivial
      | write | room | checkpoint | drain | flushOne | flushAll => exact trivial
    · exact hOwed

section Commit

variable {t start own count : Nat} {f : Frame} {fate : Fate}

/-- A sync has waited for the blocks of its range. -/
theorem Ledger.Waits.waited (h : l.Waits r s t start own count) (hOk : s.Ok r past)
    (hHolder : s.holder = some t) (hForcing : (s.threads t).forcing = some (start, own))
    (hOwn : r.Data own) (hFate : fate.before = none) {pos : Nat} (hPos : r.Data pos)
    (hLow : r.ahead s.shared.journal.logStart start ≤ r.ahead s.shared.journal.logStart pos)
    (hHigh : r.ahead s.shared.journal.logStart pos < r.ahead s.shared.journal.logStart own) :
    l.Waited s (.run fate) pos := by
  have hTidy := hOk.shared.tidy
  refine ⟨fate, t, start, own, rfl, hFate, hHolder, hForcing, h.stable pos hLow hHigh, ?_⟩
  rw [hTidy.ring]
  refine h.data.mem_forceLoop hPos hOwn ?_ ?_
  · rw [hTidy.logStart.ahead_from h.data hPos hLow,
      hTidy.logStart.ahead_from h.data hOwn (by omega)]
    omega
  · have hStartBounds := h.data.bounds
    have hPosBounds := hPos.bounds
    split_ifs <;> omega

/-- After the commit of a sync the window up to its end is durable. -/
theorem Ledger.Ok.durable_committed (h : l.Ok r s) (hOk : s.Ok r past)
    (hWaits : l.Waits r s t start own count) (hHolder : s.holder = some t)
    (hForcing : (s.threads t).forcing = some (start, own)) (hOwn : r.Data own)
    (hFate : fate.before = none)
    (hSame : s'.shared.journal.writeCount = s.shared.journal.writeCount) {pos : Nat}
    (hPos : r.Data pos)
    (hHigh : r.ahead s.shared.journal.logStart pos < r.ahead s.shared.journal.logStart own) :
    (l.next s (.run fate) s').durable pos := by
  have hTidy := hOk.shared.tidy
  refine ⟨Sys.not_writes hSame pos, ?_⟩
  by_cases hLow : r.ahead s.shared.journal.logStart start ≤ r.ahead s.shared.journal.logStart pos
  · exact Or.inr (hWaits.waited hOk hHolder hForcing hOwn hFate hPos hLow hHigh)
  · have hInside := hWaits.inside
    refine Or.inl (h.window pos hPos ?_)
    rw [inLog_iff hTidy.logStart hTidy.logEnd hPos]
    omega

/-- A sync commits the window up to the end of its range. -/
theorem Ledger.Ok.committed (h : l.Ok r s) (hWatched : s.Watched r past l.notes)
    (hSteady : s.Steady (.run fate)) (hStep : s.step (.run fate) = some s')
    (hPaced : s.Paced r) (hHolder : s.holder = some t)
    (hForcing : (s.threads t).forcing = some (start, own)) (hf : f ∈ (s.threads t).stack)
    (hHas : f.captured = some (own, count)) (hWaits : l.Waits r s t start own count)
    (hOwn : r.Data own) (hFate : fate.before = none)
    (hLater : s.shared.journal.committedCount < count)
    (hJournal : s'.shared.journal =
      { s.shared.journal with logEnd := own, committedCount := count })
    (hNew : ∀ u, ∀ g ∈ (s'.threads u).stack, g ∈ (s.threads u).stack ∨
      (l.next s (.run fate) s').Owed r s' u g) : (l.next s (.run fate) s').Ok r s' := by
  have hTidy := hWatched.ok.shared.tidy
  have hOrdered := hWatched.lined hPaced
  have hFurther := hOrdered.window t f hf own count hHas hLater
  have hSame : s'.shared.journal.writeCount = s.shared.journal.writeCount := by rw [hJournal]
  have hStart : s'.shared.journal.logStart = s.shared.journal.logStart := by rw [hJournal]
  have hEnd : s'.shared.journal.logEnd = own := by rw [hJournal]
  have hCount : s'.shared.journal.committedCount = count := by rw [hJournal]
  have hOffset : s'.shared.journal.writeOffset = s.shared.journal.writeOffset := by rw [hJournal]
  obtain ⟨hWrote, hCaptured, hBegan⟩ := h.times (.run fate) s'
  refine ⟨?_, ?_, fun hDirty => ?_, hWrote, hCaptured, hBegan, fun pos hPos hLog => ?_,
    fun rec hRec => ?_, fun u g hg => ?_⟩
  · rw [hCount, hSame]
    exact hWatched.inStep.counted t f hf own count hHas
  · have hSynced := h.synced
    rw [hStart, hEnd, hJournal]
    exact Nat.le_trans hSynced hFurther
  · rw [Ledger.cur_next hSame hOffset]
    rw [hJournal] at hDirty
    exact h.clean hDirty
  · rw [inLog_iff (by rw [hStart]; exact hTidy.logStart) (by rw [hEnd]; exact hOwn) hPos, hStart,
      hEnd] at hLog
    exact h.durable_committed hWatched.ok hWaits hHolder hForcing hOwn hFate hSame hPos hLog
  · rcases Ledger.mem_all_next hRec with hOld | ⟨-, hCur⟩
    · rcases h.kept rec hOld with hCur | hSafe | ⟨pos, hIn, hBehind⟩
      · exact Or.inl (Ledger.mem_cur_next hSame hCur)
      · exact Or.inr (Or.inl (hSafe.step hWatched hSteady hStep))
      · refine Or.inr (Or.inr ⟨pos, ?_, ?_⟩)
        · rw [Ledger.blocks_next (Sys.not_writes hSame pos)]
          exact hIn
        · rw [hJournal]
          exact hBehind
    · exact Or.inl hCur
  · rcases hNew u g hg with hOld | hOwed
    · refine (h.frames u g hOld).step h hWatched hSteady hStep hOld hStart ?_ ?_ ?_
      · rw [hEnd]
        exact hFurther
      · intro own' count' hHas' hLater'
        rw [hCount, hEnd]
        rcases Nat.lt_or_ge count count' with hLt | hGe
        · exact Or.inl hLt
        · -- A sync that captured before is covered by this one.
          exact Or.inr (hOrdered.syncs u g hOld own' count' hHas' t f hf own count hHas hLater' hGe)
      · exact fun _ _ _ pos _ => Sys.not_writes hSame pos
    · exact hOwed

/-- After its commit, or after that of another sync, what a sync owed is safe. -/
theorem Ledger.Waits.settled (h : l.Waits r s t start own count) (hOk : l.Ok r s)
    (hWatched : s.Watched r past l.notes) (hSteady : s.Steady e) (hStep : s.step e = some s')
    (hBusy : (s.threads t).stack ≠ [])
    (hSame : s'.shared.journal.writeCount = s.shared.journal.writeCount)
    (hStart : s'.shared.journal.logStart = s.shared.journal.logStart)
    (hEnd : r.Data s'.shared.journal.logEnd)
    (hReached : r.ahead s.shared.journal.logStart own ≤
      r.ahead s.shared.journal.logStart s'.shared.journal.logEnd)
    (hDurable : ∀ pos, r.Data pos → r.ahead s.shared.journal.logStart pos <
      r.ahead s.shared.journal.logStart own → (l.next s e s').durable pos) :
    (l.next s e s').Covers s' t := by
  have hTidy := hWatched.ok.shared.tidy
  intro rec hRec hBefore
  rw [Ledger.began_next hBusy] at hBefore
  rcases Ledger.mem_all_next hRec with hOld | ⟨rfl, -⟩
  · rcases h.covers rec hOld hBefore with hSafe | ⟨pos, hIn, hLt⟩
    · exact hSafe.step hWatched hSteady hStep
    · have hPos := (hWatched.notes.blocks pos rec hIn).2
      refine Or.inl ⟨pos, ?_, hDurable pos hPos hLt, ?_⟩
      · rw [inLog_iff (by rw [hStart]; exact hTidy.logStart) hEnd hPos, hStart]
        omega
      · rw [Ledger.blocks_next (Sys.not_writes hSame pos)]
        exact hIn
  · have hBegan := hOk.began t
    omega

end Commit

end Next

end Briefs.Journal
