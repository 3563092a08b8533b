import Briefs.Journal.Cursors

/-!
# BrieFS — the checkpoints of an unmount

`briefs_put_super` runs checkpoints until the window is empty, five at most. No other thread
is in the journal then, so a checkpoint runs through: it retires the window up to `synced_pos`,
and if the journal is dirty a sync drains the queue, writes the current block and commits it
past that boundary. The next checkpoint retires that too.

A block that an append has flushed is written, but `flush_cur_block` clears the dirty flag, and
only the record that comes after it sets the flag again. If that record is refused, the
checkpoint finds a clean journal and skips the sync: the boundary stays before the flushed
block, and the window is empty.

## Results

* `Returns.call` — the rules for a thread that is alone.
* `returns_drain` — a drain in a ring that is large enough appends what it takes.
* `returns_checkpoint_dirty`, `returns_checkpoint_clean` — one checkpoint.
* `unmount_retires_iff` — the loop ends with an empty window, and has retired all that was
  appended iff the journal was dirty or nothing was left to sync.
* `unmount_leaves_flushed` — a flushed block that stays behind the boundary.
-/

namespace Briefs.Journal

--
-- Positions
--

variable {r : Ring}

/-- The blocks of the ring that records go to. -/
def Ring.dataBlocks (r : Ring) : Nat := r.journalBlocks - 1

theorem Ring.dataBlocks_pos (r : Ring) : 0 < r.dataBlocks := by
  have hMin := r.hMin
  unfold minJournalBlocks at hMin
  unfold Ring.dataBlocks
  omega

theorem Ring.Data.sub_lt {pos : Nat} (h : r.Data pos) : pos - r.journalStart < r.dataBlocks := by
  obtain ⟨hLow, hHigh⟩ := h.bounds
  unfold Ring.dataBlocks
  omega

theorem Ring.Data.nth_eq {pos : Nat} (h : r.Data pos) (n : Nat) :
    r.nth pos n = r.journalStart + (pos - r.journalStart + n) % r.dataBlocks := by
  have hPos := r.dataBlocks_pos
  obtain ⟨hLow, hHigh⟩ := h.bounds
  induction n with
  | zero =>
    rw [Nat.add_zero, Nat.mod_eq_of_lt h.sub_lt]
    show pos = _
    omega
  | succ n ih =>
    have hx := Nat.mod_lt (pos - r.journalStart + n) hPos
    have hNext : (pos - r.journalStart + (n + 1)) % r.dataBlocks =
        ((pos - r.journalStart + n) % r.dataBlocks + 1) % r.dataBlocks := by
      rw [Nat.mod_add_mod, Nat.add_assoc]
    rw [r.nth_succ, (h.nth n).advance_eq, ih, hNext]
    generalize (pos - r.journalStart + n) % r.dataBlocks = x at hx
    have hBlocks : r.journalBlocks = r.dataBlocks + 1 := by
      unfold Ring.dataBlocks at hPos ⊢
      omega
    by_cases hLast : x + 1 = r.dataBlocks
    · rw [if_pos (by omega), hLast, Nat.mod_self, Nat.add_zero]
    · rw [if_neg (by omega), Nat.mod_eq_of_lt (by omega), Nat.add_assoc]

/-- The steps from one block to another. -/
def Ring.gap (r : Ring) (pos pos' : Nat) : Nat :=
  (pos' - r.journalStart + r.dataBlocks - (pos - r.journalStart)) % r.dataBlocks

theorem Ring.Data.nth_gap {pos pos' : Nat} (h : r.Data pos) (h' : r.Data pos') :
    r.nth pos (r.gap pos pos') = pos' := by
  have hx := h.sub_lt
  have hx' := h'.sub_lt
  obtain ⟨hLow', -⟩ := h'.bounds
  have hSum : pos - r.journalStart +
      (pos' - r.journalStart + r.dataBlocks - (pos - r.journalStart)) =
      pos' - r.journalStart + r.dataBlocks := by omega
  rw [h.nth_eq, Ring.gap, Nat.add_mod_mod, hSum, Nat.add_mod_right, Nat.mod_eq_of_lt hx']
  omega

/-- Less than a lap does not come back. -/
theorem Ring.Data.nth_ne_self {pos n : Nat} (h : r.Data pos) (hPos : 0 < n)
    (hLap : n < r.dataBlocks) : r.nth pos n ≠ pos := by
  have hx := h.sub_lt
  obtain ⟨hLow, -⟩ := h.bounds
  rw [h.nth_eq]
  intro hEq
  by_cases hWrap : pos - r.journalStart + n < r.dataBlocks
  · rw [Nat.mod_eq_of_lt hWrap] at hEq
    omega
  · rw [Nat.mod_eq_sub_mod (Nat.not_lt.mp hWrap), Nat.mod_eq_of_lt (by omega)] at hEq
    omega

--
-- A thread alone
--

/-- No error. -/
def Fate.calm : Fate := ⟨none, none, false⟩

/-- A thread that no other one comes between runs to its end: the state and what it returns. -/
def alone : Nat → Shared → Thread → Option (Shared × Option Errno)
  | 0, _, _ => none
  | _ + 1, sh, ⟨ret, []⟩ => some (sh, ret)
  | fuel + 1, sh, ⟨ret, f :: rest⟩ =>
    alone fuel (sh.step ret .calm f).1 ((sh.step ret .calm f).2.apply ret rest).1

/-- `briefs_journal_is_clean`. -/
def BriefsJournal.isClean (j : BriefsJournal) : Bool := j.logStart == j.logEnd

/-- The loop of `briefs_put_super` with the tries that are left. -/
def putSuperLoop (fuel : Nat) : Nat → Shared → Option (Shared × Option Errno)
  | 0, sh => some (sh, none)
  | tries + 1, sh =>
    if sh.journal.isClean then some (sh, none)
    else
      match alone fuel sh ⟨none, [.checkpoint .entry]⟩ with
      | some (sh, none) => putSuperLoop fuel tries sh
      | other => other

/-- The checkpoints of `briefs_put_super`. -/
def putSuper (fuel : Nat) (sh : Shared) : Option (Shared × Option Errno) :=
  match alone fuel sh ⟨none, [.checkpoint .entry]⟩ with
  | some (sh, none) => putSuperLoop fuel 4 sh
  | other => other

/-- Steps of a thread that no other one comes between. -/
inductive Solo : Shared → Thread → Shared → Thread → Prop where
  | refl (sh : Shared) (th : Thread) : Solo sh th sh th
  | step {sh sh' : Shared} {ret : Option Errno} {f : Frame} {rest : List Frame} {th' : Thread} :
      Solo (sh.step ret .calm f).1 ((sh.step ret .calm f).2.apply ret rest).1 sh' th' →
      Solo sh ⟨ret, f :: rest⟩ sh' th'

/-- The function returns. -/
def Returns (sh : Shared) (ret : Option Errno) (f : Frame) (sh' : Shared) (res : Option Errno) :
    Prop :=
  ∀ rest, Solo sh ⟨ret, f :: rest⟩ sh' ⟨res, rest⟩

variable {sh sh₁ sh₂ sh' : Shared} {ret ret₁ ret₂ res : Option Errno} {f g c : Frame}
  {rest : List Frame} {th th₁ th' : Thread}

theorem Solo.trans (h : Solo sh th sh₁ th₁) (h' : Solo sh₁ th₁ sh' th') : Solo sh th sh' th' := by
  induction h with
  | refl => exact h'
  | step _ ih => exact .step (ih h')

theorem Solo.of_step {act : Act} (h : sh.step ret .calm f = (sh₁, act))
    (hGo : Solo sh₁ (act.apply ret rest).1 sh' th') : Solo sh ⟨ret, f :: rest⟩ sh' th' := by
  refine .step ?_
  rw [h]
  exact hGo

theorem Solo.alone (h : Solo sh th sh' th') :
    ∃ n, ∀ fuel, alone (fuel + n) sh th = alone fuel sh' th' := by
  induction h with
  | refl => exact ⟨0, fun _ => rfl⟩
  | step _ ih =>
    obtain ⟨n, hn⟩ := ih
    refine ⟨n + 1, fun fuel => ?_⟩
    rw [← Nat.add_assoc, Journal.alone]
    exact hn fuel

theorem Returns.done (h : sh.step ret .calm f = (sh', .ret res)) : Returns sh ret f sh' res :=
  fun rest => .of_step h (.refl sh' ⟨res, rest⟩)

theorem Returns.goto (h : sh.step ret .calm f = (sh₁, .goto g)) (hGo : Returns sh₁ ret g sh' res) :
    Returns sh ret f sh' res :=
  fun rest => .of_step h (hGo rest)

theorem Returns.drop (h : sh.step ret .calm f = (sh₁, .drop g)) (hGo : Returns sh₁ ret g sh' res) :
    Returns sh ret f sh' res :=
  fun rest => .of_step h (hGo rest)

theorem Returns.call (h : sh.step ret .calm f = (sh₁, .call g c))
    (hCall : Returns sh₁ ret c sh₂ ret₂) (hGo : Returns sh₂ ret₂ g sh' res) :
    Returns sh ret f sh' res :=
  fun rest => .of_step h ((hCall (g :: rest)).trans (hGo rest))

/-- The public entry. -/
theorem Returns.alone (h : Returns sh none f sh' res) :
    ∃ n, ∀ fuel, n < fuel → alone fuel sh ⟨none, [f]⟩ = some (sh', res) := by
  obtain ⟨n, hn⟩ := (h []).alone
  refine ⟨n, fun fuel hFuel => ?_⟩
  obtain ⟨k, rfl⟩ : ∃ k, fuel = k + 1 + n := ⟨fuel - n - 1, by omega⟩
  rw [hn (k + 1)]
  rfl

--
-- Appending
--

/-- The state after a record, in a ring that has a block for it. -/
def Shared.append (sh : Shared) (rec : Record) : Shared :=
  { sh with
    journal :=
      (if sh.Short rec then sh.journal.flushCurBlock else sh.journal).putRecord rec }

theorem returns_write {rec : Record} (hFits : rec.Fits)
    (hRoom : sh.Short rec → sh.journal.ring.advance sh.journal.writePos ≠ sh.journal.logStart) :
    Returns sh ret (.write rec .entry) (sh.append rec) none := by
  have hValid : ¬(rec.data.length = 0 ∨ rec.recType ≤ jrnNone ∨ jrnEnd ≤ rec.recType) := by
    obtain ⟨⟨hLow, hHigh⟩, -, hSome, -⟩ := hFits
    omega
  unfold Shared.append
  by_cases hShort : sh.Short rec
  · have hStep : sh.step ret .calm (.write rec .entry) =
        ({ sh with journal := sh.journal.flushCurBlock }, .goto (.write rec (.loop 0))) := by
      show sh.writeStep ret .calm rec .entry = _
      unfold Shared.writeStep
      dsimp only
      rw [if_neg hValid, if_pos hShort]
      exact if_neg (hRoom hShort)
    -- The record fits in the empty block.
    have hFresh : ¬Shared.Short { sh with journal := sh.journal.flushCurBlock } rec := by
      have hBlock := hFits.block
      have hSizes : journalBlockSize = 4096 ∧ blockHeaderSize = 16 ∧ recordHeaderSize = 16 :=
        ⟨rfl, rfl, rfl⟩
      show ¬journalBlockSize < blockHeaderSize + (recordHeaderSize + rec.data.length)
      omega
    rw [if_pos hShort]
    exact Returns.goto hStep (Returns.done (if_neg hFresh))
  · rw [if_neg hShort]
    refine Returns.done ?_
    show sh.writeStep ret .calm rec .entry = _
    unfold Shared.writeStep
    dsimp only
    rw [if_neg hValid, if_neg hShort]

/-- The bytes of a `JRN_INODE_FULL` record. -/
def snapshotSize : Nat := recordHeaderSize + 560

theorem Snapshot.Whole.size {snap : Snapshot} (h : snap.Whole) :
    recordHeaderSize + snap.record.data.length = snapshotSize := by
  have hLen : (bytesOfLe64 snap.ino ++ snap.data).length ≤ 560 := by
    have hData : snap.data.length = 512 := h
    rw [List.length_append, length_bytesOfLe64]
    omega
  have hPad : snap.record.data.length = 560 := length_padTo hLen
  rw [hPad]
  rfl

/-- The blocks that `n` snapshots fill, from an offset on. -/
def flushesFor : Nat → Nat → Nat
  | _, 0 => 0
  | off, n + 1 =>
    if journalBlockSize < off + snapshotSize then flushesFor (blockHeaderSize + snapshotSize) n + 1
    else flushesFor (off + snapshotSize) n

/-- The write position is `k` blocks after the boundary, and the ring has room for `n` snapshots
and for the block that they end in. -/
structure Roomy (r : Ring) (base k n : Nat) (sh : Shared) : Prop where
  ring  : sh.journal.ring = r
  start : sh.journal.logStart = base
  pos   : sh.journal.writePos = r.nth base k
  room  : k + flushesFor sh.journal.writeOffset n + 1 < r.dataBlocks

/-- What appends leave as it was. -/
structure Onward (sh sh' : Shared) : Prop where
  synced    : sh'.journal.syncedPos = sh.journal.syncedPos
  committed : sh'.journal.committedCount = sh.journal.committedCount
  count     : sh.journal.writeCount ≤ sh'.journal.writeCount
  inside    : sh'.inCheckpoint = sh.inCheckpoint
  logEnd    : sh'.journal.logEnd = sh.journal.logEnd
  history   : sh'.history = sh.history
  dirty     : sh.journal.dirty = true → sh'.journal.dirty = true

theorem Onward.refl (sh : Shared) : Onward sh sh := ⟨rfl, rfl, Nat.le_refl _, rfl, rfl, rfl, id⟩

theorem Onward.trans (h : Onward sh sh₁) (h' : Onward sh₁ sh₂) : Onward sh sh₂ :=
  ⟨h'.synced.trans h.synced, h'.committed.trans h.committed, h.count.trans h'.count,
    h'.inside.trans h.inside, h'.logEnd.trans h.logEnd, h'.history.trans h.history,
    fun hDirty => h'.dirty (h.dirty hDirty)⟩

variable {base k n : Nat}

/-- One snapshot. -/
theorem Roomy.append (hBase : r.Data base) (h : Roomy r base k (n + 1) sh) {snap : Snapshot}
    (hWhole : snap.Whole) (ret : Option Errno) :
    Returns sh ret (.write snap.record .entry) (sh.append snap.record) none ∧
      (∃ k', Roomy r base k' n (sh.append snap.record)) ∧ Onward sh (sh.append snap.record) := by
  have hSize := hWhole.size
  have hRoom := h.room
  rw [flushesFor] at hRoom
  by_cases hShort : sh.Short snap.record
  · have hFull : journalBlockSize < sh.journal.writeOffset + snapshotSize := by
      rw [← hSize]
      exact hShort
    rw [if_pos hFull] at hRoom
    have hNext : sh.journal.ring.advance sh.journal.writePos = r.nth base (k + 1) := by
      rw [h.ring, h.pos, ← r.nth_succ]
    refine ⟨returns_write hWhole.fits fun _ => ?_, ⟨k + 1, ?_⟩, ?_⟩
    · rw [hNext, h.start]
      exact hBase.nth_ne_self (by omega) (by omega)
    · unfold Shared.append
      rw [if_pos hShort]
      refine ⟨h.ring, h.start, hNext, ?_⟩
      show k + 1 +
        flushesFor (blockHeaderSize + (recordHeaderSize + snap.record.data.length)) n + 1 < _
      rw [hSize]
      omega
    · unfold Shared.append
      rw [if_pos hShort]
      exact ⟨rfl, rfl, Nat.le_add_right _ _, rfl, rfl, rfl, fun _ => rfl⟩
  · have hFits : ¬journalBlockSize < sh.journal.writeOffset + snapshotSize := by
      rw [← hSize]
      exact hShort
    rw [if_neg hFits] at hRoom
    refine ⟨returns_write hWhole.fits fun hIs => absurd hIs hShort, ⟨k, ?_⟩, ?_⟩
    · unfold Shared.append
      rw [if_neg hShort]
      refine ⟨h.ring, h.start, h.pos, ?_⟩
      show k +
        flushesFor (sh.journal.writeOffset + (recordHeaderSize + snap.record.data.length)) n + 1 < _
      rw [hSize]
      exact hRoom
    · unfold Shared.append
      rw [if_neg hShort]
      exact ⟨rfl, rfl, Nat.le_refl _, rfl, rfl, rfl, fun _ => rfl⟩

/-- A batch, up to the next round. -/
theorem leads_batch (hBase : r.Data base) (since round : Nat) : ∀ (batch : List Snapshot)
    {sh : Shared} (ret : Option Errno) {k : Nat}, (∀ snap ∈ batch, snap.Whole) →
    Roomy r base k (batch.length + n) sh →
    ∃ sh₁ k₁ ret₁, Roomy r base k₁ n sh₁ ∧ Onward sh sh₁ ∧ sh₁.queue = sh.queue ∧
      (∀ y ∈ sh₁.appended, y ∈ sh.appended ∨ y ∈ batch) ∧
      ∀ {sh' res}, Returns sh₁ ret₁ (.drain since (round + 1) .start) sh' res →
        Returns sh ret (.drain since round (.next batch none)) sh' res
  | [], sh, ret, k, _, h => by
    rw [List.length_nil, Nat.zero_add] at h
    exact ⟨sh, k, ret, h, Onward.refl sh, rfl, fun _ hy => Or.inl hy,
      fun hGo => Returns.goto rfl hGo⟩
  | snap :: batch, sh, ret, k, hWhole, h => by
    obtain ⟨hSnap, hBatch⟩ := List.forall_mem_cons.mp hWhole
    rw [List.length_cons, Nat.add_right_comm] at h
    obtain ⟨hWrite, ⟨k', hRoomy⟩, hOn⟩ := h.append hBase hSnap ret
    have hNoted : Roomy r base k' (batch.length + n)
        ((sh.append snap.record).noteWritten snap none) :=
      ⟨hRoomy.ring, hRoomy.start, hRoomy.pos, hRoomy.room⟩
    obtain ⟨sh₁, k₁, ret₁, hRoomy₁, hOn₁, hQueue, hDone, hGo⟩ :=
      leads_batch hBase since round batch none hBatch hNoted
    refine ⟨sh₁, k₁, ret₁, hRoomy₁, ?_, hQueue, fun y hy => ?_, fun hRest => ?_⟩
    · refine hOn.trans (Onward.trans ?_ hOn₁)
      exact ⟨rfl, rfl, Nat.le_refl _, rfl, rfl, rfl, id⟩
    · rcases hDone y hy with hNoted | hIn
      · rcases List.mem_cons.mp hNoted with rfl | hOld
        · exact Or.inr List.mem_cons_self
        · exact Or.inl hOld
      · exact Or.inr (List.mem_cons_of_mem _ hIn)
    · exact Returns.call rfl hWrite (Returns.goto rfl (hGo hRest))

/-- What rounds of a drain take from the queue. -/
structure Drained (rounds : Nat) (sh sh' : Shared) : Prop where
  queue    : sh'.queue = sh.queue.drop (Shared.batchMax * rounds)
  appended : ∀ y ∈ sh'.appended,
    y ∈ sh.appended ∨ y ∈ sh.queue.take (Shared.batchMax * rounds)

theorem Drained.of_empty (rounds : Nat) (h : sh.queue.length = 0) : Drained rounds sh sh := by
  refine ⟨?_, fun _ hy => Or.inl hy⟩
  rw [List.length_eq_zero_iff.mp h, List.drop_nil]

theorem Drained.round {left count : Nat} (hCount : min sh.queue.length Shared.batchMax = count)
    (hQueue : sh₁.queue = sh.queue.drop count)
    (hDone : ∀ y ∈ sh₁.appended, y ∈ sh.appended ∨ y ∈ sh.queue.take count)
    (h : Drained left sh₁ sh') : Drained (left + 1) sh sh' := by
  have hDrop : sh.queue.drop count = sh.queue.drop Shared.batchMax := by
    by_cases hLong : Shared.batchMax ≤ sh.queue.length
    · rw [← hCount, Nat.min_eq_right hLong]
    · rw [List.drop_of_length_le (by omega), List.drop_of_length_le (by omega)]
  have hSum : Shared.batchMax * (left + 1) = Shared.batchMax + Shared.batchMax * left := by
    rw [Nat.mul_succ, Nat.add_comm]
  refine ⟨?_, fun y hy => ?_⟩
  · rw [h.queue, hQueue, hDrop, List.drop_drop, hSum]
  · have hFront : ∀ z ∈ sh.queue.take count, z ∈ sh.queue.take (Shared.batchMax * (left + 1)) :=
      fun z hz => List.take_subset_take_left _ (by omega) hz
    rcases h.appended y hy with hOld | hLater
    · exact (hDone y hOld).imp id (hFront y)
    · rw [hQueue, hDrop] at hLater
      refine Or.inr ?_
      rw [hSum, List.take_add]
      exact List.mem_append_right _ hLater

/-- The rounds of a drain. -/
theorem returns_drain (hBase : r.Data base) (since : Nat) : ∀ (left : Nat) (round : Nat)
    (ret : Option Errno) {sh : Shared} {k : Nat}, round + left = Shared.drainRounds →
    (∀ snap ∈ sh.queue, snap.Whole) → Roomy r base k sh.queue.length sh →
    ∃ sh' k', Returns sh ret (.drain since round .start) sh' none ∧
      Roomy r base k' sh'.queue.length sh' ∧ Onward sh sh' ∧ Drained left sh sh'
  | 0, round, ret, sh, k, hLeft, _, h =>
    ⟨sh, k, Returns.done (if_pos (Or.inl (Nat.le_of_eq hLeft.symm))), h, Onward.refl sh,
      rfl, fun _ hy => Or.inl hy⟩
  | left + 1, round, ret, sh, k, hLeft, hWhole, h => by
    by_cases hEmpty : sh.queue.length = 0
    · exact ⟨sh, k, Returns.done (if_pos (Or.inr hEmpty)), h, Onward.refl sh, .of_empty _ hEmpty⟩
    · have hMore : ¬(Shared.drainRounds ≤ round ∨ sh.queue.length = 0) := by omega
      generalize hCount : min sh.queue.length Shared.batchMax = count
      have hStart : sh.step ret .calm (.drain since round .start) =
          (sh, .goto (.drain since round (.take count))) := by
        rw [← hCount]
        exact if_neg hMore
      have hSum : (sh.queue.take count).length + (sh.queue.drop count).length =
          sh.queue.length := by
        rw [← List.length_append, List.take_append_drop]
      have hTaken : Roomy r base k ((sh.queue.take count).length + (sh.queue.drop count).length)
          { sh with queue := sh.queue.drop count } := by
        rw [hSum]
        exact ⟨h.ring, h.start, h.pos, h.room⟩
      obtain ⟨sh₁, k₁, ret₁, hRoomy₁, hOn₁, hQueue, hDone, hGo⟩ :=
        leads_batch hBase since round (sh.queue.take count) ret
          (fun snap hIn => hWhole snap (List.mem_of_mem_take hIn)) hTaken
      have hQueue₁ : sh₁.queue = sh.queue.drop count := hQueue
      have hWhole₁ : ∀ snap ∈ sh₁.queue, snap.Whole := by
        rw [hQueue₁]
        exact fun snap hIn => hWhole snap (List.mem_of_mem_drop hIn)
      rw [← hQueue₁] at hRoomy₁
      obtain ⟨sh', k', hReturns, hRoomy', hOn', hDrained⟩ :=
        returns_drain hBase since left (round + 1) ret₁ (by omega) hWhole₁ hRoomy₁
      refine ⟨sh', k', Returns.goto hStart (Returns.goto rfl (hGo hReturns)), hRoomy', ?_,
        hDrained.round hCount hQueue₁ hDone⟩
      refine Onward.trans ?_ hOn'
      exact ⟨hOn₁.synced, hOn₁.committed, hOn₁.count, hOn₁.inside, hOn₁.logEnd, hOn₁.history,
        hOn₁.dirty⟩

--
-- Checkpoints
--

/-- All is synced: the cursors are together, and the current block is empty. -/
structure Shared.Synced (sh : Shared) : Prop where
  synced : sh.journal.syncedPos = sh.journal.writePos
  block  : sh.journal.writeOffset = blockHeaderSize
  dirty  : sh.journal.dirty = false

/-- The last steps of a sync inside a checkpoint. -/
theorem returns_flushed (sh : Shared) (since own : Nat) (hInside : sh.inCheckpoint = true)
    (ret : Option Errno) :
    Returns sh ret (.sync false (.flushed since sh.journal.syncedPos own))
      { sh with journal := { sh.journal with syncedPos := own } } none := by
  have hStep : sh.step ret .calm (.sync false (.flushed since sh.journal.syncedPos own)) =
      ({ sh with journal := { sh.journal with syncedPos := own } }, .goto (.sync false .tail)) := by
    show sh.syncStep ret .calm false (.flushed since sh.journal.syncedPos own) = _
    unfold Shared.syncStep BriefsJournal.claim
    dsimp only
    rewrite [if_neg fun hBoth => Bool.false_ne_true hBoth.1, if_pos (Or.inl rfl)]
    rfl
  refine Returns.goto hStep (Returns.done (if_neg fun hBoth => ?_))
  have hOut : sh.inCheckpoint = false := hBoth.1
  rw [hInside] at hOut
  cases hOut

/-- A sync from the capture of its boundary on, inside a checkpoint. -/
theorem returns_capture (sh : Shared) (since : Nat)
    (hOpen : sh.journal.flushCurBlock.writePos ≠ sh.journal.logStart)
    (hCount : sh.journal.committedCount ≤ sh.journal.writeCount) (hInside : sh.inCheckpoint = true)
    (ret : Option Errno) :
    Returns sh ret (.sync false (.capture since))
      { sh with
        journal :=
          { sh.journal.flushCurBlock.commit with
            syncedPos := sh.journal.flushCurBlock.writePos } } none := by
  have hSteps : sh.journal.committedCount < sh.journal.flushCurBlock.writeCount := by
    have hPos := sh.journal.ring.steps_pos sh.journal.writePos
    show _ < sh.journal.writeCount + sh.journal.ring.steps sh.journal.writePos
    omega
  have hCommit : sh.journal.flushCurBlock.commit =
      { sh.journal.flushCurBlock with
        logEnd := sh.journal.flushCurBlock.writePos
        committedCount := sh.journal.flushCurBlock.writeCount } :=
    if_pos ⟨hSteps, hOpen⟩
  have hForced : Shared.step { sh with journal := sh.journal.flushCurBlock } ret .calm
      (.sync false (.forced since sh.journal.syncedPos sh.journal.flushCurBlock.writePos
        sh.journal.flushCurBlock.writeCount)) =
      ({ sh with journal := sh.journal.flushCurBlock.commit },
        .drop (.sync false (.flushed since sh.journal.syncedPos
          sh.journal.flushCurBlock.writePos))) := by
    rw [hCommit]
    exact if_pos ⟨hSteps, hOpen⟩
  have hSynced : sh.journal.flushCurBlock.commit.syncedPos = sh.journal.syncedPos := by
    rw [hCommit]
    rfl
  have hRest := returns_flushed { sh with journal := sh.journal.flushCurBlock.commit } since
    sh.journal.flushCurBlock.writePos hInside ret
  rw [hSynced] at hRest
  exact Returns.drop rfl (Returns.drop hForced hRest)

/-- The sync of a checkpoint. -/
theorem returns_sync (sh : Shared) (h : Roomy r base k sh.queue.length sh) (hBase : r.Data base)
    (hWhole : ∀ snap ∈ sh.queue, snap.Whole)
    (hCount : sh.journal.committedCount ≤ sh.journal.writeCount)
    (hDirty : sh.journal.dirty = true) (hInside : sh.inCheckpoint = true) (ret : Option Errno) :
    ∃ sh' m, Returns sh ret (.sync false .entry) sh' none ∧ sh'.Synced ∧
      sh'.journal.logStart = base ∧ sh'.journal.logEnd = r.nth base m ∧
      sh'.journal.writePos = r.nth base m ∧ 0 < m ∧ m < r.dataBlocks := by
  obtain ⟨sh₁, k₁, hDrain, hRoomy, hOn, -⟩ :=
    returns_drain hBase sh.stamp 8 0 ret (Nat.zero_add 8) hWhole h
  have hLap : k₁ + 1 < r.dataBlocks := by
    have hRoom := hRoomy.room
    omega
  have hOwn : sh₁.journal.flushCurBlock.writePos = r.nth base (k₁ + 1) := by
    show sh₁.journal.ring.advance sh₁.journal.writePos = _
    rw [hRoomy.ring, hRoomy.pos, ← r.nth_succ]
  have hOpen : sh₁.journal.flushCurBlock.writePos ≠ sh₁.journal.logStart := by
    rw [hOwn, hRoomy.start]
    exact hBase.nth_ne_self (Nat.succ_pos k₁) hLap
  have hDrained : sh₁.step none .calm (.sync false (.drained sh.stamp)) =
      (sh₁, .goto (.sync false (.capture sh.stamp))) := by
    have hDirty₁ : ¬sh₁.journal.dirty = false := by
      rw [hOn.dirty hDirty]
      decide
    have hOut : ¬(sh₁.inCheckpoint = false ∧ sh₁.journal.needsRoom = true) := by
      rw [hOn.inside, hInside]
      exact fun hBoth => absurd hBoth.1 (by decide)
    show sh₁.syncStep none .calm false (.drained sh.stamp) = _
    unfold Shared.syncStep
    dsimp only
    rw [if_neg hDirty₁, if_neg hOut]
  have hCount₁ : sh₁.journal.committedCount ≤ sh₁.journal.writeCount := by
    rw [hOn.committed]
    exact hCount.trans hOn.count
  have hCapture := returns_capture sh₁ sh.stamp hOpen hCount₁ (hOn.inside.trans hInside) none
  have hCommit : sh₁.journal.flushCurBlock.commit =
      { sh₁.journal.flushCurBlock with
        logEnd := sh₁.journal.flushCurBlock.writePos
        committedCount := sh₁.journal.flushCurBlock.writeCount } := by
    refine if_pos ⟨?_, hOpen⟩
    have hPos := sh₁.journal.ring.steps_pos sh₁.journal.writePos
    show sh₁.journal.committedCount < sh₁.journal.writeCount + _
    omega
  rw [hCommit] at hCapture
  exact ⟨_, k₁ + 1, Returns.call rfl hDrain (Returns.goto hDrained hCapture), ⟨rfl, rfl, rfl⟩,
    hRoomy.start, hOwn, hOwn, Nat.succ_pos k₁, hLap⟩

/-- A checkpoint of a journal that is not dirty. -/
theorem returns_checkpoint_clean (hIdle : sh.inCheckpoint = false)
    (hDirty : sh.journal.dirty = false) (ret : Option Errno) :
    Returns sh ret (.checkpoint .entry)
      { sh with journal := { sh.journal.retire with sinceCheckpoint := 0 } } none := by
  refine Returns.drop (if_neg (by rw [hIdle]; exact Bool.false_ne_true)) ?_
  have hStep : Shared.step { sh with inCheckpoint := true } ret .calm (.checkpoint .flushed) =
      Shared.settle { sh with journal := sh.journal.retire, inCheckpoint := true } :=
    if_neg (by rw [hDirty]; exact Bool.false_ne_true)
  refine Returns.done (hStep.trans ?_)
  unfold Shared.settle
  rw [← hIdle]

/-- A checkpoint of a journal that is dirty, in a ring that is large enough. -/
theorem returns_checkpoint_dirty (hIdle : sh.inCheckpoint = false)
    (hDirty : sh.journal.dirty = true) (hSynced : r.Data sh.journal.syncedPos)
    (hWhole : ∀ snap ∈ sh.queue, snap.Whole) (hRing : sh.journal.ring = r)
    (hPos : sh.journal.writePos = r.nth sh.journal.syncedPos k)
    (hRoom : k + flushesFor sh.journal.writeOffset sh.queue.length + 1 < r.dataBlocks)
    (ret : Option Errno) :
    ∃ sh' m, Returns sh ret (.checkpoint .entry) sh' none ∧ sh'.Synced ∧ sh'.inCheckpoint = false ∧
      sh'.journal.logStart = sh.journal.syncedPos ∧
      sh'.journal.logEnd = r.nth sh.journal.syncedPos m ∧
      sh'.journal.writePos = r.nth sh.journal.syncedPos m ∧ 0 < m ∧ m < r.dataBlocks := by
  have hRoomy : Roomy r sh.journal.syncedPos k sh.queue.length
      { sh with journal := sh.journal.retire, inCheckpoint := true } := ⟨hRing, rfl, hPos, hRoom⟩
  obtain ⟨sh₁, m, hSync, hDone, hStart, hEnd, hWrite, hSome, hLap⟩ :=
    returns_sync { sh with journal := sh.journal.retire, inCheckpoint := true } hRoomy hSynced
      hWhole (Nat.le_refl _) hDirty rfl ret
  refine ⟨sh₁.settle.1, m, ?_, ⟨hDone.synced, hDone.block, hDone.dirty⟩, rfl, hStart, hEnd, hWrite,
    hSome, hLap⟩
  refine Returns.drop (if_neg (by rw [hIdle]; exact Bool.false_ne_true)) ?_
  exact Returns.call (if_pos hDirty) hSync (Returns.done rfl)

--
-- The loop
--

/-- A ring large enough: the blocks from `synced_pos` to the write position, those that the
snapshots of the queue fill, and the block that they end in, are less than a lap. -/
def Shared.Large (sh : Shared) : Prop :=
  sh.journal.ring.gap sh.journal.syncedPos sh.journal.writePos +
    flushesFor sh.journal.writeOffset sh.queue.length + 1 < sh.journal.ring.dataBlocks

/-- The window is empty, and no block and no record lies behind its end: all that was
appended has been retired. -/
structure BriefsJournal.AllRetired (j : BriefsJournal) : Prop where
  window : j.logStart = j.logEnd
  blocks : j.writePos = j.logStart
  block  : j.writeOffset = blockHeaderSize

theorem putSuperLoop_clean (fuel tries : Nat) (h : sh.journal.logStart = sh.journal.logEnd) :
    putSuperLoop fuel tries sh = some (sh, none) := by
  cases tries with
  | zero => rfl
  | succ tries =>
    unfold putSuperLoop
    exact if_pos (beq_iff_eq.mpr h)

/-- A journal that is not dirty: one checkpoint, which leaves what was not synced. -/
theorem putSuper_clean (hIdle : sh.inCheckpoint = false) (hDirty : sh.journal.dirty = false) :
    ∃ n, ∀ fuel, n < fuel → putSuper fuel sh =
      some ({ sh with journal := { sh.journal.retire with sinceCheckpoint := 0 } }, none) := by
  obtain ⟨n, hn⟩ := (returns_checkpoint_clean hIdle hDirty none).alone
  refine ⟨n, fun fuel hFuel => ?_⟩
  unfold putSuper
  rw [hn fuel hFuel]
  exact putSuperLoop_clean fuel 4 rfl

/-- A journal that is dirty: two checkpoints. -/
theorem putSuper_dirty (hIdle : sh.inCheckpoint = false) (hDirty : sh.journal.dirty = true)
    (hSynced : sh.journal.ring.Data sh.journal.syncedPos)
    (hWrite : sh.journal.ring.Data sh.journal.writePos)
    (hWhole : ∀ snap ∈ sh.queue, snap.Whole) (hLarge : sh.Large) :
    ∃ n sh', (∀ fuel, n < fuel → putSuper fuel sh = some (sh', none)) ∧ sh'.journal.AllRetired := by
  obtain ⟨sh₁, m, hFirst, hDone, hIdle₁, hStart, hEnd, hPos, hSome, hLap⟩ :=
    returns_checkpoint_dirty hIdle hDirty hSynced hWhole rfl (hSynced.nth_gap hWrite).symm hLarge
      none
  have hOpen : sh₁.journal.isClean = false := by
    refine beq_eq_false_iff_ne.mpr fun hEq => ?_
    rw [hStart, hEnd] at hEq
    exact hSynced.nth_ne_self hSome hLap hEq.symm
  obtain ⟨n₁, hn₁⟩ := hFirst.alone
  obtain ⟨n₂, hn₂⟩ := (returns_checkpoint_clean hIdle₁ hDone.dirty none).alone
  refine ⟨n₁ + n₂, { sh₁ with journal := { sh₁.journal.retire with sinceCheckpoint := 0 } },
    fun fuel hFuel => ?_, rfl, hDone.synced.symm, hDone.block⟩
  unfold putSuper
  rw [hn₁ fuel (by omega)]
  show putSuperLoop fuel (3 + 1) sh₁ = _
  rw [putSuperLoop, hOpen, if_neg Bool.false_ne_true, hn₂ fuel (by omega)]
  exact putSuperLoop_clean fuel 3 rfl

/-- With no other thread in the journal, no error and a ring that is large enough, the
checkpoints of an unmount end within their tries with an empty window. They have retired all
that was appended iff the journal was dirty, or nothing was left to sync. -/
theorem unmount_retires_iff (hIdle : sh.inCheckpoint = false)
    (hSynced : sh.journal.ring.Data sh.journal.syncedPos)
    (hWrite : sh.journal.ring.Data sh.journal.writePos)
    (hWhole : ∀ snap ∈ sh.queue, snap.Whole) (hLarge : sh.Large) :
    ∃ n sh', (∀ fuel, n < fuel → putSuper fuel sh = some (sh', none)) ∧
      sh'.journal.logStart = sh'.journal.logEnd ∧
      (sh'.journal.AllRetired ↔ sh.journal.dirty = true ∨
        (sh.journal.writePos = sh.journal.syncedPos ∧
          sh.journal.writeOffset = blockHeaderSize)) := by
  cases hDirty : sh.journal.dirty with
  | true =>
    obtain ⟨n, sh', hRun, hAll⟩ := putSuper_dirty hIdle hDirty hSynced hWrite hWhole hLarge
    exact ⟨n, sh', hRun, hAll.window, fun _ => Or.inl rfl, fun _ => hAll⟩
  | false =>
    obtain ⟨n, hRun⟩ := putSuper_clean hIdle hDirty
    refine ⟨n, _, hRun, rfl, fun hAll => Or.inr ⟨hAll.blocks, hAll.block⟩, fun hCond => ?_⟩
    rcases hCond with hIs | ⟨hPos, hBlock⟩
    · cases hIs
    · exact ⟨rfl, hPos, hBlock⟩

/-- A journal with a record in its current block. -/
def pendingJournal : BriefsJournal :=
  let j := { smallJournal 0 with writePos := 100, syncedPos := 100, logStart := 100, logEnd := 100 }
  j.putRecord (Call.inodeFree 7).record

/-- The record is not synced, and a snapshot is queued. -/
def pendingShared : Shared :=
  ⟨pendingJournal, false, [⟨5, 0, 0, List.replicate 512 0⟩], 1, [], [], []⟩

theorem unmount_retires_pending :
    pendingShared.journal.ring.Data pendingShared.journal.syncedPos ∧
      (∀ snap ∈ pendingShared.queue, snap.Whole) ∧ pendingShared.Large ∧
      ∃ n sh', (∀ fuel, n < fuel → putSuper fuel pendingShared = some (sh', none)) ∧
        sh'.journal.AllRetired := by
  have hData : pendingShared.journal.ring.Data 100 :=
    ⟨by show 100 ≤ 100 ∧ 100 < 108; omega, by show 100 ≠ 107; omega⟩
  have hWhole : ∀ snap ∈ pendingShared.queue, snap.Whole :=
    List.forall_mem_singleton.mpr List.length_replicate
  have hLarge : pendingShared.Large := by
    unfold Shared.Large
    decide
  refine ⟨hData, hWhole, hLarge, ?_⟩
  obtain ⟨n, sh', hRun, -, hIff⟩ := unmount_retires_iff rfl hData hData hWhole hLarge
  exact ⟨n, sh', hRun, hIff.mpr (Or.inl rfl)⟩

/-- The block with the record was flushed, by a sync whose wait then failed. -/
def flushedShared : Shared := ⟨pendingJournal.flushCurBlock, false, [], 0, [], [], []⟩

/-- The checkpoint skips its sync, and the flushed block stays behind the empty window. -/
theorem unmount_leaves_flushed :
    flushedShared.inCheckpoint = false ∧
      flushedShared.journal.ring.Data flushedShared.journal.syncedPos ∧
      flushedShared.journal.ring.Data flushedShared.journal.writePos ∧
      (∀ snap ∈ flushedShared.queue, snap.Whole) ∧ flushedShared.Large ∧
      ∃ n sh', (∀ fuel, n < fuel → putSuper fuel flushedShared = some (sh', none)) ∧
        sh'.journal.logStart = sh'.journal.logEnd ∧
        sh'.journal.writePos = sh'.journal.logStart + 1 ∧ ¬sh'.journal.AllRetired := by
  have hWrite : flushedShared.journal.writePos = 101 := by decide
  refine ⟨rfl, ⟨by show 100 ≤ 100 ∧ 100 < 108; omega, by show 100 ≠ 107; omega⟩, ?_,
    fun _ hx => absurd hx List.not_mem_nil, ?_, ?_⟩
  · rw [hWrite]
    exact ⟨by show 100 ≤ 101 ∧ 101 < 108; omega, by show 101 ≠ 107; omega⟩
  · unfold Shared.Large
    decide
  · have hIdle : flushedShared.inCheckpoint = false := rfl
    have hDirty : flushedShared.journal.dirty = false := rfl
    obtain ⟨n, hRun⟩ := putSuper_clean hIdle hDirty
    refine ⟨n, _, hRun, rfl, hWrite, fun hAll => ?_⟩
    have hBlocks : flushedShared.journal.writePos = 100 := hAll.blocks
    rw [hWrite] at hBlocks
    cases hBlocks

end Briefs.Journal
