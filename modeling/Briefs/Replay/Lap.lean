import Briefs.Replay.Discard

/-!
# BrieFS — does the walk of the journal end?

The walk stops only where its position equals `journal_log_end`, and a mount takes both
ends of the window as they are on disk. Inside the ring the position runs through every
block, so an end that lies in the ring is met in the first lap; a start outside the ring
fails the range check of the first read. What is left is a window that starts in the
ring and ends outside it: then only the content of a block can stop the walk.

## Results

* `pathAt_eq` — the position after `k` steps.
* `walkJournal_halts`, `walkJournal_runs` — the walk ends at the first block it does not
  get past, and not before.
* `walk_one_lap_iff` — both passes end and visit no block twice, exactly if one of these
  three stops them.
-/

namespace Briefs.Replay

open Briefs.Journal

--
-- Positions
--

variable {r : Ring}

/-- One step on the offsets of the ring. -/
theorem nextBlock_add {d : Nat} (hd : d < r.journalBlocks) :
    r.nextBlock (r.journalStart + d) = r.journalStart + (d + 1) % r.journalBlocks := by
  unfold Ring.nextBlock Ring.journalEnd
  by_cases hLast : d + 1 = r.journalBlocks
  · rw [if_pos (by omega), hLast, Nat.mod_self, Nat.add_zero]
  · rw [if_neg (by omega), Nat.mod_eq_of_lt (by omega)]
    omega

/-- The position after `k` steps from a block of the ring. -/
theorem pathAt_eq {start : Nat} (hMem : r.Mem start) (k : Nat) :
    pathAt r start k = r.journalStart + (start - r.journalStart + k) % r.journalBlocks := by
  have hSize := r.hMin
  unfold minJournalBlocks at hSize
  unfold Ring.Mem Ring.journalEnd at hMem
  induction k with
  | zero =>
    rw [pathAt_zero, Nat.add_zero, Nat.mod_eq_of_lt (by omega)]
    omega
  | succ k ih =>
    have hStep : pathAt r start (k + 1) = r.nextBlock (pathAt r start k) :=
      Function.iterate_succ_apply' r.nextBlock k start
    rw [hStep, ih, nextBlock_add (Nat.mod_lt _ (by omega)), Nat.mod_add_mod, Nat.add_assoc]

theorem mem_pathAt {start : Nat} (hMem : r.Mem start) (k : Nat) : r.Mem (pathAt r start k) := by
  have hSize := r.hMin
  unfold minJournalBlocks at hSize
  have hLt := Nat.mod_lt (start - r.journalStart + k) (show 0 < r.journalBlocks by omega)
  rw [pathAt_eq hMem k]
  unfold Ring.Mem Ring.journalEnd
  omega

/-- Every block of the ring is met in the first lap. -/
theorem exists_pathAt {start pos : Nat} (hMem : r.Mem start) (hPos : r.Mem pos) :
    ∃ k < r.journalBlocks, pathAt r start k = pos := by
  have hEq := pathAt_eq hMem
  have hSize := r.hMin
  unfold minJournalBlocks at hSize
  unfold Ring.Mem Ring.journalEnd at hMem hPos
  by_cases hBehind : start ≤ pos
  · refine ⟨pos - start, by omega, ?_⟩
    rw [hEq, Nat.mod_eq_of_lt (by omega)]
    omega
  · refine ⟨r.journalBlocks - (start - pos), by omega, ?_⟩
    rw [hEq, show start - r.journalStart + (r.journalBlocks - (start - pos)) =
      pos - r.journalStart + r.journalBlocks by omega, Nat.add_mod_right,
      Nat.mod_eq_of_lt (by omega)]
    omega

/-- No block is met twice in one lap. -/
theorem pathAt_ne {start i j : Nat} (hMem : r.Mem start) (hij : i < j)
    (hLap : j - i < r.journalBlocks) : pathAt r start i ≠ pathAt r start j := by
  intro hSame
  rw [pathAt_eq hMem, pathAt_eq hMem] at hSame
  have hMod : start - r.journalStart + i ≡ start - r.journalStart + j [MOD r.journalBlocks] := by
    unfold Nat.ModEq
    omega
  have hDvd := (Nat.modEq_iff_dvd' (by omega)).mp hMod
  rw [show start - r.journalStart + j - (start - r.journalStart + i) = j - i by omega] at hDvd
  have hLe := Nat.le_of_dvd (by omega) hDvd
  omega

--
-- The end of the walk
--

variable {p : Pattern} {pass : Bool} {stop : Nat}

/-- The walk goes on as long as it gets past the blocks. -/
theorem walkJournal_runs {fuel : Nat} : ∀ {start : Nat} (st : WalkState (List Call)),
    (∀ j < fuel, Continues r p pass stop (pathAt r start j)) →
    walkJournal r p.ops pass stop fuel start st = none := by
  induction fuel with
  | zero =>
    intro start st _
    rfl
  | succ fuel ih =>
    intro start st hCont
    have hHere : Continues r p pass stop start := hCont 0 (by omega)
    obtain ⟨st', hEq, -, -⟩ := walkJournal_continue hHere st
    rw [hEq fuel]
    exact ih st' fun j hj => hCont (j + 1) (by omega)

/-- A block that makes the walk return an error ends it. -/
theorem walkJournal_unusable {start : Nat} (st : WalkState (List Call))
    (h : Unusable r p pass stop start) :
    ∃ e, walkJournal r p.ops pass stop 1 start st = some (.error e) := by
  obtain ⟨hStop, hCk, hBad⟩ := h
  rw [walkJournal, if_neg hStop, if_neg hCk]
  by_cases hMem : r.Mem start
  · rw [if_neg (not_not.mpr hMem)]
    rcases hBad with hOut | hNone | ⟨b, e, hb, hMagic, hScan⟩
    · exact absurd hMem hOut
    · simp [Pattern.ops, hNone]
    · have hRec := walkRecords_eq_scan p pass start b (recordCount b) 0 blockHeaderSize
        { st with world := st.world ++ [.bread pass start (some b)], blocks := st.blocks + 1 }
      have hScan' : scanRecords b (recordCount b) 0 blockHeaderSize = .error e := hScan
      rw [hScan'] at hRec
      obtain ⟨e', hWalk⟩ := hRec
      simp only [Pattern.ops, hb, hMagic, if_true] at hWalk ⊢
      rw [hWalk]
      exact ⟨e', rfl⟩
  · rw [if_pos hMem]
    exact ⟨_, rfl⟩

/-- The walk ends at the first block it does not get past. -/
theorem walkJournal_halts {m : Nat} : ∀ {start : Nat} (st : WalkState (List Call)),
    (∀ j < m, Continues r p pass stop (pathAt r start j)) →
    ¬ Continues r p pass stop (pathAt r start m) →
    ∃ out, walkJournal r p.ops pass stop (m + 1) start st = some out := by
  induction m with
  | zero =>
    intro start st _ hNot
    have hKinds : Continues r p pass stop start ∨
        (start = stop ∨ BadMagic r p pass stop start) ∨ Unusable r p pass stop start :=
      continues_or_stops_or_unusable start
    rcases hKinds with hCont | hStop | hBad
    · exact absurd hCont hNot
    · obtain ⟨st', hEnd⟩ := walkJournal_reaches (m := 0) 1 st
        ⟨fun j hj => absurd hj (Nat.not_lt_zero j), hStop⟩ (by omega)
      exact ⟨_, hEnd⟩
    · obtain ⟨e, hEnd⟩ := walkJournal_unusable st hBad
      exact ⟨_, hEnd⟩
  | succ m ih =>
    intro start st hCont hNot
    have hHere : Continues r p pass stop start := hCont 0 (by omega)
    obtain ⟨st', hEq, -, -⟩ := walkJournal_continue hHere st
    rw [hEq (m + 1)]
    exact ih st' (fun j hj => hCont (j + 1) (by omega)) hNot

--
-- One lap
--

section Lap

variable (r : Ring) (p : Pattern) (win : Window)

/-- The walk of a pass ends after at most `m` blocks and the position that ends it, no two of them
the same. -/
def EndsInOneLap (pass : Bool) : Prop :=
  ∃ m out, walkPass r p.ops win (m + 1) pass [] = some out ∧
    ∀ i j, i < j → j ≤ m → pathAt r win.logStart i ≠ pathAt r win.logStart j

/-- A block of the ring whose content stops the walk: it cannot be read, it has no valid
magic, or one of its records is refused. -/
def Halts (pass : Bool) (pos : Nat) : Prop :=
  r.Mem pos ∧ pos ≠ r.checkpointBlock ∧
    ¬ ∃ b l, p.content pass pos = some b ∧ validMagic b = true ∧ scanBlock b = .ok l

end Lap

variable {win : Window}

/-- A block in the first lap that the walk does not get past. -/
theorem endsInOneLap_of_stop {k : Nat} (hMem : r.Mem win.logStart) (hk : k < r.journalBlocks)
    (hNot : ¬ Continues r p pass win.logEnd (pathAt r win.logStart k)) :
    EndsInOneLap r p win pass := by
  classical
  have hEx : ∃ j, ¬ Continues r p pass win.logEnd (pathAt r win.logStart j) := ⟨k, hNot⟩
  have hFirst : Nat.find hEx ≤ k := Nat.find_min' hEx hNot
  obtain ⟨out, hOut⟩ := walkJournal_halts { world := [], records := 0, blocks := 0, errors := 0 }
    (fun j hj => not_not.mp (Nat.find_min hEx hj)) (Nat.find_spec hEx)
  refine ⟨Nat.find hEx, out, hOut, ?_⟩
  intro i j hij hj
  exact pathAt_ne hMem hij (by omega)

/-- A start outside the ring ends the walk at once. -/
theorem endsInOneLap_of_not_mem (hMem : ¬ r.Mem win.logStart) : EndsInOneLap r p win pass := by
  have hNot : ¬ Continues r p pass win.logEnd (pathAt r win.logStart 0) := by
    rintro ⟨-, hCk | ⟨hIn, -⟩⟩
    · refine hMem ?_
      have hSize := r.hMin
      unfold minJournalBlocks at hSize
      change win.logStart = r.checkpointBlock at hCk
      unfold Ring.checkpointBlock at hCk
      unfold Ring.Mem Ring.journalEnd
      omega
    · exact hMem hIn
  obtain ⟨out, hOut⟩ := walkJournal_halts { world := [], records := 0, blocks := 0, errors := 0 }
    (fun j hj => absurd hj (Nat.not_lt_zero j)) hNot
  exact ⟨0, out, hOut, fun i j hij hj => absurd hij (by omega)⟩

/-- With the start in the ring, the end outside it and no block that stops it, the walk
never ends. -/
theorem walkPass_runs (hStart : r.Mem win.logStart) (hEnd : ¬ r.Mem win.logEnd)
    (hNone : ¬ ∃ pos, Halts r p pass pos) (fuel : Nat) :
    walkPass r p.ops win fuel pass [] = none := by
  refine walkJournal_runs _ ?_
  intro j _
  have hIn := mem_pathAt hStart j
  refine ⟨?_, ?_⟩
  · intro hEq
    rw [hEq] at hIn
    exact hEnd hIn
  · by_cases hCk : pathAt r win.logStart j = r.checkpointBlock
    · exact Or.inl hCk
    · refine Or.inr ⟨hIn, ?_⟩
      by_contra hBad
      exact hNone ⟨_, hIn, hCk, hBad⟩

theorem endsInOneLap_iff : EndsInOneLap r p win pass ↔
    r.Mem win.logEnd ∨ ¬ r.Mem win.logStart ∨ ∃ pos, Halts r p pass pos := by
  constructor
  · rintro ⟨m, out, hOut, -⟩
    by_contra hNot
    rw [not_or, not_or, not_not] at hNot
    obtain ⟨hEnd, hStart, hNone⟩ := hNot
    rw [walkPass_runs hStart hEnd hNone] at hOut
    cases hOut
  · intro h
    by_cases hStart : r.Mem win.logStart
    · rcases h with hEnd | hOut | ⟨pos, hMem, hCk, hBad⟩
      · obtain ⟨k, hk, hAt⟩ := exists_pathAt hStart hEnd
        refine endsInOneLap_of_stop hStart hk ?_
        rintro ⟨hNe, -⟩
        exact hNe hAt
      · exact absurd hStart hOut
      · obtain ⟨k, hk, hAt⟩ := exists_pathAt hStart hMem
        refine endsInOneLap_of_stop hStart hk ?_
        rw [hAt]
        rintro ⟨-, hEq | ⟨-, hGood⟩⟩
        · exact hCk hEq
        · exact hBad hGood
    · exact endsInOneLap_of_not_mem hStart

/-- Both passes of replay end in their first lap, exactly if `journal_log_end` is in the
ring, or `journal_log_start` is not, or in each pass some block stops the walk. -/
theorem walk_one_lap_iff (r : Ring) (p : Pattern) (win : Window) :
    (∀ pass, EndsInOneLap r p win pass) ↔
      r.Mem win.logEnd ∨ ¬ r.Mem win.logStart ∨ ∀ pass, ∃ pos, Halts r p pass pos := by
  constructor
  · intro h
    by_cases hEnd : r.Mem win.logEnd
    · exact Or.inl hEnd
    by_cases hStart : r.Mem win.logStart
    · refine Or.inr (Or.inr fun pass => ?_)
      rcases endsInOneLap_iff.mp (h pass) with hIn | hOut | hHalts
      · exact absurd hIn hEnd
      · exact absurd hStart hOut
      · exact hHalts
    · exact Or.inr (Or.inl hStart)
  · rintro (hEnd | hOut | hHalts) pass
    · exact endsInOneLap_iff.mpr (Or.inl hEnd)
    · exact endsInOneLap_iff.mpr (Or.inr (Or.inl hOut))
    · exact endsInOneLap_iff.mpr (Or.inr (Or.inr (hHalts pass)))

theorem minJournalBlocks_le_six : minJournalBlocks ≤ 6 := by
  decide

theorem six_le_maxJournalBlocks : 6 ≤ maxJournalBlocks := by
  decide

/-- A ring of six blocks behind two. -/
def lapRing : Ring where
  journalStart := 2
  journalBlocks := 6
  hMin := minJournalBlocks_le_six
  hMax := six_le_maxJournalBlocks

/-- A journal of empty blocks: the magic, and no records. -/
def emptyBlocks : Pattern where
  content _ _ := some fun i => if i = 0 then 0x5A else if i = 1 then 0x4C else if i = 2 then 0x4E
    else if i = 3 then 0x4A else 0
  applyRet _ _ _ _ := none
  liveSet := none
  reconcile := none
  dataSync := none
  inodeSync := none
  flush := none
  sbSync := none

/-- With `journal_log_end` behind the ring the first pass never ends. -/
theorem walk_runs_forever :
    (∀ fuel, walkPass lapRing emptyBlocks.ops { logStart := 2, logEnd := 9 } fuel true [] = none) ∧
      ¬ ∀ pass, EndsInOneLap lapRing emptyBlocks { logStart := 2, logEnd := 9 } pass := by
  have hRuns : ∀ fuel,
      walkPass lapRing emptyBlocks.ops { logStart := 2, logEnd := 9 } fuel true [] = none := by
    refine walkPass_runs (by decide) (by decide) ?_
    rintro ⟨pos, -, -, hBad⟩
    exact hBad ⟨_, [], rfl, by decide, rfl⟩
  refine ⟨hRuns, ?_⟩
  intro h
  obtain ⟨m, out, hOut, -⟩ := h true
  rw [hRuns] at hOut
  cases hOut

end Briefs.Replay
