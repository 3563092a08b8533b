import Briefs.Replay.Walk

/-!
# BrieFS — when replay discards records it did not apply

The window must only be cleared when everything in it was read, decoded and
applied without a real error. Here the calls of replay are a `Pattern`: an
arbitrary content of the journal blocks and an arbitrary choice of which call
fails and how. Each call is logged, so that `AllApplied` can speak about what
was really read and applied.

Replay clears the window in more cases than that. A block with an invalid
header magic ends the walk with return value 0, the record loop stops at the
end of the block whatever `record_count` says, markers are not applied, and the
errors of pass 2, of the allocator syncs and of the flush are noted but do not
stop the update of the superblock.

## Results

* `walkJournal_ok`, `walkJournal_reaches` — what a walk that returns 0 has
  called, and when a walk returns 0.
* `replay_clears_iff` — the inputs on which replay clears the window.
* `replay_clear_applied_iff` — clearing implies that everything was applied
  exactly when replay gives up early or nothing was swallowed.
-/

namespace Briefs.Replay

open Briefs.Journal

--
-- Patterns of contents and errors
--

/-- The content of the journal (`none` is a read error) and the results of all
calls that replay makes. The two passes may see different contents. -/
structure Pattern where
  content   : Bool → Nat → Option Block
  applyRet  : Bool → Nat → Nat → Record → Option Errno
  liveSet   : Option Errno
  reconcile : Option Errno
  dataSync  : Option Errno
  inodeSync : Option Errno
  flush     : Option Errno
  sbSync    : Option Errno

/-- A call with its result. -/
inductive Call where
  | bread (reserveOnly : Bool) (pos : Nat) (bh : Option Block)
  | apply (reserveOnly : Bool) (pos i : Nat) (rec : Record) (ret : Option Errno)
  | sync (ret : Option Errno)
  | flush (ret : Option Errno)

/-- A call that returned an error that does not mark a freed inode. Read errors
end the walk and are not counted here. -/
def Call.failed : Call → Bool
  | .bread _ _ _       => false
  | .apply _ _ _ _ ret => !skippable ret
  | .sync ret          => ret.isSome
  | .flush ret         => ret.isSome

/-- The calls of replay answered by a pattern, each one logged. -/
def Pattern.ops (p : Pattern) : ReplayOps (List Call) where
  bread pass pos log := (p.content pass pos, log ++ [.bread pass pos (p.content pass pos)])
  applyRecord pass pos i rec log :=
    (p.applyRet pass pos i rec, log ++ [.apply pass pos i rec (p.applyRet pass pos i rec)])
  buildLiveSet log := (p.liveSet, log)
  markExcluded log := log
  reconcile log := (p.reconcile, log)
  recompute log := log
  dataSync log := (p.dataSync, log ++ [.sync p.dataSync])
  inodeSync log := (p.inodeSync, log ++ [.sync p.inodeSync])
  flush log := (p.flush, log ++ [.flush p.flush])
  syncSuperblock _ log := (p.sbSync, log)

--
-- The property
--

/-- The `k`-th block on the way around the ring from `start`. -/
def pathAt (r : Ring) (start k : Nat) : Nat := r.nextBlock^[k] start

/-- The record blocks of `[journal_log_start, journal_log_end)` taken around the
ring. The checkpoint block is reserved for the marker and is no part of the
record stream. -/
def InWindow (r : Ring) (win : Window) (pos : Nat) : Prop :=
  pos ≠ r.checkpointBlock ∧
    ∃ k, pathAt r win.logStart k = pos ∧ ∀ j ≤ k, pathAt r win.logStart j ≠ win.logEnd

/-- Everything in the window was read with a valid magic, every record was
passed to `apply_record` in both passes, and no call failed. -/
structure AllApplied (r : Ring) (win : Window) (calls : List Call) : Prop where
  applied : ∀ pass pos, InWindow r win pos →
    ∃ b, Call.bread pass pos (some b) ∈ calls ∧ validMagic b = true ∧
      ∀ i < recordCount b, ∃ rec ret, Call.apply pass pos i rec ret ∈ calls
  clean : ∀ c ∈ calls, c.failed = false

--
-- Decoding a block without applying it
--

/-- The records of a block that reach `apply_record`, with their indices. -/
def scanRecords (b : Block) : Nat → Nat → Nat → Except Errno (List (Nat × Record))
  | 0, _, _ => .ok []
  | n + 1, i, recOff =>
    if recOff < journalBlockSize then
      match decodeRecord b recOff with
      | .error e => .error e
      | .ok rec =>
        match scanRecords b n (i + 1) (recOff + recordHeaderSize + le32 b (recOff + 8)) with
        | .error e => .error e
        | .ok l => .ok (if rec.recType = jrnCheckpoint then l else (i, rec) :: l)
    else .ok []

/-- `scanRecords` over the whole block. -/
def scanBlock (b : Block) : Except Errno (List (Nat × Record)) :=
  scanRecords b (recordCount b) 0 blockHeaderSize

/-- The `apply_record` calls for a list of decoded records. -/
def applyCalls (p : Pattern) (pass : Bool) (pos : Nat) (l : List (Nat × Record)) : List Call :=
  l.map fun x => .apply pass pos x.1 x.2 (p.applyRet pass pos x.1 x.2)

/-- The record loop is a scan followed by the calls; the results of the calls
only feed the error count. -/
theorem walkRecords_eq_scan (p : Pattern) (pass : Bool) (pos : Nat) (b : Block) :
    ∀ (n i recOff : Nat) (st : WalkState (List Call)),
      match scanRecords b n i recOff with
      | .error _ => ∃ e, walkRecords p.ops pass pos b n i recOff st = .error e
      | .ok l => ∃ st', walkRecords p.ops pass pos b n i recOff st = .ok st' ∧
          st'.world = st.world ++ applyCalls p pass pos l ∧
          (st'.errors = 0 ↔ st.errors = 0 ∧ ∀ c ∈ applyCalls p pass pos l, c.failed = false) := by
  intro n
  induction n with
  | zero =>
    intro i recOff st
    exact ⟨st, rfl, by simp [applyCalls], by simp [applyCalls]⟩
  | succ n ih =>
    intro i recOff st
    unfold scanRecords walkRecords
    by_cases hOff : recOff < journalBlockSize
    · simp only [hOff, if_true]
      cases hDec : decodeRecord b recOff with
      | error e => exact ⟨_, rfl⟩
      | ok rec =>
        by_cases hType : rec.recType = jrnCheckpoint
        · simp only [hType, if_true]
          have hNext := ih (i + 1) (recOff + recordHeaderSize + le32 b (recOff + 8)) st
          cases hScan : scanRecords b n (i + 1)
              (recOff + recordHeaderSize + le32 b (recOff + 8)) with
          | error e => simpa [hScan] using hNext
          | ok l => simpa [hScan] using hNext
        · simp only [hType, if_false]
          have hNext := ih (i + 1) (recOff + recordHeaderSize + le32 b (recOff + 8))
            { world := st.world ++ [.apply pass pos i rec (p.applyRet pass pos i rec)],
              records := st.records + 1, blocks := st.blocks,
              errors := if skippable (p.applyRet pass pos i rec) then st.errors
                else st.errors + 1 }
          cases hScan : scanRecords b n (i + 1)
              (recOff + recordHeaderSize + le32 b (recOff + 8)) with
          | error e =>
            rw [hScan] at hNext
            exact hNext
          | ok l =>
            rw [hScan] at hNext
            obtain ⟨st', hWalk, hWorld, hErr⟩ := hNext
            refine ⟨st', hWalk, ?_, ?_⟩
            · rw [hWorld]
              simp [applyCalls]
            · rw [hErr]
              by_cases hSkip : skippable (p.applyRet pass pos i rec) = true
              · simp [applyCalls, Call.failed, hSkip]
              · simp [applyCalls, Call.failed, hSkip]
    · simp only [hOff, if_false]
      exact ⟨st, rfl, by simp [applyCalls], by simp [applyCalls]⟩

--
-- The walk over the ring
--

section Walk

variable (r : Ring) (p : Pattern) (pass : Bool) (stop : Nat)

/-- The walk gets past the block at `pos`: it is the checkpoint block, or it is
readable, has a valid magic and its records decode. -/
def Continues (pos : Nat) : Prop :=
  pos ≠ stop ∧ (pos = r.checkpointBlock ∨
    (r.Mem pos ∧ ∃ b l, p.content pass pos = some b ∧ validMagic b = true ∧ scanBlock b = .ok l))

/-- The walk breaks off at `pos` because of the header magic. -/
def BadMagic (pos : Nat) : Prop :=
  pos ≠ stop ∧ pos ≠ r.checkpointBlock ∧ r.Mem pos ∧
    ∃ b, p.content pass pos = some b ∧ validMagic b = false

/-- From `start` the walk returns 0 after `m` steps: it gets past `m` blocks and
is then at `journal_log_end` or at a block with an invalid magic. -/
def Stops (start m : Nat) : Prop :=
  (∀ j < m, Continues r p pass stop (pathAt r start j)) ∧
    (pathAt r start m = stop ∨ BadMagic r p pass stop (pathAt r start m))

/-- The calls that the walk makes at `pos`. -/
def blockCalls (pos : Nat) : List Call :=
  if pos = r.checkpointBlock then []
  else
    .bread pass pos (p.content pass pos) ::
      match p.content pass pos with
      | none => []
      | some b =>
        if validMagic b then
          match scanBlock b with
          | .error _ => []
          | .ok l => applyCalls p pass pos l
        else []

end Walk

variable {r : Ring} {p : Pattern} {pass : Bool} {stop : Nat}

theorem pathAt_zero (start : Nat) : pathAt r start 0 = start := rfl

theorem stops_zero_of_stop {start : Nat} (h : start = stop) : Stops r p pass stop start 0 :=
  ⟨fun j hj => absurd hj (Nat.not_lt_zero j), .inl h⟩

theorem stops_succ_iff {start m : Nat} :
    Stops r p pass stop start (m + 1) ↔
      Continues r p pass stop start ∧ Stops r p pass stop (r.nextBlock start) m := by
  constructor
  · rintro ⟨hCont, hEnd⟩
    refine ⟨hCont 0 (by omega), ?_, hEnd⟩
    intro j hj
    exact hCont (j + 1) (by omega)
  · rintro ⟨hHead, hCont, hEnd⟩
    refine ⟨?_, hEnd⟩
    intro j hj
    cases j with
    | zero => exact hHead
    | succ j => exact hCont j (by omega)

/-- The blocks before the stop are those the walk gets past. -/
theorem lt_of_stops {start m k : Nat} (h : Stops r p pass stop start m)
    (hk : ∀ j ≤ k, Continues r p pass stop (pathAt r start j)) : k < m := by
  by_contra hge
  have hm := hk m (by omega)
  rcases h.2 with hEnd | ⟨_, hNe, _, b, hb, hMagic⟩
  · exact hm.1 hEnd
  · rcases hm.2 with hCk | ⟨_, b', _, hb', hMagic', _⟩
    · exact hNe hCk
    · rw [hb] at hb'
      cases hb'
      rw [hMagic] at hMagic'
      cases hMagic'

/-- One block of the walk, when the walk gets past it. -/
theorem walkJournal_continue {cur : Nat} (hCont : Continues r p pass stop cur)
    (st : WalkState (List Call)) :
    ∃ st', (∀ fuel, walkJournal r p.ops pass stop (fuel + 1) cur st =
        walkJournal r p.ops pass stop fuel (r.nextBlock cur) st') ∧
      st'.world = st.world ++ blockCalls r p pass cur ∧
      (st'.errors = 0 ↔ st.errors = 0 ∧ ∀ c ∈ blockCalls r p pass cur, c.failed = false) := by
  obtain ⟨hStop, hCk | ⟨hMem, b, l, hb, hMagic, hScan⟩⟩ := hCont
  · refine ⟨st, ?_, by simp [blockCalls, hCk], by simp [blockCalls, hCk]⟩
    intro fuel
    rw [walkJournal, if_neg hStop, if_pos hCk]
  · by_cases hCk : cur = r.checkpointBlock
    · refine ⟨st, ?_, by simp [blockCalls, hCk], by simp [blockCalls, hCk]⟩
      intro fuel
      rw [walkJournal, if_neg hStop, if_pos hCk]
    · have hRec := walkRecords_eq_scan p pass cur b (recordCount b) 0 blockHeaderSize
        { st with world := st.world ++ [.bread pass cur (p.content pass cur)],
                  blocks := st.blocks + 1 }
      have hScan' : scanRecords b (recordCount b) 0 blockHeaderSize = .ok l := hScan
      rw [hScan'] at hRec
      obtain ⟨st', hWalk, hWorld, hErr⟩ := hRec
      refine ⟨st', ?_, ?_, ?_⟩
      · intro fuel
        rw [walkJournal, if_neg hStop, if_neg hCk, if_neg (not_not.mpr hMem)]
        simp only [Pattern.ops, hb, hMagic, if_true] at hWalk ⊢
        rw [hWalk]
      · rw [hWorld]
        simp [blockCalls, hCk, hb, hMagic, hScan]
      · rw [hErr]
        simp [blockCalls, hCk, hb, hMagic, hScan, Call.failed]

/-- A walk that stops has enough fuel to return. -/
theorem walkJournal_reaches {m : Nat} : ∀ {start : Nat} (fuel : Nat) (st : WalkState (List Call)),
    Stops r p pass stop start m → m < fuel →
    ∃ st', walkJournal r p.ops pass stop fuel start st = some (.ok st') := by
  induction m with
  | zero =>
    intro start fuel st hStops hFuel
    obtain ⟨fuel, rfl⟩ : ∃ f, fuel = f + 1 := ⟨fuel - 1, by omega⟩
    rcases hStops.2 with hEnd | ⟨hNe, hCk, hMem, b, hb, hMagic⟩
    · exact ⟨st, by rw [walkJournal, if_pos (show start = stop from hEnd)]⟩
    · change start ≠ stop at hNe
      change start ≠ r.checkpointBlock at hCk
      change r.Mem start at hMem
      change p.content pass start = some b at hb
      refine ⟨{ st with world := st.world ++ [.bread pass start (some b)],
                        blocks := st.blocks + 1 }, ?_⟩
      rw [walkJournal, if_neg hNe, if_neg hCk, if_neg (not_not.mpr hMem)]
      simp [Pattern.ops, hb, hMagic]
  | succ m ih =>
    intro start fuel st hStops hFuel
    obtain ⟨fuel, rfl⟩ : ∃ f, fuel = f + 1 := ⟨fuel - 1, by omega⟩
    obtain ⟨hCont, hRest⟩ := stops_succ_iff.mp hStops
    obtain ⟨st', hEq, -, -⟩ := walkJournal_continue hCont st
    rw [hEq fuel]
    exact ih fuel st' hRest (by omega)

/-- What a walk that returns 0 has done: it stopped after some `m` blocks, made
the calls of those blocks (and the read of the block it broke off at), and its
error count is 0 when none of these calls failed. -/
theorem walkJournal_ok : ∀ {fuel start : Nat} {st st' : WalkState (List Call)},
    walkJournal r p.ops pass stop fuel start st = some (.ok st') →
    ∃ m, Stops r p pass stop start m ∧
      (∀ c, c ∈ st'.world ↔ c ∈ st.world ∨
        ∃ j ≤ m, pathAt r start j ≠ stop ∧ c ∈ blockCalls r p pass (pathAt r start j)) ∧
      (st'.errors = 0 ↔ st.errors = 0 ∧
        ∀ j < m, ∀ c ∈ blockCalls r p pass (pathAt r start j), c.failed = false) := by
  intro fuel
  induction fuel with
  | zero =>
    intro start st st' h
    cases h
  | succ fuel ih =>
    intro start st st' h
    by_cases hCont : Continues r p pass stop start
    · obtain ⟨st1, hEq, hWorld, hErr⟩ := walkJournal_continue hCont st
      rw [hEq fuel] at h
      obtain ⟨m, hStops, hCalls, hErrs⟩ := ih h
      refine ⟨m + 1, stops_succ_iff.mpr ⟨hCont, hStops⟩, ?_, ?_⟩
      · intro c
        rw [hCalls c, hWorld, List.mem_append, or_assoc]
        refine or_congr Iff.rfl ?_
        constructor
        · rintro (hc | ⟨j, hj, hNe, hc⟩)
          · exact ⟨0, by omega, hCont.1, hc⟩
          · exact ⟨j + 1, by omega, hNe, hc⟩
        · rintro ⟨j, hj, hNe, hc⟩
          cases j with
          | zero => exact .inl hc
          | succ j => exact .inr ⟨j, by omega, hNe, hc⟩
      · rw [hErrs, hErr, and_assoc]
        refine and_congr Iff.rfl ?_
        constructor
        · rintro ⟨hHead, hTail⟩ j hj
          cases j with
          | zero => exact hHead
          | succ j => exact hTail j (by omega)
        · intro hAll
          exact ⟨hAll 0 (by omega), fun j hj => hAll (j + 1) (by omega)⟩
    · by_cases hStop : start = stop
      · rw [walkJournal, if_pos hStop] at h
        cases h
        refine ⟨0, stops_zero_of_stop hStop, ?_, by simp⟩
        intro c
        constructor
        · exact .inl
        · rintro (hc | ⟨j, hj, hNe, -⟩)
          · exact hc
          · obtain rfl : j = 0 := by omega
            exact absurd hStop hNe
      · by_cases hCk : start = r.checkpointBlock
        · exact absurd ⟨hStop, .inl hCk⟩ hCont
        · by_cases hMem : r.Mem start
          · rw [walkJournal, if_neg hStop, if_neg hCk, if_neg (not_not.mpr hMem)] at h
            cases hb : p.content pass start with
            | none => simp [Pattern.ops, hb] at h
            | some b =>
              cases hMagic : validMagic b with
              | true =>
                have hRec := walkRecords_eq_scan p pass start b (recordCount b) 0 blockHeaderSize
                  { st with world := st.world ++ [.bread pass start (some b)],
                            blocks := st.blocks + 1 }
                cases hScan : scanRecords b (recordCount b) 0 blockHeaderSize with
                | error e =>
                  rw [hScan] at hRec
                  obtain ⟨e', he⟩ := hRec
                  simp only [Pattern.ops, hb, hMagic, if_true] at h he
                  rw [he] at h
                  cases h
                | ok l => exact absurd ⟨hStop, .inr ⟨hMem, b, l, hb, hMagic, hScan⟩⟩ hCont
              | false =>
                simp only [Pattern.ops, hb, hMagic, Bool.false_eq_true, if_false,
                  Option.some.injEq, Except.ok.injEq] at h
                subst h
                refine ⟨0, ⟨fun j hj => absurd hj (Nat.not_lt_zero j),
                  .inr ⟨hStop, hCk, hMem, b, hb, hMagic⟩⟩, ?_, by simp⟩
                intro c
                have hBlock : blockCalls r p pass start = [.bread pass start (some b)] := by
                  simp [blockCalls, hCk, hb, hMagic]
                rw [List.mem_append]
                constructor
                · rintro (hc | hc)
                  · exact .inl hc
                  · exact .inr ⟨0, Nat.le_refl 0, hStop, by rw [pathAt_zero, hBlock]; exact hc⟩
                · rintro (hc | ⟨j, hj, -, hc⟩)
                  · exact .inl hc
                  · obtain rfl : j = 0 := by omega
                    rw [pathAt_zero, hBlock] at hc
                    exact .inr hc
          · rw [walkJournal, if_neg hStop, if_neg hCk, if_pos hMem] at h
            cases h

--
-- Inputs on which replay gives up, and inputs that hide nothing
--

section Conditions

variable (r : Ring) (p : Pattern) (win : Window)

/-- A block that makes the walk return an error: outside the ring, unreadable,
or with a record of invalid type, length or checksum. -/
def Unusable (pass : Bool) (stop pos : Nat) : Prop :=
  pos ≠ stop ∧ pos ≠ r.checkpointBlock ∧
    (¬ r.Mem pos ∨ p.content pass pos = none ∨
      ∃ b e, p.content pass pos = some b ∧ validMagic b = true ∧ scanBlock b = .error e)

/-- The walk of a pass meets an unusable block before anything stops it, or it
goes around the ring for ever because `journal_log_end` is not on the way. -/
def PassFails (pass : Bool) : Prop :=
  (∃ m, (∀ j < m, Continues r p pass win.logEnd (pathAt r win.logStart j)) ∧
    Unusable r p pass win.logEnd (pathAt r win.logStart m)) ∨
  ∀ j, Continues r p pass win.logEnd (pathAt r win.logStart j)

/-- A record that pass 1 reaches fails with a real error. -/
def ReserveFails : Prop :=
  ∃ k, (∀ j ≤ k, Continues r p true win.logEnd (pathAt r win.logStart j)) ∧
    ∃ c ∈ blockCalls r p true (pathAt r win.logStart k), c.failed = true

/-- Replay returns before it clears the window. -/
def GivesUp : Prop :=
  PassFails r p win true ∨ ReserveFails r p win ∨ p.liveSet ≠ none ∨
    PassFails r p win false ∨ p.reconcile ≠ none ∨ p.sbSync ≠ none

/-- Nothing in the window is skipped or fails without stopping replay: the
record blocks are readable in both passes, have a valid magic and yield all
their `record_count` records, no record fails in pass 2, and neither the
allocator syncs nor the flush fail. -/
structure NothingSwallowed : Prop where
  blocks : ∀ pass pos, InWindow r win pos →
    ∃ b l, p.content pass pos = some b ∧ validMagic b = true ∧ scanBlock b = .ok l ∧
      ∀ i < recordCount b, ∃ rec, (i, rec) ∈ l
  records : ∀ pos b l, InWindow r win pos → p.content false pos = some b →
    scanBlock b = .ok l → ∀ x ∈ l, skippable (p.applyRet false pos x.1 x.2) = true
  dataSync  : p.dataSync = none
  inodeSync : p.inodeSync = none
  flush     : p.flush = none

/-- Replay clears the window on disk only if everything in it was applied. -/
def ClearsOnlyApplied : Prop :=
  ∀ fuel res, replay r p.ops win fuel [] = some res → win.logStart ≠ win.logEnd →
    res.disk.logStart = res.disk.logEnd → AllApplied r win res.world

end Conditions

variable {win : Window}

/-- A block is got past, ends the walk with 0, or ends it with an error. -/
theorem continues_or_stops_or_unusable (pos : Nat) :
    Continues r p pass stop pos ∨ (pos = stop ∨ BadMagic r p pass stop pos) ∨
      Unusable r p pass stop pos := by
  by_cases hStop : pos = stop
  · exact .inr (.inl (.inl hStop))
  by_cases hCk : pos = r.checkpointBlock
  · exact .inl ⟨hStop, .inl hCk⟩
  by_cases hMem : r.Mem pos
  · cases hb : p.content pass pos with
    | none => exact .inr (.inr ⟨hStop, hCk, .inr (.inl hb)⟩)
    | some b =>
      cases hMagic : validMagic b with
      | false => exact .inr (.inl (.inr ⟨hStop, hCk, hMem, b, hb, hMagic⟩))
      | true =>
        cases hScan : scanBlock b with
        | error e => exact .inr (.inr ⟨hStop, hCk, .inr (.inr ⟨b, e, hb, hMagic, hScan⟩)⟩)
        | ok l => exact .inl ⟨hStop, .inr ⟨hMem, b, l, hb, hMagic, hScan⟩⟩
  · exact .inr (.inr ⟨hStop, hCk, .inl hMem⟩)

theorem not_stop_of_unusable {pos : Nat} (h : Unusable r p pass stop pos) :
    ¬ (pos = stop ∨ BadMagic r p pass stop pos) := by
  obtain ⟨hStop, hCk, hBad⟩ := h
  rintro (hEq | ⟨-, -, hMem, b, hb, hMagic⟩)
  · exact hStop hEq
  · rcases hBad with hMem' | hNone | ⟨b', e, hb', hMagic', -⟩
    · exact hMem' hMem
    · rw [hb] at hNone
      cases hNone
    · rw [hb] at hb'
      cases hb'
      rw [hMagic] at hMagic'
      cases hMagic'

theorem not_continues_of_unusable {pos : Nat} (h : Unusable r p pass stop pos) :
    ¬ Continues r p pass stop pos := by
  obtain ⟨-, hCk, hBad⟩ := h
  rintro ⟨-, hEq | ⟨hMem, b, l, hb, hMagic, hScan⟩⟩
  · exact hCk hEq
  · rcases hBad with hMem' | hNone | ⟨b', e, hb', -, hScan'⟩
    · exact hMem' hMem
    · rw [hb] at hNone
      cases hNone
    · rw [hb] at hb'
      cases hb'
      rw [hScan] at hScan'
      cases hScan'

/-- A pass fails exactly when its walk never returns 0. -/
theorem passFails_iff : PassFails r p win pass ↔
    ¬ ∃ m, Stops r p pass win.logEnd win.logStart m := by
  constructor
  · rintro (⟨m, hCont, hBad⟩ | hAll) ⟨m', hStops⟩
    · rcases Nat.lt_trichotomy m m' with hlt | rfl | hgt
      · exact not_continues_of_unusable hBad (hStops.1 m hlt)
      · exact not_stop_of_unusable hBad hStops.2
      · exact Nat.lt_irrefl m' (lt_of_stops hStops fun j hj => hCont j (by omega))
    · exact Nat.lt_irrefl m' (lt_of_stops hStops fun j _ => hAll j)
  · intro hNone
    by_contra hNot
    have hEx : ∃ j, ¬ Continues r p pass win.logEnd (pathAt r win.logStart j) := by
      by_contra hAll
      exact hNot (.inr fun j => by_contra fun hj => hAll ⟨j, hj⟩)
    classical
    -- the first block that the walk does not get past
    have hFirst := Nat.find_spec hEx
    have hBefore : ∀ j < Nat.find hEx,
        Continues r p pass win.logEnd (pathAt r win.logStart j) :=
      fun j hj => not_not.mp (Nat.find_min hEx hj)
    have hKinds : Continues r p pass win.logEnd (pathAt r win.logStart (Nat.find hEx)) ∨ _ :=
      continues_or_stops_or_unusable _
    rcases hKinds with hC | hS | hU
    · exact hFirst hC
    · exact hNone ⟨_, hBefore, hS⟩
    · exact hNot (.inl ⟨_, hBefore, hU⟩)

--
-- Replay
--

/-- The calls after pass 2. -/
def finishCalls (p : Pattern) : List Call :=
  [.sync p.dataSync, .sync p.inodeSync, .flush p.flush]

theorem replayFinish_disk (st : WalkState (List Call)) (hWin : win.logStart ≠ win.logEnd) :
    (replayFinish p.ops win st).disk.logStart = (replayFinish p.ops win st).disk.logEnd ↔
      p.reconcile = none ∧ p.sbSync = none := by
  unfold replayFinish
  cases hRec : p.reconcile with
  | some e => simp [Pattern.ops, hRec, hWin]
  | none =>
    cases hSb : p.sbSync with
    | some e => simp [Pattern.ops, hRec, hSb, hWin]
    | none => simp [Pattern.ops, hRec, hSb]

theorem replayFinish_world (st : WalkState (List Call)) (hRec : p.reconcile = none) :
    (replayFinish p.ops win st).world = st.world ++ finishCalls p := by
  unfold replayFinish
  cases hSb : p.sbSync <;> simp [Pattern.ops, hRec, hSb, finishCalls]

/-- The two walks of a replay that clears the window. -/
structure Cleared (r : Ring) (p : Pattern) (win : Window) (fuel : Nat)
    (st1 st2 : WalkState (List Call)) : Prop where
  pass1     : walkPass r p.ops win fuel true [] = some (.ok st1)
  noErrors  : st1.errors = 0
  liveSet   : p.liveSet = none
  pass2     : walkPass r p.ops win fuel false st1.world = some (.ok st2)
  reconcile : p.reconcile = none
  sbSync    : p.sbSync = none

theorem cleared_of_replay {fuel : Nat} {res : ReplayResult (List Call)}
    (h : replay r p.ops win fuel [] = some res) (hWin : win.logStart ≠ win.logEnd)
    (hDisk : res.disk.logStart = res.disk.logEnd) :
    ∃ st1 st2, Cleared r p win fuel st1 st2 ∧ res.world = st2.world ++ finishCalls p := by
  unfold replay at h
  rw [if_neg hWin] at h
  split at h
  · cases h
  · cases h
    exact absurd hDisk hWin
  · rename_i st1 hPass1
    by_cases hErr : st1.errors = 0
    · rw [if_neg (not_not.mpr hErr)] at h
      cases hLive : p.liveSet with
      | some e =>
        simp only [Pattern.ops, hLive, Option.some.injEq] at h
        subst h
        exact absurd hDisk hWin
      | none =>
        have hEq : p.ops.buildLiveSet st1.world = (none, st1.world) := by
          simp [Pattern.ops, hLive]
        simp only [hEq, replayApply] at h
        split at h
        · cases h
        · cases h
          exact absurd hDisk hWin
        · rename_i st2 hPass2
          cases h
          obtain ⟨hRec, hSb⟩ := (replayFinish_disk st2 hWin).mp hDisk
          exact ⟨st1, st2, ⟨hPass1, hErr, hLive, hPass2, hRec, hSb⟩, replayFinish_world st2 hRec⟩
    · rw [if_pos hErr] at h
      cases h
      exact absurd hDisk hWin

theorem replay_of_cleared {fuel : Nat} {st1 st2 : WalkState (List Call)}
    (hWin : win.logStart ≠ win.logEnd) (h : Cleared r p win fuel st1 st2) :
    replay r p.ops win fuel [] = some (replayFinish p.ops win st2) := by
  have hEq : p.ops.buildLiveSet st1.world = (none, st1.world) := by
    simp [Pattern.ops, h.liveSet]
  have hMark : p.ops.markExcluded st1.world = st1.world := rfl
  unfold replay
  rw [if_neg hWin, h.pass1]
  simp only [h.noErrors, ne_eq, not_true_eq_false, if_false, hEq, replayApply, hMark, h.pass2]

/-- With enough fuel replay clears the window unless it gives up. -/
theorem cleared_of_not_givesUp (hGive : ¬ GivesUp r p win) :
    ∃ fuel st1 st2, Cleared r p win fuel st1 st2 := by
  unfold GivesUp at hGive
  push Not at hGive
  obtain ⟨hFail1, hRes, hLive, hFail2, hRec, hSb⟩ := hGive
  rw [passFails_iff, not_not] at hFail1 hFail2
  obtain ⟨m1, hStops1⟩ := hFail1
  obtain ⟨m2, hStops2⟩ := hFail2
  obtain ⟨st1, hPass1⟩ := walkJournal_reaches (max m1 m2 + 1)
    { world := [], records := 0, blocks := 0, errors := 0 } hStops1 (by omega)
  obtain ⟨st2, hPass2⟩ := walkJournal_reaches (max m1 m2 + 1)
    { world := st1.world, records := 0, blocks := 0, errors := 0 } hStops2 (by omega)
  obtain ⟨m, hStops, -, hErr⟩ := walkJournal_ok hPass1
  refine ⟨_, st1, st2, hPass1, hErr.mpr ⟨rfl, ?_⟩, hLive, hPass2, hRec, hSb⟩
  intro j hj c hc
  by_contra hBad
  exact hRes ⟨j, fun i hi => hStops.1 i (by omega), c, hc, by simpa using hBad⟩

theorem not_givesUp_of_cleared {fuel : Nat} {st1 st2 : WalkState (List Call)}
    (h : Cleared r p win fuel st1 st2) : ¬ GivesUp r p win := by
  obtain ⟨m1, hStops1, -, hErr⟩ := walkJournal_ok h.pass1
  obtain ⟨m2, hStops2, -, -⟩ := walkJournal_ok h.pass2
  rintro (hF | ⟨k, hCont, c, hc, hBad⟩ | hLive | hF | hRec | hSb)
  · exact passFails_iff.mp hF ⟨m1, hStops1⟩
  · have hk := lt_of_stops hStops1 hCont
    rw [(hErr.mp h.noErrors).2 k hk c hc] at hBad
    cases hBad
  · exact hLive h.liveSet
  · exact passFails_iff.mp hF ⟨m2, hStops2⟩
  · exact hRec h.reconcile
  · exact hSb h.sbSync

/-- Replay clears a nonempty window exactly on the inputs it does not give up on. -/
theorem replay_clears_iff (hWin : win.logStart ≠ win.logEnd) :
    (∃ fuel res, replay r p.ops win fuel [] = some res ∧ res.disk.logStart = res.disk.logEnd) ↔
      ¬ GivesUp r p win := by
  constructor
  · rintro ⟨fuel, res, hRun, hDisk⟩
    obtain ⟨st1, st2, hCl, -⟩ := cleared_of_replay hRun hWin hDisk
    exact not_givesUp_of_cleared hCl
  · intro hGive
    obtain ⟨fuel, st1, st2, hCl⟩ := cleared_of_not_givesUp hGive
    exact ⟨fuel, _, replay_of_cleared hWin hCl,
      (replayFinish_disk st2 hWin).mpr ⟨hCl.reconcile, hCl.sbSync⟩⟩

/-- The calls of a replay that clears the window: those of the blocks up to
where each walk stopped, and the three at the end. -/
theorem mem_calls_iff {fuel : Nat} {st1 st2 : WalkState (List Call)}
    (h : Cleared r p win fuel st1 st2) :
    ∃ m : Bool → Nat, (∀ pass, Stops r p pass win.logEnd win.logStart (m pass)) ∧
      (∀ j < m true, ∀ c ∈ blockCalls r p true (pathAt r win.logStart j), c.failed = false) ∧
      ∀ c, c ∈ st2.world ++ finishCalls p ↔
        (∃ pass j, j ≤ m pass ∧ pathAt r win.logStart j ≠ win.logEnd ∧
          c ∈ blockCalls r p pass (pathAt r win.logStart j)) ∨ c ∈ finishCalls p := by
  obtain ⟨m1, hStops1, hCalls1, hErr1⟩ := walkJournal_ok h.pass1
  obtain ⟨m2, hStops2, hCalls2, -⟩ := walkJournal_ok h.pass2
  refine ⟨fun pass => if pass then m1 else m2, ?_, (hErr1.mp h.noErrors).2, ?_⟩
  · intro pass
    cases pass with
    | true => exact hStops1
    | false => exact hStops2
  · intro c
    rw [List.mem_append, hCalls2 c, hCalls1 c]
    refine or_congr ?_ Iff.rfl
    constructor
    · rintro ((hc | ⟨j, hj, hNe, hc⟩) | ⟨j, hj, hNe, hc⟩)
      · cases hc
      · exact ⟨true, j, hj, hNe, hc⟩
      · exact ⟨false, j, hj, hNe, hc⟩
    · rintro ⟨pass, j, hj, hNe, hc⟩
      cases pass with
      | true => exact .inl (.inr ⟨j, hj, hNe, hc⟩)
      | false => exact .inr ⟨j, hj, hNe, hc⟩

theorem blockCalls_bread {pos pos' : Nat} {pass' : Bool} {bh : Option Block}
    (h : Call.bread pass pos bh ∈ blockCalls r p pass' pos') :
    pass = pass' ∧ pos = pos' ∧ bh = p.content pass pos := by
  unfold blockCalls at h
  split at h
  · cases h
  · rcases List.mem_cons.mp h with hEq | hTail
    · cases hEq
      exact ⟨rfl, rfl, rfl⟩
    · split at hTail
      · cases hTail
      · split at hTail
        · split at hTail
          · cases hTail
          · simp [applyCalls] at hTail
        · cases hTail

theorem blockCalls_apply {pos pos' i : Nat} {pass' : Bool} {rec : Record} {ret : Option Errno}
    (h : Call.apply pass pos i rec ret ∈ blockCalls r p pass' pos') :
    pass = pass' ∧ pos = pos' ∧ pos ≠ r.checkpointBlock ∧ ret = p.applyRet pass pos i rec ∧
      ∃ b l, p.content pass pos = some b ∧ validMagic b = true ∧ scanBlock b = .ok l ∧
        (i, rec) ∈ l := by
  unfold blockCalls at h
  split at h
  · cases h
  · rename_i hCk
    rcases List.mem_cons.mp h with hEq | hTail
    · cases hEq
    · split at hTail
      · cases hTail
      · rename_i b hb
        split at hTail
        · rename_i hMagic
          split at hTail
          · cases hTail
          · rename_i l hScan
            obtain ⟨⟨i', rec'⟩, hMem, hEq⟩ := List.mem_map.mp hTail
            cases hEq
            exact ⟨rfl, rfl, hCk, rfl, b, l, hb, hMagic, hScan, hMem⟩
        · cases hTail

theorem sync_not_mem_blockCalls {pos : Nat} {ret : Option Errno} :
    Call.sync ret ∉ blockCalls r p pass pos := by
  unfold blockCalls applyCalls
  split
  · simp
  · split <;> (try split) <;> (try split) <;> simp

theorem flush_not_mem_blockCalls {pos : Nat} {ret : Option Errno} :
    Call.flush ret ∉ blockCalls r p pass pos := by
  unfold blockCalls applyCalls
  split
  · simp
  · split <;> (try split) <;> (try split) <;> simp

theorem blockCalls_of_scan {pos : Nat} {b : Block} {l : List (Nat × Record)}
    (hCk : pos ≠ r.checkpointBlock) (hb : p.content pass pos = some b)
    (hMagic : validMagic b = true) (hScan : scanBlock b = .ok l) :
    blockCalls r p pass pos = .bread pass pos (some b) :: applyCalls p pass pos l := by
  simp [blockCalls, hCk, hb, hMagic, hScan]

/-- A window block is reached before the walk stops, unless the walk breaks off
at a block with an invalid magic. -/
theorem le_stop_of_inWindow {m k : Nat} (h : Stops r p pass win.logEnd win.logStart m)
    (hk : ∀ j ≤ k, pathAt r win.logStart j ≠ win.logEnd) :
    k < m ∨ BadMagic r p pass win.logEnd (pathAt r win.logStart m) ∧ m ≤ k := by
  by_cases hlt : k < m
  · exact .inl hlt
  · rcases h.2 with hEnd | hBad
    · exact absurd hEnd (hk m (by omega))
    · exact .inr ⟨hBad, by omega⟩

/-- Records are applied only at blocks before the stop. -/
theorem lt_stop_of_apply {m j pos i : Nat} {pass' : Bool} {rec : Record} {ret : Option Errno}
    (h : Stops r p pass win.logEnd win.logStart m) (hj : j ≤ m)
    (hNe : pathAt r win.logStart j ≠ win.logEnd)
    (hc : Call.apply pass' pos i rec ret ∈ blockCalls r p pass (pathAt r win.logStart j)) :
    j < m := by
  obtain ⟨rfl, rfl, -, -, b, l, hb, hMagic, -⟩ := blockCalls_apply hc
  by_contra hge
  obtain rfl : j = m := by omega
  rcases h.2 with hEnd | ⟨-, -, -, b', hb', hMagic'⟩
  · exact hNe hEnd
  · rw [hb] at hb'
    cases hb'
    rw [hMagic] at hMagic'
    cases hMagic'

/-- Up to the stop, the path only goes through the window. -/
theorem ne_logEnd_of_le {m j : Nat} (h : Stops r p pass win.logEnd win.logStart m) (hj : j < m) :
    ∀ i ≤ j, pathAt r win.logStart i ≠ win.logEnd :=
  fun i hi => (h.1 i (by omega)).1

/-- The window is only ever cleared after everything was applied, provided
nothing was swallowed. -/
theorem allApplied_of_nothingSwallowed {fuel : Nat} {st1 st2 : WalkState (List Call)}
    (hCl : Cleared r p win fuel st1 st2) (h : NothingSwallowed r p win) :
    AllApplied r win (st2.world ++ finishCalls p) := by
  obtain ⟨m, hStops, hErr, hMem⟩ := mem_calls_iff hCl
  constructor
  · rintro pass pos ⟨hCk, k, rfl, hIn⟩
    obtain ⟨b, l, hb, hMagic, hScan, hAll⟩ := h.blocks pass _ ⟨hCk, k, rfl, hIn⟩
    have hk : k ≤ m pass := by
      rcases le_stop_of_inWindow (hStops pass) hIn with hlt | ⟨⟨hNe, hNeCk, -, b', hb', hMg⟩, hle⟩
      · exact Nat.le_of_lt hlt
      · obtain ⟨b2, -, hb2, hMg2, -⟩ := h.blocks pass (pathAt r win.logStart (m pass))
          ⟨hNeCk, m pass, rfl, fun j hj => hIn j (by omega)⟩
        rw [hb'] at hb2
        cases hb2
        rw [hMg] at hMg2
        cases hMg2
    have hCalls := blockCalls_of_scan hCk hb hMagic hScan
    refine ⟨b, (hMem _).mpr (.inl ⟨pass, k, hk, hIn k (Nat.le_refl k), ?_⟩), hMagic, ?_⟩
    · rw [hCalls]
      exact List.mem_cons_self
    · intro i hi
      obtain ⟨rec, hRec⟩ := hAll i hi
      refine ⟨rec, p.applyRet pass (pathAt r win.logStart k) i rec,
        (hMem _).mpr (.inl ⟨pass, k, hk, hIn k (Nat.le_refl k), ?_⟩)⟩
      rw [hCalls]
      exact List.mem_cons_of_mem _ (List.mem_map.mpr ⟨(i, rec), hRec, rfl⟩)
  · intro c hc
    rcases (hMem c).mp hc with ⟨pass, j, hj, hNe, hc⟩ | hc
    · cases c with
      | bread _ _ _ => rfl
      | sync ret => exact absurd hc sync_not_mem_blockCalls
      | flush ret => exact absurd hc flush_not_mem_blockCalls
      | apply pass' pos i rec ret =>
        have hlt := lt_stop_of_apply (hStops pass) hj hNe hc
        cases pass with
        | true => exact hErr j hlt _ hc
        | false =>
          obtain ⟨rfl, rfl, hCk, rfl, b, l, hb, -, hScan, hRec⟩ := blockCalls_apply hc
          have hSkip := h.records _ b l ⟨hCk, j, rfl, ne_logEnd_of_le (hStops false) hlt⟩ hb hScan
            (i, rec) hRec
          simpa [Call.failed] using hSkip
    · simp only [finishCalls, h.dataSync, h.inodeSync, h.flush, List.mem_cons,
        List.not_mem_nil, or_false] at hc
      rcases hc with rfl | rfl | rfl <;> rfl

/-- If everything was applied, nothing was swallowed. -/
theorem nothingSwallowed_of_allApplied {fuel : Nat} {st1 st2 : WalkState (List Call)}
    (hCl : Cleared r p win fuel st1 st2) (h : AllApplied r win (st2.world ++ finishCalls p)) :
    NothingSwallowed r p win := by
  obtain ⟨m, hStops, -, hMem⟩ := mem_calls_iff hCl
  -- a read or an application in the log is one of a block on the path
  have hRead : ∀ {pass pos bh}, Call.bread pass pos bh ∈ st2.world ++ finishCalls p →
      bh = p.content pass pos := by
    intro pass pos bh hc
    rcases (hMem _).mp hc with ⟨pass', j, -, -, hc⟩ | hc
    · exact (blockCalls_bread hc).2.2
    · simp [finishCalls] at hc
  have hApply : ∀ {pass pos i rec ret}, Call.apply pass pos i rec ret ∈
      st2.world ++ finishCalls p → ∃ b l, p.content pass pos = some b ∧ validMagic b = true ∧
        scanBlock b = .ok l ∧ (i, rec) ∈ l := by
    intro pass pos i rec ret hc
    rcases (hMem _).mp hc with ⟨pass', j, -, -, hc⟩ | hc
    · exact (blockCalls_apply hc).2.2.2.2
    · simp [finishCalls] at hc
  -- the walk does not break off: the block it would break off at was read with a valid magic
  have hReach : ∀ pass k, (∀ j ≤ k, pathAt r win.logStart j ≠ win.logEnd) → k < m pass := by
    intro pass k hIn
    rcases le_stop_of_inWindow (hStops pass) hIn with hlt | ⟨⟨-, hCk, -, b, hb, hMagic⟩, hle⟩
    · exact hlt
    · obtain ⟨b', hb', hMagic', -⟩ := h.applied pass _
        ⟨hCk, m pass, rfl, fun j hj => hIn j (by omega)⟩
      have hEq := hRead hb'
      rw [hb] at hEq
      cases hEq
      rw [hMagic] at hMagic'
      cases hMagic'
  have hBlocks : ∀ pass pos, InWindow r win pos →
      ∃ k l b, k < m pass ∧ pathAt r win.logStart k = pos ∧ pos ≠ win.logEnd ∧
        p.content pass pos = some b ∧ validMagic b = true ∧ scanBlock b = .ok l := by
    rintro pass pos ⟨hCk, k, rfl, hIn⟩
    have hk := hReach pass k hIn
    obtain ⟨hNe, hEq | ⟨-, b, l, hb, hMagic, hScan⟩⟩ := (hStops pass).1 k hk
    · exact absurd hEq hCk
    · exact ⟨k, l, b, hk, rfl, hNe, hb, hMagic, hScan⟩
  refine ⟨?_, ?_, ?_, ?_, ?_⟩
  · intro pass pos hIn
    obtain ⟨k, l, b, -, -, -, hb, hMagic, hScan⟩ := hBlocks pass pos hIn
    refine ⟨b, l, hb, hMagic, hScan, ?_⟩
    intro i hi
    obtain ⟨b', hb', -, hAll⟩ := h.applied pass pos hIn
    have hEq := hRead hb'
    rw [hb] at hEq
    cases hEq
    obtain ⟨rec, ret, hc⟩ := hAll i hi
    obtain ⟨b2, l2, hb2, -, hScan2, hRec⟩ := hApply hc
    rw [hb] at hb2
    cases hb2
    rw [hScan] at hScan2
    cases hScan2
    exact ⟨rec, hRec⟩
  · intro pos b l hIn hb hScan x hx
    obtain ⟨k, l', b', hk, rfl, hNe, hb', hMagic, -⟩ := hBlocks false pos hIn
    rw [hb] at hb'
    cases hb'
    have hc : Call.apply false (pathAt r win.logStart k) x.1 x.2
        (p.applyRet false (pathAt r win.logStart k) x.1 x.2) ∈ st2.world ++ finishCalls p := by
      refine (hMem _).mpr (.inl ⟨false, k, Nat.le_of_lt hk, hNe, ?_⟩)
      rw [blockCalls_of_scan hIn.1 hb hMagic hScan]
      exact List.mem_cons_of_mem _ (List.mem_map.mpr ⟨x, hx, rfl⟩)
    have hOk := h.clean _ hc
    simpa [Call.failed] using hOk
  · simpa [Call.failed] using h.clean (.sync p.dataSync) (by simp [finishCalls])
  · simpa [Call.failed] using h.clean (.sync p.inodeSync) (by simp [finishCalls])
  · simpa [Call.failed] using h.clean (.flush p.flush) (by simp [finishCalls])

/-- **When replay discards nothing.** For every journal content and every
pattern of errors, replay clears the window only after everything in it was
applied exactly when the window is empty already, replay gives up before it
clears the window, or nothing was swallowed. -/
theorem replay_clear_applied_iff (r : Ring) (p : Pattern) (win : Window) :
    ClearsOnlyApplied r p win ↔
      win.logStart = win.logEnd ∨ GivesUp r p win ∨ NothingSwallowed r p win := by
  constructor
  · intro h
    by_cases hWin : win.logStart = win.logEnd
    · exact .inl hWin
    by_cases hGive : GivesUp r p win
    · exact .inr (.inl hGive)
    obtain ⟨fuel, st1, st2, hCl⟩ := cleared_of_not_givesUp hGive
    have hApplied := h fuel _ (replay_of_cleared hWin hCl) hWin
      ((replayFinish_disk st2 hWin).mpr ⟨hCl.reconcile, hCl.sbSync⟩)
    rw [replayFinish_world st2 hCl.reconcile] at hApplied
    exact .inr (.inr (nothingSwallowed_of_allApplied hCl hApplied))
  · rintro h fuel res hRun hWin hDisk
    obtain ⟨st1, st2, hCl, hWorld⟩ := cleared_of_replay hRun hWin hDisk
    rcases h with hEq | hGive | hSound
    · exact absurd hEq hWin
    · exact absurd hGive (not_givesUp_of_cleared hCl)
    · rw [hWorld]
      exact allApplied_of_nothingSwallowed hCl hSound

/-- A ring of four blocks, the smallest a mount accepts. -/
def smallRing : Ring :=
  { journalStart := 1, journalBlocks := 4, hMin := by decide, hMax := by decide }

/-- No call fails, but the only block of the window is all zeros. -/
def zeroedBlock : Pattern where
  content _ _ := some fun _ => 0
  applyRet _ _ _ _ := none
  liveSet := none
  reconcile := none
  dataSync := none
  inodeSync := none
  flush := none
  sbSync := none

/-- A zeroed journal block in the window is skipped with everything behind it,
and the window is cleared. -/
theorem replay_clears_zeroed_block :
    ¬ ClearsOnlyApplied smallRing zeroedBlock { logStart := 1, logEnd := 3 } := by
  intro h
  have hApplied := h 5
    { ret := none
      sb := { logStart := 3, logEnd := 3 }
      disk := { logStart := 3, logEnd := 3 }
      world := [.bread true 1 (some fun _ => 0), .bread false 1 (some fun _ => 0),
        .sync none, .sync none, .flush none] } rfl (by decide) rfl
  have hIn : InWindow smallRing { logStart := 1, logEnd := 3 } 1 := by
    refine ⟨by decide, 0, rfl, ?_⟩
    intro j hj
    obtain rfl : j = 0 := by omega
    decide
  obtain ⟨b, hb, hMagic, -⟩ := hApplied.applied true 1 hIn
  simp only [List.mem_cons, Call.bread.injEq, Option.some.injEq, true_and, reduceCtorEq,
    List.not_mem_nil, or_false, Bool.true_eq_false, false_and] at hb
  subst hb
  exact absurd hMagic (by decide)

end Briefs.Replay
