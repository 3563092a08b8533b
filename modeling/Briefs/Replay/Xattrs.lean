import Briefs.Replay.Bitmap
import Briefs.Xattr.Live

/-!
# BrieFS — replay restores the final xattr chains

Pass 1 keeps the last `xattr_offset` of every inode and the last link of every xattr block,
and the live set is what the chains from these heads reach. Pass 2 puts the content records
of live blocks back, all of them in order. The window is the ring that a run of
`Briefs.Xattr.Live` leaves at a commit, and the device is the one the run wrote.

The maps are not keyed by the position of a record. What makes them right is that a block
belongs to one chain at a time, whose records are the last ones for their blocks, and that
the last snapshot of an inode carries its head. The second holds when no snapshot is left
behind: the flush of one inode takes its snapshot out of the queue before it waits for
`write_lock`, so a sync that holds the lock commits without it.

## Results

* `replay_restores_final_chains` — at a commit that leaves no snapshot in flight, in a run of
  calm steps, pass 2 writes to blocks of final chains only, and they hold their last record.
* `replay_overwrites_freed_block` — a commit with the snapshot in flight: the freed head of the
  chain before is put back over the data of its new owner.
-/

namespace Briefs.Replay

open Briefs.Journal Briefs.Xattr

--
-- The device
--

/-- The blocks, and those that content records were written to. -/
structure Device where
  blocks  : Nat → Block
  written : List Nat

/-- `replay_xattr_data` from the read of the block on: a block that cannot be read is skipped. -/
def restoreBlock (unreadable : Nat → Bool) (syncError : Nat → Option Journal.Errno) (d : Device)
    (rec : XattrData) : Option Journal.Errno × Device :=
  if unreadable rec.physBlock then (none, d)
  else (syncError rec.physBlock,
    { blocks := Function.update d.blocks rec.physBlock (restore rec (d.blocks rec.physBlock))
      written := d.written ++ [rec.physBlock] })

/-- Replay on the device. -/
def onDevice (ops : FsOps Device) (unreadable : Nat → Bool)
    (syncError : Nat → Option Journal.Errno) : FsOps Device :=
  { ops with restoreXattr := restoreBlock unreadable syncError }

--
-- Pass 1
--

section Pass1

variable {σ : Type} {ops : FsOps σ} {w : World σ}

theorem tableGet_cons (t : List (Nat × Nat)) (k v key : Nat) :
    tableGet ((k, v) :: t) key = if k = key then v else tableGet t key := by
  unfold tableGet
  by_cases hKey : k = key
  · rw [List.find?_cons_of_pos (by simpa using hKey), if_pos hKey]
  · rw [List.find?_cons_of_neg (by simpa using hKey), if_neg hKey]

/-- The maps of pass 1: the last link of a block and the last head of an inode. -/
theorem pass1_tables (ops : FsOps σ) (w : World σ) (recs : List JRec) :
    (∀ b, b ≠ 0 → tableGet (applyPass ops true recs w.init).2.xattrNext b =
      ((lastXattr recs b).map xattrRecNextBlock).getD 0) ∧
    ∀ ino, tableGet (applyPass ops true recs w.init).2.xattrFinal ino =
      ((lastFull recs ino).map DiskInode.xattrOffset).getD 0 := by
  induction recs using List.reverseRecOn with
  | nil => exact ⟨fun _ _ => rfl, fun _ => rfl⟩
  | append_singleton recs rec ih =>
    obtain ⟨hNext, hFinal⟩ := ih
    rw [applyPass_append]
    generalize (applyPass ops true recs w.init).2 = w₁ at hNext hFinal
    -- A record that is in neither map leaves both.
    have hFrame : (applyPass ops true [rec] w₁).2.xattrNext = w₁.xattrNext →
        (applyPass ops true [rec] w₁).2.xattrFinal = w₁.xattrFinal →
        (∀ b, xattrAt b rec = none) → (∀ i, fullOf i rec = none) →
        (∀ b, b ≠ 0 → tableGet (applyPass ops true [rec] w₁).2.xattrNext b =
          ((lastXattr (recs ++ [rec]) b).map xattrRecNextBlock).getD 0) ∧
        ∀ ino, tableGet (applyPass ops true [rec] w₁).2.xattrFinal ino =
          ((lastFull (recs ++ [rec]) ino).map DiskInode.xattrOffset).getD 0 := by
      intro hN hF hAt hOf
      refine ⟨fun b hb => ?_, fun ino => ?_⟩
      · rw [hN, hNext b hb, lastXattr, lastXattr, lastOf_append_none (hAt b)]
      · rw [hF, hFinal ino, lastFull, lastFull, lastOf_append_none (hOf ino)]
    cases rec with
    | inodeFull n di =>
      refine ⟨fun b hb => ?_, fun ino => ?_⟩
      · rw [lastXattr, lastOf_append_none rfl]
        exact hNext b hb
      · show tableGet ((n, di.xattrOffset) :: w₁.xattrFinal) ino = _
        rw [tableGet_cons, lastFull, lastOf_append]
        by_cases hn : n = ino
        · rw [if_pos hn, show fullOf ino (.inodeFull n di) = some di from if_pos hn]
          rfl
        · rw [if_neg hn, show fullOf ino (.inodeFull n di) = none from if_neg hn]
          exact hFinal ino
    | xattrData x =>
      by_cases hZero : x.physBlock = 0
      · have hSame : (applyPass ops true [.xattrData x] w₁).2 = w₁ := by
          show (applyRecord ops true (.xattrData x) w₁).2 = w₁
          simp only [applyRecord, if_true, if_pos hZero]
        rw [hSame]
        refine ⟨fun b hb => ?_, fun ino => ?_⟩
        · rw [lastXattr, lastOf_append_none (if_neg (by rw [hZero]; exact hb.symm))]
          exact hNext b hb
        · rw [lastFull, lastOf_append_none rfl]
          exact hFinal ino
      · have hTables : (applyPass ops true [.xattrData x] w₁).2.xattrNext =
            (x.physBlock, xattrRecNextBlock x) :: w₁.xattrNext ∧
            (applyPass ops true [.xattrData x] w₁).2.xattrFinal = w₁.xattrFinal := by
          show (applyRecord ops true (.xattrData x) w₁).2.xattrNext = _ ∧
            (applyRecord ops true (.xattrData x) w₁).2.xattrFinal = _
          simp only [applyRecord, if_true, if_neg hZero, and_self]
        refine ⟨fun b hb => ?_, fun ino => ?_⟩
        · rw [hTables.1, tableGet_cons, lastXattr, lastOf_append]
          by_cases hx : x.physBlock = b
          · rw [if_pos hx, show xattrAt b (.xattrData x) = some x from if_pos hx]
            rfl
          · rw [if_neg hx, show xattrAt b (.xattrData x) = none from if_neg hx]
            exact hNext b hb
        · rw [hTables.2, lastFull, lastOf_append_none rfl]
          exact hFinal ino
    | inodeAlloc n =>
      refine hFrame ?_ ?_ (fun _ => rfl) fun _ => rfl
      · show (if 0 < n then _ else w₁ : World σ).xattrNext = _
        split <;> rfl
      · show (if 0 < n then _ else w₁ : World σ).xattrFinal = _
        split <;> rfl
    | inodeFree n =>
      refine hFrame ?_ ?_ (fun _ => rfl) fun _ => rfl
      · show (if 0 < n then _ else w₁ : World σ).xattrNext = _
        split <;> rfl
      · show (if 0 < n then _ else w₁ : World σ).xattrFinal = _
        split <;> rfl
    | trieAlloc block op =>
      refine hFrame ?_ ?_ (fun _ => rfl) fun _ => rfl
      · show (replayTrieAlloc ops block op true w₁).xattrNext = _
        unfold replayTrieAlloc
        split <;> rfl
      · show (replayTrieAlloc ops block op true w₁).xattrFinal = _
        unfold replayTrieAlloc
        split <;> rfl
    | _ => exact hFrame rfl rfl (fun _ => rfl) fun _ => rfl

theorem xattrChain_zero (next : List (Nat × Nat)) (n : Nat) : xattrChain next n 0 = [] := by
  cases n <;> rfl

/-- Links that are those of the chain, or missing, do not leave it. -/
theorem xattrChain_within {next : List (Nat × Nat)} : ∀ {recs : List XattrData} {n : Nat},
    Linked recs →
    (∀ r ∈ recs, tableGet next r.physBlock = xattrRecNextBlock r ∨ tableGet next r.physBlock = 0) →
      ∀ b ∈ xattrChain next n (headOf recs), b ∈ physBlocks recs := by
  intro recs
  induction recs with
  | nil =>
    intro n _ _ b hb
    rw [show headOf [] = 0 from rfl, xattrChain_zero] at hb
    exact hb
  | cons r rest ih =>
    intro n hLinked hNext b hb
    cases n with
    | zero => exact absurd hb List.not_mem_nil
    | succ n =>
      unfold xattrChain at hb
      rw [if_neg (show ¬ headOf (r :: rest) = 0 from hLinked.1.1)] at hb
      rcases List.mem_cons.1 hb with rfl | hRest
      · exact List.mem_cons_self
      · refine List.mem_cons_of_mem _ ?_
        have hHere := hNext r List.mem_cons_self
        change b ∈ xattrChain next n (tableGet next r.physBlock) at hRest
        rcases hHere with hLink | hNone
        · rw [hLink, hLinked.1.2.1] at hRest
          exact ih hLinked.2 (fun r' hr => hNext r' (List.mem_cons_of_mem _ hr)) b hRest
        · rw [hNone, xattrChain_zero] at hRest
          exact absurd hRest List.not_mem_nil

/-- The live set is made of blocks of final chains. -/
theorem live_within {s : Live} (h : Xattr.Good s) (hPending : s.pending = []) (hFlight : s.flight = [])
    (ops : FsOps σ) (w : World σ) :
    ∀ b ∈ (afterPass1 ops s.ring w).xattrLive, ∃ ino, b ∈ physBlocks (s.chains ino) := by
  intro b hb
  obtain ⟨hNext, hFinal⟩ := pass1_tables ops w s.ring
  obtain ⟨ino, -, hChain⟩ := List.mem_flatMap.1 hb
  refine ⟨ino, ?_⟩
  have hHead : tableGet (applyPass ops true s.ring w.init).2.xattrFinal ino = headOf (s.chains ino) ∨
      tableGet (applyPass ops true s.ring w.init).2.xattrFinal ino = 0 := by
    rw [hFinal ino]
    cases hLast : lastFull s.ring ino with
    | none => exact .inr rfl
    | some di =>
      rcases h.snapped.last ino with ⟨snap, hMem, -⟩ | hCur
      · rw [hPending, hFlight] at hMem
        exact absurd hMem List.not_mem_nil
      · exact .inl (hCur di hLast)
  have hLinked := (h.held.segment (.chain ino)).linked
  rcases hHead with hHead | hNone
  · rw [hHead] at hChain
    refine xattrChain_within hLinked ?_ b hChain
    intro r hr
    rw [hNext _ (hLinked.nonzero r hr)]
    cases hLast : lastXattr s.ring r.physBlock with
    | none => exact .inr rfl
    | some x =>
      rw [h.recorded.last (.chain ino) r hr x hLast]
      exact .inl rfl
  · rw [hNone, xattrChain_zero] at hChain
    exact absurd hChain List.not_mem_nil

end Pass1

--
-- Pass 2
--

section Pass2

variable {ops : FsOps Device} {unreadable : Nat → Bool} {syncError : Nat → Option Journal.Errno}

/-- One record of a window in pass 2: only content of a live block that can be read is written. -/
theorem applyRecord2_device (ops : FsOps Device) (syncError : Nat → Option Journal.Errno)
    {rec : JRec} (hOk : RingOk rec) (w : World Device) :
    (applyRecord (onDevice ops unreadable syncError) false rec w).2.xattrLive = w.xattrLive ∧
    (((applyRecord (onDevice ops unreadable syncError) false rec w).2.data = w.data ∧
        ∀ x, rec = .xattrData x → x.physBlock ∉ w.xattrLive ∨ unreadable x.physBlock = true) ∨
      ∃ x, rec = .xattrData x ∧ x.physBlock ∈ w.xattrLive ∧ unreadable x.physBlock = false ∧
        (applyRecord (onDevice ops unreadable syncError) false rec w).2.data =
          ⟨Function.update w.data.blocks x.physBlock (restore x (w.data.blocks x.physBlock)),
            w.data.written ++ [x.physBlock]⟩) := by
  cases rec with
  | dirUpdate d => exact hOk.elim
  | symlinkData d => exact hOk.elim
  | xattrData x =>
    have hUsed : ¬ (x.usedSize = 0 ∨ xattrMaxUsed < x.usedSize) :=
      fun h => h.elim hOk.used (Nat.not_lt.2 hOk.most)
    simp only [applyRecord, Bool.false_eq_true, if_false, replayXattrData, if_neg hUsed]
    by_cases hLive : x.physBlock ∈ w.xattrLive
    · rw [if_pos hLive]
      refine ⟨rfl, ?_⟩
      dsimp only [onDevice, restoreBlock]
      cases hRead : unreadable x.physBlock with
      | true =>
        refine .inl ⟨rfl, fun y hy => .inr ?_⟩
        cases hy
        exact hRead
      | false => exact .inr ⟨x, rfl, hLive, hRead, rfl⟩
    · rw [if_neg hLive]
      refine ⟨rfl, .inl ⟨rfl, fun y hy => .inl ?_⟩⟩
      cases hy
      exact hLive
  | inodeAlloc n =>
    simp only [applyRecord]
    split <;> exact ⟨rfl, .inl ⟨rfl, by simp⟩⟩
  | inodeFree n =>
    simp only [applyRecord]
    split <;> exact ⟨rfl, .inl ⟨rfl, by simp⟩⟩
  | inodeUpdate u =>
    simp only [applyRecord, replayInodeUpdate, Bool.false_eq_true, if_false]
    split
    · exact ⟨rfl, .inl ⟨rfl, by simp⟩⟩
    · exact ⟨rfl, .inl ⟨rfl, by simp⟩⟩
    · split <;> exact ⟨rfl, .inl ⟨rfl, by simp⟩⟩
  | inodeFull n di =>
    simp only [applyRecord, replayInodeFull, Bool.false_eq_true, if_false]
    split
    · exact ⟨rfl, .inl ⟨rfl, by simp⟩⟩
    · exact ⟨rfl, .inl ⟨rfl, by simp⟩⟩
    · split <;> exact ⟨rfl, .inl ⟨rfl, by simp⟩⟩
  | trieAlloc block op =>
    simp only [applyRecord, replayTrieAlloc, Bool.false_eq_true, if_false]
    split <;> exact ⟨rfl, .inl ⟨rfl, by simp⟩⟩
  | extentAlloc phys len => exact ⟨rfl, .inl ⟨rfl, by simp⟩⟩
  | extentFree phys len => exact ⟨rfl, .inl ⟨rfl, by simp⟩⟩

/-- What pass 2 has done to the device after `recs`. -/
structure Replayed (unreadable : Nat → Bool) (recs : List JRec) (w w' : World Device) : Prop where
  live    : w'.xattrLive = w.xattrLive
  written : ∀ b ∈ w'.data.written, b ∈ w.data.written ∨ b ∈ w.xattrLive
  skipped : ∀ b, b ∉ w.xattrLive ∨ unreadable b = true → w'.data.blocks b = w.data.blocks b
  block   : ∀ b, w'.data.blocks b = w.data.blocks b ∨
    ∃ x c, lastXattr recs b = some x ∧ w'.data.blocks b = restore x c

theorem replayed_pass2 (w : World Device) : ∀ (recs : List JRec), (∀ rec ∈ recs, RingOk rec) →
    Replayed unreadable recs w (applyPass (onDevice ops unreadable syncError) false recs w).2 := by
  intro recs
  induction recs using List.reverseRecOn with
  | nil => exact fun _ => ⟨rfl, fun _ hb => .inl hb, fun _ _ => rfl, fun _ => .inl rfl⟩
  | append_singleton recs rec ih =>
    intro hOk
    have h := ih fun rec' hMem => hOk rec' (List.mem_append_left _ hMem)
    rw [applyPass_append]
    generalize (applyPass (onDevice ops unreadable syncError) false recs w).2 = w₁ at h ⊢
    have hRec := hOk rec (List.mem_append_right _ List.mem_cons_self)
    obtain ⟨hLive, hData⟩ := applyRecord2_device ops syncError hRec w₁
    have hOne : (applyPass (onDevice ops unreadable syncError) false [rec] w₁).2 =
        (applyRecord (onDevice ops unreadable syncError) false rec w₁).2 := rfl
    rw [hOne]
    generalize (applyRecord (onDevice ops unreadable syncError) false rec w₁).2 = w₂ at hLive hData ⊢
    rcases hData with ⟨hSame, hSkip⟩ | ⟨x, rfl, hIn, hRead, hData⟩
    · refine ⟨hLive.trans h.live, ?_, ?_, ?_⟩
      · rw [hSame]
        exact h.written
      · rw [hSame]
        exact h.skipped
      · intro b
        rw [hSame]
        cases hAt : xattrAt b rec with
        | none =>
          rw [lastXattr, lastOf_append_none hAt]
          exact h.block b
        | some y =>
          -- The record is for this block and was left out, so all were.
          refine .inl (h.skipped b ?_)
          cases rec with
          | xattrData x =>
            have hPhys : x.physBlock = b := by
              by_contra hNe
              rw [show xattrAt b (.xattrData x) = none from if_neg hNe] at hAt
              cases hAt
            have hOut := hSkip x rfl
            rwa [hPhys, h.live] at hOut
          | _ => cases hAt
    · rw [h.live] at hIn
      refine ⟨hLive.trans h.live, ?_, ?_, ?_⟩
      · intro b hb
        rw [hData] at hb
        rcases List.mem_append.1 hb with hOld | hNew
        · exact h.written b hOld
        · rw [List.mem_singleton.1 hNew]
          exact .inr hIn
      · intro b hOut
        rw [hData]
        have hNe : b ≠ x.physBlock := by
          rintro rfl
          rcases hOut with hOut | hOut
          · exact hOut hIn
          · rw [hRead] at hOut
            cases hOut
        dsimp only
        rw [Function.update_of_ne hNe]
        exact h.skipped b hOut
      · intro b
        rw [hData, lastXattr, lastOf_append]
        dsimp only
        by_cases hb : x.physBlock = b
        · subst hb
          refine .inr ⟨x, w₁.data.blocks x.physBlock, ?_, Function.update_self ..⟩
          rw [show xattrAt x.physBlock (.xattrData x) = some x from if_pos rfl, Option.some_or]
        · rw [show xattrAt b (.xattrData x) = none from if_neg hb, Option.none_or,
            Function.update_of_ne (Ne.symm hb)]
          exact h.block b

theorem reconcileNlinks_data (ops : FsOps Device) (w : World Device) :
    (reconcileNlinks ops w).data = w.data := by
  unfold reconcileNlinks
  split <;> rfl

theorem data_replayRecords (recs : List JRec) (w : World Device) :
    (replayRecords ops recs w).2.data = (applyPass ops false recs (afterPass1 ops recs w)).2.data := by
  unfold replayRecords
  rw [if_neg (fun h => h (applyPass1_errors ops recs w.init))]
  exact reconcileNlinks_data ops _

end Pass2

--
-- The final chains
--

/-- In every run of xattr sets and removes, frees of inodes and reuses of blocks whose steps are
calm, at every commit that leaves no snapshot in the queue or in flight: pass 2 writes content
records to blocks of final chains only, and after replay every block of a final chain that has a
record in the window holds its last one, with zeros behind it and a checksum that is accepted. -/
theorem replay_restores_final_chains {start s : Live} (hStart : start.AtStart)
    (hRun : Reach (fun s e => e.Calm s) start s) (hPending : s.pending = []) (hFlight : s.flight = [])
    (ops : FsOps Device) (unreadable : Nat → Bool) (syncError : Nat → Option Journal.Errno)
    (w : World Device) (hData : w.data = ⟨s.disk, []⟩) :
    (∀ b ∈ (replayRecords (onDevice ops unreadable syncError) s.ring w).2.data.written,
      ∃ ino, b ∈ physBlocks (s.chains ino)) ∧
    ∀ ino, ∀ b ∈ physBlocks (s.chains ino), ∀ x, lastXattr s.ring b = some x →
      Xattr.Restored x ((replayRecords (onDevice ops unreadable syncError) s.ring w).2.data.blocks b) := by
  have hGood := hRun.good hStart
  generalize hOps : onDevice ops unreadable syncError = ops'
  have hLive := live_within hGood hPending hFlight ops' w
  have hPass : Replayed unreadable s.ring (afterPass1 ops' s.ring w)
      (applyPass ops' false s.ring (afterPass1 ops' s.ring w)).2 := by
    subst hOps
    exact replayed_pass2 _ s.ring hGood.recorded.ring
  have hBefore : (afterPass1 ops' s.ring w).data = ⟨s.disk, []⟩ :=
    (applyPass1_frame ops' s.ring w.init).1.trans hData
  rw [data_replayRecords]
  refine ⟨?_, ?_⟩
  · intro b hb
    rcases hPass.written b hb with hOld | hNew
    · rw [hBefore] at hOld
      exact absurd hOld List.not_mem_nil
    · exact hLive b hNew
  · intro ino b hb x hx
    obtain ⟨r, hr, rfl⟩ := mem_physBlocks.1 hb
    have hSeg := hGood.held.segment (.chain ino)
    have hSame := hGood.recorded.last (.chain ino) r hr
    rw [hSame x hx]
    rcases hPass.block r.physBlock with hKept | ⟨y, c, hy, hRestore⟩
    · rw [hKept, hBefore]
      exact hSeg.durable r hr
    · rw [hRestore, hSame y hy]
      exact (hSeg.linked.sound r hr).restored c

/-- A file system without xattrs. -/
def noXattrs : Live where
  chains _ := []
  builds _ := none
  old _ := []
  owner _ := .free
  disk _ := fun _ => 0
  copies := []
  pending := []
  flight := []
  ring := []

theorem noXattrs_atStart : noXattrs.AtStart :=
  ⟨fun _ => segment_nil _ _ _, fun _ => rfl, fun _ => rfl, rfl, rfl⟩

/-- `user.a` with a value of one byte. -/
def oneEntry (value : UInt8) : List KV := [⟨[0x75, 0x73, 0x65, 0x72, 0x2E, 0x61], [value]⟩]

/-- The other calls of replay, which its records do not make. -/
def deviceOps : FsOps Device where
  dataStart := 100
  inodeInRange ino := decide (ino ≤ 8)
  trieUpdate d _ c _ := .done (none, c.diskInode.dirTrieRoot, d)
  freeInodeData d _ := .done d
  restoreSymlink d _ _ := (none, d)
  restoreXattr d _ := (none, d)
  readNode _ _ := none
  dirEntries _ _ := some []
  phantom _ _ := fillInode DiskInode.zero
  reclaimed _ _ := false

/-- A device of 128 data blocks from block 100 on. -/
def deviceWorld (disk : Nat → Block) : World Device :=
  { emptyDirWorld with data := ⟨disk, []⟩ }

/-- Inode 1 gets a chain in block 110 and its snapshot is drained. -/
theorem replay_restores_one_chain :
    ∃ s, Reach (fun s e => e.Calm s) noXattrs s ∧ physBlocks (s.chains 1) = [110] ∧
      (lastXattr s.ring 110).isSome = true ∧
      ∀ x, lastXattr s.ring 110 = some x → Xattr.Restored x ((replayRecords
        (onDevice deviceOps (fun _ => false) (fun _ => none)) s.ring
        (deviceWorld s.disk)).2.data.blocks 110) := by
  have hNew : Reach (fun s e => e.Calm s) noXattrs noXattrs := Reach.start
  have hBuilt := hNew.step (e := .start 1 (oneEntry 7) [110]) trivial
    (Live.step_start (by decide))
  have hLogged := hBuilt.step (e := .log 1) trivial rfl
  have hSet := hLogged.step (e := .publish 1 DiskInode.zero true) rfl rfl
  have hTaken := hSet.step (e := .dequeue 0) trivial rfl
  have hDone := hTaken.step (e := .write 0 true) (fun snap hGet => by
    cases hGet
    exact .inl ⟨rfl, rfl⟩) rfl
  exact ⟨_, hDone, rfl, rfl, (replay_restores_final_chains noXattrs_atStart hDone rfl rfl deviceOps
    (fun _ => false) (fun _ => none) (deviceWorld _) rfl).2 1 110 List.mem_cons_self⟩

/-- The chain of inode 1 is set in block 110, drained, and set again in block 111. Block 110 is
freed and taken by a file. A sync finds the queue empty, since the flush of the inode has the
snapshot and waits for the lock: replay of what it commits writes to block 110. -/
theorem replay_overwrites_freed_block :
    ∃ s, Reach (fun _ _ => True) noXattrs s ∧ s.pending = [] ∧ s.owner 110 = .other ∧
      (∀ ino, 110 ∉ physBlocks (s.chains ino)) ∧
      110 ∈ (replayRecords (onDevice deviceOps (fun _ => false) (fun _ => none)) s.ring
        (deviceWorld s.disk)).2.data.written := by
  have hNew : Reach (fun _ _ => True) noXattrs noXattrs := Reach.start
  have hBuilt := hNew.step (e := .start 1 (oneEntry 7) [110]) trivial
    (Live.step_start (by decide))
  have hLogged := hBuilt.step (e := .log 1) trivial rfl
  have hSet := hLogged.step (e := .publish 1 DiskInode.zero true) trivial rfl
  have hTaken := hSet.step (e := .dequeue 0) trivial rfl
  have hDrained := hTaken.step (e := .write 0 true) trivial rfl
  have hBuilt' := hDrained.step (e := .start 1 (oneEntry 8) [111]) trivial
    (Live.step_start (by decide))
  have hLogged' := hBuilt'.step (e := .log 1) trivial rfl
  have hSet' := hLogged'.step (e := .publish 1 DiskInode.zero true) trivial rfl
  have hFreed := hSet'.step (e := .free 1) trivial rfl
  have hFreeLogged := hFreed.step (e := .append (.extentFree 110 1)) trivial rfl
  have hReused := hFreeLogged.step (e := .takeBlock 110) trivial rfl
  have hFlight := hReused.step (e := .dequeue 0) trivial rfl
  refine ⟨_, hFlight, rfl, rfl, ?_, ?_⟩
  · intro ino
    by_cases hi : ino = 1
    · subst hi
      decide
    · have hElse : ∀ (chains : Nat → List XattrData) recs recs', chains ino = [] →
          110 ∉ physBlocks (Function.update (Function.update chains 1 recs) 1 recs' ino) := by
        intro chains recs recs' hNone
        rw [Function.update_of_ne hi, Function.update_of_ne hi, hNone]
        exact List.not_mem_nil
      exact hElse _ _ _ rfl
  · rw [data_replayRecords]
    decide

end Briefs.Replay
