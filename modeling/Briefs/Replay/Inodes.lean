import Briefs.Replay.Bitmap

/-!
# BrieFS — inode slots after replay

A snapshot (`JRN_INODE_FULL`) is applied only when the generation in the slot is
its own. The slot of an inode that the window creates gets that generation from
the in-place write of the inode block, which the crash may have lost: then every
snapshot is skipped, although the create path journals it exactly for this case.

Directories have a second hazard: `replay_dir_update` writes the cached copy of
the parent back, and a snapshot or an `INODE_UPDATE` that was applied after the
copy was loaded is overwritten. And a record that loads an inode without links
makes `iput` delete it. Links matter only where a record loads the inode: an
unlinked inode may well have its last snapshot in the window.

## Results

* `slots_applyRecord2` — what a record does to the slot of an inode it does not
  load.
* `tracked_applyRecord2`, `restoring_applyRecord2` — one record of pass 2, for
  the slot and the cached copy of an inode.
* `replay_restores_inode` — a snapshot of the final incarnation is in the slot
  after replay if the slot had its generation, the records that load the inode
  find it linked, and no stale copy is written over it. The generation is needed
  as well, and for an inode that the window never loads it is enough.
-/

namespace Briefs.Replay

open Briefs.Journal

variable {σ : Type} {ops : FsOps σ}

--
-- What a record does to one inode
--

/-- The record brings the inode into the cache. -/
def JRec.loads (ino : Nat) : JRec → Bool
  | .dirUpdate d => d.parentIno == ino
  | .symlinkData s => s.ino == ino && s.target.length != 0 && decide (s.target.length ≤ 4096)
  | _ => false

/-- The record re-derives the directory `ino`. -/
def JRec.rederives (ino : Nat) : JRec → Bool
  | .dirUpdate d => d.parentIno == ino
  | _ => false

/-- The snapshot of the incarnation `gen` of an inode in the record. -/
def JRec.snapshot (ino gen : Nat) : JRec → Option DiskInode
  | .inodeFull i snap => if i = ino ∧ snap.generation = gen then some snap else none
  | _ => none

/-- The update of the incarnation `gen` of an inode in the record. Records of
older journals belong to every incarnation. -/
def JRec.update (ino gen : Nat) : JRec → Option InodeUpdate
  | .inodeUpdate u =>
    if u.ino = ino ∧ (u.generation = none ∨ u.generation = some gen) then some u else none
  | _ => none

/-- The slot after a record that does not load the inode. -/
def JRec.write (ino : Nat) (rec : JRec) (di : DiskInode) : DiskInode :=
  match rec.snapshot ino di.generation, rec.update ino di.generation with
  | some snap, _ => snap
  | none, some u => u.applyTo di
  | none, none => di

/-- The inode number can be read. -/
def readable (ops : FsOps σ) (ino : Nat) : Prop := ino ≠ 0 ∧ ops.inodeInRange ino = true

theorem readInodeBlock_ok {w : World σ} {ino : Nat} (h : readable ops ino) :
    readInodeBlock ops w ino = .ok (w.slots ino) := by
  unfold readInodeBlock
  rw [if_neg h.1, if_pos h.2]

theorem readInodeBlock_cases (ops : FsOps σ) (w : World σ) (ino : Nat) :
    readable ops ino ∧ readInodeBlock ops w ino = .ok (w.slots ino) ∨
      ¬ readable ops ino ∧ ∃ e, readInodeBlock ops w ino = .error e := by
  unfold readInodeBlock readable
  by_cases hZero : ino = 0
  · exact .inr ⟨fun h => h.1 hZero, .einval, by rw [if_pos hZero]⟩
  · by_cases hRange : ops.inodeInRange ino = true
    · exact .inl ⟨⟨hZero, hRange⟩, by rw [if_neg hZero, if_pos hRange]⟩
    · exact .inr ⟨fun h => hRange h.2, .eio, by rw [if_neg hZero, if_neg hRange]⟩

@[simp] theorem setSlot_slots_self (w : World σ) (ino : Nat) (di : DiskInode) :
    (w.setSlot ino di).slots ino = di := Function.update_self _ _ _

theorem setSlot_slots_other {w : World σ} {i ino : Nat} (h : ino ≠ i) (di : DiskInode) :
    (w.setSlot i di).slots ino = w.slots ino := Function.update_of_ne h _ _

@[simp] theorem setSlot_icache (w : World σ) (ino : Nat) (di : DiskInode) :
    (w.setSlot ino di).icache = w.icache := rfl

@[simp] theorem cache_slots (w : World σ) (ino : Nat) (c : Option CachedInode) :
    (w.cache ino c).slots = w.slots := rfl

@[simp] theorem cache_icache_self (w : World σ) (ino : Nat) (c : Option CachedInode) :
    (w.cache ino c).icache ino = c := Function.update_self _ _ _

--
-- Frames
--

/-- Two states with the same slot and the same cached copy of an inode. -/
structure SameInode (ino : Nat) (w w' : World σ) : Prop where
  slots  : w'.slots ino = w.slots ino
  icache : w'.icache ino = w.icache ino

theorem SameInode.refl (ino : Nat) (w : World σ) : SameInode ino w w := ⟨rfl, rfl⟩

theorem SameInode.trans {ino : Nat} {w1 w2 w3 : World σ} (h1 : SameInode ino w1 w2)
    (h2 : SameInode ino w2 w3) : SameInode ino w1 w3 :=
  ⟨h2.slots.trans h1.slots, h2.icache.trans h1.icache⟩

theorem takeTrieBlock_inode (ops : FsOps σ) (w : World σ) (ino : Nat) :
    SameInode ino w (takeTrieBlock ops w).2 := by
  unfold takeTrieBlock
  split
  · exact ⟨rfl, rfl⟩
  · dsimp only
    split <;> exact ⟨rfl, rfl⟩

/-- Trie code does not touch the inode table or the inode cache. -/
theorem run_inode (ops : FsOps σ) {α : Type} (ino : Nat) :
    ∀ (d : Derive α) (w : World σ), SameInode ino w (d.run ops w).2
  | .done _, w => SameInode.refl ino w
  | .pageInit k, w => by
    unfold Derive.run
    exact (takeTrieBlock_inode ops w ino).trans (run_inode ops ino (k _) _)
  | .freeBlocks rel n k, w => by
    unfold Derive.run
    have hFree : SameInode ino w { w with
        alloc := w.alloc.freeBlocks rel n, history := w.history ++ [.freed rel n] } := ⟨rfl, rfl⟩
    exact hFree.trans (run_inode ops ino k _)

theorem persistDiskInode_other (ops : FsOps σ) (w : World σ) {i ino : Nat} (h : ino ≠ i)
    (di : DiskInode) : SameInode ino w (persistDiskInode ops w i di).2 := by
  unfold persistDiskInode
  split
  · exact SameInode.refl ino w
  · exact ⟨setSlot_slots_other h di, rfl⟩

theorem cache_other {i ino : Nat} (h : ino ≠ i) (w : World σ) (c : Option CachedInode) :
    SameInode ino w (w.cache i c) := ⟨rfl, Function.update_of_ne h _ _⟩

theorem iget_other (ops : FsOps σ) (w : World σ) {i ino : Nat} (h : ino ≠ i) :
    SameInode ino w (iget ops w i).2 := by
  unfold iget
  split
  · exact SameInode.refl ino w
  · split
    · exact cache_other h w _
    · split
      · exact cache_other h w _
      · exact cache_other h w _

theorem iput_other (ops : FsOps σ) (w : World σ) {i ino : Nat} (h : ino ≠ i) (c : CachedInode) :
    SameInode ino w (iput ops w i c) := by
  unfold iput
  split
  · have hRun := run_inode ops ino (ops.freeInodeData w.data c) w
    generalize (ops.freeInodeData w.data c).run ops w = r at hRun ⊢
    obtain ⟨data, w1⟩ := r
    dsimp only at hRun ⊢
    have hData : SameInode ino w1 { w1 with data := data } := ⟨rfl, rfl⟩
    have hSlot := (hRun.trans hData).trans
      (persistDiskInode_other ops { w1 with data := data } h DiskInode.zero)
    generalize (persistDiskInode ops { w1 with data := data } i DiskInode.zero).2 = w2 at hSlot ⊢
    have hNum : SameInode ino w (if i = 0 then w2
        else { w2 with inodeAlloc := w2.inodeAlloc.freeBlock (i - 1) }) := by
      split
      · exact hSlot
      · exact hSlot.trans ⟨rfl, rfl⟩
    exact hNum.trans (cache_other h _ none)
  · exact cache_other h w (some c)

theorem replayDirUpdate_other (ops : FsOps σ) (w : World σ) {ino : Nat} {rec : DirUpdate}
    (h : ino ≠ rec.parentIno) : SameInode ino w (replayDirUpdate ops rec w).2 := by
  unfold replayDirUpdate
  have hGet := iget_other ops w h
  generalize iget ops w rec.parentIno = r at hGet ⊢
  obtain ⟨res, w1⟩ := r
  split
  · rename_i heq
    cases heq
    exact hGet
  · rename_i heq
    cases heq
    exact hGet
  · rename_i c w2 heq
    cases heq
    have hRun := run_inode ops ino (ops.trieUpdate w1.data (tableGet w1.pins) c rec) w1
    generalize (ops.trieUpdate w1.data (tableGet w1.pins) c rec).run ops w1 = d at hRun ⊢
    obtain ⟨⟨ret, root, data⟩, w3⟩ := d
    dsimp only at hRun ⊢
    have hData : SameInode ino w3 { w3 with data := data } := ⟨rfl, rfl⟩
    have hTrie := (hGet.trans hRun).trans hData
    split
    · exact hTrie.trans (iput_other ops _ h _)
    · exact (hTrie.trans (persistDiskInode_other ops _ h _)).trans (iput_other ops _ h _)

theorem replaySymlinkData_other (ops : FsOps σ) (w : World σ) {ino : Nat} {rec : SymlinkData}
    (hLoads : JRec.loads ino (.symlinkData rec) = false) :
    SameInode ino w (replaySymlinkData ops rec w).2 := by
  unfold replaySymlinkData
  split
  · exact SameInode.refl ino w
  · rename_i hLen
    have h : ino ≠ rec.ino := by
      intro hIno
      rw [not_or, Nat.not_lt] at hLen
      simp [JRec.loads, hIno, hLen.1, hLen.2] at hLoads
    have hGet := iget_other ops w h
    generalize iget ops w rec.ino = r at hGet ⊢
    obtain ⟨res, w1⟩ := r
    split
    · rename_i heq
      cases heq
      exact hGet
    · rename_i c w2 heq
      cases heq
      split
      · generalize ops.restoreSymlink w1.data c rec = d
        obtain ⟨ret, data⟩ := d
        have hData : SameInode ino w1 { w1 with data := data } := ⟨rfl, rfl⟩
        exact (hGet.trans hData).trans (iput_other ops _ h _)
      · exact hGet.trans (iput_other ops _ h _)

--
-- Records that do not load the inode
--

theorem write_of_none {ino : Nat} {rec : JRec} {di : DiskInode}
    (hSnap : rec.snapshot ino di.generation = none) (hUpd : rec.update ino di.generation = none) :
    rec.write ino di = di := by
  unfold JRec.write
  rw [hSnap, hUpd]

theorem replayInodeUpdate_inode (ops : FsOps σ) (u : InodeUpdate) (w : World σ) {ino : Nat}
    (hRead : readable ops ino) :
    (replayInodeUpdate ops u w).2.slots ino = JRec.write ino (.inodeUpdate u) (w.slots ino) ∧
      (replayInodeUpdate ops u w).2.icache = w.icache := by
  unfold replayInodeUpdate JRec.write
  dsimp only [JRec.snapshot, JRec.update]
  by_cases hIno : u.ino = ino
  · subst hIno
    rw [readInodeBlock_ok hRead]
    dsimp only
    by_cases hGen : u.generation.isSome ∧ u.generation ≠ some (w.slots u.ino).generation
    · have hNot : ¬ (u.ino = u.ino ∧
          (u.generation = none ∨ u.generation = some (w.slots u.ino).generation)) := by
        rintro ⟨-, hNone | hSome⟩
        · rw [hNone] at hGen
          exact absurd hGen.1 (by decide)
        · exact hGen.2 hSome
      rw [if_pos hGen, if_neg hNot]
      exact ⟨rfl, rfl⟩
    · have hApp : u.ino = u.ino ∧
          (u.generation = none ∨ u.generation = some (w.slots u.ino).generation) := by
        refine ⟨rfl, ?_⟩
        cases hU : u.generation with
        | none => exact .inl rfl
        | some g =>
          rw [hU] at hGen
          right
          by_contra hNe
          exact hGen ⟨rfl, hNe⟩
      rw [if_neg hGen, if_pos hApp]
      exact ⟨setSlot_slots_self _ _ _, rfl⟩
  · rw [if_neg (fun h => hIno h.1)]
    dsimp only
    rcases readInodeBlock_cases ops w u.ino with ⟨-, h⟩ | ⟨-, e, h⟩
    · rw [h]
      dsimp only
      split
      · exact ⟨rfl, rfl⟩
      · exact ⟨setSlot_slots_other (Ne.symm hIno) _, rfl⟩
    · rw [h]
      cases e <;> exact ⟨rfl, rfl⟩

theorem replayInodeFull_inode (ops : FsOps σ) (i : Nat) (snap : DiskInode) (w : World σ)
    {ino : Nat} (hRead : readable ops ino) :
    (replayInodeFull ops i snap w).2.slots ino =
        JRec.write ino (.inodeFull i snap) (w.slots ino) ∧
      (replayInodeFull ops i snap w).2.icache = w.icache := by
  unfold replayInodeFull JRec.write
  dsimp only [JRec.snapshot, JRec.update]
  by_cases hIno : i = ino
  · subst hIno
    rw [readInodeBlock_ok hRead]
    dsimp only
    by_cases hGen : snap.generation = (w.slots i).generation
    · rw [if_neg (not_not_intro hGen), if_pos ⟨rfl, hGen⟩]
      exact ⟨setSlot_slots_self _ _ _, rfl⟩
    · rw [if_pos hGen, if_neg (fun h => hGen h.2)]
      exact ⟨rfl, rfl⟩
  · rw [if_neg (fun h => hIno h.1)]
    dsimp only
    rcases readInodeBlock_cases ops w i with ⟨-, h⟩ | ⟨-, e, h⟩
    · rw [h]
      dsimp only
      split
      · exact ⟨rfl, rfl⟩
      · exact ⟨setSlot_slots_other (Ne.symm hIno) _, rfl⟩
    · rw [h]
      cases e <;> exact ⟨rfl, rfl⟩

/-- A record that does not load the inode writes its slot at most, and the copy
in the cache stays. -/
theorem slots_applyRecord2 (ops : FsOps σ) {rec : JRec} (w : World σ) {ino : Nat}
    (hRead : readable ops ino) (hLoads : rec.loads ino = false) :
    (applyRecord ops false rec w).2.slots ino = rec.write ino (w.slots ino) ∧
      (applyRecord ops false rec w).2.icache ino = w.icache ino := by
  have hFrame : rec.snapshot ino (w.slots ino).generation = none →
      rec.update ino (w.slots ino).generation = none →
      SameInode ino w (applyRecord ops false rec w).2 →
      (applyRecord ops false rec w).2.slots ino = rec.write ino (w.slots ino) ∧
        (applyRecord ops false rec w).2.icache ino = w.icache ino := by
    intro hSnap hUpd hSame
    rw [write_of_none hSnap hUpd]
    exact ⟨hSame.slots, hSame.icache⟩
  cases rec with
  | inodeUpdate u =>
    obtain ⟨hSlot, hCache⟩ := replayInodeUpdate_inode ops u w hRead
    exact ⟨hSlot, congrFun hCache ino⟩
  | inodeFull i snap =>
    obtain ⟨hSlot, hCache⟩ := replayInodeFull_inode ops i snap w hRead
    exact ⟨hSlot, congrFun hCache ino⟩
  | dirUpdate d =>
    refine hFrame rfl rfl (replayDirUpdate_other ops w ?_)
    intro h
    simp [JRec.loads, h] at hLoads
  | symlinkData s => exact hFrame rfl rfl (replaySymlinkData_other ops w hLoads)
  | inodeAlloc i =>
    refine hFrame rfl rfl ?_
    dsimp only [applyRecord]
    split <;> exact ⟨rfl, rfl⟩
  | inodeFree i =>
    refine hFrame rfl rfl ?_
    dsimp only [applyRecord]
    split <;> exact ⟨rfl, rfl⟩
  | extentAlloc phys len => exact hFrame rfl rfl ⟨rfl, rfl⟩
  | extentFree phys len => exact hFrame rfl rfl ⟨rfl, rfl⟩
  | trieAlloc block op =>
    refine hFrame rfl rfl ?_
    simp only [applyRecord, replayTrieAlloc, Bool.false_eq_true, if_false]
    split <;> exact ⟨rfl, rfl⟩
  | xattrData x =>
    refine hFrame rfl rfl ?_
    simp only [applyRecord, replayXattrData, Bool.false_eq_true, if_false]
    split
    · exact ⟨rfl, rfl⟩
    · split <;> exact ⟨rfl, rfl⟩

theorem update_applyTo_generation (u : InodeUpdate) (di : DiskInode) :
    (u.applyTo di).generation = di.generation := rfl

theorem write_cases (ino : Nat) (rec : JRec) (di : DiskInode) :
    (∃ snap, rec.snapshot ino di.generation = some snap ∧ rec.write ino di = snap ∧
      snap.generation = di.generation) ∨
    (∃ u, rec.snapshot ino di.generation = none ∧ rec.update ino di.generation = some u ∧
      rec.write ino di = u.applyTo di) ∨
    (rec.snapshot ino di.generation = none ∧ rec.update ino di.generation = none ∧
      rec.write ino di = di) := by
  unfold JRec.write
  cases hSnap : rec.snapshot ino di.generation with
  | some snap =>
    refine .inl ⟨snap, rfl, rfl, ?_⟩
    cases rec with
    | inodeFull i s =>
      simp only [JRec.snapshot] at hSnap
      split at hSnap
      · rename_i hMatch
        cases hSnap
        exact hMatch.2
      · cases hSnap
    | _ => cases hSnap
  | none =>
    cases hUpd : rec.update ino di.generation with
    | some u => exact .inr (.inl ⟨u, rfl, rfl, rfl⟩)
    | none => exact .inr (.inr ⟨rfl, rfl, rfl⟩)

/-- No write changes the generation. -/
theorem write_generation (ino : Nat) (rec : JRec) (di : DiskInode) :
    (rec.write ino di).generation = di.generation := by
  rcases write_cases ino rec di with ⟨snap, -, hWrite, hGen⟩ | ⟨u, -, -, hWrite⟩ | ⟨-, -, hWrite⟩
  · rw [hWrite, hGen]
  · rw [hWrite, update_applyTo_generation]
  · rw [hWrite]

--
-- The cached copy
--

/-- What the records so far say about the cached copy of an inode: it has been
loaded, its slot has been written since, and a stale copy has been written over
the last snapshot. -/
structure Copy where
  cached      : Bool
  stale       : Bool
  overwritten : Bool
deriving DecidableEq, Repr

def Copy.step (ino gen : Nat) (t : Copy) (rec : JRec) : Copy :=
  match rec.snapshot ino gen, rec.update ino gen with
  | some _, _ => { t with stale := t.cached, overwritten := false }
  | none, some _ => { t with stale := t.cached }
  | none, none =>
    { t with
      cached := t.cached || rec.loads ino
      overwritten := t.overwritten || (t.stale && rec.rederives ino) }

/-- The copy after the records of a window, from an empty inode cache. -/
def copyAfter (ino gen : Nat) (recs : List JRec) : Copy :=
  recs.foldl (Copy.step ino gen) { cached := false, stale := false, overwritten := false }

/-- A disk inode that `briefs_iget` accepts and `iput` keeps. -/
def Alive (di : DiskInode) : Prop := di.magic = inodeMagic ∧ di.nlinks ≠ 0

/-- Each record of the window that loads the inode finds it alive, where `di` is
what the slot holds before the window and the snapshots and updates of its
generation are written to it in order. The last of these records may also find
a slot without the magic: then `briefs_iget` refuses it and nothing comes of
the half-built inode that this leaves in the cache. -/
def LoadsAlive (ino : Nat) : DiskInode → List JRec → Prop
  | _, [] => True
  | di, rec :: recs =>
    (rec.loads ino = true →
      Alive di ∨ di.magic ≠ inodeMagic ∧ ∀ later ∈ recs, later.loads ino = false) ∧
    LoadsAlive ino (rec.write ino di) recs

/-- A disk inode without its `dir_trie_root`, if that may differ. -/
def maskRoot (rederived : Bool) (di : DiskInode) : DiskInode :=
  if rederived then { di with dirTrieRoot := 0 } else di

/-- A copy of the incarnation `gen` that stays in the cache. -/
structure GoodCopy (gen : Nat) (c : CachedInode) : Prop where
  same   : c.diskInode.generation = gen
  alive  : Alive c.diskInode
  linked : c.nlink ≠ 0

/-- The slot and the cached copy of an inode of the incarnation `gen` before the
records `recs`. `di` is what the snapshots and updates so far have written; a
copy that was written over it is alive. -/
structure Tracked (recs : List JRec) (ino gen : Nat) (t : Copy) (di : DiskInode)
    (w : World σ) : Prop where
  same    : (w.slots ino).generation = gen
  written : di.generation = gen
  slot    : Alive (w.slots ino) ∨
    (w.slots ino).magic = di.magic ∧ (w.slots ino).nlinks = di.nlinks
  copy    : (∃ rec ∈ recs, rec.loads ino = true) → ∀ c, w.icache ino = some c →
    t.cached = true ∧ GoodCopy gen c ∧
      (t.stale = false → maskRoot true c.diskInode = maskRoot true (w.slots ino))

variable {recs : List JRec} {ino gen : Nat} {t : Copy} {di : DiskInode}

/-- `briefs_iget` of a tracked inode gives a good copy of it, or it is the last
time that the window loads the inode. -/
theorem iget_tracked {w : World σ} {rec : JRec} (hRead : readable ops ino)
    (hLoads : rec.loads ino = true) (hAlive : LoadsAlive ino di (rec :: recs))
    (h : Tracked (rec :: recs) ino gen t di w) :
    (∃ c w', iget ops w ino = (.ok c, w') ∧ w'.slots = w.slots ∧ GoodCopy gen c ∧
      (t.stale = false → maskRoot true c.diskInode = maskRoot true (w.slots ino))) ∨
    ∃ w', iget ops w ino = (.error .einval, w') ∧ w'.slots = w.slots ∧
      ∀ later ∈ recs, later.loads ino = false := by
  unfold iget
  split
  · rename_i c hCache hReclaimed
    obtain ⟨-, hGood, hSync⟩ := h.copy ⟨rec, List.mem_cons_self, hLoads⟩ c hCache
    exact .inl ⟨c, w, rfl, rfl, hGood, hSync⟩
  · rw [readInodeBlock_ok hRead]
    dsimp only
    by_cases hMagic : (w.slots ino).magic = inodeMagic
    · have hSlot : Alive (w.slots ino) := by
        rcases h.slot with hSlot | ⟨hM, hN⟩
        · exact hSlot
        · rcases hAlive.1 hLoads with hDi | ⟨hNot, -⟩
          · exact ⟨hMagic, hN ▸ hDi.2⟩
          · exact absurd (hM ▸ hMagic) hNot
      rw [if_pos hMagic]
      exact .inl ⟨fillInode (w.slots ino), _, rfl, rfl, ⟨h.same, hSlot, hSlot.2⟩, fun _ => rfl⟩
    · have hDi : ¬ Alive di := by
        intro hDi
        rcases h.slot with hSlot | ⟨hM, -⟩
        · exact hMagic hSlot.1
        · exact hMagic (hM.trans hDi.1)
      rw [if_neg hMagic]
      exact .inr ⟨_, rfl, rfl, ((hAlive.1 hLoads).resolve_left hDi).2⟩

theorem iput_live {w : World σ} {c : CachedInode} (h : c.nlink ≠ 0) :
    iput ops w ino c = w.cache ino (some c) := by
  unfold iput
  rw [if_neg h]

/-- The state after a record that loads the inode: the copy `c` is cached, and
the slot holds what it held or the copy. -/
theorem tracked_of_loaded {w w' : World σ} {rec : JRec} {c : CachedInode} {late : Bool}
    (h : Tracked (rec :: recs) ino gen t di w) (hCache : w'.icache ino = some c)
    (hGood : GoodCopy gen c)
    (hSync : t.stale = false → maskRoot true c.diskInode = maskRoot true (w.slots ino))
    (hSlot : w'.slots ino = w.slots ino ∨ w'.slots ino = c.diskInode) :
    Tracked recs ino gen { cached := true, stale := t.stale, overwritten := late } di w' := by
  refine ⟨?_, h.written, ?_, ?_⟩
  · rcases hSlot with hSlot | hSlot
    · rw [hSlot]
      exact h.same
    · rw [hSlot]
      exact hGood.same
  · rcases hSlot with hSlot | hSlot
    · rw [hSlot]
      exact h.slot
    · rw [hSlot]
      exact .inl hGood.alive
  · intro _ c' hc'
    rw [hCache] at hc'
    cases hc'
    refine ⟨rfl, hGood, ?_⟩
    intro hStale
    rcases hSlot with hSlot | hSlot
    · rw [hSlot]
      exact hSync hStale
    · rw [hSlot]

/-- The state after the last record that loads the inode, if that leaves the
slot as it is. -/
theorem tracked_of_last {w w' : World σ} {rec : JRec} {t' : Copy}
    (h : Tracked (rec :: recs) ino gen t di w) (hSlots : w'.slots = w.slots)
    (hLast : ∀ later ∈ recs, later.loads ino = false) : Tracked recs ino gen t' di w' := by
  refine ⟨hSlots ▸ h.same, h.written, hSlots ▸ h.slot, ?_⟩
  rintro ⟨later, hLater, hLoads⟩
  rw [hLast later hLater] at hLoads
  cases hLoads

/-- A directory update of a tracked directory. -/
theorem replayDirUpdate_tracked {w : World σ} {rec : DirUpdate} (hRead : readable ops ino)
    (hIno : rec.parentIno = ino) (hAlive : LoadsAlive ino di (.dirUpdate rec :: recs))
    (h : Tracked (.dirUpdate rec :: recs) ino gen t di w) (late : Bool) :
    Tracked recs ino gen { cached := true, stale := t.stale, overwritten := late } di
        (replayDirUpdate ops rec w).2 ∧
      (t.stale = false → maskRoot true ((replayDirUpdate ops rec w).2.slots ino) =
        maskRoot true (w.slots ino)) := by
  have hLoads : JRec.loads ino (.dirUpdate rec) = true := by simp [JRec.loads, hIno]
  unfold replayDirUpdate
  rw [hIno]
  rcases iget_tracked hRead hLoads hAlive h with
    ⟨c, w1, hGet, hSlots, hGood, hSync⟩ | ⟨w1, hGet, hSlots, hLast⟩
  · rw [hGet]
    dsimp only
    have hRun := run_inode ops ino (ops.trieUpdate w1.data (tableGet w1.pins) c rec) w1
    generalize (ops.trieUpdate w1.data (tableGet w1.pins) c rec).run ops w1 = d at hRun ⊢
    obtain ⟨⟨ret, root, data⟩, w2⟩ := d
    dsimp only at hRun ⊢
    have hSame : w2.slots ino = w.slots ino := by rw [hRun.slots, hSlots]
    -- only the root of the copy changes
    have hMask :
        maskRoot true { c.diskInode with dirTrieRoot := root } = maskRoot true c.diskInode := rfl
    have hGood' : GoodCopy gen
        { c with diskInode := { c.diskInode with dirTrieRoot := root }, trieSeeded := true } :=
      ⟨hGood.same, hGood.alive, hGood.linked⟩
    split
    · rw [iput_live]
      swap
      · exact hGood.linked
      refine ⟨tracked_of_loaded h (cache_icache_self _ _ _) hGood' hSync (.inl hSame), ?_⟩
      intro _
      rw [cache_slots]
      exact congrArg _ hSame
    · unfold persistDiskInode
      rw [readInodeBlock_ok hRead]
      dsimp only
      rw [iput_live]
      swap
      · exact hGood.linked
      refine ⟨tracked_of_loaded h (cache_icache_self _ _ _) hGood' hSync
        (.inr (setSlot_slots_self _ _ _)), ?_⟩
      intro hStale
      rw [cache_slots, setSlot_slots_self, hMask, hSync hStale]
  · rw [hGet]
    exact ⟨tracked_of_last h hSlots hLast, fun _ => by rw [hSlots]⟩

/-- Restoring the data of a tracked symbolic link. -/
theorem replaySymlinkData_tracked {w : World σ} {rec : SymlinkData} (hRead : readable ops ino)
    (hLoads : JRec.loads ino (.symlinkData rec) = true)
    (hAlive : LoadsAlive ino di (.symlinkData rec :: recs))
    (h : Tracked (.symlinkData rec :: recs) ino gen t di w) (late : Bool) :
    Tracked recs ino gen { cached := true, stale := t.stale, overwritten := late } di
        (replaySymlinkData ops rec w).2 ∧
      (replaySymlinkData ops rec w).2.slots ino = w.slots ino := by
  have hRec := hLoads
  simp only [JRec.loads, Bool.and_eq_true, beq_iff_eq, bne_iff_ne, ne_eq, decide_eq_true_eq]
    at hRec
  obtain ⟨⟨hIno, hLen⟩, hMax⟩ := hRec
  unfold replaySymlinkData
  rw [hIno, if_neg (by omega)]
  rcases iget_tracked hRead hLoads hAlive h with
    ⟨c, w1, hGet, hSlots, hGood, hSync⟩ | ⟨w1, hGet, hSlots, hLast⟩
  · rw [hGet]
    dsimp only
    have hSame : w1.slots ino = w.slots ino := by rw [hSlots]
    split
    · generalize ops.restoreSymlink w1.data c rec = d
      obtain ⟨ret, data⟩ := d
      dsimp only
      rw [iput_live hGood.linked]
      exact ⟨tracked_of_loaded h (cache_icache_self _ _ _) hGood hSync (.inl hSame), hSame⟩
    · rw [iput_live hGood.linked]
      exact ⟨tracked_of_loaded h (cache_icache_self _ _ _) hGood hSync (.inl hSame), hSame⟩
  · rw [hGet]
    exact ⟨tracked_of_last h hSlots hLast, by rw [hSlots]⟩

theorem step_of_loads {rec : JRec} (hLoads : rec.loads ino = true) :
    t.step ino gen rec = { cached := true, stale := t.stale
                           overwritten := t.overwritten || (t.stale && rec.rederives ino) } := by
  unfold Copy.step
  cases rec with
  | dirUpdate d => simp [JRec.snapshot, JRec.update, hLoads]
  | symlinkData s => simp [JRec.snapshot, JRec.update, hLoads]
  | _ => cases hLoads

/-- A record that loads the inode writes no snapshot or update of it. -/
theorem write_of_loads {rec : JRec} (hLoads : rec.loads ino = true) : rec.write ino di = di := by
  cases rec with
  | dirUpdate d => rfl
  | symlinkData s => rfl
  | _ => cases hLoads

/-- A record that loads the inode: the slot changes in its root at most, if the
copy is not stale. -/
theorem loads_applyRecord2 {w : World σ} {rec : JRec} (hRead : readable ops ino)
    (hLoads : rec.loads ino = true) (hAlive : LoadsAlive ino di (rec :: recs))
    (h : Tracked (rec :: recs) ino gen t di w) :
    Tracked recs ino gen (t.step ino gen rec) di (applyRecord ops false rec w).2 ∧
      (t.stale = false → maskRoot true ((applyRecord ops false rec w).2.slots ino) =
        maskRoot true (w.slots ino)) ∧
      (rec.rederives ino = false → (applyRecord ops false rec w).2.slots ino = w.slots ino) := by
  rw [step_of_loads hLoads]
  cases rec with
  | dirUpdate d =>
    have hIno : d.parentIno = ino := by simpa [JRec.loads] using hLoads
    obtain ⟨hTrack, hMask⟩ := replayDirUpdate_tracked hRead hIno hAlive h
      (t.overwritten || (t.stale && JRec.rederives ino (.dirUpdate d)))
    refine ⟨hTrack, hMask, ?_⟩
    intro hNot
    simp [JRec.rederives, hIno] at hNot
  | symlinkData s =>
    obtain ⟨hTrack, hSlot⟩ := replaySymlinkData_tracked hRead hLoads hAlive h
      (t.overwritten || (t.stale && JRec.rederives ino (.symlinkData s)))
    exact ⟨hTrack, fun _ => congrArg _ hSlot, fun _ => hSlot⟩
  | _ => cases hLoads

theorem rederives_of_not_loads {rec : JRec} (h : rec.loads ino = false) :
    rec.rederives ino = false := by
  cases rec with
  | dirUpdate d => exact h
  | _ => rfl

/-- One record of pass 2, for the slot and the copy of an inode. -/
theorem tracked_applyRecord2 {w : World σ} {rec : JRec} (hRead : readable ops ino)
    (hAlive : LoadsAlive ino di (rec :: recs)) (h : Tracked (rec :: recs) ino gen t di w) :
    Tracked recs ino gen (t.step ino gen rec) (rec.write ino di)
      (applyRecord ops false rec w).2 := by
  by_cases hLoads : rec.loads ino = true
  · rw [write_of_loads hLoads]
    exact (loads_applyRecord2 hRead hLoads hAlive h).1
  rw [Bool.not_eq_true] at hLoads
  obtain ⟨hSlot, hCache⟩ := slots_applyRecord2 ops w hRead hLoads
  have hGen : ((applyRecord ops false rec w).2.slots ino).generation = gen := by
    rw [hSlot, write_generation]
    exact h.same
  have hDi : (rec.write ino di).generation = gen := by
    rw [write_generation]
    exact h.written
  -- after a snapshot or an update a copy in the cache is stale
  have hCopy : ∀ {t' : Copy}, t'.cached = t.cached → t'.stale = t.cached →
      (∃ rec ∈ recs, rec.loads ino = true) →
      ∀ c, (applyRecord ops false rec w).2.icache ino = some c →
      t'.cached = true ∧ GoodCopy gen c ∧ (t'.stale = false → maskRoot true c.diskInode =
        maskRoot true ((applyRecord ops false rec w).2.slots ino)) := by
    rintro t' hC hS ⟨later, hLater, hLoad⟩ c hc
    rw [hCache] at hc
    obtain ⟨hCached, hGood, -⟩ := h.copy ⟨later, List.mem_cons_of_mem _ hLater, hLoad⟩ c hc
    exact ⟨hC.trans hCached, hGood, fun hStale => by simp [hS, hCached] at hStale⟩
  have hCases := write_cases ino rec (w.slots ino)
  rw [h.same] at hCases
  unfold Copy.step
  rcases hCases with ⟨snap, hSnap, hWrite, -⟩ | ⟨u, hSnap, hUpd, hWrite⟩ | ⟨hSnap, hUpd, hWrite⟩
  · have hBoth : rec.write ino di = snap := by
      unfold JRec.write
      rw [h.written, hSnap]
    rw [hSnap]
    refine ⟨hGen, hDi, .inr ?_, hCopy rfl rfl⟩
    rw [hSlot, hWrite, hBoth]
    exact ⟨rfl, rfl⟩
  · have hBoth : rec.write ino di = u.applyTo di := by
      unfold JRec.write
      rw [h.written, hSnap, hUpd]
    rw [hSnap, hUpd]
    refine ⟨hGen, hDi, .inr ?_, hCopy rfl rfl⟩
    rw [hSlot, hWrite, hBoth]
    exact ⟨rfl, rfl⟩
  · have hBoth : rec.write ino di = di :=
      write_of_none (by rw [h.written, hSnap]) (by rw [h.written, hUpd])
    rw [hSnap, hUpd]
    refine ⟨hGen, hDi, ?_, ?_⟩
    · rw [hSlot, hWrite, hBoth]
      exact h.slot
    · rintro ⟨later, hLater, hLoad⟩ c hc
      rw [hCache] at hc
      rw [hSlot, hWrite]
      obtain ⟨hCached, hRest⟩ := h.copy ⟨later, List.mem_cons_of_mem _ hLater, hLoad⟩ c hc
      exact ⟨by simp [hCached], hRest⟩

/-- A disk inode after an update record of its incarnation. -/
def JRec.applyUpdate (ino gen : Nat) (rec : JRec) (di : DiskInode) : DiskInode :=
  match rec.update ino gen with
  | some u => u.applyTo di
  | none => di

theorem maskRoot_or (a b : Bool) (di : DiskInode) :
    maskRoot (a || b) di = maskRoot b (maskRoot a di) := by
  cases a <;> cases b <;> rfl

theorem maskRoot_applyUpdate (b : Bool) (rec : JRec) (di : DiskInode) :
    maskRoot b (rec.applyUpdate ino gen di) = rec.applyUpdate ino gen (maskRoot b di) := by
  unfold JRec.applyUpdate
  cases rec.update ino gen with
  | none => rfl
  | some u => cases b <;> rfl

theorem update_of_loads {rec : JRec} (h : rec.loads ino = true) : rec.update ino gen = none := by
  cases rec with
  | inodeUpdate u => cases h
  | _ => rfl

/-- One record of pass 2 after the last snapshot: as long as no stale copy is
written back, the slot is the snapshot with the updates since, up to the root
of a directory that is re-derived. -/
theorem restoring_applyRecord2 {w : World σ} {rec : JRec} {red : Bool} {snap : DiskInode}
    (hRead : readable ops ino) (hAlive : LoadsAlive ino di (rec :: recs))
    (hLast : rec.snapshot ino gen = none) (h : Tracked (rec :: recs) ino gen t di w)
    (hSlot : t.overwritten = false → maskRoot red (w.slots ino) = maskRoot red snap)
    (hOver : (t.step ino gen rec).overwritten = false) :
    maskRoot (red || rec.rederives ino) ((applyRecord ops false rec w).2.slots ino) =
      maskRoot (red || rec.rederives ino) (rec.applyUpdate ino gen snap) := by
  by_cases hLoads : rec.loads ino = true
  · obtain ⟨-, hMask, hSame⟩ := loads_applyRecord2 hRead hLoads hAlive h
    rw [step_of_loads hLoads, Bool.or_eq_false_iff] at hOver
    have hUpd : rec.applyUpdate ino gen snap = snap := by
      unfold JRec.applyUpdate
      rw [update_of_loads hLoads]
    rw [hUpd]
    cases hRed : rec.rederives ino with
    | false =>
      rw [hSame hRed, Bool.or_false]
      exact hSlot hOver.1
    | true =>
      rw [hRed, Bool.and_true] at hOver
      rw [Bool.or_comm, maskRoot_or, maskRoot_or, hMask hOver.2, ← maskRoot_or, ← maskRoot_or,
        Bool.or_comm, maskRoot_or, maskRoot_or, hSlot hOver.1]
  · rw [Bool.not_eq_true] at hLoads
    rw [rederives_of_not_loads hLoads, Bool.or_false, (slots_applyRecord2 ops w hRead hLoads).1]
    have hOld : t.overwritten = false := by
      unfold Copy.step at hOver
      rw [hLast] at hOver
      cases hUpd : rec.update ino gen with
      | none =>
        rw [hUpd] at hOver
        exact (Bool.or_eq_false_iff.mp hOver).1
      | some u =>
        rw [hUpd] at hOver
        exact hOver
    have hWrite : rec.write ino (w.slots ino) = rec.applyUpdate ino gen (w.slots ino) := by
      unfold JRec.write JRec.applyUpdate
      rw [h.same, hLast]
      cases rec.update ino gen <;> rfl
    rw [hWrite, maskRoot_applyUpdate, maskRoot_applyUpdate, hSlot hOld]

--
-- Runs of pass 2
--

theorem applyPass_cons_snd (ops : FsOps σ) (pass : Bool) (rec : JRec) (recs : List JRec)
    (w : World σ) :
    (applyPass ops pass (rec :: recs) w).2 =
      (applyPass ops pass recs (applyRecord ops pass rec w).2).2 := by
  rw [applyPass_snd, applyPass_snd, List.foldl_cons]

theorem tracked_applyPass2 {later : List JRec} {w : World σ} (hRead : readable ops ino)
    (hAlive : LoadsAlive ino di (recs ++ later)) (h : Tracked (recs ++ later) ino gen t di w) :
    ∃ di', LoadsAlive ino di' later ∧
      Tracked later ino gen (recs.foldl (Copy.step ino gen) t) di'
        (applyPass ops false recs w).2 := by
  induction recs generalizing t di w with
  | nil => exact ⟨di, hAlive, h⟩
  | cons rec recs ih =>
    rw [applyPass_cons_snd, List.foldl_cons]
    exact ih hAlive.2 (tracked_applyRecord2 hRead hAlive h)

/-- Without a load there is no stale copy. -/
theorem overwritten_of_not_loads (hLoads : ∀ rec ∈ recs, rec.loads ino = false)
    (h : t.overwritten = false) : (recs.foldl (Copy.step ino gen) t).overwritten = false := by
  induction recs generalizing t with
  | nil => exact h
  | cons rec recs ih =>
    rw [List.foldl_cons]
    refine ih (fun r hr => hLoads r (List.mem_cons_of_mem _ hr)) ?_
    have hRed := rederives_of_not_loads (hLoads rec List.mem_cons_self)
    unfold Copy.step
    split
    · rfl
    · exact h
    · simp [h, hRed]

/-- A window that does not load the inode. -/
theorem loadsAlive_of_not_loads (hLoads : ∀ rec ∈ recs, rec.loads ino = false) :
    LoadsAlive ino di recs := by
  induction recs generalizing di with
  | nil => trivial
  | cons rec recs ih =>
    refine ⟨fun hLoad => ?_, ih (fun r hr => hLoads r (List.mem_cons_of_mem _ hr))⟩
    rw [hLoads rec List.mem_cons_self] at hLoad
    cases hLoad

/-- The records after the last snapshot. -/
theorem restoring_applyPass2 {w : World σ} {red : Bool} {snap : DiskInode}
    (hRead : readable ops ino) (hAlive : LoadsAlive ino di recs)
    (hLast : ∀ rec ∈ recs, rec.snapshot ino gen = none) (h : Tracked recs ino gen t di w)
    (hSlot : t.overwritten = false → maskRoot red (w.slots ino) = maskRoot red snap)
    (hOver : (recs.foldl (Copy.step ino gen) t).overwritten = false) :
    maskRoot (red || recs.any (JRec.rederives ino)) ((applyPass ops false recs w).2.slots ino) =
      maskRoot (red || recs.any (JRec.rederives ino))
        (recs.foldl (fun di rec => rec.applyUpdate ino gen di) snap) := by
  induction recs generalizing t w red di snap with
  | nil =>
    rw [List.any_nil, Bool.or_false]
    exact hSlot hOver
  | cons rec recs ih =>
    rw [applyPass_cons_snd, List.foldl_cons, List.any_cons, ← Bool.or_assoc]
    rw [List.foldl_cons] at hOver
    have hLastRec := hLast rec List.mem_cons_self
    exact ih hAlive.2 (fun r hr => hLast r (List.mem_cons_of_mem _ hr))
      (tracked_applyRecord2 hRead hAlive h)
      (restoring_applyRecord2 hRead hAlive hLastRec h hSlot) hOver

/-- The errors counted so far stay counted. -/
theorem errors_le_foldl (ops : FsOps σ) (pass : Bool) : ∀ (recs : List JRec) (acc : Nat × World σ),
    acc.1 ≤ (recs.foldl (fun acc rec =>
      let (ret, w) := applyRecord ops pass rec acc.2
      (if skippable ret then acc.1 else acc.1 + 1, w)) acc).1 := by
  intro recs
  induction recs with
  | nil => exact fun acc => Nat.le_refl _
  | cons r recs ih =>
    intro acc
    rw [List.foldl_cons]
    refine Nat.le_trans ?_ (ih _)
    dsimp only
    split
    · exact Nat.le_refl _
    · exact Nat.le_succ _

/-- A pass without errors: no record of it failed. -/
theorem skippable_of_applyPass (ops : FsOps σ) (pass : Bool) (pre post : List JRec) (rec : JRec)
    (w : World σ) (h : (applyPass ops pass (pre ++ rec :: post) w).1 = 0) :
    skippable (applyRecord ops pass rec (applyPass ops pass pre w).2).1 = true := by
  by_contra hNot
  unfold applyPass at h hNot
  rw [List.foldl_append, List.foldl_cons] at h
  have hLe := (errors_le_foldl ops pass post _).trans_eq h
  dsimp only at hLe
  rw [if_neg hNot] at hLe
  omega

--
-- The slot after replay
--

/-- The record snapshots, allocates or frees the inode. -/
def JRec.namesInode (ino : Nat) : JRec → Bool
  | .inodeFull i _ => i == ino
  | .inodeAlloc i => i == ino
  | .inodeFree i => i == ino
  | _ => false

/-- `snap` is the last snapshot of an inode that is allocated at the end of the
window, and of its final incarnation: the records `post` after it neither
snapshot, allocate nor free the inode. -/
structure FinalSnapshot (ops : FsOps σ) (recs : List JRec) (w : World σ) (ino : Nat)
    (snap : DiskInode) (post : List JRec) : Prop where
  split     : ∃ pre, recs = pre ++ .inodeFull ino snap :: post
  last      : ∀ rec ∈ post, rec.namesInode ino = false
  allocated : inodeAllocated (afterPass1 ops recs w) ino = true

/-- The slot is the snapshot with the later updates of its incarnation, except
for the link count and, if the directory is re-derived later, for its root. -/
def Restored (ops : FsOps σ) (recs : List JRec) (w : World σ) (ino : Nat) (snap : DiskInode)
    (post : List JRec) : Prop :=
  maskRoot (post.any (JRec.rederives ino))
      { (replayRecords ops recs w).2.slots ino with nlinks := 0 } =
    maskRoot (post.any (JRec.rederives ino))
      { post.foldl (fun di rec => rec.applyUpdate ino snap.generation di) snap with nlinks := 0 }

/-- Every record of the window that loads the inode finds it: the inode cache
starts without it, and the slot is that of a linked inode. -/
structure LoadsFind (recs : List JRec) (w : World σ) (ino : Nat) : Prop where
  uncached : (∃ rec ∈ recs, rec.loads ino = true) → w.icache ino = none
  alive    : LoadsAlive ino (w.slots ino) recs

/-- The slot holds the incarnation of the snapshot when replay starts, every
record that loads the inode finds it, and no `DIR_UPDATE` after the last
snapshot comes after a snapshot or an update of the inode that comes after the
record that loaded it. -/
structure Restorable (recs : List JRec) (w : World σ) (ino : Nat) (snap : DiskInode) : Prop where
  generation : (w.slots ino).generation = snap.generation
  found      : LoadsFind recs w ino
  fresh      : (copyAfter ino snap.generation recs).overwritten = false

theorem replayRecords_slots (ops : FsOps σ) (recs : List JRec) (w : World σ) (ino : Nat) :
    { (replayRecords ops recs w).2.slots ino with nlinks := 0 } =
      ({ (applyPass ops false recs (afterPass1 ops recs w)).2.slots ino with nlinks := 0 } :
        DiskInode) := by
  have hErr : (applyPass ops true recs w.init).1 = 0 := applyPass1_errors ops recs w.init
  unfold replayRecords
  simp only [hErr, ne_eq, not_true_eq_false, if_false]
  unfold reconcileNlinks
  split
  · rfl
  · dsimp only
    split <;> rfl

/-- Replay returns 0 only if no record fails in pass 2. -/
theorem errors_of_replayRecords {recs : List JRec} {w : World σ}
    (hRet : (replayRecords ops recs w).1 = none) :
    (applyPass ops false recs (afterPass1 ops recs w)).1 = 0 := by
  have hErr : (applyPass ops true recs w.init).1 = 0 := applyPass1_errors ops recs w.init
  unfold replayRecords at hRet
  simp only [hErr, ne_eq, not_true_eq_false, if_false] at hRet
  by_contra hNe
  rw [if_neg hNe] at hRet
  cases hRet

/-- An inode whose snapshot is applied without an error can be read. -/
theorem readable_of_finalSnapshot {recs post : List JRec} {w : World σ} {snap : DiskInode}
    (hRet : (replayRecords ops recs w).1 = none) (h : FinalSnapshot ops recs w ino snap post) :
    readable ops ino := by
  obtain ⟨pre, rfl⟩ := h.split
  have hZero : ino ≠ 0 := by
    intro hIno
    have hAlloc := h.allocated
    unfold inodeAllocated at hAlloc
    rw [hIno] at hAlloc
    exact absurd hAlloc (by simp)
  refine ⟨hZero, ?_⟩
  by_contra hRange
  have hSkip := skippable_of_applyPass ops false pre post (.inodeFull ino snap) _
    (errors_of_replayRecords hRet)
  dsimp only [applyRecord] at hSkip
  unfold replayInodeFull readInodeBlock at hSkip
  rw [if_neg Bool.false_ne_true, if_neg hZero, if_neg hRange] at hSkip
  exact absurd hSkip Bool.false_ne_true

theorem snapshot_of_namesInode {rec : JRec} (h : rec.namesInode ino = false) :
    rec.snapshot ino gen = none := by
  cases rec with
  | inodeFull i s =>
    have hNe : i ≠ ino := by simpa [JRec.namesInode] using h
    simp [JRec.snapshot, hNe]
  | _ => rfl

theorem maskRoot_nlinks (b : Bool) (di : DiskInode) :
    maskRoot b { di with nlinks := 0 } = { maskRoot b di with nlinks := 0 } := by
  cases b <;> rfl

theorem maskRoot_generation (b : Bool) (di : DiskInode) :
    (maskRoot b di).generation = di.generation := by
  cases b <;> rfl

theorem foldl_applyUpdate_generation (recs : List JRec) (di : DiskInode) :
    (recs.foldl (fun di rec => JRec.applyUpdate ino gen rec di) di).generation =
      di.generation := by
  induction recs generalizing di with
  | nil => rfl
  | cons rec recs ih =>
    rw [List.foldl_cons, ih]
    unfold JRec.applyUpdate
    split <;> rfl

/-- The state before pass 2. -/
theorem tracked_afterPass1 (ops : FsOps σ) {w : World σ} (h : LoadsFind recs w ino)
    (hGen : (w.slots ino).generation = gen) :
    Tracked recs ino gen { cached := false, stale := false, overwritten := false }
      (w.slots ino) (afterPass1 ops recs w) := by
  obtain ⟨-, -, -, hSlots, hCache⟩ := applyPass1_frame ops recs w.init
  have hSlots' : (afterPass1 ops recs w).slots = w.slots := hSlots
  have hCache' : (afterPass1 ops recs w).icache = w.icache := hCache
  refine ⟨?_, hGen, ?_, fun hLoads c hc => ?_⟩
  · rw [hSlots']
    exact hGen
  · rw [hSlots']
    exact .inr ⟨rfl, rfl⟩
  · rw [hCache', h.uncached hLoads] at hc
    cases hc

/-- The slot after pass 2, for a restorable inode. -/
theorem restored_of_restorable {post : List JRec} {w : World σ} {snap : DiskInode}
    (hRead : readable ops ino) (hFinal : FinalSnapshot ops recs w ino snap post)
    (h : Restorable recs w ino snap) : Restored ops recs w ino snap post := by
  have hStart := tracked_afterPass1 ops h.found h.generation
  have hAlive := h.found.alive
  have hOver := h.fresh
  unfold copyAfter at hOver
  unfold Restored
  rw [replayRecords_slots]
  obtain ⟨pre, hSplit⟩ := hFinal.split
  have hEnd : (applyPass ops false recs (afterPass1 ops recs w)).2 =
      (applyPass ops false post (applyRecord ops false (.inodeFull ino snap)
        (applyPass ops false pre (afterPass1 ops recs w)).2).2).2 := by
    rw [← applyPass_cons_snd, ← applyPass_append, ← hSplit]
  rw [hEnd]
  generalize afterPass1 ops recs w = w1 at hStart ⊢
  rw [hSplit] at hStart hAlive
  obtain ⟨di, hAlive, hPre⟩ := tracked_applyPass2 hRead hAlive hStart
  have hSnap := tracked_applyRecord2 hRead hAlive hPre
  -- the last snapshot is applied, since the slot still has its generation
  have hApplied : (applyRecord ops false (.inodeFull ino snap)
      (applyPass ops false pre w1).2).2.slots ino = snap := by
    rw [(slots_applyRecord2 ops _ hRead rfl).1]
    unfold JRec.write
    rw [hPre.same]
    simp [JRec.snapshot]
  have hBase : maskRoot false ((applyRecord ops false (.inodeFull ino snap)
      (applyPass ops false pre w1).2).2.slots ino) = maskRoot false snap := by
    rw [hApplied]
  have hPost := restoring_applyPass2 hRead hAlive.2
    (fun rec hRec => snapshot_of_namesInode (hFinal.last rec hRec)) hSnap
    (fun _ => hBase) (by
      rw [hSplit, List.foldl_append, List.foldl_cons] at hOver
      exact hOver)
  rw [Bool.false_or] at hPost
  rw [maskRoot_nlinks, maskRoot_nlinks, hPost]

/-- A slot that replay restores had the generation of the snapshot. -/
theorem generation_of_restored {post : List JRec} {w : World σ} {snap : DiskInode}
    (hRead : readable ops ino) (hFound : LoadsFind recs w ino)
    (h : Restored ops recs w ino snap post) : (w.slots ino).generation = snap.generation := by
  unfold Restored at h
  rw [replayRecords_slots] at h
  have hGen := congrArg DiskInode.generation h
  rw [maskRoot_generation, maskRoot_generation] at hGen
  have hStart := tracked_afterPass1 ops hFound rfl
  have hAlive := hFound.alive
  rw [← List.append_nil recs] at hAlive hStart
  obtain ⟨di, -, hEnd⟩ := tracked_applyPass2 hRead hAlive hStart
  rw [List.append_nil] at hEnd
  rw [← hEnd.same, ← foldl_applyUpdate_generation post snap]
  exact hGen

/-- **Replay restores inodes.** The slot of an inode with a final snapshot in
the window holds that snapshot after replay if it was restorable. Where the
records that load the inode find it, it can only do so if the slot had the
generation of the snapshot when replay started, and if no record of the window
loads the inode, that is all it needs. -/
theorem replay_restores_inode (ops : FsOps σ) (recs : List JRec) (w : World σ) {ino : Nat}
    {snap : DiskInode} {post : List JRec} (hRet : (replayRecords ops recs w).1 = none)
    (hFinal : FinalSnapshot ops recs w ino snap post) :
    (Restorable recs w ino snap → Restored ops recs w ino snap post) ∧
      (LoadsFind recs w ino → Restored ops recs w ino snap post →
        (w.slots ino).generation = snap.generation) ∧
      ((∀ rec ∈ recs, rec.loads ino = false) →
        (Restored ops recs w ino snap post ↔ (w.slots ino).generation = snap.generation)) := by
  have hRead := readable_of_finalSnapshot hRet hFinal
  refine ⟨restored_of_restorable hRead hFinal, generation_of_restored hRead, ?_⟩
  intro hLoads
  have hFound : LoadsFind recs w ino := by
    refine ⟨?_, loadsAlive_of_not_loads hLoads⟩
    rintro ⟨rec, hRec, hTrue⟩
    rw [hLoads rec hRec] at hTrue
    cases hTrue
  constructor
  · exact generation_of_restored hRead hFound
  · intro hGen
    exact restored_of_restorable hRead hFinal
      ⟨hGen, hFound, overwritten_of_not_loads hLoads rfl⟩

/-- A new empty file, inode 2. -/
def newFile : DiskInode :=
  { DiskInode.zero with
    inodeNumber := 2, magic := inodeMagic, filemode := 0o100644, nlinks := 1, parentInode := 1
    generation := 7 }

/-- The directory with the entry of the new file. -/
def filledDir : DiskInode :=
  { DiskInode.zero with
    inodeNumber := 1, magic := inodeMagic, filemode := 0o40755, nlinks := 2, filesize := 11
    dirTrieRoot := 14528 }

/-- The records after the snapshot of the new file: its entry in the directory
and the snapshot of the directory. -/
def createTail : List JRec :=
  [.dirUpdate { parentIno := 1, childIno := 2, op := 0, ftype := 8, name := [97] },
   .inodeFull 1 filledDir]

/-- The records of the creation of a file in an empty directory. -/
def createWindow : List JRec :=
  [.inodeAlloc 2, .trieAlloc 227 0] ++ .inodeFull 2 newFile :: createTail

/-- The inode block of the new file did not reach the disk: replay succeeds and
the slot stays blank. -/
theorem replay_loses_created_inode :
    (replayRecords emptyDirOps createWindow emptyDirWorld).1 = none ∧
      FinalSnapshot emptyDirOps createWindow emptyDirWorld 2 newFile createTail ∧
      (replayRecords emptyDirOps createWindow emptyDirWorld).2.slots 2 = DiskInode.zero ∧
      ¬ Restored emptyDirOps createWindow emptyDirWorld 2 newFile createTail := by
  refine ⟨by decide, ⟨⟨_, rfl⟩, by decide, by decide⟩, by decide, ?_⟩
  unfold Restored
  decide

/-- A directory whose last snapshot has no links is restorable, if it is loaded
before. -/
example : Restorable
    [.trieAlloc 227 0,
     .dirUpdate { parentIno := 1, childIno := 2, op := 0, ftype := 8, name := [97] },
     .inodeFull 1 { filledDir with nlinks := 0 }]
    emptyDirWorld 1 { filledDir with nlinks := 0 } := by
  refine ⟨by decide, ⟨fun _ => rfl, ?_⟩, by decide⟩
  simp only [LoadsAlive, Alive]
  decide

/-- The in-place write of the new inode reached the disk. -/
def writtenWorld : World (List DirUpdate) :=
  emptyDirWorld.setSlot 2 { newFile with filesize := 3 }

/-- Then replay of the same window restores the file, and the directory that it
loads before the snapshot of it. -/
theorem replay_restores_created_inode :
    (replayRecords emptyDirOps createWindow writtenWorld).1 = none ∧
      FinalSnapshot emptyDirOps createWindow writtenWorld 2 newFile createTail ∧
      Restored emptyDirOps createWindow writtenWorld 2 newFile createTail ∧
      FinalSnapshot emptyDirOps createWindow writtenWorld 1 filledDir [] ∧
      Restored emptyDirOps createWindow writtenWorld 1 filledDir [] := by
  have hRet : (replayRecords emptyDirOps createWindow writtenWorld).1 = none := by decide
  have hFile : FinalSnapshot emptyDirOps createWindow writtenWorld 2 newFile createTail :=
    ⟨⟨_, rfl⟩, by decide, by decide⟩
  have hDir : FinalSnapshot emptyDirOps createWindow writtenWorld 1 filledDir [] :=
    ⟨⟨[.inodeAlloc 2, .trieAlloc 227 0, .inodeFull 2 newFile,
      .dirUpdate { parentIno := 1, childIno := 2, op := 0, ftype := 8, name := [97] }], rfl⟩,
      by decide, by decide⟩
  have hIff := (replay_restores_inode emptyDirOps createWindow writtenWorld hRet hFile).2.2
    (by decide)
  have hFound : LoadsFind createWindow writtenWorld 1 := by
    refine ⟨fun _ => rfl, ?_⟩
    simp only [createWindow, createTail, List.cons_append, List.nil_append, LoadsAlive, Alive]
    decide
  have hLoaded := (replay_restores_inode emptyDirOps createWindow writtenWorld hRet hDir).1
    ⟨by decide, hFound, by decide⟩
  exact ⟨hRet, hFile, hIff.mpr (by decide), hDir, hLoaded⟩

end Briefs.Replay
