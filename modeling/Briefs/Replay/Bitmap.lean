import Briefs.Replay.Rederive

/-!
# BrieFS — the data bitmap after replay

The window is applied twice. The last record on a block decides whether the
block should be taken or free, but the second pass re-applies only the extent
and trie records: the reservation that an xattr record makes in pass 1 is undone
when an earlier record of the window frees the block, and nothing restores it.

The second pass also frees and takes blocks one record at a time, so between
its records the bitmap is not the one of the end of pass 1, and a trie page
that re-derivation takes from the allocator can be a block that a later record
of the window owns.

## Results

* `isFree_applyPass1`, `isFree_applyPass2` — the bitmap after each pass, for a
  block that re-derivation leaves alone.
* `replay_bitmap_right_iff` — the bitmap agrees with the last records exactly
  when no block is freed by its last extent or trie record and reused for an
  xattr block after that.
* `rederive_takes_free_of_frees_free` — as long as pass 2 frees only blocks that
  are free at the end of pass 1, re-derivation takes only such blocks.
-/

namespace Briefs.Replay

open Briefs.Journal

variable {σ : Type} {ops : FsOps σ}

--
-- What a record says about a block
--

/-- The effect of a record on the data-relative block `b`: `some true` frees it,
`some false` allocates it. -/
def JRec.bitOp (dataStart b : Nat) : JRec → Option Bool
  | .extentAlloc phys len => if b ∈ extentBlocks dataStart phys len then some false else none
  | .extentFree phys len =>
    if absToData dataStart phys ≤ b ∧ b < absToData dataStart phys + len then some true else none
  | .trieAlloc block op =>
    if b = absToData dataStart block then some (decide (op ≠ 0)) else none
  | .xattrData x =>
    if x.physBlock ≠ 0 ∧ b = absToData dataStart x.physBlock then some false else none
  | _ => none

def JRec.isXattr : JRec → Bool
  | .xattrData _ => true
  | _ => false

/-- The effect that pass 2 repeats. -/
def JRec.bitOp2 (dataStart b : Nat) (rec : JRec) : Option Bool :=
  if rec.isXattr then none else rec.bitOp dataStart b

/-- The last record of the window on a block. -/
def lastOp (dataStart : Nat) (recs : List JRec) (b : Nat) : Option Bool :=
  (recs.filterMap (JRec.bitOp dataStart b)).getLast?

/-- The last extent or trie record of the window on a block. -/
def lastOp2 (dataStart : Nat) (recs : List JRec) (b : Nat) : Option Bool :=
  (recs.filterMap (JRec.bitOp2 dataStart b)).getLast?

/-- Applying optional writes in order leaves the last one. -/
theorem foldl_getD_eq_getLast {α β : Type} (f : α → Option β) : ∀ (l : List α) (v : β),
    l.foldl (fun v x => (f x).getD v) v = ((l.filterMap f).getLast?).getD v
  | [], v => rfl
  | x :: l, v => by
    rw [List.foldl_cons, foldl_getD_eq_getLast f l]
    cases hx : f x with
    | none => simp [hx]
    | some y =>
      rw [List.filterMap_cons_some hx, List.getLast?_cons]
      cases (l.filterMap f).getLast? <;> rfl

--
-- Pass 1
--

theorem isFree_foldl_reserveBlock (b : Nat) : ∀ (l : List Nat) (a : Alloc), b < a.blockCount →
    (l.foldl Alloc.reserveBlock a).isFree b = (a.isFree b && !decide (b ∈ l))
  | [], a, _ => by simp
  | rel :: l, a, hb => by
    rw [List.foldl_cons, isFree_foldl_reserveBlock b l _ (by simpa using hb),
      Alloc.isFree_reserveBlock]
    by_cases hEq : b = rel
    · subst hEq
      simp [hb]
    · simp [hEq]

theorem blockCount_foldl_reserveBlock : ∀ (l : List Nat) (a : Alloc),
    (l.foldl Alloc.reserveBlock a).blockCount = a.blockCount
  | [], _ => rfl
  | rel :: l, a => by
    rw [List.foldl_cons, blockCount_foldl_reserveBlock l, Alloc.blockCount_reserveBlock]

/-- The allocator after an extent or trie record, in either pass. -/
theorem isFree_of_bitOp (ops : FsOps σ) {w : World σ} {b : Nat} (hb : b < w.alloc.blockCount) (pass : Bool)
    {rec : JRec} (hRec : rec.isXattr = false) (hDir : ∀ d, rec ≠ .dirUpdate d)
    (hSym : ∀ s, rec ≠ .symlinkData s) :
    (applyRecord ops pass rec w).2.alloc.isFree b =
        (rec.bitOp ops.dataStart b).getD (w.alloc.isFree b) ∧
      (applyRecord ops pass rec w).2.alloc.blockCount = w.alloc.blockCount := by
  cases rec with
  | dirUpdate d => exact absurd rfl (hDir d)
  | symlinkData s => exact absurd rfl (hSym s)
  | xattrData x => cases hRec
  | inodeAlloc ino =>
    simp only [applyRecord, JRec.bitOp, Option.getD_none]
    split <;> exact ⟨rfl, rfl⟩
  | inodeFree ino =>
    simp only [applyRecord, JRec.bitOp, Option.getD_none]
    split <;> exact ⟨rfl, rfl⟩
  | inodeUpdate u =>
    simp only [applyRecord, JRec.bitOp, Option.getD_none, replayInodeUpdate]
    split
    · exact ⟨rfl, rfl⟩
    · split
      · exact ⟨rfl, rfl⟩
      · exact ⟨rfl, rfl⟩
      · split <;> exact ⟨rfl, rfl⟩
  | inodeFull ino snap =>
    simp only [applyRecord, JRec.bitOp, Option.getD_none, replayInodeFull]
    split
    · exact ⟨rfl, rfl⟩
    · split
      · exact ⟨rfl, rfl⟩
      · exact ⟨rfl, rfl⟩
      · split <;> exact ⟨rfl, rfl⟩
  | extentAlloc phys len =>
    simp only [applyRecord, JRec.bitOp, replayExtentAlloc]
    refine ⟨?_, blockCount_foldl_reserveBlock _ _⟩
    rw [isFree_foldl_reserveBlock b _ _ hb]
    by_cases hMem : b ∈ extentBlocks ops.dataStart phys len
    · simp [hMem]
    · simp [hMem]
  | extentFree phys len =>
    simp only [applyRecord, JRec.bitOp, replayExtentFree]
    refine ⟨?_, Alloc.blockCount_freeBlocks _ _ _⟩
    rw [Alloc.isFree_freeBlocks]
    by_cases hIn : absToData ops.dataStart phys ≤ b ∧ b < absToData ops.dataStart phys + len
    · simp [hIn, hb]
    · have hOut : ¬ (absToData ops.dataStart phys ≤ b ∧
          b < absToData ops.dataStart phys + len ∧ b < w.alloc.blockCount) :=
        fun h => hIn ⟨h.1, h.2.1⟩
      simp [hIn, hOut]
  | trieAlloc block op =>
    simp only [applyRecord, JRec.bitOp, replayTrieAlloc]
    by_cases hOp : op = 0
    · have hAlloc : ∀ w' : World σ, w'.alloc = w.alloc.reserveBlock (absToData ops.dataStart block) →
          w'.alloc.isFree b = (if b = absToData ops.dataStart block then
            some (decide (op ≠ 0)) else none).getD (w.alloc.isFree b) ∧
          w'.alloc.blockCount = w.alloc.blockCount := by
        intro w' hw'
        rw [hw']
        refine ⟨?_, Alloc.blockCount_reserveBlock _ _⟩
        rw [Alloc.isFree_reserveBlock]
        by_cases hEq : b = absToData ops.dataStart block
        · subst hEq
          simp [hOp, hb]
        · simp [hEq]
      apply hAlloc
      simp only [hOp, if_true]
      split <;> rfl
    · simp only [hOp, if_false]
      refine ⟨?_, Alloc.blockCount_freeBlocks _ _ _⟩
      rw [Alloc.isFree_freeBlocks]
      by_cases hEq : b = absToData ops.dataStart block
      · subst hEq
        simp [hOp, hb]
      · have hOut : ¬ (absToData ops.dataStart block ≤ b ∧
            b < absToData ops.dataStart block + 1 ∧ b < w.alloc.blockCount) := by omega
        rw [if_neg hEq, Option.getD_none, decide_eq_false hOut, Bool.or_false]

/-- One record of pass 1. -/
theorem isFree_applyRecord1 (ops : FsOps σ) {w : World σ} {b : Nat} (hb : b < w.alloc.blockCount) (rec : JRec) :
    (applyRecord ops true rec w).2.alloc.isFree b =
        (rec.bitOp ops.dataStart b).getD (w.alloc.isFree b) ∧
      (applyRecord ops true rec w).2.alloc.blockCount = w.alloc.blockCount := by
  by_cases hRec : rec.isXattr = true
  · cases rec with
    | xattrData x =>
      simp only [applyRecord, JRec.bitOp, if_true]
      by_cases hPhys : x.physBlock = 0
      · simp [hPhys]
      · simp only [hPhys, if_false]
        refine ⟨?_, Alloc.blockCount_reserveBlock _ _⟩
        rw [Alloc.isFree_reserveBlock]
        by_cases hEq : b = absToData ops.dataStart x.physBlock
        · subst hEq
          simp [hPhys, hb]
        · simp [hEq]
    | _ => cases hRec
  · by_cases hDir : ∃ d, rec = .dirUpdate d
    · obtain ⟨d, rfl⟩ := hDir
      exact ⟨rfl, rfl⟩
    · by_cases hSym : ∃ s, rec = .symlinkData s
      · obtain ⟨s, rfl⟩ := hSym
        exact ⟨rfl, rfl⟩
      · exact isFree_of_bitOp ops hb true (by simpa using hRec) (fun d h => hDir ⟨d, h⟩)
          (fun s h => hSym ⟨s, h⟩)

/-- The bitmap after pass 1: the last record on a block decides. -/
theorem isFree_applyPass1 (ops : FsOps σ) (recs : List JRec) {w : World σ} {b : Nat}
    (hb : b < w.alloc.blockCount) :
    (applyPass ops true recs w).2.alloc.isFree b =
        (lastOp ops.dataStart recs b).getD (w.alloc.isFree b) ∧
      (applyPass ops true recs w).2.alloc.blockCount = w.alloc.blockCount := by
  rw [applyPass_snd]
  unfold lastOp
  rw [← foldl_getD_eq_getLast]
  induction recs generalizing w with
  | nil => exact ⟨rfl, rfl⟩
  | cons rec recs ih =>
    rw [List.foldl_cons, List.foldl_cons]
    obtain ⟨hBit, hCount⟩ := isFree_applyRecord1 ops hb rec
    obtain ⟨hBits, hCounts⟩ := ih (w := (applyRecord ops true rec w).2) (by omega)
    rw [hBits, hBit]
    exact ⟨rfl, hCounts.trans hCount⟩

--
-- Pass 2
--

/-- Re-derivation took the block or gave it back. -/
def Taken.touches (b : Nat) : Taken → Prop
  | .popped rel    => b = rel
  | .allocated rel => b = rel
  | .freed rel n   => rel ≤ b ∧ b < rel + n

def Untouched (b : Nat) (history : List Taken) : Prop := ∀ e ∈ history, ¬ e.touches b

theorem untouched_append {b : Nat} {h h' : List Taken} :
    Untouched b (h ++ h') ↔ Untouched b h ∧ Untouched b h' := by
  unfold Untouched
  simp only [List.mem_append, or_imp, forall_and]

/-- The bit of `b` is `v` unless re-derivation touched it. -/
def Tracks (b : Nat) (v : Bool) (count : Nat) (a : Alloc) (_ : List Nat) (h : List Taken) : Prop :=
  a.blockCount = count ∧ (Untouched b h → a.isFree b = v)

theorem stable_tracks {dataStart b count : Nat} {v : Bool} {ex : List Nat} (hb : b ≠ 0) :
    Stable dataStart ex (Tracks b v count) := by
  refine ⟨?_, ?_, ?_, ?_⟩
  · rintro a pool h rel rest ⟨hCount, hBit⟩ -
    exact ⟨hCount, fun hU => hBit (untouched_append.mp hU).1⟩
  · rintro a a' pool h rel rest ⟨hCount, hBit⟩ - hTook hRel
    refine ⟨hTook.blockCount.trans hCount, ?_⟩
    intro hU
    obtain ⟨hOld, hNew⟩ := untouched_append.mp hU
    have hNe : b ≠ rel := hNew (.allocated rel) (by simp)
    rw [hTook.frame b hb, hBit hOld]
    simp [hNe]
  · rintro a a' pool h rest ⟨hCount, hBit⟩ - hTook
    refine ⟨hTook.blockCount.trans hCount, ?_⟩
    intro hU
    rw [hTook.frame b hb, hBit hU]
    simp [hb]
  · rintro a pool h rel n ⟨hCount, hBit⟩
    refine ⟨(Alloc.blockCount_freeBlocks a rel n).trans hCount, ?_⟩
    intro hU
    obtain ⟨hOld, hNew⟩ := untouched_append.mp hU
    have hOut : ¬ (rel ≤ b ∧ b < rel + n) := hNew (.freed rel n) (by simp)
    rw [Alloc.isFree_freeBlocks, hBit hOld]
    have hOut' : ¬ (rel ≤ b ∧ b < rel + n ∧ b < a.blockCount) := fun h => hOut ⟨h.1, h.2.1⟩
    simp [hOut']

/-- Records that run no trie code leave history and excluded set alone. -/
theorem applyRecord2_frame (ops : FsOps σ) (rec : JRec) (w : World σ)
    (hDir : ∀ d, rec ≠ .dirUpdate d) (hSym : ∀ s, rec ≠ .symlinkData s) :
    (applyRecord ops false rec w).2.history = w.history ∧
      (applyRecord ops false rec w).2.excluded = w.excluded ∧
      (applyRecord ops false rec w).2.pool = w.pool := by
  cases rec with
  | dirUpdate d => exact absurd rfl (hDir d)
  | symlinkData s => exact absurd rfl (hSym s)
  | inodeAlloc ino =>
    simp only [applyRecord]
    split <;> exact ⟨rfl, rfl, rfl⟩
  | inodeFree ino =>
    simp only [applyRecord]
    split <;> exact ⟨rfl, rfl, rfl⟩
  | inodeUpdate u =>
    simp only [applyRecord, replayInodeUpdate, Bool.false_eq_true, if_false]
    split
    · exact ⟨rfl, rfl, rfl⟩
    · exact ⟨rfl, rfl, rfl⟩
    · split <;> exact ⟨rfl, rfl, rfl⟩
  | inodeFull ino snap =>
    simp only [applyRecord, replayInodeFull, Bool.false_eq_true, if_false]
    split
    · exact ⟨rfl, rfl, rfl⟩
    · exact ⟨rfl, rfl, rfl⟩
    · split <;> exact ⟨rfl, rfl, rfl⟩
  | extentAlloc phys len => exact ⟨rfl, rfl, rfl⟩
  | extentFree phys len => exact ⟨rfl, rfl, rfl⟩
  | trieAlloc block op =>
    simp only [applyRecord, replayTrieAlloc, Bool.false_eq_true, if_false]
    split <;> exact ⟨rfl, rfl, rfl⟩
  | xattrData x =>
    simp only [applyRecord, replayXattrData, Bool.false_eq_true, if_false]
    split
    · exact ⟨rfl, rfl, rfl⟩
    · split <;> exact ⟨rfl, rfl, rfl⟩

theorem alloc_applyRecord2_xattr (x : XattrData) (w : World σ) :
    (applyRecord ops false (.xattrData x) w).2.alloc = w.alloc := by
  simp only [applyRecord, replayXattrData, Bool.false_eq_true, if_false]
  split
  · rfl
  · split <;> rfl

/-- One record of pass 2. -/
theorem tracks_applyRecord2 {b count : Nat} {v : Bool} {ex : List Nat} (hb : b ≠ 0)
    (hDev : b < count) (rec : JRec) {w : World σ} (h : Holds ex (Tracks b v count) w) :
    Holds ex (Tracks b ((rec.bitOp2 ops.dataStart b).getD v) count)
      (applyRecord ops false rec w).2 := by
  by_cases hDir : ∃ d, rec = .dirUpdate d
  · obtain ⟨d, rfl⟩ := hDir
    exact (stable_tracks hb).replayDirUpdate h d
  by_cases hSym : ∃ s, rec = .symlinkData s
  · obtain ⟨s, rfl⟩ := hSym
    exact (stable_tracks hb).replaySymlinkData h s
  obtain ⟨hHist, hEx, -⟩ := applyRecord2_frame ops rec w (fun d h => hDir ⟨d, h⟩)
    (fun s h => hSym ⟨s, h⟩)
  obtain ⟨⟨hCount, hBit⟩, hExcl⟩ := h
  unfold Holds Tracks
  rw [hHist, hEx]
  by_cases hX : ∃ x, rec = .xattrData x
  · obtain ⟨x, rfl⟩ := hX
    rw [alloc_applyRecord2_xattr]
    exact ⟨⟨hCount, hBit⟩, hExcl⟩
  · have hNot : rec.isXattr = false := by
      cases rec with
      | xattrData x => exact absurd ⟨x, rfl⟩ hX
      | _ => rfl
    obtain ⟨hFree, hCount'⟩ := isFree_of_bitOp ops (w := w) (b := b) (by omega) false hNot
      (fun d h => hDir ⟨d, h⟩) (fun s h => hSym ⟨s, h⟩)
    refine ⟨⟨hCount'.trans hCount, ?_⟩, hExcl⟩
    intro hU
    unfold JRec.bitOp2
    rw [hFree, hBit hU, hNot]
    rfl

/-- The bitmap after pass 2: the last extent or trie record decides, unless
re-derivation touched the block. -/
theorem isFree_applyPass2 (ops : FsOps σ) {b count : Nat} {v : Bool} {ex : List Nat} (hb : b ≠ 0)
    (hDev : b < count) (recs : List JRec) {w : World σ} (h : Holds ex (Tracks b v count) w) :
    Holds ex (Tracks b ((lastOp2 ops.dataStart recs b).getD v) count)
      (applyPass ops false recs w).2 := by
  rw [applyPass_snd]
  unfold lastOp2
  rw [← foldl_getD_eq_getLast]
  induction recs generalizing w v with
  | nil => exact h
  | cons rec recs ih =>
    rw [List.foldl_cons, List.foldl_cons]
    exact ih (tracks_applyRecord2 hb hDev rec h)

--
-- The bitmap after replay
--

/-- The bitmap that replay leaves is the one the window asks for: every block of
the device that a record mentions and that re-derivation left alone is free or
taken as its last record says. Block 0 is the failure value of the allocator
and no record names it. -/
def BitmapRight (ops : FsOps σ) (recs : List JRec) (w : World σ) : Prop :=
  ∀ b free, b ≠ 0 → b < w.alloc.blockCount → lastOp ops.dataStart recs b = some free →
    Untouched b (replayRecords ops recs w).2.history →
    (replayRecords ops recs w).2.alloc.isFree b = free

/-- The last record on the block allocates it, but the last extent or trie
record on it frees it: an xattr record has reused the block after the free. -/
def ReusedByXattr (dataStart : Nat) (recs : List JRec) (b : Nat) : Prop :=
  lastOp dataStart recs b = some false ∧ lastOp2 dataStart recs b = some true

theorem bitOp2_of_bitOp_true {dataStart b : Nat} {rec : JRec}
    (h : rec.bitOp dataStart b = some true) : rec.bitOp2 dataStart b = some true := by
  have hNot : ¬ rec.isXattr = true := by
    intro hX
    cases rec with
    | xattrData x =>
      simp only [JRec.bitOp] at h
      split at h
      · simp at h
      · simp at h
    | _ => cases hX
  unfold JRec.bitOp2
  rw [if_neg hNot]
  exact h

/-- If the last record frees the block, so does the last extent or trie record. -/
theorem lastOp2_of_lastOp_true {dataStart b : Nat} {recs : List JRec}
    (h : lastOp dataStart recs b = some true) : lastOp2 dataStart recs b = some true := by
  unfold lastOp lastOp2 at *
  induction recs using List.reverseRecOn with
  | nil => cases h
  | append_singleton recs rec ih =>
    rw [List.filterMap_append] at h ⊢
    cases hOp : rec.bitOp dataStart b with
    | none =>
      have hOp2 : rec.bitOp2 dataStart b = none := by
        unfold JRec.bitOp2
        split
        · rfl
        · exact hOp
      simp only [List.filterMap_cons, List.filterMap_nil, hOp, hOp2, List.append_nil] at h ⊢
      exact ih h
    | some v =>
      simp only [List.filterMap_cons, List.filterMap_nil, hOp, List.getLast?_append,
        List.getLast?_singleton, Option.some_or, Option.some.injEq] at h
      subst h
      have hOp2 := bitOp2_of_bitOp_true hOp
      simp [hOp2]

/-- The state that pass 2 starts from tracks every block of the device. -/
theorem tracks_afterPass1 (ops : FsOps σ) (recs : List JRec) {w : World σ} {b : Nat}
    (hDev : b < w.alloc.blockCount) :
    Holds (afterPass1 ops recs w).excluded
      (Tracks b ((lastOp ops.dataStart recs b).getD (w.alloc.isFree b)) w.alloc.blockCount)
      (afterPass1 ops recs w) := by
  obtain ⟨hBit, hCount⟩ := isFree_applyPass1 ops recs (w := w.init) hDev
  have hAlloc : (afterPass1 ops recs w).alloc = (applyPass ops true recs w.init).2.alloc := rfl
  unfold Holds Tracks
  rw [hAlloc]
  exact ⟨⟨hCount, fun _ => hBit⟩, rfl⟩

/-- The reconcile pass does not touch the data allocator or the history. -/
theorem reconcileNlinks_frame (ops : FsOps σ) (w : World σ) :
    (reconcileNlinks ops w).alloc = w.alloc ∧ (reconcileNlinks ops w).history = w.history := by
  unfold reconcileNlinks
  split <;> exact ⟨rfl, rfl⟩

/-- The final bit of a block that re-derivation left alone. -/
theorem isFree_replayRecords (ops : FsOps σ) (recs : List JRec) {w : World σ} {b : Nat}
    (hb : b ≠ 0) (hDev : b < w.alloc.blockCount)
    (hU : Untouched b (replayRecords ops recs w).2.history) :
    (replayRecords ops recs w).2.alloc.isFree b =
      (lastOp2 ops.dataStart recs b).getD
        ((lastOp ops.dataStart recs b).getD (w.alloc.isFree b)) := by
  obtain ⟨⟨hCount, hBit⟩, -⟩ := isFree_applyPass2 ops hb hDev recs
    (tracks_afterPass1 ops recs hDev)
  unfold replayRecords at hU ⊢
  have hErr : (applyPass ops true recs w.init).1 = 0 := applyPass1_errors ops recs w.init
  simp only [hErr, ne_eq, not_true_eq_false, if_false] at hU ⊢
  obtain ⟨hAlloc, hHist⟩ := reconcileNlinks_frame ops
    (applyPass ops false recs (afterPass1 ops recs w)).2
  rw [hHist] at hU
  rw [hAlloc, Alloc.isFree_recomputeSummaries hb (by omega)]
  exact hBit hU

/-- **The bitmap after replay.** It is right exactly when no block that
re-derivation left alone was freed by its last extent or trie record and reused
by an xattr record after that. -/
theorem replay_bitmap_right_iff (ops : FsOps σ) (recs : List JRec) (w : World σ) :
    BitmapRight ops recs w ↔
      ∀ b, b ≠ 0 → b < w.alloc.blockCount → Untouched b (replayRecords ops recs w).2.history →
        ¬ ReusedByXattr ops.dataStart recs b := by
  constructor
  · intro hRight b hb hDev hU ⟨hLast, hLast2⟩
    have hBit := hRight b false hb hDev hLast hU
    rw [isFree_replayRecords ops recs hb hDev hU, hLast2, Option.getD_some] at hBit
    exact Bool.noConfusion hBit
  · intro hNone b free hb hDev hLast hU
    rw [isFree_replayRecords ops recs hb hDev hU, hLast]
    cases free with
    | true => rw [lastOp2_of_lastOp_true hLast, Option.getD_some]
    | false =>
      cases hLast2 : lastOp2 ops.dataStart recs b with
      | none => rw [Option.getD_none, Option.getD_some]
      | some free2 =>
        cases free2 with
        | true => exact absurd ⟨hLast, hLast2⟩ (hNone b hb hDev hU)
        | false => rw [Option.getD_some]

/-- A full device of 128 blocks. -/
def fullAlloc : Alloc where
  l0 _ := 0#64
  l1 _ := 0#64
  l2 _ := 0#64
  l0Words := 1
  l1Words := 1
  l2Words := 2
  blockCount := 128
  freeCount := 0#64
  metaShield := 0#64
  roverW0 := 0
  roverW2High := 0
  firstFreeW2 := 0
  l2Dirty _ := false
  hL2 := Alloc.two_words
  hL1 := Alloc.two_le_word
  hL0 := Alloc.one_le_word

/-- A file system with one directory, inode 1, and its entries as the records
that added them. An insertion into an empty directory initialises its root page
(`briefs_trie_create_root`); the entries go to free slots of that page. -/
def emptyDirOps : FsOps (List DirUpdate) where
  dataStart := 100
  inodeInRange ino := decide (ino ≤ 8)
  trieUpdate entries _ c rec :=
    let named := entries.any fun e => e.name == rec.name
    if rec.op ≠ 0 then
      .done (if named then none else some .enoent, c.diskInode.dirTrieRoot,
        entries.filter fun e => e.name != rec.name)
    else if named then .done (some .eexist, c.diskInode.dirTrieRoot, entries)
    else if c.diskInode.dirTrieRoot ≠ 0 then
      .done (none, c.diskInode.dirTrieRoot, rec :: entries)
    else .pageInit fun block =>
      match block with
      | none => .done (some .enospc, 0, entries)
      | some rel => .done (none, dataToAbs 100 rel * 64, rec :: entries)
  freeInodeData entries _ := .done entries
  restoreSymlink entries _ _ := (none, entries)
  restoreXattr entries _ := (none, entries)
  readNode _ _ := none
  dirEntries entries root :=
    some (if root = 0 then [] else entries.map fun e => (e.childIno, e.ftype))
  phantom _ _ := fillInode DiskInode.zero
  reclaimed _ _ := false

/-- Inode 1 is an empty directory; every data block is taken. -/
def emptyDirWorld : World (List DirUpdate) where
  alloc := fullAlloc
  inodeAlloc := fullAlloc
  slots ino := if ino = 1 then { DiskInode.zero with
      inodeNumber := 1, magic := inodeMagic, filemode := 0o40755, nlinks := 2 }
    else DiskInode.zero
  icache _ := none
  pool := []
  roots := []
  excluded := []
  pins := []
  xattrFinal := []
  xattrNext := []
  xattrLive := []
  data := []
  history := []

/-- A block freed by an extent record and reused for an xattr block. -/
def xattrReuseWindow : List JRec :=
  [.extentFree 227 1,
   .xattrData { ino := 1, physBlock := 227, usedSize := 32, version := 2, nextBlock := 0
                data := [] }]

/-- Replay of that window succeeds and leaves the xattr block free. -/
theorem replay_frees_reused_xattr_block :
    (replayRecords emptyDirOps xattrReuseWindow emptyDirWorld).1 = none ∧
      ¬ BitmapRight emptyDirOps xattrReuseWindow emptyDirWorld := by
  refine ⟨by decide, ?_⟩
  intro h
  have hBit := h 127 false (by decide) (by decide) (by decide) (by
    intro e he
    have hNil : (replayRecords emptyDirOps xattrReuseWindow emptyDirWorld).2.history = [] := by
      decide
    rw [hNil] at he
    cases he)
  exact absurd hBit (by decide)

--
-- Blocks that re-derivation takes from the allocator
--

/-- Every block that re-derivation took from the allocator while pass 2 applied
`pre` is free in the bitmap of the end of pass 1. -/
def TakesOnlyFree (ops : FsOps σ) (recs pre : List JRec) (w : World σ) : Prop :=
  ∀ rel, .allocated rel ∈ (applyPass ops false pre (afterPass1 ops recs w)).2.history →
    (afterPass1 ops recs w).alloc.isFree rel = true

/-- While pass 2 applies `pre`, every block that an extent or trie record frees,
and every block that re-derivation gives back, is free in the bitmap of the end
of pass 1. -/
structure FreesOnlyFree (ops : FsOps σ) (recs pre : List JRec) (w : World σ) : Prop where
  records : ∀ rec ∈ pre, ∀ b, b ≠ 0 → b < w.alloc.blockCount →
    rec.bitOp ops.dataStart b = some true → (afterPass1 ops recs w).alloc.isFree b = true
  pages : ∀ rel n, .freed rel n ∈ (applyPass ops false pre (afterPass1 ops recs w)).2.history →
    ∀ b, b ≠ 0 → b < w.alloc.blockCount → rel ≤ b → b < rel + n →
      (afterPass1 ops recs w).alloc.isFree b = true

/-- Free blocks, and blocks taken so far, are in `F`, provided what was given
back is. -/
def FreeWithin (F : Nat → Prop) (count : Nat) (a : Alloc) (_ : List Nat) (h : List Taken) : Prop :=
  a.blockCount = count ∧
    ((∀ rel n, .freed rel n ∈ h → ∀ b, b ≠ 0 → b < count → rel ≤ b → b < rel + n → F b) →
      (∀ b, b ≠ 0 → a.isFree b = true → F b) ∧ ∀ rel, .allocated rel ∈ h → F rel)

theorem stable_freeWithin {dataStart count : Nat} {F : Nat → Prop} {ex : List Nat} :
    Stable dataStart ex (FreeWithin F count) := by
  refine ⟨?_, ?_, ?_, ?_⟩
  · rintro a pool h rel rest ⟨hCount, hIn⟩ -
    refine ⟨hCount, fun hFreed => ?_⟩
    obtain ⟨hFree, hTaken⟩ := hIn fun r n hr => hFreed r n (List.mem_append_left _ hr)
    refine ⟨hFree, fun r hr => hTaken r ?_⟩
    simpa using hr
  · rintro a a' pool h rel rest ⟨hCount, hIn⟩ - hTook hRel
    refine ⟨hTook.blockCount.trans hCount, fun hFreed => ?_⟩
    obtain ⟨hFree, hTaken⟩ := hIn fun r n hr => hFreed r n (List.mem_append_left _ hr)
    refine ⟨?_, ?_⟩
    · intro b hb hBit
      rw [hTook.frame b hb, Bool.and_eq_true] at hBit
      exact hFree b hb hBit.1
    · intro r hr
      rcases List.mem_append.mp hr with hr | hr
      · exact hTaken r hr
      · obtain rfl : r = rel := by simpa using hr
        exact hFree r hRel (hTook.wasFree hRel)
  · rintro a a' pool h rest ⟨hCount, hIn⟩ - hTook
    refine ⟨hTook.blockCount.trans hCount, fun hFreed => ?_⟩
    obtain ⟨hFree, hTaken⟩ := hIn hFreed
    refine ⟨?_, hTaken⟩
    intro b hb hBit
    rw [hTook.frame b hb, Bool.and_eq_true] at hBit
    exact hFree b hb hBit.1
  · rintro a pool h rel n ⟨hCount, hIn⟩
    refine ⟨(Alloc.blockCount_freeBlocks a rel n).trans hCount, fun hFreed => ?_⟩
    obtain ⟨hFree, hTaken⟩ := hIn fun r m hr => hFreed r m (List.mem_append_left _ hr)
    refine ⟨?_, fun r hr => hTaken r (by simpa using hr)⟩
    intro b hb hBit
    rw [Alloc.isFree_freeBlocks, Bool.or_eq_true, decide_eq_true_iff] at hBit
    rcases hBit with hBit | ⟨hLo, hHi, hDev⟩
    · exact hFree b hb hBit
    · exact hFreed rel n (by simp) b hb (by omega) hLo hHi

theorem isFree_of_foldl_reserveBlock {b : Nat} : ∀ (l : List Nat) {a : Alloc},
    (l.foldl Alloc.reserveBlock a).isFree b = true → a.isFree b = true
  | [], _, h => h
  | rel :: l, a, h => by
    rw [List.foldl_cons] at h
    have hBit := isFree_of_foldl_reserveBlock l h
    rw [Alloc.isFree_reserveBlock, Bool.and_eq_true] at hBit
    exact hBit.1

/-- A record that runs no trie code frees no block but those it names. -/
theorem isFree_or_bitOp (ops : FsOps σ) {rec : JRec} {w : World σ} {b : Nat}
    (hDir : ∀ d, rec ≠ .dirUpdate d) (hSym : ∀ s, rec ≠ .symlinkData s)
    (h : (applyRecord ops false rec w).2.alloc.isFree b = true) :
    w.alloc.isFree b = true ∨
      b < w.alloc.blockCount ∧ rec.bitOp ops.dataStart b = some true := by
  by_cases hDev : b < w.alloc.blockCount
  · by_cases hX : ∃ x, rec = .xattrData x
    · obtain ⟨x, rfl⟩ := hX
      rw [alloc_applyRecord2_xattr] at h
      exact .inl h
    · have hNot : rec.isXattr = false := by
        cases rec with
        | xattrData x => exact absurd ⟨x, rfl⟩ hX
        | _ => rfl
      rw [(isFree_of_bitOp ops hDev false hNot hDir hSym).1] at h
      cases hOp : rec.bitOp ops.dataStart b with
      | none =>
        rw [hOp, Option.getD_none] at h
        exact .inl h
      | some v =>
        rw [hOp, Option.getD_some] at h
        subst h
        exact .inr ⟨hDev, rfl⟩
  · -- bits past the end of the device are never set
    left
    cases rec with
    | dirUpdate d => exact absurd rfl (hDir d)
    | symlinkData s => exact absurd rfl (hSym s)
    | xattrData x =>
      rw [alloc_applyRecord2_xattr] at h
      exact h
    | extentAlloc phys len => exact isFree_of_foldl_reserveBlock _ h
    | extentFree phys len =>
      simp only [applyRecord, replayExtentFree] at h
      rw [Alloc.isFree_freeBlocks, Bool.or_eq_true, decide_eq_true_iff] at h
      rcases h with h | h
      · exact h
      · exact absurd h.2.2 hDev
    | trieAlloc block op =>
      simp only [applyRecord, replayTrieAlloc, Bool.false_eq_true, if_false] at h
      split at h
      · rw [Alloc.isFree_reserveBlock, Bool.and_eq_true] at h
        exact h.1
      · rw [Alloc.isFree_freeBlocks, Bool.or_eq_true, decide_eq_true_iff] at h
        rcases h with h | h
        · exact h
        · exact absurd h.2.2 hDev
    | inodeAlloc ino =>
      simp only [applyRecord] at h
      split at h <;> exact h
    | inodeFree ino =>
      simp only [applyRecord] at h
      split at h <;> exact h
    | inodeUpdate u =>
      simp only [applyRecord, replayInodeUpdate, Bool.false_eq_true, if_false] at h
      split at h
      · exact h
      · exact h
      · split at h <;> exact h
    | inodeFull ino snap =>
      simp only [applyRecord, replayInodeFull, Bool.false_eq_true, if_false] at h
      split at h
      · exact h
      · exact h
      · split at h <;> exact h

theorem blockCount_applyRecord (ops : FsOps σ) {rec : JRec} {w : World σ} (pass : Bool)
    (hDir : pass = false → ∀ d, rec ≠ .dirUpdate d)
    (hSym : pass = false → ∀ s, rec ≠ .symlinkData s) :
    (applyRecord ops pass rec w).2.alloc.blockCount = w.alloc.blockCount := by
  cases rec with
  | dirUpdate d =>
    cases pass with
    | true => rfl
    | false => exact absurd rfl (hDir rfl d)
  | symlinkData s =>
    cases pass with
    | true => rfl
    | false => exact absurd rfl (hSym rfl s)
  | xattrData x =>
    cases pass with
    | true =>
      dsimp only [applyRecord]
      rw [if_pos rfl]
      split
      · rfl
      · exact Alloc.blockCount_reserveBlock _ _
    | false => rw [alloc_applyRecord2_xattr]
  | extentAlloc phys len => exact blockCount_foldl_reserveBlock _ _
  | extentFree phys len => exact Alloc.blockCount_freeBlocks _ _ _
  | trieAlloc block op =>
    dsimp only [applyRecord, replayTrieAlloc]
    split
    · split <;> exact Alloc.blockCount_reserveBlock _ _
    · exact Alloc.blockCount_freeBlocks _ _ _
  | inodeAlloc ino =>
    dsimp only [applyRecord]
    split <;> rfl
  | inodeFree ino =>
    dsimp only [applyRecord]
    split <;> rfl
  | inodeUpdate u =>
    dsimp only [applyRecord, replayInodeUpdate]
    split
    · rfl
    · split
      · rfl
      · rfl
      · split <;> rfl
  | inodeFull ino snap =>
    dsimp only [applyRecord, replayInodeFull]
    split
    · rfl
    · split
      · rfl
      · rfl
      · split <;> rfl

theorem blockCount_afterPass1 (ops : FsOps σ) (recs : List JRec) (w : World σ) :
    (afterPass1 ops recs w).alloc.blockCount = w.alloc.blockCount := by
  have hGen : (applyPass ops true recs w.init).2.alloc.blockCount = w.alloc.blockCount := by
    refine applyPass_invariant (P := fun v => v.alloc.blockCount = w.alloc.blockCount) ?_ rfl
    intro rec _ v hv
    exact (blockCount_applyRecord ops true (fun h => by cases h) (fun h => by cases h)).trans hv
  exact hGen

/-- One record of pass 2 that frees only blocks in `F`. -/
theorem freeWithin_applyRecord2 {count : Nat} {F : Nat → Prop} {ex : List Nat} {rec : JRec}
    (hRec : ∀ b, b ≠ 0 → b < count → rec.bitOp ops.dataStart b = some true → F b)
    {w : World σ} (h : Holds ex (FreeWithin F count) w) :
    Holds ex (FreeWithin F count) (applyRecord ops false rec w).2 := by
  by_cases hDir : ∃ d, rec = .dirUpdate d
  · obtain ⟨d, rfl⟩ := hDir
    exact stable_freeWithin.replayDirUpdate h d
  by_cases hSym : ∃ s, rec = .symlinkData s
  · obtain ⟨s, rfl⟩ := hSym
    exact stable_freeWithin.replaySymlinkData h s
  have hDir' : ∀ d, rec ≠ .dirUpdate d := fun d h => hDir ⟨d, h⟩
  have hSym' : ∀ s, rec ≠ .symlinkData s := fun s h => hSym ⟨s, h⟩
  obtain ⟨hHist, hEx, -⟩ := applyRecord2_frame ops rec w hDir' hSym'
  obtain ⟨⟨hCount, hIn⟩, hExcl⟩ := h
  unfold Holds FreeWithin
  rw [hHist, hEx]
  refine ⟨⟨(blockCount_applyRecord ops false (fun _ => hDir') (fun _ => hSym')).trans hCount, fun hFreed => ?_⟩, hExcl⟩
  obtain ⟨hFree, hTaken⟩ := hIn hFreed
  refine ⟨?_, hTaken⟩
  intro b hb hBit
  rcases isFree_or_bitOp ops hDir' hSym' hBit with hOld | ⟨hDev, hOp⟩
  · exact hFree b hb hOld
  · exact hRec b hb (by omega) hOp

/-- **Re-derivation and the owners of pass 1.** At every point of pass 2: if
every block that was freed so far is free at the end of pass 1, then so is
every block that re-derivation took from the allocator so far. -/
theorem rederive_takes_free_of_frees_free (ops : FsOps σ) (recs pre : List JRec) (w : World σ)
    (hFrees : FreesOnlyFree ops recs pre w) : TakesOnlyFree ops recs pre w := by
  have hHist : (afterPass1 ops recs w).history = [] := (applyPass1_frame ops recs w.init).2.1
  have hStart : Holds (afterPass1 ops recs w).excluded
      (FreeWithin (fun b => (afterPass1 ops recs w).alloc.isFree b = true) w.alloc.blockCount)
      (afterPass1 ops recs w) := by
    refine ⟨⟨blockCount_afterPass1 ops recs w, fun _ => ⟨fun b _ hBit => hBit, ?_⟩⟩, rfl⟩
    intro rel hRel
    rw [hHist] at hRel
    cases hRel
  have hStep : ∀ rec ∈ pre, ∀ v : World σ,
      Holds (afterPass1 ops recs w).excluded
        (FreeWithin (fun b => (afterPass1 ops recs w).alloc.isFree b = true) w.alloc.blockCount) v →
      Holds (afterPass1 ops recs w).excluded
        (FreeWithin (fun b => (afterPass1 ops recs w).alloc.isFree b = true) w.alloc.blockCount)
        (applyRecord ops false rec v).2 :=
    fun rec hRec v hv => freeWithin_applyRecord2 (hFrees.records rec hRec) hv
  have hEnd := applyPass_invariant hStep hStart
  intro rel hRel
  exact (hEnd.1.2 hFrees.pages).2 rel hRel

/-- A block freed, then allocated again as file data, with a directory entry
added in between. -/
def reallocWindow : List JRec :=
  [.extentFree 227 1,
   .dirUpdate { parentIno := 1, childIno := 2, op := 0, ftype := 8, name := [97] },
   .extentAlloc 227 1]

/-- Replay of that window succeeds, and the trie page of the directory is the
data block that the window leaves allocated to a file. -/
theorem rederive_takes_owned_block :
    (replayRecords emptyDirOps reallocWindow emptyDirWorld).1 = none ∧
      ¬ TakesOnlyFree emptyDirOps reallocWindow reallocWindow emptyDirWorld := by
  refine ⟨by decide, ?_⟩
  intro h
  exact absurd (h 127 (by decide)) (by decide)

/-- The block stays free: then re-derivation may have it. -/
def freedWindow : List JRec :=
  [.extentFree 227 1,
   .dirUpdate { parentIno := 1, childIno := 2, op := 0, ftype := 8, name := [97] }]

/-- A window that frees only what it leaves free, and a page taken from it. -/
theorem rederive_takes_freed_block :
    TakesOnlyFree emptyDirOps freedWindow freedWindow emptyDirWorld ∧
      .allocated 127 ∈ (applyPass emptyDirOps false freedWindow
        (afterPass1 emptyDirOps freedWindow emptyDirWorld)).2.history := by
  refine ⟨rederive_takes_free_of_frees_free emptyDirOps freedWindow freedWindow emptyDirWorld
    ⟨?_, ?_⟩, by decide⟩
  · intro rec hRec b _ _ hOp
    have hFree : b = 127 := by
      rcases List.mem_cons.mp hRec with rfl | hRec
      · have hPhys : absToData emptyDirOps.dataStart 227 = 127 := by decide
        simp only [JRec.bitOp, hPhys] at hOp
        split at hOp
        · omega
        · cases hOp
      · obtain rfl := List.mem_singleton.mp hRec
        cases hOp
    rw [hFree]
    decide
  · have hHist : (applyPass emptyDirOps false freedWindow
        (afterPass1 emptyDirOps freedWindow emptyDirWorld)).2.history = [.allocated 127] := by
      decide
    intro rel n h
    rw [hHist] at h
    simp at h

end Briefs.Replay
