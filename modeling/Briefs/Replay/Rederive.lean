import Briefs.Replay.Passes

/-!
# BrieFS — what re-derivation can do to the data blocks

Trie code that runs inside replay reaches the data blocks only through
`takeTrieBlock` and `freeBlocks`. `Stable` says that a property of the
allocator, the replay pool and the history survives each of these steps;
`Stable.applyRecord` is the rule that then carries it over a record that
pass 2 applies by running trie code. The results about the bitmap and about the
pool use this rule with their own property and never look into a `Derive`
program.
-/

namespace Briefs.Replay

open Briefs.Journal

variable {σ : Type} {ops : FsOps σ}

/-- A failed search followed by one that may succeed. -/
theorem Took.after_none {a a1 : Alloc} {r : Nat × Alloc} (h0 : Alloc.Took a (0, a1))
    (h : Alloc.Took a1 r) : Alloc.Took a r := by
  have hFree : ∀ n, n ≠ 0 → a1.isFree n = a.isFree n := by
    intro n hn
    rw [h0.frame n hn]
    simp [hn]
  refine ⟨?_, ?_, fun hz => h0.zero (h.zero hz), h.blockCount.trans h0.blockCount⟩
  · intro hNe
    rw [← hFree _ hNe]
    exact h.wasFree hNe
  · intro n hn
    rw [h.frame n hn, hFree n hn]

/-- The two allocator calls together are one search. -/
theorem allocTrieBlock_spec (a : Alloc) : Alloc.Took a (allocTrieBlock a) := by
  unfold allocTrieBlock
  have hHigh := Alloc.allocBlockHigh_spec a
  split
  · rename_i hZero
    have hPair : a.allocBlockHigh = (0, a.allocBlockHigh.2) := Prod.ext hZero rfl
    rw [hPair] at hHigh
    exact Took.after_none hHigh (Alloc.allocBlock_spec _)
  · exact hHigh

/-- A property of allocator, pool and history that the steps of re-derivation
keep, with the excluded set fixed. -/
structure Stable (dataStart : Nat) (excluded : List Nat)
    (Q : Alloc → List Nat → List Taken → Prop) : Prop where
  popped : ∀ {a pool h rel rest}, Q a pool h →
    popPool dataStart excluded pool = (some rel, rest) → Q a rest (h ++ [.popped rel])
  allocated : ∀ {a a' pool h rel rest}, Q a pool h →
    popPool dataStart excluded pool = (none, rest) → Alloc.Took a (rel, a') → rel ≠ 0 →
    Q a' rest (h ++ [.allocated rel])
  noSpace : ∀ {a a' pool h rest}, Q a pool h →
    popPool dataStart excluded pool = (none, rest) → Alloc.Took a (0, a') → Q a' rest h
  freed : ∀ {a pool h} (rel n : Nat), Q a pool h →
    Q (a.freeBlocks rel n) pool (h ++ [.freed rel n])

/-- `Q` of the data-block part of a state whose excluded set is `ex`. -/
def Holds (ex : List Nat) (Q : Alloc → List Nat → List Taken → Prop) (w : World σ) : Prop :=
  Q w.alloc w.pool w.history ∧ w.excluded = ex

variable {ex : List Nat} {Q : Alloc → List Nat → List Taken → Prop}

theorem Stable.takeTrieBlock (hQ : Stable ops.dataStart ex Q) {w : World σ} (h : Holds ex Q w) :
    Holds ex Q (takeTrieBlock ops w).2 := by
  obtain ⟨hw, hEx⟩ := h
  subst hEx
  unfold Replay.takeTrieBlock
  cases hPop : popPool ops.dataStart w.excluded w.pool with
  | mk top rest =>
    cases top with
    | some rel => exact ⟨hQ.popped hw hPop, rfl⟩
    | none =>
      have hTook := allocTrieBlock_spec w.alloc
      cases hAlloc : allocTrieBlock w.alloc with
      | mk rel a =>
        rw [hAlloc] at hTook
        by_cases hZero : rel = 0
        · subst hZero
          exact ⟨hQ.noSpace hw hPop hTook, rfl⟩
        · simp only [hZero, if_false]
          exact ⟨hQ.allocated hw hPop hTook hZero, rfl⟩

theorem Stable.run (hQ : Stable ops.dataStart ex Q) {α : Type} :
    ∀ (d : Derive α) {w : World σ}, Holds ex Q w → Holds ex Q (d.run ops w).2
  | .done _, _, h => h
  | .pageInit k, w, h => by
    unfold Derive.run
    exact hQ.run (k (Replay.takeTrieBlock ops w).1) (hQ.takeTrieBlock h)
  | .freeBlocks rel n k, w, h => by
    unfold Derive.run
    exact hQ.run k ⟨hQ.freed rel n h.1, h.2⟩

/-- States with the same data-block part. -/
structure SameBlocks (w w' : World σ) : Prop where
  alloc    : w'.alloc = w.alloc
  pool     : w'.pool = w.pool
  history  : w'.history = w.history
  excluded : w'.excluded = w.excluded

theorem Holds.of_same {w w' : World σ} (hSame : SameBlocks w w') (h : Holds ex Q w) :
    Holds ex Q w' := by
  unfold Holds
  rw [hSame.alloc, hSame.pool, hSame.history, hSame.excluded]
  exact h

theorem SameBlocks.setSlot (w : World σ) (ino : Nat) (di : DiskInode) :
    SameBlocks w (w.setSlot ino di) := ⟨rfl, rfl, rfl, rfl⟩

theorem SameBlocks.cache (w : World σ) (ino : Nat) (c : Option CachedInode) :
    SameBlocks w (w.cache ino c) := ⟨rfl, rfl, rfl, rfl⟩

theorem SameBlocks.persistDiskInode (ops : FsOps σ) (w : World σ) (ino : Nat) (di : DiskInode) :
    SameBlocks w (persistDiskInode ops w ino di).2 := by
  unfold Replay.persistDiskInode
  split
  · exact ⟨rfl, rfl, rfl, rfl⟩
  · exact SameBlocks.setSlot w ino di

theorem SameBlocks.iget (ops : FsOps σ) (w : World σ) (ino : Nat) : SameBlocks w (iget ops w ino).2 := by
  unfold Replay.iget
  split
  · exact ⟨rfl, rfl, rfl, rfl⟩
  · split
    · exact SameBlocks.cache w ino _
    · split
      · exact SameBlocks.cache w ino _
      · exact SameBlocks.cache w ino _

theorem Stable.iput (hQ : Stable ops.dataStart ex Q) {w : World σ} (h : Holds ex Q w)
    (ino : Nat) (c : CachedInode) : Holds ex Q (iput ops w ino c) := by
  unfold Replay.iput
  split
  · have hRun := hQ.run (ops.freeInodeData w.data c) h
    generalize (ops.freeInodeData w.data c).run ops w = r at hRun ⊢
    obtain ⟨data, w1⟩ := r
    dsimp only at hRun ⊢
    have hData : SameBlocks w1 { w1 with data := data } := ⟨rfl, rfl, rfl, rfl⟩
    have hSlot := SameBlocks.persistDiskInode ops { w1 with data := data } ino
      DiskInode.zero
    have hDone := (hRun.of_same hData).of_same hSlot
    refine Holds.of_same (SameBlocks.cache _ _ _) ?_
    split
    · exact hDone
    · exact hDone.of_same ⟨rfl, rfl, rfl, rfl⟩
  · exact h.of_same (SameBlocks.cache w ino _)

theorem Stable.replayDirUpdate (hQ : Stable ops.dataStart ex Q) {w : World σ} (h : Holds ex Q w)
    (rec : DirUpdate) : Holds ex Q (replayDirUpdate ops rec w).2 := by
  unfold Replay.replayDirUpdate
  have hGet := h.of_same (SameBlocks.iget ops w rec.parentIno)
  generalize iget ops w rec.parentIno = r at hGet ⊢
  obtain ⟨res, w1⟩ := r
  split
  · rename_i heq
    cases heq
    exact hGet
  · rename_i heq
    cases heq
    exact hGet
  · rename_i c w2 heq
    cases heq
    have hRun := hQ.run (ops.trieUpdate w1.data (tableGet w1.pins) c rec) hGet
    generalize (ops.trieUpdate w1.data (tableGet w1.pins) c rec).run ops w1 = d at hRun ⊢
    obtain ⟨⟨ret, root, data⟩, w3⟩ := d
    dsimp only at hRun ⊢
    have hData : SameBlocks w3 { w3 with data := data } := ⟨rfl, rfl, rfl, rfl⟩
    split
    · exact hQ.iput (hRun.of_same hData) _ _
    · exact hQ.iput ((hRun.of_same hData).of_same (SameBlocks.persistDiskInode ops _ _ _)) _ _

theorem Stable.replaySymlinkData (hQ : Stable ops.dataStart ex Q) {w : World σ}
    (h : Holds ex Q w) (rec : SymlinkData) : Holds ex Q (replaySymlinkData ops rec w).2 := by
  unfold Replay.replaySymlinkData
  split
  · exact h
  · have hGet := h.of_same (SameBlocks.iget ops w rec.ino)
    generalize iget ops w rec.ino = r at hGet ⊢
    obtain ⟨res, w1⟩ := r
    split
    · rename_i heq
      cases heq
      exact hGet
    · rename_i c w2 heq
      cases heq
      split
      · generalize ops.restoreSymlink w1.data c rec = d
        obtain ⟨ret, data⟩ := d
        have hData : SameBlocks w1 { w1 with data := data } := ⟨rfl, rfl, rfl, rfl⟩
        exact hQ.iput (hGet.of_same hData) _ _
      · exact hQ.iput hGet _ _

end Briefs.Replay
