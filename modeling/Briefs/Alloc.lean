import Briefs.Lib.Bitmap

/-!
# BrieFS — the block allocator

`alloc.c` keeps a bitmap pyramid: level 2 has one bit per block (set = free),
level 1 one bit per level-2 word, level 0 one bit per level-1 word. The same
structure serves the data blocks and the inode numbers. The operations here are
those that journal replay runs: reserving and freeing blocks by number, taking
a block by the top-down scan (`briefs_alloc_block_high`) or by the pyramid
(`briefs_alloc_block`), and rebuilding the summaries.

Each operation has one lemma that says what it does to the set of free blocks
(`Alloc.isFree`); the summaries only steer the search and do not matter there.

## Results

* `isFree_reserveBlock`, `isFree_freeBlock`, `isFree_freeBlocks` — the blocks
  named by the call change, no other.
* `allocBlockHigh_spec`, `allocBlock_spec` — a nonzero result was free and is
  now taken; nothing else changes, block 0 apart.
* `isFree_recomputeSummaries` — block 0 and the bits past the end are dropped.
-/

namespace Briefs

open Briefs.Lib

/-- `struct briefs_alloc`. Counts that the code decrements without a test are
machine words; the word counts of the levels cover the level below. -/
structure Alloc where
  l0 : Words
  l1 : Words
  l2 : Words
  l0Words : Nat
  l1Words : Nat
  l2Words : Nat
  blockCount : Nat
  freeCount  : BitVec 64
  metaShield : BitVec 64
  roverW0     : Nat
  roverW2High : Nat
  firstFreeW2 : Nat
  l2Dirty : Nat → Bool
  hL2 : blockCount ≤ l2Words * 64
  hL1 : l2Words ≤ l1Words * 64
  hL0 : l1Words ≤ l0Words * 64

namespace Alloc

-- The levels of a pool of up to two words.
theorem one_le_word : 1 ≤ 1 * 64 := by decide

theorem two_le_word : 2 ≤ 1 * 64 := by decide

theorem two_words : 128 ≤ 2 * 64 := by decide

/-- The leaf bit of a block: set means free. -/
def isFree (a : Alloc) (block : Nat) : Bool := a.l2.test block

--
-- Operations
--

/-- `briefs_mark_l2_dirty`. -/
def markL2Dirty (a : Alloc) (w2 : Nat) : Alloc :=
  { a with l2Dirty := Function.update a.l2Dirty w2 true }

/-- `briefs_propagate_l2_zero`: clear the summary bits of a level-2 word that
became zero. `briefs_alloc_block` and `briefs_reserve_block` have inline copies. -/
def propagateL2Zero (a : Alloc) (w2 : Nat) : Alloc :=
  let w1 := w2 / 64
  let l1 := a.l1.clear w1 (w2 % 64)
  if l1 w1 = 0#64 then { a with l1 := l1, l0 := a.l0.clear (w1 / 64) (w1 % 64) }
  else { a with l1 := l1 }

/-- Clear one leaf bit, with the count, the dirty map and the summaries. -/
def takeBit (a : Alloc) (w2 b2 : Nat) : Alloc :=
  let a := { a with l2 := a.l2.clear w2 b2, freeCount := a.freeCount - 1#64 }
  let a := a.markL2Dirty w2
  if a.l2 w2 = 0#64 then a.propagateL2Zero w2 else a

/-- `briefs_reserve_block`. -/
def reserveBlock (a : Alloc) (rel : Nat) : Alloc :=
  if a.blockCount ≤ rel then a
  else if a.isFree rel then a.takeBit (rel / 64) (rel % 64)
  else a

/-- Set the summary bits of a level-2 word that was zero. -/
def propagateL2Nonzero (a : Alloc) (w2 : Nat) : Alloc :=
  let w1 := w2 / 64
  let l1 := a.l1.orWord w1 (bit (w2 % 64))
  if l1 w1 = bit (w2 % 64) then
    { a with l1 := l1, l0 := a.l0.orWord (w1 / 64) (bit (w1 % 64)) }
  else { a with l1 := l1 }

/-- `briefs_free_block`. -/
def freeBlock (a : Alloc) (rel : Nat) : Alloc :=
  if a.blockCount ≤ rel then a
  else if a.isFree rel then a
  else
    let w2 := rel / 64
    let a := { a with l2 := a.l2.orWord w2 (bit (rel % 64)), freeCount := a.freeCount + 1#64 }
    let a := a.markL2Dirty w2
    let a := { a with firstFreeW2 := min w2 a.firstFreeW2 }
    if a.l2 w2 = bit (rel % 64) then a.propagateL2Nonzero w2 else a

/-- One word of the loop of `briefs_free_blocks`. -/
def freeWord (a : Alloc) (relStart stop w2 : Nat) : Alloc :=
  let mask := rangeMask (relStart - w2 * 64) (stop - w2 * 64)
  let before := a.l2 w2
  let a := { a with l2 := a.l2.orWord w2 mask,
                    freeCount := a.freeCount + (~~~ before &&& mask).cpop }
  let a := a.markL2Dirty w2
  let a := { a with firstFreeW2 := min w2 a.firstFreeW2 }
  if before = 0#64 ∧ a.l2 w2 ≠ 0#64 then a.propagateL2Nonzero w2 else a

/-- `briefs_free_blocks`: the run is clamped to the device. A sum that overflows
a machine word is clamped too, so `relStart + n` needs no bound here. -/
def freeBlocks (a : Alloc) (relStart n : Nat) : Alloc :=
  if n = 0 ∨ a.blockCount ≤ relStart then a
  else
    let stop := min (relStart + n) a.blockCount
    let first := relStart / 64
    let last := (stop - 1) / 64
    (List.range' first (last + 1 - first)).foldl (fun a w2 => a.freeWord relStart stop w2) a

/-- The free count a data allocation may use: `free_count - meta_shield`. -/
def avail (a : Alloc) : BitVec 64 :=
  if a.metaShield < a.freeCount then a.freeCount - a.metaShield else 0#64

/-- The free bits of a level-2 word; the top word may track bits past the last
block, which `briefs_alloc_block_high` masks off. -/
def validWord (a : Alloc) (w2 : Nat) : BitVec 64 :=
  if w2 * 64 ≤ a.blockCount ∧ a.blockCount - w2 * 64 < 64
  then a.l2 w2 &&& (bit (a.blockCount - w2 * 64) - 1#64) else a.l2 w2

/-- The downward scan of `briefs_alloc_block_high` from word `w2`, which stops
above word 0. -/
def scanHigh (a : Alloc) : Nat → Nat × Alloc
  | 0 => (0, { a with roverW2High := a.l2Words - 1 })
  | w2 + 1 =>
    if a.l2 (w2 + 1) = 0#64 ∨ a.validWord (w2 + 1) = 0#64 then a.scanHigh w2
    else
      let b2 := highBit (a.validWord (w2 + 1))
      ((w2 + 1) * 64 + b2, { a.takeBit (w2 + 1) b2 with roverW2High := w2 + 1 })

/-- `briefs_alloc_block_high`; 0 means nothing was found. -/
def allocBlockHigh (a : Alloc) : Nat × Alloc :=
  if a.avail = 0#64 then (0, a)
  else
    let w2 := if a.roverW2High = 0 ∨ a.l2Words ≤ a.roverW2High then a.l2Words - 1
      else a.roverW2High
    a.scanHigh w2

/-- The next-fit loop of `__briefs_alloc_block` with `n` level-0 words left. A
summary bit over a zero word is cleared and the scan goes on. -/
def scanPyramid (a : Alloc) : Nat → Nat → Nat × Alloc
  | 0, _ => (0, a)
  | n + 1, i =>
    let w0 := (a.roverW0 + i) % a.l0Words
    if a.l0 w0 = 0#64 then a.scanPyramid n (i + 1)
    else
      let b0 := lowBit (a.l0 w0)
      let w1 := w0 * 64 + b0
      if a.l1Words ≤ w1 then (0, a)
      else if a.l1 w1 = 0#64 then
        { a with l0 := a.l0.clear w0 b0 }.scanPyramid n (i + 1)
      else
        let b1 := lowBit (a.l1 w1)
        let w2 := w1 * 64 + b1
        if a.l2Words ≤ w2 then (0, a)
        else if a.l2 w2 = 0#64 then
          (a.propagateL2Zero w2).scanPyramid n (i + 1)
        else
          let b2 := lowBit (a.l2 w2)
          let block := w2 * 64 + b2
          if a.blockCount ≤ block then (0, a)
          else (block, { a.takeBit w2 b2 with roverW0 := w0 })

/-- `__briefs_alloc_block` with `avail` blocks available to the caller. Block 0
is the failure value of the interface and is reserved first if it is free. -/
def allocBlockFrom (a : Alloc) (avail : BitVec 64) : Nat × Alloc :=
  if avail = 0#64 then (0, a)
  else
    let a := if a.isFree 0 then a.takeBit 0 0 else a
    a.scanPyramid a.l0Words 0

/-- `briefs_alloc_block`. -/
def allocBlock (a : Alloc) : Nat × Alloc := a.allocBlockFrom a.avail

/-- `briefs_alloc_block_meta`: the shield does not hold for metadata. -/
def allocBlockMeta (a : Alloc) : Nat × Alloc := a.allocBlockFrom a.freeCount

/-- `briefs_alloc_recompute_summaries`, levels 1 and 0: the summary of `n` words. -/
def summarize (m : Words) : Nat → Nat → Words
  | 0, _ => fun _ => 0#64
  | n + 1, limit =>
    let s := summarize m n limit
    if m n = 0#64 then s else if n / 64 < limit then s.orWord (n / 64) (bit (n % 64)) else s

/-- `briefs_alloc_recompute_summaries`. -/
def recomputeSummaries (a : Alloc) : Alloc :=
  let validBits := if a.blockCount % 64 = 0 then 64 else a.blockCount % 64
  let l2 : Words := if 0 < a.l2Words then
      Function.update a.l2 (a.l2Words - 1) (a.l2 (a.l2Words - 1) &&& rangeMask 0 validBits)
    else a.l2
  let l2 : Words := if 0 < a.l2Words then l2.clear 0 0 else l2
  let l1 := summarize l2 a.l2Words a.l1Words
  { a with
    l2 := l2
    l1 := l1
    l0 := summarize l1 a.l1Words a.l0Words
    freeCount := (List.range a.l2Words).foldl (fun c i => c + (l2 i).cpop) 0#64
    l2Dirty := fun _ => true }

--
-- Effect on the free blocks
--

@[simp]
theorem l2_markL2Dirty (a : Alloc) (w2 : Nat) : (a.markL2Dirty w2).l2 = a.l2 := rfl

@[simp]
theorem l2_propagateL2Zero (a : Alloc) (w2 : Nat) : (a.propagateL2Zero w2).l2 = a.l2 := by
  unfold propagateL2Zero
  dsimp only
  split <;> rfl

@[simp]
theorem l2_propagateL2Nonzero (a : Alloc) (w2 : Nat) : (a.propagateL2Nonzero w2).l2 = a.l2 := by
  unfold propagateL2Nonzero
  dsimp only
  split <;> rfl

@[simp]
theorem l2_takeBit (a : Alloc) (w2 b2 : Nat) : (a.takeBit w2 b2).l2 = a.l2.clear w2 b2 := by
  unfold takeBit
  dsimp only
  split
  · rw [l2_propagateL2Zero, l2_markL2Dirty]
  · rfl

theorem isFree_takeBit {a : Alloc} {w2 b2 : Nat} (hb : b2 < 64) (n : Nat) :
    (a.takeBit w2 b2).isFree n = (a.isFree n && !decide (n = w2 * 64 + b2)) := by
  unfold isFree
  rw [l2_takeBit, Words.test_clear hb]

/-- Reserving a block of the device makes it taken and touches no other. -/
theorem isFree_reserveBlock (a : Alloc) (rel n : Nat) :
    (a.reserveBlock rel).isFree n =
      (a.isFree n && !decide (n = rel ∧ rel < a.blockCount)) := by
  unfold reserveBlock
  have hDiv : rel / 64 * 64 + rel % 64 = rel := by omega
  by_cases hRange : a.blockCount ≤ rel
  · have hge : ¬ rel < a.blockCount := by omega
    simp [hRange, hge]
  · have hlt : rel < a.blockCount := by omega
    rw [if_neg hRange]
    by_cases hFree : a.isFree rel = true
    · rw [if_pos hFree, isFree_takeBit (Nat.mod_lt _ (by decide)), hDiv]
      simp [hlt]
    · rw [if_neg hFree]
      by_cases hEq : n = rel
      · subst hEq
        simp [hFree]
      · simp [hEq]

@[simp]
theorem blockCount_takeBit (a : Alloc) (w2 b2 : Nat) :
    (a.takeBit w2 b2).blockCount = a.blockCount := by
  unfold takeBit propagateL2Zero
  dsimp only
  split
  · split <;> rfl
  · rfl

@[simp]
theorem blockCount_reserveBlock (a : Alloc) (rel : Nat) :
    (a.reserveBlock rel).blockCount = a.blockCount := by
  unfold reserveBlock
  split
  · rfl
  · split
    · exact blockCount_takeBit a _ _
    · rfl

@[simp]
theorem blockCount_propagateL2Nonzero (a : Alloc) (w2 : Nat) :
    (a.propagateL2Nonzero w2).blockCount = a.blockCount := by
  unfold propagateL2Nonzero
  dsimp only
  split <;> rfl

/-- Freeing a block of the device makes it free and touches no other. -/
theorem isFree_freeBlock (a : Alloc) (rel n : Nat) :
    (a.freeBlock rel).isFree n = (a.isFree n || decide (n = rel ∧ rel < a.blockCount)) := by
  unfold freeBlock
  by_cases hRange : a.blockCount ≤ rel
  · have hge : ¬ rel < a.blockCount := by omega
    simp [hRange, hge]
  · have hlt : rel < a.blockCount := by omega
    rw [if_neg hRange]
    by_cases hFree : a.isFree rel = true
    · rw [if_pos hFree]
      by_cases hEq : n = rel
      · subst hEq
        simp [hFree]
      · simp [hEq]
    · rw [if_neg hFree]
      have hL2 : ∀ b : Alloc, b.l2 = a.l2.orWord (rel / 64) (bit (rel % 64)) →
          b.isFree n = (a.isFree n || decide (n = rel ∧ rel < a.blockCount)) := by
        intro b hb
        have hn : n % 64 < 64 := Nat.mod_lt _ (by decide)
        have hIff : (n / 64 = rel / 64 ∧ n % 64 = rel % 64) ↔ n = rel := by omega
        unfold isFree
        rw [hb, Words.test_orWord, getLsbD_bit]
        simp [hn, hlt, ← hIff]
      apply hL2
      dsimp only
      split
      · rw [l2_propagateL2Nonzero]
        rfl
      · rfl

@[simp]
theorem blockCount_freeBlock (a : Alloc) (rel : Nat) :
    (a.freeBlock rel).blockCount = a.blockCount := by
  unfold freeBlock
  dsimp only
  split
  · rfl
  · split
    · rfl
    · split
      · rw [blockCount_propagateL2Nonzero]
        rfl
      · rfl

theorem l2_freeWord (a : Alloc) (relStart stop w2 : Nat) :
    (a.freeWord relStart stop w2).l2 =
      a.l2.orWord w2 (rangeMask (relStart - w2 * 64) (stop - w2 * 64)) := by
  unfold freeWord
  dsimp only
  split
  · rw [l2_propagateL2Nonzero]
    rfl
  · rfl

@[simp]
theorem blockCount_freeWord (a : Alloc) (relStart stop w2 : Nat) :
    (a.freeWord relStart stop w2).blockCount = a.blockCount := by
  unfold freeWord
  dsimp only
  split
  · rw [blockCount_propagateL2Nonzero]
    rfl
  · rfl

theorem isFree_freeWord (a : Alloc) (relStart stop w2 n : Nat) :
    (a.freeWord relStart stop w2).isFree n =
      (a.isFree n || decide (n / 64 = w2 ∧ relStart ≤ n ∧ n < stop)) := by
  unfold isFree
  rw [l2_freeWord, Words.test_orWord, getLsbD_rangeMask (Nat.mod_lt _ (by decide))]
  by_cases hw : n / 64 = w2
  · have hLo : relStart - w2 * 64 ≤ n % 64 ↔ relStart ≤ n := by omega
    have hHi : n % 64 < stop - w2 * 64 ↔ n < stop := by omega
    simp [hw, hLo, hHi]
  · simp [hw]

/-- The word loop of `briefs_free_blocks` sets the bits of the words it visits. -/
theorem isFree_foldl_freeWord (relStart stop n : Nat) : ∀ (l : List Nat) (a : Alloc),
    (l.foldl (fun a w2 => a.freeWord relStart stop w2) a).isFree n =
      (a.isFree n || decide (n / 64 ∈ l ∧ relStart ≤ n ∧ n < stop))
  | [], a => by simp
  | w2 :: l, a => by
    rw [List.foldl_cons, isFree_foldl_freeWord relStart stop n l, isFree_freeWord]
    by_cases hIn : relStart ≤ n ∧ n < stop
    · simp [hIn, Bool.or_assoc]
    · simp [hIn]

@[simp]
theorem blockCount_foldl_freeWord (relStart stop : Nat) : ∀ (l : List Nat) (a : Alloc),
    (l.foldl (fun a w2 => a.freeWord relStart stop w2) a).blockCount = a.blockCount
  | [], _ => rfl
  | w2 :: l, a => by
    rw [List.foldl_cons, blockCount_foldl_freeWord relStart stop l, blockCount_freeWord]

/-- Freeing a run frees its part inside the device and touches nothing else. -/
theorem isFree_freeBlocks (a : Alloc) (relStart len n : Nat) :
    (a.freeBlocks relStart len).isFree n =
      (a.isFree n || decide (relStart ≤ n ∧ n < relStart + len ∧ n < a.blockCount)) := by
  unfold freeBlocks
  by_cases hNone : len = 0 ∨ a.blockCount ≤ relStart
  · have hOut : ¬ (relStart ≤ n ∧ n < relStart + len ∧ n < a.blockCount) := by omega
    simp [hNone, hOut]
  · rw [if_neg hNone]
    dsimp only
    rw [isFree_foldl_freeWord]
    have hIff : (n / 64 ∈ List.range' (relStart / 64)
          ((min (relStart + len) a.blockCount - 1) / 64 + 1 - relStart / 64) ∧
        relStart ≤ n ∧ n < min (relStart + len) a.blockCount) ↔
        relStart ≤ n ∧ n < relStart + len ∧ n < a.blockCount := by
      rw [List.mem_range'_1]
      constructor
      · rintro ⟨-, hLo, hHi⟩
        omega
      · rintro ⟨hLo, hHi, hDev⟩
        refine ⟨⟨by omega, ?_⟩, hLo, by omega⟩
        have hDiv : n / 64 ≤ (min (relStart + len) a.blockCount - 1) / 64 :=
          Nat.div_le_div_right (by omega)
        omega
    simp only [hIff]

@[simp]
theorem blockCount_freeBlocks (a : Alloc) (relStart len : Nat) :
    (a.freeBlocks relStart len).blockCount = a.blockCount := by
  unfold freeBlocks
  split
  · rfl
  · exact blockCount_foldl_freeWord _ _ _ _

/-- What a single-block allocation `r` from `a` does: a nonzero result was free,
and apart from it and block 0 (which may get reserved) nothing changes. -/
structure Took (a : Alloc) (r : Nat × Alloc) : Prop where
  wasFree    : r.1 ≠ 0 → a.isFree r.1 = true
  frame      : ∀ n, n ≠ 0 → r.2.isFree n = (a.isFree n && decide (n ≠ r.1))
  zero       : r.2.isFree 0 = true → a.isFree 0 = true
  blockCount : r.2.blockCount = a.blockCount

theorem Took.of_l2_eq {a b : Alloc} (hL2 : b.l2 = a.l2) (hCount : b.blockCount = a.blockCount) :
    Took a (0, b) := by
  have hFree : ∀ n, b.isFree n = a.isFree n := fun n => by unfold isFree; rw [hL2]
  refine ⟨fun h => absurd rfl h, ?_, ?_, hCount⟩
  · intro n hn
    rw [hFree n]
    simp [hn]
  · intro h
    rwa [hFree] at h

/-- Searching from a state with the same leaf bits is searching from `a`. -/
theorem Took.congr {a b : Alloc} {r : Nat × Alloc} (hL2 : b.l2 = a.l2)
    (hCount : b.blockCount = a.blockCount) (h : Took b r) : Took a r := by
  have hFree : ∀ n, b.isFree n = a.isFree n := fun n => by unfold isFree; rw [hL2]
  refine ⟨?_, ?_, ?_, h.blockCount.trans hCount⟩
  · intro hNe
    rw [← hFree]
    exact h.wasFree hNe
  · intro n hn
    rw [h.frame n hn, hFree]
  · intro hZero
    rw [← hFree]
    exact h.zero hZero

/-- Taking a set bit. -/
theorem Took.of_takeBit {a b : Alloc} {w2 b2 : Nat} (hBit : b2 < 64)
    (hSet : (a.l2 w2).getLsbD b2 = true) (hL2 : b.l2 = (a.takeBit w2 b2).l2)
    (hCount : b.blockCount = a.blockCount) : Took a (w2 * 64 + b2, b) := by
  have hFree : ∀ n, b.isFree n = (a.isFree n && !decide (n = w2 * 64 + b2)) := by
    intro n
    rw [← isFree_takeBit hBit]
    unfold isFree
    rw [hL2]
  have hDiv : (w2 * 64 + b2) / 64 = w2 := by omega
  have hMod : (w2 * 64 + b2) % 64 = b2 := by omega
  refine ⟨?_, ?_, ?_, hCount⟩
  · intro _
    unfold isFree Words.test
    rw [hDiv, hMod]
    exact hSet
  · intro n _
    rw [hFree n]
    simp
  · intro hZero
    rw [hFree 0, Bool.and_eq_true] at hZero
    exact hZero.1

theorem getLsbD_of_validWord {a : Alloc} {w2 b2 : Nat}
    (h : (a.validWord w2).getLsbD b2 = true) : (a.l2 w2).getLsbD b2 = true := by
  unfold validWord at h
  split at h
  · rw [BitVec.getLsbD_and, Bool.and_eq_true] at h
    exact h.1
  · exact h

theorem scanHigh_took (a : Alloc) : ∀ w2, Took a (a.scanHigh w2)
  | 0 => Took.of_l2_eq rfl rfl
  | w2 + 1 => by
    unfold scanHigh
    dsimp only
    split
    · exact scanHigh_took a w2
    · rename_i hNe
      obtain ⟨hBit, hSet⟩ := highBit_spec (fun h => hNe (.inr h))
      exact Took.of_takeBit hBit (getLsbD_of_validWord hSet) rfl (blockCount_takeBit a _ _)

/-- The top-down allocator takes a free block or nothing. -/
theorem allocBlockHigh_spec (a : Alloc) : Took a a.allocBlockHigh := by
  unfold allocBlockHigh
  split
  · exact Took.of_l2_eq rfl rfl
  · exact scanHigh_took a _

theorem blockCount_propagateL2Zero (a : Alloc) (w2 : Nat) :
    (a.propagateL2Zero w2).blockCount = a.blockCount := by
  unfold propagateL2Zero
  dsimp only
  split <;> rfl

theorem scanPyramid_took : ∀ (n i : Nat) (a : Alloc), Took a (a.scanPyramid n i)
  | 0, _, _ => Took.of_l2_eq rfl rfl
  | n + 1, i, a => by
    unfold scanPyramid
    dsimp only
    split
    · exact scanPyramid_took n (i + 1) a
    · split
      · exact Took.of_l2_eq rfl rfl
      · split
        · refine Took.congr ?_ ?_ (scanPyramid_took n (i + 1) _)
          · rfl
          · rfl
        · split
          · exact Took.of_l2_eq rfl rfl
          · split
            · exact Took.congr (l2_propagateL2Zero a _) (blockCount_propagateL2Zero a _)
                (scanPyramid_took n (i + 1) _)
            · rename_i hNe
              split
              · exact Took.of_l2_eq rfl rfl
              · obtain ⟨hBit, hSet⟩ := lowBit_spec hNe
                exact Took.of_takeBit hBit hSet rfl (blockCount_takeBit a _ _)

/-- The pyramid search takes a free block or nothing. -/
theorem allocBlockFrom_spec (a : Alloc) (avail : BitVec 64) : Took a (a.allocBlockFrom avail) := by
  unfold allocBlockFrom
  split
  · exact Took.of_l2_eq rfl rfl
  · dsimp only
    by_cases hZero : a.isFree 0 = true
    · rw [if_pos hZero]
      have hTook := scanPyramid_took (a.takeBit 0 0).l0Words 0 (a.takeBit 0 0)
      have hFree : ∀ n, n ≠ 0 → (a.takeBit 0 0).isFree n = a.isFree n := by
        intro n hn
        rw [isFree_takeBit (by decide)]
        simp [hn]
      refine ⟨?_, ?_, fun _ => hZero, hTook.blockCount.trans (blockCount_takeBit a 0 0)⟩
      · intro hNe
        rw [← hFree _ hNe]
        exact hTook.wasFree hNe
      · intro n hn
        rw [hTook.frame n hn, hFree n hn]
    · rw [if_neg hZero]
      exact scanPyramid_took _ _ a

theorem allocBlock_spec (a : Alloc) : Took a a.allocBlock := allocBlockFrom_spec a a.avail

/-- Rebuilding the summaries reserves block 0 and drops the bits of the last
word past the end of the device. -/
theorem isFree_recomputeSummaries {a : Alloc} {n : Nat} (hn : n ≠ 0) (hDev : n < a.blockCount) :
    a.recomputeSummaries.isFree n = a.isFree n := by
  have hWords := a.hL2
  have hPos : 0 < a.l2Words := by omega
  unfold recomputeSummaries isFree
  dsimp only
  rw [if_pos hPos, if_pos hPos, Words.test_clear (by decide)]
  have hNe : ¬ n = 0 * 64 + 0 := by omega
  simp only [hNe, decide_false, Bool.not_false, Bool.and_true]
  unfold Words.test
  by_cases hw : n / 64 = a.l2Words - 1
  · rw [hw, Function.update_self, BitVec.getLsbD_and,
      getLsbD_rangeMask (Nat.mod_lt _ (by decide))]
    have hValid : n % 64 < (if a.blockCount % 64 = 0 then 64 else a.blockCount % 64) := by
      split <;> omega
    simp [hValid]
  · rw [Function.update_of_ne hw]

end Alloc

end Briefs
