import Briefs.Alloc.Blocks
import Briefs.Replay.World

/-!
# BrieFS — the allocator finds a block whenever there is one

Safety of the searches (what they return was free) needs no invariant. That they
do not give up early does: the three-level descent relies on the summaries, the
first-fit scan on its hint, and both on the free count. In a consistent state
with block 0 reserved the outcome of each call depends on the counts and the leaf
bits alone, whatever the rovers are.

## Results

* `allocBlockFrom_eq_zero_iff` — the pyramid search fails only when nothing is
  available to the caller.
* `allocBlocks_found`, `allocBlocks_none` — the run search takes the first fit.
* `alloc_finds_iff_available` — all calls together.
-/

namespace Briefs

open Briefs.Lib

namespace Alloc

variable {a : Alloc}

--
-- Single blocks
--

/-- `r` is `a` with one block of the device taken, its number returned. -/
structure TakesBlock (a : Alloc) (r : Nat × Alloc) : Prop where
  pos     : 1 ≤ r.1
  inside  : r.1 < a.blockCount
  wasFree : a.isFree r.1 = true
  bits    : ∀ n, r.2.isFree n = (a.isFree n && decide (n ≠ r.1))

/-- A free block makes a level-0 word nonzero. -/
theorem Consistent.exists_l0 (h : a.Consistent) (hCount : a.freeCount ≠ 0#64) :
    ∃ w0, w0 < a.l0Words ∧ a.l0 w0 ≠ 0#64 := by
  have hL1 := a.hL1
  have hL0 := a.hL0
  have hNe : a.l2.count (a.l2Words * 64) ≠ 0 := by
    rw [← h.count]
    intro hZero
    exact hCount (BitVec.eq_of_toNat_eq hZero)
  obtain ⟨n, hn, hFree⟩ := Words.exists_of_count_ne_zero hNe
  have hNe2 : a.l2 (n / 64) ≠ 0#64 := ne_zero_of_isFree hFree
  have hNe1 : a.l1 (n / 64 / 64) ≠ 0#64 :=
    h.summaries.level1.up_ne_zero hL1 (by omega) hNe2
  have hNe0 : a.l0 (n / 64 / 64 / 64) ≠ 0#64 :=
    h.summaries.level0.up_ne_zero hL0 (by omega) hNe1
  exact ⟨_, by omega, hNe0⟩

/-- The rotated scan passes every level-0 word. -/
theorem exists_rotation {k w0 : Nat} (rover : Nat) (hw0 : w0 < k) :
    ∃ j, j < k ∧ (rover + j) % k = w0 := by
  have hk : 0 < k := by omega
  refine ⟨(w0 + (k - rover % k)) % k, Nat.mod_lt _ hk, ?_⟩
  have hr : rover % k < k := Nat.mod_lt _ hk
  have hSplit : k * (rover / k) + rover % k = rover := Nat.div_add_mod rover k
  rw [Nat.add_mod_mod]
  have hSum : rover + (w0 + (k - rover % k)) = w0 + k * (rover / k + 1) := by
    rw [Nat.mul_add, Nat.mul_one]
    omega
  rw [hSum, Nat.add_mul_mod_self_left, Nat.mod_eq_of_lt hw0]

/-- The loop stops at the first nonzero level-0 word it passes. -/
theorem Consistent.scanPyramid_finds (h : a.Consistent) (hPos : 0 < a.l0Words)
    (hZero : a.isFree 0 = false) : ∀ n i j, i ≤ j → j < i + n →
    a.l0 ((a.roverW0 + j) % a.l0Words) ≠ 0#64 →
    (a.scanPyramid n i).1 ≠ 0 ∧ (a.scanPyramid n i).1 < a.blockCount
  | 0, i, j, hij, hj, _ => by omega
  | n + 1, i, j, hij, hj, hNe => by
    rcases h.scanPyramid_succ hPos n i with ⟨hSkip, hEq⟩ | ⟨w2, b2, rover, -, -, hFree, hDev, hEq⟩
    · rw [hEq]
      have hLater : i ≠ j := fun hEq' => hNe (hEq' ▸ hSkip)
      exact Consistent.scanPyramid_finds h hPos hZero n (i + 1) j (by omega) (by omega) hNe
    · rw [hEq]
      refine ⟨?_, hDev⟩
      intro hBlock
      have hBlock' : w2 * 64 + b2 = 0 := hBlock
      rw [hBlock', hZero] at hFree
      exact absurd hFree (by decide)

/-- The pyramid search takes a block of the device when one is available. -/
theorem Consistent.allocBlockFrom_takes (h : a.Consistent) (hZero : a.isFree 0 = false)
    {avail : BitVec 64} (hAvail : avail ≠ 0#64) (hCount : a.freeCount ≠ 0#64) :
    TakesBlock a (a.allocBlockFrom avail) := by
  have hTook := allocBlockFrom_spec a avail
  have hScan : a.allocBlockFrom avail = a.scanPyramid a.l0Words 0 := by
    unfold Alloc.allocBlockFrom
    dsimp only
    rw [if_neg hAvail, if_neg (by simp [hZero])]
  obtain ⟨w0, hw0, hNe⟩ := h.exists_l0 hCount
  obtain ⟨j, hj, hAt⟩ := exists_rotation a.roverW0 hw0
  rw [← hAt] at hNe
  obtain ⟨hBlock, hDev⟩ :=
    h.scanPyramid_finds (by omega) hZero a.l0Words 0 j (Nat.zero_le _) (by omega) hNe
  rw [← hScan] at hBlock hDev
  refine ⟨Nat.pos_of_ne_zero hBlock, hDev, hTook.wasFree hBlock, ?_⟩
  intro n
  by_cases hn : n = 0
  · subst hn
    rw [hZero, Bool.false_and]
    by_contra hFree
    have hOld := hTook.zero (by simpa using hFree)
    rw [hZero] at hOld
    exact absurd hOld (by decide)
  · exact hTook.frame n hn

theorem allocBlockFrom_zero (a : Alloc) : a.allocBlockFrom 0#64 = (0, a) := by
  unfold Alloc.allocBlockFrom
  rw [if_pos rfl]

/-- The pyramid search fails only when nothing is available to the caller. -/
theorem Consistent.allocBlockFrom_eq_zero_iff (h : a.Consistent) (hZero : a.isFree 0 = false)
    {avail : BitVec 64} (hCount : avail ≠ 0#64 → a.freeCount ≠ 0#64) :
    (a.allocBlockFrom avail).1 = 0 ↔ avail = 0#64 := by
  constructor
  · intro hFail
    by_contra hAvail
    have hPos := (h.allocBlockFrom_takes hZero hAvail (hCount hAvail)).pos
    omega
  · intro hAvail
    rw [hAvail, allocBlockFrom_zero]

--
-- Metadata blocks
--

/-- A consistent allocator whose block 0 is reserved. -/
structure Healthy (a : Alloc) : Prop where
  consistent : a.Consistent
  zero       : a.isFree 0 = false

/-- One free block less lowers the count by one at most. -/
theorem freeCount_le_of_bits {b : Alloc} (ha : a.Consistent) (hb : b.Consistent)
    (hCount : b.blockCount = a.blockCount) {r : Nat}
    (hBits : ∀ n, a.isFree n = true → n ≠ r → b.isFree n = true) :
    a.freeCount.toNat ≤ b.freeCount.toNat + 1 := by
  have hWords : b.l2Words = a.l2Words := by
    rw [hb.geometry.level2, ha.geometry.level2, hCount]
  rw [ha.count, hb.count, hWords]
  unfold Words.count
  rw [Nat.count_eq_card_filter_range, Nat.count_eq_card_filter_range]
  refine le_trans (Finset.card_le_card ?_) (Finset.card_insert_le r _)
  intro n hn
  rw [Finset.mem_filter] at hn
  rw [Finset.mem_insert, Finset.mem_filter]
  by_cases hr : n = r
  · exact Or.inl hr
  · exact Or.inr ⟨hn.1, hBits n hn.2 hr⟩

/-- More free blocks do not lower the count. -/
theorem freeCount_mono {b : Alloc} (ha : a.Consistent) (hb : b.Consistent)
    (hCount : b.blockCount = a.blockCount) (hBits : ∀ n, a.isFree n = true → b.isFree n = true) :
    a.freeCount.toNat ≤ b.freeCount.toNat := by
  have hWords : b.l2Words = a.l2Words := by
    rw [hb.geometry.level2, ha.geometry.level2, hCount]
  rw [ha.count, hb.count, hWords]
  unfold Words.count
  exact Nat.count_mono_left fun n _ hn => hBits n hn

theorem Healthy.allocBlockMeta (h : a.Healthy) : a.allocBlockMeta.2.Healthy := by
  have hTook := allocBlockFrom_spec a a.freeCount
  refine ⟨h.consistent.allocBlockFrom fun hNe => hNe, ?_⟩
  by_contra hFree
  have hNow : a.allocBlockMeta.2.isFree 0 = true := by simpa using hFree
  have hOld := hTook.zero hNow
  rw [h.zero] at hOld
  exact absurd hOld (by decide)

/-- A metadata allocation fails only on a full device. -/
theorem Healthy.allocBlockMeta_eq_zero_iff (h : a.Healthy) :
    a.allocBlockMeta.1 = 0 ↔ a.freeCount.toNat = 0 := by
  have hIff : (a.allocBlockFrom a.freeCount).1 = 0 ↔ a.freeCount = 0#64 :=
    h.consistent.allocBlockFrom_eq_zero_iff h.zero fun hNe => hNe
  unfold Alloc.allocBlockMeta
  rw [hIff]
  constructor
  · intro hZero
    rw [hZero]
    rfl
  · intro hZero
    exact BitVec.eq_of_toNat_eq hZero

theorem Healthy.freeCount_allocBlockMeta (h : a.Healthy) :
    a.freeCount.toNat ≤ a.allocBlockMeta.2.freeCount.toNat + 1 := by
  have hTook := allocBlockFrom_spec a a.freeCount
  refine freeCount_le_of_bits h.consistent h.allocBlockMeta.consistent hTook.blockCount
    (r := a.allocBlockMeta.1) ?_
  intro n hn hNe
  have hPos : n ≠ 0 := by
    rintro rfl
    rw [h.zero] at hn
    exact absurd hn (by decide)
  show (a.allocBlockFrom a.freeCount).2.isFree n = true
  rw [hTook.frame n hPos, hn, Bool.true_and, decide_eq_true_eq]
  exact hNe

/-- A metadata block that is taken lowers the count by one. -/
theorem Healthy.freeCount_taken (h : a.Healthy) (hNe : a.allocBlockMeta.1 ≠ 0) :
    a.freeCount.toNat = a.allocBlockMeta.2.freeCount.toNat + 1 := by
  have hCount : a.freeCount ≠ 0#64 := fun hNone =>
    hNe (h.allocBlockMeta_eq_zero_iff.mpr (by rw [hNone]; rfl))
  have hTakes : TakesBlock a a.allocBlockMeta :=
    h.consistent.allocBlockFrom_takes h.zero hCount hCount
  have hNext := h.allocBlockMeta.consistent
  have hSize : a.allocBlockMeta.2.blockCount = a.blockCount :=
    (allocBlockFrom_spec a a.freeCount).blockCount
  have hLevel := h.consistent.geometry.level2
  have hWords : a.allocBlockMeta.2.l2Words = a.l2Words := by
    rw [hNext.geometry.level2, hLevel, hSize]
  refine Nat.le_antisymm h.freeCount_allocBlockMeta ?_
  rw [h.consistent.count, hNext.count, hWords]
  unfold Words.count
  rw [Nat.count_eq_card_filter_range, Nat.count_eq_card_filter_range]
  have hFewer : ∀ n, a.allocBlockMeta.2.isFree n = true → a.isFree n = true := by
    intro n hn
    rw [hTakes.bits, Bool.and_eq_true] at hn
    exact hn.1
  refine Finset.card_lt_card ((Finset.ssubset_iff_of_subset ?_).mpr ⟨a.allocBlockMeta.1, ?_, ?_⟩)
  · exact Finset.monotone_filter_right _ fun n _ hn => hFewer n hn
  · have hInside := hTakes.inside
    exact Finset.mem_filter.mpr ⟨Finset.mem_range.mpr (by omega), hTakes.wasFree⟩
  · intro hIn
    have hStill : a.allocBlockMeta.2.isFree a.allocBlockMeta.1 = true := (Finset.mem_filter.mp hIn).2
    rw [hTakes.bits] at hStill
    simp at hStill

theorem Healthy.freeBlock (h : a.Healthy) {rel : Nat} (hRel : rel ≠ 0) :
    (a.freeBlock rel).Healthy := by
  refine ⟨h.consistent.freeBlock rel, ?_⟩
  rw [isFree_freeBlock, h.zero]
  simp [hRel.symm]

theorem Healthy.freeBlocks (h : a.Healthy) {relStart n : Nat} (hRel : relStart ≠ 0) :
    (a.freeBlocks relStart n).Healthy := by
  refine ⟨h.consistent.freeBlocks relStart n, ?_⟩
  rw [isFree_freeBlocks, h.zero]
  simp [hRel]

--
-- The shield
--

theorem toNat_avail (a : Alloc) : a.avail.toNat = a.freeCount.toNat - a.metaShield.toNat := by
  unfold avail
  by_cases hLt : a.metaShield < a.freeCount
  · rw [if_pos hLt, BitVec.toNat_sub_of_le (BitVec.le_of_lt hLt)]
  · rw [if_neg hLt]
    have hLe : a.freeCount.toNat ≤ a.metaShield.toNat := Nat.not_lt.mp hLt
    have hNone : a.freeCount.toNat - a.metaShield.toNat = 0 := by omega
    rw [hNone]
    rfl

theorem avail_eq_zero_iff (a : Alloc) : a.avail = 0#64 ↔ a.freeCount ≤ a.metaShield := by
  have hNat := toNat_avail a
  constructor
  · intro hAvail
    rw [hAvail] at hNat
    have hZero : (0#64).toNat = 0 := rfl
    show a.freeCount.toNat ≤ a.metaShield.toNat
    omega
  · intro hLe
    have hLe' : a.freeCount.toNat ≤ a.metaShield.toNat := hLe
    apply BitVec.eq_of_toNat_eq
    show a.avail.toNat = 0
    omega

/-- The downward scan that finds nothing only moves its rover. -/
theorem scanHigh_fails (a : Alloc) : ∀ w2, (a.scanHigh w2).1 = 0 →
    (a.scanHigh w2).2 = { a with roverW2High := a.l2Words - 1 }
  | 0, _ => rfl
  | w2 + 1, hFail => by
    unfold Alloc.scanHigh at hFail ⊢
    dsimp only at hFail ⊢
    split
    · rename_i hEmpty
      rw [if_pos hEmpty] at hFail
      exact scanHigh_fails a w2 hFail
    · rename_i hSome
      rw [if_neg hSome] at hFail
      have hBlock : (w2 + 1) * 64 + highBit (a.validWord (w2 + 1)) = 0 := hFail
      omega

/-- The top-down search with its fallback succeeds when the plain search does. -/
theorem Consistent.allocTrieBlock_iff (h : a.Consistent) (hZero : a.isFree 0 = false) :
    (Replay.allocTrieBlock a).1 = 0 ↔ a.allocBlock.1 = 0 := by
  have hPlain : a.allocBlock.1 = 0 ↔ a.avail = 0#64 :=
    h.allocBlockFrom_eq_zero_iff hZero freeCount_ne_zero_of_avail
  unfold Replay.allocTrieBlock
  by_cases hAvail : a.avail = 0#64
  · -- nothing available: both searches return at once
    have hHigh : a.allocBlockHigh = (0, a) := by
      unfold Alloc.allocBlockHigh
      rw [if_pos hAvail]
    rw [hHigh, if_pos rfl]
  · rw [hPlain]
    refine iff_of_false ?_ hAvail
    by_cases hHigh : a.allocBlockHigh.1 = 0
    · rw [if_pos hHigh]
      -- the fallback runs from the same state, the rover of the top-down scan apart
      obtain ⟨rover, hSame⟩ : ∃ rover, a.allocBlockHigh.2 = { a with roverW2High := rover } := by
        unfold Alloc.allocBlockHigh at hHigh ⊢
        rw [if_neg hAvail] at hHigh ⊢
        exact ⟨_, scanHigh_fails a _ hHigh⟩
      have hAfter := h.allocBlockHigh
      rw [hSame] at hAfter ⊢
      have hFallback := hAfter.allocBlockFrom_eq_zero_iff hZero freeCount_ne_zero_of_avail
      intro hFail
      exact hAvail (hFallback.mp hFail)
    · rw [if_neg hHigh]
      exact hHigh

--
-- Runs
--

/-- Past its tests, with block 0 reserved, the call is the scan from the hint. -/
theorem allocBlocks_eq (hZero : a.isFree 0 = false) {n : Nat} (hn : 1 ≤ n)
    (hRoom : n ≤ a.avail.toNat) (hDev : n ≤ a.blockCount) :
    a.allocBlocks n =
      match a.scanRuns n (a.l2Words - a.firstFreeW2) a.firstFreeW2 0 0 with
      | (none, a) => (0, a)
      | (some runStart, a) => (runStart, a.takeRun runStart n) := by
  unfold allocBlocks
  rw [if_neg (by omega), if_neg (by omega)]
  dsimp only
  rewrite [if_neg (by simp [hZero])]
  rfl

theorem Consistent.avail_le_blockCount (h : a.Consistent) : a.avail.toNat ≤ a.blockCount := by
  have hAvail := toNat_avail a
  have hBound : a.l2.count (a.l2Words * 64) ≤ a.blockCount := Words.count_le_of_forall h.inside
  rw [← h.count] at hBound
  omega

theorem isFree_takeRun (a : Alloc) (s n i : Nat) :
    (a.takeRun s n).isFree i = (a.isFree i && !decide (s ≤ i ∧ i < s + n)) := by
  unfold isFree
  rw [(sameLeaves_takeRun a s n).l2, test_clearRun]

/-- The run search takes the first fit. -/
theorem Consistent.allocBlocks_found (h : a.Consistent) (hZero : a.isFree 0 = false) {n : Nat}
    (hn : 1 ≤ n) (hRoom : n ≤ a.avail.toNat) (hRun : ∃ s, IsRun a.devFree s n) :
    FirstFit a.devFree n (a.allocBlocks n).1 ∧
      ∀ i, (a.allocBlocks n).2.isFree i =
        (a.isFree i && !decide ((a.allocBlocks n).1 ≤ i ∧ i < (a.allocBlocks n).1 + n)) := by
  have hDev := h.avail_le_blockCount
  have hScan := h.scanFromHint (show 0 < n by omega)
  rw [allocBlocks_eq hZero hn hRoom (by omega)]
  generalize a.scanRuns n (a.l2Words - a.firstFreeW2) a.firstFreeW2 0 0 = r at hScan ⊢
  obtain ⟨found, b⟩ := r
  cases found with
  | none =>
    obtain ⟨s, hs⟩ := hRun
    exact absurd hs (hScan.none rfl s)
  | some s =>
    refine ⟨hScan.found s rfl, ?_⟩
    intro i
    have hSame : b.isFree i = a.isFree i := by
      unfold isFree
      rw [show b.l2 = a.l2 from hScan.l2]
    show (b.takeRun s n).isFree i = _
    rw [isFree_takeRun, hSame]

theorem Consistent.allocBlocks_none (h : a.Consistent) (hZero : a.isFree 0 = false) {n : Nat}
    (hNone : a.avail.toNat < n ∨ ¬ ∃ s, IsRun a.devFree s n) : (a.allocBlocks n).1 = 0 := by
  by_cases hn : n = 0
  · unfold Alloc.allocBlocks
    rw [if_pos hn]
  · by_cases hRoom : a.avail.toNat < n
    · unfold Alloc.allocBlocks
      rw [if_neg hn, if_pos (Or.inl hRoom)]
    · have hDev := h.avail_le_blockCount
      have hScan := h.scanFromHint (show 0 < n by omega)
      rw [allocBlocks_eq hZero (by omega) (by omega) (by omega)]
      generalize a.scanRuns n (a.l2Words - a.firstFreeW2) a.firstFreeW2 0 0 = r at hScan ⊢
      obtain ⟨found, b⟩ := r
      cases found with
      | none => rfl
      | some s =>
        rcases hNone with hFew | hNoRun
        · exact absurd hFew hRoom
        · exact absurd ⟨s, (hScan.found s rfl).isRun⟩ hNoRun

theorem Healthy.allocBlock (h : a.Healthy) : a.allocBlock.2.Healthy := by
  have hTook := allocBlock_spec a
  refine ⟨h.consistent.allocBlockFrom freeCount_ne_zero_of_avail, ?_⟩
  by_contra hFree
  have hOld := hTook.zero (by simpa using hFree)
  rw [h.zero] at hOld
  cases hOld

/-- What a run allocation leaves, found or not. -/
structure TookRun (a : Alloc) (n : Nat) (r : Nat × Alloc) : Prop where
  healthy : r.2.Healthy
  fewer   : ∀ i, r.2.isFree i = true → a.isFree i = true
  run     : r.1 ≠ 0 → ∀ i, r.1 ≤ i → i < r.1 + n → a.isFree i = true ∧ r.2.isFree i = false
  size    : r.2.blockCount = a.blockCount
  inside  : r.1 ≠ 0 → r.1 + n ≤ a.blockCount

theorem Healthy.allocBlocks (h : a.Healthy) (n : Nat) : TookRun a n (a.allocBlocks n) := by
  have hSame : a.allocBlocks n = (0, a) → TookRun a n (a.allocBlocks n) := by
    intro hEq
    rw [hEq]
    exact ⟨h, fun i hi => hi, fun hNe => absurd rfl hNe, rfl, fun hNe => absurd rfl hNe⟩
  by_cases hn : n = 0
  · refine hSame ?_
    unfold Alloc.allocBlocks
    rw [if_pos hn]
  by_cases hRoom : a.avail.toNat < n ∨ a.blockCount < n
  · refine hSame ?_
    unfold Alloc.allocBlocks
    rw [if_neg hn, if_pos hRoom]
  · have hScan := h.consistent.scanFromHint (show 0 < n by omega)
    have hConsistent := h.consistent.allocBlocks n
    have hEq := allocBlocks_eq h.zero (show 1 ≤ n by omega) (show n ≤ a.avail.toNat by omega)
      (show n ≤ a.blockCount by omega)
    rw [hEq] at hConsistent ⊢
    generalize a.scanRuns n (a.l2Words - a.firstFreeW2) a.firstFreeW2 0 0 = r at hScan hConsistent ⊢
    obtain ⟨found, b⟩ := r
    have hSameBits : ∀ i, b.isFree i = a.isFree i := by
      intro i
      unfold isFree
      rw [show b.l2 = a.l2 from hScan.l2]
    cases found with
    | none =>
      refine ⟨⟨hConsistent, ?_⟩, fun i hi => ?_, fun hNe => absurd rfl hNe, hScan.shape.blockCount,
        fun hNe => absurd rfl hNe⟩
      · exact (hSameBits 0).trans h.zero
      · rw [← hSameBits i]
        exact hi
    | some s =>
      refine ⟨⟨hConsistent, ?_⟩, fun i hi => ?_, fun _ i hLo hHi => ?_, ?_,
        fun _ => IsRun.le_blockCount (hScan.found s rfl).isRun (show 0 < n by omega)⟩
      · show (b.takeRun s n).isFree 0 = false
        rw [isFree_takeRun, hSameBits, h.zero, Bool.false_and]
      · have hNow : (b.takeRun s n).isFree i = true := hi
        rw [isFree_takeRun, hSameBits, Bool.and_eq_true] at hNow
        exact hNow.1
      · refine ⟨IsRun.isFree (hScan.found s rfl).isRun i hLo hHi, ?_⟩
        show (b.takeRun s n).isFree i = false
        rw [isFree_takeRun, decide_eq_true ⟨hLo, hHi⟩, Bool.not_true, Bool.and_false]
      · exact (sameLeaves_takeRun b s n).shape.blockCount.trans hScan.shape.blockCount

--
-- All calls
--

/-- In every consistent state with block 0 reserved, whatever the shield and the
rovers: a data allocation fails exactly when the free count is within the shield,
a metadata allocation exactly when nothing is free, and otherwise one free block
of the device is taken; the run allocator takes the first fit when there is one
within the available count; and the top-down search with its fallback succeeds
exactly when the plain search does. -/
theorem alloc_finds_iff_available (h : a.Consistent) (hZero : a.isFree 0 = false) :
    ((a.allocBlock.1 = 0 ↔ a.freeCount ≤ a.metaShield) ∧
      (a.allocBlock.1 ≠ 0 → TakesBlock a a.allocBlock)) ∧
    ((a.allocBlockMeta.1 = 0 ↔ a.freeCount = 0#64) ∧
      (a.allocBlockMeta.1 ≠ 0 → TakesBlock a a.allocBlockMeta)) ∧
    (∀ n, 1 ≤ n →
      ((∃ s, IsRun a.devFree s n) ∧ n ≤ a.freeCount.toNat - a.metaShield.toNat →
        FirstFit a.devFree n (a.allocBlocks n).1 ∧ 1 ≤ (a.allocBlocks n).1 ∧
        ∀ i, (a.allocBlocks n).2.isFree i =
          (a.isFree i && !decide ((a.allocBlocks n).1 ≤ i ∧ i < (a.allocBlocks n).1 + n))) ∧
      (¬ ((∃ s, IsRun a.devFree s n) ∧ n ≤ a.freeCount.toNat - a.metaShield.toNat) →
        (a.allocBlocks n).1 = 0)) ∧
    ((Replay.allocTrieBlock a).1 ≠ 0 ↔ a.allocBlock.1 ≠ 0) := by
  have hData : a.allocBlock.1 = 0 ↔ a.avail = 0#64 :=
    h.allocBlockFrom_eq_zero_iff hZero freeCount_ne_zero_of_avail
  have hMeta : a.allocBlockMeta.1 = 0 ↔ a.freeCount = 0#64 :=
    h.allocBlockFrom_eq_zero_iff hZero id
  refine ⟨⟨hData.trans (avail_eq_zero_iff a), ?_⟩, ⟨hMeta, ?_⟩, ?_,
    not_congr (h.allocTrieBlock_iff hZero)⟩
  · intro hNe
    have hAvail : a.avail ≠ 0#64 := fun hEq => hNe (hData.mpr hEq)
    exact h.allocBlockFrom_takes hZero hAvail (freeCount_ne_zero_of_avail hAvail)
  · intro hNe
    have hCount : a.freeCount ≠ 0#64 := fun hEq => hNe (hMeta.mpr hEq)
    exact h.allocBlockFrom_takes hZero hCount hCount
  · intro n hn
    rw [← toNat_avail]
    constructor
    · rintro ⟨hRun, hRoom⟩
      obtain ⟨hFit, hBits⟩ := h.allocBlocks_found hZero hn hRoom hRun
      refine ⟨hFit, ?_, hBits⟩
      -- block 0 is not free, so no run starts there
      by_contra hStart
      have hFirst := IsRun.isFree hFit.isRun 0 (by omega) (by omega)
      rw [hZero] at hFirst
      exact absurd hFirst (by decide)
    · intro hNone
      apply h.allocBlocks_none hZero
      by_cases hRoom : a.avail.toNat < n
      · exact Or.inl hRoom
      · exact Or.inr fun hRun => hNone ⟨hRun, by omega⟩

/-- The rebuilt sample pool has 99 free blocks, so a data allocation succeeds. -/
theorem samplePool_alloc : samplePool.recomputeSummaries.allocBlock.1 ≠ 0 := by
  have hConsistent : samplePool.recomputeSummaries.Consistent :=
    consistent_recomputeSummaries ⟨by decide, by decide⟩ fun i hi _ => absurd hi (Nat.not_lt_zero i)
  have hZero : samplePool.recomputeSummaries.isFree 0 = false := by decide +kernel
  intro hFail
  exact absurd ((alloc_finds_iff_available hConsistent hZero).1.1.mp hFail) (by decide +kernel)

end Alloc

end Briefs
