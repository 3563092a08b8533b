import Briefs.Alloc.Pyramid
import Briefs.Lib.Runs

/-!
# BrieFS — allocating runs, and every sequence of calls

`briefs_alloc_blocks` takes the first run of `n` free blocks. Its scan starts at
a hint below which all words are known to be zero, and its word loop brings the
summaries up to date one word at a time after all bits of the run are cleared.
With it every call that changes an allocator is covered.

## Results

* `Consistent.scanFromHint` — the scan reports the first fit, or there is none.
* `Consistent.allocBlocks` — taking a run keeps the pyramid consistent.
* `pyramid_consistent` — any sequence of calls from a consistent state, and
  rebuilding the summaries from any level 2.
-/

namespace Briefs

open Briefs.Lib

namespace Alloc

--
-- Allocating a run
--

/-- A level-2 word as `briefs_alloc_blocks` sees it: the last word without the bits
past the last block. -/
def scanWord (a : Alloc) (w2 : Nat) : BitVec 64 :=
  if w2 = a.l2Words - 1 ∧ a.blockCount % 64 ≠ 0
  then a.l2 w2 &&& (bit (a.blockCount % 64) - 1#64) else a.l2 w2

/-- The first-fit scan of `briefs_alloc_blocks` with `left` words to go. The hint
advances over zero words as long as the scan stands at it. -/
def scanRuns (a : Alloc) (n : Nat) : Nat → Nat → Nat → Nat → Option Nat × Alloc
  | 0, _, _, _ => (none, a)
  | left + 1, w2, runStart, runLen =>
    if a.scanWord w2 = 0#64 then
      let hint := if w2 = a.firstFreeW2 then a.firstFreeW2 + 1 else a.firstFreeW2
      { a with firstFreeW2 := hint }.scanRuns n left (w2 + 1) runStart 0
    else
      match walkWord n (w2 * 64) 64 (a.scanWord w2) runStart runLen with
      | .found runStart => (some runStart, a)
      | .more runStart runLen => a.scanRuns n left (w2 + 1) runStart runLen

/-- Clear the bits `s, …, s + n - 1`. -/
def clearRun (m : Words) (s n : Nat) : Words :=
  (List.range n).foldl (fun m i => m.clear ((s + i) / 64) ((s + i) % 64)) m

/-- Clear the summary bits of the words of `l` that became zero. -/
def propagateZeros (a : Alloc) (l : List Nat) : Alloc :=
  l.foldl (fun a w2 => if a.l2 w2 = 0#64 then a.propagateL2Zero w2 else a) a

/-- The `found:` part of `briefs_alloc_blocks`. -/
def takeRun (a : Alloc) (runStart n : Nat) : Alloc :=
  let first := runStart / 64
  let last := (runStart + n - 1) / 64
  let words := List.range' first (last + 1 - first)
  let a := { a with l2 := clearRun a.l2 runStart n,
                    freeCount := a.freeCount - BitVec.ofNat 64 n }
  let a := words.foldl markL2Dirty a
  { a.propagateZeros words with roverW0 := runStart / (64 * 64 * 64) }

/-- `briefs_alloc_blocks`. -/
def allocBlocks (a : Alloc) (n : Nat) : Nat × Alloc :=
  if n = 0 then (0, a)
  else if a.avail.toNat < n ∨ a.blockCount < n then (0, a)
  else
    let a := if a.isFree 0 then a.takeBit 0 0 else a
    match a.scanRuns n (a.l2Words - a.firstFreeW2) a.firstFreeW2 0 0 with
    | (none, a) => (0, a)
    | (some runStart, a) => (runStart, a.takeRun runStart n)

variable {a : Alloc} {m m' : Words} {w2 : Nat}

--
-- Taking a run
--

theorem clearRun_succ (m : Words) (s n : Nat) :
    clearRun m s (n + 1) = (clearRun m s n).clear ((s + n) / 64) ((s + n) % 64) := by
  unfold clearRun
  rw [List.range_succ, List.foldl_append]
  rfl

theorem test_clearRun (m : Words) (s n i : Nat) :
    (clearRun m s n).test i = (m.test i && !decide (s ≤ i ∧ i < s + n)) := by
  induction n with
  | zero =>
    have hOut : decide (s ≤ i ∧ i < s + 0) = false := by
      rw [decide_eq_false_iff_not]
      omega
    rw [hOut]
    simp [clearRun]
  | succ n ih =>
    have hDiv : (s + n) / 64 * 64 + (s + n) % 64 = s + n := by omega
    rw [clearRun_succ, Words.test_clear (Nat.mod_lt _ (by decide)), ih, hDiv]
    by_cases hIn : s ≤ i ∧ i < s + n
    · have hIn' : s ≤ i ∧ i < s + (n + 1) := by omega
      simp [hIn, hIn']
    · have hIff : (s ≤ i ∧ i < s + (n + 1)) ↔ i = s + n := by omega
      simp [hIn, hIff]

/-- Clearing a run of `n` set bits lowers the count by `n`. -/
theorem count_clearRun {s k : Nat} : ∀ {n : Nat}, IsRun m.test s n → s + n ≤ k →
    (clearRun m s n).count k + n = m.count k
  | 0, _, _ => rfl
  | n + 1, hRun, hk => by
    have hDiv : (s + n) / 64 * 64 + (s + n) % 64 = s + n := by omega
    have hSet : (clearRun m s n).test ((s + n) / 64 * 64 + (s + n) % 64) = true := by
      have hOut : ¬ (s ≤ s + n ∧ s + n < s + n) := by omega
      rw [hDiv, test_clearRun, hRun (s + n) (by omega) (by omega)]
      simp
    have hOne := Words.count_clear (n := k) (Nat.mod_lt (s + n) (by decide)) (by omega) hSet
    have ih := count_clearRun (n := n) (k := k) (fun i hLo hHi => hRun i hLo (by omega)) (by omega)
    rw [clearRun_succ]
    omega

theorem clearRun_eq_zero {s n i : Nat} (h : m i = 0#64) : clearRun m s n i = 0#64 := by
  induction n with
  | zero => exact h
  | succ n ih =>
    rw [clearRun_succ]
    exact clear_eq_zero_of_eq_zero ih

theorem clearRun_of_notMem {s n i : Nat} (hn : 0 < n)
    (hi : i ∉ List.range' (s / 64) ((s + n - 1) / 64 + 1 - s / 64)) : clearRun m s n i = m i := by
  apply BitVec.eq_of_getLsbD_eq
  intro b hb
  have hTest := test_clearRun m s n (i * 64 + b)
  unfold Words.test at hTest
  rw [show (i * 64 + b) / 64 = i by omega, show (i * 64 + b) % 64 = b by omega] at hTest
  rw [hTest]
  have hOut : ¬ (s ≤ i * 64 + b ∧ i * 64 + b < s + n) := by
    rintro ⟨hLo, hHi⟩
    apply hi
    rw [List.mem_range'_1]
    omega
  simp [hOut]

theorem foldl_markL2Dirty (l : List Nat) : ∀ a : Alloc,
    ∃ dirty, l.foldl markL2Dirty a = { a with l2Dirty := dirty } := by
  induction l with
  | nil => exact fun a => ⟨a.l2Dirty, rfl⟩
  | cons w2 l ih =>
    intro a
    obtain ⟨dirty, hEq⟩ := ih (a.markL2Dirty w2)
    exact ⟨dirty, by rw [List.foldl_cons, hEq]; rfl⟩

/-- `b` has the sizes, leaf bits, count and hint of `a`. -/
structure SameLeaves (a b : Alloc) : Prop where
  shape : SameShape a b
  l2    : b.l2 = a.l2
  count : b.freeCount = a.freeCount
  hint  : b.firstFreeW2 = a.firstFreeW2

theorem sameLeaves_propagateL2Zero (a : Alloc) (w2 : Nat) :
    SameLeaves a (a.propagateL2Zero w2) := by
  refine ⟨sameShape_propagateL2Zero a w2, l2_propagateL2Zero a w2, ?_, ?_⟩
  · unfold Alloc.propagateL2Zero
    dsimp only
    split <;> rfl
  · unfold Alloc.propagateL2Zero
    dsimp only
    split <;> rfl

theorem sameLeaves_propagateZeros : ∀ (l : List Nat) (a : Alloc),
    SameLeaves a (a.propagateZeros l)
  | [], a => ⟨SameShape.refl a, rfl, rfl, rfl⟩
  | w2 :: l, a => by
    unfold propagateZeros
    rw [List.foldl_cons]
    have hTail : ∀ b, SameLeaves a b → SameLeaves a (b.propagateZeros l) := by
      intro b hb
      have hRest := sameLeaves_propagateZeros l b
      exact ⟨hb.shape.trans hRest.shape, hRest.l2.trans hb.l2, hRest.count.trans hb.count,
        hRest.hint.trans hb.hint⟩
    apply hTail
    split
    · exact sameLeaves_propagateL2Zero a w2
    · exact ⟨SameShape.refl a, rfl, rfl, rfl⟩

/-- The word loop brings the summaries of `m` up to date on the words it visits,
when none of those went from zero to nonzero. -/
theorem Summaries.propagateZeros : ∀ (l : List Nat) {a : Alloc} {m : Words}, a.Summaries m →
    (∀ w ∈ l, a.l2 w ≠ 0#64 → m w ≠ 0#64) →
    (a.propagateZeros l).Summaries (fun w => if w ∈ l then a.l2 w else m w)
  | [], a, m, h, _ => by simpa [Alloc.propagateZeros] using h
  | w2 :: l, a, m, h, hNe => by
    have hOther : ∀ i, i ≠ w2 → Function.update m w2 (a.l2 w2) i = m i :=
      fun i hi => Function.update_of_ne hi _ _
    have hGoal : (fun w => if w ∈ w2 :: l then a.l2 w else m w) =
        fun w => if w ∈ l then a.l2 w else Function.update m w2 (a.l2 w2) w := by
      funext w
      by_cases hw : w = w2
      · subst hw
        simp
      · simp [hw]
    have hKeep : ∀ w ∈ l, a.l2 w ≠ 0#64 → Function.update m w2 (a.l2 w2) w ≠ 0#64 := by
      intro w hw hw'
      by_cases hEq : w = w2
      · subst hEq
        rwa [Function.update_self]
      · rw [hOther w hEq]
        exact hNe w (List.mem_cons_of_mem _ hw) hw'
    rw [hGoal]
    unfold Alloc.propagateZeros
    rw [List.foldl_cons]
    by_cases hZero : a.l2 w2 = 0#64
    · rw [if_pos hZero]
      have hHere : (a.propagateL2Zero w2).Summaries (Function.update m w2 (a.l2 w2)) := by
        refine h.propagateL2Zero ?_ hOther
        rw [Function.update_self, hZero]
      have hRest := Summaries.propagateZeros l hHere
      rw [l2_propagateL2Zero] at hRest
      exact hRest hKeep
    · rw [if_neg hZero]
      refine Summaries.propagateZeros l (h.congr ?_) hKeep
      intro i _
      by_cases hi : i = w2
      · subst hi
        rw [Function.update_self]
        exact iff_of_false hZero (hNe i (by simp) hZero)
      · rw [hOther i hi]

theorem sameLeaves_takeRun (a : Alloc) (s n : Nat) :
    SameLeaves { a with l2 := clearRun a.l2 s n, freeCount := a.freeCount - BitVec.ofNat 64 n }
      (a.takeRun s n) := by
  unfold takeRun
  dsimp only
  obtain ⟨dirty, hDirty⟩ := foldl_markL2Dirty
    (List.range' (s / 64) ((s + n - 1) / 64 + 1 - s / 64))
    { a with l2 := clearRun a.l2 s n, freeCount := a.freeCount - BitVec.ofNat 64 n }
  rw [hDirty]
  have hSame := sameLeaves_propagateZeros (List.range' (s / 64) ((s + n - 1) / 64 + 1 - s / 64))
    { a with l2 := clearRun a.l2 s n, freeCount := a.freeCount - BitVec.ofNat 64 n,
             l2Dirty := dirty }
  exact ⟨⟨hSame.shape.l0Words, hSame.shape.l1Words, hSame.shape.l2Words, hSame.shape.blockCount,
    hSame.shape.metaShield⟩, hSame.l2, hSame.count, hSame.hint⟩

theorem Summaries.takeRun {s n : Nat} (h : a.Summaries a.l2) (hn : 0 < n) :
    (a.takeRun s n).Summaries (clearRun a.l2 s n) := by
  unfold Alloc.takeRun
  dsimp only
  obtain ⟨dirty, hDirty⟩ := foldl_markL2Dirty
    (List.range' (s / 64) ((s + n - 1) / 64 + 1 - s / 64))
    { a with l2 := clearRun a.l2 s n, freeCount := a.freeCount - BitVec.ofNat 64 n }
  rw [hDirty]
  dsimp only
  have hLoop := Summaries.propagateZeros
    (List.range' (s / 64) ((s + n - 1) / 64 + 1 - s / 64))
    (a := { a with l2 := clearRun a.l2 s n, freeCount := a.freeCount - BitVec.ofNat 64 n,
                   l2Dirty := dirty })
    (m := a.l2) (h.of_levels rfl rfl ⟨rfl, rfl, rfl, rfl, rfl⟩)
    (fun w _ hNe hZero => hNe (clearRun_eq_zero hZero))
  have hFinal : (fun w => if w ∈ List.range' (s / 64) ((s + n - 1) / 64 + 1 - s / 64) then
      clearRun a.l2 s n w else a.l2 w) = clearRun a.l2 s n := by
    funext w
    split
    · rfl
    · rename_i hOut
      exact (clearRun_of_notMem hn hOut).symm
  rw [hFinal] at hLoop
  exact ⟨hLoop.level1, hLoop.level0⟩

theorem Consistent.takeRun {s n : Nat} (h : a.Consistent) (hn : 0 < n)
    (hRun : IsRun a.isFree s n) (hIn : s + n ≤ a.l2Words * 64) : (a.takeRun s n).Consistent := by
  have hSame := sameLeaves_takeRun a s n
  have hTotal : (clearRun a.l2 s n).count (a.l2Words * 64) + n = a.l2.count (a.l2Words * 64) :=
    count_clearRun hRun hIn
  have hWords : (a.takeRun s n).l2Words = a.l2Words := hSame.shape.l2Words
  have hL2 : (a.takeRun s n).l2 = clearRun a.l2 s n := hSame.l2
  refine ⟨⟨?_, ?_⟩, ?_, ?_, ?_, ?_⟩
  · rw [hSame.shape.blockCount]
    exact h.geometry.word
  · rw [hWords, hSame.shape.blockCount]
    exact h.geometry.level2
  · rw [hL2]
    exact h.summaries.takeRun hn
  · have hSub : n ≤ a.freeCount.toNat := by
      rw [h.count]
      omega
    rw [hSame.count, hL2, hWords, toNat_sub_of_le hSub, h.count]
    omega
  · intro i hi hFree
    rw [hWords] at hi
    unfold isFree at hFree
    rw [hL2, test_clearRun, Bool.and_eq_true] at hFree
    rw [hSame.shape.blockCount]
    exact h.inside i hi hFree.1
  · intro i hi hi'
    rw [hSame.hint] at hi
    rw [hWords] at hi'
    rw [hL2]
    exact clearRun_eq_zero (h.hint i hi hi')

/-- The free blocks of the device. -/
def devFree (a : Alloc) (n : Nat) : Bool := a.isFree n && decide (n < a.blockCount)

/-- In a consistent state the mask of the last word does nothing. -/
theorem Consistent.scanWord (h : a.Consistent) (hw : w2 < a.l2Words) : a.scanWord w2 = a.l2 w2 := by
  unfold Alloc.scanWord
  split
  · rename_i hLast
    apply BitVec.eq_of_getLsbD_eq
    intro i hi
    have hMod : a.blockCount % 64 < 64 := Nat.mod_lt _ (by decide)
    rw [BitVec.getLsbD_and, getLsbD_bit_sub_one hMod]
    by_cases hSet : (a.l2 w2).getLsbD i = true
    · have hDev := h.inside (w2 * 64 + i) (by omega) (isFree_of_getLsbD hi hSet)
      have hLt : i < a.blockCount % 64 := by
        have hGeo := h.geometry.level2
        omega
      simp [hLt]
    · simp [hSet]
  · rfl

theorem Consistent.getLsbD_l2 (h : a.Consistent) (hw : w2 < a.l2Words) {i : Nat} (hi : i < 64) :
    (a.l2 w2).getLsbD i = a.devFree (w2 * 64 + i) := by
  unfold devFree
  have hDiv : (w2 * 64 + i) / 64 = w2 := by omega
  have hMod : (w2 * 64 + i) % 64 = i := by omega
  by_cases hSet : (a.l2 w2).getLsbD i = true
  · have hFree := isFree_of_getLsbD hi hSet
    have hDev := h.inside (w2 * 64 + i) (by omega) hFree
    rw [hSet, hFree]
    simp [hDev]
  · have hNot : a.isFree (w2 * 64 + i) = false := by
      unfold isFree Words.test
      rw [hDiv, hMod]
      simpa using hSet
    rw [hNot]
    simpa using hSet

/-- What the first-fit scan from `a` for `n` blocks reports. -/
structure Scanned (a : Alloc) (n : Nat) (r : Option Nat × Alloc) : Prop where
  consistent : r.2.Consistent
  shape      : SameShape a r.2
  l2         : r.2.l2 = a.l2
  count      : r.2.freeCount = a.freeCount
  found      : ∀ s, r.1 = some s → FirstFit a.devFree n s
  none       : r.1 = none → ∀ t, ¬ IsRun a.devFree t n

theorem Consistent.scanRuns {n : Nat} (hn : 0 < n) : ∀ (left : Nat) {a : Alloc} {w2 runStart
    runLen : Nat}, a.Consistent → a.l2Words - w2 = left →
    Progress a.devFree n (w2 * 64) runStart runLen →
    Scanned a n (a.scanRuns n left w2 runStart runLen)
  | 0, a, w2, runStart, runLen, h, hLeft, hp => by
    have hSize := a.hL2
    refine ⟨h, SameShape.refl a, rfl, rfl, fun s hs => (by cases hs), fun _ t hRun => ?_⟩
    by_cases hEnd : t + n ≤ w2 * 64
    · exact hp.noFit t hEnd hRun
    · -- a run past the last word leaves the device
      have hLast := hRun (t + n - 1) (by omega) (by omega)
      unfold devFree at hLast
      rw [Bool.and_eq_true, decide_eq_true_eq] at hLast
      omega
  | left + 1, a, w2, runStart, runLen, h, hLeft, hp => by
    have hw : w2 < a.l2Words := by omega
    unfold Alloc.scanRuns
    rw [h.scanWord hw]
    dsimp only
    by_cases hZero : a.l2 w2 = 0#64
    · rw [if_pos hZero]
      have hMoved : ({ a with firstFreeW2 := if w2 = a.firstFreeW2 then a.firstFreeW2 + 1
          else a.firstFreeW2 } : Alloc).Consistent := by
        refine h.reposition ⟨rfl, rfl, rfl, rfl, rfl⟩ rfl rfl rfl rfl ?_
        intro i hi hi'
        dsimp only at hi
        split at hi
        · rename_i hAt
          by_cases hEq : i = w2
          · rwa [hEq]
          · exact h.hint i (by omega) hi'
        · exact h.hint i hi hi'
      have hNext : Progress a.devFree n ((w2 + 1) * 64) runStart 0 := by
        refine hp.skip (by omega) ?_ (Or.inr rfl)
        intro i hLo hHi
        have hBit := h.getLsbD_l2 hw (show i - w2 * 64 < 64 by omega)
        rw [hZero, BitVec.getLsbD_zero, show w2 * 64 + (i - w2 * 64) = i by omega] at hBit
        exact hBit.symm
      have hRest := Consistent.scanRuns hn left hMoved (show a.l2Words - (w2 + 1) = left by omega)
        hNext
      exact ⟨hRest.consistent, ⟨hRest.shape.l0Words, hRest.shape.l1Words, hRest.shape.l2Words,
        hRest.shape.blockCount, hRest.shape.metaShield⟩, hRest.l2, hRest.count, hRest.found,
        hRest.none⟩
    · rw [if_neg hZero]
      have hWord := walkWord_spec (w2 * 64) 64 (a.l2 w2) (w2 * 64) runStart runLen
        (Nat.le_refl _) (by omega) (by omega) (fun i hi => by
          rw [h.getLsbD_l2 hw hi]
          simp) hp
      generalize walkWord n (w2 * 64) 64 (a.l2 w2) runStart runLen = scan at hWord ⊢
      cases scan with
      | found s =>
        refine ⟨h, SameShape.refl a, rfl, rfl, fun s' hs => ?_, fun hNone => (by cases hNone)⟩
        cases hs
        exact hWord
      | more runStart runLen =>
        have hNext : Progress a.devFree n ((w2 + 1) * 64) runStart runLen := by
          rw [show (w2 + 1) * 64 = w2 * 64 + 64 by omega]
          exact hWord
        exact Consistent.scanRuns hn left h (by omega) hNext

/-- The scan from the hint. -/
theorem Consistent.scanFromHint (h : a.Consistent) {n : Nat} (hn : 0 < n) :
    Scanned a n (a.scanRuns n (a.l2Words - a.firstFreeW2) a.firstFreeW2 0 0) := by
  refine Consistent.scanRuns hn _ h rfl (Progress.start hn ?_)
  intro i hi
  have hSize := a.hL2
  unfold devFree
  by_cases hFree : a.isFree i = true
  · by_cases hWord : i / 64 < a.l2Words
    · exact absurd (h.hint (i / 64) (by omega) hWord) (ne_zero_of_isFree hFree)
    · have hOut : ¬ i < a.blockCount := by omega
      simp [hOut]
  · simp [hFree]

theorem IsRun.isFree {s n : Nat} (h : IsRun a.devFree s n) : IsRun a.isFree s n := by
  intro i hLo hHi
  have hBoth := h i hLo hHi
  unfold devFree at hBoth
  rw [Bool.and_eq_true] at hBoth
  exact hBoth.1

theorem IsRun.le_blockCount {s n : Nat} (h : IsRun a.devFree s n) (hn : 0 < n) :
    s + n ≤ a.blockCount := by
  have hLast := h (s + n - 1) (by omega) (by omega)
  unfold devFree at hLast
  rw [Bool.and_eq_true, decide_eq_true_eq] at hLast
  omega

/-- A run that the scan found is taken whole. -/
theorem Scanned.takeRun {n s : Nat} {r : Option Nat × Alloc} (h : Scanned a n r) (hn : 0 < n)
    (hFound : r.1 = some s) : (r.2.takeRun s n).Consistent := by
  have hFit := h.found s hFound
  have hSize := a.hL2
  have hLe := IsRun.le_blockCount hFit.isRun hn
  refine h.consistent.takeRun hn ?_ ?_
  · unfold Alloc.isFree
    rw [h.l2]
    exact IsRun.isFree hFit.isRun
  · rw [h.shape.l2Words]
    omega

theorem Consistent.allocBlocks (h : a.Consistent) (n : Nat) : (a.allocBlocks n).2.Consistent := by
  unfold Alloc.allocBlocks
  split
  · exact h
  · split
    · exact h
    · rename_i hn hRoom
      have hCount : a.freeCount ≠ 0#64 := by
        apply freeCount_ne_zero_of_avail
        intro hZero
        rw [hZero] at hRoom
        have hNat : (0#64).toNat = 0 := rfl
        omega
      have hZero := h.reserveZero (h.l2Words_pos hCount)
      dsimp only
      generalize (if a.isFree 0 then a.takeBit 0 0 else a) = a' at hZero ⊢
      have hScan := hZero.scanFromHint (show 0 < n by omega)
      generalize a'.scanRuns n (a'.l2Words - a'.firstFreeW2) a'.firstFreeW2 0 0 = r at hScan ⊢
      obtain ⟨found, b⟩ := r
      cases found with
      | none => exact hScan.consistent
      | some s => exact hScan.takeRun (by omega) rfl

--
-- Rebuilding the summaries
--

theorem test_summarize (m : Words) (limit i : Nat) : ∀ n,
    (summarize m n limit).test i = true ↔ (i < n ∧ i / 64 < limit ∧ m i ≠ 0#64)
  | 0 => by
    unfold summarize Words.test
    simp
  | n + 1 => by
    have ih := test_summarize m limit i n
    have hMod : i % 64 < 64 := Nat.mod_lt _ (by decide)
    unfold summarize
    dsimp only
    by_cases hZero : m n = 0#64
    · rw [if_pos hZero, ih]
      constructor
      · rintro ⟨hi, hRest⟩
        exact ⟨by omega, hRest⟩
      · rintro ⟨hi, hLim, hNe⟩
        have hOther : i ≠ n := fun hEq => hNe (by rw [hEq, hZero])
        exact ⟨by omega, hLim, hNe⟩
    · rw [if_neg hZero]
      by_cases hLim : n / 64 < limit
      · rw [if_pos hLim, Words.test_orWord, Bool.or_eq_true, ih, Bool.and_eq_true, getLsbD_bit]
        constructor
        · rintro (⟨hi, hRest⟩ | ⟨hDiv, hBit⟩)
          · exact ⟨by omega, hRest⟩
          · rw [Bool.and_eq_true, decide_eq_true_eq, decide_eq_true_eq] at hBit
            rw [decide_eq_true_eq] at hDiv
            have hEq : i = n := by omega
            subst hEq
            exact ⟨by omega, hLim, hZero⟩
        · rintro ⟨hi, hRest⟩
          by_cases hEq : i = n
          · subst hEq
            exact Or.inr ⟨by simp, by simp [hMod]⟩
          · exact Or.inl ⟨by omega, hRest⟩
      · rw [if_neg hLim, ih]
        constructor
        · rintro ⟨hi, hRest⟩
          exact ⟨by omega, hRest⟩
        · rintro ⟨hi, hLim', hNe⟩
          have hOther : i ≠ n := fun hEq => hLim (hEq ▸ hLim')
          exact ⟨by omega, hLim', hNe⟩

/-- A level rebuilt by `summarize` is the summary of the level below. -/
theorem summarizes_summarize {upLen len : Nat} (m : Words) :
    Summarizes (summarize m len upLen) upLen m len := by
  intro i hi
  rw [test_summarize]
  constructor
  · rintro ⟨hLen, -, hNe⟩
    exact ⟨hLen, hNe⟩
  · rintro ⟨hLen, hNe⟩
    exact ⟨hLen, by omega, hNe⟩

theorem toNat_foldl_cpop (m : Words) (n : Nat) (hSmall : m.count (n * 64) < 2 ^ 64) :
    ((List.range n).foldl (fun c i => c + (m i).cpop) 0#64).toNat = m.count (n * 64) := by
  induction n with
  | zero => rfl
  | succ n ih =>
    have hSum : m.count ((n + 1) * 64) = m.count (n * 64) + (m n).cpop.toNat := by
      rw [Words.count_mul, Words.count_mul, Finset.sum_range_succ]
    rw [hSum] at hSmall ⊢
    rw [List.range_succ, List.foldl_append, List.foldl_cons, List.foldl_nil, BitVec.toNat_add,
      ih (by omega)]
    exact Nat.mod_eq_of_lt hSmall

/-- The bits that stay free when the last word is masked and block 0 reserved. -/
theorem recomputed_inside (hg : a.Geometry) {n : Nat} (hn : n < a.l2Words * 64)
    (hFree : a.recomputeSummaries.isFree n = true) : n < a.blockCount := by
  have hGeo := hg.level2
  have hPos : 0 < a.l2Words := by omega
  have hWord : ¬ n / 64 = a.l2Words - 1 → n < a.blockCount := by omega
  by_cases hLast : n / 64 = a.l2Words - 1
  · unfold recomputeSummaries isFree at hFree
    dsimp only at hFree
    rw [if_pos hPos, if_pos hPos, Words.test_clear (by decide), Bool.and_eq_true] at hFree
    have hBit := hFree.1
    unfold Words.test at hBit
    rw [hLast, Function.update_self, BitVec.getLsbD_and,
      getLsbD_rangeMask (Nat.mod_lt _ (by decide))] at hBit
    simp only [Bool.and_eq_true, decide_eq_true_eq] at hBit
    obtain ⟨-, -, hValid⟩ := hBit
    split at hValid <;> omega
  · exact hWord hLast

/-- `briefs_alloc_recompute_summaries` makes any level 2 consistent, provided the
first-fit hint is right about the words below it. -/
theorem consistent_recomputeSummaries (hg : a.Geometry)
    (hHint : ∀ i, i < a.firstFreeW2 → i < a.l2Words → a.l2 i = 0#64) :
    a.recomputeSummaries.Consistent := by
  refine ⟨⟨hg.word, hg.level2⟩, ⟨?_, ?_⟩, ?_, ?_, ?_⟩
  · exact summarizes_summarize _
  · exact summarizes_summarize _
  · have hBound : a.recomputeSummaries.l2.count (a.l2Words * 64) ≤ a.blockCount :=
      Words.count_le_of_forall fun n hn hFree => recomputed_inside hg hn hFree
    have hWord := hg.word
    exact toNat_foldl_cpop _ _ (Nat.lt_of_le_of_lt hBound hWord)
  · intro n hn hFree
    exact recomputed_inside hg hn hFree
  · intro i hi hi'
    have hZero : a.l2 i = 0#64 := hHint i hi hi'
    have hPos : 0 < a.l2Words := Nat.lt_of_le_of_lt (Nat.zero_le _) hi'
    unfold recomputeSummaries
    dsimp only
    rw [if_pos hPos, if_pos hPos]
    apply clear_eq_zero_of_eq_zero
    by_cases hLast : i = a.l2Words - 1
    · subst hLast
      rw [Function.update_self, hZero, BitVec.zero_and]
    · rw [Function.update_of_ne hLast, hZero]

--
-- Runs
--

/-- The calls that change an allocator. -/
inductive Op where
  | allocBlock
  | allocBlockMeta
  | allocBlockHigh
  | allocBlocks (n : Nat)
  | reserveBlock (rel : Nat)
  | freeBlock (rel : Nat)
  | freeBlocks (relStart n : Nat)

def Op.apply (a : Alloc) : Op → Alloc
  | .allocBlock => a.allocBlock.2
  | .allocBlockMeta => a.allocBlockMeta.2
  | .allocBlockHigh => a.allocBlockHigh.2
  | .allocBlocks n => (a.allocBlocks n).2
  | .reserveBlock rel => a.reserveBlock rel
  | .freeBlock rel => a.freeBlock rel
  | .freeBlocks relStart n => a.freeBlocks relStart n

theorem Consistent.apply (h : a.Consistent) : ∀ op : Op, (op.apply a).Consistent
  | .allocBlock => h.allocBlockFrom freeCount_ne_zero_of_avail
  | .allocBlockMeta => h.allocBlockFrom id
  | .allocBlockHigh => h.allocBlockHigh
  | .allocBlocks n => h.allocBlocks n
  | .reserveBlock rel => h.reserveBlock rel
  | .freeBlock rel => h.freeBlock rel
  | .freeBlocks relStart n => h.freeBlocks relStart n

/-- The pyramid stays consistent under every sequence of calls, and rebuilding the
summaries makes it so from any leaf bits. -/
theorem pyramid_consistent :
    (∀ (ops : List Op) (a : Alloc), a.Consistent → (ops.foldl Op.apply a).Consistent) ∧
    (∀ a : Alloc, a.Geometry → (∀ i, i < a.firstFreeW2 → i < a.l2Words → a.l2 i = 0#64) →
      a.recomputeSummaries.Consistent) := by
  refine ⟨?_, fun a hg hHint => consistent_recomputeSummaries hg hHint⟩
  intro ops
  induction ops with
  | nil => exact fun a h => h
  | cons op ops ih =>
    intro a h
    rw [List.foldl_cons]
    exact ih _ (h.apply op)

/-- A pool of 100 blocks in two words, with nothing summarized yet. -/
def samplePool : Alloc where
  l0 := fun _ => 0#64
  l1 := fun _ => 0#64
  l2 := fun _ => ~~~ 0#64
  l0Words := 1
  l1Words := 1
  l2Words := 2
  blockCount := 100
  freeCount := 0#64
  metaShield := 0#64
  roverW0 := 0
  roverW2High := 0
  firstFreeW2 := 0
  l2Dirty := fun _ => false
  hL2 := by decide
  hL1 := two_le_word
  hL0 := one_le_word

/-- The rebuilt pool stays consistent over a run with an out-of-range free, a free
of free blocks and a run past the end. -/
theorem samplePool_consistent :
    ([.allocBlocks 70, .allocBlock, .allocBlockHigh, .freeBlock 500, .freeBlocks 60 1000,
      .reserveBlock 7].foldl Op.apply samplePool.recomputeSummaries).Consistent :=
  pyramid_consistent.1 _ _
    (pyramid_consistent.2 samplePool ⟨by decide, by decide⟩ fun i hi _ => absurd hi (by
      show ¬ i < 0
      omega))

end Alloc

end Briefs
