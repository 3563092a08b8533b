import Briefs.Alloc
import Briefs.Lib.Pyramid

/-!
# BrieFS — consistency of the bitmap pyramid

The summaries, the free count and the first-fit hint of an allocator are
redundant: all of them follow from the leaf bits. `Consistent` says that they
agree with them, and the operations that take or free single bits and whole
words keep it so, whatever their arguments.

The leaf bits and the summaries change at different moments inside an operation,
so the summaries are tracked against a level 2 of their own (`Summaries`).

## Results

* `Summaries.propagateL2Zero`, `Summaries.propagateL2Nonzero` — the summaries
  follow one changed word.
* `Consistent.takeBit` — taking a free bit.
* `Consistent.allocBlockFrom`, `Consistent.allocBlockHigh` — the two scans for a
  single block.
* `Consistent.freeBlock`, `Consistent.freeBlocks` — freeing.
-/

namespace Briefs

open Briefs.Lib

namespace Alloc

--
-- What no operation changes
--

/-- `b` has the sizes and the shield of `a`. -/
structure SameShape (a b : Alloc) : Prop where
  l0Words    : b.l0Words = a.l0Words
  l1Words    : b.l1Words = a.l1Words
  l2Words    : b.l2Words = a.l2Words
  blockCount : b.blockCount = a.blockCount
  metaShield : b.metaShield = a.metaShield

theorem SameShape.refl (a : Alloc) : SameShape a a := ⟨rfl, rfl, rfl, rfl, rfl⟩

theorem SameShape.trans {a b c : Alloc} (hab : SameShape a b) (hbc : SameShape b c) :
    SameShape a c :=
  ⟨hbc.l0Words.trans hab.l0Words, hbc.l1Words.trans hab.l1Words, hbc.l2Words.trans hab.l2Words,
    hbc.blockCount.trans hab.blockCount, hbc.metaShield.trans hab.metaShield⟩

theorem sameShape_propagateL2Zero (a : Alloc) (w2 : Nat) : SameShape a (a.propagateL2Zero w2) := by
  unfold propagateL2Zero
  dsimp only
  split <;> exact ⟨rfl, rfl, rfl, rfl, rfl⟩

theorem sameShape_propagateL2Nonzero (a : Alloc) (w2 : Nat) :
    SameShape a (a.propagateL2Nonzero w2) := by
  unfold propagateL2Nonzero
  dsimp only
  split <;> exact ⟨rfl, rfl, rfl, rfl, rfl⟩

theorem sameShape_takeBit (a : Alloc) (w2 b2 : Nat) : SameShape a (a.takeBit w2 b2) := by
  unfold takeBit
  dsimp only
  split
  · refine SameShape.trans ?_ (sameShape_propagateL2Zero _ _)
    exact ⟨rfl, rfl, rfl, rfl, rfl⟩
  · exact ⟨rfl, rfl, rfl, rfl, rfl⟩

--
-- The summaries
--

/-- Levels 1 and 0 are the summaries of the level 2 `m`. -/
structure Summaries (a : Alloc) (m : Words) : Prop where
  level1 : Summarizes a.l1 a.l1Words m a.l2Words
  level0 : Summarizes a.l0 a.l0Words a.l1 a.l1Words

variable {a : Alloc} {m m' : Words} {w2 : Nat}

theorem Summaries.congr (h : a.Summaries m)
    (hSame : ∀ i, i < a.l2Words → (m' i = 0#64 ↔ m i = 0#64)) : a.Summaries m' :=
  ⟨h.level1.congr hSame, h.level0⟩

/-- The summaries depend on the two levels and the sizes alone. -/
theorem Summaries.of_levels {b : Alloc} (h : a.Summaries m) (hL1 : b.l1 = a.l1)
    (hL0 : b.l0 = a.l0) (hShape : SameShape a b) : b.Summaries m := by
  constructor
  · rw [hL1, hShape.l1Words, hShape.l2Words]
    exact h.level1
  · rw [hL1, hL0, hShape.l1Words, hShape.l0Words]
    exact h.level0

/-- Clearing the summary bits of a word that is zero now. -/
theorem Summaries.propagateL2Zero (h : a.Summaries m) (hZero : m' w2 = 0#64)
    (hRest : ∀ i, i ≠ w2 → m' i = m i) : (a.propagateL2Zero w2).Summaries m' := by
  have h1 := h.level1.clear hZero hRest
  have hOther : ∀ i, i ≠ w2 / 64 → a.l1.clear (w2 / 64) (w2 % 64) i = a.l1 i := by
    intro i hi
    unfold Words.clear
    rw [Function.update_of_ne hi]
  unfold Alloc.propagateL2Zero
  dsimp only
  by_cases hUp : a.l1.clear (w2 / 64) (w2 % 64) (w2 / 64) = 0#64
  · rw [if_pos hUp]
    exact ⟨h1, h.level0.clear hUp hOther⟩
  · rw [if_neg hUp]
    refine ⟨h1, h.level0.congr ?_⟩
    intro i _
    by_cases hi : i = w2 / 64
    · subst hi
      -- a word that is nonzero after the clear was nonzero before
      have hBefore : a.l1 (w2 / 64) ≠ 0#64 := by
        intro hZero1
        apply hUp
        unfold Words.clear
        rw [Function.update_self, hZero1, BitVec.zero_and]
      exact iff_of_false hUp hBefore
    · show a.l1.clear (w2 / 64) (w2 % 64) i = 0#64 ↔ a.l1 i = 0#64
      rw [hOther i hi]

theorem bit_ne_zero {b : Nat} (hb : b < 64) : bit b ≠ 0#64 := by
  intro hZero
  have hSet : (bit b).getLsbD b = true := by
    rw [getLsbD_bit]
    simp [hb]
  rw [hZero, BitVec.getLsbD_zero] at hSet
  exact absurd hSet (by decide)

theorem eq_zero_of_orWord {mask : BitVec 64} {w : Nat} (h : m.orWord w mask w = 0#64) :
    m w = 0#64 ∧ mask = 0#64 := by
  unfold Words.orWord at h
  rw [Function.update_self] at h
  exact BitVec.or_eq_zero_iff.mp h

theorem orWord_bit_ne_zero {w b : Nat} (hb : b < 64) : m.orWord w (bit b) w ≠ 0#64 :=
  fun hZero => bit_ne_zero hb (eq_zero_of_orWord hZero).2

/-- Setting the summary bits of a word that is nonzero now. -/
theorem Summaries.propagateL2Nonzero (h : a.Summaries m) (hw : w2 < a.l2Words)
    (hNe : m' w2 ≠ 0#64) (hRest : ∀ i, i ≠ w2 → m' i = m i) :
    (a.propagateL2Nonzero w2).Summaries m' := by
  have h1 := h.level1.set hw hNe hRest
  have hOther : ∀ i, i ≠ w2 / 64 → a.l1.orWord (w2 / 64) (bit (w2 % 64)) i = a.l1 i := by
    intro i hi
    unfold Words.orWord
    rw [Function.update_of_ne hi]
  have hWord : a.l1.orWord (w2 / 64) (bit (w2 % 64)) (w2 / 64) =
      a.l1 (w2 / 64) ||| bit (w2 % 64) := by
    unfold Words.orWord
    rw [Function.update_self]
  have hNew : a.l1.orWord (w2 / 64) (bit (w2 % 64)) (w2 / 64) ≠ 0#64 :=
    orWord_bit_ne_zero (Nat.mod_lt _ (by decide))
  have hFits := a.hL1
  unfold Alloc.propagateL2Nonzero
  dsimp only
  by_cases hUp : a.l1.orWord (w2 / 64) (bit (w2 % 64)) (w2 / 64) = bit (w2 % 64)
  · rw [if_pos hUp]
    exact ⟨h1, h.level0.set (by omega) hNew hOther⟩
  · rw [if_neg hUp]
    refine ⟨h1, h.level0.congr ?_⟩
    intro i _
    by_cases hi : i = w2 / 64
    · subst hi
      have hBefore : a.l1 (w2 / 64) ≠ 0#64 := by
        intro hZero1
        apply hUp
        rw [hWord, hZero1, BitVec.zero_or]
      exact iff_of_false hNew hBefore
    · show a.l1.orWord (w2 / 64) (bit (w2 % 64)) i = 0#64 ↔ a.l1 i = 0#64
      rw [hOther i hi]

--
-- Consistency
--

/-- The sizes that the pool header gives: one bit for each block in as many words
as these need, and a block count that is a machine word. -/
structure Geometry (a : Alloc) : Prop where
  word  : a.blockCount < 2 ^ 64
  level2 : a.l2Words = (a.blockCount + 63) / 64

/-- The redundant parts of the allocator agree with its leaf bits. -/
structure Consistent (a : Alloc) : Prop where
  geometry  : a.Geometry
  summaries : a.Summaries a.l2
  count     : a.freeCount.toNat = a.l2.count (a.l2Words * 64)
  inside    : ∀ n, n < a.l2Words * 64 → a.isFree n = true → n < a.blockCount
  hint      : ∀ w2, w2 < a.firstFreeW2 → w2 < a.l2Words → a.l2 w2 = 0#64

theorem SameShape.geometry {a b : Alloc} (h : SameShape a b) (hg : a.Geometry) : b.Geometry := by
  constructor
  · rw [h.blockCount]
    exact hg.word
  · rw [h.l2Words, h.blockCount]
    exact hg.level2

theorem ne_zero_of_isFree {n : Nat} (h : a.isFree n = true) : a.l2 (n / 64) ≠ 0#64 := by
  intro hZero
  unfold isFree Words.test at h
  rw [hZero, BitVec.getLsbD_zero] at h
  exact absurd h (by decide)

--
-- Taking bits
--

theorem toNat_sub_of_le {x : BitVec 64} {k : Nat} (hk : k ≤ x.toNat) :
    (x - BitVec.ofNat 64 k).toNat = x.toNat - k := by
  have hx := x.isLt
  rw [BitVec.toNat_sub, BitVec.toNat_ofNat, Nat.mod_eq_of_lt (show k < 2 ^ 64 by omega)]
  omega

theorem freeCount_takeBit (a : Alloc) (w2 b2 : Nat) :
    (a.takeBit w2 b2).freeCount = a.freeCount - 1#64 := by
  unfold takeBit Alloc.propagateL2Zero
  dsimp only
  split
  · split <;> rfl
  · rfl

theorem firstFreeW2_takeBit (a : Alloc) (w2 b2 : Nat) :
    (a.takeBit w2 b2).firstFreeW2 = a.firstFreeW2 := by
  unfold takeBit Alloc.propagateL2Zero
  dsimp only
  split
  · split <;> rfl
  · rfl

theorem clear_eq_zero_of_eq_zero {w b i : Nat} (h : m i = 0#64) : m.clear w b i = 0#64 := by
  unfold Words.clear
  by_cases hi : i = w
  · subst hi
    rw [Function.update_self, h, BitVec.zero_and]
  · rw [Function.update_of_ne hi, h]

theorem Summaries.takeBit {b2 : Nat} (h : a.Summaries a.l2) (hSet : a.l2 w2 ≠ 0#64) :
    (a.takeBit w2 b2).Summaries (a.l2.clear w2 b2) := by
  have hRest : ∀ i, i ≠ w2 → a.l2.clear w2 b2 i = a.l2 i := by
    intro i hi
    unfold Words.clear
    rw [Function.update_of_ne hi]
  unfold Alloc.takeBit
  dsimp only
  rw [l2_markL2Dirty]
  dsimp only
  by_cases hZero : a.l2.clear w2 b2 w2 = 0#64
  · rw [if_pos hZero]
    refine Summaries.propagateL2Zero (m := a.l2) ?_ hZero hRest
    exact h.of_levels rfl rfl ⟨rfl, rfl, rfl, rfl, rfl⟩
  · rw [if_neg hZero]
    refine Summaries.congr (m := a.l2) ?_ ?_
    · exact h.of_levels rfl rfl ⟨rfl, rfl, rfl, rfl, rfl⟩
    · intro i _
      by_cases hi : i = w2
      · subst hi
        exact iff_of_false hZero hSet
      · rw [hRest i hi]

theorem Consistent.takeBit {b2 : Nat} (h : a.Consistent) (hBit : b2 < 64)
    (hw : w2 < a.l2Words) (hFree : a.isFree (w2 * 64 + b2) = true) :
    (a.takeBit w2 b2).Consistent := by
  have hShape := sameShape_takeBit a w2 b2
  have hSet : a.l2 w2 ≠ 0#64 := by
    have hNe := ne_zero_of_isFree hFree
    rwa [show (w2 * 64 + b2) / 64 = w2 by omega] at hNe
  have hCount : (a.l2.clear w2 b2).count (a.l2Words * 64) + 1 = a.l2.count (a.l2Words * 64) :=
    Words.count_clear hBit (by omega) hFree
  refine ⟨hShape.geometry h.geometry, ?_, ?_, ?_, ?_⟩
  · rw [l2_takeBit]
    exact h.summaries.takeBit hSet
  · have hOne : 1 ≤ a.freeCount.toNat := by
      rw [h.count]
      omega
    have hSub := toNat_sub_of_le hOne
    rw [freeCount_takeBit, hShape.l2Words, l2_takeBit]
    rw [show (1#64 : BitVec 64) = BitVec.ofNat 64 1 from rfl, hSub, h.count]
    omega
  · intro n hn hn'
    rw [hShape.l2Words] at hn
    rw [isFree_takeBit hBit, Bool.and_eq_true] at hn'
    rw [hShape.blockCount]
    exact h.inside n hn hn'.1
  · intro i hi hi'
    rw [firstFreeW2_takeBit] at hi
    rw [hShape.l2Words] at hi'
    rw [l2_takeBit]
    exact clear_eq_zero_of_eq_zero (h.hint i hi hi')

/-- A change of the search positions alone; a hint may only pass zero words. -/
theorem Consistent.reposition (h : a.Consistent) {b : Alloc} (hShape : SameShape a b)
    (hL2 : b.l2 = a.l2) (hL1 : b.l1 = a.l1) (hL0 : b.l0 = a.l0)
    (hCount : b.freeCount = a.freeCount)
    (hHint : ∀ i, i < b.firstFreeW2 → i < a.l2Words → a.l2 i = 0#64) : b.Consistent := by
  refine ⟨hShape.geometry h.geometry, ?_, ?_, ?_, ?_⟩
  · rw [hL2]
    exact h.summaries.of_levels hL1 hL0 hShape
  · rw [hCount, hL2, hShape.l2Words]
    exact h.count
  · intro n hn hFree
    unfold isFree at hFree
    rw [hL2] at hFree
    rw [hShape.l2Words] at hn
    rw [hShape.blockCount]
    exact h.inside n hn hFree
  · intro i hi hi'
    rw [hShape.l2Words] at hi'
    rw [hL2]
    exact hHint i hi hi'

theorem Consistent.reserveBlock (h : a.Consistent) (rel : Nat) :
    (a.reserveBlock rel).Consistent := by
  have hSize := a.hL2
  unfold Alloc.reserveBlock
  split
  · exact h
  · split
    · rename_i hRange hFree
      refine h.takeBit (Nat.mod_lt _ (by decide)) (by omega) ?_
      rwa [show rel / 64 * 64 + rel % 64 = rel by omega]
    · exact h

theorem Consistent.reserveZero (h : a.Consistent) (hPos : 0 < a.l2Words) :
    (if a.isFree 0 then a.takeBit 0 0 else a).Consistent := by
  split
  · rename_i hFree
    exact h.takeBit (by decide) hPos (by simpa using hFree)
  · exact h

--
-- The two single-block scans
--

theorem isFree_of_getLsbD {b2 : Nat} (hBit : b2 < 64) (hSet : (a.l2 w2).getLsbD b2 = true) :
    a.isFree (w2 * 64 + b2) = true := by
  have hDiv : (w2 * 64 + b2) / 64 = w2 := by omega
  have hMod : (w2 * 64 + b2) % 64 = b2 := by omega
  unfold isFree Words.test
  rw [hDiv, hMod]
  exact hSet

theorem Consistent.scanHigh (h : a.Consistent) : ∀ w2, w2 < a.l2Words → (a.scanHigh w2).2.Consistent
  | 0, _ => h.reposition ⟨rfl, rfl, rfl, rfl, rfl⟩ rfl rfl rfl rfl h.hint
  | w2 + 1, hw => by
    unfold Alloc.scanHigh
    dsimp only
    split
    · exact Consistent.scanHigh h w2 (by omega)
    · rename_i hNe
      obtain ⟨hBit, hSet⟩ := highBit_spec (fun hZero => hNe (.inr hZero))
      have hTaken := h.takeBit hBit hw (isFree_of_getLsbD hBit (getLsbD_of_validWord hSet))
      exact hTaken.reposition ⟨rfl, rfl, rfl, rfl, rfl⟩ rfl rfl rfl rfl hTaken.hint

/-- The number of words is positive when a block is available. -/
theorem Consistent.l2Words_pos (h : a.Consistent) (hCount : a.freeCount ≠ 0#64) :
    0 < a.l2Words := by
  by_contra hNone
  have hZero : a.l2Words = 0 := by omega
  apply hCount
  apply BitVec.eq_of_toNat_eq
  rw [h.count, hZero]
  rfl

theorem freeCount_ne_zero_of_avail (h : a.avail ≠ 0#64) : a.freeCount ≠ 0#64 := by
  intro hZero
  apply h
  unfold avail
  rw [hZero]
  have hNot : ¬ a.metaShield < 0#64 := by simp
  rw [if_neg hNot]

theorem Consistent.allocBlockHigh (h : a.Consistent) : a.allocBlockHigh.2.Consistent := by
  unfold Alloc.allocBlockHigh
  split
  · exact h
  · rename_i hAvail
    have hPos := h.l2Words_pos (freeCount_ne_zero_of_avail hAvail)
    apply h.scanHigh
    split <;> omega

/-- From a nonzero level-0 word the descent ends at a free block of the device. -/
theorem Consistent.descend (h : a.Consistent) {w0 : Nat} (hw0 : w0 < a.l0Words)
    (hNe : a.l0 w0 ≠ 0#64) :
    ∃ w1 w2 b2, w1 = w0 * 64 + lowBit (a.l0 w0) ∧ w2 = w1 * 64 + lowBit (a.l1 w1) ∧
      b2 = lowBit (a.l2 w2) ∧ w1 < a.l1Words ∧ a.l1 w1 ≠ 0#64 ∧ w2 < a.l2Words ∧
      a.l2 w2 ≠ 0#64 ∧ b2 < 64 ∧ a.isFree (w2 * 64 + b2) = true ∧
      w2 * 64 + b2 < a.blockCount := by
  obtain ⟨hw1, hNe1⟩ := h.summaries.level0.down_ne_zero hw0 hNe
  obtain ⟨hw2, hNe2⟩ := h.summaries.level1.down_ne_zero hw1 hNe1
  obtain ⟨hBit, hSet⟩ := lowBit_spec hNe2
  have hFree := isFree_of_getLsbD hBit hSet
  exact ⟨_, _, _, rfl, rfl, rfl, hw1, hNe1, hw2, hNe2, hBit, hFree,
    h.inside _ (by omega) hFree⟩

/-- One turn of the next-fit loop in a consistent state: the branches that repair
a summary or give up are not taken. -/
theorem Consistent.scanPyramid_succ (h : a.Consistent) (hPos : 0 < a.l0Words) (n i : Nat) :
    (a.l0 ((a.roverW0 + i) % a.l0Words) = 0#64 ∧
      a.scanPyramid (n + 1) i = a.scanPyramid n (i + 1)) ∨
    ∃ w2 b2 rover, w2 < a.l2Words ∧ b2 < 64 ∧ a.isFree (w2 * 64 + b2) = true ∧
      w2 * 64 + b2 < a.blockCount ∧
      a.scanPyramid (n + 1) i = (w2 * 64 + b2, { a.takeBit w2 b2 with roverW0 := rover }) := by
  have hw0 : (a.roverW0 + i) % a.l0Words < a.l0Words := Nat.mod_lt _ hPos
  by_cases hZero : a.l0 ((a.roverW0 + i) % a.l0Words) = 0#64
  · refine Or.inl ⟨hZero, ?_⟩
    rw [scanPyramid]
    dsimp only
    rw [if_pos hZero]
  · obtain ⟨w1, w2, b2, hw1Eq, hw2Eq, hb2Eq, hw1, hNe1, hw2, hNe2, hBit, hFree, hDev⟩ :=
      h.descend hw0 hZero
    refine Or.inr ⟨w2, b2, (a.roverW0 + i) % a.l0Words, hw2, hBit, hFree, hDev, ?_⟩
    rw [scanPyramid]
    dsimp only
    rw [if_neg hZero, ← hw1Eq, if_neg (by omega), if_neg hNe1, ← hw2Eq, if_neg (by omega),
      if_neg hNe2, ← hb2Eq, if_neg (by omega)]

theorem Consistent.scanPyramid (h : a.Consistent) (hPos : 0 < a.l0Words) :
    ∀ n i, (a.scanPyramid n i).2.Consistent
  | 0, _ => h
  | n + 1, i => by
    rcases h.scanPyramid_succ hPos n i with ⟨-, hEq⟩ | ⟨w2, b2, rover, hw2, hBit, hFree, -, hEq⟩
    · rw [hEq]
      exact Consistent.scanPyramid h hPos n (i + 1)
    · rw [hEq]
      have hTaken := h.takeBit hBit hw2 hFree
      exact hTaken.reposition ⟨rfl, rfl, rfl, rfl, rfl⟩ rfl rfl rfl rfl hTaken.hint

theorem Consistent.l0Words_pos (_h : a.Consistent) (hPos : 0 < a.l2Words) : 0 < a.l0Words := by
  have hL1 := a.hL1
  have hL0 := a.hL0
  omega

theorem Consistent.allocBlockFrom (h : a.Consistent) {avail : BitVec 64}
    (hAvail : avail ≠ 0#64 → a.freeCount ≠ 0#64) : (a.allocBlockFrom avail).2.Consistent := by
  unfold Alloc.allocBlockFrom
  split
  · exact h
  · rename_i hNe
    have hPos := h.l2Words_pos (hAvail hNe)
    have hZero := h.reserveZero hPos
    dsimp only
    apply hZero.scanPyramid
    apply hZero.l0Words_pos
    split
    · rw [(sameShape_takeBit a 0 0).l2Words]
      exact hPos
    · exact hPos

--
-- Freeing
--

/-- `b` has the leaf bits of `a` and those of `mask` in word `w2`, with the count
and the hint brought up to date. -/
structure SetsBits (a b : Alloc) (w2 : Nat) (mask : BitVec 64) : Prop where
  shape : SameShape a b
  l2    : b.l2 = a.l2.orWord w2 mask
  count : b.freeCount = a.freeCount + (~~~ a.l2 w2 &&& mask).cpop
  hint  : b.firstFreeW2 = min w2 a.firstFreeW2

section SetBits

variable {b : Alloc} {mask : BitVec 64}

theorem SetsBits.other (hb : SetsBits a b w2 mask) {i : Nat} (hi : i ≠ w2) : b.l2 i = a.l2 i := by
  rw [hb.l2]
  unfold Words.orWord
  rw [Function.update_of_ne hi]

theorem SetsBits.inside (h : a.Consistent) (hb : SetsBits a b w2 mask)
    (hIn : ∀ i, i < 64 → mask.getLsbD i = true → w2 * 64 + i < a.blockCount) (n : Nat)
    (hn : n < a.l2Words * 64) (hFree : b.l2.test n = true) : n < a.blockCount := by
  rw [hb.l2, Words.test_orWord, Bool.or_eq_true, Bool.and_eq_true, decide_eq_true_eq] at hFree
  rcases hFree with hOld | ⟨hWord, hMask⟩
  · exact h.inside n hn hOld
  · have hDev := hIn _ (Nat.mod_lt _ (by decide)) hMask
    omega

/-- Setting bits of the device keeps consistency once the summaries follow. -/
theorem Consistent.setsBits (h : a.Consistent) (hb : SetsBits a b w2 mask) (hw : w2 < a.l2Words)
    (hIn : ∀ i, i < 64 → mask.getLsbD i = true → w2 * 64 + i < a.blockCount)
    (hSum : b.Summaries b.l2) : b.Consistent := by
  have hInside := hb.inside h hIn
  refine ⟨hb.shape.geometry h.geometry, hSum, ?_, ?_, ?_⟩
  · have hTotal := Words.count_orWord (m := a.l2) hw mask
    have hBound : b.l2.count (a.l2Words * 64) ≤ a.blockCount := Words.count_le_of_forall hInside
    have hWord := h.geometry.word
    rw [hb.l2] at hBound
    rw [hb.count, hb.l2, hb.shape.l2Words, BitVec.toNat_add, h.count, ← hTotal]
    exact Nat.mod_eq_of_lt (by omega)
  · intro n hn hFree
    rw [hb.shape.l2Words] at hn
    rw [hb.shape.blockCount]
    exact hInside n hn hFree
  · intro i hi hi'
    have hHint := hb.hint
    rw [hb.shape.l2Words] at hi'
    rw [hb.other (by omega)]
    exact h.hint i (by omega) hi'

theorem freeCount_propagateL2Nonzero (a : Alloc) (w2 : Nat) :
    (a.propagateL2Nonzero w2).freeCount = a.freeCount := by
  unfold Alloc.propagateL2Nonzero
  dsimp only
  split <;> rfl

theorem firstFreeW2_propagateL2Nonzero (a : Alloc) (w2 : Nat) :
    (a.propagateL2Nonzero w2).firstFreeW2 = a.firstFreeW2 := by
  unfold Alloc.propagateL2Nonzero
  dsimp only
  split <;> rfl

theorem SetsBits.propagateL2Nonzero (hb : SetsBits a b w2 mask) :
    SetsBits a (b.propagateL2Nonzero w2) w2 mask := by
  refine ⟨hb.shape.trans (sameShape_propagateL2Nonzero b w2), ?_, ?_, ?_⟩
  · rw [l2_propagateL2Nonzero, hb.l2]
  · rw [freeCount_propagateL2Nonzero, hb.count]
  · rw [firstFreeW2_propagateL2Nonzero, hb.hint]

/-- The two free operations update the summaries under a test `c` of their own;
it has to hold where the word was zero and is not now. -/
theorem Consistent.freed (h : a.Consistent) (w2 : Nat) (mask : BitVec 64) (hw : w2 < a.l2Words)
    (hIn : ∀ i, i < 64 → mask.getLsbD i = true → w2 * 64 + i < a.blockCount) {c : Prop}
    [Decidable c] (hb : SetsBits a b w2 mask) (hL1 : b.l1 = a.l1) (hL0 : b.l0 = a.l0)
    (hSet : c → b.l2 w2 ≠ 0#64) (hKeep : ¬ c → (b.l2 w2 = 0#64 ↔ a.l2 w2 = 0#64)) :
    (if c then b.propagateL2Nonzero w2 else b).Consistent := by
  have hOld : b.Summaries a.l2 := h.summaries.of_levels hL1 hL0 hb.shape
  by_cases hc : c
  · rw [if_pos hc]
    have hSum : (b.propagateL2Nonzero w2).Summaries b.l2 := by
      refine hOld.propagateL2Nonzero ?_ (hSet hc) fun i hi => hb.other hi
      rw [hb.shape.l2Words]
      exact hw
    refine h.setsBits hb.propagateL2Nonzero hw hIn ?_
    rwa [l2_propagateL2Nonzero]
  · rw [if_neg hc]
    refine h.setsBits hb hw hIn (hOld.congr ?_)
    intro i _
    by_cases hi : i = w2
    · subst hi
      exact hKeep hc
    · rw [hb.other hi]

end SetBits

theorem Consistent.freeWord (h : a.Consistent) {relStart stop : Nat} (hw : w2 < a.l2Words)
    (hStop : stop ≤ a.blockCount) : (a.freeWord relStart stop w2).Consistent := by
  unfold Alloc.freeWord
  dsimp only
  refine h.freed w2 (rangeMask (relStart - w2 * 64) (stop - w2 * 64)) hw ?_ ?_ rfl rfl ?_ ?_
  · intro i hi hMask
    rw [getLsbD_rangeMask hi, Bool.and_eq_true, decide_eq_true_eq, decide_eq_true_eq] at hMask
    omega
  · exact ⟨⟨rfl, rfl, rfl, rfl, rfl⟩, rfl, rfl, rfl⟩
  · rintro ⟨-, hNe⟩
    exact hNe
  · intro hNot
    constructor
    · intro hZero
      exact (eq_zero_of_orWord (m := a.l2) hZero).1
    · intro hZero
      by_contra hNe
      exact hNot ⟨hZero, hNe⟩

theorem sameShape_freeWord (a : Alloc) (relStart stop w2 : Nat) :
    SameShape a (a.freeWord relStart stop w2) := by
  unfold Alloc.freeWord
  dsimp only
  split
  · refine SameShape.trans ?_ (sameShape_propagateL2Nonzero _ _)
    exact ⟨rfl, rfl, rfl, rfl, rfl⟩
  · exact ⟨rfl, rfl, rfl, rfl, rfl⟩

theorem Consistent.foldl_freeWord {relStart stop : Nat} : ∀ (l : List Nat) {a : Alloc},
    a.Consistent → (∀ w2 ∈ l, w2 < a.l2Words) → stop ≤ a.blockCount →
    (l.foldl (fun a w2 => a.freeWord relStart stop w2) a).Consistent
  | [], _, h, _, _ => h
  | w2 :: l, a, h, hl, hStop => by
    rw [List.foldl_cons]
    have hShape := sameShape_freeWord a relStart stop w2
    refine Consistent.foldl_freeWord l (h.freeWord (hl w2 (by simp)) hStop) ?_ ?_
    · intro w hw
      rw [hShape.l2Words]
      exact hl w (List.mem_cons_of_mem _ hw)
    · rw [hShape.blockCount]
      exact hStop

theorem Consistent.freeBlocks (h : a.Consistent) (relStart n : Nat) :
    (a.freeBlocks relStart n).Consistent := by
  have hSize := a.hL2
  unfold Alloc.freeBlocks
  split
  · exact h
  · dsimp only
    refine Consistent.foldl_freeWord _ h ?_ (Nat.min_le_right _ _)
    intro w2 hw2
    rw [List.mem_range'_1] at hw2
    omega

theorem cpop_bit {b : Nat} (hb : b < 64) : (bit b).cpop = 1#64 := by
  apply BitVec.eq_of_toNat_eq
  rw [toNat_cpop_eq_count, Nat.count_eq_card_filter_range]
  have hOne : (Finset.range 64).filter (fun i => (bit b).getLsbD i = true) = {b} := by
    ext i
    rw [Finset.mem_filter, Finset.mem_range, Finset.mem_singleton, getLsbD_bit, Bool.and_eq_true,
      decide_eq_true_eq, decide_eq_true_eq]
    omega
  rw [hOne, Finset.card_singleton]
  rfl

theorem not_and_bit {x : BitVec 64} {b : Nat} (hClear : x.getLsbD b = false) :
    ~~~ x &&& bit b = bit b := by
  apply BitVec.eq_of_getLsbD_eq
  intro i hi
  rw [BitVec.getLsbD_and, BitVec.getLsbD_not, getLsbD_bit]
  by_cases hb : i = b
  · subst hb
    simp [hClear]
  · simp [hb]

theorem Consistent.freeBlock (h : a.Consistent) (rel : Nat) : (a.freeBlock rel).Consistent := by
  have hSize := a.hL2
  have hBit : rel % 64 < 64 := Nat.mod_lt _ (by decide)
  unfold Alloc.freeBlock
  split
  · exact h
  · split
    · exact h
    · rename_i hDev hFree
      have hClear : (a.l2 (rel / 64)).getLsbD (rel % 64) = false := by
        simpa [isFree, Words.test] using hFree
      dsimp only
      refine h.freed (rel / 64) (bit (rel % 64)) (by omega) ?_ ?_ rfl rfl ?_ ?_
      · intro i hi hMask
        rw [getLsbD_bit, Bool.and_eq_true, decide_eq_true_eq, decide_eq_true_eq] at hMask
        omega
      · refine ⟨⟨rfl, rfl, rfl, rfl, rfl⟩, rfl, ?_, rfl⟩
        rw [not_and_bit hClear, cpop_bit hBit]
        rfl
      · intro hOnly
        rw [hOnly]
        exact bit_ne_zero hBit
      · intro hOther
        refine iff_of_false ?_ ?_
        · exact orWord_bit_ne_zero hBit
        · intro hZero
          apply hOther
          show a.l2.orWord (rel / 64) (bit (rel % 64)) (rel / 64) = bit (rel % 64)
          unfold Words.orWord
          rw [Function.update_self, hZero, BitVec.zero_or]

end Alloc

end Briefs
