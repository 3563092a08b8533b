import Briefs.Lib.Bitmap
import Mathlib.Data.Nat.Count
import Mathlib.Algebra.BigOperators.Group.Finset.Basic
import Mathlib.Algebra.BigOperators.Intervals

/-!
# Counting and summarizing bitmaps

Two facts a layered bitmap rests on. The number of set bits (`Words.count`) is
the sum of the population counts of the words, and one bit more or less changes
it by one. A bitmap `up` *summarizes* another, `down`, when bit `i` of `up` says
whether word `i` of `down` is nonzero; clearing or setting the bit of the one
word that changed keeps it so.

## Results

* `Words.count_clear` — clearing a set bit lowers the count by one.
* `Words.count_orWord` — setting a mask raises it by the bits that were clear.
* `Summarizes.clear`, `Summarizes.set`, `Summarizes.congr` — how a summary follows
  one changed word.
-/

namespace Briefs.Lib

--
-- Counting set bits
--

/-- The number of set bits among the first `n`. -/
def Words.count (m : Words) (n : Nat) : Nat := Nat.count (fun i => m.test i = true) n

theorem Words.exists_of_count_ne_zero {m : Words} {n : Nat} (h : m.count n ≠ 0) :
    ∃ i, i < n ∧ m.test i = true :=
  Nat.count_ne_iff_exists.mp h

/-- When every set bit among the first `n` lies below `k`, at most `k` are set. -/
theorem Words.count_le_of_forall {m : Words} {n k : Nat}
    (h : ∀ i, i < n → m.test i = true → i < k) : m.count n ≤ k := by
  unfold Words.count
  rw [Nat.count_eq_card_filter_range]
  have hSub : (Finset.range n).filter (fun i => m.test i = true) ⊆ Finset.range k := by
    intro i hi
    rw [Finset.mem_filter, Finset.mem_range] at hi
    exact Finset.mem_range.mpr (h i hi.1 hi.2)
  have hCard := Finset.card_le_card hSub
  rwa [Finset.card_range] at hCard

/-- Clearing a set bit lowers the count by one. -/
theorem Words.count_clear {m : Words} {w b n : Nat} (hb : b < 64) (hIn : w * 64 + b < n)
    (hSet : m.test (w * 64 + b) = true) : (m.clear w b).count n + 1 = m.count n := by
  unfold Words.count
  rw [Nat.count_eq_card_filter_range, Nat.count_eq_card_filter_range]
  have hErase : (Finset.range n).filter (fun i => (m.clear w b).test i = true) =
      ((Finset.range n).filter fun i => m.test i = true).erase (w * 64 + b) := by
    ext i
    rw [Finset.mem_erase, Finset.mem_filter, Finset.mem_filter, Words.test_clear hb]
    simp only [Bool.and_eq_true, Bool.not_eq_true', decide_eq_false_iff_not]
    tauto
  rw [hErase]
  apply Finset.card_erase_add_one
  rw [Finset.mem_filter, Finset.mem_range]
  exact ⟨hIn, hSet⟩

/-- The set bits of one word. -/
theorem toNat_cpop_eq_count (x : BitVec 64) :
    x.cpop.toNat = Nat.count (fun i => x.getLsbD i = true) 64 := by
  have hRec : ∀ n, x.cpopNatRec n 0 = Nat.count (fun i => x.getLsbD i = true) n := by
    intro n
    induction n with
    | zero => simp
    | succ n ih =>
      rw [BitVec.cpopNatRec_succ, BitVec.cpopNatRec_eq, ih, Nat.count_succ, Nat.zero_add]
      cases x.getLsbD n <;> simp
  rw [BitVec.toNat_cpop, hRec]

/-- The count of a bitmap is the sum of the counts of its words. -/
theorem Words.count_mul (m : Words) (k : Nat) :
    m.count (k * 64) = ∑ w ∈ Finset.range k, (m w).cpop.toNat := by
  induction k with
  | zero => simp [Words.count]
  | succ k ih =>
    have hWord : Nat.count (fun i => m.test (k * 64 + i) = true) 64 = (m k).cpop.toNat := by
      rw [toNat_cpop_eq_count, Nat.count_eq_card_filter_range, Nat.count_eq_card_filter_range]
      congr 1
      apply Finset.filter_congr
      intro i hi
      have hi' : i < 64 := Finset.mem_range.mp hi
      have hDiv : (k * 64 + i) / 64 = k := by omega
      have hMod : (k * 64 + i) % 64 = i := by omega
      unfold Words.test
      rw [hDiv, hMod]
    have hSucc : (k + 1) * 64 = k * 64 + 64 := by omega
    rw [Finset.sum_range_succ, ← ih, hSucc]
    unfold Words.count
    rw [Nat.count_add, hWord]

/-- The bits that `|= mask` adds to a word. -/
theorem toNat_cpop_or (x mask : BitVec 64) :
    (x ||| mask).cpop.toNat = x.cpop.toNat + (~~~ x &&& mask).cpop.toNat := by
  rw [toNat_cpop_eq_count, toNat_cpop_eq_count, toNat_cpop_eq_count,
    Nat.count_eq_card_filter_range, Nat.count_eq_card_filter_range,
    Nat.count_eq_card_filter_range, ← Finset.card_union_of_disjoint]
  · congr 1
    ext i
    simp only [Finset.mem_filter, Finset.mem_union, Finset.mem_range, BitVec.getLsbD_or,
      BitVec.getLsbD_and, BitVec.getLsbD_not, Bool.or_eq_true, Bool.and_eq_true,
      Bool.not_eq_true', decide_eq_true_eq]
    by_cases hx : x.getLsbD i = true
    · simp [hx]
    · simp [hx]
  · rw [Finset.disjoint_filter]
    intro i _ hx hNew
    simp only [BitVec.getLsbD_and, BitVec.getLsbD_not, hx] at hNew
    simp at hNew

theorem Words.count_orWord {m : Words} {w k : Nat} (hw : w < k) (mask : BitVec 64) :
    (m.orWord w mask).count (k * 64) =
      m.count (k * 64) + (~~~ m w &&& mask).cpop.toNat := by
  rw [Words.count_mul, Words.count_mul]
  have hMem : w ∈ Finset.range k := Finset.mem_range.mpr hw
  rw [← Finset.add_sum_erase _ _ hMem, ← Finset.add_sum_erase _ (fun w => (m w).cpop.toNat) hMem]
  have hRest : ∑ i ∈ (Finset.range k).erase w, ((m.orWord w mask) i).cpop.toNat =
      ∑ i ∈ (Finset.range k).erase w, (m i).cpop.toNat := by
    apply Finset.sum_congr rfl
    intro i hi
    unfold Words.orWord
    rw [Function.update_of_ne (Finset.ne_of_mem_erase hi)]
  have hWord : ((m.orWord w mask) w).cpop.toNat =
      (m w).cpop.toNat + (~~~ m w &&& mask).cpop.toNat := by
    unfold Words.orWord
    rw [Function.update_self, toNat_cpop_or]
  rw [hRest, hWord]
  omega

--
-- Summaries
--

/-- Bit `i` of the `upLen` words of `up` tells whether word `i` of the `len` words
of `down` is nonzero; the bits past the last word are clear. -/
def Summarizes (up : Words) (upLen : Nat) (down : Words) (len : Nat) : Prop :=
  ∀ i, i < upLen * 64 → (up.test i = true ↔ i < len ∧ down i ≠ 0#64)

variable {up down down' : Words} {upLen len : Nat}

/-- A change that keeps every zero word zero and every other one nonzero. -/
theorem Summarizes.congr (h : Summarizes up upLen down len)
    (hSame : ∀ i, i < len → (down' i = 0#64 ↔ down i = 0#64)) :
    Summarizes up upLen down' len := by
  intro i hi
  rw [h i hi]
  constructor
  · rintro ⟨hLen, hNe⟩
    exact ⟨hLen, fun hZero => hNe ((hSame i hLen).mp hZero)⟩
  · rintro ⟨hLen, hNe⟩
    exact ⟨hLen, fun hZero => hNe ((hSame i hLen).mpr hZero)⟩

/-- The summary follows a word that became zero. -/
theorem Summarizes.clear (h : Summarizes up upLen down len) {w : Nat} (hZero : down' w = 0#64)
    (hRest : ∀ i, i ≠ w → down' i = down i) :
    Summarizes (up.clear (w / 64) (w % 64)) upLen down' len := by
  intro i hi
  have hDiv : w / 64 * 64 + w % 64 = w := by omega
  rw [Words.test_clear (Nat.mod_lt _ (by decide)), hDiv]
  by_cases hw : i = w
  · subst hw
    simp [hZero]
  · rw [hRest i hw, ← h i hi]
    simp [hw]

/-- The summary follows a word that became nonzero. -/
theorem Summarizes.set (h : Summarizes up upLen down len) {w : Nat} (hw : w < len)
    (hNe : down' w ≠ 0#64) (hRest : ∀ i, i ≠ w → down' i = down i) :
    Summarizes (up.orWord (w / 64) (bit (w % 64))) upLen down' len := by
  intro i hi
  rw [Words.test_orWord, getLsbD_bit]
  have hMod : i % 64 < 64 := Nat.mod_lt _ (by decide)
  by_cases hEq : i = w
  · subst hEq
    simp [hw, hNe, hMod]
  · have hOther : ¬ (i / 64 = w / 64 ∧ i % 64 = w % 64) := by omega
    rw [hRest i hEq, ← h i hi]
    simp [hMod, hOther]

/-- A nonzero word has its bit in the summary, so the word that holds it is nonzero. -/
theorem Summarizes.up_ne_zero (h : Summarizes up upLen down len) (hLen : len ≤ upLen * 64)
    {i : Nat} (hi : i < len) (hNe : down i ≠ 0#64) : up (i / 64) ≠ 0#64 := by
  have hSet : up.test i = true := (h i (by omega)).mpr ⟨hi, hNe⟩
  intro hZero
  unfold Words.test at hSet
  rw [hZero] at hSet
  simp at hSet

/-- The lowest set bit of a summary word leads to a nonzero word below. -/
theorem Summarizes.down_ne_zero (h : Summarizes up upLen down len) {w : Nat} (hw : w < upLen)
    (hNe : up w ≠ 0#64) :
    w * 64 + lowBit (up w) < len ∧ down (w * 64 + lowBit (up w)) ≠ 0#64 := by
  obtain ⟨hBit, hSet⟩ := lowBit_spec hNe
  have hDiv : (w * 64 + lowBit (up w)) / 64 = w := by omega
  have hMod : (w * 64 + lowBit (up w)) % 64 = lowBit (up w) := by omega
  apply (h (w * 64 + lowBit (up w)) (by omega)).mp
  unfold Words.test
  rw [hDiv, hMod]
  exact hSet

end Briefs.Lib
