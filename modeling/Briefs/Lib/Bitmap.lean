import Mathlib.Data.BitVec
import Mathlib.Logic.Function.Basic
import Mathlib.Tactic.Common

/-!
# Bitmaps of 64-bit words

A bitmap is a function from word indices to 64-bit words; bit `n` lives in word
`n / 64` at position `n % 64`. The operations are the word operations that C
code uses on such bitmaps (test, set and clear one bit, set a range of bits in
one word, find the lowest or the highest set bit), each with one lemma that
says what it does to the bits.
-/

namespace Briefs.Lib

/-- The words of a bitmap. -/
abbrev Words := Nat → BitVec 64

/-- `1ULL << b`. -/
def bit (b : Nat) : BitVec 64 := 1#64 <<< b

@[simp]
theorem getLsbD_bit (b i : Nat) : (bit b).getLsbD i = (decide (i < 64) && decide (i = b)) := by
  unfold bit
  simp only [BitVec.getLsbD_shiftLeft, BitVec.getLsbD_one]
  by_cases hi : i < 64
  · by_cases hlt : i < b
    · have hne : i ≠ b := by omega
      simp [hlt, hne]
    · have hIff : i - b = 0 ↔ i = b := by omega
      simp [hi, hlt, hIff]
  · simp [hi]

/-- Bit `n` of a bitmap. -/
def Words.test (m : Words) (n : Nat) : Bool := (m (n / 64)).getLsbD (n % 64)

/-- Clear bit `b` of word `w`. -/
def Words.clear (m : Words) (w b : Nat) : Words := Function.update m w (m w &&& ~~~ bit b)

/-- Set the bits of `mask` in word `w`. -/
def Words.orWord (m : Words) (w : Nat) (mask : BitVec 64) : Words :=
  Function.update m w (m w ||| mask)

theorem Words.test_clear {m : Words} {w b : Nat} (hb : b < 64) (n : Nat) :
    (m.clear w b).test n = (m.test n && !decide (n = w * 64 + b)) := by
  unfold Words.test Words.clear
  have hn : n % 64 < 64 := Nat.mod_lt _ (by decide)
  by_cases hw : n / 64 = w
  · subst hw
    simp only [Function.update_self, BitVec.getLsbD_and, BitVec.getLsbD_not, getLsbD_bit, hn,
      decide_true, Bool.true_and]
    have hIff : n % 64 = b ↔ n = n / 64 * 64 + b := by omega
    simp [hIff]
  · rw [Function.update_of_ne hw]
    have hne : ¬ n = w * 64 + b := by omega
    simp [hne]

theorem Words.test_orWord {m : Words} {w : Nat} {mask : BitVec 64} (n : Nat) :
    (m.orWord w mask).test n =
      (m.test n || (decide (n / 64 = w) && mask.getLsbD (n % 64))) := by
  unfold Words.test Words.orWord
  by_cases hw : n / 64 = w
  · subst hw
    simp
  · simp [hw]

/-- `__builtin_ctzll`: the lowest set bit of a nonzero word. -/
def lowBit (w : BitVec 64) : Nat := ((List.range 64).find? fun i => w.getLsbD i).getD 64

/-- `63 - __builtin_clzll`: the highest set bit of a nonzero word. -/
def highBit (w : BitVec 64) : Nat := ((List.range 64).reverse.find? fun i => w.getLsbD i).getD 64

theorem exists_getLsbD_of_ne_zero {w : BitVec 64} (h : w ≠ 0#64) :
    ∃ i, i < 64 ∧ w.getLsbD i = true := by
  by_contra hNone
  apply h
  apply BitVec.eq_of_getLsbD_eq
  intro i hi
  simp only [BitVec.getLsbD_zero]
  by_contra hBit
  exact hNone ⟨i, hi, by simpa using hBit⟩

/-- A search over the 64 positions of a nonzero word finds a set bit. -/
theorem find_getLsbD {l : List Nat} (hl : ∀ i, i ∈ l ↔ i < 64) {w : BitVec 64} (h : w ≠ 0#64) :
    (l.find? fun i => w.getLsbD i).getD 64 < 64 ∧
      w.getLsbD ((l.find? fun i => w.getLsbD i).getD 64) = true := by
  obtain ⟨i, hi, hBit⟩ := exists_getLsbD_of_ne_zero h
  cases hFind : l.find? fun i => w.getLsbD i with
  | none => exact absurd hBit (by simpa using List.find?_eq_none.mp hFind i ((hl i).mpr hi))
  | some j =>
    exact ⟨(hl j).mp (List.mem_of_find?_eq_some hFind), List.find?_some hFind⟩

theorem lowBit_spec {w : BitVec 64} (h : w ≠ 0#64) :
    lowBit w < 64 ∧ w.getLsbD (lowBit w) = true :=
  find_getLsbD (fun _ => List.mem_range) h

theorem highBit_spec {w : BitVec 64} (h : w ≠ 0#64) :
    highBit w < 64 ∧ w.getLsbD (highBit w) = true :=
  find_getLsbD (fun _ => by rw [List.mem_reverse, List.mem_range]) h

/-- The bits `[lo, hi)` of a word, as C code builds the mask: a shift of all
ones for a range up to the top of the word, else the low bits below `hi` too. -/
def rangeMask (lo hi : Nat) : BitVec 64 :=
  if 64 ≤ hi then (~~~ 0#64) <<< lo
  else (bit hi - 1#64) &&& ((~~~ 0#64) <<< lo)

theorem getLsbD_bit_sub_one {hi i : Nat} (hHi : hi < 64) :
    (bit hi - 1#64).getLsbD i = decide (i < hi) := by
  have hPow : 2 ^ hi < 2 ^ 64 := Nat.pow_lt_pow_right (by decide) hHi
  have hPos : 0 < 2 ^ hi := Nat.two_pow_pos hi
  have hBit : (bit hi).toNat = 2 ^ hi := by
    unfold bit
    rw [BitVec.toNat_shiftLeft, Nat.shiftLeft_eq]
    have hOne : (1#64).toNat = 1 := rfl
    rw [hOne, Nat.one_mul, Nat.mod_eq_of_lt hPow]
  have hNat : (bit hi - 1#64).toNat = 2 ^ hi - 1 := by
    rw [BitVec.toNat_sub, hBit]
    have hOne : (1#64).toNat = 1 := rfl
    rw [hOne]
    omega
  rw [← BitVec.testBit_toNat, hNat, Nat.testBit_two_pow_sub_one]

theorem getLsbD_ones_shiftLeft {lo i : Nat} (hi : i < 64) :
    ((~~~ 0#64) <<< lo).getLsbD i = decide (lo ≤ i) := by
  have hsub : i - lo < 64 := by omega
  simp only [BitVec.getLsbD_shiftLeft, BitVec.getLsbD_not, BitVec.getLsbD_zero, hi, hsub,
    decide_true, Bool.true_and, Bool.not_false, Bool.and_true]
  by_cases hlo : lo ≤ i
  · have hge : ¬ i < lo := by omega
    simp [hlo, hge]
  · have hlt : i < lo := by omega
    simp [hlo, hlt]

theorem getLsbD_rangeMask {lo hi i : Nat} (hBit : i < 64) :
    (rangeMask lo hi).getLsbD i = (decide (lo ≤ i) && decide (i < hi)) := by
  unfold rangeMask
  by_cases h : 64 ≤ hi
  · have hlt : i < hi := by omega
    rw [if_pos h, getLsbD_ones_shiftLeft hBit]
    simp [hlt]
  · rw [if_neg h, BitVec.getLsbD_and, getLsbD_bit_sub_one (by omega),
      getLsbD_ones_shiftLeft hBit, Bool.and_comm]

end Briefs.Lib
