import Mathlib.Logic.Function.Iterate
import Mathlib.Data.BitVec

/-!
# Shift registers with feedback

A register of `w` bits is shifted down one bit at a time; a bit that falls out as one feeds `poly`
back. A symbol of `k` bits is absorbed by adding it at the low end and shifting `k` times. Addition
is exclusive or, everything here is linear in it, and so the difference of two runs is a run over
the difference of their inputs.

`poly` need not have its top bit set, so a shift may lose information. What lies below the top bit
`t` that `poly` does have is never lost: a register that is not zero and has no bit above `t` stays
one.

## Results

* `shifts_eq` — `n` shifts are a shift by `n` and `n` shifts of the low bits: the step from a table.
* `absorb_eq` — symbols that fit in the register can be added at once, and shifted out together.
* `absorb_xor` — the difference of two runs.
* `Live.shifts` — what is below the top bit of `poly` is not lost.
* `absorb_ne_of_burst` — inputs that differ in a window of at most `t + 1` bits are told apart.
-/

namespace Briefs.Register

variable {w k : Nat} (poly : BitVec w)

--
-- Shifts
--

/-- One shift: the bit that falls out feeds `poly` back. -/
def shift (r : BitVec w) : BitVec w := (r >>> 1) ^^^ (if r.getLsbD 0 then poly else 0)

theorem getLsbD_shift (r : BitVec w) (i : Nat) :
    (shift poly r).getLsbD i = (r.getLsbD (1 + i) ^^ (r.getLsbD 0 && poly.getLsbD i)) := by
  unfold shift
  rw [BitVec.getLsbD_xor, BitVec.getLsbD_ushiftRight]
  cases r.getLsbD 0 <;> simp

theorem shift_xor (a b : BitVec w) : shift poly (a ^^^ b) = shift poly a ^^^ shift poly b := by
  refine BitVec.eq_of_getLsbD_eq fun i _ => ?_
  simp only [getLsbD_shift, BitVec.getLsbD_xor]
  cases a.getLsbD (1 + i) <;> cases b.getLsbD (1 + i) <;> cases a.getLsbD 0 <;>
    cases b.getLsbD 0 <;> cases poly.getLsbD i <;> rfl

theorem shifts_xor (n : Nat) (a b : BitVec w) :
    (shift poly)^[n] (a ^^^ b) = (shift poly)^[n] a ^^^ (shift poly)^[n] b := by
  induction n generalizing a b with
  | zero => rfl
  | succ n ih =>
    rw [Function.iterate_succ_apply, shift_xor, ih]
    rfl

theorem shifts_zero (n : Nat) : (shift poly)^[n] 0 = 0 := by
  have hZero := shifts_xor poly n 0 0
  rwa [BitVec.xor_self, BitVec.xor_self] at hZero

/-- A register whose `n` low bits are clear only moves down. -/
theorem shifts_of_clear {n : Nat} {r : BitVec w} (hClear : ∀ i < n, r.getLsbD i = false) :
    (shift poly)^[n] r = r >>> n := by
  induction n with
  | zero => simp
  | succ n ih =>
    have hOut : (r >>> n).getLsbD 0 = false := by
      rw [BitVec.getLsbD_ushiftRight]
      exact hClear n (Nat.lt_succ_self n)
    rw [Function.iterate_succ_apply', ih fun i hi => hClear i (Nat.lt_succ_of_lt hi)]
    unfold shift
    rw [hOut]
    simp [BitVec.shiftRight_add]

/-- `n` shifts of `r`, when `m` is its `n` low bits. -/
theorem shifts_eq {n : Nat} {r m : BitVec w} (hLow : ∀ i < n, m.getLsbD i = r.getLsbD i)
    (hHigh : m >>> n = 0) : (shift poly)^[n] r = (r >>> n) ^^^ (shift poly)^[n] m := by
  have hClear : ∀ i < n, (r ^^^ m).getLsbD i = false := by
    intro i hi
    rw [BitVec.getLsbD_xor, hLow i hi, Bool.xor_self]
  have hMoved : (shift poly)^[n] (r ^^^ m) = r >>> n := by
    rw [shifts_of_clear poly hClear, BitVec.ushiftRight_xor_distrib, hHigh]
    exact BitVec.xor_zero
  calc (shift poly)^[n] r
      = (shift poly)^[n] ((r ^^^ m) ^^^ m) := by
        rw [BitVec.xor_assoc, BitVec.xor_self, BitVec.xor_zero]
    _ = (r >>> n) ^^^ (shift poly)^[n] m := by rw [shifts_xor, hMoved]

/-- What was moved up comes back down. -/
theorem shifts_shiftLeft {n : Nat} {r : BitVec w} (hFits : ∀ i, w ≤ i + n → r.getLsbD i = false) :
    (shift poly)^[n] (r <<< n) = r := by
  rw [shifts_of_clear poly fun i hi => by simp [hi]]
  refine BitVec.eq_of_getLsbD_eq fun i hi => ?_
  rw [BitVec.getLsbD_ushiftRight, BitVec.getLsbD_shiftLeft, Nat.add_sub_cancel_left]
  by_cases hIn : n + i < w
  · simp [hIn]
  · simp [hIn, hFits i (by omega)]

--
-- Symbols
--

/-- A symbol is added at the low end and shifted out. -/
def feed (r : BitVec w) (x : BitVec k) : BitVec w := (shift poly)^[k] (r ^^^ x.setWidth w)

def absorb (r : BitVec w) (xs : List (BitVec k)) : BitVec w := xs.foldl (feed poly) r

@[simp]
theorem absorb_nil (r : BitVec w) : absorb poly r ([] : List (BitVec k)) = r := rfl

@[simp]
theorem absorb_cons (r : BitVec w) (x : BitVec k) (xs : List (BitVec k)) :
    absorb poly r (x :: xs) = absorb poly (feed poly r x) xs := rfl

theorem absorb_append (r : BitVec w) (xs ys : List (BitVec k)) :
    absorb poly r (xs ++ ys) = absorb poly (absorb poly r xs) ys := List.foldl_append

/-- Symbols side by side, the first one lowest. -/
def pack : List (BitVec k) → BitVec w
  | [] => 0
  | x :: xs => x.setWidth w ^^^ (pack xs <<< k)

theorem getLsbD_pack_of_ge {xs : List (BitVec k)} {i : Nat} (hi : k * xs.length ≤ i) :
    (pack xs : BitVec w).getLsbD i = false := by
  induction xs generalizing i with
  | nil => simp [pack]
  | cons x xs ih =>
    rw [List.length_cons, Nat.mul_succ] at hi
    have hRest := ih (i := i - k) (by omega)
    have hTop : x.getLsbD i = false := BitVec.getLsbD_of_ge x i (by omega)
    simp [pack, hTop, hRest]

/-- Symbols that fit in the register can be added at once. -/
theorem absorb_eq (r : BitVec w) {xs : List (BitVec k)} (hFits : k * xs.length ≤ w) :
    absorb poly r xs = (shift poly)^[k * xs.length] (r ^^^ pack xs) := by
  induction xs generalizing r with
  | nil => simp [pack]
  | cons x xs ih =>
    rw [List.length_cons, Nat.mul_succ] at hFits
    have hRest : (shift poly)^[k] (pack xs <<< k) = pack xs :=
      shifts_shiftLeft poly fun i hi => getLsbD_pack_of_ge (by omega)
    rw [absorb_cons, ih _ (by omega), List.length_cons, Nat.mul_succ, Function.iterate_add_apply,
      pack, ← BitVec.xor_assoc, shifts_xor poly k, hRest]
    rfl

/-- The difference of two runs is a run over the difference of their symbols. -/
theorem absorb_xor {xs ys : List (BitVec k)} (hLen : xs.length = ys.length) (a b : BitVec w) :
    absorb poly a xs ^^^ absorb poly b ys =
      absorb poly (a ^^^ b) (List.zipWith (· ^^^ ·) xs ys) := by
  induction xs generalizing ys a b with
  | nil =>
    obtain rfl := List.length_eq_zero_iff.mp hLen.symm
    rfl
  | cons x xs ih =>
    cases ys with
    | nil => exact absurd hLen (Nat.succ_ne_zero _)
    | cons y ys =>
      have hFeed : feed poly a x ^^^ feed poly b y = feed poly (a ^^^ b) (x ^^^ y) := by
        unfold feed
        rw [← shifts_xor, BitVec.setWidth_xor]
        congr 1
        ac_rfl
      rw [absorb_cons, absorb_cons, ih (Nat.succ.inj hLen), hFeed]
      rfl

theorem absorb_zeros (r : BitVec w) (n : Nat) :
    absorb poly r (List.replicate n (0 : BitVec k)) = (shift poly)^[k * n] r := by
  induction n generalizing r with
  | zero => rfl
  | succ n ih =>
    have hFeed : feed poly r (0 : BitVec k) = (shift poly)^[k] r := by simp [feed]
    rw [List.replicate_succ, absorb_cons, ih, hFeed, Nat.mul_succ, Function.iterate_add_apply]

--
-- What is not lost
--

/-- `t` is the highest bit that is set. -/
def HasTop (t : Nat) (r : BitVec w) : Prop :=
  r.getLsbD t = true ∧ ∀ i, t < i → r.getLsbD i = false

/-- The register is not zero and has no bit above `t`. -/
def Live (t : Nat) (r : BitVec w) : Prop :=
  (∃ i, r.getLsbD i = true) ∧ ∀ i, t < i → r.getLsbD i = false

variable {poly} {t : Nat} {r : BitVec w}

theorem Live.ne_zero (h : Live t r) : r ≠ 0 := by
  rintro rfl
  obtain ⟨i, hi⟩ := h.1
  simp at hi

/-- If the bit that falls out is one, the top bit of `poly` is fed back to where the register has
none. -/
theorem Live.shift (hPoly : HasTop t poly) (h : Live t r) : Live t (shift poly r) := by
  refine ⟨?_, ?_⟩
  · cases hOut : r.getLsbD 0 with
    | true =>
      refine ⟨t, ?_⟩
      rw [getLsbD_shift, hOut, hPoly.1, h.2 (1 + t) (by omega)]
      rfl
    | false =>
      obtain ⟨i, hi⟩ := h.1
      cases i with
      | zero => exact absurd hi (by simp [hOut])
      | succ i =>
        refine ⟨i, ?_⟩
        rw [getLsbD_shift, hOut, Nat.add_comm 1 i, hi]
        rfl
  · intro i hi
    rw [getLsbD_shift, hPoly.2 i hi, h.2 (1 + i) (by omega), Bool.and_false]
    rfl

theorem Live.shifts (hPoly : HasTop t poly) (h : Live t r) (n : Nat) :
    Live t ((Register.shift poly)^[n] r) := by
  induction n with
  | zero => exact h
  | succ n ih =>
    rw [Function.iterate_succ_apply']
    exact ih.shift hPoly

theorem live_pack {xs : List (BitVec k)} (hFits : k * xs.length ≤ t + 1) (hw : t < w)
    (hSome : ∃ x ∈ xs, x ≠ 0) : Live t (pack xs : BitVec w) := by
  refine ⟨?_, fun i hi => getLsbD_pack_of_ge (by omega)⟩
  induction xs with
  | nil =>
    obtain ⟨x, hx, -⟩ := hSome
    exact absurd hx List.not_mem_nil
  | cons x xs ih =>
    rw [List.length_cons, Nat.mul_succ] at hFits
    by_cases hx : x = 0
    · subst hx
      have hRest : ∃ x ∈ xs, x ≠ 0 := by
        obtain ⟨y, hy, hNe⟩ := hSome
        rcases List.mem_cons.mp hy with rfl | hy
        · exact absurd rfl hNe
        · exact ⟨y, hy, hNe⟩
      obtain ⟨i, hi⟩ := ih (by omega) hRest
      have hLt : i < k * xs.length := by
        by_contra hGe
        rw [getLsbD_pack_of_ge (by omega)] at hi
        exact Bool.noConfusion hi
      refine ⟨i + k, ?_⟩
      have hIn : i + k < w := by omega
      simp [pack, hIn, hi]
    · obtain ⟨i, hi⟩ : ∃ i, x.getLsbD i = true := by
        by_contra hNone
        refine hx (BitVec.eq_of_getLsbD_eq fun i _ => ?_)
        have hClear := fun h => hNone ⟨i, h⟩
        simpa using hClear
      have hLt : i < k := BitVec.lt_of_getLsbD hi
      refine ⟨i, ?_⟩
      have hIn : i < w := by omega
      simp [pack, hIn, hi, hLt]

section Burst

variable {m s : Nat} {xs ys : List (BitVec k)}

/-- Where the inputs agree their difference is zero. -/
theorem diff_eq_zero (hSame : ∀ i, i < s ∨ s + m ≤ i → xs[i]? = ys[i]?) {i : Nat} {x : BitVec k}
    (hGet : (List.zipWith (· ^^^ ·) xs ys)[i]? = some x) (hi : i < s ∨ s + m ≤ i) : x = 0 := by
  obtain ⟨a, b, ha, hb, rfl⟩ := List.getElem?_zipWith_eq_some.mp hGet
  rw [hSame i hi, hb] at ha
  obtain rfl := Option.some.inj ha
  exact BitVec.xor_self

theorem exists_diff (hLen : xs.length = ys.length) (hNe : xs ≠ ys) :
    ∃ x ∈ List.zipWith (· ^^^ ·) xs ys, x ≠ 0 := by
  by_contra hNone
  refine hNe (List.ext_getElem hLen fun i hx hy => ?_)
  have hMem : xs[i] ^^^ ys[i] ∈ List.zipWith (· ^^^ ·) xs ys :=
    List.mem_of_getElem? (List.getElem?_zipWith_eq_some.mpr
      ⟨xs[i], ys[i], List.getElem?_eq_getElem hx, List.getElem?_eq_getElem hy, rfl⟩)
  by_contra hDiff
  exact hNone ⟨_, hMem, fun hZero => hDiff (BitVec.xor_eq_zero_iff.mp hZero)⟩

theorem eq_zeros {es : List (BitVec k)} (hZero : ∀ x ∈ es, x = 0) :
    es = List.replicate es.length 0 := List.eq_replicate_iff.mpr ⟨rfl, hZero⟩

/-- Two runs over inputs that differ only in `m` consecutive symbols, of at most `t + 1` bits
together, end in different registers, however much follows. -/
theorem absorb_ne_of_burst (hPoly : HasTop t poly) (hFits : k * m ≤ t + 1)
    (hLen : xs.length = ys.length) (hSame : ∀ i, i < s ∨ s + m ≤ i → xs[i]? = ys[i]?)
    (hNe : xs ≠ ys) (r : BitVec w) : absorb poly r xs ≠ absorb poly r ys := by
  intro hEq
  have hw : t < w := BitVec.lt_of_getLsbD hPoly.1
  generalize hDiff : List.zipWith (· ^^^ ·) xs ys = es
  have hEnd : absorb poly 0 es = 0 := by
    have hXor := absorb_xor poly hLen r r
    rw [hEq, BitVec.xor_self, BitVec.xor_self, hDiff] at hXor
    exact hXor.symm
  have hOut : ∀ i x, es[i]? = some x → i < s ∨ s + m ≤ i → x = 0 := by
    intro i x hGet hi
    rw [← hDiff] at hGet
    exact diff_eq_zero hSame hGet hi
  have hHead : ∀ x ∈ es.take s, x = 0 := by
    intro x hx
    obtain ⟨i, hi, hGet⟩ := List.mem_take_iff_getElem.mp hx
    exact hOut i x (hGet ▸ List.getElem?_eq_getElem (by omega)) (Or.inl (by omega))
  have hTail : ∀ x ∈ (es.drop s).drop m, x = 0 := by
    intro x hx
    rw [List.drop_drop] at hx
    obtain ⟨i, hi, hGet⟩ := List.mem_drop_iff_getElem.mp hx
    exact hOut (s + m + i) x (hGet ▸ List.getElem?_eq_getElem (by omega)) (Or.inr (by omega))
  have hSplit : es = es.take s ++ ((es.drop s).take m ++ (es.drop s).drop m) := by
    rw [List.take_append_drop, List.take_append_drop]
  have hSome : ∃ x ∈ (es.drop s).take m, x ≠ 0 := by
    obtain ⟨x, hx, hx0⟩ := exists_diff hLen hNe
    rw [hDiff, hSplit, List.mem_append, List.mem_append] at hx
    rcases hx with hx | hx | hx
    · exact absurd (hHead x hx) hx0
    · exact ⟨x, hx, hx0⟩
    · exact absurd (hTail x hx) hx0
  have hWindow : k * ((es.drop s).take m).length ≤ t + 1 :=
    Nat.le_trans (Nat.mul_le_mul_left k (List.length_take_le _ _)) hFits
  have hAdd : 0 ^^^ pack ((es.drop s).take m) = (pack ((es.drop s).take m) : BitVec w) :=
    BitVec.zero_xor
  -- The window leaves the register live, and what follows only shifts it.
  have hLive : Live t (absorb poly 0 es) := by
    rw [hSplit, absorb_append, absorb_append, eq_zeros hHead, eq_zeros hTail, absorb_zeros,
      absorb_zeros, shifts_zero, absorb_eq poly 0 (by omega), hAdd]
    exact ((live_pack hWindow hw hSome).shifts hPoly _).shifts hPoly _
  exact hLive.ne_zero hEnd

end Burst

end Briefs.Register
