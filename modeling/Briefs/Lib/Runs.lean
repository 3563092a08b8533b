import Briefs.Lib.Bitmap

/-!
# First fit over a bitmap, word by word

The classical run finder: a scan from the low end keeps the run of set bits that
ends where the scan stands, and stops at the first run of `n` bits. Inside a
word the maximal runs come from counting trailing zeros and trailing ones; a run
that reaches the end of a word is joined to one that starts the next word.

`Progress` is the loop invariant, over any predicate `f` on positions: nothing
of length `n` lies below the position `p`, and the remembered run is the one
that ends at `p`.

## Results

* `Progress.skip`, `Progress.join` — clear positions and runs move the invariant
  forward.
* `walkWord_spec` — one word: a reported run is the first fit, otherwise the
  invariant holds at the end of the word.
-/

namespace Briefs.Lib

--
-- Runs inside one word
--

/-- The number of consecutive set bits of `bits` from bit `b` up. -/
def runLength (bits : BitVec 64) (b : Nat) : Nat :=
  let inv := ~~~ (bits >>> b)
  if inv ≠ 0#64 then lowBit inv else 64 - b

/-- What the scan of one word reports: the start of a run that is long enough,
or the last run seen (start and length). -/
inductive Scan where
  | found (runStart : Nat)
  | more  (runStart runLen : Nat)
deriving DecidableEq, Repr

/-- Walk the maximal runs of set bits of one word whose bit 0 has number `base`;
each turn consumes a run. -/
def walkWord (n base : Nat) : Nat → BitVec 64 → Nat → Nat → Scan
  | 0, _, runStart, runLen => .more runStart runLen
  | turns + 1, bits, runStart, runLen =>
    if bits = 0#64 then .more runStart runLen
    else
      let b := lowBit bits
      let s := base + b
      let cnt := runLength bits b
      let joined := 0 < runLen ∧ s = runStart + runLen
      let runStart := if joined then runStart else s
      let runLen := if joined then runLen + cnt else cnt
      if n ≤ runLen then .found runStart
      else
        let rest := if 64 ≤ cnt then 0#64 else bits &&& ~~~ ((bit cnt - 1#64) <<< b)
        walkWord n base turns rest runStart runLen

theorem getLsbD_false_of_lt_find {w : BitVec 64} {k : Nat}
    (hk : ((List.range 64).find? fun i => w.getLsbD i) = some k) {i : Nat} (hi : i < k) :
    w.getLsbD i = false := by
  obtain ⟨-, j, hj, hEq, hBefore⟩ := List.find?_eq_some_iff_getElem.mp hk
  rw [List.getElem_range] at hEq
  subst hEq
  have hNot := hBefore i hi
  rw [List.getElem_range] at hNot
  simpa using hNot

/-- No bit below the lowest set one is set. -/
theorem getLsbD_of_lt_lowBit {w : BitVec 64} {i : Nat} (hi : i < lowBit w) :
    w.getLsbD i = false := by
  unfold lowBit at hi
  cases hFind : (List.range 64).find? fun i => w.getLsbD i with
  | some k =>
    rw [hFind] at hi
    exact getLsbD_false_of_lt_find hFind hi
  | none =>
    rw [hFind] at hi
    have hNone := List.find?_eq_none.mp hFind i (List.mem_range.mpr hi)
    simpa using hNone

/-- The run from a set bit has at least one bit, stays in the word, consists of
set bits and ends before a clear bit or at the end of the word. -/
theorem runLength_spec {bits : BitVec 64} {b : Nat} (hb : b < 64)
    (hSet : bits.getLsbD b = true) :
    0 < runLength bits b ∧ b + runLength bits b ≤ 64 ∧
      (∀ i, b ≤ i → i < b + runLength bits b → bits.getLsbD i = true) ∧
      (b + runLength bits b < 64 → bits.getLsbD (b + runLength bits b) = false) := by
  have hInv : ∀ i, i < 64 → (~~~ (bits >>> b)).getLsbD i = !bits.getLsbD (b + i) := by
    intro i hi
    rw [BitVec.getLsbD_not, BitVec.getLsbD_ushiftRight]
    simp [hi]
  unfold runLength
  dsimp only
  by_cases hOnes : ~~~ (bits >>> b) = 0#64
  · -- all ones from bit 0: a shift by more would have brought in zeros
    rw [if_neg (fun h => h hOnes)]
    have hAll : ∀ i, i < 64 → bits.getLsbD (b + i) = true := by
      intro i hi
      have hBit := hInv i hi
      rw [hOnes, BitVec.getLsbD_zero] at hBit
      simpa using hBit.symm
    refine ⟨by omega, by omega, ?_, by omega⟩
    intro i hLo hHi
    have hBit := hAll (i - b) (by omega)
    rwa [show b + (i - b) = i by omega] at hBit
  · rw [if_pos hOnes]
    obtain ⟨hLt, hClear⟩ := lowBit_spec hOnes
    have hBelow : ∀ i, i < lowBit (~~~ (bits >>> b)) → bits.getLsbD (b + i) = true := by
      intro i hi
      have hBit := hInv i (by omega)
      rw [getLsbD_of_lt_lowBit hi] at hBit
      simpa using hBit.symm
    have hAt : bits.getLsbD (b + lowBit (~~~ (bits >>> b))) = false := by
      have hBit := hInv _ hLt
      rw [hClear] at hBit
      simpa using hBit.symm
    refine ⟨?_, ?_, ?_, fun _ => hAt⟩
    · rcases Nat.eq_zero_or_pos (lowBit (~~~ (bits >>> b))) with hZero | hPos
      · rw [hZero, Nat.add_zero, hSet] at hAt
        exact absurd hAt (by decide)
      · exact hPos
    · by_contra hOver
      have hBit := hBelow (64 - b) (by omega)
      rw [show b + (64 - b) = 64 by omega] at hBit
      simp at hBit
    · intro i hLo hHi
      have hBit := hBelow (i - b) (by omega)
      rwa [show b + (i - b) = i by omega] at hBit

/-- Consuming the lowest run leaves the bits above it. -/
theorem getLsbD_consume {bits : BitVec 64} {b i : Nat} (hNe : bits ≠ 0#64)
    (hb : b = lowBit bits) (hi : i < 64) :
    (if 64 ≤ runLength bits b then 0#64
      else bits &&& ~~~ ((bit (runLength bits b) - 1#64) <<< b)).getLsbD i =
      (bits.getLsbD i && decide (b + runLength bits b ≤ i)) := by
  obtain ⟨hLt, hSet⟩ := lowBit_spec hNe
  rw [← hb] at hLt hSet
  obtain ⟨-, hFits, -, -⟩ := runLength_spec hLt hSet
  by_cases hFull : 64 ≤ runLength bits b
  · have hOut : ¬ b + runLength bits b ≤ i := by omega
    rw [if_pos hFull]
    simp [hOut]
  · rw [if_neg hFull, BitVec.getLsbD_and, BitVec.getLsbD_not, BitVec.getLsbD_shiftLeft,
      getLsbD_bit_sub_one (by omega)]
    by_cases hLow : i < b
    · -- below the lowest set bit nothing is set
      have hClear : bits.getLsbD i = false := getLsbD_of_lt_lowBit (by omega)
      simp [hClear]
    · have hIff : (i - b < runLength bits b) ↔ ¬ b + runLength bits b ≤ i := by omega
      simp only [hi, decide_true, Bool.true_and, hLow, decide_false, Bool.not_false, hIff,
        decide_not, Bool.not_not]

--
-- The invariant of the scan
--

/-- The positions `s, …, s + n - 1` all satisfy `f`. -/
def IsRun (f : Nat → Bool) (s n : Nat) : Prop := ∀ i, s ≤ i → i < s + n → f i = true

/-- `s` starts the first run of `n` positions. -/
structure FirstFit (f : Nat → Bool) (n s : Nat) : Prop where
  isRun : IsRun f s n
  least : ∀ t, IsRun f t n → s ≤ t

/-- Where the scan stands at position `p` with the last run it saw. -/
structure Progress (f : Nat → Bool) (n p runStart runLen : Nat) : Prop where
  short : runLen < n
  noFit : ∀ t, t + n ≤ p → ¬ IsRun f t n
  seen  : IsRun f runStart runLen
  upTo  : 0 < runLen → runStart + runLen ≤ p
  tail  : ∀ t, t < p → IsRun f t (p - t) → 0 < runLen ∧ runStart + runLen = p ∧ runStart ≤ t

variable {f : Nat → Bool} {n p runStart runLen : Nat}

theorem not_isRun {t m i : Nat} (hLo : t ≤ i) (hHi : i < t + m) (hClear : f i = false) :
    ¬ IsRun f t m := by
  intro hRun
  have hSet := hRun i hLo hHi
  rw [hClear] at hSet
  exact absurd hSet (by decide)

/-- At the start of the scan nothing was seen. -/
theorem Progress.start (hn : 0 < n) (hClear : ∀ i, i < p → f i = false) :
    Progress f n p 0 0 := by
  refine ⟨hn, ?_, ?_, fun h => absurd h (Nat.lt_irrefl 0), ?_⟩
  · intro t ht
    exact not_isRun (Nat.le_refl t) (by omega) (hClear t (by omega))
  · intro i _ hi
    omega
  · intro t ht hRun
    exact absurd hRun (not_isRun (Nat.le_refl t) (by omega) (hClear t ht))

/-- Positions that do not satisfy `f` end the run; the run seen last may be
forgotten there. -/
theorem Progress.skip (h : Progress f n p runStart runLen) {q runLen' : Nat} (hpq : p < q)
    (hClear : ∀ i, p ≤ i → i < q → f i = false) (hLen : runLen' = runLen ∨ runLen' = 0) :
    Progress f n q runStart runLen' := by
  have hShort := h.short
  have hLe : runLen' ≤ runLen := by omega
  refine ⟨by omega, ?_, ?_, ?_, ?_⟩
  · intro t ht
    by_cases hp : t + n ≤ p
    · exact h.noFit t hp
    · exact not_isRun (i := t + n - 1) (by omega) (by omega) (hClear _ (by omega) (by omega))
  · intro i hLo hHi
    exact h.seen i hLo (by omega)
  · intro hPos
    have hUpTo := h.upTo (by omega)
    omega
  · intro t ht hRun
    have hBad : ¬ IsRun f t (q - t) :=
      not_isRun (i := q - 1) (by omega) (by omega) (hClear _ (by omega) (by omega))
    exact absurd hRun hBad

/-- The start of the run after `cnt` more positions from `p`: the old start when
the run before ends at `p`. -/
def joinStart (p runStart runLen : Nat) : Nat :=
  if 0 < runLen ∧ p = runStart + runLen then runStart else p

/-- The length of that run. -/
def joinLen (p runStart runLen cnt : Nat) : Nat :=
  if 0 < runLen ∧ p = runStart + runLen then runLen + cnt else cnt

theorem joinStart_add (p runStart runLen cnt : Nat) :
    joinStart p runStart runLen + joinLen p runStart runLen cnt = p + cnt := by
  unfold joinStart joinLen
  split <;> omega

/-- No run that reaches `p` starts before the joined one. -/
theorem Progress.joinStart_le (h : Progress f n p runStart runLen) {t m : Nat}
    (hReach : p ≤ t + m) (hRun : IsRun f t m) : joinStart p runStart runLen ≤ t := by
  by_cases ht : t < p
  · have hTail : IsRun f t (p - t) := fun i hLo hHi => hRun i hLo (by omega)
    obtain ⟨hPos, hEnd, hLe⟩ := h.tail t ht hTail
    unfold joinStart
    rw [if_pos ⟨hPos, hEnd.symm⟩]
    exact hLe
  · unfold joinStart
    split <;> omega

theorem Progress.isRun_join (h : Progress f n p runStart runLen) {cnt : Nat}
    (hRun : IsRun f p cnt) :
    IsRun f (joinStart p runStart runLen) (joinLen p runStart runLen cnt) := by
  intro i hLo hHi
  unfold joinStart at hLo hHi
  unfold joinLen at hHi
  split at hLo
  · rename_i hJoined
    rw [if_pos hJoined, if_pos hJoined] at hHi
    by_cases hi : i < runStart + runLen
    · exact h.seen i hLo hi
    · exact hRun i (by omega) (by omega)
  · rename_i hJoined
    rw [if_neg hJoined, if_neg hJoined] at hHi
    exact hRun i hLo hHi

/-- A joined run that is long enough is the first fit. -/
theorem Progress.firstFit (h : Progress f n p runStart runLen) {cnt : Nat}
    (hRun : IsRun f p cnt) (hEnough : n ≤ joinLen p runStart runLen cnt) :
    FirstFit f n (joinStart p runStart runLen) := by
  constructor
  · intro i hLo hHi
    exact h.isRun_join hRun i hLo (by omega)
  · intro t ht
    by_cases hBefore : t + n ≤ p
    · exact absurd ht (h.noFit t hBefore)
    · exact h.joinStart_le (by omega) ht

/-- A joined run that is too short becomes the run seen last. -/
theorem Progress.join (h : Progress f n p runStart runLen) {cnt : Nat} (hCnt : 0 < cnt)
    (hRun : IsRun f p cnt) (hShort : joinLen p runStart runLen cnt < n) :
    Progress f n (p + cnt) (joinStart p runStart runLen) (joinLen p runStart runLen cnt) := by
  have hSum := joinStart_add p runStart runLen cnt
  have hPos : 0 < joinLen p runStart runLen cnt := by
    unfold joinLen
    split <;> omega
  refine ⟨hShort, ?_, h.isRun_join hRun, fun _ => by omega, ?_⟩
  · intro t ht hFit
    by_cases hBefore : t + n ≤ p
    · exact h.noFit t hBefore hFit
    · have hLe := h.joinStart_le (by omega) hFit
      omega
  · intro t ht hFit
    exact ⟨hPos, hSum, h.joinStart_le (by omega) hFit⟩

/-- What the scan of a word that ends at `q` reports is right. -/
def Scan.Right (f : Nat → Bool) (n q : Nat) : Scan → Prop
  | .found runStart => FirstFit f n runStart
  | .more runStart runLen => Progress f n q runStart runLen

/-- The first run of a word whose bits are those of `f` from `p` on. -/
structure NextRun (f : Nat → Bool) (base p : Nat) (bits : BitVec 64) : Prop where
  gap   : ∀ i, p ≤ i → i < base + lowBit bits → f i = false
  after : p ≤ base + lowBit bits
  pos   : 0 < runLength bits (lowBit bits)
  fits  : lowBit bits + runLength bits (lowBit bits) ≤ 64
  run   : IsRun f (base + lowBit bits) (runLength bits (lowBit bits))
  rest  : ∀ i, i < 64 → (if 64 ≤ runLength bits (lowBit bits) then 0#64
    else bits &&& ~~~ ((bit (runLength bits (lowBit bits)) - 1#64) <<< lowBit bits)).getLsbD i =
      (f (base + i) && decide (base + lowBit bits + runLength bits (lowBit bits) ≤ base + i))

/-- Where the bits are clear, `f` is false. -/
theorem clear_of_bits {base p q : Nat} {bits : BitVec 64} (hLo : base ≤ p) (hHi : q ≤ base + 64)
    (hBits : ∀ i, i < 64 → bits.getLsbD i = (f (base + i) && decide (p ≤ base + i)))
    (hZero : ∀ i, i < 64 → base + i < q → bits.getLsbD i = false) :
    ∀ i, p ≤ i → i < q → f i = false := by
  intro i hpi hiq
  have hBit := hBits (i - base) (by omega)
  rw [hZero (i - base) (by omega) (by omega), show base + (i - base) = i by omega] at hBit
  simpa [hpi] using hBit.symm

theorem nextRun {base p : Nat} {bits : BitVec 64} (hLo : base ≤ p) (hNe : bits ≠ 0#64)
    (hBits : ∀ i, i < 64 → bits.getLsbD i = (f (base + i) && decide (p ≤ base + i))) :
    NextRun f base p bits := by
  obtain ⟨hLow, hSet⟩ := lowBit_spec hNe
  obtain ⟨hCnt, hFits, hOnes, -⟩ := runLength_spec hLow hSet
  have hAt := hBits _ hLow
  rw [hSet] at hAt
  have hpLow : p ≤ base + lowBit bits := by
    by_contra hNot
    simp [hNot] at hAt
  refine ⟨clear_of_bits hLo (by omega) hBits fun i _ hi => getLsbD_of_lt_lowBit (by omega), hpLow,
    hCnt, hFits, ?_, ?_⟩
  · intro i hLo hHi
    have hBit := hBits (i - base) (by omega)
    rw [hOnes (i - base) (by omega) (by omega), show base + (i - base) = i by omega] at hBit
    simp only [Bool.true_eq, Bool.and_eq_true] at hBit
    exact hBit.1
  · intro i hi
    rw [getLsbD_consume hNe rfl hi, hBits i hi]
    by_cases hPast : lowBit bits + runLength bits (lowBit bits) ≤ i
    · have hLe : base + lowBit bits + runLength bits (lowBit bits) ≤ base + i := by omega
      have hLe' : p ≤ base + i := by omega
      simp [hPast, hLe, hLe']
    · have hGt : ¬ base + lowBit bits + runLength bits (lowBit bits) ≤ base + i := by omega
      simp [hPast, hGt]

/-- The scan of one word, from position `p` in it. Each turn consumes at least one
bit, so there are turns enough. -/
theorem walkWord_spec (base : Nat) : ∀ (turns : Nat) (bits : BitVec 64) (p runStart runLen : Nat),
    base ≤ p → p ≤ base + 64 → base + 64 ≤ p + turns →
    (∀ i, i < 64 → bits.getLsbD i = (f (base + i) && decide (p ≤ base + i))) →
    Progress f n p runStart runLen →
    (walkWord n base turns bits runStart runLen).Right f n (base + 64)
  | 0, bits, p, runStart, runLen, hLo, hHi, hTurns, _, h => by
    have hEnd : p = base + 64 := by omega
    subst hEnd
    exact h
  | turns + 1, bits, p, runStart, runLen, hLo, hHi, hTurns, hBits, h => by
    unfold walkWord
    have hSkip : ∀ q, p ≤ q → (∀ i, p ≤ i → i < q → f i = false) →
        Progress f n q runStart runLen := by
      intro q hpq hGap
      rcases Nat.eq_or_lt_of_le hpq with hEq | hLt
      · rwa [← hEq]
      · exact h.skip hLt hGap (Or.inl rfl)
    by_cases hZero : bits = 0#64
    · rw [if_pos hZero]
      refine hSkip (base + 64) hHi (clear_of_bits hLo (Nat.le_refl _) hBits ?_)
      intro i _ _
      rw [hZero, BitVec.getLsbD_zero]
    · rw [if_neg hZero]
      have hNext := nextRun hLo hZero hBits
      have hCnt := hNext.pos
      have hFits := hNext.fits
      have hFrom := hNext.after
      have hHere := hSkip _ hFrom hNext.gap
      show Scan.Right f n (base + 64)
        (if n ≤ joinLen (base + lowBit bits) runStart runLen (runLength bits (lowBit bits)) then
          .found (joinStart (base + lowBit bits) runStart runLen)
        else walkWord n base turns _ _ _)
      by_cases hEnough :
          n ≤ joinLen (base + lowBit bits) runStart runLen (runLength bits (lowBit bits))
      · rw [if_pos hEnough]
        exact hHere.firstFit hNext.run hEnough
      · rw [if_neg hEnough]
        exact walkWord_spec base turns _ (base + lowBit bits + runLength bits (lowBit bits)) _ _
          (by omega) (by omega) (by omega) hNext.rest (hHere.join hCnt hNext.run (by omega))

end Briefs.Lib
