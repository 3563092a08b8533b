import Briefs.Alloc.Blocks
import Briefs.Lib.Sweep
import Briefs.Replay.World

/-!
# BrieFS — FITRIM

`briefs_trim_fs` walks the leaf bitmap word by word, assembles the maximal runs of
free blocks across word borders and discards the part of each run that lies in the
requested range, when that part is long enough. A run is flushed when the next one
starts, at a word without a free block, and after the last word.

The block device is a function `issue` that answers each discard with a return code
and may look at the discards before it.

## Results

* `trimFlush_cuts` — one flush: the slice of the open run, and the byte count.
* `trimWords_cuts` — the walk hands every maximal run to a flush.
* `trimFs_discards` — a call that returns 0 has discarded exactly the slices of the
  maximal free runs, each once, and reports their bytes.
-/

namespace Briefs

open Briefs.Lib

namespace Alloc

--
-- The handler
--

/-- `struct fstrim_range`, in bytes. -/
structure FstrimRange where
  start  : Nat
  len    : Nat
  minlen : Nat
deriving DecidableEq, Repr

/-- `s_blocksize`. -/
def trimBlock : Nat := 4096

/-- What the walk asks a flush for: the range in blocks and the least length. -/
structure TrimRequest where
  start  : Nat
  stop   : Nat
  minlen : Nat
deriving DecidableEq, Repr

/-- The walk's variables: the open run, `trimmed`, and the discards the device has
done, each with its absolute block and its length. -/
structure TrimRun where
  runStart : Nat := 0
  runLen   : Nat := 0
  trimmed  : Nat := 0
  discards : List (Nat × Nat) := []
deriving DecidableEq, Repr

/-- `sb_issue_discard`: the return code for a discard after those in the list. -/
abbrev Device := List (Nat × Nat) → Nat → Nat → Int

/-- `briefs_trim_flush` on the open run. -/
def trimFlush (issue : Device) (dataStart : Nat) (req : TrimRequest) (t : TrimRun) :
    Int × TrimRun :=
  if t.runLen < req.minlen then (0, t)
  else
    let ds := max t.runStart req.start
    let de := min (t.runStart + t.runLen) req.stop
    if de ≤ ds then (0, t)
    else
      let len := de - ds
      if len < req.minlen then (0, t)
      else
        let ret := issue t.discards (Replay.dataToAbs dataStart ds) len
        if ret ≠ 0 then (ret, t)
        else (0, { t with trimmed := (t.trimmed + len * trimBlock) % 2 ^ 64,
                          discards := t.discards ++ [(Replay.dataToAbs dataStart ds, len)] })

/-- The runs of one word whose bit 0 is block `base`; each turn consumes a run. -/
def trimWord (flush : TrimRun → Int × TrimRun) (base : Nat) :
    Nat → BitVec 64 → TrimRun → Int × TrimRun
  | 0, _, t => (0, t)
  | turns + 1, bits, t =>
    if bits = 0#64 then (0, t)
    else
      let b := lowBit bits
      let s := base + b
      let cnt := runLength bits b
      let rest := if 64 ≤ cnt then 0#64 else bits &&& ~~~ ((bit cnt - 1#64) <<< b)
      if 0 < t.runLen ∧ s = t.runStart + t.runLen then
        trimWord flush base turns rest { t with runLen := t.runLen + cnt }
      else
        let r := flush t
        if r.1 ≠ 0 then r
        else trimWord flush base turns rest { r.2 with runStart := s, runLen := cnt }

/-- The word loop with `left` words to go, and the flush after it. -/
def trimWords (a : Alloc) (flush : TrimRun → Int × TrimRun) :
    Nat → Nat → TrimRun → Int × TrimRun
  | 0, _, t => flush t
  | left + 1, w2, t =>
    if a.scanWord w2 = 0#64 then
      let r := flush t
      if r.1 ≠ 0 then r else a.trimWords flush left (w2 + 1) { r.2 with runLen := 0 }
    else
      let r := trimWord flush (w2 * 64) 64 (a.scanWord w2) t
      if r.1 ≠ 0 then r else a.trimWords flush left (w2 + 1) r.2

/-- What a call leaves: its return code, the range it writes back and the discards. -/
structure TrimResult where
  ret      : Int
  range    : FstrimRange
  discards : List (Nat × Nat)
deriving DecidableEq, Repr

/-- `briefs_trim_fs`. -/
def trimFs (issue : Device) (dataStart : Nat) (a : Alloc) (range : FstrimRange) : TrimResult :=
  let start := range.start / trimBlock
  let stop := (start + range.len / trimBlock) % 2 ^ 64
  let minlen := range.minlen / trimBlock
  if range.len < trimBlock ∨ a.blockCount ≤ start ∨ a.blockCount < minlen then
    ⟨-22, range, []⟩
  else
    let stop := if a.blockCount < stop then a.blockCount else stop
    let minlen := if minlen = 0 then 1 else minlen
    if stop ≤ start then ⟨0, { range with len := 0 }, []⟩
    else
      let r := a.trimWords (trimFlush issue dataStart ⟨start, stop, minlen⟩) a.l2Words 0 {}
      ⟨r.1, { range with len := r.2.trimmed }, r.2.discards⟩

--
-- One flush
--

/-- The part of a run that a request asks for, when it is long enough. -/
def slice (req : TrimRequest) (r : Nat × Nat) : Option (Nat × Nat) :=
  let ds := max r.1 req.start
  let de := min (r.1 + r.2) req.stop
  if ds < de ∧ req.minlen ≤ de - ds then some (ds, de - ds) else none

/-- The slices of a list of runs. -/
def cuts (req : TrimRequest) (runs : List (Nat × Nat)) : List (Nat × Nat) :=
  runs.filterMap (slice req)

/-- The blocks of a list of cuts. -/
def total (cs : List (Nat × Nat)) : Nat := (cs.map Prod.snd).sum

/-- The device has done the slices of the runs handed out, and `trimmed` counts them. -/
structure Cut (dataStart : Nat) (req : TrimRequest) (done : List (Nat × Nat)) (t : TrimRun) :
    Prop where
  discards : t.discards = (cuts req done).map fun c => (Replay.dataToAbs dataStart c.1, c.2)
  trimmed  : t.trimmed = total (cuts req done) * trimBlock % 2 ^ 64

variable {issue : Device} {dataStart : Nat} {req : TrimRequest} {done : List (Nat × Nat)}
  {t : TrimRun}

theorem slice_empty (s : Nat) : slice req (s, 0) = none := by
  unfold slice
  refine if_neg ?_
  simp only [Nat.add_zero]
  omega

/-- Handing out a run adds its slice; the empty run has none. -/
theorem cuts_closeRun (done : List (Nat × Nat)) (s n : Nat) :
    cuts req (closeRun done s n) = cuts req done ++ (slice req (s, n)).toList := by
  unfold closeRun cuts
  by_cases hn : n = 0
  · rw [if_pos hn, hn, slice_empty]
    simp
  · rw [if_neg hn, List.filterMap_append]
    cases hSlice : slice req (s, n) with
    | none => simp [hSlice]
    | some c => simp [hSlice]

/-- A flush that returns 0 hands the open run out. -/
theorem trimFlush_cuts (h : Cut dataStart req done t)
    (hRet : (trimFlush issue dataStart req t).1 = 0) :
    (trimFlush issue dataStart req t).2.runStart = t.runStart ∧
    (trimFlush issue dataStart req t).2.runLen = t.runLen ∧
    Cut dataStart req (closeRun done t.runStart t.runLen)
      (trimFlush issue dataStart req t).2 := by
  have hNone : slice req (t.runStart, t.runLen) = none →
      Cut dataStart req (closeRun done t.runStart t.runLen) t := by
    intro hSlice
    constructor
    · rw [cuts_closeRun, hSlice, h.discards]
      simp
    · rw [cuts_closeRun, hSlice, h.trimmed]
      simp
  unfold trimFlush at hRet ⊢
  by_cases hShort : t.runLen < req.minlen
  · rw [if_pos hShort]
    refine ⟨rfl, rfl, hNone (if_neg ?_)⟩
    simp only
    omega
  · rw [if_neg hShort] at hRet ⊢
    by_cases hOut : min (t.runStart + t.runLen) req.stop ≤ max t.runStart req.start
    · rw [if_pos hOut]
      refine ⟨rfl, rfl, hNone (if_neg ?_)⟩
      simp only
      omega
    · rw [if_neg hOut] at hRet ⊢
      by_cases hCut : min (t.runStart + t.runLen) req.stop - max t.runStart req.start < req.minlen
      · rw [if_pos hCut]
        refine ⟨rfl, rfl, hNone (if_neg ?_)⟩
        simp only
        omega
      · rw [if_neg hCut] at hRet ⊢
        by_cases hFail : issue t.discards (Replay.dataToAbs dataStart (max t.runStart req.start))
            (min (t.runStart + t.runLen) req.stop - max t.runStart req.start) ≠ 0
        · rw [if_pos hFail] at hRet
          exact absurd hRet hFail
        · rw [if_neg hFail]
          have hSlice : slice req (t.runStart, t.runLen) = some (max t.runStart req.start,
              min (t.runStart + t.runLen) req.stop - max t.runStart req.start) := by
            refine if_pos ?_
            simp only
            omega
          refine ⟨rfl, rfl, ?_, ?_⟩
          · rw [cuts_closeRun, hSlice, List.map_append, ← h.discards]
            simp
          · rw [cuts_closeRun, hSlice]
            have hTotal : total (cuts req done ++ (some (max t.runStart req.start,
                min (t.runStart + t.runLen) req.stop - max t.runStart req.start)).toList) =
                total (cuts req done) +
                  (min (t.runStart + t.runLen) req.stop - max t.runStart req.start) := by
              unfold total
              simp
            show (t.trimmed + (min (t.runStart + t.runLen) req.stop -
              max t.runStart req.start) * trimBlock) % 2 ^ 64 = _
            rw [hTotal, Nat.add_mul, h.trimmed, Nat.mod_add_mod]

/-- The open run may change its place. -/
theorem Cut.reopen (h : Cut dataStart req done t) (s n : Nat) :
    Cut dataStart req done { t with runStart := s, runLen := n } := ⟨h.discards, h.trimmed⟩

--
-- The walk
--

/-- The walk at block `p`: the runs handed out are swept and cut. -/
structure Walked (f : Nat → Bool) (dataStart : Nat) (req : TrimRequest) (p : Nat)
    (done : List (Nat × Nat)) (t : TrimRun) : Prop where
  swept : Swept f p done t.runStart t.runLen
  cut   : Cut dataStart req done t

variable {f : Nat → Bool} {p : Nat}

/-- The runs of one word, from block `p` in it. -/
theorem trimWord_walked (base : Nat) : ∀ (turns : Nat) (bits : BitVec 64) (p : Nat)
    (done : List (Nat × Nat)) (t : TrimRun),
    base ≤ p → p ≤ base + 64 → base + 64 ≤ p + turns →
    (∀ i, i < 64 → bits.getLsbD i = (f (base + i) && decide (p ≤ base + i))) →
    Walked f dataStart req p done t →
    (trimWord (trimFlush issue dataStart req) base turns bits t).1 = 0 →
    ∃ done', Walked f dataStart req (base + 64) done'
      (trimWord (trimFlush issue dataStart req) base turns bits t).2
  | 0, bits, p, done, t, hLo, hHi, hTurns, _, h, _ => by
    have hEnd : p = base + 64 := by omega
    subst hEnd
    exact ⟨done, h⟩
  | turns + 1, bits, p, done, t, hLo, hHi, hTurns, hBits, h, hRet => by
    unfold trimWord at hRet ⊢
    have hSkip : ∀ q, p ≤ q → (∀ i, p ≤ i → i < q → f i = false) →
        Walked f dataStart req q done t := fun q hpq hGap => ⟨h.swept.skip hpq hGap, h.cut⟩
    by_cases hZero : bits = 0#64
    · rw [if_pos hZero]
      refine ⟨done, hSkip (base + 64) hHi (clear_of_bits hLo (Nat.le_refl _) hBits ?_)⟩
      intro i _ _
      rw [hZero, BitVec.getLsbD_zero]
    · rw [if_neg hZero] at hRet ⊢
      have hNext := nextRun hLo hZero hBits
      have hCnt := hNext.pos
      have hFits := hNext.fits
      have hFrom := hNext.after
      have hHere := hSkip _ hFrom hNext.gap
      by_cases hJoin : 0 < t.runLen ∧ base + lowBit bits = t.runStart + t.runLen
      · rw [if_pos hJoin] at hRet ⊢
        exact trimWord_walked base turns _ (base + lowBit bits + runLength bits (lowBit bits))
          done _ (by omega) (by omega) (by omega) hNext.rest
          ⟨hHere.swept.extend hJoin.1 hJoin.2 hNext.run, hHere.cut.reopen _ _⟩ hRet
      · rw [if_neg hJoin] at hRet ⊢
        by_cases hFlush : (trimFlush issue dataStart req t).1 = 0
        · rw [if_neg (fun hNe => hNe hFlush)] at hRet ⊢
          obtain ⟨-, -, hCut⟩ := trimFlush_cuts hHere.cut hFlush
          exact trimWord_walked base turns _
            (base + lowBit bits + runLength bits (lowBit bits)) _ _ (by omega) (by omega)
            (by omega) hNext.rest ⟨hHere.swept.join hCnt hJoin hNext.run, hCut.reopen _ _⟩ hRet
        · rw [if_pos hFlush] at hRet
          exact absurd hRet hFlush

/-- The free blocks as the walk sees them, with the last word masked. -/
def scanFree (a : Alloc) (n : Nat) : Bool := (a.scanWord (n / 64)).getLsbD (n % 64)

theorem getLsbD_scanWord (a : Alloc) (w2 : Nat) {i : Nat} (hi : i < 64) :
    (a.scanWord w2).getLsbD i = a.scanFree (w2 * 64 + i) := by
  unfold scanFree
  rw [show (w2 * 64 + i) / 64 = w2 by omega, show (w2 * 64 + i) % 64 = i by omega]

/-- The word loop and the last flush. -/
theorem trimWords_cuts (a : Alloc) : ∀ (left w2 : Nat) (done : List (Nat × Nat)) (t : TrimRun),
    Walked a.scanFree dataStart req (w2 * 64) done t →
    (a.trimWords (trimFlush issue dataStart req) left w2 t).1 = 0 →
    ∃ done' s n, Swept a.scanFree ((w2 + left) * 64) done' s n ∧
      Cut dataStart req (closeRun done' s n)
        (a.trimWords (trimFlush issue dataStart req) left w2 t).2
  | 0, w2, done, t, h, hRet => by
    unfold trimWords at hRet ⊢
    exact ⟨done, t.runStart, t.runLen, h.swept, (trimFlush_cuts h.cut hRet).2.2⟩
  | left + 1, w2, done, t, h, hRet => by
    unfold trimWords at hRet ⊢
    rw [show (w2 + (left + 1)) * 64 = (w2 + 1 + left) * 64 by omega]
    by_cases hZero : a.scanWord w2 = 0#64
    · rw [if_pos hZero] at hRet ⊢
      have hClear : ∀ i, w2 * 64 ≤ i → i < (w2 + 1) * 64 → a.scanFree i = false := by
        intro i hLo hHi
        rw [show i = w2 * 64 + (i - w2 * 64) by omega,
          ← a.getLsbD_scanWord w2 (show i - w2 * 64 < 64 by omega), hZero,
          BitVec.getLsbD_zero]
      have hSkip := h.swept.skip (show w2 * 64 ≤ (w2 + 1) * 64 by omega) hClear
      by_cases hFlush : (trimFlush issue dataStart req t).1 = 0
      · rw [if_neg (fun hNe => hNe hFlush)] at hRet ⊢
        obtain ⟨hStart, -, hCut⟩ := trimFlush_cuts h.cut hFlush
        refine trimWords_cuts a left (w2 + 1) (closeRun done t.runStart t.runLen) _ ⟨?_, ?_⟩ hRet
        · rw [hStart]
          refine hSkip.close ?_
          intro hPos
          have hLe := (h.swept.opened hPos).2
          exact hSkip.ended hPos (by omega)
        · exact hCut.reopen _ _
      · rw [if_pos hFlush] at hRet
        exact absurd hRet hFlush
    · rw [if_neg hZero] at hRet ⊢
      by_cases hWord : (trimWord (trimFlush issue dataStart req) (w2 * 64) 64 (a.scanWord w2) t).1 = 0
      · rw [if_neg (fun hNe => hNe hWord)] at hRet ⊢
        obtain ⟨done', hWalked⟩ := trimWord_walked (w2 * 64) 64 (a.scanWord w2) (w2 * 64) done t
          (Nat.le_refl _) (by omega) (by omega) (fun i hi => by
            rw [a.getLsbD_scanWord w2 hi]
            simp) h hWord
        rw [show w2 * 64 + 64 = (w2 + 1) * 64 by omega] at hWalked
        exact trimWords_cuts a left (w2 + 1) done' _ hWalked hRet
      · rw [if_pos hWord] at hRet
        exact absurd hRet hWord

--
-- The whole call
--

/-- On the blocks of the device the mask of the last word does nothing. -/
theorem isFree_eq_scanFree (a : Alloc) {n : Nat} (hn : n < a.blockCount) :
    a.isFree n = a.scanFree n := by
  have hSize := a.hL2
  unfold scanFree scanWord isFree Words.test
  split
  · rename_i hLast
    have hMod : a.blockCount % 64 < 64 := Nat.mod_lt _ (by decide)
    have hLt : n % 64 < a.blockCount % 64 := by omega
    rw [BitVec.getLsbD_and, getLsbD_bit_sub_one hMod]
    simp [hLt]
  · rfl

theorem slice_eq_some {r c : Nat × Nat} (h : slice req r = some c) :
    c.1 = max r.1 req.start ∧ c.1 + c.2 = min (r.1 + r.2) req.stop ∧ 0 < c.2 ∧
      req.minlen ≤ c.2 := by
  unfold slice at h
  simp only at h
  split at h
  · cases h
    refine ⟨rfl, ?_, ?_, ?_⟩ <;> simp only <;> omega
  · cases h

/-- Slices of runs that are apart and in order are so too. -/
theorem sorted_cuts {runs : List (Nat × Nat)} (h : runs.Pairwise fun r r' => r.1 + r.2 ≤ r'.1) :
    (cuts req runs).Pairwise fun c c' => c.1 + c.2 ≤ c'.1 := by
  refine List.pairwise_filterMap.mpr (h.imp ?_)
  intro r r' hApart c hc c' hc'
  have hFirst := slice_eq_some hc
  have hSecond := slice_eq_some hc'
  omega

theorem mem_cuts {runs : List (Nat × Nat)} {c : Nat × Nat} (hc : c ∈ cuts req runs) :
    req.start ≤ c.1 ∧ c.1 + c.2 ≤ req.stop := by
  obtain ⟨r, -, hSlice⟩ := List.mem_filterMap.mp hc
  have hEnds := slice_eq_some hSlice
  omega

/-- Pieces of a range that are apart have no more blocks than the range. -/
theorem total_le : ∀ (cs : List (Nat × Nat)) (lo hi : Nat),
    cs.Pairwise (fun c c' => c.1 + c.2 ≤ c'.1) → (∀ c ∈ cs, lo ≤ c.1 ∧ c.1 + c.2 ≤ hi) →
    total cs ≤ hi - lo
  | [], lo, hi, _, _ => Nat.zero_le _
  | c :: cs, lo, hi, hSorted, hIn => by
    obtain ⟨hHead, hTail⟩ := List.pairwise_cons.mp hSorted
    have hc := hIn c List.mem_cons_self
    have hRest := total_le cs (c.1 + c.2) hi hTail
      (fun c' hc' => ⟨hHead c' hc', (hIn c' (List.mem_cons_of_mem _ hc')).2⟩)
    have hSum : total (c :: cs) = c.2 + total cs := by
      unfold total
      simp
    omega

/-- The first block of a range, and the first block after it. -/
def FstrimRange.first (range : FstrimRange) : Nat := range.start / trimBlock

def FstrimRange.last (range : FstrimRange) : Nat := range.first + range.len / trimBlock

/-- `block` is in the part of a maximal free run that a range asks for, and that part
has at least `max(1, minlen)` blocks. -/
def Wanted (a : Alloc) (range : FstrimRange) (block : Nat) : Prop :=
  ∃ s e, MaxRun a.isFree a.blockCount s e ∧ s ≤ block ∧ block < e ∧
    range.first ≤ block ∧ block < range.last ∧
    max 1 (range.minlen / trimBlock) ≤ min e range.last - max s range.first

/-- The request that `briefs_trim_fs` walks for. -/
def requestOf (a : Alloc) (range : FstrimRange) : TrimRequest where
  start  := range.first
  stop   := min range.last a.blockCount
  minlen := max 1 (range.minlen / trimBlock)

/-- The slices of the runs of a finished sweep are the wanted blocks. -/
theorem wanted_iff_cuts {a : Alloc} {range : FstrimRange} {s n : Nat}
    (h : Swept a.scanFree (a.l2Words * 64) done s n) (block : Nat) :
    a.Wanted range block ↔
      ∃ c ∈ cuts (a.requestOf range) (closeRun done s n), c.1 ≤ block ∧ block < c.1 + c.2 := by
  have hAgree : ∀ i, i < a.blockCount → a.isFree i = a.scanFree i :=
    fun i hi => a.isFree_eq_scanFree hi
  constructor
  · rintro ⟨s', e', hRun, hLo, hHi, hFirst, hLast, hLong⟩
    have hInside := hRun.inside
    have hDev : block < a.blockCount := by omega
    have hSet : a.scanFree block = true := by
      rw [← hAgree block hDev]
      exact hRun.set block hLo hHi
    have hSize := a.hL2
    obtain ⟨r, hr, hrLo, hrHi⟩ := h.mem_closeRun (by omega) hSet
    -- the run of the sweep, cut at the end of the device, is the run of the block
    have hCut := (h.mem_maxRun hr).shorten a.hL2 (show r.1 < a.blockCount by omega) hAgree
    obtain ⟨hStart, hEnd⟩ := hRun.unique hCut hLo hHi hrLo (by omega)
    have hSlice : slice (a.requestOf range) r = some (max r.1 range.first,
        min (r.1 + r.2) (min range.last a.blockCount) - max r.1 range.first) := by
      refine if_pos ?_
      simp only [requestOf]
      omega
    refine ⟨_, List.mem_filterMap.mpr ⟨r, hr, hSlice⟩, ?_, ?_⟩ <;> simp only <;> omega
  · rintro ⟨c, hc, hLo, hHi⟩
    obtain ⟨r, hr, hSlice⟩ := List.mem_filterMap.mp hc
    have hEnds := slice_eq_some hSlice
    simp only [requestOf] at hEnds
    have hCut := (h.mem_maxRun hr).shorten a.hL2 (show r.1 < a.blockCount by omega) hAgree
    refine ⟨r.1, _, hCut, ?_, ?_, ?_, ?_, ?_⟩ <;> omega

/-- When the byte range does not overflow and `briefs_trim_fs` returns 0, the walk ran
for the request. -/
theorem trimFs_walk {a : Alloc} {range : FstrimRange} (hFit : range.start + range.len < 2 ^ 64)
    (hRet : (trimFs issue dataStart a range).ret = 0) :
    (a.trimWords (trimFlush issue dataStart (a.requestOf range)) a.l2Words 0 {}).1 = 0 ∧
    (trimFs issue dataStart a range).range.len =
      (a.trimWords (trimFlush issue dataStart (a.requestOf range)) a.l2Words 0 {}).2.trimmed ∧
    (trimFs issue dataStart a range).discards =
      (a.trimWords (trimFlush issue dataStart (a.requestOf range)) a.l2Words 0 {}).2.discards := by
  have hStop : (range.start / trimBlock + range.len / trimBlock) % 2 ^ 64 =
      range.start / trimBlock + range.len / trimBlock := by
    refine Nat.mod_eq_of_lt ?_
    unfold trimBlock
    omega
  have hReq : a.requestOf range = ⟨range.start / trimBlock,
      if a.blockCount < range.start / trimBlock + range.len / trimBlock then a.blockCount
        else range.start / trimBlock + range.len / trimBlock,
      if range.minlen / trimBlock = 0 then 1 else range.minlen / trimBlock⟩ := by
    unfold requestOf FstrimRange.last FstrimRange.first
    generalize range.minlen / trimBlock = m
    congr 1
    · split <;> omega
    · split <;> omega
  rw [hReq]
  unfold trimFs at hRet ⊢
  simp only [hStop] at hRet ⊢
  by_cases hInval : range.len < trimBlock ∨ a.blockCount ≤ range.start / trimBlock ∨
      a.blockCount < range.minlen / trimBlock
  · rw [if_pos hInval] at hRet
    exact absurd hRet (by simp)
  · rw [if_neg hInval] at hRet ⊢
    have hOne : 0 < range.len / trimBlock := Nat.div_pos (by omega) (by decide)
    have hSome : ¬ (if a.blockCount < range.start / trimBlock + range.len / trimBlock then
        a.blockCount else range.start / trimBlock + range.len / trimBlock) ≤
          range.start / trimBlock := by
      split <;> omega
    rw [if_neg hSome] at hRet ⊢
    exact ⟨hRet, rfl, rfl⟩

/-- `briefs_trim_fs` returning 0: the discards are pieces of the device, apart from each
other, whose blocks are exactly the wanted ones (so no block in use is among them), and
the length it writes back is their number of bytes. -/
theorem trimFs_discards {a : Alloc} {range : FstrimRange}
    (hFit : range.start + range.len < 2 ^ 64)
    (hRet : (trimFs issue dataStart a range).ret = 0) :
    ∃ cs : List (Nat × Nat),
      (trimFs issue dataStart a range).discards =
        cs.map (fun c => (Replay.dataToAbs dataStart c.1, c.2)) ∧
      (∀ block, a.Wanted range block ↔ ∃ c ∈ cs, c.1 ≤ block ∧ block < c.1 + c.2) ∧
      (∀ c ∈ cs, ∀ block, c.1 ≤ block → block < c.1 + c.2 →
        block < a.blockCount ∧ a.isFree block = true) ∧
      cs.Pairwise (fun c c' => c.1 + c.2 ≤ c'.1) ∧
      (trimFs issue dataStart a range).range.len = total cs * trimBlock := by
  obtain ⟨hWalk, hLen, hDiscards⟩ := trimFs_walk hFit hRet
  obtain ⟨done, s, n, hSwept, hCut⟩ := trimWords_cuts a a.l2Words 0 [] {}
    ⟨by simpa using Swept.start, rfl, by simp [cuts, total]⟩ hWalk
  rw [Nat.zero_add] at hSwept
  have hWanted : ∀ block, a.Wanted range block ↔
      ∃ c ∈ cuts (a.requestOf range) (closeRun done s n), c.1 ≤ block ∧ block < c.1 + c.2 :=
    fun block => wanted_iff_cuts hSwept block
  have hSorted : (cuts (a.requestOf range) (closeRun done s n)).Pairwise
      fun c c' => c.1 + c.2 ≤ c'.1 := sorted_cuts hSwept.sorted_closeRun
  refine ⟨cuts (a.requestOf range) (closeRun done s n), ?_, hWanted, ?_, hSorted, ?_⟩
  · rw [hDiscards]
    exact hCut.discards
  · intro c hc block hLo hHi
    obtain ⟨s', e', hRun, hLo', hHi', -⟩ := (hWanted block).mpr ⟨c, hc, hLo, hHi⟩
    have hInside := hRun.inside
    exact ⟨by omega, hRun.set block hLo' hHi'⟩
  · rw [hLen, hCut.trimmed]
    -- the pieces lie in the range, so their bytes do not overflow either
    have hTotal := total_le _ range.first range.last hSorted (fun c hc => by
      have hIn := mem_cuts hc
      simp only [requestOf] at hIn
      omega)
    refine Nat.mod_eq_of_lt ?_
    have hSpan : range.last - range.first = range.len / trimBlock :=
      Nat.add_sub_cancel_left range.first (range.len / trimBlock)
    rw [hSpan] at hTotal
    have hBytes := Nat.mul_le_mul_right trimBlock hTotal
    have hFloor := Nat.div_mul_le_self range.len trimBlock
    omega

/-- A device of 70 blocks with the free runs `[0, 2)` and `[62, 67)`, and free bits past
its end. -/
def trimSample : Alloc where
  l0 := fun _ => 0#64
  l1 := fun _ => 0#64
  l2 := fun w => if w = 0 then 0xC000000000000003#64
    else if w = 1 then 0xFFFFFFFFFFFFFFC7#64 else 0#64
  l0Words := 1
  l1Words := 1
  l2Words := 2
  blockCount := 70
  freeCount := 8#64
  metaShield := 0#64
  roverW0 := 0
  roverW2High := 0
  firstFreeW2 := 0
  l2Dirty := fun _ => false
  hL2 := by decide
  hL1 := by decide
  hL0 := by decide

/-- A request for `[1, 70)` with at least two blocks leaves out the one block of the first
run and discards the second, which crosses a word border. -/
theorem trimFs_discards_sample :
    (trimFs (fun _ _ _ => 0) 100 trimSample ⟨4096, 282624, 8192⟩).discards = [(162, 5)] ∧
    ∃ cs : List (Nat × Nat),
      (trimFs (fun _ _ _ => 0) 100 trimSample ⟨4096, 282624, 8192⟩).discards =
        cs.map (fun c => (Replay.dataToAbs 100 c.1, c.2)) ∧
      (∀ block, trimSample.Wanted ⟨4096, 282624, 8192⟩ block ↔
        ∃ c ∈ cs, c.1 ≤ block ∧ block < c.1 + c.2) ∧
      (∀ c ∈ cs, ∀ block, c.1 ≤ block → block < c.1 + c.2 →
        block < trimSample.blockCount ∧ trimSample.isFree block = true) ∧
      cs.Pairwise (fun c c' => c.1 + c.2 ≤ c'.1) ∧
      (trimFs (fun _ _ _ => 0) 100 trimSample ⟨4096, 282624, 8192⟩).range.len =
        total cs * trimBlock :=
  ⟨by decide +kernel, trimFs_discards (by decide) (by decide +kernel)⟩

end Alloc

end Briefs
