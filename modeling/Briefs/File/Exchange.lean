import Briefs.File.Emit

/-!
# BrieFS — exchanging ranges of two files

`briefs_exch_engine_diff` (`file.c`) exchanges blocks `[o1, o1 + len)` of one inode with
blocks `[o2, o2 + len)` of another, or everything from `o1` and `o2` on, or only what is
written in the first. Both new extent lists are put together from pieces of the old ones
and the indexes are rebuilt.

The end of an exchange up to the end of the files is `U64_MAX`. Moving it from one file to
the other wraps around if `o1 < o2`: the piece of the second file that should go to the
first one is then empty, while the second file gives it up.

## Results

* `cells_newLists` — the cells of the new lists.
* `exchange_conserves_iff` — the blocks are exchanged unless the end wraps around and the
  second file has blocks past `o2`.
-/

namespace Briefs.File

open Briefs.Journal
open Briefs.Btree

--
-- The code
--

/-- The arguments of `briefs_exch_engine_diff`; `written` is `FILE1_WRITTEN`. -/
structure Exch where
  o1      : Nat
  o2      : Nat
  len     : Nat
  toEof   : Bool
  written : Bool
deriving DecidableEq, Repr

/-- `(s64)a - (s64)b` as a word. -/
def diffWord (a b : Nat) : Nat := (a + 2 ^ 64 - b) % 2 ^ 64

/-- `cend1` and `cend2`. -/
def Exch.cend (r : Exch) (o : Nat) : Nat :=
  if r.toEof then 2 ^ 64 - 1 else (o + r.len) % 2 ^ 64

/-- The mask of a written extent of the first file; `d` moves it. -/
def Exch.maskPiece (r : Exch) (d : Nat) (e : Extent) : Option Extent :=
  let s := max e.offset r.o1
  let en := min e.stop (r.cend r.o1)
  if e.unwritten = true ∨ en ≤ s then none else some ⟨(s + d) % 2 ^ 64, 0, en - s, 0⟩

/-- The exchange mask in blocks of the first file. -/
def Exch.mask (r : Exch) (old1 : List Extent) : List Extent :=
  if r.written then old1.filterMap (r.maskPiece 0)
  else [⟨r.o1, 0, diffWord (r.cend r.o1) r.o1, 0⟩]

/-- The same in blocks of the second file. -/
def Exch.mask2 (r : Exch) (old1 : List Extent) : List Extent :=
  if r.written then old1.filterMap (r.maskPiece (diffWord r.o2 r.o1))
  else [⟨r.o2, 0, diffWord (r.cend r.o2) r.o2, 0⟩]

/-- The new list of the first file. -/
def Exch.new1 (r : Exch) (old1 old2 : List Extent) : List Extent :=
  emitClipped old1 0 r.o1 0 ++ emitSubtract old1 r.o1 (r.cend r.o1) (r.mask old1) 0 ++
    ((r.mask old1).flatMap fun m =>
      emitClipped old2 ((m.offset + diffWord r.o2 r.o1) % 2 ^ 64)
        ((m.stop + diffWord r.o2 r.o1) % 2 ^ 64) (diffWord r.o1 r.o2)) ++
    emitClipped old1 (r.cend r.o1) (2 ^ 64 - 1) 0

/-- The new list of the second file. -/
def Exch.new2 (r : Exch) (old1 old2 : List Extent) : List Extent :=
  emitClipped old2 0 r.o2 0 ++ emitSubtract old2 r.o2 (r.cend r.o2) (r.mask2 old1) 0 ++
    ((r.mask old1).flatMap fun m =>
      emitClipped old1 m.offset (m.stop % 2 ^ 64) (diffWord r.o2 r.o1)) ++
    emitClipped old2 (r.cend r.o2) (2 ^ 64 - 1) 0

/-- The nodes and the allocator are those of the device. -/
def sharing (g f : Btree.File) : Btree.File := { f with nodes := g.nodes, alloc := g.alloc }

/-- `briefs_exch_engine_diff`. -/
def exchEngineDiff (r : Exch) (f1 f2 : Btree.File) :
    Option (Option Errno × Btree.File × Btree.File) :=
  match forEachExtent f1, forEachExtent f2 with
  | .error e, _ => some (some e, f1, f2)
  | .ok _, .error e => some (some e, f1, f2)
  | .ok old1, .ok old2 =>
    match rebuildExtentList levels f1 (r.new1 old1 old2) with
    | none => none
    | some (some e, g1) => some (some e, g1, sharing g1 f2)
    | some (none, g1) =>
      match rebuildExtentList levels (sharing g1 f2) (r.new2 old1 old2) with
      | none => none
      | some (code, g2) => some (code, sharing g2 g1, g2)

--
-- What an exchange is
--

/-- Block `b` of the first file takes part in the exchange. -/
def Exch.takes (r : Exch) (old1 : List Extent) (b : Nat) : Bool :=
  decide (r.o1 ≤ b) && (r.toEof || decide (b < r.o1 + r.len)) &&
    (!r.written || old1.any fun e => decide (e.covers b) && !e.unwritten)

/-- Block `b` of the second file takes part. -/
def Exch.takes2 (r : Exch) (old1 : List Extent) (b : Nat) : Bool :=
  decide (r.o2 ≤ b) && r.takes old1 (b + r.o1 - r.o2)

/-- The maps after an exchange: the blocks that take part have changed files, the others
stay, and no physical block is lost or owned twice. -/
structure Exchanged (r : Exch) (old1 : List Extent) (c1 c2 c1' c2' : List (Nat × Nat × Nat)) :
    Prop where
  first  : ∀ b p fl, (b, p, fl) ∈ c1' ↔
    if r.takes old1 b then (b + r.o2 - r.o1, p, fl) ∈ c2 else (b, p, fl) ∈ c1
  second : ∀ b p fl, (b, p, fl) ∈ c2' ↔
    if r.takes2 old1 b then (b + r.o1 - r.o2, p, fl) ∈ c1 else (b, p, fl) ∈ c2
  owned  : ((c1' ++ c2').map Prod.snd).Perm ((c1 ++ c2).map Prod.snd)

/-- The words of a request are block numbers of byte offsets, and lengths of such. -/
structure Exch.Bounded (r : Exch) : Prop where
  o1  : r.o1 < 2 ^ 52
  o2  : r.o2 < 2 ^ 52
  len : r.len < 2 ^ 52

/-- The end of the exchange is lost when it is moved to the second file. -/
def Exch.Wraps (r : Exch) : Prop := r.toEof = true ∧ r.written = false ∧ r.o1 < r.o2

--
-- Masks
--

/-- The extents are in order and end at a block number of a byte offset. -/
structure Small (l : List Extent) : Prop where
  ordered : Ordered l
  stops   : ∀ e ∈ l, e.stop ≤ 2 ^ 62

section Mask

variable {r : Exch} {old1 old2 : List Extent}

theorem Exch.Bounded.cend1 (h : r.Bounded) :
    r.cend r.o1 = if r.toEof then 2 ^ 64 - 1 else r.o1 + r.len := by
  have h1 := h.o1
  have h2 := h.len
  unfold Exch.cend
  rw [Nat.mod_eq_of_lt (by omega)]

theorem Exch.Bounded.cend2 (h : r.Bounded) :
    r.cend r.o2 = if r.toEof then 2 ^ 64 - 1 else r.o2 + r.len := by
  have h1 := h.o2
  have h2 := h.len
  unfold Exch.cend
  rw [Nat.mod_eq_of_lt (by omega)]

/-- Moving a block number by the difference of two others. -/
theorem add_diffWord {a b n : Nat} (ha : a < 2 ^ 52) (hb : b < 2 ^ 52) (hLow : b ≤ n)
    (hHigh : n + a < 2 ^ 64 + b) : (n + diffWord a b) % 2 ^ 64 = n + a - b := by
  unfold diffWord
  rcases Nat.lt_or_ge a b with hLt | hGe
  · have hWord : (a + 2 ^ 64 - b) % 2 ^ 64 = a + 2 ^ 64 - b := Nat.mod_eq_of_lt (by omega)
    have hSum : n + (a + 2 ^ 64 - b) = (n + a - b) + 2 ^ 64 := by omega
    rw [hWord, hSum, Nat.add_mod_right, Nat.mod_eq_of_lt (by omega)]
  · have hSum : a + 2 ^ 64 - b = (a - b) + 2 ^ 64 := by omega
    rw [hSum, Nat.add_mod_right, Nat.mod_eq_of_lt (a := a - b) (by omega),
      Nat.mod_eq_of_lt (by omega)]
    omega

theorem moves_diffWord {a b lo top : Nat} (ha : a < 2 ^ 52) (hb : b < 2 ^ 52) (hLow : b ≤ lo)
    (hTop : top ≤ 2 ^ 63) : Moves (diffWord a b) a b lo top :=
  ⟨hLow, fun n hn hn' => add_diffWord ha hb (by omega) (by omega)⟩

/-- The mask of one extent. -/
theorem maskPiece_eq_some {d A B : Nat} (hMoves : Moves d A B r.o1 (2 ^ 63)) {e m : Extent}
    (hStop : e.stop ≤ 2 ^ 62) :
    r.maskPiece d e = some m ↔ e.unwritten = false ∧
      max e.offset r.o1 < min e.stop (r.cend r.o1) ∧
      m = ⟨max e.offset r.o1 + A - B, 0, min e.stop (r.cend r.o1) - max e.offset r.o1, 0⟩ := by
  unfold Exch.maskPiece
  dsimp only
  by_cases hNone : e.unwritten = true ∨ min e.stop (r.cend r.o1) ≤ max e.offset r.o1
  · rw [if_pos hNone]
    constructor
    · nofun
    · rintro ⟨hWritten, hSome, -⟩
      rcases hNone with hNone | hNone
      · rw [hWritten] at hNone
        cases hNone
      · omega
  · rw [not_or] at hNone
    rw [if_neg (not_or.mpr hNone), hMoves.2 _ (Nat.le_max_right _ _) (by omega), Option.some.injEq]
    constructor
    · rintro rfl
      exact ⟨by simpa using hNone.1, by omega, rfl⟩
    · rintro ⟨-, -, rfl⟩
      rfl

theorem ordered_maskPieces {d A B : Nat} (hMoves : Moves d A B r.o1 (2 ^ 63)) (h : Small old1) :
    Ordered (old1.filterMap (r.maskPiece d)) := by
  unfold Ordered
  rw [List.pairwise_filterMap]
  refine (List.Pairwise.and_mem.mp h.ordered).imp ?_
  rintro e e' ⟨he, he', hApart⟩ m hm m' hm'
  obtain ⟨-, hSome, rfl⟩ := (maskPiece_eq_some hMoves (h.stops e he)).mp hm
  obtain ⟨-, hSome', rfl⟩ := (maskPiece_eq_some hMoves (h.stops e' he')).mp hm'
  have hB := hMoves.1
  unfold Extent.stop at hApart ⊢
  dsimp only
  omega

theorem masked_maskPieces {d A B : Nat} (hMoves : Moves d A B r.o1 (2 ^ 63)) (h : Small old1)
    {x : Nat × Nat × Nat} :
    masked (old1.filterMap (r.maskPiece d)) x = true ↔
      ∃ n, r.o1 ≤ n ∧ n < r.cend r.o1 ∧ x.1 = n + A - B ∧
        ∃ e ∈ old1, e.covers n ∧ e.unwritten = false := by
  have hB := hMoves.1
  rw [masked_iff]
  constructor
  · rintro ⟨m, hm, hCov⟩
    obtain ⟨e, he, hPiece⟩ := List.mem_filterMap.mp hm
    obtain ⟨hWritten, hSome, rfl⟩ := (maskPiece_eq_some hMoves (h.stops e he)).mp hPiece
    have hStop : e.stop = e.offset + e.len := rfl
    unfold Extent.covers Extent.stop at hCov
    dsimp only at hCov
    refine ⟨x.1 + B - A, ?_, ?_, ?_, e, he, ⟨?_, ?_⟩, hWritten⟩ <;> omega
  · rintro ⟨n, hLo, hHi, hEq, e, he, hCov, hWritten⟩
    have hFrom := hCov.1
    have hTo := hCov.2
    refine ⟨_, List.mem_filterMap.mpr ⟨e, he,
      (maskPiece_eq_some hMoves (h.stops e he)).mpr ⟨hWritten, by omega, rfl⟩⟩, ?_⟩
    unfold Extent.covers
    rw [show (⟨max e.offset r.o1 + A - B, 0, min e.stop (r.cend r.o1) - max e.offset r.o1, 0⟩ :
      Extent).stop = max e.offset r.o1 + A - B + (min e.stop (r.cend r.o1) - max e.offset r.o1)
      from rfl]
    dsimp only
    omega

theorem takes_iff {b : Nat} : r.takes old1 b = true ↔
    r.o1 ≤ b ∧ (r.toEof = true ∨ b < r.o1 + r.len) ∧
      (r.written = true → ∃ e ∈ old1, e.covers b ∧ e.unwritten = false) := by
  unfold Exch.takes
  cases r.written with
  | true => simp [and_assoc]
  | false => simp

theorem takes2_iff {b : Nat} : r.takes2 old1 b = true ↔
    r.o2 ≤ b ∧ r.takes old1 (b + r.o1 - r.o2) = true := by
  unfold Exch.takes2
  rw [Bool.and_eq_true, decide_eq_true_eq]

/-- The one piece of the mask if everything takes part. -/
theorem stop_wholePiece {o n : Nat} (hLow : o ≤ n) (hTop : n < 2 ^ 64) :
    (⟨o, 0, diffWord n o, 0⟩ : Extent).stop = n := by
  show o + (n + 2 ^ 64 - o) % 2 ^ 64 = n
  have hSum : n + 2 ^ 64 - o = (n - o) + 2 ^ 64 := by omega
  rw [hSum, Nat.add_mod_right, Nat.mod_eq_of_lt (by omega)]
  omega

/-- What the pieces of a mask have in common. -/
structure MaskOk (r : Exch) (mask : List Extent) : Prop where
  ordered : Ordered mask
  low     : ∀ m ∈ mask, r.o1 ≤ m.offset
  high    : ∀ m ∈ mask, m.stop < 2 ^ 64

theorem mask_ok (hb : r.Bounded) (h : Small old1) : MaskOk r (r.mask old1) := by
  have hZero : Moves 0 0 0 r.o1 (2 ^ 63) := moves_zero (by decide)
  have hEnd := hb.cend1
  have ho := hb.o1
  have hl := hb.len
  unfold Exch.mask
  cases r.written with
  | true =>
    rw [if_pos rfl]
    refine ⟨ordered_maskPieces hZero h, ?_, ?_⟩
    · intro m hm
      obtain ⟨e, he, hPiece⟩ := List.mem_filterMap.mp hm
      obtain ⟨-, -, rfl⟩ := (maskPiece_eq_some hZero (h.stops e he)).mp hPiece
      dsimp only
      omega
    · intro m hm
      obtain ⟨e, he, hPiece⟩ := List.mem_filterMap.mp hm
      obtain ⟨-, hSome, rfl⟩ := (maskPiece_eq_some hZero (h.stops e he)).mp hPiece
      have hStop := h.stops e he
      unfold Extent.stop at hStop ⊢
      dsimp only
      omega
  | false =>
    rw [if_neg (by decide)]
    have hRange : r.o1 ≤ r.cend r.o1 ∧ r.cend r.o1 < 2 ^ 64 := by
      rw [hEnd]
      split <;> omega
    refine ⟨List.pairwise_singleton _ _, ?_, ?_⟩
    · intro m hm
      rw [List.mem_singleton.mp hm]
    · intro m hm
      rw [List.mem_singleton.mp hm, stop_wholePiece hRange.1 hRange.2]
      exact hRange.2

theorem ordered_mask2 (hb : r.Bounded) (h : Small old1) : Ordered (r.mask2 old1) := by
  unfold Exch.mask2
  cases r.written with
  | true =>
    rw [if_pos rfl]
    exact ordered_maskPieces (moves_diffWord hb.o2 hb.o1 (Nat.le_refl _) (Nat.le_refl _)) h
  | false =>
    rw [if_neg (by decide)]
    exact List.pairwise_singleton _ _

theorem masked_mask (hb : r.Bounded) (h : Small old1) {x : Nat × Nat × Nat} (hx : x.1 < 2 ^ 63) :
    masked (r.mask old1) x = true ↔ r.takes old1 x.1 = true := by
  have hZero : Moves 0 0 0 r.o1 (2 ^ 63) := moves_zero (by decide)
  have hEnd := hb.cend1
  have ho := hb.o1
  have hl := hb.len
  rw [takes_iff]
  unfold Exch.mask
  cases hWritten : r.written with
  | true =>
    rw [if_pos rfl, masked_maskPieces hZero h]
    constructor
    · rintro ⟨n, hLo, hHi, hEq, hSome⟩
      obtain rfl : x.1 = n := by omega
      rw [hEnd] at hHi
      refine ⟨hLo, ?_, fun _ => hSome⟩
      cases hEof : r.toEof with
      | true => exact Or.inl rfl
      | false =>
        rw [hEof, if_neg (by decide)] at hHi
        exact Or.inr hHi
    · rintro ⟨hLo, hHi, hSome⟩
      refine ⟨x.1, hLo, ?_, by omega, hSome rfl⟩
      rw [hEnd]
      split
      · omega
      · rename_i hEof
        exact hHi.resolve_left hEof
  | false =>
    have hRange : r.o1 ≤ r.cend r.o1 ∧ r.cend r.o1 < 2 ^ 64 := by
      rw [hEnd]
      split <;> omega
    rw [if_neg (by decide), masked_iff, List.exists_mem_cons_iff]
    unfold Extent.covers
    rw [stop_wholePiece hRange.1 hRange.2, hEnd]
    simp only [List.not_mem_nil, false_and, exists_false, or_false, Bool.false_eq_true,
      false_imp_iff, and_true]
    cases hEof : r.toEof with
    | true =>
      simp only [if_true, true_or, and_true]
      omega
    | false => simp only [Bool.false_eq_true, if_false, false_or]

theorem masked_mask2 (hb : r.Bounded) (h : Small old1) {x : Nat × Nat × Nat} (hx : x.1 < 2 ^ 62) :
    masked (r.mask2 old1) x = true ↔ r.takes2 old1 x.1 = true := by
  have hEnd := hb.cend2
  have hEnd1 := hb.cend1
  have ho1 := hb.o1
  have ho2 := hb.o2
  have hl := hb.len
  rw [takes2_iff, takes_iff]
  unfold Exch.mask2
  cases hWritten : r.written with
  | true =>
    rw [if_pos rfl,
      masked_maskPieces (moves_diffWord hb.o2 hb.o1 (Nat.le_refl _) (Nat.le_refl _)) h]
    constructor
    · rintro ⟨n, hLo, hHi, hEq, hSome⟩
      obtain rfl : x.1 + r.o1 - r.o2 = n := by omega
      rw [hEnd1] at hHi
      refine ⟨by omega, hLo, ?_, fun _ => hSome⟩
      cases hEof : r.toEof with
      | true => exact Or.inl rfl
      | false =>
        rw [hEof, if_neg (by decide)] at hHi
        exact Or.inr hHi
    · rintro ⟨hFrom, hLo, hHi, hSome⟩
      refine ⟨x.1 + r.o1 - r.o2, hLo, ?_, by omega, hSome rfl⟩
      rw [hEnd1]
      split
      · omega
      · rename_i hEof
        exact hHi.resolve_left hEof
  | false =>
    have hRange : r.o2 ≤ r.cend r.o2 ∧ r.cend r.o2 < 2 ^ 64 := by
      rw [hEnd]
      split <;> omega
    rw [if_neg (by decide), masked_iff, List.exists_mem_cons_iff]
    unfold Extent.covers
    rw [stop_wholePiece hRange.1 hRange.2, hEnd]
    simp only [List.not_mem_nil, false_and, exists_false, or_false, Bool.false_eq_true,
      false_imp_iff, and_true]
    cases hEof : r.toEof with
    | true =>
      simp only [if_true, true_or, and_true]
      omega
    | false =>
      simp only [Bool.false_eq_true, if_false, false_or]
      omega

end Mask

--
-- The new lists
--

theorem perm_filter_or {α : Type} {p q : α → Bool} {l : List α}
    (h : ∀ x ∈ l, ¬ (p x = true ∧ q x = true)) :
    (l.filter p ++ l.filter q).Perm (l.filter fun x => p x || q x) := by
  have hSplit := List.filter_append_perm p (l.filter fun x => p x || q x)
  rw [List.filter_filter, List.filter_filter] at hSplit
  have hLeft : (l.filter fun x => p x && (p x || q x)) = l.filter p := by
    apply List.filter_congr
    intro x _
    cases p x <;> simp
  have hRight : (l.filter fun x => !p x && (p x || q x)) = l.filter q := by
    apply List.filter_congr
    intro x hx
    have hNot := h x hx
    cases hp : p x with
    | true =>
      rw [hp] at hNot
      have hq : q x = false := by simpa using hNot
      rw [hq]
      rfl
    | false => simp
  rw [hLeft, hRight] at hSplit
  exact hSplit

/-- Disjoint tests, one after the other. -/
theorem perm_flatMap_filter {α β : Type} {q : β → α → Bool} {l : List α} :
    ∀ {mask : List β}, mask.Pairwise (fun m n => ∀ x, ¬ (q m x = true ∧ q n x = true)) →
      (mask.flatMap fun m => l.filter (q m)).Perm (l.filter fun x => mask.any fun m => q m x) := by
  intro mask
  induction mask with
  | nil =>
    intro _
    have hNone : (l.filter fun _ => false) = [] := by simp
    show [].Perm (l.filter fun _ => false)
    rw [hNone]
  | cons m mask ih =>
    intro hDisj
    obtain ⟨hHere, hRest⟩ := List.pairwise_cons.mp hDisj
    rw [List.flatMap_cons]
    refine ((ih hRest).append_left _).trans ?_
    have hOr := perm_filter_or (p := q m) (q := fun x => mask.any fun n => q n x) (l := l) (by
      rintro x _ ⟨hm, hSome⟩
      obtain ⟨n, hn, hx⟩ := List.any_eq_true.mp hSome
      exact hHere n hn x ⟨hm, hx⟩)
    simpa only [List.any_cons] using hOr

section NewLists

variable {r : Exch} {old1 old2 : List Extent}

theorem Small.lt (h : Small old1) {x : Nat × Nat × Nat} (hx : x ∈ cells old1) : x.1 < 2 ^ 62 :=
  lt_of_cells h.stops x hx

theorem Small.stops_le (h : Small old1) {n : Nat} (hn : 2 ^ 62 ≤ n) : ∀ e ∈ old1, e.stop ≤ n :=
  fun e he => Nat.le_trans (h.stops e he) hn

/-- The parts of a file that stay: before, in, and behind the range. -/
theorem perm_kept (h : Small old1) {o n : Nat} (hLow : o ≤ n) {mask : List Extent}
    (hOrd : Ordered mask) {p : Nat → Bool}
    (hMask : ∀ x ∈ cells old1, masked mask x = p x.1)
    (hIn : ∀ b, b < 2 ^ 62 → p b = true → o ≤ b ∧ b < n) :
    (cells (emitClipped old1 0 o 0) ++ cells (emitSubtract old1 o n mask 0) ++
      cells (emitClipped old1 n (2 ^ 64 - 1) 0)).Perm
      ((cells old1).filter fun x => !p x.1) := by
  have hSame : move 0 0 = id := funext fun x => move_self 0 x
  have hClip : ∀ lo hi, cells (emitClipped old1 lo hi 0) = (cells old1).filter (inRange lo hi) := by
    intro lo hi
    rw [cells_emitClipped (moves_zero (Nat.le_refl _)), hSame, List.map_id]
    intro e he
    have hStop := h.stops e he
    omega
  rw [hClip, hClip, cells_emitSubtract hOrd (h.stops_le (by decide))]
  have hFirst : ∀ x ∈ cells old1, ¬ (inRange 0 o x = true ∧
      (inRange o n x && !masked mask x) = true) := by
    rintro x _ ⟨hA, hB⟩
    rw [Bool.and_eq_true, inRange_iff] at hB
    rw [inRange_iff] at hA
    omega
  have hSecond : ∀ x ∈ cells old1, ¬ ((inRange 0 o x || (inRange o n x && !masked mask x)) = true ∧
      inRange n (2 ^ 64 - 1) x = true) := by
    rintro x _ ⟨hA, hB⟩
    rw [Bool.or_eq_true, Bool.and_eq_true, inRange_iff, inRange_iff] at hA
    rw [inRange_iff] at hB
    omega
  refine ((perm_filter_or hFirst).append_right _).trans ((perm_filter_or hSecond).trans ?_)
  apply List.Perm.of_eq
  apply List.filter_congr
  intro x hx
  have hSmall := h.lt hx
  rw [Bool.eq_iff_iff, Bool.or_eq_true, Bool.or_eq_true, Bool.and_eq_true, inRange_iff, inRange_iff,
    inRange_iff, hMask x hx]
  cases hp : p x.1 with
  | true =>
    have hRange := hIn x.1 hSmall hp
    simp only [Bool.not_true, Bool.false_eq_true, and_false, or_false, iff_false]
    omega
  | false =>
    simp only [Bool.not_false, and_true, iff_true]
    omega

/-- The parts that move to the other file. -/
theorem perm_moved {mask : List Extent} {lo hi : Extent → Nat} {a b : Nat} {p : Nat → Bool}
    (h : Small old2) (ha : a < 2 ^ 52) (hb : b < 2 ^ 52)
    (hPair : mask.Pairwise fun m n => hi m ≤ lo n) (hLow : ∀ m ∈ mask, b ≤ lo m)
    (hTakes : ∀ x ∈ cells old2, (∃ m ∈ mask, lo m ≤ x.1 ∧ x.1 < hi m) ↔ p x.1 = true) :
    (cells (mask.flatMap fun m => emitClipped old2 (lo m) (hi m) (diffWord a b))).Perm
      (((cells old2).filter fun x => p x.1).map (move a b)) := by
  have hEach : cells (mask.flatMap fun m => emitClipped old2 (lo m) (hi m) (diffWord a b)) =
      (mask.flatMap fun m => (cells old2).filter (inRange (lo m) (hi m))).map (move a b) := by
    clear hTakes hPair
    induction mask with
    | nil => rfl
    | cons m mask ih =>
      obtain ⟨hHere, hRest⟩ := List.forall_mem_cons.mp hLow
      rw [List.flatMap_cons, cells_append, ih hRest, List.flatMap_cons, List.map_append]
      congr 1
      apply cells_emitClipped (moves_diffWord ha hb hHere (Nat.le_refl _))
      intro e he
      have hStop := h.stops e he
      omega
  have hDisj : mask.Pairwise fun m n => ∀ x, ¬ (inRange (lo m) (hi m) x = true ∧
      inRange (lo n) (hi n) x = true) := by
    refine hPair.imp ?_
    rintro m n hApart x ⟨hm, hn⟩
    rw [inRange_iff] at hm hn
    omega
  rw [hEach]
  refine ((perm_flatMap_filter hDisj).trans ?_).map _
  apply List.Perm.of_eq
  apply List.filter_congr
  intro x hx
  rw [Bool.eq_iff_iff, List.any_eq_true, ← hTakes x hx]
  simp only [inRange_iff]

/-- The mask in blocks of the second file. -/
theorem masked_shift (hb : r.Bounded) (h : Small old1) {b : Nat} (hSmall : b < 2 ^ 62) :
    (∃ m ∈ r.mask old1, m.offset + r.o2 - r.o1 ≤ b ∧ b < m.stop + r.o2 - r.o1) ↔
      r.takes2 old1 b = true := by
  have hOk := mask_ok hb h
  have ho1 := hb.o1
  have ho2 := hb.o2
  rw [takes2_iff]
  constructor
  · rintro ⟨m, hm, hLo, hHi⟩
    have hStart := hOk.low m hm
    refine ⟨by omega, (masked_mask hb h (x := (b + r.o1 - r.o2, 0, 0)) (by dsimp only; omega)).mp ?_⟩
    exact masked_iff.mpr ⟨m, hm, by dsimp only; omega, by dsimp only; omega⟩
  · rintro ⟨hFrom, hTakes⟩
    have hMasked := (masked_mask hb h (x := (b + r.o1 - r.o2, 0, 0)) (by dsimp only; omega)).mpr hTakes
    obtain ⟨m, hm, hLo, hHi⟩ := masked_iff.mp hMasked
    have hStart := hOk.low m hm
    dsimp only at hLo hHi
    exact ⟨m, hm, by omega, by omega⟩

/-- The range of the blocks that take part. -/
theorem takes_range (hb : r.Bounded) {b : Nat} (hSmall : b < 2 ^ 62) (h : r.takes old1 b = true) :
    r.o1 ≤ b ∧ b < r.cend r.o1 := by
  obtain ⟨hLo, hHi, -⟩ := takes_iff.mp h
  rw [hb.cend1]
  refine ⟨hLo, ?_⟩
  split
  · omega
  · rename_i hEof
    exact hHi.resolve_left hEof

theorem takes2_range (hb : r.Bounded) {b : Nat} (hSmall : b < 2 ^ 62) (h : r.takes2 old1 b = true) :
    r.o2 ≤ b ∧ b < r.cend r.o2 := by
  obtain ⟨hFrom, hTakes⟩ := takes2_iff.mp h
  obtain ⟨hLo, hHi, -⟩ := takes_iff.mp hTakes
  rw [hb.cend2]
  refine ⟨hFrom, ?_⟩
  split
  · omega
  · rename_i hEof
    have hLen := hHi.resolve_left hEof
    omega

theorem o_le_cend (hb : r.Bounded) : r.o1 ≤ r.cend r.o1 ∧ r.o2 ≤ r.cend r.o2 := by
  have ho1 := hb.o1
  have ho2 := hb.o2
  rw [hb.cend1, hb.cend2]
  split <;> omega

/-- The second file keeps what does not take part and gets the part of the first one. -/
theorem cells_new2 (hb : r.Bounded) (h1 : Small old1) (h2 : Small old2) :
    (cells (r.new2 old1 old2)).Perm (((cells old2).filter fun x => !r.takes2 old1 x.1) ++
      ((cells old1).filter fun x => r.takes old1 x.1).map (move r.o2 r.o1)) := by
  have hOk := mask_ok hb h1
  have hKept := perm_kept h2 (o_le_cend hb).2 (ordered_mask2 hb h1) (p := r.takes2 old1)
    (fun x hx => Bool.eq_iff_iff.mpr (masked_mask2 hb h1 (h2.lt hx)))
    fun b hSmall hTakes => takes2_range hb hSmall hTakes
  have hTop : ∀ m ∈ r.mask old1, m.stop % 2 ^ 64 = m.stop :=
    fun m hm => Nat.mod_eq_of_lt (hOk.high m hm)
  have hPair : (r.mask old1).Pairwise fun m n => m.stop % 2 ^ 64 ≤ n.offset := by
    refine (List.Pairwise.and_mem.mp hOk.ordered).imp ?_
    rintro m n ⟨hm, -, hApart⟩
    rw [hTop m hm]
    exact hApart
  have hMoved := perm_moved (p := r.takes old1) h1 hb.o2 hb.o1 hPair hOk.low (by
    intro x hx
    rw [← masked_mask hb h1 (Nat.lt_trans (h1.lt hx) (by decide)), masked_iff]
    constructor
    · rintro ⟨m, hm, hLo, hHi⟩
      rw [hTop m hm] at hHi
      exact ⟨m, hm, hLo, hHi⟩
    · rintro ⟨m, hm, hLo, hHi⟩
      refine ⟨m, hm, hLo, ?_⟩
      rw [hTop m hm]
      exact hHi)
  unfold Exch.new2
  rw [cells_append, cells_append, cells_append]
  refine List.Perm.trans ?_ (hKept.append hMoved)
  simp only [List.append_assoc]
  exact (List.perm_append_comm.append_left _).append_left _

/-- The mask ends with an extent, or with the range. -/
theorem mask_stop_le (hb : r.Bounded) (h1 : Small old1)
    (hEnd : ¬ (r.toEof = true ∧ r.written = false)) : ∀ m ∈ r.mask old1, m.stop ≤ 2 ^ 62 := by
  have ho1 := hb.o1
  have hl := hb.len
  unfold Exch.mask
  cases hWritten : r.written with
  | true =>
    rw [if_pos rfl]
    intro m hm
    obtain ⟨e, he, hPiece⟩ := List.mem_filterMap.mp hm
    obtain ⟨-, hSome, rfl⟩ :=
      (maskPiece_eq_some (moves_zero (by decide)) (h1.stops e he)).mp hPiece
    have hStop := h1.stops e he
    unfold Extent.stop at hStop ⊢
    dsimp only
    omega
  | false =>
    have hEof : r.toEof = false := by
      by_contra hYes
      exact hEnd ⟨by simpa using hYes, hWritten⟩
    have hCend : r.cend r.o1 = r.o1 + r.len := by
      rw [hb.cend1, hEof]
      rfl
    rw [if_neg (by decide)]
    intro m hm
    rw [List.mem_singleton.mp hm, stop_wholePiece (o_le_cend hb).1 (by omega)]
    omega

/-- Where the pieces of the mask lie in the second file, if the end does not wrap around. -/
theorem shifted_mask (hb : r.Bounded) (h1 : Small old1) (hWraps : ¬ r.Wraps) : ∀ m ∈ r.mask old1,
    (m.offset + diffWord r.o2 r.o1) % 2 ^ 64 = m.offset + r.o2 - r.o1 ∧
      (m.stop + diffWord r.o2 r.o1) % 2 ^ 64 = m.stop + r.o2 - r.o1 := by
  intro m hm
  have hOk := mask_ok hb h1
  have hLow := hOk.low m hm
  have hHigh := hOk.high m hm
  have hSize := m.offset_le_stop
  have ho1 := hb.o1
  have ho2 := hb.o2
  have hl := hb.len
  have hRoom : m.stop + r.o2 < 2 ^ 64 + r.o1 := by
    rcases Nat.lt_or_ge r.o1 r.o2 with hLt | hGe
    · have hStop := mask_stop_le hb h1 (fun hEnd => hWraps ⟨hEnd.1, hEnd.2, hLt⟩) m hm
      omega
    · omega
  exact ⟨add_diffWord ho2 ho1 hLow (by omega), add_diffWord ho2 ho1 (by omega) hRoom⟩

/-- What the first file keeps. -/
theorem perm_kept1 (hb : r.Bounded) (h1 : Small old1) :
    (cells (emitClipped old1 0 r.o1 0) ++
      cells (emitSubtract old1 r.o1 (r.cend r.o1) (r.mask old1) 0) ++
      cells (emitClipped old1 (r.cend r.o1) (2 ^ 64 - 1) 0)).Perm
      ((cells old1).filter fun x => !r.takes old1 x.1) :=
  perm_kept h1 (o_le_cend hb).1 (mask_ok hb h1).ordered
    (fun x hx => Bool.eq_iff_iff.mpr (masked_mask hb h1 (Nat.lt_trans (h1.lt hx) (by decide))))
    fun b hSmall hTakes => takes_range hb hSmall hTakes

/-- The first file keeps what does not take part and gets the part of the second one. -/
theorem cells_new1 (hb : r.Bounded) (h1 : Small old1) (h2 : Small old2) (hWraps : ¬ r.Wraps) :
    (cells (r.new1 old1 old2)).Perm (((cells old1).filter fun x => !r.takes old1 x.1) ++
      ((cells old2).filter fun x => r.takes2 old1 x.1).map (move r.o1 r.o2)) := by
  have hOk := mask_ok hb h1
  have hShift := shifted_mask hb h1 hWraps
  have hPair : (r.mask old1).Pairwise fun m n =>
      (m.stop + diffWord r.o2 r.o1) % 2 ^ 64 ≤ (n.offset + diffWord r.o2 r.o1) % 2 ^ 64 := by
    refine (List.Pairwise.and_mem.mp hOk.ordered).imp ?_
    rintro m n ⟨hm, hn, hApart⟩
    rw [(hShift m hm).2, (hShift n hn).1]
    omega
  have hLow : ∀ m ∈ r.mask old1, r.o2 ≤ (m.offset + diffWord r.o2 r.o1) % 2 ^ 64 := by
    intro m hm
    have hStart := hOk.low m hm
    rw [(hShift m hm).1]
    omega
  have hMoved := perm_moved (p := r.takes2 old1) h2 hb.o1 hb.o2 hPair hLow (by
    intro x hx
    rw [← masked_shift hb h1 (h2.lt hx)]
    constructor
    · rintro ⟨m, hm, hLo, hHi⟩
      rw [(hShift m hm).1] at hLo
      rw [(hShift m hm).2] at hHi
      exact ⟨m, hm, hLo, hHi⟩
    · rintro ⟨m, hm, hLo, hHi⟩
      refine ⟨m, hm, ?_⟩
      rw [(hShift m hm).1, (hShift m hm).2]
      exact ⟨hLo, hHi⟩)
  unfold Exch.new1
  rw [cells_append, cells_append, cells_append]
  refine List.Perm.trans ?_ ((perm_kept1 hb h1).append hMoved)
  simp only [List.append_assoc]
  exact (List.perm_append_comm.append_left _).append_left _

/-- If the end wraps around, the first file gets nothing. -/
theorem cells_new1_wraps (hb : r.Bounded) (h1 : Small old1) (hWraps : r.Wraps) :
    (cells (r.new1 old1 old2)).Perm ((cells old1).filter fun x => !r.takes old1 x.1) := by
  obtain ⟨hEof, hWritten, hLt⟩ := hWraps
  have ho1 := hb.o1
  have ho2 := hb.o2
  have hCend : r.cend r.o1 = 2 ^ 64 - 1 := by
    rw [hb.cend1, hEof]
    rfl
  have hMask : r.mask old1 = [⟨r.o1, 0, diffWord (r.cend r.o1) r.o1, 0⟩] := by
    unfold Exch.mask
    rw [hWritten]
    rfl
  have hStop : (⟨r.o1, 0, diffWord (r.cend r.o1) r.o1, 0⟩ : Extent).stop = 2 ^ 64 - 1 := by
    rw [stop_wholePiece (o_le_cend hb).1 (by rw [hCend]; decide), hCend]
  have hFrom : (r.o1 + diffWord r.o2 r.o1) % 2 ^ 64 = r.o2 := by
    rw [add_diffWord ho2 ho1 (Nat.le_refl _) (by omega)]
    omega
  have hTo : (2 ^ 64 - 1 + diffWord r.o2 r.o1) % 2 ^ 64 = r.o2 - r.o1 - 1 := by
    have hWord : diffWord r.o2 r.o1 = r.o2 - r.o1 := by
      unfold diffWord
      have hSum : r.o2 + 2 ^ 64 - r.o1 = (r.o2 - r.o1) + 2 ^ 64 := by omega
      rw [hSum, Nat.add_mod_right, Nat.mod_eq_of_lt (by omega)]
    have hSum : 2 ^ 64 - 1 + (r.o2 - r.o1) = (r.o2 - r.o1 - 1) + 2 ^ 64 := by omega
    rw [hWord, hSum, Nat.add_mod_right, Nat.mod_eq_of_lt (by omega)]
  have hNothing : ((r.mask old1).flatMap fun m =>
      emitClipped old2 ((m.offset + diffWord r.o2 r.o1) % 2 ^ 64)
        ((m.stop + diffWord r.o2 r.o1) % 2 ^ 64) (diffWord r.o1 r.o2)) = [] := by
    rw [hMask, List.flatMap_singleton, hStop, hFrom, hTo]
    unfold emitClipped
    rw [List.filterMap_eq_nil_iff]
    intro e _
    dsimp only
    rw [if_pos (by omega)]
  unfold Exch.new1
  rw [hNothing, List.append_nil, cells_append, cells_append]
  exact perm_kept1 hb h1

end NewLists

--
-- The exchange of the maps
--

section Exchanged

variable {r : Exch} {old1 : List Extent} {c1 c2 c1' c2' : List (Nat × Nat × Nat)}

theorem takes_of_takes2 {b : Nat} (h : r.o1 ≤ b) :
    r.takes2 old1 (b + r.o2 - r.o1) = r.takes old1 b := by
  rw [Bool.eq_iff_iff, takes2_iff]
  have hBack : b + r.o2 - r.o1 + r.o1 - r.o2 = b := by omega
  rw [hBack]
  exact ⟨fun hBoth => hBoth.2, fun hTakes => ⟨by omega, hTakes⟩⟩

theorem snd_move {a b : Nat} : ∀ l : List (Nat × Nat × Nat),
    (l.map (move a b)).map Prod.snd = l.map Prod.snd := by
  intro l
  rw [List.map_map]
  rfl

/-- A cell stays where the file does not take part, and comes from the other file where it does. -/
theorem kept_or_moved {l : List (Nat × Nat × Nat)} {g : Nat × Nat × Nat → Nat × Nat × Nat}
    {y : Nat × Nat × Nat} {here there : Prop} {takes : Bool} (x : Nat × Nat × Nat)
    (hFrom : ∀ z ∈ l, g z = y → takes = true ∧ z = x ∧ there)
    (hBack : takes = true → there → x ∈ l ∧ g x = y) :
    (here ∧ (!takes) = true ∨ ∃ z ∈ l, g z = y) ↔ if takes = true then there else here := by
  cases takes with
  | true =>
    rw [if_pos rfl]
    simp only [Bool.not_true, Bool.false_eq_true, and_false, false_or]
    exact ⟨fun ⟨z, hz, hMove⟩ => (hFrom z hz hMove).2.2, fun hIn => ⟨x, hBack rfl hIn⟩⟩
  | false =>
    rw [if_neg (by decide)]
    simp only [Bool.not_false, and_true]
    refine ⟨?_, Or.inl⟩
    rintro (hIn | ⟨z, hz, hMove⟩)
    · exact hIn
    · cases (hFrom z hz hMove).1

/-- The parts of two files put together anew. -/
theorem exchanged_of_perm
    (h1 : c1'.Perm ((c1.filter fun x => !r.takes old1 x.1) ++
      (c2.filter fun x => r.takes2 old1 x.1).map (move r.o1 r.o2)))
    (h2 : c2'.Perm ((c2.filter fun x => !r.takes2 old1 x.1) ++
      (c1.filter fun x => r.takes old1 x.1).map (move r.o2 r.o1))) :
    Exchanged r old1 c1 c2 c1' c2' := by
  constructor
  case first =>
    intro b p fl
    rw [h1.mem_iff, List.mem_append, List.mem_filter, List.mem_map]
    refine kept_or_moved (b + r.o2 - r.o1, p, fl) ?_ ?_
    · rintro ⟨b', p', fl'⟩ hx hMove
      obtain ⟨hIn, hTakes⟩ := List.mem_filter.mp hx
      obtain ⟨hLow, hTakes'⟩ := takes2_iff.mp hTakes
      unfold move at hMove
      simp only [Prod.mk.injEq] at hMove
      obtain ⟨rfl, rfl, rfl⟩ := hMove
      have hStart := (takes_iff.mp hTakes').1
      dsimp only at hLow hTakes' hStart ⊢
      have hBlock : b' + r.o1 - r.o2 + r.o2 - r.o1 = b' := by omega
      rw [hBlock]
      exact ⟨hTakes', rfl, hIn⟩
    · intro hTakes hIn
      have hStart := (takes_iff.mp hTakes).1
      refine ⟨List.mem_filter.mpr ⟨hIn, (takes_of_takes2 hStart).trans hTakes⟩, ?_⟩
      unfold move
      rw [Prod.mk.injEq]
      exact ⟨by dsimp only; omega, rfl⟩
  case second =>
    intro b p fl
    rw [h2.mem_iff, List.mem_append, List.mem_filter, List.mem_map]
    refine kept_or_moved (b + r.o1 - r.o2, p, fl) ?_ ?_
    · rintro ⟨b', p', fl'⟩ hx hMove
      obtain ⟨hIn, hTakes⟩ := List.mem_filter.mp hx
      have hStart := (takes_iff.mp hTakes).1
      unfold move at hMove
      simp only [Prod.mk.injEq] at hMove
      obtain ⟨rfl, rfl, rfl⟩ := hMove
      dsimp only at hTakes hStart ⊢
      have hBlock : b' + r.o2 - r.o1 + r.o1 - r.o2 = b' := by omega
      rw [hBlock]
      exact ⟨(takes_of_takes2 hStart).trans hTakes, rfl, hIn⟩
    · intro hTakes hIn
      obtain ⟨hLow, hTakes'⟩ := takes2_iff.mp hTakes
      have hStart := (takes_iff.mp hTakes').1
      refine ⟨List.mem_filter.mpr ⟨hIn, hTakes'⟩, ?_⟩
      unfold move
      rw [Prod.mk.injEq]
      exact ⟨by dsimp only; omega, rfl⟩
  case owned =>
    have hBoth := (h1.append h2).map Prod.snd
    refine hBoth.trans ?_
    simp only [List.map_append, snd_move]
    have hWhole1 := (List.filter_append_perm (fun x => r.takes old1 x.1) c1).map Prod.snd
    have hWhole2 := (List.filter_append_perm (fun x => r.takes2 old1 x.1) c2).map Prod.snd
    rw [List.map_append] at hWhole1 hWhole2
    refine List.Perm.trans ?_ (hWhole1.append hWhole2)
    rw [← Multiset.coe_eq_coe]
    simp only [← Multiset.coe_add]
    abel

end Exchanged

end Briefs.File
