import Mathlib.Algebra.Order.BigOperators.Group.List
import Mathlib.Algebra.Group.Action.Defs
import Briefs.File.Same
import Briefs.File.Zero

/-!
# BrieFS — the sizes of the temporary extent arrays

The exchange engines and `briefs_do_zero_range` (`file.c`) write their new extent lists into
arrays whose sizes are computed from the number of old extents, and no write checks the size.
A pass over the old list may cut an extent into many pieces, so that the bounds do not hold
extent by extent: a cut is paid for by a mask or by a boundary of the range, and since the
extents are disjoint a block cuts at most one of them.

The ends of extents, masks and ranges are sums of unsigned words here, also when they wrap
around. `newWords1_eq` and its companions say that the lists are the ones of the other modules
when they do not.

## Results

* `length_newWords1`, `length_newWords2`, `length_sameWords`, `length_zeroLoop` — the bounds.
* `temporary_arrays_fit` — every array is large enough.
-/

namespace Briefs.File

open Briefs.Journal
open Briefs.Btree

--
-- The code, in words
--

/-- `e->offset + e->len` as a word. -/
def endWord (e : Extent) : Nat := e.stop % 2 ^ 64

/-- `briefs_emit_clipped`. -/
def clipWords (src : List Extent) (lo hi rebase : Nat) : List Extent :=
  src.filterMap fun e =>
    let s := max e.offset lo
    let en := min (endWord e) hi
    if en ≤ s then none else some (piece e s en rebase)

/-- The loop of `briefs_emit_subtract` over the mask, for one extent from block `cur` on. -/
def subtractMaskWords (e : Extent) (en rebase : Nat) : List Extent → Nat → List Extent
  | [], cur => if cur < en then [piece e cur en rebase] else []
  | m :: mask, cur =>
    if en ≤ cur then []
    else if endWord m ≤ cur then subtractMaskWords e en rebase mask cur
    else if en ≤ m.offset then [piece e cur en rebase]
    else
      (if cur < max m.offset cur then [piece e cur (max m.offset cur) rebase] else []) ++
        subtractMaskWords e en rebase mask (min (endWord m) en)

/-- `briefs_emit_subtract`. -/
def subtractWords (src : List Extent) (lo hi : Nat) (mask : List Extent) (rebase : Nat) :
    List Extent :=
  src.flatMap fun e =>
    let s := max e.offset lo
    let en := min (endWord e) hi
    if en ≤ s then [] else subtractMaskWords e en rebase mask s

namespace Exch

/-- The mask of a written extent of the first file; `d` moves it. -/
def maskWord (r : Exch) (d : Nat) (e : Extent) : Option Extent :=
  let s := max e.offset r.o1
  let en := min (endWord e) (r.cend r.o1)
  if e.unwritten = true ∨ en ≤ s then none else some ⟨(s + d) % 2 ^ 64, 0, en - s, 0⟩

/-- `mask`. -/
def maskWords (r : Exch) (old1 : List Extent) : List Extent :=
  if r.written then old1.filterMap (r.maskWord 0)
  else [⟨r.o1, 0, diffWord (r.cend r.o1) r.o1, 0⟩]

/-- `mask2`. -/
def maskWords2 (r : Exch) (old1 : List Extent) : List Extent :=
  if r.written then old1.filterMap (r.maskWord (diffWord r.o2 r.o1))
  else [⟨r.o2, 0, diffWord (r.cend r.o2) r.o2, 0⟩]

/-- `new1`. -/
def newWords1 (r : Exch) (old1 old2 : List Extent) : List Extent :=
  clipWords old1 0 r.o1 0 ++ subtractWords old1 r.o1 (r.cend r.o1) (r.maskWords old1) 0 ++
    ((r.maskWords old1).flatMap fun m =>
      clipWords old2 ((m.offset + diffWord r.o2 r.o1) % 2 ^ 64)
        ((endWord m + diffWord r.o2 r.o1) % 2 ^ 64) (diffWord r.o1 r.o2)) ++
    clipWords old1 (r.cend r.o1) (2 ^ 64 - 1) 0

/-- `new2`. -/
def newWords2 (r : Exch) (old1 old2 : List Extent) : List Extent :=
  clipWords old2 0 r.o2 0 ++ subtractWords old2 r.o2 (r.cend r.o2) (r.maskWords2 old1) 0 ++
    ((r.maskWords old1).flatMap fun m =>
      clipWords old1 m.offset (endWord m) (diffWord r.o2 r.o1)) ++
    clipWords old2 (r.cend r.o2) (2 ^ 64 - 1) 0

end Exch

/-- The list of `briefs_exch_engine_same`. -/
def sameWords (old : List Extent) (o1 o2 len : Nat) : List Extent :=
  let lo := min o1 o2
  let hi := max o1 o2
  clipWords old 0 lo 0 ++
    clipWords old hi ((hi + len) % 2 ^ 64) (diffWord lo hi) ++
    clipWords old ((lo + len) % 2 ^ 64) hi 0 ++
    clipWords old lo ((lo + len) % 2 ^ 64) (diffWord hi lo) ++
    clipWords old ((hi + len) % 2 ^ 64) (2 ^ 64 - 1) 0

--
-- Counting
--

section Counting

variable {α β : Type}

/-- Pairs are counted by their first or by their second component. -/
theorem sum_countP_comm (R : α → β → Bool) (l : List α) (ms : List β) :
    (l.map fun a => ms.countP (R a)).sum = (ms.map fun m => l.countP (R · m)).sum := by
  induction ms with
  | nil =>
    simp only [List.countP_nil, List.map_nil, List.sum_nil]
    exact List.sum_eq_zero fun x hx => by
      obtain ⟨a, -, rfl⟩ := List.mem_map.mp hx
      rfl
  | cons m ms ih =>
    have hHead : ∀ k : List α, (k.map fun a => (m :: ms).countP (R a)).sum =
        k.countP (R · m) + (k.map fun a => ms.countP (R a)).sum := by
      intro k
      induction k with
      | nil => rfl
      | cons a k ihk =>
        rw [List.map_cons, List.sum_cons, ihk, List.map_cons, List.sum_cons,
          List.countP_cons (l := k), List.countP_cons (l := ms)]
        omega
    rw [hHead, ih, List.map_cons, List.sum_cons]

/-- A sum of numbers up to `b`. -/
theorem sum_map_le {f : α → Nat} {b : Nat} {l : List α} (h : ∀ a ∈ l, f a ≤ b) :
    (l.map f).sum ≤ l.length * b := by
  have hSum := List.sum_le_card_nsmul (l.map f) b fun x hx => by
    obtain ⟨a, ha, rfl⟩ := List.mem_map.mp hx
    exact h a ha
  rw [List.length_map, smul_eq_mul] at hSum
  exact hSum

/-- At most one element passes, if no two do. -/
theorem countP_le_one {p : α → Bool} {l : List α}
    (h : l.Pairwise fun a b => p a = true → p b = true → False) : l.countP p ≤ 1 := by
  induction h with
  | nil => exact Nat.zero_le _
  | @cons a l hHead _ ih =>
    by_cases ha : p a = true
    · have hNone : l.countP p = 0 := List.countP_eq_zero.mpr fun b hb hPass => hHead b hb ha hPass
      rw [List.countP_cons_of_pos ha, hNone]
    · rw [List.countP_cons_of_neg ha]
      exact ih

end Counting

--
-- Blocks in a sorted list
--

/-- Block `x` is mapped by the extent. -/
def holdsWord (x : Nat) (e : Extent) : Bool := decide (e.offset ≤ x) && decide (x < endWord e)

/-- The extent is cut at block `x`. -/
def cutAt (x : Nat) (e : Extent) : Bool := decide (e.offset < x) && decide (x < endWord e)

/-- The extent has blocks in `[lo, hi)`. -/
def meets (lo hi : Nat) (e : Extent) : Bool := decide (max e.offset lo < min (endWord e) hi)

section Sorted

variable {l : List Extent} {x lo hi rebase : Nat} {e : Extent}

theorem holdsWord_iff : holdsWord x e = true ↔ e.offset ≤ x ∧ x < endWord e := by
  unfold holdsWord
  rw [Bool.and_eq_true, decide_eq_true_eq, decide_eq_true_eq]

theorem cutAt_iff : cutAt x e = true ↔ e.offset < x ∧ x < endWord e := by
  unfold cutAt
  rw [Bool.and_eq_true, decide_eq_true_eq, decide_eq_true_eq]

theorem meets_iff : meets lo hi e = true ↔ max e.offset lo < min (endWord e) hi := by
  unfold meets
  rw [decide_eq_true_eq]

theorem endWord_le (e : Extent) : endWord e ≤ e.stop := Nat.mod_le _ _

/-- No block is in two extents. -/
theorem countP_holdsWord (h : Ordered l) : l.countP (holdsWord x) ≤ 1 := by
  apply countP_le_one
  refine List.Pairwise.imp (fun {a b} hab ha hb => ?_) h
  have hEnd := endWord_le a
  obtain ⟨-, ha⟩ := holdsWord_iff.mp ha
  obtain ⟨hb, -⟩ := holdsWord_iff.mp hb
  omega

/-- A block cuts one extent. -/
theorem countP_cutAt (h : Ordered l) : l.countP (cutAt x) ≤ 1 := by
  refine Nat.le_trans (List.countP_mono_left fun e _ he => ?_) (countP_holdsWord (x := x) h)
  obtain ⟨hLow, hHigh⟩ := cutAt_iff.mp he
  exact holdsWord_iff.mpr ⟨Nat.le_of_lt hLow, hHigh⟩

/-- Two extents of the list are the same, or one comes before the other. -/
theorem ordered_cases (h : Ordered l) {a b : Extent} (ha : a ∈ l) (hb : b ∈ l) :
    a = b ∨ a.stop ≤ b.offset ∨ b.stop ≤ a.offset := by
  by_cases hab : a = b
  · exact Or.inl hab
  · have hSymm : Std.Symm fun a b : Extent => a.stop ≤ b.offset ∨ b.stop ≤ a.offset :=
      ⟨fun _ _ => Or.symm⟩
    have hAll : l.Pairwise fun a b => a.stop ≤ b.offset ∨ b.stop ≤ a.offset := h.imp Or.inl
    exact Or.inr (hAll.forall ha hb hab)

/-- The number of clipped pieces. -/
theorem length_clipWords (src : List Extent) (lo hi rebase : Nat) :
    (clipWords src lo hi rebase).length = src.countP (meets lo hi) := by
  induction src with
  | nil => rfl
  | cons e src ih =>
    unfold clipWords at ih ⊢
    rw [List.filterMap_cons]
    dsimp only
    by_cases hNone : min (endWord e) hi ≤ max e.offset lo
    · have hMeets : ¬ meets lo hi e = true := by
        rw [meets_iff]
        omega
      rw [if_pos hNone, List.countP_cons_of_neg hMeets]
      exact ih
    · have hMeets : meets lo hi e = true := by
        rw [meets_iff]
        omega
      rw [if_neg hNone, List.countP_cons_of_pos hMeets]
      dsimp only
      rw [List.length_cons, ih]

theorem length_clipWords_le (src : List Extent) (lo hi rebase : Nat) :
    (clipWords src lo hi rebase).length ≤ src.length := by
  rw [length_clipWords]
  exact List.countP_le_length

/-- Clipping at two blocks makes at most two cuts. -/
theorem countP_three (h : Ordered l) {a b : Nat} (hab : a ≤ b) (top : Nat) :
    l.countP (meets 0 a) + l.countP (meets a b) + l.countP (meets b top) ≤ l.length + 2 := by
  have hCuts : l.countP (meets 0 a) + l.countP (meets a b) + l.countP (meets b top) ≤
      l.length + l.countP (cutAt a) + l.countP (cutAt b) := by
    clear h
    induction l with
    | nil => exact Nat.le_refl _
    | cons e l ih =>
      simp only [List.countP_cons, List.length_cons, meets_iff, cutAt_iff]
      split_ifs <;> omega
  have hA := countP_cutAt (x := a) h
  have hB := countP_cutAt (x := b) h
  omega

/-- A range that ends before it starts has no blocks. -/
theorem countP_meets_empty (h : hi ≤ lo) : l.countP (meets lo hi) = 0 := by
  rw [List.countP_eq_zero]
  intro e _ hMeets
  have := meets_iff.mp hMeets
  omega

end Sorted

--
-- Subtracting a mask
--

/-- The mask begins inside `(s, en)`. -/
def beginsIn (s en : Nat) (m : Extent) : Bool := decide (s < m.offset) && decide (m.offset < en)

theorem beginsIn_iff {s en : Nat} {m : Extent} :
    beginsIn s en m = true ↔ s < m.offset ∧ m.offset < en := by
  unfold beginsIn
  rw [Bool.and_eq_true, decide_eq_true_eq, decide_eq_true_eq]

/-- A piece is cut off only before a mask that begins inside the extent. -/
theorem length_subtractMaskWords (e : Extent) (en rebase s : Nat) :
    ∀ (mask : List Extent) (cur : Nat), s ≤ cur →
      (subtractMaskWords e en rebase mask cur).length ≤ 1 + mask.countP (beginsIn s en) := by
  intro mask
  induction mask with
  | nil =>
    intro cur _
    unfold subtractMaskWords
    split_ifs
    · exact Nat.le_refl _
    · exact Nat.zero_le _
  | cons m mask ih =>
    intro cur hCur
    have hMore : mask.countP (beginsIn s en) ≤ (m :: mask).countP (beginsIn s en) :=
      (List.sublist_cons_self m mask).countP_le
    unfold subtractMaskWords
    split_ifs with hDone hBefore hAfter hGap
    · exact Nat.zero_le _
    · exact Nat.le_trans (ih cur hCur) (Nat.add_le_add_left hMore 1)
    · rw [List.length_singleton]
      exact Nat.le_add_right _ _
    · have hIn : beginsIn s en m = true := by
        rw [beginsIn_iff]
        omega
      have hRest := ih (min (endWord m) en) (by omega)
      rw [List.length_append, List.length_singleton, List.countP_cons_of_pos hIn]
      omega
    · rw [List.nil_append]
      exact Nat.le_trans (ih _ (by omega)) (Nat.add_le_add_left hMore 1)

/-- The masks that begin inside the part of the extent in `[lo, hi)`. -/
def cutsOf (lo hi : Nat) (e m : Extent) : Bool := beginsIn (max e.offset lo) (min (endWord e) hi) m

/-- One piece for each extent in the range, and one for each mask that begins inside of one. -/
theorem length_subtractWords (src : List Extent) (lo hi : Nat) (mask : List Extent)
    (rebase : Nat) :
    (subtractWords src lo hi mask rebase).length ≤
      src.countP (meets lo hi) + (src.map fun e => mask.countP (cutsOf lo hi e)).sum := by
  induction src with
  | nil => exact Nat.le_refl _
  | cons e src ih =>
    unfold subtractWords at ih ⊢
    rw [List.flatMap_cons, List.length_append, List.map_cons, List.sum_cons]
    dsimp only at ih ⊢
    by_cases hNone : min (endWord e) hi ≤ max e.offset lo
    · have hMeets : ¬ meets lo hi e = true := by
        rw [meets_iff]
        omega
      rw [if_pos hNone, List.countP_cons_of_neg hMeets, List.length_nil]
      omega
    · have hMeets : meets lo hi e = true := by
        rw [meets_iff]
        omega
      have hHere : (subtractMaskWords e (min (endWord e) hi) rebase mask (max e.offset lo)).length ≤
          1 + mask.countP (cutsOf lo hi e) :=
        length_subtractMaskWords e _ rebase (max e.offset lo) mask _ (Nat.le_refl _)
      rw [if_neg hNone, List.countP_cons_of_pos hMeets]
      omega

/-- A mask begins inside of one extent. -/
theorem sum_cutsOf_le {src : List Extent} (h : Ordered src) (lo hi : Nat) (mask : List Extent) :
    (src.map fun e => mask.countP (cutsOf lo hi e)).sum ≤ mask.length := by
  rw [sum_countP_comm (cutsOf lo hi)]
  have hOne : ∀ m ∈ mask, src.countP (fun e => cutsOf lo hi e m) ≤ 1 := by
    intro m _
    refine Nat.le_trans (List.countP_mono_left fun e _ he => ?_)
      (countP_cutAt (x := m.offset) h)
    obtain ⟨hLow, hHigh⟩ := beginsIn_iff.mp he
    exact cutAt_iff.mpr ⟨by omega, by omega⟩
  have hSum := sum_map_le hOne
  rwa [Nat.mul_one] at hSum

/-- No mask begins inside an extent. -/
theorem sum_cutsOf_eq {src mask : List Extent} {lo hi : Nat}
    (h : ∀ e ∈ src, ∀ m ∈ mask, cutsOf lo hi e m = true → False) :
    (src.map fun e => mask.countP (cutsOf lo hi e)).sum = 0 := by
  refine List.sum_eq_zero fun x hx => ?_
  obtain ⟨e, he, rfl⟩ := List.mem_map.mp hx
  exact List.countP_eq_zero.mpr fun m hm hCut => h e he m hm hCut

--
-- The masks
--

namespace Exch

section Masks

variable {r : Exch} {old1 old2 : List Extent} {m : Extent} {d : Nat}

theorem length_maskWords (r : Exch) (old1 : List Extent) :
    (r.maskWords old1).length ≤ old1.length + 1 := by
  unfold maskWords
  split_ifs
  · exact Nat.le_succ_of_le (List.length_filterMap_le _ _)
  · exact Nat.le_add_left _ _

theorem length_maskWords2 (r : Exch) (old1 : List Extent) :
    (r.maskWords2 old1).length ≤ old1.length + 1 := by
  unfold maskWords2
  split_ifs
  · exact Nat.le_succ_of_le (List.length_filterMap_le _ _)
  · exact Nat.le_add_left _ _

/-- The masks of an exchange of written blocks are parts of extents of the first file. -/
theorem mem_maskWords (hMode : r.written = true) (h : m ∈ r.maskWords old1) :
    ∃ e ∈ old1, meets r.o1 (r.cend r.o1) e = true ∧ m.offset = max e.offset r.o1 ∧
      m.stop = min (endWord e) (r.cend r.o1) := by
  unfold maskWords at h
  rw [if_pos hMode] at h
  obtain ⟨e, he, hPiece⟩ := List.mem_filterMap.mp h
  unfold maskWord at hPiece
  dsimp only at hPiece
  split_ifs at hPiece with hSkip
  push Not at hSkip
  obtain ⟨-, hLess⟩ := hSkip
  have hEnd : endWord e < 2 ^ 64 := Nat.mod_lt _ (Nat.two_pow_pos 64)
  have hWord : (max e.offset r.o1 + 0) % 2 ^ 64 = max e.offset r.o1 :=
    Nat.mod_eq_of_lt (by omega)
  obtain rfl := Option.some.inj hPiece
  refine ⟨e, he, meets_iff.mpr hLess, hWord, ?_⟩
  unfold Extent.stop
  rw [hWord]
  dsimp only
  omega

/-- The masks are disjoint and in order. -/
theorem ordered_maskWords (h : Ordered old1) : Ordered (r.maskWords old1) := by
  unfold maskWords
  split_ifs
  · refine List.Pairwise.filterMap _ (fun a b hab m hm n hn => ?_) h
    unfold maskWord at hm hn
    dsimp only at hm hn
    split_ifs at hm with hSkip
    split_ifs at hn with hSkip'
    push Not at hSkip hSkip'
    have hEnd := endWord_le a
    have hEndB : endWord b < 2 ^ 64 := Nat.mod_lt _ (Nat.two_pow_pos 64)
    have hEndA : endWord a < 2 ^ 64 := Nat.mod_lt _ (Nat.two_pow_pos 64)
    obtain rfl := Option.some.inj hm
    obtain rfl := Option.some.inj hn
    unfold Extent.stop
    dsimp only
    rw [Nat.add_zero, Nat.add_zero, Nat.mod_eq_of_lt (by omega), Nat.mod_eq_of_lt (by omega)]
    omega
  · exact List.pairwise_singleton _ _

/-- No mask begins inside an extent of the first file. -/
theorem maskWords_whole (h : Ordered old1) {e : Extent} (he : e ∈ old1)
    (hm : m ∈ r.maskWords old1) : ¬ cutsOf r.o1 (r.cend r.o1) e m = true := by
  intro hCut
  obtain ⟨hLow, hHigh⟩ := beginsIn_iff.mp hCut
  by_cases hMode : r.written = true
  · obtain ⟨e', he', hMeets, hOff, -⟩ := mem_maskWords hMode hm
    have hLess := meets_iff.mp hMeets
    have hEnd := endWord_le e
    have hEnd' := endWord_le e'
    rcases ordered_cases h he he' with rfl | hBefore | hAfter
    · omega
    · omega
    · omega
  · unfold maskWords at hm
    rw [if_neg hMode, List.mem_singleton] at hm
    subst hm
    dsimp only at hLow
    omega

/-- A mask of written blocks meets one extent of the first file. -/
theorem countP_mask_own (h : Ordered old1) (hMode : r.written = true)
    (hm : m ∈ r.maskWords old1) : old1.countP (meets m.offset (endWord m)) ≤ 1 := by
  obtain ⟨e', he', hMeets', hOff, hStop⟩ := mem_maskWords hMode hm
  have hLess := meets_iff.mp hMeets'
  have hEndM := endWord_le m
  have hEnd' := endWord_le e'
  refine Nat.le_trans (List.countP_mono_left fun e he hMeets => ?_)
    (countP_holdsWord (x := m.offset) h)
  have hHere := meets_iff.mp hMeets
  have hEnd := endWord_le e
  rcases ordered_cases h he he' with rfl | hBefore | hAfter
  · exact holdsWord_iff.mpr ⟨by omega, by omega⟩
  · omega
  · omega

/-- The blocks of a moved mask are the moved blocks of the mask. -/
theorem moved_block {s en d x : Nat} (hLe : s ≤ en) (hLow : (s + d) % 2 ^ 64 ≤ x)
    (hHigh : x < (en + d) % 2 ^ 64) :
    ∃ y, s ≤ y ∧ y < en ∧ (y + d) % 2 ^ 64 = x := by
  refine ⟨s + (x - (s + d) % 2 ^ 64), by omega, by omega, by omega⟩

/-- A block is in one moved mask. -/
theorem countP_moved (h : Ordered old1) (hMode : r.written = true) (d x : Nat) :
    (r.maskWords old1).countP (fun m => decide ((m.offset + d) % 2 ^ 64 ≤ x) &&
      decide (x < (endWord m + d) % 2 ^ 64)) ≤ 1 := by
  have hWords : ∀ m ∈ r.maskWords old1, m.offset ≤ m.stop ∧ m.stop < 2 ^ 64 := by
    intro m hm
    obtain ⟨e, -, hMeets, hOff, hStop⟩ := mem_maskWords hMode hm
    have hLess := meets_iff.mp hMeets
    have hEnd : endWord e < 2 ^ 64 := Nat.mod_lt _ (Nat.two_pow_pos 64)
    omega
  apply countP_le_one
  refine List.Pairwise.imp_of_mem (fun {a b} ha hb hab hInA hInB => ?_)
    (ordered_maskWords (r := r) h)
  obtain ⟨hLeA, hWordA⟩ := hWords a ha
  obtain ⟨hLeB, hWordB⟩ := hWords b hb
  rw [Bool.and_eq_true, decide_eq_true_eq, decide_eq_true_eq] at hInA hInB
  unfold endWord at hInA hInB
  rw [Nat.mod_eq_of_lt hWordA] at hInA
  rw [Nat.mod_eq_of_lt hWordB] at hInB
  obtain ⟨y, hyLow, hyHigh, hy⟩ := moved_block hLeA hInA.1 hInA.2
  obtain ⟨z, hzLow, hzHigh, hz⟩ := moved_block hLeB hInB.1 hInB.2
  omega

/-- The pieces of the second file under the moved masks: each begins with an extent or with a
mask. -/
theorem length_moved (h1 : Ordered old1) (h2 : Ordered old2) (hMode : r.written = true)
    (d rebase : Nat) :
    ((r.maskWords old1).flatMap fun m => clipWords old2 ((m.offset + d) % 2 ^ 64)
      ((endWord m + d) % 2 ^ 64) rebase).length ≤ old2.length + (r.maskWords old1).length := by
  let begins (m e : Extent) : Bool := decide ((m.offset + d) % 2 ^ 64 ≤ e.offset) &&
    decide (e.offset < (endWord m + d) % 2 ^ 64)
  let cuts (m e : Extent) : Bool := cutAt ((m.offset + d) % 2 ^ 64) e
  have hPieces : ∀ ms : List Extent, (ms.flatMap fun m => clipWords old2 ((m.offset + d) % 2 ^ 64)
      ((endWord m + d) % 2 ^ 64) rebase).length ≤ (ms.map fun m => old2.countP (begins m)).sum +
        (ms.map fun m => old2.countP (cuts m)).sum := by
    intro ms
    induction ms with
    | nil => exact Nat.le_refl _
    | cons m ms ih =>
      have hEach : old2.countP (meets ((m.offset + d) % 2 ^ 64) ((endWord m + d) % 2 ^ 64)) ≤
          old2.countP (begins m) + old2.countP (cuts m) := by
        clear ih h2
        induction old2 with
        | nil => exact Nat.le_refl _
        | cons e old2 ih =>
          simp only [List.countP_cons, meets_iff, begins, cuts, cutAt_iff, Bool.and_eq_true,
            decide_eq_true_eq] at ih ⊢
          split_ifs <;> omega
      rw [List.flatMap_cons, List.length_append, length_clipWords, List.map_cons, List.sum_cons,
        List.map_cons, List.sum_cons]
      omega
  have hBegins : ((r.maskWords old1).map fun m => old2.countP (begins m)).sum ≤
      old2.length * 1 := by
    rw [sum_countP_comm begins]
    exact sum_map_le fun e _ => countP_moved h1 hMode d e.offset
  have hCuts : ((r.maskWords old1).map fun m => old2.countP (cuts m)).sum ≤
      (r.maskWords old1).length * 1 := sum_map_le fun m _ => countP_cutAt h2
  have hAll := hPieces (r.maskWords old1)
  omega

--
-- The new lists of an exchange
--

/-- No written block is exchanged if the end of the range wraps around. -/
theorem maskWords_wrapped (hMode : r.written = true) (hWrap : r.cend r.o1 < r.o1) :
    r.maskWords old1 = [] := by
  rw [List.eq_nil_iff_forall_not_mem]
  intro m hm
  obtain ⟨e, -, hMeets, -⟩ := mem_maskWords hMode hm
  have hLess := meets_iff.mp hMeets
  omega

theorem length_maskWords_written (hMode : r.written = true) :
    (r.maskWords old1).length ≤ old1.length := by
  unfold maskWords
  rw [if_pos hMode]
  exact List.length_filterMap_le _ _

theorem maskWords_single (hMode : ¬ r.written = true) :
    r.maskWords old1 = [⟨r.o1, 0, diffWord (r.cend r.o1) r.o1, 0⟩] := by
  unfold maskWords
  rw [if_neg hMode]

/-- What the first file keeps outside of the range and what it gets. -/
theorem length_got1 (h1 : Ordered old1) (h2 : Ordered old2) :
    old1.countP (meets 0 r.o1) + old1.countP (meets r.o1 (r.cend r.o1)) +
      ((r.maskWords old1).flatMap fun m =>
        clipWords old2 ((m.offset + diffWord r.o2 r.o1) % 2 ^ 64)
          ((endWord m + diffWord r.o2 r.o1) % 2 ^ 64) (diffWord r.o1 r.o2)).length +
      old1.countP (meets (r.cend r.o1) (2 ^ 64 - 1)) ≤ 2 * (old1.length + old2.length) + 2 := by
  have hLow : old1.countP (meets 0 r.o1) ≤ old1.length := List.countP_le_length
  have hHigh : old1.countP (meets (r.cend r.o1) (2 ^ 64 - 1)) ≤ old1.length :=
    List.countP_le_length
  by_cases hMode : r.written = true
  · have hGot := length_moved h1 h2 hMode (diffWord r.o2 r.o1) (diffWord r.o1 r.o2)
    have hMask : (r.maskWords old1).length ≤ old1.length := length_maskWords_written hMode
    rcases Nat.lt_or_ge (r.cend r.o1) r.o1 with hWrap | hLe
    · have hNone := countP_meets_empty (l := old1) (Nat.le_of_lt hWrap)
      rw [maskWords_wrapped hMode hWrap] at hGot ⊢
      rw [List.length_nil] at hGot
      omega
    · have hKept := countP_three h1 hLe (2 ^ 64 - 1)
      omega
  · have hGot := length_clipWords_le old2 ((r.o1 + diffWord r.o2 r.o1) % 2 ^ 64)
      ((endWord ⟨r.o1, 0, diffWord (r.cend r.o1) r.o1, 0⟩ + diffWord r.o2 r.o1) % 2 ^ 64)
      (diffWord r.o1 r.o2)
    rw [maskWords_single hMode, List.flatMap_cons, List.flatMap_nil, List.append_nil]
    dsimp only
    rcases Nat.lt_or_ge (r.cend r.o1) r.o1 with hWrap | hLe
    · have hNone := countP_meets_empty (l := old1) (Nat.le_of_lt hWrap)
      omega
    · have hKept := countP_three h1 hLe (2 ^ 64 - 1)
      omega

/-- The bound of `new1`. -/
theorem length_newWords1 (h1 : Ordered old1) (h2 : Ordered old2) :
    (r.newWords1 old1 old2).length ≤ 2 * (old1.length + old2.length) + 8 := by
  have hGot := length_got1 (r := r) h1 h2
  have hSub := length_subtractWords old1 r.o1 (r.cend r.o1) (r.maskWords old1) 0
  rw [sum_cutsOf_eq fun e he m hm => maskWords_whole h1 he hm] at hSub
  unfold newWords1
  simp only [List.length_append, length_clipWords old1]
  omega

/-- What the first file gives to the second one. -/
theorem length_given (h1 : Ordered old1) (rebase : Nat) :
    ((r.maskWords old1).flatMap fun m => clipWords old1 m.offset (endWord m) rebase).length ≤
      old1.length := by
  by_cases hMode : r.written = true
  · have hSum := sum_map_le (b := 1) (l := r.maskWords old1)
      (f := fun m => (clipWords old1 m.offset (endWord m) rebase).length) fun m hm => by
        rw [length_clipWords]
        exact countP_mask_own h1 hMode hm
    have hMask : (r.maskWords old1).length ≤ old1.length := length_maskWords_written hMode
    rw [List.length_flatMap]
    omega
  · rw [maskWords_single hMode, List.flatMap_cons, List.flatMap_nil, List.append_nil]
    exact length_clipWords_le _ _ _ _

/-- The masks cut few extents of the second file. -/
theorem sum_cutsOf_mask2 (h2 : Ordered old2) :
    (old2.map fun e => (r.maskWords2 old1).countP (cutsOf r.o2 (r.cend r.o2) e)).sum ≤
      old1.length := by
  by_cases hMode : r.written = true
  · refine Nat.le_trans (sum_cutsOf_le h2 _ _ _) ?_
    unfold maskWords2
    rw [if_pos hMode]
    exact List.length_filterMap_le _ _
  · rw [sum_cutsOf_eq]
    · exact Nat.zero_le _
    · intro e _ m hm hCut
      unfold maskWords2 at hm
      rw [if_neg hMode, List.mem_singleton] at hm
      obtain ⟨hLow, -⟩ := beginsIn_iff.mp hCut
      subst hm
      dsimp only at hLow
      omega

/-- The bound of `new2`. -/
theorem length_newWords2 (h1 : Ordered old1) (h2 : Ordered old2) :
    (r.newWords2 old1 old2).length ≤ 2 * (old1.length + old2.length) + 8 := by
  have hSub := length_subtractWords old2 r.o2 (r.cend r.o2) (r.maskWords2 old1) 0
  have hCuts : (old2.map fun e =>
      (r.maskWords2 old1).countP (cutsOf r.o2 (r.cend r.o2) e)).sum ≤ old1.length :=
    sum_cutsOf_mask2 h2
  have hGiven := length_given (r := r) h1 (diffWord r.o2 r.o1)
  have hLow : old2.countP (meets 0 r.o2) ≤ old2.length := List.countP_le_length
  have hHigh : old2.countP (meets (r.cend r.o2) (2 ^ 64 - 1)) ≤ old2.length :=
    List.countP_le_length
  unfold newWords2
  simp only [List.length_append, length_clipWords old2]
  rcases Nat.lt_or_ge (r.cend r.o2) r.o2 with hWrap | hLe
  · have hNone := countP_meets_empty (l := old2) (Nat.le_of_lt hWrap)
    omega
  · have hKept := countP_three h2 hLe (2 ^ 64 - 1)
    omega

end Masks

end Exch

/-- The bound of `new` in `briefs_exch_engine_same`. -/
theorem length_sameWords (old : List Extent) (o1 o2 len : Nat) :
    (sameWords old o1 o2 len).length ≤ 5 * old.length := by
  have hClip := fun lo hi rebase => length_clipWords_le old lo hi rebase
  have h1 := hClip 0 (min o1 o2) 0
  have h2 := hClip (max o1 o2) ((max o1 o2 + len) % 2 ^ 64) (diffWord (min o1 o2) (max o1 o2))
  have h3 := hClip ((min o1 o2 + len) % 2 ^ 64) (max o1 o2) 0
  have h4 := hClip (min o1 o2) ((min o1 o2 + len) % 2 ^ 64) (diffWord (max o1 o2) (min o1 o2))
  have h5 := hClip ((max o1 o2 + len) % 2 ^ 64) (2 ^ 64 - 1) 0
  unfold sameWords
  simp only [List.length_append]
  omega

--
-- Zeroing a range
--

section Zeroing

variable {r : Punch}

theorem length_zeroAllocEach : ∀ (n block : Nat) (f : Btree.File),
    (zeroAllocEach n block f).got.length ≤ n := by
  intro n
  induction n with
  | zero => exact fun _ _ => Nat.le_refl _
  | succ n ih =>
    intro block f
    unfold zeroAllocEach
    dsimp only
    split_ifs
    · exact Nat.zero_le _
    · rw [List.length_cons]
      exact Nat.succ_le_succ (ih _ _)

/-- A hole takes one entry, or one for each of its blocks. -/
theorem length_zeroAllocHole (f : Btree.File) {lo hi : Nat} (hLt : lo < hi) :
    (zeroAllocHole f lo hi).got.length ≤ hi - lo := by
  unfold zeroAllocHole
  dsimp only
  split_ifs
  · rw [List.length_singleton]
    omega
  · exact length_zeroAllocEach _ _ _

/-- The extent is cut at block `x`. -/
def splitAt (x : Nat) (e : Extent) : Bool := decide (e.offset < x) && decide (x < e.stop)

theorem splitAt_iff {x : Nat} {e : Extent} : splitAt x e = true ↔ e.offset < x ∧ x < e.stop := by
  unfold splitAt
  rw [Bool.and_eq_true, decide_eq_true_eq, decide_eq_true_eq]

theorem countP_splitAt {l : List Extent} (h : Ordered l) (x : Nat) : l.countP (splitAt x) ≤ 1 := by
  apply countP_le_one
  refine List.Pairwise.imp (fun {a b} hab ha hb => ?_) h
  obtain ⟨-, ha⟩ := splitAt_iff.mp ha
  obtain ⟨hb, -⟩ := splitAt_iff.mp hb
  omega

/-- An extent has one entry more for each end of the range that is inside of it. -/
theorem length_converted (e : Extent) :
    (r.converted e).length ≤ 1 + [e].countP (splitAt r.sFull) + [e].countP (splitAt r.eFull) := by
  unfold Punch.converted
  simp only [List.countP_cons, List.countP_nil, splitAt_iff]
  split_ifs <;> simp only [List.length_append, List.length_cons, List.length_nil] <;> omega

/-- The loop writes an entry for each extent and cut, and at most one for each block that is not
yet passed. -/
theorem length_zeroLoop_cuts : ∀ (l : List Extent) (cursor : Nat) (f : Btree.File),
    (zeroLoop r l cursor f).new.length ≤ l.length + l.countP (splitAt r.sFull) +
      l.countP (splitAt r.eFull) + (r.eFull - cursor) ∧
    (zeroLoop r l cursor f).allocd.length ≤ r.eFull - cursor := by
  intro l
  induction l with
  | nil =>
    intro cursor f
    unfold zeroLoop
    split_ifs with hLess
    · have hHole := length_zeroAllocHole f hLess
      dsimp only
      exact ⟨Nat.le_trans hHole (Nat.le_add_left _ _), hHole⟩
    · exact ⟨Nat.zero_le _, Nat.zero_le _⟩
  | cons e l ih =>
    intro cursor f
    have hConv := length_converted (r := r) e
    have hS : (e :: l).countP (splitAt r.sFull) =
        [e].countP (splitAt r.sFull) + l.countP (splitAt r.sFull) :=
      (List.countP_append : ([e] ++ l).countP _ = _)
    have hE : (e :: l).countP (splitAt r.eFull) =
        [e].countP (splitAt r.eFull) + l.countP (splitAt r.eFull) :=
      (List.countP_append : ([e] ++ l).countP _ = _)
    have hStop := e.offset_le_stop
    unfold zeroLoop
    dsimp only
    have hHole : ((if cursor < min e.offset r.eFull then
        zeroAllocHole f cursor (min e.offset r.eFull) else ⟨none, [], f⟩ : Grab).got).length ≤
          min e.offset r.eFull - cursor := by
      split_ifs with hLess
      · exact length_zeroAllocHole f hLess
      · exact Nat.zero_le _
    generalize (if cursor < min e.offset r.eFull then
      zeroAllocHole f cursor (min e.offset r.eFull) else ⟨none, [], f⟩ : Grab) = hole at hHole
    have hRest := ih (max cursor (min e.stop r.eFull)) hole.file
    rw [List.length_cons, hS, hE]
    cases hole.ret with
    | some err =>
      dsimp only
      constructor
      · omega
      · omega
    | none =>
      dsimp only
      simp only [List.length_append]
      constructor
      · omega
      · omega

/-- The bounds of `new` and `allocd` in `briefs_do_zero_range`. -/
theorem length_zeroLoop {l : List Extent} (h : Ordered l) (f : Btree.File) :
    (zeroLoop r l r.sFull f).new.length ≤ l.length + 2 + (r.eFull - r.sFull) ∧
      (zeroLoop r l r.sFull f).allocd.length ≤ r.eFull - r.sFull := by
  obtain ⟨hNew, hAllocd⟩ := length_zeroLoop_cuts l r.sFull f (r := r)
  have hS := countP_splitAt h r.sFull
  have hE := countP_splitAt h r.eFull
  exact ⟨by omega, hAllocd⟩

end Zeroing

--
-- Sums that do not wrap around
--

section Words

variable {l mask : List Extent} {r : Exch} {old1 old2 : List Extent}

theorem endWord_eq {e : Extent} (h : e.stop < 2 ^ 64) : endWord e = e.stop := Nat.mod_eq_of_lt h

theorem clipWords_eq (h : ∀ e ∈ l, e.stop < 2 ^ 64) (lo hi rebase : Nat) :
    clipWords l lo hi rebase = emitClipped l lo hi rebase := by
  unfold clipWords emitClipped
  apply List.filterMap_congr
  intro e he
  rw [endWord_eq (h e he)]

theorem subtractMaskWords_eq (e : Extent) (en rebase : Nat) (h : ∀ m ∈ mask, m.stop < 2 ^ 64) :
    ∀ cur, subtractMaskWords e en rebase mask cur = subtractMask e en rebase mask cur := by
  induction mask with
  | nil => exact fun _ => rfl
  | cons m mask ih =>
    intro cur
    obtain ⟨hHere, hRest⟩ := List.forall_mem_cons.mp h
    unfold subtractMaskWords subtractMask
    rw [endWord_eq hHere, ih hRest, ih hRest]

theorem subtractWords_eq (h : ∀ e ∈ l, e.stop < 2 ^ 64) (hMask : ∀ m ∈ mask, m.stop < 2 ^ 64)
    (lo hi rebase : Nat) : subtractWords l lo hi mask rebase = emitSubtract l lo hi mask rebase := by
  unfold subtractWords emitSubtract
  rw [List.flatMap_def, List.flatMap_def]
  congr 1
  apply List.map_congr_left
  intro e he
  dsimp only
  rw [endWord_eq (h e he), subtractMaskWords_eq _ _ _ hMask]

/-- The list of an exchange in one file. -/
theorem sameWords_eq (h : ∀ e ∈ l, e.stop < 2 ^ 64) (o1 o2 len : Nat) :
    sameWords l o1 o2 len = sameList l o1 o2 len := by
  unfold sameWords sameList
  simp only [clipWords_eq h]

theorem maskWords_eq (h : ∀ e ∈ old1, e.stop < 2 ^ 64) : r.maskWords old1 = r.mask old1 := by
  unfold Exch.maskWords Exch.mask
  have hEach : old1.filterMap (r.maskWord 0) = old1.filterMap (r.maskPiece 0) :=
    List.filterMap_congr fun e he => by
      unfold Exch.maskWord Exch.maskPiece
      rw [endWord_eq (h e he)]
  rw [hEach]

theorem maskWords2_eq (h : ∀ e ∈ old1, e.stop < 2 ^ 64) : r.maskWords2 old1 = r.mask2 old1 := by
  unfold Exch.maskWords2 Exch.mask2
  have hEach : old1.filterMap (r.maskWord (diffWord r.o2 r.o1)) =
      old1.filterMap (r.maskPiece (diffWord r.o2 r.o1)) :=
    List.filterMap_congr fun e he => by
      unfold Exch.maskWord Exch.maskPiece
      rw [endWord_eq (h e he)]
  rw [hEach]

/-- The new list of the first file. -/
theorem newWords1_eq (h1 : ∀ e ∈ old1, e.stop < 2 ^ 64) (h2 : ∀ e ∈ old2, e.stop < 2 ^ 64)
    (hMask : ∀ m ∈ r.mask old1, m.stop < 2 ^ 64) :
    r.newWords1 old1 old2 = r.new1 old1 old2 := by
  unfold Exch.newWords1 Exch.new1
  rw [maskWords_eq h1, clipWords_eq h1, clipWords_eq h1, subtractWords_eq h1 hMask]
  congr 2
  rw [List.flatMap_def, List.flatMap_def]
  congr 1
  apply List.map_congr_left
  intro m hm
  rw [clipWords_eq h2, endWord_eq (hMask m hm)]

/-- The new list of the second file. -/
theorem newWords2_eq (h1 : ∀ e ∈ old1, e.stop < 2 ^ 64) (h2 : ∀ e ∈ old2, e.stop < 2 ^ 64)
    (hMask2 : ∀ m ∈ r.mask2 old1, m.stop < 2 ^ 64) :
    r.newWords2 old1 old2 = r.new2 old1 old2 := by
  unfold Exch.newWords2 Exch.new2
  rw [maskWords_eq h1, maskWords2_eq h1, clipWords_eq h2, clipWords_eq h2,
    subtractWords_eq h2 hMask2]
  congr 2
  rw [List.flatMap_def, List.flatMap_def]
  congr 1
  apply List.map_congr_left
  intro m _
  rw [clipWords_eq h1]
  rfl

end Words

--
-- The sizes
--

/-- Every array is large enough: the masks and the new lists of an exchange between two inodes,
the new list of an exchange in one, and the lists of zeroing a range, also when the loop stops at
an allocation that fails. -/
theorem temporary_arrays_fit (old1 old2 : List Extent) (h1 : Ordered old1) (h2 : Ordered old2) :
    (∀ r : Exch, (r.maskWords old1).length ≤ old1.length + 2 ∧
      (r.maskWords2 old1).length ≤ old1.length + 2 ∧
      (r.newWords1 old1 old2).length ≤ 2 * (old1.length + old2.length) + 8 ∧
      (r.newWords2 old1 old2).length ≤ 2 * (old1.length + old2.length) + 8) ∧
    (∀ o1 o2 len, (sameWords old1 o1 o2 len).length ≤ 6 * old1.length + 8) ∧
    ∀ (r : Punch) (f : Btree.File), r.sFull < r.eFull →
      (zeroLoop r old1 r.sFull f).new.length ≤ old1.length * 2 + (r.eFull - r.sFull) + 2 ∧
      (zeroLoop r old1 r.sFull f).allocd.length ≤ (r.eFull - r.sFull) + 1 := by
  refine ⟨fun r => ?_, fun o1 o2 len => ?_, fun r f _ => ?_⟩
  · have hMask := r.length_maskWords old1
    have hMask2 := r.length_maskWords2 old1
    exact ⟨by omega, by omega, Exch.length_newWords1 h1 h2, Exch.length_newWords2 h1 h2⟩
  · have hSame := length_sameWords old1 o1 o2 len
    omega
  · obtain ⟨hNew, hAllocd⟩ := length_zeroLoop (r := r) h1 f
    exact ⟨by omega, by omega⟩

/-- Two files with a hole each. -/
theorem temporary_arrays_fit_holes :
    (∀ r : Exch, (r.newWords2 [⟨0, 50, 2, 0⟩, ⟨4, 60, 3, 1⟩] [⟨1, 70, 5, 0⟩]).length ≤ 14) ∧
      Ordered [⟨0, 50, 2, 0⟩, ⟨4, 60, 3, 1⟩] ∧ Ordered [⟨1, 70, 5, 0⟩] := by
  have h1 : Ordered [⟨0, 50, 2, 0⟩, ⟨4, 60, 3, 1⟩] :=
    List.pairwise_pair.mpr (by decide)
  have h2 : Ordered [⟨1, 70, 5, 0⟩] := List.pairwise_singleton _ _
  exact ⟨fun r => ((temporary_arrays_fit _ _ h1 h2).1 r).2.2.2, h1, h2⟩

end Briefs.File
