import Mathlib.Order.Interval.Finset.Nat
import Mathlib.Algebra.Order.BigOperators.Group.Finset
import Briefs.Alloc.Sync
import Briefs.Trie.Nodes

/-!
# BrieFS — the name heap of a trie page

The names of a page (`trie_page.c`) lie in a heap that only grows: a freed node leaves its
bytes behind, a node that gets a longer name takes new ones, and a node that gets a shorter
name stays where it is. When the heap is full, `trie_page_compact_names` copies the names of
the live slots to a scratch buffer and writes them back one after the other.

The invariant speaks of the live slots alone. It is kept by every function that stores into
a page, in any order; the nodes that get a name have to be in use. Since the names are
disjoint and lie in the heap, their lengths add up to no more than its size: no check of a
compaction ever fails, and what it frees is everything that no live name takes.

## Results

* `Page.Tidy` — the invariant.
* `page_invariant` — it holds after every sequence of operations, and a name that is stored
  changes no other one.
* `compaction_complete` — a compaction keeps every name and leaves no gap; a name fits iff the
  live names leave room for it.
-/

namespace Briefs.Trie

open TrieM

--
-- The invariant
--

/-- The slot is in use and has a name. -/
def Page.Bears (p : Page) (s : Nat) : Prop := p.free s = false ∧ (p.slots s).nameLen ≠ 0

/-- What holds of a trie page: the header counts the clear bits of the slot map, the heap ends
above the slots, and the names of live slots lie in the heap and do not overlap. -/
structure Page.Tidy (p : Page) : Prop where
  counts : p.Counts
  inside : ∀ s < 64, p.Bears s →
    (p.slots s).nameLen ≤ (p.slots s).nameOffset ∧ (p.slots s).nameOffset ≤ p.freeNameOff
  apart  : ∀ s < 64, ∀ t < 64, s ≠ t → p.Bears s → p.Bears t → (p.slots s).Apart (p.slots t)

/-- The sum of the lengths of the live names. -/
def Page.liveNames (p : Page) : Nat :=
  ∑ s ∈ (Finset.range 64).filter fun s => p.free s = false, (p.slots s).nameLen

/-- The slot has the name it had, byte by byte, wherever it lies. -/
structure Page.KeepsName (p q : Page) (s : Nat) : Prop where
  free  : q.free s = p.free s
  len   : (q.slots s).nameLen = (p.slots s).nameLen
  bytes : q.nameRegion s = p.nameRegion s

section Tidy

variable {p q : Page} {slot s : Nat}

theorem Page.KeepsName.refl (p : Page) (s : Nat) : p.KeepsName p s := ⟨rfl, rfl, rfl⟩

theorem Page.KeepsName.trans {r : Page} (h : p.KeepsName q s) (h' : q.KeepsName r s) :
    p.KeepsName r s :=
  ⟨h'.free.trans h.free, h'.len.trans h.len, h'.bytes.trans h.bytes⟩

/-- A name in a heap that has kept its bytes. -/
theorem Page.keepsName_of_slot (hFree : q.free s = p.free s) (hSlot : q.slots s = p.slots s)
    (hHeap : ∀ i < (p.slots s).nameLen,
      q.heap ((p.slots s).nameOffset - i) = p.heap ((p.slots s).nameOffset - i)) :
    p.KeepsName q s := by
  refine ⟨hFree, by rw [hSlot], ?_⟩
  unfold Page.nameRegion
  rw [hSlot]
  exact List.map_congr_left fun i hi => hHeap i (List.mem_range.mp hi)

/-- A live name is one that the compaction copies. -/
theorem Page.Tidy.named_iff (h : p.Tidy) (hs : s < 64) : p.named s = true ↔ p.Bears s := by
  rw [Page.named_iff]
  constructor
  · exact fun hAll => ⟨hAll.1, hAll.2.2⟩
  · intro hBears
    have hInside := (h.inside s hs hBears).1
    have hLen := hBears.2
    exact ⟨hBears.1, by omega, hLen⟩

/-- The rule for a change of one slot: it ends up free or without a name, its name is a part of
the one it had, or lies past the old end of the heap. -/
theorem Page.Tidy.change (h : p.Tidy) (slot : Nat) (hCounts : q.Counts)
    (hSlots : ∀ s, s ≠ slot → q.slots s = p.slots s) (hFree : ∀ s, s ≠ slot → q.free s = p.free s)
    (hGrow : p.freeNameOff ≤ q.freeNameOff)
    (hFits : q.Bears slot →
      (p.free slot = false ∧ (q.slots slot).nameOffset = (p.slots slot).nameOffset ∧
        (q.slots slot).nameLen ≤ (p.slots slot).nameLen) ∨
      (p.freeNameOff + (q.slots slot).nameLen ≤ (q.slots slot).nameOffset ∧
        (q.slots slot).nameOffset ≤ q.freeNameOff)) (hSlot : slot < 64) : q.Tidy := by
  have hOther : ∀ s, s ≠ slot → q.Bears s → p.Bears s := by
    intro s hs hBears
    unfold Page.Bears at hBears ⊢
    rwa [hSlots s hs, hFree s hs] at hBears
  -- The new name against another one.
  have hNew : ∀ t < 64, t ≠ slot → q.Bears slot → q.Bears t →
      (q.slots slot).Apart (q.slots t) := by
    intro t ht hNe hHere hThere
    have hOld := hOther t hNe hThere
    have hBelow := (h.inside t ht hOld).2
    have hLen := hHere.2
    rw [hSlots t hNe]
    rcases hFits hHere with ⟨hLive, hOff, hShort⟩ | ⟨hPast, -⟩
    · have hBears : p.Bears slot := ⟨hLive, by omega⟩
      have hApart := h.apart slot hSlot t ht (Ne.symm hNe) hBears hOld
      unfold Slot.Apart at hApart ⊢
      omega
    · right
      omega
  refine ⟨hCounts, ?_, ?_⟩
  · intro s hs hBears
    by_cases hEq : s = slot
    · subst hEq
      rcases hFits hBears with ⟨hLive, hOff, hShort⟩ | ⟨hPast, hEnd⟩
      · have hLen := hBears.2
        have hInside := h.inside s hs ⟨hLive, by omega⟩
        omega
      · omega
    · have hInside := h.inside s hs (hOther s hEq hBears)
      rw [hSlots s hEq]
      omega
  · intro s hs t ht hNe hBearsS hBearsT
    by_cases hEqS : s = slot
    · subst hEqS
      exact hNew t ht (Ne.symm hNe) hBearsS hBearsT
    · by_cases hEqT : t = slot
      · subst hEqT
        have hApart := hNew s hs hEqS hBearsT hBearsS
        exact hApart.symm
      · rw [hSlots s hEqS, hSlots t hEqT]
        exact h.apart s hs t ht hNe (hOther s hEqS hBearsS) (hOther t hEqT hBearsT)

--
-- The live names fit in the heap
--

/-- The places of a name, counted from the end of the block. -/
def Page.span (p : Page) (s : Nat) : Finset Nat :=
  if p.named s then
    Finset.Ioc ((p.slots s).nameOffset - (p.slots s).nameLen) (p.slots s).nameOffset else ∅

theorem Page.Tidy.card_span (h : p.Tidy) (hs : s < 64) :
    (p.span s).card = if p.named s then (p.slots s).nameLen else 0 := by
  unfold Page.span
  split_ifs with hNamed
  · have hInside := (h.inside s hs ((h.named_iff hs).mp hNamed)).1
    rw [Nat.card_Ioc]
    omega
  · rfl

/-- The names of the slots below `k` take the places of their spans. -/
theorem Page.Tidy.packed_eq (h : p.Tidy) : ∀ k ≤ 64,
    p.packed k = ((Finset.range k).biUnion p.span).card := by
  intro k hk
  rw [Finset.card_biUnion]
  · induction k with
    | zero => rfl
    | succ k ih =>
      rw [p.packed_succ, Finset.sum_range_succ, ih (by omega), h.card_span (by omega)]
  · intro s hs t ht hNe
    have hs' := Finset.mem_range.mp hs
    have ht' := Finset.mem_range.mp ht
    show Disjoint (p.span s) (p.span t)
    unfold Page.span
    split_ifs with hNamedS hNamedT
    · have hBearsS := (h.named_iff (by omega)).mp hNamedS
      have hBearsT := (h.named_iff (by omega)).mp hNamedT
      have hApart := h.apart s (by omega) t (by omega) hNe hBearsS hBearsT
      have hInS := (h.inside s (by omega) hBearsS).1
      have hInT := (h.inside t (by omega) hBearsT).1
      unfold Slot.Apart at hApart
      rw [Finset.disjoint_left]
      intro d hd hd'
      rw [Finset.mem_Ioc] at hd hd'
      omega
    · exact Finset.disjoint_empty_right _
    · exact Finset.disjoint_empty_left _
    · exact Finset.disjoint_empty_left _

/-- Disjoint names in the heap take no more than the heap. -/
theorem Page.Tidy.packed_le_end (h : p.Tidy) {k : Nat} (hk : k ≤ 64) :
    p.packed k ≤ p.freeNameOff := by
  have hSub : (Finset.range k).biUnion p.span ⊆ Finset.Ioc 0 p.freeNameOff := by
    intro d hd
    obtain ⟨s, hs, hIn⟩ := Finset.mem_biUnion.mp hd
    have hs' := Finset.mem_range.mp hs
    unfold Page.span at hIn
    split_ifs at hIn with hNamed
    · have hInside := h.inside s (by omega) ((h.named_iff (by omega)).mp hNamed)
      rw [Finset.mem_Ioc] at hIn ⊢
      omega
    · exact absurd hIn (Finset.notMem_empty d)
  have hCard := Finset.card_le_card hSub
  rw [h.packed_eq k hk]
  rwa [Nat.card_Ioc, Nat.sub_zero] at hCard

/-- The checks of a compaction succeed. -/
theorem Page.Tidy.sane (h : p.Tidy) : p.sane = true := by
  unfold Page.sane
  rw [List.all_eq_true]
  intro s hs
  have hLt := List.mem_range.mp hs
  by_cases hNamed : p.named s = true
  · have hInside := h.inside s hLt ((h.named_iff hLt).mp hNamed)
    have hPacked := h.packed_le_end (show s + 1 ≤ 64 from hLt)
    rw [p.packed_named hNamed] at hPacked
    simp only [hNamed, Bool.not_true, Bool.false_or, Bool.and_eq_true, decide_eq_true_eq]
    exact ⟨⟨hInside.2, hInside.1⟩, hPacked⟩
  · rw [Bool.not_eq_true] at hNamed
    rw [hNamed]
    rfl

/-- What the compaction copies are the live names. -/
theorem Page.Tidy.packed_all (h : p.Tidy) : p.packed 64 = p.liveNames := by
  have hEach : ∀ k ≤ 64, p.packed k =
      ∑ s ∈ (Finset.range k).filter fun s => p.free s = false, (p.slots s).nameLen := by
    intro k hk
    induction k with
    | zero => rfl
    | succ k ih =>
      rw [p.packed_succ, ih (by omega), Finset.range_add_one, Finset.filter_insert]
      by_cases hNamed : p.named k = true
      · have hLive := ((p.named_iff k).mp hNamed).1
        rw [if_pos hNamed, if_pos hLive, Finset.sum_insert, Nat.add_comm]
        simp only [Finset.mem_filter, Finset.mem_range, Nat.lt_irrefl, false_and, not_false_eq_true]
      · rw [if_neg hNamed, Nat.add_zero]
        split_ifs with hLive
        · have hNone : (p.slots k).nameLen = 0 := by
            by_contra hLen
            exact hNamed ((h.named_iff (by omega)).mpr ⟨hLive, hLen⟩)
          rw [Finset.sum_insert, hNone, Nat.zero_add]
          simp only [Finset.mem_filter, Finset.mem_range, Nat.lt_irrefl, false_and,
            not_false_eq_true]
        · rfl
  exact hEach 64 (Nat.le_refl _)

end Tidy

--
-- Compaction
--

/-- The page after a step on its names: it is tidy, no slot changed hands, and the slots in `K`
have kept their names. -/
structure Page.Renamed (K : Nat → Prop) (p q : Page) : Prop where
  tidy  : q.Tidy
  free  : q.free = p.free
  names : ∀ s < 64, K s → p.KeepsName q s

section Compaction

variable {w : World} {b : Nat} {p q : Page}

theorem Page.Renamed.refl (h : p.Tidy) (K : Nat → Prop) : p.Renamed K p :=
  ⟨h, rfl, fun s _ _ => .refl p s⟩

theorem Page.Renamed.trans {K : Nat → Prop} {r : Page} (h : p.Renamed K q) (h' : q.Renamed K r) :
    p.Renamed K r :=
  ⟨h'.tidy, h'.free.trans h.free, fun s hs hK => (h.names s hs hK).trans (h'.names s hs hK)⟩

/-- The page with its names packed, once the end of the heap is set. -/
theorem Page.PackedTo.renamed (h : p.Tidy) (hq : p.PackedTo 64 q) :
    p.Renamed (fun s => p.free s = false) { q with freeNameOff := p.packed 64 } := by
  have hLen : ∀ s, (q.slots s).nameLen = (p.slots s).nameLen := fun s => by
    rw [hq.slots, Page.packedSlot_nameLen]
  -- Every live name has its place in the packed heap.
  have hPlace : ∀ s < 64, ({ q with freeNameOff := p.packed 64 } : Page).Bears s →
      (q.slots s).nameOffset = p.packed (s + 1) ∧
        p.packed (s + 1) = p.packed s + (q.slots s).nameLen := by
    rintro s hs ⟨hLive, hSome⟩
    dsimp only at hLive hSome
    rw [hq.free] at hLive
    rw [hLen] at hSome ⊢
    have hNamed := (h.named_iff hs).mpr ⟨hLive, hSome⟩
    refine ⟨?_, p.packed_named hNamed⟩
    rw [hq.slots]
    unfold Page.packedSlot
    rw [if_pos ⟨hs, hNamed⟩]
  refine ⟨⟨⟨?_, ?_⟩, ?_, ?_⟩, hq.free, ?_⟩
  · show q.liveCount = ((Finset.range 64).filter fun s => q.free s = false).card
    rw [hq.liveCount, hq.free]
    exact h.counts.count
  · exact (h.packed_le_end (Nat.le_refl 64)).trans h.counts.room
  · intro s hs hBears
    obtain ⟨hOff, hEnd⟩ := hPlace s hs hBears
    have hMono := p.packed_mono (show s + 1 ≤ 64 from hs)
    dsimp only
    omega
  · intro s hs t ht hNe hBearsS hBearsT
    obtain ⟨hOffS, hEndS⟩ := hPlace s hs hBearsS
    obtain ⟨hOffT, hEndT⟩ := hPlace t ht hBearsT
    unfold Slot.Apart
    dsimp only
    rcases Nat.lt_or_gt_of_ne hNe with hLt | hGt
    · have hMono := p.packed_mono (show s + 1 ≤ t from hLt)
      omega
    · have hMono := p.packed_mono (show t + 1 ≤ s from hGt)
      omega
  · intro s hs hLive
    refine ⟨congrFun hq.free s, hLen s, ?_⟩
    unfold Page.nameRegion
    dsimp only
    rw [hLen]
    refine List.map_congr_left fun i hi => ?_
    have hLt := List.mem_range.mp hi
    have hNamed := (h.named_iff hs).mpr ⟨hLive, by omega⟩
    have hOff : (q.slots s).nameOffset = p.packed (s + 1) := by
      rw [hq.slots]
      unfold Page.packedSlot
      rw [if_pos ⟨hs, hNamed⟩]
    rw [hOff]
    exact hq.names s hs hNamed i hLt

/-- An empty heap has no live names. -/
theorem Page.Tidy.liveNames_zero (h : p.Tidy) (hEnd : p.freeNameOff = 0) : p.liveNames = 0 := by
  have hLe := h.packed_le_end (Nat.le_refl 64)
  rw [h.packed_all] at hLe
  omega

/-- A compaction with memory for the scratch buffer: all live names stay, and the heap ends
after them. -/
theorem compactNames_page (hp : w.pages b = some p) (h : p.Tidy) (hMem : w.noScratch = false) :
    ∃ q w', compactNames b w = (.ok (), w') ∧ Edits b q w w' ∧
      p.Renamed (fun s => p.free s = false) q ∧ q.freeNameOff = p.liveNames := by
  unfold compactNames change
  simp only [hp]
  by_cases hEmpty : p.freeNameOff = 0
  · rw [if_pos (Or.inl hEmpty)]
    refine ⟨p, w, rfl, ⟨hp, fun _ _ => rfl, rfl, rfl, rfl, rfl⟩, .refl h _, ?_⟩
    rw [hEmpty, h.liveNames_zero hEmpty]
  · have hRuns : ¬ (p.freeNameOff = 0 ∨ w.noScratch = true ∨ p.sane = false) := by
      rw [hMem, h.sane]
      rintro (hZero | hNo | hNo)
      · exact hEmpty hZero
      · exact Bool.false_ne_true hNo
      · exact Bool.false_ne_true hNo.symm
    rw [if_neg hRuns]
    unfold packNames
    have hp' : ({ w with compactions := (b, p) :: w.compactions } : World).pages b = some p := hp
    obtain ⟨q, hq, hEdits⟩ := foldl_packSlot hp' 64
    generalize (List.range 64).foldl (fun w slot => packSlot b p slot w)
      { w with compactions := (b, p) :: w.compactions } = v at hEdits ⊢
    simp only [hEdits.page]
    have hLast := hEdits.trans (edits_put v b { q with freeNameOff := p.packed 64 })
    refine ⟨_, _, rfl, ⟨hLast.page, hLast.others, hLast.alloc, hLast.dataStart, hLast.partials,
      hLast.hotBlock⟩, hq.renamed h, ?_⟩
    exact h.packed_all

/-- Without memory nothing happens. -/
theorem compactNames_noScratch (hMem : w.noScratch = true) :
    compactNames b w = (.ok (), w) := by
  unfold compactNames change
  cases hp : w.pages b with
  | none => simp only [hp]
  | some p =>
    simp only [hp]
    rw [if_pos (Or.inr (Or.inl hMem))]

end Compaction

--
-- Room for a name
--

section Names

variable {w v : World} {ref len : Nat} {p q : Page}

/-- The live nodes of the page but one. -/
def Page.Besides (p : Page) (slot s : Nat) : Prop := p.free s = false ∧ s ≠ slot

theorem readSlot_page (hRef : ref ≠ 0) (hp : w.pages (refBlock ref) = some p) :
    readSlot ref w = (.ok (p.slots (refSlot ref)), w) := by
  unfold readSlot
  rw [Pages.slot?_eq_some.2 ⟨hRef, p, hp, rfl⟩]

/-- The name that a slot has is long enough. -/
theorem allocName_reuse (hRef : ref ≠ 0) (hp : w.pages (refBlock ref) = some p) (h : p.Tidy)
    (hLive : p.free (refSlot ref) = false) (hPos : len ≠ 0) (hLen : len ≤ nameLen)
    (hHolds : len + 2 ≤ (p.slots (refSlot ref)).nameLen) : allocName ref len w = (.ok (), w) := by
  have hInside := (h.inside _ (refSlot_lt ref) ⟨hLive, by omega⟩).1
  unfold allocName
  rw [if_neg hPos, if_neg (Nat.not_lt.mpr hLen), bind_ok (readSlot_page hRef hp),
    if_pos ⟨by omega, hHolds⟩]
  rfl

/-- The heap has room. -/
theorem allocName_grow (hRef : ref ≠ 0) (hp : w.pages (refBlock ref) = some p) (hPos : len ≠ 0)
    (hLen : len ≤ nameLen) (hShort : (p.slots (refSlot ref)).nameLen < len + 2)
    (hRoom : p.freeNameOff + (len + 2) ≤ heapSize) :
    allocName ref len w = growName ref len w := by
  have hFull : decide (heapSize < p.freeNameOff + (len + 2)) = false :=
    decide_eq_false (Nat.not_lt.mpr hRoom)
  unfold allocName
  rw [if_neg hPos, if_neg (Nat.not_lt.mpr hLen), bind_ok (readSlot_page hRef hp),
    if_neg (by omega), bind_ok (heapFull_page hp _), hFull, if_neg Bool.false_ne_true]

/-- The heap is full: it is compacted, and looked at again. -/
theorem allocName_full (hRef : ref ≠ 0) (hp : w.pages (refBlock ref) = some p) (hPos : len ≠ 0)
    (hLen : len ≤ nameLen) (hShort : (p.slots (refSlot ref)).nameLen < len + 2)
    (hFull : heapSize < p.freeNameOff + (len + 2))
    (hRun : compactNames (refBlock ref) w = (.ok (), v))
    (hq : v.pages (refBlock ref) = some q) :
    allocName ref len w =
      if heapSize < q.freeNameOff + (len + 2) then (.error .enospc, v) else growName ref len v := by
  unfold allocName
  rw [if_neg hPos, if_neg (Nat.not_lt.mpr hLen), bind_ok (readSlot_page hRef hp),
    if_neg (by omega), bind_ok (heapFull_page hp _), decide_eq_true hFull, if_pos rfl,
    bind_ok hRun, bind_ok (heapFull_page hq _)]
  split_ifs with hDec hStill hStill
  · rfl
  · exact absurd (of_decide_eq_true hDec) hStill
  · exact absurd (decide_eq_true hStill) hDec
  · rfl

/-- The end of the heap moves past the new name of the node. -/
theorem growName_page (ref len : Nat) (hp : w.pages (refBlock ref) = some p) (h : p.Tidy)
    (hRoom : p.freeNameOff + (len + 2) ≤ heapSize) :
    ∃ q w', growName ref len w = (.ok (), w') ∧ Edits (refBlock ref) q w w' ∧
      p.Renamed (p.Besides (refSlot ref)) q ∧ (q.slots (refSlot ref)).nameLen = len + 2 := by
  unfold growName
  rw [hp]
  refine ⟨_, _, rfl, edits_put w _ _, ?_, ?_⟩
  · refine ⟨h.change (refSlot ref) ⟨h.counts.count, hRoom⟩ ?_ (fun _ _ => rfl) ?_ ?_
      (refSlot_lt ref), rfl, ?_⟩
    · exact fun s hs => Page.setSlot_slots_of_ne _ _ hs
    · exact Nat.le_add_right _ _
    · intro _
      right
      rw [Page.setSlot_slots_self]
      exact ⟨Nat.le_refl _, Nat.le_refl _⟩
    · intro s _ hBesides
      exact Page.keepsName_of_slot rfl (Page.setSlot_slots_of_ne _ _ hBesides.2) fun _ _ => rfl
  · rw [Page.setSlot_slots_self]

/-- `trie_page_alloc_name` on a live node: the page stays tidy, the other names stay, and on
success the node has room for the name. -/
theorem allocName_page (hRef : ref ≠ 0) (hp : w.pages (refBlock ref) = some p) (h : p.Tidy)
    (hLive : p.free (refSlot ref) = false) (len : Nat) :
    ∃ r q w', allocName ref len w = (r, w') ∧ Edits (refBlock ref) q w w' ∧
      p.Renamed (p.Besides (refSlot ref)) q ∧
      (r = .ok () → len ≠ 0 → len + 2 ≤ (q.slots (refSlot ref)).nameLen) := by
  have hSame : Edits (refBlock ref) p w w := ⟨hp, fun _ _ => rfl, rfl, rfl, rfl, rfl⟩
  by_cases hPos : len = 0
  · unfold allocName
    rw [if_pos hPos]
    exact ⟨_, p, w, rfl, hSame, .refl h _, fun _ hNe => absurd hPos hNe⟩
  by_cases hLen : len ≤ nameLen
  swap
  · unfold allocName
    rw [if_neg hPos, if_pos (Nat.lt_of_not_le hLen)]
    exact ⟨_, p, w, rfl, hSame, .refl h _, fun hErr => by cases hErr⟩
  by_cases hHolds : len + 2 ≤ (p.slots (refSlot ref)).nameLen
  · exact ⟨_, p, w, allocName_reuse hRef hp h hLive hPos hLen hHolds, hSame, .refl h _,
      fun _ _ => hHolds⟩
  have hShort : (p.slots (refSlot ref)).nameLen < len + 2 := Nat.lt_of_not_le hHolds
  by_cases hRoom : p.freeNameOff + (len + 2) ≤ heapSize
  · rw [allocName_grow hRef hp hPos hLen hShort hRoom]
    obtain ⟨q, w', hRun, hEdits, hNames, hGot⟩ := growName_page _ _ hp h hRoom
    exact ⟨_, q, w', hRun, hEdits, hNames, fun _ _ => hGot.ge⟩
  have hFull : heapSize < p.freeNameOff + (len + 2) := Nat.lt_of_not_le hRoom
  -- What follows the compaction, whether it ran or not.
  have hAfter : ∀ q v, compactNames (refBlock ref) w = (.ok (), v) → Edits (refBlock ref) q w v →
      p.Renamed (p.Besides (refSlot ref)) q →
      ∃ r q w', allocName ref len w = (r, w') ∧ Edits (refBlock ref) q w w' ∧
        p.Renamed (p.Besides (refSlot ref)) q ∧
        (r = .ok () → len ≠ 0 → len + 2 ≤ (q.slots (refSlot ref)).nameLen) := by
    intro q v hRun hEdits hNames
    rw [allocName_full hRef hp hPos hLen hShort hFull hRun hEdits.page]
    split_ifs with hStill
    · exact ⟨_, q, v, rfl, hEdits, hNames, fun hErr => by cases hErr⟩
    · obtain ⟨q', w', hRun', hEdits', hNames', hGot⟩ :=
        growName_page _ _ hEdits.page hNames.tidy (Nat.le_of_not_lt hStill)
      have hSub : q.Renamed (p.Besides (refSlot ref)) q' :=
        ⟨hNames'.tidy, hNames'.free, fun s hs hK =>
          hNames'.names s hs ⟨by rw [hNames.free]; exact hK.1, hK.2⟩⟩
      exact ⟨_, q', w', hRun', hEdits.trans hEdits', hNames.trans hSub, fun _ _ => hGot.ge⟩
  cases hMem : w.noScratch with
  | true => exact hAfter p w (compactNames_noScratch hMem) hSame (.refl h _)
  | false =>
    obtain ⟨q, v, hRun, hEdits, hNames, -⟩ := compactNames_page hp h hMem
    exact hAfter q v hRun hEdits
      ⟨hNames.tidy, hNames.free, fun s hs hK => hNames.names s hs hK.1⟩

/-- The bytes of a name go where the node has room for them. -/
theorem writeName_page (hp : w.pages (refBlock ref) = some p) (h : p.Tidy)
    (hLive : p.free (refSlot ref) = false) {name : List UInt8}
    (hHolds : name.length + 2 ≤ (p.slots (refSlot ref)).nameLen) :
    ∃ q w', writeName ref name w = (.ok (), w') ∧ Edits (refBlock ref) q w w' ∧
      p.Renamed (p.Besides (refSlot ref)) q := by
  unfold writeName
  rw [hp]
  refine ⟨_, _, rfl, (edits_put w _ _).trans (edits_put _ _ _), ?_⟩
  have hTidy := h.change (refSlot ref)
    (q := (p.store (p.slots (refSlot ref)).nameOffset (nameRecord name)).setSlot (refSlot ref)
      { p.slots (refSlot ref) with nameLen := name.length + 2 })
    ⟨h.counts.count, h.counts.room⟩ (fun s hs => Page.setSlot_slots_of_ne _ _ hs)
    (fun _ _ => rfl) (Nat.le_refl _) (fun _ => Or.inl ⟨hLive, by rw [Page.setSlot_slots_self], by
      rw [Page.setSlot_slots_self]
      exact hHolds⟩) (refSlot_lt ref)
  refine ⟨hTidy, rfl, fun s hs hBesides => ?_⟩
  refine Page.keepsName_of_slot rfl (Page.setSlot_slots_of_ne _ _ hBesides.2) fun i hi => ?_
  -- The other name lies outside of the room of this one.
  have hHere : p.Bears (refSlot ref) := ⟨hLive, by omega⟩
  have hThere : p.Bears s := ⟨hBesides.1, by omega⟩
  have hApart := h.apart s hs _ (refSlot_lt ref) hBesides.2 hThere hHere
  have hInside := h.inside s hs hThere
  have hInside' := h.inside _ (refSlot_lt ref) hHere
  unfold Slot.Apart at hApart
  refine Page.store_heap_of_outside p ?_
  rw [length_nameRecord]
  omega

/-- `briefs_trie_node_store_name` on a live node. -/
theorem storeName_page (hRef : ref ≠ 0) (hp : w.pages (refBlock ref) = some p) (h : p.Tidy)
    (hLive : p.free (refSlot ref) = false) (name : List UInt8) :
    ∃ q, Edits (refBlock ref) q w (storeName ref name w).2 ∧
      p.Renamed (p.Besides (refSlot ref)) q := by
  have hSame : Edits (refBlock ref) p w w := ⟨hp, fun _ _ => rfl, rfl, rfl, rfl, rfl⟩
  unfold storeName
  by_cases hLong : nameLen < name.length
  · rw [if_pos hLong]
    exact ⟨p, hSame, .refl h _⟩
  rw [if_neg hLong, bind_ok (readSlot_page hRef hp)]
  obtain ⟨r, q, v, hRun, hEdits, hNames, hGot⟩ := allocName_page hRef hp h hLive name.length
  cases r with
  | error e =>
    rw [bind_error hRun]
    exact ⟨q, hEdits, hNames⟩
  | ok u =>
    rw [bind_ok hRun]
    have hLive' : q.free (refSlot ref) = false := by
      rw [hNames.free]
      exact hLive
    -- The names of the other nodes, also after the second part.
    have hJoin : ∀ q', q.Renamed (q.Besides (refSlot ref)) q' →
        p.Renamed (p.Besides (refSlot ref)) q' := by
      intro q' hNames'
      refine hNames.trans ⟨hNames'.tidy, hNames'.free, fun s hs hK => ?_⟩
      exact hNames'.names s hs ⟨by rw [hNames.free]; exact hK.1, hK.2⟩
    by_cases hEmpty : name.length = 0
    · rw [if_pos hEmpty]
      unfold setSlot
      rw [hEdits.page]
      refine ⟨_, hEdits.trans (edits_put v _ _), hJoin _ ⟨?_, rfl, fun s _ hK => ?_⟩⟩
      · refine hNames.tidy.change (refSlot ref)
          ⟨hNames.tidy.counts.count, hNames.tidy.counts.room⟩
          (fun s hs => Page.setSlot_slots_of_ne _ _ hs) (fun _ _ => rfl) (Nat.le_refl _) ?_
          (refSlot_lt ref)
        rintro ⟨-, hSome⟩
        rw [Page.setSlot_slots_self] at hSome
        exact absurd rfl hSome
      · exact Page.keepsName_of_slot rfl (Page.setSlot_slots_of_ne _ _ hK.2) fun _ _ => rfl
    · rw [if_neg hEmpty]
      obtain ⟨q', w', hRun', hEdits', hNames'⟩ :=
        writeName_page hEdits.page hNames.tidy hLive' (hGot rfl hEmpty)
      rw [hRun']
      exact ⟨q', hEdits.trans hEdits', hJoin q' hNames'⟩

end Names

--
-- Slots
--

/-- `briefs_trie_adopt_root`: the free slot becomes the root, nothing else on the page changes.
`synced` says that the page could be written. -/
def adoptRoot (ref : Nat) (synced : Bool) : TrieM Bool := fun w =>
  match w.pages (refBlock ref) with
  | none => (.ok false, w)
  | some p =>
    if p.free (refSlot ref) = false then (.ok false, w)
    else
      let q := (p.takeSlot (refSlot ref) 0).setSlot (refSlot ref) { Slot.zero with interm := true }
      let w := w.put (refBlock ref) q
      if synced then (addPartial (refBlock ref) (refBlock ref) >>= fun _ => ret true) w
      else (.error .eio, w)

section Slots

variable {p q : Page} {slot : Nat}

theorem Page.Tidy.takeSlot (h : p.Tidy) (size : Nat) (hs : slot < 64)
    (hFree : p.free slot = true) (hRoom : ¬ (heapSize < p.freeNameOff + size ∧ size ≠ 0)) :
    (p.takeSlot slot size).Tidy := by
  obtain ⟨hCount, hBits, hOff, hDiffers, -, -⟩ := p.takeSlot_spec slot size
  refine h.change slot ⟨?_, ?_⟩ hDiffers.slots hDiffers.free hDiffers.grows ?_ hs
  · rw [hCount, hBits, card_live_take hs hFree, h.counts.count]
  · have hLe := h.counts.room
    rw [hOff]
    by_cases hSize : size = 0
    · omega
    · have hFits : ¬ heapSize < p.freeNameOff + size := fun hLt => hRoom ⟨hLt, hSize⟩
      omega
  · rintro ⟨-, hSome⟩
    right
    unfold Page.takeSlot at hSome ⊢
    by_cases hSize : size = 0
    · rw [if_pos hSize, Page.setSlot_slots_self] at hSome
      exact absurd rfl hSome
    · rw [if_neg hSize, Page.setSlot_slots_self]
      exact ⟨Nat.le_refl _, Nat.le_refl _⟩

theorem Page.Tidy.dropSlot (h : p.Tidy) (hs : slot < 64) (hLive : p.free slot = false) :
    (p.dropSlot slot).Tidy := by
  refine h.change slot (Page.dropSlot_counts h.counts hs hLive)
    (fun s hNe => Page.setSlot_slots_of_ne _ _ hNe) (fun s hNe => if_neg hNe) (Nat.le_refl _) ?_ hs
  rintro ⟨-, hSome⟩
  unfold Page.dropSlot at hSome
  rw [Page.setSlot_slots_self] at hSome
  exact absurd rfl hSome

theorem Page.fresh_tidy (depth : Nat) (byteVal : UInt8) (interm : Bool) :
    (Page.fresh depth byteVal interm).Tidy := by
  have hNone : ∀ s, ¬ (Page.fresh depth byteVal interm).Bears s := by
    rintro s ⟨-, hSome⟩
    apply hSome
    unfold Page.fresh
    dsimp only
    split_ifs
    · rfl
    · rfl
  exact ⟨Page.fresh_counts depth byteVal interm, fun s _ hBears => absurd hBears (hNone s),
    fun s _ t _ _ hBears => absurd hBears (hNone s)⟩

/-- A node without a name in a slot of its own. -/
theorem Page.Tidy.setNameless (h : p.Tidy) (hs : slot < 64) {n : Slot} (hNone : n.nameLen = 0) :
    (p.setSlot slot n).Tidy := by
  refine h.change slot ⟨h.counts.count, h.counts.room⟩
    (fun s hNe => Page.setSlot_slots_of_ne _ _ hNe) (fun _ _ => rfl) (Nat.le_refl _) ?_ hs
  rintro ⟨-, hSome⟩
  rw [Page.setSlot_slots_self] at hSome
  exact absurd hNone hSome

end Slots

--
-- Whole operations
--

/-- All pages are tidy. -/
def World.Tidy (w : World) : Prop := ∀ b p, w.pages b = some p → p.Tidy

/-- The step leaves the pages tidy. -/
def KeepsTidy {α : Type} (x : TrieM α) : Prop := ∀ w : World, w.Tidy → (x w).2.Tidy

section Whole

variable {α β : Type} {b : Nat} {w w' : World} {q : Page}

theorem Edits.tidy (h : Edits b q w w') (hw : w.Tidy) (hq : q.Tidy) : w'.Tidy := by
  intro b' p hp
  by_cases hEq : b' = b
  · rw [hEq, h.page] at hp
    obtain rfl := Option.some.inj hp
    exact hq
  · rw [h.others b' hEq] at hp
    exact hw b' p hp

theorem World.Tidy.put (hw : w.Tidy) (hq : q.Tidy) : (w.put b q).Tidy :=
  (edits_put w b q).tidy hw hq

theorem KeepsTidy.ret (a : α) : KeepsTidy (TrieM.ret a) := fun _ hw => hw

theorem KeepsTidy.view (f : World → α) : KeepsTidy (TrieM.view f) := fun _ hw => hw

/-- Changes of the pool. -/
theorem KeepsTidy.change {f : World → World} (h : ∀ w, (f w).pages = w.pages) :
    KeepsTidy (TrieM.change f) := by
  intro w hw b p hp
  have hPages : (f w).pages b = some p := hp
  rw [h] at hPages
  exact hw b p hPages

theorem KeepsTidy.bind {x : TrieM α} {f : α → TrieM β} (hx : KeepsTidy x)
    (hf : ∀ a, KeepsTidy (f a)) : KeepsTidy (x >>= f) := by
  intro w hw
  have hStep := hx w hw
  cases hRun : x w with
  | mk r v =>
    rw [hRun] at hStep
    cases r with
    | ok a =>
      rw [bind_ok hRun]
      exact hf a v hStep
    | error e =>
      rw [bind_error hRun]
      exact hStep

theorem KeepsTidy.ite {c : Prop} [Decidable c] {x y : TrieM α} (hx : KeepsTidy x)
    (hy : KeepsTidy y) : KeepsTidy (if c then x else y) := by
  split_ifs
  · exact hx
  · exact hy

/-- `trie_alloc_from_block`. -/
theorem keepsTidy_allocFromBlock (block size : Nat) : KeepsTidy (allocFromBlock block size) := by
  intro w hw
  unfold allocFromBlock
  cases hp : w.pages block with
  | none => exact hw
  | some p =>
    dsimp only
    by_cases hRoom : heapSize < p.freeNameOff + size ∧ size ≠ 0
    · rw [if_pos hRoom]
      exact hw
    · rw [if_neg hRoom]
      cases hSlot : p.freeSlot with
      | none => exact hw
      | some slot =>
        obtain ⟨hs, hFree⟩ := Page.freeSlot_spec hSlot
        exact hw.put ((hw block p hp).takeSlot _ hs hFree hRoom)

theorem keepsTidy_addPartial (block hint : Nat) : KeepsTidy (addPartial block hint) := by
  refine KeepsTidy.change fun w => ?_
  have hList : (w.listPage block hint).pages = w.pages := by
    unfold World.listPage
    split_ifs
    · rfl
    · rfl
  dsimp only
  split_ifs
  · exact hList
  · exact hList

theorem keepsTidy_scanPool (size : Nat) (mine : Nat → Bool) :
    ∀ pool : List (Nat × Nat), KeepsTidy (scanPool size mine pool) := by
  intro pool
  induction pool with
  | nil => exact KeepsTidy.ret none
  | cons entry pool ih =>
    obtain ⟨block, hint⟩ := entry
    unfold scanPool
    extract_lets next
    have hNext : ∀ got, KeepsTidy (next got) := by
      intro got
      cases got with
      | none => exact ih
      | some pair =>
        refine .ite (.bind (.change fun _ => rfl) fun _ => .ret _) ?_
        exact .bind (.change fun _ => rfl) fun _ => .ret _
    exact .ite (.bind (keepsTidy_allocFromBlock block size) hNext) (.bind (.ret none) hNext)

theorem keepsTidy_allocHot (size hint : Nat) : KeepsTidy (allocHot size hint) := by
  unfold allocHot
  refine KeepsTidy.bind (.view _) fun hot => .ite ?_ (.ret none)
  refine KeepsTidy.bind (keepsTidy_allocFromBlock _ size) fun got => ?_
  cases got with
  | none => exact KeepsTidy.bind (.change fun _ => rfl) fun _ => .ret none
  | some pair =>
    obtain ⟨ref, full⟩ := pair
    dsimp only
    refine .ite (.bind (.change fun _ => rfl) fun _ => .ret _) ?_
    exact .bind (.ret ()) fun _ => .ret _

/-- The page that `briefs_trie_page_init` builds, on the block it gets. -/
theorem pageInit_page (depth : Nat) (byteVal : UInt8) (interm : Bool) (w : World) :
    (∃ a, pageInit depth byteVal interm w = (.error .enospc, { w with alloc := a })) ∨
    ∃ a block, pageInit depth byteVal interm w = (.ok (makeRef block 0),
      ({ w with alloc := a } : World).put block (Page.fresh depth byteVal interm)) := by
  unfold pageInit
  cases Replay.allocTrieBlock w.alloc with
  | mk rel a =>
    dsimp only
    by_cases hRel : rel = 0
    · rw [if_pos hRel]
      exact Or.inl ⟨a, rfl⟩
    · rw [if_neg hRel]
      exact Or.inr ⟨a, _, rfl⟩

theorem keepsTidy_pageInit (depth : Nat) (byteVal : UInt8) (interm : Bool) :
    KeepsTidy (pageInit depth byteVal interm) := by
  intro w hw
  rcases pageInit_page depth byteVal interm w with ⟨a, hRun⟩ | ⟨a, block, hRun⟩
  · rw [hRun]
    exact hw
  · rw [hRun]
    have hv : ({ w with alloc := a } : World).Tidy := hw
    exact hv.put (Page.fresh_tidy _ _ _)

/-- A page of its own for a node: the reservation of its name fits. -/
theorem keepsTidy_allocPage {size : Nat} (hSize : size ≤ nameLen + 2) (hint : Nat) :
    KeepsTidy (allocPage size hint) := by
  intro w hw
  unfold allocPage
  have hInit := keepsTidy_pageInit 0 0 false w hw
  rcases pageInit_page 0 0 false w with ⟨a, hRun⟩ | ⟨a, block, hRun⟩
  · rw [hRun] at hInit
    rw [bind_ok (attempt_eq hRun)]
    exact hInit
  · rw [hRun] at hInit
    rw [bind_ok (attempt_eq hRun)]
    generalize hv : ({ w with alloc := a } : World).put block (Page.fresh 0 0 false) = v at hInit
    have hPage : v.pages (refBlock (makeRef block 0)) = some (Page.fresh 0 0 false) := by
      rw [refBlock_makeRef, ← hv]
      exact (edits_put _ _ _).page
    have hRest : KeepsTidy (addPartial (refBlock (makeRef block 0)) hint >>= fun _ =>
        TrieM.change (fun w => w.setHot (refBlock (makeRef block 0)) hint) >>= fun _ =>
          TrieM.ret (some (makeRef block 0))) :=
      .bind (keepsTidy_addPartial _ hint) fun _ => .bind (.change fun _ => rfl) fun _ => .ret _
    by_cases hZero : size = 0
    · dsimp only
      rw [if_pos hZero]
      exact hRest v hInit
    · dsimp only
      rw [if_neg hZero]
      obtain ⟨q, u, hGrow, hEdits, hNames, -⟩ := growName_page _ (size - 2) hPage
        (Page.fresh_tidy 0 0 false) (by
          show 0 + (size - 2 + 2) ≤ heapSize
          have hHeap : nameLen + 2 + 2 ≤ heapSize := by decide
          omega)
      rw [bind_ok hGrow]
      exact hRest u (hEdits.tidy hInit hNames.tidy)

/-- `briefs_trie_alloc_node`. -/
theorem keepsTidy_allocNode {len : Nat} (hLen : len ≤ nameLen) (hint : Nat) :
    KeepsTidy (allocNode len hint) := by
  have hSize : (if len = 0 then 0 else len + 2) ≤ nameLen + 2 := by
    split_ifs
    · exact Nat.zero_le _
    · omega
  unfold allocNode
  refine KeepsTidy.bind (keepsTidy_allocHot _ hint) fun hot => ?_
  cases hot with
  | some ref => exact .ret _
  | none =>
    refine KeepsTidy.bind (.view _) fun pool => .bind (keepsTidy_scanPool _ _ pool) fun own => ?_
    cases own with
    | some ref => exact .ret _
    | none =>
      refine KeepsTidy.bind (.view _) fun pool => .bind (keepsTidy_scanPool _ _ pool) fun any => ?_
      cases any with
      | some ref => exact .ret _
      | none => exact keepsTidy_allocPage hSize hint

theorem keepsTidy_adoptRoot (ref : Nat) (synced : Bool) : KeepsTidy (adoptRoot ref synced) := by
  intro w hw
  unfold adoptRoot
  cases hp : w.pages (refBlock ref) with
  | none => exact hw
  | some p =>
    dsimp only
    by_cases hLive : p.free (refSlot ref) = false
    · rw [if_pos hLive]
      exact hw
    · rw [if_neg hLive]
      have hFree : p.free (refSlot ref) = true := by simpa using hLive
      have hTake := (hw _ p hp).takeSlot 0 (refSlot_lt ref) hFree fun hBoth =>
        hBoth.2 rfl
      have hPut := hw.put (b := refBlock ref) (hTake.setNameless (refSlot_lt ref)
        (n := { Slot.zero with interm := true }) rfl)
      cases synced with
      | false => exact hPut
      | true => exact KeepsTidy.bind (keepsTidy_addPartial _ _) (fun _ => .ret true) _ hPut

theorem keepsTidy_freeNode (ref : Nat) : KeepsTidy (freeNode ref) := by
  intro w hw
  unfold freeNode
  cases hp : w.pages (refBlock ref) with
  | none => exact hw
  | some p =>
    dsimp only
    by_cases hRef : ref = 0
    · rw [if_pos hRef]
      exact hw
    rw [if_neg hRef]
    have hDrop : (if p.free (refSlot ref) = true then w else w.put (refBlock ref)
        (if p.free (refSlot ref) = true then p else p.dropSlot (refSlot ref))).Tidy := by
      split_ifs with hFree
      · exact hw
      · exact hw.put ((hw _ p hp).dropSlot (refSlot_lt ref) (by simpa using hFree))
    generalize (if p.free (refSlot ref) = true then w else w.put (refBlock ref)
      (if p.free (refSlot ref) = true then p else p.dropSlot (refSlot ref))) = v at hDrop
    generalize (if p.free (refSlot ref) = true then p else p.dropSlot (refSlot ref)) = r
    have hList : (v.listPage (refBlock ref) 0).pages = v.pages := by
      unfold World.listPage
      split_ifs
      · rfl
      · rfl
    by_cases hEmpty : r.liveCount = 0
    · rw [if_pos hEmpty]
      exact hDrop
    · rw [if_neg hEmpty]
      by_cases hSome : r.freeSlot.isSome = true
      · rw [if_pos hSome]
        intro b q hq
        have hOld : v.pages b = some q := by
          rw [← hList]
          exact hq
        exact hDrop b q hOld
      · rw [if_neg hSome]
        exact hDrop

theorem keepsTidy_compactNames (block : Nat) : KeepsTidy (compactNames block) := by
  intro w hw
  cases hMem : w.noScratch with
  | true =>
    rw [compactNames_noScratch hMem]
    exact hw
  | false =>
    cases hp : w.pages block with
    | none =>
      unfold compactNames TrieM.change
      simp only [hp]
      exact hw
    | some p =>
      obtain ⟨q, v, hRun, hEdits, hNames, -⟩ := compactNames_page hp (hw block p hp) hMem
      rw [hRun]
      exact hEdits.tidy hw hNames.tidy

end Whole

--
-- Sequences of operations
--

/-- The operations on trie pages. `scratch` says from when on memory for compactions is short. -/
inductive PageOp where
  | pageInit (depth : Nat) (byteVal : UInt8) (interm : Bool)
  | allocFromBlock (block size : Nat)
  | allocNode (len hint : Nat)
  | allocName (ref len : Nat)
  | storeName (ref : Nat) (name : List UInt8)
  | compactNames (block : Nat)
  | adoptRoot (ref : Nat) (synced : Bool)
  | freeNode (ref : Nat)
  | scratch (short : Bool)

namespace PageOp

/-- What the callers see to: a name is for a node whose slot is allocated, and a node is allocated
for a name that a directory can have. -/
def Enabled (w : World) : PageOp → Prop
  | allocNode len _ => len ≤ nameLen
  | allocName ref _ => w.pages.live ref
  | storeName ref _ => w.pages.live ref
  | _ => True

/-- The state after the operation, also if it fails. -/
def run (w : World) : PageOp → World
  | pageInit depth byteVal interm => (Trie.pageInit depth byteVal interm w).2
  | allocFromBlock block size => (Trie.allocFromBlock block size w).2
  | allocNode len hint => (Trie.allocNode len hint w).2
  | allocName ref len => (Trie.allocName ref len w).2
  | storeName ref name => (Trie.storeName ref name w).2
  | compactNames block => (Trie.compactNames block w).2
  | adoptRoot ref synced => (Trie.adoptRoot ref synced w).2
  | freeNode ref => (Trie.freeNode ref w).2
  | scratch short => { w with noScratch := short }

theorem tidy_run {w : World} (hw : w.Tidy) (op : PageOp) (hOp : op.Enabled w) :
    (op.run w).Tidy := by
  cases op with
  | pageInit depth byteVal interm => exact keepsTidy_pageInit depth byteVal interm w hw
  | allocFromBlock block size => exact keepsTidy_allocFromBlock block size w hw
  | allocNode len hint => exact keepsTidy_allocNode hOp hint w hw
  | allocName ref len =>
    obtain ⟨hRef, p, hp, hLive⟩ := hOp
    obtain ⟨r, q, w', hRun, hEdits, hNames, -⟩ := allocName_page hRef hp (hw _ p hp) hLive len
    show (Trie.allocName ref len w).2.Tidy
    rw [hRun]
    exact hEdits.tidy hw hNames.tidy
  | storeName ref name =>
    obtain ⟨hRef, p, hp, hLive⟩ := hOp
    obtain ⟨q, hEdits, hNames⟩ := storeName_page hRef hp (hw _ p hp) hLive name
    exact hEdits.tidy hw hNames.tidy
  | compactNames block => exact keepsTidy_compactNames block w hw
  | adoptRoot ref synced => exact keepsTidy_adoptRoot ref synced w hw
  | freeNode ref => exact keepsTidy_freeNode ref w hw
  | scratch short => exact hw

/-- The states after sequences of operations. -/
inductive Reach (start : World) : World → Prop where
  | refl : Reach start start
  | step {w : World} (op : PageOp) : Reach start w → op.Enabled w → Reach start (op.run w)

theorem Reach.tidy {start w : World} (hStart : start.Tidy) (h : Reach start w) : w.Tidy := by
  induction h with
  | refl => exact hStart
  | step op _ hOp ih => exact tidy_run ih op hOp

end PageOp

/-- The invariant holds of every page after every sequence of operations, and then a name that
is stored for a live node changes the name of no other live node of the page, and no other
page. -/
theorem page_invariant {start w : World} (hStart : start.Tidy) (h : PageOp.Reach start w) :
    (∀ b p, w.pages b = some p → p.Tidy) ∧
    ∀ ref p name, ref ≠ 0 → w.pages (refBlock ref) = some p → p.free (refSlot ref) = false →
      ∃ q, (storeName ref name w).2.pages (refBlock ref) = some q ∧
        (∀ s < 64, p.free s = false → s ≠ refSlot ref → p.KeepsName q s) ∧
        ∀ b, b ≠ refBlock ref → (storeName ref name w).2.pages b = w.pages b := by
  have hTidy := h.tidy hStart
  refine ⟨hTidy, fun ref p name hRef hp hLive => ?_⟩
  obtain ⟨q, hEdits, hNames⟩ := storeName_page hRef hp (hTidy _ p hp) hLive name
  exact ⟨q, hEdits.page, fun s hs hOther hNe => hNames.names s hs ⟨hOther, hNe⟩, hEdits.others⟩

/-- A world without pages. -/
def World.bare : World where
  pages       := fun _ => none
  alloc       := Alloc.threeFree
  dataStart   := 0
  partials    := []
  hotBlock    := 0
  hotHint     := 0
  noScratch   := false
  trace       := []
  compactions := []

instance (ps : Pages) (ref : Nat) : Decidable (ps.live ref) :=
  decidable_of_iff (ref ≠ 0 ∧ (ps (refBlock ref)).any (fun p => !p.free (refSlot ref)) = true) <| by
    simp [Pages.live, Option.any_eq_true]

/-- Six nodes with room for long names are made, four of them go, and two get short names. -/
def wornOps : List PageOp :=
  .pageInit 0 0 true :: List.replicate 6 (.allocFromBlock 1 257) ++
    [.freeNode 67, .freeNode 68, .freeNode 69, .freeNode 70, .storeName 65 [1, 2],
      .storeName 66 [3, 4, 5]]

def wornWorld : World := wornOps.foldl PageOp.run World.bare

theorem reach_wornWorld : PageOp.Reach World.bare wornWorld := by
  let alloc : PageOp := .allocFromBlock 1 257
  have hMade : PageOp.Reach World.bare ((wornOps.take 11).foldl PageOp.run World.bare) :=
    PageOp.Reach.refl.step (.pageInit 0 0 true) trivial
      |>.step alloc trivial |>.step alloc trivial |>.step alloc trivial
      |>.step alloc trivial |>.step alloc trivial |>.step alloc trivial
      |>.step (.freeNode 67) trivial |>.step (.freeNode 68) trivial
      |>.step (.freeNode 69) trivial |>.step (.freeNode 70) trivial
  have hFirst : ((wornOps.take 11).foldl PageOp.run World.bare).pages.live 65 := by
    decide +kernel
  have hSecond : ((wornOps.take 12).foldl PageOp.run World.bare).pages.live 66 := by
    decide +kernel
  exact (hMade.step (.storeName 65 [1, 2]) hFirst).step (.storeName 66 [3, 4, 5]) hSecond

/-- Most of the heap of the page is orphaned: 9 of 1542 bytes belong to names. -/
theorem wornWorld_page : ∃ p, wornWorld.pages 1 = some p ∧ p.nameBytes (p.slots 1) = [1, 2] ∧
    p.nameBytes (p.slots 2) = [3, 4, 5] ∧ p.freeNameOff = 1542 ∧ p.liveNames = 9 ∧
    p.free 0 = false ∧ p.free 1 = false ∧ p.free 2 = false := by
  obtain ⟨p, hp⟩ := Option.isSome_iff_exists.mp
    (show (wornWorld.pages 1).isSome = true by decide +kernel)
  have hHeap : (wornWorld.pages 1).all (fun p => decide (p.nameBytes (p.slots 1) = [1, 2] ∧
      p.nameBytes (p.slots 2) = [3, 4, 5] ∧ p.freeNameOff = 1542 ∧ p.liveNames = 9 ∧
      p.free 0 = false ∧ p.free 1 = false ∧ p.free 2 = false)) = true := by
    decide +kernel
  rw [hp] at hHeap
  exact ⟨p, hp, of_decide_eq_true hHeap⟩

/-- A long name for the root takes a compaction, and the two short names stay. -/
theorem page_invariant_worn : World.bare.Tidy ∧ ∃ p q, wornWorld.pages 1 = some p ∧ p.Tidy ∧
    p.nameBytes (p.slots 1) = [1, 2] ∧ p.nameBytes (p.slots 2) = [3, 4, 5] ∧
    (storeName 64 (List.replicate 255 7) wornWorld).2.pages 1 = some q ∧
    p.freeNameOff = 1542 ∧ q.freeNameOff = 266 ∧ p.KeepsName q 1 ∧ p.KeepsName q 2 := by
  have hStart : World.bare.Tidy := fun b p hp => by cases hp
  obtain ⟨hPages, hStore⟩ := page_invariant hStart reach_wornWorld
  obtain ⟨p, hp, hOne, hTwo, hEnd, -, hRoot, hLive1, hLive2⟩ := wornWorld_page
  obtain ⟨q, hq, hKeeps, -⟩ := hStore 64 p (List.replicate 255 7) (by decide) hp hRoot
  have hAfter : ((storeName 64 (List.replicate 255 7) wornWorld).2.pages 1).map (·.freeNameOff) =
      some 266 := by decide +kernel
  rw [show refBlock 64 = 1 from rfl] at hq
  rw [hq] at hAfter
  exact ⟨hStart, p, q, hp, hPages 1 p hp, hOne, hTwo, hq, hEnd, Option.some.inj hAfter,
    hKeeps 1 (by decide) hLive1 (by decide), hKeeps 2 (by decide) hLive2 (by decide)⟩

--
-- What a compaction gives
--

/-- A compaction keeps the name of every live node and sets the end of the heap to the sum of
their lengths; a name of up to 255 bytes then gets room iff the node has it already or the live
names leave it. -/
theorem compaction_complete {w : World} {b : Nat} {p : Page} (hp : w.pages b = some p)
    (h : p.Tidy) (hMem : w.noScratch = false) :
    (∃ q, (compactNames b w).2.pages b = some q ∧ q.freeNameOff = p.liveNames ∧
      ∀ s < 64, p.free s = false → p.KeepsName q s) ∧
    ∀ ref len, ref ≠ 0 → refBlock ref = b → p.free (refSlot ref) = false → 1 ≤ len → len ≤ 255 →
      ((allocName ref len w).1 = .ok () ↔
        len + 2 ≤ (p.slots (refSlot ref)).nameLen ∨ p.liveNames + (len + 2) ≤ 1772) := by
  obtain ⟨q, v, hRun, hEdits, hNames, hEnd⟩ := compactNames_page hp h hMem
  refine ⟨⟨q, by rw [hRun]; exact hEdits.page, hEnd, hNames.names⟩, ?_⟩
  rintro ref len hRef rfl hLive hPos hLen
  have hPos' : len ≠ 0 := by omega
  have hSize : heapSize = 1772 := rfl
  by_cases hHolds : len + 2 ≤ (p.slots (refSlot ref)).nameLen
  · rw [allocName_reuse hRef hp h hLive hPos' hLen hHolds]
    exact iff_of_true rfl (Or.inl hHolds)
  have hShort : (p.slots (refSlot ref)).nameLen < len + 2 := Nat.lt_of_not_le hHolds
  have hLe : p.liveNames ≤ p.freeNameOff := by
    rw [← h.packed_all]
    exact h.packed_le_end (Nat.le_refl 64)
  by_cases hRoom : p.freeNameOff + (len + 2) ≤ heapSize
  · obtain ⟨q', w', hGrow, -⟩ := growName_page ref len hp h hRoom
    rw [allocName_grow hRef hp hPos' hLen hShort hRoom, hGrow]
    exact iff_of_true rfl (Or.inr (by omega))
  rw [allocName_full hRef hp hPos' hLen hShort (Nat.lt_of_not_le hRoom) hRun hEdits.page, hEnd]
  split_ifs with hFull
  · refine iff_of_false (fun hOk => by cases hOk) ?_
    omega
  · obtain ⟨q', w', hGrow, -⟩ := growName_page ref len hEdits.page hNames.tidy
      (by rw [hEnd]; exact Nat.le_of_not_lt hFull)
    rw [hGrow]
    exact iff_of_true rfl (Or.inr (by omega))

/-- A name of 255 bytes does not fit behind the heap of the page, but the compaction makes room. -/
theorem compaction_complete_worn : ∃ p q, wornWorld.pages 1 = some p ∧
    1772 < p.freeNameOff + (255 + 2) ∧ (compactNames 1 wornWorld).2.pages 1 = some q ∧
    q.freeNameOff = 9 ∧ p.nameBytes (p.slots 1) = [1, 2] ∧ p.KeepsName q 1 ∧
    (allocName 64 255 wornWorld).1 = .ok () := by
  obtain ⟨p, hp, hOne, -, hEnd, hNames, hRoot, hLive, -⟩ := wornWorld_page
  have hTidy : p.Tidy := reach_wornWorld.tidy (fun _ _ hNone => by cases hNone) 1 p hp
  obtain ⟨⟨q, hq, hPacked, hKeeps⟩, hRoom⟩ := compaction_complete hp hTidy (by decide +kernel)
  refine ⟨p, q, hp, by rw [hEnd]; decide, hq, hPacked.trans hNames, hOne,
    hKeeps 1 (by decide) hLive, ?_⟩
  refine (hRoom 64 255 (by decide) rfl hRoot (by decide) (by decide)).mpr (Or.inr ?_)
  rw [hNames]
  decide

end Briefs.Trie
