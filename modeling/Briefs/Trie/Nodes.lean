import Briefs.Trie.Frame

/-!
# BrieFS — trie nodes on their pages

Pages seen as a store of nodes. A node is a slot that is not free, with its name read from
the heap of its page; `World.node` gives the node of every reference. Each operation of
`Trie.Page` is then an update of that store at one reference, or leaves it as it is:
compaction moves names in their heap, but every node keeps its name.

## Results

* `setSlot_node`, `writeName_node`, `storeName_node` — a store into a slot or a name changes
  one node.
* `compactNames_node` — a compaction of sound pages changes no node.
* `allocNode_node`, `createRoot_node` — an allocation adds one node, or fails and changes none.
* `freeNode_node` — a node that is freed is gone, and the others stay.
-/

namespace Briefs.Trie

open TrieM

--
-- The nodes of a state
--

/-- The node a slot stands for, with its name. -/
def Slot.toNode (n : Slot) (name : List UInt8) : Node where
  firstChild  := n.firstChild
  nextSibling := n.nextSibling
  inode       := n.inode
  name        := name
  depth       := n.depth
  byteVal     := n.byteVal
  interm      := n.interm
  statusLeaf  := n.statusLeaf
  ftype       := n.ftype
  childCount  := n.childCount

/-- The node in a slot, `none` for a free one. -/
def Page.node (p : Page) (s : Nat) : Option Node :=
  if p.free s then none else some ((p.slots s).toNode (p.nameBytes (p.slots s)))

/-- The nodes that are in use. -/
def World.node (w : World) : Store := fun ref =>
  if ref = 0 then none else (w.pages (refBlock ref)).bind fun p => p.node (refSlot ref)

/-- The allocator has the block in use. -/
def World.Taken (w : World) (b : Nat) : Prop :=
  w.dataStart < b ∧ w.alloc.isFree (b - w.dataStart) = false

/-- What holds of a trie page: the header counts its slots, names do not overlap, and a
free slot is clear. -/
structure Page.Sound (p : Page) : Prop where
  counts : p.Counts
  names  : p.NamesApart fun _ => True
  zeroed : ∀ s < 64, p.free s = true → p.slots s = Slot.zero

/-- What holds between two operations: the pages are sound, and nodes and the entries of
the partial-page pool lie in blocks that are in use. -/
structure Sound (w : World) : Prop where
  pages : ∀ b p, w.pages b = some p → p.Sound
  taken : ∀ b p, w.pages b = some p → ∀ s < 64, p.free s = false → w.Taken b
  pool  : ∀ e ∈ w.partials, w.Taken e.1
  hot   : w.hotBlock ≠ 0 → w.Taken w.hotBlock

variable {w w' : World} {b ref : Nat} {p q : Page} {n : Node}

theorem node_eq_some (h : w.node ref = some n) : ref ≠ 0 ∧ ∃ p, w.pages (refBlock ref) = some p ∧
    p.free (refSlot ref) = false ∧
    n = (p.slots (refSlot ref)).toNode (p.nameBytes (p.slots (refSlot ref))) := by
  unfold World.node at h
  by_cases hRef : ref = 0
  · rw [if_pos hRef] at h
    cases h
  · rw [if_neg hRef] at h
    obtain ⟨p, hp, hNode⟩ := Option.bind_eq_some_iff.mp h
    unfold Page.node at hNode
    cases hFree : p.free (refSlot ref) with
    | true =>
      rw [hFree, if_pos rfl] at hNode
      cases hNode
    | false =>
      rw [hFree, if_neg Bool.false_ne_true] at hNode
      exact ⟨hRef, p, hp, hFree, (Option.some.inj hNode).symm⟩

theorem node_of_page (hRef : ref ≠ 0) (hp : w.pages (refBlock ref) = some p) :
    w.node ref = p.node (refSlot ref) := by
  unfold World.node
  rw [if_neg hRef, hp]
  rfl

theorem node_zero (w : World) : w.node 0 = none := rfl

theorem World.Taken.ne_zero {s : Nat} (h : w.Taken b) : makeRef b s ≠ 0 := by
  unfold makeRef
  have hPos := h.1
  omega

/-- A state whose page `b` is now `q`. -/
structure Edits (b : Nat) (q : Page) (w w' : World) : Prop where
  page      : w'.pages b = some q
  others    : ∀ b', b' ≠ b → w'.pages b' = w.pages b'
  alloc     : w'.alloc = w.alloc
  dataStart : w'.dataStart = w.dataStart
  partials  : w'.partials = w.partials
  hotBlock  : w'.hotBlock = w.hotBlock

theorem edits_put (w : World) (b : Nat) (q : Page) : Edits b q w (w.put b q) :=
  ⟨Function.update_self _ _ _, fun _ hb => Function.update_of_ne hb _ _, rfl, rfl, rfl, rfl⟩

theorem Edits.trans {q' : Page} {w'' : World} (h : Edits b q w w') (h' : Edits b q' w' w'') :
    Edits b q' w w'' :=
  ⟨h'.page, fun b' hb => (h'.others b' hb).trans (h.others b' hb), h'.alloc.trans h.alloc,
    h'.dataStart.trans h.dataStart, h'.partials.trans h.partials, h'.hotBlock.trans h.hotBlock⟩

theorem Edits.taken (h : Edits b q w w') {b' : Nat} : w'.Taken b' ↔ w.Taken b' := by
  unfold World.Taken
  rw [h.alloc, h.dataStart]

theorem Sound.edit (hw : Sound w) (h : Edits b q w w') (hq : q.Sound)
    (hTaken : ∀ s < 64, q.free s = false → w.Taken b) : Sound w' := by
  refine ⟨?_, ?_, ?_, ?_⟩
  · intro b' p' hp'
    by_cases hb : b' = b
    · rw [hb, h.page] at hp'
      obtain rfl := Option.some.inj hp'
      exact hq
    · rw [h.others b' hb] at hp'
      exact hw.pages b' p' hp'
  · intro b' p' hp' s hs hLive
    rw [h.taken]
    by_cases hb : b' = b
    · rw [hb, h.page] at hp'
      obtain rfl := Option.some.inj hp'
      rw [hb]
      exact hTaken s hs hLive
    · rw [h.others b' hb] at hp'
      exact hw.taken b' p' hp' s hs hLive
  · intro e he
    rw [h.partials] at he
    rw [h.taken]
    exact hw.pool e he
  · intro hHot
    rw [h.hotBlock] at hHot ⊢
    rw [h.taken]
    exact hw.hot hHot

/-- One slot of the page changes. -/
theorem Edits.node_update (h : Edits b q w w') (hp : w.pages b = some p) {slot : Nat}
    (hs : slot < 64) (hRef : makeRef b slot ≠ 0)
    (hSame : ∀ s < 64, s ≠ slot → q.node s = p.node s) :
    w'.node = Function.update w.node (makeRef b slot) (q.node slot) := by
  funext ref
  by_cases hEq : ref = makeRef b slot
  · rw [hEq, Function.update_self]
    rw [node_of_page hRef (by rw [refBlock_makeRef]; exact h.page), refSlot_makeRef hs]
  · rw [Function.update_of_ne hEq]
    by_cases hZero : ref = 0
    · rw [hZero, node_zero, node_zero]
    · by_cases hb : refBlock ref = b
      · have hSlot : refSlot ref ≠ slot := by
          intro hSlot
          apply hEq
          rw [← hb, ← hSlot, makeRef_refBlock]
        rw [node_of_page hZero (by rw [hb]; exact h.page), node_of_page hZero (by rw [hb]; exact hp)]
        exact hSame _ (refSlot_lt ref) hSlot
      · unfold World.node
        rw [h.others _ hb]

/-- No slot of the page changes. -/
theorem Edits.node_same (h : Edits b q w w') (hp : w.pages b = some p)
    (hSame : ∀ s < 64, q.node s = p.node s) : w'.node = w.node := by
  funext ref
  by_cases hZero : ref = 0
  · rw [hZero, node_zero, node_zero]
  · by_cases hb : refBlock ref = b
    · rw [node_of_page hZero (by rw [hb]; exact h.page), node_of_page hZero (by rw [hb]; exact hp)]
      exact hSame _ (refSlot_lt ref)
    · unfold World.node
      rw [h.others _ hb]

--
-- Reading and writing fields
--

/-- The slot that is read has the fields of the node. -/
theorem readSlot_node (hn : w.node ref = some n) :
    ∃ m : Slot, readSlot ref w = (.ok m, w) ∧ m.toNode n.name = n ∧
      m.nameLen - 2 = n.name.length := by
  obtain ⟨hRef, p, hp, -, rfl⟩ := node_eq_some hn
  refine ⟨p.slots (refSlot ref), ?_, rfl, ?_⟩
  · unfold readSlot
    rw [Pages.slot?_eq_some.2 ⟨hRef, p, hp, rfl⟩]
  · simp [Slot.toNode, Page.nameBytes]

theorem nameIs_node (hn : w.node ref = some n) (name : List UInt8) :
    nameIs ref name w = (.ok (n.name == name), w) := by
  obtain ⟨-, p, hp, -, rfl⟩ := node_eq_some hn
  unfold nameIs view
  simp only [hp]
  rfl

theorem Page.nameBytes_congr {m m' : Slot} (hHeap : ∀ d, m.nameOffset < d + m.nameLen →
      d ≤ m.nameOffset → q.heap d = p.heap d) (hOff : m'.nameOffset = m.nameOffset)
    (hLen : m'.nameLen = m.nameLen) (hIn : m.nameLen ≤ m.nameOffset) :
    q.nameBytes m' = p.nameBytes m := by
  unfold Page.nameBytes
  rw [hLen, hOff]
  refine List.map_congr_left fun i hi => ?_
  have hLt := List.mem_range.1 hi
  exact hHeap _ (by omega) (by omega)

/-- Names stay apart when the slot's name gives way to a part of itself. -/
theorem Page.NamesApart.setSlot (h : p.NamesApart fun _ => True) {m : Slot} {slot : Nat}
    (hOff : m.nameOffset = (p.slots slot).nameOffset) (hLen : m.nameLen ≤ (p.slots slot).nameLen) :
    (p.setSlot slot m).NamesApart fun _ => True := by
  have hSlot : ∀ t, (p.setSlot slot m).slots t = if t = slot then m else p.slots t := fun _ => rfl
  refine ⟨?_, ?_, ?_⟩
  · intro t ht _
    have hOld := h.inside t ht trivial
    rw [hSlot]
    split
    · rename_i hEq
      rw [hEq] at hOld
      omega
    · exact hOld
  · intro t ht _ hPos
    rw [hSlot] at hPos ⊢
    split at hPos
    · rename_i hEq
      rw [if_pos hEq, hOff]
      have hOld := h.below t ht trivial
      rw [hEq] at hOld
      exact hOld (by omega)
    · rename_i hNe
      rw [if_neg hNe]
      exact h.below t ht trivial hPos
  · intro t ht _ s hs hNe hPosT hPosS
    have hOld := h.apart t ht trivial s hs hNe
    unfold Slot.Apart at hOld ⊢
    rw [hSlot] at hPosT
    rw [hSlot] at hPosS
    rw [hSlot t, hSlot s]
    by_cases hT : t = slot
    · have hS : s ≠ slot := fun hEq => hNe (hEq.trans hT.symm)
      rw [if_pos hT] at hPosT ⊢
      rw [if_neg hS] at hPosS ⊢
      rw [hT] at hOld
      have := hOld (by omega) hPosS
      omega
    · rw [if_neg hT] at hPosT ⊢
      by_cases hS : s = slot
      · rw [if_pos hS] at hPosS ⊢
        rw [hS] at hOld
        have := hOld hPosT (by omega)
        omega
      · rw [if_neg hS] at hPosS ⊢
        exact hOld hPosT hPosS

/-- Stores into the fields of a node other than its name. -/
theorem setSlot_node (hw : Sound w) (hn : w.node ref = some n) {f : Slot → Slot} {g : Node → Node}
    (hName : ∀ m, (f m).nameOffset = m.nameOffset ∧ (f m).nameLen = m.nameLen)
    (hFields : ∀ m name, (f m).toNode name = g (m.toNode name)) :
    ∃ w', setSlot ref f w = (.ok (), w') ∧ Sound w' ∧
      w'.node = Function.update w.node ref (some (g n)) := by
  obtain ⟨hRef, p, hp, hLive, rfl⟩ := node_eq_some hn
  generalize hm : f (p.slots (refSlot ref)) = m
  have hMeta := hName (p.slots (refSlot ref))
  have hFld := hFields (p.slots (refSlot ref))
  rw [hm] at hMeta hFld
  have hEdits := edits_put w (refBlock ref) (p.setSlot (refSlot ref) m)
  have hPage := hw.pages _ p hp
  have hTaken := hw.taken _ p hp _ (refSlot_lt ref) hLive
  refine ⟨w.put (refBlock ref) (p.setSlot (refSlot ref) m), ?_, ?_, ?_⟩
  · unfold setSlot
    simp only [hp, hm]
  · refine hw.edit hEdits ⟨⟨hPage.counts.count, hPage.counts.room⟩,
      hPage.names.setSlot hMeta.1 hMeta.2.le, ?_⟩ fun _ _ _ => hTaken
    intro s hs hFree
    have hNe : s ≠ refSlot ref := by
      rintro rfl
      exact absurd (hLive.symm.trans hFree) Bool.false_ne_true
    rw [p.setSlot_slots_of_ne _ hNe]
    exact hPage.zeroed s hs hFree
  · rw [hEdits.node_update hp (refSlot_lt ref) (by rw [makeRef_refBlock]; exact hRef),
      makeRef_refBlock]
    · congr 1
      unfold Page.node
      have hFree : (p.setSlot (refSlot ref) m).free (refSlot ref) = false := hLive
      rw [hFree, if_neg Bool.false_ne_true, p.setSlot_slots_self, ← hFld]
      congr 2
      exact Page.nameBytes_congr (fun _ _ _ => rfl) hMeta.1 hMeta.2
        (hPage.names.inside _ (refSlot_lt ref) trivial)
    · intro s hs hNe
      unfold Page.node
      rw [p.setSlot_slots_of_ne _ hNe]
      rfl

--
-- Names
--

/-- The page when pass 2 of a compaction of `old` has reached slot `k`. -/
structure Page.PackedTo (old : Page) (k : Nat) (p : Page) : Prop where
  free        : p.free = old.free
  liveCount   : p.liveCount = old.liveCount
  slots       : ∀ s, p.slots s = old.packedSlot k s
  names       : ∀ t < k, old.named t = true → ∀ i < (old.slots t).nameLen,
    p.heap (old.packed (t + 1) - i) = old.heap ((old.slots t).nameOffset - i)

theorem getD_nameRegion (old : Page) {s i : Nat} (hi : i < (old.slots s).nameLen) :
    (old.nameRegion s).getD i 0 = old.heap ((old.slots s).nameOffset - i) := by
  unfold Page.nameRegion
  rw [List.getD_eq_getElem?_getD, List.getElem?_map, List.getElem?_range hi]
  rfl

theorem Page.PackedTo.store {old : Page} {k : Nat} (h : old.PackedTo k p)
    (hNamed : old.named k = true) :
    old.PackedTo (k + 1)
      ((p.setSlot k { p.slots k with nameOffset := old.packed (k + 1) }).store
        (old.packed (k + 1)) (old.nameRegion k)) := by
  refine ⟨h.free, h.liveCount, ?_, ?_⟩
  · intro s
    show (if s = k then _ else _) = _
    by_cases hs : s = k
    · rw [if_pos hs, h.slots, hs, old.packedSlot_self]
      exact (if_pos ⟨Nat.lt_succ_self k, hNamed⟩).symm
    · rw [if_neg hs, h.slots, old.packedSlot_succ_of_ne hs]
  · intro t ht hNamedT i hi
    have hEnd := old.packed_named hNamed
    have hEndT := old.packed_named hNamedT
    rcases Nat.lt_succ_iff_lt_or_eq.mp ht with hLt | rfl
    · -- A name that is packed already ends before the place of this one.
      have hMono := old.packed_mono (show t + 1 ≤ k from hLt)
      rw [Page.store_heap_of_outside]
      · exact h.names t hLt hNamedT i hi
      · rw [old.length_nameRegion]
        omega
    · have hIn : old.packed (t + 1) < old.packed (t + 1) - i + (old.nameRegion t).length ∧
          old.packed (t + 1) - i ≤ old.packed (t + 1) := by
        rw [old.length_nameRegion]
        omega
      refine (if_pos hIn).trans ?_
      have hIndex : old.packed (t + 1) - (old.packed (t + 1) - i) = i := by omega
      rw [hIndex]
      exact getD_nameRegion old hi

theorem Page.PackedTo.skip {old : Page} {k : Nat} (h : old.PackedTo k p)
    (hNamed : old.named k ≠ true) : old.PackedTo (k + 1) p := by
  refine ⟨h.free, h.liveCount, ?_, ?_⟩
  · intro s
    by_cases hs : s = k
    · rw [h.slots s, hs, old.packedSlot_self]
      exact (if_neg fun hBoth => hNamed hBoth.2).symm
    · rw [h.slots s, old.packedSlot_succ_of_ne hs]
  · intro t ht hNamedT
    have hNe : t ≠ k := fun hEq => hNamed (hEq ▸ hNamedT)
    exact h.names t (by omega) hNamedT

theorem packSlot_packed {old : Page} {k : Nat} (h : old.PackedTo k p) (hp : w.pages b = some p) :
    ∃ q, old.PackedTo (k + 1) q ∧ Edits b q w (packSlot b old k w) := by
  unfold packSlot
  by_cases hNamed : old.named k = true
  · rw [if_pos hNamed]
    simp only [hp]
    exact ⟨_, h.store hNamed, (edits_put w b _).trans (edits_put _ b _)⟩
  · rw [if_neg hNamed]
    exact ⟨p, h.skip hNamed, hp, fun _ _ => rfl, rfl, rfl, rfl, rfl⟩

theorem foldl_packSlot {old : Page} (hp : w.pages b = some old) : ∀ k,
    ∃ q, old.PackedTo k q ∧
      Edits b q w ((List.range k).foldl (fun w slot => packSlot b old slot w) w)
  | 0 => by
    refine ⟨old, ⟨rfl, rfl, fun s => ?_, fun t ht => absurd ht (Nat.not_lt_zero t)⟩,
      hp, fun _ _ => rfl, rfl, rfl, rfl, rfl⟩
    exact (if_neg fun hBoth => absurd hBoth.1 (Nat.not_lt_zero s)).symm
  | k + 1 => by
    obtain ⟨q, hq, hEdits⟩ := foldl_packSlot hp k
    rw [List.range_succ, List.foldl_append]
    obtain ⟨q', hq', hEdits'⟩ := packSlot_packed hq hEdits.page
    exact ⟨q', hq', hEdits.trans hEdits'⟩

/-- A slot without a place in the packed heap has no name. -/
theorem Page.Sound.nameLen_of_not_named (h : p.Sound) {s : Nat} (hs : s < 64)
    (hNamed : p.named s ≠ true) : (p.slots s).nameLen = 0 := by
  by_contra hLen
  apply hNamed
  have hInside := h.names.inside s hs trivial
  refine (p.named_iff s).2 ⟨?_, by omega, hLen⟩
  by_contra hFree
  rw [h.zeroed s hs (by simpa using hFree)] at hLen
  exact hLen rfl

theorem Page.PackedTo.namesApart {old : Page} (hOld : old.Sound) (h : old.PackedTo 64 p) :
    ({ p with freeNameOff := old.packed 64 } : Page).NamesApart fun _ => True := by
  -- Every name has its place in the packed heap.
  have hPlace : ∀ t < 64, 0 < (p.slots t).nameLen → old.named t = true ∧
      (p.slots t).nameOffset = old.packed (t + 1) ∧
      old.packed (t + 1) = old.packed t + (p.slots t).nameLen := by
    intro t ht hPos
    have hNamed : old.named t = true := by
      by_contra hNot
      rw [h.slots, Page.packedSlot_nameLen, hOld.nameLen_of_not_named ht hNot] at hPos
      exact absurd hPos (Nat.lt_irrefl 0)
    refine ⟨hNamed, ?_, ?_⟩
    · rw [h.slots]
      unfold Page.packedSlot
      rw [if_pos ⟨ht, hNamed⟩]
    · rw [h.slots, Page.packedSlot_nameLen]
      exact old.packed_named hNamed
  refine ⟨?_, ?_, ?_⟩
  · intro t ht _
    show (p.slots t).nameLen ≤ (p.slots t).nameOffset
    rcases Nat.eq_zero_or_pos (p.slots t).nameLen with hZero | hPos
    · omega
    · obtain ⟨-, hOff, hEnd⟩ := hPlace t ht hPos
      omega
  · intro t ht _ hPos
    obtain ⟨-, hOff, -⟩ := hPlace t ht hPos
    show (p.slots t).nameOffset ≤ old.packed 64
    rw [hOff]
    exact old.packed_mono ht
  · intro t ht _ s hs hNe hPosT hPosS
    obtain ⟨-, hOffT, hEndT⟩ := hPlace t ht hPosT
    obtain ⟨-, hOffS, hEndS⟩ := hPlace s hs hPosS
    show (p.slots s).nameOffset + (p.slots t).nameLen ≤ (p.slots t).nameOffset ∨
      (p.slots t).nameOffset + (p.slots s).nameLen ≤ (p.slots s).nameOffset
    rcases Nat.lt_or_gt_of_ne hNe with hLt | hGt
    · have hMono := old.packed_mono (show s + 1 ≤ t from hLt)
      omega
    · have hMono := old.packed_mono (show t + 1 ≤ s from hGt)
      omega

theorem Page.PackedTo.node {old : Page} (hOld : old.Sound) (h : old.PackedTo 64 p) {s : Nat}
    (hs : s < 64) : p.node s = old.node s := by
  have hName : p.nameBytes (old.packedSlot 64 s) = old.nameBytes (old.slots s) := by
    unfold Page.nameBytes
    rw [Page.packedSlot_nameLen]
    refine List.map_congr_left fun i hi => ?_
    have hLt := List.mem_range.1 hi
    have hNamed : old.named s = true := by
      by_contra hNot
      rw [hOld.nameLen_of_not_named hs hNot] at hLt
      omega
    have hOff : (old.packedSlot 64 s).nameOffset = old.packed (s + 1) := by
      unfold Page.packedSlot
      rw [if_pos ⟨hs, hNamed⟩]
    rw [hOff, Nat.sub_sub, Nat.sub_sub]
    exact h.names s hs hNamed (2 + i) (by omega)
  have hFields : (old.packedSlot 64 s).toNode = (old.slots s).toNode := by
    unfold Page.packedSlot
    split
    · rfl
    · rfl
  unfold Page.node
  rw [h.free, h.slots, hName, hFields]

theorem Page.node_withOff (p : Page) (stop s : Nat) :
    ({ p with freeNameOff := stop } : Page).node s = p.node s := rfl

/-- A compaction changes no node. -/
theorem compactNames_node (hw : Sound w) (block : Nat) :
    ∃ w', compactNames block w = (.ok (), w') ∧ Sound w' ∧ w'.node = w.node := by
  unfold compactNames change
  cases hp : w.pages block with
  | none => exact ⟨w, by simp only [hp], hw, rfl⟩
  | some p =>
    simp only [hp]
    by_cases hSkip : p.freeNameOff = 0 ∨ w.noScratch = true ∨ p.sane = false
    · rw [if_pos hSkip]
      exact ⟨w, rfl, hw, rfl⟩
    · rw [if_neg hSkip]
      refine ⟨_, rfl, ?_⟩
      have hSane : p.sane = true := by
        by_contra hNot
        exact hSkip (.inr (.inr (by simpa using hNot)))
      have hPage := hw.pages block p hp
      unfold packNames
      have hp' : ({ w with compactions := (block, p) :: w.compactions } : World).pages block =
        some p := hp
      obtain ⟨q, hq, hEdits⟩ := foldl_packSlot hp' 64
      generalize (List.range 64).foldl (fun w slot => packSlot block p slot w)
        { w with compactions := (block, p) :: w.compactions } = v at hEdits ⊢
      simp only [hEdits.page]
      have hAll : Edits block { q with freeNameOff := p.packed 64 } w
          (v.put block { q with freeNameOff := p.packed 64 }) := by
        have hLast := hEdits.trans (edits_put v block { q with freeNameOff := p.packed 64 })
        exact ⟨hLast.page, hLast.others, hLast.alloc, hLast.dataStart, hLast.partials, hLast.hotBlock⟩
      refine ⟨hw.edit hAll ⟨⟨?_, ?_⟩, hq.namesApart hPage, ?_⟩ ?_, hAll.node_same hp ?_⟩
      · show q.liveCount = ((Finset.range 64).filter fun s => q.free s = false).card
        rw [hq.liveCount, hq.free]
        exact hPage.counts.count
      · exact (Page.packed_le hSane (Nat.le_refl _)).trans hPage.counts.room
      · intro s hs hFree
        show q.slots s = Slot.zero
        have hFree' : p.free s = true := by
          rw [← hq.free]
          exact hFree
        rw [hq.slots]
        unfold Page.packedSlot
        rw [if_neg]
        · exact hPage.zeroed s hs hFree'
        · intro hBoth
          rw [((p.named_iff s).1 hBoth.2).1] at hFree'
          cases hFree'
      · intro s hs hLive
        refine hw.taken block p hp s hs ?_
        rw [← hq.free]
        exact hLive
      · intro s hs
        rw [q.node_withOff]
        exact hq.node hPage hs

theorem Page.NamesApart.mono {K K' : Nat → Prop} (h : p.NamesApart K) (hSub : ∀ t, K' t → K t) :
    p.NamesApart K' :=
  ⟨fun t ht hK => h.inside t ht (hSub t hK), fun t ht hK => h.below t ht (hSub t hK),
    fun t ht hK => h.apart t ht (hSub t hK)⟩

/-- A slot gets a name past the end of the heap. -/
theorem Page.NamesApart.append (h : p.NamesApart fun _ => True) {m : Slot} {slot : Nat} (off : Nat)
    (hOff : m.nameOffset = off) (hLen : p.freeNameOff + m.nameLen = off) {q : Page}
    (hEnd : q.freeNameOff = off) (hSlot : ∀ t, q.slots t = if t = slot then m else p.slots t) :
    q.NamesApart fun _ => True := by
  refine ⟨?_, ?_, ?_⟩
  · intro t ht _
    rw [hSlot]
    split
    · omega
    · exact h.inside t ht trivial
  · intro t ht _ hPos
    rw [hSlot] at hPos ⊢
    split at hPos
    · rename_i hEq
      rw [if_pos hEq]
      omega
    · rename_i hNe
      rw [if_neg hNe]
      have hOld := h.below t ht trivial hPos
      omega
  · intro t ht _ s hs hNe hPosT hPosS
    rw [hSlot] at hPosT
    rw [hSlot] at hPosS
    unfold Slot.Apart
    rw [hSlot t, hSlot s]
    by_cases hT : t = slot
    · have hS : s ≠ slot := fun hEq => hNe (hEq.trans hT.symm)
      rw [if_neg hS] at hPosS ⊢
      rw [if_pos hT]
      have hOld := h.below s hs trivial hPosS
      omega
    · rw [if_neg hT] at hPosT ⊢
      by_cases hS : s = slot
      · rw [if_pos hS]
        have hOld := h.below t ht trivial hPosT
        omega
      · rw [if_neg hS] at hPosS ⊢
        exact h.apart t ht trivial s hs hNe hPosT hPosS

theorem Page.length_nameBytes (p : Page) (m : Slot) : (p.nameBytes m).length = m.nameLen - 2 := by
  simp [Page.nameBytes]

/-- A node whose place in the heap is new has a name of the length, not yet written. -/
theorem growName_node (hw : Sound w) (hn : w.node ref = some n) (len : Nat)
    (hRoom : ∀ p, w.pages (refBlock ref) = some p → p.freeNameOff + (len + 2) ≤ heapSize) :
    ∃ w' name, growName ref len w = (.ok (), w') ∧ Sound w' ∧ name.length = len ∧
      w'.node = Function.update w.node ref (some { n with name := name }) := by
  obtain ⟨hRef, p, hp, hLive, rfl⟩ := node_eq_some hn
  have hPage := hw.pages _ p hp
  have hTaken := hw.taken _ p hp _ (refSlot_lt ref) hLive
  have hFits := hRoom p hp
  generalize hm : ({ p.slots (refSlot ref) with
    nameOffset := p.freeNameOff + (len + 2), nameLen := len + 2 } : Slot) = m
  generalize hq : ({ p with freeNameOff := p.freeNameOff + (len + 2) } : Page).setSlot
    (refSlot ref) m = q
  have hEdits := edits_put w (refBlock ref) q
  have hSlots : ∀ t, q.slots t = if t = refSlot ref then m else p.slots t := by
    intro t
    rw [← hq]
    rfl
  have hFree : q.free = p.free := by
    rw [← hq]
    rfl
  have hHeap : q.heap = p.heap := by
    rw [← hq]
    rfl
  have hLen : m.nameLen = len + 2 := by rw [← hm]
  refine ⟨w.put (refBlock ref) q, q.nameBytes m, ?_, ?_, ?_, ?_⟩
  · unfold growName
    simp only [hp, hm, hq]
  · refine hw.edit hEdits ⟨⟨?_, ?_⟩, ?_, ?_⟩ fun _ _ _ => hTaken
    · rw [← hq]
      exact hPage.counts.count
    · rw [← hq]
      exact hFits
    · refine hPage.names.append (p.freeNameOff + (len + 2)) ?_ ?_ ?_ hSlots
      · rw [← hm]
      · rw [← hm]
      · rw [← hq]
        rfl
    · intro s hs hFreeS
      rw [hFree] at hFreeS
      have hNe : s ≠ refSlot ref := by
        rintro rfl
        exact absurd (hLive.symm.trans hFreeS) Bool.false_ne_true
      rw [hSlots, if_neg hNe]
      exact hPage.zeroed s hs hFreeS
  · rw [q.length_nameBytes, hLen]
    omega
  · rw [hEdits.node_update hp (refSlot_lt ref) (by rw [makeRef_refBlock]; exact hRef),
      makeRef_refBlock]
    · congr 1
      unfold Page.node
      rw [hFree, hLive, if_neg Bool.false_ne_true, hSlots, if_pos rfl, ← hm]
      rfl
    · intro s hs hNe
      unfold Page.node
      rw [hFree, hSlots, if_neg hNe]
      unfold Page.nameBytes
      rw [hHeap]

theorem getD_nameRecord (name : List UInt8) (i : Nat) :
    (nameRecord name).getD (2 + i) 0 = name.getD i 0 := by
  unfold nameRecord
  rw [Nat.add_comm]
  rfl

/-- The bytes of a name that fits into the node's place. -/
theorem writeName_node (hw : Sound w) (hn : w.node ref = some n) {name : List UInt8}
    (hSome : name ≠ []) (hFits : name.length ≤ n.name.length) :
    ∃ w', writeName ref name w = (.ok (), w') ∧ Sound w' ∧
      w'.node = Function.update w.node ref (some { n with name := name }) := by
  obtain ⟨hRef, p, hp, hLive, rfl⟩ := node_eq_some hn
  have hPage := hw.pages _ p hp
  have hTaken := hw.taken _ p hp _ (refSlot_lt ref) hLive
  have hPos := List.length_pos_of_ne_nil hSome
  have hInside := hPage.names.inside _ (refSlot_lt ref) trivial
  have hRoom : name.length + 2 ≤ (p.slots (refSlot ref)).nameLen := by
    have hLen := p.length_nameBytes (p.slots (refSlot ref))
    have hFits' : name.length ≤ (p.nameBytes (p.slots (refSlot ref))).length := hFits
    omega
  generalize hm : ({ p.slots (refSlot ref) with nameLen := name.length + 2 } : Slot) = m
  generalize hStored : p.store (p.slots (refSlot ref)).nameOffset (nameRecord name) = p₁
  have hSlots₁ : p₁.slots = p.slots := by
    rw [← hStored]
    rfl
  have hFree₁ : p₁.free = p.free := by
    rw [← hStored]
    rfl
  have hSpares : p.Spares (fun t => t ≠ refSlot ref) p₁ := by
    rw [← hStored]
    refine (hPage.names.mono fun _ _ => trivial).store (refSlot_lt ref) (fun h => h rfl) ?_ nofun
    rw [length_nameRecord]
    exact hRoom
  have hEdits := (edits_put w (refBlock ref) p₁).trans
    (edits_put _ (refBlock ref) (p₁.setSlot (refSlot ref) m))
  have hNames₁ : p₁.NamesApart fun _ => True := by
    refine ⟨?_, ?_, ?_⟩
    · rw [hSlots₁]
      exact hPage.names.inside
    · rw [hSlots₁, ← hStored]
      exact hPage.names.below
    · rw [hSlots₁]
      exact hPage.names.apart
  refine ⟨_, ?_, hw.edit hEdits ⟨⟨?_, ?_⟩, hNames₁.setSlot ?_ ?_, ?_⟩ fun _ _ _ => hTaken, ?_⟩
  · unfold writeName
    simp only [hp, hStored, hm]
  · rw [← hStored]
    exact hPage.counts.count
  · rw [← hStored]
    exact hPage.counts.room
  · rw [hSlots₁, ← hm]
  · rw [hSlots₁, ← hm]
    exact hRoom
  · intro s hs hFreeS
    have hFreeS' : p.free s = true := by
      rw [← hFree₁]
      exact hFreeS
    have hNe : s ≠ refSlot ref := by
      rintro rfl
      exact absurd (hLive.symm.trans hFreeS') Bool.false_ne_true
    rw [p₁.setSlot_slots_of_ne _ hNe, hSlots₁]
    exact hPage.zeroed s hs hFreeS'
  · rw [hEdits.node_update hp (refSlot_lt ref) (by rw [makeRef_refBlock]; exact hRef),
      makeRef_refBlock]
    · congr 1
      unfold Page.node
      have hFree : (p₁.setSlot (refSlot ref) m).free (refSlot ref) = false := by
        rw [← hLive, ← hFree₁]
        rfl
      rw [hFree, if_neg Bool.false_ne_true, p₁.setSlot_slots_self]
      have hBytes : (p₁.setSlot (refSlot ref) m).nameBytes m = name := by
        unfold Page.nameBytes
        refine List.ext_getElem ?_ ?_
        · rw [← hm]
          simp
        · intro i _ hi
          rw [List.getElem_map, List.getElem_range]
          show p₁.heap (m.nameOffset - 2 - i) = name.get ⟨i, hi⟩
          rw [← hm, ← hStored]
          have hIn : (p.slots (refSlot ref)).nameOffset <
              (p.slots (refSlot ref)).nameOffset - 2 - i + (nameRecord name).length ∧
              (p.slots (refSlot ref)).nameOffset - 2 - i ≤ (p.slots (refSlot ref)).nameOffset := by
            rw [length_nameRecord]
            omega
          refine (if_pos hIn).trans ?_
          have hIndex : (p.slots (refSlot ref)).nameOffset -
              ((p.slots (refSlot ref)).nameOffset - 2 - i) = 2 + i := by omega
          rw [hIndex, getD_nameRecord, List.getD_eq_getElem?_getD, List.getElem?_eq_getElem hi]
          rfl
      rw [hBytes, ← hm]
      rfl
    · intro s hs hNe
      unfold Page.node
      have hFree : (p₁.setSlot (refSlot ref) m).free s = p.free s := by
        rw [← hFree₁]
        rfl
      rw [hFree, p₁.setSlot_slots_of_ne _ hNe, hSlots₁]
      have hBytes : (p₁.setSlot (refSlot ref) m).nameBytes (p.slots s) = p.nameBytes (p.slots s) :=
        Page.nameBytes_congr (fun d hLow hHigh => hSpares.name s hs hNe d hLow hHigh) rfl rfl
          (hPage.names.inside s hs trivial)
      rw [hBytes]

--
-- Running steps
--

section Run

variable {α β : Type} {x : TrieM α} {f : α → TrieM β}

theorem bind_ok {a : α} (h : x w = (.ok a, w')) : (x >>= f) w = f a w' := by
  show TrieM.seq x f w = f a w'
  unfold TrieM.seq
  rw [h]

theorem bind_error {e : Errno} (h : x w = (.error e, w')) : (x >>= f) w = (.error e, w') := by
  show TrieM.seq x f w = (.error e, w')
  unfold TrieM.seq
  rw [h]

theorem attempt_eq {r : Except Errno α} (h : x w = (r, w')) : attempt x w = (.ok r, w') := by
  unfold attempt
  rw [h]

end Run

theorem heapFull_page (hp : w.pages b = some p) (size : Nat) :
    heapFull b size w = (.ok (decide (heapSize < p.freeNameOff + size)), w) := by
  unfold heapFull view
  simp only [hp]

/-- A node gets room for a name, or the page has none. -/
theorem allocName_node (hw : Sound w) (hn : w.node ref = some n) {len : Nat} (hPos : len ≠ 0)
    (hLen : len ≤ nameLen) :
    (∃ w' name, allocName ref len w = (.ok (), w') ∧ Sound w' ∧ len ≤ name.length ∧
      w'.node = Function.update w.node ref (some { n with name := name })) ∨
    (n.name.length < len ∧ ∃ w', allocName ref len w = (.error .enospc, w') ∧ Sound w' ∧
      w'.node = w.node) := by
  obtain ⟨m, hRead, -, hNameLen⟩ := readSlot_node hn
  -- What follows once the heap has been looked at.
  have hGrow : ∀ v : World, Sound v → v.node = w.node → ∀ full,
      heapFull (refBlock ref) (len + 2) v = (.ok full, v) → full = false →
      ∃ w' name, growName ref len v = (.ok (), w') ∧ Sound w' ∧ len ≤ name.length ∧
        w'.node = Function.update w.node ref (some { n with name := name }) := by
    intro v hv hSame full hFull hRoom
    rw [← hSame] at hn
    obtain ⟨w', name, hRun, hSound, hName, hNode⟩ := growName_node hv hn len (by
      intro p hp
      rw [heapFull_page hp, hRoom] at hFull
      have hLe : ¬ heapSize < p.freeNameOff + (len + 2) :=
        of_decide_eq_false (Except.ok.inj (Prod.mk.inj hFull).1)
      omega)
    exact ⟨w', name, hRun, hSound, hName.ge, by rw [hNode, hSame]⟩
  have hUnfold : allocName ref len w =
      (if 0 < m.nameOffset ∧ len + 2 ≤ m.nameLen then ret () else do
        let full ← heapFull (refBlock ref) (len + 2)
        if full then do
          compactNames (refBlock ref)
          let full ← heapFull (refBlock ref) (len + 2)
          if full then fail .enospc else growName ref len
        else growName ref len) w := by
    unfold allocName
    rw [if_neg hPos, if_neg (Nat.not_lt.mpr hLen), bind_ok hRead]
  rw [hUnfold]
  by_cases hFits : 0 < m.nameOffset ∧ len + 2 ≤ m.nameLen
  · rw [if_pos hFits]
    refine Or.inl ⟨w, n.name, rfl, hw, by omega, ?_⟩
    rw [Function.update_eq_self_iff.mpr hn.symm]
  · rw [if_neg hFits]
    obtain ⟨hRef, p, hp, hLive, hEq⟩ := node_eq_some hn
    have hShort : n.name.length < len := by
      have hInside := (hw.pages _ p hp).names.inside _ (refSlot_lt ref) trivial
      have hm : m = p.slots (refSlot ref) := by
        unfold readSlot at hRead
        rw [Pages.slot?_eq_some.2 ⟨hRef, p, hp, rfl⟩] at hRead
        exact (Except.ok.inj (Prod.mk.inj hRead).1).symm
      rw [hm] at hFits hNameLen
      omega
    rw [bind_ok (heapFull_page hp _)]
    cases hFull : decide (heapSize < p.freeNameOff + (len + 2)) with
    | false =>
      rw [if_neg Bool.false_ne_true]
      exact Or.inl (hGrow w hw rfl _ (heapFull_page hp _) hFull)
    | true =>
      rw [if_pos rfl]
      obtain ⟨v, hCompact, hv, hSame⟩ := compactNames_node hw (refBlock ref)
      rw [bind_ok hCompact]
      have hn' := hn
      rw [← hSame] at hn'
      obtain ⟨-, q, hq, -, -⟩ := node_eq_some hn'
      rw [bind_ok (heapFull_page hq _)]
      cases hFull' : decide (heapSize < q.freeNameOff + (len + 2)) with
      | false =>
        rw [if_neg Bool.false_ne_true]
        exact Or.inl (hGrow v hv hSame _ (heapFull_page hq _) hFull')
      | true =>
        rw [if_pos rfl]
        exact Or.inr ⟨hShort, v, rfl, hv, hSame⟩

/-- `briefs_trie_node_store_name` stores the name or changes no node; a node that has a
longer name already has room for it. -/
theorem storeName_node (hw : Sound w) (hn : w.node ref = some n) {name : List UInt8}
    (hSome : name ≠ []) (hLen : name.length ≤ nameLen) :
    (∃ w', storeName ref name w = (.ok (), w') ∧ Sound w' ∧
      w'.node = Function.update w.node ref (some { n with name := name })) ∨
    (n.name.length < name.length ∧ ∃ w', storeName ref name w = (.error .enospc, w') ∧ Sound w' ∧
      w'.node = w.node) := by
  have hPos : name.length ≠ 0 := (List.length_pos_of_ne_nil hSome).ne'
  obtain ⟨m, hRead, -, -⟩ := readSlot_node hn
  have hUnfold : storeName ref name w =
      (allocName ref name.length >>= fun _ => writeName ref name) w := by
    unfold storeName
    rw [if_neg (Nat.not_lt.mpr hLen), bind_ok hRead]
    simp only [if_neg hPos]
  rw [hUnfold]
  rcases allocName_node hw hn hPos hLen with
    ⟨v, room, hRun, hv, hRoom, hNode⟩ | ⟨hShort, v, hRun, hv, hSame⟩
  · rw [bind_ok hRun]
    have hn' : v.node ref = some { n with name := room } := by rw [hNode, Function.update_self]
    obtain ⟨w', hRun', hSound, hNode'⟩ := writeName_node hv hn' hSome hRoom
    refine Or.inl ⟨w', hRun', hSound, ?_⟩
    rw [hNode', hNode, Function.update_idem]
  · rw [bind_error hRun]
    exact Or.inr ⟨hShort, v, rfl, hv, hSame⟩

--
-- New nodes
--

/-- The state but for the pool. -/
theorem Sound.withPool (hw : Sound w) {partials : List (Nat × Nat)} {hotBlock hotHint : Nat}
    (hPool : ∀ e ∈ partials, w.Taken e.1) (hHot : hotBlock ≠ 0 → w.Taken hotBlock) :
    Sound { w with partials := partials, hotBlock := hotBlock, hotHint := hotHint } :=
  ⟨hw.pages, hw.taken, hPool, hHot⟩

/-- An allocation gives a node that was not in use, with room for a name, or none. -/
def Allocates (len : Nat) (w : World) (r : Except Errno (Option Nat) × World) : Prop :=
  Sound r.2 ∧ ((r.1 = .ok none ∧ r.2.node = w.node) ∨
    ∃ ref name, r.1 = .ok (some ref) ∧ ref ≠ 0 ∧ w.node ref = none ∧ name.length = len ∧
      r.2.node = Function.update w.node ref (some (Slot.zero.toNode name)))

/-- Allocations that start from the same nodes. -/
theorem Allocates.of_same {len : Nat} {r : Except Errno (Option Nat) × World}
    (h : Allocates len w' r) (hSame : w'.node = w.node) : Allocates len w r := by
  unfold Allocates at h ⊢
  rw [hSame] at h
  exact h

theorem node_eq_none (hRef : ref ≠ 0) (hp : w.pages (refBlock ref) = some p)
    (hFree : p.free (refSlot ref) = true) : w.node ref = none := by
  rw [node_of_page hRef hp]
  unfold Page.node
  rw [hFree, if_pos rfl]

theorem Page.Sound.takeSlot (h : p.Sound) {slot size : Nat} (hs : slot < 64)
    (hFree : p.free slot = true) (hRoom : p.freeNameOff + size ≤ heapSize) :
    (p.takeSlot slot size).Sound := by
  obtain ⟨hCount, hBits, hOff, hDiffers, -, -⟩ := p.takeSlot_spec slot size
  refine ⟨⟨?_, ?_⟩, ?_, ?_⟩
  · rw [hCount, hBits, card_live_take hs hFree, h.counts.count]
  · rw [hOff]
    exact hRoom
  · unfold Page.takeSlot
    by_cases hSize : size = 0
    · simp only [if_pos hSize]
      have hClear := h.zeroed slot hs hFree
      have hNames : (p.setSlot slot Slot.zero).NamesApart fun _ => True :=
        h.names.setSlot (by rw [hClear]) (by rw [hClear])
      exact ⟨hNames.inside, hNames.below, hNames.apart⟩
    · simp only [if_neg hSize]
      exact h.names.append (p.freeNameOff + size) rfl rfl rfl fun _ => rfl
  · intro s hsl hFreeS
    rw [hBits] at hFreeS
    have hNe : s ≠ slot := by
      rintro rfl
      simp at hFreeS
    rw [hDiffers.slots s hNe]
    refine h.zeroed s hsl ?_
    simpa [hNe] using hFreeS

theorem allocFromBlock_node (hw : Sound w) (hTaken : w.Taken b) {len size : Nat}
    (hSize : size = if len = 0 then 0 else len + 2) :
    ∃ r w', allocFromBlock b size w = (.ok r, w') ∧ Sound w' ∧
      w'.partials = w.partials ∧ (∀ b', w'.Taken b' ↔ w.Taken b') ∧
      ((r = none ∧ w'.node = w.node) ∨
        ∃ ref full name, r = some (ref, full) ∧ ref ≠ 0 ∧ w.node ref = none ∧ name.length = len ∧
          w'.node = Function.update w.node ref (some (Slot.zero.toNode name))) := by
  unfold allocFromBlock
  have hNone : ∃ r w', ((.ok none, w) : Except Errno (Option (Nat × Bool)) × World) = (.ok r, w') ∧
      Sound w' ∧ w'.partials = w.partials ∧ (∀ b', w'.Taken b' ↔ w.Taken b') ∧
      ((r = none ∧ w'.node = w.node) ∨
        ∃ ref full name, r = some (ref, full) ∧ ref ≠ 0 ∧ w.node ref = none ∧ name.length = len ∧
          w'.node = Function.update w.node ref (some (Slot.zero.toNode name))) :=
    ⟨none, w, rfl, hw, rfl, fun _ => Iff.rfl, Or.inl ⟨rfl, rfl⟩⟩
  cases hp : w.pages b with
  | none => exact hNone
  | some p =>
    dsimp only
    by_cases hFull : heapSize < p.freeNameOff + size ∧ size ≠ 0
    · rw [if_pos hFull]
      exact hNone
    · rw [if_neg hFull]
      cases hSlot : p.freeSlot with
      | none => exact hNone
      | some slot =>
        obtain ⟨hs, hFree⟩ := Page.freeSlot_spec hSlot
        have hPage := hw.pages b p hp
        have hRoom : p.freeNameOff + size ≤ heapSize := by
          have := hPage.counts.room
          by_contra hNot
          exact hFull ⟨by omega, by omega⟩
        obtain ⟨-, hBits, -, hDiffers, -, -⟩ := p.takeSlot_spec slot size
        have hEdits := edits_put w b (p.takeSlot slot size)
        have hRef : makeRef b slot ≠ 0 := hTaken.ne_zero
        refine ⟨_, _, rfl, hw.edit hEdits (hPage.takeSlot hs hFree hRoom) fun _ _ _ => hTaken, rfl,
          fun b' => hEdits.taken, Or.inr ⟨_, _, (p.takeSlot slot size).nameBytes
            ((p.takeSlot slot size).slots slot), rfl, hRef, ?_, ?_, ?_⟩⟩
        · refine node_eq_none hRef (p := p) ?_ ?_
          · rw [refBlock_makeRef, hp]
          · rw [refSlot_makeRef hs, hFree]
        · rw [Page.length_nameBytes]
          unfold Page.takeSlot
          by_cases hZero : len = 0
          · rw [if_pos hZero] at hSize
            simp only [if_pos hSize, Page.setSlot_slots_self]
            rw [hZero]
            rfl
          · rw [if_neg hZero] at hSize
            have hNe : size ≠ 0 := by omega
            simp only [if_neg hNe, Page.setSlot_slots_self]
            omega
        · rw [hEdits.node_update hp hs hRef]
          · congr 1
            unfold Page.node
            have hLive : (p.takeSlot slot size).free slot = false := by
              rw [hBits]
              exact if_pos rfl
            have hFields : ((p.takeSlot slot size).slots slot).toNode = Slot.zero.toNode := by
              unfold Page.takeSlot
              by_cases hZero : size = 0
              · simp only [if_pos hZero, Page.setSlot_slots_self]
              · simp only [if_neg hZero, Page.setSlot_slots_self]
                rfl
            rw [hLive, if_neg Bool.false_ne_true, hFields]
          · intro s hsl hNe
            unfold Page.node Page.nameBytes
            rw [hDiffers.slots s hNe, hDiffers.free s hNe, hDiffers.heap]

theorem scanPool_node {len size : Nat} (hSize : size = if len = 0 then 0 else len + 2)
    (mine : Nat → Bool) : ∀ (pool : List (Nat × Nat)) {w : World}, Sound w →
    (∀ e ∈ pool, w.Taken e.1) → Allocates len w (scanPool size mine pool w)
  | [], w, hw, _ => ⟨hw, Or.inl ⟨rfl, rfl⟩⟩
  | (block, hint) :: rest, w, hw, hPool => by
    have hTaken := hPool _ List.mem_cons_self
    have hRest : ∀ e ∈ rest, w.Taken e.1 := fun e he => hPool e (List.mem_cons_of_mem _ he)
    unfold scanPool
    by_cases hMine : mine hint = true
    · rw [if_pos hMine]
      obtain ⟨r, v, hRun, hv, hParts, hSame, hOut⟩ := allocFromBlock_node hw hTaken hSize
      simp only []
      rw [bind_ok hRun]
      rcases hOut with ⟨rfl, hNode⟩ | ⟨ref, full, name, rfl, hRef, hFresh, hName, hNode⟩
      · dsimp only
        exact (scanPool_node hSize mine rest hv fun e he => (hSame _).mpr (hRest e he)).of_same hNode
      · dsimp only
        cases full with
        | true =>
          rw [if_pos rfl]
          refine ⟨?_, Or.inr ⟨ref, name, rfl, hRef, hFresh, hName, hNode⟩⟩
          refine hv.withPool ?_ hv.hot
          intro e he
          exact hv.pool e (List.mem_filter.mp he).1
        | false =>
          rw [if_neg Bool.false_ne_true]
          refine ⟨?_, Or.inr ⟨ref, name, rfl, hRef, hFresh, hName, hNode⟩⟩
          exact hv.withPool hv.pool fun _ => (hSame _).mpr hTaken
    · rw [if_neg hMine]
      exact scanPool_node hSize mine rest hw hRest

theorem allocHot_node (hw : Sound w) {len size : Nat}
    (hSize : size = if len = 0 then 0 else len + 2) (hint : Nat) :
    Allocates len w (allocHot size hint w) := by
  unfold allocHot
  rw [bind_ok (show view (fun w => (w.hotBlock, w.hotHint)) w = (.ok (w.hotBlock, w.hotHint), w)
    from rfl)]
  dsimp only
  by_cases hHot : w.hotBlock ≠ 0 ∧ (hint = 0 ∨ w.hotHint = hint)
  · rw [if_pos hHot]
    obtain ⟨r, v, hRun, hv, hParts, hSame, hOut⟩ := allocFromBlock_node hw (hw.hot hHot.1) hSize
    rw [bind_ok hRun]
    have hCold : Sound (v.setHot 0 0) := hv.withPool hv.pool fun h => absurd rfl h
    rcases hOut with ⟨rfl, hNode⟩ | ⟨ref, full, name, rfl, hRef, hFresh, hName, hNode⟩
    · exact ⟨hCold, Or.inl ⟨rfl, hNode⟩⟩
    · dsimp only
      cases full with
      | true => exact ⟨hCold, Or.inr ⟨ref, name, rfl, hRef, hFresh, hName, hNode⟩⟩
      | false => exact ⟨hv, Or.inr ⟨ref, name, rfl, hRef, hFresh, hName, hNode⟩⟩
  · rw [if_neg hHot]
    exact ⟨hw, Or.inl ⟨rfl, rfl⟩⟩

theorem Page.fresh_sound (depth : Nat) (byteVal : UInt8) (interm : Bool) :
    (Page.fresh depth byteVal interm).Sound := by
  have hEmpty : ∀ t, ((Page.fresh depth byteVal interm).slots t).nameLen = 0 := by
    intro t
    unfold Page.fresh
    dsimp only
    split
    · rfl
    · rfl
  refine ⟨Page.fresh_counts depth byteVal interm, ⟨?_, ?_, ?_⟩, ?_⟩
  · intro t _ _
    rw [hEmpty t]
    exact Nat.zero_le _
  · intro t _ _ hPos
    rw [hEmpty t] at hPos
    exact absurd hPos (Nat.lt_irrefl 0)
  · intro t _ _ s _ _ hPos
    rw [hEmpty t] at hPos
    exact absurd hPos (Nat.lt_irrefl 0)
  · intro s _ hFree
    have hNe : s ≠ 0 := by simpa [Page.fresh] using hFree
    exact if_neg hNe

/-- A new page has one node; the device may be full. -/
theorem pageInit_node (hw : Sound w) (depth : Nat) (byteVal : UInt8) (interm : Bool) :
    (∃ w', pageInit depth byteVal interm w = (.error .enospc, w') ∧ Sound w' ∧ w'.node = w.node) ∨
    ∃ ref w', pageInit depth byteVal interm w = (.ok ref, w') ∧ Sound w' ∧ ref ≠ 0 ∧
      w'.Taken (refBlock ref) ∧ w.node ref = none ∧
      w'.pages (refBlock ref) = some (Page.fresh depth byteVal interm) ∧
      w'.node = Function.update w.node ref (some
        ({ Slot.zero with depth := depth, byteVal := byteVal, interm := interm }.toNode [])) := by
  have hTook := Replay.allocTrieBlock_spec w.alloc
  unfold pageInit
  cases hAlloc : Replay.allocTrieBlock w.alloc with
  | mk rel a =>
    rw [hAlloc] at hTook
    dsimp only
    -- What was in use still is.
    have hKept : ∀ b, w.Taken b → ({ w with alloc := a } : World).Taken b := by
      rintro b ⟨hPast, hUsed⟩
      refine ⟨hPast, ?_⟩
      show a.isFree (b - w.dataStart) = false
      rw [hTook.frame _ (by omega), hUsed]
      rfl
    have hv : Sound { w with alloc := a } :=
      ⟨hw.pages, fun b p hp s hs hLive => hKept b (hw.taken b p hp s hs hLive),
        fun e he => hKept _ (hw.pool e he), fun hHot => hKept _ (hw.hot hHot)⟩
    by_cases hRel : rel = 0
    · rw [if_pos hRel]
      exact Or.inl ⟨_, rfl, hv, rfl⟩
    · rw [if_neg hRel]
      have hTaken : ({ w with alloc := a } : World).Taken (w.dataStart + rel) := by
        refine ⟨by show w.dataStart < _; omega, ?_⟩
        show a.isFree (w.dataStart + rel - w.dataStart) = false
        rw [Nat.add_sub_cancel_left, hTook.frame _ hRel]
        simp
      have hRef : makeRef (w.dataStart + rel) 0 ≠ 0 := hTaken.ne_zero
      -- The block was free, so no node was in it.
      have hEmpty : ∀ s < 64, w.node (makeRef (w.dataStart + rel) s) = none := by
        intro s hs
        cases hn : w.node (makeRef (w.dataStart + rel) s) with
        | none => rfl
        | some n =>
          obtain ⟨-, p, hp, hLive, -⟩ := node_eq_some hn
          rw [refBlock_makeRef] at hp
          obtain ⟨-, hUsed⟩ := hw.taken _ p hp _ (refSlot_lt _) hLive
          rw [Nat.add_sub_cancel_left, hTook.wasFree hRel] at hUsed
          cases hUsed
      have hEdits := edits_put { w with alloc := a } (w.dataStart + rel)
        (Page.fresh depth byteVal interm)
      have hBlock : refBlock (makeRef (w.dataStart + rel) 0) = w.dataStart + rel :=
        refBlock_makeRef _ _
      refine Or.inr ⟨_, _, rfl, hv.edit hEdits (Page.fresh_sound _ _ _) fun _ _ _ => hTaken, hRef,
        ?_, hEmpty 0 (by decide), ?_, ?_⟩
      · rw [hBlock, hEdits.taken]
        exact hTaken
      · rw [hBlock]
        exact hEdits.page
      · funext ref
        by_cases hEq : ref = makeRef (w.dataStart + rel) 0
        · rw [hEq, Function.update_self, node_of_page hRef (by rw [hBlock]; exact hEdits.page),
            refSlot_makeRef (by decide)]
          rfl
        · rw [Function.update_of_ne hEq]
          by_cases hZero : ref = 0
          · rw [hZero, node_zero, node_zero]
          · by_cases hb : refBlock ref = w.dataStart + rel
            · have hMake : makeRef (w.dataStart + rel) (refSlot ref) = ref := by
                rw [← hb, makeRef_refBlock]
              have hSlot : refSlot ref ≠ 0 := by
                intro hSlot
                rw [hSlot] at hMake
                exact hEq hMake.symm
              have hOld := hEmpty _ (refSlot_lt ref)
              rw [hMake] at hOld
              rw [hOld]
              refine node_eq_none hZero (by rw [hb]; exact hEdits.page) ?_
              show decide (refSlot ref ≠ 0) = true
              exact decide_eq_true hSlot
            · unfold World.node
              rw [hEdits.others _ hb]

theorem addPartial_node (hw : Sound w) (hTaken : w.Taken b) (hint : Nat) :
    ∃ w', addPartial b hint w = (.ok (), w') ∧ Sound w' ∧ w'.node = w.node ∧
      (∀ b', w'.Taken b' ↔ w.Taken b') ∧ w'.pages = w.pages := by
  have hList : Sound (w.listPage b hint) ∧ (w.listPage b hint).node = w.node ∧
      (∀ b', (w.listPage b hint).Taken b' ↔ w.Taken b') ∧ (w.listPage b hint).pages = w.pages := by
    unfold World.listPage
    split
    · exact ⟨hw, rfl, fun _ => Iff.rfl, rfl⟩
    · refine ⟨hw.withPool ?_ hw.hot, rfl, fun _ => Iff.rfl, rfl⟩
      intro e he
      rcases List.mem_cons.mp he with rfl | hOld
      · exact hTaken
      · exact hw.pool e hOld
  obtain ⟨hv, hNode, hSame, hPages⟩ := hList
  unfold addPartial change
  refine ⟨_, rfl, ?_⟩
  dsimp only
  split
  · exact ⟨hv.withPool hv.pool fun _ => (hSame b).mpr hTaken, hNode, hSame, hPages⟩
  · exact ⟨hv, hNode, hSame, hPages⟩

theorem allocPage_node (hw : Sound w) {len size : Nat}
    (hSize : size = if len = 0 then 0 else len + 2) (hLen : len ≤ nameLen) (hint : Nat) :
    Allocates len w (allocPage size hint w) := by
  unfold allocPage
  rcases pageInit_node hw 0 0 false with ⟨v, hRun, hv, hSame⟩ |
    ⟨ref, v, hRun, hv, hRef, hTaken, hFresh, hPage, hNode⟩
  · rw [bind_ok (attempt_eq hRun)]
    exact ⟨hv, Or.inl ⟨rfl, hSame⟩⟩
  · rw [bind_ok (attempt_eq hRun)]
    dsimp only
    -- The rest, once the name is reserved.
    have hRest : ∀ (v : World) (name : List UInt8), Sound v → v.Taken (refBlock ref) →
        name.length = len → v.node = Function.update w.node ref (some (Slot.zero.toNode name)) →
        Allocates len w ((do
          addPartial (refBlock ref) hint
          change fun w => w.setHot (refBlock ref) hint
          ret (some ref) : TrieM (Option Nat)) v) := by
      intro v name hv hTaken hName hNode
      obtain ⟨u, hAdd, hu, hSame, hSameTaken, -⟩ := addPartial_node hv hTaken hint
      rw [bind_ok hAdd]
      refine ⟨hu.withPool hu.pool fun _ => (hSameTaken _).mpr hTaken,
        Or.inr ⟨ref, name, rfl, hRef, hFresh, hName, ?_⟩⟩
      exact hSame.trans hNode
    by_cases hZero : len = 0
    · rw [if_pos hZero] at hSize
      rw [if_pos hSize]
      exact hRest v [] hv hTaken hZero.symm hNode
    · rw [if_neg hZero] at hSize
      have hNe : size ≠ 0 := by omega
      rw [if_neg hNe]
      have hn : v.node ref = some (Slot.zero.toNode []) := by
        rw [hNode, Function.update_self]
        rfl
      obtain ⟨u, name, hGrow, hu, hName, hNode'⟩ := growName_node hv hn (size - 2) (by
        intro p hp
        obtain rfl := Option.some.inj (hPage.symm.trans hp)
        show 0 + (size - 2 + 2) ≤ heapSize
        have hHeap : nameLen + 2 + 2 ≤ heapSize := by decide
        omega)
      rw [bind_ok hGrow]
      refine hRest u name hu ?_ (by omega) ?_
      · unfold growName at hGrow
        simp only [hPage] at hGrow
        rw [← (Prod.mk.inj hGrow).2, (edits_put v _ _).taken]
        exact hTaken
      · rw [hNode', hNode, Function.update_idem]
        rfl

theorem Allocates.orElse {len : Nat} {x : TrieM (Option Nat)} {k : TrieM (Option Nat)}
    (hx : Allocates len w (x w)) (hk : ∀ v, Sound v → v.node = w.node → Allocates len w (k v)) :
    Allocates len w ((x >>= fun r => match r with
      | some ref => ret (some ref)
      | none => k) w) := by
  obtain ⟨hv, hOut⟩ := hx
  cases hRun : x w with
  | mk r v =>
    rw [hRun] at hv hOut
    rcases hOut with ⟨hNone, hSame⟩ | ⟨ref, name, hSome, hNew⟩
    · obtain rfl : r = .ok none := hNone
      rw [bind_ok hRun]
      exact hk v hv hSame
    · obtain rfl : r = .ok (some ref) := hSome
      rw [bind_ok hRun]
      exact ⟨hv, Or.inr ⟨ref, name, rfl, hNew⟩⟩

theorem allocNode_node (hw : Sound w) {len : Nat} (hLen : len ≤ nameLen) (hint : Nat) :
    Allocates len w (allocNode len hint w) := by
  unfold allocNode
  generalize hSize : (if len = 0 then 0 else len + 2) = size
  refine (allocHot_node hw hSize.symm hint).orElse fun v hv hSame => ?_
  rw [bind_ok (show view (fun w => w.partials.take 64) v = (.ok (v.partials.take 64), v) from rfl)]
  have hPool : ∀ u : World, Sound u → ∀ e ∈ u.partials.take 64, u.Taken e.1 :=
    fun u hu e he => hu.pool e (List.mem_of_mem_take he)
  refine Allocates.of_same (.orElse (scanPool_node hSize.symm _ _ hv (hPool v hv)) ?_) hSame
  intro u hu hSame
  rw [bind_ok (show view (fun w => w.partials.take 64) u = (.ok (u.partials.take 64), u) from rfl)]
  refine Allocates.of_same (.orElse (scanPool_node hSize.symm _ _ hu (hPool u hu)) ?_) hSame
  intro t ht hSame
  exact (allocPage_node ht hSize.symm hLen hint).of_same hSame

--
-- Freeing a node
--

theorem Page.Sound.dropSlot (h : p.Sound) {slot : Nat} (hs : slot < 64)
    (hLive : p.free slot = false) : (p.dropSlot slot).Sound := by
  have hSlot : ∀ t, (p.dropSlot slot).slots t = if t = slot then Slot.zero else p.slots t :=
    fun _ => rfl
  refine ⟨Page.dropSlot_counts h.counts hs hLive, ⟨?_, ?_, ?_⟩, ?_⟩
  · intro t ht _
    rw [hSlot]
    split
    · exact Nat.le_refl _
    · exact h.names.inside t ht trivial
  · intro t ht _ hPos
    rw [hSlot] at hPos ⊢
    split at hPos
    · exact absurd hPos (Nat.lt_irrefl 0)
    · rename_i hNe
      rw [if_neg hNe]
      exact h.names.below t ht trivial hPos
  · intro t ht _ s hs' hNe hPosT hPosS
    rw [hSlot] at hPosT hPosS
    rw [hSlot, hSlot]
    by_cases hT : t = slot
    · rw [if_pos hT] at hPosT
      exact absurd hPosT (Nat.lt_irrefl 0)
    · by_cases hS : s = slot
      · rw [if_pos hS] at hPosS
        exact absurd hPosS (Nat.lt_irrefl 0)
      · rw [if_neg hT] at hPosT ⊢
        rw [if_neg hS] at hPosS ⊢
        exact h.names.apart t ht trivial s hs' hNe hPosT hPosS
  · intro s hsl hFree
    rw [hSlot]
    split
    · rfl
    · rename_i hNe
      refine h.zeroed s hsl ?_
      have hFree' : (if s = slot then true else p.free s) = true := hFree
      rwa [if_neg hNe] at hFree'

/-- `briefs_trie_free_node` on a node that is in use. -/
theorem freeNode_node (hw : Sound w) (hn : w.node ref = some n) :
    ∃ w', freeNode ref w = (.ok (), w') ∧ Sound w' ∧
      w'.node = Function.update w.node ref none := by
  obtain ⟨hRef, p, hp, hLive, -⟩ := node_eq_some hn
  have hPage := hw.pages _ p hp
  have hTaken := hw.taken _ p hp _ (refSlot_lt ref) hLive
  have hq := hPage.dropSlot (refSlot_lt ref) hLive
  have hEdits := edits_put w (refBlock ref) (p.dropSlot (refSlot ref))
  have hv := hw.edit hEdits hq fun _ _ _ => hTaken
  have hNode : (w.put (refBlock ref) (p.dropSlot (refSlot ref))).node =
      Function.update w.node ref none := by
    rw [hEdits.node_update hp (refSlot_lt ref) (by rw [makeRef_refBlock]; exact hRef),
      makeRef_refBlock]
    · congr 1
      unfold Page.node
      have hFree : (p.dropSlot (refSlot ref)).free (refSlot ref) = true := if_pos rfl
      rw [hFree, if_pos rfl]
    · intro s hs hNe
      unfold Page.node
      have hFree : (p.dropSlot (refSlot ref)).free s = p.free s := if_neg hNe
      have hSlot : (p.dropSlot (refSlot ref)).slots s = p.slots s := if_neg hNe
      rw [hFree, hSlot]
      rfl
  unfold freeNode
  simp only [hp, if_neg hRef, hLive, if_neg Bool.false_ne_true]
  generalize hDrop : p.dropSlot (refSlot ref) = q at *
  generalize hPut : w.put (refBlock ref) q = v at *
  by_cases hNone : q.liveCount = 0
  · rw [if_pos hNone]
    refine ⟨_, rfl, ?_, hNode⟩
    have hKept : ∀ b, b ≠ refBlock ref → v.Taken b → ({ v with
        alloc := v.alloc.freeBlock (refBlock ref - v.dataStart) } : World).Taken b := by
      rintro b hb ⟨hPast, hUsed⟩
      refine ⟨hPast, ?_⟩
      show (v.alloc.freeBlock (refBlock ref - v.dataStart)).isFree (b - v.dataStart) = false
      rw [Alloc.isFree_freeBlock, hUsed]
      have hPast' : v.dataStart < refBlock ref := (hEdits.taken.mpr hTaken).1
      simp only [Bool.false_or, decide_eq_false_iff_not]
      omega
    refine ⟨hv.pages, ?_, ?_, ?_⟩
    · intro b p' hp' s hs hLiveS
      have hb : b ≠ refBlock ref := by
        rintro rfl
        obtain rfl := Option.some.inj (hEdits.page.symm.trans hp')
        have hCount := hq.counts.count
        rw [hNone] at hCount
        have hMem : s ∈ (Finset.range 64).filter fun s => q.free s = false :=
          Finset.mem_filter.2 ⟨Finset.mem_range.2 hs, hLiveS⟩
        rw [Finset.card_eq_zero.mp hCount.symm] at hMem
        exact absurd hMem (Finset.notMem_empty s)
      exact hKept b hb (hv.taken b p' hp' s hs hLiveS)
    · intro e he
      obtain ⟨hMem, hKeep⟩ := List.mem_filter.mp he
      exact hKept e.1 (by simpa using hKeep) (hv.pool e hMem)
    · intro hHot
      have hNe : v.hotBlock ≠ refBlock ref := by
        intro hEq
        exact hHot (if_pos hEq)
      have hEq : (if v.hotBlock = refBlock ref then 0 else v.hotBlock) = v.hotBlock := if_neg hNe
      dsimp only at hHot ⊢
      rw [hEq] at hHot ⊢
      exact hKept _ hNe (hv.hot hHot)
  · rw [if_neg hNone]
    by_cases hSome : q.freeSlot.isSome = true
    · rw [if_pos hSome]
      refine ⟨_, rfl, ?_, ?_⟩
      · unfold World.listPage
        split
        · exact hv
        · refine hv.withPool ?_ hv.hot
          intro e he
          rcases List.mem_cons.mp he with rfl | hOld
          · exact hEdits.taken.mpr hTaken
          · exact hv.pool e hOld
      · unfold World.listPage
        split
        · exact hNode
        · exact hNode
    · rw [if_neg hSome]
      exact ⟨v, rfl, hv, hNode⟩

/-- `briefs_trie_create_root`. -/
theorem createRoot_node (hw : Sound w) :
    (∃ w', createRoot w = (.error .enospc, w') ∧ Sound w' ∧ w'.node = w.node) ∨
    ∃ root w', createRoot w = (.ok root, w') ∧ Sound w' ∧ root ≠ 0 ∧ w.node root = none ∧
      w'.node = Function.update w.node root (some ({ Slot.zero with interm := true }.toNode [])) := by
  unfold createRoot
  rcases pageInit_node hw 0 0 true with ⟨v, hRun, hv, hSame⟩ |
    ⟨root, v, hRun, hv, hRef, hTaken, hFresh, -, hNode⟩
  · rw [bind_error hRun]
    exact Or.inl ⟨v, rfl, hv, hSame⟩
  · rw [bind_ok hRun]
    obtain ⟨u, hAdd, hu, hSame, -, -⟩ := addPartial_node hv hTaken (refBlock root)
    rw [bind_ok hAdd]
    exact Or.inr ⟨root, u, rfl, hu, hRef, hFresh, hSame.trans hNode⟩

end Briefs.Trie
