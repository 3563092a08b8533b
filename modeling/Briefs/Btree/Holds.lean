import Briefs.Btree.Grow

/-!
# BrieFS — the extents of an inode as a map

`Maps exts b p fl` says that a list of extents maps the file block `b` to the
physical block `p` with flags `fl`, and `cells exts` lists what is mapped. `Holds f c`
ties the extent state of an inode to its content: the inline array, or the tree of any
depth. Every operation keeps that.

`NoCross` is a property of the content: no extent reaches over a separator of the
tree. From it the extents are disjoint from left to right; without it they need not
be, because `btree_leaf_insert` looks at one leaf only. An insertion keeps it if no
separator, and no key that it splits a leaf at on its way, lies strictly inside the
new range (`Clear`). Then it also finds every overlap.

## Results

* `insertExtent_cells` — a leaf insert adds the new range to the map.
* `Holds.ordered` — the extents of an inode are disjoint and in order.
* `insertLocked_spec` — what `briefs_btree_insert_locked` does.
-/

namespace Briefs.Btree

open Briefs.Journal

--
-- Maps
--

/-- The extents map the file block `b` to the block `p` with flags `fl`. -/
def Maps (exts : List Extent) (b p fl : Nat) : Prop :=
  ∃ e ∈ exts, e.covers b ∧ e.physAt b = p ∧ e.flags = fl

theorem maps_singleton {x : Extent} {b p fl : Nat} :
    Maps [x] b p fl ↔ x.covers b ∧ x.physAt b = p ∧ x.flags = fl := by
  constructor
  · rintro ⟨e, he, hMap⟩
    rw [List.mem_singleton] at he
    rw [← he]
    exact hMap
  · intro hMap
    exact ⟨x, List.mem_singleton_self x, hMap⟩

/-- What an extent maps: each file block with its physical block and the flags. -/
def Extent.cells (e : Extent) : List (Nat × Nat × Nat) :=
  (List.range e.len).map fun i => (e.offset + i, e.phys + i, e.flags)

/-- What a list of extents maps. -/
def cells (exts : List Extent) : List (Nat × Nat × Nat) := exts.flatMap Extent.cells

@[simp]
theorem cells_nil : cells [] = [] := rfl

@[simp]
theorem cells_cons (e : Extent) (l : List Extent) : cells (e :: l) = e.cells ++ cells l :=
  List.flatMap_cons

@[simp]
theorem cells_append (l r : List Extent) : cells (l ++ r) = cells l ++ cells r :=
  List.flatMap_append

theorem mem_extent_cells {e : Extent} {b p fl : Nat} :
    (b, p, fl) ∈ e.cells ↔ e.covers b ∧ e.physAt b = p ∧ e.flags = fl := by
  unfold Extent.cells Extent.covers Extent.physAt Extent.stop
  rw [List.mem_map]
  constructor
  · rintro ⟨i, hi, hEq⟩
    rw [List.mem_range] at hi
    simp only [Prod.mk.injEq] at hEq
    omega
  · rintro ⟨⟨hLo, hHi⟩, hPhys, hFlags⟩
    refine ⟨b - e.offset, List.mem_range.mpr (by omega), ?_⟩
    simp only [Prod.mk.injEq]
    exact ⟨by omega, by omega, hFlags⟩

theorem mem_cells {l : List Extent} {b p fl : Nat} : (b, p, fl) ∈ cells l ↔ Maps l b p fl := by
  unfold cells Maps
  rw [List.mem_flatMap]
  simp only [mem_extent_cells]

/-- An extent in two parts. -/
theorem cells_split {e : Extent} {m n : Nat} (h : e.len = m + n) :
    e.cells = ({ e with len := m } : Extent).cells ++
      ({ e with offset := e.offset + m, phys := e.phys + m, len := n } : Extent).cells := by
  unfold Extent.cells
  rw [h, List.range_add, List.map_append, List.map_map]
  congr 1
  refine List.map_congr_left fun i _ => ?_
  simp only [Function.comp_apply, Prod.mk.injEq, and_true]
  omega

/-- An extent cut at two of its blocks. -/
theorem cells_thirds {e : Extent} {a b : Nat} (hLo : e.offset ≤ a) (hMid : a ≤ b)
    (hHi : b ≤ e.stop) :
    e.cells = ({ e with len := a - e.offset } : Extent).cells ++
      (({ e with offset := a, phys := e.phys + (a - e.offset), len := b - a } : Extent).cells ++
        ({ e with offset := b, phys := e.phys + (b - e.offset), len := e.stop - b } :
          Extent).cells) := by
  have hStop : e.stop = e.offset + e.len := rfl
  have hSecond := cells_split (e := ⟨a, e.phys + (a - e.offset), e.stop - a, e.flags⟩)
    (m := b - a) (n := e.stop - b) (by dsimp only; omega)
  dsimp only at hSecond
  rw [cells_split (m := a - e.offset) (n := e.stop - a) (by omega), Nat.add_sub_of_le hLo, hSecond,
    Nat.add_sub_of_le hMid,
    show e.phys + (a - e.offset) + (b - a) = e.phys + (b - e.offset) by omega]

/-- Two extents that adjoin map what one long extent maps. -/
theorem cells_adjoin {a b : Extent} (x : Extent) (hAdj : adjoins a b = true)
    (hOff : x.offset = a.offset) (hPhys : x.phys = a.phys) (hLen : x.len = a.len + b.len)
    (hFlags : x.flags = a.flags) : x.cells = a.cells ++ b.cells := by
  obtain ⟨hNext, hNextPhys, hSame⟩ := adjoins_iff.mp hAdj
  obtain ⟨off, phys, len, flags⟩ := a
  obtain ⟨off', phys', len', flags'⟩ := b
  obtain ⟨xoff, xphys, xlen, xflags⟩ := x
  dsimp only at hOff hPhys hLen hFlags hNext hNextPhys hSame
  subst hOff hPhys hFlags hNext hNextPhys hSame
  exact cells_split hLen

/-- A leaf insert adds the new range to the map. -/
theorem insertExtent_cells {extents extents' : List Extent} {ext : Extent} {added : Bool}
    (h : insertExtent extents ext = .ok (added, extents')) :
    (cells extents').Perm (cells extents ++ ext.cells) := by
  obtain ⟨l, r, hSplit, -, -, -, hCases⟩ := insertExtent_cases h
  rw [hSplit]
  have hMove : ∀ A B C : List (Nat × Nat × Nat), (A ++ (B ++ C)).Perm (A ++ C ++ B) := by
    intro A B C
    rw [List.append_assoc]
    exact List.perm_append_comm.append_left A
  rcases hCases with ⟨l', left, rfl, hAdj, -, rfl⟩ | ⟨right, r', rfl, hAdj, -, rfl⟩ | ⟨-, rfl⟩
  · have hOne : ({ left with len := left.len + ext.len } : Extent).cells = left.cells ++ ext.cells :=
      cells_adjoin { left with len := left.len + ext.len } hAdj rfl rfl rfl rfl
    simp only [cells_append, cells_cons, cells_nil, List.append_nil, hOne]
    have hPerm := hMove (cells l' ++ left.cells) ext.cells (cells r)
    simpa only [List.append_assoc] using hPerm
  · obtain ⟨-, -, hFlags⟩ := adjoins_iff.mp hAdj
    have hOne : ({ right with
        offset := ext.offset, phys := ext.phys, len := right.len + ext.len } : Extent).cells =
        ext.cells ++ right.cells :=
      cells_adjoin { right with
        offset := ext.offset, phys := ext.phys, len := right.len + ext.len }
        hAdj rfl rfl (Nat.add_comm _ _) hFlags.symm
    simp only [cells_append, cells_cons, hOne]
    have hPerm := hMove (cells l) ext.cells (right.cells ++ cells r')
    simpa only [List.append_assoc] using hPerm
  · simp only [cells_append, cells_cons]
    exact hMove _ _ _

/-- A map that grew by one extent. -/
theorem maps_of_perm {l l' : List Extent} {ext : Extent}
    (h : (cells l').Perm (cells l ++ ext.cells)) {b p fl : Nat} :
    Maps l' b p fl ↔ Maps l b p fl ∨ Maps [ext] b p fl := by
  rw [← mem_cells, h.mem_iff, List.mem_append, mem_cells, mem_extent_cells, maps_singleton]

/-- Every extent of `l` is part of one of `l'`. -/
def Coarser (l l' : List Extent) : Prop :=
  ∀ e ∈ l, ∃ e' ∈ l', e'.offset ≤ e.offset ∧ e.stop ≤ e'.stop

theorem Coarser.refl (l : List Extent) : Coarser l l :=
  fun e he => ⟨e, he, Nat.le_refl _, Nat.le_refl _⟩

theorem Coarser.trans {l l' l'' : List Extent} (h : Coarser l l') (h' : Coarser l' l'') :
    Coarser l l'' := by
  intro e he
  obtain ⟨e', he', hLo, hHi⟩ := h e he
  obtain ⟨e'', he'', hLo', hHi'⟩ := h' e' he'
  exact ⟨e'', he'', Nat.le_trans hLo' hLo, Nat.le_trans hHi hHi'⟩

theorem Coarser.append {l l' r r' : List Extent} (h : Coarser l l') (hr : Coarser r r') :
    Coarser (l ++ r) (l' ++ r') := by
  intro e he
  rcases List.mem_append.mp he with he | he
  · obtain ⟨e', he', hIn⟩ := h e he
    exact ⟨e', List.mem_append_left _ he', hIn⟩
  · obtain ⟨e', he', hIn⟩ := hr e he
    exact ⟨e', List.mem_append_right _ he', hIn⟩

/-- A leaf insert leaves every extent whole. -/
theorem insertExtent_coarser {extents extents' : List Extent} {ext : Extent} {added : Bool}
    (h : insertExtent extents ext = .ok (added, extents')) : Coarser extents extents' := by
  obtain ⟨l, r, rfl, -, -, -, hCases⟩ := insertExtent_cases h
  rcases hCases with ⟨l', left, rfl, hAdj, -, rfl⟩ | ⟨right, r', rfl, hAdj, -, rfl⟩ | ⟨-, rfl⟩
  · rw [List.append_assoc]
    apply (Coarser.refl l').append
    intro e he
    rcases List.mem_cons.mp he with rfl | he
    · refine ⟨_, List.mem_cons_self, Nat.le_refl _, ?_⟩
      show e.offset + e.len ≤ e.offset + (e.len + ext.len)
      omega
    · exact ⟨e, List.mem_cons_of_mem _ he, Nat.le_refl _, Nat.le_refl _⟩
  · apply (Coarser.refl l).append
    obtain ⟨hOff, -, -⟩ := adjoins_iff.mp hAdj
    intro e he
    rcases List.mem_cons.mp he with rfl | he
    · refine ⟨_, List.mem_cons_self, ?_, ?_⟩
      · show ext.offset ≤ e.offset
        omega
      · show e.offset + e.len ≤ ext.offset + (e.len + ext.len)
        omega
    · exact ⟨e, List.mem_cons_of_mem _ he, Nat.le_refl _, Nat.le_refl _⟩
  · apply (Coarser.refl l).append
    exact fun e he => ⟨e, List.mem_cons_of_mem _ he, Nat.le_refl _, Nat.le_refl _⟩

--
-- Crossings
--

/-- The key lies strictly inside the range. -/
def Extent.crosses (e : Extent) (k : Nat) : Prop := e.offset < k ∧ k < e.stop

instance (e : Extent) (k : Nat) : Decidable (e.crosses k) := inferInstanceAs (Decidable (_ ∧ _))

/-- No extent reaches over a separator. -/
def NoCross (c : Content) : Prop := ∀ e ∈ c.exts, ∀ k ∈ c.seps, ¬ e.crosses k

section Cross

variable {nodes : Nodes} {d block lo hi bot top : Nat} {c c' : Content} {ext : Extent}
  {added : Bool} {l : List Extent}

/-- Extents that stand apart and cross nothing are disjoint from left to right. -/
theorem NoCross.ordered (h : NoCross c) (hApart : c.exts.Pairwise (Apart c.seps)) :
    Ordered c.exts := by
  refine List.Pairwise.imp_of_mem ?_ hApart
  rintro a b ha - ⟨-, hBefore | ⟨k, hk, hLo, hHi⟩⟩
  · exact hBefore
  · have hStop := h a ha k hk
    unfold Extent.crosses at hStop
    show a.stop ≤ b.offset
    omega

theorem Ordered.apart {exts : List Extent} (h : Ordered exts) {a b : Extent} (ha : a ∈ exts)
    (hb : b ∈ exts) : a = b ∨ a.stop ≤ b.offset ∨ b.stop ≤ a.offset := by
  induction exts with
  | nil => cases ha
  | cons x exts ih =>
    obtain ⟨hHead, hTail⟩ := List.pairwise_cons.mp h
    rcases List.mem_cons.mp ha with hax | haTail
    · rcases List.mem_cons.mp hb with hbx | hbTail
      · exact Or.inl (hax.trans hbx.symm)
      · rw [hax]
        exact Or.inr (Or.inl (hHead b hbTail))
    · rcases List.mem_cons.mp hb with hbx | hbTail
      · rw [hbx]
        exact Or.inr (Or.inr (hHead a haTail))
      · exact ih hTail haTail hbTail

/-- No extent of an ordered list has the start of another strictly inside. -/
theorem Ordered.not_crosses {exts : List Extent} (h : Ordered exts) (hPos : ∀ e ∈ exts, 0 < e.len)
    {e x : Extent} (he : e ∈ exts) (hx : x ∈ exts) : ¬ e.crosses x.offset := by
  rintro ⟨hLo, hHi⟩
  have hxLen := hPos x hx
  rcases h.apart he hx with rfl | hBefore | hAfter
  · omega
  · omega
  · unfold Extent.stop at hAfter
    omega

/-- A key that a split takes from a leaf of the tree crosses no extent. -/
theorem SepsFrom.noCross (hSeps : SepsFrom l c c') (hLeaf : l ⊆ c.exts) (hNo : NoCross c)
    (hOrd : Ordered c.exts) (hPos : ∀ e ∈ c.exts, 0 < e.len) :
    ∀ e ∈ c.exts, ∀ k ∈ c'.seps, ¬ e.crosses k := by
  intro e he k hk
  rcases hSeps.source k hk with hOld | hSplit
  · exact hNo e he k hOld
  · obtain ⟨x, hx, rfl⟩ := hSplit.mem
    exact hOrd.not_crosses hPos he (hLeaf hx)

/-- No separator, old or made on the way to the leaf, lies strictly inside the range. -/
def Clear (c : Content) (l : List Extent) (ext : Extent) : Prop :=
  ∀ k, k ∈ c.seps ∨ SplitsAt l k → ¬ ext.crosses k

/-- An insert of a clear range crosses nothing. -/
theorem Placed.noCross (hPlaced : Placed bot top c c' ext added) (hSeps : SepsFrom l c c')
    (hLeaf : l ⊆ c.exts) (hNo : NoCross c) (hOrd : Ordered c.exts)
    (hPos : ∀ e ∈ c.exts, 0 < e.len) (hLen : 0 < ext.len) (hClear : Clear c l ext) :
    NoCross c' := by
  obtain ⟨pre, mid, mid', post, lo, hi, hc⟩ := hPlaced
  have hOldCross := hSeps.noCross hLeaf hNo hOrd hPos
  have hLeaf' := hc.leaf.insert hc.room hLen hc.keyLo hc.keyHi hc.insert
  have hMid : ∀ e ∈ mid, e ∈ c.exts := by
    intro e he
    rw [hc.before]
    simp [he]
  intro e he k hk
  rw [hc.after, List.mem_append, List.mem_append] at he
  rcases he with he | he | he
  · exact hOldCross e (by rw [hc.before]; simp [he]) k hk
  · rintro ⟨hLo, hHi⟩
    -- the leaf is responsible for a range without separators
    have hIn := hLeaf'.range e he
    have hSide := hc.seps k hk
    have hAbove : hi ≤ k := by omega
    have hKeyHi := hc.keyHi
    rcases mem_of_insertExtent hc.insert he with hOld | ⟨-, -, hStop | ⟨x, hx, hStop, hNext⟩⟩
    · exact hOldCross e (hMid e hOld) k hk ⟨hLo, hHi⟩
    · exact hClear k (hSeps.source k hk) ⟨by omega, by omega⟩
    · have hxIn := hc.leaf.range x hx
      exact hOldCross x (hMid x hx) k hk ⟨by omega, by omega⟩
  · exact hOldCross e (by rw [hc.before]; simp [he]) k hk

theorem not_overlaps_of_insertExtent {extents extents' : List Extent} (hOrd : Ordered extents)
    (hLen : 0 < ext.len) (h : insertExtent extents ext = .ok (added, extents')) :
    ∀ e ∈ extents, ¬ e.overlaps ext := by
  obtain ⟨l, r, hSplit, hl, hr, hScan, -⟩ := insertExtent_cases h
  obtain ⟨hBefore, hAfter⟩ := slot_clear hOrd hLen hScan
  rw [← hl] at hBefore
  rw [← hr] at hAfter
  rintro e he ⟨hLo, hHi⟩
  rw [hSplit, List.mem_append] at he
  rcases he with he | he
  · have hStop := hBefore e he
    omega
  · have hStart := hAfter e he
    omega

/-- An insert adds the range to the map of the tree. -/
theorem Placed.cells (hPlaced : Placed bot top c c' ext added) :
    (cells c'.exts).Perm (cells c.exts ++ ext.cells) := by
  obtain ⟨pre, mid, mid', post, lo, hi, hc⟩ := hPlaced
  have hMid := insertExtent_cells hc.insert
  rw [hc.after, hc.before]
  simp only [cells_append, List.append_assoc]
  refine List.Perm.append_left _ ?_
  refine (hMid.append_right _).trans ?_
  rw [List.append_assoc]
  exact List.perm_append_comm.append_left _

/-- An insert leaves every extent of the tree whole. -/
theorem Placed.coarser (hPlaced : Placed bot top c c' ext added) : Coarser c.exts c'.exts := by
  obtain ⟨pre, mid, mid', post, lo, hi, hc⟩ := hPlaced
  rw [hc.after, hc.before]
  exact (Coarser.refl pre).append ((insertExtent_coarser hc.insert).append (Coarser.refl post))

/-- An insert that the leaf accepts met no extent of the tree. -/
theorem Placed.apart (hPlaced : Placed bot top c c' ext added) (hLen : 0 < ext.len)
    (hPos : ∀ e ∈ c.exts, 0 < e.len) (hOrd' : Ordered c'.exts) :
    ∀ e ∈ c.exts, ¬ e.overlaps ext := by
  obtain ⟨pre, mid, mid', post, lo, hi, hc⟩ := hPlaced
  intro e he hOver
  have heLen := hPos e he
  rw [hc.before, List.mem_append, List.mem_append] at he
  -- the entry that takes up a shared block is disjoint from the other leaves
  have hShared : ext.covers (max e.offset ext.offset) ∧ e.covers (max e.offset ext.offset) := by
    obtain ⟨hLo, hHi⟩ := hOver
    unfold Extent.covers
    unfold Extent.stop at *
    omega
  obtain ⟨m, hm, hCov, -, -⟩ :
      Maps mid' (max e.offset ext.offset) (ext.physAt (max e.offset ext.offset)) ext.flags := by
    rw [maps_of_perm (insertExtent_cells hc.insert)]
    exact Or.inr (maps_singleton.mpr ⟨hShared.1, rfl, rfl⟩)
  obtain ⟨-, hCovE⟩ := hShared
  unfold Extent.covers at hCov hCovE
  rw [hc.after] at hOrd'
  obtain ⟨-, hRight, hPre⟩ := List.pairwise_append.mp hOrd'
  obtain ⟨-, -, hPost⟩ := List.pairwise_append.mp hRight
  rcases he with he | he | he
  · have hApart := hPre e he m (List.mem_append_left _ hm)
    omega
  · exact not_overlaps_of_insertExtent hc.leaf.ordered hLen hc.insert e he hOver
  · have hApart := hPost m hm e he
    omega

theorem Placed.length (hPlaced : Placed bot top c c' ext added) :
    c'.exts.length = c.exts.length + if added then 1 else 0 := by
  obtain ⟨pre, mid, mid', post, lo, hi, hc⟩ := hPlaced
  rw [hc.after, hc.before]
  simp only [List.length_append, length_of_insertExtent hc.insert]
  omega

/-- The extents end before `top` if the old ones and the new range do. -/
theorem Placed.stops (hPlaced : Placed bot top c c' ext added) {n : Nat}
    (hOld : ∀ e ∈ c.exts, e.stop < n) (hNew : ext.stop < n) : ∀ e ∈ c'.exts, e.stop < n := by
  obtain ⟨pre, mid, mid', post, lo, hi, hc⟩ := hPlaced
  rw [hc.before] at hOld
  intro e he
  rw [hc.after, List.mem_append, List.mem_append] at he
  rcases he with he | he | he
  · exact hOld e (by simp [he])
  · rcases mem_of_insertExtent hc.insert he with hIn | ⟨-, -, hStop | ⟨x, hx, hStop, -⟩⟩
    · exact hOld e (by simp [hIn])
    · omega
    · have hxStop := hOld x (by simp [hx])
      omega
  · exact hOld e (by simp [he])

end Cross

--
-- The extent state of an inode
--

/-- File blocks are 64-bit numbers. -/
def fileTop : Nat := 2 ^ 64

/-- The extents of an inode are `c`, in the inline array or in a tree. -/
structure Holds (f : File) (c : Content) : Prop where
  tree    : f.indexed = true → ∃ d, Sub f.nodes d f.root 0 fileTop c
  flat    : f.indexed = false → c = ⟨f.inline, [], []⟩ ∧ LeafOk 0 fileTop f.inline ∧
    f.inline.length ≤ 8
  nodup   : c.blocks.Nodup
  owned   : ∀ b ∈ c.blocks, Allocated f b
  stops   : ∀ e ∈ c.exts, e.stop < fileTop
  sound   : f.alloc.Healthy

section Holds

variable {f f' : File} {c c' : Content} {ext : Extent}

theorem Holds.pos (h : Holds f c) : ∀ e ∈ c.exts, 0 < e.len := by
  intro e he
  by_cases hIdx : f.indexed = true
  · obtain ⟨d, hSub⟩ := h.tree hIdx
    exact (hSub.offsets e he).2.2
  · obtain ⟨rfl, hLeaf, -⟩ := h.flat (by simpa using hIdx)
    exact hLeaf.pos e he

/-- The extents of an inode are disjoint and in order, unless one crosses a separator. -/
theorem Holds.ordered (h : Holds f c) (hNo : NoCross c) : Ordered c.exts := by
  by_cases hIdx : f.indexed = true
  · obtain ⟨d, hSub⟩ := h.tree hIdx
    exact hNo.ordered hSub.separated
  · obtain ⟨rfl, hLeaf, -⟩ := h.flat (by simpa using hIdx)
    exact hLeaf.ordered

/-- More levels than any tree over 64-bit file blocks has. -/
def levels : Nat := 16

/-- The leaf that an offset routes to; an inline array is one. -/
def File.routed (f : File) (key : Nat) : List Extent :=
  if f.indexed then routeLeaf f.nodes key levels f.root else f.inline

/-- The leaf that a key routes to does not depend on the levels that are left. -/
theorem Sub.routeLeaf_fuel {nodes : Nodes} {key : Nat} (fuel : Nat) :
    ∀ {d block lo hi : Nat} {c : Content}, Sub nodes d block lo hi c → lo ≤ key → key < hi →
      routeLeaf nodes key (d + 1 + fuel) block = routeLeaf nodes key (d + 1) block
  | 0, block, _, _, _, h, _, _ => by
    obtain ⟨-, hNode, -⟩ := h
    rw [Nat.add_comm, routeLeaf, hNode, routeLeaf, hNode]
  | d + 1, block, _, _, _, h, hLo, hHi => by
    obtain ⟨-, idx, tr, kids, hNode, -, rfl, hKids⟩ := h
    obtain ⟨lo', hi', A, x, B, -, hChild, hHole⟩ := Sub.focus hKids hLo hHi
    have hFuel : d + 1 + 1 + fuel = (d + 1 + fuel) + 1 := by omega
    rw [hFuel, routeLeaf, hNode, routeLeaf, hNode]
    exact hChild.2.routeLeaf_fuel fuel hHole.keyLo hHole.keyHi

/-- There are levels enough for every tree. -/
theorem Sub.depth_lt {nodes : Nodes} {d block : Nat} {c : Content}
    (h : Sub nodes d block 0 fileTop c) : d < levels := by
  have hDepth := h.depth_le (Nat.le_refl _)
  unfold levels
  omega

theorem Sub.levels_eq {nodes : Nodes} {d block : Nat} {c : Content}
    (h : Sub nodes d block 0 fileTop c) : levels = d + 1 + (levels - (d + 1)) :=
  (Nat.add_sub_of_le h.depth_lt).symm

theorem routed_eq {f : File} {d key : Nat} {c : Content} (h : Sub f.nodes d f.root 0 fileTop c)
    (hIdx : f.indexed = true) (hKey : key < fileTop) :
    f.routed key = routeLeaf f.nodes key (d + 1) f.root := by
  have hLevels := h.levels_eq
  unfold File.routed
  rw [if_pos hIdx, hLevels]
  exact h.routeLeaf_fuel _ (Nat.zero_le _) hKey

/-- The ways are the same however many levels are left. -/
theorem Sub.slots_fuel {nodes : Nodes} {key : Nat} (fuel : Nat) :
    ∀ {d block lo hi : Nat} {c : Content}, Sub nodes d block lo hi c → lo ≤ key → key < hi →
      slots nodes key (d + 1 + fuel) block = slots nodes key (d + 1) block
  | 0, block, _, _, _, h, _, _ => by
    obtain ⟨-, hNode, -⟩ := h
    rw [Nat.add_comm, slots, hNode, slots, hNode]
  | d + 1, block, _, _, _, h, hLo, hHi => by
    obtain ⟨-, idx, tr, kids, hNode, -, rfl, hKids⟩ := h
    obtain ⟨lo', hi', A, x, B, -, hChild, hHole⟩ := Sub.focus hKids hLo hHi
    rw [show d + 1 + 1 + fuel = (d + 1 + fuel) + 1 by omega, slots, hNode, slots, hNode]
    exact congrArg _ (hChild.2.slots_fuel fuel hHole.keyLo hHole.keyHi)

/-- The way to the leaf of a key. -/
def File.way (f : File) (key : Nat) : List Nat := slots f.nodes key levels f.root

theorem way_eq {f : File} {d key : Nat} {c : Content} (h : Sub f.nodes d f.root 0 fileTop c)
    (hKey : key < fileTop) : f.way key = slots f.nodes key (d + 1) f.root := by
  have hLevels := h.levels_eq
  unfold File.way
  rw [hLevels]
  exact h.slots_fuel _ (Nat.zero_le _) hKey

/-- The outcome of `briefs_btree_insert_locked`. -/
structure InsertDone (f : File) (c : Content) (ext : Extent) (code : Option Errno) (f' : File)
    (c' : Content) : Prop where
  holds  : Holds f' c'
  grows  : Expands f f' c.blocks c'.blocks
  seps   : SepsFrom (f.routed ext.offset) c c'
  done   : code = none → (cells c'.exts).Perm (cells c.exts ++ ext.cells)
  tidy   : NoCross c → Clear c (f.routed ext.offset) ext →
    NoCross c' ∧ (code = none → ∀ e ∈ c.exts, ¬ e.overlaps ext)
  same   : code ≠ none → c'.exts = c.exts
  codes  : code = none ∨ code = some .eexist ∨ code = some .enospc
  clash  : code = some .eexist → ∃ e ∈ c.exts, e.overlaps ext
  nospc  : code = some .enospc → Exhausts 11 f.alloc
  total  : f.total = c.exts.length → f'.total = c'.exts.length
  kept   : code ≠ none → f'.total = f.total
  shift  : f.indexed = true →
    f'.indexed = true ∧ f'.total + c.exts.length = f.total + c'.exts.length
  maxEnd : f'.maxEnd = max f.maxEnd ext.stop
  whole  : Coarser c.exts c'.exts

/-- The part of `briefs_btree_insert_locked` for a tree. -/
def insertTree (fuel : Nat) (f : File) (ext : Extent) : Option (Option Errno × File) :=
  match ensureRootRoom f with
  | (some e, f) => some (some e, f)
  | (none, f) =>
    match descendInsert ext fuel f f.root with
    | none => none
    | some (some e, _, f) => some (some e, f)
    | some (none, added, f) => some (none, if added then { f with total := f.total + 1 } else f)

theorem insertTree_spec (h : Holds f c) (hIdx : f.indexed = true) (hLen : 0 < ext.len)
    (hStop : ext.stop < fileTop) {fuel : Nat} (hFuel : 10 ≤ fuel) (hMax : ext.stop ≤ f.maxEnd) :
    ∃ code f' c', insertTree fuel f ext = some (code, f') ∧ InsertDone f c ext code f' c' := by
  obtain ⟨d, hSub⟩ := h.tree hIdx
  have hKey : ext.offset < fileTop := by
    unfold Extent.stop at hStop
    omega
  have hRouted := routed_eq hSub hIdx hKey
  have hLeafIn : f.routed ext.offset ⊆ c.exts := by
    rw [hRouted]
    exact hSub.routeLeaf_subset (d + 1) (Nat.zero_le _) hKey
  have hRaise : f.maxEnd = max f.maxEnd ext.stop := by omega
  unfold insertTree
  rcases ensureRootRoom_spec hSub h.nodup h.owned (Nat.zero_le _) hKey with
    ⟨a, hEq, hGrew, hFull, -⟩ | ⟨f1, d1, c1, hEq, hReady⟩
  · rw [hEq]
    refine ⟨_, _, c, rfl, ?_⟩
    refine
      { holds := ⟨fun _ => ⟨d, hSub⟩, fun hNo => ?_, h.nodup, hGrew.owned, h.stops, hGrew.sound h.sound⟩,
        grows := hGrew.expands, seps := SepsFrom.refl _ _, done := nofun,
        tidy := fun hNo _ => ⟨hNo, nofun⟩, same := fun _ => rfl,
        codes := Or.inr (Or.inr rfl), clash := nofun,
        nospc := fun _ => (hFull h.sound).mono (by omega), total := fun hTotal => hTotal, kept := fun _ => rfl,
        shift := fun _ => ⟨hIdx, rfl⟩, maxEnd := hRaise, whole := Coarser.refl _ }
    have hYes : f.indexed = false := hNo
    rw [hIdx] at hYes
    cases hYes
  · rw [hEq]
    dsimp only
    have hDepth1 := hReady.sub.depth_le (Nat.le_refl _)
    have hFuel1 : fuel = d1 + 1 + (fuel - (d1 + 1)) := by omega
    obtain ⟨code, added, f2, c2, hRun, hDesc⟩ := descendInsert_spec hLen d1 (fuel - (d1 + 1))
      hReady.sub hReady.room (Nat.zero_le _) hKey hReady.grew.nodup hReady.grew.owned
    rw [← hFuel1] at hRun
    rw [hRun]
    have hGrew := hReady.grew.trans hDesc.grew
    have hSeps : SepsFrom (f.routed ext.offset) c c2 := by
      rw [hRouted]
      exact hReady.seps.trans hReady.route hDesc.seps
    have hSound2 := hGrew.sound h.sound
    have hIdx2 : f2.indexed = true := hGrew.same.indexed.trans hIdx
    have hMax2 : f2.maxEnd = max f.maxEnd ext.stop := by
      rw [hGrew.same.maxEnd]
      exact hRaise
    have hSub2 : Sub f2.nodes d1 f2.root 0 fileTop c2 := by
      rw [hDesc.root]
      exact hDesc.sub
    cases code with
    | some e =>
      have hExts : c2.exts = c.exts := (hDesc.same (by simp)).trans hReady.exts
      refine ⟨_, _, c2, rfl, ?_⟩
      refine
        { holds := ⟨fun _ => ⟨d1, hSub2⟩, fun hNo => ?_, hGrew.nodup, hGrew.owned, ?_, hSound2⟩,
          grows := hGrew.expands, seps := hSeps, done := nofun, tidy := ?_, same := fun _ => hExts,
          codes := hDesc.codes, clash := ?_, nospc := ?_, total := ?_,
          kept := fun _ => hGrew.same.total, shift := ?_, maxEnd := hMax2,
          whole := hExts.symm ▸ Coarser.refl _ }
      · rw [hIdx2] at hNo
        cases hNo
      · rw [hExts]
        exact h.stops
      · refine fun hNo _ => ⟨?_, nofun⟩
        intro x hx
        rw [hExts] at hx
        exact hSeps.noCross hLeafIn hNo (h.ordered hNo) h.pos x hx
      · intro hCode
        obtain ⟨x, hx, hOver⟩ := hDesc.clash hCode
        exact ⟨x, hReady.exts ▸ hx, hOver⟩
      · intro hCode
        have hEx := hDesc.nospc hCode (hReady.grew.sound h.sound)
        rcases hReady.depth with ⟨rfl, hAlloc⟩ | ⟨rfl, hAlloc⟩
        · rw [hAlloc] at hEx
          exact hEx.mono (by omega)
        · rw [hAlloc] at hEx
          exact ((hEx.succ h.sound.allocBlockMeta).succ h.sound).mono (by omega)
      · intro hTotal
        rw [hGrew.same.total, hExts]
        exact hTotal
      · intro _
        refine ⟨hIdx2, ?_⟩
        rw [hGrew.same.total, hExts]
    | none =>
      have hPlacedOld : Placed 0 fileTop c c2 ext added := by
        obtain ⟨pre, mid, mid', post, l, r, hc⟩ := hDesc.done rfl
        exact ⟨pre, mid, mid', post, l, r, hReady.exts ▸ hc.before, hc.after, hc.insert, hc.leaf,
          hc.room, hc.botLe, hc.keyLo, hc.keyHi, hc.leTop, hc.seps, hc.hiMem⟩
      have hTidy : NoCross c → Clear c (f.routed ext.offset) ext →
          NoCross c2 ∧ ∀ e ∈ c.exts, ¬ e.overlaps ext := by
        intro hNo hClear
        have hNo2 := hPlacedOld.noCross hSeps hLeafIn hNo (h.ordered hNo) h.pos hLen hClear
        exact ⟨hNo2, hPlacedOld.apart hLen h.pos (hNo2.ordered hSub2.separated)⟩
      have hLength := hPlacedOld.length
      have hStops2 := hPlacedOld.stops h.stops hStop
      refine ⟨_, _, c2, rfl, ?_⟩
      have hDone : ∀ f3 : File, f3.nodes = f2.nodes → f3.alloc = f2.alloc →
          f3.dataStart = f2.dataStart → f3.indexed = f2.indexed → f3.root = f2.root →
          f3.maxEnd = f2.maxEnd → f3.total = f2.total + (if added then 1 else 0) →
          InsertDone f c ext none f3 c2 := by
        intro f3 hNodes hAlloc hStart hIndexed hRoot hMaxEnd hTotal3
        refine
          { holds := ⟨fun _ => ⟨d1, ?_⟩, fun hNo => ?_, hGrew.nodup, ?_, hStops2, ?_⟩,
            grows := ⟨hStart.trans hGrew.same.dataStart, ?_, hGrew.fresh, ?_, ?_, hGrew.keeps⟩, seps := hSeps,
            done := fun _ => hPlacedOld.cells,
            tidy := fun hNo hClear => ⟨(hTidy hNo hClear).1, fun _ => (hTidy hNo hClear).2⟩, same := fun hNo => absurd rfl hNo,
            codes := Or.inl rfl, clash := nofun, nospc := nofun, total := ?_,
            kept := fun hNo => absurd rfl hNo, shift := ?_, maxEnd := hMaxEnd.trans hMax2,
            whole := hPlacedOld.coarser }
        · rw [hNodes, hRoot]
          exact hSub2
        · rw [hIndexed, hIdx2] at hNo
          cases hNo
        · intro b hb
          obtain ⟨rel, hRel, hEqb, hTaken⟩ := hGrew.owned b hb
          exact ⟨rel, hRel, by rw [hStart, hEqb], by rw [hAlloc]; exact hTaken⟩
        · rw [hAlloc]
          exact hSound2
        · rw [hNodes]
          exact hGrew.nodes
        · rw [hAlloc]
          exact hGrew.alloc
        · rw [hAlloc]
          exact hGrew.used
        · intro hTotal
          rw [hTotal3, hGrew.same.total, hTotal, hLength]
        · intro _
          refine ⟨hIndexed.trans hIdx2, ?_⟩
          rw [hTotal3, hGrew.same.total, hLength]
          omega
      cases added with
      | true => exact hDone _ rfl rfl rfl rfl rfl rfl rfl
      | false => exact hDone _ rfl rfl rfl rfl rfl rfl rfl

end Holds

--
-- The inline array
--

section Inline

variable {f : File} {c : Content} {ext : Extent}

/-- The insertion sort puts an extent into the slot that the insert found. -/
theorem sortInsert_eq (k : Extent) (l : List Extent) :
    sortInsert k l = l.take (findPos l k.offset) ++ k :: l.drop (findPos l k.offset) := by
  induction l with
  | nil => rfl
  | cons e rest ih =>
    have hPos : findPos (e :: rest) k.offset =
        if k.offset < e.offset then 0 else findPos rest k.offset + 1 := by
      unfold findPos
      rw [List.findIdx_cons]
      by_cases hLt : k.offset < e.offset
      · simp [hLt]
      · simp [hLt]
    unfold sortInsert
    rw [hPos]
    by_cases hLt : k.offset < e.offset
    · rw [if_pos hLt, if_pos hLt]
      rfl
    · rw [if_neg hLt, if_neg hLt, ih]
      rfl

theorem sortInsert_last {k : Extent} {l : List Extent} (h : ∀ e ∈ l, e.offset ≤ k.offset) :
    sortInsert k l = l ++ [k] := by
  induction l with
  | nil => rfl
  | cons e rest ih =>
    have hHead := h e List.mem_cons_self
    unfold sortInsert
    rw [if_neg (by omega), ih fun x hx => h x (List.mem_cons_of_mem _ hx)]
    rfl

/-- Sorting a list that is in order leaves it alone. -/
theorem foldl_sortInsert {l acc : List Extent} (hOrd : Ordered (acc ++ l)) :
    l.foldl (fun sorted k => sortInsert k sorted) acc = acc ++ l := by
  induction l generalizing acc with
  | nil => simp
  | cons k l ih =>
    have hLast : sortInsert k acc = acc ++ [k] := by
      refine sortInsert_last ?_
      intro e he
      have hApart := (List.pairwise_append.mp hOrd).2.2 e he k List.mem_cons_self
      have hStop := e.offset_le_stop
      omega
    rw [List.foldl_cons, hLast, ih]
    · rw [List.append_assoc]
      rfl
    · rw [List.append_assoc]
      exact hOrd

/-- One step of the merge loop of `btree_spill_inline`. -/
def mergeStep (merged : List Extent) (k : Extent) : List Extent :=
  match merged.getLast? with
  | some last =>
    if adjoins last k then merged.dropLast ++ [{ last with len := last.len + k.len }]
    else merged ++ [k]
  | none => [k]

/-- `l'` is `l` with some neighbours joined. -/
structure Joined (l l' : List Extent) : Prop where
  ordered : Ordered l'
  pos     : ∀ e ∈ l', 0 < e.len
  cells   : cells l' = cells l
  length  : l'.length ≤ l.length
  whole   : Coarser l l'

theorem joined_mergeStep {l r : List Extent} {k : Extent} (hOrd : Ordered (l ++ k :: r))
    (hPos : ∀ e ∈ l ++ k :: r, 0 < e.len) : Joined (l ++ k :: r) (mergeStep l k ++ r) := by
  have hAppend : l ++ [k] ++ r = l ++ k :: r := by simp
  unfold mergeStep
  cases hLast : l.getLast? with
  | none =>
    have hNil : l = [] := List.getLast?_eq_none_iff.mp hLast
    subst hNil
    exact ⟨hOrd, hPos, rfl, Nat.le_refl _, Coarser.refl _⟩
  | some last =>
    dsimp only
    by_cases hAdj : adjoins last k = true
    · rw [if_pos hAdj]
      obtain ⟨hOff, -, -⟩ := adjoins_iff.mp hAdj
      have hSplit : l = l.dropLast ++ [last] := (List.dropLast_append_getLast? last hLast).symm
      generalize l.dropLast = l' at hSplit ⊢
      subst hSplit
      have hOne : ({ last with len := last.len + k.len } : Extent).cells = last.cells ++ k.cells :=
        cells_adjoin { last with len := last.len + k.len } hAdj rfl rfl rfl rfl
      obtain ⟨hL, hRight, hLR⟩ := List.pairwise_append.mp hOrd
      obtain ⟨hL', -, hLast'⟩ := List.pairwise_append.mp hL
      obtain ⟨hk, hR⟩ := List.pairwise_cons.mp hRight
      refine ⟨?_, ?_, ?_, ?_, ?_⟩
      · rw [List.append_assoc]
        refine List.pairwise_append.mpr ⟨hL', List.pairwise_cons.mpr ⟨?_, hR⟩, ?_⟩
        · intro e he
          have hAfter : k.offset + k.len ≤ e.offset := hk e he
          show last.offset + (last.len + k.len) ≤ e.offset
          omega
        · intro a ha b hb
          rcases List.mem_cons.mp hb with rfl | hb
          · exact hLast' a ha last (List.mem_singleton_self _)
          · exact hLR a (List.mem_append_left _ ha) b (List.mem_cons_of_mem _ hb)
      · intro e he
        simp only [List.append_assoc, List.mem_append, List.mem_singleton] at he
        rcases he with he | rfl | he
        · exact hPos e (by simp [he])
        · have hLastPos := hPos last (by simp)
          show 0 < last.len + k.len
          omega
        · exact hPos e (by simp [he])
      · simp only [cells_append, cells_cons, cells_nil, hOne, List.append_nil, List.append_assoc]
      · simp only [List.length_append, List.length_cons, List.length_nil]
        omega
      · rw [List.append_assoc, List.append_assoc]
        apply (Coarser.refl l').append
        intro e he
        simp only [List.singleton_append, List.mem_cons] at he ⊢
        rcases he with rfl | rfl | he
        · refine ⟨_, Or.inl rfl, Nat.le_refl _, ?_⟩
          show e.offset + e.len ≤ e.offset + (e.len + k.len)
          omega
        · refine ⟨_, Or.inl rfl, ?_, ?_⟩
          · show last.offset ≤ e.offset
            omega
          · show e.offset + e.len ≤ last.offset + (last.len + e.len)
            omega
        · exact ⟨e, Or.inr he, Nat.le_refl _, Nat.le_refl _⟩
    · rw [if_neg hAdj, hAppend]
      exact ⟨hOrd, hPos, rfl, Nat.le_refl _, Coarser.refl _⟩

theorem joined_foldl {l acc : List Extent} (hOrd : Ordered (acc ++ l))
    (hPos : ∀ e ∈ acc ++ l, 0 < e.len) : Joined (acc ++ l) (l.foldl mergeStep acc) := by
  induction l generalizing acc with
  | nil =>
    rw [List.append_nil] at *
    exact ⟨hOrd, hPos, rfl, Nat.le_refl _, Coarser.refl _⟩
  | cons k l ih =>
    have hStep := joined_mergeStep hOrd hPos
    have hRest := ih hStep.ordered hStep.pos
    rw [List.foldl_cons]
    exact ⟨hRest.ordered, hRest.pos, hRest.cells.trans hStep.cells,
      le_trans hRest.length hStep.length, hStep.whole.trans hRest.whole⟩

theorem joined_mergeRuns {l : List Extent} (hOrd : Ordered l) (hPos : ∀ e ∈ l, 0 < e.len) :
    Joined l (mergeRuns l) := by
  cases l with
  | nil => exact ⟨hOrd, hPos, rfl, Nat.le_refl _, Coarser.refl _⟩
  | cons e rest =>
    have hAll : Joined ([e] ++ rest) (rest.foldl mergeStep [e]) := joined_foldl hOrd hPos
    exact hAll

/-- Extents that map only blocks below `top` start below it, and end there at last. -/
theorem bounds_of_maps {l : List Extent} {top : Nat} (hPos : ∀ e ∈ l, 0 < e.len)
    (hTop : ∀ b p fl, Maps l b p fl → b + 1 < top) : ∀ e ∈ l, e.offset < top ∧ e.stop < top := by
  intro e he
  have hLen := hPos e he
  have hLast : e.covers (e.stop - 1) := by
    unfold Extent.covers Extent.stop
    omega
  have hLt := hTop _ _ _ ⟨e, he, hLast, rfl, rfl⟩
  unfold Extent.stop at *
  omega

/-- The list that `btree_spill_inline` writes is the array with the new extent, with
neighbours joined. -/
theorem spill_joined {extents : List Extent} (hLeaf : LeafOk 0 fileTop f.inline)
    (hLen : 0 < ext.len) (h : insertExtent f.inline ext = .ok (true, extents)) :
    Joined extents (mergeRuns ((f.inline ++ [ext]).foldl (fun sorted k => sortInsert k sorted) [])) := by
  have hOrd := ordered_insertExtent hLeaf.ordered hLen h
  have hPos : ∀ e ∈ extents, 0 < e.len := by
    intro e he
    rcases mem_of_insertExtent h he with hOld | ⟨hNew, -, -⟩
    · exact hLeaf.pos e hOld
    · exact hNew hLen
  have hSorted : (f.inline ++ [ext]).foldl (fun sorted k => sortInsert k sorted) [] = extents := by
    obtain ⟨l, r, hSplit, hl, hr, -, hCases⟩ := insertExtent_cases h
    have hInline : f.inline.foldl (fun sorted k => sortInsert k sorted) [] = [] ++ f.inline :=
      foldl_sortInsert hLeaf.ordered
    rw [List.foldl_append, hInline]
    show sortInsert ext f.inline = extents
    rw [sortInsert_eq, ← hl, ← hr]
    rcases hCases with ⟨_, _, _, _, hNo, _⟩ | ⟨_, _, _, _, hNo, _⟩ | ⟨-, hEq⟩
    · cases hNo
    · cases hNo
    · exact hEq.symm
  rw [hSorted]
  exact joined_mergeRuns hOrd hPos

/-- The part of `briefs_btree_insert_locked` for an inline array. -/
def insertInline (f : File) (ext : Extent) : Option (Option Errno × File) :=
  match inlineInsert f ext with
  | some r => some r
  | none => some (spillInline f ext)

theorem insertInline_spec (h : Holds f c) (hIdx : f.indexed = false) (hLen : 0 < ext.len)
    (hStop : ext.stop < fileTop) (hMax : ext.stop ≤ f.maxEnd) :
    ∃ code f' c', insertInline f ext = some (code, f') ∧ InsertDone f c ext code f' c' := by
  obtain ⟨rfl, hLeaf, hEight⟩ := h.flat hIdx
  have hRaise : f.maxEnd = max f.maxEnd ext.stop := by omega
  have hInline : f.indexed ≠ true := by simp [hIdx]
  have hKey : ext.offset < fileTop := by
    unfold Extent.stop at hStop
    omega
  have hFlat : ∀ f' : File, f'.indexed = false → f'.alloc = f.alloc → ∀ exts, f'.inline = exts →
      LeafOk 0 fileTop exts → exts.length ≤ 8 → (∀ e ∈ exts, e.stop < fileTop) →
      Holds f' ⟨exts, [], []⟩ := by
    intro f' hIdx' hAlloc exts hExts hOk hFit hStops
    refine ⟨fun hNo => ?_, fun _ => ⟨by rw [hExts], hExts ▸ hOk, hExts ▸ hFit⟩, List.nodup_nil,
      fun b hb => absurd hb List.not_mem_nil, hStops, hAlloc ▸ h.sound⟩
    rw [hIdx'] at hNo
    cases hNo
  have hStays : ∀ f' : File, f'.nodes = f.nodes → f'.alloc = f.alloc → f'.dataStart = f.dataStart →
      Expands f f' [] [] := by
    intro f' hNodes hAlloc hStart
    exact ⟨hStart, fun b _ => by rw [hNodes], fun b hb => absurd hb List.not_mem_nil,
      fun rel hr => hAlloc ▸ hr, fun _ _ hr => Or.inl (hAlloc ▸ hr), List.Subset.refl _⟩
  have hNoSeps : ∀ exts, SepsFrom (f.routed ext.offset) ⟨f.inline, [], []⟩ ⟨exts, [], []⟩ :=
    fun exts => ⟨fun k hk => absurd hk List.not_mem_nil, List.nil_subset _⟩
  have hFlatTidy : ∀ exts bl, NoCross ⟨exts, bl, []⟩ :=
    fun _ _ _ _ k hk => absurd hk List.not_mem_nil
  unfold insertInline inlineInsert
  cases hIns : insertExtent f.inline ext with
  | error e =>
    obtain ⟨rfl, hOver⟩ := insertExtent_error hIns
    exact ⟨_, _, ⟨f.inline, [], []⟩, rfl,
      { holds := h, grows := hStays f rfl rfl rfl, seps := SepsFrom.refl _ _, done := nofun,
        tidy := fun hNo _ => ⟨hNo, nofun⟩, same := fun _ => rfl, codes := Or.inr (Or.inl rfl), clash := fun _ => hOver,
        nospc := nofun, total := fun hTotal => hTotal, kept := fun _ => rfl,
        shift := fun hNo => absurd hNo hInline, maxEnd := hRaise, whole := Coarser.refl _ }⟩
  | ok r =>
    obtain ⟨added, extents⟩ := r
    have hRoom : f.inline.length < leafFanout := by
      unfold leafFanout
      omega
    have hOk := hLeaf.insert hRoom hLen (Nat.zero_le _) hKey hIns
    have hLength := length_of_insertExtent hIns
    have hDone := insertExtent_cells hIns
    have hApart := not_overlaps_of_insertExtent hLeaf.ordered hLen hIns
    have hStops : ∀ e ∈ extents, e.stop < fileTop := by
      intro e he
      rcases mem_of_insertExtent hIns he with hIn | ⟨-, -, hEq | ⟨x, hx, hEq, -⟩⟩
      · exact h.stops e hIn
      · omega
      · have hxStop := h.stops x hx
        omega
    cases added with
    | false =>
      have hSameLength : extents.length = f.inline.length := hLength
      refine ⟨_, _, ⟨extents, [], []⟩, rfl, ?_⟩
      exact
        { holds := hFlat { f with inline := extents } hIdx rfl extents rfl hOk (by omega) hStops,
          grows := hStays _ rfl rfl rfl, seps := hNoSeps extents,
          done := fun _ => hDone, tidy := fun _ _ => ⟨hFlatTidy _ _, fun _ => hApart⟩, same := fun hNo => absurd rfl hNo, codes := Or.inl rfl,
          clash := nofun, nospc := nofun,
          total := fun hTotal => by
            show f.total = extents.length
            rw [hSameLength]
            exact hTotal,
          kept := fun hNo => absurd rfl hNo, shift := fun hNo => absurd hNo hInline,
          maxEnd := hRaise, whole := insertExtent_coarser hIns }
    | true =>
      have hMore : extents.length = f.inline.length + 1 := hLength
      dsimp only
      by_cases hFull : 8 ≤ f.inline.length
      · -- the array spills into a root leaf
        rw [if_pos hFull]
        dsimp only
        have hJoined := spill_joined hLeaf hLen hIns
        unfold spillInline
        dsimp only
        generalize hMerged : mergeRuns ((f.inline ++ [ext]).foldl
          (fun sorted k => sortInsert k sorted) []) = merged at hJoined
        have hTook := allocBlockMeta_took f.alloc
        have hSound := h.sound.allocBlockMeta
        have hFail : f.alloc.allocBlockMeta.1 = 0 → Exhausts 11 f.alloc :=
          exhausts_of_fail (by omega) h.sound
        rcases hAlloc : f.alloc.allocBlockMeta with ⟨rel, a⟩
        rw [hAlloc] at hTook hSound hFail
        dsimp only at hSound hFail ⊢
        by_cases hZero : rel = 0
        · rw [if_pos hZero]
          refine ⟨_, _, ⟨f.inline, [], []⟩, rfl, ?_⟩
          refine
            { holds := ⟨fun hNo => ?_, fun _ => ⟨rfl, hLeaf, hEight⟩, List.nodup_nil,
                fun b hb => absurd hb List.not_mem_nil, h.stops, hSound⟩,
              grows := ⟨rfl, fun _ _ => rfl, fun b hb => absurd hb List.not_mem_nil,
                fun _ hr => isFree_of_took hTook hr,
                fun hs _ hr => Or.inl (still_of_failed hTook hZero hs hr), List.Subset.refl _⟩,
              seps := SepsFrom.refl _ _, done := nofun, tidy := fun hNo _ => ⟨hNo, nofun⟩,
              same := fun _ => rfl, codes := Or.inr (Or.inr rfl), clash := nofun, nospc := fun _ => hFail hZero,
              total := fun hTotal => hTotal, kept := fun _ => rfl,
              shift := fun hNo => absurd hNo hInline,
              maxEnd := hRaise, whole := Coarser.refl _ }
          rw [show ({ f with alloc := a } : File).indexed = f.indexed from rfl, hIdx] at hNo
          cases hNo
        · rw [if_neg hZero]
          have hBounds : ∀ e ∈ merged, e.offset < fileTop ∧ e.stop < fileTop := by
            refine bounds_of_maps hJoined.pos ?_
            intro b p fl hMap
            rw [← mem_cells, hJoined.cells, mem_cells] at hMap
            obtain ⟨e, he, hCov, -⟩ := hMap
            have hEnd := hStops e he
            unfold Extent.covers at hCov
            omega
          have hFew := hJoined.length
          refine ⟨_, _, ⟨merged, [f.dataStart + rel], []⟩, rfl, ?_⟩
          refine
            { holds := ⟨fun _ => ⟨0, ?_⟩, nofun, List.nodup_singleton _, ?_,
                fun e he => (hBounds e he).2, hSound⟩,
              grows := ⟨rfl, ?_, ?_, fun _ hr => isFree_of_took hTook hr, ?_, List.nil_subset _⟩,
              seps := ⟨fun k hk => absurd hk List.not_mem_nil, List.nil_subset _⟩,
              done := fun _ => hJoined.cells ▸ hDone,
              tidy := fun _ _ => ⟨hFlatTidy _ _, fun _ => hApart⟩,
              same := fun hNo => absurd rfl hNo, codes := Or.inl rfl, clash := nofun,
              nospc := nofun, total := fun _ => rfl, kept := fun hNo => absurd rfl hNo,
              shift := fun hNo => absurd hNo hInline,
              maxEnd := hRaise, whole := (insertExtent_coarser hIns).trans hJoined.whole }
          · refine ⟨?_, ?_, rfl, rfl, hJoined.ordered, hJoined.pos, ?_, ?_⟩
            · show 0 < f.dataStart + rel
              omega
            · exact Function.update_self _ _ _
            · exact fun e he => ⟨Nat.zero_le _, (hBounds e he).1⟩
            · show merged.length ≤ leafFanout
              unfold leafFanout
              omega
          · intro b hb
            rw [List.mem_singleton] at hb
            exact ⟨rel, hZero, hb, taken_of_took hTook hZero⟩
          · intro b hb
            rw [List.mem_singleton] at hb
            exact Function.update_of_ne hb _ _
          · intro b hb
            rw [List.mem_singleton] at hb
            exact Or.inr ⟨rel, hZero, hb, hTook.wasFree hZero⟩
          · intro hs r hWas
            rcases still_of_took hTook hs hWas with hStill | rfl
            · exact Or.inl hStill
            · exact Or.inr List.mem_cons_self
      · rw [if_neg hFull]
        refine ⟨_, _, ⟨extents, [], []⟩, rfl, ?_⟩
        exact
          { holds := hFlat { f with inline := extents, total := f.total + 1 } hIdx rfl extents rfl
              hOk (by omega) hStops,
            grows := hStays _ rfl rfl rfl, seps := hNoSeps extents,
            done := fun _ => hDone, tidy := fun _ _ => ⟨hFlatTidy _ _, fun _ => hApart⟩, same := fun hNo => absurd rfl hNo, codes := Or.inl rfl,
            clash := nofun, nospc := nofun,
            total := fun hTotal => by
              show f.total + 1 = extents.length
              rw [hMore]
              have hTotal' : f.total = f.inline.length := hTotal
              omega,
            kept := fun hNo => absurd rfl hNo, shift := fun hNo => absurd hNo hInline, maxEnd := hRaise,
            whole := insertExtent_coarser hIns }

end Inline

--
-- The insertion
--

section Insert

variable {f : File} {c : Content} {ext : Extent}

/-- `briefs_btree_insert_locked` raises the tail cache first. -/
def File.raise (f : File) (n : Nat) : File :=
  { f with maxEnd := max f.maxEnd n }

theorem insertLocked_eq (fuel : Nat) (f : File) (ext : Extent) :
    insertLocked fuel f ext =
      if f.indexed then insertTree fuel (f.raise ext.stop) ext
      else insertInline (f.raise ext.stop) ext := rfl

theorem Holds.raise (h : Holds f c) (n : Nat) : Holds (f.raise n) c :=
  ⟨h.tree, h.flat, h.nodup, h.owned, h.stops, h.sound⟩

/-- What `briefs_btree_insert_locked` does. -/
theorem insertLocked_spec (h : Holds f c) (hLen : 0 < ext.len) (hStop : ext.stop < fileTop)
    {fuel : Nat} (hFuel : 10 ≤ fuel) :
    ∃ code f' c', insertLocked fuel f ext = some (code, f') ∧ InsertDone f c ext code f' c' := by
  have hRaised := h.raise ext.stop
  have hMax : ext.stop ≤ (f.raise ext.stop).maxEnd := Nat.le_max_right _ _
  have hLift : ∀ code f' c', InsertDone (f.raise ext.stop) c ext code f' c' →
      InsertDone f c ext code f' c' := by
    intro code f' c' hd
    refine
      { holds := hd.holds, grows := ⟨hd.grows.dataStart, hd.grows.nodes, hd.grows.fresh,
          hd.grows.alloc, hd.grows.used, hd.grows.keeps⟩,
        seps := hd.seps, done := hd.done, tidy := hd.tidy, same := hd.same, codes := hd.codes, clash := hd.clash,
        nospc := hd.nospc, total := hd.total, kept := hd.kept, shift := hd.shift, maxEnd := ?_,
        whole := hd.whole }
    have hTwice := hd.maxEnd
    rw [hTwice]
    show max (max f.maxEnd ext.stop) ext.stop = max f.maxEnd ext.stop
    omega
  rw [insertLocked_eq]
  by_cases hIdx : f.indexed = true
  · rw [if_pos hIdx]
    obtain ⟨code, f', c', hEq, hd⟩ := insertTree_spec hRaised hIdx hLen hStop hFuel hMax
    exact ⟨code, f', c', hEq, hLift code f' c' hd⟩
  · rw [if_neg hIdx]
    have hFlat : (f.raise ext.stop).indexed = false := by
      show f.indexed = false
      simpa using hIdx
    obtain ⟨code, f', c', hEq, hd⟩ := insertInline_spec hRaised hFlat hLen hStop hMax
    exact ⟨code, f', c', hEq, hLift code f' c' hd⟩

end Insert

end Briefs.Btree
