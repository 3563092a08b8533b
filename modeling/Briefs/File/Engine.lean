import Briefs.File.Exchange
import Briefs.Btree.Frame

/-!
# BrieFS — the exchange engine on two inodes

Two inodes share the device: the index of the first is rebuilt with blocks of the second,
and then the index of the second with blocks of the first. No data block moves, so that
each stays taken while its owner changes.

## Results

* `exchEngineDiff_cells` — after a success the inodes hold the new lists.
* `exchange_conserves_iff` — the blocks are exchanged, and none is lost or owned twice,
  unless the end of the range wraps around.
-/

namespace Briefs.File

open Briefs.Journal
open Briefs.Btree

--
-- Pieces
--

theorem emitClipped_pos {src : List Extent} {lo hi rebase : Nat} :
    ∀ e ∈ emitClipped src lo hi rebase, 0 < e.len := by
  intro e he
  obtain ⟨x, -, hPiece⟩ := List.mem_filterMap.mp he
  dsimp only at hPiece
  split at hPiece
  · cases hPiece
  · obtain rfl := Option.some.inj hPiece
    show 0 < min x.stop hi - max x.offset lo
    omega

theorem subtractMask_pos {x : Extent} {en rebase : Nat} : ∀ {mask : List Extent} {cur : Nat},
    ∀ e ∈ subtractMask x en rebase mask cur, 0 < e.len := by
  intro mask
  induction mask with
  | nil =>
    intro cur e he
    unfold subtractMask at he
    split at he
    · rw [List.mem_singleton.mp he]
      show 0 < en - cur
      omega
    · cases he
  | cons m mask ih =>
    intro cur e he
    unfold subtractMask at he
    split at he
    · cases he
    · split at he
      · exact ih e he
      · split at he
        · rw [List.mem_singleton.mp he]
          show 0 < en - cur
          omega
        · rcases List.mem_append.mp he with he | he
          · split at he
            · rw [List.mem_singleton.mp he]
              show 0 < max m.offset cur - cur
              omega
            · cases he
          · exact ih e he

theorem emitSubtract_pos {src mask : List Extent} {lo hi rebase : Nat} :
    ∀ e ∈ emitSubtract src lo hi mask rebase, 0 < e.len := by
  intro e he
  obtain ⟨x, -, hPiece⟩ := List.mem_flatMap.mp he
  dsimp only at hPiece
  split at hPiece
  · cases hPiece
  · exact subtractMask_pos e hPiece

section Pieces

variable {r : Exch} {old1 old2 : List Extent}

theorem new1_pos : ∀ e ∈ r.new1 old1 old2, 0 < e.len := by
  intro e he
  unfold Exch.new1 at he
  simp only [List.mem_append, List.mem_flatMap] at he
  rcases he with ((he | he) | ⟨m, -, he⟩) | he
  · exact emitClipped_pos e he
  · exact emitSubtract_pos e he
  · exact emitClipped_pos e he
  · exact emitClipped_pos e he

theorem new2_pos : ∀ e ∈ r.new2 old1 old2, 0 < e.len := by
  intro e he
  unfold Exch.new2 at he
  simp only [List.mem_append, List.mem_flatMap] at he
  rcases he with ((he | he) | ⟨m, -, he⟩) | he
  · exact emitClipped_pos e he
  · exact emitSubtract_pos e he
  · exact emitClipped_pos e he
  · exact emitClipped_pos e he

instance (r : Exch) : Decidable r.Wraps := inferInstanceAs (Decidable (_ ∧ _ ∧ _))

/-- What the first file gets from the second one. -/
def Exch.given (r : Exch) (old1 old2 : List Extent) : List (Nat × Nat × Nat) :=
  if r.Wraps then [] else (cells old2).filter fun x => r.takes2 old1 x.1

/-- What the second file gives up and nobody gets. -/
def Exch.lost (r : Exch) (old1 old2 : List Extent) : List (Nat × Nat × Nat) :=
  if r.Wraps then (cells old2).filter fun x => r.takes2 old1 x.1 else []

theorem given_append_lost : r.given old1 old2 ++ r.lost old1 old2 =
    (cells old2).filter fun x => r.takes2 old1 x.1 := by
  unfold Exch.given Exch.lost
  by_cases hWraps : r.Wraps
  · rw [if_pos hWraps, if_pos hWraps, List.nil_append]
  · rw [if_neg hWraps, if_neg hWraps, List.append_nil]

/-- The first list in both cases. -/
theorem cells_new1_given (hb : r.Bounded) (h1 : Small old1) (h2 : Small old2) :
    (cells (r.new1 old1 old2)).Perm (((cells old1).filter fun x => !r.takes old1 x.1) ++
      (r.given old1 old2).map (move r.o1 r.o2)) := by
  unfold Exch.given
  by_cases hWraps : r.Wraps
  · rw [if_pos hWraps, List.map_nil, List.append_nil]
    exact cells_new1_wraps hb h1 hWraps
  · rw [if_neg hWraps]
    exact cells_new1 hb h1 h2 hWraps

/-- The physical blocks of the new lists, and what is lost, are the old ones. -/
theorem new_blocks (hb : r.Bounded) (h1 : Small old1) (h2 : Small old2) :
    ((cells (r.new1 old1 old2) ++ cells (r.new2 old1 old2)).map Prod.snd ++
      (r.lost old1 old2).map Prod.snd).Perm ((cells old1 ++ cells old2).map Prod.snd) := by
  have hNew := ((cells_new1_given hb h1 h2).append (cells_new2 hb h1 h2)).map Prod.snd
  have hWhole1 := (List.filter_append_perm (fun x => r.takes old1 x.1) (cells old1)).map Prod.snd
  have hWhole2 := (List.filter_append_perm (fun x => r.takes2 old1 x.1) (cells old2)).map Prod.snd
  rw [← given_append_lost] at hWhole2
  refine (hNew.append_right _).trans (List.Perm.trans ?_ ((hWhole1.append hWhole2).trans ?_))
  · simp only [List.map_append, snd_move]
    rw [← Multiset.coe_eq_coe]
    simp only [← Multiset.coe_add]
    abel
  · rw [List.map_append]

/-- The file blocks of the new lists. -/
theorem new1_lt (hb : r.Bounded) (h1 : Small old1) (h2 : Small old2) :
    ∀ x ∈ cells (r.new1 old1 old2), x.1 < 2 ^ 63 := by
  have ho1 := hb.o1
  intro x hx
  rcases List.mem_append.mp ((cells_new1_given hb h1 h2).mem_iff.mp hx) with hx | hx
  · have hOld := h1.lt (List.mem_filter.mp hx).1
    omega
  · obtain ⟨y, hy, rfl⟩ := List.mem_map.mp hx
    have hIn : y ∈ (cells old2).filter fun x => r.takes2 old1 x.1 := by
      rw [← given_append_lost]
      exact List.mem_append_left _ hy
    have hOld := h2.lt (List.mem_filter.mp hIn).1
    show y.1 + r.o1 - r.o2 < 2 ^ 63
    omega

theorem new2_lt (hb : r.Bounded) (h1 : Small old1) (h2 : Small old2) :
    ∀ x ∈ cells (r.new2 old1 old2), x.1 < 2 ^ 63 := by
  have ho2 := hb.o2
  intro x hx
  rcases List.mem_append.mp ((cells_new2 hb h1 h2).mem_iff.mp hx) with hx | hx
  · have hOld := h2.lt (List.mem_filter.mp hx).1
    omega
  · obtain ⟨y, hy, rfl⟩ := List.mem_map.mp hx
    have hOld := h1.lt (List.mem_filter.mp hy).1
    show y.1 + r.o2 - r.o1 < 2 ^ 63
    omega

end Pieces

--
-- Two inodes
--

/-- Two inodes on one device, whose blocks are apart and whose extents end at block numbers
of byte offsets. -/
structure Pair (f1 f2 : Btree.File) : Prop where
  good1     : Good f1
  good2     : Good f2
  dataStart : f2.dataStart = f1.dataStart
  alloc     : f2.alloc = f1.alloc
  nodes     : f2.nodes = f1.nodes
  once      : ((cells f1.content.exts ++ cells f2.content.exts).map fun x => x.2.1).Nodup
  data1     : ∀ x ∈ cells f1.content.exts, x.2.1 ∉ f2.content.blocks
  data2     : ∀ x ∈ cells f2.content.exts, x.2.1 ∉ f1.content.blocks
  trees     : ∀ b ∈ f2.content.blocks, b ∉ f1.content.blocks
  small1    : ∀ e ∈ f1.content.exts, e.stop ≤ 2 ^ 62
  small2    : ∀ e ∈ f2.content.exts, e.stop ≤ 2 ^ 62

section Pair

variable {r : Exch} {f1 f2 : Btree.File}

theorem Pair.exts1 (h : Pair f1 f2) : Small f1.content.exts :=
  ⟨h.good1.holds.ordered h.good1.noCross, h.small1⟩

theorem Pair.exts2 (h : Pair f1 f2) : Small f2.content.exts :=
  ⟨h.good2.holds.ordered h.good2.noCross, h.small2⟩

theorem Pair.allocated_iff (h : Pair f1 f2) {b : Nat} : Allocated f2 b ↔ Allocated f1 b := by
  unfold Allocated
  rw [h.dataStart, h.alloc]

/-- Every data block of both inodes is taken, and is no node of either. -/
theorem Pair.data (h : Pair f1 f2) {p : Nat}
    (hp : p ∈ (cells f1.content.exts ++ cells f2.content.exts).map fun x => x.2.1) :
    Allocated f1 p ∧ p ∉ f1.content.blocks ∧ p ∉ f2.content.blocks := by
  obtain ⟨x, hx, rfl⟩ := List.mem_map.mp hp
  rcases List.mem_append.mp hx with hx | hx
  · exact ⟨h.good1.owns.taken x hx, h.good1.owns.apart x hx, h.data1 x hx⟩
  · exact ⟨h.allocated_iff.mp (h.good2.owns.taken x hx), h.data2 x hx, h.good2.owns.apart x hx⟩

/-- The physical blocks of the new lists. -/
theorem Pair.new_phys (h : Pair f1 f2) (hb : r.Bounded) :
    ((cells (r.new1 f1.content.exts f2.content.exts) ++
      cells (r.new2 f1.content.exts f2.content.exts)).map fun x => x.2.1).Nodup ∧
    ∀ x ∈ cells (r.new1 f1.content.exts f2.content.exts) ++
      cells (r.new2 f1.content.exts f2.content.exts),
      x.2.1 ∈ (cells f1.content.exts ++ cells f2.content.exts).map fun x => x.2.1 := by
  have hPerm := (new_blocks hb h.exts1 h.exts2).map Prod.fst
  rw [List.map_append, List.map_map, List.map_map, List.map_map] at hPerm
  constructor
  · have hAll := hPerm.nodup_iff.mpr h.once
    exact (List.nodup_append.mp hAll).1
  · intro x hx
    exact hPerm.mem_iff.mp (List.mem_append_left _ (List.mem_map_of_mem hx))

/-- The state of an inode under the nodes and the allocator of another one. -/
theorem holds_sharing {f g : Btree.File} {c : Content} (h : Holds f c)
    (hStart : g.dataStart = f.dataStart) (hHealthy : g.alloc.Healthy)
    (hTaken : ∀ b ∈ c.blocks, Allocated g b) (hNodes : ∀ b ∈ c.blocks, g.nodes b = f.nodes b) :
    Holds (sharing g f) c := by
  refine ⟨fun hIdx => ?_, h.flat, h.nodup, fun b hb => ?_, h.stops, hHealthy⟩
  · obtain ⟨d, hSub⟩ := h.tree hIdx
    exact ⟨d, hSub.congr hNodes⟩
  · obtain ⟨rel, hRel, hEq, hFree⟩ := hTaken b hb
    exact ⟨rel, hRel, by rw [hEq, hStart]; rfl, hFree⟩

theorem fits_of_lt {l : List Extent} (hPos : ∀ e ∈ l, 0 < e.len) (h : ∀ x ∈ cells l, x.1 < 2 ^ 63) :
    ∀ e ∈ l, 0 < e.len ∧ e.stop < fileTop := by
  intro e he
  have hStop := stop_le_of_cells hPos h e he
  have hTop : fileTop = 2 ^ 64 := rfl
  exact ⟨hPos e he, by omega⟩

/-- The first rebuild of an exchange fails: the second inode is as it was. -/
structure FirstFails (r : Exch) (f1 f2 : Btree.File) (err : Errno) (g : Btree.File) : Prop where
  run     : exchEngineDiff r f1 f2 = some (some err, g, sharing g f2)
  rebuild : rebuildExtentList levels f1 (r.new1 f1.content.exts f2.content.exts) = some (some err, g)
  owns    : Owns f1 f1.content.blocks (cells (r.new1 f1.content.exts f2.content.exts))
  other   : Holds (sharing g f2) f2.content
  taken   : ∀ x ∈ cells f2.content.exts, Allocated (sharing g f2) x.2.1

/-- The first rebuild succeeds, and the second one returns `code`. -/
structure SecondRuns (r : Exch) (f1 f2 : Btree.File) (code : Option Errno) (g g' : Btree.File) :
    Prop where
  run     : exchEngineDiff r f1 f2 = some (code, sharing g' g, g')
  started : rebuildExtentList levels f1 (r.new1 f1.content.exts f2.content.exts) = some (none, g)
  rebuild : rebuildExtentList levels (sharing g f2) (r.new2 f1.content.exts f2.content.exts) =
    some (code, g')
  before  : Holds (sharing g f2) f2.content
  owns    : Owns (sharing g f2) f2.content.blocks (cells (r.new2 f1.content.exts f2.content.exts))
  other   : Holds (sharing g' g) g.content
  first   : (cells g.content.exts).Perm (cells (r.new1 f1.content.exts f2.content.exts))
  taken   : ∀ x ∈ cells g.content.exts, Allocated (sharing g' g) x.2.1

/-- The new lists can be inserted. -/
theorem Pair.fits (h : Pair f1 f2) (hb : r.Bounded) :
    (∀ e ∈ r.new1 f1.content.exts f2.content.exts, 0 < e.len ∧ e.stop < fileTop) ∧
      ∀ e ∈ r.new2 f1.content.exts f2.content.exts, 0 < e.len ∧ e.stop < fileTop :=
  ⟨fits_of_lt new1_pos (new1_lt hb h.exts1 h.exts2), fits_of_lt new2_pos (new2_lt hb h.exts1 h.exts2)⟩

theorem allocated_sharing {g f : Btree.File} (hStart : g.dataStart = f.dataStart) {b : Nat}
    (h : Allocated g b) : Allocated (sharing g f) b := by
  obtain ⟨rel, hRel, hEq, hFree⟩ := h
  exact ⟨rel, hRel, by rw [hEq, hStart]; rfl, hFree⟩

/-- Both lists are read, so the call is the two rebuilds. -/
theorem exchEngineDiff_eq (r : Exch) {c1 c2 : Content} (h1 : Holds f1 c1) (h2 : Holds f2 c2) :
    exchEngineDiff r f1 f2 =
      match rebuildExtentList levels f1 (r.new1 c1.exts c2.exts) with
      | none => none
      | some (some e, g1) => some (some e, g1, sharing g1 f2)
      | some (none, g1) =>
        match rebuildExtentList levels (sharing g1 f2) (r.new2 c1.exts c2.exts) with
        | none => none
        | some (code, g2) => some (code, sharing g2 g1, g2) := by
  unfold exchEngineDiff
  rewrite [h1.forEachExtent, h2.forEachExtent]
  rfl

/-- The two ways of an exchange. The first tree is tidy if the new list is. -/
theorem exchEngineDiff_cases (h : Pair f1 f2) (hb : r.Bounded) :
    (∃ err g, FirstFails r f1 f2 err g) ∨ ∃ code g g', SecondRuns r f1 f2 code g g' ∧
      (Distinct (cells (r.new1 f1.content.exts f2.content.exts)) → NoCross g.content) := by
  obtain ⟨hOnce, hOld⟩ := h.new_phys hb
  obtain ⟨hFits1, hFits2⟩ := h.fits hb
  have hDef := exchEngineDiff_eq r h.good1.holds h.good2.holds
  rw [List.map_append, List.nodup_append] at hOnce
  have hOwns1 : Owns f1 f1.content.blocks (cells (r.new1 f1.content.exts f2.content.exts)) :=
    ⟨fun x hx => (h.data (hOld x (List.mem_append_left _ hx))).1,
      fun x hx => (h.data (hOld x (List.mem_append_left _ hx))).2.1, hOnce.1⟩
  obtain ⟨code, g, c, hRun, hd⟩ :=
    rebuildExtentList_spec h.good1.holds hOwns1 hFits1 ten_le_levels
  have hLeaves := rebuildExtentList_leaves ten_le_levels h.good1.holds hFits1 hRun
  obtain rfl := hd.holds.content
  rw [hRun] at hDef
  -- The nodes of the second tree are taken and none of the first one's.
  have hTree2 : ∀ b ∈ f2.content.blocks, Allocated f1 b ∧ b ∉ f1.content.blocks :=
    fun b hb2 => ⟨h.allocated_iff.mp (h.good2.holds.owned b hb2), h.trees b hb2⟩
  have hStart : g.dataStart = f2.dataStart := hLeaves.dataStart.trans h.dataStart.symm
  have hHolds2 : Holds (sharing g f2) f2.content := by
    refine holds_sharing h.good2.holds hStart hd.holds.sound (fun b hb2 => ?_) fun b hb2 => ?_
    · exact hLeaves.taken b (hTree2 b hb2).1 (hTree2 b hb2).2
    · rw [hLeaves.nodes b (hTree2 b hb2).1 (hTree2 b hb2).2, h.nodes]
  have hKept : ∀ p ∈ (cells f1.content.exts ++ cells f2.content.exts).map fun x => x.2.1,
      Allocated (sharing g f2) p := by
    intro p hp
    obtain ⟨hTaken, hOut, -⟩ := h.data hp
    exact allocated_sharing hStart (hLeaves.taken p hTaken hOut)
  cases code with
  | some err =>
    refine Or.inl ⟨err, g, hDef, hRun, hOwns1, hHolds2, fun x hx => hKept _ ?_⟩
    exact List.mem_map_of_mem (List.mem_append_right _ hx)
  | none =>
    dsimp only at hDef
    have hOwns2 : Owns (sharing g f2) f2.content.blocks
        (cells (r.new2 f1.content.exts f2.content.exts)) := by
      refine ⟨fun x hx => ?_, fun x hx => ?_, hOnce.2.1⟩
      · exact hKept _ (hOld x (List.mem_append_right _ hx))
      · exact (h.data (hOld x (List.mem_append_right _ hx))).2.2
    obtain ⟨code', g', c', hRun', hd'⟩ := rebuildExtentList_spec hHolds2 hOwns2 hFits2 ten_le_levels
    have hLeaves' := rebuildExtentList_leaves ten_le_levels hHolds2 hFits2 hRun'
    rw [hRun'] at hDef
    have hStart' : g'.dataStart = g.dataStart := hLeaves'.dataStart.trans hStart.symm
    -- The new nodes of the first tree are not touched by the second rebuild.
    have hTree1 : ∀ b ∈ g.content.blocks, Allocated (sharing g f2) b ∧ b ∉ f2.content.blocks := by
      intro b hbc
      refine ⟨allocated_sharing hStart (hd.holds.owned b hbc), ?_⟩
      exact fun hb2 => hLeaves.apart b (hTree2 b hb2).1 (hTree2 b hb2).2 hbc
    have hHolds1 : Holds (sharing g' g) g.content := by
      refine holds_sharing hd.holds hStart' hd'.holds.sound (fun b hbc => ?_) fun b hbc => ?_
      · exact hLeaves'.taken b (hTree1 b hbc).1 (hTree1 b hbc).2
      · exact hLeaves'.nodes b (hTree1 b hbc).1 (hTree1 b hbc).2
    refine Or.inr ⟨code', g, g',
      ⟨hDef, hRun, hRun', hHolds2, hOwns2, hHolds1, hd.done rfl, ?_⟩, hd.tidy⟩
    intro x hx
    have hIn := hOld x (List.mem_append_left _ ((hd.done rfl).mem_iff.mp hx))
    exact allocated_sharing hStart' (hLeaves'.taken _ (hKept _ hIn) (h.data hIn).2.2)

/-- After a success the inodes hold the new lists. -/
theorem exchEngineDiff_cells (h : Pair f1 f2) (hb : r.Bounded) {g1 g2 : Btree.File}
    (hDone : exchEngineDiff r f1 f2 = some (none, g1, g2)) :
    (cells g1.content.exts).Perm (cells (r.new1 f1.content.exts f2.content.exts)) ∧
      (cells g2.content.exts).Perm (cells (r.new2 f1.content.exts f2.content.exts)) := by
  rcases exchEngineDiff_cases h hb with ⟨err, g, hFail⟩ | ⟨code, g, g', hRuns, -⟩
  · have hRun := hFail.run
    rw [hDone] at hRun
    cases hRun
  · have hRun := hRuns.run
    rw [hDone] at hRun
    obtain ⟨rfl, hPair⟩ := Prod.mk.inj (Option.some.inj hRun)
    obtain ⟨rfl, rfl⟩ := Prod.mk.inj hPair
    rw [hRuns.other.content]
    obtain ⟨code', g'', c', hRun', hd'⟩ :=
      rebuildExtentList_spec hRuns.before hRuns.owns (h.fits hb).2 ten_le_levels
    rw [hRuns.rebuild] at hRun'
    obtain ⟨rfl, rfl⟩ := Prod.mk.inj (Option.some.inj hRun')
    rw [hd'.holds.content]
    exact ⟨hRuns.first, hd'.done rfl⟩

/-- An exchange between two inodes that returns 0 exchanges exactly the blocks that take
part, and loses or doubles none, unless it goes to the end of the files, is not limited to
what is written, starts later in the second file, and that file has blocks from there on. -/
theorem exchange_conserves_iff (h : Pair f1 f2) (hb : r.Bounded) {g1 g2 : Btree.File}
    (hDone : exchEngineDiff r f1 f2 = some (none, g1, g2)) :
    Exchanged r f1.content.exts (cells f1.content.exts) (cells f2.content.exts)
        (cells g1.content.exts) (cells g2.content.exts) ↔
      ¬ (r.toEof = true ∧ r.written = false ∧ r.o1 < r.o2 ∧
        ∃ e ∈ f2.content.exts, r.o2 < e.stop) := by
  obtain ⟨hCells1, hCells2⟩ := exchEngineDiff_cells h hb hDone
  have hNew1 := hCells1.trans (cells_new1_given hb h.exts1 h.exts2)
  have hNew2 := hCells2.trans (cells_new2 hb h.exts1 h.exts2)
  constructor
  · rintro hEx ⟨hEof, hWritten, hLt, e, he, hPast⟩
    have hWraps : r.Wraps := ⟨hEof, hWritten, hLt⟩
    -- The blocks that are lost are missing in the count.
    have hAll := (new_blocks hb h.exts1 h.exts2 (r := r)).length_eq
    have hCount := hEx.owned.length_eq
    have hSame := ((hCells1.append hCells2).map Prod.snd).length_eq
    have hNone : (r.lost f1.content.exts f2.content.exts).length = 0 := by
      simp only [List.length_append, List.length_map] at hAll hCount hSame
      omega
    have hLen := h.good2.holds.pos e he
    have hStop : e.stop = e.offset + e.len := rfl
    have hTakes : r.takes2 f1.content.exts (max e.offset r.o2) = true := by
      rw [takes2_iff, takes_iff]
      refine ⟨Nat.le_max_right _ _, by omega, Or.inl hEof, fun hYes => ?_⟩
      rw [hWritten] at hYes
      cases hYes
    have hCell : (max e.offset r.o2, e.physAt (max e.offset r.o2), e.flags) ∈
        cells f2.content.exts :=
      mem_cells.mpr ⟨e, he, ⟨Nat.le_max_left _ _, by omega⟩, rfl, rfl⟩
    have hLost : (max e.offset r.o2, e.physAt (max e.offset r.o2), e.flags) ∈
        r.lost f1.content.exts f2.content.exts := by
      unfold Exch.lost
      rw [if_pos hWraps]
      exact List.mem_filter.mpr ⟨hCell, hTakes⟩
    rw [List.length_eq_zero_iff.mp hNone] at hLost
    cases hLost
  · intro hNot
    have hGiven : r.given f1.content.exts f2.content.exts =
        (cells f2.content.exts).filter fun x => r.takes2 f1.content.exts x.1 := by
      unfold Exch.given
      by_cases hWraps : r.Wraps
      · rw [if_pos hWraps, eq_comm, List.filter_eq_nil_iff]
        rintro ⟨b, p, fl⟩ hx hTakes
        obtain ⟨e, he, ⟨-, hHi⟩, -⟩ := mem_cells.mp hx
        have hFrom := (takes2_iff.mp hTakes).1
        exact hNot ⟨hWraps.1, hWraps.2.1, hWraps.2.2, e, he, Nat.lt_of_le_of_lt hFrom hHi⟩
      · rw [if_neg hWraps]
    rw [hGiven] at hNew1
    exact exchanged_of_perm hNew1 hNew2

end Pair

/-- A file of two blocks, and one on the same device with two blocks at 5. -/
def lowFile : Btree.File := newFile.after (.insert ⟨0, 1150, 2, 0⟩)

def highFile : Btree.File := newFile.after (.insert ⟨5, 1160, 2, 0⟩)

theorem good_after_insert {b p : Nat} (hTop : b + 2 < fileTop)
    (hSpare : newFile.spare p = true ∧ newFile.spare (p + 1) = true) :
    Good (newFile.after (.insert ⟨b, p, 2, 0⟩)) := by
  have hAllowed : Allowed newFile (.insert ⟨b, p, 2, 0⟩) := by
    refine ⟨Nat.two_pos, hTop, newFile_isEmpty.good.owns.spare ?_ ?_⟩
    · intro x hx
      have hCases : x = (b, p, 0) ∨ x = (b + 1, p + 1, 0) := by
        simpa [Extent.cells, List.range_succ] using hx
      rcases hCases with rfl | rfl
      · exact hSpare.1
      · exact hSpare.2
    · simp [Extent.cells, List.range_succ]
  have hAvoids : Avoids newFile (.insert ⟨b, p, 2, 0⟩) := by
    rintro k (hk | hk)
    · rw [newFile_isEmpty.content] at hk
      cases hk
    · obtain ⟨x, hx, -⟩ := hk.mem
      cases hx
  obtain ⟨code, -, hGood⟩ := newFile_isEmpty.good.after _ hAllowed hAvoids
  exact hGood

theorem low_high_pair : Pair lowFile highFile where
  good1     := good_after_insert (by decide) (by decide +kernel)
  good2     := good_after_insert (by decide) (by decide +kernel)
  dataStart := rfl
  alloc     := rfl
  nodes     := rfl
  once      := by decide +kernel
  data1     := by decide +kernel
  data2     := by decide +kernel
  trees     := by decide +kernel
  small1    := by decide +kernel
  small2    := by decide +kernel

/-- The two blocks change places. -/
theorem low_high_exchanged :
    ∃ g1 g2, exchEngineDiff ⟨0, 5, 2, false, false⟩ lowFile highFile = some (none, g1, g2) ∧
      Exchanged ⟨0, 5, 2, false, false⟩ lowFile.content.exts (cells lowFile.content.exts)
        (cells highFile.content.exts) (cells g1.content.exts) (cells g2.content.exts) := by
  have hRun : ∃ g1 g2, exchEngineDiff ⟨0, 5, 2, false, false⟩ lowFile highFile =
      some (none, g1, g2) := ⟨_, _, rfl⟩
  obtain ⟨g1, g2, hEq⟩ := hRun
  exact ⟨g1, g2, hEq, (exchange_conserves_iff low_high_pair ⟨by decide, by decide, by decide⟩ hEq).2
    (by decide)⟩

/-- Up to the end of the files: the blocks of the second file are gone. -/
theorem exchange_to_eof_loses_blocks :
    Pair lowFile highFile ∧
      ∃ g1 g2, exchEngineDiff ⟨0, 5, 0, true, false⟩ lowFile highFile = some (none, g1, g2) ∧
        cells g1.content.exts = [] ∧ cells g2.content.exts = [(5, 1150, 0), (6, 1151, 0)] ∧
        ¬ Exchanged ⟨0, 5, 0, true, false⟩ lowFile.content.exts (cells lowFile.content.exts)
          (cells highFile.content.exts) (cells g1.content.exts) (cells g2.content.exts) := by
  refine ⟨low_high_pair, _, _, rfl, by decide +kernel, by decide +kernel, fun hEx => ?_⟩
  have hOwned := hEx.owned.length_eq
  exact absurd hOwned (by decide +kernel)


end Briefs.File
