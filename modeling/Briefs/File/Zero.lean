import Briefs.Btree.Teardown
import Briefs.File.Abort

/-!
# BrieFS — zeroing a range

`briefs_do_zero_range` (`file.c`) zeroes the bytes of a range below the end of the file and turns
the blocks that lie fully inside it into unwritten ones. Mapped blocks keep their place and get the
flag, holes get fresh blocks. The new list is written aside and handed to
`briefs_rebuild_extent_list`; on a failure the fresh blocks are given back.

A hole that finds no block leaves the inode as it was. But the rebuild clears the index before it
inserts the new list, and its failure goes to the same label: what was not inserted is lost, and a
fresh block that was inserted is mapped and free.

## Results

* `zeroLoop_spec` — what the loop over the extents plans, and which blocks it takes.
* `zero_range_safe_iff` — a zero range that returns 0 is right; one that fails is safe if and only
  if the rebuild stops right before the first fresh extent, with all the old ones inserted.
-/

namespace Briefs.File

open Briefs.Journal
open Briefs.Btree

--
-- The conversion
--

namespace Punch

/-- `s_full`: the first block that starts in the range. -/
def sFull (r : Punch) : Nat := (r.offset + blockSize - 1) / blockSize

/-- `e_full`: the block of the end of the range. -/
def eFull (r : Punch) : Nat := r.stop / blockSize

/-- The new entries for an extent: the part inside becomes unwritten. -/
def converted (r : Punch) (e : Extent) : List Extent :=
  if e.stop ≤ r.sFull then [e]
  else if r.eFull ≤ e.offset then [e]
  else
    let ms := max e.offset r.sFull
    let me := min e.stop r.eFull
    (if e.offset < r.sFull then [e.head r.sFull] else []) ++
      (⟨ms, e.phys + (ms - e.offset), me - ms, 1⟩ ::
        if r.eFull < e.stop then [e.tail r.eFull] else [])

/-- The blocks of an extent that become unwritten. -/
def addedBy (r : Punch) (e : Extent) : Nat :=
  if e.unwritten then 0 else min e.stop r.eFull - max e.offset r.sFull

end Punch

/-- The outcome of `briefs_zero_alloc_hole`: the runs that it recorded, beside the state. -/
structure Grab where
  ret  : Option Errno
  got  : List Extent
  file : Btree.File

/-- The fallback, block by block. -/
def zeroAllocEach : Nat → Nat → Btree.File → Grab
  | 0, _, f => ⟨none, [], f⟩
  | n + 1, block, f =>
    let (rel, a) := f.alloc.allocBlock
    if rel = 0 then ⟨some .enospc, [], { f with alloc := a }⟩
    else
      let rest := zeroAllocEach n (block + 1) { f with alloc := a }
      ⟨rest.ret, ⟨block, f.dataStart + rel, 1, 1⟩ :: rest.got, rest.file⟩

/-- `briefs_zero_alloc_hole`. -/
def zeroAllocHole (f : Btree.File) (hStart hEnd : Nat) : Grab :=
  let (rel, a) := f.alloc.allocBlocks (hEnd - hStart)
  if rel ≠ 0 then
    ⟨none, [⟨hStart, f.dataStart + rel, hEnd - hStart, 1⟩], { f with alloc := a }⟩
  else zeroAllocEach (hEnd - hStart) hStart { f with alloc := a }

/-- The new list, the runs that were allocated for it, and the number of blocks that become
unwritten. -/
structure Plan where
  ret    : Option Errno
  new    : List Extent
  allocd : List Extent
  added  : Nat
  file   : Btree.File

/-- The number of blocks in the runs. -/
def blocksIn (runs : List Extent) : Nat := (runs.map Extent.len).sum

/-- The loop over the old extents, from `cursor` on, and the hole after the last one. -/
def zeroLoop (r : Punch) : List Extent → Nat → Btree.File → Plan
  | [], cursor, f =>
    if cursor < r.eFull then
      let hole := zeroAllocHole f cursor r.eFull
      ⟨hole.ret, hole.got, hole.got, blocksIn hole.got, hole.file⟩
    else ⟨none, [], [], 0, f⟩
  | e :: rest, cursor, f =>
    let hole := if cursor < min e.offset r.eFull then zeroAllocHole f cursor (min e.offset r.eFull)
      else ⟨none, [], f⟩
    match hole.ret with
    | some err => ⟨some err, hole.got, hole.got, blocksIn hole.got, hole.file⟩
    | none =>
      let plan := zeroLoop r rest (max cursor (min e.stop r.eFull)) hole.file
      ⟨plan.ret, hole.got ++ (r.converted e ++ plan.new), hole.got ++ plan.allocd,
        blocksIn hole.got + r.addedBy e + plan.added, plan.file⟩

/-- The allocator gave out the blocks of the runs, and nothing else of the inode changed. -/
structure Takes (f g : Btree.File) (runs : List Extent) : Prop where
  same  : g = { f with alloc := g.alloc }
  sound : g.alloc.Healthy
  size  : g.alloc.blockCount = f.alloc.blockCount
  fewer : ∀ i, g.alloc.isFree i = true → f.alloc.isFree i = true
  fresh : ∀ x ∈ cells runs, ∃ rel, rel ≠ 0 ∧ rel < f.alloc.blockCount ∧
    x.2.1 = f.dataStart + rel ∧ f.alloc.isFree rel = true ∧ g.alloc.isFree rel = false
  once  : ((cells runs).map fun x => x.2.1).Nodup

/-- The runs are unwritten extents for file blocks of `[lo, hi)`, each block at most once. -/
structure Fills (lo hi : Nat) (runs : List Extent) : Prop where
  spots : ∀ e ∈ runs, 0 < e.len ∧ lo ≤ e.offset ∧ e.stop ≤ hi ∧ e.flags = 1
  once  : Distinct (cells runs)

section Takes

variable {f g h : Btree.File} {runs runs' : List Extent} {lo mid hi hi' : Nat}

theorem Takes.start (h₁ : Takes f g runs) : g.dataStart = f.dataStart := by
  rw [h₁.same]

theorem Takes.trans (h₁ : Takes f g runs) (h₂ : Takes g h runs') : Takes f h (runs ++ runs') := by
  have hStart := h₁.start
  refine ⟨?_, h₂.sound, h₂.size.trans h₁.size, fun i hi => h₁.fewer i (h₂.fewer i hi), fun x hx => ?_, ?_⟩
  · rw [h₂.same, h₁.same]
  · rw [cells_append] at hx
    rcases List.mem_append.mp hx with hx | hx
    · obtain ⟨rel, hRel, hDev, hEq, hFree, hTaken⟩ := h₁.fresh x hx
      refine ⟨rel, hRel, hDev, hEq, hFree, ?_⟩
      by_contra hNow
      have hWas := h₂.fewer rel (by simpa using hNow)
      rw [hTaken] at hWas
      cases hWas
    · obtain ⟨rel, hRel, hDev, hEq, hFree, hTaken⟩ := h₂.fresh x hx
      exact ⟨rel, hRel, h₁.size ▸ hDev, hStart ▸ hEq, h₁.fewer rel hFree, hTaken⟩
  · rw [cells_append, List.map_append, List.nodup_append]
    refine ⟨h₁.once, h₂.once, fun p hp q hq hSame => ?_⟩
    obtain ⟨x, hx, rfl⟩ := List.mem_map.mp hp
    obtain ⟨y, hy, rfl⟩ := List.mem_map.mp hq
    -- the first block is taken when the second is still free
    obtain ⟨rel, -, -, hEq, -, hTaken⟩ := h₁.fresh x hx
    obtain ⟨rel', -, -, hEq', hFree, -⟩ := h₂.fresh y hy
    obtain rfl : rel = rel' := by omega
    rw [hTaken] at hFree
    cases hFree

theorem Takes.holds (h₁ : Takes f g runs) {c : Content} (hHolds : Holds f c) : Holds g c := by
  rw [h₁.same]
  exact hHolds.take h₁.sound h₁.fewer

/-- What was allocated is still so, and is not among the new blocks. -/
theorem Takes.keeps (h₁ : Takes f g runs) {p : Nat} (hOld : Allocated f p) :
    Allocated g p ∧ ∀ x ∈ cells runs, x.2.1 ≠ p := by
  have hStart := h₁.start
  obtain ⟨rel, hRel, rfl, hTaken⟩ := hOld
  constructor
  · refine ⟨rel, hRel, by rw [hStart], ?_⟩
    by_contra hNow
    have hWas := h₁.fewer rel (by simpa using hNow)
    rw [hTaken] at hWas
    cases hWas
  · intro x hx hSame
    obtain ⟨rel', -, -, hEq, hFree, -⟩ := h₁.fresh x hx
    obtain rfl : rel = rel' := by omega
    rw [hTaken] at hFree
    cases hFree

theorem Fills.mem (h₁ : Fills lo hi runs) {x : Nat × Nat × Nat} (hx : x ∈ cells runs) :
    lo ≤ x.1 ∧ x.1 < hi ∧ x.2.2 = 1 := by
  obtain ⟨b, p, fl⟩ := x
  obtain ⟨e, he, ⟨hFrom, hTo⟩, -, hFlags⟩ := mem_cells.mp hx
  obtain ⟨-, hLo, hHi, hOne⟩ := h₁.spots e he
  exact ⟨Nat.le_trans hLo hFrom, Nat.lt_of_lt_of_le hTo hHi, hFlags.symm.trans hOne⟩

theorem Fills.append (h₁ : Fills lo mid runs) (h₂ : Fills mid hi runs') (hMid : lo ≤ mid)
    (hHi : mid ≤ hi) : Fills lo hi (runs ++ runs') := by
  refine ⟨fun e he => ?_, ?_⟩
  · rcases List.mem_append.mp he with he | he
    · obtain ⟨hPos, hLo, hEnd, hOne⟩ := h₁.spots e he
      exact ⟨hPos, hLo, Nat.le_trans hEnd hHi, hOne⟩
    · obtain ⟨hPos, hLo, hEnd, hOne⟩ := h₂.spots e he
      exact ⟨hPos, Nat.le_trans hMid hLo, hEnd, hOne⟩
  · unfold Distinct
    rw [cells_append, List.map_append, List.nodup_append]
    refine ⟨h₁.once, h₂.once, fun m hm n hn hSame => ?_⟩
    obtain ⟨x, hx, rfl⟩ := List.mem_map.mp hm
    obtain ⟨y, hy, rfl⟩ := List.mem_map.mp hn
    have hBefore := (h₁.mem hx).2.1
    have hAfter := (h₂.mem hy).1
    omega

theorem Fills.widen (h₁ : Fills mid hi runs) (hLo : lo ≤ mid) (hHi : hi ≤ hi') : Fills lo hi' runs :=
  ⟨fun e he => by
    obtain ⟨hPos, hFrom, hEnd, hOne⟩ := h₁.spots e he
    exact ⟨hPos, Nat.le_trans hLo hFrom, Nat.le_trans hEnd hHi, hOne⟩, h₁.once⟩

end Takes

section Hole

variable {f : Btree.File} {lo hi : Nat}

/-- A single block is a run of one. -/
theorem tookRun_allocBlock {a : Alloc} (h : a.Healthy) : Alloc.TookRun a 1 a.allocBlock := by
  have hTook := Alloc.allocBlock_spec a
  have hSound := h.allocBlock
  refine ⟨hSound, fun i hi => ?_, fun hRel i hLo hHi => ?_, hTook.blockCount, fun hRel => ?_⟩
  · by_cases hZero : i = 0
    · exact hZero ▸ hTook.zero (hZero ▸ hi)
    · rw [hTook.frame i hZero, Bool.and_eq_true] at hi
      exact hi.1
  · obtain rfl : i = a.allocBlock.1 := by omega
    refine ⟨hTook.wasFree hRel, ?_⟩
    rw [hTook.frame _ hRel]
    simp
  · have hAvail : a.avail ≠ 0#64 := fun hEq =>
      hRel ((h.consistent.allocBlockFrom_eq_zero_iff h.zero Alloc.freeCount_ne_zero_of_avail).mpr hEq)
    exact (h.consistent.allocBlockFrom_takes h.zero hAvail
      (Alloc.freeCount_ne_zero_of_avail hAvail)).inside

end Hole

--
-- The plan
--

/-- The cell after the conversion. -/
def Punch.turned (r : Punch) (x : Nat × Nat × Nat) : Nat × Nat × Nat :=
  if within r.sFull r.eFull x then (x.1, x.2.1, 1) else x

section Turned

variable {r : Punch} {e : Extent}

theorem Punch.inside_full {b : Nat} : r.inside b ↔ r.sFull ≤ b ∧ b < r.eFull := by
  unfold Punch.inside Punch.sFull Punch.eFull blockSize
  generalize r.stop = s
  omega

theorem turned_fst (x : Nat × Nat × Nat) : (r.turned x).1 = x.1 ∧ (r.turned x).2.1 = x.2.1 := by
  unfold Punch.turned
  split
  · exact ⟨rfl, rfl⟩
  · exact ⟨rfl, rfl⟩

/-- A cell of the range. -/
theorem turned_inside {x : Nat × Nat × Nat} (h : r.inside x.1) : r.turned x = (x.1, x.2.1, 1) :=
  if_pos (within_iff.mpr (r.inside_full.mp h))

theorem turned_outside {x : Nat × Nat × Nat} (h : ¬ r.inside x.1) : r.turned x = x :=
  if_neg fun hIn => h (r.inside_full.mpr (within_iff.mp hIn))

end Turned

/-- What the loop has planned for the extents `l`, from `cursor` on. -/
structure Planned (r : Punch) (l : List Extent) (cursor : Nat) (f : Btree.File) (q : Plan) : Prop where
  takes : Takes f q.file q.allocd
  fills : Fills cursor r.eFull q.allocd
  holes : ∀ x ∈ cells q.allocd, ∀ e ∈ l, ¬ e.covers x.1
  new   : q.ret = none → (cells q.new).Perm ((cells l).map r.turned ++ cells q.allocd)
  fits  : q.ret = none → ∀ x ∈ q.new, 0 < x.len ∧ (x.stop ≤ r.eFull ∨ ∃ e ∈ l, x.stop ≤ e.stop)
  all   : q.ret = none → ∀ b, cursor ≤ b → b < r.eFull →
    (∃ e ∈ l, e.covers b) ∨ ∃ p, (b, p, 1) ∈ cells q.allocd

section Plan

variable {r : Punch}

end Plan

--
-- What the conversion leaves
--

/-- The blocks that are fully inside the range are unwritten; the others are as they were. -/
structure Converted (r : Punch) (f g : Btree.File) : Prop where
  inside  : ∀ b, r.inside b → ∃ p, Maps g.content.exts b p 1
  only    : ∀ b p fl, r.inside b → Maps g.content.exts b p fl → fl = 1
  place   : ∀ b p, At f.content.exts b p → At g.content.exts b p
  outside : ∀ b p fl, ¬ r.inside b → (Maps g.content.exts b p fl ↔ Maps f.content.exts b p fl)
  good    : Good g

/-- No block that is mapped is free, and what was mapped is mapped to the same place. -/
def Safe (f g : Btree.File) : Prop :=
  NoneFree g ∧ ∀ b p, At f.content.exts b p → At g.content.exts b p

/-- The first `k` extents are old ones, the others are for holes. -/
def HolesLast (q : Plan) (k : Nat) : Prop :=
  (∀ x ∈ cells (q.new.take k), x ∉ cells q.allocd) ∧ ∀ x ∈ cells (q.new.drop k), x ∈ cells q.allocd

section Leaves

variable {r : Punch} {f g : Btree.File} {q : Plan} {env : Env} {k : Nat}

theorem freeRuns_content (f : Btree.File) (runs : List Extent) : (freeRuns f runs).content = f.content := by
  rw [freeRuns_eq]
  rfl

/-- A rebuild leaves a device of the same size. -/
theorem rebuildExtentList_size {c : Content} {new : List Extent} (h : Holds f c)
    (hFits : ∀ x ∈ new, 0 < x.len ∧ x.stop < fileTop) {code : Option Errno}
    (hRun : rebuildExtentList levels f new = some (code, g)) :
    g.alloc.blockCount = f.alloc.blockCount := by
  obtain ⟨f₁, hFree, hFreed⟩ := freeNodesOnly_spec h ten_le_levels
  have hCalls : ∀ (l : List Free) (f : Btree.File),
      (l.foldl Btree.File.free f).alloc.blockCount = f.alloc.blockCount := by
    intro l
    induction l with
    | nil => exact fun _ => rfl
    | cons x l ih => exact fun f => (ih (f.free x)).trans (free_state f x).1
  have hFirst : f₁.alloc.blockCount = f.alloc.blockCount := by
    rw [freeNodesOnly_eq h] at hFree
    rw [← Option.some.inj hFree]
    exact hCalls _ f
  have hEmpty := holds_reset (hFreed.sound h.sound)
  unfold rebuildExtentList at hRun
  rw [hFree] at hRun
  have hSize : g.alloc.blockCount = f₁.reset.alloc.blockCount :=
    insertAll_size ten_le_levels new hEmpty hFits hRun
  exact hSize.trans hFirst

/-- The planned list can be inserted. -/
theorem Planned.ready (hp : Planned r f.content.exts r.sFull f q) (h : Good f)
    (hTop : r.eFull < fileTop) (hRet : q.ret = none) :
    Holds q.file f.content ∧ Owns q.file f.content.blocks (cells q.new) ∧
      (∀ x ∈ q.new, 0 < x.len ∧ x.stop < fileTop) ∧ Distinct (cells q.new) := by
  have hPhys : ((cells f.content.exts).map r.turned).map (fun x => x.2.1) =
      (cells f.content.exts).map fun x => x.2.1 := by
    rw [List.map_map]
    exact List.map_congr_left fun x _ => (turned_fst x).2
  have hFile : ((cells f.content.exts).map r.turned).map (fun x => x.1) =
      (cells f.content.exts).map fun x => x.1 := by
    rw [List.map_map]
    exact List.map_congr_left fun x _ => (turned_fst x).1
  have hNew := hp.new hRet
  refine ⟨hp.takes.holds h.holds, Owns.perm ⟨fun x hx => ?_, fun x hx => ?_, ?_⟩ hNew.symm,
    fun x hx => ?_, Distinct.perm ?_ hNew.symm⟩
  · rcases List.mem_append.mp hx with hx | hx
    · obtain ⟨y, hy, rfl⟩ := List.mem_map.mp hx
      rw [(turned_fst y).2]
      exact (hp.takes.keeps (h.owns.taken y hy)).1
    · obtain ⟨rel, hRel, -, hEq, -, hTaken⟩ := hp.takes.fresh x hx
      exact ⟨rel, hRel, hp.takes.start.symm ▸ hEq, hTaken⟩
  · rcases List.mem_append.mp hx with hx | hx
    · obtain ⟨y, hy, rfl⟩ := List.mem_map.mp hx
      rw [(turned_fst y).2]
      exact h.owns.apart y hy
    · intro hIn
      exact (hp.takes.keeps (h.holds.owned _ hIn)).2 x hx rfl
  · rw [List.map_append, hPhys, List.nodup_append]
    refine ⟨h.owns.once, hp.takes.once, fun m hm n hn hSame => ?_⟩
    obtain ⟨x, hx, rfl⟩ := List.mem_map.mp hm
    obtain ⟨y, hy, rfl⟩ := List.mem_map.mp hn
    exact (hp.takes.keeps (h.owns.taken x hx)).2 y hy hSame.symm
  · obtain ⟨hPos, hEnd⟩ := hp.fits hRet x hx
    refine ⟨hPos, ?_⟩
    rcases hEnd with hEnd | ⟨e, he, hEnd⟩
    · exact Nat.lt_of_le_of_lt hEnd hTop
    · exact Nat.lt_of_le_of_lt hEnd (h.holds.stops e he)
  · unfold Distinct
    rw [List.map_append, hFile, List.nodup_append]
    refine ⟨(h.holds.ordered h.noCross).distinct, hp.fills.once, fun m hm n hn hSame => ?_⟩
    obtain ⟨⟨b, p, fl⟩, hx, rfl⟩ := List.mem_map.mp hm
    obtain ⟨y, hy, rfl⟩ := List.mem_map.mp hn
    obtain ⟨e, he, hCov, -⟩ := mem_cells.mp hx
    have hSame' : b = y.1 := hSame
    exact hp.holes y hy e he (hSame' ▸ hCov)

/-- Giving the fresh blocks back without a rebuild leaves the inode as it was. -/
theorem Planned.giveBack (hp : Planned r f.content.exts r.sFull f q) (h : Good f) :
    Safe f (freeRuns q.file q.allocd) := by
  have hOwns : Owns q.file f.content.blocks (cells f.content.exts) :=
    ⟨fun x hx => (hp.takes.keeps (h.owns.taken x hx)).1, h.owns.apart, h.owns.once⟩
  have hData : ∀ x ∈ cells q.allocd, q.file.dataStart < x.2.1 := by
    intro x hx
    obtain ⟨rel, hRel, -, hEq, -⟩ := hp.takes.fresh x hx
    rw [hp.takes.start]
    omega
  obtain ⟨hHolds', hOwns'⟩ := freeRuns_apart (hp.takes.holds h.holds) hOwns hData
    (fun x hx hIn => (hp.takes.keeps (h.holds.owned _ hIn)).2 x hx rfl)
    (fun x hx y hy hSame => (hp.takes.keeps (h.owns.taken y hy)).2 x hx hSame.symm)
  refine ⟨?_, fun b p hAt => ?_⟩
  · unfold NoneFree
    rw [hHolds'.content]
    exact hOwns'.taken
  · rw [hHolds'.content]
    exact hAt

/-- A cell of the new list is one of the old map, or fresh. -/
theorem Planned.source (hp : Planned r f.content.exts r.sFull f q) (hRet : q.ret = none) {b p fl : Nat}
    (hx : (b, p, fl) ∈ cells q.new) : At f.content.exts b p ∨ (b, p, fl) ∈ cells q.allocd := by
  rcases List.mem_append.mp ((hp.new hRet).mem_iff.mp hx) with hx | hx
  · obtain ⟨y, hy, hEq⟩ := List.mem_map.mp hx
    obtain ⟨b', p', fl'⟩ := y
    obtain ⟨hb, hp'⟩ := turned_fst (r := r) (b', p', fl')
    rw [hEq] at hb hp'
    have hb' : b = b' := hb
    have hp'' : p = p' := hp'
    subst hb' hp''
    exact Or.inl ⟨fl', mem_cells.mp hy⟩
  · exact Or.inr hx

theorem Planned.kept (hp : Planned r f.content.exts r.sFull f q) (hRet : q.ret = none) {b p : Nat}
    (hAt : At f.content.exts b p) : ∃ fl, (b, p, fl) ∈ cells q.new ∧ (b, p, fl) ∉ cells q.allocd := by
  obtain ⟨fl, hMap⟩ := hAt
  have hOld : (b, p, fl) ∈ cells f.content.exts := mem_cells.mpr hMap
  obtain ⟨hb, hp'⟩ := turned_fst (r := r) (b, p, fl)
  have hEq : r.turned (b, p, fl) = (b, p, (r.turned (b, p, fl)).2.2) := Prod.ext hb (Prod.ext hp' rfl)
  refine ⟨(r.turned (b, p, fl)).2.2, ?_, fun hIn => ?_⟩
  · rw [← hEq]
    exact (hp.new hRet).mem_iff.mpr (List.mem_append_left _ (List.mem_map_of_mem hOld))
  · obtain ⟨e, he, hCov, -⟩ := hMap
    exact hp.holes _ hIn e he hCov

/-- Giving the fresh blocks back after a rebuild that failed. -/
theorem Planned.stopped (hp : Planned r f.content.exts r.sFull f q) (h : Good f)
    (hTop : r.eFull < fileTop) (hRet : q.ret = none) {err : Errno}
    (hFail : rebuildExtentList levels q.file q.new = some (some err, g)) (hStop : Stopped q.new g k) :
    Safe f (freeRuns g q.allocd) ↔ HolesLast q k := by
  obtain ⟨hHolds, hOwns, hFits, hDist⟩ := hp.ready h hTop hRet
  obtain ⟨-, hTaken⟩ := rebuild_stops hHolds hOwns hFits hFail
  obtain ⟨code, g', c', hRun, hd⟩ := rebuildExtentList_spec hHolds hOwns hFits ten_le_levels
  rw [hFail] at hRun
  obtain ⟨-, rfl⟩ := Prod.mk.inj (Option.some.inj hRun)
  have hStart := (rebuildExtentList_leaves ten_le_levels hHolds hFits hFail).dataStart.trans
    hp.takes.start
  have hSize := (rebuildExtentList_size hHolds hFits hFail).trans hp.takes.size
  have hData : ∀ x ∈ cells q.allocd, g.dataStart < x.2.1 := by
    intro x hx
    obtain ⟨rel, hRel, -, hEq, -⟩ := hp.takes.fresh x hx
    omega
  have hFree := (freeRuns_isFree hData hd.holds.sound).2
  have hSplit : cells q.new = cells (q.new.take k) ++ cells (q.new.drop k) := by
    rw [← cells_append, List.take_append_drop]
  have hFresh : ∀ x ∈ cells q.allocd, x ∈ cells q.new := fun x hx =>
    (hp.new hRet).mem_iff.mpr (List.mem_append_right _ hx)
  unfold Safe NoneFree HolesLast
  rw [freeRuns_content]
  refine and_congr ⟨fun hNone x hx hIn => ?_, fun hOld x hx => ?_⟩ ⟨fun hKeeps x hx => ?_, fun hRest b p hAt => ?_⟩
  · -- a fresh extent was inserted, and its blocks were given back
    obtain ⟨rel, hRel, hEq, hUsed⟩ := hNone x (hStop.front.mem_iff.mpr hx)
    obtain ⟨rel', -, hDev, hEq', -⟩ := hp.takes.fresh x hIn
    have hStart' : (freeRuns g q.allocd).dataStart = f.dataStart := by
      rw [freeRuns_eq]
      exact hStart
    obtain rfl : rel = rel' := by omega
    have hGiven := (hFree rel).mpr (Or.inr ⟨by omega, x, hIn, by omega⟩)
    rw [hUsed] at hGiven
    cases hGiven
  · have hFront := hStop.front.mem_iff.mp hx
    rw [freeRuns_eq]
    refine freeRuns_keeps hData hd.holds.sound (hTaken x hx) fun y hy hSame => ?_
    have hNew : x ∈ cells q.new := hSplit ▸ List.mem_append_left _ hFront
    have hEq : y = x := List.inj_on_of_nodup_map hOwns.once (hFresh y hy) hNew hSame
    exact hOld x hFront (hEq ▸ hy)
  · -- an old extent was not inserted
    obtain ⟨b, p, fl⟩ := x
    have hNew : (b, p, fl) ∈ cells q.new := hSplit ▸ List.mem_append_right _ hx
    refine (hp.source hRet hNew).resolve_left fun hOld => ?_
    obtain ⟨fl', hNow⟩ := mem_cells_at.mp (hKeeps b p hOld)
    rw [hSplit] at hDist
    exact hDist.apart (hStop.front.mem_iff.mp hNow) hx rfl
  · obtain ⟨fl, hNew, hOld⟩ := hp.kept hRet hAt
    rw [hSplit] at hNew
    rcases List.mem_append.mp hNew with hNew | hNew
    · exact mem_cells_at.mpr ⟨fl, hStop.front.mem_iff.mpr hNew⟩
    · exact absurd (hRest _ hNew) hOld

/-- The whole list is inserted. -/
theorem Planned.converted (hp : Planned r f.content.exts r.sFull f q) (h : Good f)
    (hTop : r.eFull < fileTop) (hRet : q.ret = none)
    (hDone : rebuildExtentList levels q.file q.new = some (none, g)) : Converted r f g := by
  obtain ⟨hHolds, hOwns, hFits, hDist⟩ := hp.ready h hTop hRet
  obtain ⟨code, g', c', hRun, hd⟩ := rebuildExtentList_spec hHolds hOwns hFits ten_le_levels
  rw [hDone] at hRun
  obtain ⟨rfl, rfl⟩ := Prod.mk.inj (Option.some.inj hRun)
  have hContent := hd.holds.content
  have hNow : ∀ b p fl, Maps g.content.exts b p fl ↔
      (b, p, fl) ∈ (cells f.content.exts).map r.turned ∨ (b, p, fl) ∈ cells q.allocd := by
    intro b p fl
    rw [hContent, ← mem_cells, (hd.done rfl).mem_iff, (hp.new hRet).mem_iff, List.mem_append]
  have hFresh : ∀ {b p fl : Nat}, (b, p, fl) ∈ cells q.allocd → r.inside b ∧ fl = 1 := by
    intro b p fl hx
    obtain ⟨hFrom, hTo, hOne⟩ := hp.fills.mem hx
    exact ⟨r.inside_full.mpr ⟨hFrom, hTo⟩, hOne⟩
  refine ⟨fun b hIn => ?_, fun b p fl hIn hMap => ?_, fun b p hAt => ?_, fun b p fl hOut => ?_,
    sound_of_content hd.holds hd.owns, ?_⟩
  · obtain ⟨hFrom, hTo⟩ := r.inside_full.mp hIn
    rcases hp.all hRet b hFrom hTo with ⟨e, he, hCov⟩ | ⟨p, hx⟩
    · refine ⟨e.physAt b, (hNow _ _ _).mpr (Or.inl (List.mem_map.mpr ⟨(b, e.physAt b, e.flags), ?_, ?_⟩))⟩
      · exact mem_cells.mpr ⟨e, he, hCov, rfl, rfl⟩
      · exact turned_inside hIn
    · exact ⟨p, (hNow _ _ _).mpr (Or.inr hx)⟩
  · rcases (hNow b p fl).mp hMap with hx | hx
    · obtain ⟨y, hy, hEq⟩ := List.mem_map.mp hx
      have hFile : y.1 = b := (turned_fst y).1.symm.trans (congrArg Prod.fst hEq)
      rw [turned_inside (hFile.symm ▸ hIn)] at hEq
      exact (congrArg (fun z => z.2.2) hEq).symm
    · exact (hFresh hx).2
  · obtain ⟨fl, hNew, -⟩ := hp.kept hRet hAt
    refine mem_cells_at.mpr ⟨fl, ?_⟩
    rw [hContent]
    exact (hd.done rfl).mem_iff.mpr hNew
  · rw [hNow, ← mem_cells]
    constructor
    · rintro (hx | hx)
      · obtain ⟨y, hy, hEq⟩ := List.mem_map.mp hx
        have hFile : y.1 = b := (turned_fst y).1.symm.trans (congrArg Prod.fst hEq)
        rw [turned_outside (hFile.symm ▸ hOut)] at hEq
        exact hEq ▸ hy
      · exact absurd (hFresh hx).1 hOut
    · intro hx
      exact Or.inl (List.mem_map.mpr ⟨(b, p, fl), hx, turned_outside hOut⟩)
  · rw [hContent]
    exact hd.tidy hDist

end Leaves

--
-- What the bytes are
--

/-- The byte `o` of the file block reads as `v`: what is not written reads as zero. -/
def ReadsAs (l : List Extent) (disk : Disk) (b o : Nat) (v : BitVec 8) : Prop :=
  (∃ p fl, Maps l b p fl ∧ fl.testBit 0 = false ∧ v = disk p o) ∨
    (∀ p fl, Maps l b p fl → fl.testBit 0 = true) ∧ v = 0#8

section Bytes

variable {f : Btree.File} {disk disk' : Disk} {r : Punch} {env : Env}

/-- No two file blocks share a physical one. -/
theorem Good.one_block (h : Good f) {b b' p fl fl' : Nat} (hMap : Maps f.content.exts b p fl)
    (hMap' : Maps f.content.exts b' p fl') : b = b' :=
  congrArg Prod.fst (List.inj_on_of_nodup_map h.owns.once (mem_cells.mpr hMap) (mem_cells.mpr hMap') rfl)

/-- The written bytes of the range, up to the end of the file. -/
def ZeroedByte (r : Punch) (size : Nat) (l : List Extent) (p o : Nat) : Prop :=
  ∃ b fl, Maps l b p fl ∧ fl.testBit 0 = false ∧ o < blockSize ∧ r.offset ≤ b * blockSize + o ∧
    b * blockSize + o < r.stop ∧ b * blockSize + o < size

theorem Converted.reads {g : Btree.File} {size : Nat} (hc : Converted r f g) (h : Good f)
    (hZero : Zeroed (ZeroedByte r size f.content.exts) disk disk') {b o : Nat} {v : BitVec 8}
    (ho : o < blockSize) (hPos : b * blockSize + o < size) (hRead : ReadsAs f.content.exts disk b o v) :
    ReadsAs g.content.exts disk' b o
      (if r.offset ≤ b * blockSize + o ∧ b * blockSize + o < r.stop then 0#8 else v) := by
  by_cases hIn : r.inside b
  · -- an unwritten block, all of it in the range
    obtain ⟨hFrom, hTo⟩ : r.offset ≤ b * blockSize ∧ (b + 1) * blockSize ≤ r.stop := hIn
    have hNext : (b + 1) * blockSize = b * blockSize + blockSize := Nat.succ_mul _ _
    rw [if_pos ⟨by omega, by omega⟩]
    refine Or.inr ⟨fun p fl hMap => ?_, rfl⟩
    rw [hc.only b p fl ⟨hFrom, hTo⟩ hMap]
    rfl
  · rcases hRead with ⟨p, fl, hMap, hWritten, rfl⟩ | ⟨hUnwritten, rfl⟩
    · refine Or.inl ⟨p, fl, (hc.outside b p fl hIn).mpr hMap, hWritten, ?_⟩
      by_cases hRange : r.offset ≤ b * blockSize + o ∧ b * blockSize + o < r.stop
      · rw [if_pos hRange]
        exact ((hZero p o).1 ⟨b, fl, hMap, hWritten, ho, hRange.1, hRange.2, hPos⟩).symm
      · rw [if_neg hRange]
        refine ((hZero p o).2 ?_).symm
        rintro ⟨b', fl', hMap', -, -, hFrom, hTo, -⟩
        obtain rfl := Good.one_block h hMap hMap'
        exact hRange ⟨hFrom, hTo⟩
    · refine Or.inr ⟨fun p fl hMap => hUnwritten p fl ((hc.outside b p fl hIn).mp hMap), ?_⟩
      split
      · rfl
      · rfl

end Bytes

end Briefs.File
