import Briefs.Alloc.Complete
import Briefs.Btree.Runs

/-!
# BrieFS — the mapping of buffered writes

`briefs_iomap_begin_common` in write mode without `IOMAP_DIRECT`, and
`briefs_writeback_map_blocks`, which reuses the mapping of an earlier call while it
covers the block (`iomap.c`). Positions and mappings are in bytes, as there.

A write into an unwritten extent converts the blocks that it covers, but the mapping that
is returned is that of the whole extent before the conversion. Writeback asks for one
block at a time and then trusts the whole mapping.

## Results

* `begin_lands` — a call on an index in order maps the blocks of the write to blocks that
  a later lookup finds written.
* `Writing.lands` — in every run of writes and writeback whose steps keep off the
  defects, every block lands on a written block.
* `cached_mapping_skips_conversion` — the second block of an unwritten extent does not.
-/

namespace Briefs.Btree

open Briefs.Journal

--
-- The code
--

/-- `struct iomap` of a mapped range: `unwritten` for the type `IOMAP_UNWRITTEN`, `isNew`
for the flag `IOMAP_F_NEW`. -/
structure Iomap where
  offset    : Nat
  length    : Nat
  addr      : Nat
  unwritten : Bool
  isNew     : Bool
deriving DecidableEq, Repr

/-- `BRIEFS_BLOCK_SIZE`. -/
def blockSize : Nat := 4096

/-- `BRIEFS_DELALLOC_RUN_MAX`. -/
def delallocRunMax : Nat := 256

/-- `briefs_iomap_fill_mapped`. -/
def fillMapped (ext : Extent) (isNew : Bool) : Iomap where
  offset    := ext.offset * blockSize
  length    := ext.len * blockSize
  addr      := ext.phys * blockSize
  unwritten := ext.unwritten
  isNew     := isNew

/-- The number of blocks to allocate at `iblock`: the full blocks of the write, up to the
next extent. -/
def runLength (f : File) (iblock length : Nat) : Option Nat :=
  let full := length / blockSize
  let n := if full = 0 then 1 else min full delallocRunMax
  if 1 < n then
    match nextExtent f iblock with
    | none => none
    | some (.ok ext) => some (if iblock < ext.offset then min n (ext.offset - iblock) else n)
    | some (.error _) => some n
  else some n

/-- The loop that frees the blocks of a run. -/
def freeEach (a : Alloc) (rel n : Nat) : Alloc :=
  (List.range n).foldl (fun a i => a.freeBlock (rel + i)) a

/-- The attempt to map `n` blocks as one extent. -/
def allocRun (f : File) (iblock n : Nat) : Option (Option Iomap × File) :=
  let (rel, a) := f.alloc.allocBlocks n
  let f := { f with alloc := a }
  if rel = 0 then some (none, f)
  else
    let newExt : Extent := ⟨iblock, f.dataStart + rel, n, 0⟩
    match insertLocked levels f newExt with
    | none => none
    | some (none, f) => some (some (fillMapped newExt true), f)
    | some (some _, f) => some (none, { f with alloc := freeEach f.alloc rel n })

/-- The single-block fallback. -/
def allocOne (f : File) (iblock : Nat) : Option (Except Errno Iomap × File) :=
  let (rel, a) := f.alloc.allocBlock
  let f := { f with alloc := a }
  if rel = 0 then some (.error .enospc, f)
  else
    let newExt : Extent := ⟨iblock, f.dataStart + rel, 1, 0⟩
    match insertLocked levels f newExt with
    | none => none
    | some (none, f) => some (.ok (fillMapped newExt true), f)
    | some (some .eexist, f) =>
      -- lost the race: adopt the mapping that is there
      let f := { f with alloc := f.alloc.freeBlock rel }
      match lookupIblock f iblock with
      | none => none
      | some (.ok ext) => some (.ok (fillMapped ext false), f)
      | some (.error e) => some (.error e, f)
    | some (some e, f) => some (.error e, { f with alloc := f.alloc.freeBlock rel })

/-- The part from `do_alloc` on. -/
def doAlloc (f : File) (iblock length : Nat) : Option (Except Errno Iomap × File) :=
  match runLength f iblock length with
  | none => none
  | some n => match allocRun f iblock n with
    | none => none
    | some (some m, f) => some (.ok m, f)
    | some (none, f) => allocOne f iblock

/-- The tail cache says that nothing is mapped at the block or after it. -/
def File.pastTail (f : File) (iblock : Nat) : Prop :=
  f.maxEnd ≠ 0 ∧ f.maxEnd ≤ iblock

instance (f : File) (iblock : Nat) : Decidable (f.pastTail iblock) :=
  inferInstanceAs (Decidable (_ ∧ _))

/-- The end of the write in blocks. -/
def endBlock (pos length : Nat) : Nat :=
  (pos + length + blockSize - 1) / blockSize

/-- The part from `locked_create` on. The result of the conversion is ignored, and the
mapping is that of the extent before it. -/
def lockedCreate (f : File) (pos length : Nat) : Option (Except Errno Iomap × File) :=
  let iblock := pos / blockSize
  if f.pastTail iblock then doAlloc f iblock length
  else match lookupIblock f iblock with
    | none => none
    | some (.ok ext) =>
      if ext.unwritten then
        match convertUnwrittenRange levels f iblock (min (endBlock pos length) ext.stop) with
        | none => none
        | some (_, f) => some (.ok (fillMapped ext false), f)
      else some (.ok (fillMapped ext false), f)
    | some (.error .enoent) => doAlloc f iblock length
    | some (.error e) => some (.error e, f)

/-- `briefs_iomap_begin_common` for an inode without inline data, `write` set and
`IOMAP_DIRECT` not. -/
def beginWrite (f : File) (pos length : Nat) : Option (Except Errno Iomap × File) :=
  let iblock := pos / blockSize
  if f.pastTail iblock then lockedCreate f pos length
  else match lookupIblock f iblock with
    | none => none
    | some (.ok ext) =>
      if ext.unwritten then lockedCreate f pos length
      else some (.ok (fillMapped ext false), f)
    | some (.error _) => lockedCreate f pos length

--
-- Where a block lands
--

/-- The mapping covers the file block. -/
def Iomap.covers (m : Iomap) (b : Nat) : Prop :=
  m.offset ≤ b * blockSize ∧ b * blockSize < m.offset + m.length

instance (m : Iomap) (b : Nat) : Decidable (m.covers b) :=
  inferInstanceAs (Decidable (_ ∧ _))

/-- The file block lies in the byte range. -/
def Touches (pos length b : Nat) : Prop :=
  b * blockSize < pos + length ∧ pos < (b + 1) * blockSize

/-- The index maps the block to the place that the mapping gives, in a written extent. -/
def Lands (f : File) (m : Iomap) (b : Nat) : Prop :=
  ∃ e, lookupIblock f b = some (.ok e) ∧ e.unwritten = false ∧
    e.physAt b * blockSize = m.addr + (b * blockSize - m.offset)

--
-- The index and its blocks
--

section Begin

variable {f : File} {c : Content} {iblock : Nat}

/-- The extents of the inode are `c`, and none crosses a separator. -/
structure Tidy (f : File) (c : Content) : Prop where
  holds   : Holds f c
  noCross : NoCross c

theorem Tidy.lookup_iff (h : Tidy f c) {b : Nat} (hb : b < fileTop) (e : Extent) :
    lookupIblock f b = some (.ok e) ↔ e ∈ c.exts ∧ e.covers b := by
  obtain ⟨l, hAll, hAgrees⟩ := h.holds.agrees h.noCross
  rw [h.holds.forEachExtent] at hAll
  cases hAll
  exact (hAgrees b hb).1 e

theorem Tidy.lookup_none (h : Tidy f c) {b : Nat} (hb : b < fileTop)
    (hNone : ∀ e ∈ c.exts, ¬ e.covers b) : lookupIblock f b = some (.error .enoent) := by
  obtain ⟨l, hAll, hAgrees⟩ := h.holds.agrees h.noCross
  rw [h.holds.forEachExtent] at hAll
  cases hAll
  exact (hAgrees b hb).2.1 hNone

theorem fillMapped_covers {ext : Extent} {isNew : Bool} {b : Nat} :
    (fillMapped ext isNew).covers b ↔ ext.covers b := by
  unfold fillMapped Iomap.covers Extent.covers Extent.stop blockSize
  dsimp only
  omega

/-- A written cell at the place that the mapping of `ext` gives. -/
theorem Tidy.lands (h : Tidy f c) {ext : Extent} {isNew : Bool} {b : Nat} (hCov : ext.covers b)
    (fl : Nat) (hCell : (b, ext.physAt b, fl) ∈ cells c.exts) (hWritten : fl.testBit 0 = false) :
    b < fileTop ∧ Lands f (fillMapped ext isNew) b := by
  obtain ⟨e, he, hMaps, hPhys, hFlags⟩ := mem_cells.mp hCell
  have hTop : b < fileTop := Nat.lt_trans hMaps.2 (h.holds.stops e he)
  refine ⟨hTop, e, (h.lookup_iff hTop e).mpr ⟨he, hMaps⟩, ?_, ?_⟩
  · show e.flags.testBit 0 = false
    rw [hFlags]
    exact hWritten
  · have hLo := hCov.1
    rw [hPhys]
    unfold fillMapped Extent.physAt blockSize
    dsimp only
    omega

theorem Holds.withAlloc (h : Holds f c) {a : Alloc} (hHealthy : a.Healthy)
    (hKeep : ∀ b ∈ c.blocks, Allocated { f with alloc := a } b) : Holds { f with alloc := a } c :=
  ⟨h.tree, h.flat, h.nodup, hKeep, h.stops, hHealthy⟩

/-- Taking more blocks keeps those of the tree. -/
theorem Holds.take (h : Holds f c) {a : Alloc} (hHealthy : a.Healthy)
    (hFewer : ∀ i, a.isFree i = true → f.alloc.isFree i = true) : Holds { f with alloc := a } c := by
  refine h.withAlloc hHealthy fun b hb => ?_
  obtain ⟨rel, hRel, hEq, hTaken⟩ := h.owned b hb
  refine ⟨rel, hRel, hEq, ?_⟩
  by_contra hFree
  have hOld := hFewer rel (by simpa using hFree)
  rw [hTaken] at hOld
  cases hOld

theorem isFree_freeEach (a : Alloc) (rel n i : Nat) (hFree : (freeEach a rel n).isFree i = true) :
    a.isFree i = true ∨ (rel ≤ i ∧ i < rel + n) := by
  induction n with
  | zero => exact Or.inl hFree
  | succ n ih =>
    unfold freeEach at ih hFree
    rw [List.range_succ, List.foldl_append] at hFree
    have hLast : ((List.range n).foldl (fun a i => a.freeBlock (rel + i)) a).isFree i = true ∨
        i = rel + n := by
      have hStep := Alloc.isFree_freeBlock
        ((List.range n).foldl (fun a i => a.freeBlock (rel + i)) a) (rel + n) i
      rw [List.foldl_cons, List.foldl_nil, hStep, Bool.or_eq_true, decide_eq_true_eq] at hFree
      exact hFree.imp_right And.left
    rcases hLast with hBefore | hHere
    · exact (ih hBefore).imp_right fun hIn => ⟨hIn.1, by omega⟩
    · exact Or.inr (by omega)

theorem healthy_freeEach {a : Alloc} (h : a.Healthy) {rel : Nat} (hRel : rel ≠ 0) (n : Nat) :
    (freeEach a rel n).Healthy := by
  induction n with
  | zero => exact h
  | succ n ih =>
    unfold freeEach at ih ⊢
    rw [List.range_succ, List.foldl_append]
    exact ih.freeBlock (by omega)

--
-- New blocks
--

/-- What an attempt to map new blocks leaves: no cell is lost, and a mapping covers cells
of its own. -/
structure MapDone (c : Content) (m : Option Iomap) (f' : File) (c' : Content) :
    Prop where
  tidy  : Tidy f' c'
  kept  : ∀ x ∈ cells c.exts, x ∈ cells c'.exts
  same  : m = none → c'.exts = c.exts
  lands : ∀ x, m = some x → ∀ b, x.covers b → b < fileTop ∧ Lands f' x b

/-- The insertion of an extent over blocks that are not mapped. -/
theorem Tidy.insert (h : Tidy f c) (ext : Extent) (hLen : 0 < ext.len) (hStop : ext.stop < fileTop)
    (hApart : ∀ e ∈ c.exts, ¬ e.overlaps ext) (hSeps : ∀ k ∈ c.seps, ¬ ext.crosses k) :
    ∃ code f' c', insertLocked levels f ext = some (code, f') ∧ InsertDone f c ext code f' c' ∧
      NoCross c' ∧ code ≠ some .eexist := by
  obtain ⟨code, f', c', hEq, hd⟩ := insertLocked_spec h.holds hLen hStop ten_le_levels
  have hKey : ext.offset < fileTop := by
    unfold Extent.stop at hStop
    omega
  have hClear : Clear c (f.routed ext.offset) ext := by
    rintro k (hk | hk) ⟨hLo, hHi⟩
    · exact hSeps k hk ⟨hLo, hHi⟩
    · obtain ⟨x, hx, rfl⟩ := hk.mem
      have hMem := h.holds.routed_subset hKey hx
      have hPos := h.holds.pos x hMem
      refine hApart x hMem ⟨hHi, ?_⟩
      unfold Extent.stop
      omega
  refine ⟨code, f', c', hEq, hd, (hd.tidy h.noCross hClear).1, ?_⟩
  intro hCode
  obtain ⟨e, he, hOver⟩ := hd.clash hCode
  exact hApart e he hOver

/-- Blocks that were taken for an extent are given back after a failed insertion. -/
theorem InsertDone.giveBack {ext : Extent} {code : Option Errno} {f' : File} {c' : Content}
    (h : InsertDone f c ext code f' c') (rel n : Nat) {a : Alloc} (hHealthy : a.Healthy)
    (hTaken : ∀ i, rel ≤ i → i < rel + n → i ≠ 0 → f.alloc.isFree i = false)
    (hOut : ∀ i, rel ≤ i → i < rel + n → f.dataStart + i ∉ c.blocks)
    (hFreed : ∀ i, a.isFree i = true → f'.alloc.isFree i = true ∨ (rel ≤ i ∧ i < rel + n)) :
    Holds { f' with alloc := a } c' := by
  refine h.holds.withAlloc hHealthy fun b hb => ?_
  obtain ⟨i, hi, hEq, hUsed⟩ := h.holds.owned b hb
  refine ⟨i, hi, hEq, ?_⟩
  by_contra hFree
  rcases hFreed i (by simpa using hFree) with hOld | ⟨hLo, hHi⟩
  · rw [hUsed] at hOld
    cases hOld
  · rw [h.grows.dataStart] at hEq
    have hNot := h.grows.notMem ⟨i, hi, rfl, hTaken i hLo hHi hi⟩ (hOut i hLo hHi)
    rw [hEq] at hb
    exact hNot hb

/-- A new extent that is mapped. -/
theorem mapDone_of_insert {ext : Extent} {f' : File} {c' : Content}
    (h : InsertDone f c ext none f' c') (hNo : NoCross c') (hFlags : ext.flags = 0) :
    MapDone c (some (fillMapped ext true)) f' c' := by
  have hPerm := h.done rfl
  refine ⟨⟨h.holds, hNo⟩, ?_, nofun, ?_⟩
  · intro x hx
    exact hPerm.mem_iff.mpr (List.mem_append_left _ hx)
  · rintro x hx b hCov
    cases hx
    have hIn := fillMapped_covers.mp hCov
    refine Tidy.lands ⟨h.holds, hNo⟩ hIn 0 ?_ rfl
    exact hPerm.mem_iff.mpr (List.mem_append_right _ (mem_extent_cells.mpr ⟨hIn, rfl, hFlags⟩))

theorem allocRun_spec (h : Tidy f c) {n : Nat} (hn : 1 ≤ n) (hTop : iblock + n < fileTop)
    (hApart : ∀ e ∈ c.exts, e.stop ≤ iblock ∨ iblock + n ≤ e.offset)
    (hSeps : ∀ k ∈ c.seps, ¬ (iblock < k ∧ k < iblock + n)) :
    ∃ m f' c', allocRun f iblock n = some (m, f') ∧ MapDone c m f' c' := by
  have hTook := h.holds.sound.allocBlocks n
  unfold allocRun
  rcases hAlloc : f.alloc.allocBlocks n with ⟨rel, a⟩
  rw [hAlloc] at hTook
  dsimp only
  have h₁ : Tidy { f with alloc := a } c := ⟨h.holds.take hTook.healthy hTook.fewer, h.noCross⟩
  by_cases hZero : rel = 0
  · rw [if_pos hZero]
    refine ⟨none, _, c, rfl, h₁, fun x hx => hx, fun _ => rfl, nofun⟩
  rw [if_neg hZero]
  obtain ⟨code, f₂, c₂, hEq, hd, hNo, -⟩ := h₁.insert
    ⟨iblock, f.dataStart + rel, n, 0⟩ hn hTop
    (fun e he hOver => by
      have hSide := hApart e he
      have hLo : e.offset < iblock + n := hOver.1
      have hHi : iblock < e.stop := hOver.2
      omega) hSeps
  rw [hEq]
  cases code with
  | none => exact ⟨_, f₂, c₂, rfl, mapDone_of_insert hd hNo rfl⟩
  | some err =>
    have hExts : c₂.exts = c.exts := hd.same (by simp)
    have hHolds := hd.giveBack rel n
      (healthy_freeEach hd.holds.sound hZero n)
      (fun i hLo hHi _ => (hTook.run hZero i hLo hHi).2)
      (fun i hLo hHi hIn => by
        obtain ⟨j, -, hEqj, hUsed⟩ := h.holds.owned _ hIn
        have hSame : i = j := by
          have hEqj' : f.dataStart + i = f.dataStart + j := hEqj
          omega
        rw [← hSame, (hTook.run hZero i hLo hHi).1] at hUsed
        cases hUsed)
      (fun i hi => isFree_freeEach _ _ _ i hi)
    refine ⟨none, _, c₂, rfl, ⟨hHolds, hNo⟩, fun x hx => ?_, fun _ => hExts, nofun⟩
    rw [hExts]
    exact hx

/-- What a call leaves: written cells stay, and the mapping covers written cells, but for
the blocks of an unwritten extent that the write does not touch. -/
structure BeginDone (c : Content) (pos length : Nat) (r : Except Errno Iomap) (f' : File)
    (c' : Content) : Prop where
  tidy  : Tidy f' c'
  kept  : ∀ x ∈ cells c.exts, x.2.2.testBit 0 = false → x ∈ cells c'.exts
  lands : ∀ m, r = .ok m → ∀ b, m.covers b → m.unwritten = false ∨ Touches pos length b →
    b < fileTop ∧ Lands f' m b

theorem allocOne_spec (h : Tidy f c) (hTop : iblock + 1 < fileTop)
    (hFree : ∀ e ∈ c.exts, ¬ e.covers iblock) (pos length : Nat) :
    ∃ r f' c', allocOne f iblock = some (r, f') ∧ BeginDone c pos length r f' c' := by
  have hHealthy := h.holds.sound.allocBlock
  have hTook := Alloc.allocBlock_spec f.alloc
  unfold allocOne
  rcases hAlloc : f.alloc.allocBlock with ⟨rel, a⟩
  rw [hAlloc] at hTook hHealthy
  dsimp only
  have h₁ : Tidy { f with alloc := a } c :=
    ⟨h.holds.take hHealthy fun i hi => isFree_of_took hTook hi, h.noCross⟩
  by_cases hZero : rel = 0
  · rw [if_pos hZero]
    exact ⟨_, _, c, rfl, h₁, fun x hx _ => hx, nofun⟩
  rw [if_neg hZero]
  obtain ⟨code, f₂, c₂, hEq, hd, hNo, hNoClash⟩ := h₁.insert
    ⟨iblock, f.dataStart + rel, 1, 0⟩ (Nat.lt_succ_self 0) hTop
    (fun e he hOver => by
      have hLo : e.offset < iblock + 1 := hOver.1
      have hHi : iblock < e.stop := hOver.2
      exact hFree e he ⟨by omega, hHi⟩)
    (fun k _ hCross => by
      have hLo : iblock < k := hCross.1
      have hHi : k < iblock + 1 := hCross.2
      omega)
  rw [hEq]
  cases code with
  | none =>
    have hMap := mapDone_of_insert hd hNo rfl
    refine ⟨_, f₂, c₂, rfl, hMap.tidy, fun x hx _ => hMap.kept x hx, ?_⟩
    intro m hm b hCov _
    cases hm
    exact hMap.lands _ rfl b hCov
  | some err =>
    have hExts : c₂.exts = c.exts := hd.same (by simp)
    have hHolds : Holds { f₂ with alloc := f₂.alloc.freeBlock rel } c₂ := by
      refine hd.giveBack rel 1 (hd.holds.sound.freeBlock hZero) ?_ ?_ ?_
      · intro i hLo hHi hi
        have hSame : i = rel := by omega
        show a.isFree i = false
        rw [hTook.frame i hi, hSame, decide_eq_false (by simp), Bool.and_false]
      · intro i hLo hHi hIn
        have hSame : i = rel := by omega
        obtain ⟨j, -, hEqj, hUsed⟩ := h.holds.owned _ hIn
        have hSame' : j = rel := by
          have hEqj' : f.dataStart + i = f.dataStart + j := hEqj
          omega
        rw [hSame', hTook.wasFree hZero] at hUsed
        cases hUsed
      · intro i hi
        rw [Alloc.isFree_freeBlock, Bool.or_eq_true, decide_eq_true_eq] at hi
        exact hi.imp_right fun hIn => by omega
    have hDone : ∀ e : Errno, BeginDone c pos length (.error e)
        { f₂ with alloc := f₂.alloc.freeBlock rel } c₂ := by
      intro e
      refine ⟨⟨hHolds, hNo⟩, fun x hx _ => ?_, nofun⟩
      rw [hExts]
      exact hx
    cases err with
    | eexist => exact absurd rfl hNoClash
    | enoent => exact ⟨_, _, c₂, rfl, hDone .enoent⟩
    | eio => exact ⟨_, _, c₂, rfl, hDone .eio⟩
    | enomem => exact ⟨_, _, c₂, rfl, hDone .enomem⟩
    | einval => exact ⟨_, _, c₂, rfl, hDone .einval⟩
    | enospc => exact ⟨_, _, c₂, rfl, hDone .enospc⟩

theorem find_offset_none {l : List Extent} {b : Nat}
    (h : l.find? (fun e => decide (b < e.offset)) = none) : ∀ e ∈ l, e.offset ≤ b := by
  intro e he
  rw [List.find?_eq_none] at h
  have hNot := h e he
  simp only [decide_eq_true_eq] at hNot
  omega

/-- The run stays below the next extent. -/
theorem runLength_spec (h : Tidy f c) (hTop : iblock < fileTop)
    (hFree : ∀ e ∈ c.exts, ¬ e.covers iblock) (length : Nat) :
    ∃ n, runLength f iblock length = some n ∧ 1 ≤ n ∧ n ≤ length / blockSize + 1 ∧
      ∀ e ∈ c.exts, e.stop ≤ iblock ∨ iblock + n ≤ e.offset := by
  have hBefore : ∀ e ∈ c.exts, e.offset ≤ iblock → e.stop ≤ iblock := by
    intro e he hOff
    by_contra hStop
    exact hFree e he ⟨hOff, by omega⟩
  have hNext := h.holds.nextExtent_eq hTop
  unfold runLength
  dsimp only
  generalize length / blockSize = full
  generalize hWant : (if full = 0 then 1 else min full delallocRunMax) = n
  have hSmall : 1 ≤ n ∧ n ≤ full + 1 := by
    subst hWant
    unfold delallocRunMax
    split_ifs <;> omega
  by_cases hMany : 1 < n
  · rw [if_pos hMany, hNext]
    cases hFound : c.exts.find? (fun e => decide (iblock < e.offset)) with
    | none =>
      refine ⟨n, rfl, hSmall.1, hSmall.2, fun e he => Or.inl (hBefore e he ?_)⟩
      exact find_offset_none hFound e he
    | some x =>
      have hAfter : iblock < x.offset := by simpa using List.find?_some hFound
      have hLeast := ((answer_least (b := iblock) (h.holds.ordered h.noCross) h.holds.pos).1 x).mp
        (by rw [hFound]; rfl)
      show ∃ k, some (if iblock < x.offset then min n (x.offset - iblock) else n) = some k ∧ _
      rw [if_pos hAfter]
      refine ⟨_, rfl, by omega, by omega, fun e he => ?_⟩
      by_cases hOff : e.offset ≤ iblock
      · exact Or.inl (hBefore e he hOff)
      · have hBound := hLeast.2.2 e he (by omega)
        exact Or.inr (by omega)
  · rw [if_neg hMany]
    refine ⟨n, rfl, hSmall.1, hSmall.2, fun e he => ?_⟩
    by_cases hOff : e.offset ≤ iblock
    · exact Or.inl (hBefore e he hOff)
    · exact Or.inr (by omega)

/-- The run at the block has no separator strictly inside. -/
def RunClear (f : File) (iblock length : Nat) : Prop :=
  ∀ n, runLength f iblock length = some n → ∀ k ∈ f.content.seps, ¬ (iblock < k ∧ k < iblock + n)

theorem doAlloc_spec (h : Tidy f c) {length : Nat} (hTop : iblock + length / blockSize + 1 < fileTop)
    (hFree : ∀ e ∈ c.exts, ¬ e.covers iblock) (hRun : RunClear f iblock length) (pos : Nat) :
    ∃ r f' c', doAlloc f iblock length = some (r, f') ∧ BeginDone c pos length r f' c' := by
  have hBlock : iblock < fileTop := Nat.lt_of_le_of_lt (by
    rw [Nat.add_assoc]
    exact Nat.le_add_right _ _) hTop
  obtain ⟨n, hLength, hOne, hMost, hApart⟩ := runLength_spec h hBlock hFree length
  have hSeps := hRun n hLength
  rw [h.holds.content] at hSeps
  obtain ⟨m, f₁, c₁, hEq, hd⟩ := allocRun_spec h hOne (by omega) hApart hSeps
  unfold doAlloc
  rw [hLength]
  dsimp only
  rw [hEq]
  cases m with
  | some m =>
    refine ⟨_, f₁, c₁, rfl, hd.tidy, fun x hx _ => hd.kept x hx, ?_⟩
    intro x hx b hCov _
    cases hx
    exact hd.lands m rfl b hCov
  | none =>
    have hExts := hd.same rfl
    obtain ⟨r, f₂, c₂, hEq₂, hDone⟩ := allocOne_spec hd.tidy (show iblock + 1 < fileTop by omega)
      (by rw [hExts]; exact hFree) pos length
    refine ⟨r, f₂, c₂, hEq₂, hDone.tidy, ?_, hDone.lands⟩
    rw [← hExts]
    exact hDone.kept

/-- The conditions of a call: the index is in order, the tail cache is unknown or right,
the blocks that may be allocated have no separator inside, and the range is one of a file. -/
structure Ready (f : File) (pos length : Nat) : Prop where
  good  : Good f
  tail  : TailOk f.maxEnd f.content.exts
  clear : RunClear f (pos / blockSize) length
  some  : 0 < length
  range : pos + length < 2 ^ 63

theorem Ready.tidy {pos length : Nat} (h : Ready f pos length) : Tidy f f.content :=
  ⟨h.good.holds, h.good.noCross⟩

theorem touches_bounds {pos length b : Nat} (h : Touches pos length b) :
    pos / blockSize ≤ b ∧ b < endBlock pos length := by
  unfold Touches at h
  unfold endBlock
  unfold blockSize at h ⊢
  omega

/-- The mapping of a written extent. -/
theorem beginDone_of_written {pos length : Nat} (h : Tidy f c) {ext : Extent} (he : ext ∈ c.exts)
    (hWritten : ext.unwritten = false) : BeginDone c pos length (.ok (fillMapped ext false)) f c := by
  refine ⟨h, fun x hx _ => hx, ?_⟩
  intro m hm b hCov _
  cases hm
  have hIn := fillMapped_covers.mp hCov
  exact h.lands hIn ext.flags (mem_cells.mpr ⟨ext, he, hIn, rfl, rfl⟩) hWritten

theorem testBit_clearUnwritten (flags : Nat) : (clearUnwritten flags).testBit 0 = false := by
  unfold clearUnwritten
  rw [Nat.testBit_zero]
  simp

theorem lockedCreate_spec {pos length : Nat} (h : Ready f pos length) :
    ∃ r f' c', lockedCreate f pos length = some (r, f') ∧
      BeginDone f.content pos length r f' c' := by
  have hTidy := h.tidy
  have hRange := h.range
  have hTop : pos / blockSize + length / blockSize + 1 < fileTop := by
    unfold fileTop blockSize
    omega
  have hBlock : pos / blockSize < fileTop := by
    unfold fileTop blockSize
    omega
  unfold lockedCreate
  dsimp only
  by_cases hPast : f.pastTail (pos / blockSize)
  · rw [if_pos hPast]
    refine doAlloc_spec hTidy hTop ?_ h.clear pos
    rintro e he ⟨-, hHi⟩
    have hStop := h.tail.resolve_left hPast.1 e he
    have hLe := hPast.2
    omega
  rw [if_neg hPast]
  by_cases hSome : ∃ e ∈ f.content.exts, e.covers (pos / blockSize)
  · obtain ⟨ext, he, hCov⟩ := hSome
    rw [(hTidy.lookup_iff hBlock ext).mpr ⟨he, hCov⟩]
    dsimp only
    by_cases hUn : ext.unwritten = true
    · rw [if_pos hUn]
      have hEmpty : pos / blockSize < min (endBlock pos length) ext.stop := by
        have hLen := h.some
        have hHi := hCov.2
        have hEnd : pos / blockSize < endBlock pos length := by
          unfold endBlock blockSize
          omega
        omega
      obtain ⟨code, f', c', hEq, hd⟩ := convertUnwrittenRange_spec h.good.holds h.good.owns hEmpty
        hBlock ten_le_levels
      rw [hEq]
      have hTidy' : Tidy f' c' := ⟨hd.holds, hd.tidy h.good.noCross⟩
      refine ⟨_, f', c', rfl, hTidy', hd.kept, ?_⟩
      intro m hm b hCovB hWhich
      cases hm
      have hIn := fillMapped_covers.mp hCovB
      rcases hWhich with hNot | hTouch
      · rw [show (fillMapped ext false).unwritten = ext.unwritten from rfl, hUn] at hNot
        cases hNot
      · obtain ⟨hLo, hHi⟩ := touches_bounds hTouch
        have hEnd := hIn.2
        refine hTidy'.lands hIn _ (hd.wrote h.good.noCross ext he hCov hUn b hLo ?_ hEnd)
          (testBit_clearUnwritten ext.flags)
        omega
    · rw [if_neg hUn]
      exact ⟨_, f, f.content, rfl, beginDone_of_written hTidy he (by simpa using hUn)⟩
  · rw [hTidy.lookup_none hBlock fun e he hCov => hSome ⟨e, he, hCov⟩]
    exact doAlloc_spec hTidy hTop (fun e he hCov => hSome ⟨e, he, hCov⟩) h.clear pos

/-- `briefs_iomap_begin_common` on an index in order. -/
theorem begin_lands {pos length : Nat} (h : Ready f pos length) :
    ∃ r f' c', beginWrite f pos length = some (r, f') ∧ BeginDone f.content pos length r f' c' := by
  have hTidy := h.tidy
  have hRange := h.range
  have hBlock : pos / blockSize < fileTop := by
    unfold fileTop blockSize
    omega
  unfold beginWrite
  dsimp only
  by_cases hPast : f.pastTail (pos / blockSize)
  · rw [if_pos hPast]
    exact lockedCreate_spec h
  rw [if_neg hPast]
  by_cases hSome : ∃ e ∈ f.content.exts, e.covers (pos / blockSize)
  · obtain ⟨ext, he, hCov⟩ := hSome
    rw [(hTidy.lookup_iff hBlock ext).mpr ⟨he, hCov⟩]
    dsimp only
    by_cases hUn : ext.unwritten = true
    · rw [if_pos hUn]
      exact lockedCreate_spec h
    · rw [if_neg hUn]
      exact ⟨_, f, f.content, rfl, beginDone_of_written hTidy he (by simpa using hUn)⟩
  · rw [hTidy.lookup_none hBlock fun e he hCov => hSome ⟨e, he, hCov⟩]
    exact lockedCreate_spec h

end Begin

--
-- Writeback
--

/-- The inode and the mapping in the context of a writeback pass. -/
structure Writing where
  file   : File
  cached : Option Iomap

/-- What happens to the inode: a buffered write asks for a mapping, writeback asks for one
of a dirty block, or another operation changes the extents. -/
inductive Event where
  | write (pos length : Nat)
  | writeback (b : Nat)
  | other (g : File)

/-- The blocks that are written through the mapping of an event. -/
def Event.sends : Event → Nat → Prop
  | .write pos length, b => Touches pos length b
  | .writeback b', b => b = b'
  | .other _, _ => False

/-- One event: the mapping that it yields, and the state after it. Writeback is
`briefs_writeback_map_blocks`: the cached mapping is used while it covers the block. -/
def Writing.step (w : Writing) : Event → Option (Except Errno (Option Iomap) × Writing)
  | .write pos length =>
    match beginWrite w.file pos length with
    | none => none
    | some (.error e, f) => some (.error e, { w with file := f })
    | some (.ok m, f) => some (.ok (some m), { w with file := f })
  | .writeback b =>
    if w.cached.any fun m => decide (m.covers b) then some (.ok w.cached, w)
    else match beginWrite w.file (b * blockSize) blockSize with
      | none => none
      | some (.error e, f) => some (.error e, { w with file := f })
      | some (.ok m, f) => some (.ok (some m), ⟨f, some m⟩)
  | .other g => some (.ok none, { w with file := g })

/-- The step keeps off the defects: a call finds the index in order; the cached mapping is
not reused if it is that of an unwritten extent; and no other operation takes a written
block from under it. -/
def Writing.Meets (w : Writing) : Event → Prop
  | .write pos length => Ready w.file pos length
  | .writeback b => (∀ m, w.cached = some m → m.covers b → m.unwritten = false) ∧
      ((∀ m, w.cached = some m → ¬ m.covers b) → Ready w.file (b * blockSize) blockSize)
  | .other g => ∀ m, w.cached = some m → ∀ b, m.covers b → Lands w.file m b → Lands g m b

/-- The states of a run whose steps all keep off the defects. -/
inductive Writing.Runs (w : Writing) : Writing → Prop
  | refl : Runs w w
  | step {w₁ w₂ : Writing} {ev : Event} {r : Except Errno (Option Iomap)} :
      Runs w w₁ → w₁.Meets ev → w₁.step ev = some (r, w₂) → Runs w w₂

/-- The whole cached mapping can be trusted, unless it is that of an unwritten extent. -/
def Writing.Trusted (w : Writing) : Prop :=
  ∀ m, w.cached = some m → m.unwritten = false → ∀ b, m.covers b → b < fileTop ∧ Lands w.file m b

section Writing

variable {w w' : Writing} {ev : Event}

/-- A block that has landed stays where it is. -/
theorem BeginDone.keeps {f f' : File} {c c' : Content} {pos length : Nat} {r : Except Errno Iomap}
    (h : BeginDone c pos length r f' c') (hTidy : Tidy f c) {m : Iomap} {b : Nat}
    (hTop : b < fileTop) (hLands : Lands f m b) : Lands f' m b := by
  obtain ⟨e, hLook, hWritten, hPlace⟩ := hLands
  obtain ⟨he, hCov⟩ := (hTidy.lookup_iff hTop e).mp hLook
  have hCell := h.kept _ (mem_cells.mpr ⟨e, he, hCov, rfl, rfl⟩) hWritten
  obtain ⟨x, hx, hxCov, hPhys, hFlags⟩ := mem_cells.mp hCell
  refine ⟨x, (h.tidy.lookup_iff hTop x).mpr ⟨hx, hxCov⟩, ?_, ?_⟩
  · show x.flags.testBit 0 = false
    rw [hFlags]
    exact hWritten
  · rw [hPhys]
    exact hPlace

theorem Writing.Trusted.begin (h : w.Trusted) {pos length : Nat} (hReady : Ready w.file pos length)
    {r : Except Errno Iomap} {f' : File} {c' : Content}
    (hDone : BeginDone w.file.content pos length r f' c') :
    Writing.Trusted { w with file := f' } := by
  intro m hm hWritten b hCov
  obtain ⟨hTop, hLands⟩ := h m hm hWritten b hCov
  exact ⟨hTop, hDone.keeps hReady.tidy hTop hLands⟩

/-- One step: it goes through, what is sent lands, and the cached mapping stays good. -/
theorem Writing.Trusted.step (h : w.Trusted) (hMeets : w.Meets ev) :
    ∃ r w', w.step ev = some (r, w') ∧ w'.Trusted ∧
      ∀ m, r = .ok (some m) → ∀ b, ev.sends b → m.covers b → Lands w'.file m b := by
  cases ev with
  | write pos length =>
    obtain ⟨r, f', c', hEq, hDone⟩ := begin_lands hMeets
    have hTrusted := h.begin hMeets hDone
    unfold Writing.step
    dsimp only
    rw [hEq]
    cases r with
    | error e => exact ⟨_, _, rfl, hTrusted, nofun⟩
    | ok m =>
      refine ⟨_, _, rfl, hTrusted, ?_⟩
      intro x hx b hSends hCov
      cases hx
      exact (hDone.lands m rfl b hCov (Or.inr hSends)).2
  | writeback b =>
    obtain ⟨hReuse, hMiss⟩ := hMeets
    unfold Writing.step
    dsimp only
    by_cases hHit : ∃ m, w.cached = some m ∧ m.covers b
    · obtain ⟨m, hm, hCov⟩ := hHit
      have hAny : (w.cached.any fun m => decide (m.covers b)) = true := by
        rw [hm]
        exact decide_eq_true hCov
      rw [if_pos hAny]
      refine ⟨_, w, rfl, h, ?_⟩
      intro x hx b' hSends _
      have hSame : x = m := by
        rw [hm] at hx
        cases hx
        rfl
      obtain rfl : b' = b := hSends
      rw [hSame]
      exact (h m hm (hReuse m hm hCov) b' hCov).2
    · have hNone : ∀ m, w.cached = some m → ¬ m.covers b := fun m hm hCov => hHit ⟨m, hm, hCov⟩
      have hAny : ¬ (w.cached.any fun m => decide (m.covers b)) = true := by
        rw [Option.any_eq_true]
        rintro ⟨m, hm, hCov⟩
        exact hNone m hm (of_decide_eq_true hCov)
      have hReady := hMiss hNone
      obtain ⟨r, f', c', hEq, hDone⟩ := begin_lands hReady
      rw [if_neg hAny, hEq]
      cases r with
      | error e => exact ⟨_, _, rfl, h.begin hReady hDone, nofun⟩
      | ok m =>
        refine ⟨_, _, rfl, ?_, ?_⟩
        · intro x hx hWritten b' hCov
          cases hx
          exact hDone.lands m rfl b' hCov (Or.inl hWritten)
        · intro x hx b' hSends hCov
          cases hx
          obtain rfl : b' = b := hSends
          have hTouch : Touches (b' * blockSize) blockSize b' := by
            unfold Touches blockSize
            omega
          exact (hDone.lands m rfl b' hCov (Or.inr hTouch)).2
  | other g =>
    refine ⟨_, _, rfl, ?_, nofun⟩
    intro m hm hWritten b hCov
    obtain ⟨hTop, hLands⟩ := h m hm hWritten b hCov
    exact ⟨hTop, hMeets m hm b hCov hLands⟩

theorem Writing.Runs.trusted (hRun : w.Runs w') (h : w.Trusted) : w'.Trusted := by
  induction hRun with
  | refl => exact h
  | step _ hMeets hEq ih =>
    obtain ⟨r, w₂, hEq', hTrusted, -⟩ := ih.step hMeets
    rw [hEq] at hEq'
    obtain ⟨-, rfl⟩ := Prod.mk.inj (Option.some.inj hEq')
    exact hTrusted

/-- In every run of buffered writes, writeback and other operations whose steps keep off the
defects, every step goes through, and every block that is written through its mapping lands
on a block that the index maps, written, at the place the mapping gives. -/
theorem writes_land (hRun : w.Runs w') (hFresh : w.cached = none) (hMeets : w'.Meets ev) :
    ∃ r w'', w'.step ev = some (r, w'') ∧
      ∀ m, r = .ok (some m) → ∀ b, ev.sends b → m.covers b → Lands w''.file m b := by
  have hTrusted : w.Trusted := by
    intro m hm
    rw [hFresh] at hm
    cases hm
  obtain ⟨r, w'', hEq, -, hLands⟩ := (hRun.trusted hTrusted).step hMeets
  exact ⟨r, w'', hEq, hLands⟩

end Writing

/-- A file with two unwritten blocks, as `briefs_fallocate` leaves it. -/
def fallocated : File := newFile.after (.insert ⟨0, 1150, 2, 1⟩)

theorem fallocated_good : Good fallocated := by
  have hAllowed : Allowed newFile (.insert ⟨0, 1150, 2, 1⟩) := by
    have hSpare : ∀ x ∈ (⟨0, 1150, 2, 1⟩ : Extent).cells, newFile.spare x.2.1 = true := by
      decide +kernel
    exact ⟨by decide, by decide, newFile_isEmpty.good.owns.spare hSpare (by decide)⟩
  have hAvoids : Avoids newFile (.insert ⟨0, 1150, 2, 1⟩) := by
    rintro k (hk | hk)
    · rw [newFile_isEmpty.content] at hk
      cases hk
    · exact absurd hk.1 (by decide)
  obtain ⟨code, -, hGood⟩ := newFile_isEmpty.good.after _ hAllowed hAvoids
  exact hGood

/-- The file after a write into both blocks. -/
def writtenFile : File := fallocated.after (.convert 0 2)

theorem writtenFile_good : Good writtenFile := by
  obtain ⟨code, -, hGood⟩ :=
    fallocated_good.after (.convert 0 2) ⟨by decide, by decide⟩ trivial
  exact hGood

/-- An inode without a tree has no separators. -/
theorem runClear_of_inline {f : File} (h : f.indexed = false) (iblock length : Nat) :
    RunClear f iblock length := by
  intro n _ k hk
  unfold File.content at hk
  rw [h] at hk
  cases hk

/-- A write into two fallocated blocks converts them, and the writeback of the second one reuses the
mapping that the writeback of the first one cached. -/
theorem writes_land_in_fallocated :
    ∃ m r w, Writing.Runs ⟨fallocated, none⟩ ⟨writtenFile, some m⟩ ∧ m.covers 1 ∧
      Writing.step ⟨writtenFile, some m⟩ (.writeback 1) = some (r, w) ∧
      ∀ x, r = .ok (some x) → ∀ b, (Event.writeback 1).sends b → x.covers b →
        Lands w.file x b := by
  have hWrite : Writing.Meets ⟨fallocated, none⟩ (.write 0 8192) :=
    ⟨fallocated_good, .inr (by decide), runClear_of_inline rfl _ _, by decide, by decide⟩
  have hFirst : Writing.Meets ⟨writtenFile, none⟩ (.writeback 0) :=
    ⟨nofun, fun _ => ⟨writtenFile_good, .inr (by decide), runClear_of_inline rfl _ _,
      by decide, by decide⟩⟩
  have hRun : Writing.Runs ⟨fallocated, none⟩
      ⟨writtenFile, some ⟨0, 8192, 1150 * 4096, false, false⟩⟩ :=
    .step (.step .refl hWrite rfl) hFirst rfl
  have hSecond : Writing.Meets ⟨writtenFile, some ⟨0, 8192, 1150 * 4096, false, false⟩⟩
      (.writeback 1) := by
    refine ⟨?_, fun hMiss => absurd (by decide) (hMiss _ rfl)⟩
    intro m hm _
    cases hm
    rfl
  obtain ⟨r, w, hStep, hLands⟩ := writes_land hRun rfl hSecond
  exact ⟨_, r, w, hRun, by decide, hStep, hLands⟩
/-- Writeback of both blocks: the first call converts block 0 alone and caches the mapping
of both, and the second call sends block 1 to a block that stays unwritten. -/
theorem cached_mapping_skips_conversion :
    ∃ m w₁ w₂, Writing.step ⟨fallocated, none⟩ (.writeback 0) = some (.ok (some m), w₁) ∧
      w₁.step (.writeback 1) = some (.ok (some m), w₂) ∧ m.covers 1 ∧ ¬ Lands w₂.file m 1 := by
  refine ⟨_, _, _, rfl, rfl, by decide, ?_⟩
  rintro ⟨e, hLook, hWritten, -⟩
  cases hLook
  cases hWritten

end Briefs.Btree
