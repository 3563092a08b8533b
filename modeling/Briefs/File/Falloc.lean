import Briefs.File.Setattr
import Briefs.File.Zero

/-!
# BrieFS — plain preallocation

`briefs_fallocate` with mode 0 or `FALLOC_FL_KEEP_SIZE` (`file.c`). It fills the holes of the
range with unwritten extents: for each hole it asks for one run and halves the request until
a run fits, and where the insertion finds the range mapped meanwhile (`-EEXIST`) it gives the
run back and goes block by block.

The call holds `inode_lock` but takes `extent_lock` only for the insertions, so page faults
and write-back map blocks of the file in between, and other files allocate and free. All of
that is `FallocEnv.others`, an arbitrary change at each moment the lock is not held. The
bytes, the times and the metadata reserve are left out.

A block is mapped when the enumeration of the extents has it, as in `Briefs.Btree.Effect`.

## Results

* `fallocate_fills` — a call that returns 0 has mapped every block of the range, kept what was
  mapped, and set the size.
* `fallocate_promotes_written` — an inline file gets a block that is not unwritten.
-/

namespace Briefs.File

open Briefs.Journal
open Briefs.Btree

--
-- The code
--

/-- The error numbers of the call; `code` are those of the functions below it. -/
inductive FallocError where
  | code (e : Errno)
  | eintr
  | efbig
deriving DecidableEq, Repr

/-- What a call meets. The functions of a number are asked at the moments of the call, which are
counted. `others k held` is what other tasks, and the write-back of the range, have done to the
extents and the allocator at moment `k`, while the call has allocated the blocks `held` and not
yet mapped them. -/
structure FallocEnv where
  maxBytes    : Nat                  -- `s_maxbytes`
  removePrivs : Option FallocError   -- `file_remove_privs`
  newsizeOk   : Option FallocError   -- `inode_newsize_ok`
  writeback   : Option FallocError   -- `filemap_write_and_wait_range`
  signal      : Nat → Bool           -- `fatal_signal_pending`
  blind       : Nat → Bool           -- a search that cannot read the tree
  unreadable  : Nat → Bool           -- an insertion that cannot
  others      : Nat → List Nat → Btree.File → Btree.File
  inode       : SetattrEnv           -- the promotion and the write of the inode

/-- The state of the loops: the moment, the extents, `added_unwritten` and `ret`. -/
structure Turn where
  clock : Nat
  file  : Btree.File
  added : Nat
  ret   : Option FallocError

/-- The blocks of a run. -/
def runOf (rel n : Nat) : List Nat := (List.range n).map (rel + ·)

/-- A run that was allocated is inserted as an unwritten extent. -/
def insertRun (env : FallocEnv) (k : Nat) (f : Btree.File) (iblock rel n : Nat) :
    Option (Option Errno × Btree.File) :=
  let f := env.others k (runOf rel n) f
  if env.unreadable k = true then some (some .eio, f)
  else insertLocked levels f ⟨iblock, f.dataStart + rel, n, 1⟩

/-- `briefs_falloc_one`. -/
def fallocOne (env : FallocEnv) (k : Nat) (f : Btree.File) (iblock : Nat) :
    Option (Option Errno × Btree.File) :=
  match f.alloc.allocBlock with
  | (rel, a) =>
    if rel = 0 then some (some .enospc, { f with alloc := a })
    else
      match insertRun env k { f with alloc := a } iblock rel 1 with
      | none => none
      | some (none, f) => some (none, f)
      | some (some e, f) => some (some e, { f with alloc := f.alloc.freeBlock rel })

/-- The loop of `briefs_falloc_retry_blockwise` with `n` blocks to go. -/
def retryEach (env : FallocEnv) : Nat → Nat → Turn → Option Turn
  | 0, _, t => some t
  | n + 1, iblock, t =>
    if env.signal t.clock = true then some { t with ret := some .eintr }
    else
      match fallocOne env (t.clock + 1) (env.others t.clock [] t.file) iblock with
      | none => none
      | some (none, f) => retryEach env n (iblock + 1) ⟨t.clock + 2, f, t.added + 1, t.ret⟩
      | some (some .eexist, f) => retryEach env n (iblock + 1) ⟨t.clock + 2, f, t.added, t.ret⟩
      | some (some e, f) => some ⟨t.clock + 2, f, t.added, some (.code e)⟩

/-- `briefs_falloc_retry_blockwise`. -/
def retryBlockwise (env : FallocEnv) (rel want ibase k : Nat) (f : Btree.File) : Option Turn :=
  retryEach env want ibase ⟨k, { f with alloc := freeEach f.alloc rel want }, 0, none⟩

/-- A run with its first block and length; block 0 means that there is none. -/
structure Found where
  rel   : Nat
  want  : Nat
  clock : Nat
  file  : Btree.File

/-- The loop that halves the request until a run fits. -/
def allocShrinking (env : FallocEnv) : Nat → Nat → Nat → Btree.File → Found
  | 0, want, k, f => ⟨0, want, k, f⟩
  | fuel + 1, want, k, f =>
    let f := env.others k [] f
    match f.alloc.allocBlocks want with
    | (rel, a) =>
      if rel ≠ 0 ∨ want = 1 then ⟨rel, want, k + 1, { f with alloc := a }⟩
      else allocShrinking env fuel (want / 2) (k + 1) { f with alloc := a }

/-- The loop that fills a hole, with `left` blocks to go from `b` on. Every turn maps a block at
least, and so does not need more turns than blocks. -/
def fillHole (env : FallocEnv) : Nat → Nat → Nat → Turn → Option Turn
  | 0, _, left, t => if left = 0 then some t else none
  | fuel + 1, b, left, t =>
    if left = 0 then some t
    else if env.signal t.clock = true then some { t with ret := some .eintr }
    else
      let q := allocShrinking env left left t.clock t.file
      if q.rel = 0 then some ⟨q.clock, q.file, t.added, some (.code .enospc)⟩
      else
        match insertRun env q.clock q.file b q.rel q.want with
        | none => none
        | some (none, f) =>
          fillHole env fuel (b + q.want) (left - q.want)
            ⟨q.clock + 1, f, t.added + q.want, t.ret⟩
        | some (some .eexist, f) =>
          match retryBlockwise env q.rel q.want b (q.clock + 1) f with
          | none => none
          | some r =>
            if r.ret = none then
              fillHole env fuel (b + q.want) (left - q.want)
                ⟨r.clock, r.file, t.added + r.added, none⟩
            else some { r with added := t.added }
        | some (some e, f) =>
          some ⟨q.clock + 1, { f with alloc := freeEach f.alloc q.rel q.want }, t.added,
            some (.code e)⟩

/-- `briefs_block_mapped`: any error of the search counts as not mapped. -/
def blockMapped (env : FallocEnv) (k : Nat) (f : Btree.File) (iblock : Nat) : Option Bool :=
  if env.blind k = true then some false
  else
    match lookupIblock f iblock with
    | none => none
    | some (.ok _) => some true
    | some (.error _) => some false

/-- `hole_end`. -/
def holeEnd (env : FallocEnv) (k : Nat) (f : Btree.File) (blk endBlk : Nat) : Option Nat :=
  if env.blind k = true then some endBlk
  else
    match nextExtent f blk with
    | none => none
    | some (.ok ext) => some (min ext.offset endBlk)
    | some (.error _) => some endBlk

/-- The loop over the range. -/
def fallocLoop (env : FallocEnv) (endBlk : Nat) : Nat → Nat → Turn → Option Turn
  | 0, blk, t => if endBlk ≤ blk then some t else none
  | fuel + 1, blk, t =>
    if endBlk ≤ blk then some t
    else if env.signal t.clock = true then some { t with ret := some .eintr }
    else
      let f := env.others t.clock [] t.file
      match blockMapped env t.clock f blk with
      | none => none
      | some true => fallocLoop env endBlk fuel (blk + 1) ⟨t.clock + 1, f, t.added, t.ret⟩
      | some false =>
        let f := env.others (t.clock + 1) [] f
        match holeEnd env (t.clock + 1) f blk endBlk with
        | none => none
        | some hole =>
          match fillHole env (hole - blk) blk (hole - blk) ⟨t.clock + 2, f, t.added, t.ret⟩ with
          | none => none
          | some t => if t.ret = none then fallocLoop env endBlk fuel hole t else some t

/-- What a call leaves. -/
structure FallocDone where
  ret   : Option FallocError
  inode : Inode

/-- `i_size` after the call. -/
def fallocSize (keepSize : Bool) (size stop : Nat) : Nat :=
  if keepSize = false ∧ size < stop then stop else size

/-- `out_unlock` with `ret` 0; `changed` has dirtied the inode. -/
def fallocSync (env : FallocEnv) (changed : Bool) (i : Inode) : FallocDone :=
  ⟨(inodeSync env.inode (changed || env.inode.dirty) i i.size).ret.map .code, i⟩

/-- The part of `briefs_fallocate` from the write-back of the range on; `promoted` says that the
data was inline. The size is set on every way out of the loop. -/
def fallocRange (env : FallocEnv) (keepSize promoted : Bool) (i : Inode) (offset stop : Nat) :
    Option FallocDone :=
  let f := env.others 0 [] i.file
  match env.writeback with
  | some e => some ⟨some e, { i with file := f }⟩
  | none =>
    let endBlk := (stop + blockSize - 1) / blockSize
    match fallocLoop env endBlk endBlk (offset / blockSize) ⟨1, f, 0, none⟩ with
    | none => none
    | some t =>
      let i' : Inode := { i with file := t.file, size := fallocSize keepSize i.size stop }
      match t.ret with
      | some e => some ⟨some e, i'⟩
      | none => some (fallocSync env
          (promoted || decide (t.added ≠ 0) || decide (keepSize = false ∧ i.size < stop)) i')

/-- `briefs_fallocate` with mode 0 or `FALLOC_FL_KEEP_SIZE`. -/
def fallocate (env : FallocEnv) (keepSize : Bool) (i : Inode) (offset len : Nat) :
    Option FallocDone :=
  let stop := offset + len
  if len = 0 then some ⟨some (.code .einval), i⟩
  else if env.maxBytes < stop then some ⟨some .efbig, i⟩
  else
    match env.removePrivs with
    | some e => some ⟨some e, i⟩
    | none =>
      match if keepSize = false ∧ i.size < stop then env.newsizeOk else none with
      | some e => some ⟨some e, i⟩
      | none =>
        if i.inlineData = true ∧ stop ≤ inlineDataSize then
          some (fallocSync env (decide (keepSize = false ∧ i.size < stop))
            { i with size := fallocSize keepSize i.size stop })
        else
          match i.promoteOn env.inode with
          | (some e, i) => some ⟨some (.code e), i⟩
          | (none, i') => fallocRange env keepSize i.inlineData i' offset stop

--
-- Other tasks
--

/-- Blocks that are allocated and not part of the tree. -/
def Spare (f : Btree.File) (c : Content) (held : List Nat) : Prop :=
  ∀ i ∈ held, f.alloc.isFree i = false ∧ f.dataStart + i ∉ c.blocks

/-- Other tasks leave a sound index and the blocks alone that the call has. A mapped block keeps
its physical block, and at most becomes written. -/
def FallocEnv.Fair (env : FallocEnv) : Prop :=
  ∀ k held f c, Holds f c → Spare f c held →
    ∃ c', Holds (env.others k held f) c' ∧ Spare (env.others k held f) c' held ∧
      ∀ b p fl, (b, p, fl) ∈ cells c.exts → (b, p, fl) ∈ cells c'.exts ∨
        (b, p, 0) ∈ cells c'.exts ∧ (b, p, 0) ∉ cells c.exts

/-- What other tasks mapped or marked as written. -/
def Raced (env : FallocEnv) (x : Nat × Nat × Nat) : Prop :=
  ∃ k held f, x ∈ cells (env.others k held f).content.exts ∧ x ∉ cells f.content.exts

/-- A part of the call on the blocks from `lo` up to `hi`: what is mapped stays, and what is new is
unwritten, unless other tasks did it. -/
structure Grows (env : FallocEnv) (lo hi : Nat) (c c' : Content) : Prop where
  kept  : ∀ b p fl, (b, p, fl) ∈ cells c.exts → (b, p, fl) ∈ cells c'.exts ∨
    (b, p, 0) ∈ cells c'.exts ∧ Raced env (b, p, 0)
  fresh : ∀ b p fl, (b, p, fl) ∈ cells c'.exts → (b, p, fl) ∈ cells c.exts ∨
    (fl = 1 ∧ lo ≤ b ∧ b < hi) ∨ Raced env (b, p, fl)

def Covered (c : Content) (b : Nat) : Prop := ∃ p fl, (b, p, fl) ∈ cells c.exts

/-- All blocks from `lo` up to `hi` are mapped. -/
def MappedRange (c : Content) (lo hi : Nat) : Prop := ∀ b, lo ≤ b → b < hi → Covered c b

section Grows

variable {env : FallocEnv} {lo hi lo' hi' : Nat} {c c₁ c₂ : Content}

theorem Grows.refl (env : FallocEnv) (lo hi : Nat) (c : Content) : Grows env lo hi c c :=
  ⟨fun _ _ _ h => .inl h, fun _ _ _ h => .inl h⟩

theorem Grows.trans (h₁ : Grows env lo hi c c₁) (h₂ : Grows env lo hi c₁ c₂) :
    Grows env lo hi c c₂ := by
  refine ⟨?_, ?_⟩
  · intro b p fl hMem
    rcases h₁.kept b p fl hMem with hSame | ⟨hWritten, hRaced⟩
    · exact h₂.kept b p fl hSame
    · rcases h₂.kept b p 0 hWritten with hStays | ⟨hStays, -⟩
      · exact .inr ⟨hStays, hRaced⟩
      · exact .inr ⟨hStays, hRaced⟩
  · intro b p fl hMem
    rcases h₂.fresh b p fl hMem with hOld | hNew
    · exact h₁.fresh b p fl hOld
    · exact .inr hNew

theorem Grows.widen (h : Grows env lo hi c c₁) (hLo : lo' ≤ lo) (hHi : hi ≤ hi') :
    Grows env lo' hi' c c₁ := by
  refine ⟨h.kept, fun b p fl hMem => (h.fresh b p fl hMem).imp id ?_⟩
  rintro (⟨hFlag, hFrom, hTo⟩ | hRaced)
  · exact .inl ⟨hFlag, by omega, by omega⟩
  · exact .inr hRaced

theorem Grows.covered (h : Grows env lo hi c c₁) {b : Nat} (hb : Covered c b) : Covered c₁ b := by
  obtain ⟨p, fl, hMem⟩ := hb
  rcases h.kept b p fl hMem with hSame | ⟨hWritten, -⟩
  · exact ⟨p, fl, hSame⟩
  · exact ⟨p, 0, hWritten⟩

theorem Grows.mappedRange (h : Grows env lo hi c c₁) (hMapped : MappedRange c lo' hi') :
    MappedRange c₁ lo' hi' := fun b hFrom hTo => h.covered (hMapped b hFrom hTo)

theorem MappedRange.append {mid : Nat} (h₁ : MappedRange c lo mid) (h₂ : MappedRange c mid hi) :
    MappedRange c lo hi := by
  intro b hFrom hTo
  by_cases hMid : b < mid
  · exact h₁ b hFrom hMid
  · exact h₂ b (by omega) hTo

theorem mappedRange_one {b : Nat} (h : Covered c b) : MappedRange c b (b + 1) := by
  intro j hFrom hTo
  have hj : j = b := by omega
  rwa [hj]

/-- A moment at which other tasks run. -/
theorem FallocEnv.Fair.grows (hFair : env.Fair) (k : Nat) {held : List Nat} {f : Btree.File}
    (h : Holds f c) (hSpare : Spare f c held) (lo hi : Nat) :
    ∃ c', Holds (env.others k held f) c' ∧ Spare (env.others k held f) c' held ∧
      Grows env lo hi c c' := by
  obtain ⟨c', hHolds, hSpare', hKept⟩ := hFair k held f c h hSpare
  have hRaced : ∀ x, x ∈ cells c'.exts → x ∉ cells c.exts → Raced env x := by
    intro x hIn hOut
    refine ⟨k, held, f, ?_, ?_⟩
    · rwa [hHolds.content]
    · rwa [h.content]
  refine ⟨c', hHolds, hSpare', ?_, ?_⟩
  · intro b p fl hMem
    refine (hKept b p fl hMem).imp id ?_
    rintro ⟨hWritten, hNew⟩
    exact ⟨hWritten, hRaced _ hWritten hNew⟩
  · intro b p fl hMem
    by_cases hOld : (b, p, fl) ∈ cells c.exts
    · exact .inl hOld
    · exact .inr (.inr (hRaced _ hMem hOld))

theorem spare_nil (f : Btree.File) (c : Content) : Spare f c [] := nofun

/-- The same with nothing in hand. -/
theorem FallocEnv.Fair.idle (hFair : env.Fair) (k : Nat) {f : Btree.File} (h : Holds f c)
    (lo hi : Nat) : ∃ c', Holds (env.others k [] f) c' ∧ Grows env lo hi c c' := by
  obtain ⟨c', hHolds, -, hGrows⟩ := hFair.grows k h (spare_nil f c) lo hi
  exact ⟨c', hHolds, hGrows⟩

end Grows

--
-- Searches
--

section Search

variable {f : Btree.File} {c : Content} {b : Nat}

/-- A lookup that finds an extent is right, in every sound tree. -/
theorem lookup_found (h : Holds f c) (hb : b < fileTop) :
    ∃ r, lookupIblock f b = some r ∧ ∀ e, r = .ok e → Covered c b := by
  have hCovered : ∀ e ∈ c.exts, e.covers b → Covered c b := by
    intro e he hCov
    exact ⟨e.physAt b, e.flags, mem_cells.2 ⟨e, he, hCov, rfl, rfl⟩⟩
  unfold lookupIblock
  by_cases hIdx : f.indexed = true
  · obtain ⟨d, hSub⟩ := h.tree hIdx
    have hFuel := hSub.depth_lt
    unfold lookup
    rw [if_pos hIdx, if_neg (Nat.ne_of_gt hSub.pos), hSub.lookup hFuel (Nat.zero_le _) hb]
    refine ⟨_, rfl, fun e he => ?_⟩
    cases hFound : lookupLeaf b (routeLeaf f.nodes b (d + 1) f.root) with
    | none =>
      rw [hFound] at he
      cases he
    | some x =>
      obtain ⟨hMem, hCov⟩ := mem_of_lookupLeaf hFound
      exact hCovered x (hSub.routeLeaf_subset (d + 1) (Nat.zero_le _) hb hMem) hCov
  · obtain ⟨rfl, hLeaf, hEight⟩ := h.flat (by simpa using hIdx)
    rw [if_neg hIdx, List.take_of_length_le hEight]
    refine ⟨_, rfl, fun e he => ?_⟩
    obtain ⟨hMem, hCov⟩ := ((find_covers hLeaf.ordered).1 e).1 he
    exact hCovered e hMem hCov

/-- The extent after a block starts behind it. -/
theorem nextExtent_after (h : Holds f c) (hb : b < fileTop) :
    ∃ r, nextExtent f b = some r ∧ ∀ e, r = .ok e → b < e.offset := by
  refine ⟨_, h.nextExtent_eq hb, fun e he => ?_⟩
  cases hFound : c.exts.find? fun e => decide (b < e.offset) with
  | none =>
    rw [hFound] at he
    cases he
  | some x =>
    rw [hFound] at he
    cases he
    simpa using List.find?_some hFound

theorem blockMapped_spec (env : FallocEnv) (k : Nat) (h : Holds f c) (hb : b < fileTop) :
    ∃ m, blockMapped env k f b = some m ∧ (m = true → Covered c b) := by
  unfold blockMapped
  by_cases hBlind : env.blind k = true
  · rw [if_pos hBlind]
    exact ⟨false, rfl, nofun⟩
  · rw [if_neg hBlind]
    obtain ⟨r, hEq, hFound⟩ := lookup_found h hb
    rw [hEq]
    cases r with
    | ok e => exact ⟨true, rfl, fun _ => hFound e rfl⟩
    | error e => exact ⟨false, rfl, nofun⟩

theorem holeEnd_spec (env : FallocEnv) (k : Nat) (h : Holds f c) {endBlk : Nat}
    (hEnd : endBlk < fileTop) (hb : b < endBlk) :
    ∃ hole, holeEnd env k f b endBlk = some hole ∧ b < hole ∧ hole ≤ endBlk := by
  unfold holeEnd
  by_cases hBlind : env.blind k = true
  · rw [if_pos hBlind]
    exact ⟨endBlk, rfl, hb, Nat.le_refl _⟩
  · rw [if_neg hBlind]
    obtain ⟨r, hEq, hAfter⟩ := nextExtent_after h (by omega : b < fileTop)
    rw [hEq]
    cases r with
    | ok e =>
      have hLt := hAfter e rfl
      exact ⟨min e.offset endBlk, rfl, by omega, Nat.min_le_right _ _⟩
    | error e => exact ⟨endBlk, rfl, hb, Nat.le_refl _⟩

end Search

--
-- Insertions
--

section Insert

variable {env : FallocEnv} {f : Btree.File} {c : Content} {b rel n : Nat}

theorem mem_runOf {i : Nat} : i ∈ runOf rel n ↔ rel ≤ i ∧ i < rel + n := by
  unfold runOf
  rw [List.mem_map]
  constructor
  · rintro ⟨j, hj, rfl⟩
    have hLt := List.mem_range.1 hj
    omega
  · rintro ⟨hLo, hHi⟩
    exact ⟨i - rel, List.mem_range.2 (by omega), by omega⟩

/-- A run from the allocator is in nobody's tree. -/
theorem spare_run (h : Holds f c) {a : Alloc} (hTook : Alloc.TookRun f.alloc n (rel, a))
    (hRel : rel ≠ 0) : Holds { f with alloc := a } c ∧ Spare { f with alloc := a } c (runOf rel n) := by
  refine ⟨h.take hTook.healthy hTook.fewer, ?_⟩
  intro i hi
  obtain ⟨hLo, hHi⟩ := mem_runOf.1 hi
  obtain ⟨hFree, hTaken⟩ := hTook.run hRel i hLo hHi
  refine ⟨hTaken, fun hIn => ?_⟩
  obtain ⟨j, -, hEq, hUsed⟩ := h.owned _ hIn
  have hSame : i = j := by
    have hEq' : f.dataStart + i = f.dataStart + j := hEq
    omega
  rw [← hSame, hFree] at hUsed
  cases hUsed

/-- What the insertion of a run leaves: the run is mapped, or something else has it and the run
can be given back. -/
structure Inserted (env : FallocEnv) (b rel n : Nat) (c : Content) (code : Option Errno)
    (f' : Btree.File) : Prop where
  done  : code = none → ∃ c', Holds f' c' ∧ Grows env b (b + n) c c' ∧ MappedRange c' b (b + n)
  clash : code = some .eexist → ∃ c', Holds { f' with alloc := freeEach f'.alloc rel n } c' ∧
    Grows env b (b + n) c c' ∧ (n = 1 → Covered c' b)

theorem insertRun_spec (hFair : env.Fair) (k : Nat) (h : Holds f c)
    (hSpare : Spare f c (runOf rel n)) (hRel : rel ≠ 0) (hn : 0 < n) (hTop : b + n < fileTop) :
    ∃ code f', insertRun env k f b rel n = some (code, f') ∧ Inserted env b rel n c code f' := by
  obtain ⟨c₁, hHolds, hSpare₁, hGrows⟩ := hFair.grows k h hSpare b (b + n)
  unfold insertRun
  generalize env.others k (runOf rel n) f = f₁ at hHolds hSpare₁ ⊢
  dsimp only
  by_cases hRead : env.unreadable k = true
  · rw [if_pos hRead]
    exact ⟨_, _, rfl, nofun, nofun⟩
  rw [if_neg hRead]
  have hLen : 0 < (⟨b, f₁.dataStart + rel, n, 1⟩ : Extent).len := hn
  have hStop : (⟨b, f₁.dataStart + rel, n, 1⟩ : Extent).stop < fileTop := hTop
  obtain ⟨code, f₂, c₂, hEq, hd⟩ := insertLocked_spec hHolds hLen hStop ten_le_levels
  refine ⟨code, f₂, hEq, ?_, ?_⟩
  · intro hCode
    have hPerm := hd.done hCode
    have hNew : ∀ j, b ≤ j → j < b + n →
        (j, f₁.dataStart + rel + (j - b), 1) ∈ cells c₂.exts := by
      intro j hLo hHi
      refine hPerm.mem_iff.2 (List.mem_append_right _ (mem_extent_cells.2 ⟨⟨hLo, hHi⟩, rfl, rfl⟩))
    refine ⟨c₂, hd.holds, hGrows.trans ⟨?_, ?_⟩, fun j hLo hHi => ⟨_, _, hNew j hLo hHi⟩⟩
    · intro j p fl hMem
      exact .inl (hPerm.mem_iff.2 (List.mem_append_left _ hMem))
    · intro j p fl hMem
      rcases List.mem_append.1 (hPerm.mem_iff.1 hMem) with hOld | hAdded
      · exact .inl hOld
      · obtain ⟨⟨hLo, hHi⟩, -, hFlag⟩ := mem_extent_cells.1 hAdded
        exact .inr (.inl ⟨hFlag.symm, hLo, hHi⟩)
  · intro hCode
    have hExts : c₂.exts = c₁.exts := hd.same (by rw [hCode]; exact nofun)
    have hBack : Holds { f₂ with alloc := freeEach f₂.alloc rel n } c₂ := by
      refine hd.giveBack rel n (healthy_freeEach hd.holds.sound hRel n) ?_ ?_
        (fun i hi => isFree_freeEach _ _ _ i hi)
      · exact fun i hLo hHi _ => (hSpare₁ i (mem_runOf.2 ⟨hLo, hHi⟩)).1
      · exact fun i hLo hHi => (hSpare₁ i (mem_runOf.2 ⟨hLo, hHi⟩)).2
    refine ⟨c₂, hBack, ?_, ?_⟩
    · refine hGrows.trans ⟨fun j p fl hMem => .inl ?_, fun j p fl hMem => .inl ?_⟩
      · rwa [hExts]
      · rwa [hExts] at hMem
    · rintro rfl
      obtain ⟨e, he, hFrom, hTo⟩ := hd.clash hCode
      change e.offset < b + 1 at hFrom
      change b < e.stop at hTo
      refine ⟨e.physAt b, e.flags, ?_⟩
      rw [hExts]
      exact mem_cells.2 ⟨e, he, ⟨by omega, hTo⟩, rfl, rfl⟩

theorem fallocOne_spec (hFair : env.Fair) (k : Nat) (h : Holds f c) (hTop : b + 1 < fileTop) :
    ∃ code f', fallocOne env k f b = some (code, f') ∧ (code = none ∨ code = some .eexist →
      ∃ c', Holds f' c' ∧ Grows env b (b + 1) c c' ∧ MappedRange c' b (b + 1)) := by
  have hTook := tookRun_allocBlock h.sound
  unfold fallocOne
  rcases hAlloc : f.alloc.allocBlock with ⟨rel, a⟩
  rw [hAlloc] at hTook
  dsimp only
  by_cases hZero : rel = 0
  · rw [if_pos hZero]
    exact ⟨_, _, rfl, nofun⟩
  rw [if_neg hZero]
  obtain ⟨hHolds, hSpare⟩ := spare_run h hTook hZero
  obtain ⟨code, f₁, hEq, hIns⟩ := insertRun_spec hFair k hHolds hSpare hZero Nat.one_pos hTop
  rw [hEq]
  cases code with
  | none => exact ⟨none, f₁, rfl, fun _ => hIns.done rfl⟩
  | some e =>
    refine ⟨some e, _, rfl, ?_⟩
    rintro (hNone | hExist)
    · cases hNone
    · obtain ⟨c', hBack, hGrows, hCov⟩ := hIns.clash hExist
      exact ⟨c', hBack, hGrows, mappedRange_one (hCov rfl)⟩

end Insert

--
-- The loops
--

/-- What a loop over the blocks from `lo` up to `hi` leaves when it does not fail. -/
def LoopDone (env : FallocEnv) (lo hi : Nat) (c : Content) (t : Turn) : Prop :=
  t.ret = none → ∃ c', Holds t.file c' ∧ Grows env lo hi c c' ∧ MappedRange c' lo hi

section Loops

variable {env : FallocEnv} {c : Content}

theorem mappedRange_nil (c : Content) (b : Nat) : MappedRange c b b := by
  intro j hLo hHi
  omega

/-- A part of a loop, and then the rest of it. -/
theorem LoopDone.after {lo mid hi : Nat} {c₁ : Content} {t : Turn} (hLo : lo ≤ mid)
    (hGrows : Grows env lo hi c c₁) (hMapped : MappedRange c₁ lo mid)
    (h : LoopDone env mid hi c₁ t) : LoopDone env lo hi c t := by
  intro hRet
  obtain ⟨c', hHolds, hRest, hRestMapped⟩ := h hRet
  exact ⟨c', hHolds, hGrows.trans (hRest.widen hLo (Nat.le_refl hi)),
    (hRest.mappedRange hMapped).append hRestMapped⟩

theorem retryEach_spec (hFair : env.Fair) : ∀ (n b : Nat) (t : Turn) (c : Content),
    Holds t.file c → t.ret = none → b + n < fileTop →
      ∃ r, retryEach env n b t = some r ∧ LoopDone env b (b + n) c r := by
  intro n
  induction n with
  | zero =>
    intro b t c h hRet _
    exact ⟨t, rfl, fun _ => ⟨c, h, Grows.refl _ _ _ _, mappedRange_nil c b⟩⟩
  | succ n ih =>
    intro b t c h hRet hTop
    unfold retryEach
    by_cases hSignal : env.signal t.clock = true
    · rw [if_pos hSignal]
      exact ⟨_, rfl, nofun⟩
    rw [if_neg hSignal]
    obtain ⟨c₁, hHolds, hIdle⟩ := hFair.idle t.clock h b (b + 1)
    obtain ⟨code, f₂, hEq, hOne⟩ := fallocOne_spec hFair (t.clock + 1) hHolds (by omega : b + 1 < fileTop)
    rw [hEq]
    -- Mapped now, by this call or by another task: the next block.
    have hNext : ∀ added, (∃ c', Holds f₂ c' ∧ Grows env b (b + 1) c₁ c' ∧
        MappedRange c' b (b + 1)) → ∃ r, retryEach env n (b + 1) ⟨t.clock + 2, f₂, added, t.ret⟩ =
          some r ∧ LoopDone env b (b + (n + 1)) c r := by
      rintro added ⟨c₂, hHolds₂, hGrows, hMapped⟩
      obtain ⟨r, hRun, hDone⟩ := ih (b + 1) ⟨t.clock + 2, f₂, added, t.ret⟩ c₂ hHolds₂ hRet (by omega)
      rw [show b + 1 + n = b + (n + 1) by omega] at hDone
      have hWide := (hIdle.trans hGrows).widen (Nat.le_refl b) (by omega : b + 1 ≤ b + (n + 1))
      exact ⟨r, hRun, hDone.after (by omega) hWide hMapped⟩
    cases code with
    | none => exact hNext _ (hOne (.inl rfl))
    | some e =>
      cases e with
      | eexist => exact hNext _ (hOne (.inr rfl))
      | _ => exact ⟨_, rfl, nofun⟩

/-- A run that was found is spare. -/
theorem allocShrinking_spec (hFair : env.Fair) (lo hi : Nat) : ∀ (fuel want k : Nat)
    (f : Btree.File) (c : Content), Holds f c → 1 ≤ want →
      (allocShrinking env fuel want k f).rel ≠ 0 →
      1 ≤ (allocShrinking env fuel want k f).want ∧
      (allocShrinking env fuel want k f).want ≤ want ∧
      ∃ c', Holds (allocShrinking env fuel want k f).file c' ∧ Grows env lo hi c c' ∧
        Spare (allocShrinking env fuel want k f).file c'
          (runOf (allocShrinking env fuel want k f).rel (allocShrinking env fuel want k f).want) := by
  intro fuel
  induction fuel with
  | zero =>
    intro want k f c _ _ hRel
    exact absurd rfl hRel
  | succ fuel ih =>
    intro want k f c h hWant hRel
    obtain ⟨c₁, hHolds, hIdle⟩ := hFair.idle k h lo hi
    unfold allocShrinking at hRel ⊢
    generalize env.others k [] f = f₁ at hHolds hRel ⊢
    have hTook := hHolds.sound.allocBlocks want
    dsimp only at hRel ⊢
    rcases hAlloc : f₁.alloc.allocBlocks want with ⟨rel, a⟩
    rw [hAlloc] at hTook hRel
    dsimp only at hRel ⊢
    by_cases hStop : rel ≠ 0 ∨ want = 1
    · rw [if_pos hStop] at hRel ⊢
      obtain ⟨hHolds₂, hSpare⟩ := spare_run hHolds hTook hRel
      exact ⟨hWant, Nat.le_refl _, c₁, hHolds₂, hIdle, hSpare⟩
    · rw [if_neg hStop] at hRel ⊢
      have hMore : want ≠ 1 := fun hOne => hStop (.inr hOne)
      obtain ⟨hLow, hHigh, c₂, hHolds₂, hGrows, hSpare⟩ := ih (want / 2) (k + 1) _ c₁
        (hHolds.take hTook.healthy hTook.fewer) (by omega) hRel
      exact ⟨hLow, Nat.le_trans hHigh (Nat.div_le_self want 2), c₂, hHolds₂,
        hIdle.trans hGrows, hSpare⟩

theorem fillHole_spec (hFair : env.Fair) : ∀ (fuel b left : Nat) (t : Turn) (c : Content),
    left ≤ fuel → Holds t.file c → t.ret = none → b + left < fileTop →
      ∃ r, fillHole env fuel b left t = some r ∧ LoopDone env b (b + left) c r := by
  intro fuel
  induction fuel with
  | zero =>
    intro b left t c hFuel h _ _
    have hLeft : left = 0 := by omega
    subst hLeft
    exact ⟨t, rfl, fun _ => ⟨c, h, Grows.refl _ _ _ _, mappedRange_nil c b⟩⟩
  | succ fuel ih =>
    intro b left t c hFuel h hRet hTop
    unfold fillHole
    by_cases hLeft : left = 0
    · rw [if_pos hLeft]
      subst hLeft
      exact ⟨t, rfl, fun _ => ⟨c, h, Grows.refl _ _ _ _, mappedRange_nil c b⟩⟩
    rw [if_neg hLeft]
    by_cases hSignal : env.signal t.clock = true
    · rw [if_pos hSignal]
      exact ⟨_, rfl, nofun⟩
    rw [if_neg hSignal]
    have hFound := allocShrinking_spec hFair b (b + left) left left t.clock t.file c h (by omega)
    generalize allocShrinking env left left t.clock t.file = q at hFound ⊢
    dsimp only
    by_cases hRel : q.rel = 0
    · rw [if_pos hRel]
      exact ⟨_, rfl, nofun⟩
    rw [if_neg hRel]
    obtain ⟨hLow, hHigh, c₁, hHolds, hGrows₁, hSpare⟩ := hFound hRel
    obtain ⟨code, f₂, hEq, hIns⟩ := insertRun_spec hFair q.clock hHolds hSpare hRel hLow
      (by omega : b + q.want < fileTop)
    rw [hEq]
    -- The blocks of the run are mapped: the rest of the hole.
    have hNext : ∀ u : Turn, u.ret = none → ∀ c₂, Holds u.file c₂ →
        Grows env b (b + q.want) c₁ c₂ → MappedRange c₂ b (b + q.want) →
        ∃ r, fillHole env fuel (b + q.want) (left - q.want) u = some r ∧
          LoopDone env b (b + left) c r := by
      intro u hu c₂ hHolds₂ hGrows₂ hMapped
      obtain ⟨r, hRun, hDone⟩ := ih (b + q.want) (left - q.want) u c₂ (by omega) hHolds₂ hu (by omega)
      rw [show b + q.want + (left - q.want) = b + left by omega] at hDone
      have hWide := hGrows₂.widen (Nat.le_refl b) (by omega : b + q.want ≤ b + left)
      exact ⟨r, hRun, hDone.after (by omega) (hGrows₁.trans hWide) hMapped⟩
    cases code with
    | none =>
      obtain ⟨c₂, hHolds₂, hGrows₂, hMapped⟩ := hIns.done rfl
      exact hNext _ hRet c₂ hHolds₂ hGrows₂ hMapped
    | some e =>
      cases e with
      | eexist =>
        obtain ⟨c₂, hHolds₂, hGrows₂, -⟩ := hIns.clash rfl
        obtain ⟨r, hRun, hDone⟩ := retryEach_spec hFair q.want b
          ⟨q.clock + 1, { f₂ with alloc := freeEach f₂.alloc q.rel q.want }, 0, none⟩ c₂ hHolds₂ rfl
          (by omega)
        have hRetry : retryBlockwise env q.rel q.want b (q.clock + 1) f₂ = some r := hRun
        dsimp only
        rw [hRetry]
        dsimp only
        by_cases hr : r.ret = none
        · rw [if_pos hr]
          obtain ⟨c₃, hHolds₃, hGrows₃, hMapped⟩ := hDone hr
          exact hNext ⟨r.clock, r.file, t.added + r.added, none⟩ rfl c₃ hHolds₃
            (hGrows₂.trans hGrows₃) hMapped
        · rw [if_neg hr]
          exact ⟨_, rfl, fun hNone => absurd hNone hr⟩
      | _ => exact ⟨_, rfl, nofun⟩

theorem fallocLoop_spec (hFair : env.Fair) {endBlk : Nat} (hEnd : endBlk < fileTop) :
    ∀ (fuel blk : Nat) (t : Turn) (c : Content), endBlk - blk ≤ fuel → Holds t.file c →
      t.ret = none → ∃ r, fallocLoop env endBlk fuel blk t = some r ∧ LoopDone env blk endBlk c r := by
  have hPast : ∀ (blk : Nat) (t : Turn) (c : Content), endBlk ≤ blk → Holds t.file c →
      LoopDone env blk endBlk c t := by
    intro blk t c hLe h _
    refine ⟨c, h, Grows.refl _ _ _ _, fun j hLo hHi => ?_⟩
    omega
  intro fuel
  induction fuel with
  | zero =>
    intro blk t c hFuel h _
    have hLe : endBlk ≤ blk := by omega
    exact ⟨t, if_pos hLe, hPast blk t c hLe h⟩
  | succ fuel ih =>
    intro blk t c hFuel h hRet
    unfold fallocLoop
    by_cases hLe : endBlk ≤ blk
    · rw [if_pos hLe]
      exact ⟨t, rfl, hPast blk t c hLe h⟩
    rw [if_neg hLe]
    by_cases hSignal : env.signal t.clock = true
    · rw [if_pos hSignal]
      exact ⟨_, rfl, nofun⟩
    rw [if_neg hSignal]
    obtain ⟨c₁, hHolds₁, hIdle₁⟩ := hFair.idle t.clock h blk endBlk
    generalize env.others t.clock [] t.file = f₁ at hHolds₁ ⊢
    obtain ⟨m, hEq, hCov⟩ := blockMapped_spec env t.clock hHolds₁ (by omega : blk < fileTop)
    dsimp only
    rw [hEq]
    cases m with
    | true =>
      obtain ⟨r, hRun, hDone⟩ := ih (blk + 1) ⟨t.clock + 1, f₁, t.added, t.ret⟩ c₁ (by omega) hHolds₁
        hRet
      exact ⟨r, hRun, hDone.after (Nat.le_succ blk) hIdle₁ (mappedRange_one (hCov rfl))⟩
    | false =>
      obtain ⟨c₂, hHolds₂, hIdle₂⟩ := hFair.idle (t.clock + 1) hHolds₁ blk endBlk
      dsimp only
      generalize env.others (t.clock + 1) [] f₁ = f₂ at hHolds₂ ⊢
      obtain ⟨hole, hHole, hAfter, hWithin⟩ := holeEnd_spec env (t.clock + 1) hHolds₂ hEnd
        (by omega : blk < endBlk)
      rw [hHole]
      dsimp only
      obtain ⟨u, hFill, hFilled⟩ := fillHole_spec hFair (hole - blk) blk (hole - blk)
        ⟨t.clock + 2, f₂, t.added, t.ret⟩ c₂ (Nat.le_refl _) hHolds₂ hRet (by omega)
      rw [hFill]
      dsimp only
      rw [show blk + (hole - blk) = hole by omega] at hFilled
      by_cases hu : u.ret = none
      · rw [if_pos hu]
        obtain ⟨c₃, hHolds₃, hGrows₃, hMapped⟩ := hFilled hu
        obtain ⟨r, hRun, hDone⟩ := ih hole u c₃ (by omega) hHolds₃ hu
        have hWide := hGrows₃.widen (Nat.le_refl blk) hWithin
        exact ⟨r, hRun, hDone.after (by omega) ((hIdle₁.trans hIdle₂).trans hWide) hMapped⟩
      · rw [if_neg hu]
        exact ⟨u, rfl, fun hNone => absurd hNone hu⟩

end Loops

--
-- The call
--

/-- What a call on the blocks from `lo` up to `hi` leaves that returns 0. The block that takes the
inline data is written. -/
structure Preallocated (env : FallocEnv) (i : Inode) (lo hi : Nat) (f : Btree.File) : Prop where
  sound  : Holds f f.content
  mapped : MappedRange f.content lo hi
  kept   : ∀ b p fl, (b, p, fl) ∈ cells i.file.content.exts → (b, p, fl) ∈ cells f.content.exts ∨
    (b, p, 0) ∈ cells f.content.exts ∧ Raced env (b, p, 0)
  fresh  : ∀ b p fl, (b, p, fl) ∈ cells f.content.exts → (b, p, fl) ∈ cells i.file.content.exts ∨
    (fl = 1 ∧ lo ≤ b ∧ b < hi) ∨ (i.inlineData = true ∧ i.size ≠ 0 ∧ b = 0 ∧ fl = 0) ∨
    Raced env (b, p, fl)

/-- The call fails before it looks for blocks. -/
def TurnedDown (env : FallocEnv) (keepSize : Bool) (i : Inode) (offset len : Nat) : Prop :=
  len = 0 ∨ env.maxBytes < offset + len ∨ env.removePrivs ≠ none ∨
  (keepSize = false ∧ i.size < offset + len ∧ env.newsizeOk ≠ none) ∨
  ¬ (i.inlineData = true ∧ offset + len ≤ inlineDataSize) ∧
    ((i.promoteOn env.inode).1 ≠ none ∨ env.writeback ≠ none)

section Call

variable {env : FallocEnv} {i : Inode}

theorem fallocSize_eq (keepSize : Bool) (size stop : Nat) :
    fallocSize keepSize size stop = if keepSize = true then size else max size stop := by
  unfold fallocSize
  cases keepSize with
  | true => rfl
  | false =>
    by_cases hGrow : size < stop
    · rw [if_pos ⟨rfl, hGrow⟩, if_neg nofun]
      omega
    · rw [if_neg fun hNo => hGrow hNo.2, if_neg nofun]
      omega

theorem fallocSize_same {keepSize : Bool} {size stop : Nat}
    (hNo : keepSize = true ∨ stop ≤ size) : fallocSize keepSize size stop = size := by
  refine if_neg ?_
  rintro ⟨hGrow, hLess⟩
  rcases hNo with hKeep | hLe
  · rw [hKeep] at hGrow
    cases hGrow
  · omega

/-- A promotion that succeeds maps the block of the inline data at most. -/
theorem promoteOn_filled (env : SetattrEnv) (h : i.Sound) {j : Inode}
    (hEq : i.promoteOn env = (none, j)) :
    j.size = i.size ∧ j.inlineData = false ∧ Holds j.file j.file.content ∧
      (∀ x ∈ cells i.file.content.exts, x ∈ cells j.file.content.exts) ∧
      ∀ b p fl, (b, p, fl) ∈ cells j.file.content.exts → (b, p, fl) ∈ cells i.file.content.exts ∨
        (i.inlineData = true ∧ i.size ≠ 0 ∧ b = 0 ∧ fl = 0) := by
  unfold Inode.promoteOn at hEq
  by_cases hFlag : i.inlineData = false
  · rw [if_pos hFlag] at hEq
    cases hEq
    exact ⟨rfl, hFlag, h.sound.holds, fun _ hx => hx, fun _ _ _ hx => .inl hx⟩
  rw [if_neg hFlag] at hEq
  have hInline : i.inlineData = true := by simpa using hFlag
  by_cases hSize : i.size = 0
  · rw [if_pos hSize] at hEq
    cases hEq
    exact ⟨rfl, rfl, h.sound.holds, fun _ hx => hx, fun _ _ _ hx => .inl hx⟩
  rw [if_neg hSize] at hEq
  have hTook := Alloc.allocBlock_spec i.file.alloc
  have hHealthy := h.sound.holds.sound.allocBlock
  obtain ⟨hIdx, -⟩ := h.inline hInline
  generalize i.file.alloc.allocBlock = r at hTook hHealthy hEq
  obtain ⟨rel, a⟩ := r
  dsimp only at hTook hHealthy hEq
  by_cases hRel : rel = 0
  · rw [if_pos hRel] at hEq
    cases hEq
  rw [if_neg hRel] at hEq
  by_cases hRead : env.noRead = true
  · rw [if_pos hRead] at hEq
    cases hEq
  rw [if_neg hRead] at hEq
  cases hWrite : env.noWrite with
  | some err =>
    rw [hWrite] at hEq
    cases hEq
  | none =>
    rw [hWrite] at hEq
    cases hEq
    have hTaken : a.isFree rel = false := by
      rw [hTook.frame rel hRel]
      simp
    obtain ⟨hHolds, -⟩ := promoted_holds i.file hIdx hHealthy hRel hTaken
    refine ⟨rfl, rfl, ?_, ?_, ?_⟩
    · rwa [hHolds.content]
    · rw [h.content hInline]
      exact nofun
    · intro b p fl hMem
      rw [hHolds.content] at hMem
      obtain ⟨e, he, ⟨-, hHi⟩, -, hFlags⟩ := mem_cells.1 hMem
      obtain rfl := List.mem_singleton.1 he
      change b < 0 + 1 at hHi
      exact .inr ⟨hInline, hSize, by omega, hFlags.symm⟩

theorem fallocRange_spec (hFair : env.Fair) (keepSize promoted : Bool) {j : Inode} {c : Content}
    (h : Holds j.file c) (offset : Nat) {stop : Nat} (hStop : stop < 2 ^ 63) :
    ∃ r, fallocRange env keepSize promoted j offset stop = some r ∧
      r.inode.inlineData = j.inlineData ∧
      (r.ret = none → r.inode.size = fallocSize keepSize j.size stop ∧
        ∃ c', Holds r.inode.file c' ∧
          Grows env (offset / blockSize) ((stop + blockSize - 1) / blockSize) c c' ∧
          MappedRange c' (offset / blockSize) ((stop + blockSize - 1) / blockSize)) ∧
      (env.writeback ≠ none ∨ keepSize = true ∨ stop ≤ j.size → r.inode.size = j.size) := by
  unfold fallocRange
  cases hWrite : env.writeback with
  | some e => exact ⟨_, rfl, rfl, nofun, fun _ => rfl⟩
  | none =>
    have hEnd : (stop + blockSize - 1) / blockSize < fileTop := by
      have hTop : fileTop = 2 ^ 64 := rfl
      unfold blockSize
      omega
    generalize (stop + blockSize - 1) / blockSize = endBlk at hEnd ⊢
    obtain ⟨c₁, hHolds, hIdle⟩ := hFair.idle 0 h (offset / blockSize) endBlk
    obtain ⟨t, hRun, hDone⟩ := fallocLoop_spec hFair hEnd endBlk (offset / blockSize)
      ⟨1, env.others 0 [] j.file, 0, none⟩ c₁ (Nat.sub_le _ _) hHolds rfl
    dsimp only
    rw [hRun]
    dsimp only
    have hSame : (none : Option FallocError) ≠ none ∨ keepSize = true ∨ stop ≤ j.size →
        fallocSize keepSize j.size stop = j.size := by
      rintro (hNo | hKeep)
      · exact absurd rfl hNo
      · exact fallocSize_same hKeep
    cases hRet : t.ret with
    | some e => exact ⟨_, rfl, rfl, nofun, hSame⟩
    | none =>
      refine ⟨_, rfl, rfl, fun _ => ⟨rfl, ?_⟩, hSame⟩
      obtain ⟨c', hHolds', hGrows, hMapped⟩ := hDone hRet
      exact ⟨c', hHolds', hIdle.trans hGrows, hMapped⟩

/-- A call that returns 0 has mapped every block of the range, or the range is inline; what was
mapped is kept, what is new is unwritten but for the block of promoted inline data, and the size
covers the range unless it is to be kept. A call that fails leaves the size alone when it was not
to grow or did not get to the allocation. -/
theorem fallocate_fills (hFair : env.Fair) (hMax : env.maxBytes < 2 ^ 63) (keepSize : Bool)
    (h : i.Sound) (offset len : Nat) :
    ∃ r, fallocate env keepSize i offset len = some r ∧
      (r.ret = none →
        r.inode.size = (if keepSize = true then i.size else max i.size (offset + len)) ∧
        ((i.inlineData = true ∧ offset + len ≤ inlineDataSize ∧ r.inode.inlineData = true ∧
            r.inode.file = i.file) ∨
          (r.inode.inlineData = false ∧ Preallocated env i (offset / blockSize)
            ((offset + len + blockSize - 1) / blockSize) r.inode.file))) ∧
      (r.ret ≠ none →
        keepSize = true ∨ offset + len ≤ i.size ∨ TurnedDown env keepSize i offset len →
        r.inode.size = i.size) := by
  unfold fallocate TurnedDown
  dsimp only
  by_cases hLen : len = 0
  · rw [if_pos hLen]
    exact ⟨_, rfl, nofun, fun _ _ => rfl⟩
  rw [if_neg hLen]
  by_cases hBig : env.maxBytes < offset + len
  · rw [if_pos hBig]
    exact ⟨_, rfl, nofun, fun _ _ => rfl⟩
  rw [if_neg hBig]
  cases hPrivs : env.removePrivs with
  | some e => exact ⟨_, rfl, nofun, fun _ _ => rfl⟩
  | none =>
    dsimp only
    cases hLimit : (if keepSize = false ∧ i.size < offset + len then env.newsizeOk else none) with
    | some e => exact ⟨_, rfl, nofun, fun _ _ => rfl⟩
    | none =>
      dsimp only
      have hOk : ¬ (keepSize = false ∧ i.size < offset + len ∧ env.newsizeOk ≠ none) := by
        rintro ⟨hGrow, hLess, hNo⟩
        rw [if_pos ⟨hGrow, hLess⟩] at hLimit
        exact hNo hLimit
      by_cases hInline : i.inlineData = true ∧ offset + len ≤ inlineDataSize
      · rw [if_pos hInline]
        refine ⟨_, rfl, fun _ => ⟨fallocSize_eq _ _ _, .inl ⟨hInline.1, hInline.2, hInline.1, rfl⟩⟩, ?_⟩
        rintro - (hKeep | hLe | hNo | hNo | hNo | hNo | ⟨hNo, -⟩)
        · exact fallocSize_same (.inl hKeep)
        · exact fallocSize_same (.inr hLe)
        · exact absurd hNo hLen
        · exact absurd hNo hBig
        · exact absurd rfl hNo
        · exact absurd hNo hOk
        · exact absurd hInline hNo
      · rw [if_neg hInline]
        have hSizes : (i.promoteOn env.inode).2.size = i.size := by
          by_cases hFlag : i.inlineData = true
          · exact (promoteOn_spec env.inode h.sound.holds.sound hFlag).2
          · unfold Inode.promoteOn
            rw [if_pos (by simpa using hFlag)]
        rcases hEq : i.promoteOn env.inode with ⟨code, j⟩
        rw [hEq] at hSizes
        cases code with
        | some e => exact ⟨_, rfl, nofun, fun _ _ => hSizes⟩
        | none =>
          obtain ⟨hSize, hFlag, hHolds, hOld, hNew⟩ := promoteOn_filled env.inode h hEq
          obtain ⟨r, hRun, hInl, hDone, hFailed⟩ := fallocRange_spec hFair keepSize i.inlineData
            hHolds offset (by omega : offset + len < 2 ^ 63)
          refine ⟨r, hRun, fun hRet => ?_, fun _ hWhy => ?_⟩
          · obtain ⟨hGrown, c', hHolds', hGrows, hMapped⟩ := hDone hRet
            refine ⟨by rw [hGrown, fallocSize_eq, hSize], .inr ⟨hInl.trans hFlag, ?_⟩⟩
            have hContent := hHolds'.content
            refine ⟨by rwa [hContent], by rwa [hContent], ?_, ?_⟩
            · intro b p fl hMem
              rw [hContent]
              exact hGrows.kept b p fl (hOld _ hMem)
            · intro b p fl hMem
              rw [hContent] at hMem
              rcases hGrows.fresh b p fl hMem with hWas | hOwn | hRaced
              · exact (hNew b p fl hWas).imp id fun hBlock => .inr (.inl hBlock)
              · exact .inr (.inl hOwn)
              · exact .inr (.inr (.inr hRaced))
          · rw [← hSize]
            apply hFailed
            rcases hWhy with hKeep | hLe | hNo | hNo | hNo | hNo | ⟨-, hNo | hNo⟩
            · exact .inr (.inl hKeep)
            · exact .inr (.inr (by omega))
            · exact absurd hNo hLen
            · exact absurd hNo hBig
            · exact absurd rfl hNo
            · exact absurd hNo hOk
            · exact absurd rfl hNo
            · exact .inl hNo

end Call

/-- A call that no other task meets and nothing stops. -/
def quietFalloc : FallocEnv where
  maxBytes    := 2 ^ 62
  removePrivs := none
  newsizeOk   := none
  writeback   := none
  signal _    := false
  blind _     := false
  unreadable _ := false
  others _ _ f := f
  inode       := quietSetattr

theorem quietFalloc_fair : quietFalloc.Fair := by
  intro k held f c h hSpare
  exact ⟨c, h, hSpare, fun _ _ _ hMem => .inl hMem⟩

/-- 8192 bytes for a file of 100 bytes in the inode. -/
theorem fallocate_fills_two_blocks :
    ∃ r, fallocate quietFalloc false (smallInode newFile) 0 8192 = some r ∧ r.ret = none ∧
      r.inode.size = 8192 ∧ Preallocated quietFalloc (smallInode newFile) 0 2 r.inode.file := by
  have hRun : ∃ r, fallocate quietFalloc false (smallInode newFile) 0 8192 = some r ∧
      r.ret = none := ⟨_, rfl, rfl⟩
  obtain ⟨r, hEq, hRet⟩ := hRun
  obtain ⟨r', hEq', hDone, -⟩ := fallocate_fills quietFalloc_fair (by decide) false
    (smallInode_sound newFile_isEmpty.good rfl rfl) 0 8192
  obtain rfl : r = r' := Option.some.inj (hEq.symm.trans hEq')
  obtain ⟨hSize, hInline | ⟨-, hFilled⟩⟩ := hDone hRet
  · exact absurd hInline.2.1 (by decide)
  · exact ⟨r, hEq, hRet, hSize, hFilled⟩

/-- The block of its 100 bytes is new and not unwritten. -/
theorem fallocate_promotes_written :
    ∃ r, fallocate quietFalloc false (smallInode newFile) 0 8192 = some r ∧ r.ret = none ∧
      (∀ b, ¬ Covered (smallInode newFile).file.content b) ∧
      ∃ p, (0, p, 0) ∈ cells r.inode.file.content.exts := by
  refine ⟨_, rfl, rfl, ?_, 1192, ?_⟩
  · rintro b ⟨p, fl, hMem⟩
    exact absurd hMem List.not_mem_nil
  · decide

end Briefs.File
