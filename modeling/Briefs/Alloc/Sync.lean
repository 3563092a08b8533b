import Briefs.Alloc.Blocks
import Briefs.Journal.Format

/-!
# BrieFS — writing an allocator back

`briefs_alloc_sync` writes the blocks of levels 0 and 1 that differ from memory, the
blocks of level 2 with a dirty word, and last the free count of the pool header. Buffers
go through a batch of 64: `briefs_meta_batch_add` waits for a full one and starts the
next, and `briefs_meta_batch_wait` waits for the last. When a block cannot be read or the
last wait reports an error, every word of level 2 is marked dirty again.

A run is a list of events: allocator calls, rebuilds of the summaries, syncs with their
faults, and buffers that the kernel drops. The invariant `Pool.Tracked` says that a word
of level 2 without a mark is on the device, and that an up-to-date buffer agrees with it.

## Results

* `marks_apply` — an allocator call marks every level-2 word that it changes.
* `syncBlocks_ran` — the block loop: which blocks are read and written, and what they
  hold after it.
* `allocSync_spec` — a sync that reports its errors keeps the invariant, and when it
  returns 0 the device has the levels and the free count.
* `sync_exact_of_reported` — so in every run from a mount whose syncs all report their
  errors.
* `sync_skips_unread_header` — a header that cannot be read is not an error.
-/

namespace Briefs

open Briefs.Lib
open Briefs.Journal (Errno)

namespace Alloc

--
-- The device
--

/-- The words of a block. -/
abbrev Image := Nat → BitVec 64

/-- `s_blocksize / sizeof(u64)`. -/
def wordsPerBlock : Nat := 512

/-- `BRIEFS_META_BATCH_MAX`. -/
def metaBatchMax : Nat := 64

/-- What goes wrong during one call: blocks that cannot be read, blocks whose write fails
and what the failed write leaves of them, and the scratch memory. -/
structure Faults where
  badRead   : Nat → Bool
  badWrite  : Nat → Bool
  torn      : Nat → Image
  tornFree  : BitVec 64
  noScratch : Bool

/-- The blocks on the device, the buffers that are up to date, and the batch: the blocks
submitted since it was last waited for. -/
structure Medium where
  disk  : Nat → Image
  cache : Nat → Option Image
  bhs   : List Nat

/-- `sb_bread`: a buffer that is up to date is not read again. -/
def Medium.bread (F : Faults) (m : Medium) (blk : Nat) : Option (Image × Medium) :=
  match m.cache blk with
  | some buf => some (buf, m)
  | none =>
    if F.badRead blk then none
    else some (m.disk blk, { m with cache := Function.update m.cache blk (some (m.disk blk)) })

/-- The batch after one more buffer: a full one is waited for first, and
`briefs_meta_batch_add` does not look at the result. -/
def pushBatch (bhs : List Nat) (blk : Nat) : List Nat :=
  if bhs.length = metaBatchMax then [blk] else bhs ++ [blk]

/-- `briefs_meta_batch_add` on a dirty buffer that holds `new`. A failed write clears the
up-to-date flag of the buffer. `sb_bread` hands out mapped buffers only. -/
def Medium.submit (F : Faults) (m : Medium) (blk : Nat) (new : Image) : Medium :=
  if F.badWrite blk then
    { disk := Function.update m.disk blk (F.torn blk)
      cache := Function.update m.cache blk none
      bhs := pushBatch m.bhs blk }
  else
    { disk := Function.update m.disk blk new
      cache := Function.update m.cache blk (some new)
      bhs := pushBatch m.bhs blk }

--
-- The sync
--

/-- The block loop that the two level functions share: `job i` says what becomes of the
content of block `i` of the level, `none` if it is left alone. -/
def syncBlocks (F : Faults) (base : Nat) (job : Nat → Image → Option Image) :
    List Nat → Medium → Option Errno × Medium
  | [], m => (none, m)
  | i :: is, m =>
    match m.bread F (base + i) with
    | none => (some .eio, m)
    | some (buf, m) =>
      match job i buf with
      | none => syncBlocks F base job is m
      | some new => syncBlocks F base job is (m.submit F (base + i) new)

/-- The number of words of a level in its block `i`. -/
def wordsIn (words i : Nat) : Nat := min (words - i * wordsPerBlock) wordsPerBlock

/-- The number of blocks of a level. -/
def levelBlocks (words : Nat) : Nat := (words + wordsPerBlock - 1) / wordsPerBlock

/-- One block of `briefs_alloc_sync_level`: words that differ are stored. -/
def levelJob (array : Words) (words i : Nat) (buf : Image) : Option Image :=
  if (List.range (wordsIn words i)).any fun j => buf j != array (i * wordsPerBlock + j) then
    some fun j => if j < wordsIn words i then array (i * wordsPerBlock + j) else buf j
  else none

/-- `briefs_alloc_sync_level`. -/
def syncLevel (F : Faults) (base : Nat) (array : Words) (words : Nat) (m : Medium) :
    Option Errno × Medium :=
  syncBlocks F base (levelJob array words) (List.range (levelBlocks words)) m

/-- One block of `briefs_alloc_sync_level2_dirty`: dirty words are stored. -/
def dirtyJob (a : Alloc) (i : Nat) (buf : Image) : Option Image :=
  if (List.range (wordsIn a.l2Words i)).any fun j => a.l2Dirty (i * wordsPerBlock + j) then
    some fun j => if j < wordsIn a.l2Words i ∧ a.l2Dirty (i * wordsPerBlock + j) then
      a.l2 (i * wordsPerBlock + j) else buf j
  else none

/-- `block_dirty`, the blocks of level 2 with a dirty word. -/
def dirtyBlocks (a : Alloc) : List Nat :=
  (List.range (levelBlocks a.l2Words)).filter fun i =>
    (List.range a.l2Words).any fun w => a.l2Dirty w && decide (w / wordsPerBlock = i)

/-- The dirty map after all dirty words were copied. A word's bit is cleared when the word
is copied; a loop that a read error ends leaves more of them, but then all are set again. -/
def copiedDirty (a : Alloc) (w : Nat) : Bool := a.l2Dirty w && decide (a.l2Words ≤ w)

/-- `alloc_level_block_offset` of block 0 of a level. -/
def levelBase (a : Alloc) (start : Nat) : Fin 3 → Nat
  | 0 => start + 1
  | 1 => start + 1 + levelBlocks a.l0Words
  | 2 => start + 1 + levelBlocks a.l0Words + levelBlocks a.l1Words

/-- An allocator with its pool on the device, which begins with the header at block
`start`. Of the header only `free_count` is written. -/
structure Pool where
  alloc     : Alloc
  start     : Nat
  disk      : Nat → Image
  cache     : Nat → Option Image
  hdrFree   : BitVec 64
  hdrCached : Bool

/-- `briefs_alloc_sync_level2_dirty`: the blocks with dirty words, or all of them when there
is no scratch memory. -/
def Pool.syncLevel2 (F : Faults) (p : Pool) (m : Medium) : Option Errno × Medium :=
  let a := p.alloc
  if F.noScratch then syncLevel F (a.levelBase p.start 2) a.l2 a.l2Words m
  else syncBlocks F (a.levelBase p.start 2) a.dirtyJob a.dirtyBlocks m

/-- The three levels, as long as no block is unreadable. -/
def Pool.syncLevels (F : Faults) (p : Pool) : Option Errno × Medium :=
  let a := p.alloc
  match syncLevel F (a.levelBase p.start 0) a.l0 a.l0Words ⟨p.disk, p.cache, []⟩ with
  | (some e, m) => (some e, m)
  | (none, m) =>
    match syncLevel F (a.levelBase p.start 1) a.l1 a.l1Words m with
    | (some e, m) => (some e, m)
    | (none, m) => p.syncLevel2 F m

/-- The header part of `briefs_alloc_sync`: a header that cannot be read is passed over. -/
def Pool.syncHeader (F : Faults) (p : Pool) : Option Errno × Pool :=
  if p.hdrCached = true ∨ F.badRead p.start = false then
    if F.badWrite p.start then
      (some .eio, { p with hdrFree := F.tornFree, hdrCached := false })
    else (none, { p with hdrFree := p.alloc.freeCount, hdrCached := true })
  else (none, p)

/-- `briefs_alloc_sync`. -/
def Pool.allocSync (F : Faults) (p : Pool) : Option Errno × Pool :=
  let (ret, m) := p.syncLevels F
  let ret := if m.bhs.any F.badWrite then some (ret.getD .eio) else ret
  match ret with
  | some e =>
    (some e, { p with alloc := { p.alloc with l2Dirty := fun _ => true },
                      disk := m.disk, cache := m.cache })
  | none =>
    let dirty := if F.noScratch then p.alloc.l2Dirty else p.alloc.copiedDirty
    Pool.syncHeader F
      { p with alloc := { p.alloc with l2Dirty := dirty }, disk := m.disk, cache := m.cache }

/-- What happens to an allocator: a call, a rebuild of the summaries, a sync, or buffers
that the kernel drops. -/
inductive Event where
  | call (op : Op)
  | recompute
  | sync (F : Faults)
  | evict (gone : Nat → Bool)

def Pool.step (p : Pool) : Event → Pool
  | .call op => { p with alloc := op.apply p.alloc }
  | .recompute => { p with alloc := p.alloc.recomputeSummaries }
  | .sync F => (p.allocSync F).2
  | .evict gone =>
    { p with cache := fun blk => if gone blk then none else p.cache blk
             hdrCached := p.hdrCached && !gone p.start }

--
-- What a sync is for
--

/-- A word of a level as it is on the device. -/
def diskWord (disk : Nat → Image) (base w : Nat) : BitVec 64 :=
  disk (base + w / wordsPerBlock) (w % wordsPerBlock)

/-- The device has the words of the three levels and the free count. -/
structure Pool.Synced (p : Pool) : Prop where
  l0 : ∀ w < p.alloc.l0Words, diskWord p.disk (p.alloc.levelBase p.start 0) w = p.alloc.l0 w
  l1 : ∀ w < p.alloc.l1Words, diskWord p.disk (p.alloc.levelBase p.start 1) w = p.alloc.l1 w
  l2 : ∀ w < p.alloc.l2Words, diskWord p.disk (p.alloc.levelBase p.start 2) w = p.alloc.l2 w
  freeCount : p.hdrFree = p.alloc.freeCount

/-- An up-to-date buffer has what is on the device. -/
def Coherent (disk : Nat → Image) (cache : Nat → Option Image) : Prop :=
  ∀ blk buf, cache blk = some buf → buf = disk blk

/-- The invariant between calls: buffers are coherent, and words that are not marked are
on the device. -/
structure Pool.Tracked (p : Pool) : Prop where
  coherent : Coherent p.disk p.cache
  clean    : ∀ w < p.alloc.l2Words, p.alloc.l2Dirty w = false →
    diskWord p.disk (p.alloc.levelBase p.start 2) w = p.alloc.l2 w

/-- What `briefs_alloc_init_at` leaves: the words of level 2 were read from the device, the
map was empty, and then block 0 was reserved. -/
def Pool.Mounted (p : Pool) : Prop :=
  Coherent p.disk p.cache ∧
    ∃ a : Alloc, (∀ w, a.l2Dirty w = false) ∧
      (∀ w < a.l2Words, diskWord p.disk (a.levelBase p.start 2) w = a.l2 w) ∧
      p.alloc = if 0 < a.blockCount then a.reserveBlock 0 else a

--
-- When a sync reports its errors
--

/-- The blocks of a level that are submitted, in their order. -/
def planned (base : Nat) (job : Nat → Image → Option Image) (disk : Nat → Image)
    (is : List Nat) : List Nat :=
  (is.filter fun i => (job i (disk (base + i))).isSome).map (base + ·)

/-- The job of level 2 and its blocks. -/
def Pool.job2 (F : Faults) (p : Pool) : Nat → Image → Option Image :=
  if F.noScratch then levelJob p.alloc.l2 p.alloc.l2Words else p.alloc.dirtyJob

def Pool.blocks2 (F : Faults) (p : Pool) : List Nat :=
  if F.noScratch then List.range (levelBlocks p.alloc.l2Words) else p.alloc.dirtyBlocks

/-- The blocks that a sync reads. -/
def Pool.toRead (F : Faults) (p : Pool) : List Nat :=
  (List.range (levelBlocks p.alloc.l0Words)).map (p.alloc.levelBase p.start 0 + ·) ++
    (List.range (levelBlocks p.alloc.l1Words)).map (p.alloc.levelBase p.start 1 + ·) ++
    (p.blocks2 F).map (p.alloc.levelBase p.start 2 + ·)

/-- The blocks that a sync writes: those of levels 0 and 1 that differ from memory, and
those of level 2 with a dirty word. -/
def Pool.toWrite (F : Faults) (p : Pool) : List Nat :=
  planned (p.alloc.levelBase p.start 0) (levelJob p.alloc.l0 p.alloc.l0Words) p.disk
      (List.range (levelBlocks p.alloc.l0Words)) ++
    planned (p.alloc.levelBase p.start 1) (levelJob p.alloc.l1 p.alloc.l1Words) p.disk
      (List.range (levelBlocks p.alloc.l1Words)) ++
    planned (p.alloc.levelBase p.start 2) (p.job2 F) p.disk (p.blocks2 F)

/-- How many of `n` submitted buffers are waited for inside `briefs_meta_batch_add`. -/
def drained (n : Nat) : Nat := (n - 1) / metaBatchMax * metaBatchMax

/-- The sync reports its errors: a block cannot be read, or a write of the last batch
fails, or else no write of an earlier batch fails and the header can be read. -/
def Pool.Reported (F : Faults) (p : Pool) : Prop :=
  (∃ blk ∈ p.toRead F, p.cache blk = none ∧ F.badRead blk = true) ∨
    (∃ blk ∈ (p.toWrite F).drop (drained (p.toWrite F).length), F.badWrite blk = true) ∨
    ((∀ blk ∈ (p.toWrite F).take (drained (p.toWrite F).length), F.badWrite blk = false) ∧
      (p.hdrCached = true ∨ F.badRead p.start = false))

--
-- The dirty-word map
--

/-- From `a` to `b` every level-2 word that changed is marked dirty, and no mark is
lost. -/
structure Marks (a b : Alloc) : Prop where
  l0Words : b.l0Words = a.l0Words
  l1Words : b.l1Words = a.l1Words
  l2Words : b.l2Words = a.l2Words
  changed : ∀ w, b.l2 w = a.l2 w ∨ b.l2Dirty w = true
  kept    : ∀ w, a.l2Dirty w = true → b.l2Dirty w = true

theorem Marks.refl (a : Alloc) : Marks a a := ⟨rfl, rfl, rfl, fun _ => Or.inl rfl, fun _ h => h⟩

theorem Marks.trans {a b c : Alloc} (hab : Marks a b) (hbc : Marks b c) : Marks a c := by
  refine ⟨hbc.l0Words.trans hab.l0Words, hbc.l1Words.trans hab.l1Words,
    hbc.l2Words.trans hab.l2Words, ?_, fun w hw => hbc.kept w (hab.kept w hw)⟩
  intro w
  rcases hbc.changed w with hSame | hDirty
  · rcases hab.changed w with hSame' | hDirty'
    · exact Or.inl (hSame.trans hSame')
    · exact Or.inr (hbc.kept w hDirty')
  · exact Or.inr hDirty

/-- Steps that change neither level 2 nor the map. -/
theorem Marks.of_same {a b : Alloc} (hShape : SameShape a b) (hL2 : b.l2 = a.l2)
    (hDirty : b.l2Dirty = a.l2Dirty) : Marks a b := by
  refine ⟨hShape.l0Words, hShape.l1Words, hShape.l2Words, fun w => Or.inl (by rw [hL2]), ?_⟩
  intro w hw
  rw [hDirty]
  exact hw

/-- One word changes and is marked. -/
theorem Marks.of_word {a b : Alloc} (hShape : SameShape a b) (w2 : Nat)
    (hL2 : ∀ w, w ≠ w2 → b.l2 w = a.l2 w) (hDirty : b.l2Dirty = Function.update a.l2Dirty w2 true) :
    Marks a b := by
  refine ⟨hShape.l0Words, hShape.l1Words, hShape.l2Words, ?_, ?_⟩
  · intro w
    by_cases hw : w = w2
    · refine Or.inr ?_
      rw [hDirty, hw, Function.update_self]
    · exact Or.inl (hL2 w hw)
  · intro w hMarked
    rw [hDirty]
    by_cases hw : w = w2
    · rw [hw, Function.update_self]
    · rw [Function.update_of_ne hw]
      exact hMarked

theorem marks_propagateL2Zero (a : Alloc) (w2 : Nat) : Marks a (a.propagateL2Zero w2) := by
  refine Marks.of_same (sameShape_propagateL2Zero a w2) (l2_propagateL2Zero a w2) ?_
  unfold propagateL2Zero
  dsimp only
  split <;> rfl

theorem marks_propagateL2Nonzero (a : Alloc) (w2 : Nat) : Marks a (a.propagateL2Nonzero w2) := by
  refine Marks.of_same (sameShape_propagateL2Nonzero a w2) (l2_propagateL2Nonzero a w2) ?_
  unfold propagateL2Nonzero
  dsimp only
  split <;> rfl

theorem marks_takeBit (a : Alloc) (w2 b2 : Nat) : Marks a (a.takeBit w2 b2) := by
  unfold takeBit
  dsimp only
  split
  · refine Marks.trans ?_ (marks_propagateL2Zero _ _)
    exact Marks.of_word ⟨rfl, rfl, rfl, rfl, rfl⟩ w2 (fun w hw => Function.update_of_ne hw _ _) rfl
  · exact Marks.of_word ⟨rfl, rfl, rfl, rfl, rfl⟩ w2 (fun w hw => Function.update_of_ne hw _ _) rfl

theorem marks_reserveBlock (a : Alloc) (rel : Nat) : Marks a (a.reserveBlock rel) := by
  unfold reserveBlock
  split
  · exact Marks.refl a
  · split
    · exact marks_takeBit a _ _
    · exact Marks.refl a

theorem marks_freeBlock (a : Alloc) (rel : Nat) : Marks a (a.freeBlock rel) := by
  unfold freeBlock
  split
  · exact Marks.refl a
  · split
    · exact Marks.refl a
    · dsimp only
      split
      · refine Marks.trans ?_ (marks_propagateL2Nonzero _ _)
        exact Marks.of_word ⟨rfl, rfl, rfl, rfl, rfl⟩ (rel / 64)
          (fun w hw => Function.update_of_ne hw _ _) rfl
      · exact Marks.of_word ⟨rfl, rfl, rfl, rfl, rfl⟩ (rel / 64)
          (fun w hw => Function.update_of_ne hw _ _) rfl

theorem marks_freeWord (a : Alloc) (relStart stop w2 : Nat) :
    Marks a (a.freeWord relStart stop w2) := by
  unfold freeWord
  dsimp only
  split
  · refine Marks.trans ?_ (marks_propagateL2Nonzero _ _)
    exact Marks.of_word ⟨rfl, rfl, rfl, rfl, rfl⟩ w2 (fun w hw => Function.update_of_ne hw _ _) rfl
  · exact Marks.of_word ⟨rfl, rfl, rfl, rfl, rfl⟩ w2
      (fun w hw => Function.update_of_ne hw _ _) rfl

/-- A loop of marking steps. -/
theorem marks_foldl {f : Alloc → Nat → Alloc} (hf : ∀ a n, Marks a (f a n)) :
    ∀ (l : List Nat) (a : Alloc), Marks a (l.foldl f a)
  | [], a => Marks.refl a
  | n :: l, a => (hf a n).trans (marks_foldl hf l (f a n))

theorem marks_freeBlocks (a : Alloc) (relStart n : Nat) : Marks a (a.freeBlocks relStart n) := by
  unfold freeBlocks
  split
  · exact Marks.refl a
  · exact marks_foldl (fun a w2 => marks_freeWord a _ _ w2) _ a

theorem marks_scanHigh (a : Alloc) : ∀ w2, Marks a (a.scanHigh w2).2
  | 0 => Marks.of_same ⟨rfl, rfl, rfl, rfl, rfl⟩ rfl rfl
  | w2 + 1 => by
    unfold scanHigh
    split
    · exact marks_scanHigh a w2
    · exact (marks_takeBit a _ _).trans (Marks.of_same ⟨rfl, rfl, rfl, rfl, rfl⟩ rfl rfl)

theorem marks_scanPyramid : ∀ (n i : Nat) (a : Alloc), Marks a (a.scanPyramid n i).2
  | 0, _, a => Marks.refl a
  | n + 1, i, a => by
    unfold scanPyramid
    dsimp only
    split
    · exact marks_scanPyramid n _ a
    · split
      · exact Marks.refl a
      · split
        · refine Marks.trans ?_ (marks_scanPyramid n _ _)
          exact Marks.of_same ⟨rfl, rfl, rfl, rfl, rfl⟩ rfl rfl
        · split
          · exact Marks.refl a
          · split
            · exact (marks_propagateL2Zero a _).trans (marks_scanPyramid n _ _)
            · split
              · exact Marks.refl a
              · exact (marks_takeBit a _ _).trans (Marks.of_same ⟨rfl, rfl, rfl, rfl, rfl⟩ rfl rfl)

/-- Block 0 is reserved first. -/
theorem marks_reserveZero (a : Alloc) : Marks a (if a.isFree 0 then a.takeBit 0 0 else a) := by
  split
  · exact marks_takeBit a 0 0
  · exact Marks.refl a

theorem marks_allocBlockFrom (a : Alloc) (avail : BitVec 64) :
    Marks a (a.allocBlockFrom avail).2 := by
  unfold allocBlockFrom
  split
  · exact Marks.refl a
  · exact (marks_reserveZero a).trans (marks_scanPyramid _ _ _)

theorem marks_allocBlockHigh (a : Alloc) : Marks a a.allocBlockHigh.2 := by
  unfold allocBlockHigh
  split
  · exact Marks.refl a
  · exact marks_scanHigh a _

theorem marks_scanRuns (n : Nat) : ∀ (left w2 runStart runLen : Nat) (a : Alloc),
    Marks a (a.scanRuns n left w2 runStart runLen).2
  | 0, _, _, _, a => Marks.refl a
  | left + 1, w2, runStart, runLen, a => by
    unfold scanRuns
    split
    · refine Marks.trans ?_ (marks_scanRuns n left _ _ _ _)
      exact Marks.of_same ⟨rfl, rfl, rfl, rfl, rfl⟩ rfl rfl
    · cases walkWord n (w2 * 64) 64 (a.scanWord w2) runStart runLen with
      | found s => exact Marks.refl a
      | more s len => exact marks_scanRuns n left _ _ _ a

theorem clearRun_of_ne (m : Words) (s n : Nat) {w : Nat}
    (hw : ∀ i < n, w ≠ (s + i) / 64) : clearRun m s n w = m w := by
  induction n with
  | zero => rfl
  | succ n ih =>
    unfold clearRun at ih ⊢
    rw [List.range_succ, List.foldl_append, List.foldl_cons, List.foldl_nil]
    have hNe := hw n (by omega)
    unfold Words.clear
    rw [Function.update_of_ne hNe]
    exact ih fun i hi => hw i (by omega)

/-- Marking the words of a list. -/
theorem l2Dirty_foldl_markL2Dirty : ∀ (l : List Nat) (a : Alloc) (w : Nat),
    (l.foldl markL2Dirty a).l2Dirty w = (a.l2Dirty w || decide (w ∈ l))
  | [], a, w => by simp
  | x :: l, a, w => by
    rw [List.foldl_cons, l2Dirty_foldl_markL2Dirty l]
    unfold markL2Dirty
    by_cases hw : w = x
    · subst hw
      simp
    · simp [hw]

theorem same_foldl_markL2Dirty : ∀ (l : List Nat) (a : Alloc),
    SameShape a (l.foldl markL2Dirty a) ∧ (l.foldl markL2Dirty a).l2 = a.l2
  | [], a => ⟨SameShape.refl a, rfl⟩
  | x :: l, a => by
    rw [List.foldl_cons]
    obtain ⟨hShape, hL2⟩ := same_foldl_markL2Dirty l (a.markL2Dirty x)
    refine ⟨SameShape.trans ?_ hShape, hL2⟩
    exact ⟨rfl, rfl, rfl, rfl, rfl⟩

theorem marks_takeRun (a : Alloc) (runStart n : Nat) : Marks a (a.takeRun runStart n) := by
  unfold takeRun
  dsimp only
  generalize hWords : List.range' (runStart / 64) ((runStart + n - 1) / 64 + 1 - runStart / 64) =
    words
  generalize hBase : ({ a with
    l2 := clearRun a.l2 runStart n
    freeCount := a.freeCount - BitVec.ofNat 64 n } : Alloc) = c
  obtain ⟨hShape, hL2⟩ := same_foldl_markL2Dirty words c
  have hMark : Marks a (words.foldl markL2Dirty c) := by
    subst hBase
    refine ⟨hShape.l0Words, hShape.l1Words, hShape.l2Words, ?_, ?_⟩
    · intro w
      by_cases hw : w ∈ words
      · refine Or.inr ?_
        rw [l2Dirty_foldl_markL2Dirty]
        simp [hw]
      · refine Or.inl ?_
        rw [hL2]
        refine clearRun_of_ne a.l2 runStart n ?_
        rintro i hi rfl
        refine hw ?_
        rw [← hWords, List.mem_range'_1]
        omega
    · intro w hDirty
      rw [l2Dirty_foldl_markL2Dirty]
      simp [hDirty]
  have hZeros : ∀ b : Alloc, Marks b (b.propagateZeros words) := by
    intro b
    unfold propagateZeros
    refine marks_foldl (fun b w2 => ?_) words b
    split
    · exact marks_propagateL2Zero b w2
    · exact Marks.refl b
  exact (hMark.trans (hZeros _)).trans (Marks.of_same ⟨rfl, rfl, rfl, rfl, rfl⟩ rfl rfl)

theorem marks_allocBlocks (a : Alloc) (n : Nat) : Marks a (a.allocBlocks n).2 := by
  unfold allocBlocks
  split
  · exact Marks.refl a
  · split
    · exact Marks.refl a
    · dsimp only
      have hScan := marks_scanRuns n
        ((if a.isFree 0 then a.takeBit 0 0 else a).l2Words -
          (if a.isFree 0 then a.takeBit 0 0 else a).firstFreeW2)
        (if a.isFree 0 then a.takeBit 0 0 else a).firstFreeW2 0 0
        (if a.isFree 0 then a.takeBit 0 0 else a)
      generalize Alloc.scanRuns _ n _ _ 0 0 = r at hScan ⊢
      obtain ⟨found, b⟩ := r
      cases found with
      | none => exact (marks_reserveZero a).trans hScan
      | some s => exact ((marks_reserveZero a).trans hScan).trans (marks_takeRun b s n)

/-- Every call marks what it changes. -/
theorem marks_apply (a : Alloc) : ∀ op : Op, Marks a (op.apply a)
  | .allocBlock => marks_allocBlockFrom a _
  | .allocBlockMeta => marks_allocBlockFrom a _
  | .allocBlockHigh => marks_allocBlockHigh a
  | .allocBlocks n => marks_allocBlocks a n
  | .reserveBlock rel => marks_reserveBlock a rel
  | .freeBlock rel => marks_freeBlock a rel
  | .freeBlocks relStart n => marks_freeBlocks a relStart n

--
-- One loop over blocks
--

variable {F : Faults} {base : Nat} {job : Nat → Image → Option Image}

/-- What `sb_bread` finds on a coherent medium. -/
structure BreadOk (F : Faults) (m : Medium) (blk : Nat) (buf : Image) (m' : Medium) : Prop where
  buf      : buf = m.disk blk
  disk     : m'.disk = m.disk
  bhs      : m'.bhs = m.bhs
  coherent : Coherent m'.disk m'.cache
  others   : ∀ b, b ≠ blk → m'.cache b = m.cache b
  readable : m.cache blk ≠ none ∨ F.badRead blk = false

theorem bread_ok {m m' : Medium} {blk : Nat} {buf : Image} (hCoh : Coherent m.disk m.cache)
    (h : m.bread F blk = some (buf, m')) : BreadOk F m blk buf m' := by
  unfold Medium.bread at h
  cases hCached : m.cache blk with
  | some c =>
    rw [hCached] at h
    cases h
    exact ⟨hCoh blk _ hCached, rfl, rfl, hCoh, fun _ _ => rfl, Or.inl (by simp [hCached])⟩
  | none =>
    rw [hCached] at h
    simp only at h
    split at h
    · cases h
    · rename_i hRead
      cases h
      refine ⟨rfl, rfl, rfl, ?_, fun b hb => Function.update_of_ne hb _ _,
        Or.inr (by simpa using hRead)⟩
      intro b c hc
      simp only at hc ⊢
      by_cases hb : b = blk
      · subst hb
        rw [Function.update_self] at hc
        cases hc
        rfl
      · rw [Function.update_of_ne hb] at hc
        exact hCoh b c hc

/-- What a submitted buffer becomes on the device. -/
def written (F : Faults) (blk : Nat) (r : Option Image) (old : Image) : Image :=
  match r with
  | none => old
  | some new => if F.badWrite blk then F.torn blk else new

theorem coherent_submit {m : Medium} (hCoh : Coherent m.disk m.cache) (blk : Nat) (new : Image) :
    Coherent (m.submit F blk new).disk (m.submit F blk new).cache := by
  unfold Medium.submit
  split <;> intro b c hc
  · by_cases hb : b = blk
    · subst hb
      simp at hc
    · simp only [Function.update_of_ne hb] at hc ⊢
      exact hCoh b c hc
  · by_cases hb : b = blk
    · subst hb
      simp only [Function.update_self, Option.some.injEq] at hc ⊢
      exact hc.symm
    · simp only [Function.update_of_ne hb] at hc ⊢
      exact hCoh b c hc

theorem submit_others {m : Medium} {blk b : Nat} (hb : b ≠ blk) (new : Image) :
    (m.submit F blk new).disk b = m.disk b ∧ (m.submit F blk new).cache b = m.cache b := by
  unfold Medium.submit
  split
  · exact ⟨Function.update_of_ne hb _ _, Function.update_of_ne hb _ _⟩
  · exact ⟨Function.update_of_ne hb _ _, Function.update_of_ne hb _ _⟩

theorem submit_disk (m : Medium) (blk : Nat) (new : Image) :
    (m.submit F blk new).disk blk = written F blk (some new) (m.disk blk) := by
  unfold Medium.submit written
  dsimp only
  split
  · exact Function.update_self _ _ _
  · exact Function.update_self _ _ _

theorem submit_bhs (m : Medium) (blk : Nat) (new : Image) :
    (m.submit F blk new).bhs = pushBatch m.bhs blk := by
  unfold Medium.submit
  split <;> rfl

/-- A loop over different blocks that read them all. -/
structure Ran (F : Faults) (base : Nat) (job : Nat → Image → Option Image) (is : List Nat)
    (m m' : Medium) : Prop where
  coherent : Coherent m'.disk m'.cache
  frame    : ∀ blk, (∀ i ∈ is, blk ≠ base + i) →
    m'.disk blk = m.disk blk ∧ m'.cache blk = m.cache blk
  block    : ∀ i ∈ is, m'.disk (base + i) =
    written F (base + i) (job i (m.disk (base + i))) (m.disk (base + i))
  readable : ∀ i ∈ is, m.cache (base + i) ≠ none ∨ F.badRead (base + i) = false
  bhs      : m'.bhs = (planned base job m.disk is).foldl pushBatch m.bhs

theorem planned_congr {disk disk' : Nat → Image} {is : List Nat}
    (h : ∀ i ∈ is, disk' (base + i) = disk (base + i)) :
    planned base job disk' is = planned base job disk is := by
  unfold planned
  congr 1
  refine List.filter_congr ?_
  intro i hi
  rw [h i hi]

/-- The first block of the loop, then the others. -/
theorem Ran.cons {i : Nat} {is : List Nat} {m m1 m2 m' : Medium} {buf : Image}
    (hBread : BreadOk F m (base + i) buf m1) (hi : i ∉ is)
    (hDisk : m2.disk (base + i) = written F (base + i) (job i buf) buf)
    (hOthers : ∀ b, b ≠ base + i → m2.disk b = m1.disk b ∧ m2.cache b = m1.cache b)
    (hBhs : m2.bhs = if (job i buf).isSome then pushBatch m1.bhs (base + i) else m1.bhs)
    (hRest : Ran F base job is m2 m') : Ran F base job (i :: is) m m' := by
  have hApart : ∀ k ∈ is, base + k ≠ base + i := by
    intro k hk hEq
    have hSame : k = i := by omega
    exact hi (hSame ▸ hk)
  have hDiskOthers : ∀ b, b ≠ base + i → m2.disk b = m.disk b := by
    intro b hb
    rw [(hOthers b hb).1, hBread.disk]
  have hCacheOthers : ∀ b, b ≠ base + i → m2.cache b = m.cache b := by
    intro b hb
    rw [(hOthers b hb).2, hBread.others b hb]
  refine ⟨hRest.coherent, ?_, ?_, ?_, ?_⟩
  · intro blk hNe
    have hNot := hNe i List.mem_cons_self
    obtain ⟨hd, hc⟩ := hRest.frame blk fun k hk => hNe k (List.mem_cons_of_mem _ hk)
    exact ⟨hd.trans (hDiskOthers blk hNot), hc.trans (hCacheOthers blk hNot)⟩
  · intro k hk
    rcases List.mem_cons.mp hk with rfl | hk'
    · rw [(hRest.frame (base + k) fun k' hk' => (hApart k' hk').symm).1, hDisk, hBread.buf]
    · rw [hRest.block k hk', hDiskOthers _ (hApart k hk')]
  · intro k hk
    rcases List.mem_cons.mp hk with rfl | hk'
    · exact hBread.readable
    · have hRead := hRest.readable k hk'
      rwa [hCacheOthers _ (hApart k hk')] at hRead
  · rw [hRest.bhs, hBhs, hBread.bhs, planned_congr fun k hk => hDiskOthers _ (hApart k hk)]
    have hHead : planned base job m.disk (i :: is) =
        (if (job i buf).isSome then [base + i] else []) ++ planned base job m.disk is := by
      unfold planned
      rw [List.filter_cons, ← hBread.buf]
      by_cases hSome : (job i buf).isSome = true
      · simp [hSome]
      · simp [hSome]
    rw [hHead]
    by_cases hSome : (job i buf).isSome = true
    · simp [hSome]
    · simp [hSome]

theorem syncBlocks_ran : ∀ (is : List Nat) (m : Medium), Coherent m.disk m.cache → is.Nodup →
    (syncBlocks F base job is m).1 = none →
    Ran F base job is m (syncBlocks F base job is m).2
  | [], m, hCoh, _, _ =>
    ⟨hCoh, fun _ _ => ⟨rfl, rfl⟩, fun i hi => absurd hi List.not_mem_nil,
      fun i hi => absurd hi List.not_mem_nil, rfl⟩
  | i :: is, m, hCoh, hNodup, hRet => by
    obtain ⟨hi, hNodup'⟩ := List.nodup_cons.mp hNodup
    unfold syncBlocks at hRet ⊢
    cases hRead : m.bread F (base + i) with
    | none =>
      rw [hRead] at hRet
      cases hRet
    | some r =>
      obtain ⟨buf, m1⟩ := r
      have hBread := bread_ok hCoh hRead
      rw [hRead] at hRet
      simp only at hRet ⊢
      cases hJob : job i buf with
      | none =>
        rw [hJob] at hRet
        exact Ran.cons hBread hi (by rw [hJob, hBread.disk, hBread.buf]; rfl)
          (fun _ _ => ⟨rfl, rfl⟩) (by rw [hJob]; rfl)
          (syncBlocks_ran is m1 hBread.coherent hNodup' hRet)
      | some new =>
        rw [hJob] at hRet
        refine Ran.cons hBread hi ?_ (fun b hb => submit_others hb new)
          (by rw [hJob, submit_bhs]; rfl)
          (syncBlocks_ran is _ (coherent_submit hBread.coherent _ _) hNodup' hRet)
        rw [hJob, submit_disk]
        rfl

/-- The buffers stay coherent in a loop that fails, too. -/
theorem syncBlocks_coherent : ∀ (is : List Nat) (m : Medium), Coherent m.disk m.cache →
    Coherent (syncBlocks F base job is m).2.disk (syncBlocks F base job is m).2.cache
  | [], m, hCoh => hCoh
  | i :: is, m, hCoh => by
    unfold syncBlocks
    cases hRead : m.bread F (base + i) with
    | none => exact hCoh
    | some r =>
      obtain ⟨buf, m1⟩ := r
      have hBread := bread_ok hCoh hRead
      simp only
      cases hJob : job i buf with
      | none => exact syncBlocks_coherent is m1 hBread.coherent
      | some new => exact syncBlocks_coherent is _ (coherent_submit hBread.coherent _ _)

/-- The batch holds the buffers submitted after the last drain. -/
theorem foldl_pushBatch (l : List Nat) : l.foldl pushBatch [] = l.drop (drained l.length) := by
  induction l using List.reverseRecOn with
  | nil => rfl
  | append_singleton l x ih =>
    rw [List.foldl_append, List.foldl_cons, List.foldl_nil, ih]
    unfold pushBatch
    rw [List.length_drop, List.length_append, List.length_singleton]
    have hStep : drained (l.length + 1) = l.length / 64 * 64 := by
      unfold drained metaBatchMax
      rw [Nat.add_sub_cancel]
    have hHere : drained l.length = (l.length - 1) / 64 * 64 := rfl
    have hMax : metaBatchMax = 64 := rfl
    rw [hStep, hHere, hMax]
    split
    · rename_i hFull
      rw [show l.length / 64 * 64 = l.length by omega, List.drop_left]
    · rename_i hRoom
      rw [show l.length / 64 * 64 = (l.length - 1) / 64 * 64 by omega,
        List.drop_append_of_le_length (by omega)]

--
-- One level
--

theorem block_lt {words w : Nat} (hw : w < words) : w / wordsPerBlock < levelBlocks words := by
  unfold levelBlocks wordsPerBlock
  omega

theorem word_lt {words w : Nat} (hw : w < words) :
    w % wordsPerBlock < wordsIn words (w / wordsPerBlock) := by
  unfold wordsIn wordsPerBlock
  omega

theorem word_eq (w : Nat) : w / wordsPerBlock * wordsPerBlock + w % wordsPerBlock = w := by
  unfold wordsPerBlock
  omega

/-- The plan of a loop whose writes succeed. -/
theorem written_of_planned {is : List Nat} {disk : Nat → Image} {i : Nat} {new : Image}
    (hGood : ∀ blk ∈ planned base job disk is, F.badWrite blk = false) (hi : i ∈ is)
    (hJob : job i (disk (base + i)) = some new) (old : Image) :
    written F (base + i) (some new) old = new := by
  have hMem : base + i ∈ planned base job disk is := by
    refine List.mem_map.mpr ⟨i, List.mem_filter.mpr ⟨hi, ?_⟩, rfl⟩
    rw [hJob]
    rfl
  unfold written
  simp [hGood _ hMem]

/-- `briefs_alloc_sync_level` without failed writes puts the level on the device. -/
theorem syncLevel_words {array : Words} {words : Nat} {m m' : Medium}
    (hRan : Ran F base (levelJob array words) (List.range (levelBlocks words)) m m')
    (hGood : ∀ blk ∈ planned base (levelJob array words) m.disk (List.range (levelBlocks words)),
      F.badWrite blk = false) {w : Nat} (hw : w < words) :
    diskWord m'.disk base w = array w := by
  have hi : w / wordsPerBlock ∈ List.range (levelBlocks words) := List.mem_range.mpr (block_lt hw)
  have hj := word_lt hw
  unfold diskWord
  rw [hRan.block _ hi]
  cases hJob : levelJob array words (w / wordsPerBlock) (m.disk (base + w / wordsPerBlock)) with
  | none =>
    unfold levelJob at hJob
    split at hJob
    · cases hJob
    · rename_i hSame
      rw [List.any_eq_true] at hSame
      by_contra hNe
      refine hSame ⟨w % wordsPerBlock, List.mem_range.mpr hj, ?_⟩
      rw [word_eq]
      simpa [written] using hNe
  | some new =>
    rw [written_of_planned hGood hi hJob]
    unfold levelJob at hJob
    split at hJob
    · cases hJob
      show (if w % wordsPerBlock < _ then _ else _) = _
      rw [if_pos hj, word_eq]
    · cases hJob

theorem mem_dirtyBlocks {a : Alloc} {w : Nat} (hw : w < a.l2Words) (hDirty : a.l2Dirty w = true) :
    w / wordsPerBlock ∈ a.dirtyBlocks := by
  refine List.mem_filter.mpr ⟨List.mem_range.mpr (block_lt hw), ?_⟩
  refine List.any_eq_true.mpr ⟨w, List.mem_range.mpr hw, ?_⟩
  simp [hDirty]

theorem nodup_dirtyBlocks (a : Alloc) : a.dirtyBlocks.Nodup := List.nodup_range.filter _

/-- `briefs_alloc_sync_level2_dirty` without failed writes puts level 2 on the device, when
the words that are not marked were there. -/
theorem syncDirty_words {a : Alloc} {m m' : Medium}
    (hRan : Ran F base a.dirtyJob a.dirtyBlocks m m')
    (hGood : ∀ blk ∈ planned base a.dirtyJob m.disk a.dirtyBlocks, F.badWrite blk = false)
    (hClean : ∀ w < a.l2Words, a.l2Dirty w = false → diskWord m.disk base w = a.l2 w)
    {w : Nat} (hw : w < a.l2Words) : diskWord m'.disk base w = a.l2 w := by
  by_cases hi : w / wordsPerBlock ∈ a.dirtyBlocks
  · unfold diskWord
    rw [hRan.block _ hi]
    cases hJob : a.dirtyJob (w / wordsPerBlock) (m.disk (base + w / wordsPerBlock)) with
    | none =>
      unfold dirtyJob at hJob
      split at hJob
      · cases hJob
      · rename_i hNone
        have hNot : a.l2Dirty w = false := by
          by_contra hSet
          refine hNone (List.any_eq_true.mpr ⟨w % wordsPerBlock, List.mem_range.mpr (word_lt hw), ?_⟩)
          rw [word_eq]
          simpa using hSet
        exact hClean w hw hNot
    | some new =>
      rw [written_of_planned hGood hi hJob]
      unfold dirtyJob at hJob
      split at hJob
      · cases hJob
        show (if w % wordsPerBlock < _ ∧ _ then _ else _) = _
        rw [word_eq]
        by_cases hDirty : a.l2Dirty w = true
        · rw [if_pos ⟨word_lt hw, hDirty⟩]
        · rw [if_neg (fun h => hDirty h.2)]
          exact hClean w hw (by simpa using hDirty)
      · cases hJob
  · have hNot : a.l2Dirty w = false := by
      by_contra hSet
      exact hi (mem_dirtyBlocks hw (by simpa using hSet))
    have hFrame := (hRan.frame (base + w / wordsPerBlock) (fun i hMem hEq => by
      have hSame : i = w / wordsPerBlock := by omega
      exact hi (hSame ▸ hMem))).1
    unfold diskWord
    rw [hFrame]
    exact hClean w hw hNot

--
-- The three levels
--

/-- A loop over blocks of one level leaves the words of another as they are. -/
theorem Ran.diskWord_eq {is : List Nat} {m m' : Medium} (hRan : Ran F base job is m m')
    {base' words w : Nat} (hw : w < words)
    (hApart : ∀ i ∈ is, ∀ k < levelBlocks words, base' + k ≠ base + i) :
    diskWord m'.disk base' w = diskWord m.disk base' w := by
  unfold diskWord
  rw [(hRan.frame (base' + w / wordsPerBlock) fun i hi => hApart i hi _ (block_lt hw)).1]

/-- What the three loops do when all blocks can be read. -/
structure LevelsRan (F : Faults) (p : Pool) (m : Medium) : Prop where
  coherent : Coherent m.disk m.cache
  readable : ∀ blk ∈ p.toRead F, p.cache blk ≠ none ∨ F.badRead blk = false
  bhs      : m.bhs = (p.toWrite F).drop (drained (p.toWrite F).length)
  l0 : (∀ blk ∈ p.toWrite F, F.badWrite blk = false) → ∀ w < p.alloc.l0Words,
    diskWord m.disk (p.alloc.levelBase p.start 0) w = p.alloc.l0 w
  l1 : (∀ blk ∈ p.toWrite F, F.badWrite blk = false) → ∀ w < p.alloc.l1Words,
    diskWord m.disk (p.alloc.levelBase p.start 1) w = p.alloc.l1 w
  l2 : (∀ blk ∈ p.toWrite F, F.badWrite blk = false) → p.Tracked → ∀ w < p.alloc.l2Words,
    diskWord m.disk (p.alloc.levelBase p.start 2) w = p.alloc.l2 w

variable {p : Pool}

theorem nodup_blocks2 : (p.blocks2 F).Nodup := by
  unfold Pool.blocks2
  split
  · exact List.nodup_range
  · exact nodup_dirtyBlocks _

/-- Level 2 after its loop, whichever of the two it was. -/
theorem syncLevel2_words {m m' : Medium} (hRan : Ran F base (p.job2 F) (p.blocks2 F) m m')
    (hGood : ∀ blk ∈ planned base (p.job2 F) m.disk (p.blocks2 F), F.badWrite blk = false)
    (hClean : ∀ w < p.alloc.l2Words, p.alloc.l2Dirty w = false →
      diskWord m.disk base w = p.alloc.l2 w) {w : Nat} (hw : w < p.alloc.l2Words) :
    diskWord m'.disk base w = p.alloc.l2 w := by
  unfold Pool.job2 Pool.blocks2 at hRan hGood
  by_cases hScratch : F.noScratch = true
  · simp only [hScratch, if_true] at hRan hGood
    exact syncLevel_words hRan hGood hw
  · simp only [hScratch] at hRan hGood
    exact syncDirty_words hRan hGood hClean hw

theorem syncLevel2_eq (F : Faults) (p : Pool) (m : Medium) : p.syncLevel2 F m =
    syncBlocks F (p.alloc.levelBase p.start 2) (p.job2 F) (p.blocks2 F) m := by
  unfold Pool.syncLevel2 Pool.job2 Pool.blocks2
  by_cases hScratch : F.noScratch = true
  · simp only [hScratch, if_true]
    rfl
  · simp only [hScratch]
    rfl

theorem levelsRan_of_rans {m1 m2 m3 : Medium}
    (h1 : Ran F (p.alloc.levelBase p.start 0) (levelJob p.alloc.l0 p.alloc.l0Words)
      (List.range (levelBlocks p.alloc.l0Words)) ⟨p.disk, p.cache, []⟩ m1)
    (h2 : Ran F (p.alloc.levelBase p.start 1) (levelJob p.alloc.l1 p.alloc.l1Words)
      (List.range (levelBlocks p.alloc.l1Words)) m1 m2)
    (h3 : Ran F (p.alloc.levelBase p.start 2) (p.job2 F) (p.blocks2 F) m2 m3) :
    LevelsRan F p m3 := by
  have hBase1 : p.alloc.levelBase p.start 1 =
      p.alloc.levelBase p.start 0 + levelBlocks p.alloc.l0Words := rfl
  have hBase2 : p.alloc.levelBase p.start 2 =
      p.alloc.levelBase p.start 1 + levelBlocks p.alloc.l1Words := rfl
  -- what the earlier loops leave of the blocks of the later ones
  have hFrame1 : ∀ i, m1.disk (p.alloc.levelBase p.start 1 + i) =
      p.disk (p.alloc.levelBase p.start 1 + i) ∧
      m1.cache (p.alloc.levelBase p.start 1 + i) = p.cache (p.alloc.levelBase p.start 1 + i) := by
    intro i
    refine h1.frame _ ?_
    intro k hk
    have hLt := List.mem_range.mp hk
    omega
  have hFrame2 : ∀ i, m2.disk (p.alloc.levelBase p.start 2 + i) =
      p.disk (p.alloc.levelBase p.start 2 + i) ∧
      m2.cache (p.alloc.levelBase p.start 2 + i) = p.cache (p.alloc.levelBase p.start 2 + i) := by
    intro i
    have hStep := h2.frame (p.alloc.levelBase p.start 2 + i) (fun k hk => by
      have hLt := List.mem_range.mp hk
      omega)
    have hFirst := h1.frame (p.alloc.levelBase p.start 2 + i) (fun k hk => by
      have hLt := List.mem_range.mp hk
      omega)
    exact ⟨hStep.1.trans hFirst.1, hStep.2.trans hFirst.2⟩
  have hPlan1 : planned (p.alloc.levelBase p.start 1) (levelJob p.alloc.l1 p.alloc.l1Words)
      m1.disk (List.range (levelBlocks p.alloc.l1Words)) =
      planned (p.alloc.levelBase p.start 1) (levelJob p.alloc.l1 p.alloc.l1Words) p.disk
        (List.range (levelBlocks p.alloc.l1Words)) := planned_congr fun i _ => (hFrame1 i).1
  have hPlan2 : planned (p.alloc.levelBase p.start 2) (p.job2 F) m2.disk (p.blocks2 F) =
      planned (p.alloc.levelBase p.start 2) (p.job2 F) p.disk (p.blocks2 F) :=
    planned_congr fun i _ => (hFrame2 i).1
  refine ⟨h3.coherent, ?_, ?_, ?_, ?_, ?_⟩
  · intro blk hBlk
    unfold Pool.toRead at hBlk
    rcases List.mem_append.mp hBlk with hLow | hTwo
    · rcases List.mem_append.mp hLow with hZero | hOne
      · obtain ⟨i, hi, rfl⟩ := List.mem_map.mp hZero
        exact h1.readable i hi
      · obtain ⟨i, hi, rfl⟩ := List.mem_map.mp hOne
        have hRead := h2.readable i hi
        rwa [(hFrame1 i).2] at hRead
    · obtain ⟨i, hi, rfl⟩ := List.mem_map.mp hTwo
      have hRead := h3.readable i hi
      rwa [(hFrame2 i).2] at hRead
  · rw [h3.bhs, h2.bhs, h1.bhs, hPlan1, hPlan2, ← List.foldl_append, ← List.foldl_append,
      ← List.append_assoc, foldl_pushBatch]
    rfl
  · intro hGood w hw
    have hWord := syncLevel_words h1 (fun blk hBlk => hGood blk (List.mem_append_left _
      (List.mem_append_left _ hBlk))) hw
    rw [h3.diskWord_eq hw, h2.diskWord_eq hw, hWord]
    · intro i hi k hk
      omega
    · intro i hi k hk
      omega
  · intro hGood w hw
    have hWord := syncLevel_words h2 (fun blk hBlk => by
      rw [hPlan1] at hBlk
      exact hGood blk (List.mem_append_left _ (List.mem_append_right _ hBlk))) hw
    rw [h3.diskWord_eq hw, hWord]
    intro i hi k hk
    omega
  · intro hGood hTracked w hw
    refine syncLevel2_words h3 (fun blk hBlk => ?_) ?_ hw
    · rw [hPlan2] at hBlk
      exact hGood blk (List.mem_append_right _ hBlk)
    · intro w' hw' hDirty
      rw [← hTracked.clean w' hw' hDirty]
      unfold diskWord
      rw [(hFrame2 (w' / wordsPerBlock)).1]

/-- A loop from a coherent medium, whatever it returns. -/
theorem syncBlocks_result {is : List Nat} {m m' : Medium} {ret : Option Errno}
    (hCoh : Coherent m.disk m.cache) (hNodup : is.Nodup)
    (h : syncBlocks F base job is m = (ret, m')) :
    Coherent m'.disk m'.cache ∧ (ret = none → Ran F base job is m m') := by
  constructor
  · have hAfter : Coherent (syncBlocks F base job is m).2.disk
        (syncBlocks F base job is m).2.cache := syncBlocks_coherent is m hCoh
    rwa [h] at hAfter
  · intro hRet
    have hRan : Ran F base job is m (syncBlocks F base job is m).2 :=
      syncBlocks_ran is m hCoh hNodup (by rw [h]; exact hRet)
    rwa [h] at hRan

/-- The level loops of a call, whatever they return. -/
theorem syncLevels_spec (F : Faults) (hCoh : Coherent p.disk p.cache) :
    Coherent (p.syncLevels F).2.disk (p.syncLevels F).2.cache ∧
      ((p.syncLevels F).1 = none → LevelsRan F p (p.syncLevels F).2) := by
  unfold Pool.syncLevels
  dsimp only
  cases h1 : syncLevel F (p.alloc.levelBase p.start 0) p.alloc.l0 p.alloc.l0Words
      ⟨p.disk, p.cache, []⟩ with
  | mk ret1 m1 =>
    obtain ⟨hCoh1, hRan1⟩ := syncBlocks_result hCoh List.nodup_range h1
    cases ret1 with
    | some e => exact ⟨hCoh1, fun h => by cases h⟩
    | none =>
      dsimp only
      cases h2 : syncLevel F (p.alloc.levelBase p.start 1) p.alloc.l1 p.alloc.l1Words m1 with
      | mk ret2 m2 =>
        obtain ⟨hCoh2, hRan2⟩ := syncBlocks_result hCoh1 List.nodup_range h2
        cases ret2 with
        | some e => exact ⟨hCoh2, fun h => by cases h⟩
        | none =>
          dsimp only
          rw [syncLevel2_eq]
          cases h3 : syncBlocks F (p.alloc.levelBase p.start 2) (p.job2 F) (p.blocks2 F) m2 with
          | mk ret3 m3 =>
            obtain ⟨hCoh3, hRan3⟩ := syncBlocks_result hCoh2 nodup_blocks2 h3
            refine ⟨hCoh3, ?_⟩
            intro hNone
            exact levelsRan_of_rans (hRan1 rfl) (hRan2 rfl) (hRan3 hNone)

--
-- One call
--

/-- A call that returns 0 and reports its errors had none. -/
theorem good_of_reported {m : Medium} (hRan : LevelsRan F p m) (hRep : p.Reported F)
    (hWait : m.bhs.any F.badWrite = false) :
    (∀ blk ∈ p.toWrite F, F.badWrite blk = false) ∧
      (p.hdrCached = true ∨ F.badRead p.start = false) := by
  have hLastWindow : ∀ blk ∈ (p.toWrite F).drop (drained (p.toWrite F).length),
      F.badWrite blk = false := by
    intro blk hBlk
    rw [← hRan.bhs] at hBlk
    have hAll := List.any_eq_false.mp hWait blk hBlk
    simpa using hAll
  rcases hRep with ⟨blk, hBlk, hNone, hBad⟩ | ⟨blk, hBlk, hBad⟩ | ⟨hEarly, hHeader⟩
  · rcases hRan.readable blk hBlk with hCached | hOk
    · exact absurd hNone hCached
    · rw [hBad] at hOk
      cases hOk
  · rw [hLastWindow blk hBlk] at hBad
    cases hBad
  · refine ⟨?_, hHeader⟩
    intro blk hBlk
    rw [← List.take_append_drop (drained (p.toWrite F).length) (p.toWrite F)] at hBlk
    rcases List.mem_append.mp hBlk with hTake | hDrop
    · exact hEarly blk hTake
    · exact hLastWindow blk hDrop

/-- The pool after the levels were written, before the header. -/
def Pool.withLevels (F : Faults) (p : Pool) (m : Medium) : Pool :=
  { p with
    alloc := { p.alloc with
      l2Dirty := if F.noScratch then p.alloc.l2Dirty else p.alloc.copiedDirty }
    disk := m.disk
    cache := m.cache }

theorem tracked_withLevels {m : Medium} (hTracked : p.Tracked) (hRan : LevelsRan F p m)
    (hGood : ∀ blk ∈ p.toWrite F, F.badWrite blk = false) : (p.withLevels F m).Tracked :=
  ⟨hRan.coherent, fun w hw _ => hRan.l2 hGood hTracked w hw⟩

/-- The header part changes only the header. -/
theorem syncHeader_spec (F : Faults) (q : Pool) :
    (q.Tracked → (q.syncHeader F).2.Tracked) ∧
      ((q.hdrCached = true ∨ F.badRead q.start = false) → (q.syncHeader F).1 = none →
        (q.syncHeader F).2 = { q with hdrFree := q.alloc.freeCount, hdrCached := true }) := by
  unfold Pool.syncHeader
  split
  · split
    · exact ⟨fun h => ⟨h.coherent, h.clean⟩, fun _ h => by cases h⟩
    · exact ⟨fun h => ⟨h.coherent, h.clean⟩, fun _ _ => rfl⟩
  · rename_i hUnread
    exact ⟨fun h => h, fun hRead => absurd hRead hUnread⟩

/-- One call from a tracked state that reports its errors. -/
theorem allocSync_spec (hTracked : p.Tracked) (hRep : p.Reported F) :
    (p.allocSync F).2.Tracked ∧ ((p.allocSync F).1 = none → (p.allocSync F).2.Synced) := by
  obtain ⟨hCoh, hRan⟩ := syncLevels_spec F hTracked.coherent
  unfold Pool.allocSync
  generalize p.syncLevels F = r at hCoh hRan ⊢
  obtain ⟨ret, m⟩ := r
  dsimp only at hCoh hRan ⊢
  have hFailed : ∀ e : Errno, Pool.Tracked { p with
      alloc := { p.alloc with l2Dirty := fun _ => true }, disk := m.disk, cache := m.cache } :=
    fun _ => ⟨hCoh, fun w _ hDirty => by cases hDirty⟩
  by_cases hWait : m.bhs.any F.badWrite = true
  · rw [if_pos hWait]
    exact ⟨hFailed .eio, fun h => by cases h⟩
  · rw [if_neg hWait]
    cases ret with
    | some e => exact ⟨hFailed e, fun h => by cases h⟩
    | none =>
      have hLevels := hRan rfl
      obtain ⟨hGood, hHeader⟩ := good_of_reported hLevels hRep (by simpa using hWait)
      have hNow := tracked_withLevels hTracked hLevels hGood
      obtain ⟨hKeep, hDone⟩ := syncHeader_spec F (p.withLevels F m)
      refine ⟨hKeep hNow, ?_⟩
      intro hRet
      have hEq : (Pool.syncHeader F (p.withLevels F m)).2 = _ := hDone hHeader hRet
      show ((p.withLevels F m).syncHeader F).2.Synced
      rw [hEq]
      exact ⟨hLevels.l0 hGood, hLevels.l1 hGood, hLevels.l2 hGood hTracked, rfl⟩

--
-- Runs
--

/-- Words that change are marked, so the others are still on the device. -/
theorem Pool.Tracked.of_marks (h : p.Tracked) {b : Alloc} (hMarks : Marks p.alloc b) :
    Pool.Tracked { p with alloc := b } := by
  refine ⟨h.coherent, ?_⟩
  intro w hw hDirty
  have hBase : b.levelBase p.start 2 = p.alloc.levelBase p.start 2 := by
    unfold levelBase
    rw [hMarks.l0Words, hMarks.l1Words]
  have hOld : p.alloc.l2Dirty w = false := by
    by_contra hSet
    have hKept := hMarks.kept w (by simpa using hSet)
    rw [show b.l2Dirty w = false from hDirty] at hKept
    cases hKept
  rcases hMarks.changed w with hSame | hMarked
  · show diskWord p.disk (b.levelBase p.start 2) w = b.l2 w
    rw [hBase, hSame]
    refine h.clean w ?_ hOld
    rw [← hMarks.l2Words]
    exact hw
  · rw [show b.l2Dirty w = false from hDirty] at hMarked
    cases hMarked

theorem Pool.Mounted.tracked (h : p.Mounted) : p.Tracked := by
  obtain ⟨hCoh, a, hDirty, hWords, hAlloc⟩ := h
  have hLoaded : Pool.Tracked { p with alloc := a } := ⟨hCoh, fun w hw _ => hWords w hw⟩
  have hMarks : Marks a p.alloc := by
    rw [hAlloc]
    split
    · exact marks_reserveBlock a 0
    · exact Marks.refl a
  exact hLoaded.of_marks hMarks

theorem Pool.Tracked.step (h : p.Tracked) (e : Event)
    (hRep : ∀ F, e = .sync F → p.Reported F) : (p.step e).Tracked := by
  cases e with
  | call op => exact h.of_marks (marks_apply p.alloc op)
  | recompute => exact ⟨h.coherent, fun w _ hDirty => by cases hDirty⟩
  | sync F => exact (allocSync_spec h (hRep F rfl)).1
  | evict gone =>
    refine ⟨?_, h.clean⟩
    intro blk buf hBuf
    dsimp only [Pool.step] at hBuf ⊢
    split at hBuf
    · cases hBuf
    · exact h.coherent blk buf hBuf

/-- Every sync of the run reports its errors. -/
def AllReported (p : Pool) (events : List Event) : Prop :=
  ∀ pre F post, events = pre ++ Event.sync F :: post → (pre.foldl Pool.step p).Reported F

theorem Pool.Tracked.run : ∀ (events : List Event) {p : Pool}, p.Tracked →
    AllReported p events → (events.foldl Pool.step p).Tracked
  | [], _, h, _ => h
  | e :: events, p, h, hRep => by
    rw [List.foldl_cons]
    refine Pool.Tracked.run events (h.step e ?_) ?_
    · rintro F rfl
      exact hRep [] F events rfl
    · intro pre F post hEq
      exact hRep (e :: pre) F post (by rw [hEq]; rfl)

/-- In a run from a mount whose syncs all report their errors, a sync that returns 0
leaves the device equal to memory. -/
theorem sync_exact_of_reported (hMounted : p.Mounted) {events : List Event}
    (hRep : AllReported p events) :
    ∀ pre F post, events = pre ++ Event.sync F :: post →
      ((pre.foldl Pool.step p).allocSync F).1 = none →
      ((pre.foldl Pool.step p).allocSync F).2.Synced := by
  intro pre F post hEq hRet
  have hBefore : (pre.foldl Pool.step p).Tracked := by
    refine Pool.Tracked.run pre hMounted.tracked ?_
    intro pre' F' post' hEq'
    exact hRep pre' F' (post' ++ Event.sync F :: post) (by rw [hEq, hEq']; simp)
  exact (allocSync_spec hBefore (hRep pre F post hEq)).2 hRet

/-- No fault at all. -/
def Faults.none : Faults where
  badRead _ := false
  badWrite _ := false
  torn _ _ := 0#64
  tornFree := 0#64
  noScratch := false

theorem reported_none (p : Pool) : p.Reported Faults.none :=
  Or.inr (Or.inr ⟨fun _ _ => rfl, Or.inr rfl⟩)

theorem sixtyFour_le_word : 64 ≤ 1 * 64 := by
  decide

/-- An allocator of 64 blocks, of which 1, 2 and 3 are free. -/
def threeFree : Alloc where
  l0 := fun _ => 1#64
  l1 := fun _ => 1#64
  l2 := fun _ => 14#64
  l0Words := 1
  l1Words := 1
  l2Words := 1
  blockCount := 64
  freeCount := 3#64
  metaShield := 0#64
  roverW0 := 0
  roverW2High := 0
  firstFreeW2 := 0
  l2Dirty := fun _ => false
  hL2 := sixtyFour_le_word
  hL1 := one_le_word
  hL0 := one_le_word

/-- Its pool, with the header at block 10 and the three levels behind it. -/
def threeFreePool : Pool where
  alloc := threeFree.reserveBlock 0
  start := 10
  disk := fun blk _ => if blk = 13 then 14#64 else 1#64
  cache := fun _ => Option.none
  hdrFree := 3#64
  hdrCached := false

theorem mounted_threeFreePool : threeFreePool.Mounted := by
  refine ⟨?_, threeFree, fun _ => rfl, ?_, rfl⟩
  · intro blk buf hBuf
    cases hBuf
  intro w hw
  have hZero : w = 0 := by
    change w < 1 at hw
    omega
  subst hZero
  decide

theorem sync_exact_threeFree :
    threeFreePool.Mounted ∧ AllReported threeFreePool [.call (.freeBlock 5), .sync Faults.none] ∧
      ((threeFreePool.step (.call (.freeBlock 5))).allocSync Faults.none).2.Synced := by
  have hRep : AllReported threeFreePool [.call (.freeBlock 5), .sync Faults.none] := by
    intro pre F post hEq
    have hMem : Event.sync F ∈ [Event.call (.freeBlock 5), .sync Faults.none] := by
      rw [hEq]
      simp
    simp only [List.mem_cons, Event.sync.injEq, reduceCtorEq, false_or, List.not_mem_nil,
      or_false] at hMem
    rw [hMem]
    exact reported_none _
  exact ⟨mounted_threeFreePool, hRep, sync_exact_of_reported mounted_threeFreePool hRep
    [.call (.freeBlock 5)] Faults.none [] rfl (by decide)⟩

/-- A header that cannot be read is passed over: block 5 is freed, the sync returns 0, and
the device still has three free blocks. -/
theorem sync_skips_unread_header :
    threeFreePool.Mounted ∧
      ((threeFreePool.step (.call (.freeBlock 5))).allocSync
        { Faults.none with badRead := fun blk => blk == 10 }).1 = Option.none ∧
      ¬ ((threeFreePool.step (.call (.freeBlock 5))).allocSync
        { Faults.none with badRead := fun blk => blk == 10 }).2.Synced := by
  refine ⟨mounted_threeFreePool, by decide, ?_⟩
  intro hSynced
  exact absurd hSynced.freeCount (by decide)

end Alloc

end Briefs
