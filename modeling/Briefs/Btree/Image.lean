import Briefs.Btree.Insert
import Briefs.Crc32c.Sliced
import Briefs.Journal.Burst
import Briefs.Lib.Layout
import Briefs.Lib.Steps

/-!
# BrieFS — the blocks of the extent tree

A node of the tree is a block: a header, extents or separators, and a checksum of the first 4080
bytes. `btree_commit_node` computes the checksum, `btree_read_node` compares it, once for each
buffer: `BH_Verified` remembers that the buffer was accepted or written by a commit. A checksum of
zero is not compared.

The device may damage what it holds. `last` and `hits` are notes: the last image committed to each
block, and how often its copy on the device was damaged since it was written there.

## Results

* `read_node_is_last_commit` — over every run, a node that is read is the one that was last
  committed, as long as the copy of a block is damaged at most once, in three consecutive bytes.
-/

namespace Briefs.Btree

open Briefs.Lib Briefs.Steps
open Briefs.Journal (Block slice)

--
-- The image of a node
--

/-- `BRIEFS_BTREE_MAGIC`, "BTRE". -/
def btreeMagic : Nat := 0x42545245

/-- `BRIEFS_BTREE_ERROR_LIMIT`. -/
def btreeErrorLimit : Nat := 100

/-- Where the checksum lies; it covers what is before it. -/
def checksumSlot : Nat := 4080

/-- A little-endian word of `n` bytes. -/
def word (n : Nat) (img : Block) (off : Nat) : Nat := ((Layout.le n).get img off).toNat

/-- `hdr.magic`. -/
def hdrMagic (img : Block) : Nat := word 4 img 0

/-- `btree_node_is_leaf`. -/
def nodeIsLeaf (img : Block) : Bool := word 4 img 4 % 2 == 1

/-- `hdr.num_keys`. -/
def hdrNumKeys (img : Block) : Nat := word 2 img 10

/-- `u.leaf.extents[i]`. -/
def leafExtent (img : Block) (i : Nat) : Extent :=
  ⟨word 8 img (24 + 32 * i), word 8 img (32 + 32 * i), word 8 img (40 + 32 * i),
    word 4 img (48 + 32 * i)⟩

/-- `u.internal.idx[i]`. -/
def internalIdx (img : Block) (i : Nat) : IdxEntry :=
  ⟨word 8 img (24 + 16 * i), word 8 img (32 + 16 * i)⟩

/-- The node that the image holds. -/
def imageNode (img : Block) : Node :=
  if nodeIsLeaf img then .leaf ((List.range (hdrNumKeys img)).map (leafExtent img))
  else .internal ((List.range (hdrNumKeys img)).map (internalIdx img)) (word 8 img 4072)

/-- `briefs_chain_checksum`. -/
def chainChecksum (img : Block) : BitVec 64 := (crc32c 0 (slice img 0 checksumSlot)).setWidth 64

def storedChecksum (img : Block) : BitVec 64 := (Layout.le 8).get img checksumSlot

/-- `briefs_verify_chain_checksum`. -/
def verifyChainChecksum (img : Block) : Bool :=
  storedChecksum img == 0 || chainChecksum img == storedChecksum img

/-- The image after `btree_commit_node`. -/
def commitImage (img : Block) : Block := (Layout.le 8).put img checksumSlot (chainChecksum img)

--
-- Buffers and the device
--

/-- The buffer of a node. -/
structure NodeBuf where
  image    : Block
  verified : Bool
  dirty    : Bool

/-- A block, in the cache and on the device. -/
structure NodeBlock where
  disk : Block
  buf  : Option NodeBuf
  last : Block
  hits : Nat

structure NodeCache where
  blocks   : Nat → NodeBlock
  nrBlocks : Nat
  errors   : Nat
  errorFs  : Bool

/-- Tree operations commit and allocate nodes; the kernel writes and evicts buffers; the device
damages what it holds. -/
inductive BlockEvent where
  | commit (img : Block)
  | zero
  | writeback
  | evict
  | damage (pos : Nat) (bytes : Fin 3 → UInt8)

/-- `ok` says whether a read of the device works. -/
inductive NodeEvent where
  | read (b : Nat) (ok : Bool)
  | block (b : Nat) (e : BlockEvent)

def capacityOf (img : Block) : Nat := if nodeIsLeaf img then leafFanout else idxKeys

/-- The checks of `btree_read_node`. -/
def NodeBuf.check (buf : NodeBuf) : Option Block × NodeBuf :=
  if buf.verified ∨ (hdrMagic buf.image = btreeMagic ∧ verifyChainChecksum buf.image) then
    (if hdrNumKeys buf.image ≤ capacityOf buf.image then some buf.image else none,
      { buf with verified := true })
  else (none, buf)

namespace NodeBlock

variable (x : NodeBlock)

/-- `sb_bread`. -/
def bread (ok : Bool) : Option NodeBuf :=
  match x.buf with
  | some buf => some buf
  | none => if ok then some ⟨x.disk, false, false⟩ else none

/-- Whoever commits has the buffer, from a read or from `btree_new_node`. -/
def step : BlockEvent → Option NodeBlock
  | .commit img =>
    match x.buf with
    | none => none
    | some _ => some { x with buf := some ⟨commitImage img, true, true⟩, last := commitImage img }
  | .zero => some { x with buf := some ⟨fun _ => 0, false, true⟩, last := fun _ => 0 }
  | .writeback =>
    match x.buf with
    | none => none
    | some buf =>
      if buf.dirty then
        some { x with disk := buf.image, buf := some { buf with dirty := false }, hits := 0 }
      else none
  | .evict =>
    match x.buf with
    | none => none
    | some buf => if buf.dirty then none else some { x with buf := none }
  | .damage pos bytes =>
    some { x with disk := (Layout.byte.array 3).put x.disk pos bytes, hits := x.hits + 1 }

end NodeBlock

namespace NodeCache

variable (s : NodeCache)

def setBlock (b : Nat) (x : NodeBlock) : NodeCache :=
  { s with blocks := Function.update s.blocks b x }

/-- `atomic_inc_return(&bsi->btree_error_count)` with the limit. -/
def countError : NodeCache :=
  { s with
    errors := s.errors + 1
    errorFs := s.errorFs || decide (btreeErrorLimit ≤ s.errors + 1) }

/-- `btree_read_node`. -/
def readNode (b : Nat) (ok : Bool) : Option Block × NodeCache :=
  if b < s.nrBlocks then
    match (s.blocks b).bread ok with
    | none => (none, s)
    | some buf =>
      let kept := s.setBlock b { s.blocks b with buf := some buf.check.2 }
      (buf.check.1, if buf.check.1.isSome then kept else kept.countError)
  else (none, s)

def step : NodeEvent → Option NodeCache
  | .read b ok => some (s.readNode b ok).2
  | .block b e => ((s.blocks b).step e).map (s.setBlock b)

/-- At the mount nothing is cached, and what the device holds is what was last committed. -/
structure AtMount : Prop where
  buf  : ∀ b, (s.blocks b).buf = none
  last : ∀ b, (s.blocks b).last = (s.blocks b).disk

end NodeCache

/-- A copy is damaged at most once after it was written, in the checksum and behind it or before. -/
def Tolerable (s : NodeCache) : NodeEvent → Prop
  | .block b (.damage pos _) =>
    (s.blocks b).hits = 0 ∧ (pos + 3 ≤ checksumSlot ∨ checksumSlot ≤ pos)
  | _ => True

--
-- Damage
--

/-- The checksum is there and right. -/
def Sealed (img : Block) : Prop := chainChecksum img = storedChecksum img ∧ storedChecksum img ≠ 0

def SamePayload (img img' : Block) : Prop := ∀ o < checksumSlot, img o = img' o

/-- At most three consecutive bytes differ, in the checksum and behind it or before. -/
def OneBurst (img img' : Block) : Prop :=
  ∃ pos, (pos + 3 ≤ checksumSlot ∨ checksumSlot ≤ pos) ∧
    ∀ o, o < pos ∨ pos + 3 ≤ o → img o = img' o

section Damage

variable {img img' : Block}

theorem OneBurst.refl (img : Block) : OneBurst img img := ⟨0, .inl (by decide), fun _ _ => rfl⟩

theorem chainChecksum_inj (h : chainChecksum img = chainChecksum img') :
    crc32c 0 (slice img 0 checksumSlot) = crc32c 0 (slice img' 0 checksumSlot) := by
  have hNat := congrArg BitVec.toNat h
  unfold chainChecksum at hNat
  rw [BitVec.toNat_setWidth_of_le (by decide), BitVec.toNat_setWidth_of_le (by decide)] at hNat
  exact BitVec.eq_of_toNat_eq hNat

/-- A burst in the payload of a sealed image is found by the checksum. -/
theorem OneBurst.samePayload (h : OneBurst img img') (hSealed : Sealed img')
    (hVerify : verifyChainChecksum img = true) : SamePayload img img' := by
  obtain ⟨pos, hBefore | hBehind, hSame⟩ := h
  · have hStored : storedChecksum img = storedChecksum img' := by
      refine (Layout.le 8).get_congr fun o hLe _ => hSame o (.inr ?_)
      omega
    have hEq : chainChecksum img = chainChecksum img' := by
      unfold verifyChainChecksum at hVerify
      rw [Bool.or_eq_true, beq_iff_eq, beq_iff_eq, hStored] at hVerify
      rw [hSealed.1]
      exact hVerify.resolve_left hSealed.2
    intro o ho
    by_contra hNe
    have hDiffer : ∀ k, img k ≠ img' k → pos ≤ k ∧ k < pos + 3 := by
      intro k hk
      by_contra hOut
      exact hk (hSame k (by omega))
    have hDamaged : Journal.Damaged img' img 0 (0 + checksumSlot) pos :=
      ⟨fun k hk => ⟨Nat.zero_le k, by have := hDiffer k hk; omega⟩, hDiffer, o, hNe⟩
    exact hDamaged.crc32c_ne 0 (chainChecksum_inj hEq)
  · exact fun o ho => hSame o (.inl (by omega))

theorem word_congr {n off : Nat} (hSame : SamePayload img img') (hIn : off + n ≤ checksumSlot) :
    word n img off = word n img' off := by
  unfold word
  rw [(Layout.le n).get_congr (h := img')]
  intro o _ hLt
  rw [Layout.size_le] at hLt
  exact hSame o (by omega)

/-- The node is read from the payload only. -/
theorem imageNode_congr (hSame : SamePayload img img')
    (hFits : hdrNumKeys img ≤ capacityOf img) : imageNode img = imageNode img' := by
  have hLeaf : nodeIsLeaf img = nodeIsLeaf img' := by
    unfold nodeIsLeaf
    rw [word_congr hSame (by decide)]
  have hKeys : hdrNumKeys img = hdrNumKeys img' := word_congr hSame (by decide)
  unfold imageNode
  unfold capacityOf leafFanout idxKeys at hFits
  rw [← hLeaf, ← hKeys]
  split
  · rename_i hIs
    rw [if_pos hIs] at hFits
    refine congrArg Node.leaf (List.map_congr_left fun i hi => ?_)
    have hi := List.mem_range.1 hi
    unfold leafExtent
    rw [word_congr hSame (by unfold checksumSlot; omega),
      word_congr hSame (by unfold checksumSlot; omega),
      word_congr hSame (by unfold checksumSlot; omega),
      word_congr hSame (by unfold checksumSlot; omega)]
  · rename_i hIs
    rw [if_neg hIs] at hFits
    have hIdx : (List.range (hdrNumKeys img)).map (internalIdx img) =
        (List.range (hdrNumKeys img)).map (internalIdx img') := by
      refine List.map_congr_left fun i hi => ?_
      have hi := List.mem_range.1 hi
      unfold internalIdx
      rw [word_congr hSame (by unfold checksumSlot; omega),
        word_congr hSame (by unfold checksumSlot; omega)]
    rw [hIdx, word_congr hSame (by decide)]

end Damage

--
-- Runs
--

/-- What a buffer has, compared with the last commit. -/
structure NodeBuf.Keeps (buf : NodeBuf) (last : Block) : Prop where
  dirty      : buf.dirty = true → buf.image = last
  verified   : buf.verified = true → Sealed last → SamePayload buf.image last
  unverified : buf.verified = false → OneBurst buf.image last

/-- What the buffer and the device have of a block. -/
structure NodeBlock.Keeps (x : NodeBlock) : Prop where
  buf   : ∀ buf, x.buf = some buf → buf.Keeps x.last
  clean : (∀ buf, x.buf = some buf → buf.dirty = false) →
    OneBurst x.disk x.last ∧ (x.hits = 0 → x.disk = x.last)

section Runs

variable {s t start : NodeCache} {x y : NodeBlock} {buf : NodeBuf} {last : Block} {b : Nat}

/-- A buffer that has just been committed. -/
theorem NodeBuf.keeps_of_eq (h : buf.image = last) : buf.Keeps last :=
  ⟨fun _ => h, fun _ _ _ _ => by rw [h], fun _ => h ▸ .refl _⟩

/-- A buffer that is accepted has the payload of the last commit. -/
theorem NodeBuf.Keeps.accept (h : buf.Keeps last)
    (hAccept : buf.verified = true ∨ verifyChainChecksum buf.image = true)
    (hSealed : Sealed last) : SamePayload buf.image last := by
  cases hVer : buf.verified with
  | true => exact h.verified hVer hSealed
  | false =>
    refine (h.unverified hVer).samePayload hSealed (hAccept.resolve_left ?_)
    rw [hVer]
    exact Bool.false_ne_true

/-- The checks change the buffer only to note that it was accepted. -/
theorem NodeBuf.check_cases (buf : NodeBuf) :
    buf.check = (none, buf) ∨
      ((buf.verified = true ∨ verifyChainChecksum buf.image = true) ∧
        buf.check.2 = { buf with verified := true } ∧
        ∀ img, buf.check.1 = some img →
          img = buf.image ∧ hdrNumKeys buf.image ≤ capacityOf buf.image) := by
  unfold NodeBuf.check
  split
  · rename_i hAccept
    refine .inr ⟨hAccept.imp_right And.right, rfl, fun img hEq => ?_⟩
    dsimp only at hEq
    split at hEq
    · rename_i hFits
      cases hEq
      exact ⟨rfl, hFits⟩
    · cases hEq
  · exact .inl rfl

theorem NodeBuf.Keeps.check (h : buf.Keeps last) : buf.check.2.Keeps last := by
  obtain hEq | ⟨hAccept, hEq, -⟩ := buf.check_cases
  · rw [hEq]
    exact h
  · rw [hEq]
    refine ⟨h.dirty, fun _ => h.accept hAccept, fun hFalse => ?_⟩
    cases hFalse

theorem NodeBuf.check_dirty (buf : NodeBuf) : buf.check.2.dirty = buf.dirty := by
  obtain hEq | ⟨-, hEq, -⟩ := buf.check_cases
  · rw [hEq]
  · rw [hEq]

namespace NodeBlock

/-- A read works on the cached buffer, or on what the device has. -/
theorem Keeps.bread {ok : Bool} (h : x.Keeps) (hRead : x.bread ok = some buf) :
    buf.Keeps x.last ∧
      (buf.dirty = false → OneBurst x.disk x.last ∧ (x.hits = 0 → x.disk = x.last)) := by
  unfold NodeBlock.bread at hRead
  split at hRead
  · rename_i buf' hBuf
    cases hRead
    refine ⟨h.buf buf hBuf, fun hClean => h.clean fun buf' hBuf' => ?_⟩
    cases hBuf.symm.trans hBuf'
    exact hClean
  · rename_i hNone
    split at hRead
    · cases hRead
      have hClean := h.clean fun buf hBuf => absurd (hNone.symm.trans hBuf) (by simp)
      refine ⟨⟨fun hDirty => ?_, fun hVer => ?_, fun _ => hClean.1⟩, fun _ => hClean⟩
      · cases hDirty
      · cases hVer
    · cases hRead

/-- The block after a read. -/
theorem Keeps.readNode {ok : Bool} (h : x.Keeps) (hRead : x.bread ok = some buf) :
    ({ x with buf := some buf.check.2 } : NodeBlock).Keeps := by
  obtain ⟨hBuf, hClean⟩ := h.bread hRead
  refine ⟨fun buf' hEq => ?_, fun hAll => hClean ?_⟩
  · cases hEq
    exact hBuf.check
  · rw [← buf.check_dirty]
    exact hAll _ rfl

/-- One damage to a good copy. -/
theorem oneBurst_damage {img : Block} {pos : Nat} {bytes : Fin 3 → UInt8}
    (hPlace : pos + 3 ≤ checksumSlot ∨ checksumSlot ≤ pos) :
    OneBurst ((Layout.byte.array 3).put img pos bytes) img := by
  refine ⟨pos, hPlace, fun o ho => (Layout.byte.array 3).put_out img pos bytes o ?_⟩
  rwa [Layout.size_array]

theorem Keeps.step {e : BlockEvent} (h : x.Keeps) (hEq : x.step e = some y)
    (hTol : ∀ pos bytes, e = .damage pos bytes →
      x.hits = 0 ∧ (pos + 3 ≤ checksumSlot ∨ checksumSlot ≤ pos)) : y.Keeps := by
  cases e with
  | commit img =>
    dsimp only [NodeBlock.step] at hEq
    split at hEq
    · cases hEq
    cases hEq
    refine ⟨fun buf hBuf => ?_, fun hAll => ?_⟩
    · cases hBuf
      exact NodeBuf.keeps_of_eq rfl
    · cases hAll _ rfl
  | zero =>
    cases hEq
    refine ⟨fun buf hBuf => ?_, fun hAll => ?_⟩
    · cases hBuf
      exact NodeBuf.keeps_of_eq rfl
    · cases hAll _ rfl
  | writeback =>
    dsimp only [NodeBlock.step] at hEq
    split at hEq
    · cases hEq
    rename_i buf hBuf
    split at hEq
    · rename_i hDirty
      cases hEq
      have hLast := (h.buf buf hBuf).dirty hDirty
      refine ⟨fun buf' hBuf' => ?_, fun _ => ?_⟩
      · cases hBuf'
        exact NodeBuf.keeps_of_eq hLast
      · exact ⟨hLast ▸ .refl _, fun _ => hLast⟩
    · cases hEq
  | evict =>
    dsimp only [NodeBlock.step] at hEq
    split at hEq
    · cases hEq
    rename_i buf hBuf
    split at hEq
    · cases hEq
    rename_i hClean
    cases hEq
    refine ⟨fun buf' hBuf' => ?_, fun _ => h.clean fun buf' hBuf' => ?_⟩
    · cases hBuf'
    · cases hBuf.symm.trans hBuf'
      simpa using hClean
  | damage pos bytes =>
    cases hEq
    obtain ⟨hOnce, hPlace⟩ := hTol pos bytes rfl
    refine ⟨h.buf, fun hClean => ?_⟩
    have hGood := (h.clean hClean).2 hOnce
    refine ⟨?_, fun hZero => absurd hZero (Nat.succ_ne_zero _)⟩
    rw [← hGood]
    exact oneBurst_damage hPlace

end NodeBlock

theorem NodeCache.keeps_setBlock (h : ∀ c, (s.blocks c).Keeps) (hNew : x.Keeps) (c : Nat) :
    ((s.setBlock b x).blocks c).Keeps := by
  dsimp only [NodeCache.setBlock]
  by_cases hEq : c = b
  · subst hEq
    rwa [Function.update_self]
  · rw [Function.update_of_ne hEq]
    exact h c

/-- `btree_read_node` returns nothing, or the buffer of the block as it passed the checks. -/
theorem NodeCache.readNode_cases (s : NodeCache) (b : Nat) (ok : Bool) :
    s.readNode b ok = (none, s) ∨
      ∃ buf, (s.blocks b).bread ok = some buf ∧ (s.readNode b ok).1 = buf.check.1 ∧
        (s.readNode b ok).2.blocks =
          (s.setBlock b { s.blocks b with buf := some buf.check.2 }).blocks := by
  unfold NodeCache.readNode
  split
  · split
    · exact .inl rfl
    · rename_i buf hRead
      refine .inr ⟨buf, hRead, rfl, ?_⟩
      dsimp only
      split
      · rfl
      · rfl
  · exact .inl rfl

theorem NodeCache.keeps_of_step {e : NodeEvent} (h : ∀ c, (s.blocks c).Keeps)
    (hTol : Tolerable s e) (hEq : s.step e = some t) : ∀ c, (t.blocks c).Keeps := by
  cases e with
  | read b ok =>
    cases hEq
    obtain hSame | ⟨buf, hRead, -, hBlocks⟩ := s.readNode_cases b ok
    · rw [hSame]
      exact h
    · rw [hBlocks]
      exact NodeCache.keeps_setBlock h ((h b).readNode hRead)
  | block b e =>
    obtain ⟨y, hStep, rfl⟩ := Option.map_eq_some_iff.1 hEq
    refine NodeCache.keeps_setBlock h ((h b).step hStep fun pos bytes hDamage => ?_)
    subst hDamage
    exact hTol

theorem NodeCache.AtMount.keeps (h : s.AtMount) (b : Nat) : (s.blocks b).Keeps := by
  refine ⟨fun buf hBuf => absurd ((h.buf b).symm.trans hBuf) (by simp), fun _ => ?_⟩
  rw [h.last]
  exact ⟨.refl _, fun _ => rfl⟩

/-- In every run, a node that `btree_read_node` returns is the one that was last committed to its
block, and has no more keys than a node can hold, as long as that commit has a checksum other than
zero and every copy on the device is damaged in one place at most. -/
theorem read_node_is_last_commit {img : Block} {ok : Bool} (hMount : start.AtMount)
    (hRun : Steps.Run NodeCache.step Tolerable start s) (hSealed : Sealed (s.blocks b).last)
    (hRead : (s.readNode b ok).1 = some img) :
    imageNode img = imageNode (s.blocks b).last ∧
      (imageNode img).numKeys ≤ (imageNode img).capacity := by
  have hKeeps : ∀ c, (s.blocks c).Keeps :=
    hRun.invariant (I := fun t => ∀ c, (t.blocks c).Keeps) hMount.keeps
      fun hInv hTol hEq => NodeCache.keeps_of_step hInv hTol hEq
  obtain hSame | ⟨buf, hBread, hImg, -⟩ := s.readNode_cases b ok
  · rw [hSame] at hRead
    cases hRead
  rw [hImg] at hRead
  obtain hNone | ⟨hAccept, -, hSome⟩ := buf.check_cases
  · rw [hNone] at hRead
    cases hRead
  obtain ⟨rfl, hFits⟩ := hSome img hRead
  refine ⟨imageNode_congr (((hKeeps b).bread hBread).1.accept hAccept hSealed) hFits, ?_⟩
  unfold imageNode
  unfold capacityOf at hFits
  split
  · rename_i hLeaf
    rw [if_pos hLeaf] at hFits
    simpa [Node.numKeys, Node.capacity] using hFits
  · rename_i hInner
    rw [if_neg hInner] at hFits
    simpa [Node.numKeys, Node.capacity] using hFits

end Runs

/-- A device of eight blocks of zeroes. -/
def zeroDevice : NodeCache := ⟨fun _ => ⟨fun _ => 0, none, fun _ => 0, 0⟩, 8, 0, false⟩

/-- A leaf without extents; `next` is a byte of `next_leaf`. -/
def emptyLeaf (next : UInt8) : Block
  | 0 => 0x45
  | 1 => 0x52
  | 2 => 0x54
  | 3 => 0x42
  | 4 => 1
  | 16 => next
  | _ => 0

theorem samePayload_commitImage (img : Block) : SamePayload (commitImage img) img :=
  fun _ ho => (Layout.le 8).put_out _ _ _ _ (.inl ho)

theorem sealed_commitImage {img : Block} (hNe : chainChecksum img ≠ 0) :
    Sealed (commitImage img) := by
  have hStored : storedChecksum (commitImage img) = chainChecksum img := (Layout.le 8).get_put _ _ _
  have hSame : chainChecksum (commitImage img) = chainChecksum img := by
    refine congrArg (fun bytes => (crc32c 0 bytes).setWidth 64) (List.map_congr_left fun k hk => ?_)
    exact samePayload_commitImage img _ (by simpa using hk)
  exact ⟨hSame.trans hStored.symm, hStored ▸ hNe⟩

/-- Leaves that differ in one byte do not both have the checksum zero. -/
theorem exists_sealed_leaf : ∃ next, Sealed (commitImage (emptyLeaf next)) := by
  have hBurst : chainChecksum (emptyLeaf 1) ≠ chainChecksum (emptyLeaf 0) := by
    intro hEq
    have hDiffer : ∀ k, emptyLeaf 1 k ≠ emptyLeaf 0 k → k = 16 := by
      intro k hk
      by_contra hNe
      refine hk ?_
      unfold emptyLeaf
      split <;> first | rfl | exact absurd rfl hNe
    have hDamaged : Journal.Damaged (emptyLeaf 0) (emptyLeaf 1) 0 (0 + checksumSlot) 16 :=
      ⟨fun k hk => by rw [hDiffer k hk]; decide, fun k hk => by rw [hDiffer k hk]; decide, 16,
        by decide⟩
    exact hDamaged.crc32c_ne 0 (chainChecksum_inj hEq)
  by_cases hZero : chainChecksum (emptyLeaf 0) = 0
  · exact ⟨1, sealed_commitImage (hZero ▸ hBurst)⟩
  · exact ⟨0, sealed_commitImage hZero⟩

theorem hdrNumKeys_emptyLeaf (next : UInt8) : hdrNumKeys (commitImage (emptyLeaf next)) = 0 := by
  have hWord : word 2 (emptyLeaf next) 10 = word 2 (emptyLeaf 0) 10 := by
    refine congrArg BitVec.toNat ((Layout.le 2).get_congr fun o hLe hLt => ?_)
    rw [Layout.size_le] at hLt
    unfold emptyLeaf
    split <;> first | rfl | omega
  exact (word_congr (samePayload_commitImage _) (by decide)).trans (hWord.trans (by decide))

/-- A leaf is committed and written, its copy is damaged, and the buffer is read again. -/
theorem read_node_is_last_commit_damaged :
    ∃ s img, Steps.Run NodeCache.step Tolerable zeroDevice s ∧
      (s.blocks 1).disk ≠ (s.blocks 1).last ∧ (s.readNode 1 true).1 = some img ∧
      imageNode img = imageNode (s.blocks 1).last ∧
      (imageNode img).numKeys ≤ (imageNode img).capacity := by
  obtain ⟨next, hSealed⟩ := exists_sealed_leaf
  obtain ⟨s, hRun, hBlock, hBlocks⟩ : ∃ s, Steps.Run NodeCache.step Tolerable zeroDevice s ∧
      s.blocks 1 = ⟨(Layout.byte.array 3).put (commitImage (emptyLeaf next)) 0 fun _ => 7,
        some ⟨commitImage (emptyLeaf next), true, false⟩, commitImage (emptyLeaf next), 1⟩ ∧
      s.nrBlocks = 8 :=
    ⟨_, .head (e := .block 1 .zero) trivial rfl <|
      .head (e := .block 1 (.commit (emptyLeaf next))) trivial rfl <|
      .head (e := .block 1 .writeback) trivial rfl <|
      .head (e := .block 1 (.damage 0 fun _ => 7)) ⟨rfl, .inl (by decide)⟩ rfl .refl, rfl, rfl⟩
  have hRead : (s.readNode 1 true).1 = some (commitImage (emptyLeaf next)) := by
    unfold NodeCache.readNode
    rw [hBlocks, if_pos (by decide), hBlock]
    dsimp only [NodeBlock.bread, NodeBuf.check]
    rw [if_pos (.inl rfl), if_pos (by rw [hdrNumKeys_emptyLeaf]; exact Nat.zero_le _)]
  refine ⟨s, _, hRun, fun hEq => ?_, hRead, read_node_is_last_commit ⟨fun _ => rfl, fun _ => rfl⟩
    hRun (by rw [hBlock]; exact hSealed) hRead⟩
  rw [hBlock] at hEq
  have hByte : (7 : UInt8) = commitImage (emptyLeaf next) 0 := congrFun hEq 0
  have hOld : commitImage (emptyLeaf next) 0 = 0x45 := samePayload_commitImage _ 0 (by decide)
  exact absurd (hByte.trans hOld) (by decide)

end Briefs.Btree
