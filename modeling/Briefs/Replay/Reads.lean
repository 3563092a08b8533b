import Briefs.Journal.Format

/-!
# BrieFS — what the walk of the journal reads

`walk_journal` checks that a record ends inside its block and hands a bare pointer to
`apply_record`, which casts it to the struct of the record's type. The length of the
payload goes to one handler only, for an optional field; no handler compares it with the
struct, nor with the lengths that stand inside the payload.

This module lists the bytes that the walk and the handlers read, in the order of the
source. What a handler reads can depend on the rest of the file system (is there an inode
with that number?), so the lists take the answers of the rest as an argument. Text for
`pr_debug` is not counted.

## Results

* `handlerReads_inside_iff` — a handler keeps to the payload, whatever the rest of the
  file system answers, exactly if the payload has the length its type needs.
* `walk_reads_inside_iff` — all reads of a pass over a block.
-/

namespace Briefs.Replay

open Briefs.Journal

--
-- Records and the rest of the file system
--

/-- The record types that `apply_record` has a case for. -/
inductive RecordType where
  | extentAlloc
  | extentFree
  | inodeUpdate
  | inodeAlloc
  | inodeFree
  | trieAlloc
  | dirUpdate
  | inodeFull
  | symlinkData
  | xattrData
deriving DecidableEq, Repr

/-- `enum journal_record_type`; the marker `JRN_CHECKPOINT` (8) has no case. -/
def RecordType.ofType : Nat → Option RecordType
  | 1  => some .extentAlloc
  | 2  => some .extentFree
  | 3  => some .inodeUpdate
  | 4  => some .inodeAlloc
  | 5  => some .inodeFree
  | 6  => some .trieAlloc
  | 7  => some .dirUpdate
  | 9  => some .inodeFull
  | 10 => some .symlinkData
  | 11 => some .xattrData
  | _  => none

/-- What the handlers find in the rest of the file system. `parentReady` says that the
parent directory is loaded and its page pool seeded, `slotRead` that the block of an inode
is read, `sameGeneration` that its slot has the generation of the snapshot, `symlinkAt`
that the inode is a symlink whose first extent is the readable block, and `live` that the
block is in a final xattr chain and can be read. A trie has at most 255 levels below its
root, so the search for a name reads at most 256 bytes of it. -/
structure Rest where
  parentReady    : Nat → Bool
  slotRead       : Nat → Bool
  sameGeneration : Nat → Bool
  symlinkAt      : Nat → Nat → Bool
  live           : Nat → Bool
  nameDepth      : Nat
  hNameDepth     : nameDepth ≤ 256
  hParent        : parentReady 0 = false
  hSlot          : slotRead 0 = false
  hSymlink       : ∀ phys, symlinkAt 0 phys = false
  hLive          : live 0 = false

/-- The bytes `[off, off + len)`. -/
structure Access where
  off : Nat
  len : Nat
deriving DecidableEq, Repr

/-- The access stays in `[lo, hi)`. -/
def Access.Inside (a : Access) (lo hi : Nat) : Prop :=
  a.len = 0 ∨ (lo ≤ a.off ∧ a.off + a.len ≤ hi)

instance (a : Access) (lo hi : Nat) : Decidable (a.Inside lo hi) :=
  inferInstanceAs (Decidable (_ ∨ _))

/-- `le64_to_cpu` of the eight bytes at `off`. -/
def le64At (b : Block) (off : Nat) : Nat := le32 b off + 4294967296 * le32 b (off + 4)

--
-- The handlers
--

/-- The name bytes that `briefs_trie_insert` (`op` 0) or `briefs_trie_remove` looks at.
The length is an `int` there, and only the insert refuses a long name. -/
def nameReads (rest : Rest) (op : UInt8) (nameLen : Nat) : Nat :=
  if 2 ^ 31 ≤ nameLen then 0
  else if op = 0 ∧ 255 < nameLen then 0
  else min nameLen rest.nameDepth

/-- `replay_dir_update`, with the payload at `p`. Offsets are those of the struct. -/
def dirUpdateReads (rest : Rest) (b : Block) (p : Nat) : List Access :=
  [⟨0, 8⟩, ⟨8, 8⟩, ⟨16, 4⟩] ++
    if rest.parentReady (le64At b p) then
      ⟨275, 1⟩ :: (if b (p + 275) = 0 then [⟨276, 1⟩] else []) ++
        [⟨20, nameReads rest (b (p + 275)) (le32 b (p + 16))⟩]
    else []

/-- `replay_inode_update`: the generation is read only if the payload has it. -/
def inodeUpdateReads (rest : Rest) (b : Block) (p dataLen : Nat) : List Access :=
  [⟨0, 8⟩, ⟨8, 4⟩, ⟨12, 4⟩, ⟨16, 4⟩, ⟨20, 4⟩, ⟨24, 8⟩, ⟨32, 8⟩, ⟨40, 8⟩, ⟨48, 8⟩, ⟨56, 8⟩,
    ⟨64, 8⟩, ⟨72, 8⟩, ⟨80, 4⟩] ++
    if rest.slotRead (le64At b p) ∧ 96 ≤ dataLen then [⟨88, 8⟩] else []

/-- `replay_inode_full`. -/
def inodeFullReads (rest : Rest) (b : Block) (p : Nat) : List Access :=
  ⟨0, 8⟩ ::
    if rest.slotRead (le64At b p) then
      ⟨440, 8⟩ :: if rest.sameGeneration (le64At b p) then [⟨8, 512⟩] else []
    else []

/-- `replay_symlink_data`. -/
def symlinkDataReads (rest : Rest) (b : Block) (p : Nat) : List Access :=
  let len := le32 b (p + 16)
  [⟨0, 8⟩, ⟨8, 8⟩, ⟨16, 4⟩] ++
    if len = 0 ∨ 4096 < len then []
    else if rest.symlinkAt (le64At b p) (le64At b (p + 8)) then [⟨20, len⟩] else []

/-- `xattr_rec_next_block`; `version` and `next_block` of the block header. -/
def xattrNextReads (b : Block) (p : Nat) : List Access :=
  if le32 b (p + 16) < 32 then []
  else ⟨24, 4⟩ :: if le32 b (p + 24) = 1 then [] else [⟨36, 8⟩]

/-- `replay_xattr_data`. -/
def xattrDataReads (rest : Rest) (b : Block) (p : Nat) : List Access :=
  let used := le32 b (p + 16)
  [⟨8, 8⟩, ⟨0, 8⟩, ⟨16, 4⟩] ++
    if used = 0 ∨ 4044 < used then []
    else if rest.live (le64At b (p + 8)) then [⟨20, used⟩] else []

/-- `apply_record` on the payload at `p`; the accesses are relative to the payload. -/
def handlerReads (rest : Rest) (reserveOnly : Bool) (b : Block) (p dataLen : Nat) :
    RecordType → List Access
  | .extentAlloc => [⟨0, 8⟩, ⟨16, 8⟩, ⟨24, 8⟩]
  | .extentFree  => [⟨24, 8⟩, ⟨16, 8⟩]
  | .inodeUpdate => if reserveOnly then [] else inodeUpdateReads rest b p dataLen
  | .inodeAlloc  => [⟨0, 8⟩]
  | .inodeFree   => [⟨0, 8⟩]
  | .trieAlloc   => [⟨0, 8⟩, ⟨8, 4⟩]
  | .dirUpdate   => if reserveOnly then [] else dirUpdateReads rest b p
  | .inodeFull   =>
    [⟨0, 8⟩, ⟨392, 8⟩] ++ if reserveOnly then [⟨424, 8⟩] else inodeFullReads rest b p
  | .symlinkData => if reserveOnly then [] else symlinkDataReads rest b p
  | .xattrData   =>
    [⟨8, 8⟩, ⟨16, 4⟩] ++
      if reserveOnly then (if le64At b (p + 8) = 0 then [] else xattrNextReads b p)
      else xattrDataReads rest b p

--
-- The walk
--

/-- An access with the range that it may touch. -/
structure Bounded where
  access : Access
  lo     : Nat
  hi     : Nat
deriving DecidableEq, Repr

/-- The access keeps to its range. -/
def Bounded.Ok (x : Bounded) : Prop := x.access.Inside x.lo x.hi

instance (x : Bounded) : Decidable x.Ok := inferInstanceAs (Decidable (x.access.Inside _ _))

/-- An access of the walk itself: anywhere in the block. -/
def inBlock (off len : Nat) : Bounded := ⟨⟨off, len⟩, 0, journalBlockSize⟩

/-- The reads of the checks on the record at `recOff`, up to the one that refuses it. -/
def checkReads (b : Block) (recOff : Nat) : List Bounded :=
  let recType := le32 b recOff
  let dataLen := le32 b (recOff + 8)
  [inBlock recOff 4, inBlock (recOff + 8) 4] ++
    if recType ≤ jrnNone ∨ jrnEnd ≤ recType then []
    else if journalBlockSize < recOff + recordHeaderSize + dataLen then []
    else inBlock (recOff + 12) 4 ::
      if le32 b (recOff + 12) = 0 then []
      else [inBlock recOff 4, inBlock (recOff + 4) 4, inBlock (recOff + 8) 4,
        inBlock (recOff + recordHeaderSize) dataLen]

/-- The reads of the handler of the record at `recOff`, each bounded by the payload. -/
def payloadReads (rest : Rest) (reserveOnly : Bool) (b : Block) (recOff : Nat) : List Bounded :=
  let p := recOff + recordHeaderSize
  let dataLen := le32 b (recOff + 8)
  match RecordType.ofType (le32 b recOff) with
  | none => []
  | some t => (handlerReads rest reserveOnly b p dataLen t).map fun a =>
      ⟨⟨p + a.off, a.len⟩, p, p + dataLen⟩

/-- The record loop with `n` records of `record_count` left. -/
def recordLoopReads (rest : Rest) (reserveOnly : Bool) (b : Block) : Nat → Nat → List Bounded
  | 0, _ => []
  | n + 1, recOff =>
    if recOff < journalBlockSize then
      checkReads b recOff ++
        match decodeRecord b recOff with
        | .error _ => []
        | .ok rec =>
          (if rec.recType = jrnCheckpoint then [] else payloadReads rest reserveOnly b recOff) ++
            recordLoopReads rest reserveOnly b n (recOff + recordHeaderSize + le32 b (recOff + 8))
    else []

/-- The reads of one pass of `walk_journal` on a block. -/
def walkReads (rest : Rest) (reserveOnly : Bool) (b : Block) : List Bounded :=
  inBlock 0 4 ::
    if validMagic b then
      inBlock 8 4 :: recordLoopReads rest reserveOnly b (recordCount b) blockHeaderSize
    else []

/-- Whatever the rest of the file system answers, a pass over the block reads only inside
the block, and of a record's struct only bytes of its payload. -/
def ReadsInside (reserveOnly : Bool) (b : Block) : Prop :=
  ∀ rest, ∀ x ∈ walkReads rest reserveOnly b, x.Ok

--
-- One record
--

/-- The payload length that the handler of a record relies on. -/
def minLen (reserveOnly : Bool) (b : Block) (p : Nat) : RecordType → Nat
  | .extentAlloc => 32
  | .extentFree  => 32
  | .inodeUpdate => if reserveOnly then 0 else 84
  | .inodeAlloc  => 8
  | .inodeFree   => 8
  | .trieAlloc   => 12
  | .dirUpdate   =>
    if reserveOnly then 0
    else if le64At b p = 0 then 20
    else if b (p + 275) = 0 then 277 else 276
  | .inodeFull   => if reserveOnly then 432 else if le64At b p = 0 then 400 else 520
  | .symlinkData =>
    if reserveOnly then 0
    else if le64At b p = 0 ∨ le32 b (p + 16) = 0 ∨ 4096 < le32 b (p + 16) then 20
    else 20 + le32 b (p + 16)
  | .xattrData   =>
    if reserveOnly then
      if le64At b (p + 8) = 0 ∨ le32 b (p + 16) < 32 then 20
      else if le32 b (p + 24) = 1 then 28 else 44
    else if le64At b (p + 8) = 0 ∨ le32 b (p + 16) = 0 ∨ 4044 < le32 b (p + 16) then 20
    else 20 + le32 b (p + 16)

/-- All accesses of a handler end within the payload. -/
def Within (l : List Access) (dataLen : Nat) : Prop := ∀ a ∈ l, a.len = 0 ∨ a.off + a.len ≤ dataLen

/-- A file system in which every handler gets as far as it can. -/
def Rest.most : Rest where
  parentReady ino := ino != 0
  slotRead ino := ino != 0
  sameGeneration _ := true
  symlinkAt ino _ := ino != 0
  live phys := phys != 0
  nameDepth := 256
  hNameDepth := Nat.le_refl 256
  hParent := rfl
  hSlot := rfl
  hSymlink _ := rfl
  hLive := rfl

theorem nameReads_le (rest : Rest) (op : UInt8) (nameLen : Nat) :
    nameReads rest op nameLen ≤ 256 ∧ (op = 0 → nameReads rest op nameLen ≤ 255) := by
  have hDepth := rest.hNameDepth
  unfold nameReads
  split
  · exact ⟨by omega, fun _ => by omega⟩
  · split
    · exact ⟨by omega, fun _ => by omega⟩
    · rename_i hShort
      refine ⟨by omega, ?_⟩
      intro hOp
      have hLe : ¬ 255 < nameLen := fun hLong => hShort ⟨hOp, hLong⟩
      omega

variable {b : Block} {p dataLen : Nat}

theorem within_nil : Within [] dataLen := fun _ ha => absurd ha List.not_mem_nil

theorem within_cons {a : Access} {l : List Access} :
    Within (a :: l) dataLen ↔ (a.len = 0 ∨ a.off + a.len ≤ dataLen) ∧ Within l dataLen :=
  List.forall_mem_cons

theorem within_append {l l' : List Access} :
    Within (l ++ l') dataLen ↔ Within l dataLen ∧ Within l' dataLen :=
  List.forall_mem_append

theorem dirUpdate_within : (∀ rest, Within (dirUpdateReads rest b p) dataLen) ↔
    minLen false b p .dirUpdate ≤ dataLen := by
  simp only [minLen, Bool.false_eq_true, if_false]
  constructor
  · intro h
    have hMost := h Rest.most
    unfold dirUpdateReads at hMost
    by_cases hIno : le64At b p = 0
    · simp only [within_append, within_cons] at hMost
      rw [if_pos hIno]
      omega
    · have hReady : Rest.most.parentReady (le64At b p) = true := by simp [Rest.most, hIno]
      rw [if_pos hReady] at hMost
      rw [if_neg hIno]
      by_cases hOp : b (p + 275) = 0
      · simp only [if_pos hOp, within_append, within_cons] at hMost
        rw [if_pos hOp]
        omega
      · simp only [if_neg hOp, within_append, within_cons] at hMost
        rw [if_neg hOp]
        omega
  · intro h rest
    unfold dirUpdateReads
    obtain ⟨hName, hNameAdd⟩ := nameReads_le rest (b (p + 275)) (le32 b (p + 16))
    by_cases hIno : le64At b p = 0
    · rw [if_pos hIno] at h
      have hReady : ¬ rest.parentReady (le64At b p) = true := by simp [hIno, rest.hParent]
      rw [if_neg hReady]
      simp only [within_append, within_cons, within_nil, and_true]
      omega
    · rw [if_neg hIno] at h
      by_cases hOp : b (p + 275) = 0
      · rw [if_pos hOp] at h ⊢
        have hNameLe := hNameAdd hOp
        split <;> simp only [within_append, within_cons, within_nil, and_true] <;> omega
      · rw [if_neg hOp] at h ⊢
        split <;> simp only [within_append, within_cons, within_nil, and_true] <;> omega

theorem inodeUpdate_within : (∀ rest, Within (inodeUpdateReads rest b p dataLen) dataLen) ↔
    minLen false b p .inodeUpdate ≤ dataLen := by
  simp only [minLen, Bool.false_eq_true, if_false]
  constructor
  · intro h
    have hMost := h Rest.most
    unfold inodeUpdateReads at hMost
    simp only [within_append, within_cons] at hMost
    omega
  · intro h rest
    unfold inodeUpdateReads
    split
    · rename_i hGen
      have hLong := hGen.2
      simp only [within_append, within_cons, within_nil, and_true]
      omega
    · simp only [within_append, within_cons, within_nil, and_true]
      omega

theorem inodeFull_within :
    (∀ rest, Within ([⟨0, 8⟩, ⟨392, 8⟩] ++ inodeFullReads rest b p) dataLen) ↔
    minLen false b p .inodeFull ≤ dataLen := by
  simp only [minLen, Bool.false_eq_true, if_false]
  constructor
  · intro h
    have hMost := h Rest.most
    unfold inodeFullReads at hMost
    by_cases hIno : le64At b p = 0
    · simp only [within_append, within_cons] at hMost
      rw [if_pos hIno]
      omega
    · have hSlot : Rest.most.slotRead (le64At b p) = true := by simp [Rest.most, hIno]
      have hGen : Rest.most.sameGeneration (le64At b p) = true := rfl
      rw [if_pos hSlot, if_pos hGen] at hMost
      simp only [within_append, within_cons] at hMost
      rw [if_neg hIno]
      omega
  · intro h rest
    unfold inodeFullReads
    by_cases hIno : le64At b p = 0
    · rw [if_pos hIno] at h
      have hSlot : ¬ rest.slotRead (le64At b p) = true := by simp [hIno, rest.hSlot]
      rw [if_neg hSlot]
      simp only [within_append, within_cons, within_nil, and_true]
      omega
    · rw [if_neg hIno] at h
      split
      · split <;> simp only [within_append, within_cons, within_nil, and_true] <;> omega
      · simp only [within_append, within_cons, within_nil, and_true]
        omega

theorem symlinkData_within : (∀ rest, Within (symlinkDataReads rest b p) dataLen) ↔
    minLen false b p .symlinkData ≤ dataLen := by
  simp only [minLen, Bool.false_eq_true, if_false]
  constructor
  · intro h
    have hMost := h Rest.most
    unfold symlinkDataReads at hMost
    simp only [within_append, within_cons] at hMost
    by_cases hSkip : le64At b p = 0 ∨ le32 b (p + 16) = 0 ∨ 4096 < le32 b (p + 16)
    · rw [if_pos hSkip]
      omega
    · rw [if_neg hSkip]
      rw [not_or] at hSkip
      have hLink : Rest.most.symlinkAt (le64At b p) (le64At b (p + 8)) = true := by
        simp [Rest.most, hSkip.1]
      rw [if_neg hSkip.2, if_pos hLink] at hMost
      simp only [within_cons] at hMost
      omega
  · intro h rest
    unfold symlinkDataReads
    simp only [within_append, within_cons, within_nil, and_true]
    by_cases hLen : le32 b (p + 16) = 0 ∨ 4096 < le32 b (p + 16)
    · rw [if_pos (Or.inr hLen)] at h
      rw [if_pos hLen]
      exact ⟨by omega, within_nil⟩
    · rw [if_neg hLen]
      by_cases hIno : le64At b p = 0
      · have hLink : ¬ rest.symlinkAt (le64At b p) (le64At b (p + 8)) = true := by
          simp [hIno, rest.hSymlink]
        rw [if_pos (Or.inl hIno)] at h
        rw [if_neg hLink]
        exact ⟨by omega, within_nil⟩
      · rw [if_neg (not_or.mpr ⟨hIno, hLen⟩)] at h
        split
        · simp only [within_cons, within_nil, and_true]
          omega
        · exact ⟨by omega, within_nil⟩

theorem xattrNext_within :
    Within ([⟨8, 8⟩, ⟨16, 4⟩] ++ if le64At b (p + 8) = 0 then [] else xattrNextReads b p) dataLen ↔
    minLen true b p .xattrData ≤ dataLen := by
  simp only [minLen, if_true, within_append, within_cons, within_nil, and_true]
  by_cases hPhys : le64At b (p + 8) = 0
  · rw [if_pos hPhys, if_pos (Or.inl hPhys)]
    simp only [within_nil, and_true]
    omega
  · rw [if_neg hPhys]
    unfold xattrNextReads
    by_cases hUsed : le32 b (p + 16) < 32
    · rw [if_pos hUsed, if_pos (Or.inr hUsed)]
      simp only [within_nil, and_true]
      omega
    · rw [if_neg hUsed, if_neg (not_or.mpr ⟨hPhys, hUsed⟩)]
      split <;> simp only [within_cons, within_nil, and_true] <;> omega

theorem xattrData_within :
    (∀ rest, Within ([⟨8, 8⟩, ⟨16, 4⟩] ++ xattrDataReads rest b p) dataLen) ↔
    minLen false b p .xattrData ≤ dataLen := by
  simp only [minLen, Bool.false_eq_true, if_false]
  constructor
  · intro h
    have hMost := h Rest.most
    unfold xattrDataReads at hMost
    simp only [within_append, within_cons] at hMost
    by_cases hSkip : le64At b (p + 8) = 0 ∨ le32 b (p + 16) = 0 ∨ 4044 < le32 b (p + 16)
    · rw [if_pos hSkip]
      omega
    · rw [if_neg hSkip]
      rw [not_or] at hSkip
      have hLive : Rest.most.live (le64At b (p + 8)) = true := by simp [Rest.most, hSkip.1]
      rw [if_neg hSkip.2, if_pos hLive] at hMost
      simp only [within_cons] at hMost
      omega
  · intro h rest
    unfold xattrDataReads
    simp only [within_append, within_cons, within_nil, and_true]
    by_cases hLen : le32 b (p + 16) = 0 ∨ 4044 < le32 b (p + 16)
    · rw [if_pos (Or.inr hLen)] at h
      rw [if_pos hLen]
      exact ⟨by omega, by omega, within_nil⟩
    · rw [if_neg hLen]
      by_cases hPhys : le64At b (p + 8) = 0
      · have hLive : ¬ rest.live (le64At b (p + 8)) = true := by simp [hPhys, rest.hLive]
        rw [if_pos (Or.inl hPhys)] at h
        rw [if_neg hLive]
        exact ⟨by omega, by omega, within_nil⟩
      · rw [if_neg (not_or.mpr ⟨hPhys, hLen⟩)] at h
        split
        · simp only [within_cons, within_nil, and_true]
          omega
        · exact ⟨by omega, by omega, within_nil⟩

/-- Reads that do not depend on the rest of the file system. -/
theorem forall_rest {P : Prop} : (∀ _ : Rest, P) ↔ P := ⟨fun h => h Rest.most, fun h _ => h⟩

/-- A handler keeps to the payload, whatever the rest of the file system answers, exactly
if the payload has the length it relies on. -/
theorem handlerReads_inside_iff (reserveOnly : Bool) (t : RecordType) :
    (∀ rest, Within (handlerReads rest reserveOnly b p dataLen t) dataLen) ↔
      minLen reserveOnly b p t ≤ dataLen := by
  cases t with
  | extentAlloc | extentFree | inodeAlloc | inodeFree | trieAlloc =>
    simp only [handlerReads, forall_rest, minLen, within_cons, within_nil, and_true]
    omega
  | inodeUpdate =>
    cases reserveOnly with
    | true => simp [handlerReads, minLen, within_nil]
    | false => exact inodeUpdate_within
  | dirUpdate =>
    cases reserveOnly with
    | true => simp [handlerReads, minLen, within_nil]
    | false => exact dirUpdate_within
  | inodeFull =>
    cases reserveOnly with
    | true =>
      simp only [handlerReads, forall_rest, minLen, if_true, within_append, within_cons,
        within_nil, and_true]
      omega
    | false => exact inodeFull_within
  | symlinkData =>
    cases reserveOnly with
    | true => simp [handlerReads, minLen, within_nil]
    | false => exact symlinkData_within
  | xattrData =>
    cases reserveOnly with
    | true => exact forall_rest.trans xattrNext_within
    | false => exact xattrData_within

--
-- The whole block
--

/-- The offsets of the records that the loop looks at. -/
def recordOffsets (b : Block) : Nat → Nat → List Nat
  | 0, _ => []
  | n + 1, recOff =>
    if recOff < journalBlockSize then
      recOff :: match decodeRecord b recOff with
        | .error _ => []
        | .ok _ => recordOffsets b n (recOff + recordHeaderSize + le32 b (recOff + 8))
    else []

/-- The type and the length of the record lie in the block, and a record that passes the
checks is long enough for its type. -/
def Sized (reserveOnly : Bool) (b : Block) (recOff : Nat) : Prop :=
  recOff + 12 ≤ journalBlockSize ∧
    ∀ rec t, decodeRecord b recOff = .ok rec → RecordType.ofType (le32 b recOff) = some t →
      minLen reserveOnly b (recOff + recordHeaderSize) t ≤ le32 b (recOff + 8)

theorem checkReads_ok {recOff : Nat} :
    (∀ x ∈ checkReads b recOff, x.Ok) ↔ recOff + 12 ≤ journalBlockSize := by
  constructor
  · intro h
    have hLen : (inBlock (recOff + 8) 4).Ok := h _ (by simp [checkReads])
    unfold Bounded.Ok Access.Inside inBlock at hLen
    simp only at hLen
    omega
  · intro h x hx
    unfold checkReads at hx
    simp only at hx
    rcases List.mem_append.mp hx with hFirst | hMore
    · simp only [List.mem_cons, List.not_mem_nil, or_false] at hFirst
      rcases hFirst with rfl | rfl <;>
        (refine Or.inr ⟨Nat.zero_le _, ?_⟩; simp only [inBlock]; omega)
    · by_cases hType : le32 b recOff ≤ jrnNone ∨ jrnEnd ≤ le32 b recOff
      · rw [if_pos hType] at hMore
        exact absurd hMore List.not_mem_nil
      rw [if_neg hType] at hMore
      by_cases hOver : journalBlockSize < recOff + recordHeaderSize + le32 b (recOff + 8)
      · rw [if_pos hOver] at hMore
        exact absurd hMore List.not_mem_nil
      rw [if_neg hOver] at hMore
      have hIn : ∀ off len, off + len ≤ recOff + recordHeaderSize + le32 b (recOff + 8) →
          (inBlock off len).Ok :=
        fun off len hLe => Or.inr ⟨Nat.zero_le _, by simp only [inBlock]; omega⟩
      have hSize : recordHeaderSize = 16 := rfl
      split at hMore
      · simp only [List.mem_singleton] at hMore
        subst hMore
        exact hIn _ _ (by omega)
      · simp only [List.mem_cons, List.not_mem_nil, or_false] at hMore
        rcases hMore with rfl | rfl | rfl | rfl | rfl <;> exact hIn _ _ (by omega)

theorem payloadReads_ok {rest : Rest} {reserveOnly : Bool} {recOff : Nat} :
    (∀ x ∈ payloadReads rest reserveOnly b recOff, x.Ok) ↔
      ∀ t, RecordType.ofType (le32 b recOff) = some t →
        Within (handlerReads rest reserveOnly b (recOff + recordHeaderSize) (le32 b (recOff + 8)) t)
          (le32 b (recOff + 8)) := by
  unfold payloadReads
  cases hType : RecordType.ofType (le32 b recOff) with
  | none => simp
  | some t =>
    simp only [Option.some.injEq, forall_eq', List.forall_mem_map]
    unfold Within Bounded.Ok Access.Inside
    refine forall₂_congr fun a _ => ?_
    simp only
    omega

/-- The checkpoint marker has no case in `apply_record`, so skipping it changes nothing. -/
theorem payloadReads_of_checkpoint {rest : Rest} {reserveOnly : Bool} {recOff : Nat}
    {rec : Record} (hDec : decodeRecord b recOff = .ok rec) (hType : rec.recType = jrnCheckpoint) :
    payloadReads rest reserveOnly b recOff = [] := by
  have hRec : rec.recType = le32 b recOff := by
    unfold decodeRecord at hDec
    simp only at hDec
    split at hDec
    · cases hDec
    · split at hDec
      · cases hDec
      · split at hDec
        · cases hDec
        · cases hDec
          rfl
  unfold payloadReads
  rw [← hRec, hType]
  rfl

/-- The reads of the record loop, record by record. -/
theorem recordLoopReads_ok (reserveOnly : Bool) (b : Block) : ∀ (n recOff : Nat),
    (∀ rest, ∀ x ∈ recordLoopReads rest reserveOnly b n recOff, x.Ok) ↔
      ∀ off ∈ recordOffsets b n recOff, Sized reserveOnly b off
  | 0, recOff => by simp [recordLoopReads, recordOffsets]
  | n + 1, recOff => by
    unfold recordLoopReads recordOffsets
    by_cases hIn : recOff < journalBlockSize
    · simp only [hIn, if_true]
      cases hDec : decodeRecord b recOff with
      | error e =>
        simp only [List.append_nil, List.forall_mem_singleton]
        rw [checkReads_ok, forall_rest]
        constructor
        · intro h
          refine ⟨h, ?_⟩
          intro rec t hOk
          rw [hDec] at hOk
          cases hOk
        · intro h
          exact h.1
      | ok rec =>
        have hPayload : ∀ rest, (if rec.recType = jrnCheckpoint then []
            else payloadReads rest reserveOnly b recOff) =
              payloadReads rest reserveOnly b recOff := by
          intro rest
          split
          · rename_i hType
            exact (payloadReads_of_checkpoint hDec hType).symm
          · rfl
        have hNext := recordLoopReads_ok reserveOnly b n
          (recOff + recordHeaderSize + le32 b (recOff + 8))
        simp only [hPayload, List.forall_mem_append, List.forall_mem_cons, forall_and, hNext,
          payloadReads_ok, checkReads_ok, forall_rest]
        have hHandlers : (∀ (rest : Rest) t, RecordType.ofType (le32 b recOff) = some t →
            Within (handlerReads rest reserveOnly b (recOff + recordHeaderSize)
              (le32 b (recOff + 8)) t) (le32 b (recOff + 8))) ↔
            ∀ t, RecordType.ofType (le32 b recOff) = some t →
              minLen reserveOnly b (recOff + recordHeaderSize) t ≤ le32 b (recOff + 8) := by
          constructor
          · intro h t ht
            exact (handlerReads_inside_iff reserveOnly t).mp fun rest => h rest t ht
          · intro h rest t ht
            exact (handlerReads_inside_iff reserveOnly t).mpr (h t ht) rest
        rw [hHandlers]
        constructor
        · rintro ⟨hHead, hLong, hRest⟩
          refine ⟨⟨hHead, ?_⟩, hRest⟩
          intro rec' t _ ht
          exact hLong t ht
        · rintro ⟨⟨hHead, hLong⟩, hRest⟩
          exact ⟨hHead, fun t ht => hLong rec t hDec ht, hRest⟩
    · simp [hIn]

/-- A pass over a block reads inside the block and inside the payloads, exactly if the
magic is refused or every record the loop looks at is sized for its type. -/
theorem walk_reads_inside_iff (reserveOnly : Bool) (b : Block) :
    ReadsInside reserveOnly b ↔
      (validMagic b = true → ∀ off ∈ recordOffsets b (recordCount b) blockHeaderSize,
        Sized reserveOnly b off) := by
  have hHead : (inBlock 0 4).Ok := by decide
  have hCount : (inBlock 8 4).Ok := by decide
  unfold ReadsInside walkReads
  by_cases hMagic : validMagic b = true
  · simp only [hMagic, if_true, List.forall_mem_cons, hHead, hCount, true_and, forall_const]
    exact recordLoopReads_ok reserveOnly b (recordCount b) blockHeaderSize
  · simp [hMagic, hHead]

/-- A block with one record of type `JRN_EXTENT_ALLOC`, with no payload and no checksum. -/
def shortRecord : Block := fun i =>
  if i = 0 then 0x5A else if i = 1 then 0x4C else if i = 2 then 0x4E else if i = 3 then 0x4A
  else if i = 8 then 1 else if i = 16 then 1 else 0

/-- The empty payload passes the checks of the walk, and the handler reads 32 bytes of it. -/
theorem extent_alloc_reads_past_payload :
    ¬ ReadsInside true shortRecord := by
  intro h
  have hRead := h Rest.most ⟨⟨32, 8⟩, 32, 32⟩ (by decide)
  revert hRead
  decide

end Briefs.Replay
