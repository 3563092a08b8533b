import Briefs.Crc32c
import Briefs.Journal.Readback
import Briefs.Replay.World
import Briefs.Xattr.Pack
import Mathlib.Tactic.IntervalCases

/-!
# BrieFS — the bytes of an xattr block

`briefs_xattr_set` lays a block out in a zeroed buffer: the header, the entry records, the
names and values, zeros from `used_size` on, and a checksum of the first 4080 bytes behind
them. `briefs_journal_xattr_data` logs the first `used_size` bytes. `replay_xattr_data` puts
them back, clears the rest and computes the checksum anew, and
`briefs_xattr_block_read_abs` decides whether the block is read.

## Results

* `restored_serialize`, `restored_restore` — a block that is written, and one that replay puts
  back over whatever lay there, hold the bytes of the record and zeros behind them, and are
  accepted.
-/

namespace Briefs.Xattr

open Briefs.Journal Briefs.Replay

--
-- Definitions
--

/-- `BRIEFS_XATTR_MAGIC`, "XATT". -/
def xattrMagic : Nat := 0x58415454

/-- `BRIEFS_XATTR_VERSION`. -/
def xattrVersion : Nat := 2

/-- Where the checksum lies, `BRIEFS_BLOCK_SIZE - 2 * sizeof(__u64)`. -/
def crcSlot : Nat := 4080

/-- `cpu_to_le16`, as bytes. -/
def bytesOfLe16 (v : Nat) : List UInt8 := [UInt8.ofNat v, UInt8.ofNat (v / 256)]

/-- `le64_to_cpu` of the eight bytes at `off`. -/
def le64 (b : Block) (off : Nat) : Nat := le32 b off + 4294967296 * le32 b (off + 4)

/-- `briefs_chain_checksum`. -/
def chainChecksum (b : Block) : Nat := (crc32c 0#32 (slice b 0 crcSlot)).toNat

/-- `struct briefs_xattr_header`. -/
def XBlock.header (x : XBlock) (next : Nat) : List UInt8 :=
  bytesOfLe32 xattrMagic ++ bytesOfLe32 xattrVersion ++ bytesOfLe32 x.usedSize ++
    bytesOfLe32 x.entries.length ++ bytesOfLe64 next ++
    bytesOfLe32 (if x.cont then 1 else 0) ++ bytesOfLe32 0

def Entry.bytes (e : Entry) : List UInt8 :=
  bytesOfLe16 e.nameLen ++ bytesOfLe16 e.valueLen ++ bytesOfLe16 e.nameOffset ++
    bytesOfLe16 e.valueOffset

/-- The end of both writers of a block: zeros from `used` on, then the checksum. -/
def finishBlock (b : Block) (used : Nat) : Block :=
  let zeroed : Block := fun i => if used ≤ i ∧ i < journalBlockSize then 0 else b i
  zeroed.store crcSlot (bytesOfLe64 (chainChecksum zeroed))

/-- The buffer that `briefs_xattr_set` writes for a block of the chain. -/
def XBlock.serialize (x : XBlock) (next : Nat) : Block :=
  finishBlock ((x.data.store hdrSize (x.entries.flatMap Entry.bytes)).store 0 (x.header next)) x.usedSize

/-- The record of `briefs_journal_xattr_data` for a block. -/
def xattrRecord (ino phys : Nat) (x : XBlock) (next : Nat) : XattrData where
  ino       := ino
  physBlock := phys
  usedSize  := x.usedSize
  version   := xattrVersion
  nextBlock := next
  data      := slice (x.serialize next) 0 x.usedSize

/-- The buffer after `replay_xattr_data`. -/
def restore (rec : XattrData) (b : Block) : Block :=
  finishBlock (b.store 0 (rec.data.take rec.usedSize)) rec.usedSize

/-- `briefs_xattr_hdr_size`. -/
def xattrHdrSize (version : Nat) : Nat := if version = 1 then 16 else 32

/-- `briefs_xattr_block_read_abs` accepts the buffer. A checksum of 0 is not compared. -/
def readAbs (b : Block) : Bool :=
  le32 b 0 == xattrMagic && (le32 b 4 == 1 || le32 b 4 == 2) && le32 b 8 != 0 &&
    decide (le32 b 8 ≤ Briefs.Replay.xattrMaxUsed) && decide (xattrHdrSize (le32 b 4) ≤ le32 b 8) &&
    (le64 b crcSlot == 0 || le64 b crcSlot == chainChecksum b)

/-- The block holds what the record has, with zeros behind it, and is accepted. -/
structure Restored (rec : XattrData) (b : Block) : Prop where
  content : slice b 0 rec.usedSize = rec.data
  zeros   : ∀ i, rec.usedSize ≤ i → i < crcSlot ∨ crcSlot + 8 ≤ i ∧ i < journalBlockSize → b i = 0
  read    : readAbs b = true

--
-- Sealing
--

section Seal

variable {b b' : Block} {used i : Nat}

theorem finishBlock_below (hUsed : used ≤ crcSlot) (hi : i < used) : finishBlock b used i = b i := by
  unfold finishBlock
  rw [store_outside _ (.inl (by omega))]
  exact if_neg (by omega)

theorem finishBlock_zero (hi : used ≤ i) (hSlot : i < crcSlot ∨ crcSlot + 8 ≤ i ∧ i < journalBlockSize) :
    finishBlock b used i = 0 := by
  have hSize : crcSlot < journalBlockSize := by decide
  unfold finishBlock
  rw [store_outside _ (by rw [length_bytesOfLe64]; omega)]
  exact if_pos ⟨hi, by omega⟩

theorem store_start (b : Block) {bytes : List UInt8} (hi : i < bytes.length) :
    b.store 0 bytes i = bytes.getD i 0 := by
  have hStore : b.store 0 bytes (0 + i) = bytes.getD i 0 := store_inside b hi
  rwa [Nat.zero_add] at hStore

theorem le64_bytes {off v : Nat} (hv : v < 2 ^ 64)
    (h : ∀ k < 8, b (off + k) = (bytesOfLe64 v).getD k 0) : le64 b off = v := by
  have hLow : le32 b off = v % 2 ^ 32 := by
    refine le32_of_bytes (Nat.mod_lt _ (by decide)) ?_ ?_ ?_ ?_
    · rw [show off = off + 0 from rfl, h 0 (by decide)]
      show UInt8.ofNat v = _
      exact UInt8.toNat_inj.1 (by simp only [UInt8.toNat_ofNat']; omega)
    · rw [h 1 (by decide)]
      show UInt8.ofNat (v / 256) = _
      exact UInt8.toNat_inj.1 (by simp only [UInt8.toNat_ofNat']; omega)
    · rw [h 2 (by decide)]
      show UInt8.ofNat (v / 65536) = _
      exact UInt8.toNat_inj.1 (by simp only [UInt8.toNat_ofNat']; omega)
    · rw [h 3 (by decide)]
      show UInt8.ofNat (v / 16777216) = _
      exact UInt8.toNat_inj.1 (by simp only [UInt8.toNat_ofNat']; omega)
  have hHigh : le32 b (off + 4) = v / 4294967296 :=
    le32_of_bytes (by omega) (h 4 (by decide)) (h 5 (by decide)) (h 6 (by decide)) (h 7 (by decide))
  unfold le64
  rw [hLow, hHigh]
  omega

/-- The checksum of a sealed block is the one stored in it. -/
theorem le64_finishBlock (b : Block) (used : Nat) :
    le64 (finishBlock b used) crcSlot = chainChecksum (finishBlock b used) := by
  have hSame : chainChecksum (finishBlock b used) =
      chainChecksum fun i => if used ≤ i ∧ i < journalBlockSize then 0 else b i := by
    unfold chainChecksum finishBlock
    rw [slice_congr]
    intro i _ hHigh
    exact store_outside _ (.inl (by omega))
  rw [hSame]
  refine le64_bytes ?_ ?_
  · unfold chainChecksum
    exact lt_trans (BitVec.isLt _) (by decide)
  · intro k hk
    unfold finishBlock
    exact store_inside _ (by rw [length_bytesOfLe64]; exact hk)

end Seal

--
-- Blocks of a chain
--

/-- What every block of a chain has in its header. -/
structure XBlock.Fits (x : XBlock) : Prop where
  header : hdrSize ≤ x.usedSize
  most   : x.usedSize ≤ Briefs.Replay.xattrMaxUsed

theorem frag_length_le {value frag : List UInt8} : ∀ {fuel off : Nat}, frag ∈ frags value fuel off →
    frag.length ≤ maxPayload := by
  intro fuel
  induction fuel with
  | zero => intro off h; exact absurd h List.not_mem_nil
  | succ fuel ih =>
    intro off h
    unfold frags at h
    split at h
    · exact absurd h List.not_mem_nil
    · rcases List.mem_cons.1 h with rfl | hRest
      · exact (List.length_take ..).le.trans (Nat.min_le_left _ _)
      · exact ih hRest

theorem Group.Ok.fits {g : Group} (h : g.Ok) {x : XBlock} (hx : x ∈ g.blocks) : x.Fits := by
  have hMax : maxPayload = 4012 := rfl
  have hMost : Briefs.Replay.xattrMaxUsed = 4044 := rfl
  have hHdr : hdrSize = 32 := rfl
  have hEntry : entrySize = 8 := rfl
  rcases List.mem_cons.1 hx with rfl | hCont
  · have hUsed := h.used
    have hLe := h.most
    obtain ⟨-, hStop, -⟩ := layEntries_laidOut g.entries (hdrSize + g.entries.length * entrySize)
      (fun _ => 0) (by omega) h.inline_le
    have hSize : g.entryBlock.usedSize =
        hdrSize + g.entries.length * entrySize + room g.entries := hStop
    exact ⟨by omega, by omega⟩
  · obtain ⟨frag, hFrag, rfl⟩ := List.mem_map.1 hCont
    have hLen : frag.length ≤ maxPayload := by
      rcases h.spill with ⟨hNone, -⟩ | ⟨front, kv, inl, hSpill⟩
      · rw [hNone] at hFrag
        exact absurd hFrag List.not_mem_nil
      · rw [hSpill.conts] at hFrag
        exact frag_length_le hFrag
    exact ⟨Nat.le_add_right _ _, by show hdrSize + frag.length ≤ _; omega⟩

/-- Every block that `briefs_xattr_set` writes keeps to the bounds of the header. -/
theorem chainBlocks_fit {kvs : List KV} (h : ∀ kv ∈ kvs, kv.name.length ≤ nameMax) {x : XBlock}
    (hx : x ∈ chainBlocks kvs) : x.Fits := by
  obtain ⟨g, hg, hBlock⟩ := List.mem_flatMap.1 hx
  cases kvs with
  | nil => exact absurd hg List.not_mem_nil
  | cons kv kvs => exact ((pack_ok (kv :: kvs) Group.empty_ok h).1 g hg).fits hBlock

section Image

variable {x : XBlock} {next : Nat}

theorem length_header : (x.header next).length = 32 := rfl

theorem serialize_header (h : x.Fits) {i : Nat} (hi : i < 32) :
    x.serialize next i = (x.header next).getD i 0 := by
  have hMost := h.most
  have hHdr := h.header
  have hMax : Briefs.Replay.xattrMaxUsed = 4044 := rfl
  have hSize : hdrSize = 32 := rfl
  have hSlot : crcSlot = 4080 := rfl
  unfold XBlock.serialize
  rw [finishBlock_below (by omega) (by omega)]
  exact store_start _ (by rw [length_header]; exact hi)

theorem serialize_magic (h : x.Fits) : le32 (x.serialize next) 0 = xattrMagic :=
  le32_of_bytes (by decide) (serialize_header h (by decide)) (serialize_header h (by decide))
    (serialize_header h (by decide)) (serialize_header h (by decide))

theorem serialize_version (h : x.Fits) : le32 (x.serialize next) 4 = xattrVersion :=
  le32_of_bytes (by decide) (serialize_header h (by decide)) (serialize_header h (by decide))
    (serialize_header h (by decide)) (serialize_header h (by decide))

theorem serialize_usedSize (h : x.Fits) : le32 (x.serialize next) 8 = x.usedSize := by
  have hMost := h.most
  have hMax : Briefs.Replay.xattrMaxUsed = 4044 := rfl
  exact le32_of_bytes (by omega) (serialize_header h (by decide)) (serialize_header h (by decide))
    (serialize_header h (by decide)) (serialize_header h (by decide))

/-- A block that is finished with the bytes of the record below `used_size` holds the record. -/
theorem restored_of_agree (h : x.Fits) (ino phys : Nat) {b : Block}
    (hAgree : ∀ i < x.usedSize, b i = x.serialize next i) :
    Restored (xattrRecord ino phys x next) (finishBlock b x.usedSize) := by
  have hMost := h.most
  have hHdr := h.header
  have hMax : Briefs.Replay.xattrMaxUsed = 4044 := rfl
  have hSize : hdrSize = 32 := rfl
  have hSlot : crcSlot = 4080 := rfl
  have hBelow : ∀ i < x.usedSize, finishBlock b x.usedSize i = x.serialize next i :=
    fun i hi => (finishBlock_below (by omega) hi).trans (hAgree i hi)
  have hWord : ∀ off, off + 4 ≤ 32 →
      le32 (finishBlock b x.usedSize) off = le32 (x.serialize next) off :=
    fun off hOff => le32_congr fun i _ hHigh => hBelow i (by omega)
  have hContent : slice (finishBlock b x.usedSize) 0 x.usedSize =
      slice (x.serialize next) 0 x.usedSize := slice_congr fun i _ hHigh => hBelow i (by omega)
  refine ⟨hContent, fun i hi hZero => finishBlock_zero hi hZero, ?_⟩
  have hPos : x.usedSize ≠ 0 := by omega
  unfold readAbs
  rw [hWord 0 (by decide), hWord 4 (by decide), hWord 8 (by decide), serialize_magic h,
    serialize_version h, serialize_usedSize h, le64_finishBlock]
  simp only [beq_self_eq_true, Bool.or_true, Bool.and_true, Bool.true_and, Bool.and_eq_true,
    bne_iff_ne, ne_eq, decide_eq_true_eq]
  exact ⟨⟨⟨rfl, hPos⟩, hMost⟩, hHdr⟩

/-- The block as `briefs_xattr_set` writes it. -/
theorem restored_serialize (h : x.Fits) (ino phys : Nat) :
    Restored (xattrRecord ino phys x next) (x.serialize next) := by
  refine restored_of_agree h ino phys fun i hi => ?_
  have hMost := h.most
  have hMax : Briefs.Replay.xattrMaxUsed = 4044 := rfl
  have hSlot : crcSlot = 4080 := rfl
  exact (finishBlock_below (by omega) hi).symm

/-- The block as replay leaves it, whatever lay there before. -/
theorem restored_restore (h : x.Fits) (ino phys : Nat) (b : Block) :
    Restored (xattrRecord ino phys x next) (restore (xattrRecord ino phys x next) b) := by
  have hData : (xattrRecord ino phys x next).data.take (xattrRecord ino phys x next).usedSize =
      slice (x.serialize next) 0 x.usedSize :=
    List.take_of_length_le (by show (slice _ _ _).length ≤ _; rw [length_slice]; exact le_rfl)
  unfold restore
  rw [hData]
  refine restored_of_agree h ino phys fun i hi => ?_
  rw [store_start b (by rw [length_slice]; exact hi)]
  simp [slice, hi]

end Image

end Briefs.Xattr
