import Briefs.Crc32c

/-!
# BrieFS — journal block format

A journal block is 4096 bytes: a 16-byte block header (magic, sequence number,
record count), then records, each a 16-byte record header followed by
`data_len` bytes. All integers are little endian. This module has the byte
layout and the checks a single record must pass; the walk over the ring is
`Briefs.Replay.Walk`.
-/

namespace Briefs.Journal

--
-- Error numbers
--

/-- The error numbers that the modelled functions return, negated, in the
source. A return code is an `Option Errno`: `none` is the return value 0. -/
inductive Errno where
  | enoent
  | eio
  | enomem
  | eexist
  | einval
  | enospc
deriving DecidableEq, Repr

--
-- Constants
--

/-- `JOURNAL_BLOCK_SIZE`. -/
def journalBlockSize : Nat := 4096

/-- `sizeof(struct journal_block_header)`. -/
def blockHeaderSize : Nat := 16

/-- `sizeof(struct journal_record_hdr)`. -/
def recordHeaderSize : Nat := 16

/-- `JOURNAL_MAGIC`, "JNLZ". -/
def journalMagic : Nat := 0x4A4E4C5A

/-- `CHECKPOINT_MAGIC`, "CHPS". -/
def checkpointMagic : Nat := 0x43485053

/-- `JRN_NONE`, the lowest record type, which no record may have. -/
def jrnNone : Nat := 0

/-- `JRN_CHECKPOINT`. -/
def jrnCheckpoint : Nat := 8

/-- `JRN_END`, one past the last record type. -/
def jrnEnd : Nat := 12

--
-- Bytes
--

/-- The memory at `bh->b_data`. Offsets from 4096 on are whatever lies behind
the buffer: the walk can look there (a record header that starts in the last
bytes of the block), so they are part of the model. -/
abbrev Block := Nat → UInt8

/-- `le32_to_cpu` of the four bytes at `off`. -/
def le32 (b : Block) (off : Nat) : Nat :=
  (b off).toNat + 256 * (b (off + 1)).toNat + 65536 * (b (off + 2)).toNat +
    16777216 * (b (off + 3)).toNat

/-- The bytes `[off, off + len)`. -/
def slice (b : Block) (off len : Nat) : List UInt8 :=
  (List.range len).map fun k => b (off + k)

/-- `cpu_to_le32`, as the bytes the checksum runs over. -/
def bytesOfLe32 (v : Nat) : List UInt8 :=
  [UInt8.ofNat v, UInt8.ofNat (v / 256), UInt8.ofNat (v / 65536), UInt8.ofNat (v / 16777216)]

--
-- Headers
--

/-- `hdr->magic`. -/
def blockMagic (b : Block) : Nat := le32 b 0

/-- `hdr->record_count`. -/
def recordCount (b : Block) : Nat := le32 b 8

/-- The magic test of `walk_journal`. -/
def validMagic (b : Block) : Bool :=
  blockMagic b == journalMagic || blockMagic b == checkpointMagic

/-- A record as the walk hands it to `apply_record`. -/
structure Record where
  recType : Nat
  data    : List UInt8
deriving DecidableEq, Repr

/-- `compute_record_checksum`. -/
def computeRecordChecksum (recType flags dataLen : Nat) (data : List UInt8) : BitVec 32 :=
  let crc := crc32c 0#32 (bytesOfLe32 recType)
  let crc := crc32c crc (bytesOfLe32 flags)
  let crc := crc32c crc (bytesOfLe32 dataLen)
  crc32c crc data

/-- One iteration of the record loop up to the `apply_record` call: the checks
on the record that starts at `recOff`, in the order of the source. The result
is the record, or the error the walk returns. A zero checksum marks a legacy
record and is not verified. -/
def decodeRecord (b : Block) (recOff : Nat) : Except Errno Record :=
  let recType := le32 b recOff
  let flags := le32 b (recOff + 4)
  let dataLen := le32 b (recOff + 8)
  let checksum := le32 b (recOff + 12)
  if recType ≤ jrnNone || jrnEnd ≤ recType then
    .error .eio
  else if journalBlockSize < recOff + recordHeaderSize + dataLen then
    .error .eio
  else
    let data := slice b (recOff + recordHeaderSize) dataLen
    if checksum ≠ 0 ∧ computeRecordChecksum recType flags dataLen data ≠ checksum then
      .error .eio
    else
      .ok { recType := recType, data := data }

end Briefs.Journal
