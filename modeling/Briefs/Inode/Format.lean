import Briefs.Lib.Layout

/-!
# BrieFS — the inode on disk

`struct briefs_inode` in memory and `struct briefs_disk_inode`, 512 bytes in little endian. The two
have the same fields in the same order. In the middle lies a union: eight extents, or 256 bytes of
inline data when `InodeFlagInlineData` is set in `flags`, which comes after it. The conversions look
at the flag of their source to decide which member to copy.

## Results

* `diskInodeToCpu_cpuInodeToDisk` — an inode that was converted to disk reads back.
* `size_diskInode` — an inode takes 512 bytes.
-/

namespace Briefs.Inode

open Briefs.Lib

--
-- Fields
--

/-- `struct briefs_extent`. -/
structure Extent where
  offset : BitVec 64
  phys   : BitVec 64
  len    : BitVec 64
  flags  : BitVec 32
  pad    : BitVec 32
deriving DecidableEq

/-- An inode with the union as `υ`. -/
structure Fields (υ : Type) where
  inodeNumber      : BitVec 64
  magic            : BitVec 64
  filemode         : BitVec 32
  uid              : BitVec 32
  gid              : BitVec 32
  pad0             : BitVec 32
  filesize         : BitVec 64
  ctimeSec         : BitVec 64
  ctimeNsec        : BitVec 64
  atimeSec         : BitVec 64
  atimeNsec        : BitVec 64
  mtimeSec         : BitVec 64
  mtimeNsec        : BitVec 64
  creationTimeSec  : BitVec 64
  creationTimeNsec : BitVec 64
  nlinks           : BitVec 32
  numExtentsInline : BitVec 32
  extentInlineBase : BitVec 64
  numExtentsTotal  : BitVec 64
  union            : υ
  xattrOffset      : BitVec 64
  xattrSize        : BitVec 64
  parentInode      : BitVec 64
  unused           : BitVec 32
  flags            : BitVec 32
  dirTrieRoot      : BitVec 64
  rdev             : BitVec 64
  generation       : BitVec 64
  userFlags        : BitVec 32
  reserved         : Fin 68 → UInt8

/-- `InodeFlagInlineData`. -/
def inodeFlagInlineData : BitVec 32 := 0x00000008#32

def Fields.isInline {υ : Type} (i : Fields υ) : Bool := i.flags &&& inodeFlagInlineData != 0

/-- The member of the union that an inode in memory uses. -/
inductive Member where
  | extents (l : Fin 8 → Extent)
  | data (bytes : Fin 256 → UInt8)

def Member.isData : Member → Bool
  | .extents _ => false
  | .data _ => true

/-- `struct briefs_disk_inode`: the union is bytes. -/
abbrev DiskInode := Fields (Fin 256 → UInt8)

/-- `struct briefs_inode`: the flag says which member the union has. -/
@[ext]
structure BriefsInode where
  fields : Fields Member
  member : fields.union.isData = fields.isInline

--
-- Layout
--

def le32 : Layout (BitVec 32) := Layout.le 4

def le64 : Layout (BitVec 64) := Layout.le 8

/-- `struct briefs_disk_extent`. -/
def diskExtent : Layout Extent :=
  (le64.prod (le64.prod (le64.prod (le32.prod le32)))).map
    { toFun := fun (offset, phys, len, flags, pad) => ⟨offset, phys, len, flags, pad⟩
      invFun := fun e => (e.offset, e.phys, e.len, e.flags, e.pad)
      left_inv := fun _ => rfl
      right_inv := fun _ => rfl }

def inlineExtents : Layout (Fin 8 → Extent) := diskExtent.array 8

def inlineData : Layout (Fin 256 → UInt8) := Layout.byte.array 256

def diskInode : Layout DiskInode :=
  (le64.prod (le64.prod (le32.prod (le32.prod (le32.prod (le32.prod (le64.prod (le64.prod
    (le64.prod (le64.prod (le64.prod (le64.prod (le64.prod (le64.prod (le64.prod (le32.prod
    (le32.prod (le64.prod (le64.prod (inlineData.prod (le64.prod (le64.prod (le64.prod (le32.prod
    (le32.prod (le64.prod (le64.prod (le64.prod (le32.prod
    (Layout.byte.array 68)))))))))))))))))))))))))))))).map
    { toFun := fun (a, b, c, d, e, f, g, h, i, j, k, l, m, n, o, p, q, r, s, t, u, v, w, x, y, z,
          a', b', c', d') =>
        ⟨a, b, c, d, e, f, g, h, i, j, k, l, m, n, o, p, q, r, s, t, u, v, w, x, y, z, a', b', c',
          d'⟩
      invFun := fun i => (i.inodeNumber, i.magic, i.filemode, i.uid, i.gid, i.pad0, i.filesize,
        i.ctimeSec, i.ctimeNsec, i.atimeSec, i.atimeNsec, i.mtimeSec, i.mtimeNsec,
        i.creationTimeSec, i.creationTimeNsec, i.nlinks, i.numExtentsInline, i.extentInlineBase,
        i.numExtentsTotal, i.union, i.xattrOffset, i.xattrSize, i.parentInode, i.unused, i.flags,
        i.dirTrieRoot, i.rdev, i.generation, i.userFlags, i.reserved)
      left_inv := fun _ => rfl
      right_inv := fun _ => rfl }

theorem size_le32 : le32.size = 4 := Layout.size_le 4

theorem size_le64 : le64.size = 8 := Layout.size_le 8

theorem size_inlineData : inlineData.size = 256 := by
  rw [inlineData, Layout.size_array]
  rfl

theorem size_inlineExtents : inlineExtents.size = inlineData.size := by
  rw [inlineExtents, Layout.size_array, size_inlineData, diskExtent, Layout.size_map]
  simp only [Layout.size_prod, size_le32, size_le64]

/-- `BRIEFS_INODE_SIZE`. -/
def inodeSize : Nat := 512

theorem size_diskInode : diskInode.size = inodeSize := by
  rw [diskInode, Layout.size_map]
  simp only [Layout.size_prod, size_le32, size_le64, size_inlineData, Layout.size_array]
  rfl

-- the bytes of an inode are not unfolded from here on, only the laws of its layout are used
attribute [irreducible] inlineExtents inlineData diskInode

--
-- Conversions
--

namespace Member

/-- The union from its bytes: inline data is copied, extents are converted. -/
def ofBytes (isInline : Bool) (bytes : Fin 256 → UInt8) : Member :=
  if isInline then .data bytes else .extents (inlineData.reread inlineExtents bytes)

def toBytes : Member → Fin 256 → UInt8
  | .extents l => inlineExtents.reread inlineData l
  | .data bytes => bytes

theorem isData_ofBytes (isInline : Bool) (bytes : Fin 256 → UInt8) :
    (ofBytes isInline bytes).isData = isInline := by
  cases isInline <;> rfl

theorem ofBytes_toBytes (u : Member) : ofBytes u.isData u.toBytes = u := by
  cases u with
  | data bytes => rfl
  | extents l => exact congrArg Member.extents (Layout.reread_reread size_inlineExtents l)

end Member

/-- `briefs_disk_inode_to_cpu`. -/
def diskInodeToCpu (src : DiskInode) : BriefsInode where
  fields := { src with union := .ofBytes src.isInline src.union }
  member := Member.isData_ofBytes src.isInline src.union

/-- `briefs_cpu_inode_to_disk`; the flag that it tests is the member that the union has. -/
def cpuInodeToDisk (src : BriefsInode) : DiskInode :=
  { src.fields with union := src.fields.union.toBytes }

theorem diskInodeToCpu_cpuInodeToDisk (src : BriefsInode) :
    diskInodeToCpu (cpuInodeToDisk src) = src := by
  obtain ⟨fields, hMember⟩ := src
  have hUnion : Member.ofBytes fields.isInline fields.union.toBytes = fields.union := by
    rw [← hMember, Member.ofBytes_toBytes]
  have hFields : (diskInodeToCpu (cpuInodeToDisk ⟨fields, hMember⟩)).fields = fields :=
    calc (diskInodeToCpu (cpuInodeToDisk ⟨fields, hMember⟩)).fields
        = { fields with union := .ofBytes fields.isInline fields.union.toBytes } := rfl
      _ = fields := by rw [hUnion]
  exact BriefsInode.ext hFields

end Briefs.Inode
