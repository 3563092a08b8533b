import Briefs.Inode.Format
import Briefs.Journal.Format

/-!
# BrieFS — the inode table

Eight inodes lie in a block of the inode table. `briefs_persist_disk_inode` and `briefs_write_inode`
change one of them in the buffer of its block, which they share with the writers of its neighbours;
the lock of the block makes each of them one step to the others. `briefs_write_inode` first brings
the fields that the VFS keeps into the inode, in the copy that it writes and in memory. A block may
be unreadable at any time, but its writes do not fail here: a failed one drops the buffer.

`Slots` is what the table is for: a value for each inode number. `Table.abs` reads the table as such
a map.

## Results

* `table_refines_slots` — in every run the table is the map: writers change their own inode only,
  the bytes outside the slots stay, and the codes are those of the map.
-/

namespace Briefs.Inode

open Briefs.Lib Briefs.Journal

--
-- The VFS inode
--

/-- What the VFS keeps of an inode and the inode on disk has too. -/
structure Vfs where
  mode      : BitVec 32
  uid       : BitVec 32
  gid       : BitVec 32
  nlink     : BitVec 32
  size      : BitVec 64
  atimeSec  : BitVec 64
  atimeNsec : BitVec 64
  mtimeSec  : BitVec 64
  mtimeNsec : BitVec 64
  ctimeSec  : BitVec 64
  ctimeNsec : BitVec 64

/-- `struct briefs_inode_info`: the VFS inode and `disk_inode`. -/
structure Info where
  vfs : Vfs
  di  : BriefsInode

namespace BriefsInode

/-- `briefs_sync_inode_times`. -/
def syncInodeTimes (di : BriefsInode) (v : Vfs) : BriefsInode where
  fields := { di.fields with
    atimeSec := v.atimeSec, atimeNsec := v.atimeNsec, mtimeSec := v.mtimeSec
    mtimeNsec := v.mtimeNsec, ctimeSec := v.ctimeSec, ctimeNsec := v.ctimeNsec }
  member := di.member

/-- `briefs_sync_inode_fields`. -/
def syncInodeFields (di : BriefsInode) (v : Vfs) : BriefsInode where
  fields := { di.fields with filemode := v.mode, uid := v.uid, gid := v.gid, nlinks := v.nlink }
  member := di.member

def setFilesize (di : BriefsInode) (size : BitVec 64) : BriefsInode where
  fields := { di.fields with filesize := size }
  member := di.member

end BriefsInode

/-- The copy that `briefs_write_inode` fills: the inode in memory, with the fields of the VFS. -/
def localDi (di : BriefsInode) (v : Vfs) : DiskInode :=
  { cpuInodeToDisk di with
    filemode := v.mode, uid := v.uid, gid := v.gid, filesize := v.size, nlinks := v.nlink }

--
-- The table
--

/-- The blocks of the device as the buffer cache has them, and the inodes in memory. -/
structure Table where
  blocks     : Nat → Nat → UInt8
  nrBlocks   : Nat
  tableStart : BitVec 64
  infos      : BitVec 64 → Info

/-- What happens to an inode: `disk_inode` or the fields of the VFS change, or it is written. `ok`
says whether its block can be read. -/
inductive Event where
  | change (ino : BitVec 64) (info : Info)
  | persist (ino : BitVec 64) (src : BriefsInode) (ok : Bool)
  | write (ino : BitVec 64) (ok : Bool)

/-- `sb->s_blocksize / BRIEFS_INODE_SIZE`. -/
def inodesPerBlock : Nat := 8

namespace Table

variable (t : Table)

/-- The block of the inode. -/
def inodeBlock (ino : BitVec 64) : Nat :=
  (t.tableStart.toNat + (ino - 1).toNat / inodesPerBlock) % 2 ^ 64

/-- `inodeOffset`. -/
def inodeOffset (ino : BitVec 64) : Nat := (ino - 1).toNat % inodesPerBlock * inodeSize

/-- The checks of `briefs_read_inode_block`; `ok` is the read. -/
def readInodeBlock (ino : BitVec 64) (ok : Bool) : Option Errno :=
  if ino = 0 then some .einval
  else if t.inodeBlock ino < t.nrBlocks ∧ ok then none
  else some .eio

def putSlot (ino : BitVec 64) (image : Nat → UInt8) : Table :=
  { t with blocks := Function.update t.blocks (t.inodeBlock ino) image }

/-- `briefs_persist_disk_inode`. -/
def persistDiskInode (ino : BitVec 64) (src : BriefsInode) (ok : Bool) : Option Errno × Table :=
  match t.readInodeBlock ino ok with
  | some e => (some e, t)
  | none =>
    (none, t.putSlot ino
      (diskInode.put (t.blocks (t.inodeBlock ino)) (inodeOffset ino) (cpuInodeToDisk src)))

/-- `briefs_write_inode`. -/
def writeInode (ino : BitVec 64) (ok : Bool) : Option Errno × Table :=
  match t.readInodeBlock ino ok with
  | some e => (some e, t)
  | none =>
    let v := (t.infos ino).vfs
    let di := ((t.infos ino).di.syncInodeTimes v).setFilesize v.size
    let mirrored := { t with infos := Function.update t.infos ino ⟨v, di.syncInodeFields v⟩ }
    (none, mirrored.putSlot ino
      (diskInode.put (t.blocks (t.inodeBlock ino)) (inodeOffset ino) (localDi di v)))

def step : Event → Option Errno × Table
  | .change ino info => (none, { t with infos := Function.update t.infos ino info })
  | .persist ino src ok => t.persistDiskInode ino src ok
  | .write ino ok => t.writeInode ino ok

end Table

/-- The codes of the events and the table after them. -/
def Table.run (t : Table) : List Event → List (Option Errno) × Table
  | [] => ([], t)
  | e :: es =>
    let (code, next) := t.step e
    let (codes, last) := next.run es
    (code :: codes, last)

--
-- What the table is for
--

/-- An inode for each number; `present` says which numbers have a slot on the device. -/
structure Slots where
  slots : BitVec 64 → BriefsInode
  infos : BitVec 64 → Info
  present : BitVec 64 → Bool

namespace Slots

variable (m : Slots)

def check (ino : BitVec 64) (ok : Bool) : Option Errno :=
  if ino = 0 then some .einval else if m.present ino ∧ ok then none else some .eio

/-- The inode with everything that the VFS keeps. -/
def mirror (info : Info) : BriefsInode :=
  ((info.di.syncInodeTimes info.vfs).setFilesize info.vfs.size).syncInodeFields info.vfs

def step : Event → Option Errno × Slots
  | .change ino info => (none, { m with infos := Function.update m.infos ino info })
  | .persist ino src ok =>
    match m.check ino ok with
    | some e => (some e, m)
    | none => (none, { m with slots := Function.update m.slots ino src })
  | .write ino ok =>
    match m.check ino ok with
    | some e => (some e, m)
    | none =>
      let di := mirror (m.infos ino)
      (none, { m with
        infos := Function.update m.infos ino ⟨(m.infos ino).vfs, di⟩
        slots := Function.update m.slots ino di })

end Slots

def Slots.run (m : Slots) : List Event → List (Option Errno) × Slots
  | [] => ([], m)
  | e :: es =>
    let (code, next) := m.step e
    let (codes, last) := next.run es
    (code :: codes, last)

namespace Table

variable {t : Table} {ino other : BitVec 64}

/-- The inode that `briefs_read_inode_block` and `briefs_disk_inode_to_cpu` give. -/
def readSlot (t : Table) (ino : BitVec 64) : BriefsInode :=
  diskInodeToCpu (diskInode.get (t.blocks (t.inodeBlock ino)) (inodeOffset ino))

def abs (t : Table) : Slots where
  slots   := t.readSlot
  infos   := t.infos
  present := fun ino => t.inodeBlock ino < t.nrBlocks

/-- The byte lies in the slot of the inode. -/
def InSlot (t : Table) (ino : BitVec 64) (block o : Nat) : Prop :=
  block = t.inodeBlock ino ∧ inodeOffset ino ≤ o ∧ o < inodeOffset ino + inodeSize

--
-- Slots do not overlap
--

/-- Two inodes of one block lie in different slots of it. -/
theorem offset_apart (hNe : other ≠ ino) (hBlock : t.inodeBlock other = t.inodeBlock ino) :
    inodeOffset other + inodeSize ≤ inodeOffset ino ∨
      inodeOffset ino + inodeSize ≤ inodeOffset other := by
  have hIndex : (other - 1).toNat ≠ (ino - 1).toNat := by
    intro hEq
    have hSub := BitVec.eq_of_toNat_eq hEq
    rw [← BitVec.sub_add_cancel other 1, hSub, BitVec.sub_add_cancel] at hNe
    exact hNe rfl
  have hOther : (other - 1).toNat < 18446744073709551616 := (other - 1).isLt
  have hIno : (ino - 1).toNat < 18446744073709551616 := (ino - 1).isLt
  unfold inodeBlock inodesPerBlock at hBlock
  unfold inodeOffset inodesPerBlock inodeSize
  omega

/-- What a writer of a slot does to the map. -/
theorem readSlot_putSlot (t : Table) (ino : BitVec 64) (x : DiskInode) :
    (t.putSlot ino (diskInode.put (t.blocks (t.inodeBlock ino)) (inodeOffset ino) x)).readSlot =
      Function.update t.readSlot ino (diskInodeToCpu x) := by
  funext other
  show diskInodeToCpu (diskInode.get (Function.update t.blocks (t.inodeBlock ino) _
    (t.inodeBlock other)) (inodeOffset other)) = _
  by_cases hNe : other = ino
  · rw [hNe, Function.update_self, Function.update_self, diskInode.get_put]
  rw [Function.update_of_ne hNe, readSlot]
  by_cases hBlock : t.inodeBlock other = t.inodeBlock ino
  · rw [hBlock, Function.update_self, diskInode.get_put_of_disjoint]
    rw [size_diskInode]
    exact offset_apart hNe hBlock
  · rw [Function.update_of_ne hBlock]

theorem blocks_putSlot {x : DiskInode} {block o : Nat} (hOut : ¬ t.InSlot ino block o) :
    (t.putSlot ino
      (diskInode.put (t.blocks (t.inodeBlock ino)) (inodeOffset ino) x)).blocks block o =
        t.blocks block o := by
  show Function.update t.blocks (t.inodeBlock ino) _ block o = _
  by_cases hBlock : block = t.inodeBlock ino
  · subst hBlock
    rw [Function.update_self]
    refine diskInode.put_out _ _ _ o ?_
    rw [size_diskInode]
    unfold InSlot at hOut
    omega
  · rw [Function.update_of_ne hBlock]

/-- The copy that is written is the inode that stays in memory. -/
theorem diskInodeToCpu_localDi (info : Info) :
    diskInodeToCpu
        (localDi ((info.di.syncInodeTimes info.vfs).setFilesize info.vfs.size) info.vfs) =
      Slots.mirror info := by
  rw [← diskInodeToCpu_cpuInodeToDisk (Slots.mirror info)]
  rfl

theorem check_abs (ok : Bool) : t.abs.check ino ok = t.readInodeBlock ino ok := by
  unfold Slots.check readInodeBlock abs
  simp only [decide_eq_true_eq]

--
-- Runs
--

theorem step_abs (e : Event) :
    (t.step e).1 = (t.abs.step e).1 ∧ (t.step e).2.abs = (t.abs.step e).2 := by
  cases e with
  | change ino info => exact ⟨rfl, rfl⟩
  | persist ino src ok =>
    dsimp only [step, Slots.step]
    rw [check_abs, persistDiskInode]
    cases t.readInodeBlock ino ok with
    | some e => exact ⟨rfl, rfl⟩
    | none =>
      refine ⟨rfl, ?_⟩
      have hSlots := readSlot_putSlot t ino (cpuInodeToDisk src)
      rw [diskInodeToCpu_cpuInodeToDisk] at hSlots
      exact congrArg (fun f => (⟨f, t.infos, t.abs.present⟩ : Slots)) hSlots
  | write ino ok =>
    dsimp only [step, Slots.step]
    rw [check_abs, writeInode]
    cases t.readInodeBlock ino ok with
    | some e => exact ⟨rfl, rfl⟩
    | none =>
      refine ⟨rfl, ?_⟩
      have hSlots := readSlot_putSlot t ino
        (localDi (((t.infos ino).di.syncInodeTimes (t.infos ino).vfs).setFilesize
          (t.infos ino).vfs.size) (t.infos ino).vfs)
      rw [diskInodeToCpu_localDi] at hSlots
      exact congrArg (fun f => (⟨f, _, t.abs.present⟩ : Slots)) hSlots

/-- A step keeps the place of the table, and every byte outside the slots. -/
theorem step_frame (e : Event) :
    (t.step e).2.inodeBlock = t.inodeBlock ∧
      ∀ block o, (∀ ino, ¬ t.InSlot ino block o) →
        (t.step e).2.blocks block o = t.blocks block o := by
  cases e with
  | change ino info => exact ⟨rfl, fun _ _ _ => rfl⟩
  | persist ino src ok =>
    dsimp only [step]
    rw [persistDiskInode]
    cases t.readInodeBlock ino ok with
    | some e => exact ⟨rfl, fun _ _ _ => rfl⟩
    | none => exact ⟨rfl, fun _ _ hOut => blocks_putSlot (hOut ino)⟩
  | write ino ok =>
    dsimp only [step]
    rw [writeInode]
    cases t.readInodeBlock ino ok with
    | some e => exact ⟨rfl, fun _ _ _ => rfl⟩
    | none => exact ⟨rfl, fun _ _ hOut => blocks_putSlot (t := t) (hOut ino)⟩

/-- In every run the inode table is a map from numbers to inodes: each writer changes the inode it
is for, `briefs_write_inode` to the inode that stays in memory, the codes are those of the map, and
no byte outside the slots changes. -/
theorem table_refines_slots (t : Table) (es : List Event) :
    (t.run es).1 = (t.abs.run es).1 ∧ (t.run es).2.abs = (t.abs.run es).2 ∧
      ∀ block o, (∀ ino, ¬ t.InSlot ino block o) →
        (t.run es).2.blocks block o = t.blocks block o := by
  induction es generalizing t with
  | nil => exact ⟨rfl, rfl, fun _ _ _ => rfl⟩
  | cons e es ih =>
    obtain ⟨hCode, hAbs⟩ := step_abs (t := t) e
    obtain ⟨hPlace, hFrame⟩ := step_frame (t := t) e
    obtain ⟨hCodes, hLast, hBytes⟩ := ih (t.step e).2
    rw [hAbs] at hCodes hLast
    refine ⟨?_, hLast, fun block o hOut => ?_⟩
    · show (t.step e).1 :: ((t.step e).2.run es).1 = (t.abs.step e).1 :: ((t.abs.step e).2.run es).1
      rw [hCode, hCodes]
    · have hOut' : ∀ ino, ¬ (t.step e).2.InSlot ino block o := by
        intro ino hIn
        refine hOut ino ⟨?_, hIn.2⟩
        rw [hIn.1, hPlace]
      exact (hBytes block o hOut').trans (hFrame block o hOut)

end Table

end Briefs.Inode
