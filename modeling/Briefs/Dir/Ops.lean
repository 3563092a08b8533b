import Mathlib.Algebra.Group.Nat.Defs
import Mathlib.Data.List.Basic
import Mathlib.Logic.Function.Basic

/-!
# BrieFS — namespace operations

The inode operations of `dir.c`, `inode.c` and `file.c` that change names: create,
mkdir, mknod, symlink, link, unlink, rmdir and the three shapes of rename. A
directory is taken as the finite map its trie stores; all the maps together are
one list of entries keyed by directory and name. Each inode has two link counts,
`i_nlink` of the VFS inode and `nlinks` of the in-memory copy of the disk inode,
and the operations keep them in step by different means.

What the VFS does around an operation is here as far as the operations rely on
it: it resolves names, refuses to work in a removed directory, returns at once
from a rename between two names of one inode, marks a removed directory dead, and
evicts an inode that has lost its last name once nothing holds it open. Failures
of the device, of the journal and of memory allocation are left out: a step here
either is refused by a check on the state or returns 0.
-/

namespace Briefs.Dir

/-- The error numbers the operations return, negated, in the source. -/
inductive Errno where
  | enoent
  | eexist
  | einval
  | eperm
  | eisdir
  | enotdir
  | enotempty
  | enametoolong
deriving DecidableEq, Repr

/-- `i_mode & S_IFMT`, with the four special kinds as one. -/
inductive Kind where
  | reg
  | dir
  | lnk
  | special
deriving DecidableEq, Repr

/-- A name: bytes, 1 to 255 of them where an entry is made. -/
abbrev Name := List UInt8

/-- One directory entry: in directory `dir`, `name` stands for inode `ino`. -/
structure Dirent where
  dir  : Nat
  name : Name
  ino  : Nat
  type : Kind
deriving DecidableEq, Repr

/-- The entry stands at this name of this directory. -/
def Dirent.isAt (e : Dirent) (dir : Nat) (name : Name) : Bool :=
  e.dir == dir && e.name == name

/-- An inode in memory. -/
structure Inode where
  kind   : Kind
  /-- `i_size`. -/
  size   : Nat
  /-- `i_nlink`, the VFS link count. -/
  nlink  : Nat
  /-- `disk_inode.nlinks`. -/
  nlinks : Nat
  /-- `disk_inode.parent_inode`. -/
  parent : Nat
  /-- `S_DEAD`, set by the VFS on a directory that was removed. -/
  dead   : Bool
deriving DecidableEq, Repr

/-- The inodes and the names of a mounted file system. -/
structure Fs where
  inodes  : Nat → Option Inode
  dirents : List Dirent

/-- `_BRIEFS_ROOT_INO`. -/
def rootIno : Nat := 1

/-- `BRIEFS_NAME_LEN`. -/
def nameLen : Nat := 255

/-- `BRIEFS_DIR_ENTRY_PREFIX_LEN`. -/
def dirEntryPrefixLen : Nat := 2

/-- `i_nlink` is an `unsigned int`. -/
def linkModulus : Nat := 2 ^ 32

--
-- Link counts of one inode
--

/-- `inc_nlink`. -/
def Inode.incNlink (i : Inode) : Inode :=
  { i with nlink := (i.nlink + 1) % linkModulus }

/-- `drop_nlink`. -/
def Inode.dropNlink (i : Inode) : Inode :=
  { i with nlink := (i.nlink + (linkModulus - 1)) % linkModulus }

/-- `clear_nlink`. -/
def Inode.clearNlink (i : Inode) : Inode :=
  { i with nlink := 0 }

namespace Fs

/-- Change the inode `ino`, if there is one. -/
def modify (fs : Fs) (ino : Nat) (f : Inode → Inode) : Fs :=
  { fs with inodes := fun x => if x = ino then (fs.inodes x).map f else fs.inodes x }

/-- `S_ISDIR(inode->i_mode)`. -/
def isDir (fs : Fs) (ino : Nat) : Bool :=
  (fs.inodes ino).any fun i => i.kind == .dir

/-- `(inode->i_mode & S_IFMT) >> 12`. -/
def ftype (fs : Fs) (ino : Nat) : Kind :=
  ((fs.inodes ino).map Inode.kind).getD .reg

--
-- Directory entries
--

/-- `briefs_trie_lookup`. -/
def lookup (fs : Fs) (dir : Nat) (name : Name) : Option Dirent :=
  fs.dirents.find? fun e => e.isAt dir name

/-- `briefs_empty_dir`. -/
def emptyDir (fs : Fs) (dir : Nat) : Bool :=
  fs.dirents.all fun e => e.dir != dir

/-- `briefs_add_dir_entry`: a name that is there already is repointed. -/
def addDirEntry (fs : Fs) (dir : Nat) (name : Name) (ino : Nat) (type : Kind) :
    Except Errno Fs :=
  if name.length < 1 ∨ nameLen < name.length then .error .einval
  else .ok { fs with
    dirents := ⟨dir, name, ino, type⟩ :: fs.dirents.filter fun e => !e.isAt dir name }

/-- `briefs_remove_dir_entry`. -/
def removeDirEntry (fs : Fs) (dir : Nat) (name : Name) : Except Errno Fs :=
  if name.length < 1 ∨ nameLen < name.length then .error .einval
  else if (fs.lookup dir name).isSome then
    .ok { fs with dirents := fs.dirents.filter fun e => !e.isAt dir name }
  else .error .enoent

/-- `briefs_repoint_dir_entry`: the name must be there. -/
def repointDirEntry (fs : Fs) (dir : Nat) (name : Name) (ino : Nat) (type : Kind) :
    Except Errno Fs :=
  if (fs.lookup dir name).isSome then
    .ok { fs with
      dirents := ⟨dir, name, ino, type⟩ :: fs.dirents.filter fun e => !e.isAt dir name }
  else .error .enoent

--
-- Helpers of the operations
--

/-- `briefs_update_parent_dir`: only the sign of `linkDelta` is used, and the disk
inode takes whatever the VFS link count comes to. -/
def updateParentDir (fs : Fs) (dir : Nat) (sizeDelta linkDelta : Int) : Fs :=
  fs.modify dir fun i =>
    let j := if 0 < linkDelta then i.incNlink else if linkDelta < 0 then i.dropNlink else i
    { j with size := (i.size + sizeDelta).toNat, nlinks := j.nlink }

/-- `briefs_new_inode`: `ino` is the number the inode allocator returns. -/
def newInode (fs : Fs) (dir ino : Nat) (kind : Kind) (size : Nat) : Except Errno Fs :=
  if (fs.inodes ino).isSome then .error .eexist
  else
    let links := if kind = .dir then 2 else 1
    let i : Inode :=
      { kind := kind, size := size, nlink := links, nlinks := links,
        parent := if kind = .dir then dir else 0, dead := false }
    .ok { fs with inodes := fun x => if x = ino then some i else fs.inodes x }

/-- `briefs_finish_create`. -/
def finishCreate (fs : Fs) (dir : Nat) (name : Name) (ino : Nat) (kind : Kind)
    (linkDelta : Int) : Except Errno Fs := do
  let fs ← fs.addDirEntry dir name ino kind
  .ok (fs.updateParentDir dir (dirEntryPrefixLen + name.length) linkDelta)

--
-- Operations
--

/-- `briefs_create`, which `briefs_mkdir` calls with `S_IFDIR`. -/
def create (fs : Fs) (dir : Nat) (name : Name) (ino : Nat) (kind : Kind) : Except Errno Fs := do
  let fs ← fs.newInode dir ino kind 0
  fs.finishCreate dir name ino kind (if kind = .dir then 1 else 0)

/-- `briefs_mknod`. -/
def mknod (fs : Fs) (dir : Nat) (name : Name) (ino : Nat) : Except Errno Fs := do
  let fs ← fs.newInode dir ino .special 0
  fs.finishCreate dir name ino .special 1

/-- `briefs_symlink`: the target is `len` bytes long. -/
def symlink (fs : Fs) (dir : Nat) (name : Name) (ino len : Nat) : Except Errno Fs := do
  if len = 0 ∨ nameLen * 10 < len then .error .enametoolong
  else
    let fs ← fs.newInode dir ino .lnk len
    fs.finishCreate dir name ino .lnk 1

/-- `briefs_link`. -/
def link (fs : Fs) (src dir : Nat) (name : Name) : Except Errno Fs := do
  match fs.inodes src with
  | none => .error .enoent
  | some i =>
    if i.kind = .dir then .error .eperm
    else
      let fs ← fs.addDirEntry dir name src i.kind
      let fs := fs.modify src Inode.incNlink
      let fs := fs.modify src fun j => { j with nlinks := j.nlink }
      .ok (fs.updateParentDir dir (dirEntryPrefixLen + name.length) 0)

/-- The block that `briefs_unlink_common` and the replacing paths of rename share:
`ino` loses the name it had in `dir`. -/
def dropLinks (fs : Fs) (dir ino : Nat) : Fs :=
  if fs.isDir ino then (fs.modify dir Inode.dropNlink).modify ino Inode.clearNlink
  else fs.modify ino Inode.dropNlink

/-- `briefs_unlink_common`: the removed inode's disk copy keeps its count. -/
def unlinkCommon (fs : Fs) (dir : Nat) (name : Name) (ino : Nat) : Except Errno Fs := do
  let fs ← fs.removeDirEntry dir name
  let fs := fs.dropLinks dir ino
  .ok (fs.updateParentDir dir (-(dirEntryPrefixLen + name.length)) 0)

/-- `briefs_unlink`. -/
def unlink (fs : Fs) (dir : Nat) (name : Name) (ino : Nat) : Except Errno Fs :=
  if fs.isDir ino then .error .eisdir else fs.unlinkCommon dir name ino

/-- `briefs_rmdir`. -/
def rmdir (fs : Fs) (dir : Nat) (name : Name) (ino : Nat) : Except Errno Fs :=
  if !fs.isDir ino then .error .enotdir
  else if !fs.emptyDir ino then .error .enotempty
  else fs.unlinkCommon dir name ino

/-- The first part of `briefs_rename` and of `briefs_rename_whiteout`: remove what
the new name stands for, `target`. -/
def replaceTarget (fs : Fs) (newDir : Nat) (newName : Name) (target : Nat) :
    Except Errno Fs := do
  if fs.isDir target && !fs.emptyDir target then .error .enotempty
  else
    let fs ← fs.removeDirEntry newDir newName
    let fs := fs.dropLinks newDir target
    let fs := fs.modify target fun j => { j with nlinks := j.nlink }
    .ok (fs.updateParentDir newDir 0 0)

/-- The new name is free, or is made so. -/
def freeName (fs : Fs) (newDir : Nat) (newName : Name) : Option Nat → Except Errno Fs
  | some t => fs.replaceTarget newDir newName t
  | none => .ok fs

/-- The part of the same two functions after the entries: a directory that moves
to another parent takes its link along, and both parents are persisted. -/
def moveParent (fs : Fs) (oldDir newDir ino : Nat) : Fs :=
  let fs :=
    if oldDir ≠ newDir ∧ fs.isDir ino then
      ((fs.modify oldDir Inode.dropNlink).modify newDir Inode.incNlink).modify ino
        fun j => { j with parent := newDir }
    else fs
  let fs := fs.updateParentDir oldDir 0 0
  if oldDir ≠ newDir then fs.updateParentDir newDir 0 0 else fs

/-- The plain path of `briefs_rename`. `src` and `target` are the inodes the two
names stand for. -/
def renamePlain (fs : Fs) (oldDir : Nat) (oldName : Name) (newDir : Nat) (newName : Name)
    (src : Nat) (target : Option Nat) (noreplace : Bool) : Except Errno Fs := do
  let type := fs.ftype src
  if noreplace && target.isSome then .error .eexist
  else
    let fs ← fs.freeName newDir newName target
    let fs ← fs.removeDirEntry oldDir oldName
    let fs ← fs.addDirEntry newDir newName src type
    .ok (fs.moveParent oldDir newDir src)

/-- `briefs_rename_whiteout`: the whiteout is a character device with number `ino`. -/
def renameWhiteout (fs : Fs) (oldDir : Nat) (oldName : Name) (newDir : Nat) (newName : Name)
    (src : Nat) (target : Option Nat) (ino : Nat) : Except Errno Fs := do
  let type := fs.ftype src
  let fs ← fs.freeName newDir newName target
  let fs ← fs.newInode oldDir ino .special 0
  let fs ← fs.repointDirEntry oldDir oldName ino .special
  let fs ← fs.addDirEntry newDir newName src type
  let fs := fs.moveParent oldDir newDir src
  .ok (fs.updateParentDir oldDir (dirEntryPrefixLen + oldName.length) 0)

/-- One side of an exchange: a directory that crosses from `a` to `b` takes its
parent's link along. -/
def carryLink (fs : Fs) (cross : Bool) (ino a b : Nat) : Fs :=
  if cross && fs.isDir ino then
    ((fs.modify ino fun j => { j with parent := b }).modify a Inode.dropNlink).modify b
      Inode.incNlink
  else fs

/-- `briefs_rename_exchange`. -/
def renameExchange (fs : Fs) (oldDir : Nat) (oldName : Name) (newDir : Nat) (newName : Name)
    (src target : Nat) : Except Errno Fs := do
  let oldType := fs.ftype src
  let newType := fs.ftype target
  let fs ← fs.removeDirEntry oldDir oldName
  let fs ← fs.addDirEntry oldDir oldName target newType
  let fs ← fs.removeDirEntry newDir newName
  let fs ← fs.addDirEntry newDir newName src oldType
  let cross := oldDir != newDir
  let fs := fs.carryLink cross src oldDir newDir
  let fs := fs.carryLink cross target newDir oldDir
  let fs := fs.updateParentDir oldDir 0 0
  .ok (if cross then fs.updateParentDir newDir 0 0 else fs)

--
-- What the VFS does around an operation
--

/-- The directory can be worked in: it is one, and was not removed. -/
def liveDir (fs : Fs) (dir : Nat) : Bool :=
  (fs.inodes dir).any fun i => i.kind == .dir && !i.dead

/-- `may_create`: a live directory without the name. -/
def mayCreate (fs : Fs) (dir : Nat) (name : Name) : Except Errno Unit :=
  if !fs.liveDir dir then .error .enoent
  else if (fs.lookup dir name).isSome then .error .eexist
  else .ok ()

/-- A name resolved to its inode, in a live directory. -/
def resolve (fs : Fs) (dir : Nat) (name : Name) : Except Errno Nat :=
  if !fs.liveDir dir then .error .enoent
  else match fs.lookup dir name with
    | none => .error .enoent
    | some e => .ok e.ino

/-- The last reference to an inode without names is dropped (`briefs_evict_inode`). -/
def evict (fs : Fs) (ino : Nat) : Fs :=
  { fs with inodes := fun x =>
      if x = ino then (fs.inodes x).filter fun i => i.nlink != 0 else fs.inodes x }

/-- After an inode lost a name: a directory is marked dead, and the inode is
evicted unless it is `held` open. -/
def lostName (fs : Fs) (ino : Nat) (held : Bool) : Fs :=
  let fs := fs.modify ino fun i => { i with dead := i.kind == .dir }
  if held then fs else fs.evict ino

end Fs

/-- The flags of `renameat2`; the whiteout comes with the inode number it gets. -/
structure RenameFlags where
  noreplace : Bool
  exchange  : Bool
  whiteout  : Option Nat
deriving DecidableEq, Repr

/-- `briefs_rename` without `RENAME_EXCHANGE`. -/
def Fs.rename (fs : Fs) (oldDir : Nat) (oldName : Name) (newDir : Nat) (newName : Name)
    (src : Nat) (target : Option Nat) (flags : RenameFlags) : Except Errno Fs :=
  match flags.whiteout with
  | some ino => fs.renameWhiteout oldDir oldName newDir newName src target ino
  | none => fs.renamePlain oldDir oldName newDir newName src target flags.noreplace

/-- `vfs_rename`. -/
def Fs.vfsRename (fs : Fs) (oldDir : Nat) (oldName : Name) (newDir : Nat) (newName : Name)
    (flags : RenameFlags) (held : Bool) : Except Errno Fs := do
  if flags.exchange && (flags.noreplace || flags.whiteout.isSome) then .error .einval
  else
    let src ← fs.resolve oldDir oldName
    if !fs.liveDir newDir then .error .enoent
    else
      let target := (fs.lookup newDir newName).map Dirent.ino
      if target = some src then .ok fs
      else if flags.exchange then
        match target with
        | none => .error .enoent
        | some t => fs.renameExchange oldDir oldName newDir newName src t
      else if target.any fun t => fs.isDir src && !fs.isDir t then .error .enotdir
      else if target.any fun t => !fs.isDir src && fs.isDir t then .error .eisdir
      else
        let fs ← fs.rename oldDir oldName newDir newName src target flags
        match target with
        | some t => .ok (fs.lostName t held)
        | none => .ok fs

/-- One call into the namespace. `ino` is the number a new inode gets, `held` says
that the inode losing its name is open, and `close` drops such a reference. -/
inductive Op where
  | create (dir : Nat) (name : Name) (ino : Nat)
  | mkdir (dir : Nat) (name : Name) (ino : Nat)
  | mknod (dir : Nat) (name : Name) (ino : Nat)
  | symlink (dir : Nat) (name : Name) (ino len : Nat)
  | link (src dir : Nat) (name : Name)
  | unlink (dir : Nat) (name : Name) (held : Bool)
  | rmdir (dir : Nat) (name : Name) (held : Bool)
  | rename (oldDir : Nat) (oldName : Name) (newDir : Nat) (newName : Name)
      (flags : RenameFlags) (held : Bool)
  | close (ino : Nat)
deriving DecidableEq, Repr

/-- The call as the VFS makes it. -/
def Fs.step (fs : Fs) : Op → Except Errno Fs
  | .create dir name ino => do
    fs.mayCreate dir name
    fs.create dir name ino .reg
  | .mkdir dir name ino => do
    fs.mayCreate dir name
    fs.create dir name ino .dir
  | .mknod dir name ino => do
    fs.mayCreate dir name
    fs.mknod dir name ino
  | .symlink dir name ino len => do
    fs.mayCreate dir name
    fs.symlink dir name ino len
  | .link src dir name => do
    fs.mayCreate dir name
    -- `vfs_link` refuses an inode that has lost its last name
    if (fs.inodes src).any fun i => i.nlink == 0 then .error .enoent
    else fs.link src dir name
  | .unlink dir name held => do
    let ino ← fs.resolve dir name
    let fs ← fs.unlink dir name ino
    .ok (fs.lostName ino held)
  | .rmdir dir name held => do
    let ino ← fs.resolve dir name
    let fs ← fs.rmdir dir name ino
    .ok (fs.lostName ino held)
  | .rename oldDir oldName newDir newName flags held =>
    fs.vfsRename oldDir oldName newDir newName flags held
  | .close ino => .ok (fs.evict ino)

/-- The states reached by calls that all return 0. -/
def Fs.run (fs : Fs) : List Op → Except Errno Fs
  | [] => .ok fs
  | op :: ops => do
    let fs ← fs.step op
    fs.run ops

/-- A file system that holds only the root directory. -/
def Fs.fresh : Fs where
  inodes := fun x =>
    if x = rootIno then
      some { kind := .dir, size := 0, nlink := 2, nlinks := 2, parent := rootIno, dead := false }
    else none
  dirents := []

end Briefs.Dir
