import Briefs.Dir.Names

/-!
# BrieFS — renames that fail half-way

The three shapes of `briefs_rename` once more, now with every call that can fail: the
trie edits, the journal records, the writes of inodes, and the calls of the rollback
paths themselves. Each such call is a `Site`, and no site runs twice in one rename, so
that a choice of an error or of success for every site covers every way a rename can
go wrong. A trie edit that fails leaves the map as it was.

The final directory sync is left out, as are time stamps. Errors of the journal and of
inode writes inside a rollback are ignored by the source and change no map or count.

## Results

* `Ends` and its rules — what holds where a sequence of calls stops.
* `OnlyMoved` — which link counts and parents a rename has moved so far, and that the
  rollbacks put them back (`counts_restoreLinks`).
-/

namespace Briefs.Dir

--
-- Calls that fail
--

/-- The calls of a rename that can fail, in the order of the source, the three shapes
together and the rollbacks last. -/
inductive Site where
  | scan
  | removeTarget
  | journalTarget
  | persistTarget
  | parentTarget
  | newWhiteout
  | snapshotWhiteout
  | repointOld
  | removeOld
  | journalOld
  | journalWhiteout
  | addOld
  | journalOldAdd
  | removeNew
  | journalNewDel
  | addNew
  | journalNew
  | persistMoved
  | persistOther
  | parentOld
  | parentNew
  | persistSource
  | parentWhiteout
  | undoTarget
  | undoNew
  | undoOld
  | undoRemoveOld
  | undoRemoveNew
deriving DecidableEq, Repr

/-- The errors of the device, the allocator and memory. -/
inductive Fault where
  | enospc
  | eio
  | enomem
deriving DecidableEq, Repr

/-- What each call does; `blind` says that the emptiness check of a target directory
meets an error of the iterator and takes the directory for empty. -/
structure Faults where
  err   : Site → Option Fault
  blind : Bool

/-- The error a rename returns. -/
inductive Failure where
  | refused (e : Errno)
  | fault (f : Fault)
deriving DecidableEq, Repr

/-- A call that fails by `fault`, or has the result `r`. -/
def attempt (fault : Option Fault) (r : Except Errno Fs) : Except Failure Fs :=
  match fault, r with
  | some f, _ => .error (.fault f)
  | none, .error e => .error (.refused e)
  | none, .ok fs => .ok fs

/-- A call of a rollback, whose error is ignored. -/
def orSame (r : Except Failure Fs) (fs : Fs) : Fs :=
  match r with
  | .ok fs' => fs'
  | .error _ => fs

/-- A trie edit of the way down; `undone` is the state after the rollback. -/
def edit (r : Except Failure Fs) (undone : Fs) : Except (Failure × Fs) Fs :=
  match r with
  | .ok fs => .ok fs
  | .error f => .error (f, undone)

/-- A call that changes nothing here but can fail. -/
def check (fault : Option Fault) (undone : Fs) : Except (Failure × Fs) Unit :=
  match fault with
  | some f => .error (.fault f, undone)
  | none => .ok ()

/-- A call that is made only if `b` holds. -/
def when (b : Bool) (fault : Option Fault) : Option Fault :=
  if b then fault else none

/-- The arguments of `briefs_rename`, with the inodes the names resolve to. -/
structure Call where
  oldDir  : Nat
  oldName : Name
  newDir  : Nat
  newName : Name
  src     : Nat
  target  : Option Nat

/-- The shape of a rename; a whiteout comes with the number of its inode. -/
inductive Mode where
  | plain (noreplace : Bool)
  | exchange
  | whiteout (ino : Nat)

--
-- Removing the target
--

/-- The label `fail_target`: the target's entry is put back. -/
def undoTarget (F : Faults) (c : Call) (t : Nat) (type : Kind) (fs : Fs) : Fs :=
  orSame (attempt (F.err .undoTarget) (fs.addDirEntry c.newDir c.newName t type)) fs

/-- The part of `briefs_rename` and `briefs_rename_whiteout` that removes the target. -/
def takeTarget (F : Faults) (c : Call) (t : Nat) (fs : Fs) : Except (Failure × Fs) Fs := do
  let type := fs.ftype t
  check (when (fs.isDir t) (F.err .scan)) fs
  let fs ← edit (if fs.isDir t && !F.blind && !fs.emptyDir t then .error (.refused .enotempty) else .ok fs) fs
  let fs ← edit (attempt (F.err .removeTarget) (fs.removeDirEntry c.newDir c.newName)) fs
  check (F.err .journalTarget) (undoTarget F c t type fs)
  let fs := fs.dropLinks c.newDir t
  let fs := fs.modify t fun j => { j with nlinks := j.nlink }
  check (F.err .persistTarget) (undoTarget F c t type fs)
  let fs := fs.updateParentDir c.newDir 0 0
  check (F.err .parentTarget) (undoTarget F c t type fs)
  .ok fs

/-- The target is removed if there is one. -/
def clearName (F : Faults) (c : Call) (fs : Fs) : Except (Failure × Fs) Fs :=
  match c.target with
  | some t => takeTarget F c t fs
  | none => .ok fs

--
-- Moving to another parent
--

/-- A directory moves to another parent. -/
def crosses (fs : Fs) (c : Call) : Bool :=
  c.oldDir != c.newDir && fs.isDir c.src

def crossLinks (c : Call) (fs : Fs) : Fs :=
  if crosses fs c then
    ((fs.modify c.oldDir Inode.dropNlink).modify c.newDir Inode.incNlink).modify c.src
      fun j => { j with parent := c.newDir }
  else fs

/-- The counts and the parent of `fs₀` are put back, as the rollbacks do it. -/
def restoreNlink (fs₀ : Fs) (dir : Nat) (fs : Fs) : Fs :=
  fs.modify dir fun j => { j with nlink := ((fs₀.inodes dir).map Inode.nlink).getD j.nlink }

def restoreParent (fs₀ : Fs) (ino : Nat) (fs : Fs) : Fs :=
  fs.modify ino fun j => { j with parent := ((fs₀.inodes ino).map Inode.parent).getD j.parent }

def restoreLinks (fs₀ : Fs) (c : Call) (fs : Fs) : Fs :=
  if crosses fs c then
    restoreParent fs₀ c.src (restoreNlink fs₀ c.newDir (restoreNlink fs₀ c.oldDir fs))
  else fs

/-- The calls after the entries are in place: the link counts of a directory that moves,
and the writes of the inodes; `undo` is the rollback. -/
def settle (F : Faults) (c : Call) (undo : Fs → Fs) (fs : Fs) : Except (Failure × Fs) Fs := do
  let fs := crossLinks c fs
  check (when (crosses fs c) (F.err .persistMoved)) (undo fs)
  let fs := fs.updateParentDir c.oldDir 0 0
  check (F.err .parentOld) (undo fs)
  let fs := if c.oldDir != c.newDir then fs.updateParentDir c.newDir 0 0 else fs
  check (when (c.oldDir != c.newDir) (F.err .parentNew)) (undo fs)
  check (F.err .persistSource) (undo fs)
  .ok fs

--
-- The plain rename
--

/-- The label `fail` of `briefs_rename`, the entries. -/
def undoPlain (F : Faults) (c : Call) (type : Kind) (added : Bool) (fs : Fs) : Fs :=
  let fs :=
    if added then orSame (attempt (F.err .undoNew) (fs.removeDirEntry c.newDir c.newName)) fs
    else fs
  orSame (attempt (F.err .undoOld) (fs.addDirEntry c.oldDir c.oldName c.src type)) fs

/-- `briefs_rename` after the target is out of the way; `fs₀` is the state at the call. -/
def movePlain (F : Faults) (c : Call) (fs₀ fs : Fs) : Except (Failure × Fs) Fs := do
  let type := fs₀.ftype c.src
  let fs ← edit (attempt (F.err .removeOld) (fs.removeDirEntry c.oldDir c.oldName)) fs
  check (F.err .journalOld) (undoPlain F c type false fs)
  let fs ← edit (attempt (F.err .addNew) (fs.addDirEntry c.newDir c.newName c.src type))
    (undoPlain F c type false fs)
  check (F.err .journalNew) (undoPlain F c type true fs)
  settle F c (fun fs => undoPlain F c type true (restoreLinks fs₀ c fs)) fs

--
-- The whiteout
--

/-- `briefs_create_abort` of the whiteout. -/
def abortInode (ino : Nat) (fs : Fs) : Fs :=
  { fs with inodes := fun x => if x = ino then none else fs.inodes x }

/-- The label `fail_target`, if a target was removed. -/
def undoTargetOf (F : Faults) (c : Call) (fs₀ fs : Fs) : Fs :=
  match c.target with
  | some t => undoTarget F c t (fs₀.ftype t) fs
  | none => fs

/-- The label `fail` of `briefs_rename_whiteout`: entries and the whiteout inode. -/
def undoWhiteout (F : Faults) (c : Call) (ino : Nat) (type : Kind) (added : Bool) (fs : Fs) : Fs :=
  let fs :=
    if added then orSame (attempt (F.err .undoNew) (fs.removeDirEntry c.newDir c.newName)) fs
    else fs
  let fs := orSame (attempt (F.err .undoOld)
    (fs.repointDirEntry c.oldDir c.oldName c.src type)) fs
  abortInode ino fs

/-- `briefs_rename_whiteout` after the target is out of the way. -/
def moveWhiteout (F : Faults) (c : Call) (ino : Nat) (fs₀ fs : Fs) :
    Except (Failure × Fs) Fs := do
  let type := fs₀.ftype c.src
  let before := fs
  let fs ← edit (attempt (F.err .newWhiteout) (fs.newInode c.oldDir ino .special 0))
    (undoTargetOf F c fs₀ before)
  check (F.err .snapshotWhiteout) (undoTargetOf F c fs₀ (abortInode ino fs))
  let fs ← edit (attempt (F.err .repointOld)
    (fs.repointDirEntry c.oldDir c.oldName ino .special)) (undoTargetOf F c fs₀ (abortInode ino fs))
  check (F.err .journalOld) (undoWhiteout F c ino type false fs)
  check (F.err .journalWhiteout) (undoWhiteout F c ino type false fs)
  let fs ← edit (attempt (F.err .addNew) (fs.addDirEntry c.newDir c.newName c.src type))
    (undoWhiteout F c ino type false fs)
  check (F.err .journalNew) (undoWhiteout F c ino type true fs)
  let undo := fun fs => undoWhiteout F c ino type true (restoreLinks fs₀ c fs)
  let fs ← settle F c undo fs
  check (F.err .parentWhiteout) (undo fs)
  .ok (fs.updateParentDir c.oldDir (dirEntryPrefixLen + c.oldName.length) 0)

--
-- The exchange
--

/-- The label `fail` of `briefs_rename_exchange`, the entries. -/
def undoExchange (F : Faults) (c : Call) (t : Nat) (oldType newType : Kind) (fs : Fs) : Fs :=
  let fs := orSame (attempt (F.err .undoRemoveOld) (fs.removeDirEntry c.oldDir c.oldName)) fs
  let fs := orSame (attempt (F.err .undoOld)
    (fs.addDirEntry c.oldDir c.oldName c.src oldType)) fs
  let fs := orSame (attempt (F.err .undoRemoveNew) (fs.removeDirEntry c.newDir c.newName)) fs
  orSame (attempt (F.err .undoNew) (fs.addDirEntry c.newDir c.newName t newType)) fs

/-- The counts and parents that the rollback of an exchange puts back. -/
def restoreBoth (fs₀ : Fs) (c : Call) (t : Nat) (fs : Fs) : Fs :=
  if c.oldDir ≠ c.newDir ∧ (fs.isDir c.src || fs.isDir t) then
    let fs := restoreNlink fs₀ c.newDir (restoreNlink fs₀ c.oldDir fs)
    let fs := if fs.isDir c.src then restoreParent fs₀ c.src fs else fs
    if fs.isDir t then restoreParent fs₀ t fs else fs
  else fs

/-- `briefs_rename_exchange`. -/
def swap (F : Faults) (c : Call) (t : Nat) (fs₀ : Fs) : Except (Failure × Fs) Fs := do
  let oldType := fs₀.ftype c.src
  let newType := fs₀.ftype t
  let undo := undoExchange F c t oldType newType
  let fs := fs₀
  let fs ← edit (attempt (F.err .removeOld) (fs.removeDirEntry c.oldDir c.oldName)) (undo fs)
  check (F.err .journalOld) (undo fs)
  let fs ← edit (attempt (F.err .addOld) (fs.addDirEntry c.oldDir c.oldName t newType)) (undo fs)
  check (F.err .journalOldAdd) (undo fs)
  let fs ← edit (attempt (F.err .removeNew) (fs.removeDirEntry c.newDir c.newName)) (undo fs)
  check (F.err .journalNewDel) (undo fs)
  let fs ← edit (attempt (F.err .addNew) (fs.addDirEntry c.newDir c.newName c.src oldType))
    (undo fs)
  check (F.err .journalNew) (undo fs)
  let cross := c.oldDir != c.newDir
  let fs := (fs.carryLink cross c.src c.oldDir c.newDir).carryLink cross t c.newDir c.oldDir
  let undo := fun fs => undo (restoreBoth fs₀ c t fs)
  check (F.err .persistSource) (undo fs)
  check (F.err .persistOther) (undo fs)
  let fs := fs.updateParentDir c.oldDir 0 0
  check (F.err .parentOld) (undo fs)
  let fs := if cross then fs.updateParentDir c.newDir 0 0 else fs
  check (when cross (F.err .parentNew)) (undo fs)
  .ok fs

/-- `briefs_rename` up to the directory sync. An error comes with the state it leaves. -/
def renameFaulty (F : Faults) (mode : Mode) (c : Call) (fs : Fs) : Except (Failure × Fs) Fs :=
  match mode with
  | .exchange =>
    match c.target with
    | some t => swap F c t fs
    | none => .error (.refused .enoent, fs)
  | .whiteout ino => do
    let cleared ← clearName F c fs
    moveWhiteout F c ino fs cleared
  | .plain noreplace => do
    let fs ← edit (if noreplace && c.target.isSome then .error (.refused .eexist) else .ok fs) fs
    let cleared ← clearName F c fs
    movePlain F c fs cleared

--
-- What is compared
--

/-- The inode number at a name of a directory. -/
def Fs.inoAt (fs : Fs) (at_ : Nat × Name) : Option Nat :=
  (fs.lookup at_.1 at_.2).map Dirent.ino

/-- What a failed rename may not change in an inode: the link count and the parent. -/
def Fs.counts (fs : Fs) (ino : Nat) : Option (Kind × Nat × Nat) :=
  (fs.inodes ino).map fun i => (i.kind, i.nlink, i.parent)

/-- All names, link counts and parents are as they were. -/
def Unchanged (fs fs' : Fs) : Prop :=
  fs'.inoAt = fs.inoAt ∧ fs'.counts = fs.counts

def Call.old (c : Call) : Nat × Name := (c.oldDir, c.oldName)

def Call.new (c : Call) : Nat × Name := (c.newDir, c.newName)

/-- A name an entry can have. -/
def nameFits (name : Name) : Prop := 1 ≤ name.length ∧ name.length ≤ nameLen

/-- What the VFS sees to: the names resolve as the call says, not to one inode, and an
inode with a name has a link. -/
structure Posed (fs : Fs) (c : Call) : Prop where
  old    : fs.inoAt c.old = some c.src
  new    : fs.inoAt c.new = c.target
  differ : c.target ≠ some c.src
  oldFit : nameFits c.oldName
  newFit : nameFits c.newName
  alive  : (fs.inodes c.oldDir).isSome = true ∧ (fs.inodes c.newDir).isSome = true ∧
    (fs.inodes c.src).isSome = true
  linked : ∀ t, c.target = some t → ∃ i, fs.inodes t = some i ∧ 0 < i.nlink ∧ i.nlink < linkModulus

theorem Posed.apart {fs : Fs} {c : Call} (h : Posed fs c) : c.old ≠ c.new := by
  intro hEq
  have hNew := h.new
  rw [← hEq, h.old] at hNew
  exact h.differ hNew.symm

--
-- The edits on names
--

section Names

variable {fs : Fs} {dir : Nat} {name : Name} {ino : Nat} {type : Kind} {fault : Option Fault}

theorem inoAt_eq_of_dirents {fs fs' : Fs} (h : fs'.dirents = fs.dirents) : fs'.inoAt = fs.inoAt := by
  funext p
  unfold Fs.inoAt Fs.lookup
  rw [h]

theorem counts_eq_of_inodes {fs fs' : Fs} (h : fs'.inodes = fs.inodes) : fs'.counts = fs.counts := by
  funext x
  unfold Fs.counts
  rw [h]

theorem isAt_pair (e : Dirent) (p : Nat × Name) : e.isAt p.1 p.2 = true ↔ (e.dir, e.name) = p := by
  rw [isAt_iff, Prod.ext_iff]

theorem inoAt_filter (fs : Fs) (dir : Nat) (name : Name) :
    ({ fs with dirents := fs.dirents.filter fun e => !e.isAt dir name } : Fs).inoAt =
      Function.update fs.inoAt (dir, name) none := by
  funext p
  unfold Fs.inoAt Fs.lookup
  by_cases hp : p = (dir, name)
  · rw [hp, Function.update_self, Option.map_eq_none_iff, List.find?_eq_none]
    intro e he
    have hNot := (List.mem_filter.mp he).2
    rw [Bool.not_eq_true'] at hNot
    rw [hNot]
    exact Bool.false_ne_true
  · rw [Function.update_of_ne hp, List.find?_filter]
    congr 2
    funext e
    by_cases hAt : e.isAt p.1 p.2 = true
    · have hElse : e.isAt dir name = false := by
        rw [Bool.eq_false_iff]
        intro hBad
        exact hp (((isAt_pair e p).mp hAt).symm.trans ((isAt_pair e (dir, name)).mp hBad))
      rw [hElse, hAt]
      rfl
    · rw [Bool.not_eq_true] at hAt
      rw [hAt, decide_eq_false_iff_not]
      exact fun hBoth => Bool.false_ne_true hBoth.2

theorem inoAt_cons (fs : Fs) (dir : Nat) (name : Name) (ino : Nat) (type : Kind) :
    ({ fs with dirents := ⟨dir, name, ino, type⟩ :: fs.dirents.filter fun e => !e.isAt dir name } :
      Fs).inoAt = Function.update fs.inoAt (dir, name) (some ino) := by
  funext p
  by_cases hp : p = (dir, name)
  · have hAt : (⟨dir, name, ino, type⟩ : Dirent).isAt p.1 p.2 = true := by
      rw [isAt_pair, hp]
    rw [hp] at hAt
    rw [hp, Function.update_self]
    unfold Fs.inoAt Fs.lookup
    dsimp only at hAt ⊢
    rw [List.find?_cons, hAt]
    rfl
  · have hAt : ¬ (⟨dir, name, ino, type⟩ : Dirent).isAt p.1 p.2 = true := by
      rw [isAt_pair]
      exact fun hEq => hp hEq.symm
    have hRest := congrFun (inoAt_filter fs dir name) p
    rw [Function.update_of_ne hp] at hRest ⊢
    rw [← hRest]
    rw [Bool.not_eq_true] at hAt
    unfold Fs.inoAt Fs.lookup
    dsimp only
    rw [List.find?_cons, hAt]

theorem isSome_of_inoAt (hThere : fs.inoAt (dir, name) ≠ none) :
    (fs.lookup dir name).isSome = true := by
  unfold Fs.inoAt at hThere
  rw [Option.isSome_iff_ne_none]
  intro hNone
  rw [hNone] at hThere
  exact hThere rfl

/-- A sequence of calls ends well with `P`, or stops at a failure with `Q` of the state that
the rollback leaves. -/
def Ends {α : Type} (r : Except (Failure × Fs) α) (P : α → Prop) (Q : Fs → Prop) : Prop :=
  match r with
  | .ok a => P a
  | .error (_, fs') => Q fs'

variable {α : Type} {undone : Fs} {P : α → Prop} {Q : Fs → Prop}

theorem ends_bind {β : Type} {r : Except (Failure × Fs) β} {R : β → Prop}
    {rest : β → Except (Failure × Fs) α} (h : Ends r R Q) (hRest : ∀ b, R b → Ends (rest b) P Q) :
    Ends (r >>= rest) P Q := by
  cases r with
  | ok b => exact hRest b h
  | error e => exact h

theorem ends_check {rest : Unit → Except (Failure × Fs) α} (hFail : fault ≠ none → Q undone)
    (hOk : fault = none → Ends (rest ()) P Q) : Ends (check fault undone >>= rest) P Q := by
  cases fault with
  | none => exact hOk rfl
  | some f => exact hFail nofun

theorem ends_add {rest : Fs → Except (Failure × Fs) α} (hFit : nameFits name)
    (hFail : fault ≠ none → Q undone)
    (hOk : fault = none → ∀ fs', fs'.inoAt = Function.update fs.inoAt (dir, name) (some ino) →
      fs'.inodes = fs.inodes → Ends (rest fs') P Q) :
    Ends (edit (attempt fault (fs.addDirEntry dir name ino type)) undone >>= rest) P Q := by
  cases fault with
  | some f => exact hFail nofun
  | none =>
    unfold Fs.addDirEntry
    rw [if_neg (by unfold nameFits at hFit; omega)]
    exact hOk rfl _ (inoAt_cons fs dir name ino type) rfl

theorem ends_remove {rest : Fs → Except (Failure × Fs) α} (hFit : nameFits name)
    (hThere : fs.inoAt (dir, name) ≠ none) (hFail : fault ≠ none → Q undone)
    (hOk : fault = none → ∀ fs', fs'.inoAt = Function.update fs.inoAt (dir, name) none →
      fs'.inodes = fs.inodes → Ends (rest fs') P Q) :
    Ends (edit (attempt fault (fs.removeDirEntry dir name)) undone >>= rest) P Q := by
  cases fault with
  | some f => exact hFail nofun
  | none =>
    unfold Fs.removeDirEntry
    rw [if_neg (by unfold nameFits at hFit; omega), if_pos (isSome_of_inoAt hThere)]
    exact hOk rfl _ (inoAt_filter fs dir name) rfl

theorem ends_repoint {rest : Fs → Except (Failure × Fs) α}
    (hThere : fs.inoAt (dir, name) ≠ none) (hFail : fault ≠ none → Q undone)
    (hOk : fault = none → ∀ fs', fs'.inoAt = Function.update fs.inoAt (dir, name) (some ino) →
      fs'.inodes = fs.inodes → Ends (rest fs') P Q) :
    Ends (edit (attempt fault (fs.repointDirEntry dir name ino type)) undone >>= rest) P Q := by
  cases fault with
  | some f => exact hFail nofun
  | none =>
    unfold Fs.repointDirEntry
    rw [if_pos (isSome_of_inoAt hThere)]
    exact hOk rfl _ (inoAt_cons fs dir name ino type) rfl

/-- What the calls of a rollback do to the names. -/
theorem orSame_add (fs : Fs) (fault : Option Fault) (dir ino : Nat) (type : Kind)
    (hFit : nameFits name) :
    (orSame (attempt fault (fs.addDirEntry dir name ino type)) fs).inoAt =
        (if fault = none then Function.update fs.inoAt (dir, name) (some ino) else fs.inoAt) ∧
      (orSame (attempt fault (fs.addDirEntry dir name ino type)) fs).inodes = fs.inodes := by
  cases fault with
  | some f => exact ⟨rfl, rfl⟩
  | none =>
    unfold Fs.addDirEntry
    rw [if_neg (by unfold nameFits at hFit; omega)]
    exact ⟨inoAt_cons fs dir name ino type, rfl⟩

theorem orSame_remove (fs : Fs) (fault : Option Fault) (dir : Nat) (hFit : nameFits name) :
    (orSame (attempt fault (fs.removeDirEntry dir name)) fs).inoAt =
        (if fault = none then Function.update fs.inoAt (dir, name) none else fs.inoAt) ∧
      (orSame (attempt fault (fs.removeDirEntry dir name)) fs).inodes = fs.inodes := by
  cases fault with
  | some f => exact ⟨rfl, rfl⟩
  | none =>
    unfold Fs.removeDirEntry
    rw [if_neg (by unfold nameFits at hFit; omega)]
    by_cases hThere : (fs.lookup dir name).isSome = true
    · rw [if_pos hThere]
      exact ⟨inoAt_filter fs dir name, rfl⟩
    · rw [if_neg hThere]
      refine ⟨?_, rfl⟩
      -- the name was not there
      have hNone : fs.inoAt (dir, name) = none := by
        unfold Fs.inoAt
        rw [Option.map_eq_none_iff]
        simpa using hThere
      show fs.inoAt = Function.update fs.inoAt (dir, name) none
      rw [← hNone, Function.update_eq_self]

theorem orSame_repoint (fs : Fs) (fault : Option Fault) (ino : Nat) (type : Kind)
    (hThere : fs.inoAt (dir, name) ≠ none) :
    (orSame (attempt fault (fs.repointDirEntry dir name ino type)) fs).inoAt =
        (if fault = none then Function.update fs.inoAt (dir, name) (some ino) else fs.inoAt) ∧
      (orSame (attempt fault (fs.repointDirEntry dir name ino type)) fs).inodes = fs.inodes := by
  cases fault with
  | some f => exact ⟨rfl, rfl⟩
  | none =>
    unfold Fs.repointDirEntry
    rw [if_pos (isSome_of_inoAt hThere)]
    exact ⟨inoAt_cons fs dir name ino type, rfl⟩

end Names

--
-- Link counts put back
--

section Counts

variable {fs fs₀ : Fs}

/-- At `x` only what `D` and `M` allow differs: the link count, and the parent. -/
def Differ (D M : Nat → Prop) (x : Nat) (i j : Inode) : Prop :=
  j.kind = i.kind ∧ (¬ D x → j.nlink = i.nlink) ∧ (¬ M x → j.parent = i.parent)

/-- Link counts differ only in `D` and parents only in `M`. -/
def OnlyMoved (D M : Nat → Prop) (fs₀ fs : Fs) : Prop :=
  ∀ x, (fs₀.inodes x = none ∧ fs.inodes x = none) ∨
    ∃ i j, fs₀.inodes x = some i ∧ fs.inodes x = some j ∧ Differ D M x i j

variable {D M : Nat → Prop}

theorem OnlyMoved.modify (h : OnlyMoved D M fs₀ fs) {a : Nat} {f : Inode → Inode}
    {D' M' : Nat → Prop}
    (hAt : ∀ i j, fs₀.inodes a = some i → Differ D M a i j → Differ D' M' a i (f j))
    (hElse : ∀ x i j, x ≠ a → Differ D M x i j → Differ D' M' x i j) :
    OnlyMoved D' M' fs₀ (fs.modify a f) := by
  intro x
  rw [modify_inodes]
  rcases h x with ⟨hi, hj⟩ | ⟨i, j, hi, hj, hDiffer⟩
  · refine Or.inl ⟨hi, ?_⟩
    rw [hj, Option.map_none]
  · refine Or.inr ⟨i, if x = a then f j else j, hi, ?_, ?_⟩
    · rw [hj, Option.map_some]
    · by_cases hEq : x = a
      · subst hEq
        rw [if_pos rfl]
        exact hAt i j hi hDiffer
      · rw [if_neg hEq]
        exact hElse x i j hEq hDiffer

theorem onlyMoved_of_counts (h : fs.counts = fs₀.counts) : OnlyMoved D M fs₀ fs := by
  intro x
  have hx := congrFun h x
  unfold Fs.counts at hx
  cases hi : fs₀.inodes x with
  | none =>
    rw [hi, Option.map_none, Option.map_eq_none_iff] at hx
    exact Or.inl ⟨rfl, hx⟩
  | some i =>
    rw [hi, Option.map_some, Option.map_eq_some_iff] at hx
    obtain ⟨j, hj, hEq⟩ := hx
    simp only [Prod.mk.injEq] at hEq
    exact Or.inr ⟨i, j, rfl, hj, hEq.1, fun _ => hEq.2.1, fun _ => hEq.2.2⟩

theorem OnlyMoved.counts (h : OnlyMoved D M fs₀ fs) (hD : ∀ x, ¬ D x) (hM : ∀ x, ¬ M x) :
    fs.counts = fs₀.counts := by
  funext x
  unfold Fs.counts
  rcases h x with ⟨hi, hj⟩ | ⟨i, j, hi, hj, hKind, hLink, hParent⟩
  · rw [hi, hj]
  · rw [hi, hj, Option.map_some, Option.map_some, hKind, hLink (hD x), hParent (hM x)]

theorem OnlyMoved.weaken (h : OnlyMoved D M fs₀ fs) {D' M' : Nat → Prop} (hD : ∀ x, D x → D' x)
    (hM : ∀ x, M x → M' x) : OnlyMoved D' M' fs₀ fs := by
  intro x
  rcases h x with hNone | ⟨i, j, hi, hj, hKind, hLink, hParent⟩
  · exact Or.inl hNone
  · exact Or.inr ⟨i, j, hi, hj, hKind, fun hNo => hLink fun hx => hNo (hD x hx),
      fun hNo => hParent fun hx => hNo (hM x hx)⟩

theorem OnlyMoved.isDir (h : OnlyMoved D M fs₀ fs) (ino : Nat) : fs.isDir ino = fs₀.isDir ino := by
  unfold Fs.isDir
  rcases h ino with ⟨hi, hj⟩ | ⟨i, j, hi, hj, hKind, -⟩
  · rw [hi, hj]
  · rw [hi, hj, Option.any_some, Option.any_some, hKind]

/-- Changing a link count keeps the rest. -/
def KeepsRest (f : Inode → Inode) : Prop :=
  ∀ j, (f j).kind = j.kind ∧ (f j).parent = j.parent

theorem dropNlink_keeps : KeepsRest Inode.dropNlink := by
  rintro ⟨⟩
  exact ⟨rfl, rfl⟩

theorem incNlink_keeps : KeepsRest Inode.incNlink := by
  rintro ⟨⟩
  exact ⟨rfl, rfl⟩

theorem OnlyMoved.nlink (h : OnlyMoved D M fs₀ fs) {a : Nat} {f : Inode → Inode} (ha : D a)
    (hKeeps : KeepsRest f) : OnlyMoved D M fs₀ (fs.modify a f) := by
  refine h.modify ?_ fun _ _ _ _ hDiffer => hDiffer
  intro i j _ hDiffer
  exact ⟨(hKeeps j).1.trans hDiffer.1, fun hNo => absurd ha hNo,
    fun hNo => (hKeeps j).2.trans (hDiffer.2.2 hNo)⟩

theorem OnlyMoved.parent (h : OnlyMoved D M fs₀ fs) {a : Nat} (ha : M a) (p : Nat) :
    OnlyMoved D M fs₀ (fs.modify a fun j => { j with parent := p }) := by
  refine h.modify ?_ fun _ _ _ _ hDiffer => hDiffer
  intro i j _ hDiffer
  exact ⟨hDiffer.1, hDiffer.2.1, fun hNo => absurd ha hNo⟩

theorem OnlyMoved.updateParentDir (h : OnlyMoved D M fs₀ fs) (dir : Nat) :
    OnlyMoved D M fs₀ (fs.updateParentDir dir 0 0) := by
  refine h.modify ?_ fun _ _ _ _ hDiffer => hDiffer
  intro i j _ hDiffer
  exact hDiffer

theorem OnlyMoved.restoreNlink (h : OnlyMoved D M fs₀ fs) (dir : Nat) :
    OnlyMoved (fun x => D x ∧ x ≠ dir) M fs₀ (Dir.restoreNlink fs₀ dir fs) := by
  refine h.modify ?_ ?_
  · intro i j hi hDiffer
    refine ⟨hDiffer.1, fun _ => ?_, hDiffer.2.2⟩
    rw [hi]
    rfl
  · intro x i j hx hDiffer
    exact ⟨hDiffer.1, fun hNo => hDiffer.2.1 fun hD => hNo ⟨hD, hx⟩, hDiffer.2.2⟩

theorem OnlyMoved.restoreParent (h : OnlyMoved D M fs₀ fs) (ino : Nat) :
    OnlyMoved D (fun x => M x ∧ x ≠ ino) fs₀ (Dir.restoreParent fs₀ ino fs) := by
  refine h.modify ?_ ?_
  · intro i j hi hDiffer
    refine ⟨hDiffer.1, hDiffer.2.1, fun _ => ?_⟩
    rw [hi]
    rfl
  · intro x i j hx hDiffer
    exact ⟨hDiffer.1, hDiffer.2.1, fun hNo => hDiffer.2.2 fun hM => hNo ⟨hM, hx⟩⟩

/-- A directory that moves to another parent changes only what the rollback puts back. -/
theorem onlyMoved_crossLinks (c : Call) (h : fs.counts = fs₀.counts) :
    OnlyMoved (fun x => crosses fs₀ c = true ∧ (x = c.oldDir ∨ x = c.newDir))
      (fun x => crosses fs₀ c = true ∧ x = c.src) fs₀ (crossLinks c fs) := by
  have hSame : ∀ {D M}, OnlyMoved D M fs₀ fs := onlyMoved_of_counts h
  have hCross : crosses fs c = crosses fs₀ c := by
    unfold crosses
    rw [OnlyMoved.isDir (hSame (D := fun _ => False) (M := fun _ => False)) c.src]
  unfold crossLinks
  by_cases hYes : crosses fs c = true
  · rw [if_pos hYes]
    rw [hCross] at hYes
    exact ((hSame.nlink ⟨hYes, Or.inl rfl⟩ dropNlink_keeps).nlink ⟨hYes, Or.inr rfl⟩
      incNlink_keeps).parent ⟨hYes, rfl⟩ c.newDir
  · rw [if_neg hYes]
    exact hSame

theorem restoreLinks_dirents (fs₀ fs : Fs) (c : Call) :
    (restoreLinks fs₀ c fs).dirents = fs.dirents := by
  unfold restoreLinks
  split
  · rfl
  · rfl

theorem counts_restoreLinks (c : Call)
    (h : OnlyMoved (fun x => crosses fs₀ c = true ∧ (x = c.oldDir ∨ x = c.newDir))
      (fun x => crosses fs₀ c = true ∧ x = c.src) fs₀ fs) :
    (restoreLinks fs₀ c fs).counts = fs₀.counts := by
  have hCross : crosses fs c = crosses fs₀ c := by
    unfold crosses
    rw [h.isDir c.src]
  unfold restoreLinks
  by_cases hYes : crosses fs c = true
  · rw [if_pos hYes]
    refine (((h.restoreNlink c.oldDir).restoreNlink c.newDir).restoreParent c.src).counts ?_ ?_
    · rintro x ⟨⟨⟨-, hOld | hNew⟩, hNotOld⟩, hNotNew⟩
      · exact hNotOld hOld
      · exact hNotNew hNew
    · rintro x ⟨⟨-, hIs⟩, hNot⟩
      exact hNot hIs
  · rw [if_neg hYes]
    rw [hCross] at hYes
    exact h.counts (fun x hx => hYes hx.1) fun x hx => hYes hx.1

end Counts

end Briefs.Dir
