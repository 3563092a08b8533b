import Briefs.Replay.Passes
import Briefs.Trie.Walk

/-!
# BrieFS — reconciling link counts after replay

`replay_reconcile_nlinks` (`journal.c`) walks the tries of all directories, counts for every inode
the entries that name it and for every directory its entries of directory type, and then writes the
link counts that differ. If a walk does not end with `-ENOENT` it leaves all counts alone, as its
comment says: "the counts are incomplete".

`briefs_trie_iter_next` does not report a node that cannot be read, though: it passes over the node,
with all that hangs from it and the siblings behind it, and ends with `-ENOENT` like a complete walk.
The incomplete counts are then written.

## Results

* `reconcile_exact_iff` — the counts that are written are exact and a walk that is cut short leaves
  all counts alone, for any stored counts, exactly if all nodes can be read or the counting stops.
* `reconcile_writes_partial` — one unreadable node makes a link count wrong.
-/

namespace Briefs.Nlinks

open Briefs.Trie (Store Node Entry Iter IterError Tree Chain Positioned)
open Briefs.Journal (Errno)
open Briefs.Replay (DiskInode inodeMagic isDir)

--
-- The code
--

/-- The filesystem after pass 2: `inode_alloc`, the inode table, of which some blocks cannot be
read, the trie nodes that can be read, and the number of blocks. -/
structure Disk where
  maxIno     : Nat
  allocated  : Nat → Bool
  readable   : Nat → Bool
  slots      : Nat → DiskInode
  store      : Store
  blockCount : Nat

/-- What fails: the iterator of a directory, the count of an inode, the stack of the walk of a
directory after so many entries, and the write of an inode. -/
structure Faults where
  noIter   : Nat → Bool
  noCount  : Nat → Bool
  noStack  : Nat → Option Nat
  badWrite : Nat → Bool

/-- `replay_nlink_hash`: `link_count` and `subdir_count` of the inodes that have an entry. -/
def Counts : Type := Nat → Option (Nat × Nat)

/-- `replay_nlink_get` and the increment of a field, a `u32`. -/
def Counts.inc (F : Faults) (c : Counts) (ino : Nat) (add : Nat × Nat → Nat × Nat) :
    Option Counts :=
  match c ino with
  | some e => some fun i => if i = ino then some (add e) else c i
  | none => if F.noCount ino then none else some fun i => if i = ino then some (add (0, 0)) else c i

/-- `replay_nlink_inc_link`. -/
def Counts.incLink (F : Faults) (c : Counts) (ino : Nat) : Option Counts :=
  c.inc F ino fun e => ((e.1 + 1) % 2 ^ 32, e.2)

/-- `replay_nlink_inc_subdir`. -/
def Counts.incSubdir (F : Faults) (c : Counts) (ino : Nat) : Option Counts :=
  c.inc F ino fun e => (e.1, (e.2 + 1) % 2 ^ 32)

/-- An entry of the directory is counted. -/
def countEntry (F : Faults) (D : Disk) (dir : Nat) (c : Counts) (e : Entry) : Option Counts :=
  match (if e.ino ≠ 0 ∧ D.allocated e.ino then c.incLink F e.ino else some c) with
  | none => none
  | some c => if e.type = 4 then c.incSubdir F dir else some c

/-- How the counting ends. -/
inductive Counted where
  | noMemory
  | aborted
  | done (c : Counts)

/-- The loop over the entries of a directory, after `k` of them. -/
def countDir (F : Faults) (D : Disk) (dir : Nat) : Nat → Iter → Nat → Counts → Counted
  | 0, _, _, _ => .aborted
  | fuel + 1, it, k, c =>
    if F.noStack dir = some k then .aborted
    else match it.next D.blockCount D.store 0 with
      | (_, .error .enoent) => .done c
      | (_, .error _) => .aborted
      | (it, .ok e) => match countEntry F D dir c e with
        | none => .noMemory
        | some c => countDir F D dir fuel it (k + 1) c

/-- More calls than a walk can make: each visits a node. -/
def Disk.calls (D : Disk) : Nat := D.blockCount * Trie.slotsPerBlock + 1024 + 2

/-- The iterator at the root of a directory. -/
def Disk.iterOf (D : Disk) (dir : Nat) : Iter := Iter.alloc.init (D.slots dir).dirTrieRoot 0

/-- A directory that is walked. -/
def Disk.walked (D : Disk) (ino : Nat) : Bool :=
  D.allocated ino && D.readable ino && (D.slots ino).magic == inodeMagic && isDir (D.slots ino).filemode

/-- Pass 3a. -/
def countAll (F : Faults) (D : Disk) : List Nat → Counts → Counted
  | [], c => .done c
  | ino :: rest, c =>
    if D.walked ino then
      if F.noIter ino then .noMemory
      else match countDir F D ino D.calls (D.iterOf ino) 0 c with
        | .done c => countAll F D rest c
        | stop => stop
    else countAll F D rest c

/-- The link count that pass 3b expects. -/
def expected (D : Disk) (c : Counts) (ino : Nat) : Nat :=
  if isDir (D.slots ino).filemode then (2 + ((c ino).map Prod.snd).getD 0) % 2 ^ 32
  else ((c ino).map Prod.fst).getD 0

/-- An inode that pass 3b looks at. -/
def Disk.patched (D : Disk) (ino : Nat) : Bool :=
  D.allocated ino && D.readable ino && (D.slots ino).magic == inodeMagic

/-- Pass 3b. An inode whose write fails has its new count in the buffer. -/
def patchAll (F : Faults) (D : Disk) (c : Counts) :
    List Nat → (Nat → DiskInode) → Option Errno × (Nat → DiskInode)
  | [], slots => (none, slots)
  | ino :: rest, slots =>
    if D.patched ino ∧ (slots ino).nlinks ≠ expected D c ino then
      let slots := Function.update slots ino { slots ino with nlinks := expected D c ino }
      if F.badWrite ino then (some .eio, slots) else patchAll F D c rest slots
    else patchAll F D c rest slots

/-- The numbers of all inodes. -/
def Disk.inos (D : Disk) : List Nat := (List.range D.maxIno).map (· + 1)

/-- `replay_reconcile_nlinks`: what it returns, and the inode table after it. -/
def reconcile (F : Faults) (D : Disk) : Option Errno × (Nat → DiskInode) :=
  match countAll F D D.inos (fun _ => none) with
  | .noMemory => (some .enomem, D.slots)
  | .aborted => (none, D.slots)
  | .done c => patchAll F D c D.inos D.slots

--
-- Walks
--

/-- The entries that a walk of the directory yields, and whether it ends with `-ENOENT`. -/
def walk (blockCount : Nat) (s : Store) (noStack : Option Nat) : Nat → Iter → Nat → List Entry × Bool
  | 0, _, _ => ([], false)
  | fuel + 1, it, k =>
    if noStack = some k then ([], false)
    else match it.next blockCount s 0 with
      | (_, .error .enoent) => ([], true)
      | (_, .error _) => ([], false)
      | (it, .ok e) =>
        let rest := walk blockCount s noStack fuel it (k + 1)
        (e :: rest.1, rest.2)

/-- The walk of a directory. -/
def Disk.walkOf (D : Disk) (F : Faults) (dir : Nat) : List Entry × Bool :=
  walk D.blockCount D.store (F.noStack dir) D.calls (D.iterOf dir) 0

/-- The nodes below the root of a trie. -/
inductive Hangs (s : Store) (root : Nat) : Nat → Prop
  | top {n : Node} : s root = some n → n.firstChild ≠ 0 → Hangs s root n.firstChild
  | child {r : Nat} {n : Node} : Hangs s root r → s r = some n → n.firstChild ≠ 0 →
      Hangs s root n.firstChild
  | sibling {r : Nat} {n : Node} : Hangs s root r → s r = some n → n.nextSibling ≠ 0 →
      Hangs s root n.nextSibling

/-- All nodes of a trie can be read. -/
def Whole (s : Store) (root : Nat) : Prop :=
  root ≠ 0 → s root ≠ none ∧ ∀ r, Hangs s root r → s r ≠ none

/-- The walk of a directory does not see all of it: a node cannot be read, or the walk ends with an
error. -/
def CutShort (F : Faults) (D : Disk) (dir : Nat) : Prop :=
  ¬ Whole D.store (D.slots dir).dirTrieRoot ∨ (D.walkOf F dir).2 = false

/-- All entries of all directories, each with its directory. -/
def Disk.pairs (D : Disk) (F : Faults) : List (Nat × Entry) :=
  (D.inos.filter D.walked).flatMap fun dir => (D.walkOf F dir).1.map fun e => (dir, e)

/-- The count that an inode should have. -/
def Disk.links (D : Disk) (F : Faults) (ino : Nat) : Nat :=
  if isDir (D.slots ino).filemode then
    2 + (D.pairs F).countP fun p => p.1 == ino && p.2.type == 4
  else (D.pairs F).countP fun p => p.2.ino == ino

/-- Counts that are written are exact, to the width of the field, and a walk that is cut short
leaves every inode as it is. -/
def Exact (F : Faults) (D : Disk) : Prop :=
  ((reconcile F D).1 = none → (∀ dir ∈ D.inos, D.walked dir = true → ¬ CutShort F D dir) →
    (∀ ino ∈ D.inos, D.allocated ino = true → D.readable ino = true) →
    ∀ ino, (reconcile F D).2 ino =
      if ino ∈ D.inos ∧ D.patched ino = true then
        { D.slots ino with nlinks := D.links F ino % 2 ^ 32 }
      else D.slots ino) ∧
  ((∃ dir ∈ D.inos, D.walked dir = true ∧ CutShort F D dir) → (reconcile F D).2 = D.slots)

/-- The entry cannot be counted. -/
def Uncounted (F : Faults) (D : Disk) (dir : Nat) (e : Entry) : Prop :=
  e.ino ≠ 0 ∧ D.allocated e.ino = true ∧ F.noCount e.ino = true ∨
    e.type = 4 ∧ F.noCount dir = true

/-- The directory has no iterator, its walk ends with an error, or an entry cannot be counted. -/
def StopsAt (F : Faults) (D : Disk) (dir : Nat) : Prop :=
  F.noIter dir = true ∨ (D.walkOf F dir).2 = false ∨
    ∃ e ∈ (D.walkOf F dir).1, Uncounted F D dir e

/-- The counting does not come to its end. -/
def Stops (F : Faults) (D : Disk) : Prop :=
  ∃ dir ∈ D.inos, D.walked dir = true ∧ StopsAt F D dir

/-- The same filesystem with other link counts. -/
def Disk.withNlinks (D : Disk) (nlinks : Nat → Nat) : Disk :=
  { D with slots := fun ino => { D.slots ino with nlinks := nlinks ino } }

--
-- Counting
--

def Counts.linkOf (c : Counts) (ino : Nat) : Nat := ((c ino).map Prod.fst).getD 0

def Counts.subdirOf (c : Counts) (ino : Nat) : Nat := ((c ino).map Prod.snd).getD 0

/-- The counts after these entries. -/
structure Tally (F : Faults) (D : Disk) (c : Counts) (pairs : List (Nat × Entry)) : Prop where
  fresh  : ∀ i, F.noCount i = true → c i = none
  link   : ∀ i, i ≠ 0 → D.allocated i = true →
             c.linkOf i = (pairs.countP fun p => p.2.ino == i) % 2 ^ 32
  subdir : ∀ i, c.subdirOf i = (pairs.countP fun p => p.1 == i && p.2.type == 4) % 2 ^ 32

section Counting

variable {F : Faults} {D : Disk} {c : Counts} {pairs : List (Nat × Entry)}

theorem inc_none {add : Nat × Nat → Nat × Nat} (hFresh : ∀ i, F.noCount i = true → c i = none)
    {ino : Nat} (h : F.noCount ino = true) : c.inc F ino add = none := by
  unfold Counts.inc
  rw [hFresh ino h]
  exact if_pos h

theorem inc_some {add : Nat × Nat → Nat × Nat} {ino : Nat} (h : F.noCount ino = false) :
    c.inc F ino add = some fun i => if i = ino then some (add ((c ino).getD (0, 0))) else c i := by
  unfold Counts.inc
  cases c ino with
  | some e => rfl
  | none =>
    rw [h]
    rfl

/-- A count that is new or raised belongs to an inode for which there is memory. -/
theorem fresh_inc (hFresh : ∀ i, F.noCount i = true → c i = none) {ino : Nat}
    (h : F.noCount ino = false) (e : Nat × Nat) (i : Nat) (hi : F.noCount i = true) :
    (if i = ino then some e else c i) = none := by
  have hNe : i ≠ ino := by
    rintro rfl
    rw [h] at hi
    cases hi
  rw [if_neg hNe]
  exact hFresh i hi

/-- The counts after one more entry, up to the width of the fields. -/
theorem countP_snoc_mod {α : Type} (p : α → Bool) (l : List α) (a : α) :
    (l ++ [a]).countP p % 2 ^ 32 =
      if p a then (l.countP p % 2 ^ 32 + 1) % 2 ^ 32 else l.countP p % 2 ^ 32 := by
  rw [List.countP_append, List.countP_singleton]
  split
  · omega
  · rw [Nat.add_zero]

theorem linkOf_inc {c' : Counts} {ino : Nat} {e : Nat × Nat}
    (h : ∀ i, c' i = if i = ino then some e else c i) (i : Nat) :
    c'.linkOf i = (if i = ino then e.1 else c.linkOf i) ∧
      c'.subdirOf i = if i = ino then e.2 else c.subdirOf i := by
  unfold Counts.linkOf Counts.subdirOf
  rw [h i]
  split
  · exact ⟨rfl, rfl⟩
  · exact ⟨rfl, rfl⟩

theorem incLink_some {ino : Nat} (h : F.noCount ino = false) :
    ∃ c', c.incLink F ino = some c' ∧ (∀ i, c'.subdirOf i = c.subdirOf i) ∧
      (∀ i, c'.linkOf i = if i = ino then (c.linkOf i + 1) % 2 ^ 32 else c.linkOf i) ∧
      ((∀ i, F.noCount i = true → c i = none) → ∀ i, F.noCount i = true → c' i = none) := by
  refine ⟨_, inc_some h, fun i => ?_, fun i => ?_, fun hFresh => fresh_inc hFresh h _⟩
  · rw [(linkOf_inc (fun _ => rfl) i).2]
    split
    · rename_i hi
      subst hi
      unfold Counts.subdirOf
      cases c i with
      | some e => rfl
      | none => rfl
    · rfl
  · rw [(linkOf_inc (fun _ => rfl) i).1]
    split
    · rename_i hi
      subst hi
      unfold Counts.linkOf
      cases c i with
      | some e => rfl
      | none => rfl
    · rfl

theorem incSubdir_some {ino : Nat} (h : F.noCount ino = false) :
    ∃ c', c.incSubdir F ino = some c' ∧ (∀ i, c'.linkOf i = c.linkOf i) ∧
      (∀ i, c'.subdirOf i = if i = ino then (c.subdirOf i + 1) % 2 ^ 32 else c.subdirOf i) ∧
      ((∀ i, F.noCount i = true → c i = none) → ∀ i, F.noCount i = true → c' i = none) := by
  refine ⟨_, inc_some h, fun i => ?_, fun i => ?_, fun hFresh => fresh_inc hFresh h _⟩
  · rw [(linkOf_inc (fun _ => rfl) i).1]
    split
    · rename_i hi
      subst hi
      unfold Counts.linkOf
      cases c i with
      | some e => rfl
      | none => rfl
    · rfl
  · rw [(linkOf_inc (fun _ => rfl) i).2]
    split
    · rename_i hi
      subst hi
      unfold Counts.subdirOf
      cases c i with
      | some e => rfl
      | none => rfl
    · rfl

/-- The first half: the link of the inode that the entry names. -/
theorem Tally.linkStep (h : Tally F D c pairs) (dir : Nat) (e : Entry)
    (hOk : ¬ (e.ino ≠ 0 ∧ D.allocated e.ino = true ∧ F.noCount e.ino = true)) :
    ∃ c', (if e.ino ≠ 0 ∧ D.allocated e.ino then c.incLink F e.ino else some c) = some c' ∧
      (∀ i, F.noCount i = true → c' i = none) ∧ (∀ i, c'.subdirOf i = c.subdirOf i) ∧
      ∀ i, i ≠ 0 → D.allocated i = true →
        c'.linkOf i = ((pairs ++ [(dir, e)]).countP fun p => p.2.ino == i) % 2 ^ 32 := by
  by_cases hNamed : e.ino ≠ 0 ∧ D.allocated e.ino = true
  · have hMem : F.noCount e.ino = false := by
      by_contra hNo
      exact hOk ⟨hNamed.1, hNamed.2, by simpa using hNo⟩
    obtain ⟨c', hSome, hSub, hLink, hFresh⟩ := incLink_some (c := c) hMem
    refine ⟨c', by rw [if_pos hNamed, hSome], hFresh h.fresh, hSub, fun i hi hAlloc => ?_⟩
    rw [hLink i, countP_snoc_mod, h.link i hi hAlloc]
    by_cases hSame : i = e.ino
    · rw [if_pos hSame, if_pos (beq_iff_eq.mpr hSame.symm)]
    · rw [if_neg hSame, if_neg fun hEq => hSame (beq_iff_eq.mp hEq).symm]
  · refine ⟨c, if_neg hNamed, h.fresh, fun _ => rfl, fun i hi hAlloc => ?_⟩
    have hOther : ¬ (e.ino == i) = true := by
      intro hSame
      rw [beq_iff_eq] at hSame
      subst hSame
      exact hNamed ⟨hi, hAlloc⟩
    rw [countP_snoc_mod, if_neg hOther]
    exact h.link i hi hAlloc

/-- An entry is counted, or it cannot be and there is no memory. -/
theorem Tally.entry (h : Tally F D c pairs) (dir : Nat) (e : Entry) :
    (Uncounted F D dir e ∧ countEntry F D dir c e = none) ∨
      (¬ Uncounted F D dir e ∧
        ∃ c', countEntry F D dir c e = some c' ∧ Tally F D c' (pairs ++ [(dir, e)])) := by
  unfold countEntry
  by_cases hLink : e.ino ≠ 0 ∧ D.allocated e.ino = true ∧ F.noCount e.ino = true
  · refine Or.inl ⟨Or.inl hLink, ?_⟩
    have hNone : c.incLink F e.ino = none := inc_none h.fresh hLink.2.2
    rw [if_pos ⟨hLink.1, hLink.2.1⟩, hNone]
  obtain ⟨c₁, hStep, hFresh, hSub, hLinks⟩ := h.linkStep dir e hLink
  rw [hStep]
  dsimp only
  by_cases hType : e.type = 4
  · rw [if_pos hType]
    by_cases hMem : F.noCount dir = true
    · exact Or.inl ⟨Or.inr ⟨hType, hMem⟩, inc_none hFresh hMem⟩
    · have hHas : F.noCount dir = false := by simpa using hMem
      obtain ⟨c', hSome, hLink', hSub', hFresh'⟩ := incSubdir_some (c := c₁) hHas
      refine Or.inr ⟨fun hNo => hNo.elim hLink fun hDir => hMem hDir.2, c', hSome,
        hFresh' hFresh, fun i hi hAlloc => ?_, fun i => ?_⟩
      · rw [hLink' i]
        exact hLinks i hi hAlloc
      · rw [hSub' i, hSub i, countP_snoc_mod, h.subdir i]
        by_cases hSame : i = dir
        · have hThis : (dir == i && e.type == 4) = true := by simp [hSame, hType]
          rw [if_pos hSame, if_pos hThis]
        · have hThis : ¬ (dir == i && e.type == 4) = true := by
            simp [hType, Ne.symm hSame]
          rw [if_neg hSame, if_neg hThis]
  · rw [if_neg hType]
    refine Or.inr ⟨fun hNo => hNo.elim hLink fun hDir => hType hDir.1, c₁, rfl,
      hFresh, hLinks, fun i => ?_⟩
    have hOther : ¬ (dir == i && e.type == 4) = true := by
      simp [hType]
    rw [hSub i, countP_snoc_mod, if_neg hOther]
    exact h.subdir i

/-- The loop over a directory counts what the walk yields, or it stops. -/
theorem Tally.directory (h : Tally F D c pairs) (dir fuel : Nat) (it : Iter) (k : Nat) :
    let w := walk D.blockCount D.store (F.noStack dir) fuel it k
    ((w.2 = true ∧ ∀ e ∈ w.1, ¬ Uncounted F D dir e) →
      ∃ c', countDir F D dir fuel it k c = .done c' ∧
        Tally F D c' (pairs ++ w.1.map fun e => (dir, e))) ∧
    ((w.2 = false ∨ ∃ e ∈ w.1, Uncounted F D dir e) →
      ∀ c', countDir F D dir fuel it k c ≠ .done c') := by
  induction fuel generalizing it k c pairs with
  | zero => exact ⟨fun hNo => absurd hNo.1 nofun, fun _ => nofun⟩
  | succ fuel ih =>
    unfold walk countDir
    by_cases hStack : F.noStack dir = some k
    · rw [if_pos hStack, if_pos hStack]
      exact ⟨fun hNo => absurd hNo.1 nofun, fun _ => nofun⟩
    rw [if_neg hStack, if_neg hStack]
    rcases hNext : it.next D.blockCount D.store 0 with ⟨it', result⟩
    cases result with
    | error err =>
      cases err with
      | enoent =>
        refine ⟨fun _ => ⟨c, rfl, by rwa [List.map_nil, List.append_nil]⟩, ?_⟩
        rintro (hNo | ⟨e, he, -⟩)
        · cases hNo
        · cases he
      | estale => exact ⟨fun hNo => absurd hNo.1 nofun, fun _ => nofun⟩
      | eio => exact ⟨fun hNo => absurd hNo.1 nofun, fun _ => nofun⟩
    | ok e =>
      dsimp only
      rcases h.entry dir e with ⟨hBad, hNone⟩ | ⟨hGood, c', hSome, hTally⟩
      · rw [hNone]
        exact ⟨fun hAll => absurd hBad (hAll.2 e List.mem_cons_self), fun _ => nofun⟩
      · rw [hSome]
        dsimp only
        obtain ⟨hDone, hStop⟩ := ih hTally it' (k + 1)
        refine ⟨fun ⟨hEnd, hAll⟩ => ?_, fun hBad => hStop ?_⟩
        · obtain ⟨c'', hEq, hTally'⟩ :=
            hDone ⟨hEnd, fun x hx => hAll x (List.mem_cons_of_mem _ hx)⟩
          refine ⟨c'', hEq, ?_⟩
          rw [List.append_assoc] at hTally'
          exact hTally'
        · refine hBad.imp_right fun ⟨x, hx, hNo⟩ => ?_
          rcases List.mem_cons.mp hx with rfl | hx
          · exact absurd hNo hGood
          · exact ⟨x, hx, hNo⟩

theorem Tally.all (h : Tally F D c pairs) (inos : List Nat) :
    ((∀ dir ∈ inos, D.walked dir = true → ¬ StopsAt F D dir) →
      ∃ c', countAll F D inos c = .done c' ∧
        Tally F D c' (pairs ++ (inos.filter D.walked).flatMap fun dir =>
          (D.walkOf F dir).1.map fun e => (dir, e))) ∧
    ((∃ dir ∈ inos, D.walked dir = true ∧ StopsAt F D dir) →
      ∀ c', countAll F D inos c ≠ .done c') := by
  induction inos generalizing c pairs with
  | nil =>
    refine ⟨fun _ => ⟨c, rfl, by rwa [List.filter_nil, List.flatMap_nil, List.append_nil]⟩, ?_⟩
    rintro ⟨dir, hMem, -⟩
    cases hMem
  | cons ino rest ih =>
    unfold countAll
    by_cases hWalked : D.walked ino = true
    · rw [if_pos hWalked, List.filter_cons_of_pos hWalked, List.flatMap_cons, ← List.append_assoc]
      obtain ⟨hDone, hStop⟩ := h.directory ino D.calls (D.iterOf ino) 0
      by_cases hHere : StopsAt F D ino
      · -- it stops in this directory
        refine ⟨fun hAll => absurd hHere (hAll ino List.mem_cons_self hWalked), fun _ c' => ?_⟩
        by_cases hIter : F.noIter ino = true
        · rw [if_pos hIter]
          nofun
        · have hNo := hStop (hHere.resolve_left hIter)
          rw [if_neg hIter]
          cases hEq : countDir F D ino D.calls (D.iterOf ino) 0 c with
          | noMemory => nofun
          | aborted => nofun
          | done c'' => exact absurd hEq (hNo c'')
      · have hIter : ¬ F.noIter ino = true := fun hNo => hHere (Or.inl hNo)
        have hEnd : (D.walkOf F ino).2 = true := by
          by_contra hNo
          exact hHere (Or.inr (Or.inl (by simpa using hNo)))
        have hAll : ∀ e ∈ (D.walkOf F ino).1, ¬ Uncounted F D ino e :=
          fun e he hNo => hHere (Or.inr (Or.inr ⟨e, he, hNo⟩))
        obtain ⟨c', hEq, hTally⟩ := hDone ⟨hEnd, hAll⟩
        rw [if_neg hIter, hEq]
        dsimp only
        obtain ⟨hDone', hStop'⟩ := ih hTally
        refine ⟨fun hRest => hDone' fun dir hMem => hRest dir (List.mem_cons_of_mem _ hMem), ?_⟩
        rintro ⟨dir, hMem, hDir⟩
        rcases List.mem_cons.mp hMem with rfl | hMem
        · exact absurd hDir.2 hHere
        · exact hStop' ⟨dir, hMem, hDir⟩
    · rw [if_neg hWalked, List.filter_cons_of_neg hWalked]
      obtain ⟨hDone', hStop'⟩ := ih h
      refine ⟨fun hRest => hDone' fun dir hMem => hRest dir (List.mem_cons_of_mem _ hMem), ?_⟩
      rintro ⟨dir, hMem, hDir⟩
      rcases List.mem_cons.mp hMem with rfl | hMem
      · exact absurd hDir.1 hWalked
      · exact hStop' ⟨dir, hMem, hDir⟩

/-- A walk that ends with `-ENOENT` is not given up. -/
theorem countDir_ne_aborted {dir fuel k : Nat} {it : Iter}
    (h : (walk D.blockCount D.store (F.noStack dir) fuel it k).2 = true) :
    countDir F D dir fuel it k c ≠ .aborted := by
  induction fuel generalizing it k c with
  | zero => cases h
  | succ fuel ih =>
    unfold walk at h
    unfold countDir
    by_cases hStack : F.noStack dir = some k
    · rw [if_pos hStack] at h
      cases h
    rw [if_neg hStack] at h ⊢
    rcases hNext : it.next D.blockCount D.store 0 with ⟨it', result⟩
    rw [hNext] at h
    cases result with
    | error err =>
      cases err with
      | enoent => nofun
      | estale => cases h
      | eio => cases h
    | ok e =>
      dsimp only at h ⊢
      cases countEntry F D dir c e with
      | none => nofun
      | some c' => exact ih h

theorem countAll_ne_aborted {inos : List Nat}
    (h : ∀ dir ∈ inos, D.walked dir = true → (D.walkOf F dir).2 = true) :
    countAll F D inos c ≠ .aborted := by
  induction inos generalizing c with
  | nil => nofun
  | cons ino rest ih =>
    have hRest : ∀ {c}, countAll F D rest c ≠ .aborted :=
      ih fun dir hMem => h dir (List.mem_cons_of_mem _ hMem)
    unfold countAll
    by_cases hWalked : D.walked ino = true
    · rw [if_pos hWalked]
      split
      · nofun
      · have hNot := countDir_ne_aborted (c := c) (h ino List.mem_cons_self hWalked)
        cases hEq : countDir F D ino D.calls (D.iterOf ino) 0 c with
        | noMemory => nofun
        | aborted => exact absurd hEq hNot
        | done c' => exact hRest
    · rw [if_neg hWalked]
      exact hRest

theorem tally_start : Tally F D (fun _ => none) [] :=
  ⟨fun _ _ => rfl, fun _ _ _ => rfl, fun _ => rfl⟩

end Counting

--
-- Patching
--

section Patching

variable {F : Faults} {D : Disk} {c : Counts}

/-- A pass without a write error brings every inode to the expected count. -/
theorem patchAll_ok {inos : List Nat} (hNodup : inos.Nodup) {slots : Nat → DiskInode}
    (h : (patchAll F D c inos slots).1 = none) (i : Nat) :
    (patchAll F D c inos slots).2 i =
      if i ∈ inos ∧ D.patched i = true then { slots i with nlinks := expected D c i }
      else slots i := by
  induction inos generalizing slots with
  | nil => rw [if_neg fun hNo => absurd hNo.1 List.not_mem_nil]; rfl
  | cons ino rest ih =>
    obtain ⟨hNot, hRest⟩ := List.nodup_cons.mp hNodup
    unfold patchAll at h ⊢
    by_cases hPatch : D.patched ino = true ∧ (slots ino).nlinks ≠ expected D c ino
    · rw [if_pos hPatch] at h ⊢
      dsimp only at h ⊢
      by_cases hWrite : F.badWrite ino = true
      · rw [if_pos hWrite] at h
        cases h
      · rw [if_neg hWrite] at h ⊢
        rw [ih hRest h]
        by_cases hi : i = ino
        · subst hi
          rw [if_neg fun hNo => hNot hNo.1, if_pos ⟨List.mem_cons_self, hPatch.1⟩,
            Function.update_self]
        · rw [Function.update_of_ne hi]
          simp only [List.mem_cons, hi, false_or]
    · rw [if_neg hPatch] at h ⊢
      rw [ih hRest h]
      by_cases hi : i = ino
      · subst hi
        rw [if_neg fun hNo => hNot hNo.1]
        by_cases hLive : D.patched i = true
        · have hSame : (slots i).nlinks = expected D c i := by
            by_contra hNo
            exact hPatch ⟨hLive, hNo⟩
          rw [if_pos ⟨List.mem_cons_self, hLive⟩, ← hSame]
        · rw [if_neg fun hNo => hLive hNo.2]
      · simp only [List.mem_cons, hi, false_or]

/-- The inodes that are not looked at stay as they are. -/
theorem patchAll_frame {inos : List Nat} {i : Nat} (hi : i ∉ inos) (slots : Nat → DiskInode) :
    (patchAll F D c inos slots).2 i = slots i := by
  induction inos generalizing slots with
  | nil => rfl
  | cons ino rest ih =>
    rw [List.mem_cons, not_or] at hi
    unfold patchAll
    split
    · dsimp only
      split
      · exact Function.update_of_ne hi.1 _ _
      · rw [ih hi.2]
        exact Function.update_of_ne hi.1 _ _
    · exact ih hi.2 slots

/-- An inode is brought to the expected count if the pass has not stopped before it. -/
theorem patchAll_changes {inos : List Nat} (hNodup : inos.Nodup) {slots : Nat → DiskInode}
    (hLive : ∃ i ∈ inos, D.patched i = true)
    (hWrong : ∀ i ∈ inos, D.patched i = true → (slots i).nlinks ≠ expected D c i) :
    (patchAll F D c inos slots).2 ≠ slots := by
  induction inos with
  | nil =>
    obtain ⟨i, hi, -⟩ := hLive
    cases hi
  | cons ino rest ih =>
    obtain ⟨hNot, hRest⟩ := List.nodup_cons.mp hNodup
    unfold patchAll
    by_cases hHere : D.patched ino = true
    · have hThis := hWrong ino List.mem_cons_self hHere
      intro hSame
      have hAt := congrFun hSame ino
      rw [if_pos ⟨hHere, hThis⟩] at hAt
      have hNew : { slots ino with nlinks := expected D c ino } = slots ino := by
        dsimp only at hAt
        split at hAt
        · exact (Function.update_self ino _ slots).symm.trans hAt
        · rwa [patchAll_frame hNot, Function.update_self] at hAt
      exact hThis (congrArg DiskInode.nlinks hNew).symm
    · rw [if_neg fun hNo => hHere hNo.1]
      refine ih hRest ?_ fun i hi => hWrong i (List.mem_cons_of_mem _ hi)
      obtain ⟨i, hi, hPatched⟩ := hLive
      rcases List.mem_cons.mp hi with rfl | hi
      · exact absurd hPatched hHere
      · exact ⟨i, hi, hPatched⟩

end Patching

--
-- The reconciliation
--

section Reconcile

variable {F : Faults} {D : Disk}

theorem inos_nodup (D : Disk) : D.inos.Nodup :=
  List.Nodup.map (fun _ _ h => Nat.succ.inj h) List.nodup_range

theorem ne_zero_of_mem_inos {ino : Nat} (h : ino ∈ D.inos) : ino ≠ 0 := by
  obtain ⟨k, -, rfl⟩ := List.mem_map.mp h
  exact Nat.succ_ne_zero k

/-- The expected count is that of the entries. -/
theorem Tally.expected {c : Counts} (h : Tally F D c (D.pairs F)) {ino : Nat}
    (hMem : ino ∈ D.inos) (hLive : D.patched ino = true) :
    expected D c ino = D.links F ino % 2 ^ 32 := by
  unfold Nlinks.expected Disk.links
  split
  · have hSub := h.subdir ino
    unfold Counts.subdirOf at hSub
    rw [hSub]
    omega
  · have hAlloc : D.allocated ino = true := by
      unfold Disk.patched at hLive
      simp only [Bool.and_eq_true] at hLive
      exact hLive.1.1
    exact h.link ino (ne_zero_of_mem_inos hMem) hAlloc

/-- If the counting stops, nothing is written. -/
theorem reconcile_of_stops (h : Stops F D) : (reconcile F D).2 = D.slots := by
  have hNever := (tally_start (F := F) (D := D)).all D.inos |>.2 h
  unfold reconcile
  cases hCount : countAll F D D.inos (fun _ => none) with
  | noMemory => rfl
  | aborted => rfl
  | done c => exact absurd hCount (hNever c)

/-- If it stops although all walks come to their end, there was no memory. -/
theorem reconcile_no_memory (h : Stops F D)
    (hEnds : ∀ dir ∈ D.inos, D.walked dir = true → (D.walkOf F dir).2 = true) :
    (reconcile F D).1 ≠ none := by
  have hNever := (tally_start (F := F) (D := D)).all D.inos |>.2 h
  have hNot := countAll_ne_aborted (c := fun _ => none) hEnds
  unfold reconcile
  cases hCount : countAll F D D.inos (fun _ => none) with
  | noMemory => nofun
  | aborted => exact absurd hCount hNot
  | done c => exact absurd hCount (hNever c)

/-- If it does not, the counts are those of the entries that the walks yield. -/
theorem reconcile_of_counted (h : ¬ Stops F D) :
    ∃ c, Tally F D c (D.pairs F) ∧ reconcile F D = patchAll F D c D.inos D.slots := by
  have hAll : ∀ dir ∈ D.inos, D.walked dir = true → ¬ StopsAt F D dir :=
    fun dir hMem hWalked hAt => h ⟨dir, hMem, hWalked, hAt⟩
  obtain ⟨c, hCount, hTally⟩ := (tally_start (F := F) (D := D)).all D.inos |>.1 hAll
  refine ⟨c, hTally, ?_⟩
  unfold reconcile
  rw [hCount]

/-- Whole tries, or a count that stops, are enough. -/
theorem exact_of_whole
    (h : (∀ dir ∈ D.inos, D.walked dir = true → Whole D.store (D.slots dir).dirTrieRoot) ∨
      Stops F D) : Exact F D := by
  by_cases hStops : Stops F D
  · refine ⟨fun hRet hNormal _ ino => ?_, fun _ => reconcile_of_stops hStops⟩
    refine absurd hRet (reconcile_no_memory hStops fun dir hMem hWalked => ?_)
    by_contra hNo
    exact hNormal dir hMem hWalked (Or.inr (by simpa using hNo))
  · obtain ⟨c, hTally, hEq⟩ := reconcile_of_counted hStops
    have hWhole := h.resolve_right hStops
    refine ⟨fun hRet _ _ ino => ?_, ?_⟩
    · rw [hEq] at hRet ⊢
      rw [patchAll_ok (inos_nodup D) hRet]
      split
      · rename_i hLive
        rw [hTally.expected hLive.1 hLive.2]
      · rfl
    · rintro ⟨dir, hMem, hWalked, hCut⟩
      rcases hCut with hNot | hEnd
      · exact absurd (hWhole dir hMem hWalked) hNot
      · exact absurd ⟨dir, hMem, hWalked, Or.inr (Or.inl hEnd)⟩ hStops

/-- Counts that are all wrong are not left alone unless the counting stops. -/
theorem changed_of_counted (hCounts : ∀ ino, (D.slots ino).nlinks ≠ D.links F ino % 2 ^ 32)
    (hStops : ¬ Stops F D) (hLive : ∃ ino ∈ D.inos, D.patched ino = true) :
    (reconcile F D).2 ≠ D.slots := by
  obtain ⟨c, hTally, hEq⟩ := reconcile_of_counted hStops
  rw [hEq]
  refine patchAll_changes (inos_nodup D) hLive fun ino hMem hPatched => ?_
  rw [hTally.expected hMem hPatched]
  exact hCounts ino

theorem patched_of_walked {ino : Nat} (h : D.walked ino = true) : D.patched ino = true := by
  unfold Disk.walked at h
  simp only [Bool.and_eq_true] at h
  unfold Disk.patched
  simp only [Bool.and_eq_true]
  exact h.1

end Reconcile

--
-- Sound tries
--

/-- A walk of a sound trie that ends with `-ENOENT` has yielded what was left. -/
theorem walk_positioned {blockCount : Nat} {t : Tree} {it : Iter} {left : List Entry}
    (h : Positioned blockCount t.store t.forest it left) (hGen : it.gen = 0) (fuel k : Nat)
    (hFuel : left.length < fuel) :
    walk blockCount t.store none fuel it k = (left, true) := by
  induction fuel generalizing it left k with
  | zero => exact absurd hFuel (Nat.not_lt_zero _)
  | succ fuel ih =>
    have hMoves := h.next hGen
    unfold walk
    rw [if_neg nofun]
    rcases hNext : it.next blockCount t.store 0 with ⟨it', result⟩
    rw [hNext] at hMoves
    rcases hMoves.yields with ⟨rfl, rfl, -⟩ | ⟨e, rest, rfl, rfl, hRest⟩
    · rfl
    · dsimp only
      rw [List.length_cons] at hFuel
      rw [ih hRest (hMoves.gen.trans hGen) (k + 1) (by omega)]

/-- The links of a node of a chain start chains. -/
theorem chain_links {s : Store} {r : Nat} {f : Trie.Forest} {n : Node} (hChain : Chain s r f)
    (hNe : r ≠ 0) (hn : s r = some n) :
    (∃ f, Chain s n.firstChild f) ∧ ∃ f, Chain s n.nextSibling f := by
  cases f with
  | nil => exact absurd hChain hNe
  | cons r' kids rest =>
    obtain ⟨-, -, n', hn', hKids, hRest⟩ := hChain
    rw [hn] at hn'
    cases hn'
    exact ⟨⟨kids, hKids⟩, rest, hRest⟩

theorem chain_readable {s : Store} {r : Nat} {f : Trie.Forest} (hChain : Chain s r f) (hNe : r ≠ 0) :
    s r ≠ none := by
  cases f with
  | nil => exact absurd hChain hNe
  | cons r' kids rest =>
    obtain ⟨-, -, n, hn, -⟩ := hChain
    rw [hn]
    exact Option.some_ne_none n

/-- What hangs from the root of a sound trie starts a chain. -/
theorem hangs_chain {t : Tree} (hRoot : t.root ≠ 0) {r : Nat} (h : Hangs t.store t.root r) :
    r ≠ 0 ∧ ∃ f, Chain t.store r f := by
  induction h with
  | top hn hNe => exact ⟨hNe, (chain_links t.chain hRoot hn).1⟩
  | child _ hn hNe ih =>
    obtain ⟨hNot, f, hf⟩ := ih
    exact ⟨hNe, (chain_links hf hNot hn).1⟩
  | sibling _ hn hNe ih =>
    obtain ⟨hNot, f, hf⟩ := ih
    exact ⟨hNe, (chain_links hf hNot hn).2⟩

theorem tree_whole (t : Tree) : Whole t.store t.root := by
  intro hRoot
  refine ⟨chain_readable t.chain hRoot, fun r hr => ?_⟩
  obtain ⟨hNe, f, hf⟩ := hangs_chain hRoot hr
  exact chain_readable hf hNe

/-- Each entry costs a visit. -/
theorem length_order_le (s : Store) (f : Trie.Forest) :
    (Trie.order s f).length ≤ Trie.walkVisits s f := by
  unfold Trie.walkVisits
  induction f with
  | nil => exact Nat.zero_le _
  | cons r kids rest ihKids ihRest =>
    have hOne : (Trie.entryAt s r).length ≤ 1 := by
      unfold Trie.entryAt
      split
      · split
        · exact Nat.le_refl 1
        · exact Nat.zero_le 1
      · exact Nat.zero_le 1
    rw [Trie.order, Trie.load_cons, List.length_append, List.length_append]
    omega

/-- The walk of a sound trie yields its entries. -/
theorem walkOf_tree {F : Faults} {D : Disk} {dir : Nat} (t : Tree) (hStore : t.store = D.store)
    (hRoot : t.root = (D.slots dir).dirTrieRoot) (hCap : t.Walkable D.blockCount)
    (hStack : F.noStack dir = none) : D.walkOf F dir = (t.entries, true) := by
  have hPos := t.positioned_init hCap Iter.alloc 0
  have hLength := length_order_le t.store t.forest
  unfold Tree.Walkable at hCap
  unfold Disk.walkOf Disk.iterOf
  rw [hStack, ← hStore, ← hRoot]
  refine walk_positioned hPos rfl D.calls 0 ?_
  unfold Tree.entries Disk.calls
  omega

--
-- Main result
--

/-- For every filesystem after pass 2 and all failures: whatever link counts are stored, the counts
that are written are exact and a walk that is cut short leaves all of them alone, exactly if all
nodes of all directories that are walked can be read, or the counting stops. On a sound trie, the
walk yields the entries of the trie. -/
theorem reconcile_exact_iff (F : Faults) (D : Disk) :
    ((∀ nlinks : Nat → Nat, (∀ ino, nlinks ino < 2 ^ 32) → Exact F (D.withNlinks nlinks)) ↔
      (∀ dir ∈ D.inos, D.walked dir = true → Whole D.store (D.slots dir).dirTrieRoot) ∨
        Stops F D) ∧
    ∀ dir (t : Tree), t.store = D.store → t.root = (D.slots dir).dirTrieRoot →
      t.Walkable D.blockCount → F.noStack dir = none →
      Whole D.store (D.slots dir).dirTrieRoot ∧ D.walkOf F dir = (t.entries, true) := by
  refine ⟨⟨fun hExact => ?_, fun hWhole nlinks _ => exact_of_whole hWhole⟩, ?_⟩
  · by_contra hNot
    rw [not_or] at hNot
    obtain ⟨hSome, hStops⟩ := hNot
    push Not at hSome
    obtain ⟨dir, hMem, hWalked, hCut⟩ := hSome
    -- counts that are all wrong
    have hLt : ∀ ino, (D.links F ino + 1) % 2 ^ 32 < 2 ^ 32 := fun ino => Nat.mod_lt _ (by decide)
    let wrong : Disk := D.withNlinks fun ino => (D.links F ino + 1) % 2 ^ 32
    have hWrong : ∀ ino, (wrong.slots ino).nlinks ≠ wrong.links F ino % 2 ^ 32 := by
      intro ino
      show (D.links F ino + 1) % 2 ^ 32 ≠ D.links F ino % 2 ^ 32
      omega
    have hKeep : (reconcile F wrong).2 = wrong.slots :=
      (hExact _ hLt).2 ⟨dir, hMem, hWalked, Or.inl hCut⟩
    exact changed_of_counted hWrong hStops ⟨dir, hMem, patched_of_walked hWalked⟩ hKeep
  · intro dir t hStore hRoot hCap hStack
    refine ⟨?_, walkOf_tree t hStore hRoot hCap hStack⟩
    rw [← hStore, ← hRoot]
    exact tree_whole t

/-- Nothing fails. -/
def noFaults : Faults := ⟨fun _ => false, fun _ => false, fun _ => none, fun _ => false⟩

/-- Directory 1 has the entry "a" for inode 5, but the block of its node cannot be read. -/
def lostEntry : Disk where
  maxIno     := 5
  allocated  := fun ino => ino == 1 || ino == 5
  readable   := fun _ => true
  slots      := fun ino =>
    if ino = 1 then
      { DiskInode.zero with magic := inodeMagic, filemode := 0o40755, nlinks := 2, dirTrieRoot := 640 }
    else { DiskInode.zero with magic := inodeMagic, filemode := 0o100644, nlinks := 1 }
  store      := fun r => if r = 640 then some ⟨704, 0, 0, [], 0, 0, true, false, 0, 1⟩ else none
  blockCount := 16

/-- The walk of the directory ends with `-ENOENT`, and the file loses its link. -/
theorem reconcile_writes_partial :
    ¬ Exact noFaults lostEntry ∧ (lostEntry.slots 5).nlinks = 1 ∧
      (reconcile noFaults lostEntry).1 = none ∧
      ((reconcile noFaults lostEntry).2 5).nlinks = 0 := by
  have hWritten : ((reconcile noFaults lostEntry).2 5).nlinks = 0 := by decide
  refine ⟨fun hExact => ?_, rfl, by decide, hWritten⟩
  have hCut : CutShort noFaults lostEntry 1 := by
    refine Or.inl fun hWhole => ?_
    exact (hWhole (by decide)).2 704 (Hangs.top (n := ⟨704, 0, 0, [], 0, 0, true, false, 0, 1⟩) rfl
      (by decide)) rfl
  have hKept := hExact.2 ⟨1, by decide, by decide, hCut⟩
  rw [hKept] at hWritten
  exact absurd hWritten (by decide)

end Briefs.Nlinks
