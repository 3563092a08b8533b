import Mathlib.Logic.Function.Basic
import Mathlib.Tactic.Common

/-!
# BrieFS — snapshots and directory entries in the ring

A create makes an inode, enters its name in the trie of the parent, journals the inode with
`briefs_journal_inode_full` and then the name with `briefs_journal_dir_add` (`inode.c`). The comments
there and in `briefs_add_dir_entry` ask for this order: replay reads the type of the child from its
inode and finds the trie through the root in the parent's.

But `briefs_journal_inode_full` only leaves the snapshot in the slot of the inode and puts the inode
on the queue of the journal, while the `JRN_DIR_UPDATE` record is appended at once. The snapshots
come into the ring when a sync drains the queue, or when the queue entry of a single inode is
flushed (`briefs_inode_sync`, eviction): as a rule after the record that needs them.

## Results

* `snapshots_precede` — if each record of an entry is appended when the snapshots of the child and
  of a parent with a new root have left the queue, and the journal writes succeed, each of them is
  preceded by both snapshots.
* `entry_precedes_snapshot` — a single create puts the entry first.
-/

namespace Briefs.Order

--
-- The state
--

/-- What matters of a disk inode: `inode_number`, `generation`, `dir_trie_root`. -/
structure Snap where
  ino  : Nat
  gen  : Nat
  root : Nat
  deriving DecidableEq, Repr

/-- The records in the ring. A `JRN_DIR_UPDATE` holds the two numbers; the generation of the child
and the root of the parent, if that was made since the start, are noted beside them. -/
inductive Rec where
  | inodeFull (snap : Snap)
  | dirAdd (parent child gen : Nat) (root : Option Nat)
  deriving DecidableEq, Repr

/-- How far the create of an inode has come: in `briefs_new_inode` and `briefs_trie_create_root`,
after `briefs_add_dir_entry`, `briefs_journal_inode_full`, `briefs_journal_dir_add`, and done. -/
inductive Stage where
  | new | entered | queued | added | done
  deriving DecidableEq, Repr

/-- An inode in memory; `newRoot` tells that its root was made since the start. -/
structure Node where
  gen     : Nat
  root    : Nat
  newRoot : Bool
  parent  : Nat
  stage   : Stage
  deriving DecidableEq, Repr

/-- The inodes, `pending_snapshots` with the slots, the snapshots that a flush of one inode has taken
off the queue and not yet written, and the ring with all that was ever appended. -/
structure Log where
  nodes   : Nat → Option Node
  pending : List Snap
  flight  : List Snap
  ring    : List Rec

/-- The steps of all threads. -/
inductive Event where
  | newInode (parent child gen : Nat)
  | createRoot (child root : Nat)
  | addEntry (child root : Nat) (pinFails : Bool)
  | queueChild (child : Nat)
  | appendAdd (child : Nat)
  | updateParent (child : Nat)
  | giveUp (child : Nat)
  | persist (ino : Nat)
  | drain (count : Nat) (ok : Snap → Bool)
  | dequeue (snap : Snap)
  | write (ok : Bool)

--
-- The code
--

/-- The disk inode as it is. -/
def Node.snap (i : Node) (ino : Nat) : Snap := ⟨ino, i.gen, i.root⟩

/-- The same slot. -/
def Snap.sameInode (a b : Snap) : Bool := a.ino == b.ino && a.gen == b.gen

/-- `briefs_journal_inode_full`: the latest snapshot wins. -/
def Log.inodeFull (l : Log) (snap : Snap) : Log :=
  { l with
    pending :=
      if l.pending.any snap.sameInode then
        l.pending.map fun old => if snap.sameInode old then snap else old
      else l.pending ++ [snap] }

def Log.setNode (l : Log) (ino : Nat) (i : Node) : Log :=
  { l with nodes := Function.update l.nodes ino (some i) }

/-- `briefs_add_dir_entry` as far as it makes and pins a root; an error of
`briefs_journal_inode_full` is ignored. -/
def Log.pinRoot (l : Log) (parent : Nat) (p : Node) (root : Nat) (pinFails : Bool) : Log :=
  if p.root = 0 then
    let p := { p with root := root, newRoot := true }
    let l := l.setNode parent p
    if pinFails then l else l.inodeFull (p.snap parent)
  else l

/-- One round of `__briefs_journal_flush_pending_locked`, all of it under `write_lock`: up to `count`
snapshots, 4096 at most, leave the queue; a record whose write fails is lost. -/
def Log.drain (l : Log) (count : Nat) (ok : Snap → Bool) : Log :=
  let n := min count 4096
  { l with
    pending := l.pending.drop n
    ring := l.ring ++ ((l.pending.take n).filter ok).map .inodeFull }

/-- `briefs_flush_inode_pending_journal_snapshot`, first half. -/
def Log.dequeue (l : Log) (snap : Snap) : Option Log :=
  if snap ∈ l.pending then
    some { l with pending := l.pending.erase snap, flight := l.flight ++ [snap] }
  else none

/-- Its second half. -/
def Log.write (l : Log) (ok : Bool) : Option Log :=
  match l.flight with
  | snap :: rest =>
    some { l with flight := rest, ring := if ok then l.ring ++ [.inodeFull snap] else l.ring }
  | [] => none

/-- `briefs_journal_dir_add`. -/
def Log.appendAdd (l : Log) (child : Nat) (c p : Node) : Log :=
  { l with
    ring := l.ring ++
      [.dirAdd c.parent child c.gen (if p.newRoot then some p.root else none)] }

/-- One step; a create goes from stage to stage. -/
def Log.step (l : Log) : Event → Option Log
  | .newInode parent child gen =>
    match l.nodes parent, l.nodes child with
    | some p, none =>
      if p.stage = .done then some (l.setNode child ⟨gen, 0, false, parent, .new⟩) else none
    | _, _ => none
  | .createRoot child root =>
    match l.nodes child with
    | some c =>
      if c.stage = .new ∧ c.root = 0 then
        some (l.setNode child { c with root := root, newRoot := true })
      else none
    | none => none
  | .addEntry child root pinFails =>
    match l.nodes child with
    | some c =>
      match l.nodes c.parent with
      | some p =>
        if c.stage = .new then
          some ((l.pinRoot c.parent p root pinFails).setNode child { c with stage := .entered })
        else none
      | none => none
    | none => none
  | .queueChild child =>
    match l.nodes child with
    | some c =>
      if c.stage = .entered then
        some ((l.setNode child { c with stage := .queued }).inodeFull (c.snap child))
      else none
    | none => none
  | .appendAdd child =>
    match l.nodes child with
    | some c =>
      match l.nodes c.parent with
      | some p =>
        if c.stage = .queued then
          some ((l.appendAdd child c p).setNode child { c with stage := .added })
        else none
      | none => none
    | none => none
  | .updateParent child =>
    match l.nodes child with
    | some c =>
      match l.nodes c.parent with
      | some p =>
        if c.stage = .added then
          some ((l.setNode child { c with stage := .done }).inodeFull (p.snap c.parent))
        else none
      | none => none
    | none => none
  | .giveUp child =>
    match l.nodes child with
    | some c =>
      if c.stage = .done then none
      else some { l with nodes := Function.update l.nodes child none }
    | none => none
  | .persist ino =>
    match l.nodes ino with
    | some i => some (l.inodeFull (i.snap ino))
    | none => none
  | .drain count ok => some (l.drain count ok)
  | .dequeue snap => l.dequeue snap
  | .write ok => l.write ok

/-- The state at the start: directories that exist, and nothing in the journal. -/
def Log.AtStart (l : Log) : Prop :=
  l.pending = [] ∧ l.flight = [] ∧ l.ring = [] ∧
    ∀ ino i, l.nodes ino = some i → i.stage = .done ∧ i.newRoot = false

/-- The states that are reached by steps under `P`. -/
inductive Reach (P : Log → Event → Prop) (start : Log) : Log → Prop
  | start : Reach P start start
  | step {l l' : Log} {e : Event} :
      Reach P start l → P l e → l.step e = some l' → Reach P start l'

--
-- The order
--

/-- What the record of an entry needs before it. -/
def Rec.Preceded (before : List Rec) : Rec → Prop
  | .inodeFull _ => True
  | .dirAdd parent child gen root =>
    (∃ snap, Rec.inodeFull snap ∈ before ∧ snap.ino = child ∧ snap.gen = gen) ∧
      ∀ r, root = some r → ∃ snap, Rec.inodeFull snap ∈ before ∧ snap.ino = parent ∧ snap.root = r

/-- Every record is preceded by what it needs. -/
def Ordered (ring : List Rec) : Prop :=
  ∀ i (h : i < ring.length), (ring.get ⟨i, h⟩).Preceded (ring.take i)

/-- The snapshots of the child, and of a parent whose root is new, have left the queue before the
entry is appended; the journal writes and the pin of a new root succeed. -/
def Event.Drained (l : Log) : Event → Prop
  | .appendAdd child =>
    ∀ c p, l.nodes child = some c → l.nodes c.parent = some p →
      ∀ snap, snap ∈ l.pending ∨ snap ∈ l.flight →
        snap.ino ≠ child ∧ (p.newRoot = true → snap.ino ≠ c.parent)
  | .addEntry _ _ pinFails => pinFails = false
  | .drain _ ok => ∀ snap, ok snap = true
  | .write ok => ok = true
  | _ => True

theorem Rec.Preceded.mono {before after : List Rec} {x : Rec} (h : x.Preceded before)
    (hSub : ∀ y ∈ before, y ∈ after) : x.Preceded after := by
  cases x with
  | inodeFull snap => trivial
  | dirAdd parent child gen root =>
    obtain ⟨⟨snap, hMem, hSnap⟩, hRoot⟩ := h
    refine ⟨⟨snap, hSub _ hMem, hSnap⟩, fun r hr => ?_⟩
    obtain ⟨snap', hMem', hSnap'⟩ := hRoot r hr
    exact ⟨snap', hSub _ hMem', hSnap'⟩

/-- Records that find what they need in the ring may follow it. -/
theorem Ordered.append {ring more : List Rec} (h : Ordered ring)
    (hMore : ∀ x ∈ more, x.Preceded ring) : Ordered (ring ++ more) := by
  intro i hi
  by_cases hOld : i < ring.length
  · have hSame := h i hOld
    simp only [List.get_eq_getElem] at hSame ⊢
    rw [List.getElem_append_left hOld, List.take_append_of_le_length (by omega)]
    exact hSame
  · simp only [List.get_eq_getElem]
    rw [List.getElem_append_right (by omega)]
    refine (hMore _ (List.getElem_mem _)).mono fun y hy => ?_
    rw [List.take_append, List.take_of_length_le (by omega)]
    exact List.mem_append_left _ hy

--
-- Where the snapshots are
--

/-- Some snapshot with `Q` is on the queue, on its way or in the ring. -/
def Log.Seen (l : Log) (Q : Snap → Prop) : Prop :=
  ∃ snap, Q snap ∧ (snap ∈ l.pending ∨ snap ∈ l.flight ∨ Rec.inodeFull snap ∈ l.ring)

section Seen

variable {l l' : Log} {Q : Snap → Prop}

theorem mem_inodeFull (l : Log) (snap : Snap) : snap ∈ (l.inodeFull snap).pending := by
  unfold Log.inodeFull
  dsimp only
  split
  · rename_i hAny
    obtain ⟨old, hOld, hSame⟩ := List.any_eq_true.mp hAny
    exact List.mem_map.mpr ⟨old, hOld, if_pos hSame⟩
  · exact List.mem_append_right _ (List.mem_singleton_self _)

/-- A snapshot that is queued takes the place of an older one of the inode. -/
theorem Log.Seen.inodeFull (h : l.Seen Q) {snap : Snap}
    (hSame : ∀ old, snap.sameInode old = true → Q old → Q snap) : (l.inodeFull snap).Seen Q := by
  obtain ⟨old, hOld, hPending | hElse⟩ := h
  · by_cases hInode : snap.sameInode old = true
    · exact ⟨snap, hSame old hInode hOld, Or.inl (mem_inodeFull l snap)⟩
    · refine ⟨old, hOld, Or.inl ?_⟩
      unfold Log.inodeFull
      dsimp only
      split
      · exact List.mem_map.mpr ⟨old, hPending, if_neg hInode⟩
      · exact List.mem_append_left _ hPending
  · exact ⟨old, hOld, Or.inr hElse⟩

theorem Log.Seen.drain (h : l.Seen Q) (count : Nat) {ok : Snap → Bool}
    (hOk : ∀ snap, ok snap = true) : (l.drain count ok).Seen Q := by
  obtain ⟨snap, hSnap, hPending | hFlight | hRing⟩ := h
  · refine ⟨snap, hSnap, ?_⟩
    rw [← List.take_append_drop (min count 4096) l.pending, List.mem_append] at hPending
    rcases hPending with hTaken | hLeft
    · refine Or.inr (Or.inr (List.mem_append_right _ (List.mem_map.mpr ⟨snap, ?_, rfl⟩)))
      exact List.mem_filter.mpr ⟨hTaken, hOk snap⟩
    · exact Or.inl hLeft
  · exact ⟨snap, hSnap, Or.inr (Or.inl hFlight)⟩
  · exact ⟨snap, hSnap, Or.inr (Or.inr (List.mem_append_left _ hRing))⟩

theorem Log.Seen.dequeue (h : l.Seen Q) {snap : Snap} (hEq : l.dequeue snap = some l') :
    l'.Seen Q := by
  unfold Log.dequeue at hEq
  split at hEq
  · cases hEq
    obtain ⟨old, hOld, hPending | hFlight | hRing⟩ := h
    · by_cases hThis : old = snap
      · exact ⟨old, hOld, Or.inr (Or.inl (List.mem_append_right _ (by simp [hThis])))⟩
      · exact ⟨old, hOld, Or.inl ((List.mem_erase_of_ne hThis).mpr hPending)⟩
    · exact ⟨old, hOld, Or.inr (Or.inl (List.mem_append_left _ hFlight))⟩
    · exact ⟨old, hOld, Or.inr (Or.inr hRing)⟩
  · cases hEq

theorem Log.Seen.write (h : l.Seen Q) (hEq : l.write true = some l') : l'.Seen Q := by
  unfold Log.write at hEq
  split at hEq
  · rename_i snap rest hFlights
    cases hEq
    obtain ⟨old, hOld, hPending | hFlight | hRing⟩ := h
    · exact ⟨old, hOld, Or.inl hPending⟩
    · rw [hFlights] at hFlight
      rcases List.mem_cons.mp hFlight with hFirst | hRest
      · exact ⟨old, hOld, Or.inr (Or.inr (List.mem_append_right _ (by simp [hFirst])))⟩
      · exact ⟨old, hOld, Or.inr (Or.inl hRest)⟩
    · exact ⟨old, hOld, Or.inr (Or.inr (List.mem_append_left _ hRing))⟩
  · cases hEq

end Seen

--
-- One step
--

/-- The snapshot of the inode has been queued. -/
def Stage.Published : Stage → Prop
  | .new | .entered => False
  | .queued | .added | .done => True

/-- The snapshots that an entry will need are queued, on their way or in the ring, and what is in
the ring is in order. A create works in a directory whose own creation is over. -/
structure Kept (l : Log) : Prop where
  child  : ∀ n i, l.nodes n = some i → i.stage = .queued →
             l.Seen fun snap => snap.ino = n ∧ snap.gen = i.gen
  root   : ∀ n i, l.nodes n = some i → i.newRoot = true → i.stage.Published →
             l.Seen fun snap => snap.ino = n ∧ snap.root = i.root
  parent : ∀ n i, l.nodes n = some i → i.stage ≠ .done →
             ∃ p, l.nodes i.parent = some p ∧ p.stage = .done
  ring   : Ordered l.ring

section Step

variable {l l' : Log} {n : Nat} {i j : Node}

theorem kept_start (h : l.AtStart) : Kept l := by
  obtain ⟨-, -, hRing, hNodes⟩ := h
  refine ⟨fun n i hi hStage => ?_, fun n i hi hNew => ?_, fun n i hi hStage => ?_, ?_⟩
  · rw [(hNodes n i hi).1] at hStage
    cases hStage
  · rw [(hNodes n i hi).2] at hNew
    cases hNew
  · exact absurd (hNodes n i hi).1 hStage
  · rw [hRing]
    exact fun k hk => absurd hk (Nat.not_lt_zero k)

/-- The inodes stay, and no snapshot is lost. -/
theorem Kept.of_seen (h : Kept l) (hNodes : l'.nodes = l.nodes)
    (hSeen : ∀ Q, l.Seen Q → l'.Seen Q) (hRing : Ordered l'.ring) : Kept l' := by
  refine ⟨?_, ?_, ?_, hRing⟩
  · rw [hNodes]
    exact fun n i hi hStage => hSeen _ (h.child n i hi hStage)
  · rw [hNodes]
    exact fun n i hi hNew hStage => hSeen _ (h.root n i hi hNew hStage)
  · rw [hNodes]
    exact h.parent

theorem Kept.drain (h : Kept l) (count : Nat) {ok : Snap → Bool} (hOk : ∀ snap, ok snap = true) :
    Kept (l.drain count ok) := by
  refine h.of_seen rfl (fun Q hQ => hQ.drain count hOk) (h.ring.append fun x hx => ?_)
  obtain ⟨snap, -, rfl⟩ := List.mem_map.mp hx
  trivial

theorem Kept.dequeue (h : Kept l) {snap : Snap} (hEq : l.dequeue snap = some l') : Kept l' := by
  have hRest : l'.nodes = l.nodes ∧ l'.ring = l.ring := by
    unfold Log.dequeue at hEq
    split at hEq
    · cases hEq
      exact ⟨rfl, rfl⟩
    · cases hEq
  exact h.of_seen hRest.1 (fun Q hQ => hQ.dequeue hEq) (hRest.2 ▸ h.ring)

theorem Kept.write (h : Kept l) (hEq : l.write true = some l') : Kept l' := by
  have hRest : l'.nodes = l.nodes ∧ ∃ snap, l'.ring = l.ring ++ [.inodeFull snap] := by
    unfold Log.write at hEq
    split at hEq
    · rename_i snap rest hFlights
      cases hEq
      exact ⟨rfl, snap, rfl⟩
    · cases hEq
  obtain ⟨hNodes, snap, hRing⟩ := hRest
  refine h.of_seen hNodes (fun Q hQ => hQ.write hEq) ?_
  rw [hRing]
  refine h.ring.append fun x hx => ?_
  rw [List.mem_singleton.mp hx]
  trivial

theorem setNode_cases {m : Nat} {k : Node} (h : (l.setNode n j).nodes m = some k) :
    m = n ∧ k = j ∨ m ≠ n ∧ l.nodes m = some k := by
  dsimp only [Log.setNode] at h
  by_cases hm : m = n
  · subst hm
    rw [Function.update_self] at h
    exact Or.inl ⟨rfl, (Option.some.inj h).symm⟩
  · rw [Function.update_of_ne hm] at h
    exact Or.inr ⟨hm, h⟩

/-- The directories in which others work are still there. -/
theorem setNode_parent (hDone : ∀ i, l.nodes n = some i → i.stage = .done → j.stage = .done) {m : Nat}
    (h : ∃ p, l.nodes m = some p ∧ p.stage = .done) :
    ∃ p, (l.setNode n j).nodes m = some p ∧ p.stage = .done := by
  obtain ⟨p, hp, hStage⟩ := h
  by_cases hm : m = n
  · subst hm
    exact ⟨j, Function.update_self _ _ _, hDone p hp hStage⟩
  · exact ⟨p, (Function.update_of_ne hm _ _).trans hp, hStage⟩

/-- An inode is changed. A directory in which others may work stays one. -/
theorem Kept.setNode (h : Kept l)
    (hDone : ∀ i, l.nodes n = some i → i.stage = .done → j.stage = .done)
    (hChild : j.stage = .queued → l.Seen fun snap => snap.ino = n ∧ snap.gen = j.gen)
    (hRoot : j.newRoot = true → j.stage.Published →
      l.Seen fun snap => snap.ino = n ∧ snap.root = j.root)
    (hParent : j.stage ≠ .done → ∃ p, l.nodes j.parent = some p ∧ p.stage = .done) :
    Kept (l.setNode n j) := by
  refine ⟨fun m k hk hStage => ?_, fun m k hk hNew hStage => ?_, fun m k hk hStage => ?_, h.ring⟩
  · rcases setNode_cases hk with ⟨rfl, rfl⟩ | ⟨_, hOld⟩
    · exact hChild hStage
    · exact h.child m k hOld hStage
  · rcases setNode_cases hk with ⟨rfl, rfl⟩ | ⟨_, hOld⟩
    · exact hRoot hNew hStage
    · exact h.root m k hOld hNew hStage
  · apply setNode_parent hDone
    rcases setNode_cases hk with ⟨rfl, rfl⟩ | ⟨_, hOld⟩
    · exact hParent hStage
    · exact h.parent m k hOld hStage

/-- An inode is changed and its snapshot queued. -/
theorem Kept.setQueue (h : Kept l)
    (hDone : ∀ i, l.nodes n = some i → i.stage = .done → j.stage = .done)
    (hParent : j.stage ≠ .done → ∃ p, l.nodes j.parent = some p ∧ p.stage = .done) :
    Kept ((l.setNode n j).inodeFull (j.snap n)) := by
  have hMem := mem_inodeFull (l.setNode n j) (j.snap n)
  refine ⟨fun m k hk hStage => ?_, fun m k hk hNew hStage => ?_, fun m k hk hStage => ?_, h.ring⟩
  · rcases setNode_cases hk with ⟨rfl, rfl⟩ | ⟨hm, hOld⟩
    · exact ⟨_, ⟨rfl, rfl⟩, Or.inl hMem⟩
    · have hSeen : (l.setNode n j).Seen fun snap => snap.ino = m ∧ snap.gen = k.gen :=
        h.child m k hOld hStage
      refine hSeen.inodeFull fun old hSame hQ => ?_
      simp only [Snap.sameInode, Node.snap, Bool.and_eq_true, beq_iff_eq] at hSame
      exact absurd (hQ.1.symm.trans hSame.1.symm) hm
  · rcases setNode_cases hk with ⟨rfl, rfl⟩ | ⟨hm, hOld⟩
    · exact ⟨_, ⟨rfl, rfl⟩, Or.inl hMem⟩
    · have hSeen : (l.setNode n j).Seen fun snap => snap.ino = m ∧ snap.root = k.root :=
        h.root m k hOld hNew hStage
      refine hSeen.inodeFull fun old hSame hQ => ?_
      simp only [Snap.sameInode, Node.snap, Bool.and_eq_true, beq_iff_eq] at hSame
      exact absurd (hQ.1.symm.trans hSame.1.symm) hm
  · apply setNode_parent hDone
    rcases setNode_cases hk with ⟨rfl, rfl⟩ | ⟨_, hOld⟩
    · exact hParent hStage
    · exact h.parent m k hOld hStage

/-- The snapshot of an inode as it is. -/
theorem Kept.inodeFull (h : Kept l) (hNode : l.nodes n = some i) :
    Kept (l.inodeFull (i.snap n)) := by
  have hSame : l.setNode n i = l := by
    unfold Log.setNode
    rw [← hNode, Function.update_eq_self]
  have hQueue : Kept ((l.setNode n i).inodeFull (i.snap n)) := by
    refine h.setQueue (fun k hk hStage => ?_) (h.parent n i hNode)
    rw [hNode] at hk
    cases hk
    exact hStage
  rwa [hSame] at hQueue

/-- A create works on an inode of its own. -/
theorem Kept.parent_ne (h : Kept l) (hNode : l.nodes n = some i) (hStage : i.stage ≠ .done) :
    i.parent ≠ n := by
  intro hSelf
  obtain ⟨p, hp, hDone⟩ := h.parent n i hNode hStage
  rw [hSelf, hNode] at hp
  cases hp
  exact hStage hDone

theorem Kept.pinRoot (h : Kept l) {p : Node} (hDone : p.stage = .done) (root : Nat) :
    Kept (l.pinRoot n p root false) := by
  unfold Log.pinRoot
  split
  · dsimp only
    exact h.setQueue (fun _ _ _ => hDone) (fun hNot => absurd hDone hNot)
  · exact h

/-- The record of an entry is appended after the snapshots have left the queue. -/
theorem Kept.appendAdd (h : Kept l) {c p : Node} (hNode : l.nodes n = some c)
    (hParent : l.nodes c.parent = some p) (hStage : c.stage = .queued)
    (hDrained : (Event.appendAdd n).Drained l) : Kept (l.appendAdd n c p) := by
  have hGone := hDrained c p hNode hParent
  have hNotDone : c.stage ≠ .done := by rw [hStage]; nofun
  obtain ⟨q, hq, hDone⟩ := h.parent n c hNode hNotDone
  rw [hParent] at hq
  cases hq
  refine h.of_seen rfl (fun Q ⟨snap, hQ, hWhere⟩ => ?_) (h.ring.append fun x hx => ?_)
  · refine ⟨snap, hQ, hWhere.imp_right (Or.imp_right fun hRing => ?_)⟩
    exact List.mem_append_left _ hRing
  · rw [List.mem_singleton.mp hx]
    refine ⟨?_, fun r hr => ?_⟩
    · obtain ⟨snap, hQ, hWhere⟩ := h.child n c hNode hStage
      rcases hWhere with hPending | hFlight | hRing
      · exact absurd hQ.1 (hGone snap (Or.inl hPending)).1
      · exact absurd hQ.1 (hGone snap (Or.inr hFlight)).1
      · exact ⟨snap, hRing, hQ⟩
    · by_cases hNew : p.newRoot = true
      · rw [if_pos hNew] at hr
        cases hr
        obtain ⟨snap, hQ, hWhere⟩ := h.root c.parent p hParent hNew (hDone ▸ trivial)
        rcases hWhere with hPending | hFlight | hRing
        · exact absurd hQ.1 ((hGone snap (Or.inl hPending)).2 hNew)
        · exact absurd hQ.1 ((hGone snap (Or.inr hFlight)).2 hNew)
        · exact ⟨snap, hRing, hQ⟩
      · rw [if_neg hNew] at hr
        cases hr

/-- A create that has not come to its end moves on to a stage before the snapshot is queued. -/
theorem Kept.setStage (h : Kept l) (hNode : l.nodes n = some i) (hOpen : i.stage ≠ .done)
    (hParent : j.parent = i.parent) (hStage : ¬ j.stage.Published) : Kept (l.setNode n j) := by
  refine h.setNode (fun k hk hDone => ?_) (fun hQueued => ?_) (fun _ hPub => absurd hPub hStage)
    (fun _ => hParent ▸ h.parent n i hNode hOpen)
  · rw [hNode] at hk
    cases hk
    exact absurd hDone hOpen
  · rw [hQueued] at hStage
    exact absurd trivial hStage

/-- After its snapshot was queued it moves on with the same inode. -/
theorem Kept.pass (h : Kept l) (hNode : l.nodes n = some i) {stage : Stage}
    (hPub : i.stage.Published) (hStage : stage ≠ .queued)
    (hOpen : i.stage ≠ .done) : Kept (l.setNode n { i with stage := stage }) := by
  refine h.setNode (fun k hk hDone => ?_) (fun hQueued => absurd hQueued hStage)
    (fun hNew _ => h.root n i hNode hNew hPub) (fun _ => h.parent n i hNode hOpen)
  rw [hNode] at hk
  cases hk
  exact absurd hDone hOpen

theorem Kept.giveUp (h : Kept l) (hNode : l.nodes n = some i) (hOpen : i.stage ≠ .done) :
    Kept { l with nodes := Function.update l.nodes n none } := by
  have hOld : ∀ m k, Function.update l.nodes n none m = some k → l.nodes m = some k := by
    intro m k hk
    by_cases hm : m = n
    · subst hm
      rw [Function.update_self] at hk
      cases hk
    · rwa [Function.update_of_ne hm] at hk
  refine ⟨fun m k hk => h.child m k (hOld m k hk), fun m k hk => h.root m k (hOld m k hk),
    fun m k hk hStage => ?_, h.ring⟩
  obtain ⟨p, hp, hDone⟩ := h.parent m k (hOld m k hk) hStage
  refine ⟨p, ?_, hDone⟩
  have hNot : k.parent ≠ n := by
    intro hSelf
    rw [hSelf, hNode] at hp
    cases hp
    exact hOpen hDone
  exact (Function.update_of_ne hNot _ _).trans hp

/-- Every step under the condition keeps the order. -/
theorem Kept.step (h : Kept l) {e : Event} (hDrained : e.Drained l) (hEq : l.step e = some l') :
    Kept l' := by
  cases e with
  | newInode parent child gen =>
    dsimp only [Log.step] at hEq
    split at hEq
    · rename_i p hParent hNone
      split at hEq
      · rename_i hDone
        cases hEq
        refine h.setNode (fun k hk => ?_) nofun nofun fun _ => ⟨p, hParent, hDone⟩
        rw [hNone] at hk
        cases hk
      · cases hEq
    · cases hEq
  | createRoot child root =>
    dsimp only [Log.step] at hEq
    split at hEq
    · rename_i c hNode
      split at hEq
      · rename_i hNew
        cases hEq
        refine h.setStage hNode ?_ rfl ?_
        · rw [hNew.1]
          nofun
        · dsimp only
          rw [hNew.1]
          exact id
      · cases hEq
    · cases hEq
  | addEntry child root pinFails =>
    dsimp only [Log.step, Event.Drained] at hEq hDrained
    subst hDrained
    split at hEq
    · rename_i c hNode
      split at hEq
      · rename_i p hParent
        split at hEq
        · rename_i hNew
          cases hEq
          have hOpen : c.stage ≠ .done := by rw [hNew]; nofun
          obtain ⟨q, hq, hDone⟩ := h.parent child c hNode hOpen
          rw [hParent] at hq
          cases hq
          refine (h.pinRoot hDone root).setStage ?_ hOpen rfl id
          have hNot := h.parent_ne hNode hOpen
          unfold Log.pinRoot
          split
          · exact (Function.update_of_ne hNot.symm _ _).trans hNode
          · exact hNode
        · cases hEq
      · cases hEq
    · cases hEq
  | queueChild child =>
    dsimp only [Log.step] at hEq
    split at hEq
    · rename_i c hNode
      split at hEq
      · rename_i hEntered
        cases hEq
        have hOpen : c.stage ≠ .done := by rw [hEntered]; nofun
        refine h.setQueue (n := child) (j := { c with stage := .queued }) (fun k hk hDone => ?_)
          fun _ => h.parent child c hNode hOpen
        rw [hNode] at hk
        cases hk
        exact absurd hDone hOpen
      · cases hEq
    · cases hEq
  | appendAdd child =>
    dsimp only [Log.step] at hEq
    split at hEq
    · rename_i c hNode
      split at hEq
      · rename_i p hParent
        split at hEq
        · rename_i hQueued
          cases hEq
          refine (h.appendAdd hNode hParent hQueued hDrained).pass hNode ?_ nofun ?_
          · rw [hQueued]
            trivial
          · rw [hQueued]
            nofun
        · cases hEq
      · cases hEq
    · cases hEq
  | updateParent child =>
    dsimp only [Log.step] at hEq
    split at hEq
    · rename_i c hNode
      split at hEq
      · rename_i p hParent
        split at hEq
        · rename_i hAdded
          cases hEq
          have hOpen : c.stage ≠ .done := by rw [hAdded]; nofun
          have hNot := h.parent_ne hNode hOpen
          have hPub : c.stage.Published := by
            rw [hAdded]
            trivial
          have hPass : Kept (l.setNode child { c with stage := .done }) :=
            h.pass hNode hPub nofun hOpen
          exact hPass.inodeFull ((Function.update_of_ne hNot _ _).trans hParent)
        · cases hEq
      · cases hEq
    · cases hEq
  | giveUp child =>
    dsimp only [Log.step] at hEq
    split at hEq
    · rename_i c hNode
      split at hEq
      · cases hEq
      · rename_i hOpen
        cases hEq
        exact h.giveUp hNode hOpen
    · cases hEq
  | persist ino =>
    dsimp only [Log.step] at hEq
    split at hEq
    · rename_i i hNode
      cases hEq
      exact h.inodeFull hNode
    · cases hEq
  | drain count ok =>
    dsimp only [Log.step] at hEq
    cases hEq
    exact h.drain count hDrained
  | dequeue snap => exact h.dequeue hEq
  | write ok =>
    dsimp only [Log.step, Event.Drained] at hEq hDrained
    subst hDrained
    exact h.write hEq

end Step

--
-- All steps
--

/-- In every run of any number of creates and syncs whose steps all meet `Event.Drained`, each
record of an entry stands in the ring after a snapshot of the child with its generation, and, if the
root of the parent was made in the run, after a snapshot of the parent with that root. -/
theorem snapshots_precede {start l : Log} (hStart : start.AtStart)
    (hReach : Reach (fun l e => e.Drained l) start l) : Ordered l.ring := by
  have hKept : Kept l := by
    induction hReach with
    | start => exact kept_start hStart
    | step _ hDrained hEq ih => exact ih.step hDrained hEq
  exact hKept.ring

/-- Inode 1 is a directory with a root. -/
def oneDirectory : Log :=
  ⟨fun n => if n = 1 then some ⟨7, 100, false, 1, .done⟩ else none, [], [], []⟩

theorem oneDirectory_atStart : oneDirectory.AtStart := by
  refine ⟨rfl, rfl, rfl, fun n i hi => ?_⟩
  dsimp only [oneDirectory] at hi
  split at hi
  · cases hi
    exact ⟨rfl, rfl⟩
  · cases hi

/-- A create of inode 2 in it, with a sync between the two records. -/
theorem snapshots_precede_synced :
    ∃ l, Reach (fun l e => e.Drained l) oneDirectory l ∧ Ordered l.ring ∧
      l.ring = [.inodeFull ⟨2, 9, 0⟩, .dirAdd 1 2 9 none] := by
  have hStart : Reach (fun l e => e.Drained l) oneDirectory oneDirectory := Reach.start
  have hNew := hStart.step (e := .newInode 1 2 9) trivial rfl
  have hEntered := hNew.step (e := .addEntry 2 200 false) rfl rfl
  have hQueued := hEntered.step (e := .queueChild 2) trivial rfl
  have hSynced := hQueued.step (e := .drain 1 fun _ => true) (fun _ => rfl) rfl
  have hAdded := hSynced.step (e := .appendAdd 2)
    (fun _ _ _ _ _ hLeft => hLeft.elim (fun h => nomatch h) (fun h => nomatch h)) rfl
  exact ⟨_, hAdded, snapshots_precede oneDirectory_atStart hAdded, rfl⟩

/-- A create of inode 2 in it and then a sync: the entry comes first. -/
theorem entry_precedes_snapshot :
    ∃ l, Reach (fun _ _ => True) oneDirectory l ∧ ¬ Ordered l.ring ∧
      l.ring = [.dirAdd 1 2 9 none, .inodeFull ⟨2, 9, 0⟩, .inodeFull ⟨1, 7, 100⟩] := by
  have hStart : Reach (fun _ _ => True) oneDirectory oneDirectory := Reach.start
  have hNew := hStart.step (e := .newInode 1 2 9) trivial rfl
  have hEntered := hNew.step (e := .addEntry 2 200 false) trivial rfl
  have hQueued := hEntered.step (e := .queueChild 2) trivial rfl
  have hAdded := hQueued.step (e := .appendAdd 2) trivial rfl
  have hDone := hAdded.step (e := .updateParent 2) trivial rfl
  have hSynced := hDone.step (e := .drain 2 fun _ => true) trivial rfl
  refine ⟨_, hSynced, fun hOrder => ?_, rfl⟩
  obtain ⟨⟨snap, hMem, -⟩, -⟩ := hOrder 0 (Nat.zero_lt_succ 2)
  exact absurd hMem List.not_mem_nil

end Briefs.Order
