import Briefs.Replay.World
import Briefs.Replay.Walk

/-!
# BrieFS — replay of a window of records

The passes of `briefs_journal_replay` on the records of a window: pass 1 with
`reserve_only`, the xattr live set and the excluded trie blocks, pass 2, the
link-count reconciliation and the rebuild of the allocator summaries.

A window is a list of records here; `Briefs.Replay.Walk` has the walk that
decodes them from the ring.
-/

namespace Briefs.Replay

open Briefs.Journal

variable {σ : Type}

--
-- Marking the trie blocks that snapshots refer to
--

/-- `TRIE_SLOTS_PER_BLOCK`. -/
def trieSlotsPerBlock : Nat := 64

/-- `TRIE_ITER_MAX_SP`. -/
def trieIterMaxSp : Nat := 131072

/-- `TRIE_VISIT_ENGAGE`. -/
def trieVisitEngage : Nat := 65536

/-- `TRIE_REF_MAX_VISITS`. -/
def trieRefMaxVisits : Nat := 16

/-- The table of `trie_iter_note_visit`: a node reference and its visits in each
slot. -/
abbrev VisitTable := Nat → Option (Nat × Nat)

/-- The slot of a node reference. -/
def visitSlot (ref : Nat) : Nat := ref * 0x9E3779B97F4A7C15 % 2 ^ 64 / 2 ^ 47

/-- `trie_iter_note_visit` with `visited` node reads before this one. `none`
means that the node was seen too often. -/
def noteVisit (tbl : VisitTable) (visited ref : Nat) : Option VisitTable :=
  if visited + 1 ≤ trieVisitEngage then some tbl
  else
    match tbl (visitSlot ref) with
    | some (ref', visits) =>
      if ref' = ref then
        if trieRefMaxVisits < visits + 1 then none
        else some (Function.update tbl (visitSlot ref) (some (ref, visits + 1)))
      else some (Function.update tbl (visitSlot ref) (some (ref, 1)))
    | none => some (Function.update tbl (visitSlot ref) (some (ref, 1)))

/-- `trie_iter_push`; `none` when the stack limit is exceeded. A null reference
is not pushed by the callers. -/
def pushRef (stack : List Nat) (ref : Nat) : Option (List Nat) :=
  if ref = 0 then some stack
  else if trieIterMaxSp < stack.length + 1 then none
  else some (ref :: stack)

/-- What `trie_walk_reachable` with the marking visitor leaves: the blocks it
marked, and whether it saw everything (no unreadable page, no limit hit). -/
structure MarkResult where
  marked   : List Nat
  complete : Bool

/-- The loop of `trie_walk_reachable` with `trie_mark_visit`. Every turn pops a
reference and pushes at most two, so `2 * cap + 2` turns always suffice. -/
def markLoop (readNode : Nat → Option (Nat × Nat)) (cap : Nat) :
    Nat → List Nat → Nat → VisitTable → MarkResult → MarkResult
  | 0, _, _, _, acc => { acc with complete := false }
  | _ + 1, [], _, _, acc => acc
  | fuel + 1, ref :: stack, visited, tbl, acc =>
    if cap ≤ visited then { acc with complete := false }
    else
      match readNode ref with
      | none => markLoop readNode cap fuel stack visited tbl { acc with complete := false }
      | some (child, sib) =>
        match noteVisit tbl visited ref with
        | none => { acc with complete := false }
        | some tbl =>
          let acc := { acc with marked := trieRefBlock ref :: acc.marked }
          match (pushRef stack child).bind fun s => pushRef s sib with
          | none => { acc with complete := false }
          | some stack => markLoop readNode cap fuel stack (visited + 1) tbl acc

/-- `briefs_trie_mark_referenced_blocks` for one root. -/
def markReferencedBlocks (readNode : Nat → Option (Nat × Nat)) (blockCount root : Nat) :
    MarkResult :=
  let cap := blockCount * trieSlotsPerBlock + 1024
  if root = 0 then { marked := [], complete := true }
  else markLoop readNode cap (2 * cap + 2) [root] 0 (fun _ => none)
    { marked := [], complete := true }

/-- The marking between the passes: every collected root in turn. -/
def markExcluded (ops : FsOps σ) (w : World σ) : World σ :=
  { w with
    excluded := w.roots.foldl (fun acc root =>
      (markReferencedBlocks (ops.readNode w.data) w.alloc.blockCount root).marked ++ acc) w.excluded
    roots := [] }

--
-- Xattr live set
--

/-- One chain of `replay_build_xattr_live_set`. -/
def xattrChain (next : List (Nat × Nat)) : Nat → Nat → List Nat
  | 0, _ => []
  | n + 1, block =>
    if block = 0 then [] else block :: xattrChain next n (tableGet next block)

/-- `replay_build_xattr_live_set`: the chains from the final `xattr_offset` of
every inode. -/
def buildXattrLiveSet (w : World σ) : World σ :=
  { w with xattrLive := (w.xattrFinal.map Prod.fst).flatMap fun ino =>
      xattrChain w.xattrNext xattrMaxChain (tableGet w.xattrFinal ino) }

--
-- Link counts
--

/-- `replay_inode_allocated`. -/
def inodeAllocated (w : World σ) (ino : Nat) : Bool :=
  ino != 0 && decide (ino - 1 < w.inodeAlloc.blockCount) && !w.inodeAlloc.isFree (ino - 1)

/-- `BRIEFS_S_ISDIR`. -/
def isDir (mode : Nat) : Bool := mode / 4096 % 16 == 4

/-- An allocated inode whose slot can be read and has the magic. -/
def liveInode (ops : FsOps σ) (w : World σ) (ino : Nat) : Bool :=
  inodeAllocated w ino && ops.inodeInRange ino && (w.slots ino).magic == inodeMagic

/-- Pass 3a: the entries of all directories, or `none` when a walk fails. -/
def collectEntries (ops : FsOps σ) (w : World σ) :
    List Nat → Option (List (Nat × Nat × Nat))
  | [] => some []
  | ino :: rest =>
    if liveInode ops w ino ∧ isDir (w.slots ino).filemode then
      match ops.dirEntries w.data (w.slots ino).dirTrieRoot with
      | none => none
      | some es => (collectEntries ops w rest).map fun t => es.map (fun e => (ino, e)) ++ t
    else collectEntries ops w rest

/-- The link count that pass 3b expects from the collected entries
(directory, child, type): directories count their subdirectories, other inodes
the entries that name them. -/
def expectedNlinks (w : World σ) (entries : List (Nat × Nat × Nat)) (ino : Nat) : Nat :=
  if isDir (w.slots ino).filemode then
    2 + (entries.filter fun e => e.1 == ino && e.2.2 == 4).length
  else
    (entries.filter fun e => e.2.1 == ino && inodeAllocated w ino).length

/-- `replay_reconcile_nlinks`. -/
def reconcileNlinks (ops : FsOps σ) (w : World σ) : World σ :=
  match collectEntries ops w ((List.range w.inodeAlloc.blockCount).map (· + 1)) with
  | none => w
  | some entries =>
    { w with slots := fun ino =>
        if liveInode ops w ino then
          { w.slots ino with nlinks := expectedNlinks w entries ino }
        else w.slots ino }

--
-- Passes
--

/-- One walk over the records: the number of real errors and the state. -/
def applyPass (ops : FsOps σ) (reserveOnly : Bool) (recs : List JRec) (w : World σ) :
    Nat × World σ :=
  recs.foldl (fun acc rec =>
    let (ret, w) := applyRecord ops reserveOnly rec acc.2
    (if skippable ret then acc.1 else acc.1 + 1, w)) (0, w)

/-- The empty replay context. -/
def World.init (w : World σ) : World σ :=
  { w with pool := [], roots := [], excluded := [], pins := [], xattrFinal := []
           xattrNext := [], xattrLive := [], history := [] }

/-- The state between the passes. -/
def afterPass1 (ops : FsOps σ) (recs : List JRec) (w : World σ) : World σ :=
  markExcluded ops (buildXattrLiveSet (applyPass ops true recs w.init).2)

/-- `briefs_journal_replay` on the records of its window. -/
def replayRecords (ops : FsOps σ) (recs : List JRec) (w : World σ) : Option Errno × World σ :=
  let pass1 := applyPass ops true recs w.init
  if pass1.1 ≠ 0 then (some .eio, pass1.2)
  else
    let pass2 := applyPass ops false recs (afterPass1 ops recs w)
    let w := reconcileNlinks ops pass2.2
    (if pass2.1 = 0 then none else some .eio,
      { w with alloc := w.alloc.recomputeSummaries
               inodeAlloc := w.inodeAlloc.recomputeSummaries })

/-- The state after a pass, without the error count. -/
theorem applyPass_snd (ops : FsOps σ) (reserveOnly : Bool) (recs : List JRec) (w : World σ) :
    (applyPass ops reserveOnly recs w).2 =
      recs.foldl (fun w rec => (applyRecord ops reserveOnly rec w).2) w := by
  have hGen : ∀ (recs : List JRec) (n : Nat) (w : World σ),
      (recs.foldl (fun acc rec =>
        let (ret, w) := applyRecord ops reserveOnly rec acc.2
        (if skippable ret then acc.1 else acc.1 + 1, w)) (n, w)).2 =
      recs.foldl (fun w rec => (applyRecord ops reserveOnly rec w).2) w := by
    intro recs
    induction recs with
    | nil => intro n w; rfl
    | cons rec recs ih =>
      intro n w
      rw [List.foldl_cons, List.foldl_cons]
      exact ih _ _
  exact hGen recs 0 w

theorem applyPass_append (ops : FsOps σ) (reserveOnly : Bool) (pre post : List JRec)
    (w : World σ) :
    (applyPass ops reserveOnly (pre ++ post) w).2 =
      (applyPass ops reserveOnly post (applyPass ops reserveOnly pre w).2).2 := by
  simp only [applyPass_snd, List.foldl_append]

/-- An invariant of single records is an invariant of a pass. -/
theorem applyPass_invariant {ops : FsOps σ} {reserveOnly : Bool} {P : World σ → Prop}
    {recs : List JRec} (hStep : ∀ rec ∈ recs, ∀ w, P w → P (applyRecord ops reserveOnly rec w).2)
    {w : World σ} (h : P w) : P (applyPass ops reserveOnly recs w).2 := by
  rw [applyPass_snd]
  induction recs generalizing w with
  | nil => exact h
  | cons rec recs ih =>
    rw [List.foldl_cons]
    exact ih (fun r hr => hStep r (List.mem_cons_of_mem _ hr))
      (hStep rec List.mem_cons_self w h)

/-- Pass 1 only touches the allocators and the replay context. -/
theorem applyRecord1_frame (ops : FsOps σ) (rec : JRec) (w : World σ) :
    (applyRecord ops true rec w).1 = none ∧ (applyRecord ops true rec w).2.data = w.data ∧
      (applyRecord ops true rec w).2.history = w.history ∧
      (applyRecord ops true rec w).2.excluded = w.excluded ∧
      (applyRecord ops true rec w).2.slots = w.slots ∧
      (applyRecord ops true rec w).2.icache = w.icache := by
  cases rec with
  | inodeAlloc ino =>
    dsimp only [applyRecord]
    split <;> exact ⟨rfl, rfl, rfl, rfl, rfl, rfl⟩
  | inodeFree ino =>
    dsimp only [applyRecord]
    split <;> exact ⟨rfl, rfl, rfl, rfl, rfl, rfl⟩
  | trieAlloc block op =>
    dsimp only [applyRecord, replayTrieAlloc]
    split <;> exact ⟨rfl, rfl, rfl, rfl, rfl, rfl⟩
  | xattrData x =>
    dsimp only [applyRecord]
    split
    · split <;> exact ⟨rfl, rfl, rfl, rfl, rfl, rfl⟩
    · rename_i hNot
      exact absurd rfl hNot
  | _ => exact ⟨rfl, rfl, rfl, rfl, rfl, rfl⟩

theorem applyPass1_frame (ops : FsOps σ) (recs : List JRec) (w : World σ) :
    (applyPass ops true recs w).2.data = w.data ∧
      (applyPass ops true recs w).2.history = w.history ∧
      (applyPass ops true recs w).2.excluded = w.excluded ∧
      (applyPass ops true recs w).2.slots = w.slots ∧
      (applyPass ops true recs w).2.icache = w.icache := by
  refine applyPass_invariant (P := fun w' => w'.data = w.data ∧ w'.history = w.history ∧
    w'.excluded = w.excluded ∧ w'.slots = w.slots ∧ w'.icache = w.icache) ?_
    ⟨rfl, rfl, rfl, rfl, rfl⟩
  rintro rec - w' ⟨hData, hHist, hEx, hSlots, hCache⟩
  obtain ⟨-, h1, h2, h3, h4, h5⟩ := applyRecord1_frame ops rec w'
  exact ⟨h1.trans hData, h2.trans hHist, h3.trans hEx, h4.trans hSlots, h5.trans hCache⟩

/-- No record fails in pass 1. -/
theorem applyPass1_errors (ops : FsOps σ) (recs : List JRec) (w : World σ) :
    (applyPass ops true recs w).1 = 0 := by
  unfold applyPass
  induction recs generalizing w with
  | nil => rfl
  | cons rec recs ih =>
    rw [List.foldl_cons]
    have hRet := (applyRecord1_frame ops rec w).1
    cases hApp : applyRecord ops true rec w with
    | mk ret w' =>
      rw [hApp] at hRet
      dsimp only at hRet ⊢
      subst hRet
      exact ih w'

end Briefs.Replay
