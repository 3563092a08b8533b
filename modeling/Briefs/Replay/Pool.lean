import Briefs.Replay.Bitmap

/-!
# BrieFS — the replay pool of trie blocks

Pass 1 pushes the block of every `TRIE_ALLOC` allocation record of the window
on a list; `briefs_trie_page_init` pops it from the newest end in pass 2. The
only filter is the set of blocks that the marking walk found from the
`dir_trie_root` of the window's snapshots: free records, and allocations of the
same block as file data, do not take an entry off the list again.

## Results

* `markLoop_reaches`, `marked_of_reachable` — a marking walk that is cut off
  nowhere marks every block reachable at crash time.
* `popped_replayRecords` — what a replay pops is the beginning of what repeated
  calls on the pool of pass 1 return.
* `replay_pool_safe_iff` — exactly when all these calls return orphaned trie
  blocks, each once.
-/

namespace Briefs.Replay

open Briefs.Journal

variable {σ : Type} {ops : FsOps σ}

--
-- Reachability
--

/-- A node is reachable from a reference along first children and next
siblings. A node that cannot be read is reachable, its links are not. -/
inductive Reaches (readNode : Nat → Option (Nat × Nat)) : Nat → Nat → Prop where
  | refl {ref : Nat} (hRef : ref ≠ 0) : Reaches readNode ref ref
  | child {ref child sib r : Nat} (hRef : ref ≠ 0) (hRead : readNode ref = some (child, sib))
      (h : Reaches readNode child r) : Reaches readNode ref r
  | sibling {ref child sib r : Nat} (hRef : ref ≠ 0) (hRead : readNode ref = some (child, sib))
      (h : Reaches readNode sib r) : Reaches readNode ref r

theorem Reaches.ne_zero {readNode : Nat → Option (Nat × Nat)} {ref r : Nat}
    (h : Reaches readNode ref r) : ref ≠ 0 := by
  cases h with
  | refl hRef => exact hRef
  | child hRef _ _ => exact hRef
  | sibling hRef _ _ => exact hRef

/-- The links of a node that can be read lead to everything reachable from it
but itself. -/
theorem Reaches.of_read {readNode : Nat → Option (Nat × Nat)} {ref r child sib : Nat}
    (h : Reaches readNode ref r) (hRead : readNode ref = some (child, sib)) :
    r = ref ∨ Reaches readNode child r ∨ Reaches readNode sib r := by
  cases h with
  | refl _ => exact .inl rfl
  | child _ hRead' h =>
    rw [hRead] at hRead'
    cases hRead'
    exact .inr (.inl h)
  | sibling _ hRead' h =>
    rw [hRead] at hRead'
    cases hRead'
    exact .inr (.inr h)

theorem mem_pushRef {stack stack' : List Nat} {ref : Nat} (h : pushRef stack ref = some stack') :
    (∀ s ∈ stack, s ∈ stack') ∧ (ref ≠ 0 → ref ∈ stack') := by
  unfold pushRef at h
  split at h
  · rename_i hZero
    cases h
    exact ⟨fun s hs => hs, fun hNe => absurd hZero hNe⟩
  · split at h
    · cases h
    · cases h
      exact ⟨fun s hs => List.mem_cons_of_mem _ hs, fun _ => List.mem_cons_self⟩

theorem mem_pushRef_pushRef {stack stack' : List Nat} {child sib : Nat}
    (h : ((pushRef stack child).bind fun s => pushRef s sib) = some stack') :
    (∀ s ∈ stack, s ∈ stack') ∧ (child ≠ 0 → child ∈ stack') ∧ (sib ≠ 0 → sib ∈ stack') := by
  obtain ⟨mid, hChild, hSib⟩ := Option.bind_eq_some_iff.mp h
  obtain ⟨hKeep1, hNew1⟩ := mem_pushRef hChild
  obtain ⟨hKeep2, hNew2⟩ := mem_pushRef hSib
  exact ⟨fun s hs => hKeep2 s (hKeep1 s hs), fun hNe => hKeep2 _ (hNew1 hNe), hNew2⟩

/-- A walk that ends without a cut marks everything reachable from its stack. -/
theorem markLoop_reaches {readNode : Nat → Option (Nat × Nat)} {cap : Nat} :
    ∀ (fuel : Nat) (stack : List Nat) (visited : Nat) (tbl : VisitTable) (acc : MarkResult),
      (markLoop readNode cap fuel stack visited tbl acc).complete = true →
      acc.complete = true ∧
        (∀ b ∈ acc.marked, b ∈ (markLoop readNode cap fuel stack visited tbl acc).marked) ∧
        ∀ s ∈ stack, ∀ r, Reaches readNode s r →
          trieRefBlock r ∈ (markLoop readNode cap fuel stack visited tbl acc).marked := by
  intro fuel
  induction fuel with
  | zero =>
    intro stack visited tbl acc h
    cases h
  | succ fuel ih =>
    intro stack visited tbl acc h
    cases stack with
    | nil => exact ⟨h, fun b hb => hb, fun s hs => by cases hs⟩
    | cons ref stack =>
      unfold markLoop at h ⊢
      by_cases hCap : cap ≤ visited
      · rw [if_pos hCap] at h
        cases h
      rw [if_neg hCap] at h ⊢
      cases hRead : readNode ref with
      | none =>
        rw [hRead] at h
        -- an unreadable page marks the walk as cut off
        exact absurd (ih _ _ _ _ h).1 Bool.false_ne_true
      | some links =>
        obtain ⟨child, sib⟩ := links
        rw [hRead] at h
        dsimp only at h ⊢
        cases hNote : noteVisit tbl visited ref with
        | none =>
          rw [hNote] at h
          cases h
        | some tbl' =>
          rw [hNote] at h
          dsimp only at h ⊢
          cases hPush : (pushRef stack child).bind fun s => pushRef s sib with
          | none =>
            rw [hPush] at h
            cases h
          | some stack' =>
            rw [hPush] at h
            dsimp only at h ⊢
            obtain ⟨hAcc, hMarked, hStack⟩ := ih _ _ _ _ h
            obtain ⟨hKeep, hChild, hSib⟩ := mem_pushRef_pushRef hPush
            refine ⟨hAcc, fun b hb => hMarked b (List.mem_cons_of_mem _ hb), ?_⟩
            intro s hs r hr
            rcases List.mem_cons.mp hs with rfl | hs
            · rcases hr.of_read hRead with rfl | hr | hr
              · exact hMarked _ List.mem_cons_self
              · exact hStack child (hChild hr.ne_zero) r hr
              · exact hStack sib (hSib hr.ne_zero) r hr
            · exact hStack s (hKeep s hs) r hr

/-- A block that at crash time is reachable from the `dir_trie_root` of a
snapshot of the window. -/
def ReachableAtCrash (ops : FsOps σ) (recs : List JRec) (w : World σ) (abs : Nat) : Prop :=
  ∃ ino snap, .inodeFull ino snap ∈ recs ∧
    ∃ ref, Reaches (ops.readNode w.data) snap.dirTrieRoot ref ∧ trieRefBlock ref = abs

/-- A block that the walk from the root of some snapshot marks. -/
def Marked (ops : FsOps σ) (recs : List JRec) (w : World σ) (abs : Nat) : Prop :=
  ∃ ino snap, .inodeFull ino snap ∈ recs ∧
    abs ∈ (markReferencedBlocks (ops.readNode w.data) w.alloc.blockCount snap.dirTrieRoot).marked

/-- No marking walk meets an unreadable page or one of its limits. -/
def WalksComplete (ops : FsOps σ) (recs : List JRec) (w : World σ) : Prop :=
  ∀ ino snap, .inodeFull ino snap ∈ recs →
    (markReferencedBlocks (ops.readNode w.data) w.alloc.blockCount
      snap.dirTrieRoot).complete = true

/-- Complete walks mark every reachable block. -/
theorem marked_of_reachable {recs : List JRec} {w : World σ} (hWalks : WalksComplete ops recs w)
    {abs : Nat} (h : ReachableAtCrash ops recs w abs) : Marked ops recs w abs := by
  obtain ⟨ino, snap, hMem, ref, hReach, rfl⟩ := h
  refine ⟨ino, snap, hMem, ?_⟩
  have hDone := hWalks ino snap hMem
  unfold markReferencedBlocks at hDone ⊢
  dsimp only at hDone ⊢
  rw [if_neg hReach.ne_zero] at hDone ⊢
  exact (markLoop_reaches _ _ _ _ _ hDone).2.2 _ List.mem_cons_self ref hReach

--
-- The state between the passes
--

/-- The block that a record puts on the pool. -/
def JRec.collects (dataStart : Nat) : JRec → Option Nat
  | .trieAlloc block op => if op = 0 then some (absToData dataStart block) else none
  | _ => none

/-- The root that a record asks to be marked. -/
def JRec.marksRoot : JRec → Option Nat
  | .inodeFull _ snap => some snap.dirTrieRoot
  | _ => none

/-- The pool as pass 1 fills it, newest first. -/
def collected (dataStart : Nat) (recs : List JRec) : List Nat :=
  (recs.filterMap (JRec.collects dataStart)).reverse

theorem pool_applyRecord1 (ops : FsOps σ) (rec : JRec) (w : World σ) :
    (applyRecord ops true rec w).2.pool = (rec.collects ops.dataStart).toList ++ w.pool := by
  cases rec with
  | trieAlloc block op =>
    dsimp only [applyRecord, replayTrieAlloc, JRec.collects]
    by_cases hOp : op = 0
    · rw [if_pos hOp, if_pos hOp, if_pos rfl]
      rfl
    · rw [if_neg hOp, if_neg hOp]
      rfl
  | inodeAlloc ino =>
    dsimp only [applyRecord]
    split <;> rfl
  | inodeFree ino =>
    dsimp only [applyRecord]
    split <;> rfl
  | xattrData x =>
    dsimp only [applyRecord]
    rw [if_pos rfl]
    split <;> rfl
  | _ => rfl

/-- Pass 1 collects every allocation record, whatever follows it. -/
theorem pool_applyPass1 (ops : FsOps σ) (recs : List JRec) (w : World σ) :
    (applyPass ops true recs w).2.pool = collected ops.dataStart recs ++ w.pool := by
  rw [applyPass_snd]
  unfold collected
  induction recs generalizing w with
  | nil => rfl
  | cons rec recs ih =>
    rw [List.foldl_cons, ih, pool_applyRecord1]
    cases hRec : rec.collects ops.dataStart with
    | none => simp [hRec]
    | some rel => simp [hRec]

theorem mem_roots_applyRecord1 (ops : FsOps σ) (rec : JRec) (w : World σ) {root : Nat}
    (hRoot : root ≠ 0) :
    root ∈ (applyRecord ops true rec w).2.roots ↔ root ∈ w.roots ∨ rec.marksRoot = some root := by
  cases rec with
  | inodeFull ino snap =>
    dsimp only [applyRecord, JRec.marksRoot]
    rw [if_pos rfl, Option.some.injEq]
    dsimp only
    split
    · rename_i hOld
      constructor
      · exact .inl
      · intro h
        rcases h with h | rfl
        · exact h
        · exact hOld.resolve_left hRoot
    · rw [List.mem_append, List.mem_singleton, eq_comm]
  | trieAlloc block op =>
    dsimp only [applyRecord, replayTrieAlloc, JRec.marksRoot]
    split <;> simp
  | inodeAlloc ino =>
    dsimp only [applyRecord, JRec.marksRoot]
    split <;> simp
  | inodeFree ino =>
    dsimp only [applyRecord, JRec.marksRoot]
    split <;> simp
  | xattrData x =>
    dsimp only [applyRecord, JRec.marksRoot]
    rw [if_pos rfl]
    split <;> simp
  | _ => simp [applyRecord, JRec.marksRoot, replayExtentAlloc, replayExtentFree]

/-- Pass 1 collects the root of every snapshot. -/
theorem mem_roots_applyPass1 (ops : FsOps σ) (recs : List JRec) (w : World σ) {root : Nat}
    (hRoot : root ≠ 0) :
    root ∈ (applyPass ops true recs w).2.roots ↔
      root ∈ w.roots ∨ ∃ rec ∈ recs, rec.marksRoot = some root := by
  rw [applyPass_snd]
  induction recs generalizing w with
  | nil => simp
  | cons rec recs ih =>
    rw [List.foldl_cons, ih, mem_roots_applyRecord1 ops rec w hRoot]
    simp [or_assoc]

theorem exists_marksRoot {recs : List JRec} {root : Nat} :
    (∃ rec ∈ recs, rec.marksRoot = some root) ↔
      ∃ ino snap, .inodeFull ino snap ∈ recs ∧ snap.dirTrieRoot = root := by
  constructor
  · rintro ⟨rec, hMem, hRec⟩
    cases rec with
    | inodeFull ino snap => exact ⟨ino, snap, hMem, by simpa [JRec.marksRoot] using hRec⟩
    | _ => cases hRec
  · rintro ⟨ino, snap, hMem, rfl⟩
    exact ⟨_, hMem, rfl⟩

theorem mem_foldl_append {α β : Type} (f : α → List β) (b : β) : ∀ (l : List α) (init : List β),
    b ∈ l.foldl (fun acc a => f a ++ acc) init ↔ b ∈ init ∨ ∃ a ∈ l, b ∈ f a
  | [], init => by simp
  | a :: l, init => by
    rw [List.foldl_cons, mem_foldl_append f b l]
    simp only [List.mem_append, List.mem_cons, exists_eq_or_imp]
    tauto

/-- The excluded set is what the walks mark. -/
theorem mem_excluded (ops : FsOps σ) (recs : List JRec) (w : World σ) (abs : Nat) :
    abs ∈ (afterPass1 ops recs w).excluded ↔ Marked ops recs w abs := by
  obtain ⟨hData, -, hEx, -⟩ := applyPass1_frame ops recs w.init
  have hCount := blockCount_afterPass1 ops recs w
  have hRoots : ∀ {root : Nat}, root ≠ 0 → (root ∈ (applyPass ops true recs w.init).2.roots ↔
      root ∈ w.init.roots ∨ ∃ rec ∈ recs, rec.marksRoot = some root) :=
    fun hRoot => mem_roots_applyPass1 ops recs w.init hRoot
  unfold afterPass1 markExcluded buildXattrLiveSet at hCount ⊢
  dsimp only at hCount ⊢
  rw [mem_foldl_append, hEx, hData, hCount]
  have hInit : w.init.excluded = [] := rfl
  have hInitRoots : w.init.roots = [] := rfl
  have hInitData : w.init.data = w.data := rfl
  rw [hInit, hInitData]
  unfold Marked
  constructor
  · rintro (h | ⟨root, hRoot, hMem⟩)
    · cases h
    · by_cases hZero : root = 0
      · subst hZero
        cases hMem
      · rw [hRoots hZero, hInitRoots, exists_marksRoot] at hRoot
        rcases hRoot with h | ⟨ino, snap, hRec, rfl⟩
        · cases h
        · exact ⟨ino, snap, hRec, hMem⟩
  · rintro ⟨ino, snap, hRec, hMem⟩
    by_cases hZero : snap.dirTrieRoot = 0
    · rw [hZero] at hMem
      cases hMem
    · refine .inr ⟨_, ?_, hMem⟩
      rw [hRoots hZero, exists_marksRoot]
      exact .inr ⟨ino, snap, hRec, rfl⟩

--
-- Popping
--

/-- The blocks that the first `n` calls of
`briefs_journal_replay_pop_trie_block` return, up to the first `-ENOENT`. -/
def pops (dataStart : Nat) (excluded : List Nat) : Nat → List Nat → List Nat
  | 0, _ => []
  | n + 1, pool =>
    match popPool dataStart excluded pool with
    | (some rel, rest) => rel :: pops dataStart excluded n rest
    | (none, _) => []

/-- The entries of the pool that are not excluded. -/
def offered (dataStart : Nat) (excluded pool : List Nat) : List Nat :=
  pool.filter fun rel => decide (dataToAbs dataStart rel ∉ excluded)

theorem offered_of_popPool_some {dataStart rel : Nat} {ex pool rest : List Nat}
    (h : popPool dataStart ex pool = (some rel, rest)) :
    offered dataStart ex pool = rel :: offered dataStart ex rest := by
  unfold offered
  induction pool with
  | nil => cases h
  | cons r pool ih =>
    unfold popPool at h
    split at h
    · rename_i hEx
      rw [List.filter_cons_of_neg (by simpa using hEx)]
      exact ih h
    · rename_i hEx
      cases h
      rw [List.filter_cons_of_pos (by simpa using hEx)]

theorem offered_of_popPool_none {dataStart : Nat} {ex pool rest : List Nat}
    (h : popPool dataStart ex pool = (none, rest)) :
    offered dataStart ex pool = [] ∧ offered dataStart ex rest = [] := by
  unfold offered
  induction pool with
  | nil =>
    cases h
    exact ⟨rfl, rfl⟩
  | cons r pool ih =>
    unfold popPool at h
    split at h
    · rename_i hEx
      rw [List.filter_cons_of_neg (by simpa using hEx)]
      exact ih h
    · cases h

theorem pops_eq_take (dataStart : Nat) (ex : List Nat) : ∀ (n : Nat) (pool : List Nat),
    pops dataStart ex n pool = (offered dataStart ex pool).take n
  | 0, pool => by simp [pops]
  | n + 1, pool => by
    unfold pops
    cases hPop : popPool dataStart ex pool with
    | mk top rest =>
      cases top with
      | some rel =>
        dsimp only
        rw [offered_of_popPool_some hPop, List.take_succ_cons, pops_eq_take dataStart ex n rest]
      | none =>
        dsimp only
        rw [(offered_of_popPool_none hPop).1, List.take_nil]

/-- The blocks that re-derivation took from the pool. -/
def poppedBlocks (history : List Taken) : List Nat :=
  history.filterMap fun e => match e with
    | .popped rel => some rel
    | _ => none

/-- What was popped, followed by what the pool still offers, does not change. -/
def Drains (dataStart : Nat) (ex all : List Nat) (_ : Alloc) (pool : List Nat)
    (h : List Taken) : Prop :=
  poppedBlocks h ++ offered dataStart ex pool = all

theorem stable_drains {dataStart : Nat} {ex all : List Nat} :
    Stable dataStart ex (Drains dataStart ex all) := by
  unfold Drains
  refine ⟨?_, ?_, ?_, ?_⟩
  · intro a pool h rel rest hAll hPop
    rw [offered_of_popPool_some hPop] at hAll
    simpa [poppedBlocks] using hAll
  · intro a a' pool h rel rest hAll hPop _ _
    obtain ⟨hPool, hRest⟩ := offered_of_popPool_none hPop
    rw [hPool] at hAll
    rw [hRest]
    simpa [poppedBlocks] using hAll
  · intro a a' pool h rest hAll hPop _
    obtain ⟨hPool, hRest⟩ := offered_of_popPool_none hPop
    rw [hPool] at hAll
    rw [hRest]
    exact hAll
  · intro a pool h rel n hAll
    simpa [poppedBlocks] using hAll

theorem drains_applyRecord2 {ex all : List Nat} (rec : JRec) {w : World σ}
    (h : Holds ex (Drains ops.dataStart ex all) w) :
    Holds ex (Drains ops.dataStart ex all) (applyRecord ops false rec w).2 := by
  by_cases hDir : ∃ d, rec = .dirUpdate d
  · obtain ⟨d, rfl⟩ := hDir
    exact stable_drains.replayDirUpdate h d
  by_cases hSym : ∃ s, rec = .symlinkData s
  · obtain ⟨s, rfl⟩ := hSym
    exact stable_drains.replaySymlinkData h s
  obtain ⟨hHist, hEx, hPool⟩ := applyRecord2_frame ops rec w (fun d h => hDir ⟨d, h⟩)
    (fun s h => hSym ⟨s, h⟩)
  unfold Holds Drains at h ⊢
  rw [hHist, hEx, hPool]
  exact h

/-- What a replay pops is what the first calls on the pool of pass 1 return. -/
theorem popped_replayRecords (ops : FsOps σ) (recs : List JRec) (w : World σ) :
    ∃ n, poppedBlocks (replayRecords ops recs w).2.history =
      pops ops.dataStart (afterPass1 ops recs w).excluded n (afterPass1 ops recs w).pool := by
  have hStart : Holds (afterPass1 ops recs w).excluded
      (Drains ops.dataStart (afterPass1 ops recs w).excluded
        (offered ops.dataStart (afterPass1 ops recs w).excluded (afterPass1 ops recs w).pool))
      (afterPass1 ops recs w) := by
    have hHist : (afterPass1 ops recs w).history = [] := (applyPass1_frame ops recs w.init).2.1
    unfold Holds Drains
    rw [hHist]
    exact ⟨rfl, rfl⟩
  have hEnd := applyPass_invariant (fun rec (_ : rec ∈ recs) v hv => drains_applyRecord2 rec hv)
    hStart
  have hErr : (applyPass ops true recs w.init).1 = 0 := applyPass1_errors ops recs w.init
  have hHist : (replayRecords ops recs w).2.history =
      (applyPass ops false recs (afterPass1 ops recs w)).2.history := by
    unfold replayRecords
    simp only [hErr, ne_eq, not_true_eq_false, if_false]
    exact (reconcileNlinks_frame ops _).2
  refine ⟨(poppedBlocks (replayRecords ops recs w).2.history).length, ?_⟩
  rw [pops_eq_take, ← hEnd.1, hHist, List.take_left]

--
-- Safety of the pool
--

/-- What a block is used for. -/
inductive Owner where
  | fileData
  | trie
  | xattr
  | free
deriving DecidableEq, Repr

/-- The owner that a record gives to the data-relative block `b`. -/
def JRec.owner (dataStart b : Nat) : JRec → Option Owner
  | .extentAlloc phys len => if b ∈ extentBlocks dataStart phys len then some .fileData else none
  | .extentFree phys len =>
    if absToData dataStart phys ≤ b ∧ b < absToData dataStart phys + len then some .free else none
  | .trieAlloc block op =>
    if b = absToData dataStart block then some (if op = 0 then .trie else .free) else none
  | .xattrData x =>
    if x.physBlock ≠ 0 ∧ b = absToData dataStart x.physBlock then some .xattr else none
  | _ => none

/-- The owner of a block at the end of the window. -/
def lastOwner (dataStart : Nat) (recs : List JRec) (b : Nat) : Option Owner :=
  (recs.filterMap (JRec.owner dataStart b)).getLast?

/-- However often pass 2 pops the pool, the blocks it gets are different, not
reachable from a snapshot at crash time, and at the end of the window neither
file data nor free. -/
structure PoolSafe (ops : FsOps σ) (recs : List JRec) (w : World σ) : Prop where
  once : ∀ n, (pops ops.dataStart (afterPass1 ops recs w).excluded n
    (afterPass1 ops recs w).pool).Nodup
  orphan : ∀ n, ∀ rel ∈ pops ops.dataStart (afterPass1 ops recs w).excluded n
    (afterPass1 ops recs w).pool, ¬ ReachableAtCrash ops recs w (dataToAbs ops.dataStart rel)
  owner : ∀ n, ∀ rel ∈ pops ops.dataStart (afterPass1 ops recs w).excluded n
    (afterPass1 ops recs w).pool,
    lastOwner ops.dataStart recs rel ≠ some .fileData ∧ lastOwner ops.dataStart recs rel ≠ some .free

/-- Every block that a record of the window allocates as a trie page and that
the marking walks leave unmarked is allocated so by one record only and stays a
trie page (or becomes an xattr block) to the end of the window; and the walks
mark every such block that is reachable. -/
structure PoolClean (ops : FsOps σ) (recs : List JRec) (w : World σ) : Prop where
  once : ∀ rel ∈ collected ops.dataStart recs, ¬ Marked ops recs w (dataToAbs ops.dataStart rel) →
    (collected ops.dataStart recs).count rel = 1
  owner : ∀ rel ∈ collected ops.dataStart recs, ¬ Marked ops recs w (dataToAbs ops.dataStart rel) →
    lastOwner ops.dataStart recs rel ≠ some .fileData ∧ lastOwner ops.dataStart recs rel ≠ some .free
  walk : ∀ rel ∈ collected ops.dataStart recs,
    ReachableAtCrash ops recs w (dataToAbs ops.dataStart rel) →
      Marked ops recs w (dataToAbs ops.dataStart rel)

theorem pool_afterPass1 (ops : FsOps σ) (recs : List JRec) (w : World σ) :
    (afterPass1 ops recs w).pool = collected ops.dataStart recs := by
  have hPool := pool_applyPass1 ops recs w.init
  have hInit : w.init.pool = [] := rfl
  rw [hInit, List.append_nil] at hPool
  exact hPool

theorem mem_offered (ops : FsOps σ) (recs : List JRec) (w : World σ) (rel : Nat) :
    rel ∈ offered ops.dataStart (afterPass1 ops recs w).excluded (afterPass1 ops recs w).pool ↔
      rel ∈ collected ops.dataStart recs ∧ ¬ Marked ops recs w (dataToAbs ops.dataStart rel) := by
  unfold offered
  rw [List.mem_filter, pool_afterPass1, decide_eq_true_iff, mem_excluded]

theorem mem_pops {dataStart n rel : Nat} {ex pool : List Nat}
    (h : rel ∈ pops dataStart ex n pool) : rel ∈ offered dataStart ex pool := by
  rw [pops_eq_take] at h
  exact List.mem_of_mem_take h

theorem pops_length (dataStart : Nat) (ex pool : List Nat) :
    pops dataStart ex (offered dataStart ex pool).length pool = offered dataStart ex pool := by
  rw [pops_eq_take, List.take_length]

/-- Among the offered entries a block stands as often as it was collected. -/
theorem count_offered (ops : FsOps σ) (recs : List JRec) (w : World σ) {rel : Nat}
    (h : rel ∈ offered ops.dataStart (afterPass1 ops recs w).excluded
      (afterPass1 ops recs w).pool) :
    (offered ops.dataStart (afterPass1 ops recs w).excluded (afterPass1 ops recs w).pool).count
        rel = (collected ops.dataStart recs).count rel := by
  have hKept := (List.mem_filter.mp h).2
  rw [← pool_afterPass1 ops recs w]
  exact List.count_filter hKept

/-- **The replay pool.** All pops are safe exactly when the window is clean:
entries leave the pool only by being marked, so every other block that the
window ever allocated as a trie page is handed out, once for each record. Walks
that are cut off nowhere mark all that is reachable, and what a replay pops is
the beginning of these pops. -/
theorem replay_pool_safe_iff (ops : FsOps σ) (recs : List JRec) (w : World σ) :
    (PoolSafe ops recs w ↔ PoolClean ops recs w) ∧
      (WalksComplete ops recs w →
        ∀ abs, ReachableAtCrash ops recs w abs → Marked ops recs w abs) ∧
      ∃ n, poppedBlocks (replayRecords ops recs w).2.history =
        pops ops.dataStart (afterPass1 ops recs w).excluded n (afterPass1 ops recs w).pool := by
  refine ⟨⟨?_, ?_⟩, fun hWalks abs h => marked_of_reachable hWalks h,
    popped_replayRecords ops recs w⟩
  · intro hSafe
    -- enough calls return everything that is offered
    have hAll := pops_length ops.dataStart (afterPass1 ops recs w).excluded
      (afterPass1 ops recs w).pool
    have hOnce := hSafe.once (offered ops.dataStart (afterPass1 ops recs w).excluded
      (afterPass1 ops recs w).pool).length
    have hOrphan := hSafe.orphan (offered ops.dataStart (afterPass1 ops recs w).excluded
      (afterPass1 ops recs w).pool).length
    have hOwner := hSafe.owner (offered ops.dataStart (afterPass1 ops recs w).excluded
      (afterPass1 ops recs w).pool).length
    rw [hAll] at hOnce hOrphan hOwner
    refine ⟨?_, ?_, ?_⟩
    · intro rel hRel hMark
      have hMem := (mem_offered ops recs w rel).mpr ⟨hRel, hMark⟩
      rw [← count_offered ops recs w hMem]
      exact List.nodup_iff_count_eq_one.mp hOnce rel hMem
    · intro rel hRel hMark
      exact hOwner rel ((mem_offered ops recs w rel).mpr ⟨hRel, hMark⟩)
    · intro rel hRel hReach
      by_contra hMark
      exact hOrphan rel ((mem_offered ops recs w rel).mpr ⟨hRel, hMark⟩) hReach
  · intro hClean
    refine ⟨?_, ?_, ?_⟩
    · intro n
      rw [pops_eq_take]
      refine List.Nodup.sublist (List.take_sublist _ _) ?_
      refine List.nodup_iff_count_eq_one.mpr ?_
      intro rel hMem
      obtain ⟨hRel, hMark⟩ := (mem_offered ops recs w rel).mp hMem
      rw [count_offered ops recs w hMem]
      exact hClean.once rel hRel hMark
    · intro n rel hPop hReach
      obtain ⟨hRel, hMark⟩ := (mem_offered ops recs w rel).mp (mem_pops hPop)
      exact hMark (hClean.walk rel hRel hReach)
    · intro n rel hPop
      obtain ⟨hRel, hMark⟩ := (mem_offered ops recs w rel).mp (mem_pops hPop)
      exact hClean.owner rel hRel hMark

/-- A trie page freed and reused as file data, and a directory entry after it. -/
def trieReuseWindow : List JRec :=
  [.trieAlloc 227 0, .trieAlloc 227 1, .extentAlloc 227 1,
   .dirUpdate { parentIno := 1, childIno := 2, op := 0, ftype := 8, name := [97] }]

/-- Replay of that window succeeds, and the page it initialises for the
directory is the file's block. -/
theorem replay_pops_file_data :
    (replayRecords emptyDirOps trieReuseWindow emptyDirWorld).1 = none ∧
      poppedBlocks (replayRecords emptyDirOps trieReuseWindow emptyDirWorld).2.history = [127] ∧
      lastOwner emptyDirOps.dataStart trieReuseWindow 127 = some .fileData ∧
      ¬ PoolSafe emptyDirOps trieReuseWindow emptyDirWorld := by
  refine ⟨by decide, by decide, by decide, ?_⟩
  intro h
  exact (h.owner 1 127 (by decide)).1 (by decide)

end Briefs.Replay
