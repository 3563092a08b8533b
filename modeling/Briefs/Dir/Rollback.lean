import Briefs.Dir.Faults

/-!
# BrieFS — what a failed rename leaves behind

`briefs_rename` undoes a failed rename by hand, in three functions. Each of them is taken
call by call here, with the state that every failure leaves. Without a target, and in an
exchange, the rollback restores everything unless one of its own calls fails. A target,
however, is removed first and put back only by the failures right after its removal,
and its link count not even by these: the label `fail` knows nothing of the target.

## Results

* `rename_unchanged_iff` — exactly when a rename that fails leaves names, parents and
  link counts as they were.
* `rename_loses_target` — a failure after the target was removed does not restore it.
-/

namespace Briefs.Dir

--
-- The stages
--

section Stages

variable {F : Faults} {c : Call} {fs fs₀ fs' : Fs} {f : Failure}

/-- A state of a rename after the entries are in place: it differs from the state at the
call, up to the entries, in what the rollback puts back. -/
def Moved (fs₀ : Fs) (c : Call) (g : Fs) : Prop :=
  OnlyMoved (fun x => crosses fs₀ c = true ∧ (x = c.oldDir ∨ x = c.newDir))
    (fun x => crosses fs₀ c = true ∧ x = c.src) fs₀ g

theorem ends_settle (fs₀ : Fs) {P Q : Fs → Prop} {undo : Fs → Fs}
    (hFail : ∀ g, g.dirents = fs.dirents → (fs.counts = fs₀.counts → Moved fs₀ c g) → Q (undo g))
    (hOk : ∀ g, g.dirents = fs.dirents → (fs.counts = fs₀.counts → Moved fs₀ c g) → P g) :
    Ends (settle F c undo fs) P Q := by
  have hNames : (crossLinks c fs).dirents = fs.dirents := by
    unfold crossLinks
    split
    · rfl
    · rfl
  have hMoved : fs.counts = fs₀.counts → Moved fs₀ c (crossLinks c fs) := onlyMoved_crossLinks c
  unfold settle
  dsimp only
  generalize crossLinks c fs = fs₁ at hNames hMoved
  have hMoved₂ := fun h => OnlyMoved.updateParentDir (hMoved h) c.oldDir
  generalize hfs : (if (c.oldDir != c.newDir) = true then
    (fs₁.updateParentDir c.oldDir 0 0).updateParentDir c.newDir 0 0
    else fs₁.updateParentDir c.oldDir 0 0) = fs₃
  have hLast : fs₃.dirents = fs.dirents ∧ (fs.counts = fs₀.counts → Moved fs₀ c fs₃) := by
    rw [← hfs]
    split
    · exact ⟨hNames, fun h => OnlyMoved.updateParentDir (hMoved₂ h) c.newDir⟩
    · exact ⟨hNames, hMoved₂⟩
  refine ends_check (fun _ => hFail _ hNames hMoved) fun _ => ?_
  refine ends_check (fun _ => hFail _ hNames hMoved₂) fun _ => ?_
  refine ends_check (fun _ => hFail _ hLast.1 hLast.2) fun _ => ?_
  refine ends_check (fun _ => hFail _ hLast.1 hLast.2) fun _ => ?_
  exact hOk _ hLast.1 hLast.2

/-- The names after the rollback of a plain rename or a whiteout, from the names `N` at the
failure. -/
def undoneNames (F : Faults) (c : Call) (added : Bool) (N : Nat × Name → Option Nat) :
    Nat × Name → Option Nat :=
  let N := if added = true ∧ F.err .undoNew = none then Function.update N c.new none else N
  if F.err .undoOld = none then Function.update N c.old (some c.src) else N

/-- The new name is taken out again, if it was added. -/
theorem undoNew_spec (F : Faults) (hNew : nameFits c.newName) (added : Bool) (fs : Fs) :
    let mid := if added = true then
      orSame (attempt (F.err .undoNew) (fs.removeDirEntry c.newDir c.newName)) fs else fs
    mid.inoAt = (if added = true ∧ F.err .undoNew = none then
      Function.update fs.inoAt c.new none else fs.inoAt) ∧ mid.inodes = fs.inodes := by
  cases added with
  | false => exact ⟨rfl, rfl⟩
  | true =>
    obtain ⟨hNames, hInodes⟩ := orSame_remove fs (F.err .undoNew) c.newDir hNew
    refine ⟨?_, hInodes⟩
    simp only [true_and]
    exact hNames

theorem undoPlain_spec (F : Faults) (hOld : nameFits c.oldName) (hNew : nameFits c.newName) (type : Kind)
    (added : Bool) (fs : Fs) :
    (undoPlain F c type added fs).inoAt = undoneNames F c added fs.inoAt ∧
      (undoPlain F c type added fs).inodes = fs.inodes := by
  unfold undoPlain undoneNames
  dsimp only
  have hMidSpec := undoNew_spec F hNew added fs
  generalize (if added = true then
    orSame (attempt (F.err .undoNew) (fs.removeDirEntry c.newDir c.newName)) fs else fs) = mid
    at hMidSpec ⊢
  obtain ⟨hNames, hInodes⟩ := orSame_add mid (F.err .undoOld) c.oldDir c.src type hOld
  rw [hMidSpec.1] at hNames
  exact ⟨hNames, hInodes.trans hMidSpec.2⟩

/-- Every way in which the part of a plain rename after the target can fail. -/
theorem movePlain_ends {Q : Fs → Prop} (hThere : fs.inoAt c.old = some c.src)
    (hOldFit : nameFits c.oldName) (hNewFit : nameFits c.newName)
    (hFirst : F.err .removeOld ≠ none → Q fs)
    (hEarly : F.err .removeOld = none → F.err .journalOld ≠ none ∨ F.err .addNew ≠ none →
      ∀ g, g.inoAt = undoneNames F c false (Function.update fs.inoAt c.old none) →
        g.inodes = fs.inodes → Q g)
    (hLate : F.err .removeOld = none → F.err .journalOld = none → F.err .addNew = none →
      ∀ g, g.inoAt = undoneNames F c true
          (Function.update (Function.update fs.inoAt c.old none) c.new (some c.src)) →
        (fs.counts = fs₀.counts → g.counts = fs₀.counts) → Q g) :
    Ends (movePlain F c fs₀ fs) (fun _ => True) Q := by
  unfold movePlain
  dsimp only
  have hSome : fs.inoAt (c.oldDir, c.oldName) ≠ none := by
    rw [show (c.oldDir, c.oldName) = c.old from rfl, hThere]
    nofun
  refine ends_remove hOldFit hSome hFirst fun hF₁ fs₁ hNames₁ hInodes₁ => ?_
  obtain ⟨hUndo, hUndoInodes⟩ := undoPlain_spec F hOldFit hNewFit (fs₀.ftype c.src) false fs₁
  rw [hNames₁] at hUndo
  refine ends_check (fun hBad => hEarly hF₁ (Or.inl hBad) _ hUndo (hUndoInodes.trans hInodes₁))
    fun hF₂ => ?_
  refine ends_add hNewFit (fun hBad => hEarly hF₁ (Or.inr hBad) _ hUndo (hUndoInodes.trans hInodes₁))
    fun hF₃ fs₂ hNames₂ hInodes₂ => ?_
  have hUndoLate : ∀ g, g.dirents = fs₂.dirents →
      (undoPlain F c (fs₀.ftype c.src) true g).inoAt = undoneNames F c true
        (Function.update (Function.update fs.inoAt c.old none) c.new (some c.src)) ∧
      (undoPlain F c (fs₀.ftype c.src) true g).counts = g.counts := by
    intro g hg
    obtain ⟨hNames, hInodes⟩ := undoPlain_spec F hOldFit hNewFit (fs₀.ftype c.src) true g
    refine ⟨?_, counts_eq_of_inodes hInodes⟩
    rw [hNames, inoAt_eq_of_dirents hg, hNames₂, hNames₁]
    rfl
  have hSame : fs₂.counts = fs.counts := counts_eq_of_inodes (hInodes₂.trans hInodes₁)
  refine ends_check (fun _ => hLate hF₁ hF₂ hF₃ _ (hUndoLate fs₂ rfl).1 fun hCounts => ?_)
    fun _ => ?_
  · rw [(hUndoLate fs₂ rfl).2, hSame, hCounts]
  · refine ends_settle fs₀ (fun g hg hMoved => ?_) fun _ _ _ => trivial
    have hNames : (restoreLinks fs₀ c g).dirents = fs₂.dirents := by
      rw [restoreLinks_dirents, hg]
    refine hLate hF₁ hF₂ hF₃ _ (hUndoLate _ hNames).1 fun hCounts => ?_
    rw [(hUndoLate _ hNames).2]
    exact counts_restoreLinks c (hMoved (hSame.trans hCounts))

theorem undoTarget_spec (F : Faults) (hNew : nameFits c.newName) (t : Nat) (type : Kind) (fs : Fs) :
    (undoTarget F c t type fs).inoAt = (if F.err .undoTarget = none then
        Function.update fs.inoAt c.new (some t) else fs.inoAt) ∧
      (undoTarget F c t type fs).inodes = fs.inodes :=
  orSame_add fs (F.err .undoTarget) c.newDir t type hNew

/-- An inode that loses its name has another link count. -/
theorem counts_dropLinks_ne (dir : Nat) {t : Nat} {i : Inode} (hi : fs.inodes t = some i)
    (hPos : 0 < i.nlink) (hSmall : i.nlink < linkModulus) :
    ((fs.dropLinks dir t).modify t fun j => { j with nlinks := j.nlink }).counts t ≠
      fs.counts t := by
  have hLess : ∃ j, ((fs.dropLinks dir t).modify t fun j => { j with nlinks := j.nlink }).inodes t =
      some j ∧ j.nlink ≠ i.nlink := by
    unfold Fs.dropLinks
    by_cases hDir : fs.isDir t = true
    · rw [if_pos hDir]
      simp only [modify_inodes, hi, Option.map_some, if_true]
      refine ⟨_, rfl, ?_⟩
      show 0 ≠ i.nlink
      omega
    · rw [if_neg hDir]
      simp only [modify_inodes, hi, Option.map_some, if_true]
      refine ⟨_, rfl, ?_⟩
      show i.dropNlink.nlink ≠ i.nlink
      rw [dropNlink_nlink hPos hSmall]
      omega
  obtain ⟨j, hj, hNe⟩ := hLess
  unfold Fs.counts
  rw [hi, hj]
  intro hEq
  simp only [Option.map_some, Option.some.injEq, Prod.mk.injEq] at hEq
  exact hNe hEq.2.1

theorem dropLinks_inodes_none {dir t x : Nat} (hx : fs.inodes x = none) :
    (fs.dropLinks dir t).inodes x = none := by
  unfold Fs.dropLinks
  split
  · rw [modify_inodes, modify_inodes, hx]
    rfl
  · rw [modify_inodes, hx]
    rfl

/-- The removal of a target `t` fails harmlessly. -/
def TargetKept (F : Faults) (fs : Fs) (t : Nat) : Prop :=
  (fs.isDir t = true ∧ (F.err .scan ≠ none ∨ (F.blind = false ∧ fs.emptyDir t = false))) ∨
    F.err .removeTarget ≠ none ∨ (F.err .journalTarget ≠ none ∧ F.err .undoTarget = none)

theorem unchanged_refl (fs : Fs) : Unchanged fs fs := ⟨rfl, rfl⟩

theorem takeTarget_ends {t : Nat} (h : Posed fs c) (hTarget : c.target = some t) :
    Ends (takeTarget F c t fs)
      (fun g => ¬ TargetKept F fs t ∧ g.inoAt = Function.update fs.inoAt c.new none ∧
        g.counts t ≠ fs.counts t ∧ ∀ x, fs.inodes x = none → g.inodes x = none)
      (fun fs' => Unchanged fs fs' ↔ TargetKept F fs t) := by
  obtain ⟨i, hi, hPos, hSmall⟩ := h.linked t hTarget
  have hThere : fs.inoAt c.new = some t := h.new.trans hTarget
  have hSome : fs.inoAt (c.newDir, c.newName) ≠ none := by
    rw [show (c.newDir, c.newName) = c.new from rfl, hThere]
    nofun
  have hKept : ∀ {p : Prop}, p → (Unchanged fs fs ↔ p) :=
    fun hp => ⟨fun _ => hp, fun _ => unchanged_refl fs⟩
  unfold takeTarget
  dsimp only
  refine ends_check (fun hBad => ?_) fun hScan => ?_
  · refine hKept (Or.inl ?_)
    unfold when at hBad
    split at hBad
    · rename_i hDir
      exact ⟨hDir, Or.inl hBad⟩
    · exact absurd rfl hBad
  by_cases hFull : (fs.isDir t && !F.blind && !fs.emptyDir t) = true
  · rw [if_pos hFull]
    refine hKept (Or.inl ?_)
    simp only [Bool.and_eq_true, Bool.not_eq_true'] at hFull
    exact ⟨hFull.1.1, Or.inr ⟨hFull.1.2, hFull.2⟩⟩
  rw [if_neg hFull]
  show Ends (edit (attempt (F.err .removeTarget) (fs.removeDirEntry c.newDir c.newName)) fs >>= _) _ _
  refine ends_remove h.newFit hSome (fun hBad => hKept (Or.inr (Or.inl hBad)))
    fun hRemove fs₁ hNames₁ hInodes₁ => ?_
  -- from here on only a rollback keeps the target
  have hOnly : TargetKept F fs t ↔ F.err .journalTarget ≠ none ∧ F.err .undoTarget = none := by
    unfold TargetKept
    constructor
    · rintro (⟨hDir, hScanned | ⟨hBlind, hNot⟩⟩ | hBad | hBoth)
      · unfold when at hScan
        rw [if_pos hDir] at hScan
        exact absurd hScan hScanned
      · refine absurd ?_ hFull
        rw [hDir, hBlind, hNot]
        rfl
      · exact absurd hRemove hBad
      · exact hBoth
    · intro hBoth
      exact Or.inr (Or.inr hBoth)
  have hDrop := counts_dropLinks_ne c.newDir ((congrFun hInodes₁ t).trans hi) hPos hSmall
  rw [counts_eq_of_inodes hInodes₁] at hDrop
  refine ends_check (fun hBad => ?_) fun hJournal => ?_
  · obtain ⟨hNames, hInodes⟩ := undoTarget_spec F h.newFit t (fs.ftype t) fs₁
    rw [hOnly]
    by_cases hUndo : F.err .undoTarget = none
    · refine ⟨fun _ => ⟨hBad, hUndo⟩, fun _ => ⟨?_, counts_eq_of_inodes (hInodes.trans hInodes₁)⟩⟩
      rw [hNames, if_pos hUndo, hNames₁]
      show Function.update (Function.update fs.inoAt c.new none) c.new (some t) = fs.inoAt
      rw [Function.update_idem, ← hThere, Function.update_eq_self]
    · refine ⟨fun hSame => ?_, fun hBoth => absurd hBoth.2 hUndo⟩
      have hAt := congrFun hSame.1 c.new
      rw [hNames, if_neg hUndo, hNames₁, hThere, show (c.newDir, c.newName) = c.new from rfl,
        Function.update_self] at hAt
      cases hAt
  · have hNot : ¬ TargetKept F fs t := by
      rw [hOnly]
      exact fun hBoth => hBoth.1 hJournal
    have hNo : ∀ g : Fs, g.counts t ≠ fs.counts t → (Unchanged fs g ↔ TargetKept F fs t) :=
      fun g hNe => ⟨fun hSame => absurd (congrFun hSame.2 t) hNe, fun hYes => absurd hYes hNot⟩
    refine ends_check (fun _ => hNo _ ?_) fun _ => ?_
    · rw [counts_eq_of_inodes (undoTarget_spec F h.newFit t (fs.ftype t) _).2]
      exact hDrop
    · have hParent : ∀ g : Fs, (g.updateParentDir c.newDir 0 0).counts = g.counts := fun g =>
        ((onlyMoved_of_counts (D := fun _ => False) (M := fun _ => False) rfl).updateParentDir
          c.newDir).counts (fun _ => id) fun _ => id
      refine ends_check (fun _ => hNo _ ?_) fun _ => ?_
      · rw [counts_eq_of_inodes (undoTarget_spec F h.newFit t (fs.ftype t) _).2, hParent]
        exact hDrop
      · refine ⟨hNot, ?_, ?_, ?_⟩
        · rw [← show (c.newDir, c.newName) = c.new from rfl, ← hNames₁]
          refine inoAt_eq_of_dirents ?_
          show (fs₁.dropLinks c.newDir t).dirents = fs₁.dirents
          unfold Fs.dropLinks
          split
          · rfl
          · rfl
        · rw [hParent]
          exact hDrop
        · intro x hx
          unfold Fs.updateParentDir
          rw [modify_inodes, modify_inodes, dropLinks_inodes_none ((congrFun hInodes₁ x).trans hx)]
          rfl

theorem inodes_abort_new {ino : Nat} (hFree : fs.inodes ino = none) {g : Fs}
    (hNew : g.inodes = fun x => if x = ino then some (freshInode c.oldDir .special 0) else
      fs.inodes x) : (abortInode ino g).inodes = fs.inodes := by
  funext x
  show (if x = ino then none else g.inodes x) = fs.inodes x
  by_cases hx : x = ino
  · rw [if_pos hx, hx, hFree]
  · rw [if_neg hx, hNew]
    dsimp only
    rw [if_neg hx]

/-- The state with one more inode. -/
def withInode (ino : Nat) (i : Inode) (fs : Fs) : Fs :=
  { fs with inodes := fun x => if x = ino then some i else fs.inodes x }

theorem counts_withInode {ino : Nat} {i : Inode} {g : Fs} (h : fs.counts = fs₀.counts)
    (hg : g.inodes = fun x => if x = ino then some i else fs.inodes x) :
    g.counts = (withInode ino i fs₀).counts := by
  funext x
  have hx := congrFun h x
  unfold Fs.counts withInode at *
  rw [hg]
  dsimp only
  by_cases hIs : x = ino
  · rw [if_pos hIs, if_pos hIs]
  · rw [if_neg hIs, if_neg hIs]
    exact hx

theorem counts_abort_withInode {ino : Nat} {i : Inode} {g : Fs} (hFree : fs₀.inodes ino = none)
    (h : g.counts = (withInode ino i fs₀).counts) : (abortInode ino g).counts = fs₀.counts := by
  funext x
  have hx := congrFun h x
  unfold Fs.counts abortInode withInode at *
  dsimp only at *
  by_cases hIs : x = ino
  · rw [if_pos hIs, hIs, hFree]
  · rw [if_neg hIs] at hx ⊢
    exact hx

theorem restoreLinks_withInode {ino : Nat} {i : Inode} {g : Fs}
    (hAlive : (fs₀.inodes c.oldDir).isSome = true ∧ (fs₀.inodes c.newDir).isSome = true ∧
      (fs₀.inodes c.src).isSome = true) (hFree : fs₀.inodes ino = none) :
    restoreLinks fs₀ c g = restoreLinks (withInode ino i fs₀) c g := by
  have hSame : ∀ x, (fs₀.inodes x).isSome = true → (withInode ino i fs₀).inodes x = fs₀.inodes x := by
    intro x hx
    unfold withInode
    dsimp only
    rw [if_neg]
    rintro rfl
    rw [hFree] at hx
    cases hx
  unfold restoreLinks restoreParent restoreNlink
  rw [hSame _ hAlive.1, hSame _ hAlive.2.1, hSame _ hAlive.2.2]

theorem ends_newInode {α : Type} {P : α → Prop} {Q : Fs → Prop} {undone : Fs} {ino : Nat}
    {rest : Fs → Except (Failure × Fs) α} {fault : Option Fault} (hFree : fs.inodes ino = none)
    (hFail : fault ≠ none → Q undone)
    (hOk : fault = none → ∀ fs', fs'.dirents = fs.dirents →
      fs'.inodes = (fun x => if x = ino then some (freshInode c.oldDir .special 0) else
        fs.inodes x) → Ends (rest fs') P Q) :
    Ends (edit (attempt fault (fs.newInode c.oldDir ino .special 0)) undone >>= rest) P Q := by
  cases fault with
  | some f => exact hFail nofun
  | none =>
    unfold Fs.newInode
    rw [if_neg (by simp [hFree])]
    exact hOk rfl _ rfl rfl

theorem undoWhiteout_spec (F : Faults) (ino : Nat) (hNew : nameFits c.newName)
    (hApart : c.old ≠ c.new) (type : Kind) (added : Bool) {fs : Fs} (hThere : fs.inoAt c.old ≠ none) :
    (undoWhiteout F c ino type added fs).inoAt = undoneNames F c added fs.inoAt ∧
      (undoWhiteout F c ino type added fs).inodes = (abortInode ino fs).inodes := by
  unfold undoWhiteout undoneNames
  dsimp only
  have hMidSpec := undoNew_spec F hNew added fs
  generalize (if added = true then
    orSame (attempt (F.err .undoNew) (fs.removeDirEntry c.newDir c.newName)) fs else fs) = mid
    at hMidSpec ⊢
  have hStill : mid.inoAt (c.oldDir, c.oldName) ≠ none := by
    rw [hMidSpec.1, show (c.oldDir, c.oldName) = c.old from rfl]
    split
    · rw [Function.update_of_ne hApart]
      exact hThere
    · exact hThere
  obtain ⟨hNames, hInodes⟩ := orSame_repoint mid (F.err .undoOld) c.src type hStill
  rw [hMidSpec.1] at hNames
  refine ⟨hNames, ?_⟩
  unfold abortInode
  dsimp only
  rw [hInodes, hMidSpec.2]

/-- Every way in which the part of a whiteout rename after the target can fail. -/
theorem moveWhiteout_ends {Q : Fs → Prop} {ino : Nat} (hPosed : Posed fs₀ c)
    (hThere : fs.inoAt c.old = some c.src) (hFree : fs.inodes ino = none)
    (hFree₀ : fs₀.inodes ino = none)
    (hFirst : F.err .newWhiteout ≠ none ∨ F.err .snapshotWhiteout ≠ none ∨ F.err .repointOld ≠ none →
      ∀ g, g.inoAt = fs.inoAt → g.inodes = fs.inodes → Q (undoTargetOf F c fs₀ g))
    (hEarly : F.err .newWhiteout = none → F.err .snapshotWhiteout = none → F.err .repointOld = none →
      F.err .journalOld ≠ none ∨ F.err .journalWhiteout ≠ none ∨ F.err .addNew ≠ none →
      ∀ g, g.inoAt = undoneNames F c false (Function.update fs.inoAt c.old (some ino)) →
        g.inodes = fs.inodes → Q g)
    (hLate : F.err .newWhiteout = none → F.err .snapshotWhiteout = none → F.err .repointOld = none →
      F.err .journalOld = none → F.err .journalWhiteout = none → F.err .addNew = none →
      ∀ g, g.inoAt = undoneNames F c true
          (Function.update (Function.update fs.inoAt c.old (some ino)) c.new (some c.src)) →
        (fs.counts = fs₀.counts → g.counts = fs₀.counts) → Q g) :
    Ends (moveWhiteout F c ino fs₀ fs) (fun _ => True) Q := by
  have hApart := hPosed.apart
  have hSome : fs.inoAt c.old ≠ none := by
    rw [hThere]
    nofun
  unfold moveWhiteout
  dsimp only
  refine ends_newInode hFree (fun hBad => hFirst (Or.inl hBad) fs rfl rfl)
    fun hF₁ fs₁ hNames₁ hInodes₁ => ?_
  have hAbort : (abortInode ino fs₁).inoAt = fs.inoAt := inoAt_eq_of_dirents hNames₁
  have hAborted := inodes_abort_new hFree hInodes₁
  refine ends_check (fun hBad => hFirst (Or.inr (Or.inl hBad)) _ hAbort hAborted) fun hF₂ => ?_
  have hSome₁ : fs₁.inoAt (c.oldDir, c.oldName) ≠ none := by
    rw [inoAt_eq_of_dirents hNames₁]
    exact hSome
  refine ends_repoint hSome₁ (fun hBad => hFirst (Or.inr (Or.inr hBad)) _ hAbort hAborted)
    fun hF₃ fs₂ hNames₂ hInodes₂ => ?_
  rw [inoAt_eq_of_dirents hNames₁, show (c.oldDir, c.oldName) = c.old from rfl] at hNames₂
  have hThere₂ : fs₂.inoAt c.old ≠ none := by
    rw [hNames₂, Function.update_self]
    nofun
  obtain ⟨hUndo, hUndoInodes⟩ :=
    undoWhiteout_spec F ino hPosed.newFit hApart (fs₀.ftype c.src) false hThere₂
  have hUndone : (undoWhiteout F c ino (fs₀.ftype c.src) false fs₂).inodes = fs.inodes :=
    hUndoInodes.trans (inodes_abort_new hFree (hInodes₂.trans hInodes₁))
  rw [hNames₂] at hUndo
  refine ends_check (fun hBad => hEarly hF₁ hF₂ hF₃ (Or.inl hBad) _ hUndo hUndone) fun hF₄ => ?_
  refine ends_check (fun hBad => hEarly hF₁ hF₂ hF₃ (Or.inr (Or.inl hBad)) _ hUndo hUndone)
    fun hF₅ => ?_
  refine ends_add hPosed.newFit
    (fun hBad => hEarly hF₁ hF₂ hF₃ (Or.inr (Or.inr hBad)) _ hUndo hUndone)
    fun hF₆ fs₃ hNames₃ hInodes₃ => ?_
  rw [hNames₂, show (c.newDir, c.newName) = c.new from rfl] at hNames₃
  have hInodes : fs₃.inodes = fun x => if x = ino then some (freshInode c.oldDir .special 0) else
      fs.inodes x := hInodes₃.trans (hInodes₂.trans hInodes₁)
  have hThere₃ : fs₃.inoAt c.old ≠ none := by
    rw [hNames₃, Function.update_of_ne hApart, Function.update_self]
    nofun
  have hUndoLate : ∀ g, g.dirents = fs₃.dirents →
      (undoWhiteout F c ino (fs₀.ftype c.src) true g).inoAt = undoneNames F c true
        (Function.update (Function.update fs.inoAt c.old (some ino)) c.new (some c.src)) ∧
      (undoWhiteout F c ino (fs₀.ftype c.src) true g).inodes = (abortInode ino g).inodes := by
    intro g hg
    have hThereG : g.inoAt c.old ≠ none := by
      rw [inoAt_eq_of_dirents hg]
      exact hThere₃
    obtain ⟨hNames, hRest⟩ :=
      undoWhiteout_spec F ino hPosed.newFit hApart (fs₀.ftype c.src) true hThereG
    refine ⟨?_, hRest⟩
    rw [hNames, inoAt_eq_of_dirents hg, hNames₃]
  refine ends_check (fun _ => hLate hF₁ hF₂ hF₃ hF₄ hF₅ hF₆ _ (hUndoLate fs₃ rfl).1 fun hCounts => ?_)
    fun _ => ?_
  · rw [counts_eq_of_inodes ((hUndoLate fs₃ rfl).2.trans (inodes_abort_new hFree hInodes)), hCounts]
  · -- the rollback is compared with the state at the call, the whiteout inode added
    have hQ : ∀ g, g.dirents = fs₃.dirents →
        (fs₃.counts = (withInode ino (freshInode c.oldDir .special 0) fs₀).counts →
          Moved (withInode ino (freshInode c.oldDir .special 0) fs₀) c g) →
        Q (undoWhiteout F c ino (fs₀.ftype c.src) true (restoreLinks fs₀ c g)) := by
      intro g hg hMoved
      have hNames : (restoreLinks fs₀ c g).dirents = fs₃.dirents := by
        rw [restoreLinks_dirents, hg]
      refine hLate hF₁ hF₂ hF₃ hF₄ hF₅ hF₆ _ (hUndoLate _ hNames).1 fun hCounts => ?_
      have hWith := hMoved (counts_withInode hCounts hInodes)
      rw [counts_eq_of_inodes (hUndoLate _ hNames).2, restoreLinks_withInode hPosed.alive hFree₀]
      exact counts_abort_withInode hFree₀ (counts_restoreLinks c hWith)
    refine ends_bind (R := fun g => g.dirents = fs₃.dirents ∧
      (fs₃.counts = (withInode ino (freshInode c.oldDir .special 0) fs₀).counts →
        Moved (withInode ino (freshInode c.oldDir .special 0) fs₀) c g))
      (ends_settle _ hQ fun g hg hMoved => ⟨hg, hMoved⟩) ?_
    rintro g ⟨hg, hMoved⟩
    exact ends_check (fun _ => hQ g hg hMoved) fun _ => trivial

--
-- The exchange, undone
--

/-- The entry at one name after the rollback of an exchange, from the entry `n` at the
failure: it is removed and the original one added. -/
def putBack (remove add : Option Fault) (original n : Option Nat) : Option Nat :=
  if add = none then original else if remove = none then none else n

theorem undoExchange_spec (hPosed : Posed fs₀ c) {t : Nat} (oldType newType : Kind) (fs : Fs) :
    (undoExchange F c t oldType newType fs).inoAt =
        Function.update (Function.update fs.inoAt c.old
          (putBack (F.err .undoRemoveOld) (F.err .undoOld) (some c.src) (fs.inoAt c.old))) c.new
          (putBack (F.err .undoRemoveNew) (F.err .undoNew) (some t) (fs.inoAt c.new)) ∧
      (undoExchange F c t oldType newType fs).inodes = fs.inodes := by
  have hApart := hPosed.apart
  unfold undoExchange
  dsimp only
  have hSide : ∀ (fs : Fs) (dir : Nat) (name : Name) (ino : Nat) (type : Kind)
      (remove add : Option Fault), nameFits name →
      (orSame (attempt add ((orSame (attempt remove (fs.removeDirEntry dir name)) fs).addDirEntry
          dir name ino type)) (orSame (attempt remove (fs.removeDirEntry dir name)) fs)).inoAt =
        Function.update fs.inoAt (dir, name)
          (putBack remove add (some ino) (fs.inoAt (dir, name))) ∧
      (orSame (attempt add ((orSame (attempt remove (fs.removeDirEntry dir name)) fs).addDirEntry
          dir name ino type)) (orSame (attempt remove (fs.removeDirEntry dir name)) fs)).inodes =
        fs.inodes := by
    intro fs dir name ino type remove add hFit
    obtain ⟨hNames, hInodes⟩ := orSame_remove fs remove dir hFit
    generalize orSame (attempt remove (fs.removeDirEntry dir name)) fs = mid at hNames hInodes
    obtain ⟨hNames', hInodes'⟩ := orSame_add mid add dir ino type hFit
    refine ⟨?_, hInodes'.trans hInodes⟩
    rw [hNames', hNames]
    unfold putBack
    by_cases hAdd : add = none
    · rw [if_pos hAdd, if_pos hAdd]
      by_cases hRemove : remove = none
      · rw [if_pos hRemove, Function.update_idem]
      · rw [if_neg hRemove]
    · rw [if_neg hAdd, if_neg hAdd]
      by_cases hRemove : remove = none
      · rw [if_pos hRemove, if_pos hRemove]
      · rw [if_neg hRemove, if_neg hRemove, Function.update_eq_self]
  obtain ⟨hOld, hOldInodes⟩ := hSide fs c.oldDir c.oldName c.src oldType (F.err .undoRemoveOld)
    (F.err .undoOld) hPosed.oldFit
  generalize orSame (attempt (F.err .undoOld) ((orSame (attempt (F.err .undoRemoveOld)
    (fs.removeDirEntry c.oldDir c.oldName)) fs).addDirEntry c.oldDir c.oldName c.src oldType))
    (orSame (attempt (F.err .undoRemoveOld) (fs.removeDirEntry c.oldDir c.oldName)) fs) = mid
    at hOld hOldInodes
  obtain ⟨hNew, hNewInodes⟩ := hSide mid c.newDir c.newName t newType (F.err .undoRemoveNew)
    (F.err .undoNew) hPosed.newFit
  refine ⟨?_, hNewInodes.trans hOldInodes⟩
  rw [hNew, hOld]
  show Function.update _ c.new _ = _
  rw [show (c.newDir, c.newName) = c.new from rfl, show (c.oldDir, c.oldName) = c.old from rfl,
    Function.update_of_ne hApart.symm]

/-- The rollback restores the names exactly if it restores both. -/
theorem swap_names_iff {t : Nat} (hPosed : Posed fs₀ c) (hTarget : c.target = some t)
    {N : Nat × Name → Option Nat} (hElse : ∀ p, p ≠ c.old → p ≠ c.new → N p = fs₀.inoAt p)
    (a b : Option Nat) :
    Function.update (Function.update N c.old a) c.new b = fs₀.inoAt ↔
      a = some c.src ∧ b = some t := by
  have hApart := hPosed.apart
  constructor
  · intro hEq
    have hOld := congrFun hEq c.old
    have hNew := congrFun hEq c.new
    rw [Function.update_of_ne hApart, Function.update_self, hPosed.old] at hOld
    rw [Function.update_self, hPosed.new, hTarget] at hNew
    exact ⟨hOld, hNew⟩
  · rintro ⟨rfl, rfl⟩
    funext p
    by_cases hNew : p = c.new
    · rw [hNew, Function.update_self, hPosed.new, hTarget]
    · rw [Function.update_of_ne hNew]
      by_cases hOld : p = c.old
      · rw [hOld, Function.update_self, hPosed.old]
      · rw [Function.update_of_ne hOld]
        exact hElse p hOld hNew

theorem putBack_eq_iff {remove add : Option Fault} {x n : Option Nat} (hx : x ≠ none) :
    putBack remove add x n = x ↔ add = none ∨ (remove ≠ none ∧ n = x) := by
  unfold putBack
  by_cases hAdd : add = none
  · rw [if_pos hAdd]
    exact ⟨fun _ => Or.inl hAdd, fun _ => rfl⟩
  · rw [if_neg hAdd]
    by_cases hRemove : remove = none
    · rw [if_pos hRemove]
      refine ⟨fun hEq => absurd hEq.symm hx, ?_⟩
      rintro (hBad | ⟨hBad, -⟩)
      · exact absurd hBad hAdd
      · exact absurd hRemove hBad
    · rw [if_neg hRemove]
      refine ⟨fun hEq => Or.inr ⟨hRemove, hEq⟩, ?_⟩
      rintro (hBad | ⟨-, hEq⟩)
      · exact absurd hBad hAdd
      · exact hEq

/-- What an exchange moves between two parents. -/
def SwapMoved (fs₀ : Fs) (c : Call) (t : Nat) (g : Fs) : Prop :=
  OnlyMoved
    (fun x => c.oldDir ≠ c.newDir ∧ (fs₀.isDir c.src = true ∨ fs₀.isDir t = true) ∧
      (x = c.oldDir ∨ x = c.newDir))
    (fun x => c.oldDir ≠ c.newDir ∧ ((fs₀.isDir c.src = true ∧ x = c.src) ∨
      (fs₀.isDir t = true ∧ x = t))) fs₀ g

theorem OnlyMoved.carryLink {D M : Nat → Prop} {g : Fs} (h : OnlyMoved D M fs₀ g) {cross : Bool}
    {ino a b : Nat}
    (hD : cross = true → fs₀.isDir ino = true → D a ∧ D b ∧ M ino) :
    OnlyMoved D M fs₀ (g.carryLink cross ino a b) := by
  unfold Fs.carryLink
  by_cases hBoth : (cross && g.isDir ino) = true
  · rw [if_pos hBoth]
    rw [Bool.and_eq_true, h.isDir ino] at hBoth
    obtain ⟨hA, hB, hM⟩ := hD hBoth.1 hBoth.2
    exact ((h.parent hM b).nlink hA dropNlink_keeps).nlink hB incNlink_keeps
  · rw [if_neg hBoth]
    exact h

theorem counts_restoreBoth {t : Nat} {g : Fs} (h : SwapMoved fs₀ c t g) :
    (restoreBoth fs₀ c t g).counts = fs₀.counts := by
  unfold restoreBoth
  rw [h.isDir c.src, h.isDir t]
  by_cases hBoth : c.oldDir ≠ c.newDir ∧ (fs₀.isDir c.src || fs₀.isDir t) = true
  · rw [if_pos hBoth]
    dsimp only
    have hLinks := (h.restoreNlink c.oldDir).restoreNlink c.newDir
    generalize restoreNlink fs₀ c.newDir (restoreNlink fs₀ c.oldDir g) = g₁ at hLinks
    have hFirst : OnlyMoved (fun _ => False)
        (fun x => fs₀.isDir t = true ∧ x = t ∧ ¬ (fs₀.isDir c.src = true ∧ x = c.src)) fs₀
        (if g₁.isDir c.src = true then restoreParent fs₀ c.src g₁ else g₁) := by
      rw [hLinks.isDir c.src]
      by_cases hSrc : fs₀.isDir c.src = true
      · rw [if_pos hSrc]
        refine (hLinks.restoreParent c.src).weaken ?_ ?_
        · rintro x ⟨⟨⟨-, -, hOld | hNew⟩, hNotOld⟩, hNotNew⟩
          · exact hNotOld hOld
          · exact hNotNew hNew
        · rintro x ⟨⟨-, ⟨-, hIs⟩ | ⟨hDir, hIs⟩⟩, hNot⟩
          · exact absurd hIs hNot
          · exact ⟨hDir, hIs, fun hBad => hNot hBad.2⟩
      · rw [if_neg hSrc]
        refine hLinks.weaken ?_ ?_
        · rintro x ⟨⟨⟨-, -, hOld | hNew⟩, hNotOld⟩, hNotNew⟩
          · exact hNotOld hOld
          · exact hNotNew hNew
        · rintro x ⟨-, ⟨hDir, -⟩ | ⟨hDir, hIs⟩⟩
          · exact absurd hDir hSrc
          · exact ⟨hDir, hIs, fun hBad => hSrc hBad.1⟩
    generalize (if g₁.isDir c.src = true then restoreParent fs₀ c.src g₁ else g₁) = g₂ at hFirst
    rw [hFirst.isDir t]
    by_cases hT : fs₀.isDir t = true
    · rw [if_pos hT]
      refine (hFirst.restoreParent t).counts (fun _ => id) ?_
      rintro x ⟨⟨-, hIs, -⟩, hNot⟩
      exact hNot hIs
    · rw [if_neg hT]
      exact hFirst.counts (fun _ => id) fun x hx => hT hx.1
  · rw [if_neg hBoth]
    refine h.counts ?_ ?_
    · rintro x ⟨hCross, hDir, -⟩
      exact hBoth ⟨hCross, by simpa using hDir⟩
    · rintro x ⟨hCross, ⟨hDir, -⟩ | ⟨hDir, -⟩⟩
      · exact hBoth ⟨hCross, by simp [hDir]⟩
      · exact hBoth ⟨hCross, by simp [hDir]⟩

theorem restoreBoth_dirents (fs₀ : Fs) (c : Call) (t : Nat) (g : Fs) :
    (restoreBoth fs₀ c t g).dirents = g.dirents := by
  unfold restoreBoth
  split
  · dsimp only
    split
    · split
      · rfl
      · rfl
    · split
      · rfl
      · rfl
  · rfl

/-- The rollback of an exchange puts both entries back, or did not touch them. -/
def SwapKept (F : Faults) : Prop :=
  (F.err .undoOld = none ∨ (F.err .undoRemoveOld ≠ none ∧ F.err .removeOld ≠ none)) ∧
  (F.err .undoNew = none ∨ (F.err .undoRemoveNew ≠ none ∧
    (F.err .removeOld ≠ none ∨ F.err .journalOld ≠ none ∨ F.err .addOld ≠ none ∨
      F.err .journalOldAdd ≠ none ∨ F.err .removeNew ≠ none)))

theorem swap_ends {t : Nat} (hPosed : Posed fs₀ c) (hTarget : c.target = some t) :
    Ends (swap F c t fs₀) (fun _ => True) (fun fs' => Unchanged fs₀ fs' ↔ SwapKept F) := by
  have hApart := hPosed.apart
  have hOld := hPosed.old
  have hNew : fs₀.inoAt c.new = some t := hPosed.new.trans hTarget
  have hDiffer : t ≠ c.src := fun hEq => hPosed.differ (hTarget.trans (by rw [hEq]))
  -- how a failure ends, from the entries at the two names
  have hUndo : ∀ g, (∀ p, p ≠ c.old → p ≠ c.new → g.inoAt p = fs₀.inoAt p) →
      g.counts = fs₀.counts → (g.inoAt c.old = some c.src ↔ F.err .removeOld ≠ none) →
      (g.inoAt c.new = some t ↔ (F.err .removeOld ≠ none ∨ F.err .journalOld ≠ none ∨
        F.err .addOld ≠ none ∨ F.err .journalOldAdd ≠ none ∨ F.err .removeNew ≠ none)) →
      (Unchanged fs₀ (undoExchange F c t (fs₀.ftype c.src) (fs₀.ftype t) g) ↔ SwapKept F) := by
    intro g hElse hCounts hAtOld hAtNew
    obtain ⟨hNames, hInodes⟩ :=
      undoExchange_spec (F := F) hPosed (t := t) (fs₀.ftype c.src) (fs₀.ftype t) g
    unfold Unchanged SwapKept
    rw [hNames, swap_names_iff hPosed hTarget hElse, putBack_eq_iff (Option.some_ne_none _),
      putBack_eq_iff (Option.some_ne_none _), hAtOld, hAtNew, counts_eq_of_inodes hInodes]
    exact ⟨fun h => h.1, fun h => ⟨h, hCounts⟩⟩
  have hSomeOld : fs₀.inoAt (c.oldDir, c.oldName) ≠ none := by
    rw [show (c.oldDir, c.oldName) = c.old from rfl, hOld]
    nofun
  unfold swap
  dsimp only
  refine ends_remove hPosed.oldFit hSomeOld (fun hBad => ?_) fun hF₁ fs₁ hNames₁ hInodes₁ => ?_
  · exact hUndo fs₀ (fun _ _ _ => rfl) rfl ⟨fun _ => hBad, fun _ => hOld⟩
      ⟨fun _ => Or.inl hBad, fun _ => hNew⟩
  rw [show (c.oldDir, c.oldName) = c.old from rfl] at hNames₁
  have hCounts₁ : fs₁.counts = fs₀.counts := counts_eq_of_inodes hInodes₁
  -- the old entry is gone, the new one in place
  have hEarly : ∀ g, g.counts = fs₀.counts → (∀ p, p ≠ c.old → g.inoAt p = fs₀.inoAt p) →
      g.inoAt c.old ≠ some c.src → (F.err .journalOld ≠ none ∨ F.err .addOld ≠ none ∨
        F.err .journalOldAdd ≠ none ∨ F.err .removeNew ≠ none) →
      (Unchanged fs₀ (undoExchange F c t (fs₀.ftype c.src) (fs₀.ftype t) g) ↔ SwapKept F) := by
    intro g hCounts hElse hGone hBad
    refine hUndo g (fun p hp _ => hElse p hp) hCounts ⟨fun h => absurd h hGone, fun h => absurd hF₁ h⟩
      ⟨fun _ => Or.inr hBad, fun _ => ?_⟩
    rw [hElse _ hApart.symm, hNew]
  have hElse₁ : ∀ p, p ≠ c.old → fs₁.inoAt p = fs₀.inoAt p := by
    intro p hp
    rw [hNames₁, Function.update_of_ne hp]
  have hGone₁ : fs₁.inoAt c.old ≠ some c.src := by
    rw [hNames₁, Function.update_self]
    nofun
  refine ends_check (fun hBad => hEarly fs₁ hCounts₁ hElse₁ hGone₁ (Or.inl hBad)) fun hF₂ => ?_
  refine ends_add hPosed.oldFit
    (fun hBad => hEarly fs₁ hCounts₁ hElse₁ hGone₁ (Or.inr (Or.inl hBad)))
    fun hF₃ fs₂ hNames₂ hInodes₂ => ?_
  rw [show (c.oldDir, c.oldName) = c.old from rfl] at hNames₂
  have hCounts₂ : fs₂.counts = fs₀.counts := (counts_eq_of_inodes hInodes₂).trans hCounts₁
  have hElse₂ : ∀ p, p ≠ c.old → fs₂.inoAt p = fs₀.inoAt p := by
    intro p hp
    rw [hNames₂, Function.update_of_ne hp, hElse₁ p hp]
  have hSwapped : fs₂.inoAt c.old = some t := by
    rw [hNames₂, Function.update_self]
  have hGone₂ : fs₂.inoAt c.old ≠ some c.src := by
    rw [hSwapped]
    exact fun hEq => hDiffer (Option.some.inj hEq)
  refine ends_check (fun hBad => hEarly fs₂ hCounts₂ hElse₂ hGone₂ (Or.inr (Or.inr (Or.inl hBad))))
    fun hF₄ => ?_
  have hSomeNew : fs₂.inoAt (c.newDir, c.newName) ≠ none := by
    rw [show (c.newDir, c.newName) = c.new from rfl, hElse₂ _ hApart.symm, hNew]
    nofun
  refine ends_remove hPosed.newFit hSomeNew
    (fun hBad => hEarly fs₂ hCounts₂ hElse₂ hGone₂ (Or.inr (Or.inr (Or.inr hBad))))
    fun hF₅ fs₃ hNames₃ hInodes₃ => ?_
  rw [show (c.newDir, c.newName) = c.new from rfl] at hNames₃
  have hCounts₃ : fs₃.counts = fs₀.counts := (counts_eq_of_inodes hInodes₃).trans hCounts₂
  -- neither entry is the original one
  have hLate : ∀ g, g.counts = fs₀.counts →
      (∀ p, p ≠ c.old → p ≠ c.new → g.inoAt p = fs₀.inoAt p) →
      g.inoAt c.old ≠ some c.src → g.inoAt c.new ≠ some t →
      (Unchanged fs₀ (undoExchange F c t (fs₀.ftype c.src) (fs₀.ftype t) g) ↔ SwapKept F) := by
    intro g hCounts hElse hGone hGoneNew
    refine hUndo g hElse hCounts ⟨fun h => absurd h hGone, fun h => absurd hF₁ h⟩
      ⟨fun h => absurd h hGoneNew, ?_⟩
    rintro (hBad | hBad | hBad | hBad | hBad)
    · exact absurd hF₁ hBad
    · exact absurd hF₂ hBad
    · exact absurd hF₃ hBad
    · exact absurd hF₄ hBad
    · exact absurd hF₅ hBad
  have hElse₃ : ∀ p, p ≠ c.old → p ≠ c.new → fs₃.inoAt p = fs₀.inoAt p := by
    intro p hpOld hpNew
    rw [hNames₃, Function.update_of_ne hpNew, hElse₂ p hpOld]
  have hGone₃ : fs₃.inoAt c.old ≠ some c.src := by
    rw [hNames₃, Function.update_of_ne hApart]
    exact hGone₂
  have hGoneNew₃ : fs₃.inoAt c.new ≠ some t := by
    rw [hNames₃, Function.update_self]
    nofun
  refine ends_check (fun _ => hLate fs₃ hCounts₃ hElse₃ hGone₃ hGoneNew₃) fun _ => ?_
  refine ends_add hPosed.newFit (fun _ => hLate fs₃ hCounts₃ hElse₃ hGone₃ hGoneNew₃)
    fun _ fs₄ hNames₄ hInodes₄ => ?_
  rw [show (c.newDir, c.newName) = c.new from rfl] at hNames₄
  have hCounts₄ : fs₄.counts = fs₀.counts := (counts_eq_of_inodes hInodes₄).trans hCounts₃
  have hLast : ∀ g, g.dirents = fs₄.dirents → g.counts = fs₀.counts →
      (Unchanged fs₀ (undoExchange F c t (fs₀.ftype c.src) (fs₀.ftype t) g) ↔ SwapKept F) := by
    intro g hg hCounts
    have hNames : g.inoAt = Function.update fs₃.inoAt c.new (some c.src) :=
      (inoAt_eq_of_dirents hg).trans hNames₄
    refine hLate g hCounts ?_ ?_ ?_
    · intro p hpOld hpNew
      rw [hNames, Function.update_of_ne hpNew, hElse₃ p hpOld hpNew]
    · rw [hNames, Function.update_of_ne hApart]
      exact hGone₃
    · rw [hNames, Function.update_self]
      exact fun hEq => hDiffer (Option.some.inj hEq).symm
  refine ends_check (fun _ => hLast fs₄ rfl hCounts₄) fun _ => ?_
  -- from here on the link counts may have moved
  generalize hMid : (fs₄.carryLink (c.oldDir != c.newDir) c.src c.oldDir c.newDir).carryLink
    (c.oldDir != c.newDir) t c.newDir c.oldDir = fs₅
  have hMoved : SwapMoved fs₀ c t fs₅ := by
    rw [← hMid]
    refine OnlyMoved.carryLink (OnlyMoved.carryLink (onlyMoved_of_counts hCounts₄) ?_) ?_
    · intro hCross hDir
      have hNe : c.oldDir ≠ c.newDir := by simpa using hCross
      exact ⟨⟨hNe, Or.inl hDir, Or.inl rfl⟩, ⟨hNe, Or.inl hDir, Or.inr rfl⟩, hNe, Or.inl ⟨hDir, rfl⟩⟩
    · intro hCross hDir
      have hNe : c.oldDir ≠ c.newDir := by simpa using hCross
      exact ⟨⟨hNe, Or.inr hDir, Or.inr rfl⟩, ⟨hNe, Or.inr hDir, Or.inl rfl⟩, hNe, Or.inr ⟨hDir, rfl⟩⟩
  have hDirents : fs₅.dirents = fs₄.dirents := by
    rw [← hMid, carryLink_dirents, carryLink_dirents]
  have hEnd : ∀ g, g.dirents = fs₄.dirents → SwapMoved fs₀ c t g →
      (Unchanged fs₀ (undoExchange F c t (fs₀.ftype c.src) (fs₀.ftype t) (restoreBoth fs₀ c t g)) ↔
        SwapKept F) := by
    intro g hg hSwap
    refine hLast _ ?_ (counts_restoreBoth hSwap)
    rw [restoreBoth_dirents, hg]
  refine ends_check (fun _ => hEnd fs₅ hDirents hMoved) fun _ => ?_
  refine ends_check (fun _ => hEnd fs₅ hDirents hMoved) fun _ => ?_
  have hMoved₆ : SwapMoved fs₀ c t (fs₅.updateParentDir c.oldDir 0 0) :=
    OnlyMoved.updateParentDir hMoved c.oldDir
  refine ends_check (fun _ => hEnd _ hDirents hMoved₆) fun _ => ?_
  refine ends_check (fun _ => ?_) fun _ => trivial
  split
  · exact hEnd _ hDirents (OnlyMoved.updateParentDir hMoved₆ c.newDir)
  · exact hEnd _ hDirents hMoved₆

end Stages

--
-- When a failed rename changes nothing
--

/-- The failure of a plain rename without a target is harmless: nothing was removed yet, or
the rollback puts the old entry back and the new one away. -/
def PlainKept (F : Faults) : Prop :=
  F.err .removeOld ≠ none ∨ (F.err .undoOld = none ∧
    (F.err .journalOld ≠ none ∨ F.err .addNew ≠ none ∨ F.err .undoNew = none))

/-- The same for a whiteout without a target. -/
def WhiteoutKept (F : Faults) : Prop :=
  F.err .newWhiteout ≠ none ∨ F.err .snapshotWhiteout ≠ none ∨ F.err .repointOld ≠ none ∨
    (F.err .undoOld = none ∧ (F.err .journalOld ≠ none ∨ F.err .journalWhiteout ≠ none ∨
      F.err .addNew ≠ none ∨ F.err .undoNew = none))

/-- What is needed for a failed rename to change nothing. -/
def Harmless (F : Faults) (mode : Mode) (c : Call) (fs : Fs) : Prop :=
  match mode, c.target with
  | .exchange, none => True
  | .exchange, some _ => SwapKept F
  | .plain noreplace, some t => noreplace = true ∨ TargetKept F fs t
  | .plain _, none => PlainKept F
  | .whiteout _, some t => TargetKept F fs t
  | .whiteout _, none => WhiteoutKept F

section Main

variable {F : Faults} {c : Call} {fs fs₀ fs' : Fs} {f : Failure}

theorem undone_early_iff (hPosed : Posed fs₀ c) {x : Option Nat} (hx : x ≠ some c.src) :
    undoneNames F c false (Function.update fs₀.inoAt c.old x) = fs₀.inoAt ↔
      F.err .undoOld = none := by
  unfold undoneNames
  simp only [Bool.false_eq_true, false_and, if_false]
  by_cases hUndo : F.err .undoOld = none
  · rw [if_pos hUndo, Function.update_idem, ← hPosed.old, Function.update_eq_self]
    exact ⟨fun _ => hUndo, fun _ => rfl⟩
  · rw [if_neg hUndo]
    refine ⟨fun hEq => ?_, fun hYes => absurd hYes hUndo⟩
    have hAt := congrFun hEq c.old
    rw [Function.update_self, hPosed.old] at hAt
    exact absurd hAt hx

theorem undone_late_iff (hPosed : Posed fs₀ c) (hNone : c.target = none) {x : Option Nat}
    (hx : x ≠ some c.src) :
    undoneNames F c true (Function.update (Function.update fs₀.inoAt c.old x) c.new (some c.src)) =
        fs₀.inoAt ↔ F.err .undoOld = none ∧ F.err .undoNew = none := by
  have hApart := hPosed.apart
  have hNew : fs₀.inoAt c.new = none := hPosed.new.trans hNone
  unfold undoneNames
  simp only [true_and]
  constructor
  · intro hEq
    have hOldAt := congrFun hEq c.old
    have hNewAt := congrFun hEq c.new
    rw [hPosed.old] at hOldAt
    rw [hNew] at hNewAt
    constructor
    · by_contra hUndo
      rw [if_neg hUndo] at hOldAt
      split at hOldAt
      · rw [Function.update_idem, Function.update_of_ne hApart, Function.update_self] at hOldAt
        exact hx hOldAt
      · rw [Function.update_of_ne hApart, Function.update_self] at hOldAt
        exact hx hOldAt
    · by_contra hUndo
      rw [if_neg hUndo] at hNewAt
      split at hNewAt
      · rw [Function.update_of_ne hApart.symm, Function.update_self] at hNewAt
        cases hNewAt
      · rw [Function.update_self] at hNewAt
        cases hNewAt
  · rintro ⟨hOld, hUndo⟩
    rw [if_pos hUndo, if_pos hOld, Function.update_idem]
    funext p
    by_cases hpOld : p = c.old
    · rw [hpOld, Function.update_self, hPosed.old]
    · rw [Function.update_of_ne hpOld]
      by_cases hpNew : p = c.new
      · rw [hpNew, Function.update_self, hNew]
      · rw [Function.update_of_ne hpNew, Function.update_of_ne hpOld]

/-- No rollback of a move puts a removed target back. -/
theorem undone_new_ne (hApart : c.old ≠ c.new) {t : Nat} (added : Bool) {N : Nat × Name → Option Nat}
    (hNew : N c.new ≠ some t) : undoneNames F c added N c.new ≠ some t := by
  have hMid : (if added = true ∧ F.err .undoNew = none then Function.update N c.new none else N)
      c.new ≠ some t := by
    split
    · rw [Function.update_self]
      nofun
    · exact hNew
  unfold undoneNames
  split
  · rw [Function.update_of_ne hApart.symm]
    exact hMid
  · exact hMid

theorem movePlain_kept (hPosed : Posed fs c) (hNone : c.target = none) :
    Ends (movePlain F c fs fs) (fun _ => True) (fun fs' => Unchanged fs fs' ↔ PlainKept F) := by
  have hIff : ∀ g : Fs, g.counts = fs.counts → (Unchanged fs g ↔ g.inoAt = fs.inoAt) :=
    fun g hCounts => ⟨fun h => h.1, fun h => ⟨h, hCounts⟩⟩
  unfold PlainKept
  refine movePlain_ends hPosed.old hPosed.oldFit hPosed.newFit ?_ ?_ ?_
  · intro hBad
    exact ⟨fun _ => Or.inl hBad, fun _ => unchanged_refl fs⟩
  · intro hF hBad g hNames hInodes
    rw [hIff g (counts_eq_of_inodes hInodes), hNames, undone_early_iff hPosed (by nofun)]
    constructor
    · intro hUndo
      refine Or.inr ⟨hUndo, ?_⟩
      rcases hBad with hBad | hBad
      · exact Or.inl hBad
      · exact Or.inr (Or.inl hBad)
    · rintro (hNo | ⟨hUndo, -⟩)
      · exact absurd hF hNo
      · exact hUndo
  · intro hF₁ hF₂ hF₃ g hNames hCounts
    rw [hIff g (hCounts rfl), hNames, undone_late_iff hPosed hNone (by nofun)]
    constructor
    · rintro ⟨hOld, hNew⟩
      exact Or.inr ⟨hOld, Or.inr (Or.inr hNew)⟩
    · rintro (hNo | ⟨hOld, hNo | hNo | hNew⟩)
      · exact absurd hF₁ hNo
      · exact absurd hF₂ hNo
      · exact absurd hF₃ hNo
      · exact ⟨hOld, hNew⟩

theorem moveWhiteout_kept (hPosed : Posed fs c) (hNone : c.target = none) {ino : Nat}
    (hFree : fs.inodes ino = none) :
    Ends (moveWhiteout F c ino fs fs) (fun _ => True)
      (fun fs' => Unchanged fs fs' ↔ WhiteoutKept F) := by
  have hIff : ∀ g : Fs, g.counts = fs.counts → (Unchanged fs g ↔ g.inoAt = fs.inoAt) :=
    fun g hCounts => ⟨fun h => h.1, fun h => ⟨h, hCounts⟩⟩
  have hx : (some ino : Option Nat) ≠ some c.src := by
    intro hEq
    have hSrc := hPosed.alive.2.2
    rw [← Option.some.inj hEq, hFree] at hSrc
    cases hSrc
  unfold WhiteoutKept
  refine moveWhiteout_ends hPosed hPosed.old hFree hFree ?_ ?_ ?_
  · intro hBad g hNames hInodes
    unfold undoTargetOf
    rw [hNone]
    dsimp only
    refine ⟨fun _ => ?_, fun _ => ⟨hNames, counts_eq_of_inodes hInodes⟩⟩
    rcases hBad with hBad | hBad | hBad
    · exact Or.inl hBad
    · exact Or.inr (Or.inl hBad)
    · exact Or.inr (Or.inr (Or.inl hBad))
  · intro hF₁ hF₂ hF₃ hBad g hNames hInodes
    rw [hIff g (counts_eq_of_inodes hInodes), hNames, undone_early_iff hPosed hx]
    constructor
    · intro hUndo
      refine Or.inr (Or.inr (Or.inr ⟨hUndo, ?_⟩))
      rcases hBad with hBad | hBad | hBad
      · exact Or.inl hBad
      · exact Or.inr (Or.inl hBad)
      · exact Or.inr (Or.inr (Or.inl hBad))
    · rintro (hNo | hNo | hNo | ⟨hUndo, -⟩)
      · exact absurd hF₁ hNo
      · exact absurd hF₂ hNo
      · exact absurd hF₃ hNo
      · exact hUndo
  · intro hF₁ hF₂ hF₃ hF₄ hF₅ hF₆ g hNames hCounts
    rw [hIff g (hCounts rfl), hNames, undone_late_iff hPosed hNone hx]
    constructor
    · rintro ⟨hOld, hNew⟩
      exact Or.inr (Or.inr (Or.inr ⟨hOld, Or.inr (Or.inr (Or.inr hNew))⟩))
    · rintro (hNo | hNo | hNo | ⟨hOld, hNo | hNo | hNo | hNew⟩)
      · exact absurd hF₁ hNo
      · exact absurd hF₂ hNo
      · exact absurd hF₃ hNo
      · exact absurd hF₄ hNo
      · exact absurd hF₅ hNo
      · exact absurd hF₆ hNo
      · exact ⟨hOld, hNew⟩

/-- The state after a target was removed: every later failure loses it. -/
structure Cleared (fs₀ : Fs) (c : Call) (t : Nat) (fs : Fs) : Prop where
  target : c.target = some t
  names  : fs.inoAt = Function.update fs₀.inoAt c.new none
  counts : fs.counts t ≠ fs₀.counts t
  free   : ∀ x, fs₀.inodes x = none → fs.inodes x = none

theorem Cleared.old {t : Nat} (h : Cleared fs₀ c t fs) (hPosed : Posed fs₀ c) :
    fs.inoAt c.old = some c.src := by
  rw [h.names, Function.update_of_ne hPosed.apart, hPosed.old]

theorem Cleared.new_ne {t : Nat} (h : Cleared fs₀ c t fs) : fs.inoAt c.new ≠ some t := by
  rw [h.names, Function.update_self]
  nofun

/-- Without the target's entry the names are not what they were. -/
theorem Cleared.lost {t : Nat} (h : Cleared fs₀ c t fs) (hPosed : Posed fs₀ c) {g : Fs}
    (hg : g.inoAt c.new ≠ some t) : ¬ Unchanged fs₀ g := by
  intro hSame
  rw [hSame.1] at hg
  exact hg (hPosed.new.trans h.target)

theorem Cleared.lost_early {t : Nat} (h : Cleared fs₀ c t fs) (hPosed : Posed fs₀ c) {g : Fs}
    {x : Option Nat} (hNames : g.inoAt = undoneNames F c false (Function.update fs.inoAt c.old x)) :
    ¬ Unchanged fs₀ g := by
  refine h.lost hPosed ?_
  rw [hNames]
  refine undone_new_ne hPosed.apart false ?_
  rw [Function.update_of_ne hPosed.apart.symm]
  exact h.new_ne

theorem Cleared.lost_late {t : Nat} (h : Cleared fs₀ c t fs) (hPosed : Posed fs₀ c) {g : Fs}
    {x : Option Nat} (hNames : g.inoAt = undoneNames F c true
      (Function.update (Function.update fs.inoAt c.old x) c.new (some c.src))) :
    ¬ Unchanged fs₀ g := by
  refine h.lost hPosed ?_
  rw [hNames]
  refine undone_new_ne hPosed.apart true ?_
  rw [Function.update_self]
  exact fun hEq => hPosed.differ (h.target.trans hEq.symm)

theorem movePlain_lost {t : Nat} (hPosed : Posed fs₀ c) (h : Cleared fs₀ c t fs) :
    Ends (movePlain F c fs₀ fs) (fun _ => True) (fun fs' => ¬ Unchanged fs₀ fs') :=
  movePlain_ends (h.old hPosed) hPosed.oldFit hPosed.newFit (fun _ => h.lost hPosed h.new_ne)
    (fun _ _ _ hNames _ => h.lost_early hPosed hNames)
    fun _ _ _ _ hNames _ => h.lost_late hPosed hNames

theorem moveWhiteout_lost {t ino : Nat} (hPosed : Posed fs₀ c) (h : Cleared fs₀ c t fs)
    (hFree : fs₀.inodes ino = none) :
    Ends (moveWhiteout F c ino fs₀ fs) (fun _ => True) (fun fs' => ¬ Unchanged fs₀ fs') := by
  refine moveWhiteout_ends hPosed (h.old hPosed) (h.free ino hFree) hFree ?_
    (fun _ _ _ _ _ hNames _ => h.lost_early hPosed hNames)
    fun _ _ _ _ _ _ _ hNames _ => h.lost_late hPosed hNames
  -- the entry may be back, the link count is not
  intro _ g hNames hInodes hSame
  refine h.counts ?_
  rw [← hSame.2]
  unfold undoTargetOf
  rw [h.target]
  dsimp only
  rw [counts_eq_of_inodes (undoTarget_spec F hPosed.newFit t (fs₀.ftype t) g).2,
    counts_eq_of_inodes hInodes]

theorem ends_mono {α : Type} {r : Except (Failure × Fs) α} {P : α → Prop} {Q Q' : Fs → Prop}
    (h : Ends r P Q) (hQ : ∀ g, Q g → Q' g) : Ends r P Q' := by
  unfold Ends at *
  split at h
  · exact h
  · exact hQ _ h

/-- Every failure of a rename, with the condition under which it changes nothing. -/
theorem renameFaulty_ends (mode : Mode) (hPosed : Posed fs c)
    (hFree : ∀ ino, mode = .whiteout ino → fs.inodes ino = none) :
    Ends (renameFaulty F mode c fs) (fun _ => True)
      (fun fs' => Unchanged fs fs' ↔ Harmless F mode c fs) := by
  unfold renameFaulty Harmless
  cases mode with
  | exchange =>
    cases hTarget : c.target with
    | none => exact ⟨fun _ => trivial, fun _ => unchanged_refl fs⟩
    | some t => exact swap_ends hPosed hTarget
  | whiteout ino =>
    have hNone := hFree ino rfl
    unfold clearName
    cases hTarget : c.target with
    | none => exact moveWhiteout_kept hPosed hTarget hNone
    | some t =>
      refine ends_bind (takeTarget_ends hPosed hTarget) ?_
      rintro g ⟨hNot, hNames, hCounts, hKeep⟩
      refine ends_mono (moveWhiteout_lost hPosed ⟨hTarget, hNames, hCounts, hKeep⟩ hNone) ?_
      exact fun g' hLost => ⟨fun hSame => absurd hSame hLost, fun hYes => absurd hYes hNot⟩
  | plain noreplace =>
    unfold clearName
    dsimp only
    cases hTarget : c.target with
    | none =>
      rw [Option.isSome_none, Bool.and_false, if_neg Bool.false_ne_true]
      exact movePlain_kept hPosed hTarget
    | some t =>
      rw [Option.isSome_some, Bool.and_true]
      cases noreplace with
      | true => exact ⟨fun _ => Or.inl rfl, fun _ => unchanged_refl fs⟩
      | false =>
        have hIff : (false = true ∨ TargetKept F fs t) ↔ TargetKept F fs t :=
          ⟨fun h => h.resolve_left Bool.false_ne_true, Or.inr⟩
        rw [if_neg Bool.false_ne_true]
        simp only [hIff]
        show Ends (takeTarget F c t fs >>= fun cleared => movePlain F c fs cleared) _ _
        refine ends_bind (takeTarget_ends hPosed hTarget) ?_
        rintro g ⟨hNot, hNames, hCounts, hKeep⟩
        refine ends_mono (movePlain_lost hPosed ⟨hTarget, hNames, hCounts, hKeep⟩) ?_
        exact fun g' hLost => ⟨fun hSame => absurd hSame hLost, fun hYes => absurd hYes hNot⟩

/-- A rename that fails leaves all names, parents and link counts as they were exactly when
the failure is harmless: it came before the target was gone, or the rollback undoes what was
done. Once a target was removed for good, it is not restored. -/
theorem rename_unchanged_iff (mode : Mode) (hPosed : Posed fs c)
    (hFree : ∀ ino, mode = .whiteout ino → fs.inodes ino = none)
    (h : renameFaulty F mode c fs = .error (f, fs')) :
    Unchanged fs fs' ↔ Harmless F mode c fs := by
  have hEnds := renameFaulty_ends (F := F) mode hPosed hFree
  rw [h] at hEnds
  exact hEnds

end Main

/-- The root directory with two files, `a` and `b`. -/
def twoFiles : Fs where
  inodes := fun x =>
    if x = rootIno then
      some { kind := .dir, size := 6, nlink := 2, nlinks := 2, parent := rootIno, dead := false }
    else if x = 2 ∨ x = 3 then
      some { kind := .reg, size := 0, nlink := 1, nlinks := 1, parent := 0, dead := false }
    else none
  dirents := [⟨rootIno, [97], 2, .reg⟩, ⟨rootIno, [98], 3, .reg⟩]

/-- One call fails. -/
def failsAt (site : Site) (fault : Fault) : Faults where
  err   := fun s => if s = site then some fault else none
  blind := false

/-- Renaming `a` to a new name is undone when the journal fails. -/
theorem rename_unchanged_without_target :
    ∃ f fs', renameFaulty (failsAt .journalNew .eio) (.plain false)
        ⟨rootIno, [97], rootIno, [99], 2, none⟩ twoFiles = .error (f, fs') ∧
      Unchanged twoFiles fs' := by
  have hPosed : Posed twoFiles ⟨rootIno, [97], rootIno, [99], 2, none⟩ :=
    ⟨rfl, rfl, by decide, ⟨by decide, by decide⟩, ⟨by decide, by decide⟩, by decide, nofun⟩
  have hFails : ∃ f fs', renameFaulty (failsAt .journalNew .eio) (.plain false)
      ⟨rootIno, [97], rootIno, [99], 2, none⟩ twoFiles = .error (f, fs') := ⟨_, _, rfl⟩
  obtain ⟨f, fs', hErr⟩ := hFails
  refine ⟨f, fs', hErr, (rename_unchanged_iff (.plain false) hPosed nofun hErr).mpr ?_⟩
  exact Or.inr ⟨rfl, Or.inr (Or.inr rfl)⟩

/-- Renaming `a` over `b` when the trie has no room for the entry: the call returns the
error, and `b` is gone. -/
theorem rename_loses_target :
    Posed twoFiles ⟨rootIno, [97], rootIno, [98], 2, some 3⟩ ∧
    ∃ f fs', renameFaulty (failsAt .addNew .enospc) (.plain false)
        ⟨rootIno, [97], rootIno, [98], 2, some 3⟩ twoFiles = .error (f, fs') ∧
      ¬ Unchanged twoFiles fs' := by
  refine ⟨⟨rfl, rfl, by decide, ⟨by decide, by decide⟩, ⟨by decide, by decide⟩, by decide, ?_⟩, ?_⟩
  · rintro t ht
    obtain rfl : 3 = t := Option.some.inj ht
    exact ⟨_, rfl, by decide, by decide⟩
  · refine ⟨_, _, rfl, ?_⟩
    rintro ⟨hNames, -⟩
    have hAt := congrFun hNames (rootIno, [98])
    cases hAt

end Briefs.Dir
