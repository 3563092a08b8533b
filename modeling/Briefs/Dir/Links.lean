import Briefs.Dir.Rename

/-!
# BrieFS — link counts match the namespace

Every operation keeps the account of links but for two slips. `briefs_symlink` and
`briefs_mknod` pass a link delta of 1 although what they make is not a directory,
so the parent gains a link that no subdirectory accounts for; `briefs_create`
passes 0 for such inodes. `briefs_unlink_common` drops the VFS count of the inode
it unlinks and leaves `disk_inode.nlinks` as it was, which the replacing paths of
rename do not.

## Results

* `step_accounted` — every operation but those keeps the account.
* `links_match_of_tracked` — so the counts match along every run without them.
* `symlink_and_unlink_miscount` — and do not match after them.
-/

namespace Briefs.Dir

section

variable {fs fs' : Fs} {lost : Option Nat}

--
-- Every step
--

/-- An inode that an entry names has links. -/
theorem Accounted.named_pos (h : Accounted fs none) {e : Dirent} (he : e ∈ fs.dirents) {i : Inode}
    (hi : fs.inodes e.ino = some i) : i.nlink ≠ 0 := by
  obtain ⟨j, hj, -, hDead⟩ := h.named e he
  obtain rfl : i = j := Option.some.inj (hi.symm.trans hj)
  have hCount := h.count e.ino i hi hDead (by simp)
  by_cases hDir : i.kind = .dir
  · have hPos := h.dir_pos hi hDir hDead (by simp)
    omega
  · have hPos : 0 < links e.ino i.kind fs.dirents := by
      unfold links
      rw [if_neg hDir]
      exact List.countP_pos_iff.mpr ⟨e, he, by simp⟩
    omega

/-- Dropping the last reference to an inode without links keeps the account. -/
theorem evict_accounted (h : Accounted fs none) (ino : Nat) : Accounted (fs.evict ino) none := by
  have hInv : ∀ x i, (fs.evict ino).inodes x = some i → fs.inodes x = some i := by
    intro x i hi
    unfold Fs.evict at hi
    by_cases hx : x = ino
    · simp only [hx, if_true, Option.filter_eq_some_iff] at hi
      rw [hx]
      exact hi.1
    · simpa [hx] using hi
  have hStay : ∀ x i, fs.inodes x = some i → i.nlink ≠ 0 → (fs.evict ino).inodes x = some i := by
    intro x i hi hLinks
    unfold Fs.evict
    by_cases hx : x = ino
    · simp [hx ▸ hi, hx, Option.filter, hLinks]
    · simp [hx, hi]
  refine
    { keyed := h.keyed, named := ?_, placed := ?_, single := h.single,
      small := fun x i hi => h.small x i (hInv x i hi),
      isDead := fun x i hi => h.isDead x i (hInv x i hi),
      count := fun x i hi => h.count x i (hInv x i hi), gone := by simp,
      disk := fun x i hi => h.disk x i (hInv x i hi) }
  · intro e he
    obtain ⟨i, hi, hRest⟩ := h.named e he
    exact ⟨i, hStay e.ino i hi (h.named_pos he hi), hRest⟩
  · intro e he
    obtain ⟨i, hi, hKind, hDead⟩ := h.placed e he
    have hPos := h.dir_pos hi hKind hDead (by simp)
    exact ⟨i, hStay e.dir i hi (by omega), hKind, hDead⟩

theorem resolve_ok {dir : Nat} {name : Name} {ino : Nat} (h : fs.resolve dir name = .ok ino) :
    ∃ e ∈ fs.dirents, fs.lookup dir name = some e ∧ e.dir = dir ∧ e.name = name ∧ e.ino = ino := by
  unfold Fs.resolve at h
  split at h
  · cases h
  · cases hLook : fs.lookup dir name with
    | none => simp [hLook] at h
    | some e =>
      simp only [hLook, Except.ok.injEq] at h
      obtain ⟨hMem, hDir, hName⟩ := mem_of_lookup hLook
      exact ⟨e, hMem, rfl, hDir, hName, h⟩

/-- The counter of the inode can be raised. -/
def Fs.Room (fs : Fs) (x : Nat) : Prop :=
  ∀ i, fs.inodes x = some i → i.nlink + 1 < linkModulus

/-- The steps that keep the counts: not symlink or mknod; an unlink only of the last
name of an inode that nothing holds open, a rmdir only of a directory nothing
holds open; and no counter raised past its range. -/
def Op.Tracked (fs : Fs) : Op → Prop
  | .create _ _ _ => True
  | .mkdir dir _ _ => fs.Room dir
  | .mknod _ _ _ => False
  | .symlink _ _ _ _ => False
  | .link src _ _ => fs.Room src
  | .unlink dir name held =>
    held = false ∧ ∀ e i, fs.lookup dir name = some e → fs.inodes e.ino = some i → i.nlink = 1
  | .rmdir _ _ held => held = false
  | .rename a na b nb flags _ =>
    a ≠ b → ∀ e, fs.lookup a na = some e →
      (fs.lookup b nb = none → fs.isDir e.ino = true → fs.Room b) ∧
      ∀ t, fs.lookup b nb = some t → flags.exchange = true →
        (fs.isDir e.ino = true → fs.isDir t.ino = false → fs.Room b) ∧
        (fs.isDir t.ino = true → fs.isDir e.ino = false → fs.Room a)
  | .close _ => True

theorem unlink_accounted (h : Accounted fs none) {dir : Nat} {name : Name}
    (hTracked : (Op.unlink dir name false).Tracked fs)
    (hOk : fs.step (.unlink dir name false) = .ok fs') : Accounted fs' none := by
  obtain ⟨ino, hResolve, hOk⟩ := bind_ok hOk
  obtain ⟨e, he, hLook, rfl, rfl, rfl⟩ := resolve_ok hResolve
  obtain ⟨fs₁, hUnlink, hOk⟩ := bind_ok hOk
  cases hOk
  unfold Fs.unlink at hUnlink
  split at hUnlink
  · cases hUnlink
  · rename_i hNotDir
    have hType : e.type ≠ .dir := fun hDir => hNotDir ((isDir_iff_live (h.named e he)).mpr hDir)
    obtain ⟨⟨g, hg⟩, hDirents⟩ := unlinkCommon_drops (fun hDir => absurd hDir hNotDir) hUnlink
    have hLost := hg.accounted h he (fun hDir => absurd hDir hType) hDirents
    refine hLost.lostName ?_
    -- the count of the inode comes to 0, so it is evicted with its stale disk copy
    intro i' hi' hStays
    rw [hg.map] at hi'
    obtain ⟨i, hi, rfl⟩ := Option.map_eq_some_iff.mp hi'
    have hOne := hTracked.2 e i hLook hi
    have hTarget := hg.target i
    rw [if_neg hNotDir, dropNlink_nlink (by omega) (h.small e.ino i hi)] at hTarget
    rcases hStays with hHeld | hLinks
    · cases hHeld
    · omega

theorem rmdir_accounted (h : Accounted fs none) {dir : Nat} {name : Name}
    (hOk : fs.step (.rmdir dir name false) = .ok fs') : Accounted fs' none := by
  obtain ⟨ino, hResolve, hOk⟩ := bind_ok hOk
  obtain ⟨e, he, -, rfl, rfl, rfl⟩ := resolve_ok hResolve
  obtain ⟨fs₁, hRmdir, hOk⟩ := bind_ok hOk
  cases hOk
  unfold Fs.rmdir at hRmdir
  split at hRmdir
  · cases hRmdir
  · rename_i hDir
    split at hRmdir
    · cases hRmdir
    · rename_i hEmpty
      have hIsDir : fs.isDir e.ino = true := by simpa using hDir
      have hNone : ∀ e' ∈ fs.dirents, e'.dir ≠ e.ino := by
        simpa [Fs.emptyDir] using hEmpty
      obtain ⟨⟨g, hg⟩, hDirents⟩ := unlinkCommon_drops (fun _ => hNone e he) hRmdir
      have hLost := hg.accounted h he (fun _ => hNone) hDirents
      refine hLost.lostName ?_
      intro i' hi' hStays
      rw [hg.map] at hi'
      obtain ⟨i, hi, rfl⟩ := Option.map_eq_some_iff.mp hi'
      have hTarget := hg.target i
      rw [if_pos hIsDir] at hTarget
      rcases hStays with hHeld | hLinks
      · cases hHeld
      · exact absurd hTarget hLinks

/-- What the later part of a rename leaves alone: the counts of every inode but the
two directories. -/
def SameCounts (fs fs' : Fs) (a b : Nat) : Prop :=
  ∀ x i', x ≠ a → x ≠ b → fs'.inodes x = some i' → (fs.inodes x).isSome →
    ∃ i, fs.inodes x = some i ∧ i'.nlink = i.nlink ∧ i'.nlinks = i.nlinks

/-- The entries and counts of a plain rename once the new name is free. -/
theorem renamePlain_tail (h : Accounted fs lost) {e : Dirent} {b : Nat} {nb : Name}
    (hm : Movable fs lost e b nb) {fs₁ fs₂ : Fs}
    (hRemove : fs.removeDirEntry e.dir e.name = .ok fs₁)
    (hAdd : fs₁.addDirEntry b nb e.ino e.type = .ok fs₂) :
    Accounted (fs₂.moveParent e.dir b e.ino) lost ∧
      SameCounts fs (fs₂.moveParent e.dir b e.ino) e.dir b := by
  obtain ⟨hInodes₁, hDirents₁⟩ := removeDirEntry_ok hRemove
  obtain ⟨hInodes₂, hDirents₂⟩ := addDirEntry_ok hAdd
  have hInodes : fs₂.inodes = fs.inodes := hInodes₂.trans hInodes₁
  have hMap : ∀ x, (fs₂.moveParent e.dir b e.ino).inodes x = (fs.inodes x).map fun i =>
      (i.shifted (fs.isDir e.ino) e.ino e.dir b x).persisted e.dir b x := by
    intro x
    rw [moveParent_inodes, isDir_congr hInodes, hInodes]
  refine ⟨move_accounted h hm ?_ hMap, ?_⟩
  · rw [moveParent_dirents, hDirents₂, hDirents₁]
    congr 1
    refine filter_isAt_of_absent ?_
    intro e' he'
    exact hm.absent e' (mem_filter_isAt.mp he').1
  · intro x i' hxa hxb hi' _
    rw [hMap x] at hi'
    obtain ⟨i, hi, rfl⟩ := Option.map_eq_some_iff.mp hi'
    obtain ⟨hLinks, hDisk⟩ := shifted_nlinks_of_ne i (fs.isDir e.ino) e.ino e.dir b hxa hxb
    refine ⟨i, hi, ?_, ?_⟩
    · rw [persisted_nlink, hLinks]
    · simp [Inode.persisted, hxa, hxb, hDisk]

/-- The same for a rename that leaves a whiteout. -/
theorem renameWhiteout_tail (h : Accounted fs lost) {e : Dirent} {b : Nat} {nb : Name}
    (hm : Movable fs lost e b nb) {w : Nat} (hwLost : lost ≠ some w) {fs₁ fs₂ fs₃ : Fs}
    (hNew : fs.newInode e.dir w .special 0 = .ok fs₁)
    (hRepoint : fs₁.repointDirEntry e.dir e.name w .special = .ok fs₂)
    (hAdd : fs₂.addDirEntry b nb e.ino e.type = .ok fs₃) :
    Accounted ((fs₃.moveParent e.dir b e.ino).updateParentDir e.dir
        (dirEntryPrefixLen + e.name.length) 0) lost ∧
      SameCounts fs ((fs₃.moveParent e.dir b e.ino).updateParentDir e.dir
        (dirEntryPrefixLen + e.name.length) 0) e.dir b := by
  obtain ⟨hNone, hDirents₁, hInodes₁⟩ := newInode_ok hNew
  obtain ⟨hInodes₂, hDirents₂⟩ := repointDirEntry_ok hRepoint
  obtain ⟨hInodes₃, hDirents₃⟩ := addDirEntry_ok hAdd
  have hInodes : fs₃.inodes = fs₁.inodes := hInodes₃.trans hInodes₂
  have hw := h.absent hNone e hm.mem
  have hwb : b ≠ w := by
    rintro rfl
    obtain ⟨i, hi, -⟩ := hm.live
    rw [hNone] at hi
    cases hi
  have hFlag : fs₃.isDir e.ino = fs.isDir e.ino := by
    have hPoint : fs₁.inodes e.ino = fs.inodes e.ino := by
      rw [hInodes₁]
      exact if_neg hw.1
    unfold Fs.isDir
    rw [hInodes, hPoint]
  have hMap : ∀ x, ((fs₃.moveParent e.dir b e.ino).updateParentDir e.dir
      (dirEntryPrefixLen + e.name.length) 0).inodes x =
      if x = w then some (freshInode e.dir .special 0)
      else (fs.inodes x).map fun i =>
        let j := (i.shifted (fs.isDir e.ino) e.ino e.dir b x).persisted e.dir b x
        if x = e.dir then j.updated (dirEntryPrefixLen + e.name.length) 0 else j := by
    intro x
    rw [updateParentDir_inodes, moveParent_inodes, hFlag, hInodes, Option.map_map]
    by_cases hx : x = w
    · rw [hInodes₁]
      have hxa : ¬ x = e.dir := fun hEq => hw.2 (hEq.symm.trans hx)
      have hxb : ¬ x = b := fun hEq => hwb (hEq.symm.trans hx)
      have hxs : ¬ x = e.ino := fun hEq => hw.1 (hEq.symm.trans hx)
      simp [hx, Inode.shifted, Inode.persisted, hx ▸ hxa, hx ▸ hxb, hx ▸ hxs]
    · have hPoint : fs₁.inodes x = fs.inodes x := by
        rw [hInodes₁]
        exact if_neg hx
      rw [if_neg hx, hPoint]
      rfl
  refine ⟨whiteout_accounted h hm hNone hwLost ?_ hMap, ?_⟩
  · rw [updateParentDir_dirents, moveParent_dirents, hDirents₃, hDirents₂, hDirents₁]
    congr 1
    refine filter_isAt_of_absent ?_
    intro e' he'
    rcases List.mem_cons.mp he' with hHead | hTail
    · rw [hHead]
      exact hm.absent e hm.mem
    · exact hm.absent e' (mem_filter_isAt.mp hTail).1
  · intro x i' hxa hxb hi' hSome
    have hx : x ≠ w := by
      rintro rfl
      simp [hNone] at hSome
    rw [hMap x, if_neg hx] at hi'
    obtain ⟨i, hi, rfl⟩ := Option.map_eq_some_iff.mp hi'
    obtain ⟨hLinks, hDisk⟩ := shifted_nlinks_of_ne i (fs.isDir e.ino) e.ino e.dir b hxa hxb
    refine ⟨i, hi, ?_, ?_⟩
    · simp [hxa, hLinks]
    · simp [Inode.persisted, hxa, hxb, hDisk]

/-- After the replacing part of a rename the new name is free, and what it stood
for has its disk copy in step. -/
theorem replaceTarget_ready (h : Accounted fs none) {e t : Dirent} (he : e ∈ fs.dirents)
    (ht : t ∈ fs.dirents) (hNe : e.ino ≠ t.ino) (hKinds : fs.isDir e.ino = true → fs.isDir t.ino = true)
    {fs₁ : Fs} (hOk : fs.replaceTarget t.dir t.name t.ino = .ok fs₁) :
    Accounted fs₁ (some t.ino) ∧ Movable fs₁ (some t.ino) e t.dir t.name ∧
      (∀ i, fs₁.inodes t.ino = some i → i.nlinks = i.nlink) ∧ t.ino ≠ e.dir ∧ t.ino ≠ t.dir ∧
      ∀ x, fs₁.inodes x = none → fs.inodes x = none := by
  have hEmpty : t.type = .dir → ∀ e' ∈ fs.dirents, e'.dir ≠ t.ino := by
    intro hType
    have hDir := (isDir_iff_live (h.named t ht)).mpr hType
    unfold Fs.replaceTarget at hOk
    rw [hDir, Bool.true_and] at hOk
    split at hOk
    · cases hOk
    · rename_i hAll
      simpa [Fs.emptyDir] using hAll
  have hApart : ∀ d, fs.Live d .dir → (t.type = .dir → d ≠ t.ino) → t.ino ≠ d := by
    intro d hLive hWhen hEq
    have hDir := (isDir_iff_live hLive).mpr rfl
    rw [← hEq] at hDir
    exact hWhen ((isDir_iff_live (h.named t ht)).mp hDir) hEq.symm
  have hSrcDir := hApart e.dir (h.placed e he) (fun hType => hEmpty hType e he)
  have hNewDir := hApart t.dir (h.placed t ht) (fun hType => hEmpty hType t ht)
  obtain ⟨⟨g, hg⟩, hDirents, hDisk⟩ := replaceTarget_drops (fun _ => hNewDir.symm) hOk
  have hLost := hg.accounted h ht hEmpty hDirents
  have hKey : ¬ (e.dir = t.dir ∧ e.name = t.name) := by
    intro hEq
    exact hNe (congrArg Dirent.ino (h.keyed.eq ht he hEq.1 hEq.2))
  refine ⟨hLost, ?_, hDisk, hSrcDir, hNewDir, ?_⟩
  · refine ⟨?_, hg.live (h.placed t ht), ?_, ?_, ?_⟩
    · rw [hDirents]
      exact mem_filter_isAt.mpr ⟨he, hKey⟩
    · intro e' he'
      rw [hDirents] at he'
      exact (mem_filter_isAt.mp he').2
    · -- a directory moves in only where one was removed, so the parent has a link to spare
      intro _ hType i' hi'
      have hDir := hKinds ((isDir_iff_live (h.named e he)).mpr hType)
      rw [hg.map] at hi'
      obtain ⟨i, hi, rfl⟩ := Option.map_eq_some_iff.mp hi'
      obtain ⟨d, hd, hKind, hDead⟩ := h.placed t ht
      obtain rfl : i = d := Option.some.inj (hi.symm.trans hd)
      have hPos := h.dir_pos hi hKind hDead (by simp)
      have hSmall := h.small t.dir i hi
      rw [hg.parent i hNewDir.symm, if_pos hDir, dropNlink_nlink hPos hSmall]
      omega
    · exact fun hEq => hNewDir (Option.some.inj hEq)
  · intro x hx
    rw [hg.map] at hx
    exact Option.map_eq_none_iff.mp hx

/-- The loss of the replaced inode is settled after a rename as after an unlink. -/
theorem settle_accounted {fs₁ fs₂ : Fs} {t a b : Nat} (h : Accounted fs₂ (some t))
    (hSame : SameCounts fs₁ fs₂ a b) (hta : t ≠ a) (htb : t ≠ b)
    (hSome : (fs₁.inodes t).isSome)
    (hDisk : ∀ i, fs₁.inodes t = some i → i.nlinks = i.nlink) (held : Bool) :
    Accounted (fs₂.lostName t held) none := by
  refine h.lostName ?_
  intro i' hi' _
  obtain ⟨i, hi, hLinks, hSameDisk⟩ := hSame t i' hta htb hi' hSome
  rw [hLinks, hSameDisk]
  exact hDisk i hi

/-- A rename to a free name. -/
theorem renameFree_accounted (h : Accounted fs none) {e : Dirent} {b : Nat} {nb : Name}
    (hm : Movable fs none e b nb) {flags : RenameFlags}
    (hOk : fs.rename e.dir e.name b nb e.ino none flags = .ok fs') :
    Accounted fs' none := by
  have hType := ftype_of_live (h.named e hm.mem)
  cases hFlag : flags.whiteout with
  | none =>
    simp only [Fs.rename, hFlag, Fs.renamePlain, Fs.freeName, Option.isSome_none, Bool.and_false, Bool.false_eq_true,
      if_false, hType] at hOk
    obtain ⟨fs₀, hFree, hOk⟩ := bind_ok hOk
    cases hFree
    obtain ⟨fs₁, hRemove, hOk⟩ := bind_ok hOk
    obtain ⟨fs₂, hAdd, hOk⟩ := bind_ok hOk
    cases hOk
    exact (renamePlain_tail h hm hRemove hAdd).1
  | some w =>
    simp only [Fs.rename, hFlag, Fs.renameWhiteout, Fs.freeName, hType] at hOk
    obtain ⟨fs₀, hFree, hOk⟩ := bind_ok hOk
    cases hFree
    obtain ⟨fs₁, hNew, hOk⟩ := bind_ok hOk
    obtain ⟨fs₂, hRepoint, hOk⟩ := bind_ok hOk
    obtain ⟨fs₃, hAdd, hOk⟩ := bind_ok hOk
    cases hOk
    exact (renameWhiteout_tail h hm (by simp) hNew hRepoint hAdd).1

/-- A rename over another inode. -/
theorem renameOver_accounted (h : Accounted fs none) {e t : Dirent} (he : e ∈ fs.dirents)
    (ht : t ∈ fs.dirents) (hNe : e.ino ≠ t.ino)
    (hKinds : fs.isDir e.ino = true → fs.isDir t.ino = true) {flags : RenameFlags} (held : Bool)
    (hOk : fs.rename e.dir e.name t.dir t.name e.ino (some t.ino) flags = .ok fs') :
    Accounted (fs'.lostName t.ino held) none := by
  have hType := ftype_of_live (h.named e he)
  have hLive : ∃ i, fs.inodes t.ino = some i := by
    obtain ⟨i, hi, -⟩ := h.named t ht
    exact ⟨i, hi⟩
  cases hFlag : flags.whiteout with
  | none =>
    simp only [Fs.rename, hFlag, Fs.renamePlain, Fs.freeName, hType] at hOk
    split at hOk
    · cases hOk
    · obtain ⟨fs₁, hReplace, hOk⟩ := bind_ok hOk
      obtain ⟨hLost, hm, hDisk, hta, htb, hGone⟩ := replaceTarget_ready h he ht hNe hKinds hReplace
      obtain ⟨fs₂, hRemove, hOk⟩ := bind_ok hOk
      obtain ⟨fs₃, hAdd, hOk⟩ := bind_ok hOk
      cases hOk
      obtain ⟨hAcc, hSame⟩ := renamePlain_tail hLost hm hRemove hAdd
      refine settle_accounted hAcc hSame hta htb ?_ hDisk held
      obtain ⟨i, hi⟩ := hLive
      rw [Option.isSome_iff_ne_none]
      intro hNone
      rw [hGone t.ino hNone] at hi
      cases hi
  | some w =>
    simp only [Fs.rename, hFlag, Fs.renameWhiteout, Fs.freeName, hType] at hOk
    obtain ⟨fs₁, hReplace, hOk⟩ := bind_ok hOk
    obtain ⟨hLost, hm, hDisk, hta, htb, hGone⟩ := replaceTarget_ready h he ht hNe hKinds hReplace
    obtain ⟨fs₂, hNew, hOk⟩ := bind_ok hOk
    obtain ⟨fs₃, hRepoint, hOk⟩ := bind_ok hOk
    obtain ⟨fs₄, hAdd, hOk⟩ := bind_ok hOk
    cases hOk
    obtain ⟨i, hi⟩ := hLive
    have hwLost : some t.ino ≠ some w := by
      intro hEq
      obtain ⟨hNone, -⟩ := newInode_ok hNew
      have hOld := hGone w hNone
      rw [← Option.some.inj hEq, hi] at hOld
      cases hOld
    obtain ⟨hAcc, hSame⟩ := renameWhiteout_tail hLost hm hwLost hNew hRepoint hAdd
    refine settle_accounted hAcc hSame hta htb ?_ hDisk held
    rw [Option.isSome_iff_ne_none]
    intro hNone
    rw [hGone t.ino hNone] at hi
    cases hi

theorem rename_accounted (h : Accounted fs none) {a b : Nat} {na nb : Name} {flags : RenameFlags}
    {held : Bool} (hTracked : (Op.rename a na b nb flags held).Tracked fs)
    (hOk : fs.vfsRename a na b nb flags held = .ok fs') : Accounted fs' none := by
  unfold Fs.vfsRename at hOk
  split at hOk
  · cases hOk
  · obtain ⟨src, hResolve, hOk⟩ := bind_ok hOk
    obtain ⟨e, he, hLook, rfl, rfl, rfl⟩ := resolve_ok hResolve
    split at hOk
    · cases hOk
    · rename_i hDir
      have hLive := live_of_liveDir (by simpa using hDir)
      have hRoom := fun hNe => hTracked hNe e hLook
      cases hTarget : fs.lookup b nb with
      | none =>
        simp only [hTarget, Option.map_none, reduceCtorEq, if_false, Option.any_none,
          Bool.false_eq_true] at hOk
        split at hOk
        · cases hOk
        · obtain ⟨fs₁, hRename, hOk⟩ := bind_ok hOk
          cases hOk
          refine renameFree_accounted h
            ⟨he, hLive, absent_of_lookup hTarget, ?_, by simp⟩ hRename
          intro hNe hType
          exact (hRoom hNe).1 hTarget ((isDir_iff_live (h.named e he)).mpr hType)
      | some t =>
        obtain ⟨ht, rfl, rfl⟩ := mem_of_lookup hTarget
        simp only [hTarget, Option.map_some, Option.any_some] at hOk
        split at hOk
        · cases hOk
          exact h
        · rename_i hSame
          have hNe : e.ino ≠ t.ino := fun hEq => hSame (by rw [hEq])
          split at hOk
          · rename_i hExchange
            refine exchange_accounted h he ht hNe ?_ hOk
            intro hCross i
            obtain ⟨hIn, hOut⟩ := (hRoom hCross).2 t hTarget hExchange
            have hSrc := isDir_iff_live (h.named e he)
            have hDst := isDir_iff_live (h.named t ht)
            refine ⟨fun hi hType hOther => hOut (hDst.mpr hType) ?_ i hi,
              fun hi hType hOther => hIn (hSrc.mpr hType) ?_ i hi⟩
            · exact Bool.not_eq_true _ ▸ fun hFlag => hOther (hSrc.mp hFlag)
            · exact Bool.not_eq_true _ ▸ fun hFlag => hOther (hDst.mp hFlag)
          · split at hOk
            · cases hOk
            · rename_i hKinds
              split at hOk
              · cases hOk
              · obtain ⟨fs₁, hRename, hOk⟩ := bind_ok hOk
                cases hOk
                refine renameOver_accounted h he ht hNe ?_ held hRename
                intro hFlag
                simpa [hFlag] using hKinds

/-- Every tracked step keeps the account. -/
theorem step_accounted (h : Accounted fs none) {op : Op} (hTracked : op.Tracked fs)
    (hOk : fs.step op = .ok fs') : Accounted fs' none := by
  cases op with
  | create dir name ino =>
    obtain ⟨u, hMay, hOk⟩ := bind_ok hOk
    exact create_accounted h hMay (by simp) hOk
  | mkdir dir name ino =>
    obtain ⟨u, hMay, hOk⟩ := bind_ok hOk
    exact create_accounted h hMay (fun _ => hTracked) hOk
  | mknod dir name ino => exact absurd hTracked (by simp [Op.Tracked])
  | symlink dir name ino len => exact absurd hTracked (by simp [Op.Tracked])
  | link src dir name =>
    obtain ⟨u, hMay, hOk⟩ := bind_ok hOk
    split at hOk
    · cases hOk
    · exact link_accounted h hMay hTracked hOk
  | unlink dir name held =>
    obtain rfl : held = false := hTracked.1
    exact unlink_accounted h hTracked hOk
  | rmdir dir name held =>
    obtain rfl : held = false := hTracked
    exact rmdir_accounted h hOk
  | rename a na b nb flags held => exact rename_accounted h hTracked hOk
  | close ino =>
    cases hOk
    exact evict_accounted h ino

end

--
-- Runs
--

/-- Every step of a run is tracked in the state it starts from. -/
def TrackedRun (fs : Fs) : List Op → Prop
  | [] => True
  | op :: ops => op.Tracked fs ∧ ∀ fs', fs.step op = .ok fs' → TrackedRun fs' ops

theorem run_accounted {fs fs' : Fs} (h : Accounted fs none) {ops : List Op}
    (hTracked : TrackedRun fs ops) (hRun : fs.run ops = .ok fs') : Accounted fs' none := by
  induction ops generalizing fs with
  | nil =>
    cases hRun
    exact h
  | cons op ops ih =>
    obtain ⟨fs₁, hStep, hRun⟩ := bind_ok hRun
    exact ih (step_accounted h hTracked.1 hStep) (hTracked.2 fs₁ hStep) hRun

theorem fresh_accounted : Accounted Fs.fresh none where
  keyed := List.Pairwise.nil
  named := by simp [Fs.fresh]
  placed := by simp [Fs.fresh]
  single := by simp [Fs.fresh, OnceNamed]
  small := by
    intro x i hi
    simp only [Fs.fresh, Option.ite_none_right_eq_some, Option.some.injEq] at hi
    obtain ⟨-, rfl⟩ := hi
    decide
  isDead := by
    intro x i hi hDead
    simp only [Fs.fresh, Option.ite_none_right_eq_some, Option.some.injEq] at hi
    obtain ⟨-, rfl⟩ := hi
    rfl
  count := by
    intro x i hi _ _
    simp only [Fs.fresh, Option.ite_none_right_eq_some, Option.some.injEq] at hi
    obtain ⟨-, rfl⟩ := hi
    rfl
  gone := by simp
  disk := by
    intro x i hi _
    simp only [Fs.fresh, Option.ite_none_right_eq_some, Option.some.injEq] at hi
    obtain ⟨-, rfl⟩ := hi
    rfl

/-- From a file system with only a root directory, along every run of tracked calls
that return 0, the link counts match the namespace and their disk copies. -/
theorem links_match_of_tracked (ops : List Op) (fs : Fs) (hRun : Fs.fresh.run ops = .ok fs)
    (hTracked : TrackedRun Fs.fresh ops) : fs.LinksMatch :=
  (run_accounted fresh_accounted hTracked hRun).linksMatch

/-- The calls of the example run: two directories, one moved into the other, and a
file that comes and goes. -/
def sampleOps : List Op :=
  [.mkdir 1 [100] 2, .mkdir 1 [101] 3, .rename 1 [100] 3 [100] ⟨false, false, none⟩ false,
    .create 1 [102] 4, .unlink 1 [102] false]

theorem sampleOps_links_match : ∃ fs, Fs.fresh.run sampleOps = .ok fs ∧ fs.LinksMatch := by
  refine ⟨_, rfl, links_match_of_tracked sampleOps _ rfl ?_⟩
  refine ⟨?_, fun fs₁ h₁ => ⟨?_, fun fs₂ h₂ => ⟨?_, fun fs₃ h₃ => ⟨trivial, fun fs₄ h₄ =>
    ⟨⟨rfl, ?_⟩, fun fs₅ h₅ => trivial⟩⟩⟩⟩⟩
  · intro i hi
    cases hi
    decide
  · cases h₁
    intro i hi
    cases hi
    decide
  · cases h₁
    cases h₂
    intro _ e he
    cases he
    refine ⟨fun _ _ i hi => ?_, fun t ht => ?_⟩
    · cases hi
      decide
    · cases ht
  · cases h₁
    cases h₂
    cases h₃
    cases h₄
    intro e i he hi
    cases he
    cases hi
    rfl

/-- A symbolic link in the root directory gives it a third link; unlinking one of
two names leaves the disk copy at 2. -/
theorem symlink_and_unlink_miscount :
    (∃ fs, Fs.fresh.run [.symlink 1 [97] 2 1] = .ok fs ∧ ¬ fs.LinksMatch) ∧
    (∃ fs, Fs.fresh.run [.create 1 [97] 2, .link 2 1 [98], .unlink 1 [97] false] = .ok fs ∧
      ¬ fs.LinksMatch) := by
  constructor
  · refine ⟨_, rfl, fun h => ?_⟩
    have hRoot := h.dirs 1 _ rfl rfl rfl
    revert hRoot
    decide
  · refine ⟨_, rfl, fun h => ?_⟩
    have hFile := h.disk 2 _ rfl
    revert hFile
    decide

end Briefs.Dir
