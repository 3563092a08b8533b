import Briefs.Dir.Account

/-!
# BrieFS — names made and names taken away

The operations that add one entry, create and link, and the common part of those
that take one away. Each is first brought to a form that says what happens to
every inode and to the list of entries; the account then follows.

## Results

* `create_accounted`, `link_accounted` — a name is made.
* `DropsName.accounted`, `Accounted.lostName` — a name is taken away, first as the
  operation leaves it and then as the VFS does.
-/

namespace Briefs.Dir

--
-- What the steps of an operation do
--

theorem bind_ok {α β : Type} {r : Except Errno α} {f : α → Except Errno β} {b : β}
    (h : (r >>= f) = .ok b) : ∃ a, r = .ok a ∧ f a = .ok b := by
  cases r with
  | error err => cases h
  | ok a => exact ⟨a, rfl, h⟩

theorem modify_inodes (fs : Fs) (a : Nat) (f : Inode → Inode) (x : Nat) :
    (fs.modify a f).inodes x = (fs.inodes x).map fun i => if x = a then f i else i := by
  unfold Fs.modify
  by_cases hx : x = a
  · simp [hx]
  · simp [hx]

@[simp]
theorem updateParentDir_dirents (fs : Fs) (dir : Nat) (size delta : Int) :
    (fs.updateParentDir dir size delta).dirents = fs.dirents := rfl

@[simp]
theorem carryLink_dirents (fs : Fs) (cross : Bool) (src a b : Nat) :
    (fs.carryLink cross src a b).dirents = fs.dirents := by
  unfold Fs.carryLink
  split_ifs <;> rfl

theorem incNlink_nlink {i : Inode} (h : i.nlink + 1 < linkModulus) :
    i.incNlink.nlink = i.nlink + 1 :=
  Nat.mod_eq_of_lt h

theorem dropNlink_nlink {i : Inode} (h : 0 < i.nlink) (hSmall : i.nlink < linkModulus) :
    i.dropNlink.nlink = i.nlink - 1 := by
  show (i.nlink + (linkModulus - 1)) % linkModulus = i.nlink - 1
  have hSplit : i.nlink + (linkModulus - 1) = (i.nlink - 1) + linkModulus := by
    unfold linkModulus
    omega
  rw [hSplit, Nat.add_mod_right, Nat.mod_eq_of_lt (by omega)]

theorem addDirEntry_ok {fs fs' : Fs} {dir : Nat} {name : Name} {ino : Nat} {type : Kind}
    (h : fs.addDirEntry dir name ino type = .ok fs') :
    fs'.inodes = fs.inodes ∧
    fs'.dirents = ⟨dir, name, ino, type⟩ :: fs.dirents.filter fun e => !e.isAt dir name := by
  unfold Fs.addDirEntry at h
  split at h
  · cases h
  · cases h
    exact ⟨rfl, rfl⟩

theorem removeDirEntry_ok {fs fs' : Fs} {dir : Nat} {name : Name}
    (h : fs.removeDirEntry dir name = .ok fs') :
    fs'.inodes = fs.inodes ∧ fs'.dirents = fs.dirents.filter fun e => !e.isAt dir name := by
  unfold Fs.removeDirEntry at h
  split at h
  · cases h
  · split at h
    · cases h
      exact ⟨rfl, rfl⟩
    · cases h

theorem repointDirEntry_ok {fs fs' : Fs} {dir : Nat} {name : Name} {ino : Nat} {type : Kind}
    (h : fs.repointDirEntry dir name ino type = .ok fs') :
    fs'.inodes = fs.inodes ∧
    fs'.dirents = ⟨dir, name, ino, type⟩ :: fs.dirents.filter fun e => !e.isAt dir name := by
  unfold Fs.repointDirEntry at h
  split at h
  · cases h
    exact ⟨rfl, rfl⟩
  · cases h

/-- The inode `briefs_new_inode` sets up. -/
def freshInode (dir : Nat) (kind : Kind) (size : Nat) : Inode where
  kind   := kind
  size   := size
  nlink  := if kind = .dir then 2 else 1
  nlinks := if kind = .dir then 2 else 1
  parent := if kind = .dir then dir else 0
  dead   := false

theorem newInode_ok {fs fs' : Fs} {dir ino : Nat} {kind : Kind} {size : Nat}
    (h : fs.newInode dir ino kind size = .ok fs') :
    fs.inodes ino = none ∧ fs'.dirents = fs.dirents ∧
    fs'.inodes = fun x => if x = ino then some (freshInode dir kind size) else fs.inodes x := by
  unfold Fs.newInode at h
  split at h
  · cases h
  · rename_i hNone
    cases h
    exact ⟨by simpa using hNone, rfl, rfl⟩

theorem live_of_liveDir {fs : Fs} {dir : Nat} (h : fs.liveDir dir = true) : fs.Live dir .dir := by
  unfold Fs.liveDir at h
  cases hi : fs.inodes dir with
  | none => simp [hi] at h
  | some i =>
    simp only [hi, Option.any_some, Bool.and_eq_true, beq_iff_eq, Bool.not_eq_true'] at h
    exact ⟨i, hi, h⟩

theorem mayCreate_ok {fs : Fs} {dir : Nat} {name : Name} {u : Unit}
    (h : fs.mayCreate dir name = .ok u) :
    fs.Live dir .dir ∧ ∀ e ∈ fs.dirents, ¬ (e.dir = dir ∧ e.name = name) := by
  unfold Fs.mayCreate at h
  split at h
  · cases h
  · rename_i hLive
    split at h
    · cases h
    · rename_i hNone
      exact ⟨live_of_liveDir (by simpa using hLive), absent_of_lookup (by simpa using hNone)⟩

/-- The directory's count after `briefs_update_parent_dir`. -/
def Inode.updated (i : Inode) (sizeDelta linkDelta : Int) : Inode :=
  let j := if 0 < linkDelta then i.incNlink else if linkDelta < 0 then i.dropNlink else i
  { j with size := (i.size + sizeDelta).toNat, nlinks := j.nlink }

theorem updateParentDir_inodes (fs : Fs) (dir : Nat) (size delta : Int) (x : Nat) :
    (fs.updateParentDir dir size delta).inodes x =
      (fs.inodes x).map fun i => if x = dir then i.updated size delta else i :=
  modify_inodes fs dir _ x

@[simp]
theorem updated_kind (i : Inode) (size delta : Int) : (i.updated size delta).kind = i.kind := by
  unfold Inode.updated Inode.incNlink Inode.dropNlink
  split
  · rfl
  · split <;> rfl

@[simp]
theorem updated_dead (i : Inode) (size delta : Int) : (i.updated size delta).dead = i.dead := by
  unfold Inode.updated Inode.incNlink Inode.dropNlink
  split
  · rfl
  · split <;> rfl

@[simp]
theorem updated_nlinks (i : Inode) (size delta : Int) :
    (i.updated size delta).nlinks = (i.updated size delta).nlink := rfl

@[simp]
theorem updated_zero_nlink (i : Inode) (size : Int) : (i.updated size 0).nlink = i.nlink := rfl

@[simp]
theorem updated_one_nlink (i : Inode) (size : Int) :
    (i.updated size 1).nlink = i.incNlink.nlink := rfl

--
-- Operations that make a name
--

section

variable {fs fs' : Fs} {lost : Option Nat}

/-- A new inode with its entry, the parent's count raised for a directory only. -/
theorem create_accounted (h : Accounted fs none) {dir ino : Nat} {name : Name} {kind : Kind}
    {u : Unit} (hMay : fs.mayCreate dir name = .ok u)
    (hRoom : kind = .dir → ∀ i, fs.inodes dir = some i → i.nlink + 1 < linkModulus)
    (hOk : fs.create dir name ino kind = .ok fs') : Accounted fs' none := by
  obtain ⟨hLive, hAbsent⟩ := mayCreate_ok hMay
  obtain ⟨fs₁, hNew, hOk⟩ := bind_ok hOk
  obtain ⟨hNone, hDirents₁, hInodes₁⟩ := newInode_ok hNew
  obtain ⟨fs₂, hAdd, hOk⟩ := bind_ok hOk
  obtain ⟨hInodes₂, hDirents₂⟩ := addDirEntry_ok hAdd
  cases hOk
  rw [hDirents₁, filter_isAt_of_absent hAbsent] at hDirents₂
  obtain ⟨d, hd, hdKind, hdDead⟩ := hLive
  have hNe : dir ≠ ino := by
    rintro rfl
    rw [hNone] at hd
    cases hd
  have hUnnamed := h.absent hNone
  have hInodes : ∀ x, (fs₂.updateParentDir dir (dirEntryPrefixLen + name.length)
      (if kind = .dir then 1 else 0)).inodes x =
      if x = ino then some (freshInode dir kind 0)
      else (fs.inodes x).map fun i =>
        if x = dir then i.updated (dirEntryPrefixLen + name.length) (if kind = .dir then 1 else 0)
        else i := by
    intro x
    rw [updateParentDir_inodes, hInodes₂, hInodes₁]
    by_cases hx : x = ino
    · simp [hx, hNe.symm]
    · simp [hx]
  have hBal : Balanced fs (fs₂.updateParentDir dir (dirEntryPrefixLen + name.length)
      (if kind = .dir then 1 else 0)) none [] [⟨dir, name, ino, kind⟩] := by
    refine Balanced.of_map (fun x i => if x = dir then
      i.updated (dirEntryPrefixLen + name.length) (if kind = .dir then 1 else 0) else i)
      ?_ ?_ ?_ ?_
    · intro x i hi
      have hx : x ≠ ino := by
        rintro rfl
        rw [hNone] at hi
        cases hi
      rw [hInodes x, if_neg hx, hi]
      rfl
    · intro x i
      by_cases hx : x = dir <;> simp [hx]
    · intro x i hi
      have hSmall := h.small x i hi
      have hDisk := h.disk x i hi (by simp)
      have hxIno : ino ≠ x := by
        rintro rfl
        rw [hNone] at hi
        cases hi
      by_cases hx : x = dir
      · subst hx
        obtain rfl : i = d := Option.some.inj (hi.symm.trans hd)
        by_cases hKind : kind = .dir
        · have hInc := incNlink_nlink (hRoom hKind i hi)
          have hBound := hRoom hKind i hi
          simp [hKind, hdKind, Dirent.weight, hInc, hBound]
        · simp [hKind, hdKind, Dirent.weight, hSmall]
      · have hWeight : (⟨dir, name, ino, kind⟩ : Dirent).weight x i.kind = 0 := by
          simp [Dirent.weight, Ne.symm hx, hxIno]
        simp [hx, hSmall, hDisk, hWeight]
    · intro x i' hx hi'
      rw [hInodes x, hx] at hi'
      by_cases hIno : x = ino
      · subst hIno
        rw [if_pos rfl] at hi'
        cases hi'
        by_cases hKind : kind = .dir
        · subst hKind
          refine ⟨⟨rfl, by simp⟩, (by show 2 < linkModulus; decide), ?_, rfl⟩
          simp [freshInode, baseLinks, Dirent.weight, hNe]
        · refine ⟨⟨rfl, by simp⟩, ?_, ?_, rfl⟩
          · simp [freshInode, hKind, linkModulus]
          · simp [freshInode, baseLinks, Dirent.weight, hKind]
      · simp [hIno] at hi'
  have hDirents : (fs₂.updateParentDir dir (dirEntryPrefixLen + name.length)
      (if kind = .dir then 1 else 0)).dirents = ⟨dir, name, ino, kind⟩ :: fs.dirents := hDirents₂
  refine h.relink hBal (List.Perm.refl fs.dirents) (by rw [hDirents]; rfl) ?_ ?_ ?_ ?_ (by simp)
  · rw [hDirents]
    refine List.pairwise_cons.mpr ⟨?_, h.keyed⟩
    intro e he hEq
    exact hAbsent e he ⟨hEq.1.symm, hEq.2.symm⟩
  · intro e he
    rw [List.mem_singleton.mp he]
    refine ⟨freshInode dir kind 0, ?_, rfl, rfl⟩
    rw [hInodes ino, if_pos rfl]
  · intro e he
    rw [List.mem_singleton.mp he]
    exact hBal.live ⟨d, hd, hdKind, hdDead⟩
  · rw [hDirents]
    exact h.single.cons fun e' he' hSame => absurd hSame (hUnnamed e' he').1

/-- What `briefs_link` does. -/
theorem link_ok {src dir : Nat} {name : Name} (hOk : fs.link src dir name = .ok fs') :
    ∃ s, fs.inodes src = some s ∧ s.kind ≠ .dir ∧
      fs'.dirents = ⟨dir, name, src, s.kind⟩ :: fs.dirents.filter (fun e => !e.isAt dir name) ∧
      ∀ x, fs'.inodes x = (fs.inodes x).map fun i =>
        let j := if x = src then { i.incNlink with nlinks := i.incNlink.nlink } else i
        if x = dir then j.updated (dirEntryPrefixLen + name.length) 0 else j := by
  unfold Fs.link at hOk
  cases hs : fs.inodes src with
  | none => simp [hs] at hOk
  | some s =>
    simp only [hs] at hOk
    split at hOk
    · cases hOk
    · rename_i hKind
      obtain ⟨fs₁, hAdd, hOk⟩ := bind_ok hOk
      obtain ⟨hInodes₁, hDirents₁⟩ := addDirEntry_ok hAdd
      cases hOk
      refine ⟨s, rfl, hKind, hDirents₁, ?_⟩
      intro x
      rw [updateParentDir_inodes, modify_inodes, modify_inodes, hInodes₁, Option.map_map,
        Option.map_map]
      by_cases hx : x = src
      · simp [hx, Function.comp_def]
      · simp [hx, Function.comp_def]

/-- A further name for an inode that is not a directory. -/
theorem link_accounted (h : Accounted fs none) {src dir : Nat} {name : Name} {u : Unit}
    (hMay : fs.mayCreate dir name = .ok u)
    (hRoom : ∀ i, fs.inodes src = some i → i.nlink + 1 < linkModulus)
    (hOk : fs.link src dir name = .ok fs') : Accounted fs' none := by
  obtain ⟨hLive, hAbsent⟩ := mayCreate_ok hMay
  obtain ⟨s, hs, hKind, hDirents, hInodes⟩ := link_ok hOk
  rw [filter_isAt_of_absent hAbsent] at hDirents
  obtain ⟨d, hd, hdKind, hdDead⟩ := hLive
  have hNe : dir ≠ src := by
    rintro rfl
    obtain rfl : s = d := Option.some.inj (hs.symm.trans hd)
    exact hKind hdKind
  have hBal : Balanced fs fs' none [] [⟨dir, name, src, s.kind⟩] := by
    refine Balanced.of_map (fun x i =>
      let j := if x = src then { i.incNlink with nlinks := i.incNlink.nlink } else i
      if x = dir then j.updated (dirEntryPrefixLen + name.length) 0 else j) ?_ ?_ ?_ ?_
    · intro x i hi
      rw [hInodes x, hi]
      rfl
    · intro x i
      dsimp only
      split_ifs <;> simp [Inode.incNlink]
    · intro x i hi
      have hSmall := h.small x i hi
      have hDisk := h.disk x i hi (by simp)
      by_cases hx : x = src
      · subst hx
        obtain rfl : i = s := Option.some.inj (hi.symm.trans hs)
        have hInc := incNlink_nlink (hRoom i hi)
        have hBound := hRoom i hi
        simp [hNe.symm, Dirent.weight, hKind, hInc, hBound]
      · have hWeight : (⟨dir, name, src, s.kind⟩ : Dirent).weight x i.kind = 0 := by
          simp [Dirent.weight, Ne.symm hx, hKind]
        by_cases hxDir : x = dir
        · subst hxDir
          simp [hx, hSmall, hWeight]
        · simp [hx, hxDir, hSmall, hDisk, hWeight]
    · intro x i' hx hi'
      rw [hInodes x, hx] at hi'
      cases hi'
  have hOldLive : fs.Live src s.kind := by
    refine ⟨s, hs, rfl, ?_⟩
    by_contra hDead
    exact hKind (h.isDead src s hs (by simpa using hDead))
  refine h.relink hBal (List.Perm.refl fs.dirents) (by rw [hDirents]; rfl) ?_ ?_ ?_ ?_ (by simp)
  · rw [hDirents]
    refine List.pairwise_cons.mpr ⟨?_, h.keyed⟩
    intro e he hEq
    exact hAbsent e he ⟨hEq.1.symm, hEq.2.symm⟩
  · intro e he
    rw [List.mem_singleton.mp he]
    exact hBal.live hOldLive
  · intro e he
    rw [List.mem_singleton.mp he]
    exact hBal.live ⟨d, hd, hdKind, hdDead⟩
  · rw [hDirents]
    refine h.single.cons fun e' he' hSame => ⟨hKind, ?_⟩
    obtain ⟨j, hj, hjKind, -⟩ := h.named e' he'
    rw [hSame] at hj
    obtain rfl : s = j := Option.some.inj (hs.symm.trans hj)
    rw [← hjKind]
    exact hKind

--
-- Operations that take a name away
--

/-- The inodes after the name of `t` in `dir` is gone: the count of `t` is dropped,
or cleared for a directory, whose parent loses a link too. -/
structure DropsName (fs fs' : Fs) (dir t : Nat) (g : Nat → Inode → Inode) : Prop where
  map    : ∀ x, fs'.inodes x = (fs.inodes x).map (g x)
  kind   : ∀ x i, (g x i).kind = i.kind
  dead   : ∀ x i, (g x i).dead = i.dead
  small  : ∀ x i, i.nlink < linkModulus → (g x i).nlink < linkModulus
  target : ∀ i, (g t i).nlink = if fs.isDir t then 0 else i.dropNlink.nlink
  parent : ∀ i, dir ≠ t → (g dir i).nlink = if fs.isDir t then i.dropNlink.nlink else i.nlink
  other  : ∀ x i, x ≠ t → x ≠ dir → (g x i).nlink = i.nlink
  disk   : ∀ x i, x ≠ t → i.nlinks = i.nlink → (g x i).nlinks = (g x i).nlink

theorem isDir_iff_live {x : Nat} {k : Kind} (h : fs.Live x k) :
    fs.isDir x = true ↔ k = .dir := by
  obtain ⟨i, hi, hKind, -⟩ := h
  simp [Fs.isDir, hi, hKind]

theorem DropsName.live {dir t : Nat} {g : Nat → Inode → Inode} (hg : DropsName fs fs' dir t g)
    {x : Nat} {k : Kind} (h : fs.Live x k) : fs'.Live x k := by
  obtain ⟨i, hi, hKind, hDead⟩ := h
  refine ⟨g x i, ?_, (hg.kind x i).trans hKind, (hg.dead x i).trans hDead⟩
  rw [hg.map x, hi]
  rfl

/-- Taking away the entry `e` leaves an account with its inode lost. -/
theorem DropsName.accounted (h : Accounted fs none) {e : Dirent} {g : Nat → Inode → Inode}
    (hg : DropsName fs fs' e.dir e.ino g) (he : e ∈ fs.dirents)
    (hEmpty : e.type = .dir → ∀ e' ∈ fs.dirents, e'.dir ≠ e.ino)
    (hDirents : fs'.dirents = fs.dirents.filter fun e' => !e'.isAt e.dir e.name) :
    Accounted fs' (some e.ino) := by
  have hPerm := perm_filter_isAt h.keyed he
  rw [← hDirents] at hPerm
  have hSub : ∀ e' ∈ fs'.dirents, e' ∈ fs.dirents := by
    intro e' he'
    exact hPerm.mem_iff.mpr (List.mem_cons_of_mem _ he')
  have hTargetDir := isDir_iff_live (h.named e he)
  obtain ⟨t, ht, htKind, htDead⟩ := h.named e he
  obtain ⟨d, hd, hdKind, hdDead⟩ := h.placed e he
  have hApart : e.type = .dir → e.dir ≠ e.ino := fun hType => hEmpty hType e he
  have hInv : ∀ x i', fs'.inodes x = some i' → ∃ i, fs.inodes x = some i ∧ g x i = i' := by
    intro x i' hi'
    rw [hg.map x] at hi'
    exact Option.map_eq_some_iff.mp hi'
  have hCount : ∀ x i, fs.inodes x = some i → i.dead = false →
      ¬ (some e.ino = some x ∧ i.kind = .dir) →
      (g x i).nlink + e.weight x i.kind = i.nlink := by
    intro x i hi hLive hNot
    have hSmall := h.small x i hi
    have hOld := h.count x i hi hLive (by simp)
    rw [links_perm x i.kind hPerm, links_cons] at hOld
    by_cases hx : x = e.ino
    · subst hx
      obtain rfl : i = t := Option.some.inj (hi.symm.trans ht)
      have hNotDir : i.kind ≠ .dir := fun hDir => hNot ⟨rfl, hDir⟩
      have hWeight : e.weight e.ino i.kind = 1 := by simp [Dirent.weight, hNotDir]
      have hFlag : ¬ fs.isDir e.ino = true := fun hDir =>
        hNotDir (htKind.trans (hTargetDir.mp hDir))
      have hNew := hg.target i
      rw [if_neg hFlag, dropNlink_nlink (by omega) hSmall] at hNew
      omega
    · by_cases hxDir : x = e.dir
      · subst hxDir
        obtain rfl : i = d := Option.some.inj (hi.symm.trans hd)
        have hNew := hg.parent i hx
        by_cases hType : e.type = .dir
        · have hWeight : e.weight e.dir i.kind = 1 := by simp [Dirent.weight, hdKind, hType]
          rw [if_pos (hTargetDir.mpr hType), dropNlink_nlink (by omega) hSmall] at hNew
          omega
        · have hWeight : e.weight e.dir i.kind = 0 := by simp [Dirent.weight, hdKind, hType]
          rw [if_neg (fun hFlag => hType (hTargetDir.mp hFlag))] at hNew
          omega
      · have hWeight : e.weight x i.kind = 0 := by
          simp [Dirent.weight, Ne.symm hx, Ne.symm hxDir]
        have hNew := hg.other x i hx hxDir
        omega
  refine
    { keyed := ?_, named := ?_, placed := ?_, single := ?_, small := ?_, isDead := ?_,
      count := ?_, gone := ?_, disk := ?_ }
  · rw [hDirents]
    exact List.Pairwise.filter _ h.keyed
  · exact fun e' he' => hg.live (h.named e' (hSub e' he'))
  · exact fun e' he' => hg.live (h.placed e' (hSub e' he'))
  · exact h.single.sub hSub
  · intro x i' hi'
    obtain ⟨i, hi, rfl⟩ := hInv x i' hi'
    exact hg.small x i (h.small x i hi)
  · intro x i' hi' hDead
    obtain ⟨i, hi, rfl⟩ := hInv x i' hi'
    rw [hg.kind]
    exact h.isDead x i hi ((hg.dead x i).symm.trans hDead)
  · intro x i' hi' hLive hNot
    obtain ⟨i, hi, rfl⟩ := hInv x i' hi'
    rw [hg.dead] at hLive
    rw [hg.kind] at hNot ⊢
    have hOld := h.count x i hi hLive (by simp)
    rw [links_perm x i.kind hPerm, links_cons] at hOld
    have hNew := hCount x i hi hLive hNot
    omega
  · intro x i' hx hi' hDir
    obtain rfl : e.ino = x := Option.some.inj hx
    obtain ⟨i, hi, rfl⟩ := hInv e.ino i' hi'
    obtain rfl : i = t := Option.some.inj (hi.symm.trans ht)
    rw [hg.kind] at hDir
    have hType : e.type = .dir := htKind.symm.trans hDir
    refine ⟨?_, ?_⟩
    · rw [hg.target, if_pos (hTargetDir.mpr hType)]
    · intro e' he'
      refine ⟨?_, hEmpty hType e' (hSub e' he')⟩
      intro hSame
      obtain rfl := h.single e he e' (hSub e' he') hType hSame.symm
      rw [hDirents] at he'
      exact (mem_filter_isAt.mp he').2 ⟨rfl, rfl⟩
  · intro x i' hi' hNot
    obtain ⟨i, hi, rfl⟩ := hInv x i' hi'
    have hx : x ≠ e.ino := fun hEq => hNot (by rw [hEq])
    exact hg.disk x i hx (h.disk x i hi (by simp))

theorem dropNlink_small (i : Inode) : i.dropNlink.nlink < linkModulus :=
  Nat.mod_lt _ (by decide)

theorem isDir_congr {fs₁ : Fs} (h : fs₁.inodes = fs.inodes) (x : Nat) :
    fs₁.isDir x = fs.isDir x := by
  unfold Fs.isDir
  rw [h]

/-- One inode after `dropLinks`. -/
def Inode.linkDropped (i : Inode) (wasDir : Bool) (dir t x : Nat) : Inode :=
  if x = t then (if wasDir then i.clearNlink else i.dropNlink)
  else if x = dir ∧ wasDir then i.dropNlink
  else i

theorem dropLinks_inodes {dir t : Nat} (hApart : fs.isDir t = true → dir ≠ t) (x : Nat) :
    (fs.dropLinks dir t).inodes x =
      (fs.inodes x).map fun i => i.linkDropped (fs.isDir t) dir t x := by
  unfold Fs.dropLinks
  by_cases hDir : fs.isDir t = true
  · rw [if_pos hDir, modify_inodes, modify_inodes, Option.map_map]
    congr 1
    funext i
    unfold Inode.linkDropped
    by_cases hx : x = t
    · have hxDir : ¬ x = dir := fun hEq => hApart hDir (hEq.symm.trans hx)
      simp [hx, hDir, hx ▸ hxDir]
    · simp [hx, hDir]
  · rw [if_neg hDir, modify_inodes]
    congr 1
    funext i
    unfold Inode.linkDropped
    by_cases hx : x = t <;> simp [hx, hDir]

@[simp]
theorem linkDropped_kind (i : Inode) (wasDir : Bool) (dir t x : Nat) :
    (i.linkDropped wasDir dir t x).kind = i.kind := by
  unfold Inode.linkDropped Inode.clearNlink Inode.dropNlink
  split_ifs <;> rfl

@[simp]
theorem linkDropped_dead (i : Inode) (wasDir : Bool) (dir t x : Nat) :
    (i.linkDropped wasDir dir t x).dead = i.dead := by
  unfold Inode.linkDropped Inode.clearNlink Inode.dropNlink
  split_ifs <;> rfl

/-- The counts dropped and the parent updated, with `m` the other fields of the
removed inode that the caller changes. -/
theorem dropsName_intro {dir t : Nat} (size : Int) (m : Inode → Inode)
    (hm : ∀ i, (m i).kind = i.kind ∧ (m i).dead = i.dead ∧ (m i).nlink = i.nlink)
    (hMap : ∀ x, fs'.inodes x = (fs.inodes x).map fun i =>
      let j := i.linkDropped (fs.isDir t) dir t x
      let k := if x = t then m j else j
      if x = dir then k.updated size 0 else k) :
    ∃ g, DropsName fs fs' dir t g := by
  refine ⟨fun x i =>
    let j := i.linkDropped (fs.isDir t) dir t x
    let k := if x = t then m j else j
    if x = dir then k.updated size 0 else k, hMap, ?_, ?_, ?_, ?_, ?_, ?_, ?_⟩
  · intro x i
    dsimp only
    split_ifs <;> simp [hm]
  · intro x i
    dsimp only
    split_ifs <;> simp [hm]
  · intro x i hSmall
    have hDropped : (i.linkDropped (fs.isDir t) dir t x).nlink < linkModulus := by
      unfold Inode.linkDropped
      split_ifs
      · show 0 < linkModulus
        decide
      · exact dropNlink_small i
      · exact dropNlink_small i
      · exact hSmall
    dsimp only
    split_ifs <;> simp [hm, hDropped]
  · intro i
    have hDropped : (i.linkDropped (fs.isDir t) dir t t).nlink =
        if fs.isDir t then 0 else i.dropNlink.nlink := by
      unfold Inode.linkDropped
      by_cases hDir : fs.isDir t = true
      · simp [hDir, Inode.clearNlink]
      · simp [hDir]
    dsimp only
    split_ifs at hDropped ⊢ <;> simp [hm, hDropped]
  · intro i hNe
    by_cases hDir : fs.isDir t = true
    · simp [Inode.linkDropped, hNe, hDir]
    · simp [Inode.linkDropped, hNe, hDir]
  · intro x i hx hxDir
    simp [Inode.linkDropped, hx, hxDir]
  · intro x i hx hSame
    by_cases hxDir : x = dir
    · simp [hxDir]
    · simp [Inode.linkDropped, hx, hxDir, hSame]

/-- `briefs_unlink_common` drops a name. -/
theorem unlinkCommon_drops {dir : Nat} {name : Name} {t : Nat}
    (hApart : fs.isDir t = true → dir ≠ t)
    (hOk : fs.unlinkCommon dir name t = .ok fs') :
    (∃ g, DropsName fs fs' dir t g) ∧
      fs'.dirents = fs.dirents.filter fun e => !e.isAt dir name := by
  obtain ⟨fs₁, hRemove, hOk⟩ := bind_ok hOk
  obtain ⟨hInodes, hDirents⟩ := removeDirEntry_ok hRemove
  have hFlag := isDir_congr hInodes t
  cases hOk
  refine ⟨dropsName_intro (-(dirEntryPrefixLen + name.length)) id (fun i => ⟨rfl, rfl, rfl⟩) ?_, ?_⟩
  · intro x
    rw [updateParentDir_inodes, dropLinks_inodes (hFlag ▸ hApart), hInodes, hFlag,
      Option.map_map]
    congr 1
    funext i
    simp
  · rw [← hDirents]
    unfold Fs.dropLinks
    split_ifs <;> rfl

/-- So does the replacing part of a rename, and it keeps the disk copy in step. -/
theorem replaceTarget_drops {dir : Nat} {name : Name} {t : Nat}
    (hApart : fs.isDir t = true → dir ≠ t)
    (hOk : fs.replaceTarget dir name t = .ok fs') :
    (∃ g, DropsName fs fs' dir t g) ∧
      fs'.dirents = fs.dirents.filter (fun e => !e.isAt dir name) ∧
      ∀ i', fs'.inodes t = some i' → i'.nlinks = i'.nlink := by
  unfold Fs.replaceTarget at hOk
  split at hOk
  · cases hOk
  · obtain ⟨fs₁, hRemove, hOk⟩ := bind_ok hOk
    obtain ⟨hInodes, hDirents⟩ := removeDirEntry_ok hRemove
    have hFlag := isDir_congr hInodes t
    cases hOk
    refine ⟨dropsName_intro 0 (fun j => { j with nlinks := j.nlink })
      (fun i => ⟨rfl, rfl, rfl⟩) ?_, ?_, ?_⟩
    · intro x
      rw [updateParentDir_inodes, modify_inodes, dropLinks_inodes (hFlag ▸ hApart), hInodes, hFlag,
        Option.map_map, Option.map_map]
      rfl
    · rw [← hDirents]
      unfold Fs.dropLinks
      split_ifs <;> rfl
    · intro i' hi'
      rw [updateParentDir_inodes, modify_inodes, Option.map_map] at hi'
      obtain ⟨i, -, rfl⟩ := Option.map_eq_some_iff.mp hi'
      simp only [Function.comp_apply, if_true]
      split_ifs <;> rfl

/-- The inode `t` after `lostName`, if it is still there. -/
theorem lostName_inodes {t : Nat} {held : Bool} {x : Nat} {i' : Inode}
    (hi' : (fs.lostName t held).inodes x = some i') :
    ∃ i, fs.inodes x = some i ∧ i'.kind = i.kind ∧ i'.nlink = i.nlink ∧ i'.nlinks = i.nlinks ∧
      (x ≠ t → i' = i) ∧
      (x = t → i'.dead = (i.kind == .dir) ∧ (held = true ∨ i.nlink ≠ 0)) := by
  unfold Fs.lostName at hi'
  cases hHeld : held with
  | true =>
    simp only [hHeld, if_true, modify_inodes] at hi'
    obtain ⟨i, hi, rfl⟩ := Option.map_eq_some_iff.mp hi'
    by_cases hx : x = t
    · exact ⟨i, hi, by simp [hx]⟩
    · exact ⟨i, hi, by simp [hx]⟩
  | false =>
    simp only [hHeld, Bool.false_eq_true, if_false, Fs.evict, modify_inodes] at hi'
    by_cases hx : x = t
    · rw [if_pos hx, Option.filter_eq_some_iff] at hi'
      obtain ⟨hMap, hLinks⟩ := hi'
      obtain ⟨i, hi, rfl⟩ := Option.map_eq_some_iff.mp hMap
      exact ⟨i, hi, by simpa [hx] using hLinks⟩
    · rw [if_neg hx] at hi'
      obtain ⟨i, hi, rfl⟩ := Option.map_eq_some_iff.mp hi'
      exact ⟨i, hi, by simp [hx]⟩

/-- An inode that still has a name is not evicted. -/
theorem lostName_stays {t : Nat} (held : Bool) {x : Nat} {i : Inode} (hi : fs.inodes x = some i)
    (hStay : x = t → i.kind ≠ .dir ∧ i.nlink ≠ 0) :
    ∃ i', (fs.lostName t held).inodes x = some i' ∧ i'.kind = i.kind ∧
      (x ≠ t → i'.dead = i.dead) ∧ (x = t → i'.dead = false) := by
  unfold Fs.lostName
  by_cases hx : x = t
  · obtain ⟨hKind, hLinks⟩ := hStay hx
    refine ⟨{ i with dead := false }, ?_, rfl, fun hNe => absurd hx hNe, fun _ => rfl⟩
    cases held with
    | true => simp [modify_inodes, hx ▸ hi, hx, hKind]
    | false => simp [Fs.evict, modify_inodes, hx ▸ hi, hx, hKind, Option.filter, hLinks]
  · refine ⟨i, ?_, rfl, fun _ => rfl, fun hEq => absurd hEq hx⟩
    cases held with
    | true => simp [modify_inodes, hi, hx]
    | false => simp [Fs.evict, modify_inodes, hi, hx]

/-- Once the VFS has taken note of the loss nothing is left unaccounted, provided
the disk copy agrees wherever the inode stays in memory. -/
theorem Accounted.lostName {t : Nat} (h : Accounted fs (some t)) {held : Bool}
    (hDisk : ∀ i, fs.inodes t = some i → held = true ∨ i.nlink ≠ 0 → i.nlinks = i.nlink) :
    Accounted (fs.lostName t held) none := by
  have hDirents : (fs.lostName t held).dirents = fs.dirents := by
    unfold Fs.lostName
    split_ifs <;> rfl
  have hLive : ∀ x k, fs.Live x k → (x = t → k ≠ .dir ∧ ∃ e ∈ fs.dirents, e.ino = t) →
      (fs.lostName t held).Live x k := by
    intro x k hx hName
    obtain ⟨i, hi, hKind, hDead⟩ := hx
    have hStay : x = t → i.kind ≠ .dir ∧ i.nlink ≠ 0 := by
      rintro rfl
      obtain ⟨hNotDir, e, he, hIno⟩ := hName rfl
      rw [← hKind] at hNotDir
      refine ⟨hNotDir, ?_⟩
      have hCount := h.count x i hi hDead (fun hBoth => hNotDir hBoth.2)
      have hPos : 0 < links x i.kind fs.dirents := by
        unfold links
        rw [if_neg hNotDir]
        exact List.countP_pos_iff.mpr ⟨e, he, by simp [hIno]⟩
      omega
    obtain ⟨i', hi', hKind', hSame, hFlag⟩ := lostName_stays held hi hStay
    refine ⟨i', hi', hKind'.trans hKind, ?_⟩
    by_cases hEq : x = t
    · exact hFlag hEq
    · exact (hSame hEq).trans hDead
  refine
    { keyed := hDirents ▸ h.keyed, named := ?_, placed := ?_, single := hDirents ▸ h.single,
      small := ?_, isDead := ?_, count := ?_, gone := by simp, disk := ?_ }
  · intro e he
    rw [hDirents] at he
    refine hLive e.ino e.type (h.named e he) ?_
    intro hEq
    refine ⟨?_, e, he, hEq⟩
    intro hType
    obtain ⟨i, hi, hKind, -⟩ := h.named e he
    exact ((h.gone e.ino i (by rw [hEq]) hi (hKind.trans hType)).2 e he).1 rfl
  · intro e he
    rw [hDirents] at he
    refine hLive e.dir .dir (h.placed e he) ?_
    intro hEq
    obtain ⟨i, hi, hKind, -⟩ := h.placed e he
    exact absurd rfl ((h.gone e.dir i (by rw [hEq]) hi hKind).2 e he).2
  · intro x i' hi'
    obtain ⟨i, hi, -, hSame, -⟩ := lostName_inodes hi'
    rw [hSame]
    exact h.small x i hi
  · intro x i' hi' hDead
    obtain ⟨i, hi, hKind, -, -, hOther, hLost⟩ := lostName_inodes hi'
    by_cases hx : x = t
    · have hFlag := (hLost hx).1
      rw [hDead] at hFlag
      rw [hKind]
      simpa using hFlag.symm
    · rw [hOther hx] at hDead ⊢
      exact h.isDead x i hi hDead
  · intro x i' hi' hDead _
    obtain ⟨i, hi, hKind, hSame, -, hOther, hLost⟩ := lostName_inodes hi'
    rw [hDirents, hSame, hKind]
    by_cases hx : x = t
    · have hFlag := (hLost hx).1
      have hNotDir : i.kind ≠ .dir := by
        intro hDir
        rw [hDead, hDir] at hFlag
        cases hFlag
      have hOld : i.dead = false := by
        by_contra hOldDead
        exact hNotDir (h.isDead x i hi (by simpa using hOldDead))
      exact h.count x i hi hOld (fun hBoth => hNotDir hBoth.2)
    · rw [hOther hx] at hDead
      exact h.count x i hi hDead (fun hBoth => hx (Option.some.inj hBoth.1).symm)
  · intro x i' hi' _
    obtain ⟨i, hi, -, hSame, hSameDisk, -, hLost⟩ := lostName_inodes hi'
    rw [hSame, hSameDisk]
    by_cases hx : x = t
    · subst hx
      exact hDisk i hi (hLost rfl).2
    · exact h.disk x i hi (fun hEq => hx (Option.some.inj hEq).symm)

end

end Briefs.Dir
