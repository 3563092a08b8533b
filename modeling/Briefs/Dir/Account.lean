import Briefs.Dir.Ops
import Mathlib.Data.List.Perm.Basic
import Mathlib.Tactic

/-!
# BrieFS — the account of links

A directory should have two links and one more for each subdirectory, any other
inode one link for each of its names, and the disk copy of a count should agree
with the VFS count. Every operation changes a few entries and a few counts; the
account kept here is of entries removed and added, so that a whole operation is
balanced or not whatever the order of its steps.

## Results

* `Accounted.linksMatch` — with everything accounted for the counts match.
* `Accounted.relink` — a balanced change of entries and counts keeps the account.
-/

namespace Briefs.Dir

--
-- The counts of the namespace
--

/-- The entries of a directory that are directories. -/
def Fs.subdirs (fs : Fs) (dir : Nat) : Nat :=
  fs.dirents.countP fun e => e.dir == dir && fs.isDir e.ino

/-- The entries that name an inode. -/
def Fs.names (fs : Fs) (ino : Nat) : Nat :=
  fs.dirents.countP fun e => e.ino == ino

/-- Every link count agrees with the names there are, and with its disk copy. A
directory that was removed but is still open is no longer part of the namespace;
only the two counts are compared for it. -/
structure Fs.LinksMatch (fs : Fs) : Prop where
  dirs   : ∀ ino i, fs.inodes ino = some i → i.kind = .dir → i.dead = false →
    i.nlink = 2 + fs.subdirs ino
  others : ∀ ino i, fs.inodes ino = some i → i.kind ≠ .dir → i.nlink = fs.names ino
  disk   : ∀ ino i, fs.inodes ino = some i → i.nlinks = i.nlink

/-- The links an entry list gives to inode `x` of kind `k`: subdirectories for a
directory, names for anything else. -/
def links (x : Nat) (k : Kind) (l : List Dirent) : Nat :=
  if k = .dir then l.countP fun e => e.dir == x && e.type == .dir
  else l.countP fun e => e.ino == x

/-- The links every inode of kind `k` has. -/
def baseLinks (k : Kind) : Nat :=
  if k = .dir then 2 else 0

/-- What one entry adds to `links`. -/
def Dirent.weight (e : Dirent) (x : Nat) (k : Kind) : Nat :=
  if k = .dir then (if e.dir = x ∧ e.type = .dir then 1 else 0)
  else (if e.ino = x then 1 else 0)

@[simp]
theorem links_nil (x : Nat) (k : Kind) : links x k [] = 0 := by
  unfold links
  split <;> rfl

@[simp]
theorem links_cons (x : Nat) (k : Kind) (e : Dirent) (l : List Dirent) :
    links x k (e :: l) = e.weight x k + links x k l := by
  unfold links Dirent.weight
  by_cases hKind : k = .dir
  · simp only [if_pos hKind, List.countP_cons, Bool.and_eq_true, beq_iff_eq]
    omega
  · simp only [if_neg hKind, List.countP_cons, beq_iff_eq]
    omega

theorem links_append (x : Nat) (k : Kind) (l l' : List Dirent) :
    links x k (l ++ l') = links x k l + links x k l' := by
  unfold links
  split <;> rw [List.countP_append]

theorem links_perm (x : Nat) (k : Kind) {l l' : List Dirent} (hPerm : l.Perm l') :
    links x k l = links x k l' := by
  unfold links
  split <;> exact hPerm.countP_eq _

/-- An inode that no entry mentions has no links. -/
theorem links_eq_zero {x : Nat} {l : List Dirent} (hNone : ∀ e ∈ l, e.ino ≠ x ∧ e.dir ≠ x)
    (k : Kind) : links x k l = 0 := by
  unfold links
  split
  · rw [List.countP_eq_zero]
    intro e he hEq
    simp only [Bool.and_eq_true, beq_iff_eq] at hEq
    exact (hNone e he).2 hEq.1
  · rw [List.countP_eq_zero]
    intro e he hEq
    simp only [beq_iff_eq] at hEq
    exact (hNone e he).1 hEq

--
-- Entry lists keyed by directory and name
--

/-- No two entries stand at one name of one directory. -/
def Keyed (l : List Dirent) : Prop :=
  l.Pairwise fun e e' => ¬ (e.dir = e'.dir ∧ e.name = e'.name)

@[simp]
theorem isAt_iff (e : Dirent) (dir : Nat) (name : Name) :
    e.isAt dir name = true ↔ e.dir = dir ∧ e.name = name := by
  unfold Dirent.isAt
  simp

/-- The other names of a list that holds `e`. -/
theorem perm_filter_isAt {l : List Dirent} (h : Keyed l) {e : Dirent} (he : e ∈ l) :
    l.Perm (e :: l.filter fun e' => !e'.isAt e.dir e.name) := by
  induction l with
  | nil => cases he
  | cons a l ih =>
    have hHead := List.pairwise_cons.mp h
    rcases List.mem_cons.mp he with rfl | hMem
    · have hAll : l.filter (fun e' => !e'.isAt e.dir e.name) = l := by
        rw [List.filter_eq_self]
        intro e' he'
        have hNe := hHead.1 e' he'
        simp only [Bool.not_eq_true', ← Bool.not_eq_true, isAt_iff]
        exact fun hEq => hNe ⟨hEq.1.symm, hEq.2.symm⟩
      rw [List.filter_cons_of_neg (by simp), hAll]
    · have hNe : ¬ a.isAt e.dir e.name = true := by
        rw [isAt_iff]
        exact hHead.1 e hMem
      have hTrue : (!a.isAt e.dir e.name) = true := by
        simp only [Bool.not_eq_true', ← Bool.not_eq_true]
        exact hNe
      rw [List.filter_cons, if_pos hTrue]
      exact ((ih hHead.2 hMem).cons a).trans (List.Perm.swap e a _)

theorem Keyed.eq {l : List Dirent} (h : Keyed l) {e e' : Dirent} (he : e ∈ l) (he' : e' ∈ l)
    (hDir : e'.dir = e.dir) (hName : e'.name = e.name) : e' = e := by
  rcases List.mem_cons.mp ((perm_filter_isAt h he).mem_iff.mp he') with hEq | hOther
  · exact hEq
  · have hNot := (List.mem_filter.mp hOther).2
    simp [Dirent.isAt, hDir, hName] at hNot

theorem filter_isAt_of_absent {l : List Dirent} {dir : Nat} {name : Name}
    (hAbsent : ∀ e ∈ l, ¬ (e.dir = dir ∧ e.name = name)) :
    l.filter (fun e => !e.isAt dir name) = l := by
  rw [List.filter_eq_self]
  intro e he
  simp only [Bool.not_eq_true', ← Bool.not_eq_true, isAt_iff]
  exact hAbsent e he

theorem mem_filter_isAt {l : List Dirent} {dir : Nat} {name : Name} {e : Dirent} :
    e ∈ l.filter (fun e => !e.isAt dir name) ↔ e ∈ l ∧ ¬ (e.dir = dir ∧ e.name = name) := by
  rw [List.mem_filter]
  simp only [Bool.not_eq_true', ← Bool.not_eq_true, isAt_iff]

/-- Whatever stood at the name before, one entry stands there after an add. -/
theorem Keyed.add {l : List Dirent} (h : Keyed l) (e : Dirent) :
    Keyed (e :: l.filter fun e' => !e'.isAt e.dir e.name) := by
  refine List.pairwise_cons.mpr ⟨?_, List.Pairwise.filter _ h⟩
  intro e' he' hEq
  exact (mem_filter_isAt.mp he').2 ⟨hEq.1.symm, hEq.2.symm⟩

theorem mem_of_lookup {fs : Fs} {dir : Nat} {name : Name} {e : Dirent}
    (h : fs.lookup dir name = some e) : e ∈ fs.dirents ∧ e.dir = dir ∧ e.name = name := by
  have hAt := List.find?_some h
  exact ⟨List.mem_of_find?_eq_some h, (isAt_iff _ _ _).mp hAt⟩

theorem absent_of_lookup {fs : Fs} {dir : Nat} {name : Name}
    (h : fs.lookup dir name = none) : ∀ e ∈ fs.dirents, ¬ (e.dir = dir ∧ e.name = name) := by
  intro e he hEq
  have hNot := List.find?_eq_none.mp h e he
  exact hNot ((isAt_iff _ _ _).mpr hEq)

--
-- The account
--

/-- A directory has one name. -/
def OnceNamed (l : List Dirent) : Prop :=
  ∀ e ∈ l, ∀ e' ∈ l, e.type = .dir → e.ino = e'.ino → e = e'

theorem OnceNamed.sub {l l' : List Dirent} (h : OnceNamed l) (hSub : ∀ e ∈ l', e ∈ l) :
    OnceNamed l' :=
  fun e he e' he' => h e (hSub e he) e' (hSub e' he')

/-- Two entries for one inode: it is not a directory. -/
theorem OnceNamed.other {l : List Dirent} (h : OnceNamed l) {e e' : Dirent} (he : e ∈ l)
    (he' : e' ∈ l) (hNe : e' ≠ e) (hSame : e'.ino = e.ino) : e.type ≠ .dir ∧ e'.type ≠ .dir :=
  ⟨fun hType => hNe (h e he e' he' hType hSame.symm).symm,
    fun hType => hNe (h e' he' e he hType hSame)⟩

/-- An entry may join when its inode has no other name, or is not a directory. -/
theorem OnceNamed.cons {l : List Dirent} (h : OnceNamed l) {e : Dirent}
    (hOnly : ∀ e' ∈ l, e'.ino = e.ino → e.type ≠ .dir ∧ e'.type ≠ .dir) :
    OnceNamed (e :: l) := by
  intro e₁ h₁ e₂ h₂ hDir hSame
  rcases List.mem_cons.mp h₁ with hHead₁ | hTail₁
  · rcases List.mem_cons.mp h₂ with hHead₂ | hTail₂
    · rw [hHead₁, hHead₂]
    · rw [hHead₁] at hDir hSame
      exact absurd hDir (hOnly e₂ hTail₂ hSame.symm).1
  · rcases List.mem_cons.mp h₂ with hHead₂ | hTail₂
    · rw [hHead₂] at hSame
      exact absurd hDir (hOnly e₁ hTail₁ hSame).2
    · exact h e₁ hTail₁ e₂ hTail₂ hDir hSame

/-- The inode is there, of this kind, and was not removed. -/
def Fs.Live (fs : Fs) (x : Nat) (k : Kind) : Prop :=
  ∃ i, fs.inodes x = some i ∧ i.kind = k ∧ i.dead = false

/-- Every count is explained by the entries. `lost` is an inode that has just lost
a name, before the VFS has taken note: if it is a directory its count is already
cleared, and its disk copy may still have the old count. -/
structure Accounted (fs : Fs) (lost : Option Nat) : Prop where
  keyed  : Keyed fs.dirents
  named  : ∀ e ∈ fs.dirents, fs.Live e.ino e.type
  placed : ∀ e ∈ fs.dirents, fs.Live e.dir .dir
  single : OnceNamed fs.dirents
  small  : ∀ x i, fs.inodes x = some i → i.nlink < linkModulus
  isDead : ∀ x i, fs.inodes x = some i → i.dead = true → i.kind = .dir
  count  : ∀ x i, fs.inodes x = some i → i.dead = false → ¬ (lost = some x ∧ i.kind = .dir) →
    i.nlink = baseLinks i.kind + links x i.kind fs.dirents
  gone   : ∀ x i, lost = some x → fs.inodes x = some i → i.kind = .dir →
    i.nlink = 0 ∧ ∀ e ∈ fs.dirents, e.ino ≠ x ∧ e.dir ≠ x
  disk   : ∀ x i, fs.inodes x = some i → lost ≠ some x → i.nlinks = i.nlink

/-- With everything accounted for the counts match. -/
theorem Accounted.linksMatch {fs : Fs} (h : Accounted fs none) : fs.LinksMatch where
  dirs := by
    intro ino i hi hKind hLive
    have hCount := h.count ino i hi hLive (by simp)
    have hSame : fs.subdirs ino = links ino .dir fs.dirents := by
      unfold Fs.subdirs links
      rw [if_pos rfl]
      apply List.countP_congr
      intro e he
      obtain ⟨j, hj, hType, -⟩ := h.named e he
      simp [Fs.isDir, hj, hType]
    rw [hCount, hKind, hSame]
    rfl
  others := by
    intro ino i hi hKind
    have hLive : i.dead = false := by
      by_contra hDead
      exact hKind (h.isDead ino i hi (by simpa using hDead))
    have hCount := h.count ino i hi hLive (by simp)
    rw [hCount]
    unfold baseLinks links
    rw [if_neg hKind, if_neg hKind, Nat.zero_add]
    rfl
  disk := fun ino i hi => h.disk ino i hi (by simp)

/-- The count an inode had before, or the one a new inode starts from. -/
def Fs.linkCount (fs : Fs) (x : Nat) (k : Kind) : Nat :=
  match fs.inodes x with
  | some i => i.nlink
  | none => baseLinks k

theorem linkCount_of_some {fs : Fs} {x : Nat} {i : Inode} (hi : fs.inodes x = some i)
    (k : Kind) : fs.linkCount x k = i.nlink := by
  unfold Fs.linkCount
  rw [hi]

theorem linkCount_of_none {fs : Fs} {x : Nat} (hi : fs.inodes x = none) (k : Kind) :
    fs.linkCount x k = baseLinks k := by
  unfold Fs.linkCount
  rw [hi]

/-- No entry mentions an inode that is not there. -/
theorem Accounted.absent {fs : Fs} {lost : Option Nat} (h : Accounted fs lost) {x : Nat}
    (hx : fs.inodes x = none) : ∀ e ∈ fs.dirents, e.ino ≠ x ∧ e.dir ≠ x := by
  intro e he
  constructor
  · rintro rfl
    obtain ⟨i, hi, -⟩ := h.named e he
    rw [hx] at hi
    cases hi
  · rintro rfl
    obtain ⟨i, hi, -⟩ := h.placed e he
    rw [hx] at hi
    cases hi

/-- How the inodes change when `removed` entries go and `added` entries come: no
inode goes, kinds stay, and each count moves by what the entries give it. -/
structure Balanced (fs fs' : Fs) (lost : Option Nat) (removed added : List Dirent) : Prop where
  stay  : ∀ x i, fs.inodes x = some i →
    ∃ i', fs'.inodes x = some i' ∧ i'.kind = i.kind ∧ i'.dead = i.dead
  fresh : ∀ x i', fs.inodes x = none → fs'.inodes x = some i' →
    i'.dead = false ∧ lost ≠ some x
  small : ∀ x i', fs'.inodes x = some i' → i'.nlink < linkModulus
  count : ∀ x i', fs'.inodes x = some i' →
    i'.nlink + links x i'.kind removed = fs.linkCount x i'.kind + links x i'.kind added
  disk  : ∀ x i', fs'.inodes x = some i' → lost ≠ some x → i'.nlinks = i'.nlink

section

variable {fs fs' : Fs} {lost : Option Nat} {removed added kept : List Dirent}

theorem Balanced.live (hBal : Balanced fs fs' lost removed added) {x : Nat} {k : Kind}
    (h : fs.Live x k) : fs'.Live x k := by
  obtain ⟨i, hi, hKind, hDead⟩ := h
  obtain ⟨i', hi', hKind', hDead'⟩ := hBal.stay x i hi
  exact ⟨i', hi', hKind'.trans hKind, hDead'.trans hDead⟩

/-- A balanced change keeps the account. -/
theorem Accounted.relink (h : Accounted fs lost) (hBal : Balanced fs fs' lost removed added)
    (hOld : fs.dirents.Perm (removed ++ kept)) (hNew : fs'.dirents.Perm (added ++ kept))
    (hKeyed : Keyed fs'.dirents)
    (hNamed : ∀ e ∈ added, fs'.Live e.ino e.type)
    (hPlaced : ∀ e ∈ added, fs'.Live e.dir .dir)
    (hSingle : OnceNamed fs'.dirents)
    (hLost : ∀ x, lost = some x → fs.isDir x = true →
      ∀ e ∈ removed ++ added, e.ino ≠ x ∧ e.dir ≠ x) :
    Accounted fs' lost where
  keyed := hKeyed
  named := by
    intro e he
    rcases List.mem_append.mp (hNew.mem_iff.mp he) with hAdd | hKept
    · exact hNamed e hAdd
    · exact hBal.live (h.named e (hOld.mem_iff.mpr (List.mem_append_right _ hKept)))
  placed := by
    intro e he
    rcases List.mem_append.mp (hNew.mem_iff.mp he) with hAdd | hKept
    · exact hPlaced e hAdd
    · exact hBal.live (h.placed e (hOld.mem_iff.mpr (List.mem_append_right _ hKept)))
  single := hSingle
  small := hBal.small
  isDead := by
    intro x i' hi' hDead
    cases hx : fs.inodes x with
    | none =>
      have hFresh := (hBal.fresh x i' hx hi').1
      rw [hDead] at hFresh
      cases hFresh
    | some i =>
      obtain ⟨j, hj, hKind, hSame⟩ := hBal.stay x i hx
      obtain rfl : i' = j := Option.some.inj (hi'.symm.trans hj)
      rw [hKind]
      exact h.isDead x i hx (hSame ▸ hDead)
  count := by
    intro x i' hi' hLive hNot
    have hDelta := hBal.count x i' hi'
    have hBefore := links_perm x i'.kind hOld
    have hAfter := links_perm x i'.kind hNew
    rw [links_append] at hBefore hAfter
    have hCount : fs.linkCount x i'.kind = baseLinks i'.kind + links x i'.kind fs.dirents := by
      cases hx : fs.inodes x with
      | none => rw [linkCount_of_none hx, links_eq_zero (h.absent hx), Nat.add_zero]
      | some i =>
        obtain ⟨j, hj, hKind, hSame⟩ := hBal.stay x i hx
        obtain rfl : i' = j := Option.some.inj (hi'.symm.trans hj)
        rw [linkCount_of_some hx, hKind]
        exact h.count x i hx (hSame ▸ hLive) (hKind ▸ hNot)
    omega
  gone := by
    intro x i' hx hi' hDir
    cases hOldInode : fs.inodes x with
    | none => exact absurd hx (hBal.fresh x i' hOldInode hi').2
    | some i =>
      obtain ⟨j, hj, hKind, -⟩ := hBal.stay x i hOldInode
      obtain rfl : i' = j := Option.some.inj (hi'.symm.trans hj)
      have hDirOld : i.kind = .dir := hKind ▸ hDir
      obtain ⟨hZero, hNone⟩ := h.gone x i hx hOldInode hDirOld
      have hIsDir : fs.isDir x = true := by simp [Fs.isDir, hOldInode, hDirOld]
      have hSides := hLost x hx hIsDir
      have hRem : links x i'.kind removed = 0 :=
        links_eq_zero (fun e he => hSides e (List.mem_append_left _ he)) _
      have hAdd : links x i'.kind added = 0 :=
        links_eq_zero (fun e he => hSides e (List.mem_append_right _ he)) _
      have hDelta := hBal.count x i' hi'
      rw [linkCount_of_some hOldInode] at hDelta
      refine ⟨by omega, ?_⟩
      intro e he
      rcases List.mem_append.mp (hNew.mem_iff.mp he) with hAdded | hKept
      · exact hSides e (List.mem_append_right _ hAdded)
      · exact hNone e (hOld.mem_iff.mpr (List.mem_append_right _ hKept))
  disk := hBal.disk

/-- The usual case: every inode that is there is changed in place by `g`. -/
theorem Balanced.of_map (g : Nat → Inode → Inode)
    (hMap : ∀ x i, fs.inodes x = some i → fs'.inodes x = some (g x i))
    (hKind : ∀ x i, (g x i).kind = i.kind ∧ (g x i).dead = i.dead)
    (hCount : ∀ x i, fs.inodes x = some i →
      (g x i).nlink < linkModulus ∧
      (g x i).nlink + links x i.kind removed = i.nlink + links x i.kind added ∧
      (lost ≠ some x → (g x i).nlinks = (g x i).nlink))
    (hFresh : ∀ x i', fs.inodes x = none → fs'.inodes x = some i' →
      (i'.dead = false ∧ lost ≠ some x) ∧ i'.nlink < linkModulus ∧
      i'.nlink + links x i'.kind removed = baseLinks i'.kind + links x i'.kind added ∧
      i'.nlinks = i'.nlink) :
    Balanced fs fs' lost removed added := by
  have hInv : ∀ x i i', fs.inodes x = some i → fs'.inodes x = some i' → g x i = i' := by
    intro x i i' hi hi'
    exact Option.some.inj ((hMap x i hi).symm.trans hi')
  refine ⟨?_, ?_, ?_, ?_, ?_⟩
  · intro x i hi
    exact ⟨g x i, hMap x i hi, (hKind x i).1, (hKind x i).2⟩
  · intro x i' hNone hi'
    exact (hFresh x i' hNone hi').1
  · intro x i' hi'
    cases hx : fs.inodes x with
    | none => exact (hFresh x i' hx hi').2.1
    | some i =>
      obtain rfl := hInv x i i' hx hi'
      exact (hCount x i hx).1
  · intro x i' hi'
    cases hx : fs.inodes x with
    | none =>
      rw [linkCount_of_none hx]
      exact (hFresh x i' hx hi').2.2.1
    | some i =>
      obtain rfl := hInv x i i' hx hi'
      rw [linkCount_of_some hx, (hKind x i).1]
      exact (hCount x i hx).2.1
  · intro x i' hi' hNot
    cases hx : fs.inodes x with
    | none => exact (hFresh x i' hx hi').2.2.2
    | some i =>
      obtain rfl := hInv x i i' hx hi'
      exact (hCount x i hx).2.2 hNot

end

end Briefs.Dir
