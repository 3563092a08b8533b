import Briefs.Dir.Names

/-!
# BrieFS — rename and the link counts

A rename moves one entry, moves it and leaves a whiteout, or swaps two. A directory
that changes parents takes its link along. The replaced inode of the first two is
lost in the sense of `Accounted` while the entry moves.

## Results

* `move_accounted`, `whiteout_accounted`, `exchange_accounted`.
-/

namespace Briefs.Dir

section

variable {fs fs' : Fs} {lost : Option Nat}

--
-- Rename
--

/-- One inode when the inode `src` moves from directory `a` to directory `b`; `flag`
says that `src` is a directory. -/
def Inode.shifted (i : Inode) (flag : Bool) (src a b x : Nat) : Inode :=
  if a ≠ b ∧ flag = true then
    let j := if x = a then i.dropNlink else i
    let k := if x = b then j.incNlink else j
    if x = src then { k with parent := b } else k
  else i

@[simp]
theorem shifted_kind (i : Inode) (flag : Bool) (src a b x : Nat) :
    (i.shifted flag src a b x).kind = i.kind := by
  unfold Inode.shifted Inode.dropNlink Inode.incNlink
  dsimp only
  split_ifs <;> rfl

@[simp]
theorem shifted_dead (i : Inode) (flag : Bool) (src a b x : Nat) :
    (i.shifted flag src a b x).dead = i.dead := by
  unfold Inode.shifted Inode.dropNlink Inode.incNlink
  dsimp only
  split_ifs <;> rfl

theorem shifted_nlink (i : Inode) (flag : Bool) (src a b x : Nat) :
    (i.shifted flag src a b x).nlink =
      if a ≠ b ∧ flag = true then
        if x = a then i.dropNlink.nlink else if x = b then i.incNlink.nlink else i.nlink
      else i.nlink := by
  unfold Inode.shifted
  by_cases hMoves : a ≠ b ∧ flag = true
  · rw [if_pos hMoves, if_pos hMoves]
    by_cases hxa : x = a
    · have hxb : ¬ x = b := fun hEq => hMoves.1 (hxa.symm.trans hEq)
      simp only [hxa, hxa ▸ hxb, if_true, if_false]
      split_ifs <;> rfl
    · simp only [hxa, if_false]
      split_ifs <;> rfl
  · rw [if_neg hMoves, if_neg hMoves]

theorem shifted_nlinks_of_ne (i : Inode) (flag : Bool) (src a b : Nat) {x : Nat}
    (hxa : x ≠ a) (hxb : x ≠ b) :
    (i.shifted flag src a b x).nlink = i.nlink ∧ (i.shifted flag src a b x).nlinks = i.nlinks := by
  unfold Inode.shifted
  dsimp only
  simp only [hxa, hxb, if_false]
  split_ifs <;> exact ⟨rfl, rfl⟩

/-- One inode after both parents are persisted. -/
def Inode.persisted (i : Inode) (a b x : Nat) : Inode :=
  let j := if x = a then i.updated 0 0 else i
  if a ≠ b ∧ x = b then j.updated 0 0 else j

@[simp]
theorem persisted_kind (i : Inode) (a b x : Nat) : (i.persisted a b x).kind = i.kind := by
  unfold Inode.persisted
  dsimp only
  split_ifs <;> simp

@[simp]
theorem persisted_dead (i : Inode) (a b x : Nat) : (i.persisted a b x).dead = i.dead := by
  unfold Inode.persisted
  dsimp only
  split_ifs <;> simp

@[simp]
theorem persisted_nlink (i : Inode) (a b x : Nat) : (i.persisted a b x).nlink = i.nlink := by
  unfold Inode.persisted
  dsimp only
  split_ifs <;> simp

theorem persisted_nlinks (i : Inode) {a b x : Nat}
    (h : x ≠ a → x ≠ b → i.nlinks = i.nlink) :
    (i.persisted a b x).nlinks = (i.persisted a b x).nlink := by
  by_cases hxa : x = a
  · subst hxa
    by_cases hxb : x = b <;> simp [Inode.persisted, hxb]
  · by_cases hxb : x = b
    · subst hxb
      simp [Inode.persisted, hxa, Ne.symm hxa]
    · simp [Inode.persisted, hxa, hxb, h hxa hxb]

/-- `moveParent` on one inode. -/
theorem moveParent_inodes (fs : Fs) (a b src x : Nat) :
    (fs.moveParent a b src).inodes x =
      (fs.inodes x).map fun i => (i.shifted (fs.isDir src) src a b x).persisted a b x := by
  have hShift : (if a ≠ b ∧ fs.isDir src then
      ((fs.modify a Inode.dropNlink).modify b Inode.incNlink).modify src
        fun j => { j with parent := b } else fs).inodes x =
      (fs.inodes x).map fun i => i.shifted (fs.isDir src) src a b x := by
    unfold Inode.shifted
    by_cases hMoves : a ≠ b ∧ fs.isDir src = true
    · rw [if_pos hMoves, modify_inodes, modify_inodes, modify_inodes, Option.map_map,
        Option.map_map]
      simp only [if_pos hMoves]
      rfl
    · rw [if_neg hMoves]
      simp only [if_neg hMoves, Option.map_id']
  unfold Fs.moveParent
  by_cases hNe : a ≠ b
  · rw [if_pos hNe, updateParentDir_inodes, updateParentDir_inodes, hShift, Option.map_map,
      Option.map_map]
    congr 1
    funext i
    simp [Inode.persisted, hNe]
  · rw [if_neg hNe, updateParentDir_inodes, hShift, Option.map_map]
    congr 1
    funext i
    simp [Inode.persisted, hNe]

@[simp]
theorem moveParent_dirents (fs : Fs) (a b src : Nat) :
    (fs.moveParent a b src).dirents = fs.dirents := by
  unfold Fs.moveParent
  dsimp only
  split_ifs <;> rfl

/-- A directory that moves takes one link from its old parent to its new one; the
entries before and after say the same. -/
theorem shifted_balance {i : Inode} {x a b src : Nat} {flag : Bool} {type : Kind}
    (hFlag : flag = true ↔ type = .dir) (na nb : Name) (hSmall : i.nlink < linkModulus)
    (hOut : x = a → i.kind = .dir ∧ 0 < i.nlink)
    (hIn : x = b → i.kind = .dir ∧ (a ≠ b → type = .dir → i.nlink + 1 < linkModulus)) :
    (i.shifted flag src a b x).nlink < linkModulus ∧
    (i.shifted flag src a b x).nlink + (⟨a, na, src, type⟩ : Dirent).weight x i.kind =
      i.nlink + (⟨b, nb, src, type⟩ : Dirent).weight x i.kind := by
  rw [shifted_nlink]
  by_cases hMoves : a ≠ b ∧ flag = true
  · have hType := hFlag.mp hMoves.2
    rw [if_pos hMoves]
    by_cases hxa : x = a
    · obtain ⟨hKind, hPos⟩ := hOut hxa
      have hDrop := dropNlink_nlink hPos hSmall
      rw [if_pos hxa]
      refine ⟨dropNlink_small i, ?_⟩
      have hNe : ¬ b = x := fun hEq => hMoves.1 (hxa.symm.trans hEq.symm)
      simp only [Dirent.weight, hKind, hType, hxa.symm, hNe, and_true, if_true, if_false]
      omega
    · by_cases hxb : x = b
      · obtain ⟨hKind, hRoom⟩ := hIn hxb
        have hInc := incNlink_nlink (hRoom hMoves.1 hType)
        have hBound := hRoom hMoves.1 hType
        rw [if_neg hxa, if_pos hxb]
        refine ⟨by omega, ?_⟩
        simp only [Dirent.weight, hKind, hType, hxb.symm, Ne.symm hxa, and_true, if_true, if_false]
        omega
      · rw [if_neg hxa, if_neg hxb]
        refine ⟨hSmall, ?_⟩
        simp only [Dirent.weight, Ne.symm hxa, Ne.symm hxb, false_and, if_false]
  · rw [if_neg hMoves]
    refine ⟨hSmall, ?_⟩
    by_cases hSame : a = b
    · rw [hSame]
      rfl
    · have hType : type ≠ .dir := fun hDir => hMoves ⟨hSame, hFlag.mpr hDir⟩
      simp only [Dirent.weight, hType, and_false, if_false]

/-- What a rename starts from: an entry, a live directory without the new name, and
room for one more link there if a directory moves in. -/
structure Movable (fs : Fs) (lost : Option Nat) (e : Dirent) (b : Nat) (nb : Name) : Prop where
  mem    : e ∈ fs.dirents
  live   : fs.Live b .dir
  absent : ∀ e' ∈ fs.dirents, ¬ (e'.dir = b ∧ e'.name = nb)
  room   : e.dir ≠ b → e.type = .dir → ∀ i, fs.inodes b = some i → i.nlink + 1 < linkModulus
  apart  : lost ≠ some b

theorem Accounted.dir_pos (h : Accounted fs lost) {x : Nat} {i : Inode}
    (hi : fs.inodes x = some i) (hKind : i.kind = .dir) (hDead : i.dead = false)
    (hNot : lost ≠ some x) : 0 < i.nlink := by
  have hCount := h.count x i hi hDead (fun hBoth => hNot hBoth.1)
  rw [hKind] at hCount
  unfold baseLinks at hCount
  simp only [if_true] at hCount
  omega

/-- An entry neither names nor lies in a directory that was just removed. -/
theorem Accounted.apart (h : Accounted fs lost) {e : Dirent} (he : e ∈ fs.dirents) {t : Nat}
    (hLost : lost = some t) (hDir : fs.isDir t = true) : e.ino ≠ t ∧ e.dir ≠ t := by
  unfold Fs.isDir at hDir
  cases ht : fs.inodes t with
  | none => simp [ht] at hDir
  | some i =>
    simp only [ht, Option.any_some, beq_iff_eq] at hDir
    exact (h.gone t i hLost ht hDir).2 e he

theorem Accounted.dir_ne_lost (h : Accounted fs lost) {e : Dirent} (he : e ∈ fs.dirents) :
    lost ≠ some e.dir := by
  intro hLost
  have hDir := (isDir_iff_live (h.placed e he)).mpr rfl
  exact (h.apart he hLost hDir).2 rfl

theorem Movable.balance (h : Accounted fs lost) {e : Dirent} {b : Nat} {nb : Name}
    (hm : Movable fs lost e b nb) {x : Nat} {i : Inode} (hi : fs.inodes x = some i) :
    (i.shifted (fs.isDir e.ino) e.ino e.dir b x).nlink < linkModulus ∧
    (i.shifted (fs.isDir e.ino) e.ino e.dir b x).nlink + e.weight x i.kind =
      i.nlink + (⟨b, nb, e.ino, e.type⟩ : Dirent).weight x i.kind := by
  refine shifted_balance (isDir_iff_live (h.named e hm.mem)) e.name nb (h.small x i hi) ?_ ?_
  · rintro rfl
    obtain ⟨d, hd, hKind, hDead⟩ := h.placed e hm.mem
    obtain rfl : i = d := Option.some.inj (hi.symm.trans hd)
    exact ⟨hKind, h.dir_pos hi hKind hDead (h.dir_ne_lost hm.mem)⟩
  · rintro rfl
    obtain ⟨d, hd, hKind, hDead⟩ := hm.live
    obtain rfl : i = d := Option.some.inj (hi.symm.trans hd)
    exact ⟨hKind, fun hNe hType => hm.room hNe hType i hi⟩

/-- The other entries of a list that has `e`, with one for the same inode joined. -/
theorem Accounted.onceNamed_move (h : Accounted fs lost) {e : Dirent} (he : e ∈ fs.dirents)
    (b : Nat) (nb : Name) :
    OnceNamed (⟨b, nb, e.ino, e.type⟩ :: fs.dirents.filter fun e' => !e'.isAt e.dir e.name) := by
  have hSub : ∀ e' ∈ fs.dirents.filter (fun e' => !e'.isAt e.dir e.name), e' ∈ fs.dirents :=
    fun e' he' => (mem_filter_isAt.mp he').1
  refine (h.single.sub hSub).cons ?_
  intro e' he' hSame
  have hNe : e' ≠ e := fun hEq => (mem_filter_isAt.mp he').2 (hEq ▸ ⟨rfl, rfl⟩)
  have hOther : e.type ≠ .dir ∧ e'.type ≠ .dir := h.single.other he (hSub e' he') hNe hSame
  exact hOther

/-- The plain move of an entry, once its new name is free. -/
theorem move_accounted (h : Accounted fs lost) {e : Dirent} {b : Nat} {nb : Name}
    (hm : Movable fs lost e b nb)
    (hDirents : fs'.dirents =
      ⟨b, nb, e.ino, e.type⟩ :: fs.dirents.filter fun e' => !e'.isAt e.dir e.name)
    (hInodes : ∀ x, fs'.inodes x = (fs.inodes x).map fun i =>
      (i.shifted (fs.isDir e.ino) e.ino e.dir b x).persisted e.dir b x) :
    Accounted fs' lost := by
  have hBal : Balanced fs fs' lost [e] [⟨b, nb, e.ino, e.type⟩] := by
    refine Balanced.of_map (fun x i =>
      (i.shifted (fs.isDir e.ino) e.ino e.dir b x).persisted e.dir b x) ?_ ?_ ?_ ?_
    · intro x i hi
      rw [hInodes x, hi]
      rfl
    · intro x i
      exact ⟨by simp, by simp⟩
    · intro x i hi
      obtain ⟨hSmall, hCount⟩ := hm.balance h hi
      rw [persisted_nlink]
      refine ⟨hSmall, by simpa using hCount, ?_⟩
      intro hNot
      rw [← persisted_nlink (i.shifted (fs.isDir e.ino) e.ino e.dir b x) e.dir b x]
      refine persisted_nlinks _ ?_
      intro hxa hxb
      obtain ⟨hLinks, hDisk⟩ := shifted_nlinks_of_ne i (fs.isDir e.ino) e.ino e.dir b hxa hxb
      rw [hLinks, hDisk]
      exact h.disk x i hi hNot
    · intro x i' hx hi'
      rw [hInodes x, hx] at hi'
      cases hi'
  refine h.relink hBal (perm_filter_isAt h.keyed hm.mem) (by rw [hDirents]; rfl) ?_ ?_ ?_ ?_ ?_
  · rw [hDirents]
    refine List.pairwise_cons.mpr ⟨?_, List.Pairwise.filter _ h.keyed⟩
    intro e' he' hEq
    exact hm.absent e' (mem_filter_isAt.mp he').1 ⟨hEq.1.symm, hEq.2.symm⟩
  · intro e' he'
    rw [List.mem_singleton.mp he']
    exact hBal.live (h.named e hm.mem)
  · intro e' he'
    rw [List.mem_singleton.mp he']
    exact hBal.live hm.live
  · rw [hDirents]
    exact h.onceNamed_move hm.mem b nb
  · intro t hLost hDir e' he'
    have hApart := h.apart hm.mem hLost hDir
    rcases List.mem_append.mp he' with hOld | hNew
    · rw [List.mem_singleton.mp hOld]
      exact hApart
    · rw [List.mem_singleton.mp hNew]
      exact ⟨hApart.1, fun hEq => hm.apart (by rw [hLost]; exact congrArg some hEq.symm)⟩

/-- The move of an entry that leaves a new inode `w` behind at the old name. -/
theorem whiteout_accounted (h : Accounted fs lost) {e : Dirent} {b : Nat} {nb : Name} {w : Nat}
    {size : Int} (hm : Movable fs lost e b nb) (hw : fs.inodes w = none) (hwLost : lost ≠ some w)
    (hDirents : fs'.dirents = ⟨b, nb, e.ino, e.type⟩ :: ⟨e.dir, e.name, w, .special⟩ ::
      fs.dirents.filter fun e' => !e'.isAt e.dir e.name)
    (hInodes : ∀ x, fs'.inodes x =
      if x = w then some (freshInode e.dir .special 0)
      else (fs.inodes x).map fun i =>
        let j := (i.shifted (fs.isDir e.ino) e.ino e.dir b x).persisted e.dir b x
        if x = e.dir then j.updated size 0 else j) :
    Accounted fs' lost := by
  have hUnnamed := h.absent hw
  have hwe := hUnnamed e hm.mem
  have hwb : b ≠ w := by
    rintro rfl
    obtain ⟨i, hi, -⟩ := hm.live
    rw [hw] at hi
    cases hi
  have hBal : Balanced fs fs' lost [e]
      [⟨b, nb, e.ino, e.type⟩, ⟨e.dir, e.name, w, .special⟩] := by
    refine Balanced.of_map (fun x i =>
      let j := (i.shifted (fs.isDir e.ino) e.ino e.dir b x).persisted e.dir b x
      if x = e.dir then j.updated size 0 else j) ?_ ?_ ?_ ?_
    · intro x i hi
      have hx : x ≠ w := by
        rintro rfl
        rw [hw] at hi
        cases hi
      rw [hInodes x, if_neg hx, hi]
      rfl
    · intro x i
      dsimp only
      split_ifs <;> exact ⟨by simp, by simp⟩
    · intro x i hi
      have hx : w ≠ x := by
        rintro rfl
        rw [hw] at hi
        cases hi
      obtain ⟨hSmall, hCount⟩ := hm.balance h hi
      have hWhiteout : (⟨e.dir, e.name, w, .special⟩ : Dirent).weight x i.kind = 0 := by
        simp [Dirent.weight, hx]
      have hDisk : lost ≠ some x →
          ((i.shifted (fs.isDir e.ino) e.ino e.dir b x).persisted e.dir b x).nlinks =
            ((i.shifted (fs.isDir e.ino) e.ino e.dir b x).persisted e.dir b x).nlink := by
        intro hNot
        refine persisted_nlinks _ ?_
        intro hxa hxb
        obtain ⟨hLinks, hDisk⟩ := shifted_nlinks_of_ne i (fs.isDir e.ino) e.ino e.dir b hxa hxb
        rw [hLinks, hDisk]
        exact h.disk x i hi hNot
      dsimp only
      split_ifs
      · refine ⟨by simpa using hSmall, ?_, fun _ => rfl⟩
        simpa [hWhiteout] using hCount
      · refine ⟨by simpa using hSmall, ?_, hDisk⟩
        simpa [hWhiteout] using hCount
    · intro x i' hx hi'
      rw [hInodes x, hx] at hi'
      by_cases hIno : x = w
      · subst hIno
        rw [if_pos rfl] at hi'
        cases hi'
        refine ⟨⟨rfl, hwLost⟩, (by show 1 < linkModulus; decide), ?_, rfl⟩
        simp [freshInode, baseLinks, Dirent.weight, hwe.1]
      · simp [hIno] at hi'
  refine h.relink hBal (perm_filter_isAt h.keyed hm.mem) (by rw [hDirents]; rfl) ?_ ?_ ?_ ?_ ?_
  · rw [hDirents]
    refine List.pairwise_cons.mpr ⟨?_, h.keyed.add ⟨e.dir, e.name, w, .special⟩⟩
    intro e' he' hEq
    rcases List.mem_cons.mp he' with hHead | hTail
    · rw [hHead] at hEq
      exact hm.absent e hm.mem ⟨hEq.1.symm, hEq.2.symm⟩
    · exact hm.absent e' (mem_filter_isAt.mp hTail).1 ⟨hEq.1.symm, hEq.2.symm⟩
  · intro e' he'
    rcases List.mem_cons.mp he' with hMoved | hNew
    · rw [hMoved]
      exact hBal.live (h.named e hm.mem)
    · rw [List.mem_singleton.mp hNew]
      exact ⟨freshInode e.dir .special 0, by rw [hInodes w, if_pos rfl], rfl, rfl⟩
  · intro e' he'
    rcases List.mem_cons.mp he' with hMoved | hNew
    · rw [hMoved]
      exact hBal.live hm.live
    · rw [List.mem_singleton.mp hNew]
      exact hBal.live (h.placed e hm.mem)
  · -- the whiteout names a new inode, so it may join the list of the plain move
    have hJoin : OnceNamed (⟨e.dir, e.name, w, .special⟩ :: ⟨b, nb, e.ino, e.type⟩ ::
        fs.dirents.filter fun e' => !e'.isAt e.dir e.name) := by
      refine (h.onceNamed_move hm.mem b nb).cons ?_
      intro e' he' hSame
      rcases List.mem_cons.mp he' with hHead | hTail
      · rw [hHead] at hSame
        exact absurd hSame hwe.1
      · exact absurd hSame (hUnnamed e' (mem_filter_isAt.mp hTail).1).1
    rw [hDirents]
    exact hJoin.sub fun e' he' => (List.Perm.swap _ _ _).mem_iff.mp he'
  · intro t hLost hDir e' he'
    have hApart := h.apart hm.mem hLost hDir
    rcases List.mem_append.mp he' with hOld | hNew
    · rw [List.mem_singleton.mp hOld]
      exact hApart
    · rcases List.mem_cons.mp hNew with hMoved | hLast
      · rw [hMoved]
        exact ⟨hApart.1, fun hEq => hm.apart (by rw [hLost]; exact congrArg some hEq.symm)⟩
      · rw [List.mem_singleton.mp hLast]
        exact ⟨fun hEq => hwLost (by rw [hLost]; exact congrArg some hEq.symm), hApart.2⟩

theorem drop_incNlink {i : Inode} (hSmall : i.nlink < linkModulus) :
    i.incNlink.dropNlink.nlink = i.nlink := by
  show ((i.nlink + 1) % linkModulus + (linkModulus - 1)) % linkModulus = i.nlink
  rw [Nat.mod_add_mod]
  have hSplit : i.nlink + 1 + (linkModulus - 1) = i.nlink + linkModulus := by
    unfold linkModulus
    omega
  rw [hSplit, Nat.add_mod_right, Nat.mod_eq_of_lt hSmall]

theorem inc_dropNlink {i : Inode} (hSmall : i.nlink < linkModulus) :
    i.dropNlink.incNlink.nlink = i.nlink := by
  show ((i.nlink + (linkModulus - 1)) % linkModulus + 1) % linkModulus = i.nlink
  rw [Nat.mod_add_mod]
  have hSplit : i.nlink + (linkModulus - 1) + 1 = i.nlink + linkModulus := by
    unfold linkModulus
    omega
  rw [hSplit, Nat.add_mod_right, Nat.mod_eq_of_lt hSmall]

/-- One inode when `src` of directory `a` and `t` of directory `b` change places. -/
def Inode.exchanged (i : Inode) (srcDir tDir : Bool) (src t a b x : Nat) : Inode :=
  (i.shifted srcDir src a b x).shifted tDir t b a x

theorem shifted_cross_nlink {i : Inode} {flag : Bool} {src a b x : Nat} (hNe : a ≠ b) :
    (i.shifted flag src a b x).nlink =
      if flag = true then
        if x = a then i.dropNlink.nlink else if x = b then i.incNlink.nlink else i.nlink
      else i.nlink := by
  rw [shifted_nlink]
  by_cases hFlag : flag = true
  · rw [if_pos ⟨hNe, hFlag⟩, if_pos hFlag]
  · rw [if_neg (fun hBoth => hFlag hBoth.2), if_neg hFlag]

theorem dropNlink_congr {i j : Inode} (h : i.nlink = j.nlink) :
    i.dropNlink.nlink = j.dropNlink.nlink := by
  unfold Inode.dropNlink
  rw [h]

theorem incNlink_congr {i j : Inode} (h : i.nlink = j.nlink) :
    i.incNlink.nlink = j.incNlink.nlink := by
  unfold Inode.incNlink
  rw [h]

theorem exchanged_balance {i : Inode} {x a b src t : Nat} {srcDir tDir : Bool} {ts tt : Kind}
    (hSrc : srcDir = true ↔ ts = .dir) (hTarget : tDir = true ↔ tt = .dir) (na nb : Name)
    (hSmall : i.nlink < linkModulus)
    (hA : x = a → i.kind = .dir ∧ 0 < i.nlink ∧
      (a ≠ b → tt = .dir → ts ≠ .dir → i.nlink + 1 < linkModulus))
    (hB : x = b → i.kind = .dir ∧ 0 < i.nlink ∧
      (a ≠ b → ts = .dir → tt ≠ .dir → i.nlink + 1 < linkModulus)) :
    (i.exchanged srcDir tDir src t a b x).nlink < linkModulus ∧
    (i.exchanged srcDir tDir src t a b x).nlink +
        links x i.kind [⟨a, na, src, ts⟩, ⟨b, nb, t, tt⟩] =
      i.nlink + links x i.kind [⟨b, nb, src, ts⟩, ⟨a, na, t, tt⟩] := by
  unfold Inode.exchanged
  by_cases hSame : a = b
  · subst hSame
    simp only [shifted_nlink, ne_eq, not_true_eq_false, false_and, if_false]
    refine ⟨hSmall, ?_⟩
    simp [Dirent.weight]
  · rw [shifted_cross_nlink (Ne.symm hSame)]
    have hFirst : (i.shifted srcDir src a b x).nlink = _ := shifted_cross_nlink hSame
    by_cases hxa : x = a
    · obtain ⟨hKind, hPos, hRoom⟩ := hA hxa
      have hxb : ¬ x = b := fun hEq => hSame (hxa.symm.trans hEq)
      have hOld : links x i.kind [⟨a, na, src, ts⟩, ⟨b, nb, t, tt⟩] =
          if ts = .dir then 1 else 0 := by
        simp [Dirent.weight, hKind, hxa, Ne.symm hSame]
      have hNew : links x i.kind [⟨b, nb, src, ts⟩, ⟨a, na, t, tt⟩] =
          if tt = .dir then 1 else 0 := by
        simp [Dirent.weight, hKind, hxa, Ne.symm hSame]
      rw [hOld, hNew]
      rw [if_pos hxa] at hFirst
      rw [if_neg hxb, if_pos hxa]
      by_cases hTs : ts = .dir
      · rw [if_pos (hSrc.mpr hTs)] at hFirst
        by_cases hTt : tt = .dir
        · rw [if_pos (hTarget.mpr hTt), if_pos hTs, if_pos hTt, incNlink_congr hFirst,
            inc_dropNlink hSmall]
          exact ⟨hSmall, rfl⟩
        · have hDrop := dropNlink_nlink hPos hSmall
          rw [if_neg (fun hFlag => hTt (hTarget.mp hFlag)), if_pos hTs, if_neg hTt, hFirst]
          omega
      · rw [if_neg (fun hFlag => hTs (hSrc.mp hFlag))] at hFirst
        by_cases hTt : tt = .dir
        · have hInc := incNlink_nlink (hRoom hSame hTt hTs)
          have hBound := hRoom hSame hTt hTs
          rw [if_pos (hTarget.mpr hTt), if_neg hTs, if_pos hTt, incNlink_congr hFirst]
          omega
        · rw [if_neg (fun hFlag => hTt (hTarget.mp hFlag)), if_neg hTs, if_neg hTt, hFirst]
          exact ⟨hSmall, rfl⟩
    · by_cases hxb : x = b
      · obtain ⟨hKind, hPos, hRoom⟩ := hB hxb
        have hOld : links x i.kind [⟨a, na, src, ts⟩, ⟨b, nb, t, tt⟩] =
            if tt = .dir then 1 else 0 := by
          simp [Dirent.weight, hKind, hxb, hSame]
        have hNew : links x i.kind [⟨b, nb, src, ts⟩, ⟨a, na, t, tt⟩] =
            if ts = .dir then 1 else 0 := by
          simp [Dirent.weight, hKind, hxb, hSame]
        rw [hOld, hNew]
        rw [if_neg hxa, if_pos hxb] at hFirst
        rw [if_pos hxb]
        by_cases hTs : ts = .dir
        · rw [if_pos (hSrc.mpr hTs)] at hFirst
          by_cases hTt : tt = .dir
          · rw [if_pos (hTarget.mpr hTt), if_pos hTs, if_pos hTt, dropNlink_congr hFirst,
              drop_incNlink hSmall]
            exact ⟨hSmall, rfl⟩
          · have hInc := incNlink_nlink (hRoom hSame hTs hTt)
            have hBound := hRoom hSame hTs hTt
            rw [if_neg (fun hFlag => hTt (hTarget.mp hFlag)), if_pos hTs, if_neg hTt, hFirst]
            omega
        · rw [if_neg (fun hFlag => hTs (hSrc.mp hFlag))] at hFirst
          by_cases hTt : tt = .dir
          · have hDrop := dropNlink_nlink hPos hSmall
            rw [if_pos (hTarget.mpr hTt), if_neg hTs, if_pos hTt, dropNlink_congr hFirst]
            omega
          · rw [if_neg (fun hFlag => hTt (hTarget.mp hFlag)), if_neg hTs, if_neg hTt, hFirst]
            exact ⟨hSmall, rfl⟩
      · have hPlain : (i.shifted srcDir src a b x).nlink = i.nlink := by
          rw [hFirst, if_neg hxa, if_neg hxb, ite_self]
        rw [if_neg hxb, if_neg hxa, ite_self, hPlain]
        refine ⟨hSmall, ?_⟩
        simp only [links_cons, links_nil, Dirent.weight, Ne.symm hxa, Ne.symm hxb, false_and,
          if_false]

theorem carryLink_inodes (fs : Fs) {cross : Bool} {a b : Nat} (hCross : cross = true ↔ a ≠ b)
    (src x : Nat) :
    (fs.carryLink cross src a b).inodes x =
      (fs.inodes x).map fun i => i.shifted (fs.isDir src) src a b x := by
  unfold Fs.carryLink Inode.shifted
  by_cases hMoves : a ≠ b ∧ fs.isDir src = true
  · have hBoth : (cross && fs.isDir src) = true := by
      rw [Bool.and_eq_true]
      exact ⟨hCross.mpr hMoves.1, hMoves.2⟩
    rw [if_pos hBoth, modify_inodes, modify_inodes, modify_inodes, Option.map_map, Option.map_map]
    simp only [if_pos hMoves]
    congr 1
    funext i
    by_cases hxs : x = src
    · simp only [Function.comp_apply, if_pos hxs, Inode.dropNlink, Inode.incNlink]
      split_ifs <;> rfl
    · simp only [Function.comp_apply, if_neg hxs]
  · have hNot : ¬ (cross && fs.isDir src) = true := by
      rw [Bool.and_eq_true]
      exact fun hBoth => hMoves ⟨hCross.mp hBoth.1, hBoth.2⟩
    rw [if_neg hNot]
    simp only [if_neg hMoves, Option.map_id']

theorem isDir_of_map {g : Nat → Inode → Inode}
    (hMap : ∀ x, fs'.inodes x = (fs.inodes x).map (g x)) (hKind : ∀ x i, (g x i).kind = i.kind)
    (x : Nat) : fs'.isDir x = fs.isDir x := by
  unfold Fs.isDir
  rw [hMap x]
  cases fs.inodes x with
  | none => rfl
  | some i => simp [hKind]

/-- What `briefs_rename_exchange` does. -/
theorem renameExchange_ok {a b src t : Nat} {na nb : Name} (hNe : ¬ (a = b ∧ na = nb))
    (hOk : fs.renameExchange a na b nb src t = .ok fs') :
    fs'.dirents = ⟨b, nb, src, fs.ftype src⟩ :: ⟨a, na, t, fs.ftype t⟩ ::
      (fs.dirents.filter fun e => !e.isAt a na).filter (fun e => !e.isAt b nb) ∧
    ∀ x, fs'.inodes x = (fs.inodes x).map fun i =>
      (i.exchanged (fs.isDir src) (fs.isDir t) src t a b x).persisted a b x := by
  obtain ⟨fs₁, hRemove, hOk⟩ := bind_ok hOk
  obtain ⟨hInodes₁, hDirents₁⟩ := removeDirEntry_ok hRemove
  obtain ⟨fs₂, hAdd, hOk⟩ := bind_ok hOk
  obtain ⟨hInodes₂, hDirents₂⟩ := addDirEntry_ok hAdd
  obtain ⟨fs₃, hRemove', hOk⟩ := bind_ok hOk
  obtain ⟨hInodes₃, hDirents₃⟩ := removeDirEntry_ok hRemove'
  obtain ⟨fs₄, hAdd', hOk⟩ := bind_ok hOk
  obtain ⟨hInodes₄, hDirents₄⟩ := addDirEntry_ok hAdd'
  have hInodes : fs₄.inodes = fs.inodes :=
    hInodes₄.trans (hInodes₃.trans (hInodes₂.trans hInodes₁))
  have hDirents : fs₄.dirents = ⟨b, nb, src, fs.ftype src⟩ :: ⟨a, na, t, fs.ftype t⟩ ::
      (fs.dirents.filter fun e => !e.isAt a na).filter (fun e => !e.isAt b nb) := by
    have hKeep : (⟨a, na, t, fs.ftype t⟩ : Dirent).isAt b nb = false := by
      rw [← Bool.not_eq_true, isAt_iff]
      exact hNe
    rw [hDirents₄, hDirents₃, hDirents₂, hDirents₁, List.filter_filter, List.filter_cons]
    simp only [hKeep, Bool.not_false, Bool.and_self, if_true, List.filter_filter]
  cases hOk
  have hCross : (a != b) = true ↔ a ≠ b := bne_iff_ne
  have hFirst := carryLink_inodes fs₄ hCross src
  have hFlag := isDir_of_map hFirst (fun x i => shifted_kind i _ src a b x) t
  have hSecond := carryLink_inodes (fs₄.carryLink (a != b) src a b)
    (hCross.trans ⟨Ne.symm, Ne.symm⟩) t
  refine ⟨?_, ?_⟩
  · rw [← hDirents]
    by_cases hNeq : (a != b) = true
    · rw [if_pos hNeq, updateParentDir_dirents, updateParentDir_dirents, carryLink_dirents,
        carryLink_dirents]
    · rw [if_neg hNeq, updateParentDir_dirents, carryLink_dirents, carryLink_dirents]
  · intro x
    have hShifts := hSecond x
    rw [hFlag, hFirst x, isDir_congr hInodes, isDir_congr hInodes, hInodes, Option.map_map]
      at hShifts
    by_cases hNeq : (a != b) = true
    · rw [if_pos hNeq, updateParentDir_inodes, updateParentDir_inodes, hShifts, Option.map_map,
        Option.map_map]
      congr 1
      funext i
      simp [Inode.persisted, Inode.exchanged, hCross.mp hNeq]
    · rw [if_neg hNeq, updateParentDir_inodes, hShifts, Option.map_map]
      congr 1
      funext i
      have hSame : ¬ a ≠ b := fun hDiff => hNeq (hCross.mpr hDiff)
      simp [Inode.persisted, Inode.exchanged, hSame]

theorem ftype_of_live {x : Nat} {k : Kind} (h : fs.Live x k) : fs.ftype x = k := by
  obtain ⟨i, hi, hKind, -⟩ := h
  simp [Fs.ftype, hi, hKind]

/-- Two entries that change places. -/
theorem exchange_accounted (h : Accounted fs none) {e e' : Dirent} (he : e ∈ fs.dirents)
    (he' : e' ∈ fs.dirents) (hNe : e.ino ≠ e'.ino)
    (hRoom : e.dir ≠ e'.dir → ∀ i,
      (fs.inodes e.dir = some i → e'.type = .dir → e.type ≠ .dir → i.nlink + 1 < linkModulus) ∧
      (fs.inodes e'.dir = some i → e.type = .dir → e'.type ≠ .dir → i.nlink + 1 < linkModulus))
    (hOk : fs.renameExchange e.dir e.name e'.dir e'.name e.ino e'.ino = .ok fs') :
    Accounted fs' none := by
  have hKey : ¬ (e.dir = e'.dir ∧ e.name = e'.name) := by
    intro hEq
    exact hNe (congrArg Dirent.ino (h.keyed.eq he' he hEq.1 hEq.2))
  obtain ⟨hDirents, hInodes⟩ := renameExchange_ok hKey hOk
  rw [ftype_of_live (h.named e he), ftype_of_live (h.named e' he')] at hDirents
  have hFirst := perm_filter_isAt h.keyed he
  have hMem : e' ∈ fs.dirents.filter fun x => !x.isAt e.dir e.name :=
    mem_filter_isAt.mpr ⟨he', fun hEq => hKey ⟨hEq.1.symm, hEq.2.symm⟩⟩
  have hSecond := perm_filter_isAt (List.Pairwise.filter _ h.keyed) hMem
  have hKept : ∀ x ∈ (fs.dirents.filter fun x => !x.isAt e.dir e.name).filter
      (fun x => !x.isAt e'.dir e'.name), x ∈ fs.dirents ∧ x ≠ e ∧ x ≠ e' := by
    intro x hx
    obtain ⟨hx, hNot'⟩ := mem_filter_isAt.mp hx
    obtain ⟨hx, hNot⟩ := mem_filter_isAt.mp hx
    exact ⟨hx, fun hEq => hNot (hEq ▸ ⟨rfl, rfl⟩), fun hEq => hNot' (hEq ▸ ⟨rfl, rfl⟩)⟩
  have hBal : Balanced fs fs' none [e, e']
      [⟨e'.dir, e'.name, e.ino, e.type⟩, ⟨e.dir, e.name, e'.ino, e'.type⟩] := by
    refine Balanced.of_map (fun x i =>
      (i.exchanged (fs.isDir e.ino) (fs.isDir e'.ino) e.ino e'.ino e.dir e'.dir x).persisted
        e.dir e'.dir x) ?_ ?_ ?_ ?_
    · intro x i hi
      rw [hInodes x, hi]
      rfl
    · intro x i
      exact ⟨by simp [Inode.exchanged], by simp [Inode.exchanged]⟩
    · intro x i hi
      have hBalance : (i.exchanged (fs.isDir e.ino) (fs.isDir e'.ino) e.ino e'.ino e.dir e'.dir
          x).nlink < linkModulus ∧ _ :=
        exchanged_balance (isDir_iff_live (h.named e he)) (isDir_iff_live (h.named e' he'))
          e.name e'.name (h.small x i hi) ?_ ?_
      · rw [persisted_nlink]
        refine ⟨hBalance.1, hBalance.2, fun hNot => ?_⟩
        rw [← persisted_nlink _ e.dir e'.dir x]
        refine persisted_nlinks _ ?_
        intro hxa hxb
        obtain ⟨hLinks, hDisk⟩ :=
          shifted_nlinks_of_ne i (fs.isDir e.ino) e.ino e.dir e'.dir hxa hxb
        obtain ⟨hLinks', hDisk'⟩ :=
          shifted_nlinks_of_ne (i.shifted (fs.isDir e.ino) e.ino e.dir e'.dir x)
            (fs.isDir e'.ino) e'.ino e'.dir e.dir hxb hxa
        unfold Inode.exchanged
        rw [hLinks', hDisk', hLinks, hDisk]
        exact h.disk x i hi hNot
      · rintro rfl
        obtain ⟨d, hd, hKind, hDead⟩ := h.placed e he
        obtain rfl : i = d := Option.some.inj (hi.symm.trans hd)
        exact ⟨hKind, h.dir_pos hi hKind hDead (by simp), fun hDiff => (hRoom hDiff i).1 hi⟩
      · rintro rfl
        obtain ⟨d, hd, hKind, hDead⟩ := h.placed e' he'
        obtain rfl : i = d := Option.some.inj (hi.symm.trans hd)
        exact ⟨hKind, h.dir_pos hi hKind hDead (by simp), fun hDiff => (hRoom hDiff i).2 hi⟩
    · intro x i' hx hi'
      rw [hInodes x, hx] at hi'
      cases hi'
  refine h.relink hBal (hFirst.trans (hSecond.cons e)) (by rw [hDirents]; rfl) ?_ ?_ ?_ ?_ (by simp)
  · rw [hDirents]
    refine List.pairwise_cons.mpr ⟨?_, List.pairwise_cons.mpr ⟨?_, ?_⟩⟩
    · intro x hx hEq
      rcases List.mem_cons.mp hx with hHead | hTail
      · rw [hHead] at hEq
        exact hKey ⟨hEq.1.symm, hEq.2.symm⟩
      · exact (mem_filter_isAt.mp hTail).2 ⟨hEq.1.symm, hEq.2.symm⟩
    · intro x hx hEq
      have hNot := (mem_filter_isAt.mp (mem_filter_isAt.mp hx).1).2
      exact hNot ⟨hEq.1.symm, hEq.2.symm⟩
    · exact List.Pairwise.filter _ (List.Pairwise.filter _ h.keyed)
  · intro x hx
    rcases List.mem_cons.mp hx with hHead | hTail
    · rw [hHead]
      exact hBal.live (h.named e he)
    · rw [List.mem_singleton.mp hTail]
      exact hBal.live (h.named e' he')
  · intro x hx
    rcases List.mem_cons.mp hx with hHead | hTail
    · rw [hHead]
      exact hBal.live (h.placed e' he')
    · rw [List.mem_singleton.mp hTail]
      exact hBal.live (h.placed e he)
  · rw [hDirents]
    have hInner : OnceNamed (⟨e.dir, e.name, e'.ino, e'.type⟩ ::
        (fs.dirents.filter fun x => !x.isAt e.dir e.name).filter
          (fun x => !x.isAt e'.dir e'.name)) := by
      refine (h.single.sub fun x hx => (hKept x hx).1).cons ?_
      intro x hx hSame
      have hOther : e'.type ≠ .dir ∧ x.type ≠ .dir :=
        h.single.other he' (hKept x hx).1 (hKept x hx).2.2 hSame
      exact hOther
    refine hInner.cons ?_
    intro x hx hSame
    rcases List.mem_cons.mp hx with hHead | hTail
    · rw [hHead] at hSame
      exact absurd hSame.symm hNe
    · have hOther : e.type ≠ .dir ∧ x.type ≠ .dir :=
        h.single.other he (hKept x hTail).1 (hKept x hTail).2.1 hSame
      exact hOther

end

end Briefs.Dir
