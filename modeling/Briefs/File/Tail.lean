import Briefs.File.Inode

/-!
# BrieFS — the tail cache

`cached_max_end` is 0 for "unknown", or it ends no earlier than any extent. Reads take a
block from `cached_max_end` on for a hole, and a truncation to the current size does
nothing if `cached_max_end` does not reach past it.

An inode that is read from disk starts with 0, whatever it maps. `briefs_btree_insert_locked`
raises the value to the end of the new extent, which says "unknown" no longer although the
other extents were never looked at; so does a range delete that puts back the tail of an
extent. And 0 is less than every size, so that the shortcut of `briefs_setattr` is taken
for every file whose tail is unknown.

## Results

* `tail_cache_sound` — the cache is sound in every run without such steps.
* `loaded_insert_understates` — it is not after one.
-/

namespace Briefs.File

open Briefs.Journal
open Briefs.Btree

--
-- The code
--

/-- What the read mode of `briefs_iomap_begin_common` reports. -/
inductive ReadMap where
  | hole
  | inline
  | mapped (m : Iomap)
deriving DecidableEq, Repr

/-- `briefs_iomap_begin_common` with `write` not set and `IOMAP_REPORT` neither. -/
def Inode.beginRead (i : Inode) (pos : Nat) : Option ReadMap :=
  let iblock := pos / blockSize
  if i.inlineData then some (if pos < i.size then .inline else .hole)
  else if i.file.pastTail iblock then some .hole
  else match lookupIblock i.file iblock with
    | none => none
    | some (.ok ext) => some (.mapped (fillMapped ext false))
    | some (.error _) => some .hole

/-- What happens to an inode; `reload` is an eviction and the next read from disk. -/
inductive Event where
  | extents (op : Btree.Op)
  | promote
  | truncate (newSize : Nat)
  | reload

/-- One event: its return code and the inode after it. -/
def Inode.step (i : Inode) : Event → Option (Option Errno × Inode)
  | .extents op => (Btree.step i.file op).map fun r => (r.1, { i with file := r.2 })
  | .promote => some i.promote
  | .truncate newSize => i.truncate newSize
  | .reload => some (none, { i with file := { i.file with maxEnd := 0 } })

/-- What every caller sees to: inline data is promoted before there are extents, and sizes
are those of a `loff_t`. -/
def Event.Allowed (i : Inode) : Event → Prop
  | .extents op =>
    Btree.Allowed i.file op ∧ (i.inlineData = true → ∃ alloc, op = .others alloc)
  | .truncate newSize => newSize < 2 ^ 63
  | _ => True

/-- The tail is known, or what is put in ends last, or nothing lies past the end of the
file that is truncated to its own size. -/
def Event.Known (i : Inode) : Event → Prop
  | .extents op => Btree.Known i.file op
  | .truncate newSize => newSize = i.size → i.file.maxEnd = 0 →
      ∀ e ∈ i.file.content.exts, e.stop ≤ truncBlock newSize
  | _ => True

/-- No new range has a separator of the tree inside, and extents can be cut in two. -/
def Event.Clean (i : Inode) : Event → Prop
  | .extents op => Avoids i.file op ∧ Roomy i.file op
  | _ => True

/-- The states that a run goes through, each event under `P`. -/
inductive Inode.Runs (P : Inode → Event → Prop) (i : Inode) : Inode → Prop
  | refl : Runs P i i
  | step {j k : Inode} {ev : Event} {code : Option Errno} :
      Runs P i j → P j ev → j.step ev = some (code, k) → Runs P i k

--
-- One event
--

/-- What one event leaves. -/
structure Done (i : Inode) (ev : Event) (j : Inode) : Prop where
  sound : j.Sound
  tail  : TailOk i.file.maxEnd i.file.content.exts → ev.Known i →
    TailOk j.file.maxEnd j.file.content.exts
  tidy  : NoCross i.file.content → ev.Clean i → NoCross j.file.content
  total : NoCross i.file.content → i.file.total = i.file.content.exts.length → ev.Clean i →
    j.file.total = j.file.content.exts.length

section Event

variable {i j : Inode} {ev : Event}

theorem Kept.done (h : Kept i.file j.file) (hSound : j.Sound) : Done i ev j where
  sound := hSound
  tail  := fun hTail _ => h.tail hTail
  tidy  := fun hNo _ => h.tidy hNo
  total := fun hNo hTotal _ => h.total hNo hTotal

/-- Every event leaves a sound inode. -/
theorem Inode.Sound.step (h : i.Sound) (hAllowed : ev.Allowed i) :
    ∃ code j, i.step ev = some (code, j) ∧ Done i ev j := by
  cases ev with
  | extents op =>
    obtain ⟨hOp, hInline⟩ := hAllowed
    obtain ⟨code, g, hEq, hDone⟩ := h.sound.step hOp
    have hStep : i.step (.extents op) = some (code, { i with file := g }) := by
      show (Btree.step i.file op).map _ = _
      rw [hEq]
      rfl
    refine ⟨code, _, hStep, ⟨hDone.sound, ?_⟩, fun hTail hKnown => hDone.tail hTail hKnown,
      fun hNo hClean => hDone.tidy hNo hClean.1,
      fun hNo hTotal hClean => hDone.total hNo hTotal hClean.2⟩
    -- With inline data only the allocator changes.
    intro hFlag
    obtain ⟨alloc, rfl⟩ := hInline hFlag
    obtain ⟨-, rfl⟩ := Prod.mk.inj (Option.some.inj hEq)
    exact h.inline hFlag
  | promote =>
    obtain ⟨hSound, hKept, -⟩ := h.promote
    exact ⟨i.promote.1, i.promote.2, rfl, hKept.done hSound⟩
  | truncate newSize =>
    obtain ⟨code, j, hEq, hSound, hKept⟩ := h.truncate hAllowed
    exact ⟨code, j, hEq, hKept.done hSound⟩
  | reload =>
    have hOld := h.sound
    have hHolds : Holds { i.file with maxEnd := 0 } i.file.content :=
      ⟨hOld.holds.tree, hOld.holds.flat, hOld.holds.nodup, hOld.holds.owned, hOld.holds.stops,
        hOld.holds.sound⟩
    have hOwns : Owns { i.file with maxEnd := 0 } i.file.content.blocks
        (cells i.file.content.exts) := ⟨hOld.owns.taken, hOld.owns.apart, hOld.owns.once⟩
    exact ⟨none, _, rfl, ⟨sound_of_content hHolds hOwns, h.inline⟩, fun _ _ => Or.inl rfl,
      fun hNo _ => hNo, fun _ hTotal _ => hTotal⟩

end Event

--
-- All events
--

section Runs

variable {P : Inode → Event → Prop} {i j : Inode}

theorem Inode.Runs.tail (hRun : i.Runs P j) (hP : ∀ i ev, P i ev → ev.Allowed i ∧ ev.Known i)
    (h : i.Sound) (hTail : TailOk i.file.maxEnd i.file.content.exts) :
    j.Sound ∧ TailOk j.file.maxEnd j.file.content.exts := by
  induction hRun with
  | refl => exact ⟨h, hTail⟩
  | step _ hStep hEq ih =>
    obtain ⟨hSound, hOk⟩ := ih
    obtain ⟨hAllowed, hKnown⟩ := hP _ _ hStep
    obtain ⟨code, k, hEq', hDone⟩ := hSound.step hAllowed
    rw [hEq] at hEq'
    obtain ⟨-, rfl⟩ := Prod.mk.inj (Option.some.inj hEq')
    exact ⟨hDone.sound, hDone.tail hOk hKnown⟩

theorem Inode.Runs.clean (hRun : i.Runs P j) (hP : ∀ i ev, P i ev → ev.Allowed i ∧ ev.Clean i)
    (h : i.Sound) (hNo : NoCross i.file.content)
    (hTotal : i.file.total = i.file.content.exts.length) :
    j.Sound ∧ NoCross j.file.content ∧ j.file.total = j.file.content.exts.length := by
  induction hRun with
  | refl => exact ⟨h, hNo, hTotal⟩
  | step _ hStep hEq ih =>
    obtain ⟨hSound, hNo', hTotal'⟩ := ih
    obtain ⟨hAllowed, hClean⟩ := hP _ _ hStep
    obtain ⟨code, k, hEq', hDone⟩ := hSound.step hAllowed
    rw [hEq] at hEq'
    obtain ⟨-, rfl⟩ := Prod.mk.inj (Option.some.inj hEq')
    exact ⟨hDone.sound, hDone.tidy hNo' hClean, hDone.total hNo' hTotal' hClean⟩

end Runs

--
-- Reading
--

section Read

variable {f : Btree.File} {i : Inode}

/-- What a lookup finds is an extent of the index. -/
theorem mem_of_lookupIblock (h : Sound f) {b : Nat} (hb : b < fileTop) {ext : Extent}
    (hFind : lookupIblock f b = some (.ok ext)) : ext ∈ f.content.exts ∧ ext.covers b := by
  unfold lookupIblock at hFind
  by_cases hIdx : f.indexed = true
  · obtain ⟨d, hSub⟩ := h.holds.tree hIdx
    have hFuel := hSub.depth_lt
    rw [if_pos hIdx] at hFind
    unfold lookup at hFind
    rw [if_neg (Nat.ne_of_gt hSub.pos), hSub.lookup hFuel (Nat.zero_le _) hb] at hFind
    cases hLeaf : lookupLeaf b (routeLeaf f.nodes b (d + 1) f.root) with
    | none =>
      rw [hLeaf] at hFind
      cases hFind
    | some x =>
      rw [hLeaf] at hFind
      obtain rfl : x = ext := by
        injection hFind with hFind
        injection hFind
      obtain ⟨hMem, hCov⟩ := mem_of_lookupLeaf hLeaf
      exact ⟨hSub.routeLeaf_subset (d + 1) (Nat.zero_le _) hb hMem, hCov⟩
  · obtain ⟨hContent, -, hEight⟩ := h.holds.flat (by simpa using hIdx)
    rw [if_neg hIdx, List.take_of_length_le hEight] at hFind
    cases hLeaf : f.inline.find? fun e => decide (e.covers b) with
    | none =>
      rw [hLeaf] at hFind
      cases hFind
    | some x =>
      rw [hLeaf] at hFind
      obtain rfl : x = ext := by
        injection hFind with hFind
        injection hFind
      have hCov := List.find?_some hLeaf
      rw [hContent]
      exact ⟨List.mem_of_find?_eq_some hLeaf, of_decide_eq_true hCov⟩

/-- The fast path does not hide what a lookup finds. -/
theorem beginRead_of_tailOk (hTail : TailOk i.file.maxEnd i.file.content.exts) (h : i.Sound)
    (hFlag : i.inlineData = false) {pos : Nat} (hPos : pos / blockSize < fileTop) {ext : Extent}
    (hFind : lookupIblock i.file (pos / blockSize) = some (.ok ext)) :
    i.beginRead pos = some (.mapped (fillMapped ext false)) := by
  obtain ⟨hMem, hLo, hHi⟩ := mem_of_lookupIblock h.sound hPos hFind
  have hNot : ¬ i.file.pastTail (pos / blockSize) := by
    intro hPast
    have hStop := hTail.resolve_left hPast.1 ext hMem
    have hEnd := hPast.2
    omega
  unfold Inode.beginRead
  dsimp only
  rw [hFlag, if_neg (by decide), if_neg hNot, hFind]

end Read

/-- The tail cache is sound in every run from a new inode, or from one that was just read,
in which no extent is put in before others while the tail is unknown. If also no extent
comes to lie across a separator, a mapped block is never read as a hole, and the equal-size
shortcut skips nothing unless the tail is unknown. -/
theorem tail_cache_sound {i : Inode} (hSound : i.Sound) (hStart : i.file.maxEnd = 0) :
    (∀ j, i.Runs (fun i ev => ev.Allowed i ∧ ev.Known i) j →
      TailOk j.file.maxEnd j.file.content.exts ∧
      ∀ pos ext, pos / blockSize < fileTop → j.inlineData = false →
        lookupIblock j.file (pos / blockSize) = some (.ok ext) →
        j.beginRead pos = some (.mapped (fillMapped ext false))) ∧
    (NoCross i.file.content → i.file.total = i.file.content.exts.length →
      ∀ j, i.Runs (fun i ev => ev.Allowed i ∧ ev.Known i ∧ ev.Clean i) j →
        (∀ pos, ∀ e ∈ j.file.content.exts, e.covers (pos / blockSize) →
          j.beginRead pos = some (.mapped (fillMapped e false))) ∧
        ∀ newSize, (Event.truncate newSize).Known j → newSize = j.size → j.shortcut newSize →
          ∀ e ∈ j.file.content.exts, e.stop ≤ truncBlock newSize) := by
  have hTail : TailOk i.file.maxEnd i.file.content.exts := Or.inl hStart
  constructor
  · intro j hRun
    obtain ⟨hSound', hOk⟩ := hRun.tail (fun _ _ hP => hP) hSound hTail
    exact ⟨hOk, fun pos ext hPos hFlag hFind => beginRead_of_tailOk hOk hSound' hFlag hPos hFind⟩
  · intro hNo hTotal j hRun
    obtain ⟨hSound', hOk⟩ := hRun.tail (fun _ _ hP => ⟨hP.1, hP.2.1⟩) hSound hTail
    obtain ⟨-, hNo', hTotal'⟩ := hRun.clean (fun _ _ hP => ⟨hP.1, hP.2.2⟩) hSound hNo hTotal
    constructor
    · intro pos e he hCov
      have hTop : pos / blockSize < fileTop := Nat.lt_trans hCov.2 (hSound'.sound.holds.stops e he)
      have hFlag : j.inlineData = false := by
        by_contra hYes
        rw [hSound'.content (by simpa using hYes)] at he
        exact absurd he List.not_mem_nil
      have hTidy : Tidy j.file j.file.content := ⟨hSound'.sound.holds, hNo'⟩
      exact beginRead_of_tailOk hOk hSound' hFlag hTop ((hTidy.lookup_iff hTop e).mpr ⟨he, hCov⟩)
    · intro newSize hKnown hSame hShort e he
      rcases hShort with hZero | hEnd
      · rw [hTotal'] at hZero
        rw [List.length_eq_zero_iff.mp hZero] at he
        exact absurd he List.not_mem_nil
      · rcases hOk with hUnknown | hAll
        · exact hKnown hSame hUnknown e he
        · exact Nat.le_trans (hAll e he) hEnd

--
-- An inode that is read again
--

/-- The inode after an event. -/
def Inode.after (i : Inode) (ev : Event) : Inode :=
  match i.step ev with
  | some (_, j) => j
  | none => i

theorem Inode.Runs.after {P : Inode → Event → Prop} {i j : Inode} (hRun : i.Runs P j) (h : j.Sound)
    (ev : Event) (hP : P j ev) (hAllowed : ev.Allowed j) :
    i.Runs P (j.after ev) ∧ (j.after ev).Sound := by
  obtain ⟨code, k, hEq, hDone⟩ := h.step hAllowed
  have hAfter : j.after ev = k := by
    unfold Inode.after
    rw [hEq]
  rw [hAfter]
  exact ⟨hRun.step hP hEq, hDone.sound⟩

/-- A new file without data. -/
def newInode : Inode := ⟨newFile, false, 0⟩

/-- With a block at 100. -/
def farInode : Inode := newInode.after (.extents (.insert ⟨100, 1150, 1, 0⟩))

/-- Evicted and read again. -/
def loadedInode : Inode := farInode.after .reload

/-- With a block at 0 as well. -/
def filledInode : Inode := loadedInode.after (.extents (.insert ⟨0, 1151, 1, 0⟩))

theorem newInode_sound : newInode.Sound := ⟨newFile_isEmpty.good.toSound, nofun⟩

/-- A single block may be put in. -/
theorem allowed_insert_block {i : Inode} (h : i.Sound) {b p : Nat} (hb : b + 1 < fileTop)
    (hFlag : i.inlineData = false) (hSpare : i.file.spare p = true) :
    (Event.extents (.insert ⟨b, p, 1, 0⟩)).Allowed i := by
  have hOwns : Owns i.file i.file.content.blocks
      (cells i.file.content.exts ++ (⟨b, p, 1, 0⟩ : Extent).cells) := by
    apply h.sound.owns.spare
    · intro x hx
      obtain rfl : x = (b, p, 0) := by simpa [Extent.cells] using hx
      exact hSpare
    · simp [Extent.cells]
  refine ⟨⟨Nat.one_pos, hb, hOwns⟩, fun hYes => ?_⟩
  rw [hFlag] at hYes
  cases hYes

theorem farInode_run {P : Inode → Event → Prop}
    (hP : P newInode (.extents (.insert ⟨100, 1150, 1, 0⟩))) :
    newInode.Runs P farInode ∧ farInode.Sound :=
  Inode.Runs.refl.after newInode_sound _ hP
    (allowed_insert_block newInode_sound (by decide) rfl (by decide +kernel))

/-- The first extent of a new file. -/
theorem farInode_tail :
    farInode.file.maxEnd = 101 ∧ TailOk farInode.file.maxEnd farInode.file.content.exts := by
  have hKnown : (Event.extents (.insert ⟨100, 1150, 1, 0⟩)).Known newInode := by
    intro _ e he
    have hNone : newInode.file.content.exts = [] := by decide
    rw [hNone] at he
    cases he
  have hAllowed : (Event.extents (.insert ⟨100, 1150, 1, 0⟩)).Allowed newInode :=
    allowed_insert_block newInode_sound (by decide) rfl (by decide +kernel)
  obtain ⟨hRun, -⟩ := farInode_run (P := fun i ev => ev.Allowed i ∧ ev.Known i) ⟨hAllowed, hKnown⟩
  exact ⟨by decide +kernel, ((tail_cache_sound newInode_sound rfl).1 _ hRun).1⟩

/-- A block at 0 is put in after the inode was read again: the tail cache says 1, and the
block at 100, which a lookup finds, reads as a hole. -/
theorem loaded_insert_understates :
    newInode.Sound ∧ newInode.file.maxEnd = 0 ∧
      newInode.Runs (fun i ev => ev.Allowed i) filledInode ∧
      ¬ TailOk filledInode.file.maxEnd filledInode.file.content.exts ∧
      lookupIblock filledInode.file 100 = some (.ok ⟨100, 1150, 1, 0⟩) ∧
      filledInode.beginRead (100 * blockSize) = some .hole := by
  have hAllowed : (Event.extents (.insert ⟨100, 1150, 1, 0⟩)).Allowed newInode :=
    allowed_insert_block newInode_sound (by decide) rfl (by decide +kernel)
  obtain ⟨hFar, hSound⟩ := farInode_run (P := fun i ev => ev.Allowed i) hAllowed
  obtain ⟨hLoaded, hSound'⟩ := hFar.after hSound .reload trivial trivial
  have hAllowed' : (Event.extents (.insert ⟨0, 1151, 1, 0⟩)).Allowed loadedInode :=
    allowed_insert_block hSound' (by decide) (by decide +kernel) (by decide +kernel)
  obtain ⟨hFilled, -⟩ := hLoaded.after hSound' _ hAllowed' hAllowed'
  refine ⟨newInode_sound, rfl, hFilled, ?_, by decide +kernel, by decide +kernel⟩
  have hEnd : filledInode.file.maxEnd = 1 := by decide +kernel
  have hMem : ⟨100, 1150, 1, 0⟩ ∈ filledInode.file.content.exts := by decide +kernel
  rw [hEnd]
  rintro (hZero | hAll)
  · cases hZero
  · exact absurd (hAll _ hMem) (by decide)

end Briefs.File
