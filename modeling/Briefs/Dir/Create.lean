import Briefs.Journal.Format
import Mathlib.Logic.Function.Basic
import Mathlib.Tactic.Common

/-!
# BrieFS — inode numbers of failed creates

`briefs_new_inode` takes a number from the inode bitmap, hashes a new inode under it with
`iget_locked` and writes its slot; `briefs_finish_create` gives it a name (`inode.c`). A failure of
either frees the number and drops the reference with `iput`, but leaves the link count at 1 or 2.
`briefs_super_ops` has no `drop_inode`, so the inode stays hashed until the cache gives it up, and
in between `briefs_new_inode` finds it under the freed number and returns `-EEXIST`. The comment in
`briefs_iget_with_gen` describes this for another path.

The rollback of `briefs_create_abort` ignores errors of `briefs_remove_dir_entry`; a name that stays
behind leads to the aborted inode as long as that is hashed.

## Results

* `collides_iff_aborted` — as long as the rollback removes the name, a new inode fails with
  `-EEXIST` exactly if an aborted inode of its number is still hashed, and the eviction of that one
  frees and changes nothing.
* `collides_after_abort` — it fails right after a create whose slot could not be written.
-/

namespace Briefs.Create

open Briefs.Journal (Errno)

--
-- The inodes
--

/-- How far the creation of an inode has come: in `briefs_new_inode`, in
`briefs_finish_create`, done, or rolled back. -/
inductive Phase where
  | building | made | linked | aborted
  deriving DecidableEq, Repr

/-- An inode in the hash: `i_generation`, `i_nlink`, `i_count`, the blocks its disk inode refers to
(extents, trie pages, xattrs) and `has_pending_journal_snapshot`. -/
structure Vnode where
  gen    : Nat
  nlink  : Nat
  count  : Nat
  phase  : Phase
  blocks : List Nat
  snap   : Bool
  deriving DecidableEq, Repr

/-- A slot of the inode table with a valid magic. -/
structure Slot where
  gen    : Nat
  nlink  : Nat
  blocks : List Nat
  deriving DecidableEq, Repr

/-- The records that the calls append. -/
inductive Rec where
  | inodeAlloc (n : Nat)
  | inodeFree (n : Nat)
  | inodeFull (n gen : Nat)
  deriving DecidableEq, Repr

/-- The inode bitmap, the numbers that were taken by a call that has not yet come to
`iget_locked`, the hash, the inode table, the numbers that a directory entry names, the block
bitmap and the journal. -/
structure Sys where
  used    : Nat → Bool
  pending : Nat → Bool
  cache   : Nat → Option Vnode
  slot    : Nat → Option Slot
  named   : Nat → Bool
  taken   : Nat → Bool
  journal : List Rec

/-- A new filesystem. -/
def emptySys : Sys :=
  { used := fun _ => false
    pending := fun _ => false
    cache := fun _ => none
    slot := fun _ => none
    named := fun _ => false
    taken := fun _ => false
    journal := [] }

/-- The points after `iget_locked` at which a create gives up. -/
inductive FailPoint where
  | initAcl | persist | addEntry | journalFull | journalAdd | updateParent
  deriving DecidableEq, Repr

/-- The function that fails: `briefs_new_inode` or `briefs_finish_create`. -/
def FailPoint.phase : FailPoint → Phase
  | .initAcl | .persist => .building
  | .addEntry | .journalFull | .journalAdd | .updateParent => .made

/-- The steps. `zeroed` tells that the cleared slot could be stored, `left` that the name could not
be removed. -/
inductive Event where
  | alloc (n : Nat) (fails zeroed : Bool)
  | iget (n gen : Nat) (isDir noMemory zeroed : Bool)
  | initAcl (n block : Nat)
  | persist (n : Nat)
  | journalFull (n : Nat)
  | finish (n : Nat)
  | fail (n : Nat) (p : FailPoint) (left zeroed : Bool)
  | get (n : Nat)
  | put (n : Nat)
  | setLinks (n links : Nat)
  | grow (n block : Nat)
  | evict (n : Nat) (zeroed : Bool)

--
-- The calls
--

/-- `briefs_free_inode_num`. -/
def Sys.freeInodeNum (s : Sys) (n : Nat) (zeroed : Bool) : Sys :=
  { s with
    used := Function.update s.used n false
    slot := if zeroed then Function.update s.slot n none else s.slot
    journal := s.journal ++ [.inodeFree n] }

/-- `briefs_flush_inode_pending_journal_snapshot`. -/
def Sys.flushSnapshot (s : Sys) (n : Nat) (v : Vnode) : Sys :=
  if v.snap then { s with journal := s.journal ++ [.inodeFull n v.gen] } else s

/-- `briefs_free_inode_data`: the blocks are freed and the cleared inode is stored. -/
def Sys.freeInodeData (s : Sys) (n : Nat) (v : Vnode) : Sys :=
  let s := s.flushSnapshot n v
  { s with
    taken := fun b => if b ∈ v.blocks then false else s.taken b
    slot := Function.update s.slot n (some ⟨v.gen, v.nlink, []⟩) }

/-- What `briefs_new_inode` returns if it fails at `iget_locked`. -/
def Sys.igetError (s : Sys) (n : Nat) (noMemory : Bool) : Option Errno :=
  match s.cache n with
  | some _ => some .eexist
  | none => if noMemory then some .enomem else none

/-- `briefs_evict_inode`. -/
def Sys.evict (s : Sys) (n : Nat) (v : Vnode) (zeroed : Bool) : Sys :=
  let s := s.flushSnapshot n v
  let s := if v.nlink = 0 then (s.freeInodeData n { v with snap := false }).freeInodeNum n zeroed else s
  { s with cache := Function.update s.cache n none }

/-- The failure paths: `fail_iget` in `briefs_new_inode`, `briefs_create_abort` from
`briefs_finish_create`. The reference is dropped by a later `put`. -/
def Sys.abort (s : Sys) (n : Nat) (v : Vnode) (p : FailPoint) (left zeroed : Bool) : Sys :=
  match p.phase with
  | .made =>
    let s := ((s.freeInodeData n v).freeInodeNum n zeroed)
    { s with
      named := Function.update s.named n (left && decide (p ≠ .addEntry))
      cache := Function.update s.cache n
        (some { v with phase := .aborted, blocks := [], snap := false }) }
  | _ =>
    let s := s.freeInodeNum n zeroed
    { s with cache := Function.update s.cache n (some { v with phase := .aborted }) }

/-- Replace the hashed inode. -/
def Sys.setVnode (s : Sys) (n : Nat) (v : Vnode) : Sys :=
  { s with cache := Function.update s.cache n (some v) }

/-- The inode that is named or open. -/
def Sys.reached (s : Sys) (n : Nat) (v : Vnode) : Prop := s.named n = true ∨ v.phase = .linked

instance (s : Sys) (n : Nat) (v : Vnode) : Decidable (s.reached n v) :=
  inferInstanceAs (Decidable (_ ∨ _))

/-- The start of `briefs_new_inode`: a number and its `JRN_INODE_ALLOC` record. -/
def Sys.takeNumber (s : Sys) (n : Nat) (fails zeroed : Bool) : Option Sys :=
  if s.used n then none
  else if fails then some (s.freeInodeNum n zeroed)
  else some { s with
    used := Function.update s.used n true
    pending := Function.update s.pending n true
    journal := s.journal ++ [.inodeAlloc n] }

/-- `iget_locked` in `briefs_new_inode` and what follows up to `unlock_new_inode`. -/
def Sys.igetNew (s : Sys) (n gen : Nat) (isDir noMemory zeroed : Bool) : Option Sys :=
  if s.pending n then
    match s.igetError n noMemory with
    | some _ => some { s.freeInodeNum n zeroed with pending := Function.update s.pending n false }
    | none => some { s.setVnode n ⟨gen, if isDir then 2 else 1, 1, .building, [], false⟩ with
        pending := Function.update s.pending n false }
  else none

/-- `briefs_iget` of a number that is not hashed. -/
def Sys.reload (s : Sys) (n : Nat) : Option Sys :=
  match s.slot n with
  | some d =>
    if s.named n then some (s.setVnode n ⟨d.gen, d.nlink, 1, .linked, d.blocks, false⟩) else none
  | none => none

/-- The steps of a hashed inode. -/
def Sys.stepVnode (s : Sys) (v : Vnode) : Event → Option Sys
  | .initAcl n b =>
    if v.phase = .building ∧ s.taken b = false then
      some { s.setVnode n { v with blocks := b :: v.blocks, snap := true } with
        taken := Function.update s.taken b true }
    else none
  | .persist n =>
    if v.phase = .building then
      some { s.setVnode n { v with phase := .made } with
        slot := Function.update s.slot n (some ⟨v.gen, v.nlink, v.blocks⟩) }
    else none
  | .journalFull n =>
    if v.phase = .made then some (s.setVnode n { v with snap := true }) else none
  | .finish n =>
    if v.phase = .made then
      some { s.setVnode n { v with phase := .linked } with named := Function.update s.named n true }
    else none
  | .fail n p left zeroed =>
    if v.phase = p.phase then some (s.abort n v p left zeroed) else none
  | .get n => if s.named n then some (s.setVnode n { v with count := v.count + 1 }) else none
  | .put n =>
    if 0 < v.count ∧ (v.phase = .linked ∨ v.phase = .aborted) then
      some (s.setVnode n { v with count := v.count - 1 })
    else none
  | .setLinks n links =>
    if s.named n then
      some { s.setVnode n { v with nlink := links } with
        slot := Function.update s.slot n (some ⟨v.gen, links, v.blocks⟩)
        named := Function.update s.named n (decide (links ≠ 0)) }
    else none
  | .grow n b =>
    if s.reached n v ∧ s.taken b = false then
      some { s.setVnode n { v with blocks := b :: v.blocks, snap := true } with
        taken := Function.update s.taken b true
        slot := Function.update s.slot n (some ⟨v.gen, v.nlink, b :: v.blocks⟩) }
    else none
  | .evict n zeroed => if v.count = 0 then some (s.evict n v zeroed) else none
  | _ => none

/-- The number that a step is about. -/
def Event.number : Event → Nat
  | .alloc n _ _ | .iget n _ _ _ _ | .initAcl n _ | .persist n | .journalFull n | .finish n
  | .fail n _ _ _ | .get n | .put n | .setLinks n _ | .grow n _ | .evict n _ => n

/-- One step. -/
def Sys.step (s : Sys) (e : Event) : Option Sys :=
  match e with
  | .alloc n fails zeroed => s.takeNumber n fails zeroed
  | .iget n gen isDir noMemory zeroed => s.igetNew n gen isDir noMemory zeroed
  | e =>
    match s.cache e.number, e with
    | some v, e => s.stepVnode v e
    | none, .get n => s.reload n
    | none, _ => none

/-- The rollback removes the name. -/
def Event.RemovesName : Event → Prop
  | .fail _ _ left _ => left = false
  | _ => True

/-- The states that are reached by steps under `P`. -/
inductive Reach (P : Event → Prop) : Sys → Prop
  | start : Reach P emptySys
  | step {s s' : Sys} {e : Event} : Reach P s → P e → s.step e = some s' → Reach P s'

--
-- What is known of a number
--

/-- The bits of one number, the inode that is hashed under it and its slot: a number that a call has
taken has no name yet, one with a name or a living inode is in use, what has a name has links, and
an aborted inode has links but no name, and its number is free unless another call has taken it. -/
structure Fits (used pending named : Bool) (c : Option Vnode) (d : Option Slot) : Prop where
  ofPending : pending = true → used = true ∧ named = false
  ofNamed   : named = true → used = true ∧ (∀ v ∈ c, v.nlink ≠ 0) ∧ ∀ slot ∈ d, slot.nlink ≠ 0
  live      : ∀ v ∈ c, v.phase ≠ .aborted → used = true ∧ pending = false
  new       : ∀ v ∈ c, v.phase = .building ∨ v.phase = .made →
                named = false ∧ v.nlink ≠ 0 ∧ 0 < v.count ∧
                  (v.phase = .made → ∀ slot ∈ d, slot.nlink ≠ 0)
  dead      : ∀ v ∈ c, v.phase = .aborted →
                named = false ∧ v.nlink ≠ 0 ∧ (used = true → pending = true)

/-- What is known of a number in a state. -/
def Sys.FitsAt (s : Sys) (n : Nat) : Prop :=
  Fits (s.used n) (s.pending n) (s.named n) (s.cache n) (s.slot n)

section Parts

variable (s : Sys) (n : Nat) (v : Vnode) (zeroed : Bool)

/-- A snapshot only goes to the journal. -/
theorem flushSnapshot_eq : ∃ journal, s.flushSnapshot n v = { s with journal := journal } := by
  unfold Sys.flushSnapshot
  split
  · exact ⟨_, rfl⟩
  · exact ⟨s.journal, rfl⟩

theorem freeInodeNum_slot {m : Nat} (hm : m ≠ n) : (s.freeInodeNum n zeroed).slot m = s.slot m := by
  unfold Sys.freeInodeNum
  dsimp only
  split
  · exact Function.update_of_ne hm _ _
  · rfl

/-- Freeing data and number touches the bit and the slot of the number, and the blocks. -/
theorem free_eq :
    ∃ taken slot journal, (∀ m, m ≠ n → slot m = s.slot m) ∧
      (s.freeInodeData n v).freeInodeNum n zeroed =
        { s with
          used := Function.update s.used n false
          taken := taken, slot := slot, journal := journal } := by
  obtain ⟨journal, hFlush⟩ := flushSnapshot_eq s n v
  unfold Sys.freeInodeData
  rw [hFlush]
  dsimp only
  refine ⟨_, _, _, fun m hm => ?_, rfl⟩
  exact (freeInodeNum_slot _ n zeroed hm).trans (Function.update_of_ne hm _ _)

/-- The eviction of an inode with links takes it out of the hash and stores its snapshot. -/
theorem evict_of_links (hLinks : v.nlink ≠ 0) :
    ∃ journal, s.evict n v zeroed =
      { s with cache := Function.update s.cache n none, journal := journal } := by
  obtain ⟨journal, hFlush⟩ := flushSnapshot_eq s n v
  unfold Sys.evict
  rw [hFlush]
  dsimp only
  rw [if_neg hLinks]
  exact ⟨journal, rfl⟩

/-- Without links it frees the number. -/
theorem evict_of_free (hLinks : v.nlink = 0) :
    ∃ taken slot journal, (∀ m, m ≠ n → slot m = s.slot m) ∧
      s.evict n v zeroed =
        { s with
          used := Function.update s.used n false
          taken := taken, slot := slot, journal := journal
          cache := Function.update s.cache n none } := by
  obtain ⟨journal, hFlush⟩ := flushSnapshot_eq s n v
  obtain ⟨taken, slot, journal', hSlot, hFree⟩ :=
    free_eq { s with journal := journal } n { v with snap := false } zeroed
  refine ⟨taken, slot, journal', hSlot, ?_⟩
  unfold Sys.evict
  rw [hFlush]
  dsimp only
  rw [if_pos hLinks, hFree]

/-- A failed create frees the number and leaves the inode in the hash, with its links. -/
theorem abort_eq (p : FailPoint) (hName : s.named n = false) :
    ∃ w taken slot journal, w.phase = .aborted ∧ w.nlink = v.nlink ∧
      (∀ m, m ≠ n → slot m = s.slot m) ∧
      s.abort n v p false zeroed =
        { s with
          used := Function.update s.used n false
          taken := taken, slot := slot, journal := journal
          cache := Function.update s.cache n (some w) } := by
  have hSame : Function.update s.named n false = s.named := by
    rw [← hName, Function.update_eq_self]
  have hNumber : ∃ w taken slot journal, w.phase = .aborted ∧ w.nlink = v.nlink ∧
      (∀ m, m ≠ n → slot m = s.slot m) ∧
      { s.freeInodeNum n zeroed with
        cache := Function.update s.cache n (some { v with phase := .aborted }) } =
        { s with
          used := Function.update s.used n false
          taken := taken, slot := slot, journal := journal
          cache := Function.update s.cache n (some w) } := by
    exact ⟨{ v with phase := .aborted }, _, _, _, rfl, rfl,
      fun m hm => freeInodeNum_slot s n zeroed hm, rfl⟩
  unfold Sys.abort
  cases hPhase : p.phase with
  | made =>
    obtain ⟨taken, slot, journal, hSlot, hFree⟩ := free_eq s n v zeroed
    simp only [hFree, Bool.false_and, hSame]
    exact ⟨{ v with phase := .aborted, blocks := [], snap := false }, _, _, _, rfl, rfl, hSlot, rfl⟩
  | building => exact hNumber
  | linked => exact hNumber
  | aborted => exact hNumber

end Parts

--
-- One step
--

section Step

variable {s s' : Sys} {n : Nat}

/-- Everything that is known of the number `m` is as before. -/
def SameAt (t s : Sys) (m : Nat) : Prop :=
  t.used m = s.used m ∧ t.pending m = s.pending m ∧ t.named m = s.named m ∧
    t.cache m = s.cache m ∧ t.slot m = s.slot m

/-- A change at one number leaves what is known of the others. -/
theorem fitsAt_update {t : Sys} (n : Nat) (hAll : ∀ m, s.FitsAt m) (hHere : t.FitsAt n)
    (hElse : ∀ m, m ≠ n → SameAt t s m) (m : Nat) : t.FitsAt m := by
  by_cases hm : m = n
  · exact hm ▸ hHere
  · obtain ⟨hUsed, hPending, hNamed, hCache, hSlot⟩ := hElse m hm
    unfold Sys.FitsAt
    rw [hUsed, hPending, hNamed, hCache, hSlot]
    exact hAll m

/-- Nothing is said of a number without an inode, a name or a call that has taken it. -/
theorem fits_free {used : Bool} {d : Option Slot} : Fits used false false none d :=
  ⟨nofun, nofun, nofun, nofun, nofun⟩

/-- An aborted inode with a free number. -/
theorem fits_aborted {w : Vnode} {d : Option Slot} (hPhase : w.phase = .aborted)
    (hLinks : w.nlink ≠ 0) {pending : Bool} (hPending : pending = false) :
    Fits false pending false (some w) d := by
  subst hPending
  refine ⟨nofun, nofun, ?_, ?_, ?_⟩
  · intro v hv hLive
    cases hv
    exact absurd hPhase hLive
  · intro v hv hNew
    cases hv
    rw [hPhase] at hNew
    rcases hNew with hNew | hNew <;> cases hNew
  · intro v hv _
    cases hv
    exact ⟨rfl, hLinks, nofun⟩

/-- An inode whose creation is over. -/
theorem fits_linked {w : Vnode} {d : Option Slot} {named : Bool} (hPhase : w.phase = .linked)
    (hLinks : named = true → w.nlink ≠ 0 ∧ ∀ slot ∈ d, slot.nlink ≠ 0) :
    Fits true false named (some w) d := by
  refine ⟨nofun, fun hNamed => ⟨rfl, ?_, (hLinks hNamed).2⟩, fun _ _ _ => ⟨rfl, rfl⟩, ?_, ?_⟩
  · intro v hv
    cases hv
    exact (hLinks hNamed).1
  · intro v hv hNew
    cases hv
    rw [hPhase] at hNew
    rcases hNew with hNew | hNew <;> cases hNew
  · intro v hv hDead
    cases hv
    rw [hPhase] at hDead
    cases hDead

/-- An inode that is being created. -/
theorem fits_new {w : Vnode} {d : Option Slot} (hPhase : w.phase = .building ∨ w.phase = .made)
    (hLinks : w.nlink ≠ 0) (hCount : 0 < w.count)
    (hStored : w.phase = .made → ∀ slot ∈ d, slot.nlink ≠ 0) :
    Fits true false false (some w) d := by
  refine ⟨nofun, nofun, fun _ _ _ => ⟨rfl, rfl⟩, ?_, ?_⟩
  · intro v hv _
    cases hv
    exact ⟨rfl, hLinks, hCount, hStored⟩
  · intro v hv hDead
    cases hv
    rw [hDead] at hPhase
    rcases hPhase with hPhase | hPhase <;> cases hPhase

theorem takeNumber_fits (hAll : ∀ m, s.FitsAt m) {fails zeroed : Bool}
    (h : s.takeNumber n fails zeroed = some s') (m : Nat) : s'.FitsAt m := by
  unfold Sys.takeNumber at h
  have hHere := hAll n
  unfold Sys.FitsAt at hHere
  by_cases hUsed : s.used n = true
  · rw [if_pos hUsed] at h
    cases h
  rw [if_neg hUsed] at h
  have hFree : s.used n = false := by simpa using hUsed
  have hNamed : s.named n = false := by
    cases hName : s.named n with
    | false => rfl
    | true => exact absurd (hHere.ofNamed hName).1 hUsed
  by_cases hFails : fails = true
  · rw [if_pos hFails] at h
    cases h
    refine fitsAt_update n hAll ?_ (fun m hm => ?_) m
    · simp only [Sys.FitsAt, Sys.freeInodeNum, Function.update_self]
      rw [hFree, hNamed] at hHere
      rw [hNamed]
      refine ⟨hHere.ofPending, nofun, hHere.live, fun v hv hNew => ?_, hHere.dead⟩
      have hLive : v.phase ≠ .aborted := by
        rcases hNew with hNew | hNew <;> rw [hNew] <;> nofun
      exact absurd (hHere.live v hv hLive).1 nofun
    · exact ⟨Function.update_of_ne hm _ _, rfl, rfl, rfl, freeInodeNum_slot s n zeroed hm⟩
  · rw [if_neg hFails] at h
    cases h
    refine fitsAt_update n hAll ?_ (fun m hm => ?_) m
    · simp only [Sys.FitsAt, Function.update_self]
      rw [hNamed]
      refine ⟨fun _ => ⟨rfl, rfl⟩, nofun, ?_, ?_, ?_⟩
      · intro v hv hLive
        exact absurd (hHere.live v hv hLive).1 hUsed
      · intro v hv hNew
        exact ⟨rfl, (hHere.new v hv hNew).2⟩
      · intro v hv hDead
        exact ⟨rfl, (hHere.dead v hv hDead).2.1, fun _ => rfl⟩
    · exact ⟨Function.update_of_ne hm _ _, Function.update_of_ne hm _ _, rfl, rfl, rfl⟩

theorem igetNew_fits (hAll : ∀ m, s.FitsAt m) {gen : Nat} {isDir noMemory zeroed : Bool}
    (h : s.igetNew n gen isDir noMemory zeroed = some s') (m : Nat) : s'.FitsAt m := by
  unfold Sys.igetNew at h
  have hHere := hAll n
  unfold Sys.FitsAt at hHere
  by_cases hPending : s.pending n = true
  · rw [if_pos hPending] at h
    obtain ⟨hUsed, hNamed⟩ := hHere.ofPending hPending
    cases hError : s.igetError n noMemory with
    | some e =>
      rw [hError] at h
      cases h
      refine fitsAt_update n hAll ?_ (fun m hm => ?_) m
      · simp only [Sys.FitsAt, Sys.freeInodeNum, Function.update_self]
        rw [hNamed]
        cases hCached : s.cache n with
        | none => exact fits_free
        | some v =>
          rw [hCached] at hHere
          have hDead : v.phase = .aborted := by
            by_contra hLive
            rw [(hHere.live v rfl hLive).2] at hPending
            cases hPending
          exact fits_aborted hDead (hHere.dead v rfl hDead).2.1 rfl
      · exact ⟨Function.update_of_ne hm _ _, Function.update_of_ne hm _ _, rfl, rfl,
          freeInodeNum_slot s n zeroed hm⟩
    | none =>
      rw [hError] at h
      cases h
      refine fitsAt_update n hAll ?_ (fun m hm => ?_) m
      · simp only [Sys.FitsAt, Sys.setVnode, Function.update_self]
        rw [hUsed, hNamed]
        refine fits_new (Or.inl rfl) ?_ Nat.one_pos nofun
        cases isDir with
        | true => exact Nat.succ_ne_zero _
        | false => exact Nat.succ_ne_zero _
      · exact ⟨rfl, Function.update_of_ne hm _ _, rfl, Function.update_of_ne hm _ _, rfl⟩
  · rw [if_neg hPending] at h
    cases h

theorem reload_fits (hAll : ∀ m, s.FitsAt m) (h : s.reload n = some s') (m : Nat) :
    s'.FitsAt m := by
  unfold Sys.reload at h
  have hHere := hAll n
  unfold Sys.FitsAt at hHere
  cases hSlot : s.slot n with
  | none =>
    rw [hSlot] at h
    cases h
  | some d =>
    rw [hSlot] at h hHere
    by_cases hNamed : s.named n = true
    · simp only [hNamed, if_true] at h
      cases h
      obtain ⟨hUsed, -, hStored⟩ := hHere.ofNamed hNamed
      have hPending : s.pending n = false := by
        cases hTaken : s.pending n with
        | false => rfl
        | true =>
          rw [(hHere.ofPending hTaken).2] at hNamed
          cases hNamed
      refine fitsAt_update n hAll ?_ (fun m hm => ?_) m
      · simp only [Sys.FitsAt, Sys.setVnode, Function.update_self]
        rw [hUsed, hPending, hSlot]
        exact fits_linked rfl fun _ => ⟨hStored d rfl, hStored⟩
      · exact ⟨rfl, rfl, rfl, Function.update_of_ne hm _ _, rfl⟩
    · simp only [hNamed] at h
      cases h

section OfFits

variable {used pending named : Bool} {v : Vnode} {d : Option Slot}

theorem Fits.ofNew (h : Fits used pending named (some v) d)
    (hPhase : v.phase = .building ∨ v.phase = .made) :
    used = true ∧ pending = false ∧ named = false ∧ v.nlink ≠ 0 ∧ 0 < v.count ∧
      (v.phase = .made → ∀ slot ∈ d, slot.nlink ≠ 0) := by
  obtain ⟨hUsed, hPending⟩ := h.live v rfl (by rcases hPhase with h | h <;> rw [h] <;> nofun)
  exact ⟨hUsed, hPending, h.new v rfl hPhase⟩

theorem Fits.ofLinked (h : Fits used pending named (some v) d) (hPhase : v.phase = .linked) :
    used = true ∧ pending = false ∧
      (named = true → v.nlink ≠ 0 ∧ ∀ slot ∈ d, slot.nlink ≠ 0) := by
  obtain ⟨hUsed, hPending⟩ := h.live v rfl (by rw [hPhase]; nofun)
  refine ⟨hUsed, hPending, fun hNamed => ?_⟩
  obtain ⟨-, hLinks, hStored⟩ := h.ofNamed hNamed
  exact ⟨hLinks v rfl, hStored⟩

/-- What has a name is neither new nor aborted. -/
theorem Fits.linked_of_named (h : Fits used pending named (some v) d) (hNamed : named = true) :
    v.phase = .linked := by
  have hNot : ¬ named = false := by simp [hNamed]
  cases hPhase : v.phase with
  | building => exact absurd (h.new v rfl (Or.inl hPhase)).1 hNot
  | made => exact absurd (h.new v rfl (Or.inr hPhase)).1 hNot
  | linked => rfl
  | aborted => exact absurd (h.dead v rfl hPhase).1 hNot

/-- An inode without references is not being created. -/
theorem Fits.done_of_count (h : Fits used pending named (some v) d) (hCount : v.count = 0) :
    v.phase = .linked ∨ v.phase = .aborted := by
  cases hPhase : v.phase with
  | building => exact absurd (h.new v rfl (Or.inl hPhase)).2.2.1 (by omega)
  | made => exact absurd (h.new v rfl (Or.inr hPhase)).2.2.1 (by omega)
  | linked => exact Or.inl rfl
  | aborted => exact Or.inr rfl

/-- Only the references of an inode change whose creation is over. -/
theorem Fits.setCount (h : Fits used pending named (some v) d) {count : Nat}
    (hPhase : v.phase = .linked ∨ v.phase = .aborted) :
    Fits used pending named (some { v with count := count }) d := by
  rcases hPhase with hPhase | hPhase
  · obtain ⟨hUsed, hPending, hLinks⟩ := h.ofLinked hPhase
    rw [hUsed, hPending]
    exact fits_linked hPhase hLinks
  · obtain ⟨hNamed, hLinks, hTaken⟩ := h.dead v rfl hPhase
    refine ⟨h.ofPending, ?_, ?_, ?_, ?_⟩
    · rw [hNamed]
      nofun
    · intro w hw hLive
      cases hw
      exact absurd hPhase hLive
    · intro w hw hNew
      cases hw
      rw [hPhase] at hNew
      rcases hNew with hNew | hNew <;> cases hNew
    · intro w hw _
      cases hw
      exact ⟨hNamed, hLinks, hTaken⟩

end OfFits

/-- A creation that is given up. -/
theorem abort_fits (hAll : ∀ m, s.FitsAt m) {v : Vnode}
    (hHere : Fits (s.used n) (s.pending n) (s.named n) (some v) (s.slot n))
    (hNew : v.phase = .building ∨ v.phase = .made) (p : FailPoint) (zeroed : Bool) (m : Nat) :
    (s.abort n v p false zeroed).FitsAt m := by
  obtain ⟨hUsed, hPending, hNamed, hLinks, hCount, hStored⟩ := hHere.ofNew hNew
  obtain ⟨w, taken, slot, journal, hPhase, hSame, hSlot, hEq⟩ := abort_eq s n v zeroed p hNamed
  rw [hEq]
  refine fitsAt_update n hAll ?_ (fun m hm => ?_) m
  · simp only [Sys.FitsAt, Function.update_self, hNamed]
    exact fits_aborted hPhase (hSame ▸ hLinks) hPending
  · exact ⟨Function.update_of_ne hm _ _, rfl, rfl, Function.update_of_ne hm _ _, hSlot m hm⟩

/-- The cache drops an inode that nobody holds. -/
theorem evict_fits (hAll : ∀ m, s.FitsAt m) {v : Vnode}
    (hHere : Fits (s.used n) (s.pending n) (s.named n) (some v) (s.slot n)) (hOk : v.count = 0)
    (zeroed : Bool) (m : Nat) : (s.evict n v zeroed).FitsAt m := by
  by_cases hLinks : v.nlink = 0
  · -- the last reference of an inode without a name
    obtain ⟨taken, slot, journal, hSlot, hEq⟩ := evict_of_free s n v zeroed hLinks
    have hPhase : v.phase = .linked :=
      (hHere.done_of_count hOk).resolve_right fun hDead => (hHere.dead v rfl hDead).2.1 hLinks
    obtain ⟨hUsed, hPending, hNamed⟩ := hHere.ofLinked hPhase
    have hNoName : s.named n = false := by
      by_contra hName
      exact (hNamed (by simpa using hName)).1 hLinks
    rw [hEq]
    refine fitsAt_update n hAll ?_ (fun m hm => ?_) m
    · simp only [Sys.FitsAt, Function.update_self, hPending, hNoName]
      exact fits_free
    · exact ⟨Function.update_of_ne hm _ _, rfl, rfl, Function.update_of_ne hm _ _, hSlot m hm⟩
  · obtain ⟨journal, hEq⟩ := evict_of_links s n v zeroed hLinks
    rw [hEq]
    refine fitsAt_update n hAll ?_ (fun m hm => ?_) m
    · simp only [Sys.FitsAt, Function.update_self]
      exact ⟨hHere.ofPending,
        fun hNamed => ⟨(hHere.ofNamed hNamed).1, nofun, (hHere.ofNamed hNamed).2.2⟩,
        nofun, nofun, nofun⟩
    · exact ⟨rfl, rfl, rfl, Function.update_of_ne hm _ _, rfl⟩

/-- A step of a hashed inode keeps what is known, as long as the rollback removes the name. -/
theorem stepVnode_fits (hAll : ∀ m, s.FitsAt m) {v : Vnode} {e : Event}
    (hCache : s.cache e.number = some v) (hName : e.RemovesName)
    (h : s.stepVnode v e = some s') (m : Nat) : s'.FitsAt m := by
  have hHere := hAll e.number
  unfold Sys.FitsAt at hHere
  rw [hCache] at hHere
  cases e with
  | alloc n fails zeroed => cases h
  | iget n gen isDir noMemory zeroed => cases h
  | initAcl n b =>
    dsimp only [Sys.stepVnode, Event.number] at h hHere
    split at h
    · rename_i hOk
      cases h
      obtain ⟨hUsed, hPending, hNamed, hLinks, hCount, hStored⟩ := hHere.ofNew (Or.inl hOk.1)
      refine fitsAt_update n hAll ?_ (fun m hm => ?_) m
      · simp only [Sys.FitsAt, Sys.setVnode, Function.update_self, hUsed, hPending, hNamed]
        exact fits_new (Or.inl hOk.1) hLinks hCount hStored
      · exact ⟨rfl, rfl, rfl, Function.update_of_ne hm _ _, rfl⟩
    · cases h
  | persist n =>
    dsimp only [Sys.stepVnode, Event.number] at h hHere
    split at h
    · rename_i hOk
      cases h
      obtain ⟨hUsed, hPending, hNamed, hLinks, hCount, hStored⟩ := hHere.ofNew (Or.inl hOk)
      refine fitsAt_update n hAll ?_ (fun m hm => ?_) m
      · simp only [Sys.FitsAt, Sys.setVnode, Function.update_self, hUsed, hPending, hNamed]
        refine fits_new (Or.inr rfl) hLinks hCount fun _ slot hSlot => ?_
        cases hSlot
        exact hLinks
      · exact ⟨rfl, rfl, rfl, Function.update_of_ne hm _ _, Function.update_of_ne hm _ _⟩
    · cases h
  | journalFull n =>
    dsimp only [Sys.stepVnode, Event.number] at h hHere
    split at h
    · rename_i hOk
      cases h
      obtain ⟨hUsed, hPending, hNamed, hLinks, hCount, hStored⟩ := hHere.ofNew (Or.inr hOk)
      refine fitsAt_update n hAll ?_ (fun m hm => ?_) m
      · simp only [Sys.FitsAt, Sys.setVnode, Function.update_self, hUsed, hPending, hNamed]
        exact fits_new (Or.inr hOk) hLinks hCount hStored
      · exact ⟨rfl, rfl, rfl, Function.update_of_ne hm _ _, rfl⟩
    · cases h
  | finish n =>
    dsimp only [Sys.stepVnode, Event.number] at h hHere
    split at h
    · rename_i hOk
      cases h
      obtain ⟨hUsed, hPending, hNamed, hLinks, hCount, hStored⟩ := hHere.ofNew (Or.inr hOk)
      refine fitsAt_update n hAll ?_ (fun m hm => ?_) m
      · simp only [Sys.FitsAt, Sys.setVnode, Function.update_self, hUsed, hPending]
        exact fits_linked rfl fun _ => ⟨hLinks, hStored hOk⟩
      · exact ⟨rfl, rfl, Function.update_of_ne hm _ _, Function.update_of_ne hm _ _, rfl⟩
    · cases h
  | fail n p left zeroed =>
    dsimp only [Sys.stepVnode, Event.number, Event.RemovesName] at h hHere hName
    subst hName
    split at h
    · rename_i hOk
      cases h
      have hNew : v.phase = .building ∨ v.phase = .made := by
        rw [hOk]
        cases p <;> simp [FailPoint.phase]
      exact abort_fits hAll hHere hNew p zeroed m
    · cases h
  | get n =>
    dsimp only [Sys.stepVnode, Event.number] at h hHere
    split at h
    · rename_i hOk
      cases h
      refine fitsAt_update n hAll ?_ (fun m hm => ?_) m
      · simp only [Sys.FitsAt, Sys.setVnode, Function.update_self]
        exact hHere.setCount (Or.inl (hHere.linked_of_named hOk))
      · exact ⟨rfl, rfl, rfl, Function.update_of_ne hm _ _, rfl⟩
    · cases h
  | put n =>
    dsimp only [Sys.stepVnode, Event.number] at h hHere
    split at h
    · rename_i hOk
      cases h
      refine fitsAt_update n hAll ?_ (fun m hm => ?_) m
      · simp only [Sys.FitsAt, Sys.setVnode, Function.update_self]
        exact hHere.setCount hOk.2
      · exact ⟨rfl, rfl, rfl, Function.update_of_ne hm _ _, rfl⟩
    · cases h
  | setLinks n links =>
    dsimp only [Sys.stepVnode, Event.number] at h hHere
    split at h
    · rename_i hOk
      cases h
      have hPhase := hHere.linked_of_named hOk
      obtain ⟨hUsed, hPending, -⟩ := hHere.ofLinked hPhase
      refine fitsAt_update n hAll ?_ (fun m hm => ?_) m
      · simp only [Sys.FitsAt, Sys.setVnode, Function.update_self, hUsed, hPending]
        refine fits_linked hPhase fun hNamed => ?_
        have hLinks : links ≠ 0 := of_decide_eq_true hNamed
        refine ⟨hLinks, fun slot hSlot => ?_⟩
        cases hSlot
        exact hLinks
      · exact ⟨rfl, rfl, Function.update_of_ne hm _ _, Function.update_of_ne hm _ _,
          Function.update_of_ne hm _ _⟩
    · cases h
  | grow n b =>
    dsimp only [Sys.stepVnode, Event.number] at h hHere
    split at h
    · rename_i hOk
      cases h
      have hPhase : v.phase = .linked := hOk.1.elim hHere.linked_of_named id
      obtain ⟨hUsed, hPending, hLinks⟩ := hHere.ofLinked hPhase
      refine fitsAt_update n hAll ?_ (fun m hm => ?_) m
      · simp only [Sys.FitsAt, Sys.setVnode, Function.update_self, hUsed, hPending]
        refine fits_linked hPhase fun hNamed => ⟨(hLinks hNamed).1, fun slot hSlot => ?_⟩
        cases hSlot
        exact (hLinks hNamed).1
      · exact ⟨rfl, rfl, rfl, Function.update_of_ne hm _ _, Function.update_of_ne hm _ _⟩
    · cases h
  | evict n zeroed =>
    dsimp only [Sys.stepVnode, Event.number] at h hHere
    split at h
    · rename_i hOk
      cases h
      exact evict_fits hAll hHere hOk zeroed m
    · cases h

/-- Every step keeps what is known of the numbers. -/
theorem step_fits (hAll : ∀ m, s.FitsAt m) {e : Event} (hName : e.RemovesName)
    (h : s.step e = some s') (m : Nat) : s'.FitsAt m := by
  unfold Sys.step at h
  split at h
  · exact takeNumber_fits hAll h m
  · exact igetNew_fits hAll h m
  · split at h
    · exact stepVnode_fits hAll ‹_› hName h m
    · exact reload_fits hAll h m
    · cases h

end Step

--
-- All steps
--

theorem reach_fits {s : Sys} (hReach : Reach Event.RemovesName s) (n : Nat) : s.FitsAt n := by
  induction hReach generalizing n with
  | start => exact fits_free
  | step _ hName hStep ih => exact step_fits ih hName hStep n

/-- In every state that is reached with rollbacks that remove the name: a call of
`briefs_new_inode` that was given the number `n` fails with `-EEXIST` exactly if an inode whose
creation was given up is still hashed under `n`; and the eviction of such an inode leaves the
bitmaps, the inode table, the names and all other inodes as they are, at a time when nobody owns
the number. -/
theorem collides_iff_aborted {s : Sys} (hReach : Reach Event.RemovesName s) (n : Nat) :
    (s.pending n = true →
      ((∀ noMemory, s.igetError n noMemory ≠ some .eexist) ↔
        ¬ ∃ v, s.cache n = some v ∧ v.phase = .aborted)) ∧
    (∀ v zeroed, s.cache n = some v → v.phase = .aborted →
      s.named n = false ∧ (s.used n = true → s.pending n = true) ∧
      (s.evict n v zeroed).used = s.used ∧ (s.evict n v zeroed).taken = s.taken ∧
      (s.evict n v zeroed).slot = s.slot ∧ (s.evict n v zeroed).named = s.named ∧
      ∀ m, m ≠ n → (s.evict n v zeroed).cache m = s.cache m) := by
  have hFits := reach_fits hReach n
  refine ⟨fun hPending => ⟨fun hNo ⟨v, hCached, _⟩ => ?_, fun hNo noMemory hExists => ?_⟩,
    fun v zeroed hCached hDead => ?_⟩
  · apply hNo false
    unfold Sys.igetError
    rw [hCached]
  · -- what is hashed under a number that was just taken is aborted
    unfold Sys.igetError at hExists
    cases hCached : s.cache n with
    | none =>
      rw [hCached] at hExists
      cases noMemory with
      | true => cases hExists
      | false => cases hExists
    | some v =>
      refine hNo ⟨v, hCached, ?_⟩
      by_contra hLive
      have hNot := (hFits.live v hCached hLive).2
      rw [hPending] at hNot
      cases hNot
  · obtain ⟨hNamed, hLinks, hTaken⟩ := hFits.dead v hCached hDead
    obtain ⟨journal, hEvict⟩ := evict_of_links s n v zeroed hLinks
    rw [hEvict]
    exact ⟨hNamed, hTaken, rfl, rfl, rfl, rfl, fun m hm => Function.update_of_ne hm _ _⟩

/-- Number 5 is taken again after a create that failed as its slot was to be stored and after the
aborted inode was evicted. -/
theorem collides_iff_aborted_five :
    ∃ s, Reach Event.RemovesName s ∧ s.pending 5 = true ∧
      ∀ noMemory, s.igetError 5 noMemory ≠ some .eexist := by
  have hTaken := Reach.start.step (P := Event.RemovesName) (e := .alloc 5 false true) trivial rfl
  have hHashed := hTaken.step (e := .iget 5 77 false false true) trivial rfl
  have hAcl := hHashed.step (e := .initAcl 5 1000) trivial rfl
  have hFailed := hAcl.step (e := .fail 5 .persist false true) rfl rfl
  have hPut := hFailed.step (e := .put 5) trivial rfl
  have hGone := hPut.step (e := .evict 5 true) trivial rfl
  have hAgain := hGone.step (e := .alloc 5 false true) trivial rfl
  exact ⟨_, hAgain, rfl,
    ((collides_iff_aborted hAgain 5).1 rfl).2 fun ⟨v, hCached, _⟩ => nomatch hCached⟩

/-- Without the eviction the second create fails with `-EEXIST`. -/
theorem collides_after_abort :
    ∃ s, Reach Event.RemovesName s ∧ s.pending 5 = true ∧ s.igetError 5 false = some .eexist := by
  have hTaken := Reach.start.step (P := Event.RemovesName) (e := .alloc 5 false true) trivial rfl
  have hHashed := hTaken.step (e := .iget 5 77 false false true) trivial rfl
  have hFailed := hHashed.step (e := .fail 5 .persist false true) rfl rfl
  have hPut := hFailed.step (e := .put 5) trivial rfl
  have hAgain := hPut.step (e := .alloc 5 false true) trivial rfl
  exact ⟨_, hAgain, rfl, rfl⟩

end Briefs.Create
