import Briefs.File.Punch
import Briefs.File.Same

/-!
# BrieFS — a rebuild that fails

Punch hole on an inline list, collapse range, insert range and exchange range write a new extent
list and hand it to `briefs_rebuild_extent_list`. That function clears the index before it inserts
the extents one by one, and returns at the first one that fails: the inode is left with the
extents before it, and nothing puts the others back.

So a failed operation keeps what was mapped only by chance: the file blocks of the extents that
were not inserted must have been holes before. Which extent is refused depends on the free blocks
that the rebuild finds. A punch keeps only what was mapped, so it always loses something then.

## Results

* `rebuild_aborts` — what is left is the front part of the new list, and none of it is free.
* `abort_atomic_iff` — when an operation that fails is atomic.
-/

namespace Briefs.File

open Briefs.Journal
open Briefs.Btree

--
-- The front part of a list
--

/-- The inode maps the first `k` extents of the list, and there are more. -/
structure Stopped (new : List Extent) (g : Btree.File) (k : Nat) : Prop where
  short : k < new.length
  front : (cells g.content.exts).Perm (cells (new.take k))

/-- The first `k` extents of the list can be inserted into the empty index, the next one not. -/
structure Refused (f : Btree.File) (new : List Extent) (k : Nat) : Prop where
  first : ∃ g, rebuildExtentList levels f (new.take k) = some (none, g)
  next  : ∃ err g, rebuildExtentList levels f (new.take (k + 1)) = some (some err, g)

/-- No block that the inode maps is free. -/
def NoneFree (g : Btree.File) : Prop := ∀ x ∈ cells g.content.exts, Allocated g x.2.1

/-- The file block has this physical block. -/
def At (l : List Extent) (b p : Nat) : Prop := ∃ fl, Maps l b p fl

/-- Every file block that was not to be freed has the physical block of before, or the one that
it was to have. -/
def Atomic (old new : List Extent) (toFree : Nat → Prop) (g : Btree.File) : Prop :=
  ∀ b, ¬ toFree b → (∀ p, At g.content.exts b p ↔ At old b p) ∨ ∀ p, At g.content.exts b p ↔ At new b p

/-- The extents from the `k`-th one on lie where nothing was mapped, or in the range that was to be
freed. -/
def RestInHoles (old new : List Extent) (toFree : Nat → Prop) (k : Nat) : Prop :=
  ∀ x ∈ cells (new.drop k), toFree x.1 ∨ ∀ p, ¬ At old x.1 p

section Stops

variable {f g : Btree.File} {c : Content} {old new : List Extent} {toFree : Nat → Prop} {k : Nat}

theorem mem_cells_at {l : List Extent} {b p : Nat} : At l b p ↔ ∃ fl, (b, p, fl) ∈ cells l :=
  exists_congr fun _ => mem_cells.symm

/-- Inserting one by one stops at the first failure. -/
theorem insertAll_stops : ∀ (l : List Extent) {f g : Btree.File} {c : Content} {err : Errno},
    Holds f c → (∀ e ∈ l, 0 < e.len ∧ e.stop < fileTop) →
    insertAll levels l f = some (some err, g) →
    ∃ k, k < l.length ∧ (cells g.content.exts).Perm (cells c.exts ++ cells (l.take k)) ∧
      (∃ g', insertAll levels (l.take k) f = some (none, g')) ∧
      ∃ err' g', insertAll levels (l.take (k + 1)) f = some (some err', g') := by
  intro l
  induction l with
  | nil =>
    intro f g c err _ _ hEq
    cases (Prod.mk.inj (Option.some.inj hEq)).1
  | cons e l ih =>
    intro f g c err h hFits hEq
    obtain ⟨hLen, hStop⟩ := hFits e List.mem_cons_self
    obtain ⟨code, f₁, c₁, hFirst, hd⟩ := insertLocked_spec h hLen hStop ten_le_levels
    unfold insertAll at hEq
    rw [hFirst] at hEq
    cases code with
    | some err' =>
      obtain ⟨-, rfl⟩ := Prod.mk.inj (Option.some.inj hEq)
      refine ⟨0, Nat.succ_pos _, ?_, ⟨f, rfl⟩, err', f₁, ?_⟩
      · rw [hd.holds.content, hd.same (Option.some_ne_none _)]
        simp
      · show insertAll levels [e] f = _
        unfold insertAll
        rw [hFirst]
    | none =>
      obtain ⟨k, hk, hFront, ⟨g₁, hDone⟩, err', g₂, hNext⟩ :=
        ih hd.holds (fun x hx => hFits x (List.mem_cons_of_mem _ hx)) hEq
      refine ⟨k + 1, Nat.succ_lt_succ hk, hFront.trans ?_, ⟨g₁, ?_⟩, err', g₂, ?_⟩
      · rw [List.take_succ_cons, cells_cons, ← List.append_assoc]
        exact (hd.done rfl).append_right _
      · rw [List.take_succ_cons]
        unfold insertAll
        rw [hFirst]
        exact hDone
      · rw [List.take_succ_cons]
        unfold insertAll
        rw [hFirst]
        exact hNext

/-- What goes through goes through in part. -/
theorem insertAll_take : ∀ (l : List Extent) (n : Nat) {f g : Btree.File},
    insertAll levels l f = some (none, g) → ∃ g', insertAll levels (l.take n) f = some (none, g') := by
  intro l
  induction l with
  | nil =>
    intro n f g hEq
    rw [List.take_nil]
    exact ⟨g, hEq⟩
  | cons e l ih =>
    intro n f g hEq
    cases n with
    | zero => exact ⟨f, rfl⟩
    | succ n =>
      rw [List.take_succ_cons]
      unfold insertAll at hEq ⊢
      split at hEq
      · cases hEq
      · cases hEq
      · exact ih n hEq

/-- A rebuild that goes through refuses nothing, and one that fails stops at one place. -/
theorem Refused.le (h : Refused f new k) {n : Nat}
    (hDone : ∃ g, rebuildExtentList levels f (new.take n) = some (none, g)) : n ≤ k := by
  by_contra hLt
  obtain ⟨g, hDone⟩ := hDone
  obtain ⟨err, g', hNext⟩ := h.next
  unfold rebuildExtentList at hDone hNext
  cases hFree : freeNodesOnly levels f with
  | none =>
    rw [hFree] at hDone
    cases hDone
  | some f₁ =>
    rw [hFree] at hDone hNext
    obtain ⟨g₁, hPart⟩ := insertAll_take (new.take n) (k + 1) hDone
    rw [List.take_take, Nat.min_eq_left (by omega)] at hPart
    dsimp only at hNext
    rw [hPart] at hNext
    cases hNext

/-- A rebuild that fails leaves the front part of its list, all of it in taken blocks. -/
theorem rebuild_stops (h : Holds f c) (hOwns : Owns f c.blocks (cells new))
    (hFits : ∀ e ∈ new, 0 < e.len ∧ e.stop < fileTop) {err : Errno}
    (hFail : rebuildExtentList levels f new = some (some err, g)) :
    (∃ k, Stopped new g k ∧ Refused f new k) ∧ NoneFree g := by
  obtain ⟨code, g', c', hRun, hd⟩ := rebuildExtentList_spec h hOwns hFits ten_le_levels
  rw [hFail] at hRun
  obtain ⟨-, rfl⟩ := Prod.mk.inj (Option.some.inj hRun)
  constructor
  · obtain ⟨f₁, hFree, hFreed⟩ := freeNodesOnly_spec h ten_le_levels
    have hEmpty := holds_reset (hFreed.sound h.sound)
    unfold rebuildExtentList at hFail
    rw [hFree] at hFail
    obtain ⟨k, hk, hFront, ⟨g₁, hDone⟩, err', g₂, hNext⟩ := insertAll_stops new hEmpty hFits hFail
    refine ⟨k, ⟨hk, hFront⟩, ⟨g₁, ?_⟩, err', g₂, ?_⟩
    · unfold rebuildExtentList
      rw [hFree]
      exact hDone
    · unfold rebuildExtentList
      rw [hFree]
      exact hNext
  · intro x hx
    rw [hd.holds.content] at hx
    exact hd.owns.taken x hx

/-- What is left is right where it is; the rest is missing. -/
theorem Stopped.atomic_iff (h : Stopped new g k) (hDist : Distinct (cells new)) :
    Atomic old new toFree g ↔ RestInHoles old new toFree k := by
  have hAll : cells new = cells (new.take k) ++ cells (new.drop k) := by
    rw [← cells_append, List.take_append_drop]
  rw [hAll] at hDist
  have hNow : ∀ b p, At g.content.exts b p ↔ At (new.take k) b p := by
    intro b p
    rw [mem_cells_at, mem_cells_at]
    exact exists_congr fun fl => h.front.mem_iff
  have hNew : ∀ b p, At new b p ↔ At (new.take k) b p ∨ At (new.drop k) b p := by
    intro b p
    simp only [mem_cells_at, hAll, List.mem_append, exists_or]
  -- a file block is in one part only
  have hApart : ∀ b p q, At (new.take k) b p → At (new.drop k) b q → False := by
    intro b p q hFront hRest
    obtain ⟨fl, hx⟩ := mem_cells_at.mp hFront
    obtain ⟨fl', hy⟩ := mem_cells_at.mp hRest
    exact hDist.apart hx hy rfl
  constructor
  · rintro hAtomic ⟨b, p, fl⟩ hx
    have hRest : At (new.drop k) b p := mem_cells_at.mpr ⟨fl, hx⟩
    by_cases hFree : toFree b
    · exact Or.inl hFree
    · refine Or.inr fun q hOld => ?_
      rcases hAtomic b hFree with hSame | hSame
      · exact hApart b q p ((hNow b q).mp ((hSame q).mpr hOld)) hRest
      · exact hApart b p p ((hNow b p).mp ((hSame p).mpr ((hNew b p).mpr (Or.inr hRest)))) hRest
  · intro hHoles b hFree
    by_cases hRest : ∃ p, At (new.drop k) b p
    · obtain ⟨p, hRest⟩ := hRest
      obtain ⟨fl, hx⟩ := mem_cells_at.mp hRest
      have hHole := (hHoles _ hx).resolve_left hFree
      refine Or.inl fun q => ⟨fun hFront => ?_, fun hOld => absurd hOld (hHole q)⟩
      exact (hApart b q p ((hNow b q).mp hFront) hRest).elim
    · refine Or.inr fun q => ?_
      rw [hNow, hNew]
      exact ⟨Or.inl, fun hIn => hIn.resolve_right fun hNo => hRest ⟨q, hNo⟩⟩

theorem Refused.short (h : Refused f new k) : k < new.length := by
  by_contra hLong
  obtain ⟨g, hDone⟩ := h.first
  obtain ⟨err, g', hNext⟩ := h.next
  rw [List.take_of_length_le (by omega)] at hDone hNext
  rw [hDone] at hNext
  cases hNext

/-- A rebuild that goes through refuses nothing. -/
theorem not_refused {g : Btree.File} (hDone : rebuildExtentList levels f new = some (none, g)) :
    ¬ Refused f new k := by
  intro h
  have hTake : new.take (new.length + k + 1) = new := List.take_of_length_le (by omega)
  have hLe := h.le (n := new.length + k + 1) ⟨g, by rw [hTake]; exact hDone⟩
  omega

/-- A rebuild that fails leaves no free block mapped, and nothing is lost if and only if the extents
from the one that it refuses on lie in holes. -/
theorem rebuild_aborts (h : Holds f c) (hOwns : Owns f c.blocks (cells new))
    (hFits : ∀ e ∈ new, 0 < e.len ∧ e.stop < fileTop) (hDist : Distinct (cells new)) {err : Errno}
    (hFail : rebuildExtentList levels f new = some (some err, g)) :
    NoneFree g ∧ (Atomic old new toFree g ↔
      ∃ k, Refused f new k ∧ RestInHoles old new toFree k) := by
  obtain ⟨⟨k, hStopped, hRefused⟩, hTaken⟩ := rebuild_stops h hOwns hFits hFail
  refine ⟨hTaken, (hStopped.atomic_iff hDist).trans ⟨fun hHoles => ⟨k, hRefused, hHoles⟩, ?_⟩⟩
  rintro ⟨k', hRefused', hHoles⟩
  -- one extent only is the first that is refused
  have hLe := hRefused'.le hRefused.first
  have hGe := hRefused.le hRefused'.first
  obtain rfl : k = k' := by omega
  exact hHoles

end Stops

--
-- The operations
--

/-- An inode of an operation: as the rebuild finds it, its extents before the operation, those that
it was to have, the file blocks that were to be freed, and the inode afterwards. -/
structure Involved where
  base   : Btree.File
  old    : List Extent
  new    : List Extent
  toFree : Nat → Prop
  file   : Btree.File

/-- The extents from the one that the rebuild refuses on lie where nothing was mapped. -/
def Involved.InHoles (i : Involved) : Prop :=
  ∃ k, Refused i.base i.new k ∧ RestInHoles i.old i.new i.toFree k


section Punch

variable {f : Btree.File} {r : Punch} {io : Nat → Option Errno} {disk : Disk} {q : Punched}

/-- A punch whose rebuild fails. -/
theorem punch_aborts (h : Good f) (hFlat : f.indexed = false)
    (hTotal : f.total = f.content.exts.length) (hLen : 0 < r.len)
    (hIo : (zeroAll io (f.content.exts.flatMap r.zeroes) disk).1 = none)
    (hRun : doPunchHole io f disk r = some q) (hFail : q.ret ≠ none) :
    NoneFree q.file ∧ (Atomic f.content.exts (f.content.exts.flatMap r.kept) r.inside q.file ↔
      ∃ k, Refused f (f.content.exts.flatMap r.kept) k ∧
        RestInHoles f.content.exts (f.content.exts.flatMap r.kept) r.inside k) := by
  have hEach := h.holds.forEachExtent
  obtain ⟨hContent, -, hEight⟩ := h.holds.flat hFlat
  have hFew : ¬ (2 ^ 31 - 1) / 2 < f.total := by
    have hLenEq : f.content.exts.length = f.inline.length := by rw [hContent]
    omega
  unfold doPunchHole at hRun
  rw [if_neg hFew, hFlat, if_neg Bool.false_ne_true] at hRun
  by_cases hNone : f.content.exts = []
  · unfold punchInline at hRun
    rw [hEach, hNone] at hRun
    obtain rfl := Option.some.inj hRun
    exact absurd rfl hFail
  rw [punchInline_eq hEach hNone] at hRun
  obtain ⟨hFits, hDist, hOwns⟩ := kept_ready (r := r) h hLen
  rcases hZero : zeroAll io (f.content.exts.flatMap r.zeroes) disk with ⟨code, disk₁⟩
  rw [hZero] at hIo hRun
  obtain rfl : code = none := hIo
  dsimp only at hRun
  cases hRebuild : rebuildExtentList levels f (f.content.exts.flatMap r.kept) with
  | none =>
    rw [hRebuild] at hRun
    cases hRun
  | some result =>
    obtain ⟨code, g⟩ := result
    rw [hRebuild] at hRun
    cases code with
    | none =>
      obtain rfl := Option.some.inj hRun
      exact absurd rfl hFail
    | some err =>
      obtain rfl := Option.some.inj hRun
      exact rebuild_aborts h.holds hOwns hFits hDist hRebuild

/-- What a punch keeps was mapped and is not inside, so it always loses something. -/
theorem punch_never_in_holes (h : Good f) (hLen : 0 < r.len) {k : Nat}
    (hShort : k < (f.content.exts.flatMap r.kept).length) :
    ¬ RestInHoles f.content.exts (f.content.exts.flatMap r.kept) r.inside k := by
  intro hHoles
  obtain ⟨hKept, -⟩ := cells_punched_all (r := r) hLen h.holds.pos
  obtain ⟨hFits, -⟩ := kept_ready (r := r) h hLen
  obtain ⟨e, hRest⟩ : ∃ e, e ∈ (f.content.exts.flatMap r.kept).drop k := by
    refine List.exists_mem_of_length_pos ?_
    rw [List.length_drop]
    omega
  have hIn : e ∈ f.content.exts.flatMap r.kept := List.mem_of_mem_drop hRest
  have hPos : e.offset < e.stop := Nat.lt_add_of_pos_right (hFits e hIn).1
  have hNew : (e.offset, e.physAt e.offset, e.flags) ∈ cells (f.content.exts.flatMap r.kept) :=
    mem_cells.mpr ⟨e, hIn, ⟨Nat.le_refl _, hPos⟩, rfl, rfl⟩
  rw [hKept] at hNew
  obtain ⟨hOld, hOut⟩ := maps_filter.mp hNew
  rcases hHoles _ (mem_cells.mpr ⟨e, hRest, ⟨Nat.le_refl _, hPos⟩, rfl, rfl⟩) with hInside | hHole
  · exact hOut hInside
  · exact hHole _ ⟨_, hOld⟩

end Punch

section Shift

variable {f : Btree.File} {S L : Nat} {dir : Shift} {q : Shifted}

/-- A collapse or an insert range whose rebuild fails. -/
theorem shift_aborts (h : Sound f) (hOrd : Ordered f.content.exts) (hL : 0 < L)
    (hTop : ∀ e ∈ f.content.exts, e.stop + L < fileTop)
    (hRun : shiftExtents f S L dir = some q) (hFail : q.ret ≠ none) :
    NoneFree q.file ∧ (Atomic f.content.exts (f.content.exts.flatMap fun e => dir.kept S L e)
        (fun b => dir.stays S L b = false) q.file ↔
      ∃ k, Refused (freeRuns f (f.content.exts.flatMap fun e => dir.dropped S L e))
          (f.content.exts.flatMap fun e => dir.kept S L e) k ∧
        RestInHoles f.content.exts (f.content.exts.flatMap fun e => dir.kept S L e)
          (fun b => dir.stays S L b = false) k) := by
  have hEach := h.holds.forEachExtent
  by_cases hNone : f.content.exts = []
  · unfold shiftExtents at hRun
    rw [hEach, hNone] at hRun
    obtain rfl := Option.some.inj hRun
    exact absurd rfl hFail
  rw [shiftExtents_eq hEach hNone] at hRun
  obtain ⟨hHolds, hOwns, hFits⟩ := shift_ready S dir h hL hTop
  obtain ⟨⟨code, g⟩, hRebuild, rfl⟩ := Option.map_eq_some_iff.mp hRun
  cases code with
  | none => exact absurd rfl hFail
  | some err => exact rebuild_aborts hHolds hOwns hFits (distinct_new hL hOrd.distinct) hRebuild

end Shift

section Exchange

variable {f1 f2 : Btree.File} {r : Exch}

/-- An inode that is as it was, or as it was to be. -/
theorem atomic_of_same {g : Btree.File} {old new : List Extent}
    (h : (cells g.content.exts).Perm (cells old) ∨ (cells g.content.exts).Perm (cells new)) :
    Atomic old new (fun _ => False) g := by
  intro b _
  rcases h with h | h
  · refine Or.inl fun p => ?_
    rw [mem_cells_at, mem_cells_at]
    exact exists_congr fun fl => h.mem_iff
  · refine Or.inr fun p => ?_
    rw [mem_cells_at, mem_cells_at]
    exact exists_congr fun fl => h.mem_iff

/-- An exchange between two inodes one of whose rebuilds fails. -/
theorem exchange_aborts (h : Pair f1 f2) (hb : r.Bounded) {err : Errno} {code : Option Errno}
    {g g1 g2 : Btree.File}
    (hFirst : rebuildExtentList levels f1 (r.new1 f1.content.exts f2.content.exts) = some (code, g))
    (hRun : exchEngineDiff r f1 f2 = some (some err, g1, g2)) :
    NoneFree g1 ∧ NoneFree g2 ∧
      (Atomic f1.content.exts (r.new1 f1.content.exts f2.content.exts) (fun _ => False) g1 ∧
        Atomic f2.content.exts (r.new2 f1.content.exts f2.content.exts) (fun _ => False) g2 ↔
      (∃ k, Refused f1 (r.new1 f1.content.exts f2.content.exts) k ∧
        RestInHoles f1.content.exts (r.new1 f1.content.exts f2.content.exts) (fun _ => False) k) ∨
      code = none ∧ ∃ k, Refused (sharing g f2) (r.new2 f1.content.exts f2.content.exts) k ∧
        RestInHoles f2.content.exts (r.new2 f1.content.exts f2.content.exts) (fun _ => False) k) := by
  obtain ⟨hFits1, hFits2⟩ := h.fits hb
  obtain ⟨hDist1, hDist2⟩ := h.distinct_new hb
  rcases exchEngineDiff_cases h hb with ⟨err', g', hFails⟩ | ⟨code', g', g'', hSecond, -⟩
  · have hEq := hFails.run
    rw [hRun] at hEq
    obtain ⟨-, hPair⟩ := Prod.mk.inj (Option.some.inj hEq)
    obtain ⟨rfl, rfl⟩ := Prod.mk.inj hPair
    have hSame := hFails.other.content
    have hRebuild := hFails.rebuild
    rw [hFirst] at hRebuild
    obtain ⟨rfl, -⟩ := Prod.mk.inj (Option.some.inj hRebuild)
    obtain ⟨hTaken, hIff⟩ := rebuild_aborts h.good1.holds hFails.owns hFits1 hDist1 hFails.rebuild
    refine ⟨hTaken, ?_, ?_⟩
    · intro x hx
      rw [hSame] at hx
      exact hFails.taken x hx
    · rw [and_iff_left (atomic_of_same (Or.inl (by rw [hSame]))), hIff]
      exact ⟨Or.inl, fun hOr => hOr.resolve_right fun hNone => nomatch hNone.1⟩
  · have hEq := hSecond.run
    rw [hRun] at hEq
    obtain ⟨rfl, hPair⟩ := Prod.mk.inj (Option.some.inj hEq)
    obtain ⟨rfl, rfl⟩ := Prod.mk.inj hPair
    have hSame := hSecond.other.content
    have hStarted := hSecond.started
    rw [hFirst] at hStarted
    obtain ⟨rfl, rfl⟩ := Prod.mk.inj (Option.some.inj hStarted)
    obtain ⟨hTaken, hIff⟩ := rebuild_aborts hSecond.before hSecond.owns hFits2 hDist2 hSecond.rebuild
    refine ⟨?_, hTaken, ?_⟩
    · intro x hx
      rw [hSame] at hx
      exact hSecond.taken x hx
    · rw [and_iff_right (atomic_of_same (Or.inr (by rw [hSame]; exact hSecond.first))), hIff]
      refine ⟨fun hHoles => Or.inr ⟨rfl, hHoles⟩, fun hOr => (hOr.resolve_left ?_).2⟩
      rintro ⟨k, hRefused, -⟩
      exact not_refused hFirst hRefused

/-- An exchange within one inode whose rebuild fails. -/
theorem exchange_same_aborts {f g : Btree.File} {o1 o2 len : Nat} {err : Errno} (h : Good f)
    (hSmall : ∀ e ∈ f.content.exts, e.stop ≤ 2 ^ 62) (h1 : o1 < 2 ^ 52) (h2 : o2 < 2 ^ 52)
    (hLen : len < 2 ^ 52) (hApart : o1 + len ≤ o2 ∨ o2 + len ≤ o1)
    (hRun : exchEngineSame o1 o2 len f = some (some err, g)) :
    NoneFree g ∧
      (Atomic f.content.exts (sameList f.content.exts o1 o2 len) (fun _ => False) g ↔
      ∃ k, Refused f (sameList f.content.exts o1 o2 len) k ∧
        RestInHoles f.content.exts (sameList f.content.exts o1 o2 len) (fun _ => False) k) := by
  obtain ⟨-, hOwns, hFits, hDist⟩ := same_ready h hSmall h1 h2 hLen hApart
  unfold exchEngineSame at hRun
  rw [h.holds.forEachExtent] at hRun
  exact rebuild_aborts h.holds hOwns hFits hDist hRun

end Exchange

--
-- Every operation
--

/-- The operations that return an error because an extent could not be inserted again. The second
inode of an exchange is rebuilt with the allocator and the nodes that the first one leaves. -/
inductive Fails : List Involved → Prop
  | punch {f : Btree.File} {r : Punch} {io : Nat → Option Errno} {disk : Disk} {q : Punched} :
      Good f → f.indexed = false → f.total = f.content.exts.length → 0 < r.len →
      (zeroAll io (f.content.exts.flatMap r.zeroes) disk).1 = none →
      doPunchHole io f disk r = some q → q.ret ≠ none →
      Fails [⟨f, f.content.exts, f.content.exts.flatMap r.kept, r.inside, q.file⟩]
  | shift {f : Btree.File} {S L : Nat} {dir : Shift} {q : Shifted} :
      Sound f → Ordered f.content.exts → 0 < L →
      (∀ e ∈ f.content.exts, e.stop + L < fileTop) →
      shiftExtents f S L dir = some q → q.ret ≠ none →
      Fails [⟨freeRuns f (f.content.exts.flatMap fun e => dir.dropped S L e), f.content.exts,
        f.content.exts.flatMap fun e => dir.kept S L e, fun b => dir.stays S L b = false, q.file⟩]
  | exchange {f1 f2 g g1 g2 : Btree.File} {r : Exch} {err : Errno} {code : Option Errno} :
      Pair f1 f2 → r.Bounded →
      rebuildExtentList levels f1 (r.new1 f1.content.exts f2.content.exts) = some (code, g) →
      exchEngineDiff r f1 f2 = some (some err, g1, g2) →
      Fails [⟨f1, f1.content.exts, r.new1 f1.content.exts f2.content.exts, fun _ => False, g1⟩,
        ⟨sharing g f2, f2.content.exts, r.new2 f1.content.exts f2.content.exts, fun _ => False, g2⟩]
  | exchangeSame {f g : Btree.File} {o1 o2 len : Nat} {err : Errno} :
      Good f → (∀ e ∈ f.content.exts, e.stop ≤ 2 ^ 62) → o1 < 2 ^ 52 → o2 < 2 ^ 52 →
      len < 2 ^ 52 → o1 + len ≤ o2 ∨ o2 + len ≤ o1 →
      exchEngineSame o1 o2 len f = some (some err, g) →
      Fails [⟨f, f.content.exts, sameList f.content.exts o1 o2 len, fun _ => False, g⟩]

/-- The inodes are rebuilt one after the other. Where the first refusal is, the extents from there
on lie in holes. -/
def LostInHoles : List Involved → Prop
  | [] => False
  | i :: rest => i.InHoles ∨
      (∃ g, rebuildExtentList levels i.base i.new = some (none, g)) ∧ LostInHoles rest

theorem lostInHoles_singleton (i : Involved) : LostInHoles [i] ↔ i.InHoles :=
  or_iff_left fun hNo => hNo.2

/-- Punch hole on an inline list, collapse range, insert range and exchange range, when they fail
because an extent cannot be inserted again: no block that is mapped is free, and the operation is
atomic if and only if the extents from the refused one on lie where nothing was mapped before. -/
theorem abort_atomic_iff {l : List Involved} (h : Fails l) :
    (∀ i ∈ l, NoneFree i.file) ∧
      ((∀ i ∈ l, Atomic i.old i.new i.toFree i.file) ↔ LostInHoles l) := by
  cases h with
  | punch hGood hFlat hTotal hLen hIo hRun hFail =>
    rw [List.forall_mem_singleton, List.forall_mem_singleton, lostInHoles_singleton]
    exact punch_aborts hGood hFlat hTotal hLen hIo hRun hFail
  | shift hSound hOrd hL hTop hRun hFail =>
    rw [List.forall_mem_singleton, List.forall_mem_singleton, lostInHoles_singleton]
    exact shift_aborts hSound hOrd hL hTop hRun hFail
  | exchangeSame hGood hSmall h1 h2 hLen hApart hRun =>
    rw [List.forall_mem_singleton, List.forall_mem_singleton, lostInHoles_singleton]
    exact exchange_same_aborts hGood hSmall h1 h2 hLen hApart hRun
  | @exchange _ _ g _ _ _ _ code hPair hb hFirst hRun =>
    obtain ⟨hTaken1, hTaken2, hIff⟩ := exchange_aborts hPair hb hFirst hRun
    rw [List.forall_mem_cons, List.forall_mem_singleton, List.forall_mem_cons,
      List.forall_mem_singleton, LostInHoles, lostInHoles_singleton]
    refine ⟨⟨hTaken1, hTaken2⟩, hIff.trans (or_congr Iff.rfl (and_congr ?_ Iff.rfl))⟩
    constructor
    · rintro rfl
      exact ⟨g, hFirst⟩
    · rintro ⟨g', hDone⟩
      rw [hFirst] at hDone
      exact (Prod.mk.inj (Option.some.inj hDone)).1

/-- Eight extents of three blocks in the inline array, on a full device. -/
def packedFile : Btree.File :=
  { newFile with
    inline := (List.range 8).map fun i => ⟨10 * i, 1001 + 3 * i, 3, 0⟩
    total := 8
    alloc := fullPool }

theorem packedFile_good : Good packedFile := by
  refine good_inline rfl ⟨?_, by decide, by decide, by decide⟩ (by decide) (by decide)
    fullPool_healthy ⟨fun x hx => ?_, fun _ _ => List.not_mem_nil, by decide +kernel⟩
  · unfold Ordered
    decide
  · have hPast : ∀ x ∈ cells packedFile.inline, 1000 < x.2.1 := by decide +kernel
    have hx' := hPast x hx
    exact ⟨x.2.1 - 1000, by omega, (by show x.2.1 = 1000 + (x.2.1 - 1000); omega), fullPool_isFree _⟩

/-- A hole over the middle block of the first extent: nine extents are to be kept, and there is no
block for a node. -/
def smallHole : Punch := ⟨4096, 4096⟩

theorem packedFile_punch : ∃ q,
    doPunchHole (fun _ => none) packedFile (fun _ _ => 1#8) smallHole = some q ∧
      q.ret = some .enospc ∧ (∀ e ∈ q.file.content.exts, ¬ e.covers 70) ∧
      Fails [⟨packedFile, packedFile.content.exts, packedFile.content.exts.flatMap smallHole.kept,
        smallHole.inside, q.file⟩] := by
  have hEval : (doPunchHole (fun _ => none) packedFile (fun _ _ => 1#8) smallHole).map
      (fun q => (q.ret, decide (∀ e ∈ q.file.content.exts, ¬ e.covers 70))) =
        some (some .enospc, true) := by
    decide +kernel
  obtain ⟨q, hRun, hEq⟩ := Option.map_eq_some_iff.mp hEval
  obtain ⟨hRet, hGone⟩ := Prod.mk.inj hEq
  refine ⟨q, hRun, hRet, of_decide_eq_true hGone, Fails.punch packedFile_good rfl rfl (by decide) ?_ hRun ?_⟩
  · decide +kernel
  · rw [hRet]
    nofun

/-- What the theorem says of that punch: nothing that is mapped is free, and something is lost. -/
theorem packedFile_atomic_iff : ∃ l, Fails l ∧ (∀ i ∈ l, NoneFree i.file) ∧
    ¬ ∀ i ∈ l, Atomic i.old i.new i.toFree i.file := by
  obtain ⟨q, -, -, -, hFails⟩ := packedFile_punch
  obtain ⟨hTaken, hIff⟩ := abort_atomic_iff hFails
  refine ⟨_, hFails, hTaken, fun hAll => ?_⟩
  obtain ⟨k, hRefused, hHoles⟩ := (lostInHoles_singleton _).mp (hIff.mp hAll)
  exact punch_never_in_holes packedFile_good (by decide) hRefused.short hHoles

/-- The file blocks from 70 on are mapped before, are to be kept, and are lost. -/
theorem failed_punch_loses_block : ∃ q,
    doPunchHole (fun _ => none) packedFile (fun _ _ => 1#8) smallHole = some q ∧
      q.ret = some .enospc ∧ ¬ Atomic packedFile.content.exts
        (packedFile.content.exts.flatMap smallHole.kept) smallHole.inside q.file := by
  obtain ⟨q, hRun, hRet, hGone, -⟩ := packedFile_punch
  refine ⟨q, hRun, hRet, fun hAtomic => ?_⟩
  have hOut : ¬ smallHole.inside 70 := by
    unfold Punch.inside
    decide
  have hOld : At packedFile.content.exts 70 1022 :=
    ⟨0, ⟨70, 1022, 3, 0⟩, by decide +kernel, ⟨by decide, by decide⟩, rfl, rfl⟩
  have hNew : At (packedFile.content.exts.flatMap smallHole.kept) 70 1022 :=
    ⟨0, ⟨70, 1022, 3, 0⟩, by decide +kernel, ⟨by decide, by decide⟩, rfl, rfl⟩
  have hNow : ¬ At q.file.content.exts 70 1022 := fun ⟨_, e, he, hCov, _⟩ => hGone e he hCov
  rcases hAtomic 70 hOut with hSame | hSame
  · exact hNow ((hSame 1022).mpr hOld)
  · exact hNow ((hSame 1022).mpr hNew)

end Briefs.File
