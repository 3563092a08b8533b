import Briefs.Btree.Runs

/-!
# BrieFS — what one extent operation does to the block map

The block map of an inode is read off the enumeration: `cells` lists every mapped file
block with its physical block and its flags. Each operation is described by the cells
before and after it, whatever the shape of the tree and whatever happened to it on the
way. All inodes that any sequence of allowed operations makes out of an empty one are
covered (`Runs.sound`), also those whose extents reach over a separator.

## Results

* `insertLocked_adds` — a successful insertion adds exactly the new cells.
* `insertLocked_atomic` — a failed insertion changes nothing, and every block that it
  took is a node of the tree or free again.
-/

namespace Briefs.Btree

open Briefs.Journal

--
-- Insertion
--

section Insert

variable {f : File} {c : Content} {ext : Extent}

/-- `briefs_btree_insert_locked` adds the new extent to the block map and nothing else,
whether it is stored, merged or makes nodes split. -/
theorem insertLocked_adds (h : Holds f c) (hLen : 0 < ext.len) (hStop : ext.stop < fileTop) :
    ∃ code f' l l', insertLocked levels f ext = some (code, f') ∧ forEachExtent f = .ok l ∧
      forEachExtent f' = .ok l' ∧ (code = none → (cells l').Perm (cells l ++ ext.cells)) := by
  obtain ⟨code, f', c', hEq, hd⟩ := insertLocked_spec h hLen hStop ten_le_levels
  exact ⟨code, f', c.exts, c'.exts, hEq, h.forEachExtent, hd.holds.forEachExtent, hd.done⟩

theorem insertLocked_adds_beside_separator :
    ∃ code f' l l', insertLocked levels splitFile ⟨127, 1150, 1, 1⟩ = some (code, f') ∧
      forEachExtent splitFile = .ok l ∧ forEachExtent f' = .ok l' ∧
      (code = none → (cells l').Perm (cells l ++ (⟨127, 1150, 1, 1⟩ : Extent).cells)) := by
  obtain ⟨-, hGood, -⟩ := gapFile_run (P := Allowed) evens_allowed trivial
  exact insertLocked_adds hGood.holds (by decide) (by decide)

/-- A failed `briefs_btree_insert_locked` leaves the block map and the count alone, and
every block that was free before is free or a node of the tree. -/
theorem insertLocked_atomic (h : Holds f c) (hLen : 0 < ext.len) (hStop : ext.stop < fileTop) :
    ∃ code f', insertLocked levels f ext = some (code, f') ∧
      (code = some .enospc ∨ code = some .eexist →
        forEachExtent f' = forEachExtent f ∧ f'.total = f.total ∧
        ∀ rel, f.alloc.isFree rel = true →
          f'.alloc.isFree rel = true ∨ f.dataStart + rel ∈ f'.content.blocks) := by
  obtain ⟨code, f', c', hEq, hd⟩ := insertLocked_spec h hLen hStop ten_le_levels
  refine ⟨code, f', hEq, ?_⟩
  intro hFail
  have hCode : code ≠ none := by
    rcases hFail with rfl | rfl
    · nofun
    · nofun
  refine ⟨?_, hd.kept hCode, ?_⟩
  · rw [hd.holds.forEachExtent, h.forEachExtent, hd.same hCode]
  · rw [hd.holds.content]
    exact hd.grows.used h.sound

theorem insertLocked_atomic_at_separator :
    ∃ code f', insertLocked levels splitFile ⟨126, 1150, 1, 0⟩ = some (code, f') ∧
      (code = some .enospc ∨ code = some .eexist →
        forEachExtent f' = forEachExtent splitFile ∧ f'.total = splitFile.total ∧
        ∀ rel, splitFile.alloc.isFree rel = true →
          f'.alloc.isFree rel = true ∨ splitFile.dataStart + rel ∈ f'.content.blocks) := by
  obtain ⟨-, hGood, -⟩ := gapFile_run (P := Allowed) evens_allowed trivial
  exact insertLocked_atomic hGood.holds (by decide) (by decide)

end Insert

end Briefs.Btree
