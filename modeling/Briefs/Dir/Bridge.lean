import Briefs.Dir.Ops
import Briefs.Trie.Entry

/-!
# BrieFS — names and tries

The namespace operations take a directory as the map that its trie stores. Here the three functions
of `dir.c` that change a name are put on the trie itself: `briefs_add_dir_entry` inserts, and
repoints a name that is there; `briefs_remove_dir_entry` removes; `briefs_repoint_dir_entry`
updates. The file types are numbers in the trie, given by `ftype`.

## Results

* `NameOp.simulates` — one change on a trie that holds the names of a directory.
* `names_simulate` — whole runs: the trie answers lookups as the list of names does.
-/

namespace Briefs.Dir

open Briefs.Trie (Entries DirState Sound)

/-- The changes of a name. -/
inductive NameOp where
  | add (name : Name) (ino : Nat) (type : Kind)
  | remove (name : Name)
  | repoint (name : Name) (ino : Nat) (type : Kind)

/-- The functions check the length of a name first; a name to repoint was looked up before. -/
def NameOp.Valid : NameOp → Prop
  | .add name _ _ | .remove name | .repoint name _ _ => 0 < name.length ∧ name.length ≤ nameLen

def NameOp.run (fs : Fs) (dir : Nat) : NameOp → Except Errno Fs
  | .add name ino type => fs.addDirEntry dir name ino type
  | .remove name => fs.removeDirEntry dir name
  | .repoint name ino type => fs.repointDirEntry dir name ino type

/-- The same on the trie. -/
def NameOp.call (ftype : Kind → Nat) (d : DirState) : NameOp → Except Trie.Errno Unit × DirState
  | .add name ino type =>
    match d.call (.insert name ino (ftype type)) with
    | (.error .eexist, d) => d.call (.update name ino (ftype type))
    | r => r
  | .remove name => d.call (.remove name)
  | .repoint name ino type => d.call (.update name ino (ftype type))

/-- The names of a directory, as its trie has them. -/
def Fs.entries (ftype : Kind → Nat) (fs : Fs) (dir : Nat) : Entries := fun name =>
  (fs.lookup dir name).map fun e => (e.ino, ftype e.type)

variable {ftype : Kind → Nat} {fs fs' : Fs} {dir : Nat} {base : Trie.Store} {d : DirState}

/-- The names that stay when one is taken out. -/
theorem find_dropped (l : List Dirent) (name name' : Name) :
    (l.filter fun e => !e.isAt dir name).find? (fun e => e.isAt dir name') =
      if name' = name then none else l.find? fun e => e.isAt dir name' := by
  rw [List.find?_filter]
  by_cases hName : name' = name
  · rw [if_pos hName, hName]
    refine List.find?_eq_none.mpr fun e _ => ?_
    cases e.isAt dir name <;> decide
  · rw [if_neg hName]
    congr 1
    funext e
    unfold Dirent.isAt
    cases hAt : (e.dir == dir && e.name == name') with
    | false => simp
    | true =>
      rw [Bool.and_eq_true, beq_iff_eq, beq_iff_eq] at hAt
      simp [hAt.2, hName]

theorem entries_put (name : Name) (ino : Nat) (type : Kind) :
    Fs.entries ftype { fs with
        dirents := ⟨dir, name, ino, type⟩ :: fs.dirents.filter fun e => !e.isAt dir name } dir =
      Function.update (fs.entries ftype dir) name (some (ino, ftype type)) := by
  funext name'
  unfold Fs.entries Fs.lookup
  rw [List.find?_cons, find_dropped]
  by_cases hName : name' = name
  · rw [hName, Function.update_self]
    simp [Dirent.isAt]
  · have hNot : Dirent.isAt ⟨dir, name, ino, type⟩ dir name' = false := by
      simp [Dirent.isAt, Ne.symm hName]
    rw [Function.update_of_ne hName, hNot, if_neg hName]

theorem entries_drop (name : Name) :
    Fs.entries ftype { fs with dirents := fs.dirents.filter fun e => !e.isAt dir name } dir =
      Function.update (fs.entries ftype dir) name none := by
  funext name'
  unfold Fs.entries Fs.lookup
  rw [find_dropped]
  by_cases hName : name' = name
  · rw [hName, Function.update_self, if_pos rfl]
    rfl
  · rw [Function.update_of_ne hName, if_neg hName]

theorem entries_isSome (name : Name) :
    (fs.entries ftype dir name).isSome = (fs.lookup dir name).isSome := Option.isSome_map

/-- A call on the trie whose result is that of the map. -/
theorem DirState.Holds.calls {m m' : Entries} {op : Trie.Op} (h : d.Holds base m)
    (hSpec : op.spec m = (.ok (), m')) :
    (d.call op).1 = .error .enospc ∨ (d.call op).1 = .ok () ∧ (d.call op).2.Holds base m' := by
  rcases h.call op with hFull | hDone
  · exact Or.inl hFull
  · rw [hSpec] at hDone
    exact Or.inr hDone

/-- A change that the list of names takes: the trie takes it too, unless there is no space, and has
the names after it. -/
theorem NameOp.simulates (h : d.Holds base (fs.entries ftype dir)) {op : NameOp} (hValid : op.Valid)
    (hOk : op.run fs dir = .ok fs') :
    (op.call ftype d).1 = .error .enospc ∨
      (op.call ftype d).1 = .ok () ∧ (op.call ftype d).2.Holds base (fs'.entries ftype dir) := by
  cases op with
  | add name ino type =>
    obtain ⟨hLow, hHigh⟩ := hValid
    change fs.addDirEntry dir name ino type = .ok fs' at hOk
    unfold Fs.addDirEntry at hOk
    rw [if_neg (by omega)] at hOk
    cases hOk
    rw [entries_put]
    simp only [NameOp.call]
    have hShort : ¬Trie.nameLen < name.length := Nat.not_lt.mpr hHigh
    by_cases hThere : ((fs.entries ftype dir) name).isSome = true
    · -- the insertion is refused, and the update goes through
      have hSpec : (Trie.Op.insert name ino (ftype type)).spec (fs.entries ftype dir) =
          (.error .eexist, fs.entries ftype dir) := by
        simp only [Trie.Op.spec]
        rw [if_neg (List.ne_nil_of_length_pos hLow), if_neg hShort, if_pos hThere]
      rcases h.call (.insert name ino (ftype type)) with hFull | ⟨hCode, -⟩
      · refine Or.inl ?_
        generalize d.call (.insert name ino (ftype type)) = r at hFull ⊢
        obtain ⟨code, d'⟩ := r
        obtain rfl : code = .error .enospc := hFull
        rfl
      · rw [hSpec] at hCode
        have hSame := h.call_eexist hCode
        generalize d.call (.insert name ino (ftype type)) = r at hCode hSame ⊢
        obtain ⟨code, d'⟩ := r
        obtain rfl : code = .error .eexist := hCode
        obtain rfl : d' = d := hSame
        exact DirState.Holds.calls h (by
          simp only [Trie.Op.spec]
          rw [if_pos hThere])
    · have hSpec : (Trie.Op.insert name ino (ftype type)).spec (fs.entries ftype dir) =
          (.ok (), Function.update (fs.entries ftype dir) name (some (ino, ftype type))) := by
        simp only [Trie.Op.spec]
        rw [if_neg (List.ne_nil_of_length_pos hLow), if_neg hShort, if_neg hThere]
      have hCall := DirState.Holds.calls h hSpec
      generalize d.call (.insert name ino (ftype type)) = r at hCall ⊢
      obtain ⟨code, d'⟩ := r
      rcases hCall with hFull | ⟨hCode, hHolds⟩
      · obtain rfl : code = .error .enospc := hFull
        exact Or.inl rfl
      · obtain rfl : code = .ok () := hCode
        exact Or.inr ⟨rfl, hHolds⟩
  | remove name =>
    obtain ⟨hLow, hHigh⟩ := hValid
    change fs.removeDirEntry dir name = .ok fs' at hOk
    unfold Fs.removeDirEntry at hOk
    rw [if_neg (by omega)] at hOk
    split at hOk
    · rename_i hThere
      cases hOk
      rw [entries_drop]
      refine DirState.Holds.calls h ?_
      simp only [Trie.Op.spec]
      rw [entries_isSome, if_pos hThere]
    · cases hOk
  | repoint name ino type =>
    change fs.repointDirEntry dir name ino type = .ok fs' at hOk
    unfold Fs.repointDirEntry at hOk
    split at hOk
    · rename_i hThere
      cases hOk
      rw [entries_put]
      refine DirState.Holds.calls h ?_
      simp only [Trie.Op.spec]
      rw [entries_isSome, if_pos hThere]
    · cases hOk

/-- The changes of a directory that the list of names takes, with the trie. -/
inductive NameRun (ftype : Kind → Nat) (dir : Nat) (fs : Fs) (d : DirState) :
    Fs → DirState → Prop where
  | refl : NameRun ftype dir fs d fs d
  | step {fs₁ fs₂ : Fs} {d₁ : DirState} {op : NameOp} (hRun : NameRun ftype dir fs d fs₁ d₁)
      (hValid : op.Valid) (hOk : op.run fs₁ dir = .ok fs₂)
      (hSpace : (op.call ftype d₁).1 ≠ .error .enospc) :
      NameRun ftype dir fs d fs₂ (op.call ftype d₁).2

/-- In every run with space for the nodes, the trie of a directory that was made empty finds the
names of the list, with their inodes and types. -/
theorem names_simulate {w : Trie.World} (hw : Sound w) (hEmpty : ∀ name, fs.lookup dir name = none)
    (hRun : NameRun ftype dir fs ⟨0, w⟩ fs' d) (name : Name) :
    Trie.trieLookup d.root name d.world = (Trie.answer (fs'.entries ftype dir name), d.world) := by
  have hStart : fs.entries ftype dir = fun _ => none := by
    funext n
    unfold Fs.entries
    rw [hEmpty]
    rfl
  have hHolds : d.Holds w.node (fs'.entries ftype dir) := by
    induction hRun with
    | refl =>
      rw [hStart]
      exact Trie.holds_empty hw
    | step _ hValid hOk hSpace ih =>
      rcases NameOp.simulates ih hValid hOk with hFull | ⟨-, hHolds⟩
      · exact absurd hFull hSpace
      · exact hHolds
  exact hHolds.lookup name

end Briefs.Dir
