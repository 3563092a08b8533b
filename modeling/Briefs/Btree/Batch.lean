import Briefs.Btree.Read

/-!
# BrieFS — inserting several extents

Range delete, unwritten conversion and the rebuild of an extent list put extents back
one after the other with `briefs_btree_insert_locked` and stop at the first failure.

`Owns f bl cs` is what such a batch needs to know about physical blocks: the blocks of
the cells `cs` are taken, none of them is a node of the tree, and none occurs twice.
`Distinct cs` says the same of the file blocks. Both cover what is mapped already and
what is still waiting.

## Results

* `Owns.expand` — the blocks stay owned while the tree grows.
* `insertAll_spec` — what a batch leaves, also when it stops early.
-/

namespace Briefs.Btree

open Briefs.Journal

/-- The insertion of extents one after the other, until one fails. -/
def insertAll (fuel : Nat) : List Extent → File → Option (Option Errno × File)
  | [], f => some (none, f)
  | e :: rest, f =>
    match insertLocked fuel f e with
    | none => none
    | some (some err, f) => some (some err, f)
    | some (none, f) => insertAll fuel rest f

--
-- Ownership
--

/-- The physical blocks of `cs`: taken, no nodes of the tree, each there once. -/
structure Owns (f : File) (bl : List Nat) (cs : List (Nat × Nat × Nat)) : Prop where
  taken : ∀ x ∈ cs, Allocated f x.2.1
  apart : ∀ x ∈ cs, x.2.1 ∉ bl
  once  : (cs.map fun x => x.2.1).Nodup

/-- No file block occurs twice. -/
def Distinct (cs : List (Nat × Nat × Nat)) : Prop := (cs.map fun x => x.1).Nodup

instance (cs : List (Nat × Nat × Nat)) : Decidable (Distinct cs) :=
  inferInstanceAs (Decidable (List.Nodup _))

section Owns

variable {f f' : File} {bl bl' : List Nat} {cs ds : List (Nat × Nat × Nat)}

theorem Owns.perm (h : Owns f bl cs) (hPerm : cs.Perm ds) : Owns f bl ds :=
  ⟨fun x hx => h.taken x (hPerm.mem_iff.mpr hx), fun x hx => h.apart x (hPerm.mem_iff.mpr hx),
    (hPerm.map _).nodup_iff.mp h.once⟩

theorem Owns.left (h : Owns f bl (cs ++ ds)) : Owns f bl cs := by
  refine ⟨fun x hx => h.taken x (List.mem_append_left _ hx),
    fun x hx => h.apart x (List.mem_append_left _ hx), ?_⟩
  have hOnce := h.once
  rw [List.map_append, List.nodup_append] at hOnce
  exact hOnce.1

/-- Blocks in use stay so while the tree grows around them. -/
theorem Owns.expand (h : Owns f bl cs) (hGrow : Expands f f' bl bl') : Owns f' bl' cs :=
  ⟨fun x hx => hGrow.allocated (h.taken x hx),
    fun x hx => hGrow.notMem (h.taken x hx) (h.apart x hx), h.once⟩

theorem Distinct.perm (h : Distinct cs) (hPerm : cs.Perm ds) : Distinct ds :=
  (hPerm.map _).nodup_iff.mp h

theorem Distinct.left (h : Distinct (cs ++ ds)) : Distinct cs := by
  unfold Distinct at *
  rw [List.map_append, List.nodup_append] at h
  exact h.1

theorem Distinct.apart (h : Distinct (cs ++ ds)) {x y : Nat × Nat × Nat} (hx : x ∈ cs)
    (hy : y ∈ ds) : x.1 ≠ y.1 := by
  unfold Distinct at h
  rw [List.map_append, List.nodup_append] at h
  exact h.2.2 _ (List.mem_map_of_mem hx) _ (List.mem_map_of_mem hy)

/-- Extents in order map every file block once. -/
theorem Ordered.distinct : ∀ {l : List Extent}, Ordered l → Distinct (cells l)
  | [], _ => List.nodup_nil
  | e :: l, h => by
    obtain ⟨hHead, hTail⟩ := List.pairwise_cons.mp h
    have hRest : Distinct (cells l) := Ordered.distinct hTail
    unfold Distinct at hRest ⊢
    rw [cells_cons, List.map_append, List.nodup_append]
    refine ⟨?_, hRest, ?_⟩
    · unfold Extent.cells
      rw [List.map_map]
      refine List.Nodup.map ?_ List.nodup_range
      intro i j hij
      simp only [Function.comp_apply] at hij
      omega
    · rintro b hb b' hb' rfl
      obtain ⟨⟨b₁, p, fl⟩, hIn, rfl⟩ := List.mem_map.mp hb
      obtain ⟨⟨b₂, p', fl'⟩, hIn', hEq⟩ := List.mem_map.mp hb'
      obtain ⟨⟨-, hBefore⟩, -⟩ := mem_extent_cells.mp hIn
      obtain ⟨x, hx, ⟨hAfter, -⟩, -⟩ := mem_cells.mp hIn'
      have hApart := hHead x hx
      dsimp only at hEq
      omega

end Owns

--
-- A batch
--

section Batch

variable {f : File} {c : Content}

/-- The extents that are mapped end where the cells do. -/
theorem stop_le_of_cells {l : List Extent} (hPos : ∀ e ∈ l, 0 < e.len) {n : Nat}
    (h : ∀ x ∈ cells l, x.1 < n) : ∀ e ∈ l, e.stop ≤ n := by
  intro e he
  have hLen := hPos e he
  have hLast : (e.stop - 1, e.physAt (e.stop - 1), e.flags) ∈ cells l := by
    refine mem_cells.mpr ⟨e, he, ⟨?_, ?_⟩, rfl, rfl⟩
    · unfold Extent.stop
      omega
    · unfold Extent.stop
      omega
  have hLt : e.stop - 1 < n := h _ hLast
  omega

theorem lt_of_cells {l : List Extent} {n : Nat} (h : ∀ e ∈ l, e.stop ≤ n) :
    ∀ x ∈ cells l, x.1 < n := by
  rintro ⟨b, p, fl⟩ hx
  obtain ⟨e, he, ⟨-, hHi⟩, -⟩ := mem_cells.mp hx
  have hStop := h e he
  show b < n
  omega

/-- What a batch leaves. -/
structure BatchDone (f : File) (c : Content) (l : List Extent) (code : Option Errno) (f' : File)
    (c' : Content) : Prop where
  holds  : Holds f' c'
  owns   : Owns f' c'.blocks (cells c'.exts)
  tidy   : NoCross c → Distinct (cells c.exts ++ cells l) →
    (∀ e ∈ l, ∀ k ∈ c.seps, ¬ e.crosses k) → NoCross c'
  done   : code = none → (cells c'.exts).Perm (cells c.exts ++ cells l)
  source : ∀ x ∈ cells c'.exts, x ∈ cells c.exts ∨ x ∈ cells l
  kept   : ∀ x ∈ cells c.exts, x ∈ cells c'.exts
  codes  : code = none ∨ code = some .eexist ∨ code = some .enospc
  clash  : code = some .eexist → ¬ Distinct (cells c.exts ++ cells l)
  nospc  : code = some .enospc → l.length ≤ 1 → Exhausts 11 f.alloc
  total  : f.total = c.exts.length → f'.total = c'.exts.length
  shift  : f.indexed = true →
    f'.indexed = true ∧ f'.total + c.exts.length = f.total + c'.exts.length
  tail   : (∀ e ∈ c.exts, e.stop ≤ f.maxEnd) → ∀ e ∈ c'.exts, e.stop ≤ f'.maxEnd
  raised : f.maxEnd ≤ f'.maxEnd
  head   : ∀ e ∈ l.head?, e.stop ≤ f'.maxEnd
  whole  : Coarser c.exts c'.exts

/-- A range that is not mapped meets no extent of the leaf that it is routed to. -/
theorem clear_of_distinct {ext : Extent} {l : List Extent} {ds : List (Nat × Nat × Nat)}
    (hPos : ∀ e ∈ c.exts, 0 < e.len) (hDist : Distinct (cells c.exts ++ ds))
    (hIn : ext.cells ⊆ ds) (hLeaf : l ⊆ c.exts) (hSeps : ∀ k ∈ c.seps, ¬ ext.crosses k) :
    Clear c l ext := by
  rintro k (hk | hk) ⟨hLo, hHi⟩
  · exact hSeps k hk ⟨hLo, hHi⟩
  · obtain ⟨x, hx, rfl⟩ := hk.mem
    have hLen := hPos x (hLeaf hx)
    have hMapped : (x.offset, x.physAt x.offset, x.flags) ∈ cells c.exts := by
      refine mem_cells.mpr ⟨x, hLeaf hx, ⟨Nat.le_refl _, ?_⟩, rfl, rfl⟩
      unfold Extent.stop
      omega
    have hNew : (x.offset, ext.physAt x.offset, ext.flags) ∈ ds :=
      hIn (mem_extent_cells.mpr ⟨⟨by omega, hHi⟩, rfl, rfl⟩)
    exact hDist.apart hMapped hNew rfl

/-- Ranges that overlap map a block twice. -/
theorem not_distinct_of_overlaps {r l : List Extent} {x e : Extent} (hx : x ∈ r)
    (hOver : x.overlaps e) (he : e ∈ l) (hxLen : 0 < x.len) (heLen : 0 < e.len) :
    ¬ Distinct (cells r ++ cells l) := by
  intro hDist
  obtain ⟨hLo, hHi⟩ := hOver
  have hOld : (max x.offset e.offset, x.physAt (max x.offset e.offset), x.flags) ∈ cells r := by
    refine mem_cells.mpr ⟨x, hx, ⟨Nat.le_max_left _ _, ?_⟩, rfl, rfl⟩
    unfold Extent.stop at *
    omega
  have hNew : (max x.offset e.offset, e.physAt (max x.offset e.offset), e.flags) ∈ cells l := by
    refine mem_cells.mpr ⟨e, he, ⟨Nat.le_max_right _ _, ?_⟩, rfl, rfl⟩
    unfold Extent.stop at *
    omega
  exact hDist.apart hOld hNew rfl

/-- The leaf that an offset is routed to is part of the content. -/
theorem Holds.routed_subset (h : Holds f c) {key : Nat} (hKey : key < fileTop) :
    f.routed key ⊆ c.exts := by
  unfold File.routed
  by_cases hIdx : f.indexed = true
  · obtain ⟨d, hSub⟩ := h.tree hIdx
    rw [if_pos hIdx]
    exact hSub.routeLeaf_subset levels (Nat.zero_le _) hKey
  · obtain ⟨rfl, -⟩ := h.flat (by simpa using hIdx)
    rw [if_neg hIdx]
    exact List.Subset.refl _

theorem insertAll_spec {fuel : Nat} (hFuel : 10 ≤ fuel) : ∀ (l : List Extent) {f : File}
    {c : Content}, Holds f c → Owns f c.blocks (cells c.exts ++ cells l) →
    (∀ e ∈ l, 0 < e.len ∧ e.stop < fileTop) →
    ∃ code f' c', insertAll fuel l f = some (code, f') ∧ BatchDone f c l code f' c'
  | [], f, c, h, hOwns, _ => by
    refine ⟨none, f, c, rfl, ?_⟩
    refine
      { holds := h, owns := hOwns.left, tidy := fun hNo _ _ => hNo, done := fun _ => ?_,
        source := fun x hx => Or.inl hx, kept := fun x hx => hx, codes := Or.inl rfl, clash := nofun, nospc := nofun,
        total := fun hTotal => hTotal, shift := fun hIdx => ⟨hIdx, rfl⟩, tail := fun hTail => hTail,
        raised := Nat.le_refl _, head := nofun, whole := Coarser.refl _ }
    rw [cells_nil, List.append_nil]
  | e :: l, f, c, h, hOwns, hAll => by
    obtain ⟨hLen, hStop⟩ := hAll e List.mem_cons_self
    have hKey : e.offset < fileTop := by
      unfold Extent.stop at hStop
      omega
    obtain ⟨code, f1, c1, hEq, hd⟩ := insertLocked_spec h hLen hStop hFuel
    have hRaise : f.maxEnd ≤ f1.maxEnd ∧ e.stop ≤ f1.maxEnd := by
      rw [hd.maxEnd]
      exact ⟨Nat.le_max_left _ _, Nat.le_max_right _ _⟩
    have hRouted := h.routed_subset hKey
    -- an extent of the batch is clear as long as it crosses no separator
    have hClear : Distinct (cells c.exts ++ cells (e :: l)) → ∀ x ∈ e :: l,
        (∀ k ∈ c.seps, ¬ x.crosses k) → Clear c (f.routed e.offset) x := by
      intro hDist x hx hSeps
      refine clear_of_distinct h.pos hDist ?_ hRouted hSeps
      intro y hy
      exact List.mem_flatMap.mpr ⟨x, hx, hy⟩
    cases code with
    | some err =>
      have hExts : c1.exts = c.exts := hd.same (by simp)
      refine ⟨some err, f1, c1, ?_, ?_⟩
      · unfold insertAll
        rw [hEq]
      · refine
          { holds := hd.holds, owns := ?_, tidy := ?_, done := nofun, source := ?_,
            kept := fun x hx => hExts.symm ▸ hx, codes := hd.codes, clash := ?_, nospc := fun hCode _ => hd.nospc hCode,
            total := hd.total, shift := hd.shift, tail := ?_, raised := hRaise.1, head := ?_,
            whole := hd.whole }
        · rw [hExts]
          exact hOwns.left.expand hd.grows
        · intro hNo hDist hSeps
          exact (hd.tidy hNo (hClear hDist e List.mem_cons_self (hSeps e List.mem_cons_self))).1
        · intro x hx
          rw [hExts] at hx
          exact Or.inl hx
        · intro hCode hDist
          obtain ⟨x, hx, hOver⟩ := hd.clash hCode
          exact not_distinct_of_overlaps hx hOver List.mem_cons_self (h.pos x hx) hLen hDist
        · intro hTail x hx
          rw [hExts] at hx
          exact Nat.le_trans (hTail x hx) hRaise.1
        · intro x hx
          obtain rfl : e = x := by simpa using hx
          exact hRaise.2
    | none =>
      have hPerm : (cells c1.exts).Perm (cells c.exts ++ e.cells) := hd.done rfl
      have hMove : (cells c.exts ++ cells (e :: l)).Perm (cells c1.exts ++ cells l) := by
        rw [cells_cons, ← List.append_assoc]
        exact hPerm.symm.append_right _
      obtain ⟨code, f2, c2, hEq2, hb⟩ := insertAll_spec hFuel l hd.holds
        ((hOwns.perm hMove).expand hd.grows) (fun x hx => hAll x (List.mem_cons_of_mem _ hx))
      refine ⟨code, f2, c2, ?_, ?_⟩
      · unfold insertAll
        rw [hEq]
        exact hEq2
      · refine
          { holds := hb.holds, owns := hb.owns, tidy := ?_, done := ?_, source := ?_,
            kept := fun x hx => hb.kept x (hPerm.mem_iff.mpr (List.mem_append_left _ hx)), codes := hb.codes, clash := ?_, nospc := ?_, total := fun hT => hb.total (hd.total hT),
            shift := ?_, tail := ?_, raised := Nat.le_trans hRaise.1 hb.raised, head := ?_,
            whole := hd.whole.trans hb.whole }
        · intro hNo hDist hSeps
          have hHere := hClear hDist e List.mem_cons_self (hSeps e List.mem_cons_self)
          refine hb.tidy (hd.tidy hNo hHere).1 (hDist.perm hMove) ?_
          intro x hx k hk
          have hIn := List.mem_cons_of_mem e hx
          exact hClear hDist x hIn (hSeps x hIn) k (hd.seps.source k hk)
        · intro hCode
          exact (hb.done hCode).trans hMove.symm
        · intro x hx
          have hIn : x ∈ cells c1.exts ++ cells l := List.mem_append.mpr (hb.source x hx)
          exact List.mem_append.mp (hMove.mem_iff.mpr hIn)
        · intro hCode hDist
          exact hb.clash hCode (hDist.perm hMove)
        · intro hCode hOne
          have hNil : l = [] := by
            rw [List.length_cons] at hOne
            exact List.length_eq_zero_iff.mp (by omega)
          subst hNil
          rw [hCode] at hEq2
          cases hEq2
        · intro hIdx
          obtain ⟨hIdx1, hShift1⟩ := hd.shift hIdx
          obtain ⟨hIdx2, hShift2⟩ := hb.shift hIdx1
          exact ⟨hIdx2, by omega⟩
        · intro hTail
          refine hb.tail (stop_le_of_cells hd.holds.pos ?_)
          intro x hx
          rcases List.mem_append.mp (hPerm.mem_iff.mp hx) with hOld | hNew
          · exact Nat.lt_of_lt_of_le (lt_of_cells hTail x hOld) hRaise.1
          · obtain ⟨b, p, fl⟩ := x
            obtain ⟨⟨-, hHi⟩, -⟩ := mem_extent_cells.mp hNew
            exact Nat.lt_of_lt_of_le hHi hRaise.2
        · intro x hx
          obtain rfl : e = x := by simpa using hx
          exact Nat.le_trans hRaise.2 hb.raised

end Batch

end Briefs.Btree
