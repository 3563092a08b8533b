import Briefs.Alloc.Complete
import Briefs.Btree.Shape

/-!
# BrieFS — insertion into an extent tree

What `btree_descend_insert` does to the shape of a subtree. Whatever it returns,
the result is a subtree of the same depth over the same range: the proactive
splits add blocks and separators, and only a successful insert changes the
extents, inside the one leaf that the offset routes to (`Placed`).

New node blocks come from the allocator, so they are none of the blocks that are
in use (`Grew`). Separators that a split adds are offsets of extents in the tree.

## Results

* `maybeSplitChild_spec` — splitting a full child on the way down.
* `descendInsert_spec` — the descent.
* `ensureRootRoom_spec` — splitting a full root.
-/

namespace Briefs.Btree

open Briefs.Journal

--
-- Blocks in use
--

/-- The block belongs to the data region and is taken. -/
def Allocated (f : File) (b : Nat) : Prop :=
  ∃ rel, rel ≠ 0 ∧ b = f.dataStart + rel ∧ f.alloc.isFree rel = false

section Expands

variable {f f' : File} {bl bl' : List Nat}

/-- The node blocks grew from `bl` to `bl'`: the new ones were free, and nothing else
was written or freed. -/
structure Expands (f f' : File) (bl bl' : List Nat) : Prop where
  dataStart : f'.dataStart = f.dataStart
  nodes     : ∀ b, b ∉ bl' → f'.nodes b = f.nodes b
  fresh     : ∀ b ∈ bl', b ∈ bl ∨
    ∃ rel, rel ≠ 0 ∧ b = f.dataStart + rel ∧ f.alloc.isFree rel = true
  alloc     : ∀ rel, f'.alloc.isFree rel = true → f.alloc.isFree rel = true
  used      : f.alloc.Healthy → ∀ rel, f.alloc.isFree rel = true →
    f'.alloc.isFree rel = true ∨ f.dataStart + rel ∈ bl'
  keeps     : bl ⊆ bl'

theorem Expands.allocated (h : Expands f f' bl bl') {b : Nat}
    (hAlloc : Allocated f b) : Allocated f' b := by
  obtain ⟨rel, hRel, hEq, hTaken⟩ := hAlloc
  refine ⟨rel, hRel, by rw [hEq, h.dataStart], ?_⟩
  by_contra hFree
  have hOld := h.alloc rel (by simpa using hFree)
  rw [hTaken] at hOld
  exact absurd hOld (by decide)

/-- A block in use that is not of the tree stays out of it. -/
theorem Expands.notMem (h : Expands f f' bl bl') {b : Nat}
    (hAlloc : Allocated f b) (hOut : b ∉ bl) : b ∉ bl' := by
  intro hIn
  rcases h.fresh b hIn with hOld | ⟨rel, -, hEq, hFree⟩
  · exact hOut hOld
  · obtain ⟨rel', -, hEq', hTaken⟩ := hAlloc
    have hSame : rel = rel' := by omega
    rw [hSame, hTaken] at hFree
    exact absurd hFree (by decide)

end Expands

/-- Everything but the nodes, the allocator and the root is the same. -/
structure SameInodeState (f f' : File) : Prop where
  dataStart : f'.dataStart = f.dataStart
  indexed   : f'.indexed = f.indexed
  inline    : f'.inline = f.inline
  total     : f'.total = f.total
  maxEnd    : f'.maxEnd = f.maxEnd

theorem SameInodeState.refl (f : File) : SameInodeState f f := ⟨rfl, rfl, rfl, rfl, rfl⟩

theorem SameInodeState.trans {f g h : File} (hfg : SameInodeState f g)
    (hgh : SameInodeState g h) : SameInodeState f h :=
  ⟨hgh.dataStart.trans hfg.dataStart, hgh.indexed.trans hfg.indexed, hgh.inline.trans hfg.inline,
    hgh.total.trans hfg.total, hgh.maxEnd.trans hfg.maxEnd⟩

/-- A tree with the node blocks `bl` grew to one with the blocks `bl'`: the new
blocks were free, and nothing outside the tree was written or freed. -/
structure Grew (f f' : File) (bl bl' : List Nat) : Prop where
  same  : SameInodeState f f'
  nodes : ∀ b, b ∉ bl' → f'.nodes b = f.nodes b
  fresh : ∀ b ∈ bl', b ∈ bl ∨
    ∃ rel, rel ≠ 0 ∧ b = f.dataStart + rel ∧ f.alloc.isFree rel = true
  keeps : bl ⊆ bl'
  nodup : bl'.Nodup
  alloc : ∀ rel, f'.alloc.isFree rel = true → f.alloc.isFree rel = true
  owned : ∀ b ∈ bl', Allocated f' b
  sound : f.alloc.Healthy → f'.alloc.Healthy
  used  : f.alloc.Healthy → ∀ rel, f.alloc.isFree rel = true →
    f'.alloc.isFree rel = true ∨ f.dataStart + rel ∈ bl'

section Grew

variable {f f' f'' : File} {bl bl' bl'' : List Nat}

theorem Grew.refl (hNodup : bl.Nodup) (hOwned : ∀ b ∈ bl, Allocated f b) : Grew f f bl bl :=
  ⟨SameInodeState.refl f, fun _ _ => rfl, fun _ hb => Or.inl hb, List.Subset.refl _, hNodup,
    fun _ h => h, hOwned, fun h => h, fun _ _ h => Or.inl h⟩

theorem Grew.trans (h : Grew f f' bl bl') (h' : Grew f' f'' bl' bl'') : Grew f f'' bl bl'' := by
  refine ⟨h.same.trans h'.same, ?_, ?_, List.Subset.trans h.keeps h'.keeps, h'.nodup, ?_, h'.owned,
    fun hSound => h'.sound (h.sound hSound), ?_⟩
  · intro b hb
    rw [h'.nodes b hb, h.nodes b fun hIn => hb (h'.keeps hIn)]
  · intro b hb
    rcases h'.fresh b hb with hOld | ⟨rel, hRel, hEq, hFree⟩
    · exact h.fresh b hOld
    · exact Or.inr ⟨rel, hRel, by rw [hEq, h.same.dataStart], h.alloc rel hFree⟩
  · intro rel hFree
    exact h.alloc rel (h'.alloc rel hFree)
  · intro hSound rel hFree
    rcases h.used hSound rel hFree with hStill | hNode
    · rcases h'.used (h.sound hSound) rel hStill with hStill | hNode
      · exact Or.inl hStill
      · exact Or.inr (h.same.dataStart ▸ hNode)
    · exact Or.inr (h'.keeps hNode)

theorem Grew.expands (h : Grew f f' bl bl') : Expands f f' bl bl' :=
  ⟨h.same.dataStart, h.nodes, h.fresh, h.alloc, h.used, h.keeps⟩

/-- A tree that grew beside blocks `l` and `r` in use. -/
theorem Grew.frame (h : Grew f f' bl bl') {l r : List Nat} (hNodup : (l ++ (bl ++ r)).Nodup)
    (hOwned : ∀ b ∈ l ++ (bl ++ r), Allocated f b) :
    Grew f f' (l ++ (bl ++ r)) (l ++ (bl' ++ r)) := by
  have hOut : ∀ b, (b ∈ l ∨ b ∈ r) → b ∉ bl := by
    intro b hb hIn
    rw [List.nodup_append, List.nodup_append] at hNodup
    obtain ⟨-, ⟨-, -, hRight⟩, hLeft⟩ := hNodup
    rcases hb with hb | hb
    · exact hLeft b hb b (List.mem_append.mpr (Or.inl hIn)) rfl
    · exact hRight b hIn b hb rfl
  have hOut' : ∀ b, (b ∈ l ∨ b ∈ r) → b ∉ bl' := by
    intro b hb
    refine h.expands.notMem (hOwned b ?_) (hOut b hb)
    rcases hb with hb | hb
    · simp [hb]
    · simp [hb]
  refine ⟨h.same, ?_, ?_, ?_, ?_, h.alloc, ?_, h.sound, ?_⟩
  · intro b hb
    exact h.nodes b fun hIn => hb (by simp [hIn])
  · intro b hb
    simp only [List.mem_append] at hb
    rcases hb with hb | hb | hb
    · exact Or.inl (by simp [hb])
    · rcases h.fresh b hb with hOld | hFree
      · exact Or.inl (by simp [hOld])
      · exact Or.inr hFree
    · exact Or.inl (by simp [hb])
  · intro b hb
    simp only [List.mem_append] at hb ⊢
    rcases hb with hb | hb | hb
    · exact Or.inl hb
    · exact Or.inr (Or.inl (h.keeps hb))
    · exact Or.inr (Or.inr hb)
  · rw [List.nodup_append, List.nodup_append] at hNodup ⊢
    obtain ⟨hL, ⟨-, hR, -⟩, hLR⟩ := hNodup
    refine ⟨hL, ⟨h.nodup, hR, ?_⟩, ?_⟩
    · rintro b hb b' hb' rfl
      exact hOut' b (Or.inr hb') hb
    · rintro b hb b' hb' rfl
      rcases List.mem_append.mp hb' with hIn | hIn
      · exact hOut' b (Or.inl hb) hIn
      · exact hLR b hb b (List.mem_append.mpr (Or.inr hIn)) rfl
  · intro b hb
    simp only [List.mem_append] at hb
    rcases hb with hb | hb | hb
    · exact h.expands.allocated (hOwned b (by simp [hb]))
    · exact h.owned b hb
    · exact h.expands.allocated (hOwned b (by simp [hb]))
  · intro hSound rel hFree
    rcases h.used hSound rel hFree with hStill | hNode
    · exact Or.inl hStill
    · exact Or.inr (by simp [hNode])

end Grew

--
-- Taking metadata blocks
--

/-- Fewer than `n` blocks are free. -/
def Exhausts (n : Nat) (a : Alloc) : Prop :=
  a.freeCount.toNat < n

instance (n : Nat) (a : Alloc) : Decidable (Exhausts n a) := inferInstanceAs (Decidable (_ < _))

theorem Exhausts.succ {n : Nat} {a : Alloc} (h : Exhausts n a.allocBlockMeta.2)
    (hSound : a.Healthy) : Exhausts (n + 1) a := by
  have hLess := hSound.freeCount_allocBlockMeta
  unfold Exhausts at *
  omega

theorem Exhausts.mono {n m : Nat} {a : Alloc} (h : Exhausts n a) (hnm : n ≤ m) : Exhausts m a := by
  unfold Exhausts at *
  omega

theorem exhausts_of_fail {n : Nat} {a : Alloc} (hn : 0 < n) (hSound : a.Healthy)
    (h : a.allocBlockMeta.1 = 0) : Exhausts n a := by
  have hNone := hSound.allocBlockMeta_eq_zero_iff.mp h
  unfold Exhausts
  omega

theorem allocBlockMeta_took (a : Alloc) : Alloc.Took a a.allocBlockMeta :=
  Alloc.allocBlockFrom_spec a a.freeCount

theorem isFree_of_took {a : Alloc} {r : Nat × Alloc} (h : Alloc.Took a r) {n : Nat}
    (hFree : r.2.isFree n = true) : a.isFree n = true := by
  by_cases hn : n = 0
  · subst hn
    exact h.zero hFree
  · rw [h.frame n hn, Bool.and_eq_true] at hFree
    exact hFree.1

/-- A free block stays free or is the one that was taken. -/
theorem still_of_took {a : Alloc} {r : Nat × Alloc} (h : Alloc.Took a r) (hSound : a.Healthy)
    {n : Nat} (hFree : a.isFree n = true) : r.2.isFree n = true ∨ n = r.1 := by
  have hn : n ≠ 0 := by
    rintro rfl
    rw [hSound.zero] at hFree
    cases hFree
  by_cases hEq : n = r.1
  · exact Or.inr hEq
  · rw [h.frame n hn, hFree]
    simp [hEq]

/-- After a failed allocation the free blocks are still free. -/
theorem still_of_failed {a : Alloc} {r : Nat × Alloc} (h : Alloc.Took a r) (hFail : r.1 = 0)
    (hSound : a.Healthy) {n : Nat} (hFree : a.isFree n = true) : r.2.isFree n = true := by
  rcases still_of_took h hSound hFree with hStill | hEq
  · exact hStill
  · rw [hEq, hFail, hSound.zero] at hFree
    cases hFree

theorem allocBlockMeta_lt {a : Alloc} (hSound : a.Healthy) (h : a.allocBlockMeta.1 ≠ 0) :
    a.allocBlockMeta.1 < a.blockCount := by
  have hCount : a.freeCount ≠ 0#64 := by
    intro hNone
    refine h ?_
    unfold Alloc.allocBlockMeta
    rw [hNone, Alloc.allocBlockFrom_zero]
  exact (hSound.consistent.allocBlockFrom_takes hSound.zero hCount hCount).inside

theorem taken_of_took {a : Alloc} {r : Nat × Alloc} (h : Alloc.Took a r) (hNe : r.1 ≠ 0) :
    r.2.isFree r.1 = false := by
  rw [h.frame r.1 hNe]
  simp

--
-- The leaf
--

/-- The two ranges share a file block. -/
def Extent.overlaps (a b : Extent) : Prop := a.offset < b.stop ∧ b.offset < a.stop

instance (a b : Extent) : Decidable (a.overlaps b) := inferInstanceAs (Decidable (_ ∧ _))

theorem exists_of_overlapScan {ext : Extent} : ∀ {extents : List Extent},
    overlapScan ext extents = true → ∃ e ∈ extents, e.overlaps ext
  | [], h => by cases h
  | e :: rest, h => by
    unfold overlapScan at h
    split at h
    · cases h
    · split at h
      · rename_i hAfter hBefore
        exact ⟨e, List.mem_cons_self, Nat.lt_of_not_le hAfter, hBefore⟩
      · obtain ⟨x, hx, hOver⟩ := exists_of_overlapScan h
        exact ⟨x, List.mem_cons_of_mem _ hx, hOver⟩

/-- An insert that a list refuses meets an extent of the list. -/
theorem insertExtent_error {extents : List Extent} {ext : Extent} {e : Errno}
    (h : insertExtent extents ext = .error e) :
    e = .eexist ∧ ∃ x ∈ extents, x.overlaps ext := by
  unfold insertExtent at h
  dsimp only at h
  split at h
  · rename_i hScan
    obtain ⟨x, hx, hOver⟩ := exists_of_overlapScan hScan
    cases h
    exact ⟨rfl, x, List.mem_of_mem_drop hx, hOver⟩
  · split at h <;> cases h

/-- An entry of the list after an insert is an old one, or holds the new range: it
starts where the new range or an old entry did, and ends likewise. -/
theorem mem_of_insertExtent {extents extents' : List Extent} {ext e : Extent} {added : Bool}
    (h : insertExtent extents ext = .ok (added, extents')) (he : e ∈ extents') :
    e ∈ extents ∨ (0 < ext.len → 0 < e.len) ∧
      (e.offset = ext.offset ∨ ∃ x ∈ extents, e.offset = x.offset ∧ x.stop = ext.offset) ∧
      (e.stop = ext.stop ∨ ∃ x ∈ extents, e.stop = x.stop ∧ x.offset = ext.stop) := by
  obtain ⟨l, r, hSplit, -, -, -, hCases⟩ := insertExtent_cases h
  have hOld : ∀ x, x ∈ l ∨ x ∈ r → x ∈ extents := by
    intro x hx
    rw [hSplit, List.mem_append]
    exact hx
  rcases hCases with ⟨l', left, rfl, hAdj, -, rfl⟩ | ⟨right, r', rfl, hAdj, -, rfl⟩ |
    ⟨-, rfl⟩
  · rw [adjoins_iff] at hAdj
    simp only [List.mem_append, List.mem_cons] at he
    rcases he with he | rfl | he
    · exact Or.inl (hOld e (Or.inl (by simp [he])))
    · refine Or.inr ⟨fun hLen => ?_, Or.inr ⟨left, hOld left (Or.inl (by simp)), rfl, hAdj.1⟩,
        Or.inl ?_⟩
      · show 0 < left.len + ext.len
        omega
      · show left.offset + (left.len + ext.len) = ext.offset + ext.len
        omega
    · exact Or.inl (hOld e (Or.inr he))
  · rw [adjoins_iff] at hAdj
    simp only [List.mem_append, List.mem_cons] at he
    rcases he with he | rfl | he
    · exact Or.inl (hOld e (Or.inl he))
    · refine Or.inr ⟨fun hLen => ?_, Or.inl rfl, Or.inr ⟨right, hOld right (Or.inr (by simp)), ?_,
        hAdj.1.symm⟩⟩
      · show 0 < right.len + ext.len
        omega
      · show ext.offset + (right.len + ext.len) = right.offset + right.len
        omega
    · exact Or.inl (hOld e (Or.inr (by simp [he])))
  · simp only [List.mem_append, List.mem_cons] at he
    rcases he with he | rfl | he
    · exact Or.inl (hOld e (Or.inl he))
    · exact Or.inr ⟨id, Or.inl rfl, Or.inl rfl⟩
    · exact Or.inl (hOld e (Or.inr he))

theorem length_of_insertExtent {extents extents' : List Extent} {ext : Extent} {added : Bool}
    (h : insertExtent extents ext = .ok (added, extents')) :
    extents'.length = extents.length + if added then 1 else 0 := by
  obtain ⟨l, r, hSplit, -, -, -, hCases⟩ := insertExtent_cases h
  rw [hSplit]
  rcases hCases with ⟨l', left, rfl, -, rfl, rfl⟩ | ⟨right, r', rfl, -, rfl, rfl⟩ |
    ⟨rfl, rfl⟩
  · simp only [List.length_append, List.length_cons, List.length_nil, Bool.false_eq_true,
      if_false]
    omega
  · simp only [List.length_append, List.length_cons, Bool.false_eq_true, if_false]
    omega
  · simp only [List.length_append, List.length_cons, if_true]
    omega

theorem LeafOk.insert {lo hi : Nat} {extents extents' : List Extent} {ext : Extent} {added : Bool}
    (h : LeafOk lo hi extents) (hRoom : extents.length < leafFanout) (hLen : 0 < ext.len)
    (hLo : lo ≤ ext.offset) (hHi : ext.offset < hi)
    (hIns : insertExtent extents ext = .ok (added, extents')) : LeafOk lo hi extents' := by
  refine ⟨ordered_insertExtent h.ordered hLen hIns, ?_, ?_, ?_⟩
  · intro e he
    rcases mem_of_insertExtent hIns he with hOld | ⟨hPos, -, -⟩
    · exact h.pos e hOld
    · exact hPos hLen
  · intro e he
    rcases mem_of_insertExtent hIns he with hOld | ⟨-, hEq | ⟨x, hx, hEq, -⟩, -⟩
    · exact h.range e hOld
    · omega
    · have hIn := h.range x hx
      omega
  · rw [length_of_insertExtent hIns]
    split <;> omega

--
-- Splitting on the way down
--

/-- The separators of `c'` are those of `c` and the key that the leaf `l` splits at. -/
structure SepsFrom (l : List Extent) (c c' : Content) : Prop where
  source : ∀ k ∈ c'.seps, k ∈ c.seps ∨ SplitsAt l k
  keeps  : c.seps ⊆ c'.seps

theorem SepsFrom.refl (l : List Extent) (c : Content) : SepsFrom l c c :=
  ⟨fun _ hk => Or.inl hk, List.Subset.refl _⟩

/-- Two splits on one way down: at the second the leaf is the same, or not full. -/
theorem SepsFrom.trans {l l' : List Extent} {c c' c'' : Content} (h : SepsFrom l c c')
    (hLeaf : l' = l ∨ l'.length < leafFanout ∧ leafFanout ≤ l.length) (h' : SepsFrom l' c' c'') :
    SepsFrom l c c'' := by
  refine ⟨?_, List.Subset.trans h.keeps h'.keeps⟩
  intro k hk
  rcases h'.source k hk with hOld | hSplit
  · exact h.source k hOld
  · rcases hLeaf with rfl | ⟨hShort, -⟩
    · exact Or.inr hSplit
    · have hFull := hSplit.1
      omega

theorem SepsFrom.frame {l : List Extent} {c c' : Content} (h : SepsFrom l c c') (A B : Content) :
    SepsFrom l (A ++ (c ++ B)) (A ++ (c' ++ B)) := by
  constructor
  · intro k hk
    simp only [Content.seps_append, List.mem_append] at hk ⊢
    rcases hk with hk | hk | hk
    · exact Or.inl (Or.inl hk)
    · rcases h.source k hk with hOld | hSplit
      · exact Or.inl (Or.inr (Or.inl hOld))
      · exact Or.inr hSplit
    · exact Or.inl (Or.inr (Or.inr hk))
  · intro k hk
    simp only [Content.seps_append, List.mem_append] at hk ⊢
    rcases hk with hk | hk | hk
    · exact Or.inl hk
    · exact Or.inr (Or.inl (h.keeps hk))
    · exact Or.inr (Or.inr hk)

/-- The internal node at `block` and its children, with `kids` as their content. -/
structure Inner (f : File) (d block lo hi : Nat) (idx : List IdxEntry) (tr : Nat)
    (kids : Content) : Prop where
  node     : f.nodes block = some (.internal idx tr)
  keys     : idx.length ≤ idxKeys
  children : Kids (Child f.nodes d) tr idx lo hi kids
  nodup    : (block :: kids.blocks).Nodup
  owned    : ∀ b ∈ block :: kids.blocks, Allocated f b

/-- The child that a key routes to. -/
theorem Inner.focus {f : File} {d block lo hi tr key : Nat} {idx : List IdxEntry} {kids : Content}
    (h : Inner f d block lo hi idx tr kids) (hLo : lo ≤ key) (hHi : key < hi) :
    ∃ lo' hi' A x B, kids = A ++ (x ++ B) ∧
      Child f.nodes d (childAt idx tr (findChild idx key)) lo' hi' x ∧
      Hole (Child f.nodes d) idx tr key lo hi lo' hi' A B :=
  h.children.focus (fun _ _ _ _ hc => hc.lt) (fun _ _ _ _ hc => hc.seps)
    (fun _ _ _ _ hc => hc.2.offsets) hHi hLo

/-- How the way to a leaf gets room at its top, with the keys of the node above: it has some, or
its first node is split. -/
inductive Opens (f f1 : File) (n : Nat) : Nat → List Nat → List Nat → Prop
  | room {s : Nat} {rest : List Nat} : 0 < s → f1 = f → Opens f f1 n n (s :: rest) (s :: rest)
  | split {s : Nat} {rest : List Nat} : 2 ≤ s → f.alloc.allocBlockMeta.1 ≠ 0 →
      f1.alloc = f.alloc.allocBlockMeta.2 → Opens f f1 n (n + 1) (0 :: rest) (s :: rest)

theorem Opens.alloc {f f1 : File} {n n1 : Nat} {s s1 : List Nat} (h : Opens f f1 n n1 s s1) :
    f1.alloc = f.alloc ∨ f1.alloc = f.alloc.allocBlockMeta.2 := by
  cases h with
  | room _ hSame => exact Or.inl (congrArg _ hSame)
  | split _ _ hNext => exact Or.inr hNext

/-- The first node on a way and its room. -/
theorem slots_eq {nodes : Nodes} {block : Nat} {node : Node} (key fuel : Nat)
    (h : nodes block = some node) :
    ∃ rest, slots nodes key (fuel + 1) block = (node.capacity - node.numKeys) :: rest := by
  rw [slots, h]
  cases node with
  | leaf extents => exact ⟨_, rfl⟩
  | internal idx tr => exact ⟨_, rfl⟩

/-- What `btree_maybe_split_child` does to an internal node with room. -/
structure SplitDone (f f1 : File) (d block lo hi key n : Nat) (l : List Extent) (way : List Nat)
    (kids : Content) (idx1 : List IdxEntry) (tr1 : Nat) (kids1 : Content) : Prop where
  inner : Inner f1 d block lo hi idx1 tr1 kids1
  exts  : kids1.exts = kids.exts
  seps  : SepsFrom l kids kids1
  fresh : (∀ k ∈ kids1.seps, k ∈ kids.seps) ∨ d = 0 ∧ ∃ rest, way = 0 :: rest
  route : routeLeaf f1.nodes key (d + 1) (childAt idx1 tr1 (findChild idx1 key)) = l ∨
    (routeLeaf f1.nodes key (d + 1) (childAt idx1 tr1 (findChild idx1 key))).length < leafFanout ∧
      leafFanout ≤ l.length
  grew  : Grew f f1 (block :: kids.blocks) (block :: kids1.blocks)
  room  : ∀ node, f1.nodes (childAt idx1 tr1 (findChild idx1 key)) = some node →
    node.numKeys < node.capacity
  opens : Opens f f1 n idx1.length way
    (slots f1.nodes key (d + 1) (childAt idx1 tr1 (findChild idx1 key)))
  root  : f1.root = f.root

theorem not_allocated_of_free {f : File} {rel : Nat} (hFree : f.alloc.isFree rel = true) :
    ¬ Allocated f (f.dataStart + rel) := by
  rintro ⟨rel', -, hEq, hTaken⟩
  have hSame : rel = rel' := by omega
  rw [hSame, hTaken] at hFree
  exact absurd hFree (by decide)

theorem maybeSplitChild_spec {f : File} {d block lo hi tr key : Nat} {idx : List IdxEntry}
    {kids : Content} (h : Inner f d block lo hi idx tr kids) (hRoom : idx.length < idxKeys)
    (hLo : lo ≤ key) (hHi : key < hi) :
    (maybeSplitChild f block idx tr (findChild idx key) =
        (some .enospc, { f with alloc := f.alloc.allocBlockMeta.2 }) ∧
      f.alloc.allocBlockMeta.1 = 0 ∧
      ∃ rest, slots f.nodes key (d + 1) (childAt idx tr (findChild idx key)) = 0 :: rest) ∨
    ∃ f1 idx1 tr1 kids1, maybeSplitChild f block idx tr (findChild idx key) = (none, f1) ∧
      SplitDone f f1 d block lo hi key idx.length
        (routeLeaf f.nodes key (d + 1) (childAt idx tr (findChild idx key)))
        (slots f.nodes key (d + 1) (childAt idx tr (findChild idx key))) kids idx1 tr1 kids1 := by
  obtain ⟨lo', hi', A, x, B, hEq, hChild, hHole⟩ := h.focus hLo hHi
  obtain ⟨node, hNode, hRead⟩ := hChild.2.node
  obtain ⟨rest, hSlots⟩ := slots_eq key d hNode
  unfold maybeSplitChild
  dsimp only
  rw [hRead]
  dsimp only
  by_cases hFull : node.numKeys < node.capacity
  · -- nothing to split
    rw [if_pos hFull]
    refine Or.inr ⟨f, idx, tr, kids, rfl, h, rfl, SepsFrom.refl _ _, Or.inl fun _ hk => hk,
      Or.inl rfl, Grew.refl h.nodup h.owned, ?_, ?_, rfl⟩
    · intro node' hNode'
      rw [hNode] at hNode'
      obtain rfl := Option.some.inj hNode'
      exact hFull
    · rw [hSlots]
      exact Opens.room (by omega) rfl
  · rw [if_neg hFull]
    have hTook := allocBlockMeta_took f.alloc
    rcases hAlloc : f.alloc.allocBlockMeta with ⟨rel, a⟩
    rw [hAlloc] at hTook
    dsimp only
    by_cases hZero : rel = 0
    · rw [if_pos hZero]
      rw [Nat.sub_eq_zero_of_le (Nat.le_of_not_lt hFull)] at hSlots
      exact Or.inl ⟨rfl, hZero, rest, hSlots⟩
    · rw [if_neg hZero]
      rcases hSplit : node.split with ⟨left, sibNode, s⟩
      dsimp only
      have hFree : f.alloc.isFree rel = true := hTook.wasFree hZero
      have hSibOut : f.dataStart + rel ∉ block :: kids.blocks := fun hIn =>
        not_allocated_of_free hFree (h.owned _ hIn)
      have hChildIn : childAt idx tr (findChild idx key) ∈ kids.blocks := by
        rw [hEq]
        simp [hChild.2.block_mem]
      generalize hCb : childAt idx tr (findChild idx key) = child at *
      have hBlockOut : block ∉ kids.blocks := (List.nodup_cons.mp h.nodup).1
      have hcb : child ≠ block := fun hBad => hBlockOut (hBad ▸ hChildIn)
      have hcs : child ≠ f.dataStart + rel := fun hBad =>
        hSibOut (hBad ▸ List.mem_cons_of_mem _ hChildIn)
      have hsb : f.dataStart + rel ≠ block := fun hBad =>
        hSibOut (hBad ▸ List.mem_cons_self)
      -- the three commits
      generalize hf1 : ((({ f with alloc := a } : File).commitNode child left).commitNode
        (f.dataStart + rel) sibNode).commitNode block
        (absorbSplit idx tr (findChild idx key) (f.dataStart + rel) s) = f1
      have hNodes : f1.nodes = Function.update (Function.update (Function.update f.nodes child
          (some left)) (f.dataStart + rel) (some sibNode)) block
          (some (absorbSplit idx tr (findChild idx key) (f.dataStart + rel) s)) := by
        rw [← hf1]
        rfl
      have hAt : f1.nodes block =
          some (absorbSplit idx tr (findChild idx key) (f.dataStart + rel) s) := by
        rw [hNodes, Function.update_self]
      have hAtSib : f1.nodes (f.dataStart + rel) = some sibNode := by
        rw [hNodes, Function.update_of_ne hsb, Function.update_self]
      have hAtChild : f1.nodes child = some left := by
        rw [hNodes, Function.update_of_ne hcb, Function.update_of_ne hcs, Function.update_self]
      have hElse : ∀ b, b ≠ block → b ≠ f.dataStart + rel → b ≠ child →
          f1.nodes b = f.nodes b := by
        intro b h1 h2 h3
        rw [hNodes, Function.update_of_ne h1, Function.update_of_ne h2, Function.update_of_ne h3]
      have hKidsNodup : kids.blocks.Nodup := (List.nodup_cons.mp h.nodup).2
      rw [hEq] at hKidsNodup hBlockOut hSibOut hChildIn
      simp only [Content.blocks_append] at hKidsNodup hBlockOut hSibOut hChildIn
      have hxNodup : x.blocks.Nodup := by
        rw [List.nodup_append, List.nodup_append] at hKidsNodup
        exact hKidsNodup.2.1.1
      have hxOut : ∀ b ∈ A.blocks ++ B.blocks, b ∉ x.blocks := by
        intro b hb hIn
        rw [List.nodup_append, List.nodup_append] at hKidsNodup
        obtain ⟨-, ⟨-, -, hRight⟩, hLeft⟩ := hKidsNodup
        rcases List.mem_append.mp hb with hb | hb
        · exact hLeft b hb b (List.mem_append.mpr (Or.inl hIn)) rfl
        · exact hRight b hIn b hb rfl
      -- the halves
      have hLeftNode : f1.nodes child = some node.split.1 := by
        rw [hSplit]
        exact hAtChild
      have hRightNode : f1.nodes (f.dataStart + rel) = some node.split.2.1 := by
        rw [hSplit]
        exact hAtSib
      have hSame : ∀ b ∈ x.blocks, b ≠ child → f1.nodes b = f.nodes b := by
        intro b hb hne
        refine hElse b ?_ ?_ hne
        · rintro rfl
          exact hBlockOut (by simp [hb])
        · rintro rfl
          exact hSibOut (by simp [hb])
      obtain ⟨⟨x₁, x₂, hHalves⟩, hRoomL, hRoomR⟩ :=
        hChild.2.split hNode hFull (by omega) hLeftNode hRightNode hSame hxNodup
      obtain ⟨hLeafRoute, top, rest, hTop, hOldWay, hNewWay⟩ := hChild.2.route_split hNode hFull
        hLeftNode hRightNode hSame hxNodup hHole.keyLo hHole.keyHi
      rw [hSplit] at hHalves hRoomL hRoomR hLeafRoute hNewWay
      dsimp only at hHalves hRoomL hRoomR hLeafRoute hNewWay
      obtain ⟨idx1, tr1, hAbsorb, hLen1, hKids1, hRoute⟩ := hHole.split (Child f1.nodes d)
        (f.dataStart + rel) s x₁ x₂ hHalves.right.lt
        (by
          intro b lo hi y hy hc
          refine hc.congr fun b' hb' => ?_
          have hIn := hy hb'
          have hNotX := hxOut b' hIn
          refine hElse b' ?_ ?_ ?_
          · rintro rfl
            exact hBlockOut (by
              rcases List.mem_append.mp hIn with hIn | hIn
              · simp [hIn]
              · simp [hIn])
          · rintro rfl
            exact hSibOut (by
              rcases List.mem_append.mp hIn with hIn | hIn
              · simp [hIn]
              · simp [hIn])
          · rintro rfl
            exact hNotX hChild.2.block_mem)
        (by rw [hCb]; exact hHalves.left) hHalves.right
      rw [hCb] at hRoute
      rw [hAbsorb] at hAt
      have hPerm : (block :: (A ++ (x₁ ++ (Content.sep s ++ x₂) ++ B)).blocks).Perm
          ((f.dataStart + rel) :: block :: kids.blocks) := by
        rw [hEq]
        simp only [Content.blocks_append, Content.blocks_sep, List.nil_append]
        refine List.Perm.trans (List.Perm.cons _ ?_) (List.Perm.swap _ _ _)
        refine List.Perm.trans (List.Perm.append_left _ (hHalves.blocks.append_right _)) ?_
        exact List.perm_middle
      have hOwned : ∀ b ∈ block :: (A ++ (x₁ ++ (Content.sep s ++ x₂) ++ B)).blocks,
          Allocated f1 b := by
        have hAlloc1 : f1.alloc = a ∧ f1.dataStart = f.dataStart := by
          rw [← hf1]
          exact ⟨rfl, rfl⟩
        intro b hb
        rcases List.mem_cons.mp (hPerm.mem_iff.mp hb) with rfl | hOld
        · exact ⟨rel, hZero, by rw [hAlloc1.2], by rw [hAlloc1.1]; exact taken_of_took hTook hZero⟩
        · obtain ⟨rel', hRel, hEq', hTaken⟩ := h.owned b hOld
          refine ⟨rel', hRel, by rw [hAlloc1.2, hEq'], ?_⟩
          rw [hAlloc1.1]
          by_contra hNow
          have hWas : f.alloc.isFree rel' = true := isFree_of_took hTook (by simpa using hNow)
          rw [hTaken] at hWas
          exact absurd hWas (by decide)
      have hNodup1 : (block :: (A ++ (x₁ ++ (Content.sep s ++ x₂) ++ B)).blocks).Nodup := by
        refine hPerm.nodup_iff.mpr (List.nodup_cons.mpr ⟨?_, h.nodup⟩)
        rw [hEq]
        exact hSibOut
      refine Or.inr ⟨f1, idx1, tr1, A ++ (x₁ ++ (Content.sep s ++ x₂) ++ B), rfl,
        ⟨hAt, by omega, hKids1, hNodup1, hOwned⟩, ?_, ?_, ?_, ?_, ?_, ?_, ?_, ?_⟩
      · rw [hEq]
        simp only [Content.exts_append, Content.exts_sep, List.nil_append, ← hHalves.exts]
      · rw [hEq]
        refine SepsFrom.frame ⟨?_, ?_⟩ A B
        · intro k hk
          rcases hHalves.seps k hk with hOld | ⟨rfl, hSplits⟩
          · exact Or.inl hOld
          · -- the child is the leaf itself
            obtain ⟨-, hLeafNode, -⟩ := hChild.2
            refine Or.inr ?_
            rw [routeLeaf, hLeafNode]
            exact hSplits
        · exact hHalves.keeps
      · by_cases hd : d = 0
        · exact Or.inr ⟨hd, rest, hOldWay⟩
        · refine Or.inl fun k hk => ?_
          rw [hEq]
          simp only [Content.seps_append, Content.seps_sep, List.mem_append] at hk ⊢
          rcases hk with hk | hk | hk
          · exact Or.inl hk
          · rcases hHalves.seps k (by simpa using hk) with hOld | ⟨hLeaf, -⟩
            · exact Or.inr (Or.inl hOld)
            · exact absurd hLeaf hd
          · exact Or.inr (Or.inr hk)
      · rw [hRoute]
        exact hLeafRoute
      · refine ⟨?_, ?_, ?_, ?_, hNodup1, ?_, hOwned, ?_, ?_⟩
        · rw [← hf1]
          exact ⟨rfl, rfl, rfl, rfl, rfl⟩
        · intro b hb
          rw [hPerm.mem_iff, List.mem_cons, List.mem_cons, hEq] at hb
          refine hElse b (fun hBad => hb (Or.inr (Or.inl hBad))) (fun hBad => hb (Or.inl hBad)) ?_
          rintro rfl
          exact hb (Or.inr (Or.inr hChildIn))
        · intro b hb
          rcases List.mem_cons.mp (hPerm.mem_iff.mp hb) with rfl | hOld
          · exact Or.inr ⟨rel, hZero, rfl, hFree⟩
          · exact Or.inl hOld
        · intro b hb
          exact hPerm.mem_iff.mpr (List.mem_cons_of_mem _ hb)
        · intro r hr
          have hAlloc1 : f1.alloc = a := by
            rw [← hf1]
            rfl
          rw [hAlloc1] at hr
          exact isFree_of_took hTook hr
        · intro hSound
          have hAlloc1 : f1.alloc = f.alloc.allocBlockMeta.2 := by
            rw [hAlloc, ← hf1]
            rfl
          rw [hAlloc1]
          exact hSound.allocBlockMeta
        · intro hSound r hWas
          have hAlloc1 : f1.alloc = a := by
            rw [← hf1]
            rfl
          rw [hAlloc1]
          rcases still_of_took hTook hSound hWas with hStill | rfl
          · exact Or.inl hStill
          · exact Or.inr (hPerm.mem_iff.mpr List.mem_cons_self)
      · intro node' hNode'
        rw [hRoute] at hNode'
        split at hNode'
        · rw [hAtChild] at hNode'
          obtain rfl := Option.some.inj hNode'
          exact hRoomL
        · rw [hAtSib] at hNode'
          obtain rfl := Option.some.inj hNode'
          exact hRoomR
      · rw [hRoute, hLen1, hOldWay, hNewWay]
        refine Opens.split hTop ?_ ?_
        · rw [hAlloc]
          exact hZero
        · rw [hAlloc, ← hf1]
          rfl
      · rw [← hf1]
        rfl

--
-- The descent
--

/-- The insert changed the extents of one leaf, responsible for `[lo, hi)`, and no
separator lies inside that range. -/
structure LeafChange (bot top : Nat) (c c' : Content) (ext : Extent) (added : Bool)
    (pre mid mid' post : List Extent) (lo hi : Nat) : Prop where
  before : c.exts = pre ++ (mid ++ post)
  after  : c'.exts = pre ++ (mid' ++ post)
  insert : insertExtent mid ext = .ok (added, mid')
  leaf   : LeafOk lo hi mid
  room   : mid.length < leafFanout
  botLe  : bot ≤ lo
  keyLo  : lo ≤ ext.offset
  keyHi  : ext.offset < hi
  leTop  : hi ≤ top
  seps   : ∀ k ∈ c'.seps, k ≤ lo ∨ hi ≤ k
  hiMem  : hi = top ∨ hi ∈ c'.seps

def Placed (bot top : Nat) (c c' : Content) (ext : Extent) (added : Bool) : Prop :=
  ∃ pre mid mid' post lo hi, LeafChange bot top c c' ext added pre mid mid' post lo hi

/-- The change seen from the node above. -/
theorem Placed.frame {P : Nat → Nat → Nat → Content → Prop} {idx : List IdxEntry}
    {tr lo hi lo' hi' : Nat} {A B x x' : Content} {ext : Extent} {added : Bool}
    (h : Placed lo' hi' x x' ext added) (hHole : Hole P idx tr ext.offset lo hi lo' hi' A B) :
    Placed lo hi (A ++ (x ++ B)) (A ++ (x' ++ B)) ext added := by
  obtain ⟨pre, mid, mid', post, l, r, hc⟩ := h
  have hBot := hc.botLe
  have hTop := hc.leTop
  have hLo := hHole.loLe
  have hHi := hHole.hiLe
  refine ⟨A.exts ++ pre, mid, mid', post ++ B.exts, l, r, ?_, ?_, hc.insert, hc.leaf, hc.room,
    by omega, hc.keyLo, hc.keyHi, by omega, ?_, ?_⟩
  · simp only [Content.exts_append, hc.before, List.append_assoc]
  · simp only [Content.exts_append, hc.after, List.append_assoc]
  · intro k hk
    simp only [Content.seps_append, List.mem_append] at hk
    rcases hk with hk | hk | hk
    · have hLe := hHole.sepsA k hk
      omega
    · exact hc.seps k hk
    · have hLe := hHole.sepsB k hk
      omega
  · rcases hc.hiMem with hEq | hIn
    · rcases hHole.hiMem with hTop' | hIn'
      · exact Or.inl (hEq.trans hTop')
      · exact Or.inr (by simp [hEq, hIn'])
    · exact Or.inr (by simp [hIn])

/-- The blocks below the child that a key routes to. -/
theorem Inner.part {f : File} {d block lo hi tr : Nat} {idx : List IdxEntry} {A x B : Content}
    (h : Inner f d block lo hi idx tr (A ++ (x ++ B))) :
    x.blocks.Nodup ∧ ∀ b ∈ x.blocks, Allocated f b := by
  have hNodup := h.nodup
  have hOwned := h.owned
  simp only [Content.blocks_append] at hNodup hOwned
  have hTail := (List.nodup_cons.mp hNodup).2
  rw [List.nodup_append, List.nodup_append] at hTail
  exact ⟨hTail.2.1.1, fun b hb => hOwned b (by simp [hb])⟩

/-- What happens below the child that a key routes to leaves the other children alone. -/
theorem Inner.lift {f f' : File} {d block lo hi tr key lo' hi' : Nat} {idx : List IdxEntry}
    {A x x' B : Content} (h : Inner f d block lo hi idx tr (A ++ (x ++ B))) (hPos : 0 < block)
    (hHole : Hole (Child f.nodes d) idx tr key lo hi lo' hi' A B)
    (hChild : Child f.nodes d (childAt idx tr (findChild idx key)) lo' hi' x)
    (hGrewX : Grew f f' x.blocks x'.blocks)
    (hSub : Sub f'.nodes d (childAt idx tr (findChild idx key)) lo' hi' x') :
    Sub f'.nodes (d + 1) block lo hi
        ⟨(A ++ (x' ++ B)).exts, block :: (A ++ (x' ++ B)).blocks, (A ++ (x' ++ B)).seps⟩ ∧
      Grew f f' (block :: (A ++ (x ++ B)).blocks) (block :: (A ++ (x' ++ B)).blocks) := by
  have hNodup := h.nodup
  have hOwned := h.owned
  simp only [Content.blocks_append] at hNodup hOwned
  have hGrew : Grew f f' ((block :: A.blocks) ++ (x.blocks ++ B.blocks))
      ((block :: A.blocks) ++ (x'.blocks ++ B.blocks)) := hGrewX.frame hNodup hOwned
  have hOutX : ∀ b, b = block ∨ b ∈ A.blocks ++ B.blocks → f'.nodes b = f.nodes b := by
    intro b hb
    refine hGrewX.nodes b (hGrewX.expands.notMem (hOwned b ?_) ?_)
    · rcases hb with rfl | hb
      · exact List.mem_cons_self
      · rcases List.mem_append.mp hb with hb | hb
        · simp [hb]
        · simp [hb]
    · intro hIn
      rw [List.nodup_cons, List.nodup_append, List.nodup_append] at hNodup
      obtain ⟨hHead, -, ⟨-, -, hRight⟩, hLeft⟩ := hNodup
      rcases hb with rfl | hb
      · exact hHead (by simp [hIn])
      · rcases List.mem_append.mp hb with hb | hb
        · exact hLeft b hb b (List.mem_append.mpr (Or.inl hIn)) rfl
        · exact hRight b hIn b hb rfl
  have hKids' : Kids (Child f'.nodes d) tr idx lo hi (A ++ (x' ++ B)) := by
    refine hHole.fill (Child f'.nodes d) x' ?_ ⟨hChild.1, hSub⟩
    intro b lo hi y hy hc
    exact hc.congr fun b' hb' => hOutX b' (Or.inr (hy hb'))
  refine ⟨⟨hPos, idx, tr, A ++ (x' ++ B), ?_, h.keys, rfl, hKids'⟩, hGrew⟩
  rw [hOutX block (Or.inl rfl), h.node]

/-- What the descent into a subtree leaves, with its return code. -/
structure Descended (f : File) (ext : Extent) (d block lo hi : Nat) (c : Content)
    (code : Option Errno) (added : Bool) (f' : File) (c' : Content) : Prop where
  sub    : Sub f'.nodes d block lo hi c'
  grew   : Grew f f' c.blocks c'.blocks
  seps   : SepsFrom (routeLeaf f.nodes ext.offset (d + 1) block) c c'
  done   : code = none → Placed lo hi c c' ext added
  same   : code ≠ none → c'.exts = c.exts
  codes  : code = none ∨ code = some .eexist ∨ code = some .enospc
  clash  : code = some .eexist → ∃ e ∈ c.exts, e.overlaps ext
  nospc  : code = some .enospc → f.alloc.Healthy → Exhausts d f.alloc
  root   : f'.root = f.root

theorem grew_commitNode {f : File} {block : Nat} {bl : List Nat} (node : Node) (hIn : block ∈ bl)
    (hNodup : bl.Nodup) (hOwned : ∀ b ∈ bl, Allocated f b) :
    Grew f (f.commitNode block node) bl bl := by
  refine ⟨⟨rfl, rfl, rfl, rfl, rfl⟩, ?_, fun _ hb => Or.inl hb, List.Subset.refl _, hNodup,
    fun _ h => h, hOwned, fun h => h, fun _ _ h => Or.inl h⟩
  intro b hb
  have hne : b ≠ block := by
    rintro rfl
    exact hb hIn
  exact Function.update_of_ne hne _ _

theorem descendInsert_leaf {f : File} {ext : Extent} {block lo hi : Nat} {c : Content} (fuel : Nat)
    (h : Sub f.nodes 0 block lo hi c)
    (hRoom : ∀ node, f.nodes block = some node → node.numKeys < node.capacity)
    (hLen : 0 < ext.len) (hLo : lo ≤ ext.offset) (hHi : ext.offset < hi)
    (hOwned : ∀ b ∈ c.blocks, Allocated f b) :
    ∃ code added f' c', descendInsert ext (fuel + 1) f block = some (code, added, f') ∧
      Descended f ext 0 block lo hi c code added f' c' := by
  obtain ⟨hPos, hNode, hBlocks, hSeps, hLeaf⟩ := h
  have hFit : c.exts.length < leafFanout := hRoom _ hNode
  have hNodup : c.blocks.Nodup := by
    rw [hBlocks]
    exact List.nodup_singleton _
  unfold descendInsert
  rw [readNode_of_le hNode hLeaf.fanout]
  dsimp only
  cases hIns : insertExtent c.exts ext with
  | error e =>
    obtain ⟨rfl, hOver⟩ := insertExtent_error hIns
    refine ⟨_, _, f, c, rfl, ⟨hPos, hNode, hBlocks, hSeps, hLeaf⟩, Grew.refl hNodup hOwned,
      SepsFrom.refl _ _, fun hEq => absurd hEq (by simp), fun _ => rfl, Or.inr (Or.inl rfl),
      fun _ => hOver, fun hEq => absurd hEq (by simp), rfl⟩
  | ok r =>
    obtain ⟨added, extents'⟩ := r
    refine ⟨_, _, _, ⟨extents', c.blocks, c.seps⟩, rfl, ⟨hPos, ?_, hBlocks, hSeps,
      hLeaf.insert hFit hLen hLo hHi hIns⟩, ?_, ⟨fun _ hk => Or.inl hk, List.Subset.refl _⟩, ?_,
      fun hEq => absurd rfl hEq, Or.inl rfl, fun hEq => absurd hEq (by simp),
      fun hEq => absurd hEq (by simp), rfl⟩
    · exact Function.update_self _ _ _
    · exact grew_commitNode _ (by simp [hBlocks]) hNodup hOwned
    · intro _
      refine ⟨[], c.exts, extents', [], lo, hi, by simp, by simp, hIns, hLeaf, hFit,
        Nat.le_refl _, hLo, hHi, Nat.le_refl _, ?_, Or.inl rfl⟩
      intro k hk
      rw [show (Content.mk extents' c.blocks c.seps).seps = c.seps from rfl, hSeps] at hk
      exact absurd hk List.not_mem_nil

/-- The descent keeps the shape of a subtree whose root has room. -/
theorem descendInsert_spec {ext : Extent} (hLen : 0 < ext.len) : ∀ (d fuel : Nat) {f : File}
    {block lo hi : Nat} {c : Content}, Sub f.nodes d block lo hi c →
    (∀ node, f.nodes block = some node → node.numKeys < node.capacity) →
    lo ≤ ext.offset → ext.offset < hi → c.blocks.Nodup → (∀ b ∈ c.blocks, Allocated f b) →
    ∃ code added f' c', descendInsert ext (d + 1 + fuel) f block = some (code, added, f') ∧
      Descended f ext d block lo hi c code added f' c'
  | 0, fuel, f, block, lo, hi, c, h, hRoom, hLo, hHi, _, hOwned => by
    rw [Nat.zero_add, Nat.add_comm]
    exact descendInsert_leaf fuel h hRoom hLen hLo hHi hOwned
  | d + 1, fuel, f, block, lo, hi, c, h, hRoom, hLo, hHi, hNodup, hOwned => by
    obtain ⟨hPos, idx, tr, kids, hNode, hKeys, rfl, hKids⟩ := h
    have hInner : Inner f d block lo hi idx tr kids := ⟨hNode, hKeys, hKids, hNodup, hOwned⟩
    have hKeysLt : idx.length < idxKeys := hRoom _ hNode
    rw [show d + 1 + 1 + fuel = (d + 1 + fuel) + 1 by omega]
    unfold descendInsert
    rw [readNode_of_le hNode hKeys]
    dsimp only
    rcases maybeSplitChild_spec hInner hKeysLt hLo hHi with ⟨hEq, hFail, -⟩ |
      ⟨f1, idx1, tr1, kids1, hEq, hDone⟩
    · rw [hEq]
      dsimp only
      have hTook := allocBlockMeta_took f.alloc
      refine ⟨_, _, _, ⟨kids.exts, block :: kids.blocks, kids.seps⟩, rfl,
        ⟨hPos, idx, tr, kids, hNode, hKeys, rfl, hKids⟩, ?_, SepsFrom.refl _ _,
        fun hEq => absurd hEq (by simp), fun _ => rfl, Or.inr (Or.inr rfl),
        fun hEq => absurd hEq (by simp), fun _ hSound => exhausts_of_fail (by omega) hSound hFail,
        rfl⟩
      refine ⟨⟨rfl, rfl, rfl, rfl, rfl⟩, fun _ _ => rfl, fun _ hb => Or.inl hb,
        List.Subset.refl _, hNodup, fun _ hr => isFree_of_took hTook hr, ?_,
        fun hSound => hSound.allocBlockMeta,
        fun hSound _ hWas => Or.inl (still_of_failed hTook hFail hSound hWas)⟩
      intro b hb
      obtain ⟨rel, hRel, hEq', hTaken⟩ := hOwned b hb
      refine ⟨rel, hRel, hEq', ?_⟩
      by_contra hNow
      have hWas : f.alloc.isFree rel = true := isFree_of_took hTook (by simpa using hNow)
      rw [hTaken] at hWas
      exact absurd hWas (by decide)
    · rw [hEq]
      dsimp only
      rw [hDone.inner.node]
      dsimp only
      obtain ⟨lo', hi', A, x, B, hKids1, hChild, hHole⟩ := hDone.inner.focus hLo hHi
      rw [if_neg (Nat.ne_of_gt hChild.2.pos)]
      have hInner1 := hDone.inner
      rw [hKids1] at hInner1
      obtain ⟨hxNodup, hxOwned⟩ := hInner1.part
      obtain ⟨code, added, f', x', hRun, hDesc⟩ := descendInsert_spec hLen d fuel hChild.2 hDone.room
        hHole.keyLo hHole.keyHi hxNodup hxOwned
      obtain ⟨hSub', hGrew'⟩ := hInner1.lift hPos hHole hChild hDesc.grew hDesc.sub
      rw [← hKids1] at hGrew'
      have hSepsIn : SepsFrom (routeLeaf f1.nodes ext.offset (d + 1)
          (childAt idx1 tr1 (findChild idx1 ext.offset))) kids1 (A ++ (x' ++ B)) := by
        rw [hKids1]
        exact hDesc.seps.frame A B
      have hSeps := hDone.seps.trans hDone.route hSepsIn
      have hExts : kids1.exts = kids.exts := hDone.exts
      refine ⟨code, added, f', ⟨(A ++ (x' ++ B)).exts, block :: (A ++ (x' ++ B)).blocks,
        (A ++ (x' ++ B)).seps⟩, ?_, hSub', hDone.grew.trans hGrew', ?_, ?_, ?_, hDesc.codes, ?_, ?_,
        hDesc.root.trans hDone.root⟩
      · rw [← hRun]
      · rw [routeLeaf, hNode]
        exact ⟨hSeps.source, hSeps.keeps⟩
      · intro hCode
        have hPlaced := (hDesc.done hCode).frame hHole
        rw [← hKids1] at hPlaced
        obtain ⟨pre, mid, mid', post, l, r, hc⟩ := hPlaced
        exact ⟨pre, mid, mid', post, l, r, hExts ▸ hc.before, hc.after, hc.insert, hc.leaf, hc.room,
          hc.botLe, hc.keyLo, hc.keyHi, hc.leTop, hc.seps, hc.hiMem⟩
      · intro hCode
        show (A ++ (x' ++ B)).exts = kids.exts
        rw [← hExts, hKids1]
        simp only [Content.exts_append, hDesc.same hCode]
      · intro hCode
        obtain ⟨e, he, hOver⟩ := hDesc.clash hCode
        refine ⟨e, ?_, hOver⟩
        show e ∈ kids.exts
        rw [← hExts, hKids1]
        simp [he]
      · intro hCode hSound
        have hEx := hDesc.nospc hCode (hDone.grew.sound hSound)
        rcases hDone.opens.alloc with hSame | hNext
        · rw [hSame] at hEx
          exact hEx.mono (by omega)
        · rw [hNext] at hEx
          exact hEx.succ hSound

--
-- Splitting the root
--

/-- How the way from the root gets room: the root has some, or is split under a new one. -/
inductive RootOpens (f f1 : File) : List Nat → List Nat → Prop
  | room {s : Nat} {rest : List Nat} : 0 < s → f1 = f → RootOpens f f1 (s :: rest) (s :: rest)
  | split {s : Nat} {rest : List Nat} : 2 ≤ s → f.alloc.allocBlockMeta.1 ≠ 0 →
      f.alloc.allocBlockMeta.2.allocBlockMeta.1 ≠ 0 →
      f1.alloc = f.alloc.allocBlockMeta.2.allocBlockMeta.2 →
      RootOpens f f1 (0 :: rest) ((idxKeys - 1) :: s :: rest)

/-- What `btree_ensure_root_room` leaves when it succeeds: a tree whose root has
room, one level higher if the root was split. -/
structure RootReady (f f1 : File) (d d1 lo hi key : Nat) (c c1 : Content) : Prop where
  sub   : Sub f1.nodes d1 f1.root lo hi c1
  exts  : c1.exts = c.exts
  seps  : SepsFrom (routeLeaf f.nodes key (d + 1) f.root) c c1
  route : routeLeaf f1.nodes key (d1 + 1) f1.root = routeLeaf f.nodes key (d + 1) f.root ∨
    (routeLeaf f1.nodes key (d1 + 1) f1.root).length < leafFanout ∧
      leafFanout ≤ (routeLeaf f.nodes key (d + 1) f.root).length
  grew  : Grew f f1 c.blocks c1.blocks
  room  : ∀ node, f1.nodes f1.root = some node → node.numKeys < node.capacity
  depth : (d1 = d ∧ f1.alloc = f.alloc) ∨
    (d1 = d + 1 ∧ f1.alloc = f.alloc.allocBlockMeta.2.allocBlockMeta.2)
  fresh : (∀ k ∈ c1.seps, k ∈ c.seps) ∨
    d = 0 ∧ d1 = 1 ∧ ∃ rest, slots f.nodes key (d + 1) f.root = 0 :: rest
  opens : RootOpens f f1 (slots f.nodes key (d + 1) f.root) (slots f1.nodes key (d1 + 1) f1.root)

/-- The allocator after a failed second allocation. -/
theorem grew_of_alloc {f : File} {bl : List Nat} {a : Alloc} (hNodup : bl.Nodup)
    (hOwned : ∀ b ∈ bl, Allocated f b)
    (hFree : ∀ rel, a.isFree rel = true → f.alloc.isFree rel = true)
    (hStill : f.alloc.Healthy → ∀ rel, f.alloc.isFree rel = true → a.isFree rel = true)
    (hSound : f.alloc.Healthy → a.Healthy) : Grew f { f with alloc := a } bl bl := by
  refine ⟨⟨rfl, rfl, rfl, rfl, rfl⟩, fun _ _ => rfl, fun _ hb => Or.inl hb, List.Subset.refl _,
    hNodup, hFree, ?_, hSound, fun hs rel hWas => Or.inl (hStill hs rel hWas)⟩
  intro b hb
  obtain ⟨rel, hRel, hEq, hTaken⟩ := hOwned b hb
  refine ⟨rel, hRel, hEq, ?_⟩
  by_contra hNow
  have hWas := hFree rel (by simpa using hNow)
  rw [hTaken] at hWas
  exact absurd hWas (by decide)

theorem ensureRootRoom_spec {f : File} {d lo hi key : Nat} {c : Content}
    (h : Sub f.nodes d f.root lo hi c) (hNodup : c.blocks.Nodup)
    (hOwned : ∀ b ∈ c.blocks, Allocated f b) (hLo : lo ≤ key) (hHi : key < hi) :
    (∃ a, ensureRootRoom f = (some .enospc, { f with alloc := a }) ∧
      Grew f { f with alloc := a } c.blocks c.blocks ∧ (f.alloc.Healthy → Exhausts 2 f.alloc) ∧
      a.blockCount = f.alloc.blockCount ∧
      ∃ rest, slots f.nodes key (d + 1) f.root = 0 :: rest) ∨
    ∃ f1 d1 c1, ensureRootRoom f = (none, f1) ∧ RootReady f f1 d d1 lo hi key c c1 := by
  obtain ⟨node, hNode, hRead⟩ := h.node
  obtain ⟨rest, hSlots⟩ := slots_eq key d hNode
  unfold ensureRootRoom
  rw [hRead]
  dsimp only
  by_cases hFull : node.numKeys < node.capacity
  · rw [if_pos hFull]
    refine Or.inr ⟨f, d, c, rfl, h, rfl, SepsFrom.refl _ _, Or.inl rfl, Grew.refl hNodup hOwned, ?_,
      Or.inl ⟨rfl, rfl⟩, Or.inl fun _ hk => hk, ?_⟩
    · intro node' hNode'
      rw [hNode] at hNode'
      obtain rfl := Option.some.inj hNode'
      exact hFull
    · rw [hSlots]
      exact RootOpens.room (by omega) rfl
  · rw [if_neg hFull]
    rw [Nat.sub_eq_zero_of_le (Nat.le_of_not_lt hFull)] at hSlots
    have hTook := allocBlockMeta_took f.alloc
    have hTook2 := allocBlockMeta_took f.alloc.allocBlockMeta.2
    have hSound1 : f.alloc.Healthy → f.alloc.allocBlockMeta.2.Healthy := fun hs => hs.allocBlockMeta
    have hSound2 : f.alloc.Healthy → f.alloc.allocBlockMeta.2.allocBlockMeta.2.Healthy :=
      fun hs => hs.allocBlockMeta.allocBlockMeta
    have hFail1 : f.alloc.allocBlockMeta.1 = 0 → f.alloc.Healthy → Exhausts 2 f.alloc :=
      fun hz hs => exhausts_of_fail (by omega) hs hz
    have hFail2 : f.alloc.allocBlockMeta.2.allocBlockMeta.1 = 0 → f.alloc.Healthy →
        Exhausts 2 f.alloc := fun hz hs =>
      Exhausts.succ (exhausts_of_fail (by omega) hs.allocBlockMeta hz) hs
    have hLt : f.alloc.allocBlockMeta.1 ≠ 0 → f.alloc.Healthy →
        f.alloc.allocBlockMeta.1 < f.alloc.allocBlockMeta.2.allocBlockMeta.2.blockCount := by
      intro hNe hs
      rw [hTook2.blockCount, hTook.blockCount]
      exact allocBlockMeta_lt hs hNe
    rcases hAlloc : f.alloc.allocBlockMeta with ⟨rel, a⟩
    rw [hAlloc] at hTook hTook2 hSound1 hSound2 hFail1 hFail2 hLt
    dsimp only at hTook hTook2 hSound1 hSound2 hFail1 hFail2 hLt ⊢
    by_cases hZero : rel = 0
    · rw [if_pos hZero]
      exact Or.inl ⟨a, rfl, grew_of_alloc hNodup hOwned (fun _ hr => isFree_of_took hTook hr)
        (fun hs _ hWas => still_of_failed hTook hZero hs hWas) hSound1, hFail1 hZero, hTook.blockCount, rest,
        hSlots⟩
    · rw [if_neg hZero]
      have hFree : f.alloc.isFree rel = true := hTook.wasFree hZero
      rcases hAlloc2 : a.allocBlockMeta with ⟨rel2, a2⟩
      rw [hAlloc2] at hTook2 hSound2 hFail2 hLt
      dsimp only at hTook2 hSound2 hFail2 hLt ⊢
      by_cases hZero2 : rel2 = 0
      · -- the block for the sibling goes back
        rw [if_pos hZero2]
        refine Or.inl ⟨a2.freeBlock rel, rfl, grew_of_alloc hNodup hOwned ?_ ?_ ?_, hFail2 hZero2,
          ?_, rest, hSlots⟩
        · intro n hn
          rw [Alloc.isFree_freeBlock, Bool.or_eq_true, decide_eq_true_eq] at hn
          rcases hn with hn | ⟨rfl, -⟩
          · exact isFree_of_took hTook (isFree_of_took hTook2 hn)
          · exact hFree
        · intro hs n hWas
          rw [Alloc.isFree_freeBlock, Bool.or_eq_true, decide_eq_true_eq]
          rcases still_of_took hTook hs hWas with hStill | rfl
          · exact Or.inl (still_of_failed hTook2 hZero2 (hSound1 hs) hStill)
          · exact Or.inr ⟨rfl, hLt hZero hs⟩
        · exact fun hs => (hSound2 hs).freeBlock hZero
        · rw [Alloc.blockCount_freeBlock, hTook2.blockCount, hTook.blockCount]
      · rw [if_neg hZero2]
        rcases hSplit : node.split with ⟨left, sibNode, s⟩
        dsimp only
        have hFree2 : a.isFree rel2 = true := hTook2.wasFree hZero2
        have hTaken : a.isFree rel = false := taken_of_took hTook hZero
        have hRels : rel2 ≠ rel := by
          rintro rfl
          rw [hTaken] at hFree2
          exact absurd hFree2 (by decide)
        have hWasFree2 : f.alloc.isFree rel2 = true := isFree_of_took hTook hFree2
        have hSibOut : f.dataStart + rel ∉ c.blocks := fun hIn =>
          not_allocated_of_free hFree (hOwned _ hIn)
        have hTopOut : f.dataStart + rel2 ∉ c.blocks := fun hIn =>
          not_allocated_of_free hWasFree2 (hOwned _ hIn)
        have hRootIn := h.block_mem
        have hrs : f.root ≠ f.dataStart + rel := fun hBad => hSibOut (hBad ▸ hRootIn)
        have hrt : f.root ≠ f.dataStart + rel2 := fun hBad => hTopOut (hBad ▸ hRootIn)
        have hst : f.dataStart + rel ≠ f.dataStart + rel2 := by omega
        -- the three commits and the new root
        refine Or.inr ?_
        generalize hf1 : ({ (((({ f with alloc := a2 } : File).commitNode f.root left).commitNode
            (f.dataStart + rel) sibNode).commitNode (f.dataStart + rel2)
            (.internal [⟨f.root, s⟩] (f.dataStart + rel))) with
          root := f.dataStart + rel2
          published := f.published ++ [f.dataStart + rel2] } : File) = f1
        have hNodes : f1.nodes = Function.update (Function.update (Function.update f.nodes f.root
            (some left)) (f.dataStart + rel) (some sibNode)) (f.dataStart + rel2)
            (some (.internal [⟨f.root, s⟩] (f.dataStart + rel))) := by
          rw [← hf1]
          rfl
        have hAlloc1 : f1.alloc = a2 ∧ f1.dataStart = f.dataStart ∧
            f1.root = f.dataStart + rel2 := by
          rw [← hf1]
          exact ⟨rfl, rfl, rfl⟩
        have hAtTop : f1.nodes (f.dataStart + rel2) =
            some (.internal [⟨f.root, s⟩] (f.dataStart + rel)) := by
          rw [hNodes, Function.update_self]
        have hAtSib : f1.nodes (f.dataStart + rel) = some sibNode := by
          rw [hNodes, Function.update_of_ne hst, Function.update_self]
        have hAtRoot : f1.nodes f.root = some left := by
          rw [hNodes, Function.update_of_ne hrt, Function.update_of_ne hrs, Function.update_self]
        have hTopChild : childAt [⟨f.root, s⟩] (f.dataStart + rel) (findChild [⟨f.root, s⟩] key) =
            if key < s then f.root else f.dataStart + rel := by
          rw [findChild_cons]
          by_cases hKey : key < s
          · rw [if_pos hKey, if_pos hKey]
            rfl
          · rw [if_neg hKey, if_neg hKey]
            rfl
        have hElse : ∀ b, b ≠ f.dataStart + rel2 → b ≠ f.dataStart + rel → b ≠ f.root →
            f1.nodes b = f.nodes b := by
          intro b h1 h2 h3
          rw [hNodes, Function.update_of_ne h1, Function.update_of_ne h2, Function.update_of_ne h3]
        have hLeftNode : f1.nodes f.root = some node.split.1 := by
          rw [hSplit]
          exact hAtRoot
        have hRightNode : f1.nodes (f.dataStart + rel) = some node.split.2.1 := by
          rw [hSplit]
          exact hAtSib
        have hSame : ∀ b ∈ c.blocks, b ≠ f.root → f1.nodes b = f.nodes b := by
          intro b hb hne
          refine hElse b ?_ ?_ hne
          · rintro rfl
            exact hTopOut hb
          · rintro rfl
            exact hSibOut hb
        obtain ⟨⟨c₁, c₂, hHalves⟩, -, -⟩ :=
          h.split hNode hFull (by omega) hLeftNode hRightNode hSame hNodup
        obtain ⟨hLeafRoute, half, way, hHalf, hOldWay, hNewWay⟩ :=
          h.route_split hNode hFull hLeftNode hRightNode hSame hNodup hLo hHi
        rw [hSplit] at hHalves hLeafRoute hNewWay
        dsimp only at hHalves hLeafRoute hNewWay
        have hPerm : ((f.dataStart + rel2) :: (c₁.blocks ++ c₂.blocks)).Perm
            ((f.dataStart + rel2) :: (f.dataStart + rel) :: c.blocks) := hHalves.blocks.cons _
        have hNodup1 : ((f.dataStart + rel2) :: (c₁.blocks ++ c₂.blocks)).Nodup := by
          refine hPerm.nodup_iff.mpr (List.nodup_cons.mpr ⟨?_, List.nodup_cons.mpr ⟨hSibOut, hNodup⟩⟩)
          rw [List.mem_cons]
          rintro (hBad | hBad)
          · exact hst hBad.symm
          · exact hTopOut hBad
        refine ⟨f1, d + 1, ⟨c₁.exts ++ c₂.exts, (f.dataStart + rel2) :: (c₁.blocks ++ c₂.blocks),
          c₁.seps ++ s :: c₂.seps⟩, ?_, ?_, hHalves.exts, ⟨?_, hHalves.keeps⟩, ?_, ?_, ?_, ?_, ?_, ?_⟩
        · rw [← hf1]
          rfl
        · rw [hAlloc1.2.2]
          refine ⟨by omega, [⟨f.root, s⟩], f.dataStart + rel, c₁ ++ (Content.sep s ++ c₂), hAtTop,
            Nat.le_of_ble_eq_true rfl, ?_, c₁, c₂, rfl, hHalves.left, hHalves.right⟩
          simp
        · intro k hk
          rcases hHalves.seps k hk with hOld | ⟨rfl, hSplits⟩
          · exact Or.inl hOld
          · obtain ⟨-, hLeafNode, -⟩ := h
            refine Or.inr ?_
            rw [routeLeaf, hLeafNode]
            exact hSplits
        · rw [hAlloc1.2.2, routeLeaf, hAtTop]
          dsimp only
          rw [hTopChild]
          exact hLeafRoute
        · refine ⟨?_, ?_, ?_, ?_, hNodup1, ?_, ?_, ?_, ?_⟩
          · rw [← hf1]
            exact ⟨rfl, rfl, rfl, rfl, rfl⟩
          · intro b hb
            rw [hPerm.mem_iff, List.mem_cons, List.mem_cons] at hb
            refine hElse b (fun hBad => hb (Or.inl hBad)) (fun hBad => hb (Or.inr (Or.inl hBad))) ?_
            rintro rfl
            exact hb (Or.inr (Or.inr hRootIn))
          · intro b hb
            rcases List.mem_cons.mp (hPerm.mem_iff.mp hb) with rfl | hb
            · exact Or.inr ⟨rel2, hZero2, rfl, hWasFree2⟩
            · rcases List.mem_cons.mp hb with rfl | hOld
              · exact Or.inr ⟨rel, hZero, rfl, hFree⟩
              · exact Or.inl hOld
          · intro b hb
            exact hPerm.mem_iff.mpr (List.mem_cons_of_mem _ (List.mem_cons_of_mem _ hb))
          · intro r hr
            rw [hAlloc1.1] at hr
            exact isFree_of_took hTook (isFree_of_took hTook2 hr)
          · intro b hb
            rw [hPerm.mem_iff, List.mem_cons, List.mem_cons] at hb
            unfold Allocated
            rw [hAlloc1.1, hAlloc1.2.1]
            rcases hb with rfl | rfl | hOld
            · exact ⟨rel2, hZero2, rfl, taken_of_took hTook2 hZero2⟩
            · refine ⟨rel, hZero, rfl, ?_⟩
              by_contra hNow
              have hWas : a.isFree rel = true := isFree_of_took hTook2 (by simpa using hNow)
              rw [hTaken] at hWas
              exact absurd hWas (by decide)
            · obtain ⟨rel', hRel, hEq', hTaken'⟩ := hOwned b hOld
              refine ⟨rel', hRel, hEq', ?_⟩
              by_contra hNow
              have hWas : f.alloc.isFree rel' = true :=
                isFree_of_took hTook (isFree_of_took hTook2 (by simpa using hNow))
              rw [hTaken'] at hWas
              exact absurd hWas (by decide)
          · rw [hAlloc1.1]
            exact hSound2
          · intro hs r hWas
            rw [hAlloc1.1]
            rcases still_of_took hTook hs hWas with hStill | rfl
            · rcases still_of_took hTook2 (hSound1 hs) hStill with hStill | rfl
              · exact Or.inl hStill
              · exact Or.inr List.mem_cons_self
            · exact Or.inr (hPerm.mem_iff.mpr (List.mem_cons_of_mem _ List.mem_cons_self))
        · intro node' hNode'
          rw [hAlloc1.2.2, hAtTop] at hNode'
          obtain rfl := Option.some.inj hNode'
          show 1 < idxKeys
          decide
        · exact Or.inr ⟨rfl, by rw [hAlloc1.1, hAlloc, hAlloc2]⟩
        · by_cases hd : d = 0
          · exact Or.inr ⟨hd, by omega, way, hOldWay⟩
          · refine Or.inl fun k hk => ?_
            rcases hHalves.seps k hk with hOld | ⟨hLeaf, -⟩
            · exact hOld
            · exact absurd hLeaf hd
        · have hWay : slots f1.nodes key (d + 1 + 1) f1.root = (idxKeys - 1) :: half :: way := by
            rw [hAlloc1.2.2, slots, hAtTop]
            dsimp only
            rw [hTopChild, hNewWay]
            rfl
          rw [hOldWay, hWay]
          refine RootOpens.split hHalf ?_ ?_ ?_
          · rw [hAlloc]
            exact hZero
          · rw [hAlloc, hAlloc2]
            exact hZero2
          · rw [hAlloc1.1, hAlloc, hAlloc2]

end Briefs.Btree
