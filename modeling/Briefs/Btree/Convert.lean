import Briefs.Btree.Delete

/-!
# BrieFS — unwritten conversion

`briefs_convert_unwritten_range` (`extent.c`) and `briefs_btree_convert_unwritten_range`
(`btree.c`): the extent that covers the first block shrinks to the part that was
written, and the unwritten wings are inserted again.

The edit stays inside one leaf, and the wings fill the range that the extent had, so
no separator comes to lie inside an extent. The metadata reservation is left out.

## Results

* `Sub.leaf_focus` — the leaf that a key routes to, and any other leaf in its place.
* `convertUnwrittenRange_spec` — the call keeps the extent state sound.
-/

namespace Briefs.Btree

open Briefs.Journal

--
-- The code
--

/-- The flags without `BRIEFS_EXT_UNWRITTEN`. -/
def clearUnwritten (flags : Nat) : Nat := flags / 2 * 2

/-- What is left of an unwritten extent that covers `start` when `[start, stop)` is
written: the written part and the wings. -/
def convertExtent (start stop : Nat) (e : Extent) : Extent × List Extent :=
  let cend := min stop e.stop
  if start = e.offset ∧ cend = e.stop then
    ({ e with flags := clearUnwritten e.flags }, [])
  else
    ({ offset := start, phys := e.phys + (start - e.offset), len := cend - start,
        flags := clearUnwritten e.flags },
      (if e.offset < start then [{ e with len := start - e.offset }] else []) ++
        if cend < e.stop then
          [{ e with offset := cend, phys := e.phys + (cend - e.offset), len := e.stop - cend }]
        else [])

/-- The loop over the extents of a leaf, and over the inline array: `none` when no
extent covers `start`, `some none` when it is written already. -/
def convertLeaf (start stop : Nat) : List Extent → Option (Option (List Extent × List Extent))
  | [] => none
  | e :: rest =>
    if e.covers start then
      if e.unwritten then
        some (some ((convertExtent start stop e).1 :: rest, (convertExtent start stop e).2))
      else some none
    else if start < e.offset then none
    else
      match convertLeaf start stop rest with
      | none => none
      | some none => some none
      | some (some (out, wings)) => some (some (e :: out, wings))

/-- `btree_descend_to_leaf`: the leaf that `iblock` is routed to. -/
def descendToLeaf (nodes : Nodes) : Nat → Nat → Nat → Option (Except Errno (Nat × List Extent))
  | 0, _, _ => none
  | fuel + 1, block, iblock =>
    match readNode nodes block with
    | none => some (.error .eio)
    | some (.leaf extents) => some (.ok (block, extents))
    | some (.internal idx trailingChild) =>
      let child := childAt idx trailingChild (findChild idx iblock)
      if child = 0 then some (.error .eio) else descendToLeaf nodes fuel child iblock

/-- `briefs_btree_convert_unwritten_range`. -/
def btreeConvert (fuel : Nat) (f : File) (start stop : Nat) : Option (Option Errno × File) :=
  if f.root = 0 then some (some .enoent, f)
  else
    match descendToLeaf f.nodes fuel f.root start with
    | none => none
    | some (.error e) => some (some e, f)
    | some (.ok (block, extents)) =>
      match convertLeaf start stop extents with
      | none => some (some .enoent, f)
      | some none => some (none, f)
      | some (some (out, wings)) => insertAll fuel wings (f.commitNode block (.leaf out))

/-- `briefs_convert_unwritten_range`. -/
def convertUnwrittenRange (fuel : Nat) (f : File) (start stop : Nat) :
    Option (Option Errno × File) :=
  if f.indexed then btreeConvert fuel f start stop
  else
    match convertLeaf start stop (f.inline.take 8) with
    | none => some (some .enoent, f)
    | some none => some (none, f)
    | some (some (out, wings)) => insertAll fuel wings { f with inline := out }

/-- The blocks of `[start, stop)` in the extent that covers `start`, if it is unwritten. -/
def convertLen (start stop : Nat) : List Extent → Nat
  | [] => 0
  | e :: rest =>
    if e.covers start then
      if e.unwritten then min stop e.stop - start else 0
    else if start < e.offset then 0
    else convertLen start stop rest

/-- `converted`: the number of blocks that a call flips to written. -/
def convertedBlocks (fuel : Nat) (f : File) (start stop : Nat) : Nat :=
  if f.indexed then
    if f.root = 0 then 0
    else match descendToLeaf f.nodes fuel f.root start with
      | some (.ok (_, extents)) => convertLen start stop extents
      | _ => 0
  else convertLen start stop (f.inline.take 8)

--
-- One extent
--

section Extent

variable {start stop : Nat} {e : Extent}

/-- The file blocks with their physical blocks: cells without the flags. -/
def places (cs : List (Nat × Nat × Nat)) : List (Nat × Nat) := cs.map fun x => (x.1, x.2.1)

@[simp]
theorem places_append (cs ds : List (Nat × Nat × Nat)) : places (cs ++ ds) = places cs ++ places ds :=
  List.map_append

theorem Owns.ofPlaces {f : File} {bl : List Nat} {cs ds : List (Nat × Nat × Nat)}
    (h : Owns f bl cs) (hPerm : (places cs).Perm (places ds)) : Owns f bl ds := by
  have hPhys : ∀ l : List (Nat × Nat × Nat), l.map (fun x => x.2.1) = (places l).map Prod.snd := by
    intro l
    unfold places
    rw [List.map_map]
    rfl
  have hFrom : ∀ x ∈ ds, ∃ y ∈ cs, y.2.1 = x.2.1 := by
    intro x hx
    have hIn : (x.1, x.2.1) ∈ places cs := hPerm.mem_iff.mpr (List.mem_map_of_mem hx)
    obtain ⟨y, hy, hEq⟩ := List.mem_map.mp hIn
    exact ⟨y, hy, (Prod.mk.inj hEq).2⟩
  refine ⟨?_, ?_, ?_⟩
  · intro x hx
    obtain ⟨y, hy, hEq⟩ := hFrom x hx
    rw [← hEq]
    exact h.taken y hy
  · intro x hx
    obtain ⟨y, hy, hEq⟩ := hFrom x hx
    rw [← hEq]
    exact h.apart y hy
  · have hOnce := h.once
    rw [hPhys] at hOnce ⊢
    exact (hPerm.map _).nodup_iff.mp hOnce

theorem Distinct.ofPlaces {cs ds : List (Nat × Nat × Nat)} (h : Distinct cs)
    (hPerm : (places cs).Perm (places ds)) : Distinct ds := by
  have hFile : ∀ l : List (Nat × Nat × Nat), l.map (fun x => x.1) = (places l).map Prod.fst := by
    intro l
    unfold places
    rw [List.map_map]
    rfl
  unfold Distinct at *
  rw [hFile] at h ⊢
  exact (hPerm.map _).nodup_iff.mp h

/-- The written part and the wings lie inside the extent. -/
structure Inside (e x : Extent) : Prop where
  pos : 0 < x.len
  lo  : e.offset ≤ x.offset
  hi  : x.stop ≤ e.stop

theorem convertExtent_inside (hRange : start < stop) (hCov : e.covers start) :
    ((convertExtent start stop e).1.offset = start ∧ Inside e (convertExtent start stop e).1) ∧
      ∀ x ∈ (convertExtent start stop e).2, Inside e x := by
  obtain ⟨hLo, hHi⟩ := hCov
  have hStop : e.stop = e.offset + e.len := rfl
  unfold convertExtent
  dsimp only
  by_cases hWhole : start = e.offset ∧ min stop e.stop = e.stop
  · rw [if_pos hWhole]
    exact ⟨⟨hWhole.1.symm, by show 0 < e.len; omega, Nat.le_refl _, Nat.le_refl _⟩, nofun⟩
  · rw [if_neg hWhole]
    refine ⟨⟨rfl, ?_, hLo, ?_⟩, ?_⟩
    · show 0 < min stop e.stop - start
      omega
    · show start + (min stop e.stop - start) ≤ e.stop
      omega
    · intro x hx
      rcases List.mem_append.mp hx with hx | hx
      · split at hx
        · rw [List.mem_singleton.mp hx]
          refine ⟨?_, Nat.le_refl _, ?_⟩
          · show 0 < start - e.offset
            omega
          · show e.offset + (start - e.offset) ≤ e.stop
            omega
        · cases hx
      · split at hx
        · rw [List.mem_singleton.mp hx]
          refine ⟨?_, ?_, ?_⟩
          · show 0 < e.stop - min stop e.stop
            omega
          · show e.offset ≤ min stop e.stop
            omega
          · show min stop e.stop + (e.stop - min stop e.stop) ≤ e.stop
            omega
        · cases hx

/-- An extent of length 0 may be left out. -/
theorem cells_ite {p : Prop} [Decidable p] {x : Extent} (h : ¬ p → x.len = 0) :
    cells (if p then [x] else []) = x.cells := by
  by_cases hp : p
  · rw [if_pos hp, cells_cons, cells_nil, List.append_nil]
  · rw [if_neg hp]
    unfold Extent.cells
    rw [h hp]
    rfl

theorem places_cells_flags (e : Extent) (fl : Nat) :
    places ({ e with flags := fl } : Extent).cells = places e.cells := by
  unfold places Extent.cells
  rw [List.map_map, List.map_map]
  rfl

/-- The parts of the extent map what it mapped, but for the flags. -/
theorem convertExtent_places (hRange : start < stop) (hCov : e.covers start) :
    (places ((convertExtent start stop e).1.cells ++ cells (convertExtent start stop e).2)).Perm
      (places e.cells) := by
  obtain ⟨hLo, hHi⟩ := hCov
  have hStop : e.stop = e.offset + e.len := rfl
  unfold convertExtent
  dsimp only
  by_cases hWhole : start = e.offset ∧ min stop e.stop = e.stop
  · rw [if_pos hWhole]
    dsimp only
    rw [cells_nil, List.append_nil, places_cells_flags]
  · rw [if_neg hWhole]
    dsimp only
    have hParts := cells_thirds hLo (Nat.le_min.mpr ⟨Nat.le_of_lt hRange, Nat.le_of_lt hHi⟩)
      (Nat.min_le_right stop e.stop)
    rw [cells_append, cells_ite (by dsimp only; omega), cells_ite (by dsimp only; omega), hParts]
    have hMid := places_cells_flags { e with
        offset := start
        phys := e.phys + (start - e.offset)
        len := min stop e.stop - start } (clearUnwritten e.flags)
    dsimp only at hMid
    simp only [places_append, hMid]
    rw [← List.append_assoc, ← List.append_assoc]
    exact List.perm_append_comm.append_right _

end Extent

--
-- One leaf
--

section Leaf

variable {start stop : Nat}

/-- The loop finds the extent that covers `start`. -/
theorem convertLeaf_found {l out wings : List Extent}
    (h : convertLeaf start stop l = some (some (out, wings))) :
    ∃ A e B, l = A ++ e :: B ∧ e.covers start ∧ e.unwritten = true ∧
      out = A ++ (convertExtent start stop e).1 :: B ∧ wings = (convertExtent start stop e).2 := by
  induction l generalizing out wings with
  | nil => cases h
  | cons e l ih =>
    unfold convertLeaf at h
    by_cases hCov : e.covers start
    · rw [if_pos hCov] at h
      by_cases hUn : e.unwritten = true
      · rw [if_pos hUn] at h
        simp only [Option.some.injEq, Prod.mk.injEq] at h
        exact ⟨[], e, l, rfl, hCov, hUn, h.1.symm, h.2.symm⟩
      · rw [if_neg hUn] at h
        cases h
    · rw [if_neg hCov] at h
      by_cases hPast : start < e.offset
      · rw [if_pos hPast] at h
        cases h
      · rw [if_neg hPast] at h
        cases hRest : convertLeaf start stop l with
        | none =>
          rw [hRest] at h
          cases h
        | some r =>
          rw [hRest] at h
          cases r with
          | none => cases h
          | some r =>
            obtain ⟨out', wings'⟩ := r
            simp only [Option.some.injEq, Prod.mk.injEq] at h
            obtain ⟨A, x, B, rfl, hx, hUn, rfl, rfl⟩ := ih hRest
            exact ⟨e :: A, x, B, rfl, hx, hUn, h.1.symm, h.2.symm⟩

/-- The loop ends without an extent over `start`: there is none. -/
theorem convertLeaf_none {l : List Extent} (hOrd : Ordered l)
    (h : convertLeaf start stop l = none) :
    (∀ e ∈ l, ¬ e.covers start) ∧ convertLen start stop l = 0 := by
  induction l with
  | nil => exact ⟨nofun, rfl⟩
  | cons x l ih =>
    obtain ⟨hHead, hTail⟩ := List.pairwise_cons.mp hOrd
    unfold convertLeaf at h
    unfold convertLen
    by_cases hCov : x.covers start
    · rw [if_pos hCov] at h
      split at h <;> cases h
    · rw [if_neg hCov] at h ⊢
      by_cases hPast : start < x.offset
      · rw [if_pos hPast]
        refine ⟨?_, rfl⟩
        rintro e he ⟨hLo, -⟩
        rcases List.mem_cons.mp he with rfl | he
        · omega
        · have hAfter := hHead e he
          have hOff := x.offset_le_stop
          omega
      · rw [if_neg hPast] at h ⊢
        have hRest : convertLeaf start stop l = none := by
          cases hr : convertLeaf start stop l with
          | none => rfl
          | some r =>
            rw [hr] at h
            cases r with
            | none => cases h
            | some r => cases h
        obtain ⟨hNone, hZero⟩ := ih hTail hRest
        exact ⟨List.forall_mem_cons.mpr ⟨hCov, hNone⟩, hZero⟩

/-- The loop ends at a written extent. -/
theorem convertLeaf_written {l : List Extent} (h : convertLeaf start stop l = some none) :
    (∃ e ∈ l, e.covers start ∧ e.unwritten = false) ∧ convertLen start stop l = 0 := by
  induction l with
  | nil => cases h
  | cons x l ih =>
    unfold convertLeaf at h
    unfold convertLen
    by_cases hCov : x.covers start
    · rw [if_pos hCov] at h ⊢
      by_cases hUn : x.unwritten = true
      · rw [if_pos hUn] at h
        cases h
      · rw [if_neg hUn]
        exact ⟨⟨x, List.mem_cons_self, hCov, by simpa using hUn⟩, rfl⟩
    · rw [if_neg hCov] at h ⊢
      by_cases hPast : start < x.offset
      · rw [if_pos hPast] at h
        cases h
      · rw [if_neg hPast] at h ⊢
        have hRest : convertLeaf start stop l = some none := by
          cases hr : convertLeaf start stop l with
          | none =>
            rw [hr] at h
            cases h
          | some r =>
            rw [hr] at h
            cases r with
            | none => rfl
            | some r => cases h
        obtain ⟨⟨e, he, hIn⟩, hZero⟩ := ih hRest
        exact ⟨⟨e, List.mem_cons_of_mem _ he, hIn⟩, hZero⟩

/-- The count of an unwritten extent over `start`. -/
theorem convertLen_found {A B : List Extent} {e : Extent} (hOrd : Ordered (A ++ e :: B))
    (hCov : e.covers start) (hUn : e.unwritten = true) :
    convertLen start stop (A ++ e :: B) = min stop e.stop - start := by
  induction A with
  | nil =>
    show convertLen start stop (e :: B) = _
    unfold convertLen
    rw [if_pos hCov, if_pos hUn]
  | cons x A ih =>
    have hCons : Ordered (x :: (A ++ e :: B)) := hOrd
    obtain ⟨hHead, hTail⟩ := List.pairwise_cons.mp hCons
    have hBefore := hHead e (List.mem_append_right _ List.mem_cons_self)
    have hOff := x.offset_le_stop
    have hLo := hCov.1
    have hNot : ¬ x.covers start := by
      rintro ⟨-, hHi⟩
      omega
    show convertLen start stop (x :: (A ++ e :: B)) = _
    unfold convertLen
    rw [if_neg hNot, if_neg (by omega)]
    exact ih hTail

/-- An extent of a leaf may shrink, also from the left. -/
theorem LeafOk.inside {lo hi : Nat} {A B : List Extent} {e x : Extent}
    (h : LeafOk lo hi (A ++ e :: B)) (hIn : Inside e x) (hTop : x.offset < hi) :
    LeafOk lo hi (A ++ x :: B) := by
  obtain ⟨hA, hRight, hAB⟩ := List.pairwise_append.mp h.ordered
  obtain ⟨hHead, hB⟩ := List.pairwise_cons.mp hRight
  refine ⟨List.pairwise_append.mpr ⟨hA, List.pairwise_cons.mpr ⟨?_, hB⟩, ?_⟩, ?_, ?_, ?_⟩
  · intro y hy
    exact Nat.le_trans hIn.hi (hHead y hy)
  · intro a ha y hy
    rcases List.mem_cons.mp hy with rfl | hy
    · exact Nat.le_trans (hAB a ha e List.mem_cons_self) hIn.lo
    · exact hAB a ha y (List.mem_cons_of_mem _ hy)
  · intro y hy
    rcases List.mem_append.mp hy with hy | hy
    · exact h.pos y (List.mem_append_left _ hy)
    · rcases List.mem_cons.mp hy with rfl | hy
      · exact hIn.pos
      · exact h.pos y (List.mem_append_right _ (List.mem_cons_of_mem _ hy))
  · intro y hy
    rcases List.mem_append.mp hy with hy | hy
    · exact h.range y (List.mem_append_left _ hy)
    · rcases List.mem_cons.mp hy with rfl | hy
      · have hOld := h.range e (List.mem_append_right _ List.mem_cons_self)
        have hLo := hIn.lo
        omega
      · exact h.range y (List.mem_append_right _ (List.mem_cons_of_mem _ hy))
  · have hLen := h.fanout
    rw [List.length_append, List.length_cons] at hLen ⊢
    exact hLen

/-- The leaf that `key` routes to: what is to its left and right, and any other leaf over
the same range in its place. -/
structure LeafFocus (nodes : Nodes) (d block lo hi key : Nat) (c : Content) (leafBlock : Nat)
    (leaf pre post : List Extent) (l h : Nat) : Prop where
  mem   : leafBlock ∈ c.blocks
  exts  : c.exts = pre ++ (leaf ++ post)
  ok    : LeafOk l h leaf
  keyLo : l ≤ key
  keyHi : key < h
  leTop : h ≤ hi
  only  : ∀ e ∈ c.exts, e.covers key → (∀ k ∈ c.seps, ¬ e.crosses k) → e ∈ leaf
  fill  : ∀ (nodes' : Nodes) (leaf' : List Extent), LeafOk l h leaf' →
    nodes' leafBlock = some (.leaf leaf') → (∀ b ∈ c.blocks, b ≠ leafBlock → nodes' b = nodes b) →
    Sub nodes' d block lo hi ⟨pre ++ (leaf' ++ post), c.blocks, c.seps⟩

theorem Sub.leaf_focus {nodes : Nodes} {key : Nat} (fuel : Nat) : ∀ {d block lo hi : Nat}
    {c : Content}, Sub nodes d block lo hi c → c.blocks.Nodup → lo ≤ key → key < hi →
    ∃ leafBlock leaf pre post l h, descendToLeaf nodes (d + 1 + fuel) block key = some (.ok (leafBlock, leaf)) ∧
      LeafFocus nodes d block lo hi key c leafBlock leaf pre post l h
  | 0, block, lo, hi, c, hSub, _, hLo, hHi => by
    have hFuel : 0 + 1 + fuel = fuel + 1 := by omega
    obtain ⟨hPos, hNode, hBlocks, hSeps, hLeaf⟩ := hSub
    refine ⟨block, c.exts, [], [], lo, hi, ?_, ?_⟩
    · rw [hFuel]
      unfold descendToLeaf
      rw [readNode_of_le hNode hLeaf.fanout]
    · refine ⟨?_, (List.append_nil _).symm, hLeaf, hLo, hHi, Nat.le_refl _, fun e he _ _ => he, ?_⟩
      · rw [hBlocks]
        exact List.mem_singleton_self _
      · intro nodes' leaf' hOk hAt _
        rw [List.nil_append, List.append_nil]
        exact ⟨hPos, hAt, hBlocks, hSeps, hOk⟩
  | d + 1, block, lo, hi, c, hSub, hNodup, hLo, hHi => by
    have hFuel : d + 1 + 1 + fuel = (d + 1 + fuel) + 1 := by omega
    obtain ⟨hPos, idx, tr, kids, hNode, hKeys, rfl, hKids⟩ := hSub
    obtain ⟨lo', hi', A, x, B, rfl, hChild, hHole⟩ := Sub.focus hKids hLo hHi
    obtain ⟨hOut, hNodupKids⟩ := List.nodup_cons.mp hNodup
    simp only [Content.blocks_append] at hOut hNodupKids
    obtain ⟨-, hNodupR, hLeft⟩ := List.nodup_append.mp hNodupKids
    obtain ⟨hNodupX, -, hRight⟩ := List.nodup_append.mp hNodupR
    obtain ⟨leafBlock, leaf, pre, post, l, h, hRun, hf⟩ :=
      hChild.2.leaf_focus fuel hNodupX hHole.keyLo hHole.keyHi
    have hNe : block ≠ leafBlock := by
      rintro rfl
      exact hOut (List.mem_append_right _ (List.mem_append_left _ hf.mem))
    refine ⟨leafBlock, leaf, A.exts ++ pre, post ++ B.exts, l, h, ?_, ?_⟩
    · rw [hFuel]
      unfold descendToLeaf
      rw [readNode_of_le hNode hKeys]
      dsimp only
      rw [if_neg (Nat.ne_of_gt hChild.2.pos)]
      exact hRun
    · refine ⟨?_, ?_, hf.ok, hf.keyLo, hf.keyHi, Nat.le_trans hf.leTop hHole.hiLe, ?_, ?_⟩
      · exact List.mem_cons_of_mem _ (List.mem_append_right _ (List.mem_append_left _ hf.mem))
      · show A.exts ++ (x.exts ++ B.exts) = _
        rw [hf.exts]
        simp only [List.append_assoc]
      · intro e he hCov hNo
        obtain ⟨hStart, hEnd⟩ := hCov
        have hKeyLo := hHole.keyLo
        have hKeyHi := hHole.keyHi
        simp only [Content.exts_append, List.mem_append] at he
        rcases he with he | he | he
        · -- an extent to the left would reach over the lower separator
          have hBelow := hHole.extsA e he
          rcases hHole.loMem with hEq | hIn
          · have hOffs := hKids.exts (fun _ _ _ _ hc => hc.1.lt)
              (fun _ _ _ _ hc => hc.2.offsets) e (by simp [he])
            omega
          · exact absurd ⟨hBelow, by omega⟩ (hNo lo' (by simp [hIn]))
        · exact hf.only e he ⟨hStart, hEnd⟩ fun k hk => hNo k (by simp [hk])
        · have hAbove := hHole.extsB e he
          omega
      · intro nodes' leaf' hOk hAt hSame
        have hChild' : Child nodes' d (childAt idx tr (findChild idx key)) lo' hi'
            ⟨pre ++ (leaf' ++ post), x.blocks, x.seps⟩ := by
          refine ⟨hChild.1, hf.fill nodes' leaf' hOk hAt fun b hb hbNe => hSame b ?_ hbNe⟩
          exact List.mem_cons_of_mem _ (List.mem_append_right _ (List.mem_append_left _ hb))
        have hKids' := hHole.fill (Child nodes' d) _ (fun b lo hi y hy hc => hc.congr fun b' hb' => ?_)
          hChild'
        · refine ⟨hPos, idx, tr, _, ?_, hKeys, ?_, hKids'⟩
          · rw [hSame block List.mem_cons_self hNe]
            exact hNode
          · show Content.mk _ _ _ = Content.mk _ _ _
            simp only [Content.exts_append, Content.blocks_append, Content.seps_append,
              List.append_assoc]
        · -- the other children keep their blocks
          rcases List.mem_append.mp (hy hb') with hIn | hIn
          · refine hSame b' (List.mem_cons_of_mem _ (List.mem_append_left _ hIn)) ?_
            rintro rfl
            exact hLeft b' hIn b' (List.mem_append_left _ hf.mem) rfl
          · refine hSame b' (List.mem_cons_of_mem _ (List.mem_append_right _
              (List.mem_append_right _ hIn))) ?_
            rintro rfl
            exact hRight b' hf.mem b' hIn rfl

end Leaf

--
-- The call
--

section Convert

variable {start stop : Nat} {f : File} {c : Content}

/-- What `briefs_convert_unwritten_range` leaves: written blocks stay, and those of the
range in the extent that covers its start become written. -/
structure ConvertDone (start stop : Nat) (f : File) (c : Content) (f' : File) (c' : Content) :
    Prop where
  holds : Holds f' c'
  owns  : Owns f' c'.blocks (cells c'.exts)
  tidy  : NoCross c → NoCross c'
  total : f.total = c.exts.length → f'.total = c'.exts.length
  tail  : (∀ e ∈ c.exts, e.stop ≤ f.maxEnd) → ∀ e ∈ c'.exts, e.stop ≤ f'.maxEnd
  kept  : ∀ x ∈ cells c.exts, x.2.2.testBit 0 = false → x ∈ cells c'.exts
  wrote : NoCross c → ∀ e ∈ c.exts, e.covers start → e.unwritten = true → ∀ b, start ≤ b →
    b < stop → b < e.stop → (b, e.physAt b, clearUnwritten e.flags) ∈ cells c'.exts

theorem Inside.crosses {e x : Extent} (h : Inside e x) {k : Nat} (hx : x.crosses k) : e.crosses k := by
  obtain ⟨hLo, hHi⟩ := hx
  have hFrom := h.lo
  have hTo := h.hi
  exact ⟨by omega, by omega⟩

/-- The written part maps the blocks of the range that the extent had. -/
theorem convertExtent_wrote {e : Extent} (hCov : e.covers start) {b : Nat} (hLo : start ≤ b)
    (hHi : b < stop) (hIn : b < e.stop) :
    (b, e.physAt b, clearUnwritten e.flags) ∈ (convertExtent start stop e).1.cells := by
  obtain ⟨hFrom, -⟩ := hCov
  rw [mem_extent_cells]
  unfold convertExtent
  dsimp only
  by_cases hWhole : start = e.offset ∧ min stop e.stop = e.stop
  · rw [if_pos hWhole]
    exact ⟨⟨by show e.offset ≤ b; omega, hIn⟩, rfl, rfl⟩
  · rw [if_neg hWhole]
    refine ⟨⟨hLo, ?_⟩, ?_, rfl⟩
    · show b < start + (min stop e.stop - start)
      omega
    · show e.phys + (start - e.offset) + (b - start) = e.phys + (b - e.offset)
      omega

/-- One extent covers a block. -/
theorem Ordered.unique {l : List Extent} (h : Ordered l) {a b : Extent} (ha : a ∈ l) (hb : b ∈ l)
    {n : Nat} (hCovA : a.covers n) (hCovB : b.covers n) : a = b := by
  unfold Extent.covers at hCovA hCovB
  rcases h.apart ha hb with hSame | hBefore | hAfter
  · exact hSame
  · omega
  · omega

/-- The extent `e` over the start is shrunk to the part that is written, and its wings are to
be put back. -/
structure Shrunk (start stop : Nat) (f : File) (c : Content) (P : List Extent) (e : Extent)
    (Q : List Extent) (f1 : File) : Prop where
  exts      : c.exts = P ++ e :: Q
  covers    : e.covers start
  unwritten : e.unwritten = true
  holds     : Holds f1 ⟨P ++ (convertExtent start stop e).1 :: Q, c.blocks, c.seps⟩
  indexed   : f1.indexed = f.indexed
  way       : f.indexed = true → f1.way start = f.way start
  leaf      : ∃ A B, f.routed start = A ++ e :: B ∧
    f1.routed start = A ++ (convertExtent start stop e).1 :: B
  alloc     : f1.alloc = f.alloc
  dataStart : f1.dataStart = f.dataStart
  total     : f1.total = f.total
  maxEnd    : f1.maxEnd = f.maxEnd

section Wings

variable {P Q : List Extent} {e : Extent} {f1 : File}

theorem Shrunk.mem (hs : Shrunk start stop f c P e Q f1) : e ∈ c.exts := by
  rw [hs.exts]
  exact List.mem_append_right _ List.mem_cons_self

/-- What is waiting to be put back completes what is left, but for the flags. -/
theorem Shrunk.places (hs : Shrunk start stop f c P e Q f1) (hRange : start < stop) :
    (places (cells c.exts)).Perm (places (cells (P ++ (convertExtent start stop e).1 :: Q) ++
      cells (convertExtent start stop e).2)) := by
  have hPlaces := convertExtent_places hRange hs.covers
  rw [hs.exts]
  simp only [cells_append, cells_cons, places_append] at hPlaces ⊢
  rw [← Multiset.coe_eq_coe] at hPlaces ⊢
  simp only [← Multiset.coe_add] at hPlaces ⊢
  rw [← hPlaces]
  abel

theorem Shrunk.fits (hs : Shrunk start stop f c P e Q f1) (h : Holds f c) (hRange : start < stop) :
    ∀ x ∈ (convertExtent start stop e).2, 0 < x.len ∧ x.stop < fileTop := by
  obtain ⟨-, hWings⟩ := convertExtent_inside hRange hs.covers
  exact fun x hx => ⟨(hWings x hx).pos, Nat.lt_of_le_of_lt (hWings x hx).hi (h.stops e hs.mem)⟩

/-- The wings after the edit of the extent. -/
theorem Shrunk.wings (hs : Shrunk start stop f c P e Q f1) (h : Holds f c)
    (hOwns : Owns f c.blocks (cells c.exts)) (hRange : start < stop) {fuel : Nat}
    (hFuel : 10 ≤ fuel) :
    ∃ code f' c', insertAll fuel (convertExtent start stop e).2 f1 = some (code, f') ∧
      BatchDone f1 ⟨P ++ (convertExtent start stop e).1 :: Q, c.blocks, c.seps⟩
        (convertExtent start stop e).2 code f' c' :=
  insertAll_spec hFuel _ hs.holds
    ((hOwns.ofPlaces (hs.places hRange)).ofState hs.alloc hs.dataStart) (hs.fits h hRange)

/-- Nothing crosses a separator that the extent did not cross. -/
theorem Shrunk.noCross (hs : Shrunk start stop f c P e Q f1) (h : Holds f c) (hRange : start < stop)
    (hNo : NoCross c) {code : Option Errno} {f' : File} {c' : Content}
    (hb : BatchDone f1 ⟨P ++ (convertExtent start stop e).1 :: Q, c.blocks, c.seps⟩
      (convertExtent start stop e).2 code f' c') : NoCross c' := by
  obtain ⟨⟨-, hMid⟩, hWings⟩ := convertExtent_inside hRange hs.covers
  have hKept : ∀ x, x ∈ P ∨ x ∈ Q → x ∈ c.exts := by
    rintro x (hx | hx)
    · rw [hs.exts]
      exact List.mem_append_left _ hx
    · rw [hs.exts]
      exact List.mem_append_right _ (List.mem_cons_of_mem _ hx)
  refine hb.tidy ?_ ((h.ordered hNo).distinct.ofPlaces (hs.places hRange)) ?_
  · intro x hx k hk hCross
    have hIn : x ∈ P ++ (convertExtent start stop e).1 :: Q := hx
    rcases List.mem_append.mp hIn with hIn | hIn
    · exact hNo x (hKept x (Or.inl hIn)) k hk hCross
    · rcases List.mem_cons.mp hIn with rfl | hIn
      · exact hNo e hs.mem k hk (hMid.crosses hCross)
      · exact hNo x (hKept x (Or.inr hIn)) k hk hCross
  · intro x hx k hk hCross
    exact hNo e hs.mem k hk ((hWings x hx).crosses hCross)

/-- The edit of an extent, whether or not its wings go back. -/
theorem Shrunk.done (hs : Shrunk start stop f c P e Q f1) (h : Holds f c) (hRange : start < stop)
    {code : Option Errno} {f' : File} {c' : Content}
    (hb : BatchDone f1 ⟨P ++ (convertExtent start stop e).1 :: Q, c.blocks, c.seps⟩
      (convertExtent start stop e).2 code f' c') : ConvertDone start stop f c f' c' := by
  have hNoCross : NoCross c → NoCross c' := fun hNo => hs.noCross h hRange hNo hb
  obtain ⟨⟨-, hMid⟩, -⟩ := convertExtent_inside hRange hs.covers
  have hCov := hs.covers
  have hWrote : ∀ b, start ≤ b → b < stop → b < e.stop →
      (b, e.physAt b, clearUnwritten e.flags) ∈ (convertExtent start stop e).1.cells :=
    fun b hLo hHi hIn => convertExtent_wrote hCov hLo hHi hIn
  generalize (convertExtent start stop e).1 = m at hMid hWrote hb
  refine ⟨hb.holds, hb.owns, hNoCross, ?_, ?_, ?_, ?_⟩
  · intro hCount
    refine hb.total ?_
    rw [hs.total, hCount, hs.exts]
    simp only [List.length_append, List.length_cons]
  · intro hTail
    refine hb.tail fun x hx => ?_
    rw [hs.maxEnd]
    rw [hs.exts] at hTail
    have hIn : x ∈ P ++ m :: Q := hx
    rcases List.mem_append.mp hIn with hIn | hIn
    · exact hTail x (List.mem_append_left _ hIn)
    · rcases List.mem_cons.mp hIn with rfl | hIn
      · exact Nat.le_trans hMid.hi (hTail e (List.mem_append_right _ List.mem_cons_self))
      · exact hTail x (List.mem_append_right _ (List.mem_cons_of_mem _ hIn))
  · intro x hx hWritten
    refine hb.kept x ?_
    rw [hs.exts, cells_append, cells_cons] at hx
    rw [cells_append, cells_cons]
    rcases List.mem_append.mp hx with hx | hx
    · exact List.mem_append_left _ hx
    · rcases List.mem_append.mp hx with hx | hx
      · -- the extent itself had no written block
        obtain ⟨b, p, fl⟩ := x
        obtain ⟨-, -, hFlags⟩ := mem_extent_cells.mp hx
        have hBit : fl.testBit 0 = true := hFlags ▸ hs.unwritten
        rw [hBit] at hWritten
        cases hWritten
      · exact List.mem_append_right _ (List.mem_append_right _ hx)
  · intro hNo e' he' hCov' _ b hLo hHi hIn
    have hSame : e' = e := (h.ordered hNo).unique he' hs.mem hCov' hCov
    subst hSame
    refine hb.kept _ ?_
    rw [cells_append, cells_cons]
    exact List.mem_append_right _ (List.mem_append_left _ (hWrote b hLo hHi hIn))

end Wings

/-- The three ways of a call: no extent covers the start, or a written one does, or an
unwritten one that is shrunk. The result is that of putting the wings back. -/
def ConvertCases (fuel start stop : Nat) (f : File) (c : Content)
    (r : Option (Option Errno × File)) (n : Nat) : Prop :=
  ((NoCross c → ∀ e ∈ c.exts, ¬ e.covers start) ∧ r = some (some .enoent, f) ∧ n = 0) ∨
  ((∃ e ∈ c.exts, e.covers start ∧ e.unwritten = false) ∧ r = some (none, f) ∧ n = 0) ∨
  ∃ P e Q f1, Shrunk start stop f c P e Q f1 ∧
    r = insertAll fuel (convertExtent start stop e).2 f1 ∧ n = min stop e.stop - start

/-- Another leaf of the same size in the place of the one that is found. -/
theorem descendToLeaf_update {nodes : Nodes} {leafBlock key : Nat} {leaf leaf' : List Extent} :
    ∀ (fuel block : Nat), descendToLeaf nodes fuel block key = some (.ok (leafBlock, leaf)) →
    leaf'.length = leaf.length → nodes leafBlock = some (.leaf leaf) ∧
      routeLeaf nodes key fuel block = leaf ∧
      routeLeaf (Function.update nodes leafBlock (some (.leaf leaf'))) key fuel block = leaf' ∧
      slots (Function.update nodes leafBlock (some (.leaf leaf'))) key fuel block =
        slots nodes key fuel block := by
  intro fuel
  induction fuel with
  | zero =>
    intro block h
    cases h
  | succ fuel ih =>
    intro block h hLen
    unfold descendToLeaf at h
    cases hRead : readNode nodes block with
    | none =>
      rw [hRead] at h
      cases h
    | some node =>
      rw [hRead] at h
      have hNode := (readNode_eq_some hRead).1
      cases node with
      | leaf extents =>
        obtain ⟨rfl, rfl⟩ := Prod.mk.inj (Except.ok.inj (Option.some.inj h))
        refine ⟨hNode, ?_, ?_, ?_⟩
        · rw [routeLeaf, hNode]
        · rw [routeLeaf, Function.update_self]
        · rw [slots, slots, Function.update_self, hNode]
          dsimp only
          rw [hLen]
      | internal idx tr =>
        dsimp only at h
        by_cases hZero : childAt idx tr (findChild idx key) = 0
        · rw [if_pos hZero] at h
          cases h
        · rw [if_neg hZero] at h
          obtain ⟨hLeaf, hOld, hNew, hWay⟩ := ih _ h hLen
          have hOther : block ≠ leafBlock := by
            rintro rfl
            rw [hNode] at hLeaf
            cases hLeaf
          refine ⟨hLeaf, ?_, ?_, ?_⟩
          · rw [routeLeaf, hNode]
            exact hOld
          · rw [routeLeaf, Function.update_of_ne hOther, hNode]
            exact hNew
          · rw [slots, slots, Function.update_of_ne hOther, hNode]
            exact congrArg _ hWay

theorem btreeConvert_cases (h : Holds f c) (hIdx : f.indexed = true) (hRange : start < stop)
    (hTop : start < fileTop) {fuel : Nat} (hFuel : 10 ≤ fuel) :
    ConvertCases fuel start stop f c (btreeConvert fuel f start stop)
      (convertedBlocks fuel f start stop) := by
  obtain ⟨d, hSub⟩ := h.tree hIdx
  have hDepth := hSub.depth_le (Nat.le_refl _)
  have hFuelEq : fuel = d + 1 + (fuel - (d + 1)) := by omega
  obtain ⟨leafBlock, leaf, pre, post, l, top, hRun, hf⟩ :=
    hSub.leaf_focus (fuel - (d + 1)) h.nodup (Nat.zero_le start) hTop
  rw [← hFuelEq] at hRun
  have hLen : convertedBlocks fuel f start stop = convertLen start stop leaf := by
    unfold convertedBlocks
    rw [if_pos hIdx, if_neg (Nat.ne_of_gt hSub.pos), hRun]
  rw [hLen]
  unfold btreeConvert
  rw [if_neg (Nat.ne_of_gt hSub.pos), hRun]
  dsimp only
  have hIn : ∀ e ∈ leaf, e ∈ c.exts := by
    intro e he
    rw [hf.exts]
    exact List.mem_append_right _ (List.mem_append_left _ he)
  cases hLeaf : convertLeaf start stop leaf with
  | none =>
    obtain ⟨hNone, hZero⟩ := convertLeaf_none hf.ok.ordered hLeaf
    exact Or.inl ⟨fun hNo e he hCov => hNone e (hf.only e he hCov (hNo e he)) hCov, rfl, hZero⟩
  | some r =>
    cases r with
    | none =>
      obtain ⟨⟨e, he, hCov, hUn⟩, hZero⟩ := convertLeaf_written hLeaf
      exact Or.inr (Or.inl ⟨⟨e, hIn e he, hCov, hUn⟩, rfl, hZero⟩)
    | some r =>
      obtain ⟨out, wings⟩ := r
      obtain ⟨A, e, B, rfl, hCov, hUn, rfl, rfl⟩ := convertLeaf_found hLeaf
      obtain ⟨⟨hOff, hMid⟩, -⟩ := convertExtent_inside hRange hCov
      have hOk : LeafOk l top (A ++ (convertExtent start stop e).1 :: B) := by
        refine hf.ok.inside hMid ?_
        rw [hOff]
        exact hf.keyHi
      have hExts : c.exts = (pre ++ A) ++ e :: (B ++ post) := by
        rw [hf.exts]
        simp
      have hShape : pre ++ (A ++ (convertExtent start stop e).1 :: B ++ post) =
          (pre ++ A) ++ (convertExtent start stop e).1 :: (B ++ post) := by
        simp
      have hSub' := hf.fill (Function.update f.nodes leafBlock
        (some (.leaf (A ++ (convertExtent start stop e).1 :: B)))) _ hOk (Function.update_self ..)
        (fun b _ hb => Function.update_of_ne hb _ _)
      rw [hShape] at hSub'
      have hSub'' : ∀ f1 : File,
          f1 = f.commitNode leafBlock (.leaf (A ++ (convertExtent start stop e).1 :: B)) →
          Sub f1.nodes d f1.root 0 fileTop
            ⟨(pre ++ A) ++ (convertExtent start stop e).1 :: (B ++ post), c.blocks, c.seps⟩ := by
        rintro _ rfl
        exact hSub'
      obtain ⟨-, hOld, hNew, hWay⟩ := descendToLeaf_update _ _ hRun
        (show (A ++ (convertExtent start stop e).1 :: B).length = _ by simp)
      refine Or.inr (Or.inr ⟨pre ++ A, e, B ++ post,
        f.commitNode leafBlock (.leaf (A ++ (convertExtent start stop e).1 :: B)),
        ⟨hExts, hCov, hUn, ?_, rfl, fun _ => ?_, ⟨A, B, ?_, ?_⟩, rfl, rfl, rfl, rfl⟩, rfl,
        convertLen_found hf.ok.ordered hCov hUn⟩)
      · refine ⟨fun _ => ⟨d, hSub'⟩, fun hNo => ?_, h.nodup, h.owned, ?_, h.sound⟩
        · have hFlat : f.indexed = false := hNo
          rw [hIdx] at hFlat
          cases hFlat
        · intro x hx
          have heStop := h.stops e (by rw [hExts]; exact List.mem_append_right _ List.mem_cons_self)
          rcases List.mem_append.mp hx with hx | hx
          · exact h.stops x (by rw [hExts]; exact List.mem_append_left _ hx)
          · rcases List.mem_cons.mp hx with rfl | hx
            · exact Nat.lt_of_le_of_lt hMid.hi heStop
            · refine h.stops x ?_
              rw [hExts]
              exact List.mem_append_right _ (List.mem_cons_of_mem _ hx)
      · rw [way_eq (hSub'' _ rfl) hTop, way_eq hSub hTop, ← hSub.slots_fuel _ (Nat.zero_le _) hTop,
          ← (hSub'' _ rfl).slots_fuel _ (Nat.zero_le _) hTop, ← hFuelEq]
        exact hWay
      · rw [routed_eq hSub hIdx hTop, ← hSub.routeLeaf_fuel _ (Nat.zero_le _) hTop, ← hFuelEq]
        exact hOld
      · rw [routed_eq (hSub'' _ rfl) hIdx hTop, ← (hSub'' _ rfl).routeLeaf_fuel _ (Nat.zero_le _) hTop,
          ← hFuelEq]
        exact hNew

/-- The ways of `briefs_convert_unwritten_range`. -/
theorem convertUnwrittenRange_cases (h : Holds f c) (hRange : start < stop) (hTop : start < fileTop)
    {fuel : Nat} (hFuel : 10 ≤ fuel) :
    ConvertCases fuel start stop f c (convertUnwrittenRange fuel f start stop)
      (convertedBlocks fuel f start stop) := by
  unfold convertUnwrittenRange
  by_cases hIdx : f.indexed = true
  · rw [if_pos hIdx]
    exact btreeConvert_cases h hIdx hRange hTop hFuel
  · have hFlat : f.indexed = false := by simpa using hIdx
    obtain ⟨rfl, hLeaf, hEight⟩ := h.flat hFlat
    have hLen : convertedBlocks fuel f start stop = convertLen start stop f.inline := by
      unfold convertedBlocks
      rw [if_neg hIdx, List.take_of_length_le hEight]
    rw [hLen, if_neg hIdx, List.take_of_length_le hEight]
    cases hConv : convertLeaf start stop f.inline with
    | none =>
      obtain ⟨hNone, hZero⟩ := convertLeaf_none hLeaf.ordered hConv
      exact Or.inl ⟨fun _ => hNone, rfl, hZero⟩
    | some r =>
      cases r with
      | none =>
        obtain ⟨hWritten, hZero⟩ := convertLeaf_written hConv
        exact Or.inr (Or.inl ⟨hWritten, rfl, hZero⟩)
      | some r =>
        obtain ⟨out, wings⟩ := r
        obtain ⟨A, e, B, hInline, hCov, hUn, rfl, rfl⟩ := convertLeaf_found hConv
        obtain ⟨⟨hOff, hMid⟩, -⟩ := convertExtent_inside hRange hCov
        rw [hInline] at hLeaf hEight ⊢
        have hOk : LeafOk 0 fileTop (A ++ (convertExtent start stop e).1 :: B) := by
          refine hLeaf.inside hMid ?_
          rw [hOff]
          exact hTop
        refine Or.inr (Or.inr ⟨A, e, B,
          { f with inline := A ++ (convertExtent start stop e).1 :: B },
          ⟨rfl, hCov, hUn, ?_, rfl, fun hNo => absurd hNo hIdx, ⟨A, B, ?_, ?_⟩, rfl, rfl, rfl, rfl⟩,
          rfl, convertLen_found hLeaf.ordered hCov hUn⟩)
        rotate_left
        · unfold File.routed
          rw [if_neg hIdx, hInline]
        · unfold File.routed
          exact if_neg hIdx
        refine ⟨fun hNo => ?_, fun _ => ⟨rfl, hOk, ?_⟩, List.nodup_nil, nofun, ?_, h.sound⟩
        · have hYes : f.indexed = true := hNo
          rw [hFlat] at hYes
          cases hYes
        · show (A ++ (convertExtent start stop e).1 :: B).length ≤ 8
          rw [List.length_append, List.length_cons] at hEight ⊢
          exact hEight
        · intro x hx
          have hStops : ∀ y ∈ A ++ e :: B, y.stop < fileTop := fun y hy =>
            h.stops y (by rw [hInline]; exact hy)
          rcases List.mem_append.mp hx with hx | hx
          · exact hStops x (List.mem_append_left _ hx)
          · rcases List.mem_cons.mp hx with rfl | hx
            · exact Nat.lt_of_le_of_lt hMid.hi
                (hStops e (List.mem_append_right _ List.mem_cons_self))
            · exact hStops x (List.mem_append_right _ (List.mem_cons_of_mem _ hx))

/-- What `briefs_convert_unwritten_range` does. -/
theorem convertUnwrittenRange_spec (h : Holds f c) (hOwns : Owns f c.blocks (cells c.exts))
    (hRange : start < stop) (hTop : start < fileTop) {fuel : Nat} (hFuel : 10 ≤ fuel) :
    ∃ code f' c', convertUnwrittenRange fuel f start stop = some (code, f') ∧
      ConvertDone start stop f c f' c' := by
  have hStay : (NoCross c → ∀ e ∈ c.exts, e.covers start → e.unwritten = false) →
      ConvertDone start stop f c f c := by
    intro hNone
    refine ⟨h, hOwns, fun hNo => hNo, fun hTotal => hTotal, fun hTail => hTail,
      fun x hx _ => hx, ?_⟩
    intro hNo e he hCov hUn
    rw [hNone hNo e he hCov] at hUn
    cases hUn
  rcases convertUnwrittenRange_cases h hRange hTop hFuel with
    ⟨hNone, hEq, -⟩ | ⟨⟨e, he, hCov, hUn⟩, hEq, -⟩ | ⟨P, e, Q, f1, hs, hEq, -⟩
  · refine ⟨_, f, c, hEq, hStay fun hNo e he hCov => absurd hCov (hNone hNo e he)⟩
  · refine ⟨_, f, c, hEq, hStay fun hNo x hx hxCov => ?_⟩
    -- one extent covers the start
    rw [(h.ordered hNo).unique hx he hxCov hCov]
    exact hUn
  · rw [hEq]
    obtain ⟨code, f', c', hRun, hb⟩ := hs.wings h hOwns hRange hFuel
    exact ⟨code, f', c', hRun, hs.done h hRange hb⟩

end Convert

end Briefs.Btree
