import Briefs.Btree.Holds

/-!
# BrieFS — reading the extents of an inode

The three ways to read an extent map: the lookup of one block, the search for the
first extent after a block, and the enumeration of all extents. Lookup and search
descend by the separators, the enumeration visits every child. Where no extent
crosses a separator, the three agree (`Holds.agrees`).

## Results

* `Sub.walk` — the enumeration yields the content, and its depth guard never fires.
* `Sub.lookup` — the lookup finds the extent of the leaf that the block routes to.
* `Sub.lowerBound` — the search returns the first extent after a block.
* `Holds.agrees` — lookup, search and enumeration agree.
-/

namespace Briefs.Btree

open Briefs.Journal

--
-- The read paths
--

/-- The retries of `btree_lower_bound_block` over the children from one on. -/
def tryChildren (search : Nat → Option (Except Errno Extent)) :
    List Nat → Option (Except Errno Extent)
  | [] => some (.error .enoent)
  | child :: rest =>
    if child = 0 then some (.error .eio)
    else match search child with
      | some (.error .enoent) => tryChildren search rest
      | r => r

/-- The children of an internal node, the trailing one last. -/
def childList (idx : List IdxEntry) (trailingChild : Nat) : List Nat :=
  idx.map IdxEntry.child ++ [trailingChild]

/-- The answer of a search that went through a list. -/
def answer (r : Option Extent) : Except Errno Extent :=
  match r with
  | some e => .ok e
  | none => .error .enoent

/-- `btree_lower_bound_block` with `fuel` levels left. -/
def lowerBoundBlock (nodes : Nodes) (iblock : Nat) : Nat → Nat → Option (Except Errno Extent)
  | 0, _ => none
  | fuel + 1, block =>
    match readNode nodes block with
    | none => some (.error .eio)
    | some (.leaf extents) => some (answer (extents.find? fun e => decide (iblock < e.offset)))
    | some (.internal idx trailingChild) =>
      tryChildren (lowerBoundBlock nodes iblock fuel)
        ((childList idx trailingChild).drop (findChild idx iblock))

/-- `briefs_btree_next_extent`. -/
def btreeNextExtent (nodes : Nodes) (fuel root iblock : Nat) : Option (Except Errno Extent) :=
  if root = 0 then some (.error .enoent) else lowerBoundBlock nodes iblock fuel root

/-- The loop of `btree_walk_descend` over the children. -/
def walkChildren (walk : Nat → Except Errno (List Extent)) : List Nat → Except Errno (List Extent)
  | [] => .ok []
  | child :: rest =>
    match walk child with
    | .error e => .error e
    | .ok l => match walkChildren walk rest with
      | .error e => .error e
      | .ok r => .ok (l ++ r)

/-- `btree_walk_descend` where the depth guard allows `left` more levels: the extents
in the order of the callbacks. -/
def walkDescend (nodes : Nodes) : Nat → Nat → Except Errno (List Extent)
  | 0, block => if block = 0 then .ok [] else .error .eio
  | left + 1, block =>
    if block = 0 then .ok []
    else match readNode nodes block with
      | none => .error .eio
      | some (.leaf extents) => .ok extents
      | some (.internal idx trailingChild) =>
        walkChildren (walkDescend nodes left) (childList idx trailingChild)

/-- `briefs_btree_for_each_extent`; a walk may go to depth 16. -/
def forEachExtent (f : File) : Except Errno (List Extent) :=
  if f.indexed then
    if f.root = 0 then .ok [] else walkDescend f.nodes 17 f.root
  else .ok f.inline

/-- `briefs_inode_lookup_iblock`. -/
def lookupIblock (f : File) (iblock : Nat) : Option (Except Errno Extent) :=
  if f.indexed then lookup f.nodes levels f.root iblock
  else some (answer ((f.inline.take 8).find? fun e => decide (e.covers iblock)))

/-- The offset to beat in the scan of `briefs_next_extent`. -/
def bestOff (best : Option Extent) : Nat :=
  match best with
  | some e => e.offset
  | none => 2 ^ 64 - 1

/-- `briefs_next_extent`. -/
def nextExtent (f : File) (iblock : Nat) : Option (Except Errno Extent) :=
  if f.indexed then btreeNextExtent f.nodes levels f.root iblock
  else some (answer ((f.inline.take 8).foldl (fun best e =>
    if iblock < e.offset ∧ e.offset < bestOff best then some e else best) none))

--
-- The enumeration
--

section Walk

variable {nodes : Nodes}

theorem walkChildren_kids {walk : Nat → Except Errno (List Extent)}
    {P : Nat → Nat → Nat → Content → Prop} {tr hi : Nat}
    (hP : ∀ b lo hi c, P b lo hi c → walk b = .ok c.exts) : ∀ {idx : List IdxEntry} {lo : Nat}
    {c : Content}, Kids P tr idx lo hi c → walkChildren walk (childList idx tr) = .ok c.exts
  | [], _, c, h => by
    have hOne : walk tr = .ok c.exts := hP _ _ _ _ h
    simp [childList, walkChildren, hOne]
  | e :: idx, lo, _, h => by
    obtain ⟨c₁, c₂, rfl, hFirst, hRest⟩ := h
    have hOne := hP _ _ _ _ hFirst
    have hMore := walkChildren_kids hP hRest
    have hList : childList (e :: idx) tr = e.child :: childList idx tr := rfl
    rw [hList, walkChildren, hOne]
    dsimp only
    rw [hMore]
    simp

/-- The enumeration of a subtree yields its content. -/
theorem Sub.walk : ∀ {d block lo hi : Nat} {c : Content} {left : Nat}, Sub nodes d block lo hi c →
    d < left → walkDescend nodes left block = .ok c.exts
  | 0, block, _, _, c, left + 1, h, _ => by
    obtain ⟨hPos, hNode, -, -, hLeaf⟩ := h
    rw [walkDescend, if_neg (by omega), readNode_of_le hNode hLeaf.fanout]
  | d + 1, block, _, _, _, left + 1, h, hLeft => by
    obtain ⟨hPos, idx, tr, kids, hNode, hLen, rfl, hKids⟩ := h
    rw [walkDescend, if_neg (by omega), readNode_of_le hNode hLen]
    have hWalk : ∀ b lo hi c, Child nodes d b lo hi c → walkDescend nodes left b = .ok c.exts :=
      fun b lo hi c hc => hc.2.walk (by omega)
    show walkChildren (walkDescend nodes left) (childList idx tr) = .ok kids.exts
    exact walkChildren_kids hWalk hKids
  | 0, _, _, _, _, 0, _, hLeft => by omega
  | d + 1, _, _, _, _, 0, _, hLeft => by omega

end Walk

--
-- The lookup
--

section Lookup

variable {nodes : Nodes} {iblock : Nat}

theorem Sub.lookup : ∀ {d block lo hi : Nat} {c : Content} {fuel : Nat}, Sub nodes d block lo hi c →
    d < fuel → lo ≤ iblock → iblock < hi →
    lookupBlock nodes fuel block iblock =
      some (answer (lookupLeaf iblock (routeLeaf nodes iblock (d + 1) block)))
  | 0, block, _, _, c, fuel + 1, h, _, _, _ => by
    obtain ⟨-, hNode, -, -, hLeaf⟩ := h
    rw [lookupBlock, readNode_of_le hNode hLeaf.fanout, routeLeaf, hNode]
    dsimp only
    cases lookupLeaf iblock c.exts <;> rfl
  | d + 1, block, _, _, _, fuel + 1, h, hFuel, hLo, hHi => by
    obtain ⟨-, idx, tr, kids, hNode, hLen, rfl, hKids⟩ := h
    obtain ⟨lo', hi', A, x, B, -, hChild, hHole⟩ := Sub.focus hKids hLo hHi
    rw [lookupBlock, readNode_of_le hNode hLen, routeLeaf, hNode]
    dsimp only
    rw [if_neg (Nat.ne_of_gt hChild.2.pos)]
    exact hChild.2.lookup (by omega) hHole.keyLo hHole.keyHi
  | 0, _, _, _, _, 0, _, hFuel, _, _ => by omega
  | d + 1, _, _, _, _, 0, _, hFuel, _, _ => by omega

/-- The leaf that a block routes to is in order. -/
theorem Sub.routeLeaf_ordered : ∀ {d block lo hi : Nat} {c : Content}, Sub nodes d block lo hi c →
    lo ≤ iblock → iblock < hi → Ordered (routeLeaf nodes iblock (d + 1) block)
  | 0, block, _, _, _, h, _, _ => by
    obtain ⟨-, hNode, -, -, hLeaf⟩ := h
    rw [routeLeaf, hNode]
    exact hLeaf.ordered
  | d + 1, block, _, _, _, h, hLo, hHi => by
    obtain ⟨-, idx, tr, kids, hNode, -, rfl, hKids⟩ := h
    obtain ⟨lo', hi', A, x, B, -, hChild, hHole⟩ := Sub.focus hKids hLo hHi
    rw [routeLeaf, hNode]
    exact hChild.2.routeLeaf_ordered hHole.keyLo hHole.keyHi

/-- Without crossings a mapped block routes to the leaf of its extent. -/
theorem Sub.mem_routeLeaf : ∀ {d block lo hi : Nat} {c : Content}, Sub nodes d block lo hi c →
    lo ≤ iblock → iblock < hi → ∀ {e : Extent}, e ∈ c.exts → e.covers iblock →
    (∀ k ∈ c.seps, ¬ e.crosses k) → e ∈ routeLeaf nodes iblock (d + 1) block
  | 0, block, _, _, c, h, _, _, e, he, _, _ => by
    obtain ⟨-, hNode, -⟩ := h
    rw [routeLeaf, hNode]
    exact he
  | d + 1, block, lo, hi, _, h, hLo, hHi, e, he, hCov, hNo => by
    obtain ⟨-, idx, tr, kids, hNode, -, rfl, hKids⟩ := h
    obtain ⟨lo', hi', A, x, B, rfl, hChild, hHole⟩ := Sub.focus hKids hLo hHi
    have hOffs := hKids.exts (fun _ _ _ _ hc => hc.1.lt) (fun _ _ _ _ hc => hc.2.offsets) e he
    rw [routeLeaf, hNode]
    dsimp only
    have hKeyLo := hHole.keyLo
    have hKeyHi := hHole.keyHi
    obtain ⟨hStart, hEnd⟩ := hCov
    simp only [Content.exts_append, List.mem_append] at he
    rcases he with he | he | he
    · -- an extent to the left would reach over the lower separator
      have hBelow := hHole.extsA e he
      rcases hHole.loMem with hEq | hIn
      · omega
      · exact absurd ⟨hBelow, by omega⟩ (hNo lo' (by simp [hIn]))
    · exact hChild.2.mem_routeLeaf hKeyLo hKeyHi he ⟨hStart, hEnd⟩ fun k hk =>
        hNo k (by simp [hk])
    · have hAbove := hHole.extsB e he
      omega

/-- Without crossings a lookup answers from the whole content. -/
theorem Sub.lookup_iff {d block lo hi : Nat} {c : Content} {fuel : Nat} (h : Sub nodes d block lo hi c)
    (hFuel : d < fuel) (hLo : lo ≤ iblock) (hHi : iblock < hi) (hNo : NoCross c) :
    (∀ e, lookupBlock nodes fuel block iblock = some (.ok e) ↔ e ∈ c.exts ∧ e.covers iblock) ∧
      ((∀ e ∈ c.exts, ¬ e.covers iblock) →
        lookupBlock nodes fuel block iblock = some (.error .enoent)) := by
  have hSubset := h.routeLeaf_subset (d + 1) hLo hHi
  have hOrd : Ordered (routeLeaf nodes iblock (d + 1) block) := h.routeLeaf_ordered hLo hHi
  rw [h.lookup hFuel hLo hHi]
  refine ⟨?_, ?_⟩
  · intro e
    constructor
    · intro hSome
      cases hFound : lookupLeaf iblock (routeLeaf nodes iblock (d + 1) block) with
      | none =>
        rw [hFound] at hSome
        cases hSome
      | some x =>
        rw [hFound] at hSome
        obtain rfl : x = e := by
          injection hSome with hSome
          injection hSome
        obtain ⟨hMem, hCov⟩ := mem_of_lookupLeaf hFound
        exact ⟨hSubset hMem, hCov⟩
    · rintro ⟨he, hCov⟩
      have hIn := h.mem_routeLeaf hLo hHi he hCov (hNo e he)
      rw [lookupLeaf_of_mem hOrd hIn hCov]
      rfl
  · intro hNone
    cases hFound : lookupLeaf iblock (routeLeaf nodes iblock (d + 1) block) with
    | none => rfl
    | some x =>
      obtain ⟨hMem, hCov⟩ := mem_of_lookupLeaf hFound
      exact absurd hCov (hNone x (hSubset hMem))

end Lookup

--
-- The first extent after a block
--

section LowerBound

variable {nodes : Nodes} {iblock : Nat}

theorem find_none {l : List Extent} (h : ∀ e ∈ l, e.offset ≤ iblock) :
    l.find? (fun e => decide (iblock < e.offset)) = none := by
  rw [List.find?_eq_none]
  intro e he
  have hLe := h e he
  simp only [decide_eq_true_eq]
  omega

theorem find_append {l r : List Extent} (h : ∀ e ∈ l, e.offset ≤ iblock) :
    (l ++ r).find? (fun e => decide (iblock < e.offset)) =
      r.find? fun e => decide (iblock < e.offset) := by
  rw [List.find?_append, find_none h]
  rfl

/-- A key below the range of the children routes to the first one. -/
theorem Kids.findChild_eq_zero {P : Nat → Nat → Nat → Content → Prop} {tr hi : Nat}
    (hLt : ∀ b lo hi c, P b lo hi c → lo < hi) {idx : List IdxEntry} {lo : Nat} {c : Content}
    (h : Kids P tr idx lo hi c) (hKey : iblock < lo) : findChild idx iblock = 0 := by
  cases idx with
  | nil => rfl
  | cons e idx =>
    obtain ⟨c₁, c₂, -, hFirst, -⟩ := h
    have hHead := hLt _ _ _ _ hFirst
    rw [findChild_cons, if_pos (by omega)]

theorem tryChildren_kids {search : Nat → Option (Except Errno Extent)}
    {P : Nat → Nat → Nat → Content → Prop} {tr hi : Nat}
    (hLt : ∀ b lo hi c, P b lo hi c → lo < hi) (hPos : ∀ b lo hi c, P b lo hi c → b ≠ 0)
    (hOff : ∀ b lo hi c, P b lo hi c → ∀ e ∈ c.exts, lo ≤ e.offset ∧ e.offset < hi ∧ 0 < e.len)
    (hP : ∀ b lo hi c, P b lo hi c → iblock < hi →
      search b = some (answer (c.exts.find? fun e => decide (iblock < e.offset))))
    (hKey : iblock < hi) : ∀ {idx : List IdxEntry} {lo : Nat} {c : Content},
    Kids P tr idx lo hi c → tryChildren search ((childList idx tr).drop (findChild idx iblock)) =
      some (answer (c.exts.find? fun e => decide (iblock < e.offset)))
  | [], _, c, h => by
    have hOne := hP _ _ _ _ h hKey
    have hList : (childList [] tr).drop (findChild [] iblock) = [tr] := rfl
    rw [hList, tryChildren, if_neg (hPos _ _ _ _ h), hOne]
    cases c.exts.find? fun e => decide (iblock < e.offset) <;> rfl
  | e :: idx, lo, _, h => by
    obtain ⟨c₁, c₂, rfl, hFirst, hRest⟩ := h
    have hMore := tryChildren_kids hLt hPos hOff hP hKey hRest
    have hList : childList (e :: idx) tr = e.child :: childList idx tr := rfl
    have hExts : (c₁ ++ (Content.sep e.highKey ++ c₂)).exts = c₁.exts ++ c₂.exts := by simp
    rw [hList, hExts, findChild_cons]
    by_cases hHere : iblock < e.highKey
    · have hZero := hRest.findChild_eq_zero hLt hHere
      rw [hZero, List.drop_zero] at hMore
      rw [if_pos hHere, List.drop_zero, tryChildren, if_neg (hPos _ _ _ _ hFirst),
        hP _ _ _ _ hFirst hHere, List.find?_append]
      cases c₁.exts.find? fun e => decide (iblock < e.offset) with
      | some x => rfl
      | none => exact hMore
    · -- everything in the first child starts at the block or before it
      have hBefore : ∀ x ∈ c₁.exts, x.offset ≤ iblock := by
        intro x hx
        have hIn := hOff _ _ _ _ hFirst x hx
        omega
      rw [if_neg hHere, List.drop_succ_cons, find_append hBefore]
      exact hMore

/-- The search returns the first extent of the subtree that starts after the block. -/
theorem Sub.lowerBound : ∀ {d block lo hi : Nat} {c : Content} {fuel : Nat},
    Sub nodes d block lo hi c → d < fuel → iblock < hi →
    lowerBoundBlock nodes iblock fuel block =
      some (answer (c.exts.find? fun e => decide (iblock < e.offset)))
  | 0, block, _, _, c, fuel + 1, h, _, _ => by
    obtain ⟨-, hNode, -, -, hLeaf⟩ := h
    rw [lowerBoundBlock, readNode_of_le hNode hLeaf.fanout]
  | d + 1, block, _, _, _, fuel + 1, h, hFuel, hHi => by
    obtain ⟨-, idx, tr, kids, hNode, hLen, rfl, hKids⟩ := h
    rw [lowerBoundBlock, readNode_of_le hNode hLen]
    have hSearch : ∀ b lo hi c, Child nodes d b lo hi c → iblock < hi →
        lowerBoundBlock nodes iblock fuel b =
          some (answer (c.exts.find? fun e => decide (iblock < e.offset))) :=
      fun b lo hi c hc hb => hc.2.lowerBound (by omega) hb
    show tryChildren (lowerBoundBlock nodes iblock fuel)
      ((childList idx tr).drop (findChild idx iblock)) =
        some (answer (kids.exts.find? fun e => decide (iblock < e.offset)))
    exact tryChildren_kids (fun _ _ _ _ hc => hc.1.lt)
      (fun _ _ _ _ hc => Nat.ne_of_gt hc.2.pos) (fun _ _ _ _ hc => hc.2.offsets) hSearch hHi hKids
  | 0, _, _, _, _, 0, _, hFuel, _ => by omega
  | d + 1, _, _, _, _, 0, _, hFuel, _ => by omega

/-- The first extent of an ordered list after a block is the one of least offset. -/
theorem find_least {l : List Extent} (hOrd : Ordered l) :
    (∀ e, l.find? (fun e => decide (iblock < e.offset)) = some e →
      e ∈ l ∧ iblock < e.offset ∧ ∀ x ∈ l, iblock < x.offset → e.offset ≤ x.offset) := by
  intro e he
  induction l with
  | nil => cases he
  | cons a l ih =>
    obtain ⟨hHead, hTail⟩ := List.pairwise_cons.mp hOrd
    rw [List.find?_cons] at he
    by_cases ha : iblock < a.offset
    · simp only [ha, decide_true, Option.some.injEq] at he
      subst he
      refine ⟨List.mem_cons_self, ha, ?_⟩
      intro x hx _
      rcases List.mem_cons.mp hx with rfl | hx
      · exact Nat.le_refl _
      · have hAfter := hHead x hx
        have hStop := a.offset_le_stop
        omega
    · simp only [ha, decide_false] at he
      obtain ⟨hMem, hLt, hLeast⟩ := ih hTail he
      refine ⟨List.mem_cons_of_mem _ hMem, hLt, ?_⟩
      intro x hx hxLt
      rcases List.mem_cons.mp hx with rfl | hx
      · omega
      · exact hLeast x hx hxLt

end LowerBound

--
-- The inode
--

/-- Lookup, search and enumeration agree on every block: the lookup finds an extent
exactly when it is enumerated and covers the block, the search returns the enumerated
extent of least offset after the block, and both return -ENOENT otherwise. -/
def Agrees (f : File) : Prop :=
  ∃ l, forEachExtent f = .ok l ∧ ∀ b, b < fileTop →
    (∀ e, lookupIblock f b = some (.ok e) ↔ e ∈ l ∧ e.covers b) ∧
    ((∀ e ∈ l, ¬ e.covers b) → lookupIblock f b = some (.error .enoent)) ∧
    (∀ e, nextExtent f b = some (.ok e) ↔
      e ∈ l ∧ b < e.offset ∧ ∀ x ∈ l, b < x.offset → e.offset ≤ x.offset) ∧
    ((∀ e ∈ l, e.offset ≤ b) → nextExtent f b = some (.error .enoent))

section Agrees

variable {f : File} {c : Content}

/-- The enumeration of an inode yields its content. -/
theorem Holds.forEachExtent (h : Holds f c) : forEachExtent f = .ok c.exts := by
  unfold Btree.forEachExtent
  by_cases hIdx : f.indexed = true
  · obtain ⟨d, hSub⟩ := h.tree hIdx
    have hDepth := hSub.depth_le (Nat.le_refl _)
    rw [if_pos hIdx, if_neg (Nat.ne_of_gt hSub.pos)]
    exact hSub.walk (by omega)
  · obtain ⟨rfl, -⟩ := h.flat (by simpa using hIdx)
    rw [if_neg hIdx]

/-- The scan of the inline array finds the extent that covers a block. -/
theorem find_covers {l : List Extent} {b : Nat} (hOrd : Ordered l) :
    (∀ e, answer (l.find? fun e => decide (e.covers b)) = .ok e ↔ e ∈ l ∧ e.covers b) ∧
      ((∀ e ∈ l, ¬ e.covers b) → answer (l.find? fun e => decide (e.covers b)) = .error .enoent) := by
  refine ⟨?_, ?_⟩
  · intro e
    constructor
    · intro hSome
      cases hFound : l.find? fun e => decide (e.covers b) with
      | none =>
        rw [hFound] at hSome
        cases hSome
      | some x =>
        rw [hFound] at hSome
        obtain rfl : x = e := by injection hSome
        exact ⟨List.mem_of_find?_eq_some hFound, by simpa using List.find?_some hFound⟩
    · rintro ⟨he, hCov⟩
      cases hFound : l.find? fun e => decide (e.covers b) with
      | none =>
        rw [List.find?_eq_none] at hFound
        exact absurd hCov (by simpa using hFound e he)
      | some x =>
        have hxCov : x.covers b := by simpa using List.find?_some hFound
        unfold Extent.covers at hCov hxCov
        rcases hOrd.apart (List.mem_of_find?_eq_some hFound) he with rfl | hBefore | hAfter
        · rfl
        · omega
        · omega
  · intro hNone
    have hFound : l.find? (fun e => decide (e.covers b)) = none := by
      rw [List.find?_eq_none]
      intro e he
      simpa using hNone e he
    rw [hFound]
    rfl

/-- The answer of a search for the first extent after a block. -/
theorem answer_least {l : List Extent} {b : Nat} (hOrd : Ordered l) (hPos : ∀ e ∈ l, 0 < e.len) :
    (∀ e, answer (l.find? fun e => decide (b < e.offset)) = .ok e ↔
      e ∈ l ∧ b < e.offset ∧ ∀ x ∈ l, b < x.offset → e.offset ≤ x.offset) ∧
    ((∀ e ∈ l, e.offset ≤ b) →
      answer (l.find? fun e => decide (b < e.offset)) = .error .enoent) := by
  refine ⟨?_, ?_⟩
  · intro e
    cases hFound : l.find? fun e => decide (b < e.offset) with
    | none =>
      rw [List.find?_eq_none] at hFound
      constructor
      · intro hNo
        cases hNo
      · rintro ⟨he, hLt, -⟩
        exact absurd hLt (by simpa using hFound e he)
    | some x =>
      obtain ⟨hxMem, hxLt, hxLeast⟩ := find_least hOrd x hFound
      constructor
      · intro hSome
        obtain rfl : x = e := by injection hSome
        exact ⟨hxMem, hxLt, hxLeast⟩
      · rintro ⟨he, hLt, hLeast⟩
        have hLe := hLeast x hxMem hxLt
        have hGe := hxLeast e he hLt
        have hxPos := hPos x hxMem
        have hePos := hPos e he
        have hEq : x = e := by
          rcases hOrd.apart hxMem he with hEq | hBefore | hAfter
          · exact hEq
          · unfold Extent.stop at hBefore
            omega
          · unfold Extent.stop at hAfter
            omega
        rw [hEq]
        rfl
  · intro hNone
    rw [find_none hNone]
    rfl

/-- The scan for the least offset stops at the first extent after the block. -/
theorem foldl_best {l : List Extent} {b : Nat} (hOrd : Ordered l)
    (hStops : ∀ e ∈ l, e.stop < fileTop) (hPos : ∀ e ∈ l, 0 < e.len) :
    l.foldl (fun best e => if b < e.offset ∧ e.offset < bestOff best then some e else best) none =
      l.find? fun e => decide (b < e.offset) := by
  have hKeep : ∀ (l : List Extent) (x : Extent), (∀ e ∈ l, x.stop ≤ e.offset) →
      l.foldl (fun best e => if b < e.offset ∧ e.offset < bestOff best then some e else best)
        (some x) = some x := by
    intro l x hAfter
    induction l with
    | nil => rfl
    | cons e l ih =>
      have hHead := hAfter e List.mem_cons_self
      have hStop := x.offset_le_stop
      rw [List.foldl_cons, if_neg]
      · exact ih fun y hy => hAfter y (List.mem_cons_of_mem _ hy)
      · show ¬ (b < e.offset ∧ e.offset < x.offset)
        omega
  induction l with
  | nil => rfl
  | cons e l ih =>
    obtain ⟨hHead, hTail⟩ := List.pairwise_cons.mp hOrd
    have hEnd := hStops e List.mem_cons_self
    have hLen := hPos e List.mem_cons_self
    rw [List.foldl_cons, List.find?_cons]
    by_cases hLt : b < e.offset
    · rw [if_pos]
      · simp only [hLt, decide_true]
        exact hKeep l e hHead
      · show b < e.offset ∧ e.offset < 2 ^ 64 - 1
        unfold Extent.stop fileTop at hEnd
        omega
    · rw [if_neg (fun hBoth => hLt hBoth.1)]
      simp only [hLt, decide_false]
      exact ih hTail (fun x hx => hStops x (List.mem_cons_of_mem _ hx))
        fun x hx => hPos x (List.mem_cons_of_mem _ hx)

/-- The search goes through the extents in order. -/
theorem Holds.nextExtent_eq (h : Holds f c) {b : Nat} (hb : b < fileTop) :
    nextExtent f b = some (answer (c.exts.find? fun e => decide (b < e.offset))) := by
  unfold nextExtent
  by_cases hIdx : f.indexed = true
  · obtain ⟨d, hSub⟩ := h.tree hIdx
    have hFuel := hSub.depth_lt
    unfold btreeNextExtent
    rw [if_pos hIdx, if_neg (Nat.ne_of_gt hSub.pos)]
    exact hSub.lowerBound hFuel hb
  · obtain ⟨rfl, hLeaf, hEight⟩ := h.flat (by simpa using hIdx)
    rw [if_neg hIdx, List.take_of_length_le hEight, foldl_best hLeaf.ordered h.stops hLeaf.pos]

/-- The three ways to read the extents of an inode agree. -/
theorem Holds.agrees (h : Holds f c) (hNo : NoCross c) : Agrees f := by
  refine ⟨c.exts, h.forEachExtent, ?_⟩
  intro b hb
  have hLeast := answer_least (b := b) (h.ordered hNo) h.pos
  have hNext := h.nextExtent_eq hb
  by_cases hIdx : f.indexed = true
  · obtain ⟨d, hSub⟩ := h.tree hIdx
    have hFuel := hSub.depth_lt
    have hLookup : lookupIblock f b = lookupBlock f.nodes levels f.root b := by
      unfold lookupIblock lookup
      rw [if_pos hIdx, if_neg (Nat.ne_of_gt hSub.pos)]
    obtain ⟨hFound, hMissed⟩ := hSub.lookup_iff hFuel (Nat.zero_le _) hb hNo
    rw [hLookup, hNext]
    refine ⟨hFound, hMissed, ?_, ?_⟩
    · intro e
      rw [Option.some.injEq]
      exact hLeast.1 e
    · intro hNone
      rw [hLeast.2 hNone]
  · obtain ⟨rfl, hLeaf, hEight⟩ := h.flat (by simpa using hIdx)
    have hTake : f.inline.take 8 = f.inline := List.take_of_length_le hEight
    have hCovers := find_covers (b := b) hLeaf.ordered
    have hLookup : lookupIblock f b =
        some (answer (f.inline.find? fun e => decide (e.covers b))) := by
      unfold lookupIblock
      rw [if_neg hIdx, hTake]
    rw [hLookup, hNext]
    simp only [Option.some.injEq]
    exact ⟨hCovers.1, hCovers.2, hLeast.1, hLeast.2⟩

end Agrees

end Briefs.Btree
