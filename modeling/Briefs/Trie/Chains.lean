import Briefs.Trie.Limb

/-!
# BrieFS — walks along the children of a node

The loops along a chain of siblings, on a limb: the search for a byte, the last sibling, and
the stores that link a new child or unlink one. The chain of a shaped limb has at most 256
nodes, so no loop comes to its cap.

## Results

* `findChild_found`, `findChild_missing` — the search finds the child with the byte.
* `createChild_attach` — a child is created and linked at the end, or no space is left.
* `unlinkChild_detach`, `collapseLink_detach` — a child is unlinked by a removal, or by the
  collapse after it.
-/

namespace Briefs.Trie

open TrieM

variable {w w' : World} {s : Store} {n : Node} {ref cur c next : Nat} {b : UInt8}
  {l lc : Label} {kids left rest k : Limb}

--
-- Reading
--

/-- The slot has the fields of the node. -/
structure Reads (m : Slot) (n : Node) : Prop where
  firstChild  : m.firstChild = n.firstChild
  nextSibling : m.nextSibling = n.nextSibling
  inode       : m.inode = n.inode
  byteVal     : m.byteVal = n.byteVal
  interm      : m.interm = n.interm
  statusLeaf  : m.statusLeaf = n.statusLeaf
  ftype       : m.ftype = n.ftype
  childCount  : m.childCount = n.childCount
  nameLen     : m.nameLen - 2 = n.name.length

theorem readSlot_reads (hn : w.node ref = some n) :
    ∃ m, readSlot ref w = (.ok m, w) ∧ Reads m n := by
  obtain ⟨m, hRun, hEq, hLen⟩ := readSlot_node hn
  refine ⟨m, hRun, ?_⟩
  rw [← hEq]
  exact ⟨rfl, rfl, rfl, rfl, rfl, rfl, rfl, rfl, hLen.trans (by rw [hEq])⟩

theorem Reads.isLeaf {m : Slot} (h : Reads m n) : m.isLeaf = n.isLeaf := by
  unfold Slot.isLeaf Node.isLeaf
  rw [h.interm, h.statusLeaf]

/-- The walk over a chain up to the child with the byte. -/
theorem findInChain_found : ∀ (left : Limb) (fuel prev : Nat) {stop : Nat},
    Limb.Held w.node (left.append (.cons c lc k rest)) stop → b ∉ left.bytes → lc.byteVal = b →
    left.width < fuel →
    findInChain b fuel prev ((left.append (.cons c lc k rest)).head stop) w =
      (.ok (c, left.last prev), w)
  | .nil, fuel, prev, stop, ⟨hNe, hNode, _, _⟩, _, hByte, hFuel => by
    obtain ⟨fuel, rfl⟩ : ∃ f, fuel = f + 1 := ⟨fuel - 1, by omega⟩
    obtain ⟨m, hRun, hReads⟩ := readSlot_reads hNode
    show findInChain b (fuel + 1) prev c w = _
    unfold findInChain
    rw [if_neg hNe]
    dsimp only
    rw [bind_ok (attempt_eq hRun)]
    dsimp only
    rw [if_pos (hReads.byteVal.trans hByte)]
    rfl
  | .cons r l kids left, fuel, prev, stop, ⟨hNe, hNode, _, hRest⟩, hNot, hByte, hFuel => by
    obtain ⟨fuel, rfl⟩ : ∃ f, fuel = f + 1 := ⟨fuel - 1, by omega⟩
    simp only [Limb.bytes, List.mem_cons, not_or] at hNot
    obtain ⟨m, hRun, hReads⟩ := readSlot_reads hNode
    have hTail := findInChain_found left fuel r hRest hNot.2 hByte
      (by simp only [Limb.width] at hFuel; omega)
    show findInChain b (fuel + 1) prev r w = _
    unfold findInChain
    rw [if_neg hNe]
    dsimp only
    rw [bind_ok (attempt_eq hRun)]
    dsimp only
    rw [if_neg (fun h => hNot.1 (h.symm.trans hReads.byteVal)), hReads.nextSibling]
    exact hTail

/-- The walk over a chain without the byte. -/
theorem findInChain_missing : ∀ (kids : Limb) (fuel prev : Nat),
    Limb.Held w.node kids 0 → b ∉ kids.bytes → kids.width ≤ fuel →
    findInChain b fuel prev (kids.head 0) w = (.error .enoent, w)
  | .nil, fuel, prev, _, _, _ => by
    show findInChain b fuel prev 0 w = _
    unfold findInChain
    rw [if_pos rfl]
    rfl
  | .cons r l kids rest, fuel, prev, ⟨hNe, hNode, _, hRest⟩, hNot, hFuel => by
    simp only [Limb.width] at hFuel
    obtain ⟨fuel, rfl⟩ : ∃ f, fuel = f + 1 := ⟨fuel - 1, by omega⟩
    simp only [Limb.bytes, List.mem_cons, not_or] at hNot
    obtain ⟨m, hRun, hReads⟩ := readSlot_reads hNode
    have hTail := findInChain_missing rest fuel r hRest hNot.2 (by omega)
    show findInChain b (fuel + 1) prev r w = _
    unfold findInChain
    rw [if_neg hNe]
    dsimp only
    rw [bind_ok (attempt_eq hRun)]
    dsimp only
    rw [if_neg (fun h => hNot.1 (h.symm.trans hReads.byteVal)), hReads.nextSibling]
    exact hTail

theorem findChildWithPrev_found (h : Sub w.node cur l next (left.append (.cons c lc k rest)))
    (hNot : lc.byteVal ∉ left.bytes)
    (hWidth : (left.append (.cons c lc k rest)).width ≤ 256) :
    findChildWithPrev cur lc.byteVal w = (.ok (c, left.last 0), w) := by
  obtain ⟨m, hRun, hReads⟩ := readSlot_reads h.node
  unfold findChildWithPrev
  rw [bind_ok hRun, hReads.firstChild]
  refine findInChain_found left siblingMax 0 h.held hNot rfl ?_
  rw [Limb.width_append] at hWidth
  unfold siblingMax
  omega

theorem findChildWithPrev_missing (h : Sub w.node cur l next kids) (hNot : b ∉ kids.bytes)
    (hWidth : kids.width ≤ 256) : findChildWithPrev cur b w = (.error .enoent, w) := by
  obtain ⟨m, hRun, hReads⟩ := readSlot_reads h.node
  unfold findChildWithPrev
  rw [bind_ok hRun, hReads.firstChild]
  refine findInChain_missing kids siblingMax 0 h.held hNot ?_
  unfold siblingMax
  omega

theorem findChild_found (h : Sub w.node cur l next (left.append (.cons c lc k rest)))
    (hNot : lc.byteVal ∉ left.bytes)
    (hWidth : (left.append (.cons c lc k rest)).width ≤ 256) :
    findChild cur lc.byteVal w = (.ok c, w) := by
  unfold findChild
  rw [bind_ok (attempt_eq (findChildWithPrev_found h hNot hWidth))]
  rfl

theorem findChild_missing (h : Sub w.node cur l next kids) (hNot : b ∉ kids.bytes)
    (hWidth : kids.width ≤ 256) : findChild cur b w = (.ok 0, w) := by
  unfold findChild
  rw [bind_ok (attempt_eq (findChildWithPrev_missing h hNot hWidth))]
  rfl

--
-- A new child
--

theorem lastSibling_last : ∀ (kids : Limb) (fuel prev : Nat), Limb.Held w.node kids 0 →
    kids ≠ .nil → kids.width ≤ fuel + 1 →
    lastSibling fuel (kids.head 0) w = (.ok (kids.last prev), w)
  | .nil, _, _, _, hNil, _ => absurd rfl hNil
  | .cons r l kids .nil, fuel, prev, ⟨_, hNode, _, _⟩, _, _ => by
    obtain ⟨m, hRun, hReads⟩ := readSlot_reads hNode
    have hStop : m.nextSibling = 0 := hReads.nextSibling
    show lastSibling fuel r w = _
    unfold lastSibling
    rw [bind_ok hRun, if_pos hStop]
    rfl
  | .cons r l kids (.cons r' l' kids' rest), fuel, prev, ⟨_, hNode, _, hRest⟩, _, hFuel => by
    simp only [Limb.width] at hFuel
    obtain ⟨fuel, rfl⟩ : ∃ f, fuel = f + 1 := ⟨fuel - 1, by omega⟩
    obtain ⟨m, hRun, hReads⟩ := readSlot_reads hNode
    have hNext : m.nextSibling = r' := hReads.nextSibling
    have hTail := lastSibling_last (.cons r' l' kids' rest) fuel r hRest
      (Limb.cons_ne_nil _ _ _ _)
      (by simp only [Limb.width]; omega)
    show lastSibling (fuel + 1) r w = _
    unfold lastSibling
    rw [bind_ok hRun]
    dsimp only
    rw [if_neg (by rw [hNext]; exact hRest.1), hNext]
    exact hTail

/-- `trie_link_child` on a node that is in use but linked from nowhere. -/
theorem linkChild_attach (hw : Sound w) (h : Sub w.node cur l next kids)
    (hc : w.node c = some (lc.node 0 0 0)) (hNe : c ≠ 0) (hOut : c ∉ cur :: kids.refs)
    (hWidth : kids.width ≤ 256) :
    ∃ w', linkChild cur c w = (.ok (), w') ∧ Sound w' ∧
      Sub w'.node cur l next (kids.append (.cons c lc .nil .nil)) ∧
      ∀ r, r ∉ cur :: kids.refs → w'.node r = w.node r := by
  obtain ⟨m, hRun, hReads⟩ := readSlot_reads h.node
  have hFirst : m.firstChild = kids.head 0 := hReads.firstChild
  have hCount : (kids.width + 1) % 2 ^ 16 = kids.width + 1 := Nat.mod_eq_of_lt (by omega)
  unfold linkChild
  rw [bind_ok hRun]
  rw [hFirst]
  by_cases hNil : kids = .nil
  · -- The first child of the node.
    subst hNil
    rw [if_pos (show Limb.nil.head 0 = 0 from rfl)]
    obtain ⟨v, hSet, hv, hNode⟩ := setSlot_node hw h.node (f := fun n => { n with firstChild := c })
      (g := fun n => { n with firstChild := c }) (fun _ => ⟨rfl, rfl⟩) fun _ _ => rfl
    rw [bind_ok hSet]
    have hCur : v.node cur = some (l.node c next 0) := by
      rw [hNode, Function.update_self]
      rfl
    obtain ⟨u, hSet', hu, hNode'⟩ := setSlot_node hv hCur
      (f := fun n => { n with childCount := (n.childCount + 1) % 2 ^ 16 })
      (g := fun n => { n with childCount := (n.childCount + 1) % 2 ^ 16 }) (fun _ => ⟨rfl, rfl⟩)
      fun _ _ => rfl
    rw [hNode, Function.update_idem] at hNode'
    refine ⟨u, hSet', hu, ?_, ?_⟩
    · rw [hNode']
      exact h.attach trivial hc hNe hOut
    · intro r hr
      have hNotCur : r ≠ cur := fun hEq => hr (hEq ▸ List.mem_cons_self)
      rw [hNode', Function.update_of_ne hNotCur]
  · have hHead : kids.head 0 ≠ 0 := by
      cases kids with
      | nil => exact absurd rfl hNil
      | cons r l kids rest => exact h.held.1
    have hMax : kids.width ≤ siblingMax + 1 := by
      unfold siblingMax
      omega
    rw [if_neg hHead, bind_ok (lastSibling_last kids siblingMax 0 h.held hNil hMax)]
    obtain ⟨z, hz, -⟩ := h.held.last_node 0 hNil
    have hLast := Limb.last_mem_refs kids 0 hNil
    have hApart : cur ≠ kids.last 0 := fun hEq => (List.nodup_cons.mp h.nodup).1 (hEq ▸ hLast)
    obtain ⟨v, hSet, hv, hNode⟩ := setSlot_node hw hz (f := fun n => { n with nextSibling := c })
      (g := fun n => { n with nextSibling := c }) (fun _ => ⟨rfl, rfl⟩) fun _ _ => rfl
    rw [bind_ok hSet]
    have hCur : v.node cur = some (l.node (kids.head 0) next kids.width) := by
      rw [hNode, Function.update_of_ne hApart]
      exact h.node
    obtain ⟨u, hSet', hu, hNode'⟩ := setSlot_node hv hCur
      (f := fun n => { n with childCount := (n.childCount + 1) % 2 ^ 16 })
      (g := fun n => { n with childCount := (n.childCount + 1) % 2 ^ 16 }) (fun _ => ⟨rfl, rfl⟩)
      fun _ _ => rfl
    have hCell : ({ l.node (kids.head 0) next kids.width with
        childCount := (kids.width + 1) % 2 ^ 16 } : Node) =
        l.node (kids.head c) next (kids.width + 1) := by
      rw [hCount, Limb.head_of_ne_nil hNil c 0]
      rfl
    refine ⟨u, hSet', hu, ?_, ?_⟩
    · rw [hNode']
      have hHeld := h.held.retarget 0 c hNil (List.nodup_cons.mp h.nodup).2 hz
      rw [← hNode] at hHeld
      have hc' : v.node c = some (lc.node 0 0 0) := by
        rw [hNode, Function.update_of_ne, hc]
        rintro rfl
        exact hOut (List.mem_cons_of_mem _ hLast)
      have hSub := h.attach hHeld hc' hNe hOut
      rw [← hCell] at hSub
      exact hSub
    · intro r hr
      have hNotCur : r ≠ cur := fun hEq => hr (hEq ▸ List.mem_cons_self)
      have hNotLast : r ≠ kids.last 0 := fun hEq => hr (hEq ▸ List.mem_cons_of_mem _ hLast)
      rw [hNode', Function.update_of_ne hNotCur, hNode, Function.update_of_ne hNotLast]

/-- `briefs_trie_create_child`: no node is in use that was not, or the new one is the last
child. -/
theorem createChild_attach (hw : Sound w) (h : Sub w.node cur l next kids)
    (hWidth : kids.width ≤ 256) (depth : Nat) (b : UInt8) (interm : Bool) {len : Nat} (hint : Nat)
    (hLen : len ≤ nameLen) :
    (∃ w', createChild cur depth b interm len hint w = (.ok none, w') ∧ Sound w' ∧
      w'.node = w.node) ∨
    ∃ c w' name, createChild cur depth b interm len hint w = (.ok (some c), w') ∧ Sound w' ∧
      w.node c = none ∧ name.length = len ∧
      Sub w'.node cur l next (kids.append (.cons c
        ⟨0, name, depth % 256, b, interm, false, 0⟩ .nil .nil)) ∧
      Refit w.node w'.node cur kids (kids.append (.cons c
        ⟨0, name, depth % 256, b, interm, false, 0⟩ .nil .nil)) := by
  unfold createChild
  obtain ⟨hv, hOut⟩ := allocNode_node hw hLen hint
  cases hAlloc : allocNode len hint w with
  | mk r v =>
    rw [hAlloc] at hv hOut
    rcases hOut with ⟨hNone, hSame⟩ | ⟨c, name, hSome, hNe, hFresh, hName, hNode⟩
    · obtain rfl : r = .ok none := hNone
      rw [bind_ok hAlloc]
      exact Or.inl ⟨v, rfl, hv, hSame⟩
    · obtain rfl : r = .ok (some c) := hSome
      rw [bind_ok hAlloc]
      dsimp only at hv hNode ⊢
      have hc : v.node c = some (Slot.zero.toNode name) := by rw [hNode, Function.update_self]
      obtain ⟨u, hSet, hu, hNode'⟩ := setSlot_node hv hc
        (f := fun n => { n with
          depth := depth % 256, byteVal := b, interm := interm, statusLeaf := false })
        (g := fun n => { n with
          depth := depth % 256, byteVal := b, interm := interm, statusLeaf := false })
        (fun _ => ⟨rfl, rfl⟩) fun _ _ => rfl
      rw [bind_ok hSet]
      rw [hNode, Function.update_idem] at hNode'
      have hcOut : c ∉ cur :: kids.refs := fun hIn => h.live c hIn hFresh
      have hOthers : ∀ r, r ≠ c → u.node r = w.node r := by
        intro r hr
        rw [hNode', Function.update_of_ne hr]
      have hSub : Sub u.node cur l next kids := by
        refine ⟨h.ne, ?_, h.held.congr fun r hr => hOthers r ?_, h.nodup⟩
        · rw [hOthers cur fun hEq => hcOut (hEq ▸ List.mem_cons_self)]
          exact h.node
        · rintro rfl
          exact hcOut (List.mem_cons_of_mem _ hr)
      have hcNode : u.node c = some (Label.node ⟨0, name, depth % 256, b, interm, false, 0⟩ 0 0 0) := by
        rw [hNode', Function.update_self]
        rfl
      obtain ⟨t, hLink, ht, hSub', hFrame⟩ := linkChild_attach hu hSub hcNode hNe hcOut hWidth
      rw [bind_ok (attempt_eq hLink)]
      refine Or.inr ⟨c, t, name, rfl, ht, hFresh, hName, hSub', ?_, ?_⟩
      · intro r hr
        rw [Limb.refs_append, List.mem_append] at hr
        rcases hr with hIn | hIn
        · exact Or.inl hIn
        · obtain rfl : r = c := by simpa [Limb.refs] using hIn
          exact Or.inr hFresh
      · intro r hr hr'
        have hNot : r ≠ c := by
          rintro rfl
          exact hr' (by simp [Limb.refs_append, Limb.refs])
        rw [hFrame r hr, hOthers r hNot]

--
-- A child is taken out
--

/-- The walk that finds the link to a node in a chain. -/
theorem relink_last (hw : Sound w) (target : Nat) : ∀ (a : Limb) (fuel w₀ : Nat) {n : Node},
    Limb.Held w.node a c → a ≠ .nil → c ∉ a.refs → a.width ≤ fuel →
    w.node (a.last w₀) = some n →
    ∃ w', relink c target fuel (a.head c) w = (.ok (), w') ∧ Sound w' ∧
      w'.node = Function.update w.node (a.last w₀) (some { n with nextSibling := target })
  | .nil, _, _, _, _, hNil, _, _, _ => absurd rfl hNil
  | .cons r l kids .nil, fuel, w₀, n, ⟨hNe, hNode, _, _⟩, _, _, hFuel, hLast => by
    simp only [Limb.width] at hFuel
    obtain ⟨fuel, rfl⟩ : ∃ f, fuel = f + 1 := ⟨fuel - 1, by omega⟩
    obtain ⟨m, hRun, hReads⟩ := readSlot_reads hNode
    have hNext : m.nextSibling = c := hReads.nextSibling
    obtain ⟨v, hSet, hv, hNode'⟩ := setSlot_node hw hLast
      (f := fun n => { n with nextSibling := target })
      (g := fun n => { n with nextSibling := target }) (fun _ => ⟨rfl, rfl⟩) fun _ _ => rfl
    refine ⟨v, ?_, hv, hNode'⟩
    show relink c target (fuel + 1) r w = _
    unfold relink
    rw [if_neg hNe]
    dsimp only
    rw [bind_ok (attempt_eq hRun)]
    dsimp only
    rw [if_pos hNext]
    exact hSet
  | .cons r l kids (.cons r' l' kids' rest), fuel, w₀, n, ⟨hNe, hNode, _, hRest⟩, _, hNot, hFuel,
      hLast => by
    simp only [Limb.width] at hFuel
    obtain ⟨fuel, rfl⟩ : ∃ f, fuel = f + 1 := ⟨fuel - 1, by omega⟩
    obtain ⟨m, hRun, hReads⟩ := readSlot_reads hNode
    have hNext : m.nextSibling = r' := hReads.nextSibling
    have hNot' : c ∉ (Limb.cons r' l' kids' rest).refs := fun hIn =>
      hNot (List.mem_cons_of_mem _ (List.mem_append_right _ hIn))
    obtain ⟨v, hTail, hv, hNode'⟩ := relink_last hw target
      (.cons r' l' kids' rest) fuel r hRest (Limb.cons_ne_nil _ _ _ _) hNot'
      (by simp only [Limb.width]; omega) hLast
    refine ⟨v, ?_, hv, hNode'⟩
    show relink c target (fuel + 1) r w = _
    unfold relink
    rw [if_neg hNe]
    dsimp only
    rw [bind_ok (attempt_eq hRun)]
    dsimp only
    have hOther : r' ≠ c := fun hEq => hNot' (hEq ▸ List.mem_cons_self)
    rw [hNext, if_neg hOther]
    exact hTail

/-- What is in use stays in use. -/
def Lasts (s s' : Store) : Prop := ∀ r, s r ≠ none → s' r ≠ none

theorem Lasts.refl (s : Store) : Lasts s s := fun _ hr => hr

theorem Lasts.trans {s s' s'' : Store} (h : Lasts s s') (h' : Lasts s' s'') : Lasts s s'' :=
  fun r hr => h' r (h r hr)

theorem Lasts.update (s : Store) (ref : Nat) (n : Node) :
    Lasts s (Function.update s ref (some n)) := by
  intro r hr
  by_cases hEq : r = ref
  · rw [hEq, Function.update_self]
    exact Option.some_ne_none _
  · rw [Function.update_of_ne hEq]
    exact hr

theorem count_down {count : Nat} (hPos : 0 < count) (hLe : count ≤ 256) :
    (count + 2 ^ 16 - 1) % 2 ^ 16 = count - 1 := by
  omega

/-- The links go past the child, and the counter of the node goes down. -/
theorem detach_count (h : Sub w.node cur l next (left.append (.cons c lc k rest)))
    (hWidth : (left.append (.cons c lc k rest)).width ≤ 256) {v : World} (hv : Sound v) {n : Node}
    (hLink : (left = .nil ∧ v.node = Function.update w.node cur (some (l.node (rest.head 0) next
        (left.append (.cons c lc k rest)).width))) ∨
      (left ≠ .nil ∧ w.node (left.last 0) = some n ∧ v.node = Function.update w.node (left.last 0)
        (some { n with nextSibling := rest.head 0 }))) :
    ∃ w', setSlot cur (fun n => { n with childCount := (n.childCount + 2 ^ 16 - 1) % 2 ^ 16 }) v =
        (.ok (), w') ∧ Sound w' ∧ Sub w'.node cur l next (left.append rest) ∧
      Refit w.node w'.node cur (left.append (.cons c lc k rest)) (left.append rest) ∧
      Lasts w.node w'.node := by
  have hCount : ((left.append (.cons c lc k rest)).width + 2 ^ 16 - 1) % 2 ^ 16 =
      left.width + rest.width := by
    have hEq : (left.append (.cons c lc k rest)).width = left.width + (rest.width + 1) :=
      Limb.width_append _ _
    rw [count_down (by omega) hWidth, hEq]
    rfl
  obtain ⟨hLeft, -, -, -, hRest⟩ := Limb.held_append.mp h.held
  have hNodup := List.nodup_cons.mp h.outer.1
  have hParts := List.nodup_append.mp hNodup.2
  have hRefs : ∀ r ∈ (left.append rest).refs, r ∈ (left.append (.cons c lc k rest)).refs := by
    intro r hr
    simp only [Limb.refs_append, Limb.refs, List.mem_append, List.mem_cons] at hr ⊢
    rcases hr with hIn | hIn
    · exact Or.inl hIn
    · exact Or.inr (Or.inr (Or.inr hIn))
  have hLastMem : left ≠ .nil → left.last 0 ∈ (left.append (.cons c lc k rest)).refs := by
    intro hNil
    rw [Limb.refs_append]
    exact List.mem_append_left _ (Limb.last_mem_refs left 0 hNil)
  rcases hLink with ⟨hNil, hNode⟩ | ⟨hNil, hz, hNode⟩
  · have hCur : v.node cur = some (l.node (rest.head 0) next
        (left.append (.cons c lc k rest)).width) := by
      rw [hNode, Function.update_self]
    obtain ⟨u, hSet, hu, hNode'⟩ := setSlot_node hv hCur
      (f := fun n => { n with childCount := (n.childCount + 2 ^ 16 - 1) % 2 ^ 16 })
      (g := fun n => { n with childCount := (n.childCount + 2 ^ 16 - 1) % 2 ^ 16 })
      (fun _ => ⟨rfl, rfl⟩) fun _ _ => rfl
    rw [hNode, Function.update_idem] at hNode'
    have hCell : ({ l.node (rest.head 0) next (left.append (.cons c lc k rest)).width with
        childCount := ((left.append (.cons c lc k rest)).width + 2 ^ 16 - 1) % 2 ^ 16 } : Node) =
        l.node (left.head (rest.head 0)) next (left.width + rest.width) := by
      rw [hCount, hNil]
      rfl
    refine ⟨u, hSet, hu, ?_, ⟨fun r hr => Or.inl (hRefs r hr), ?_⟩, ?_⟩
    · have hSub := h.detach (t := w.node) (by rw [hNil]; trivial) hRest
      rw [← hCell] at hSub
      rw [hNode']
      exact hSub
    · intro r hr _
      have hNotCur : r ≠ cur := fun hEq => hr (hEq ▸ List.mem_cons_self)
      rw [hNode', Function.update_of_ne hNotCur]
    · rw [hNode']
      exact Lasts.update _ _ _
  · have hLast := Limb.last_mem_refs left 0 hNil
    have hApart : cur ≠ left.last 0 := fun hEq => hNodup.1 (hEq ▸ List.mem_append_left _ hLast)
    have hCur : v.node cur = some (l.node ((left.append (.cons c lc k rest)).head 0) next
        (left.append (.cons c lc k rest)).width) := by
      rw [hNode, Function.update_of_ne hApart]
      exact h.node
    obtain ⟨u, hSet, hu, hNode'⟩ := setSlot_node hv hCur
      (f := fun n => { n with childCount := (n.childCount + 2 ^ 16 - 1) % 2 ^ 16 })
      (g := fun n => { n with childCount := (n.childCount + 2 ^ 16 - 1) % 2 ^ 16 })
      (fun _ => ⟨rfl, rfl⟩) fun _ _ => rfl
    have hCell : ({ l.node ((left.append (.cons c lc k rest)).head 0) next
        (left.append (.cons c lc k rest)).width with
        childCount := ((left.append (.cons c lc k rest)).width + 2 ^ 16 - 1) % 2 ^ 16 } : Node) =
        l.node (left.head (rest.head 0)) next (left.width + rest.width) := by
      rw [hCount, Limb.head_append, Limb.head_of_ne_nil hNil (rest.head 0) _]
      rfl
    refine ⟨u, hSet, hu, ?_, ⟨fun r hr => Or.inl (hRefs r hr), ?_⟩, ?_⟩
    · have hHeld := hLeft.retarget 0 (rest.head 0) hNil hParts.1 hz
      rw [← hNode] at hHeld
      have hRest' : Limb.Held v.node rest 0 := by
        refine hRest.congr fun r hr => ?_
        rw [hNode, Function.update_of_ne]
        rintro rfl
        exact hParts.2.2 _ hLast _ hr rfl
      have hSub := h.detach hHeld hRest'
      rw [← hCell] at hSub
      rw [hNode']
      exact hSub
    · intro r hr _
      have hNotCur : r ≠ cur := fun hEq => hr (hEq ▸ List.mem_cons_self)
      have hNotLast : r ≠ left.last 0 := fun hEq =>
        hr (hEq ▸ List.mem_cons_of_mem _ (hLastMem hNil))
      rw [hNode', Function.update_of_ne hNotCur, hNode, Function.update_of_ne hNotLast]
    · rw [hNode', hNode]
      exact (Lasts.update _ _ _).trans (Lasts.update _ _ _)

/-- `trie_unlink_child` with the sibling before the child. -/
theorem unlinkChild_detach (hw : Sound w)
    (h : Sub w.node cur l next (left.append (.cons c lc k rest)))
    (hWidth : (left.append (.cons c lc k rest)).width ≤ 256) :
    ∃ w', unlinkChild cur (left.last 0) c w = (.ok (), w') ∧ Sound w' ∧
      Sub w'.node cur l next (left.append rest) ∧
      Refit w.node w'.node cur (left.append (.cons c lc k rest)) (left.append rest) ∧
      Lasts w.node w'.node := by
  obtain ⟨m, hRun, -⟩ := readSlot_reads h.node
  obtain ⟨m', hRun', hReads⟩ := readSlot_reads h.focus.node
  have hNext : m'.nextSibling = rest.head 0 := hReads.nextSibling
  have hGot : attempt (do
      let _ ← readSlot cur
      readSlot c) w = (.ok (.ok m'), w) := by
    refine attempt_eq ?_
    rw [bind_ok hRun]
    exact hRun'
  unfold unlinkChild
  rw [bind_ok hGot]
  dsimp only
  rw [hNext]
  by_cases hNil : left = .nil
  · rw [if_pos (by rw [hNil]; rfl)]
    obtain ⟨v, hSet, hv, hNode⟩ := setSlot_node hw h.node
      (f := fun n => { n with firstChild := rest.head 0 })
      (g := fun n => { n with firstChild := rest.head 0 }) (fun _ => ⟨rfl, rfl⟩) fun _ _ => rfl
    rw [bind_ok hSet]
    exact detach_count (n := l.node 0 0 0) h hWidth hv (Or.inl ⟨hNil, hNode⟩)
  · obtain ⟨hLeft, -⟩ := Limb.held_append.mp h.held
    obtain ⟨z, hz, -⟩ := hLeft.last_node 0 hNil
    have hNe : left.last 0 ≠ 0 := hLeft.ne_zero _ (Limb.last_mem_refs left 0 hNil)
    obtain ⟨mz, hRunZ, -⟩ := readSlot_reads hz
    obtain ⟨v, hSet, hv, hNode⟩ := setSlot_node hw hz
      (f := fun n => { n with nextSibling := rest.head 0 })
      (g := fun n => { n with nextSibling := rest.head 0 }) (fun _ => ⟨rfl, rfl⟩) fun _ _ => rfl
    rw [if_neg hNe]
    rw [bind_ok (attempt_eq hRunZ)]
    dsimp only
    rw [bind_ok hSet]
    exact detach_count h hWidth hv (Or.inr ⟨hNil, hz, hNode⟩)

/-- The links of the collapse loop. -/
theorem collapseLink_detach (hw : Sound w)
    (h : Sub w.node cur l next (left.append (.cons c lc k rest)))
    (hWidth : (left.append (.cons c lc k rest)).width ≤ 256) {first : Nat}
    (hFirst : first = (left.append (.cons c lc k rest)).head 0) :
    ∃ v w', (if first = c then setSlot cur fun q => { q with firstChild := rest.head 0 }
        else relink c (rest.head 0) siblingMax first) w = (.ok (), v) ∧
      setSlot cur (fun q => { q with childCount := (q.childCount + 2 ^ 16 - 1) % 2 ^ 16 }) v =
        (.ok (), w') ∧ Sound w' ∧ Sub w'.node cur l next (left.append rest) ∧
      Refit w.node w'.node cur (left.append (.cons c lc k rest)) (left.append rest) ∧
      Lasts w.node w'.node := by
  obtain ⟨hLeft, -⟩ := Limb.held_append.mp h.held
  have hNot : c ∉ left.refs := fun hIn =>
    h.outer.2 c (List.mem_cons_of_mem _ (List.mem_append_left _ hIn)) List.mem_cons_self
  by_cases hNil : left = .nil
  · have hEq : first = c := by
      rw [hFirst, hNil]
      rfl
    rw [if_pos hEq]
    obtain ⟨v, hSet, hv, hNode⟩ := setSlot_node hw h.node
      (f := fun n => { n with firstChild := rest.head 0 })
      (g := fun n => { n with firstChild := rest.head 0 }) (fun _ => ⟨rfl, rfl⟩) fun _ _ => rfl
    obtain ⟨w', hRest⟩ := detach_count (n := l.node 0 0 0) h hWidth hv (Or.inl ⟨hNil, hNode⟩)
    exact ⟨v, w', hSet, hRest⟩
  · rw [Limb.head_append, Limb.head_of_ne_nil hNil _ c] at hFirst
    have hNe : first ≠ c := by
      intro hEq
      apply hNot
      rw [← hEq, hFirst]
      cases left with
      | nil => exact absurd rfl hNil
      | cons r l kids rest => exact List.mem_cons_self
    rw [if_neg hNe, hFirst]
    obtain ⟨z, hz, -⟩ := hLeft.last_node 0 hNil
    have hFuel : left.width ≤ siblingMax := by
      rw [Limb.width_append] at hWidth
      unfold siblingMax
      omega
    obtain ⟨v, hRun, hv, hNode⟩ := relink_last hw (rest.head 0) left
      siblingMax 0 hLeft hNil hNot hFuel hz
    obtain ⟨w', hRest⟩ := detach_count h hWidth hv (Or.inr ⟨hNil, hz, hNode⟩)
    exact ⟨v, w', hRun, hRest⟩

end Briefs.Trie
