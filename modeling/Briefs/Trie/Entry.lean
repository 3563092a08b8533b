import Briefs.Alloc.Sync
import Briefs.Trie.Isolation
import Briefs.Trie.Prune

/-!
# BrieFS — a directory as a finite map

The entries of a directory. The tree of a directory is the root with a limb, apart from the
nodes of the other directories; lookup, insertion, removal and update of the tree are those
of a map from names to inode numbers and types. A run is a list of calls; it is clean when
no call fails for want of space or for an unreadable page.

## Results

* `DirState.Holds.call` — a call returns what it does for the map, and leaves the directory
  with the entries of the map; or the device is full.
* `DirState.Holds.run` — so for every clean run.
* `directory_is_map` — in every clean run from an empty directory, lookups and results are
  those of the map.
-/

namespace Briefs.Trie

open TrieM

variable {w w' : World} {s : Store} {cur c next : Nat} {l lc : Label}
  {kids kids' left rest k k' : Limb} {pre bs : List UInt8}

--
-- Lookup and update
--

/-- The answer of a lookup. -/
def answer : Option (Nat × Nat) → Except Errno (Nat × Nat)
  | some e => .ok e
  | none => .error .enoent

/-- The name of a leaf, compared with a name that ends there or goes on. -/
theorem name_beq (hShaped : Limb.Shaped pre (left.append (.cons c lc k rest)))
    (hLeaf : lc.isLeaf = true) {name : List UInt8} (hName : name = pre ++ (lc.byteVal :: bs)) :
    ((lc.node (k.head 0) (rest.head 0) k.width).name == name) = decide (bs = []) := by
  obtain ⟨hLeafName, -, -, -⟩ := shaped_focus hShaped
  show (lc.name == name) = decide (bs = [])
  rw [hLeafName hLeaf, hName]
  by_cases hBs : bs = []
  · rw [hBs]
    simp
  · have hNe : ¬ pre ++ [lc.byteVal] = pre ++ lc.byteVal :: bs := by
      intro hEq
      have hTail := List.append_cancel_left hEq
      exact hBs (List.cons.inj hTail).2.symm
    rw [decide_eq_false hBs, beq_eq_false_iff_ne]
    exact hNe

theorem lookupLoop_find {name : List UInt8} : ∀ (bs : List UInt8) {pre : List UInt8} {cur : Nat}
    {l : Label} {next : Nat} {kids : Limb}, Sub w.node cur l next kids → Limb.Shaped pre kids →
    name = pre ++ bs → lookupLoop name bs cur w = (answer (kids.find bs), w)
  | [], _, _, _, _, kids, _, _, _ => by
    rw [Limb.find_nil]
    rfl
  | b :: bs, pre, cur, l, next, kids, h, hShaped, hName => by
    unfold lookupLoop
    by_cases hb : b ∈ kids.bytes
    · obtain ⟨left, c, lc, k, rest, rfl, hNot, rfl⟩ := Limb.exists_split kids hb
      obtain ⟨-, hPure, hKids, -⟩ := shaped_focus hShaped
      obtain ⟨m, hRead, hReads⟩ := readSlot_reads h.focus.node
      have hInterm : m.interm = lc.interm := hReads.interm
      have hIsLeaf : m.isLeaf = lc.isLeaf := hReads.isLeaf
      have hIno : m.inode = lc.inode := hReads.inode
      have hType : m.ftype = lc.ftype := hReads.ftype
      rw [bind_ok (findChildWithPrev_found h hNot hShaped.width_le)]
      dsimp only
      rw [bind_ok hRead, bind_ok (nameIs_node h.focus.node name), hInterm, hIsLeaf, hIno, hType,
        Limb.find_at hNot]
      by_cases hBs : bs = []
      · rw [if_pos hBs, if_pos hBs]
        unfold Label.entry
        cases hLeaf : lc.isLeaf with
        | true =>
          rw [name_beq hShaped hLeaf hName, decide_eq_true hBs]
          rfl
        | false => rfl
      · rw [if_neg hBs, if_neg hBs]
        cases hI : lc.interm with
        | true =>
          rw [if_pos rfl]
          exact lookupLoop_find bs h.focus hKids (by rw [hName, List.append_assoc]; rfl)
        | false =>
          have hLeaf : lc.isLeaf = true := by
            unfold Label.isLeaf
            rw [hI]
            rfl
          rw [if_neg Bool.false_ne_true, name_beq hShaped hLeaf hName, decide_eq_false hBs,
            if_neg Bool.false_ne_true, Limb.find_eq_none_of_nil (hPure hI)]
          rfl
    · rw [bind_error (findChildWithPrev_missing h hb hShaped.width_le), Limb.find_of_notMem hb]
      rfl

/-- An update of `bs` below `cur`. -/
structure Updated (e : Nat × Nat) (pre bs : List UInt8) (w w' : World) (cur : Nat)
    (kids kids' : Limb) : Prop where
  shaped : Limb.Shaped pre kids'
  full   : kids.Full → kids'.Full
  refit  : Refit w.node w'.node cur kids kids'
  find   : kids'.find = Function.update kids.find bs (some e)
  refs   : kids'.refs = kids.refs

theorem updateLoop_absent {name : List UInt8} {ino type : Nat} : ∀ (bs : List UInt8)
    {pre : List UInt8} {cur : Nat} {l : Label} {next : Nat} {kids : Limb},
    Sub w.node cur l next kids → Limb.Shaped pre kids → kids.find bs = none →
    updateLoop name ino type bs cur w = (.error .enoent, w)
  | [], _, _, _, _, _, _, _, _ => rfl
  | b :: bs, pre, cur, l, next, kids, h, hShaped, hNone => by
    unfold updateLoop
    by_cases hb : b ∈ kids.bytes
    · obtain ⟨left, c, lc, k, rest, rfl, hNot, rfl⟩ := Limb.exists_split kids hb
      obtain ⟨-, -, hKids, -⟩ := shaped_focus hShaped
      obtain ⟨m, hRead, hReads⟩ := readSlot_reads h.focus.node
      have hInterm : m.interm = lc.interm := hReads.interm
      have hIsLeaf : m.isLeaf = lc.isLeaf := hReads.isLeaf
      rw [Limb.find_at hNot] at hNone
      rw [bind_ok (findChild_found h hNot hShaped.width_le), if_neg h.focus.ne, bind_ok hRead]
      by_cases hBs : bs = []
      · rw [if_pos hBs] at hNone ⊢
        have hLeaf : lc.isLeaf = false := by
          by_contra hTrue
          unfold Label.entry at hNone
          rw [if_pos (by simpa using hTrue)] at hNone
          cases hNone
        rw [bind_ok (nameIs_node h.focus.node name), hIsLeaf, hLeaf, Bool.false_and,
          if_neg Bool.false_ne_true]
        rfl
      · rw [if_neg hBs] at hNone ⊢
        rw [hInterm]
        cases hI : lc.interm with
        | true => exact updateLoop_absent bs h.focus hKids hNone
        | false => rfl
    · rw [bind_ok (findChild_missing h hb hShaped.width_le), if_pos rfl]
      rfl

theorem updateLoop_present (name : List UInt8) (ino type : Nat) : ∀ (bs : List UInt8)
    {pre : List UInt8} {w : World} {cur : Nat} {l : Label} {next : Nat} {kids : Limb}, Sound w →
    Sub w.node cur l next kids → Limb.Shaped pre kids → name = pre ++ bs → kids.find bs ≠ none →
    ∃ w' kids', updateLoop name ino type bs cur w = (.ok (), w') ∧ Sound w' ∧
      Sub w'.node cur l next kids' ∧ Updated (ino, type) pre bs w w' cur kids kids'
  | [], _, _, _, _, _, kids, _, _, _, _, hSome => absurd (Limb.find_nil kids) hSome
  | b :: bs, pre, w, cur, l, next, kids, hw, h, hShaped, hName, hSome => by
    have hb : b ∈ kids.bytes := by
      by_contra hNot
      exact hSome (Limb.find_of_notMem hNot bs)
    obtain ⟨left, c, lc, k, rest, rfl, hNot, rfl⟩ := Limb.exists_split kids hb
    obtain ⟨hLeafName, hPure, hKids, -⟩ := shaped_focus hShaped
    obtain ⟨m, hRead, hReads⟩ := readSlot_reads h.focus.node
    have hInterm : m.interm = lc.interm := hReads.interm
    have hIsLeaf : m.isLeaf = lc.isLeaf := hReads.isLeaf
    rw [Limb.find_at hNot] at hSome
    unfold updateLoop
    rw [bind_ok (findChild_found h hNot hShaped.width_le), if_neg h.focus.ne, bind_ok hRead]
    by_cases hBs : bs = []
    · subst hBs
      rw [if_pos rfl] at hSome ⊢
      have hLeaf : lc.isLeaf = true := by
        by_contra hNotLeaf
        exact hSome (if_neg hNotLeaf)
      rw [bind_ok (nameIs_node h.focus.node name), hIsLeaf, hLeaf, name_beq hShaped hLeaf hName,
        if_pos (by decide)]
      obtain ⟨v, hSet, hv, hNode⟩ := setSlot_node hw h.focus.node
        (f := fun n => { n with inode := ino }) (g := fun n => { n with inode := ino })
        (fun _ => ⟨rfl, rfl⟩) fun _ _ => rfl
      rw [bind_ok hSet]
      obtain ⟨u, hSet', hu, hNode'⟩ := setSlot_node hv (node_at hNode)
        (f := fun n => { n with ftype := type }) (g := fun n => { n with ftype := type })
        (fun _ => ⟨rfl, rfl⟩) fun _ _ => rfl
      rw [hNode, Function.update_idem] at hNode'
      obtain ⟨hSub, hRefit⟩ := h.relabelChild { lc with inode := ino, ftype := type } hNode'
      refine ⟨u, _, hSet', hu, hSub, shaped_replace hShaped rfl hLeafName hPure hKids, ?_, hRefit, ?_,
        ?_⟩
      · intro hFull
        obtain ⟨hLeftFull, hBare, hKFull, hRestFull⟩ := Limb.full_append.mp hFull
        exact Limb.full_append.mpr ⟨hLeftFull, hBare, hKFull, hRestFull⟩
      · refine find_replace hNot rfl ?_
        funext x
        unfold below Label.entry
        by_cases hx : x = []
        · rw [hx, Function.update_self, if_pos rfl]
          exact if_pos hLeaf
        · rw [Function.update_of_ne hx, if_neg hx, if_neg hx]
      · rw [Limb.refs_append, Limb.refs_append]
        rfl
    · rw [if_neg hBs] at hSome ⊢
      have hI : lc.interm = true := by
        by_contra hNotI
        exact hSome (Limb.find_eq_none_of_nil (hPure (by simpa using hNotI)) bs)
      rw [hInterm, hI, if_pos rfl]
      obtain ⟨w', k', hRun, hw', hSub, hIn⟩ := updateLoop_present name ino type bs hw
        h.focus hKids (by rw [hName, List.append_assoc]; rfl) hSome
      refine ⟨w', _, hRun, hw', h.refill hSub hIn.refit, ?_, ?_, hIn.refit.refill, ?_, ?_⟩
      · refine shaped_replace hShaped rfl hLeafName (fun hFalse => ?_) hIn.shaped
        exact absurd (hFalse.symm.trans hI) Bool.false_ne_true
      · intro hFull
        obtain ⟨hLeftFull, hBare, hKFull, hRestFull⟩ := Limb.full_append.mp hFull
        refine Limb.full_append.mpr ⟨hLeftFull, fun hNil => ?_, hIn.full hKFull, hRestFull⟩
        have hGot := congrFun hIn.find bs
        rw [Function.update_self, hNil] at hGot
        cases hGot
      · exact find_replace hNot rfl (below_update hBs hIn.find)
      · rw [Limb.refs_append, Limb.refs_append, Limb.refs, Limb.refs, hIn.refs]

--
-- Directories
--

/-- What `briefs_trie_create_root` stores. -/
def rootLabel : Label := ⟨0, [], 0, 0, true, false, 0⟩

/-- The tree of the directory with the root `root`; `base` has the nodes of the others. -/
structure Planted (base : Store) (w : World) (root : Nat) (kids : Limb) : Prop where
  sub    : Sub w.node root rootLabel 0 kids
  shaped : Limb.Shaped [] kids
  others : ∀ r, r ∉ root :: kids.refs → w.node r = base r
  own    : ∀ r ∈ root :: kids.refs, base r = none

variable {base : Store} {root : Nat} {name : List UInt8}

/-- The tree after its limb was refitted. -/
theorem Planted.refit (h : Planted base w root kids) (hSub : Sub w'.node root rootLabel 0 kids')
    (hShaped : Limb.Shaped [] kids') (hRefit : Refit w.node w'.node root kids kids')
    (hKept : ∀ r ∈ kids.refs, r ∈ kids'.refs) : Planted base w' root kids' := by
  refine ⟨hSub, hShaped, ?_, ?_⟩
  · intro r hr
    simp only [List.mem_cons, not_or] at hr
    have hOut : r ∉ root :: kids.refs := by
      simp only [List.mem_cons, not_or]
      exact ⟨hr.1, fun hIn => hr.2 (hKept r hIn)⟩
    rw [hRefit.frame r hOut hr.2]
    exact h.others r hOut
  · intro r hr
    by_cases hIn : r ∈ root :: kids.refs
    · exact h.own r hIn
    · rw [← h.others r hIn]
      rcases List.mem_cons.mp hr with rfl | hNew
      · exact absurd List.mem_cons_self hIn
      · rcases hRefit.old r hNew with hOld | hNone
        · exact absurd (List.mem_cons_of_mem _ hOld) hIn
        · exact hNone

/-- The insertion into a directory that has a root. -/
theorem trieInsert_planted (ino type : Nat) (hw : Sound w) (h : Planted base w root kids)
    (hSome : name ≠ []) (hLen : name.length ≤ nameLen) :
    ∃ r w' kids', (∀ f, trieInsertWith f root name ino type w = (.ok (root, r), w')) ∧ Sound w' ∧
      Planted base w' root kids' ∧
      Grafted ⟨name, ino, type, refBlock root⟩ [] name w w' root kids kids' r := by
  obtain ⟨r, w', kids', hRun, hw', hSub, hGrafted⟩ :=
    insertLoop_graft (e := ⟨name, ino, type, refBlock root⟩) hLen name hSome hw h.sub h.shaped rfl
  refine ⟨r, w', kids', fun f => ?_, hw',
    h.refit hSub hGrafted.shaped hGrafted.refit hGrafted.kept, hGrafted⟩
  unfold trieInsertWith
  rw [if_neg h.sub.ne, bind_ok (attempt_eq (show ret root w = (.ok root, w) from rfl))]
  dsimp only
  rw [if_neg (Nat.not_lt.mpr hLen)]
  exact bind_ok (attempt_eq (hRun f))

/-- A name that no entry can have is refused. -/
theorem trieInsert_refused (ino type : Nat) (h : Planted base w root kids)
    (hBad : name = [] ∨ nameLen < name.length) (f : Reparent) :
    trieInsertWith f root name ino type w =
      (.ok (root, .error (if name = [] then .einval else .enametoolong)), w) := by
  unfold trieInsertWith
  rw [if_neg h.sub.ne, bind_ok (attempt_eq (show ret root w = (.ok root, w) from rfl))]
  dsimp only
  by_cases hNil : name = []
  · subst hNil
    rfl
  · rw [if_neg hNil, if_pos (hBad.resolve_left hNil)]
    rfl

/-- A directory without a root gets one first. -/
theorem trieInsert_zero (name : List UInt8) (ino type : Nat) (hw : Sound w) :
    (∃ w', (∀ f, trieInsertWith f 0 name ino type w = (.ok (0, .error .enospc), w')) ∧ Sound w' ∧
      w'.node = w.node) ∨
    ∃ root w₁, Sound w₁ ∧ Planted w.node w₁ root .nil ∧
      ∀ f, trieInsertWith f 0 name ino type w = trieInsertWith f root name ino type w₁ := by
  rcases createRoot_node hw with ⟨v, hRun, hv, hSame⟩ | ⟨root, v, hRun, hv, hNe, hFresh, hNode⟩
  · refine Or.inl ⟨v, fun f => ?_, hv, hSame⟩
    unfold trieInsertWith
    rw [if_pos rfl, bind_ok (attempt_eq hRun)]
    rfl
  · refine Or.inr ⟨root, v, hv, ⟨⟨hNe, ?_, trivial, List.nodup_singleton root⟩, trivial, ?_, ?_⟩,
      fun f => ?_⟩
    · rw [hNode, Function.update_self]
      rfl
    · intro r hr
      have hOther : r ≠ root := fun hEq => hr (hEq ▸ List.mem_cons_self)
      rw [hNode, Function.update_of_ne hOther]
    · intro r hr
      obtain rfl : r = root := by simpa [Limb.refs] using hr
      exact hFresh
    · unfold trieInsertWith
      rw [if_pos rfl, if_neg hNe, bind_ok (attempt_eq hRun),
        bind_ok (attempt_eq (show ret root v = (.ok root, v) from rfl))]

/-- Every node of the list is in use and is freed. -/
theorem freeList_node : ∀ (refs : List Nat) {w : World}, Sound w → refs.Nodup →
    (∀ r ∈ refs, w.node r ≠ none) →
    ∃ w', freeList refs w = (.ok (), w') ∧ Sound w' ∧
      ∀ r, w'.node r = if r ∈ refs then none else w.node r
  | [], w, hw, _, _ => ⟨w, rfl, hw, fun r => by simp⟩
  | ref :: refs, w, hw, hNodup, hLive => by
    obtain ⟨hOut, hNodup'⟩ := List.nodup_cons.mp hNodup
    obtain ⟨n, hn⟩ := Option.ne_none_iff_exists'.mp (hLive ref List.mem_cons_self)
    obtain ⟨v, hRun, hv, hNode⟩ := freeNode_node hw hn
    have hLive' : ∀ r ∈ refs, v.node r ≠ none := by
      intro r hr
      have hOther : r ≠ ref := fun hEq => hOut (hEq ▸ hr)
      rw [hNode, Function.update_of_ne hOther]
      exact hLive r (List.mem_cons_of_mem _ hr)
    obtain ⟨w', hRun', hw', hNode'⟩ := freeList_node refs hv hNodup' hLive'
    refine ⟨w', ?_, hw', fun r => ?_⟩
    · unfold freeList
      rw [bind_ok hRun]
      exact hRun'
    · rw [hNode', hNode]
      by_cases hEq : r = ref
      · rw [hEq, Function.update_self]
        simp
      · rw [Function.update_of_ne hEq]
        simp [hEq]

/-- What is left of the tree when a name is removed: a smaller one, or nothing. -/
structure Removed (w w' : World) (root root' : Nat) (name : List UInt8) (kids kids' : Limb)
    (freed : List Nat) : Prop where
  shaped : Limb.Shaped [] kids'
  full   : kids'.Full
  find   : kids'.find = Function.update kids.find name none
  frame  : ∀ r, r ∉ root :: kids.refs → w'.node r = w.node r
  live   : ∀ r ∈ freed, w'.node r ≠ none
  rest   : (kids' ≠ .nil ∧ root' = root ∧ Sub w'.node root rootLabel 0 kids' ∧
      (root :: kids.refs).Perm ((root :: kids'.refs) ++ freed)) ∨
    (kids' = .nil ∧ root' = 0 ∧ (root :: kids.refs).Perm freed)

theorem trieRemove_absent (h : Planted base w root kids) (hNone : kids.find name = none) :
    trieRemove root name w = (.error .enoent, w) := by
  unfold trieRemove
  rw [if_neg h.sub.ne, bind_error (removeLoop_absent name h.sub h.shaped hNone)]

theorem trieRemove_present (hw : Sound w) (h : Planted base w root kids) (hFull : kids.Full)
    (hSome : kids.find name ≠ none) :
    ∃ root' freed w' kids', trieRemove root name w = (.ok (root', freed), w') ∧ Sound w' ∧
      Removed w w' root root' name kids kids' freed := by
  have hFrame : ∀ {w' : World} {kids' : Limb} {freed : List Nat},
      Pruned [] name w w' root kids kids' freed →
        ∀ r, r ∉ root :: kids.refs → w'.node r = w.node r := by
    intro w' kids' freed hPruned r hr
    refine hPruned.refit.frame r hr fun hIn => hr (List.mem_cons_of_mem _ ?_)
    exact hPruned.refs.mem_iff.mpr (List.mem_append_left _ hIn)
  rcases removeLoop_present name [] hw h.sub h.shaped hFull hSome with
    ⟨w', kids', hRun, hw', hSub, hPruned, hKids⟩ |
      ⟨path, x, w₁, hRun, w', kids', freed, hCollapse, hw', hSub, hPruned⟩
  · refine ⟨root, [], w', kids', ?_, hw', hPruned.shaped, hPruned.full, hPruned.find, hFrame hPruned,
      fun r hr => absurd hr List.not_mem_nil, Or.inl ⟨hKids, rfl, hSub, ?_⟩⟩
    · unfold trieRemove
      rw [if_neg h.sub.ne, bind_ok hRun]
      rfl
    · exact (hPruned.refs).cons root
  · have hLive : ∀ r ∈ root :: kids.refs, w'.node r ≠ none := fun r hr =>
      hPruned.live r (h.sub.live r hr)
    have hFreed : ∀ r ∈ freed, w'.node r ≠ none := fun r hr =>
      hLive r (List.mem_cons_of_mem _ (hPruned.refs.mem_iff.mpr (List.mem_append_right _ hr)))
    obtain ⟨m, hRead, hReads⟩ := readSlot_reads hSub.node
    have hStart : trieRemove root name w =
        (if m.isBare then ret (0, freed ++ [root]) else ret (root, freed)) w' := by
      have hDone : collapse path [x] w₁ = (.ok freed, w') := hCollapse
      unfold trieRemove
      rw [if_neg h.sub.ne, bind_ok hRun]
      dsimp only
      rewrite [bind_ok hDone, bind_ok (attempt_eq hRead)]
      rfl
    rw [hStart]
    by_cases hBare : m.isBare = true
    · obtain ⟨-, hNil⟩ := (isBare_iff hReads).mp hBare
      rw [if_pos hBare]
      refine ⟨0, freed ++ [root], w', kids', rfl, hw', hPruned.shaped, hPruned.full, hPruned.find,
        hFrame hPruned, ?_, Or.inr ⟨hNil, rfl, ?_⟩⟩
      · intro r hr
        rcases List.mem_append.mp hr with hIn | hIn
        · exact hFreed r hIn
        · obtain rfl := List.mem_singleton.mp hIn
          exact hLive r List.mem_cons_self
      · have hRefs := hPruned.refs
        rw [hNil] at hRefs
        exact (hRefs.cons root).trans (List.perm_append_singleton root freed).symm
    · rw [if_neg hBare]
      have hKids : kids' ≠ .nil := by
        intro hNil
        exact hBare ((isBare_iff hReads).mpr ⟨rfl, hNil⟩)
      exact ⟨root, freed, w', kids', rfl, hw', hPruned.shaped, hPruned.full, hPruned.find,
        hFrame hPruned, hFreed, Or.inl ⟨hKids, rfl, hSub, hPruned.refs.cons root⟩⟩

/-- The tree once the nodes that are no longer linked have been freed. -/
theorem Removed.planted {root' : Nat} {freed : List Nat} {v : World}
    (h : Planted base w root kids) (hRemoved : Removed w w' root root' name kids kids' freed)
    (hNode : ∀ r, v.node r = if r ∈ freed then none else w'.node r) :
    (kids' ≠ .nil ∧ root' = root ∧ Planted base v root kids') ∨
      (kids' = .nil ∧ root' = 0 ∧ v.node = base) := by
  rcases hRemoved.rest with ⟨hKids, hRoot, hSub, hPerm⟩ | ⟨hNil, hRoot, hPerm⟩
  · have hNodup : ((root :: kids'.refs) ++ freed).Nodup := hPerm.nodup_iff.mp h.sub.nodup
    have hSame : ∀ r ∈ root :: kids'.refs, v.node r = w'.node r := by
      intro r hr
      rw [hNode, if_neg]
      exact fun hIn => List.disjoint_of_nodup_append hNodup hr hIn
    refine Or.inl ⟨hKids, hRoot, ⟨hSub.ne, ?_, ?_, hSub.nodup⟩, hRemoved.shaped, ?_, ?_⟩
    · rw [hSame root List.mem_cons_self]
      exact hSub.node
    · exact hSub.held.congr fun r hr => hSame r (List.mem_cons_of_mem _ hr)
    · intro r hr
      rw [hNode]
      by_cases hFreed : r ∈ freed
      · rw [if_pos hFreed]
        exact (h.own r (hPerm.mem_iff.mpr (List.mem_append_right _ hFreed))).symm
      · rw [if_neg hFreed]
        have hOut : r ∉ root :: kids.refs := by
          intro hIn
          rcases List.mem_append.mp (hPerm.mem_iff.mp hIn) with hOld | hNew
          · exact hr hOld
          · exact hFreed hNew
        rw [hRemoved.frame r hOut]
        exact h.others r hOut
    · intro r hr
      exact h.own r (hPerm.mem_iff.mpr (List.mem_append_left _ hr))
  · refine Or.inr ⟨hNil, hRoot, funext fun r => ?_⟩
    rw [hNode]
    by_cases hFreed : r ∈ freed
    · rw [if_pos hFreed]
      exact (h.own r (hPerm.mem_iff.mpr hFreed)).symm
    · rw [if_neg hFreed]
      have hOut : r ∉ root :: kids.refs := fun hIn => hFreed (hPerm.mem_iff.mp hIn)
      rw [hRemoved.frame r hOut]
      exact h.others r hOut

--
-- Calls and runs
--

/-- The entries of a directory. -/
abbrev Entries := List UInt8 → Option (Nat × Nat)

/-- A directory: `dir_trie_root` of its inode, and the pages. -/
structure DirState where
  root  : Nat
  world : World

/-- A call with its result; the nodes that a removal collects are freed. -/
def DirState.call (d : DirState) : Op → Except Errno Unit × DirState
  | .insert name ino type =>
    match trieInsert d.root name ino type d.world with
    | (.ok (root, r), w) => (r, ⟨root, w⟩)
    | (.error e, w) => (.error e, ⟨d.root, w⟩)
  | .remove name =>
    match trieRemove d.root name d.world with
    | (.ok (root, freed), w) =>
      match freeList freed w with
      | (r, w) => (r, ⟨root, w⟩)
    | (.error e, w) => (.error e, ⟨d.root, w⟩)
  | .update name ino type =>
    match trieUpdateEntry d.root name ino type d.world with
    | (r, w) => (r, ⟨d.root, w⟩)

/-- What a call is for: its result and the entries after it. -/
def Op.spec (m : Entries) : Op → Except Errno Unit × Entries
  | .insert name ino type =>
    if name = [] then (.error .einval, m)
    else if nameLen < name.length then (.error .enametoolong, m)
    else if (m name).isSome then (.error .eexist, m)
    else (.ok (), Function.update m name (some (ino, type)))
  | .remove name =>
    if (m name).isSome then (.ok (), Function.update m name none) else (.error .enoent, m)
  | .update name ino type =>
    if (m name).isSome then (.ok (), Function.update m name (some (ino, type)))
    else (.error .enoent, m)

def DirState.run (d : DirState) (ops : List Op) : DirState := ops.foldl (fun d op => (d.call op).2) d

/-- The entries after the calls. -/
def Entries.run (m : Entries) (ops : List Op) : Entries := ops.foldl (fun m op => (op.spec m).2) m

/-- No call of the run fails for want of space or for an unreadable page. -/
def DirState.Clean (d : DirState) (ops : List Op) : Prop :=
  ∀ pre op post, ops = pre ++ op :: post →
    ((d.run pre).call op).1 ≠ .error .enospc ∧ ((d.run pre).call op).1 ≠ .error .eio

/-- The directory has the entries; `base` has the nodes of the other directories. -/
structure DirState.Holds (base : Store) (d : DirState) (m : Entries) : Prop where
  sound : Sound d.world
  tree  : (d.root = 0 ∧ d.world.node = base ∧ m = fun _ => none) ∨
    ∃ kids, Planted base d.world d.root kids ∧ kids.Full ∧ kids.find = m

theorem call_insert {d : DirState} {ino type : Nat} {r : Except Errno Unit}
    (h : trieInsert d.root name ino type d.world = (.ok (root, r), w')) :
    d.call (.insert name ino type) = (r, ⟨root, w'⟩) := by
  unfold DirState.call
  simp only [h]

theorem call_remove {d : DirState} {freed : List Nat} {r : Except Errno Unit}
    (h : trieRemove d.root name d.world = (.ok (root, freed), w))
    (hFree : freeList freed w = (r, w')) :
    d.call (.remove name) = (r, ⟨root, w'⟩) := by
  unfold DirState.call
  simp only [h, hFree]

theorem call_remove_error {d : DirState} {e : Errno}
    (h : trieRemove d.root name d.world = (.error e, w')) :
    d.call (.remove name) = (.error e, ⟨d.root, w'⟩) := by
  unfold DirState.call
  simp only [h]

theorem call_update {d : DirState} {ino type : Nat} {r : Except Errno Unit}
    (h : trieUpdateEntry d.root name ino type d.world = (r, w')) :
    d.call (.update name ino type) = (r, ⟨d.root, w'⟩) := by
  unfold DirState.call
  simp only [h]

theorem spec_remove (m : Entries) (name : List UInt8) : Op.spec m (.remove name) =
    if (m name).isSome then (.ok (), Function.update m name none) else (.error .enoent, m) := rfl

theorem spec_update (m : Entries) (name : List UInt8) (ino type : Nat) :
    Op.spec m (.update name ino type) =
      if (m name).isSome then (.ok (), Function.update m name (some (ino, type)))
      else (.error .enoent, m) := rfl

/-- An insertion into a directory with a root. -/
theorem call_insert_planted (name : List UInt8) (ino type : Nat) (hw : Sound w)
    (h : Planted base w root kids) (hFull : kids.Full) :
    (∃ w' kids', (∀ f, trieInsertWith f root name ino type w = (.ok (root, .error .enospc), w')) ∧
      Sound w' ∧ Planted base w' root kids' ∧ kids'.find = kids.find) ∨
    ∃ w' kids', (∀ f, trieInsertWith f root name ino type w =
        (.ok (root, (Op.spec kids.find (.insert name ino type)).1), w')) ∧ Sound w' ∧
      Planted base w' root kids' ∧ kids'.Full ∧
      kids'.find = (Op.spec kids.find (.insert name ino type)).2 ∧
      ((Op.spec kids.find (.insert name ino type)).1 = .error .eexist → w' = w) := by
  unfold Op.spec
  dsimp only
  by_cases hNil : name = []
  · rw [if_pos hNil]
    refine Or.inr ⟨w, kids, fun f => ?_, hw, h, hFull, rfl, fun _ => rfl⟩
    rw [trieInsert_refused ino type h (Or.inl hNil), if_pos hNil]
  · rw [if_neg hNil]
    by_cases hLong : nameLen < name.length
    · rw [if_pos hLong]
      refine Or.inr ⟨w, kids, fun f => ?_, hw, h, hFull, rfl, fun _ => rfl⟩
      rw [trieInsert_refused ino type h (Or.inr hLong), if_neg hNil]
    · rw [if_neg hLong]
      obtain ⟨r, w', kids', hRun, hw', hPlanted, hGrafted⟩ :=
        trieInsert_planted ino type hw h hNil (Nat.not_lt.mp hLong)
      cases hGrafted.outcome with
      | stored hNone hFind hFull' =>
        rw [hNone, if_neg (by decide)]
        exact Or.inr ⟨w', kids', hRun, hw', hPlanted, hFull' hFull, hFind, fun hEq => by cases hEq⟩
      | present hSome hSame hKids =>
        rw [if_pos (Option.isSome_iff_ne_none.mpr hSome)]
        subst hSame hKids
        exact Or.inr ⟨w', kids', hRun, hw', hPlanted, hFull, rfl, fun _ => rfl⟩
      | noSpace hNone hFind hRes =>
        exact Or.inl ⟨w', kids', hRun, hw', hPlanted, hFind⟩

/-- The calls do what they are for, or the device is full. -/
theorem DirState.Holds.call {d : DirState} {m : Entries} (h : d.Holds base m) (op : Op) :
    (d.call op).1 = .error .enospc ∨
      ((d.call op).1 = (op.spec m).1 ∧ (d.call op).2.Holds base (op.spec m).2) := by
  obtain ⟨hw, hTree⟩ := h
  cases op with
  | insert name ino type =>
    -- From a directory with a root on.
    have hGo : ∀ (root : Nat) (w : World) (kids : Limb), Sound w → Planted base w root kids →
        kids.Full → kids.find = m →
        (∀ f, trieInsertWith f d.root name ino type d.world = trieInsertWith f root name ino type w) →
        (d.call (.insert name ino type)).1 = .error .enospc ∨
          ((d.call (.insert name ino type)).1 = (Op.spec m (.insert name ino type)).1 ∧
            (d.call (.insert name ino type)).2.Holds base (Op.spec m (.insert name ino type)).2) := by
      intro root w kids hw h hFull hFind hEq
      rcases call_insert_planted name ino type hw h hFull with
        ⟨w', kids', hRun, -⟩ | ⟨w', kids', hRun, hw', hPlanted, hFull', hFind', -⟩
      · rw [call_insert (by rw [trieInsert_eq, hEq, hRun])]
        exact Or.inl rfl
      · rw [call_insert (by rw [trieInsert_eq, hEq, hRun]), ← hFind]
        exact Or.inr ⟨rfl, hw', Or.inr ⟨kids', hPlanted, hFull', hFind'⟩⟩
    rcases hTree with ⟨hRoot, hNode, hm⟩ | ⟨kids, hPlanted, hFull, hFind⟩
    · rcases trieInsert_zero name ino type hw with ⟨w', hRun, -⟩ | ⟨root, w₁, hw₁, hPlanted, hEq⟩
      · rw [call_insert (by rw [trieInsert_eq, hRoot, hRun])]
        exact Or.inl rfl
      · rw [hNode] at hPlanted
        refine hGo root w₁ .nil hw₁ hPlanted trivial ?_ ?_
        · rw [hm]
          rfl
        · rw [hRoot]
          exact hEq
    · exact hGo d.root d.world kids hw hPlanted hFull hFind fun _ => rfl
  | remove name =>
    refine Or.inr ?_
    rw [spec_remove]
    rcases hTree with ⟨hRoot, hNode, hm⟩ | ⟨kids, hPlanted, hFull, hFind⟩
    · have hRun : trieRemove d.root name d.world = (.error .enoent, d.world) := by
        unfold trieRemove
        rw [if_pos hRoot]
        rfl
      rw [call_remove_error hRun, hm]
      exact ⟨rfl, hw, Or.inl ⟨hRoot, hNode, rfl⟩⟩
    · rw [← hFind]
      by_cases hSome : kids.find name = none
      · rw [call_remove_error (trieRemove_absent hPlanted hSome), hSome]
        exact ⟨rfl, hw, Or.inr ⟨kids, hPlanted, hFull, rfl⟩⟩
      · obtain ⟨root', freed, w', kids', hRun, hw', hRemoved⟩ :=
          trieRemove_present hw hPlanted hFull hSome
        have hNodup : freed.Nodup := by
          rcases hRemoved.rest with ⟨-, -, -, hPerm⟩ | ⟨-, -, hPerm⟩
          · exact (List.nodup_append.mp (hPerm.nodup_iff.mp hPlanted.sub.nodup)).2.1
          · exact hPerm.nodup_iff.mp hPlanted.sub.nodup
        obtain ⟨v, hFree, hv, hNode⟩ := freeList_node freed hw' hNodup hRemoved.live
        rw [call_remove hRun hFree, if_pos (Option.isSome_iff_ne_none.mpr hSome)]
        refine ⟨rfl, hv, ?_⟩
        rcases hRemoved.planted hPlanted hNode with ⟨-, rfl, hPlanted'⟩ | ⟨hNil, rfl, hBase⟩
        · exact Or.inr ⟨kids', hPlanted', hRemoved.full, hRemoved.find⟩
        · refine Or.inl ⟨rfl, hBase, ?_⟩
          rw [← hRemoved.find, hNil]
          rfl
  | update name ino type =>
    refine Or.inr ?_
    rw [spec_update]
    rcases hTree with ⟨hRoot, hNode, hm⟩ | ⟨kids, hPlanted, hFull, hFind⟩
    · have hRun : trieUpdateEntry d.root name ino type d.world = (.error .enoent, d.world) := by
        unfold trieUpdateEntry
        rw [if_pos hRoot]
        rfl
      rw [call_update hRun, hm]
      exact ⟨rfl, hw, Or.inl ⟨hRoot, hNode, rfl⟩⟩
    · rw [← hFind]
      by_cases hSome : kids.find name = none
      · have hRun : trieUpdateEntry d.root name ino type d.world = (.error .enoent, d.world) := by
          unfold trieUpdateEntry
          rw [if_neg hPlanted.sub.ne]
          exact updateLoop_absent name hPlanted.sub hPlanted.shaped hSome
        rw [call_update hRun, hSome]
        exact ⟨rfl, hw, Or.inr ⟨kids, hPlanted, hFull, rfl⟩⟩
      · obtain ⟨w', kids', hRun, hw', hSub, hUpdated⟩ :=
          updateLoop_present name ino type name hw hPlanted.sub hPlanted.shaped rfl hSome
        have hCall : trieUpdateEntry d.root name ino type d.world = (.ok (), w') := by
          unfold trieUpdateEntry
          rw [if_neg hPlanted.sub.ne]
          exact hRun
        rw [call_update hCall, if_pos (Option.isSome_iff_ne_none.mpr hSome)]
        refine ⟨rfl, hw', Or.inr ⟨kids', ?_, hUpdated.full hFull, hUpdated.find⟩⟩
        exact hPlanted.refit hSub hUpdated.shaped hUpdated.refit fun r hr => hUpdated.refs ▸ hr

/-- A name that is there changes nothing. -/
theorem DirState.Holds.call_eexist {d : DirState} {m : Entries} (h : d.Holds base m) {op : Op}
    (hThere : (d.call op).1 = .error .eexist) : (d.call op).2 = d := by
  have hSpec : (op.spec m).1 = .error .eexist := by
    rcases h.call op with hFull | ⟨hEq, -⟩
    · rw [hFull] at hThere
      cases hThere
    · rw [← hEq]
      exact hThere
  cases op with
  | insert name ino type =>
    rcases h.tree with ⟨-, -, hm⟩ | ⟨kids, hPlanted, hFull, hFind⟩
    · rw [hm] at hSpec
      unfold Op.spec at hSpec
      dsimp only at hSpec
      split at hSpec
      · cases hSpec
      · split at hSpec
        · cases hSpec
        · cases hSpec
    · rw [← hFind] at hSpec
      rcases call_insert_planted name ino type h.sound hPlanted hFull with
        ⟨w', kids', hRun, -⟩ | ⟨w', kids', hRun, -, -, -, -, hSame⟩
      · rw [call_insert (by rw [trieInsert_eq, hRun])] at hThere
        cases hThere
      · rw [call_insert (by rw [trieInsert_eq, hRun]), hSame hSpec]
  | remove name =>
    rw [spec_remove] at hSpec
    split at hSpec
    · cases hSpec
    · cases hSpec
  | update name ino type =>
    rw [spec_update] at hSpec
    split at hSpec
    · cases hSpec
    · cases hSpec

theorem DirState.run_append (d : DirState) (pre : List Op) (op : Op) :
    d.run (pre ++ [op]) = ((d.run pre).call op).2 := by
  unfold DirState.run
  rw [List.foldl_append]
  rfl

theorem Entries.run_append (m : Entries) (pre : List Op) (op : Op) :
    m.run (pre ++ [op]) = (op.spec (m.run pre)).2 := by
  unfold Entries.run
  rw [List.foldl_append]
  rfl

/-- The whole run. -/
theorem DirState.Holds.run {d : DirState} {m : Entries} (h : d.Holds base m) {ops : List Op}
    (hClean : d.Clean ops) : ∀ pre post, ops = pre ++ post → (d.run pre).Holds base (m.run pre) := by
  intro pre
  induction pre using List.reverseRecOn with
  | nil => exact fun _ _ => h
  | append_singleton pre op ih =>
    intro post hEq
    have hSplit : ops = pre ++ op :: post := by
      rw [hEq, List.append_assoc]
      rfl
    rw [DirState.run_append, Entries.run_append]
    rcases (ih (op :: post) hSplit).call op with hFull | ⟨-, hHolds⟩
    · exact absurd hFull (hClean pre op post hSplit).1
    · exact hHolds

/-- `briefs_trie_lookup` finds the entries. -/
theorem DirState.Holds.lookup {d : DirState} {m : Entries} (h : d.Holds base m)
    (name : List UInt8) : trieLookup d.root name d.world = (answer (m name), d.world) := by
  unfold trieLookup
  rcases h.tree with ⟨hRoot, -, hm⟩ | ⟨kids, hPlanted, -, hFind⟩
  · rw [if_pos hRoot, hm]
    rfl
  · rw [if_neg hPlanted.sub.ne, ← hFind]
    exact lookupLoop_find name hPlanted.sub hPlanted.shaped rfl

theorem holds_empty (hw : Sound w) : (DirState.mk 0 w).Holds w.node fun _ => none :=
  ⟨hw, Or.inl ⟨rfl, rfl, rfl⟩⟩

/-- A directory is a finite map: as long as no call fails for want of space, every call
returns what it does for the map, and a lookup finds what is in the map. -/
theorem directory_is_map (hw : Sound w) {ops : List Op} (hClean : (DirState.mk 0 w).Clean ops)
    {pre post : List Op} (hSplit : ops = pre ++ post) :
    (∀ name, trieLookup ((DirState.mk 0 w).run pre).root name ((DirState.mk 0 w).run pre).world =
      (answer (Entries.run (fun _ => none) pre name), ((DirState.mk 0 w).run pre).world)) ∧
    ∀ op rest, post = op :: rest →
      (((DirState.mk 0 w).run pre).call op).1 = (op.spec (Entries.run (fun _ => none) pre)).1 ∧
      ((((DirState.mk 0 w).run pre).call op).1 = .error .eexist →
        (((DirState.mk 0 w).run pre).call op).2 = (DirState.mk 0 w).run pre) := by
  have hHolds := (holds_empty hw).run hClean pre post hSplit
  refine ⟨hHolds.lookup, ?_⟩
  intro op rest hPost
  refine ⟨?_, hHolds.call_eexist⟩
  rcases hHolds.call op with hFull | ⟨hEq, -⟩
  · exact absurd hFull (hClean pre op rest (by rw [hSplit, hPost])).1
  · exact hEq

theorem clean_nil (d : DirState) : d.Clean [] := by
  intro pre op post hSplit
  cases pre with
  | nil => cases hSplit
  | cons op' pre => cases hSplit

theorem clean_cons {d : DirState} {op : Op} {ops : List Op}
    (hHere : (d.call op).1 ≠ .error .enospc ∧ (d.call op).1 ≠ .error .eio)
    (hRest : (d.call op).2.Clean ops) : d.Clean (op :: ops) := by
  intro pre op' post hSplit
  cases pre with
  | nil =>
    obtain ⟨rfl, -⟩ := List.cons.inj hSplit
    exact hHere
  | cons first pre =>
    obtain ⟨rfl, hSplit'⟩ := List.cons.inj hSplit
    exact hRest pre op' post hSplit'

/-- A device without trie pages. -/
def bareWorld : World where
  pages       := fun _ => none
  alloc       := Alloc.threeFree
  dataStart   := 10
  partials    := []
  hotBlock    := 0
  hotHint     := 0
  noScratch   := false
  trace       := []
  compactions := []

theorem sound_bareWorld : Sound bareWorld where
  pages := fun _ _ h => nomatch h
  taken := fun _ _ h => nomatch h
  pool := fun _ h => nomatch h
  hot := fun h => absurd rfl h

/-- A name, a second one that is a beginning of it, and the removal of both. -/
def prefixOps : List Op :=
  [.insert [97, 98] 5 1, .insert [97] 6 1, .remove [97, 98], .remove [97]]

theorem clean_prefixOps : (DirState.mk 0 bareWorld).Clean prefixOps := by
  refine clean_cons (by decide +kernel) (clean_cons (by decide +kernel) (clean_cons ?_ ?_))
  · decide +kernel
  · exact clean_cons (by decide +kernel) (clean_nil _)

theorem directory_is_map_prefixOps : Sound bareWorld ∧ (DirState.mk 0 bareWorld).Clean prefixOps ∧
    trieLookup ((DirState.mk 0 bareWorld).run [.insert [97, 98] 5 1, .insert [97] 6 1]).root [97, 98]
        ((DirState.mk 0 bareWorld).run [.insert [97, 98] 5 1, .insert [97] 6 1]).world =
      (.ok (5, 1), ((DirState.mk 0 bareWorld).run [.insert [97, 98] 5 1, .insert [97] 6 1]).world) :=
  ⟨sound_bareWorld, clean_prefixOps, (directory_is_map sound_bareWorld clean_prefixOps
    (show prefixOps = [.insert [97, 98] 5 1, .insert [97] 6 1] ++ _ from rfl)).1 [97, 98]⟩

end Briefs.Trie
