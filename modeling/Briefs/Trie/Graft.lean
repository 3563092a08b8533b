import Briefs.Trie.Chains

/-!
# BrieFS — insertion into the tree of a directory

`briefs_trie_insert` on a limb. The second branch of `trie_split_leaf`, which hangs a leaf
with a longer name below a new node, is a parameter here: the loop does the same whatever
stands in its place, because a leaf of a shaped limb has a name as long as the way to it.

## Results

* `trieInsert_eq` — the insertion is the parametrised one with the source's branch.
* `Ready.lift` — from an insertion below a child to one below its parent.
* `insertLoop_graft` — the whole loop: the entry is stored, or it was there, or no space is
  left and only intermediate nodes without an entry have been added.
-/

namespace Briefs.Trie

open TrieM

--
-- The second branch of `trie_split_leaf`
--

/-- What `trie_split_leaf` does with a leaf whose name goes on: a new intermediate node
takes the place of the leaf. -/
def reparentLeaf (e : NewEntry) (cur child pos : Nat) (b : UInt8) (leaf : Slot) : TrieM Nat := do
  let got ← createChild cur (pos + 1) b true 0 e.hint
  match got with
  | none => fail .enospc
  | some internal => do
    let g ← readSlot cur
    if g.firstChild = child then setSlot cur fun n => { n with firstChild := internal }
    else relink child internal siblingMax g.firstChild
    setSlot internal fun n => { n with firstChild := child }
    setSlot internal fun n => { n with nextSibling := leaf.nextSibling }
    setSlot internal fun n => { n with childCount := 1 }
    if pos + 1 = e.name.length then do
      storeName internal e.name
      setSlot internal fun n => { n with statusLeaf := true }
      setSlot internal fun n => { n with ftype := e.type, inode := e.ino }
    else ret ()
    ret internal

/-- A function in the place of that branch. -/
abbrev Reparent := NewEntry → Nat → Nat → Nat → UInt8 → Slot → TrieM Nat

/-- `trie_split_leaf` with the function `f` in the place of its second branch. -/
def splitLeafWith (f : Reparent) (e : NewEntry) (cur child pos : Nat) (b : UInt8) : TrieM Nat := do
  let leaf ← readSlot child
  if leaf.nameLen = pos + 1 + 2 then do
    setSlot child fun n => { n with interm := true, statusLeaf := true }
    setSlot child fun n => { n with depth := (pos + 1) % 256 }
    ret child
  else f e cur child pos b leaf

/-- The loop of `briefs_trie_insert` with `splitLeafWith`. -/
def insertLoopWith (f : Reparent) (e : NewEntry) : List UInt8 → Nat → Nat → TrieM Unit
  | [], _, _ => fail .einval
  | b :: rest, pos, cur =>
    if rest = [] then do
      let existing ← findChild cur b
      if existing ≠ 0 then do
        let n ← readSlot existing
        let same ← nameIs existing e.name
        if n.interm then
          if n.statusLeaf && same then fail .eexist else nameInterm e existing
        else if same then fail .eexist
        else do
          let next ← splitLeafWith f e cur existing pos b
          insertLoopWith f e rest (pos + 1) next
      else newLeaf e cur pos b
    else do
      let got ← findOrCreateChild cur (pos + 1) b e.hint
      match got with
      | none => fail .enospc
      | some child => do
        let n ← readSlot child
        if n.interm then insertLoopWith f e rest (pos + 1) child
        else do
          let next ← splitLeafWith f e cur child pos b
          insertLoopWith f e rest (pos + 1) next

/-- `briefs_trie_insert` with `splitLeafWith`. -/
def trieInsertWith (f : Reparent) (root : Nat) (name : List UInt8) (ino type : Nat) :
    TrieM (Nat × Except Errno Unit) := do
  let got ← attempt (if root = 0 then createRoot else ret root)
  match got with
  | .error e => ret (root, .error e)
  | .ok root => do
    let done ← attempt do
      if nameLen < name.length then fail .enametoolong
      else insertLoopWith f ⟨name, ino, type, refBlock root⟩ name 0 root
    ret (root, done)

theorem insertLoop_eq (e : NewEntry) : ∀ (rest : List UInt8) (pos cur : Nat),
    insertLoop e rest pos cur = insertLoopWith reparentLeaf e rest pos cur
  | [], _, _ => rfl
  | b :: rest, pos, cur => by
    have hTail : insertLoop e rest (pos + 1) = insertLoopWith reparentLeaf e rest (pos + 1) :=
      funext fun next => insertLoop_eq e rest (pos + 1) next
    have hSplit : splitLeaf e = splitLeafWith reparentLeaf e := rfl
    unfold insertLoop insertLoopWith
    rewrite [hTail, hSplit]
    rfl

theorem trieInsert_eq (root : Nat) (name : List UInt8) (ino type : Nat) :
    trieInsert root name ino type = trieInsertWith reparentLeaf root name ino type := by
  have hLoop : insertLoop = insertLoopWith reparentLeaf := by
    funext e rest pos cur
    exact insertLoop_eq e rest pos cur
  unfold trieInsert trieInsertWith
  rewrite [hLoop]
  rfl

--
-- Trees that differ at one child
--

variable {w w₀ w₁ w' : World} {s s' : Store} {n : Node} {cur c next : Nat} {b : UInt8}
  {l lc lc' : Label} {kids kids₀ kids' left rest k k' : Limb} {pre bs : List UInt8}
  {v : Option (Nat × Nat)}

/-- The entries of a child and of the names below it. -/
def below (l : Label) (kids : Limb) (bs : List UInt8) : Option (Nat × Nat) :=
  if bs = [] then l.entry else kids.find bs

theorem find_replace (hNot : lc.byteVal ∉ left.bytes) (hByte : lc'.byteVal = lc.byteVal)
    (h : below lc' k' = Function.update (below lc k) bs v) :
    (left.append (.cons c lc' k' rest)).find =
      Function.update (left.append (.cons c lc k rest)).find (lc.byteVal :: bs) v := by
  funext key
  cases key with
  | nil =>
    rw [Limb.find_nil, Function.update_of_ne (List.cons_ne_nil _ _).symm, Limb.find_nil]
  | cons b' bs' =>
    by_cases hb : b' = lc.byteVal
    · have hNew : (left.append (.cons c lc' k' rest)).find (lc'.byteVal :: bs') =
          if bs' = [] then lc'.entry else k'.find bs' :=
        Limb.find_at (by rw [hByte]; exact hNot) bs'
      have hOld : (left.append (.cons c lc k rest)).find (lc.byteVal :: bs') =
          if bs' = [] then lc.entry else k.find bs' := Limb.find_at hNot bs'
      have hBelow := congrFun h bs'
      rw [hByte] at hNew
      rw [hb, hNew]
      by_cases hEq : bs' = bs
      · rw [hEq, Function.update_self] at hBelow ⊢
        exact hBelow
      · have hKey : lc.byteVal :: bs' ≠ lc.byteVal :: bs := by simpa using hEq
        rw [Function.update_of_ne hKey, hOld]
        rw [Function.update_of_ne hEq] at hBelow
        exact hBelow
    · have hKey : b' :: bs' ≠ lc.byteVal :: bs := fun hEq => hb (List.cons.inj hEq).1
      rw [Function.update_of_ne hKey, Limb.find_off (by rw [hByte]; exact hb), Limb.find_off hb]

/-- What is below a child changes at one name that does not end there. -/
theorem below_update (hBs : bs ≠ []) (h : k'.find = Function.update k.find bs v) :
    below lc k' = Function.update (below lc k) bs v := by
  funext x
  unfold below
  by_cases hx : x = []
  · have hNe : x ≠ bs := fun hEq => hBs (hEq.symm.trans hx)
    rw [Function.update_of_ne hNe, if_pos hx, if_pos hx]
  · rw [if_neg hx, h]
    by_cases hEq : x = bs
    · rw [hEq, Function.update_self, Function.update_self]
    · rw [Function.update_of_ne hEq, Function.update_of_ne hEq, if_neg hx]

theorem find_same (hNot : lc.byteVal ∉ left.bytes) (hByte : lc'.byteVal = lc.byteVal)
    (h : below lc' k' = below lc k) :
    (left.append (.cons c lc' k' rest)).find = (left.append (.cons c lc k rest)).find := by
  have hSelf : below lc' k' = Function.update (below lc k) [] (below lc k []) := by
    rw [Function.update_eq_self]
    exact h
  rw [find_replace hNot hByte hSelf, Function.update_eq_self_iff, Limb.find_at hNot]
  rfl

/-- A new child at the end. -/
theorem find_attach (hNot : lc.byteVal ∉ kids.bytes) :
    (kids.append (.cons c lc k .nil)).find = fun key =>
      if key.head? = some lc.byteVal then below lc k key.tail else kids.find key := by
  funext key
  cases key with
  | nil => simp
  | cons b' bs' =>
    by_cases hb : b' = lc.byteVal
    · rw [hb, Limb.find_at hNot, List.head?_cons, if_pos rfl]
      rfl
    · rw [Limb.find_off hb, Limb.append_nil, if_neg]
      simpa using hb

theorem shaped_replace (h : Limb.Shaped pre (left.append (.cons c lc k rest)))
    (hByte : lc'.byteVal = lc.byteVal) (hName : lc'.isLeaf = true → lc'.name = pre ++ [lc.byteVal])
    (hPure : lc'.interm = false → k' = .nil) (hKids : Limb.Shaped (pre ++ [lc.byteVal]) k') :
    Limb.Shaped pre (left.append (.cons c lc' k' rest)) := by
  obtain ⟨hLeft, ⟨-, -, hNot, -, hRest⟩, hApart⟩ := Limb.shaped_append.mp h
  refine Limb.shaped_append.mpr ⟨hLeft, ⟨?_, hPure, ?_, ?_, hRest⟩, ?_⟩
  · rw [hByte]
    exact hName
  · rw [hByte]
    exact hNot
  · rw [hByte]
    exact hKids
  · intro x hx
    have hOld := hApart x hx
    simp only [Limb.bytes, hByte] at hOld ⊢
    exact hOld

/-- A child of a shaped limb. -/
theorem shaped_focus (h : Limb.Shaped pre (left.append (.cons c lc k rest))) :
    (lc.isLeaf = true → lc.name = pre ++ [lc.byteVal]) ∧ (lc.interm = false → k = .nil) ∧
      Limb.Shaped (pre ++ [lc.byteVal]) k ∧ lc.byteVal ∉ left.bytes := by
  obtain ⟨-, ⟨hName, hPure, -, hKids, -⟩, hApart⟩ := Limb.shaped_append.mp h
  refine ⟨hName, hPure, hKids, fun hIn => hApart _ hIn ?_⟩
  simp [Limb.bytes]

theorem shaped_attach (h : Limb.Shaped pre kids) (hNot : lc.byteVal ∉ kids.bytes)
    (hName : lc.isLeaf = true → lc.name = pre ++ [lc.byteVal])
    (hPure : lc.interm = false → k = .nil) (hKids : Limb.Shaped (pre ++ [lc.byteVal]) k) :
    Limb.Shaped pre (kids.append (.cons c lc k .nil)) := by
  refine Limb.shaped_append.mpr ⟨h, ⟨hName, hPure, List.not_mem_nil, hKids, trivial⟩, ?_⟩
  intro x hx hIn
  obtain rfl : x = lc.byteVal := by simpa [Limb.bytes] using hIn
  exact hNot hx

/-- The label of a child changes. -/
theorem Sub.relabelChild (h : Sub s cur l next (left.append (.cons c lc k rest))) (lc' : Label)
    (hs : s' = Function.update s c (some (lc'.node (k.head 0) (rest.head 0) k.width))) :
    Sub s' cur l next (left.append (.cons c lc' k rest)) ∧
      Refit s s' cur (left.append (.cons c lc k rest)) (left.append (.cons c lc' k rest)) := by
  obtain ⟨hSub, hRefit⟩ := h.focus.relabel lc'
  rw [hs]
  exact ⟨h.refill hSub hRefit, hRefit.refill⟩

--
-- What an insertion does
--

/-- What a failed insertion leaves below a node: intermediate nodes without an entry, for
beginnings of the rest of the name that had no node. -/
structure Residue (s : Store) (kids kids' : Limb) (rest : List UInt8) : Prop where
  bare : ∀ x ∈ kids'.refs, x ∉ kids.refs → ∃ n, s x = some n ∧ n.interm = true ∧ n.statusLeaf = false
  path : ∀ x ∈ kids'.refs, x ∉ kids.refs →
    ∃ p q, rest = p ++ q ∧ p ≠ [] ∧ q ≠ [] ∧ kids.place p = none ∧ kids'.place p = some x

/-- The results of an insertion below a node. -/
inductive Outcome (e : NewEntry) (rest : List UInt8) (w w' : World) (kids kids' : Limb) :
    Except Errno Unit → Prop where
  | stored : kids.find rest = none →
      kids'.find = Function.update kids.find rest (some (e.ino, e.type)) →
      (kids.Full → kids'.Full) → Outcome e rest w w' kids kids' (.ok ())
  | present : kids.find rest ≠ none → w' = w → kids' = kids →
      Outcome e rest w w' kids kids' (.error .eexist)
  | noSpace : kids.find rest = none → kids'.find = kids.find → Residue w'.node kids kids' rest →
      Outcome e rest w w' kids kids' (.error .enospc)

/-- An insertion of `rest` below `cur`, which stands for the bytes `pre`. -/
structure Grafted (e : NewEntry) (pre rest : List UInt8) (w w' : World) (cur : Nat)
    (kids kids' : Limb) (r : Except Errno Unit) : Prop where
  shaped  : Limb.Shaped pre kids'
  refit   : Refit w.node w'.node cur kids kids'
  kept    : ∀ x ∈ kids.refs, x ∈ kids'.refs
  outcome : Outcome e rest w w' kids kids' r

theorem Residue.refl (s : Store) (kids : Limb) (rest : List UInt8) : Residue s kids kids rest :=
  ⟨fun _ hx hNot => absurd hx hNot, fun _ hx hNot => absurd hx hNot⟩

/-- No node has changed. -/
theorem Grafted.same {e : NewEntry} {rest : List UInt8} (hShaped : Limb.Shaped pre kids)
    (hSame : w'.node = w.node) (hNone : kids.find rest = none) :
    Grafted e pre rest w w' cur kids kids (.error .enospc) := by
  refine ⟨hShaped, ?_, fun x hx => hx, .noSpace hNone rfl (.refl _ _ _)⟩
  rw [hSame]
  exact Refit.refl _ _ _

theorem node_at {ref : Nat} {x : Option Node} (h : w'.node = Function.update w.node ref x) :
    w'.node ref = x := by
  rw [h, Function.update_self]

/-- The last byte of the name has no node yet. -/
theorem newLeaf_graft {e : NewEntry} (hw : Sound w) (h : Sub w.node cur l next kids)
    (hShaped : Limb.Shaped pre kids) (hName : e.name = pre ++ [b]) (hLen : e.name.length ≤ nameLen)
    (hNot : b ∉ kids.bytes) :
    ∃ r w' kids', newLeaf e cur pre.length b w = (r, w') ∧ Sound w' ∧
      Sub w'.node cur l next kids' ∧ Grafted e pre [b] w w' cur kids kids' r := by
  have hNone : kids.find [b] = none := Limb.find_of_notMem hNot []
  have hSome : e.name ≠ [] := by
    rw [hName]
    exact List.append_ne_nil_of_right_ne_nil _ (List.cons_ne_nil _ _)
  unfold newLeaf
  rcases createChild_attach hw h hShaped.width_le pre.length b false e.hint hLen with
    ⟨v, hRun, hv, hSame⟩ | ⟨c, v, name, hRun, hv, hFresh, hNameLen, hSub, hRefit⟩
  · rw [bind_ok hRun]
    refine ⟨_, v, kids, rfl, hv, ?_, Grafted.same hShaped hSame hNone⟩
    rw [hSame]
    exact h
  · rw [bind_ok hRun]
    dsimp only
    rcases storeName_node hv hSub.focus.node hSome hLen with ⟨u, hStore, hu, hNode⟩ | ⟨hShort, -⟩
    · rw [bind_ok (attempt_eq hStore)]
      dsimp only
      have hc := node_at hNode
      obtain ⟨t, hSet, ht, hNode'⟩ := setSlot_node hu hc
        (f := fun n => { n with interm := false, statusLeaf := false })
        (g := fun n => { n with interm := false, statusLeaf := false }) (fun _ => ⟨rfl, rfl⟩)
        fun _ _ => rfl
      rw [bind_ok hSet]
      have hc' := node_at hNode'
      obtain ⟨x, hSet', hx, hNode''⟩ := setSlot_node ht hc'
        (f := fun n => { n with ftype := e.type, inode := e.ino })
        (g := fun n => { n with ftype := e.type, inode := e.ino }) (fun _ => ⟨rfl, rfl⟩)
        fun _ _ => rfl
      rw [hNode', hNode, Function.update_idem, Function.update_idem] at hNode''
      obtain ⟨hSub', hRefit'⟩ := hSub.relabelChild
        ⟨e.ino, e.name, pre.length % 256, b, false, false, e.type⟩ hNode''
      refine ⟨_, x, _, hSet', hx, hSub', ?_, ?_, ?_, .stored hNone ?_ ?_⟩
      · exact shaped_attach hShaped hNot (fun _ => hName) (fun _ => rfl) trivial
      · refine hRefit.trans hRefit' hSub fun r hr => Or.inr ?_
        rw [Limb.refs_append] at hr ⊢
        exact hr
      · intro r hr
        rw [Limb.refs_append]
        exact List.mem_append_left _ hr
      · rw [find_attach hNot]
        funext key
        by_cases hKey : key = [b]
        · rw [hKey, Function.update_self]
          exact if_pos rfl
        · rw [Function.update_of_ne hKey]
          by_cases hHead : key.head? = some b
          · rw [if_pos hHead]
            obtain ⟨bs, rfl⟩ : ∃ bs, key = b :: bs := by
              cases key with
              | nil => cases hHead
              | cons b' bs => exact ⟨bs, by rw [Option.some.inj hHead]⟩
            have hBs : bs ≠ [] := fun hNil => hKey (by rw [hNil])
            rw [Limb.find_of_notMem hNot]
            exact if_neg hBs
          · rw [if_neg hHead]
      · intro hFull
        exact Limb.full_append.mpr ⟨hFull, fun _ => rfl, trivial, trivial⟩
    · exact absurd hShort (by
        rw [show (Label.node _ _ _ _).name = name from rfl, hNameLen]
        exact Nat.lt_irrefl _)

/-- The last byte of the name has an intermediate node without an entry. -/
theorem nameInterm_graft {e : NewEntry} (hw : Sound w)
    (h : Sub w.node cur l next (left.append (.cons c lc k rest)))
    (hShaped : Limb.Shaped pre (left.append (.cons c lc k rest)))
    (hName : e.name = pre ++ [lc.byteVal]) (hLen : e.name.length ≤ nameLen)
    (hInterm : lc.interm = true) (hBare : lc.statusLeaf = false) :
    ∃ r w' kids', nameInterm e c w = (r, w') ∧ Sound w' ∧ Sub w'.node cur l next kids' ∧
      Grafted e pre [lc.byteVal] w w' cur (left.append (.cons c lc k rest)) kids' r := by
  obtain ⟨-, -, hKids, hNot⟩ := shaped_focus hShaped
  have hNone : (left.append (.cons c lc k rest)).find [lc.byteVal] = none := by
    rw [Limb.find_at hNot, if_pos rfl]
    unfold Label.entry Label.isLeaf
    rw [hInterm, hBare]
    rfl
  have hSome : e.name ≠ [] := by
    rw [hName]
    exact List.append_ne_nil_of_right_ne_nil _ (List.cons_ne_nil _ _)
  unfold nameInterm
  rcases storeName_node hw h.focus.node hSome hLen with ⟨v, hStore, hv, hNode⟩ |
    ⟨-, v, hStore, hv, hSame⟩
  · rw [bind_ok hStore]
    have hc := node_at hNode
    obtain ⟨u, hSet, hu, hNode'⟩ := setSlot_node hv hc
      (f := fun n => { n with statusLeaf := true })
      (g := fun n => { n with statusLeaf := true }) (fun _ => ⟨rfl, rfl⟩) fun _ _ => rfl
    rw [bind_ok hSet]
    have hc' := node_at hNode'
    obtain ⟨x, hSet', hx, hNode''⟩ := setSlot_node hu hc'
      (f := fun n => { n with ftype := e.type, inode := e.ino })
      (g := fun n => { n with ftype := e.type, inode := e.ino }) (fun _ => ⟨rfl, rfl⟩)
      fun _ _ => rfl
    rw [hNode', hNode, Function.update_idem, Function.update_idem] at hNode''
    obtain ⟨hSub', hRefit'⟩ := h.relabelChild
      { lc with inode := e.ino, name := e.name, statusLeaf := true, ftype := e.type } hNode''
    refine ⟨_, x, _, hSet', hx, hSub', ?_, hRefit', ?_, .stored hNone ?_ ?_⟩
    · refine shaped_replace hShaped rfl (fun _ => hName) ?_ hKids
      intro hPure
      exact absurd (hPure.symm.trans hInterm) Bool.false_ne_true
    · intro r hr
      rw [Limb.refs_append] at hr ⊢
      exact hr
    · refine find_replace hNot rfl ?_
      funext bs
      by_cases hNil : bs = []
      · rw [hNil, Function.update_self]
        unfold below Label.entry Label.isLeaf
        simp
      · rw [Function.update_of_ne hNil]
        unfold below
        rw [if_neg hNil, if_neg hNil]
    · intro hFull
      obtain ⟨hLeft, -, hK, hRest⟩ := Limb.full_append.mp hFull
      refine Limb.full_append.mpr ⟨hLeft, fun _ => ?_, hK, hRest⟩
      unfold Label.isLeaf
      simp
  · rw [bind_error hStore]
    refine ⟨_, v, _, rfl, hv, ?_, Grafted.same hShaped hSame hNone⟩
    rw [hSame]
    exact h

--
-- The descent
--

/-- The child `c` for the next byte is there: it was, or it has become an intermediate node,
or it is new. -/
structure Ready (w₀ w₁ : World) (cur : Nat) (l : Label) (next : Nat) (pre : List UInt8)
    (kids₀ left : Limb) (c : Nat) (lc : Label) (k rest : Limb) : Prop where
  sub    : Sub w₁.node cur l next (left.append (.cons c lc k rest))
  shaped : Limb.Shaped pre (left.append (.cons c lc k rest))
  refit  : Refit w₀.node w₁.node cur kids₀ (left.append (.cons c lc k rest))
  kept   : ∀ x ∈ kids₀.refs, x ∈ (left.append (.cons c lc k rest)).refs
  find   : (left.append (.cons c lc k rest)).find = kids₀.find
  full   : kids₀.Full → left.Full ∧ k.Full ∧ rest.Full
  interm : lc.interm = true
  same   : (w₁ = w₀ ∧ left.append (.cons c lc k rest) = kids₀) ∨ k = .nil
  places : ∀ p, p ≠ [] → kids₀.place (lc.byteVal :: p) = k.place p
  bare   : ∀ x ∈ (left.append (.cons c lc k rest)).refs, x ∉ kids₀.refs →
    x = c ∧ lc.statusLeaf = false ∧ kids₀.place [lc.byteVal] = none

/-- From the subtree of the child to that of the node. -/
theorem Ready.lift {e : NewEntry} {r : Except Errno Unit}
    (h : Ready w₀ w₁ cur l next pre kids₀ left c lc k rest) (hBs : bs ≠ [])
    (hSub : Sub w'.node c lc (rest.head 0) k')
    (hIn : Grafted e (pre ++ [lc.byteVal]) bs w₁ w' c k k' r) :
    Sub w'.node cur l next (left.append (.cons c lc k' rest)) ∧
      Grafted e pre (lc.byteVal :: bs) w₀ w' cur kids₀ (left.append (.cons c lc k' rest)) r := by
  obtain ⟨hName, -, -, hNot⟩ := shaped_focus h.shaped
  have hSub' := h.sub.refill hSub hIn.refit
  have hKept : ∀ x ∈ (left.append (.cons c lc k rest)).refs,
      x ∈ (left.append (.cons c lc k' rest)).refs := by
    intro x hx
    simp only [Limb.refs_append, Limb.refs, List.mem_append, List.mem_cons] at hx ⊢
    rcases hx with hx | hx | hx | hx
    · exact Or.inl hx
    · exact Or.inr (Or.inl hx)
    · exact Or.inr (Or.inr (Or.inl (hIn.kept x hx)))
    · exact Or.inr (Or.inr (Or.inr hx))
  have hOld : kids₀.find (lc.byteVal :: bs) = k.find bs := by
    rw [← h.find, Limb.find_at hNot, if_neg hBs]
  refine ⟨hSub', ?_, ?_, fun x hx => hKept x (h.kept x hx), ?_⟩
  · refine shaped_replace h.shaped rfl hName ?_ hIn.shaped
    intro hPure
    exact absurd (hPure.symm.trans h.interm) Bool.false_ne_true
  · exact h.refit.trans hIn.refit.refill h.sub fun x hx => Or.inr (hKept x hx)
  · cases hIn.outcome with
    | stored hNone hFind hFull =>
      refine .stored (hOld.trans hNone) ?_ ?_
      · rw [← h.find]
        exact find_replace hNot rfl (below_update hBs hFind)
      · intro hFull₀
        obtain ⟨hLeft, hK, hRest⟩ := h.full hFull₀
        refine Limb.full_append.mpr ⟨hLeft, fun hNil => ?_, hFull hK, hRest⟩
        have hGot := congrFun hFind bs
        rw [Function.update_self, hNil] at hGot
        cases hGot
    | present hSome hw hk =>
      rcases h.same with ⟨hSame, hKids⟩ | hNil
      · refine .present (by rw [hOld]; exact hSome) (hw.trans hSame) ?_
        rw [hk, hKids]
      · rw [hNil] at hSome
        exact absurd rfl hSome
    | noSpace hNone hFind hRes =>
      refine .noSpace (hOld.trans hNone) ?_ ⟨?_, ?_⟩
      · rw [← h.find]
        refine find_same hNot rfl ?_
        unfold below
        rw [hFind]
      · intro x hx hOut
        -- A node of the old limb that was not there before is the child itself.
        have hSelf : x ∈ (left.append (.cons c lc k rest)).refs → ∃ n, w'.node x = some n ∧
            n.interm = true ∧ n.statusLeaf = false := by
          intro hx
          obtain ⟨rfl, hBare, -⟩ := h.bare x hx hOut
          exact ⟨_, hSub.node, h.interm, hBare⟩
        by_cases hIn' : x ∈ (left.append (.cons c lc k rest)).refs
        · exact hSelf hIn'
        · simp only [Limb.refs_append, Limb.refs, List.mem_append, List.mem_cons, not_or] at hx hIn'
          rcases hx with hx | hx | hx | hx
          · exact absurd hx hIn'.1
          · exact absurd hx hIn'.2.1
          · exact hRes.bare x hx hIn'.2.2.1
          · exact absurd hx hIn'.2.2.2
      · intro x hx hOut
        by_cases hIn' : x ∈ (left.append (.cons c lc k rest)).refs
        · obtain ⟨rfl, -, hNew⟩ := h.bare x hIn' hOut
          refine ⟨[lc.byteVal], bs, rfl, List.cons_ne_nil _ _, hBs, hNew, ?_⟩
          rw [Limb.place_at hNot, if_pos rfl]
        · simp only [Limb.refs_append, Limb.refs, List.mem_append, List.mem_cons, not_or] at hx hIn'
          have hx' : x ∈ k'.refs := by
            rcases hx with hx | hx | hx | hx
            · exact absurd hx hIn'.1
            · exact absurd hx hIn'.2.1
            · exact hx
            · exact absurd hx hIn'.2.2.2
          obtain ⟨p, q, hPath, hp, hq, hNew, hPlace⟩ := hRes.path x hx' hIn'.2.2.1
          refine ⟨lc.byteVal :: p, q, by rw [hPath]; rfl, List.cons_ne_nil _ _, hq, ?_, ?_⟩
          · rw [h.places p hp]
            exact hNew
          · rw [Limb.place_at hNot, if_neg hp]
            exact hPlace

theorem ready_found (h : Sub w.node cur l next (left.append (.cons c lc k rest)))
    (hShaped : Limb.Shaped pre (left.append (.cons c lc k rest))) (hInterm : lc.interm = true) :
    Ready w w cur l next pre (left.append (.cons c lc k rest)) left c lc k rest := by
  obtain ⟨-, -, -, hNot⟩ := shaped_focus hShaped
  refine ⟨h, hShaped, Refit.refl _ _ _, fun _ hx => hx, rfl, ?_, hInterm, Or.inl ⟨rfl, rfl⟩, ?_,
    fun x hx hOut => absurd hx hOut⟩
  · intro hFull
    obtain ⟨hLeft, -, hK, hRest⟩ := Limb.full_append.mp hFull
    exact ⟨hLeft, hK, hRest⟩
  · intro p hp
    rw [Limb.place_at hNot, if_neg hp]

/-- A pure leaf becomes an intermediate node. -/
theorem splitLeafWith_ready {e : NewEntry} (hw : Sound w)
    (h : Sub w.node cur l next (left.append (.cons c lc k rest)))
    (hShaped : Limb.Shaped pre (left.append (.cons c lc k rest))) (hPure : lc.interm = false) :
    ∃ w₁, (∀ f, splitLeafWith f e cur c pre.length lc.byteVal w = (.ok c, w₁)) ∧ Sound w₁ ∧
      Ready w w₁ cur l next pre (left.append (.cons c lc k rest)) left c
        { lc with interm := true, statusLeaf := true, depth := (pre.length + 1) % 256 } k rest := by
  obtain ⟨hName, hKids, hKidsShaped, hNot⟩ := shaped_focus hShaped
  have hLeaf : lc.isLeaf = true := by
    unfold Label.isLeaf
    rw [hPure]
    rfl
  obtain ⟨m, hRead, hReads⟩ := readSlot_reads h.focus.node
  have hNameLen : m.nameLen = pre.length + 1 + 2 := by
    have hLen := hReads.nameLen
    have hEq : (lc.node (k.head 0) (rest.head 0) k.width).name.length = pre.length + 1 := by
      show lc.name.length = _
      rw [hName hLeaf]
      simp
    omega
  obtain ⟨v, hSet, hv, hNode⟩ := setSlot_node hw h.focus.node
    (f := fun n => { n with interm := true, statusLeaf := true })
    (g := fun n => { n with interm := true, statusLeaf := true }) (fun _ => ⟨rfl, rfl⟩)
    fun _ _ => rfl
  obtain ⟨u, hSet', hu, hNode'⟩ := setSlot_node hv (node_at hNode)
    (f := fun n => { n with depth := (pre.length + 1) % 256 })
    (g := fun n => { n with depth := (pre.length + 1) % 256 }) (fun _ => ⟨rfl, rfl⟩)
    fun _ _ => rfl
  rw [hNode, Function.update_idem] at hNode'
  obtain ⟨hSub, hRefit⟩ := h.relabelChild
    { lc with interm := true, statusLeaf := true, depth := (pre.length + 1) % 256 } hNode'
  refine ⟨u, ?_, hu, hSub, ?_, hRefit, ?_, ?_, ?_, rfl, Or.inr (hKids hPure), ?_, ?_⟩
  · intro f
    unfold splitLeafWith
    rw [bind_ok hRead, if_pos hNameLen, bind_ok hSet, bind_ok hSet']
    rfl
  · refine shaped_replace hShaped rfl (fun _ => hName hLeaf) ?_ hKidsShaped
    intro hFalse
    cases hFalse
  · intro x hx
    rw [Limb.refs_append] at hx ⊢
    exact hx
  · refine find_same hNot rfl ?_
    funext bs
    unfold below Label.entry
    rw [hLeaf]
    rfl
  · intro hFull
    obtain ⟨hLeft, -, hK, hRest⟩ := Limb.full_append.mp hFull
    exact ⟨hLeft, hK, hRest⟩
  · intro p hp
    exact (Limb.place_at hNot p).trans (if_neg hp)
  · intro x hx hOut
    rw [Limb.refs_append] at hx hOut
    exact absurd hx hOut

/-- A new intermediate node. -/
theorem ready_new (hSub : Sub w₁.node cur l next (kids.append (.cons c lc .nil .nil)))
    (hRefit : Refit w.node w₁.node cur kids (kids.append (.cons c lc .nil .nil)))
    (hShaped : Limb.Shaped pre kids) (hNot : lc.byteVal ∉ kids.bytes) (hInterm : lc.interm = true)
    (hBare : lc.statusLeaf = false) :
    Ready w w₁ cur l next pre kids kids c lc .nil .nil := by
  have hLeaf : lc.isLeaf = false := by
    unfold Label.isLeaf
    rw [hInterm, hBare]
    rfl
  refine ⟨hSub, ?_, hRefit, ?_, ?_, ?_, hInterm, Or.inr rfl, ?_, ?_⟩
  · refine shaped_attach hShaped hNot (fun hTrue => ?_) (fun _ => rfl) trivial
    exact absurd (hLeaf.symm.trans hTrue) Bool.false_ne_true
  · intro x hx
    rw [Limb.refs_append]
    exact List.mem_append_left _ hx
  · rw [find_attach hNot]
    funext key
    by_cases hHead : key.head? = some lc.byteVal
    · rw [if_pos hHead]
      have hNone : below lc .nil key.tail = none := by
        unfold below Label.entry
        rw [hLeaf]
        split
        · rfl
        · rfl
      rw [hNone]
      cases key with
      | nil => rw [Limb.find_nil]
      | cons b bs =>
        rw [Option.some.inj hHead, Limb.find_of_notMem hNot]
    · rw [if_neg hHead]
  · intro hFull
    exact ⟨hFull, trivial, trivial⟩
  · intro p _
    exact Limb.place_of_notMem hNot p
  · intro x hx hOut
    rw [Limb.refs_append, List.mem_append] at hx
    rcases hx with hx | hx
    · exact absurd hx hOut
    · refine ⟨?_, hBare, Limb.place_of_notMem hNot []⟩
      simpa [Limb.refs] using hx

--
-- The whole insertion
--

/-- The last byte of the name has a node. -/
theorem insertLoop_last_found {e : NewEntry} (hw : Sound w)
    (h : Sub w.node cur l next (left.append (.cons c lc k rest)))
    (hShaped : Limb.Shaped pre (left.append (.cons c lc k rest)))
    (hName : e.name = pre ++ [lc.byteVal]) (hLen : e.name.length ≤ nameLen) :
    ∃ r w' kids', (∀ f, insertLoopWith f e [lc.byteVal] pre.length cur w = (r, w')) ∧ Sound w' ∧
      Sub w'.node cur l next kids' ∧
      Grafted e pre [lc.byteVal] w w' cur (left.append (.cons c lc k rest)) kids' r := by
  obtain ⟨hLeafName, -, -, hNot⟩ := shaped_focus hShaped
  have hFind := findChild_found h hNot hShaped.width_le
  obtain ⟨m, hRead, hReads⟩ := readSlot_reads h.focus.node
  have hSame := nameIs_node h.focus.node e.name
  -- A leaf has the name of the entry.
  have hEq : lc.isLeaf = true →
      ((lc.node (k.head 0) (rest.head 0) k.width).name == e.name) = true := by
    intro hLeaf
    rw [beq_iff_eq, hName]
    exact hLeafName hLeaf
  have hThere : lc.isLeaf = true →
      Grafted e pre [lc.byteVal] w w cur (left.append (.cons c lc k rest))
        (left.append (.cons c lc k rest)) (.error .eexist) := by
    intro hLeaf
    refine ⟨hShaped, Refit.refl _ _ _, fun _ hx => hx, .present ?_ rfl rfl⟩
    rw [Limb.find_at hNot, if_pos rfl]
    unfold Label.entry
    rw [if_pos hLeaf]
    exact Option.some_ne_none _
  have hStart : ∀ f, insertLoopWith f e [lc.byteVal] pre.length cur w =
      (if m.interm then if m.statusLeaf && ((lc.node (k.head 0) (rest.head 0) k.width).name == e.name)
          then fail .eexist else nameInterm e c
        else if (lc.node (k.head 0) (rest.head 0) k.width).name == e.name then fail .eexist
        else do
          let next ← splitLeafWith f e cur c pre.length lc.byteVal
          insertLoopWith f e [] (pre.length + 1) next) w := by
    intro f
    rw [insertLoopWith, if_pos rfl, bind_ok hFind, if_pos h.focus.ne, bind_ok hRead, bind_ok hSame]
  have hInterm : m.interm = lc.interm := hReads.interm
  have hStatus : m.statusLeaf = lc.statusLeaf := hReads.statusLeaf
  simp only [hStart]
  rw [hInterm, hStatus]
  cases hI : lc.interm with
  | true =>
    cases hS : lc.statusLeaf with
    | true =>
      have hLeaf : lc.isLeaf = true := by
        unfold Label.isLeaf
        rw [hS, Bool.or_true]
      refine ⟨.error .eexist, w, _, fun f => ?_, hw, h, hThere hLeaf⟩
      rw [if_pos rfl, hEq hLeaf]
      rfl
    | false =>
      obtain ⟨r, w', kids', hRun, hRest⟩ := nameInterm_graft hw h hShaped hName hLen hI hS
      refine ⟨r, w', kids', fun f => ?_, hRest⟩
      rw [if_pos rfl, Bool.false_and, if_neg Bool.false_ne_true]
      exact hRun
  | false =>
    have hLeaf : lc.isLeaf = true := by
      unfold Label.isLeaf
      rw [hI]
      rfl
    refine ⟨.error .eexist, w, _, fun f => ?_, hw, h, hThere hLeaf⟩
    rw [if_neg Bool.false_ne_true, if_pos (hEq hLeaf)]
    rfl

/-- The loop of `briefs_trie_insert` below a node. Whatever stands in the place of the
second branch of `trie_split_leaf`, the loop does not come to it. -/
theorem insertLoop_graft {e : NewEntry} (hLen : e.name.length ≤ nameLen) :
    ∀ (bs : List UInt8) {pre : List UInt8} {w : World} {cur : Nat} {l : Label} {next : Nat}
      {kids : Limb}, bs ≠ [] → Sound w → Sub w.node cur l next kids → Limb.Shaped pre kids →
      e.name = pre ++ bs →
      ∃ r w' kids', (∀ f, insertLoopWith f e bs pre.length cur w = (r, w')) ∧ Sound w' ∧
        Sub w'.node cur l next kids' ∧ Grafted e pre bs w w' cur kids kids' r
  | [], _, _, _, _, _, _, hBs, _, _, _, _ => absurd rfl hBs
  | [b], pre, w, cur, l, next, kids, _, hw, h, hShaped, hName => by
    by_cases hb : b ∈ kids.bytes
    · obtain ⟨left, c, lc, k, rest, rfl, hNot, rfl⟩ := Limb.exists_split kids hb
      exact insertLoop_last_found hw h hShaped hName hLen
    · obtain ⟨r, w', kids', hRun, hRest⟩ := newLeaf_graft hw h hShaped hName hLen hb
      refine ⟨r, w', kids', fun f => ?_, hRest⟩
      rw [insertLoopWith, if_pos rfl, bind_ok (findChild_missing h hb hShaped.width_le),
        if_neg (fun hNe => hNe rfl)]
      exact hRun
  | b :: b' :: bs, pre, w, cur, l, next, kids, _, hw, h, hShaped, hName => by
    have hName' : e.name = pre ++ [b] ++ (b' :: bs) := by rw [hName, List.append_assoc]; rfl
    have hPos : (pre ++ [b]).length = pre.length + 1 := by simp
    -- Once the child is there the loop goes on below it.
    have hGo : ∀ (w₁ : World) (left : Limb) (c : Nat) (lc : Label) (k rest : Limb), Sound w₁ →
        lc.byteVal = b → Ready w w₁ cur l next pre kids left c lc k rest →
        ∃ r w' kids', (∀ f, insertLoopWith f e (b' :: bs) (pre.length + 1) c w₁ = (r, w')) ∧
          Sound w' ∧ Sub w'.node cur l next kids' ∧
          Grafted e pre (b :: b' :: bs) w w' cur kids kids' r := by
      intro w₁ left c lc k rest hw₁ hByte hReady
      obtain ⟨-, -, hKids, -⟩ := shaped_focus hReady.shaped
      rw [hByte] at hKids
      obtain ⟨r, w', k', hRun, hw', hSub, hIn⟩ :=
        insertLoop_graft hLen (b' :: bs) (List.cons_ne_nil _ _) hw₁ hReady.sub.focus hKids hName'
      rw [hPos] at hRun
      subst hByte
      obtain ⟨hSub', hGrafted⟩ := hReady.lift (List.cons_ne_nil _ _) hSub hIn
      exact ⟨r, w', _, hRun, hw', hSub', hGrafted⟩
    by_cases hb : b ∈ kids.bytes
    · obtain ⟨left, c, lc, k, rest, rfl, hNot, rfl⟩ := Limb.exists_split kids hb
      obtain ⟨m, hRead, hReads⟩ := readSlot_reads h.focus.node
      have hInterm : m.interm = lc.interm := hReads.interm
      have hStart : ∀ f, insertLoopWith f e (lc.byteVal :: b' :: bs) pre.length cur w =
          (if lc.interm then insertLoopWith f e (b' :: bs) (pre.length + 1) c else do
            let next ← splitLeafWith f e cur c pre.length lc.byteVal
            insertLoopWith f e (b' :: bs) (pre.length + 1) next) w := by
        intro f
        have hChild : findOrCreateChild cur (pre.length + 1) lc.byteVal e.hint w =
            (.ok (some c), w) := by
          unfold findOrCreateChild
          rw [bind_ok (findChild_found h hNot hShaped.width_le), if_pos h.focus.ne]
          rfl
        rw [insertLoopWith, if_neg (List.cons_ne_nil _ _), bind_ok hChild]
        dsimp only
        rw [bind_ok hRead, hInterm]
      simp only [hStart]
      cases hI : lc.interm with
      | true => exact hGo w left c lc k rest hw rfl (ready_found h hShaped hI)
      | false =>
        obtain ⟨w₁, hSplit, hw₁, hReady⟩ := splitLeafWith_ready (e := e) hw h hShaped hI
        obtain ⟨r, w', kids', hRun, hRest⟩ := hGo w₁ left c
          { lc with interm := true, statusLeaf := true, depth := (pre.length + 1) % 256 } k rest hw₁
          rfl hReady
        refine ⟨r, w', kids', fun f => ?_, hRest⟩
        rw [if_neg Bool.false_ne_true, bind_ok (hSplit f)]
        exact hRun f
    · rcases createChild_attach hw h hShaped.width_le (pre.length + 1) b true e.hint
        (Nat.zero_le _) with ⟨v, hRun, hv, hSame⟩ |
          ⟨c, v, name, hRun, hv, hFresh, hNameLen, hSub, hRefit⟩
      · refine ⟨.error .enospc, v, kids, fun f => ?_, hv, ?_,
          Grafted.same hShaped hSame (Limb.find_of_notMem hb _)⟩
        · have hChild : findOrCreateChild cur (pre.length + 1) b e.hint w = (.ok none, v) := by
            unfold findOrCreateChild
            rw [bind_ok (findChild_missing h hb hShaped.width_le), if_neg (fun hNe => hNe rfl)]
            exact hRun
          rw [insertLoopWith, if_neg (List.cons_ne_nil _ _), bind_ok hChild]
          rfl
        · rw [hSame]
          exact h
      · have hReady := ready_new hSub hRefit hShaped hb rfl rfl
        obtain ⟨r, w', kids', hRun', hRest⟩ := hGo v kids c _ .nil .nil hv rfl hReady
        obtain ⟨m, hRead, hReads⟩ := readSlot_reads hSub.focus.node
        have hInterm : m.interm = true := hReads.interm
        refine ⟨r, w', kids', fun f => ?_, hRest⟩
        have hChild : findOrCreateChild cur (pre.length + 1) b e.hint w = (.ok (some c), v) := by
          unfold findOrCreateChild
          rw [bind_ok (findChild_missing h hb hShaped.width_le), if_neg (fun hNe => hNe rfl)]
          exact hRun
        rw [insertLoopWith, if_neg (List.cons_ne_nil _ _), bind_ok hChild]
        dsimp only
        rw [bind_ok hRead, if_pos hInterm]
        exact hRun' f

end Briefs.Trie
