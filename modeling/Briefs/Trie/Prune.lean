import Briefs.Trie.Graft

/-!
# BrieFS — removal from the tree of a directory

`briefs_trie_remove` on a limb: the descent to the name, the node that loses its entry or is
unlinked, and the loop up the path that unlinks what has become bare.

## Results

* `removeLoop_absent` — a name without an entry is not found, and nothing changes.
* `removeLoop_present` — the entry is dropped; nodes that are bare then are unlinked and
  collected.
* `collapse_lift` — one step of the loop up the path.
-/

namespace Briefs.Trie

open TrieM

variable {w w₁ w' : World} {s s' : Store} {n : Node} {cur c next : Nat} {b : UInt8}
  {l lc lc' : Label} {kids kids' left rest k k' : Limb} {pre bs : List UInt8}

--
-- A child less
--

theorem find_drop (hLeft : lc.byteVal ∉ left.bytes) (hRest : lc.byteVal ∉ rest.bytes)
    (key : List UInt8) : (left.append rest).find key =
      if key.head? = some lc.byteVal then none else (left.append (.cons c lc k rest)).find key := by
  cases key with
  | nil => simp
  | cons b bs =>
    by_cases hb : b = lc.byteVal
    · rw [hb, List.head?_cons, if_pos rfl, Limb.find_append_of_notMem hLeft, Limb.find_of_notMem hRest]
    · rw [Limb.find_off hb, if_neg]
      simpa using hb

/-- A child with one name is taken out. -/
theorem find_detach (hLeft : lc.byteVal ∉ left.bytes) (hRest : lc.byteVal ∉ rest.bytes)
    (hOnly : ∀ x, x ≠ bs → below lc k x = none) :
    (left.append rest).find =
      Function.update (left.append (.cons c lc k rest)).find (lc.byteVal :: bs) none := by
  funext key
  rw [find_drop (c := c) (k := k) hLeft hRest]
  by_cases hKey : key = lc.byteVal :: bs
  · rw [hKey, Function.update_self, List.head?_cons, if_pos rfl]
  · rw [Function.update_of_ne hKey]
    by_cases hHead : key.head? = some lc.byteVal
    · rw [if_pos hHead]
      obtain ⟨x, rfl⟩ : ∃ x, key = lc.byteVal :: x := by
        cases key with
        | nil => cases hHead
        | cons b x => exact ⟨x, by rw [Option.some.inj hHead]⟩
      have hx : x ≠ bs := fun hEq => hKey (by rw [hEq])
      rw [Limb.find_at hLeft]
      exact (hOnly x hx).symm
    · rw [if_neg hHead]

theorem shaped_detach (h : Limb.Shaped pre (left.append (.cons c lc k rest))) :
    Limb.Shaped pre (left.append rest) ∧ lc.byteVal ∉ rest.bytes := by
  obtain ⟨hLeft, ⟨-, -, hNot, -, hRest⟩, hApart⟩ := Limb.shaped_append.mp h
  refine ⟨Limb.shaped_append.mpr ⟨hLeft, hRest, fun x hx hIn => hApart x hx ?_⟩, hNot⟩
  exact List.mem_cons_of_mem _ hIn

theorem Limb.width_eq_zero : ∀ {t : Limb}, t.width = 0 ↔ t = .nil
  | .nil => by simp [width]
  | .cons r l kids rest => by simp [width]

theorem Limb.find_eq_none_of_nil {t : Limb} (h : t = .nil) (key : List UInt8) :
    t.find key = none := by
  rw [h]
  rfl

--
-- The descent
--

/-- A removal of `bs` below `cur`, with the nodes that are no longer linked. -/
structure Pruned (pre bs : List UInt8) (w w' : World) (cur : Nat) (kids kids' : Limb)
    (freed : List Nat) : Prop where
  shaped : Limb.Shaped pre kids'
  full   : kids'.Full
  refit  : Refit w.node w'.node cur kids kids'
  find   : kids'.find = Function.update kids.find bs none
  refs   : kids.refs.Perm (kids'.refs ++ freed)
  live   : Lasts w.node w'.node

/-- A name without an entry. -/
theorem removeLoop_absent : ∀ (bs : List UInt8) {pre : List UInt8} {cur : Nat} {l : Label}
    {next : Nat} {kids : Limb} {above : List Nat}, Sub w.node cur l next kids →
    Limb.Shaped pre kids → kids.find bs = none →
    removeLoop above bs cur w = (.error .enoent, w)
  | [], _, _, _, _, _, _, _, _, _ => rfl
  | b :: bs, pre, cur, l, next, kids, above, h, hShaped, hNone => by
    unfold removeLoop
    by_cases hb : b ∈ kids.bytes
    · obtain ⟨left, c, lc, k, rest, rfl, hNot, rfl⟩ := Limb.exists_split kids hb
      obtain ⟨-, -, hKids, -⟩ := shaped_focus hShaped
      rw [Limb.find_at hNot] at hNone
      rw [bind_ok (findChildWithPrev_found h hNot hShaped.width_le)]
      dsimp only
      by_cases hBs : bs = []
      · rw [if_pos hBs] at hNone ⊢
        obtain ⟨m, hRead, hReads⟩ := readSlot_reads h.focus.node
        have hInterm : m.interm = lc.interm := hReads.interm
        have hStatus : m.statusLeaf = lc.statusLeaf := hReads.statusLeaf
        rw [bind_ok hRead, if_pos]
        · rfl
        · unfold Label.entry Label.isLeaf at hNone
          rw [hInterm, hStatus]
          cases hI : lc.interm with
          | true =>
            cases hS : lc.statusLeaf with
            | true => rw [hI, hS] at hNone; cases hNone
            | false => rfl
          | false => rw [hI] at hNone; cases hNone
      · rw [if_neg hBs] at hNone ⊢
        exact removeLoop_absent bs h.focus hKids hNone
    · rw [bind_error (findChildWithPrev_missing h hb hShaped.width_le)]

/-- The node of the name has children: it only loses its entry. -/
theorem removeLoop_unname (hw : Sound w) (above : List Nat)
    (h : Sub w.node cur l next (left.append (.cons c lc k rest)))
    (hShaped : Limb.Shaped pre (left.append (.cons c lc k rest)))
    (hFull : (left.append (.cons c lc k rest)).Full) (hLeaf : lc.isLeaf = true) (hK : k ≠ .nil) :
    ∃ w' kids', removeLoop above [lc.byteVal] cur w = (.ok none, w') ∧ Sound w' ∧
      Sub w'.node cur l next kids' ∧
      Pruned pre [lc.byteVal] w w' cur (left.append (.cons c lc k rest)) kids' [] := by
  obtain ⟨-, hPure, hKids, hNot⟩ := shaped_focus hShaped
  have hI : lc.interm = true := by
    by_contra hNotI
    exact hK (hPure (by simpa using hNotI))
  have hS : lc.statusLeaf = true := by
    unfold Label.isLeaf at hLeaf
    rw [hI] at hLeaf
    exact hLeaf
  obtain ⟨m, hRead, hReads⟩ := readSlot_reads h.focus.node
  have hInterm : m.interm = true := hReads.interm.trans hI
  have hStatus : m.statusLeaf = true := hReads.statusLeaf.trans hS
  have hCount : m.childCount = k.width := hReads.childCount
  have hWidth : k.width ≠ 0 := fun hZero => hK (Limb.width_eq_zero.mp hZero)
  obtain ⟨v, hSet, hv, hNode⟩ := setSlot_node hw h.focus.node
    (f := fun n => { n with statusLeaf := false })
    (g := fun n => { n with statusLeaf := false }) (fun _ => ⟨rfl, rfl⟩) fun _ _ => rfl
  obtain ⟨hSub, hRefit⟩ := h.relabelChild { lc with statusLeaf := false } hNode
  have hBare : ({ lc with statusLeaf := false } : Label).isLeaf = false := by
    unfold Label.isLeaf
    rw [hI]
    rfl
  refine ⟨v, _, ?_, hv, hSub, ?_, ?_, hRefit, ?_, ?_, ?_⟩
  · unfold removeLoop
    rw [bind_ok (findChildWithPrev_found h hNot hShaped.width_le)]
    dsimp only
    rw [if_pos rfl, bind_ok hRead, hInterm, hStatus]
    rw [if_neg (by decide), if_pos rfl, bind_ok hSet, if_pos]
    · rfl
    · rw [hCount]
      simp [hWidth]
  · refine shaped_replace hShaped rfl (fun hTrue => ?_) (fun hFalse => ?_) hKids
    · exact absurd (hBare.symm.trans hTrue) Bool.false_ne_true
    · exact absurd (hFalse.symm.trans hI) Bool.false_ne_true
  · obtain ⟨hLeftFull, -, hKFull, hRestFull⟩ := Limb.full_append.mp hFull
    exact Limb.full_append.mpr ⟨hLeftFull, fun hNil => absurd hNil hK, hKFull, hRestFull⟩
  · refine find_replace hNot rfl ?_
    funext x
    unfold below Label.entry
    by_cases hx : x = []
    · rw [hx, Function.update_self, if_pos rfl, hBare]
      rfl
    · rw [Function.update_of_ne hx, if_neg hx, if_neg hx]
  · rw [List.append_nil, Limb.refs_append, Limb.refs_append]
    exact List.Perm.refl _
  · rw [hNode]
    exact Lasts.update _ _ _

/-- The node of the name has no children: it is unlinked. -/
theorem removeLoop_unlink (hw : Sound w) (above : List Nat)
    (h : Sub w.node cur l next (left.append (.cons c lc k rest)))
    (hShaped : Limb.Shaped pre (left.append (.cons c lc k rest)))
    (hFull : (left.append (.cons c lc k rest)).Full) (hLeaf : lc.isLeaf = true) (hK : k = .nil) :
    ∃ w', removeLoop above [lc.byteVal] cur w = (.ok (some (cur :: above, [c])), w') ∧ Sound w' ∧
      Sub w'.node cur l next (left.append rest) ∧
      Pruned pre [lc.byteVal] w w' cur (left.append (.cons c lc k rest)) (left.append rest) [c] := by
  obtain ⟨-, -, -, hNot⟩ := shaped_focus hShaped
  obtain ⟨hShaped', hNotRest⟩ := shaped_detach hShaped
  obtain ⟨m, hRead, hReads⟩ := readSlot_reads h.focus.node
  have hInterm : m.interm = lc.interm := hReads.interm
  have hStatus : m.statusLeaf = lc.statusLeaf := hReads.statusLeaf
  have hFirst : m.firstChild = 0 := by
    rw [hReads.firstChild, hK]
    rfl
  have hCount : m.childCount = 0 := by
    rw [hReads.childCount, hK]
    rfl
  have hGuard : (m.interm && !m.statusLeaf) = false := by
    rw [hInterm, hStatus]
    unfold Label.isLeaf at hLeaf
    cases hI : lc.interm with
    | true =>
      rw [hI] at hLeaf
      have hS : lc.statusLeaf = true := hLeaf
      rw [hS]
      rfl
    | false => rfl
  have hNoKids : (m.interm && (m.firstChild != 0 || m.childCount != 0)) = false := by
    rw [hFirst, hCount]
    simp
  -- The bit of the leaf is cleared first if the node is an intermediate one.
  have hClear : ∃ w₁ lc₁, (if m.interm then setSlot c fun n => { n with statusLeaf := false }
        else ret ()) w = (.ok (), w₁) ∧ Sound w₁ ∧ lc₁.byteVal = lc.byteVal ∧
      Sub w₁.node cur l next (left.append (.cons c lc₁ k rest)) ∧
      Refit w.node w₁.node cur (left.append (.cons c lc k rest))
        (left.append (.cons c lc₁ k rest)) ∧ Lasts w.node w₁.node := by
    cases hI : m.interm with
    | false =>
      rw [if_neg Bool.false_ne_true]
      exact ⟨w, lc, rfl, hw, rfl, h, Refit.refl _ _ _, Lasts.refl _⟩
    | true =>
      rw [if_pos rfl]
      obtain ⟨v, hSet, hv, hNode⟩ := setSlot_node hw h.focus.node
        (f := fun n => { n with statusLeaf := false })
        (g := fun n => { n with statusLeaf := false }) (fun _ => ⟨rfl, rfl⟩) fun _ _ => rfl
      obtain ⟨hSub, hRefit⟩ := h.relabelChild { lc with statusLeaf := false } hNode
      refine ⟨v, { lc with statusLeaf := false }, hSet, hv, rfl, hSub, hRefit, ?_⟩
      rw [hNode]
      exact Lasts.update _ _ _
  obtain ⟨w₁, lc₁, hRun₁, hw₁, -, hSub₁, hRefit₁, hLasts₁⟩ := hClear
  have hWidth : (left.append (.cons c lc₁ k rest)).width ≤ 256 := by
    have hOld := hShaped.width_le
    rw [Limb.width_append] at hOld ⊢
    exact hOld
  obtain ⟨w', hUnlink, hw', hSub', hRefit', hLasts'⟩ := unlinkChild_detach hw₁ hSub₁ hWidth
  refine ⟨w', ?_, hw', hSub', hShaped', ?_, ?_, ?_, ?_, hLasts₁.trans hLasts'⟩
  · unfold removeLoop
    rw [bind_ok (findChildWithPrev_found h hNot hShaped.width_le)]
    dsimp only
    rw [if_pos rfl, bind_ok hRead, hGuard, if_neg Bool.false_ne_true]
    have hStep : (do
        unlinkChild cur (left.last 0) c
        ret (some (cur :: above, [c])) : TrieM (Option (List Nat × List Nat))) w₁ =
        (.ok (some (cur :: above, [c])), w') := by
      rw [bind_ok hUnlink]
      rfl
    rw [hNoKids]
    simp only [if_neg Bool.false_ne_true]
    split at hRun₁
    · rename_i hI
      rw [if_pos hI, bind_ok hRun₁]
      exact hStep
    · rename_i hI
      rw [if_neg hI, bind_ok hRun₁]
      exact hStep
  · obtain ⟨hLeftFull, -, -, hRestFull⟩ := Limb.full_append.mp hFull
    exact Limb.full_append.mpr ⟨hLeftFull, hRestFull⟩
  · refine hRefit₁.trans hRefit' hSub₁ fun r hr => Or.inl ?_
    rw [Limb.refs_append] at hr ⊢
    exact hr
  · refine find_detach hNot hNotRest ?_
    intro x hx
    unfold below
    rw [if_neg hx, hK]
    rfl
  · rw [Limb.refs_append, Limb.refs_append, hK, Limb.refs]
    refine List.perm_iff_count.mpr fun a => ?_
    simp only [Limb.refs, List.nil_append, List.count_cons, List.count_append, List.count_nil]
    omega

--
-- The collapse
--

/-- The collapse loop does not go past a node with children. -/
theorem collapse_stop (h : Sub w.node cur l next kids) (hKids : kids ≠ .nil) (above : List Nat)
    (freed : List Nat) : collapse (cur :: above) freed w = (.ok freed, w) := by
  cases above with
  | nil => rfl
  | cons parent above =>
    obtain ⟨m, hRead, hReads⟩ := readSlot_reads h.node
    have hCount : m.childCount = kids.width := hReads.childCount
    have hWidth : kids.width ≠ 0 := fun hZero => hKids (Limb.width_eq_zero.mp hZero)
    unfold collapse
    rw [bind_ok (attempt_eq hRead)]
    dsimp only
    rw [if_neg]
    · rfl
    · unfold Slot.isBare
      rw [hCount]
      simp [hWidth]

/-- Is the node bare? -/
theorem isBare_iff {m : Slot} (h : Reads m (l.node (kids.head 0) next kids.width)) :
    m.isBare = true ↔ l.isLeaf = false ∧ kids = .nil := by
  have hInterm : m.interm = l.interm := h.interm
  have hStatus : m.statusLeaf = l.statusLeaf := h.statusLeaf
  have hFirst : m.firstChild = kids.head 0 := h.firstChild
  have hCount : m.childCount = kids.width := h.childCount
  unfold Slot.isBare Label.isLeaf
  rw [hInterm, hStatus, hFirst, hCount]
  simp only [Bool.and_eq_true, Bool.not_eq_true', beq_iff_eq, Bool.or_eq_false_iff,
    Bool.not_eq_false']
  constructor
  · rintro ⟨⟨⟨hI, hS⟩, hW⟩, -⟩
    exact ⟨⟨hI, hS⟩, Limb.width_eq_zero.mp hW⟩
  · rintro ⟨⟨hI, hS⟩, rfl⟩
    exact ⟨⟨⟨hI, hS⟩, rfl⟩, rfl⟩

/-- A removal below a child, seen from the node, apart from what is bare. -/
structure Lifted (pre bs : List UInt8) (w : World) (cur : Nat) (l : Label) (next : Nat)
    (left : Limb) (c : Nat) (lc : Label) (k k' rest : Limb) (w' : World) (freed : List Nat) :
    Prop where
  sub    : Sub w'.node cur l next (left.append (.cons c lc k' rest))
  shaped : Limb.Shaped pre (left.append (.cons c lc k' rest))
  find   : (left.append (.cons c lc k' rest)).find =
    Function.update (left.append (.cons c lc k rest)).find (lc.byteVal :: bs) none
  refs   : (left.append (.cons c lc k rest)).refs.Perm
    ((left.append (.cons c lc k' rest)).refs ++ freed)

theorem Pruned.lifted {freed : List Nat}
    (h : Sub w.node cur l next (left.append (.cons c lc k rest)))
    (hShaped : Limb.Shaped pre (left.append (.cons c lc k rest))) (hBs : bs ≠ [])
    (hInterm : lc.interm = true) (hSub : Sub w'.node c lc (rest.head 0) k')
    (hIn : Pruned (pre ++ [lc.byteVal]) bs w w' c k k' freed) :
    Lifted pre bs w cur l next left c lc k k' rest w' freed := by
  obtain ⟨hName, -, -, hNot⟩ := shaped_focus hShaped
  refine ⟨h.refill hSub hIn.refit, ?_, ?_, ?_⟩
  · refine shaped_replace hShaped rfl hName (fun hFalse => ?_) hIn.shaped
    exact absurd (hFalse.symm.trans hInterm) Bool.false_ne_true
  · exact find_replace hNot rfl (below_update hBs hIn.find)
  · rw [Limb.refs_append, Limb.refs_append, Limb.refs, Limb.refs]
    refine List.perm_iff_count.mpr fun a => ?_
    have hCount := List.perm_iff_count.mp hIn.refs a
    simp only [List.count_cons, List.count_append] at hCount ⊢
    omega

/-- The child is not bare. -/
theorem Pruned.lift {freed : List Nat} (hIn : Pruned (pre ++ [lc.byteVal]) bs w w' c k k' freed)
    (hLifted : Lifted pre bs w cur l next left c lc k k' rest w' freed)
    (hFull : (left.append (.cons c lc k rest)).Full) (hBare : k' = .nil → lc.isLeaf = true) :
    Pruned pre (lc.byteVal :: bs) w w' cur (left.append (.cons c lc k rest))
      (left.append (.cons c lc k' rest)) freed := by
  obtain ⟨hLeftFull, -, -, hRestFull⟩ := Limb.full_append.mp hFull
  exact ⟨hLifted.shaped, Limb.full_append.mpr ⟨hLeftFull, hBare, hIn.full, hRestFull⟩,
    hIn.refit.refill, hLifted.find, hLifted.refs, hIn.live⟩

/-- The collapse loop at a child: a bare one is taken out. -/
theorem collapse_lift (hw' : Sound w') (above : List Nat) {freed : List Nat}
    (h : Sub w.node cur l next (left.append (.cons c lc k rest)))
    (hShaped : Limb.Shaped pre (left.append (.cons c lc k rest)))
    (hFull : (left.append (.cons c lc k rest)).Full) (hBs : bs ≠ []) (hInterm : lc.interm = true)
    (hSub : Sub w'.node c lc (rest.head 0) k')
    (hIn : Pruned (pre ++ [lc.byteVal]) bs w w' c k k' freed) :
    ∃ w'' kids' freed', collapse (c :: cur :: above) freed w' = collapse (cur :: above) freed' w'' ∧
      Sound w'' ∧ Sub w''.node cur l next kids' ∧
      Pruned pre (lc.byteVal :: bs) w w'' cur (left.append (.cons c lc k rest)) kids' freed' := by
  obtain ⟨-, -, -, hNot⟩ := shaped_focus hShaped
  have hLifted := hIn.lifted h hShaped hBs hInterm hSub
  obtain ⟨m, hRead, hReads⟩ := readSlot_reads hSub.node
  by_cases hBare : m.isBare = true
  · obtain ⟨hLeaf, hK'⟩ := (isBare_iff hReads).mp hBare
    obtain ⟨mc, hReadC, hReadsC⟩ := readSlot_reads hLifted.sub.node
    have hNext : m.nextSibling = rest.head 0 := hReads.nextSibling
    obtain ⟨u, w'', hLink, hCount, hw'', hSub₂, hRefit₂, hLasts₂⟩ :=
      collapseLink_detach hw' hLifted.sub hLifted.shaped.width_le hReadsC.firstChild
    obtain ⟨hShaped₂, hNotRest⟩ := shaped_detach hLifted.shaped
    obtain ⟨hLeftFull, -, -, hRestFull⟩ := Limb.full_append.mp hFull
    refine ⟨w'', left.append rest, freed ++ [c], ?_, hw'', hSub₂, hShaped₂,
      Limb.full_append.mpr ⟨hLeftFull, hRestFull⟩, ?_, ?_, ?_, hIn.live.trans hLasts₂⟩
    · conv_lhs => unfold collapse
      rw [bind_ok (attempt_eq hRead)]
      dsimp only
      rw [if_pos hBare, bind_ok (attempt_eq hReadC)]
      dsimp only
      rw [hNext]
      split at hLink
      · rename_i hFirst
        rw [if_pos hFirst, bind_ok hLink, bind_ok hCount]
      · rename_i hFirst
        rw [if_neg hFirst, bind_ok hLink, bind_ok hCount]
    · exact hIn.refit.refill.trans hRefit₂ hLifted.sub fun r hr =>
        Or.inl (hLifted.refs.mem_iff.mpr (List.mem_append_left _ hr))
    · have hGone : (left.append rest).find =
          Function.update (left.append (.cons c lc k' rest)).find (lc.byteVal :: bs) none := by
        refine find_detach hNot hNotRest fun x _ => ?_
        unfold below Label.entry
        rw [hLeaf, hK']
        split
        · rfl
        · rfl
      rw [hGone, hLifted.find, Function.update_idem]
    · refine hLifted.refs.trans ?_
      rw [hK', Limb.refs_append, Limb.refs_append, Limb.refs]
      refine List.perm_iff_count.mpr fun a => ?_
      simp only [Limb.refs, List.nil_append, List.count_cons, List.count_append, List.count_nil]
      omega
  · refine ⟨w', _, freed, ?_, hw', hLifted.sub, hIn.lift hLifted hFull fun hNil => ?_⟩
    · rw [collapse_stop hLifted.sub (Limb.append_ne_nil _)]
      unfold collapse
      rw [bind_ok (attempt_eq hRead)]
      dsimp only
      rw [if_neg hBare]
      rfl
    · by_contra hLeaf
      exact hBare ((isBare_iff hReads).mpr ⟨by simpa using hLeaf, hNil⟩)

/-- A name with an entry: its node loses the entry, or it is unlinked and the collapse loop
comes back to the node, with everything below it done. -/
theorem removeLoop_present : ∀ (bs : List UInt8) (above : List Nat) {pre : List UInt8} {w : World}
    {cur : Nat} {l : Label} {next : Nat} {kids : Limb}, Sound w →
    Sub w.node cur l next kids → Limb.Shaped pre kids → kids.Full → kids.find bs ≠ none →
    (∃ w' kids', removeLoop above bs cur w = (.ok none, w') ∧ Sound w' ∧
      Sub w'.node cur l next kids' ∧ Pruned pre bs w w' cur kids kids' [] ∧ kids' ≠ .nil) ∨
    ∃ path x w₁, removeLoop above bs cur w = (.ok (some (path, [x])), w₁) ∧
      ∃ w' kids' freed, collapse path [x] w₁ = collapse (cur :: above) freed w' ∧ Sound w' ∧
        Sub w'.node cur l next kids' ∧ Pruned pre bs w w' cur kids kids' freed
  | [], _, _, _, _, _, _, kids, _, _, _, _, hSome => absurd (Limb.find_nil kids) hSome
  | b :: bs, above, pre, w, cur, l, next, kids, hw, h, hShaped, hFull, hSome => by
    have hb : b ∈ kids.bytes := by
      by_contra hNot
      exact hSome (Limb.find_of_notMem hNot bs)
    obtain ⟨left, c, lc, k, rest, rfl, hNot, rfl⟩ := Limb.exists_split kids hb
    obtain ⟨-, hPure, hKids, -⟩ := shaped_focus hShaped
    rw [Limb.find_at hNot] at hSome
    by_cases hBs : bs = []
    · subst hBs
      rw [if_pos rfl] at hSome
      have hLeaf : lc.isLeaf = true := by
        by_contra hNotLeaf
        exact hSome (if_neg hNotLeaf)
      by_cases hK : k = .nil
      · obtain ⟨w₁, hRun, hw₁, hSub, hPruned⟩ :=
          removeLoop_unlink hw above h hShaped hFull hLeaf hK
        exact Or.inr ⟨_, c, w₁, hRun, w₁, _, [c], rfl, hw₁, hSub, hPruned⟩
      · obtain ⟨w', kids', hRun, hw', hSub, hPruned⟩ :=
          removeLoop_unname hw above h hShaped hFull hLeaf hK
        refine Or.inl ⟨w', kids', hRun, hw', hSub, hPruned, ?_⟩
        rintro rfl
        have hPerm := hPruned.refs.length_eq
        rw [Limb.refs_append, Limb.refs] at hPerm
        simp [Limb.refs] at hPerm
    · rw [if_neg hBs] at hSome
      have hInterm : lc.interm = true := by
        by_contra hNotI
        exact hSome (Limb.find_eq_none_of_nil (hPure (by simpa using hNotI)) bs)
      have hStep : removeLoop above (lc.byteVal :: bs) cur w = removeLoop (cur :: above) bs c w := by
        conv_lhs => unfold removeLoop
        rw [bind_ok (findChildWithPrev_found h hNot hShaped.width_le)]
        dsimp only
        rw [if_neg hBs]
      rw [hStep]
      have hKFull : k.Full := (Limb.full_append.mp hFull).2.2.1
      rcases removeLoop_present bs (cur :: above) hw h.focus hKids hKFull hSome with
        ⟨w', k', hRun, hw', hSub, hIn, hK'⟩ |
          ⟨path, x, w₁, hRun, w', k', freed, hCollapse, hw', hSub, hIn⟩
      · have hLifted := hIn.lifted h hShaped hBs hInterm hSub
        exact Or.inl ⟨w', left.append (.cons c lc k' rest), hRun, hw', hLifted.sub,
          hIn.lift hLifted hFull fun hNil => absurd hNil hK', Limb.append_ne_nil _⟩
      · obtain ⟨w'', kids', freed', hEq, hw'', hSub', hPruned⟩ :=
          collapse_lift hw' above h hShaped hFull hBs hInterm hSub hIn
        exact Or.inr ⟨path, x, w₁, hRun, w'', kids', freed', hCollapse.trans hEq, hw'', hSub', hPruned⟩

end Briefs.Trie
