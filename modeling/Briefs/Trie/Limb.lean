import Briefs.Trie.Nodes

/-!
# BrieFS — the tree of a directory

A limb is a chain of siblings with the limbs of their children: the tree of a directory
without its root. `Limb.Held` says that a store has the limb, link by link; `Limb.Shaped`
that siblings have distinct bytes and leaves the bytes on the way as names; `Limb.Full` that
no node is without both an entry and children.

## Results

* `Limb.find_at`, `Limb.find_off` — lookups in a limb, split at one of its siblings.
* `Limb.Held.retarget` — the last sibling is linked to another node.
* `Sub.focus`, `Sub.refill` — from a node to one of its children, and back once the subtree of
  the child has been refitted.
* `Sub.attach`, `Sub.detach` — a child is added at the end, or taken out.
-/

namespace Briefs.Trie

--
-- Limbs
--

/-- A node without its links. -/
structure Label where
  inode      : Nat
  name       : List UInt8
  depth      : Nat
  byteVal    : UInt8
  interm     : Bool
  statusLeaf : Bool
  ftype      : Nat
deriving DecidableEq

/-- `TRIE_IS_LEAF`. -/
def Label.isLeaf (l : Label) : Bool :=
  !l.interm || l.statusLeaf

/-- The inode number and the type, of a leaf. -/
def Label.entry (l : Label) : Option (Nat × Nat) :=
  if l.isLeaf then some (l.inode, l.ftype) else none

def Label.node (l : Label) (first next count : Nat) : Node where
  firstChild  := first
  nextSibling := next
  inode       := l.inode
  name        := l.name
  depth       := l.depth
  byteVal     := l.byteVal
  interm      := l.interm
  statusLeaf  := l.statusLeaf
  ftype       := l.ftype
  childCount  := count

/-- A chain of siblings, with the chains of their children. -/
inductive Limb where
  | nil
  | cons (ref : Nat) (lab : Label) (kids rest : Limb)

namespace Limb

/-- The first node of the chain, `stop` if there is none. -/
def head : Limb → Nat → Nat
  | nil, stop => stop
  | cons r _ _ _, _ => r

/-- The last node of the chain, `prev` if there is none. -/
def last : Limb → Nat → Nat
  | nil, prev => prev
  | cons r _ _ rest, _ => rest.last r

def width : Limb → Nat
  | nil => 0
  | cons _ _ _ rest => rest.width + 1

def bytes : Limb → List UInt8
  | nil => []
  | cons _ l _ rest => l.byteVal :: rest.bytes

def refs : Limb → List Nat
  | nil => []
  | cons r _ kids rest => r :: (kids.refs ++ rest.refs)

def append : Limb → Limb → Limb
  | nil, t => t
  | cons r l kids rest, t => cons r l kids (rest.append t)

/-- The entry of a name below the chain. -/
def find : Limb → List UInt8 → Option (Nat × Nat)
  | nil, _ => none
  | cons _ _ _ _, [] => none
  | cons _ l kids rest, b :: bs =>
    if l.byteVal = b then if bs = [] then l.entry else kids.find bs
    else rest.find (b :: bs)

/-- The node of a name below the chain. -/
def place : Limb → List UInt8 → Option Nat
  | nil, _ => none
  | cons _ _ _ _, [] => none
  | cons r l kids rest, b :: bs =>
    if l.byteVal = b then if bs = [] then some r else kids.place bs
    else rest.place (b :: bs)

/-- Every node has its own byte among its siblings, a leaf has the bytes on the way to it as
its name, and only intermediate nodes have children. -/
def Shaped : List UInt8 → Limb → Prop
  | _, nil => True
  | pre, cons _ l kids rest =>
    (l.isLeaf = true → l.name = pre ++ [l.byteVal]) ∧ (l.interm = false → kids = nil) ∧
      l.byteVal ∉ rest.bytes ∧ Shaped (pre ++ [l.byteVal]) kids ∧ Shaped pre rest

/-- A node without children is a leaf. -/
def Full : Limb → Prop
  | nil => True
  | cons _ l kids rest => (kids = nil → l.isLeaf = true) ∧ Full kids ∧ Full rest

variable {s s' : Store} {a t kids rest : Limb} {l : Label} {r stop : Nat} {b : UInt8}

@[simp] theorem nil_append (t : Limb) : nil.append t = t := rfl

@[simp] theorem cons_append (r : Nat) (l : Label) (kids rest t : Limb) :
    (cons r l kids rest).append t = cons r l kids (rest.append t) := rfl

@[simp] theorem append_nil (a : Limb) : a.append nil = a := by
  induction a with
  | nil => rfl
  | cons r l kids rest _ ih => rw [cons_append, ih]

@[simp] theorem width_append (a t : Limb) : (a.append t).width = a.width + t.width := by
  induction a with
  | nil => simp [width]
  | cons r l kids rest _ ih =>
    simp only [cons_append, width, ih]
    omega

@[simp] theorem bytes_append (a t : Limb) : (a.append t).bytes = a.bytes ++ t.bytes := by
  induction a with
  | nil => rfl
  | cons r l kids rest _ ih => simp only [cons_append, bytes, ih, List.cons_append]

@[simp] theorem refs_append (a t : Limb) : (a.append t).refs = a.refs ++ t.refs := by
  induction a with
  | nil => rfl
  | cons r l kids rest _ ih => simp only [cons_append, refs, ih, List.cons_append, List.append_assoc]

@[simp] theorem head_append (a t : Limb) (stop : Nat) :
    (a.append t).head stop = a.head (t.head stop) := by
  cases a with
  | nil => rfl
  | cons r l kids rest => rfl

theorem head_of_ne_nil (h : a ≠ nil) (stop stop' : Nat) : a.head stop = a.head stop' := by
  cases a with
  | nil => exact absurd rfl h
  | cons r l kids rest => rfl

theorem length_bytes (a : Limb) : a.bytes.length = a.width := by
  induction a with
  | nil => rfl
  | cons r l kids rest _ ih => simp only [bytes, width, List.length_cons, ih]

theorem cons_ne_nil (r : Nat) (l : Label) (kids rest : Limb) : cons r l kids rest ≠ nil := by
  intro h
  cases h

theorem append_ne_nil (a : Limb) : a.append (cons r l kids rest) ≠ nil := by
  cases a with
  | nil => exact cons_ne_nil _ _ _ _
  | cons _ _ _ _ => exact cons_ne_nil _ _ _ _

theorem last_mem_refs : ∀ (a : Limb) (prev : Nat), a ≠ nil → a.last prev ∈ a.refs
  | nil, _, h => absurd rfl h
  | cons r l kids nil, _, _ => List.mem_cons_self
  | cons r l kids (cons r' l' kids' rest), _, _ => by
    have hRest := last_mem_refs (cons r' l' kids' rest) r (cons_ne_nil _ _ _ _)
    exact List.mem_cons_of_mem _ (List.mem_append_right _ hRest)

/-- The child with a byte, and its siblings before and after. -/
theorem exists_split : ∀ t : Limb, b ∈ t.bytes →
    ∃ (left : Limb) (r : Nat) (l : Label) (kids rest : Limb),
      t = left.append (cons r l kids rest) ∧ b ∉ left.bytes ∧ l.byteVal = b
  | nil, h => absurd h List.not_mem_nil
  | cons r l kids rest, h => by
    by_cases hEq : l.byteVal = b
    · exact ⟨nil, r, l, kids, rest, rfl, List.not_mem_nil, hEq⟩
    · have hRest : b ∈ rest.bytes := by
        rcases List.mem_cons.mp h with hHere | hLater
        · exact absurd hHere.symm hEq
        · exact hLater
      obtain ⟨left, r', l', kids', rest', hEq', hNot, hByte⟩ := exists_split rest hRest
      refine ⟨cons r l kids left, r', l', kids', rest', by rw [hEq', cons_append], ?_, hByte⟩
      simp only [bytes, List.mem_cons, not_or]
      exact ⟨fun h => hEq h.symm, hNot⟩

--
-- Names below a limb
--

@[simp] theorem find_nil (t : Limb) : t.find [] = none := by
  cases t with
  | nil => rfl
  | cons r l kids rest => rfl

theorem find_append_of_notMem (hb : b ∉ a.bytes) (t : Limb) (bs : List UInt8) :
    (a.append t).find (b :: bs) = t.find (b :: bs) := by
  induction a with
  | nil => rfl
  | cons r l kids rest _ ih =>
    simp only [bytes, List.mem_cons, not_or] at hb
    rw [cons_append, find, if_neg (fun h => hb.1 h.symm)]
    exact ih hb.2

theorem find_of_notMem (hb : b ∉ t.bytes) (bs : List UInt8) : t.find (b :: bs) = none := by
  have h := find_append_of_notMem hb nil bs
  rw [append_nil] at h
  exact h

/-- The names that begin with the byte of a child. -/
theorem find_at (hb : l.byteVal ∉ a.bytes) (bs : List UInt8) :
    (a.append (cons r l kids rest)).find (l.byteVal :: bs) =
      if bs = [] then l.entry else kids.find bs := by
  rw [find_append_of_notMem hb, find, if_pos rfl]

/-- The other names. -/
theorem find_off (hb : b ≠ l.byteVal) (bs : List UInt8) :
    (a.append (cons r l kids rest)).find (b :: bs) = (a.append rest).find (b :: bs) := by
  induction a with
  | nil =>
    show (cons r l kids rest).find (b :: bs) = _
    rw [find, if_neg fun h => hb h.symm]
    rfl
  | cons r' l' kids' rest' _ ih =>
    rw [cons_append, cons_append, find, find, ih]

theorem place_of_notMem (hb : b ∉ t.bytes) (bs : List UInt8) : t.place (b :: bs) = none := by
  induction t with
  | nil => rfl
  | cons r l kids rest _ ih =>
    simp only [bytes, List.mem_cons, not_or] at hb
    rw [place, if_neg fun h => hb.1 h.symm]
    exact ih hb.2

theorem place_at (hb : l.byteVal ∉ a.bytes) (bs : List UInt8) :
    (a.append (cons r l kids rest)).place (l.byteVal :: bs) =
      if bs = [] then some r else kids.place bs := by
  induction a with
  | nil =>
    show (cons r l kids rest).place (l.byteVal :: bs) = _
    rw [place, if_pos rfl]
  | cons r' l' kids' rest' _ ih =>
    simp only [bytes, List.mem_cons, not_or] at hb
    rw [cons_append, place, if_neg (fun h => hb.1 h.symm)]
    exact ih hb.2

--
-- Shapes
--

theorem shaped_append {pre : List UInt8} : ∀ {a : Limb}, Shaped pre (a.append t) ↔
    Shaped pre a ∧ Shaped pre t ∧ ∀ b ∈ a.bytes, b ∉ t.bytes
  | nil => by simp [Shaped, bytes]
  | cons r l kids rest => by
    rw [cons_append, Shaped, Shaped, shaped_append (a := rest)]
    simp only [bytes_append, List.mem_append, not_or, bytes, List.mem_cons, forall_eq_or_imp]
    tauto

theorem full_append : ∀ {a : Limb}, Full (a.append t) ↔ Full a ∧ Full t
  | nil => by simp [Full]
  | cons r l kids rest => by
    rw [cons_append, Full, Full, full_append (a := rest)]
    tauto

theorem Shaped.nodup_bytes {pre : List UInt8} (h : Shaped pre t) : t.bytes.Nodup := by
  induction t with
  | nil => exact List.nodup_nil
  | cons r l kids rest _ ih =>
    obtain ⟨-, -, hNot, -, hRest⟩ := h
    exact List.nodup_cons.mpr ⟨hNot, ih hRest⟩

/-- There are at most as many siblings as bytes. -/
theorem Shaped.width_le {pre : List UInt8} (h : Shaped pre t) : t.width ≤ 256 := by
  have hNodup : (t.bytes.map UInt8.toFin).Nodup :=
    (List.nodup_map_iff fun a b hab => UInt8.toFin_inj.mp hab).mpr h.nodup_bytes
  have hCard := hNodup.length_le_card
  rw [List.length_map, length_bytes, Fintype.card_fin] at hCard
  exact hCard

--
-- Limbs in a store
--

/-- The store has the nodes of the limb, and its last top node links to `stop`. -/
def Held (s : Store) : Limb → Nat → Prop
  | nil, _ => True
  | cons r l kids rest, stop =>
    r ≠ 0 ∧ s r = some (l.node (kids.head 0) (rest.head stop) kids.width) ∧
      Held s kids 0 ∧ Held s rest stop

theorem held_append : ∀ {a : Limb} {stop : Nat},
    Held s (a.append t) stop ↔ Held s a (t.head stop) ∧ Held s t stop
  | nil, stop => by simp [Held]
  | cons r l kids rest, stop => by
    rw [cons_append, Held, Held, held_append (a := rest), head_append]
    tauto

theorem Held.congr : ∀ {t : Limb} {stop : Nat}, Held s t stop → (∀ r ∈ t.refs, s' r = s r) →
    Held s' t stop
  | nil, _, _, _ => trivial
  | cons r l kids rest, stop, ⟨hNe, hNode, hKids, hRest⟩, hSame => by
    refine ⟨hNe, ?_, hKids.congr fun x hx => hSame x ?_, hRest.congr fun x hx => hSame x ?_⟩
    · rw [hSame r List.mem_cons_self]
      exact hNode
    · exact List.mem_cons_of_mem _ (List.mem_append_left _ hx)
    · exact List.mem_cons_of_mem _ (List.mem_append_right _ hx)

theorem Held.live : ∀ {t : Limb} {stop : Nat}, Held s t stop → ∀ r ∈ t.refs, ∃ n, s r = some n
  | nil, _, _, _, hr => absurd hr List.not_mem_nil
  | cons r l kids rest, stop, ⟨_, hNode, hKids, hRest⟩, x, hx => by
    rcases List.mem_cons.mp hx with rfl | hIn
    · exact ⟨_, hNode⟩
    · rcases List.mem_append.mp hIn with hIn | hIn
      · exact hKids.live x hIn
      · exact hRest.live x hIn

theorem Held.ne_zero : ∀ {t : Limb} {stop : Nat}, Held s t stop → ∀ r ∈ t.refs, r ≠ 0
  | nil, _, _, _, hr => absurd hr List.not_mem_nil
  | cons r l kids rest, stop, ⟨hNe, _, hKids, hRest⟩, x, hx => by
    rcases List.mem_cons.mp hx with rfl | hIn
    · exact hNe
    · rcases List.mem_append.mp hIn with hIn | hIn
      · exact hKids.ne_zero x hIn
      · exact hRest.ne_zero x hIn

/-- The last node of a chain, which links to where the chain stops. -/
theorem Held.last_node : ∀ {a : Limb} {stop : Nat} (prev : Nat), Held s a stop → a ≠ nil →
    ∃ n, s (a.last prev) = some n ∧ n.nextSibling = stop
  | nil, _, _, _, h => absurd rfl h
  | cons _ _ _ nil, _, _, ⟨_, hNode, _, _⟩, _ => ⟨_, hNode, rfl⟩
  | cons r _ _ (cons _ _ _ _), _, _, ⟨_, _, _, hRest⟩, _ =>
    hRest.last_node r (cons_ne_nil _ _ _ _)

/-- The last node of a chain gets another link. -/
theorem Held.retarget : ∀ {a : Limb} {stop : Nat} (prev stop' : Nat) {n : Node}, Held s a stop →
    a ≠ nil → a.refs.Nodup → s (a.last prev) = some n →
    Held (Function.update s (a.last prev) (some { n with nextSibling := stop' })) a stop'
  | nil, _, _, _, _, _, h, _, _ => absurd rfl h
  | cons r l kids nil, stop, prev, stop', n, ⟨hNe, hNode, hKids, _⟩, _, hNodup, hLast => by
    have hLast' : s r = some n := hLast
    refine ⟨hNe, ?_, hKids.congr fun x hx => ?_, trivial⟩
    · show Function.update s r _ r = _
      rw [Function.update_self]
      obtain rfl := Option.some.inj (hLast'.symm.trans hNode)
      rfl
    · have hx' : x ≠ r := by
        rintro rfl
        exact (List.nodup_cons.mp hNodup).1 (List.mem_append_left _ hx)
      exact Function.update_of_ne hx' _ _
  | cons r l kids (cons r' l' kids' rest), stop, prev, stop', n, ⟨hNe, hNode, hKids, hRest⟩, _,
      hNodup, hLast => by
    have hMem := last_mem_refs (cons r' l' kids' rest) r (cons_ne_nil _ _ _ _)
    have hParts := List.nodup_cons.mp hNodup
    have hApart := List.disjoint_of_nodup_append hParts.2
    have hNodup' : (cons r' l' kids' rest).refs.Nodup := (List.nodup_append.mp hParts.2).2.1
    refine ⟨hNe, ?_, hKids.congr fun x hx => ?_,
      hRest.retarget r stop' (cons_ne_nil _ _ _ _) hNodup' hLast⟩
    · have hOther : r ≠ (cons r' l' kids' rest).last r := by
        intro hEq
        exact hParts.1 (List.mem_append_right _ (hEq ▸ hMem))
      exact (Function.update_of_ne hOther _ _).trans hNode
    · have hOther : x ≠ (cons r' l' kids' rest).last r := by
        rintro rfl
        exact hApart hx hMem
      exact Function.update_of_ne hOther _ _

end Limb

--
-- Subtrees
--

/-- The node `cur`, with the limb of its children. -/
structure Sub (s : Store) (cur : Nat) (l : Label) (next : Nat) (kids : Limb) : Prop where
  ne    : cur ≠ 0
  node  : s cur = some (l.node (kids.head 0) next kids.width)
  held  : Limb.Held s kids 0
  nodup : (cur :: kids.refs).Nodup

/-- Below `cur` the children have become `kids'`: new nodes were not in use, and nothing
else has changed. -/
structure Refit (s s' : Store) (cur : Nat) (kids kids' : Limb) : Prop where
  old   : ∀ r ∈ kids'.refs, r ∈ kids.refs ∨ s r = none
  frame : ∀ r, r ∉ cur :: kids.refs → r ∉ kids'.refs → s' r = s r

variable {s s' s'' : Store} {cur c next : Nat} {l lc lc' : Label}
  {kids kids' kids'' left rest k k' : Limb}

theorem Refit.refl (s : Store) (cur : Nat) (kids : Limb) : Refit s s cur kids kids :=
  ⟨fun _ hr => Or.inl hr, fun _ _ _ => rfl⟩

theorem Sub.live (h : Sub s cur l next kids) : ∀ r ∈ cur :: kids.refs, s r ≠ none := by
  intro r hr
  rcases List.mem_cons.mp hr with rfl | hIn
  · rw [h.node]
    exact Option.some_ne_none _
  · obtain ⟨n, hn⟩ := h.held.live r hIn
    rw [hn]
    exact Option.some_ne_none _

theorem Refit.trans (h : Refit s s' cur kids kids') (h' : Refit s' s'' cur kids' kids'')
    (hSub : Sub s' cur l next kids')
    (hKept : ∀ r ∈ kids'.refs, r ∈ kids.refs ∨ r ∈ kids''.refs) :
    Refit s s'' cur kids kids'' := by
  refine ⟨?_, ?_⟩
  · intro r hr
    rcases h'.old r hr with hIn | hNone
    · exact h.old r hIn
    · by_cases hOld : r ∈ kids.refs
      · exact Or.inl hOld
      · have hOut : r ∉ cur :: kids'.refs := fun hIn => hSub.live r hIn hNone
        simp only [List.mem_cons, not_or] at hOut
        rw [h.frame r (by simp [hOut.1, hOld]) hOut.2] at hNone
        exact Or.inr hNone
  · intro r hr hr''
    have hr' : r ∉ kids'.refs := by
      intro hIn
      rcases hKept r hIn with hOld | hLater
      · exact hr (List.mem_cons_of_mem _ hOld)
      · exact hr'' hLater
    have hOut : r ∉ cur :: kids'.refs := by
      simp only [List.mem_cons, not_or] at hr ⊢
      exact ⟨hr.1, hr'⟩
    rw [h'.frame r hOut hr'', h.frame r hr hr']

/-- A child as a subtree of its own. -/
theorem Sub.focus (h : Sub s cur l next (left.append (.cons c lc k rest))) :
    Sub s c lc (rest.head 0) k := by
  obtain ⟨hNe, hNode, hKids, -⟩ := (Limb.held_append.mp h.held).2
  refine ⟨hNe, hNode, hKids, ?_⟩
  have hNodup := (List.nodup_cons.mp h.nodup).2
  rw [Limb.refs_append] at hNodup
  have hRight := (List.nodup_append.mp hNodup).2.1
  rw [Limb.refs, ← List.cons_append] at hRight
  exact (List.nodup_append.mp hRight).1

/-- The nodes around a child. -/
theorem Sub.outer (h : Sub s cur l next (left.append (.cons c lc k rest))) :
    (cur :: (left.refs ++ rest.refs)).Nodup ∧
      ∀ r ∈ cur :: (left.refs ++ rest.refs), r ∉ c :: k.refs := by
  have hPerm : (cur :: (left.append (.cons c lc k rest)).refs).Perm
      ((cur :: (left.refs ++ rest.refs)) ++ (c :: k.refs)) := by
    rw [Limb.refs_append, Limb.refs]
    refine List.perm_iff_count.mpr fun a => ?_
    simp only [List.count_cons, List.count_append]
    omega
  have hNodup := hPerm.nodup_iff.mp h.nodup
  refine ⟨(List.nodup_append.mp hNodup).1, fun r hr hIn => ?_⟩
  exact List.disjoint_of_nodup_append hNodup hr hIn

theorem Sub.live_outer (h : Sub s cur l next (left.append (.cons c lc k rest))) :
    ∀ r ∈ cur :: (left.refs ++ rest.refs), s r ≠ none := by
  intro r hr
  refine h.live r ?_
  rcases List.mem_cons.mp hr with rfl | hIn
  · exact List.mem_cons_self
  · refine List.mem_cons_of_mem _ ?_
    rw [Limb.refs_append, Limb.refs]
    rcases List.mem_append.mp hIn with hIn | hIn
    · exact List.mem_append_left _ hIn
    · exact List.mem_append_right _ (List.mem_cons_of_mem _ (List.mem_append_right _ hIn))

/-- What is around a child stays when the child's subtree is refitted. -/
theorem Sub.outer_same (h : Sub s cur l next (left.append (.cons c lc k rest)))
    (hRefit : Refit s s' c k k') : ∀ r ∈ cur :: (left.refs ++ rest.refs),
      s' r = s r ∧ r ∉ k'.refs := by
  intro r hr
  have hOut := h.outer.2 r hr
  have hNot : r ∉ k'.refs := by
    intro hIn
    rcases hRefit.old r hIn with hOld | hNone
    · exact hOut (List.mem_cons_of_mem _ hOld)
    · exact h.live_outer r hr hNone
  exact ⟨hRefit.frame r hOut hNot, hNot⟩

/-- The subtree of a child is refitted. -/
theorem Sub.refill (h : Sub s cur l next (left.append (.cons c lc k rest)))
    (hc : Sub s' c lc' (rest.head 0) k') (hRefit : Refit s s' c k k') :
    Sub s' cur l next (left.append (.cons c lc' k' rest)) := by
  have hSame := h.outer_same hRefit
  obtain ⟨hLeft, -, -, -, hRest⟩ := Limb.held_append.mp h.held
  refine ⟨h.ne, ?_, Limb.held_append.mpr ⟨?_, hc.ne, hc.node, hc.held, ?_⟩, ?_⟩
  · rw [(hSame cur List.mem_cons_self).1, h.node]
    simp only [Limb.head_append, Limb.width_append]
    rfl
  · exact hLeft.congr fun r hr =>
      (hSame r (List.mem_cons_of_mem _ (List.mem_append_left _ hr))).1
  · exact hRest.congr fun r hr =>
      (hSame r (List.mem_cons_of_mem _ (List.mem_append_right _ hr))).1
  · have hPerm : (cur :: (left.append (.cons c lc' k' rest)).refs).Perm
        ((cur :: (left.refs ++ rest.refs)) ++ (c :: k'.refs)) := by
      rw [Limb.refs_append, Limb.refs]
      refine List.perm_iff_count.mpr fun a => ?_
      simp only [List.count_cons, List.count_append]
      omega
    refine hPerm.nodup_iff.mpr (List.nodup_append.mpr ⟨h.outer.1, hc.nodup, ?_⟩)
    intro x hx y hy hEq
    subst hEq
    rcases List.mem_cons.mp hy with rfl | hIn
    · exact h.outer.2 _ hx List.mem_cons_self
    · exact (hSame x hx).2 hIn

theorem Refit.refill (hRefit : Refit s s' c k k') :
    Refit s s' cur (left.append (.cons c lc k rest)) (left.append (.cons c lc' k' rest)) := by
  refine ⟨?_, ?_⟩
  · intro r hr
    simp only [Limb.refs_append, Limb.refs, List.mem_append, List.mem_cons] at hr ⊢
    rcases hr with hIn | rfl | hIn | hIn
    · exact Or.inl (Or.inl hIn)
    · exact Or.inl (Or.inr (Or.inl rfl))
    · rcases hRefit.old r hIn with hOld | hNone
      · exact Or.inl (Or.inr (Or.inr (Or.inl hOld)))
      · exact Or.inr hNone
    · exact Or.inl (Or.inr (Or.inr (Or.inr hIn)))
  · intro r hr hr'
    simp only [Limb.refs_append, Limb.refs, List.mem_append, List.mem_cons, not_or] at hr hr'
    refine hRefit.frame r ?_ hr'.2.2.1
    simp only [List.mem_cons, not_or]
    exact ⟨hr.2.2.1, hr.2.2.2.1⟩

/-- The label of the node itself changes. -/
theorem Sub.relabel (h : Sub s cur l next kids) (l' : Label) :
    Sub (Function.update s cur (some (l'.node (kids.head 0) next kids.width))) cur l' next kids ∧
      Refit s (Function.update s cur (some (l'.node (kids.head 0) next kids.width))) cur kids kids := by
  have hOut := (List.nodup_cons.mp h.nodup).1
  refine ⟨⟨h.ne, Function.update_self _ _ _, h.held.congr fun r hr => ?_, h.nodup⟩,
    fun r hr => Or.inl hr, fun r hr _ => ?_⟩
  · refine Function.update_of_ne ?_ _ _
    rintro rfl
    exact hOut hr
  · refine Function.update_of_ne ?_ _ _
    rintro rfl
    exact hr List.mem_cons_self

/-- A new node at the end of the chain, to which the chain links in `t` already. -/
theorem Sub.attach (h : Sub s cur l next kids) {t : Store} (hHeld : Limb.Held t kids c)
    (hc : t c = some (lc.node 0 0 0)) (hNe : c ≠ 0) (hOut : c ∉ cur :: kids.refs) :
    Sub (Function.update t cur (some (l.node (kids.head c) next (kids.width + 1)))) cur l next
      (kids.append (.cons c lc .nil .nil)) := by
  have hNodup := List.nodup_cons.mp h.nodup
  have hCur : c ≠ cur := fun hEq => hOut (hEq ▸ List.mem_cons_self)
  refine ⟨h.ne, ?_, Limb.held_append.mpr ⟨hHeld.congr fun r hr => ?_, hNe, ?_, trivial, trivial⟩, ?_⟩
  · rw [Function.update_self]
    simp only [Limb.head_append, Limb.width_append]
    rfl
  · refine Function.update_of_ne ?_ _ _
    rintro rfl
    exact hNodup.1 hr
  · rw [Function.update_of_ne hCur, hc]
    rfl
  · rw [Limb.refs_append]
    have hPerm : (cur :: (kids.refs ++ (Limb.cons c lc .nil .nil).refs)).Perm
        (c :: (cur :: kids.refs)) := by
      refine List.perm_iff_count.mpr fun a => ?_
      simp only [Limb.refs, List.append_nil, List.count_cons, List.count_append, List.count_nil]
      omega
    exact hPerm.nodup_iff.mpr (List.nodup_cons.mpr ⟨hOut, h.nodup⟩)

/-- A child is taken out of the chain, which goes past it in `t` already. -/
theorem Sub.detach (h : Sub s cur l next (left.append (.cons c lc k rest))) {t : Store}
    (hLeft : Limb.Held t left (rest.head 0)) (hRest : Limb.Held t rest 0) :
    Sub (Function.update t cur
        (some (l.node (left.head (rest.head 0)) next (left.width + rest.width)))) cur l next
      (left.append rest) := by
  have hOuter := h.outer.1
  have hCur : ∀ r ∈ left.refs ++ rest.refs, r ≠ cur := by
    rintro r hr rfl
    exact (List.nodup_cons.mp hOuter).1 hr
  refine ⟨h.ne, ?_, Limb.held_append.mpr ⟨hLeft.congr fun r hr => ?_, hRest.congr fun r hr => ?_⟩,
    ?_⟩
  · rw [Function.update_self]
    simp only [Limb.head_append, Limb.width_append]
  · exact Function.update_of_ne (hCur r (List.mem_append_left _ hr)) _ _
  · exact Function.update_of_ne (hCur r (List.mem_append_right _ hr)) _ _
  · rw [Limb.refs_append]
    exact hOuter

end Briefs.Trie
