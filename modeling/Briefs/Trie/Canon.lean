import Briefs.Trie.Entry

/-!
# BrieFS — the canonical shape of a directory trie

The canonical shape of a trie, said of the nodes and their links alone: the nodes below the
root are one for each beginning of a name, the children of a node are chained without
repetition and counted, and leaves store their names. A limb without bare nodes has that
shape, so every directory has it after a clean run. An insertion that fails leaves more: the
nodes it has linked stay.

## Results

* `Sub.hangs_iff` — the nodes that the links reach are those of the limb.
* `Planted.canonical` — the tree of a directory has the canonical shape.
* `directory_is_canonical` — so in every clean run; no insertion re-parents a leaf, and the
  removal of the last entry collects every node once.
* `failed_insert_leaves` — what a failed insertion leaves behind.
* `failed_insert_leaves_nodes` — 63 nodes for the first bytes of a name of 64.
-/

namespace Briefs.Trie

open TrieM

--
-- The shape
--

/-- The name begins with `p`, and there is an entry for it. -/
def Entries.Begins (m : Entries) (p : List UInt8) : Prop := ∃ q, m (p ++ q) ≠ none

/-- The siblings that hang from a link. -/
def Siblings (s : Store) : Nat → List Nat → Prop
  | r, [] => r = 0
  | r, x :: xs => r = x ∧ r ≠ 0 ∧ ∃ n, s r = some n ∧ Siblings s n.nextSibling xs

/-- The nodes below a node, by its links and theirs. -/
inductive Hangs (s : Store) (root : Nat) : Nat → Prop where
  | first {n : Node} : s root = some n → n.firstChild ≠ 0 → Hangs s root n.firstChild
  | child {r : Nat} {n : Node} : Hangs s root r → s r = some n → n.firstChild ≠ 0 →
      Hangs s root n.firstChild
  | sibling {r : Nat} {n : Node} : Hangs s root r → s r = some n → n.nextSibling ≠ 0 →
      Hangs s root n.nextSibling

/-- The children of the node for `p` are the nodes for the names one byte longer. -/
structure ChildrenOf (s : Store) (m : Entries) (place : List UInt8 → Nat) (p : List UInt8) (n : Node)
    (chain : List Nat) : Prop where
  linked   : Siblings s n.firstChild chain
  nodup    : chain.Nodup
  count    : n.childCount = chain.length
  members  : ∀ x, x ∈ chain ↔ ∃ b, m.Begins (p ++ [b]) ∧ place (p ++ [b]) = x
  distinct : ∀ x ∈ chain, ∀ y ∈ chain, ∀ nx ny, s x = some nx → s y = some ny →
    nx.byteVal = ny.byteVal → x = y

/-- The trie with the root has the canonical shape for the entries: `place` gives the node
of each beginning of a name. -/
structure Canonical (s : Store) (root : Nat) (m : Entries) (place : List UInt8 → Nat) : Prop where
  top      : place [] = root
  inj      : ∀ p q, m.Begins p → m.Begins q → place p = place q → p = q
  onto     : ∀ r, Hangs s root r ↔ ∃ p, p ≠ [] ∧ m.Begins p ∧ place p = r
  node     : ∀ p b, m.Begins (p ++ [b]) → ∃ n, s (place (p ++ [b])) = some n ∧ n.byteVal = b ∧
    (n.isLeaf = true ↔ m (p ++ [b]) ≠ none) ∧
    ∀ e, m (p ++ [b]) = some e → n.name = p ++ [b] ∧ (n.inode, n.ftype) = e
  children : ∀ p, p = [] ∨ m.Begins p → ∃ n chain, s (place p) = some n ∧
    ChildrenOf s m place p n chain

--
-- Seats
--

namespace Limb

/-- The node of a name with its label, its children and the siblings after it. -/
def seat : Limb → List UInt8 → Option (Nat × Label × Limb × Limb)
  | nil, _ => none
  | cons _ _ _ _, [] => none
  | cons r l kids rest, b :: bs =>
    if l.byteVal = b then if bs = [] then some (r, l, kids, rest) else kids.seat bs
    else rest.seat (b :: bs)

variable {s : Store} {t kids rest : Limb} {l : Label} {r stop : Nat} {b : UInt8}
  {pre p q : List UInt8}

@[simp] theorem seat_nil (t : Limb) : t.seat [] = none := by
  cases t with
  | nil => rfl
  | cons r l kids rest => rfl

/-- The node of a seat is in the store. -/
theorem Held.seat : ∀ {t : Limb} {stop : Nat} {p : List UInt8}, Held s t stop →
    t.seat p = some (r, l, kids, rest) →
    ∃ stop', s r = some (l.node (kids.head 0) (rest.head stop') kids.width) ∧ Held s kids 0
  | nil, _, _, _, h => by cases h
  | cons _ _ _ _, _, [], _, h => by cases h
  | cons r' l' kids' rest', stop, b :: bs, ⟨_, hNode, hKids, hRest⟩, h => by
    rw [Limb.seat] at h
    split at h
    · split at h
      · simp only [Option.some.injEq, Prod.mk.injEq] at h
        obtain ⟨rfl, rfl, rfl, rfl⟩ := h
        exact ⟨stop, hNode, hKids⟩
      · exact hKids.seat h
    · exact hRest.seat h

theorem Shaped.seat : ∀ {t : Limb} {pre p : List UInt8}, Shaped pre t →
    t.seat p = some (r, l, kids, rest) →
    (∃ p', p = p' ++ [l.byteVal]) ∧ (l.isLeaf = true → l.name = pre ++ p) ∧ Shaped (pre ++ p) kids
  | nil, _, _, _, h => by cases h
  | cons _ _ _ _, _, [], _, h => by cases h
  | cons r' l' kids' rest', pre, b :: bs, ⟨hName, _, _, hKids, hRest⟩, h => by
    rw [Limb.seat] at h
    split at h
    · rename_i hByte
      subst hByte
      split at h
      · rename_i hBs
        subst hBs
        simp only [Option.some.injEq, Prod.mk.injEq] at h
        obtain ⟨rfl, rfl, rfl, rfl⟩ := h
        exact ⟨⟨[], rfl⟩, hName, hKids⟩
      · obtain ⟨⟨p', hp'⟩, hName', hKids'⟩ := hKids.seat h
        refine ⟨⟨l'.byteVal :: p', by rw [hp']; rfl⟩, ?_, ?_⟩
        · intro hLeaf
          rw [hName' hLeaf, List.append_assoc]
          rfl
        · rw [List.append_assoc] at hKids'
          exact hKids'
    · exact hRest.seat h

/-- The names that begin with the name of a seat. -/
theorem find_of_seat : ∀ {t : Limb} {p : List UInt8}, t.seat p = some (r, l, kids, rest) →
    t.find p = l.entry ∧ ∀ q, q ≠ [] → t.find (p ++ q) = kids.find q ∧ t.seat (p ++ q) = kids.seat q
  | nil, _, h => by cases h
  | cons _ _ _ _, [], h => by cases h
  | cons r' l' kids' rest', b :: bs, h => by
    rw [Limb.seat] at h
    split at h
    · rename_i hByte
      split at h
      · rename_i hBs
        subst hBs
        simp only [Option.some.injEq, Prod.mk.injEq] at h
        obtain ⟨rfl, rfl, rfl, rfl⟩ := h
        refine ⟨?_, fun q hq => ⟨?_, ?_⟩⟩
        · rw [find, if_pos hByte, if_pos rfl]
        · show (cons r' l' kids' rest').find (b :: q) = _
          rw [find, if_pos hByte, if_neg hq]
        · show (cons r' l' kids' rest').seat (b :: q) = _
          rw [Limb.seat, if_pos hByte, if_neg hq]
      · rename_i hBs
        obtain ⟨hHere, hMore⟩ := find_of_seat h
        have hNe : ∀ q, bs ++ q ≠ [] := fun q hEq => hBs (List.append_eq_nil_iff.mp hEq).1
        refine ⟨?_, fun q hq => ⟨?_, ?_⟩⟩
        · rw [find, if_pos hByte, if_neg hBs]
          exact hHere
        · show (cons r' l' kids' rest').find (b :: (bs ++ q)) = _
          rw [find, if_pos hByte, if_neg (hNe q)]
          exact (hMore q hq).1
        · show (cons r' l' kids' rest').seat (b :: (bs ++ q)) = _
          rw [Limb.seat, if_pos hByte, if_neg (hNe q)]
          exact (hMore q hq).2
    · rename_i hByte
      obtain ⟨hHere, hMore⟩ := find_of_seat h
      refine ⟨?_, fun q hq => ⟨?_, ?_⟩⟩
      · rw [find, if_neg hByte]
        exact hHere
      · show (cons r' l' kids' rest').find (b :: (bs ++ q)) = _
        rw [find, if_neg hByte]
        exact (hMore q hq).1
      · show (cons r' l' kids' rest').seat (b :: (bs ++ q)) = _
        rw [Limb.seat, if_neg hByte]
        exact (hMore q hq).2

/-- Without a seat there are no such names. -/
theorem find_of_no_seat : ∀ {t : Limb} {p : List UInt8}, p ≠ [] → t.seat p = none →
    ∀ q, t.find (p ++ q) = none
  | nil, _, _, _, _ => rfl
  | cons _ _ _ _, [], hp, _, _ => absurd rfl hp
  | cons r' l' kids' rest', b :: bs, _, h, q => by
    rw [Limb.seat] at h
    show (cons r' l' kids' rest').find (b :: (bs ++ q)) = none
    rw [find]
    split at h
    · rename_i hByte
      split at h
      · cases h
      · rename_i hBs
        rw [if_pos hByte, if_neg fun hEq => hBs (List.append_eq_nil_iff.mp hEq).1]
        exact find_of_no_seat hBs h q
    · rename_i hByte
      rw [if_neg hByte]
      exact find_of_no_seat (List.cons_ne_nil b bs) h q

/-- A limb without bare nodes has a name. -/
theorem Full.exists_find : ∀ {t : Limb}, Full t → t ≠ nil → ∃ q, q ≠ [] ∧ t.find q ≠ none
  | nil, _, h => absurd rfl h
  | cons r l kids rest, ⟨hBare, hKids, _⟩, _ => by
    by_cases hNil : kids = nil
    · refine ⟨[l.byteVal], List.cons_ne_nil _ _, ?_⟩
      rw [find, if_pos rfl, if_pos rfl, Label.entry, if_pos (hBare hNil)]
      exact Option.some_ne_none _
    · obtain ⟨q, hq, hFind⟩ := hKids.exists_find hNil
      refine ⟨l.byteVal :: q, List.cons_ne_nil _ _, ?_⟩
      rw [find, if_pos rfl, if_neg hq]
      exact hFind

theorem Full.seat : ∀ {t : Limb} {p : List UInt8}, Full t → t.seat p = some (r, l, kids, rest) →
    (kids = nil → l.isLeaf = true) ∧ Full kids
  | nil, _, _, h => by cases h
  | cons _ _ _ _, [], _, h => by cases h
  | cons r' l' kids' rest', b :: bs, ⟨hBare, hKids, hRest⟩, h => by
    rw [Limb.seat] at h
    split at h
    · split at h
      · simp only [Option.some.injEq, Prod.mk.injEq] at h
        obtain ⟨rfl, rfl, rfl, rfl⟩ := h
        exact ⟨hBare, hKids⟩
      · exact hKids.seat h
    · exact hRest.seat h

/-- No seat has the byte of no sibling. -/
theorem seat_of_notMem {rest : Limb} {b : UInt8} (hOut : b ∉ rest.bytes) (bs : List UInt8) :
    rest.seat (b :: bs) = none := by
  induction rest with
  | nil => rfl
  | cons r l kids rest _ ih =>
    simp only [bytes, List.mem_cons, not_or] at hOut
    rw [Limb.seat, if_neg fun h => hOut.1 h.symm]
    exact ih hOut.2

/-- Every node has a seat. -/
theorem Shaped.exists_seat : ∀ {t : Limb} {pre : List UInt8}, Shaped pre t → ∀ {x : Nat},
    x ∈ t.refs → ∃ p l kids rest, t.seat p = some (x, l, kids, rest)
  | nil, _, _, _, hx => absurd hx List.not_mem_nil
  | cons r l kids rest, pre, ⟨_, _, hNot, hKids, hRest⟩, x, hx => by
    rcases List.mem_cons.mp hx with rfl | hIn
    · refine ⟨[l.byteVal], l, kids, rest, ?_⟩
      rw [Limb.seat, if_pos rfl, if_pos rfl]
    · rcases List.mem_append.mp hIn with hIn | hIn
      · obtain ⟨p, l', kids', rest', h⟩ := hKids.exists_seat hIn
        have hp : p ≠ [] := by
          rintro rfl
          rw [seat_nil] at h
          cases h
        refine ⟨l.byteVal :: p, l', kids', rest', ?_⟩
        rw [Limb.seat, if_pos rfl, if_neg hp]
        exact h
      · obtain ⟨p, l', kids', rest', h⟩ := hRest.exists_seat hIn
        cases p with
        | nil =>
          rw [seat_nil] at h
          cases h
        | cons b bs =>
          have hb : l.byteVal ≠ b := by
            rintro rfl
            have hMem : l.byteVal ∈ rest.bytes := by
              by_contra hOut
              have hNone := seat_of_notMem hOut bs
              rw [hNone] at h
              cases h
            exact hNot hMem
          refine ⟨b :: bs, l', kids', rest', ?_⟩
          rw [Limb.seat, if_neg hb]
          exact h

theorem kids_sublist : ∀ {t : Limb} {p : List UInt8}, t.seat p = some (r, l, kids, rest) →
    kids.refs.Sublist t.refs
  | nil, _, h => by cases h
  | cons _ _ _ _, [], h => by cases h
  | cons r' l' kids' rest', b :: bs, h => by
    rw [Limb.seat] at h
    have hKids := List.sublist_append_left kids'.refs rest'.refs
    have hRest := List.sublist_append_right kids'.refs rest'.refs
    split at h
    · split at h
      · simp only [Option.some.injEq, Prod.mk.injEq] at h
        obtain ⟨rfl, rfl, rfl, rfl⟩ := h
        exact hKids.cons r'
      · exact ((kids_sublist h).trans hKids).cons r'
    · exact ((kids_sublist h).trans hRest).cons r'

theorem mem_refs_of_seat : ∀ {t : Limb} {p : List UInt8}, t.seat p = some (r, l, kids, rest) →
    r ∈ t.refs
  | nil, _, h => by cases h
  | cons _ _ _ _, [], h => by cases h
  | cons r' l' kids' rest', b :: bs, h => by
    rw [seat] at h
    split at h
    · split at h
      · simp only [Option.some.injEq, Prod.mk.injEq] at h
        exact h.1 ▸ List.mem_cons_self
      · exact List.mem_cons_of_mem _ (List.mem_append_left _ (mem_refs_of_seat h))
    · exact List.mem_cons_of_mem _ (List.mem_append_right _ (mem_refs_of_seat h))

/-- A node has one seat. -/
theorem seat_inj : ∀ {t : Limb} {p q : List UInt8} {x y : Label × Limb × Limb}, t.refs.Nodup →
    t.seat p = some (r, x) → t.seat q = some (r, y) → p = q
  | nil, _, _, _, _, _, h, _ => by cases h
  | cons _ _ _ _, [], _, _, _, _, h, _ => by cases h
  | cons _ _ _ _, _ :: _, [], _, _, _, _, h => by cases h
  | cons r' l' kids' rest', b :: bs, b' :: bs', ⟨x₁, x₂, x₃⟩, ⟨y₁, y₂, y₃⟩, hNodup, hp, hq => by
    obtain ⟨hOut, hNodup'⟩ := List.nodup_cons.mp hNodup
    obtain ⟨hKidsNodup, hRestNodup, -⟩ := List.nodup_append.mp hNodup'
    have hApart := List.disjoint_of_nodup_append hNodup'
    rw [seat] at hp hq
    by_cases hb : l'.byteVal = b
    · rw [if_pos hb] at hp
      by_cases hb' : l'.byteVal = b'
      · rw [if_pos hb'] at hq
        rw [← hb, ← hb']
        by_cases hBs : bs = []
        · rw [if_pos hBs] at hp
          by_cases hBs' : bs' = []
          · rw [hBs, hBs']
          · rw [if_neg hBs'] at hq
            obtain rfl : r' = r := (Prod.mk.inj (Option.some.inj hp)).1
            exact absurd (List.mem_append_left _ (mem_refs_of_seat hq)) hOut
        · rw [if_neg hBs] at hp
          by_cases hBs' : bs' = []
          · rw [if_pos hBs'] at hq
            obtain rfl : r' = r := (Prod.mk.inj (Option.some.inj hq)).1
            exact absurd (List.mem_append_left _ (mem_refs_of_seat hp)) hOut
          · rw [if_neg hBs'] at hq
            rw [seat_inj hKidsNodup hp hq]
      · rw [if_neg hb'] at hq
        have hRest := mem_refs_of_seat hq
        by_cases hBs : bs = []
        · rw [if_pos hBs] at hp
          obtain rfl : r' = r := (Prod.mk.inj (Option.some.inj hp)).1
          exact absurd (List.mem_append_right _ hRest) hOut
        · rw [if_neg hBs] at hp
          exact absurd hRest fun hIn => hApart (mem_refs_of_seat hp) hIn
    · rw [if_neg hb] at hp
      have hRest := mem_refs_of_seat hp
      by_cases hb' : l'.byteVal = b'
      · rw [if_pos hb'] at hq
        by_cases hBs' : bs' = []
        · rw [if_pos hBs'] at hq
          obtain rfl : r' = r := (Prod.mk.inj (Option.some.inj hq)).1
          exact absurd (List.mem_append_right _ hRest) hOut
        · rw [if_neg hBs'] at hq
          exact absurd hRest fun hIn => hApart (mem_refs_of_seat hq) hIn
      · rw [if_neg hb'] at hq
        exact seat_inj hRestNodup hp hq

/-- The siblings of the chain. -/
def tops : Limb → List Nat
  | nil => []
  | cons r _ _ rest => r :: rest.tops

theorem length_tops : ∀ t : Limb, t.tops.length = t.width
  | nil => rfl
  | cons _ _ _ rest => congrArg (· + 1) (length_tops rest)

theorem tops_sublist : ∀ t : Limb, t.tops.Sublist t.refs
  | nil => List.Sublist.slnil
  | cons r _ kids rest =>
    ((tops_sublist rest).trans (List.sublist_append_right kids.refs rest.refs)).cons_cons r

theorem Held.siblings : ∀ {t : Limb}, Held s t 0 → Siblings s (t.head 0) t.tops
  | nil, _ => rfl
  | cons _ _ _ _, ⟨hNe, hNode, _, hRest⟩ => ⟨rfl, hNe, _, hNode, hRest.siblings⟩

/-- The siblings are the nodes of one byte. -/
theorem mem_tops : ∀ {t : Limb} {pre : List UInt8}, Shaped pre t → ∀ {x : Nat},
    x ∈ t.tops ↔ ∃ b y, t.seat [b] = some (x, y)
  | nil, _, _, x => by
    refine ⟨fun h => absurd h List.not_mem_nil, ?_⟩
    rintro ⟨b, y, h⟩
    cases h
  | cons r l kids rest, pre, ⟨_, _, hNot, _, hRest⟩, x => by
    constructor
    · intro h
      rcases List.mem_cons.mp h with rfl | hIn
      · refine ⟨l.byteVal, (l, kids, rest), ?_⟩
        rw [Limb.seat, if_pos rfl, if_pos rfl]
      · obtain ⟨b, y, hSeat⟩ := (mem_tops hRest).mp hIn
        refine ⟨b, y, ?_⟩
        rw [Limb.seat, if_neg]
        · exact hSeat
        · rintro rfl
          rw [seat_of_notMem hNot] at hSeat
          cases hSeat
    · rintro ⟨b, y, h⟩
      rw [Limb.seat] at h
      split at h
      · rw [if_pos rfl] at h
        exact (Prod.mk.inj (Option.some.inj h)).1 ▸ List.mem_cons_self
      · exact List.mem_cons_of_mem _ ((mem_tops hRest).mpr ⟨b, y, h⟩)

/-- The first node of a chain is one of its nodes. -/
theorem head_mem : ∀ {t : Limb}, t.head stop ≠ stop → t.head stop ∈ t.refs
  | nil, h => absurd rfl h
  | cons _ _ _ _, _ => List.mem_cons_self

/-- The links of a chain stay in it. -/
theorem Held.closed : ∀ {t : Limb} {stop : Nat}, Held s t stop → ∀ {x : Nat} {n : Node},
    x ∈ t.refs → s x = some n → (n.firstChild ≠ 0 → n.firstChild ∈ t.refs) ∧
      (n.nextSibling ≠ 0 → n.nextSibling = stop ∨ n.nextSibling ∈ t.refs)
  | nil, _, _, _, _, hx, _ => absurd hx List.not_mem_nil
  | cons r l kids rest, stop, ⟨_, hNode, hKids, hRest⟩, x, n, hx, hn => by
    have hOfKids : ∀ {y : Nat}, y ∈ kids.refs → y ∈ (cons r l kids rest).refs :=
      fun h => List.mem_cons_of_mem _ (List.mem_append_left _ h)
    have hOfRest : ∀ {y : Nat}, y ∈ rest.refs → y ∈ (cons r l kids rest).refs :=
      fun h => List.mem_cons_of_mem _ (List.mem_append_right _ h)
    rcases List.mem_cons.mp hx with rfl | hIn
    · obtain rfl : l.node (kids.head 0) (rest.head stop) kids.width = n :=
        Option.some.inj (hNode.symm.trans hn)
      refine ⟨fun hNe => hOfKids (head_mem hNe), fun _ => ?_⟩
      by_cases hStop : rest.head stop = stop
      · exact Or.inl hStop
      · exact Or.inr (hOfRest (head_mem hStop))
    · rcases List.mem_append.mp hIn with hIn | hIn
      · obtain ⟨hFirst, hNext⟩ := hKids.closed hIn hn
        refine ⟨fun hNe => hOfKids (hFirst hNe), fun hNe => Or.inr (hOfKids ?_)⟩
        exact (hNext hNe).resolve_left hNe
      · obtain ⟨hFirst, hNext⟩ := hRest.closed hIn hn
        exact ⟨fun hNe => hOfRest (hFirst hNe), fun hNe => (hNext hNe).imp id hOfRest⟩

theorem Held.head_ne_zero : ∀ {t : Limb}, Held s t 0 → t ≠ nil → t.head 0 ≠ 0
  | nil, _, h => absurd rfl h
  | cons _ _ _ _, ⟨hNe, _⟩, _ => hNe

/-- All nodes of a chain hang from the root if its first one does. -/
theorem Held.hangs {root : Nat} : ∀ {t : Limb}, Held s t 0 → (t ≠ nil → Hangs s root (t.head 0)) →
    ∀ {x : Nat}, x ∈ t.refs → Hangs s root x
  | nil, _, _, _, hx => absurd hx List.not_mem_nil
  | cons r l kids rest, ⟨_, hNode, hKids, hRest⟩, hHead, x, hx => by
    have hHere : Hangs s root r := hHead (cons_ne_nil _ _ _ _)
    rcases List.mem_cons.mp hx with rfl | hIn
    · exact hHere
    · rcases List.mem_append.mp hIn with hIn | hIn
      · exact hKids.hangs (fun hSome => hHere.child hNode (hKids.head_ne_zero hSome)) hIn
      · exact hRest.hangs (fun hSome => hHere.sibling hNode (hRest.head_ne_zero hSome)) hIn

end Limb

/-- The nodes that hang from the root are those of its limb. -/
theorem Sub.hangs_iff {s : Store} {cur next : Nat} {l : Label} {kids : Limb}
    (h : Sub s cur l next kids) (x : Nat) : Hangs s cur x ↔ x ∈ kids.refs := by
  constructor
  · intro hHangs
    induction hHangs with
    | @first n hn hNe =>
      obtain rfl := Option.some.inj (h.node.symm.trans hn)
      exact Limb.head_mem hNe
    | child _ hn hNe ih => exact (h.held.closed ih hn).1 hNe
    | sibling _ hn hNe ih => exact ((h.held.closed ih hn).2 hNe).resolve_left hNe
  · exact h.held.hangs fun hSome => Hangs.first h.node (h.held.head_ne_zero hSome)

namespace Limb

/-- The names of a limb without bare nodes begin as its seats do. -/
theorem Full.begins_iff {t : Limb} {p : List UInt8} (h : Full t) (hp : p ≠ []) :
    Entries.Begins t.find p ↔ ∃ y, t.seat p = some y := by
  constructor
  · rintro ⟨q, hq⟩
    refine Option.ne_none_iff_exists'.mp fun hNone => hq ?_
    exact find_of_no_seat hp hNone q
  · rintro ⟨⟨r, l, kids, rest⟩, hSeat⟩
    obtain ⟨hBare, hKids⟩ := h.seat hSeat
    obtain ⟨hHere, hMore⟩ := find_of_seat hSeat
    by_cases hNil : kids = nil
    · refine ⟨[], ?_⟩
      rw [List.append_nil, hHere, Label.entry, if_pos (hBare hNil)]
      exact Option.some_ne_none _
    · obtain ⟨q, hq, hFind⟩ := hKids.exists_find hNil
      refine ⟨q, ?_⟩
      rw [(hMore q hq).1]
      exact hFind

/-- The node of a beginning; the root for the empty one. -/
def nodeOf (t : Limb) (root : Nat) (p : List UInt8) : Nat := ((t.seat p).map Prod.fst).getD root

@[simp] theorem nodeOf_nil (t : Limb) (root : Nat) : t.nodeOf root [] = root := by
  rw [nodeOf, seat_nil]
  rfl

theorem nodeOf_seat {t : Limb} {root r : Nat} {p : List UInt8} {y : Label × Limb × Limb}
    (h : t.seat p = some (r, y)) : t.nodeOf root p = r := by
  rw [nodeOf, h]
  rfl

/-- The children of the node for `p`, from the limb of its children. -/
theorem childrenOf {s : Store} {t kids : Limb} {l : Label} {p : List UInt8} {root next : Nat}
    (hFull : t.Full) (hHeld : Held s kids 0) (hShaped : Shaped p kids) (hNodup : kids.refs.Nodup)
    (hSeats : ∀ b, t.seat (p ++ [b]) = kids.seat [b]) :
    ChildrenOf s t.find (t.nodeOf root) p (l.node (kids.head 0) next kids.width) kids.tops where
  linked := hHeld.siblings
  nodup := hNodup.sublist (tops_sublist kids)
  count := (length_tops kids).symm
  members x := by
    rw [mem_tops hShaped]
    constructor
    · rintro ⟨b, y, hSeat⟩
      rw [← hSeats] at hSeat
      exact ⟨b, (hFull.begins_iff (by simp)).mpr ⟨_, hSeat⟩, nodeOf_seat hSeat⟩
    · rintro ⟨b, hBegins, hx⟩
      obtain ⟨⟨r, y⟩, hSeat⟩ := (hFull.begins_iff (by simp)).mp hBegins
      rw [nodeOf_seat hSeat] at hx
      rw [hSeats, hx] at hSeat
      exact ⟨b, y, hSeat⟩
  distinct := by
    -- The byte of a sibling is the one of its seat, and a byte has one seat.
    have hByte : ∀ x ∈ kids.tops, ∀ n, s x = some n → ∃ y, kids.seat [n.byteVal] = some (x, y) := by
      intro x hx n hn
      obtain ⟨b, ⟨lx, kx, rx⟩, hSeat⟩ := (mem_tops hShaped).mp hx
      obtain ⟨stop, hNode, -⟩ := hHeld.seat hSeat
      obtain ⟨⟨p', hp'⟩, -, -⟩ := hShaped.seat hSeat
      obtain rfl := Option.some.inj (hNode.symm.trans hn)
      have hb : b = lx.byteVal := by
        cases p' with
        | nil => exact List.head_eq_of_cons_eq hp'
        | cons c cs => simp at hp'
      refine ⟨(lx, kx, rx), ?_⟩
      rw [hb] at hSeat
      exact hSeat
    intro x hx y hy nx ny hnx hny hEq
    obtain ⟨u, hu⟩ := hByte x hx nx hnx
    obtain ⟨v, hv⟩ := hByte y hy ny hny
    rw [hEq, hv] at hu
    exact (Prod.mk.inj (Option.some.inj hu)).1.symm

end Limb

/-- The tree of a directory has the canonical shape. -/
theorem Planted.canonical {base : Store} {w : World} {root : Nat} {kids : Limb}
    (h : Planted base w root kids) (hFull : kids.Full) :
    Canonical w.node root kids.find (kids.nodeOf root) := by
  obtain ⟨hOut, hNodup⟩ := List.nodup_cons.mp h.sub.nodup
  have hSeatOf : ∀ p, p ≠ [] → Entries.Begins kids.find p → ∃ y,
      kids.seat p = some (kids.nodeOf root p, y) := by
    intro p hp hBegins
    obtain ⟨⟨r, y⟩, hSeat⟩ := (hFull.begins_iff hp).mp hBegins
    rw [Limb.nodeOf_seat hSeat]
    exact ⟨y, hSeat⟩
  refine ⟨Limb.nodeOf_nil kids root, ?_, ?_, ?_, ?_⟩
  · intro p q hp hq hEq
    by_cases hpNil : p = []
    · by_cases hqNil : q = []
      · rw [hpNil, hqNil]
      · obtain ⟨y, hSeat⟩ := hSeatOf q hqNil hq
        rw [← hEq, hpNil, Limb.nodeOf_nil] at hSeat
        exact absurd (Limb.mem_refs_of_seat hSeat) hOut
    · obtain ⟨x, hSeatP⟩ := hSeatOf p hpNil hp
      by_cases hqNil : q = []
      · rw [hEq, hqNil, Limb.nodeOf_nil] at hSeatP
        exact absurd (Limb.mem_refs_of_seat hSeatP) hOut
      · obtain ⟨y, hSeatQ⟩ := hSeatOf q hqNil hq
        rw [hEq] at hSeatP
        exact Limb.seat_inj hNodup hSeatP hSeatQ
  · intro r
    rw [h.sub.hangs_iff]
    constructor
    · intro hr
      obtain ⟨p, l, kids', rest, hSeat⟩ := h.shaped.exists_seat hr
      have hp : p ≠ [] := by
        rintro rfl
        rw [Limb.seat_nil] at hSeat
        cases hSeat
      exact ⟨p, hp, (hFull.begins_iff hp).mpr ⟨_, hSeat⟩, Limb.nodeOf_seat hSeat⟩
    · rintro ⟨p, hp, hBegins, rfl⟩
      obtain ⟨y, hSeat⟩ := hSeatOf p hp hBegins
      exact Limb.mem_refs_of_seat hSeat
  · intro p b hBegins
    obtain ⟨⟨l, kids', rest⟩, hSeat⟩ := hSeatOf (p ++ [b]) (by simp) hBegins
    obtain ⟨stop, hNode, -⟩ := h.sub.held.seat hSeat
    obtain ⟨⟨p', hp'⟩, hName, -⟩ := h.shaped.seat hSeat
    obtain ⟨hHere, -⟩ := Limb.find_of_seat hSeat
    refine ⟨_, hNode, ?_, ?_, ?_⟩
    · exact (List.append_inj' hp' rfl).2 |> List.head_eq_of_cons_eq |>.symm
    · rw [hHere]
      show l.isLeaf = true ↔ _
      unfold Label.entry
      by_cases hLeaf : l.isLeaf = true
      · rw [if_pos hLeaf]
        exact ⟨fun _ => Option.some_ne_none _, fun _ => hLeaf⟩
      · rw [if_neg hLeaf]
        exact ⟨fun hTrue => absurd hTrue hLeaf, fun hNone => absurd rfl hNone⟩
    · intro e he
      rw [hHere, Label.entry] at he
      split at he
      · rename_i hLeaf
        exact ⟨hName hLeaf, Option.some.inj he⟩
      · cases he
  · intro p hp
    by_cases hNil : p = []
    · subst hNil
      rw [Limb.nodeOf_nil]
      exact ⟨_, _, h.sub.node, Limb.childrenOf hFull h.sub.held h.shaped hNodup fun _ => rfl⟩
    · obtain ⟨⟨l, kids', rest⟩, hSeat⟩ := hSeatOf p hNil (hp.resolve_left hNil)
      obtain ⟨stop, hNode, hHeld⟩ := h.sub.held.seat hSeat
      obtain ⟨-, -, hShaped⟩ := h.shaped.seat hSeat
      obtain ⟨-, hMore⟩ := Limb.find_of_seat hSeat
      refine ⟨_, _, hNode, Limb.childrenOf hFull hHeld hShaped ?_ fun b => (hMore [b] (by simp)).2⟩
      exact hNodup.sublist (Limb.kids_sublist hSeat)

--
-- Runs
--

/-- A directory has no trie and no entry, or a trie with the canonical shape. The nodes of
the other directories are untouched. -/
def DirState.Canonical (base : Store) (d : DirState) (m : Entries) : Prop :=
  (d.root = 0 ∧ d.world.node = base ∧ m = fun _ => none) ∨
    (d.root ≠ 0 ∧ (∃ place, Trie.Canonical d.world.node d.root m place) ∧
      ∀ r, r ≠ d.root → ¬Hangs d.world.node d.root r → d.world.node r = base r)

theorem DirState.Holds.canonical {base : Store} {d : DirState} {m : Entries} (h : d.Holds base m) :
    d.Canonical base m := by
  rcases h.tree with hNone | ⟨kids, hPlanted, hFull, rfl⟩
  · exact Or.inl hNone
  · refine Or.inr ⟨hPlanted.sub.ne, ⟨_, hPlanted.canonical hFull⟩, ?_⟩
    intro r hr hHangs
    rw [hPlanted.sub.hangs_iff] at hHangs
    refine hPlanted.others r ?_
    simp only [List.mem_cons, not_or]
    exact ⟨hr, hHangs⟩

/-- Whatever stands in place of the re-parenting of a leaf, the insertion is the same. -/
theorem DirState.Holds.insert_eq {base : Store} {d : DirState} {m : Entries} (h : d.Holds base m)
    (f : Reparent) (name : List UInt8) (ino type : Nat) :
    trieInsertWith f d.root name ino type d.world = trieInsert d.root name ino type d.world := by
  rw [trieInsert_eq]
  have hGo : ∀ (root : Nat) (w : World) (kids : Limb), Sound w → Planted base w root kids →
      kids.Full → trieInsertWith f root name ino type w =
        trieInsertWith reparentLeaf root name ino type w := by
    intro root w kids hw hPlanted hFull
    rcases call_insert_planted name ino type hw hPlanted hFull with
      ⟨w', kids', hRun, -⟩ | ⟨w', kids', hRun, -⟩
    · rw [hRun, hRun]
    · rw [hRun, hRun]
  rcases h.tree with ⟨hRoot, hNode, -⟩ | ⟨kids, hPlanted, hFull, -⟩
  · rw [hRoot]
    rcases trieInsert_zero name ino type h.sound with ⟨w', hRun, -⟩ | ⟨root, w₁, hw₁, hPlanted, hEq⟩
    · rw [hRun, hRun]
    · rw [hNode] at hPlanted
      rw [hEq, hEq]
      exact hGo root w₁ .nil hw₁ hPlanted trivial
  · exact hGo d.root d.world kids h.sound hPlanted hFull

/-- The removal of the last entry collects every node once. -/
theorem DirState.Holds.remove_last {base : Store} {d : DirState} {m : Entries} (h : d.Holds base m)
    {name : List UInt8} (hThere : m name ≠ none)
    (hLast : Function.update m name none = fun _ => none) :
    ∃ freed w', trieRemove d.root name d.world = (.ok (0, freed), w') ∧ freed.Nodup ∧
      (∀ r, r ∈ freed ↔ r = d.root ∨ Hangs d.world.node d.root r) ∧
      ∃ v, freeList freed w' = (.ok (), v) ∧ v.node = base := by
  rcases h.tree with ⟨-, -, hm⟩ | ⟨kids, hPlanted, hFull, hFind⟩
  · rw [hm] at hThere
    exact absurd rfl hThere
  · rw [← hFind] at hThere hLast
    obtain ⟨root', freed, w', kids', hRun, hw', hRemoved⟩ :=
      trieRemove_present h.sound hPlanted hFull hThere
    -- No name is left, so no limb is.
    have hNil : kids' = .nil := by
      by_contra hSome
      obtain ⟨q, -, hq⟩ := hRemoved.full.exists_find hSome
      rw [hRemoved.find, hLast] at hq
      exact hq rfl
    rcases hRemoved.rest with ⟨hSome, -⟩ | ⟨-, hRoot, hPerm⟩
    · exact absurd hNil hSome
    · have hNodup : freed.Nodup := hPerm.nodup_iff.mp hPlanted.sub.nodup
      obtain ⟨v, hFree, -, hNode⟩ := freeList_node freed hw' hNodup hRemoved.live
      refine ⟨freed, w', by rw [hRun, hRoot], hNodup, ?_, v, hFree, ?_⟩
      · intro r
        rw [← hPerm.mem_iff, List.mem_cons, hPlanted.sub.hangs_iff]
      · rcases hRemoved.planted hPlanted hNode with ⟨hSome, -⟩ | ⟨-, -, hBase⟩
        · exact absurd hNil hSome
        · exact hBase

/-- In every run in which no call fails for want of space or for an unreadable page, the
trie has the canonical shape for the entries after every call; no insertion re-parents a
leaf; and the removal that leaves no entry leaves no root and collects every node once. -/
theorem directory_is_canonical {w : World} (hw : Sound w) {ops : List Op}
    (hClean : (DirState.mk 0 w).Clean ops) {pre post : List Op} (hSplit : ops = pre ++ post)
    {d : DirState} (hd : (DirState.mk 0 w).run pre = d) {m : Entries}
    (hm : Entries.run (fun _ => none) pre = m) :
    d.Canonical w.node m ∧
    (∀ f name ino type, trieInsertWith f d.root name ino type d.world =
      trieInsert d.root name ino type d.world) ∧
    ∀ name, m name ≠ none → (Function.update m name none = fun _ => none) →
      ∃ freed w', trieRemove d.root name d.world = (.ok (0, freed), w') ∧ freed.Nodup ∧
        (∀ r, r ∈ freed ↔ r = d.root ∨ Hangs d.world.node d.root r) ∧
        ∃ v, freeList freed w' = (.ok (), v) ∧ v.node = w.node := by
  have hHolds := (holds_empty hw).run hClean pre post hSplit
  rw [hd, hm] at hHolds
  exact ⟨hHolds.canonical, hHolds.insert_eq, fun _ hThere hLast => hHolds.remove_last hThere hLast⟩

theorem update_none_twice (name : List UInt8) (e : Nat × Nat) :
    Function.update (Function.update (fun _ : List UInt8 => (none : Option (Nat × Nat))) name (some e))
      name none = fun _ => none := by
  rw [Function.update_idem]
  exact Function.update_eq_self name _

/-- The only entry is "ab"; its removal frees the root and the two nodes. -/
theorem directory_is_canonical_prefixOps : Sound bareWorld ∧
    (DirState.mk 0 bareWorld).Clean prefixOps ∧
    ((DirState.mk 0 bareWorld).run [.insert [97, 98] 5 1]).Canonical bareWorld.node
      (Entries.run (fun _ => none) [.insert [97, 98] 5 1]) ∧
    ∃ freed w', trieRemove ((DirState.mk 0 bareWorld).run [.insert [97, 98] 5 1]).root [97, 98]
        ((DirState.mk 0 bareWorld).run [.insert [97, 98] 5 1]).world = (.ok (0, freed), w') ∧
      freed.Nodup ∧ ∃ v, freeList freed w' = (.ok (), v) ∧ v.node = bareWorld.node := by
  have hSplit : prefixOps = [.insert [97, 98] 5 1] ++ prefixOps.tail := rfl
  obtain ⟨hShape, -, hRemove⟩ :=
    directory_is_canonical sound_bareWorld clean_prefixOps hSplit rfl rfl
  obtain ⟨freed, w', hRun, hNodup, -, hFree⟩ :=
    hRemove [97, 98] (Option.some_ne_none _) (update_none_twice [97, 98] (5, 1))
  exact ⟨sound_bareWorld, clean_prefixOps, hShape, freed, w', hRun, hNodup, hFree⟩

--
-- Insertions that fail
--

/-- The bytes lead from one node to another. -/
inductive Spells (s : Store) : Nat → List UInt8 → Nat → Prop where
  | here {x : Nat} : Spells s x [] x
  | child {x c y : Nat} {n nc : Node} {chain : List Nat} {bs : List UInt8} : s x = some n →
      Siblings s n.firstChild chain → c ∈ chain → s c = some nc → Spells s c bs y →
      Spells s x (nc.byteVal :: bs) y

/-- The place of a name among some siblings and below them. -/
theorem Limb.Held.spells {s : Store} {chain : List Nat} : ∀ {t : Limb} {b : UInt8} {bs : List UInt8}
    {y : Nat}, Limb.Held s t 0 → (∀ x ∈ t.tops, x ∈ chain) → t.place (b :: bs) = some y →
    ∃ c nc, c ∈ chain ∧ s c = some nc ∧ nc.byteVal = b ∧ Spells s c bs y
  | nil, _, _, _, _, _, h => by cases h
  | cons r l kids rest, b, bs, y, ⟨_, hNode, hKids, hRest⟩, hTops, h => by
    rw [Limb.place] at h
    split at h
    · rename_i hByte
      refine ⟨r, _, hTops r List.mem_cons_self, hNode, hByte, ?_⟩
      cases bs with
      | nil =>
        obtain rfl : r = y := Option.some.inj h
        exact Spells.here
      | cons b' bs' =>
        rw [if_neg (List.cons_ne_nil b' bs')] at h
        obtain ⟨c, nc, hIn, hc, rfl, hSpells⟩ := hKids.spells (fun _ hx => hx) h
        exact Spells.child hNode hKids.siblings hIn hc hSpells
    · exact hRest.spells (fun x hx => hTops x (List.mem_cons_of_mem _ hx)) h

theorem Sub.spells {s : Store} {cur next : Nat} {l : Label} {kids : Limb} {p : List UInt8} {y : Nat}
    (h : Sub s cur l next kids) (hp : p ≠ []) (hPlace : kids.place p = some y) :
    Spells s cur p y := by
  cases p with
  | nil => exact absurd rfl hp
  | cons b bs =>
    obtain ⟨c, nc, hIn, hc, rfl, hSpells⟩ := h.held.spells (fun _ hx => hx) hPlace
    exact Spells.child h.node h.held.siblings hIn hc hSpells

theorem Limb.place_eq_seat : ∀ (t : Limb) (p : List UInt8), t.place p = (t.seat p).map Prod.fst
  | nil, _ => rfl
  | cons _ _ _ _, [] => rfl
  | cons r l kids rest, b :: bs => by
    rw [Limb.place, Limb.seat]
    split
    · split
      · rfl
      · exact Limb.place_eq_seat kids bs
    · exact Limb.place_eq_seat rest (b :: bs)

/-- A failed insertion of the name left the entries `m` and every node. What is new is an
empty root, or intermediate nodes without an entry, for beginnings of the name with which no
entry begins. -/
structure Leftover (d d' : DirState) (m : Entries) (name : List UInt8) : Prop where
  entries : ∀ key, trieLookup d'.root key d'.world = (answer (m key), d'.world)
  kept    : ∀ r, d.world.node r ≠ none → d'.world.node r ≠ none
  created : ∀ r, d.world.node r = none → d'.world.node r ≠ none → (d.root = 0 ∧ r = d'.root) ∨
    ∃ n p q, d'.world.node r = some n ∧ n.interm = true ∧ n.statusLeaf = false ∧ name = p ++ q ∧
      p ≠ [] ∧ q ≠ [] ∧ ¬m.Begins p ∧ Spells d'.world.node d'.root p r

/-- An insertion that fails, into a directory with a root. -/
theorem Planted.leftover {base : Store} {w w' : World} {root ino type : Nat} {kids : Limb}
    {name : List UInt8} {e : Errno} (hw : Sound w) (h : Planted base w root kids) (hFull : kids.Full)
    (hNew : kids.find name = none)
    (hRun : trieInsert root name ino type w = (.ok (root, .error e), w')) :
    Leftover ⟨root, w⟩ ⟨root, w'⟩ kids.find name := by
  have hLookup : ∀ {v : World} {kids' : Limb}, Planted base v root kids' → kids'.find = kids.find →
      ∀ key, trieLookup root key v = (answer (kids.find key), v) := by
    intro v kids' hPlanted hFind key
    unfold trieLookup
    rw [if_neg hPlanted.sub.ne, ← hFind]
    exact lookupLoop_find key hPlanted.sub hPlanted.shaped rfl
  by_cases hBad : name = [] ∨ nameLen < name.length
  · rw [trieInsert_eq, trieInsert_refused ino type h hBad] at hRun
    obtain rfl : w = w' := (Prod.mk.inj hRun).2
    exact ⟨hLookup h rfl, fun _ hr => hr, fun r hNone hSome => absurd hNone hSome⟩
  · simp only [not_or, Nat.not_lt] at hBad
    obtain ⟨r, v, kids', hRun', -, hPlanted, hGrafted⟩ :=
      trieInsert_planted ino type hw h hBad.1 hBad.2
    rw [trieInsert_eq, hRun'] at hRun
    obtain ⟨hRes, rfl⟩ := Prod.mk.inj hRun
    obtain rfl : r = .error e := (Prod.mk.inj (Except.ok.inj hRes)).2
    cases hGrafted.outcome with
    | present hSome => exact absurd hNew hSome
    | noSpace _ hFind hResidue =>
      have hOwn : ∀ x ∈ root :: kids.refs, x ∈ root :: kids'.refs := by
        intro x hx
        rcases List.mem_cons.mp hx with rfl | hIn
        · exact List.mem_cons_self
        · exact List.mem_cons_of_mem _ (hGrafted.kept x hIn)
      have hOther : ∀ x, x ∉ root :: kids'.refs → v.node x = w.node x := by
        intro x hx
        rw [hPlanted.others x hx, h.others x fun hIn => hx (hOwn x hIn)]
      refine ⟨hLookup hPlanted hFind, ?_, ?_⟩
      · intro x hx
        by_cases hIn : x ∈ root :: kids'.refs
        · exact hPlanted.sub.live x hIn
        · rw [hOther x hIn]
          exact hx
      · intro x hNone hSome
        have hOut : x ∉ root :: kids.refs := by
          exact fun hIn => h.sub.live x hIn hNone
        have hIn : x ∈ root :: kids'.refs := by
          by_contra hNot
          rw [hOther x hNot] at hSome
          exact hSome hNone
        simp only [List.mem_cons, not_or] at hOut hIn
        have hIn' := hIn.resolve_left hOut.1
        obtain ⟨n, hn, hInterm, hStatus⟩ := hResidue.bare x hIn' hOut.2
        obtain ⟨p, q, hName, hp, hq, hFresh, hPlace⟩ := hResidue.path x hIn' hOut.2
        refine Or.inr ⟨n, p, q, hn, hInterm, hStatus, hName, hp, hq, ?_,
          hPlanted.sub.spells hp hPlace⟩
        intro hBegins
        obtain ⟨y, hSeat⟩ := (hFull.begins_iff hp).mp hBegins
        rw [Limb.place_eq_seat, hSeat] at hFresh
        cases hFresh

/-- An insertion does not replace the root. -/
theorem Planted.insert_returns {base : Store} {w : World} {root : Nat} {kids : Limb}
    (h : Planted base w root kids) (name : List UInt8) (ino type : Nat) (hw : Sound w)
    (hFull : kids.Full) : ∃ r w', trieInsert root name ino type w = (.ok (root, r), w') := by
  rcases call_insert_planted name ino type hw h hFull with ⟨w', kids', hRun, -⟩ | ⟨w', kids', hRun, -⟩
  · exact ⟨_, w', by rw [trieInsert_eq, hRun]⟩
  · exact ⟨_, w', by rw [trieInsert_eq, hRun]⟩

/-- The insertion of a new name that fails, for whichever allocation, changes no entry and
loses no node; it leaves an empty root or intermediate nodes without an entry. -/
theorem failed_insert_leaves {base : Store} {d d' : DirState} {m : Entries} (h : d.Holds base m)
    {name : List UInt8} {ino type : Nat} {e : Errno} (hNew : m name = none)
    (hCall : d.call (.insert name ino type) = (.error e, d')) : Leftover d d' m name := by
  rcases h.tree with ⟨hRoot, hNode, hm⟩ | ⟨kids, hPlanted, hFull, rfl⟩
  · rcases trieInsert_zero name ino type h.sound with
      ⟨w', hRun, -, hSame⟩ | ⟨root, w₁, hw₁, hPlanted, hEq⟩
    · -- No block for a root.
      rw [call_insert (by rw [trieInsert_eq, hRoot, hRun])] at hCall
      obtain rfl := (Prod.mk.inj hCall).2
      refine ⟨fun key => ?_, fun r hr => ?_, fun r hNone hSome => ?_⟩
      · rw [hm]
        rfl
      · show w'.node r ≠ none
        rw [hSame]
        exact hr
      · change w'.node r ≠ none at hSome
        rw [hSame] at hSome
        exact absurd hNone hSome
    · -- The root is there, and has no child.
      have hOther : ∀ r, r ≠ root → w₁.node r = d.world.node r := by
        intro r hr
        refine hPlanted.others r ?_
        simpa [Limb.refs] using hr
      obtain ⟨res, w', hRun⟩ := hPlanted.insert_returns name ino type hw₁ trivial
      have hStart : trieInsert d.root name ino type d.world = (.ok (root, res), w') := by
        rw [trieInsert_eq, hRoot, hEq, ← trieInsert_eq, hRun]
      rw [call_insert hStart] at hCall
      obtain ⟨rfl, rfl⟩ := Prod.mk.inj hCall
      have hFind : Limb.nil.find = m := hm.symm
      have hLeft : Leftover ⟨root, w₁⟩ ⟨root, w'⟩ Limb.nil.find name :=
        hPlanted.leftover hw₁ trivial rfl hRun
      rw [hFind] at hLeft
      have hOwn : d.world.node root = none := hPlanted.own root List.mem_cons_self
      refine ⟨hLeft.entries, fun r hr => hLeft.kept r ?_, fun r hNone hSome => ?_⟩
      · show w₁.node r ≠ none
        rw [hOther r fun hEq => hr (hEq ▸ hOwn)]
        exact hr
      · by_cases hIs : r = root
        · exact Or.inl ⟨hRoot, hIs⟩
        · rcases hLeft.created r ((hOther r hIs).trans hNone) hSome with ⟨-, hIs'⟩ | hNew'
          · exact Or.inl ⟨hRoot, hIs'⟩
          · exact Or.inr hNew'
  · obtain ⟨res, w', hRun⟩ := hPlanted.insert_returns name ino type h.sound hFull
    rw [call_insert hRun] at hCall
    obtain ⟨rfl, rfl⟩ := Prod.mk.inj hCall
    exact hPlanted.leftover h.sound hFull hNew hRun

/-- A device of 64 blocks, of which block 1 is free. -/
def oneFree : Alloc := { Alloc.threeFree with l2 := fun _ => 2#64, freeCount := 1#64 }

def oneWorld : World := { bareWorld with alloc := oneFree }

theorem sound_oneWorld : Sound oneWorld where
  pages := fun _ _ h => nomatch h
  taken := fun _ _ h => nomatch h
  pool := fun _ h => nomatch h
  hot := fun h => absurd rfl h

theorem call_of_fst {d : DirState} {op : Op} {e : Errno} (h : (d.call op).1 = .error e) :
    d.call op = (.error e, (d.call op).2) := by
  rw [← h]

/-- 64 bytes: one more than the page of the root has nodes for. -/
def longName : List UInt8 := List.replicate 64 97

set_option maxRecDepth 20000 in
theorem call_longName :
    ((DirState.mk 0 oneWorld).call (.insert longName 5 1)).1 = .error .enospc := by
  decide +kernel

/-- The page has room for the root and 63 nodes. The 64th cannot be had, and the 63 stay:
slot 1 of block 11 is the node for the first byte. -/
theorem failed_insert_leaves_nodes :
    (DirState.mk 0 oneWorld).Holds oneWorld.node (fun _ => none) ∧
    ((DirState.mk 0 oneWorld).call (.insert longName 5 1)).1 = .error .enospc ∧
    ((DirState.mk 0 oneWorld).call (.insert longName 5 1)).2.root = 704 ∧
    oneWorld.node 705 = none ∧
    ((DirState.mk 0 oneWorld).call (.insert longName 5 1)).2.world.node 705 ≠ none := by
  refine ⟨holds_empty sound_oneWorld, call_longName, ?_, rfl, ?_⟩
  · decide +kernel
  · decide +kernel

theorem failed_insert_leaves_longName :
    (DirState.mk 0 oneWorld).Holds oneWorld.node (fun _ => none) ∧
    Leftover (DirState.mk 0 oneWorld) ((DirState.mk 0 oneWorld).call (.insert longName 5 1)).2
      (fun _ => none) longName :=
  ⟨holds_empty sound_oneWorld,
    failed_insert_leaves (holds_empty sound_oneWorld) rfl (call_of_fst call_longName)⟩

end Briefs.Trie
