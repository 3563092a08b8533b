import Briefs.Btree.Leaf
import Mathlib.Data.List.Nodup
import Mathlib.Data.List.Perm.Basic

/-!
# BrieFS — the shape of an extent tree

`Sub nodes d block lo hi c` says that `block` roots a subtree of depth `d` that
is responsible for the file blocks `[lo, hi)` and holds the content `c`: its
extents from left to right, the blocks of its nodes and its separator keys. An
extent belongs to the leaf that its *offset* routes to; where it ends is not
part of the shape, since `btree_leaf_insert` does not look at the separators.

The ranges carry a width. A split leaves at least 63 extents or 127 children on
either side, and dropping an empty child only widens its neighbours, so a
subtree of depth `d` is responsible for at least `63 * 127 ^ d` blocks. That
bounds the depth of every tree over 64-bit offsets.

## Results

* `Kids.focus` — the child that a key routes to, with the rest as a context that
  it can be put back into, also as two halves.
* `Sub.split` — the two halves of a full node.
* `Sub.offsets`, `Sub.separated` — extents from left to right.
* `Sub.depth_le` — no tree is deeper than the walk guard allows.
-/

namespace Briefs.Btree

--
-- Contents
--

/-- What a subtree holds: extents, node blocks and separators, left to right. -/
structure Content where
  exts   : List Extent
  blocks : List Nat
  seps   : List Nat

namespace Content

instance : Append Content where
  append a b := ⟨a.exts ++ b.exts, a.blocks ++ b.blocks, a.seps ++ b.seps⟩

@[simp]
theorem exts_append (a b : Content) : (a ++ b).exts = a.exts ++ b.exts := rfl

@[simp]
theorem blocks_append (a b : Content) : (a ++ b).blocks = a.blocks ++ b.blocks := rfl

@[simp]
theorem seps_append (a b : Content) : (a ++ b).seps = a.seps ++ b.seps := rfl

/-- Nothing at all. -/
def none : Content := ⟨[], [], []⟩

/-- A separator between two neighbours. -/
def sep (k : Nat) : Content := ⟨[], [], [k]⟩

@[simp]
theorem exts_sep (k : Nat) : (sep k).exts = [] := rfl

@[simp]
theorem blocks_sep (k : Nat) : (sep k).blocks = [] := rfl

@[simp]
theorem seps_sep (k : Nat) : (sep k).seps = [k] := rfl

theorem append_assoc (a b c : Content) : a ++ b ++ c = a ++ (b ++ c) := by
  show Content.mk _ _ _ = Content.mk _ _ _
  simp only [exts_append, blocks_append, seps_append, List.append_assoc]

@[simp]
theorem none_append (a : Content) : none ++ a = a := rfl

@[simp]
theorem append_none (a : Content) : a ++ none = a := by
  show Content.mk _ _ _ = a
  simp only [none, List.append_nil]

end Content

--
-- Children
--

/-- The children of an internal node, from left to right: each satisfies `P` over
the range that the keys around it give. -/
def Kids (P : Nat → Nat → Nat → Content → Prop) (tr : Nat) :
    List IdxEntry → Nat → Nat → Content → Prop
  | [], lo, hi, c => P tr lo hi c
  | e :: idx, lo, hi, c =>
    ∃ c₁ c₂, c = c₁ ++ (Content.sep e.highKey ++ c₂) ∧ P e.child lo e.highKey c₁ ∧
      Kids P tr idx e.highKey hi c₂

/-- The range of a subtree of depth `d` is wide enough. -/
def Wide (d lo hi : Nat) : Prop := lo + 63 * 127 ^ d ≤ hi

/-- The extents of a leaf that is responsible for `[lo, hi)`. -/
structure LeafOk (lo hi : Nat) (extents : List Extent) : Prop where
  ordered : Ordered extents
  pos     : ∀ e ∈ extents, 0 < e.len
  range   : ∀ e ∈ extents, lo ≤ e.offset ∧ e.offset < hi
  fanout  : extents.length ≤ leafFanout

/-- `block` roots a subtree of depth `d` over `[lo, hi)` with content `c`. -/
def Sub (nodes : Nodes) : Nat → Nat → Nat → Nat → Content → Prop
  | 0, block, lo, hi, c =>
    0 < block ∧ nodes block = some (.leaf c.exts) ∧ c.blocks = [block] ∧ c.seps = [] ∧
      LeafOk lo hi c.exts
  | d + 1, block, lo, hi, c =>
    0 < block ∧ ∃ idx tr kids, nodes block = some (.internal idx tr) ∧ idx.length ≤ idxKeys ∧
      c = ⟨kids.exts, block :: kids.blocks, kids.seps⟩ ∧
      Kids (fun b lo hi c => Wide d lo hi ∧ Sub nodes d b lo hi c) tr idx lo hi kids

/-- A child: a subtree with a wide enough range. -/
def Child (nodes : Nodes) (d block lo hi : Nat) (c : Content) : Prop :=
  Wide d lo hi ∧ Sub nodes d block lo hi c

theorem Wide.lt {d lo hi : Nat} (h : Wide d lo hi) : lo < hi := by
  unfold Wide at h
  have hPos : 0 < 127 ^ d := Nat.pow_pos (by decide)
  omega

theorem Wide.mono {d lo hi lo' hi' : Nat} (h : Wide d lo hi) (hLo : lo' ≤ lo) (hHi : hi ≤ hi') :
    Wide d lo' hi' := by
  unfold Wide at *
  omega

theorem Child.lt {nodes : Nodes} {d b lo hi : Nat} {c : Content} (h : Child nodes d b lo hi c) :
    lo < hi := h.1.lt

section Kids

variable {P Q : Nat → Nat → Nat → Content → Prop} {tr lo hi : Nat} {c : Content}

theorem Kids.mono : ∀ {idx : List IdxEntry} {lo : Nat} {c : Content}, Kids P tr idx lo hi c →
    (∀ b lo hi x, x.blocks ⊆ c.blocks → P b lo hi x → Q b lo hi x) → Kids Q tr idx lo hi c
  | [], _, _, h, hPQ => hPQ _ _ _ _ (List.Subset.refl _) h
  | _ :: _, _, _, h, hPQ => by
    obtain ⟨c₁, c₂, rfl, hFirst, hRest⟩ := h
    refine ⟨c₁, c₂, rfl, hPQ _ _ _ _ ?_ hFirst, hRest.mono fun b lo hi x hx => hPQ b lo hi x ?_⟩
    · intro b hb
      simp [hb]
    · intro b hb
      have hIn := hx hb
      simp [hIn]

theorem Kids.lt (hP : ∀ b lo hi c, P b lo hi c → lo < hi) : ∀ {idx : List IdxEntry} {lo : Nat}
    {c : Content}, Kids P tr idx lo hi c → lo < hi
  | [], _, _, h => hP _ _ _ _ h
  | e :: _, lo, _, h => by
    obtain ⟨c₁, c₂, -, hFirst, hRest⟩ := h
    have hHead := hP _ _ _ _ hFirst
    have hTail := Kids.lt hP hRest
    omega

/-- A node that splits at one of its keys. -/
theorem kids_append : ∀ {l r : List IdxEntry} {e : IdxEntry} {lo : Nat} {c : Content},
    Kids P tr (l ++ e :: r) lo hi c ↔
      ∃ c₁ c₂, c = c₁ ++ (Content.sep e.highKey ++ c₂) ∧ Kids P e.child l lo e.highKey c₁ ∧
        Kids P tr r e.highKey hi c₂
  | [], r, e, lo, c => Iff.rfl
  | x :: l, r, e, lo, c => by
    constructor
    · rintro ⟨a, b, rfl, hFirst, hRest⟩
      obtain ⟨c₁, c₂, rfl, hLeft, hRight⟩ := kids_append.mp hRest
      refine ⟨a ++ (Content.sep x.highKey ++ c₁), c₂, ?_, ⟨a, c₁, rfl, hFirst, hLeft⟩, hRight⟩
      simp only [Content.append_assoc]
    · rintro ⟨c₁, c₂, rfl, ⟨a, b, rfl, hFirst, hLeft⟩, hRight⟩
      refine ⟨a, b ++ (Content.sep e.highKey ++ c₂), ?_, hFirst,
        kids_append.mpr ⟨b, c₂, rfl, hLeft, hRight⟩⟩
      simp only [Content.append_assoc]

/-- Children that are wide make their node wide. -/
theorem Kids.wide {w : Nat} (hP : ∀ b lo hi c, P b lo hi c → lo + w ≤ hi) :
    ∀ {idx : List IdxEntry} {lo : Nat} {c : Content}, Kids P tr idx lo hi c →
      lo + (idx.length + 1) * w ≤ hi
  | [], _, _, h => by
    have hOne := hP _ _ _ _ h
    simpa using hOne
  | e :: idx, lo, _, h => by
    obtain ⟨c₁, c₂, -, hFirst, hRest⟩ := h
    have hHead := hP _ _ _ _ hFirst
    have hTail := Kids.wide hP hRest
    rw [List.length_cons, Nat.add_mul, Nat.one_mul]
    omega

/-- Separators lie strictly inside the range. -/
theorem Kids.seps (hLt : ∀ b lo hi c, P b lo hi c → lo < hi)
    (hP : ∀ b lo hi c, P b lo hi c → ∀ k ∈ c.seps, lo < k ∧ k < hi) :
    ∀ {idx : List IdxEntry} {lo : Nat} {c : Content}, Kids P tr idx lo hi c →
      ∀ k ∈ c.seps, lo < k ∧ k < hi
  | [], _, _, h, k, hk => hP _ _ _ _ h k hk
  | e :: idx, lo, _, h, k, hk => by
    obtain ⟨c₁, c₂, rfl, hFirst, hRest⟩ := h
    have hHead := hLt _ _ _ _ hFirst
    have hTail := Kids.lt hLt hRest
    simp only [Content.seps_append, Content.seps_sep, List.mem_append, List.mem_singleton] at hk
    rcases hk with hk | rfl | hk
    · have hIn := hP _ _ _ _ hFirst k hk
      omega
    · exact ⟨hHead, hTail⟩
    · have hIn := Kids.seps hLt hP hRest k hk
      omega

/-- The extents of the children start in their ranges. -/
theorem Kids.exts (hLt : ∀ b lo hi c, P b lo hi c → lo < hi)
    (hP : ∀ b lo hi c, P b lo hi c → ∀ e ∈ c.exts, lo ≤ e.offset ∧ e.offset < hi ∧ 0 < e.len) :
    ∀ {idx : List IdxEntry} {lo : Nat} {c : Content}, Kids P tr idx lo hi c →
      ∀ e ∈ c.exts, lo ≤ e.offset ∧ e.offset < hi ∧ 0 < e.len
  | [], _, _, h, e, he => hP _ _ _ _ h e he
  | x :: idx, lo, _, h, e, he => by
    obtain ⟨c₁, c₂, rfl, hFirst, hRest⟩ := h
    have hHead := hLt _ _ _ _ hFirst
    have hTail := Kids.lt hLt hRest
    simp only [Content.exts_append, Content.exts_sep, List.nil_append, List.mem_append] at he
    rcases he with he | he
    · have hIn := hP _ _ _ _ hFirst e he
      omega
    · have hIn := Kids.exts hLt hP hRest e he
      omega

/-- The range of the outer children may grow. -/
theorem Kids.widen (hP : ∀ b lo hi lo' hi' c, lo' ≤ lo → hi ≤ hi' → P b lo hi c → P b lo' hi' c) :
    ∀ {idx : List IdxEntry} {lo lo' hi' : Nat} {c : Content}, Kids P tr idx lo hi c → lo' ≤ lo →
      hi ≤ hi' → Kids P tr idx lo' hi' c
  | [], _, _, _, _, h, hLo, hHi => hP _ _ _ _ _ _ hLo hHi h
  | e :: idx, _, _, _, _, h, hLo, hHi => by
    obtain ⟨c₁, c₂, hEq, hFirst, hRest⟩ := h
    exact ⟨c₁, c₂, hEq, hP _ _ _ _ _ _ hLo (Nat.le_refl _) hFirst,
      Kids.widen hP hRest (Nat.le_refl _) hHi⟩

--
-- The child that a key routes to
--

theorem findChild_cons (e : IdxEntry) (idx : List IdxEntry) (key : Nat) :
    findChild (e :: idx) key = if key < e.highKey then 0 else findChild idx key + 1 := by
  unfold findChild
  rw [List.findIdx_cons]
  by_cases hKey : key < e.highKey
  · simp [hKey]
  · simp [hKey]

theorem childAt_cons_succ (e : IdxEntry) (idx : List IdxEntry) (tr p : Nat) :
    childAt (e :: idx) tr (p + 1) = childAt idx tr p := rfl

theorem absorbSplit_cons_succ {e : IdxEntry} {idx idx' : List IdxEntry} {tr tr' p sib s : Nat}
    (h : absorbSplit idx tr p sib s = .internal idx' tr') :
    absorbSplit (e :: idx) tr (p + 1) sib s = .internal (e :: idx') tr' := by
  unfold absorbSplit at h ⊢
  rw [List.getElem?_cons_succ]
  cases hAt : idx[p]? with
  | none =>
    rw [hAt] at h
    simp only [Node.internal.injEq] at h
    obtain ⟨rfl, rfl⟩ := h
    rfl
  | some old =>
    rw [hAt] at h
    simp only [Node.internal.injEq] at h
    obtain ⟨rfl, rfl⟩ := h
    rfl

/-- The extents of the leaf that `key` routes to. -/
def routeLeaf (nodes : Nodes) (key : Nat) : Nat → Nat → List Extent
  | 0, _ => []
  | fuel + 1, block =>
    match nodes block with
    | some (.leaf extents) => extents
    | some (.internal idx tr) =>
      routeLeaf nodes key fuel (childAt idx tr (findChild idx key))
    | none => []

/-- The entries for which the nodes on the way from `block` to that leaf have room. -/
def slots (nodes : Nodes) (key : Nat) : Nat → Nat → List Nat
  | 0, _ => []
  | fuel + 1, block =>
    match nodes block with
    | some (.leaf extents) => [leafFanout - extents.length]
    | some (.internal idx tr) =>
      (idxKeys - idx.length) :: slots nodes key fuel (childAt idx tr (findChild idx key))
    | none => []

/-- Routing below the median of a node is routing in its left half. -/
theorem childAt_left {idx r : List IdxEntry} {m : IdxEntry} {key : Nat} (tr : Nat)
    (hKey : key < m.highKey) :
    childAt (idx ++ m :: r) tr (findChild (idx ++ m :: r) key) =
      childAt idx m.child (findChild idx key) := by
  induction idx with
  | nil =>
    rw [List.nil_append, findChild_cons, if_pos hKey]
    rfl
  | cons e idx ih =>
    rw [List.cons_append, findChild_cons, findChild_cons]
    by_cases hHere : key < e.highKey
    · rw [if_pos hHere, if_pos hHere]
      rfl
    · rw [if_neg hHere, if_neg hHere, childAt_cons_succ, childAt_cons_succ, ih]

/-- Routing from the median on is routing in the right half. -/
theorem childAt_right {idx r : List IdxEntry} {m : IdxEntry} {key : Nat} (tr : Nat)
    (hBelow : ∀ e ∈ idx, e.highKey ≤ key) (hKey : m.highKey ≤ key) :
    childAt (idx ++ m :: r) tr (findChild (idx ++ m :: r) key) =
      childAt r tr (findChild r key) := by
  induction idx with
  | nil =>
    rw [List.nil_append, findChild_cons, if_neg (by omega), childAt_cons_succ]
  | cons e idx ih =>
    have hHere := hBelow e List.mem_cons_self
    rw [List.cons_append, findChild_cons, if_neg (by omega), childAt_cons_succ]
    exact ih fun x hx => hBelow x (List.mem_cons_of_mem _ hx)

/-- The keys of a node do not exceed its range. -/
theorem Kids.keys_lt (hLt : ∀ b lo hi c, P b lo hi c → lo < hi) : ∀ {idx : List IdxEntry}
    {lo : Nat} {c : Content}, Kids P tr idx lo hi c → ∀ e ∈ idx, e.highKey < hi
  | [], _, _, _, e, he => absurd he List.not_mem_nil
  | x :: idx, _, _, h, e, he => by
    obtain ⟨c₁, c₂, -, -, hRest⟩ := h
    rcases List.mem_cons.mp he with rfl | he
    · exact Kids.lt hLt hRest
    · exact Kids.keys_lt hLt hRest e he

/-- The rest of a node around the child that `key` routes to: `A` to its left,
with the separator `lo'`, and `B` to its right, with the separator `hi'`. -/
structure Hole (P : Nat → Nat → Nat → Content → Prop) (idx : List IdxEntry)
    (tr key lo hi lo' hi' : Nat) (A B : Content) : Prop where
  loLe  : lo ≤ lo'
  keyLo : lo' ≤ key
  keyHi : key < hi'
  hiLe  : hi' ≤ hi
  sepsA : ∀ k ∈ A.seps, k ≤ lo'
  sepsB : ∀ k ∈ B.seps, hi' ≤ k
  extsA : ∀ e ∈ A.exts, e.offset < lo'
  extsB : ∀ e ∈ B.exts, hi' ≤ e.offset
  loMem : lo' = lo ∨ lo' ∈ A.seps
  hiMem : hi' = hi ∨ hi' ∈ B.seps
  fill  : ∀ (Q : Nat → Nat → Nat → Content → Prop) (x : Content),
    (∀ b lo hi y, y.blocks ⊆ A.blocks ++ B.blocks → P b lo hi y → Q b lo hi y) →
    Q (childAt idx tr (findChild idx key)) lo' hi' x → Kids Q tr idx lo hi (A ++ (x ++ B))
  split : ∀ (Q : Nat → Nat → Nat → Content → Prop) (sib s : Nat) (x₁ x₂ : Content), s < hi' →
    (∀ b lo hi y, y.blocks ⊆ A.blocks ++ B.blocks → P b lo hi y → Q b lo hi y) →
    Q (childAt idx tr (findChild idx key)) lo' s x₁ → Q sib s hi' x₂ →
    ∃ idx' tr', absorbSplit idx tr (findChild idx key) sib s = .internal idx' tr' ∧
      idx'.length = idx.length + 1 ∧
      Kids Q tr' idx' lo hi (A ++ (x₁ ++ (Content.sep s ++ x₂) ++ B)) ∧
      childAt idx' tr' (findChild idx' key) =
        if key < s then childAt idx tr (findChild idx key) else sib

/-- A key in the range of a node routes to a child that is responsible for it. -/
theorem Kids.focus {key : Nat} (hLt : ∀ b lo hi c, P b lo hi c → lo < hi)
    (hSeps : ∀ b lo hi c, P b lo hi c → ∀ k ∈ c.seps, lo < k ∧ k < hi)
    (hOff : ∀ b lo hi c, P b lo hi c → ∀ e ∈ c.exts, lo ≤ e.offset ∧ e.offset < hi ∧ 0 < e.len)
    (hKeyHi : key < hi) : ∀ {idx : List IdxEntry} {lo : Nat} {c : Content}, Kids P tr idx lo hi c → lo ≤ key →
      ∃ lo' hi' A x B, c = A ++ (x ++ B) ∧
        P (childAt idx tr (findChild idx key)) lo' hi' x ∧
        Hole P idx tr key lo hi lo' hi' A B
  | [], lo, c, h, hKey => by
    refine ⟨lo, hi, Content.none, c, Content.none, by simp, h, Nat.le_refl _, hKey, hKeyHi,
      Nat.le_refl _, fun k hk => absurd hk List.not_mem_nil,
      fun k hk => absurd hk List.not_mem_nil, fun e he => absurd he List.not_mem_nil,
      fun e he => absurd he List.not_mem_nil, Or.inl rfl, Or.inl rfl, ?_, ?_⟩
    · intro Q x _ hx
      rw [Content.none_append, Content.append_none]
      exact hx
    · intro Q sib s x₁ x₂ _ _ h₁ h₂
      refine ⟨[⟨tr, s⟩], sib, rfl, rfl, ?_, ?_⟩
      · rw [Content.none_append, Content.append_none]
        exact ⟨x₁, x₂, rfl, h₁, h₂⟩
      · rw [findChild_cons]
        by_cases hs : key < s
        · rw [if_pos hs, if_pos hs]
          rfl
        · rw [if_neg hs, if_neg hs]
          rfl
  | e :: idx, lo, c, h, hKey => by
    obtain ⟨c₁, c₂, rfl, hFirst, hRest⟩ := h
    by_cases hHere : key < e.highKey
    · -- the first child
      have hAt : findChild (e :: idx) key = 0 := by rw [findChild_cons, if_pos hHere]
      refine ⟨lo, e.highKey, Content.none, c₁, Content.sep e.highKey ++ c₂, rfl, ?_,
        Nat.le_refl _, hKey, hHere, Nat.le_of_lt (Kids.lt hLt hRest),
        fun k hk => absurd hk List.not_mem_nil, ?_, fun e he => absurd he List.not_mem_nil, ?_,
        Or.inl rfl, Or.inr (by simp), ?_, ?_⟩
      · rw [hAt]
        exact hFirst
      · intro k hk
        rw [Content.seps_append, Content.seps_sep, List.mem_append, List.mem_singleton] at hk
        rcases hk with rfl | hk
        · exact Nat.le_refl _
        · exact Nat.le_of_lt (Kids.seps hLt hSeps hRest k hk).1
      · intro x hx
        rw [Content.exts_append, Content.exts_sep, List.nil_append] at hx
        exact (Kids.exts hLt hOff hRest x hx).1
      · intro Q x hPQ hx
        rw [hAt] at hx
        exact ⟨x, c₂, rfl, hx, hRest.mono hPQ⟩
      · intro Q sib s x₁ x₂ hs hPQ h₁ h₂
        rw [hAt] at h₁ ⊢
        have hRest' : Kids Q tr idx e.highKey hi c₂ :=
          hRest.mono hPQ
        refine ⟨⟨e.child, s⟩ :: ⟨sib, e.highKey⟩ :: idx, tr, rfl, rfl, ?_, ?_⟩
        · refine ⟨x₁, x₂ ++ (Content.sep e.highKey ++ c₂), ?_, h₁, x₂, c₂, rfl, h₂, hRest'⟩
          rw [Content.none_append]
          simp only [Content.append_assoc]
        · rw [findChild_cons]
          by_cases hks : key < s
          · rw [if_pos hks, if_pos hks]
            rfl
          · rw [if_neg hks, if_neg hks, findChild_cons, if_pos hHere]
            rfl
    · -- one of the others
      have hAt : findChild (e :: idx) key = findChild idx key + 1 := by
        rw [findChild_cons, if_neg hHere]
      obtain ⟨lo', hi', A, x, B, rfl, hx, hHole⟩ :=
        Kids.focus hLt hSeps hOff hKeyHi hRest (Nat.le_of_not_lt hHere)
      have hHead := hLt _ _ _ _ hFirst
      have hLo := hHole.loLe
      refine ⟨lo', hi', c₁ ++ (Content.sep e.highKey ++ A), x, B, ?_, ?_, by omega, hHole.keyLo,
        hHole.keyHi, hHole.hiLe, ?_, hHole.sepsB, ?_, hHole.extsB, ?_, hHole.hiMem, ?_, ?_⟩
      · simp only [Content.append_assoc]
      · rw [hAt, childAt_cons_succ]
        exact hx
      · intro k hk
        simp only [Content.seps_append, Content.seps_sep, List.mem_append, List.mem_singleton] at hk
        rcases hk with hk | rfl | hk
        · have hIn := (hSeps _ _ _ _ hFirst k hk).2
          omega
        · exact hLo
        · exact hHole.sepsA k hk
      · intro x' hx'
        rw [Content.exts_append, Content.exts_append, Content.exts_sep, List.nil_append,
          List.mem_append] at hx'
        rcases hx' with hx' | hx'
        · have hIn := (hOff _ _ _ _ hFirst x' hx').2.1
          omega
        · exact hHole.extsA x' hx'
      · refine Or.inr ?_
        rcases hHole.loMem with hEq | hIn
        · rw [hEq]
          simp
        · simp [hIn]
      · intro Q x' hPQ hx'
        rw [hAt, childAt_cons_succ] at hx'
        refine ⟨c₁, A ++ (x' ++ B), by simp only [Content.append_assoc], ?_, ?_⟩
        · refine hPQ _ _ _ _ ?_ hFirst
          intro b hb
          simp [hb]
        · refine hHole.fill Q x' (fun b lo hi y hy => hPQ b lo hi y ?_) hx'
          intro b hb
          have hIn := hy hb
          simp only [List.mem_append] at hIn
          rcases hIn with hIn | hIn
          · simp [hIn]
          · simp [hIn]
      · intro Q sib s x₁ x₂ hs hPQ h₁ h₂
        rw [hAt, childAt_cons_succ] at h₁
        obtain ⟨idx', tr', hAbsorb, hLen, hKids, hRoute⟩ := hHole.split Q sib s x₁ x₂ hs (by
          intro b lo hi y hy
          refine hPQ b lo hi y ?_
          intro b' hb'
          have hIn := hy hb'
          simp only [List.mem_append] at hIn
          rcases hIn with hIn | hIn
          · simp [hIn]
          · simp [hIn]) h₁ h₂
        refine ⟨e :: idx', tr', ?_, by simp [hLen], ?_, ?_⟩
        · rw [hAt]
          exact absorbSplit_cons_succ hAbsorb
        · refine ⟨c₁, A ++ (x₁ ++ (Content.sep s ++ x₂) ++ B), ?_, ?_, hKids⟩
          · simp only [Content.append_assoc]
          · refine hPQ _ _ _ _ ?_ hFirst
            intro b hb
            simp [hb]
        · rw [findChild_cons, if_neg hHere, childAt_cons_succ, hRoute, hAt, childAt_cons_succ]

end Kids

--
-- Subtrees
--

section Sub

variable {nodes nodes' : Nodes} {d block lo hi : Nat} {c : Content}

theorem Sub.pos (h : Sub nodes d block lo hi c) : 0 < block := by
  cases d <;> exact h.1

theorem Sub.block_mem (h : Sub nodes d block lo hi c) : block ∈ c.blocks := by
  cases d with
  | zero =>
    obtain ⟨-, -, hBlocks, -⟩ := h
    simp [hBlocks]
  | succ d =>
    obtain ⟨-, idx, tr, kids, -, -, rfl, -⟩ := h
    simp

/-- A subtree depends on the blocks of its own nodes alone. -/
theorem Sub.congr : ∀ {d block lo hi : Nat} {c : Content}, Sub nodes d block lo hi c →
    (∀ b ∈ c.blocks, nodes' b = nodes b) → Sub nodes' d block lo hi c
  | 0, block, _, _, _, h, hSame => by
    obtain ⟨hPos, hNode, hBlocks, hSeps, hLeaf⟩ := h
    refine ⟨hPos, ?_, hBlocks, hSeps, hLeaf⟩
    rw [hSame block (by simp [hBlocks]), hNode]
  | d + 1, block, _, _, _, h, hSame => by
    obtain ⟨hPos, idx, tr, kids, hNode, hLen, rfl, hKids⟩ := h
    refine ⟨hPos, idx, tr, kids, ?_, hLen, rfl, hKids.mono ?_⟩
    · rw [hSame block List.mem_cons_self, hNode]
    · rintro b lo hi x hx ⟨hWide, hSub⟩
      exact ⟨hWide, hSub.congr fun b' hb' => hSame b' (List.mem_cons_of_mem _ (hx hb'))⟩

theorem Child.congr (h : Child nodes d block lo hi c) (hSame : ∀ b ∈ c.blocks, nodes' b = nodes b) :
    Child nodes' d block lo hi c := ⟨h.1, h.2.congr hSame⟩

theorem Sub.seps : ∀ {d block lo hi : Nat} {c : Content}, Sub nodes d block lo hi c →
    ∀ k ∈ c.seps, lo < k ∧ k < hi
  | 0, _, _, _, _, h, k, hk => by
    obtain ⟨-, -, -, hSeps, -⟩ := h
    rw [hSeps] at hk
    exact absurd hk List.not_mem_nil
  | d + 1, _, _, _, _, h, k, hk => by
    obtain ⟨-, idx, tr, kids, -, -, rfl, hKids⟩ := h
    exact hKids.seps (fun _ _ _ _ hc => hc.1.lt) (fun _ _ _ _ hc => hc.2.seps) k hk

theorem Child.seps (h : Child nodes d block lo hi c) : ∀ k ∈ c.seps, lo < k ∧ k < hi := h.2.seps

/-- The extents of a subtree start in its range. -/
theorem Sub.offsets : ∀ {d block lo hi : Nat} {c : Content}, Sub nodes d block lo hi c →
    ∀ e ∈ c.exts, lo ≤ e.offset ∧ e.offset < hi ∧ 0 < e.len
  | 0, _, _, _, _, h, e, he => by
    obtain ⟨-, -, -, -, hLeaf⟩ := h
    exact ⟨(hLeaf.range e he).1, (hLeaf.range e he).2, hLeaf.pos e he⟩
  | d + 1, _, _, _, _, h, e, he => by
    obtain ⟨-, idx, tr, kids, -, -, rfl, hKids⟩ := h
    exact hKids.exts (fun _ _ _ _ hc => hc.1.lt) (fun _ _ _ _ hc => hc.2.offsets) e he

/-- Two extents of a tree, the first to the left: they are disjoint, or a separator
lies between their offsets. -/
def Apart (seps : List Nat) (a b : Extent) : Prop :=
  a.offset < b.offset ∧ (a.stop ≤ b.offset ∨ ∃ k ∈ seps, a.offset < k ∧ k ≤ b.offset)

theorem Apart.mono {seps seps' : List Nat} {a b : Extent} (h : Apart seps a b)
    (hSub : seps ⊆ seps') : Apart seps' a b := by
  refine ⟨h.1, h.2.imp id ?_⟩
  rintro ⟨k, hk, hIn⟩
  exact ⟨k, hSub hk, hIn⟩

theorem Kids.apart {P : Nat → Nat → Nat → Content → Prop} {tr hi : Nat}
    (hLt : ∀ b lo hi c, P b lo hi c → lo < hi)
    (hOff : ∀ b lo hi c, P b lo hi c → ∀ e ∈ c.exts, lo ≤ e.offset ∧ e.offset < hi ∧ 0 < e.len)
    (hP : ∀ b lo hi c, P b lo hi c → c.exts.Pairwise (Apart c.seps)) :
    ∀ {idx : List IdxEntry} {lo : Nat} {c : Content}, Kids P tr idx lo hi c →
      c.exts.Pairwise (Apart c.seps)
  | [], _, _, h => hP _ _ _ _ h
  | x :: idx, lo, _, h => by
    obtain ⟨c₁, c₂, rfl, hFirst, hRest⟩ := h
    simp only [Content.exts_append, Content.exts_sep, List.nil_append, Content.seps_append,
      Content.seps_sep]
    refine List.pairwise_append.mpr ⟨?_, ?_, ?_⟩
    · exact (hP _ _ _ _ hFirst).imp fun hab => hab.mono (List.subset_append_left _ _)
    · refine (Kids.apart hLt hOff hP hRest).imp fun hab => hab.mono ?_
      intro k hk
      simp [hk]
    · intro a ha b hb
      have hA := hOff _ _ _ _ hFirst a ha
      have hB := Kids.exts hLt hOff hRest b hb
      exact ⟨by omega, Or.inr ⟨x.highKey, by simp, hA.2.1, hB.1⟩⟩

/-- Extents stand apart from left to right. -/
theorem Sub.separated : ∀ {d block lo hi : Nat} {c : Content}, Sub nodes d block lo hi c →
    c.exts.Pairwise (Apart c.seps)
  | 0, _, _, _, _, h => by
    obtain ⟨-, -, -, -, hLeaf⟩ := h
    refine List.Pairwise.imp_of_mem ?_ hLeaf.ordered
    intro a b ha _ hab
    have hPos := hLeaf.pos a ha
    unfold Extent.stop at hab
    exact ⟨by omega, Or.inl hab⟩
  | d + 1, _, _, _, _, h => by
    obtain ⟨-, idx, tr, kids, -, -, rfl, hKids⟩ := h
    exact hKids.apart (fun _ _ _ _ hc => hc.1.lt) (fun _ _ _ _ hc => hc.2.offsets)
      fun _ _ _ _ hc => hc.2.separated

/-- A subtree may become responsible for more. -/
theorem Sub.widen : ∀ {d block lo hi lo' hi' : Nat} {c : Content}, Sub nodes d block lo hi c →
    lo' ≤ lo → hi ≤ hi' → Sub nodes d block lo' hi' c
  | 0, _, _, _, _, _, _, h, hLo, hHi => by
    obtain ⟨hPos, hNode, hBlocks, hSeps, hLeaf⟩ := h
    refine ⟨hPos, hNode, hBlocks, hSeps, hLeaf.ordered, hLeaf.pos, ?_, hLeaf.fanout⟩
    intro e he
    have hIn := hLeaf.range e he
    omega
  | d + 1, _, _, _, _, _, _, h, hLo, hHi => by
    obtain ⟨hPos, idx, tr, kids, hNode, hLen, rfl, hKids⟩ := h
    refine ⟨hPos, idx, tr, kids, hNode, hLen, rfl, hKids.widen ?_ hLo hHi⟩
    rintro b lo hi lo' hi' x hLo hHi ⟨hWide, hSub⟩
    exact ⟨hWide.mono hLo hHi, hSub.widen hLo hHi⟩

/-- A tree over 64-bit offsets is shallow. -/
theorem Sub.depth_le (h : Sub nodes d block lo hi c) (hHi : hi ≤ 2 ^ 64) : d ≤ 9 := by
  cases d with
  | zero => omega
  | succ d =>
    obtain ⟨-, idx, tr, kids, -, -, -, hKids⟩ := h
    have hWide := hKids.wide (w := 63 * 127 ^ d) fun _ _ _ _ hc => hc.1
    have hOne : 1 * (63 * 127 ^ d) ≤ (idx.length + 1) * (63 * 127 ^ d) :=
      Nat.mul_le_mul_right _ (by omega)
    by_contra hDeep
    have hPow : 127 ^ 9 ≤ 127 ^ d := Nat.pow_le_pow_right (by decide) (by omega)
    have hBig : 2 ^ 64 < 63 * 127 ^ 9 := by decide
    omega

theorem Sub.focus {key : Nat} {idx : List IdxEntry} {tr : Nat} {kids : Content}
    (h : Kids (fun b lo hi c => Wide d lo hi ∧ Sub nodes d b lo hi c) tr idx lo hi kids)
    (hLo : lo ≤ key) (hHi : key < hi) :
    ∃ lo' hi' A x B, kids = A ++ (x ++ B) ∧
      Child nodes d (childAt idx tr (findChild idx key)) lo' hi' x ∧
      Hole (Child nodes d) idx tr key lo hi lo' hi' A B :=
  Kids.focus (P := Child nodes d) (fun _ _ _ _ hc => hc.lt) (fun _ _ _ _ hc => hc.seps)
    (fun _ _ _ _ hc => hc.2.offsets) hHi h hLo

/-- Routing depends on the blocks of the subtree alone. -/
theorem Sub.route_congr {key : Nat} : ∀ {d block lo hi : Nat} {c : Content} (fuel : Nat),
    Sub nodes d block lo hi c → lo ≤ key → key < hi → (∀ b ∈ c.blocks, nodes' b = nodes b) →
    routeLeaf nodes' key fuel block = routeLeaf nodes key fuel block ∧
      slots nodes' key fuel block = slots nodes key fuel block
  | _, _, _, _, _, 0, _, _, _, _ => ⟨rfl, rfl⟩
  | 0, block, _, _, _, fuel + 1, h, _, _, hSame => by
    unfold routeLeaf slots
    rw [hSame block h.block_mem]
    obtain ⟨-, hNode, -⟩ := h
    rw [hNode]
    exact ⟨rfl, rfl⟩
  | d + 1, block, _, _, _, fuel + 1, h, hLo, hHi, hSame => by
    unfold routeLeaf slots
    rw [hSame block h.block_mem]
    obtain ⟨-, idx, tr, kids, hNode, -, rfl, hKids⟩ := h
    rw [hNode]
    dsimp only
    obtain ⟨lo', hi', A, x, B, rfl, hChild, hHole⟩ := Sub.focus hKids hLo hHi
    obtain ⟨hLeaf, hSlots⟩ := Sub.route_congr fuel hChild.2 hHole.keyLo hHole.keyHi fun b hb =>
      hSame b (List.mem_cons_of_mem _ (by simp [hb]))
    exact ⟨hLeaf, congrArg _ hSlots⟩

/-- The leaf that a key routes to is part of the content. -/
theorem Sub.routeLeaf_subset {key : Nat} : ∀ {d block lo hi : Nat} {c : Content} (fuel : Nat),
    Sub nodes d block lo hi c → lo ≤ key → key < hi → routeLeaf nodes key fuel block ⊆ c.exts
  | _, _, _, _, _, 0, _, _, _ => List.nil_subset _
  | 0, block, _, _, _, fuel + 1, h, _, _ => by
    obtain ⟨-, hNode, -⟩ := h
    unfold routeLeaf
    rw [hNode]
    exact List.Subset.refl _
  | d + 1, block, _, _, _, fuel + 1, h, hLo, hHi => by
    obtain ⟨-, idx, tr, kids, hNode, -, rfl, hKids⟩ := h
    unfold routeLeaf
    rw [hNode]
    dsimp only
    obtain ⟨lo', hi', A, x, B, rfl, hChild, hHole⟩ := Sub.focus hKids hLo hHi
    intro e he
    have hIn := Sub.routeLeaf_subset fuel hChild.2 hHole.keyLo hHole.keyHi he
    simp [hIn]

--
-- Splitting a full node
--

/-- Extents with distinct offsets in a range need as many blocks. -/
theorem length_le_range : ∀ {extents : List Extent} {lo hi : Nat}, lo ≤ hi → Ordered extents →
    (∀ e ∈ extents, 0 < e.len) → (∀ e ∈ extents, lo ≤ e.offset ∧ e.offset < hi) →
    lo + extents.length ≤ hi
  | [], _, _, hLe, _, _, _ => hLe
  | e :: rest, lo, hi, _, hOrd, hPos, hRange => by
    have hHead := hRange e List.mem_cons_self
    have hLen := hPos e List.mem_cons_self
    have hCons := List.pairwise_cons.mp hOrd
    have hRest : e.offset + 1 + rest.length ≤ hi := by
      refine length_le_range (by omega) hCons.2 (fun x hx => hPos x (List.mem_cons_of_mem _ hx)) ?_
      intro x hx
      have hAfter := hCons.1 x hx
      have hIn := hRange x (List.mem_cons_of_mem _ hx)
      unfold Extent.stop at hAfter
      omega
    rw [List.length_cons]
    omega

theorem readNode_of_le {nodes : Nodes} {block : Nat} {node : Node} (h : nodes block = some node)
    (hLe : node.numKeys ≤ node.capacity) : readNode nodes block = some node := by
  unfold readNode
  rw [h]
  dsimp only
  rw [if_pos hLe]

/-- The node at the root of a subtree. -/
theorem Sub.node (h : Sub nodes d block lo hi c) :
    ∃ node, nodes block = some node ∧ readNode nodes block = some node := by
  cases d with
  | zero =>
    obtain ⟨-, hNode, -, -, hLeaf⟩ := h
    exact ⟨_, hNode, readNode_of_le hNode hLeaf.fanout⟩
  | succ d =>
    obtain ⟨-, idx, tr, kids, hNode, hLen, -⟩ := h
    exact ⟨_, hNode, readNode_of_le hNode hLen⟩

/-- A leaf with these extents is full, and `k` is the key it would split at. -/
def SplitsAt (extents : List Extent) (k : Nat) : Prop :=
  leafFanout ≤ extents.length ∧ ∃ e, (extents.drop (leafFanout / 2)).head? = some e ∧ k = e.offset

theorem SplitsAt.mem {extents : List Extent} {k : Nat} (h : SplitsAt extents k) :
    ∃ e ∈ extents, k = e.offset := by
  obtain ⟨-, e, hHead, rfl⟩ := h
  exact ⟨e, List.mem_of_mem_drop (List.mem_of_head? hHead), rfl⟩

/-- What the two halves of a full subtree at `block` and `sib` hold. -/
structure Halves (nodes : Nodes) (d block sib lo s hi : Nat) (c c₁ c₂ : Content) : Prop where
  left   : Child nodes d block lo s c₁
  right  : Child nodes d sib s hi c₂
  exts   : c₁.exts ++ c₂.exts = c.exts
  blocks : (c₁.blocks ++ c₂.blocks).Perm (sib :: c.blocks)
  seps   : ∀ k ∈ c₁.seps ++ s :: c₂.seps, k ∈ c.seps ∨ d = 0 ∧ SplitsAt c.exts k
  keeps  : c.seps ⊆ c₁.seps ++ s :: c₂.seps

theorem LeafOk.halves {extents : List Extent} (h : LeafOk lo hi extents)
    (hFull : leafFanout ≤ extents.length) :
    ∃ e ∈ extents, (extents.drop (leafFanout / 2)).head? = some e ∧
      LeafOk lo e.offset (extents.take (leafFanout / 2)) ∧
      LeafOk e.offset hi (extents.drop (leafFanout / 2)) ∧
      lo + 63 ≤ e.offset ∧ e.offset + 63 ≤ hi := by
  have hLen : extents.length = 126 := Nat.le_antisymm h.fanout hFull
  have hMid : leafFanout / 2 = 63 := rfl
  rw [hMid]
  have hDropLen : (extents.drop 63).length = 63 := by simp [hLen]
  obtain ⟨e, rest, hDrop⟩ : ∃ e rest, extents.drop 63 = e :: rest := by
    cases hDrop : extents.drop 63 with
    | nil =>
      rw [hDrop] at hDropLen
      exact absurd hDropLen (by decide)
    | cons e rest => exact ⟨e, rest, rfl⟩
  have hMem : e ∈ extents := List.mem_of_mem_drop (by rw [hDrop]; exact List.mem_cons_self)
  have hSplit : Ordered (extents.take 63 ++ extents.drop 63) := by
    rw [List.take_append_drop]
    exact h.ordered
  obtain ⟨hOrdL, hOrdR, hCross⟩ := List.pairwise_append.mp hSplit
  have hLeft : LeafOk lo e.offset (extents.take 63) := by
    refine ⟨hOrdL, fun x hx => h.pos x (List.mem_of_mem_take hx), ?_, ?_⟩
    · intro x hx
      have hBefore := hCross x hx e (by rw [hDrop]; exact List.mem_cons_self)
      have hPos := h.pos x (List.mem_of_mem_take hx)
      have hIn := h.range x (List.mem_of_mem_take hx)
      unfold Extent.stop at hBefore
      omega
    · rw [List.length_take, hLen]
      decide
  have hRight : LeafOk e.offset hi (extents.drop 63) := by
    refine ⟨hOrdR, fun x hx => h.pos x (List.mem_of_mem_drop hx), ?_, ?_⟩
    · intro x hx
      have hIn := h.range x (List.mem_of_mem_drop hx)
      rw [hDrop] at hx hOrdR
      rcases List.mem_cons.mp hx with rfl | hx
      · omega
      · have hAfter := (List.pairwise_cons.mp hOrdR).1 x hx
        unfold Extent.stop at hAfter
        omega
    · rw [hDropLen]
      decide
  have hIn := h.range e hMem
  have hWideL := length_le_range hIn.1 hLeft.ordered hLeft.pos hLeft.range
  have hWideR := length_le_range (Nat.le_of_lt hIn.2) hRight.ordered hRight.pos hRight.range
  rw [List.length_take, hLen] at hWideL
  rw [hDropLen] at hWideR
  refine ⟨e, hMem, by rw [hDrop]; rfl, hLeft, hRight, by omega, hWideR⟩

/-- The separator that a full leaf passes up. -/
theorem leaf_separator {exts : List Extent} {e : Extent}
    (h : (exts.drop (leafFanout / 2)).head? = some e) : (Node.leaf exts).split.2.2 = e.offset := by
  unfold Node.split
  dsimp only
  rw [h]

/-- A full internal node is split around its middle key. -/
theorem split_internal {idx : List IdxEntry} (tr : Nat) (hKeys : idx.length = 253) :
    ∃ median, idx = idx.take 126 ++ median :: idx.drop 127 ∧ (Node.internal idx tr).split =
      (.internal (idx.take 126) median.child, .internal (idx.drop 127) tr, median.highKey) := by
  have hLt : 126 < idx.length := by omega
  refine ⟨idx[126], ?_, ?_⟩
  · rw [List.getElem_cons_drop, List.take_append_drop]
  · unfold Node.split
    dsimp only
    rw [show idxKeys / 2 = 126 from rfl, List.getElem?_eq_getElem hLt]

/-- A full node becomes two subtrees, neither of them full. -/
theorem Sub.split (h : Sub nodes d block lo hi c) {node : Node} {sib : Nat}
    (hNode : nodes block = some node) (hFull : ¬ node.numKeys < node.capacity) (hSib : 0 < sib)
    (hLeft : nodes' block = some node.split.1) (hRight : nodes' sib = some node.split.2.1)
    (hSame : ∀ b ∈ c.blocks, b ≠ block → nodes' b = nodes b) (hNodup : c.blocks.Nodup) :
    (∃ c₁ c₂, Halves nodes' d block sib lo node.split.2.2 hi c c₁ c₂) ∧
      node.split.1.numKeys < node.split.1.capacity ∧
      node.split.2.1.numKeys < node.split.2.1.capacity := by
  cases d with
  | zero =>
    obtain ⟨hPos, hLeafNode, hBlocks, hSeps, hLeaf⟩ := h
    rw [hLeafNode] at hNode
    obtain rfl := Option.some.inj hNode
    have hLen : leafFanout ≤ c.exts.length := Nat.le_of_not_lt hFull
    obtain ⟨e, hMem, hHead, hL, hR, hWideL, hWideR⟩ := hLeaf.halves hLen
    have hSep : (Node.leaf c.exts).split.2.2 = e.offset := leaf_separator hHead
    have hHalf : leafFanout / 2 = 63 := rfl
    have hFan : leafFanout = 126 := rfl
    have hFit : c.exts.length ≤ leafFanout := hLeaf.fanout
    refine ⟨⟨⟨c.exts.take (leafFanout / 2), [block], []⟩,
      ⟨c.exts.drop (leafFanout / 2), [sib], []⟩, ?_⟩, ?_, ?_⟩
    · rw [hSep]
      refine ⟨⟨?_, hPos, hLeft, rfl, rfl, hL⟩, ⟨?_, hSib, hRight, rfl, rfl, hR⟩,
        List.take_append_drop _ _, ?_, ?_, ?_⟩
      · show lo + 63 * 127 ^ 0 ≤ e.offset
        omega
      · show e.offset + 63 * 127 ^ 0 ≤ hi
        omega
      · rw [hBlocks]
        exact List.Perm.swap _ _ _
      · intro k hk
        simp only [List.nil_append, List.mem_singleton] at hk
        exact Or.inr ⟨rfl, hLen, e, hHead, hk⟩
      · rw [hSeps]
        exact List.nil_subset _
    · show (c.exts.take (leafFanout / 2)).length < leafFanout
      rw [List.length_take]
      omega
    · show (c.exts.drop (leafFanout / 2)).length < leafFanout
      rw [List.length_drop]
      omega
  | succ d =>
    obtain ⟨hPos, idx, tr, kids, hIdxNode, hLen, rfl, hKids⟩ := h
    rw [hIdxNode] at hNode
    obtain rfl := Option.some.inj hNode
    have hKeys : idx.length = 253 := Nat.le_antisymm hLen (Nat.le_of_not_lt hFull)
    obtain ⟨median, hIdx, hSplitEq⟩ := split_internal tr hKeys
    rw [hSplitEq] at hLeft hRight ⊢
    rw [hIdx] at hKids
    obtain ⟨c₁, c₂, rfl, hKidsL, hKidsR⟩ := kids_append.mp hKids
    have hTake : (idx.take 126).length = 126 := by
      rw [List.length_take]
      omega
    have hDrop : (idx.drop 127).length = 126 := by
      rw [List.length_drop]
      omega
    have hNotIn : block ∉ c₁.blocks ++ c₂.blocks := by
      have hCons := (List.nodup_cons.mp hNodup).1
      simpa using hCons
    have hKeep : ∀ b lo hi x, x.blocks ⊆ c₁.blocks ++ c₂.blocks → Child nodes d b lo hi x →
        Child nodes' d b lo hi x := by
      intro b lo hi x hx hc
      refine hc.congr fun b' hb' => hSame b' ?_ ?_
      · have hIn := hx hb'
        simpa using Or.inr hIn
      · rintro rfl
        exact hNotIn (hx hb')
    have hPow : 127 ^ (d + 1) = 127 * 127 ^ d := by rw [Nat.pow_succ, Nat.mul_comm]
    refine ⟨⟨⟨c₁.exts, block :: c₁.blocks, c₁.seps⟩, ⟨c₂.exts, sib :: c₂.blocks, c₂.seps⟩, ?_⟩,
      ?_, ?_⟩
    · show Halves nodes' (d + 1) block sib lo median.highKey hi _ _ _
      refine ⟨⟨?_, hPos, idx.take 126, median.child, c₁, hLeft, ?_, rfl, ?_⟩,
        ⟨?_, hSib, idx.drop 127, tr, c₂, hRight, ?_, rfl, ?_⟩, rfl, ?_, ?_, ?_⟩
      · have hWide := hKidsL.wide (w := 63 * 127 ^ d) fun _ _ _ _ hc => hc.1
        rw [hTake] at hWide
        unfold Wide
        rw [hPow]
        omega
      · rw [hTake]
        decide
      · exact hKidsL.mono fun b lo hi x hx => hKeep b lo hi x fun b' hb' => by simp [hx hb']
      · have hWide := hKidsR.wide (w := 63 * 127 ^ d) fun _ _ _ _ hc => hc.1
        rw [hDrop] at hWide
        unfold Wide
        rw [hPow]
        omega
      · rw [hDrop]
        decide
      · exact hKidsR.mono fun b lo hi x hx => hKeep b lo hi x fun b' hb' => by simp [hx hb']
      · show (block :: c₁.blocks ++ sib :: c₂.blocks).Perm (sib :: block :: (c₁.blocks ++ c₂.blocks))
        exact List.perm_middle
      · intro k hk
        exact Or.inl hk
      · exact List.Subset.refl _
    · show (idx.take 126).length < idxKeys
      rw [hTake]
      decide
    · show (idx.drop 127).length < idxKeys
      rw [hDrop]
      decide

/-- Where a key routes after the split: to the same leaf, or to half of it, on a way that
has room at the top. -/
theorem Sub.route_split (h : Sub nodes d block lo hi c) {node : Node} {sib key : Nat}
    (hNode : nodes block = some node) (hFull : ¬ node.numKeys < node.capacity)
    (hLeft : nodes' block = some node.split.1) (hRight : nodes' sib = some node.split.2.1)
    (hSame : ∀ b ∈ c.blocks, b ≠ block → nodes' b = nodes b) (hNodup : c.blocks.Nodup)
    (hLo : lo ≤ key) (hHi : key < hi) :
    (routeLeaf nodes' key (d + 1) (if key < node.split.2.2 then block else sib) =
        routeLeaf nodes key (d + 1) block ∨
      (routeLeaf nodes' key (d + 1) (if key < node.split.2.2 then block else sib)).length <
        leafFanout ∧ leafFanout ≤ (routeLeaf nodes key (d + 1) block).length) ∧
    ∃ h rest, 2 ≤ h ∧ slots nodes key (d + 1) block = 0 :: rest ∧
      slots nodes' key (d + 1) (if key < node.split.2.2 then block else sib) = h :: rest := by
  cases d with
  | zero =>
    obtain ⟨-, hLeafNode, -, -, hLeaf⟩ := h
    rw [hLeafNode] at hNode
    obtain rfl := Option.some.inj hNode
    have hHalf : leafFanout / 2 = 63 := rfl
    have hFan : leafFanout = 126 := rfl
    have hFit : c.exts.length ≤ leafFanout := hLeaf.fanout
    have hL : nodes' block = some (.leaf (c.exts.take (leafFanout / 2))) := hLeft
    have hR : nodes' sib = some (.leaf (c.exts.drop (leafFanout / 2))) := hRight
    have hKeys : c.exts.length = 126 := Nat.le_antisymm hFit (Nat.le_of_not_lt hFull)
    have hOldLeaf : routeLeaf nodes key (0 + 1) block = c.exts := by rw [routeLeaf, hLeafNode]
    have hOld : slots nodes key (0 + 1) block = [0] := by
      rw [slots, hLeafNode]
      dsimp only
      rw [hKeys]
      rfl
    rw [hOld, hOldLeaf]
    by_cases hKey : key < (Node.leaf c.exts).split.2.2
    · rw [if_pos hKey, routeLeaf, hL, slots, hL]
      dsimp only
      rw [List.length_take]
      exact ⟨Or.inr ⟨by omega, by omega⟩, _, _, by omega, rfl, rfl⟩
    · rw [if_neg hKey, routeLeaf, hR, slots, hR]
      dsimp only
      rw [List.length_drop]
      exact ⟨Or.inr ⟨by omega, by omega⟩, _, _, by omega, rfl, rfl⟩
  | succ d =>
    obtain ⟨hPos, idx, tr, kids, hIdxNode, hLen, rfl, hKids⟩ := h
    rw [hIdxNode] at hNode
    obtain rfl := Option.some.inj hNode
    have hKeys : idx.length = 253 := Nat.le_antisymm hLen (Nat.le_of_not_lt hFull)
    obtain ⟨median, hIdx, hSplitEq⟩ := split_internal tr hKeys
    rw [hSplitEq] at hLeft hRight ⊢
    have hOld : routeLeaf nodes key (d + 1 + 1) block =
        routeLeaf nodes key (d + 1) (childAt idx tr (findChild idx key)) := by
      rw [routeLeaf, hIdxNode]
    -- the grandchild and its subtree are not touched
    obtain ⟨lo', hi', A, x, B, hEq, hChild, hHole⟩ := Sub.focus hKids hLo hHi
    have hOldSlots : slots nodes key (d + 1 + 1) block =
        0 :: slots nodes key (d + 1) (childAt idx tr (findChild idx key)) := by
      rw [slots, hIdxNode]
      dsimp only
      rw [hKeys]
      rfl
    have hBlocks : ∀ b ∈ x.blocks, nodes' b = nodes b := by
      intro b hb
      have hIn : b ∈ kids.blocks := by
        rw [hEq]
        simp [hb]
      refine hSame b (List.mem_cons_of_mem _ hIn) ?_
      rintro rfl
      exact (List.nodup_cons.mp hNodup).1 hIn
    obtain ⟨hBelow, hSlots⟩ := hChild.2.route_congr (d + 1) hHole.keyLo hHole.keyHi hBlocks
    rw [hOld, ← hBelow, hOldSlots, ← hSlots]
    generalize hGrand : slots nodes' key (d + 1) (childAt idx tr (findChild idx key)) = rest
    dsimp only
    by_cases hKey : key < median.highKey
    · rw [if_pos hKey, routeLeaf, hLeft, slots, hLeft]
      dsimp only
      rw [← childAt_left (r := idx.drop 127) tr hKey, ← hIdx, List.length_take, hGrand]
      exact ⟨Or.inl rfl, _, _, by omega, rfl, rfl⟩
    · rw [if_neg hKey, routeLeaf, hRight, slots, hRight]
      dsimp only
      rw [hIdx] at hKids
      obtain ⟨c₁, c₂, -, hKidsL, -⟩ := kids_append.mp hKids
      have hKeysLt := hKidsL.keys_lt fun _ _ _ _ hc => hc.1.lt
      have hRoute := childAt_right (r := idx.drop 127) tr
        (fun e he => by
          have hLtE := hKeysLt e he
          omega) (Nat.le_of_not_lt hKey)
      rw [← hIdx] at hRoute
      rw [hRoute] at hGrand ⊢
      rw [List.length_drop, hGrand]
      exact ⟨Or.inl rfl, _, _, by omega, rfl, rfl⟩

end Sub

end Briefs.Btree
