import Briefs.Trie.Iter

/-!
# BrieFS — the iterator walks the whole trie

On a sound trie the iterator emits every entry once, in an order that depends on
the links alone, and none of its backstops fires. What is left to emit can be read
off the stack. A node is visited when it is pushed, when it is popped, and once more
if it is a leaf with children: a walk makes `walkVisits` visits in all, and those made
and those still to come stay within that number.

## Results

* `Positioned.next` — one call emits the next entry of the order, -ENOENT after the last.
* `Tree.positioned_seek` — a seek in a changed trie stands before the target's entry.
-/

namespace Briefs.Trie

--
-- The order of the entries
--

/-- The entry of one node, if it is emitted. -/
def entryAt (s : Store) (ref : Nat) : List Entry :=
  match s ref with
  | some n => if n.emits then [n.entry] else []
  | none => []

/-- The entries of a forest in the order of the walk: the last sibling first. -/
def order (s : Store) : Forest → List Entry
  | .nil => []
  | .cons r kids rest => order s rest ++ (entryAt s r ++ order s kids)

--
-- The visits of a walk
--

/-- The weight of the third visit of a node: a leaf with children is popped twice. -/
def again (s : Store) (w : Nat → Nat) (ref : Nat) : Nat :=
  match s ref with
  | some n => if n.emits && decide (n.firstChild ≠ 0) then w ref else 0
  | none => 0

theorem again_le (s : Store) (w : Nat → Nat) (ref : Nat) : again s w ref ≤ w ref := by
  unfold again
  split
  · split_ifs
    · exact le_refl _
    · exact Nat.zero_le _
  · exact Nat.zero_le _

/-- The weight of all visits of a walk of the forest. -/
def load (s : Store) (w : Nat → Nat) (f : Forest) : Nat :=
  f.weigh fun r => 2 * w r + again s w r

/-- The visits of a walk of the forest. -/
def walkVisits (s : Store) (f : Forest) : Nat :=
  load s (fun _ => 1) f

theorem load_cons (s : Store) (w : Nat → Nat) (r : Nat) (kids rest : Forest) :
    load s w (.cons r kids rest) = 2 * w r + again s w r + load s w kids + load s w rest := rfl

theorem load_le (s : Store) (w : Nat → Nat) (f : Forest) : load s w f ≤ 3 * f.weigh w := by
  induction f with
  | nil => exact le_refl _
  | cons r kids rest ihKids ihRest =>
    have hAgain := again_le s w r
    rw [load_cons, Forest.weigh]
    omega

--
-- What the stack stands for
--

/-- A stack entry with the children of its node and its level. -/
structure Item where
  ref     : Nat
  emitted : Bool
  kids    : Forest
  level   : Nat

namespace Item

/-- What the item still emits. -/
def out (s : Store) (x : Item) : List Entry :=
  if x.emitted then order s x.kids else entryAt s x.ref ++ order s x.kids

/-- The weight of the visits the item can still cause. -/
def cost (s : Store) (w : Nat → Nat) (x : Item) : Nat :=
  (if x.emitted then w x.ref else w x.ref + again s w x.ref) + load s w x.kids

end Item

/-- The items of a chain once it is pushed, the last sibling on top. -/
def items (level : Nat) : Forest → List Item
  | .nil => []
  | .cons r kids rest => items level rest ++ [⟨r, false, kids, level⟩]

/-- What a stack of items still emits. -/
def outs (s : Store) (xs : List Item) : List Entry :=
  xs.flatMap (Item.out s)

/-- The weight of the visits a stack of items can still cause. -/
def costs (s : Store) (w : Nat → Nat) (xs : List Item) : Nat :=
  (xs.map (Item.cost s w)).sum

theorem outs_items (s : Store) (level : Nat) (f : Forest) : outs s (items level f) = order s f := by
  induction f with
  | nil => rfl
  | cons r kids rest _ ih =>
    unfold outs at ih
    simp [items, outs, order, ih, Item.out]

theorem outs_append (s : Store) (xs ys : List Item) :
    outs s (xs ++ ys) = outs s xs ++ outs s ys := by
  unfold outs
  exact List.flatMap_append

theorem costs_append (s : Store) (w : Nat → Nat) (xs ys : List Item) :
    costs s w (xs ++ ys) = costs s w xs + costs s w ys := by
  unfold costs
  rw [List.map_append, List.sum_append]

@[simp]
theorem costs_cons (s : Store) (w : Nat → Nat) (x : Item) (xs : List Item) :
    costs s w (x :: xs) = x.cost s w + costs s w xs := by
  simp [costs]

@[simp]
theorem outs_cons (s : Store) (x : Item) (xs : List Item) :
    outs s (x :: xs) = x.out s ++ outs s xs := by
  simp [outs]

/-- The visits a chain has caused and can still cause once it is pushed. -/
theorem costs_items (s : Store) (w : Nat → Nat) (level : Nat) (f : Forest) :
    costs s w (items level f) + ((items level f).map fun x => w x.ref).sum = load s w f := by
  induction f with
  | nil => rfl
  | cons r kids rest _ ih =>
    simp only [items, costs_append, costs_cons, List.map_append, List.sum_append, List.map_cons,
      List.map_nil, List.sum_cons, List.sum_nil, Item.cost, load_cons, Bool.false_eq_true,
      if_false]
    simp only [costs, List.map_nil, List.sum_nil] at ih ⊢
    omega

theorem length_items (level : Nat) (f : Forest) : (items level f).length = f.width := by
  induction f with
  | nil => rfl
  | cons r kids rest _ ih => simp [items, Forest.width, ih]

/-- The node of the item is there, with those children. -/
def Item.Ok (s : Store) (x : Item) : Prop :=
  ∃ n, s x.ref = some n ∧ Chain s n.firstChild x.kids

theorem ok_of_mem_items {s : Store} {level r : Nat} {f : Forest} (hChain : Chain s r f) :
    ∀ x ∈ items level f, x.Ok s := by
  induction f generalizing r with
  | nil =>
    intro x hx
    cases hx
  | cons r' kids rest _ ih =>
    obtain ⟨rfl, -, n, hn, hKids, hRest⟩ := hChain
    intro x hx
    rcases List.mem_append.mp hx with hx | hx
    · exact ih hRest x hx
    · rw [List.mem_singleton.mp hx]
      exact ⟨n, hn, hKids⟩

--
-- The height of the stack
--

/-- The levels of a stack: deeper items are above, at most 256 on one level, and no
level below 255, the length of the longest name. -/
structure Stacked (xs : List Item) : Prop where
  sorted : xs.Pairwise fun x y => y.level ≤ x.level
  narrow : ∀ l, xs.countP (fun x => x.level == l) ≤ 256
  deep   : ∀ x ∈ xs, x.level ≤ nameLen
  fits   : ∀ x ∈ xs, x.kids.Fits (nameLen - x.level) ∧ x.kids.width ≤ 256

theorem length_le_of_levels {xs : List Item} {w d : Nat}
    (hNarrow : ∀ l, xs.countP (fun x => x.level == l) ≤ w) (hDeep : ∀ x ∈ xs, x.level < d) :
    xs.length ≤ d * w := by
  induction d generalizing xs with
  | zero =>
    cases xs with
    | nil => simp
    | cons x xs =>
      have hAbsurd := hDeep x (by simp)
      omega
  | succ d ih =>
    have hTop := hNarrow d
    have hRest : (xs.filter fun x => !(x.level == d)).length ≤ d * w := by
      refine ih ?_ ?_
      · intro l
        rw [List.countP_filter]
        refine le_trans (List.countP_mono_left ?_) (hNarrow l)
        intro x _ hBoth
        simp only [Bool.and_eq_true] at hBoth
        exact hBoth.1
      · intro x hx
        obtain ⟨hMem, hNe⟩ := List.mem_filter.mp hx
        have hLt := hDeep x hMem
        simp only [Bool.not_eq_true', beq_eq_false_iff_ne] at hNe
        omega
    have hSplit := List.length_eq_countP_add_countP (fun x : Item => x.level == d) (l := xs)
    have hOther : xs.countP (fun x => decide ¬(x.level == d) = true) =
        (xs.filter fun x => !(x.level == d)).length := by
      rw [List.countP_eq_length_filter]
      congr 2
      funext x
      cases x.level == d <;> rfl
    rw [hOther] at hSplit
    calc xs.length ≤ w + d * w := by omega
      _ = (d + 1) * w := by ring

theorem Stacked.length_le {xs : List Item} (h : Stacked xs) : xs.length ≤ 65536 := by
  have hLe := length_le_of_levels h.narrow (d := 256) fun x hx => by
    have hDeep := h.deep x hx
    unfold nameLen at hDeep
    omega
  omega

theorem level_of_mem_items {level : Nat} {f : Forest} : ∀ x ∈ items level f, x.level = level := by
  induction f with
  | nil =>
    intro x hx
    cases hx
  | cons r kids rest _ ih =>
    intro x hx
    rcases List.mem_append.mp hx with hx | hx
    · exact ih x hx
    · rw [List.mem_singleton.mp hx]

theorem fits_of_mem_items {level h : Nat} {f : Forest} (hFits : f.Fits (h + 1)) :
    ∀ x ∈ items level f, x.kids.Fits h ∧ x.kids.width ≤ 256 := by
  induction f with
  | nil =>
    intro x hx
    cases hx
  | cons r kids rest _ ih =>
    obtain ⟨hKids, hWidth, hRest⟩ := hFits
    intro x hx
    rcases List.mem_append.mp hx with hx | hx
    · exact ih hRest x hx
    · rw [List.mem_singleton.mp hx]
      exact ⟨hKids, hWidth⟩

/-- The top item replaced by the items of its children. -/
theorem Stacked.descend {x : Item} {xs : List Item} (h : Stacked (x :: xs)) :
    Stacked (items (x.level + 1) x.kids ++ xs) := by
  have hHead := List.pairwise_cons.mp h.sorted
  obtain ⟨hFits, hWidth⟩ := h.fits x (by simp)
  have hLevels : ∀ y ∈ items (x.level + 1) x.kids, y.level = x.level + 1 := level_of_mem_items
  refine ⟨?_, ?_, ?_, ?_⟩
  · refine List.pairwise_append.mpr ⟨?_, hHead.2, ?_⟩
    · refine List.pairwise_of_forall_mem_list ?_
      intro y hy z hz
      rw [hLevels y hy, hLevels z hz]
    · intro y hy z hz
      have hLe := hHead.1 z hz
      rw [hLevels y hy]
      omega
  · intro l
    rw [List.countP_append]
    by_cases hl : l = x.level + 1
    · -- nothing that deep was on the stack before
      have hNone : xs.countP (fun y => y.level == l) = 0 := by
        rw [List.countP_eq_zero]
        intro y hy hEq
        have hLe := hHead.1 y hy
        simp only [beq_iff_eq] at hEq
        omega
      have hAll : (items (x.level + 1) x.kids).countP (fun y => y.level == l) ≤ 256 := by
        refine le_trans List.countP_le_length ?_
        rw [length_items]
        exact hWidth
      omega
    · have hNone : (items (x.level + 1) x.kids).countP (fun y => y.level == l) = 0 := by
        rw [List.countP_eq_zero]
        intro y hy hEq
        rw [hLevels y hy] at hEq
        simp only [beq_iff_eq] at hEq
        exact hl hEq.symm
      have hOld := h.narrow l
      rw [List.countP_cons] at hOld
      omega
  · intro y hy
    rcases List.mem_append.mp hy with hy | hy
    · rw [hLevels y hy]
      by_contra hDeep
      have hZero : nameLen - x.level = 0 := by omega
      rw [hZero] at hFits
      cases hKids : x.kids with
      | nil =>
        rw [hKids] at hy
        cases hy
      | cons r kids rest =>
        rw [hKids] at hFits
        exact hFits
    · exact h.deep y (List.mem_cons_of_mem _ hy)
  · intro y hy
    rcases List.mem_append.mp hy with hy | hy
    · rw [hLevels y hy]
      cases hRoom : nameLen - x.level with
      | zero =>
        cases hKids : x.kids with
        | nil =>
          rw [hKids] at hy
          cases hy
        | cons r kids rest =>
          rw [hRoom, hKids] at hFits
          exact absurd hFits (by simp [Forest.Fits])
      | succ k =>
        rw [hRoom] at hFits
        have hLess : nameLen - (x.level + 1) = k := by omega
        rw [hLess]
        exact fits_of_mem_items hFits y hy
    · exact h.fits y (List.mem_cons_of_mem _ hy)

theorem Stacked.tail {x : Item} {xs : List Item} (h : Stacked (x :: xs)) : Stacked xs := by
  refine ⟨(List.pairwise_cons.mp h.sorted).2, ?_, ?_, ?_⟩
  · intro l
    have hOld := h.narrow l
    rw [List.countP_cons] at hOld
    omega
  · exact fun y hy => h.deep y (List.mem_cons_of_mem _ hy)
  · exact fun y hy => h.fits y (List.mem_cons_of_mem _ hy)

/-- The flag of an item has no part in the levels. -/
theorem Stacked.mark {x : Item} {xs : List Item} (h : Stacked (x :: xs)) (b : Bool) :
    Stacked ({ x with emitted := b } :: xs) := by
  refine ⟨?_, ?_, ?_, ?_⟩
  · exact List.pairwise_cons.mpr (List.pairwise_cons.mp h.sorted)
  · intro l
    have hOld := h.narrow l
    rw [List.countP_cons] at hOld ⊢
    exact hOld
  · intro y hy
    rcases List.mem_cons.mp hy with rfl | hy
    · exact h.deep x (by simp)
    · exact h.deep y (List.mem_cons_of_mem _ hy)
  · intro y hy
    rcases List.mem_cons.mp hy with rfl | hy
    · exact h.fits x (by simp)
    · exact h.fits y (List.mem_cons_of_mem _ hy)

--
-- Visits
--

/-- Everything but the stack and the visit counts is the same. -/
structure SamePlace (it it' : Iter) : Prop where
  pending    : it'.pending = it.pending
  gen        : it'.gen = it.gen
  emitIdx    : it'.emitIdx = it.emitIdx
  visitCap   : it'.visitCap = it.visitCap
  ckpts      : it'.ckpts = it.ckpts
  ckptStride : it'.ckptStride = it.ckptStride
  ckptBytes  : it'.ckptBytes = it.ckptBytes

theorem SamePlace.refl (it : Iter) : SamePlace it it :=
  ⟨rfl, rfl, rfl, rfl, rfl, rfl, rfl⟩

theorem SamePlace.trans {it it' it'' : Iter} (h : SamePlace it it') (h' : SamePlace it' it'') :
    SamePlace it it'' :=
  ⟨h'.pending.trans h.pending, h'.gen.trans h.gen, h'.emitIdx.trans h.emitIdx,
    h'.visitCap.trans h.visitCap, h'.ckpts.trans h.ckpts, h'.ckptStride.trans h.ckptStride,
    h'.ckptBytes.trans h.ckptBytes⟩

/-- The counts of the iterator against the list of all visits since the last reset. -/
structure Counted (it : Iter) (noted : List Nat) : Prop where
  visited : it.visited = noted.length
  table   : ∀ i, (it.vslots i).2 ≤ noted.count (it.vslots i).1

/-- A reference seen fewer than 16 times passes the revisit table. -/
theorem Counted.noteVisit {it : Iter} {noted : List Nat} (h : Counted it noted) {ref : Nat}
    (hFew : noted.count ref < refMaxVisits) :
    ∃ it', it.noteVisit ref = (it', none) ∧ SamePlace it it' ∧ it'.stack = it.stack ∧
      Counted it' (ref :: noted) := by
  have hGrow : ∀ a, noted.count a ≤ (ref :: noted).count a := fun a =>
    List.Sublist.count_le a (List.sublist_cons_self ref noted)
  have hLen : it.visited + 1 = (ref :: noted).length := by rw [h.visited, List.length_cons]
  have hSlot := h.table (Iter.visitSlot ref)
  -- the table with the slot of the reference written
  have hTable : ∀ k ≤ noted.count ref + 1, ∀ i,
      (if i = Iter.visitSlot ref then (ref, k) else it.vslots i).2 ≤
        (ref :: noted).count (if i = Iter.visitSlot ref then (ref, k) else it.vslots i).1 := by
    intro k hk i
    by_cases hi : i = Iter.visitSlot ref
    · simp only [hi, if_true, List.count_cons_self]
      omega
    · simp only [hi, if_false]
      exact le_trans (h.table i) (hGrow _)
  unfold Iter.noteVisit
  dsimp only
  by_cases hEngage : it.visited + 1 ≤ visitEngage
  · rw [if_pos hEngage]
    exact ⟨_, rfl, ⟨rfl, rfl, rfl, rfl, rfl, rfl, rfl⟩, rfl, hLen,
      fun i => le_trans (h.table i) (hGrow _)⟩
  · rw [if_neg hEngage]
    by_cases hSame : (it.vslots (Iter.visitSlot ref)).2 ≠ 0 ∧
        (it.vslots (Iter.visitSlot ref)).1 = ref
    · rw [if_pos hSame]
      rw [hSame.2] at hSlot
      rw [if_neg (by omega)]
      exact ⟨_, rfl, ⟨rfl, rfl, rfl, rfl, rfl, rfl, rfl⟩, rfl, hLen, hTable _ (by omega)⟩
    · rw [if_neg hSame]
      exact ⟨_, rfl, ⟨rfl, rfl, rfl, rfl, rfl, rfl, rfl⟩, rfl, hLen, hTable 1 (by omega)⟩

theorem push_spec {it : Iter} (hRoom : it.stack.length < iterMaxSp) (ref : Nat) (b : Bool) :
    it.push ref b = ({ it with stack := (ref, b) :: it.stack }, none) := by
  unfold Iter.push
  rw [if_neg (by omega)]

theorem Counted.withStack {it : Iter} {noted : List Nat} (h : Counted it noted)
    (stack : List (Nat × Bool)) : Counted { it with stack := stack } noted :=
  ⟨h.visited, h.table⟩

/-- The stack entries of a list of items. -/
def entriesOf (xs : List Item) : List (Nat × Bool) :=
  xs.map fun x => (x.ref, x.emitted)

/-- A chain is pushed whole, each node visited once. -/
theorem pushChildren_spec (level : Nat) {s : Store} {r : Nat} {f : Forest} (hChain : Chain s r f)
    {it : Iter} {noted : List Nat} {fuel : Nat} (hCounted : Counted it noted)
    (hRoom : it.stack.length + f.width ≤ iterMaxSp)
    (hFew : ∀ a, noted.count a + ((items level f).map Item.ref).count a ≤ refMaxVisits)
    (hCap : noted.length + f.width ≤ it.visitCap) (hFuel : f.width < fuel) :
    ∃ it', Iter.pushChildren s fuel it r = (it', none) ∧ SamePlace it it' ∧
      it'.stack = entriesOf (items level f) ++ it.stack ∧
      Counted it' ((items level f).map Item.ref ++ noted) := by
  induction f generalizing r it noted fuel with
  | nil =>
    obtain ⟨fuel, rfl⟩ : ∃ k, fuel = k + 1 := ⟨fuel - 1, by simp [Forest.width] at hFuel; omega⟩
    have hZero : r = 0 := hChain
    refine ⟨it, ?_, SamePlace.refl it, rfl, hCounted⟩
    rw [Iter.pushChildren, if_pos hZero]
  | cons r' kids rest _ ih =>
    obtain ⟨fuel, rfl⟩ : ∃ k, fuel = k + 1 := ⟨fuel - 1, by omega⟩
    obtain ⟨rfl, hNe, n, hn, hKids, hRest⟩ := hChain
    simp only [Forest.width] at hRoom hCap hFuel
    have hSeen : noted.count r + 1 ≤ refMaxVisits := by
      have hOne := hFew r
      simp only [items, List.map_append, List.map_cons, List.map_nil, List.count_append,
        List.count_singleton_self] at hOne
      omega
    obtain ⟨it₁, hNote, hSame₁, hStack₁, hCounted₁⟩ :=
      (hCounted.withStack ((r, false) :: it.stack)).noteVisit hSeen
    have hCap₁ := hSame₁.visitCap
    have hRoom₁ : it₁.stack.length + rest.width ≤ iterMaxSp := by
      rw [hStack₁, List.length_cons]
      omega
    have hFew₁ : ∀ a, (r :: noted).count a + ((items level rest).map Item.ref).count a ≤
        refMaxVisits := by
      intro a
      have hOne := hFew a
      simp only [items, List.map_append, List.map_cons, List.map_nil, List.count_append,
        List.count_cons, List.count_nil] at hOne ⊢
      omega
    have hCapLeft : (r :: noted).length + rest.width ≤ it₁.visitCap := by
      rw [hCap₁, List.length_cons]
      show noted.length + 1 + rest.width ≤ it.visitCap
      omega
    obtain ⟨it₂, hPush, hSame₂, hStack₂, hCounted₂⟩ :=
      ih hRest hCounted₁ hRoom₁ hFew₁ hCapLeft (Nat.lt_of_succ_lt_succ hFuel)
    refine ⟨it₂, ?_, ?_, ?_, ?_⟩
    · have hVisited : ¬ it₁.visitCap < it₁.visited := by
        rw [hCap₁, hCounted₁.visited, List.length_cons]
        show ¬ it.visitCap < noted.length + 1
        omega
      rw [Iter.pushChildren, if_neg hNe, push_spec (by omega)]
      simp only [hn, hNote, if_neg hVisited]
      exact hPush
    · have hPushed : SamePlace it { it with stack := (r, false) :: it.stack } :=
        ⟨rfl, rfl, rfl, rfl, rfl, rfl, rfl⟩
      exact (hPushed.trans hSame₁).trans hSame₂
    · rw [hStack₂, hStack₁]
      simp [items, entriesOf]
    · simpa [items] using hCounted₂

--
-- One call
--

theorem sum_indicator (a : Nat) (l : List Nat) :
    (l.map fun r => if r = a then 1 else 0).sum = l.count a := by
  induction l with
  | nil => rfl
  | cons r l ih =>
    rw [List.map_cons, List.sum_cons, ih, List.count_cons]
    simp only [beq_iff_eq]
    omega

/-- The state of a walk of the forest `f`: the stack is a list of items of the trie,
and the visits so far and those still to come stay within those of one walk. -/
structure Walks (s : Store) (f : Forest) (it : Iter) (noted : List Nat) (xs : List Item) :
    Prop where
  stack   : it.stack = entriesOf xs
  ok      : ∀ x ∈ xs, x.Ok s
  stacked : Stacked xs
  counted : Counted it noted
  budget  : ∀ w, (noted.map w).sum + costs s w xs ≤ load s w f
  once    : f.refs.Nodup
  cap     : walkVisits s f ≤ it.visitCap

theorem Walks.visits {s : Store} {f : Forest} {it : Iter} {noted : List Nat} {xs : List Item}
    (h : Walks s f it noted xs) : noted.length + costs s (fun _ => 1) xs ≤ it.visitCap := by
  have hBudget := h.budget fun _ => 1
  have hLength : (noted.map fun _ => 1).sum = noted.length := by simp
  rw [hLength] at hBudget
  exact le_trans hBudget h.cap

theorem Walks.few {s : Store} {f : Forest} {it : Iter} {noted : List Nat} {xs : List Item}
    (h : Walks s f it noted xs) (a : Nat) :
    noted.count a + costs s (fun r => if r = a then 1 else 0) xs ≤ 3 := by
  have hBudget := h.budget fun r => if r = a then 1 else 0
  have hLoad := load_le s (fun r => if r = a then 1 else 0) f
  rw [sum_indicator] at hBudget
  rw [Forest.weigh_eq_sum, sum_indicator] at hLoad
  have hOnce : f.refs.count a ≤ 1 := List.nodup_iff_count_le_one.mp h.once a
  omega

/-- The top item is popped and visited. -/
theorem Walks.pop {s : Store} {f : Forest} {it : Iter} {noted : List Nat} {x : Item}
    {xs : List Item} (h : Walks s f it noted (x :: xs)) :
    ∃ it', ({ it with stack := entriesOf xs } : Iter).noteVisit x.ref = (it', none) ∧
      SamePlace it it' ∧ it'.stack = entriesOf xs ∧ Counted it' (x.ref :: noted) := by
  have hFew := h.few x.ref
  have hCost : 1 ≤ x.cost s fun r => if r = x.ref then 1 else 0 := by
    simp only [Item.cost, if_true]
    split_ifs <;> omega
  rw [costs_cons] at hFew
  have hSeen : noted.count x.ref < refMaxVisits := by
    unfold refMaxVisits
    omega
  obtain ⟨it', hNote, hSame, hStack, hCounted⟩ :=
    (h.counted.withStack (entriesOf xs)).noteVisit hSeen
  have hPopped : SamePlace it { it with stack := entriesOf xs } :=
    ⟨rfl, rfl, rfl, rfl, rfl, rfl, rfl⟩
  exact ⟨it', hNote, hPopped.trans hSame, hStack, hCounted⟩

/-- The visits of a popped item that is not emitted go to its children. -/
theorem Walks.descend {s : Store} {f : Forest} {it it₁ : Iter} {noted : List Nat} {x : Item}
    {xs : List Item} (h : Walks s f it noted (x :: xs)) {n : Node}
    (hKids : Chain s n.firstChild x.kids) (hSame : SamePlace it it₁)
    (hStack : it₁.stack = entriesOf xs) (hCounted : Counted it₁ (x.ref :: noted)) :
    ∃ it₂ noted₂, Iter.pushChildren s (it₁.visitCap + 2) it₁ n.firstChild = (it₂, none) ∧
      SamePlace it it₂ ∧ Walks s f it₂ noted₂ (items (x.level + 1) x.kids ++ xs) := by
  have hSplit : ∀ w, w x.ref + costs s w (items (x.level + 1) x.kids) +
      ((items (x.level + 1) x.kids).map fun y => w y.ref).sum ≤ x.cost s w := by
    intro w
    have hItems := costs_items s w (x.level + 1) x.kids
    unfold Item.cost
    split_ifs <;> omega
  have hLen := length_items (x.level + 1) x.kids
  have hDescend := h.stacked.descend
  have hHeight := hDescend.length_le
  rw [List.length_append, hLen] at hHeight
  have hVisits := h.visits
  rw [costs_cons] at hVisits
  have hOne := hSplit fun _ => 1
  have hWidth : ((items (x.level + 1) x.kids).map fun _ => 1).sum = x.kids.width := by
    rw [← hLen]
    simp
  rw [hWidth] at hOne
  have hCap₁ := hSame.visitCap
  have hRoom : it₁.stack.length + x.kids.width ≤ iterMaxSp := by
    rw [hStack, entriesOf, List.length_map]
    unfold iterMaxSp
    omega
  have hFew : ∀ a, (x.ref :: noted).count a +
      ((items (x.level + 1) x.kids).map Item.ref).count a ≤ refMaxVisits := by
    intro a
    have hThree := h.few a
    have hInd := hSplit fun r => if r = a then 1 else 0
    rw [costs_cons] at hThree
    have hMap : ((items (x.level + 1) x.kids).map Item.ref).count a =
        ((items (x.level + 1) x.kids).map fun y => if y.ref = a then 1 else 0).sum := by
      rw [← sum_indicator, List.map_map]
      rfl
    rw [hMap, List.count_cons]
    simp only [beq_iff_eq]
    unfold refMaxVisits
    omega
  have hCapLeft : (x.ref :: noted).length + x.kids.width ≤ it₁.visitCap := by
    rw [List.length_cons, hCap₁]
    omega
  have hFuel : x.kids.width < it₁.visitCap + 2 := by
    rw [hCap₁]
    omega
  obtain ⟨it₂, hPush, hSame₂, hStack₂, hCounted₂⟩ :=
    pushChildren_spec (x.level + 1) hKids hCounted hRoom hFew hCapLeft hFuel
  refine ⟨it₂, (items (x.level + 1) x.kids).map Item.ref ++ x.ref :: noted, hPush,
    hSame.trans hSame₂, ?_⟩
  refine
    { stack := ?_, ok := ?_, stacked := hDescend, counted := hCounted₂, budget := ?_,
      once := h.once, cap := ?_ }
  · rw [hStack₂, hStack]
    simp [entriesOf]
  · intro y hy
    rcases List.mem_append.mp hy with hy | hy
    · exact ok_of_mem_items hKids y hy
    · exact h.ok y (List.mem_cons_of_mem _ hy)
  · intro w
    have hBudget := h.budget w
    have hShare := hSplit w
    rw [costs_cons] at hBudget
    rw [List.map_append, List.sum_append, List.map_cons, List.sum_cons, costs_append,
      List.map_map]
    have hComp : (List.map (w ∘ Item.ref) (items (x.level + 1) x.kids)).sum =
        ((items (x.level + 1) x.kids).map fun y => w y.ref).sum := rfl
    rw [hComp]
    omega
  · rw [hSame₂.visitCap, hCap₁]
    exact h.cap

/-- What one call returns, and the walk after it. -/
def Steps (s : Store) (f : Forest) (it : Iter) (xs : List Item)
    (result : Iter × Except IterError Entry) : Prop :=
  SamePlace it result.1 ∧ ∃ noted' xs', Walks s f result.1 noted' xs' ∧
    ((outs s xs = [] ∧ outs s xs' = [] ∧ result.2 = .error .enoent) ∨
      ∃ e, result.2 = .ok e ∧ outs s xs = e :: outs s xs')

/-- The loop returns the next entry, or -ENOENT when none is left. -/
theorem Walks.nextLoop {s : Store} {f : Forest} {it : Iter} {noted : List Nat} {xs : List Item}
    {fuel : Nat} (h : Walks s f it noted xs) (hFuel : costs s (fun _ => 1) xs < fuel) :
    Steps s f it xs (Iter.nextLoop s fuel it) := by
  induction fuel generalizing it noted xs with
  | zero => omega
  | succ fuel ih =>
    have hStackEq := h.stack
    unfold Iter.nextLoop
    cases xs with
    | nil =>
      simp only [entriesOf, List.map_nil] at hStackEq
      simp only [hStackEq]
      exact ⟨SamePlace.refl it, noted, [], h, Or.inl ⟨rfl, rfl, rfl⟩⟩
    | cons x xs =>
      simp only [entriesOf, List.map_cons] at hStackEq
      simp only [hStackEq]
      have hVisits := h.visits
      rw [costs_cons] at hVisits hFuel
      rw [if_neg (by rw [h.counted.visited]; omega)]
      obtain ⟨n, hn, hKids⟩ := h.ok x (by simp)
      obtain ⟨it₁, hNote, hSame₁, hStack₁, hCounted₁⟩ := h.pop
      have hEntry : entryAt s x.ref = if n.emits then [n.entry] else [] := by
        unfold entryAt
        rw [hn]
      unfold entriesOf at hNote
      simp only [hn, hNote]
      by_cases hEmit : (!x.emitted && n.emits) = true
      · rw [if_pos hEmit]
        simp only [Bool.and_eq_true, Bool.not_eq_true'] at hEmit
        rw [if_pos hEmit.2] at hEntry
        have hOut : x.out s = n.entry :: order s x.kids := by
          rw [Item.out, if_neg (by simp [hEmit.1]), hEntry]
          rfl
        have hCost : ∀ w, x.cost s w = w x.ref + again s w x.ref + load s w x.kids := by
          intro w
          rw [Item.cost, if_neg (by simp [hEmit.1])]
        by_cases hLeaf : n.firstChild = 0
        · -- nothing hangs from the leaf, so it does not come back on the stack
          have hNil : x.kids = .nil := by
            rw [hLeaf] at hKids
            cases hForest : x.kids with
            | nil => rfl
            | cons r kids rest =>
              rw [hForest] at hKids
              exact absurd rfl hKids.2.1
          rw [if_pos hLeaf]
          refine ⟨hSame₁, x.ref :: noted, xs, ?_, Or.inr ⟨n.entry, rfl, ?_⟩⟩
          · refine
              { stack := hStack₁, ok := fun y hy => h.ok y (List.mem_cons_of_mem _ hy),
                stacked := h.stacked.tail, counted := hCounted₁, budget := ?_, once := h.once,
                cap := hSame₁.visitCap ▸ h.cap }
            intro w
            have hBudget := h.budget w
            rw [costs_cons, hCost] at hBudget
            rw [List.map_cons, List.sum_cons]
            omega
          · rw [outs_cons, hOut, hNil]
            rfl
        · have hHeight := h.stacked.length_le
          rw [List.length_cons] at hHeight
          have hRoom : it₁.stack.length < iterMaxSp := by
            rw [hStack₁, entriesOf, List.length_map]
            unfold iterMaxSp
            omega
          rw [if_neg hLeaf, push_spec hRoom]
          have hPushed : SamePlace it₁ { it₁ with stack := (x.ref, true) :: it₁.stack } :=
            ⟨rfl, rfl, rfl, rfl, rfl, rfl, rfl⟩
          refine ⟨hSame₁.trans hPushed, x.ref :: noted, { x with emitted := true } :: xs, ?_,
            Or.inr ⟨n.entry, rfl, ?_⟩⟩
          · refine
              { stack := ?_, ok := ?_, stacked := h.stacked.mark true,
                counted := hCounted₁.withStack _, budget := ?_, once := h.once,
                cap := hSame₁.visitCap ▸ h.cap }
            · rw [hStack₁]
              rfl
            · intro y hy
              rcases List.mem_cons.mp hy with rfl | hy
              · exact ⟨n, hn, hKids⟩
              · exact h.ok y (List.mem_cons_of_mem _ hy)
            · intro w
              have hBudget := h.budget w
              have hMarked : ({ x with emitted := true } : Item).cost s w =
                  w x.ref + load s w x.kids := rfl
              have hAgain : again s w x.ref = w x.ref := by
                simp [again, hn, hEmit.2, hLeaf]
              rw [costs_cons, hCost] at hBudget
              rw [List.map_cons, List.sum_cons, costs_cons, hMarked]
              omega
          · rw [outs_cons, hOut, outs_cons]
            rfl
      · rw [if_neg hEmit]
        obtain ⟨it₂, noted₂, hPush, hSame₂, hWalks₂⟩ :=
          h.descend hKids hSame₁ hStack₁ hCounted₁
        have hCost := hWalks₂.budget
        have hLess : costs s (fun _ => 1) (items (x.level + 1) x.kids ++ xs) < fuel := by
          have hItems := costs_items s (fun _ => 1) (x.level + 1) x.kids
          have hOne : 1 + load s (fun _ => 1) x.kids ≤ x.cost s fun _ => 1 := by
            simp only [Item.cost]
            split_ifs <;> omega
          rw [costs_append]
          omega
        have hRest := ih hWalks₂ hLess
        simp only [hPush]
        obtain ⟨hPlace, noted', xs', hWalks', hOut⟩ := hRest
        refine ⟨hSame₂.trans hPlace, noted', xs', hWalks', ?_⟩
        have hOuts : outs s (x :: xs) = outs s (items (x.level + 1) x.kids ++ xs) := by
          rw [outs_cons, outs_append, outs_items]
          congr 1
          unfold Item.out
          by_cases hFlag : x.emitted = true
          · rw [if_pos hFlag]
          · rw [if_neg hFlag, hEntry, if_neg, List.nil_append]
            intro hLeaf
            exact hEmit (by simp [hFlag, hLeaf])
        rw [hOuts]
        exact hOut

--
-- Positions
--

/-- Everything a walk depends on is the same. -/
structure SameWalk (it it' : Iter) : Prop where
  stack    : it'.stack = it.stack
  visited  : it'.visited = it.visited
  visitCap : it'.visitCap = it.visitCap
  vslots   : it'.vslots = it.vslots

theorem Walks.sameWalk {s : Store} {f : Forest} {it it' : Iter} {noted : List Nat}
    {xs : List Item} (h : Walks s f it noted xs) (hSame : SameWalk it it') :
    Walks s f it' noted xs := by
  refine
    { stack := hSame.stack.trans h.stack, ok := h.ok, stacked := h.stacked, counted := ⟨?_, ?_⟩,
      budget := h.budget, once := h.once, cap := ?_ }
  · rw [hSame.visited]
    exact h.counted.visited
  · rw [hSame.vslots]
    exact h.counted.table
  · rw [hSame.visitCap]
    exact h.cap

theorem SameWalk.withCap {it it' : Iter} (h : SameWalk it it') (blockCount : Nat) :
    SameWalk (it.withCap blockCount) (it'.withCap blockCount) := by
  unfold Iter.withCap
  rw [h.visitCap]
  split_ifs
  · exact ⟨h.stack, h.visited, rfl, h.vslots⟩
  · exact h

theorem withCap_ne_zero (it : Iter) (blockCount : Nat) : (it.withCap blockCount).visitCap ≠ 0 := by
  unfold Iter.withCap
  split_ifs with hZero
  · show blockCount * slotsPerBlock + 1024 ≠ 0
    omega
  · exact hZero

theorem withCap_of_ne_zero {it : Iter} (hCap : it.visitCap ≠ 0) (blockCount : Nat) :
    it.withCap blockCount = it := by
  unfold Iter.withCap
  rw [if_neg hCap]

/-- The cap is set, and nothing else. -/
theorem withCap_place (it : Iter) (blockCount : Nat) :
    (it.withCap blockCount).stack = it.stack ∧ (it.withCap blockCount).pending = it.pending ∧
      (it.withCap blockCount).gen = it.gen ∧ (it.withCap blockCount).emitIdx = it.emitIdx := by
  unfold Iter.withCap
  split_ifs <;> exact ⟨rfl, rfl, rfl, rfl⟩

/-- The iterator stands before the entries `left`, a buffered one among them. -/
def Positioned (blockCount : Nat) (s : Store) (f : Forest) (it : Iter) (left : List Entry) : Prop :=
  ∃ noted xs, Walks s f (it.withCap blockCount) noted xs ∧ left = it.pending.toList ++ outs s xs

theorem Positioned.sameWalk {blockCount : Nat} {s : Store} {f : Forest} {it it' : Iter}
    {left : List Entry} (h : Positioned blockCount s f it left) (hSame : SameWalk it it')
    (hPending : it'.pending = it.pending) : Positioned blockCount s f it' left := by
  obtain ⟨noted, xs, hWalks, hLeft⟩ := h
  refine ⟨noted, xs, hWalks.sameWalk (hSame.withCap blockCount), ?_⟩
  rw [hPending]
  exact hLeft

/-- An entry that did not fit is buffered. -/
theorem Positioned.buffer {blockCount : Nat} {s : Store} {f : Forest} {it : Iter}
    {left : List Entry} (h : Positioned blockCount s f it left) (hNone : it.pending = none)
    (e : Entry) : Positioned blockCount s f { it with pending := some e } (e :: left) := by
  obtain ⟨noted, xs, hWalks, hLeft⟩ := h
  rw [hNone] at hLeft
  refine ⟨noted, xs, ?_, ?_⟩
  · have hSame : SameWalk it { it with pending := some e } := ⟨rfl, rfl, rfl, rfl⟩
    exact hWalks.sameWalk (hSame.withCap blockCount)
  · rw [hLeft]
    rfl

/-- What one call does at a position. -/
structure Moves (blockCount : Nat) (s : Store) (f : Forest) (it : Iter) (left : List Entry)
    (result : Iter × Except IterError Entry) : Prop where
  gen     : result.1.gen = it.gen
  emitIdx : result.1.emitIdx = it.emitIdx
  pending : result.1.pending = none
  yields  : (left = [] ∧ result.2 = .error .enoent ∧ Positioned blockCount s f result.1 []) ∨
    ∃ e rest, left = e :: rest ∧ result.2 = .ok e ∧ Positioned blockCount s f result.1 rest

/-- `briefs_trie_iter_next` on a sound trie: the next entry, or -ENOENT after the last. -/
theorem Positioned.next {blockCount : Nat} {s : Store} {f : Forest} {it : Iter}
    {left : List Entry} (h : Positioned blockCount s f it left) {gen : Nat} (hGen : it.gen = gen) :
    Moves blockCount s f it left (it.next blockCount s gen) := by
  obtain ⟨noted, xs, hWalks, hLeft⟩ := h
  obtain ⟨-, hPending, hSameGen, hIdx⟩ := withCap_place it blockCount
  have hSet := withCap_ne_zero it blockCount
  unfold Iter.next
  rw [if_neg (not_not_intro hGen)]
  dsimp only
  generalize it.withCap blockCount = capped at *
  rw [hPending]
  cases hBuffer : it.pending with
  | some e =>
    rw [hBuffer] at hLeft
    refine ⟨hSameGen, hIdx, rfl, Or.inr ⟨e, outs s xs, hLeft, rfl, noted, xs, ?_, rfl⟩⟩
    have hTaken : ({ capped with pending := none } : Iter).visitCap ≠ 0 := hSet
    have hSame : SameWalk capped { capped with pending := none } := ⟨rfl, rfl, rfl, rfl⟩
    rw [withCap_of_ne_zero hTaken]
    exact hWalks.sameWalk hSame
  | none =>
    rw [hBuffer] at hLeft hPending
    have hVisits := hWalks.visits
    obtain ⟨hPlace, noted', xs', hWalks', hOut⟩ :=
      hWalks.nextLoop (show costs s (fun _ => 1) xs < capped.visitCap + capped.stack.length + 2 by
        omega)
    have hNone : (Iter.nextLoop s (capped.visitCap + capped.stack.length + 2) capped).1.pending =
        none := hPlace.pending.trans hPending
    have hStill := withCap_of_ne_zero (hPlace.visitCap ▸ hSet) blockCount
    refine ⟨hPlace.gen.trans hSameGen, hPlace.emitIdx.trans hIdx, hNone, ?_⟩
    rcases hOut with ⟨hNil, hNil', hErr⟩ | ⟨e, hOk, hCons⟩
    · refine Or.inl ⟨?_, hErr, noted', xs', ?_, ?_⟩
      · rw [hLeft, hNil]
        rfl
      · rw [hStill]
        exact hWalks'
      · rw [hNone, hNil']
        rfl
    · refine Or.inr ⟨e, outs s xs', ?_, hOk, noted', xs', ?_, ?_⟩
      · rw [hLeft, hCons]
        rfl
      · rw [hStill]
        exact hWalks'
      · rw [hNone]
        rfl

--
-- Seeks
--

/-- A sound trie: the links of the root form a tree of at most one level for each byte
of a name, no node is linked twice, and no name is stored twice. -/
structure Tree where
  store    : Store
  root     : Nat
  forest   : Forest
  chain    : Chain store root forest
  single   : forest.width ≤ 1
  fits     : forest.Fits (nameLen + 1)
  once     : forest.refs.Nodup
  distinct : ((order store forest).map Entry.name).Nodup

/-- The entries of the directory in the order of the walk. -/
def Tree.entries (t : Tree) : List Entry :=
  order t.store t.forest

/-- The names of the directory in the order of the walk. -/
def Tree.names (t : Tree) : List (List UInt8) :=
  t.entries.map Entry.name

/-- A walk of the trie makes no more visits than the cap allows. -/
def Tree.Walkable (blockCount : Nat) (t : Tree) : Prop :=
  walkVisits t.store t.forest ≤ blockCount * slotsPerBlock + 1024

instance (blockCount : Nat) (t : Tree) : Decidable (t.Walkable blockCount) :=
  inferInstanceAs (Decidable (_ ≤ _))

theorem entriesOf_items_single {s : Store} {r level : Nat} {f : Forest} (hChain : Chain s r f)
    (hSingle : f.width ≤ 1) :
    entriesOf (items level f) = if r = 0 then [] else [(r, false)] := by
  cases f with
  | nil =>
    have hZero : r = 0 := hChain
    rw [if_pos hZero]
    rfl
  | cons r' kids rest =>
    obtain ⟨rfl, hNe, -⟩ := hChain
    simp only [Forest.width] at hSingle
    have hRest : rest.width = 0 := by omega
    cases rest with
    | nil =>
      rw [if_neg hNe]
      rfl
    | cons r'' kids' rest' => simp [Forest.width] at hRest

/-- The root alone on the stack. -/
theorem stacked_items_single {f : Forest} (hSingle : f.width ≤ 1) (hFits : f.Fits (nameLen + 1)) :
    Stacked (items 0 f) := by
  have hLevels : ∀ x ∈ items 0 f, x.level = 0 := level_of_mem_items
  refine ⟨?_, ?_, ?_, ?_⟩
  · refine List.pairwise_of_forall_mem_list ?_
    intro x hx y hy
    rw [hLevels x hx, hLevels y hy]
  · intro l
    refine le_trans List.countP_le_length ?_
    rw [length_items]
    omega
  · intro x hx
    rw [hLevels x hx]
    exact Nat.zero_le _
  · intro x hx
    rw [hLevels x hx]
    exact fits_of_mem_items hFits x hx

/-- `briefs_trie_iter_init` stands before the first entry. -/
theorem Tree.positioned_init (t : Tree) {blockCount : Nat} (hCap : t.Walkable blockCount)
    (it : Iter) (gen : Nat) :
    Positioned blockCount t.store t.forest (it.init t.root gen) t.entries := by
  have hInit : (it.init t.root gen).withCap blockCount =
      { it.init t.root gen with visitCap := blockCount * slotsPerBlock + 1024 } := by
    have hZero : (it.init t.root gen).visitCap = 0 := rfl
    unfold Iter.withCap
    rw [if_pos hZero]
  refine ⟨[], items 0 t.forest, ?_, ?_⟩
  · rw [hInit]
    refine
      { stack := ?_, ok := ok_of_mem_items t.chain,
        stacked := stacked_items_single t.single t.fits, counted := ⟨rfl, ?_⟩, budget := ?_,
        once := t.once, cap := hCap }
    · exact (entriesOf_items_single t.chain t.single).symm
    · intro i
      exact Nat.zero_le _
    · intro w
      have hItems := costs_items t.store w 0 t.forest
      simp only [List.map_nil, List.sum_nil]
      omega
  · rw [outs_items]
    rfl

/-- A checkpoint leaves the walk and the position alone. -/
theorem ckptRecord_place (it : Iter) :
    SameWalk it it.ckptRecord ∧ it.ckptRecord.pending = it.pending ∧
      it.ckptRecord.gen = it.gen ∧ it.ckptRecord.emitIdx = it.emitIdx := by
  have hThin : SameWalk it it.ckptThin ∧ it.ckptThin.pending = it.pending ∧
      it.ckptThin.gen = it.gen ∧ it.ckptThin.emitIdx = it.emitIdx := by
    unfold Iter.ckptThin
    split_ifs <;> exact ⟨⟨rfl, rfl, rfl, rfl⟩, rfl, rfl, rfl⟩
  have hSame : SameWalk it it ∧ it.pending = it.pending ∧ it.gen = it.gen ∧
      it.emitIdx = it.emitIdx := ⟨⟨rfl, rfl, rfl, rfl⟩, rfl, rfl, rfl⟩
  have hAdd : ∀ it' : Iter, (SameWalk it it' ∧ it'.pending = it.pending ∧ it'.gen = it.gen ∧
      it'.emitIdx = it.emitIdx) → ∀ (cs : List Ckpt) (n : Nat),
      SameWalk it { it' with ckpts := cs, ckptBytes := n } ∧ it'.pending = it.pending ∧
        it'.gen = it.gen ∧ it'.emitIdx = it.emitIdx := by
    rintro it' ⟨hWalk, hRest⟩ cs n
    exact ⟨⟨hWalk.stack, hWalk.visited, hWalk.visitCap, hWalk.vslots⟩, hRest⟩
  unfold Iter.ckptRecord
  dsimp only
  split_ifs
  · exact hSame
  · exact hSame
  · exact hSame
  · exact hThin
  · exact hAdd _ hThin _ _
  · exact hAdd _ hSame _ _

/-- `trie_iter_skip` drops entries, and stops at the end. -/
theorem Positioned.skip {blockCount : Nat} {s : Store} {f : Forest} {it : Iter} {left : List Entry}
    (h : Positioned blockCount s f it left) {gen : Nat} (hGen : it.gen = gen)
    (hPending : it.pending = none) (steps : Nat) :
    Positioned blockCount s f (it.skip blockCount s gen steps) (left.drop steps) ∧
      (it.skip blockCount s gen steps).gen = gen ∧
      (it.skip blockCount s gen steps).pending = none ∧
      (it.skip blockCount s gen steps).emitIdx = it.emitIdx + min steps left.length := by
  induction steps generalizing it left with
  | zero =>
    refine ⟨h, hGen, hPending, ?_⟩
    rw [Nat.zero_min]
    rfl
  | succ steps ih =>
    have hMoves := h.next hGen
    unfold Iter.skip
    rcases hNext : it.next blockCount s gen with ⟨it', r⟩
    rw [hNext] at hMoves
    rcases hMoves.yields with ⟨rfl, rfl, hEnd⟩ | ⟨e, rest, rfl, rfl, hRest⟩
    · refine ⟨?_, hMoves.gen.trans hGen, hMoves.pending, ?_⟩
      · rw [List.drop_nil]
        exact hEnd
      · rw [List.length_nil, Nat.min_zero]
        exact hMoves.emitIdx
    · dsimp only
      obtain ⟨hSame, hNone, hKeep, hIdx⟩ :=
        ckptRecord_place { it' with emitIdx := it'.emitIdx + 1 }
      have hStep : Positioned blockCount s f
          (Iter.ckptRecord { it' with emitIdx := it'.emitIdx + 1 }) rest := by
        have hCounted : Positioned blockCount s f { it' with emitIdx := it'.emitIdx + 1 } rest :=
          hRest.sameWalk ⟨rfl, rfl, rfl, rfl⟩ rfl
        exact hCounted.sameWalk hSame hNone
      obtain ⟨hPos, hGen', hPending', hIdx'⟩ :=
        ih hStep (hKeep.trans (hMoves.gen.trans hGen)) (hNone.trans hMoves.pending)
      refine ⟨hPos, hGen', hPending', ?_⟩
      have hBase : it'.emitIdx = it.emitIdx := hMoves.emitIdx
      rw [hIdx', hIdx, List.length_cons]
      show it'.emitIdx + 1 + min steps rest.length = it.emitIdx + min (steps + 1) (rest.length + 1)
      omega

/-- `briefs_trie_iter_seek` after a change of the trie: the walk restarts and skips the
first `target` entries of the changed trie, whatever they are. -/
theorem Tree.positioned_seek (t : Tree) {blockCount : Nat} (hCap : t.Walkable blockCount)
    {it : Iter} {gen : Nat} (hStale : it.gen ≠ gen) (target : Nat) :
    Positioned blockCount t.store t.forest (it.seek blockCount t.store t.root gen target)
        (t.entries.drop target) ∧
      (it.seek blockCount t.store t.root gen target).gen = gen ∧
      (it.seek blockCount t.store t.root gen target).pending = none ∧
      (it.seek blockCount t.store t.root gen target).emitIdx = min target t.entries.length := by
  have hSeek : it.seek blockCount t.store t.root gen target =
      (((({ it with visited := 0 }).visitReset).ckptClear).init t.root gen).skip
        blockCount t.store gen target := by
    have hReset : (({ it with visited := 0 } : Iter).visitReset).gen ≠ gen := hStale
    unfold Iter.seek
    dsimp only
    rw [if_pos hReset]
  have hStart := t.positioned_init hCap ((({ it with visited := 0 }).visitReset).ckptClear) gen
  obtain ⟨hPos, hGen, hPending, hIdx⟩ := hStart.skip rfl rfl target
  rw [hSeek]
  refine ⟨hPos, hGen, hPending, hIdx.trans ?_⟩
  show 0 + min target t.entries.length = min target t.entries.length
  omega

/-- A forward seek from the end of the walk stays there. -/
theorem Positioned.seek_end {blockCount : Nat} {t : Tree} {it : Iter}
    (h : Positioned blockCount t.store t.forest it []) {gen target : Nat} (hGen : it.gen = gen)
    (hPast : it.emitIdx < target) :
    Positioned blockCount t.store t.forest (it.seek blockCount t.store t.root gen target) [] ∧
      (it.seek blockCount t.store t.root gen target).gen = gen ∧
      (it.seek blockCount t.store t.root gen target).pending = none ∧
      (it.seek blockCount t.store t.root gen target).emitIdx = it.emitIdx := by
  obtain ⟨noted, xs, hWalks, hLeft⟩ := h
  have hPending : it.pending = none := by
    cases hBuffer : it.pending with
    | none => rfl
    | some e =>
      rw [hBuffer] at hLeft
      cases hLeft
  rw [hPending] at hLeft
  have hReset : Positioned blockCount t.store t.forest
      (({ it with visited := 0 } : Iter).visitReset) [] := by
    refine ⟨[], xs, ?_, ?_⟩
    · have hCap : (({ it with visited := 0 } : Iter).visitReset.withCap blockCount).visitCap =
          (it.withCap blockCount).visitCap := by
        unfold Iter.withCap
        split_ifs with hZero hZero' hZero'
        · rfl
        · exact absurd hZero hZero'
        · exact absurd hZero' hZero
        · rfl
      have hFields : (({ it with visited := 0 } : Iter).visitReset.withCap blockCount).stack =
          it.stack ∧ (({ it with visited := 0 } : Iter).visitReset.withCap blockCount).visited = 0 ∧
          (({ it with visited := 0 } : Iter).visitReset.withCap blockCount).vslots =
            fun _ => (0, 0) := by
        unfold Iter.withCap
        split_ifs <;> exact ⟨rfl, rfl, rfl⟩
      obtain ⟨hStack, hVisited, hSlots⟩ := hFields
      refine
        { stack := ?_, ok := hWalks.ok, stacked := hWalks.stacked, counted := ⟨hVisited, ?_⟩,
          budget := ?_, once := hWalks.once, cap := hCap ▸ hWalks.cap }
      · rw [hStack, ← (withCap_place it blockCount).1]
        exact hWalks.stack
      · intro i
        rw [hSlots]
        exact Nat.zero_le _
      · intro w
        have hBudget := hWalks.budget w
        simp only [List.map_nil, List.sum_nil]
        omega
    · show [] = it.pending.toList ++ outs t.store xs
      rw [hPending]
      exact hLeft
  obtain ⟨hPos, hGen', hPending', hIdx⟩ := hReset.skip hGen hPending (target - it.emitIdx)
  have hSeek : it.seek blockCount t.store t.root gen target =
      (({ it with visited := 0 } : Iter).visitReset).skip blockCount t.store gen
        (target - it.emitIdx) := by
    unfold Iter.seek
    dsimp only
    have hSame : (({ it with visited := 0 } : Iter).visitReset).gen = gen := hGen
    have hNone : (({ it with visited := 0 } : Iter).visitReset).pending.isSome = false := by
      show it.pending.isSome = false
      rw [hPending]
      rfl
    have hIdxSame : (({ it with visited := 0 } : Iter).visitReset).emitIdx = it.emitIdx := rfl
    rw [if_neg (not_not_intro hSame), hNone]
    simp only [Bool.false_eq_true, if_false]
    rw [hIdxSame, if_neg (by omega), if_pos hPast]
  rw [hSeek]
  rw [List.drop_nil] at hPos
  refine ⟨hPos, hGen', hPending', ?_⟩
  rw [hIdx, List.length_nil, Nat.min_zero]
  rfl

end Briefs.Trie
