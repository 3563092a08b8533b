import Briefs.Trie.Sweep

/-!
# BrieFS — the guards of the iterator on sound tries

A walk visits a node below the root when it is pushed and when it is popped, and a leaf with
children once more. The revisit table, which an entry of another node may overwrite, never counts
more than that, and no stack is higher than 256 nodes on each of 256 levels. The cap on visits
allows one visit for each slot of the device and 1024 more.

## Results

* `guards_silent_iff` — when a full iteration with memory enough returns no -EIO.
* `guards_fire_full` — a directory that fills 18 blocks of a device of 19.
-/

namespace Briefs.Trie

open Briefs.Lib

--
-- The state of a walk
--

/-- A walk of the forest `f`: `noted` are the visits so far, `xs` stands for the stack and `rem`
for the chain that is being pushed. What was visited and what is left to visit is always the
same. -/
structure Treks (s : Store) (f : Forest) (p : TrieIter × Option Nat) (noted : List Nat)
    (xs : List Item) (level : Nat) (rem : Forest) : Prop where
  stack   : p.1.stack = entriesOf xs
  ok      : ∀ x ∈ xs, x.Ok s
  stacked : Stacked (items level rem ++ xs)
  visited : p.1.visited = noted.length
  within  : p.1.visited ≤ p.1.visitCap + 1
  table   : ∀ t, p.1.table = some t → ∀ i, (t i).2 ≤ noted.count (t i).1
  budget  : ∀ w, (noted.map w).sum + costs s w xs + load s w rem = costs s w (items 0 f)
  mode    : (p.2 = none ∧ rem = .nil) ∨ ∃ c, p.2 = some c ∧ Chain s c rem
  once    : f.refs.Nodup

/-- The visits of a whole walk. -/
def trekVisits (s : Store) (f : Forest) : Nat := costs s (fun _ => 1) (items 0 f)

section Steps

variable {mem : Nat → Bool} {s : Store} {f rem : Forest} {p : TrieIter × Option Nat}
  {it it' : TrieIter} {noted : List Nat} {xs : List Item} {level c : Nat} {x : Item}

theorem Item.cost_pos (s : Store) (x : Item) (w : Nat → Nat) : w x.ref ≤ x.cost s w := by
  unfold Item.cost
  split_ifs
  · omega
  · omega

theorem Treks.visits (h : Treks s f p noted xs level rem) :
    noted.length + costs s (fun _ => 1) xs + load s (fun _ => 1) rem = trekVisits s f := by
  have hBudget := h.budget fun _ => 1
  have hLength : (noted.map fun _ => 1).sum = noted.length := by simp
  rw [hLength] at hBudget
  exact hBudget

/-- No node is visited more than three times. -/
theorem Treks.few (h : Treks s f p noted xs level rem) (a : Nat) :
    noted.count a + costs s (fun r => if r = a then 1 else 0) xs +
      load s (fun r => if r = a then 1 else 0) rem ≤ 3 := by
  have hBudget := h.budget fun r => if r = a then 1 else 0
  have hItems := costs_items s (fun r => if r = a then 1 else 0) 0 f
  have hLoad := load_le s (fun r => if r = a then 1 else 0) f
  rw [sum_indicator] at hBudget
  rw [Forest.weigh_eq_sum, sum_indicator] at hLoad
  have hOnce : f.refs.count a ≤ 1 := List.nodup_iff_count_le_one.mp h.once a
  omega

/-- A slot of the table that counts no more visits than there were. -/
theorem counts_update {t : Nat → Nat × Nat} (hCounts : ∀ i, (t i).2 ≤ noted.count (t i).1)
    (slot : Nat) {ref k : Nat} (hk : k ≤ noted.count ref + 1) (i : Nat) :
    (Function.update t slot (ref, k) i).2 ≤
      (ref :: noted).count (Function.update t slot (ref, k) i).1 := by
  by_cases hi : i = slot
  · rw [hi, Function.update_self, List.count_cons_self]
    exact hk
  · rw [Function.update_of_ne hi]
    exact (hCounts i).trans (List.Sublist.count_le _ (List.sublist_cons_self ref noted))

/-- A reference seen fewer than 16 times passes the revisit table, whatever else was hashed to
its slot. -/
theorem TrieIter.Noted.passes {ref : Nat} {fires : Bool} (hNote : it.Noted ref fires it')
    (hTable : ∀ t, it.table = some t → ∀ i, (t i).2 ≤ noted.count (t i).1)
    (hFew : noted.count ref < refMaxVisits) :
    fires = false ∧ ∀ t, it'.table = some t → ∀ i, (t i).2 ≤ (ref :: noted).count (t i).1 := by
  rcases hNote.table with ⟨hSame, hFires⟩ | ⟨t, hOld, hNew, hFires⟩
  · refine ⟨hFires, fun t ht i => ?_⟩
    rw [hSame] at ht
    exact (hTable t ht i).trans (List.Sublist.count_le _ (List.sublist_cons_self ref noted))
  have hCounts : ∀ i, (t i).2 ≤ noted.count (t i).1 := by
    rcases hOld with hOld | rfl
    · exact hTable t hOld
    · exact fun _ => Nat.zero_le _
  have hSlot := hCounts (Iter.visitSlot ref)
  rw [hNew, hFires]
  unfold TrieIter.bump
  dsimp only
  by_cases hSeen : (t (Iter.visitSlot ref)).2 ≠ 0 ∧ (t (Iter.visitSlot ref)).1 = ref
  · rw [if_pos hSeen]
    rw [hSeen.2] at hSlot
    refine ⟨decide_eq_false (by omega), fun t' ht' i => ?_⟩
    cases ht'
    exact counts_update hCounts _ (by omega) i
  · rw [if_neg hSeen]
    refine ⟨rfl, fun t' ht' i => ?_⟩
    cases ht'
    exact counts_update hCounts _ (by omega) i

/-- No push fails. -/
theorem TrieIter.Fails.absurd_of_low {err : IterErrno} (hPush : it.Fails mem it' err)
    (hMem : ∀ i, mem i = true) (hLow : it.stack.length ≤ 65536) : False := by
  rcases hPush.cause with ⟨-, hFull, hMax⟩ | ⟨-, i, hFail⟩
  · unfold iterMaxSp at hMax
    omega
  · rw [hMem i] at hFail
    cases hFail

theorem length_entriesOf (xs : List Item) : (entriesOf xs).length = xs.length := List.length_map _

/-- A node is popped and visited. -/
theorem Treks.pop (h : Treks s f (it, none) noted xs level rem) {e : Nat × Bool}
    {rest : List (Nat × Bool)} (hStack : it.stack = e :: rest) :
    ∃ x xs', xs = x :: xs' ∧ e = (x.ref, x.emitted) ∧ rest = entriesOf xs' ∧ rem = .nil ∧
      (∃ n, s x.ref = some n ∧ Chain s n.firstChild x.kids) ∧ Stacked (x :: xs') ∧
      noted.count x.ref < refMaxVisits ∧
      ∀ w, w x.ref ≤ x.cost s w ∧
        (noted.map w).sum + x.cost s w + costs s w xs' = costs s w (items 0 f) := by
  have hNil : rem = .nil := by
    rcases h.mode with ⟨-, hNil⟩ | ⟨c, hMode, -⟩
    · exact hNil
    · cases hMode
  have hEntries : entriesOf xs = e :: rest := h.stack.symm.trans hStack
  cases xs with
  | nil => cases hEntries
  | cons x xs =>
    obtain ⟨hHead, hRest⟩ := List.cons.inj hEntries
    subst hNil
    have hFew := h.few x.ref
    have hOne := x.cost_pos s fun r => if r = x.ref then 1 else 0
    rw [if_pos rfl] at hOne
    rw [costs_cons] at hFew
    refine ⟨x, xs, rfl, hHead.symm, hRest.symm, rfl, h.ok x List.mem_cons_self, h.stacked, ?_, ?_⟩
    · unfold refMaxVisits
      omega
    · intro w
      have hBudget := h.budget w
      rw [costs_cons] at hBudget
      have hZero : load s w .nil = 0 := rfl
      exact ⟨x.cost_pos s w, by omega⟩

/-- The next node of a chain. -/
theorem Treks.front (h : Treks s f (it, some c) noted xs level rem) (hNe : c ≠ 0) :
    ∃ kids rest n, rem = .cons c kids rest ∧ s c = some n ∧ Chain s n.firstChild kids ∧
      Chain s n.nextSibling rest ∧ noted.count c < refMaxVisits ∧
      it.stack.length < 65536 := by
  rcases h.mode with ⟨hMode, -⟩ | ⟨c', hMode, hChain⟩
  · cases hMode
  cases hMode
  cases rem with
  | nil => exact absurd hChain hNe
  | cons r kids rest =>
    obtain ⟨rfl, -, n, hn, hKids, hRest⟩ := hChain
    have hFew := h.few c
    rw [load_cons] at hFew
    rw [if_pos rfl] at hFew
    have hHeight := h.stacked.length_le
    rw [List.length_append, length_items, Forest.width] at hHeight
    refine ⟨kids, rest, n, rfl, hn, hKids, hRest, ?_, ?_⟩
    · unfold refMaxVisits
      omega
    · rw [h.stack, length_entriesOf]
      omega

/-- Some state of a walk. -/
def OnTrek (s : Store) (f : Forest) (cap : Nat) (p : TrieIter × Option Nat) : Prop :=
  p.1.visitCap = cap ∧ ∃ noted xs level rem, Treks s f p noted xs level rem

/-- The walk ends in time, or the cap is too low for it. -/
def TrekEnds (s : Store) (f : Forest) (cap : Nat) (err : IterErrno) : Prop :=
  (err = .enoent ∧ trekVisits s f ≤ cap + 1) ∨ (err = .eio ∧ cap + 2 ≤ trekVisits s f)

/-- What a pass leads to. -/
def Trekked (s : Store) (f : Forest) (cap : Nat) :
    (TrieIter × Option Nat) ⊕ (TrieIter × Except IterErrno Entry) → Prop
  | .inl q => OnTrek s f cap q
  | .inr (it', .ok _) => OnTrek s f cap (it', none)
  | .inr (_, .error err) => TrekEnds s f cap err

/-- The state after a node was popped: `y` is what is put back on the stack, and `kids` what is
pushed. -/
theorem Treks.visit {it₁ it₂ : TrieIter} {mode : Option Nat} {kids : Forest} {ys : List Item}
    {lv : Nat} (h : Treks s f (it, none) noted (x :: xs) level .nil)
    (hFew : noted.count x.ref < refMaxVisits) (hCap : it.visited ≤ it.visitCap)
    (hNote : ({ it with stack := entriesOf xs } : TrieIter).Noted x.ref false it₁)
    (hVisited : it₂.visited = it₁.visited) (hTable : it₂.table = it₁.table)
    (hSame : it₂.visitCap = it.visitCap) (hStack : it₂.stack = entriesOf (ys ++ xs))
    (hOk : ∀ y ∈ ys, y.Ok s) (hStacked : Stacked (items lv kids ++ (ys ++ xs)))
    (hMode : (mode = none ∧ kids = .nil) ∨ ∃ c, mode = some c ∧ Chain s c kids)
    (hCost : ∀ w, x.cost s w = w x.ref + costs s w ys + load s w kids) :
    Treks s f (it₂, mode) (x.ref :: noted) (ys ++ xs) lv kids := by
  have hNoted := hNote.visited
  have hBefore : it.visited = noted.length := h.visited
  dsimp only at hNoted
  refine ⟨hStack, ?_, hStacked, ?_, ?_, ?_, ?_, hMode, h.once⟩
  · intro y hy
    rcases List.mem_append.mp hy with hy | hy
    · exact hOk y hy
    · exact h.ok y (List.mem_cons_of_mem _ hy)
  · show it₂.visited = _
    rw [hVisited, hNoted, hBefore, List.length_cons]
  · show it₂.visited ≤ it₂.visitCap + 1
    rw [hVisited, hNoted, hSame]
    exact Nat.succ_le_succ hCap
  · show ∀ t, it₂.table = some t → _
    rw [hTable]
    exact (hNote.passes h.table hFew).2
  · intro w
    have hBudget := h.budget w
    have hOne := hCost w
    have hZero : load s w .nil = 0 := rfl
    rw [costs_cons] at hBudget
    rw [List.map_cons, List.sum_cons, costs_append]
    omega

/-- The weight of a third visit. -/
theorem again_eq {n : Node} {ref : Nat} (hNode : s ref = some n) (w : Nat → Nat) :
    again s w ref = if n.emits && decide (n.firstChild ≠ 0) then w ref else 0 := by
  unfold again
  rw [hNode]

theorem Treks.does_pop (hMem : ∀ i, mem i = true) (h : Treks s f (it, none) noted xs level rem)
    {out : (TrieIter × Option Nat) ⊕ (TrieIter × Except IterErrno Entry)}
    (hDoes : Does mem s (it, none) out) : Trekked s f it.visitCap out := by
  have hVisits := h.visits
  have hWithin : it.visited ≤ it.visitCap + 1 := h.within
  have hLength : it.visited = noted.length := h.visited
  generalize hMode : (it, (none : Option Nat)) = q at hDoes
  cases hDoes with
  | done hStack =>
    cases hMode
    have hNone : entriesOf xs = [] := h.stack.symm.trans hStack
    have hNil : xs = [] := List.map_eq_nil_iff.mp hNone
    have hRem : rem = .nil := by
      rcases h.mode with ⟨-, hNil⟩ | ⟨c, hSome, -⟩
      · exact hNil
      · cases hSome
    rw [hNil, hRem] at hVisits
    have hZero : costs s (fun _ => 1) [] = 0 ∧ load s (fun _ => 1) .nil = 0 := ⟨rfl, rfl⟩
    exact Or.inl ⟨rfl, by omega⟩
  | capped hStack hCap =>
    cases hMode
    obtain ⟨x, xs', rfl, -, -, rfl, -, -, -, hCosts⟩ := h.pop hStack
    have hPos := (hCosts fun _ => 1).1
    rw [costs_cons] at hVisits
    exact Or.inr ⟨rfl, by omega⟩
  | dropped hStack hCap hNode =>
    cases hMode
    obtain ⟨x, xs', rfl, rfl, -, -, ⟨n, hn, -⟩, -⟩ := h.pop hStack
    dsimp only at hNode
    rw [hn] at hNode
    cases hNode
  | repeated hStack hCap hNode hNote =>
    cases hMode
    obtain ⟨x, xs', rfl, rfl, -, -, -, -, hFew, -⟩ := h.pop hStack
    cases (hNote.passes h.table hFew).1
  | leaf hStack hCap hNode hNote hEmits hKids =>
    cases hMode
    obtain ⟨x, xs', rfl, rfl, rfl, rfl, ⟨n, hn, hChain⟩, hStacked, hFew, hCosts⟩ := h.pop hStack
    obtain rfl := Option.some.inj (hNode.symm.trans hn)
    have hLeaf : x.kids = .nil := by
      rw [hKids] at hChain
      cases hx : x.kids with
      | nil => rfl
      | cons r kids rest =>
        rw [hx] at hChain
        exact absurd rfl hChain.2.1
    refine ⟨hNote.samePlace.visitCap, _, [] ++ xs', level, .nil,
      h.visit hFew hCap hNote rfl rfl hNote.samePlace.visitCap hNote.stack
        (fun y hy => absurd hy List.not_mem_nil) hStacked.tail (Or.inl ⟨rfl, rfl⟩) fun w => ?_⟩
    have hFlag : x.emitted = false := hEmits.1
    unfold Item.cost
    rw [hFlag, again_eq hNode, hKids, hLeaf]
    simp [costs, load, Forest.weigh]
  | stuck hStack hCap hNode hNote hEmits hKids hPush =>
    cases hMode
    obtain ⟨x, xs', rfl, rfl, rfl, rfl, -, hStacked, -⟩ := h.pop hStack
    have hHeight := hStacked.length_le
    rw [List.length_cons] at hHeight
    refine (hPush.absurd_of_low hMem ?_).elim
    rw [hNote.stack]
    show (entriesOf xs').length ≤ _
    rw [length_entriesOf]
    omega
  | again hStack hCap hNode hNote hEmits hKids hPush =>
    cases hMode
    obtain ⟨x, xs', rfl, rfl, rfl, rfl, ⟨n, hn, hChain⟩, hStacked, hFew, hCosts⟩ := h.pop hStack
    obtain rfl := Option.some.inj (hNode.symm.trans hn)
    have hSame := hPush.same.visitCap.trans hNote.samePlace.visitCap
    have hBack : _ = entriesOf ([{ x with emitted := true }] ++ xs') :=
      hPush.stack.trans (congrArg _ hNote.stack)
    have hFlag : x.emitted = false := hEmits.1
    have hMarked : Stacked (items level .nil ++ ([{ x with emitted := true }] ++ xs')) :=
      hStacked.mark true
    refine ⟨hSame, _, _, level, .nil, h.visit hFew hCap hNote hPush.visited hPush.table hSame
      hBack ?_ hMarked (Or.inl ⟨rfl, rfl⟩) fun w => ?_⟩
    · intro y hy
      rw [List.mem_singleton.mp hy]
      exact ⟨_, hn, hChain⟩
    · unfold costs Item.cost
      rw [hFlag, again_eq hNode, hEmits.2, decide_eq_true hKids]
      simp [load, Forest.weigh]
      omega
  | @descend _ _ _ _ m hStack hCap hNode hNote hEmits =>
    cases hMode
    obtain ⟨x, xs', rfl, rfl, rfl, rfl, ⟨n, hn, hChain⟩, hStacked, hFew, hCosts⟩ := h.pop hStack
    cases hNode.symm.trans hn
    refine ⟨hNote.samePlace.visitCap, _, [] ++ xs', x.level + 1, x.kids,
      h.visit hFew hCap hNote rfl rfl hNote.samePlace.visitCap hNote.stack
        (fun y hy => absurd hy List.not_mem_nil) hStacked.descend (Or.inr ⟨_, rfl, hChain⟩)
        fun w => ?_⟩
    have hOnce : (if x.emitted then w x.ref else w x.ref + again s w x.ref) = w x.ref := by
      cases hFlag : x.emitted with
      | true => rfl
      | false =>
        rw [again_eq hNode]
        cases hLeaf : m.emits with
        | false => rfl
        | true => exact absurd ⟨hFlag, hLeaf⟩ hEmits
    unfold Item.cost
    rw [hOnce]
    rfl
  | pushed => cases hMode
  | full => cases hMode
  | broken => cases hMode
  | childRepeated => cases hMode
  | childCapped => cases hMode
  | child => cases hMode

theorem Treks.does_push (hMem : ∀ i, mem i = true)
    (h : Treks s f (it, some c) noted xs level rem)
    {out : (TrieIter × Option Nat) ⊕ (TrieIter × Except IterErrno Entry)}
    (hDoes : Does mem s (it, some c) out) : Trekked s f it.visitCap out := by
  generalize hMode : (it, some c) = q at hDoes
  cases hDoes with
  | pushed =>
    cases hMode
    have hNil : rem = .nil := by
      rcases h.mode with ⟨hNone, -⟩ | ⟨c, hSome, hChain⟩
      · cases hNone
      · cases hSome
        cases rem with
        | nil => rfl
        | cons r kids rest => exact absurd rfl hChain.2.1
    exact ⟨rfl, noted, xs, level, rem, h.stack, h.ok, h.stacked, h.visited, h.within, h.table,
      h.budget, Or.inl ⟨rfl, hNil⟩, h.once⟩
  | full hNe hPush =>
    cases hMode
    obtain ⟨-, -, -, -, -, -, -, -, hLow⟩ := h.front hNe
    exact (hPush.absurd_of_low hMem hLow.le).elim
  | broken hNe hPush hNode =>
    cases hMode
    obtain ⟨-, -, n, -, hn, -⟩ := h.front hNe
    rw [hn] at hNode
    cases hNode
  | childRepeated hNe hPush hNode hNote =>
    cases hMode
    obtain ⟨-, -, -, -, -, -, -, hFew, -⟩ := h.front hNe
    have hTable := h.table
    dsimp only at hTable
    rw [← hPush.table] at hTable
    cases (hNote.passes hTable hFew).1
  | childCapped hNe hPush hNode hNote hCap =>
    cases hMode
    obtain ⟨kids, rest, -, rfl, -⟩ := h.front hNe
    have hVisits := h.visits
    have hLength : it.visited = noted.length := h.visited
    rw [load_cons] at hVisits
    have hSame := hNote.same.visitCap.trans hPush.same.visitCap
    have hCount := hNote.visited
    rw [hPush.visited] at hCount
    rw [hSame] at hCap
    exact Or.inr ⟨rfl, by omega⟩
  | child hNe hPush hNode hNote hCap =>
    cases hMode
    obtain ⟨kids, rest, n, rfl, hn, hKids, hRest, hFew, -⟩ := h.front hNe
    cases hNode.symm.trans hn
    have hTable := h.table
    dsimp only at hTable
    rw [← hPush.table] at hTable
    have hSame := hNote.same.visitCap.trans hPush.same.visitCap
    refine ⟨hSame, c :: noted, ⟨c, false, kids, level⟩ :: xs, level, rest, ?_, ?_, ?_, ?_, ?_,
      (hNote.passes hTable hFew).2, ?_, Or.inr ⟨_, rfl, hRest⟩, h.once⟩
    · exact hNote.stack.trans (hPush.stack.trans (congrArg _ h.stack))
    · intro y hy
      rcases List.mem_cons.mp hy with rfl | hy
      · exact ⟨_, hn, hKids⟩
      · exact h.ok y hy
    · have hStacked := h.stacked
      rw [items, List.append_assoc] at hStacked
      exact hStacked
    · have hLength : it.visited = noted.length := h.visited
      show _ = (c :: noted).length
      rw [hNote.visited, hPush.visited, hLength, List.length_cons]
    · exact Nat.le_succ_of_le hCap
    · intro w
      have hBudget := h.budget w
      have hCost : (⟨c, false, kids, level⟩ : Item).cost s w =
        w c + again s w c + load s w kids := rfl
      rw [load_cons] at hBudget
      rw [List.map_cons, List.sum_cons, costs_cons, hCost]
      omega
  | done => cases hMode
  | capped => cases hMode
  | dropped => cases hMode
  | repeated => cases hMode
  | leaf => cases hMode
  | stuck => cases hMode
  | again => cases hMode
  | descend => cases hMode

/-- One pass. -/
theorem OnTrek.pass (hMem : ∀ i, mem i = true) {cap : Nat} (h : OnTrek s f cap p) :
    Trekked s f cap (TrieIter.pass mem s p) := by
  obtain ⟨it, mode⟩ := p
  obtain ⟨rfl, noted, xs, level, rem, hTrek⟩ := h
  cases mode with
  | none => exact hTrek.does_pop hMem (pop_does mem s it)
  | some c => exact hTrek.does_push hMem (child_does mem s it c)

end Steps

--
-- Calls
--

section Calls

variable {mem : Nat → Bool} {s : Store} {f : Forest} {it it' : TrieIter}
  {cap blockCount gen passes : Nat} {r : Except IterErrno Entry}

theorem OnTrek.within {p : TrieIter × Option Nat} (h : OnTrek s f cap p) : TrieIter.Within p := by
  obtain ⟨-, noted, xs, level, rem, hTrek⟩ := h
  exact fun _ => hTrek.within

/-- The loop. -/
theorem OnTrek.loop (hMem : ∀ i, mem i = true) (h : OnTrek s f cap (it, none))
    (hRun : runLoop (TrieIter.pass mem s) passes (it, none) = some (it', r)) :
    (∀ e, r = .ok e → OnTrek s f cap (it', none) ∧ it.SamePlace it') ∧
      ∀ err, r = .error err → TrekEnds s f cap err := by
  refine runLoop_of_inv (fun p => OnTrek s f cap p ∧ it.SamePlace p.1)
    (Q := fun q => (∀ e, q.2 = .ok e → OnTrek s f cap (q.1, none) ∧ it.SamePlace q.1) ∧
      ∀ err, q.2 = .error err → TrekEnds s f cap err) ?_ ?_ ⟨h, .refl it⟩ hRun
  · rintro p q ⟨hTrek, hSame⟩ hBody
    have hNext := hTrek.pass hMem
    have hDoes := pass_does mem s p
    rw [hBody] at hNext hDoes
    exact ⟨hNext, hSame.trans (hTrek.within.goes_on hDoes).2.2⟩
  · rintro p ⟨it₁, r₁⟩ ⟨hTrek, hSame⟩ hBody
    have hNext := hTrek.pass hMem
    have hDoes := pass_does mem s p
    rw [hBody] at hNext hDoes
    constructor
    · rintro e rfl
      exact ⟨hNext, hSame.trans (TrieIter.Within.returns hDoes).2⟩
    · rintro err rfl
      exact hNext

/-- `briefs_trie_iter_next` with no entry buffered. -/
theorem OnTrek.next (hMem : ∀ i, mem i = true) (h : OnTrek s f cap (it.withCap blockCount, none))
    (hGen : it.gen = gen) (hPending : it.pending = none)
    (hRun : it.next mem blockCount s gen passes = some (it', r)) :
    (∀ e, r = .ok e → OnTrek s f cap (it'.withCap blockCount, none) ∧ it'.gen = gen ∧
        it'.pending = none) ∧
      ∀ err, r = .error err → TrekEnds s f cap err := by
  obtain ⟨-, hBuffer, hSameGen, -⟩ := it.samePlace_withCap blockCount
  have hCap := it.visitCap_withCap blockCount
  unfold TrieIter.next at hRun
  rw [if_neg (not_not_intro hGen)] at hRun
  dsimp only at hRun
  generalize it.withCap blockCount = capped at *
  rw [hBuffer, hPending] at hRun
  obtain ⟨hOk, hError⟩ := h.loop hMem hRun
  refine ⟨fun e he => ?_, hError⟩
  obtain ⟨hTrek, hSame⟩ := hOk e he
  rw [TrieIter.withCap_of_ne (by rw [hSame.visitCap]; exact hCap)]
  exact ⟨hTrek, hSame.gen.trans (hSameGen.trans hGen), hSame.pending.trans (hBuffer.trans hPending)⟩

/-- Calls until the first error. -/
theorem OnTrek.drain (hMem : ∀ i, mem i = true) {err : IterErrno} {es : List Entry} :
    ∀ {calls : Nat} {it : TrieIter}, OnTrek s f cap (it.withCap blockCount, none) → it.gen = gen →
      it.pending = none → it.drain mem blockCount s gen passes calls = some (it', err, es) →
      TrekEnds s f cap err := by
  intro calls
  induction calls generalizing es with
  | zero => exact fun _ _ _ hRun => absurd hRun.symm (Option.some_ne_none _)
  | succ calls ih =>
    intro it h hGen hPending hRun
    rcases TrieIter.drain_cases hRun with ⟨hNext, -⟩ | ⟨it₁, e, rest, hNext, -, hDrain⟩
    · exact (h.next hMem hGen hPending hNext).2 err rfl
    · obtain ⟨hTrek, hGen₁, hPending₁⟩ := (h.next hMem hGen hPending hNext).1 e rfl
      exact ih hTrek hGen₁ hPending₁ hDrain

/-- A full iteration of a tree. -/
theorem drain_trekEnds {root : Nat} (hMem : ∀ i, mem i = true) (hChain : Chain s root f)
    (hSingle : f.width ≤ 1) (hFits : f.Fits (nameLen + 1)) (hOnce : f.refs.Nodup) {calls : Nat}
    {err : IterErrno} {es : List Entry}
    (hRun : (it.init root gen).drain mem blockCount s gen passes calls = some (it', err, es)) :
    TrekEnds s f (blockCount * slotsPerBlock + 1024) err := by
  have hCap : (it.init root gen).withCap blockCount =
    { it.init root gen with visitCap := blockCount * slotsPerBlock + 1024 } := if_pos rfl
  have hStart : OnTrek s f (blockCount * slotsPerBlock + 1024)
      ((it.init root gen).withCap blockCount, none) := by
    rw [hCap]
    refine ⟨rfl, [], items 0 f, 0, .nil, (entriesOf_items_single hChain hSingle).symm,
      ok_of_mem_items hChain, stacked_items_single hSingle hFits, rfl, Nat.zero_le _, ?_, ?_,
      Or.inl ⟨rfl, rfl⟩, hOnce⟩
    · rintro t ht
      cases ht
    · intro w
      have hZero : load s w .nil = 0 ∧ (([] : List Nat).map w).sum = 0 := ⟨rfl, rfl⟩
      omega
  exact hStart.drain hMem rfl rfl hRun

end Calls

--
-- The visits of a directory
--

namespace Limb

/-- The number of leaves with children. -/
def stems : Limb → Nat
  | nil => 0
  | cons _ l kids rest =>
    (if l.isLeaf ∧ kids.width ≠ 0 then 1 else 0) + kids.stems + rest.stems

variable {s : Store}

theorem refs_forest : ∀ t : Limb, t.forest.refs = t.refs
  | nil => rfl
  | cons r l kids rest => by
    rw [forest, Forest.refs, kids.refs_forest, rest.refs_forest]
    rfl

theorem width_forest : ∀ t : Limb, t.forest.width = t.width
  | nil => rfl
  | cons r l kids rest => by
    rw [forest, Forest.width, rest.width_forest]
    rfl

/-- The children of a node have different bytes, so that there are no more than 256. -/
theorem Shaped.fits : ∀ {t : Limb} {pre : List UInt8} {h : Nat}, Shaped pre t → t.levels ≤ h →
    t.forest.Fits h
  | nil, _, 0, _, _ => trivial
  | nil, _, _ + 1, _, _ => trivial
  | cons r l kids rest, _, 0, _, hLevels => by
    have hSome : max (kids.levels + 1) rest.levels ≤ 0 := hLevels
    omega
  | cons r l kids rest, pre, h + 1, ⟨_, _, _, hKids, hRest⟩, hLevels => by
    have hBoth : max (kids.levels + 1) rest.levels ≤ h + 1 := hLevels
    refine ⟨hKids.fits (by omega), ?_, hRest.fits (by omega)⟩
    rw [width_forest]
    exact hKids.width_le

theorem Held.head_eq_zero : ∀ {t : Limb}, Held s t 0 → (t.head 0 = 0 ↔ t.width = 0)
  | nil, _ => iff_of_true rfl rfl
  | cons _ _ _ _, ⟨hNe, _⟩ => iff_of_false hNe (Nat.succ_ne_zero _)

/-- Two visits of every node, and one more of a leaf with children. -/
theorem Held.load_eq : ∀ {t : Limb} {stop : Nat} {pre : List UInt8}, Held s t stop → Shaped pre t →
    pre.length + t.levels ≤ nameLen → load s (fun _ => 1) t.forest = 2 * t.refs.length + t.stems
  | nil, _, _, _, _, _ => rfl
  | cons r l kids rest, stop, pre, ⟨_, hNode, hKids, hRest⟩, ⟨hName, _, _, hShaped, hShapedRest⟩,
      hShort => by
    have hLevels : pre.length + max (kids.levels + 1) rest.levels ≤ nameLen := hShort
    have hBelow := hKids.load_eq hShaped (by rw [List.length_append, List.length_singleton]; omega)
    have hBeside := hRest.load_eq hShapedRest (by omega)
    have hAgain : again s (fun _ => 1) r = if l.isLeaf ∧ kids.width ≠ 0 then 1 else 0 := by
      rw [again_eq hNode, l.emits_node hName (by omega)]
      refine if_congr ?_ rfl rfl
      rw [Bool.and_eq_true, decide_eq_true_iff]
      exact and_congr_right' (not_congr hKids.head_eq_zero)
    rw [forest, load_cons, hBelow, hBeside, hAgain, refs, stems, List.length_cons,
      List.length_append]
    omega

end Limb

/-- The visits of a whole iteration. -/
theorem WellGrown.trekEnds {w : World} {root : Nat} {kids : Limb} (h : WellGrown w root kids)
    {mem : Nat → Bool} (hMem : ∀ i, mem i = true) {it it' : TrieIter}
    {blockCount gen passes calls : Nat} {err : IterErrno} {es : List Entry}
    (hRun : (it.init root gen).drain mem blockCount w.node gen passes calls = some (it', err, es)) :
    err = .eio ↔ blockCount * slotsPerBlock + 1024 < 2 * kids.refs.length + kids.stems := by
  have hOnce : ∀ {f : Forest} {total : Nat},
      TrekEnds w.node f (blockCount * slotsPerBlock + 1024) err →
      trekVisits w.node f = total → (err = .eio ↔ blockCount * slotsPerBlock + 1026 ≤ total) := by
    rintro f total (⟨rfl, hLow⟩ | ⟨rfl, hHigh⟩) hTotal
    · exact iff_of_false (fun hEq => by cases hEq) (by omega)
    · exact iff_of_true rfl (by omega)
  rcases h.tree with ⟨rfl, rfl⟩ | hSub
  · have hChain : Chain w.node 0 .nil := rfl
    rw [hOnce (drain_trekEnds hMem hChain (Nat.zero_le _) trivial List.nodup_nil hRun) rfl]
    show _ ≤ 0 ↔ _ < 2 * 0 + 0
    omega
  · have hKids : Chain w.node (kids.head 0) kids.forest := hSub.held.chain rfl
    have hChain : Chain w.node root (.cons root kids.forest .nil) :=
      ⟨rfl, hSub.ne, _, hSub.node, hKids, rfl⟩
    have hFits : (Forest.cons root kids.forest .nil).Fits (nameLen + 1) :=
      ⟨h.shaped.fits h.short, by rw [Limb.width_forest]; exact h.shaped.width_le, trivial⟩
    have hNodup : (Forest.cons root kids.forest .nil).refs.Nodup := by
      rw [Forest.refs, Limb.refs_forest, Forest.refs, List.append_nil]
      exact hSub.nodup
    have hTotal : trekVisits w.node (.cons root kids.forest .nil) =
        1 + (2 * kids.refs.length + kids.stems) := by
      have hShort : ([] : List UInt8).length + kids.levels ≤ nameLen := by
        rw [List.length_nil, Nat.zero_add]
        exact h.short
      have hLoad := hSub.held.load_eq h.shaped hShort
      have hRoot : again w.node (fun _ => 1) root = 0 := by
        rw [again_eq hSub.node]
        rfl
      show (1 + again w.node (fun _ => 1) root + load w.node (fun _ => 1) kids.forest) + 0 = _
      rw [hRoot, hLoad]
      omega
    rw [hOnce (drain_trekEnds hMem hChain (Nat.le_refl _) hFits hNodup hRun) hTotal]
    omega

/-- A full iteration with memory enough returns no -EIO exactly if twice the nodes below the root
and the leaves with children are not more than the cap on visits. -/
theorem guards_silent_iff {w : World} {root : Nat} {kids : Limb} (h : WellGrown w root kids)
    (blockCount gen : Nat) (it : TrieIter) :
    (∀ passes calls it' err es,
      (it.init root gen).drain (fun _ => true) blockCount w.node gen passes calls =
        some (it', err, es) → err ≠ .eio) ↔
      2 * kids.refs.length + kids.stems ≤ blockCount * slotsPerBlock + 1024 := by
  constructor
  · intro hSilent
    obtain ⟨passes, calls, ⟨it', err, es⟩, hRun⟩ :=
      TrieIter.drain_returns (fun _ => true) blockCount w.node gen (it.init root gen)
    have hNot := mt (h.trekEnds (fun _ => rfl) hRun).mpr (hSilent _ _ _ _ _ hRun)
    omega
  · intro hLow passes calls it' err es hRun hErr
    have hHigh := (h.trekEnds (fun _ => rfl) hRun).mp hErr
    omega

theorem guards_silent_pairWorld : WellGrown pairWorld 704 pairLimb ∧
    ∀ passes calls it' err es,
      (TrieIter.alloc.init 704 3).drain (fun _ => true) 4 pairWorld.node 3 passes calls =
        some (it', err, es) → err ≠ .eio :=
  ⟨wellGrown_pairWorld, (guards_silent_iff wellGrown_pairWorld 4 3 TrieIter.alloc).mpr (by decide)⟩

--
-- A directory that fills the device
--

/-- The nodes of a directory of 1125 names of two bytes, the root first: five times a node for
the first byte and 225 leaves. -/
def fullSlot (k : Nat) : Slot :=
  if k = 0 then ⟨705, 0, 0, 0, 0, 0, 0, true, false, 0, 5⟩
  else if (k - 1) % 226 = 0 then
    ⟨704 + k + 1, if (k - 1) / 226 = 4 then 0 else 704 + k + 226, 0, 0, 0, 1,
      UInt8.ofNat ((k - 1) / 226), true, false, 0, 225⟩
  else
    ⟨0, if (k - 1) % 226 = 225 then 0 else 704 + k + 1, k, 4, 4 * ((704 + k) % 64) + 4, 1,
      UInt8.ofNat ((k - 1) % 226), false, false, 1, 0⟩

/-- Their pages, with the names of the leaves. -/
def fullPage (b : Nat) : Page where
  liveCount   := if b = 28 then 43 else 64
  freeNameOff := 256
  free s      := decide (1834 < 64 * b + s)
  slots s     := if 1834 < 64 * b + s then Slot.zero else fullSlot (64 * b + s - 704)
  heap d      :=
    if d % 4 = 2 then UInt8.ofNat ((64 * b + (d - 1) / 4 - 704 - 1) / 226)
    else if d % 4 = 1 then UInt8.ofNat ((64 * b + (d - 1) / 4 - 704 - 1) % 226)
    else if d % 4 = 0 then 2 else 0

/-- A device of 19 data blocks, all of them in use. -/
def fullWorld : World where
  pages b     := if 11 ≤ b ∧ b ≤ 28 then some (fullPage b) else none
  alloc       := { Alloc.threeFree with
    l2 := fun _ => 0#64, blockCount := 19, freeCount := 0#64, hL2 := by decide }
  dataStart   := 10
  partials    := []
  hotBlock    := 0
  hotHint     := 0
  noScratch   := false
  trace       := []
  compactions := []

/-- The last `n` leaves for the first byte `j`. -/
def fullLeaves (j : Nat) : Nat → Limb
  | 0 => .nil
  | n + 1 => .cons (705 + 226 * j + (225 - n))
      ⟨1 + 226 * j + (225 - n), [UInt8.ofNat j, UInt8.ofNat (225 - n)], 1, UInt8.ofNat (225 - n),
        false, false, 1⟩ .nil (fullLeaves j n)

/-- The last `n` nodes for a first byte. -/
def fullBranches : Nat → Limb
  | 0 => .nil
  | n + 1 => .cons (705 + 226 * (4 - n)) ⟨0, [], 1, UInt8.ofNat (4 - n), true, false, 0⟩
      (fullLeaves (4 - n) 225) (fullBranches n)

theorem node_fullWorld {k : Nat} (hk : k ≤ 1130) : fullWorld.node (704 + k) =
    some ((fullSlot k).toNode ((fullPage ((704 + k) / 64)).nameBytes (fullSlot k))) := by
  have hPage : fullWorld.pages (refBlock (704 + k)) = some (fullPage ((704 + k) / 64)) := by
    have hIn : 11 ≤ (704 + k) / 64 ∧ (704 + k) / 64 ≤ 28 := by omega
    exact if_pos hIn
  have hBack : 64 * ((704 + k) / 64) + (704 + k) % 64 = 704 + k := Nat.div_add_mod _ _
  have hLow : ¬ 1834 < 704 + k := by omega
  have hUsed : (fullPage ((704 + k) / 64)).free ((704 + k) % 64) = false := by
    unfold fullPage
    dsimp only
    rw [hBack]
    exact decide_eq_false hLow
  have hSlot : (fullPage ((704 + k) / 64)).slots ((704 + k) % 64) = fullSlot k := by
    unfold fullPage
    dsimp only
    rw [hBack, if_neg hLow, Nat.add_sub_cancel_left]
  unfold World.node
  rw [if_neg (by omega), hPage]
  show (if (fullPage ((704 + k) / 64)).free ((704 + k) % 64) then none else _) = _
  rw [hUsed, if_neg Bool.false_ne_true]
  show some (((fullPage ((704 + k) / 64)).slots ((704 + k) % 64)).toNode
    ((fullPage ((704 + k) / 64)).nameBytes
      ((fullPage ((704 + k) / 64)).slots ((704 + k) % 64)))) = _
  rw [hSlot]

theorem fullLeaves_held {j : Nat} (hj : j ≤ 4) : ∀ n, n ≤ 225 →
    Limb.Held fullWorld.node (fullLeaves j n) 0
  | 0, _ => trivial
  | n + 1, hn => by
    refine ⟨by omega, ?_, trivial, fullLeaves_held hj n (by omega)⟩
    have hRef : 705 + 226 * j + (225 - n) = 704 + (1 + 226 * j + (225 - n)) := by omega
    rw [hRef, node_fullWorld (by omega)]
    generalize hk : 1 + 226 * j + (225 - n) = k
    have hDiv : (k - 1) / 226 = j := by omega
    have hMod : (k - 1) % 226 = 225 - n := by omega
    have hSlot : fullSlot k = ⟨0, if 225 - n = 225 then 0 else 704 + k + 1, k, 4,
        4 * ((704 + k) % 64) + 4, 1, UInt8.ofNat (225 - n), false, false, 1, 0⟩ := by
      unfold fullSlot
      rw [if_neg (by omega), if_neg (by omega), hMod]
    have hNext : (if 225 - n = 225 then 0 else 704 + k + 1) = (fullLeaves j n).head 0 := by
      cases n with
      | zero => rfl
      | succ n =>
        rw [if_neg (by omega)]
        show _ = 705 + 226 * j + (225 - n)
        omega
    have hFirst : (fullPage ((704 + k) / 64)).heap (4 * ((704 + k) % 64) + 4 - 2 - 0) =
        UInt8.ofNat j := by
      have hRest : 64 * ((704 + k) / 64) + (4 * ((704 + k) % 64) + 4 - 2 - 0 - 1) / 4 - 704 - 1 =
        k - 1 := by omega
      unfold fullPage
      dsimp only
      rw [if_pos (by omega), hRest, hDiv]
    have hSecond : (fullPage ((704 + k) / 64)).heap (4 * ((704 + k) % 64) + 4 - 2 - 1) =
        UInt8.ofNat (225 - n) := by
      have hRest : 64 * ((704 + k) / 64) + (4 * ((704 + k) % 64) + 4 - 2 - 1 - 1) / 4 - 704 - 1 =
        k - 1 := by omega
      unfold fullPage
      dsimp only
      rw [if_neg (by omega), if_pos (by omega), hRest, hMod]
    have hName : (fullPage ((704 + k) / 64)).nameBytes (fullSlot k) =
        [UInt8.ofNat j, UInt8.ofNat (225 - n)] := by
      rw [hSlot, ← hFirst, ← hSecond]
      rfl
    rw [hName, hSlot, hNext]
    rfl

theorem refs_full : 704 :: (fullBranches 5).refs = List.range' 704 1131 := by
  decide +kernel

theorem fullBranches_held : ∀ n, n ≤ 5 → Limb.Held fullWorld.node (fullBranches n) 0
  | 0, _ => trivial
  | n + 1, hn => by
    refine ⟨by omega, ?_, fullLeaves_held (by omega) 225 (Nat.le_refl _),
      fullBranches_held n (by omega)⟩
    have hRef : 705 + 226 * (4 - n) = 704 + (1 + 226 * (4 - n)) := by omega
    rw [hRef, node_fullWorld (by omega)]
    generalize hk : 1 + 226 * (4 - n) = k
    have hDiv : (k - 1) / 226 = 4 - n := by omega
    have hMod : (k - 1) % 226 = 0 := by omega
    have hSlot : fullSlot k = ⟨704 + k + 1, if 4 - n = 4 then 0 else 704 + k + 226, 0, 0, 0, 1,
        UInt8.ofNat (4 - n), true, false, 0, 225⟩ := by
      unfold fullSlot
      rw [if_neg (by omega), if_pos hMod, hDiv]
    have hFirst : 704 + k + 1 = (fullLeaves (4 - n) 225).head 0 := by
      show _ = 705 + 226 * (4 - n) + 1
      omega
    have hNext : (if 4 - n = 4 then 0 else 704 + k + 226) = (fullBranches n).head 0 := by
      cases n with
      | zero => rfl
      | succ n =>
        rw [if_neg (by omega)]
        show _ = 705 + 226 * (4 - n)
        omega
    have hWidth : (fullLeaves (4 - n) 225).width = 225 := rfl
    rw [hSlot, hFirst, hNext, hWidth]
    rfl

/-- The byte of a later sibling is higher. -/
theorem fullLeaves_bytes (j : Nat) : ∀ n, n ≤ 225 → ∀ b ∈ (fullLeaves j n).bytes, 225 - n < b.toNat
  | 0, _, b, hb => absurd hb List.not_mem_nil
  | n + 1, hn, b, hb => by
    rcases List.mem_cons.mp hb with rfl | hb
    · rw [UInt8.toNat_ofNat']
      omega
    · have hLater := fullLeaves_bytes j n (by omega) b hb
      omega

theorem fullLeaves_shaped (j : Nat) : ∀ n, n ≤ 225 →
    Limb.Shaped [UInt8.ofNat j] (fullLeaves j n) ∧ (fullLeaves j n).levels ≤ 1
  | 0, _ => ⟨trivial, Nat.zero_le _⟩
  | n + 1, hn => by
    obtain ⟨hShaped, hLevels⟩ := fullLeaves_shaped j n (by omega)
    refine ⟨⟨fun _ => rfl, fun _ => rfl, fun hIn => ?_, trivial, hShaped⟩, ?_⟩
    · have hLater := fullLeaves_bytes j n (by omega) _ hIn
      rw [UInt8.toNat_ofNat'] at hLater
      omega
    · show max (0 + 1) (fullLeaves j n).levels ≤ 1
      omega

/-- The nodes for the first bytes. -/
theorem fullBranches_shaped : ∀ n, n ≤ 5 → Limb.Shaped [] (fullBranches n) ∧
    (fullBranches n).levels ≤ 2 ∧ ∀ b ∈ (fullBranches n).bytes, 4 < b.toNat + n
  | 0, _ => ⟨trivial, Nat.zero_le _, fun b hb => absurd hb List.not_mem_nil⟩
  | n + 1, hn => by
    obtain ⟨hShaped, hLevels, hBytes⟩ := fullBranches_shaped n (by omega)
    obtain ⟨hLeaves, hOne⟩ := fullLeaves_shaped (4 - n) 225 (Nat.le_refl _)
    refine ⟨⟨?_, ?_, fun hIn => ?_, hLeaves, hShaped⟩, ?_, fun b hb => ?_⟩
    · exact fun hLeaf => Bool.noConfusion hLeaf
    · exact fun hPure => Bool.noConfusion hPure
    · have hLater := hBytes _ hIn
      rw [UInt8.toNat_ofNat'] at hLater
      omega
    · show max ((fullLeaves (4 - n) 225).levels + 1) (fullBranches n).levels ≤ 2
      omega
    · rcases List.mem_cons.mp hb with rfl | hb
      · rw [UInt8.toNat_ofNat']
        omega
      · have hLater := hBytes b hb
        omega

theorem wellGrown_fullWorld : WellGrown fullWorld 704 (fullBranches 5) := by
  obtain ⟨hShaped, hLevels, -⟩ := fullBranches_shaped 5 (Nat.le_refl _)
  refine ⟨Or.inr ⟨by decide, ?_, fullBranches_held 5 (Nat.le_refl _), ?_⟩, hShaped,
    hLevels.trans (by decide)⟩
  · exact node_fullWorld (Nat.zero_le _)
  · rw [refs_full]
    exact List.nodup_range'

/-- The nodes fill 18 of the 19 data blocks, and the iteration ends with -EIO. -/
theorem guards_fire_full : WellGrown fullWorld 704 (fullBranches 5) ∧
    fullWorld.alloc.blockCount = 19 ∧
    (∀ r ∈ 704 :: (fullBranches 5).refs,
      fullWorld.dataStart < refBlock r ∧ refBlock r < fullWorld.dataStart + 19) ∧
    ∃ passes calls it' es,
      (TrieIter.alloc.init 704 1).drain (fun _ => true) 19 fullWorld.node 1 passes calls =
        some (it', .eio, es) := by
  refine ⟨wellGrown_fullWorld, rfl, fun r hr => ?_, ?_⟩
  · rw [refs_full, List.mem_range'_1] at hr
    show 10 < r / 64 ∧ r / 64 < 10 + 19
    omega
  · obtain ⟨passes, calls, ⟨it', err, es⟩, hRun⟩ :=
      TrieIter.drain_returns (fun _ => true) 19 fullWorld.node 1 (TrieIter.alloc.init 704 1)
    have hLength := congrArg List.length refs_full
    rw [List.length_cons, List.length_range'] at hLength
    have hHigh : 19 * slotsPerBlock + 1024 <
        2 * (fullBranches 5).refs.length + (fullBranches 5).stems := by
      unfold slotsPerBlock
      omega
    obtain rfl := (wellGrown_fullWorld.trekEnds (fun _ => rfl) hRun).mpr hHigh
    exact ⟨_, _, it', es, hRun⟩

end Briefs.Trie
