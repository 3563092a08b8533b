import Briefs.Trie.Entry
import Briefs.Trie.Ends

/-!
# BrieFS — an iteration of a directory

What a walk emits follows from its stack and the links alone: `Yields` says what, without a word
of caps, tables and memory. Whatever those do, a call that returns an entry returns the next one
of these, and one that returns -ENOENT comes after the last. In a sound trie the walk from the
root yields the entries of the directory, every name after the names that it extends.

## Results

* `Yields.drain` — what the calls return until the first error, on any nodes.
* `iteration_complete` — the same for a directory, against lookups.
-/

namespace Briefs.Trie

open Briefs.Lib

--
-- What a stack stands for
--

/-- The entries that a walk emits from a stack on, with a child that is still to be pushed. -/
inductive Yields (s : Store) : List (Nat × Bool) → Option Nat → List Entry → Prop where
  | done : Yields s [] none []
  | dropped {x : Nat × Bool} {rest : List (Nat × Bool)} {es : List Entry} (hNode : s x.1 = none)
      (h : Yields s rest none es) : Yields s (x :: rest) none es
  | leaf {x : Nat × Bool} {rest : List (Nat × Bool)} {es : List Entry} {n : Node}
      (hNode : s x.1 = some n) (hEmits : x.2 = false ∧ n.emits = true) (hKids : n.firstChild = 0)
      (h : Yields s rest none es) : Yields s (x :: rest) none (n.entry :: es)
  | again {x : Nat × Bool} {rest : List (Nat × Bool)} {es : List Entry} {n : Node}
      (hNode : s x.1 = some n) (hEmits : x.2 = false ∧ n.emits = true) (hKids : n.firstChild ≠ 0)
      (h : Yields s ((x.1, true) :: rest) none es) : Yields s (x :: rest) none (n.entry :: es)
  | descend {x : Nat × Bool} {rest : List (Nat × Bool)} {es : List Entry} {n : Node}
      (hNode : s x.1 = some n) (hEmits : ¬ (x.2 = false ∧ n.emits = true))
      (h : Yields s rest (some n.firstChild) es) : Yields s (x :: rest) none es
  | pushed {stack : List (Nat × Bool)} {es : List Entry} (h : Yields s stack none es) :
      Yields s stack (some 0) es
  | broken {stack : List (Nat × Bool)} {es : List Entry} {c : Nat} (hNe : c ≠ 0)
      (hNode : s c = none) (h : Yields s ((c, false) :: stack) none es) : Yields s stack (some c) es
  | child {stack : List (Nat × Bool)} {es : List Entry} {c : Nat} {n : Node} (hNe : c ≠ 0)
      (hNode : s c = some n) (h : Yields s ((c, false) :: stack) (some n.nextSibling) es) :
      Yields s stack (some c) es

section Inversion

variable {s : Store} {x : Nat × Bool} {rest stack : List (Nat × Bool)} {es : List Entry} {n : Node}
  {c : Nat}

/-- A walk that has popped a node. -/
theorem Yields.popped (h : Yields s (x :: rest) none es) :
    (s x.1 = none ∧ Yields s rest none es) ∨ ∃ n, s x.1 = some n ∧
      ((x.2 = false ∧ n.emits = true ∧ ∃ es', es = n.entry :: es' ∧
          ((n.firstChild = 0 ∧ Yields s rest none es') ∨
            (n.firstChild ≠ 0 ∧ Yields s ((x.1, true) :: rest) none es'))) ∨
        (¬ (x.2 = false ∧ n.emits = true) ∧ Yields s rest (some n.firstChild) es)) := by
  cases h with
  | dropped hNode h => exact Or.inl ⟨hNode, h⟩
  | leaf hNode hEmits hKids h =>
    exact Or.inr ⟨_, hNode, Or.inl ⟨hEmits.1, hEmits.2, _, rfl, Or.inl ⟨hKids, h⟩⟩⟩
  | again hNode hEmits hKids h =>
    exact Or.inr ⟨_, hNode, Or.inl ⟨hEmits.1, hEmits.2, _, rfl, Or.inr ⟨hKids, h⟩⟩⟩
  | descend hNode hEmits h => exact Or.inr ⟨_, hNode, Or.inr ⟨hEmits, h⟩⟩

theorem Yields.of_none (h : Yields s (x :: rest) none es) (hNode : s x.1 = none) :
    Yields s rest none es := by
  rcases h.popped with ⟨-, hRest⟩ | ⟨m, hm, -⟩
  · exact hRest
  · rw [hNode] at hm
    cases hm

/-- The node emits its entry. -/
theorem Yields.of_emits (h : Yields s (x :: rest) none es) (hNode : s x.1 = some n)
    (hEmits : x.2 = false ∧ n.emits = true) : ∃ es', es = n.entry :: es' ∧
      ((n.firstChild = 0 ∧ Yields s rest none es') ∨
        (n.firstChild ≠ 0 ∧ Yields s ((x.1, true) :: rest) none es')) := by
  rcases h.popped with ⟨hNone, -⟩ | ⟨m, hm, ⟨-, -, hOut⟩ | ⟨hNot, -⟩⟩
  · rw [hNode] at hNone
    cases hNone
  · obtain rfl := Option.some.inj (hNode.symm.trans hm)
    exact hOut
  · obtain rfl := Option.some.inj (hNode.symm.trans hm)
    exact absurd hEmits hNot

theorem Yields.of_descend (h : Yields s (x :: rest) none es) (hNode : s x.1 = some n)
    (hEmits : ¬ (x.2 = false ∧ n.emits = true)) : Yields s rest (some n.firstChild) es := by
  rcases h.popped with ⟨hNone, -⟩ | ⟨m, hm, ⟨hFlag, hLeaf, -⟩ | ⟨-, hRest⟩⟩
  · rw [hNode] at hNone
    cases hNone
  · obtain rfl := Option.some.inj (hNode.symm.trans hm)
    exact absurd ⟨hFlag, hLeaf⟩ hEmits
  · obtain rfl := Option.some.inj (hNode.symm.trans hm)
    exact hRest

theorem Yields.of_zero (h : Yields s stack (some 0) es) : Yields s stack none es := by
  cases h with
  | pushed h => exact h
  | broken hNe _ _ => exact absurd rfl hNe
  | child hNe _ _ => exact absurd rfl hNe

theorem Yields.of_broken (h : Yields s stack (some c) es) (hNe : c ≠ 0) (hNode : s c = none) :
    Yields s ((c, false) :: stack) none es := by
  cases h with
  | pushed h => exact absurd rfl hNe
  | broken _ _ h => exact h
  | child _ hm _ =>
    rw [hNode] at hm
    cases hm

theorem Yields.of_child (h : Yields s stack (some c) es) (hNe : c ≠ 0) (hNode : s c = some n) :
    Yields s ((c, false) :: stack) (some n.nextSibling) es := by
  cases h with
  | pushed h => exact absurd rfl hNe
  | broken _ hNone _ =>
    rw [hNode] at hNone
    cases hNone
  | child _ hm h =>
    obtain rfl := Option.some.inj (hNode.symm.trans hm)
    exact h

end Inversion

section Calls

variable {mem : Nat → Bool} {s : Store} {it it' : TrieIter} {mode : Option Nat} {es : List Entry}
  {blockCount gen passes : Nat} {r : Except IterErrno Entry}

/-- What a pass leaves of what the walk emits. -/
def Continues (s : Store) (it : TrieIter) (es : List Entry) :
    (TrieIter × Option Nat) ⊕ (TrieIter × Except IterErrno Entry) → Prop
  | .inl (it', mode') => it.SamePlace it' ∧ Yields s it'.stack mode' es
  | .inr (it', .ok e) => it.SamePlace it' ∧ ∃ rest, es = e :: rest ∧ Yields s it'.stack none rest
  | .inr (it', .error err) => it.SamePlace it' ∧
    ((err = .enoent ∧ es = [] ∧ Yields s it'.stack none []) ∨ err = .eio ∨ err = .enomem)

theorem TrieIter.Fails.error {err : IterErrno} (h : it.Fails mem it' err) :
    err = .eio ∨ err = .enomem := by
  rcases h.cause with ⟨hErr, -⟩ | ⟨hErr, -⟩
  · exact Or.inl hErr
  · exact Or.inr hErr

theorem Yields.does (h : Yields s it.stack mode es)
    {out : (TrieIter × Option Nat) ⊕ (TrieIter × Except IterErrno Entry)}
    (hDoes : Does mem s (it, mode) out) : Continues s it es out := by
  cases hDoes with
  | done hStack =>
    refine ⟨.refl it, Or.inl ⟨rfl, ?_⟩⟩
    rw [hStack] at h ⊢
    cases h
    exact ⟨rfl, .done⟩
  | capped hStack hCap => exact ⟨.refl it, Or.inr (Or.inl rfl)⟩
  | dropped hStack hCap hNode =>
    rw [hStack] at h
    exact ⟨⟨rfl, rfl, rfl, rfl, rfl, rfl, rfl, rfl⟩, h.of_none hNode⟩
  | repeated hStack hCap hNode hNote => exact ⟨hNote.samePlace, Or.inr (Or.inl rfl)⟩
  | leaf hStack hCap hNode hNote hEmits hKids =>
    rw [hStack] at h
    obtain ⟨rest, hEs, ⟨-, hRest⟩ | ⟨hSome, -⟩⟩ := h.of_emits hNode hEmits
    · exact ⟨hNote.samePlace, rest, hEs, by rw [hNote.stack]; exact hRest⟩
    · exact absurd hKids hSome
  | stuck hStack hCap hNode hNote hEmits hKids hPush =>
    exact ⟨hNote.samePlace.trans hPush.same, Or.inr hPush.error⟩
  | again hStack hCap hNode hNote hEmits hKids hPush =>
    rw [hStack] at h
    obtain ⟨rest, hEs, ⟨hNone, -⟩ | ⟨-, hRest⟩⟩ := h.of_emits hNode hEmits
    · exact absurd hNone hKids
    · refine ⟨hNote.samePlace.trans hPush.same, rest, hEs, ?_⟩
      rw [hPush.stack, hNote.stack]
      exact hRest
  | descend hStack hCap hNode hNote hEmits =>
    rw [hStack] at h
    exact ⟨hNote.samePlace, by rw [hNote.stack]; exact h.of_descend hNode hEmits⟩
  | pushed => exact ⟨.refl it, h.of_zero⟩
  | full hNe hPush => exact ⟨hPush.same, Or.inr hPush.error⟩
  | broken hNe hPush hNode => exact ⟨hPush.same, by rw [hPush.stack]; exact h.of_broken hNe hNode⟩
  | childRepeated hNe hPush hNode hNote =>
    exact ⟨hPush.same.trans hNote.same, Or.inr (Or.inl rfl)⟩
  | childCapped hNe hPush hNode hNote hCap =>
    exact ⟨hPush.same.trans hNote.same, Or.inr (Or.inl rfl)⟩
  | child hNe hPush hNode hNote hCap =>
    exact ⟨hPush.same.trans hNote.same, by
      rw [hNote.stack, hPush.stack]; exact h.of_child hNe hNode⟩

/-- What one call returns when `left` is what the walk emits, a buffered entry first. -/
structure Tells (s : Store) (it : TrieIter) (left : List Entry) (it' : TrieIter)
    (r : Except IterErrno Entry) : Prop where
  gen     : it'.gen = it.gen
  emitIdx : it'.emitIdx = it.emitIdx
  ckpts   : it'.ckpts = it.ckpts
  yields  : (∃ e rest, left = e :: rest ∧ r = .ok e ∧ it'.pending = none ∧
      Yields s it'.stack none rest) ∨
    (left = [] ∧ r = .error .enoent ∧ it'.pending = none ∧ Yields s it'.stack none []) ∨
    r = .error .eio ∨ r = .error .enomem

/-- A call that returns an entry. -/
theorem Tells.ok {left : List Entry} {e : Entry} (h : Tells s it left it' (.ok e)) :
    ∃ rest, left = e :: rest ∧ it'.pending = none ∧ Yields s it'.stack none rest := by
  rcases h.yields with ⟨e', rest, hLeft, hOk, hNone, hRest⟩ | ⟨-, hErr, -⟩ | hErr | hErr
  · cases hOk
    exact ⟨rest, hLeft, hNone, hRest⟩
  · cases hErr
  · cases hErr
  · cases hErr

/-- A call that fails. -/
theorem Tells.error {left : List Entry} {err : IterErrno} (h : Tells s it left it' (.error err)) :
    (err = .enoent ∧ left = [] ∧ it'.pending = none ∧ Yields s it'.stack none []) ∨
      err = .eio ∨ err = .enomem := by
  rcases h.yields with ⟨e, rest, -, hOk, -⟩ | ⟨hNil, hErr, hNone, hEnd⟩ | hErr | hErr
  · cases hOk
  · cases hErr
    exact Or.inl ⟨rfl, hNil, hNone, hEnd⟩
  · cases hErr
    exact Or.inr (Or.inl rfl)
  · cases hErr
    exact Or.inr (Or.inr rfl)

/-- The loop. -/
theorem Yields.loop (h : Yields s it.stack none es) (hPending : it.pending = none)
    (hRun : runLoop (TrieIter.pass mem s) passes (it, none) = some (it', r)) :
    Tells s it es it' r := by
  refine runLoop_of_inv (fun p => it.SamePlace p.1 ∧ Yields s p.1.stack p.2 es)
    (Q := fun p => Tells s it es p.1 p.2) ?_ ?_ ⟨.refl it, h⟩ hRun
  · rintro ⟨it₁, m⟩ ⟨it₂, m'⟩ ⟨hSame, hYields⟩ hBody
    have hDoes := pass_does mem s (it₁, m)
    rw [hBody] at hDoes
    obtain ⟨hSame', hYields'⟩ := hYields.does hDoes
    exact ⟨hSame.trans hSame', hYields'⟩
  · rintro ⟨it₁, m⟩ ⟨it₂, r⟩ ⟨hSame, hYields⟩ hBody
    have hDoes := pass_does mem s (it₁, m)
    rw [hBody] at hDoes
    have hContinues := hYields.does hDoes
    cases r with
    | ok e =>
      obtain ⟨hSame', rest, hEs, hRest⟩ := hContinues
      have hAll := hSame.trans hSame'
      exact ⟨hAll.gen, hAll.emitIdx, hAll.ckpts,
        Or.inl ⟨e, rest, hEs, rfl, hAll.pending.trans hPending, hRest⟩⟩
    | error err =>
      obtain ⟨hSame', hWhy⟩ := hContinues
      have hAll := hSame.trans hSame'
      refine ⟨hAll.gen, hAll.emitIdx, hAll.ckpts, Or.inr ?_⟩
      rcases hWhy with ⟨rfl, hNil, hEnd⟩ | rfl | rfl
      · exact Or.inl ⟨hNil, rfl, hAll.pending.trans hPending, hEnd⟩
      · exact Or.inr (Or.inl rfl)
      · exact Or.inr (Or.inr rfl)

/-- `briefs_trie_iter_next` on any nodes. -/
theorem Yields.next (h : Yields s it.stack none es) (hGen : it.gen = gen)
    (hRun : it.next mem blockCount s gen passes = some (it', r)) :
    Tells s it (it.pending.toList ++ es) it' r := by
  obtain ⟨hStack, hPending, hSameGen, hIdx, hCkpts⟩ := it.samePlace_withCap blockCount
  unfold TrieIter.next at hRun
  rw [if_neg (not_not_intro hGen)] at hRun
  dsimp only at hRun
  generalize it.withCap blockCount = capped at *
  rw [← hStack] at h
  rw [hPending] at hRun
  cases hBuffer : it.pending with
  | some e =>
    rw [hBuffer] at hRun
    cases hRun
    exact ⟨hSameGen, hIdx, hCkpts, Or.inl ⟨e, es, rfl, rfl, rfl, h⟩⟩
  | none =>
    rw [hBuffer] at hRun
    have hTells := h.loop (hPending.trans hBuffer) hRun
    exact ⟨hTells.gen.trans hSameGen, hTells.emitIdx.trans hIdx, hTells.ckpts.trans hCkpts,
      hTells.yields⟩

/-- Calls until the first error: what they return are the first entries, and all of them if that
error is -ENOENT. -/
theorem Yields.drain {err : IterErrno} {out : List Entry} :
    ∀ {calls : Nat} {it : TrieIter} {es : List Entry}, Yields s it.stack none es → it.gen = gen →
      it.drain mem blockCount s gen passes calls = some (it', err, out) →
      (err = .enoent ∧ out = it.pending.toList ++ es) ∨
        ((err = .eio ∨ err = .enomem) ∧ out <+: it.pending.toList ++ es) := by
  intro calls
  induction calls generalizing out with
  | zero => exact fun _ _ hRun => absurd hRun.symm (Option.some_ne_none _)
  | succ calls ih =>
    intro it es h hGen hRun
    rcases TrieIter.drain_cases hRun with ⟨hNext, rfl⟩ | ⟨it₁, e, rest, hNext, rfl, hDrain⟩
    · rcases (h.next hGen hNext).error with ⟨hErr, hNil, -⟩ | hErr
      · exact Or.inl ⟨hErr, hNil.symm⟩
      · exact Or.inr ⟨hErr, List.nil_prefix⟩
    · have hTells := h.next hGen hNext
      obtain ⟨rest', hLeft, hPending, hRest⟩ := hTells.ok
      have hGo := ih hRest (hTells.gen.trans hGen) hDrain
      rw [hPending] at hGo
      rw [hLeft]
      rcases hGo with ⟨hErr, hOut⟩ | ⟨hErr, hOut⟩
      · exact Or.inl ⟨hErr, by rw [hOut]; rfl⟩
      · exact Or.inr ⟨hErr, List.cons_prefix_cons.mpr ⟨rfl, hOut⟩⟩

end Calls

--
-- The walk of a tree
--

section Tree

variable {s : Store} {r : Nat} {es : List Entry} {stack : List (Nat × Bool)}

/-- A chain is pushed whole. -/
theorem yields_push (level : Nat) : ∀ {f : Forest} {r : Nat} {stack : List (Nat × Bool)},
    Chain s r f → Yields s (entriesOf (items level f) ++ stack) none es →
      Yields s stack (some r) es := by
  intro f
  induction f with
  | nil =>
    intro r stack hChain h
    obtain rfl : r = 0 := hChain
    exact .pushed h
  | cons r' kids rest _ ih =>
    rintro r stack ⟨rfl, hNe, n, hn, -, hRest⟩ h
    refine .child hNe hn (ih hRest ?_)
    simpa [items, entriesOf] using h

/-- A chain that is on the stack emits its entries. -/
theorem yields_items (level : Nat) : ∀ {f : Forest} {r : Nat} {stack : List (Nat × Bool)}
    {es : List Entry}, Chain s r f → Yields s stack none es →
      Yields s (entriesOf (items level f) ++ stack) none (order s f ++ es) := by
  intro f
  induction f with
  | nil => exact fun _ h => h
  | cons r' kids rest ihKids ihRest =>
    rintro r stack es ⟨rfl, -, n, hn, hKids, hRest⟩ h
    have hDown : Yields s stack (some n.firstChild) (order s kids ++ es) :=
      yields_push level hKids (ihKids hKids h)
    -- the node itself, then its children
    have hHere : Yields s ((r, false) :: stack) none (entryAt s r ++ (order s kids ++ es)) := by
      have hEntry : entryAt s r = if n.emits then [n.entry] else [] := by
        unfold entryAt
        rw [hn]
      rw [hEntry]
      cases hEmits : n.emits with
      | false =>
        rw [if_neg Bool.false_ne_true]
        refine .descend hn (fun hBoth => ?_) hDown
        rw [hEmits] at hBoth
        exact Bool.false_ne_true hBoth.2
      | true =>
        rw [if_pos rfl]
        by_cases hFirst : n.firstChild = 0
        · have hNil : order s kids = [] := by
            rw [hFirst] at hKids
            cases kids with
            | nil => rfl
            | cons r'' kids' rest' => exact absurd rfl hKids.2.1
          rw [hNil]
          exact .leaf hn ⟨rfl, hEmits⟩ hFirst h
        · exact .again hn ⟨rfl, hEmits⟩ hFirst
            (.descend hn (fun hBoth => Bool.noConfusion hBoth.1) hDown)
    have hAll := ihRest hRest hHere
    simpa [items, entriesOf, order, List.append_assoc] using hAll

/-- The walk from the root. -/
theorem yields_init {f : Forest} (hChain : Chain s r f) (hSingle : f.width ≤ 1) (it : TrieIter)
    (gen : Nat) : Yields s (it.init r gen).stack none (order s f) := by
  have hItems := yields_items 0 hChain (.done : Yields s [] none [])
  rw [List.append_nil, List.append_nil, entriesOf_items_single hChain hSingle] at hItems
  exact hItems

end Tree

--
-- The entries of a limb
--

/-- A leaf with a name of that length is emitted. -/
theorem Label.emits_node (l : Label) {pre : List UInt8}
    (hName : l.isLeaf = true → l.name = pre ++ [l.byteVal]) (hShort : pre.length + 1 ≤ nameLen)
    {first next count : Nat} : (l.node first next count).emits = l.isLeaf := by
  unfold Node.emits
  show (l.isLeaf && decide (0 < l.name.length) && decide (l.name.length ≤ nameLen)) = l.isLeaf
  cases hLeaf : l.isLeaf with
  | false => rfl
  | true =>
    have hLen : l.name.length = pre.length + 1 := by
      rw [hName hLeaf, List.length_append, List.length_singleton]
    have hPos : 0 < l.name.length := by omega
    have hLe : l.name.length ≤ nameLen := by omega
    rw [decide_eq_true hPos, decide_eq_true hLe]
    rfl

namespace Limb

/-- The links of the limb, without the labels. -/
def forest : Limb → Forest
  | nil => .nil
  | cons r _ kids rest => .cons r kids.forest rest.forest

/-- The number of levels. -/
def levels : Limb → Nat
  | nil => 0
  | cons _ _ kids rest => max (kids.levels + 1) rest.levels

/-- The entries in the order of the walk. -/
def listing : Limb → List Entry
  | nil => []
  | cons _ l kids rest =>
    rest.listing ++ ((if l.isLeaf then [⟨l.name, l.inode, l.ftype⟩] else []) ++ kids.listing)

variable {s : Store} {pre : List UInt8} {t : Limb} {e : Entry}

theorem Held.chain : ∀ {t : Limb} {stop : Nat}, Held s t stop → stop = 0 →
    Chain s (t.head stop) t.forest
  | nil, _, _, hStop => hStop
  | cons _ _ _ _, _, ⟨hNe, hNode, hKids, hRest⟩, hStop =>
    ⟨rfl, hNe, _, hNode, hKids.chain rfl, hRest.chain hStop⟩

/-- The walk emits the entries of the labels. -/
theorem Held.order_eq : ∀ {t : Limb} {stop : Nat} {pre : List UInt8}, Held s t stop →
    Shaped pre t → pre.length + t.levels ≤ nameLen → order s t.forest = t.listing
  | nil, _, _, _, _, _ => rfl
  | cons r l kids rest, stop, pre, ⟨_, hNode, hKids, hRest⟩,
      ⟨hName, _, _, hShapedKids, hShapedRest⟩, hShort => by
    have hLevels : pre.length + max (kids.levels + 1) rest.levels ≤ nameLen := hShort
    have hEntry : entryAt s r = if l.isLeaf then [⟨l.name, l.inode, l.ftype⟩] else [] := by
      unfold entryAt
      rw [hNode]
      dsimp only
      rw [l.emits_node hName (by omega)]
      rfl
    show order s rest.forest ++ (entryAt s r ++ order s kids.forest) = _
    rw [hEntry, hRest.order_eq hShapedRest (by omega),
      hKids.order_eq hShapedKids (by rw [List.length_append, List.length_singleton]; omega)]
    rfl

/-- An entry of the walk is one that a lookup finds. -/
theorem Shaped.mem_listing : ∀ {t : Limb} {pre : List UInt8} {e : Entry}, Shaped pre t →
    (e ∈ t.listing ↔ ∃ bs, e.name = pre ++ bs ∧ t.find bs = some (e.ino, e.type))
  | nil, _, _, _ => by
    refine iff_of_false List.not_mem_nil ?_
    rintro ⟨bs, -, hFind⟩
    cases hFind
  | cons r l kids rest, pre, e, ⟨hName, _, hByte, hKids, hRest⟩ => by
    have hHere : e ∈ (if l.isLeaf then [(⟨l.name, l.inode, l.ftype⟩ : Entry)] else []) ↔
        e.name = pre ++ [l.byteVal] ∧ l.entry = some (e.ino, e.type) := by
      unfold Label.entry
      cases hLeaf : l.isLeaf with
      | false =>
        rw [if_neg Bool.false_ne_true, if_neg Bool.false_ne_true]
        exact iff_of_false List.not_mem_nil fun hBoth => absurd hBoth.2.symm (Option.some_ne_none _)
      | true =>
        rw [if_pos rfl, if_pos rfl, List.mem_singleton, ← hName hLeaf]
        constructor
        · rintro rfl
          exact ⟨rfl, rfl⟩
        · rintro ⟨hEq, hEntry⟩
          cases e with
          | mk name ino type =>
            cases hEntry
            cases hEq
            rfl
    show e ∈ rest.listing ++ (_ ++ kids.listing) ↔ _
    rw [List.mem_append, List.mem_append, hHere, hRest.mem_listing, hKids.mem_listing]
    constructor
    · rintro (⟨bs, hEq, hFind⟩ | ⟨hEq, hEntry⟩ | ⟨bs, hEq, hFind⟩)
      · cases bs with
        | nil =>
          rw [find_nil] at hFind
          cases hFind
        | cons b bs =>
          refine ⟨b :: bs, hEq, ?_⟩
          rw [find, if_neg]
          · exact hFind
          · rintro rfl
            rw [find_of_notMem hByte] at hFind
            cases hFind
      · refine ⟨[l.byteVal], hEq, ?_⟩
        rw [find, if_pos rfl, if_pos rfl]
        exact hEntry
      · refine ⟨l.byteVal :: bs, by rw [hEq, List.append_assoc]; rfl, ?_⟩
        have hNe : bs ≠ [] := by
          rintro rfl
          rw [find_nil] at hFind
          cases hFind
        rw [find, if_pos rfl, if_neg hNe]
        exact hFind
    · rintro ⟨bs, hEq, hFind⟩
      cases bs with
      | nil =>
        rw [find_nil] at hFind
        cases hFind
      | cons b bs =>
        rw [find] at hFind
        by_cases hb : l.byteVal = b
        · rw [if_pos hb] at hFind
          subst hb
          by_cases hNil : bs = []
          · rw [if_pos hNil] at hFind
            exact Or.inr (Or.inl ⟨by rw [hEq, hNil], hFind⟩)
          · rw [if_neg hNil] at hFind
            exact Or.inr (Or.inr ⟨bs, by rw [hEq, List.append_assoc]; rfl, hFind⟩)
        · rw [if_neg hb] at hFind
          exact Or.inl ⟨b :: bs, hEq, hFind⟩

/-- No name comes after one that it begins. -/
theorem Shaped.pairwise_listing : ∀ {t : Limb} {pre : List UInt8}, Shaped pre t →
    t.listing.Pairwise fun a b => ¬ b.name <+: a.name
  | nil, _, _ => List.Pairwise.nil
  | cons r l kids rest, pre, ⟨hName, _, hByte, hKids, hRest⟩ => by
    -- The names of this node and of those below it begin with its byte.
    have hBelow : ∀ b ∈ (if l.isLeaf then [(⟨l.name, l.inode, l.ftype⟩ : Entry)] else []) ++
        kids.listing, pre ++ [l.byteVal] <+: b.name := by
      intro b hb
      rcases List.mem_append.mp hb with hb | hb
      · cases hLeaf : l.isLeaf with
        | false =>
          rw [hLeaf, if_neg Bool.false_ne_true] at hb
          exact absurd hb List.not_mem_nil
        | true =>
          rw [hLeaf, if_pos rfl, List.mem_singleton] at hb
          rw [hb, hName hLeaf]
      · obtain ⟨bs, hEq, -⟩ := hKids.mem_listing.mp hb
        rw [hEq]
        exact List.prefix_append _ _
    show (rest.listing ++ (_ ++ kids.listing)).Pairwise _
    rw [List.pairwise_append, List.pairwise_append]
    refine ⟨hRest.pairwise_listing, ⟨?_, hKids.pairwise_listing, ?_⟩, ?_⟩
    · cases l.isLeaf with
      | false => exact List.Pairwise.nil
      | true => exact List.pairwise_singleton _ _
    · intro a ha b hb hPrefix
      cases hLeaf : l.isLeaf with
      | false =>
        rw [hLeaf, if_neg Bool.false_ne_true] at ha
        exact absurd ha List.not_mem_nil
      | true =>
        rw [hLeaf, if_pos rfl, List.mem_singleton] at ha
        obtain ⟨bs, hEq, hFind⟩ := hKids.mem_listing.mp hb
        rw [ha, hEq, hName hLeaf] at hPrefix
        have hLen := hPrefix.length_le
        rw [List.length_append] at hLen
        have hNil : bs = [] := List.length_eq_zero_iff.mp (by dsimp only at hLen; omega)
        rw [hNil, find_nil] at hFind
        cases hFind
    · intro a ha b hb hPrefix
      obtain ⟨bs, hEq, hFind⟩ := hRest.mem_listing.mp ha
      have hBegins := (hBelow b hb).trans hPrefix
      rw [hEq, List.prefix_append_right_inj] at hBegins
      cases bs with
      | nil =>
        rw [find_nil] at hFind
        cases hFind
      | cons c bs =>
        obtain rfl := (List.cons_prefix_cons.mp hBegins).1
        rw [find_of_notMem hByte] at hFind
        cases hFind

end Limb

--
-- The whole directory
--

/-- A well-formed trie: the root is no leaf, its tree spells out the names and no path is longer
than a name may be. -/
structure WellGrown (w : World) (root : Nat) (kids : Limb) : Prop where
  tree   : (root = 0 ∧ kids = .nil) ∨ Sub w.node root rootLabel 0 kids
  shaped : Limb.Shaped [] kids
  short  : kids.levels ≤ nameLen

section Directory

variable {w : World} {root : Nat} {kids : Limb}

theorem WellGrown.lookup (h : WellGrown w root kids) (name : List UInt8) :
    (trieLookup root name w).1 = answer (kids.find name) := by
  unfold trieLookup
  rcases h.tree with ⟨rfl, rfl⟩ | hSub
  · rw [if_pos rfl]
    rfl
  · rw [if_neg hSub.ne]
    have hLoop : lookupLoop name name root w = (answer (kids.find name), w) :=
      lookupLoop_find name hSub h.shaped rfl
    exact congrArg Prod.fst hLoop

theorem WellGrown.lookup_ok (h : WellGrown w root kids) {name : List UInt8} {e : Nat × Nat} :
    (trieLookup root name w).1 = .ok e ↔ kids.find name = some e := by
  rw [h.lookup]
  cases kids.find name with
  | none => exact iff_of_false (fun hEq => by cases hEq) (fun hEq => by cases hEq)
  | some e' =>
    constructor
    · intro hEq
      cases hEq
      rfl
    · intro hEq
      cases hEq
      rfl

/-- The walk from the root emits the listing. -/
theorem WellGrown.yields (h : WellGrown w root kids) (it : TrieIter) (gen : Nat) :
    Yields w.node (it.init root gen).stack none kids.listing := by
  rcases h.tree with ⟨rfl, rfl⟩ | hSub
  · exact .done
  have hKids : Chain w.node (kids.head 0) kids.forest := hSub.held.chain rfl
  have hChain : Chain w.node root (.cons root kids.forest .nil) :=
    ⟨rfl, hSub.ne, _, hSub.node, hKids, rfl⟩
  have hOrder : order w.node (.cons root kids.forest .nil) = kids.listing := by
    have hBare : entryAt w.node root = [] := by
      unfold entryAt
      rw [hSub.node]
      rfl
    rw [← hSub.held.order_eq h.shaped (by rw [List.length_nil]; have := h.short; omega)]
    show [] ++ (entryAt w.node root ++ order w.node kids.forest) = _
    rw [hBare]
    rfl
  have hYields := yields_init hChain (by rfl) it gen
  rwa [hOrder] at hYields

/-- Calls of `briefs_trie_iter_next` on a directory that does not change end with an error. They
return entries that a lookup finds, no name twice and none before a name of the directory that it
extends, and all of them if the error is -ENOENT. -/
theorem iteration_complete (h : WellGrown w root kids) (mem : Nat → Bool) (blockCount gen : Nat)
    (it : TrieIter) :
    (∃ passes calls r,
      (it.init root gen).drain mem blockCount w.node gen passes calls = some r) ∧
    ∀ passes calls it' err es,
      (it.init root gen).drain mem blockCount w.node gen passes calls = some (it', err, es) →
      (∀ e ∈ es, (trieLookup root e.name w).1 = .ok (e.ino, e.type)) ∧
      (es.map Entry.name).Nodup ∧
      (∀ before e after, es = before ++ e :: after → ∀ name found, name <+: e.name →
        name ≠ e.name → (trieLookup root name w).1 = .ok found → ∃ e' ∈ before, e'.name = name) ∧
      (err = .enoent → ∀ name ino type, (trieLookup root name w).1 = .ok (ino, type) →
        ⟨name, ino, type⟩ ∈ es) := by
  constructor
  · exact TrieIter.drain_returns mem blockCount w.node gen (it.init root gen)
  intro passes calls it' err es hRun
  have hMem : ∀ e, e ∈ kids.listing ↔ (trieLookup root e.name w).1 = .ok (e.ino, e.type) := by
    intro e
    rw [h.lookup_ok, h.shaped.mem_listing]
    constructor
    · rintro ⟨bs, hName, hFind⟩
      rw [hName]
      exact hFind
    · exact fun hFind => ⟨e.name, rfl, hFind⟩
  -- What is returned begins the listing, and is the listing after -ENOENT.
  have hPrefix : es <+: kids.listing ∧ (err = .enoent → es = kids.listing) := by
    rcases (h.yields it gen).drain rfl hRun with ⟨-, hAll⟩ | ⟨hErr, hSome⟩
    · exact ⟨by rw [hAll]; exact List.prefix_rfl, fun _ => hAll⟩
    · refine ⟨hSome, ?_⟩
      rintro rfl
      rcases hErr with hErr | hErr
      · cases hErr
      · cases hErr
  obtain ⟨rest, hRest⟩ := hPrefix.1
  have hOrder := h.shaped.pairwise_listing
  refine ⟨fun e he => (hMem e).mp (hPrefix.1.subset he), ?_, ?_, ?_⟩
  · rw [List.Nodup, List.pairwise_map]
    refine (hOrder.sublist hPrefix.1.sublist).imp fun hNot hEq => hNot ?_
    rw [hEq]
  · rintro before e after rfl name found hBegins hNe hFound
    have hListed : (⟨name, found.1, found.2⟩ : Entry) ∈ kids.listing := (hMem _).mpr hFound
    rw [← hRest, List.append_assoc] at hListed
    rcases List.mem_append.mp hListed with hBefore | hLater
    · exact ⟨_, hBefore, rfl⟩
    · rw [← hRest, List.append_assoc, List.pairwise_append] at hOrder
      rw [List.cons_append] at hLater hOrder
      rcases List.mem_cons.mp hLater with hHere | hAfter
      · exact absurd (congrArg Entry.name hHere) hNe
      · exact absurd hBegins ((List.pairwise_cons.mp hOrder.2.1).1 _ hAfter)
  · rintro hErr name ino type hFound
    rw [hPrefix.2 hErr]
    exact (hMem ⟨name, ino, type⟩).mpr hFound

/-- A directory with a name and a second one that begins it. -/
def pairWorld : World :=
  ((DirState.mk 0 bareWorld).run [.insert [97, 98] 5 1, .insert [97] 6 1]).world

/-- Its nodes. -/
def pairLimb : Limb :=
  .cons 705 ⟨6, [97], 1, 97, true, true, 1⟩
    (.cons 706 ⟨5, [97, 98], 1, 98, false, false, 1⟩ .nil .nil) .nil

theorem wellGrown_pairWorld : WellGrown pairWorld 704 pairLimb := by
  refine ⟨Or.inr ⟨by decide, by decide +kernel, ?_, by decide⟩, ?_, by decide⟩
  · exact ⟨by decide, by decide +kernel, ⟨by decide, by decide +kernel, trivial, trivial⟩, trivial⟩
  · refine ⟨fun _ => rfl, fun hPure => Bool.noConfusion hPure, List.not_mem_nil, ?_, trivial⟩
    exact ⟨fun _ => rfl, fun _ => rfl, List.not_mem_nil, trivial, trivial⟩

theorem iteration_complete_pairWorld : WellGrown pairWorld 704 pairLimb ∧
    ∀ passes calls it' es,
      (TrieIter.alloc.init 704 3).drain (fun _ => true) 4 pairWorld.node 3 passes calls =
        some (it', .enoent, es) → ⟨[97, 98], 5, 1⟩ ∈ es := by
  refine ⟨wellGrown_pairWorld, fun passes calls it' es hRun => ?_⟩
  have hAll := (iteration_complete wellGrown_pairWorld (fun _ => true) 4 3 TrieIter.alloc).2
    passes calls it' .enoent es hRun
  exact hAll.2.2.2 rfl [97, 98] 5 1 (by decide +kernel)

example :
    ((TrieIter.alloc.init 704 3).drain (fun _ => true) 4 pairWorld.node 3 9 9).map (fun r => r.2) =
      some (.enoent, [⟨[97], 6, 1⟩, ⟨[97, 98], 5, 1⟩]) := by
  decide +kernel

end Directory

end Briefs.Trie
