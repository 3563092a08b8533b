import Briefs.Trie.Walk
import Briefs.Trie.Page

/-!
# BrieFS — freeing a whole directory trie

`briefs_trie_free_all` walks the trie with a stack of 512 entries, collects the
reference of each node after those below it, clears `dir_trie_root` and frees what it
collected. A child is pushed only if `briefs_validate_trie_ref` accepts its reference
and the stack has room; an unacceptable reference ends the walk of its chain.

The check wants a slot other than 0 and a block below `s_blocksize` divided by the
size of a node, while slots are numbered from 0 and a page may be any data block.

## Results

* `collect_tops` — what one chain of siblings adds to the list.
* `freeAll_frees_iff` — every node is freed once exactly if all references below the
  root are acceptable to the check and the stack is deep enough.
-/

namespace Briefs.Trie

--
-- The walk of the source
--

/-- `sizeof(struct briefs_trie_node)`. -/
def nodeSize : Nat := 36

/-- `briefs_validate_trie_ref` returning 0. -/
def validateTrieRef (ref : Nat) : Bool :=
  decide (ref = 0) ||
    (!(decide (refSlot ref = 0) || decide (64 ≤ refSlot ref)) &&
      !decide (4096 / nodeSize ≤ refBlock ref))

/-- `stack_cap`. -/
def stackCap : Nat := 512

/-- The loop over the children of a node with `left` turns until the chain counts as
corrupted. The top of the stack is the head of the list; the flag is `state`. -/
def pushSiblings (s : Store) : Nat → Nat → List (Nat × Bool) → List (Nat × Bool)
  | 0, _, stack => stack
  | left + 1, child, stack =>
    if child = 0 then stack
    else if validateTrieRef child = false then stack
    else match s child with
      | none => stack
      | some cn =>
        if cn.nextSibling = child then stack
        else pushSiblings s left cn.nextSibling
          (if stack.length < stackCap then (child, false) :: stack else stack)

/-- The `while` loop of the first phase; `none` when `fuel` turns were not enough. -/
def collectRefs (s : Store) : Nat → List (Nat × Bool) → List Nat → Option (List Nat)
  | 0, _, _ => none
  | _ + 1, [], toFree => some toFree
  | fuel + 1, (ref, true) :: below, toFree => collectRefs s fuel below (toFree ++ [ref])
  | fuel + 1, (ref, false) :: below, toFree =>
    match s ref with
    | none => collectRefs s fuel below toFree
    | some node =>
      collectRefs s fuel (pushSiblings s 1000 node.firstChild ((ref, true) :: below)) toFree

/-- `briefs_trie_free_all`: `dir_trie_root` afterwards, and the calls of
`briefs_trie_free_node` in their order. -/
def freeAll (s : Store) (root fuel : Nat) : Option (Nat × List Nat) :=
  if root = 0 then some (root, [])
  else (collectRefs s fuel [(root, false)] []).map fun toFree => (0, toFree)

--
-- The walk on a forest
--

/-- What a chain of siblings leaves on a stack with `d` entries. -/
def siblingTops : Nat → Forest → List (Nat × Bool)
  | _, .nil => []
  | d, .cons r _ rest =>
    if validateTrieRef r = false then []
    else if d < stackCap then siblingTops (d + 1) rest ++ [(r, false)] else siblingTops d rest

/-- What is collected of a chain of siblings over a stack with `d` entries. -/
def kept : Nat → Forest → List Nat
  | _, .nil => []
  | d, .cons r kids rest =>
    if validateTrieRef r = true ∧ d < stackCap then kept (d + 1) rest ++ kept (d + 1) kids ++ [r]
    else []

theorem siblingTops_full {d : Nat} (hd : stackCap ≤ d) (f : Forest) : siblingTops d f = [] := by
  induction f with
  | nil => rfl
  | cons r kids rest _ ihRest =>
    unfold siblingTops
    rw [if_neg (show ¬ d < stackCap by omega), ihRest]
    simp

variable {s : Store}

/-- A sibling chain that is a chain of different nodes does not close on its first node. -/
theorem nextSibling_ne {n : Node} {r : Nat} {kids rest : Forest} (hNe : r ≠ 0)
    (hRest : Chain s n.nextSibling rest) (hOnce : (Forest.cons r kids rest).refs.Nodup) :
    n.nextSibling ≠ r := by
  intro hEq
  cases rest with
  | nil => exact hNe (hEq.symm.trans hRest)
  | cons r' kids' rest' =>
    obtain ⟨hHead, -⟩ := hRest
    rw [Forest.refs] at hOnce
    refine (List.nodup_cons.mp hOnce).1 (List.mem_append_right _ ?_)
    rw [Forest.refs, ← hHead, hEq]
    exact List.mem_cons_self

/-- The loop over the children pushes the tops of their chain. -/
theorem pushSiblings_eq {f : Forest} : ∀ {r left : Nat} {stack : List (Nat × Bool)},
    Chain s r f → f.refs.Nodup → f.width < left →
    pushSiblings s left r stack = siblingTops stack.length f ++ stack := by
  induction f with
  | nil =>
    intro r left stack hChain _ hLeft
    have hZero : r = 0 := hChain
    obtain ⟨left, rfl⟩ : ∃ k, left = k + 1 := ⟨left - 1, by omega⟩
    rw [pushSiblings, if_pos hZero]
    rfl
  | cons r' kids rest _ ihRest =>
    intro r left stack hChain hOnce hLeft
    obtain ⟨rfl, hNe, n, hn, -, hRest⟩ := hChain
    obtain ⟨left, rfl⟩ : ∃ k, left = k + 1 := ⟨left - 1, by omega⟩
    have hApart := nextSibling_ne hNe hRest hOnce
    rw [Forest.width] at hLeft
    rw [Forest.refs] at hOnce
    have hOnceRest : rest.refs.Nodup := (List.nodup_append.mp (List.nodup_cons.mp hOnce).2).2.1
    rw [pushSiblings, if_neg hNe, siblingTops]
    by_cases hValid : validateTrieRef r = false
    · rw [if_pos hValid, if_pos hValid]
      rfl
    · rw [if_neg hValid, if_neg hValid, hn]
      show (if n.nextSibling = r then stack else _) = _
      rw [if_neg hApart]
      by_cases hRoom : stack.length < stackCap
      · rw [if_pos hRoom, if_pos hRoom, ihRest hRest hOnceRest (by omega)]
        simp
      · rw [if_neg hRoom, if_neg hRoom, ihRest hRest hOnceRest (by omega)]

/-- No node has more children than the loop has turns. -/
def Narrow : Forest → Prop
  | .nil => True
  | .cons _ kids rest => kids.width < 1000 ∧ Narrow kids ∧ Narrow rest

theorem narrow_of_fits {f : Forest} : ∀ {h : Nat}, f.Fits h → Narrow f := by
  induction f with
  | nil =>
    intro h _
    trivial
  | cons r kids rest ihKids ihRest =>
    intro h hFits
    cases h with
    | zero => exact absurd hFits (by simp [Forest.Fits])
    | succ h =>
      obtain ⟨hKids, hWidth, hRest⟩ := hFits
      exact ⟨by omega, ihKids hKids, ihRest hRest⟩

/-- The walk of a chain of siblings collects what is kept of it and comes back to the
stack below. -/
theorem collect_tops {f : Forest} : ∀ {r : Nat} (below : List (Nat × Bool)) (out : List Nat),
    Chain s r f → f.refs.Nodup → Narrow f →
    ∃ m, ∀ fuel, collectRefs s (fuel + m) (siblingTops below.length f ++ below) out =
      collectRefs s fuel below (out ++ kept below.length f) := by
  induction f with
  | nil =>
    intro r below out _ _ _
    exact ⟨0, fun fuel => by simp [siblingTops, kept]⟩
  | cons r' kids rest ihKids ihRest =>
    intro r below out hChain hOnce hNarrow
    obtain ⟨rfl, hNe, n, hn, hKids, hRest⟩ := hChain
    obtain ⟨hWidth, hNarrowKids, hNarrowRest⟩ := hNarrow
    rw [Forest.refs] at hOnce
    obtain ⟨hOnceKids, hOnceRest, -⟩ := List.nodup_append.mp (List.nodup_cons.mp hOnce).2
    by_cases hIn : validateTrieRef r = true ∧ below.length < stackCap
    · -- the later siblings lie above this node, then its children, then the node itself
      obtain ⟨mRest, hmRest⟩ := ihRest ((r, false) :: below) out hRest hOnceRest hNarrowRest
      obtain ⟨mKids, hmKids⟩ := ihKids ((r, true) :: below)
        (out ++ kept (below.length + 1) rest) hKids hOnceKids hNarrowKids
      rw [List.length_cons] at hmRest hmKids
      refine ⟨mRest + mKids + 2, ?_⟩
      intro fuel
      rw [siblingTops, if_neg (by simp [hIn.1]), if_pos hIn.2, kept, if_pos hIn,
        List.append_assoc, List.singleton_append,
        show fuel + (mRest + mKids + 2) = fuel + 1 + mKids + 1 + mRest by omega, hmRest,
        collectRefs, hn]
      show collectRefs s (fuel + 1 + mKids) (pushSiblings s 1000 n.firstChild _) _ = _
      rw [pushSiblings_eq hKids hOnceKids hWidth, List.length_cons, hmKids, collectRefs]
      simp only [List.append_assoc]
    · have hTops : siblingTops below.length (.cons r kids rest) = [] := by
        unfold siblingTops
        by_cases hValid : validateTrieRef r = false
        · exact if_pos hValid
        · rw [if_neg hValid]
          have hFull : ¬ below.length < stackCap := fun hRoom => hIn ⟨by simpa using hValid, hRoom⟩
          rw [if_neg hFull, siblingTops_full (by omega)]
      refine ⟨0, ?_⟩
      intro fuel
      rw [hTops, kept, if_neg hIn]
      simp

--
-- What is kept
--

/-- The number of nodes on the longest path of first-child and next-sibling links. -/
def Forest.links : Forest → Nat
  | .nil => 0
  | .cons _ kids rest => max kids.links rest.links + 1

theorem mem_refs_of_kept {f : Forest} : ∀ {d a : Nat}, a ∈ kept d f → a ∈ f.refs := by
  induction f with
  | nil =>
    intro d a ha
    exact ha
  | cons r kids rest ihKids ihRest =>
    intro d a ha
    unfold kept at ha
    split at ha
    · rw [Forest.refs]
      rcases List.mem_append.mp ha with hBelow | hSelf
      · rcases List.mem_append.mp hBelow with hRest | hKids
        · exact List.mem_cons_of_mem _ (List.mem_append_right _ (ihRest hRest))
        · exact List.mem_cons_of_mem _ (List.mem_append_left _ (ihKids hKids))
      · rw [List.mem_singleton.mp hSelf]
        exact List.mem_cons_self
    · exact absurd ha List.not_mem_nil

/-- With acceptable references and room for every path all nodes are kept, each once. -/
theorem kept_perm {f : Forest} : ∀ {d : Nat}, (∀ r ∈ f.refs, validateTrieRef r = true) →
    d + f.links ≤ stackCap → (kept d f).Perm f.refs := by
  induction f with
  | nil =>
    intro d _ _
    exact List.Perm.nil
  | cons r kids rest ihKids ihRest =>
    intro d hValid hRoom
    rw [Forest.links] at hRoom
    rw [Forest.refs] at hValid ⊢
    have hr := hValid r List.mem_cons_self
    have hKids := ihKids (d := d + 1)
      (fun a ha => hValid a (List.mem_cons_of_mem _ (List.mem_append_left _ ha))) (by omega)
    have hRest := ihRest (d := d + 1)
      (fun a ha => hValid a (List.mem_cons_of_mem _ (List.mem_append_right _ ha))) (by omega)
    unfold kept
    rw [if_pos ⟨hr, by omega⟩]
    calc kept (d + 1) rest ++ kept (d + 1) kids ++ [r]
        _ |>.Perm (r :: (kept (d + 1) rest ++ kept (d + 1) kids)) :=
            List.perm_append_singleton r _
        _ |>.Perm (r :: (kept (d + 1) kids ++ kept (d + 1) rest)) :=
            (List.perm_append_comm).cons r
        _ |>.Perm (r :: (kids.refs ++ rest.refs)) := (hKids.append hRest).cons r

/-- If all nodes are kept, the references are acceptable and no path is too long. -/
theorem of_kept_all {f : Forest} : ∀ {d : Nat}, f.refs.Nodup → d ≤ stackCap →
    (∀ a ∈ f.refs, a ∈ kept d f) →
    (∀ r ∈ f.refs, validateTrieRef r = true) ∧ d + f.links ≤ stackCap := by
  induction f with
  | nil =>
    intro d _ hd _
    exact ⟨fun r hr => absurd hr List.not_mem_nil, hd⟩
  | cons r kids rest ihKids ihRest =>
    intro d hOnce hd hAll
    rw [Forest.refs] at hOnce hAll ⊢
    rw [Forest.links]
    obtain ⟨hFirst, hTail⟩ := List.nodup_cons.mp hOnce
    obtain ⟨hOnceKids, hOnceRest, hApart⟩ := List.nodup_append.mp hTail
    have hIn : validateTrieRef r = true ∧ d < stackCap := by
      have hr := hAll r List.mem_cons_self
      by_contra hNot
      rw [kept, if_neg hNot] at hr
      exact absurd hr List.not_mem_nil
    have hSplit : ∀ a ∈ kids.refs ++ rest.refs,
        a ∈ kept (d + 1) rest ∨ a ∈ kept (d + 1) kids := by
      intro a ha
      have hKept := hAll a (List.mem_cons_of_mem _ ha)
      rw [kept, if_pos hIn] at hKept
      rcases List.mem_append.mp hKept with hBelow | hSelf
      · exact List.mem_append.mp hBelow
      · rw [List.mem_singleton.mp hSelf] at ha
        exact absurd ha hFirst
    have hKids := ihKids (d := d + 1) hOnceKids (by omega) (fun a ha => by
      rcases hSplit a (List.mem_append_left _ ha) with hIn' | hIn'
      · exact absurd rfl (hApart a ha a (mem_refs_of_kept hIn'))
      · exact hIn')
    have hRest := ihRest (d := d + 1) hOnceRest (by omega) (fun a ha => by
      rcases hSplit a (List.mem_append_right _ ha) with hIn' | hIn'
      · exact hIn'
      · exact absurd rfl (hApart a (mem_refs_of_kept hIn') a ha))
    refine ⟨?_, by omega⟩
    intro a ha
    rcases List.mem_cons.mp ha with rfl | hBelow
    · exact hIn.1
    · rcases List.mem_append.mp hBelow with hK | hR
      · exact hKids.1 a hK
      · exact hRest.1 a hR

--
-- The whole call
--

/-- The call comes to an end with `dir_trie_root` 0, and it has called
`briefs_trie_free_node` exactly once for every node of the trie. -/
def Tree.FreedOnce (t : Tree) : Prop :=
  ∃ fuel calls, freeAll t.store t.root fuel = some (0, calls) ∧
    ∀ ref ∈ t.forest.refs, calls.count ref = 1

/-- More turns change nothing once the loop has ended. -/
theorem collectRefs_mono {fuel : Nat} : ∀ {stack : List (Nat × Bool)} {out calls : List Nat},
    collectRefs s fuel stack out = some calls → ∀ more,
    collectRefs s (fuel + more) stack out = some calls := by
  induction fuel with
  | zero =>
    intro stack out calls h
    cases h
  | succ fuel ih =>
    intro stack out calls h more
    rw [show fuel + 1 + more = fuel + more + 1 by omega]
    cases stack with
    | nil => exact h
    | cons top below =>
      obtain ⟨ref, state⟩ := top
      cases state with
      | true => exact ih h more
      | false =>
        rw [collectRefs] at h ⊢
        cases hRead : s ref with
        | none =>
          rw [hRead] at h
          exact ih h more
        | some node =>
          rw [hRead] at h
          exact ih h more

/-- The walk from the root ends with the nodes kept below it and the root. -/
theorem collectRefs_root {root : Nat} {kids : Forest}
    (hChain : Chain s root (.cons root kids .nil)) (hOnce : kids.refs.Nodup)
    (hWidth : kids.width < 1000) (hNarrow : Narrow kids) :
    ∃ m, collectRefs s m [(root, false)] [] = some (kept 1 kids ++ [root]) := by
  obtain ⟨-, -, n, hn, hKids, -⟩ := hChain
  obtain ⟨m, hm⟩ := collect_tops [(root, true)] [] hKids hOnce hNarrow
  refine ⟨2 + m + 1, ?_⟩
  rw [collectRefs, hn]
  show collectRefs s (2 + m) (pushSiblings s 1000 n.firstChild _) _ = _
  rw [pushSiblings_eq hKids hOnce hWidth, hm, collectRefs, collectRefs]
  rfl

/-- The calls of a finished walk do not depend on the turns it was given. -/
theorem collectRefs_unique {stack : List (Nat × Bool)} {out calls calls' : List Nat}
    {fuel fuel' : Nat} (h : collectRefs s fuel stack out = some calls)
    (h' : collectRefs s fuel' stack out = some calls') : calls = calls' := by
  have hMore := collectRefs_mono h fuel'
  have hMore' := collectRefs_mono h' fuel
  rw [Nat.add_comm, hMore] at hMore'
  exact Option.some.inj hMore'

/-- `briefs_trie_free_all` frees every node of a trie once, exactly if all references
below the root are acceptable to `briefs_validate_trie_ref` and no path of links from the
root has more nodes than the stack has entries. -/
theorem freeAll_frees_iff (t : Tree) :
    t.FreedOnce ↔ (∀ ref ∈ t.forest.refs, ref ≠ t.root → validateTrieRef ref = true) ∧
      t.forest.links ≤ stackCap := by
  have hChain := t.chain
  have hSingle := t.single
  have hFits := t.fits
  have hOnce := t.once
  unfold Tree.FreedOnce freeAll
  generalize t.forest = f at hChain hSingle hFits hOnce ⊢
  cases f with
  | nil =>
    have hRoot : t.root = 0 := hChain
    simp [hRoot, Forest.refs, Forest.links]
  | cons r kids rest =>
    have hAlone : rest = .nil := by
      cases rest with
      | nil => rfl
      | cons r' kids' rest' => simp [Forest.width] at hSingle
    subst hAlone
    obtain ⟨hRef, hNe, hRead⟩ := hChain
    subst hRef
    obtain ⟨hFitsKids, hWidth, -⟩ := hFits
    simp only [Forest.refs, List.append_nil] at hOnce ⊢
    obtain ⟨hRoot, hOnceKids⟩ := List.nodup_cons.mp hOnce
    obtain ⟨m, hm⟩ := collectRefs_root ⟨rfl, hNe, hRead⟩ hOnceKids (by omega)
      (narrow_of_fits hFitsKids)
    simp only [if_neg hNe]
    have hLinks : (Forest.cons t.root kids .nil).links = 1 + kids.links := by
      simp [Forest.links, Nat.add_comm]
    rw [hLinks]
    constructor
    · rintro ⟨fuel, calls, hCalls, hAll⟩
      obtain ⟨calls', hWalk, hSame⟩ := Option.map_eq_some_iff.mp hCalls
      have hEq : calls = kept 1 kids ++ [t.root] := by
        rw [← collectRefs_unique hWalk hm]
        exact (Prod.mk.inj hSame).2.symm
      have hKept : ∀ a ∈ kids.refs, a ∈ kept 1 kids := by
        intro a ha
        have hOne := hAll a (List.mem_cons_of_mem _ ha)
        have hMem : a ∈ calls := List.count_pos_iff.mp (by omega)
        rw [hEq] at hMem
        rcases List.mem_append.mp hMem with hIn | hIn
        · exact hIn
        · rw [List.mem_singleton.mp hIn] at ha
          exact absurd ha hRoot
      obtain ⟨hValid, hRoom⟩ := of_kept_all hOnceKids (by decide) hKept
      refine ⟨?_, hRoom⟩
      intro a ha hNotRoot
      rcases List.mem_cons.mp ha with hEqRoot | hBelow
      · exact absurd hEqRoot hNotRoot
      · exact hValid a hBelow
    · rintro ⟨hValid, hRoom⟩
      have hPerm : (kept 1 kids).Perm kids.refs := by
        refine kept_perm ?_ hRoom
        intro a ha
        refine hValid a (List.mem_cons_of_mem _ ha) ?_
        rintro rfl
        exact hRoot ha
      refine ⟨m, _, by rw [hm]; rfl, ?_⟩
      intro a ha
      have hAll : (kept 1 kids ++ [t.root]).Perm (t.root :: kids.refs) :=
        (List.perm_append_singleton t.root _).trans (hPerm.cons t.root)
      rw [hAll.count_eq]
      exact List.count_eq_one_of_mem hOnce ha

/-- A directory with the entry "a", its two nodes in slots 0 and 1 of block 200. -/
def oneEntry : Tree where
  store    := fun r =>
    if r = 12800 then some ⟨12801, 0, 0, [], 0, 0, true, false, 0, 1⟩
    else if r = 12801 then some ⟨0, 0, 5, [97], 1, 97, false, false, 1, 0⟩ else none
  root     := 12800
  forest   := .cons 12800 (.cons 12801 .nil .nil) .nil
  chain    := ⟨rfl, by decide, _, rfl, ⟨rfl, by decide, _, rfl, rfl, rfl⟩, rfl⟩
  single   := by decide
  fits     := ⟨⟨trivial, by decide, trivial⟩, by decide, trivial⟩
  once     := by decide
  distinct := by decide

/-- The reference of the node of "a" names a block past 4096 / 36, so only the root is
freed. -/
theorem freeAll_leaks_child :
    freeAll oneEntry.store oneEntry.root 4 = some (0, [12800]) ∧ ¬ oneEntry.FreedOnce := by
  have hWalk : collectRefs oneEntry.store 4 [(oneEntry.root, false)] [] = some [12800] := by
    decide
  refine ⟨by decide, ?_⟩
  rintro ⟨fuel, calls, hCalls, hAll⟩
  obtain ⟨calls', hWalk', hSame⟩ := Option.map_eq_some_iff.mp hCalls
  have hEq : calls = [12800] := by
    rw [← collectRefs_unique hWalk' hWalk]
    exact (Prod.mk.inj hSame).2.symm
  have hOne := hAll 12801 (by decide)
  rw [hEq] at hOne
  exact absurd hOne (by decide)

end Briefs.Trie
