import Briefs.Trie.Walk

/-!
# BrieFS — is a directory empty?

`briefs_empty_dir` takes one step of a fresh trie iterator and calls the directory empty
unless the step yields an entry. Here the step is modelled with everything that can go
wrong in it: a node may be unreadable when its parent pushes it and when it is popped,
the stack may fail to grow, and the iterator, the name buffer and the revisit table may
not be had. Each node is read at most once for each of the two purposes and each capacity
is asked for once, so that these choices cover every pattern of failures.

An unreadable node is skipped, with all siblings after it, and an error ends the step;
both count as "no entry found". The callers, `briefs_rmdir` and the two paths of rename
that replace a directory, go on to remove the directory unless the check refuses.

## Results

* `loop_look` — the stack machine does what the recursive search `look` does.
* `emptyDir_sound_iff` — exactly when a directory that is taken for empty is empty.
* `emptyDir_skips_unreadable` — one unreadable block makes a directory look empty.
-/

namespace Briefs.Trie

--
-- The step with failures
--

/-- What fails during the check. -/
structure ScanFaults where
  /-- `briefs_trie_iter_alloc` returns NULL. -/
  noIter  : Bool
  /-- The name buffer cannot be allocated. -/
  noName  : Bool
  /-- The revisit table cannot be allocated. -/
  noTable : Bool
  /-- The node cannot be read when it is pushed. -/
  badPush : Nat → Bool
  /-- The node cannot be read when it is popped. -/
  badPop  : Nat → Bool
  /-- The stack cannot be grown to this capacity. -/
  badGrow : Nat → Bool

/-- The errors of the step. -/
inductive ScanError where
  | enoent
  | eio
  | enomem
deriving DecidableEq, Repr

/-- The iterator with the capacity of its stack. -/
structure Scan where
  it  : Iter
  cap : Nat

/-- `trie_iter_grow`: the stack never has more than `cap` entries, so doubling once is
enough for one more. -/
def grow (F : ScanFaults) (cap need : Nat) : Except ScanError Nat :=
  if need ≤ cap then .ok cap
  else if iterMaxSp < 2 * cap then .error .eio
  else if F.badGrow (2 * cap) then .error .enomem
  else .ok (2 * cap)

/-- `trie_iter_push`. -/
def Scan.push (F : ScanFaults) (sc : Scan) (ref : Nat) (emitted : Bool) : Except ScanError Scan :=
  match grow F sc.cap (sc.it.stack.length + 1) with
  | .error e => .error e
  | .ok cap => .ok ⟨{ sc.it with stack := (ref, emitted) :: sc.it.stack }, cap⟩

/-- `trie_iter_note_visit`; without the table only the visits are counted. -/
def Scan.note (F : ScanFaults) (sc : Scan) (ref : Nat) : Except ScanError Scan :=
  if F.noTable then .ok { sc with it := { sc.it with visited := sc.it.visited + 1 } }
  else match sc.it.noteVisit ref with
    | (_, some _) => .error .eio
    | (it, none) => .ok { sc with it := it }

/-- `trie_read_node`, where it may fail. -/
def readNode (bad : Nat → Bool) (s : Store) (ref : Nat) : Option Node :=
  if bad ref then none else s ref

/-- The loop that pushes the children of a node. -/
def Scan.pushChildren (F : ScanFaults) (s : Store) : Nat → Scan → Nat → Except ScanError Scan
  | 0, _, _ => .error .eio
  | fuel + 1, sc, child =>
    if child = 0 then .ok sc
    else match sc.push F child false with
      | .error e => .error e
      | .ok sc => match readNode F.badPush s child with
        | none => .ok sc
        | some cn => match sc.note F child with
          | .error e => .error e
          | .ok sc =>
            if sc.it.visitCap < sc.it.visited then .error .eio
            else sc.pushChildren F s fuel cn.nextSibling

/-- The main loop of `briefs_trie_iter_next`. -/
def Scan.next (F : ScanFaults) (s : Store) : Nat → Scan → Except ScanError Entry
  | 0, _ => .error .eio
  | fuel + 1, sc => match sc.it.stack with
    | [] => .error .enoent
    | (ref, emitted) :: rest =>
      if sc.it.visitCap < sc.it.visited then .error .eio
      else
        let sc := { sc with it := { sc.it with stack := rest } }
        match readNode F.badPop s ref with
        | none => sc.next F s fuel
        | some node => match sc.note F ref with
          | .error e => .error e
          | .ok sc =>
            if !emitted && node.emits then
              -- a leaf with children is pushed again, to descend later
              if node.firstChild = 0 then .ok node.entry
              else match sc.push F ref true with
                | .error e => .error e
                | .ok _ => .ok node.entry
            else match sc.pushChildren F s fuel node.firstChild with
              | .error e => .error e
              | .ok sc => sc.next F s fuel

/-- The answer of `briefs_empty_dir`: go on, or return an error. -/
inductive Verdict where
  | proceed
  | notEmpty
  | noMemory
deriving DecidableEq, Repr

/-- The iterator at the root, with the initial capacity of 256. -/
def Scan.start (blockCount root : Nat) : Scan where
  it  := (Iter.alloc.init root 0).withCap blockCount
  cap := 256

/-- `briefs_empty_dir`, which `briefs_rmdir` and the replacing paths of rename call. -/
def emptyDir (F : ScanFaults) (blockCount : Nat) (s : Store) (root fuel : Nat) : Verdict :=
  if root = 0 then .proceed
  else if F.noIter then .noMemory
  else if F.noName then .noMemory
  else match (Scan.start blockCount root).next F s fuel with
    | .ok _ => .notEmpty
    | .error _ => .proceed

--
-- The recursive search
--

/-- How a search ends: with an entry, at a limit, or with nothing after so many visits. -/
inductive Look where
  | found
  | stuck
  | spent (cap visits : Nat)
deriving DecidableEq, Repr

/-- A chain is put on a stack of `sp` entries, up to the first node that cannot be read. -/
def pushAll (F : ScanFaults) (limit : Nat) : Forest → Nat → Nat → Nat → Look
  | .nil, _, cap, v => .spent cap v
  | .cons r _ rest, sp, cap, v =>
    match grow F cap (sp + 1) with
    | .error _ => .stuck
    | .ok cap =>
      if F.badPush r then .spent cap v
      else if limit < v + 1 then .stuck
      else pushAll F limit rest (sp + 1) cap (v + 1)

/-- Does the node at the reference end a name? -/
def emitsAt (s : Store) (r : Nat) : Bool :=
  (s r).any Node.emits

/-- The search through a chain that lies above `sp` entries: the last node that was pushed
comes first, and its children before the nodes that were pushed earlier. -/
def look (F : ScanFaults) (s : Store) (limit : Nat) : Forest → Nat → Nat → Nat → Look
  | .nil, _, cap, v => .spent cap v
  | .cons r kids rest, sp, cap, v =>
    match (if F.badPush r then .spent cap v else look F s limit rest (sp + 1) cap v) with
    | .spent cap v =>
      if limit < v then .stuck
      else if F.badPop r then .spent cap v
      else if emitsAt s r then .found
      else match pushAll F limit kids sp cap (v + 1) with
        | .spent cap v => look F s limit kids sp cap v
        | x => x
    | x => x

/-- An entry can be seen: it is read itself, as are all nodes above it, and no sibling
before one of them was unreadable when it was pushed. -/
def Visible (F : ScanFaults) (s : Store) : Forest → Prop
  | .nil => False
  | .cons r kids rest =>
    (F.badPush r = false ∧ Visible F s rest) ∨
      (F.badPop r = false ∧ (emitsAt s r = true ∨ Visible F s kids))

theorem pushAll_ne_found (F : ScanFaults) (limit : Nat) (f : Forest) (sp cap v : Nat) :
    pushAll F limit f sp cap v ≠ .found := by
  induction f generalizing sp cap v with
  | nil => exact nofun
  | cons r kids rest _ ih =>
    unfold pushAll
    split
    · exact nofun
    · split_ifs
      · exact nofun
      · exact nofun
      · exact ih _ _ _

theorem visible_of_found (F : ScanFaults) (s : Store) (limit : Nat) {f : Forest} {sp cap v : Nat}
    (h : look F s limit f sp cap v = .found) : Visible F s f := by
  induction f generalizing sp cap v with
  | nil => cases h
  | cons r kids rest ihKids ihRest =>
    unfold look at h
    split at h
    · split_ifs at h with hLimit hPop hEmits
      · exact Or.inr ⟨by simpa using hPop, Or.inl hEmits⟩
      · split at h
        · exact Or.inr ⟨by simpa using hPop, Or.inr (ihKids h)⟩
        · exact absurd h (pushAll_ne_found F limit kids _ _ _)
    · split_ifs at h with hPush
      exact Or.inl ⟨by simpa using hPush, ihRest h⟩

theorem not_visible_of_spent (F : ScanFaults) (s : Store) (limit : Nat) {f : Forest}
    {sp cap v cap' v' : Nat} (h : look F s limit f sp cap v = .spent cap' v') :
    ¬ Visible F s f := by
  induction f generalizing sp cap v cap' v' with
  | nil => exact id
  | cons r kids rest ihKids ihRest =>
    unfold look at h
    split at h
    · rename_i cap₁ v₁ hBefore
      have hRest : ¬ (F.badPush r = false ∧ Visible F s rest) := by
        rintro ⟨hPush, hVisible⟩
        rw [hPush] at hBefore
        exact ihRest hBefore hVisible
      have hHere : ¬ (F.badPop r = false ∧ (emitsAt s r = true ∨ Visible F s kids)) := by
        rintro ⟨hPop, hSeen⟩
        rw [hPop] at h
        split_ifs at h with hLimit hNo hEmits
        · exact hNo
        · split at h
          · exact hSeen.elim hEmits (ihKids h)
          · rename_i hNot
            exact hNot _ _ h
      exact fun hVisible => hVisible.elim hRest hHere
    · rename_i hNot
      exact absurd h (hNot _ _)

/-- Whether an entry is found: unless the search gets stuck, exactly if one can be seen. -/
theorem found_iff_visible (F : ScanFaults) (s : Store) (limit : Nat) (f : Forest)
    (sp cap v : Nat) :
    look F s limit f sp cap v = .found ↔ Visible F s f ∧ look F s limit f sp cap v ≠ .stuck := by
  constructor
  · intro hFound
    refine ⟨visible_of_found F s limit hFound, ?_⟩
    rw [hFound]
    exact nofun
  · rintro ⟨hVisible, hStuck⟩
    cases hLook : look F s limit f sp cap v with
    | found => rfl
    | stuck => exact absurd hLook hStuck
    | spent cap' v' => exact absurd hVisible (not_visible_of_spent F s limit hLook)

--
-- The stack machine follows the search
--

/-- The stack entries of a pushed chain, up to the first node that could not be read. -/
def tops (F : ScanFaults) : Forest → List (Nat × Bool)
  | .nil => []
  | .cons r _ rest => (if F.badPush r then [] else tops F rest) ++ [(r, false)]

/-- The visits a pushed chain can still cause, weighed: one of each node of the chain,
two of each node below. -/
def toCome (w : Nat → Nat) : Forest → Nat
  | .nil => 0
  | .cons r kids rest => w r + 2 * kids.weigh w + toCome w rest

theorem toCome_le (w : Nat → Nat) (f : Forest) : toCome w f ≤ 2 * f.weigh w := by
  induction f with
  | nil => exact le_refl _
  | cons r kids rest _ ih =>
    rw [toCome, Forest.weigh]
    omega

/-- The weight that counts one reference. -/
def only (a : Nat) : Nat → Nat :=
  fun r => if r = a then 1 else 0

theorem count_cons_only (r a : Nat) (noted : List Nat) :
    (r :: noted).count a = noted.count a + only a r := by
  rw [List.count_cons, only]
  simp only [beq_iff_eq]

/-- The scan has this stack, capacity and limit, and has made these visits. -/
structure Stands (sc : Scan) (stack : List (Nat × Bool)) (cap limit : Nat) (noted : List Nat) :
    Prop where
  stackIs : sc.it.stack = stack
  capIs   : sc.cap = cap
  limitIs : sc.it.visitCap = limit
  some    : 0 < cap
  room    : stack.length ≤ cap
  counted : Counted sc.it noted

theorem Stands.note {F : ScanFaults} {sc : Scan} {stack : List (Nat × Bool)} {cap limit : Nat}
    {noted : List Nat} (h : Stands sc stack cap limit noted) {ref : Nat}
    (hFew : noted.count ref < refMaxVisits) :
    ∃ sc', sc.note F ref = .ok sc' ∧ Stands sc' stack cap limit (ref :: noted) := by
  unfold Scan.note
  by_cases hTable : F.noTable = true
  · rw [if_pos hTable]
    refine ⟨_, rfl, h.stackIs, h.capIs, h.limitIs, h.some, h.room, ?_, ?_⟩
    · show sc.it.visited + 1 = (ref :: noted).length
      rw [h.counted.visited, List.length_cons]
    · intro i
      exact le_trans (h.counted.table i)
        (List.Sublist.count_le _ (List.sublist_cons_self ref noted))
  · rw [if_neg hTable]
    obtain ⟨it, hNote, hSame, hStack, hCounted⟩ := h.counted.noteVisit hFew
    rw [hNote]
    exact ⟨_, rfl, hStack.trans h.stackIs, h.capIs, hSame.visitCap.trans h.limitIs, h.some, h.room,
      hCounted⟩

theorem grow_ok {F : ScanFaults} {cap need cap' : Nat} (h : grow F cap need = .ok cap')
    (hSome : 0 < cap) (hNeed : need ≤ cap + 1) : 0 < cap' ∧ need ≤ cap' := by
  unfold grow at h
  split_ifs at h with hFits
  · cases h
    exact ⟨hSome, hFits⟩
  · cases h
    omega

theorem Stands.push {F : ScanFaults} {sc : Scan} {stack : List (Nat × Bool)} {cap limit : Nat}
    {noted : List Nat} (h : Stands sc stack cap limit noted) (ref : Nat) (emitted : Bool)
    {cap' : Nat} (hGrow : grow F cap (stack.length + 1) = .ok cap') :
    ∃ sc', sc.push F ref emitted = .ok sc' ∧
      Stands sc' ((ref, emitted) :: stack) cap' limit noted := by
  have hRoom := h.room
  obtain ⟨hSome, hFits⟩ := grow_ok hGrow h.some (by omega)
  unfold Scan.push
  rw [h.stackIs, h.capIs, hGrow]
  exact ⟨_, rfl, rfl, rfl, h.limitIs, hSome, hFits, h.counted.withStack _⟩

/-- The loop that pushes a chain against `pushAll`. -/
theorem pushChildren_pushAll (F : ScanFaults) {s : Store} {r : Nat} {f : Forest}
    (hChain : Chain s r f) {sc : Scan} {stack : List (Nat × Bool)} {cap limit : Nat}
    {noted : List Nat} (h : Stands sc stack cap limit noted)
    (hFew : ∀ a, noted.count a + 2 * f.weigh (only a) < refMaxVisits) :
    (pushAll F limit f stack.length cap noted.length = .stuck ∧
        ∃ e, ∀ fuel, f.width < fuel → sc.pushChildren F s fuel r = .error e) ∨
      ∃ sc' cap' noted', pushAll F limit f stack.length cap noted.length =
          .spent cap' noted'.length ∧
        (∀ fuel, f.width < fuel → sc.pushChildren F s fuel r = .ok sc') ∧
        Stands sc' (tops F f ++ stack) cap' limit noted' ∧
        ∀ a, noted'.count a + toCome (only a) f ≤ noted.count a + 2 * f.weigh (only a) := by
  induction f generalizing r sc stack cap noted with
  | nil =>
    have hZero : r = 0 := hChain
    refine Or.inr ⟨sc, cap, noted, rfl, ?_, h, fun a => le_refl _⟩
    intro fuel hFuel
    obtain ⟨fuel, rfl⟩ := Nat.exists_eq_succ_of_ne_zero (Nat.ne_zero_of_lt hFuel)
    rw [Scan.pushChildren, if_pos hZero]
  | cons r' kids rest _ ih =>
    obtain ⟨rfl, hNe, n, hn, hKids, hRest⟩ := hChain
    -- the rounds after the first are those of the rest of the chain
    have hRound : ∀ {result : Except ScanError Scan},
        (∀ fuel, rest.width < fuel → (match sc.push F r false with
          | .error e => .error e
          | .ok sc => match readNode F.badPush s r with
            | none => .ok sc
            | some cn => match sc.note F r with
              | .error e => .error e
              | .ok sc =>
                if sc.it.visitCap < sc.it.visited then .error .eio
                else sc.pushChildren F s fuel cn.nextSibling) = result) →
        ∀ fuel, (Forest.cons r kids rest).width < fuel →
          sc.pushChildren F s fuel r = result := by
      intro result hResult fuel hFuel
      rw [Forest.width] at hFuel
      obtain ⟨fuel, rfl⟩ := Nat.exists_eq_succ_of_ne_zero (Nat.ne_zero_of_lt hFuel)
      rw [Scan.pushChildren, if_neg hNe]
      exact hResult fuel (by omega)
    rw [pushAll]
    cases hGrow : grow F cap (stack.length + 1) with
    | error e =>
      have hErr : sc.push F r false = .error e := by
        unfold Scan.push
        rw [h.stackIs, h.capIs, hGrow]
      rw [hErr] at hRound
      exact Or.inl ⟨rfl, e, hRound fun _ _ => rfl⟩
    | ok cap₁ =>
      obtain ⟨sc₁, hPush, h₁⟩ := h.push r false hGrow
      rw [hPush] at hRound
      dsimp only at hRound ⊢
      by_cases hBad : F.badPush r = true
      · -- the chain ends here: nothing behind this node is known
        have hRead : readNode F.badPush s r = none := if_pos hBad
        rw [hRead] at hRound
        rw [if_pos hBad]
        refine Or.inr ⟨sc₁, cap₁, noted, rfl, hRound fun _ _ => rfl, ?_, ?_⟩
        · rw [tops, if_pos hBad]
          exact h₁
        · intro a
          have hLe := toCome_le (only a) (.cons r kids rest)
          omega
      · have hRead : readNode F.badPush s r = some n := (if_neg hBad).trans hn
        have hSeen : noted.count r < refMaxVisits := by
          have hOne := hFew r
          omega
        obtain ⟨sc₂, hNote, h₂⟩ := h₁.note (F := F) hSeen
        rw [hRead] at hRound
        dsimp only at hRound
        rw [hNote] at hRound
        dsimp only at hRound
        rw [h₂.limitIs, h₂.counted.visited, List.length_cons] at hRound
        rw [if_neg hBad]
        by_cases hLimit : limit < noted.length + 1
        · rw [if_pos hLimit]
          simp only [if_pos hLimit] at hRound
          exact Or.inl ⟨rfl, _, hRound fun _ _ => rfl⟩
        · rw [if_neg hLimit]
          simp only [if_neg hLimit] at hRound
          have hFew₂ : ∀ a, (r :: noted).count a + 2 * rest.weigh (only a) < refMaxVisits := by
            intro a
            have hOne := hFew a
            rw [Forest.weigh] at hOne
            rw [count_cons_only]
            omega
          rcases ih hRest h₂ hFew₂ with ⟨hStuck, e, hErr⟩ |
            ⟨sc₃, cap₃, noted₃, hSpent, hOk, h₃, hCount⟩
          · exact Or.inl ⟨hStuck, e, hRound hErr⟩
          · refine Or.inr ⟨sc₃, cap₃, noted₃, hSpent, hRound hOk, ?_, ?_⟩
            · rw [tops, if_neg hBad, List.append_assoc]
              exact h₃
            · intro a
              have hOne := hCount a
              rw [count_cons_only] at hOne
              rw [toCome, Forest.weigh]
              omega

theorem Stands.pop {sc : Scan} {x : Nat × Bool} {stack : List (Nat × Bool)} {cap limit : Nat}
    {noted : List Nat} (h : Stands sc (x :: stack) cap limit noted) :
    Stands { sc with it := { sc.it with stack := stack } } stack cap limit noted := by
  have hRoom := h.room
  rw [List.length_cons] at hRoom
  exact ⟨rfl, h.capIs, h.limitIs, h.some, by omega, h.counted.withStack _⟩

theorem width_le_refs (f : Forest) : f.width ≤ f.refs.length := by
  induction f with
  | nil => exact le_refl _
  | cons r kids rest _ ih =>
    rw [Forest.width, Forest.refs, List.length_cons, List.length_append]
    omega

/-- How the loop ends on a chain after `m` rounds. -/
inductive Follows (F : ScanFaults) (s : Store) (f : Forest) (below : List (Nat × Bool))
    (limit : Nat) (noted : List Nat) (sc : Scan) (m : Nat) : Look → Prop
  | found {e : Entry} : (∀ k, f.refs.length < k → sc.next F s (k + m) = .ok e) →
      Follows F s f below limit noted sc m .found
  | stuck {e : ScanError} : (∀ k, f.refs.length < k → sc.next F s (k + m) = .error e) →
      Follows F s f below limit noted sc m .stuck
  | spent {sc' : Scan} {cap : Nat} {noted' : List Nat} :
      (∀ k, f.refs.length < k → sc.next F s (k + m) = sc'.next F s k) →
      Stands sc' below cap limit noted' →
      (∀ a, noted'.count a ≤ noted.count a + toCome (only a) f) →
      Follows F s f below limit noted sc m (.spent cap noted'.length)

/-- One round of the loop: the node on top is popped, and it is found, or its children
are pushed and walked through. -/
theorem next_round (F : ScanFaults) {s : Store} {limit : Nat} {r : Nat} {kids : Forest}
    {n : Node} (hn : s r = some n) (hKids : Chain s n.firstChild kids)
    (ih : ∀ {sc : Scan} {below : List (Nat × Bool)} {cap : Nat} {noted : List Nat},
      Stands sc (tops F kids ++ below) cap limit noted →
      (∀ a, noted.count a + toCome (only a) kids < refMaxVisits) →
      ∃ m, m ≤ kids.refs.length ∧ Follows F s kids below limit noted sc m
        (look F s limit kids below.length cap noted.length))
    {sc : Scan} {below : List (Nat × Bool)} {cap : Nat} {noted : List Nat}
    (h : Stands sc ((r, false) :: below) cap limit noted)
    (hFew : ∀ a, noted.count a + (only a r + 2 * kids.weigh (only a)) < refMaxVisits) :
    ∃ m, m ≤ kids.refs.length + 1 ∧ Follows F s (.cons r kids .nil) below limit noted sc m
        (if limit < noted.length then .stuck
          else if F.badPop r then .spent cap noted.length
          else if emitsAt s r then .found
          else match pushAll F limit kids below.length cap (noted.length + 1) with
            | .spent cap v => look F s limit kids below.length cap v
            | x => x) := by
  have hSeen : noted.count r < refMaxVisits := by
    have hOne := hFew r
    omega
  have hStart : ∀ k, sc.next F s (k + 1) = if limit < noted.length then .error .eio
      else match readNode F.badPop s r with
        | none => Scan.next F s k { sc with it := { sc.it with stack := below } }
        | some node => match Scan.note F { sc with it := { sc.it with stack := below } } r with
          | .error e => .error e
          | .ok sc =>
            if node.emits then
              if node.firstChild = 0 then .ok node.entry
              else match sc.push F r true with
                | .error e => .error e
                | .ok _ => .ok node.entry
            else match sc.pushChildren F s k node.firstChild with
              | .error e => .error e
              | .ok sc => sc.next F s k := by
    intro k
    rw [Scan.next, h.stackIs]
    simp only [h.limitIs, h.counted.visited, Bool.not_false, Bool.true_and]
  have hLength : (Forest.cons r kids .nil).refs.length = kids.refs.length + 1 := by
    simp [Forest.refs]
  by_cases hLimit : limit < noted.length
  · refine ⟨1, by omega, ?_⟩
    rw [if_pos hLimit]
    refine .stuck (e := .eio) fun k _ => ?_
    rw [hStart, if_pos hLimit]
  rw [if_neg hLimit]
  simp only [if_neg hLimit] at hStart
  by_cases hPop : F.badPop r = true
  · -- the node is dropped, and with it all that hangs from it
    have hRead : readNode F.badPop s r = none := if_pos hPop
    refine ⟨1, by omega, ?_⟩
    rw [if_pos hPop]
    refine .spent (fun k _ => ?_) h.pop fun a => Nat.le_add_right _ _
    rw [hStart, hRead]
  have hRead : readNode F.badPop s r = some n := (if_neg hPop).trans hn
  obtain ⟨sc₁, hNote, h₁⟩ := h.pop.note (F := F) hSeen
  have hEmits : emitsAt s r = n.emits := by
    unfold emitsAt
    rw [hn]
    rfl
  rw [if_neg hPop, hEmits]
  simp only [hRead, hNote] at hStart
  by_cases hLeaf : n.emits = true
  · refine ⟨1, by omega, ?_⟩
    rw [if_pos hLeaf]
    refine .found (e := n.entry) fun k _ => ?_
    rw [hStart, if_pos hLeaf]
    by_cases hNoKids : n.firstChild = 0
    · rw [if_pos hNoKids]
    · -- the entry that was popped has left room
      have hGrow : grow F cap (below.length + 1) = .ok cap := if_pos h.room
      obtain ⟨sc₂, hPush, -⟩ := h₁.push r true hGrow
      rw [if_neg hNoKids, hPush]
  rw [if_neg hLeaf]
  simp only [if_neg hLeaf] at hStart
  have hFew₁ : ∀ a, (r :: noted).count a + 2 * kids.weigh (only a) < refMaxVisits := by
    intro a
    have hOne := hFew a
    rw [count_cons_only]
    omega
  have hWidth := width_le_refs kids
  rcases pushChildren_pushAll F hKids h₁ hFew₁ with ⟨hStuck, e, hErr⟩ |
    ⟨sc₂, cap₂, noted₂, hSpent, hOk, h₂, hCount⟩
  · rw [List.length_cons] at hStuck
    refine ⟨1, by omega, ?_⟩
    rw [hStuck]
    refine .stuck (e := e) fun k hk => ?_
    rw [hStart, hErr k (by omega)]
  · rw [List.length_cons] at hSpent
    rw [hSpent]
    have hFew₂ : ∀ a, noted₂.count a + toCome (only a) kids < refMaxVisits := by
      intro a
      have hOne := hCount a
      have hLess := hFew₁ a
      omega
    obtain ⟨m, hm, hFollows⟩ := ih h₂ hFew₂
    have hNext : ∀ k, kids.refs.length + 1 < k →
        sc.next F s (k + (m + 1)) = sc₂.next F s (k + m) := by
      intro k hk
      rw [← Nat.add_assoc, hStart, hOk (k + m) (by omega)]
    refine ⟨m + 1, by omega, ?_⟩
    dsimp only
    revert hFollows
    generalize look F s limit kids below.length cap₂ noted₂.length = outcome
    intro hFollows
    cases hFollows with
    | found hOut => exact .found fun k hk => (hNext k (by omega)).trans (hOut k (by omega))
    | stuck hOut => exact .stuck fun k hk => (hNext k (by omega)).trans (hOut k (by omega))
    | spent hOut hStands hLess =>
      refine .spent (fun k hk => (hNext k (by omega)).trans (hOut k (by omega))) hStands ?_
      intro a
      have hOne := hCount a
      have hTwo := hLess a
      rw [count_cons_only] at hOne
      rw [toCome]
      omega

/-- The loop on a pushed chain does what the search does. -/
theorem loop_look (F : ScanFaults) {s : Store} {limit : Nat} {r : Nat} {f : Forest}
    (hChain : Chain s r f) {sc : Scan} {below : List (Nat × Bool)} {cap : Nat} {noted : List Nat}
    (h : Stands sc (tops F f ++ below) cap limit noted)
    (hFew : ∀ a, noted.count a + toCome (only a) f < refMaxVisits) :
    ∃ m, m ≤ f.refs.length ∧ Follows F s f below limit noted sc m
      (look F s limit f below.length cap noted.length) := by
  induction f generalizing r sc below cap noted with
  | nil =>
    refine ⟨0, le_refl _, ?_⟩
    exact .spent (fun k _ => rfl) h fun a => Nat.le_add_right _ _
  | cons r' kids rest ihKids ihRest =>
    obtain ⟨rfl, hNe, n, hn, hKids, hRest⟩ := hChain
    have hLength : (Forest.cons r kids rest).refs.length =
        kids.refs.length + rest.refs.length + 1 := by
      rw [Forest.refs, List.length_cons, List.length_append]
    have hAlone : (Forest.cons r kids .nil).refs.length = kids.refs.length + 1 := by
      simp [Forest.refs]
    rw [tops, List.append_assoc] at h
    rw [look]
    -- the nodes behind this one come first, if it could be read to find them
    have hBefore : ∃ m, m ≤ rest.refs.length ∧
        Follows F s rest ((r, false) :: below) limit noted sc m
          (if F.badPush r then .spent cap noted.length
            else look F s limit rest (below.length + 1) cap noted.length) := by
      by_cases hBad : F.badPush r = true
      · rw [if_pos hBad] at h ⊢
        exact ⟨0, Nat.zero_le _, .spent (fun k _ => rfl) h fun a => Nat.le_add_right _ _⟩
      · rw [if_neg hBad] at h ⊢
        refine ihRest hRest h fun a => ?_
        have hOne := hFew a
        rw [toCome] at hOne
        omega
    obtain ⟨m₁, hm₁, hFollows₁⟩ := hBefore
    revert hFollows₁
    generalize (if F.badPush r then Look.spent cap noted.length
      else look F s limit rest (below.length + 1) cap noted.length) = outcome
    intro hFollows₁
    cases hFollows₁ with
    | found hOut => exact ⟨m₁, by omega, .found fun k hk => hOut k (by omega)⟩
    | stuck hOut => exact ⟨m₁, by omega, .stuck fun k hk => hOut k (by omega)⟩
    | spent hOut hStands hLess =>
      rename_i sc₁ cap₁ noted₁
      have hFew₁ : ∀ a, noted₁.count a + (only a r + 2 * kids.weigh (only a)) < refMaxVisits := by
        intro a
        have hOne := hFew a
        have hTwo := hLess a
        rw [toCome] at hOne
        omega
      obtain ⟨m₂, hm₂, hFollows₂⟩ := next_round F hn hKids (ihKids hKids) hStands hFew₁
      have hNext : ∀ k, kids.refs.length + rest.refs.length + 1 < k →
          sc.next F s (k + (m₂ + m₁)) = sc₁.next F s (k + m₂) := by
        intro k hk
        rw [← Nat.add_assoc]
        exact hOut (k + m₂) (by omega)
      refine ⟨m₂ + m₁, by omega, ?_⟩
      dsimp only
      revert hFollows₂
      generalize (if limit < noted₁.length then Look.stuck else _) = outcome
      intro hFollows₂
      cases hFollows₂ with
      | found hOut₂ => exact .found fun k hk => (hNext k (by omega)).trans (hOut₂ k (by omega))
      | stuck hOut₂ => exact .stuck fun k hk => (hNext k (by omega)).trans (hOut₂ k (by omega))
      | spent hOut₂ hStands₂ hLess₂ =>
        refine .spent (fun k hk => (hNext k (by omega)).trans (hOut₂ k (by omega))) hStands₂ ?_
        intro a
        have hOne := hLess a
        have hTwo := hLess₂ a
        rw [toCome, toCome] at hTwo
        rw [toCome]
        omega

--
-- Directories that are taken for empty
--

/-- An entry can be seen, and the search is not stopped by the limits of the stack and of
the visits before it gets there. -/
def Tree.Seen (F : ScanFaults) (blockCount : Nat) (t : Tree) : Prop :=
  Visible F t.store t.forest ∧
    look F t.store (blockCount * slotsPerBlock + 1024) t.forest 0 256 0 ≠ .stuck

theorem stands_start {F : ScanFaults} {blockCount : Nat} {t : Tree} (hRoot : t.root ≠ 0) :
    Stands (Scan.start blockCount t.root) (tops F t.forest ++ []) 256
      (blockCount * slotsPerBlock + 1024) [] := by
  have hStart : (Scan.start blockCount t.root).it = { Iter.alloc.init t.root 0 with
      visitCap := blockCount * slotsPerBlock + 1024 } := by
    have hZero : (Iter.alloc.init t.root 0).visitCap = 0 := rfl
    unfold Scan.start Iter.withCap
    rw [if_pos hZero]
  have hTops : tops F t.forest = [(t.root, false)] := by
    have hChain := t.chain
    have hSingle := t.single
    cases hForest : t.forest with
    | nil =>
      rw [hForest] at hChain
      exact absurd hChain hRoot
    | cons r kids rest =>
      rw [hForest] at hChain hSingle
      obtain ⟨hRef, -⟩ := hChain
      rw [Forest.width] at hSingle
      cases rest with
      | nil => simp [tops, hRef]
      | cons r' kids' rest' => simp [Forest.width] at hSingle
  rw [hTops]
  refine ⟨?_, rfl, ?_, by omega, by simp, ?_⟩
  · rw [hStart]
    exact if_neg hRoot
  · rw [hStart]
  · rw [hStart]
    exact ⟨rfl, fun i => Nat.zero_le _⟩

/-- Each reference of a tree is visited at most twice. -/
theorem toCome_lt (t : Tree) (a : Nat) :
    ([] : List Nat).count a + toCome (only a) t.forest < refMaxVisits := by
  have hLe := toCome_le (only a) t.forest
  have hOnce := List.nodup_iff_count_le_one.mp t.once a
  have hWeigh : t.forest.weigh (only a) = t.forest.refs.count a := by
    rw [Forest.weigh_eq_sum]
    exact sum_indicator a t.forest.refs
  rw [List.count_nil]
  unfold refMaxVisits
  omega

/-- `briefs_empty_dir` refuses exactly if an entry is seen or memory runs out. -/
theorem emptyDir_proceed_iff (F : ScanFaults) (blockCount : Nat) (t : Tree) {fuel : Nat}
    (hFuel : 2 * t.forest.refs.length + 1 < fuel) :
    emptyDir F blockCount t.store t.root fuel = .proceed ↔
      t.root = 0 ∨ (F.noIter = false ∧ F.noName = false ∧ ¬ t.Seen F blockCount) := by
  unfold emptyDir
  by_cases hRoot : t.root = 0
  · simp [hRoot]
  by_cases hIter : F.noIter = true
  · simp [hRoot, hIter]
  by_cases hName : F.noName = true
  · simp [hRoot, hName]
  simp only [hRoot, hIter, hName, if_false, false_or, Bool.false_eq_true, true_and]
  obtain ⟨m, hm, hFollows⟩ := loop_look F t.chain (stands_start hRoot) (toCome_lt t)
  obtain ⟨k, rfl⟩ : ∃ k, fuel = k + m := ⟨fuel - m, by omega⟩
  have hSeen : t.Seen F blockCount ↔
      look F t.store (blockCount * slotsPerBlock + 1024) t.forest 0 256 0 = .found :=
    (found_iff_visible F t.store _ t.forest 0 256 0).symm
  rw [hSeen]
  simp only [List.length_nil] at hFollows
  revert hFollows
  generalize look F t.store (blockCount * slotsPerBlock + 1024) t.forest 0 256 0 = outcome
  intro hFollows
  cases hFollows with
  | found hOut =>
    rw [hOut k (by omega)]
    simp
  | stuck hOut =>
    rw [hOut k (by omega)]
    simp
  | spent hOut hStands hLess =>
    obtain ⟨k, rfl⟩ : ∃ j, k = j + 1 := ⟨k - 1, by omega⟩
    rw [hOut (k + 1) (by omega), Scan.next, hStands.stackIs]
    simp

theorem entries_of_root_zero {t : Tree} (hRoot : t.root = 0) : t.entries = [] := by
  have hChain := t.chain
  unfold Tree.entries
  cases hForest : t.forest with
  | nil => rfl
  | cons r kids rest =>
    rw [hForest] at hChain
    exact absurd hRoot hChain.2.1

/-- A directory that is taken for empty is empty, exactly if it is empty, or an entry is
seen, or the check itself runs out of memory and refuses. -/
theorem emptyDir_sound_iff (F : ScanFaults) (blockCount : Nat) (t : Tree) {fuel : Nat}
    (hFuel : 2 * t.forest.refs.length + 1 < fuel) :
    (emptyDir F blockCount t.store t.root fuel = .proceed → t.entries = []) ↔
      t.entries = [] ∨ F.noIter = true ∨ F.noName = true ∨ t.Seen F blockCount := by
  rw [emptyDir_proceed_iff F blockCount t hFuel]
  constructor
  · intro hSound
    by_cases hIter : F.noIter = true
    · exact Or.inr (Or.inl hIter)
    by_cases hName : F.noName = true
    · exact Or.inr (Or.inr (Or.inl hName))
    by_cases hSeen : t.Seen F blockCount
    · exact Or.inr (Or.inr (Or.inr hSeen))
    · exact Or.inl (hSound (Or.inr ⟨by simpa using hIter, by simpa using hName, hSeen⟩))
  · rintro (hEmpty | hIter | hName | hSeen) hProceed
    · exact hEmpty
    · rcases hProceed with hRoot | ⟨hNot, -⟩
      · exact entries_of_root_zero hRoot
      · rw [hIter] at hNot
        cases hNot
    · rcases hProceed with hRoot | ⟨-, hNot, -⟩
      · exact entries_of_root_zero hRoot
      · rw [hName] at hNot
        cases hNot
    · rcases hProceed with hRoot | ⟨-, -, hNot⟩
      · exact entries_of_root_zero hRoot
      · exact absurd hSeen hNot

/-- Nothing fails. -/
def ScanFaults.none : ScanFaults where
  noIter  := false
  noName  := false
  noTable := false
  badPush := fun _ => false
  badPop  := fun _ => false
  badGrow := fun _ => false

/-- A directory with the one entry "a" for inode 5, in two pages. -/
def holdsFile : Tree where
  store    := fun r =>
    if r = 640 then some ⟨704, 0, 0, [], 0, 0, true, false, 0, 1⟩
    else if r = 704 then some ⟨0, 0, 5, [97], 1, 97, false, false, 1, 0⟩ else none
  root     := 640
  forest   := .cons 640 (.cons 704 .nil .nil) .nil
  chain    := ⟨rfl, by decide, _, rfl, ⟨rfl, by decide, _, rfl, rfl, rfl⟩, rfl⟩
  single   := by decide
  fits     := ⟨⟨trivial, by decide, trivial⟩, by decide, trivial⟩
  once     := by decide
  distinct := by decide

theorem holdsFile_not_taken_for_empty :
    2 * holdsFile.forest.refs.length + 1 < 8 ∧
      (emptyDir .none 16 holdsFile.store holdsFile.root 8 = .proceed → holdsFile.entries = []) :=
  ⟨by decide, (emptyDir_sound_iff .none 16 holdsFile (by decide)).mpr
    (Or.inr (Or.inr (Or.inr ⟨Or.inr ⟨rfl, Or.inr (Or.inr ⟨rfl, Or.inl rfl⟩)⟩, by decide⟩)))⟩

/-- One block that cannot be read, that of the node of "a", makes the directory look
empty. -/
theorem emptyDir_skips_unreadable :
    emptyDir { ScanFaults.none with badPush := (· == 704), badPop := (· == 704) } 16
        holdsFile.store holdsFile.root 8 = .proceed ∧
      ¬ holdsFile.entries = [] := by
  decide

end Briefs.Trie
