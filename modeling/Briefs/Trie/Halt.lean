import Briefs.Trie.Ends
import Briefs.Trie.FreeAll
import Briefs.Trie.Ops

/-!
# BrieFS — the walks of a trie end

Whatever the pages hold: links may lead back, subtrees may be shared. Each walk has a guard of its
own. A search through siblings counts them, a descent has the bytes of a name before it, the walk
of `briefs_trie_free_all` pushes on a stack of 512 places, `trie_walk_reachable` and the iterator
count their visits. The loops are written here as the source has them, with nothing but their own
counters to stop them.

## Results

* `walks_end` — lookup, insertion, removal, `briefs_trie_free_all`, `trie_walk_reachable` and a
  loop of `briefs_trie_iter_next` return on any pages.
-/

namespace Briefs.Trie

open Briefs.Lib TrieM

/-- An operation on the pages with loops. -/
abbrev TrieL (α : Type) : Type := LoopM World Errno α

--
-- The operations with their loops
--

namespace Looped

variable {α β : Type}

/-- An operation without loops. -/
def once (x : TrieM α) : TrieL α := LoopM.lift x

/-- The variables of a walk through siblings: how many were counted, the one before, and the one
to look at. -/
structure SiblingWalk where
  visited : Nat
  prev    : Nat
  here    : Nat

/-- The body of `trie_find_child_in_chain`. -/
def findTurn (b : UInt8) (t : SiblingWalk) : TrieM (SiblingWalk ⊕ (Nat × Nat)) :=
  if t.here = 0 then fail .enoent
  else if siblingMax < t.visited + 1 then fail .eio
  else do
    let got ← attempt (readSlot t.here)
    match got with
    | .error _ => fail .enoent
    | .ok n =>
      if n.byteVal = b then ret (.inr (t.here, t.prev))
      else ret (.inl ⟨t.visited + 1, t.here, n.nextSibling⟩)

/-- The body of the walk of `trie_link_child` to the last sibling. -/
def lastTurn (t : SiblingWalk) : TrieM (SiblingWalk ⊕ Nat) := do
  let n ← readSlot t.here
  if n.nextSibling = 0 then ret (.inr t.here)
  else if siblingMax < t.visited + 1 then fail .eio
  else ret (.inl ⟨t.visited + 1, t.here, n.nextSibling⟩)

/-- The body of the walks that point the link to `child` elsewhere. -/
def relinkTurn (child target : Nat) (t : SiblingWalk) : TrieM (SiblingWalk ⊕ Unit) :=
  if t.here = 0 then ret (.inr ())
  else if siblingMax < t.visited + 1 then ret (.inr ())
  else do
    let got ← attempt (readSlot t.here)
    match got with
    | .error _ => ret (.inr ())
    | .ok n =>
      if n.nextSibling = child then do
        setSlot t.here fun n => { n with nextSibling := target }
        ret (.inr ())
      else ret (.inl ⟨t.visited + 1, t.here, n.nextSibling⟩)

/-- `trie_find_child_in_chain`. -/
def findInChain (b : UInt8) (child : Nat) : TrieL (Nat × Nat) :=
  LoopM.loop (findTurn b) ⟨0, 0, child⟩

def lastSibling (last : Nat) : TrieL Nat := LoopM.loop lastTurn ⟨0, 0, last⟩

def relink (child target w : Nat) : TrieL Unit := LoopM.loop (relinkTurn child target) ⟨0, 0, w⟩

/-- `trie_find_child_with_prev`. -/
def findChildWithPrev (parent : Nat) (b : UInt8) : TrieL (Nat × Nat) := do
  let n ← once (readSlot parent)
  findInChain b n.firstChild

/-- `briefs_trie_find_child`. -/
def findChild (parent : Nat) (b : UInt8) : TrieL Nat := do
  let got ← (findChildWithPrev parent b).attempt
  match got with
  | .ok (child, _) => once (ret child)
  | .error _ => once (ret 0)

/-- `trie_link_child`. -/
def linkChild (parent child : Nat) : TrieL Unit := do
  let p ← once (readSlot parent)
  if p.firstChild = 0 then once do
    setSlot parent fun n => { n with firstChild := child }
    setSlot parent fun n => { n with childCount := (n.childCount + 1) % 2 ^ 16 }
  else do
    let last ← lastSibling p.firstChild
    once do
      setSlot last fun n => { n with nextSibling := child }
      setSlot parent fun n => { n with childCount := (n.childCount + 1) % 2 ^ 16 }

/-- `briefs_trie_create_child`. -/
def createChild (parent depth : Nat) (b : UInt8) (interm : Bool) (nameLen hint : Nat) :
    TrieL (Option Nat) := do
  let got ← once (allocNode nameLen hint)
  match got with
  | none => once (ret none)
  | some child => do
    once (setSlot child fun n =>
      { n with depth := depth % 256, byteVal := b, interm := interm, statusLeaf := false })
    let linked ← (linkChild parent child).attempt
    match linked with
    | .ok _ => once (ret (some child))
    | .error _ => once do
      freeNode child
      ret none

/-- `briefs_trie_find_or_create_child`. -/
def findOrCreateChild (parent depth : Nat) (b : UInt8) (hint : Nat) : TrieL (Option Nat) := do
  let child ← findChild parent b
  if child ≠ 0 then once (ret (some child)) else createChild parent depth b true 0 hint

/-- `trie_split_leaf`. -/
def splitLeaf (e : NewEntry) (cur child pos : Nat) (b : UInt8) : TrieL Nat := do
  let leaf ← once (readSlot child)
  if leaf.nameLen = pos + 1 + 2 then once do
    setSlot child fun n => { n with interm := true, statusLeaf := true }
    setSlot child fun n => { n with depth := (pos + 1) % 256 }
    ret child
  else do
    let got ← createChild cur (pos + 1) b true 0 e.hint
    match got with
    | none => once (fail .enospc)
    | some internal => do
      let g ← once (readSlot cur)
      if g.firstChild = child then once (setSlot cur fun n => { n with firstChild := internal })
      else relink child internal g.firstChild
      once do
        setSlot internal fun n => { n with firstChild := child }
        setSlot internal fun n => { n with nextSibling := leaf.nextSibling }
        setSlot internal fun n => { n with childCount := 1 }
        if pos + 1 = e.name.length then do
          storeName internal e.name
          setSlot internal fun n => { n with statusLeaf := true }
          setSlot internal fun n => { n with ftype := e.type, inode := e.ino }
        else ret ()
        ret internal

/-- The last byte of the name where no child has it. -/
def newLeaf (e : NewEntry) (cur pos : Nat) (b : UInt8) : TrieL Unit := do
  let got ← createChild cur pos b false e.name.length e.hint
  match got with
  | none => once (fail .enospc)
  | some leaf => once do
    let stored ← attempt (storeName leaf e.name)
    match stored with
    | .error err => do
      freeNode leaf
      fail err
    | .ok _ => do
      setSlot leaf fun n => { n with interm := false, statusLeaf := false }
      setSlot leaf fun n => { n with ftype := e.type, inode := e.ino }

/-- The loop of `briefs_trie_insert` over the bytes of the name. -/
def insertLoop (e : NewEntry) : List UInt8 → Nat → Nat → TrieL Unit
  | [], _, _ => once (fail .einval)
  | b :: rest, pos, cur =>
    if rest = [] then do
      let existing ← findChild cur b
      if existing ≠ 0 then do
        let n ← once (readSlot existing)
        let same ← once (nameIs existing e.name)
        if n.interm then
          if n.statusLeaf && same then once (fail .eexist) else once (nameInterm e existing)
        else if same then once (fail .eexist)
        else do
          let next ← splitLeaf e cur existing pos b
          insertLoop e rest (pos + 1) next
      else newLeaf e cur pos b
    else do
      let got ← findOrCreateChild cur (pos + 1) b e.hint
      match got with
      | none => once (fail .enospc)
      | some child => do
        let n ← once (readSlot child)
        if n.interm then insertLoop e rest (pos + 1) child
        else do
          let next ← splitLeaf e cur child pos b
          insertLoop e rest (pos + 1) next

/-- `briefs_trie_insert`. -/
def trieInsert (root : Nat) (name : List UInt8) (ino type : Nat) :
    TrieL (Nat × Except Errno Unit) := do
  let got ← once (attempt (if root = 0 then createRoot else ret root))
  match got with
  | .error e => once (ret (root, .error e))
  | .ok root => do
    let done ← LoopM.attempt
      (if nameLen < name.length then once (fail .enametoolong)
      else insertLoop ⟨name, ino, type, refBlock root⟩ name 0 root)
    once (ret (root, done))

/-- The loop of `briefs_trie_lookup` over the bytes of the name. -/
def lookupLoop (name : List UInt8) : List UInt8 → Nat → TrieL (Nat × Nat)
  | [], _ => once (fail .enoent)
  | b :: rest, cur => do
    let (child, _) ← findChildWithPrev cur b
    let n ← once (readSlot child)
    let same ← once (nameIs child name)
    if rest = [] then
      if n.isLeaf && same then once (ret (n.inode, n.ftype)) else once (fail .enoent)
    else if n.interm then lookupLoop name rest child
    else if same then once (ret (n.inode, n.ftype)) else once (fail .enoent)

/-- `briefs_trie_lookup`. -/
def trieLookup (root : Nat) (name : List UInt8) : TrieL (Nat × Nat) :=
  if root = 0 then once (fail .enoent) else lookupLoop name name root

/-- The descent of `briefs_trie_remove`. -/
def removeLoop (above : List Nat) : List UInt8 → Nat → TrieL (Option (List Nat × List Nat))
  | [], _ => once (fail .enoent)
  | b :: rest, cur => do
    let (child, prev) ← findChildWithPrev cur b
    if rest = [] then once do
      let n ← readSlot child
      if n.interm && !n.statusLeaf then fail .enoent
      else do
        if n.interm then setSlot child fun n => { n with statusLeaf := false } else ret ()
        if n.interm && (n.firstChild != 0 || n.childCount != 0) then ret none
        else do
          unlinkChild cur prev child
          ret (some (cur :: above, [child]))
    else removeLoop (cur :: above) rest child

/-- The collapse loop over the ancestors. -/
def collapse : List Nat → List Nat → TrieL (List Nat)
  | check :: parent :: above, freed => do
    let got ← once (attempt (readSlot check))
    match got with
    | .error _ => once (ret freed)
    | .ok n =>
      if n.isBare then do
        let seen ← once (attempt (readSlot parent))
        match seen with
        | .error _ => once (ret freed)
        | .ok p => do
          if p.firstChild = check then
            once (setSlot parent fun q => { q with firstChild := n.nextSibling })
          else relink check n.nextSibling p.firstChild
          once (setSlot parent fun q =>
            { q with childCount := (q.childCount + 2 ^ 16 - 1) % 2 ^ 16 })
          collapse (parent :: above) (freed ++ [check])
      else once (ret freed)
  | _, freed => once (ret freed)

/-- `briefs_trie_remove`. -/
def trieRemove (root : Nat) (name : List UInt8) : TrieL (Nat × List Nat) := do
  if root = 0 then once (fail .enoent)
  else do
    let path ← removeLoop [] name root
    match path with
    | none => once (ret (root, []))
    | some (above, freed) => do
      let freed ← collapse above freed
      once do
        let got ← attempt (readSlot root)
        match got with
        | .ok n => if n.isBare then ret (0, freed ++ [root]) else ret (root, freed)
        | .error _ => ret (root, freed)

--
-- They return
--

section Returns

open LoopM (Computes)

variable {n : Nat} {τ : Type}

theorem computes_once (x : TrieM α) : Computes n (once x) x := LoopM.computes_lift n x

theorem computes_bind {x : TrieL α} {x' : TrieM α} {f : α → TrieL β} {f' : α → TrieM β}
    (h : Computes n x x') (hf : ∀ a, Computes n (f a) (f' a)) :
    Computes n (x >>= f) (x' >>= f' : TrieM β) := by
  refine LoopM.Computes.seq h (fun w a w' hRun passes hn => ?_) (fun w e w' hRun => ?_)
  · show f a passes w' = some (TrieM.seq x' f' w)
    unfold TrieM.seq
    rw [hRun]
    exact hf a passes w' hn
  · show TrieM.seq x' f' w = _
    unfold TrieM.seq
    rw [hRun]

theorem computes_attempt {x : TrieL α} {x' : TrieM α} (h : Computes n x x') :
    Computes n x.attempt (attempt x') := by
  intro passes w hn
  unfold LoopM.attempt
  rw [h passes w hn]
  rfl

theorem computes_ite {c : Prop} [Decidable c] {x y : TrieL α} {x' y' : TrieM α}
    (h : Computes n x x') (h' : Computes n y y') :
    Computes n (if c then x else y) (if c then x' else y' : TrieM α) := by
  split_ifs
  · exact h
  · exact h'

theorem readSlot_returns (ref : Nat) (w : World) :
    (∃ m, readSlot ref w = (.ok m, w)) ∨ ∃ e, readSlot ref w = (.error e, w) := by
  unfold readSlot
  cases w.pages.slot? ref with
  | none => exact Or.inr ⟨_, rfl⟩
  | some m => exact Or.inl ⟨m, rfl⟩

theorem attempt_eq {x : TrieM α} {w w' : World} {r : Except Errno α} (h : x w = (r, w')) :
    attempt x w = (.ok r, w') := by
  unfold attempt
  rw [h]

theorem bind_eq {x : TrieM α} {f : α → TrieM β} {w w' : World} {a : α} (h : x w = (.ok a, w')) :
    (x >>= f) w = f a w' := by
  show TrieM.seq x f w = _
  unfold TrieM.seq
  rw [h]

theorem bind_error {x : TrieM α} {f : α → TrieM β} {w w' : World} {e : Errno}
    (h : x w = (.error e, w')) : (x >>= f) w = (.error e, w') := by
  show TrieM.seq x f w = _
  unfold TrieM.seq
  rw [h]

/-- One pass `x` of a loop that does what `y` does; `rest` is the loop with other variables. -/
def TurnOf (x : TrieM (τ ⊕ α)) (y : TrieM α) (rest : τ → TrieM α) (less : τ → Prop) (w : World) :
    Prop :=
  (∃ e w', x w = (.error e, w') ∧ y w = (.error e, w')) ∨
  (∃ a w', x w = (.ok (.inr a), w') ∧ y w = (.ok a, w')) ∨
  ∃ t w', x w = (.ok (.inl t), w') ∧ y w = rest t w' ∧ less t

theorem computes_loop {body : τ → TrieM (τ ⊕ α)} {g : τ → TrieM α} (μ : τ → Nat)
    (hTurn : ∀ t w, TurnOf (body t) (g t) g (fun t' => μ t' < μ t) w) {t : τ} (hn : μ t < n) :
    Computes n (LoopM.loop body t) (g t) :=
  LoopM.Computes.loop μ hTurn hn

/-- The search counts the siblings. -/
theorem findTurn_of (b : UInt8) (t : SiblingWalk) (w : World) :
    TurnOf (findTurn b t) (Trie.findInChain b (siblingMax - t.visited) t.prev t.here)
      (fun t => Trie.findInChain b (siblingMax - t.visited) t.prev t.here)
      (fun t' => siblingMax + 1 - t'.visited < siblingMax + 1 - t.visited) w := by
  generalize hRest : (fun t : SiblingWalk =>
    Trie.findInChain b (siblingMax - t.visited) t.prev t.here) = rest
  unfold TurnOf findTurn Trie.findInChain
  by_cases hZero : t.here = 0
  · simp only [if_pos hZero]
    exact Or.inl ⟨_, _, rfl, rfl⟩
  simp only [if_neg hZero]
  by_cases hMany : siblingMax < t.visited + 1
  · have hNone : siblingMax - t.visited = 0 := by omega
    rw [if_pos hMany, hNone]
    exact Or.inl ⟨_, _, rfl, rfl⟩
  rw [if_neg hMany]
  have hSome : siblingMax - t.visited = siblingMax - (t.visited + 1) + 1 := by omega
  rw [hSome]
  rcases readSlot_returns t.here w with ⟨m, hRead⟩ | ⟨e, hRead⟩
  · dsimp only
    rw [bind_eq (attempt_eq hRead), bind_eq (attempt_eq hRead)]
    dsimp only
    by_cases hByte : m.byteVal = b
    · rw [if_pos hByte, if_pos hByte]
      exact Or.inr (Or.inl ⟨_, _, rfl, rfl⟩)
    · rw [if_neg hByte, if_neg hByte, ← hRest]
      exact Or.inr (Or.inr ⟨_, _, rfl, rfl, by dsimp only; omega⟩)
  · dsimp only
    rw [bind_eq (attempt_eq hRead), bind_eq (attempt_eq hRead)]
    exact Or.inl ⟨_, _, rfl, rfl⟩

theorem findInChain_computes (hn : siblingMax + 1 < n) (b : UInt8) (child : Nat) :
    Computes n (findInChain b child) (Trie.findInChain b siblingMax 0 child) :=
  computes_loop (fun t : SiblingWalk => siblingMax + 1 - t.visited) (findTurn_of b) hn

theorem lastTurn_of (t : SiblingWalk) (w : World) :
    TurnOf (lastTurn t) (Trie.lastSibling (siblingMax - t.visited) t.here)
      (fun t => Trie.lastSibling (siblingMax - t.visited) t.here)
      (fun t' => siblingMax + 1 - t'.visited < siblingMax + 1 - t.visited) w := by
  generalize hRest : (fun t : SiblingWalk =>
    Trie.lastSibling (siblingMax - t.visited) t.here) = rest
  unfold TurnOf lastTurn Trie.lastSibling
  rcases readSlot_returns t.here w with ⟨m, hRead⟩ | ⟨e, hRead⟩
  · rw [bind_eq hRead, bind_eq hRead]
    by_cases hZero : m.nextSibling = 0
    · rw [if_pos hZero, if_pos hZero]
      exact Or.inr (Or.inl ⟨_, _, rfl, rfl⟩)
    rw [if_neg hZero, if_neg hZero]
    by_cases hMany : siblingMax < t.visited + 1
    · have hNone : siblingMax - t.visited = 0 := by omega
      rw [if_pos hMany, hNone]
      exact Or.inl ⟨_, _, rfl, rfl⟩
    · have hSome : siblingMax - t.visited = siblingMax - (t.visited + 1) + 1 := by omega
      rw [if_neg hMany, hSome, ← hRest]
      exact Or.inr (Or.inr ⟨_, _, rfl, rfl, by dsimp only; omega⟩)
  · rw [bind_error hRead, bind_error hRead]
    exact Or.inl ⟨_, _, rfl, rfl⟩

theorem lastSibling_computes (hn : siblingMax + 1 < n) (last : Nat) :
    Computes n (lastSibling last) (Trie.lastSibling siblingMax last) :=
  computes_loop (fun t : SiblingWalk => siblingMax + 1 - t.visited) lastTurn_of hn

theorem relinkTurn_of (child target : Nat) (t : SiblingWalk) (w : World) :
    TurnOf (relinkTurn child target t) (Trie.relink child target (siblingMax - t.visited) t.here)
      (fun t => Trie.relink child target (siblingMax - t.visited) t.here)
      (fun t' => siblingMax + 1 - t'.visited < siblingMax + 1 - t.visited) w := by
  generalize hRest : (fun t : SiblingWalk =>
    Trie.relink child target (siblingMax - t.visited) t.here) = rest
  unfold TurnOf relinkTurn Trie.relink
  by_cases hZero : t.here = 0
  · simp only [if_pos hZero]
    exact Or.inr (Or.inl ⟨_, _, rfl, rfl⟩)
  simp only [if_neg hZero]
  by_cases hMany : siblingMax < t.visited + 1
  · have hNone : siblingMax - t.visited = 0 := by omega
    rw [if_pos hMany, hNone]
    exact Or.inr (Or.inl ⟨_, _, rfl, rfl⟩)
  rw [if_neg hMany]
  have hSome : siblingMax - t.visited = siblingMax - (t.visited + 1) + 1 := by omega
  rw [hSome]
  rcases readSlot_returns t.here w with ⟨m, hRead⟩ | ⟨e, hRead⟩
  · dsimp only
    rw [bind_eq (attempt_eq hRead), bind_eq (attempt_eq hRead)]
    dsimp only
    by_cases hLink : m.nextSibling = child
    · rw [if_pos hLink, if_pos hLink]
      have hSet : ∃ w', setSlot t.here (fun n => { n with nextSibling := target }) w =
          (.ok (), w') := by
        unfold setSlot
        cases w.pages (refBlock t.here) with
        | none => exact ⟨_, rfl⟩
        | some p => exact ⟨_, rfl⟩
      obtain ⟨w', hSet⟩ := hSet
      exact Or.inr (Or.inl ⟨(), w', bind_eq hSet, hSet⟩)
    · rw [if_neg hLink, if_neg hLink, ← hRest]
      exact Or.inr (Or.inr ⟨_, _, rfl, rfl, by dsimp only; omega⟩)
  · dsimp only
    rw [bind_eq (attempt_eq hRead), bind_eq (attempt_eq hRead)]
    exact Or.inr (Or.inl ⟨_, _, rfl, rfl⟩)

theorem relink_computes (hn : siblingMax + 1 < n) (child target w : Nat) :
    Computes n (relink child target w) (Trie.relink child target siblingMax w) :=
  computes_loop (fun t : SiblingWalk => siblingMax + 1 - t.visited) (relinkTurn_of child target) hn

theorem findChildWithPrev_computes (hn : siblingMax + 1 < n) (parent : Nat) (b : UInt8) :
    Computes n (findChildWithPrev parent b) (Trie.findChildWithPrev parent b) :=
  computes_bind (computes_once _) fun m => findInChain_computes hn b m.firstChild

theorem findChild_computes (hn : siblingMax + 1 < n) (parent : Nat) (b : UInt8) :
    Computes n (findChild parent b) (Trie.findChild parent b) := by
  refine computes_bind (computes_attempt (findChildWithPrev_computes hn parent b)) fun got => ?_
  cases got with
  | ok found => exact computes_once _
  | error e => exact computes_once _

theorem linkChild_computes (hn : siblingMax + 1 < n) (parent child : Nat) :
    Computes n (linkChild parent child) (Trie.linkChild parent child) := by
  refine computes_bind (computes_once _) fun p => computes_ite (computes_once _) ?_
  exact computes_bind (lastSibling_computes hn p.firstChild) fun last => computes_once _

theorem createChild_computes (hn : siblingMax + 1 < n) (parent depth : Nat) (b : UInt8)
    (interm : Bool) (nameLen hint : Nat) :
    Computes n (createChild parent depth b interm nameLen hint)
      (Trie.createChild parent depth b interm nameLen hint) := by
  refine computes_bind (computes_once _) fun got => ?_
  cases got with
  | none => exact computes_once _
  | some child =>
    refine computes_bind (computes_once _) fun _ => ?_
    refine computes_bind (computes_attempt (linkChild_computes hn parent child)) fun linked => ?_
    cases linked with
    | ok _ => exact computes_once _
    | error e => exact computes_once _

theorem findOrCreateChild_computes (hn : siblingMax + 1 < n) (parent depth : Nat) (b : UInt8)
    (hint : Nat) :
    Computes n (findOrCreateChild parent depth b hint)
      (Trie.findOrCreateChild parent depth b hint) :=
  computes_bind (findChild_computes hn parent b) fun _ =>
    computes_ite (computes_once _) (createChild_computes hn parent depth b true 0 hint)

theorem splitLeaf_computes (hn : siblingMax + 1 < n) (e : NewEntry) (cur child pos : Nat)
    (b : UInt8) : Computes n (splitLeaf e cur child pos b) (Trie.splitLeaf e cur child pos b) := by
  refine computes_bind (computes_once _) fun leaf => computes_ite (computes_once _) ?_
  refine computes_bind (createChild_computes hn cur (pos + 1) b true 0 e.hint) fun got => ?_
  cases got with
  | none => exact computes_once _
  | some internal =>
    refine computes_bind (computes_once _) fun g => ?_
    dsimp only
    refine computes_ite ?_ ?_
    · exact computes_bind (computes_once _) fun _ => computes_once _
    · exact computes_bind (relink_computes hn child internal g.firstChild) fun _ => computes_once _

theorem newLeaf_computes (hn : siblingMax + 1 < n) (e : NewEntry) (cur pos : Nat) (b : UInt8) :
    Computes n (newLeaf e cur pos b) (Trie.newLeaf e cur pos b) := by
  refine computes_bind (createChild_computes hn cur pos b false e.name.length e.hint) fun got => ?_
  cases got with
  | none => exact computes_once _
  | some leaf => exact computes_once _

/-- One level for each byte of the name. -/
theorem insertLoop_computes (hn : siblingMax + 1 < n) (e : NewEntry) :
    ∀ (bs : List UInt8) (pos cur : Nat),
      Computes n (insertLoop e bs pos cur) (Trie.insertLoop e bs pos cur)
  | [], _, _ => computes_once _
  | b :: rest, pos, cur => by
    have hNext := insertLoop_computes hn e rest (pos + 1)
    have hSplit : ∀ child, Computes n
        (splitLeaf e cur child pos b >>= fun next => insertLoop e rest (pos + 1) next)
        (Trie.splitLeaf e cur child pos b >>= fun next => Trie.insertLoop e rest (pos + 1) next :
          TrieM Unit) :=
      fun child => computes_bind (splitLeaf_computes hn e cur child pos b) hNext
    refine computes_ite ?_ ?_
    · refine computes_bind (findChild_computes hn cur b) fun existing => ?_
      refine computes_ite ?_ (newLeaf_computes hn e cur pos b)
      refine computes_bind (computes_once _) fun m => computes_bind (computes_once _) fun same => ?_
      refine computes_ite (computes_ite (computes_once _) (computes_once _)) ?_
      exact computes_ite (computes_once _) (hSplit existing)
    · refine computes_bind (findOrCreateChild_computes hn cur (pos + 1) b e.hint) fun got => ?_
      cases got with
      | none => exact computes_once _
      | some child =>
        exact computes_bind (computes_once _) fun m => computes_ite (hNext child) (hSplit child)

theorem trieInsert_computes (hn : siblingMax + 1 < n) (root : Nat) (name : List UInt8)
    (ino type : Nat) :
    Computes n (trieInsert root name ino type) (Trie.trieInsert root name ino type) := by
  refine computes_bind (computes_once _) fun got => ?_
  cases got with
  | error e => exact computes_once _
  | ok root =>
    refine computes_bind (computes_attempt (computes_ite (computes_once _) ?_)) fun _ =>
      computes_once _
    exact insertLoop_computes hn _ name 0 root

theorem lookupLoop_computes (hn : siblingMax + 1 < n) (name : List UInt8) :
    ∀ (bs : List UInt8) (cur : Nat),
      Computes n (lookupLoop name bs cur) (Trie.lookupLoop name bs cur)
  | [], _ => computes_once _
  | b :: rest, cur => by
    refine computes_bind (findChildWithPrev_computes hn cur b) fun found => ?_
    obtain ⟨child, prev⟩ := found
    refine computes_bind (computes_once _) fun m => computes_bind (computes_once _) fun same => ?_
    refine computes_ite (computes_ite (computes_once _) (computes_once _)) ?_
    refine computes_ite (lookupLoop_computes hn name rest child) ?_
    exact computes_ite (computes_once _) (computes_once _)

theorem trieLookup_computes (hn : siblingMax + 1 < n) (root : Nat) (name : List UInt8) :
    Computes n (trieLookup root name) (Trie.trieLookup root name) :=
  computes_ite (computes_once _) (lookupLoop_computes hn name name root)

theorem removeLoop_computes (hn : siblingMax + 1 < n) :
    ∀ (bs : List UInt8) (above : List Nat) (cur : Nat),
      Computes n (removeLoop above bs cur) (Trie.removeLoop above bs cur)
  | [], _, _ => computes_once _
  | b :: rest, above, cur => by
    refine computes_bind (findChildWithPrev_computes hn cur b) fun found => ?_
    obtain ⟨child, prev⟩ := found
    exact computes_ite (computes_once _) (removeLoop_computes hn rest (cur :: above) child)

/-- One turn for each ancestor. -/
theorem collapse_computes (hn : siblingMax + 1 < n) :
    ∀ (path freed : List Nat), Computes n (collapse path freed) (Trie.collapse path freed)
  | [], _ => computes_once _
  | [_], _ => computes_once _
  | check :: parent :: above, freed => by
    refine computes_bind (computes_once _) fun got => ?_
    cases got with
    | error e => exact computes_once _
    | ok m =>
      refine computes_ite ?_ (computes_once _)
      refine computes_bind (computes_once _) fun seen => ?_
      cases seen with
      | error e => exact computes_once _
      | ok p =>
        have hUp := collapse_computes hn (parent :: above) (freed ++ [check])
        dsimp only
        refine computes_ite ?_ ?_
        · exact computes_bind (computes_once _) fun _ =>
            computes_bind (computes_once _) fun _ => hUp
        · exact computes_bind (relink_computes hn check m.nextSibling p.firstChild) fun _ =>
            computes_bind (computes_once _) fun _ => hUp

theorem trieRemove_computes (hn : siblingMax + 1 < n) (root : Nat) (name : List UInt8) :
    Computes n (trieRemove root name) (Trie.trieRemove root name) := by
  refine computes_ite (computes_once _) ?_
  refine computes_bind (removeLoop_computes hn name [] root) fun path => ?_
  cases path with
  | none => exact computes_once _
  | some found =>
    obtain ⟨above, freed⟩ := found
    exact computes_bind (collapse_computes hn above freed) fun _ => computes_once _

end Returns

end Looped

--
-- Freeing a whole trie
--

/-- The state of the first phase of `briefs_trie_free_all`: the stack, the list of references with
its room, and the requests for memory. -/
structure Collect where
  stack  : List (Nat × Bool)
  toFree : List Nat
  cap    : Nat
  asked  : Nat

/-- One pass of the two nested loops: the top of the stack is looked at, or, after the next child
and the number of those before it, that child is pushed. `none` is the result if the list cannot
grow. -/
def collectPass (mem : Nat → Bool) (s : Store) :
    Collect × Option (Nat × Nat) → (Collect × Option (Nat × Nat)) ⊕ Option (List Nat)
  | (c, none) =>
    match c.stack with
    | [] => .inr (some c.toFree)
    | (ref, true) :: below =>
      if c.cap ≤ c.toFree.length then
        if mem c.asked = false then .inr none
        else
          let cap := if c.cap = 0 then 1024 else c.cap * 2
          .inl (⟨below, c.toFree ++ [ref], cap, c.asked + 1⟩, none)
      else .inl (⟨below, c.toFree ++ [ref], c.cap, c.asked⟩, none)
    | (ref, false) :: below =>
      match s ref with
      | none => .inl ({ c with stack := below }, none)
      | some node => .inl ({ c with stack := (ref, true) :: below }, some (node.firstChild, 0))
  | (c, some (child, count)) =>
    if child = 0 then .inl (c, none)
    else if 1000 < count + 1 then .inl (c, none)
    else if validateTrieRef child = false then .inl (c, none)
    else
      match s child with
      | none => .inl (c, none)
      | some cn =>
        if cn.nextSibling = child then .inl (c, none)
        else .inl ({ c with
          stack := if c.stack.length < stackCap then (child, false) :: c.stack else c.stack },
          some (cn.nextSibling, count + 1))

/-- `briefs_trie_free_all` with the memory it asks for: the root afterwards, and the calls of
`briefs_trie_free_node`. -/
def freeAllIn (mem : Nat → Bool) (s : Store) (root passes : Nat) : Option (Nat × List Nat) :=
  if root = 0 then some (root, [])
  else if mem 0 = false then some (root, [])
  else
    match runLoop (collectPass mem s) passes (⟨[(root, false)], [], 0, 1⟩, none) with
    | none => none
    | some none => some (root, [])
    | some (some toFree) => some (0, toFree)

/-- The passes that `places` free places of the stack can cost: a node on the lowest of them costs
as much as all the places above it, which it may fill, and those are left to its siblings too. -/
def reserve : Nat → Nat
  | 0 => 0
  | places + 1 => 1004 + 2 * reserve places

/-- The passes that a stack can cost. -/
def stackLoad : List (Nat × Bool) → Nat
  | [] => 0
  | (_, true) :: below => 1 + stackLoad below
  | (_, false) :: below => 1004 + reserve (stackCap - (below.length + 1)) + stackLoad below

/-- The passes that are left. -/
def collectLeft : Collect × Option (Nat × Nat) → Nat
  | (c, none) => stackLoad c.stack
  | (c, some (_, count)) =>
    stackLoad c.stack + reserve (stackCap - c.stack.length) + (1001 - count) + 1

/-- A child that is pushed takes one place, and its count is the cost of the pass. -/
theorem reserve_push {len : Nat} (h : len < stackCap) :
    1004 + reserve (stackCap - (len + 1)) + reserve (stackCap - (len + 1)) =
      reserve (stackCap - len) := by
  have hPlaces : stackCap - len = stackCap - (len + 1) + 1 := by omega
  rw [hPlaces, reserve]
  omega

theorem collectPass_less (mem : Nat → Bool) (s : Store) {p q : Collect × Option (Nat × Nat)}
    (h : collectPass mem s p = .inl q) : collectLeft q < collectLeft p := by
  obtain ⟨⟨stack, toFree, cap, asked⟩, mode⟩ := p
  cases mode with
  | none =>
    cases stack with
    | nil => cases h
    | cons x below =>
      obtain ⟨ref, state⟩ := x
      cases state with
      | true =>
        unfold collectPass at h
        dsimp only at h
        split_ifs at h
        · cases h
          exact Nat.lt_add_of_pos_left Nat.one_pos
        · cases h
          exact Nat.lt_add_of_pos_left Nat.one_pos
        · cases h
          exact Nat.lt_add_of_pos_left Nat.one_pos
      | false =>
        unfold collectPass at h
        dsimp only at h
        cases hNode : s ref with
        | none =>
          rw [hNode] at h
          cases h
          show stackLoad below < 1004 + reserve (stackCap - (below.length + 1)) + stackLoad below
          omega
        | some node =>
          rw [hNode] at h
          cases h
          show 1 + stackLoad below + reserve (stackCap - (below.length + 1)) + (1001 - 0) + 1 <
            1004 + reserve (stackCap - (below.length + 1)) + stackLoad below
          omega
  | some next =>
    obtain ⟨child, count⟩ := next
    have hLeave : collectLeft (⟨stack, toFree, cap, asked⟩, none) <
        collectLeft (⟨stack, toFree, cap, asked⟩, some (child, count)) := by
      show stackLoad stack <
        stackLoad stack + reserve (stackCap - stack.length) + (1001 - count) + 1
      omega
    unfold collectPass at h
    dsimp only at h
    by_cases hZero : child = 0
    · rw [if_pos hZero] at h
      cases h
      exact hLeave
    rw [if_neg hZero] at h
    by_cases hMany : 1000 < count + 1
    · rw [if_pos hMany] at h
      cases h
      exact hLeave
    rw [if_neg hMany] at h
    by_cases hRef : validateTrieRef child = false
    · rw [if_pos hRef] at h
      cases h
      exact hLeave
    rw [if_neg hRef] at h
    cases hNode : s child with
    | none =>
      rw [hNode] at h
      cases h
      exact hLeave
    | some cn =>
      rw [hNode] at h
      dsimp only at h
      by_cases hSelf : cn.nextSibling = child
      · rw [if_pos hSelf] at h
        cases h
        exact hLeave
      rw [if_neg hSelf] at h
      cases h
      by_cases hRoom : stack.length < stackCap
      · rw [if_pos hRoom]
        have hPush := reserve_push hRoom
        show (1004 + reserve (stackCap - (stack.length + 1)) + stackLoad stack) +
            reserve (stackCap - (stack.length + 1)) + (1001 - (count + 1)) + 1 <
          stackLoad stack + reserve (stackCap - stack.length) + (1001 - count) + 1
        omega
      · rw [if_neg hRoom]
        show stackLoad stack + reserve (stackCap - stack.length) + (1001 - (count + 1)) + 1 <
          stackLoad stack + reserve (stackCap - stack.length) + (1001 - count) + 1
        omega

theorem freeAllIn_ends (mem : Nat → Bool) (s : Store) (root : Nat) :
    ∃ passes r, freeAllIn mem s root passes = some r := by
  obtain ⟨r, hRun, -⟩ := runLoop_of_measure (fun _ => True) collectLeft
    (Q := fun _ => True) (fun p q _ h => ⟨trivial, collectPass_less mem s h⟩)
    (fun _ _ _ _ => trivial) (s := (⟨[(root, false)], [], 0, 1⟩, none)) trivial (Nat.lt_succ_self _)
  refine ⟨collectLeft (⟨[(root, false)], [], 0, 1⟩, none) + 1, ?_⟩
  unfold freeAllIn
  rw [hRun]
  split_ifs
  · exact ⟨_, rfl⟩
  · exact ⟨_, rfl⟩
  · cases r with
    | none => exact ⟨_, rfl⟩
    | some toFree => exact ⟨_, rfl⟩

/-- The passes over the children of a node push what `pushSiblings` pushes. -/
theorem runLoop_siblings (mem : Nat → Bool) (s : Store) : ∀ (left child count : Nat) (c : Collect),
    left + count = 1000 → ∃ m, ∀ passes,
      runLoop (collectPass mem s) (passes + m) (c, some (child, count)) =
        runLoop (collectPass mem s) passes
          ({ c with stack := pushSiblings s left child c.stack }, none) := by
  intro left
  induction left with
  | zero =>
    intro child count c hCount
    refine ⟨1, fun passes => runLoop_inl ?_ passes⟩
    have hMany : 1000 < count + 1 := by omega
    unfold collectPass
    dsimp only
    rw [if_pos hMany]
    split_ifs
    · rfl
    · rfl
  | succ left ih =>
    intro child count c hCount
    have hFew : ¬ 1000 < count + 1 := by omega
    -- every way out of the loop leaves the stack as it is
    have hOut : ∀ {stack : List (Nat × Bool)}, stack = c.stack →
        collectPass mem s (c, some (child, count)) = .inl (c, none) → ∃ m, ∀ passes,
        runLoop (collectPass mem s) (passes + m) (c, some (child, count)) =
          runLoop (collectPass mem s) passes ({ c with stack := stack }, none) := by
      rintro stack rfl hPass
      exact ⟨1, fun passes => runLoop_inl hPass passes⟩
    generalize hNext : collectPass mem s (c, some (child, count)) = next at hOut
    have hPass := hNext
    unfold collectPass at hPass
    unfold pushSiblings
    dsimp only at hPass
    by_cases hZero : child = 0
    · rw [if_pos hZero] at hPass
      exact hOut (if_pos hZero) hPass.symm
    rw [if_neg hZero, if_neg hFew] at hPass
    rw [if_neg hZero]
    by_cases hRef : validateTrieRef child = false
    · rw [if_pos hRef] at hPass
      exact hOut (if_pos hRef) hPass.symm
    rw [if_neg hRef] at hPass ⊢
    cases hNode : s child with
    | none =>
      rw [hNode] at hPass
      exact hOut rfl hPass.symm
    | some cn =>
      rw [hNode] at hPass
      dsimp only at hPass ⊢
      by_cases hSelf : cn.nextSibling = child
      · rw [if_pos hSelf] at hPass
        exact hOut (if_pos hSelf) hPass.symm
      rw [if_neg hSelf] at hPass ⊢
      rw [← hPass] at hNext
      obtain ⟨m, hRest⟩ := ih cn.nextSibling (count + 1)
        { c with stack := if c.stack.length < stackCap then (child, false) :: c.stack else c.stack }
        (by omega)
      refine ⟨m + 1, fun passes => ?_⟩
      rw [← Nat.add_assoc, runLoop_inl hNext]
      exact hRest passes

/-- With memory enough the passes collect what `collectRefs` collects. -/
theorem runLoop_collect (s : Store) : ∀ (fuel : Nat) (c : Collect) {out : List Nat},
    collectRefs s fuel c.stack c.toFree = some out →
    ∃ passes, runLoop (collectPass (fun _ => true) s) passes (c, none) = some (some out) := by
  intro fuel
  induction fuel with
  | zero => exact fun _ _ h => absurd h.symm (Option.some_ne_none _)
  | succ fuel ih =>
    intro c out h
    obtain ⟨stack, toFree, cap, asked⟩ := c
    have hMore : ∀ next : Collect,
        collectPass (fun _ => true) s (⟨stack, toFree, cap, asked⟩, none) = .inl (next, none) →
        collectRefs s fuel next.stack next.toFree = some out →
        ∃ passes, runLoop (collectPass (fun _ => true) s) passes
          (⟨stack, toFree, cap, asked⟩, none) = some (some out) := by
      intro next hPass hNext
      obtain ⟨passes, hRun⟩ := ih next hNext
      exact ⟨passes + 1, (runLoop_inl hPass passes).trans hRun⟩
    cases stack with
    | nil =>
      cases h
      exact ⟨1, rfl⟩
    | cons x below =>
      obtain ⟨ref, state⟩ := x
      cases state with
      | true =>
        by_cases hFull : cap ≤ toFree.length
        · exact hMore _ (if_pos hFull) h
        · exact hMore _ (if_neg hFull) h
      | false =>
        dsimp only at h
        unfold collectRefs at h
        cases hNode : s ref with
        | none =>
          rw [hNode] at h
          refine hMore ⟨below, toFree, cap, asked⟩ ?_ h
          unfold collectPass
          dsimp only
          rw [hNode]
        | some node =>
          rw [hNode] at h
          obtain ⟨m, hSiblings⟩ := runLoop_siblings (fun _ => true) s 1000 node.firstChild 0
            ⟨(ref, true) :: below, toFree, cap, asked⟩ rfl
          obtain ⟨passes, hRun⟩ := ih
            ⟨pushSiblings s 1000 node.firstChild ((ref, true) :: below), toFree, cap, asked⟩ h
          have hPass :
              collectPass (fun _ => true) s (⟨(ref, false) :: below, toFree, cap, asked⟩, none) =
                .inl (⟨(ref, true) :: below, toFree, cap, asked⟩, some (node.firstChild, 0)) := by
            unfold collectPass
            dsimp only
            rw [hNode]
          refine ⟨passes + m + 1, ?_⟩
          rw [runLoop_inl hPass, hSiblings passes]
          exact hRun

/-- It does what `freeAll` does if memory suffices. -/
theorem freeAllIn_eq {s : Store} {root fuel : Nat} {r : Nat × List Nat}
    (h : freeAll s root fuel = some r) :
    ∃ passes, freeAllIn (fun _ => true) s root passes = some r := by
  unfold freeAll at h
  unfold freeAllIn
  by_cases hRoot : root = 0
  · rw [if_pos hRoot] at h
    simp only [if_pos hRoot]
    exact ⟨0, h⟩
  rw [if_neg hRoot] at h
  simp only [if_neg hRoot]
  obtain ⟨toFree, hCollect, rfl⟩ := Option.map_eq_some_iff.mp h
  obtain ⟨passes, hRun⟩ := runLoop_collect s fuel ⟨[(root, false)], [], 0, 1⟩ hCollect
  refine ⟨passes, ?_⟩
  rw [hRun]
  rfl

--
-- The walk over all reachable nodes
--

section Reach

variable {σ ε : Type}

/-- A null reference is not pushed. -/
def TrieIter.pushRef (mem : Nat → Bool) (it : TrieIter) (ref : Nat) : TrieIter × Option IterErrno :=
  if ref = 0 then (it, none) else it.push mem ref false

/-- One pass of the loop of `trie_walk_reachable` with a visitor: the iterator, the nodes read so
far and the argument of the visitor. -/
def reachPass (mem : Nat → Bool) (s : Store) (cap : Nat) (visit : Nat → Node → σ → σ × Option ε) :
    TrieIter × Nat × σ → (TrieIter × Nat × σ) ⊕ (σ × Except (ε ⊕ IterErrno) Nat)
  | (it, visited, arg) =>
    match it.stack with
    | [] => .inr (arg, .ok visited)
    | (ref, _) :: rest =>
      if cap ≤ visited then .inr (arg, .ok visited)
      else
        match s ref with
        | none => .inl ({ it with stack := rest }, visited, arg)
        | some node =>
          match ({ it with stack := rest } : TrieIter).noteVisit mem ref with
          | (_, true) => .inr (arg, .ok (visited + 1))
          | (it, false) =>
            match visit ref node arg with
            | (arg, some err) => .inr (arg, .error (.inl err))
            | (arg, none) =>
              match it.pushRef mem node.firstChild with
              | (_, some err) => .inr (arg, .error (.inr err))
              | (it, none) =>
                match it.pushRef mem node.nextSibling with
                | (_, some err) => .inr (arg, .error (.inr err))
                | (it, none) => .inl (it, visited + 1, arg)

/-- `trie_walk_reachable`: the argument of the visitor afterwards, and `visited_out` or the
error. -/
def walkReachable (mem : Nat → Bool) (blockCount : Nat) (s : Store)
    (visit : Nat → Node → σ → σ × Option ε) (root passes : Nat) (arg : σ) :
    Option (σ × Except (ε ⊕ IterErrno) Nat) :=
  if root = 0 then some (arg, .ok 0)
  else if !(mem 0 && mem 1 && mem 2) then some (arg, .error (.inr .enomem))
  else
    match ({ TrieIter.alloc with asked := 3 } : TrieIter).push mem root false with
    | (_, some err) => some (arg, .error (.inr err))
    | (it, none) =>
      runLoop (reachPass mem s (blockCount * slotsPerBlock + 1024) visit) passes (it, 0, arg)

/-- A visit weighs more than the two nodes it may push. -/
def reachLeft (cap : Nat) (p : TrieIter × Nat × σ) : Nat := 3 * (cap - p.2.1) + p.1.stack.length

theorem TrieIter.pushRef_length {mem : Nat → Bool} {it it' : TrieIter} {ref : Nat}
    (h : it.pushRef mem ref = (it', none)) : it'.stack.length ≤ it.stack.length + 1 := by
  unfold TrieIter.pushRef at h
  by_cases hZero : ref = 0
  · rw [if_pos hZero] at h
    cases h
    exact Nat.le_succ _
  · rw [if_neg hZero] at h
    rcases TrieIter.push_does mem it ref false with ⟨it₁, hPush, hPushed⟩ | ⟨it₁, err, hPush, -⟩
    · rw [hPush] at h
      cases h
      rw [hPushed.stack]
      exact Nat.le_refl _
    · rw [hPush] at h
      cases h

theorem reachPass_less (mem : Nat → Bool) (s : Store) (cap : Nat)
    (visit : Nat → Node → σ → σ × Option ε) {p q : TrieIter × Nat × σ}
    (h : reachPass mem s cap visit p = .inl q) : reachLeft cap q < reachLeft cap p := by
  obtain ⟨it, visited, arg⟩ := p
  have hLeft : reachLeft cap (it, visited, arg) = 3 * (cap - visited) + it.stack.length := rfl
  unfold reachPass at h
  dsimp only at h
  cases hStack : it.stack with
  | nil =>
    rw [hStack] at h
    cases h
  | cons x rest =>
    obtain ⟨ref, flag⟩ := x
    rw [hLeft, hStack, List.length_cons]
    rw [hStack] at h
    dsimp only at h
    by_cases hCap : cap ≤ visited
    · rw [if_pos hCap] at h
      cases h
    rw [if_neg hCap] at h
    cases hNode : s ref with
    | none =>
      rw [hNode] at h
      cases h
      show 3 * (cap - visited) + rest.length < _
      omega
    | some node =>
      rw [hNode] at h
      dsimp only at h
      obtain ⟨it₁, fires, hNote, hNoted⟩ :=
        TrieIter.noteVisit_does mem { it with stack := rest } ref
      rw [hNote] at h
      cases fires with
      | true => cases h
      | false =>
        dsimp only at h
        generalize visit ref node arg = seen at h
        obtain ⟨arg', failed⟩ := seen
        cases failed with
        | some err => cases h
        | none =>
          dsimp only at h
          generalize hFirst : it₁.pushRef mem node.firstChild = first at h
          obtain ⟨it₂, err₂⟩ := first
          cases err₂ with
          | some err => cases h
          | none =>
            dsimp only at h
            generalize hNext : it₂.pushRef mem node.nextSibling = next at h
            obtain ⟨it₃, err₃⟩ := next
            cases err₃ with
            | some err => cases h
            | none =>
              cases h
              have hOne := TrieIter.pushRef_length hFirst
              have hTwo := TrieIter.pushRef_length hNext
              have hRest := congrArg List.length hNoted.stack
              dsimp only at hRest
              show 3 * (cap - (visited + 1)) + it₃.stack.length < _
              omega

theorem walkReachable_ends (mem : Nat → Bool) (blockCount : Nat) (s : Store)
    (visit : Nat → Node → σ → σ × Option ε) (root : Nat) (arg : σ) :
    ∃ passes r, walkReachable mem blockCount s visit root passes arg = some r := by
  unfold walkReachable
  by_cases hZero : root = 0
  · simp only [if_pos hZero]
    exact ⟨0, _, rfl⟩
  simp only [if_neg hZero]
  by_cases hMem : (!(mem 0 && mem 1 && mem 2)) = true
  · simp only [if_pos hMem]
    exact ⟨0, _, rfl⟩
  simp only [if_neg hMem]
  generalize ({ TrieIter.alloc with asked := 3 } : TrieIter).push mem root false = start
  obtain ⟨it, err⟩ := start
  cases err with
  | some err => exact ⟨0, _, rfl⟩
  | none =>
    obtain ⟨r, hRun, -⟩ := runLoop_of_measure (fun _ => True)
      (reachLeft (blockCount * slotsPerBlock + 1024)) (Q := fun _ => True)
      (fun p q _ h => ⟨trivial, reachPass_less mem s _ visit h⟩) (fun _ _ _ _ => trivial)
      (s := (it, 0, arg)) trivial (Nat.lt_succ_self _)
    exact ⟨_, r, hRun⟩

end Reach

--
-- All of them
--

/-- On any pages, whatever links they hold and whichever requests for memory are denied, a lookup,
an insertion and a removal return what the operations without loops return, and
`briefs_trie_free_all`, `trie_walk_reachable` and a loop of `briefs_trie_iter_next` return. -/
theorem walks_end {σ ε : Type} (w : World) (s : Store) (mem : Nat → Bool) (root : Nat)
    (name : List UInt8) (ino type : Nat) (visit : Nat → Node → σ → σ × Option ε) (arg : σ)
    (blockCount gen : Nat) (it : TrieIter) :
    (∃ n, ∀ passes, n ≤ passes →
      Looped.trieLookup root name passes w = some (trieLookup root name w) ∧
      Looped.trieInsert root name ino type passes w = some (trieInsert root name ino type w) ∧
      Looped.trieRemove root name passes w = some (trieRemove root name w)) ∧
    (∃ passes r, freeAllIn mem s root passes = some r) ∧
    (∃ passes r, walkReachable mem blockCount s visit root passes arg = some r) ∧
    ∃ passes calls r, it.drain mem blockCount s gen passes calls = some r := by
  refine ⟨⟨siblingMax + 2, fun passes hn => ⟨?_, ?_, ?_⟩⟩, freeAllIn_ends mem s root,
    walkReachable_ends mem blockCount s visit root arg, ?_⟩
  · exact Looped.trieLookup_computes (Nat.lt_succ_self _) root name passes w hn
  · exact Looped.trieInsert_computes (Nat.lt_succ_self _) root name ino type passes w hn
  · exact Looped.trieRemove_computes (Nat.lt_succ_self _) root name passes w hn
  · exact TrieIter.drain_returns mem blockCount s gen it

end Briefs.Trie
