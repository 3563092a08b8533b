import Briefs.Lib.Steps
import Mathlib.Logic.Function.Basic

/-!
# BrieFS — inodes in memory and file handles

The VFS keeps the inodes in memory in chains, by a hash of their number. `briefs_iget` looks for the
number. `briefs_iget_with_gen`, for file handles, looks for the generation only
(`briefs_iget5_test`), in the chain of the number. An inode that is not found is hashed and then
filled from its slot; if that fails, or if it turns out to have another generation, it stays hashed.

So a handle for a number that is in memory under another generation leaves a second inode behind,
a failed fill leaves an empty one, and generation 0, which `briefs_get_parent` asks for, finds any
inode of the chain. `birth` tells the inodes apart that were ever created.

## Results

* `handle_resolves_to_its_inode` — a handle finds the inode it was made of or none, in every run,
  unless two inodes have drawn the same generation.
-/

namespace Briefs.Inode

open Briefs.Steps

--
-- Chains
--

/-- An inode in memory; one whose fill failed has no `birth`. -/
@[ext]
structure Vnode where
  ino   : Nat
  gen   : Nat
  birth : Option Nat
deriving DecidableEq

/-- `slots` has the generation and the birth of the inode in each slot, and `born` the number and
the generation of every inode that was created. -/
structure Icache where
  chains : Nat → List Vnode
  slots  : Nat → Option (Nat × Nat)
  born   : List (Nat × Nat)

inductive LookupError where
  | eio
  | einval
  | estale

/-- `peek` and `fill` say which reads of the slot work. The last `iput` of an inode removes it from
the disk too if it has no link. -/
inductive LookupEvent where
  | create (ino gen : Nat)
  | evict (v : Vnode) (unlinked : Bool)
  | iget (ino : Nat) (fill : Bool)
  | igetWithGen (ino gen : Nat) (peek fill : Bool)

/-- `briefs_iget5_test`. -/
def iget5Test (gen : Nat) (v : Vnode) : Bool := gen == 0 || v.gen == gen

namespace Icache

variable (hash : Nat → Nat) (s : Icache)

def chain (ino : Nat) : List Vnode := s.chains (hash ino)

def setChain (ino : Nat) (l : List Vnode) : Icache :=
  { s with chains := Function.update s.chains (hash ino) l }

/-- `briefs_read_and_fill_inode`. -/
def readAndFillInode (ino : Nat) (fill : Bool) : Except LookupError Vnode :=
  if fill then
    match s.slots ino with
    | some (gen, n) => .ok ⟨ino, gen, some n⟩
    | none => .error .einval
  else .error .eio

/-- The part of both lookups after `iget_locked` or `iget5_locked`: `found` is in its chain, and
else a new inode has been hashed. -/
def fillNew (found : Option Vnode) (ino : Nat) (fill : Bool) :
    Except LookupError Vnode × Icache :=
  match found with
  | some v => (.ok v, s)
  | none =>
    match s.readAndFillInode ino fill with
    | .ok v => (.ok v, s.setChain hash ino (v :: s.chain hash ino))
    | .error e => (.error e, s.setChain hash ino (⟨ino, 0, none⟩ :: s.chain hash ino))

/-- `briefs_iget`. -/
def iget (ino : Nat) (fill : Bool) : Except LookupError Vnode × Icache :=
  s.fillNew hash ((s.chain hash ino).find? (·.ino == ino)) ino fill

/-- What `briefs_iget_with_gen` checks before it hashes anything. -/
def peekSlot (ino gen : Nat) (peek : Bool) : Option LookupError :=
  if gen = 0 then none
  else if ino = 0 then some .estale
  else if peek then if s.slots ino = none then some .estale else none
  else some .eio

/-- `briefs_iget_with_gen`. -/
def igetWithGen (ino gen : Nat) (peek fill : Bool) : Except LookupError Vnode × Icache :=
  match s.peekSlot ino gen peek with
  | some e => (.error e, s)
  | none =>
    let (found, next) := s.fillNew hash ((s.chain hash ino).find? (iget5Test gen)) ino fill
    match found with
    | .ok v => if gen ≠ 0 ∧ v.gen ≠ gen then (.error .estale, next) else (.ok v, next)
    | .error e => (.error e, next)

/-- `create` is `briefs_new_inode`: it gets a free number, and fails if that number is hashed. -/
def step (s : Icache) : LookupEvent → Option Icache
  | .create ino gen =>
    if s.slots ino = none ∧ ino ≠ 0 then
      if (s.chain hash ino).any (·.ino == ino) then some s
      else some
        { s.setChain hash ino (⟨ino, gen, some s.born.length⟩ :: s.chain hash ino) with
          slots := Function.update s.slots ino (some (gen, s.born.length))
          born := s.born ++ [(ino, gen)] }
    else none
  | .evict v unlinked =>
    if v ∈ s.chain hash v.ino ∧ (unlinked = true → v.birth ≠ none) then
      let next := s.setChain hash v.ino ((s.chain hash v.ino).erase v)
      some (if unlinked then { next with slots := Function.update s.slots v.ino none } else next)
    else none
  | .iget ino fill => some (s.iget hash ino fill).2
  | .igetWithGen ino gen peek fill => some (s.igetWithGen hash ino gen peek fill).2

/-- At the mount nothing is hashed; `born` has the inodes that the slots hold. -/
structure AtMount : Prop where
  chains : ∀ k, s.chains k = []
  slots  : ∀ ino gen n, s.slots ino = some (gen, n) → s.born[n]? = some (ino, gen)

end Icache

--
-- Births
--

namespace Icache

variable {hash : Nat → Nat} {s t start : Icache} {v w : Vnode} {ino gen : Nat}

/-- An inode is one of those that were created, or empty. -/
def Known (s : Icache) (v : Vnode) : Prop :=
  (∃ n, v.birth = some n ∧ s.born[n]? = some (v.ino, v.gen)) ∨ (v.birth = none ∧ v.gen = 0)

structure Good (s : Icache) : Prop where
  slots  : ∀ ino gen n, s.slots ino = some (gen, n) → s.born[n]? = some (ino, gen)
  vnodes : ∀ k v, v ∈ s.chains k → s.Known v

theorem mem_setChain {l : List Vnode} {k : Nat} (h : v ∈ (s.setChain hash ino l).chains k) :
    (k = hash ino ∧ v ∈ l) ∨ (k ≠ hash ino ∧ v ∈ s.chains k) := by
  dsimp only [setChain] at h
  by_cases hk : k = hash ino
  · subst hk
    rw [Function.update_self] at h
    exact .inl ⟨rfl, h⟩
  · rw [Function.update_of_ne hk] at h
    exact .inr ⟨hk, h⟩

/-- Hashing one more inode. -/
theorem Good.setChain (h : s.Good) (ino : Nat) {l : List Vnode} (hl : ∀ v ∈ l, s.Known v) :
    (s.setChain hash ino l).Good := by
  refine ⟨h.slots, fun k v hv => ?_⟩
  obtain ⟨-, hv⟩ | ⟨-, hv⟩ := mem_setChain hv
  · exact hl v hv
  · exact h.vnodes k v hv

/-- What a lookup with the test `p` leaves, and what it returns. -/
theorem Good.fillNew (h : s.Good) (hash : Nat → Nat) (ino : Nat) (fill : Bool) (p : Vnode → Bool) :
    let (found, next) := s.fillNew hash ((s.chain hash ino).find? p) ino fill
    next.Good ∧ next.born = s.born ∧ ∀ v, found = .ok v → s.Known v := by
  have hPut : ∀ v, s.Known v → (s.setChain hash ino (v :: s.chain hash ino)).Good := by
    intro v hv
    exact h.setChain ino (List.forall_mem_cons.2 ⟨hv, h.vnodes (hash ino)⟩)
  unfold Icache.fillNew
  cases hFound : (s.chain hash ino).find? p with
  | some v =>
    refine ⟨h, rfl, fun w hEq => ?_⟩
    cases hEq
    exact h.vnodes _ v (List.mem_of_find?_eq_some hFound)
  | none =>
    unfold readAndFillInode
    cases fill with
    | false => exact ⟨hPut _ (.inr ⟨rfl, rfl⟩), rfl, fun v hEq => by cases hEq⟩
    | true =>
      cases hSlot : s.slots ino with
      | none => exact ⟨hPut _ (.inr ⟨rfl, rfl⟩), rfl, fun v hEq => by cases hEq⟩
      | some slot =>
        have hKnown : s.Known ⟨ino, slot.1, some slot.2⟩ := .inl ⟨slot.2, rfl, h.slots _ _ _ hSlot⟩
        exact ⟨hPut _ hKnown, rfl, fun v hEq => by cases hEq; exact hKnown⟩

/-- What `briefs_iget_with_gen` leaves, and what it returns. -/
theorem Good.igetWithGen (h : s.Good) (hash : Nat → Nat) (ino gen : Nat) (peek fill : Bool) :
    (s.igetWithGen hash ino gen peek fill).2.Good ∧
      (s.igetWithGen hash ino gen peek fill).2.born = s.born ∧
      ∀ v, (s.igetWithGen hash ino gen peek fill).1 = .ok v →
        s.Known v ∧ (gen ≠ 0 → v.gen = gen) := by
  obtain ⟨hGood, hBorn, hKnown⟩ := h.fillNew hash ino fill (iget5Test gen)
  unfold Icache.igetWithGen
  split
  · exact ⟨h, rfl, fun v hEq => by cases hEq⟩
  dsimp only
  split
  · rename_i v hOk
    split
    · exact ⟨hGood, hBorn, fun v hEq => by cases hEq⟩
    · rename_i hGen
      refine ⟨hGood, hBorn, fun w hEq => ?_⟩
      cases hEq
      exact ⟨hKnown v hOk, fun hNe => not_not.1 fun hOther => hGen ⟨hNe, hOther⟩⟩
  · exact ⟨hGood, hBorn, fun v hEq => by cases hEq⟩

/-- Births stay. -/
def Extends (s t : Icache) : Prop :=
  ∀ (n : Nat) (x : Nat × Nat), s.born[n]? = some x → t.born[n]? = some x

theorem Known.mono (h : s.Known v) (hBorn : s.Extends t) : t.Known v :=
  h.imp_left fun ⟨n, hBirth, hGet⟩ => ⟨n, hBirth, hBorn n _ hGet⟩

theorem Good.step {e : LookupEvent} (h : s.Good) (hEq : step hash s e = some t) :
    t.Good ∧ s.Extends t := by
  cases e with
  | create ino gen =>
    obtain ⟨-, hEq⟩ := Option.ite_none_right_eq_some.1 hEq
    split at hEq
    · cases hEq
      exact ⟨h, fun _ _ => id⟩
    cases hEq
    have hBorn : ∀ (n : Nat) (x : Nat × Nat), s.born[n]? = some x →
        (s.born ++ [(ino, gen)])[n]? = some x := by
      intro n x hGet
      rwa [List.getElem?_append_left (List.getElem?_eq_some_iff.1 hGet).1]
    have hNew : (s.born ++ [(ino, gen)])[s.born.length]? = some (ino, gen) := by simp
    refine ⟨⟨fun i g n hSlot => ?_, fun k v hv => ?_⟩, hBorn⟩
    · dsimp only at hSlot
      rw [Function.update_apply] at hSlot
      split at hSlot
      · rename_i hi
        cases hSlot
        rwa [hi]
      · exact hBorn _ _ (h.slots i g n hSlot)
    · obtain ⟨-, hv⟩ | ⟨-, hv⟩ := mem_setChain hv
      · obtain rfl | hv := List.mem_cons.1 hv
        · exact .inl ⟨_, rfl, hNew⟩
        · exact (h.vnodes _ v hv).mono hBorn
      · exact (h.vnodes k v hv).mono hBorn
  | evict v unlinked =>
    obtain ⟨-, hEq⟩ := Option.ite_none_right_eq_some.1 hEq
    have hNext : (s.setChain hash v.ino ((s.chain hash v.ino).erase v)).Good :=
      h.setChain v.ino fun w hw => h.vnodes _ w (List.mem_of_mem_erase hw)
    cases hEq
    cases unlinked with
    | false => exact ⟨hNext, fun _ _ => id⟩
    | true =>
      refine ⟨⟨fun i g n hSlot => ?_, hNext.vnodes⟩, fun _ _ => id⟩
      rw [if_pos rfl] at hSlot
      dsimp only at hSlot
      rw [Function.update_apply] at hSlot
      split at hSlot
      · cases hSlot
      · exact h.slots i g n hSlot
  | iget ino fill =>
    cases hEq
    obtain ⟨hGood, hBorn, -⟩ := h.fillNew hash ino fill (·.ino == ino)
    exact ⟨hGood, fun n x hGet => (congrArg (·[n]?) hBorn).trans hGet⟩
  | igetWithGen ino gen peek fill =>
    cases hEq
    obtain ⟨hGood, hBorn, -⟩ := h.igetWithGen hash ino gen peek fill
    exact ⟨hGood, fun n x hGet => (congrArg (·[n]?) hBorn).trans hGet⟩

theorem AtMount.good (h : s.AtMount) : s.Good :=
  ⟨h.slots, fun k _ hv => absurd (h.chains k ▸ hv) List.not_mem_nil⟩

/-- A handle that is made of an inode in memory finds that inode again, or nothing, whatever is
created, removed, evicted and looked up in between, unless two inodes have the same generation. -/
theorem handle_resolves_to_its_inode (hash : Nat → Nat) {k : Nat} {peek fill : Bool}
    (hMount : start.AtMount) (hBefore : Run (step hash) (fun _ _ => True) start s)
    (hMem : v ∈ s.chains k) (hGen : v.gen ≠ 0) (hRun : Run (step hash) (fun _ _ => True) s t)
    (hDistinct : (t.born.map Prod.snd).Nodup)
    (hFound : (t.igetWithGen hash v.ino v.gen peek fill).1 = .ok w) : w = v := by
  have hStart : s.Good := hBefore.invariant (I := Good) hMount.good fun h _ hEq => (h.step hEq).1
  obtain ⟨hGood, hKnown⟩ := hRun.invariant (I := fun x => x.Good ∧ x.Known v)
    ⟨hStart, hStart.vnodes k v hMem⟩
    fun h _ hEq => ⟨(h.1.step hEq).1, h.2.mono (h.1.step hEq).2⟩
  obtain ⟨hKnown', hSame⟩ := (hGood.igetWithGen hash _ _ peek fill).2.2 w hFound
  have hSame := hSame hGen
  obtain ⟨n, hBirth, hBorn⟩ | ⟨-, hZero⟩ := hKnown
  · obtain ⟨m, hBirth', hBorn'⟩ | ⟨-, hZero⟩ := hKnown'
    · have hEq : m = n := by
        refine (List.getElem?_inj ?_ hDistinct).1 ?_
        · rw [List.length_map]
          exact (List.getElem?_eq_some_iff.1 hBorn').1
        · rw [List.getElem?_map, List.getElem?_map, hBorn, hBorn', Option.map_some, Option.map_some,
            hSame]
      subst hEq
      have hIno : w.ino = v.ino := congrArg Prod.fst (Option.some.inj (hBorn'.symm.trans hBorn))
      exact Vnode.ext hIno hSame (hBirth'.trans hBirth.symm)
    · exact absurd (hSame.symm.trans hZero) hGen
  · exact absurd hZero hGen

/-- Nothing has been created. -/
def unused : Icache := ⟨fun _ => [], fun _ => none, []⟩

/-- The state after the events, with two chains. -/
abbrev on (s : Icache) (es : List LookupEvent) : Icache :=
  after (step (· % 2)) (fun _ _ => True) s es

/-- Inode 2 is evicted, and its handle reads it again. -/
abbrev evicted : Icache :=
  (unused.on [.create 2 7]).on [.evict ⟨2, 7, some 0⟩ false, .create 4 8]

theorem handle_resolves_to_its_inode_evicted :
    ∃ w, (evicted.igetWithGen (· % 2) 2 7 true true).1 = .ok w ∧ w = ⟨2, 7, some 0⟩ := by
  refine ⟨⟨2, 7, some 0⟩, rfl, ?_⟩
  exact handle_resolves_to_its_inode (· % 2) (s := unused.on [.create 2 7]) (t := evicted) (k := 0)
    ⟨fun _ => rfl, fun _ _ _ h => by cases h⟩ (.of_after (s := unused) (by decide)) (by decide)
    (by decide) (.of_after (by decide)) (by decide)
    (show (evicted.igetWithGen (· % 2) 2 7 true true).1 = _ from rfl)

-- A stale handle leaves a second inode 2 behind.
example :
    (unused.on [.create 2 7, .igetWithGen 2 5 true true]).chains 0 =
      [⟨2, 7, some 0⟩, ⟨2, 7, some 0⟩] := by
  decide

-- The parent of a directory is looked up with generation 0, and another inode is found.
example :
    ((unused.on [.create 2 7, .create 4 8]).igetWithGen (· % 2) 2 0 true true).1.toOption =
      some ⟨4, 8, some 1⟩ := by
  decide

end Icache

end Briefs.Inode
