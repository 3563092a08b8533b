import Briefs.Lib.Loop
import Briefs.Trie.Walk

/-!
# BrieFS — the trie iterator and memory

The iterator of an open directory (`trie.c`) once more, with every allocation it makes: the
stack grows by doubling and a call fails if it cannot, the revisit table is allocated when a walk
is long and counting ends if it cannot be, and a checkpoint for which there is no memory is not
recorded. `mem` says which requests are granted, the first one being number 0.

The two nested loops of `briefs_trie_iter_next` are passes of one loop: a pass pops a node, or
pushes one child of the node popped last. A loop need not end here; `Iter.next` of the other
module is the walk of a sound trie, where it does.

## Results

* `pass_does` — all that one pass can do.
-/

namespace Briefs.Trie

open Briefs.Lib

/-- The error numbers the iterator returns, negated, in the source. -/
inductive IterErrno where
  | enoent
  | estale
  | eio
  | enomem
deriving DecidableEq, Repr

/-- `struct trie_iter`. The stack has its top first; `table` is the revisit table, once it is
allocated; `asked` counts the requests for memory. -/
structure TrieIter where
  stack       : List (Nat × Bool)
  cap         : Nat
  pending     : Option Entry
  gen         : Nat
  emitIdx     : Nat
  visited     : Nat
  visitCap    : Nat
  table       : Option (Nat → Nat × Nat)
  tableFailed : Bool
  ckpts       : List Ckpt
  ckptCap     : Nat
  ckptStride  : Nat
  ckptBytes   : Nat
  asked       : Nat

namespace TrieIter

variable (mem : Nat → Bool)

/-- `briefs_trie_iter_alloc`, when it succeeds. -/
def alloc : TrieIter where
  stack       := []
  cap         := 256
  pending     := none
  gen         := 0
  emitIdx     := 0
  visited     := 0
  visitCap    := 0
  table       := none
  tableFailed := false
  ckpts       := []
  ckptCap     := 0
  ckptStride  := ckptStrideInit
  ckptBytes   := 0
  asked       := 0

/-- `trie_iter_visit_reset`. -/
def visitReset (it : TrieIter) : TrieIter := { it with table := none, tableFailed := false }

/-- `briefs_trie_iter_init`. -/
def init (it : TrieIter) (root gen : Nat) : TrieIter :=
  { it with
    stack    := if root = 0 then [] else [(root, false)]
    pending  := none
    gen      := gen
    emitIdx  := 0
    visited  := 0
    visitCap := 0 }.visitReset

/-- `trie_iter_push` with `trie_iter_grow`: the stack is never higher than its arrays, so that
doubling them once makes room. -/
def push (it : TrieIter) (ref : Nat) (emitted : Bool) : TrieIter × Option IterErrno :=
  if it.stack.length + 1 ≤ it.cap then ({ it with stack := (ref, emitted) :: it.stack }, none)
  else if iterMaxSp < it.cap * 2 then (it, some .eio)
  else if mem it.asked = false then ({ it with asked := it.asked + 1 }, some .enomem)
  else if mem (it.asked + 1) = false then ({ it with asked := it.asked + 2 }, some .enomem)
  else ({ it with
    stack := (ref, emitted) :: it.stack, cap := it.cap * 2, asked := it.asked + 2 }, none)

/-- One visit of a reference in the revisit table; `true` if it was one too many. -/
def bump (t : Nat → Nat × Nat) (ref : Nat) : (Nat → Nat × Nat) × Bool :=
  let slot := t (Iter.visitSlot ref)
  if slot.2 ≠ 0 ∧ slot.1 = ref then
    (Function.update t (Iter.visitSlot ref) (ref, slot.2 + 1), decide (refMaxVisits < slot.2 + 1))
  else (Function.update t (Iter.visitSlot ref) (ref, 1), false)

/-- `trie_iter_note_visit`; `true` for -EIO. -/
def noteVisit (it : TrieIter) (ref : Nat) : TrieIter × Bool :=
  let it := { it with visited := it.visited + 1 }
  if it.visited ≤ visitEngage then (it, false)
  else if it.tableFailed = true then (it, false)
  else
    match it.table with
    | some t => ({ it with table := some (bump t ref).1 }, (bump t ref).2)
    | none =>
      if mem it.asked = false then ({ it with tableFailed := true, asked := it.asked + 1 }, false)
      else
        let t : Nat → Nat × Nat := fun _ => (0, 0)
        ({ it with table := some (bump t ref).1, asked := it.asked + 1 }, (bump t ref).2)

/-- One pass: a node is popped, or, after `some child`, that child is pushed. -/
def pass (s : Store) :
    TrieIter × Option Nat → (TrieIter × Option Nat) ⊕ (TrieIter × Except IterErrno Entry)
  | (it, none) =>
    match it.stack with
    | [] => .inr (it, .error .enoent)
    | (ref, emitted) :: rest =>
      if it.visitCap < it.visited then .inr (it, .error .eio)
      else
        let it := { it with stack := rest }
        match s ref with
        | none => .inl (it, none)
        | some node =>
          match it.noteVisit mem ref with
          | (it, true) => .inr (it, .error .eio)
          | (it, false) =>
            if !emitted && node.emits then
              -- a leaf with children is pushed again, to descend later
              if node.firstChild = 0 then .inr (it, .ok node.entry)
              else
                match it.push mem ref true with
                | (it, some err) => .inr (it, .error err)
                | (it, none) => .inr (it, .ok node.entry)
            else .inl (it, some node.firstChild)
  | (it, some child) =>
    if child = 0 then .inl (it, none)
    else
      match it.push mem child false with
      | (it, some err) => .inr (it, .error err)
      | (it, none) =>
        match s child with
        | none => .inl (it, none)
        | some cn =>
          match it.noteVisit mem child with
          | (it, true) => .inr (it, .error .eio)
          | (it, false) =>
            if it.visitCap < it.visited then .inr (it, .error .eio)
            else .inl (it, some cn.nextSibling)

/-- The cap on visits, set on the first call. -/
def withCap (it : TrieIter) (blockCount : Nat) : TrieIter :=
  if it.visitCap = 0 then { it with visitCap := blockCount * slotsPerBlock + 1024 } else it

/-- `briefs_trie_iter_next`; no result if its loop has not ended after `passes`. -/
def next (blockCount : Nat) (s : Store) (currentGen passes : Nat) (it : TrieIter) :
    Option (TrieIter × Except IterErrno Entry) :=
  if it.gen ≠ currentGen then some (it, .error .estale)
  else
    let it := it.withCap blockCount
    match it.pending with
    | some e => some ({ it with pending := none }, .ok e)
    | none => runLoop (pass mem s) passes (it, none)

/-- Calls until one returns an error: the error, and the entries before. -/
def drain (blockCount : Nat) (s : Store) (currentGen passes : Nat) :
    Nat → TrieIter → Option (TrieIter × IterErrno × List Entry)
  | 0, _ => none
  | calls + 1, it =>
    match it.next mem blockCount s currentGen passes with
    | none => none
    | some (it, .error err) => some (it, err, [])
    | some (it, .ok e) =>
      match drain blockCount s currentGen passes calls it with
      | none => none
      | some (it, err, es) => some (it, err, e :: es)

end TrieIter

--
-- Pushes and visits
--

/-- Everything but the stack, the visits and the requests is the same. -/
structure TrieIter.SamePlace (it it' : TrieIter) : Prop where
  pending    : it'.pending = it.pending
  gen        : it'.gen = it.gen
  emitIdx    : it'.emitIdx = it.emitIdx
  visitCap   : it'.visitCap = it.visitCap
  ckpts      : it'.ckpts = it.ckpts
  ckptCap    : it'.ckptCap = it.ckptCap
  ckptStride : it'.ckptStride = it.ckptStride
  ckptBytes  : it'.ckptBytes = it.ckptBytes

/-- A push that succeeds. -/
structure TrieIter.Pushed (it : TrieIter) (ref : Nat) (emitted : Bool) (it' : TrieIter) : Prop where
  same        : it.SamePlace it'
  stack       : it'.stack = (ref, emitted) :: it.stack
  visited     : it'.visited = it.visited
  table       : it'.table = it.table
  tableFailed : it'.tableFailed = it.tableFailed
  cap         : it.cap ≤ it'.cap
  room        : it.stack.length ≤ it.cap → it'.stack.length ≤ it'.cap ∨ it.cap = 0

/-- A push that fails, for a stack that is too high or for want of memory. -/
structure TrieIter.Fails (mem : Nat → Bool) (it it' : TrieIter) (err : IterErrno) : Prop where
  same  : it.SamePlace it'
  cause : (err = .eio ∧ it.cap ≤ it.stack.length ∧ iterMaxSp < it.cap * 2) ∨
    (err = .enomem ∧ ∃ i, mem i = false)

/-- A visit. -/
structure TrieIter.Noted (it : TrieIter) (ref : Nat) (fires : Bool) (it' : TrieIter) : Prop where
  same    : it.SamePlace it'
  stack   : it'.stack = it.stack
  cap     : it'.cap = it.cap
  visited : it'.visited = it.visited + 1
  table   : (it'.table = it.table ∧ fires = false) ∨
    ∃ t, (it.table = some t ∨ t = fun _ => (0, 0)) ∧ it'.table = some (TrieIter.bump t ref).1 ∧
      fires = (TrieIter.bump t ref).2

namespace TrieIter

variable {mem : Nat → Bool} {s : Store} {it it' : TrieIter} {ref : Nat}

theorem SamePlace.refl (it : TrieIter) : it.SamePlace it := ⟨rfl, rfl, rfl, rfl, rfl, rfl, rfl, rfl⟩

theorem SamePlace.trans {it'' : TrieIter} (h : it.SamePlace it') (h' : it'.SamePlace it'') :
    it.SamePlace it'' :=
  ⟨h'.pending.trans h.pending, h'.gen.trans h.gen, h'.emitIdx.trans h.emitIdx,
    h'.visitCap.trans h.visitCap, h'.ckpts.trans h.ckpts, h'.ckptCap.trans h.ckptCap,
    h'.ckptStride.trans h.ckptStride, h'.ckptBytes.trans h.ckptBytes⟩

/-- `trie_iter_push`. -/
theorem push_does (mem : Nat → Bool) (it : TrieIter) (ref : Nat) (emitted : Bool) :
    (∃ it', it.push mem ref emitted = (it', none) ∧ it.Pushed ref emitted it') ∨
      ∃ it' err, it.push mem ref emitted = (it', some err) ∧ it.Fails mem it' err := by
  unfold push
  by_cases hRoom : it.stack.length + 1 ≤ it.cap
  · rw [if_pos hRoom]
    refine Or.inl ⟨_, rfl, ⟨rfl, rfl, rfl, rfl, rfl, rfl, rfl, rfl⟩, rfl, rfl, rfl, rfl, ?_, ?_⟩
    · exact Nat.le_refl _
    · exact fun _ => Or.inl hRoom
  rw [if_neg hRoom]
  by_cases hMax : iterMaxSp < it.cap * 2
  · rw [if_pos hMax]
    exact Or.inr ⟨_, _, rfl, SamePlace.refl it, Or.inl ⟨rfl, by omega, hMax⟩⟩
  rw [if_neg hMax]
  by_cases hFirst : mem it.asked = false
  · rw [if_pos hFirst]
    exact Or.inr ⟨_, _, rfl, ⟨rfl, rfl, rfl, rfl, rfl, rfl, rfl, rfl⟩, Or.inr ⟨rfl, _, hFirst⟩⟩
  rw [if_neg hFirst]
  by_cases hSecond : mem (it.asked + 1) = false
  · rw [if_pos hSecond]
    exact Or.inr ⟨_, _, rfl, ⟨rfl, rfl, rfl, rfl, rfl, rfl, rfl, rfl⟩, Or.inr ⟨rfl, _, hSecond⟩⟩
  rw [if_neg hSecond]
  refine Or.inl ⟨_, rfl, ⟨rfl, rfl, rfl, rfl, rfl, rfl, rfl, rfl⟩, rfl, rfl, rfl, rfl, ?_, ?_⟩
  · exact Nat.le_mul_of_pos_right _ (by decide)
  · intro hFits
    show (it.stack.length + 1 ≤ it.cap * 2) ∨ it.cap = 0
    omega

/-- `trie_iter_note_visit`. -/
theorem noteVisit_does (mem : Nat → Bool) (it : TrieIter) (ref : Nat) :
    ∃ it' fires, it.noteVisit mem ref = (it', fires) ∧ it.Noted ref fires it' := by
  unfold noteVisit
  dsimp only
  by_cases hEngage : it.visited + 1 ≤ visitEngage
  · rw [if_pos hEngage]
    exact ⟨_, _, rfl, ⟨rfl, rfl, rfl, rfl, rfl, rfl, rfl, rfl⟩, rfl, rfl, rfl, Or.inl ⟨rfl, rfl⟩⟩
  rw [if_neg hEngage]
  by_cases hFailed : it.tableFailed = true
  · rw [if_pos hFailed]
    exact ⟨_, _, rfl, ⟨rfl, rfl, rfl, rfl, rfl, rfl, rfl, rfl⟩, rfl, rfl, rfl, Or.inl ⟨rfl, rfl⟩⟩
  rw [if_neg hFailed]
  cases hTable : it.table with
  | some t =>
    exact ⟨_, _, rfl, ⟨rfl, rfl, rfl, rfl, rfl, rfl, rfl, rfl⟩, rfl, rfl, rfl,
      Or.inr ⟨t, Or.inl hTable, rfl, rfl⟩⟩
  | none =>
    dsimp only
    by_cases hMem : mem it.asked = false
    · rw [if_pos hMem]
      exact ⟨_, _, rfl, ⟨rfl, rfl, rfl, rfl, rfl, rfl, rfl, rfl⟩, rfl, rfl, rfl,
        Or.inl ⟨hTable.symm, rfl⟩⟩
    · rw [if_neg hMem]
      exact ⟨_, _, rfl, ⟨rfl, rfl, rfl, rfl, rfl, rfl, rfl, rfl⟩, rfl, rfl, rfl,
        Or.inr ⟨_, Or.inr rfl, rfl, rfl⟩⟩

/-- A node was popped before the visit. -/
theorem Noted.samePlace {rest : List (Nat × Bool)} {fires : Bool}
    (h : ({ it with stack := rest } : TrieIter).Noted ref fires it') : it.SamePlace it' :=
  ⟨h.same.pending, h.same.gen, h.same.emitIdx, h.same.visitCap, h.same.ckpts, h.same.ckptCap,
    h.same.ckptStride, h.same.ckptBytes⟩

end TrieIter

--
-- One pass
--

/-- All that a pass can do. -/
inductive Does (mem : Nat → Bool) (s : Store) : TrieIter × Option Nat →
    (TrieIter × Option Nat) ⊕ (TrieIter × Except IterErrno Entry) → Prop where
  | done {it : TrieIter} (hStack : it.stack = []) :
      Does mem s (it, none) (.inr (it, .error .enoent))
  | capped {it : TrieIter} {x : Nat × Bool} {rest : List (Nat × Bool)}
      (hStack : it.stack = x :: rest) (hCap : it.visitCap < it.visited) :
      Does mem s (it, none) (.inr (it, .error .eio))
  | dropped {it : TrieIter} {x : Nat × Bool} {rest : List (Nat × Bool)}
      (hStack : it.stack = x :: rest) (hCap : it.visited ≤ it.visitCap) (hNode : s x.1 = none) :
      Does mem s (it, none) (.inl ({ it with stack := rest }, none))
  | repeated {it it₁ : TrieIter} {x : Nat × Bool} {rest : List (Nat × Bool)} {n : Node}
      (hStack : it.stack = x :: rest) (hCap : it.visited ≤ it.visitCap) (hNode : s x.1 = some n)
      (hNote : ({ it with stack := rest } : TrieIter).Noted x.1 true it₁) :
      Does mem s (it, none) (.inr (it₁, .error .eio))
  | leaf {it it₁ : TrieIter} {x : Nat × Bool} {rest : List (Nat × Bool)} {n : Node}
      (hStack : it.stack = x :: rest) (hCap : it.visited ≤ it.visitCap) (hNode : s x.1 = some n)
      (hNote : ({ it with stack := rest } : TrieIter).Noted x.1 false it₁)
      (hEmits : x.2 = false ∧ n.emits = true) (hKids : n.firstChild = 0) :
      Does mem s (it, none) (.inr (it₁, .ok n.entry))
  | stuck {it it₁ it₂ : TrieIter} {x : Nat × Bool} {rest : List (Nat × Bool)} {n : Node}
      {err : IterErrno} (hStack : it.stack = x :: rest) (hCap : it.visited ≤ it.visitCap)
      (hNode : s x.1 = some n) (hNote : ({ it with stack := rest } : TrieIter).Noted x.1 false it₁)
      (hEmits : x.2 = false ∧ n.emits = true) (hKids : n.firstChild ≠ 0)
      (hPush : it₁.Fails mem it₂ err) : Does mem s (it, none) (.inr (it₂, .error err))
  | again {it it₁ it₂ : TrieIter} {x : Nat × Bool} {rest : List (Nat × Bool)} {n : Node}
      (hStack : it.stack = x :: rest) (hCap : it.visited ≤ it.visitCap) (hNode : s x.1 = some n)
      (hNote : ({ it with stack := rest } : TrieIter).Noted x.1 false it₁)
      (hEmits : x.2 = false ∧ n.emits = true) (hKids : n.firstChild ≠ 0)
      (hPush : it₁.Pushed x.1 true it₂) : Does mem s (it, none) (.inr (it₂, .ok n.entry))
  | descend {it it₁ : TrieIter} {x : Nat × Bool} {rest : List (Nat × Bool)} {n : Node}
      (hStack : it.stack = x :: rest) (hCap : it.visited ≤ it.visitCap) (hNode : s x.1 = some n)
      (hNote : ({ it with stack := rest } : TrieIter).Noted x.1 false it₁)
      (hEmits : ¬ (x.2 = false ∧ n.emits = true)) :
      Does mem s (it, none) (.inl (it₁, some n.firstChild))
  | pushed {it : TrieIter} : Does mem s (it, some 0) (.inl (it, none))
  | full {it it₁ : TrieIter} {c : Nat} {err : IterErrno} (hNe : c ≠ 0)
      (hPush : it.Fails mem it₁ err) : Does mem s (it, some c) (.inr (it₁, .error err))
  | broken {it it₁ : TrieIter} {c : Nat} (hNe : c ≠ 0) (hPush : it.Pushed c false it₁)
      (hNode : s c = none) : Does mem s (it, some c) (.inl (it₁, none))
  | childRepeated {it it₁ it₂ : TrieIter} {c : Nat} {n : Node} (hNe : c ≠ 0)
      (hPush : it.Pushed c false it₁) (hNode : s c = some n) (hNote : it₁.Noted c true it₂) :
      Does mem s (it, some c) (.inr (it₂, .error .eio))
  | childCapped {it it₁ it₂ : TrieIter} {c : Nat} {n : Node} (hNe : c ≠ 0)
      (hPush : it.Pushed c false it₁) (hNode : s c = some n) (hNote : it₁.Noted c false it₂)
      (hCap : it₂.visitCap < it₂.visited) : Does mem s (it, some c) (.inr (it₂, .error .eio))
  | child {it it₁ it₂ : TrieIter} {c : Nat} {n : Node} (hNe : c ≠ 0)
      (hPush : it.Pushed c false it₁) (hNode : s c = some n) (hNote : it₁.Noted c false it₂)
      (hCap : it₂.visited ≤ it₂.visitCap) : Does mem s (it, some c) (.inl (it₂, some n.nextSibling))

/-- A pass that pops. -/
theorem pop_does (mem : Nat → Bool) (s : Store) (it : TrieIter) :
    Does mem s (it, none) (TrieIter.pass mem s (it, none)) := by
  unfold TrieIter.pass
  dsimp only
  cases hStack : it.stack with
  | nil => exact .done hStack
  | cons x rest =>
    obtain ⟨ref, emitted⟩ := x
    dsimp only
    by_cases hCap : it.visitCap < it.visited
    · rw [if_pos hCap]
      exact .capped hStack hCap
    rw [if_neg hCap]
    cases hNode : s ref with
    | none => exact .dropped hStack (Nat.le_of_not_lt hCap) hNode
    | some n =>
      dsimp only
      obtain ⟨it₁, fires, hNote, hNoted⟩ :=
        TrieIter.noteVisit_does mem { it with stack := rest } ref
      rw [hNote]
      cases fires with
      | true => exact .repeated hStack (Nat.le_of_not_lt hCap) hNode hNoted
      | false =>
        dsimp only
        by_cases hEmits : (!emitted && n.emits) = true
        · rw [if_pos hEmits]
          have hBoth : emitted = false ∧ n.emits = true := by
            rwa [Bool.and_eq_true, Bool.not_eq_true'] at hEmits
          by_cases hKids : n.firstChild = 0
          · rw [if_pos hKids]
            exact .leaf hStack (Nat.le_of_not_lt hCap) hNode hNoted hBoth hKids
          · rw [if_neg hKids]
            rcases TrieIter.push_does mem it₁ ref true with
              ⟨it₂, hPush, hPushed⟩ | ⟨it₂, err, hPush, hFails⟩
            · rw [hPush]
              exact .again hStack (Nat.le_of_not_lt hCap) hNode hNoted hBoth hKids hPushed
            · rw [hPush]
              exact .stuck hStack (Nat.le_of_not_lt hCap) hNode hNoted hBoth hKids hFails
        · rw [if_neg hEmits]
          rw [Bool.and_eq_true, Bool.not_eq_true'] at hEmits
          exact .descend hStack (Nat.le_of_not_lt hCap) hNode hNoted hEmits

/-- A pass that pushes. -/
theorem child_does (mem : Nat → Bool) (s : Store) (it : TrieIter) (c : Nat) :
    Does mem s (it, some c) (TrieIter.pass mem s (it, some c)) := by
  unfold TrieIter.pass
  dsimp only
  by_cases hNe : c = 0
  · rw [if_pos hNe, hNe]
    exact .pushed
  rw [if_neg hNe]
  rcases TrieIter.push_does mem it c false with ⟨it₁, hPush, hPushed⟩ | ⟨it₁, err, hPush, hFails⟩
  · rw [hPush]
    dsimp only
    cases hNode : s c with
    | none => exact .broken hNe hPushed hNode
    | some n =>
      dsimp only
      obtain ⟨it₂, fires, hNote, hNoted⟩ := TrieIter.noteVisit_does mem it₁ c
      rw [hNote]
      cases fires with
      | true => exact .childRepeated hNe hPushed hNode hNoted
      | false =>
        dsimp only
        by_cases hCap : it₂.visitCap < it₂.visited
        · rw [if_pos hCap]
          exact .childCapped hNe hPushed hNode hNoted hCap
        · rw [if_neg hCap]
          exact .child hNe hPushed hNode hNoted (Nat.le_of_not_lt hCap)
  · rw [hPush]
    exact .full hNe hFails

/-- Every pass. -/
theorem pass_does (mem : Nat → Bool) (s : Store) (p : TrieIter × Option Nat) :
    Does mem s p (TrieIter.pass mem s p) := by
  obtain ⟨it, mode⟩ := p
  cases mode with
  | none => exact pop_does mem s it
  | some c => exact child_does mem s it c

--
-- Calls
--

namespace TrieIter

variable {mem : Nat → Bool} {s : Store} {it it' : TrieIter} {blockCount gen passes calls : Nat}
  {err : IterErrno} {out : List Entry}

/-- The cap is set, and nothing else. -/
theorem samePlace_withCap (it : TrieIter) (blockCount : Nat) :
    (it.withCap blockCount).stack = it.stack ∧ (it.withCap blockCount).pending = it.pending ∧
      (it.withCap blockCount).gen = it.gen ∧ (it.withCap blockCount).emitIdx = it.emitIdx ∧
      (it.withCap blockCount).ckpts = it.ckpts := by
  unfold withCap
  split_ifs
  · exact ⟨rfl, rfl, rfl, rfl, rfl⟩
  · exact ⟨rfl, rfl, rfl, rfl, rfl⟩

/-- The first call fails, or it returns the first entry. -/
theorem drain_cases (h : it.drain mem blockCount s gen passes (calls + 1) = some (it', err, out)) :
    (it.next mem blockCount s gen passes = some (it', .error err) ∧ out = []) ∨
      ∃ it₁ e rest, it.next mem blockCount s gen passes = some (it₁, .ok e) ∧ out = e :: rest ∧
        it₁.drain mem blockCount s gen passes calls = some (it', err, rest) := by
  unfold drain at h
  cases hNext : it.next mem blockCount s gen passes with
  | none =>
    rw [hNext] at h
    exact absurd h.symm (Option.some_ne_none _)
  | some result =>
    obtain ⟨it₁, r⟩ := result
    rw [hNext] at h
    cases r with
    | error err' =>
      cases h
      exact Or.inl ⟨rfl, rfl⟩
    | ok e =>
      dsimp only at h
      cases hDrain : it₁.drain mem blockCount s gen passes calls with
      | none =>
        rw [hDrain] at h
        exact absurd h.symm (Option.some_ne_none _)
      | some result =>
        obtain ⟨it₂, err₂, es₂⟩ := result
        rw [hDrain] at h
        cases h
        exact Or.inr ⟨it₁, e, es₂, rfl, rfl, hDrain⟩

end TrieIter

end Briefs.Trie
