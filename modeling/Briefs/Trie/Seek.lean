import Briefs.Trie.Sweep

/-!
# BrieFS — seeks in a directory

`briefs_readdir` reads entry after entry and moves its iterator with `briefs_trie_iter_seek` when
the position of the file is another one. A seek goes on from where the iterator stands, from a
checkpoint, or from the root; a checkpoint is a copy of the stack with the index of the entry that
comes next. Checkpoints are recorded on the way, thinned when they take too much room, and left
out when there is no memory. An entry that did not fit in the buffer of the caller is kept in the
iterator, whose stack is then one entry ahead of its index.

## Results

* `seek_eq_skip` — after a seek the calls return the entries from the target on.
-/

namespace Briefs.Trie

open Briefs.Lib

--
-- The source
--

namespace TrieIter

variable (mem : Nat → Bool)

/-- `briefs_trie_ckpt_clear`. -/
def ckptClear (it : TrieIter) : TrieIter :=
  { it with ckpts := [], ckptBytes := 0, ckptStride := ckptStrideInit }

/-- `trie_ckpt_thin`: the second, fourth and so on go. -/
def ckptThin (it : TrieIter) : TrieIter :=
  if it.ckpts.length < 2 then it
  else
    let dropped := Iter.everyOther it.ckpts.tail
    { it with
      ckpts      := Iter.everyOther it.ckpts
      ckptBytes  := it.ckptBytes - (dropped.map fun c => Iter.ckptCost c.stack.length).sum
      ckptStride := it.ckptStride * 2 }

/-- One more checkpoint is too much. -/
def ckptOver (it : TrieIter) : Bool :=
  decide (ckptMax ≤ it.ckpts.length) ||
    decide (ckptBudget < it.ckptBytes + Iter.ckptCost it.stack.length)

/-- The array of checkpoints is grown if it is full; `false` if it cannot be. -/
def ckptGrow (it : TrieIter) : TrieIter × Bool :=
  if it.ckpts.length = it.ckptCap then
    if mem it.asked = false then ({ it with asked := it.asked + 1 }, false)
    else ({ it with
      ckptCap := if it.ckptCap = 0 then 16 else it.ckptCap * 2, asked := it.asked + 1 }, true)
  else (it, true)

/-- The checkpoint itself, with room for it in the array: the record, and copies of the two
arrays unless the stack is empty. -/
def ckptAppend (it : TrieIter) : TrieIter :=
  let stored := fun (it : TrieIter) =>
    { it with
      ckpts     := it.ckpts ++ [⟨it.emitIdx, it.gen, it.stack⟩]
      ckptBytes := it.ckptBytes + Iter.ckptCost it.stack.length }
  if mem it.asked = false then { it with asked := it.asked + 1 }
  else if it.stack = [] then stored { it with asked := it.asked + 1 }
  else if mem (it.asked + 1) && mem (it.asked + 2) then stored { it with asked := it.asked + 3 }
  else { it with asked := it.asked + 3 }

/-- `briefs_trie_ckpt_record`. -/
def ckptRecord (it : TrieIter) : TrieIter :=
  if it.pending.isSome then it
  else if it.emitIdx % it.ckptStride ≠ 0 then it
  else if it.ckpts.getLast?.any fun c => it.emitIdx ≤ c.emitIdx then it
  else
    let it := if it.ckptOver then it.ckptThin else it
    if it.ckptOver then it
    else
      match it.ckptGrow mem with
      | (it, false) => it
      | (it, true) => it.ckptAppend mem

/-- The loop of `trie_ckpt_find`; `hi` is one more than in the source. -/
def ckptSearch (ckpts : List Ckpt) (target : Nat) : Nat → Nat → Nat → Option Ckpt → Option Ckpt
  | 0, _, _, best => best
  | fuel + 1, lo, hi, best =>
    if lo < hi then
      match ckpts[lo + (hi - 1 - lo) / 2]? with
      | none => best
      | some cp =>
        if cp.emitIdx ≤ target then
          ckptSearch ckpts target fuel (lo + (hi - 1 - lo) / 2 + 1) hi (some cp)
        else ckptSearch ckpts target fuel lo (lo + (hi - 1 - lo) / 2) best
    else best

/-- `trie_ckpt_find`: what is left to search gets shorter with every turn. -/
def ckptFind (it : TrieIter) (target : Nat) : Option Ckpt :=
  ckptSearch it.ckpts target it.ckpts.length 0 it.ckpts.length none

/-- `trie_ckpt_restore`, if the stack has room for the copy. -/
def ckptRestore (it : TrieIter) (cp : Ckpt) : Option TrieIter :=
  if it.cap < cp.stack.length then none
  else some { it with stack := cp.stack, emitIdx := cp.emitIdx, gen := cp.gen, pending := none }

/-- `trie_iter_skip`; the error that ends it is dropped by its callers. -/
def skip (blockCount : Nat) (s : Store) (currentGen passes : Nat) :
    Nat → TrieIter → Option (TrieIter × Option IterErrno)
  | 0, it => some (it, none)
  | steps + 1, it =>
    match it.next mem blockCount s currentGen passes with
    | none => none
    | some (it, .error err) => some (it, some err)
    | some (it, .ok _) =>
      skip blockCount s currentGen passes steps
        (({ it with emitIdx := it.emitIdx + 1 } : TrieIter).ckptRecord mem)

/-- `briefs_trie_iter_seek`, with the error that ended its skip. -/
def seek (blockCount : Nat) (s : Store) (root currentGen passes target : Nat) (it : TrieIter) :
    Option (TrieIter × Option IterErrno) :=
  let it := ({ it with visited := 0 } : TrieIter).visitReset
  if it.gen ≠ currentGen then
    (it.ckptClear.init root currentGen).skip mem blockCount s currentGen passes target
  else
    -- a buffered entry is abandoned: the walk is already past it
    let it :=
      if it.pending.isSome then { it with pending := none, emitIdx := it.emitIdx + 1 } else it
    if target = it.emitIdx then some (it, none)
    else if it.emitIdx < target then
      it.skip mem blockCount s currentGen passes (target - it.emitIdx)
    else
      match (it.ckptFind target).bind it.ckptRestore with
      | some it => it.skip mem blockCount s currentGen passes (target - it.emitIdx)
      | none => (it.init root currentGen).skip mem blockCount s currentGen passes target

/-- One turn of the loop of `briefs_readdir`: an entry that does not fit is kept. -/
def read (blockCount : Nat) (s : Store) (currentGen passes : Nat) (fits : Bool) (it : TrieIter) :
    Option (TrieIter × Except IterErrno Entry) :=
  match it.next mem blockCount s currentGen passes with
  | none => none
  | some (it, .error err) => some (it, .error err)
  | some (it, .ok e) =>
    if fits then some (({ it with emitIdx := it.emitIdx + 1 } : TrieIter).ckptRecord mem, .ok e)
    else some ({ it with pending := some e }, .ok e)

/-- The loop of `briefs_readdir` while there is room: the error that ends it, and the entries. -/
def readAll (blockCount : Nat) (s : Store) (currentGen passes : Nat) :
    Nat → TrieIter → Option (TrieIter × IterErrno × List Entry)
  | 0, _ => none
  | turns + 1, it =>
    match it.read mem blockCount s currentGen passes true with
    | none => none
    | some (it, .error err) => some (it, err, [])
    | some (it, .ok e) =>
      match readAll blockCount s currentGen passes turns it with
      | none => none
      | some (it, err, es) => some (it, err, e :: es)

end TrieIter

/-- The errors of the guards, and of a stack that could not grow. -/
def IterErrno.CutsOff (err : IterErrno) : Prop := err = .eio ∨ err = .enomem

/-- The states of an iterator of an open directory that does not change, while no call is cut
off. -/
inductive Reached (mem : Nat → Bool) (blockCount : Nat) (s : Store) (root gen : Nat) :
    TrieIter → Prop where
  | init : Reached mem blockCount s root gen (TrieIter.alloc.init root gen)
  | read {it it' : TrieIter} {passes : Nat} {fits : Bool} {r : Except IterErrno Entry}
      (h : Reached mem blockCount s root gen it)
      (hRead : it.read mem blockCount s gen passes fits = some (it', r))
      (hWhole : ∀ err, r = .error err → ¬ err.CutsOff) : Reached mem blockCount s root gen it'
  | seek {it it' : TrieIter} {passes target : Nat} {stopped : Option IterErrno}
      (h : Reached mem blockCount s root gen it)
      (hSeek : it.seek mem blockCount s root gen passes target = some (it', stopped))
      (hWhole : ∀ err, stopped = some err → ¬ err.CutsOff) : Reached mem blockCount s root gen it'

--
-- Checkpoints
--

/-- A checkpoint may be recorded, and nothing that the walk depends on changes. -/
structure TrieIter.Recorded (it it' : TrieIter) : Prop where
  stack    : it'.stack = it.stack
  pending  : it'.pending = it.pending
  gen      : it'.gen = it.gen
  emitIdx  : it'.emitIdx = it.emitIdx
  visited  : it'.visited = it.visited
  visitCap : it'.visitCap = it.visitCap
  ckpts    : ∀ cp ∈ it'.ckpts, cp ∈ it.ckpts ∨ cp = ⟨it.emitIdx, it.gen, it.stack⟩

namespace TrieIter

variable {mem : Nat → Bool} {it it' : TrieIter}

theorem Recorded.refl (it : TrieIter) : it.Recorded it :=
  ⟨rfl, rfl, rfl, rfl, rfl, rfl, fun _ h => Or.inl h⟩

theorem Recorded.trans {it'' : TrieIter} (h : it.Recorded it') (h' : it'.Recorded it'') :
    it.Recorded it'' := by
  refine ⟨h'.stack.trans h.stack, h'.pending.trans h.pending, h'.gen.trans h.gen,
    h'.emitIdx.trans h.emitIdx, h'.visited.trans h.visited, h'.visitCap.trans h.visitCap,
    fun cp hcp => ?_⟩
  rcases h'.ckpts cp hcp with hOld | hNew
  · exact h.ckpts cp hOld
  · rw [hNew, h.emitIdx, h.gen, h.stack]
    exact Or.inr rfl

theorem mem_of_mem_everyOther {α : Type} {a : α} : ∀ {l : List α}, a ∈ Iter.everyOther l → a ∈ l
  | [], h => h
  | [_], h => h
  | b :: c :: rest, h => by
    rcases List.mem_cons.mp h with rfl | h
    · exact List.mem_cons_self
    · exact List.mem_cons_of_mem _ (List.mem_cons_of_mem _ (mem_of_mem_everyOther h))

theorem recorded_ckptThin (it : TrieIter) : it.Recorded it.ckptThin := by
  unfold ckptThin
  split_ifs
  · exact .refl it
  · exact ⟨rfl, rfl, rfl, rfl, rfl, rfl, fun cp hcp => Or.inl (mem_of_mem_everyOther hcp)⟩

theorem recorded_ckptGrow (mem : Nat → Bool) (it : TrieIter) : it.Recorded (it.ckptGrow mem).1 := by
  unfold ckptGrow
  split_ifs
  · exact ⟨rfl, rfl, rfl, rfl, rfl, rfl, fun cp hcp => Or.inl hcp⟩
  · exact ⟨rfl, rfl, rfl, rfl, rfl, rfl, fun cp hcp => Or.inl hcp⟩
  · exact ⟨rfl, rfl, rfl, rfl, rfl, rfl, fun cp hcp => Or.inl hcp⟩
  · exact .refl it

theorem recorded_ckptAppend (mem : Nat → Bool) (it : TrieIter) :
    it.Recorded (it.ckptAppend mem) := by
  have hAdd : ∀ cp ∈ it.ckpts ++ [⟨it.emitIdx, it.gen, it.stack⟩],
      cp ∈ it.ckpts ∨ cp = ⟨it.emitIdx, it.gen, it.stack⟩ := by
    intro cp hcp
    rcases List.mem_append.mp hcp with hOld | hNew
    · exact Or.inl hOld
    · exact Or.inr (List.mem_singleton.mp hNew)
  unfold ckptAppend
  dsimp only
  split_ifs
  · exact ⟨rfl, rfl, rfl, rfl, rfl, rfl, fun cp hcp => Or.inl hcp⟩
  · exact ⟨rfl, rfl, rfl, rfl, rfl, rfl, hAdd⟩
  · exact ⟨rfl, rfl, rfl, rfl, rfl, rfl, hAdd⟩
  · exact ⟨rfl, rfl, rfl, rfl, rfl, rfl, fun cp hcp => Or.inl hcp⟩

/-- `briefs_trie_ckpt_record` makes no checkpoint while an entry is buffered. -/
theorem recorded_ckptRecord (mem : Nat → Bool) (it : TrieIter) :
    it.Recorded (it.ckptRecord mem) ∧
      (it.pending ≠ none → (it.ckptRecord mem).ckpts = it.ckpts) := by
  unfold ckptRecord
  by_cases hPending : it.pending.isSome = true
  · rw [if_pos hPending]
    exact ⟨.refl it, fun _ => rfl⟩
  rw [if_neg hPending]
  have hNone : it.pending = none := Option.not_isSome_iff_eq_none.mp hPending
  refine ⟨?_, fun hSome => absurd hNone hSome⟩
  by_cases hStride : it.emitIdx % it.ckptStride ≠ 0
  · rw [if_pos hStride]
    exact .refl it
  rw [if_neg hStride]
  by_cases hLast : (it.ckpts.getLast?.any fun c => it.emitIdx ≤ c.emitIdx) = true
  · rw [if_pos hLast]
    exact .refl it
  rw [if_neg hLast]
  dsimp only
  have hThin : it.Recorded (if it.ckptOver then it.ckptThin else it) := by
    split_ifs
    · exact recorded_ckptThin it
    · exact .refl it
  generalize (if it.ckptOver then it.ckptThin else it) = thinned at *
  by_cases hOver : thinned.ckptOver = true
  · rw [if_pos hOver]
    exact hThin
  rw [if_neg hOver]
  have hGrow := recorded_ckptGrow mem thinned
  generalize thinned.ckptGrow mem = grown at *
  obtain ⟨grown, room⟩ := grown
  cases room with
  | false => exact hThin.trans hGrow
  | true => exact (hThin.trans hGrow).trans (recorded_ckptAppend mem grown)

/-- The checkpoint that is found is at or below the target. -/
theorem ckptSearch_spec {ckpts : List Ckpt} {target : Nat} {cp : Ckpt} :
    ∀ {fuel lo hi : Nat} {best : Option Ckpt},
      (∀ c, best = some c → c ∈ ckpts ∧ c.emitIdx ≤ target) →
      ckptSearch ckpts target fuel lo hi best = some cp → cp ∈ ckpts ∧ cp.emitIdx ≤ target := by
  intro fuel
  induction fuel with
  | zero => exact fun hBest h => hBest cp h
  | succ fuel ih =>
    intro lo hi best hBest h
    unfold ckptSearch at h
    by_cases hLess : lo < hi
    · rw [if_pos hLess] at h
      cases hMid : ckpts[lo + (hi - 1 - lo) / 2]? with
      | none =>
        rw [hMid] at h
        exact hBest cp h
      | some mid =>
        rw [hMid] at h
        dsimp only at h
        by_cases hLow : mid.emitIdx ≤ target
        · rw [if_pos hLow] at h
          refine ih (fun c hc => ?_) h
          cases hc
          exact ⟨List.mem_of_getElem? hMid, hLow⟩
        · rw [if_neg hLow] at h
          exact ih hBest h
    · rw [if_neg hLess] at h
      exact hBest cp h

theorem ckptFind_spec {target : Nat} {cp : Ckpt} (h : it.ckptFind target = some cp) :
    cp ∈ it.ckpts ∧ cp.emitIdx ≤ target :=
  ckptSearch_spec (fun c hc => absurd hc.symm (Option.some_ne_none c)) h

end TrieIter

--
-- The index of an iterator
--

/-- The iterator stands before the entry that its index names, a buffered one counting as not
read, and every checkpoint stands before the entry that its own index names. -/
structure Aligned (s : Store) (es : List Entry) (gen : Nat) (it : TrieIter) : Prop where
  fresh : it.gen = gen
  left  : ∃ rest, Yields s it.stack none rest ∧ es.drop it.emitIdx = it.pending.toList ++ rest
  ckpts : ∀ cp ∈ it.ckpts, cp.gen = gen ∧ Yields s cp.stack none (es.drop cp.emitIdx)

section Seeks

variable {mem : Nat → Bool} {s : Store} {es : List Entry} {it it' : TrieIter}
  {blockCount root gen passes : Nat} {stopped : Option IterErrno}

/-- An entry that is read moves the index. -/
theorem drop_succ_of_cons {e : Entry} {rest : List Entry} {i : Nat} (h : es.drop i = e :: rest) :
    es.drop (i + 1) = rest := by
  rw [← List.drop_drop, h]
  rfl

theorem Aligned.record (h : Aligned s es gen it) : Aligned s es gen (it.ckptRecord mem) := by
  obtain ⟨hRecorded, hBuffered⟩ := it.recorded_ckptRecord mem
  obtain ⟨rest, hYields, hLeft⟩ := h.left
  refine ⟨hRecorded.gen.trans h.fresh, ⟨rest, ?_, ?_⟩, fun cp hcp => ?_⟩
  · rw [hRecorded.stack]
    exact hYields
  · rw [hRecorded.emitIdx, hRecorded.pending]
    exact hLeft
  · cases hPending : it.pending with
    | some e =>
      rw [hBuffered (by rw [hPending]; exact Option.some_ne_none e)] at hcp
      exact h.ckpts cp hcp
    | none =>
      rcases hRecorded.ckpts cp hcp with hOld | rfl
      · exact h.ckpts cp hOld
      · rw [hPending] at hLeft
        refine ⟨h.fresh, ?_⟩
        dsimp only
        rw [hLeft]
        exact hYields

/-- The entry of the index, which is then either read or kept. -/
theorem Aligned.next_ok {e : Entry} (h : Aligned s es gen it)
    (hRun : it.next mem blockCount s gen passes = some (it', .ok e)) :
    Aligned s es gen { it' with emitIdx := it'.emitIdx + 1 } ∧
      Aligned s es gen { it' with pending := some e } ∧ it'.emitIdx = it.emitIdx ∧
      es.drop it.emitIdx = e :: es.drop (it.emitIdx + 1) := by
  obtain ⟨rest, hYields, hLeft⟩ := h.left
  have hTells := hYields.next h.fresh hRun
  rw [← hLeft] at hTells
  obtain ⟨rest', hCons, hNone, hRest⟩ := hTells.ok
  have hTail := drop_succ_of_cons hCons
  have hCkpts : ∀ cp ∈ it'.ckpts, cp.gen = gen ∧ Yields s cp.stack none (es.drop cp.emitIdx) := by
    rw [hTells.ckpts]
    exact h.ckpts
  refine ⟨⟨hTells.gen.trans h.fresh, ⟨rest', hRest, ?_⟩, hCkpts⟩,
    ⟨hTells.gen.trans h.fresh, ⟨rest', hRest, ?_⟩, hCkpts⟩, hTells.emitIdx, ?_⟩
  · dsimp only
    rw [hNone, hTells.emitIdx]
    exact hTail
  · dsimp only
    rw [hTells.emitIdx]
    exact hCons
  · rw [hTail]
    exact hCons

/-- There is no entry with the index, unless the call is cut off. -/
theorem Aligned.next_error {err : IterErrno} (h : Aligned s es gen it)
    (hRun : it.next mem blockCount s gen passes = some (it', .error err)) (hNot : ¬ err.CutsOff) :
    Aligned s es gen it' ∧ it'.emitIdx = it.emitIdx ∧ err = .enoent ∧ es.drop it.emitIdx = [] := by
  obtain ⟨rest, hYields, hLeft⟩ := h.left
  have hTells := hYields.next h.fresh hRun
  rw [← hLeft] at hTells
  rcases hTells.error with ⟨hErr, hNil, hNone, hEnd⟩ | hCut
  · refine ⟨⟨hTells.gen.trans h.fresh, ⟨[], hEnd, ?_⟩, ?_⟩, hTells.emitIdx, hErr, hNil⟩
    · rw [hTells.emitIdx, hNone, hNil]
      rfl
    · rw [hTells.ckpts]
      exact h.ckpts
  · exact absurd hCut hNot

/-- `trie_iter_skip` moves the index so many entries on, or to the end. -/
theorem Aligned.skip : ∀ {steps : Nat} {it : TrieIter}, Aligned s es gen it →
    it.skip mem blockCount s gen passes steps = some (it', stopped) →
    (∀ err, stopped = some err → ¬ err.CutsOff) →
    Aligned s es gen it' ∧ es.drop it'.emitIdx = es.drop (it.emitIdx + steps) := by
  intro steps
  induction steps with
  | zero =>
    intro it h hRun _
    cases hRun
    exact ⟨h, rfl⟩
  | succ steps ih =>
    intro it h hRun hWhole
    unfold TrieIter.skip at hRun
    cases hNext : it.next mem blockCount s gen passes with
    | none =>
      rw [hNext] at hRun
      exact absurd hRun.symm (Option.some_ne_none _)
    | some result =>
      obtain ⟨it₁, r⟩ := result
      rw [hNext] at hRun
      cases r with
      | error err =>
        cases hRun
        obtain ⟨hAligned, hIdx, -, hEnd⟩ := h.next_error hNext (hWhole err rfl)
        refine ⟨hAligned, ?_⟩
        rw [hIdx, hEnd, ← List.drop_drop, hEnd]
        exact List.drop_nil.symm
      | ok e =>
        obtain ⟨hRead, -, hIdx, -⟩ := h.next_ok hNext
        have hMove := (TrieIter.recorded_ckptRecord mem
          { it₁ with emitIdx := it₁.emitIdx + 1 }).1.emitIdx
        obtain ⟨hAligned, hDrop⟩ := ih hRead.record hRun hWhole
        refine ⟨hAligned, ?_⟩
        rw [hDrop, hMove]
        dsimp only
        rw [hIdx, Nat.add_right_comm, Nat.add_assoc]

/-- The iterator from the root on. -/
theorem Aligned.init (hEs : Yields s (TrieIter.alloc.init root gen).stack none es)
    (h : Aligned s es gen it) : Aligned s es gen (it.init root gen) :=
  ⟨rfl, ⟨es, hEs, rfl⟩, h.ckpts⟩

/-- `briefs_trie_iter_seek` moves the index to the target, or to the end. -/
theorem Aligned.seek (hEs : Yields s (TrieIter.alloc.init root gen).stack none es)
    (h : Aligned s es gen it) {target : Nat}
    (hRun : it.seek mem blockCount s root gen passes target = some (it', stopped))
    (hWhole : ∀ err, stopped = some err → ¬ err.CutsOff) :
    Aligned s es gen it' ∧ es.drop it'.emitIdx = es.drop target := by
  unfold TrieIter.seek at hRun
  dsimp only at hRun
  have hReset : Aligned s es gen ({ it with visited := 0 } : TrieIter).visitReset :=
    ⟨h.fresh, h.left, h.ckpts⟩
  generalize ({ it with visited := 0 } : TrieIter).visitReset = reset at *
  rw [if_neg (not_not_intro hReset.fresh)] at hRun
  have hFold : Aligned s es gen
      (if reset.pending.isSome then { reset with pending := none, emitIdx := reset.emitIdx + 1 }
        else reset) := by
    obtain ⟨rest, hYields, hLeft⟩ := hReset.left
    cases hPending : reset.pending with
    | none => exact hReset
    | some e =>
      rw [hPending] at hLeft
      exact ⟨hReset.fresh, ⟨rest, hYields, drop_succ_of_cons hLeft⟩, hReset.ckpts⟩
  generalize (if reset.pending.isSome then
    ({ reset with pending := none, emitIdx := reset.emitIdx + 1 } : TrieIter) else reset) = cur at *
  by_cases hHere : target = cur.emitIdx
  · rw [if_pos hHere] at hRun
    cases hRun
    exact ⟨hFold, by rw [hHere]⟩
  rw [if_neg hHere] at hRun
  by_cases hForward : cur.emitIdx < target
  · rw [if_pos hForward] at hRun
    obtain ⟨hAligned, hDrop⟩ := hFold.skip hRun hWhole
    rw [Nat.add_sub_cancel' hForward.le] at hDrop
    exact ⟨hAligned, hDrop⟩
  rw [if_neg hForward] at hRun
  cases hFound : (cur.ckptFind target).bind cur.ckptRestore with
  | none =>
    rw [hFound] at hRun
    obtain ⟨hAligned, hDrop⟩ := (hFold.init hEs).skip hRun hWhole
    refine ⟨hAligned, hDrop.trans ?_⟩
    show es.drop (0 + target) = _
    rw [Nat.zero_add]
  | some restored =>
    rw [hFound] at hRun
    obtain ⟨cp, hFind, hRestore⟩ := Option.bind_eq_some_iff.mp hFound
    obtain ⟨hMem, hLow⟩ := TrieIter.ckptFind_spec hFind
    obtain ⟨hGen, hYields⟩ := hFold.ckpts cp hMem
    unfold TrieIter.ckptRestore at hRestore
    by_cases hRoom : cur.cap < cp.stack.length
    · rw [if_pos hRoom] at hRestore
      cases hRestore
    rw [if_neg hRoom] at hRestore
    cases hRestore
    have hBack : Aligned s es gen
        { cur with stack := cp.stack, emitIdx := cp.emitIdx, gen := cp.gen, pending := none } :=
      ⟨hGen, ⟨_, hYields, rfl⟩, hFold.ckpts⟩
    obtain ⟨hAligned, hDrop⟩ := hBack.skip hRun hWhole
    refine ⟨hAligned, hDrop.trans ?_⟩
    show es.drop (cp.emitIdx + (target - cp.emitIdx)) = _
    rw [Nat.add_sub_cancel' hLow]

/-- Every state of the iterator is aligned. -/
theorem Reached.aligned (hEs : Yields s (TrieIter.alloc.init root gen).stack none es)
    (h : Reached mem blockCount s root gen it) : Aligned s es gen it := by
  induction h with
  | init => exact ⟨rfl, ⟨es, hEs, rfl⟩, fun cp hcp => absurd hcp List.not_mem_nil⟩
  | @read it it' passes fits r _ hRead hWhole ih =>
    unfold TrieIter.read at hRead
    cases hNext : it.next mem blockCount s gen passes with
    | none =>
      rw [hNext] at hRead
      exact absurd hRead.symm (Option.some_ne_none _)
    | some result =>
      obtain ⟨it₁, r₁⟩ := result
      rw [hNext] at hRead
      cases r₁ with
      | error err =>
        cases hRead
        exact (ih.next_error hNext (hWhole err rfl)).1
      | ok e =>
        obtain ⟨hRead', hKept, -⟩ := ih.next_ok hNext
        cases fits with
        | true =>
          cases hRead
          exact hRead'.record
        | false =>
          cases hRead
          exact hKept
  | seek _ hSeek hWhole ih => exact (ih.seek hEs hSeek hWhole).1

/-- The loop of `briefs_readdir` returns the entries from the index on. -/
theorem Aligned.readAll {err : IterErrno} {out : List Entry} :
    ∀ {turns : Nat} {it : TrieIter}, Aligned s es gen it →
      it.readAll mem blockCount s gen passes turns = some (it', err, out) → ¬ err.CutsOff →
      err = .enoent ∧ out = es.drop it.emitIdx := by
  intro turns
  induction turns generalizing out with
  | zero => exact fun _ hRun _ => absurd hRun.symm (Option.some_ne_none _)
  | succ turns ih =>
    intro it h hRun hWhole
    unfold TrieIter.readAll TrieIter.read at hRun
    cases hNext : it.next mem blockCount s gen passes with
    | none =>
      rw [hNext] at hRun
      exact absurd hRun.symm (Option.some_ne_none _)
    | some result =>
      obtain ⟨it₁, r⟩ := result
      rw [hNext] at hRun
      cases r with
      | error err' =>
        cases hRun
        obtain ⟨-, -, hErr, hNil⟩ := h.next_error hNext hWhole
        exact ⟨hErr, hNil.symm⟩
      | ok e =>
        obtain ⟨hRead, -, hIdx, hCons⟩ := h.next_ok hNext
        dsimp only at hRun
        rw [if_pos rfl] at hRun
        dsimp only at hRun
        have hMove := (TrieIter.recorded_ckptRecord mem
          { it₁ with emitIdx := it₁.emitIdx + 1 }).1.emitIdx
        generalize hThen : TrieIter.readAll mem blockCount s gen passes turns
          (({ it₁ with emitIdx := it₁.emitIdx + 1 } : TrieIter).ckptRecord mem) = result at hRun
        cases result with
        | none => exact absurd hRun.symm (Option.some_ne_none _)
        | some result =>
          obtain ⟨it₂, err₂, es₂⟩ := result
          cases hRun
          obtain ⟨hErr, hOut⟩ := ih hRead.record hThen hWhole
          refine ⟨hErr, ?_⟩
          rw [hCons, hOut, hMove]
          dsimp only
          rw [hIdx]

end Seeks

--
-- They end
--

namespace TrieIter

variable {it it' : TrieIter} {blockCount passes : Nat}

/-- A checkpoint leaves as much to be done. -/
theorem Recorded.ahead (h : it.Recorded it') : it'.ahead blockCount = it.ahead blockCount := by
  have hCap : (it'.withCap blockCount).visitCap = (it.withCap blockCount).visitCap ∧
      (it'.withCap blockCount).visited = (it.withCap blockCount).visited ∧
      (it'.withCap blockCount).stack = (it.withCap blockCount).stack := by
    unfold withCap
    rw [h.visitCap]
    split_ifs
    · exact ⟨rfl, h.visited, h.stack⟩
    · exact ⟨h.visitCap, h.visited, h.stack⟩
  unfold TrieIter.ahead
  rw [left_none, left_none, hCap.1, hCap.2.1, hCap.2.2, h.pending]

theorem ahead_read (mem : Nat → Bool) (it : TrieIter) :
    (({ it with emitIdx := it.emitIdx + 1 } : TrieIter).ckptRecord mem).ahead blockCount =
      it.ahead blockCount := by
  rw [(recorded_ckptRecord mem _).1.ahead]
  unfold TrieIter.ahead withCap
  split_ifs
  · rfl
  · rfl
  · rfl
  · rfl

theorem skip_ends (mem : Nat → Bool) (s : Store) (gen : Nat) :
    ∀ (steps : Nat) {it : TrieIter}, it.ahead blockCount < passes →
      ∃ r, it.skip mem blockCount s gen passes steps = some r := by
  intro steps
  induction steps with
  | zero => exact fun _ => ⟨_, rfl⟩
  | succ steps ih =>
    intro it hPasses
    obtain ⟨it₁, r, hNext, hLess⟩ := next_ends mem s gen hPasses
    unfold skip
    rw [hNext]
    cases r with
    | error err => exact ⟨_, rfl⟩
    | ok e =>
      refine ih ?_
      rw [ahead_read]
      exact (hLess e rfl).trans hPasses

theorem readAll_ends (mem : Nat → Bool) (s : Store) (gen : Nat) :
    ∀ {turns : Nat} {it : TrieIter}, it.ahead blockCount < passes → it.ahead blockCount < turns →
      ∃ r, it.readAll mem blockCount s gen passes turns = some r := by
  intro turns
  induction turns with
  | zero => exact fun _ hLt => absurd hLt (Nat.not_lt_zero _)
  | succ turns ih =>
    intro it hPasses hTurns
    obtain ⟨it₁, r, hNext, hLess⟩ := next_ends mem s gen hPasses
    unfold readAll read
    rw [hNext]
    cases r with
    | error err => exact ⟨_, rfl⟩
    | ok e =>
      have hLt := hLess e rfl
      have hFew := hLt.trans_le (Nat.le_of_lt_succ hTurns)
      rw [← ahead_read mem] at hLt hFew
      obtain ⟨⟨it₂, err, es⟩, hRest⟩ := ih (hLt.trans hPasses) hFew
      dsimp only
      rw [if_pos rfl]
      dsimp only
      rw [hRest]
      exact ⟨_, rfl⟩

theorem seek_ends (mem : Nat → Bool) (blockCount : Nat) (s : Store) (root gen target : Nat)
    (it : TrieIter) : ∃ passes r, it.seek mem blockCount s root gen passes target = some r := by
  have hSkip : ∀ (it : TrieIter) (steps : Nat),
      ∃ passes r, it.skip mem blockCount s gen passes steps = some r := fun it steps =>
    ⟨_, skip_ends mem s gen steps (Nat.lt_succ_self (it.ahead blockCount))⟩
  unfold seek
  dsimp only
  generalize ({ it with visited := 0 } : TrieIter).visitReset = reset
  by_cases hGen : reset.gen ≠ gen
  · simp only [if_pos hGen]
    exact hSkip _ _
  simp only [if_neg hGen]
  generalize (if reset.pending.isSome then
    ({ reset with pending := none, emitIdx := reset.emitIdx + 1 } : TrieIter) else reset) = cur
  by_cases hHere : target = cur.emitIdx
  · simp only [if_pos hHere]
    exact ⟨0, _, rfl⟩
  simp only [if_neg hHere]
  by_cases hForward : cur.emitIdx < target
  · simp only [if_pos hForward]
    exact hSkip _ _
  simp only [if_neg hForward]
  cases (cur.ckptFind target).bind cur.ckptRestore with
  | none => exact hSkip _ _
  | some restored => exact hSkip _ _

end TrieIter

--
-- Seeking is skipping
--

/-- Let the entries of a directory be `es`, which is what a fresh iteration returns before
-ENOENT. In every state that reads and seeks lead to while no call is cut off, with any requests
for memory denied, a seek returns, and the calls that follow return the entries from its target
on and then -ENOENT, whether or not the reader records checkpoints on the way. -/
theorem seek_eq_skip {mem : Nat → Bool} {blockCount : Nat} {s : Store} {root gen : Nat}
    {es : List Entry} {it : TrieIter} (hEs : Yields s (TrieIter.alloc.init root gen).stack none es)
    (h : Reached mem blockCount s root gen it) (target : Nat) :
    (∀ mem' blockCount' passes calls it' out,
      (TrieIter.alloc.init root gen).drain mem' blockCount' s gen passes calls =
        some (it', .enoent, out) → out = es) ∧
    (∃ passes r, it.seek mem blockCount s root gen passes target = some r) ∧
    ∀ passes it' stopped,
      it.seek mem blockCount s root gen passes target = some (it', stopped) →
      (∀ err, stopped = some err → ¬ err.CutsOff) →
      (∃ passes calls r, it'.drain mem blockCount s gen passes calls = some r) ∧
      (∃ passes turns r, it'.readAll mem blockCount s gen passes turns = some r) ∧
      ∀ passes calls it₁ err out,
        it'.drain mem blockCount s gen passes calls = some (it₁, err, out) ∨
          it'.readAll mem blockCount s gen passes calls = some (it₁, err, out) →
        ¬ err.CutsOff → err = .enoent ∧ out = es.drop target := by
  have hFresh : ∀ mem' blockCount' passes calls it' out,
      (TrieIter.alloc.init root gen).drain mem' blockCount' s gen passes calls =
        some (it', .enoent, out) → out = es := by
    intro mem' blockCount' passes calls it' out hRun
    rcases hEs.drain rfl hRun with ⟨-, hOut⟩ | ⟨hErr | hErr, -⟩
    · exact hOut
    · cases hErr
    · cases hErr
  refine ⟨hFresh, TrieIter.seek_ends mem blockCount s root gen target it, ?_⟩
  intro passes it' stopped hSeek hWhole
  obtain ⟨hAligned, hDrop⟩ := (h.aligned hEs).seek hEs hSeek hWhole
  refine ⟨?_, ?_, ?_⟩
  · exact TrieIter.drain_returns mem blockCount s gen it'
  · exact ⟨_, _, TrieIter.readAll_ends mem s gen (Nat.lt_succ_self (it'.ahead blockCount))
      (Nat.lt_succ_self (it'.ahead blockCount))⟩
  · rintro passes calls it₁ err out (hRun | hRun) hNot
    · obtain ⟨rest, hYields, hLeft⟩ := hAligned.left
      rcases hYields.drain hAligned.fresh hRun with ⟨hErr, hOut⟩ | ⟨hCut, -⟩
      · exact ⟨hErr, by rw [hOut, ← hLeft, hDrop]⟩
      · exact absurd hCut hNot
    · rw [← hDrop]
      exact hAligned.readAll hRun hNot

/-- A directory with the names `a`, `aa` and so on up to 66 bytes. -/
def deepStore : Store := fun ref =>
  if ref = 704 then some ⟨1000, 0, 0, [], 0, 0, true, false, 0, 1⟩
  else if 1000 ≤ ref ∧ ref < 1066 then
    some ⟨if ref = 1065 then 0 else ref + 1, 0, ref, List.replicate (ref - 999) 97, ref - 999, 97,
      true, true, 1, 1⟩
  else none

def deepEntry (i : Nat) : Entry := ⟨List.replicate (i + 1) 97, 1000 + i, 1⟩

theorem deepStore_yields : ∀ n i : Nat, i + n = 65 →
    Yields deepStore [(1000 + i, false)] none ((List.range' i (n + 1)).map deepEntry)
  | 0, i, h => by
    obtain rfl : i = 65 := by omega
    exact .leaf (n := ⟨0, 0, 1065, List.replicate 66 97, 66, 97, true, true, 1, 1⟩)
      (by decide +kernel) (by decide +kernel) rfl .done
  | n + 1, i, h => by
    have hNode : ∀ j < 65, deepStore (1000 + j) = some ⟨1000 + j + 1, 0, 1000 + j,
        List.replicate (j + 1) 97, j + 1, 97, true, true, 1, 1⟩ := by decide +kernel
    have hEmits : ∀ j < 65, (⟨1000 + j + 1, 0, 1000 + j, List.replicate (j + 1) 97, j + 1, 97,
        true, true, 1, 1⟩ : Node).emits = true := by decide +kernel
    have hNext : ∃ m, deepStore (1000 + (i + 1)) = some m ∧ m.nextSibling = 0 := by
      have hAll : ∀ j < 66, ((deepStore (1000 + j)).map Node.nextSibling) = some 0 := by
        decide +kernel
      exact Option.map_eq_some_iff.mp (hAll (i + 1) (by omega))
    obtain ⟨m, hm, hZero⟩ := hNext
    refine .again (hNode i (by omega)) ⟨rfl, hEmits i (by omega)⟩ (Nat.succ_ne_zero _) ?_
    refine .descend (hNode i (by omega)) (fun hBoth => Bool.noConfusion hBoth.1) ?_
    refine .child (Nat.succ_ne_zero _) hm ?_
    rw [hZero]
    exact .pushed (deepStore_yields n (i + 1) (by omega))

/-- A seek to the last entry records a checkpoint on its way, and a seek back restores it. -/
theorem seek_eq_skip_deepStore :
    ∃ it it', Reached (fun _ => true) 64 deepStore 704 3 it ∧
      (it.ckpts.map fun cp => cp.emitIdx) = [64] ∧ it.emitIdx = 65 ∧
      it.seek (fun _ => true) 64 deepStore 704 3 4 64 = some (it', none) ∧
      ∀ passes calls it₁ out,
        it'.drain (fun _ => true) 64 deepStore 3 passes calls = some (it₁, .enoent, out) →
        out = [deepEntry 64, deepEntry 65] := by
  have hEs : Yields deepStore (TrieIter.alloc.init 704 3).stack none
      ((List.range' 0 66).map deepEntry) := by
    refine .descend (n := ⟨1000, 0, 0, [], 0, 0, true, false, 0, 1⟩) rfl (by decide) ?_
    refine .child (by decide) (show deepStore 1000 = some _ from rfl) ?_
    exact .pushed (deepStore_yields 65 0 rfl)
  have hForth : ((TrieIter.alloc.init 704 3).seek (fun _ => true) 64 deepStore 704 3 4 65).map
      (fun r => (r.2, r.1.emitIdx, r.1.ckpts.map fun cp => cp.emitIdx,
        (r.1.seek (fun _ => true) 64 deepStore 704 3 4 64).map (fun r' => r'.2))) =
      some (none, 65, [64], some none) := by
    decide +kernel
  obtain ⟨⟨it, stopped⟩, hSeek, hFacts⟩ := Option.map_eq_some_iff.mp hForth
  simp only [Prod.mk.injEq] at hFacts
  obtain ⟨rfl, hIdx, hCkpts, hBack⟩ := hFacts
  obtain ⟨⟨it', stopped⟩, hSeek', rfl⟩ := Option.map_eq_some_iff.mp hBack
  have hNone : ∀ err, (none : Option IterErrno) = some err → ¬ err.CutsOff :=
    fun err hErr => absurd hErr.symm (Option.some_ne_none err)
  have hReached : Reached (fun _ => true) 64 deepStore 704 3 it := .seek .init hSeek hNone
  refine ⟨it, it', hReached, hCkpts, hIdx, hSeek', fun passes calls it₁ out hRun => ?_⟩
  have hNot : ¬ IterErrno.enoent.CutsOff := by
    rintro (hErr | hErr)
    · cases hErr
    · cases hErr
  obtain ⟨-, -, hAll⟩ := (seek_eq_skip hEs hReached 64).2.2 4 it' none hSeek' hNone
  exact (hAll passes calls it₁ .enoent out (Or.inl hRun) hNot).2

end Briefs.Trie
