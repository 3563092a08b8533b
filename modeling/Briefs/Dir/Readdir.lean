import Briefs.Trie.Walk

/-!
# BrieFS — reading a directory while it changes

`briefs_readdir` (`dir.c`) as a machine that takes one step for each part of the
call that runs without a point where another task can take `trie_lock`: the dots,
the test of the cached position, the seek, and each round of the loop. Between any
two steps the trie may change; every change counts up `trie_gen`. The user's buffer
decides at each entry whether it fits. The reads ahead and the failures of memory
allocation are left out.

A position is the number of entries before it in the order of the walk, and every
error of the iterator ends the loop as its end does. So a scan is exact as long as
no name crosses the position, no change falls between the test of the position and
the first entry of a call, and a walk of the trie is within the visit cap.

## Results

* `Scan.runs_exact` — the scan is exact if every change is harmless.
* `removal_skips_a_name` — without that it is not.
-/

namespace Briefs.Dir

open Briefs.Trie

--
-- The machine
--

/-- Where a call stands; the number is that of the entries it has emitted, the dots
among them. -/
inductive Pc where
  | idle
  | start (count : Nat)
  | seek (count : Nat)
  | loop (count : Nat)
deriving DecidableEq, Repr

/-- A directory with one open file. `ended` tells that the last call emitted no entry
and returned 0 although the buffer refused none. -/
structure Scan where
  tree    : Tree
  gen     : Nat
  iter    : Iter
  pos     : Nat
  pc      : Pc
  emitted : List (List UInt8)
  ended   : Bool

/-- The steps of a call, and a change of the directory. -/
inductive Event where
  | call
  | dot (fits : Bool)
  | check
  | seek
  | next (fits : Bool)
  | change (tree : Tree)

namespace Scan

/-- The real entry that `ctx->pos` names. -/
def target (st : Scan) : Nat := st.pos - 2

/-- A change of the trie under the lock. -/
def change (st : Scan) (t : Tree) : Scan :=
  { st with tree := t, gen := st.gen + 1 }

/-- `briefs_dir_open`, then the changes before the first call. -/
def opened (t : Tree) (gen : Nat) (changes : List Tree) : Scan :=
  changes.foldl change
    { tree := t, gen := gen, iter := Iter.alloc.init t.root gen, pos := 0, pc := .idle,
      emitted := [], ended := false }

/-- One round of the loop of `briefs_readdir`. -/
def round (blockCount : Nat) (st : Scan) (count : Nat) (fits : Bool) : Scan :=
  match st.iter.next blockCount st.tree.store st.gen with
  | (it, .error _) => { st with iter := it, pc := .idle, ended := count == 0 }
  | (it, .ok e) =>
    if fits then
      { st with
        iter    := Iter.ckptRecord { it with emitIdx := it.emitIdx + 1 }
        pos     := st.pos + 1
        pc      := .loop (count + 1)
        emitted := st.emitted ++ [e.name] }
    else { st with iter := { it with pending := some e }, pc := .idle }

/-- The steps of `briefs_readdir`. -/
def step (blockCount : Nat) (st : Scan) : Event → Option Scan
  | .call => match st.pc with
    | .idle => some { st with pc := .start 0, ended := false }
    | _ => none
  | .dot fits => match st.pc with
    | .start count =>
      if st.pos < 2 then
        if fits then some { st with pos := st.pos + 1, pc := .start (count + 1) }
        else some { st with pc := .idle }
      else none
    | _ => none
  | .check => match st.pc with
    | .start count =>
      if st.pos < 2 then none
      else if st.target ≠ st.iter.emitIdx ∨ st.iter.gen ≠ st.gen then
        some { st with pc := .seek count }
      else some { st with pc := .loop count }
    | _ => none
  | .seek => match st.pc with
    | .seek count =>
      some { st with
        iter := st.iter.seek blockCount st.tree.store st.tree.root st.gen st.target
        pc   := .loop count }
    | _ => none
  | .next fits => match st.pc with
    | .loop count => some (st.round blockCount count fits)
    | _ => none
  | .change t => some (st.change t)

/-- A run: every event is possible where it stands. -/
def exec (blockCount : Nat) : Scan → List Event → Option Scan
  | st, [] => some st
  | st, ev :: evs => match st.step blockCount ev with
    | some st₁ => exec blockCount st₁ evs
    | none => none

/-- Every event of a run meets a condition on the state before it. -/
def Meet (blockCount : Nat) (P : Scan → Event → Prop) : Scan → List Event → Prop
  | _, [] => True
  | st, ev :: evs => P st ev ∧ match st.step blockCount ev with
    | some st₁ => Meet blockCount P st₁ evs
    | none => True

/-- Conditions on the single events of a run can be computed. -/
instance decidableMeet (blockCount : Nat) (P : Scan → Event → Prop)
    [∀ st ev, Decidable (P st ev)] : ∀ st evs, Decidable (Meet blockCount P st evs)
  | _, [] => inferInstanceAs (Decidable True)
  | st, ev :: evs =>
    have : Decidable (match st.step blockCount ev with
        | some st₁ => Meet blockCount P st₁ evs
        | none => True) :=
      match st.step blockCount ev with
      | some st₁ => decidableMeet blockCount P st₁ evs
      | none => inferInstanceAs (Decidable True)
    inferInstanceAs (Decidable (_ ∧ _))

--
-- What a scan returns, and when a change is harmless
--

/-- A change is one of other names: those of `through` stay. -/
def Spares (through : List (List UInt8)) : Event → Prop
  | .change t => ∀ n ∈ through, n ∈ t.names
  | _ => True

instance (through : List (List UInt8)) : ∀ ev, Decidable (Spares through ev)
  | .change t => inferInstanceAs (Decidable (∀ n ∈ through, n ∈ t.names))
  | .call | .dot _ | .check | .seek | .next _ => inferInstanceAs (Decidable True)

/-- Each name that is there throughout is emitted once at most, and once exactly when
a call has told the end of the directory. -/
def Exact (through : List (List UInt8)) (st : Scan) : Prop :=
  ∀ n ∈ through, st.emitted.count n ≤ 1 ∧ (st.ended = true → st.emitted.count n = 1)

/-- A change after which no name that is there throughout is on the other side of the
position, which does not fall between the test of the position and the first entry of
a call unless those names are all emitted, and after which the trie can be walked. -/
def Harmless (blockCount : Nat) (through : List (List UInt8)) (st : Scan) : Event → Prop
  | .change t =>
    (∀ n ∈ through, n ∈ st.tree.names.take st.target ↔ n ∈ t.names.take st.target) ∧
      (st.pc = .loop 0 → ∀ n ∈ through, n ∈ st.emitted) ∧ t.Walkable blockCount
  | _ => True

instance (blockCount : Nat) (through : List (List UInt8)) (st : Scan) :
    ∀ ev, Decidable (Harmless blockCount through st ev)
  | .change t => inferInstanceAs (Decidable
      ((∀ n ∈ through, n ∈ st.tree.names.take st.target ↔ n ∈ t.names.take st.target) ∧
        (st.pc = .loop 0 → ∀ n ∈ through, n ∈ st.emitted) ∧ t.Walkable blockCount))
  | .call | .dot _ | .check | .seek | .next _ => inferInstanceAs (Decidable True)

/-- The iterator stands before the entries from the position on, if it is not stale. -/
def Placed (blockCount : Nat) (st : Scan) : Prop :=
  st.iter.gen = st.gen →
    Positioned blockCount st.tree.store st.tree.forest st.iter (st.tree.entries.drop st.target) ∧
      (st.iter.emitIdx = st.target ∨
        st.iter.emitIdx < st.target ∧ st.tree.entries.drop st.target = [])

/-- The invariant of a scan. -/
structure Sound (blockCount : Nat) (through : List (List UInt8)) (st : Scan) : Prop where
  walkable : st.tree.Walkable blockCount
  present  : ∀ n ∈ through, n ∈ st.tree.names
  past     : st.iter.gen ≤ st.gen
  placed   : st.Placed blockCount
  seen     : ∀ n ∈ through, st.emitted.count n =
    if n ∈ st.tree.names.take st.target then 1 else 0
  dots     : ∀ count, st.pc = .seek count ∨ st.pc = .loop count → 2 ≤ st.pos
  seeking  : ∀ count, st.pc = .seek count → st.iter.gen ≠ st.gen ∨ st.iter.emitIdx ≠ st.target
  stale    : st.pc = .loop 0 → st.iter.gen ≠ st.gen → ∀ n ∈ through, n ∈ st.emitted
  finished : st.ended = true → ∀ n ∈ through, n ∈ st.emitted

variable {blockCount : Nat} {through : List (List UInt8)} {st st' : Scan}

theorem Sound.exact (h : Sound blockCount through st) : st.Exact through := by
  intro n hn
  have hSeen := h.seen n hn
  refine ⟨?_, ?_⟩
  · rw [hSeen]
    split_ifs <;> omega
  · intro hEnded
    have hMem := List.count_pos_iff.mpr (h.finished hEnded n hn)
    split_ifs at hSeen <;> omega

theorem Sound.change (h : Sound blockCount through st) {t : Tree}
    (hSpares : Spares through (.change t)) (hHarmless : Harmless blockCount through st (.change t)) :
    Sound blockCount through (st.change t) := by
  obtain ⟨hSide, hLoop, hWalkable⟩ := hHarmless
  have hPast := h.past
  have hStale : (st.change t).iter.gen ≠ (st.change t).gen := by
    show st.iter.gen ≠ st.gen + 1
    omega
  refine
    { walkable := hWalkable, present := hSpares, past := ?_,
      placed := fun hSame => absurd hSame hStale, seen := ?_, dots := h.dots,
      seeking := fun _ _ => Or.inl hStale, stale := fun hPc _ => hLoop hPc,
      finished := h.finished }
  · show st.iter.gen ≤ st.gen + 1
    omega
  · intro n hn
    have hSeen := h.seen n hn
    have hIff := hSide n hn
    show st.emitted.count n = if n ∈ t.names.take st.target then 1 else 0
    rw [hSeen]
    by_cases hMem : n ∈ st.tree.names.take st.target
    · rw [if_pos hMem, if_pos (hIff.mp hMem)]
    · rw [if_neg hMem, if_neg (fun hNew => hMem (hIff.mpr hNew))]

theorem Sound.seek (h : Sound blockCount through st) {count : Nat} (hPc : st.pc = .seek count) :
    Sound blockCount through { st with
      iter := st.iter.seek blockCount st.tree.store st.tree.root st.gen st.target
      pc   := .loop count } := by
  have hSought : Positioned blockCount st.tree.store st.tree.forest
        (st.iter.seek blockCount st.tree.store st.tree.root st.gen st.target)
        (st.tree.entries.drop st.target) ∧
      (st.iter.seek blockCount st.tree.store st.tree.root st.gen st.target).gen = st.gen ∧
      ((st.iter.seek blockCount st.tree.store st.tree.root st.gen st.target).emitIdx =
          st.target ∨
        (st.iter.seek blockCount st.tree.store st.tree.root st.gen st.target).emitIdx <
          st.target ∧ st.tree.entries.drop st.target = []) := by
    by_cases hGen : st.iter.gen = st.gen
    · -- the position is past the end, and so is the iterator
      obtain ⟨hPos, hIdx⟩ := h.placed hGen
      have hMoved := (h.seeking count hPc).resolve_left (not_not_intro hGen)
      obtain ⟨hLess, hNil⟩ := hIdx.resolve_left hMoved
      rw [hNil] at hPos
      obtain ⟨hPos', hGen', -, hIdx'⟩ := hPos.seek_end hGen hLess
      rw [hNil]
      exact ⟨hPos', hGen', Or.inr ⟨by omega, rfl⟩⟩
    · obtain ⟨hPos, hGen', -, hIdx⟩ := st.tree.positioned_seek h.walkable hGen st.target
      refine ⟨hPos, hGen', ?_⟩
      rcases Nat.lt_or_ge st.tree.entries.length st.target with hShort | hLong
      · exact Or.inr ⟨by omega, List.drop_eq_nil_of_le (by omega)⟩
      · exact Or.inl (by omega)
  obtain ⟨hPos, hGen, hIdx⟩ := hSought
  exact
    { walkable := h.walkable, present := h.present, past := le_of_eq hGen,
      placed := fun _ => ⟨hPos, hIdx⟩, seen := h.seen, dots := fun _ _ => h.dots count (Or.inl hPc),
      seeking := nofun,
      stale := fun _ hStale => absurd hGen hStale, finished := h.finished }

/-- The names before the position grow by the one that is emitted. -/
theorem take_names_succ {t : Tree} {k : Nat} {e : Entry} {rest : List Entry}
    (hDrop : t.entries.drop k = e :: rest) :
    t.names.take (k + 1) = t.names.take k ++ [e.name] ∧ e.name ∉ t.names.take k ∧
      t.entries.drop (k + 1) = rest := by
  have hNames : t.names.drop k = e.name :: rest.map Entry.name := by
    unfold Tree.names
    rw [← List.map_drop, hDrop]
    rfl
  have hGet : t.names[k]? = some e.name := by
    rw [← List.head?_drop, hNames]
    rfl
  refine ⟨?_, ?_, ?_⟩
  · rw [List.take_add_one, hGet]
    rfl
  · intro hMem
    have hNodup : (t.names.take k ++ t.names.drop k).Nodup := by
      rw [List.take_append_drop]
      exact t.distinct
    rw [hNames] at hNodup
    exact (List.nodup_append.mp hNodup).2.2 e.name hMem e.name (by simp) rfl
  · rw [← List.drop_drop, hDrop]
    rfl

/-- At the end of the walk every name is before the position. -/
theorem take_names_of_drop_nil {t : Tree} {k : Nat} (hDrop : t.entries.drop k = []) :
    t.names.take k = t.names := by
  have hLength := List.drop_eq_nil_iff.mp hDrop
  refine List.take_of_length_le ?_
  unfold Tree.names
  rw [List.length_map]
  exact hLength

theorem Sound.round (h : Sound blockCount through st) {count : Nat} (hPc : st.pc = .loop count)
    (fits : Bool) : Sound blockCount through (st.round blockCount count fits) := by
  have hPos : 2 ≤ st.pos := h.dots count (Or.inr hPc)
  unfold Scan.round
  by_cases hGen : st.iter.gen = st.gen
  · obtain ⟨hPlaced, hIdx⟩ := h.placed hGen
    have hMoves := hPlaced.next hGen
    rcases hNext : st.iter.next blockCount st.tree.store st.gen with ⟨it, r⟩
    rw [hNext] at hMoves
    have hKeep : it.gen = st.gen := hMoves.gen.trans hGen
    have hStay : it.emitIdx = st.iter.emitIdx := hMoves.emitIdx
    rcases hMoves.yields with ⟨hNil, hErr, hEnd⟩ | ⟨e, rest, hCons, hOk, hRest⟩
    · have hAll : ∀ n ∈ through, n ∈ st.emitted := by
        intro n hn
        have hSeen := h.seen n hn
        rw [take_names_of_drop_nil hNil, if_pos (h.present n hn)] at hSeen
        exact List.count_pos_iff.mp (by omega)
      have hErr : r = .error .enoent := hErr
      rw [hErr]
      dsimp only
      refine
        { walkable := h.walkable, present := h.present, past := le_of_eq hKeep, placed := ?_,
          seen := h.seen, dots := fun _ _ => hPos, seeking := nofun, stale := nofun,
          finished := fun _ => hAll }
      intro _
      show Positioned blockCount st.tree.store st.tree.forest it (st.tree.entries.drop st.target) ∧
        (it.emitIdx = st.target ∨ it.emitIdx < st.target ∧ st.tree.entries.drop st.target = [])
      rw [hStay]
      exact ⟨hNil ▸ hEnd, hIdx⟩
    · have hOk : r = .ok e := hOk
      have hAt : st.iter.emitIdx = st.target := by
        refine hIdx.resolve_right ?_
        rintro ⟨-, hNil⟩
        rw [hCons] at hNil
        cases hNil
      rw [hOk]
      cases fits with
      | false =>
        refine
          { walkable := h.walkable, present := h.present, past := le_of_eq hKeep, placed := ?_,
            seen := h.seen, dots := fun _ _ => hPos, seeking := nofun,
            stale := nofun, finished := h.finished }
        intro _
        show Positioned blockCount st.tree.store st.tree.forest { it with pending := some e }
            (st.tree.entries.drop st.target) ∧ _
        rw [hCons]
        exact ⟨hRest.buffer hMoves.pending e, Or.inl (hStay.trans hAt)⟩
      | true =>
        obtain ⟨hTake, hFresh, hDrop⟩ := take_names_succ hCons
        obtain ⟨hSame, hNone, hGenSame, hIdxSame⟩ :=
          ckptRecord_place { it with emitIdx := it.emitIdx + 1 }
        have hTarget : st.pos + 1 - 2 = st.target + 1 := by
          unfold Scan.target
          omega
        have hCounted : Positioned blockCount st.tree.store st.tree.forest
            { it with emitIdx := it.emitIdx + 1 } rest :=
          hRest.sameWalk ⟨rfl, rfl, rfl, rfl⟩ rfl
        have hGenNew : (Iter.ckptRecord { it with emitIdx := it.emitIdx + 1 }).gen = st.gen :=
          hGenSame.trans hKeep
        refine
          { walkable := h.walkable, present := h.present, past := le_of_eq hGenNew, placed := ?_,
            seen := ?_, dots := fun _ _ => Nat.le_succ_of_le hPos, seeking := nofun,
            stale := nofun, finished := ?_ }
        · intro _
          show Positioned blockCount st.tree.store st.tree.forest
              (Iter.ckptRecord { it with emitIdx := it.emitIdx + 1 })
              (st.tree.entries.drop (st.pos + 1 - 2)) ∧
            ((Iter.ckptRecord { it with emitIdx := it.emitIdx + 1 }).emitIdx = st.pos + 1 - 2 ∨ _)
          rw [hTarget, hDrop, hIdxSame]
          refine ⟨hCounted.sameWalk hSame hNone, Or.inl ?_⟩
          show it.emitIdx + 1 = st.target + 1
          omega
        · intro n hn
          show (st.emitted ++ [e.name]).count n =
            if n ∈ st.tree.names.take (st.pos + 1 - 2) then 1 else 0
          rw [hTarget, hTake, List.count_append, h.seen n hn, List.count_singleton]
          by_cases hName : e.name = n
          · subst hName
            rw [if_neg hFresh, if_pos (by simp)]
            simp
          · have hIff : n ∈ st.tree.names.take st.target ++ [e.name] ↔
                n ∈ st.tree.names.take st.target := by
              rw [List.mem_append, List.mem_singleton]
              exact ⟨fun hMem => hMem.resolve_right fun hEq => hName hEq.symm, Or.inl⟩
            simp only [hIff, beq_iff_eq, hName, if_false]
            omega
        · intro hEnded n hn
          exact List.mem_append_left _ (h.finished hEnded n hn)
  · -- the trie has changed since the last step
    have hNext : st.iter.next blockCount st.tree.store st.gen = (st.iter, .error .estale) := by
      unfold Iter.next
      rw [if_pos hGen]
    rw [hNext]
    refine
      { walkable := h.walkable, present := h.present, past := h.past,
        placed := fun hSame => absurd hSame hGen, seen := h.seen,
        dots := fun _ _ => hPos, seeking := nofun, stale := nofun, finished := ?_ }
    intro hEnded
    have hCount : count = 0 := by
      simpa using hEnded
    rw [hCount] at hPc
    exact h.stale hPc hGen

--
-- Runs
--

/-- One step keeps the invariant. -/
theorem Sound.step (h : Sound blockCount through st) {ev : Event} (hSpares : Spares through ev)
    (hHarmless : Harmless blockCount through st ev) (hStep : st.step blockCount ev = some st') :
    Sound blockCount through st' := by
  cases ev with
  | call =>
    simp only [Scan.step] at hStep
    split at hStep
    · rw [← Option.some.inj hStep]
      exact
        { walkable := h.walkable, present := h.present, past := h.past, placed := h.placed,
          seen := h.seen, dots := nofun, seeking := nofun, stale := nofun, finished := nofun }
    · cases hStep
  | dot fits =>
    simp only [Scan.step] at hStep
    split at hStep
    · split_ifs at hStep with hDots hFits
      · have hTarget : st.pos + 1 - 2 = st.target := by
          unfold Scan.target
          omega
        rw [← Option.some.inj hStep]
        refine
          { walkable := h.walkable, present := h.present, past := h.past, placed := ?_, seen := ?_,
            dots := nofun, seeking := nofun, stale := nofun, finished := h.finished }
        · unfold Scan.Placed Scan.target
          dsimp only
          rw [hTarget]
          exact h.placed
        · unfold Scan.target
          dsimp only
          rw [hTarget]
          exact h.seen
      · rw [← Option.some.inj hStep]
        exact
          { walkable := h.walkable, present := h.present, past := h.past, placed := h.placed,
            seen := h.seen, dots := nofun, seeking := nofun, stale := nofun,
            finished := h.finished }
    · cases hStep
  | check =>
    simp only [Scan.step] at hStep
    split at hStep
    · split_ifs at hStep with hDots hMoved
      · rw [← Option.some.inj hStep]
        exact
          { walkable := h.walkable, present := h.present, past := h.past, placed := h.placed,
            seen := h.seen, dots := fun _ _ => Nat.le_of_not_lt hDots,
            seeking := fun _ _ => hMoved.symm.imp id Ne.symm, stale := nofun,
            finished := h.finished }
      · have hGen : st.iter.gen = st.gen := by
          by_contra hNe
          exact hMoved (Or.inr hNe)
        rw [← Option.some.inj hStep]
        exact
          { walkable := h.walkable, present := h.present, past := h.past, placed := h.placed,
            seen := h.seen, dots := fun _ _ => Nat.le_of_not_lt hDots, seeking := nofun,
            stale := fun _ hStale => absurd hGen hStale, finished := h.finished }
    · cases hStep
  | seek =>
    simp only [Scan.step] at hStep
    split at hStep
    · rename_i count hPc
      rw [← Option.some.inj hStep]
      exact h.seek hPc
    · cases hStep
  | next fits =>
    simp only [Scan.step] at hStep
    split at hStep
    · rename_i count hPc
      rw [← Option.some.inj hStep]
      exact h.round hPc fits
    · cases hStep
  | change t =>
    rw [← Option.some.inj hStep]
    exact h.change hSpares hHarmless

/-- A run keeps the invariant. -/
theorem Sound.exec (h : Sound blockCount through st) {evs : List Event}
    (hMeet : Meet blockCount (fun st ev => Spares through ev ∧ Harmless blockCount through st ev)
      st evs)
    (hRun : st.exec blockCount evs = some st') : Sound blockCount through st' := by
  induction evs generalizing st with
  | nil =>
    rw [← Option.some.inj hRun]
    exact h
  | cons ev evs ih =>
    simp only [Scan.exec, Meet] at hRun hMeet
    cases hStep : st.step blockCount ev with
    | none =>
      rw [hStep] at hRun
      cases hRun
    | some st₁ =>
      rw [hStep] at hRun hMeet
      exact ih (h.step hMeet.1.1 hMeet.1.2 hStep) hMeet.2 hRun

/-- The changes before the first call only make the iterator stale. -/
theorem opened_fields (t : Tree) (gen : Nat) (changes : List Tree) :
    (opened t gen changes).iter = Iter.alloc.init t.root gen ∧
      (opened t gen changes).gen = gen + changes.length ∧ (opened t gen changes).pos = 0 ∧
      (opened t gen changes).pc = .idle ∧ (opened t gen changes).emitted = [] ∧
      (opened t gen changes).ended = false ∧ (changes = [] → (opened t gen changes).tree = t) := by
  induction changes using List.reverseRecOn with
  | nil => exact ⟨rfl, rfl, rfl, rfl, rfl, rfl, fun _ => rfl⟩
  | append_singleton changes t' ih =>
    obtain ⟨hIter, hGen, hPos, hPc, hEmitted, hEnded, -⟩ := ih
    have hLast : opened t gen (changes ++ [t']) = (opened t gen changes).change t' := by
      unfold opened
      rw [List.foldl_append]
      rfl
    rw [hLast]
    refine ⟨hIter, ?_, hPos, hPc, hEmitted, hEnded, fun hNil => by simp at hNil⟩
    show (opened t gen changes).gen + 1 = gen + (changes ++ [t']).length
    rw [hGen, List.length_append, List.length_singleton]
    omega

theorem opened_sound {t : Tree} {gen : Nat} {changes : List Tree}
    (hWalkable : (opened t gen changes).tree.Walkable blockCount)
    (hPresent : ∀ n ∈ through, n ∈ (opened t gen changes).tree.names) :
    Sound blockCount through (opened t gen changes) := by
  obtain ⟨hIter, hGen, hPos, hPc, hEmitted, hEnded, hTree⟩ := opened_fields t gen changes
  have hIterGen : (opened t gen changes).iter.gen = gen := by
    rw [hIter]
    rfl
  have hTarget : (opened t gen changes).target = 0 := by
    unfold Scan.target
    rw [hPos]
  refine
    { walkable := hWalkable, present := hPresent, past := by omega, placed := ?_, seen := ?_,
      dots := ?_, seeking := ?_, stale := ?_, finished := ?_ }
  · intro hSame
    have hNil : changes = [] := List.length_eq_zero_iff.mp (by omega)
    rw [hTree hNil] at hWalkable
    rw [hTarget, hTree hNil, hIter]
    exact ⟨t.positioned_init hWalkable Iter.alloc gen, Or.inl rfl⟩
  · intro n _
    rw [hTarget, hEmitted]
    rfl
  · rw [hPc]
    nofun
  · rw [hPc]
    nofun
  · rw [hPc]
    nofun
  · rw [hEnded]
    nofun

/-- A scan from an open file at position 0, under changes of other names between any
two steps that are all harmless, is exact. -/
theorem runs_exact {t : Tree} {gen : Nat} {changes : List Tree} {evs : List Event}
    (hWalkable : (opened t gen changes).tree.Walkable blockCount)
    (hPresent : ∀ n ∈ through, n ∈ (opened t gen changes).tree.names)
    (hMeet : Meet blockCount (fun st ev => Spares through ev ∧ Harmless blockCount through st ev)
      (opened t gen changes) evs)
    (hRun : (opened t gen changes).exec blockCount evs = some st) : st.Exact through :=
  ((opened_sound hWalkable hPresent).exec hMeet hRun).exact

end Scan

--
-- Two names and one removal
--

/-- A pure leaf of depth 1. -/
def leafOf (byte : UInt8) (ino next : Nat) : Node :=
  ⟨0, next, ino, [byte], 1, byte, false, false, 8, 0⟩

/-- The root of a directory with `count` children. -/
def rootOf (first count : Nat) : Node :=
  ⟨first, 0, 0, [], 0, 0, true, false, 0, count⟩

/-- The names "a" and "b" in a directory, inserted in this order. -/
def twoNames : Tree where
  store    := fun r => [(1, rootOf 2 2), (2, leafOf 97 5 3), (3, leafOf 98 6 0)].lookup r
  root     := 1
  forest   := .cons 1 (.cons 2 .nil (.cons 3 .nil .nil)) .nil
  chain    := ⟨rfl, by decide, rootOf 2 2, rfl,
    ⟨rfl, by decide, leafOf 97 5 3, rfl, rfl, rfl, by decide, leafOf 98 6 0, rfl, rfl, rfl⟩, rfl⟩
  single   := by decide
  fits     := ⟨⟨trivial, by decide, trivial, by decide, trivial⟩, by decide, trivial⟩
  once     := by decide
  distinct := by decide

/-- The directory after the removal of "b", the last of the two. -/
def oneName : Tree where
  store    := fun r => [(1, rootOf 2 1), (2, leafOf 97 5 0)].lookup r
  root     := 1
  forest   := .cons 1 (.cons 2 .nil .nil) .nil
  chain    := ⟨rfl, by decide, rootOf 2 1, rfl, ⟨rfl, by decide, leafOf 97 5 0, rfl, rfl, rfl⟩, rfl⟩
  single   := by decide
  fits     := ⟨⟨trivial, by decide, trivial⟩, by decide, trivial⟩
  once     := by decide
  distinct := by decide

/-- A call with room for the dots and one entry. -/
def firstCall : List Event :=
  [.call, .dot true, .dot true, .check, .next true, .next false]

/-- A call with room for every entry after a change. -/
def secondCall : List Event :=
  [.call, .check, .seek, .next true]

/-- The removal falls between the two calls, after "b" is emitted: the second call
seeks past "a". -/
def removalRun : List Event :=
  firstCall ++ [.change oneName] ++ secondCall

/-- The name "a" is there throughout, the second call emits no entry and returns 0,
and "a" is not emitted. -/
theorem removal_skips_a_name :
    ¬ ∀ (blockCount : Nat) (t : Tree) (gen : Nat) (changes : List Tree) (evs : List Event)
      (through : List (List UInt8)) (st : Scan),
      (∀ n ∈ through, n ∈ (Scan.opened t gen changes).tree.names) →
      Scan.Meet blockCount (fun _ ev => Scan.Spares through ev) (Scan.opened t gen changes) evs →
      (Scan.opened t gen changes).exec blockCount evs = some st → st.Exact through := by
  intro hClaim
  have hResult : ((Scan.opened twoNames 0 []).exec 0 removalRun).map
      (fun st => (st.emitted, st.ended)) = some ([[98]], true) := by decide
  obtain ⟨st, hRun, hFields⟩ := Option.map_eq_some_iff.mp hResult
  obtain ⟨hEmitted, hEnded⟩ := Prod.mk.injEq _ _ _ _ ▸ hFields
  have hExact := hClaim 0 twoNames 0 [] removalRun [[97]] st (by decide) (by decide) hRun [97]
    (by decide)
  have hOnce := hExact.2 hEnded
  rw [hEmitted] at hOnce
  exact absurd hOnce (by decide)

/-- The same two calls with the removal of "b" where it is harmless: it is refused by
the first call, so "a" is not yet behind the position. -/
def harmlessRun : List Event :=
  [.call, .dot true, .dot true, .check, .next false, .change oneName] ++ secondCall ++
    [.next true, .call, .check, .next true]

/-- A scan of the two names with a removal before the first of them fits. -/
theorem harmlessRun_exact :
    ∃ st, (Scan.opened twoNames 0 []).exec 0 harmlessRun = some st ∧ st.ended = true ∧
      st.Exact [[97]] := by
  have hResult : ((Scan.opened twoNames 0 []).exec 0 harmlessRun).map
      (fun st => st.ended) = some true := by decide
  obtain ⟨st, hRun, hEnded⟩ := Option.map_eq_some_iff.mp hResult
  exact ⟨st, hRun, hEnded, Scan.runs_exact (by decide) (by decide) (by decide) hRun⟩

end Briefs.Dir
