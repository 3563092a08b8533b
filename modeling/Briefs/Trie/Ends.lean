import Briefs.Trie.Scan

/-!
# BrieFS — the iterator comes to an end

On any nodes, with links that lead back as well: the cap on visits bounds what is read, and what
is read bounds what is pushed.

## Results

* `TrieIter.next_ends` — one call returns.
* `TrieIter.drain_ends` — calls until the first error.
-/

namespace Briefs.Trie

open Briefs.Lib

namespace TrieIter

variable {mem : Nat → Bool} {s : Store} {it it' : TrieIter} {blockCount gen : Nat}

/-- A visit weighs more than the node it puts on the stack, and a chain of children that is being
pushed more than one node of it. -/
def left (p : TrieIter × Option Nat) : Nat :=
  4 * (p.1.visitCap + 2 - p.1.visited) + 2 * p.1.stack.length + (if p.2.isSome then 3 else 0)

/-- Children are pushed only while the visits are below the cap. -/
def Within (p : TrieIter × Option Nat) : Prop := p.2.isSome = true → p.1.visited ≤ p.1.visitCap + 1

theorem left_none (it : TrieIter) :
    left (it, none) = 4 * (it.visitCap + 2 - it.visited) + 2 * it.stack.length := rfl

theorem left_some (it : TrieIter) (c : Nat) :
    left (it, some c) = 4 * (it.visitCap + 2 - it.visited) + 2 * it.stack.length + 3 := rfl

/-- A pass goes on with less before it. -/
theorem Within.goes_on {p q : TrieIter × Option Nat} (h : Within p)
    (hDoes : Does mem s p (.inl q)) : Within q ∧ left q < left p ∧ p.1.SamePlace q.1 := by
  generalize hOut : (Sum.inl q :
    (TrieIter × Option Nat) ⊕ (TrieIter × Except IterErrno Entry)) = out at hDoes
  cases hDoes with
  | dropped hStack hCap hNode =>
    cases hOut
    refine ⟨fun hSome => absurd hSome Bool.noConfusion, ?_, rfl, rfl, rfl, rfl, rfl, rfl, rfl, rfl⟩
    rw [left_none, left_none, hStack, List.length_cons]
    dsimp only
    omega
  | descend hStack hCap hNode hNote hEmits =>
    cases hOut
    have hSame : _ = _ := hNote.same.visitCap
    have hVisited : _ = _ := hNote.visited
    have hRest := congrArg List.length hNote.stack
    dsimp only at hSame hVisited hRest
    refine ⟨fun _ => ?_, ?_, hNote.samePlace⟩
    · dsimp only
      omega
    · rw [left_none, left_some, hStack, List.length_cons]
      omega
  | pushed =>
    cases hOut
    refine ⟨fun hSome => absurd hSome Bool.noConfusion, ?_, .refl _⟩
    rw [left_none, left_some]
    omega
  | broken hNe hPush hNode =>
    cases hOut
    have hRest := congrArg List.length hPush.stack
    rw [List.length_cons] at hRest
    refine ⟨fun hSome => absurd hSome Bool.noConfusion, ?_, hPush.same⟩
    rw [left_none, left_some, hPush.same.visitCap, hPush.visited, hRest]
    omega
  | child hNe hPush hNode hNote hCap =>
    cases hOut
    have hLow : _ ≤ _ := h rfl
    have hRest := congrArg List.length (hNote.stack.trans hPush.stack)
    rw [List.length_cons] at hRest
    refine ⟨fun _ => Nat.le_succ_of_le hCap, ?_, hPush.same.trans hNote.same⟩
    rw [left_some, left_some, hNote.same.visitCap, hNote.visited, hPush.same.visitCap,
      hPush.visited, hRest]
    dsimp only at hLow
    omega
  | done => cases hOut
  | capped => cases hOut
  | repeated => cases hOut
  | leaf => cases hOut
  | stuck => cases hOut
  | again => cases hOut
  | full => cases hOut
  | childRepeated => cases hOut
  | childCapped => cases hOut

/-- A pass that returns an entry leaves less to be done. -/
theorem Within.returns {p : TrieIter × Option Nat} {it' : TrieIter} {e : Entry}
    (hDoes : Does mem s p (.inr (it', .ok e))) : left (it', none) < left p ∧ p.1.SamePlace it' := by
  generalize hOut : (Sum.inr (it', .ok e) :
    (TrieIter × Option Nat) ⊕ (TrieIter × Except IterErrno Entry)) = out at hDoes
  cases hDoes with
  | leaf hStack hCap hNode hNote hEmits hKids =>
    cases hOut
    have hSame : _ = _ := hNote.same.visitCap
    have hVisited : _ = _ := hNote.visited
    have hRest := congrArg List.length hNote.stack
    dsimp only at hSame hVisited hRest
    refine ⟨?_, hNote.samePlace⟩
    rw [left_none, left_none, hStack, List.length_cons]
    omega
  | again hStack hCap hNode hNote hEmits hKids hPush =>
    cases hOut
    have hSame : _ = _ := hNote.same.visitCap
    have hVisited : _ = _ := hNote.visited
    have hRest := congrArg List.length (hPush.stack.trans (congrArg _ hNote.stack))
    rw [List.length_cons] at hRest
    dsimp only at hSame hVisited hRest
    refine ⟨?_, hNote.samePlace.trans hPush.same⟩
    rw [left_none, left_none, hStack, List.length_cons, hPush.same.visitCap, hPush.visited, hRest]
    omega
  | done => cases hOut
  | capped => cases hOut
  | dropped => cases hOut
  | repeated => cases hOut
  | stuck => cases hOut
  | descend => cases hOut
  | pushed => cases hOut
  | full => cases hOut
  | broken => cases hOut
  | childRepeated => cases hOut
  | childCapped => cases hOut
  | child => cases hOut

theorem visitCap_withCap (it : TrieIter) (blockCount : Nat) :
    (it.withCap blockCount).visitCap ≠ 0 := by
  unfold withCap
  split_ifs with hZero
  · exact Nat.succ_ne_zero _
  · exact hZero

theorem withCap_of_ne (h : it.visitCap ≠ 0) : it.withCap blockCount = it := if_neg h

/-- What a sequence of calls has before it: a buffered entry costs one call. -/
def ahead (blockCount : Nat) (it : TrieIter) : Nat :=
  left (it.withCap blockCount, none) + (if it.pending.isSome then 1 else 0)

/-- A call returns, and with an entry there is less before the next one. -/
theorem next_ends (mem : Nat → Bool) (s : Store) (gen : Nat) {passes : Nat}
    (hPasses : it.ahead blockCount < passes) :
    ∃ it' r, it.next mem blockCount s gen passes = some (it', r) ∧
      ∀ e, r = .ok e → it'.ahead blockCount < it.ahead blockCount := by
  obtain ⟨-, hPending, -⟩ := it.samePlace_withCap blockCount
  unfold next
  by_cases hGen : it.gen ≠ gen
  · rw [if_pos hGen]
    exact ⟨_, _, rfl, fun e hOk => by cases hOk⟩
  rw [if_neg hGen]
  dsimp only
  have hCap := visitCap_withCap it blockCount
  have hAhead : it.ahead blockCount =
    left (it.withCap blockCount, none) + (if it.pending.isSome then 1 else 0) := rfl
  rw [hAhead] at hPasses ⊢
  rw [← hPending] at hPasses ⊢
  generalize it.withCap blockCount = capped at *
  cases hBuffer : capped.pending with
  | some e =>
    refine ⟨_, _, rfl, fun _ _ => ?_⟩
    have hAfter : ({ capped with pending := none } : TrieIter).withCap blockCount =
      { capped with pending := none } := withCap_of_ne hCap
    unfold ahead
    rw [hAfter]
    exact Nat.lt_succ_self _
  | none =>
    dsimp only
    rw [hBuffer] at hPasses
    have hStep : ∀ p q, (Within p ∧ left p ≤ left (capped, none) ∧ capped.SamePlace p.1) →
        pass mem s p = .inl q →
        (Within q ∧ left q ≤ left (capped, none) ∧ capped.SamePlace q.1) ∧ left q < left p := by
      rintro p q ⟨hIn, hLe, hSoFar⟩ hBody
      have hDoes := pass_does mem s p
      rw [hBody] at hDoes
      obtain ⟨hWithin, hLt, hSame⟩ := hIn.goes_on hDoes
      exact ⟨⟨hWithin, hLt.le.trans hLe, hSoFar.trans hSame⟩, hLt⟩
    have hOut : ∀ p r, (Within p ∧ left p ≤ left (capped, none) ∧ capped.SamePlace p.1) →
        pass mem s p = .inr r →
        ∀ e, r.2 = .ok e → left (r.1, none) < left (capped, none) ∧ capped.SamePlace r.1 := by
      rintro p ⟨it', r⟩ ⟨-, hLe, hSoFar⟩ hBody e hOk
      have hDoes := pass_does mem s p
      dsimp only at hOk
      rw [hBody, hOk] at hDoes
      obtain ⟨hLt, hSame⟩ := Within.returns hDoes
      exact ⟨hLt.trans_le hLe, hSoFar.trans hSame⟩
    have hStart : Within (capped, none) := fun hSome => absurd hSome Bool.noConfusion
    obtain ⟨⟨it', r⟩, hRun, hLess⟩ := runLoop_of_measure _ left hStep hOut
      ⟨hStart, Nat.le_refl _, .refl capped⟩ hPasses
    refine ⟨it', r, hRun, fun e hOk => ?_⟩
    obtain ⟨hLt, hSame⟩ := hLess e hOk
    have hAfter : it'.withCap blockCount = it' := withCap_of_ne (by rw [hSame.visitCap]; exact hCap)
    unfold ahead
    rw [hAfter, hSame.pending, hBuffer]
    exact hLt

/-- A loop of `briefs_trie_iter_next` until it returns an error. -/
theorem drain_ends (mem : Nat → Bool) (s : Store) (gen : Nat) {passes : Nat} :
    ∀ {calls : Nat} {it : TrieIter}, it.ahead blockCount < passes → it.ahead blockCount < calls →
      ∃ r, it.drain mem blockCount s gen passes calls = some r := by
  intro calls
  induction calls with
  | zero => exact fun _ hLt => absurd hLt (Nat.not_lt_zero _)
  | succ calls ih =>
    intro it hPasses hCalls
    obtain ⟨it', r, hNext, hLess⟩ := next_ends mem s gen hPasses
    unfold drain
    rw [hNext]
    cases r with
    | error err => exact ⟨_, rfl⟩
    | ok e =>
      have hLt := hLess e rfl
      have hFew := hLt.trans_le (Nat.le_of_lt_succ hCalls)
      obtain ⟨⟨it₂, err, es⟩, hRest⟩ := ih (hLt.trans hPasses) hFew
      dsimp only
      rw [hRest]
      exact ⟨_, rfl⟩

theorem drain_returns (mem : Nat → Bool) (blockCount : Nat) (s : Store) (gen : Nat)
    (it : TrieIter) : ∃ passes calls r, it.drain mem blockCount s gen passes calls = some r :=
  ⟨_, _, drain_ends mem s gen (Nat.lt_succ_self (it.ahead blockCount))
    (Nat.lt_succ_self (it.ahead blockCount))⟩

end TrieIter

end Briefs.Trie
