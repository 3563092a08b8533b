import Briefs.Xattr.Chain
import Briefs.Xattr.Reading

/-!
# BrieFS — the loops of a read on a chain that was written

`briefs_xattr_get` is there twice: by recursion with the map of attributes in mind, and with its
loops as they run on any blocks. On the chain of an inode both read the same.

## Results

* `Chain.behind` — a chain that ends does not come back to a block.
* `getPasses_eq_get` — the loops end, with the result of `Store.get`.
-/

namespace Briefs.Xattr

open Briefs.Lib
open Briefs.Journal

section Loops

variable {blocks : Blocks} {name : List UInt8} {first : Nat} {e : Entry} {c : Cursor} {p : Copy}

theorem Chain.eq : ∀ {l l' : List (Nat × XBlock)} {b : Nat}, Chain blocks b l → Chain blocks b l' →
    l = l' := by
  intro l
  induction l with
  | nil => exact fun h h' => (h'.eq_zero_iff.mp h).symm
  | cons a l ih =>
    intro l' b h h'
    obtain ⟨rfl, hNe, next, hBlock, hRest⟩ := h
    cases l' with
    | nil => exact absurd h' hNe
    | cons a' l' =>
      obtain ⟨hAt, -, next', hBlock', hRest'⟩ := h'
      rw [← hAt, hBlock] at hBlock'
      obtain ⟨hx, rfl⟩ := Prod.mk.inj (Option.some.inj hBlock')
      rw [ih hRest hRest', Prod.ext hAt hx]

/-- A chain that ends does not come back to a block. -/
theorem Chain.behind {n : Nat} {x : XBlock} {rest : List (Nat × XBlock)}
    (h : Chain blocks n ((n, x) :: rest)) : ∀ d ∈ rest, d.1 ≠ n := by
  rintro ⟨m, y⟩ hd rfl
  obtain ⟨A, B, rfl⟩ := List.append_of_mem hd
  have hBack : Chain blocks m ((m, y) :: B) := @Chain.suffix _ ((m, x) :: A) _ _ _ _ h
  have hLen := congrArg List.length (h.eq hBack)
  simp only [List.length_cons, List.length_append] at hLen
  omega

/-- The way on along a chain. -/
theorem follow_chain {m : Nat} {y : XBlock} {rest : List (Nat × XBlock)}
    (h : Chain blocks c.next ((m, y) :: rest)) :
    ∃ d : Cursor, c.follow blocks = .next d ∧ d.Holds blocks ∧ d.bh = y ∧ d.block = m ∧
      d.visited = c.visited + 1 ∧ Chain blocks d.next rest := by
  obtain ⟨hAt, hNe, next, hBlock, hRest⟩ := h
  refine ⟨⟨m, y, next, c.visited + 1, c.reads + 1⟩, ?_, hBlock, rfl, rfl, rfl, hRest⟩
  unfold Cursor.follow Cursor.read
  rw [hAt, if_neg hNe, hBlock]

/-- The search from a block on ends, with what the chain holds. -/
def Finds (blocks : Blocks) (name : List UInt8) (c : Cursor) (l : List (Nat × XBlock)) : Prop :=
  ∃ passes reads found, runLoop (findPass blocks name) passes c = some (reads, .ok found) ∧
    (∀ d e, found = some (d, e) → d.Holds blocks) ∧
    findIn name l = found.map fun f => (f.1.block, f.2)

theorem finds_here {rest : List (Nat × XBlock)} (hHolds : c.Holds blocks)
    (hMore : c.visited < maxChain)
    (hFind : (if c.bh.cont then none else c.bh.find name) = some e) :
    Finds blocks name c ((c.block, c.bh) :: rest) := by
  refine ⟨1, c.reads, some (c, e), runLoop_inr ?_ 0, ?_, ?_⟩
  · unfold findPass
    rw [if_neg (Nat.not_lt.mpr hMore), hFind]
  · rintro d e' ⟨⟩
    exact hHolds
  · rw [findIn, hFind]
    rfl

/-- `briefs_xattr_find` on a chain. -/
theorem findPass_chain : ∀ {rest : List (Nat × XBlock)} {c : Cursor}, c.Holds blocks →
    Chain blocks c.next rest → c.visited + rest.length < maxChain →
    Finds blocks name c ((c.block, c.bh) :: rest) := by
  intro rest
  induction rest with
  | nil =>
    intro c hHolds hRest hShort
    have hLast : c.follow blocks = .last := if_pos hRest
    have hMore : c.visited < maxChain := hShort
    cases hFind : (if c.bh.cont then none else c.bh.find name) with
    | none =>
      refine ⟨1, c.reads, none, runLoop_inr ?_ 0, by simp, ?_⟩
      · unfold findPass
        rw [if_neg (Nat.not_lt.mpr hMore), hFind, hLast]
      · rw [findIn, hFind]
        rfl
    | some e => exact finds_here hHolds hMore hFind
  | cons a rest ih =>
    intro c hHolds hRest hShort
    obtain ⟨m, y⟩ := a
    rw [List.length_cons] at hShort
    cases hFind : (if c.bh.cont then none else c.bh.find name) with
    | none =>
      obtain ⟨d, hNext, hd, rfl, rfl, hVisited, hLater⟩ := follow_chain hRest
      obtain ⟨passes, reads, found, hRun, hFound, hIn⟩ := ih hd hLater (by omega)
      have hPass : findPass blocks name c = .inl d := by
        unfold findPass
        rw [if_neg (by omega), hFind, hNext]
      refine ⟨passes + 1, reads, found, (runLoop_inl hPass passes).trans hRun, hFound, ?_⟩
      rw [findIn, hFind]
      exact hIn
    | some e => exact finds_here hHolds (by omega) hFind

/-- Where bytes are still to come, there is a next block. -/
theorem onward_chain {rest : List (Nat × XBlock)} {off need : Nat} {bytes : List UInt8}
    (hRest : Chain blocks p.cursor.next rest) (hNeed : need ≠ 0)
    (hGather : gather off false (rest.map Prod.snd) need = .ok bytes) :
    ∃ d later, rest = (d.block, d.bh) :: later ∧ Chain blocks d.next later ∧
      p.onward blocks = .inl { p with cursor := d } := by
  cases rest with
  | nil => exact absurd rfl (gather_ne_nil hGather hNeed)
  | cons a later =>
    obtain ⟨m, y⟩ := a
    obtain ⟨d, hNext, -, rfl, rfl, -, hLater⟩ := follow_chain hRest
    refine ⟨d, later, rfl, hLater, ?_⟩
    unfold Copy.onward
    rw [hNext]

/-- `xattr_copy_value` on a chain. -/
theorem copyPass_chain (rest : List (Nat × XBlock)) {p : Copy} {bytes : List UInt8}
    (hRest : Chain blocks p.cursor.next rest) (hApart : ∀ d ∈ rest, d.1 ≠ first)
    (hGather : gather e.valueOffset (p.cursor.block = first) (p.cursor.bh :: rest.map Prod.snd)
      (e.valueLen - p.value.length) = .ok bytes) :
    ∃ passes reads,
      runLoop (copyPass blocks first e) passes p = some (reads, .ok (p.value ++ bytes)) := by
  by_cases hDone : e.valueLen ≤ p.value.length
  · rw [Nat.sub_eq_zero_of_le hDone, gather_zero] at hGather
    obtain rfl := Except.ok.inj hGather
    refine ⟨1, p.cursor.reads, runLoop_inr ?_ 0⟩
    unfold copyPass
    rw [if_pos hDone, List.append_nil]
  have hNeed : e.valueLen - p.value.length ≠ 0 := by omega
  -- The rest of the copy, from the next block on.
  have hLater : ∀ {q : Copy} {bs : List UInt8}, q.cursor = p.cursor →
      e.valueLen - q.value.length ≠ 0 → copyPass blocks first e p = q.onward blocks →
      gather e.valueOffset false (rest.map Prod.snd) (e.valueLen - q.value.length) = .ok bs →
      ∃ passes reads,
        runLoop (copyPass blocks first e) passes p = some (reads, .ok (q.value ++ bs)) := by
    intro q bs hAt hMore hPass hBytes
    obtain ⟨d, later, hSplit, hEnd, hNext⟩ := onward_chain (hAt ▸ hRest) hMore hBytes
    rw [hSplit] at hApart hBytes
    have hOther : decide (d.block = first) = false := decide_eq_false (hApart _ List.mem_cons_self)
    obtain ⟨passes, reads, hRun⟩ := copyPass_chain later (p := { q with cursor := d }) hEnd
      (fun x hx => hApart x (List.mem_cons_of_mem _ hx)) (by rw [hOther]; exact hBytes)
    exact ⟨passes + 1, reads, (runLoop_inl (hPass.trans hNext) passes).trans hRun⟩
  unfold gather at hGather
  rw [if_neg hNeed] at hGather
  by_cases hSkip : p.cursor.block = first ∧ e.valueOffset = 0
  · rw [if_pos ⟨decide_eq_true hSkip.1, hSkip.2⟩] at hGather
    refine hLater rfl hNeed ?_ hGather
    unfold copyPass
    rw [if_neg hDone, if_pos hSkip]
  rw [if_neg fun h => hSkip ⟨of_decide_eq_true h.1, h.2⟩] at hGather
  cases hPay : p.cursor.bh.payload (p.cursor.block = first) e.valueOffset with
  | none =>
    rw [hPay] at hGather
    cases hGather
  | some pair =>
    obtain ⟨start, avail⟩ := pair
    rw [hPay] at hGather
    dsimp only at hGather
    have hLen : (p.value ++ slice p.cursor.bh.data start
        (min avail (e.valueLen - p.value.length))).length =
        p.value.length + min avail (e.valueLen - p.value.length) := by
      rw [List.length_append, length_slice]
    cases hMore : gather e.valueOffset false (rest.map Prod.snd)
        (e.valueLen - p.value.length - min avail (e.valueLen - p.value.length)) with
    | error err =>
      rw [hMore] at hGather
      cases hGather
    | ok bs =>
      rw [hMore] at hGather
      obtain rfl := Except.ok.inj hGather
      rw [← List.append_assoc]
      by_cases hAll : e.valueLen ≤ p.value.length + min avail (e.valueLen - p.value.length)
      · rw [show e.valueLen - p.value.length - min avail (e.valueLen - p.value.length) = 0 by omega,
          gather_zero] at hMore
        obtain rfl := Except.ok.inj hMore
        refine ⟨1, p.cursor.reads, runLoop_inr ?_ 0⟩
        unfold copyPass
        rw [if_neg hDone, if_neg hSkip, hPay, List.append_nil]
        exact if_pos (hLen ▸ hAll)
      · refine hLater (q := { p with value := _ }) rfl (by dsimp only; omega) ?_
          (by dsimp only; rw [hLen, ← Nat.sub_sub]; exact hMore)
        unfold copyPass
        rw [if_neg hDone, if_neg hSkip, hPay]
        exact if_neg (hLen ▸ hAll)
termination_by rest.length
decreasing_by
  rw [hSplit]
  exact Nat.lt_succ_self _

end Loops

/-- `briefs_xattr_get` on the chain of an inode: its loops end, with the result of `Store.get`. -/
theorem getPasses_eq_get {s : Store} {l : List (Nat × XBlock)} {kvs : List KV} (h : Stored s l)
    (hLoad : loadEntries (l.map Prod.snd) = .ok kvs) (name : List UInt8) (size : Option Nat) :
    ∃ passes reads, getPasses s name size passes = some (reads, s.get name size) := by
  unfold getPasses Store.get
  by_cases hName : nameMax < name.length
  · exact ⟨0, 0, by rw [if_pos hName, if_pos hName]⟩
  by_cases hHead : s.head = 0
  · exact ⟨0, 0, by rw [if_neg hName, if_pos hHead, if_neg hName, if_pos hHead]⟩
  have hNe : l ≠ [] := fun hNil => hHead (h.chain.eq_zero_iff.mpr hNil)
  rw [if_neg hName, if_neg hHead, findEntry_chain name h.chain hNe h.short]
  simp only [if_neg hName, if_neg hHead]
  obtain ⟨⟨n, x⟩, rest, rfl⟩ := List.exists_cons_of_ne_nil hNe
  obtain ⟨hAt, -, next, hBlock, hRest⟩ := h.chain
  have hRead : Cursor.read s.blocks s.head 0 0 = some ⟨n, x, next, 0, 1⟩ := by
    unfold Cursor.read
    rw [hAt, hBlock]
  obtain ⟨passes, reads, found, hRun, hHolds, hIn⟩ := findPass_chain 
    (c := ⟨n, x, next, 0, 1⟩) hBlock hRest (by have hShort := h.short; simp at hShort ⊢; omega)
  simp only [hRead]
  rcases findIn_load name hLoad with
    ⟨hNone, -⟩ | ⟨front, m, y, later, e, value, hEq, hFind, hGather, -⟩
  · rw [hNone] at hIn ⊢
    obtain rfl : found = none := by simpa using hIn.symm
    exact ⟨passes, reads, by rw [hRun]⟩
  · rw [hFind] at hIn ⊢
    obtain ⟨⟨d, e'⟩, rfl, hSome⟩ := Option.map_eq_some_iff.mp hIn.symm
    obtain ⟨rfl, rfl⟩ := Prod.mk.inj hSome
    have hFrom : Chain s.blocks d.block ((d.block, y) :: later) := (hEq ▸ h.chain).suffix
    obtain ⟨-, -, link, hHere, hLater⟩ := id hFrom
    obtain ⟨rfl, rfl⟩ := Prod.mk.inj (Option.some.inj ((hHolds d e' rfl).symm.trans hHere))
    have hCopy : copyValue s.blocks e'.valueOffset (e'.valueLen + 2) true d.block e'.valueLen =
        .ok value := copyValue_chain hFrom hGather (by simp)
    obtain ⟨passes', reads', hRun'⟩ := copyPass_chain later (p := ⟨d, []⟩) hLater hFrom.behind
      (by rw [decide_eq_true rfl]; exact hGather)
    cases size with
    | none => exact ⟨passes, reads, by rw [hRun]⟩
    | some room =>
      refine ⟨max passes passes', ?_⟩
      rw [runLoop_mono (Nat.le_max_left _ _) hRun]
      dsimp only
      rw [hCopy]
      by_cases hRoom : room < e'.valueLen
      · exact ⟨reads, by rw [if_pos hRoom, if_pos hRoom]⟩
      rw [if_neg hRoom]
      by_cases hEmpty : e'.valueLen = 0
      · have hNil := List.eq_nil_of_length_eq_zero ((length_gather hGather).trans hEmpty)
        exact ⟨reads, by rw [if_neg hRoom, if_pos hEmpty, hEmpty, hNil]⟩
      · refine ⟨reads', ?_⟩
        rw [if_neg hRoom, if_neg hEmpty, runLoop_mono (Nat.le_max_right _ _) hRun']
        rfl

end Briefs.Xattr
