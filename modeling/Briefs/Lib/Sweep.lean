import Briefs.Lib.Runs

/-!
# Every maximal run of a bitmap

A sweep from the low end that cuts a set of positions into its maximal runs. The
run seen last stays open until the next one starts, so it may lie behind the
position of the sweep; `Swept` is the invariant, over any predicate `f`.

## Results

* `Swept.skip`, `Swept.close`, `Swept.join` — clear positions, a run that is
  handed out, and a run that starts at the position.
* `MaxRun.shorten` — a maximal run cut at a limit is one below that limit.
-/

namespace Briefs.Lib

--
-- Maximal runs
--

/-- `[s, e)` is a maximal run of positions below `limit` that satisfy `f`. -/
structure MaxRun (f : Nat → Bool) (limit s e : Nat) : Prop where
  nonempty : s < e
  inside   : e ≤ limit
  set      : ∀ i, s ≤ i → i < e → f i = true
  left     : s = 0 ∨ f (s - 1) = false
  right    : e = limit ∨ f e = false

variable {f g : Nat → Bool} {limit s e : Nat}

/-- Of two maximal runs with a common position neither starts later. -/
theorem MaxRun.start_le (h : MaxRun f limit s e) {s' e' i : Nat} (h' : MaxRun f limit s' e')
    (hs : s ≤ i) (hi' : i < e') : s ≤ s' := by
  by_contra hLt
  rcases h.left with hZero | hClear
  · omega
  · have hSet := h'.set (s - 1) (by omega) (by omega)
    rw [hClear] at hSet
    exact absurd hSet (by decide)

/-- Nor does either end later. -/
theorem MaxRun.end_le (h : MaxRun f limit s e) {s' e' i : Nat} (h' : MaxRun f limit s' e')
    (hi : i < e) (hs' : s' ≤ i) : e' ≤ e := by
  by_contra hLt
  have hInside := h'.inside
  rcases h.right with hEnd | hClear
  · omega
  · have hSet := h'.set e (by omega) (by omega)
    rw [hClear] at hSet
    exact absurd hSet (by decide)

/-- A position is in one maximal run only. -/
theorem MaxRun.unique (h : MaxRun f limit s e) {s' e' i : Nat} (h' : MaxRun f limit s' e')
    (hs : s ≤ i) (hi : i < e) (hs' : s' ≤ i) (hi' : i < e') : s = s' ∧ e = e' :=
  ⟨Nat.le_antisymm (h.start_le h' hs hi') (h'.start_le h hs' hi),
    Nat.le_antisymm (h'.end_le h hi' hs) (h.end_le h' hi hs')⟩

/-- Below a smaller limit, where `g` agrees with `f`, a run is cut at the limit. -/
theorem MaxRun.shorten (h : MaxRun f limit s e) {limit' : Nat} (hLe : limit' ≤ limit)
    (hStart : s < limit') (hAgree : ∀ i, i < limit' → g i = f i) :
    MaxRun g limit' s (min e limit') := by
  have hNe := h.nonempty
  refine ⟨by omega, by omega, ?_, ?_, ?_⟩
  · intro i hLo hHi
    rw [hAgree i (by omega)]
    exact h.set i hLo (by omega)
  · rcases h.left with hZero | hClear
    · exact Or.inl hZero
    · refine Or.inr ?_
      rw [hAgree (s - 1) (by omega)]
      exact hClear
  · by_cases hCut : limit' ≤ e
    · exact Or.inl (by omega)
    · refine Or.inr ?_
      rw [show min e limit' = e by omega, hAgree e (by omega)]
      rcases h.right with hEnd | hClear
      · omega
      · exact hClear

--
-- The sweep
--

/-- `[s, s + n)` is a run that cannot be extended to the left. -/
structure OpenRun (f : Nat → Bool) (s n : Nat) : Prop where
  set  : IsRun f s n
  left : s = 0 ∨ f (s - 1) = false

/-- The runs handed out so far, with the open one when it is not empty. -/
def closeRun (done : List (Nat × Nat)) (runStart runLen : Nat) : List (Nat × Nat) :=
  if runLen = 0 then done else done ++ [(runStart, runLen)]

/-- Where the sweep stands at position `p`: `done` are the runs handed out, and the
last run seen is still open. -/
structure Swept (f : Nat → Bool) (p : Nat) (done : List (Nat × Nat)) (runStart runLen : Nat) :
    Prop where
  closed  : ∀ r ∈ done, 0 < r.2 ∧ OpenRun f r.1 r.2 ∧ f (r.1 + r.2) = false ∧ r.1 + r.2 ≤ p
  opened  : 0 < runLen → OpenRun f runStart runLen ∧ runStart + runLen ≤ p
  ended   : 0 < runLen → runStart + runLen < p → f (runStart + runLen) = false
  covered : ∀ i, i < p → f i = true →
    (0 < runLen ∧ runStart ≤ i ∧ i < runStart + runLen) ∨ ∃ r ∈ done, r.1 ≤ i ∧ i < r.1 + r.2
  sorted  : done.Pairwise fun r r' => r.1 + r.2 ≤ r'.1
  before  : 0 < runLen → ∀ r ∈ done, r.1 + r.2 ≤ runStart

variable {p runStart runLen : Nat} {done : List (Nat × Nat)}

theorem Swept.start : Swept f 0 [] 0 0 := by
  refine ⟨nofun, ?_, ?_, ?_, List.Pairwise.nil, ?_⟩
  · intro h
    omega
  · intro h
    omega
  · intro i hi
    omega
  · intro h
    omega

/-- Clear positions do not touch the runs. -/
theorem Swept.skip (h : Swept f p done runStart runLen) {q : Nat} (hpq : p ≤ q)
    (hClear : ∀ i, p ≤ i → i < q → f i = false) : Swept f q done runStart runLen := by
  refine ⟨?_, ?_, ?_, ?_, h.sorted, h.before⟩
  · intro r hr
    obtain ⟨hPos, hOpen, hEnd, hLe⟩ := h.closed r hr
    exact ⟨hPos, hOpen, hEnd, by omega⟩
  · intro hPos
    obtain ⟨hOpen, hLe⟩ := h.opened hPos
    exact ⟨hOpen, by omega⟩
  · intro hPos hLt
    have hLe := (h.opened hPos).2
    by_cases hAt : runStart + runLen < p
    · exact h.ended hPos hAt
    · exact hClear _ (by omega) hLt
  · intro i hi hSet
    by_cases hip : i < p
    · exact h.covered i hip hSet
    · rw [hClear i (by omega) hi] at hSet
      exact absurd hSet (by decide)

/-- The open run is handed out once a clear position follows it. -/
theorem Swept.close (h : Swept f p done runStart runLen)
    (hEnd : 0 < runLen → f (runStart + runLen) = false) :
    Swept f p (closeRun done runStart runLen) runStart 0 := by
  unfold closeRun
  by_cases hLen : runLen = 0
  · subst hLen
    rw [if_pos rfl]
    exact h
  · rw [if_neg hLen]
    have hPos : 0 < runLen := by omega
    obtain ⟨hOpen, hLe⟩ := h.opened hPos
    refine ⟨?_, ?_, ?_, ?_, ?_, ?_⟩
    · intro r hr
      rcases List.mem_append.mp hr with hOld | hNew
      · exact h.closed r hOld
      · rw [List.mem_singleton] at hNew
        subst hNew
        exact ⟨hPos, hOpen, hEnd hPos, hLe⟩
    · intro hNo
      omega
    · intro hNo
      omega
    · intro i hi hSet
      rcases h.covered i hi hSet with ⟨-, hLo, hHi⟩ | ⟨r, hr, hIn⟩
      · exact Or.inr ⟨_, List.mem_append_right _ (List.mem_singleton.mpr rfl), hLo, hHi⟩
      · exact Or.inr ⟨r, List.mem_append_left _ hr, hIn⟩
    · refine List.pairwise_append.mpr ⟨h.sorted, List.pairwise_singleton _ _, ?_⟩
      intro r hr r' hr'
      rw [List.mem_singleton] at hr'
      subst hr'
      exact h.before hPos r hr
    · intro hNo
      omega

/-- A run that starts at `p` right behind the open one makes that one longer. -/
theorem Swept.extend (h : Swept f p done runStart runLen) {cnt : Nat} (hPos : 0 < runLen)
    (hAt : p = runStart + runLen) (hRun : IsRun f p cnt) :
    Swept f (p + cnt) done runStart (runLen + cnt) := by
  obtain ⟨hOpen, -⟩ := h.opened hPos
  refine ⟨?_, ?_, ?_, ?_, h.sorted, fun _ => h.before hPos⟩
  · intro r hr
    obtain ⟨hLen, hRunR, hEnd, hLe⟩ := h.closed r hr
    exact ⟨hLen, hRunR, hEnd, by omega⟩
  · intro _
    refine ⟨⟨?_, hOpen.left⟩, by omega⟩
    intro i hLo hHi
    by_cases hi : i < runStart + runLen
    · exact hOpen.set i hLo hi
    · exact hRun i (by omega) (by omega)
  · intro _ hLt
    omega
  · intro i hi hSet
    by_cases hip : i < p
    · rcases h.covered i hip hSet with ⟨-, hLo, hHi⟩ | hIn
      · exact Or.inl ⟨by omega, hLo, by omega⟩
      · exact Or.inr hIn
    · exact Or.inl ⟨by omega, by omega, by omega⟩

/-- A set position right after the sweep is behind no run handed out, so with no run
open it starts a run. -/
theorem Swept.left_clear (h : Swept f p done runStart runLen) (hSet : f p = true)
    (hApart : 0 < runLen → p ≠ runStart + runLen) : p = 0 ∨ f (p - 1) = false := by
  by_cases hZero : p = 0
  · exact Or.inl hZero
  · refine Or.inr ?_
    by_contra hPrev
    rw [Bool.not_eq_false] at hPrev
    rcases h.covered (p - 1) (by omega) hPrev with ⟨hPos, -, hHi⟩ | ⟨r, hr, -, hHi⟩
    · have hLe := (h.opened hPos).2
      have hNe := hApart hPos
      omega
    · obtain ⟨-, -, hEnd, hLe⟩ := h.closed r hr
      rw [show r.1 + r.2 = p by omega, hSet] at hEnd
      exact absurd hEnd (by decide)

/-- A run that starts at `p` with no run open becomes the open one. -/
theorem Swept.reopen (h : Swept f p done runStart 0) {cnt : Nat} (hCnt : 0 < cnt)
    (hRun : IsRun f p cnt) : Swept f (p + cnt) done p cnt := by
  have hSet : f p = true := hRun p (Nat.le_refl p) (by omega)
  refine ⟨?_, ?_, ?_, ?_, h.sorted, ?_⟩
  · intro r hr
    obtain ⟨hLen, hRunR, hEnd, hLe⟩ := h.closed r hr
    exact ⟨hLen, hRunR, hEnd, by omega⟩
  · intro _
    exact ⟨⟨hRun, h.left_clear hSet (fun hNo => absurd hNo (Nat.lt_irrefl 0))⟩, Nat.le_refl _⟩
  · intro _ hLt
    omega
  · intro i hi hSetI
    by_cases hip : i < p
    · rcases h.covered i hip hSetI with ⟨hNo, -, -⟩ | hIn
      · omega
      · exact Or.inr hIn
    · exact Or.inl ⟨hCnt, by omega, hi⟩
  · intro _ r hr
    exact (h.closed r hr).2.2.2

/-- A run that starts at `p` apart from the open one: that one is handed out first. -/
theorem Swept.join (h : Swept f p done runStart runLen) {cnt : Nat} (hCnt : 0 < cnt)
    (hApart : ¬ (0 < runLen ∧ p = runStart + runLen)) (hRun : IsRun f p cnt) :
    Swept f (p + cnt) (closeRun done runStart runLen) p cnt := by
  refine (h.close ?_).reopen hCnt hRun
  intro hPos
  have hLe := (h.opened hPos).2
  have hNe : p ≠ runStart + runLen := fun hEq => hApart ⟨hPos, hEq⟩
  exact h.ended hPos (by omega)

--
-- The end of the sweep
--

/-- What the sweep has found at its end. -/
theorem Swept.mem_maxRun (h : Swept f p done runStart runLen) {r : Nat × Nat}
    (hr : r ∈ closeRun done runStart runLen) : MaxRun f p r.1 (r.1 + r.2) := by
  have hClosed : ∀ r ∈ done, MaxRun f p r.1 (r.1 + r.2) := by
    intro r hr
    obtain ⟨hPos, hOpen, hEnd, hLe⟩ := h.closed r hr
    exact ⟨by omega, hLe, hOpen.set, hOpen.left, Or.inr hEnd⟩
  unfold closeRun at hr
  split at hr
  · exact hClosed r hr
  · rename_i hLen
    have hPos : 0 < runLen := by omega
    rcases List.mem_append.mp hr with hOld | hNew
    · exact hClosed r hOld
    · rw [List.mem_singleton] at hNew
      subst hNew
      obtain ⟨hOpen, hLe⟩ := h.opened hPos
      refine ⟨by simpa using hPos, hLe, hOpen.set, hOpen.left, ?_⟩
      by_cases hAt : runStart + runLen < p
      · exact Or.inr (h.ended hPos hAt)
      · exact Or.inl (show runStart + runLen = p by omega)

/-- Every set position lies in a run that was found. -/
theorem Swept.mem_closeRun (h : Swept f p done runStart runLen) {i : Nat} (hi : i < p)
    (hSet : f i = true) : ∃ r ∈ closeRun done runStart runLen, r.1 ≤ i ∧ i < r.1 + r.2 := by
  unfold closeRun
  rcases h.covered i hi hSet with ⟨hPos, hLo, hHi⟩ | ⟨r, hr, hIn⟩
  · rw [if_neg (by omega)]
    exact ⟨_, List.mem_append_right _ (List.mem_singleton.mpr rfl), hLo, hHi⟩
  · split
    · exact ⟨r, hr, hIn⟩
    · exact ⟨r, List.mem_append_left _ hr, hIn⟩

/-- The runs found are apart and in order. -/
theorem Swept.sorted_closeRun (h : Swept f p done runStart runLen) :
    (closeRun done runStart runLen).Pairwise fun r r' => r.1 + r.2 ≤ r'.1 := by
  unfold closeRun
  split
  · exact h.sorted
  · rename_i hLen
    refine List.pairwise_append.mpr ⟨h.sorted, List.pairwise_singleton _ _, ?_⟩
    intro r hr r' hr'
    rw [List.mem_singleton] at hr'
    subst hr'
    exact h.before (by omega) r hr

end Briefs.Lib
