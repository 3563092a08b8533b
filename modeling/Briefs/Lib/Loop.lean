import Mathlib.Logic.Basic

/-!
# Loops that need not end

A loop is given by its body: one pass goes on with a new state or leaves with a result.
`runLoop` makes a number of passes and has no result if the loop has not left by then, so
that a loop which never leaves has none for any number.

## Results

* `runLoop_mono` — more passes change no result.
* `runLoop_of_inv` — what holds of the state in every pass.
* `runLoop_of_measure` — a loop whose passes lower a measure leaves, and what holds of the
  state is left in the result.
* `runLoop_eq_none` — a loop that can always go on never leaves.
* `LoopM.Computes` — an operation with such loops has, from a number of passes on, the results of
  a total function; rules for sequences, handled errors and loops.
-/

namespace Briefs.Lib

variable {σ ρ : Type}

/-- At most so many passes of the loop. -/
def runLoop (body : σ → σ ⊕ ρ) : Nat → σ → Option ρ
  | 0, _ => none
  | passes + 1, s =>
    match body s with
    | .inl next => runLoop body passes next
    | .inr r => some r

section Rules

variable {body : σ → σ ⊕ ρ} {s next : σ} {r : ρ}

theorem runLoop_inl (h : body s = .inl next) (n : Nat) :
    runLoop body (n + 1) s = runLoop body n next := by
  rw [runLoop, h]

theorem runLoop_inr (h : body s = .inr r) (n : Nat) : runLoop body (n + 1) s = some r := by
  rw [runLoop, h]

theorem runLoop_mono {n m : Nat} (hLe : n ≤ m) :
    ∀ {s : σ}, runLoop body n s = some r → runLoop body m s = some r := by
  induction n generalizing m with
  | zero => exact fun h => absurd h.symm (Option.some_ne_none r)
  | succ n ih =>
    intro s h
    obtain ⟨k, rfl⟩ : ∃ k, m = k + 1 := ⟨m - 1, by omega⟩
    cases hBody : body s with
    | inl next =>
      rw [runLoop_inl hBody] at h ⊢
      exact ih (by omega) h
    | inr out =>
      rw [runLoop_inr hBody] at h ⊢
      exact h

/-- The result does not depend on the number of passes. -/
theorem runLoop_unique {n m : Nat} {r' : ρ} (h : runLoop body n s = some r)
    (h' : runLoop body m s = some r') : r = r' := by
  have hLeft := runLoop_mono (Nat.le_max_left n m) h
  have hRight := runLoop_mono (Nat.le_max_right n m) h'
  exact Option.some.inj (hLeft.symm.trans hRight)

/-- What every pass keeps is left in the result. -/
theorem runLoop_of_inv (inv : σ → Prop) {Q : ρ → Prop}
    (hStep : ∀ s next, inv s → body s = .inl next → inv next)
    (hOut : ∀ s r, inv s → body s = .inr r → Q r) :
    ∀ {n : Nat} {s : σ}, inv s → runLoop body n s = some r → Q r := by
  intro n
  induction n with
  | zero => exact fun _ h => absurd h.symm (Option.some_ne_none r)
  | succ n ih =>
    intro s hInv h
    cases hBody : body s with
    | inl next =>
      rw [runLoop_inl hBody] at h
      exact ih (hStep s next hInv hBody) h
    | inr out =>
      rw [runLoop_inr hBody] at h
      rw [← Option.some.inj h]
      exact hOut s out hInv hBody

/-- A measure that every pass lowers. -/
theorem runLoop_of_measure (inv : σ → Prop) (μ : σ → Nat) {Q : ρ → Prop}
    (hStep : ∀ s next, inv s → body s = .inl next → inv next ∧ μ next < μ s)
    (hOut : ∀ s r, inv s → body s = .inr r → Q r) :
    ∀ {n : Nat} {s : σ}, inv s → μ s < n → ∃ r, runLoop body n s = some r ∧ Q r := by
  intro n
  induction n with
  | zero => exact fun _ hLt => absurd hLt (Nat.not_lt_zero _)
  | succ n ih =>
    intro s hInv hLt
    cases hBody : body s with
    | inl next =>
      obtain ⟨hNext, hLess⟩ := hStep s next hInv hBody
      rw [runLoop_inl hBody]
      exact ih hNext (by omega)
    | inr r =>
      rw [runLoop_inr hBody]
      exact ⟨r, rfl, hOut s r hInv hBody⟩

/-- A set of states that the loop does not leave. -/
theorem runLoop_eq_none (stuck : σ → Prop)
    (h : ∀ s, stuck s → ∃ next, body s = .inl next ∧ stuck next) :
    ∀ (n : Nat) {s : σ}, stuck s → runLoop body n s = none := by
  intro n
  induction n with
  | zero => exact fun _ => rfl
  | succ n ih =>
    intro s hs
    obtain ⟨next, hBody, hNext⟩ := h s hs
    rw [runLoop_inl hBody]
    exact ih hNext

end Rules

--
-- Operations with loops
--

/-- An operation on a state that may fail, given the passes each of its loops may make; no result
if one of them has not left by then. -/
def LoopM (σ ε α : Type) : Type := Nat → σ → Option (Except ε α × σ)

namespace LoopM

variable {σ ε α β τ : Type}

/-- An operation without loops. -/
def lift (f : σ → Except ε α × σ) : LoopM σ ε α := fun _ s => some (f s)

def seq (x : LoopM σ ε α) (f : α → LoopM σ ε β) : LoopM σ ε β := fun passes s =>
  match x passes s with
  | none => none
  | some (.ok a, s) => f a passes s
  | some (.error e, s) => some (.error e, s)

instance : Monad (LoopM σ ε) where
  pure a := lift fun s => (.ok a, s)
  bind := seq

/-- The error is left to the caller. -/
def attempt (x : LoopM σ ε α) : LoopM σ ε (Except ε α) := fun passes s =>
  match x passes s with
  | none => none
  | some (r, s) => some (.ok r, s)

/-- One pass of a loop with variables `τ`: it goes on, or it leaves the loop or fails. -/
def turn (body : τ → σ → Except ε (τ ⊕ α) × σ) (p : τ × σ) : (τ × σ) ⊕ (Except ε α × σ) :=
  match body p.1 p.2 with
  | (.ok (.inl t), s) => .inl (t, s)
  | (.ok (.inr a), s) => .inr (.ok a, s)
  | (.error e, s) => .inr (.error e, s)

def loop (body : τ → σ → Except ε (τ ⊕ α) × σ) (t : τ) : LoopM σ ε α := fun passes s =>
  runLoop (turn body) passes (t, s)

/-- From `n` passes on, the operation does what the function does. -/
def Computes (n : Nat) (x : LoopM σ ε α) (f : σ → Except ε α × σ) : Prop :=
  ∀ passes s, n ≤ passes → x passes s = some (f s)

theorem computes_lift (n : Nat) (f : σ → Except ε α × σ) : Computes n (lift f) f :=
  fun _ _ _ => rfl

variable {n : Nat} {x : LoopM σ ε α} {f : σ → Except ε α × σ}

/-- Two operations in a row. -/
theorem Computes.seq {y : α → LoopM σ ε β} {g : σ → Except ε β × σ} (h : Computes n x f)
    (hOk : ∀ s a s', f s = (.ok a, s') → ∀ passes, n ≤ passes → y a passes s' = some (g s))
    (hError : ∀ s e s', f s = (.error e, s') → g s = (.error e, s')) :
    Computes n (x.seq y) g := by
  intro passes s hn
  unfold LoopM.seq
  rw [h passes s hn]
  generalize hf : f s = r
  obtain ⟨out, s'⟩ := r
  cases out with
  | ok a => exact hOk s a s' hf passes hn
  | error e => exact congrArg some (hError s e s' hf).symm

/-- A pass fails or leaves with the result of the function, or it goes on towards that result. -/
def Turns (body : τ → σ → Except ε (τ ⊕ α) × σ) (g : τ → σ → Except ε α × σ) (μ : τ → Nat) (t : τ)
    (s : σ) : Prop :=
  (∃ e s', body t s = (.error e, s') ∧ g t s = (.error e, s')) ∨
  (∃ a s', body t s = (.ok (.inr a), s') ∧ g t s = (.ok a, s')) ∨
  ∃ t' s', body t s = (.ok (.inl t'), s') ∧ g t s = g t' s' ∧ μ t' < μ t

/-- A loop whose passes lower a measure of its variables. -/
theorem Computes.loop {body : τ → σ → Except ε (τ ⊕ α) × σ} {g : τ → σ → Except ε α × σ}
    (μ : τ → Nat) (hTurns : ∀ t s, Turns body g μ t s) {t : τ} (hn : μ t < n) :
    Computes n (LoopM.loop body t) (g t) := by
  intro passes s hPasses
  have hStep : ∀ p q : τ × σ, g p.1 p.2 = g t s → turn body p = .inl q →
      g q.1 q.2 = g t s ∧ μ q.1 < μ p.1 := by
    intro p q hInv hBody
    unfold turn at hBody
    rcases hTurns p.1 p.2 with ⟨e, s', hOut, -⟩ | ⟨a, s', hOut, -⟩ | ⟨t', s', hOut, hSame, hLt⟩
    · rw [hOut] at hBody
      cases hBody
    · rw [hOut] at hBody
      cases hBody
    · rw [hOut] at hBody
      cases hBody
      exact ⟨hSame.symm.trans hInv, hLt⟩
  have hEnd : ∀ (p : τ × σ) r, g p.1 p.2 = g t s → turn body p = .inr r → r = g t s := by
    intro p r hInv hBody
    unfold turn at hBody
    rcases hTurns p.1 p.2 with ⟨e, s', hOut, hg⟩ | ⟨a, s', hOut, hg⟩ | ⟨t', s', hOut, -⟩
    · rw [hOut] at hBody
      cases hBody
      exact hg.symm.trans hInv
    · rw [hOut] at hBody
      cases hBody
      exact hg.symm.trans hInv
    · rw [hOut] at hBody
      cases hBody
  obtain ⟨r, hRun, rfl⟩ := runLoop_of_measure (fun p : τ × σ => g p.1 p.2 = g t s)
    (fun p => μ p.1) hStep hEnd (s := (t, s)) rfl (Nat.lt_of_lt_of_le hn hPasses)
  exact hRun

end LoopM

end Briefs.Lib
