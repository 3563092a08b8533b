import Mathlib.Logic.Basic

/-!
# Runs of a step function

A system takes a step for an event or refuses it. A run is a sequence of steps, each taken under a
condition on the state and the event; `exec` runs a list of events and checks the condition at each
of them.

## Results

* `Run.invariant` — what every step keeps holds in every state of a run.
* `Run.trans` — runs are put together.
* `Run.of_exec`, `Run.of_after` — a list of events that `exec` accepts is a run.
-/

namespace Briefs.Steps

variable {σ ε : Type} {step : σ → ε → Option σ} {P : σ → ε → Prop} {s t u : σ}

/-- The states that steps lead to, each taken under the condition. -/
inductive Run (step : σ → ε → Option σ) (P : σ → ε → Prop) (s : σ) : σ → Prop
  | refl : Run step P s s
  | tail {t u : σ} {e : ε} : Run step P s t → P t e → step t e = some u → Run step P s u

theorem Run.invariant {I : σ → Prop} (hRun : Run step P s t) (hStart : I s)
    (hStep : ∀ {x y : σ} {e : ε}, I x → P x e → step x e = some y → I y) : I t := by
  induction hRun with
  | refl => exact hStart
  | tail _ hCond hEq ih => exact hStep ih hCond hEq

theorem Run.trans (hFirst : Run step P s t) (hSecond : Run step P t u) : Run step P s u := by
  induction hSecond with
  | refl => exact hFirst
  | tail _ hCond hEq ih => exact ih.tail hCond hEq

theorem Run.head {e : ε} (hCond : P s e) (hEq : step s e = some t) (hRun : Run step P t u) :
    Run step P s u :=
  Run.trans (Run.refl.tail hCond hEq) hRun

/-- The events one after the other, each of them under the condition. -/
def exec (step : σ → ε → Option σ) (P : σ → ε → Prop) [∀ x e, Decidable (P x e)] :
    σ → List ε → Option σ
  | s, [] => some s
  | s, e :: es => if P s e then (step s e).bind fun t => exec step P t es else none

theorem Run.of_exec [∀ x e, Decidable (P x e)] {es : List ε} (hExec : exec step P s es = some t) :
    Run step P s t := by
  induction es generalizing s with
  | nil =>
    cases hExec
    exact .refl
  | cons e es ih =>
    rw [exec] at hExec
    split at hExec
    · rename_i hCond
      obtain ⟨x, hEq, hRest⟩ := Option.bind_eq_some_iff.1 hExec
      exact Run.head hCond hEq (ih hRest)
    · cases hExec

/-- The state after the events, if they can happen. -/
def after (step : σ → ε → Option σ) (P : σ → ε → Prop) [∀ x e, Decidable (P x e)] (s : σ)
    (es : List ε) : σ :=
  (exec step P s es).getD s

theorem Run.of_after [∀ x e, Decidable (P x e)] {es : List ε}
    (h : (exec step P s es).isSome = true) : Run step P s (after step P s es) := by
  obtain ⟨t, hExec⟩ := Option.isSome_iff_exists.1 h
  rw [after, hExec]
  exact Run.of_exec hExec

end Briefs.Steps
