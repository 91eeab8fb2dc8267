/-
Transition systems, invariants and forward simulation.

A system is given by its initial states and its steps.  `Reachable.invariant` is
the induction over runs, and `Simulates.reachable` carries every fact about the
reachable states of an abstract system over to the states of a concrete one.  The
abstract run is built along the concrete one, so a simulation step may use what
is already known of the abstract state.
-/
import Mathlib.Logic.Relation

namespace CommSpeed

structure TransitionSystem (σ : Type) where
  init : σ → Prop
  step : σ → σ → Prop

namespace TransitionSystem

variable {σ τ : Type} {S : TransitionSystem σ} {A : TransitionSystem τ}

/-- The states of the runs from an initial state. -/
inductive Reachable (S : TransitionSystem σ) : σ → Prop
  | init {s} (h : S.init s) : Reachable S s
  | step {s s'} (hs : Reachable S s) (h : S.step s s') : Reachable S s'

theorem Reachable.invariant {I : σ → Prop} (hinit : ∀ s, S.init s → I s)
    (hstep : ∀ s s', I s → S.step s s' → I s') {s : σ} (h : S.Reachable s) : I s := by
  induction h with
  | init h => exact hinit _ h
  | step _ h ih => exact hstep _ _ ih h

/-- The states that are reached in `n` steps. -/
inductive Steps (S : TransitionSystem σ) : Nat → σ → Prop
  | init {s} (h : S.init s) : Steps S 0 s
  | step {n s s'} (hs : Steps S n s) (h : S.step s s') : Steps S (n + 1) s'

theorem Steps.reachable {n : Nat} {s : σ} (h : S.Steps n s) : S.Reachable s := by
  induction h with
  | init h => exact .init h
  | step _ h ih => exact .step ih h

theorem Reachable.steps {s : σ} (h : S.Reachable s) : ∃ n, S.Steps n s := by
  induction h with
  | init h => exact ⟨0, .init h⟩
  | step _ h ih =>
      obtain ⟨n, hn⟩ := ih
      exact ⟨n + 1, .step hn h⟩

/-- A count that starts at 0 and grows by one in each step is the number of steps. -/
theorem Steps.count {f : σ → Nat} (hinit : ∀ s, S.init s → f s = 0)
    (hstep : ∀ s s', S.step s s' → f s' = f s + 1) {n : Nat} {s : σ} (h : S.Steps n s) :
    f s = n := by
  induction h with
  | init h => exact hinit _ h
  | step _ h ih => rw [hstep _ _ h, ih]

/-- Every step of `S` is matched by a step of `A` or by none. -/
structure Simulates (S : TransitionSystem σ) (A : TransitionSystem τ) (R : σ → τ → Prop) :
    Prop where
  init : ∀ s, S.init s → ∃ a, A.init a ∧ R s a
  step : ∀ s s' a, R s a → A.Reachable a → S.step s s' →
    ∃ a', (a' = a ∨ A.step a a') ∧ R s' a'

theorem Simulates.reachable {R : σ → τ → Prop} (h : Simulates S A R) {s : σ}
    (hs : S.Reachable s) : ∃ a, A.Reachable a ∧ R s a := by
  induction hs with
  | init hs =>
      obtain ⟨a, ha, hR⟩ := h.init _ hs
      exact ⟨a, .init ha, hR⟩
  | step _ hstep ih =>
      obtain ⟨a, ha, hR⟩ := ih
      obtain ⟨a', hmatch, hR'⟩ := h.step _ _ a hR ha hstep
      rcases hmatch with rfl | hmatch
      · exact ⟨a', ha, hR'⟩
      · exact ⟨a', .step ha hmatch, hR'⟩

/-- Take a step `n` times, staying where none is given. -/
def walk (f : σ → Option σ) : Nat → σ → σ
  | 0, s => s
  | n + 1, s => walk f n ((f s).getD s)

theorem Reachable.walk {f : σ → Option σ} (hf : ∀ s s', f s = some s' → S.step s s') {s : σ}
    (h : S.Reachable s) (n : Nat) : S.Reachable (walk f n s) := by
  induction n generalizing s with
  | zero => exact h
  | succ n ih =>
      refine ih ?_
      cases hs : f s with
      | none => exact h
      | some s' => exact .step h (hf s s' hs)

end TransitionSystem
end CommSpeed
