/-
Programs that meet in a kernel.

A process makes calls to a state that it shares with the others, and which answers it
may get depends on who it is.  The kernel also acts of its own accord, and then some
processes may die.  `within` is a program seen through a larger interface, which several
kinds of processes have in common.

`Watched.holds` is the rule for a system of processes.  If what is known of the kernel
and of the records of the monitors promises every process the answers that its monitor
reckons with, and is kept by every call that its monitor allows and by the kernel's own
acts, then it holds in every reachable state.
-/
import CommSpeed.Prog.Monitor
import CommSpeed.System.Transition
import Mathlib.Logic.Function.Basic

namespace CommSpeed

namespace Prog

variable {ι κ : Type} {ρ : ι → Type} {α τ : Type}

/-- A program whose calls are some of those of a larger interface. -/
def within (f : κ → ι) : Prog κ (fun c => ρ (f c)) α → Prog ι ρ α
  | ret a => ret a
  | call c next => call (f c) fun r => within f (next r)
  | abort => abort
  | more => more

/-- A program that has returned stays so, and any other one dies. -/
def halt : Prog ι ρ α → Prog ι ρ α
  | ret a => ret a
  | _ => abort

theorem safe_halt {M : Monitor ι ρ τ} {p : Prog ι ρ α} {s : τ} {Q : α → τ → Prop}
    (h : Safe M p s Q) : Safe M p.halt s Q := by
  cases p with
  | ret a => exact h
  | call | abort | more => trivial

end Prog

/-- The answers that a process may get to a call and what the call does, and what may
happen without a call: to the processes that die and to the state. -/
structure Kernel (θ ι : Type) (ρ : ι → Type) (σ : Type) where
  access : θ → (c : ι) → σ → ρ c → σ → Prop
  event : (θ → Bool) → σ → σ → Prop

/-- The programs as far as they have still to run, the state of the kernel and the calls
made so far. -/
structure Processes (θ ι : Type) (ρ : ι → Type) (α σ : Type) where
  prog : θ → Prog ι ρ α
  kernel : σ
  trace : θ → List (Event ι ρ)

open Prog

namespace Processes

variable {θ ι : Type} {ρ : ι → Type} {α σ τ : Type} [DecidableEq θ] {K : Kernel θ ι ρ σ}

/-- Process `t` has made the call `e` and has `p` still to run. -/
def proceed (X : Processes θ ι ρ α σ) (t : θ) (e : Event ι ρ) (p : Prog ι ρ α) (s : σ) :
    Processes θ ι ρ α σ where
  prog := Function.update X.prog t p
  kernel := s
  trace := Function.update X.trace t (X.trace t ++ [e])

/-- The processes in `dies` make no further call. -/
def suffer (X : Processes θ ι ρ α σ) (dies : θ → Bool) (s : σ) : Processes θ ι ρ α σ where
  prog t := if dies t then (X.prog t).halt else X.prog t
  kernel := s
  trace := X.trace

inductive Step (K : Kernel θ ι ρ σ) : Processes θ ι ρ α σ → Processes θ ι ρ α σ → Prop
  | call {X t c next r s} (hprog : X.prog t = Prog.call c next) (h : K.access t c X.kernel r s) :
      Step K X (X.proceed t ⟨c, r⟩ (next r) s)
  | event {X dies s} (h : K.event dies X.kernel s) : Step K X (X.suffer dies s)

/-- The processes `start` over the kernel state `s`, interleaved call by call. -/
def system (K : Kernel θ ι ρ σ) (start : θ → Prog ι ρ α) (s : σ) :
    TransitionSystem (Processes θ ι ρ α σ) where
  init X := X = ⟨start, s, fun _ => []⟩
  step := Step K

/-! ## Monitors -/

/-- As long as the processes do what they are allowed to, `J` is kept, whatever the kernel
does of its own accord, and under `J` the answers are those that the monitors reckon with. -/
structure Watched (K : Kernel θ ι ρ σ) (M : θ → Monitor ι ρ τ) (J : σ → (θ → τ) → Prop) :
    Prop where
  legal {t c s r s' m} (hJ : J s m) (h : K.access t c s r s') : (M t).legal (m t) c r
  keeps {t c s r s' m} (hJ : J s m) (h : K.access t c s r s') (hok : (M t).ok (m t) c r) :
    J s' (Function.update m t ((M t).next (m t) c r))
  event {dies s s' m} (hJ : J s m) (h : K.event dies s s') : J s' m

/-- What the monitors have recorded. -/
def records (M : θ → Monitor ι ρ τ) (m : θ → τ) (X : Processes θ ι ρ α σ) (t : θ) : τ :=
  (M t).after (m t) (X.trace t)

section

variable {M : θ → Monitor ι ρ τ} {J : σ → (θ → τ) → Prop} {start : θ → Prog ι ρ α} {s : σ}
  {m : θ → τ} {Q : θ → α → τ → Prop}

theorem records_proceed (M : θ → Monitor ι ρ τ) (m : θ → τ) (X : Processes θ ι ρ α σ) (t : θ)
    (e : Event ι ρ) (p : Prog ι ρ α) (s : σ) : (X.proceed t e p s).records M m =
      Function.update (X.records M m) t ((M t).next (X.records M m t) e.call e.reply) := by
  funext u
  show (M u).after (m u) (Function.update X.trace t (X.trace t ++ [e]) u) = _
  by_cases hut : u = t
  · subst hut
    rw [Function.update_self, Function.update_self, Monitor.after_append]
    rfl
  · rw [Function.update_of_ne hut, Function.update_of_ne hut]
    rfl

/-- The rule for processes. -/
theorem Watched.holds (hJ : Watched K M J) (hstart : ∀ t, Safe (M t) (start t) (m t) (Q t))
    (hinit : J s m) {X : Processes θ ι ρ α σ} (h : (system K start s).Reachable X) :
    (∀ t, Safe (M t) (X.prog t) (X.records M m t) (Q t)) ∧ J X.kernel (X.records M m) := by
  induction h with
  | init h =>
      obtain rfl := h
      exact ⟨hstart, hinit⟩
  | @step X X' _ hstep ih =>
      obtain ⟨hsafe, hX⟩ := ih
      cases hstep with
      | @call u c next r s' hprog hacc =>
          have hnow := hsafe u
          rw [hprog] at hnow
          obtain ⟨hok, hnext⟩ := hnow r (hJ.legal hX hacc)
          rw [records_proceed]
          refine ⟨fun t => ?_, hJ.keeps hX hacc hok⟩
          show Safe (M t) (Function.update X.prog u (next r) t) _ _
          by_cases htu : t = u
          · subst htu
            rw [Function.update_self, Function.update_self]
            exact hnext
          · rw [Function.update_of_ne htu, Function.update_of_ne htu]
            exact hsafe t
      | @event dies s' hevent =>
          refine ⟨fun t => ?_, hJ.event hX hevent⟩
          show Safe (M t) (if dies t then (X.prog t).halt else X.prog t) _ _
          split
          · exact safe_halt (hsafe t)
          · exact hsafe t

end

/-! ## Schedules -/

/-- The next call of a process, unless it has ended or has to wait. -/
def turn (exec : θ → (c : ι) → σ → Option (ρ c × σ)) (X : Processes θ ι ρ α σ) (t : θ) :
    Processes θ ι ρ α σ :=
  match X.prog t with
  | .call c next =>
    match exec t c X.kernel with
    | some (r, s) => X.proceed t ⟨c, r⟩ (next r) s
    | none => X
  | _ => X

end Processes
end CommSpeed
