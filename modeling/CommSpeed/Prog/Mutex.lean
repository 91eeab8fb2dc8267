/-
Operations that hold a mutex from their first access to their last.

`Takes S p s q s'` is a run of one program that no other thread disturbs.  An
operation `o` with the body `body o` is, under a mutex, `lock`, the accesses of the
body and `unlock`, and in between other threads may only wait for the lock.
`mutex_simulates` is the consequence: the threads do no more than threads whose
operations run from beginning to end at once.  The abstract state is the one before
the operation that is under way, and jumps to the state after it at `unlock`.
-/
import CommSpeed.Prog.Threads

namespace CommSpeed

open Prog

variable {θ ι ο : Type} {ρ : ι → Type} {ξ : ο → Type} {α β σ : Type}

/-- The accesses to a state that a mutex guards. -/
inductive Guarded (ι : Type)
  | lock
  | unlock
  | access (c : ι)

abbrev Guarded.Reply (ρ : ι → Type) : Guarded ι → Type
  | .lock => Unit
  | .unlock => Unit
  | .access c => ρ c

namespace Shared

/-- A state and whether its mutex is held.  Locking a held mutex waits. -/
def guarded (S : Shared ι ρ σ) : Shared (Guarded ι) (Guarded.Reply ρ) (Bool × σ) where
  access
    | .lock, x, _, x' => x.1 = false ∧ x' = (true, x.2)
    | .unlock, x, _, x' => x' = (false, x.2)
    | .access c, x, r, x' => x'.1 = x.1 ∧ S.access c x.2 r x'.2

/-- An undisturbed run from the program `p` and the state `s`. -/
inductive Takes (S : Shared ι ρ σ) : Prog ι ρ α → σ → Prog ι ρ α → σ → Prop
  | refl (p s) : Takes S p s p s
  | step {c next s r s' q s''} (ha : S.access c s r s') (h : Takes S (next r) s' q s'') :
      Takes S (call c next) s q s''

/-- The operations, each run from beginning to end at once. -/
def whole (S : Shared ι ρ σ) (body : (o : ο) → Prog ι ρ (ξ o)) : Shared ο ξ σ where
  access o s r s' := S.Takes (body o) s (ret r) s'

/-- A relation that every access extends holds between the ends of an undisturbed run. -/
theorem Takes.relates {S : Shared ι ρ σ} {p q : Prog ι ρ α} {s s' : σ} {R : σ → σ → Prop}
    (h : S.Takes p s q s') (hrefl : ∀ s, R s s)
    (hstep : ∀ c s₁ r s₂ s₃, S.access c s₁ r s₂ → R s₂ s₃ → R s₁ s₃) : R s s' := by
  induction h with
  | refl => exact hrefl _
  | step ha _ ih => exact hstep _ _ _ _ _ ha ih

theorem Takes.snoc {S : Shared ι ρ σ} {p : Prog ι ρ α} {c : ι} {next : ρ c → Prog ι ρ α}
    {s s' s'' : σ} {r : ρ c} (h : S.Takes p s (call c next) s') (ha : S.access c s' r s'') :
    S.Takes p s (next r) s'' := by
  generalize hq : call c next = q at h
  induction h with
  | refl =>
      subst hq
      exact .step ha (.refl _ _)
  | step hc _ ih => exact .step hc (ih ha hq)

theorem takes_perform {S : Shared ι ρ σ} {c : ι} {f : ρ c → Prog ι ρ α} {s s' : σ} {a : α}
    (h : S.Takes (perform c >>= f) s (ret a) s') :
    ∃ r s₁, S.access c s r s₁ ∧ S.Takes (f r) s₁ (ret a) s' := by
  cases h with
  | step ha h => exact ⟨_, _, ha, h⟩

theorem takes_last {S : Shared ι ρ σ} {c : ι} {s s' : σ} {a : ρ c}
    (h : S.Takes (perform c) s (ret a) s') : S.access c s a s' := by
  cases h with
  | step ha h =>
      cases h
      exact ha

theorem takes_ret {S : Shared ι ρ σ} {s s' : σ} {a b : α}
    (h : S.Takes (ret a : Prog ι ρ α) s (ret b) s') : b = a ∧ s' = s := by
  cases h with
  | refl => exact ⟨rfl, rfl⟩

theorem takes_bind {S : Shared ι ρ σ} {p : Prog ι ρ α} {f : α → Prog ι ρ β} {s s' : σ} {b : β}
    (h : S.Takes (p >>= f) s (ret b) s') :
    ∃ a s₁, S.Takes p s (ret a) s₁ ∧ S.Takes (f a) s₁ (ret b) s' := by
  induction p generalizing s with
  | ret a => exact ⟨a, s, .refl _ _, h⟩
  | call c next ih =>
      cases h with
      | step ha h =>
          obtain ⟨a, s₁, htakes, hf⟩ := ih _ h
          exact ⟨a, s₁, .step ha htakes, hf⟩
  | abort => cases h
  | more => cases h

end Shared

/-! ## Critical sections -/

/-- The accesses of a program, made while the mutex is held. -/
def inside : Prog ι ρ α → Prog (Guarded ι) (Guarded.Reply ρ) α
  | ret a => ret a
  | call c next => call (.access c) fun r => inside (next r)
  | abort => abort
  | more => more

/-- What is left of a critical section with `p` still to do. -/
def unlockAfter (p : Prog ι ρ α) : Prog (Guarded ι) (Guarded.Reply ρ) α := do
  let a ← inside p
  perform Guarded.unlock
  return a

def critical (p : Prog ι ρ α) : Prog (Guarded ι) (Guarded.Reply ρ) α := do
  perform Guarded.lock
  unlockAfter p

namespace Threads

variable [DecidableEq θ]

/-- The threads `start`, with every operation a critical section. -/
abbrev exclusive (S : Shared ι ρ σ) (body : (o : ο) → Prog ι ρ (ξ o)) (start : θ → Prog ο ξ α)
    (s : σ) : TransitionSystem (Threads θ (Guarded ι) (Guarded.Reply ρ) α (Bool × σ)) :=
  machine S.guarded (fun t => link (fun o => critical (body o)) (start t)) (false, s)

/-- All threads are between operations, except for one while the mutex is held. -/
inductive Excludes (S : Shared ι ρ σ) (body : (o : ο) → Prog ι ρ (ξ o))
    (X : Threads θ (Guarded ι) (Guarded.Reply ρ) α (Bool × σ)) (Y : Threads θ ο ξ α σ) : Prop
  | free (hfree : X.shared.1 = false) (hshared : X.shared.2 = Y.shared)
      (hprogs : ∀ t, X.prog t = link (fun o => critical (body o)) (Y.prog t))
  | held (t : θ) (o : ο) (next : ξ o → Prog ο ξ α) (q : Prog ι ρ (ξ o))
      (hheld : X.shared.1 = true) (htakes : S.Takes (body o) Y.shared q X.shared.2)
      (hcall : Y.prog t = call o next)
      (hprog : X.prog t =
        unlockAfter q >>= fun r => link (fun o => critical (body o)) (next r))
      (hothers : ∀ u, u ≠ t → X.prog u = link (fun o => critical (body o)) (Y.prog u))

section

variable {S : Shared ι ρ σ} {body : (o : ο) → Prog ι ρ (ξ o)} {start : θ → Prog ο ξ α} {s : σ}
  {X X' : Threads θ (Guarded ι) (Guarded.Reply ρ) α (Bool × σ)} {Y : Threads θ ο ξ α σ}

/-- A thread between operations can only lock the mutex. -/
theorem lock_of_link {c : Guarded ι} {p : Prog ο ξ α}
    {next : Guarded.Reply ρ c → Prog (Guarded ι) (Guarded.Reply ρ) α}
    (h : call c next = link (fun o => critical (body o)) p) :
    ∃ o after, p = call o after ∧ c = .lock ∧
      ∀ r, next r = unlockAfter (body o) >>= fun r =>
        link (fun o => critical (body o)) (after r) := by
  cases p with
  | ret a => cases h
  | call o after =>
      cases h
      exact ⟨o, after, rfl, rfl, fun _ => rfl⟩
  | abort => cases h
  | more => cases h

/-- While the mutex is held, only its holder moves: it makes an access of its body,
or unlocks when the body has returned. -/
theorem Excludes.step (h : Excludes S body X Y) (hstep : Step S.guarded X X') :
    ∃ Y', (Y' = Y ∨ Step (S.whole body) Y Y') ∧ Excludes S body X' Y' := by
  cases hstep with
  | @access t c next r x' hprog ha =>
      cases h with
      | free hfree hshared hprogs =>
          obtain ⟨o, after, hcall, rfl, hnext⟩ := lock_of_link (hprog ▸ hprogs t)
          obtain ⟨-, rfl⟩ := ha
          refine ⟨Y, .inl rfl, .held t o after (body o) rfl (hshared ▸ .refl _ _) hcall ?_ ?_⟩
          · exact (Function.update_self _ _ _).trans (hnext r)
          · intro u hut
            exact (Function.update_of_ne hut _ _).trans (hprogs u)
      | held t' o after q hheld htakes hcall hq hothers =>
          by_cases htt : t = t'
          · subst htt
            rw [hprog] at hq
            cases q with
            | ret b =>
                cases hq
                obtain rfl := ha
                refine ⟨_, .inr (.access hcall htakes), .free rfl rfl fun u => ?_⟩
                by_cases hut : u = t
                · subst hut
                  show Function.update X.prog u _ u = link _ (Function.update Y.prog u _ u)
                  rw [Function.update_self, Function.update_self]
                  rfl
                · show Function.update X.prog t _ u = link _ (Function.update Y.prog t _ u)
                  rw [Function.update_of_ne hut, Function.update_of_ne hut]
                  exact hothers u hut
            | call c' q' =>
                cases hq
                obtain ⟨hsame, ha⟩ := ha
                refine ⟨Y, .inl rfl, .held t o after (q' r) (hsame.trans hheld) (htakes.snoc ha)
                  hcall (Function.update_self _ _ _) fun u hut => ?_⟩
                exact (Function.update_of_ne hut _ _).trans (hothers u hut)
            | abort => cases hq
            | more => cases hq
          · obtain ⟨o', after', -, rfl, -⟩ := lock_of_link (hprog ▸ hothers t htt)
            exact absurd (hheld.symm.trans ha.1) (by decide)

theorem exclusive_simulates (S : Shared ι ρ σ) (body : (o : ο) → Prog ι ρ (ξ o))
    (start : θ → Prog ο ξ α) (s : σ) :
    (exclusive S body start s).Simulates (machine (S.whole body) start s) (Excludes S body) where
  init X hX := by
    obtain rfl := hX
    exact ⟨_, rfl, .free rfl rfl fun t => rfl⟩
  step X X' Y hR _ hstep := hR.step hstep

/-- A thread that has returned has returned in the abstract system. -/
theorem Excludes.of_ret (h : Excludes S body X Y) {t : θ} {a : α} (hret : X.prog t = ret a) :
    Y.prog t = ret a := by
  have hlink : ∀ {p : Prog ο ξ α}, ret a = link (fun o => critical (body o)) p → p = ret a := by
    intro p hp
    cases p with
    | ret b =>
        cases hp
        rfl
    | call o after => cases hp
    | abort => cases hp
    | more => cases hp
  cases h with
  | free hfree hshared hprogs => exact hlink (hret ▸ hprogs t)
  | held t' o after q hheld htakes hcall hq hothers =>
      by_cases htt : t = t'
      · subst htt
        rw [hret] at hq
        cases q with
        | ret b => cases hq
        | call c q' => cases hq
        | abort => cases hq
        | more => cases hq
      · exact hlink (hret ▸ hothers t htt)

/-- The operations of `h`, one after the other, are those that have released the
mutex so far; they lead to `s'`, from where the holder of the mutex, if there is
one, has come to the shared state. -/
structure Serialized (S : Shared ι ρ σ) (body : (o : ο) → Prog ι ρ (ξ o))
    (start : θ → Prog ο ξ α) (s : σ)
    (X : Threads θ (Guarded ι) (Guarded.Reply ρ) α (Bool × σ)) (h : List (θ × Event ο ξ))
    (s' : σ) : Prop where
  replays : Replays (S.whole body) s h s'
  shared : X.shared = (false, s') ∨ X.shared.1 = true ∧ ∃ o q, S.Takes (body o) s' q X.shared.2
  returned : ∀ t a, X.prog t = ret a → Runs (start t) (made t h) (ret a)

theorem serialized_of_reachable (hX : (exclusive S body start s).Reachable X) :
    ∃ h s', Serialized S body start s X h s' := by
  obtain ⟨Y, hY, hR⟩ := (exclusive_simulates S body start s).reachable hX
  refine ⟨Y.log, Y.shared, reachable_replays hY, ?_, fun t a hret => ?_⟩
  · cases hR with
    | free hfree hshared hprogs => exact .inl (Prod.ext hfree hshared)
    | held t o after q hheld htakes => exact .inr ⟨hheld, o, q, htakes⟩
  · have hruns := reachable_runs hY t
    rwa [hR.of_ret hret] at hruns

/-- A relation that every access extends holds between the state that the finished
operations lead to and the shared state. -/
theorem Serialized.relates {h : List (θ × Event ο ξ)} {s' : σ} {R : σ → σ → Prop}
    (hX : Serialized S body start s X h s') (hrefl : ∀ s, R s s)
    (hstep : ∀ c s₁ r s₂ s₃, S.access c s₁ r s₂ → R s₂ s₃ → R s₁ s₃) : R s' X.shared.2 := by
  rcases hX.shared with hfree | ⟨-, o, q, htakes⟩
  · rw [hfree]
    exact hrefl s'
  · exact htakes.relates hrefl hstep

end

end Threads
end CommSpeed
