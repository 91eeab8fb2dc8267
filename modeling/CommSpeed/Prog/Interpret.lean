/-
Programs over an interface that is itself programmed.

A handler answers each call of an interface by a program over another interface and
keeps a state of its own, as an object with fields does.  `interpret` runs a program on
a handler.

`safe_interpret` is the rule for it: what a program does by a monitor of its own calls
is carried over to a monitor of the calls below, along a relation of the two monitors and
the state of the handler that every single call keeps.
-/
import CommSpeed.Prog.Monitor

namespace CommSpeed
namespace Prog

variable {ι κ : Type} {ρ : ι → Type} {θ : κ → Type} {α β σ μ ν : Type}

def interpret (h : (c : ι) → σ → Prog κ θ (ρ c × σ)) : Prog ι ρ α → σ → Prog κ θ (α × σ)
  | ret a, s => ret (a, s)
  | call c next, s => h c s >>= fun x => interpret h (next x.1) x.2
  | abort, _ => abort
  | more, _ => more

/-- What a handler owes a program that keeps to `M`: its calls keep to `N`, its answers are
those the program reckons with, and the relation is kept. -/
def Serves (h : (c : ι) → σ → Prog κ θ (ρ c × σ)) (M : Monitor ι ρ μ) (N : Monitor κ θ ν)
    (R : μ → σ → ν → Prop) : Prop :=
  ∀ c m s t, R m s t → (∀ r, M.legal m c r → M.ok m c r) →
    Safe N (h c s) t fun x t' => M.legal m c x.1 ∧ R (M.next m c x.1) x.2 t'

theorem safe_interpret {h : (c : ι) → σ → Prog κ θ (ρ c × σ)} {M : Monitor ι ρ μ}
    {N : Monitor κ θ ν} {R : μ → σ → ν → Prop} (hserves : Serves h M N R) {p : Prog ι ρ α}
    {m : μ} {s : σ} {t : ν} {Q : α → μ → Prop} (hp : Safe M p m Q) (hR : R m s t) :
    Safe N (interpret h p s) t fun x t' => ∃ m', Q x.1 m' ∧ R m' x.2 t' := by
  induction p generalizing m s t with
  | ret a => exact ⟨m, hp, hR⟩
  | call c next ih =>
      have hcall := hserves c m s t hR fun r hr => (hp r hr).1
      exact hcall.bind fun x t' h => ih x.1 (hp x.1 h.1).2 h.2
  | abort => trivial
  | more => trivial

end Prog
end CommSpeed
