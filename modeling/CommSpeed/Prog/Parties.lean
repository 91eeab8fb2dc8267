/-
Two programs that meet through what they have done.

A party is a program over calls of its own together with a record of its calls.
Which answers a call may get depends on both records, as a `read` is answered out
of what the peer has written, and a call changes the record of the caller only.

`Total` is the logic of `CommSpeed/Prog/Monitor.lean` for programs that come to
their end, unless they may die.  `Meeting.holds` is the rule for pairs: if both parties
meet their obligations as long as their peers do, and what is known of the two
records is kept by every call that does, all of it holds in every reachable state.
-/
import CommSpeed.Prog.Monitor
import CommSpeed.System.Transition

namespace CommSpeed
namespace Prog

variable {ι κ : Type} {ρ : ι → Type} {θ : κ → Type} {α β σ τ υ : Type}

section

variable {M : Monitor ι ρ σ} {mayDie : Prop}

/-- `Safe` of a program that spends no budget, and dies only if `mayDie`. -/
def Total (M : Monitor ι ρ σ) (mayDie : Prop) : Prog ι ρ α → σ → (α → σ → Prop) → Prop
  | ret a, s, Q => Q a s
  | call c next, s, Q =>
    ∀ r, M.legal s c r → M.ok s c r ∧ Total M mayDie (next r) (M.next s c r) Q
  | abort, _, _ => mayDie
  | more, _, _ => False

theorem total_bind {p : Prog ι ρ α} {f : α → Prog ι ρ β} {s : σ} {Q : β → σ → Prop} :
    Total M mayDie (p >>= f) s Q ↔ Total M mayDie p s (fun a s' => Total M mayDie (f a) s' Q) := by
  induction p generalizing s with
  | ret a => rfl
  | call c next ih =>
      exact forall_congr' fun r => imp_congr_right fun _ => and_congr_right fun _ => ih r
  | abort => rfl
  | more => rfl

theorem total_step {c : ι} {f : ρ c → Prog ι ρ α} {s : σ} {Q : α → σ → Prop} :
    Total M mayDie (perform c >>= f) s Q ↔
      ∀ r, M.legal s c r → M.ok s c r ∧ Total M mayDie (f r) (M.next s c r) Q := Iff.rfl

theorem total_assert {b : Bool} {s : σ} {Q : Unit → σ → Prop} (hdies : b = false → mayDie)
    (h : b = true → Q () s) : Total M mayDie (assert b) s Q := by
  cases b with
  | false => exact hdies rfl
  | true => exact h rfl

theorem Total.mono {p : Prog ι ρ α} {s : σ} {Q R : α → σ → Prop} (h : Total M mayDie p s Q)
    (hQ : ∀ a s', Q a s' → R a s') : Total M mayDie p s R := by
  induction p generalizing s with
  | ret a => exact hQ a s h
  | call c next ih => exact fun r hr => ⟨(h r hr).1, ih r (h r hr).2⟩
  | abort => exact h
  | more => exact h

theorem Total.bind {p : Prog ι ρ α} {f : α → Prog ι ρ β} {s : σ} {Q : α → σ → Prop}
    {R : β → σ → Prop} (h : Total M mayDie p s Q)
    (hf : ∀ a s', Q a s' → Total M mayDie (f a) s' R) : Total M mayDie (p >>= f) s R :=
  total_bind.mpr (h.mono hf)

/-- What a second monitor says of the same run, seen through a part of the record. -/
theorem Total.and_safe {N : Monitor ι ρ υ} {f : σ → υ} {p : Prog ι ρ α} {s : σ}
    {Q : α → σ → Prop} {R : α → υ → Prop} (h : Total M mayDie p s Q) (hN : Safe N p (f s) R)
    (hlegal : ∀ s c r, M.legal s c r → N.legal (f s) c r)
    (hnext : ∀ s c r, f (M.next s c r) = N.next (f s) c r) :
    Total M mayDie p s fun a s' => Q a s' ∧ R a (f s') := by
  induction p generalizing s with
  | ret a => exact ⟨h, hN⟩
  | call c next ih =>
      intro r hr
      refine ⟨(h r hr).1, ih r (h r hr).2 ?_⟩
      rw [hnext]
      exact (hN r (hlegal s c r hr)).2
  | abort => exact h
  | more => exact h

end

/-! ## Pairs -/

structure Party (ι : Type) (ρ : ι → Type) (α σ : Type) where
  prog : Prog ι ρ α
  record : σ

/-- What a party meets: the answers to its calls and what they leave in its record. -/
structure Side (ι : Type) (ρ : ι → Type) (σ τ : Type) where
  answers : σ → τ → (c : ι) → ρ c → Prop
  next : σ → (c : ι) → ρ c → σ

namespace Side

variable (A : Side ι ρ σ τ)

/-- A call of a party whose peer has the record `t`. -/
inductive Step (t : τ) : Party ι ρ α σ → Party ι ρ α σ → Prop
  | call {s : σ} {c : ι} {next : ρ c → Prog ι ρ α} {r : ρ c} (h : A.answers s t c r) :
      Step t ⟨Prog.call c next, s⟩ ⟨next r, A.next s c r⟩

def watched (legal ok : σ → (c : ι) → ρ c → Prop) : Monitor ι ρ σ where
  legal := legal
  ok := ok
  next := A.next

/-- As long as the caller does what it ought to, `J` is kept, and under `J` the
answers are what the caller expects. -/
structure Keeps (legal ok : σ → (c : ι) → ρ c → Prop) (J : σ → τ → Prop) : Prop where
  legal {s t c r} (hJ : J s t) (h : A.answers s t c r) : legal s c r
  keeps {s t c r} (hJ : J s t) (h : A.answers s t c r) (hok : ok s c r) : J (A.next s c r) t

variable {A}

theorem Keeps.step {legal ok : σ → (c : ι) → ρ c → Prop} {J : σ → τ → Prop} {mayDie : Prop}
    (hA : A.Keeps legal ok J) {t : τ} {X X' : Party ι ρ α σ} {Q : α → σ → Prop}
    (hstep : A.Step t X X') (hX : Total (A.watched legal ok) mayDie X.prog X.record Q)
    (hJ : J X.record t) :
    Total (A.watched legal ok) mayDie X'.prog X'.record Q ∧ J X'.record t := by
  cases hstep with
  | @call s c next r h =>
      have hnext := hX r (hA.legal hJ h)
      exact ⟨hnext.2, hA.keeps hJ h hnext.1⟩

end Side

/-- Two parties and what each of them meets. -/
structure Meeting (ι κ : Type) (ρ : ι → Type) (θ : κ → Type) (α β σ τ : Type) where
  left : Side ι ρ σ τ
  right : Side κ θ τ σ
  init : Party ι ρ α σ × Party κ θ β τ → Prop

namespace Meeting

variable (G : Meeting ι κ ρ θ α β σ τ)

/-- One of the parties makes a call. -/
def system : TransitionSystem (Party ι ρ α σ × Party κ θ β τ) where
  init := G.init
  step g g' := G.left.Step g.2.record g.1 g'.1 ∧ g'.2 = g.2 ∨
    G.right.Step g.1.record g.2 g'.2 ∧ g'.1 = g.1

/-- Two records that count calls. -/
theorem steps_count {f : σ → Nat} {h : τ → Nat} (hf : ∀ s c r, f (G.left.next s c r) = f s + 1)
    (hh : ∀ t c r, h (G.right.next t c r) = h t + 1)
    (hinit : ∀ g, G.init g → f g.1.record = 0 ∧ h g.2.record = 0) {n : Nat}
    {g : Party ι ρ α σ × Party κ θ β τ} (hg : G.system.Steps n g) :
    f g.1.record + h g.2.record = n := by
  refine hg.count (f := fun g => f g.1.record + h g.2.record) (fun g hg => ?_)
    fun g g' hstep => ?_
  · have := hinit g hg
    show f g.1.record + h g.2.record = 0
    omega
  · obtain ⟨X, Y⟩ := g
    obtain ⟨X', Y'⟩ := g'
    show f X'.record + h Y'.record = f X.record + h Y.record + 1
    obtain ⟨hstep, hsame⟩ | ⟨hstep, hsame⟩ := hstep
    · obtain rfl : Y' = Y := hsame
      cases hstep with
      | @call s c next r _ =>
          show f (G.left.next s c r) + h Y'.record = f s + h Y'.record + 1
          rw [hf]
          omega
    · obtain rfl : X' = X := hsame
      cases hstep with
      | @call s c next r _ =>
          show f X'.record + h (G.right.next s c r) = f X'.record + h s + 1
          rw [hh]
          omega

section

variable {G} {legal ok : σ → (c : ι) → ρ c → Prop} {legal' ok' : τ → (c : κ) → θ c → Prop}
  {J : σ → τ → Prop} {Q : α → σ → Prop} {R : β → τ → Prop} {mayDie mayDie' : Prop}

/-- Both parties are on their way and know `J` of the records. -/
structure Holds (G : Meeting ι κ ρ θ α β σ τ) (legal ok : σ → (c : ι) → ρ c → Prop)
    (legal' ok' : τ → (c : κ) → θ c → Prop) (mayDie mayDie' : Prop) (J : σ → τ → Prop)
    (Q : α → σ → Prop) (R : β → τ → Prop) (g : Party ι ρ α σ × Party κ θ β τ) : Prop where
  left : Total (G.left.watched legal ok) mayDie g.1.prog g.1.record Q
  right : Total (G.right.watched legal' ok') mayDie' g.2.prog g.2.record R
  joint : J g.1.record g.2.record

/-- The rule for pairs. -/
theorem holds (hleft : G.left.Keeps legal ok J)
    (hright : G.right.Keeps legal' ok' fun t s => J s t)
    (hinit : ∀ g, G.init g → G.Holds legal ok legal' ok' mayDie mayDie' J Q R g)
    {g : Party ι ρ α σ × Party κ θ β τ} (h : G.system.Reachable g) :
    G.Holds legal ok legal' ok' mayDie mayDie' J Q R g := by
  refine h.invariant hinit ?_
  rintro ⟨X, Y⟩ ⟨X', Y'⟩ hI (⟨hstep, hsame⟩ | ⟨hstep, hsame⟩)
  · obtain rfl : Y' = Y := hsame
    obtain ⟨hX, hJ⟩ := hleft.step hstep hI.left hI.joint
    exact ⟨hX, hI.right, hJ⟩
  · obtain rfl : X' = X := hsame
    obtain ⟨hY, hJ⟩ := hright.step hstep hI.right hI.joint
    exact ⟨hI.left, hY, hJ⟩

end

end Meeting

end Prog
end CommSpeed
