/-
Monitors and the safety logic of `Prog`.

A monitor watches a run through a state of its own.  `legal` is what is assumed
of the environment at a call, `ok` is what is demanded of the program there, and
`next` is the state after it.  `Safe M p s Q` says that from monitor state `s`
every call the program makes is `ok` as long as the replies are `legal`, and that
a returned value satisfies `Q` in the monitor state of that moment.

`Safe` is a weakest precondition by recursion on the program, so a proof follows
the program text.  `Safe.runs` turns it into a statement about runs.
-/
import CommSpeed.Prog.Basic

namespace CommSpeed

structure Monitor (ι : Type) (ρ : ι → Type) (σ : Type) where
  /-- The replies the environment is assumed to give. -/
  legal : σ → (c : ι) → ρ c → Prop
  /-- The calls the program is allowed to make. -/
  ok : σ → (c : ι) → ρ c → Prop
  next : σ → (c : ι) → ρ c → σ

namespace Monitor

variable {ι : Type} {ρ : ι → Type} {σ : Type} (M : Monitor ι ρ σ)

def after (s : σ) : List (Event ι ρ) → σ
  | [] => s
  | e :: t => after (M.next s e.call e.reply) t

def Legal (s : σ) : List (Event ι ρ) → Prop
  | [] => True
  | e :: t => M.legal s e.call e.reply ∧ Legal (M.next s e.call e.reply) t

def Ok (s : σ) : List (Event ι ρ) → Prop
  | [] => True
  | e :: t => M.ok s e.call e.reply ∧ Ok (M.next s e.call e.reply) t

@[simp] theorem after_nil (s : σ) : M.after s [] = s := rfl

@[simp] theorem after_cons (s : σ) (e : Event ι ρ) (t : List (Event ι ρ)) :
    M.after s (e :: t) = M.after (M.next s e.call e.reply) t := rfl

theorem after_append (s : σ) (t u : List (Event ι ρ)) :
    M.after s (t ++ u) = M.after (M.after s t) u := by
  induction t generalizing s with
  | nil => rfl
  | cons e t ih => exact ih _

theorem ok_append (s : σ) (t u : List (Event ι ρ)) :
    M.Ok s (t ++ u) ↔ M.Ok s t ∧ M.Ok (M.after s t) u := by
  induction t generalizing s with
  | nil => simp [Ok]
  | cons e t ih => simp only [List.cons_append, Ok, ih, after_cons, and_assoc]

theorem legal_of_forall {s : σ} {t : List (Event ι ρ)}
    (h : ∀ e ∈ t, ∀ s, M.legal s e.call e.reply) : M.Legal s t := by
  induction t generalizing s with
  | nil => trivial
  | cons e t ih =>
      exact ⟨h e List.mem_cons_self s, ih fun e' he => h e' (List.mem_cons_of_mem e he)⟩

instance decidableLegal [∀ s c r, Decidable (M.legal s c r)] :
    ∀ s t, Decidable (M.Legal s t)
  | _, [] => .isTrue trivial
  | s, e :: t =>
    haveI := decidableLegal (M.next s e.call e.reply) t
    inferInstanceAs (Decidable (M.legal s e.call e.reply ∧ M.Legal (M.next s e.call e.reply) t))

instance decidableOk [∀ s c r, Decidable (M.ok s c r)] : ∀ s t, Decidable (M.Ok s t)
  | _, [] => .isTrue trivial
  | s, e :: t =>
    haveI := decidableOk (M.next s e.call e.reply) t
    inferInstanceAs (Decidable (M.ok s e.call e.reply ∧ M.Ok (M.next s e.call e.reply) t))

end Monitor

namespace Prog

variable {ι : Type} {ρ : ι → Type} {α β σ κ : Type} {M : Monitor ι ρ σ}

/-- From monitor state `s` every call of `p` is allowed, and `Q` holds when it
returns.  A process that dies or runs out of budget makes no further call. -/
def Safe (M : Monitor ι ρ σ) : Prog ι ρ α → σ → (α → σ → Prop) → Prop
  | ret a, s, Q => Q a s
  | call c next, s, Q =>
    ∀ r, M.legal s c r → M.ok s c r ∧ Safe M (next r) (M.next s c r) Q
  | abort, _, _ => True
  | more, _, _ => True

@[simp] theorem safe_ret {a : α} {s : σ} {Q : α → σ → Prop} :
    Safe M (ret a) s Q ↔ Q a s := Iff.rfl

theorem safe_call {c : ι} {next : ρ c → Prog ι ρ α} {s : σ} {Q : α → σ → Prop} :
    Safe M (call c next) s Q ↔
      ∀ r, M.legal s c r → M.ok s c r ∧ Safe M (next r) (M.next s c r) Q := Iff.rfl

@[simp] theorem safe_abort {s : σ} {Q : α → σ → Prop} : Safe M (abort : Prog ι ρ α) s Q :=
  trivial

@[simp] theorem safe_more {s : σ} {Q : α → σ → Prop} : Safe M (more : Prog ι ρ α) s Q :=
  trivial

theorem safe_bind {p : Prog ι ρ α} {f : α → Prog ι ρ β} {s : σ} {Q : β → σ → Prop} :
    Safe M (p >>= f) s Q ↔ Safe M p s (fun a s' => Safe M (f a) s' Q) := by
  induction p generalizing s with
  | ret a => rfl
  | call c next ih =>
      rw [call_bind, safe_call, safe_call]
      exact forall_congr' fun r => imp_congr_right fun _ => and_congr_right fun _ => ih r
  | abort => simp
  | more => simp

theorem safe_perform {c : ι} {s : σ} {Q : ρ c → σ → Prop} :
    Safe M (perform c) s Q ↔
      ∀ r, M.legal s c r → M.ok s c r ∧ Q r (M.next s c r) := Iff.rfl

theorem safe_step {c : ι} {f : ρ c → Prog ι ρ α} {s : σ} {Q : α → σ → Prop} :
    Safe M (perform c >>= f) s Q ↔
      ∀ r, M.legal s c r → M.ok s c r ∧ Safe M (f r) (M.next s c r) Q := Iff.rfl

theorem Safe.mono {p : Prog ι ρ α} {s : σ} {Q R : α → σ → Prop} (h : Safe M p s Q)
    (hQ : ∀ a s', Q a s' → R a s') : Safe M p s R := by
  induction p generalizing s with
  | ret a => exact hQ a s h
  | call c next ih => exact fun r hr => ⟨(h r hr).1, ih r (h r hr).2⟩
  | abort => trivial
  | more => trivial

/-- The sequencing rule: what the first program establishes is what the second
starts from. -/
theorem Safe.bind {p : Prog ι ρ α} {f : α → Prog ι ρ β} {s : σ} {Q : α → σ → Prop}
    {R : β → σ → Prop} (h : Safe M p s Q) (hf : ∀ a s', Q a s' → Safe M (f a) s' R) :
    Safe M (p >>= f) s R :=
  safe_bind.mpr (h.mono hf)

theorem safe_assert {b : Bool} {s : σ} {Q : Unit → σ → Prop} (h : b = true → Q () s) :
    Safe M (assert b) s Q := by
  cases b with
  | false => exact safe_abort
  | true => exact h rfl

theorem safe_deref {o : Option α} {s : σ} {Q : α → σ → Prop}
    (h : ∀ a, o = some a → Q a s) : Safe M (deref o) s Q := by
  cases o with
  | none => exact safe_abort
  | some a => exact h a rfl

/-- The sequencing rule behind a program that leaves the monitor where it is. -/
theorem Safe.bindSame {p : Prog ι ρ α} {f : α → Prog ι ρ β} {s : σ} {R : β → σ → Prop}
    (h : Safe M p s fun _ s' => s' = s) (hf : ∀ a, Safe M (f a) s R) : Safe M (p >>= f) s R := by
  refine h.bind fun a s' hs' => ?_
  rw [hs']
  exact hf a

theorem safe_ite {b : Prop} [Decidable b] {p q : Prog ι ρ α} {s : σ} {Q : α → σ → Prop}
    (hp : b → Safe M p s Q) (hq : ¬ b → Safe M q s Q) : Safe M (if b then p else q) s Q := by
  by_cases h : b
  · rw [if_pos h]
    exact hp h
  · rw [if_neg h]
    exact hq h

/-- The rule for a return code that ends the program unless it is 0. -/
theorem Safe.check {p : Prog ι ρ Int} {e : Int → α} {f : Prog ι ρ α} {s : σ}
    {R : Int → σ → Prop} {Q : α → σ → Prop} (h : Safe M p s R)
    (he : ∀ rc s', rc ≠ 0 → R rc s' → Q (e rc) s')
    (hf : ∀ s', R 0 s' → Safe M f s' Q) :
    Safe M (p >>= fun rc => if rc ≠ 0 then pure (e rc) else f) s Q := by
  refine h.bind fun rc s' hR => ?_
  by_cases hrc : rc = 0
  · subst hrc
    rw [if_neg (fun h => h rfl)]
    exact hf s' hR
  · rw [if_pos hrc]
    exact he rc s' hrc hR

/-- The rule for a return code behind which the monitor state is known. -/
theorem Safe.checkTo {p : Prog ι ρ Int} {e : Int → α} {f : Prog ι ρ α} {s s₁ : σ}
    {Q : α → σ → Prop} (h : Safe M p s fun rc s' => rc = 0 → s' = s₁)
    (he : ∀ rc s', rc ≠ 0 → Q (e rc) s') (hf : Safe M f s₁ Q) :
    Safe M (p >>= fun rc => if rc ≠ 0 then pure (e rc) else f) s Q := by
  refine h.check (fun rc s' hrc _ => he rc s' hrc) fun s' hs' => ?_
  rw [hs' rfl]
  exact hf

theorem Safe.checkSame {p : Prog ι ρ Int} {e : Int → α} {f : Prog ι ρ α} {s : σ}
    {Q : α → σ → Prop} (h : Safe M p s fun _ s' => s' = s) (he : ∀ rc, rc ≠ 0 → Q (e rc) s)
    (hf : Safe M f s Q) : Safe M (p >>= fun rc => if rc ≠ 0 then pure (e rc) else f) s Q := by
  refine h.bindSame fun rc => safe_ite (fun hrc => he rc hrc) fun _ => hf

/-- The loop rule: an invariant of the loop state and the monitor state that the
body keeps holds at every exit. -/
theorem safe_iterate {n : Nat} {body : κ → Prog ι ρ (κ ⊕ β)} {x : κ} {s : σ}
    {I : κ → σ → Prop} {Q : β → σ → Prop} (hI : I x s)
    (hbody : ∀ x s, I x s → Safe M (body x) s fun y s' =>
      match y with
      | .inl x' => I x' s'
      | .inr b => Q b s') :
    Safe M (iterate n body x) s Q := by
  induction n generalizing x s with
  | zero => exact safe_more
  | succ n ih =>
      refine Safe.bind (hbody x s hI) ?_
      intro y s' hy
      cases y with
      | inl x' => exact ih hy
      | inr b => exact hy

/-- A safe program makes only allowed calls along a legal run, and what is left
of it is safe from the monitor state reached. -/
theorem Safe.runs {p q : Prog ι ρ α} {s : σ} {Q : α → σ → Prop} {t : List (Event ι ρ)}
    (h : Safe M p s Q) (hr : Runs p t q) (hl : M.Legal s t) :
    M.Ok s t ∧ Safe M q (M.after s t) Q := by
  induction hr generalizing s with
  | nil p => exact ⟨trivial, h⟩
  | cons _ ih =>
      have hc := h _ hl.1
      have hrest := ih hc.2 hl.2
      exact ⟨⟨hc.1, hrest.1⟩, hrest.2⟩

/-! ## Programs confined to some calls -/

/-- The monitor that only asks which calls are made. -/
def only (ρ : ι → Type) (U : ι → Prop) : Monitor ι ρ Unit where
  legal _ _ _ := True
  ok _ c _ := U c
  next _ _ _ := ()

/-- Every call of `p` is in `U` and every value it returns satisfies `Q`. -/
abbrev Uses (U : ι → Prop) (p : Prog ι ρ α) (Q : α → Prop) : Prop :=
  Safe (only ρ U) p () fun a _ => Q a

theorem uses_perform {U : ι → Prop} {c : ι} (h : U c) :
    Uses U (perform c : Prog ι ρ (ρ c)) fun _ => True :=
  fun _ _ => ⟨h, trivial⟩

theorem Uses.weaken {U V : ι → Prop} {p : Prog ι ρ α} {Q : α → Prop} (h : Uses U p Q)
    (hUV : ∀ c, U c → V c) : Uses V p Q := by
  induction p with
  | ret a => exact h
  | call c next ih => exact fun r hr => ⟨hUV c (h r hr).1, ih r (h r hr).2⟩
  | abort => trivial
  | more => trivial

/-- A monitor that does not react to the calls in `U` is left where it was by a
program confined to them. -/
theorem Uses.safe {U : ι → Prop} {p : Prog ι ρ α} {Q : α → Prop} {s : σ} (h : Uses U p Q)
    (hM : ∀ c r, U c → M.ok s c r ∧ M.next s c r = s) :
    Safe M p s fun a s' => Q a ∧ s' = s := by
  induction p with
  | ret a => exact ⟨h, rfl⟩
  | call c next ih =>
      intro r _
      have hc := h r trivial
      have hs := hM c r hc.1
      refine ⟨hs.1, ?_⟩
      rw [hs.2]
      exact ih r hc.2
  | abort => trivial
  | more => trivial

theorem Uses.calls {U : ι → Prop} {p q : Prog ι ρ α} {Q : α → Prop} {t : List (Event ι ρ)}
    (h : Uses U p Q) (hr : Runs p t q) : ∀ e ∈ t, U e.call := by
  induction hr with
  | nil => simp
  | @cons c next r t q _ ih =>
      have hc := h r trivial
      intro e he
      obtain rfl | he := List.mem_cons.mp he
      · exact hc.1
      · exact ih hc.2 e he

/-- A program confined to calls that are allowed in every state is safe. -/
theorem Uses.allowed {U : ι → Prop} {p : Prog ι ρ α} {Q : α → Prop} {s : σ} (h : Uses U p Q)
    (hM : ∀ s c r, U c → M.ok s c r) : Safe M p s fun a _ => Q a := by
  induction p generalizing s with
  | ret a => exact h
  | call c next ih =>
      intro r _
      have hc := h r trivial
      exact ⟨hM s c r hc.1, ih r hc.2⟩
  | abort => trivial
  | more => trivial

/-- What a program returns whatever the replies, beside what a monitor says of it. -/
theorem Uses.and {U : ι → Prop} {p : Prog ι ρ α} {R : α → Prop} {s : σ} {Q : α → σ → Prop}
    (h : Uses U p R) (hs : Safe M p s Q) : Safe M p s fun a s' => R a ∧ Q a s' := by
  induction p generalizing s with
  | ret a => exact ⟨h, hs⟩
  | call c next ih => exact fun r hr => ⟨(hs r hr).1, ih r (h r trivial).2 (hs r hr).2⟩
  | abort => trivial
  | more => trivial

end Prog
end CommSpeed
