/-
`while` loops over an explicit state.

The body may fail, and a loop that is not over within its bound fails too, so a
result of `whileLoop` is a result of the unbounded loop.  `whileLoop_total` is the
rule for total correctness: an invariant that counts the iterations.
-/

namespace CommSpeed

variable {σ : Type}

def whileLoop (cond : σ → Bool) (body : σ → Option σ) : Nat → σ → Option σ
  | 0, _ => none
  | bound + 1, s =>
    if cond s then
      match body s with
      | some s' => whileLoop cond body bound s'
      | none => none
    else some s

theorem whileLoop_exit {cond : σ → Bool} {body : σ → Option σ} {s : σ} (h : cond s = false)
    (bound : Nat) : whileLoop cond body (bound + 1) s = some s := by
  rw [whileLoop, h]
  rfl

theorem whileLoop_step {cond : σ → Bool} {body : σ → Option σ} {s s' : σ} (h : cond s = true)
    (hbody : body s = some s') (bound : Nat) :
    whileLoop cond body (bound + 1) s = whileLoop cond body bound s' := by
  rw [whileLoop, h, hbody]
  rfl

/-- A loop whose invariant `I k` holds before iteration `k` and ends the loop after
`n` of them. -/
theorem whileLoop_total {cond : σ → Bool} {body : σ → Option σ} {I : Nat → σ → Prop} {n : Nat}
    (hbody : ∀ k < n, ∀ s, I k s → cond s = true ∧ ∃ s', body s = some s' ∧ I (k + 1) s')
    (hexit : ∀ s, I n s → cond s = false) {bound : Nat} (hbound : n < bound) {s : σ}
    (hinit : I 0 s) : ∃ s', whileLoop cond body bound s = some s' ∧ I n s' := by
  induction n generalizing I bound s with
  | zero =>
      obtain ⟨b, rfl⟩ := Nat.exists_eq_succ_of_ne_zero (Nat.ne_of_gt hbound)
      exact ⟨s, whileLoop_exit (hexit s hinit) b, hinit⟩
  | succ n ih =>
      obtain ⟨b, rfl⟩ := Nat.exists_eq_succ_of_ne_zero (Nat.ne_of_gt (Nat.zero_lt_of_lt hbound))
      obtain ⟨hcond, s', hs', hI⟩ := hbody 0 (Nat.succ_pos n) s hinit
      rw [whileLoop_step hcond hs']
      exact ih (I := fun k => I (k + 1)) (fun k hk => hbody (k + 1) (Nat.succ_lt_succ hk)) hexit
        (Nat.lt_of_succ_lt_succ hbound) hI

end CommSpeed
