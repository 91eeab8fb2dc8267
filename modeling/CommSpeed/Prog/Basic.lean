/-
Programs over an interface of external calls.

`ι` names a call together with its arguments and `ρ c` is the type of the reply
to the call `c`.  A program either returns, makes a call and continues from the
reply, dies at a failed assertion, or has spent the iteration budget of a loop.
Nothing here fixes what a reply may be: the runs of a program quantify over
every reply to every call, and an environment enters only as a restriction on
runs (`CommSpeed/Prog/Monitor.lean`) or as a handler that answers calls from a
state of its own (`eval`, `play`).

A loop takes a budget and ends in `more` when the budget runs out.  A run is a
finite sequence of calls, so every run of the unbounded loop is a run of the
loop with a large enough budget.
-/

namespace CommSpeed

/-- A program over the calls `ι` with replies `ρ`, returning an `α`. -/
inductive Prog (ι : Type) (ρ : ι → Type) (α : Type) where
  | ret (a : α)
  | call (c : ι) (next : ρ c → Prog ι ρ α)
  /-- The process has died. -/
  | abort
  /-- The iteration budget of a loop is spent. -/
  | more

structure Event (ι : Type) (ρ : ι → Type) where
  call : ι
  reply : ρ call

namespace Prog

variable {ι : Type} {ρ : ι → Type} {α β σ τ : Type}

def bind : Prog ι ρ α → (α → Prog ι ρ β) → Prog ι ρ β
  | ret a, f => f a
  | call c next, f => call c (fun r => (next r).bind f)
  | abort, _ => abort
  | more, _ => more

instance : Monad (Prog ι ρ) where
  pure := ret
  bind := bind

@[simp] theorem pure_eq (a : α) : (pure a : Prog ι ρ α) = ret a := rfl

@[simp] theorem ret_bind (a : α) (f : α → Prog ι ρ β) : (ret a : Prog ι ρ α) >>= f = f a := rfl

@[simp] theorem call_bind (c : ι) (next : ρ c → Prog ι ρ α) (f : α → Prog ι ρ β) :
    (call c next : Prog ι ρ α) >>= f = call c (fun r => next r >>= f) := rfl

@[simp] theorem abort_bind (f : α → Prog ι ρ β) : (abort : Prog ι ρ α) >>= f = abort := rfl

@[simp] theorem more_bind (f : α → Prog ι ρ β) : (more : Prog ι ρ α) >>= f = more := rfl

theorem bind_assoc {γ : Type} (p : Prog ι ρ α) (f : α → Prog ι ρ β) (g : β → Prog ι ρ γ) :
    (p >>= f) >>= g = p >>= fun a => f a >>= g := by
  induction p with
  | ret a => rfl
  | call c next ih =>
      rw [call_bind, call_bind, call_bind]
      exact congrArg (call c) (funext ih)
  | abort => rfl
  | more => rfl

def perform (c : ι) : Prog ι ρ (ρ c) := call c ret

/-- `assert(b)`: a failed assertion ends the process. -/
def assert (b : Bool) : Prog ι ρ Unit := if b then ret () else abort

/-- Follow a pointer.  A null pointer ends the process. -/
def deref : Option α → Prog ι ρ α
  | some a => ret a
  | none => abort

/-- Repeat `body` from the loop state `x` until it leaves with a value, at most
`n` times. -/
def iterate (n : Nat) (body : σ → Prog ι ρ (σ ⊕ β)) (x : σ) : Prog ι ρ β :=
  match n with
  | 0 => more
  | n + 1 => body x >>= fun
      | .inl x' => iterate n body x'
      | .inr b => ret b

/-- The value of a program that has returned. -/
def result : Prog ι ρ α → Option α
  | ret a => some a
  | _ => none

theorem eq_ret_of_result {p : Prog ι ρ α} {a : α} (h : p.result = some a) : p = ret a := by
  cases p with
  | ret b => exact congrArg ret (Option.some.inj h)
  | call | abort | more => cases h

/-! ## Runs -/

/-- `Runs p t q`: the program `p` can make the calls of `t`, with the replies
recorded there, and is then at `q`.  The run is over when `q` returns and is a
prefix of longer runs when `q` makes another call. -/
inductive Runs : Prog ι ρ α → List (Event ι ρ) → Prog ι ρ α → Prop
  | nil (p) : Runs p [] p
  | cons {c next r t q} (h : Runs (next r) t q) : Runs (call c next) (⟨c, r⟩ :: t) q

/-- A finished run of a sequence is a finished run of its first part followed by
one of the second. -/
theorem Runs.split {p : Prog ι ρ α} {f : α → Prog ι ρ β} {t : List (Event ι ρ)} {b : β}
    (h : Runs (p >>= f) t (ret b)) :
    ∃ a t₁ t₂, t = t₁ ++ t₂ ∧ Runs p t₁ (ret a) ∧ Runs (f a) t₂ (ret b) := by
  induction p generalizing t with
  | ret a => exact ⟨a, [], t, rfl, .nil _, h⟩
  | call c next ih =>
      rw [call_bind] at h
      cases h with
      | cons h =>
          obtain ⟨a, t₁, t₂, ht, h₁, h₂⟩ := ih _ h
          exact ⟨a, _ :: t₁, t₂, by rw [ht, List.cons_append], .cons h₁, h₂⟩
  | abort => cases h
  | more => cases h

/-- A finished run of the first part and a run of the second are a run of the sequence. -/
theorem Runs.bind {p : Prog ι ρ α} {f : α → Prog ι ρ β} {t u : List (Event ι ρ)} {a : α}
    {q : Prog ι ρ β} (h : Runs p t (ret a)) (hf : Runs (f a) u q) : Runs (p >>= f) (t ++ u) q := by
  induction p generalizing t with
  | ret a' =>
      cases h
      exact hf
  | call c next ih =>
      cases h with
      | cons h => exact .cons (ih _ h)
  | abort => cases h
  | more => cases h

theorem Runs.step {c : ι} {f : ρ c → Prog ι ρ α} {t : List (Event ι ρ)} {a : α}
    (h : Runs (perform c >>= f) t (ret a)) :
    ∃ r t', t = ⟨c, r⟩ :: t' ∧ Runs (f r) t' (ret a) := by
  cases h with
  | cons h => exact ⟨_, _, rfl, h⟩

theorem Runs.assert {b : Bool} {f : Unit → Prog ι ρ α} {t : List (Event ι ρ)} {a : α}
    (h : Runs (Prog.assert b >>= f) t (ret a)) : b = true ∧ Runs (f ()) t (ret a) := by
  cases b with
  | true => exact ⟨rfl, h⟩
  | false => cases h

theorem Runs.deref {o : Option β} {f : β → Prog ι ρ α} {t : List (Event ι ρ)} {a : α}
    (h : Runs (Prog.deref o >>= f) t (ret a)) : ∃ b, o = some b ∧ Runs (f b) t (ret a) := by
  cases o with
  | some b => exact ⟨b, rfl, h⟩
  | none => cases h

/-- A loop that returns has made a first turn. -/
theorem Runs.iterate {n : Nat} {body : σ → Prog ι ρ (σ ⊕ β)} {x : σ} {t : List (Event ι ρ)} {b : β}
    (h : Runs (iterate n body x) t (ret b)) :
    ∃ n' y t₁ t₂, n = n' + 1 ∧ t = t₁ ++ t₂ ∧ Runs (body x) t₁ (ret y) ∧
      match y with
      | .inl x' => Runs (Prog.iterate n' body x') t₂ (ret b)
      | .inr b' => b' = b ∧ t₂ = [] := by
  cases n with
  | zero => cases h
  | succ n =>
      obtain ⟨y, t₁, t₂, rfl, h₁, h₂⟩ := h.split
      refine ⟨n, y, t₁, t₂, rfl, rfl, h₁, ?_⟩
      cases y with
      | inl x' => exact h₂
      | inr b' =>
          cases h₂
          exact ⟨rfl, rfl⟩

/-! ## Reaching a call

`Returns p a` and `Reaches p c` say that some replies lead there. -/

def Returns (p : Prog ι ρ α) (a : α) : Prop := ∃ t, Runs p t (ret a)

def Reaches (p : Prog ι ρ α) (c : ι) : Prop := ∃ t next, Runs p t (call c next)

theorem Returns.ret (a : α) : Returns (Prog.ret a : Prog ι ρ α) a := ⟨[], .nil _⟩

theorem Returns.bind {p : Prog ι ρ α} {f : α → Prog ι ρ β} {a : α} {b : β} (h : Returns p a)
    (hf : Returns (f a) b) : Returns (p >>= f) b := by
  obtain ⟨t, ht⟩ := h
  obtain ⟨u, hu⟩ := hf
  exact ⟨t ++ u, ht.bind hu⟩

theorem Returns.step {c : ι} {f : ρ c → Prog ι ρ α} {a : α} (r : ρ c) (h : Returns (f r) a) :
    Returns (perform c >>= f) a :=
  Returns.bind (f := f) ⟨[⟨c, r⟩], .cons (.nil _)⟩ h

theorem Reaches.step {c d : ι} {f : ρ c → Prog ι ρ α} (r : ρ c) (h : Reaches (f r) d) :
    Reaches (perform c >>= f) d := by
  obtain ⟨t, next, h⟩ := h
  exact ⟨⟨c, r⟩ :: t, next, .cons h⟩

theorem Reaches.here (c : ι) (f : ρ c → Prog ι ρ α) : Reaches (perform c >>= f) c :=
  ⟨[], f, .nil _⟩

theorem Returns.reaches {p : Prog ι ρ α} {f : α → Prog ι ρ β} {a : α} {c : ι} (h : Returns p a)
    (hf : Reaches (f a) c) : Reaches (p >>= f) c := by
  obtain ⟨t, ht⟩ := h
  obtain ⟨u, next, hu⟩ := hf
  exact ⟨t ++ u, next, ht.bind hu⟩

theorem Reaches.bind {p : Prog ι ρ α} {f : α → Prog ι ρ β} {c : ι} (h : Reaches p c) :
    Reaches (p >>= f) c := by
  obtain ⟨t, next, h⟩ := h
  refine ⟨t, fun r => next r >>= f, ?_⟩
  induction p generalizing t with
  | ret a => cases h
  | call c' next' ih =>
      cases h with
      | nil => exact .nil _
      | cons h => exact .cons (ih _ _ h)
  | abort => cases h
  | more => cases h

/-- What holds of every call of every run holds of a call that is reached. -/
theorem Reaches.call_of_runs {p : Prog ι ρ α} {c : ι} {U : ι → Prop} (h : Reaches p c) (r : ρ c)
    (hU : ∀ t q, Runs p t q → ∀ e ∈ t, U e.call) : U c := by
  obtain ⟨t, next, h⟩ := h
  have hrun : ∀ {p : Prog ι ρ α} {t}, Runs p t (call c next) →
      Runs p (t ++ [⟨c, r⟩]) (next r) := by
    intro p t h
    induction t generalizing p with
    | nil =>
        cases h
        exact .cons (.nil _)
    | cons e t ih =>
        cases h with
        | cons h => exact .cons (ih h)
  exact hU _ _ (hrun h) ⟨c, r⟩ (List.mem_append_right t List.mem_cons_self)

/-! ## Handlers

A handler answers a call from a state, or refuses it, which blocks the program. -/

/-- The value returned and the state left under a handler, when the program
returns. -/
def eval (h : (c : ι) → τ → Option (ρ c × τ)) : Prog ι ρ α → τ → Option (α × τ)
  | ret a, s => some (a, s)
  | call c next, s =>
    match h c s with
    | none => none
    | some (r, s') => eval h (next r) s'
  | abort, _ => none
  | more, _ => none

/-- The calls made under a handler and the program left at the end. -/
def play (h : (c : ι) → τ → Option (ρ c × τ)) :
    Prog ι ρ α → τ → List (Event ι ρ) × Prog ι ρ α
  | ret a, _ => ([], ret a)
  | call c next, s =>
    match h c s with
    | none => ([], call c next)
    | some (r, s') => (⟨c, r⟩ :: (play h (next r) s').1, (play h (next r) s').2)
  | abort, _ => ([], abort)
  | more, _ => ([], more)

theorem runs_play (h : (c : ι) → τ → Option (ρ c × τ)) (p : Prog ι ρ α) (s : τ) :
    Runs p (play h p s).1 (play h p s).2 := by
  induction p generalizing s with
  | ret a => exact .nil _
  | call c next ih =>
      unfold play
      split
      · exact .nil _
      · exact .cons (ih _ _)
  | abort => exact .nil _
  | more => exact .nil _

@[simp] theorem eval_ret (h : (c : ι) → τ → Option (ρ c × τ)) (a : α) (s : τ) :
    eval h (ret a) s = some (a, s) := rfl

theorem eval_call (h : (c : ι) → τ → Option (ρ c × τ)) (c : ι) (next : ρ c → Prog ι ρ α)
    (s : τ) : eval h (call c next) s = (h c s).bind fun x => eval h (next x.1) x.2 := by
  cases hc : h c s with
  | none => simp [eval, hc]
  | some x => simp [eval, hc]

@[simp] theorem eval_abort (h : (c : ι) → τ → Option (ρ c × τ)) (s : τ) :
    eval h (abort : Prog ι ρ α) s = none := rfl

@[simp] theorem eval_more (h : (c : ι) → τ → Option (ρ c × τ)) (s : τ) :
    eval h (more : Prog ι ρ α) s = none := rfl

theorem eval_bind (h : (c : ι) → τ → Option (ρ c × τ)) (p : Prog ι ρ α)
    (f : α → Prog ι ρ β) (s : τ) :
    eval h (p >>= f) s = (eval h p s).bind fun x => eval h (f x.1) x.2 := by
  induction p generalizing s with
  | ret a => rfl
  | call c next ih =>
      rw [call_bind, eval_call, eval_call, Option.bind_assoc]
      exact congrArg _ (funext fun x => ih x.1 x.2)
  | abort => rfl
  | more => rfl

theorem eval_perform (h : (c : ι) → τ → Option (ρ c × τ)) (c : ι) (s : τ) :
    eval h (perform c) s = h c s := by
  rw [perform, eval_call]
  cases h c s <;> rfl

theorem eval_then {h : (c : ι) → τ → Option (ρ c × τ)} {p : Prog ι ρ α} {f : α → Prog ι ρ β}
    {a : α} {s s' : τ} (hp : eval h p s = some (a, s')) :
    eval h (p >>= f) s = eval h (f a) s' := by
  rw [eval_bind, hp, Option.bind_some]

theorem eval_step {h : (c : ι) → τ → Option (ρ c × τ)} {c : ι} {f : ρ c → Prog ι ρ α} {r : ρ c}
    {s s' : τ} (hc : h c s = some (r, s')) : eval h (perform c >>= f) s = eval h (f r) s' :=
  eval_then ((eval_perform h c s).trans hc)

end Prog
end CommSpeed
