/-
Threads that share a state, and the linking of an interface to its implementation.

A thread is a program whose calls are single accesses to the shared state; a step
of the system is one access by one thread.  `link impl p` is the client `p` with
every call of its interface replaced by the code of that call.  The question is
when the threads `link impl (P t)`, interleaved access by access, do no more than
the threads `P t` whose calls take effect at once.

`Commits` is the condition for code without locks: until the access at which the
call takes effect the code changes nothing, and after it the code makes no access.
`link_simulates` is the result, and `Linearized` reads it as a history of whole
calls that grows with the run (`linearized_along`).  As a call enters the history between its first
access and its last, the history respects the order of calls that do not overlap.
-/
import CommSpeed.Prog.Monitor
import CommSpeed.System.Transition
import Mathlib.Logic.Function.Basic
import Mathlib.Tactic.Choose

namespace CommSpeed

/-- What an access to a shared state may reply and leave. -/
structure Shared (ι : Type) (ρ : ι → Type) (σ : Type) where
  access : (c : ι) → σ → ρ c → σ → Prop

/-- The threads with the code they have still to run, the state they share, and
the accesses made so far. -/
structure Threads (θ ι : Type) (ρ : ι → Type) (α σ : Type) where
  prog : θ → Prog ι ρ α
  shared : σ
  log : List (θ × Event ι ρ)

namespace Prog

variable {ι κ : Type} {ρ : ι → Type} {ρ' : κ → Type} {α β : Type}

/-- Replace every call by its code. -/
def link (impl : (c : ι) → Prog κ ρ' (ρ c)) : Prog ι ρ α → Prog κ ρ' α
  | ret a => ret a
  | call c next => impl c >>= fun r => link impl (next r)
  | abort => abort
  | more => more

@[simp] theorem link_ret (impl : (c : ι) → Prog κ ρ' (ρ c)) (a : α) :
    link impl (ret a : Prog ι ρ α) = ret a := rfl

/-- A program without a loop whose iteration budget is spent. -/
def Whole : Prog ι ρ α → Prop
  | ret _ => True
  | call _ next => ∀ r, Whole (next r)
  | abort => True
  | more => False

theorem uses_any (p : Prog ι ρ α) : Uses (fun _ => True) p fun _ => True := by
  induction p with
  | ret a => trivial
  | call c next ih => exact fun r _ => ⟨trivial, ih r⟩
  | abort => trivial
  | more => trivial

theorem Whole.bind {p : Prog ι ρ α} {f : α → Prog ι ρ β} {Q : α → Prop} (h : Whole p)
    (hp : Uses (fun _ => True) p Q) (hf : ∀ a, Q a → Whole (f a)) : Whole (p >>= f) := by
  induction p with
  | ret a => exact hf a hp
  | call c next ih => exact fun r => ih r (h r) (hp r trivial).2
  | abort => trivial
  | more => exact h

/-- A loop with a measure that is below its budget and falls with every turn. -/
theorem Whole.iterate {σ : Type} {n : Nat} {body : σ → Prog ι ρ (σ ⊕ β)} {x : σ} (m : σ → Nat)
    (hm : m x < n) (hbody : ∀ x, Whole (body x))
    (hnext : ∀ x, Uses (fun _ => True) (body x) fun y => ∀ x', y = .inl x' → m x' < m x) :
    Whole (iterate n body x) := by
  induction n generalizing x with
  | zero => omega
  | succ n ih =>
      refine (hbody x).bind (hnext x) fun y hy => ?_
      cases y with
      | inl x' =>
          have hlt := hy x' rfl
          exact ih (by omega)
      | inr b => trivial

theorem Whole.runs {p q : Prog ι ρ α} {t : List (Event ι ρ)} (h : Whole p) (hr : Runs p t q) :
    Whole q := by
  induction hr with
  | nil => exact h
  | @cons c next r t q _ ih => exact ih (h r)

theorem Runs.snoc {p : Prog ι ρ α} {t : List (Event ι ρ)} {c : ι} {next : ρ c → Prog ι ρ α}
    (h : Runs p t (call c next)) (r : ρ c) : Runs p (t ++ [⟨c, r⟩]) (next r) := by
  induction t generalizing p with
  | nil =>
      cases h
      exact .cons (.nil _)
  | cons e t ih =>
      cases h with
      | cons h => exact .cons (ih h)

end Prog

open Prog

namespace Threads

variable {θ ι κ : Type} {ρ : ι → Type} {ρ' : κ → Type} {α σ : Type}

/-- The accesses one thread has made. -/
def made [DecidableEq θ] (t : θ) (log : List (θ × Event ι ρ)) : List (Event ι ρ) :=
  log.filterMap fun e => if e.1 = t then some e.2 else none

@[simp] theorem made_nil [DecidableEq θ] (t : θ) :
    made t ([] : List (θ × Event ι ρ)) = [] := rfl

theorem made_append [DecidableEq θ] (t : θ) (l l' : List (θ × Event ι ρ)) :
    made t (l ++ l') = made t l ++ made t l' := List.filterMap_append

@[simp] theorem made_self [DecidableEq θ] (t : θ) (e : Event ι ρ) : made t [(t, e)] = [e] := by
  simp [made]

@[simp] theorem made_other [DecidableEq θ] {t u : θ} (h : u ≠ t) (e : Event ι ρ) :
    made t [(u, e)] = [] := by
  simp [made, h]

/-- A log is a sequence of accesses, each from the state the one before it left. -/
inductive Replays (S : Shared ι ρ σ) : σ → List (θ × Event ι ρ) → σ → Prop
  | nil (s) : Replays S s [] s
  | snoc {s log s' t c r s''} (h : Replays S s log s') (ha : S.access c s' r s'') :
      Replays S s (log ++ [(t, ⟨c, r⟩)]) s''

/-- The state before an access of a log and the one after it. -/
theorem Replays.split {S : Shared ι ρ σ} {before after : List (θ × Event ι ρ)}
    {e : θ × Event ι ρ} {s s' : σ} (h : Replays S s (before ++ e :: after) s') :
    ∃ s₁ s₂, Replays S s before s₁ ∧ S.access e.2.call s₁ e.2.reply s₂ ∧
      Replays S s₂ after s' := by
  generalize hlog : before ++ e :: after = log at h
  induction h generalizing after with
  | nil => simp at hlog
  | @snoc log s₁ t c r s₂ h ha ih =>
      rcases List.eq_nil_or_concat after with rfl | ⟨rest, last, hafter⟩
      · obtain ⟨rfl, he⟩ := List.append_inj' hlog rfl
        obtain rfl := List.singleton_inj.mp he
        exact ⟨s₁, s₂, h, ha, .nil _⟩
      · rw [List.concat_eq_append] at hafter
        subst hafter
        have hsplit : (before ++ e :: rest) ++ [last] = log ++ [(t, ⟨c, r⟩)] := by
          simpa using hlog
        obtain ⟨hrest, hlast⟩ := List.append_inj' hsplit rfl
        obtain rfl := List.singleton_inj.mp hlast
        obtain ⟨s₁', s₂', hbefore, he, hafter⟩ := ih hrest
        exact ⟨s₁', s₂', hbefore, he, hafter.snoc ha⟩

inductive Step [DecidableEq θ] (S : Shared ι ρ σ) :
    Threads θ ι ρ α σ → Threads θ ι ρ α σ → Prop
  | access {X t c next r s} (hprog : X.prog t = call c next) (ha : S.access c X.shared r s) :
      Step S X
        { prog := Function.update X.prog t (next r),
          shared := s,
          log := X.log ++ [(t, ⟨c, r⟩)] }

/-- The threads `start` over the shared state `s`, interleaved access by access. -/
def machine [DecidableEq θ] (S : Shared ι ρ σ) (start : θ → Prog ι ρ α) (s : σ) :
    TransitionSystem (Threads θ ι ρ α σ) where
  init X := X = ⟨start, s, []⟩
  step := Step S

section

variable [DecidableEq θ] {S : Shared ι ρ σ} {start : θ → Prog ι ρ α} {s : σ}
  {X X' : Threads θ ι ρ α σ}

theorem Step.log_prefix (h : Step S X X') : X.log <+: X'.log := by
  cases h with
  | access => exact List.prefix_append _ _

/-- What a thread has done is a run of its program. -/
theorem reachable_runs (h : (machine S start s).Reachable X) (t : θ) :
    Runs (start t) (made t X.log) (X.prog t) := by
  induction h with
  | init h =>
      obtain rfl := h
      exact .nil _
  | @step X X' _ hstep ih =>
      cases hstep with
      | @access u c next r s' hprog ha =>
          show Runs _ (made t (X.log ++ _)) (Function.update X.prog u (next r) t)
          rw [made_append]
          by_cases hut : u = t
          · subst hut
            rw [made_self, Function.update_self]
            exact (hprog ▸ ih).snoc r
          · rw [made_other hut, List.append_nil, Function.update_of_ne (Ne.symm hut)]
            exact ih

theorem reachable_replays (h : (machine S start s).Reachable X) : Replays S s X.log X.shared := by
  induction h with
  | init h =>
      obtain rfl := h
      exact .nil _
  | step _ hstep ih =>
      cases hstep with
      | access hprog ha => exact ih.snoc ha

end

/-! ## Schedules

A schedule names the thread of each step; a thread that has returned or has to wait
is passed over. -/

def turn [DecidableEq θ] (exec : (c : ι) → σ → Option (ρ c × σ)) (X : Threads θ ι ρ α σ)
    (t : θ) : Threads θ ι ρ α σ :=
  match X.prog t with
  | call c next =>
    match exec c X.shared with
    | some (r, s) =>
      { prog := Function.update X.prog t (next r),
        shared := s,
        log := X.log ++ [(t, ⟨c, r⟩)] }
    | none => X
  | _ => X

def schedule [DecidableEq θ] (exec : (c : ι) → σ → Option (ρ c × σ)) (X : Threads θ ι ρ α σ)
    (ts : List θ) : Threads θ ι ρ α σ := ts.foldl (turn exec) X

@[simp] theorem schedule_concat [DecidableEq θ] (exec : (c : ι) → σ → Option (ρ c × σ))
    (X : Threads θ ι ρ α σ) (ts : List θ) (t : θ) :
    schedule exec X (ts ++ [t]) = turn exec (schedule exec X ts) t := List.foldl_append

theorem turn_stays_or_steps [DecidableEq θ] {S : Shared ι ρ σ}
    {exec : (c : ι) → σ → Option (ρ c × σ)}
    (hexec : ∀ c s r s', exec c s = some (r, s') → S.access c s r s') (X : Threads θ ι ρ α σ)
    (t : θ) : turn exec X t = X ∨ Step S X (turn exec X t) := by
  unfold turn
  split
  · rename_i hprog
    split
    · rename_i hacc
      exact .inr (.access hprog (hexec _ _ _ _ hacc))
    · exact .inl rfl
  · exact .inl rfl

theorem steps_schedule [DecidableEq θ] {S : Shared ι ρ σ} {exec : (c : ι) → σ → Option (ρ c × σ)}
    (hexec : ∀ c s r s', exec c s = some (r, s') → S.access c s r s') (X : Threads θ ι ρ α σ)
    (ts : List θ) : Relation.ReflTransGen (Step S) X (schedule exec X ts) := by
  induction ts generalizing X with
  | nil => exact .refl
  | cons t ts ih =>
      refine .trans ?_ (ih (turn exec X t))
      rcases turn_stays_or_steps hexec X t with hstay | hstep
      · rw [hstay]
      · exact .single hstep

theorem reachable_of_steps [DecidableEq θ] {S : Shared ι ρ σ} {start : θ → Prog ι ρ α} {s : σ}
    {X : Threads θ ι ρ α σ} (h : Relation.ReflTransGen (Step S) ⟨start, s, []⟩ X) :
    (machine S start s).Reachable X := by
  induction h with
  | refl => exact .init rfl
  | tail _ hstep ih => exact .step ih hstep

/-! ## Code that commits at one access -/

/-- Until the access at which the call `c` of `A` takes effect the code changes
nothing, and from there on it makes no access. -/
def Commits (S : Shared κ ρ' σ) (A : Shared ι ρ σ) (c : ι) : Prog κ ρ' (ρ c) → Prop
  | .ret _ => False
  | .call k next => ∀ s r s', S.access k s r s' →
      (∃ a, A.access c s a s' ∧ next r = .ret a) ∨ (s' = s ∧ Commits S A c (next r))
  | .abort => True
  | .more => True

/-- Code that makes one access and commits at it. -/
theorem Commits.once {S : Shared κ ρ' σ} {A : Shared ι ρ σ} {c : ι} {k : κ}
    {f : ρ' k → Prog κ ρ' (ρ c)}
    (h : ∀ s r s', S.access k s r s' → ∃ a, A.access c s a s' ∧ f r = .ret a) :
    Commits S A c (perform k >>= f) :=
  fun s r s' hk => .inl (h s r s' hk)

/-- Code that first makes an access without effect. -/
theorem Commits.after {S : Shared κ ρ' σ} {A : Shared ι ρ σ} {c : ι} {k : κ}
    {f : ρ' k → Prog κ ρ' (ρ c)}
    (h : ∀ s r s', S.access k s r s' → s' = s ∧ Commits S A c (f r)) :
    Commits S A c (perform k >>= f) :=
  fun s r s' hk => .inr (h s r s' hk)

/-- A thread of the client is between two calls, or in a call that has not taken
effect. -/
inductive At (S : Shared κ ρ' σ) (A : Shared ι ρ σ) (impl : (c : ι) → Prog κ ρ' (ρ c)) :
    Prog κ ρ' α → Prog ι ρ α → Prop
  | between (p) : At S A impl (link impl p) p
  | within {c q} (next) (h : Commits S A c q) :
      At S A impl (q >>= fun r => link impl (next r)) (call c next)

section

variable [DecidableEq θ] {S : Shared κ ρ' σ} {A : Shared ι ρ σ}
  {impl : (c : ι) → Prog κ ρ' (ρ c)} {start : θ → Prog ι ρ α} {s : σ}

structure Refines (S : Shared κ ρ' σ) (A : Shared ι ρ σ) (impl : (c : ι) → Prog κ ρ' (ρ c))
    (X : Threads θ κ ρ' α σ) (Y : Threads θ ι ρ α σ) : Prop where
  shared : X.shared = Y.shared
  progs : ∀ t, At S A impl (X.prog t) (Y.prog t)

/-- An access of the code is made inside a call of the client. -/
theorem At.in_call (himpl : ∀ c, Commits S A c (impl c)) {k : κ}
    {next : ρ' k → Prog κ ρ' α} {p : Prog ι ρ α} (h : At S A impl (call k next) p) :
    ∃ c after q, p = call c after ∧ Commits S A c (call k q) ∧
      ∀ r, next r = q r >>= fun a => link impl (after a) := by
  have hwithin : ∀ {c : ι} {q : Prog κ ρ' (ρ c)} {after : ρ c → Prog ι ρ α},
      Commits S A c q → call k next = q >>= (fun r => link impl (after r)) →
      ∃ q', q = call k q' ∧ ∀ r, next r = q' r >>= fun a => link impl (after a) := by
    intro c q after hq heq
    cases q with
    | ret a => exact absurd hq id
    | call k' q' =>
        rw [call_bind] at heq
        injection heq with hk hnext
        subst hk
        exact ⟨q', rfl, fun r => congrFun (eq_of_heq hnext) r⟩
    | abort => cases heq
    | more => cases heq
  generalize hx : (call k next : Prog κ ρ' α) = x at h
  cases h with
  | between =>
      cases p with
      | ret a => cases hx
      | call c after =>
          obtain ⟨q, hq, hnext⟩ := hwithin (himpl c) hx
          exact ⟨c, after, q, rfl, hq ▸ himpl c, hnext⟩
      | abort => cases hx
      | more => cases hx
  | within after hq =>
      obtain ⟨q', rfl, hnext⟩ := hwithin hq hx
      exact ⟨_, after, q', rfl, hq, hnext⟩

/-- A thread of the code has returned only if its client has. -/
theorem At.of_ret (himpl : ∀ c, Commits S A c (impl c)) {a : α} {p : Prog ι ρ α}
    (h : At S A impl (ret a) p) : p = ret a := by
  have hwithin : ∀ {c : ι} {q : Prog κ ρ' (ρ c)} {after : ρ c → Prog ι ρ α},
      Commits S A c q → ret a ≠ q >>= (fun r => link impl (after r)) := by
    intro c q after hq heq
    cases q with
    | ret b => exact hq
    | call k q' => cases heq
    | abort => cases heq
    | more => cases heq
  generalize hx : (ret a : Prog κ ρ' α) = x at h
  cases h with
  | between =>
      cases p with
      | ret b => exact congrArg ret (Prog.ret.inj hx).symm
      | call c after => exact absurd hx (hwithin (himpl c))
      | abort => cases hx
      | more => cases hx
  | within after hq => exact absurd hx (hwithin hq)

/-- A step of the code is a step of the client, by the same thread, or none. -/
theorem Refines.step (himpl : ∀ c, Commits S A c (impl c)) {X X' : Threads θ κ ρ' α σ}
    {Y : Threads θ ι ρ α σ} (h : Refines S A impl X Y) (hstep : Step S X X') :
    ∃ Y', (Y' = Y ∨ Step A Y Y') ∧ Refines S A impl X' Y' := by
  cases hstep with
  | @access t k next r s' hprog ha =>
      obtain ⟨c, after, q, hY, hq, hnext⟩ := (hprog ▸ h.progs t).in_call himpl
      have hprogs : ∀ {f : θ → Prog ι ρ α}, (∀ u, u ≠ t → f u = Y.prog u) →
          At S A impl (next r) (f t) →
          ∀ u, At S A impl (Function.update X.prog t (next r) u) (f u) := by
        intro f hf ht u
        by_cases hut : u = t
        · subst hut
          rwa [Function.update_self]
        · rw [Function.update_of_ne hut, hf u hut]
          exact h.progs u
      rcases hq _ _ _ ha with ⟨a, hacc, hret⟩ | ⟨rfl, hq'⟩
      · refine ⟨_, .inr (.access hY (h.shared ▸ hacc)), rfl, hprogs ?_ ?_⟩
        · intro u hut
          exact Function.update_of_ne hut _ _
        · show At S A impl (next r) (Function.update Y.prog t (after a) t)
          rw [Function.update_self, hnext, hret]
          exact .between _
      · refine ⟨Y, .inl rfl, h.shared, hprogs (fun _ _ => rfl) ?_⟩
        rw [hnext, hY]
        exact .within _ hq'

theorem link_simulates (himpl : ∀ c, Commits S A c (impl c)) (start : θ → Prog ι ρ α) (s : σ) :
    (machine S (fun t => link impl (start t)) s).Simulates (machine A start s)
      (Refines S A impl) where
  init X hX := by
    obtain rfl := hX
    exact ⟨_, rfl, rfl, fun t => .between _⟩
  step X X' Y hR _ hstep := hR.step himpl hstep

/-- The calls of `h`, one after the other, are what the threads have done so far:
they lead to the shared state, and those of one thread are a run of its client to
where that thread is. -/
structure Linearized (S : Shared κ ρ' σ) (A : Shared ι ρ σ) (impl : (c : ι) → Prog κ ρ' (ρ c))
    (start : θ → Prog ι ρ α) (s : σ) (X : Threads θ κ ρ' α σ) (h : List (θ × Event ι ρ)) :
    Prop where
  replays : Replays A s h X.shared
  runs : ∀ t, ∃ p, Runs (start t) (made t h) p ∧ At S A impl (X.prog t) p

theorem Refines.linearized {X : Threads θ κ ρ' α σ} {Y : Threads θ ι ρ α σ}
    (h : Refines S A impl X Y) (hY : (machine A start s).Reachable Y) :
    Linearized S A impl start s X Y.log :=
  ⟨h.shared ▸ reachable_replays hY, fun t => ⟨_, reachable_runs hY t, h.progs t⟩⟩

theorem linearized_of_reachable (himpl : ∀ c, Commits S A c (impl c)) {X : Threads θ κ ρ' α σ}
    (hX : (machine S (fun t => link impl (start t)) s).Reachable X) :
    ∃ h, Linearized S A impl start s X h := by
  obtain ⟨Y, hY, hR⟩ := (link_simulates himpl start s).reachable hX
  exact ⟨Y.log, hR.linearized hY⟩

/-- Along a run the history of whole calls only grows. -/
theorem linearized_along (himpl : ∀ c, Commits S A c (impl c)) {X : Nat → Threads θ κ ρ' α σ}
    (hX : (machine S (fun t => link impl (start t)) s).Reachable (X 0))
    (hrun : ∀ n, X (n + 1) = X n ∨ Step S (X n) (X (n + 1))) :
    ∃ h : Nat → List (θ × Event ι ρ), (∀ i j, i ≤ j → h i <+: h j) ∧
      ∀ n, Linearized S A impl start s (X n) (h n) := by
  obtain ⟨Y₀, hY₀, hR₀⟩ := (link_simulates himpl start s).reachable hX
  have hgrow : ∀ n (Y : {Y // (machine A start s).Reachable Y ∧ Refines S A impl (X n) Y}),
      ∃ Y' : {Y // (machine A start s).Reachable Y ∧ Refines S A impl (X (n + 1)) Y},
        Y.1.log <+: Y'.1.log := by
    intro n ⟨Y, hY, hR⟩
    rcases hrun n with hstay | hstep
    · exact ⟨⟨Y, hY, hstay ▸ hR⟩, List.prefix_refl _⟩
    · obtain ⟨Y', hmatch, hR'⟩ := hR.step himpl hstep
      rcases hmatch with rfl | hmatch
      · exact ⟨⟨Y', hY, hR'⟩, List.prefix_refl _⟩
      · exact ⟨⟨Y', .step hY hmatch, hR'⟩, hmatch.log_prefix⟩
  choose grow hgrows using hgrow
  let states (n : Nat) : {Y // (machine A start s).Reachable Y ∧ Refines S A impl (X n) Y} :=
    n.rec ⟨Y₀, hY₀, hR₀⟩ grow
  refine ⟨fun n => (states n).1.log, fun i j hij => ?_, fun n => ?_⟩
  · induction hij with
    | refl => exact List.prefix_refl _
    | @step j _ ih => exact ih.trans (hgrows j (states j))
  · exact (states n).2.2.linearized (states n).2.1

end

end Threads
end CommSpeed
