/-
How often the loop of atomic_exchange turns.

A turn fails when the word is not what the thread last saw there, so another thread
has stored to it since.  The invariant of a thread in the loop pays one such store
for every turn it has made, and has one in hand when the word has changed again.
Hence a thread whose exchange turns on and on has seen as many stores by other
threads to that very word, all of them since its load: the threads as a whole
always make progress.
-/
import CommSpeed.Sync.Words

namespace CommSpeed
namespace Atomic

open Prog Threads

variable {θ A α : Type} {w : Nat} [DecidableEq A]

/-- Whether an access has stored to the word. -/
def stores (pv : A) : Event (Instr A w) Instr.Reply → Bool
  | ⟨.load _, _⟩ => false
  | ⟨.store p _, _⟩ => p = pv
  | ⟨.xadd p _, _⟩ => p = pv
  | ⟨.cmpxchg p _ _, (_, zf)⟩ => p = pv && zf

/-- The stores to `pv` by threads other than `t`. -/
def disturbances [DecidableEq θ] (t : θ) (pv : A)
    (log : List (θ × Event (Instr A w) Instr.Reply)) : Nat :=
  log.countP fun e => e.1 ≠ t && stores pv e.2

theorem access_unstored {pv : A} {i : Instr A w} {m m' : Memory A w} {r : i.Reply}
    (h : accesses.access i m r m') (hs : stores pv ⟨i, r⟩ = false) : m' pv = m pv := by
  cases i with
  | load p =>
      cases h
      rfl
  | store p reg =>
      cases h
      exact Function.update_of_ne (Ne.symm (of_decide_eq_false hs)) _ _
  | xadd p reg =>
      cases h
      exact Function.update_of_ne (Ne.symm (of_decide_eq_false hs)) _ _
  | cmpxchg p eax reg =>
      obtain ⟨-, rfl, rfl⟩ | ⟨-, rfl, rfl⟩ := exec_cmpxchg h
      · rw [stores, Bool.and_true] at hs
        exact Function.update_of_ne (Ne.symm (of_decide_eq_false hs)) _ _
      · rfl

/-- A `cmpxchg` that has not stored. -/
def fails : Event (Instr A w) Instr.Reply → Bool
  | ⟨.cmpxchg _ _ _, (_, zf)⟩ => !zf
  | _ => false

section

variable [DecidableEq θ] {bound : Nat} {pv : A} {nv : BitVec w}
  {next : BitVec w → Prog (Op A w) (fun _ => BitVec w) α} {t : θ}
  {X₀ X₁ X : Threads θ (Instr A w) Instr.Reply α (Memory A w)}

theorem disturbances_snoc (t u : θ) (pv : A) (log : List (θ × Event (Instr A w) Instr.Reply))
    (e : Event (Instr A w) Instr.Reply) : disturbances t pv (log ++ [(u, e)]) =
      disturbances t pv log + if u ≠ t ∧ stores pv e = true then 1 else 0 := by
  simp [disturbances, List.countP_append, List.countP_cons]

/-- The exchange of thread `t` after its load: it has left the loop, or it has the
last value it saw in eax and has made the turns of `since`, every one of them failed. -/
inductive Turning (bound : Nat) (pv : A) (nv : BitVec w)
    (next : BitVec w → Prog (Op A w) (fun _ => BitVec w) α) (t : θ)
    (X : Threads θ (Instr A w) Instr.Reply α (Memory A w))
    (since : List (θ × Event (Instr A w) Instr.Reply)) : Prop
  | left (e : Event (Instr A w) Instr.Reply) (hmade : e ∈ made t since)
      (hstored : fails e = false)
  | turning (n : Nat) (eax : BitVec w)
      (hprog : X.prog t = iterate n (retry pv nv) eax >>= fun r => link (code bound) (next r))
      (hpaid : (made t since).length ≤ disturbances t pv since)
      (hseen : X.shared pv = eax ∨ (made t since).length < disturbances t pv since)

/-- An access of another thread. -/
theorem Turning.other {u : θ} {i : Instr A w} {after : i.Reply → Prog (Instr A w) Instr.Reply α}
    {r : i.Reply} {m' : Memory A w} {since log : List (θ × Event (Instr A w) Instr.Reply)}
    (h : Turning bound pv nv next t X since) (hut : u ≠ t)
    (ha : accesses.access i X.shared r m') :
    Turning bound pv nv next t ⟨Function.update X.prog u (after r), m', log⟩
      (since ++ [(u, ⟨i, r⟩)]) := by
  have hmade : made t (since ++ [(u, ⟨i, r⟩)]) = made t since := by
    rw [made_append, made_other hut, List.append_nil]
  cases h with
  | left e he hstored => exact .left e (hmade ▸ he) hstored
  | turning n eax hprog hpaid hseen =>
      refine .turning n eax ((Function.update_of_ne (Ne.symm hut) _ _).trans hprog) ?_ ?_
      · rw [hmade, disturbances_snoc]
        omega
      · rw [hmade, disturbances_snoc]
        by_cases hs : stores pv ⟨i, r⟩ = true
        · rw [if_pos ⟨hut, hs⟩]
          exact .inr (by omega)
        · rw [if_neg fun h => hs h.2]
          show m' pv = eax ∨ _
          rw [access_unstored ha (Bool.eq_false_iff.mpr hs)]
          exact hseen

/-- The thread's own access. -/
theorem Turning.own {i : Instr A w} {after : i.Reply → Prog (Instr A w) Instr.Reply α}
    {r : i.Reply} {m' : Memory A w} {since log : List (θ × Event (Instr A w) Instr.Reply)}
    (h : Turning bound pv nv next t X since) (hprog : X.prog t = .call i after)
    (ha : accesses.access i X.shared r m') :
    Turning bound pv nv next t ⟨Function.update X.prog t (after r), m', log⟩
      (since ++ [(t, ⟨i, r⟩)]) := by
  have hmade : made t (since ++ [(t, ⟨i, r⟩)]) = made t since ++ [⟨i, r⟩] := by
    rw [made_append, made_self]
  have hcount : disturbances t pv (since ++ [(t, ⟨i, r⟩)]) = disturbances t pv since := by
    rw [disturbances_snoc, if_neg fun h => h.1 rfl, Nat.add_zero]
  cases h with
  | left e he hstored => exact .left e (hmade ▸ List.mem_append_left _ he) hstored
  | turning n eax hloop hpaid hseen =>
      rw [hprog] at hloop
      cases n with
      | zero => cases hloop
      | succ n =>
          cases hloop
          obtain ⟨-, rfl, rfl⟩ | ⟨hne, rfl, rfl⟩ := exec_cmpxchg ha
          · exact .left _ (hmade ▸ List.mem_append_right _ (List.mem_singleton_self _)) rfl
          · -- the word has changed since the thread saw it, so a store is in hand
            have hpaid' := hseen.resolve_left hne
            refine .turning n _ (Function.update_self _ _ _) ?_ (.inl rfl)
            rw [hmade, hcount, List.length_append]
            exact hpaid'

theorem turning_of_load {v : BitVec w}
    (hcall : X₀.prog t = link (code bound) (.call (.exchange pv nv) next))
    (hload : Threads.Step accesses X₀ X₁) (hlog : X₁.log = X₀.log ++ [(t, ⟨.load pv, v⟩)]) :
    Turning bound pv nv next t X₁ [] := by
  cases hload with
  | @access u i after r m' hprog ha =>
      obtain ⟨rfl, he⟩ := Prod.mk.inj (List.singleton_inj.mp (List.append_cancel_left hlog))
      cases he
      cases hcall.symm.trans hprog
      cases ha
      exact .turning bound _ (Function.update_self _ _ _) (Nat.zero_le _) (.inl rfl)

theorem turning_of_run (h : Turning bound pv nv next t X₁ [])
    (hrun : Relation.ReflTransGen (Threads.Step accesses) X₁ X) :
    ∃ since, X.log = X₁.log ++ since ∧ Turning bound pv nv next t X since := by
  induction hrun with
  | refl => exact ⟨[], (List.append_nil _).symm, h⟩
  | tail _ hstep ih =>
      obtain ⟨since, hlog, hturning⟩ := ih
      cases hstep with
      | @access u i after r m' hprog ha =>
          refine ⟨since ++ [(u, ⟨i, r⟩)], ?_, ?_⟩
          · rw [hlog, List.append_assoc]
          · by_cases hut : u = t
            · subst hut
              exact hturning.own hprog ha
            · exact hturning.other hut ha

/-- Since its load, an exchange has seen at least as many stores to its word by other
threads as it has made turns without success. -/
theorem exchange_retries {v : BitVec w} {since : List (θ × Event (Instr A w) Instr.Reply)}
    (hcall : X₀.prog t = link (code bound) (.call (.exchange pv nv) next))
    (hload : Threads.Step accesses X₀ X₁) (hlog : X₁.log = X₀.log ++ [(t, ⟨.load pv, v⟩)])
    (hrun : Relation.ReflTransGen (Threads.Step accesses) X₁ X) (hsince : X.log = X₁.log ++ since)
    (hfails : ∀ e ∈ made t since, fails e = true) :
    (made t since).length ≤ disturbances t pv since := by
  obtain ⟨since', hlog', h⟩ := turning_of_run (turning_of_load hcall hload hlog) hrun
  obtain rfl := List.append_cancel_left (hsince.symm.trans hlog')
  cases h with
  | left e he hstored => exact absurd (hfails e he) (Bool.eq_false_iff.mp hstored)
  | turning n eax _ hpaid _ => exact hpaid

end

/-- The first thread has loaded the byte; the second makes its whole exchange, and the
first then turns once without success. -/
def overtaken : List (Bool × Event (Instr Unit 8) Instr.Reply) :=
  [(true, ⟨.load (), 0⟩), (true, ⟨.cmpxchg () 0 2, (0, true)⟩),
    (false, ⟨.cmpxchg () 0 1, (2, false)⟩)]

theorem exchange_retries_overtaken :
    (made false overtaken).length ≤ disturbances false () overtaken := by
  have hcall : (contend 2 (.exchange () 1) (.exchange () 2) (fun _ => 0) []).prog false =
      link (code 2) (.call (.exchange () 1) .ret) := rfl
  have hload : Threads.Step accesses (contend 2 (.exchange () 1) (.exchange () 2) (fun _ => 0) [])
      (contend 2 (.exchange () 1) (.exchange () 2) (fun _ => 0) [false]) :=
    .access hcall rfl
  have hlog : (contend 2 (.exchange () 1) (.exchange () 2) (fun _ => 0) [false]).log =
      (contend 2 (.exchange () 1) (.exchange () 2) (fun _ => 0) []).log ++
        [(false, ⟨.load (), 0⟩)] := rfl
  exact exchange_retries hcall hload hlog
    (steps_schedule executed_access _ [true, true, false]) rfl (by decide)

end Atomic
end CommSpeed
