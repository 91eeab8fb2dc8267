/-
The atomic operations of atomic.h.

Every function has an overload for words of 8, 16, 32 and 64 bits that differs in
nothing but the width, so the width `w` is a parameter here.  An overload is the
sequence of its accesses to memory: a `lock` instruction is one access, and the
argument `*pv` of `atomic_exchange` is an access of its own, made before the
loop.  `incq` and `decq` after `xaddq` only touch the register.

`Op.act` says what each function is for, in the words of its comment: the result
and the effect on the word, had no other thread been running.
-/
import CommSpeed.Prog.Threads
import Mathlib.Data.BitVec
import Mathlib.Tactic.Ring

namespace CommSpeed
namespace Atomic

open Prog Threads

/-- The words of one width, by address. -/
abbrev Memory (A : Type) (w : Nat) := A → BitVec w

/-- The accesses to memory, with the registers they use. -/
inductive Instr (A : Type) (w : Nat)
  | load (pv : A)
  | store (pv : A) (reg : BitVec w)
  | xadd (pv : A) (reg : BitVec w)
  | cmpxchg (pv : A) (eax reg : BitVec w)

/-- What an access leaves in the registers: `xadd` the old word, and `cmpxchg` the
register eax and the flag ZF. -/
abbrev Instr.Reply {A : Type} {w : Nat} : Instr A w → Type
  | load _ => BitVec w
  | store .. => Unit
  | xadd .. => BitVec w
  | cmpxchg .. => BitVec w × Bool

/-- What a client may do to a word. -/
inductive Op (A : Type) (w : Nat)
  | inc (pv : A)
  | dec (pv : A)
  | add (pv : A) (av : BitVec w)
  | exchange (pv : A) (nv : BitVec w)
  | compareExchange (pv : A) (nv cv : BitVec w)
  | read (pv : A)
  | write (pv : A) (v : BitVec w)
  deriving DecidableEq

namespace Op

variable {A : Type} {w : Nat}

def pv : Op A w → A
  | inc pv => pv
  | dec pv => pv
  | add pv _ => pv
  | exchange pv _ => pv
  | compareExchange pv _ _ => pv
  | read pv => pv
  | write pv _ => pv

/-- The result of a call on a word, and the word it leaves. -/
def act : Op A w → BitVec w → BitVec w × BitVec w
  | inc _, x => (x + 1, x + 1)
  | dec _, x => (x - 1, x - 1)
  | add _ av, x => (x, x + av)
  | exchange _ nv, x => (x, nv)
  | compareExchange _ nv cv, x => (x, if x = cv then nv else x)
  | read _, x => (x, x)
  | write _ v, _ => (v, v)

end Op

section

variable {A : Type} [DecidableEq A] {w : Nat}

def Instr.exec : (i : Instr A w) → Memory A w → i.Reply × Memory A w
  | .load pv, m => (m pv, m)
  | .store pv reg, m => ((), Function.update m pv reg)
  | .xadd pv reg, m => (m pv, Function.update m pv (m pv + reg))
  | .cmpxchg pv eax reg, m =>
    if m pv = eax then ((eax, true), Function.update m pv reg) else ((m pv, false), m)

/-- The effect and the result of a call that nothing interrupts. -/
def Op.apply (c : Op A w) (m : Memory A w) : BitVec w × Memory A w :=
  ((c.act (m c.pv)).1, Function.update m c.pv (c.act (m c.pv)).2)

def accesses : Shared (Instr A w) Instr.Reply (Memory A w) where
  access i m r m' := i.exec m = (r, m')

def atomically : Shared (Op A w) (fun _ => BitVec w) (Memory A w) where
  access c m r m' := c.apply m = (r, m')

end

section

variable {A : Type} {w : Nat}

def atomicInc (pv : A) : Prog (Instr A w) Instr.Reply (BitVec w) := do
  let res ← perform (Instr.xadd pv 1)
  return res + 1

def atomicDec (pv : A) : Prog (Instr A w) Instr.Reply (BitVec w) := do
  let res ← perform (Instr.xadd pv (BitVec.allOnes w))
  return res - 1

def atomicAdd (pv : A) (av : BitVec w) : Prog (Instr A w) Instr.Reply (BitVec w) := do
  let res ← perform (Instr.xadd pv av)
  return res

/-- The instructions from the label `1:` to `jne 1b`. -/
def retry (pv : A) (nv eax : BitVec w) :
    Prog (Instr A w) Instr.Reply (BitVec w ⊕ BitVec w) := do
  let (eax, zf) ← perform (Instr.cmpxchg pv eax nv)
  if zf then return .inr eax else return .inl eax

def atomicExchange (bound : Nat) (pv : A) (nv : BitVec w) :
    Prog (Instr A w) Instr.Reply (BitVec w) := do
  let res ← perform (Instr.load pv)
  iterate bound (retry pv nv) res

def atomicCompareExchange (pv : A) (nv cv : BitVec w) :
    Prog (Instr A w) Instr.Reply (BitVec w) := do
  let (res, _) ← perform (Instr.cmpxchg pv cv nv)
  return res

/-- The code of a call; reading and assigning a volatile word are single accesses. -/
def code (bound : Nat) : Op A w → Prog (Instr A w) Instr.Reply (BitVec w)
  | .inc pv => atomicInc pv
  | .dec pv => atomicDec pv
  | .add pv av => atomicAdd pv av
  | .exchange pv nv => atomicExchange bound pv nv
  | .compareExchange pv nv cv => atomicCompareExchange pv nv cv
  | .read pv => perform (Instr.load pv)
  | .write pv v => do
    perform (Instr.store pv v)
    return v

end

/-- The threads `start` running the code of atomic.h on the memory `m`. -/
abbrev threads {θ A α : Type} [DecidableEq θ] [DecidableEq A] {w : Nat} (bound : Nat)
    (start : θ → Prog (Op A w) (fun _ => BitVec w) α) (m : Memory A w) :
    TransitionSystem (Threads θ (Instr A w) Instr.Reply α (Memory A w)) :=
  machine accesses (fun t => link (code bound) (start t)) m

/-! ## Every call takes effect at one access -/

section

variable {A : Type} [DecidableEq A] {w : Nat}

theorem applies {c : Op A w} {m m' : Memory A w}
    (h : m' = Function.update m c.pv (c.act (m c.pv)).2) :
    atomically.access c m (c.act (m c.pv)).1 m' :=
  Prod.ext rfl h.symm

/-- A `cmpxchg` that succeeds stores the word, and one that fails changes nothing. -/
theorem exec_cmpxchg {pv : A} {eax reg : BitVec w} {m m' : Memory A w}
    {r : (Instr.cmpxchg pv eax reg).Reply} (h : accesses.access (.cmpxchg pv eax reg) m r m') :
    (m pv = eax ∧ r = (eax, true) ∧ m' = Function.update m pv reg) ∨
      (m pv ≠ eax ∧ r = (m pv, false) ∧ m' = m) := by
  simp only [accesses, Instr.exec] at h
  split at h
  · rename_i heq
    cases h
    exact .inl ⟨heq, rfl, rfl⟩
  · rename_i hne
    cases h
    exact .inr ⟨hne, rfl, rfl⟩

/-- A turn of the loop of `atomic_exchange` either makes the exchange, or changes
nothing and turns again. -/
theorem retry_commits (bound : Nat) (pv : A) (nv eax : BitVec w) :
    Commits accesses atomically (.exchange pv nv) (iterate bound (retry pv nv) eax) := by
  induction bound generalizing eax with
  | zero => trivial
  | succ n ih =>
      intro m r m' h
      obtain ⟨rfl, rfl, rfl⟩ | ⟨-, rfl, rfl⟩ := exec_cmpxchg h
      · exact .inl ⟨m pv, applies rfl, rfl⟩
      · exact .inr ⟨rfl, ih (m' pv)⟩

theorem code_commits (bound : Nat) (c : Op A w) :
    Commits accesses atomically c (code bound c) := by
  cases c with
  | inc pv =>
      refine .once fun m r m' h => ?_
      cases h
      exact ⟨m pv + 1, applies rfl, rfl⟩
  | dec pv =>
      refine .once fun m r m' h => ?_
      cases h
      refine ⟨m pv - 1, applies (congrArg (Function.update m pv) ?_), rfl⟩
      rw [← BitVec.neg_one_eq_allOnes, ← BitVec.sub_eq_add_neg]
      rfl
  | add pv av =>
      refine .once fun m r m' h => ?_
      cases h
      exact ⟨m pv, applies rfl, rfl⟩
  | exchange pv nv =>
      refine .after fun m r m' h => ?_
      cases h
      exact ⟨rfl, retry_commits bound pv nv (m pv)⟩
  | compareExchange pv nv cv =>
      refine .once fun m r m' h => ?_
      obtain ⟨rfl, rfl, rfl⟩ | ⟨hne, rfl, rfl⟩ := exec_cmpxchg h
      · exact ⟨m pv, applies (by simp [Op.act, Op.pv]), rfl⟩
      · refine ⟨m' pv, applies ?_, rfl⟩
        simp [Op.act, Op.pv, hne]
  | read pv =>
      refine .once fun m r m' h => ?_
      cases h
      exact ⟨m pv, applies (Function.update_eq_self pv m).symm, rfl⟩
  | write pv v =>
      refine .once fun m r m' h => ?_
      cases h
      exact ⟨v, applies rfl, rfl⟩

end

/-! ## Every run is a sequence of whole calls -/

section

variable {θ A α : Type} [DecidableEq θ] [DecidableEq A] {w : Nat}

/-- Along a run, finite or not, a history of whole calls grows that at each state
explains the memory and every result so far.  A thread that has returned returns
what the history says. -/
theorem atomic_linearizable (bound : Nat) (start : θ → Prog (Op A w) (fun _ => BitVec w) α)
    (m : Memory A w) {X : Nat → Threads θ (Instr A w) Instr.Reply α (Memory A w)}
    (hX : (threads bound start m).Reachable (X 0))
    (hrun : ∀ n, X (n + 1) = X n ∨ Threads.Step accesses (X n) (X (n + 1))) :
    ∃ h : Nat → List (θ × Event (Op A w) fun _ => BitVec w), (∀ i j, i ≤ j → h i <+: h j) ∧
      ∀ n, Linearized accesses atomically (code bound) start m (X n) (h n) ∧
        ∀ t a, (X n).prog t = ret a → Runs (start t) (made t (h n)) (ret a) := by
  obtain ⟨h, hgrows, hh⟩ := linearized_along (code_commits bound) hX hrun
  refine ⟨h, hgrows, fun n => ⟨hh n, fun t a hret => ?_⟩⟩
  obtain ⟨p, hruns, hat⟩ := (hh n).runs t
  rw [hret] at hat
  rwa [hat.of_ret (code_commits bound)] at hruns

end

/-! ## Two threads

Each makes one call on one byte; the schedule says whose access is next. -/

def contenders (c d : Op Unit 8) (t : Bool) : Prog (Op Unit 8) (fun _ => BitVec 8) (BitVec 8) :=
  perform (if t then d else c)

def executed (i : Instr Unit 8) (m : Memory Unit 8) : Option (i.Reply × Memory Unit 8) :=
  some (i.exec m)

def contend (bound : Nat) (c d : Op Unit 8) (m : Memory Unit 8) (ts : List Bool) :
    Threads Bool (Instr Unit 8) Instr.Reply (BitVec 8) (Memory Unit 8) :=
  schedule executed ⟨fun t => link (code bound) (contenders c d t), m, []⟩ ts

theorem executed_access (i : Instr Unit 8) (m : Memory Unit 8) (r : i.Reply) (m' : Memory Unit 8)
    (h : executed i m = some (r, m')) : accesses.access i m r m' := Option.some.inj h

theorem contend_reachable (bound : Nat) (c d : Op Unit 8) (m : Memory Unit 8) (ts : List Bool) :
    (threads bound (contenders c d) m).Reachable (contend bound c d m ts) :=
  reachable_of_steps (steps_schedule executed_access _ ts)

theorem contend_take (bound : Nat) (c d : Op Unit 8) (m : Memory Unit 8) (ts : List Bool)
    (n : Nat) :
    contend bound c d m (ts.take (n + 1)) = contend bound c d m (ts.take n) ∨
      Threads.Step accesses (contend bound c d m (ts.take n))
        (contend bound c d m (ts.take (n + 1))) := by
  rcases Nat.lt_or_ge n ts.length with hn | hn
  · rw [List.take_add_one, List.getElem?_eq_getElem hn, Option.toList_some, contend,
      schedule_concat]
    exact turn_stays_or_steps executed_access _ _
  · rw [List.take_of_length_le hn, List.take_of_length_le (Nat.le_succ_of_le hn)]
    exact .inl rfl

/-- Both exchanges read the byte before either has stored to it, and the later one
turns twice. -/
theorem atomic_linearizable_contended :
    ∃ h : Nat → List (Bool × Event (Op Unit 8) fun _ => BitVec 8), (∀ i j, i ≤ j → h i <+: h j) ∧
      ∀ n, Linearized accesses atomically (code 2) (contenders (.exchange () 1) (.exchange () 2))
          (fun _ => 0) (contend 2 (.exchange () 1) (.exchange () 2) (fun _ => 0)
            ([false, true, true, false, false].take n)) (h n) ∧
        ∀ t a, (contend 2 (.exchange () 1) (.exchange () 2) (fun _ => 0)
            ([false, true, true, false, false].take n)).prog t = ret a →
          Runs (contenders (.exchange () 1) (.exchange () 2) t) (made t (h n)) (ret a) :=
  atomic_linearizable 2 (contenders (.exchange () 1) (.exchange () 2)) (fun _ => 0)
    (contend_reachable 2 _ _ _ []) (contend_take 2 _ _ _ _)

example : (contend 2 (.exchange () 1) (.exchange () 2) (fun _ => 0)
    [false, true, true, false, false]).prog false = ret 2 := rfl

end Atomic
end CommSpeed
