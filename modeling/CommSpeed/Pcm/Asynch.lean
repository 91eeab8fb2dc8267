/-
AsynchronCounterState of cpuasynchcounter.h: snapshots of all counters, taken in
the background.

The object keeps two snapshots of every core, every socket and the system, here the
slots.  The update thread replaces the older snapshot by the newer one and takes a
new one, slot by slot under the mutex, and the accessors read the two snapshots of
a slot under the mutex.  The state also keeps all snapshots ever taken, oldest
first, which the program does not see.  The constructor takes two of every core and
socket and none of the system, whose states are the default until it is updated.

Every accessor sees two consecutive snapshots, and between two updates all of them
see snapshots of the same age, however the threads are interleaved.
-/
import CommSpeed.Prog.Mutex
import Mathlib.Data.List.Basic
import Mathlib.Data.List.Nodup

namespace CommSpeed
namespace Pcm

open Prog Shared Threads

/-- What a snapshot is taken of. -/
inductive Slot
  | core (i : Nat)
  | socket (i : Nat)
  | system
  deriving DecidableEq

/-- The states of cores, sockets and the system. -/
abbrev Slot.State (K S Y : Type) : Slot → Type
  | .core _ => K
  | .socket _ => S
  | .system => Y

structure AsynchronCounterState (K S Y : Type) where
  states1 : (x : Slot) → x.State K S Y
  states2 : (x : Slot) → x.State K S Y
  samples : (x : Slot) → List (x.State K S Y)

namespace AsynchronCounterState

variable {K S Y : Type}

inductive Access (K S Y : Type)
  | load1 (x : Slot)
  | load2 (x : Slot)
  | store1 (x : Slot) (v : x.State K S Y)
  | store2 (x : Slot) (v : x.State K S Y)
  | sample (x : Slot)

abbrev Access.Reply : Access K S Y → Type
  | .load1 x => x.State K S Y
  | .load2 x => x.State K S Y
  | .store1 .. => Unit
  | .store2 .. => Unit
  | .sample x => x.State K S Y

/-- The slots of a machine. -/
def slots (numCores numSockets : Nat) : List Slot :=
  (List.range numCores).map .core ++ ((List.range numSockets).map .socket ++ [.system])

def sampled (s : AsynchronCounterState K S Y) (x : Slot) (v : x.State K S Y) :
    AsynchronCounterState K S Y :=
  { s with samples := Function.update s.samples x (s.samples x ++ [v]) }

/-- Accesses beyond the arrays have no behaviour here.  A sample may be anything. -/
def fields (numCores numSockets : Nat) :
    Shared (Access K S Y) Access.Reply (AsynchronCounterState K S Y) where
  access
    | .load1 x, s, r, s' => x ∈ slots numCores numSockets ∧ r = s.states1 x ∧ s' = s
    | .load2 x, s, r, s' => x ∈ slots numCores numSockets ∧ r = s.states2 x ∧ s' = s
    | .store1 x v, s, _, s' =>
      x ∈ slots numCores numSockets ∧ s' = { s with states1 := Function.update s.states1 x v }
    | .store2 x v, s, _, s' =>
      x ∈ slots numCores numSockets ∧ s' = { s with states2 := Function.update s.states2 x v }
    | .sample x, s, r, s' => s' = s.sampled x r

/-- What the constructor leaves: two samples of every core and socket, and none of
the system, whose two states are the `default` of their class. -/
def construct (cores1 cores2 : Nat → K) (sockets1 sockets2 : Nat → S) (default : Y) :
    AsynchronCounterState K S Y where
  states1
    | .core i => cores1 i
    | .socket i => sockets1 i
    | .system => default
  states2
    | .core i => cores2 i
    | .socket i => sockets2 i
    | .system => default
  samples
    | .core i => [cores1 i, cores2 i]
    | .socket i => [sockets1 i, sockets2 i]
    | .system => []

/-- The states of a slot that were there without a sample. -/
def unsampled (default : Y) : (x : Slot) → List (x.State K S Y)
  | .core _ => []
  | .socket _ => []
  | .system => [default, default]

/-! ## The program -/

/-- `states1[x] = states2[x]; states2[x] = m->get…CounterState(x)`. -/
def refresh (x : Slot) : Prog (Access K S Y) Access.Reply Unit := do
  let old ← perform (Access.load2 x)
  perform (Access.store1 x old)
  let new ← perform (Access.sample x)
  perform (Access.store2 x new)

def refreshAll : List Slot → Prog (Access K S Y) Access.Reply Unit
  | [] => return ()
  | x :: xs => do
    refresh x
    refreshAll xs

/-- An iteration of `UpdateCounters` between locking and unlocking. -/
def update (numCores numSockets : Nat) : Prog (Access K S Y) Access.Reply Unit := do
  refreshAll ((List.range numCores).map .core)
  refreshAll ((List.range numSockets).map .socket)
  refresh .system

/-- The two snapshots that an accessor passes on. -/
def snapshots (x : Slot) :
    Prog (Access K S Y) Access.Reply (x.State K S Y × x.State K S Y) := do
  let before ← perform (Access.load1 x)
  let after ← perform (Access.load2 x)
  return (before, after)

inductive Op
  | update
  | snapshots (x : Slot)

abbrev Op.Reply (K S Y : Type) : Op → Type
  | .update => Unit
  | .snapshots x => x.State K S Y × x.State K S Y

def body (numCores numSockets : Nat) :
    (o : Op) → Prog (Access K S Y) Access.Reply (o.Reply K S Y)
  | .update => update numCores numSockets
  | .snapshots x => snapshots x

/-- `UpdateCounters`; sleeping is not a call here. -/
def updateCounters (n : Nat) : Prog Op (Op.Reply K S Y) Unit :=
  iterate n (fun _ => do
    perform Op.update
    return Sum.inl ()) ()

def get {T : Type} (func : K → K → T) (core : Nat) : Prog Op (Op.Reply K S Y) T := do
  let (before, after) ← perform (Op.snapshots (.core core))
  return func before after

def getSocket {T : Type} (func : S → S → T) (socket : Nat) : Prog Op (Op.Reply K S Y) T := do
  let (before, after) ← perform (Op.snapshots (.socket socket))
  return func before after

def getSystem {T : Type} (func : Y → Y → T) : Prog Op (Op.Reply K S Y) T := do
  let (before, after) ← perform (Op.snapshots .system)
  return func before after

/-! ## One update -/

variable {numCores numSockets : Nat} {s s' s'' : AsynchronCounterState K S Y}

/-- The slot `x` has got a new snapshot. -/
structure Refreshed (x : Slot) (s s' : AsynchronCounterState K S Y) : Prop where
  states1 : s'.states1 x = s.states2 x
  samples : s'.samples x = s.samples x ++ [s'.states2 x]

/-- The slot `x` is as it was. -/
structure Kept (x : Slot) (s s' : AsynchronCounterState K S Y) : Prop where
  states1 : s'.states1 x = s.states1 x
  states2 : s'.states2 x = s.states2 x
  samples : s'.samples x = s.samples x

theorem takes_refresh {x : Slot}
    (h : (fields numCores numSockets).Takes (refresh x) s (ret ()) s') :
    Refreshed x s s' ∧ ∀ y, y ≠ x → Kept y s s' := by
  obtain ⟨_, _, ⟨-, rfl, rfl⟩, h⟩ := takes_perform h
  obtain ⟨_, _, ⟨-, rfl⟩, h⟩ := takes_perform h
  obtain ⟨v, _, rfl, h⟩ := takes_perform h
  obtain ⟨-, rfl⟩ := takes_last h
  constructor
  · constructor
    · exact Function.update_self _ _ _
    · simp [sampled]
  · intro y hy
    constructor
    · exact Function.update_of_ne hy _ _
    · exact Function.update_of_ne hy _ _
    · exact Function.update_of_ne hy _ _

theorem Refreshed.kept {x : Slot} (h : Refreshed x s s') (h' : Kept x s' s'') :
    Refreshed x s s'' :=
  ⟨h'.states1.trans h.states1, by rw [h'.samples, h'.states2, h.samples]⟩

theorem Kept.refreshed {x : Slot} (h : Kept x s s') (h' : Refreshed x s' s'') :
    Refreshed x s s'' :=
  ⟨h'.states1.trans h.states2, by rw [h'.samples, h.samples]⟩

theorem Kept.trans {x : Slot} (h : Kept x s s') (h' : Kept x s' s'') : Kept x s s'' :=
  ⟨h'.states1.trans h.states1, h'.states2.trans h.states2, h'.samples.trans h.samples⟩

theorem takes_refreshAll {xs : List Slot} (hxs : xs.Nodup)
    (h : (fields numCores numSockets).Takes (refreshAll xs) s (ret ()) s') :
    (∀ x ∈ xs, Refreshed x s s') ∧ ∀ x, x ∉ xs → Kept x s s' := by
  induction xs generalizing s with
  | nil =>
      obtain ⟨-, rfl⟩ := takes_ret h
      exact ⟨by simp, fun x _ => ⟨rfl, rfl, rfl⟩⟩
  | cons x xs ih =>
      obtain ⟨hx, hnodup⟩ := List.nodup_cons.mp hxs
      obtain ⟨_, s₁, hfirst, h⟩ := takes_bind h
      obtain ⟨hnew, hkept⟩ := takes_refresh hfirst
      obtain ⟨hrest, hout⟩ := ih hnodup h
      constructor
      · intro y hy
        rcases List.mem_cons.mp hy with rfl | hy
        · exact hnew.kept (hout y hx)
        · exact (hkept y fun heq => hx (heq ▸ hy)).refreshed (hrest y hy)
      · intro y hy
        obtain ⟨hne, hnot⟩ := not_or.mp (mt List.mem_cons.mpr hy)
        exact (hkept y hne).trans (hout y hnot)

theorem refreshAll_append (xs ys : List Slot) :
    (refreshAll (xs ++ ys) : Prog (Access K S Y) Access.Reply Unit) =
      refreshAll xs >>= fun _ => refreshAll ys := by
  induction xs with
  | nil => rfl
  | cons x xs ih =>
      rw [List.cons_append, refreshAll, ih, refreshAll, bind_assoc]

theorem refreshAll_singleton (x : Slot) :
    (refreshAll [x] : Prog (Access K S Y) Access.Reply Unit) = refresh x := rfl

/-- An update goes through all the slots. -/
theorem update_eq : (update numCores numSockets : Prog (Access K S Y) Access.Reply Unit) =
    refreshAll (slots numCores numSockets) := by
  rw [slots, refreshAll_append, refreshAll_append, refreshAll_singleton]
  rfl

theorem slots_nodup : (slots numCores numSockets).Nodup := by
  have hcores : ((List.range numCores).map Slot.core).Nodup :=
    List.nodup_range.map fun _ _ h => Slot.core.inj h
  have hsockets : ((List.range numSockets).map Slot.socket).Nodup :=
    List.nodup_range.map fun _ _ h => Slot.socket.inj h
  refine hcores.append (hsockets.append (List.nodup_singleton _) ?_) ?_
  · simp
  · simp [List.disjoint_left]

theorem takes_snapshots {x : Slot} {r : x.State K S Y × x.State K S Y}
    (h : (fields numCores numSockets).Takes (snapshots x) s (ret r) s') :
    s' = s ∧ x ∈ slots numCores numSockets ∧ r = (s.states1 x, s.states2 x) := by
  obtain ⟨_, _, ⟨hx, rfl, rfl⟩, h⟩ := takes_perform h
  obtain ⟨_, _, ⟨-, rfl, rfl⟩, h⟩ := takes_perform h
  obtain ⟨rfl, rfl⟩ := takes_ret h
  exact ⟨rfl, hx, rfl⟩

/-! ## All updates and accessors -/

/-- Every slot keeps its two latest states, and has had `n` since the first two. -/
def Aligned (default : Y) (numCores numSockets n : Nat) (s : AsynchronCounterState K S Y) :
    Prop :=
  ∀ x ∈ slots numCores numSockets, ∃ l : List (x.State K S Y),
    unsampled default x ++ s.samples x = l ++ [s.states1 x, s.states2 x] ∧ l.length = n

/-- The updates in a history. -/
def updates {θ : Type} (h : List (θ × Event Op (Op.Reply K S Y))) : Nat :=
  h.countP fun e => match e.2.call with
    | .update => true
    | .snapshots _ => false

section

variable {θ : Type} {h : List (θ × Event Op (Op.Reply K S Y))} {cores1 cores2 : Nat → K}
  {sockets1 sockets2 : Nat → S} {default : Y}

theorem construct_aligned :
    Aligned default numCores numSockets 0
      (construct cores1 cores2 sockets1 sockets2 default) := by
  intro x _
  cases x with
  | core i => exact ⟨[], rfl, rfl⟩
  | socket i => exact ⟨[], rfl, rfl⟩
  | system => exact ⟨[], rfl, rfl⟩

theorem replays_aligned (hr : Replays ((fields numCores numSockets).whole
      (body numCores numSockets)) (construct cores1 cores2 sockets1 sockets2 default) h s) :
    Aligned default numCores numSockets (updates h) s := by
  induction hr with
  | nil => exact construct_aligned
  | @snoc h s t c r s' _ ha ih =>
      rw [updates, List.countP_append]
      intro x hx
      obtain ⟨l, hl, hlen⟩ := ih x hx
      cases c with
      | update =>
          have htakes : (fields numCores numSockets).Takes (update numCores numSockets) s
            (ret ()) s' := ha
          rw [update_eq] at htakes
          have hnew := (takes_refreshAll slots_nodup htakes).1 x hx
          refine ⟨l ++ [s.states1 x], ?_, ?_⟩
          · rw [hnew.samples, hnew.states1, ← List.append_assoc, hl]
            simp
          · rw [List.length_append, hlen]
            rfl
      | snapshots y =>
          obtain ⟨rfl, -, -⟩ := takes_snapshots ha
          exact ⟨l, hl, hlen⟩

theorem access_samples {c : Access K S Y} {r : c.Reply}
    (ha : (fields numCores numSockets).access c s r s') (x : Slot) :
    s.samples x <+: s'.samples x := by
  cases c with
  | load1 y =>
      obtain ⟨-, -, rfl⟩ := ha
      exact List.prefix_refl _
  | load2 y =>
      obtain ⟨-, -, rfl⟩ := ha
      exact List.prefix_refl _
  | store1 y v =>
      obtain ⟨-, rfl⟩ := ha
      exact List.prefix_refl _
  | store2 y v =>
      obtain ⟨-, rfl⟩ := ha
      exact List.prefix_refl _
  | sample y =>
      obtain rfl := ha
      by_cases hy : x = y
      · subst hy
        simp [sampled]
      · simp [sampled, Function.update_of_ne hy]

theorem replays_samples {ops : Shared Op (Op.Reply K S Y) (AsynchronCounterState K S Y)}
    (hops : ops = (fields numCores numSockets).whole (body numCores numSockets))
    (hr : Replays ops s h s') (x : Slot) : s.samples x <+: s'.samples x := by
  induction hr with
  | nil => exact List.prefix_refl _
  | snoc _ ha ih =>
      subst hops
      refine ih.trans (Takes.relates (R := fun s s' => s.samples x <+: s'.samples x) ha ?_ ?_)
      · intro s
        exact List.prefix_refl _
      · intro c s₁ r s₂ s₃ hc hR
        exact (access_samples hc x).trans hR

/-! ## The result -/

variable {α : Type} [DecidableEq θ] {start : θ → Prog Op (Op.Reply K S Y) α}
  {X : Threads θ (Guarded (Access K S Y)) (Guarded.Reply Access.Reply) α
    (Bool × AsynchronCounterState K S Y)}

/-- After `k` updates every accessor of every slot sees the states number `k` and
`k + 1` of that slot, whatever the update thread is doing.  For the cores and sockets
all of them are samples; for the system the first two are the default. -/
theorem asynch_consistent
    (hX : (exclusive (fields numCores numSockets) (body numCores numSockets) start
      (construct cores1 cores2 sockets1 sockets2 default)).Reachable X) :
    ∃ h s, Serialized (fields numCores numSockets) (body numCores numSockets) start
        (construct cores1 cores2 sockets1 sockets2 default) X h s ∧
      ∀ before t x r after, h = before ++ (t, ⟨.snapshots x, r⟩) :: after →
        (unsampled default x ++ X.shared.2.samples x)[updates before]? = some r.1 ∧
        (unsampled default x ++ X.shared.2.samples x)[updates before + 1]? = some r.2 := by
  obtain ⟨h, s, hser⟩ := serialized_of_reachable hX
  refine ⟨h, s, hser, ?_⟩
  rintro before t x r after rfl
  obtain ⟨s₁, s₂, hbefore, hsnap, hafter⟩ := hser.replays.split
  obtain ⟨rfl, hx, rfl⟩ := takes_snapshots hsnap
  obtain ⟨l, hl, hlen⟩ := replays_aligned hbefore x hx
  have hall : s₂.samples x <+: X.shared.2.samples x :=
    (replays_samples rfl hafter x).trans
      (hser.relates (R := fun s s' => s.samples x <+: s'.samples x) (fun _ => List.prefix_refl _)
        fun c s₁ r s₂ s₃ hc hR => (access_samples hc x).trans hR)
  obtain ⟨rest, hrest⟩ := hall
  rw [← hrest, ← List.append_assoc, hl, ← hlen]
  simp

end

/-! ## A reader and the update thread

Of a machine with one core and one socket, whose states are numbers. -/

def reading : (x : Slot) → x.State Nat Nat Nat
  | .core _ => 7
  | .socket _ => 8
  | .system => 9

def answer : (c : Guarded (Access Nat Nat Nat)) → Bool × AsynchronCounterState Nat Nat Nat →
    Option (Guarded.Reply Access.Reply c × (Bool × AsynchronCounterState Nat Nat Nat))
  | .lock, (held, s) => if held then none else some ((), true, s)
  | .unlock, (_, s) => some ((), false, s)
  | .access (.load1 x), (held, s) =>
    if x ∈ slots 1 1 then some (s.states1 x, held, s) else none
  | .access (.load2 x), (held, s) =>
    if x ∈ slots 1 1 then some (s.states2 x, held, s) else none
  | .access (.store1 x v), (held, s) =>
    if x ∈ slots 1 1 then
      some ((), held, { s with states1 := Function.update s.states1 x v })
    else none
  | .access (.store2 x v), (held, s) =>
    if x ∈ slots 1 1 then
      some ((), held, { s with states2 := Function.update s.states2 x v })
    else none
  | .access (.sample x), (held, s) => some (reading x, held, s.sampled x (reading x))

theorem answer_access (c : Guarded (Access Nat Nat Nat))
    (x : Bool × AsynchronCounterState Nat Nat Nat) (r : Guarded.Reply Access.Reply c)
    (x' : Bool × AsynchronCounterState Nat Nat Nat) (h : answer c x = some (r, x')) :
    (fields 1 1).guarded.access c x r x' := by
  obtain ⟨held, s⟩ := x
  cases c with
  | lock =>
      cases held with
      | true => cases h
      | false =>
          cases h
          exact ⟨rfl, rfl⟩
  | unlock =>
      cases h
      rfl
  | access c =>
      cases c with
      | load1 x =>
          obtain ⟨hx, h⟩ := Option.ite_none_right_eq_some.mp h
          cases h
          exact ⟨rfl, hx, rfl, rfl⟩
      | load2 x =>
          obtain ⟨hx, h⟩ := Option.ite_none_right_eq_some.mp h
          cases h
          exact ⟨rfl, hx, rfl, rfl⟩
      | store1 x v =>
          obtain ⟨hx, h⟩ := Option.ite_none_right_eq_some.mp h
          cases h
          exact ⟨rfl, hx, rfl⟩
      | store2 x v =>
          obtain ⟨hx, h⟩ := Option.ite_none_right_eq_some.mp h
          cases h
          exact ⟨rfl, hx, rfl⟩
      | sample x =>
          cases h
          exact ⟨rfl, rfl⟩

/-- The thread `true` updates for ever, the thread `false` reads the core. -/
def readers (t : Bool) : Prog Op (Op.Reply Nat Nat Nat) Nat :=
  if t then updateCounters 5 >>= fun _ => return 0 else get (fun _ after => after) 0

/-- One whole update, a read that has to wait for it, and part of the next update. -/
def watched : Threads Bool (Guarded (Access Nat Nat Nat)) (Guarded.Reply Access.Reply) Nat
    (Bool × AsynchronCounterState Nat Nat Nat) :=
  schedule answer
    ⟨fun t => link (fun o => critical (body 1 1 o)) (readers t),
      (false, construct (fun _ => 1) (fun _ => 2) (fun _ => 3) (fun _ => 4) 0), []⟩
    ([true, true, false] ++ List.replicate 12 true ++ [false, false, false, false] ++
      List.replicate 4 true)

theorem watched_reachable : (exclusive (fields 1 1) (body 1 1) readers
    (construct (fun _ => 1) (fun _ => 2) (fun _ => 3) (fun _ => 4) 0)).Reachable watched :=
  reachable_of_steps (steps_schedule answer_access _ _)

example : (watched.prog false).result = some 7 := by decide +kernel

theorem asynch_consistent_watched :
    ∃ h s, Serialized (fields 1 1) (body 1 1) readers
        (construct (fun _ => 1) (fun _ => 2) (fun _ => 3) (fun _ => 4) 0) watched h s ∧
      ∀ before t x r after, h = before ++ (t, ⟨.snapshots x, r⟩) :: after →
        (unsampled 0 x ++ watched.shared.2.samples x)[updates before]? = some r.1 ∧
        (unsampled 0 x ++ watched.shared.2.samples x)[updates before + 1]? = some r.2 :=
  asynch_consistent watched_reachable

end AsynchronCounterState
end Pcm
end CommSpeed
