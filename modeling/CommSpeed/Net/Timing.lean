/-
What `clientThread` measures.

The calls to `MyClock` are taken apart into readings of the clock of the system: the
client then is a program over `gettimeofday` and the calls of the network, with the
stopwatch as its state.  Seen from below the readings alternately open and close an
interval.  The client reads and writes only inside an interval and does everything
else outside, and the figures that it prints are the sum of the intervals, modulo 2^64,
and its quotient by the number of iterations.
-/
import CommSpeed.Clc.MyClock
import CommSpeed.Net.Network
import CommSpeed.Prog.Interpret

namespace CommSpeed
namespace Net

open Bytes Prog Clc

inductive SysCall
  | gettimeofday
  | net (c : Call)

@[reducible] def SysReply : SysCall → Type
  | .gettimeofday => Timeval
  | .net c => Reply c

abbrev SysP := Prog SysCall SysReply

abbrev below (c : SysCall) : SysP (SysReply c) := perform c

/-- The methods of the clock that `getInstance` returns. -/
def clock : (c : Call) → MyClock → SysP (Reply c × MyClock)
  | .clockBegin, m => do
    let now ← below .gettimeofday
    return ((), m.begin now)
  | .clockStop, m => do
    let now ← below .gettimeofday
    return ((), m.stop now)
  | .clockResume, m => do
    let now ← below .gettimeofday
    return ((), m.resume now)
  | .getTimeByUSec, m => return (m.getTimeByUSec, m)
  | c, m => do
    let r ← below (.net c)
    return (r, m)

/-- `clientThread` on a clock that holds anything. -/
def timedClient (n : Nat) (fresh : Vector UInt8 64) (m : MyClock) : SysP (Int × MyClock) :=
  interpret clock (clientThread n fresh) m

/-! ## The intervals between the readings -/

/-- The interval that is open, and the number and the sum of those that have been
closed. -/
structure Intervals where
  since : Option Int := none
  closed : Nat := 0
  total : Int := 0

def Intervals.read (w : Intervals) (now : Int) : Intervals :=
  match w.since with
  | none => { w with since := some now }
  | some start => { since := none, closed := w.closed + 1, total := w.total + (now - start) }

/-- Reads and writes fall into the intervals and nothing else does, and the figures are
those of the intervals: one for `begin` and one for each iteration. -/
def measured (n : Nat) (w : Intervals) : Call → Prop
  | .write .. | .read .. => w.since ≠ none
  | .print (.timeCost usec) => w.since = none ∧ w.closed = n + 1 ∧ usec = long w.total
  | .print (.timePerCase usec) =>
    w.since = none ∧ w.closed = n + 1 ∧ usec = (long w.total).tdiv n
  | _ => w.since = none

def measuring (n : Nat) : Monitor SysCall SysReply Intervals where
  legal _ _ _ := True
  ok
    | w, .net c, _ => measured n w c
    | _, .gettimeofday, _ => True
  next
    | w, .gettimeofday, now => w.read now.usec
    | w, .net _, _ => w

/-! ## The order of the calls -/

/-- Where the client is with its clock: how often it has stopped it, and what
`getTimeByUSec` has returned since. -/
inductive Stage
  | before
  | running (stops : Nat)
  | stopped (stops : Nat) (shown : Option Int)

/-- The calls that are in order at a stage. -/
def inOrder (n : Nat) : Stage → Call → Prop
  | .before, .clockBegin | .stopped .., .clockResume | .running _, .clockStop
  | .stopped .., .getTimeByUSec | .running _, .write .. | .running _, .read .. => True
  | .stopped stops shown, .print (.timeCost usec) => stops = n + 1 ∧ shown = some usec
  | .stopped stops shown, .print (.timePerCase usec) =>
    stops = n + 1 ∧ ∃ u, shown = some u ∧ usec = u.tdiv n
  | .before, .print line | .stopped .., .print line =>
    line = .connectError ∨ line = .connected ∨ line = .recvError
  | .before, .socket | .before, .connect .. | .stopped .., .close .. => True
  | _, _ => False

def ordering (n : Nat) : Monitor Call Reply Stage where
  legal _ _ _ := True
  ok m c _ := inOrder n m c
  next
    | _, .clockBegin, _ => .running 0
    | .stopped stops _, .clockResume, _ => .running stops
    | .running stops, .clockStop, _ => .stopped (stops + 1) none
    | .stopped stops _, .getTimeByUSec, usec => .stopped stops (some usec)
    | m, _, _ => m

section

variable {n k stops : Nat} {fd : Int} {buf : List UInt8} {fresh : Vector UInt8 64}

theorem echoOnce_ordered : Safe (ordering n) (echoOnce fd buf) (.stopped stops none) fun _ m =>
    m = .stopped (stops + 1) none := by
  refine safe_step.mpr fun _ _ => ⟨trivial, safe_step.mpr fun _ _ => ⟨trivial, ?_⟩⟩
  refine safe_step.mpr fun r _ => ⟨trivial, safe_step.mpr fun _ _ => ⟨trivial, ?_⟩⟩
  by_cases hecho : cString (overlay r.bytes buf) ≠ helloWorld
  · rw [if_pos hecho]
    exact safe_step.mpr fun _ _ => ⟨.inr (.inr rfl), rfl⟩
  · rw [if_neg hecho]
    rfl

theorem echoLoop_ordered : Safe (ordering n) (echoLoop fd k buf) (.stopped stops none) fun _ m =>
    m = .stopped (stops + k) none := by
  induction k generalizing stops buf with
  | zero => rfl
  | succ k ih =>
      refine echoOnce_ordered.bind fun buf' m hm => ?_
      rw [hm, ← Nat.add_assoc, Nat.add_right_comm]
      exact ih

theorem clientThread_ordered :
    Safe (ordering n) (clientThread n fresh) .before fun _ _ => True := by
  refine safe_step.mpr fun _ _ => ⟨trivial, safe_step.mpr fun result _ => ⟨trivial, ?_⟩⟩
  have hprint : Safe (ordering n)
      (if (result : Int) < 0 then sys (.print .connectError) else sys (.print .connected)) .before
      fun _ m => m = .before := by
    split
    · exact fun _ _ => ⟨.inl rfl, rfl⟩
    · exact fun _ _ => ⟨.inr (.inl rfl), rfl⟩
  refine hprint.bindSame fun _ => ?_
  refine safe_step.mpr fun _ _ => ⟨trivial, safe_step.mpr fun _ _ => ⟨trivial, ?_⟩⟩
  have hloop : ∀ fd, Safe (ordering n) (echoLoop fd n (greeting fresh)) (.stopped 1 none)
      fun _ m => m = .stopped (1 + n) none := fun _ => echoLoop_ordered
  refine (hloop _).bind fun _ m hm => ?_
  rw [hm, Nat.add_comm]
  refine safe_step.mpr fun _ _ => ⟨trivial, safe_step.mpr fun usec _ => ⟨trivial, ?_⟩⟩
  refine safe_step.mpr fun _ _ => ⟨⟨rfl, rfl⟩, safe_step.mpr fun usec' _ => ⟨trivial, ?_⟩⟩
  exact safe_step.mpr fun _ _ => ⟨⟨rfl, _, rfl, rfl⟩, trivial⟩

end

/-! ## The clock and the intervals -/

/-- The clock holds the start of the open interval and the sum of the closed ones. -/
def Agree : Stage → MyClock → Intervals → Prop
  | .before, _, w => w = {}
  | .running stops, m, w =>
    w.since = some m.mBegin.usec ∧ w.closed = stops ∧ m.mTimeByUSec = long w.total
  | .stopped stops shown, m, w =>
    w.since = none ∧ w.closed = stops ∧ m.mTimeByUSec = long w.total ∧
      ∀ usec ∈ shown, usec = long w.total

section

variable {n stops : Nat} {m : MyClock} {w : Intervals}

theorem Agree.begin (h : Agree .before m w) (now : Timeval) :
    Agree (.running 0) (m.begin now) (w.read now.usec) := by
  obtain rfl : w = {} := h
  exact ⟨rfl, rfl, rfl⟩

theorem Agree.resume {shown : Option Int} (h : Agree (.stopped stops shown) m w)
    (now : Timeval) : Agree (.running stops) (m.resume now) (w.read now.usec) := by
  obtain ⟨since, closed, total⟩ := w
  obtain ⟨hsince, hclosed, htotal, -⟩ := h
  obtain rfl : since = none := hsince
  exact ⟨rfl, hclosed, htotal⟩

theorem Agree.stop (h : Agree (.running stops) m w) (now : Timeval) :
    Agree (.stopped (stops + 1) none) (m.stop now) (w.read now.usec) := by
  obtain ⟨since, closed, total⟩ := w
  obtain ⟨hsince, hclosed, htotal⟩ := h
  obtain rfl : since = some m.mBegin.usec := hsince
  refine ⟨rfl, congrArg (· + 1) hclosed, ?_, nofun⟩
  have hlap := sinceBegin_eq { m with mEnd := now }
  show long (m.mTimeByUSec + MyClock.sinceBegin { m with mEnd := now }) =
    long (total + (now.usec - m.mBegin.usec))
  rw [hlap, htotal, long_add_long]

/-- A call in order is made where it belongs. -/
theorem measured_of_inOrder {stage : Stage} {c : Call} (hR : Agree stage m w)
    (h : inOrder n stage c) (hc : c ≠ .clockStop) : measured n w c := by
  cases stage with
  | before =>
      obtain rfl : w = {} := hR
      cases c with
      | print line =>
          cases line with
          | timeCost usec => exact absurd h (by simp [inOrder])
          | timePerCase usec => exact absurd h (by simp [inOrder])
          | _ => rfl
      | write fd data => exact h.elim
      | read fd len => exact h.elim
      | _ => rfl
  | running =>
      cases c with
      | write fd data => simp [measured, hR.1]
      | read fd len => simp [measured, hR.1]
      | clockStop => exact absurd rfl hc
      | _ => exact h.elim
  | stopped stops shown =>
      obtain ⟨hsince, hclosed, -, hshown⟩ := hR
      cases c with
      | print line =>
          cases line with
          | timeCost usec => exact ⟨hsince, hclosed.trans h.1, hshown usec h.2⟩
          | timePerCase usec =>
              obtain ⟨hstops, u, hu, rfl⟩ := h
              exact ⟨hsince, hclosed.trans hstops, congrArg (Int.tdiv · n) (hshown u hu)⟩
          | _ => exact hsince
      | write fd data => exact h.elim
      | read fd len => exact h.elim
      | _ => exact hsince

theorem clock_serves : Serves clock (ordering n) (measuring n) Agree := by
  intro c stage m w hR horder
  have hok : ∀ r : Reply c, inOrder n stage c := fun r => horder r trivial
  cases c with
  | clockBegin =>
      cases stage with
      | before => exact safe_step.mpr fun now _ => ⟨trivial, trivial, hR.begin now⟩
      | _ => exact (hok ()).elim
  | clockStop =>
      cases stage with
      | running => exact safe_step.mpr fun now _ => ⟨trivial, trivial, hR.stop now⟩
      | _ => exact (hok ()).elim
  | clockResume =>
      cases stage with
      | stopped => exact safe_step.mpr fun now _ => ⟨trivial, trivial, hR.resume now⟩
      | _ => exact (hok ()).elim
  | getTimeByUSec =>
      cases stage with
      | stopped stops shown =>
          obtain ⟨hsince, hclosed, htotal, -⟩ := hR
          refine ⟨trivial, hsince, hclosed, htotal, fun usec husec => ?_⟩
          rw [← Option.some.inj husec]
          exact htotal
      | _ => exact (hok (0 : Int)).elim
  | _ => exact safe_step.mpr fun r _ => ⟨measured_of_inOrder hR (hok r) nofun, trivial, hR⟩

/-- In every run of the client on its clock the reads and writes, and only they, fall
into the intervals between the readings; what is printed as the cost is the sum of
`n + 1` intervals modulo 2^64 and its quotient by `n`, whatever the clock held before. -/
theorem timedClient_measures {fresh : Vector UInt8 64} {t : List (Event SysCall SysReply)}
    {q : SysP (Int × MyClock)} (hrun : Runs (timedClient n fresh m) t q) :
    (measuring n).Ok {} t := by
  have horder : Safe (ordering n) (clientThread n fresh) .before fun _ _ => True :=
    clientThread_ordered
  have hsafe := safe_interpret clock_serves horder (show Agree .before m {} from rfl)
  have hlegal : (measuring n).Legal {} t := (measuring n).legal_of_forall fun _ _ _ => trivial
  exact (hsafe.runs hrun hlegal).1

end

/-! ## A run with a clock that jumps back -/

/-- The readings to come, with echoes that are whole. -/
def jumping : (c : SysCall) → List Timeval → Option (SysReply c × List Timeval)
  | .gettimeofday, now :: rest => some (now, rest)
  | .gettimeofday, [] => none
  | .net .socket, l => some ((3 : Int), l)
  | .net (.connect ..), l | .net (.close ..), l | .net .getTimeByUSec, l => some ((0 : Int), l)
  | .net (.write _ data), l => some ((data.length : Int), l)
  | .net (.read ..), l => some (ReadReply.got helloWorld, l)
  | .net .clockBegin, l | .net .clockStop, l | .net .clockResume, l | .net (.print ..), l =>
    some ((), l)

def jumpingRun : List (Event SysCall SysReply) :=
  (play jumping (timedClient 1 (Vector.replicate 64 0) ⟨⟨0, 0⟩, ⟨0, 0⟩, 7⟩)
    [⟨5, 0⟩, ⟨5, 10⟩, ⟨6, 0⟩, ⟨5, 999990⟩]).1

theorem timedClient_measures_jumping : (measuring 1).Ok {} jumpingRun :=
  timedClient_measures (runs_play jumping _ _)

end Net
end CommSpeed
