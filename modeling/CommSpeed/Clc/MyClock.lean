/-
The stopwatch of `MyClock.cpp`.

`begin` and `resume` note when the clock was started, `stop` and `end` add the time
since then to the total.  The class keeps no record of whether it runs: a `stop`
always counts from the last `begin` or `resume`, also when it was stopped already.

`Meter` is the same stopwatch without machine arithmetic.  It keeps the intervals that
have been counted, so what the clock shows is a statement about them: in the order of
calls that `clientThread` makes they are the laps, and as long as the clock is stopped
only while it runs they lie apart between the last `begin` and now.
-/
import CommSpeed.Clc.Timeval

namespace CommSpeed
namespace Clc

structure MyClock where
  mBegin : Timeval
  mEnd : Timeval
  mTimeByUSec : Int

inductive Op
  | begin
  | stop
  | resume
  | end_
  deriving DecidableEq

namespace MyClock

/-- `1000000 * (m_end.tv_sec - m_begin.tv_sec) + m_end.tv_usec - m_begin.tv_usec`. -/
def sinceBegin (c : MyClock) : Int :=
  long (1000000 * (c.mEnd.tvSec - c.mBegin.tvSec) + c.mEnd.tvUsec - c.mBegin.tvUsec)

def begin (c : MyClock) (now : Timeval) : MyClock := { c with mBegin := now, mTimeByUSec := 0 }

def stop (c : MyClock) (now : Timeval) : MyClock :=
  let c := { c with mEnd := now }
  { c with mTimeByUSec := long (c.mTimeByUSec + c.sinceBegin) }

def resume (c : MyClock) (now : Timeval) : MyClock := { c with mBegin := now }

def end_ (c : MyClock) (now : Timeval) : MyClock :=
  let c := { c with mEnd := now }
  { c with mTimeByUSec := long (c.mTimeByUSec + c.sinceBegin) }

def getTimeBySec (c : MyClock) : Int := c.mTimeByUSec.tdiv 1000000

def getTimeByMSec (c : MyClock) : Int := c.mTimeByUSec.tdiv 1000

def getTimeByUSec (c : MyClock) : Int := c.mTimeByUSec

def call (c : MyClock) (op : Op) (now : Timeval) : MyClock :=
  match op with
  | .begin => c.begin now
  | .stop => c.stop now
  | .resume => c.resume now
  | .end_ => c.end_ now

def run (c : MyClock) : List (Op × Timeval) → MyClock
  | [] => c
  | (op, now) :: calls => run (c.call op now) calls

end MyClock

/-! ## The stopwatch without machine arithmetic -/

/-- A stopwatch in microseconds: the last `begin`, the last `begin` or `resume`, the
last reading, and the intervals counted since the last `begin`, the latest first. -/
structure Meter where
  since : Int
  start : Int
  latest : Int
  counted : List (Int × Int)

namespace Meter

def begun (now : Int) : Meter := { since := now, start := now, latest := now, counted := [] }

def call (m : Meter) (op : Op) (now : Int) : Meter :=
  match op with
  | .begin => begun now
  | .resume => { m with start := now, latest := now }
  | .stop | .end_ => { m with latest := now, counted := (m.start, now) :: m.counted }

def run (m : Meter) : List (Op × Timeval) → Meter
  | [] => m
  | (op, now) :: calls => run (m.call op now.usec) calls

def total (m : Meter) : Int := (m.counted.map fun x => x.2 - x.1).sum

def elapsed (m : Meter) : Int := m.latest - m.since

end Meter

/-- The stopwatch after `begin` at `b₀` and further calls. -/
def meterOf (b₀ : Timeval) (calls : List (Op × Timeval)) : Meter := (Meter.begun b₀.usec).run calls

/-! ## The clock shows the counted time -/

/-- The clock and the stopwatch agree, the clock modulo 2^64. -/
structure Shows (c : MyClock) (m : Meter) : Prop where
  start : c.mBegin.usec = m.start
  total : c.mTimeByUSec = long m.total

theorem sinceBegin_eq (c : MyClock) : c.sinceBegin = long (c.mEnd.usec - c.mBegin.usec) := by
  rw [MyClock.sinceBegin, Timeval.usec, Timeval.usec]
  refine congrArg long ?_
  omega

theorem shows_begin (c : MyClock) (now : Timeval) : Shows (c.begin now) (.begun now.usec) :=
  ⟨rfl, rfl⟩

theorem Shows.stop {c : MyClock} {m : Meter} (h : Shows c m) (now : Timeval) :
    Shows (c.stop now) (m.call .stop now.usec) := by
  refine ⟨h.start, ?_⟩
  have htotal : (m.call .stop now.usec).total = (now.usec - m.start) + m.total := by
    rw [Meter.total, Meter.total]
    exact List.sum_cons
  have hshown : (c.stop now).mTimeByUSec = long (c.mTimeByUSec + long (now.usec - c.mBegin.usec)) :=
    congrArg (fun d => long (c.mTimeByUSec + d)) (sinceBegin_eq { c with mEnd := now })
  rw [hshown, h.total, h.start, long_add_long, htotal, Int.add_comm]

theorem Shows.call {c : MyClock} {m : Meter} (h : Shows c m) (op : Op) (now : Timeval) :
    Shows (c.call op now) (m.call op now.usec) := by
  cases op with
  | begin => exact shows_begin c now
  | resume => exact ⟨rfl, h.total⟩
  | stop => exact h.stop now
  | end_ => exact h.stop now

theorem Shows.run {c : MyClock} {m : Meter} (h : Shows c m) (calls : List (Op × Timeval)) :
    Shows (c.run calls) (m.run calls) := by
  induction calls generalizing c m with
  | nil => exact h
  | cons x calls ih => exact ih (h.call x.1 x.2)

/-- After a `begin` nothing of the earlier calls shows. -/
theorem run_begin_shows (c : MyClock) (b₀ : Timeval) (calls : List (Op × Timeval)) :
    (c.run ((.begin, b₀) :: calls)).mTimeByUSec = long (meterOf b₀ calls).total :=
  ((shows_begin c b₀).run calls).total

/-! ## The laps of a caller -/

/-- `begin`, `stop`, and then `resume` and `stop` once per lap. -/
def lapCalls (b₀ e₀ : Timeval) (laps : List (Timeval × Timeval)) : List (Op × Timeval) :=
  (.begin, b₀) :: (.stop, e₀) :: laps.flatMap fun lap => [(.resume, lap.1), (.stop, lap.2)]

def lapTime (laps : List (Timeval × Timeval)) : Int :=
  (laps.map fun lap => lap.2.usec - lap.1.usec).sum

theorem total_laps (m : Meter) (laps : List (Timeval × Timeval)) :
    (m.run (laps.flatMap fun lap => [(.resume, lap.1), (.stop, lap.2)])).total =
      m.total + lapTime laps := by
  induction laps generalizing m with
  | nil => exact (Int.add_zero _).symm
  | cons lap laps ih =>
      have hlap : ((m.call .resume lap.1.usec).call .stop lap.2.usec).total =
          (lap.2.usec - lap.1.usec) + m.total := by
        rw [Meter.total, Meter.total]
        exact List.sum_cons
      have htime : lapTime (lap :: laps) = (lap.2.usec - lap.1.usec) + lapTime laps :=
        List.sum_cons
      refine (ih _).trans ?_
      rw [hlap, htime]
      omega

/-- In the order of calls of `clientThread` the clock shows the first interval and the
laps, exactly, whatever it held before the `begin`. -/
theorem myClock_exact (c : MyClock) (b₀ e₀ : Timeval) (laps : List (Timeval × Timeval))
    (hsmall : (e₀.usec - b₀.usec + lapTime laps).natAbs < 2 ^ 62) :
    (c.run (lapCalls b₀ e₀ laps)).getTimeByUSec = e₀.usec - b₀.usec + lapTime laps ∧
    (c.run (lapCalls b₀ e₀ laps)).getTimeByMSec =
      (e₀.usec - b₀.usec + lapTime laps).tdiv 1000 ∧
    (c.run (lapCalls b₀ e₀ laps)).getTimeBySec =
      (e₀.usec - b₀.usec + lapTime laps).tdiv 1000000 := by
  have hfirst : ((Meter.begun b₀.usec).call .stop e₀.usec).total = e₀.usec - b₀.usec :=
    Int.add_zero _
  have htotal : (meterOf b₀ (lapCalls b₀ e₀ laps).tail).total =
      e₀.usec - b₀.usec + lapTime laps := (total_laps _ laps).trans (by rw [hfirst])
  have hshown : (c.run (lapCalls b₀ e₀ laps)).mTimeByUSec =
      e₀.usec - b₀.usec + lapTime laps := by
    refine (run_begin_shows c b₀ _).trans ((congrArg long htotal).trans ?_)
    exact long_of_small (by omega) (by omega)
  rw [MyClock.getTimeByUSec, MyClock.getTimeByMSec, MyClock.getTimeBySec, hshown]
  exact ⟨rfl, rfl, rfl⟩

/-- A lap that crosses a second with a smaller microsecond field. -/
theorem myClock_exact_carry :
    ((⟨⟨0, 0⟩, ⟨0, 0⟩, 7⟩ : MyClock).run
        (lapCalls ⟨5, 100⟩ ⟨5, 110⟩ [(⟨6, 999990⟩, ⟨7, 5⟩)])).getTimeByUSec = 25 ∧
    ((⟨⟨0, 0⟩, ⟨0, 0⟩, 7⟩ : MyClock).run
        (lapCalls ⟨5, 100⟩ ⟨5, 110⟩ [(⟨6, 999990⟩, ⟨7, 5⟩)])).getTimeByMSec = 0 ∧
    ((⟨⟨0, 0⟩, ⟨0, 0⟩, 7⟩ : MyClock).run
        (lapCalls ⟨5, 100⟩ ⟨5, 110⟩ [(⟨6, 999990⟩, ⟨7, 5⟩)])).getTimeBySec = 0 :=
  myClock_exact ⟨⟨0, 0⟩, ⟨0, 0⟩, 7⟩ ⟨5, 100⟩ ⟨5, 110⟩ [(⟨6, 999990⟩, ⟨7, 5⟩)] (by decide)

/-! ## Any order of calls -/

/-- Whether the clock runs after a call. -/
def Op.starts : Op → Bool
  | .begin | .resume => true
  | .stop | .end_ => false

/-- `stop` and `end` are only called while the clock runs. -/
def Paired : Bool → List Op → Prop
  | _, [] => True
  | running, op :: ops => (op.starts = true ∨ running = true) ∧ Paired op.starts ops

/-- Intervals, the latest first, that lie apart between two readings. -/
def Apart (lo : Int) : Int → List (Int × Int) → Prop
  | hi, [] => lo ≤ hi
  | hi, (s, t) :: rest => s ≤ t ∧ t ≤ hi ∧ Apart lo s rest

theorem Apart.mono {lo hi hi' : Int} {l : List (Int × Int)} (h : Apart lo hi l) (hle : hi ≤ hi') :
    Apart lo hi' l := by
  cases l with
  | nil => exact Int.le_trans h hle
  | cons x l => exact ⟨h.1, Int.le_trans h.2.1 hle, h.2.2⟩

/-- The lengths of intervals that lie apart add up to no more than the room they have. -/
theorem Apart.total_le {lo hi : Int} {l : List (Int × Int)} (h : Apart lo hi l) :
    0 ≤ (l.map fun x => x.2 - x.1).sum ∧ (l.map fun x => x.2 - x.1).sum ≤ hi - lo := by
  induction l generalizing hi with
  | nil =>
      have hle : lo ≤ hi := h
      exact ⟨Int.le_refl 0, by rw [List.map_nil, List.sum_nil]; omega⟩
  | cons x l ih =>
      obtain ⟨hx, hhi, hl⟩ := h
      have hrest := ih hl
      rw [List.map_cons, List.sum_cons]
      omega

/-- The invariant of the stopwatch: what is counted lies apart, before the current start
while the clock runs. -/
structure Meter.Inv (m : Meter) (running : Bool) : Prop where
  start_le : m.start ≤ m.latest
  apart : Apart m.since (if running then m.start else m.latest) m.counted

theorem Meter.Inv.apart_latest {m : Meter} {running : Bool} (h : m.Inv running) :
    Apart m.since m.latest m.counted := by
  cases running with
  | true => exact h.apart.mono h.start_le
  | false => exact h.apart

theorem Meter.inv_begun (now : Int) : (Meter.begun now).Inv true :=
  ⟨Int.le_refl _, Int.le_refl _⟩

theorem Meter.Inv.call {m : Meter} {running : Bool} (h : m.Inv running) {op : Op}
    (hop : op.starts = true ∨ running = true) {now : Int} (hnow : m.latest ≤ now) :
    (m.call op now).Inv op.starts := by
  have hstop : running = true → (m.call .stop now).Inv false := by
    intro hrunning
    subst hrunning
    exact ⟨Int.le_trans h.start_le hnow, Int.le_trans h.start_le hnow, Int.le_refl _, h.apart⟩
  cases op with
  | begin => exact inv_begun now
  | resume => exact ⟨Int.le_refl _, h.apart_latest.mono hnow⟩
  | stop => exact hstop (hop.resolve_left nofun)
  | end_ => exact hstop (hop.resolve_left nofun)

theorem Meter.latest_call (m : Meter) (op : Op) (now : Int) : (m.call op now).latest = now := by
  cases op <;> rfl

theorem Meter.Inv.run {m : Meter} {running : Bool} (h : m.Inv running)
    {calls : List (Op × Timeval)} (hpaired : Paired running (calls.map Prod.fst))
    (hmono : (m.latest :: calls.map fun x => x.2.usec).Pairwise (· ≤ ·)) :
    ∃ running', (m.run calls).Inv running' := by
  induction calls generalizing m running with
  | nil => exact ⟨running, h⟩
  | cons x calls ih =>
      obtain ⟨hop, hpaired⟩ := hpaired
      obtain ⟨hfirst, hrest⟩ := List.pairwise_cons.mp hmono
      refine ih (h.call hop (hfirst _ List.mem_cons_self)) hpaired ?_
      rw [Meter.latest_call]
      exact hrest

/-- As long as `stop` and `end` are only called while the clock runs, no instant is
counted twice, and the clock shows at most the time since the last `begin`. -/
theorem myClock_bounded (c : MyClock) (b₀ : Timeval) {calls : List (Op × Timeval)}
    (hpaired : Paired true (calls.map Prod.fst))
    (hmono : (b₀.usec :: calls.map fun x => x.2.usec).Pairwise (· ≤ ·))
    (hrange : (meterOf b₀ calls).elapsed < 2 ^ 63) :
    Apart (meterOf b₀ calls).since (meterOf b₀ calls).latest (meterOf b₀ calls).counted ∧
    (c.run ((.begin, b₀) :: calls)).getTimeByUSec = (meterOf b₀ calls).total ∧
    0 ≤ (c.run ((.begin, b₀) :: calls)).getTimeByUSec ∧
    (c.run ((.begin, b₀) :: calls)).getTimeByUSec ≤ (meterOf b₀ calls).elapsed := by
  obtain ⟨running, hinv⟩ := (Meter.inv_begun b₀.usec).run hpaired hmono
  have hapart : Apart (meterOf b₀ calls).since (meterOf b₀ calls).latest
      (meterOf b₀ calls).counted := hinv.apart_latest
  have htotal : 0 ≤ (meterOf b₀ calls).total ∧
      (meterOf b₀ calls).total ≤ (meterOf b₀ calls).elapsed := hapart.total_le
  have hshown : (c.run ((.begin, b₀) :: calls)).getTimeByUSec = (meterOf b₀ calls).total := by
    refine (run_begin_shows c b₀ calls).trans ?_
    exact long_of_small (by omega) (by omega)
  rw [hshown]
  exact ⟨hapart, rfl, htotal⟩

/-- A clock that is stopped, resumed while it runs, and ended. -/
def pairedCalls : List (Op × Timeval) :=
  [(.stop, ⟨0, 10⟩), (.resume, ⟨0, 20⟩), (.resume, ⟨0, 25⟩), (.end_, ⟨0, 30⟩)]

theorem myClock_bounded_paired :
    Apart (meterOf ⟨0, 0⟩ pairedCalls).since (meterOf ⟨0, 0⟩ pairedCalls).latest
      (meterOf ⟨0, 0⟩ pairedCalls).counted ∧
    ((⟨⟨0, 0⟩, ⟨0, 0⟩, 0⟩ : MyClock).run ((.begin, ⟨0, 0⟩) :: pairedCalls)).getTimeByUSec =
      (meterOf ⟨0, 0⟩ pairedCalls).total ∧
    0 ≤ ((⟨⟨0, 0⟩, ⟨0, 0⟩, 0⟩ : MyClock).run ((.begin, ⟨0, 0⟩) :: pairedCalls)).getTimeByUSec ∧
    ((⟨⟨0, 0⟩, ⟨0, 0⟩, 0⟩ : MyClock).run ((.begin, ⟨0, 0⟩) :: pairedCalls)).getTimeByUSec ≤
      (meterOf ⟨0, 0⟩ pairedCalls).elapsed :=
  myClock_bounded ⟨⟨0, 0⟩, ⟨0, 0⟩, 0⟩ ⟨0, 0⟩ (by simp [pairedCalls, Paired, Op.starts]) (by decide)
    (by decide)

/-- A second `stop` counts the first interval again: 30 microseconds of the 20 that have
passed. -/
def stoppedTwice : List (Op × Timeval) := [(.stop, ⟨0, 10⟩), (.stop, ⟨0, 20⟩)]

theorem stoppedTwice_over_reports :
    ((⟨0, 0⟩ : Timeval).usec :: stoppedTwice.map fun x => x.2.usec).Pairwise (· ≤ ·) ∧
    (meterOf ⟨0, 0⟩ stoppedTwice).elapsed = 20 ∧
    ((⟨⟨0, 0⟩, ⟨0, 0⟩, 0⟩ : MyClock).run
      ((.begin, ⟨0, 0⟩) :: stoppedTwice)).getTimeByUSec = 30 := by
  decide

end Clc
end CommSpeed
