/-
How `poll_completion` ends.

The loop polls until a poll returns something or two seconds have passed.  It takes the
difference of two `unsigned long` millisecond readings, so a clock that was set back
makes the difference huge and the loop reports a timeout at once.  Everything else is
as intended: the polls before the last one found nothing, and 0 is returned exactly for
a successful completion.
-/
import CommSpeed.Rdma.Main

namespace CommSpeed
namespace Rdma

open Bytes Prog

/-- What `poll_completion` prints to `stderr`. -/
inductive PollError
  /-- "poll CQ failed" -/
  | pollFailed
  /-- "Completion wasn't found in the CQ after timeout" -/
  | timeout
  /-- "got bad completion with status" -/
  | badCompletion (status : Nat)
  deriving DecidableEq

/-- The case distinction after the polling loop: the return code and the message. -/
def pollVerdict : PollReply → Int × Option PollError
  | .failed => (1, some .pollFailed)
  | .empty => (1, some .timeout)
  | .found wc =>
    if wc.status ≠ ibvWcSuccess then (1, some (.badCompletion wc.status)) else (0, none)

/-- `poll_completion` with its message. -/
def pollReport (m : Machine) (res : Resources) : P (Int × Option PollError) := do
  let cq ← deref res.cq
  let curTime ← sys .gettimeofday
  let pollResult ← iterate m.fuel (pollLoopBody cq curTime.msec) ()
  return pollVerdict pollResult

/-- `poll_completion` makes the calls of the version with messages and returns its code. -/
theorem pollCompletion_eq (m : Machine) (res : Resources) :
    pollCompletion m res = pollReport m res >>= fun x => ret x.1 := by
  rw [pollCompletion, pollReport, bind_assoc]
  refine congrArg _ (funext fun cq => ?_)
  rw [bind_assoc]
  refine congrArg _ (funext fun curTime => ?_)
  rw [bind_assoc]
  refine congrArg _ (funext fun pollResult => ?_)
  cases pollResult with
  | failed => rfl
  | empty => rfl
  | found wc =>
      refine congrArg ret ?_
      rw [pollVerdict]
      split <;> rfl

/-! ## The calls of a run -/

def polls (t : List (Event Call Reply)) : List PollReply :=
  t.filterMap fun
    | ⟨.ibvPollCq .., r⟩ => some r
    | _ => none

def readings (t : List (Event Call Reply)) : List Timeval :=
  t.filterMap fun
    | ⟨.gettimeofday, r⟩ => some r
    | _ => none

def pollTurns (cq : Ptr) (turns : List (PollReply × Timeval)) : List (Event Call Reply) :=
  turns.flatMap fun x => [⟨.ibvPollCq cq 1, x.1⟩, ⟨.gettimeofday, x.2⟩]

theorem polls_pollTurns (cq : Ptr) (turns : List (PollReply × Timeval)) :
    polls (pollTurns cq turns) = turns.map Prod.fst := by
  induction turns with
  | nil => rfl
  | cons x turns ih => exact congrArg (x.1 :: ·) ih

theorem readings_pollTurns (cq : Ptr) (turns : List (PollReply × Timeval)) :
    readings (pollTurns cq turns) = turns.map Prod.snd := by
  induction turns with
  | nil => rfl
  | cons x turns ih => exact congrArg (x.2 :: ·) ih

def Waits (start : Timeval) (x : PollReply × Timeval) : Prop :=
  x.1 = .empty ∧ x.2.msec - start.msec < maxPollCqTimeout

theorem pollLoopBody_runs {cq : Ptr} {start : Timeval} {t : List (Event Call Reply)}
    {y : Unit ⊕ PollReply} (h : Runs (pollLoopBody cq start.msec ()) t (ret y)) :
    ∃ x : PollReply × Timeval, t = pollTurns cq [x] ∧
      (Waits start x ∧ y = .inl () ∨ ¬ Waits start x ∧ y = .inr x.1) := by
  obtain ⟨r, t₁, rfl, h₁⟩ := h.step
  obtain ⟨now, t₂, rfl, h₂⟩ := h₁.step
  refine ⟨(r, now), ?_⟩
  by_cases hwait : r = .empty ∧ now.msec - start.msec < maxPollCqTimeout
  · rw [if_pos hwait] at h₂
    cases h₂
    exact ⟨rfl, .inl ⟨hwait, rfl⟩⟩
  · rw [if_neg hwait] at h₂
    cases h₂
    exact ⟨rfl, .inr ⟨hwait, rfl⟩⟩

theorem pollLoop_runs {cq : Ptr} {start : Timeval} {n : Nat} {t : List (Event Call Reply)}
    {r : PollReply} (h : Runs (iterate n (pollLoopBody cq start.msec) ()) t (ret r)) :
    ∃ turns last, t = pollTurns cq (turns ++ [last]) ∧ r = last.1 ∧
      (∀ x ∈ turns, Waits start x) ∧ ¬ Waits start last := by
  induction n generalizing t with
  | zero => cases h
  | succ n ih =>
      obtain ⟨n', y, t₁, t₂, hn, rfl, hbody, hrest⟩ := h.iterate
      obtain rfl : n = n' := Nat.succ.inj hn
      obtain ⟨x, rfl, ⟨hwait, rfl⟩ | ⟨hwait, rfl⟩⟩ := pollLoopBody_runs hbody
      · obtain ⟨turns, last, rfl, hr, hturns, hlast⟩ := ih hrest
        refine ⟨x :: turns, last, rfl, hr, fun z hz => ?_, hlast⟩
        rcases List.mem_cons.mp hz with rfl | hz
        · exact hwait
        · exact hturns z hz
      · obtain ⟨rfl, rfl⟩ := hrest
        exact ⟨[], x, List.append_nil _, rfl, nofun, hwait⟩

/-- A finished run reads the clock and then makes turns, of which only the last one does
not satisfy the guard. -/
theorem pollReport_runs {m : Machine} {res : Resources} {t : List (Event Call Reply)}
    {out : Int × Option PollError} (h : Runs (pollReport m res) t (ret out)) :
    ∃ cq start turns last, t = ⟨.gettimeofday, start⟩ :: pollTurns cq (turns ++ [last]) ∧
      out = pollVerdict last.1 ∧ (∀ x ∈ turns, Waits start x) ∧ ¬ Waits start last := by
  obtain ⟨cq, -, h₁⟩ := h.deref
  obtain ⟨start, t', rfl, h₂⟩ := h₁.step
  obtain ⟨r, t₁, t₂, rfl, hloop, hverdict⟩ := h₂.split
  cases hverdict
  obtain ⟨turns, last, rfl, rfl, hturns, hlast⟩ := pollLoop_runs hloop
  exact ⟨cq, start, turns, last, by rw [List.append_nil], rfl, hturns, hlast⟩

/-! ## The clock -/

/-- A reading in whole milliseconds. -/
def millis (t : Timeval) : Int := t.tvSec * 1000 + t.tvUsec.tdiv 1000

/-- What `gettimeofday` returns: microseconds below a second, and a time whose
milliseconds fit a `long`. -/
def IsReading (t : Timeval) : Prop :=
  0 ≤ t.tvUsec ∧ t.tvUsec < 1000000 ∧ -2 ^ 63 ≤ millis t ∧ millis t < 2 ^ 63

instance (t : Timeval) : Decidable (IsReading t) := inferInstanceAs (Decidable (_ ∧ _))

theorem toNat_msec (t : Timeval) : (t.msec.toNat : Int) = millis t % 2 ^ 64 := by
  have hofInt : t.msec.toNat = (millis t % 2 ^ 64).toNat % 2 ^ 64 := rfl
  rw [hofInt]
  omega

/-- The unsigned difference is below the timeout when the clock has moved on less than
that, or has gone back by nearly 2^64. -/
theorem waits_iff {start now : Timeval} (hstart : IsReading start) (hnow : IsReading now) :
    now.msec - start.msec < maxPollCqTimeout ↔
      (millis start ≤ millis now ∧ millis now < millis start + 2000) ∨
        millis now + 2 ^ 64 < millis start + 2000 := by
  obtain ⟨-, -, hs₁, hs₂⟩ := hstart
  obtain ⟨-, -, hn₁, hn₂⟩ := hnow
  have hs := toNat_msec start
  have hn := toNat_msec now
  rw [UInt64.lt_iff_toNat_lt, UInt64.toNat_sub, show maxPollCqTimeout.toNat = 2000 from rfl]
  have hlt := start.msec.toNat_lt
  omega

/-- Two seconds in whole milliseconds are more than 1999 milliseconds. -/
theorem usec_of_millis {start now : Timeval} (hstart : IsReading start) (hnow : IsReading now)
    (h : millis start + 2000 ≤ millis now) : start.usec + 1999000 < now.usec := by
  obtain ⟨hs₁, hs₂, -⟩ := hstart
  obtain ⟨hn₁, hn₂, -⟩ := hnow
  unfold millis at h
  rw [Int.tdiv_eq_ediv_of_nonneg hs₁, Int.tdiv_eq_ediv_of_nonneg hn₁] at h
  unfold Timeval.usec
  omega

theorem millis_of_usec {start now : Timeval} (hstart : IsReading start) (hnow : IsReading now)
    (h : start.usec + 1999000 < now.usec) : millis start ≤ millis now := by
  obtain ⟨hs₁, hs₂, -⟩ := hstart
  obtain ⟨hn₁, hn₂, -⟩ := hnow
  unfold Timeval.usec at h
  unfold millis
  rw [Int.tdiv_eq_ediv_of_nonneg hs₁, Int.tdiv_eq_ediv_of_nonneg hn₁]
  omega

/-! ## What a run reports -/

/-- What `poll_completion` returns and reports is what its polls and readings say. -/
structure PollExact (t : List (Event Call Reply)) (out : Int × Option PollError) : Prop where
  waited : ∀ r ∈ (polls t).dropLast, r = .empty
  success : out.1 = 0 ↔
    ∃ wc, (polls t).getLast? = some (.found wc) ∧ wc.status = ibvWcSuccess
  timeout : out.2 = some .timeout → (polls t).getLast? = some .empty ∧
    ∃ first last, (readings t).head? = some first ∧ (readings t).getLast? = some last ∧
      first.usec + 1999000 < last.usec

/-- No reading after a poll that found nothing is, in whole milliseconds, before the
first one.  A reading nearly 2^64 milliseconds before it passes as one after it. -/
def ClockAdvances (t : List (Event Call Reply)) : Prop :=
  ∀ first, (readings t).head? = some first →
    ∀ x ∈ (polls t).zip (readings t).tail, x.1 = .empty →
      millis first ≤ millis x.2 ∨ millis x.2 + 2 ^ 64 < millis first + 2000

theorem pollVerdict_success (r : PollReply) :
    (pollVerdict r).1 = 0 ↔ ∃ wc, r = .found wc ∧ wc.status = ibvWcSuccess := by
  cases r with
  | failed => exact ⟨nofun, nofun⟩
  | empty => exact ⟨nofun, nofun⟩
  | found wc => by_cases h : wc.status = ibvWcSuccess <;> simp [pollVerdict, h]

theorem pollVerdict_timeout (r : PollReply) :
    (pollVerdict r).2 = some .timeout ↔ r = .empty := by
  cases r with
  | failed => exact ⟨nofun, nofun⟩
  | empty => exact ⟨fun _ => rfl, fun _ => rfl⟩
  | found wc => by_cases h : wc.status = ibvWcSuccess <;> simp [pollVerdict, h]

section

variable {cq : Ptr} {start : Timeval} {turns : List (PollReply × Timeval)}
  {last : PollReply × Timeval}

theorem polls_run : polls (⟨.gettimeofday, start⟩ :: pollTurns cq (turns ++ [last])) =
    turns.map Prod.fst ++ [last.1] := by
  rw [show polls (⟨.gettimeofday, start⟩ :: pollTurns cq (turns ++ [last])) =
    polls (pollTurns cq (turns ++ [last])) from rfl, polls_pollTurns, List.map_append]
  rfl

theorem readings_run : readings (⟨.gettimeofday, start⟩ :: pollTurns cq (turns ++ [last])) =
    start :: (turns.map Prod.snd ++ [last.2]) := by
  rw [show readings (⟨.gettimeofday, start⟩ :: pollTurns cq (turns ++ [last])) =
    start :: readings (pollTurns cq (turns ++ [last])) from rfl, readings_pollTurns,
    List.map_append]
  rfl

/-- In terms of the turns, a report is exact unless the last turn times out early. -/
theorem pollExact_iff (hturns : ∀ x ∈ turns, Waits start x) :
    PollExact (⟨.gettimeofday, start⟩ :: pollTurns cq (turns ++ [last])) (pollVerdict last.1) ↔
      (last.1 = .empty → start.usec + 1999000 < last.2.usec) := by
  have hlastPoll : (turns.map Prod.fst ++ [last.1]).getLast? = some last.1 :=
    List.getLast?_concat
  have hlastReading : (start :: (turns.map Prod.snd ++ [last.2])).getLast? = some last.2 := by
    rw [← List.cons_append, List.getLast?_concat]
  constructor
  · intro h hempty
    obtain ⟨-, first, final, hfirst, hfinal, hlate⟩ :=
      h.timeout ((pollVerdict_timeout last.1).mpr hempty)
    rw [readings_run] at hfirst hfinal
    obtain rfl := Option.some.inj hfirst
    obtain rfl := Option.some.inj (hlastReading.symm.trans hfinal)
    exact hlate
  · intro h
    refine ⟨fun r hr => ?_, ?_, fun htimeout => ?_⟩
    · rw [polls_run, List.dropLast_concat] at hr
      obtain ⟨x, hx, rfl⟩ := List.mem_map.mp hr
      exact (hturns x hx).1
    · rw [polls_run, hlastPoll, pollVerdict_success]
      simp only [Option.some.injEq]
    · have hempty := (pollVerdict_timeout last.1).mp htimeout
      rw [polls_run, readings_run, hlastPoll, hlastReading]
      exact ⟨congrArg some hempty, start, last.2, rfl, rfl, h hempty⟩

theorem clockAdvances_iff :
    ClockAdvances (⟨.gettimeofday, start⟩ :: pollTurns cq (turns ++ [last])) ↔
      ∀ x ∈ turns ++ [last], x.1 = .empty →
        millis start ≤ millis x.2 ∨ millis x.2 + 2 ^ 64 < millis start + 2000 := by
  have hzip : (turns.map Prod.fst ++ [last.1]).zip (turns.map Prod.snd ++ [last.2]) =
      turns ++ [last] := by
    refine (List.zip_of_prod ?_ ?_).symm
    · exact List.map_append
    · exact List.map_append
  rw [ClockAdvances, polls_run, readings_run, List.tail_cons, hzip]
  constructor
  · exact fun h => h start rfl
  · intro h first hfirst
    obtain rfl := Option.some.inj hfirst
    exact h

end

/-- A finished run of `poll_completion` reports what happened exactly when the clock was
not set back behind its first reading. -/
theorem pollCompletion_exact_iff {m : Machine} {res : Resources} {t : List (Event Call Reply)}
    {out : Int × Option PollError} (hrun : Runs (pollReport m res) t (ret out))
    (hreadings : ∀ r ∈ readings t, IsReading r) : PollExact t out ↔ ClockAdvances t := by
  obtain ⟨cq, start, turns, last, rfl, rfl, hturns, hlast⟩ := pollReport_runs hrun
  rw [readings_run] at hreadings
  have hstart : IsReading start := hreadings start List.mem_cons_self
  have hreading : ∀ x ∈ turns ++ [last], IsReading x.2 := by
    intro x hx
    refine hreadings x.2 (List.mem_cons_of_mem _ ?_)
    have hmem := List.mem_map_of_mem (f := Prod.snd) hx
    rwa [List.map_append] at hmem
  have hlastMem : last ∈ turns ++ [last] := List.mem_concat_self
  rw [pollExact_iff hturns, clockAdvances_iff]
  constructor
  · intro h x hx hempty
    rcases List.mem_append.mp hx with hx | hx
    · have hwaits := (waits_iff hstart (hreading x (List.mem_append_left _ hx))).mp (hturns x hx).2
      exact hwaits.imp And.left id
    · obtain rfl := List.mem_singleton.mp hx
      exact .inl (millis_of_usec hstart (hreading x hlastMem) (h hempty))
  · intro h hempty
    refine usec_of_millis hstart (hreading last hlastMem) ?_
    have hexit := mt (waits_iff hstart (hreading last hlastMem)).mpr fun hw => hlast ⟨hempty, hw⟩
    have hnot := h last hlastMem hempty
    omega

def withCq : Resources := { resourcesInit with cq := some 5 }

def scriptedPolls : (c : Call) → List Timeval × List PollReply →
    Option (Reply c × (List Timeval × List PollReply))
  | .gettimeofday, (now :: ts, ps) => some (now, (ts, ps))
  | .ibvPollCq .., (ts, p :: ps) => some (p, (ts, ps))
  | _, _ => none

def pollRun (ts : List Timeval) (ps : List PollReply) : List (Event Call Reply) :=
  (play scriptedPolls (pollReport littleMachine withCq) (ts, ps)).1

/-- Two polls that find nothing, the second one after two seconds. -/
def slowClock : List Timeval := [⟨10, 0⟩, ⟨10, 500⟩, ⟨12, 0⟩]

theorem pollCompletion_exact_iff_slow :
    PollExact (pollRun slowClock [.empty, .empty]) (1, some .timeout) ↔
      ClockAdvances (pollRun slowClock [.empty, .empty]) :=
  pollCompletion_exact_iff
    (runs_play scriptedPolls (pollReport littleMachine withCq) (slowClock, [.empty, .empty]))
    (by decide)

/-- The clock is set back by a second during the first poll, and the timeout is reported
at once. -/
def steppedClock : List Timeval := [⟨10, 0⟩, ⟨9, 0⟩]

theorem steppedClock_times_out :
    Runs (pollReport littleMachine withCq) (pollRun steppedClock [.empty])
        (ret (1, some .timeout)) ∧
      (∀ r ∈ readings (pollRun steppedClock [.empty]), IsReading r) ∧
      ¬ PollExact (pollRun steppedClock [.empty]) (1, some .timeout) := by
  refine ⟨runs_play scriptedPolls (pollReport littleMachine withCq) (steppedClock, [.empty]),
    by decide, fun h => ?_⟩
  obtain ⟨-, first, last, hfirst, hlast, hlate⟩ := h.timeout rfl
  obtain rfl : ⟨10, 0⟩ = first := Option.some.inj hfirst
  obtain rfl : ⟨9, 0⟩ = last := Option.some.inj hlast
  exact absurd hlate (by decide)

end Rdma
end CommSpeed
