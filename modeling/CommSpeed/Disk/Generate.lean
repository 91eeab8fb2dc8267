/-
The disk benchmark of `Generate.cpp`.

`diskmain` writes the same record `fileSize` times and stops at the first write that
fails.  Its figures are computed after the loop from `fileSize`, not from what was
written, and from the seconds fields of two clock readings, without their
microseconds.

So they are right exactly when every write is made and succeeds and the readings are
a whole second apart in their seconds fields without a carry from the microseconds:
a failed write or a negative `fileSize` leaves too many or too few bytes in the
numerator, a run within one second divides by zero, and a carry counts a second too
much.
-/
import CommSpeed.Clc.Timeval
import CommSpeed.Prog.Basic

namespace CommSpeed
namespace Disk

open Prog

/-- `m_SIZE`, the bytes of a record. -/
def mSize : Nat := 4096

def getSize : Nat := mSize

/-- The record, from the values that `rand` returns. -/
def genRecord (rand : Nat → Nat) : List UInt8 :=
  (List.range mSize).map fun i => UInt8.ofNat (rand i % 255)

/-- What `getopt` returns: the options `-f` and `-s`, with the value of `strtol` on
their arguments, or one that is not supported. -/
inductive Opt
  | f (n : Int64)
  | s (n : Int64)
  | unsupported

/-- `fileSize` after the option loop; `none` stands for the usage lines.  The buffer
size that `-s` sets is never read. -/
def optionLoop (fileSize : Int32) : List Opt → Option Int32
  | [] => some fileSize
  | .f n :: opts => optionLoop n.toInt32 opts
  | .s _ :: opts => optionLoop fileSize opts
  | .unsupported :: _ => none

inductive OpenFlag
  | direct
  | wronly
  | creat

/-- What is printed to `stdout`.  The throughput is the quotient as it is written in
the source, before the division. -/
inductive Line
  | usageFileSize
  | usageBufferSize
  | timeConsumed (fileSize : Int32) (sec : Int)
  | performance (numerator denominator : Int)

inductive Call
  | openFile (path : String) (flags : List OpenFlag) (mode : Nat)
  | write (fd : Int) (data : List UInt8)
  | close (fd : Int)
  | gettimeofday
  | print (line : Line)
  | fflush
  | perror (text : String)

@[reducible] def Reply : Call → Type
  | .openFile .. | .write .. | .close .. => Int
  | .gettimeofday => Timeval
  | .print .. | .fflush | .perror .. => Unit

abbrev P := Prog Call Reply

abbrev sys (c : Call) : P (Reply c) := perform c

/-- `diskmain` ends in `exit` or behind its last statement, without a value. -/
inductive Ending
  | exit (code : Int)
  | endOfBody

/-- One turn of the loop of `diskmain` with the counter `i`. -/
def writeLoopBody (ndebug : Bool) (fd : Int) (text : List UInt8) (fileSize i : Int32) :
    P (Int32 ⊕ Unit) := do
  if i < fileSize then
    let wcode ← sys (.write fd (text.take getSize))
    if wcode < 0 then
      sys (.perror "-Write error: ")
      sys .fflush
      return .inr ()
    else
      assert (ndebug || decide (wcode = getSize))
      return .inl (i + 1)
  else
    return .inr ()

/-- An `int` counter from 0 on is below an `int` bound less often than this. -/
def loopBound : Nat := 2 ^ 31

/-- The seconds that are printed. -/
def seconds (start stop : Timeval) : Int := long (stop.tvSec - start.tvSec)

/-- `1.0 * fileSize * gen.getSize()`, which a `double` holds exactly. -/
def numerator (fileSize : Int32) : Int := fileSize.toInt * getSize

/-- `1024 * 1024 * (end.tv_sec - begin.tv_sec)`. -/
def denominator (start stop : Timeval) : Int := long (1024 * 1024 * (stop.tvSec - start.tvSec))

/-- `diskmain` behind its option loop. -/
def generate (ndebug : Bool) (rand : Nat → Nat) (fileSize : Int32) : P Ending := do
  let fd ← sys (.openFile "raw.txt" [.direct, .wronly, .creat] 0o700)
  if fd < 0 then
    sys (.perror "Open error: ")
    return .exit 0
  else
    let text := genRecord rand
    let start ← sys .gettimeofday
    iterate loopBound (writeLoopBody ndebug fd text fileSize) 0
    let stop ← sys .gettimeofday
    sys (.print (.timeConsumed fileSize (seconds start stop)))
    sys (.print (.performance (numerator fileSize) (denominator start stop)))
    let _ ← sys (.close fd)
    return .endOfBody

def diskmain (ndebug : Bool) (rand : Nat → Nat) (opts : List Opt) : P Ending :=
  match optionLoop 20 opts with
  | some fileSize => generate ndebug rand fileSize
  | none => do
    sys (.print .usageFileSize)
    sys (.print .usageBufferSize)
    return .exit 0

/-! ## Sessions -/

/-- What a run meets: the values of `rand`, the answers of `open` and of each
`write`, which takes the whole record or fails, and two readings of the clock, the
second one later than the first. -/
structure Session where
  rand : Nat → Nat
  fd : Int
  wcode : Nat → Int
  start : Timeval
  stop : Timeval
  whole_or_failed : ∀ k, wcode k < 0 ∨ wcode k = getSize
  start_sec : -2 ^ 63 ≤ start.tvSec
  stop_sec : stop.tvSec < 2 ^ 63
  start_usec : 0 ≤ start.tvUsec ∧ start.tvUsec < 1000000
  stop_usec : 0 ≤ stop.tvUsec ∧ stop.tvUsec < 1000000
  later : start.usec < stop.usec

/-- The readings to come, the writes made, the bytes they have taken and the lines
printed. -/
structure World where
  clock : List Timeval
  writes : Nat := 0
  written : Nat := 0
  printed : List Line := []

/-- The other side of the calls. -/
def world (s : Session) : (c : Call) → World → Option (Reply c × World)
  | .openFile .., w => some (s.fd, w)
  | .write .., w =>
    let wcode := s.wcode w.writes
    some (wcode, { w with writes := w.writes + 1, written := w.written + wcode.toNat })
  | .gettimeofday, w =>
    match w.clock with
    | [] => none
    | now :: clock => some (now, { w with clock := clock })
  | .print line, w => some ((), { w with printed := w.printed ++ [line] })
  | .close _, w => some ((0 : Int), w)
  | .fflush, w | .perror _, w => some ((), w)

/-- The printed lines are about the work that was done: the seconds are the time
between the readings rounded down, and the throughput is a quotient of the bytes
written by a positive number. -/
structure World.Honest (w : World) (s : Session) : Prop where
  seconds : ∀ n sec, Line.timeConsumed n sec ∈ w.printed →
    sec = (s.stop.usec - s.start.usec) / 1000000
  throughput : ∀ num den, Line.performance num den ∈ w.printed → num = w.written ∧ 0 < den

/-- The benchmark ends and is honest about its work. -/
def Reports (ndebug : Bool) (opts : List Opt) (s : Session) : Prop :=
  ∃ e w, eval (world s) (diskmain ndebug s.rand opts) { clock := [s.start, s.stop] } =
    some (e, w) ∧ w.Honest s

/-- The count is not negative and all its writes succeed, and the seconds fields tell
the time between the readings: the microseconds do not carry, and there is at least
one second and not so many that the denominator overflows.  A difference of 2^44
seconds or more is seen modulo 2^44. -/
structure Session.Regular (s : Session) (fileSize : Int32) : Prop where
  count : 0 ≤ fileSize
  writes : ∀ k < fileSize.toInt.toNat, 0 ≤ s.wcode k
  carry : s.start.tvUsec ≤ s.stop.tvUsec
  seconds : s.stop.tvSec - s.start.tvSec < 2 ^ 63
  low : 0 < (s.stop.tvSec - s.start.tvSec) % 2 ^ 44
  high : (s.stop.tvSec - s.start.tvSec) % 2 ^ 44 < 2 ^ 43

/-! ## The write loop -/

/-- The records that `n` turns write from the `k`-th `write` on. -/
def recordsWritten (wcode : Nat → Int) : Nat → Nat → Nat
  | 0, _ => 0
  | n + 1, k => if wcode k < 0 then 0 else recordsWritten wcode n (k + 1) + 1

theorem recordsWritten_eq_iff (wcode : Nat → Int) (n k : Nat) :
    recordsWritten wcode n k = n ↔ ∀ j, k ≤ j → j < k + n → 0 ≤ wcode j := by
  induction n generalizing k with
  | zero => simp [recordsWritten]; omega
  | succ n ih =>
      by_cases hfailed : wcode k < 0
      · rw [recordsWritten, if_pos hfailed]
        constructor
        · intro h
          omega
        · intro h
          have hk := h k (Nat.le_refl k) (by omega)
          omega
      · rw [recordsWritten, if_neg hfailed, Nat.add_right_cancel_iff, ih]
        constructor
        · intro h j hkj hj
          by_cases hjk : j = k
          · rw [hjk]
            omega
          · exact h j (by omega) (by omega)
        · intro h j hkj hj
          exact h j (by omega) (by omega)

section

variable {ndebug : Bool} {s : Session} {fd : Int} {text : List UInt8} {fileSize i : Int32}
  {bound n : Nat} {w : World}

abbrev writeLoop (s : Session) (ndebug : Bool) (fd : Int) (text : List UInt8) (fileSize : Int32)
    (bound : Nat) (i : Int32) (w : World) : Option (Unit × World) :=
  eval (world s) (iterate bound (writeLoopBody ndebug fd text fileSize) i) w

theorem world_openFile {path : String} {flags : List OpenFlag} {mode : Nat} :
    world s (.openFile path flags mode) w = some (s.fd, w) := rfl

theorem world_gettimeofday {now : Timeval} {clock : List Timeval} (h : w.clock = now :: clock) :
    world s .gettimeofday w = some (now, { w with clock := clock }) := by
  rw [world, h]

theorem writeLoop_exit (h : ¬ i < fileSize) :
    writeLoop s ndebug fd text fileSize (bound + 1) i w = some ((), w) := by
  rw [writeLoop, iterate, writeLoopBody, if_neg h]
  rfl

theorem writeLoop_failed (h : i < fileSize) (hw : s.wcode w.writes < 0) :
    writeLoop s ndebug fd text fileSize (bound + 1) i w =
      some ((), { w with writes := w.writes + 1 }) := by
  have hwrite : world s (.write fd (text.take getSize)) w =
      some (s.wcode w.writes, { w with writes := w.writes + 1 }) := by
    rw [world, Int.toNat_of_nonpos (Int.le_of_lt hw)]
    rfl
  rw [writeLoop, iterate, writeLoopBody, if_pos h, bind_assoc, eval_step hwrite, if_pos hw]
  rfl

theorem writeLoop_record (h : i < fileSize) (hw : ¬ s.wcode w.writes < 0) :
    writeLoop s ndebug fd text fileSize (bound + 1) i w =
      writeLoop s ndebug fd text fileSize bound (i + 1)
        { w with writes := w.writes + 1, written := w.written + getSize } := by
  have hwhole : s.wcode w.writes = getSize := (s.whole_or_failed w.writes).resolve_left hw
  have hwrite : world s (.write fd (text.take getSize)) w =
      some ((getSize : Int),
        { w with writes := w.writes + 1, written := w.written + getSize }) := by
    rw [world, hwhole]
    rfl
  rw [hwhole] at hw
  rw [writeLoop, iterate, writeLoopBody, if_pos h, bind_assoc, eval_step hwrite, if_neg hw,
    decide_eq_true rfl, Bool.or_true]
  rfl

/-- The loop runs to its end and has written the records up to the first failure. -/
theorem eval_writeLoop (hn : (fileSize.toInt - i.toInt).toNat = n) (hbound : n < bound) :
    ∃ writes, writeLoop s ndebug fd text fileSize bound i w =
      some ((), { w with
        writes := writes
        written := w.written + getSize * recordsWritten s.wcode n w.writes }) := by
  induction n generalizing i bound w with
  | zero =>
      obtain ⟨b, rfl⟩ := Nat.exists_eq_succ_of_ne_zero (Nat.ne_of_gt hbound)
      have hexit : ¬ i < fileSize := by
        rw [Int32.lt_iff_toInt_lt]
        omega
      exact ⟨w.writes, writeLoop_exit hexit⟩
  | succ n ih =>
      obtain ⟨b, rfl⟩ := Nat.exists_eq_succ_of_ne_zero (Nat.ne_of_gt (Nat.zero_lt_of_lt hbound))
      have hmore : i < fileSize := by
        rw [Int32.lt_iff_toInt_lt]
        omega
      by_cases hw : s.wcode w.writes < 0
      · refine ⟨w.writes + 1, ?_⟩
        rw [writeLoop_failed hmore hw, recordsWritten, if_pos hw]
        rfl
      · -- below `fileSize` the counter does not overflow
        have hi : (i + 1).toInt = i.toInt + 1 := by
          have hmin := i.le_toInt
          have hmax := fileSize.toInt_lt
          rw [Int32.toInt_add, show (1 : Int32).toInt = 1 from rfl]
          exact Int.bmod_eq_of_le (by omega) (by omega)
        obtain ⟨writes, hrest⟩ := @ih (i + 1) b
          { w with writes := w.writes + 1, written := w.written + getSize } (by omega) (by omega)
        refine ⟨writes, ?_⟩
        rw [writeLoop_record hmore hw, hrest, recordsWritten, if_neg hw, Nat.mul_add,
          Nat.mul_one, Nat.add_assoc, Nat.add_comm getSize]

/-- The world behind a run that could open the file. -/
def World.afterRun (s : Session) (fileSize : Int32) (writes : Nat) : World where
  clock := []
  writes := writes
  written := getSize * recordsWritten s.wcode fileSize.toInt.toNat 0
  printed := [.timeConsumed fileSize (seconds s.start s.stop),
    .performance (numerator fileSize) (denominator s.start s.stop)]

theorem eval_generate (ndebug : Bool) (fileSize : Int32) (hfd : 0 ≤ s.fd) :
    ∃ writes, eval (world s) (generate ndebug s.rand fileSize) { clock := [s.start, s.stop] } =
      some (.endOfBody, .afterRun s fileSize writes) := by
  have hbound : fileSize.toInt.toNat < loopBound := by
    have hmax := fileSize.toInt_lt
    rw [loopBound]
    omega
  have hn : (fileSize.toInt - (0 : Int32).toInt).toNat = fileSize.toInt.toNat := by
    rw [show (0 : Int32).toInt = 0 from rfl, Int.sub_zero]
  obtain ⟨writes, hloop⟩ := eval_writeLoop (s := s) (w := { clock := [s.stop] }) hn hbound
  refine ⟨writes, ?_⟩
  rw [generate, eval_step world_openFile, if_neg (Int.not_lt.mpr hfd),
    eval_step (world_gettimeofday rfl), eval_then hloop, Nat.zero_add,
    eval_step (world_gettimeofday rfl)]
  rfl

theorem eval_generate_closed (hfd : ¬ 0 ≤ s.fd) :
    eval (world s) (generate ndebug s.rand fileSize) { clock := [s.start, s.stop] } =
      some (.exit 0, { clock := [s.start, s.stop] }) := by
  rw [generate, eval_step world_openFile, if_pos (Int.not_le.mp hfd)]
  rfl

/-! ## The figures -/

theorem numerator_eq_iff (fileSize : Int32) (wcode : Nat → Int) :
    numerator fileSize = (getSize * recordsWritten wcode fileSize.toInt.toNat 0 : Nat) ↔
      0 ≤ fileSize ∧ ∀ k < fileSize.toInt.toNat, 0 ≤ wcode k := by
  have hrecords : numerator fileSize =
        (getSize * recordsWritten wcode fileSize.toInt.toNat 0 : Nat) ↔
      fileSize.toInt = recordsWritten wcode fileSize.toInt.toNat 0 := by
    rw [numerator, show getSize = 4096 from rfl]
    omega
  have hall := recordsWritten_eq_iff wcode fileSize.toInt.toNat 0
  rw [Nat.zero_add] at hall
  rw [hrecords, Int32.le_iff_toInt_le, show (0 : Int32).toInt = 0 from rfl]
  constructor
  · intro h
    refine ⟨by omega, fun k hk => ?_⟩
    exact hall.mp (by omega) k (Nat.zero_le k) hk
  · rintro ⟨hcount, hwrites⟩
    have hrest := hall.mpr fun k _ hk => hwrites k hk
    omega

/-- The elapsed time rounds down to the difference of the seconds fields unless the
microseconds carry. -/
theorem seconds_eq_iff (s : Session) :
    seconds s.start s.stop = (s.stop.usec - s.start.usec) / 1000000 ↔
      s.start.tvUsec ≤ s.stop.tvUsec ∧ s.stop.tvSec - s.start.tvSec < 2 ^ 63 := by
  have hstart := s.start_usec
  have hstop := s.stop_usec
  have hmin := s.start_sec
  have hmax := s.stop_sec
  have hlater := s.later
  unfold Timeval.usec at hlater ⊢
  rw [seconds]
  by_cases hfits : s.stop.tvSec - s.start.tvSec < 2 ^ 63
  · rw [long_of_small (by omega) hfits]
    omega
  · have hwrapped : long (s.stop.tvSec - s.start.tvSec) =
        s.stop.tvSec - s.start.tvSec - 2 ^ 64 := by
      rw [long, Int.bmod_def]
      split <;> omega
    rw [hwrapped]
    omega

theorem denominator_pos_iff (start stop : Timeval) :
    0 < denominator start stop ↔ 0 < (stop.tvSec - start.tvSec) % 2 ^ 44 ∧
      (stop.tvSec - start.tvSec) % 2 ^ 44 < 2 ^ 43 := by
  have hmod : 1024 * 1024 * (stop.tvSec - start.tvSec) % (2 ^ 64 : Nat) =
      1024 * 1024 * ((stop.tvSec - start.tvSec) % 2 ^ 44) := by
    omega
  rw [denominator, long, Int.bmod_def, hmod]
  split <;> omega

theorem honest_iff {sec num den : Int}
    (h : w.printed = [.timeConsumed fileSize sec, .performance num den]) :
    w.Honest s ↔
      sec = (s.stop.usec - s.start.usec) / 1000000 ∧ num = w.written ∧ 0 < den := by
  constructor
  · rintro ⟨hseconds, hthroughput⟩
    exact ⟨hseconds fileSize sec (by simp [h]), hthroughput num den (by simp [h])⟩
  · rintro ⟨hsec, hquotient⟩
    constructor
    · intro n sec' hline
      obtain ⟨rfl, rfl⟩ : n = fileSize ∧ sec' = sec := by simpa [h] using hline
      exact hsec
    · intro num' den' hline
      obtain ⟨rfl, rfl⟩ : num' = num ∧ den' = den := by simpa [h] using hline
      exact hquotient

theorem afterRun_honest_iff {writes : Nat} :
    (World.afterRun s fileSize writes).Honest s ↔ s.Regular fileSize := by
  have hnumerator := numerator_eq_iff fileSize s.wcode
  have hseconds := seconds_eq_iff s
  have hdenominator := denominator_pos_iff s.start s.stop
  rw [honest_iff (w := .afterRun s fileSize writes) rfl]
  constructor
  · rintro ⟨hsec, hnum, hden⟩
    obtain ⟨hcount, hwrites⟩ := hnumerator.mp hnum
    obtain ⟨hcarry, hfits⟩ := hseconds.mp hsec
    obtain ⟨hlow, hhigh⟩ := hdenominator.mp hden
    exact ⟨hcount, hwrites, hcarry, hfits, hlow, hhigh⟩
  · intro h
    have hsec := hseconds.mpr ⟨h.carry, h.seconds⟩
    have hnum := hnumerator.mpr ⟨h.count, h.writes⟩
    exact ⟨hsec, hnum, hdenominator.mpr ⟨h.low, h.high⟩⟩

/-- A run that prints no figures has none that are wrong. -/
theorem honest_of_usage (h : ∀ line ∈ w.printed, line = .usageFileSize ∨ line = .usageBufferSize) :
    w.Honest s := by
  constructor
  · intro n sec hline
    cases h _ hline with
    | inl h => cases h
    | inr h => cases h
  · intro num den hline
    cases h _ hline with
    | inl h => cases h
    | inr h => cases h

end

/-- The benchmark always ends, and it is honest about its work if and only if it
prints no figures, for an option it does not know or a file it cannot open, or the
session is regular. -/
theorem diskmain_reports_iff (ndebug : Bool) (opts : List Opt) (s : Session) :
    Reports ndebug opts s ↔
      ∀ fileSize, optionLoop 20 opts = some fileSize → 0 ≤ s.fd → s.Regular fileSize := by
  unfold Reports diskmain
  cases hopts : optionLoop 20 opts with
  | none =>
      constructor
      · intro _ fileSize h
        cases h
      · intro _
        exact ⟨_, _, rfl, honest_of_usage (by simp)⟩
  | some fileSize =>
      by_cases hfd : 0 ≤ s.fd
      · obtain ⟨writes, hrun⟩ := eval_generate ndebug fileSize hfd
        constructor
        · rintro ⟨e, w, hw, hhonest⟩ fileSize' hsame _
          cases hsame
          cases hrun.symm.trans hw
          exact afterRun_honest_iff.mp hhonest
        · intro h
          exact ⟨_, _, hrun, afterRun_honest_iff.mpr (h fileSize rfl hfd)⟩
      · constructor
        · intro _ fileSize' _ h
          exact absurd h hfd
        · intro _
          exact ⟨_, _, eval_generate_closed hfd, honest_of_usage (by simp)⟩

/-- The disk is full after ten records; the run takes two seconds. -/
def fullDisk : Session where
  rand _ := 0
  fd := 3
  wcode k := if k < 10 then 4096 else -1
  start := ⟨100, 0⟩
  stop := ⟨102, 0⟩
  whole_or_failed k := by
    by_cases h : k < 10
    · exact .inr (if_pos h)
    · exact .inl (by simp [h])
  start_sec := by decide
  stop_sec := by decide
  start_usec := by decide
  stop_usec := by decide
  later := by decide

def fullDiskEnd : World where
  clock := []
  writes := 11
  written := 40960
  printed := [.timeConsumed 20 2, .performance 81920 2097152]

/-- The throughput that is printed counts twenty records, of which ten were written. -/
theorem fullDisk_not_reported :
    eval (world fullDisk) (diskmain false fullDisk.rand []) { clock := [⟨100, 0⟩, ⟨102, 0⟩] } =
      some (.endOfBody, fullDiskEnd) ∧ ¬ Reports false [] fullDisk := by
  have hrun : eval (world fullDisk) (diskmain false fullDisk.rand [])
      { clock := [⟨100, 0⟩, ⟨102, 0⟩] } = some (.endOfBody, fullDiskEnd) := by
    rfl
  refine ⟨hrun, ?_⟩
  rintro ⟨e, w, hw, hhonest⟩
  cases hrun.symm.trans hw
  have hnum := (hhonest.throughput 81920 2097152 (by simp [fullDiskEnd])).1
  cases hnum

end Disk
end CommSpeed
