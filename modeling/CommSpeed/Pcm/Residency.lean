/-
The residencies of a core in its C-states, from cpucounters.h.

The residency in a state is the share of the time stamp counter that its own counter has
taken, as a `double`.  State 1 has no counter and gets what the others leave; as counters
are not read at one instant they may leave less than nothing, and the figure then is 0.
So the residencies of all states add up to 1, or to the measured ones alone if these are
more, but for what is lost in ten subtractions of doubles.
-/
import CommSpeed.Pcm.Counters
import Mathlib.Algebra.Order.Group.MinMax

namespace CommSpeed
namespace Pcm

open Number

/-- `coreCStateMsr` may be `NULL`; a state without a counter has the address 0. -/
def isCoreCStateResidencySupported (coreCStateMsr : Option (Fin (maxCState + 1) → UInt64))
    (state : Fin (maxCState + 1)) : Bool :=
  if state = 0 ∨ state = 1 then true
  else
    match coreCStateMsr with
    | none => false
    | some msr => msr state != 0

/-- Two readings with different time stamps. -/
structure Interval where
  before : BasicCounterState
  after : BasicCounterState
  ticking : getInvariantTSC before after ≠ 0

section

variable (coreCStateMsr : Option (Fin (maxCState + 1) → UInt64)) (x : Interval)

def Interval.tsc : Rat := double (getInvariantTSC x.before x.after).toNat

/-- The share of the time in which the counter of a state has run. -/
def cStateShare (state : Fin (maxCState + 1)) : Rat :=
  double (double (x.after.cStateResidency state - x.before.cStateResidency state).toNat / x.tsc)

/-- The states 2 to `MAX_C_STATE`. -/
def deepStates : List (Fin (maxCState + 1)) := (List.finRange (maxCState + 1)).drop 2

/-- The loop asks for support of `state`, not of the state it is at. -/
def getCoreCStateResidency (state : Fin (maxCState + 1)) : Rat :=
  if state = 0 then double (double (getRefCycles x.before x.after).toNat / x.tsc)
  else if state = 1 then
    let result := double (1 - double (double (getRefCycles x.before x.after).toNat / x.tsc))
    let result := deepStates.foldl (fun result i =>
      if isCoreCStateResidencySupported coreCStateMsr state then double (result - cStateShare x i)
      else result) result
    if result < 0 then 0 else if result > 1 then 1 else result
  else cStateShare x state

end

/-- The states with a counter. -/
def measuredStates : List (Fin (maxCState + 1)) := 0 :: deepStates

section

variable {coreCStateMsr : Option (Fin (maxCState + 1) → UInt64)} {x : Interval}

/-- The residency in the states that are measured. -/
def measured (coreCStateMsr : Option (Fin (maxCState + 1) → UInt64)) (x : Interval) : Rat :=
  (measuredStates.map (getCoreCStateResidency coreCStateMsr x)).sum

theorem double_share (m : UInt64) :
    binary64.OnGrid (double (double m.toNat / x.tsc)) ∧ 0 ≤ double (double m.toNat / x.tsc) :=
  ⟨Format.onGrid_round _, double_nonneg <|
    div_nonneg (double_nonneg (Nat.cast_nonneg _)) (double_nonneg (Nat.cast_nonneg _))⟩

theorem residency_deep {i : Fin (maxCState + 1)} (hi : i ∈ deepStates) :
    getCoreCStateResidency coreCStateMsr x i = cStateShare x i := by
  have hne : ∀ i ∈ deepStates, i ≠ 0 ∧ i ≠ 1 := by decide
  rw [getCoreCStateResidency, if_neg (hne i hi).1, if_neg (hne i hi).2]

/-- A measured residency is a nonnegative double. -/
theorem residency_measured {i : Fin (maxCState + 1)} (hi : i ∈ measuredStates) :
    binary64.OnGrid (getCoreCStateResidency coreCStateMsr x i) ∧
      0 ≤ getCoreCStateResidency coreCStateMsr x i := by
  rcases List.mem_cons.mp hi with rfl | hi
  · exact double_share _
  · rw [residency_deep hi]
    exact double_share _

theorem measured_nonneg : 0 ≤ measured coreCStateMsr x := by
  refine List.sum_nonneg fun y hy => ?_
  obtain ⟨i, hi, rfl⟩ := List.mem_map.mp hy
  exact (residency_measured hi).2

/-- What state 1 gets before it is cut off: 1 less the measured residencies, one after the
other. -/
def rest (coreCStateMsr : Option (Fin (maxCState + 1) → UInt64)) (x : Interval) : Rat :=
  measuredStates.foldl
    (fun result i => double (result - getCoreCStateResidency coreCStateMsr x i)) 1

theorem residency_one : getCoreCStateResidency coreCStateMsr x 1 =
    max 0 (min 1 (rest coreCStateMsr x)) := by
  have hloop : deepStates.foldl (fun result i =>
      if isCoreCStateResidencySupported coreCStateMsr 1 then double (result - cStateShare x i)
      else result) (double (1 - double (double (getRefCycles x.before x.after).toNat / x.tsc))) =
      rest coreCStateMsr x := by
    have hsupported : isCoreCStateResidencySupported coreCStateMsr 1 = true := if_pos (.inr rfl)
    rw [rest, measuredStates, List.foldl_cons]
    refine List.foldl_ext _ _ _ fun result i hi => ?_
    rw [if_pos hsupported, residency_deep hi]
  rw [getCoreCStateResidency, if_neg (by decide), if_pos rfl]
  dsimp only
  rw [hloop]
  by_cases hlow : rest coreCStateMsr x < 0
  · rw [if_pos hlow, max_eq_left (min_le_of_right_le hlow.le)]
  · rw [if_neg hlow]
    by_cases hhigh : rest coreCStateMsr x > 1
    · rw [if_pos hhigh, min_eq_left hhigh.le, max_eq_right zero_le_one]
    · rw [if_neg hhigh, min_eq_right (not_lt.mp hhigh), max_eq_right (not_lt.mp hlow)]

/-- The error of the ten subtractions. -/
theorem abs_rest_sub_le :
    |rest coreCStateMsr x - (1 - measured coreCStateMsr x)| ≤
      max 1 (measured coreCStateMsr x) / 2 ^ 49 := by
  have hone : binary64.OnGrid (1 : Rat) := by
    have hround : double 1 = 1 := double_natCast (by decide)
    rw [← hround]
    exact Format.onGrid_round 1
  have hbound : (1 : Rat) ≤ max 1 (measured coreCStateMsr x) := le_max_left _ _
  have hmeasured : measured coreCStateMsr x ≤ max 1 (measured coreCStateMsr x) := le_max_right _ _
  have herror := Format.abs_foldl_sub_le 0 (fun i hi => residency_measured hi) hone hbound
    (show -_ ≤ 1 - measured coreCStateMsr x by linarith) (by simp)
  have hfactor : (1 + 1 / 2 ^ 53 : Rat) ^ 10 - 1 ≤ 1 / 2 ^ 49 := by norm_num
  refine herror.trans ((mul_le_mul_of_nonneg_right hfactor ?_).trans_eq ?_)
  · exact zero_le_one.trans hbound
  · rw [one_div_mul_eq_div]

/-- The residencies add up to 1, or to those that are measured if these are more, up to
rounding. -/
theorem residency_sum (coreCStateMsr : Option (Fin (maxCState + 1) → UInt64)) (x : Interval) :
    |((List.finRange (maxCState + 1)).map (getCoreCStateResidency coreCStateMsr x)).sum -
        max 1 (measured coreCStateMsr x)| ≤ max 1 (measured coreCStateMsr x) / 2 ^ 49 := by
  have hstates : List.finRange (maxCState + 1) = 0 :: 1 :: deepStates := by decide
  have hsum : ((List.finRange (maxCState + 1)).map (getCoreCStateResidency coreCStateMsr x)).sum =
      max (min 1 (rest coreCStateMsr x)) 0 + measured coreCStateMsr x := by
    rw [hstates, List.map_cons, List.map_cons, List.sum_cons, List.sum_cons, residency_one,
      add_left_comm, max_comm]
    rfl
  have hmax : max 1 (measured coreCStateMsr x) =
      max (min 1 (1 - measured coreCStateMsr x)) 0 + measured coreCStateMsr x := by
    rw [min_eq_right (sub_le_self 1 measured_nonneg), max_add, zero_add, sub_add_cancel]
  calc |((List.finRange (maxCState + 1)).map (getCoreCStateResidency coreCStateMsr x)).sum -
        max 1 (measured coreCStateMsr x)|
      = |max (min 1 (rest coreCStateMsr x)) 0 - max (min 1 (1 - measured coreCStateMsr x)) 0| := by
        rw [hsum, hmax, add_sub_add_right_eq_sub]
    _ ≤ |min 1 (rest coreCStateMsr x) - min 1 (1 - measured coreCStateMsr x)| :=
        abs_max_sub_max_le_abs _ _ _
    _ ≤ max |1 - 1| |rest coreCStateMsr x - (1 - measured coreCStateMsr x)| :=
        abs_min_sub_min_le_max _ _ _ _
    _ = |rest coreCStateMsr x - (1 - measured coreCStateMsr x)| := by
        rw [sub_self, abs_zero, max_eq_right (abs_nonneg _)]
    _ ≤ max 1 (measured coreCStateMsr x) / 2 ^ 49 := abs_rest_sub_le

/-- State 1 gets more than the third and the sixth leave. -/
example : ∃ x : Interval, measured none x < 1 ∧
    1 < ((List.finRange (maxCState + 1)).map (getCoreCStateResidency none x)).sum :=
  ⟨{ before := {}
     after :=
       { cpuClkUnhaltedRef := 2, invariantTSC := 6
         cStateResidency := fun i => if i = 2 then 1 else 0 }
     ticking := by decide }, by decide +kernel, by decide +kernel⟩

end

end Pcm
end CommSpeed
