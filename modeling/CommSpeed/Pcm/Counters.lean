/-
The counter states of cpucounters.h and what is computed from them.

Every state holds running 64-bit counts.  The states of the cores are added up to those
of the sockets and these to the state of the system, and a metric is the
difference of two states.  Differences and sums are taken modulo 2^64, so they commute:
a metric of the system is the sum of the metric over the cores, and it is exact if
that sum fits, whatever counters have wrapped around.

The hit ratios are quotients of such metrics, each of which is rounded to a `double`
before they are divided.  The ratio of the system lies between those of its cores as long
as a `double` has room for the requests, and nearly so from there on.
-/
import CommSpeed.Number.Rounding
import CommSpeed.Number.Wrapping
import Mathlib.Algebra.BigOperators.Ring.Finset
import Mathlib.Algebra.Order.Ring.Rat
import Mathlib.Data.Rat.Cast.Order

namespace CommSpeed
namespace Pcm

open Number

/-- `PCM::ATOM`. -/
def atom : UInt32 := 28

/-- `PCM::MAX_C_STATE`. -/
def maxCState : Nat := 10

def invalidThermalHeadroom : Int32 := Int32.minValue

/-- The first four events share their fields: `L3Miss` is `Event0` and `ArchLLCMiss`,
`L3UnsharedHit` is `Event1` and `ArchLLCRef`, `L2HitM` is `Event2` and `L2Hit` is
`Event3`. -/
structure BasicCounterState where
  instRetiredAny : UInt64 := 0
  cpuClkUnhaltedThread : UInt64 := 0
  cpuClkUnhaltedRef : UInt64 := 0
  l3Miss : UInt64 := 0
  l3UnsharedHit : UInt64 := 0
  l2HitM : UInt64 := 0
  l2Hit : UInt64 := 0
  invariantTSC : UInt64 := 0
  cStateResidency : Fin (maxCState + 1) → UInt64 := fun _ => 0
  thermalHeadroom : Int32 := invalidThermalHeadroom
  l3Occupancy : UInt64 := 0

structure UncoreCounterState where
  uncMCFullWrites : UInt64 := 0
  uncMCNormalReads : UInt64 := 0
  uncMCIORequests : UInt64 := 0
  packageEnergyStatus : UInt64 := 0
  dramEnergyStatus : UInt64 := 0
  cStateResidency : Fin (maxCState + 1) → UInt64 := fun _ => 0

/-- `operator +=`; the thermal headroom is not accumulative. -/
def BasicCounterState.accumulate (s o : BasicCounterState) : BasicCounterState where
  instRetiredAny := s.instRetiredAny + o.instRetiredAny
  cpuClkUnhaltedThread := s.cpuClkUnhaltedThread + o.cpuClkUnhaltedThread
  cpuClkUnhaltedRef := s.cpuClkUnhaltedRef + o.cpuClkUnhaltedRef
  l3Miss := s.l3Miss + o.l3Miss
  l3UnsharedHit := s.l3UnsharedHit + o.l3UnsharedHit
  l2HitM := s.l2HitM + o.l2HitM
  l2Hit := s.l2Hit + o.l2Hit
  invariantTSC := s.invariantTSC + o.invariantTSC
  cStateResidency i := s.cStateResidency i + o.cStateResidency i
  thermalHeadroom := s.thermalHeadroom
  l3Occupancy := s.l3Occupancy + o.l3Occupancy

def UncoreCounterState.accumulate (s o : UncoreCounterState) : UncoreCounterState where
  uncMCFullWrites := s.uncMCFullWrites + o.uncMCFullWrites
  uncMCNormalReads := s.uncMCNormalReads + o.uncMCNormalReads
  uncMCIORequests := s.uncMCIORequests + o.uncMCIORequests
  packageEnergyStatus := s.packageEnergyStatus + o.packageEnergyStatus
  dramEnergyStatus := s.dramEnergyStatus + o.dramEnergyStatus
  cStateResidency i := s.cStateResidency i + o.cStateResidency i

structure SocketCounterState where
  basic : BasicCounterState := {}
  uncore : UncoreCounterState := {}

def SocketCounterState.accumulateCoreState (s : SocketCounterState) (o : BasicCounterState) :
    SocketCounterState := { s with basic := s.basic.accumulate o }

structure SystemCounterState where
  basic : BasicCounterState := {}
  uncore : UncoreCounterState := {}

def SystemCounterState.accumulateSocketState (s : SystemCounterState) (o : SocketCounterState) :
    SystemCounterState where
  basic := s.basic.accumulate o.basic
  uncore := s.uncore.accumulate o.uncore

/-! ## Metrics of the cores -/

section

variable (before after : BasicCounterState)

def getInstructionsRetired : UInt64 := after.instRetiredAny - before.instRetiredAny

def getCycles : UInt64 := after.cpuClkUnhaltedThread - before.cpuClkUnhaltedThread

def getRefCycles : UInt64 := after.cpuClkUnhaltedRef - before.cpuClkUnhaltedRef

def getL3CacheMisses (model : UInt32) : UInt64 :=
  if model = atom then 0 else after.l3Miss - before.l3Miss

def getL2CacheMisses (model : UInt32) : UInt64 :=
  if model = atom then after.l3Miss - before.l3Miss
  else
    let l3Miss := after.l3Miss - before.l3Miss
    let l3UnsharedHit := after.l3UnsharedHit - before.l3UnsharedHit
    let l2HitM := after.l2HitM - before.l2HitM
    l2HitM + l3UnsharedHit + l3Miss

def getL2CacheHits (model : UInt32) : UInt64 :=
  if model = atom then
    let l2Miss := after.l3Miss - before.l3Miss
    let l2Ref := after.l3UnsharedHit - before.l3UnsharedHit
    l2Ref - l2Miss
  else after.l2Hit - before.l2Hit

def getL3CacheHitsNoSnoop (model : UInt32) : UInt64 :=
  if model = atom then 0 else after.l3UnsharedHit - before.l3UnsharedHit

def getL3CacheHitsSnoop (model : UInt32) : UInt64 :=
  if model = atom then 0 else after.l2HitM - before.l2HitM

def getL3CacheHits (model : UInt32) : UInt64 :=
  if model = atom then 0
  else getL3CacheHitsSnoop before after model + getL3CacheHitsNoSnoop before after model

def getInvariantTSC : UInt64 := after.invariantTSC - before.invariantTSC

/-- The events, one field behind the other from `Event0` on. -/
def BasicCounterState.event (s : BasicCounterState) : Fin 4 → UInt64
  | 0 => s.l3Miss
  | 1 => s.l3UnsharedHit
  | 2 => s.l2HitM
  | 3 => s.l2Hit

def getNumberOfCustomEvents (eventCounterNr : Fin 4) : UInt64 :=
  after.event eventCounterNr - before.event eventCounterNr

end

inductive Metric
  | instructionsRetired
  | cycles
  | refCycles
  | l3CacheMisses
  | l2CacheMisses
  | l2CacheHits
  | l3CacheHitsNoSnoop
  | l3CacheHitsSnoop
  | l3CacheHits
  | invariantTSC
  | customEvents (eventCounterNr : Fin 4)

def Metric.get (model : UInt32) (before after : BasicCounterState) : Metric → UInt64
  | .instructionsRetired => getInstructionsRetired before after
  | .cycles => getCycles before after
  | .refCycles => getRefCycles before after
  | .l3CacheMisses => getL3CacheMisses before after model
  | .l2CacheMisses => getL2CacheMisses before after model
  | .l2CacheHits => getL2CacheHits before after model
  | .l3CacheHitsNoSnoop => getL3CacheHitsNoSnoop before after model
  | .l3CacheHitsSnoop => getL3CacheHitsSnoop before after model
  | .l3CacheHits => getL3CacheHits before after model
  | .invariantTSC => getInvariantTSC before after
  | .customEvents n => getNumberOfCustomEvents before after n

/-! ## Metrics of the sockets -/

section

variable (before after : UncoreCounterState)

def getBytesReadFromMC : UInt64 := (after.uncMCNormalReads - before.uncMCNormalReads) * 64

def getBytesWrittenToMC : UInt64 := (after.uncMCFullWrites - before.uncMCFullWrites) * 64

def getIORequestBytesFromMC : UInt64 := (after.uncMCIORequests - before.uncMCIORequests) * 64

def getConsumedEnergy : UInt64 := after.packageEnergyStatus - before.packageEnergyStatus

def getDRAMConsumedEnergy : UInt64 := after.dramEnergyStatus - before.dramEnergyStatus

end

inductive UncoreMetric
  | bytesReadFromMC
  | bytesWrittenToMC
  | ioRequestBytesFromMC
  | consumedEnergy
  | dramConsumedEnergy

def UncoreMetric.get (before after : UncoreCounterState) : UncoreMetric → UInt64
  | .bytesReadFromMC => getBytesReadFromMC before after
  | .bytesWrittenToMC => getBytesWrittenToMC before after
  | .ioRequestBytesFromMC => getIORequestBytesFromMC before after
  | .consumedEnergy => getConsumedEnergy before after
  | .dramConsumedEnergy => getDRAMConsumedEnergy before after

/-! ## Counts that add up -/

/-- A count of a state that accumulates. -/
structure Counts (c : BasicCounterState → UInt64) : Prop where
  fresh : c {} = 0
  accumulate : ∀ s o, c (s.accumulate o) = c s + c o

/-- The running count behind a metric. -/
def Metric.count (model : UInt32) (s : BasicCounterState) : Metric → UInt64
  | .instructionsRetired => s.instRetiredAny
  | .cycles => s.cpuClkUnhaltedThread
  | .refCycles => s.cpuClkUnhaltedRef
  | .l3CacheMisses => if model = atom then 0 else s.l3Miss
  | .l2CacheMisses => if model = atom then s.l3Miss else s.l2HitM + s.l3UnsharedHit + s.l3Miss
  | .l2CacheHits => if model = atom then s.l3UnsharedHit - s.l3Miss else s.l2Hit
  | .l3CacheHitsNoSnoop => if model = atom then 0 else s.l3UnsharedHit
  | .l3CacheHitsSnoop => if model = atom then 0 else s.l2HitM
  | .l3CacheHits => if model = atom then 0 else s.l2HitM + s.l3UnsharedHit
  | .invariantTSC => s.invariantTSC
  | .customEvents n => s.event n

section

variable {model : UInt32}

theorem counts_event (n : Fin 4) : Counts fun s => s.event n :=
  match n with
  | 0 => ⟨rfl, fun _ _ => rfl⟩
  | 1 => ⟨rfl, fun _ _ => rfl⟩
  | 2 => ⟨rfl, fun _ _ => rfl⟩
  | 3 => ⟨rfl, fun _ _ => rfl⟩

theorem Counts.add {c d : BasicCounterState → UInt64} (hc : Counts c) (hd : Counts d) :
    Counts fun s => c s + d s where
  fresh := by rw [hc.fresh, hd.fresh, add_zero]
  accumulate s o := by
    rw [hc.accumulate, hd.accumulate]
    abel

theorem Counts.sub {c d : BasicCounterState → UInt64} (hc : Counts c) (hd : Counts d) :
    Counts fun s => c s - d s where
  fresh := by rw [hc.fresh, hd.fresh, sub_zero]
  accumulate s o := by
    rw [hc.accumulate, hd.accumulate]
    abel

/-- A count that a model lacks is another one there. -/
theorem Counts.ite {c d : BasicCounterState → UInt64} (hc : Counts c) (hd : Counts d) :
    Counts fun s => if model = atom then c s else d s := by
  by_cases h : model = atom
  · simp only [if_pos h]
    exact hc
  · simp only [if_neg h]
    exact hd

theorem counts_zero : Counts fun _ => 0 := ⟨rfl, fun _ _ => (add_zero _).symm⟩

theorem Metric.counts (model : UInt32) (metric : Metric) :
    Counts fun s => metric.count model s := by
  have hmiss := counts_event 0
  have hshared := counts_event 1
  have hitM := counts_event 2
  cases metric with
  | instructionsRetired => exact ⟨rfl, fun _ _ => rfl⟩
  | cycles => exact ⟨rfl, fun _ _ => rfl⟩
  | refCycles => exact ⟨rfl, fun _ _ => rfl⟩
  | l3CacheMisses => exact counts_zero.ite hmiss
  | l2CacheMisses => exact hmiss.ite ((hitM.add hshared).add hmiss)
  | l2CacheHits => exact (hshared.sub hmiss).ite (counts_event 3)
  | l3CacheHitsNoSnoop => exact counts_zero.ite hshared
  | l3CacheHitsSnoop => exact counts_zero.ite hitM
  | l3CacheHits => exact counts_zero.ite (hitM.add hshared)
  | invariantTSC => exact ⟨rfl, fun _ _ => rfl⟩
  | customEvents n => exact counts_event n

/-- A metric is what its count has grown by. -/
theorem Metric.get_eq (metric : Metric) (before after : BasicCounterState) :
    metric.get model before after = metric.count model after - metric.count model before := by
  by_cases h : model = atom
  · cases metric <;> simp only [Metric.get, Metric.count, getInstructionsRetired, getCycles,
      getRefCycles, getL3CacheMisses, getL2CacheMisses, getL2CacheHits, getL3CacheHitsNoSnoop,
      getL3CacheHitsSnoop, getL3CacheHits, getInvariantTSC, getNumberOfCustomEvents, if_pos h,
      sub_zero]
    abel
  · cases metric <;> simp only [Metric.get, Metric.count, getInstructionsRetired, getCycles,
      getRefCycles, getL3CacheMisses, getL2CacheMisses, getL2CacheHits, getL3CacheHitsNoSnoop,
      getL3CacheHitsSnoop, getL3CacheHits, getInvariantTSC, getNumberOfCustomEvents, if_neg h]
    · abel
    · abel

end

/-! ## Sums over the cores and sockets -/

/-- What is read of a socket: its cores and its own counters. -/
structure Reading where
  cores : List BasicCounterState
  uncore : UncoreCounterState

/-- The state of a socket from the states of its cores. -/
def Reading.socket (x : Reading) : SocketCounterState :=
  x.cores.foldl .accumulateCoreState { uncore := x.uncore }

/-- The state of the system from those of the sockets. -/
def collect (xs : List Reading) : SystemCounterState :=
  (xs.map Reading.socket).foldl .accumulateSocketState {}

/-- The readings of a socket at the beginning and at the end of a measurement. -/
structure Span where
  cores : List (BasicCounterState × BasicCounterState)
  uncore : UncoreCounterState × UncoreCounterState

def Span.before (x : Span) : Reading := ⟨x.cores.map Prod.fst, x.uncore.1⟩

def Span.after (x : Span) : Reading := ⟨x.cores.map Prod.snd, x.uncore.2⟩

def cores (xs : List Span) : List (BasicCounterState × BasicCounterState) := xs.flatMap Span.cores

section

variable {model : UInt32} {c : BasicCounterState → UInt64}

theorem Counts.foldl_cores (hc : Counts c) (s : SocketCounterState)
    (l : List BasicCounterState) :
    c (l.foldl .accumulateCoreState s).basic = c s.basic + (l.map c).sum := by
  induction l generalizing s with
  | nil => exact (add_zero _).symm
  | cons o l ih =>
      rw [List.foldl_cons, ih, List.map_cons, List.sum_cons, ← add_assoc]
      exact congrArg (· + _) (hc.accumulate s.basic o)

theorem Counts.foldl_sockets (hc : Counts c) (s : SystemCounterState)
    (l : List SocketCounterState) :
    c (l.foldl .accumulateSocketState s).basic = c s.basic + (l.map fun o => c o.basic).sum := by
  induction l generalizing s with
  | nil => exact (add_zero _).symm
  | cons o l ih =>
      rw [List.foldl_cons, ih, List.map_cons, List.sum_cons, ← add_assoc]
      exact congrArg (· + _) (hc.accumulate s.basic o.basic)

/-- A count of the system is the sum of the counts of all cores. -/
theorem Counts.collect (hc : Counts c) (xs : List Reading) :
    c (collect xs).basic = ((xs.flatMap Reading.cores).map c).sum := by
  have hsocket : ∀ x : Reading, c x.socket.basic = (x.cores.map c).sum := by
    intro x
    rw [Reading.socket, hc.foldl_cores, hc.fresh, zero_add]
  rw [Pcm.collect, hc.foldl_sockets, hc.fresh, zero_add, List.map_map, List.map_flatMap,
    List.flatMap_def, List.sum_flatten, List.map_map]
  exact congrArg List.sum (List.map_congr_left fun x _ => hsocket x)

/-- A metric of the system is the sum of the metric over the cores. -/
theorem Metric.collect (metric : Metric) (xs : List Span) :
    metric.get model (collect (xs.map Span.before)).basic (collect (xs.map Span.after)).basic =
      ((cores xs).map fun x => metric.get model x.1 x.2).sum := by
  have hcounts := metric.counts model
  have hbefore : (xs.map Span.before).flatMap Reading.cores = (cores xs).map Prod.fst := by
    rw [cores, List.flatMap_map, List.map_flatMap]
    rfl
  have hafter : (xs.map Span.after).flatMap Reading.cores = (cores xs).map Prod.snd := by
    rw [cores, List.flatMap_map, List.map_flatMap]
    rfl
  rw [metric.get_eq, hcounts.collect, hcounts.collect, hbefore, hafter, List.map_map,
    List.map_map, ← sum_map_sub]
  exact congrArg List.sum (List.map_congr_left fun x _ => (metric.get_eq x.1 x.2).symm)

theorem Metric.toNat_collect (model : UInt32) (metric : Metric) (xs : List Span) :
    (metric.get model (Pcm.collect (xs.map Span.before)).basic
      (Pcm.collect (xs.map Span.after)).basic).toNat =
      ((cores xs).map fun x => (metric.get model x.1 x.2).toNat).sum % 2 ^ 64 := by
  rw [metric.collect, toNat_sum, List.map_map]
  rfl

/-! ### Counts of the sockets -/

/-- The running count behind a metric of the sockets. -/
def UncoreMetric.count (s : UncoreCounterState) : UncoreMetric → UInt64
  | .bytesReadFromMC => s.uncMCNormalReads * 64
  | .bytesWrittenToMC => s.uncMCFullWrites * 64
  | .ioRequestBytesFromMC => s.uncMCIORequests * 64
  | .consumedEnergy => s.packageEnergyStatus
  | .dramConsumedEnergy => s.dramEnergyStatus

theorem UncoreMetric.get_eq (metric : UncoreMetric) (before after : UncoreCounterState) :
    metric.get before after = metric.count after - metric.count before := by
  cases metric with
  | bytesReadFromMC => exact sub_mul _ _ _
  | bytesWrittenToMC => exact sub_mul _ _ _
  | ioRequestBytesFromMC => exact sub_mul _ _ _
  | consumedEnergy => rfl
  | dramConsumedEnergy => rfl

theorem UncoreMetric.count_accumulate (metric : UncoreMetric) (s o : UncoreCounterState) :
    metric.count (s.accumulate o) = metric.count s + metric.count o := by
  cases metric with
  | bytesReadFromMC => exact add_mul _ _ _
  | bytesWrittenToMC => exact add_mul _ _ _
  | ioRequestBytesFromMC => exact add_mul _ _ _
  | consumedEnergy => rfl
  | dramConsumedEnergy => rfl

theorem UncoreMetric.count_fresh (metric : UncoreMetric) : metric.count {} = 0 := by
  cases metric <;> rfl

/-- The cores leave the counters of their socket alone. -/
theorem uncore_foldl_cores (s : SocketCounterState) (l : List BasicCounterState) :
    (l.foldl .accumulateCoreState s).uncore = s.uncore := by
  induction l generalizing s with
  | nil => rfl
  | cons o l ih => exact ih _

theorem UncoreMetric.count_collect (metric : UncoreMetric) (xs : List Reading) :
    metric.count (Pcm.collect xs).uncore = (xs.map fun x => metric.count x.uncore).sum := by
  have hfold : ∀ (l : List SocketCounterState) (s : SystemCounterState),
      metric.count (l.foldl .accumulateSocketState s).uncore =
        metric.count s.uncore + (l.map fun o => metric.count o.uncore).sum := by
    intro l
    induction l with
    | nil => exact fun s => (add_zero _).symm
    | cons o l ih =>
        intro s
        rw [List.foldl_cons, ih, List.map_cons, List.sum_cons, ← add_assoc]
        exact congrArg (· + _) (metric.count_accumulate s.uncore o.uncore)
  rw [Pcm.collect, hfold, metric.count_fresh, zero_add, List.map_map]
  refine congrArg List.sum (List.map_congr_left fun x _ => ?_)
  exact congrArg (fun u => metric.count u) (uncore_foldl_cores _ x.cores)

theorem UncoreMetric.toNat_collect (metric : UncoreMetric) (xs : List Span) :
    (metric.get (Pcm.collect (xs.map Span.before)).uncore
      (Pcm.collect (xs.map Span.after)).uncore).toNat =
      (xs.map fun x => (metric.get x.uncore.1 x.uncore.2).toNat).sum % 2 ^ 64 := by
  have hsum : metric.get (Pcm.collect (xs.map Span.before)).uncore
      (Pcm.collect (xs.map Span.after)).uncore =
        (xs.map fun x => metric.get x.uncore.1 x.uncore.2).sum := by
    rw [metric.get_eq, metric.count_collect, metric.count_collect, List.map_map, List.map_map,
      ← sum_map_sub]
    exact congrArg List.sum (List.map_congr_left fun x _ => (metric.get_eq _ _).symm)
  rw [hsum, toNat_sum, List.map_map]
  rfl

end

/-- Every metric of the system is the sum of the metric over the cores or sockets, modulo
2^64, whatever has wrapped around. -/
theorem system_metric (model : UInt32) (xs : List Span) :
    (∀ metric : Metric,
      (metric.get model (collect (xs.map Span.before)).basic
        (collect (xs.map Span.after)).basic).toNat =
        ((cores xs).map fun x => (metric.get model x.1 x.2).toNat).sum % 2 ^ 64) ∧
    ∀ metric : UncoreMetric,
      (metric.get (collect (xs.map Span.before)).uncore
        (collect (xs.map Span.after)).uncore).toNat =
        (xs.map fun x => (metric.get x.uncore.1 x.uncore.2).toNat).sum % 2 ^ 64 :=
  ⟨fun metric => metric.toNat_collect model xs, fun metric => metric.toNat_collect xs⟩

/-! ## Hit ratios -/

section

variable (model : UInt32) (before after : BasicCounterState)

def getL2CacheHitRatio : Rat :=
  if model = atom then
    let l2Miss := after.l3Miss - before.l3Miss
    let l2Ref := after.l3UnsharedHit - before.l3UnsharedHit
    if l2Ref ≠ 0 then double (1 - double (double l2Miss.toNat / double l2Ref.toNat)) else 1
  else
    let l3Miss := after.l3Miss - before.l3Miss
    let l3UnsharedHit := after.l3UnsharedHit - before.l3UnsharedHit
    let l2HitM := after.l2HitM - before.l2HitM
    let l2Hit := after.l2Hit - before.l2Hit
    let hits := l2Hit
    let all := l2Hit + l2HitM + l3UnsharedHit + l3Miss
    if all ≠ 0 then double (double hits.toNat / double all.toNat) else 1

def getL3CacheHitRatio : Rat :=
  if model = atom then -1
  else
    let l3Miss := after.l3Miss - before.l3Miss
    let l3UnsharedHit := after.l3UnsharedHit - before.l3UnsharedHit
    let l2HitM := after.l2HitM - before.l2HitM
    let hits := l3UnsharedHit + l2HitM
    let all := l2HitM + l3UnsharedHit + l3Miss
    if all ≠ 0 then double (double hits.toNat / double all.toNat) else 1

end

inductive Level
  | l2
  | l3

def Level.hitRatio (model : UInt32) (before after : BasicCounterState) : Level → Rat
  | .l2 => getL2CacheHitRatio model before after
  | .l3 => getL3CacheHitRatio model before after

/-- How often an event has been counted in a measurement. -/
def ticks (x : BasicCounterState × BasicCounterState) (n : Fin 4) : Nat :=
  (getNumberOfCustomEvents x.1 x.2 n).toNat

def Level.hits (x : BasicCounterState × BasicCounterState) : Level → Nat
  | .l2 => ticks x 3
  | .l3 => ticks x 1 + ticks x 2

/-- The requests that reach a level. -/
def Level.requests (x : BasicCounterState × BasicCounterState) : Level → Nat
  | .l2 => ticks x 3 + ticks x 2 + ticks x 1 + ticks x 0
  | .l3 => ticks x 2 + ticks x 1 + ticks x 0

/-- The share of the hits, before any rounding. -/
def Level.share (level : Level) (x : BasicCounterState × BasicCounterState) : Rat :=
  level.hits x / level.requests x

theorem Level.share_nonneg (level : Level) (x : BasicCounterState × BasicCounterState) :
    0 ≤ level.share x := div_nonneg (Nat.cast_nonneg _) (Nat.cast_nonneg _)

section

variable {model : UInt32} {xs : List Span}

theorem Level.hits_le (level : Level) (x : BasicCounterState × BasicCounterState) :
    level.hits x ≤ level.requests x := by
  cases level with
  | l2 =>
      show ticks x 3 ≤ ticks x 3 + ticks x 2 + ticks x 1 + ticks x 0
      omega
  | l3 =>
      show ticks x 1 + ticks x 2 ≤ ticks x 2 + ticks x 1 + ticks x 0
      omega

/-- A quotient of two sums of words that fit. -/
theorem ratio_eq {part whole : UInt64} {hits requests : Nat} (hpart : part.toNat = hits)
    (hwhole : whole.toNat = requests) :
    (if whole ≠ 0 then double (double part.toNat / double whole.toNat) else 1) =
      if requests ≠ 0 then double (double hits / double requests) else 1 := by
  have hzero : whole ≠ 0 ↔ requests ≠ 0 := by
    rw [← hwhole, ne_eq, ne_eq, ← UInt64.toNat_inj]
    rfl
  rw [hpart, hwhole]
  exact if_congr hzero rfl rfl

theorem Level.hitRatio_eq (level : Level) (hmodel : model ≠ atom)
    {x : BasicCounterState × BasicCounterState} (hfit : level.requests x < 2 ^ 64) :
    level.hitRatio model x.1 x.2 =
      if level.requests x ≠ 0 then double (double (level.hits x) / double (level.requests x))
      else 1 := by
  cases level with
  | l2 =>
      have hsum : ticks x 3 + ticks x 2 + ticks x 1 + ticks x 0 < 2 ^ 64 := hfit
      rw [Level.hitRatio, getL2CacheHitRatio, if_neg hmodel]
      have hfirst := toNat_add_of_lt (m := ticks x 3) (n := ticks x 2) rfl rfl (by omega)
      have hsecond := toNat_add_of_lt (n := ticks x 1) hfirst rfl (by omega)
      exact ratio_eq rfl (toNat_add_of_lt hsecond rfl hsum)
  | l3 =>
      have hsum : ticks x 2 + ticks x 1 + ticks x 0 < 2 ^ 64 := hfit
      rw [Level.hitRatio, getL3CacheHitRatio, if_neg hmodel]
      have hhits := toNat_add_of_lt (m := ticks x 1) (n := ticks x 2) rfl rfl (by omega)
      have hfirst := toNat_add_of_lt (m := ticks x 2) (n := ticks x 1) rfl rfl (by omega)
      exact ratio_eq hhits (toNat_add_of_lt hfirst rfl hsum)

/-- The hits are rounded, the requests and their quotient. -/
theorem Level.hitRatio_error (level : Level) (hmodel : model ≠ atom)
    {x : BasicCounterState × BasicCounterState} (hne : level.requests x ≠ 0)
    (hfit : level.requests x < 2 ^ 64) :
    |level.hitRatio model x.1 x.2 - level.share x| ≤ level.share x / 2 ^ 51 := by
  rw [level.hitRatio_eq hmodel hfit, if_pos hne]
  exact double_share_error (Nat.pos_of_ne_zero hne) hfit

/-- Only the quotient is rounded if the requests fit a `double`. -/
theorem Level.hitRatio_of_small (level : Level) (hmodel : model ≠ atom)
    {x : BasicCounterState × BasicCounterState} (hne : level.requests x ≠ 0)
    (hsmall : level.requests x ≤ 2 ^ 53) :
    level.hitRatio model x.1 x.2 = double (level.share x) := by
  rw [level.hitRatio_eq hmodel (by omega), if_pos hne,
    double_natCast ((level.hits_le x).trans hsmall), double_natCast hsmall, Level.share]

/-- The states of the system at the beginning and at the end. -/
def systemSpan (xs : List Span) : BasicCounterState × BasicCounterState :=
  ((collect (xs.map Span.before)).basic, (collect (xs.map Span.after)).basic)

theorem ticks_system (n : Fin 4) (h : ((cores xs).map fun x => ticks x n).sum < 2 ^ 64) :
    ticks (systemSpan xs) n = ((cores xs).map fun x => ticks x n).sum := by
  rw [← Nat.mod_eq_of_lt h]
  exact (Metric.customEvents n).toNat_collect atom xs

/-- The requests and hits of the system are those of its cores as long as they fit. -/
theorem Level.system (level : Level)
    (hfit : ((cores xs).map fun x => level.requests x).sum < 2 ^ 64) :
    level.requests (systemSpan xs) = ((cores xs).map fun x => level.requests x).sum ∧
      level.hits (systemSpan xs) = ((cores xs).map fun x => level.hits x).sum := by
  cases level with
  | l2 =>
      simp only [Level.requests, Level.hits, List.sum_map_add] at hfit ⊢
      rw [ticks_system 0 (by omega), ticks_system 1 (by omega), ticks_system 2 (by omega),
        ticks_system 3 (by omega)]
      exact ⟨rfl, rfl⟩
  | l3 =>
      simp only [Level.requests, Level.hits, List.sum_map_add] at hfit ⊢
      rw [ticks_system 0 (by omega), ticks_system 1 (by omega), ticks_system 2 (by omega)]
      exact ⟨rfl, rfl⟩

theorem Level.requests_le (level : Level) {x : BasicCounterState × BasicCounterState}
    (hx : x ∈ cores xs) :
    level.requests x ≤ ((cores xs).map fun x => level.requests x).sum :=
  List.single_le_sum (fun _ _ => Nat.zero_le _) _ (List.mem_map_of_mem hx)

/-- The share of the system lies between those of two cores. -/
theorem Level.share_between (level : Level)
    (hfit : ((cores xs).map fun x => level.requests x).sum < 2 ^ 64)
    (hsome : ∃ x ∈ cores xs, level.requests x ≠ 0) :
    level.requests (systemSpan xs) ≠ 0 ∧
      (∃ x ∈ cores xs, level.requests x ≠ 0 ∧ level.share x ≤ level.share (systemSpan xs)) ∧
      ∃ x ∈ cores xs, level.requests x ≠ 0 ∧ level.share (systemSpan xs) ≤ level.share x := by
  obtain ⟨hrequests, hhits⟩ := level.system hfit
  have hpos : 0 < ((cores xs).map fun x => level.requests x).sum := by
    obtain ⟨x, hx, hne⟩ := hsome
    exact Nat.lt_of_lt_of_le (Nat.pos_of_ne_zero hne) (level.requests_le hx)
  have hcast : ∀ f : BasicCounterState × BasicCounterState → Nat,
      (((cores xs).map f).sum : Rat) = ((cores xs).map fun x => (f x : Rat)).sum := by
    intro f
    rw [Nat.cast_list_sum, List.map_map]
    rfl
  have hposCast : 0 < ((cores xs).map fun x => (level.requests x : Rat)).sum := by
    rw [← hcast]
    exact Nat.cast_pos.mpr hpos
  have hnonneg : ∀ x ∈ cores xs, (0 : Rat) ≤ level.requests x := fun _ _ => Nat.cast_nonneg _
  have hnone : ∀ x ∈ cores xs, (level.requests x : Rat) = 0 → (level.hits x : Rat) = 0 := by
    intro x _ hzero
    have hle := level.hits_le x
    rw [Nat.cast_eq_zero] at hzero ⊢
    omega
  obtain ⟨x, hx, hxne, hle⟩ := exists_share_le hnonneg hnone hposCast
  obtain ⟨y, hy, hyne, hge⟩ := exists_le_share hnonneg hnone hposCast
  rw [Level.share, hhits, hrequests, hcast, hcast]
  exact ⟨hpos.ne', ⟨x, hx, Nat.cast_ne_zero.mp hxne, hle⟩, y, hy, Nat.cast_ne_zero.mp hyne, hge⟩

/-- As long as the requests can be counted, the hit ratio of the system lies between those of
the cores with requests: exactly if there are at most 2^53 of them, and up to rounding
otherwise. -/
theorem hitRatio_between (level : Level) (hmodel : model ≠ atom)
    (hfit : ((cores xs).map fun x => level.requests x).sum < 2 ^ 64)
    (hsome : ∃ x ∈ cores xs, level.requests x ≠ 0) {lo hi : Rat}
    (h : ∀ x ∈ cores xs, level.requests x ≠ 0 →
      lo ≤ level.hitRatio model x.1 x.2 ∧ level.hitRatio model x.1 x.2 ≤ hi) :
    (((cores xs).map fun x => level.requests x).sum ≤ 2 ^ 53 →
      lo ≤ level.hitRatio model (systemSpan xs).1 (systemSpan xs).2 ∧
        level.hitRatio model (systemSpan xs).1 (systemSpan xs).2 ≤ hi) ∧
    (1 - 1 / 2 ^ 49) * lo ≤ level.hitRatio model (systemSpan xs).1 (systemSpan xs).2 ∧
      level.hitRatio model (systemSpan xs).1 (systemSpan xs).2 ≤ (1 + 1 / 2 ^ 49) * hi := by
  obtain ⟨hne, ⟨x, hx, hxne, hle⟩, y, hy, hyne, hge⟩ := level.share_between hfit hsome
  have hrequests := (level.system hfit).1
  have hxle := level.requests_le hx
  have hyle := level.requests_le hy
  constructor
  · intro hsmall
    have hxratio := level.hitRatio_of_small hmodel hxne (hxle.trans hsmall)
    have hyratio := level.hitRatio_of_small hmodel hyne (hyle.trans hsmall)
    rw [level.hitRatio_of_small hmodel hne (hrequests.trans_le hsmall)]
    exact ⟨((h x hx hxne).1.trans_eq hxratio).trans (double_mono hle),
      (double_mono hge).trans (hyratio.symm.trans_le (h y hy hyne).2)⟩
  · have hxratio := abs_le.mp (level.hitRatio_error hmodel hxne (hxle.trans_lt hfit))
    have hyratio := abs_le.mp (level.hitRatio_error hmodel hyne (hyle.trans_lt hfit))
    have hratio := abs_le.mp (level.hitRatio_error hmodel hne (hrequests.trans_lt hfit))
    have hlo := (h x hx hxne).1
    have hhi := (h y hy hyne).2
    have hnonneg := level.share_nonneg (systemSpan xs)
    constructor <;> linarith [hxratio.2, hyratio.1, hratio.1, hratio.2]

end

/-! ### Two sockets, one counter around -/

def hitsOf (miss shared hitM hit : UInt64) : BasicCounterState :=
  { l3Miss := miss, l3UnsharedHit := shared, l2HitM := hitM, l2Hit := hit }

def twoSockets : List Span :=
  [{ cores := [(hitsOf 0 0 0 (-10), hitsOf 30 0 0 80), (hitsOf 5 5 5 5, hitsOf 5 5 5 5)]
     uncore := ({}, {}) },
   { cores := [(hitsOf 1 1 1 1, hitsOf 11 1 1 21)], uncore := ({}, {}) }]

theorem hitRatio_between_twoSockets :
    double (2 / 3) ≤ Level.l2.hitRatio 42 (systemSpan twoSockets).1 (systemSpan twoSockets).2 ∧
      Level.l2.hitRatio 42 (systemSpan twoSockets).1 (systemSpan twoSockets).2 ≤ 3 / 4 := by
  have hcores : ∀ x ∈ cores twoSockets, Level.l2.requests x ≠ 0 →
      double (2 / 3) ≤ Level.l2.hitRatio 42 x.1 x.2 ∧ Level.l2.hitRatio 42 x.1 x.2 ≤ 3 / 4 := by
    decide +kernel
  exact (hitRatio_between .l2 (by decide) (by decide) ⟨_, List.mem_cons_self, by decide⟩
    hcores).1 (by decide)

/-- Three cores with 2^53 + 1 hits in 2^54 requests: each hit ratio is rounded to 1/2, and
that of the system is not. -/
example : ∃ xs : List Span, (∀ x ∈ cores xs, Level.l2.hitRatio 42 x.1 x.2 = 1 / 2) ∧
    1 / 2 < Level.l2.hitRatio 42 (systemSpan xs).1 (systemSpan xs).2 :=
  let core := (hitsOf 0 0 0 0, hitsOf (2 ^ 53 - 1) 0 0 (2 ^ 53 + 1))
  ⟨[{ cores := [core, core, core], uncore := ({}, {}) }], by decide +kernel, by decide +kernel⟩

end Pcm
end CommSpeed
