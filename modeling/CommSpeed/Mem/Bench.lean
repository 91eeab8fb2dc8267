/-
The iteration count and the printed costs of the memory benchmarks.

The argument of `-c` is parsed as a `long long`, kept in the `int` `ITERCASE` and
copied to the `uint32_t` `iter`, which bounds the timed loops and divides the cycle
counts.  The quotient is a `uint64_t` and is printed with `%ld`.

`iter` is the argument modulo 2^32, so the benchmarks do what `-c N` asks for
exactly when N is at least 1 and below 2^32.  A multiple of 2^32, in particular 0,
is a division by zero.  With N = 1 the quotient is the difference of the cycle
counts itself, which `%ld` shows as a negative number from 2^63 on.
-/
import CommSpeed.Mem.Cas
import CommSpeed.Mem.Chase

namespace CommSpeed
namespace Mem

/-- What `getopt` returns to `numatest` and `smptest`: the option `-c`, with the value
of `strtoll` on its argument, or one that is not supported. -/
inductive Opt
  | c (n : Int64)
  | unsupported

def iterCase : Int32 := 10240000

/-- The option loop of `numatest` and `smptest`: `ITERCASE` after it.  An unsupported
option is reported and skipped. -/
def optionLoop (iterCase : Int32) : List Opt → Int32
  | [] => iterCase
  | .c n :: opts => optionLoop n.toInt32 opts
  | .unsupported :: opts => optionLoop iterCase opts

/-- The readings of `getCycleCount` before and after a timed loop. -/
structure Cycles where
  start : UInt64
  stop : UInt64

/-- What a phase has done in its timed loop and the cost it prints. -/
structure Report where
  steps : Nat
  cost : Int64

/-- `(end - begin) / iter` as `%ld` prints it. -/
def perIteration (c : Cycles) (iter : UInt32) : Int64 :=
  ((c.stop - c.start) / iter.toUInt64).toInt64

/-- The cost of a phase.  A division by zero ends the process. -/
def cost (c : Cycles) (iter : UInt32) : Option Int64 :=
  if iter = 0 then none else some (perIteration c iter)

/-- `for (i = 0; i < iter; ++i)` around a loop body, with `i` a `uint32_t`: the indices
the body was on, and the last index and array. -/
def timedLoop (body : UInt32 × Words → Option (UInt32 × Words)) (iter : UInt32) :
    Nat → UInt32 → UInt32 × Words → Option (List UInt32 × UInt32 × Words)
  | 0, _, _ => none
  | bound + 1, i, s =>
    if i < iter then do
      let s' ← body s
      let (reads, last) ← timedLoop body iter bound (i + 1) s'
      return (s.1 :: reads, last)
    else some ([], s)

/-- A phase of a benchmark: its report and the array it leaves. -/
def timedPhase (body : UInt32 × Words → Option (UInt32 × Words))
    (builder : Words → UInt32 → Option (UInt32 × Words))
    (warmUp : Words → UInt32 → Option (List UInt32)) (iter : UInt32) (c : Cycles) (ptr : Words) :
    Option (Report × Words) := do
  let (_, ptr) ← builder ptr size
  let _ ← warmUp ptr size
  let (reads, _, ptr) ← timedLoop body iter loopBound 0 (0, ptr)
  let printed ← cost c iter
  return ({ steps := reads.length, cost := printed }, ptr)

def fourPhases (body : UInt32 × Words → Option (UInt32 × Words)) (iter : UInt32)
    (clock : Nat → Cycles) (ptr : Words) : Option (List Report) := do
  let (l1, ptr) ← timedPhase body l1h warmUpL1 iter (clock 0) ptr
  let (l2, ptr) ← timedPhase body l1ml2h warmUpL2 iter (clock 1) ptr
  let (l3, ptr) ← timedPhase body l2ml3h warmUpL3 iter (clock 2) ptr
  let (me, _) ← timedPhase body l3m warmUpL4 iter (clock 3) ptr
  return [l1, l2, l3, me]

/-- The four phases on each array of a list, with the clock of each phase. -/
def allPhases (body : UInt32 × Words → Option (UInt32 × Words)) (iter : UInt32) :
    (Nat → Cycles) → List Words → Option (List Report)
  | _, [] => some []
  | clock, ptr :: ptrs => do
    let these ← fourPhases body iter clock ptr
    let rest ← allPhases body iter (fun k => clock (k + 4)) ptrs
    return these ++ rest

inductive Benchmark
  | memthread
  | casthread
  | smpmemthread
  | cassmpthread

namespace Benchmark

def body : Benchmark → UInt32 × Words → Option (UInt32 × Words)
  | memthread | smpmemthread => plainBody
  | casthread | cassmpthread => casBody

/-- The arrays a benchmark allocates: one on each of two nodes, or one. -/
def arrays : Benchmark → Nat
  | memthread | casthread => 2
  | smpmemthread | cassmpthread => 1

def run (b : Benchmark) (iterCase : Int32) (clock : Nat → Cycles) (ptrs : List Words) :
    Option (List Report) :=
  allPhases b.body iterCase.toUInt32 clock ptrs

end Benchmark

/-! ## The timed loops -/

theorem timedLoop_eq {body : UInt32 × Words → Option (UInt32 × Words)} {iter i : UInt32} {n : Nat}
    (hn : i.toNat + n = iter.toNat) {bound : Nat} (hbound : n < bound) (s : UInt32 × Words) :
    timedLoop body iter bound i s = steps body n s := by
  induction n generalizing i bound s with
  | zero =>
      obtain ⟨k, rfl⟩ := Nat.exists_eq_succ_of_ne_zero hbound.ne'
      have hexit : ¬ i < iter := by rw [UInt32.lt_iff_toNat_lt]; omega
      rw [timedLoop, if_neg hexit, steps]
  | succ n ih =>
      obtain ⟨k, rfl⟩ := Nat.exists_eq_succ_of_ne_zero (Nat.zero_lt_of_lt hbound).ne'
      have hmore : i < iter := by rw [UInt32.lt_iff_toNat_lt]; omega
      have hlt := iter.toNat_lt
      have hi : (i + 1).toNat = i.toNat + 1 := by
        rw [UInt32.toNat_add, show (1 : UInt32).toNat = 1 from rfl]
        exact Nat.mod_eq_of_lt (by omega)
      rw [timedLoop, if_pos hmore, steps]
      refine congrArg (Option.bind (body s)) (funext fun s' => ?_)
      rw [ih (i := i + 1) (by omega) (by omega) s']

/-- The loops of all four benchmarks are the chase. -/
theorem timedLoop_body (b : Benchmark) (iter : UInt32) (ptr : Words) :
    timedLoop b.body iter loopBound 0 (0, ptr) =
      (chase ptr iter.toNat 0).map fun x => (x.1, x.2, ptr) := by
  have hlt := iter.toNat_lt
  have hbody : b.body = plainBody := by
    cases b
    · rfl
    · exact casBody_eq
    · rfl
    · exact casBody_eq
  rw [timedLoop_eq (n := iter.toNat) (Nat.zero_add _) (by rw [loopBound]; omega), hbody]
  exact steps_plainBody ptr iter.toNat 0

theorem timedPhase_eq (b : Benchmark) {builder : Words → UInt32 → Option (UInt32 × Words)}
    {warmUp : Words → UInt32 → Option (List UInt32)} {iter : UInt32} {ptr : Words} {p : Phase}
    (hp : phase builder warmUp iter.toNat ptr = some p) (c : Cycles) :
    timedPhase b.body builder warmUp iter c ptr =
      (cost c iter).map fun printed => (⟨p.timed.length, printed⟩, p.array) := by
  rw [phase] at hp
  rw [timedPhase]
  cases hbuild : builder ptr size with
  | none =>
      rw [hbuild] at hp
      cases hp
  | some x =>
      obtain ⟨range, new⟩ := x
      rw [hbuild] at hp
      simp only [Option.bind_eq_bind, Option.bind_some] at hp ⊢
      cases hwarm : warmUp new size with
      | none =>
          rw [hwarm] at hp
          cases hp
      | some warm =>
          rw [hwarm] at hp
          simp only [Option.bind_some, timedLoop_body] at hp ⊢
          cases hchase : chase new iter.toNat 0 with
          | none =>
              rw [hchase] at hp
              cases hp
          | some y =>
              rw [hchase] at hp
              cases hp
              simp only [Option.map_some, Option.bind_some]
              cases cost c iter <;> rfl

theorem Phase.Spec.timed_length {b : Builder} {step jump range l warm iter : Nat} {old : Words}
    {p : Phase} (h : p.Spec b step jump range l warm iter old) : p.timed.length = iter := by
  rw [h.timed, walk, List.length_map, List.length_range]

/-- What the phases report when there is no division by zero. -/
def reports (iter : UInt32) (clock : Nat → Cycles) (n : Nat) : List Report :=
  (List.range n).map fun k => ⟨iter.toNat, perIteration (clock k) iter⟩

theorem reports_add (iter : UInt32) (clock : Nat → Cycles) (m n : Nat) :
    reports iter clock (m + n) =
      reports iter clock m ++ reports iter (fun k => clock (k + m)) n := by
  rw [reports, reports, reports, List.range_add, List.map_append, List.map_map]
  refine congrArg _ (List.map_congr_left fun k _ => ?_)
  rw [Function.comp, Nat.add_comm m k]

section

variable {iter : UInt32} {ptr : Words}

/-- Every phase makes its steps; a first division by zero ends the benchmark. -/
theorem fourPhases_eq (b : Benchmark) (hptr : ptr.size = size.toNat) (clock : Nat → Cycles) :
    fourPhases b.body iter clock ptr = if iter = 0 then none else some (reports iter clock 4) := by
  obtain ⟨p, hp, hspec⟩ := memthread_spec iter.toNat hptr
  simp only [memthread, Option.bind_eq_bind, Option.bind_eq_some_iff, Option.pure_def,
    Option.some.injEq] at hp
  obtain ⟨l1, h1, l2, h2, l3, h3, me, h4, rfl⟩ := hp
  have hsteps1 : l1.timed.length = iter.toNat := hspec.l1.timed_length
  have hsteps2 : l2.timed.length = iter.toNat := hspec.l2.timed_length
  have hsteps3 : l3.timed.length = iter.toNat := hspec.l3.timed_length
  have hsteps4 : me.timed.length = iter.toNat := hspec.me.timed_length
  rw [fourPhases, timedPhase_eq b h1]
  by_cases hiter : iter = 0
  · have hcost : cost (clock 0) iter = none := if_pos hiter
    rw [if_pos hiter, hcost]
    rfl
  · have hcost : ∀ c, cost c iter = some (perIteration c iter) := fun _ => if_neg hiter
    simp only [timedPhase_eq b h2, timedPhase_eq b h3, timedPhase_eq b h4, hsteps1, hsteps2,
      hsteps3, hsteps4, hcost, Option.map_some, Option.bind_eq_bind, Option.bind_some,
      Option.pure_def, if_neg hiter]
    rfl

theorem allPhases_zero (b : Benchmark) (clock : Nat → Cycles) (ptrs : List Words)
    (hptr : ptr.size = size.toNat) : allPhases b.body 0 clock (ptr :: ptrs) = none := by
  rw [allPhases, fourPhases_eq b hptr, if_pos rfl]
  rfl

theorem allPhases_eq (b : Benchmark) (hiter : iter ≠ 0) (clock : Nat → Cycles) {ptrs : List Words}
    (hptrs : ∀ ptr ∈ ptrs, ptr.size = size.toNat) :
    allPhases b.body iter clock ptrs = some (reports iter clock (4 * ptrs.length)) := by
  induction ptrs generalizing clock with
  | nil => rfl
  | cons ptr ptrs ih =>
      rw [allPhases, fourPhases_eq b (hptrs ptr List.mem_cons_self), if_neg hiter,
        ih (fun k => clock (k + 4)) fun p hp => hptrs p (List.mem_cons_of_mem _ hp),
        List.length_cons, Nat.mul_succ, Nat.add_comm, reports_add]
      rfl

end

/-! ## The count and the quotient -/

theorem iter_toNat (n : Int64) : (n.toInt32.toUInt32.toNat : Int) = n.toInt % 2 ^ 32 := by
  have hbits : n.toInt32.toBitVec.toInt = n.toInt.bmod (2 ^ 32) := Int64.toInt_toInt32 n
  rw [BitVec.toInt_eq_toNat_bmod] at hbits
  have hmod := congrArg (· % ((2 ^ 32 : Nat) : Int)) hbits
  simp only [Int.bmod_emod] at hmod
  have hlt : n.toInt32.toBitVec.toNat < 2 ^ 32 := n.toInt32.toBitVec.isLt
  have hnat : n.toInt32.toUInt32.toNat = n.toInt32.toBitVec.toNat := rfl
  rw [hnat]
  omega

def Cycles.elapsed (c : Cycles) : Nat := c.stop.toNat - c.start.toNat

theorem perIteration_toInt {c : Cycles} (hc : c.start ≤ c.stop) (iter : UInt32) :
    (perIteration c iter).toInt = ((c.elapsed / iter.toNat : Nat) : Int).bmod (2 ^ 64) := by
  have hdiff : (c.stop - c.start).toNat = c.elapsed := UInt64.toNat_sub_of_le _ _ hc
  have hquot : ((c.stop - c.start) / iter.toUInt64).toNat = c.elapsed / iter.toNat := by
    rw [UInt64.toNat_div, hdiff, UInt32.toNat_toUInt64]
  rw [← hquot]
  exact BitVec.toInt_eq_toNat_bmod _

/-- Every phase of a benchmark has made `n` steps and prints the integer quotient of
its cycles by `n`. -/
def Exact (n : Int64) (clock : Nat → Cycles) (phases : Nat) (out : Option (List Report)) : Prop :=
  ∃ l, out = some l ∧ l.length = phases ∧
    ∀ k r, l[k]? = some r → r.steps = n.toInt ∧ r.cost.toInt = (clock k).elapsed / n.toInt

section

variable {n : Int64} {iter : UInt32} {clock : Nat → Cycles} {phases : Nat}

theorem exact_reports : Exact n clock phases (some (reports iter clock phases)) ↔
    ∀ k < phases, (iter.toNat : Int) = n.toInt ∧
      (perIteration (clock k) iter).toInt = (clock k).elapsed / n.toInt := by
  have hget : ∀ k < phases, (reports iter clock phases)[k]? =
      some ⟨iter.toNat, perIteration (clock k) iter⟩ := by
    intro k hk
    rw [reports, List.getElem?_map, List.getElem?_range hk, Option.map_some]
  have hlength : (reports iter clock phases).length = phases := by
    rw [reports, List.length_map, List.length_range]
  constructor
  · rintro ⟨l, hl, -, hexact⟩ k hk
    obtain rfl := Option.some.inj hl
    exact hexact k _ (hget k hk)
  · intro h
    refine ⟨_, rfl, hlength, fun k r hr => ?_⟩
    have hk : k < phases := hlength ▸ (List.getElem?_eq_some_iff.mp hr).1
    obtain rfl := Option.some.inj ((hget k hk).symm.trans hr)
    exact h k hk

/-- A quotient is printed as it is when it fits a `long`. -/
theorem printed_iff {q : Nat} (hq : q < 2 ^ 64) : (q : Int).bmod (2 ^ 64) = q ↔ q < 2 ^ 63 := by
  constructor
  · intro h
    have hlt : (q : Int).bmod (2 ^ 64) < (2 ^ 64 + 1) / 2 := Int.bmod_lt (by decide)
    omega
  · intro h
    exact Int.bmod_eq_of_le (by omega) (by omega)

theorem exact_reports_iff (hiter : (iter.toNat : Int) = n.toInt % 2 ^ 32) (hzero : iter ≠ 0)
    (hphases : 0 < phases) (hclock : ∀ k, (clock k).start ≤ (clock k).stop) :
    Exact n clock phases (some (reports iter clock phases)) ↔
      1 ≤ n.toInt ∧ n.toInt < 2 ^ 32 ∧
        (n.toInt = 1 → ∀ k < phases, (clock k).elapsed < 2 ^ 63) := by
  have hpos : 0 < iter.toNat := Nat.pos_of_ne_zero fun h => hzero (UInt32.toNat_inj.mp h)
  have hlt := iter.toNat_lt
  have helapsed : ∀ k, (clock k).elapsed < 2 ^ 64 :=
    fun k => Nat.lt_of_le_of_lt (Nat.sub_le _ _) (clock k).stop.toNat_lt
  -- once `iter` is the argument, only the printing can go wrong
  have hprinted : (iter.toNat : Int) = n.toInt → ∀ k,
      ((perIteration (clock k) iter).toInt = (clock k).elapsed / n.toInt ↔
        (clock k).elapsed / iter.toNat < 2 ^ 63) := by
    intro hn k
    rw [perIteration_toInt (hclock k), ← hn, ← Int.natCast_ediv]
    exact printed_iff (Nat.lt_of_le_of_lt (Nat.div_le_self _ _) (helapsed k))
  rw [exact_reports]
  constructor
  · intro h
    have hn := (h 0 hphases).1
    refine ⟨by omega, by omega, fun hone k hk => ?_⟩
    have hquot := (hprinted hn k).mp (h k hk).2
    have hiter1 : iter.toNat = 1 := by omega
    rwa [hiter1, Nat.div_one] at hquot
  · rintro ⟨hmin, hmax, hone⟩ k hk
    have hn : (iter.toNat : Int) = n.toInt := by omega
    refine ⟨hn, (hprinted hn k).mpr ?_⟩
    by_cases hiter1 : iter.toNat = 1
    · rw [hiter1, Nat.div_one]
      exact hone (by omega) k hk
    · -- a divisor of at least two halves the cycles
      have hhalf : (clock k).elapsed / iter.toNat ≤ (clock k).elapsed / 2 :=
        Nat.div_le_div_left (by omega) (by decide)
      have hk64 := helapsed k
      omega

end

theorem optionLoop_last (iterCase : Int32) (before : List Opt) (n : Int64) :
    optionLoop iterCase (before ++ [.c n]) = n.toInt32 := by
  induction before generalizing iterCase with
  | nil => rfl
  | cons opt before ih =>
      cases opt with
      | c m => exact ih m.toInt32
      | unsupported => exact ih iterCase

/-- No argument of `-c` is refused, and a benchmark does what was asked for exactly for
the counts from 1 to 2^32 - 1, but for a count of 1 only as long as no phase takes 2^63
cycles. -/
theorem benchmark_exact_iff (b : Benchmark) (before : List Opt) (n : Int64) {clock : Nat → Cycles}
    (hclock : ∀ k, (clock k).start ≤ (clock k).stop) {ptrs : List Words}
    (hlength : ptrs.length = b.arrays) (hptrs : ∀ ptr ∈ ptrs, ptr.size = size.toNat) :
    Exact n clock (4 * b.arrays)
        (b.run (optionLoop iterCase (before ++ [.c n])) clock ptrs) ↔
      1 ≤ n.toInt ∧ n.toInt < 2 ^ 32 ∧
        (n.toInt = 1 → ∀ k < 4 * b.arrays, (clock k).elapsed < 2 ^ 63) := by
  have harrays : 0 < b.arrays := by cases b <;> decide
  have hiter := iter_toNat n
  rw [optionLoop_last, Benchmark.run]
  by_cases hzero : n.toInt32.toUInt32 = 0
  · obtain ⟨ptr, rest, rfl⟩ := List.exists_cons_of_length_pos (hlength ▸ harrays)
    rw [hzero, allPhases_zero b clock rest (hptrs ptr List.mem_cons_self)]
    rw [hzero, show (0 : UInt32).toNat = 0 from rfl] at hiter
    refine iff_of_false (fun h => ?_) fun h => ?_
    · obtain ⟨l, hl, -⟩ := h
      cases hl
    · omega
  · rw [allPhases_eq b hzero clock hptrs, hlength]
    exact exact_reports_iff hiter hzero (by omega) hclock

def someCycles (_ : Nat) : Cycles := { start := 1000, stop := 5000 }

theorem benchmark_exact_iff_thousand :
    Exact 1000 someCycles 4 (Benchmark.smpmemthread.run (optionLoop iterCase ([] ++ [.c 1000]))
        someCycles [Array.replicate size.toNat ⟨0, none⟩]) ↔
      1 ≤ (1000 : Int64).toInt ∧ (1000 : Int64).toInt < 2 ^ 32 ∧
        ((1000 : Int64).toInt = 1 → ∀ k < 4 * Benchmark.smpmemthread.arrays,
          (someCycles k).elapsed < 2 ^ 63) :=
  benchmark_exact_iff .smpmemthread [] 1000 (fun _ => show (1000 : UInt64) ≤ 5000 by decide) rfl
    (by simp [Array.size_replicate])

/-- `-c 0` is accepted, and the first phase divides by it. -/
theorem zero_not_exact :
    Benchmark.smpmemthread.run (optionLoop iterCase [.c 0]) someCycles
        [Array.replicate size.toNat ⟨0, none⟩] = none ∧
      ¬ Exact 0 someCycles 4 (Benchmark.smpmemthread.run (optionLoop iterCase [.c 0]) someCycles
        [Array.replicate size.toNat ⟨0, none⟩]) := by
  have hnone : Benchmark.smpmemthread.run (optionLoop iterCase [.c 0]) someCycles
      [Array.replicate size.toNat ⟨0, none⟩] = none :=
    allPhases_zero .smpmemthread someCycles [] Array.size_replicate
  refine ⟨hnone, fun h => ?_⟩
  obtain ⟨l, hl, -⟩ := h
  rw [hnone] at hl
  cases hl

end Mem
end CommSpeed
