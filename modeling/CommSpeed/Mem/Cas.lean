/-
The CAS benchmark.

The loop body of `casthread` increments the cell it is on, decrements it again and
follows it; the body of `memthread` only follows it.  Between its two stores the
cell may hold an index beyond the array, but nothing is read through it there, and
adding and then taking away 1 modulo 2^32 gives the word back.  So the two bodies
are the same function of the index and the array, and with them the loops, the
phases and the benchmarks.

`lock xadd` counts as adding 1 modulo 2^32 with one thread running.
-/
import CommSpeed.Mem.Permutate

namespace CommSpeed
namespace Mem

/-- Replace the word `array[j]`, keeping the record of its builder. -/
def modify (f : UInt32 → UInt32) (array : Words) (j : UInt32) : Option Words :=
  if h : j.toNat < array.size then
    some (array.set j.toNat { array[j.toNat] with word := f array[j.toNat].word } h)
  else none

/-- `atomic_inc(&array[j])`: the new value and the array. -/
def atomicInc (array : Words) (j : UInt32) : Option (UInt32 × Words) := do
  let array ← modify (· + 1) array j
  let cell ← array[j.toNat]?
  return (cell.word, array)

/-- One iteration of the loop of `memthread`: `j = ptr[j]`. -/
def plainBody (s : UInt32 × Words) : Option (UInt32 × Words) := do
  let cell ← s.2[s.1.toNat]?
  return (cell.word, s.2)

/-- One iteration of the loop of `casthread`:
`atomic_inc(&ptr[j]); --ptr[j]; j = ptr[j]`. -/
def casBody (s : UInt32 × Words) : Option (UInt32 × Words) := do
  let (_, ptr) ← atomicInc s.2 s.1
  let ptr ← modify (· - 1) ptr s.1
  let cell ← ptr[s.1.toNat]?
  return (cell.word, ptr)

/-- `n` iterations of a loop body: the indices it was on, in order, and the last
index and array. -/
def steps (body : UInt32 × Words → Option (UInt32 × Words)) :
    Nat → UInt32 × Words → Option (List UInt32 × UInt32 × Words)
  | 0, s => some ([], s)
  | n + 1, s => do
    let s' ← body s
    let (reads, last) ← steps body n s'
    return (s.1 :: reads, last)

/-- The timed loop of `casthread` from `j = 0`. -/
def casChase (array : Words) (n : Nat) : Option (List UInt32 × UInt32 × Words) :=
  steps casBody n (0, array)

/-- A phase of `casthread`; its array is the one the timed loop leaves. -/
def casPhase (builder : Words → UInt32 → Option (UInt32 × Words))
    (warmUp : Words → UInt32 → Option (List UInt32)) (iter : Nat) (ptr : Words) :
    Option Phase := do
  let (range, ptr) ← builder ptr size
  let warm ← warmUp ptr size
  let (timed, _, ptr) ← casChase ptr iter
  return { range := range, array := ptr, warmUp := warm, timed := timed }

/-- The four phases that `casthread` runs on an array of each of two nodes, and
`cassmpthread` on one array. -/
def casthread (iter : Nat) (ptr : Words) : Option Phases := do
  let l1 ← casPhase l1h warmUpL1 iter ptr
  let l2 ← casPhase l1ml2h warmUpL2 iter l1.array
  let l3 ← casPhase l2ml3h warmUpL3 iter l2.array
  let me ← casPhase l3m warmUpL4 iter l3.array
  return { l1 := l1, l2 := l2, l3 := l3, me := me }

/-! ## The two bodies -/

section

variable {array : Words} {j : UInt32}

theorem modify_eq (f : UInt32 → UInt32) (h : j.toNat < array.size) :
    modify f array j =
      some (array.set j.toNat { array[j.toNat] with word := f array[j.toNat].word } h) :=
  dif_pos h

theorem modify_none (f : UInt32 → UInt32) (h : ¬ j.toNat < array.size) :
    modify f array j = none := dif_neg h

theorem atomicInc_eq (h : j.toNat < array.size) :
    atomicInc array j = some (array[j.toNat].word + 1,
      array.set j.toNat { array[j.toNat] with word := array[j.toNat].word + 1 } h) := by
  rw [atomicInc, modify_eq _ h]
  simp

/-- Taking away 1 after adding 1 restores the array. -/
theorem modify_atomicInc (h : j.toNat < array.size) :
    modify (· - 1)
      (array.set j.toNat { array[j.toNat] with word := array[j.toNat].word + 1 } h) j =
      some array := by
  have hset : j.toNat <
      (array.set j.toNat { array[j.toNat] with word := array[j.toNat].word + 1 } h).size := by
    rw [Array.size_set]
    exact h
  rw [modify_eq _ hset]
  refine congrArg some ?_
  simp only [Array.getElem_set_self, Array.set_set, UInt32.add_sub_cancel]
  exact Array.set_getElem_self h

theorem casBody_eq : casBody = plainBody := by
  funext ⟨j, array⟩
  by_cases h : j.toNat < array.size
  · simp only [casBody, plainBody, atomicInc_eq h, modify_atomicInc h, Option.bind_eq_bind,
      Option.bind_some]
  · have hnone : array[j.toNat]? = none := Array.getElem?_eq_none (Nat.not_lt.mp h)
    simp only [casBody, plainBody, atomicInc, modify_none _ h, hnone, Option.bind_eq_bind,
      Option.bind_none]

end

/-! ## The loops and the phases -/

theorem steps_plainBody (array : Words) (n : Nat) (j : UInt32) :
    steps plainBody n (j, array) = (chase array n j).map fun x => (x.1, x.2, array) := by
  induction n generalizing j with
  | zero => rfl
  | succ n ih =>
      rw [steps, chase, plainBody]
      cases array[j.toNat]? with
      | none => rfl
      | some cell =>
          simp only [Option.bind_eq_bind, Option.bind_some, Option.pure_def, ih]
          cases chase array n cell.word <;> rfl

theorem casChase_eq (array : Words) (n : Nat) :
    casChase array n = (chase array n 0).map fun x => (x.1, x.2, array) := by
  rw [casChase, casBody_eq]
  exact steps_plainBody array n 0

/-- A chase through valid indices does not leave the array. -/
theorem chase_total {array : Words} (hvalid : ∀ cell ∈ array, cell.word.toNat < array.size)
    (n : Nat) {j : UInt32} (hj : j.toNat < array.size) :
    ∃ reads j', chase array n j = some (reads, j') ∧ j'.toNat < array.size := by
  induction n generalizing j with
  | zero => exact ⟨[], j, rfl, hj⟩
  | succ n ih =>
      have hcell : array[j.toNat]? = some array[j.toNat] := Array.getElem?_eq_getElem hj
      obtain ⟨reads, j', hchase, hj'⟩ := ih (hvalid _ (Array.getElem_mem hj))
      refine ⟨j :: reads, j', ?_, hj'⟩
      rw [chase, hcell]
      dsimp only
      rw [hchase]
      rfl

theorem casPhase_eq (builder : Words → UInt32 → Option (UInt32 × Words))
    (warmUp : Words → UInt32 → Option (List UInt32)) (iter : Nat) (ptr : Words) :
    casPhase builder warmUp iter ptr = phase builder warmUp iter ptr := by
  simp only [casPhase, phase, casChase_eq, Option.bind_eq_bind, Option.bind_map,
    Function.comp_def]

theorem casthread_eq (iter : Nat) (ptr : Words) : casthread iter ptr = memthread iter ptr := by
  simp only [casthread, memthread, casPhase_eq]

/-- The CAS loop is on the same index as the plain loop after any number of
iterations and leaves the array as it was; so the CAS benchmark reads what the plain
one reads, phase by phase. -/
theorem casthread_visits {array : Words} (hsize : 0 < array.size)
    (hvalid : ∀ cell ∈ array, cell.word.toNat < array.size) :
    (∀ n, ∃ reads j, chase array n 0 = some (reads, j) ∧
      casChase array n = some (reads, j, array)) ∧
    ∀ iter ptr, casthread iter ptr = memthread iter ptr := by
  refine ⟨fun n => ?_, casthread_eq⟩
  obtain ⟨reads, j, hchase, -⟩ := chase_total hvalid n (j := 0) hsize
  exact ⟨reads, j, hchase, by rw [casChase_eq, hchase]; rfl⟩

/-- Two cells that point to the second one. -/
def selfLoop : Words := #[⟨1, none⟩, ⟨1, none⟩]

theorem casthread_visits_selfLoop :
    (∀ n, ∃ reads j, chase selfLoop n 0 = some (reads, j) ∧
      casChase selfLoop n = some (reads, j, selfLoop)) ∧
    ∀ iter ptr, casthread iter ptr = memthread iter ptr :=
  casthread_visits (by decide) (by decide)

end Mem
end CommSpeed
