/-
The access patterns of `permutate.cpp` and the phases of `memthread`.

A word of the array also records which builder stored it last.  No definition
reads that record: it is there for statements about what a chase reads.

All sizes are below 2^31, so the `int32_t` and `uint32_t` arithmetic of the source
agree on them.  A failed assertion, an access beyond the end of the array and a
loop that does not end are `none`.
-/
import Mathlib.Tactic.Ring
import CommSpeed.Loop.While

namespace CommSpeed
namespace Mem

def cacheLineSize : UInt32 := 64
def l1CacheSize : UInt32 := 16 * 1024
def l2CacheSize : UInt32 := 128 * 1024
def l3CacheSize : UInt32 := 3 * 1024 * 1024
def warmUpRound : UInt32 := 100

/-- `sizeof(uint32_t)`. -/
def wordSize : UInt32 := 4

inductive Builder
  | l1h
  | l1ml2h
  | l2ml3h
  | l3m
  deriving DecidableEq

structure Cell where
  word : UInt32
  writer : Option Builder

abbrev Words := Array Cell

/-- `array[i] = v` by the builder `b`. -/
def store (b : Builder) (array : Words) (i v : UInt32) : Option Words :=
  if h : i.toNat < array.size then some (array.set i.toNat ⟨v, some b⟩ h) else none

/-- A `uint32_t` counter that has not ended its loop within 2^32 iterations has had
one value twice and never ends it. -/
def loopBound : Nat := 2 ^ 32 + 1

/-- One iteration of `fill` on its counter and the array. -/
def fillBody (b : Builder) (step jump range : UInt32) (s : UInt32 × Words) :
    Option (UInt32 × Words) :=
  (store b s.2 s.1 ((s.1 + jump) % range)).map fun array => (s.1 + step, array)

/-- `for (uint32_t i = 0; i < range; i += step) array[i] = (i + jump) % range;` -/
def fill (b : Builder) (step jump range : UInt32) (array : Words) : Option Words :=
  (whileLoop (fun s => s.1 < range) (fillBody b step jump range) loopBound (0, array)).map Prod.snd

/-- The shape of the four builders: the range and the array they leave. -/
def build (b : Builder) (step jump range : UInt32) (array : Words) (size : UInt32) :
    Option (UInt32 × Words) :=
  if range < size then (fill b step jump range array).map fun array => (range, array) else none

def l1h : Words → UInt32 → Option (UInt32 × Words) := build .l1h 1 1 (l1CacheSize / wordSize)

def lineStep : UInt32 := cacheLineSize / wordSize

def l1ml2h : Words → UInt32 → Option (UInt32 × Words) :=
  build .l1ml2h lineStep (lineStep * 5) (l2CacheSize / wordSize)

def l2ml3h : Words → UInt32 → Option (UInt32 × Words) :=
  build .l2ml3h lineStep (lineStep * 5) (l3CacheSize / wordSize)

def l3m : Words → UInt32 → Option (UInt32 × Words) :=
  build .l3m lineStep (lineStep * 5) (l3CacheSize * 32 / wordSize)

/-- `for (i = 0; i < n; ++i) j = array[j];`: the indices read, in order, and the
last `j`. -/
def chase (array : Words) : Nat → UInt32 → Option (List UInt32 × UInt32)
  | 0, j => some ([], j)
  | n + 1, j =>
    match array[j.toNat]? with
    | some cell => (chase array n cell.word).map fun (reads, j') => (j :: reads, j')
    | none => none

/-- The shape of the first three warm-ups.  An array that is too small is reported
and not read. -/
def warmUp (range : UInt32) (array : Words) (size : UInt32) : Option (List UInt32) :=
  if range > size then some []
  else (chase array (range * warmUpRound).toNat 0).map Prod.fst

def warmUpL1 : Words → UInt32 → Option (List UInt32) := warmUp (l1CacheSize / wordSize)
def warmUpL2 : Words → UInt32 → Option (List UInt32) := warmUp (l2CacheSize / wordSize)
def warmUpL3 : Words → UInt32 → Option (List UInt32) := warmUp (l3CacheSize / wordSize)

def warmUpL4 (array : Words) (size : UInt32) : Option (List UInt32) :=
  (chase array size.toNat 0).map Prod.fst

/-! ## The phases of `memthread` -/

def size : UInt32 := l3CacheSize * 32

/-- A phase: the range and the array its builder left, and the indices read by the
warm-up and by the timed loop. -/
structure Phase where
  range : UInt32
  array : Words
  warmUp : List UInt32
  timed : List UInt32

def phase (builder : Words → UInt32 → Option (UInt32 × Words))
    (warmUp : Words → UInt32 → Option (List UInt32)) (iter : Nat) (ptr : Words) :
    Option Phase := do
  let (range, ptr) ← builder ptr size
  let warm ← warmUp ptr size
  let (timed, _) ← chase ptr iter 0
  return { range := range, array := ptr, warmUp := warm, timed := timed }

structure Phases where
  l1 : Phase
  l2 : Phase
  l3 : Phase
  me : Phase

/-- The four phases that `memthread` runs on an array.  It runs them on an array of
each of two nodes. -/
def memthread (iter : Nat) (ptr : Words) : Option Phases := do
  let l1 ← phase l1h warmUpL1 iter ptr
  let l2 ← phase l1ml2h warmUpL2 iter l1.array
  let l3 ← phase l2ml3h warmUpL3 iter l2.array
  let me ← phase l3m warmUpL4 iter l3.array
  return { l1 := l1, l2 := l2, l3 := l3, me := me }

/-! ## Filling -/

/-- What the first `k` iterations of `fill` leave: the multiples of `step` point `jump`
words ahead, round the range, and all other cells are as before. -/
structure Filled (b : Builder) (step jump range k : Nat) (old new : Words) : Prop where
  size : new.size = old.size
  own : ∀ m < k, new[m * step]? = some ⟨.ofNat ((m * step + jump) % range), some b⟩
  frame : ∀ i, (∀ m < k, i ≠ m * step) → new[i]? = old[i]?

section

variable {b : Builder} {step jump range : UInt32} {old array : Words} {k l : Nat}

theorem Filled.start (b : Builder) (step jump range : Nat) (old : Words) :
    Filled b step jump range 0 old old :=
  ⟨rfl, nofun, fun _ _ => rfl⟩

theorem Filled.store {step jump range k : Nat} (h : Filled b step jump range k old array)
    (hstep : 0 < step) {i v : UInt32} (hi : i.toNat = k * step) (hsize : k * step < old.size)
    (hv : v = .ofNat ((k * step + jump) % range)) :
    ∃ array', store b array i v = some array' ∧ Filled b step jump range (k + 1) old array' := by
  have hlt : i.toNat < array.size := by rw [hi, h.size]; exact hsize
  refine ⟨array.set i.toNat ⟨v, some b⟩ hlt, dif_pos hlt, ?_, fun m hm => ?_, fun n hn => ?_⟩
  · rw [Array.size_set, h.size]
  · rw [Array.getElem?_set, hi]
    by_cases hmk : k = m
    · rw [hmk, if_pos rfl, hv, hmk]
    · rw [if_neg fun heq => hmk (Nat.eq_of_mul_eq_mul_right hstep heq)]
      exact h.own m (by omega)
  · rw [Array.getElem?_set, hi, if_neg (Ne.symm (hn k (Nat.lt_succ_self k)))]
    exact h.frame n fun m hm => hn m (Nat.lt_succ_of_lt hm)

theorem fillBody_filled {s : UInt32 × Words} (hstep : 0 < step.toNat)
    (hjump : range.toNat + jump.toNat ≤ 2 ^ 32) (hwrap : range.toNat + step.toNat ≤ 2 ^ 32)
    (hsize : range.toNat ≤ old.size) (hlt : k * step.toNat < range.toNat)
    (hi : s.1.toNat = k * step.toNat)
    (h : Filled b step.toNat jump.toNat range.toNat k old s.2) :
    ∃ s', fillBody b step jump range s = some s' ∧ s'.1.toNat = (k + 1) * step.toNat ∧
      Filled b step.toNat jump.toNat range.toNat (k + 1) old s'.2 := by
  have hmod : (k * step.toNat + jump.toNat) % range.toNat < 2 ^ 32 :=
    Nat.lt_trans (Nat.mod_lt _ (Nat.zero_lt_of_lt hlt)) range.toNat_lt
  have hsum : k * step.toNat + jump.toNat < 2 ^ 32 := by omega
  have hval : ((s.1 + jump) % range).toNat = (k * step.toNat + jump.toNat) % range.toNat := by
    rw [UInt32.toNat_mod, UInt32.toNat_add, hi, Nat.mod_eq_of_lt hsum]
  obtain ⟨array', hstore, hfilled⟩ := h.store hstep hi (Nat.lt_of_lt_of_le hlt hsize)
    (UInt32.toNat_inj.mp (hval.trans (UInt32.toNat_ofNat_of_lt' hmod).symm))
  refine ⟨(s.1 + step, array'), by rw [fillBody, hstore]; rfl, ?_, hfilled⟩
  rw [UInt32.toNat_add, hi, Nat.mod_eq_of_lt (by omega), Nat.succ_mul]

theorem fill_filled (b : Builder) (hstep : 0 < step.toNat) (hrange : range.toNat = l * step.toNat)
    (hjump : range.toNat + jump.toNat ≤ 2 ^ 32) (hwrap : range.toNat + step.toNat ≤ 2 ^ 32)
    (hsize : range.toNat ≤ old.size) :
    ∃ new, fill b step jump range old = some new ∧
      Filled b step.toNat jump.toNat range.toNat l old new := by
  let I : Nat → UInt32 × Words → Prop := fun k s => s.1.toNat = k * step.toNat ∧
    Filled b step.toNat jump.toNat range.toNat k old s.2
  have hbody : ∀ k < l, ∀ s, I k s → decide (s.1 < range) = true ∧
      ∃ s', fillBody b step jump range s = some s' ∧ I (k + 1) s' := by
    intro k hk s hI
    have hlt : k * step.toNat < range.toNat := by
      rw [hrange]
      exact Nat.mul_lt_mul_of_pos_right hk hstep
    refine ⟨decide_eq_true ?_, fillBody_filled hstep hjump hwrap hsize hlt hI.1 hI.2⟩
    rw [UInt32.lt_iff_toNat_lt, hI.1]
    exact hlt
  have hexit : ∀ s, I l s → decide (s.1 < range) = false := by
    intro s hI
    refine decide_eq_false fun hlt => ?_
    rw [UInt32.lt_iff_toNat_lt, hI.1, hrange] at hlt
    exact Nat.lt_irrefl _ hlt
  have hl : l < loopBound := by
    have hle : l * 1 ≤ l * step.toNat := Nat.mul_le_mul_left l hstep
    have hlt := range.toNat_lt
    rw [loopBound]
    omega
  obtain ⟨s, hs, -, hfilled⟩ :=
    whileLoop_total hbody hexit hl (s := (0, old)) ⟨(Nat.zero_mul _).symm, .start ..⟩
  exact ⟨s.2, by rw [fill, hs]; rfl, hfilled⟩

end

end Mem
end CommSpeed
