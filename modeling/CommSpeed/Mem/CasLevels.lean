/-
The cache level that each phase of `casthread` exercises.

An iteration accesses its cell five times: `lock xadd` and the decrement load and store
it, and then it is followed.  A store looks its line up as a load does and brings it in
when it is missing.  Only the first of the five goes to the level the phase is named
after, and the other four hit in every cache, so the cost of an iteration is that of one
access to the level and four to L1.

The array starts at a line boundary, as one from `numa_alloc_onnode` does, which hands
out whole pages.  The array of `cassmpthread` comes from `malloc` and need not.
-/
import CommSpeed.Mem.Cas
import CommSpeed.Mem.Levels

namespace CommSpeed
namespace Mem

open Cache

/-- The accesses of `modify` to the cell `j`: a load and a store. -/
def modifyAccesses (j : UInt32) : List UInt32 := [j, j]

/-- The accesses of `casBody` on the index `j`. -/
def casAccesses (j : UInt32) : List UInt32 := modifyAccesses j ++ modifyAccesses j ++ [j]

/-- Which of the accesses of the timed loop of `casthread` hit a cache that held `c`
before the warm-up. -/
def Phase.casOutcomes {sets ways : Nat} (p : Phase) (base : Nat) (c : Cache sets ways) :
    List Bool :=
  (c.after (lines base p.warmUp)).hits (lines base (p.timed.flatMap casAccesses))

/-- The outcomes of an iteration whose first access has the outcome `b`. -/
def casTurn (b : Bool) : List Bool := [b, true, true, true, true]

section

variable {sets ways base iter : Nat} {b : Bool} {p : Phase}

theorem lines_casAccesses (base : Nat) (reads : List UInt32) :
    lines base (reads.flatMap casAccesses) =
      (lines base reads).flatMap (List.replicate (4 + 1)) := by
  rw [lines, lines, List.map_flatMap, List.flatMap_map]
  rfl

/-- The outcomes of `casthread` are those of `memthread` with four hits behind each. -/
theorem Phase.casOutcomes_eq (hways : 0 < ways) (p : Phase) (base : Nat) (c : Cache sets ways)
    (h : p.outcomes base c = List.replicate iter b) :
    p.casOutcomes base c = (List.replicate iter b).flatMap casTurn := by
  rw [Phase.casOutcomes, lines_casAccesses, hits_stutter hways]
  exact congrArg (List.flatMap casTurn) h

end

/-- In every iteration of a phase of `casthread` the first access misses in the caches
that the plain phase misses in, and it and the other accesses hit otherwise, for an array
that starts at a line and LRU caches of the sizes in the source, whatever their geometry
and whatever they held before the warm-up. -/
theorem casthread_levels (iter base : Nat) {ptr : Words} (hptr : ptr.size = size.toNat) :
    ∃ p, casthread iter ptr = some p ∧
      (∀ sets ways, sets * ways = (l1CacheSize / cacheLineSize).toNat → ∀ c : Cache sets ways,
        p.l1.casOutcomes base c = (List.replicate iter true).flatMap casTurn ∧
        p.l2.casOutcomes base c = (List.replicate iter false).flatMap casTurn) ∧
      (∀ sets ways, sets * ways = (l2CacheSize / cacheLineSize).toNat → ∀ c : Cache sets ways,
        p.l2.casOutcomes base c = (List.replicate iter true).flatMap casTurn ∧
        p.l3.casOutcomes base c = (List.replicate iter false).flatMap casTurn) ∧
      (∀ sets ways, sets * ways = (l3CacheSize / cacheLineSize).toNat → ∀ c : Cache sets ways,
        p.l3.casOutcomes base c = (List.replicate iter true).flatMap casTurn ∧
        p.me.casOutcomes base c = (List.replicate iter false).flatMap casTurn) := by
  obtain ⟨p, hp, hspec⟩ := memthread_spec iter hptr
  have h1 : p.l1.Spec .l1h 1 (1 * 1) 4096 4096 409600 iter ptr := hspec.l1
  have h2 : p.l2.Spec .l1ml2h 16 (16 * 5) 32768 2048 3276800 iter p.l1.array := hspec.l2
  have h3 : p.l3.Spec .l2ml3h 16 (16 * 5) 786432 49152 78643200 iter p.l2.array := hspec.l3
  have h4 : p.me.Spec .l3m 16 (16 * 5) 25165824 1572864 100663296 iter p.l3.array := hspec.me
  have hlines1 : (l1CacheSize / cacheLineSize).toNat = 256 := by decide
  have hlines2 : (l2CacheSize / cacheLineSize).toNat = 2048 := by decide
  have hlines3 : (l3CacheSize / cacheLineSize).toNat = 49152 := by decide
  have hpos : ∀ {sets ways n : Nat}, 0 < n → sets * ways = n → 0 < ways := by
    intro sets ways n hn hcap
    exact Nat.pos_of_mul_pos_left (hcap ▸ hn)
  rw [hlines1, hlines2, hlines3]
  refine ⟨p, (casthread_eq iter ptr).trans hp, fun sets ways hcap c => ⟨?_, ?_⟩,
    fun sets ways hcap c => ⟨?_, ?_⟩, fun sets ways hcap c => ⟨?_, ?_⟩⟩
  · apply p.l1.casOutcomes_eq (hpos (by decide) hcap)
    exact h1.hits fits_l1h 99 (by decide) (by decide) hcap c
  · apply p.l2.casOutcomes_eq (hpos (by decide) hcap)
    exact h2.misses fits_l1ml2h (by decide) 1599 (by decide) hcap (m := 6) (by decide) c
  · apply p.l2.casOutcomes_eq (hpos (by decide) hcap)
    exact h2.hits fits_l1ml2h 1599 (by decide) (by decide) hcap c
  · apply p.l3.casOutcomes_eq (hpos (by decide) hcap)
    exact h3.misses fits_l2ml3h (by decide) 1599 (by decide) hcap (m := 22) (by decide) c
  · apply p.l3.casOutcomes_eq (hpos (by decide) hcap)
    exact h3.hits fits_l2ml3h 1599 (by decide) (by decide) hcap c
  · apply p.me.casOutcomes_eq (hpos (by decide) hcap)
    exact h4.misses fits_l3m (by decide) 63 (by decide) hcap (m := 30) (by decide) c

/-- Eight ways in L1 and L2 and twelve in L3, all empty. -/
theorem casthread_levels_empty :
    ∃ p, casthread 1000 (Array.replicate size.toNat ⟨0, none⟩) = some p ∧
      p.l1.casOutcomes 5 (Cache.empty 32 8) = (List.replicate 1000 true).flatMap casTurn ∧
      p.l2.casOutcomes 5 (Cache.empty 32 8) = (List.replicate 1000 false).flatMap casTurn ∧
      p.l3.casOutcomes 5 (Cache.empty 256 8) = (List.replicate 1000 false).flatMap casTurn ∧
      p.me.casOutcomes 5 (Cache.empty 4096 12) = (List.replicate 1000 false).flatMap casTurn := by
  obtain ⟨p, hp, h1, h2, h3⟩ :=
    @casthread_levels 1000 5 (Array.replicate size.toNat ⟨0, none⟩) Array.size_replicate
  obtain ⟨hit1, miss1⟩ := h1 32 8 (by decide) (Cache.empty 32 8)
  obtain ⟨-, miss2⟩ := h2 256 8 (by decide) (Cache.empty 256 8)
  obtain ⟨-, miss3⟩ := h3 4096 12 (by decide) (Cache.empty 4096 12)
  exact ⟨p, hp, hit1, miss1, miss2, miss3⟩

end Mem
end CommSpeed
