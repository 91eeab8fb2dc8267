/-
The cache level that each phase of `memthread` exercises.

A cache sees the reads of the warm-up and then those of the timed loop.  The ring
of a phase covers a run of consecutive lines and the warm-up goes round it a whole
number of times, so the timed reads continue it.  A ring that is no larger than a
cache fits it exactly, in every geometry, and a ring that is a multiple of it
sends more lines through every set than the set has ways.
-/
import CommSpeed.Cache.SetAssoc
import CommSpeed.Mem.Chase

namespace CommSpeed
namespace Mem

open Stride Cache

/-- The cache line of `array[i]` for an array that starts at line `base`. -/
def lineOf (base : Nat) (i : UInt32) : Nat :=
  (base * cacheLineSize.toNat + i.toNat * wordSize.toNat) / cacheLineSize.toNat

def lines (base : Nat) (reads : List UInt32) : List Nat := reads.map (lineOf base)

/-- Which of the timed reads of a phase hit a cache that held `c` before the warm-up. -/
def Phase.outcomes {sets ways : Nat} (p : Phase) (base : Nat) (c : Cache sets ways) : List Bool :=
  (c.after (lines base p.warmUp)).hits (lines base p.timed)

/-- The line read in step `k` on a ring of `l` cells that are `step` words apart. -/
def ringLine (base step l s k : Nat) : Nat := base + step * place l s k / 16

theorem lineOf_ofNat {j : Nat} (hj : j < 2 ^ 32) (base : Nat) :
    lineOf base (.ofNat j) = base + j / 16 := by
  rw [lineOf, UInt32.toNat_ofNat_of_lt' hj, show cacheLineSize.toNat = 64 from rfl,
    show wordSize.toNat = 4 from rfl]
  omega

section

variable {b : Builder} {step s range l warm iter laps sets ways base : Nat} {old : Words}
  {p : Phase}

theorem lines_walk (hfits : Fits step (step * s) range l) (m n : Nat) :
    lines base (walk range (step * s) m n) =
      (List.range n).map fun k => ringLine base step l s (m + k) := by
  rw [lines, walk, List.map_map]
  refine List.map_congr_left fun k _ => ?_
  have hlt := (place_lt hfits.pos (step * s) (m + k)).trans hfits.small
  rw [Function.comp, lineOf_ofNat hlt, hfits.cells, Nat.mul_comm l step, place_mul]
  rfl

theorem ringLine_add_laps (base step l s r k : Nat) :
    ringLine base step l s (l * r + k) = ringLine base step l s k := by
  rw [ringLine, place_add_lap]
  rfl

theorem ringLine_add_lap (base step l s k : Nat) :
    ringLine base step l s (l + k) = ringLine base step l s k := by
  have hlap := ringLine_add_laps base step l s 1 k
  rwa [Nat.mul_one] at hlap

/-- The timed reads continue the laps of the warm-up. -/
theorem Phase.Spec.outcomes_eq (h : p.Spec b step (step * s) range l warm iter old)
    (hfits : Fits step (step * s) range l) (hwarm : warm = l * laps) (c : Cache sets ways) :
    p.outcomes base c = (c.after (trace (ringLine base step l s) warm)).hits
      ((List.range iter).map fun k => ringLine base step l s (warm + k)) := by
  have hwarmUp : lines base p.warmUp = trace (ringLine base step l s) warm := by
    rw [h.warmUp, lines_walk hfits, trace]
    exact List.map_congr_left fun k _ => by rw [Nat.zero_add]
  have htimed : lines base p.timed =
      (List.range iter).map fun k => ringLine base step l s (warm + k) := by
    rw [h.timed, lines_walk hfits]
    exact List.map_congr_left fun k _ => by rw [Nat.zero_add, hwarm, ringLine_add_laps]
  rw [Phase.outcomes, hwarmUp, htimed]

/-- A ring that fills a cache exactly hits. -/
theorem Phase.Spec.hits (h : p.Spec b step (step * s) range l warm iter old)
    (hfits : Fits step (step * s) range l) (laps : Nat) (hwarm : warm = l * (laps + 1)) {n : Nat}
    (hn : step * l = 16 * n) (hcap : sets * ways = n) (c : Cache sets ways) :
    p.outcomes base c = List.replicate iter true := by
  have hl : 0 < l := Nat.pos_of_mul_pos_right (hfits.cells ▸ hfits.pos)
  have hnpos : 0 < n := by
    have := Nat.mul_pos hfits.stepPos hl
    omega
  have hsets : 0 < sets := Nat.pos_of_mul_pos_right (hcap ▸ hnpos)
  rw [h.outcomes_eq hfits hwarm]
  refine hits_trace (fun t ht => decide_eq_true ?_) iter
  refine c.hit_of_fits (l := n) base hsets ⟨ways, hcap.symm⟩ ?_ (fun k => ?_) ?_
  · rw [← hcap, Nat.mul_div_cancel_left ways hsets]
  · have hlt := Nat.mul_lt_mul_of_pos_left (place_lt hl s k) hfits.stepPos
    rw [Finset.mem_Ico, ringLine]
    omega
  · -- the line was read one round ago
    have hround : l ≤ t := by
      rw [hwarm, Nat.mul_succ] at ht
      exact (Nat.le_add_left l _).trans ht
    obtain ⟨k, rfl⟩ := Nat.exists_eq_add_of_le hround
    rw [ringLine_add_lap]
    exact List.mem_map.mpr ⟨k, List.mem_range.mpr (Nat.lt_add_of_pos_left hl), rfl⟩

/-- A ring of one cell a line over `m` times the lines of a cache, `m` at least 2,
misses. -/
theorem Phase.Spec.misses (h : p.Spec b 16 (16 * s) range l warm iter old)
    (hfits : Fits 16 (16 * s) range l) (hcoprime : Nat.Coprime l s) (laps : Nat)
    (hwarm : warm = l * (laps + 1)) {n m : Nat} (hcap : sets * ways = n) (hm : l = n * (m + 2))
    (c : Cache sets ways) : p.outcomes base c = List.replicate iter false := by
  have hl : 0 < l := Nat.pos_of_mul_pos_right (hfits.cells ▸ hfits.pos)
  have hn : 0 < sets * ways := by
    rw [hcap]
    exact Nat.pos_of_mul_pos_right (hm ▸ hl)
  have hsets : 0 < sets := Nat.pos_of_mul_pos_right hn
  have hways : 0 < ways := Nat.pos_of_mul_pos_left hn
  have hl' : l = sets * (ways * (m + 2)) := by rw [hm, ← hcap, Nat.mul_assoc]
  have hline : ∀ k, ringLine base 16 l s k = base + place l s k := fun k => by
    rw [ringLine, Nat.mul_div_cancel_left _ (by decide)]
  rw [h.outcomes_eq hfits hwarm]
  refine hits_trace (fun t ht => decide_eq_false ?_) iter
  have hround : l ≤ t := by
    rw [hwarm, Nat.mul_succ] at ht
    exact (Nat.le_add_left l _).trans ht
  obtain ⟨k, rfl⟩ := Nat.exists_eq_add_of_le hround
  refine c.not_hit_of_round base hsets ⟨_, hl'⟩ ?_ (fun m => ?_)
    (ringLine_add_lap base 16 l s) k
  · rw [hl', Nat.mul_div_cancel_left _ hsets, Nat.mul_add]
    omega
  · have hplaces : ((List.range l).map fun k => ringLine base 16 l s (m + k)) =
        (lap l s m).map (base + ·) := by
      rw [lap, List.map_map]
      exact List.map_congr_left fun k _ => hline (m + k)
    rw [hplaces, List.range'_eq_map_range]
    exact (lap_perm hl hcoprime m).map _

end

/-- The names of the patterns are right for LRU caches of the sizes in the source,
whatever their geometry and whatever they held before the warm-up. -/
theorem memthread_levels (iter base : Nat) {ptr : Words} (hptr : ptr.size = size.toNat) :
    ∃ p, memthread iter ptr = some p ∧
      (∀ sets ways, sets * ways = (l1CacheSize / cacheLineSize).toNat → ∀ c : Cache sets ways,
        p.l1.outcomes base c = List.replicate iter true ∧
        p.l2.outcomes base c = List.replicate iter false) ∧
      (∀ sets ways, sets * ways = (l2CacheSize / cacheLineSize).toNat → ∀ c : Cache sets ways,
        p.l2.outcomes base c = List.replicate iter true ∧
        p.l3.outcomes base c = List.replicate iter false) ∧
      (∀ sets ways, sets * ways = (l3CacheSize / cacheLineSize).toNat → ∀ c : Cache sets ways,
        p.l3.outcomes base c = List.replicate iter true ∧
        p.me.outcomes base c = List.replicate iter false) := by
  obtain ⟨p, hp, hspec⟩ := memthread_spec iter hptr
  have h1 : p.l1.Spec .l1h 1 (1 * 1) 4096 4096 409600 iter ptr := hspec.l1
  have h2 : p.l2.Spec .l1ml2h 16 (16 * 5) 32768 2048 3276800 iter p.l1.array := hspec.l2
  have h3 : p.l3.Spec .l2ml3h 16 (16 * 5) 786432 49152 78643200 iter p.l2.array := hspec.l3
  have h4 : p.me.Spec .l3m 16 (16 * 5) 25165824 1572864 100663296 iter p.l3.array := hspec.me
  have hlines1 : (l1CacheSize / cacheLineSize).toNat = 256 := by decide
  have hlines2 : (l2CacheSize / cacheLineSize).toNat = 2048 := by decide
  have hlines3 : (l3CacheSize / cacheLineSize).toNat = 49152 := by decide
  rw [hlines1, hlines2, hlines3]
  refine ⟨p, hp, fun sets ways hcap c => ⟨?_, ?_⟩, fun sets ways hcap c => ⟨?_, ?_⟩,
    fun sets ways hcap c => ⟨?_, ?_⟩⟩
  · exact h1.hits fits_l1h 99 (by decide) (by decide) hcap c
  · exact h2.misses fits_l1ml2h (by decide) 1599 (by decide) hcap (m := 6) (by decide) c
  · exact h2.hits fits_l1ml2h 1599 (by decide) (by decide) hcap c
  · exact h3.misses fits_l2ml3h (by decide) 1599 (by decide) hcap (m := 22)
      (by decide) c
  · exact h3.hits fits_l2ml3h 1599 (by decide) (by decide) hcap c
  · exact h4.misses fits_l3m (by decide) 63 (by decide) hcap (m := 30) (by decide) c

/-- Eight ways in L1 and L2 and twelve in L3, all empty. -/
theorem memthread_levels_empty :
    ∃ p, memthread 10240000 (Array.replicate size.toNat ⟨0, none⟩) = some p ∧
      p.l1.outcomes 5 (Cache.empty 32 8) = List.replicate 10240000 true ∧
      p.l2.outcomes 5 (Cache.empty 32 8) = List.replicate 10240000 false ∧
      p.l2.outcomes 5 (Cache.empty 256 8) = List.replicate 10240000 true ∧
      p.l3.outcomes 5 (Cache.empty 256 8) = List.replicate 10240000 false ∧
      p.l3.outcomes 5 (Cache.empty 4096 12) = List.replicate 10240000 true ∧
      p.me.outcomes 5 (Cache.empty 4096 12) = List.replicate 10240000 false := by
  obtain ⟨p, hp, h1, h2, h3⟩ :=
    @memthread_levels 10240000 5 (Array.replicate size.toNat ⟨0, none⟩) Array.size_replicate
  obtain ⟨hit1, miss1⟩ := h1 32 8 (by decide) (Cache.empty 32 8)
  obtain ⟨hit2, miss2⟩ := h2 256 8 (by decide) (Cache.empty 256 8)
  obtain ⟨hit3, miss3⟩ := h3 4096 12 (by decide) (Cache.empty 4096 12)
  exact ⟨p, hp, hit1, miss1, hit2, miss2, hit3, miss3⟩

end Mem
end CommSpeed
