/-
How much of its range a builder's chain covers.

The loop of `l1ml2h`, `l2ml3h` and `l3m` with any step and any range links `range /
step` cache lines by jumps of five lines.  From index 0 the chain is a cycle of
`L / gcd L 5` lines, `L` being the number of lines of the range.  It leaves lines
out exactly when five divides `L`, and then it stays on every fifth line.
-/
import CommSpeed.Mem.Chase
import Mathlib.Data.Nat.Prime.Basic
import Mathlib.Data.Set.Card

namespace CommSpeed
namespace Mem

open Stride

/-- The index that the chain from index 0 reaches after `n` steps. -/
def chain (array : Words) (n : Nat) : Option Nat := (chase array n 0).map fun x => x.2.toNat

/-- The chain from index 0 comes back to it after `c` steps through distinct cells,
and goes round for ever. -/
structure PureCycle (array : Words) (c : Nat) : Prop where
  pos : 0 < c
  bound : ∀ n, ∃ i < array.size, chain array n = some i
  returns : chain array c = some 0
  distinct : ∀ m n, m < c → n < c → chain array m = chain array n → m = n
  periodic : ∀ n, chain array (n + c) = chain array n

/-- The chain visits the `k`-th cache line of `step` words. -/
def Visits (array : Words) (step k : Nat) : Prop := ∃ n i, chain array n = some i ∧ i / step = k

section

variable {b : Builder} {step s range l : Nat} {old new : Words}

/-- The chain of a filled array is the walk over its lines. -/
theorem Filled.chain (h : Filled b step (step * s) range l old new) (hrange : range = l * step)
    (hpos : 0 < range) (hfit : range < 2 ^ 32) (n : Nat) :
    chain new n = some (step * place l s n) := by
  have hlt := (place_lt hpos (step * s) n).trans hfit
  rw [Mem.chain, h.chase_zero hrange (Nat.dvd_mul_right step s) hpos hfit n, Option.map_some,
    UInt32.toNat_ofNat_of_lt' hlt, hrange, Nat.mul_comm l step, place_mul]

theorem Filled.visits_iff (h : Filled b step (step * s) range l old new)
    (hrange : range = l * step) (hpos : 0 < range) (hfit : range < 2 ^ 32) {k : Nat} :
    Visits new step k ↔ k < l ∧ Nat.gcd l s ∣ k := by
  have hstep : 0 < step := Nat.pos_of_mul_pos_left (hrange ▸ hpos)
  have hl : 0 < l := Nat.pos_of_mul_pos_right (hrange ▸ hpos)
  have hvisits : Visits new step k ↔ ∃ n, place l s n = k := by
    refine exists_congr fun n => ?_
    rw [h.chain hrange hpos hfit n]
    constructor
    · rintro ⟨i, hi, rfl⟩
      rw [← Option.some.inj hi, Nat.mul_div_cancel_left _ hstep]
    · rintro rfl
      exact ⟨_, rfl, Nat.mul_div_cancel_left _ hstep⟩
  rw [hvisits]
  constructor
  · intro hk
    have hlt : k < l := by
      obtain ⟨n, rfl⟩ := hk
      exact place_lt hl s n
    exact ⟨hlt, (exists_place_iff hl hlt).mp hk⟩
  · exact fun hk => (exists_place_iff hl hk.1).mpr hk.2

theorem Filled.pureCycle (h : Filled b step (step * s) range l old new)
    (hrange : range = l * step) (hpos : 0 < range) (hfit : range < 2 ^ 32)
    (hsize : range ≤ old.size) : PureCycle new (l / Nat.gcd l s) := by
  have hstep : 0 < step := Nat.pos_of_mul_pos_left (hrange ▸ hpos)
  have hl : 0 < l := Nat.pos_of_mul_pos_right (hrange ▸ hpos)
  have hchain := h.chain hrange hpos hfit
  have hinj : ∀ m n, Mem.chain new m = Mem.chain new n ↔ m ≡ n [MOD l / Nat.gcd l s] := by
    intro m n
    rw [hchain, hchain, Option.some.injEq, Nat.mul_right_inj hstep.ne']
    exact place_eq_iff hl
  refine ⟨Nat.div_pos (Nat.gcd_le_left s hl) (Nat.gcd_pos_of_pos_left s hl), fun n => ?_, ?_,
    fun m n hm hn hmn => ?_, fun n => ?_⟩
  · refine ⟨_, ?_, hchain n⟩
    have hlt := Nat.mul_lt_mul_of_pos_left (place_lt hl s n) hstep
    rw [h.size]
    rw [Nat.mul_comm step l, ← hrange] at hlt
    exact Nat.lt_of_lt_of_le hlt hsize
  · have hzero : Mem.chain new 0 = some 0 := by rw [hchain, place_zero, Nat.mul_zero]
    rw [← hzero, hinj]
    exact Nat.modEq_zero_iff_dvd.mpr (Nat.dvd_refl _)
  · exact ((hinj m n).mp hmn).eq_of_lt_of_lt hm hn
  · rw [hinj, Nat.ModEq, Nat.add_mod_right]

end

/-- The multiples of a divisor below a bound. -/
theorem ncard_multiples {l d : Nat} (hd : 0 < d) (hdvd : d ∣ l) :
    {k | k < l ∧ d ∣ k}.ncard = l / d := by
  obtain ⟨q, rfl⟩ := hdvd
  have himage : {k | k < d * q ∧ d ∣ k} = (d * ·) '' (Finset.range q : Set Nat) := by
    ext k
    simp only [Set.mem_ofPred_eq, Set.mem_image, Finset.coe_range, Set.mem_Iio]
    constructor
    · rintro ⟨hlt, j, rfl⟩
      exact ⟨j, Nat.lt_of_mul_lt_mul_left hlt, rfl⟩
    · rintro ⟨j, hj, rfl⟩
      exact ⟨Nat.mul_lt_mul_of_pos_left hj hd, Nat.dvd_mul_right d j⟩
  rw [himage, Set.ncard_image_of_injective _ (mul_right_injective₀ hd.ne'),
    Set.ncard_coe_finset, Finset.card_range, Nat.mul_div_cancel_left _ hd]

theorem gcd_five (l : Nat) : Nat.gcd l 5 = if 5 ∣ l then 5 else 1 := by
  split
  · rename_i h
    exact Nat.gcd_eq_right h
  · rename_i h
    exact Nat.Coprime.symm ((Nat.Prime.coprime_iff_not_dvd Nat.prime_five).mpr h)

/-- The loop of the stride builders with any constants.  With `L` lines in the range
the chain from index 0 is a cycle of `L / gcd L 5` cells; it visits every line if and
only if five does not divide `L`, and otherwise a fifth of the lines. -/
theorem fill_coverage {b : Builder} {step range : UInt32} {old : Words} (hstep : 0 < step.toNat)
    (hrange : 0 < range.toNat) (hdvd : step.toNat ∣ range.toNat)
    (hfit : range.toNat + 5 * step.toNat ≤ 2 ^ 32) (hsize : range.toNat < old.size) :
    ∃ new, fill b step (step * 5) range old = some new ∧
      PureCycle new (range.toNat / step.toNat / Nat.gcd (range.toNat / step.toNat) 5) ∧
      ((∀ k < range.toNat / step.toNat, Visits new step.toNat k) ↔
        ¬ 5 ∣ range.toNat / step.toNat) ∧
      (5 ∣ range.toNat / step.toNat →
        {k | Visits new step.toNat k}.ncard = range.toNat / step.toNat / 5) := by
  have hl : range.toNat = range.toNat / step.toNat * step.toNat := (Nat.div_mul_cancel hdvd).symm
  have hjump : (step * 5).toNat = step.toNat * 5 := by
    rw [UInt32.toNat_mul, show (5 : UInt32).toNat = 5 from rfl]
    exact Nat.mod_eq_of_lt (by omega)
  generalize range.toNat / step.toNat = l at *
  have hjumpfit : range.toNat + (step * 5).toNat ≤ 2 ^ 32 := by rw [hjump]; omega
  obtain ⟨new, hnew, hfilled⟩ := fill_filled b hstep hl hjumpfit (by omega) hsize.le
  rw [hjump] at hfilled
  have hsmall := range.toNat_lt
  have hlines : {k | Visits new step.toNat k} = {k | k < l ∧ Nat.gcd l 5 ∣ k} :=
    Set.ext fun k => hfilled.visits_iff hl hrange hsmall
  refine ⟨new, hnew, hfilled.pureCycle hl hrange hsmall hsize.le, ?_, fun h5 => ?_⟩
  · constructor
    · intro hall h5
      -- line 1 is not a multiple of five
      have hlpos : 0 < l := Nat.pos_of_mul_pos_right (hl ▸ hrange)
      have hone := (hfilled.visits_iff hl hrange hsmall).mp
        (hall 1 (Nat.lt_of_lt_of_le (by decide) (Nat.le_of_dvd hlpos h5)))
      rw [gcd_five, if_pos h5] at hone
      exact absurd hone.2 (by decide)
    · intro h5 k hk
      rw [hfilled.visits_iff hl hrange hsmall, gcd_five, if_neg h5]
      exact ⟨hk, Nat.one_dvd k⟩
  · rw [hlines, gcd_five, if_pos h5, ncard_multiples (by decide) h5]

/-- A level of 20 MB: its 327680 lines are a multiple of five. -/
theorem fill_coverage_20MB :
    ∃ new, fill .l2ml3h 16 (16 * 5) 5242880 (Array.replicate 5242881 ⟨0, none⟩) = some new ∧
      PureCycle new (327680 / Nat.gcd 327680 5) ∧
      ((∀ k < 327680, Visits new 16 k) ↔ ¬ 5 ∣ 327680) ∧
      (5 ∣ 327680 → {k | Visits new 16 k}.ncard = 327680 / 5) :=
  @fill_coverage .l2ml3h 16 5242880 (Array.replicate 5242881 ⟨0, none⟩) (by decide) (by decide)
    (by decide) (by decide) (by rw [Array.size_replicate]; decide)

end Mem
end CommSpeed
