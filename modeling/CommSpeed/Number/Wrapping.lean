/-
Sums of 64-bit words and shares of sums.

A sum of words is the sum of their values modulo 2^64, so it is exact as soon as the sum
fits, whatever the partial sums and the terms have done.  The share of two sums lies
between the shares of their terms.
-/
import Mathlib.Algebra.BigOperators.Group.List.Basic
import Mathlib.Algebra.Order.BigOperators.Group.List
import Mathlib.Algebra.Order.Field.Basic
import Mathlib.Algebra.BigOperators.Ring.List
import Mathlib.Data.UInt
import Mathlib.Tactic.Abel

namespace CommSpeed
namespace Number

theorem toNat_add_of_lt {a b : UInt64} {m n : Nat} (ha : a.toNat = m) (hb : b.toNat = n)
    (h : m + n < 2 ^ 64) : (a + b).toNat = m + n := by
  rw [UInt64.toNat_add, ha, hb, Nat.mod_eq_of_lt h]

theorem toNat_sum (l : List UInt64) : l.sum.toNat = (l.map UInt64.toNat).sum % 2 ^ 64 := by
  induction l with
  | nil => rfl
  | cons a l ih =>
      rw [List.sum_cons, List.map_cons, List.sum_cons, UInt64.toNat_add, ih, Nat.add_mod_mod]

theorem sum_map_sub {ι G : Type} [AddCommGroup G] (l : List ι) (f g : ι → G) :
    (l.map fun i => f i - g i).sum = (l.map f).sum - (l.map g).sum := by
  induction l with
  | nil => simp
  | cons i l ih =>
      rw [List.map_cons, List.map_cons, List.map_cons, List.sum_cons, List.sum_cons,
        List.sum_cons, ih]
      abel

section

variable {ι K : Type} [Field K] [LinearOrder K] [IsStrictOrderedRing K]

/-- The share of two sums is at least the share of some term.  A term without a whole has
none. -/
theorem exists_share_le {l : List ι} {part whole : ι → K} (hnonneg : ∀ i ∈ l, 0 ≤ whole i)
    (hpart : ∀ i ∈ l, whole i = 0 → part i = 0) (hpos : 0 < (l.map whole).sum) :
    ∃ i ∈ l, whole i ≠ 0 ∧ part i / whole i ≤ (l.map part).sum / (l.map whole).sum := by
  by_contra hnone
  push Not at hnone
  have hcancel := div_mul_cancel₀ (l.map part).sum hpos.ne'
  rw [← List.sum_map_mul_left] at hcancel
  have hmore : ∀ i ∈ l, whole i ≠ 0 →
      (l.map part).sum / (l.map whole).sum * whole i < part i := fun i hi hne =>
    (lt_div_iff₀ (lt_of_le_of_ne (hnonneg i hi) (Ne.symm hne))).mp (hnone i hi hne)
  have hsome : ∃ i ∈ l, whole i ≠ 0 := by
    by_contra hzero
    push Not at hzero
    exact hpos.ne' (List.sum_eq_zero fun y hy => by
      obtain ⟨i, hi, rfl⟩ := List.mem_map.mp hy
      exact hzero i hi)
  obtain ⟨i, hi, hne⟩ := hsome
  refine hcancel.not_lt (List.sum_lt_sum _ _ (fun j hj => ?_) ⟨i, hi, hmore i hi hne⟩)
  by_cases hzero : whole j = 0
  · rw [hzero, hpart j hj hzero, mul_zero]
  · exact (hmore j hj hzero).le

theorem exists_le_share {l : List ι} {part whole : ι → K} (hnonneg : ∀ i ∈ l, 0 ≤ whole i)
    (hpart : ∀ i ∈ l, whole i = 0 → part i = 0) (hpos : 0 < (l.map whole).sum) :
    ∃ i ∈ l, whole i ≠ 0 ∧ (l.map part).sum / (l.map whole).sum ≤ part i / whole i := by
  have hneg : (l.map fun i => -part i).sum = -(l.map part).sum := by
    rw [List.sum_neg, List.map_map]
    rfl
  obtain ⟨i, hi, hne, hle⟩ : ∃ i ∈ l, whole i ≠ 0 ∧
      -part i / whole i ≤ (l.map fun i => -part i).sum / (l.map whole).sum :=
    exists_share_le hnonneg (fun i hi hzero => by rw [hpart i hi hzero, neg_zero]) hpos
  rw [hneg, neg_div, neg_div, neg_le_neg_iff] at hle
  exact ⟨i, hi, hne, hle⟩

end

end Number
end CommSpeed
