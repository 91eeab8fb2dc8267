/-
Words that are mixed without loss, and hashes that absorb their data piece by piece.

Multiplying by an odd constant, xoring a constant and xoring a word with its own logical
right shift can all be undone.  A right shift that repeats the sign can not: xored with
the word it leaves no sign (`msb_xor_sshiftRight`), so half of the words are not reached.

`absorb` runs over the data in pieces of `n` bytes.  If no piece is lost in the state and
no state in the piece, two data of one length that differ in one piece only end in two
states, whatever comes before and after that piece (`absorb_ne`).
-/
import Mathlib.Data.BitVec
import Mathlib.Data.Set.Card

namespace CommSpeed
namespace Number

open Function

section

variable {w : Nat}

instance finiteBitVec : Finite (BitVec w) := .of_injective _ BitVec.toFin_injective

theorem mul_injective {m m' : BitVec w} (h : m * m' = 1) : Injective fun x => x * m := by
  intro x y hxy
  have hmul : x * m * m' = y * m * m' := congrArg (· * m') hxy
  rwa [mul_assoc, mul_assoc, h, mul_one, mul_one] at hmul

theorem xor_injective (y : BitVec w) : Injective fun x => x ^^^ y :=
  fun _ _ h => (BitVec.xor_left_inj y).mp h

theorem xor_injective' (x : BitVec w) : Injective fun y => x ^^^ y :=
  fun _ _ h => (BitVec.xor_right_inj x).mp h

/-- What two words differ in would be its own right shift. -/
theorem xor_ushiftRight_injective {r : Nat} (hr : 0 < r) :
    Injective fun x : BitVec w => x ^^^ x >>> r := by
  intro x y hxy
  have hshift : x ^^^ y = (x ^^^ y) >>> r := by
    rw [BitVec.ushiftRight_xor_distrib, ← BitVec.xor_right_inj (x := x ^^^ y), BitVec.xor_self]
    calc 0#w = (x ^^^ x >>> r) ^^^ (y ^^^ y >>> r) := by
          rw [show x ^^^ x >>> r = y ^^^ y >>> r from hxy, BitVec.xor_self]
      _ = x ^^^ y ^^^ (x >>> r ^^^ y >>> r) := by ac_rfl
  have hnat : (x ^^^ y).toNat = (x ^^^ y).toNat / 2 ^ r := by
    rw [← Nat.shiftRight_eq_div_pow, ← BitVec.toNat_ushiftRight, ← hshift]
  have hzero : (x ^^^ y).toNat = 0 := by
    by_contra hne
    have hlt := Nat.div_lt_self (Nat.pos_of_ne_zero hne) (Nat.one_lt_two_pow (by omega : r ≠ 0))
    omega
  exact BitVec.xor_eq_zero_iff.mp (BitVec.eq_of_toNat_eq hzero)

theorem msb_xor_sshiftRight (x : BitVec w) (r : Nat) : (x ^^^ x.sshiftRight r).msb = false := by
  rw [BitVec.msb_xor, BitVec.msb_sshiftRight, Bool.xor_self]

/-- At most half of the words have no sign. -/
theorem ncard_msb_false_le (w : Nat) : {x : BitVec (w + 1) | x.msb = false}.ncard ≤ 2 ^ w := by
  have hto : ∀ x ∈ {x : BitVec (w + 1) | x.msb = false},
      x.toNat ∈ (Finset.range (2 ^ w) : Set Nat) := by
    intro x hx
    have hlt := BitVec.msb_eq_false_iff_two_mul_lt.mp hx
    rw [Finset.coe_range, Set.mem_Iio]
    rw [pow_succ] at hlt
    omega
  have hle := Set.ncard_le_ncard_of_injOn BitVec.toNat hto BitVec.toNat_injective.injOn
  rwa [Set.ncard_coe_finset, Finset.card_range] at hle

end

/-! ## Absorbing data -/

section

variable {β σ : Type} {n : Nat} {step last : σ → List β → σ}

/-- `k` pieces of `n` bytes one after the other, then what is left of the data. -/
def absorb (n : Nat) (step last : σ → List β → σ) : Nat → σ → List β → σ
  | 0, h, data => last h data
  | k + 1, h, data => absorb n step last k (step h (data.take n)) (data.drop n)

/-- The data are different, but only in piece `i`. -/
structure DifferIn (n i : Nat) (a b : List β) : Prop where
  length : a.length = b.length
  ne : a ≠ b
  same : ∀ j < a.length, j / n ≠ i → a[j]? = b[j]?

theorem absorb_injective (hstep : ∀ d, Injective (step · d)) (hlast : ∀ d, Injective (last · d))
    (k : Nat) (data : List β) : Injective fun h => absorb n step last k h data := by
  induction k generalizing data with
  | zero => exact hlast data
  | succ k ih => exact (ih (data.drop n)).comp (hstep (data.take n))

theorem DifferIn.same_all {i : Nat} {a b : List β} (h : DifferIn n i a b) {j : Nat}
    (hj : j / n ≠ i) : a[j]? = b[j]? := by
  by_cases hlt : j < a.length
  · exact h.same j hlt hj
  · rw [List.getElem?_eq_none (by omega), List.getElem?_eq_none (by have := h.length; omega)]

/-- Data that differ in their first piece agree behind it. -/
theorem DifferIn.first {a b : List β} (hn : 0 < n) (h : DifferIn n 0 a b) :
    a.take n ≠ b.take n ∧ a.drop n = b.drop n := by
  have hdrop : a.drop n = b.drop n := by
    apply List.ext_getElem?
    intro j
    rw [List.getElem?_drop, List.getElem?_drop]
    apply h.same_all
    rw [Nat.add_div_left j hn]
    exact Nat.succ_ne_zero _
  refine ⟨fun htake => h.ne ?_, hdrop⟩
  rw [← List.take_append_drop n a, htake, hdrop, List.take_append_drop]

/-- Data that differ in a later piece agree in the first one. -/
theorem DifferIn.later {i : Nat} {a b : List β} (hn : 0 < n) (h : DifferIn n (i + 1) a b) :
    a.take n = b.take n ∧ DifferIn n i (a.drop n) (b.drop n) := by
  have htake : a.take n = b.take n := by
    apply List.ext_getElem?
    intro j
    by_cases hj : j < n
    · rw [List.getElem?_take_of_lt hj, List.getElem?_take_of_lt hj]
      apply h.same_all
      rw [Nat.div_eq_of_lt hj]
      omega
    · rw [List.getElem?_take_eq_none (by omega), List.getElem?_take_eq_none (by omega)]
  refine ⟨htake, ?_, ?_, ?_⟩
  · rw [List.length_drop, List.length_drop, h.length]
  · intro hdrop
    apply h.ne
    rw [← List.take_append_drop n a, htake, hdrop, List.take_append_drop]
  · intro j _ hj
    rw [List.getElem?_drop, List.getElem?_drop]
    apply h.same_all
    rw [Nat.add_div_left j hn]
    omega

/-- Data of one length that differ in one piece only end in different states. -/
theorem absorb_ne (hn : 0 < n) (hstep : ∀ d, Injective (step · d))
    (hlast : ∀ d, Injective (last · d))
    (hpiece : ∀ h, Set.InjOn (step h) {d | d.length = n})
    (hrest : ∀ h, ∀ a b : List β, a.length = b.length → a.length < n → last h a = last h b → a = b)
    {i : Nat} {a b : List β} (hab : DifferIn n i a b) (h : σ) :
    absorb n step last (a.length / n) h a ≠ absorb n step last (b.length / n) h b := by
  rw [← hab.length]
  generalize hk : a.length / n = k
  induction k generalizing a b h i with
  | zero =>
      have hlt : a.length < n := (Nat.div_eq_zero_iff.mp hk).resolve_left (by omega)
      exact fun heq => hab.ne (hrest h a b hab.length hlt heq)
  | succ k ih =>
      have hle : n ≤ a.length := by
        by_contra hlt
        rw [Nat.div_eq_of_lt (by omega)] at hk
        omega
      cases i with
      | zero =>
          obtain ⟨htake, hdrop⟩ := hab.first hn
          have hlen : (a.take n).length = n := by rw [List.length_take]; omega
          have hlen' : (b.take n).length = n := by
            rw [List.length_take, ← hab.length]
            omega
          show absorb n step last k _ (a.drop n) ≠ absorb n step last k _ (b.drop n)
          rw [hdrop]
          intro heq
          exact htake (hpiece h hlen hlen' (absorb_injective hstep hlast k _ heq))
      | succ i =>
          obtain ⟨htake, hdrop⟩ := hab.later hn
          show absorb n step last k _ (a.drop n) ≠ absorb n step last k _ (b.drop n)
          rw [htake]
          apply ih hdrop
          have hdiv := Nat.div_eq_sub_div hn hle
          rw [List.length_drop]
          omega

end

end Number
end CommSpeed
