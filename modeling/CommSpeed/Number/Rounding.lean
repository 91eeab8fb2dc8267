/-
Binary floating-point numbers: rounding to the nearest one, ties to even.

A format has a precision and a least exponent, at which its smallest numbers are evenly
spaced; it has no largest number.  Rounding is monotone and leaves the integers that fit
the precision alone.  Its error is at most half a digit in the last place.  Relative to the
number this is at most 2 to the power of minus the precision, above the smallest numbers
and for every multiple of the least digit: so for every difference of two numbers of the
format.
-/
import Mathlib.Algebra.Order.BigOperators.Group.List
import Mathlib.Algebra.Order.Round
import Mathlib.Data.Int.Log
import Mathlib.Data.Rat.Floor
import Mathlib.Tactic.Linarith
import Mathlib.Tactic.Ring

namespace CommSpeed
namespace Number

variable {K : Type} [Field K]

/-! ## Formats -/

theorem zpow_eq_mul [NeZero (2 : K)] {e k : Int} (h : e ≤ k) :
    (2 : K) ^ k = (2 ^ (k - e).toNat : Int) * 2 ^ e := by
  rw [Int.cast_pow, Int.cast_ofNat, ← zpow_natCast, ← zpow_add₀ two_ne_zero]
  congr 1
  omega

structure Format where
  precision : Nat
  /-- The exponent of the last digit of the smallest numbers. -/
  least : Int
  positive : 0 < precision

/-- The multiples of the least digit. -/
def Format.OnGrid (F : Format) (x : K) : Prop := ∃ n : Int, x = n * 2 ^ F.least

theorem Format.OnGrid.sub {F : Format} {x y : K} (hx : F.OnGrid x) (hy : F.OnGrid y) :
    F.OnGrid (x - y) := by
  obtain ⟨n, rfl⟩ := hx
  obtain ⟨m, rfl⟩ := hy
  exact ⟨n - m, by rw [Int.cast_sub, sub_mul]⟩

variable [LinearOrder K] [FloorRing K]

/-- The nearest integer, and the even one where two are.  `round` takes the upper one. -/
def nearestEven (x : K) : Int :=
  if (round x : K) - x = 1 / 2 ∧ round x % 2 = 1 then round x - 1 else round x

/-- The exponent of the last digit that is kept. -/
def Format.exponent (F : Format) (x : K) : Int :=
  if x = 0 then F.least else max F.least (Int.log 2 |x| + 1 - F.precision)

def Format.round (F : Format) (x : K) : K := nearestEven (x / 2 ^ F.exponent x) * 2 ^ F.exponent x

theorem Format.least_le_exponent (F : Format) (x : K) : F.least ≤ F.exponent x := by
  rw [Format.exponent]
  split
  · exact le_refl _
  · exact le_max_left _ _

theorem Format.onGrid_round [NeZero (2 : K)] {F : Format} (x : K) : F.OnGrid (F.round x) := by
  refine ⟨nearestEven (x / 2 ^ F.exponent x) * 2 ^ (F.exponent x - F.least).toNat, ?_⟩
  rw [Format.round, Int.cast_mul, mul_assoc, ← zpow_eq_mul (F.least_le_exponent x)]

/-! ## The nearest integer -/

theorem nearestEven_le_round (x : K) : nearestEven x ≤ round x := by
  rw [nearestEven]
  split <;> omega

theorem round_sub_one_le_nearestEven (x : K) : round x - 1 ≤ nearestEven x := by
  rw [nearestEven]
  split <;> omega

variable [IsStrictOrderedRing K]

@[simp] theorem nearestEven_intCast (n : Int) : nearestEven (n : K) = n := by
  simp [nearestEven]

theorem abs_nearestEven_sub_le (x : K) : |(nearestEven x : K) - x| ≤ 1 / 2 := by
  rw [nearestEven]
  by_cases htie : (round x : K) - x = 1 / 2 ∧ round x % 2 = 1
  · rw [if_pos htie, Int.cast_sub, Int.cast_one, abs_le]
    constructor <;> linarith [htie.1]
  · rw [if_neg htie, abs_sub_comm]
    exact abs_sub_round x

theorem nearestEven_mono {x y : K} (h : x ≤ y) : nearestEven x ≤ nearestEven y := by
  have hround : round x ≤ round y := by
    rw [round_eq, round_eq]
    exact Int.floor_mono (by linarith)
  rcases hround.lt_or_eq with hlt | heq
  · have hx := nearestEven_le_round x
    have hy := round_sub_one_le_nearestEven y
    omega
  · -- if `y` is rounded down then it is the least number that rounds to `round y`
    by_cases htie : (round y : K) - y = 1 / 2 ∧ round y % 2 = 1
    · have hle : x = y := by
        have hx := round_le_add_half x
        rw [heq] at hx
        linarith [htie.1]
      rw [hle]
    · have hx := nearestEven_le_round x
      rw [heq] at hx
      rwa [nearestEven.eq_def y, if_neg htie]

/-! ## Rounding -/

namespace Format

variable (F : Format) {x y : K}

/-- A number has at most `precision` digits down to its exponent. -/
theorem abs_lt_zpow (x : K) : |x| < 2 ^ (F.exponent x + F.precision) := by
  by_cases hx : x = 0
  · rw [hx, abs_zero]
    exact zpow_pos two_pos _
  · have hlog : |x| < 2 ^ (Int.log 2 |x| + 1) := by
      exact_mod_cast Int.lt_zpow_succ_log_self one_lt_two |x|
    refine hlog.trans_le (zpow_le_zpow_right₀ one_le_two ?_)
    rw [exponent, if_neg hx]
    omega

/-- It has no fewer above the least exponent. -/
theorem zpow_le_abs (h : F.least < F.exponent x) :
    2 ^ (F.exponent x + F.precision - 1) ≤ |x| := by
  have hx : x ≠ 0 := fun hx => by
    rw [exponent, if_pos hx] at h
    omega
  have hexp : F.exponent x + F.precision - 1 = Int.log 2 |x| := by
    rw [exponent, if_neg hx] at h ⊢
    omega
  rw [hexp]
  exact_mod_cast Int.zpow_log_le_self one_lt_two (abs_pos.mpr hx)

theorem exponent_le {k : Int} (hk : F.least ≤ k) (h : |x| < 2 ^ (k + F.precision)) :
    F.exponent x ≤ k := by
  by_contra hlt
  have hdigits := F.zpow_le_abs (x := x) (by omega)
  have hpow : (2 : K) ^ (k + F.precision) ≤ 2 ^ (F.exponent x + F.precision - 1) :=
    zpow_le_zpow_right₀ one_le_two (by omega)
  linarith

/-! ### Order -/

/-- Rounding does not cross a multiple of a digit that is kept. -/
theorem le_round {n e : Int} (he : F.exponent x ≤ e) (h : n * 2 ^ e ≤ x) :
    n * 2 ^ e ≤ F.round x := by
  have hdigit : (0 : K) < 2 ^ F.exponent x := zpow_pos two_pos _
  rw [zpow_eq_mul he, ← mul_assoc, ← Int.cast_mul] at h ⊢
  rw [round]
  refine mul_le_mul_of_nonneg_right (Int.cast_le.mpr ?_) hdigit.le
  rw [← nearestEven_intCast (K := K) (n * 2 ^ (e - F.exponent x).toNat)]
  exact nearestEven_mono ((le_div_iff₀ hdigit).mpr h)

theorem round_le {n e : Int} (he : F.exponent x ≤ e) (h : x ≤ n * 2 ^ e) :
    F.round x ≤ n * 2 ^ e := by
  have hdigit : (0 : K) < 2 ^ F.exponent x := zpow_pos two_pos _
  rw [zpow_eq_mul he, ← mul_assoc, ← Int.cast_mul] at h ⊢
  rw [round]
  refine mul_le_mul_of_nonneg_right (Int.cast_le.mpr ?_) hdigit.le
  rw [← nearestEven_intCast (K := K) (n * 2 ^ (e - F.exponent x).toNat)]
  exact nearestEven_mono ((div_le_iff₀ hdigit).mpr h)

theorem round_mono (h : x ≤ y) : F.round x ≤ F.round y := by
  have hpositive := F.positive
  -- a power of two that lies between numbers of different exponents
  have hbetween : ∀ {z w : K}, F.exponent z < F.exponent w →
      |z| < 2 ^ (F.exponent w + F.precision - 1) ∧
        2 ^ (F.exponent w + F.precision - 1) ≤ |w| := by
    intro z w hlt
    have hleast := F.least_le_exponent z
    refine ⟨(F.abs_lt_zpow z).trans_le ?_, F.zpow_le_abs (by omega)⟩
    exact zpow_le_zpow_right₀ one_le_two (by omega)
  rcases lt_trichotomy (F.exponent x) (F.exponent y) with hlt | heq | hgt
  · obtain ⟨hx, hy⟩ := hbetween hlt
    have hpow : ((1 : Int) : K) * 2 ^ (F.exponent y + F.precision - 1) =
      2 ^ (F.exponent y + F.precision - 1) := by rw [Int.cast_one, one_mul]
    have hbelow : x ≤ 2 ^ (F.exponent y + F.precision - 1) := (le_abs_self x).trans hx.le
    have habove : 2 ^ (F.exponent y + F.precision - 1) ≤ y := by
      rcases le_abs.mp hy with hy | hy
      · exact hy
      · linarith [neg_abs_le x]
    rw [← hpow] at hbelow habove
    exact (F.round_le (by omega) hbelow).trans (F.le_round (by omega) habove)
  · rw [round, round, heq]
    have hdigit : (0 : K) < 2 ^ F.exponent y := zpow_pos two_pos _
    refine mul_le_mul_of_nonneg_right (Int.cast_le.mpr (nearestEven_mono ?_)) hdigit.le
    exact (div_le_div_iff_of_pos_right hdigit).mpr h
  · obtain ⟨hy, hx⟩ := hbetween hgt
    have hpow : ((-1 : Int) : K) * 2 ^ (F.exponent x + F.precision - 1) =
      -2 ^ (F.exponent x + F.precision - 1) := by rw [Int.cast_neg, Int.cast_one, neg_one_mul]
    have hbelow : x ≤ -2 ^ (F.exponent x + F.precision - 1) := by
      rcases le_abs.mp hx with hx | hx
      · linarith [le_abs_self y]
      · linarith
    have habove : -2 ^ (F.exponent x + F.precision - 1) ≤ y := (abs_lt.mp hy).1.le
    rw [← hpow] at hbelow habove
    exact (F.round_le (by omega) hbelow).trans (F.le_round (by omega) habove)

/-! ### Exact numbers -/

/-- A multiple of a digit that is kept is exact. -/
theorem round_eq_self {n e : Int} (hx : x = n * 2 ^ e) (h : F.exponent x ≤ e) :
    F.round x = x := by
  have hle := F.round_le h hx.le
  have hge := F.le_round h hx.ge
  rw [← hx] at hle hge
  exact le_antisymm hle hge

/-- So is a multiple of any digit as long as it fits the precision. -/
theorem round_mul_zpow {n e : Int} (hn : |n| ≤ 2 ^ F.precision) (he : F.least ≤ e) :
    F.round ((n : K) * 2 ^ e) = n * 2 ^ e := by
  have hdigit : (0 : K) < 2 ^ e := zpow_pos two_pos _
  have habs : |(n : K) * 2 ^ e| = (|n| : Int) * 2 ^ e := by
    rw [abs_mul, abs_of_pos hdigit, Int.cast_abs]
  have hsplit : (2 : K) ^ (e + F.precision) = (2 ^ F.precision : Int) * 2 ^ e := by
    rw [zpow_add₀ two_ne_zero, mul_comm]
    norm_cast
  rcases hn.lt_or_eq with hlt | heq
  · refine F.round_eq_self rfl (F.exponent_le he ?_)
    rw [habs, hsplit]
    exact mul_lt_mul_of_pos_right (Int.cast_lt.mpr hlt) hdigit
  · -- one digit too many, but the last one is 0
    have heven : (2 : Int) ∣ n := by
      rw [← dvd_abs, heq]
      exact dvd_pow_self 2 F.positive.ne'
    obtain ⟨m, rfl⟩ := heven
    have hshift : ((2 * m : Int) : K) * 2 ^ e = m * 2 ^ (e + 1) := by
      rw [zpow_add_one₀ two_ne_zero, Int.cast_mul, Int.cast_ofNat]
      ring
    refine F.round_eq_self hshift (F.exponent_le (by omega) ?_)
    rw [habs, heq, ← hsplit]
    exact zpow_lt_zpow_right₀ one_lt_two (by omega)

theorem round_natCast {n : Nat} (hn : n ≤ 2 ^ F.precision) (h : F.least ≤ 0) :
    F.round (n : K) = n := by
  have habs : |(n : Int)| ≤ 2 ^ F.precision := by
    rw [abs_of_nonneg (Int.natCast_nonneg n)]
    exact_mod_cast hn
  simpa using F.round_mul_zpow (K := K) habs h

@[simp] theorem round_zero : F.round (0 : K) = 0 := by
  rw [round, zero_div, ← Int.cast_zero, nearestEven_intCast, Int.cast_zero, zero_mul]

theorem round_nonneg (h : 0 ≤ x) : 0 ≤ F.round x := by
  rw [← F.round_zero (K := K)]
  exact F.round_mono h

/-! ### Errors -/

theorem abs_round_sub_le (x : K) : |F.round x - x| ≤ 2 ^ (F.exponent x - 1) := by
  have hdigit : (0 : K) < 2 ^ F.exponent x := zpow_pos two_pos _
  have hquot : F.round x - x =
      (nearestEven (x / 2 ^ F.exponent x) - x / 2 ^ F.exponent x) * 2 ^ F.exponent x := by
    rw [round, sub_mul, div_mul_cancel₀ _ hdigit.ne']
  rw [hquot, abs_mul, abs_of_pos hdigit, zpow_sub_one₀ two_ne_zero, mul_comm, ← one_div]
  exact mul_le_mul_of_nonneg_left (abs_nearestEven_sub_le _) hdigit.le

/-- The relative error of a number with all its digits. -/
theorem round_error (h : 2 ^ (F.least + F.precision - 1) ≤ |x|) :
    |F.round x - x| ≤ |x| / 2 ^ F.precision := by
  have hdigits : 2 ^ (F.exponent x + F.precision - 1) ≤ |x| := by
    rcases (F.least_le_exponent x).lt_or_eq with hlt | heq
    · exact F.zpow_le_abs hlt
    · rwa [← heq]
  rw [le_div_iff₀ (pow_pos two_pos _)]
  calc |F.round x - x| * 2 ^ F.precision
      ≤ 2 ^ (F.exponent x - 1) * 2 ^ F.precision :=
        mul_le_mul_of_nonneg_right (F.abs_round_sub_le x) (pow_pos two_pos _).le
    _ = 2 ^ (F.exponent x + F.precision - 1) := by
        rw [← zpow_natCast, ← zpow_add₀ two_ne_zero]
        congr 1
        omega
    _ ≤ |x| := hdigits

variable {F}

/-- The relative error of a multiple of the least digit, which is exact if it is small. -/
theorem OnGrid.round_error (hx : F.OnGrid x) : |F.round x - x| ≤ |x| / 2 ^ F.precision := by
  by_cases hsmall : |x| < 2 ^ (F.least + F.precision)
  · obtain ⟨n, hn⟩ := hx
    rw [F.round_eq_self hn (F.exponent_le (le_refl _) hsmall), sub_self, abs_zero]
    exact div_nonneg (abs_nonneg x) (pow_pos two_pos _).le
  · refine F.round_error (le_trans ?_ (not_lt.mp hsmall))
    exact zpow_le_zpow_right₀ one_le_two (by omega)

/-- The errors of repeated subtraction, as long as the exact differences are bounded. -/
theorem abs_foldl_sub_le {ι : Type} {l : List ι} {f : ι → K} {b x₀ : K} (k : Nat)
    (hf : ∀ i ∈ l, F.OnGrid (f i) ∧ 0 ≤ f i) (hx : F.OnGrid x) (hle : x₀ ≤ b)
    (hge : -b ≤ x₀ - (l.map f).sum)
    (h : |x - x₀| ≤ ((1 + 1 / 2 ^ F.precision) ^ k - 1) * b) :
    |l.foldl (fun x i => F.round (x - f i)) x - (x₀ - (l.map f).sum)| ≤
      ((1 + 1 / 2 ^ F.precision) ^ (k + l.length) - 1) * b := by
  have hunit : 0 ≤ 1 / (2 : K) ^ F.precision := (one_div_pos.mpr (pow_pos two_pos _)).le
  induction l generalizing k x x₀ with
  | nil => simpa using h
  | cons i l ih =>
      obtain ⟨hgrid, hnonneg⟩ := hf i List.mem_cons_self
      have hrest : 0 ≤ (l.map f).sum := by
        refine List.sum_nonneg fun y hy => ?_
        obtain ⟨j, hj, rfl⟩ := List.mem_map.mp hy
        exact (hf j (List.mem_cons_of_mem i hj)).2
      rw [List.map_cons, List.sum_cons, ← sub_sub] at hge
      have hexact : |x₀ - f i| ≤ b := abs_le.mpr ⟨by linarith, by linarith⟩
      have hmoved : |x - f i| ≤ |x - x₀| + |x₀ - f i| := abs_sub_le x x₀ (f i)
      have hsum : |F.round (x - f i) - (x₀ - f i)| ≤
          |F.round (x - f i) - (x - f i)| + |x - f i - (x₀ - f i)| := abs_sub_le _ _ _
      rw [sub_sub_sub_cancel_right] at hsum
      have hround : |F.round (x - f i) - (x - f i)| ≤ (|x - x₀| + b) * (1 / 2 ^ F.precision) := by
        refine (hx.sub hgrid).round_error.trans ?_
        rw [div_eq_mul_one_div]
        exact mul_le_mul_of_nonneg_right (by linarith) hunit
      have hstep : |F.round (x - f i) - (x₀ - f i)| ≤
          ((1 + 1 / 2 ^ F.precision) ^ (k + 1) - 1) * b :=
        calc |F.round (x - f i) - (x₀ - f i)|
            ≤ |x - x₀| * (1 + 1 / 2 ^ F.precision) + b * (1 / 2 ^ F.precision) := by linarith
          _ ≤ ((1 + 1 / 2 ^ F.precision) ^ k - 1) * b * (1 + 1 / 2 ^ F.precision) +
                b * (1 / 2 ^ F.precision) :=
              add_le_add_left (mul_le_mul_of_nonneg_right h (by linarith)) _
          _ = ((1 + 1 / 2 ^ F.precision) ^ (k + 1) - 1) * b := by ring
      have hnext := ih (k + 1) (fun j hj => hf j (List.mem_cons_of_mem i hj)) (onGrid_round _)
        (by linarith) hge hstep
      rw [List.foldl_cons, List.map_cons, List.sum_cons, ← sub_sub, List.length_cons,
        add_comm l.length, ← add_assoc]
      exact hnext

end Format

/-! ## Doubles -/

/-- The numbers of a `double`, but for the largest exponent. -/
def binary64 : Format where
  precision := 53
  least := -1074
  positive := by decide

def double (x : Rat) : Rat := binary64.round x

/-- Of two nearest numbers the even one. -/
example : double (2 ^ 53 + 1) = 2 ^ 53 ∧ double (2 ^ 53 + 3) = 2 ^ 53 + 4 := by decide +kernel

theorem double_natCast {n : Nat} (h : n ≤ 2 ^ 53) : double n = n :=
  binary64.round_natCast h (by decide)

theorem double_mono {x y : Rat} (h : x ≤ y) : double x ≤ double y := binary64.round_mono h

theorem double_nonneg {x : Rat} (h : 0 ≤ x) : 0 ≤ double x := binary64.round_nonneg h

/-- The relative error above the smallest numbers. -/
theorem double_error {x : Rat} (h : x = 0 ∨ (2 : Rat) ^ (-1022 : Int) ≤ x) :
    |double x - x| ≤ x / 2 ^ 53 := by
  rcases h with rfl | h
  · simp [double]
  · have hpos : 0 ≤ x := (zpow_pos two_pos _).le.trans h
    have herror := binary64.round_error (x := x) <| by
      rw [abs_of_nonneg hpos]
      exact h
    rwa [abs_of_nonneg hpos] at herror

/-- A word that is converted. -/
theorem double_word (n : Nat) :
    (1 - 1 / 2 ^ 53) * n ≤ double n ∧ double n ≤ (1 + 1 / 2 ^ 53) * (n : Rat) := by
  have hword : (n : Rat) = 0 ∨ (2 : Rat) ^ (-1022 : Int) ≤ n := by
    rcases Nat.eq_zero_or_pos n with rfl | hpos
    · exact .inl Nat.cast_zero
    · have hone : (1 : Rat) ≤ n := by exact_mod_cast hpos
      exact .inr ((zpow_le_one_of_nonpos₀ one_le_two (by decide)).trans hone)
  have herror := abs_le.mp (double_error hword)
  constructor <;> linarith [herror.1, herror.2]

/-- The share of two words that are converted and then divided. -/
theorem double_share_error {m n : Nat} (hn : 0 < n) (h : n < 2 ^ 64) :
    |double (double m / double n) - m / n| ≤ (m : Rat) / n / 2 ^ 51 := by
  obtain ⟨hmlow, hmhigh⟩ := double_word m
  obtain ⟨hnlow, hnhigh⟩ := double_word n
  have hnpos : (0 : Rat) < n := Nat.cast_pos.mpr hn
  have hpos : 0 < double n := lt_of_lt_of_le (by positivity) hnlow
  have hshare : (0 : Rat) ≤ m / n := div_nonneg (Nat.cast_nonneg m) hnpos.le
  have hm : (m : Rat) / n * n = m := div_mul_cancel₀ _ hnpos.ne'
  have hlow : (1 - 1 / 2 ^ 53) / (1 + 1 / 2 ^ 53) * ((m : Rat) / n) ≤ double m / double n := by
    rw [le_div_iff₀ hpos]
    have := mul_le_mul_of_nonneg_left hnhigh hshare
    linarith
  have hhigh : double m / double n ≤ (1 + 1 / 2 ^ 53) / (1 - 1 / 2 ^ 53) * ((m : Rat) / n) := by
    rw [div_le_iff₀ hpos]
    have := mul_le_mul_of_nonneg_left hnlow hshare
    linarith
  have hnormal : double m / double n = 0 ∨ (2 : Rat) ^ (-1022 : Int) ≤ double m / double n := by
    rcases Nat.eq_zero_or_pos m with rfl | hmpos
    · exact .inl (by simp [double])
    · right
      have hleast : 1 / 2 ^ 64 ≤ (m : Rat) / n := by
        rw [div_le_div_iff₀ (by positivity) hnpos, one_mul]
        exact_mod_cast h.le.trans (Nat.le_mul_of_pos_left _ hmpos)
      have hsmall : (2 : Rat) ^ (-1022 : Int) ≤ 2 ^ (-65 : Int) :=
        zpow_le_zpow_right₀ one_le_two (by decide)
      have hvalue : (2 : Rat) ^ (-65 : Int) = 1 / 2 ^ 65 := by norm_num
      rw [hvalue] at hsmall
      exact hsmall.trans (by linarith)
  have herror := abs_le.mp (double_error hnormal)
  rw [abs_le]
  constructor <;> linarith [herror.1, herror.2]

end Number
end CommSpeed
