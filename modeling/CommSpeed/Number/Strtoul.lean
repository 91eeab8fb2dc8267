/-
`strtoul` with base 0 on a 64-bit machine, and the integers written in its syntax.

`strtoul` skips blanks, takes a sign and a prefix and reads digits up to the first
character that is none.  A value of 2^64 or more becomes 2^64 - 1, whatever the
sign, and a smaller one is negated modulo 2^64 after a minus sign.

A `Numeral` is a text that is an integer from its first character after the
blanks to its last.  What `strtoul` returns on it is a function of the integer.
-/
import Mathlib.Data.Nat.Digits.Defs

namespace CommSpeed
namespace Number

/-- `isspace` in the C locale. -/
def isSpace (c : Char) : Bool := c.toNat == 32 || (decide (9 ≤ c.toNat) && decide (c.toNat ≤ 13))

/-- The value of a digit: '0' to '9', then the letters of either case. -/
def digitValue (c : Char) : Option Nat :=
  if 48 ≤ c.toNat ∧ c.toNat ≤ 57 then some (c.toNat - 48)
  else if 97 ≤ c.toNat ∧ c.toNat ≤ 122 then some (c.toNat - 87)
  else if 65 ≤ c.toNat ∧ c.toNat ≤ 90 then some (c.toNat - 55)
  else none

def digitIn (base : Nat) (c : Char) : Option Nat := (digitValue c).filter fun d => d < base

/-- The digits up to the first character that is none, behind the value `v`. -/
def accumulate (base : Nat) (v : Nat) : List Char → Nat
  | [] => v
  | c :: cs =>
    match digitIn base c with
    | some d => accumulate base (v * base + d) cs
    | none => v

/-- Whether there is a minus sign, and what follows the sign. -/
def splitSign : List Char → Bool × List Char
  | '-' :: cs => (true, cs)
  | '+' :: cs => (false, cs)
  | cs => (false, cs)

/-- "0x" counts as a prefix only before a hexadecimal digit. -/
def isHexPrefixed : List Char → Bool
  | '0' :: x :: c :: _ => (x == 'x' || x == 'X') && (digitIn 16 c).isSome
  | _ => false

/-- The base that the prefix gives and the characters behind the prefix. -/
def baseAndDigits (cs : List Char) : Nat × List Char :=
  if isHexPrefixed cs then (16, cs.drop 2)
  else if cs.head? = some '0' then (8, cs)
  else (10, cs)

/-- `strtoul(s, NULL, 0)`. -/
def strtoul (s : List Char) : Nat :=
  let (negative, cs) := splitSign (s.dropWhile isSpace)
  let (base, digits) := baseAndDigits cs
  let v := accumulate base 0 digits
  if 2 ^ 64 ≤ v then 2 ^ 64 - 1
  else if negative then (2 ^ 64 - v) % 2 ^ 64
  else v

/-! ## Numerals -/

/-- `ds` are the values of the digits `cs`. -/
def Digits (base : Nat) (cs : List Char) (ds : List Nat) : Prop :=
  cs.map (digitIn base) = ds.map some

/-- The texts of a natural number: decimal without a leading zero, octal, or
hexadecimal. -/
inductive Magnitude : List Char → Nat → Prop
  | decimal {c : Char} {cs : List Char} {ds : List Nat} (hc : c ≠ '0')
      (h : Digits 10 (c :: cs) ds) : Magnitude (c :: cs) (Nat.ofDigits 10 ds.reverse)
  | octal {cs : List Char} {ds : List Nat} (h : Digits 8 cs ds) :
      Magnitude ('0' :: cs) (Nat.ofDigits 8 ds.reverse)
  | hexadecimal {x c : Char} {cs : List Char} {ds : List Nat} (hx : x = 'x' ∨ x = 'X')
      (h : Digits 16 (c :: cs) ds) :
      Magnitude ('0' :: x :: c :: cs) (Nat.ofDigits 16 ds.reverse)

inductive Sign
  | none
  | plus
  | minus
  deriving DecidableEq

def Sign.text : Sign → List Char
  | .none => []
  | .plus => ['+']
  | .minus => ['-']

/-- An integer written in the syntax of `strtoul`. -/
structure Numeral where
  blanks : List Char
  sign : Sign
  digits : List Char
  magnitude : Nat
  blanks_isSpace : ∀ c ∈ blanks, isSpace c
  digits_magnitude : Magnitude digits magnitude

namespace Numeral

def text (n : Numeral) : List Char := n.blanks ++ (n.sign.text ++ n.digits)

def value (n : Numeral) : Int := if n.sign = .minus then -n.magnitude else n.magnitude

end Numeral

/-- The `unsigned long` that `strtoul` makes of an integer. -/
def ulongOf (z : Int) : Nat := if 2 ^ 64 ≤ z.natAbs then 2 ^ 64 - 1 else (z % 2 ^ 64).toNat

/-! ## Digits -/

section

variable {base v : Nat} {c : Char} {cs : List Char} {ds : List Nat}

theorem digits_cons_iff {ds : List Nat} :
    Digits base (c :: cs) ds ↔ ∃ d ds', ds = d :: ds' ∧ digitIn base c = some d ∧
      Digits base cs ds' := by
  unfold Digits
  cases ds with
  | nil => simp
  | cons d ds => simp

/-- The digits of a text add to the value behind them as digits do. -/
theorem accumulate_digits (h : Digits base cs ds) :
    accumulate base v cs = v * base ^ ds.length + Nat.ofDigits base ds.reverse := by
  induction cs generalizing v ds with
  | nil =>
      obtain rfl : ds = [] := by simpa [Digits] using h
      simp [accumulate]
  | cons c cs ih =>
      obtain ⟨d, ds, rfl, hd, hds⟩ := digits_cons_iff.mp h
      rw [accumulate, hd]
      dsimp only
      rw [ih hds, List.reverse_cons, Nat.ofDigits_append, Nat.ofDigits_singleton,
        List.length_reverse, List.length_cons, pow_succ]
      ring

theorem digitValue_of_digitIn {d : Nat} (h : digitIn base c = some d) :
    digitValue c = some d ∧ d < base := by
  have h' := Option.filter_eq_some_iff.mp h
  simpa using h'

theorem not_isSpace_of_digit {d : Nat} (h : digitIn base c = some d) :
    isSpace c = false ∧ c ≠ '-' ∧ c ≠ '+' := by
  obtain ⟨hv, -⟩ := digitValue_of_digitIn h
  have hrange : 48 ≤ c.toNat := by
    by_contra hlt
    rw [digitValue, if_neg (by omega), if_neg (by omega), if_neg (by omega)] at hv
    cases hv
  refine ⟨?_, ?_, ?_⟩
  · rw [isSpace, Bool.or_eq_false_iff, Bool.and_eq_false_iff]
    constructor
    · simp; omega
    · right; simp; omega
  · rintro rfl
    exact absurd hrange (by decide)
  · rintro rfl
    exact absurd hrange (by decide)

theorem accumulate_zero (h : Digits base cs ds) :
    accumulate base 0 cs = Nat.ofDigits base ds.reverse := by
  rw [accumulate_digits h]
  omega

/-! ## The value of a numeral -/

/-- The prefix gives the base and the digits of a magnitude. -/
theorem accumulate_magnitude {v : Nat} (h : Magnitude cs v) :
    accumulate (baseAndDigits cs).1 0 (baseAndDigits cs).2 = v := by
  cases h with
  | decimal hc h =>
      rename_i c cs ds
      have hhex : isHexPrefixed (c :: cs) = false := by
        unfold isHexPrefixed
        split
        · rename_i heq
          exact absurd (List.cons.inj heq).1 hc
        · rfl
      have hzero : (c :: cs).head? ≠ some '0' := by simpa using hc
      rw [baseAndDigits, hhex, if_neg (by decide), if_neg hzero]
      exact accumulate_zero h
  | octal h =>
      rename_i cs ds
      have hhex : isHexPrefixed ('0' :: cs) = false := by
        unfold isHexPrefixed
        split
        · rename_i x c cs' heq
          -- neither letter of the prefix is an octal digit
          obtain rfl : cs = x :: c :: cs' := (List.cons.inj heq).2
          obtain ⟨d, ds', -, hd, -⟩ := digits_cons_iff.mp h
          have hx : x ≠ 'x' := by
            rintro rfl
            cases hd
          have hX : x ≠ 'X' := by
            rintro rfl
            cases hd
          simp [hx, hX]
        · rfl
      have hzeros : Digits 8 ('0' :: cs) (0 :: ds) := digits_cons_iff.mpr ⟨0, ds, rfl, rfl, h⟩
      rw [baseAndDigits, hhex, if_neg (by decide), if_pos (by rfl), accumulate_zero hzeros,
        List.reverse_cons, Nat.ofDigits_append, Nat.ofDigits_singleton]
      omega
  | hexadecimal hx h =>
      rename_i x c cs ds
      obtain ⟨d, ds', -, hd, -⟩ := digits_cons_iff.mp h
      have hhex : isHexPrefixed ('0' :: x :: c :: cs) = true := by
        simpa [isHexPrefixed, hd] using hx
      rw [baseAndDigits, if_pos hhex]
      exact accumulate_zero h

theorem magnitude_head {v : Nat} (h : Magnitude cs v) :
    ∃ c cs', cs = c :: cs' ∧ isSpace c = false ∧ c ≠ '-' ∧ c ≠ '+' := by
  have hzero : isSpace '0' = false ∧ '0' ≠ '-' ∧ '0' ≠ '+' := by decide
  cases h with
  | decimal _ h =>
      obtain ⟨d, _, -, hd, -⟩ := digits_cons_iff.mp h
      exact ⟨_, _, rfl, not_isSpace_of_digit hd⟩
  | octal => exact ⟨'0', _, rfl, hzero⟩
  | hexadecimal => exact ⟨'0', _, rfl, hzero⟩

theorem dropWhile_text (n : Numeral) :
    n.text.dropWhile isSpace = n.sign.text ++ n.digits := by
  obtain ⟨c, cs, hdigits, hspace, -, -⟩ := magnitude_head n.digits_magnitude
  rw [Numeral.text, List.dropWhile_append_of_pos n.blanks_isSpace, hdigits]
  cases n.sign with
  | none => exact List.dropWhile_cons_of_neg (by simp [hspace])
  | plus => rfl
  | minus => rfl

theorem splitSign_text (n : Numeral) :
    splitSign (n.sign.text ++ n.digits) = (decide (n.sign = .minus), n.digits) := by
  obtain ⟨c, cs, hdigits, -, hminus, hplus⟩ := magnitude_head n.digits_magnitude
  rw [hdigits]
  cases n.sign with
  | none =>
      show splitSign (c :: cs) = (false, c :: cs)
      unfold splitSign
      split
      · rename_i heq
        exact absurd (List.cons.inj heq).1 hminus
      · rename_i heq
        exact absurd (List.cons.inj heq).1 hplus
      · rfl
  | plus => rfl
  | minus => rfl

/-- What `strtoul` returns on a numeral depends on its integer alone. -/
theorem strtoul_text (n : Numeral) : strtoul n.text = ulongOf n.value := by
  have hvalue : strtoul n.text =
      if 2 ^ 64 ≤ n.magnitude then 2 ^ 64 - 1
      else if n.sign = .minus then (2 ^ 64 - n.magnitude) % 2 ^ 64
      else n.magnitude := by
    rw [strtoul, dropWhile_text, splitSign_text]
    dsimp only
    rw [accumulate_magnitude n.digits_magnitude]
    simp only [decide_eq_true_eq]
  have habs : n.value.natAbs = n.magnitude := by
    unfold Numeral.value
    split <;> omega
  rw [hvalue, ulongOf, habs]
  by_cases hbig : 2 ^ 64 ≤ n.magnitude
  · rw [if_pos hbig, if_pos hbig]
  · rw [if_neg hbig, if_neg hbig, Numeral.value]
    by_cases hminus : n.sign = .minus
    · rw [if_pos hminus, if_pos hminus]
      omega
    · rw [if_neg hminus, if_neg hminus]
      omega

end

example : strtoul [' ', '-', '0', 'x', '1', 'f', '!'] = 2 ^ 64 - 31 := by decide

theorem ulongOf_of_small {z : Int} (h0 : 0 ≤ z) (h : z < 2 ^ 64) : (ulongOf z : Int) = z := by
  rw [ulongOf, if_neg (by omega)]
  omega

end Number
end CommSpeed
