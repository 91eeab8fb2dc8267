/-
Clock readings and the 64-bit arithmetic on them.
-/
import Mathlib.Tactic.Ring

namespace CommSpeed

structure Timeval where
  tvSec : Int
  tvUsec : Int
  deriving DecidableEq

namespace Timeval

/-- The microseconds of a reading. -/
def usec (t : Timeval) : Int := t.tvSec * 1000000 + t.tvUsec

/-- A clock reading in milliseconds, as the `unsigned long` it is stored in. -/
def msec (t : Timeval) : UInt64 := UInt64.ofInt (t.tvSec * 1000 + t.tvUsec.tdiv 1000)

end Timeval

/-- The value of a `long`.  Sums and products of `long` values agree with the exact
ones modulo 2^64, so one reduction at the end of an expression is enough. -/
def long (x : Int) : Int := x.bmod (2 ^ 64)

theorem long_of_small {x : Int} (hmin : -2 ^ 63 ≤ x) (hmax : x < 2 ^ 63) : long x = x :=
  Int.bmod_eq_of_le hmin hmax

theorem long_add_long (x y : Int) : long (long x + long y) = long (x + y) := by
  rw [long, long, long, Int.bmod_add_bmod, Int.add_bmod_bmod]
  rfl

end CommSpeed
