/-
Byte orders.

A number of `n` bytes has two layouts in memory, `store little n x` and
`store big n x`, each the reverse of the other.  `swap n x` is the number whose
one layout is the other layout of `x`.  Everything reduces to the two facts that
loading inverts storing (`load_store`) and that swapping a number exchanges its
layouts (`store_swap`).
-/
import Mathlib.Tactic.Ring

namespace CommSpeed
namespace Bytes

/-- The order in which a machine keeps the bytes of a number. -/
inductive ByteOrder
  | little
  | big
  deriving DecidableEq

namespace ByteOrder

def other : ByteOrder → ByteOrder
  | little => big
  | big => little

@[simp] theorem other_other (o : ByteOrder) : o.other.other = o := by
  cases o <;> rfl

end ByteOrder

open ByteOrder

/-- The `n` low bytes of `x`, least significant first. -/
def storeLE : Nat → Nat → List UInt8
  | 0, _ => []
  | n + 1, x => UInt8.ofNat x :: storeLE n (x / 256)

/-- The number whose bytes, least significant first, are given. -/
def loadLE : List UInt8 → Nat
  | [] => 0
  | b :: bs => b.toNat + 256 * loadLE bs

/-- The `n` bytes of `x` as a machine of the given order keeps them. -/
def store (o : ByteOrder) (n x : Nat) : List UInt8 :=
  match o with
  | little => storeLE n x
  | big => (storeLE n x).reverse

/-- The number a machine of the given order reads from memory. -/
def load (o : ByteOrder) (bs : List UInt8) : Nat :=
  match o with
  | little => loadLE bs
  | big => loadLE bs.reverse

/-- `x` with its `n` bytes in the opposite order. -/
def swap (n x : Nat) : Nat := load big (storeLE n x)

theorem length_storeLE (n x : Nat) : (storeLE n x).length = n := by
  induction n generalizing x with
  | zero => rfl
  | succ n ih => rw [storeLE, List.length_cons, ih]

@[simp] theorem length_store (o : ByteOrder) (n x : Nat) : (store o n x).length = n := by
  cases o with
  | little => exact length_storeLE n x
  | big => rw [store, List.length_reverse, length_storeLE]

theorem loadLE_storeLE {n x : Nat} (h : x < 256 ^ n) : loadLE (storeLE n x) = x := by
  induction n generalizing x with
  | zero =>
      have hx : x = 0 := by simpa using h
      rw [hx]
      rfl
  | succ n ih =>
      have hdiv : x / 256 < 256 ^ n := by
        rw [pow_succ] at h
        exact Nat.div_lt_of_lt_mul (by rwa [Nat.mul_comm] at h)
      rw [storeLE, loadLE, ih hdiv, UInt8.toNat_ofNat']
      omega

theorem storeLE_loadLE (bs : List UInt8) : storeLE bs.length (loadLE bs) = bs := by
  induction bs with
  | nil => rfl
  | cons b bs ih =>
      have hb : b.toNat < 256 := b.toNat_lt
      have hdiv : (b.toNat + 256 * loadLE bs) / 256 = loadLE bs := by omega
      have hlow : UInt8.ofNat (b.toNat + 256 * loadLE bs) = b := by
        apply UInt8.toNat_inj.mp
        rw [UInt8.toNat_ofNat']
        omega
      rw [List.length_cons, storeLE, loadLE, hdiv, ih, hlow]

theorem loadLE_lt (bs : List UInt8) : loadLE bs < 256 ^ bs.length := by
  induction bs with
  | nil => simp [loadLE]
  | cons b bs ih =>
      have hb : b.toNat < 256 := b.toNat_lt
      rw [loadLE, List.length_cons, pow_succ]
      omega

theorem load_store (o : ByteOrder) {n x : Nat} (h : x < 256 ^ n) :
    load o (store o n x) = x := by
  cases o with
  | little => exact loadLE_storeLE h
  | big => rw [load, store, List.reverse_reverse, loadLE_storeLE h]

theorem load_lt (o : ByteOrder) (bs : List UInt8) : load o bs < 256 ^ bs.length := by
  cases o with
  | little => exact loadLE_lt bs
  | big => simpa [load] using loadLE_lt bs.reverse

theorem load_inj (o : ByteOrder) {as bs : List UInt8} (hlen : as.length = bs.length)
    (h : load o as = load o bs) : as = bs := by
  cases o with
  | little =>
      have hle : loadLE as = loadLE bs := h
      rw [← storeLE_loadLE as, hle, hlen, storeLE_loadLE]
  | big =>
      have hle : loadLE as.reverse = loadLE bs.reverse := h
      apply List.reverse_inj.mp
      rw [← storeLE_loadLE as.reverse, hle, List.length_reverse, hlen, ← List.length_reverse,
        storeLE_loadLE]

theorem store_inj (o : ByteOrder) {n x y : Nat} (hx : x < 256 ^ n) (hy : y < 256 ^ n)
    (h : store o n x = store o n y) : x = y := by
  rw [← load_store o hx, ← load_store o hy, h]

theorem swap_lt (n x : Nat) : swap n x < 256 ^ n := by
  simpa [swap, length_storeLE] using load_lt big (storeLE n x)

/-- Swapping a number exchanges its two layouts. -/
theorem store_swap (o : ByteOrder) (n x : Nat) : store o n (swap n x) = store o.other n x := by
  have hle : storeLE n (swap n x) = (storeLE n x).reverse := by
    have h := storeLE_loadLE (storeLE n x).reverse
    rwa [List.length_reverse, length_storeLE] at h
  cases o with
  | little => exact hle
  | big => rw [store, hle, List.reverse_reverse]; rfl

theorem swap_swap {n x : Nat} (h : x < 256 ^ n) : swap n (swap n x) = x := by
  refine store_inj little (swap_lt _ _) h ?_
  rw [store_swap, store_swap, other_other]

/-- Reading a layout in the other order swaps the number. -/
theorem load_store_other (o : ByteOrder) {n : Nat} (x : Nat) :
    load o (store o.other n x) = swap n x := by
  rw [← store_swap, load_store o (swap_lt n x)]

end Bytes
end CommSpeed
