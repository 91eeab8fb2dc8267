/-
The hash functions of `murmur_hash.cpp`.

`murmurhash32` and `murmurhash64A` lose nothing: for a key every seed gives another
hash, and keys of one length that differ within one aligned piece (four and eight bytes,
the bytes behind the last whole piece being one more) have different hashes under every
seed (`Separates`).  Each proof only says that the statements of the loop, of the switch
and of the final mix can be undone.

The final mix of `fnv_hash2` cannot: it works on an `int`, so its right shifts repeat the
sign, and at most half of the 32-bit words are hashes.  As the seed enters last, a
collision under one seed is one under all.

The arithmetic of `int` wraps around here, as that of `uint32_t` does.
-/
import CommSpeed.Bytes.Order
import CommSpeed.Number.Mixing

namespace CommSpeed
namespace Hash

open Bytes Function Number

/-- The bytes at `key`, with an `int32_t` for their number. -/
structure Key where
  bytes : List UInt8
  int32 : bytes.length < 2 ^ 31

/-- `data[i]`, cast to the word of the hash. -/
def byte {w : Nat} (data : List UInt8) (i : Nat) : BitVec w := (data.getD i 0).toBitVec.setWidth w

/-- The cases of the switch from the one for `i` bytes on: each falls through to that
for one byte less. -/
def fallThrough {w : Nat} (data : List UInt8) : Nat → BitVec w → BitVec w
  | 0, h => h
  | i + 1, h => fallThrough data i (h ^^^ byte data i <<< (8 * i))

/-- The switch on what the loop has left of the key; without bytes no case applies. -/
def tail {w : Nat} (m : BitVec w) (h : BitVec w) (data : List UInt8) : BitVec w :=
  if data.length = 0 then h else fallThrough data data.length h * m

def m32 : BitVec 32 := 0x5bd1e995

def r32 : Nat := 24

/-- The `k` of a turn of `murmurhash32` before it is mixed. -/
def word32 (data : List UInt8) : BitVec 32 :=
  byte data 0 ||| byte data 1 <<< 8 ||| byte data 2 <<< 16 ||| byte data 3 <<< 24

def step32 (h : BitVec 32) (data : List UInt8) : BitVec 32 :=
  let k := word32 data
  let k := k * m32
  let k := k ^^^ k >>> r32
  let k := k * m32
  let h := h * m32
  h ^^^ k

def murmurhash32 (key : Key) (seed : BitVec 32) : BitVec 32 :=
  let h := seed ^^^ BitVec.ofNat 32 key.bytes.length
  let h := absorb 4 step32 (tail m32) (key.bytes.length / 4) h key.bytes
  let h := h ^^^ h >>> 13
  let h := h * m32
  h ^^^ h >>> 15

def m64 : BitVec 64 := 0xc6a4a7935bd1e995

def r64 : Nat := 47

/-- A turn of `murmurhash64A` on a machine with byte order `o`, which loads the word as
it stands in the key. -/
def step64 (o : ByteOrder) (h : BitVec 64) (data : List UInt8) : BitVec 64 :=
  let k := BitVec.ofNat 64 (load o data)
  let k := k * m64
  let k := k ^^^ k >>> r64
  let k := k * m64
  let h := h ^^^ k
  h * m64

def murmurhash64A (o : ByteOrder) (key : Key) (seed : BitVec 64) : BitVec 64 :=
  let h := seed ^^^ BitVec.ofNat 64 key.bytes.length * m64
  let h := absorb 8 (step64 o) (tail m64) (key.bytes.length / 8) h key.bytes
  let h := h ^^^ h >>> r64
  let h := h * m64
  h ^^^ h >>> r64

/-- A turn of `fnv_hash2`; `char` is signed. -/
def fnvStep (hash : BitVec 32) (c : UInt8) : BitVec 32 :=
  (hash ^^^ c.toBitVec.signExtend 32) * 16777619

def fnvHash2 (key : Key) (seed : BitVec 32) : BitVec 32 :=
  let hash := key.bytes.foldl fnvStep 2166136261
  let hash := hash + hash <<< 13
  let hash := hash ^^^ hash.sshiftRight 7
  let hash := hash + hash <<< 3
  let hash := hash ^^^ hash.sshiftRight 17
  let hash := hash + hash <<< 5
  hash ^^^ seed

/-- A keyed hash in pieces of `n` bytes loses nothing of the seed, and nothing of the key
within one piece. -/
structure Separates {w : Nat} (n : Nat) (hash : Key → BitVec w → BitVec w) : Prop where
  seeds : ∀ key, Bijective (hash key)
  pieces : ∀ i a b, DifferIn n i a.bytes b.bytes → ∀ seed, hash a seed ≠ hash b seed

/-! ## Bytes of a word -/

section

variable {w : Nat} {data : List UInt8} {i j : Nat}

theorem getLsbD_byte (hj : j < w) :
    (byte data i <<< (8 * i) : BitVec w).getLsbD j =
      (decide (j / 8 = i) && (data.getD i 0).toBitVec.getLsbD (j % 8)) := by
  rw [BitVec.getLsbD_shiftLeft, byte, BitVec.getLsbD_setWidth]
  by_cases hi : j / 8 = i
  · have hmod : j - 8 * i = j % 8 := by omega
    simp [hj, hi, hmod, show ¬ j < 8 * i by omega, show j % 8 < w by omega]
  · by_cases hlt : j < 8 * i
    · simp [hi, hlt]
    · simp [hi, BitVec.getLsbD_of_ge _ (j - 8 * i) (show 8 ≤ j - 8 * i by omega)]

theorem getLsbD_fallThrough (n : Nat) (h : BitVec w) (hj : j < w) :
    (fallThrough data n h).getLsbD j =
      (h.getLsbD j ^^ (decide (j / 8 < n) && (data.getD (j / 8) 0).toBitVec.getLsbD (j % 8))) := by
  induction n generalizing h with
  | zero => simp [fallThrough]
  | succ n ih =>
      rw [fallThrough, ih, BitVec.getLsbD_xor, getLsbD_byte hj]
      by_cases hn : j / 8 = n
      · simp [hn]
      · simp [hn, show j / 8 < n + 1 ↔ j / 8 < n by omega]

/-- The bytes of a word can be read off it. -/
theorem fallThrough_inj {a b : List UInt8} (hlen : a.length = b.length) (hw : 8 * a.length ≤ w)
    {h : BitVec w} (heq : fallThrough a a.length h = fallThrough b b.length h) : a = b := by
  apply List.ext_getElem hlen
  intro i ha hb
  apply UInt8.toBitVec_inj.mp
  apply BitVec.eq_of_getLsbD_eq
  intro k hk
  have hbit := congrArg (fun z => z.getLsbD (8 * i + k)) heq
  have hdiv : (8 * i + k) / 8 = i := by omega
  have hmod : (8 * i + k) % 8 = k := by omega
  simp only [getLsbD_fallThrough _ h (show 8 * i + k < w by omega), hdiv, hmod, ha, hb,
    decide_true, Bool.true_and, Bool.xor_right_inj] at hbit
  rwa [List.getD_eq_getElem?_getD, List.getD_eq_getElem?_getD, List.getElem?_eq_getElem ha,
    List.getElem?_eq_getElem hb] at hbit

theorem fallThrough_injective (data : List UInt8) (n : Nat) :
    Injective (fallThrough data n : BitVec w → BitVec w) := by
  induction n with
  | zero => exact injective_id
  | succ n ih => exact ih.comp (xor_injective _)

theorem word32_eq (data : List UInt8) : word32 data = fallThrough data 4 0#32 := by
  have hword : word32 data = byte data 0 <<< (8 * 0) ||| byte data 1 <<< (8 * 1) |||
      byte data 2 <<< (8 * 2) ||| byte data 3 <<< (8 * 3) := by
    rw [word32, Nat.mul_zero, BitVec.shiftLeft_zero]
  apply BitVec.eq_of_getLsbD_eq
  intro j hj
  rw [hword, BitVec.getLsbD_or, BitVec.getLsbD_or, BitVec.getLsbD_or, getLsbD_byte hj,
    getLsbD_byte hj, getLsbD_byte hj, getLsbD_byte hj, getLsbD_fallThrough 4 0#32 hj,
    BitVec.getLsbD_zero, Bool.false_xor]
  have hcases : j / 8 = 0 ∨ j / 8 = 1 ∨ j / 8 = 2 ∨ j / 8 = 3 := by omega
  rcases hcases with h | h | h | h <;> simp [h]

theorem tail_injective {m m' : BitVec w} (hm : m * m' = 1) (data : List UInt8) :
    Injective (tail m · data) := by
  by_cases hdata : data.length = 0
  · simp only [tail, if_pos hdata]
    exact injective_id
  · simp only [tail, if_neg hdata]
    exact (mul_injective hm).comp (fallThrough_injective data _)

theorem tail_inj {m m' : BitVec w} (hm : m * m' = 1) {h : BitVec w} {a b : List UInt8}
    (hlen : a.length = b.length) (hw : 8 * a.length ≤ w) (heq : tail m h a = tail m h b) :
    a = b := by
  by_cases ha : a.length = 0
  · rw [List.length_eq_zero_iff.mp ha, List.length_eq_zero_iff.mp (hlen.symm.trans ha)]
  · rw [tail, tail, if_neg ha, if_neg (hlen ▸ ha)] at heq
    exact fallThrough_inj hlen hw (mul_injective hm heq)

/-- The mixing of a piece into a word before it meets the state. -/
theorem mixed_injective {m m' : BitVec w} (hm : m * m' = 1) {r : Nat} (hr : 0 < r) :
    Injective fun k : BitVec w => (k * m ^^^ (k * m) >>> r) * m :=
  ((mul_injective hm).comp (xor_ushiftRight_injective hr)).comp (mul_injective hm)

theorem final_injective {m m' : BitVec w} (hm : m * m' = 1) {r s : Nat} (hr : 0 < r)
    (hs : 0 < s) :
    Injective fun h : BitVec w => (h ^^^ h >>> r) * m ^^^ ((h ^^^ h >>> r) * m) >>> s :=
  ((xor_ushiftRight_injective hs).comp (mul_injective hm)).comp (xor_ushiftRight_injective hr)

end

/-! ## The two hashes -/

theorem m32_unit : m32 * 0xe59b19bd = 1 := by decide

theorem m64_unit : m64 * 0x5f7a0ea7e59b19bd = 1 := by decide

theorem step32_injective (data : List UInt8) : Injective (step32 · data) :=
  (xor_injective _).comp (mul_injective m32_unit)

theorem step32_inj (h : BitVec 32) : Set.InjOn (step32 h) {d | d.length = 4} := by
  intro a ha b hb heq
  have hword : word32 a = word32 b :=
    mixed_injective m32_unit (by decide) (xor_injective' (h * m32) heq)
  rw [word32_eq, word32_eq] at hword
  apply fallThrough_inj (ha.trans hb.symm) (by rw [ha])
  rwa [ha, hb]

theorem step64_injective (o : ByteOrder) (data : List UInt8) : Injective (step64 o · data) :=
  (mul_injective m64_unit).comp (xor_injective _)

theorem step64_inj (o : ByteOrder) (h : BitVec 64) : Set.InjOn (step64 o h) {d | d.length = 8} := by
  intro a ha b hb heq
  have hword : BitVec.ofNat 64 (load o a) = BitVec.ofNat 64 (load o b) :=
    mixed_injective m64_unit (by decide) (xor_injective' h (mul_injective m64_unit heq))
  have hload : load o a = load o b := by
    have hlt : ∀ d : List UInt8, d.length = 8 → load o d < 2 ^ 64 := by
      intro d hd
      have h := load_lt o d
      rwa [hd] at h
    have hnat := congrArg BitVec.toNat hword
    rwa [BitVec.toNat_ofNat, BitVec.toNat_ofNat, Nat.mod_eq_of_lt (hlt a ha),
      Nat.mod_eq_of_lt (hlt b hb)] at hnat
  exact load_inj o (ha.trans hb.symm) hload

/-- A hash that starts from the seed and the length alone, absorbs the key and mixes once
more loses nothing if each of these steps can be undone. -/
theorem separates {w n : Nat} {hash : Key → BitVec w → BitVec w}
    {step : BitVec w → List UInt8 → BitVec w} {m m' : BitVec w} {final : BitVec w → BitVec w}
    (start : Nat → BitVec w → BitVec w)
    (hhash : ∀ key seed, hash key seed = final (absorb n step (tail m) (key.bytes.length / n)
      (start key.bytes.length seed) key.bytes))
    (hn : 0 < n) (hw : 8 * n ≤ w) (hm : m * m' = 1) (hstart : ∀ l, Injective (start l))
    (hstep : ∀ d, Injective (step · d)) (hpiece : ∀ h, Set.InjOn (step h) {d | d.length = n})
    (hfinal : Injective final) : Separates n hash where
  seeds key := by
    have heq : hash key = fun seed => final (absorb n step (tail m) (key.bytes.length / n)
        (start key.bytes.length seed) key.bytes) := funext (hhash key)
    rw [heq]
    apply Injective.bijective_of_finite
    exact (hfinal.comp (absorb_injective hstep (tail_injective hm) _ _)).comp (hstart _)
  pieces i a b hab seed := by
    rw [hhash, hhash]
    apply hfinal.ne
    rw [hab.length]
    have hrest : ∀ (h : BitVec w) (a b : List UInt8), a.length = b.length → a.length < n →
        tail m h a = tail m h b → a = b :=
      fun h a b hlen hlt heq => tail_inj hm hlen (by omega) heq
    have hne := absorb_ne hn hstep (tail_injective hm) hpiece hrest hab
      (start b.bytes.length seed)
    rwa [hab.length] at hne

theorem murmurhash32_separates : Separates 4 murmurhash32 :=
  separates (fun l seed => seed ^^^ BitVec.ofNat 32 l) (fun _ _ => rfl) (by decide)
    (by decide) m32_unit (fun _ => xor_injective _) step32_injective step32_inj
    (final_injective m32_unit (by decide) (by decide))

example : murmurhash32 ⟨[1, 200, 3, 4, 5, 255, 7, 8, 9, 10, 11], by decide⟩ 7 = 0xeb6ad9c3 := by
  decide

theorem murmurhash64A_separates (o : ByteOrder) : Separates 8 (murmurhash64A o) :=
  separates (fun l seed => seed ^^^ BitVec.ofNat 64 l * m64) (fun _ _ => rfl)
    (by decide) (by decide) m64_unit (fun _ => xor_injective _) (step64_injective o)
    (step64_inj o) (final_injective m64_unit (by decide) (by decide))

/-! ## The hash that loses half -/

/-- What is left after the last shift that repeats the sign. -/
def fnvMixed (hash : BitVec 32) : BitVec 32 :=
  let hash := hash + hash <<< 13
  let hash := hash ^^^ hash.sshiftRight 7
  let hash := hash + hash <<< 3
  hash ^^^ hash.sshiftRight 17

theorem fnvHash2_range (seed : BitVec 32) :
    Set.range (fun key => fnvHash2 key seed) ⊆
      (fun x : BitVec 32 => (x + x <<< 5) ^^^ seed) '' {x | x.msb = false} := by
  rintro _ ⟨key, rfl⟩
  exact ⟨fnvMixed (key.bytes.foldl fnvStep 2166136261), msb_xor_sshiftRight _ _, rfl⟩

theorem fnvHash2_loses_half (seed : BitVec 32) :
    (Set.range fun key => fnvHash2 key seed).ncard ≤ 2 ^ 31 ∧
      ∀ a b seed', fnvHash2 a seed = fnvHash2 b seed ↔ fnvHash2 a seed' = fnvHash2 b seed' := by
  constructor
  · calc (Set.range fun key => fnvHash2 key seed).ncard
        ≤ ((fun x : BitVec 32 => (x + x <<< 5) ^^^ seed) '' {x | x.msb = false}).ncard :=
          Set.ncard_le_ncard (fnvHash2_range seed)
      _ ≤ {x : BitVec 32 | x.msb = false}.ncard := Set.ncard_image_le
      _ ≤ 2 ^ 31 := ncard_msb_false_le 31
  · have hseed : ∀ a b s s', fnvHash2 a s = fnvHash2 b s → fnvHash2 a s' = fnvHash2 b s' :=
      fun a b s s' h => congrArg (· ^^^ s') (xor_injective s h)
    exact fun a b seed' => ⟨hseed a b seed seed', hseed a b seed' seed⟩

end Hash
end CommSpeed
