/-
Walking around a ring in strides.

After `n` strides of `s` on a ring of `l` places the walk is at `n * s % l`.  When
`s` and `l` are coprime any `l` consecutive places are all the places of the ring,
each once.  In general the walk repeats after `l / gcd l s` strides and uses the
multiples of `gcd l s`.
-/
import Mathlib.Data.List.Nodup
import Mathlib.Data.List.Perm.Subperm
import Mathlib.Data.Nat.ModEq

namespace CommSpeed
namespace Stride

/-- The place after `n` strides. -/
def place (l s n : Nat) : Nat := n * s % l

theorem place_zero (l s : Nat) : place l s 0 = 0 := by
  rw [place, Nat.zero_mul, Nat.zero_mod]

theorem place_succ (l s n : Nat) : place l s (n + 1) = (place l s n + s) % l := by
  rw [place, place, Nat.succ_mul, Nat.mod_add_mod]

theorem place_lt {l : Nat} (hl : 0 < l) (s n : Nat) : place l s n < l := Nat.mod_lt _ hl

/-- A ring of `w * l` places walked in strides of `w * s` uses every `w`-th place. -/
theorem place_mul (w l s n : Nat) : place (w * l) (w * s) n = w * place l s n := by
  rw [place, place, ← Nat.mul_mod_mul_left, Nat.mul_left_comm]

/-- After any number of whole laps the walk starts again. -/
theorem place_add_lap (l s r n : Nat) : place l s (l * r + n) = place l s n := by
  rw [place, place, Nat.add_mul, Nat.mul_assoc, Nat.mul_add_mod]

variable {l s : Nat}

theorem place_inj (h : Nat.Coprime l s) {m n : Nat} (hmn : place l s m = place l s n) :
    m ≡ n [MOD l] :=
  Nat.ModEq.cancel_right_of_coprime h hmn

/-- The places of `l` strides taken from the `m`-th on. -/
def lap (l s m : Nat) : List Nat := (List.range l).map fun k => place l s (m + k)

theorem nodup_lap (h : Nat.Coprime l s) (m : Nat) : (lap l s m).Nodup := by
  refine List.Nodup.map_on (fun i hi j hj hij => ?_) List.nodup_range
  have hmod := Nat.ModEq.add_left_cancel' m (place_inj h hij)
  exact hmod.eq_of_lt_of_lt (List.mem_range.mp hi) (List.mem_range.mp hj)

theorem lap_perm (hl : 0 < l) (h : Nat.Coprime l s) (m : Nat) :
    (lap l s m).Perm (List.range l) := by
  have hsub : lap l s m ⊆ List.range l := by
    intro i hi
    obtain ⟨k, -, rfl⟩ := List.mem_map.mp hi
    exact List.mem_range.mpr (place_lt hl s _)
  refine (List.subperm_of_subset (nodup_lap h m) hsub).perm_of_length_le ?_
  rw [lap, List.length_map]

/-! ## Any stride -/

theorem place_eq_iff (hl : 0 < l) {m n : Nat} :
    place l s m = place l s n ↔ m ≡ n [MOD l / Nat.gcd l s] := by
  constructor
  · intro h
    exact Nat.ModEq.cancel_right_div_gcd hl h
  · intro h
    have hlap : l ∣ l / Nat.gcd l s * s := by
      obtain ⟨r, hr⟩ := Nat.gcd_dvd_right l s
      refine ⟨r, ?_⟩
      calc l / Nat.gcd l s * s = l / Nat.gcd l s * (Nat.gcd l s * r) := by rw [← hr]
        _ = l / Nat.gcd l s * Nat.gcd l s * r := (Nat.mul_assoc _ _ _).symm
        _ = l * r := by rw [Nat.div_mul_cancel (Nat.gcd_dvd_left l s)]
    exact (h.mul_right' s).of_dvd hlap

theorem exists_place_iff (hl : 0 < l) {k : Nat} (hk : k < l) :
    (∃ n, place l s n = k) ↔ Nat.gcd l s ∣ k := by
  constructor
  · rintro ⟨n, rfl⟩
    refine (Nat.dvd_mod_iff (Nat.gcd_dvd_left l s)).mpr ?_
    exact Nat.dvd_mul_left_of_dvd (Nat.gcd_dvd_right l s) n
  · rintro ⟨k', rfl⟩
    have hg : 0 < Nat.gcd l s := Nat.gcd_pos_of_pos_left s hl
    have hcoprime := Nat.coprime_div_gcd_div_gcd hg
    obtain ⟨l', hl'⟩ := Nat.gcd_dvd_left l s
    obtain ⟨s', hs'⟩ := Nat.gcd_dvd_right l s
    generalize Nat.gcd l s = g at *
    subst hl' hs'
    rw [Nat.mul_div_cancel_left _ hg, Nat.mul_div_cancel_left _ hg] at hcoprime
    have hk' : k' ∈ lap l' s' 0 := by
      refine (lap_perm (Nat.pos_of_mul_pos_left hl) hcoprime 0).mem_iff.mpr ?_
      exact List.mem_range.mpr (Nat.lt_of_mul_lt_mul_left hk)
    obtain ⟨n, -, hn⟩ := List.mem_map.mp hk'
    exact ⟨0 + n, by rw [place_mul, hn]⟩

end Stride
end CommSpeed
