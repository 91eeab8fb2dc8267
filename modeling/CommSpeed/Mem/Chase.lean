/-
What the phases of `memthread` read.

A builder links the words it stores into a ring, and the chase walks round the
ring in strides.  Since 5 is coprime to the number of cells of every ring, a chase
visits all of them before it comes back.
-/
import CommSpeed.Loop.Stride
import CommSpeed.Mem.Permutate

namespace CommSpeed
namespace Mem

open Stride

/-- The indices read in `n` steps from the `m`-th place of a ring on. -/
def walk (range jump m n : Nat) : List UInt32 :=
  (List.range n).map fun k => .ofNat (place range jump (m + k))

theorem walk_succ (range jump m n : Nat) :
    walk range jump m (n + 1) = .ofNat (place range jump m) :: walk range jump (m + 1) n := by
  rw [walk, walk, List.range_succ_eq_map, List.map_cons, List.map_map]
  refine congrArg _ (List.map_congr_left fun k _ => ?_)
  rw [Function.comp, Nat.succ_add_eq_add_succ]

section

variable {b : Builder} {step jump range l : Nat} {old new : Words}

/-- The cell at a place of the ring points to the next place. -/
theorem Filled.next (h : Filled b step jump range l old new) (hrange : range = l * step)
    (hjump : step ∣ jump) (hpos : 0 < range) (m : Nat) :
    new[place range jump m]? = some ⟨.ofNat (place range jump (m + 1)), some b⟩ := by
  have hdvd : step ∣ place range jump m :=
    (Nat.dvd_mod_iff ⟨l, by rw [hrange, Nat.mul_comm]⟩).mpr (Nat.dvd_mul_left_of_dvd hjump m)
  obtain ⟨k, hk⟩ := hdvd
  have hlt := place_lt hpos jump m
  rw [hk, hrange, Nat.mul_comm] at hlt
  have hkl : k < l := Nat.lt_of_mul_lt_mul_right hlt
  rw [place_succ, hk, Nat.mul_comm step k]
  exact h.own k hkl

theorem Filled.chase (h : Filled b step jump range l old new) (hrange : range = l * step)
    (hjump : step ∣ jump) (hpos : 0 < range) (hfit : range < 2 ^ 32) (m n : Nat) :
    chase new n (.ofNat (place range jump m)) =
      some (walk range jump m n, .ofNat (place range jump (m + n))) := by
  induction n generalizing m with
  | zero => rfl
  | succ n ih =>
      have hread : (UInt32.ofNat (place range jump m)).toNat = place range jump m :=
        UInt32.toNat_ofNat_of_lt' ((place_lt hpos jump m).trans hfit)
      rw [Mem.chase, hread, h.next hrange hjump hpos m]
      dsimp only
      rw [ih (m + 1), walk_succ, Nat.succ_add_eq_add_succ]
      rfl

/-! ## A ring -/

/-- The ring that a builder leaves in an array. -/
structure Ring (b : Builder) (step stride range : Nat) (old new : Words) : Prop where
  bound : range < new.size
  /-- The index reached after `n` steps. -/
  index : ∀ n, ∃ reads j, Mem.chase new n 0 = some (reads, j) ∧ j.toNat = n * stride % range ∧
    j.toNat < range
  /-- Every cell that is read was stored by the builder. -/
  own : ∀ n reads j, Mem.chase new n 0 = some (reads, j) →
    ∀ i ∈ reads, ∃ cell, new[i.toNat]? = some cell ∧ cell.writer = some b
  /-- From any step on, as many steps as there are cells read each cell once. -/
  window : ∀ m reads j, Mem.chase new m 0 = some (reads, j) →
    ∃ window j', Mem.chase new (range / step) j = some (window, j') ∧
      (window.map UInt32.toNat).Perm ((List.range (range / step)).map (step * ·))
  frame : ∀ i, range ≤ i ∨ i % step ≠ 0 → new[i]? = old[i]?

theorem toNat_walk (hpos : 0 < range) (hfit : range < 2 ^ 32) (m n : Nat) :
    (walk range jump m n).map UInt32.toNat =
      (List.range n).map fun k => place range jump (m + k) := by
  rw [walk, List.map_map]
  refine List.map_congr_left fun k _ => ?_
  exact UInt32.toNat_ofNat_of_lt' ((place_lt hpos jump (m + k)).trans hfit)

theorem Filled.ring {s : Nat} (h : Filled b step (step * s) range l old new)
    (hrange : range = l * step) (hpos : 0 < range) (hfit : range < 2 ^ 32)
    (hbound : range < new.size) (hcoprime : Nat.Coprime l s) :
    Ring b step (step * s) range old new := by
  have hstep : 0 < step := Nat.pos_of_mul_pos_left (hrange ▸ hpos)
  have hl : range / step = l := by rw [hrange, Nat.mul_div_cancel l hstep]
  have hlpos : 0 < l := Nat.pos_of_mul_pos_right (hrange ▸ hpos)
  have hchase := h.chase hrange (Nat.dvd_mul_right step s) hpos hfit
  have hzero : (0 : UInt32) = .ofNat (place range (step * s) 0) := by rw [place_zero]; rfl
  have hstart : ∀ n, Mem.chase new n 0 =
      some (walk range (step * s) 0 n, .ofNat (place range (step * s) n)) := by
    intro n
    rw [hzero, hchase 0 n, Nat.zero_add]
  refine ⟨hbound, fun n => ?_, fun n reads j hn i hi => ?_, fun m reads j hm => ?_,
    fun i hi => ?_⟩
  · have hlt := place_lt hpos (step * s) n
    have htoNat := UInt32.toNat_ofNat_of_lt' (hlt.trans hfit)
    exact ⟨_, _, hstart n, htoNat, htoNat.trans_lt hlt⟩
  · obtain ⟨rfl, -⟩ := Prod.mk.inj (Option.some.inj ((hstart n).symm.trans hn))
    obtain ⟨k, -, rfl⟩ := List.mem_map.mp hi
    have hcell := h.next hrange (Nat.dvd_mul_right step s) hpos (0 + k)
    rw [← UInt32.toNat_ofNat_of_lt' ((place_lt hpos _ (0 + k)).trans hfit)] at hcell
    exact ⟨_, hcell, rfl⟩
  · obtain ⟨-, rfl⟩ := Prod.mk.inj (Option.some.inj ((hstart m).symm.trans hm))
    refine ⟨_, _, hl ▸ hchase m l, ?_⟩
    rw [toNat_walk hpos hfit, hl]
    have hplaces : ((List.range l).map fun k => place range (step * s) (m + k)) =
        (lap l s m).map (step * ·) := by
      rw [lap, List.map_map]
      refine List.map_congr_left fun k _ => ?_
      rw [hrange, Nat.mul_comm l step, place_mul]
      rfl
    rw [hplaces]
    exact (lap_perm hlpos hcoprime m).map _
  · refine h.frame i fun m hm him => ?_
    rcases hi with hi | hi
    · have hlt := Nat.mul_lt_mul_of_pos_right hm hstep
      omega
    · exact hi (by rw [him, Nat.mul_mod_left])

theorem Filled.chase_zero (h : Filled b step jump range l old new) (hrange : range = l * step)
    (hjump : step ∣ jump) (hpos : 0 < range) (hfit : range < 2 ^ 32) (n : Nat) :
    Mem.chase new n 0 = some (walk range jump 0 n, .ofNat (place range jump n)) := by
  have hstart := h.chase hrange hjump hpos hfit 0 n
  rw [place_zero, Nat.zero_add] at hstart
  exact hstart

end

/-! ## The phases -/

/-- What a phase leaves and reads: a builder that fills `l` cells, a warm-up of
`warm` steps and `iter` timed steps. -/
structure Phase.Spec (b : Builder) (step jump range l warm iter : Nat) (old : Words) (p : Phase) :
    Prop where
  filled : Filled b step jump range l old p.array
  returned : p.range.toNat = range
  warmUp : p.warmUp = walk range jump 0 warm
  timed : p.timed = walk range jump 0 iter

/-- The constants of a phase fit together. -/
structure Fits (step jump range l : Nat) : Prop where
  stepPos : 0 < step
  cells : range = l * step
  jumpDvd : step ∣ jump
  pos : 0 < range
  noWrap : range + jump ≤ 2 ^ 32 ∧ range + step ≤ 2 ^ 32
  room : range < size.toNat

theorem Fits.small {step jump range l : Nat} (h : Fits step jump range l) : range < 2 ^ 32 :=
  h.room.trans size.toNat_lt

theorem phase_spec {b : Builder} {step jump range : UInt32} {l warm : Nat} {ptr : Words}
    {warmUp : Words → UInt32 → Option (List UInt32)}
    (h : Fits step.toNat jump.toNat range.toNat l) (hptr : ptr.size = size.toNat)
    (hwarm : ∀ array : Words, warmUp array size = (chase array warm 0).map Prod.fst) (iter : Nat) :
    ∃ p, phase (build b step jump range) warmUp iter ptr = some p ∧
      p.Spec b step.toNat jump.toNat range.toNat l warm iter ptr := by
  obtain ⟨new, hnew, hfilled⟩ := fill_filled b h.stepPos h.cells h.noWrap.1 h.noWrap.2
    (hptr ▸ h.room.le)
  have hbuild : build b step jump range ptr size = some (range, new) := by
    rw [build, if_pos (UInt32.lt_iff_toNat_lt.mpr h.room), hnew]
    rfl
  have hchase := hfilled.chase_zero h.cells h.jumpDvd h.pos h.small
  refine ⟨⟨range, new, walk range.toNat jump.toNat 0 warm, walk range.toNat jump.toNat 0 iter⟩,
    ?_, hfilled, rfl, rfl, rfl⟩
  simp only [phase, hbuild, hwarm, hchase, Option.bind_eq_bind, Option.bind_some, Option.map_some,
    Option.pure_def]

theorem warmUp_eq {range : UInt32} {n : Nat} (h : range ≤ size)
    (hn : (range * warmUpRound).toNat = n) (array : Words) :
    warmUp range array size = (chase array n 0).map Prod.fst := by
  rw [warmUp, if_neg (UInt32.not_lt.mpr h), hn]

theorem warmUpL1_eq : ∀ array, warmUpL1 array size = (chase array 409600 0).map Prod.fst :=
  warmUp_eq (by decide) (by decide)

theorem warmUpL2_eq : ∀ array, warmUpL2 array size = (chase array 3276800 0).map Prod.fst :=
  warmUp_eq (by decide) (by decide)

theorem warmUpL3_eq : ∀ array, warmUpL3 array size = (chase array 78643200 0).map Prod.fst :=
  warmUp_eq (by decide) (by decide)

theorem size_toNat : size.toNat = 100663296 := by decide

theorem warmUpL4_eq (array : Words) :
    warmUpL4 array size = (chase array 100663296 0).map Prod.fst := by
  rw [warmUpL4, size_toNat]

theorem fits_l1h : Fits (UInt32.toNat 1) (UInt32.toNat 1) (l1CacheSize / wordSize).toNat 4096 := by
  constructor <;> decide

theorem fits_l1ml2h :
    Fits lineStep.toNat (lineStep * 5).toNat (l2CacheSize / wordSize).toNat 2048 := by
  constructor <;> decide

theorem fits_l2ml3h :
    Fits lineStep.toNat (lineStep * 5).toNat (l3CacheSize / wordSize).toNat 49152 := by
  constructor <;> decide

theorem fits_l3m :
    Fits lineStep.toNat (lineStep * 5).toNat (l3CacheSize * 32 / wordSize).toNat 1572864 := by
  constructor <;> decide

/-- What the phases of `memthread` leave and read, whatever the array held. -/
structure Phases.Spec (iter : Nat) (ptr : Words) (p : Phases) : Prop where
  l1 : p.l1.Spec .l1h 1 1 4096 4096 409600 iter ptr
  l2 : p.l2.Spec .l1ml2h 16 80 32768 2048 3276800 iter p.l1.array
  l3 : p.l3.Spec .l2ml3h 16 80 786432 49152 78643200 iter p.l2.array
  me : p.me.Spec .l3m 16 80 25165824 1572864 100663296 iter p.l3.array

theorem memthread_spec (iter : Nat) {ptr : Words} (hptr : ptr.size = size.toNat) :
    ∃ p, memthread iter ptr = some p ∧ p.Spec iter ptr := by
  obtain ⟨l1, hl1, hspec1⟩ : ∃ p, phase l1h warmUpL1 iter ptr = some p ∧ _ :=
    phase_spec fits_l1h hptr warmUpL1_eq iter
  have hsize1 := hspec1.filled.size.trans hptr
  obtain ⟨l2, hl2, hspec2⟩ : ∃ p, phase l1ml2h warmUpL2 iter l1.array = some p ∧ _ :=
    phase_spec fits_l1ml2h hsize1 warmUpL2_eq iter
  have hsize2 := hspec2.filled.size.trans hsize1
  obtain ⟨l3, hl3, hspec3⟩ : ∃ p, phase l2ml3h warmUpL3 iter l2.array = some p ∧ _ :=
    phase_spec fits_l2ml3h hsize2 warmUpL3_eq iter
  have hsize3 := hspec3.filled.size.trans hsize2
  obtain ⟨me, hme, hspec4⟩ : ∃ p, phase l3m warmUpL4 iter l3.array = some p ∧ _ :=
    phase_spec fits_l3m hsize3 warmUpL4_eq iter
  refine ⟨⟨l1, l2, l3, me⟩, ?_, hspec1, hspec2, hspec3, hspec4⟩
  simp only [memthread, hl1, hl2, hl3, hme, Option.bind_eq_bind, Option.bind_some,
    Option.pure_def]

/-- A phase reads cells of its own builder only, which form one ring: `warm` steps along
it in the warm-up, and then `iter` steps from its start in the timed loop. -/
structure Phase.Sound (b : Builder) (step stride range warm iter : Nat) (old : Words)
    (p : Phase) : Prop where
  ring : Ring b step stride range old p.array
  reads : ∀ i ∈ p.warmUp ++ p.timed, ∃ cell, p.array[i.toNat]? = some cell ∧ cell.writer = some b
  warmUp : p.warmUp = walk range stride 0 warm
  timed : p.timed = walk range stride 0 iter

theorem Phase.Spec.sound {b : Builder} {step s range l warm iter : Nat} {old : Words} {p : Phase}
    (h : p.Spec b step (step * s) range l warm iter old) (hfits : Fits step (step * s) range l)
    (hold : old.size = size.toNat) (hcoprime : Nat.Coprime l s) :
    p.Sound b step (step * s) range warm iter old := by
  have hbound : range < p.array.size := by
    rw [h.filled.size, hold]
    exact hfits.room
  have hring := h.filled.ring hfits.cells hfits.pos hfits.small hbound hcoprime
  have hchase := h.filled.chase_zero hfits.cells hfits.jumpDvd hfits.pos hfits.small
  refine ⟨hring, fun i hi => ?_, h.warmUp, h.timed⟩
  rcases List.mem_append.mp hi with hi | hi
  · rw [h.warmUp] at hi
    exact hring.own warm _ _ (hchase warm) i hi
  · rw [h.timed] at hi
    exact hring.own iter _ _ (hchase iter) i hi

/-- The whole run: on an array of `L3CacheSize * 32` words with any contents, every
phase reads cells of its own builder, which form one ring walked in strides of 1 or
80 words, from its start in the warm-up and again in the timed loop. -/
theorem memthread_rings (iter : Nat) {ptr : Words} (hptr : ptr.size = size.toNat) :
    ∃ p, memthread iter ptr = some p ∧
      p.l1.Sound .l1h 1 1 4096 409600 iter ptr ∧
      p.l2.Sound .l1ml2h 16 (5 * 16) 32768 3276800 iter p.l1.array ∧
      p.l3.Sound .l2ml3h 16 (5 * 16) 786432 78643200 iter p.l2.array ∧
      p.me.Sound .l3m 16 (5 * 16) 25165824 100663296 iter p.l3.array := by
  obtain ⟨p, hp, hspec⟩ := memthread_spec iter hptr
  have hsize1 := hspec.l1.filled.size.trans hptr
  have hsize2 := hspec.l2.filled.size.trans hsize1
  have hsize3 := hspec.l3.filled.size.trans hsize2
  exact ⟨p, hp, hspec.l1.sound (s := 1) fits_l1h hptr (by decide),
    hspec.l2.sound (s := 5) fits_l1ml2h hsize1 (by decide),
    hspec.l3.sound (s := 5) fits_l2ml3h hsize2 (by decide),
    hspec.me.sound (s := 5) fits_l3m hsize3 (by decide)⟩

theorem memthread_rings_zeros :
    ∃ p, memthread 10240000 (Array.replicate size.toNat ⟨0, none⟩) = some p ∧
      p.l1.Sound .l1h 1 1 4096 409600 10240000 (Array.replicate size.toNat ⟨0, none⟩) ∧
      p.l2.Sound .l1ml2h 16 (5 * 16) 32768 3276800 10240000 p.l1.array ∧
      p.l3.Sound .l2ml3h 16 (5 * 16) 786432 78643200 10240000 p.l2.array ∧
      p.me.Sound .l3m 16 (5 * 16) 25165824 100663296 10240000 p.l3.array :=
  memthread_rings 10240000 Array.size_replicate

end Mem
end CommSpeed
