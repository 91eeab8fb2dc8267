/-
Set-associative caches with least recently used replacement.

A cache is a family of stacks; the line number modulo the number of sets selects
the stack.  What a set holds depends on its own accesses only, so the law of
`CommSpeed/Cache/Lru.lean` carries over.  It decides the two extreme patterns:
lines that fit their sets hit once they have been accessed, and rounds over more
lines than fit miss every time.
-/
import Mathlib.Data.Int.CardIntervalMod
import Mathlib.Data.Nat.Periodic
import CommSpeed.Cache.Lru

namespace CommSpeed

/-- A cache of `sets` sets of `ways` lines.  Line `x` belongs in set `x % sets`. -/
structure Cache (sets ways : Nat) where
  stack : Nat → List Nat
  nodup : ∀ i, (stack i).Nodup
  fits : ∀ i, (stack i).length ≤ ways
  home : ∀ i, ∀ x ∈ stack i, x % sets = i

namespace Cache

open Lru

variable {sets ways : Nat}

def empty (sets ways : Nat) : Cache sets ways :=
  { stack := fun _ => [],
    nodup := fun _ => List.nodup_nil,
    fits := fun _ => Nat.zero_le _,
    home := fun _ _ h => nomatch h }

def Hit (c : Cache sets ways) (x : Nat) : Prop := x ∈ c.stack (x % sets)

instance (c : Cache sets ways) (x : Nat) : Decidable (c.Hit x) :=
  inferInstanceAs (Decidable (x ∈ c.stack (x % sets)))

def access (c : Cache sets ways) (x : Nat) : Cache sets ways where
  stack := Function.update c.stack (x % sets) (touch ways (c.stack (x % sets)) x)
  nodup i := by
    by_cases hi : i = x % sets
    · subst hi
      rw [Function.update_self]
      exact nodup_touch (c.nodup _) x
    · rw [Function.update_of_ne hi]
      exact c.nodup i
  fits i := by
    by_cases hi : i = x % sets
    · subst hi
      rw [Function.update_self]
      exact List.length_take_le _ _
    · rw [Function.update_of_ne hi]
      exact c.fits i
  home i y hy := by
    by_cases hi : i = x % sets
    · subst hi
      rw [Function.update_self] at hy
      rcases List.mem_cons.mp (List.mem_of_mem_take hy) with rfl | hy
      · rfl
      · exact c.home _ y (List.mem_of_mem_erase hy)
    · rw [Function.update_of_ne hi] at hy
      exact c.home i y hy

def after (c : Cache sets ways) (w : List Nat) : Cache sets ways := w.foldl access c

theorem after_append (c : Cache sets ways) (u w : List Nat) :
    c.after (u ++ w) = (c.after u).after w := List.foldl_append

/-- The accesses of `w` that go to the set of `x`. -/
def sharing (sets x : Nat) (w : List Nat) : List Nat := w.filter fun y => y % sets = x % sets

theorem sharing_cons (x y : Nat) (w : List Nat) : sharing sets x (y :: w) =
    if y % sets = x % sets then y :: sharing sets x w else sharing sets x w := by
  simp [sharing, List.filter_cons]

theorem stack_access (c : Cache sets ways) (x i : Nat) : (c.access x).stack i =
    if i = x % sets then touch ways (c.stack (x % sets)) x else c.stack i :=
  Function.update_apply _ _ _ _

/-- Each set sees its own accesses only. -/
theorem stack_after (c : Cache sets ways) (w : List Nat) (x : Nat) :
    (c.after w).stack (x % sets) = run ways (c.stack (x % sets)) (sharing sets x w) := by
  induction w generalizing c with
  | nil => rfl
  | cons y w ih =>
      rw [show c.after (y :: w) = (c.access y).after w from rfl, ih, stack_access, sharing_cons]
      by_cases hy : y % sets = x % sets
      · rw [if_pos hy.symm, if_pos hy, run_cons, hy]
      · rw [if_neg (Ne.symm hy), if_neg hy]

/-- A line hits if and only if fewer than `ways` distinct lines of its set were
accessed since it was accessed last. -/
theorem hit_iff (c : Cache sets ways) {x : Nat} {w : List Nat} (u : List Nat) (hx : x ∉ w) :
    (c.after (u ++ x :: w)).Hit x ↔ (sharing sets x w).toFinset.card < ways := by
  have hsplit : sharing sets x (u ++ x :: w) = sharing sets x u ++ x :: sharing sets x w := by
    rw [sharing, List.filter_append]
    exact congrArg _ ((sharing_cons x x w).trans (if_pos rfl))
  rw [Hit, stack_after, hsplit]
  exact mem_run_iff (c.nodup _) _ fun h => hx (List.mem_of_mem_filter h)

/-- If the lines in use fit their set, a line that was used before hits. -/
theorem hit_of_card_le (c : Cache sets ways) {x : Nat} {u : List Nat} (F : Finset Nat)
    (hF : ∀ y ∈ u, y ∈ F) (hcard : (F.filter fun y => y % sets = x % sets).card ≤ ways)
    (hx : x ∈ u) : (c.after u).Hit x := by
  obtain ⟨w, v, hsplit, hlast⟩ := List.eq_append_cons_of_mem (List.mem_reverse.mpr hx)
  have hu : u = v.reverse ++ x :: w.reverse := by
    rw [← List.reverse_reverse u, hsplit]
    simp
  have hxw : x ∉ w.reverse := fun h => hlast (List.mem_reverse.mp h)
  rw [hu, hit_iff c v.reverse hxw]
  refine Nat.lt_of_lt_of_le (Finset.card_lt_card (Finset.ssubset_iff_subset_ne.mpr ⟨?_, ?_⟩)) hcard
  · intro y hy
    obtain ⟨hyw, hset⟩ := List.mem_filter.mp (List.mem_toFinset.mp hy)
    refine Finset.mem_filter.mpr ⟨hF y ?_, of_decide_eq_true hset⟩
    rw [hu]
    exact List.mem_append_right _ (List.mem_cons_of_mem x hyw)
  · intro heq
    have hmem : x ∈ (sharing sets x w.reverse).toFinset := by
      rw [heq]
      exact Finset.mem_filter.mpr ⟨hF x hx, rfl⟩
    exact hxw (List.mem_of_mem_filter (List.mem_toFinset.mp hmem))

/-- The outcome of each access of a sequence. -/
def hits (c : Cache sets ways) : List Nat → List Bool
  | [] => []
  | x :: w => decide (c.Hit x) :: (c.access x).hits w

/-- The first `n` accesses of a sequence without end. -/
def trace (f : Nat → Nat) (n : Nat) : List Nat := (List.range n).map f

theorem trace_add (f : Nat → Nat) (m n : Nat) :
    trace f (m + n) = trace f m ++ (List.range n).map fun k => f (m + k) := by
  rw [trace, trace, List.range_add, List.map_append, List.map_map]
  rfl

theorem hits_trace {c : Cache sets ways} {f : Nat → Nat} {warm : Nat} {b : Bool}
    (h : ∀ t, warm ≤ t → decide ((c.after (trace f t)).Hit (f t)) = b) (n : Nat) :
    (c.after (trace f warm)).hits ((List.range n).map fun k => f (warm + k)) =
      List.replicate n b := by
  induction n generalizing warm with
  | zero => rfl
  | succ n ih =>
      have hnext : (c.after (trace f warm)).access (f warm) = c.after (trace f (warm + 1)) := by
        rw [trace_add, after_append]
        rfl
      have htail : (List.range n).map ((fun k => f (warm + k)) ∘ Nat.succ) =
          (List.range n).map fun k => f (warm + 1 + k) :=
        List.map_congr_left fun k _ => congrArg f (Nat.add_right_comm warm 1 k).symm
      rw [List.range_succ_eq_map, List.map_cons, List.map_map, htail, hits, Nat.add_zero, hnext,
        List.replicate_succ]
      exact congrArg₂ List.cons (h warm (le_refl warm)) (ih fun t ht => h t (Nat.le_of_succ_le ht))

/-! ## Lines accessed several times in a row -/

theorem eq_of_stack {c d : Cache sets ways} (h : c.stack = d.stack) : c = d := by
  cases c
  cases d
  cases h
  rfl

theorem access_access (c : Cache sets ways) (x : Nat) : (c.access x).access x = c.access x := by
  apply eq_of_stack
  funext i
  rw [stack_access, stack_access, stack_access, if_pos rfl]
  split
  · exact touch_touch _ _
  · rfl

theorem hit_access (hways : 0 < ways) (c : Cache sets ways) (x : Nat) : (c.access x).Hit x := by
  rw [Hit, stack_access, if_pos rfl]
  obtain ⟨n, rfl⟩ := Nat.exists_eq_succ_of_ne_zero (Nat.ne_of_gt hways)
  rw [touch, push, List.take_succ_cons]
  exact List.mem_cons_self

theorem hits_append (c : Cache sets ways) (u w : List Nat) :
    c.hits (u ++ w) = c.hits u ++ (c.after u).hits w := by
  induction u generalizing c with
  | nil => rfl
  | cons x u ih =>
      show _ :: (c.access x).hits (u ++ w) = _
      rw [ih]
      rfl

theorem after_again (c : Cache sets ways) (x k : Nat) :
    (c.access x).after (List.replicate k x) = c.access x := by
  induction k with
  | zero => rfl
  | succ k ih =>
      show ((c.access x).access x).after (List.replicate k x) = c.access x
      rw [access_access, ih]

theorem hits_again (hways : 0 < ways) (c : Cache sets ways) (x k : Nat) :
    (c.access x).hits (List.replicate k x) = List.replicate k true := by
  induction k with
  | zero => rfl
  | succ k ih =>
      show decide ((c.access x).Hit x) :: ((c.access x).access x).hits (List.replicate k x) = _
      rw [access_access, ih, decide_eq_true (hit_access hways c x)]
      rfl

/-- If every line is accessed `k` more times at once, these accesses hit and the first
ones have the outcomes that they have without them. -/
theorem hits_stutter (hways : 0 < ways) (c : Cache sets ways) (k : Nat) (w : List Nat) :
    c.hits (w.flatMap (List.replicate (k + 1))) =
      (c.hits w).flatMap fun b => b :: List.replicate k true := by
  induction w generalizing c with
  | nil => rfl
  | cons x w ih =>
      rw [List.flatMap_cons, List.replicate_succ, hits_append]
      show (_ :: (c.access x).hits (List.replicate k x)) ++
        ((c.access x).after (List.replicate k x)).hits _ = _
      rw [hits_again hways, after_again, ih]
      rfl

/-! ## Rounds over consecutive lines -/

/-- Of `l` consecutive lines each set holds the same number. -/
theorem card_sharing {l : Nat} (hsets : 0 < sets) (hdvd : sets ∣ l) (base x : Nat) :
    ((Finset.Ico base (base + l)).filter fun y => y % sets = x % sets).card = l / sets := by
  obtain ⟨m, rfl⟩ := hdvd
  have hperiodic : Function.Periodic (fun y => y % sets = x % sets) (sets * m) := by
    intro y
    simp
  rw [Nat.filter_Ico_card_eq_of_periodic _ _ _ hperiodic]
  have hcount := Nat.count_modEq_card (sets * m) hsets x
  rw [Nat.mul_mod_right, if_neg (Nat.not_lt_zero _)] at hcount
  exact hcount

section

variable {f : Nat → Nat} {l t : Nat}

/-- Lines that fit their sets hit once they have been accessed. -/
theorem hit_of_fits (c : Cache sets ways) (base : Nat) (hsets : 0 < sets)
    (hdvd : sets ∣ l) (hfits : l / sets ≤ ways) (hf : ∀ k, f k ∈ Finset.Ico base (base + l))
    (hseen : f t ∈ trace f t) :
    (c.after (trace f t)).Hit (f t) := by
  refine c.hit_of_card_le (Finset.Ico base (base + l)) (fun y hy => ?_) ?_ hseen
  · obtain ⟨k, -, rfl⟩ := List.mem_map.mp hy
    exact hf k
  · rw [card_sharing hsets hdvd]
    exact hfits

/-- Round after round over more lines than fit misses every time. -/
theorem not_hit_of_round (c : Cache sets ways) (base : Nat) (hsets : 0 < sets)
    (hdvd : sets ∣ l) (hbig : ways < l / sets) (hround : ∀ m,
      ((List.range l).map fun k => f (m + k)).Perm (List.range' base l))
    (hperiod : ∀ k, f (l + k) = f k) (m : Nat) :
    ¬ (c.after (trace f (l + m))).Hit (f (l + m)) := by
  have hl : l ≠ 0 := by
    rintro rfl
    rw [Nat.zero_div] at hbig
    exact Nat.not_lt_zero _ hbig
  obtain ⟨n, hn⟩ := Nat.exists_eq_succ_of_ne_zero hl
  -- the round before the access, with the last access of its line in front
  obtain ⟨w, hw⟩ : ∃ w, ((List.range l).map fun k => f (m + k)) = f m :: w := by
    rw [hn, List.range_succ_eq_map, List.map_cons]
    exact ⟨_, rfl⟩
  have hperm := hround m
  rw [hw] at hperm
  obtain ⟨hnew, -⟩ := List.nodup_cons.mp (hperm.nodup_iff.mpr List.nodup_range')
  have hsharing : insert (f m) (sharing sets (f m) w).toFinset =
      (Finset.Ico base (base + l)).filter fun y => y % sets = f m % sets := by
    ext y
    rw [← List.toFinset_cons, ← (sharing_cons (f m) (f m) w).trans (if_pos rfl), List.mem_toFinset,
      sharing, List.mem_filter, hperm.mem_iff, List.mem_range'_1, Finset.mem_filter, Finset.mem_Ico,
      decide_eq_true_eq]
  have hnotin : f m ∉ (sharing sets (f m) w).toFinset :=
    fun h => hnew (List.mem_of_mem_filter (List.mem_toFinset.mp h))
  have hcard : (sharing sets (f m) w).toFinset.card + 1 = l / sets := by
    rw [← Finset.card_insert_of_notMem hnotin, hsharing, card_sharing hsets hdvd]
  rw [hperiod, Nat.add_comm, trace_add, hw, hit_iff c _ hnew]
  omega

end

end Cache
end CommSpeed
