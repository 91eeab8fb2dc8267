/-
Least recently used replacement.

A set of a cache is a stack of at most `ways` lines, the most recently used one
first.  An access moves its line to the front and drops what no longer fits.  The
law of this module is exact: a line is found if and only if fewer than `ways`
distinct other lines were accessed since it was accessed last.
-/
import Mathlib.Data.Finset.Card
import Mathlib.Data.List.Nodup

namespace CommSpeed
namespace Lru

variable {α : Type} [DecidableEq α] {ways : Nat}

/-- Move a line to the front of a stack without bound. -/
def push (x : α) (stack : List α) : List α := x :: stack.erase x

def touch (ways : Nat) (stack : List α) (x : α) : List α := (push x stack).take ways

/-- The stack after a sequence of accesses. -/
def run (ways : Nat) (stack : List α) (w : List α) : List α := w.foldl (touch ways) stack

@[simp] theorem run_nil (stack : List α) : run ways stack [] = stack := rfl

@[simp] theorem run_cons (stack : List α) (x : α) (w : List α) :
    run ways stack (x :: w) = run ways (touch ways stack x) w := rfl

theorem run_append (stack : List α) (u w : List α) :
    run ways stack (u ++ w) = run ways (run ways stack u) w := List.foldl_append

theorem nodup_push {stack : List α} (h : stack.Nodup) (x : α) : (push x stack).Nodup :=
  List.nodup_cons.mpr ⟨h.not_mem_erase, h.erase x⟩

theorem nodup_touch {stack : List α} (h : stack.Nodup) (x : α) : (touch ways stack x).Nodup :=
  (nodup_push h x).sublist (List.take_sublist _ _)

theorem nodup_run {stack : List α} (h : stack.Nodup) (w : List α) : (run ways stack w).Nodup := by
  induction w generalizing stack with
  | nil => exact h
  | cons x w ih => exact ih (nodup_touch h x)

/-- Inclusion: what a bounded stack holds is the front of the stack without bound. -/
theorem erase_take (x : α) (stack : List α) (n : Nat) :
    ((stack.take (n + 1)).erase x).take n = (stack.erase x).take n := by
  induction stack generalizing n with
  | nil => rfl
  | cons y stack ih =>
      rw [List.take_succ_cons]
      by_cases hy : y = x
      · rw [hy, List.erase_cons_head, List.erase_cons_head, List.take_take, Nat.min_self]
      · rw [List.erase_cons_tail (by simpa using hy), List.erase_cons_tail (by simpa using hy)]
        cases n with
        | zero => rfl
        | succ n => rw [List.take_succ_cons, List.take_succ_cons, ih n]

theorem touch_take (stack : List α) (x : α) : touch ways (stack.take ways) x =
    (push x stack).take ways := by
  cases ways with
  | zero => rfl
  | succ n =>
      rw [touch, push, push, List.take_succ_cons, List.take_succ_cons, erase_take]

/-- A second access of the same line changes nothing. -/
theorem touch_touch (stack : List α) (x : α) :
    touch ways (touch ways stack x) x = touch ways stack x := by
  have hpush : push x (push x stack) = push x stack := by
    rw [push, push, List.erase_cons_head]
  rw [show touch ways stack x = (push x stack).take ways from rfl, touch_take, hpush]

/-- The lines in front of the last access of `x` are those accessed since. -/
theorem run_since {x : α} {p q w : List α} (hx : x ∉ w) (hnodup : (p ++ x :: q).Nodup) :
    ∃ p' q', run ways ((p ++ x :: q).take ways) w = (p' ++ x :: q').take ways ∧
      (p' ++ x :: q').Nodup ∧ ∀ y, y ∈ p' ↔ y ∈ p ∨ y ∈ w := by
  induction w generalizing p q with
  | nil => exact ⟨p, q, rfl, hnodup, fun y => by simp⟩
  | cons z w ih =>
      have hzx : x ≠ z := fun h => hx (h ▸ List.mem_cons_self)
      have hxw : x ∉ w := fun h => hx (List.mem_cons_of_mem z h)
      have hpush := nodup_push hnodup z
      rw [run_cons, touch_take]
      by_cases hz : z ∈ p
      · rw [push, List.erase_append_left _ hz, ← List.cons_append] at hpush ⊢
        obtain ⟨p', q', hrun, hnodup', hmem⟩ := ih hxw hpush
        refine ⟨p', q', hrun, hnodup', fun y => (hmem y).trans ?_⟩
        have herase : y ∈ p.erase z → y ∈ p := List.mem_of_mem_erase
        have hkeep : y ≠ z → y ∈ p → y ∈ p.erase z := fun hy => (List.mem_erase_of_ne hy).mpr
        grind
      · rw [push, List.erase_append_right _ hz, List.erase_cons_tail (by simpa using hzx),
          ← List.cons_append] at hpush ⊢
        obtain ⟨p', q', hrun, hnodup', hmem⟩ := ih hxw hpush
        refine ⟨p', q', hrun, hnodup', fun y => (hmem y).trans ?_⟩
        grind

omit [DecidableEq α] in
theorem mem_take_iff {p q : List α} {x : α} (hx : x ∉ p) :
    x ∈ (p ++ x :: q).take ways ↔ p.length < ways := by
  constructor
  · intro h
    by_contra hle
    rw [List.take_append_of_le_length (not_lt.mp hle)] at h
    exact hx (List.mem_of_mem_take h)
  · intro h
    obtain ⟨k, rfl⟩ := Nat.exists_eq_add_of_lt h
    rw [Nat.add_assoc, List.take_length_add_append, List.take_succ_cons]
    simp

/-- The law of LRU: a line whose last access was followed by the accesses `w` is
found if and only if `w` has fewer than `ways` distinct lines. -/
theorem mem_run_iff {stack : List α} (h : stack.Nodup) {x : α} {w : List α} (u : List α)
    (hx : x ∉ w) : x ∈ run ways stack (u ++ x :: w) ↔ w.toFinset.card < ways := by
  have hpush : ([] ++ push x (run ways stack u)).Nodup := nodup_push (nodup_run h u) x
  obtain ⟨p, q, hrun, hnodup, hmem⟩ := @run_since _ _ ways _ [] _ _ hx hpush
  have hdistinct := List.nodup_append.mp hnodup
  have hxp : x ∉ p := fun hp => hdistinct.2.2 x hp x List.mem_cons_self rfl
  have hp : p.toFinset = w.toFinset := by
    ext y
    simp [hmem y]
  have hstack : run ways stack (u ++ x :: w) = (p ++ x :: q).take ways := by
    rw [run_append, run_cons]
    exact hrun
  rw [hstack, mem_take_iff hxp, ← hp, List.toFinset_card_of_nodup hdistinct.1]

end Lru

end CommSpeed
