/-
CounterWidthExtender of width_extender.h: a 64-bit counter over a 32-bit one.

Any number of threads, the watchdog among them, call `read`, and `internal_read`
takes its reading of the raw counter and brings the extended value up to date
under the mutex.  The raw counter may give any reading; the state keeps the list
of them, newest first, which the program does not see.

`extension` is the closed form: the latest reading plus 2^32 for every time a
reading was below the one before it.  Against a count that only grows and is read
modulo 2^32 it loses 2^32 for every 2^32 that passed between two readings, so the
extended counter is exact as long as it is read often enough.
-/
import CommSpeed.Prog.Mutex
import Mathlib.Tactic.Ring

namespace CommSpeed
namespace Pcm

open Prog Shared Threads

structure CounterWidthExtender where
  extendedValue : UInt64
  lastRawValue : UInt64
  raws : List UInt64

namespace CounterWidthExtender

inductive Access
  | rawCounter
  | loadLast
  | storeLast (v : UInt64)
  | loadExtended
  | storeExtended (v : UInt64)

abbrev Access.Reply : Access → Type
  | .rawCounter => UInt64
  | .loadLast => UInt64
  | .storeLast _ => Unit
  | .loadExtended => UInt64
  | .storeExtended _ => Unit

def fields : Shared Access Access.Reply CounterWidthExtender where
  access
    | .rawCounter, s, r, s' => s' = { s with raws := r :: s.raws }
    | .loadLast, s, r, s' => r = s.lastRawValue ∧ s' = s
    | .storeLast v, s, _, s' => s' = { s with lastRawValue := v }
    | .loadExtended, s, r, s' => r = s.extendedValue ∧ s' = s
    | .storeExtended v, s, _, s' => s' = { s with extendedValue := v }

/-- The constructor, for the first reading `raw`. -/
def construct (raw : UInt64) : CounterWidthExtender :=
  { extendedValue := raw, lastRawValue := raw, raws := [raw] }

/-- `internal_read` between `pthread_mutex_lock` and `pthread_mutex_unlock`. -/
def internalRead : Prog Access Access.Reply UInt64 := do
  let newRawValue ← perform Access.rawCounter
  let lastRawValue ← perform Access.loadLast
  let extendedValue ← perform Access.loadExtended
  if newRawValue < lastRawValue then
    perform (Access.storeExtended
      (extendedValue + ((((1 : UInt64) <<< 32) - lastRawValue) + newRawValue)))
  else
    perform (Access.storeExtended (extendedValue + (newRawValue - lastRawValue)))
  perform (Access.storeLast newRawValue)
  let result ← perform Access.loadExtended
  return result

/-- The one operation that threads share. -/
inductive Op
  | read

def body : Op → Prog Access Access.Reply UInt64
  | .read => internalRead

/-! ## One read -/

/-- How often a reading was below the one before it. -/
def descents : List UInt64 → Nat
  | b :: a :: l => (if b < a then 1 else 0) + descents (a :: l)
  | _ => 0

/-- The 64-bit count that readings of a 32-bit counter show. -/
def extension : List UInt64 → UInt64
  | [] => 0
  | v :: l => UInt64.ofNat (v.toNat + 2 ^ 32 * descents (v :: l))

/-- The extended value is the extension of the readings, of which the last is kept. -/
structure Current (s : CounterWidthExtender) : Prop where
  last : ∃ l, s.raws = s.lastRawValue :: l
  extended : s.extendedValue = extension s.raws

theorem construct_current (raw : UInt64) : (construct raw).Current :=
  ⟨⟨[], rfl⟩, by simp [construct, extension, descents]⟩

theorem extension_below {a b : UInt64} {l : List UInt64} (h : b < a) :
    extension (b :: a :: l) = extension (a :: l) + ((((1 : UInt64) <<< 32) - a) + b) := by
  rw [extension, extension, descents, if_pos h]
  generalize descents (a :: l) = d
  apply UInt64.toNat_inj.mp
  have ha := a.toNat_lt
  have hb := b.toNat_lt
  have hshift : ((1 : UInt64) <<< 32).toNat = 2 ^ 32 := by decide
  simp only [UInt64.toNat_add, UInt64.toNat_sub, UInt64.toNat_ofNat', hshift]
  omega

theorem extension_above {a b : UInt64} {l : List UInt64} (h : ¬ b < a) :
    extension (b :: a :: l) = extension (a :: l) + (b - a) := by
  rw [extension, extension, descents, if_neg h]
  generalize descents (a :: l) = d
  apply UInt64.toNat_inj.mp
  have ha := a.toNat_lt
  have hb := b.toNat_lt
  simp only [UInt64.toNat_add, UInt64.toNat_sub, UInt64.toNat_ofNat']
  omega

/-- The end of a read, from the new extended value on. -/
theorem takes_tail {s s' : CounterWidthExtender} {v r : UInt64}
    (h : fields.Takes (do
      perform (Access.storeLast v)
      perform Access.loadExtended) s (ret r) s') :
    s' = { s with lastRawValue := v } ∧ r = s.extendedValue := by
  obtain ⟨_, _, rfl, h⟩ := takes_perform h
  obtain ⟨rfl, rfl⟩ := takes_last h
  exact ⟨rfl, rfl⟩

/-- A read takes one reading and returns the extension of all. -/
theorem takes_internalRead {s s' : CounterWidthExtender} {r : UInt64} (hs : s.Current)
    (h : fields.Takes internalRead s (ret r) s') :
    s'.Current ∧ r = extension s'.raws ∧ ∃ v, s'.raws = v :: s.raws := by
  obtain ⟨⟨l, hl⟩, hext⟩ := hs
  obtain ⟨v, _, rfl, h⟩ := takes_perform h
  obtain ⟨_, _, ⟨rfl, rfl⟩, h⟩ := takes_perform h
  obtain ⟨_, _, ⟨rfl, rfl⟩, h⟩ := takes_perform h
  dsimp only at h
  rw [hl] at hext
  by_cases hlt : v < s.lastRawValue
  · rw [if_pos hlt] at h
    obtain ⟨_, _, rfl, h⟩ := takes_perform h
    obtain ⟨rfl, rfl⟩ := takes_tail h
    have hnew := extension_below (l := l) hlt
    rw [← hext, ← hl] at hnew
    exact ⟨⟨⟨s.raws, rfl⟩, hnew.symm⟩, hnew.symm, v, rfl⟩
  · rw [if_neg hlt] at h
    obtain ⟨_, _, rfl, h⟩ := takes_perform h
    obtain ⟨rfl, rfl⟩ := takes_tail h
    have hnew := extension_above (l := l) hlt
    rw [← hext, ← hl] at hnew
    exact ⟨⟨⟨s.raws, rfl⟩, hnew.symm⟩, hnew.symm, v, rfl⟩

/-! ## All reads -/

section

variable {θ α : Type} {raw : UInt64} {h : List (θ × Event Op fun _ => UInt64)}
  {s : CounterWidthExtender}

theorem replays_current (hr : Replays (fields.whole body) (construct raw) h s) :
    s.Current ∧ s.raws.length = h.length + 1 := by
  induction hr with
  | nil => exact ⟨construct_current raw, rfl⟩
  | @snoc _ s t c r s' _ ha ih =>
      obtain ⟨hcur, -, v, hraws⟩ := takes_internalRead ih.1 ha
      refine ⟨hcur, ?_⟩
      rw [hraws, List.length_cons, ih.2, List.length_append]
      rfl

/-- A read returns the extension of its own reading and those before it. -/
theorem replays_reply {before after : List (θ × Event Op fun _ => UInt64)}
    {e : θ × Event Op fun _ => UInt64}
    (hr : Replays (fields.whole body) (construct raw) (before ++ e :: after) s) :
    e.2.reply = extension (s.raws.drop after.length) := by
  generalize hh : before ++ e :: after = h at hr
  induction hr generalizing after with
  | nil => simp at hh
  | @snoc h s t c r s' hr ha ih =>
      obtain ⟨-, hreply, v, hraws⟩ := takes_internalRead (replays_current hr).1 ha
      rcases List.eq_nil_or_concat after with rfl | ⟨rest, last, rfl⟩
      · obtain rfl := List.singleton_inj.mp (List.append_inj' hh rfl).2
        exact hreply
      · have hsplit : (before ++ e :: rest) ++ [last] = h ++ [(t, ⟨c, r⟩)] := by simpa using hh
        rw [hraws, List.length_concat, List.drop_succ_cons]
        exact ih (List.append_inj' hsplit rfl).1

end

/-! ## The count behind the readings

`cs` are the values of an ideal counter at the readings, newest first. -/

/-- The first reading and what the ideal counter has counted since. -/
def counted : List Nat → Nat
  | b :: a :: l => counted (a :: l) + (b - a)
  | [c] => c % 2 ^ 32
  | [] => 0

/-- How many times the 32-bit counter came full circle between two readings. -/
def missed : List Nat → Nat
  | b :: a :: l => (b - a) / 2 ^ 32 + missed (a :: l)
  | _ => 0

/-- What a 32-bit counter shows of an ideal count. -/
def shown (c : Nat) : UInt64 := UInt64.ofNat (c % 2 ^ 32)

theorem shown_toNat (c : Nat) : (shown c).toNat = c % 2 ^ 32 := by
  rw [shown, UInt64.toNat_ofNat']
  omega

/-- A step of the count is seen modulo 2^32. -/
theorem counted_eq {c : Nat} {l : List Nat} (h : (c :: l).Pairwise fun b a => a ≤ b) :
    counted (c :: l) =
      c % 2 ^ 32 + 2 ^ 32 * descents ((c :: l).map shown) + 2 ^ 32 * missed (c :: l) := by
  induction l generalizing c with
  | nil => simp [counted, descents, missed]
  | cons a l ih =>
      have hle : a ≤ c := (List.pairwise_cons.mp h).1 a List.mem_cons_self
      have hrest := ih (List.pairwise_cons.mp h).2
      rw [List.map_cons] at hrest
      rw [counted, missed, List.map_cons, List.map_cons, descents, hrest]
      have hlt : shown c < shown a ↔ c % 2 ^ 32 < a % 2 ^ 32 := by
        rw [UInt64.lt_iff_toNat_lt, shown_toNat, shown_toNat]
      by_cases hdesc : c % 2 ^ 32 < a % 2 ^ 32
      · rw [if_pos (hlt.mpr hdesc)]
        omega
      · rw [if_neg (mt hlt.mp hdesc)]
        omega

/-- What the extended value shows of an ideal count. -/
theorem extension_shown {cs : List Nat} (h : cs.Pairwise fun b a => a ≤ b) :
    extension (cs.map shown) = UInt64.ofNat (counted cs - 2 ^ 32 * missed cs) := by
  cases cs with
  | nil => rfl
  | cons c l =>
      rw [counted_eq h, Nat.add_sub_cancel, List.map_cons, extension, shown_toNat]

theorem missed_eq_zero {cs : List Nat} (h : cs.IsChain fun b a => b < a + 2 ^ 32) :
    missed cs = 0 := by
  induction cs with
  | nil => rfl
  | cons b cs ih =>
      cases cs with
      | nil => rfl
      | cons a l =>
          obtain ⟨hgap, hrest⟩ := List.isChain_cons_cons.mp h
          rw [missed, ih hrest]
          omega

theorem shown_exact_iff {cs : List Nat} (h : cs.Pairwise fun b a => a ≤ b) :
    UInt64.ofNat (counted cs - 2 ^ 32 * missed cs) = UInt64.ofNat (counted cs) ↔
      2 ^ 32 ∣ missed cs := by
  have hle : 2 ^ 32 * missed cs ≤ counted cs := by
    cases cs with
    | nil => exact le_refl 0
    | cons c l =>
        rw [counted_eq h]
        omega
  rw [← UInt64.toNat_inj, UInt64.toNat_ofNat', UInt64.toNat_ofNat']
  omega

/-! ## The results -/

section

variable {θ α : Type} [DecidableEq θ] {start : θ → Prog Op (fun _ => UInt64) α} {raw : UInt64}
  {X : Threads θ (Guarded Access) (Guarded.Reply Access.Reply) α (Bool × CounterWidthExtender)}

/-- Reads of any number of threads are in one order, the order of their readings,
and each returns the extension of the readings up to its own. -/
theorem extender_serial (hX : (exclusive fields body start (construct raw)).Reachable X) :
    ∃ h s, Serialized fields body start (construct raw) X h s ∧
      s.raws <:+ X.shared.2.raws ∧ s.raws.length = h.length + 1 ∧
      ∀ before e after, h = before ++ e :: after →
        e.2.reply = extension (s.raws.drop after.length) := by
  obtain ⟨h, s, hser⟩ := serialized_of_reachable hX
  refine ⟨h, s, hser, ?_, (replays_current hser.replays).2, ?_⟩
  · refine hser.relates (R := fun s s' => s.raws <:+ s'.raws) (fun s => List.suffix_refl _) ?_
    intro c s₁ r s₂ s₃ ha hR
    cases c with
    | rawCounter =>
        obtain rfl := ha
        exact (List.suffix_cons r s₁.raws).trans hR
    | loadLast =>
        obtain ⟨-, rfl⟩ := ha
        exact hR
    | storeLast v =>
        obtain rfl := ha
        exact hR
    | loadExtended =>
        obtain ⟨-, rfl⟩ := ha
        exact hR
    | storeExtended v =>
        obtain rfl := ha
        exact hR
  · rintro before e after rfl
    exact replays_reply hser.replays

/-- If the readings are an ever growing count modulo 2^32, a read returns what was
counted less 2^32 for every full circle between two readings: it is exact if no two
readings in a row are 2^32 apart, and only if the circles missed make up 2^64. -/
theorem extender_exact_iff {cs : List Nat} (hgrows : cs.Pairwise fun b a => a ≤ b)
    (hX : (exclusive fields body start (construct raw)).Reachable X)
    (hcs : X.shared.2.raws = cs.map shown) :
    ∃ h s, Serialized fields body start (construct raw) X h s ∧
      ∃ ds, ds <:+ cs ∧ ds.length = h.length + 1 ∧
        ∀ before e after, h = before ++ e :: after →
          e.2.reply = UInt64.ofNat (counted (ds.drop after.length) -
            2 ^ 32 * missed (ds.drop after.length)) ∧
          (e.2.reply = UInt64.ofNat (counted (ds.drop after.length)) ↔
            2 ^ 32 ∣ missed (ds.drop after.length)) ∧
          ((ds.drop after.length).IsChain (fun b a => b < a + 2 ^ 32) →
            e.2.reply = UInt64.ofNat (counted (ds.drop after.length))) := by
  obtain ⟨h, s, hser, hsuffix, hlen, hreply⟩ := extender_serial hX
  obtain ⟨ds, hds, hraws⟩ := List.suffix_map_iff.mp (hcs ▸ hsuffix)
  refine ⟨h, s, hser, ds, hds, ?_, fun before e after hsplit => ?_⟩
  · rw [← hlen, hraws, List.length_map]
  · have hdrop : (ds.drop after.length).Pairwise fun b a => a ≤ b :=
      hgrows.sublist ((List.drop_sublist _ _).trans hds.sublist)
    have hvalue := hreply before e after hsplit
    rw [hraws, ← List.map_drop, extension_shown hdrop] at hvalue
    refine ⟨hvalue, ?_, fun hchain => ?_⟩
    · rw [hvalue]
      exact shown_exact_iff hdrop
    · rw [hvalue, missed_eq_zero hchain]
      rfl

end

/-! ## Two threads

The watchdog and a client read once each, and the raw counter shows `cs` in turn. -/

def answer (cs : List UInt64) :
    (c : Guarded Access) → Bool × CounterWidthExtender →
      Option (Guarded.Reply Access.Reply c × (Bool × CounterWidthExtender))
  | .lock, (held, s) => if held then none else some ((), true, s)
  | .unlock, (_, s) => some ((), false, s)
  | .access .rawCounter, (held, s) =>
    cs[s.raws.length]?.map fun r => (r, held, { s with raws := r :: s.raws })
  | .access .loadLast, (held, s) => some (s.lastRawValue, held, s)
  | .access (.storeLast v), (held, s) => some ((), held, { s with lastRawValue := v })
  | .access .loadExtended, (held, s) => some (s.extendedValue, held, s)
  | .access (.storeExtended v), (held, s) => some ((), held, { s with extendedValue := v })

theorem answer_access (cs : List UInt64) (c : Guarded Access) (x : Bool × CounterWidthExtender)
    (r : Guarded.Reply Access.Reply c) (x' : Bool × CounterWidthExtender)
    (h : answer cs c x = some (r, x')) : fields.guarded.access c x r x' := by
  obtain ⟨held, s⟩ := x
  cases c with
  | lock =>
      cases held with
      | true => cases h
      | false =>
          cases h
          exact ⟨rfl, rfl⟩
  | unlock =>
      cases h
      rfl
  | access c =>
      cases c with
      | rawCounter =>
          obtain ⟨r, -, hr⟩ := Option.map_eq_some_iff.mp h
          cases hr
          exact ⟨rfl, rfl⟩
      | loadLast =>
          cases h
          exact ⟨rfl, rfl, rfl⟩
      | storeLast v =>
          cases h
          exact ⟨rfl, rfl⟩
      | loadExtended =>
          cases h
          exact ⟨rfl, rfl, rfl⟩
      | storeExtended v =>
          cases h
          exact ⟨rfl, rfl⟩

/-- The client reads 10 after the watchdog, which it has kept waiting, has read 2^32 - 1. -/
def watched : Threads Bool (Guarded Access) (Guarded.Reply Access.Reply) UInt64
    (Bool × CounterWidthExtender) :=
  schedule (answer [5, 4294967295, 10])
    ⟨fun _ => link (fun o => critical (body o)) (perform Op.read), (false, construct 5), []⟩
    [true, true, false, true, true, true, true, true, true,
      false, false, false, false, false, false, false, false]

theorem watched_reachable : (exclusive fields body (fun _ : Bool => perform Op.read)
    (construct 5)).Reachable watched :=
  reachable_of_steps (steps_schedule (answer_access _) _ _)

theorem watched_raws : watched.shared.2.raws = [4294967306, 4294967295, 5].map shown := by
  decide +kernel

example : (watched.prog false).result = some 4294967306 := by decide +kernel

theorem extender_serial_watched :
    ∃ h s, Serialized fields body (fun _ : Bool => perform Op.read) (construct 5) watched h s ∧
      s.raws <:+ watched.shared.2.raws ∧ s.raws.length = h.length + 1 ∧
      ∀ before e after, h = before ++ e :: after →
        e.2.reply = extension (s.raws.drop after.length) :=
  extender_serial watched_reachable

theorem extender_exact_watched :
    ∃ h s, Serialized fields body (fun _ : Bool => perform Op.read) (construct 5) watched h s ∧
      ∃ ds, ds <:+ [4294967306, 4294967295, 5] ∧ ds.length = h.length + 1 ∧
        ∀ before e after, h = before ++ e :: after →
          e.2.reply = UInt64.ofNat (counted (ds.drop after.length) -
            2 ^ 32 * missed (ds.drop after.length)) ∧
          (e.2.reply = UInt64.ofNat (counted (ds.drop after.length)) ↔
            2 ^ 32 ∣ missed (ds.drop after.length)) ∧
          ((ds.drop after.length).IsChain (fun b a => b < a + 2 ^ 32) →
            e.2.reply = UInt64.ofNat (counted (ds.drop after.length))) :=
  extender_exact_iff (by decide) watched_reachable watched_raws

end CounterWidthExtender
end Pcm
end CommSpeed
