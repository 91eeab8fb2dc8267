/-
Two parties that exchange messages over two byte streams.

In exchange `k` a party puts its message of `size k` bytes on its stream, and then
takes bytes off the other until it has got `size k` of them or more.  As a read may
take more than the message in progress still lacks, a party can end an exchange
with bytes of later messages, its `excess`; from then on it is ahead in the stream
by that much and believes that its peer is behind.

At most one of the two ever has an excess: whoever over-reads has a peer that is
already in the next exchange and has taken all there was.  If later messages are
not shorter than earlier ones, from the second on, the two can never wait for each
other (`Joint.not_both_waiting`), however the streams are cut into pieces.
-/
import Mathlib.Algebra.BigOperators.Group.Finset.Basic
import Mathlib.Algebra.Order.BigOperators.Group.Finset
import Mathlib.Tactic.Ring

namespace CommSpeed
namespace Exchanges

inductive Phase
  /-- The next call on the streams puts a message on the own one. -/
  | between
  /-- The message is sent and so many bytes have been got. -/
  | reading (got : Nat)
  /-- The party makes no further exchange. -/
  | halted
  deriving DecidableEq

structure Place where
  completed : Nat
  excess : Nat
  phase : Phase
  deriving DecidableEq

def Place.start : Place := { completed := 0, excess := 0, phase := .between }

section

variable (size : Nat → Nat)

/-- The bytes of the first `k` messages. -/
def upTo (k : Nat) : Nat := ∑ i ∈ Finset.range k, size i

/-- The message of the exchange has been put on the stream, or only a part of it. -/
def Place.send (p : Place) (whole : Bool) : Place :=
  { p with phase := if whole then .reading 0 else .halted }

/-- A read has taken `n` bytes. -/
def Place.receive (p : Place) (n : Nat) : Place :=
  match p.phase with
  | .reading got =>
    if got + n < size p.completed then { p with phase := .reading (got + n) }
    else
      { completed := p.completed + 1,
        excess := p.excess + (got + n - size p.completed),
        phase := .between }
  | _ => p

/-- A read has failed. -/
def Place.fail (p : Place) : Place := { p with phase := .halted }

/-- What the place of a party says about the bytes it has sent and consumed. -/
def Place.Flows (p : Place) (sent consumed : Nat) : Prop :=
  match p.phase with
  | .between => sent = upTo size p.completed ∧ consumed = upTo size p.completed + p.excess
  | .reading got => got < size p.completed ∧ sent = upTo size (p.completed + 1) ∧
    consumed = upTo size p.completed + p.excess + got
  | .halted => upTo size p.completed ≤ sent ∧ sent ≤ upTo size (p.completed + 1) ∧
    upTo size p.completed + p.excess ≤ consumed

/-- Both parties in one state of the streams. -/
structure Joint (p q : Place) (sentP consumedP sentQ consumedQ : Nat) : Prop where
  flowsP : p.Flows size sentP consumedP
  flowsQ : q.Flows size sentQ consumedQ
  takenP : consumedP ≤ sentQ
  takenQ : consumedQ ≤ sentP
  oneAhead : p.excess = 0 ∨ q.excess = 0
  limitP : p.excess ≤ if p.completed = 0 then 0 else size p.completed
  limitQ : q.excess ≤ if q.completed = 0 then 0 else size q.completed

end

variable {size : Nat → Nat} {p q : Place} {sentP consumedP sentQ consumedQ n : Nat}

@[simp] theorem upTo_zero : upTo size 0 = 0 := Finset.sum_range_zero _

theorem upTo_succ (k : Nat) : upTo size (k + 1) = upTo size k + size k :=
  Finset.sum_range_succ _ _

theorem upTo_mono {i j : Nat} (h : i ≤ j) : upTo size i ≤ upTo size j :=
  Finset.sum_le_sum_of_subset (Finset.range_mono h)

/-- More bytes than the first `i` messages are the bytes of a later one. -/
theorem lt_of_upTo_lt {i j : Nat} (h : upTo size i < upTo size j) : i < j :=
  not_le.mp fun hle => absurd (upTo_mono hle) (not_le.mpr h)

theorem upTo_lt (hpos : ∀ k, 0 < size k) {i j : Nat} (h : i < j) : upTo size i < upTo size j := by
  have hstep : upTo size (i + 1) ≤ upTo size j := upTo_mono h
  have hnext : upTo size (i + 1) = _ := upTo_succ i
  have := hpos i
  omega

theorem receive_more {k e got n : Nat} (h : got + n < size k) :
    (Place.mk k e (.reading got)).receive size n = ⟨k, e, .reading (got + n)⟩ := if_pos h

theorem receive_last {k e got n : Nat} (h : ¬ got + n < size k) :
    (Place.mk k e (.reading got)).receive size n =
      ⟨k + 1, e + (got + n - size k), .between⟩ := if_neg h

namespace Place.Flows

theorem sent_ge (h : p.Flows size sentP consumedP) : upTo size p.completed ≤ sentP := by
  obtain ⟨k, e, phase⟩ := p
  cases phase with
  | between => exact h.1.ge
  | reading got => exact h.2.1 ▸ upTo_mono (Nat.le_succ k)
  | halted => exact h.1

theorem sent_le (h : p.Flows size sentP consumedP) : sentP ≤ upTo size (p.completed + 1) := by
  obtain ⟨k, e, phase⟩ := p
  cases phase with
  | between => exact h.1 ▸ upTo_mono (Nat.le_succ k)
  | reading got => exact h.2.1.le
  | halted => exact h.2.1

theorem consumed_ge (h : p.Flows size sentP consumedP) :
    upTo size p.completed + p.excess ≤ consumedP := by
  obtain ⟨k, e, phase⟩ := p
  cases phase with
  | between => exact h.2.ge
  | reading got => exact h.2.2 ▸ Nat.le_add_right _ _
  | halted => exact h.2.2

theorem start : Place.start.Flows size 0 0 := ⟨rfl, rfl⟩

end Place.Flows

namespace Joint

theorem start : Joint size .start .start 0 0 0 0 :=
  ⟨.start, .start, le_refl 0, le_refl 0, .inl rfl, le_refl 0, le_refl 0⟩

theorem symm (h : Joint size p q sentP consumedP sentQ consumedQ) :
    Joint size q p sentQ consumedQ sentP consumedP :=
  ⟨h.flowsQ, h.flowsP, h.takenQ, h.takenP, h.oneAhead.symm, h.limitQ, h.limitP⟩

/-- A party puts `n` bytes of its message on the stream. -/
theorem send (h : Joint size p q sentP consumedP sentQ consumedQ) (hpos : ∀ k, 0 < size k)
    (hphase : p.phase = .between) (hn : n ≤ size p.completed) :
    Joint size (p.send (n = size p.completed)) q (sentP + n) consumedP sentQ consumedQ := by
  obtain ⟨k, e, phase⟩ := p
  obtain rfl : phase = .between := hphase
  obtain ⟨⟨hsent, hconsumed⟩, hQ, htakenP, htakenQ, hone, hlimP, hlimQ⟩ := h
  dsimp only at hsent hconsumed hn
  have hsucc : upTo size (k + 1) = upTo size k + size k := upTo_succ k
  refine ⟨?_, hQ, htakenP, by omega, hone, hlimP, hlimQ⟩
  by_cases hwhole : n = size k
  · rw [Place.send, if_pos (decide_eq_true hwhole)]
    exact ⟨hpos k, show sentP + n = upTo size (k + 1) by omega, hconsumed⟩
  · rw [Place.send, if_neg (by simpa using hwhole)]
    exact ⟨show upTo size k ≤ sentP + n by omega,
      show sentP + n ≤ upTo size (k + 1) by omega, hconsumed.ge⟩

/-- Whoever over-reads in exchange `k` has a peer that waits in the next one. -/
theorem peer_of_excess (h : Joint size p q sentP consumedP sentQ consumedQ)
    (hpos : ∀ k, 0 < size k) {k : Nat} (hsent : sentP = upTo size (k + 1))
    (hover : upTo size (k + 1) < sentQ) :
    q.completed = k + 1 ∧ q.excess = 0 ∧ sentQ ≤ upTo size (k + 1) + size (k + 1) := by
  have hge := h.flowsQ.consumed_ge
  have hle := h.flowsQ.sent_le
  have htaken := h.takenQ
  have hlater : k + 1 < q.completed + 1 := lt_of_upTo_lt (hover.trans_le hle)
  have hsame : q.completed = k + 1 := by
    by_contra hne
    have := upTo_lt hpos (show k + 1 < q.completed by omega)
    omega
  rw [hsame] at hge hle
  have hsucc : upTo size (k + 1 + 1) = upTo size (k + 1) + size (k + 1) := upTo_succ _
  exact ⟨hsame, by omega, by omega⟩

/-- A party takes `n` bytes off the stream. -/
theorem receive (h : Joint size p q sentP consumedP sentQ consumedQ) (hpos : ∀ k, 0 < size k)
    {got : Nat} (hphase : p.phase = .reading got) (hn : consumedP + n ≤ sentQ) :
    Joint size (p.receive size n) q sentP (consumedP + n) sentQ consumedQ := by
  obtain ⟨k, e, phase⟩ := p
  obtain rfl : phase = .reading got := hphase
  obtain ⟨hgot, hsent, hconsumed⟩ := h.flowsP
  dsimp only at hgot hsent hconsumed
  by_cases hmore : got + n < size k
  · rw [receive_more hmore]
    have hread : consumedP + n = upTo size k + e + (got + n) := by omega
    exact { h with flowsP := ⟨hmore, hsent, hread⟩, takenP := hn }
  · rw [receive_last hmore]
    have hsucc : upTo size (k + 1) = upTo size k + size k := upTo_succ k
    have htotal : consumedP + n = upTo size (k + 1) + (e + (got + n - size k)) := by omega
    have hlimit : e + (got + n - size k) ≤ size (k + 1) ∧
        (e + (got + n - size k) = 0 ∨ q.excess = 0) := by
      by_cases hover : upTo size (k + 1) < sentQ
      · obtain ⟨-, hexcess, hle⟩ := h.peer_of_excess hpos hsent hover
        exact ⟨by omega, .inr hexcess⟩
      · exact ⟨by omega, .inl (by omega)⟩
    refine { h with flowsP := ⟨hsent, htotal⟩, takenP := hn, oneAhead := hlimit.2, limitP := ?_ }
    rw [if_neg (Nat.succ_ne_zero k)]
    exact hlimit.1

theorem fail (h : Joint size p q sentP consumedP sentQ consumedQ) :
    Joint size p.fail q sentP consumedP sentQ consumedQ :=
  { h with flowsP := ⟨h.flowsP.sent_ge, h.flowsP.sent_le, h.flowsP.consumed_ge⟩ }

/-- Two parties in exchanges, of which the second has no excess, do not wait for each
other. -/
theorem not_waiting_of_even (h : Joint size p q sentP consumedP sentQ consumedQ)
    (hpos : ∀ k, 0 < size k) (hsize : ∀ k, 0 < k → size k ≤ size (k + 1)) {gotP gotQ : Nat}
    (hp : p.phase = .reading gotP) (hq : q.phase = .reading gotQ) (heven : q.excess = 0) :
    consumedP < sentQ ∨ consumedQ < sentP := by
  obtain ⟨k, e, phase⟩ := p
  obtain rfl : phase = .reading gotP := hp
  obtain ⟨j, f, phase⟩ := q
  obtain rfl : phase = .reading gotQ := hq
  obtain rfl : f = 0 := heven
  obtain ⟨⟨hgotP, hsentP, hconP⟩, ⟨hgotQ, hsentQ, hconQ⟩, htakenP, htakenQ, -, hlimit, -⟩ := h
  dsimp only at hgotP hsentP hconP hgotQ hsentQ hconQ hlimit
  by_contra hwait
  rw [not_or, not_lt, not_lt] at hwait
  have hsuccJ : upTo size (j + 1) = upTo size j + size j := upTo_succ j
  -- the second has taken the message of exchange `k`, and no more
  have hmore : upTo size (k + 1) < upTo size (j + 1) := by omega
  have hnext : k + 1 < j + 1 := lt_of_upTo_lt hmore
  have hsame : j = k + 1 := by
    by_contra hne
    have := upTo_lt hpos (show k + 1 < j by omega)
    omega
  subst hsame
  have hsuccK : upTo size (k + 1) = upTo size k + size k := upTo_succ k
  have hlater := hpos (k + 1)
  by_cases hk : k = 0
  · rw [if_pos hk] at hlimit
    omega
  · rw [if_neg hk] at hlimit
    have := hsize k (Nat.pos_of_ne_zero hk)
    omega

/-- Two parties in exchanges do not wait for each other, if the messages do not get
shorter after the second. -/
theorem not_both_waiting (h : Joint size p q sentP consumedP sentQ consumedQ)
    (hpos : ∀ k, 0 < size k) (hsize : ∀ k, 0 < k → size k ≤ size (k + 1)) {gotP gotQ : Nat}
    (hp : p.phase = .reading gotP) (hq : q.phase = .reading gotQ) :
    consumedP < sentQ ∨ consumedQ < sentP := by
  rcases h.oneAhead with heven | heven
  · exact (h.symm.not_waiting_of_even hpos hsize hq hp heven).symm
  · exact h.not_waiting_of_even hpos hsize hp hq heven

end Joint

end Exchanges
end CommSpeed
