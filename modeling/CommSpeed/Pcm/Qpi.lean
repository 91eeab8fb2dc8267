/-
The traffic of the QPI links, from cpucounters.h.

The bytes that have come in over a link are 64 for each packet counted.  They are asked
for in two ways, as a running total and as the difference of two states, and the
difference of a link whose counter has gone back is taken for 0.  So the two figures for
the whole system agree up to 64 bytes for each count that some link has gone back by, and
measuring in pieces gives the figure of the whole as long as no counter goes back.
-/
import CommSpeed.Number.Wrapping

namespace CommSpeed
namespace Pcm

open Number

/-- `incomingQPIPackets` of a system state: a count for each link of each socket. -/
abbrev Packets (numSockets qpiLinks : Nat) := Fin numSockets → Fin qpiLinks → UInt64

section

variable {numSockets qpiLinks : Nat}

def getIncomingQPILinkBytes (socketNr : Fin numSockets) (linkNr : Fin qpiLinks)
    (before after : Packets numSockets qpiLinks) : UInt64 :=
  let b := before socketNr linkNr
  let a := after socketNr linkNr
  if a > b then 64 * (a - b) else 0

def getAllIncomingQPILinkBytes (before after : Packets numSockets qpiLinks) : UInt64 :=
  (List.finRange numSockets).foldl (fun sum s =>
    (List.finRange qpiLinks).foldl (fun sum q =>
      sum + getIncomingQPILinkBytes s q before after) sum) 0

/-- `getIncomingQPILinkBytes` of one state. -/
def getIncomingQPILinkBytesNow (socketNr : Fin numSockets) (linkNr : Fin qpiLinks)
    (now : Packets numSockets qpiLinks) : UInt64 := 64 * now socketNr linkNr

def getSocketIncomingQPILinkBytes (socketNr : Fin numSockets)
    (now : Packets numSockets qpiLinks) : UInt64 :=
  (List.finRange qpiLinks).foldl (fun sum q => sum + getIncomingQPILinkBytesNow socketNr q now) 0

/-- `getAllIncomingQPILinkBytes` of one state. -/
def getAllIncomingQPILinkBytesNow (now : Packets numSockets qpiLinks) : UInt64 :=
  (List.finRange numSockets).foldl (fun sum s => sum + getSocketIncomingQPILinkBytes s now) 0

/-- What the counters of the links have gone back by. -/
def wentBack (before after : Packets numSockets qpiLinks) : UInt64 :=
  ((List.finRange numSockets).map fun s => ((List.finRange qpiLinks).map fun q =>
    if after s q < before s q then before s q - after s q else 0).sum).sum

end

section

variable {numSockets qpiLinks : Nat} {ι : Type}

theorem foldl_add_eq (l : List ι) (f : ι → UInt64) (sum : UInt64) :
    l.foldl (fun sum i => sum + f i) sum = sum + (l.map f).sum := by
  induction l generalizing sum with
  | nil => exact (add_zero _).symm
  | cons i l ih => rw [List.foldl_cons, ih, List.map_cons, List.sum_cons, add_assoc]

/-- A sum over the links of all sockets. -/
def overLinks (f : Fin numSockets → Fin qpiLinks → UInt64) : UInt64 :=
  ((List.finRange numSockets).map fun s => ((List.finRange qpiLinks).map (f s)).sum).sum

theorem overLinks_add (f g : Fin numSockets → Fin qpiLinks → UInt64) :
    overLinks (fun s q => f s q + g s q) = overLinks f + overLinks g := by
  simp only [overLinks, List.sum_map_add]

theorem overLinks_sub (f g : Fin numSockets → Fin qpiLinks → UInt64) :
    overLinks (fun s q => f s q - g s q) = overLinks f - overLinks g := by
  simp only [overLinks, sum_map_sub]

theorem overLinks_mul (k : UInt64) (f : Fin numSockets → Fin qpiLinks → UInt64) :
    overLinks (fun s q => k * f s q) = k * overLinks f := by
  simp only [overLinks, List.sum_map_mul_left]

theorem getAllIncomingQPILinkBytes_eq (before after : Packets numSockets qpiLinks) :
    getAllIncomingQPILinkBytes before after =
      overLinks fun s q => getIncomingQPILinkBytes s q before after := by
  simp only [getAllIncomingQPILinkBytes, foldl_add_eq, zero_add, overLinks]

theorem getAllIncomingQPILinkBytesNow_eq (now : Packets numSockets qpiLinks) :
    getAllIncomingQPILinkBytesNow now = 64 * overLinks now := by
  simp only [getAllIncomingQPILinkBytesNow, getSocketIncomingQPILinkBytes, foldl_add_eq, zero_add]
  exact overLinks_mul 64 now

theorem getIncomingQPILinkBytes_eq (s : Fin numSockets) (q : Fin qpiLinks)
    (before after : Packets numSockets qpiLinks) :
    getIncomingQPILinkBytes s q before after = 64 * (after s q - before s q) +
      64 * if after s q < before s q then before s q - after s q else 0 := by
  show (if after s q > before s q then 64 * (after s q - before s q) else 0) = _
  by_cases hback : after s q < before s q
  · rw [if_pos hback, if_neg (UInt64.not_lt.mpr (UInt64.le_of_lt hback)), ← mul_add]
    have hzero : after s q - before s q + (before s q - after s q) = 0 := by abel
    rw [hzero, mul_zero]
  · rw [if_neg hback, mul_zero, add_zero]
    by_cases hforth : after s q > before s q
    · rw [if_pos hforth]
    · have hsame : after s q = before s q :=
        UInt64.le_antisymm (UInt64.not_lt.mp hforth) (UInt64.not_lt.mp hback)
      rw [if_neg hforth, hsame, sub_self, mul_zero]

/-- The difference of two states is the difference of the running totals and 64 bytes for
each count that a link has gone back by. -/
theorem getAllIncomingQPILinkBytes_difference (before after : Packets numSockets qpiLinks) :
    getAllIncomingQPILinkBytes before after =
      getAllIncomingQPILinkBytesNow after - getAllIncomingQPILinkBytesNow before +
        64 * wentBack before after := by
  rw [getAllIncomingQPILinkBytes_eq, getAllIncomingQPILinkBytesNow_eq,
    getAllIncomingQPILinkBytesNow_eq, ← mul_sub, ← overLinks_sub]
  simp only [getIncomingQPILinkBytes_eq, overLinks_add, overLinks_mul]
  rfl

/-! ## Measuring in pieces -/

/-- The figures of consecutive pieces, added up. -/
def inPieces (first : Packets numSockets qpiLinks) : List (Packets numSockets qpiLinks) → UInt64
  | [] => 0
  | next :: rest => getAllIncomingQPILinkBytes first next + inPieces next rest

def wentBackInPieces (first : Packets numSockets qpiLinks) :
    List (Packets numSockets qpiLinks) → UInt64
  | [] => 0
  | next :: rest => wentBack first next + wentBackInPieces next rest

theorem inPieces_difference (first : Packets numSockets qpiLinks)
    (later : List (Packets numSockets qpiLinks)) :
    inPieces first later = getAllIncomingQPILinkBytesNow (later.getLastD first) -
      getAllIncomingQPILinkBytesNow first + 64 * wentBackInPieces first later := by
  induction later generalizing first with
  | nil => simp [inPieces, wentBackInPieces]
  | cons next rest ih =>
      rw [inPieces, wentBackInPieces, ih, getAllIncomingQPILinkBytes_difference, mul_add,
        List.getLastD_cons]
      abel

/-- Measuring in pieces gives the bytes of the whole, but for 64 bytes for each count that
a link has gone back by and, on the other side, for each count that it ends up below. -/
theorem inPieces_eq_whole (first : Packets numSockets qpiLinks)
    (later : List (Packets numSockets qpiLinks)) :
    inPieces first later + 64 * wentBack first (later.getLastD first) =
      getAllIncomingQPILinkBytes first (later.getLastD first) +
        64 * wentBackInPieces first later := by
  rw [inPieces_difference, getAllIncomingQPILinkBytes_difference]
  abel

/-- No counter goes back from one state to the next. -/
def Climbs (first : Packets numSockets qpiLinks) (later : List (Packets numSockets qpiLinks)) :
    Prop :=
  List.IsChain (· ≤ ·) (first :: later)

theorem wentBack_of_le {before after : Packets numSockets qpiLinks} (h : before ≤ after) :
    wentBack before after = 0 := by
  have hnone : ∀ s q, (if after s q < before s q then before s q - after s q else 0) = 0 :=
    fun s q => if_neg (UInt64.not_lt.mpr (h s q))
  simp [wentBack, hnone]

theorem Climbs.first_le_last {first : Packets numSockets qpiLinks}
    {later : List (Packets numSockets qpiLinks)} (h : Climbs first later) :
    first ≤ later.getLastD first := by
  induction later generalizing first with
  | nil => exact fun s q => UInt64.le_refl _
  | cons next rest ih =>
      obtain ⟨hle, hrest⟩ := List.isChain_cons_cons.mp h
      rw [List.getLastD_cons]
      exact fun s q => UInt64.le_trans (hle s q) (ih hrest s q)

theorem Climbs.wentBackInPieces_eq_zero {first : Packets numSockets qpiLinks}
    {later : List (Packets numSockets qpiLinks)} (h : Climbs first later) :
    wentBackInPieces first later = 0 := by
  induction later generalizing first with
  | nil => rfl
  | cons next rest ih =>
      obtain ⟨hle, hrest⟩ := List.isChain_cons_cons.mp h
      rw [wentBackInPieces, wentBack_of_le hle, ih hrest, add_zero]

/-- As long as no counter goes back, however often the counters are read in between does
not change the figure. -/
theorem inPieces_of_climbs {first : Packets numSockets qpiLinks}
    {later : List (Packets numSockets qpiLinks)} (h : Climbs first later) :
    inPieces first later = getAllIncomingQPILinkBytes first (later.getLastD first) := by
  rw [inPieces_difference, h.wentBackInPieces_eq_zero, getAllIncomingQPILinkBytes_difference,
    wentBack_of_le h.first_le_last]

/-- A counter that goes back is not counted at all in one piece and in part in two. -/
example : inPieces (fun (_ _ : Fin 1) => 10) [fun _ _ => 4, fun _ _ => 7] = 192 ∧
    getAllIncomingQPILinkBytes (fun (_ _ : Fin 1) => 10) (fun _ _ => 7) = 0 := by
  decide

end

end Pcm
end CommSpeed
