/-
The byte stream under `sock_sync_data`.

One endpoint performs a sequence of exchanges on a stream that the peer has
written.  The cuts say how many bytes each `read` would like to return; it
returns at least one and at most what was asked for and what is there, and
blocks at the end of the stream.  Every fragmentation is one of these.

The read loop asks for the whole size again after a short read and stores at the
start of the buffer again, so the framing survives exactly the fragmentations
that return each message whole.
-/
import CommSpeed.Rdma.Sock

namespace CommSpeed
namespace Rdma

open Bytes Prog

/-- How much of the stream an endpoint has consumed, in how many reads. -/
structure Wire where
  consumed : Nat := 0
  reads : Nat := 0
  deriving DecidableEq

/-- What a `read` of `len` bytes returns when it would like to return `cut` and
`avail` are there. -/
def readCount (cut len avail : Nat) : Nat := max 1 (min cut (min len avail))

/-- The `len` bytes of the stream at offset `i`. -/
def message (stream : List UInt8) (i len : Nat) : List UInt8 := (stream.drop i).take len

/-- A connection on which every `write` is complete. -/
def tcp (stream : List UInt8) (cuts : Nat → Nat) : (c : Call) → Wire → Option (Reply c × Wire)
  | .write _ data, w => some ((data.length : Int), w)
  | .read _ len, w =>
    let n := readCount (cuts w.reads) len (stream.length - w.consumed)
    if w.consumed < stream.length then
      some (.got (message stream w.consumed n), ⟨w.consumed + n, w.reads + 1⟩)
    else none
  | _, _ => none

/-- One call of `sock_sync_data` with its buffers. -/
structure Exchange where
  size : Nat
  localData : List UInt8
  remoteData : List UInt8
  size_pos : 0 < size
  localData_length : size ≤ localData.length
  remoteData_length : remoteData.length = size

def Exchange.run (m : Machine) (sock : Int) (x : Exchange) : P (Int × List UInt8) :=
  sockSyncData m sock x.size x.localData x.remoteData

def exchangeAll (m : Machine) (sock : Int) : List Exchange → P Unit
  | [] => pure ()
  | x :: xs => do
    let _ ← x.run m sock
    exchangeAll m sock xs

def sizes (xs : List Exchange) : List Nat := xs.map Exchange.size

/-- Whatever is on the stream and in the buffers, an exchange that returns 0
leaves the peer's message in the buffer and the stream at the end of it. -/
def Framed (cuts : Nat → Nat) (ss : List Nat) : Prop :=
  ∀ (m : Machine) (sock : Int) (stream : List UInt8) (ys : List Exchange) (x : Exchange)
    (zs : List Exchange) (buf : List UInt8) (w : Wire), sizes (ys ++ x :: zs) = ss →
    eval (tcp stream cuts) (exchangeAll m sock ys >>= fun _ => x.run m sock) {} =
      some ((0, buf), w) →
    buf = message stream (sizes ys).sum x.size ∧ w.consumed = (sizes ys).sum + x.size

section

variable {stream : List UInt8} {cuts : Nat → Nat} {sock : Int} {size n : Nat} {w w' : Wire}
  {buf : List UInt8}

theorem readCount_pos (cut len avail : Nat) : 0 < readCount cut len avail :=
  Nat.le_max_left 1 _

theorem readCount_le (cut : Nat) {len avail : Nat} (hlen : 0 < len) (havail : 0 < avail) :
    readCount cut len avail ≤ len ∧ readCount cut len avail ≤ avail := by
  unfold readCount
  omega

theorem length_message {i len : Nat} (h : i + len ≤ stream.length) :
    (message stream i len).length = len := by
  rw [message, List.length_take, List.length_drop]
  omega

/-! ## The read loop on a stream -/

abbrev readLoop (stream : List UInt8) (cuts : Nat → Nat) (sock : Int) (size n : Nat)
    (l : ReadLoop) (w : Wire) : Option ((Int × List UInt8) × Wire) :=
  eval (tcp stream cuts) (iterate n (readLoopBody sock size) l) w

theorem readLoop_done {total : Nat} (h : size ≤ total) :
    readLoop stream cuts sock size (n + 1) ⟨0, total, buf⟩ w = some ((0, buf), w) := by
  have hcond : ¬ ((0 : Int) = 0 ∧ total < size) := fun hc => Nat.not_lt.mpr h hc.2
  rw [readLoop, iterate, readLoopBody, if_neg hcond]
  rfl

theorem readLoop_blocked {total : Nat} (h : total < size) (hend : stream.length ≤ w.consumed) :
    readLoop stream cuts sock size (n + 1) ⟨0, total, buf⟩ w = none := by
  have hread : tcp stream cuts (.read sock size) w = none := if_neg (Nat.not_lt.mpr hend)
  rw [readLoop, iterate, readLoopBody, if_pos ⟨rfl, h⟩, bind_assoc, eval_bind, eval_perform,
    hread]
  rfl

theorem readLoop_step {total : Nat} (h : total < size) (hmore : w.consumed < stream.length) :
    readLoop stream cuts sock size (n + 1) ⟨0, total, buf⟩ w =
      readLoop stream cuts sock size n
        ⟨0, total + readCount (cuts w.reads) size (stream.length - w.consumed),
          overlay (message stream w.consumed
            (readCount (cuts w.reads) size (stream.length - w.consumed))) buf⟩
        ⟨w.consumed + readCount (cuts w.reads) size (stream.length - w.consumed), w.reads + 1⟩ := by
  have hle := readCount_le (cuts w.reads) (Nat.zero_lt_of_lt h) (Nat.sub_pos_of_lt hmore)
  have hpos := readCount_pos (cuts w.reads) size (stream.length - w.consumed)
  generalize hc : readCount (cuts w.reads) size (stream.length - w.consumed) = c at *
  have hread : tcp stream cuts (.read sock size) w =
      some (.got (message stream w.consumed c), ⟨w.consumed + c, w.reads + 1⟩) := by
    rw [tcp]
    simp only [hc, if_pos hmore]
  have hlen : (message stream w.consumed c).length = c := length_message (by omega)
  have hcount : 0 < (ReadReply.got (message stream w.consumed c)).count := by
    rw [ReadReply.count_got, hlen]
    omega
  rw [readLoop, iterate, readLoopBody, if_pos ⟨rfl, h⟩, bind_assoc, eval_step hread,
    if_pos hcount, ReadReply.bytes_got, hlen]
  rfl

/-- A call that returns has read at least its size, all of it from the stream. -/
theorem readLoop_enough {total : Nat} {y : Int × List UInt8}
    (h : readLoop stream cuts sock size n ⟨0, total, buf⟩ w = some (y, w'))
    (hw : w.consumed ≤ stream.length) :
    w.consumed + size ≤ w'.consumed + total ∧ w'.consumed ≤ stream.length := by
  induction n generalizing total buf w with
  | zero => cases h
  | succ n ih =>
      by_cases hdone : size ≤ total
      · rw [readLoop_done hdone] at h
        obtain rfl : w = w' := congrArg Prod.snd (Option.some.inj h)
        omega
      · have hlt := Nat.not_le.mp hdone
        by_cases hmore : w.consumed < stream.length
        · rw [readLoop_step hlt hmore] at h
          have hle := readCount_le (cuts w.reads) (Nat.zero_lt_of_lt hlt)
            (Nat.sub_pos_of_lt hmore)
          have hrest := ih h (by dsimp only; omega)
          dsimp only at hrest
          omega
        · rw [readLoop_blocked hlt (Nat.not_lt.mp hmore)] at h
          cases h

theorem readCount_whole {cut avail : Nat} (hcut : size ≤ max 1 cut) (hpos : 0 < size)
    (havail : size ≤ avail) : readCount cut size avail = size := by
  unfold readCount
  omega

theorem readLoop_whole (hpos : 0 < size) (hbuf : buf.length = size)
    (hcut : size ≤ max 1 (cuts w.reads)) (havail : w.consumed + size ≤ stream.length) :
    readLoop stream cuts sock size (n + 2) ⟨0, 0, buf⟩ w =
      some ((0, message stream w.consumed size), ⟨w.consumed + size, w.reads + 1⟩) := by
  have hlen : (message stream w.consumed size).length = size := length_message havail
  have hover : overlay (message stream w.consumed size) buf = message stream w.consumed size := by
    rw [overlay, hlen, ← hbuf, List.drop_length, List.append_nil]
  rw [readLoop_step hpos (by omega), readCount_whole hcut hpos (by omega), hover,
    readLoop_done (by omega)]

/-! ## A sequence of exchanges -/

theorem eval_run {m : Machine} (x : Exchange) :
    eval (tcp stream cuts) (x.run m sock) w =
      readLoop stream cuts sock x.size m.fuel ⟨0, 0, x.remoteData⟩ w := by
  have hlen : (x.localData.take x.size).length = x.size :=
    List.length_take_of_le x.localData_length
  have hwrite : tcp stream cuts (.write sock (x.localData.take x.size)) w =
      some ((x.size : Int), w) := by
    rw [tcp, hlen]
  rw [Exchange.run, sockSyncData_eval hwrite (.inr rfl), if_neg (Int.lt_irrefl _)]

/-- The exchange after a whole prefix.  When it returns, its first read was whole
or a fragment. -/
theorem eval_run_whole {m : Machine} {x : Exchange} {y : Int × List UInt8}
    (h : eval (tcp stream cuts) (x.run m sock) w = some (y, w'))
    (hw : w.consumed ≤ stream.length) (hcut : x.size ≤ max 1 (cuts w.reads)) :
    y = (0, message stream w.consumed x.size) ∧ w' = ⟨w.consumed + x.size, w.reads + 1⟩ := by
  rw [eval_run] at h
  have hpos := x.size_pos
  obtain ⟨henough, hle⟩ := readLoop_enough h hw
  have havail : w.consumed + x.size ≤ stream.length := by omega
  -- a budget of less than two turns does not reach the end of the loop
  rcases hfuel : m.fuel with _ | _ | k
  · rw [hfuel] at h
    cases h
  · rw [hfuel, readLoop_step hpos (by omega)] at h
    cases h
  · rw [hfuel, readLoop_whole hpos x.remoteData_length hcut havail] at h
    have hinj := Option.some.inj h
    exact ⟨(congrArg Prod.fst hinj).symm, (congrArg Prod.snd hinj).symm⟩

/-- Each exchange of the list starts with a whole read, the first of them being
read number `i`. -/
def WholeReads (cuts : Nat → Nat) (i : Nat) (ss : List Nat) : Prop :=
  ∀ k (h : k < ss.length), ss[k] ≤ max 1 (cuts (i + k))

theorem WholeReads.cons {i s : Nat} {ss : List Nat} (h : WholeReads cuts i (s :: ss)) :
    s ≤ max 1 (cuts i) ∧ WholeReads cuts (i + 1) ss := by
  refine ⟨h 0 (Nat.zero_lt_succ _), fun k hk => ?_⟩
  have hk' := h (k + 1) (Nat.succ_lt_succ hk)
  rw [Nat.add_assoc, Nat.add_comm 1 k]
  exact hk'

theorem eval_exchangeAll_whole {m : Machine} {ys : List Exchange} {u : Unit}
    (h : eval (tcp stream cuts) (exchangeAll m sock ys) w = some (u, w'))
    (hw : w.consumed ≤ stream.length) (hcuts : WholeReads cuts w.reads (sizes ys)) :
    w' = ⟨w.consumed + (sizes ys).sum, w.reads + ys.length⟩ ∧ w'.consumed ≤ stream.length := by
  induction ys generalizing w with
  | nil =>
      obtain rfl : w = w' := congrArg Prod.snd (Option.some.inj h)
      exact ⟨rfl, hw⟩
  | cons y ys ih =>
      obtain ⟨hcut, hrest⟩ := hcuts.cons
      rw [exchangeAll, eval_bind] at h
      cases hrun : eval (tcp stream cuts) (y.run m sock) w with
      | none =>
          rw [hrun] at h
          cases h
      | some r =>
          obtain ⟨out, w₁⟩ := r
          rw [hrun, Option.bind_some] at h
          have hle := (readLoop_enough (by rw [← eval_run]; exact hrun) hw).2
          obtain ⟨-, rfl⟩ := eval_run_whole hrun hw hcut
          obtain ⟨hw', hle'⟩ := ih h hle hrest
          refine ⟨?_, hle'⟩
          have hsum : (sizes (y :: ys)).sum = y.size + (sizes ys).sum := List.sum_cons
          rw [hw', hsum, List.length_cons, Wire.mk.injEq]
          dsimp only
          omega

theorem framed_of_wholeReads {ss : List Nat} (h : WholeReads cuts 0 ss) : Framed cuts ss := by
  intro m sock stream ys x zs buf w hss heval
  subst hss
  rw [eval_bind] at heval
  cases hys : eval (tcp stream cuts) (exchangeAll m sock ys) {} with
  | none =>
      rw [hys] at heval
      cases heval
  | some r =>
      obtain ⟨u, w₁⟩ := r
      rw [hys, Option.bind_some] at heval
      have hsplit : sizes (ys ++ x :: zs) = sizes ys ++ x.size :: sizes zs := by simp [sizes]
      rw [hsplit] at h
      have hprefix : WholeReads cuts 0 (sizes ys) := fun k hk => by
        have hk' := h k (by rw [List.length_append]; omega)
        rwa [List.getElem_append_left hk] at hk'
      have hx : x.size ≤ max 1 (cuts ys.length) := by
        have hk := h ys.length (by simp [sizes])
        simpa [sizes] using hk
      obtain ⟨rfl, hle⟩ := eval_exchangeAll_whole hys (Nat.zero_le _) hprefix
      dsimp only at hle heval
      obtain ⟨hy, rfl⟩ := eval_run_whole heval hle (by simpa using hx)
      have hbuf : buf = message stream (0 + (sizes ys).sum) x.size := congrArg Prod.snd hy
      rw [Nat.zero_add] at hbuf
      exact ⟨hbuf, by dsimp only; rw [Nat.zero_add]⟩

/-! ## A fragmented message

On a stream of zeros and with ones in the buffers, a message whose first read is
short leaves its last byte in the buffer untouched unless more is read than the
message has. -/

/-- An exchange with ones in the buffer for the peer's message. -/
def onesExchange (size : Nat) (h : 0 < size) : Exchange :=
  { size := size, localData := List.replicate size 0, remoteData := List.replicate size 1,
    size_pos := h, localData_length := by simp, remoteData_length := by simp }

/-- After a short read the call returns, and if it has not read too much then
the last byte of the buffer is still the one it held. -/
theorem readLoop_short {total : Nat} (htotal : 0 < total) (hn : size - total < n)
    (havail : w.consumed + size ≤ stream.length + total) :
    ∃ buf' w', readLoop stream cuts sock size n ⟨0, total, buf⟩ w = some ((0, buf'), w') ∧
      w.consumed ≤ w'.consumed ∧
      (w'.consumed + total ≤ w.consumed + size → buf'[size - 1]? = buf[size - 1]?) := by
  induction n generalizing total buf w with
  | zero => exact absurd hn (Nat.not_lt_zero _)
  | succ n ih =>
      by_cases hdone : size ≤ total
      · exact ⟨buf, w, readLoop_done hdone, le_refl _, fun _ => rfl⟩
      · have hlt := Nat.not_le.mp hdone
        have hmore : w.consumed < stream.length := by omega
        have hle := readCount_le (cuts w.reads) (Nat.zero_lt_of_lt hlt)
          (Nat.sub_pos_of_lt hmore)
        have hpos := readCount_pos (cuts w.reads) size (stream.length - w.consumed)
        rw [readLoop_step hlt hmore]
        generalize readCount (cuts w.reads) size (stream.length - w.consumed) = c at *
        obtain ⟨buf', w', heval, hmono, hlast⟩ :=
          @ih ⟨w.consumed + c, w.reads + 1⟩ (overlay (message stream w.consumed c) buf) (total + c)
            (by omega) (by omega) (by dsimp only; omega)
        dsimp only at hmono hlast
        refine ⟨buf', w', heval, by omega, fun hfit => ?_⟩
        have hlen : (message stream w.consumed c).length = c := length_message (by omega)
        rw [hlast (by omega), getElem?_overlay (by omega)]

theorem eval_exchangeAll_returns {m : Machine} (hfuel : 2 ≤ m.fuel) {ys : List Exchange}
    (hcuts : WholeReads cuts w.reads (sizes ys))
    (havail : w.consumed + (sizes ys).sum ≤ stream.length) :
    eval (tcp stream cuts) (exchangeAll m sock ys) w =
      some ((), ⟨w.consumed + (sizes ys).sum, w.reads + ys.length⟩) := by
  induction ys generalizing w with
  | nil => rfl
  | cons y ys ih =>
      have hsum : (sizes (y :: ys)).sum = y.size + (sizes ys).sum := List.sum_cons
      obtain ⟨hcut, hrest⟩ := hcuts.cons
      obtain ⟨k, hk⟩ := Nat.exists_eq_add_of_le' hfuel
      rw [exchangeAll, eval_bind, eval_run, hk,
        readLoop_whole y.size_pos y.remoteData_length hcut (by omega), Option.bind_some,
        ih hrest (by dsimp only; omega), hsum, List.length_cons]
      simp only [Option.some.injEq, Prod.mk.injEq, Wire.mk.injEq, true_and]
      omega

def budget (n : Nat) : Machine :=
  { order := .little, ndebug := false, fuel := n, tmpConData := Vector.replicate 40 0,
    padding := Vector.replicate 6 0, tempChar := 0 }

/-- After whole exchanges the next first read is whole too, or the zeros of the
stream do not reach the last byte of the buffer. -/
theorem whole_of_framed {ys zs : List Exchange} {size : Nat} {hsize : 0 < size}
    (hys : WholeReads cuts 0 (sizes ys))
    (h : Framed cuts (sizes (ys ++ onesExchange size hsize :: zs))) :
    size ≤ max 1 (cuts ys.length) := by
  by_contra hshort
  let before := (sizes ys).sum
  let stream : List UInt8 := List.replicate (before + 2 * size) 0
  have hlength : stream.length = before + 2 * size := List.length_replicate
  have hprefix : eval (tcp stream cuts) (exchangeAll (budget (size + 2)) 0 ys) {} =
      some ((), ⟨before, ys.length⟩) := by
    have hreturns : eval (tcp stream cuts) (exchangeAll (budget (size + 2)) 0 ys) {} = _ :=
      eval_exchangeAll_returns (Nat.le_add_left 2 size) hys (by rw [hlength]; dsimp only; omega)
    rw [hreturns]
    dsimp only
    rw [Nat.zero_add, Nat.zero_add]
  -- the short first read
  let w : Wire := ⟨before, ys.length⟩
  have hmore : w.consumed < stream.length := by rw [hlength]; dsimp only [w]; omega
  have hcount : readCount (cuts w.reads) size (stream.length - w.consumed) < size := by
    unfold readCount
    dsimp only [w]
    omega
  have hpos := readCount_pos (cuts w.reads) size (stream.length - w.consumed)
  have hrun : eval (tcp stream cuts) ((onesExchange size hsize).run (budget (size + 2)) 0) w = _ :=
    eval_run (onesExchange size hsize)
  rw [show (budget (size + 2)).fuel = size + 1 + 1 from rfl] at hrun
  rw [show (onesExchange size hsize).size = size from rfl, readLoop_step hsize hmore] at hrun
  generalize readCount (cuts w.reads) size (stream.length - w.consumed) = c at *
  have hlen : (message stream w.consumed c).length = c := length_message (by
    rw [hlength]; dsimp only [w]; omega)
  obtain ⟨buf', w', heval, -, hlast⟩ := @readLoop_short stream cuts 0 size (size + 1)
    ⟨w.consumed + c, w.reads + 1⟩
    (overlay (message stream w.consumed c) (onesExchange size hsize).remoteData) (0 + c)
    (by omega) (by omega) (by rw [hlength]; dsimp only [w]; omega)
  obtain ⟨hbuf, hconsumed⟩ := h (budget (size + 2)) 0 stream ys _ zs buf' w' rfl (by
    rw [eval_then hprefix]
    exact hrun.trans heval)
  have hlast' := hlast (by rw [hconsumed]; dsimp only [w, onesExchange]; omega)
  have hzero : (message stream before size)[size - 1]? = some 0 := by
    rw [message, List.drop_replicate, List.take_replicate, List.getElem?_replicate]
    exact if_pos (by omega)
  have hone : (onesExchange size hsize).remoteData[size - 1]? = some 1 := by
    rw [onesExchange, List.getElem?_replicate]
    exact if_pos (by omega)
  rw [getElem?_overlay (by omega), hbuf] at hlast'
  exact absurd (hzero.symm.trans (hlast'.trans hone)) (by decide)

theorem wholeReads_of_framed {ss : List Nat} (hpos : ∀ s ∈ ss, 0 < s) (h : Framed cuts ss) :
    WholeReads cuts 0 ss := by
  intro k
  induction k using Nat.strong_induction_on with
  | _ k ih =>
  intro hk
  have hsizes : ∀ l (hl : ∀ s ∈ l, 0 < s), sizes (l.pmap onesExchange hl) = l := by
    intro l hl
    rw [sizes, List.map_pmap]
    exact List.pmap_eq_self.mpr fun _ _ => rfl
  have hposTake : ∀ s ∈ ss.take k, 0 < s := fun s hs => hpos s (List.mem_of_mem_take hs)
  have hposDrop : ∀ s ∈ ss.drop (k + 1), 0 < s := fun s hs => hpos s (List.mem_of_mem_drop hs)
  have hs : 0 < ss[k] := hpos _ (List.getElem_mem hk)
  have hall : sizes ((ss.take k).pmap onesExchange hposTake ++
      onesExchange ss[k] hs :: (ss.drop (k + 1)).pmap onesExchange hposDrop) = ss := by
    have happ : ∀ xs ys x, sizes (xs ++ x :: ys) = sizes xs ++ x.size :: sizes ys := by
      intro xs ys x
      simp [sizes]
    rw [happ, hsizes, hsizes]
    exact (List.drop_eq_getElem_cons hk) ▸ List.take_append_drop k ss
  have hwhole : WholeReads cuts 0 (sizes ((ss.take k).pmap onesExchange hposTake)) := by
    rw [hsizes]
    intro j hj
    have hjk : j < k := by
      rw [List.length_take] at hj
      omega
    rw [List.getElem_take]
    exact ih j hjk (by omega)
  have hbound := whole_of_framed hwhole (hall.symm ▸ h)
  rw [List.length_pmap, List.length_take, Nat.min_eq_left hk.le] at hbound
  rw [Nat.zero_add]
  exact hbound

end

/-- The framing holds for a fragmentation, whatever the stream and the buffers
hold, exactly when each exchange gets its whole message from its first read. -/
theorem sockSyncData_framed_iff {ss : List Nat} (hpos : ∀ s ∈ ss, 0 < s) (cuts : Nat → Nat) :
    Framed cuts ss ↔ WholeReads cuts 0 ss :=
  ⟨wholeReads_of_framed hpos, framed_of_wholeReads⟩

theorem sockSyncData_framed_iff_rcmain :
    Framed (fun _ => 40) [40, 1, 1, 1] ↔ WholeReads (fun _ => 40) 0 [40, 1, 1, 1] :=
  sockSyncData_framed_iff (by decide) _

/-- Forty bytes that arrive in two halves: the call returns 0 with the second half
where the first belongs. -/
def halvesStream : List UInt8 := (List.range 40).map UInt8.ofNat

def halvesExchange : Exchange :=
  { size := 40, localData := List.replicate 40 0, remoteData := List.replicate 40 0,
    size_pos := by decide, localData_length := by decide, remoteData_length := by decide }

theorem halves_not_framed :
    eval (tcp halvesStream fun _ => 20) (halvesExchange.run (budget 3) 4) {} =
        some ((0, halvesStream.drop 20 ++ List.replicate 20 0), ⟨40, 2⟩) ∧
      ¬ Framed (fun _ => 20) [40] := by
  have hrun : eval (tcp halvesStream fun _ => 20) (halvesExchange.run (budget 3) 4) {} =
      some ((0, halvesStream.drop 20 ++ List.replicate 20 0), ⟨40, 2⟩) := by decide
  refine ⟨hrun, fun h => ?_⟩
  have hbuf := (h (budget 3) 4 halvesStream [] halvesExchange [] _ _ rfl hrun).1
  exact absurd hbuf (by decide)

end Rdma
end CommSpeed
