/-
The two roles of `rcmain` follow their scripts.

A side is watched through what it has done, the bytes it has put on its stream
and taken from the other, and the requests it has posted.  `At` is where a side
stands in its script.  Each function of `rc_example.c` has one lemma that says
which marks it makes.
-/
import CommSpeed.Rdma.Handshake
import CommSpeed.Rdma.Main

namespace CommSpeed
namespace Rdma

open Bytes Prog

inductive Request
  | recv (wr : IbvRecvWr)
  | send (wr : IbvSendWr)

namespace Request

def kind : Request → Kind
  | recv _ => .recv
  | send wr => .op wr.opcode

def sge : Request → IbvSge
  | recv wr => wr.sge
  | send wr => wr.sge

end Request

/-- What the calls of a side add up to. -/
structure Local where
  done : List Mark := []
  sent : List UInt8 := []
  consumed : Nat := 0
  requests : List Request := []
  reaped : Nat := 0
  /-- The data of the own side, as far as it is known. -/
  own : CmConData := { addr := 0, rkey := 0, qpNum := 0, lid := 0, gid := Vector.replicate 16 0 }
  decoded : Option CmConData := none

namespace Local

/-- The mark a call makes when it succeeds. -/
def mark (s : Local) : (c : Call) → Reply c → Option Mark
  | .malloc _, r => if r.isSome then some .allocated else none
  | .memsetZero .., _ => some .cleared
  | .strcpy _ src, _ => some (.stored src)
  | .printBuf line _, _ => some (.printed line)
  | .printRemote _, _ => some .decoded
  | .write _ data, rc => if rc = data.length then some (.wrote data.length) else none
  | .ibvModifyQp _ attr _, rc => if rc = 0 then some (.moved attr.qpState) else none
  | .ibvPostRecv .., rc => if rc = 0 then some (.posted .recv) else none
  | .ibvPostSend _ wr, rc => if rc = 0 then some (.posted (.op wr.opcode)) else none
  | .ibvPollCq .., .found wc =>
    if wc.status = ibvWcSuccess then s.requests[s.reaped]?.map fun q => .reaped q.kind else none
  | _, _ => none

def track (s : Local) : (c : Call) → Reply c → Local
  | .write _ data, rc => { s with sent := s.sent ++ data.take rc.toNat }
  | .read .., r => { s with consumed := s.consumed + r.bytes.length }
  | .malloc _, some ptr => { s with own := { s.own with addr := ptr } }
  | .ibvRegMr .., some mr => { s with own := { s.own with rkey := mr.rkey } }
  | .ibvCreateQp .., some qp => { s with own := { s.own with qpNum := qp.qpNum } }
  | .ibvQueryPort .., (_, attr) => { s with own := { s.own with lid := attr.lid } }
  | .ibvQueryGid .., (_, gid) => { s with own := { s.own with gid := gid } }
  | .printRemote props, _ => { s with decoded := some props }
  | .ibvPostRecv _ wr, rc =>
    if rc = 0 then { s with requests := s.requests ++ [.recv wr] } else s
  | .ibvPostSend _ wr, rc =>
    if rc = 0 then { s with requests := s.requests ++ [.send wr] } else s
  | .ibvPollCq .., .found _ => { s with reaped := s.reaped + 1 }
  | _, _ => s

def next (s : Local) (c : Call) (r : Reply c) : Local :=
  { s.track c r with done := s.done ++ (s.mark c r).toList }

section

variable {s s' : Local} {c : Call} {r : Reply c} {mk : Mark}

theorem next_of_unmarked (hmark : s.mark c r = none) (htrack : s.track c r = s')
    (hdone : s'.done = s.done) : s.next c r = s' := by
  rw [next, hmark, htrack, ← hdone, Option.toList_none, List.append_nil]

theorem next_of_mark (hmark : s.mark c r = some mk) :
    s.next c r = { s.track c r with done := s.done ++ [mk] } := by
  rw [next, hmark, Option.toList_some]

end

end Local

/-- What a call must respect besides the order of the marks: a `write` is the
next one of the script and comes after whole ones, and every access is to the
message buffer, to the peer's with the address that was decoded. -/
def callOk (script : List Mark) (s : Local) : Call → Prop
  | .write _ data => s.done ++ [.wrote data.length] <+: script ∧ s.sent.length = bytes s.done
  | .memsetZero ptr size => ptr = s.own.addr ∧ size = msgSize
  | .strcpy ptr _ | .printBuf _ ptr => ptr = s.own.addr
  | .ibvPostRecv _ wr => wr.sge.addr = s.own.addr ∧ wr.sge.length = msgSize
  | .ibvPostSend _ wr => (wr.sge.addr = s.own.addr ∧ wr.sge.length = msgSize) ∧
    (wr.opcode ≠ .send → ∃ d, s.decoded = some d ∧ wr.remoteAddr = d.addr)
  | _ => True

/-- Every mark is the next of the script, and comes after as many bytes were
consumed as were sent. -/
def follows (script : List Mark) : Monitor Call Reply Local where
  legal _ _ _ := True
  ok s c r := (∀ mk ∈ s.mark c r, s.done ++ [mk] <+: script ∧ bytes s.done ≤ s.consumed) ∧
    callOk script s c
  next := Local.next

/-- A side whose marks still to make are `todo`, whose buffer is at `ptr`, and
which has a request of kind `pending`. -/
structure At (script todo : List Mark) (ptr : Ptr) (decoded : Option CmConData)
    (pending : Option Kind) (s : Local) : Prop where
  place : s.done ++ todo = script
  sent : s.sent.length = bytes s.done
  heard : bytes s.done ≤ s.consumed
  addr : s.own.addr = ptr
  decoded : s.decoded = decoded
  pending : (s.requests.drop s.reaped).map Request.kind = pending.toList
  reaped : s.reaped ≤ s.requests.length

section

variable {script rest : List Mark} {mk : Mark} {ptr : Ptr} {d : Option CmConData}
  {k : Option Kind} {s : Local}

theorem At.nextPrefix (h : At script (mk :: rest) ptr d k s) : s.done ++ [mk] <+: script :=
  ⟨rest, by rw [← h.place, List.append_assoc, List.singleton_append]⟩

theorem At.advance (h : At script (mk :: rest) ptr d k s) (hmk : mk.bytes = 0) :
    At script rest ptr d k { s with done := s.done ++ [mk] } := by
  have hbytes : bytes (s.done ++ [mk]) = bytes s.done := by rw [bytes_append, hmk, Nat.add_zero]
  refine { h with place := ?_, sent := ?_, heard := ?_ }
  · rw [List.append_assoc, List.singleton_append, h.place]
  · rw [hbytes, h.sent]
  · rw [hbytes]
    exact h.heard

theorem At.call {c : Call} {Q : Reply c → Prop}
    (h : At script (mk :: rest) ptr d k s) (hmk : mk.bytes = 0) (hok : callOk script s c)
    (hmark : ∀ r, s.mark c r = some mk ∨ (s.mark c r = none ∧ ¬ Q r))
    (htrack : ∀ r, s.track c r = s) :
    Safe (follows script) (sys c) s fun r s' => Q r → At script rest ptr d k s' := by
  refine safe_perform.mpr fun r _ => ?_
  have hnext : s.next c r = { s with done := s.done ++ (s.mark c r).toList } := by
    rw [Local.next, htrack]
  rcases hmark r with hsome | ⟨hnone, hQ⟩
  · refine ⟨⟨fun mk' hmk' => ?_, hok⟩, fun _ => ?_⟩
    · obtain rfl := Option.some.inj (hsome.symm.trans hmk')
      exact ⟨h.nextPrefix, h.heard⟩
    · rw [show (follows script).next = Local.next from rfl, hnext, hsome]
      exact h.advance hmk
  · refine ⟨⟨fun mk' hmk' => ?_, hok⟩, fun hq => absurd hq hQ⟩
    rw [hnone] at hmk'
    cases hmk'

theorem At.strcpy {t : List UInt8} (h : At script (.stored t :: rest) ptr d k s) :
    Safe (follows script) (sys (.strcpy ptr t)) s fun _ s' => At script rest ptr d k s' :=
  (h.call (c := .strcpy ptr t) (Q := fun _ => True) rfl h.addr.symm (fun _ => .inl rfl)
    fun _ => rfl).mono fun _ _ hs => hs trivial

theorem At.printBuf {line : BufLine} (h : At script (.printed line :: rest) ptr d k s) :
    Safe (follows script) (sys (.printBuf line ptr)) s fun _ s' => At script rest ptr d k s' :=
  (h.call (c := .printBuf line ptr) (Q := fun _ => True) rfl h.addr.symm (fun _ => .inl rfl)
    fun _ => rfl).mono fun _ _ hs => hs trivial

theorem At.memsetZero (h : At script (.cleared :: rest) ptr d k s) :
    Safe (follows script) (sys (.memsetZero ptr msgSize)) s fun _ s' =>
      At script rest ptr d k s' :=
  (h.call (c := .memsetZero ptr msgSize) (Q := fun _ => True) rfl ⟨h.addr.symm, rfl⟩
    (fun _ => .inl rfl) fun _ => rfl).mono fun _ _ hs => hs trivial

theorem At.modify {qp : Ptr} {attr : IbvQpAttr} {mask : List QpAttrMask}
    (h : At script (.moved attr.qpState :: rest) ptr d k s) :
    Safe (follows script) (sys (.ibvModifyQp qp attr mask)) s fun rc s' =>
      rc = 0 → At script rest ptr d k s' := by
  refine h.call (Q := fun rc => rc = 0) rfl trivial (fun rc => ?_) fun _ => rfl
  by_cases hrc : rc = 0
  · exact .inl (if_pos hrc)
  · exact .inr ⟨if_neg hrc, hrc⟩

theorem At.printRemote {props : CmConData} (h : At script (.decoded :: rest) ptr d k s) :
    Safe (follows script) (sys (.printRemote props)) s fun _ s' =>
      At script rest ptr (some props) k s' := by
  refine safe_perform.mpr fun r _ => ⟨⟨fun mk hmk => ?_, trivial⟩, ?_⟩
  · obtain rfl := Option.some.inj hmk
    exact ⟨h.nextPrefix, h.heard⟩
  · exact { h.advance rfl with decoded := rfl }

theorem quiet_ignored {c : Call} (r : Reply c) (h : quiet c) :
    (follows script).ok s c r ∧ s.next c r = s := by
  cases c with
  | socket | connect | bind | listen | accept | close | free | ibvFreeDeviceList | ibvCloseDevice
  | ibvDeallocPd | ibvDestroyCq | ibvDeregMr | ibvDestroyQp =>
      exact ⟨⟨nofun, trivial⟩, Local.next_of_unmarked rfl rfl rfl⟩
  | _ => cases h

theorem quiet_follows {α : Type} {p : P α} (hp : Uses quiet p fun _ => True) :
    Safe (follows script) p s fun _ s' => s' = s :=
  (hp.safe fun _ r h => quiet_ignored r h).mono fun _ _ h => h.2

/-! ## Syncs -/

theorem bytes_wrote (l : List Mark) (n : Nat) : bytes (l ++ [.wrote n]) = bytes l + n :=
  bytes_append l _

/-- Inside the read loop of a sync, from the state after its `write`. -/
def SyncLoop (s : Local) (l : ReadLoop) (s' : Local) : Prop :=
  l.rc ≤ 0 ∧ s' = { s with consumed := s.consumed + l.totalReadBytes }

theorem readLoopBody_follows {sock : Int} {n : Nat} {l : ReadLoop} {s' : Local}
    (hl : SyncLoop s l s') :
    Safe (follows script) (readLoopBody sock n l) s' fun y s'' =>
      match y with
      | .inl l' => SyncLoop s l' s''
      | .inr x => 0 ≤ x.1 →
        ∃ total, n ≤ total ∧ s'' = { s with consumed := s.consumed + total } := by
  obtain ⟨hrc, rfl⟩ := hl
  unfold readLoopBody
  split
  · refine safe_step.mpr fun r _ => ⟨⟨nofun, trivial⟩, ?_⟩
    have hnext : Local.next { s with consumed := s.consumed + l.totalReadBytes } (.read sock n) r =
        { s with consumed := s.consumed + (l.totalReadBytes + r.bytes.length) } := by
      rw [← Nat.add_assoc]
      exact Local.next_of_unmarked rfl rfl rfl
    rw [show (follows script).next = Local.next from rfl, hnext]
    split
    · exact ⟨hrc, rfl⟩
    · rename_i hpos
      have hzero : r.bytes.length = 0 := by
        cases r with
        | failed => rfl
        | got bs =>
            rw [ReadReply.count_got] at hpos
            exact Nat.eq_zero_of_not_pos fun h => hpos (Int.ofNat_lt.mpr h)
      refine ⟨not_lt.mp hpos, ?_⟩
      rw [hzero]
      rfl
  · rename_i hcond
    intro hpos
    exact ⟨l.totalReadBytes, not_lt.mp fun h => hcond ⟨le_antisymm hrc hpos, h⟩, rfl⟩

theorem At.sync {m : Machine} (hassert : m.ndebug = false) {sock : Int} {n : Nat}
    {local' : List UInt8} (remote : List UInt8) (hlen : local'.length = n)
    (h : At script (.wrote n :: rest) ptr d k s) :
    Safe (follows script) (sockSyncData m sock n local' remote) s fun x s' =>
      0 ≤ x.1 → At script rest ptr d k s' := by
  have htake : local'.take n = local' := List.take_of_length_le hlen.le
  unfold sockSyncData
  rw [htake, hassert]
  refine safe_step.mpr fun rc _ => ⟨⟨fun mk hmk => ?_, ?_, h.sent⟩, ?_⟩
  · have hmark : s.mark (.write sock local') rc = some mk := hmk
    rw [Local.mark] at hmark
    split at hmark
    · obtain rfl := Option.some.inj hmark
      rw [hlen]
      exact ⟨h.nextPrefix, h.heard⟩
    · cases hmark
  · rw [hlen]
    exact h.nextPrefix
  · refine safe_bind.mpr (safe_assert fun hrc => ?_)
    have hrc : rc = n := of_decide_eq_true hrc
    -- the write was whole
    have hnext : s.next (.write sock local') rc =
        { s with done := s.done ++ [.wrote n], sent := s.sent ++ local' } := by
      have hwhole : s.mark (.write sock local') rc = some (.wrote n) := by
        rw [Local.mark, hlen, if_pos hrc]
      rw [Local.next_of_mark hwhole, Local.track, hrc, Int.toNat_natCast, htake]
    rw [show (follows script).next = Local.next from rfl, hnext, if_neg (not_lt.mpr hrc.ge)]
    refine safe_iterate (I := SyncLoop { s with
      done := s.done ++ [.wrote n], sent := s.sent ++ local' }) ⟨le_refl 0, rfl⟩ fun l s' hl => ?_
    refine (readLoopBody_follows hl).mono fun y s'' hy => ?_
    cases y with
    | inl l' => exact hy
    | inr x =>
        intro hx
        obtain ⟨total, htotal, rfl⟩ := hy hx
        refine { h with place := ?_, sent := ?_, heard := ?_ }
        · rw [List.append_assoc, List.singleton_append, h.place]
        · rw [List.length_append, bytes_wrote, h.sent, hlen]
        · rw [bytes_wrote]
          exact Nat.add_le_add h.heard htotal

/-- A letter sync: `rcmain` reads any nonzero code as a failure. -/
theorem At.letterSync {m : Machine} (hassert : m.ndebug = false) {sock : Int} {c : Char}
    (remote : List UInt8) (h : At script (.wrote 1 :: rest) ptr d k s) :
    Safe (follows script) (sockSyncData m sock 1 (charBytes [c]) remote) s fun x s' =>
      x.1 = 0 → At script rest ptr d k s' := by
  refine Safe.mono (h.sync hassert remote rfl) ?_
  intro x s' hs hrc
  exact hs hrc.ge

/-! ## Requests -/

theorem At.posted {q : Request} (h : At script (.posted q.kind :: rest) ptr d none s) :
    At script rest ptr d (some q.kind)
      { s with done := s.done ++ [.posted q.kind], requests := s.requests ++ [q] } := by
  have hnone : s.requests.drop s.reaped = [] := List.map_eq_nil_iff.mp h.pending
  refine { h.advance rfl with pending := ?_, reaped := ?_ }
  · rw [List.drop_append_of_le_length h.reaped, hnone]
    rfl
  · rw [List.length_append]
    exact Nat.le_add_right_of_le h.reaped

theorem At.postSend {res : Resources} {opcode : WrOpcode} (hbuf : res.buf = some ptr)
    (hd : opcode ≠ .send → d = some res.remoteProps)
    (h : At script (.posted (.op opcode) :: rest) ptr d none s) :
    Safe (follows script) (postSend res opcode) s fun rc s' =>
      rc = 0 → At script rest ptr d (some (.op opcode)) s' := by
  refine safe_bind.mpr (safe_deref fun mr _ => safe_bind.mpr (safe_deref fun qp _ => ?_))
  have hcall : ∀ wr : IbvSendWr, wr.sge = bufSge (res.buf.getD 0) mr → wr.opcode = opcode →
      (opcode ≠ .send → wr.remoteAddr = res.remoteProps.addr) →
      Safe (follows script) (sys (.ibvPostSend qp.ptr wr)) s fun rc s' =>
        rc = 0 → At script rest ptr d (some (.op opcode)) s' := by
    rintro wr hsge rfl haddr
    have hlocal : wr.sge.addr = s.own.addr ∧ wr.sge.length = msgSize := by
      rw [hsge, hbuf]
      exact ⟨h.addr.symm, rfl⟩
    refine safe_perform.mpr fun rc _ => ⟨⟨fun mk hmk => ?_, hlocal, fun hop => ?_⟩, fun hrc => ?_⟩
    · have hmark : (if rc = 0 then some (Mark.posted (.op wr.opcode)) else none) = some mk := hmk
      split at hmark
      · obtain rfl := Option.some.inj hmark
        exact ⟨h.nextPrefix, h.heard⟩
      · cases hmark
    · exact ⟨res.remoteProps, h.decoded.trans (hd hop), haddr hop⟩
    · have hnext : s.next (.ibvPostSend qp.ptr wr) rc =
          { s with done := s.done ++ [.posted (.op wr.opcode)],
                   requests := s.requests ++ [.send wr] } := by
        subst hrc
        exact Local.next_of_mark rfl
      rw [show (follows script).next = Local.next from rfl, hnext]
      exact At.posted (q := .send wr) h
  refine hcall _ ?_ ?_ fun hne => ?_
  · split <;> rfl
  · split <;> rfl
  · rw [if_pos hne]

theorem At.postRecv {res : Resources} (hbuf : res.buf = some ptr)
    (h : At script (.posted .recv :: rest) ptr d none s) :
    Safe (follows script) (postRecv res) s fun rc s' =>
      rc = 0 → At script rest ptr d (some .recv) s' := by
  refine safe_bind.mpr (safe_deref fun mr _ => safe_bind.mpr (safe_deref fun qp _ => ?_))
  have hlocal : (bufSge (res.buf.getD 0) mr).addr = s.own.addr ∧
      (bufSge (res.buf.getD 0) mr).length = msgSize := by
    rw [hbuf]
    exact ⟨h.addr.symm, rfl⟩
  refine safe_perform.mpr fun rc _ => ⟨⟨fun mk hmk => ?_, hlocal⟩, fun hrc => ?_⟩
  · have hmark : (if rc = 0 then some (Mark.posted .recv) else none) = some mk := hmk
    split at hmark
    · obtain rfl := Option.some.inj hmark
      exact ⟨h.nextPrefix, h.heard⟩
    · cases hmark
  · have hnext : ∀ wr, s.next (.ibvPostRecv qp.ptr wr) rc =
        { s with done := s.done ++ [.posted .recv], requests := s.requests ++ [.recv wr] } := by
      intro wr
      subst hrc
      exact Local.next_of_mark rfl
    rw [show (follows script).next = Local.next from rfl, hnext]
    exact At.posted (q := .recv _) h

theorem At.pollCompletion {m : Machine} {res : Resources} {kind : Kind}
    (h : At script (.reaped kind :: rest) ptr d (some kind) s) :
    Safe (follows script) (pollCompletion m res) s fun rc s' =>
      rc = 0 → At script rest ptr d none s' := by
  -- the one pending request
  obtain ⟨q, hdrop, hkind⟩ : ∃ q, s.requests.drop s.reaped = [q] ∧ q.kind = kind := by
    have hpending := h.pending
    rw [Option.toList_some, List.map_eq_singleton_iff] at hpending
    exact hpending
  have hget : s.requests[s.reaped]? = some q := by
    rw [← Nat.add_zero s.reaped, ← List.getElem?_drop, hdrop]
    rfl
  have hlt : s.reaped < s.requests.length := (List.getElem?_eq_some_iff.mp hget).choose
  refine safe_bind.mpr (safe_deref fun cq _ => ?_)
  have hclock : ∀ (s : Local) (t : Timeval), s.next .gettimeofday t = s :=
    fun _ _ => Local.next_of_unmarked rfl rfl rfl
  refine safe_step.mpr fun t _ => ⟨⟨nofun, trivial⟩, ?_⟩
  rw [show (follows script).next s .gettimeofday t = s from hclock s t]
  refine safe_bind.mpr (safe_iterate (I := fun _ s' => s' = s) rfl fun _ s' hs' => ?_)
  subst hs'
  refine safe_step.mpr fun r _ => ?_
  cases r with
  | failed =>
      refine ⟨⟨nofun, trivial⟩, safe_step.mpr fun t' _ => ⟨⟨nofun, trivial⟩, ?_⟩⟩
      rw [if_neg (by simp)]
      exact fun hrc => by cases hrc
  | empty =>
      have hsame : s'.next (.ibvPollCq cq 1) .empty = s' := Local.next_of_unmarked rfl rfl rfl
      refine ⟨⟨nofun, trivial⟩, ?_⟩
      rw [show (follows script).next s' (.ibvPollCq cq 1) .empty = s' from hsame]
      refine safe_step.mpr fun t' _ => ⟨⟨nofun, trivial⟩, ?_⟩
      split
      · exact hclock s' t'
      · exact fun hrc => by cases hrc
  | found wc =>
      refine ⟨⟨fun mk hmk => ?_, trivial⟩, safe_step.mpr fun t' _ => ⟨⟨nofun, trivial⟩, ?_⟩⟩
      · have hmark : s'.mark (.ibvPollCq cq 1) (.found wc) = some mk := hmk
        rw [Local.mark, hget, Option.map_some, hkind] at hmark
        split at hmark
        · obtain rfl := Option.some.inj hmark
          exact ⟨h.nextPrefix, h.heard⟩
        · cases hmark
      · rw [if_neg (by simp)]
        intro hrc
        split at hrc
        · cases hrc
        · rename_i hstatus
          have hnext : s'.next (.ibvPollCq cq 1) (.found wc) =
              { s' with done := s'.done ++ [.reaped kind], reaped := s'.reaped + 1 } := by
            refine Local.next_of_mark ?_
            rw [Local.mark, if_pos (not_not.mp hstatus), hget, Option.map_some, hkind]
          rw [show (follows script).next = Local.next from rfl, hnext, hclock]
          refine { h.advance rfl with pending := ?_, reaped := hlt }
          show (s'.requests.drop (s'.reaped + 1)).map Request.kind = []
          rw [← List.drop_drop, hdrop]
          rfl

/-! ## The functions of a run -/

/-- The marks of `resources_create` after the buffer is cleared. -/
def fillMarks (cfg : Config) : List Mark :=
  if cfg.serverName.isNone then [.stored msg, .stored msg, .printed .goingToSend] else [.cleared]

def recvMarks (cfg : Config) : List Mark :=
  if cfg.serverName.isSome then [.posted .recv] else []

theorem At.fillBuffer {cfg : Config} (h : At script (fillMarks cfg ++ rest) ptr d k s) :
    Safe (follows script) (fillBuffer cfg ptr) s fun _ s' => At script rest ptr d k s' := by
  unfold fillMarks at h
  unfold Rdma.fillBuffer
  split at h
  · rename_i hserver
    rw [if_pos hserver]
    refine Safe.bind h.strcpy fun _ s' h' => Safe.bind h'.strcpy fun _ s' h' => ?_
    exact h'.printBuf
  · rename_i hclient
    rw [if_neg hclient]
    exact h.memsetZero

/-- What `resources_create` leaves when it returns 0. -/
def CreatedAt (script rest : List Mark) (x : Int × Resources) (s : Local) : Prop :=
  x.1 = 0 → ∃ ptr, x.2.buf = some ptr ∧ At script rest ptr none none s

/-- Calls of `resources_create` that only add to the own data. -/
theorem At.own (h : At script rest ptr d k s) (props : CmConData)
    (haddr : props.addr = s.own.addr) : At script rest ptr d k { s with own := props } :=
  { h with addr := haddr.trans h.addr }

theorem resourcesCreateVerbs_follows {cfg : Config} {res : Resources}
    (h : At script (.allocated :: .cleared :: (fillMarks cfg ++ rest)) ptr none none s) :
    Safe (follows script) (resourcesCreateVerbs cfg res) s fun x s' =>
      CreatedAt script rest (x.1, x.2.1) s' := by
  unfold resourcesCreateVerbs
  have hone : ∀ {res s}, CreatedAt script rest (1, res) s := fun h => by cases h
  have hnext : (follows script).next = Local.next := rfl
  refine safe_step.mpr fun list _ => ⟨⟨nofun, trivial⟩, ?_⟩
  rw [hnext, show s.next .ibvGetDeviceList list = s from Local.next_of_unmarked rfl rfl rfl]
  cases list with
  | none => exact hone
  | some list =>
  obtain ⟨devList, devices⟩ := list
  dsimp only
  split
  · exact hone
  cases findDevice cfg.devName devices with
  | none => exact hone
  | some ibDev =>
  refine safe_step.mpr fun ctx _ => ⟨⟨nofun, trivial⟩, ?_⟩
  rw [hnext, show s.next (.ibvOpenDevice ibDev.ptr) ctx = s from Local.next_of_unmarked rfl rfl rfl]
  cases ctx with
  | none => exact hone
  | some ctx =>
  refine safe_step.mpr fun u _ => ⟨⟨nofun, trivial⟩, ?_⟩
  rw [hnext, (@quiet_ignored script s _ u rfl).2]
  refine safe_step.mpr fun x _ => ⟨⟨nofun, trivial⟩, ?_⟩
  obtain ⟨rcPort, portAttr⟩ := x
  rw [hnext, show s.next (.ibvQueryPort ctx (UInt8.ofInt cfg.ibPort)) (rcPort, portAttr) =
    { s with own := { s.own with lid := portAttr.lid } } from Local.next_of_unmarked rfl rfl rfl]
  dsimp only
  split
  · exact hone
  have h₁ := h.own { s.own with lid := portAttr.lid } rfl
  generalize { s with own := { s.own with lid := portAttr.lid } } = s₁ at *
  refine safe_step.mpr fun pd _ => ⟨⟨nofun, trivial⟩, ?_⟩
  rw [hnext, show s₁.next (.ibvAllocPd ctx) pd = s₁ from Local.next_of_unmarked rfl rfl rfl]
  cases pd with
  | none => exact hone
  | some pd =>
  refine safe_step.mpr fun cq _ => ⟨⟨nofun, trivial⟩, ?_⟩
  rw [hnext, show s₁.next (.ibvCreateCq ctx 1) cq = s₁ from Local.next_of_unmarked rfl rfl rfl]
  cases cq with
  | none => exact hone
  | some cq =>
  refine safe_step.mpr fun buf _ => ?_
  cases buf with
  | none => exact ⟨⟨nofun, trivial⟩, hone⟩
  | some buf =>
  refine ⟨⟨fun mk hmk => ?_, trivial⟩, ?_⟩
  · obtain rfl := Option.some.inj hmk
    exact ⟨h₁.nextPrefix, h₁.heard⟩
  have h₂ : At script (.cleared :: (fillMarks cfg ++ rest)) buf none none
      (s₁.next (.malloc msgSize) (some buf)) := { h₁.advance rfl with addr := rfl }
  rw [hnext]
  generalize s₁.next (.malloc msgSize) (some buf) = s₂ at *
  refine Safe.bind h₂.memsetZero fun _ s₃ h₃ => Safe.bind h₃.fillBuffer fun _ s₄ h₄ => ?_
  refine safe_step.mpr fun mr _ => ⟨⟨nofun, trivial⟩, ?_⟩
  cases mr with
  | none => exact hone
  | some mr =>
  rw [hnext, show s₄.next (.ibvRegMr pd buf msgSize accessFlags) (some mr) =
    { s₄ with own := { s₄.own with rkey := mr.rkey } } from Local.next_of_unmarked rfl rfl rfl]
  have h₅ := h₄.own { s₄.own with rkey := mr.rkey } rfl
  generalize { s₄ with own := { s₄.own with rkey := mr.rkey } } = s₅ at *
  refine safe_step.mpr fun qp _ => ⟨⟨nofun, trivial⟩, ?_⟩
  cases qp with
  | none => exact hone
  | some qp =>
  rw [hnext, show s₅.next (.ibvCreateQp pd (qpInitAttr cq)) (some qp) =
    { s₅ with own := { s₅.own with qpNum := qp.qpNum } } from Local.next_of_unmarked rfl rfl rfl]
  exact fun _ => ⟨buf, rfl, h₅.own _ rfl⟩

theorem resourcesCreate_follows {m : Machine} {cfg : Config}
    (h : At script (.allocated :: .cleared :: (fillMarks cfg ++ rest)) ptr none none s) :
    Safe (follows script) (resourcesCreate m cfg resourcesInit) s (CreatedAt script rest) := by
  unfold resourcesCreate resourcesCreateSteps
  refine Safe.bind (Q := fun x s => CreatedAt script rest (x.1, x.2.1) s) ?_ fun x s hx => ?_
  · refine Safe.bind (quiet_follows (sockConnect_uses_quiet m _ _)) fun sock s' hs' => ?_
    subst hs'
    dsimp only
    split
    · exact fun h => by cases h
    · exact resourcesCreateVerbs_follows h
  · obtain ⟨rc, res, devList⟩ := x
    dsimp only at hx ⊢
    split
    · rename_i hrc
      refine Safe.bind (quiet_follows (resourcesCreateCleanup_uses_quiet res devList))
        fun _ _ _ => ?_
      exact fun h => absurd h hrc
    · exact hx

theorem At.queryMyGid {cfg : Config} {res : Resources} (h : At script rest ptr d k s) :
    Safe (follows script) (queryMyGid cfg res) s fun _ s' => At script rest ptr d k s' := by
  unfold Rdma.queryMyGid
  split
  · refine safe_bind.mpr (safe_deref fun ctx _ => safe_perform.mpr fun x _ => ?_)
    obtain ⟨rc, gid⟩ := x
    have hnext : s.next (.ibvQueryGid ctx (UInt8.ofInt cfg.ibPort) cfg.gidIdx) (rc, gid) =
        { s with own := { s.own with gid := gid } } := Local.next_of_unmarked rfl rfl rfl
    refine ⟨⟨nofun, trivial⟩, ?_⟩
    rw [show (follows script).next = Local.next from rfl, hnext]
    exact h.own _ rfl
  · exact h

theorem connectQp_follows {m : Machine} (hassert : m.ndebug = false) {cfg : Config}
    {res : Resources} (hbuf : res.buf = some ptr)
    (h : At script (connectMarks (recvMarks cfg) ++ rest) ptr none none s) :
    Safe (follows script) (connectQp m cfg res) s fun x s' => x.1 = 0 →
      x.2.buf = some ptr ∧ At script rest ptr (some x.2.remoteProps)
        (if cfg.serverName.isSome then some .recv else none) s' := by
  unfold connectQp
  refine Safe.bind h.queryMyGid fun x s₁ h₁ => ?_
  obtain ⟨rc, myGid⟩ := x
  dsimp only
  split
  · rename_i hrc
    exact fun h => absurd h hrc
  refine safe_bind.mpr (safe_deref fun mr _ => safe_bind.mpr (safe_deref fun qp _ => ?_))
  refine Safe.bind (h₁.sync hassert _ (length_conDataBytes ..)) fun x s₂ h₂ => ?_
  obtain ⟨rc, tmp⟩ := x
  dsimp only at h₂ ⊢
  split
  · exact fun h => by cases h
  rename_i hrc
  refine Safe.bind (h₂ (not_lt.mp hrc)).printRemote fun _ s₃ h₃ => ?_
  -- INIT
  have h₃ : At script (.moved (initAttr cfg).qpState :: _) _ _ _ _ := h₃
  refine Safe.check (At.modify h₃) (fun _ _ hrc _ h => absurd h hrc) fun s₄ h₄ => ?_
  have h₄ := h₄ rfl
  have hrecv : Safe (follows script)
      (if cfg.serverName.isSome then
        postRecv { res with remoteProps := conDataOf m.order tmp } else pure 0) s₄
      fun rc s' => rc = 0 → At script ([.moved .rtr, .moved .rts, .wrote 1] ++ rest) ptr
        (some (conDataOf m.order tmp)) (if cfg.serverName.isSome then some .recv else none) s' := by
    unfold recvMarks at h₄
    by_cases hclient : cfg.serverName.isSome
    · rw [if_pos hclient] at h₄
      rw [if_pos hclient, if_pos hclient]
      exact h₄.postRecv hbuf
    · rw [if_neg hclient] at h₄
      rw [if_neg hclient, if_neg hclient]
      exact fun _ => h₄
  refine Safe.check hrecv (fun _ _ hrc _ h => absurd h hrc) fun s₅ h₅ => ?_
  -- RTR and RTS
  refine Safe.check (At.modify (by rw [rtrAttr_qpState]; exact h₅ rfl))
    (fun _ _ hrc _ h => absurd h hrc) fun s₆ h₆ => ?_
  refine Safe.check (At.modify (show At script (.moved rtsAttr.qpState :: _) _ _ _ _ from h₆ rfl))
    (fun _ _ hrc _ h => absurd h hrc) fun s₇ h₇ => ?_
  refine Safe.bind ((h₇ rfl).letterSync hassert _) fun x s₈ h₈ => ?_
  obtain ⟨rc, _⟩ := x
  dsimp only at h₈ ⊢
  split
  · exact fun h => by cases h
  · rename_i hrc
    exact fun _ => ⟨hbuf, h₈ (not_not.mp hrc)⟩

theorem clientRdma_follows {m : Machine} {res : Resources} (hbuf : res.buf = some ptr)
    (h : At script (rdmaMarks ++ rest) ptr (some res.remoteProps) none s) :
    Safe (follows script) (clientRdma m res) s fun rc s' =>
      rc = 0 → At script rest ptr (some res.remoteProps) none s' := by
  unfold clientRdma
  have hone : ∀ {s'}, (1 : Int) = 0 → At script rest ptr (some res.remoteProps) none s' :=
    fun h => by cases h
  refine Safe.check (At.postSend hbuf (fun _ => rfl) h) (fun _ _ _ _ => hone) fun s₁ h₁ => ?_
  refine Safe.check (h₁ rfl).pollCompletion (fun _ _ _ _ => hone) fun s₂ h₂ => ?_
  refine safe_bind.mpr (safe_deref fun buf hb => ?_)
  obtain rfl := Option.some.inj (hb.symm.trans hbuf)
  refine Safe.bind (h₂ rfl).printBuf fun _ s₃ h₃ => ?_
  refine Safe.bind h₃.strcpy fun _ s₄ h₄ => Safe.bind h₄.printBuf fun _ s₅ h₅ => ?_
  refine Safe.check (At.postSend hbuf (fun _ => rfl) h₅) (fun _ _ _ _ => hone) fun s₆ h₆ => ?_
  refine Safe.check (h₆ rfl).pollCompletion (fun _ _ _ _ => hone) fun s₇ h₇ => ?_
  exact fun _ => h₇ rfl

def transferMarks (cfg : Config) : List Mark :=
  if cfg.serverName.isSome then
    .reaped .recv :: .printed .messageIs :: .wrote 1 :: (rdmaMarks ++ [.wrote 1])
  else
    [.posted (.op .send), .reaped (.op .send), .stored rdmamsgr, .wrote 1, .wrote 1,
      .printed .contentsOfServerBuffer]

theorem rcmainTransfer_follows {m : Machine} (hassert : m.ndebug = false) {cfg : Config}
    {res : Resources} (hbuf : res.buf = some ptr)
    (h : At script (connectMarks (recvMarks cfg) ++ transferMarks cfg) ptr none none s) :
    Safe (follows script) (rcmainTransfer m cfg res) s fun x s' =>
      x.1 = 0 → s'.done = script := by
  unfold rcmainTransfer
  have hone : ∀ {s' : Local}, (1 : Int) = 0 → s'.done = script := fun h => by cases h
  have hend : ∀ {s' : Local} {d k}, At script [] ptr d k s' → s'.done = script := fun h => by
    rw [← h.place, List.append_nil]
  refine Safe.bind (connectQp_follows hassert hbuf h) fun x s₁ h₁ => ?_
  obtain ⟨rc, res'⟩ := x
  dsimp only at h₁ ⊢
  split
  · exact hone
  rename_i hrc
  obtain ⟨hbuf', h₁⟩ := h₁ (not_not.mp hrc)
  unfold transferMarks at h₁
  cases hname : cfg.serverName with
  | some name =>
      rw [hname] at h₁
      refine Safe.checkSame (safe_ret.mpr rfl) (fun _ _ => hone) ?_
      refine Safe.check (At.pollCompletion h₁) (fun _ _ _ _ => hone) fun s₂ h₂ => ?_
      refine safe_bind.mpr (safe_deref fun buf hb => ?_)
      obtain rfl := Option.some.inj (hb.symm.trans hbuf')
      refine Safe.bind (h₂ rfl).printBuf fun _ s₃ h₃ => ?_
      refine Safe.bind (h₃.letterSync hassert _) fun x s₄ h₄ => ?_
      obtain ⟨rc, tempChar⟩ := x
      dsimp only at h₄ ⊢
      split
      · exact hone
      rename_i hrc
      refine Safe.check (clientRdma_follows hbuf' (h₄ (not_not.mp hrc)))
        (fun _ _ _ _ => hone) fun s₅ h₅ => ?_
      refine Safe.bind ((h₅ rfl).letterSync hassert _) fun x s₆ h₆ => ?_
      obtain ⟨rc, _⟩ := x
      dsimp only at h₆ ⊢
      split
      · exact hone
      · rename_i hrc
        exact fun _ => hend (h₆ (not_not.mp hrc))
  | none =>
      rw [hname] at h₁
      refine Safe.check (At.postSend hbuf' (fun h => absurd rfl h) h₁)
        (fun _ _ _ _ => hone) fun s₂ h₂ => ?_
      refine Safe.check (h₂ rfl).pollCompletion (fun _ _ _ _ => hone) fun s₃ h₃ => ?_
      refine safe_bind.mpr (safe_deref fun buf hb => ?_)
      obtain rfl := Option.some.inj (hb.symm.trans hbuf')
      refine Safe.bind (h₃ rfl).strcpy fun _ s₄ h₄ => ?_
      refine Safe.bind (h₄.letterSync hassert _) fun x s₅ h₅ => ?_
      obtain ⟨rc, tempChar⟩ := x
      dsimp only at h₅ ⊢
      split
      · exact hone
      rename_i hrc
      refine Safe.checkSame (safe_ret.mpr rfl) (fun _ _ => hone) ?_
      refine Safe.bind ((h₅ (not_not.mp hrc)).letterSync hassert _) fun x s₆ h₆ => ?_
      obtain ⟨rc, _⟩ := x
      dsimp only at h₆ ⊢
      split
      · exact hone
      · rename_i hrc
        refine Safe.bind (h₆ (not_not.mp hrc)).printBuf fun _ s₇ h₇ => ?_
        exact fun _ => hend h₇

end

def roleScript (cfg : Config) : List Mark :=
  .allocated :: .cleared :: (fillMarks cfg ++ (connectMarks (recvMarks cfg) ++ transferMarks cfg))

theorem roleScript_client {cfg : Config} (h : cfg.serverName.isSome) :
    roleScript cfg = clientScript := by
  obtain ⟨name, hname⟩ := Option.isSome_iff_exists.mp h
  rw [roleScript, fillMarks, recvMarks, transferMarks, hname]
  rfl

theorem roleScript_server {cfg : Config} (h : cfg.serverName = none) :
    roleScript cfg = serverScript := by
  rw [roleScript, fillMarks, recvMarks, transferMarks, h]
  rfl

theorem rcmainBody_follows {m : Machine} (hassert : m.ndebug = false) (cfg : Config) :
    Safe (follows (roleScript cfg)) (rcmainBody m cfg) {} fun rc s' =>
      rc = 0 → s'.done = roleScript cfg := by
  have hstart : At (roleScript cfg) (roleScript cfg) 0 none none {} :=
    ⟨rfl, rfl, le_refl 0, rfl, rfl, rfl, le_refl 0⟩
  unfold rcmainBody
  refine Safe.bind (resourcesCreate_follows hstart) fun x s hx => ?_
  obtain ⟨rc, res⟩ := x
  refine Safe.bind (Q := fun x s' => x.1 = 0 → s'.done = roleScript cfg) ?_ fun x s' hx => ?_
  · refine safe_ite (fun _ h => by cases h) fun hrc => ?_
    obtain ⟨ptr, hbuf, h⟩ := hx (not_not.mp hrc)
    exact rcmainTransfer_follows hassert hbuf h
  obtain ⟨rc, res⟩ := x
  refine Safe.bindSame (quiet_follows (resourcesDestroy_uses_quiet res)) fun rc' hzero => ?_
  split at hzero
  · cases hzero
  · exact hx hzero

end Rdma
end CommSpeed
