/-
A server and a client connected by two byte streams.

Each side runs its program call by call.  A `read` returns any nonempty piece of
what the peer has put on its stream and this side has not consumed, the end of
the stream or an error; a `write` may be short; the adapter executes the posted
requests in order, at any time, and reports a success only after it.  A `SEND`, a
`READ` and a `WRITE` copy the message between the memories of the two hosts at
the addresses in their requests.

The pair is simulated by the protocol of `CommSpeed/Rdma/Handshake.lean`.
-/
import Mathlib.Data.List.Forall2
import Mathlib.Logic.Function.Basic
import CommSpeed.Rdma.Roles

namespace CommSpeed
namespace Rdma

open Bytes Prog

/-- The memory of a host: the bytes from each address on. -/
abbrev Memory := Ptr → List UInt8

def Memory.store (mem : Memory) (ptr : Ptr) (bs : List UInt8) : Memory :=
  Function.update mem ptr (overlay bs (mem ptr))

def Memory.after (mem : Memory) : Call → Memory
  | .memsetZero ptr size => mem.store ptr (List.replicate size 0)
  | .strcpy ptr src => mem.store ptr (src ++ [0])
  | _ => mem

def Memory.lines (mem : Memory) : Call → List (BufLine × List UInt8)
  | .printBuf line ptr => [(line, cString (mem ptr))]
  | _ => []

structure Side where
  prog : P Int
  loc : Local := {}
  mem : Memory
  /-- The number of requests the adapter has executed. -/
  executed : Nat := 0
  printed : List (BufLine × List UInt8) := []

namespace Side

/-- The side after the call `c` was answered by `r`. -/
def act (X : Side) (c : Call) (r : Reply c) (next : P Int) : Side :=
  { X with
    prog := next,
    loc := X.loc.next c r,
    mem := X.mem.after c,
    printed := X.printed ++ X.mem.lines c }

/-- The answers a side with peer `Y` can get. -/
def Answers (X Y : Side) : (c : Call) → Reply c → Prop
  | .read _ len, .got bs => bs <+: Y.loc.sent.drop X.loc.consumed ∧ bs.length ≤ len
  | .write _ data, rc => rc ≤ data.length
  | .ibvPollCq .., .found wc => X.loc.reaped < X.loc.requests.length ∧
    (wc.status = ibvWcSuccess → X.loc.reaped < X.executed)
  | _, _ => True

/-- One step of a side `X` with peer `Y`: a call of its program, or the adapter
executing its next request. -/
inductive Step (X Y : Side) : Side → Side → Prop
  | call {c next r} (hprog : X.prog = .call c next) (ha : X.Answers Y c r) :
      Step X Y (X.act c r (next r)) Y
  | send {wr rr} (hx : X.loc.requests[X.executed]? = some (.send wr)) (hop : wr.opcode = .send)
      (hy : Y.loc.requests[Y.executed]? = some (.recv rr)) :
      Step X Y { X with executed := X.executed + 1 }
        { Y with
          executed := Y.executed + 1,
          mem := Y.mem.store rr.sge.addr ((X.mem wr.sge.addr).take wr.sge.length) }
  | read {wr} (hx : X.loc.requests[X.executed]? = some (.send wr)) (hop : wr.opcode = .rdmaRead) :
      Step X Y { X with
        executed := X.executed + 1,
        mem := X.mem.store wr.sge.addr ((Y.mem wr.remoteAddr).take wr.sge.length) } Y
  | write {wr} (hx : X.loc.requests[X.executed]? = some (.send wr))
      (hop : wr.opcode = .rdmaWrite) :
      Step X Y { X with executed := X.executed + 1 }
        { Y with mem := Y.mem.store wr.remoteAddr ((X.mem wr.sge.addr).take wr.sge.length) }

def Starts (X : Side) (client : Bool) : Prop :=
  ∃ m cfg, m.ndebug = false ∧ cfg.serverName.isSome = client ∧
    X = { prog := rcmainBody m cfg, mem := X.mem }

end Side

structure Pair where
  client : Side
  server : Side

/-- The two sides, interleaved in any way. -/
def connected : TransitionSystem Pair where
  init g := g.client.Starts true ∧ g.server.Starts false
  step g g' := g.client.Step g.server g'.client g'.server ∨
    g.server.Step g.client g'.server g'.client

/-! ## One side on its own -/

/-- What the calls of a side have added up to so far. -/
structure Local.Inv (s : Local) : Prop where
  kinds : s.requests.map Request.kind = Rdma.requests s.done
  aligned : ∀ q ∈ s.requests, q.sge.addr = s.own.addr ∧ q.sge.length = msgSize
  remote : ∀ wr, .send wr ∈ s.requests → wr.opcode ≠ .send →
    ∃ d, s.decoded = some d ∧ wr.remoteAddr = d.addr
  reaped : reapedCount s.done ≤ s.reaped
  decoded : s.decoded ≠ none → .decoded ∈ s.done

inductive Local.Makes (s : Local) : (c : Call) → Reply c → Mark → Prop
  | malloc {size ptr} : Makes s (.malloc size) (some ptr) .allocated
  | memsetZero {ptr size} : Makes s (.memsetZero ptr size) () .cleared
  | strcpy {ptr src} : Makes s (.strcpy ptr src) () (.stored src)
  | printBuf {line ptr} : Makes s (.printBuf line ptr) () (.printed line)
  | printRemote {props} : Makes s (.printRemote props) () .decoded
  | write {fd data} : Makes s (.write fd data) (data.length : Int) (.wrote data.length)
  | ibvModifyQp {qp attr mask} : Makes s (.ibvModifyQp qp attr mask) (0 : Int) (.moved attr.qpState)
  | ibvPostRecv {qp wr} : Makes s (.ibvPostRecv qp wr) (0 : Int) (.posted .recv)
  | ibvPostSend {qp wr} : Makes s (.ibvPostSend qp wr) (0 : Int) (.posted (.op wr.opcode))
  | ibvPollCq {cq n wc q} (hstatus : wc.status = ibvWcSuccess)
      (hq : s.requests[s.reaped]? = some q) :
    Makes s (.ibvPollCq cq n) (.found wc) (.reaped q.kind)

namespace Local

variable {script : List Mark} {s s' : Local} {c : Call} {r : Reply c} {mk : Mark}

theorem makes_of_mark (hmk : s.mark c r = some mk) : s.Makes c r mk := by
  cases c with
  | malloc size =>
      cases r with
      | none => cases hmk
      | some ptr =>
          cases hmk
          exact .malloc
  | memsetZero =>
      cases hmk
      exact .memsetZero
  | strcpy =>
      cases hmk
      exact .strcpy
  | printBuf =>
      cases hmk
      exact .printBuf
  | printRemote =>
      cases hmk
      exact .printRemote
  | write | ibvModifyQp | ibvPostRecv | ibvPostSend =>
      rw [mark] at hmk
      split at hmk
      · rename_i hrc
        subst hrc
        cases hmk
        constructor
      · cases hmk
  | ibvPollCq cq n =>
      cases r with
      | failed | empty => cases hmk
      | found wc =>
          rw [mark] at hmk
          split at hmk
          · rename_i hstatus
            obtain ⟨q, hq, rfl⟩ := Option.map_eq_some_iff.mp hmk
            exact .ibvPollCq hstatus hq
          · cases hmk
  | _ => cases hmk

/-- What a call that makes a mark adds to the counts. -/
theorem track_of_mark (h : s.Makes c r mk) :
    (s.track c r).sent.length = s.sent.length + mk.bytes ∧
      (s.track c r).consumed = s.consumed := by
  cases h with
  | write =>
      refine ⟨?_, rfl⟩
      rw [track, Int.toNat_natCast, List.take_length, List.length_append]
      rfl
  | _ => exact ⟨rfl, rfl⟩

/-- A call that makes no mark posts nothing, reaps nothing and leaves the message
buffer and its address alone. -/
theorem track_of_unmarked (hmk : s.mark c r = none) :
    (s.track c r).requests = s.requests ∧ s.reaped ≤ (s.track c r).reaped ∧
      ∀ mem : Memory, mem.after c = mem ∧ mem.lines c = [] := by
  cases c with
  | malloc | ibvRegMr | ibvCreateQp => cases r <;> exact ⟨rfl, le_refl _, fun _ => ⟨rfl, rfl⟩⟩
  | ibvPollCq =>
      cases r with
      | failed | empty => exact ⟨rfl, le_refl _, fun _ => ⟨rfl, rfl⟩⟩
      | found => exact ⟨rfl, Nat.le_succ _, fun _ => ⟨rfl, rfl⟩⟩
  | ibvPostRecv | ibvPostSend =>
      rw [mark] at hmk
      split at hmk
      · cases hmk
      · rename_i hrc
        rw [track, if_neg hrc]
        exact ⟨rfl, le_refl _, fun _ => ⟨rfl, rfl⟩⟩
  | memsetZero | strcpy | printBuf => cases hmk
  | _ => exact ⟨rfl, le_refl _, fun _ => ⟨rfl, rfl⟩⟩

/-- Without a mark only reads and writes change the counts. -/
theorem counts_of_unmarked (hmk : s.mark c r = none) (hread : ∀ fd n, c ≠ .read fd n)
    (hwrite : ∀ fd data, c ≠ .write fd data) :
    (s.track c r).sent = s.sent ∧ (s.track c r).consumed = s.consumed := by
  cases c with
  | read fd n => exact absurd rfl (hread fd n)
  | write fd data => exact absurd rfl (hwrite fd data)
  | malloc | ibvRegMr | ibvCreateQp | ibvPollCq => cases r <;> exact ⟨rfl, rfl⟩
  | ibvPostRecv | ibvPostSend =>
      rw [track]
      split <;> exact ⟨rfl, rfl⟩
  | _ => exact ⟨rfl, rfl⟩

theorem track_decoded (hc : s.mark c r ≠ some .decoded) : (s.track c r).decoded = s.decoded := by
  cases c with
  | printRemote props => exact absurd rfl hc
  | malloc | ibvRegMr | ibvCreateQp | ibvPollCq => cases r <;> rfl
  | ibvPostRecv | ibvPostSend => rw [track]; split <;> rfl
  | _ => rfl

theorem track_addr (hc : s.mark c r ≠ some .allocated) :
    (s.track c r).own.addr = s.own.addr := by
  cases c with
  | malloc =>
      cases r with
      | none => rfl
      | some ptr => exact absurd rfl hc
  | ibvRegMr | ibvCreateQp | ibvPollCq => cases r <;> rfl
  | ibvPostRecv | ibvPostSend => rw [track]; split <;> rfl
  | _ => rfl

theorem next_done (hmk : s.mark c r = some mk) : (s.next c r).done = s.done ++ [mk] :=
  congrArg done (next_of_mark hmk)

/-- Calls that neither post nor set what requests refer to. -/
theorem Inv.same (h : s.Inv)
    (hmark : ∀ mk, s.mark c r = some mk → mk.request = none ∧ mk.isReaped = false)
    (hreq : (s.track c r).requests = s.requests) (hreaped : s.reaped ≤ (s.track c r).reaped)
    (haddr : (s.track c r).own.addr = s.own.addr) (hdec : (s.track c r).decoded = s.decoded) :
    (s.next c r).Inv := by
  have hkinds : Rdma.requests (s.next c r).done = Rdma.requests s.done ∧
      reapedCount (s.next c r).done = reapedCount s.done := by
    rw [next]
    cases hmk : s.mark c r with
    | none => simp
    | some mk => simp [hmark mk hmk]
  refine ⟨?_, ?_, ?_, ?_, fun hd => ?_⟩
  · exact (congrArg _ hreq).trans (h.kinds.trans hkinds.1.symm)
  · intro q hq
    have hq' : q ∈ s.requests := hreq ▸ hq
    exact ⟨(h.aligned q hq').1.trans haddr.symm, (h.aligned q hq').2⟩
  · intro wr hwr hop
    have hwr' : .send wr ∈ s.requests := hreq ▸ hwr
    obtain ⟨d, hd, haddr⟩ := h.remote wr hwr' hop
    exact ⟨d, hdec.trans hd, haddr⟩
  · rw [hkinds.2]
    exact h.reaped.trans hreaped
  · exact List.mem_append_left _ (h.decoded fun hnone => hd (hdec.trans hnone))

/-- Where a mark is made that requests refer to, nothing has been posted. -/
theorem Inv.set (h : s.Inv) (hset : SetPlace (s.done ++ [mk]))
    (hmk : mk = .allocated ∨ mk = .decoded) (hdone : s'.done = s.done ++ [mk])
    (hreq : s'.requests = s.requests) (hreaped : s'.reaped = s.reaped)
    (hdec : s'.decoded ≠ none → .decoded ∈ s'.done) : s'.Inv := by
  have hnil : Rdma.requests (s.done ++ [mk]) = [] := hset.unposted mk (by simp) hmk
  have hnone : s'.requests = [] := by
    rw [requests_append] at hnil
    rw [hreq, ← List.map_eq_nil_iff (f := Request.kind), h.kinds]
    exact (List.append_eq_nil_iff.mp hnil).1
  refine ⟨?_, ?_, ?_, ?_, hdec⟩
  · rw [hdone, hnil, hnone]
    rfl
  · rw [hnone]
    exact nofun
  · rw [hnone]
    exact nofun
  · rw [hdone, reapedCount_append, hreaped]
    rcases hmk with rfl | rfl <;> exact h.reaped

theorem Inv.post (h : s.Inv) {q : Request}
    (haligned : q.sge.addr = s.own.addr ∧ q.sge.length = msgSize)
    (hremote : ∀ wr, q = .send wr → wr.opcode ≠ .send →
      ∃ d, s.decoded = some d ∧ wr.remoteAddr = d.addr) :
    Inv { s with done := s.done ++ [.posted q.kind], requests := s.requests ++ [q] } := by
  refine ⟨?_, ?_, ?_, ?_, fun hd => List.mem_append_left _ (h.decoded hd)⟩
  · rw [requests_append, List.map_append, h.kinds]
    rfl
  · intro q' hq'
    rcases List.mem_append.mp hq' with hq' | hq'
    · exact h.aligned q' hq'
    · obtain rfl := List.mem_singleton.mp hq'
      exact haligned
  · intro wr hwr
    rcases List.mem_append.mp hwr with hwr | hwr
    · exact h.remote wr hwr
    · exact hremote wr (List.mem_singleton.mp hwr).symm
  · rw [reapedCount_append]
    exact h.reaped

theorem Inv.reap (h : s.Inv) (k : Kind) :
    Inv { s with done := s.done ++ [.reaped k], reaped := s.reaped + 1 } := by
  refine ⟨?_, h.aligned, h.remote, ?_, fun hd => List.mem_append_left _ (h.decoded hd)⟩
  · rw [requests_append, h.kinds]
    simp [Mark.request]
  · rw [reapedCount_append]
    exact Nat.succ_le_succ h.reaped

theorem Inv.next (h : s.Inv) (hscript : script = clientScript ∨ script = serverScript)
    (hok : (follows script).ok s c r) : (s.next c r).Inv := by
  cases hmk : s.mark c r with
  | none =>
      obtain ⟨hreq, hreaped, -⟩ := s.track_of_unmarked hmk
      refine h.same (fun mk hmk' => ?_) hreq hreaped (s.track_addr ?_) (s.track_decoded ?_)
      · rw [hmk] at hmk'
        cases hmk'
      · rw [hmk]
        exact nofun
      · rw [hmk]
        exact nofun
  | some mk =>
      have hset := setPlace hscript (hok.1 mk hmk).1
      have hdone := s.next_done hmk
      cases s.makes_of_mark hmk with
      | malloc =>
          refine h.set hset (.inl rfl) hdone rfl rfl fun hd => ?_
          exact List.mem_append_left _ (h.decoded hd)
      | printRemote =>
          refine h.set hset (.inr rfl) hdone rfl rfl fun _ => ?_
          exact List.mem_append_right _ (List.mem_singleton_self _)
      | @ibvPostRecv qp wr => exact h.post (q := .recv wr) hok.2 nofun
      | @ibvPostSend qp wr =>
          refine h.post (q := .send wr) hok.2.1 fun wr' hwr' => ?_
          cases hwr'
          exact hok.2.2
      | @ibvPollCq cq n wc q hstatus hq =>
          have hnext : s.next (.ibvPollCq cq n) (.found wc) =
              { s with done := s.done ++ [.reaped q.kind], reaped := s.reaped + 1 } :=
            next_of_mark hmk
          rw [hnext]
          exact h.reap q.kind
      | memsetZero | strcpy | printBuf | write | ibvModifyQp =>
          refine h.same (fun mk' hmk' => ?_) rfl (le_refl _) rfl rfl
          obtain rfl := Option.some.inj (hmk.symm.trans hmk')
          exact ⟨rfl, rfl⟩

end Local

/-! ## Strings in the message buffer -/

/-- The block starts with the string `t`, which fits the message buffer. -/
def Holds (block t : List UInt8) : Prop :=
  (∃ rest, block = t ++ 0 :: rest) ∧ t.length < msgSize ∧ 0 ∉ t

section

variable {block old t : List UInt8}

theorem Holds.cString (h : Holds block t) : cString block = t := by
  obtain ⟨⟨rest, rfl⟩, -, hzero⟩ := h
  exact cString_terminated hzero rest

/-- The first 64 bytes of a block carry its string over. -/
theorem Holds.copied (h : Holds block t) : Holds (overlay (block.take msgSize) old) t := by
  obtain ⟨⟨rest, rfl⟩, hlen, hzero⟩ := h
  obtain ⟨k, hk⟩ := Nat.exists_eq_add_of_lt hlen
  refine ⟨⟨rest.take k ++ old.drop ((t ++ 0 :: rest).take msgSize).length, ?_⟩, hlen, hzero⟩
  rw [overlay]
  have htake : (t ++ 0 :: rest).take msgSize = t ++ 0 :: rest.take k := by
    rw [hk, Nat.add_assoc, List.take_length_add_append, List.take_succ_cons]
  rw [htake, List.append_assoc, List.cons_append]

theorem holds_strcpy (hlen : t.length < msgSize) (hzero : 0 ∉ t) :
    Holds (overlay (t ++ [0]) old) t :=
  ⟨⟨old.drop (t ++ [0]).length, by rw [overlay, List.append_assoc, List.singleton_append]⟩,
    hlen, hzero⟩

theorem holds_memsetZero : Holds (overlay (List.replicate msgSize 0) old) [] :=
  ⟨⟨List.replicate 63 0 ++ old.drop 64, rfl⟩, by decide, List.not_mem_nil⟩

end

/-! ## A side and its party -/

/-- A printed line and what is known of it. -/
def Shown (p : BufLine × List UInt8) (q : BufLine × Option (List UInt8)) : Prop :=
  p.1 = q.1 ∧ ∀ t, q.2 = some t → p.2 = t

/-- The side `X` of a pair and the party `A` of the protocol. -/
structure Side.Rel (script : List Mark) (X : Side) (A : Party) : Prop where
  safe : Safe (follows script) X.prog X.loc fun rc s => rc = 0 → s.done = script
  inv : X.loc.Inv
  done : A.done = X.loc.done
  sent : A.sent = X.loc.sent.length
  consumed : A.consumed = X.loc.consumed
  executed : A.executed = X.executed
  text : ∀ t, A.text = some t → Holds (X.mem X.loc.own.addr) t
  printed : List.Forall₂ Shown X.printed A.printed

namespace Side.Rel

variable {script : List Mark} {aimed : Prop} {X Y : Side} {A B : Party} {c : Call}
  {next : Reply c → P Int} {r : Reply c}

theorem step (h : X.Rel script A) (hprog : X.prog = .call c next) (r : Reply c) :
    (follows script).ok X.loc c r ∧
      Safe (follows script) (next r) (X.loc.next c r) fun rc s => rc = 0 → s.done = script := by
  have hsafe := h.safe
  rw [hprog] at hsafe
  exact hsafe r trivial

/-- What a call that makes a mark does to the message buffer. -/
theorem text_of_mark (h : X.Rel script A) {mk : Mark} (hmk : X.loc.Makes c r mk)
    (hok : callOk script X.loc c) (hset : SetPlace (X.loc.done ++ [mk])) {t : List UInt8}
    (ht : mk.textAfter A.text = some t) :
    Holds (X.mem.after c (X.loc.track c r).own.addr) t := by
  have hself : ∀ bs, X.mem.store X.loc.own.addr bs X.loc.own.addr =
      overlay bs (X.mem X.loc.own.addr) := fun bs => Function.update_self _ _ _
  cases hmk with
  | malloc => cases ht
  | memsetZero =>
      obtain ⟨rfl, rfl⟩ := hok
      cases ht
      show Holds (X.mem.store X.loc.own.addr _ X.loc.own.addr) []
      rw [hself]
      exact holds_memsetZero
  | @strcpy ptr src =>
      obtain ⟨hlen, hzero⟩ := hset.text (.stored src) (by simp) src rfl
      obtain rfl : src = t := Option.some.inj ht
      show Holds (X.mem.store ptr _ X.loc.own.addr) src
      rw [show ptr = X.loc.own.addr from hok, hself]
      exact holds_strcpy hlen hzero
  | _ => exact h.text t ht

theorem lines_of_mark (h : X.Rel script A) {mk : Mark} (hmk : X.loc.Makes c r mk)
    (hok : callOk script X.loc c) :
    List.Forall₂ Shown (X.mem.lines c) (mk.line.map fun line => (line, A.text)).toList := by
  cases hmk with
  | @printBuf line ptr =>
      refine .cons ⟨rfl, fun t ht => ?_⟩ .nil
      show cString (X.mem ptr) = t
      rw [show ptr = X.loc.own.addr from hok]
      exact (h.text t ht).cString
  | _ => exact .nil

theorem mark (h : X.Rel script A) (hscript : script = clientScript ∨ script = serverScript)
    (hprog : X.prog = .call c next) {mk : Mark} (hmk : X.loc.mark c r = some mk) :
    (X.act c r (next r)).Rel script (A.make mk) := by
  obtain ⟨hok, hsafe⟩ := h.step hprog r
  have hmakes := X.loc.makes_of_mark hmk
  obtain ⟨hsent, hconsumed⟩ := X.loc.track_of_mark hmakes
  have hset := setPlace hscript (hok.1 mk hmk).1
  refine ⟨hsafe, h.inv.next hscript hok, ?_, ?_, ?_, h.executed, fun t ht => ?_, ?_⟩
  · show A.done ++ [mk] = (X.loc.next c r).done
    rw [h.done, X.loc.next_done hmk]
  · exact (congrArg (· + mk.bytes) h.sent).trans hsent.symm
  · exact h.consumed.trans hconsumed.symm
  · exact h.text_of_mark hmakes hok.2 hset ht
  · exact List.rel_append h.printed (h.lines_of_mark hmakes hok.2)

theorem unmarked (h : X.Rel script A) (hscript : script = clientScript ∨ script = serverScript)
    (hprog : X.prog = .call c next) (hmk : X.loc.mark c r = none) {sent consumed : Nat}
    (hsent : sent = (X.loc.track c r).sent.length)
    (hconsumed : consumed = (X.loc.track c r).consumed) :
    (X.act c r (next r)).Rel script { A with sent := sent, consumed := consumed } := by
  obtain ⟨hok, hsafe⟩ := h.step hprog r
  obtain ⟨hmem, hlines⟩ := (X.loc.track_of_unmarked hmk).2.2 X.mem
  have haddr := X.loc.track_addr (c := c) (r := r) (by rw [hmk]; exact nofun)
  refine ⟨hsafe, h.inv.next hscript hok, ?_, hsent, hconsumed, h.executed, fun t ht => ?_, ?_⟩
  · show A.done = X.loc.done ++ (X.loc.mark c r).toList
    rw [h.done, hmk, Option.toList_none, List.append_nil]
  · show Holds (X.mem.after c (X.loc.track c r).own.addr) t
    rw [hmem, haddr]
    exact h.text t ht
  · show List.Forall₂ Shown (X.printed ++ X.mem.lines c) A.printed
    rw [hlines, List.append_nil]
    exact h.printed

theorem length_take_of_short {data : List UInt8} {rc : Int} (hle : rc ≤ data.length)
    (hne : rc ≠ data.length) :
    (data.take rc.toNat).length < data.length ∨ data.length = 0 := by
  rw [List.length_take]
  omega

/-- A call of a side is a step of its party.  Calls that the protocol does not see
are steps that hear nothing. -/
theorem call (h : X.Rel script A) (hscript : script = clientScript ∨ script = serverScript)
    (hin : A.consumed ≤ B.sent) (hpeer : B.sent = Y.loc.sent.length)
    (hprog : X.prog = .call c next) (ha : X.Answers Y c r) :
    ∃ A', Move script aimed A B A' B ∧ (X.act c r (next r)).Rel script A' := by
  obtain ⟨hok, -⟩ := h.step hprog r
  have hquiet : Move script aimed A B A B := .hear (k := 0) hin
  cases hmk : X.loc.mark c r with
  | some mk =>
      have hmakes := X.loc.makes_of_mark hmk
      refine ⟨A.make mk, .mark ?_ ?_ (fun n hn => ?_) (fun hreaped => ?_),
        h.mark hscript hprog hmk⟩
      · rw [h.done]
        exact (hok.1 mk hmk).1
      · rw [h.done, h.consumed]
        exact (hok.1 mk hmk).2
      · subst hn
        cases hmakes
        rw [h.sent, h.done]
        exact hok.2.2
      · rw [h.done, h.executed]
        cases hmakes with
        | ibvPollCq hstatus => exact h.inv.reaped.trans_lt (ha.2 hstatus)
        | _ => cases hreaped
  | none =>
      have hstay : (∀ fd n, c ≠ .read fd n) → (∀ fd data, c ≠ .write fd data) →
          (X.act c r (next r)).Rel script A := by
        intro hread hwrite
        obtain ⟨hsent, hconsumed⟩ := X.loc.counts_of_unmarked hmk hread hwrite
        exact h.unmarked hscript hprog hmk (h.sent.trans (congrArg _ hsent.symm))
          (h.consumed.trans hconsumed.symm)
      cases c with
      | read fd n =>
          refine ⟨{ A with consumed := A.consumed + r.bytes.length }, .hear ?_,
            h.unmarked hscript hprog hmk h.sent (congrArg (· + r.bytes.length) h.consumed)⟩
          rw [hpeer, h.consumed] at hin ⊢
          cases r with
          | failed => exact hin
          | got bs =>
              have hle := ha.1.length_le
              rw [List.length_drop] at hle
              show X.loc.consumed + bs.length ≤ Y.loc.sent.length
              omega
      | write fd data =>
          have hlen : (X.loc.sent ++ data.take (Int.toNat r)).length =
              A.sent + (data.take (Int.toNat r)).length := by
            rw [List.length_append, h.sent]
          refine ⟨{ A with sent := A.sent + (data.take (Int.toNat r)).length }, ?_,
            h.unmarked hscript hprog hmk hlen.symm h.consumed⟩
          have hne : r ≠ (data.length : Int) := by
            intro hrc
            rw [Local.mark, if_pos hrc] at hmk
            cases hmk
          rcases length_take_of_short ha hne with hshort | hzero
          · refine .short ?_ ?_ hshort
            · rw [h.done]
              exact hok.2.1
            · rw [h.sent, h.done]
              exact hok.2.2
          · rw [List.eq_nil_of_length_eq_zero hzero, List.take_nil]
            exact hquiet
      | _ =>
          refine ⟨A, hquiet, hstay ?_ ?_⟩
          · intro fd n hread
            cases hread
          · intro fd data hwrite
            cases hwrite

theorem request (h : X.Rel script A) {q : Request} (hq : X.loc.requests[X.executed]? = some q) :
    (requests A.done)[A.executed]? = some q.kind ∧ q.sge.addr = X.loc.own.addr ∧
      q.sge.length = msgSize := by
  refine ⟨?_, h.inv.aligned q (List.mem_of_getElem? hq)⟩
  rw [h.done, h.executed, ← h.inv.kinds, List.getElem?_map, hq]
  rfl

/-- The adapter executes a request that leaves the message buffer alone. -/
theorem execute (h : X.Rel script A) :
    { X with executed := X.executed + 1 }.Rel script { A with executed := A.executed + 1 } :=
  { h with executed := congrArg (· + 1) h.executed }

/-- The message buffer is overwritten with the first 64 bytes of a block. -/
theorem copy (h : X.Rel script A) {ptr : Ptr} {block : List UInt8} {t : Option (List UInt8)}
    (ht : ∀ u, t = some u → ptr = X.loc.own.addr ∧ Holds block u) :
    { X with mem := X.mem.store ptr (block.take msgSize) }.Rel script { A with text := t } := by
  refine { h with text := fun u hu => ?_ }
  obtain ⟨rfl, hblock⟩ := ht u hu
  show Holds (X.mem.store X.loc.own.addr _ X.loc.own.addr) u
  rw [Memory.store, Function.update_self]
  exact hblock.copied

end Side.Rel

theorem Side.Starts.rel {X : Side} {client : Bool} (h : X.Starts client) :
    X.Rel (if client then clientScript else serverScript) {} := by
  obtain ⟨m, cfg, hassert, hrole, hX⟩ := h
  have hrun : roleScript cfg = if client then clientScript else serverScript := by
    cases client with
    | true => exact roleScript_client hrole
    | false => exact roleScript_server (Option.not_isSome_iff_eq_none.mp (by rw [hrole]; decide))
  rw [hX]
  have hinv : Local.Inv {} := ⟨rfl, nofun, nofun, le_refl 0, fun h => absurd rfl h⟩
  exact ⟨hrun ▸ rcmainBody_follows hassert cfg, hinv, rfl, rfl, rfl, rfl, nofun, .nil⟩

/-! ## The pair and the protocol -/

/-- The remote address of the client, once decoded, is the server's buffer. -/
def Aimed (g : Pair) : Prop :=
  ∀ d, g.client.loc.decoded = some d → d.addr = g.server.loc.own.addr

structure Pair.Rel (g : Pair) (a : Talk) : Prop where
  client : g.client.Rel clientScript a.client
  server : g.server.Rel serverScript a.server
  aimed : a.aimed ↔ Aimed g

/-- A step of a side is a step of its party, provided that its requests reach the
peer's message buffer whenever the pair is aimed. -/
theorem Side.Step.simulated {script script' : List Mark} {aimed : Prop} {X Y X' Y' : Side}
    {A B : Party} (h : X.Step Y X' Y') (hX : X.Rel script A) (hY : Y.Rel script' B)
    (hscript : script = clientScript ∨ script = serverScript) (hin : A.consumed ≤ B.sent)
    (hremote : aimed → ∀ wr, .send wr ∈ X.loc.requests → wr.opcode ≠ .send →
      wr.remoteAddr = Y.loc.own.addr) :
    ∃ A' B', Move script aimed A B A' B' ∧ X'.Rel script A' ∧ Y'.Rel script' B' := by
  cases h with
  | call hprog ha =>
      obtain ⟨A', hmove, hA'⟩ := hX.call hscript hin hY.sent hprog ha
      exact ⟨A', B, hmove, hA', hY⟩
  | @send wr rr hx hop hy =>
      obtain ⟨hreqX, haddrX, hlenX⟩ := hX.request hx
      obtain ⟨hreqY, haddrY, -⟩ := hY.request hy
      rw [show (Request.send wr).kind = .op .send from congrArg Kind.op hop] at hreqX
      refine ⟨_, _, .send hreqX hreqY, hX.execute, ?_⟩
      rw [show wr.sge.length = msgSize from hlenX]
      exact hY.execute.copy fun t ht => ⟨haddrY, (show wr.sge.addr = _ from haddrX) ▸ hX.text t ht⟩
  | @read wr hx hop =>
      obtain ⟨hreqX, haddrX, hlenX⟩ := hX.request hx
      rw [show (Request.send wr).kind = .op .rdmaRead from congrArg Kind.op hop] at hreqX
      rw [show wr.sge.length = msgSize from hlenX]
      by_cases haim : aimed
      · have haddr := hremote haim wr (List.mem_of_getElem? hx) (by rw [hop]; decide)
        refine ⟨_, B, .read (t := B.text) hreqX fun _ => rfl, hX.execute.copy ?_, hY⟩
        exact fun t ht => ⟨haddrX, haddr ▸ hY.text t ht⟩
      · exact ⟨_, B, .read (t := none) hreqX fun h => absurd h haim,
          hX.execute.copy nofun, hY⟩
  | @write wr hx hop =>
      obtain ⟨hreqX, haddrX, hlenX⟩ := hX.request hx
      rw [show (Request.send wr).kind = .op .rdmaWrite from congrArg Kind.op hop] at hreqX
      rw [show wr.sge.length = msgSize from hlenX]
      by_cases haim : aimed
      · have haddr := hremote haim wr (List.mem_of_getElem? hx) (by rw [hop]; decide)
        refine ⟨_, _, .write (t := A.text) hreqX fun _ => rfl, hX.execute, hY.copy ?_⟩
        exact fun t ht => ⟨haddr, (show wr.sge.addr = _ from haddrX) ▸ hX.text t ht⟩
      · exact ⟨_, _, .write (t := none) hreqX fun h => absurd h haim, hX.execute,
          hY.copy nofun⟩

namespace Pair.Rel

variable {g g' : Pair} {a : Talk}

theorem client_remote (h : g.Rel a) (haim : a.aimed) (wr : IbvSendWr)
    (hwr : .send wr ∈ g.client.loc.requests) (hop : wr.opcode ≠ .send) :
    wr.remoteAddr = g.server.loc.own.addr := by
  obtain ⟨d, hd, haddr⟩ := h.client.inv.remote wr hwr hop
  exact haddr.trans (h.aimed.mp haim d hd)

/-- The server posts nothing that reaches into its peer. -/
theorem server_remote (h : g.Rel a) (ha : a.Inv) (wr : IbvSendWr)
    (hwr : .send wr ∈ g.server.loc.requests) : wr.opcode = .send := by
  have hmem : (Request.send wr).kind ∈ requests a.server.done := by
    rw [h.server.done, ← h.server.inv.kinds]
    exact List.mem_map_of_mem hwr
  have hkind := ha.counts.serverPlace.kinds.subset hmem
  exact Kind.op.inj (List.mem_singleton.mp hkind)

/-- The client is aimed for good once it has decoded the server's data. -/
theorem client_aimed (h : g.Rel a) (hstep : g.client.Step g.server g'.client g'.server)
    (haim : Aimed g') : Aimed g := by
  intro d hd
  obtain ⟨X, Y⟩ := g
  obtain ⟨X', Y'⟩ := g'
  dsimp only at hstep hd
  cases hstep with
  | @call c next r hprog ha =>
      by_cases hprint : X.loc.mark c r = some .decoded
      · have hplace := ((h.client.step hprog r).1.1 .decoded hprint).1
        have hmem := h.client.inv.decoded (by rw [hd]; exact nofun)
        exact absurd (by simpa using hmem)
          ((setPlace (.inl rfl) hplace).undecoded .decoded (by simp) (.inr rfl))
      · exact haim d ((X.loc.track_decoded hprint).trans hd)
  | send | read | write => exact haim d hd

theorem server_aimed (h : g.Rel a) (ha : a.Inv)
    (hstep : g.server.Step g.client g'.server g'.client) (haim : Aimed g') : Aimed g := by
  intro d hd
  obtain ⟨X, Y⟩ := g
  obtain ⟨X', Y'⟩ := g'
  dsimp only at hstep hd
  cases hstep with
  | @call c next r hprog ha' =>
      by_cases hmalloc : Y.loc.mark c r = some .allocated
      · have hplace := ((h.server.step hprog r).1.1 _ hmalloc).1
        rw [← h.server.done] at hplace
        refine absurd ?_ (ha.counts.undecoded_of_alloc hplace)
        rw [h.client.done]
        exact h.client.inv.decoded (by rw [hd]; exact nofun)
      · exact (haim d hd).trans (Y.loc.track_addr hmalloc)
  | send | read | write => exact haim d hd

end Pair.Rel

theorem connected_simulates : connected.Simulates handshake Pair.Rel where
  init g hg := by
    refine ⟨{}, ⟨rfl, rfl⟩, hg.1.rel, hg.2.rel, iff_of_true trivial fun d hd => ?_⟩
    obtain ⟨m, cfg, -, -, hX⟩ := hg.1
    rw [hX] at hd
    cases hd
  step g g' a hR hreach hstep := by
    have ha := handshake_inv hreach
    rcases hstep with hstep | hstep
    · obtain ⟨A', B', hmove, hA', hB'⟩ := hstep.simulated hR.client hR.server (.inl rfl)
        ha.counts.client.consumed hR.client_remote
      exact ⟨⟨A', B', Aimed g'⟩,
        .inr ⟨fun haim => hR.aimed.mpr (hR.client_aimed hstep haim), .inl hmove⟩, hA', hB', Iff.rfl⟩
    · obtain ⟨A', B', hmove, hA', hB'⟩ := hstep.simulated hR.server hR.client (.inr rfl)
        ha.counts.server.consumed fun _ wr hwr hop => absurd (hR.server_remote ha wr hwr) hop
      exact ⟨⟨B', A', Aimed g'⟩,
        .inr ⟨fun haim => hR.aimed.mpr (hR.server_aimed ha hstep haim), .inr hmove⟩, hB', hA',
        Iff.rfl⟩

/-! ## The result -/

/-- A side that has ended with 0 has made every mark of its script. -/
theorem Side.Rel.done_of_zero {script : List Mark} {X : Side} {A : Party} (h : X.Rel script A)
    (hend : X.prog = ret 0) : A.done = script := by
  have hsafe := h.safe
  rw [hend] at hsafe
  exact h.done.trans (hsafe rfl)

theorem printed_of_known {ps : List (BufLine × List UInt8)}
    {known : List (BufLine × List UInt8)}
    (h : List.Forall₂ Shown ps (known.map fun q => (q.1, some q.2))) : ps = known := by
  rw [List.forall₂_map_right_iff] at h
  rw [← List.forall₂_eq_eq_eq]
  exact h.imp fun p q hpq => Prod.ext hpq.1 (hpq.2 q.2 rfl)

/-- Barrier safety.  In every state of every run the server has posted its SEND only
after the client posted its receive and moved to RTS, the client has posted its
READ only after the server copied the second message, and the server has printed
its buffer only after the client reaped its WRITE.  If both sides end with 0 and
have decoded each other's data, every line shows the right message. -/
theorem rcmain_barrier {g : Pair} (h : connected.Reachable g) :
    (.posted (.op .send) ∈ g.server.loc.done →
      .posted .recv ∈ g.client.loc.done ∧ .moved .rts ∈ g.client.loc.done) ∧
    (.posted (.op .rdmaRead) ∈ g.client.loc.done → .stored rdmamsgr ∈ g.server.loc.done) ∧
    (.printed .contentsOfServerBuffer ∈ g.server.loc.done →
      .reaped (.op .rdmaWrite) ∈ g.client.loc.done) ∧
    (g.client.prog = ret 0 → g.server.prog = ret 0 →
      g.client.loc.decoded = some g.server.loc.own →
      g.server.loc.decoded = some g.client.loc.own →
      g.client.printed = [(.messageIs, msg), (.contentsOfServersBuffer, rdmamsgr),
        (.replaceItWith, rdmamsgw)] ∧
      g.server.printed = [(.goingToSend, msg), (.contentsOfServerBuffer, rdmamsgw)]) := by
  obtain ⟨a, hreach, hR⟩ := connected_simulates.reachable h
  have ha := handshake_inv hreach
  rw [← hR.client.done, ← hR.server.done]
  refine ⟨ha.counts.ready_of_send, ha.counts.copied_of_read, ha.counts.reaped_of_print,
    fun hclient hserver hdecoded _ => ?_⟩
  have haim : Aimed g := fun d hd =>
    congrArg CmConData.addr (Option.some.inj (hd.symm.trans hdecoded))
  have hshows := ha.shows (hR.aimed.mpr haim)
  constructor
  · refine printed_of_known ?_
    have hout := hR.client.printed
    rw [hshows.clientOut, hR.client.done_of_zero hclient] at hout
    exact hout
  · refine printed_of_known ?_
    have hout := hR.server.printed
    rw [hshows.serverOut, hR.server.done_of_zero hserver] at hout
    exact hout

/-! ## A complete run

A side answers its own calls for as long as it can, and the adapter executes a
request when it cannot. -/

namespace Side

/-- The answer to a call when nothing fails: a `read` waits for a byte and a poll
for an executed request. -/
def reply (X Y : Side) : (c : Call) → Option (Reply c)
  | .read _ len =>
    if X.loc.consumed < Y.loc.sent.length then
      some (.got ((Y.loc.sent.drop X.loc.consumed).take len))
    else none
  | .ibvPollCq .. =>
    if X.loc.reaped < X.executed ∧ X.loc.reaped < X.loc.requests.length then
      some (.found ⟨ibvWcSuccess, X.loc.reaped⟩)
    else none
  | c => (obliging c 0).map Prod.fst

def transfer (X Y : Side) : Option (Side × Side) :=
  match X.loc.requests[X.executed]?, Y.loc.requests[Y.executed]? with
  | some (.send wr), y =>
    match wr.opcode, y with
    | .send, some (.recv rr) =>
      some ({ X with executed := X.executed + 1 },
        { Y with
          executed := Y.executed + 1,
          mem := Y.mem.store rr.sge.addr ((X.mem wr.sge.addr).take wr.sge.length) })
    | .send, _ => none
    | .rdmaRead, _ =>
      some ({ X with
        executed := X.executed + 1,
        mem := X.mem.store wr.sge.addr ((Y.mem wr.remoteAddr).take wr.sge.length) }, Y)
    | .rdmaWrite, _ =>
      some ({ X with executed := X.executed + 1 },
        { Y with mem := Y.mem.store wr.remoteAddr ((X.mem wr.sge.addr).take wr.sge.length) })
  | _, _ => none

def turn (X Y : Side) : Option (Side × Side) :=
  match X.prog with
  | .call c next =>
    match X.reply Y c with
    | some r => some (X.act c r (next r), Y)
    | none => X.transfer Y
  | _ => X.transfer Y

theorem answers_of_reply {X Y : Side} {c : Call} {r : Reply c} (h : X.reply Y c = some r) :
    X.Answers Y c r := by
  cases c with
  | read fd len =>
      rw [reply] at h
      split at h
      · cases h
        exact ⟨List.take_prefix _ _, List.length_take_le _ _⟩
      · cases h
  | ibvPollCq cq n =>
      rw [reply] at h
      split at h
      · rename_i hready
        cases h
        exact ⟨hready.2, fun _ => hready.1⟩
      · cases h
  | write fd data =>
      cases h
      exact le_refl _
  | _ => trivial

theorem step_of_transfer {X Y : Side} {p : Side × Side} (h : X.transfer Y = some p) :
    X.Step Y p.1 p.2 := by
  unfold transfer at h
  split at h
  · rename_i wr _ hx
    split at h
    · rename_i hop hy
      cases h
      exact .send hx hop hy
    · cases h
    · rename_i hop
      cases h
      exact .read hx hop
    · rename_i hop
      cases h
      exact .write hx hop
  · cases h

theorem step_of_turn {X Y : Side} {p : Side × Side} (h : X.turn Y = some p) :
    X.Step Y p.1 p.2 := by
  unfold turn at h
  split at h
  · rename_i hprog
    split at h
    · rename_i r hr
      cases h
      exact .call hprog (answers_of_reply hr)
    · exact step_of_transfer h
  · exact step_of_transfer h

end Side

/-- The client moves if it can, and else the server. -/
def tick (g : Pair) : Option Pair :=
  match g.client.turn g.server with
  | some p => some ⟨p.1, p.2⟩
  | none => (g.server.turn g.client).map fun p => ⟨p.2, p.1⟩

theorem step_of_tick (g g' : Pair) (h : tick g = some g') : connected.step g g' := by
  unfold tick at h
  split at h
  · rename_i p hp
    cases h
    exact .inl (Side.step_of_turn hp)
  · obtain ⟨p, hp, rfl⟩ := Option.map_eq_some_iff.mp h
    exact .inr (Side.step_of_turn hp)

def startPair : Pair :=
  { client := { prog := rcmainBody littleMachine clientConfig, mem := fun _ => [] },
    server := { prog := rcmainBody littleMachine config, mem := fun _ => [] } }

def endPair : Pair := TransitionSystem.walk tick 95 startPair

theorem endPair_reachable : connected.Reachable endPair :=
  .walk step_of_tick (.init ⟨⟨littleMachine, clientConfig, rfl, rfl, rfl⟩,
    ⟨littleMachine, config, rfl, rfl, rfl⟩⟩) 95

theorem rcmain_barrier_complete :
    endPair.client.printed = [(.messageIs, msg), (.contentsOfServersBuffer, rdmamsgr),
      (.replaceItWith, rdmamsgw)] ∧
    endPair.server.printed = [(.goingToSend, msg), (.contentsOfServerBuffer, rdmamsgw)] :=
  (rcmain_barrier endPair_reachable).2.2.2 (eq_ret_of_result (by decide +kernel))
    (eq_ret_of_result (by decide +kernel)) (by decide +kernel) (by decide +kernel)

end Rdma
end CommSpeed
