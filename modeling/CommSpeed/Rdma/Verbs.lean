import CommSpeed.Rdma.Sock

namespace CommSpeed
namespace Rdma

open Bytes Prog

/-- `MAX_POLL_CQ_TIMEOUT`, in milliseconds. -/
def maxPollCqTimeout : UInt64 := 2000

/-- One turn of the polling loop. -/
def pollLoopBody (cq : Ptr) (startTimeMsec : UInt64) (_ : Unit) : P (Unit ⊕ PollReply) := do
  let pollResult ← sys (.ibvPollCq cq 1)
  let curTime ← sys .gettimeofday
  if pollResult = .empty ∧ curTime.msec - startTimeMsec < maxPollCqTimeout then
    return .inl ()
  else
    return .inr pollResult

def pollCompletion (m : Machine) (res : Resources) : P Int := do
  let cq ← deref res.cq
  let curTime ← sys .gettimeofday
  let pollResult ← iterate m.fuel (pollLoopBody cq curTime.msec) ()
  match pollResult with
  | .failed => return 1
  | .empty => return 1
  | .found wc => return if wc.status ≠ ibvWcSuccess then 1 else 0

/-- The scatter-gather entry of both kinds of request: the whole message buffer. -/
def bufSge (buf : Ptr) (mr : IbvMr) : IbvSge :=
  { addr := buf, length := msgSize, lkey := mr.lkey }

/-- `post_send`.  The remote address and key stay zero in send mode. -/
def postSend (res : Resources) (opcode : WrOpcode) : P Int := do
  let mr ← deref res.mr
  let qp ← deref res.qp
  let sr : IbvSendWr :=
    { wrId := 0, sge := bufSge (res.buf.getD 0) mr, opcode := opcode, signaled := true }
  let sr : IbvSendWr := if opcode ≠ .send then
    { sr with remoteAddr := res.remoteProps.addr, rkey := res.remoteProps.rkey } else sr
  sys (.ibvPostSend qp.ptr sr)

def postRecv (res : Resources) : P Int := do
  let mr ← deref res.mr
  let qp ← deref res.qp
  sys (.ibvPostRecv qp.ptr { wrId := 0, sge := bufSge (res.buf.getD 0) mr })

/-- The access flags of the memory region and of the queue pair. -/
def accessFlags : List AccessFlag := [.localWrite, .remoteRead, .remoteWrite]

/-- The attributes that `modify_qp_to_init` sets. -/
def initAttr (cfg : Config) : IbvQpAttr :=
  { qpState := .init,
    portNum := UInt8.ofInt cfg.ibPort,
    pkeyIndex := 0,
    qpAccessFlags := accessFlags }

def modifyQpToInit (cfg : Config) (qp : IbvQp) : P Int :=
  sys (.ibvModifyQp qp.ptr (initAttr cfg) [.state, .pkeyIndex, .port, .accessFlags])

/-- The attributes that `modify_qp_rtr` sets.  With a GID index the port of the
address vector is set a second time, to 1. -/
def rtrAttr (cfg : Config) (remoteQpn : UInt32) (dlid : UInt16) (dgid : Vector UInt8 16) :
    IbvQpAttr :=
  let attr : IbvQpAttr :=
    { qpState := .rtr,
      pathMtu := ibvMtu256,
      destQpNum := remoteQpn,
      rqPsn := 0,
      maxDestRdAtomic := 1,
      minRnrTimer := 0x12,
      ahAttr :=
        { isGlobal := 0,
          dlid := dlid,
          sl := 0,
          srcPathBits := 0,
          portNum := UInt8.ofInt cfg.ibPort } }
  if 0 ≤ cfg.gidIdx then
    { attr with
      ahAttr :=
        { attr.ahAttr with
          isGlobal := 1,
          portNum := 1,
          grh :=
            { dgid := dgid,
              flowLabel := 0,
              hopLimit := 1,
              sgidIndex := UInt8.ofInt cfg.gidIdx,
              trafficClass := 0 } } }
  else attr

theorem rtrAttr_qpState (cfg : Config) (remoteQpn : UInt32) (dlid : UInt16)
    (dgid : Vector UInt8 16) : (rtrAttr cfg remoteQpn dlid dgid).qpState = .rtr := by
  unfold rtrAttr
  split <;> rfl

/-- The fields of the connection that the global route leaves alone. -/
theorem rtrAttr_peer (cfg : Config) (remoteQpn : UInt32) (dlid : UInt16)
    (dgid : Vector UInt8 16) :
    (rtrAttr cfg remoteQpn dlid dgid).destQpNum = remoteQpn ∧
    (rtrAttr cfg remoteQpn dlid dgid).ahAttr.dlid = dlid ∧
    (rtrAttr cfg remoteQpn dlid dgid).rqPsn = 0 ∧
    (rtrAttr cfg remoteQpn dlid dgid).maxDestRdAtomic = 1 := by
  unfold rtrAttr
  split <;> exact ⟨rfl, rfl, rfl, rfl⟩

def modifyQpRtr (cfg : Config) (qp : IbvQp) (remoteQpn : UInt32) (dlid : UInt16)
    (dgid : Vector UInt8 16) : P Int :=
  sys (.ibvModifyQp qp.ptr (rtrAttr cfg remoteQpn dlid dgid)
    [.state, .av, .pathMtu, .destQpn, .rqPsn, .maxDestRdAtomic, .minRnrTimer])

/-- The attributes that `modify_qp_rts` sets. -/
def rtsAttr : IbvQpAttr :=
  { qpState := .rts,
    timeout := 0x12,
    retryCnt := 6,
    rnrRetry := 0,
    sqPsn := 0,
    maxRdAtomic := 1 }

def modifyQpRts (qp : IbvQp) : P Int :=
  sys (.ibvModifyQp qp.ptr rtsAttr
    [.state, .timeout, .retryCnt, .rnrRetry, .sqPsn, .maxQpRdAtomic])

/-- The arguments that come from the configuration are what the source makes of it. -/
def Call.Configured (m : Machine) (cfg : Config) : Call → Prop
  | .connect _ _ sinPort | .bind _ sinPort => sinPort = htons m.order cfg.tcpPort.toUInt16
  | .ibvQueryPort _ portNum => portNum = UInt8.ofInt cfg.ibPort
  | .ibvQueryGid _ portNum index => portNum = UInt8.ofInt cfg.ibPort ∧ index = cfg.gidIdx
  | .ibvModifyQp _ attr _ =>
    attr = initAttr cfg ∨ (∃ remoteQpn dlid dgid, attr = rtrAttr cfg remoteQpn dlid dgid) ∨
      attr = rtsAttr
  | _ => True

theorem Call.configured_of_isClosing {m : Machine} {cfg : Config} {c : Call} (h : c.isClosing) :
    c.Configured m cfg := by
  cases c <;> trivial

theorem pollCompletion_uses {U : Call → Prop} (hp : ∀ cq, U (.ibvPollCq cq 1))
    (ht : U .gettimeofday) (m : Machine) (res : Resources) :
    Uses U (pollCompletion m res) fun _ => True := by
  refine safe_bind.mpr (safe_deref fun cq _ => ?_)
  refine safe_step.mpr fun t _ => ⟨ht, safe_bind.mpr ?_⟩
  refine safe_iterate (I := fun _ _ => True) trivial fun _ _ _ => ?_
  · refine safe_step.mpr fun r _ => ⟨hp cq, safe_step.mpr fun t' _ => ⟨ht, ?_⟩⟩
    split
    · trivial
    · cases r <;> trivial

theorem postSend_uses {U : Call → Prop} (hp : ∀ qp wr, U (.ibvPostSend qp wr))
    (res : Resources) (opcode : WrOpcode) : Uses U (postSend res opcode) fun _ => True :=
  safe_bind.mpr (safe_deref fun _ _ => safe_bind.mpr (safe_deref fun _ _ _ _ => ⟨hp _ _, trivial⟩))

theorem postRecv_uses {U : Call → Prop} (hp : ∀ qp wr, U (.ibvPostRecv qp wr))
    (res : Resources) : Uses U (postRecv res) fun _ => True :=
  safe_bind.mpr (safe_deref fun _ _ => safe_bind.mpr (safe_deref fun _ _ _ _ => ⟨hp _ _, trivial⟩))

end Rdma
end CommSpeed
