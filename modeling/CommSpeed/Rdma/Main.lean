import CommSpeed.Rdma.Resources

namespace CommSpeed
namespace Rdma

open Bytes Prog

/-- The own GID that `connect_qp` sends: the configured table entry, or zeros
without a GID index. -/
def queryMyGid (cfg : Config) (res : Resources) : P (Int × Vector UInt8 16) :=
  if 0 ≤ cfg.gidIdx then do
    let ctx ← deref res.ibCtx
    sys (.ibvQueryGid ctx (UInt8.ofInt cfg.ibPort) cfg.gidIdx)
  else pure (0, Vector.replicate 16 0)

/-- `connect_qp`: the return code and the resources with the peer's data. -/
def connectQp (m : Machine) (cfg : Config) (res : Resources) : P (Int × Resources) := do
  let (rc, myGid) ← queryMyGid cfg res
  if rc ≠ 0 then
    return (rc, res)
  let mr ← deref res.mr
  let qp ← deref res.qp
  let localConData : CmConData :=
    { addr := res.buf.getD 0,
      rkey := mr.rkey,
      qpNum := qp.qpNum,
      lid := res.portAttr.lid,
      gid := myGid }
  let (rc, tmpConData) ← sockSyncData m res.sock 40
    (conDataBytes m.order m.padding localConData) m.tmpConData.toList
  if rc < 0 then
    return (1, res)
  let remoteConData := conDataOf m.order tmpConData
  let res := { res with remoteProps := remoteConData }
  sys (.printRemote remoteConData)
  let rc ← modifyQpToInit cfg qp
  if rc ≠ 0 then
    return (rc, res)
  -- the client posts its receive request before the server can send
  let rc ← (if cfg.serverName.isSome then postRecv res else pure 0)
  if rc ≠ 0 then
    return (rc, res)
  let rc ← modifyQpRtr cfg qp remoteConData.qpNum remoteConData.lid remoteConData.gid
  if rc ≠ 0 then
    return (rc, res)
  let rc ← modifyQpRts qp
  if rc ≠ 0 then
    return (rc, res)
  let (rc, _) ← sockSyncData m res.sock 1 (charBytes ['Q']) [m.tempChar]
  if rc ≠ 0 then
    return (1, res)
  return (0, res)

/-- The RDMA read and write of the client, between the two syncs of `rcmain`. -/
def clientRdma (m : Machine) (res : Resources) : P Int := do
  let rc ← postSend res .rdmaRead
  if rc ≠ 0 then
    return 1
  let rc ← pollCompletion m res
  if rc ≠ 0 then
    return 1
  let buf ← deref res.buf
  sys (.printBuf .contentsOfServersBuffer buf)
  sys (.strcpy buf rdmamsgw)
  sys (.printBuf .replaceItWith buf)
  let rc ← postSend res .rdmaWrite
  if rc ≠ 0 then
    return 1
  let rc ← pollCompletion m res
  if rc ≠ 0 then
    return 1
  return 0

/-- `rcmain` after its resources are created and up to `main_exit`. -/
def rcmainTransfer (m : Machine) (cfg : Config) (res : Resources) : P (Int × Resources) := do
  let (rc, res) ← connectQp m cfg res
  if rc ≠ 0 then
    return (1, res)
  let rc ← (if cfg.serverName.isNone then postSend res .send else pure 0)
  if rc ≠ 0 then
    return (1, res)
  let rc ← pollCompletion m res
  if rc ≠ 0 then
    return (1, res)
  let buf ← deref res.buf
  (if cfg.serverName.isSome then sys (.printBuf .messageIs buf)
    else sys (.strcpy buf rdmamsgr))
  let (rc, tempChar) ← sockSyncData m res.sock 1 (charBytes ['R']) [m.tempChar]
  if rc ≠ 0 then
    return (1, res)
  let rc ← (if cfg.serverName.isSome then clientRdma m res else pure 0)
  if rc ≠ 0 then
    return (1, res)
  let (rc, _) ← sockSyncData m res.sock 1 (charBytes ['W']) tempChar
  if rc ≠ 0 then
    return (1, res)
  (if cfg.serverName.isNone then sys (.printBuf .contentsOfServerBuffer buf) else pure ())
  return (0, res)

/-- `rcmain` from the end of option parsing. -/
def rcmainBody (m : Machine) (cfg : Config) : P Int := do
  let (rc, res) ← resourcesCreate m cfg resourcesInit
  let (rc, res) ← (if rc ≠ 0 then pure (1, res) else rcmainTransfer m cfg res)
  -- main_exit
  let rcDestroy ← resourcesDestroy res
  return if rcDestroy ≠ 0 then 1 else rc

/-! ## An environment without failures

The handler behind the concrete runs: every call succeeds, every `read` returns
all it was asked for, and a poll finds the completion of the last request.  Its
state counts the requests posted. -/

def obliging : (c : Call) → Nat → Option (Reply c × Nat)
  | .socket, n => some ((3 : Int), n)
  | .connect .., n | .bind .., n | .listen .., n | .close .., n => some ((0 : Int), n)
  | .accept .., n => some ((4 : Int), n)
  | .write _ data, n => some ((data.length : Int), n)
  | .read _ len, n => some (ReadReply.got (List.replicate len 0), n)
  | .gettimeofday, n => some ((⟨0, 0⟩ : Timeval), n)
  | .malloc .., n => some (some (4096 : Ptr), n)
  | .free .., n | .memsetZero .., n | .strcpy .., n | .printBuf .., n | .printRemote .., n =>
    some ((), n)
  | .ibvGetDeviceList, n => some (some ((1 : Ptr), [(⟨2, "mlx4_0"⟩ : IbvDevice)]), n)
  | .ibvFreeDeviceList .., n => some ((), n)
  | .ibvOpenDevice .., n => some (some (3 : Ptr), n)
  | .ibvQueryPort .., n => some (((0 : Int), (⟨7⟩ : IbvPortAttr)), n)
  | .ibvQueryGid .., n => some (((0 : Int), Vector.replicate 16 9), n)
  | .ibvAllocPd .., n => some (some (4 : Ptr), n)
  | .ibvCreateCq .., n => some (some (5 : Ptr), n)
  | .ibvRegMr .., n => some (some (⟨6, 60, 61⟩ : IbvMr), n)
  | .ibvCreateQp .., n => some (some (⟨7, 70⟩ : IbvQp), n)
  | .ibvCloseDevice .., n | .ibvDeallocPd .., n | .ibvDestroyCq .., n | .ibvDeregMr .., n
  | .ibvDestroyQp .., n => some ((0 : Int), n)
  | .ibvModifyQp .., n => some ((0 : Int), n)
  | .ibvPostSend .., n | .ibvPostRecv .., n => some ((0 : Int), n + 1)
  | .ibvPollCq .., n => some (PollReply.found ⟨ibvWcSuccess, n - 1⟩, n)

/-- A little-endian host with assertions compiled in. -/
def littleMachine : Machine :=
  { order := .little, ndebug := false, fuel := 4, tmpConData := Vector.replicate 40 0,
    padding := Vector.replicate 6 0, tempChar := 0 }

def clientConfig : Config := { config with serverName := some "10.0.0.1" }

/-- The calls of a run in which nothing fails. -/
def obligingRun (cfg : Config) : List (Event Call Reply) :=
  (play obliging (rcmainBody littleMachine cfg) 0).1

theorem obligingRun_server : Runs (rcmainBody littleMachine config) (obligingRun config) (ret 0) :=
  runs_play obliging (rcmainBody littleMachine config) 0

theorem obligingRun_client :
    Runs (rcmainBody littleMachine clientConfig) (obligingRun clientConfig) (ret 0) :=
  runs_play obliging (rcmainBody littleMachine clientConfig) 0

/-! ## What the transfer leaves alone

Between `resources_create` and `resources_destroy` no object is created or
released, and of the resources only the peer's data changes. -/

/-- The resources of `connect_qp` and later with other data of the peer. -/
def SameObjects (res res' : Resources) : Prop := ∃ props, res' = { res with remoteProps := props }

theorem SameObjects.refl (res : Resources) : SameObjects res res := ⟨res.remoteProps, rfl⟩

/-- The calls of the transfer, with their arguments from the configuration. -/
abbrev transferring (m : Machine) (cfg : Config) (c : Call) : Prop :=
  c.isTransfer ∧ c.Configured m cfg

section

variable (m : Machine) (cfg : Config)

theorem sync_uses (sock : Int) (n : Nat) (l r : List UInt8) :
    Uses (transferring m cfg) (sockSyncData m sock n l r) fun _ => True :=
  sockSyncData_uses ⟨rfl, trivial⟩ ⟨rfl, trivial⟩

theorem poll_uses (res : Resources) :
    Uses (transferring m cfg) (pollCompletion m res) fun _ => True :=
  pollCompletion_uses (U := transferring m cfg) (fun _ => ⟨rfl, trivial⟩) ⟨rfl, trivial⟩ m res

theorem send_uses (res : Resources) (opcode : WrOpcode) :
    Uses (transferring m cfg) (postSend res opcode) fun _ => True :=
  postSend_uses (U := transferring m cfg) (fun _ _ => ⟨rfl, trivial⟩) res opcode

end

theorem queryMyGid_uses {U : Call → Prop} {cfg : Config}
    (h : ∀ ctx, U (.ibvQueryGid ctx (UInt8.ofInt cfg.ibPort) cfg.gidIdx))
    (res : Resources) : Uses U (queryMyGid cfg res) fun _ => True := by
  unfold queryMyGid
  split
  · exact safe_bind.mpr (safe_deref fun _ _ _ _ => ⟨h _, trivial⟩)
  · trivial

theorem connectQp_uses (m : Machine) (cfg : Config) (res : Resources) :
    Uses (transferring m cfg) (connectQp m cfg res) fun x => SameObjects res x.2 := by
  unfold connectQp
  refine Safe.bind (queryMyGid_uses (U := transferring m cfg) (fun _ => ⟨rfl, rfl, rfl⟩) res)
    fun x _ _ => ?_
  obtain ⟨rc, myGid⟩ := x
  dsimp only
  split
  · exact .refl res
  refine safe_bind.mpr (safe_deref fun mr _ => safe_bind.mpr (safe_deref fun qp _ => ?_))
  refine Safe.bind (sync_uses m cfg _ _ _ _) fun x _ _ => ?_
  obtain ⟨rc, tmp⟩ := x
  dsimp only
  split
  · exact .refl res
  refine safe_step.mpr fun _ _ => ⟨⟨rfl, trivial⟩, ?_⟩
  refine safe_step.mpr fun rc _ => ⟨⟨rfl, .inl rfl⟩, ?_⟩
  split
  · exact ⟨_, rfl⟩
  refine Safe.bind (Q := fun _ _ => True) ?_ fun rc _ _ => ?_
  · exact safe_ite (fun _ => postRecv_uses (fun _ _ => ⟨rfl, trivial⟩) _) fun _ => trivial
  split
  · exact ⟨_, rfl⟩
  refine safe_step.mpr fun rc _ => ⟨⟨rfl, .inr (.inl ⟨_, _, _, rfl⟩)⟩, ?_⟩
  split
  · exact ⟨_, rfl⟩
  refine safe_step.mpr fun rc _ => ⟨⟨rfl, .inr (.inr rfl)⟩, ?_⟩
  split
  · exact ⟨_, rfl⟩
  refine Safe.bind (sync_uses m cfg _ _ _ _) fun x _ _ => ?_
  obtain ⟨rc, _⟩ := x
  dsimp only
  split
  · exact ⟨_, rfl⟩
  · exact ⟨_, rfl⟩

theorem clientRdma_uses (m : Machine) (cfg : Config) (res : Resources) :
    Uses (transferring m cfg) (clientRdma m res) fun _ => True := by
  unfold clientRdma
  refine Safe.bind (send_uses m cfg res .rdmaRead) fun rc _ _ => ?_
  split
  · trivial
  refine Safe.bind (poll_uses m cfg res) fun rc _ _ => ?_
  split
  · trivial
  refine safe_bind.mpr (safe_deref fun buf _ => ?_)
  refine safe_step.mpr fun _ _ => ⟨⟨rfl, trivial⟩, safe_step.mpr fun _ _ => ⟨⟨rfl, trivial⟩, ?_⟩⟩
  refine safe_step.mpr fun _ _ => ⟨⟨rfl, trivial⟩, ?_⟩
  refine Safe.bind (send_uses m cfg res .rdmaWrite) fun rc _ _ => ?_
  split
  · trivial
  refine Safe.bind (poll_uses m cfg res) fun rc _ _ => ?_
  split <;> trivial

theorem rcmainTransfer_uses (m : Machine) (cfg : Config) (res : Resources) :
    Uses (transferring m cfg) (rcmainTransfer m cfg res) fun x => SameObjects res x.2 := by
  unfold rcmainTransfer
  refine Safe.bind (connectQp_uses m cfg res) fun x _ hsame => ?_
  obtain ⟨rc, res'⟩ := x
  dsimp only at hsame ⊢
  split
  · exact hsame
  refine Safe.bind (Q := fun _ _ => True) ?_ fun rc _ _ => ?_
  · exact safe_ite (fun _ => send_uses m cfg res' .send) fun _ => trivial
  split
  · exact hsame
  refine Safe.bind (poll_uses m cfg res') fun rc _ _ => ?_
  split
  · exact hsame
  refine safe_bind.mpr (safe_deref fun buf _ => ?_)
  refine Safe.bind (Q := fun _ _ => True) ?_ fun _ _ _ => ?_
  · exact safe_ite (fun _ => uses_perform ⟨rfl, trivial⟩) fun _ => uses_perform ⟨rfl, trivial⟩
  refine Safe.bind (sync_uses m cfg _ _ _ _) fun x _ _ => ?_
  obtain ⟨rc, tempChar⟩ := x
  dsimp only
  split
  · exact hsame
  refine Safe.bind (Q := fun _ _ => True) ?_ fun rc _ _ => ?_
  · exact safe_ite (fun _ => clientRdma_uses m cfg res') fun _ => trivial
  split
  · exact hsame
  refine Safe.bind (sync_uses m cfg _ _ _ _) fun x _ _ => ?_
  obtain ⟨rc, _⟩ := x
  dsimp only
  split
  · exact hsame
  refine Safe.bind (Q := fun _ _ => True) ?_ fun _ _ _ => hsame
  exact safe_ite (fun _ => uses_perform ⟨rfl, trivial⟩) fun _ => trivial

theorem rcmainTransfer_uses_transfer (m : Machine) (cfg : Config) (res : Resources) :
    Uses (fun c => c.isTransfer) (rcmainTransfer m cfg res) fun x => SameObjects res x.2 :=
  (rcmainTransfer_uses m cfg res).weaken fun _ h => h.1

/-- Every argument that a run takes from the configuration is what the source makes
of it. -/
theorem rcmainBody_configured (m : Machine) (cfg : Config) :
    Uses (fun c => c.Configured m cfg) (rcmainBody m cfg) fun _ => True := by
  unfold rcmainBody
  have hcreate := (resourcesCreate_uses m cfg resourcesInit).weaken
    fun c (h : creating m cfg c) => h.2
  refine Safe.bind hcreate fun x _ _ => ?_
  obtain ⟨rc, res⟩ := x
  have htransfer := (rcmainTransfer_uses m cfg res).weaken
    fun c (h : transferring m cfg c) => h.2
  refine Safe.bind (Q := fun _ _ => True) ?_ fun x _ _ => ?_
  · exact safe_ite (fun _ => trivial) fun _ => htransfer.mono fun _ _ _ => trivial
  have hdestroy : Uses (fun c => c.Configured m cfg) (resourcesDestroy x.2) fun _ => True :=
    (resourcesDestroy_uses_closing x.2).weaken fun _ => Call.configured_of_isClosing
  exact Safe.bind hdestroy fun _ _ _ => trivial

end Rdma
end CommSpeed
