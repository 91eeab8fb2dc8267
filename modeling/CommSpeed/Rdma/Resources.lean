import CommSpeed.Rdma.Verbs

namespace CommSpeed
namespace Rdma

open Bytes Prog

/-- `resources_init`: every byte zero and `sock` -1. -/
def resourcesInit : Resources :=
  { portAttr := { lid := 0 },
    remoteProps := { addr := 0, rkey := 0, qpNum := 0, lid := 0, gid := Vector.replicate 16 0 },
    ibCtx := none, pd := none, cq := none, qp := none, mr := none, buf := none, sock := -1 }

/-- The device loop of `resources_create`: the first device with the configured
name, which becomes the name of the first device when none is configured. -/
def findDevice : Option String → List IbvDevice → Option IbvDevice
  | _, [] => none
  | devName, dev :: devs =>
    let name := devName.getD dev.name
    if dev.name = name then some dev else findDevice (some name) devs

def qpInitAttr (cq : Ptr) : IbvQpInitAttr :=
  { qpType := .rc,
    sqSigAll := 1,
    sendCq := cq,
    recvCq := cq,
    cap := { maxSendWr := 1, maxRecvWr := 1, maxSendSge := 1, maxRecvSge := 1 } }

/-- The first contents of the message buffer: the server's message, which the
source copies twice, or zeros. -/
def fillBuffer (cfg : Config) (buf : Ptr) : P Unit :=
  if cfg.serverName.isNone then do
    sys (.strcpy buf msg)
    sys (.strcpy buf msg)
    sys (.printBuf .goingToSend buf)
  else sys (.memsetZero buf msgSize)

/-- The verbs part of `resources_create`, after the connection is there and up to
the exit label: the return code, the resources and the device list that is still
held there. -/
def resourcesCreateVerbs (cfg : Config) (res : Resources) :
    P (Int × Resources × Option Ptr) := do
  let some (devList, devices) ← sys .ibvGetDeviceList
    | return (1, res, none)
  if devices.length = 0 then
    return (1, res, some devList)
  let some ibDev := findDevice cfg.devName devices
    | return (1, res, some devList)
  let ibCtx ← sys (.ibvOpenDevice ibDev.ptr)
  let res := { res with ibCtx := ibCtx }
  let some ctx := ibCtx
    | return (1, res, some devList)
  sys (.ibvFreeDeviceList devList)
  let (rcPort, portAttr) ← sys (.ibvQueryPort ctx (UInt8.ofInt cfg.ibPort))
  let res := { res with portAttr := portAttr }
  if rcPort ≠ 0 then
    return (1, res, none)
  let pd ← sys (.ibvAllocPd ctx)
  let res := { res with pd := pd }
  let some pd := pd
    | return (1, res, none)
  let cq ← sys (.ibvCreateCq ctx 1)
  let res := { res with cq := cq }
  let some cq := cq
    | return (1, res, none)
  let buf ← sys (.malloc msgSize)
  let res := { res with buf := buf }
  let some buf := buf
    | return (1, res, none)
  sys (.memsetZero buf msgSize)
  fillBuffer cfg buf
  let mr ← sys (.ibvRegMr pd buf msgSize accessFlags)
  let res := { res with mr := mr }
  if mr.isNone then
    return (1, res, none)
  let qp ← sys (.ibvCreateQp pd (qpInitAttr cq))
  let res := { res with qp := qp }
  if qp.isNone then
    return (1, res, none)
  return (0, res, none)

/-- `resources_create` up to its exit label. -/
def resourcesCreateSteps (m : Machine) (cfg : Config) (res : Resources) :
    P (Int × Resources × Option Ptr) := do
  let sock ← sockConnect m cfg.serverName cfg.tcpPort
  let res := { res with sock := sock }
  if res.sock < 0 then
    return (-1, res, none)
  resourcesCreateVerbs cfg res

/-- Run `f` on the object of a field that is not null. -/
def ifSome {α : Type} (o : Option α) (f : α → P Unit) : P Unit :=
  match o with
  | some a => f a
  | none => return ()

/-- The failure path behind the exit label of `resources_create`.  The device
context is left to `resources_destroy`. -/
def resourcesCreateCleanup (res : Resources) (devList : Option Ptr) : P Resources := do
  ifSome res.qp fun qp => do let _ ← sys (.ibvDestroyQp qp.ptr)
  ifSome res.mr fun mr => do let _ ← sys (.ibvDeregMr mr.ptr)
  ifSome res.buf fun buf => sys (.free buf)
  ifSome res.cq fun cq => do let _ ← sys (.ibvDestroyCq cq)
  ifSome res.pd fun pd => do let _ ← sys (.ibvDeallocPd pd)
  ifSome devList fun devList => sys (.ibvFreeDeviceList devList)
  let res := { res with qp := none, mr := none, buf := none, cq := none, pd := none }
  if 0 ≤ res.sock then
    let _ ← sys (.close res.sock)
    return { res with sock := -1 }
  return res

def resourcesCreate (m : Machine) (cfg : Config) (res : Resources) : P (Int × Resources) := do
  let (rc, res, devList) ← resourcesCreateSteps m cfg res
  if rc ≠ 0 then
    let res ← resourcesCreateCleanup res devList
    return (rc, res)
  return (rc, res)

/-- Release the object of a field that is not null; a failing release makes the
return code 1. -/
def release {α : Type} (o : Option α) (f : α → P Int) (rc : Int) : P Int :=
  match o with
  | some a => do
    let r ← f a
    return if r ≠ 0 then 1 else rc
  | none => return rc

def resourcesDestroy (res : Resources) : P Int := do
  let rc ← release res.qp (fun qp => sys (.ibvDestroyQp qp.ptr)) 0
  let rc ← release res.mr (fun mr => sys (.ibvDeregMr mr.ptr)) rc
  ifSome res.buf fun buf => sys (.free buf)
  let rc ← release res.cq (fun cq => sys (.ibvDestroyCq cq)) rc
  let rc ← release res.pd (fun pd => sys (.ibvDeallocPd pd)) rc
  let rc ← release res.ibCtx (fun ctx => sys (.ibvCloseDevice ctx)) rc
  if 0 ≤ res.sock then
    let r ← sys (.close res.sock)
    return if r ≠ 0 then 1 else rc
  return rc

/-! ## The calls of the setup -/

abbrev setup (c : Call) : Prop := c.isSetup

abbrev quiet (c : Call) : Prop := c.isQuiet

abbrev closing (c : Call) : Prop := c.isClosing

theorem quiet_of_closing {c : Call} (h : closing c) : quiet c := Call.isQuiet_of_isClosing h

theorem sockConnect_uses (m : Machine) (cfg : Config) :
    Uses (fun c => quiet c ∧ c.Configured m cfg) (sockConnect m cfg.serverName cfg.tcpPort)
      fun _ => True := by
  unfold sockConnect
  have hclose : ∀ x : Int × Int, Uses (fun c => quiet c ∧ c.Configured m cfg)
      (do let _ ← sys (.close x.2); pure x.1 : P Int) fun _ => True :=
    fun _ _ _ => ⟨⟨rfl, trivial⟩, trivial⟩
  refine Safe.bind (Q := fun _ _ => True) ?_ fun x _ _ => hclose x
  cases cfg.serverName with
  | none =>
      refine safe_step.mpr fun _ _ => ⟨⟨rfl, trivial⟩, safe_bind.mpr (safe_assert fun _ => ?_)⟩
      refine fun _ _ => ⟨⟨rfl, rfl⟩, fun _ _ => ⟨⟨rfl, trivial⟩, ?_⟩⟩
      exact fun _ _ => ⟨⟨rfl, trivial⟩, trivial⟩
  | some name =>
      refine safe_step.mpr fun _ _ => ⟨⟨rfl, trivial⟩, safe_step.mpr fun _ _ => ⟨⟨rfl, rfl⟩, ?_⟩⟩
      split
      · exact fun _ _ => ⟨⟨rfl, trivial⟩, trivial⟩
      · trivial

theorem sockConnect_uses_quiet (m : Machine) (name : Option String) (port : UInt32) :
    Uses quiet (sockConnect m name port) fun _ => True :=
  (sockConnect_uses m { config with serverName := name, tcpPort := port }).weaken fun _ h => h.1

/-- The calls that create the resources, with their arguments from the configuration. -/
abbrev creating (m : Machine) (cfg : Config) (c : Call) : Prop := setup c ∧ c.Configured m cfg

section

variable {m : Machine}

theorem fillBuffer_uses (cfg : Config) (buf : Ptr) :
    Uses (creating m cfg) (fillBuffer cfg buf) fun _ => True := by
  unfold fillBuffer
  have hstep : ∀ {c : Call}, creating m cfg c → Uses (creating m cfg) (sys c) fun _ => True :=
    fun h => uses_perform h
  split
  · refine Safe.bind (hstep ⟨rfl, trivial⟩) fun _ _ _ => ?_
    exact Safe.bind (hstep ⟨rfl, trivial⟩) fun _ _ _ => hstep ⟨rfl, trivial⟩
  · exact hstep ⟨rfl, trivial⟩

theorem resourcesCreateVerbs_uses (cfg : Config) (res : Resources) :
    Uses (creating m cfg) (resourcesCreateVerbs cfg res) fun _ => True := by
  unfold resourcesCreateVerbs
  refine safe_step.mpr fun list _ => ⟨⟨rfl, trivial⟩, ?_⟩
  cases list with
  | none => trivial
  | some list =>
  obtain ⟨devList, devices⟩ := list
  dsimp only
  split
  · trivial
  cases findDevice cfg.devName devices with
  | none => trivial
  | some ibDev =>
  refine safe_step.mpr fun ctx _ => ⟨⟨rfl, trivial⟩, ?_⟩
  cases ctx with
  | none => trivial
  | some ctx =>
  refine safe_step.mpr fun _ _ => ⟨⟨rfl, trivial⟩, ?_⟩
  refine safe_step.mpr fun x _ => ⟨⟨rfl, rfl⟩, ?_⟩
  obtain ⟨rcPort, portAttr⟩ := x
  dsimp only
  split
  · trivial
  refine safe_step.mpr fun pd _ => ⟨⟨rfl, trivial⟩, ?_⟩
  cases pd with
  | none => trivial
  | some pd =>
  refine safe_step.mpr fun cq _ => ⟨⟨rfl, trivial⟩, ?_⟩
  cases cq with
  | none => trivial
  | some cq =>
  refine safe_step.mpr fun buf _ => ⟨⟨rfl, trivial⟩, ?_⟩
  cases buf with
  | none => trivial
  | some buf =>
  refine safe_step.mpr fun _ _ => ⟨⟨rfl, trivial⟩, ?_⟩
  refine Safe.bind (fillBuffer_uses cfg buf) fun _ _ _ => ?_
  refine safe_step.mpr fun mr _ => ⟨⟨rfl, trivial⟩, ?_⟩
  split
  · trivial
  refine safe_step.mpr fun qp _ => ⟨⟨rfl, trivial⟩, ?_⟩
  split <;> trivial

end

theorem ifSome_uses {U : Call → Prop} {α : Type} {o : Option α} {f : α → P Unit}
    (h : ∀ a, Uses U (f a) fun _ => True) : Uses U (ifSome o f) fun _ => True := by
  cases o with
  | none => trivial
  | some a => exact h a

theorem release_uses {U : Call → Prop} {α : Type} {o : Option α} {f : α → P Int} {rc : Int}
    (h : ∀ a, Uses U (f a) fun _ => True) : Uses U (release o f rc) fun _ => True := by
  cases o with
  | none => trivial
  | some a => exact Safe.bind (h a) fun _ _ _ => trivial

theorem resourcesCreateCleanup_uses_closing (res : Resources) (devList : Option Ptr) :
    Uses closing (resourcesCreateCleanup res devList) fun _ => True := by
  unfold resourcesCreateCleanup
  refine Safe.bind (ifSome_uses fun _ _ _ => ⟨rfl, trivial⟩) fun _ _ _ => ?_
  refine Safe.bind (ifSome_uses fun _ _ _ => ⟨rfl, trivial⟩) fun _ _ _ => ?_
  refine Safe.bind (ifSome_uses fun _ _ _ => ⟨rfl, trivial⟩) fun _ _ _ => ?_
  refine Safe.bind (ifSome_uses fun _ _ _ => ⟨rfl, trivial⟩) fun _ _ _ => ?_
  refine Safe.bind (ifSome_uses fun _ _ _ => ⟨rfl, trivial⟩) fun _ _ _ => ?_
  refine Safe.bind (ifSome_uses fun _ _ _ => ⟨rfl, trivial⟩) fun _ _ _ => ?_
  dsimp only
  split
  · exact fun _ _ => ⟨rfl, trivial⟩
  · trivial

theorem resourcesCreateCleanup_uses_quiet (res : Resources) (devList : Option Ptr) :
    Uses quiet (resourcesCreateCleanup res devList) fun _ => True :=
  (resourcesCreateCleanup_uses_closing res devList).weaken fun _ => quiet_of_closing

theorem creating_of_closing {m : Machine} {cfg : Config} {c : Call} (h : closing c) :
    creating m cfg c :=
  ⟨Call.isSetup_of_isQuiet (quiet_of_closing h), Call.configured_of_isClosing h⟩

theorem resourcesCreate_uses (m : Machine) (cfg : Config) (res : Resources) :
    Uses (creating m cfg) (resourcesCreate m cfg res) fun _ => True := by
  unfold resourcesCreate resourcesCreateSteps
  refine Safe.bind (Q := fun _ _ => True) ?_ fun x _ _ => ?_
  · have hconnect := (sockConnect_uses m cfg).weaken fun c (h : quiet c ∧ c.Configured m cfg) =>
      (⟨Call.isSetup_of_isQuiet h.1, h.2⟩ : creating m cfg c)
    refine Safe.bind hconnect fun sock _ _ => ?_
    dsimp only
    split
    · trivial
    · exact resourcesCreateVerbs_uses cfg _
  · dsimp only
    split
    · exact Safe.bind ((resourcesCreateCleanup_uses_closing _ _).weaken
        fun _ => creating_of_closing) fun _ _ _ => trivial
    · trivial

theorem resourcesCreate_uses_setup (m : Machine) (cfg : Config) (res : Resources) :
    Uses setup (resourcesCreate m cfg res) fun _ => True :=
  (resourcesCreate_uses m cfg res).weaken fun _ h => h.1

theorem resourcesDestroy_uses_closing (res : Resources) :
    Uses closing (resourcesDestroy res) fun _ => True := by
  unfold resourcesDestroy
  refine Safe.bind (release_uses fun _ _ _ => ⟨rfl, trivial⟩) fun _ _ _ => ?_
  refine Safe.bind (release_uses fun _ _ _ => ⟨rfl, trivial⟩) fun _ _ _ => ?_
  refine Safe.bind (ifSome_uses fun _ _ _ => ⟨rfl, trivial⟩) fun _ _ _ => ?_
  refine Safe.bind (release_uses fun _ _ _ => ⟨rfl, trivial⟩) fun _ _ _ => ?_
  refine Safe.bind (release_uses fun _ _ _ => ⟨rfl, trivial⟩) fun _ _ _ => ?_
  refine Safe.bind (release_uses fun _ _ _ => ⟨rfl, trivial⟩) fun _ _ _ => ?_
  split
  · exact fun _ _ => ⟨rfl, trivial⟩
  · trivial

theorem resourcesDestroy_uses_quiet (res : Resources) :
    Uses quiet (resourcesDestroy res) fun _ => True :=
  (resourcesDestroy_uses_closing res).weaken fun _ => quiet_of_closing

theorem resourcesDestroy_uses_setup (res : Resources) :
    Uses setup (resourcesDestroy res) fun _ => True :=
  (resourcesDestroy_uses_quiet res).weaken fun _ => Call.isSetup_of_isQuiet

end Rdma
end CommSpeed
