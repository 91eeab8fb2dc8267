import CommSpeed.Bytes.Buffer
import CommSpeed.Bytes.Order
import CommSpeed.Clc.Timeval

namespace CommSpeed
namespace Rdma

open Bytes

/-- A non-null pointer handed out by the allocator or by the verbs library. -/
abbrev Ptr := UInt64

/-- `struct config_t`.  `none` is the null pointer of the source. -/
structure Config where
  devName : Option String
  serverName : Option String
  tcpPort : UInt32
  ibPort : Int
  gidIdx : Int

/-- The global `config` before option parsing. -/
def config : Config :=
  { devName := none, serverName := none, tcpPort := 19875, ibPort := 1, gidIdx := -1 }

/-- `struct cm_con_data_t`, the data the two sides exchange to connect their
queue pairs. -/
structure CmConData where
  addr : UInt64
  rkey : UInt32
  qpNum : UInt32
  lid : UInt16
  gid : Vector UInt8 16
  deriving DecidableEq

/-- `struct ibv_port_attr`, the field that is read. -/
structure IbvPortAttr where
  lid : UInt16

/-- `struct ibv_device`: the device and its name. -/
structure IbvDevice where
  ptr : Ptr
  name : String

/-- `struct ibv_mr`: the region and its keys. -/
structure IbvMr where
  ptr : Ptr
  lkey : UInt32
  rkey : UInt32

/-- `struct ibv_qp`: the queue pair and its number. -/
structure IbvQp where
  ptr : Ptr
  qpNum : UInt32

/-- `struct resources`.  A null field holds no object and `sock` is -1 when there
is no connection. -/
structure Resources where
  portAttr : IbvPortAttr
  remoteProps : CmConData
  ibCtx : Option Ptr
  pd : Option Ptr
  cq : Option Ptr
  qp : Option IbvQp
  mr : Option IbvMr
  buf : Option Ptr
  sock : Int

/-- What a run is given besides its configuration: the byte order of the host,
whether `assert` is compiled out, a bound on the iterations of each loop, and the
contents of the stack variables that the source reads before it sets them. -/
structure Machine where
  order : ByteOrder
  ndebug : Bool
  fuel : Nat
  tmpConData : Vector UInt8 40
  padding : Vector UInt8 6
  tempChar : UInt8

/-! ## Verbs attributes

Every attribute record of the source is cleared by `memset` before its fields are
set, so the fields have zero as default. -/

inductive QpState
  | reset
  | init
  | rtr
  | rts
  deriving DecidableEq

inductive AccessFlag
  | localWrite
  | remoteRead
  | remoteWrite
  deriving DecidableEq

inductive QpAttrMask
  | state
  | pkeyIndex
  | port
  | accessFlags
  | av
  | pathMtu
  | destQpn
  | rqPsn
  | maxDestRdAtomic
  | minRnrTimer
  | timeout
  | retryCnt
  | rnrRetry
  | sqPsn
  | maxQpRdAtomic
  deriving DecidableEq

def ibvMtu256 : Nat := 1

structure IbvGlobalRoute where
  dgid : Vector UInt8 16 := Vector.replicate 16 0
  flowLabel : UInt32 := 0
  sgidIndex : UInt8 := 0
  hopLimit : UInt8 := 0
  trafficClass : UInt8 := 0

structure IbvAhAttr where
  grh : IbvGlobalRoute := {}
  dlid : UInt16 := 0
  sl : UInt8 := 0
  srcPathBits : UInt8 := 0
  isGlobal : UInt8 := 0
  portNum : UInt8 := 0

/-- `struct ibv_qp_attr`, the fields that are set. -/
structure IbvQpAttr where
  qpState : QpState := .reset
  pathMtu : Nat := 0
  rqPsn : UInt32 := 0
  sqPsn : UInt32 := 0
  destQpNum : UInt32 := 0
  qpAccessFlags : List AccessFlag := []
  ahAttr : IbvAhAttr := {}
  pkeyIndex : UInt16 := 0
  maxRdAtomic : UInt8 := 0
  maxDestRdAtomic : UInt8 := 0
  minRnrTimer : UInt8 := 0
  portNum : UInt8 := 0
  timeout : UInt8 := 0
  retryCnt : UInt8 := 0
  rnrRetry : UInt8 := 0

inductive QpType
  | rc
  | uc
  | ud
  deriving DecidableEq

structure IbvQpCap where
  maxSendWr : Nat := 0
  maxRecvWr : Nat := 0
  maxSendSge : Nat := 0
  maxRecvSge : Nat := 0

structure IbvQpInitAttr where
  qpType : QpType
  sqSigAll : Nat := 0
  sendCq : Ptr
  recvCq : Ptr
  cap : IbvQpCap := {}

structure IbvSge where
  addr : UInt64
  length : Nat
  lkey : UInt32

inductive WrOpcode
  | send
  | rdmaRead
  | rdmaWrite
  deriving DecidableEq

/-- `struct ibv_send_wr`.  The source passes a list of one request and asks for
its completion to be signalled. -/
structure IbvSendWr where
  wrId : UInt64 := 0
  sge : IbvSge
  opcode : WrOpcode
  signaled : Bool := false
  remoteAddr : UInt64 := 0
  rkey : UInt32 := 0

structure IbvRecvWr where
  wrId : UInt64 := 0
  sge : IbvSge

/-- `struct ibv_wc`.  `req` is no field of the source: it says which of the posted
requests, counted from 0, this is the completion of.  The program cannot see it,
since it gives every request the same `wr_id`. -/
structure IbvWc where
  status : Nat
  req : Nat
  deriving DecidableEq

def ibvWcSuccess : Nat := 0

/-- The answer of `ibv_poll_cq` asked for one entry. -/
inductive PollReply
  | failed
  | empty
  | found (wc : IbvWc)
  deriving DecidableEq

/-! ## Messages -/

/-- The size of the message buffer. -/
def msgSize : Nat := 64

def msg : List UInt8 :=
  charBytes ['S', 'E', 'N', 'D', ' ', 'o', 'p', 'e', 'r', 'a', 't', 'i', 'o', 'n', '\t']

def rdmamsgr : List UInt8 :=
  charBytes ['R', 'D', 'M', 'A', ' ', 'r', 'e', 'a', 'd', ' ',
    'o', 'p', 'e', 'r', 'a', 't', 'i', 'o', 'n']

def rdmamsgw : List UInt8 :=
  charBytes ['R', 'D', 'M', 'A', ' ', 'w', 'r', 'i', 't', 'e', ' ',
    'o', 'p', 'e', 'r', 't', 'i', 'o', 'n']

/-- The texts that are printed around the message buffer. -/
inductive BufLine
  | goingToSend
  | messageIs
  | contentsOfServersBuffer
  | replaceItWith
  | contentsOfServerBuffer
  deriving DecidableEq

/-! ## Calls -/

/-- The calls a run makes to libc and to the verbs library, with the arguments it
passes.  The message buffer is a call target too: the adapter reads and writes it
while the program runs. -/
inductive Call
  | socket
  | connect (fd : Int) (server : String) (sinPort : UInt16)
  | bind (fd : Int) (sinPort : UInt16)
  | listen (fd : Int) (backlog : Nat)
  | accept (fd : Int)
  | close (fd : Int)
  | write (fd : Int) (data : List UInt8)
  | read (fd : Int) (len : Nat)
  | gettimeofday
  | malloc (size : Nat)
  | free (ptr : Ptr)
  | memsetZero (ptr : Ptr) (size : Nat)
  | strcpy (ptr : Ptr) (src : List UInt8)
  | printBuf (line : BufLine) (ptr : Ptr)
  | printRemote (props : CmConData)
  | ibvGetDeviceList
  | ibvFreeDeviceList (list : Ptr)
  | ibvOpenDevice (dev : Ptr)
  | ibvCloseDevice (ctx : Ptr)
  | ibvQueryPort (ctx : Ptr) (portNum : UInt8)
  | ibvQueryGid (ctx : Ptr) (portNum : UInt8) (index : Int)
  | ibvAllocPd (ctx : Ptr)
  | ibvDeallocPd (pd : Ptr)
  | ibvCreateCq (ctx : Ptr) (cqe : Nat)
  | ibvDestroyCq (cq : Ptr)
  | ibvRegMr (pd : Ptr) (addr : Ptr) (length : Nat) (access : List AccessFlag)
  | ibvDeregMr (mr : Ptr)
  | ibvCreateQp (pd : Ptr) (attr : IbvQpInitAttr)
  | ibvDestroyQp (qp : Ptr)
  | ibvModifyQp (qp : Ptr) (attr : IbvQpAttr) (mask : List QpAttrMask)
  | ibvPostSend (qp : Ptr) (wr : IbvSendWr)
  | ibvPostRecv (qp : Ptr) (wr : IbvRecvWr)
  | ibvPollCq (cq : Ptr) (numEntries : Nat)

/-- The calls of the data transfer: those that neither create nor release an
object. -/
def Call.isTransfer : Call → Bool
  | .write .. | .read .. | .gettimeofday | .strcpy .. | .printBuf .. | .printRemote .. => true
  | .ibvQueryGid .. | .ibvModifyQp .. | .ibvPostSend .. | .ibvPostRecv .. | .ibvPollCq .. => true
  | _ => false

/-- The calls that create and release objects and fill the new buffer.  A
completion queue has one entry and a queue pair one request of each kind. -/
def Call.isSetup : Call → Bool
  | .ibvCreateCq _ cqe => cqe == 1
  | .ibvCreateQp _ attr => attr.cap.maxSendWr == 1 && attr.cap.maxRecvWr == 1
  | .write .. | .read .. | .gettimeofday | .printRemote .. => false
  | .ibvQueryGid .. | .ibvModifyQp .. | .ibvPostSend .. | .ibvPostRecv .. | .ibvPollCq .. => false
  | _ => true

/-- The calls that open and close the connection and release objects. -/
def Call.isQuiet : Call → Bool
  | .socket | .connect .. | .bind .. | .listen .. | .accept .. | .close .. | .free .. => true
  | .ibvFreeDeviceList .. | .ibvCloseDevice .. | .ibvDeallocPd .. | .ibvDestroyCq ..
  | .ibvDeregMr .. | .ibvDestroyQp .. => true
  | _ => false

/-- The calls that close a descriptor or release an object. -/
def Call.isClosing : Call → Bool
  | .close .. | .free .. | .ibvFreeDeviceList .. | .ibvCloseDevice .. => true
  | .ibvDeallocPd .. | .ibvDestroyCq .. | .ibvDeregMr .. | .ibvDestroyQp .. => true
  | _ => false

theorem Call.isQuiet_of_isClosing {c : Call} (h : c.isClosing) : c.isQuiet := by
  cases c <;> first | rfl | cases h

theorem Call.isSetup_of_isQuiet {c : Call} (h : c.isQuiet) : c.isSetup := by
  cases c <;> first | rfl | cases h

/-- What each call answers.  Calls whose return value the source drops answer
`Unit`; a returned pointer is `none` when it is null. -/
@[reducible] def Reply : Call → Type
  | .socket | .connect .. | .bind .. | .listen .. | .accept .. | .close .. => Int
  | .write .. => Int
  | .read .. => ReadReply
  | .gettimeofday => Timeval
  | .malloc .. => Option Ptr
  | .free .. | .memsetZero .. | .strcpy .. | .printBuf .. | .printRemote .. => Unit
  | .ibvGetDeviceList => Option (Ptr × List IbvDevice)
  | .ibvFreeDeviceList .. => Unit
  | .ibvOpenDevice .. => Option Ptr
  | .ibvQueryPort .. => Int × IbvPortAttr
  | .ibvQueryGid .. => Int × Vector UInt8 16
  | .ibvAllocPd .. | .ibvCreateCq .. => Option Ptr
  | .ibvRegMr .. => Option IbvMr
  | .ibvCreateQp .. => Option IbvQp
  | .ibvCloseDevice .. | .ibvDeallocPd .. | .ibvDestroyCq .. | .ibvDeregMr ..
  | .ibvDestroyQp .. => Int
  | .ibvModifyQp .. | .ibvPostSend .. | .ibvPostRecv .. => Int
  | .ibvPollCq .. => PollReply

end Rdma
end CommSpeed
