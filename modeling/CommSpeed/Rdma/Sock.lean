import CommSpeed.Prog.Monitor
import CommSpeed.Rdma.Wire

namespace CommSpeed
namespace Rdma

open Bytes Prog

abbrev P := Prog Call Reply

abbrev sys (c : Call) : P (Reply c) := perform c

/-- The client branch of `sock_connect`: `sockfd` and `listenfd`, which keeps the
value 0 it was declared with. -/
def connectBranch (name : String) (sinPort : UInt16) : P (Int × Int) := do
  let sockfd ← sys .socket
  let tmp ← sys (.connect sockfd name sinPort)
  if tmp < 0 then
    let _ ← sys (.close sockfd)
    return (-1, 0)
  return (sockfd, 0)

/-- The server branch of `sock_connect`: `sockfd` and `listenfd`. -/
def listenBranch (m : Machine) (sinPort : UInt16) : P (Int × Int) := do
  let listenfd ← sys .socket
  assert (m.ndebug || decide (0 < listenfd))
  let _ ← sys (.bind listenfd sinPort)
  let _ ← sys (.listen listenfd 1)
  let sockfd ← sys (.accept listenfd)
  return (sockfd, listenfd)

def sockConnect (m : Machine) (servername : Option String) (port : UInt32) : P Int := do
  let sinPort := htons m.order port.toUInt16
  let (sockfd, listenfd) ← (match servername with
    | some name => connectBranch name sinPort
    | none => listenBranch m sinPort)
  let _ ← sys (.close listenfd)
  return sockfd

structure ReadLoop where
  rc : Int
  totalReadBytes : Nat
  remoteData : List UInt8

/-- One turn of the read loop.  Each `read` asks for the whole size again and
stores at the start of the buffer. -/
def readLoopBody (sock : Int) (xferSize : Nat) (l : ReadLoop) :
    P (ReadLoop ⊕ (Int × List UInt8)) := do
  if l.rc = 0 ∧ l.totalReadBytes < xferSize then
    let r ← sys (.read sock xferSize)
    if 0 < r.count then
      return .inl { l with
        totalReadBytes := l.totalReadBytes + r.bytes.length,
        remoteData := overlay r.bytes l.remoteData }
    else
      return .inl { l with rc := r.count }
  else
    return .inr (l.rc, l.remoteData)

/-- `sock_sync_data`: the return code and the contents of `remote_data`. -/
def sockSyncData (m : Machine) (sock : Int) (xferSize : Nat)
    (localData remoteData : List UInt8) : P (Int × List UInt8) := do
  let rc ← sys (.write sock (localData.take xferSize))
  assert (m.ndebug || decide (rc = xferSize))
  let rc := if rc < xferSize then rc else 0
  iterate m.fuel (readLoopBody sock xferSize)
    { rc := rc, totalReadBytes := 0, remoteData := remoteData }

/-- Past its assertion `sock_sync_data` is the read loop, entered with the count of a
short `write` as `rc`. -/
theorem sockSyncData_eval {τ : Type} {h : (c : Call) → τ → Option (Reply c × τ)} {m : Machine}
    {sock rc : Int} {xferSize : Nat} {localData remoteData : List UInt8} {s s' : τ}
    (hwrite : h (.write sock (localData.take xferSize)) s = some (rc, s'))
    (hassert : m.ndebug = true ∨ rc = xferSize) :
    eval h (sockSyncData m sock xferSize localData remoteData) s =
      eval h (iterate m.fuel (readLoopBody sock xferSize)
        ⟨if rc < xferSize then rc else 0, 0, remoteData⟩) s' := by
  have hpass : (m.ndebug || decide (rc = xferSize)) = true := by simpa using hassert
  rw [sockSyncData, eval_step hwrite, hpass, assert, if_pos rfl, ret_bind]

theorem readLoopBody_uses {U : Call → Prop} {sock : Int} {xferSize : Nat}
    (hr : U (.read sock xferSize)) (l : ReadLoop) :
    Uses U (readLoopBody sock xferSize l) fun _ => True := by
  unfold readLoopBody
  split
  · refine safe_step.mpr fun r _ => ⟨hr, ?_⟩
    split <;> trivial
  · trivial

theorem sockSyncData_uses {U : Call → Prop} {m : Machine} {sock : Int} {xferSize : Nat}
    {localData remoteData : List UInt8} (hw : U (.write sock (localData.take xferSize)))
    (hr : U (.read sock xferSize)) :
    Uses U (sockSyncData m sock xferSize localData remoteData) fun _ => True := by
  refine safe_step.mpr fun rc _ => ⟨hw, ?_⟩
  refine safe_bind.mpr (safe_assert fun _ => ?_)
  refine safe_iterate (I := fun _ _ => True) trivial fun l _ _ => ?_
  refine (readLoopBody_uses hr l).mono fun y _ _ => ?_
  cases y <;> trivial

end Rdma
end CommSpeed
