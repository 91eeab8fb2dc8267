/-
Who releases what.

The ledger lists the objects a run holds.  An acquiring call adds the object it
returned, and a releasing call must name an object on the list on which no other
object of the list depends.  A run releases everything exactly once when all its
calls are allowed by the ledger and the ledger ends empty.

The resources carry the ownership: `held res devList` is what the non-null fields
stand for, in the order opposite to acquisition, and every function keeps the
ledger equal to it.
-/
import CommSpeed.Rdma.Main

namespace CommSpeed
namespace Rdma

open Bytes Prog

inductive Obj
  | fd (n : Int)
  | devList (p : Ptr)
  | ibCtx (p : Ptr)
  | pd (p : Ptr)
  | cq (p : Ptr)
  | buf (p : Ptr)
  | mr (p : Ptr)
  | qp (p : Ptr)
  deriving DecidableEq

/-- The descriptor in a variable that is -1 when there is none. -/
def fdObj (n : Int) : Option Obj := if 0 ≤ n then some (.fd n) else none

/-- The object a call has created, given its reply. -/
def acquired : (c : Call) → Reply c → Option Obj
  | .socket, r => fdObj r
  | .accept _, r => fdObj r
  | .malloc _, r => r.map .buf
  | .ibvGetDeviceList, r => r.map fun l => .devList l.1
  | .ibvOpenDevice _, r => r.map .ibCtx
  | .ibvAllocPd _, r => r.map .pd
  | .ibvCreateCq .., r => r.map .cq
  | .ibvRegMr .., r => r.map fun mr => .mr mr.ptr
  | .ibvCreateQp .., r => r.map fun qp => .qp qp.ptr
  | _, _ => none

/-- The object a call releases, whether or not it reports success.  A negative
descriptor names no object. -/
def released : Call → Option Obj
  | .close fd => fdObj fd
  | .free p => some (.buf p)
  | .ibvFreeDeviceList p => some (.devList p)
  | .ibvCloseDevice p => some (.ibCtx p)
  | .ibvDeallocPd p => some (.pd p)
  | .ibvDestroyCq p => some (.cq p)
  | .ibvDeregMr p => some (.mr p)
  | .ibvDestroyQp p => some (.qp p)
  | _ => none

/-- `needs d o`: `d` was made from `o` and has to go first. -/
def needs : Obj → Obj → Bool
  | .qp _, .cq _ | .qp _, .pd _ | .mr _, .buf _ | .mr _, .pd _ | .pd _, .ibCtx _ => true
  | _, _ => false

def MayRelease (live : List Obj) (o : Obj) : Prop := o ∈ live ∧ ∀ d ∈ live, needs d o = false

instance (live : List Obj) (o : Obj) : Decidable (MayRelease live o) :=
  inferInstanceAs (Decidable (_ ∧ _))

def ledger : Monitor Call Reply (List Obj) where
  legal _ _ _ := True
  ok live c _ := ∀ o ∈ released c, MayRelease live o
  next live c r := (acquired c r).toList ++
    match released c with
    | some o => live.erase o
    | none => live

theorem ledger_legal (live : List Obj) (t : List (Event Call Reply)) : ledger.Legal live t := by
  induction t generalizing live with
  | nil => trivial
  | cons e t ih => exact ⟨trivial, ih _⟩

/-- The releases of a run are in order: each is of an object held, nothing held
depends on it, and at the end nothing is held. -/
def ReleasedOnce (t : List (Event Call Reply)) : Prop :=
  ledger.Ok [] t ∧ ledger.after [] t = []

section
variable {α : Type} {live rest : List Obj} {Q : α → List Obj → Prop}

theorem ledger_step {c : Call} {f : Reply c → P α} (h : released c = none)
    (hf : ∀ r, Safe ledger (f r) ((acquired c r).toList ++ live) Q) :
    Safe ledger (sys c >>= f) live Q := by
  refine safe_step.mpr fun r _ => ⟨?_, ?_⟩
  · intro o ho
    rw [h] at ho
    cases ho
  · have hnext : ledger.next live c r = (acquired c r).toList ++ live := by
      simp only [ledger, h]
    rw [hnext]
    exact hf r

theorem ledger_release {c : Call} {o : Obj} {f : Reply c → P α} (h : released c = some o)
    (hacq : ∀ r, acquired c r = none) (hmay : MayRelease live o)
    (hf : ∀ r, Safe ledger (f r) (live.erase o) Q) : Safe ledger (sys c >>= f) live Q := by
  refine safe_step.mpr fun r _ => ⟨?_, ?_⟩
  · intro o' ho
    rw [h] at ho
    cases ho
    exact hmay
  · have hnext : ledger.next live c r = live.erase o := by
      simp only [ledger, h, hacq, Option.toList_none, List.nil_append]
    rw [hnext]
    exact hf r

/-- Releasing the object on top of the list, on which nothing below depends. -/
theorem ledger_pop {c : Call} {o : Obj} {f : Reply c → P α} (h : released c = some o)
    (hacq : ∀ r, acquired c r = none) (hrest : ∀ d ∈ rest, needs d o = false)
    (hf : ∀ r, Safe ledger (f r) rest Q) : Safe ledger (sys c >>= f) (o :: rest) Q := by
  refine ledger_release h hacq ⟨List.mem_cons_self, ?_⟩ ?_
  · intro d hd
    rcases List.mem_cons.mp hd with rfl | hd
    · cases d <;> rfl
    · exact hrest d hd
  · intro r
    rw [List.erase_cons_head]
    exact hf r

theorem ledger_pop_under {c : Call} {o x : Obj} {f : Reply c → P α} (h : released c = some o)
    (hacq : ∀ r, acquired c r = none) (hx : x ≠ o)
    (hneeds : ∀ d ∈ x :: o :: rest, needs d o = false)
    (hf : ∀ r, Safe ledger (f r) (x :: rest) Q) :
    Safe ledger (sys c >>= f) (x :: o :: rest) Q := by
  refine ledger_release h hacq ⟨by simp, hneeds⟩ fun r => ?_
  rw [List.erase_cons_tail (by simpa using hx), List.erase_cons_head]
  exact hf r

theorem ledger_close {n : Int} {f : Int → P α} (hf : ∀ r, Safe ledger (f r) rest Q) :
    Safe ledger (sys (.close n) >>= f) ((fdObj n).toList ++ rest) Q := by
  by_cases hn : 0 ≤ n
  · have hfd : fdObj n = some (.fd n) := if_pos hn
    rw [hfd]
    refine ledger_pop hfd (fun _ => rfl) ?_ hf
    intro d _
    cases d <;> rfl
  · have hfd : fdObj n = none := if_neg hn
    rw [hfd]
    exact ledger_step hfd hf

end

/-! ## The connection -/

/-- Erasing the object below the top leaves the top, also when the two are the
same object. -/
theorem erase_below (o : Option Obj) (x : Obj) : (o.toList ++ [x]).erase x = o.toList := by
  cases o with
  | none => simp
  | some y =>
      by_cases h : y = x
      · simp [h]
      · simp [h]

theorem sockConnect_server_safe {m : Machine} (hassert : m.ndebug = false) (port : UInt32) :
    Safe ledger (sockConnect m none port) [] fun sock live => live = (fdObj sock).toList := by
  unfold sockConnect listenBranch
  refine safe_bind.mpr (ledger_step rfl fun listenfd => ?_)
  refine safe_bind.mpr (safe_assert fun hpos => ?_)
  have hfd : fdObj listenfd = some (.fd listenfd) := by
    have h : (0 : Int) < listenfd := by simpa [hassert] using hpos
    exact if_pos (Int.le_of_lt h)
  have hsock : acquired .socket listenfd = some (.fd listenfd) := hfd
  refine ledger_step rfl fun _ => ledger_step rfl fun _ => ledger_step rfl fun sockfd => ?_
  rw [hsock]
  refine ledger_release hfd (fun _ => rfl) ⟨?_, ?_⟩ fun _ => ?_
  · simp
  · intro d _
    cases d <;> rfl
  · exact erase_below (fdObj sockfd) (.fd listenfd)

theorem connectBranch_safe (name : String) (sinPort : UInt16) :
    Safe ledger (connectBranch name sinPort) [] fun x live =>
      live = (fdObj x.1).toList ∧ x.2 = 0 := by
  unfold connectBranch
  refine ledger_step rfl fun sockfd => ledger_step rfl fun tmp => ?_
  split
  · exact ledger_close fun _ => ⟨rfl, rfl⟩
  · exact ⟨List.append_nil _, rfl⟩

/-- A run of `sock_connect` in client mode ends by closing descriptor 0; the calls
before that are in order and leave the connection held. -/
theorem sockConnect_client_runs {m : Machine} {name : String} {port : UInt32}
    {t : List (Event Call Reply)} {sock : Int}
    (h : Runs (sockConnect m (some name) port) t (ret sock)) :
    ∃ t₁ r, t = t₁ ++ [⟨.close 0, r⟩] ∧ ledger.Ok [] t₁ ∧
      ledger.after [] t₁ = (fdObj sock).toList := by
  obtain ⟨⟨sockfd, listenfd⟩, t₁, t₂, ht, h₁, h₂⟩ := h.split
  have hsafe := (connectBranch_safe name (htons m.order port.toUInt16)).runs h₁ (ledger_legal _ _)
  obtain ⟨hok, hlive, hlisten⟩ := hsafe
  subst hlisten
  cases h₂ with
  | cons h₂ =>
      cases h₂
      exact ⟨t₁, _, ht, hok, hlive⟩

/-! ## The resources -/

def objs {α : Type} (o : Option α) (obj : α → Obj) : List Obj := (o.map obj).toList

@[simp] theorem objs_none {α : Type} (obj : α → Obj) : objs none obj = [] := rfl

@[simp] theorem objs_some {α : Type} (a : α) (obj : α → Obj) : objs (some a) obj = [obj a] := rfl

theorem objs_free {α : Type} {o : Option α} {obj : α → Obj} {x : Obj} {rest : List Obj}
    (h : ∀ a, needs (obj a) x = false) (hrest : ∀ d ∈ rest, needs d x = false) :
    ∀ d ∈ objs o obj ++ rest, needs d x = false := by
  intro d hd
  rcases List.mem_append.mp hd with hd | hd
  · cases o with
    | none => cases hd
    | some a =>
        rw [objs_some, List.mem_singleton] at hd
        rw [hd, h]
  · exact hrest d hd

theorem fd_free (n : Int) (x : Obj) : ∀ d ∈ (fdObj n).toList, needs d x = false := by
  intro d hd
  unfold fdObj at hd
  split at hd
  · rw [Option.toList_some, List.mem_singleton] at hd
    rw [hd]
    cases x <;> rfl
  · cases hd

/-- The objects that the resources and the device list stand for, last acquired
first. -/
def held (res : Resources) (devList : Option Ptr) : List Obj :=
  objs res.qp (fun qp => .qp qp.ptr) ++ (objs res.mr (fun mr => .mr mr.ptr) ++
    (objs res.buf .buf ++ (objs res.cq .cq ++ (objs res.pd .pd ++ (objs res.ibCtx .ibCtx ++
      (objs devList .devList ++ (fdObj res.sock).toList))))))

/-- The verbs part of `resources_create` keeps the ledger equal to what the
resources hold, and keeps the device list only when it fails. -/
theorem resourcesCreateVerbs_safe (cfg : Config) (sock : Int) :
    Safe ledger (resourcesCreateVerbs cfg { resourcesInit with sock := sock })
      (fdObj sock).toList fun x live =>
        live = held x.2.1 x.2.2 ∧ (x.1 = 0 → x.2.2 = none) := by
  unfold resourcesCreateVerbs
  refine ledger_step rfl fun list => ?_
  cases list with
  | none => exact ⟨rfl, fun _ => rfl⟩
  | some list =>
  obtain ⟨devList, devices⟩ := list
  dsimp only
  split
  · exact ⟨rfl, fun h => by cases h⟩
  cases findDevice cfg.devName devices with
  | none => exact ⟨rfl, fun h => by cases h⟩
  | some ibDev =>
  refine ledger_step rfl fun ctx => ?_
  cases ctx with
  | none => exact ⟨rfl, fun h => by cases h⟩
  | some ctx =>
  -- the device list lies under the context that was opened from it
  refine ledger_pop_under rfl (fun _ => rfl) (by simp) (by simp [needs]) fun _ => ?_
  refine ledger_step rfl fun x => ?_
  obtain ⟨rcPort, portAttr⟩ := x
  dsimp only
  split
  · exact ⟨rfl, fun _ => rfl⟩
  refine ledger_step rfl fun pd => ?_
  cases pd with
  | none => exact ⟨rfl, fun _ => rfl⟩
  | some pd =>
  refine ledger_step rfl fun cq => ?_
  cases cq with
  | none => exact ⟨rfl, fun _ => rfl⟩
  | some cq =>
  refine ledger_step rfl fun buf => ?_
  cases buf with
  | none => exact ⟨rfl, fun _ => rfl⟩
  | some buf =>
  refine ledger_step rfl fun _ => ?_
  have hfill : ∀ live, Safe ledger (fillBuffer cfg buf) live fun _ live' => live' = live := by
    intro live
    unfold fillBuffer
    split
    · exact ledger_step rfl fun _ => ledger_step rfl fun _ => ledger_step rfl fun _ => rfl
    · exact ledger_step rfl fun _ => rfl
  refine Safe.bind (hfill _) fun _ live hlive => ?_
  subst hlive
  refine ledger_step rfl fun mr => ?_
  cases mr with
  | none => exact ⟨rfl, fun _ => rfl⟩
  | some mr =>
  refine ledger_step rfl fun qp => ?_
  cases qp with
  | none => exact ⟨rfl, fun _ => rfl⟩
  | some qp => exact ⟨rfl, fun _ => rfl⟩

section
variable {α : Type} {rest : List Obj} {o : Option α} {obj : α → Obj}

theorem pop_safe {c : Call} {x : Obj} (h : released c = some x)
    (hacq : ∀ r, acquired c r = none) (hrest : ∀ d ∈ rest, needs d x = false) :
    Safe ledger (sys c) (x :: rest) fun _ live => live = rest := by
  have hpop := ledger_pop (Q := fun _ live => live = rest) (f := fun _ => (pure () : P Unit))
    h hacq hrest fun _ => rfl
  exact fun r hr => hpop r hr

theorem ifSome_safe {f : α → P Unit}
    (hf : ∀ a, Safe ledger (f a) (obj a :: rest) fun _ live => live = rest) :
    Safe ledger (ifSome o f) (objs o obj ++ rest) fun _ live => live = rest := by
  cases o with
  | none => rfl
  | some a => exact hf a

theorem release_safe {f : α → P Int} {rc : Int}
    (hf : ∀ a, Safe ledger (f a) (obj a :: rest) fun _ live => live = rest) :
    Safe ledger (release o f rc) (objs o obj ++ rest) fun _ live => live = rest := by
  cases o with
  | none => rfl
  | some a => exact (hf a).bind fun _ _ h => h

end

/-- Freeing the device list and closing the connection, with the device context on
top of them. -/
theorem freeDevList_safe (ctx devList : Option Ptr) (sock : Int) :
    Safe ledger (ifSome devList fun p => sys (.ibvFreeDeviceList p))
      (objs ctx .ibCtx ++ (objs devList .devList ++ (fdObj sock).toList))
      fun _ live => live = objs ctx .ibCtx ++ (fdObj sock).toList := by
  cases devList with
  | none => rfl
  | some p =>
      cases ctx with
      | none => exact pop_safe rfl (fun _ => rfl) (fd_free _ _)
      | some c =>
          have h := ledger_pop_under (Q := fun _ live => live = .ibCtx c :: (fdObj sock).toList)
            (f := fun _ => (pure () : P Unit)) (c := .ibvFreeDeviceList p) (x := .ibCtx c) rfl
            (fun _ => rfl) (by simp) (by simp [needs]) fun _ => rfl
          exact fun r hr => h r hr

theorem closeSock_safe (ctx : Option Ptr) {sock : Int} (hsock : 0 ≤ sock) :
    Safe ledger (sys (.close sock)) (objs ctx .ibCtx ++ (fdObj sock).toList)
      fun _ live => live = objs ctx .ibCtx := by
  have hfd : fdObj sock = some (.fd sock) := if_pos hsock
  rw [hfd]
  cases ctx with
  | none => exact pop_safe hfd (fun _ => rfl) (by simp)
  | some c =>
      have h := ledger_pop_under (Q := fun _ live => live = [.ibCtx c])
        (f := fun _ => (pure () : P Unit)) (c := .close sock) (x := .ibCtx c) hfd
        (fun _ => rfl) (by simp) (by simp [needs]) fun _ => rfl
      exact fun r hr => h r hr

/-- The failure path of `resources_create` releases everything but the device
context. -/
theorem resourcesCreateCleanup_safe (res : Resources) (devList : Option Ptr) :
    Safe ledger (resourcesCreateCleanup res devList) (held res devList)
      fun res' live => live = held res' none := by
  unfold resourcesCreateCleanup held
  refine Safe.bind (ifSome_safe fun qp => ?_) fun _ live hlive => ?_
  · refine Safe.bind (pop_safe rfl (fun _ => rfl) ?_) fun _ _ h => h
    repeat first | exact fd_free _ _ | refine objs_free (fun _ => rfl) ?_
  subst hlive
  refine Safe.bind (ifSome_safe fun mr => ?_) fun _ live hlive => ?_
  · refine Safe.bind (pop_safe rfl (fun _ => rfl) ?_) fun _ _ h => h
    repeat first | exact fd_free _ _ | refine objs_free (fun _ => rfl) ?_
  subst hlive
  refine Safe.bind (ifSome_safe fun buf => ?_) fun _ live hlive => ?_
  · refine pop_safe rfl (fun _ => rfl) ?_
    repeat first | exact fd_free _ _ | refine objs_free (fun _ => rfl) ?_
  subst hlive
  refine Safe.bind (ifSome_safe fun cq => ?_) fun _ live hlive => ?_
  · refine Safe.bind (pop_safe rfl (fun _ => rfl) ?_) fun _ _ h => h
    repeat first | exact fd_free _ _ | refine objs_free (fun _ => rfl) ?_
  subst hlive
  refine Safe.bind (ifSome_safe fun pd => ?_) fun _ live hlive => ?_
  · refine Safe.bind (pop_safe rfl (fun _ => rfl) ?_) fun _ _ h => h
    repeat first | exact fd_free _ _ | refine objs_free (fun _ => rfl) ?_
  subst hlive
  refine Safe.bind (freeDevList_safe res.ibCtx devList res.sock) fun _ live hlive => ?_
  subst hlive
  dsimp only
  split
  · rename_i hsock
    refine Safe.bind (closeSock_safe res.ibCtx hsock) fun _ live hlive => ?_
    simp [hlive, fdObj]
  · rfl

/-- `resources_destroy` releases everything the resources hold. -/
theorem resourcesDestroy_safe (res : Resources) :
    Safe ledger (resourcesDestroy res) (held res none) fun _ live => live = [] := by
  unfold resourcesDestroy held
  refine Safe.bind (release_safe fun qp => ?_) fun _ live hlive => ?_
  · refine pop_safe rfl (fun _ => rfl) ?_
    repeat first | exact fd_free _ _ | refine objs_free (fun _ => rfl) ?_
  subst hlive
  refine Safe.bind (release_safe fun mr => ?_) fun _ live hlive => ?_
  · refine pop_safe rfl (fun _ => rfl) ?_
    repeat first | exact fd_free _ _ | refine objs_free (fun _ => rfl) ?_
  subst hlive
  refine Safe.bind (ifSome_safe fun buf => ?_) fun _ live hlive => ?_
  · refine pop_safe rfl (fun _ => rfl) ?_
    repeat first | exact fd_free _ _ | refine objs_free (fun _ => rfl) ?_
  subst hlive
  refine Safe.bind (release_safe fun cq => ?_) fun _ live hlive => ?_
  · refine pop_safe rfl (fun _ => rfl) ?_
    repeat first | exact fd_free _ _ | refine objs_free (fun _ => rfl) ?_
  subst hlive
  refine Safe.bind (release_safe fun pd => ?_) fun _ live hlive => ?_
  · refine pop_safe rfl (fun _ => rfl) ?_
    repeat first | exact fd_free _ _ | refine objs_free (fun _ => rfl) ?_
  subst hlive
  refine Safe.bind (release_safe fun ctx => ?_) fun _ live hlive => ?_
  · refine pop_safe rfl (fun _ => rfl) ?_
    repeat first | exact fd_free _ _ | refine objs_free (fun _ => rfl) ?_
  subst hlive
  split
  · rename_i hsock
    exact Safe.bind (closeSock_safe none hsock) fun _ live hlive => hlive
  · rename_i hsock
    simp [fdObj, hsock]

/-! ## The whole run -/

/-- `rcmain` from the end of `sock_connect`. -/
def rcmainAfterSock (m : Machine) (cfg : Config) (sock : Int) : P Int := do
  let res := { resourcesInit with sock := sock }
  let (rc, res, devList) ←
    (if res.sock < 0 then pure (-1, res, none) else resourcesCreateVerbs cfg res)
  let (rc, res) ← (if rc ≠ 0 then do
      let res ← resourcesCreateCleanup res devList
      pure (rc, res)
    else pure (rc, res))
  let (rc, res) ← (if rc ≠ 0 then pure (1, res) else rcmainTransfer m cfg res)
  let rcDestroy ← resourcesDestroy res
  return if rcDestroy ≠ 0 then 1 else rc

theorem rcmainBody_eq (m : Machine) (cfg : Config) :
    rcmainBody m cfg =
      sockConnect m cfg.serverName cfg.tcpPort >>= rcmainAfterSock m cfg := by
  simp only [rcmainBody, resourcesCreate, resourcesCreateSteps, Prog.bind_assoc]
  rfl

theorem held_sameObjects {res res' : Resources} (h : SameObjects res res') (d : Option Ptr) :
    held res' d = held res d := by
  obtain ⟨props, rfl⟩ := h
  rfl

theorem ledger_ignores_transfer {c : Call} (r : Reply c) (live : List Obj)
    (h : c.isTransfer = true) : ledger.ok live c r ∧ ledger.next live c r = live := by
  have hrel : released c = none := by cases c <;> first | rfl | cases h
  have hacq : acquired c r = none := by cases c <;> first | rfl | cases h
  refine ⟨fun o ho => ?_, ?_⟩
  · rw [hrel] at ho
    cases ho
  · simp only [ledger, hrel, hacq, Option.toList_none, List.nil_append]

theorem rcmainAfterSock_safe (m : Machine) (cfg : Config) (sock : Int) :
    Safe ledger (rcmainAfterSock m cfg sock) (fdObj sock).toList fun _ live => live = [] := by
  unfold rcmainAfterSock
  have hcreate : Safe ledger
      (if sock < 0 then pure (-1, { resourcesInit with sock := sock }, none)
        else resourcesCreateVerbs cfg { resourcesInit with sock := sock })
      (fdObj sock).toList
      fun x live => live = held x.2.1 x.2.2 ∧ (x.1 = 0 → x.2.2 = none) := by
    split
    · exact ⟨rfl, fun _ => rfl⟩
    · exact resourcesCreateVerbs_safe cfg sock
  refine Safe.bind hcreate fun x live hx => ?_
  obtain ⟨rc, res, devList⟩ := x
  obtain ⟨hlive, hdev⟩ := hx
  dsimp only at hlive hdev ⊢
  subst hlive
  refine Safe.bind (Q := fun x live => live = held x.2 none) ?_ fun x live hlive => ?_
  · refine safe_ite (fun _ => ?_) fun hrc => ?_
    · exact Safe.bind (resourcesCreateCleanup_safe res devList) fun _ _ h => h
    · rw [hdev (not_not.mp hrc)]
      rfl
  obtain ⟨rc, res⟩ := x
  dsimp only at hlive ⊢
  subst hlive
  refine Safe.bind (Q := fun x live => live = held x.2 none) ?_ fun x live hlive => ?_
  · refine safe_ite (fun _ => rfl) fun _ => ?_
    refine ((rcmainTransfer_uses_transfer m cfg res).safe
      fun c r h => ledger_ignores_transfer r _ h).mono ?_
    intro x live hx
    rw [hx.2, held_sameObjects hx.1]
  obtain ⟨rc, res⟩ := x
  dsimp only at hlive ⊢
  subst hlive
  exact Safe.bind (resourcesDestroy_safe res) fun _ _ h => h

/-- Every finished run in server mode releases each object it acquired exactly
once and in order. -/
theorem rcmain_server_releasedOnce {m : Machine} {cfg : Config} (hassert : m.ndebug = false)
    (hserver : cfg.serverName = none) {t : List (Event Call Reply)} {rc : Int}
    (h : Runs (rcmainBody m cfg) t (ret rc)) : ReleasedOnce t := by
  rw [rcmainBody_eq, hserver] at h
  have hsafe : Safe ledger (sockConnect m none cfg.tcpPort >>= rcmainAfterSock m cfg) []
      fun _ live => live = [] := by
    refine Safe.bind (sockConnect_server_safe hassert cfg.tcpPort) fun sock live hlive => ?_
    subst hlive
    exact rcmainAfterSock_safe m cfg sock
  exact hsafe.runs h (ledger_legal _ _)

/-- Every finished run in client mode closes descriptor 0 at the end of
`sock_connect`; without that call it would release each object exactly once and
in order. -/
theorem rcmain_client_releasedOnce {m : Machine} {cfg : Config} {name : String}
    (hclient : cfg.serverName = some name) {t : List (Event Call Reply)} {rc : Int}
    (h : Runs (rcmainBody m cfg) t (ret rc)) :
    ∃ t₁ r t₂, t = t₁ ++ ⟨.close 0, r⟩ :: t₂ ∧ ReleasedOnce (t₁ ++ t₂) := by
  rw [rcmainBody_eq, hclient] at h
  obtain ⟨sock, t₁, t₂, ht, h₁, h₂⟩ := h.split
  obtain ⟨u, r, hu, hok, hlive⟩ := sockConnect_client_runs h₁
  have hrest := (rcmainAfterSock_safe m cfg sock).runs h₂ (ledger_legal _ _)
  refine ⟨u, r, t₂, ?_, ?_, ?_⟩
  · rw [ht, hu, List.append_assoc, List.singleton_append]
  · exact (ledger.ok_append _ _ _).mpr ⟨hok, by rw [hlive]; exact hrest.1⟩
  · rw [ledger.after_append, hlive]
    exact hrest.2

def acquisitions (t : List (Event Call Reply)) : Nat :=
  t.countP fun e => (acquired e.call e.reply).isSome

def releases (t : List (Event Call Reply)) : Nat := t.countP fun e => (released e.call).isSome

/-- While the calls are allowed, what is held is what was acquired and not yet
released. -/
theorem ledger_count {live : List Obj} {t : List (Event Call Reply)} (h : ledger.Ok live t) :
    (ledger.after live t).length + releases t = live.length + acquisitions t := by
  induction t generalizing live with
  | nil => simp [releases, acquisitions]
  | cons e t ih =>
      obtain ⟨c, r⟩ := e
      have hrest := ih h.2
      have hnext : (ledger.next live c r).length + (if (released c).isSome then 1 else 0) =
          live.length + (if (acquired c r).isSome then 1 else 0) := by
        have hok : ∀ o ∈ released c, MayRelease live o := h.1
        simp only [ledger, List.length_append]
        cases hrel : released c with
        | none => cases acquired c r <;> simp [Nat.add_comm]
        | some o =>
            have hmem := (hok o hrel).1
            have hpos := List.length_pos_of_mem hmem
            rw [List.length_erase_of_mem hmem]
            cases acquired c r <;> (simp; omega)
      simp only [releases, acquisitions, List.countP_cons, Monitor.after_cons] at hrest ⊢
      omega

theorem ReleasedOnce.balanced {t : List (Event Call Reply)} (h : ReleasedOnce t) :
    releases t = acquisitions t := by
  have hcount := ledger_count h.1
  rw [h.2] at hcount
  simpa using hcount

theorem not_releasedOnce_of_stray {t₁ t₂ : List (Event Call Reply)} {r : Int}
    (h : ReleasedOnce (t₁ ++ t₂)) : ¬ ReleasedOnce (t₁ ++ ⟨.close 0, r⟩ :: t₂) := by
  intro hstray
  have h₁ := h.balanced
  have h₂ := hstray.balanced
  have hrel : (released (.close 0)).isSome = true := rfl
  have hacq : (acquired (.close 0) r).isSome = false := rfl
  simp only [releases, acquisitions, List.countP_append, List.countP_cons, hrel, hacq] at h₁ h₂
  simp at h₂
  omega

/-- A finished run with assertions compiled in releases every object exactly once
and in order in server mode and never in client mode.  In client mode the one
call too many is the `close(0)` at the end of `sock_connect`. -/
theorem rcmain_releasedOnce_iff {m : Machine} {cfg : Config} (hassert : m.ndebug = false)
    {t : List (Event Call Reply)} {rc : Int} (h : Runs (rcmainBody m cfg) t (ret rc)) :
    (ReleasedOnce t ↔ cfg.serverName = none) ∧
    (cfg.serverName ≠ none →
      ∃ t₁ r t₂, t = t₁ ++ ⟨.close 0, r⟩ :: t₂ ∧ ReleasedOnce (t₁ ++ t₂)) := by
  cases hname : cfg.serverName with
  | none =>
      refine ⟨iff_of_true (rcmain_server_releasedOnce hassert hname h) rfl, ?_⟩
      exact fun hne => absurd rfl hne
  | some name =>
      obtain ⟨t₁, r, t₂, ht, honce⟩ := rcmain_client_releasedOnce hname h
      refine ⟨iff_of_false ?_ (by simp), fun _ => ⟨t₁, r, t₂, ht, honce⟩⟩
      rw [ht]
      exact not_releasedOnce_of_stray honce

theorem rcmain_releasedOnce_iff_obliging :
    ReleasedOnce (obligingRun config) ↔ config.serverName = none :=
  (rcmain_releasedOnce_iff rfl obligingRun_server).1

/-- A client started with descriptor 0 free: `socket` returns 0, `sock_connect`
closes it although the connection stands, there is no device, and the failure
path closes descriptor 0 again. -/
def clientOnDescriptorZero : List (Event Call Reply) :=
  [⟨.socket, (0 : Int)⟩, ⟨.connect 0 "10.0.0.1" (htons .little 19875), (0 : Int)⟩,
    ⟨.close 0, (0 : Int)⟩, ⟨.ibvGetDeviceList, none⟩, ⟨.close 0, (-1 : Int)⟩]

theorem clientOnDescriptorZero_not_releasedOnce :
    Runs (rcmainBody littleMachine clientConfig) clientOnDescriptorZero (ret 1) ∧
      ¬ ReleasedOnce clientOnDescriptorZero := by
  constructor
  · exact .cons (.cons (.cons (.cons (.cons (.nil _)))))
  · intro h
    exact absurd h.balanced (by decide)

end Rdma
end CommSpeed
