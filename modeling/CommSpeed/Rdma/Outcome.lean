/-
The reported result of a run.

The monitor keeps the steps that succeeded, in order, and whether a call whose
outcome matters has failed.  A run that returns 0 has made exactly the steps of
its role.  The one gap is a short `write` with assertions compiled out: the
return code of `sock_sync_data` is then the count, and neither of its two readings
by the callers, `< 0` for the connection data and nonzero for the syncs, covers
every short count.
-/
import CommSpeed.Rdma.Main

namespace CommSpeed
namespace Rdma

open Bytes Prog

inductive Step
  | sock
  | deviceList
  | context
  | port
  | pd
  | cq
  | buf
  | mr
  | qp
  | gid
  | sync (size : Nat)
  | modify (state : QpState)
  | postRecv
  | postSend (opcode : WrOpcode)
  | reaped
  | destroyQp
  | deregMr
  | destroyCq
  | deallocPd
  | closeDevice
  | closeSock
  deriving DecidableEq

structure Progress where
  done : List Step := []
  failed : Bool := false
  /-- The size of a sync whose `write` was whole and the bytes it has read. -/
  sync : Option (Nat × Nat) := none
  deriving DecidableEq

def Progress.step (s : Progress) (b : Bool) (x : Step) : Progress :=
  if b then { s with done := s.done ++ [x] } else { s with failed := true }

def Progress.wrote (s : Progress) (size : Nat) (rc : Int) : Progress :=
  if rc = size then { s with sync := some (size, 0) } else { s with failed := true }

def Progress.read (s : Progress) (r : ReadReply) : Progress :=
  match s.sync, r with
  | _, .failed => { s with failed := true }
  | some (size, k), .got bs =>
    if size ≤ k + bs.length then { s with done := s.done ++ [.sync size], sync := none }
    else { s with sync := some (size, k + bs.length) }
  | none, .got _ => s

/-- What a call contributes.  The `close` that ends `sock_connect` comes before
the device list is there and its outcome is not looked at. -/
def progressNext (s : Progress) : (c : Call) → Reply c → Progress
  | .connect fd .., rc => s.step (0 ≤ fd ∧ 0 ≤ rc) .sock
  | .accept .., rc => s.step (0 ≤ rc) .sock
  | .close .., rc => if Step.deviceList ∈ s.done then s.step (rc = 0) .closeSock else s
  | .write _ data, rc => s.wrote data.length rc
  | .read .., r => s.read r
  | .malloc .., r => s.step r.isSome .buf
  | .ibvGetDeviceList, r => s.step r.isSome .deviceList
  | .ibvOpenDevice .., r => s.step r.isSome .context
  | .ibvQueryPort .., r => s.step (r.1 = 0) .port
  | .ibvQueryGid .., r => s.step (r.1 = 0) .gid
  | .ibvAllocPd .., r => s.step r.isSome .pd
  | .ibvCreateCq .., r => s.step r.isSome .cq
  | .ibvRegMr .., r => s.step r.isSome .mr
  | .ibvCreateQp .., r => s.step r.isSome .qp
  | .ibvModifyQp _ attr _, rc => s.step (rc = 0) (.modify attr.qpState)
  | .ibvPostRecv .., rc => s.step (rc = 0) .postRecv
  | .ibvPostSend _ wr, rc => s.step (rc = 0) (.postSend wr.opcode)
  | .ibvPollCq .., .failed => { s with failed := true }
  | .ibvPollCq .., .empty => s
  | .ibvPollCq .., .found wc => s.step (wc.status = ibvWcSuccess) .reaped
  | .ibvDestroyQp .., rc => s.step (rc = 0) .destroyQp
  | .ibvDeregMr .., rc => s.step (rc = 0) .deregMr
  | .ibvDestroyCq .., rc => s.step (rc = 0) .destroyCq
  | .ibvDeallocPd .., rc => s.step (rc = 0) .deallocPd
  | .ibvCloseDevice .., rc => s.step (rc = 0) .closeDevice
  | _, _ => s

/-- A `write` takes all the bytes or fails. -/
def wholeWrite : (c : Call) → Reply c → Prop
  | .write _ data, rc => rc = data.length ∨ rc < 0
  | _, _ => True

def movedTo : Call → Option QpState
  | .ibvModifyQp _ attr _ => some attr.qpState
  | _ => none

/-- The queue pair is moved to INIT right after a complete exchange of the
connection data. -/
def initAfterExchange (s : Progress) (c : Call) : Prop :=
  movedTo c = some .init → s.failed = false ∧ s.done.getLast? = some (.sync 40)

instance (s : Progress) (c : Call) : Decidable (initAfterExchange s c) :=
  inferInstanceAs (Decidable (_ → _))

def outcome (ndebug : Bool) : Monitor Call Reply Progress where
  legal _ c r := ndebug = true → wholeWrite c r
  ok s c _ := initAfterExchange s c
  next := progressNext

instance (nd : Bool) (s : Progress) (c : Call) (r : Reply c) : Decidable ((outcome nd).ok s c r) :=
  inferInstanceAs (Decidable (initAfterExchange s c))

/-! ## The steps of each role -/

def createSteps : List Step := [.sock, .deviceList, .context, .port, .pd, .cq, .buf, .mr, .qp]

def connectSteps (cfg : Config) : List Step :=
  (if 0 ≤ cfg.gidIdx then [.gid] else []) ++ [.sync 40, .modify .init] ++
  (if cfg.serverName.isSome then [.postRecv] else []) ++
  [.modify .rtr, .modify .rts, .sync 1]

def rdmaSteps : List Step := [.postSend .rdmaRead, .reaped, .postSend .rdmaWrite, .reaped]

def transferSteps (cfg : Config) : List Step :=
  connectSteps cfg ++ (if cfg.serverName.isNone then [.postSend .send] else []) ++
  [.reaped, .sync 1] ++ (if cfg.serverName.isSome then rdmaSteps else []) ++ [.sync 1]

def destroySteps : List Step :=
  [.destroyQp, .deregMr, .destroyCq, .deallocPd, .closeDevice, .closeSock]

def roleSteps (cfg : Config) : List Step := createSteps ++ transferSteps cfg ++ destroySteps

def Progress.add (s : Progress) (xs : List Step) : Progress := { s with done := s.done ++ xs }

@[simp] theorem Progress.add_nil (s : Progress) : s.add [] = s := by simp [add]

@[simp] theorem Progress.add_add (s : Progress) (xs ys : List Step) :
    (s.add xs).add ys = s.add (xs ++ ys) := by simp [add]

theorem Progress.step_true {s : Progress} {b : Bool} (h : b = true) (x : Step) :
    s.step b x = s.add [x] := if_pos h

/-! ## Creating and destroying -/

structure Complete (res : Resources) : Prop where
  qp : res.qp.isSome
  mr : res.mr.isSome
  buf : res.buf.isSome
  cq : res.cq.isSome
  pd : res.pd.isSome
  ibCtx : res.ibCtx.isSome
  sock : 0 ≤ res.sock

theorem setup_allowed (nd : Bool) (s : Progress) (c : Call) (r : Reply c) (h : setup c) :
    (outcome nd).ok s c r := by
  cases c with
  | ibvModifyQp => cases h
  | _ => nofun

theorem close_ignored {s : Progress} (hs : Step.deviceList ∉ s.done) (fd rc : Int) :
    progressNext s (.close fd) rc = s := if_neg hs

theorem sockConnect_outcome {nd : Bool} (m : Machine) (name : Option String) (port : UInt32) :
    Safe (outcome nd) (sockConnect m name port) {} fun sock s' =>
      0 ≤ sock → s' = { done := [.sock] } := by
  unfold sockConnect
  -- the last `close` is not a step
  have hclose : ∀ (x : Int × Int) (s : Progress), Step.deviceList ∉ s.done →
      (0 ≤ x.1 → s = { done := [.sock] }) →
      Safe (outcome nd) (do let _ ← sys (.close x.2); pure x.1 : P Int) s fun sock s' =>
        0 ≤ sock → s' = { done := [.sock] } := by
    intro x s hmem hs rc _
    exact ⟨nofun, fun hsock => (close_ignored hmem x.2 rc).trans (hs hsock)⟩
  have hstep : ∀ b, Step.deviceList ∉ (Progress.step {} b .sock).done := by decide
  cases name with
  | none =>
      refine Safe.bind (Q := fun x s => Step.deviceList ∉ s.done ∧
        (0 ≤ x.1 → s = { done := [.sock] })) ?_ fun x s h => hclose x s h.1 h.2
      refine safe_step.mpr fun _ _ => ⟨nofun, safe_bind.mpr (safe_assert fun _ => ?_)⟩
      refine fun _ _ => ⟨nofun, fun _ _ => ⟨nofun, fun fd _ => ⟨nofun, hstep _, ?_⟩⟩⟩
      exact fun hfd => Progress.step_true (decide_eq_true hfd) _
  | some name =>
      refine Safe.bind (Q := fun x s => Step.deviceList ∉ s.done ∧
        (0 ≤ x.1 → s = { done := [.sock] })) ?_ fun x s h => hclose x s h.1 h.2
      refine safe_step.mpr fun fd _ => ⟨nofun, safe_step.mpr fun tmp _ => ⟨nofun, ?_⟩⟩
      have hmem := hstep (decide (0 ≤ fd ∧ 0 ≤ tmp))
      split
      · refine fun rc _ => ⟨nofun, ?_, fun h => absurd h (by decide)⟩
        exact fun h => hmem ((congrArg (Step.deviceList ∈ ·.done) (close_ignored hmem fd rc)).mp h)
      · rename_i htmp
        refine ⟨hmem, fun hfd => Progress.step_true (decide_eq_true ⟨hfd, ?_⟩) _⟩
        exact not_lt.mp htmp

/-- What `resources_create` has done when it is about to return 0. -/
def Created (x : Int × Resources) (s : Progress) : Prop :=
  x.1 = 0 → s = { done := createSteps } ∧ Complete x.2

theorem fillBuffer_outcome {nd : Bool} (cfg : Config) (buf : Ptr) (s : Progress) :
    Safe (outcome nd) (fillBuffer cfg buf) s fun _ s' => s' = s := by
  unfold fillBuffer
  split
  · exact fun _ _ => ⟨nofun, fun _ _ => ⟨nofun, fun _ _ => ⟨nofun, rfl⟩⟩⟩
  · exact fun _ _ => ⟨nofun, rfl⟩

theorem resourcesCreateVerbs_outcome {nd : Bool} (cfg : Config) (res : Resources)
    (hsock : 0 ≤ res.sock) :
    Safe (outcome nd) (resourcesCreateVerbs cfg res) { done := [.sock] } fun x s' =>
      Created (x.1, x.2.1) s' := by
  unfold resourcesCreateVerbs
  have hone : ∀ {res s}, Created (1, res) s := fun h => by cases h
  refine safe_step.mpr fun list _ => ⟨nofun, ?_⟩
  cases list with
  | none => exact hone
  | some list =>
  obtain ⟨devList, devices⟩ := list
  dsimp only
  split
  · exact hone
  cases findDevice cfg.devName devices with
  | none => exact hone
  | some ibDev =>
  refine safe_step.mpr fun ctx _ => ⟨nofun, ?_⟩
  cases ctx with
  | none => exact hone
  | some ctx =>
  refine safe_step.mpr fun _ _ => ⟨nofun, safe_step.mpr fun x _ => ⟨nofun, ?_⟩⟩
  obtain ⟨rcPort, portAttr⟩ := x
  dsimp only
  split
  · exact hone
  rename_i hport
  obtain rfl : rcPort = 0 := not_not.mp hport
  refine safe_step.mpr fun pd _ => ⟨nofun, ?_⟩
  cases pd with
  | none => exact hone
  | some pd =>
  refine safe_step.mpr fun cq _ => ⟨nofun, ?_⟩
  cases cq with
  | none => exact hone
  | some cq =>
  refine safe_step.mpr fun buf _ => ⟨nofun, ?_⟩
  cases buf with
  | none => exact hone
  | some buf =>
  refine safe_step.mpr fun _ _ => ⟨nofun, ?_⟩
  refine Safe.bind (fillBuffer_outcome cfg buf _) fun _ s hs => ?_
  subst hs
  refine safe_step.mpr fun mr _ => ⟨nofun, ?_⟩
  cases mr with
  | none => exact hone
  | some mr =>
  refine safe_step.mpr fun qp _ => ⟨nofun, ?_⟩
  cases qp with
  | none => exact hone
  | some qp =>
      exact fun _ => ⟨rfl, ⟨rfl, rfl, rfl, rfl, rfl, rfl, hsock⟩⟩

theorem resourcesCreate_outcome {nd : Bool} (m : Machine) (cfg : Config) :
    Safe (outcome nd) (resourcesCreate m cfg resourcesInit) {} Created := by
  unfold resourcesCreate resourcesCreateSteps
  refine Safe.bind (Q := fun x s => Created (x.1, x.2.1) s) ?_ fun x s hx => ?_
  · refine Safe.bind (sockConnect_outcome m _ _) fun sock s hs => ?_
    dsimp only
    split
    · exact fun h => by cases h
    · rename_i hsock
      rw [hs (not_lt.mp hsock)]
      exact resourcesCreateVerbs_outcome cfg _ (not_lt.mp hsock)
  · obtain ⟨rc, res, devList⟩ := x
    dsimp only at hx ⊢
    split
    · rename_i hrc
      refine Safe.bind ((resourcesCreateCleanup_uses_quiet res devList).allowed
        fun s c r h => setup_allowed nd s c r (Call.isSetup_of_isQuiet h)) fun _ _ _ => ?_
      exact fun h => absurd h hrc
    · exact hx

/-- A release of an object that is there returns 0 only when nothing has failed. -/
theorem release_outcome {nd : Bool} {α : Type} {o : Option α} (ho : o.isSome) {f : α → P Int}
    {x : Step} {rc : Int} {s₀ s : Progress} {xs : List Step}
    (hf : ∀ a s, Safe (outcome nd) (f a) s fun r s' => s' = s.step (r = 0) x)
    (hs : rc = 0 → s = s₀.add xs) :
    Safe (outcome nd) (release o f rc) s fun rc s' => rc = 0 → s' = s₀.add (xs ++ [x]) := by
  obtain ⟨a, rfl⟩ := Option.isSome_iff_exists.mp ho
  refine Safe.bind (hf a s) fun r s' hs' => ?_
  intro hrc
  split at hrc
  · cases hrc
  · rename_i hr
    rw [hs', Progress.step_true (decide_eq_true (not_not.mp hr)), hs hrc, Progress.add_add]

theorem resourcesDestroy_outcome {nd : Bool} {res : Resources} (hres : Complete res)
    {s : Progress} (hlist : Step.deviceList ∈ s.done) :
    Safe (outcome nd) (resourcesDestroy res) s fun rc s' => rc = 0 → s' = s.add destroySteps := by
  unfold resourcesDestroy
  refine Safe.bind (release_outcome hres.qp (x := .destroyQp)
    (fun _ _ _ _ => ⟨nofun, rfl⟩) fun _ => (s.add_nil).symm) fun rc s₁ h₁ => ?_
  refine Safe.bind (release_outcome hres.mr (x := .deregMr)
    (fun _ _ _ _ => ⟨nofun, rfl⟩) h₁) fun rc s₂ h₂ => ?_
  obtain ⟨buf, hbuf⟩ := Option.isSome_iff_exists.mp hres.buf
  rw [hbuf]
  refine safe_step.mpr fun _ _ => ⟨nofun, ?_⟩
  refine Safe.bind (release_outcome hres.cq (x := .destroyCq)
    (fun _ _ _ _ => ⟨nofun, rfl⟩) h₂) fun rc s₃ h₃ => ?_
  refine Safe.bind (release_outcome hres.pd (x := .deallocPd)
    (fun _ _ _ _ => ⟨nofun, rfl⟩) h₃) fun rc s₄ h₄ => ?_
  refine Safe.bind (release_outcome hres.ibCtx (x := .closeDevice)
    (fun _ _ _ _ => ⟨nofun, rfl⟩) h₄) fun rc s₅ h₅ => ?_
  rw [if_pos hres.sock]
  refine safe_step.mpr fun r _ => ⟨nofun, fun hrc => ?_⟩
  split at hrc
  · cases hrc
  · rename_i hr
    have hmem : Step.deviceList ∈ s₅.done := by
      rw [h₅ hrc]
      exact List.mem_append_left _ hlist
    have hclose : progressNext s₅ (.close res.sock) r = s₅.step (r = 0) .closeSock := if_pos hmem
    refine hclose.trans ?_
    rw [Progress.step_true (decide_eq_true (not_not.mp hr)), h₅ hrc, Progress.add_add]
    rfl

/-! ## The transfer -/

section

variable {m : Machine} {s : Progress}

/-- Where a sync of `n` bytes stands after `k` bytes. -/
def Progress.syncing (s : Progress) (n k : Nat) : Progress :=
  if n ≤ k then s.add [.sync n] else { s with sync := some (n, k) }

theorem syncing_read (hs : s.sync = none) {n k : Nat} (hk : k < n) (bs : List UInt8) :
    (s.syncing n k).read (.got bs) = s.syncing n (k + bs.length) := by
  have hlt : ¬ n ≤ k := Nat.not_le.mpr hk
  rw [Progress.syncing, if_neg hlt]
  by_cases hall : n ≤ k + bs.length
  · simp [Progress.read, Progress.syncing, Progress.add, hall, hs]
  · simp [Progress.read, Progress.syncing, hall]

/-- The invariant of the read loop: the code is 0 or negative, and while it is 0
the bytes read are those counted. -/
def Syncing (s : Progress) (n : Nat) (l : ReadLoop) (s' : Progress) : Prop :=
  l.rc ≤ 0 ∧ (l.rc = 0 → s' = s.syncing n l.totalReadBytes)

theorem readLoopBody_outcome {nd : Bool} (hs : s.sync = none) {sock : Int} {n : Nat}
    {l : ReadLoop} {s' : Progress} (hl : Syncing s n l s') :
    Safe (outcome nd) (readLoopBody sock n l) s' fun y s'' =>
      match y with
      | .inl l' => Syncing s n l' s''
      | .inr x => 0 ≤ x.1 → s'' = s.add [.sync n] := by
  unfold readLoopBody
  split
  · rename_i hcond
    rw [hl.2 hcond.1]
    refine safe_step.mpr fun r _ => ⟨nofun, ?_⟩
    cases r with
    | failed => exact ⟨Int.neg_nonpos_of_nonneg Int.one_nonneg, fun h => by cases h⟩
    | got bs =>
        have hread : progressNext (s.syncing n l.totalReadBytes) (.read sock n) (.got bs) =
            s.syncing n (l.totalReadBytes + bs.length) := syncing_read hs hcond.2 bs
        split
        · exact ⟨hl.1, fun _ => hread⟩
        · rename_i hpos
          have hnil : bs.length = 0 := by
            rw [ReadReply.count_got] at hpos
            omega
          refine ⟨not_lt.mp hpos, fun _ => ?_⟩
          rw [hnil] at hread
          exact hread
  · rename_i hcond
    intro hrc
    have hzero : l.rc = 0 := le_antisymm hl.1 hrc
    have hall : n ≤ l.totalReadBytes := not_lt.mp fun h => hcond ⟨hzero, h⟩
    rw [hl.2 hzero, Progress.syncing, if_pos hall]

theorem sync_outcome (hs : s.sync = none) {sock : Int} {n : Nat} (hn : 0 < n)
    {local' : List UInt8} (hlen : local'.length = n) (remote : List UInt8) :
    Safe (outcome m.ndebug) (sockSyncData m sock n local' remote) s fun x s' =>
      0 ≤ x.1 → s' = s.add [.sync n] := by
  have htake : local'.take n = local' := List.take_of_length_le hlen.le
  unfold sockSyncData
  rw [htake]
  refine safe_step.mpr fun rc hlegal => ⟨nofun, safe_bind.mpr (safe_assert fun hassert => ?_)⟩
  -- the assertion or the environment rules out a short count
  have hrc : rc = n ∨ rc < 0 := by
    rw [Bool.or_eq_true, decide_eq_true_eq] at hassert
    rcases hassert with hnd | hrc
    · exact hlen ▸ hlegal hnd
    · exact .inl hrc
  refine safe_iterate (I := Syncing s n) ?_ fun l s' hl => ?_
  · rcases hrc with hrc | hrc
    · have hnext : progressNext s (.write sock local') rc = s.syncing n 0 := by
        show s.wrote local'.length rc = _
        rw [Progress.wrote, if_pos (hlen ▸ hrc), Progress.syncing, if_neg (Nat.not_le.mpr hn), hlen]
      rw [if_neg (not_lt.mpr hrc.ge)]
      exact ⟨le_refl 0, fun _ => hnext⟩
    · have hlt : rc < n := lt_of_lt_of_le hrc (Int.natCast_nonneg n)
      rw [if_pos hlt]
      exact ⟨hrc.le, fun h => absurd h hrc.ne⟩
  · refine (readLoopBody_outcome hs hl).mono fun y s'' h => ?_
    cases y <;> exact h

/-- A letter sync: `rcmain` reads any nonzero code as a failure. -/
theorem letterSync_outcome (hs : s.sync = none) {sock : Int} {c : Char} (remote : List UInt8) :
    Safe (outcome m.ndebug) (sockSyncData m sock 1 (charBytes [c]) remote) s fun x s' =>
      x.1 = 0 → s' = s.add [.sync 1] :=
  (sync_outcome hs Nat.one_pos rfl remote).mono fun _ _ h hrc => h hrc.ge

theorem pollCompletion_outcome {nd : Bool} (res : Resources) :
    Safe (outcome nd) (pollCompletion m res) s fun rc s' => rc = 0 → s' = s.add [.reaped] := by
  refine safe_bind.mpr (safe_deref fun cq _ => ?_)
  refine safe_step.mpr fun t _ => ⟨nofun, ?_⟩
  refine safe_bind.mpr (safe_iterate (I := fun _ s' => s' = s) rfl fun _ s' hs' => ?_)
  subst hs'
  refine safe_step.mpr fun r _ => ⟨nofun, safe_step.mpr fun t' _ => ⟨nofun, ?_⟩⟩
  cases r with
  | failed => exact fun h => by cases h
  | empty =>
      split
      · rfl
      · exact fun h => by cases h
  | found wc =>
      rw [if_neg (by simp)]
      intro hrc
      split at hrc
      · cases hrc
      · rename_i hstatus
        exact Progress.step_true (decide_eq_true (not_not.mp hstatus)) _

theorem postSend_outcome {nd : Bool} (res : Resources) (op : WrOpcode) :
    Safe (outcome nd) (postSend res op) s fun rc s' => rc = 0 → s' = s.add [.postSend op] := by
  refine safe_bind.mpr (safe_deref fun mr _ => safe_bind.mpr (safe_deref fun qp _ => ?_))
  refine safe_perform.mpr fun rc _ => ⟨nofun, fun hrc => ?_⟩
  cases op <;> exact Progress.step_true (decide_eq_true hrc) _

theorem postRecv_outcome {nd : Bool} (res : Resources) :
    Safe (outcome nd) (postRecv res) s fun rc s' => rc = 0 → s' = s.add [.postRecv] := by
  refine safe_bind.mpr (safe_deref fun mr _ => safe_bind.mpr (safe_deref fun qp _ => ?_))
  exact safe_perform.mpr fun rc _ => ⟨nofun, fun hrc => Progress.step_true (decide_eq_true hrc) _⟩

theorem modify_outcome {nd : Bool} {qp : Ptr} {attr : IbvQpAttr} {mask : List QpAttrMask}
    (h : attr.qpState = .init → s.failed = false ∧ s.done.getLast? = some (.sync 40)) :
    Safe (outcome nd) (sys (.ibvModifyQp qp attr mask)) s fun rc s' =>
      rc = 0 → s' = s.add [.modify attr.qpState] :=
  safe_perform.mpr fun _ _ =>
    ⟨fun hinit => h (Option.some.inj hinit), fun hrc => Progress.step_true (decide_eq_true hrc) _⟩

theorem queryMyGid_outcome {nd : Bool} (cfg : Config) (res : Resources) :
    Safe (outcome nd) (queryMyGid cfg res) s fun x s' =>
      x.1 = 0 → s' = s.add (if 0 ≤ cfg.gidIdx then [.gid] else []) := by
  unfold queryMyGid
  split
  · refine safe_bind.mpr (safe_deref fun ctx _ => safe_perform.mpr fun x _ => ⟨nofun, ?_⟩)
    exact fun hrc => Progress.step_true (decide_eq_true hrc) _
  · exact fun _ => s.add_nil.symm

/-- A part that only one of the roles has. -/
theorem add_ite {nd : Bool} {b : Prop} [Decidable b] {p : P Int} {xs : List Step} {s : Progress}
    (h : b → Safe (outcome nd) p s fun rc s' => rc = 0 → s' = s.add xs) :
    Safe (outcome nd) (if b then p else pure 0) s fun rc s' =>
      rc = 0 → s' = s.add (if b then xs else []) := by
  by_cases hb : b
  · rw [if_pos hb, if_pos hb]
    exact h hb
  · rw [if_neg hb, if_neg hb]
    exact fun _ => s.add_nil.symm

theorem connectQp_outcome (hs : s.sync = none) (hfailed : s.failed = false) (cfg : Config)
    (res : Resources) :
    Safe (outcome m.ndebug) (connectQp m cfg res) s fun x s' =>
      x.1 = 0 → s' = s.add (connectSteps cfg) := by
  unfold connectQp
  refine Safe.bind (queryMyGid_outcome cfg res) fun x s' hs' => ?_
  obtain ⟨rc, myGid⟩ := x
  dsimp only at hs' ⊢
  split
  · rename_i hrc
    exact fun h => absurd h hrc
  rename_i hrc
  rw [hs' (not_not.mp hrc)]
  refine safe_bind.mpr (safe_deref fun mr _ => safe_bind.mpr (safe_deref fun qp _ => ?_))
  refine Safe.bind (sync_outcome (by exact hs) (by decide) (length_conDataBytes ..) _)
    fun x s' hs' => ?_
  obtain ⟨rc, tmp⟩ := x
  dsimp only at hs' ⊢
  split
  · exact fun h => by cases h
  rename_i hrc
  rw [hs' (not_lt.mp hrc)]
  refine safe_step.mpr fun _ _ => ⟨nofun, ?_⟩
  show Safe _ _ ((s.add (if 0 ≤ cfg.gidIdx then [.gid] else [])).add [.sync 40]) _
  have hinit : ∀ xs ys, ((s.add xs).add [.sync 40]).failed = false ∧
      ((s.add ys).add [.sync 40]).done.getLast? = some (.sync 40) :=
    fun _ _ => ⟨hfailed, by simp [Progress.add]⟩
  refine Safe.checkTo (modify_outcome fun _ => hinit _ _)
    (fun _ _ hrc h => absurd h hrc) ?_
  refine Safe.checkTo (add_ite fun _ => postRecv_outcome _)
    (fun _ _ hrc h => absurd h hrc) ?_
  refine Safe.checkTo (modify_outcome fun h => by rw [rtrAttr_qpState] at h; cases h)
    (fun _ _ hrc h => absurd h hrc) ?_
  rw [rtrAttr_qpState]
  refine Safe.checkTo (modify_outcome fun h => by cases h)
    (fun _ _ hrc h => absurd h hrc) ?_
  refine Safe.bind (letterSync_outcome (by exact hs) _) fun x s' hs' => ?_
  obtain ⟨rc, _⟩ := x
  dsimp only at hs' ⊢
  split
  · exact fun h => by cases h
  · rename_i hrc
    intro _
    rw [hs' (not_not.mp hrc)]
    simp only [Progress.add_add, connectSteps, List.append_assoc, List.cons_append,
      List.nil_append, initAttr, rtsAttr]

theorem clientRdma_outcome {nd : Bool} (res : Resources) :
    Safe (outcome nd) (clientRdma m res) s fun rc s' => rc = 0 → s' = s.add rdmaSteps := by
  unfold clientRdma
  have hone : ∀ {s' : Progress}, (1 : Int) = 0 → s' = s.add rdmaSteps := fun h => by cases h
  refine Safe.checkTo (postSend_outcome res .rdmaRead) (fun _ _ _ => hone) ?_
  refine Safe.checkTo (pollCompletion_outcome res) (fun _ _ _ => hone) ?_
  refine safe_bind.mpr (safe_deref fun buf _ => ?_)
  refine safe_step.mpr fun _ _ => ⟨nofun, safe_step.mpr fun _ _ => ⟨nofun, ?_⟩⟩
  refine safe_step.mpr fun _ _ => ⟨nofun, ?_⟩
  refine Safe.checkTo (postSend_outcome res .rdmaWrite) (fun _ _ _ => hone) ?_
  refine Safe.checkTo (pollCompletion_outcome res) (fun _ _ _ => hone) ?_
  intro _
  show (((s.add [.postSend .rdmaRead]).add [.reaped]).add [.postSend .rdmaWrite]).add [.reaped] = _
  simp only [Progress.add_add, rdmaSteps, List.cons_append, List.nil_append]

theorem rcmainTransfer_outcome (hs : s.sync = none) (hfailed : s.failed = false) (cfg : Config)
    (res : Resources) :
    Safe (outcome m.ndebug) (rcmainTransfer m cfg res) s fun x s' =>
      x.1 = 0 → s' = s.add (transferSteps cfg) := by
  unfold rcmainTransfer
  have hone : ∀ {s' : Progress}, (1 : Int) = 0 → s' = s.add (transferSteps cfg) :=
    fun h => by cases h
  refine Safe.bind (connectQp_outcome hs hfailed cfg res) fun x s' hs' => ?_
  obtain ⟨rc, res'⟩ := x
  dsimp only at hs' ⊢
  split
  · exact hone
  rename_i hrc
  rw [hs' (not_not.mp hrc)]
  refine Safe.checkTo (add_ite fun _ => postSend_outcome res' .send) (fun _ _ _ => hone) ?_
  refine Safe.checkTo (pollCompletion_outcome res') (fun _ _ _ => hone) ?_
  refine safe_bind.mpr (safe_deref fun buf _ => ?_)
  refine Safe.bindSame ?_ fun _ => ?_
  · exact safe_ite (fun _ _ _ => ⟨nofun, rfl⟩) fun _ _ _ => ⟨nofun, rfl⟩
  refine Safe.bind (letterSync_outcome (by exact hs) _) fun x s' hs' => ?_
  obtain ⟨rc, tempChar⟩ := x
  dsimp only at hs' ⊢
  split
  · exact hone
  rename_i hrc
  rw [hs' (not_not.mp hrc)]
  refine Safe.checkTo (add_ite fun _ => clientRdma_outcome res') (fun _ _ _ => hone) ?_
  refine Safe.bind (letterSync_outcome (by exact hs) _) fun x s' hs' => ?_
  obtain ⟨rc, _⟩ := x
  dsimp only at hs' ⊢
  split
  · exact hone
  rename_i hrc
  rw [hs' (not_not.mp hrc)]
  refine Safe.bindSame ?_ fun _ => ?_
  · exact safe_ite (fun _ _ _ => ⟨nofun, rfl⟩) fun _ => rfl
  intro _
  simp only [Progress.add_add, transferSteps, List.append_assoc, List.cons_append,
    List.nil_append]

end

/-! ## The run -/

theorem rcmainBody_outcome (m : Machine) (cfg : Config) :
    Safe (outcome m.ndebug) (rcmainBody m cfg) {} fun rc s' =>
      rc = 0 → s' = { done := roleSteps cfg } := by
  unfold rcmainBody
  refine Safe.bind (resourcesCreate_outcome m cfg) fun x s hx => ?_
  obtain ⟨rc, res⟩ := x
  have htransfer : Safe (outcome m.ndebug)
      (if rc ≠ 0 then pure (1, res) else rcmainTransfer m cfg res) s fun x s' =>
        x.1 = 0 → s' = { done := createSteps ++ transferSteps cfg } ∧ Complete x.2 := by
    split
    · exact fun h => by cases h
    · rename_i hrc
      obtain ⟨rfl, hres⟩ := hx (not_not.mp hrc)
      refine ((rcmainTransfer_uses_transfer m cfg res).and
        (rcmainTransfer_outcome rfl rfl cfg res)).mono fun x s' h hx => ?_
      obtain ⟨⟨props, hsame⟩, hs'⟩ := h
      refine ⟨hs' hx, ?_⟩
      rw [hsame]
      exact ⟨hres.qp, hres.mr, hres.buf, hres.cq, hres.pd, hres.ibCtx, hres.sock⟩
  refine Safe.bind htransfer fun x s' hx => ?_
  obtain ⟨rc, res⟩ := x
  by_cases hrc : rc = 0
  · obtain ⟨rfl, hres⟩ := hx hrc
    have hmem : Step.deviceList ∈ createSteps ++ transferSteps cfg :=
      List.mem_append_left _ (by decide)
    refine Safe.bind (resourcesDestroy_outcome hres hmem) fun rc' s' hs' hzero => ?_
    split at hzero
    · cases hzero
    · rename_i hdestroy
      exact hs' (not_not.mp hdestroy)
  · refine Safe.bind ((resourcesDestroy_uses_setup res).allowed (setup_allowed m.ndebug))
      fun rc' s' _ hzero => ?_
    split at hzero
    · cases hzero
    · exact absurd hzero hrc

/-- Soundness of the reported result: with assertions compiled in, or when no
`write` is short, a run that returns 0 has made every step of its role and no
checked call has failed, and in any run the queue pair is moved to INIT only
after a complete exchange. -/
theorem rcmain_zero_allSteps {m : Machine} {cfg : Config} {t : List (Event Call Reply)} {q : P Int}
    (hrun : Runs (rcmainBody m cfg) t q)
    (hwhole : m.ndebug = true → ∀ e ∈ t, wholeWrite e.call e.reply) :
    (q = ret 0 → (outcome m.ndebug).after {} t = { done := roleSteps cfg }) ∧
      (outcome m.ndebug).Ok {} t := by
  have hlegal : (outcome m.ndebug).Legal {} t :=
    Monitor.legal_of_forall _ fun e he _ hnd => hwhole hnd e he
  have hsafe := (rcmainBody_outcome m cfg).runs hrun hlegal
  refine ⟨fun hq => ?_, hsafe.1⟩
  rw [hq] at hsafe
  exact hsafe.2 rfl

theorem rcmain_zero_allSteps_server :
    (outcome false).after {} (obligingRun config) = { done := roleSteps config } :=
  (rcmain_zero_allSteps obligingRun_server (fun h => by cases h)).1 rfl

/-- Every call succeeds but the `write` of the connection data, which takes 8 of
the 40 bytes. -/
def shortWrite : (c : Call) → Nat → Option (Reply c × Nat)
  | .write _ data, n => some ((if data.length = 40 then 8 else data.length : Int), n)
  | c, n => obliging c n

def ndebugMachine : Machine := { littleMachine with ndebug := true }

def shortWriteRun : List (Event Call Reply) :=
  (play shortWrite (rcmainBody ndebugMachine config) 0).1

/-- With assertions compiled out this run returns 0 without having exchanged the
connection data. -/
theorem shortWriteRun_reported :
    Runs (rcmainBody ndebugMachine config) shortWriteRun (ret 0) ∧
      (outcome true).after {} shortWriteRun ≠ { done := roleSteps config } ∧
      ¬ (outcome true).Ok {} shortWriteRun := by
  refine ⟨runs_play shortWrite (rcmainBody ndebugMachine config) 0, by decide, by decide⟩

end Rdma
end CommSpeed
