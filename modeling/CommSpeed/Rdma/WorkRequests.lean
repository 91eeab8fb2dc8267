/-
Work requests over a whole run.

The monitor follows the state of the queue pair, the Q sync and the requests that
are posted and not yet reaped.  The verbs library is assumed to report a
completion only for such a request, so it reports one completion for each
request and none for the passive side of an RDMA operation.
-/
import CommSpeed.Rdma.Main

namespace CommSpeed
namespace Rdma

open Bytes Prog

/-- Where a run stands with the sync after the queue pair is ready.  The sync has
returned 0 once a `read` after the `write` of `Q` got its byte. -/
inductive QSync
  | notYet
  | written
  | returnedZero
  deriving DecidableEq

structure WrState where
  qp : QpState := .reset
  qSync : QSync := .notYet
  posted : Nat := 0
  pending : List Nat := []

/-- The effect of a call on the work requests of a run. -/
def wrNext (s : WrState) : (c : Call) → Reply c → WrState
  | .write _ data, rc =>
    if data = charBytes ['Q'] ∧ 0 ≤ rc then { s with qSync := .written } else s
  | .read .., r =>
    if s.qSync = .written ∧ 0 < r.count then { s with qSync := .returnedZero } else s
  | .ibvModifyQp _ attr _, rc => if rc = 0 then { s with qp := attr.qpState } else s
  | .ibvPostSend .., rc =>
    if rc = 0 then { s with posted := s.posted + 1, pending := s.pending ++ [s.posted] } else s
  | .ibvPostRecv .., rc =>
    if rc = 0 then { s with posted := s.posted + 1, pending := s.pending ++ [s.posted] } else s
  | .ibvPollCq .., .found wc => { s with pending := s.pending.erase wc.req }
  | _, _ => s

def reaped : (c : Call) → Reply c → Option Nat
  | .ibvPollCq .., .found wc => some wc.req
  | _, _ => none

/-- A completion belongs to a request that is posted and not yet reaped. -/
def wrLegal (s : WrState) (c : Call) (r : Reply c) : Prop := ∀ k ∈ reaped c r, k ∈ s.pending

instance (s : WrState) (c : Call) (r : Reply c) : Decidable (wrLegal s c r) :=
  inferInstanceAs (Decidable (∀ k ∈ reaped c r, k ∈ s.pending))

/-- A receive is posted from INIT on and a send in RTS after the Q sync; the
completion queue has one entry, the queue pair one request of each kind, and at
most one request is pending after each call; a completion is of the request
posted last. -/
def wrOk (s : WrState) (c : Call) (r : Reply c) : Prop :=
  (wrNext s c r).pending.length ≤ 1 ∧
  (∀ k ∈ reaped c r, k + 1 = s.posted) ∧
  match c with
  | .ibvCreateCq _ cqe => cqe = 1
  | .ibvCreateQp _ attr => attr.cap.maxSendWr = 1 ∧ attr.cap.maxRecvWr = 1
  | .ibvPostRecv .. => s.qp ≠ .reset
  | .ibvPostSend .. => s.qp = .rts ∧ s.qSync = .returnedZero
  | _ => True

def workRequests : Monitor Call Reply WrState where
  legal := wrLegal
  ok := wrOk
  next := wrNext

instance (s : WrState) (c : Call) (r : Reply c) : Decidable (workRequests.legal s c r) :=
  inferInstanceAs (Decidable (wrLegal s c r))

/-! ## Functions that post and reap nothing -/

theorem setup_ignored {s : WrState} (hs : s.pending.length ≤ 1) {c : Call} (r : Reply c)
    (h : setup c) : wrOk s c r ∧ wrNext s c r = s := by
  cases c with
  | ibvCreateCq _ cqe => exact ⟨⟨hs, nofun, by simpa [setup, Call.isSetup] using h⟩, rfl⟩
  | ibvCreateQp _ attr => exact ⟨⟨hs, nofun, by simpa [setup, Call.isSetup] using h⟩, rfl⟩
  | _ => first | exact ⟨⟨hs, nofun, trivial⟩, rfl⟩ | cases h

theorem setup_safe {α : Type} {p : P α} (hp : Uses setup p fun _ => True) {s : WrState}
    (hs : s.pending.length ≤ 1) : Safe workRequests p s fun _ s' => s' = s :=
  (hp.safe fun _ r h => setup_ignored hs r h).mono fun _ _ h => h.2

/-- A sync with another letter than `Q` changes nothing. -/
theorem sync_ignored {m : Machine} {sock : Int} {n : Nat} {l r : List UInt8} {s : WrState}
    (hs : s.pending.length ≤ 1) (hl : l.take n ≠ charBytes ['Q']) (hq : s.qSync ≠ .written) :
    Safe workRequests (sockSyncData m sock n l r) s fun _ s' => s' = s := by
  have huses : Uses (fun c => c = .write sock (l.take n) ∨ c = .read sock n)
      (sockSyncData m sock n l r) fun _ => True :=
    sockSyncData_uses (U := fun c => c = .write sock (l.take n) ∨ c = .read sock n)
      (.inl rfl) (.inr rfl)
  refine (huses.safe fun c r hc => ?_).mono fun _ _ h => h.2
  rcases hc with rfl | rfl
  · have hnext : wrNext s (.write sock (l.take n)) r = s := if_neg fun h => hl h.1
    exact ⟨⟨by rw [hnext]; exact hs, nofun, trivial⟩, hnext⟩
  · have hnext : wrNext s (.read sock n) r = s := if_neg fun h => hq h.1
    exact ⟨⟨by rw [hnext]; exact hs, nofun, trivial⟩, hnext⟩

/-! ## The Q sync -/

/-- Inside the Q sync: the byte has been written, and as long as no read failed
the sync is over exactly when a byte has been read. -/
def QLoop (s : WrState) (l : ReadLoop) (s' : WrState) : Prop :=
  ∃ q, s' = { s with qSync := q } ∧
    (l.rc = 0 → q = if 0 < l.totalReadBytes then .returnedZero else .written)

theorem qSync_write {sock rc : Int} {s : WrState} (r : List UInt8) :
    QLoop s { rc := if rc < 1 then rc else 0, totalReadBytes := 0, remoteData := r }
      (wrNext s (.write sock (charBytes ['Q'])) rc) := by
  by_cases hrc : 0 ≤ rc
  · refine ⟨.written, if_pos ⟨rfl, hrc⟩, fun _ => rfl⟩
  · refine ⟨s.qSync, if_neg fun h => hrc h.2, fun h => ?_⟩
    dsimp only at h
    split at h <;> omega

theorem qSync_body {sock : Int} {s s' : WrState} (hs : s.pending.length ≤ 1) {l : ReadLoop}
    (hl : QLoop s l s') :
    Safe workRequests (readLoopBody sock 1 l) s' fun y s'' =>
      match y with
      | .inl l' => QLoop s l' s''
      | .inr x => ∃ q, s'' = { s with qSync := q } ∧ (x.1 = 0 → q = .returnedZero) := by
  obtain ⟨q, rfl, hq⟩ := hl
  unfold readLoopBody
  split
  · rename_i hcond
    have hwritten : q = .written := by
      rw [hq hcond.1, if_neg (by omega)]
    subst hwritten
    refine safe_step.mpr fun r _ => ?_
    by_cases hpos : 0 < r.count
    · have hnext : wrNext { s with qSync := .written } (.read sock 1) r =
          { s with qSync := .returnedZero } := if_pos ⟨rfl, hpos⟩
      refine ⟨⟨by rw [hnext]; exact hs, nofun, trivial⟩, ?_⟩
      rw [if_pos hpos]
      refine ⟨.returnedZero, hnext, fun _ => ?_⟩
      have hlen : 0 < r.bytes.length := by
        cases r with
        | failed => cases hpos
        | got bs => exact Int.ofNat_lt.mp hpos
      rw [if_pos (by dsimp only; omega)]
    · have hnext : wrNext { s with qSync := .written } (.read sock 1) r =
          { s with qSync := .written } := if_neg fun h => hpos h.2
      refine ⟨⟨by rw [hnext]; exact hs, nofun, trivial⟩, ?_⟩
      rw [if_neg hpos]
      exact ⟨.written, hnext, fun _ => (if_neg (by dsimp only; omega)).symm⟩
  · rename_i hcond
    refine ⟨q, rfl, fun hrc => ?_⟩
    rw [hq hrc, if_pos]
    by_contra hzero
    exact hcond ⟨hrc, by omega⟩

theorem qSync_safe (m : Machine) (sock : Int) (r : List UInt8) {s : WrState}
    (hs : s.pending.length ≤ 1) :
    Safe workRequests (sockSyncData m sock 1 (charBytes ['Q']) r) s fun x s' =>
      ∃ q, s' = { s with qSync := q } ∧ (x.1 = 0 → q = .returnedZero) := by
  refine safe_step.mpr fun rc _ => ?_
  have hloop : QLoop s { rc := if rc < 1 then rc else 0, totalReadBytes := 0, remoteData := r }
      (wrNext s (.write sock (charBytes ['Q'])) rc) := qSync_write r
  refine ⟨⟨?_, nofun, trivial⟩, ?_⟩
  · obtain ⟨q, hnext, _⟩ := hloop
    exact (congrArg (fun s' => s'.pending.length) hnext).trans_le hs
  refine safe_bind.mpr (safe_assert fun _ => ?_)
  refine safe_iterate hloop fun l s' hl => (qSync_body hs hl).mono fun y s'' h => ?_
  cases y <;> exact h

/-! ## Posting and reaping -/

theorem pollCompletion_safe (m : Machine) (res : Resources) {s : WrState} {k : Nat}
    (hpending : s.pending = [k]) (hposted : k + 1 = s.posted) :
    Safe workRequests (pollCompletion m res) s fun rc s' =>
      ∃ p, s' = { s with pending := p } ∧ p.length ≤ 1 ∧ (rc = 0 → p = []) := by
  have hone : s.pending.length ≤ 1 := by rw [hpending]; exact Nat.le_refl 1
  refine safe_bind.mpr (safe_deref fun cq _ => ?_)
  refine safe_step.mpr fun t _ => ⟨⟨hone, nofun, trivial⟩, ?_⟩
  refine safe_bind.mpr (safe_iterate (I := fun _ s' => s' = s) rfl fun _ s' hs' => ?_)
  subst hs'
  refine safe_step.mpr fun r hr => ?_
  cases r with
  | failed =>
      refine ⟨⟨hone, nofun, trivial⟩, safe_step.mpr fun t' _ => ⟨⟨hone, nofun, trivial⟩, ?_⟩⟩
      rw [if_neg (by simp)]
      exact ⟨s'.pending, rfl, hone, fun h => by cases h⟩
  | empty =>
      refine ⟨⟨hone, nofun, trivial⟩, safe_step.mpr fun t' _ => ⟨⟨hone, nofun, trivial⟩, ?_⟩⟩
      split
      · rfl
      · exact ⟨s'.pending, rfl, hone, fun h => by cases h⟩
  | found wc =>
      have hreq : wc.req = k := by
        have hmem : wc.req ∈ s'.pending := hr _ rfl
        rw [hpending] at hmem
        exact List.mem_singleton.mp hmem
      have hnext : wrNext s' (.ibvPollCq cq 1) (.found wc) = { s' with pending := [] } := by
        simp [wrNext, hreq, hpending]
      have hlast : ∀ j ∈ reaped (.ibvPollCq cq 1) (.found wc), j + 1 = s'.posted := by
        intro j hj
        cases hj
        omega
      refine ⟨⟨by rw [hnext]; exact Nat.zero_le 1, hlast, trivial⟩, ?_⟩
      have hclock : ∀ t', wrNext { s' with pending := [] } .gettimeofday t' =
          { s' with pending := [] } := fun _ => rfl
      rw [show workRequests.next s' (.ibvPollCq cq 1) (.found wc) = _ from hnext]
      refine safe_step.mpr fun t' _ => ⟨⟨by rw [hclock]; exact Nat.zero_le 1, nofun, trivial⟩, ?_⟩
      rw [if_neg (by simp)]
      exact ⟨[], rfl, Nat.zero_le 1, fun _ => rfl⟩

/-- What a posting function leaves: nothing changed, or one more request pending. -/
def Posted (s : WrState) (rc : Int) (s' : WrState) : Prop :=
  (rc ≠ 0 → s' = s) ∧
  (rc = 0 → s' = { s with posted := s.posted + 1, pending := [s.posted] })

theorem posted_wrNext {s : WrState} (hpending : s.pending = []) (rc : Int) :
    Posted s rc (if rc = 0 then
      { s with posted := s.posted + 1, pending := s.pending ++ [s.posted] } else s) := by
  refine ⟨fun h => if_neg h, fun h => ?_⟩
  rw [if_pos h, hpending]
  rfl

theorem Posted.length_le {s s' : WrState} {rc : Int} (h : Posted s rc s')
    (hpending : s.pending = []) : s'.pending.length ≤ 1 := by
  by_cases hrc : rc = 0
  · rw [h.2 hrc]
    exact Nat.le_refl 1
  · rw [h.1 hrc, hpending]
    exact Nat.zero_le 1

theorem postSend_safe (res : Resources) (op : WrOpcode) {s : WrState} (hpending : s.pending = [])
    (hqp : s.qp = .rts) (hq : s.qSync = .returnedZero) :
    Safe workRequests (postSend res op) s (Posted s) := by
  refine safe_bind.mpr (safe_deref fun mr _ => safe_bind.mpr (safe_deref fun qp _ => ?_))
  refine safe_perform.mpr fun rc _ => ?_
  have hposted := posted_wrNext hpending rc
  exact ⟨⟨hposted.length_le hpending, nofun, hqp, hq⟩, hposted⟩

theorem postRecv_safe (res : Resources) {s : WrState} (hpending : s.pending = [])
    (hqp : s.qp ≠ .reset) : Safe workRequests (postRecv res) s (Posted s) := by
  refine safe_bind.mpr (safe_deref fun mr _ => safe_bind.mpr (safe_deref fun qp _ => ?_))
  refine safe_perform.mpr fun rc _ => ?_
  have hposted := posted_wrNext hpending rc
  exact ⟨⟨hposted.length_le hpending, nofun, hqp⟩, hposted⟩

theorem modify_safe {qp : Ptr} {attr : IbvQpAttr} {mask : List QpAttrMask} {s : WrState}
    (hs : s.pending.length ≤ 1) :
    Safe workRequests (sys (.ibvModifyQp qp attr mask)) s fun rc s' =>
      s'.pending.length ≤ 1 ∧ (rc = 0 → s' = { s with qp := attr.qpState }) := by
  refine safe_perform.mpr fun rc _ => ?_
  have hnext : (wrNext s (.ibvModifyQp qp attr mask) rc).pending = s.pending := by
    show (if rc = 0 then { s with qp := attr.qpState } else s).pending = s.pending
    split <;> rfl
  have hone : (wrNext s (.ibvModifyQp qp attr mask) rc).pending.length ≤ 1 := by
    rw [hnext]
    exact hs
  exact ⟨⟨hone, nofun, trivial⟩, hone, fun hrc => if_pos hrc⟩

/-! ## The run -/

/-- After `connect_qp` the client has its receive request pending. -/
def wrConnected (cfg : Config) : WrState :=
  { qp := .rts, qSync := .returnedZero,
    posted := if cfg.serverName.isSome then 1 else 0,
    pending := if cfg.serverName.isSome then [0] else [] }

theorem connectQp_safe (m : Machine) (cfg : Config) (res : Resources) :
    Safe workRequests (connectQp m cfg res) {} fun x s' =>
      s'.pending.length ≤ 1 ∧ (x.1 = 0 → s' = wrConnected cfg) := by
  unfold connectQp
  have hzero : ([] : List Nat).length ≤ 1 := Nat.zero_le 1
  have hgid : Safe workRequests (queryMyGid cfg res) {} fun _ s' => s' = {} := by
    refine ((queryMyGid_uses (U := fun c => ∃ ctx port i, c = .ibvQueryGid ctx port i)
      (fun _ => ⟨_, _, _, rfl⟩) res).safe fun c r hc => ?_).mono fun _ _ h => h.2
    obtain ⟨ctx, port, i, rfl⟩ := hc
    exact ⟨⟨hzero, nofun, trivial⟩, rfl⟩
  refine Safe.bind hgid fun x s' hs' => ?_
  subst hs'
  obtain ⟨rc, myGid⟩ := x
  dsimp only
  split
  · rename_i hrc
    exact ⟨hzero, fun h => absurd h hrc⟩
  refine safe_bind.mpr (safe_deref fun mr _ => safe_bind.mpr (safe_deref fun qp _ => ?_))
  have hdata : ∀ d, (conDataBytes m.order m.padding d).take 40 ≠ charBytes ['Q'] := by
    intro d h
    have hlen := congrArg List.length h
    rw [List.length_take, length_conDataBytes] at hlen
    exact absurd hlen (by decide)
  refine Safe.bind (sync_ignored hzero (hdata _) (by decide)) fun x s' hs' => ?_
  subst hs'
  obtain ⟨rc, tmp⟩ := x
  dsimp only
  split
  · exact ⟨hzero, fun h => by cases h⟩
  refine safe_step.mpr fun _ _ => ⟨⟨hzero, nofun, trivial⟩, ?_⟩
  -- INIT
  refine (modify_safe hzero).check (fun _ _ hrc h => ⟨h.1, fun h0 => absurd h0 hrc⟩) ?_
  rintro s' ⟨-, hinit⟩
  rw [hinit rfl]
  -- the receive request of the client
  have hrecv : Safe workRequests
      (if cfg.serverName.isSome then
        postRecv { res with remoteProps := conDataOf m.order tmp } else pure 0)
      { qp := .init } fun rc s' => s'.pending.length ≤ 1 ∧
        (rc = 0 → s' = { wrConnected cfg with qp := .init, qSync := .notYet }) := by
    by_cases hclient : cfg.serverName.isSome
    · rw [if_pos hclient]
      refine (postRecv_safe _ rfl (by simp)).mono fun rc s' h => ⟨h.length_le rfl, fun hrc => ?_⟩
      rw [h.2 hrc]
      simp [wrConnected, hclient]
    · rw [if_neg hclient]
      exact ⟨hzero, fun _ => by simp [wrConnected, hclient]⟩
  refine hrecv.check (fun _ _ hrc h => ⟨h.1, fun h0 => absurd h0 hrc⟩) ?_
  rintro s' ⟨hone, hposted⟩
  rw [hposted rfl] at hone ⊢
  -- RTR and RTS
  refine (modify_safe hone).check (fun _ _ hrc h => ⟨h.1, fun h0 => absurd h0 hrc⟩) ?_
  rintro s' ⟨-, hrtr⟩
  rw [hrtr rfl]
  refine (modify_safe (by exact hone)).check (fun _ _ hrc h => ⟨h.1, fun h0 => absurd h0 hrc⟩) ?_
  rintro s' ⟨-, hrts⟩
  rw [hrts rfl]
  refine Safe.bind (qSync_safe m res.sock [m.tempChar] hone) fun x s' hs' => ?_
  obtain ⟨rc, _⟩ := x
  obtain ⟨q, rfl, hq⟩ := hs'
  dsimp only at hq ⊢
  split
  · exact ⟨hone, fun h => by cases h⟩
  · rename_i hrc
    refine ⟨hone, fun _ => ?_⟩
    rw [hq (not_not.mp hrc)]
    rfl

/-- Post a send request and wait for its completion, as `rcmain` does three times. -/
theorem postAndPoll_safe (m : Machine) (res : Resources) {s : WrState} {k : Nat}
    {post : P Int} (hpost : Safe workRequests post s fun rc s' =>
      s'.pending.length ≤ 1 ∧ (rc = 0 → s' = { s with posted := k + 1, pending := [k] }))
    {α : Type} {e : α} {f : P α} {Q : α → WrState → Prop}
    (he : ∀ s', s'.pending.length ≤ 1 → Q e s')
    (hf : Safe workRequests f { s with posted := k + 1, pending := [] } Q) :
    Safe workRequests (do
      let rc ← post
      if rc ≠ 0 then pure e else
        let rc ← pollCompletion m res
        if rc ≠ 0 then pure e else f) s Q := by
  refine hpost.check (fun _ s' _ h => he s' h.1) ?_
  rintro s' ⟨-, hs'⟩
  rw [hs' rfl]
  refine (pollCompletion_safe m res rfl rfl).check (fun _ s' _ h => ?_) ?_
  · obtain ⟨p, rfl, hp, -⟩ := h
    exact he _ hp
  · rintro s' ⟨p, rfl, -, hp⟩
    rw [hp rfl]
    exact hf

theorem clientRdma_safe (m : Machine) (res : Resources) {s : WrState} (hpending : s.pending = [])
    (hqp : s.qp = .rts) (hq : s.qSync = .returnedZero) :
    Safe workRequests (clientRdma m res) s fun rc s' =>
      s'.pending.length ≤ 1 ∧ (rc = 0 → s'.pending = [] ∧ s'.qSync = s.qSync) := by
  unfold clientRdma
  have hsend : ∀ op {s' : WrState}, s'.pending = [] → s'.qp = .rts → s'.qSync = .returnedZero →
      Safe workRequests (postSend res op) s' fun rc s'' => s''.pending.length ≤ 1 ∧
        (rc = 0 → s'' = { s' with posted := s'.posted + 1, pending := [s'.posted] }) :=
    fun op _ hpending hqp hq => (postSend_safe res op hpending hqp hq).mono fun _ _ h =>
      ⟨h.length_le hpending, h.2⟩
  have hzero : ([] : List Nat).length ≤ 1 := Nat.zero_le 1
  have hfail : ∀ s' : WrState, s'.pending.length ≤ 1 →
      s'.pending.length ≤ 1 ∧ ((1 : Int) = 0 → s'.pending = [] ∧ s'.qSync = s.qSync) :=
    fun _ h => ⟨h, fun h0 => by cases h0⟩
  refine postAndPoll_safe m res (hsend .rdmaRead hpending hqp hq) hfail ?_
  refine safe_bind.mpr (safe_deref fun buf _ => ?_)
  refine safe_step.mpr fun _ _ => ⟨⟨hzero, nofun, trivial⟩, ?_⟩
  refine safe_step.mpr fun _ _ => ⟨⟨hzero, nofun, trivial⟩, ?_⟩
  refine safe_step.mpr fun _ _ => ⟨⟨hzero, nofun, trivial⟩, ?_⟩
  refine postAndPoll_safe m res (hsend .rdmaWrite rfl (by exact hqp) (by exact hq)) hfail ?_
  exact ⟨hzero, fun _ => ⟨rfl, rfl⟩⟩

/-- Polls after the send of the server, or after the receive that the client posted
in `connect_qp`. -/
theorem firstPost_safe (cfg : Config) (res : Resources) :
    Safe workRequests (if cfg.serverName.isNone then postSend res .send else pure 0)
      (wrConnected cfg) fun rc s' => s'.pending.length ≤ 1 ∧
        (rc = 0 → s' = { wrConnected cfg with posted := 0 + 1, pending := [0] }) := by
  by_cases hserver : cfg.serverName.isNone
  · have hnone : cfg.serverName.isSome = false := by simpa using hserver
    have hpending : (wrConnected cfg).pending = [] := by simp [wrConnected, hnone]
    have hposted : (wrConnected cfg).posted = 0 := by simp [wrConnected, hnone]
    rw [if_pos hserver]
    refine (postSend_safe res .send hpending rfl rfl).mono fun rc s' h => ⟨h.length_le hpending, ?_⟩
    intro hrc
    rw [h.2 hrc, hposted]
  · have hsome : cfg.serverName.isSome = true := by
      cases h : cfg.serverName <;> simp_all
    rw [if_neg hserver]
    refine ⟨?_, fun _ => ?_⟩
    · simp [wrConnected, hsome]
    · simp [wrConnected, hsome]

theorem rcmainTransfer_safe (m : Machine) (cfg : Config) (res : Resources) :
    Safe workRequests (rcmainTransfer m cfg res) {} fun _ s' => s'.pending.length ≤ 1 := by
  unfold rcmainTransfer
  have hzero : ([] : List Nat).length ≤ 1 := Nat.zero_le 1
  refine Safe.bind (connectQp_safe m cfg res) fun x s' hs' => ?_
  obtain ⟨rc, res'⟩ := x
  dsimp only at hs' ⊢
  split
  · exact hs'.1
  rename_i hrc
  rw [hs'.2 (not_not.mp hrc)]
  refine postAndPoll_safe m res' (firstPost_safe cfg res') (fun _ h => h) ?_
  refine safe_bind.mpr (safe_deref fun buf _ => ?_)
  refine Safe.bindSame ?_ fun _ => ?_
  · exact safe_ite (fun _ _ _ => ⟨⟨hzero, nofun, trivial⟩, rfl⟩)
      fun _ _ _ => ⟨⟨hzero, nofun, trivial⟩, rfl⟩
  refine Safe.bind (sync_ignored hzero (by decide) (by simp [wrConnected])) fun x s' hs' => ?_
  obtain ⟨rc, tempChar⟩ := x
  rw [hs']
  dsimp only
  split
  · exact hzero
  refine Safe.check (R := fun rc s' => s'.pending.length ≤ 1 ∧
    (rc = 0 → s'.pending = [] ∧ s'.qSync = .returnedZero)) ?_ (fun _ _ _ h => h.1) ?_
  · exact safe_ite (fun _ => clientRdma_safe m res' rfl rfl rfl)
      fun _ => ⟨hzero, fun _ => ⟨rfl, rfl⟩⟩
  rintro s' ⟨hone, hsync⟩
  refine Safe.bind (sync_ignored hone (by decide) (by simp [(hsync rfl).2])) fun x s'' hs'' => ?_
  obtain ⟨rc, _⟩ := x
  rw [hs'']
  dsimp only
  split
  · exact hone
  refine Safe.bindSame ?_ fun _ => hone
  exact safe_ite (fun _ _ _ => ⟨⟨hone, nofun, trivial⟩, rfl⟩) fun _ => rfl

theorem rcmainBody_safe (m : Machine) (cfg : Config) :
    Safe workRequests (rcmainBody m cfg) {} fun _ s' => s'.pending.length ≤ 1 := by
  unfold rcmainBody
  have hzero : ([] : List Nat).length ≤ 1 := Nat.zero_le 1
  refine Safe.bind (setup_safe (resourcesCreate_uses_setup m cfg _) hzero) fun x s' hs' => ?_
  subst hs'
  obtain ⟨rc, res⟩ := x
  refine Safe.bind (Q := fun _ s' => s'.pending.length ≤ 1) ?_ fun x s' hone => ?_
  · exact safe_ite (fun _ => hzero) fun _ => rcmainTransfer_safe m cfg res
  refine Safe.bind (setup_safe (resourcesDestroy_uses_setup _) hone) fun _ s'' hs'' => ?_
  subst hs''
  exact hone

/-- Work-request discipline of a run of either role, with every outcome of every
call. -/
theorem rcmain_workRequests (m : Machine) (cfg : Config) (t : List (Event Call Reply)) (q : P Int)
    (hrun : Runs (rcmainBody m cfg) t q) (hlegal : workRequests.Legal {} t) :
    workRequests.Ok {} t :=
  ((rcmainBody_safe m cfg).runs hrun hlegal).1

theorem rcmain_workRequests_client : workRequests.Ok {} (obligingRun clientConfig) :=
  rcmain_workRequests littleMachine clientConfig _ _ obligingRun_client (by decide)

end Rdma
end CommSpeed
