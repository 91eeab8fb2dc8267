/-
What is used is held.

`named c` are the objects that the arguments of a call stand for, of the kinds in the
ledger of `CommSpeed/Rdma/Release.lean`.  At every call of a run they are held: nothing
is used before it is acquired or after it is released, also on the paths behind a
failure.  The one exception is descriptor 0, which a client closes at the end of
`sock_connect` and goes on using when it is its connection.

`Covers own live` says that what the resources stand for is on the ledger.  Each
function keeps it, and names nothing else.

A work request does not name its memory region but the region's key.  `regions` follows
the regions that are registered, and every key in a request is the key of one of them.
-/
import CommSpeed.Rdma.Release

namespace CommSpeed
namespace Rdma

open Bytes Prog

/-- The objects that the arguments of a call stand for.  A device belongs to its list
and is no object of its own, and a work request gives the key of its memory region,
`Call.lkey`. -/
def named : Call → List Obj
  | .connect fd _ _ | .bind fd _ | .listen fd _ | .accept fd => (fdObj fd).toList
  | .close fd | .write fd _ | .read fd _ => (fdObj fd).toList
  | .free p | .memsetZero p _ | .strcpy p _ | .printBuf _ p => [.buf p]
  | .ibvFreeDeviceList p => [.devList p]
  | .ibvCloseDevice p | .ibvQueryPort p _ | .ibvQueryGid p _ _ => [.ibCtx p]
  | .ibvAllocPd p | .ibvCreateCq p _ => [.ibCtx p]
  | .ibvDeallocPd p => [.pd p]
  | .ibvRegMr pd addr _ _ => [.pd pd, .buf addr]
  | .ibvCreateQp pd attr => [.pd pd, .cq attr.sendCq, .cq attr.recvCq]
  | .ibvDestroyCq p | .ibvPollCq p _ => [.cq p]
  | .ibvDeregMr p => [.mr p]
  | .ibvDestroyQp p | .ibvModifyQp p _ _ => [.qp p]
  | .ibvPostSend p wr => [.qp p, .buf wr.sge.addr]
  | .ibvPostRecv p wr => [.qp p, .buf wr.sge.addr]
  | .socket | .malloc _ | .gettimeofday | .printRemote _ | .ibvGetDeviceList
  | .ibvOpenDevice _ => []

/-- What `own` lists is on the ledger; for a client descriptor 0 may be missing. -/
def Covers (client : Prop) (own live : List Obj) : Prop :=
  ∀ o ∈ own, o ∈ live ∨ client ∧ o = .fd 0

/-- The ledger, with the demand on the calls that they name what is held. -/
def usage (client : Prop) : Monitor Call Reply (List Obj) where
  legal _ _ _ := True
  ok live c _ := Covers client (named c) live
  next := ledger.next

section

variable {client : Prop} {α : Type} {own live : List Obj} {Q : α → List Obj → Prop}

theorem usage_legal (live : List Obj) (t : List (Event Call Reply)) :
    (usage client).Legal live t := by
  induction t generalizing live with
  | nil => trivial
  | cons e t ih => exact ⟨trivial, ih _⟩

theorem usage_after (live : List Obj) (t : List (Event Call Reply)) :
    (usage client).after live t = ledger.after live t := by
  induction t generalizing live with
  | nil => rfl
  | cons e t ih => exact ih _

theorem Covers.sub {own' : List Obj} (h : Covers client own live) (hsub : ∀ o ∈ own', o ∈ own) :
    Covers client own' live :=
  fun o ho => h o (hsub o ho)

theorem Covers.sub_live {live' : List Obj} (h : Covers client own live)
    (hsub : ∀ o ∈ live, o ∈ live') : Covers client own live' :=
  fun o ho => (h o ho).imp_left (hsub o)

theorem covers_refl (live : List Obj) : Covers client live live := fun _ ho => .inl ho

theorem usage_exact {c : Call} {f : Reply c → P α} (hnamed : Covers client (named c) live)
    (hrel : released c = none)
    (hf : ∀ r, Safe (usage client) (f r) ((acquired c r).toList ++ live) Q) :
    Safe (usage client) (sys c >>= f) live Q := by
  refine safe_step.mpr fun r _ => ⟨hnamed, ?_⟩
  have hnext : (usage client).next live c r = (acquired c r).toList ++ live := by
    simp only [usage, ledger, hrel]
  rw [hnext]
  exact hf r

/-- What a call acquires comes on the ledger. -/
theorem usage_step {c : Call} {f : Reply c → P α} (h : Covers client own live)
    (hnamed : ∀ o ∈ named c, o ∈ own) (hrel : released c = none)
    (hf : ∀ r live', Covers client ((acquired c r).toList ++ own) live' →
      Safe (usage client) (f r) live' Q) :
    Safe (usage client) (sys c >>= f) live Q := by
  refine usage_exact (h.sub hnamed) hrel fun r => hf r _ fun o ho => ?_
  rcases List.mem_append.mp ho with ho | ho
  · exact .inl (List.mem_append_left _ ho)
  · exact (h o ho).imp_left fun hlive => List.mem_append_right _ hlive

theorem usage_close {n : Int} {f : Int → P α} (hnamed : Covers client (fdObj n).toList live)
    (hf : 0 ≤ n → ∀ r, Safe (usage client) (f r) (live.erase (.fd n)) Q)
    (hneg : n < 0 → ∀ r, Safe (usage client) (f r) live Q) :
    Safe (usage client) (sys (.close n) >>= f) live Q := by
  by_cases hn : 0 ≤ n
  · have hfd : released (.close n) = some (.fd n) := if_pos hn
    refine safe_step.mpr fun r _ => ⟨hnamed, ?_⟩
    have hnext : (usage client).next live (.close n) r = live.erase (.fd n) := by
      simp only [usage, ledger, hfd, acquired, Option.toList_none, List.nil_append]
    rw [hnext]
    exact hf hn r
  · exact usage_exact hnamed (if_neg hn) fun r => hneg (by omega) r

/-- Releasing the first object of a list without repetition. -/
theorem pop_covers {c : Call} {x : Obj} {rest : List Obj} (h : Covers client (x :: rest) live)
    (hrel : released c = some x) (hacq : ∀ r, acquired c r = none) (hnamed : named c = [x])
    (hrest : x ∉ rest) :
    Safe (usage client) (sys c) live fun _ live => Covers client rest live := by
  refine fun r _ => ⟨?_, fun o ho => ?_⟩
  · show Covers client (named c) live
    rw [hnamed]
    exact h.sub fun o ho => List.mem_singleton.mp ho ▸ List.mem_cons_self
  · have hnext : (usage client).next live c r = live.erase x := by
      simp only [usage, ledger, hrel, hacq, Option.toList_none, List.nil_append]
    have hne : o ≠ x := fun heq => hrest (heq ▸ ho)
    rw [hnext]
    exact (h o (List.mem_cons_of_mem x ho)).imp_left fun hlive =>
      (List.mem_erase_of_ne hne).mpr hlive

end

/-! ## Keys -/

/-- The key of the memory region in a work request. -/
def Call.lkey : Call → Option UInt32
  | .ibvPostSend _ wr => some wr.sge.lkey
  | .ibvPostRecv _ wr => some wr.sge.lkey
  | _ => none

def regionsNext (held : List IbvMr) : (c : Call) → Reply c → List IbvMr
  | .ibvRegMr .., mr => mr.toList ++ held
  | .ibvDeregMr p, _ => held.filter fun mr => mr.ptr ≠ p
  | _, _ => held

/-- The regions that are registered and not yet deregistered, with the demand on the work
requests that their keys belong to one. -/
def regions : Monitor Call Reply (List IbvMr) where
  legal _ _ _ := True
  ok held c _ := ∀ k ∈ c.lkey, ∃ mr ∈ held, mr.lkey = k
  next := regionsNext

theorem regions_legal (held : List IbvMr) (t : List (Event Call Reply)) :
    regions.Legal held t :=
  regions.legal_of_forall fun _ _ _ => trivial

section

variable {held : List IbvMr} {α : Type} {Q : α → List IbvMr → Prop}

theorem no_key {c : Call} (h : c.lkey = none) : ∀ k ∈ c.lkey, ∃ mr ∈ held, mr.lkey = k := by
  rw [h]
  exact fun k hk => absurd hk (Option.not_mem_none k)

theorem regions_quiet {c : Call} (r : Reply c) (h : quiet c) :
    regions.ok [] c r ∧ regions.next [] c r = [] := by
  cases c <;> first | exact ⟨no_key rfl, rfl⟩ | cases h

theorem regions_closing {c : Call} (r : Reply c) (h : closing c) : regions.ok held c r := by
  cases c <;> first | exact no_key rfl | cases h

/-- The calls that neither register a region nor name the key of one. -/
def Call.isKeyless : Call → Bool
  | .ibvRegMr .. | .ibvDeregMr .. | .ibvPostSend .. | .ibvPostRecv .. => false
  | _ => true

theorem regions_keyless {c : Call} (r : Reply c) (h : c.isKeyless = true) :
    regions.ok held c r ∧ regions.next held c r = held := by
  cases c <;> first | exact ⟨no_key rfl, rfl⟩ | cases h

theorem regions_step {c : Call} {f : Reply c → P α} (hc : c.isKeyless = true)
    (hf : ∀ r, Safe regions (f r) held Q) : Safe regions (sys c >>= f) held Q := by
  refine safe_step.mpr fun r _ => ?_
  have hkeyless : regions.ok held c r ∧ regions.next held c r = held := regions_keyless r hc
  obtain ⟨hok, hnext⟩ := hkeyless
  rw [hnext]
  exact ⟨hok, hf r⟩

/-- The verbs part of `resources_create` ends with its region registered, and with a
message buffer. -/
theorem resourcesCreateVerbs_regions (cfg : Config) (res : Resources) :
    Safe regions (resourcesCreateVerbs cfg res) [] fun x held =>
      x.1 = 0 → held = x.2.1.mr.toList ∧ x.2.1.buf ≠ none := by
  have hfail : ∀ {p : Prop}, (1 : Int) = 0 → p := fun h => by cases h
  unfold resourcesCreateVerbs
  refine regions_step rfl fun list => ?_
  cases list with
  | none => exact hfail
  | some list =>
  obtain ⟨devList, devices⟩ := list
  dsimp only
  refine safe_ite (fun _ => hfail) fun _ => ?_
  cases findDevice cfg.devName devices with
  | none => exact hfail
  | some ibDev =>
  refine regions_step rfl fun ctx => ?_
  cases ctx with
  | none => exact hfail
  | some ctx =>
  refine regions_step rfl fun _ => regions_step rfl fun x => ?_
  obtain ⟨rcPort, portAttr⟩ := x
  refine safe_ite (fun _ => hfail) fun _ => regions_step rfl fun pd => ?_
  cases pd with
  | none => exact hfail
  | some pd =>
  refine regions_step rfl fun cq => ?_
  cases cq with
  | none => exact hfail
  | some cq =>
  refine regions_step rfl fun buf => ?_
  cases buf with
  | none => exact hfail
  | some buf =>
  refine regions_step rfl fun _ => Safe.bindSame ?_ fun _ => ?_
  · unfold fillBuffer
    refine safe_ite (fun _ => ?_) fun _ => regions_step rfl fun _ => rfl
    exact regions_step rfl fun _ => regions_step rfl fun _ => regions_step rfl fun _ => rfl
  refine safe_step.mpr fun mr _ => ⟨no_key rfl, ?_⟩
  have hmr : regionsNext [] (.ibvRegMr pd buf msgSize accessFlags) mr = mr.toList :=
    List.append_nil _
  rw [show regions.next [] _ mr = mr.toList from hmr]
  refine safe_ite (fun _ => hfail) fun _ => regions_step rfl fun qp => ?_
  exact safe_ite (fun _ => hfail) fun _ _ => ⟨rfl, nofun⟩

end

/-! ## The transfer -/

/-- What the transfer takes from the resources is in `own` and `held`, and there is a
message buffer. -/
structure Owned (own : List Obj) (held : List IbvMr) (res : Resources) : Prop where
  ibCtx : ∀ p, res.ibCtx = some p → .ibCtx p ∈ own
  cq : ∀ p, res.cq = some p → .cq p ∈ own
  qp : ∀ qp, res.qp = some qp → .qp qp.ptr ∈ own
  buf : ∃ p, res.buf = some p ∧ .buf p ∈ own
  sock : ∀ o ∈ fdObj res.sock, o ∈ own
  mr : ∀ mr, res.mr = some mr → mr ∈ held

/-- The calls of the transfer that name nothing but `own`, and regions of `held` only. -/
abbrev within (own : List Obj) (held : List IbvMr) (c : Call) : Prop :=
  c.isTransfer ∧ (∀ o ∈ named c, o ∈ own) ∧ ∀ k ∈ c.lkey, ∃ mr ∈ held, mr.lkey = k

section

variable {own : List Obj} {held : List IbvMr} {res res' : Resources}

theorem Owned.same (h : Owned own held res) (hsame : SameObjects res res') :
    Owned own held res' := by
  obtain ⟨props, rfl⟩ := hsame
  exact ⟨h.ibCtx, h.cq, h.qp, h.buf, h.sock, h.mr⟩

theorem named_one {x : Obj} {c : Call} (hc : named c = [x]) (hx : x ∈ own) :
    ∀ o ∈ named c, o ∈ own := by
  intro o ho
  rw [hc, List.mem_singleton] at ho
  rwa [ho]

theorem Owned.sock_named (h : Owned own held res) {c : Call}
    (hc : named c = (fdObj res.sock).toList) : ∀ o ∈ named c, o ∈ own := by
  intro o ho
  rw [hc, Option.mem_toList] at ho
  exact h.sock o ho

theorem Owned.request (h : Owned own held res) {mr : IbvMr} (hmr : res.mr = some mr) {qp : IbvQp}
    (hqp : res.qp = some qp) {c : Call} (htransfer : c.isTransfer)
    (hc : named c = [.qp qp.ptr, .buf (res.buf.getD 0)]) (hkey : c.lkey = some mr.lkey) :
    within own held c := by
  obtain ⟨p, hp, hbuf⟩ := h.buf
  rw [hp, Option.getD_some] at hc
  refine ⟨htransfer, fun o ho => ?_, fun k hk => ⟨mr, h.mr mr hmr, ?_⟩⟩
  · rw [hc] at ho
    rcases List.mem_cons.mp ho with rfl | ho
    · exact h.qp qp hqp
    · rwa [List.mem_singleton.mp ho]
  · exact Option.some.inj (hkey.symm.trans hk)

theorem sync_within (h : Owned own held res) (m : Machine) (n : Nat) (l r : List UInt8) :
    Uses (within own held) (sockSyncData m res.sock n l r) fun _ => True :=
  sockSyncData_uses ⟨rfl, h.sock_named rfl, no_key rfl⟩ ⟨rfl, h.sock_named rfl, no_key rfl⟩

theorem poll_within (h : Owned own held res) (m : Machine) :
    Uses (within own held) (pollCompletion m res) fun _ => True := by
  have htime : within own held .gettimeofday := ⟨rfl, nofun, no_key rfl⟩
  refine safe_bind.mpr (safe_deref fun cq hcq => ?_)
  have hpoll : within own held (.ibvPollCq cq 1) := ⟨rfl, named_one rfl (h.cq cq hcq), no_key rfl⟩
  refine safe_step.mpr fun t _ => ⟨htime, safe_bind.mpr ?_⟩
  refine safe_iterate (I := fun _ _ => True) trivial fun _ _ _ => ?_
  refine safe_step.mpr fun r _ => ⟨hpoll, safe_step.mpr fun t' _ => ⟨htime, ?_⟩⟩
  split
  · trivial
  · cases r <;> trivial

theorem send_within (h : Owned own held res) (opcode : WrOpcode) :
    Uses (within own held) (postSend res opcode) fun _ => True := by
  refine safe_bind.mpr (safe_deref fun mr hmr => safe_bind.mpr (safe_deref fun qp hqp => ?_))
  refine uses_perform (h.request hmr hqp rfl ?_ ?_)
  · split <;> rfl
  · split <;> rfl

theorem recv_within (h : Owned own held res) :
    Uses (within own held) (postRecv res) fun _ => True := by
  refine safe_bind.mpr (safe_deref fun mr hmr => safe_bind.mpr (safe_deref fun qp hqp => ?_))
  exact uses_perform (h.request hmr hqp rfl rfl rfl)

theorem connectQp_within (h : Owned own held res) (m : Machine) (cfg : Config) :
    Uses (within own held) (connectQp m cfg res) fun _ => True := by
  have hgid : Uses (within own held) (queryMyGid cfg res) fun _ => True := by
    unfold queryMyGid
    split
    · refine safe_bind.mpr (safe_deref fun ctx hctx => ?_)
      exact uses_perform ⟨rfl, named_one rfl (h.ibCtx ctx hctx), no_key rfl⟩
    · trivial
  unfold connectQp
  refine Safe.bind hgid fun x _ _ => ?_
  obtain ⟨rc, myGid⟩ := x
  refine safe_ite (fun _ => trivial) fun _ => ?_
  refine safe_bind.mpr (safe_deref fun mr _ => safe_bind.mpr (safe_deref fun qp hqp => ?_))
  have hmodify : ∀ attr mask, within own held (.ibvModifyQp qp.ptr attr mask) :=
    fun _ _ => ⟨rfl, named_one rfl (h.qp qp hqp), no_key rfl⟩
  refine Safe.bind (sync_within h m _ _ _) fun x _ _ => ?_
  obtain ⟨rc, tmp⟩ := x
  refine safe_ite (fun _ => trivial) fun _ => ?_
  have hremote := h.same ⟨conDataOf m.order tmp, rfl⟩
  refine safe_step.mpr fun _ _ => ⟨⟨rfl, nofun, no_key rfl⟩, ?_⟩
  refine safe_step.mpr fun rc _ => ⟨hmodify _ _, safe_ite (fun _ => trivial) fun _ => ?_⟩
  refine Safe.bind (Q := fun _ _ => True) ?_ fun rc _ _ => ?_
  · exact safe_ite (fun _ => recv_within hremote) fun _ => trivial
  refine safe_ite (fun _ => trivial) fun _ => ?_
  refine safe_step.mpr fun rc _ => ⟨hmodify _ _, safe_ite (fun _ => trivial) fun _ => ?_⟩
  refine safe_step.mpr fun rc _ => ⟨hmodify _ _, safe_ite (fun _ => trivial) fun _ => ?_⟩
  refine Safe.bind (sync_within hremote m _ _ _) fun x _ _ => ?_
  exact safe_ite (fun _ => trivial) fun _ => trivial

theorem Owned.message (h : Owned own held res) {p : Ptr} (hp : res.buf = some p) {c : Call}
    (htransfer : c.isTransfer) (hc : named c = [.buf p]) (hkey : c.lkey = none) :
    within own held c := by
  obtain ⟨p', hp', hown⟩ := h.buf
  obtain rfl := Option.some.inj (hp.symm.trans hp')
  exact ⟨htransfer, named_one hc hown, no_key hkey⟩

theorem clientRdma_within (h : Owned own held res) (m : Machine) :
    Uses (within own held) (clientRdma m res) fun _ => True := by
  unfold clientRdma
  refine Safe.bind (send_within h .rdmaRead) fun rc _ _ => safe_ite (fun _ => trivial) fun _ => ?_
  refine Safe.bind (poll_within h m) fun rc _ _ => safe_ite (fun _ => trivial) fun _ => ?_
  refine safe_bind.mpr (safe_deref fun p hp => ?_)
  refine safe_step.mpr fun _ _ => ⟨h.message hp rfl rfl rfl, ?_⟩
  refine safe_step.mpr fun _ _ => ⟨h.message hp rfl rfl rfl, ?_⟩
  refine safe_step.mpr fun _ _ => ⟨h.message hp rfl rfl rfl, ?_⟩
  refine Safe.bind (send_within h .rdmaWrite) fun rc _ _ => safe_ite (fun _ => trivial) fun _ => ?_
  refine Safe.bind (poll_within h m) fun rc _ _ => ?_
  exact safe_ite (fun _ => trivial) fun _ => trivial

theorem rcmainTransfer_within (h : Owned own held res) (m : Machine) (cfg : Config) :
    Uses (within own held) (rcmainTransfer m cfg res) fun _ => True := by
  unfold rcmainTransfer
  refine Safe.bind ((connectQp_uses m cfg res).and (connectQp_within h m cfg)) fun x _ hx => ?_
  obtain ⟨rc, res'⟩ := x
  have h' := h.same hx.1
  refine safe_ite (fun _ => trivial) fun _ => ?_
  refine Safe.bind (Q := fun _ _ => True) ?_ fun rc _ _ => safe_ite (fun _ => trivial) fun _ => ?_
  · exact safe_ite (fun _ => send_within h' .send) fun _ => trivial
  refine Safe.bind (poll_within h' m) fun rc _ _ => safe_ite (fun _ => trivial) fun _ => ?_
  refine safe_bind.mpr (safe_deref fun p hp => ?_)
  refine Safe.bind (Q := fun _ _ => True) ?_ fun _ _ _ => ?_
  · refine safe_ite (fun _ => ?_) fun _ => ?_
    · exact uses_perform (h'.message hp rfl rfl rfl)
    · exact uses_perform (h'.message hp rfl rfl rfl)
  refine Safe.bind (sync_within h' m _ _ _) fun x _ _ => ?_
  obtain ⟨rc, tempChar⟩ := x
  refine safe_ite (fun _ => trivial) fun _ => ?_
  refine Safe.bind (Q := fun _ _ => True) ?_ fun rc _ _ => safe_ite (fun _ => trivial) fun _ => ?_
  · exact safe_ite (fun _ => clientRdma_within h' m) fun _ => trivial
  refine Safe.bind (sync_within h' m _ _ _) fun x _ _ => ?_
  obtain ⟨rc, tempChar'⟩ := x
  refine safe_ite (fun _ => trivial) fun _ => ?_
  refine Safe.bind (Q := fun _ _ => True) ?_ fun _ _ _ => trivial
  exact safe_ite (fun _ => uses_perform (h'.message hp rfl rfl rfl)) fun _ => trivial

end

/-! ## The resources -/

section

variable {client : Prop} {live : List Obj} {res : Resources}

theorem not_mem_fd {n : Int} {x : Obj} (h : ∀ n, x ≠ .fd n) : x ∉ (fdObj n).toList := by
  rw [Option.mem_toList, fdObj]
  split
  · exact fun hx => h n (Option.mem_some.mp hx).symm
  · exact Option.not_mem_none x

theorem not_mem_objs {β : Type} {o : Option β} {obj : β → Obj} {x : Obj} {rest : List Obj}
    (h : ∀ a, x ≠ obj a) (hrest : x ∉ rest) : x ∉ objs o obj ++ rest := by
  intro hx
  rcases List.mem_append.mp hx with hx | hx
  · cases o with
    | none => cases hx
    | some a => exact h a (List.mem_singleton.mp hx)
  · exact hrest hx

theorem fillBuffer_covers (cfg : Config) {own : List Obj} {buf : Ptr}
    (h : Covers client own live) (hbuf : .buf buf ∈ own) :
    Safe (usage client) (fillBuffer cfg buf) live fun _ live => Covers client own live := by
  unfold fillBuffer
  refine safe_ite (fun _ => ?_) fun _ => ?_
  · refine usage_step h (named_one rfl hbuf) rfl fun _ live h => ?_
    refine usage_step h (named_one rfl hbuf) rfl fun _ live h => ?_
    exact usage_step h (named_one rfl hbuf) rfl fun _ live h => h
  · exact usage_step h (named_one rfl hbuf) rfl fun _ live h => h

/-- The verbs part of `resources_create` names what it has created, and ends with
resources that the ledger covers. -/
theorem resourcesCreateVerbs_covers (cfg : Config) {sock : Int}
    (hsock : Covers client (fdObj sock).toList live) :
    Safe (usage client) (resourcesCreateVerbs cfg { resourcesInit with sock := sock }) live
      fun x live => Covers client (held x.2.1 x.2.2) live ∧
        (x.1 = 0 → x.2.2 = none ∧ x.2.1.buf ≠ none) := by
  unfold resourcesCreateVerbs
  refine usage_step hsock nofun rfl fun list live hlive => ?_
  cases list with
  | none => exact ⟨hlive, nofun⟩
  | some list =>
  obtain ⟨devList, devices⟩ := list
  dsimp only
  refine safe_ite (fun _ => ⟨hlive, nofun⟩) fun _ => ?_
  cases findDevice cfg.devName devices with
  | none => exact ⟨hlive, nofun⟩
  | some ibDev =>
  refine usage_step hlive nofun rfl fun ctx live hlive => ?_
  cases ctx with
  | none => exact ⟨hlive, nofun⟩
  | some ctx =>
  have hfree : Safe (usage client) (sys (.ibvFreeDeviceList devList)) live fun _ live =>
      Covers client (.ibCtx ctx :: (fdObj sock).toList) live := by
    refine pop_covers (x := .devList devList) (hlive.sub fun o ho => ?_) rfl (fun _ => rfl) rfl ?_
    · rcases List.mem_cons.mp ho with rfl | ho
      · exact List.mem_cons_of_mem _ List.mem_cons_self
      · rcases List.mem_cons.mp ho with rfl | ho
        · exact List.mem_cons_self
        · exact List.mem_cons_of_mem _ (List.mem_cons_of_mem _ ho)
    · exact not_mem_objs (o := some ctx) (by simp) (not_mem_fd (by simp))
  refine Safe.bind hfree fun _ live hlive => ?_
  refine usage_step hlive (named_one rfl (by simp)) rfl fun x live hlive => ?_
  obtain ⟨rcPort, portAttr⟩ := x
  refine safe_ite (fun hrc => ⟨hlive, fun h => by cases h⟩) fun _ => ?_
  refine usage_step hlive (named_one rfl (by simp [acquired])) rfl fun pd live hlive => ?_
  cases pd with
  | none => exact ⟨hlive, nofun⟩
  | some pd =>
  refine usage_step hlive (named_one rfl (by simp [acquired])) rfl fun cq live hlive => ?_
  cases cq with
  | none => exact ⟨hlive, nofun⟩
  | some cq =>
  refine usage_step hlive nofun rfl fun buf live hlive => ?_
  cases buf with
  | none => exact ⟨hlive, nofun⟩
  | some buf =>
  refine usage_step hlive (named_one rfl (by simp [acquired])) rfl fun _ live hlive => ?_
  refine Safe.bind (fillBuffer_covers cfg hlive (by simp [acquired])) fun _ live hlive => ?_
  have hreg : ∀ o ∈ named (.ibvRegMr pd buf msgSize accessFlags), o = .pd pd ∨ o = .buf buf := by
    simp [named]
  refine usage_step hlive (fun o ho => ?_) rfl fun mr live hlive => ?_
  · rcases hreg o ho with rfl | rfl <;> simp [acquired]
  refine safe_ite (fun hmr => ?_) fun hmr => ?_
  · rw [Option.isNone_iff_eq_none] at hmr
    subst hmr
    exact ⟨hlive, nofun⟩
  have hqp : ∀ o ∈ named (.ibvCreateQp pd (qpInitAttr cq)), o = .pd pd ∨ o = .cq cq := by
    simp [named, qpInitAttr]
  refine usage_step hlive (fun o ho => ?_) rfl fun qp live hlive => ?_
  · rcases hqp o ho with rfl | rfl <;> simp [acquired]
  exact safe_ite (fun _ => ⟨hlive, nofun⟩) fun _ => ⟨hlive, fun _ => ⟨rfl, nofun⟩⟩

theorem ifSome_covers {β : Type} {o : Option β} {obj : β → Obj} {rest : List Obj} {f : β → P Unit}
    (h : Covers client (objs o obj ++ rest) live)
    (hf : ∀ a live, Covers client (obj a :: rest) live →
      Safe (usage client) (f a) live fun _ live => Covers client rest live) :
    Safe (usage client) (ifSome o f) live fun _ live => Covers client rest live := by
  cases o with
  | none => exact h
  | some a => exact hf a live h

theorem release_covers {β : Type} {o : Option β} {obj : β → Obj} {rest : List Obj} {f : β → P Int}
    {rc : Int} (h : Covers client (objs o obj ++ rest) live)
    (hf : ∀ a live, Covers client (obj a :: rest) live →
      Safe (usage client) (f a) live fun _ live => Covers client rest live) :
    Safe (usage client) (release o f rc) live fun _ live => Covers client rest live := by
  cases o with
  | none => exact h
  | some a => exact (hf a live h).bind fun _ _ h => h

theorem closeSock_covers {sock : Int} {rest : List Obj} (hsock : 0 ≤ sock)
    (h : Covers client (rest ++ (fdObj sock).toList) live) (hrest : .fd sock ∉ rest) :
    Safe (usage client) (sys (.close sock)) live fun _ live => Covers client rest live := by
  have hfd : fdObj sock = some (.fd sock) := if_pos hsock
  rw [hfd] at h
  refine pop_covers (x := .fd sock) (h.sub fun o ho => ?_) hfd (fun _ => rfl) ?_ hrest
  · rcases List.mem_cons.mp ho with rfl | ho
    · exact List.mem_append_right _ List.mem_cons_self
    · exact List.mem_append_left _ ho
  · rw [named, hfd]
    rfl

/-- The failure path of `resources_create` names what the resources hold. -/
theorem resourcesCreateCleanup_covers {devList : Option Ptr}
    (h : Covers client (held res devList) live) :
    Safe (usage client) (resourcesCreateCleanup res devList) live fun res' live =>
      Covers client (held res' none) live := by
  unfold resourcesCreateCleanup
  unfold held at h
  refine Safe.bind (ifSome_covers h fun qp live h => ?_) fun _ live h => ?_
  · refine Safe.bind (pop_covers h rfl (fun _ => rfl) rfl ?_) fun _ _ h => h
    simp [objs, fdObj]
  refine Safe.bind (ifSome_covers h fun mr live h => ?_) fun _ live h => ?_
  · refine Safe.bind (pop_covers h rfl (fun _ => rfl) rfl ?_) fun _ _ h => h
    simp [objs, fdObj]
  refine Safe.bind (ifSome_covers h fun buf live h => ?_) fun _ live h => ?_
  · exact pop_covers h rfl (fun _ => rfl) rfl (by simp [objs, fdObj])
  refine Safe.bind (ifSome_covers h fun cq live h => ?_) fun _ live h => ?_
  · refine Safe.bind (pop_covers h rfl (fun _ => rfl) rfl ?_) fun _ _ h => h
    simp [objs, fdObj]
  refine Safe.bind (ifSome_covers h fun pd live h => ?_) fun _ live h => ?_
  · refine Safe.bind (pop_covers h rfl (fun _ => rfl) rfl ?_) fun _ _ h => h
    simp [objs, fdObj]
  -- the device list lies under the device context, which stays
  have hlist : Covers client
      (objs devList .devList ++ (objs res.ibCtx .ibCtx ++ (fdObj res.sock).toList)) live :=
    h.sub fun o ho => by
      simp only [List.mem_append] at ho ⊢
      tauto
  refine Safe.bind (ifSome_covers hlist fun p live h => ?_) fun _ live h => ?_
  · exact pop_covers h rfl (fun _ => rfl) rfl (by simp [objs, fdObj])
  refine safe_ite (fun hsock => ?_) fun hsock => ?_
  · refine Safe.bind (closeSock_covers hsock h (by simp [objs])) fun _ live h => ?_
    exact h.sub fun o ho => by simpa [held, fdObj] using ho
  · exact h

/-- `resources_destroy` names what the resources hold. -/
theorem resourcesDestroy_covers (h : Covers client (held res none) live) :
    Safe (usage client) (resourcesDestroy res) live fun _ _ => True := by
  unfold resourcesDestroy
  unfold held at h
  refine Safe.bind (release_covers h fun qp live h => ?_) fun _ live h => ?_
  · exact pop_covers h rfl (fun _ => rfl) rfl (by simp [objs, fdObj])
  refine Safe.bind (release_covers h fun mr live h => ?_) fun _ live h => ?_
  · exact pop_covers h rfl (fun _ => rfl) rfl (by simp [objs, fdObj])
  refine Safe.bind (ifSome_covers h fun buf live h => ?_) fun _ live h => ?_
  · exact pop_covers h rfl (fun _ => rfl) rfl (by simp [objs, fdObj])
  refine Safe.bind (release_covers h fun cq live h => ?_) fun _ live h => ?_
  · exact pop_covers h rfl (fun _ => rfl) rfl (by simp [objs, fdObj])
  refine Safe.bind (release_covers h fun pd live h => ?_) fun _ live h => ?_
  · exact pop_covers h rfl (fun _ => rfl) rfl (by simp [objs, fdObj])
  refine Safe.bind (release_covers h fun ctx live h => ?_) fun _ live h => ?_
  · exact pop_covers h rfl (fun _ => rfl) rfl (by simp [objs, fdObj])
  refine safe_ite (fun hsock => ?_) fun _ => trivial
  exact Safe.bind (closeSock_covers hsock h List.not_mem_nil) fun _ _ _ => trivial

end

/-! ## The connection -/

section

variable {client : Prop}

theorem sockConnect_server_covers (m : Machine) (port : UInt32) :
    Safe (usage client) (sockConnect m none port) [] fun sock live =>
      Covers client (fdObj sock).toList live := by
  unfold sockConnect listenBranch
  refine safe_bind.mpr (usage_exact nofun rfl fun listenfd => ?_)
  rw [List.append_nil]
  refine safe_bind.mpr (safe_assert fun _ => ?_)
  have hlisten : Covers client (fdObj listenfd).toList (fdObj listenfd).toList := covers_refl _
  refine usage_exact hlisten rfl fun _ => usage_exact hlisten rfl fun _ => ?_
  refine usage_exact hlisten rfl fun sockfd => ?_
  show Safe (usage client) (sys (.close listenfd) >>= fun _ => pure sockfd)
    ((fdObj sockfd).toList ++ (fdObj listenfd).toList) _
  refine usage_close (hlisten.sub_live fun o ho => List.mem_append_right _ ho) (fun hpos _ => ?_)
    fun _ _ => ?_
  · have herase : ((fdObj sockfd).toList ++ (fdObj listenfd).toList).erase (.fd listenfd) =
        (fdObj sockfd).toList := by
      rw [show fdObj listenfd = some (.fd listenfd) from if_pos hpos]
      exact erase_below (fdObj sockfd) (.fd listenfd)
    rw [herase]
    exact covers_refl _
  · exact (covers_refl _).sub_live fun o ho => List.mem_append_left _ ho

theorem sockConnect_client_covers (m : Machine) (name : String) (port : UInt32)
    (hclient : client) :
    Safe (usage client) (sockConnect m (some name) port) [] fun sock live =>
      Covers client (fdObj sock).toList live := by
  unfold sockConnect connectBranch
  refine safe_bind.mpr (usage_exact nofun rfl fun sockfd => ?_)
  rw [List.append_nil]
  have hsock : Covers client (fdObj sockfd).toList (fdObj sockfd).toList := covers_refl _
  refine usage_exact hsock rfl fun tmp => ?_
  have hzero : ∀ live, Covers client (fdObj 0).toList live := by
    intro live o ho
    exact .inr ⟨hclient, List.mem_singleton.mp ho⟩
  have hend : ∀ sock live, Covers client (fdObj sock).toList live →
      Safe (usage client) (sys (.close 0) >>= fun _ => pure sock) live fun sock live =>
        Covers client (fdObj sock).toList live := by
    intro sock live h
    refine usage_close (hzero live) (fun _ _ o ho => ?_) fun hneg => absurd hneg (by decide)
    by_cases ho0 : o = .fd 0
    · exact .inr ⟨hclient, ho0⟩
    · exact (h o ho).imp_left fun hlive => (List.mem_erase_of_ne ho0).mpr hlive
  refine safe_ite (fun _ => ?_) fun _ => hend _ _ hsock
  exact usage_close hsock (fun _ _ => hend _ _ nofun) fun _ _ => hend _ _ nofun

end

/-! ## The whole run -/

theorem owned_held {res : Resources} {buf : Ptr} (hbuf : res.buf = some buf) :
    Owned (held res none) res.mr.toList res where
  ibCtx p hp := by simp [held, hp]
  cq p hp := by simp [held, hp]
  qp qp hp := by simp [held, hp]
  buf := ⟨buf, hbuf, by simp [held, hbuf]⟩
  sock o ho := by
    simp only [held, List.mem_append, Option.mem_toList]
    tauto
  mr mr hmr := Option.mem_toList.mpr hmr

theorem usage_ignores_transfer {client : Prop} {own live : List Obj} {regs : List IbvMr}
    (h : Covers client own live) {c : Call} (r : Reply c) (hc : within own regs c) :
    (usage client).ok live c r ∧ (usage client).next live c r = live :=
  ⟨h.sub hc.2.1, (ledger_ignores_transfer r live hc.1).2⟩

theorem regions_ignores_transfer {own : List Obj} {regs : List IbvMr} {c : Call} (r : Reply c)
    (hc : within own regs c) : regions.ok regs c r ∧ regions.next regs c r = regs := by
  refine ⟨hc.2.2, ?_⟩
  have htransfer := hc.1
  cases c <;> first | rfl | cases htransfer

theorem rcmainAfterSock_covers {client : Prop} {live : List Obj} (m : Machine) (cfg : Config)
    {sock : Int} (h : Covers client (fdObj sock).toList live) :
    Safe (usage client) (rcmainAfterSock m cfg sock) live fun _ _ => True := by
  unfold rcmainAfterSock
  have hcreate : Safe (usage client)
      (if sock < 0 then pure (-1, { resourcesInit with sock := sock }, none)
        else resourcesCreateVerbs cfg { resourcesInit with sock := sock }) live
      fun x live => Covers client (held x.2.1 x.2.2) live ∧
        (x.1 = 0 → x.2.2 = none ∧ x.2.1.buf ≠ none) :=
    safe_ite (fun _ => ⟨h, nofun⟩) fun _ => resourcesCreateVerbs_covers cfg h
  refine Safe.bind hcreate fun x live hx => ?_
  obtain ⟨rc, res, devList⟩ := x
  obtain ⟨hheld, hwhole⟩ := hx
  refine Safe.bind (Q := fun x live => Covers client (held x.2 none) live ∧
    (x.1 = 0 → x.2.buf ≠ none)) ?_ fun x live hx => ?_
  · refine safe_ite (fun hrc => ?_) fun hrc => ?_
    · refine Safe.bind (resourcesCreateCleanup_covers hheld) fun res' live hheld => ?_
      exact ⟨hheld, fun h0 => absurd h0 hrc⟩
    · obtain ⟨hdev, hbuf⟩ := hwhole (not_not.mp hrc)
      dsimp only at hdev
      rw [hdev] at hheld
      exact ⟨hheld, fun _ => hbuf⟩
  obtain ⟨rc, res⟩ := x
  obtain ⟨hheld, hbuf⟩ := hx
  refine Safe.bind (Q := fun x live => Covers client (held x.2 none) live) ?_ fun x live hx => ?_
  · refine safe_ite (fun _ => hheld) fun hrc => ?_
    obtain ⟨buf, hbuf⟩ := Option.ne_none_iff_exists'.mp (hbuf (not_not.mp hrc))
    have hwithin := (rcmainTransfer_within (owned_held hbuf) m cfg).safe
      fun c r hc => usage_ignores_transfer hheld r hc
    refine ((rcmainTransfer_uses m cfg res).and hwithin).mono fun x live hx => ?_
    obtain ⟨hsame, -, rfl⟩ := hx
    rwa [held_sameObjects hsame]
  exact Safe.bind (resourcesDestroy_covers hx) fun _ _ _ => trivial

theorem rcmainBody_covers (m : Machine) (cfg : Config) :
    Safe (usage (cfg.serverName ≠ none)) (rcmainBody m cfg) [] fun _ _ => True := by
  rw [rcmainBody_eq]
  refine Safe.bind ?_ fun sock live h => rcmainAfterSock_covers m cfg h
  cases hname : cfg.serverName with
  | none => exact sockConnect_server_covers m cfg.tcpPort
  | some name => exact sockConnect_client_covers m name cfg.tcpPort (by simp)

theorem rcmainAfterSock_regions (m : Machine) (cfg : Config) (sock : Int) :
    Safe regions (rcmainAfterSock m cfg sock) [] fun _ _ => True := by
  unfold rcmainAfterSock
  have hclosing : ∀ held (c : Call) (r : Reply c), closing c → regions.ok held c r :=
    fun _ _ r h => regions_closing r h
  have hcreate : Safe regions
      (if sock < 0 then pure (-1, { resourcesInit with sock := sock }, none)
        else resourcesCreateVerbs cfg { resourcesInit with sock := sock }) []
      fun x held => x.1 = 0 → held = x.2.1.mr.toList ∧ x.2.1.buf ≠ none :=
    safe_ite (fun _ h => by cases h) fun _ => resourcesCreateVerbs_regions cfg _
  refine Safe.bind hcreate fun x regs hx => ?_
  obtain ⟨rc, res, devList⟩ := x
  refine Safe.bind (Q := fun x regs => x.1 = 0 → regs = x.2.mr.toList ∧ x.2.buf ≠ none) ?_
    fun x regs hx => ?_
  · refine safe_ite (fun hrc => ?_) fun _ => hx
    refine Safe.bind ((resourcesCreateCleanup_uses_closing res devList).allowed hclosing) ?_
    exact fun _ _ _ h0 => absurd h0 hrc
  obtain ⟨rc, res⟩ := x
  refine Safe.bind (Q := fun _ _ => True) ?_ fun x regs _ => ?_
  · refine safe_ite (fun _ => trivial) fun hrc => ?_
    obtain ⟨rfl, hbuf⟩ := hx (not_not.mp hrc)
    obtain ⟨buf, hbuf⟩ := Option.ne_none_iff_exists'.mp hbuf
    have hwithin := (rcmainTransfer_within (owned_held hbuf) m cfg).safe
      fun c r hc => regions_ignores_transfer r hc
    exact hwithin.mono fun _ _ _ => trivial
  exact Safe.bind ((resourcesDestroy_uses_closing x.2).allowed hclosing) fun _ _ _ => trivial

theorem rcmainBody_regions (m : Machine) (cfg : Config) :
    Safe regions (rcmainBody m cfg) [] fun _ _ => True := by
  rw [rcmainBody_eq]
  have hconnect := (sockConnect_uses_quiet m cfg.serverName cfg.tcpPort).safe
    fun c r h => regions_quiet r h
  refine Safe.bind hconnect fun sock regs hregs => ?_
  rw [hregs.2]
  exact rcmainAfterSock_regions m cfg sock

/-- At every call of a run, whatever has failed before, each object that the arguments
stand for has been acquired and not been released, and the key of a work request is that
of a region that has been registered and not been deregistered.  Only a client may go on
with descriptor 0 after it has closed it. -/
theorem rcmain_uses_held {m : Machine} {cfg : Config} (t₁ t₂ : List (Event Call Reply))
    (e : Event Call Reply) {q : P Int} (h : Runs (rcmainBody m cfg) (t₁ ++ e :: t₂) q) :
    (∀ o ∈ named e.call, o ∈ ledger.after [] t₁ ∨ cfg.serverName ≠ none ∧ o = .fd 0) ∧
      ∀ k ∈ e.call.lkey, ∃ mr ∈ regions.after [] t₁, mr.lkey = k := by
  constructor
  · have hok := ((rcmainBody_covers m cfg).runs h (usage_legal _ _)).1
    have hcall := ((Monitor.ok_append _ _ _ _).mp hok).2.1
    rwa [usage_after] at hcall
  · have hok := ((rcmainBody_regions m cfg).runs h (regions_legal _ _)).1
    exact ((Monitor.ok_append _ _ _ _).mp hok).2.1

/-- The send of a server, the twenty-seventh call: its buffer and its key. -/
theorem rcmain_uses_held_obliging :
    (.buf 4096 ∈ ledger.after [] ((obligingRun config).take 26) ∨
      config.serverName ≠ none ∧ Obj.buf 4096 = .fd 0) ∧
    ∃ mr ∈ regions.after [] ((obligingRun config).take 26), mr.lkey = 60 := by
  have h := rcmain_uses_held ((obligingRun config).take 26) ((obligingRun config).drop 27)
    ⟨.ibvPostSend 7 { sge := ⟨4096, msgSize, 60⟩, opcode := .send, signaled := true }, (0 : Int)⟩
    obligingRun_server
  exact ⟨h.1 (.buf 4096) (by simp [named]), h.2 60 rfl⟩

end Rdma
end CommSpeed
