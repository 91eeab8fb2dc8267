/-
Two endpoints that connect to each other.

The monitor keeps what a run of `connect_qp` says to its peer and to the verbs
library.  The environment delivers the connection data whole and answers GID
queries from a table for each port.  Two successful runs, each fed with what the
other sent, are then compared attribute by attribute.
-/
import CommSpeed.Rdma.Main

namespace CommSpeed
namespace Rdma

open Bytes Prog

abbrev Gid := Vector UInt8 16

/-- The GID table of each port of a host. -/
abbrev GidTables := UInt8 → Int → Gid

structure Connection where
  sent : Option (List UInt8) := none
  /-- Whether the connection data of the peer has arrived. -/
  heard : Bool := false
  /-- The attributes given to `ibv_modify_qp`. -/
  attrs : List IbvQpAttr := []

def connectionNext (s : Connection) : (c : Call) → Reply c → Connection
  | .write _ data, _ => { s with sent := s.sent.or (some data) }
  | .read .., _ => { s with heard := true }
  | .ibvModifyQp _ attr _, _ => { s with attrs := s.attrs ++ [attr] }
  | _, _ => s

/-- The first `write` takes everything, the first `read` returns all it was asked
for, which is what the peer sent, and GIDs come from the tables. -/
def connectionLegal (gids : GidTables) (peer : List UInt8) (s : Connection) :
    (c : Call) → Reply c → Prop
  | .write _ data, rc => s.sent = none → rc = data.length
  | .read _ len, r => s.heard = false → r = .got peer ∧ peer.length = len
  | .ibvQueryGid _ port i, r => r.1 = 0 → r.2 = gids port i
  | _, _ => True

def connection (gids : GidTables) (peer : List UInt8) : Monitor Call Reply Connection where
  legal := connectionLegal gids peer
  ok _ _ _ := True
  next := connectionNext

/-- One end of a connection before `connect_qp`. -/
structure Endpoint where
  machine : Machine
  cfg : Config
  res : Resources
  qp : IbvQp
  gids : GidTables
  qp_eq : res.qp = some qp

namespace Endpoint

/-- A run of `connect_qp` that succeeds when the peer sends `peer`. -/
def Connects (e : Endpoint) (peer : List UInt8) (c : Connection) : Prop :=
  ∃ t res, Runs (connectQp e.machine e.cfg e.res) t (ret (0, res)) ∧
    (connection e.gids peer).Legal {} t ∧ c = (connection e.gids peer).after {} t

/-- The GID an endpoint tells its peer. -/
def ownGid (e : Endpoint) : Gid :=
  if 0 ≤ e.cfg.gidIdx then e.gids (UInt8.ofInt e.cfg.ibPort) e.cfg.gidIdx
  else Vector.replicate 16 0

end Endpoint

/-- The GID a queue pair with this address vector sends from, which is none
without a global route. -/
def sourceGid (gids : GidTables) (av : IbvAhAttr) : Option Gid :=
  if av.isGlobal = 1 then some (gids av.portNum av.grh.sgidIndex.toNat) else none

structure QpAttrs where
  init : IbvQpAttr
  rtr : IbvQpAttr
  rts : IbvQpAttr

def QpAttrs.toList (a : QpAttrs) : List IbvQpAttr := [a.init, a.rtr, a.rts]

theorem QpAttrs.toList_inj {a b : QpAttrs} (h : a.toList = b.toList) : a = b := by
  obtain ⟨_, _, _⟩ := a
  obtain ⟨_, _, _⟩ := b
  simpa [toList] using h

/-- The attributes of one side fit those of its peer. -/
structure Fits (A B : Endpoint) (a b : QpAttrs) : Prop where
  destQpNum : a.rtr.destQpNum = B.qp.qpNum
  dlid : a.rtr.ahAttr.dlid = B.res.portAttr.lid
  psn : a.rts.sqPsn = b.rtr.rqPsn
  rdAtomic : a.rts.maxRdAtomic ≤ b.rtr.maxDestRdAtomic
  initPort : (a.init.portNum.toNat : Int) = A.cfg.ibPort
  rtrPort : a.rtr.ahAttr.portNum = a.init.portNum
  dgid : a.rtr.ahAttr.isGlobal = 1 →
    sourceGid B.gids b.rtr.ahAttr = some a.rtr.ahAttr.grh.dgid

/-- The two runs describe one mutual connection. -/
def Mutual (A B : Endpoint) (cA cB : Connection) : Prop :=
  ∃ a b : QpAttrs, cA.attrs = a.toList ∧ cB.attrs = b.toList ∧ Fits A B a b ∧ Fits B A b a

/-- The port is one the verbs attributes can hold, it is port 1 with a global
route, and the GID index survives its cut to eight bits. -/
structure LocalPort (e : Endpoint) : Prop where
  port : e.cfg.ibPort ≤ 255
  globalPort : 0 ≤ e.cfg.gidIdx → e.cfg.ibPort = 1
  gidIdx : 0 ≤ e.cfg.gidIdx → e.gids 1 e.cfg.gidIdx = e.gids 1 (e.cfg.gidIdx % 256)

/-! ## One run -/

/-- The connection data of an endpoint whose memory region has the given key. -/
def Endpoint.conData (e : Endpoint) (mr : IbvMr) : CmConData :=
  { addr := e.res.buf.getD 0, rkey := mr.rkey, qpNum := e.qp.qpNum, lid := e.res.portAttr.lid,
    gid := e.ownGid }

/-- The attributes of an endpoint that received `peer`. -/
def Endpoint.attrs (e : Endpoint) (peer : List UInt8) : QpAttrs :=
  let d := conDataOf e.machine.order peer
  { init := initAttr e.cfg, rtr := rtrAttr e.cfg d.qpNum d.lid d.gid, rts := rtsAttr }

theorem exchange_connection {gids : GidTables} {peer : List UInt8} {m : Machine} {sock : Int}
    {local' : List UInt8} (hlocal : local'.length = 40) :
    Safe (connection gids peer) (sockSyncData m sock 40 local' m.tmpConData.toList) {}
      fun x s' => 0 ≤ x.1 → x.2 = peer ∧ s' = { sent := some local', heard := true } := by
  have htake : local'.take 40 = local' := List.take_of_length_le hlocal.le
  unfold sockSyncData
  rw [htake]
  refine safe_step.mpr fun rc hrc => ⟨trivial, safe_bind.mpr (safe_assert fun _ => ?_)⟩
  have hrc : rc = 40 := by rw [hrc rfl, hlocal]; rfl
  rw [hrc]
  -- before and after the one read that delivers everything
  refine safe_iterate (I := fun l s' =>
    (l = ⟨0, 0, m.tmpConData.toList⟩ ∧ s' = { sent := some local' }) ∨
    (l = ⟨0, 40, peer⟩ ∧ s' = { sent := some local', heard := true })) (.inl ⟨rfl, rfl⟩) ?_
  rintro l s' (⟨rfl, rfl⟩ | ⟨rfl, rfl⟩)
  · refine safe_step.mpr fun r hr => ⟨trivial, ?_⟩
    obtain ⟨rfl, hpeer⟩ := hr rfl
    have hcount : 0 < (ReadReply.got peer).count := by
      rw [ReadReply.count_got, hpeer]
      decide
    rw [if_pos hcount]
    refine .inr ⟨?_, rfl⟩
    have hover : overlay peer m.tmpConData.toList = peer :=
      overlay_whole (by rw [hpeer, Vector.length_toList])
    simp only [ReadReply.bytes_got, hpeer, hover, Nat.zero_add]
  · exact fun _ => ⟨rfl, rfl⟩

theorem letterSync_connection {gids : GidTables} {peer : List UInt8} {m : Machine} {sock : Int}
    {l r : List UInt8} {s : Connection} (hsent : s.sent.isSome) (hheard : s.heard = true) :
    Safe (connection gids peer) (sockSyncData m sock 1 l r) s fun _ s' => s' = s := by
  have huses : Uses (fun c => c = .write sock (l.take 1) ∨ c = .read sock 1)
      (sockSyncData m sock 1 l r) fun _ => True :=
    sockSyncData_uses (U := fun c => c = .write sock (l.take 1) ∨ c = .read sock 1)
      (.inl rfl) (.inr rfl)
  refine (huses.safe fun c r hc => ⟨trivial, ?_⟩).mono fun _ _ h => h.2
  obtain ⟨data, hdata⟩ := Option.isSome_iff_exists.mp hsent
  obtain ⟨sent, heard, attrs⟩ := s
  subst hdata hheard
  rcases hc with rfl | rfl <;> rfl

theorem queryMyGid_connection {peer : List UInt8} (e : Endpoint) :
    Safe (connection e.gids peer) (queryMyGid e.cfg e.res) {} fun x s' =>
      s' = {} ∧ (x.1 = 0 → x.2 = e.ownGid) := by
  unfold queryMyGid Endpoint.ownGid
  split
  · refine safe_bind.mpr (safe_deref fun ctx _ => safe_perform.mpr fun x hx => ⟨trivial, rfl, ?_⟩)
    exact hx
  · exact ⟨rfl, fun _ => rfl⟩

theorem connectQp_connection {peer : List UInt8} (e : Endpoint) :
    Safe (connection e.gids peer) (connectQp e.machine e.cfg e.res) {} fun x s' => x.1 = 0 →
      (∃ mr, s'.sent = some (conDataBytes e.machine.order e.machine.padding (e.conData mr))) ∧
      s'.attrs = (e.attrs peer).toList := by
  unfold connectQp
  refine Safe.bind (queryMyGid_connection e) fun x s' hs' => ?_
  obtain ⟨rc, myGid⟩ := x
  obtain ⟨rfl, hgid⟩ := hs'
  dsimp only at hgid ⊢
  split
  · rename_i hrc
    exact fun h => absurd h hrc
  rename_i hrc
  obtain rfl := hgid (not_not.mp hrc)
  refine safe_bind.mpr (safe_deref fun mr hmr => safe_bind.mpr (safe_deref fun qp hqp => ?_))
  obtain rfl : qp = e.qp := Option.some.inj (hqp.symm.trans e.qp_eq)
  refine Safe.bind (exchange_connection (length_conDataBytes ..)) fun x s' hs' => ?_
  obtain ⟨rc, tmp⟩ := x
  dsimp only at hs' ⊢
  split
  · exact fun h => by cases h
  rename_i hrc
  obtain ⟨rfl, rfl⟩ := hs' (not_lt.mp hrc)
  refine safe_step.mpr fun _ _ => ⟨trivial, ?_⟩
  have hmodify : ∀ {attr mask} {s : Connection}, Safe (connection e.gids tmp)
      (sys (.ibvModifyQp e.qp.ptr attr mask)) s
      fun _ s' => s' = { s with attrs := s.attrs ++ [attr] } :=
    fun _ _ => ⟨trivial, rfl⟩
  refine Safe.check hmodify (fun _ _ hrc _ h => absurd h hrc) fun s' hs' => ?_
  subst hs'
  refine Safe.checkSame ?_ (fun _ hrc h => absurd h hrc) ?_
  · refine safe_ite (fun _ => ?_) fun _ => rfl
    refine safe_bind.mpr (safe_deref fun _ _ => safe_bind.mpr (safe_deref fun _ _ => ?_))
    exact fun _ _ => ⟨trivial, rfl⟩
  refine Safe.check hmodify (fun _ _ hrc _ h => absurd h hrc) fun s' hs' => ?_
  subst hs'
  refine Safe.check hmodify (fun _ _ hrc _ h => absurd h hrc) fun s' hs' => ?_
  subst hs'
  refine Safe.bind (letterSync_connection (by rfl) (by rfl)) fun x s' hs' => ?_
  subst hs'
  dsimp only
  split
  · exact fun h => by cases h
  · exact fun _ => ⟨⟨mr, rfl⟩, rfl⟩

namespace Endpoint

variable {e : Endpoint} {peer : List UInt8} {c : Connection}

theorem Connects.spec (h : e.Connects peer c) :
    (∃ mr, c.sent = some (conDataBytes e.machine.order e.machine.padding (e.conData mr))) ∧
      c.attrs = (e.attrs peer).toList := by
  obtain ⟨t, res, hrun, hlegal, rfl⟩ := h
  exact ((connectQp_connection e).runs hrun hlegal).2 rfl

/-- The attributes do not use the address, the one field that depends on the byte
orders. -/
theorem attrs_of_sent {f : Endpoint} (mr : IbvMr) :
    e.attrs (conDataBytes f.machine.order f.machine.padding (f.conData mr)) =
      { init := initAttr e.cfg, rtr := rtrAttr e.cfg f.qp.qpNum f.res.portAttr.lid f.ownGid,
        rts := rtsAttr } := by
  simp only [attrs, conDataOf_conDataBytes, conData]

end Endpoint

/-! ## Two runs -/

theorem toNat_ofInt (i : Int) : ((UInt8.ofInt i).toNat : Int) = i % 256 := by
  rw [UInt8.ofInt, UInt8.toNat_ofNat']
  omega

section

variable {A B : Endpoint}

/-- The attributes of `A` when it was told the data of `B`. -/
def told (A B : Endpoint) : QpAttrs :=
  { init := initAttr A.cfg, rtr := rtrAttr A.cfg B.qp.qpNum B.res.portAttr.lid B.ownGid,
    rts := rtsAttr }

theorem sourceGid_told : sourceGid B.gids (told B A).rtr.ahAttr =
    if 0 ≤ B.cfg.gidIdx then some (B.gids 1 (B.cfg.gidIdx % 256)) else none := by
  by_cases hB : 0 ≤ B.cfg.gidIdx
  · rw [if_pos hB, ← toNat_ofInt]
    simp [sourceGid, told, rtrAttr, hB]
  · rw [if_neg hB]
    simp [sourceGid, told, rtrAttr, hB]

theorem fits_iff (hport : 1 ≤ A.cfg.ibPort) :
    Fits A B (told A B) (told B A) ↔
      A.cfg.ibPort ≤ 255 ∧ (0 ≤ A.cfg.gidIdx → A.cfg.ibPort = 1 ∧ 0 ≤ B.cfg.gidIdx ∧
        B.gids 1 (B.cfg.gidIdx % 256) = B.ownGid) := by
  have hinit : ((told A B).init.portNum.toNat : Int) = A.cfg.ibPort ↔ A.cfg.ibPort ≤ 255 := by
    rw [show (told A B).init.portNum = UInt8.ofInt A.cfg.ibPort from rfl, toNat_ofInt]
    omega
  constructor
  · intro h
    have hle := hinit.mp h.initPort
    refine ⟨hle, fun hA => ⟨?_, ?_⟩⟩
    · have hone : (1 : UInt8) = UInt8.ofInt A.cfg.ibPort := by
        simpa [told, rtrAttr, initAttr, hA] using h.rtrPort
      have hnat := toNat_ofInt A.cfg.ibPort
      rw [← hone] at hnat
      have hone' : ((1 : UInt8).toNat : Int) = 1 := rfl
      omega
    · have hdgid := h.dgid (by simp [told, rtrAttr, hA])
      rw [sourceGid_told] at hdgid
      split at hdgid
      · rename_i hB
        refine ⟨hB, ?_⟩
        simpa [told, rtrAttr, hA] using hdgid
      · cases hdgid
  · rintro ⟨hle, hglobal⟩
    obtain ⟨hqpn, hdlid, -, -⟩ := rtrAttr_peer A.cfg B.qp.qpNum B.res.portAttr.lid B.ownGid
    obtain ⟨-, -, hpsn, hrd⟩ := rtrAttr_peer B.cfg A.qp.qpNum A.res.portAttr.lid A.ownGid
    have hle' : (told A B).rts.maxRdAtomic ≤ (told B A).rtr.maxDestRdAtomic := by
      rw [show (told B A).rtr.maxDestRdAtomic = 1 from hrd]
      exact UInt8.le_refl 1
    have hrtr : (told A B).rtr.ahAttr.portNum = (told A B).init.portNum := by
      by_cases hA : 0 ≤ A.cfg.gidIdx
      · simp [told, rtrAttr, initAttr, hA, (hglobal hA).1]
      · simp [told, rtrAttr, initAttr, hA]
    refine ⟨hqpn, hdlid, hpsn.symm, hle', hinit.mpr hle, hrtr, fun hA => ?_⟩
    by_cases hidx : 0 ≤ A.cfg.gidIdx
    · obtain ⟨-, hB, hgid⟩ := hglobal hidx
      rw [sourceGid_told, if_pos hB, hgid]
      simp [told, rtrAttr, hidx]
    · simp [told, rtrAttr, hidx] at hA

theorem Endpoint.ownGid_of_port (h : A.cfg.ibPort = 1) (hidx : 0 ≤ A.cfg.gidIdx) :
    A.ownGid = A.gids 1 A.cfg.gidIdx := by
  rw [ownGid, if_pos hidx, h]
  rfl

end

/-! ## Two ends that talk to each other -/

/-- An environment that delivers `peer` as the connection data. -/
def delivering (gids : GidTables) (peer : List UInt8) :
    (c : Call) → Nat → Option (Reply c × Nat)
  | .read _ 40, n => some (.got peer, n)
  | .ibvQueryGid _ port i, n => some (((0 : Int), gids port i), n)
  | c, n => obliging c n

/-- An end with its objects in place and one GID for all table entries. -/
def endpoint (qpNum : UInt32) (gid : UInt8) (ibPort gidIdx : Int) : Endpoint :=
  { machine := littleMachine,
    cfg := { config with ibPort := ibPort, gidIdx := gidIdx },
    res := { resourcesInit with
      ibCtx := some 3, qp := some ⟨7, qpNum⟩, mr := some ⟨6, 60, 61⟩, buf := some 4096, sock := 4 },
    qp := ⟨7, qpNum⟩,
    gids := fun _ _ => Vector.replicate 16 gid,
    qp_eq := rfl }

def Endpoint.message (e : Endpoint) : List UInt8 :=
  conDataBytes e.machine.order e.machine.padding (e.conData ⟨6, 60, 61⟩)

/-- A run of the end `e` whose peer is `f`. -/
def talk (e f : Endpoint) : List (Event Call Reply) :=
  (play (delivering e.gids f.message) (connectQp e.machine e.cfg e.res) 0).1

def Endpoint.talked (e f : Endpoint) : Connection :=
  (connection e.gids f.message).after {} (talk e f)

theorem talk_connects {e f : Endpoint} {res : Resources}
    (hret : (play (delivering e.gids f.message) (connectQp e.machine e.cfg e.res) 0).2 =
      ret (0, res))
    (hlegal : (connection e.gids f.message).Legal {} (talk e f)) :
    e.Connects f.message (e.talked f) :=
  ⟨talk e f, res, hret ▸ runs_play _ _ _, hlegal, rfl⟩

/-- An end with a GID index and another one. -/
theorem talk_routed :
    (endpoint 70 9 1 0).Connects (endpoint 71 5 1 0).message
        ((endpoint 70 9 1 0).talked (endpoint 71 5 1 0)) ∧
      (endpoint 71 5 1 0).Connects (endpoint 70 9 1 0).message
        ((endpoint 71 5 1 0).talked (endpoint 70 9 1 0)) := by
  refine ⟨talk_connects rfl ?_, talk_connects rfl ?_⟩ <;>
    exact ⟨fun _ => rfl, fun _ => rfl, fun _ => ⟨rfl, rfl⟩, trivial, trivial, trivial, trivial,
      nofun, nofun, trivial⟩

/-- An end with a GID index and one without. -/
theorem talk_mixed :
    (endpoint 70 9 1 0).Connects (endpoint 72 5 1 (-1)).message
        ((endpoint 70 9 1 0).talked (endpoint 72 5 1 (-1))) ∧
      (endpoint 72 5 1 (-1)).Connects (endpoint 70 9 1 0).message
        ((endpoint 72 5 1 (-1)).talked (endpoint 70 9 1 0)) := by
  constructor
  · refine talk_connects rfl ?_
    exact ⟨fun _ => rfl, fun _ => rfl, fun _ => ⟨rfl, rfl⟩, trivial, trivial, trivial, trivial,
      nofun, nofun, trivial⟩
  · refine talk_connects rfl ?_
    exact ⟨fun _ => rfl, fun _ => ⟨rfl, rfl⟩, trivial, trivial, trivial, trivial, nofun, nofun,
      trivial⟩

/-- Both ends on port 2. -/
theorem talk_secondPort :
    (endpoint 70 9 2 0).Connects (endpoint 71 5 2 0).message
        ((endpoint 70 9 2 0).talked (endpoint 71 5 2 0)) ∧
      (endpoint 71 5 2 0).Connects (endpoint 70 9 2 0).message
        ((endpoint 71 5 2 0).talked (endpoint 70 9 2 0)) := by
  refine ⟨talk_connects rfl ?_, talk_connects rfl ?_⟩ <;>
    exact ⟨fun _ => rfl, fun _ => rfl, fun _ => ⟨rfl, rfl⟩, trivial, trivial, trivial, trivial,
      nofun, nofun, trivial⟩

/-- Two successful runs of `connect_qp`, each fed with what the other sent,
describe one mutual connection exactly when each side uses a port that fits its
8-bit field, port 1 and an 8-bit GID index if it uses a GID at all, and both or
neither use one. -/
theorem connectQp_mutual_iff {A B : Endpoint} {cA cB : Connection} {sentA sentB : List UInt8}
    (hportA : 1 ≤ A.cfg.ibPort) (hportB : 1 ≤ B.cfg.ibPort)
    (hA : A.Connects sentB cA) (hB : B.Connects sentA cB)
    (hsentA : cA.sent = some sentA) (hsentB : cB.sent = some sentB) :
    Mutual A B cA cB ↔
      LocalPort A ∧ LocalPort B ∧ (0 ≤ A.cfg.gidIdx ↔ 0 ≤ B.cfg.gidIdx) := by
  obtain ⟨⟨mrA, hbytesA⟩, hattrsA⟩ := hA.spec
  obtain ⟨⟨mrB, hbytesB⟩, hattrsB⟩ := hB.spec
  obtain rfl := Option.some.inj (hsentA.symm.trans hbytesA)
  obtain rfl := Option.some.inj (hsentB.symm.trans hbytesB)
  rw [Endpoint.attrs_of_sent] at hattrsA hattrsB
  have hmutual : Mutual A B cA cB ↔
      Fits A B (told A B) (told B A) ∧ Fits B A (told B A) (told A B) := by
    constructor
    · rintro ⟨a, b, ha, hb, hfits⟩
      obtain rfl := QpAttrs.toList_inj (ha.symm.trans hattrsA)
      obtain rfl := QpAttrs.toList_inj (hb.symm.trans hattrsB)
      exact hfits
    · exact fun hfits => ⟨_, _, hattrsA, hattrsB, hfits⟩
  rw [hmutual, fits_iff hportA, fits_iff hportB]
  constructor
  · rintro ⟨⟨hleA, hglobalA⟩, hleB, hglobalB⟩
    refine ⟨⟨hleA, fun h => (hglobalA h).1, fun h => ?_⟩,
      ⟨hleB, fun h => (hglobalB h).1, fun h => ?_⟩,
      fun h => (hglobalA h).2.1, fun h => (hglobalB h).2.1⟩
    · rw [(hglobalB (hglobalA h).2.1).2.2, Endpoint.ownGid_of_port (hglobalA h).1 h]
    · rw [(hglobalA (hglobalB h).2.1).2.2, Endpoint.ownGid_of_port (hglobalB h).1 h]
  · rintro ⟨hlA, hlB, hboth⟩
    refine ⟨⟨hlA.port, fun h => ⟨hlA.globalPort h, hboth.mp h, ?_⟩⟩,
      hlB.port, fun h => ⟨hlB.globalPort h, hboth.mpr h, ?_⟩⟩
    · have hB := hboth.mp h
      rw [Endpoint.ownGid_of_port (hlB.globalPort hB) hB, hlB.gidIdx hB]
    · have hA := hboth.mpr h
      rw [Endpoint.ownGid_of_port (hlA.globalPort hA) hA, hlA.gidIdx hA]

/-- Two ends with a GID each, which are mutual, and one of them with an end that has
none. -/
theorem connectQp_mutual_iff_routed :
    (Mutual (endpoint 70 9 1 0) (endpoint 71 5 1 0)
        ((endpoint 70 9 1 0).talked (endpoint 71 5 1 0))
        ((endpoint 71 5 1 0).talked (endpoint 70 9 1 0)) ↔
      LocalPort (endpoint 70 9 1 0) ∧ LocalPort (endpoint 71 5 1 0) ∧
        (0 ≤ (endpoint 70 9 1 0).cfg.gidIdx ↔ 0 ≤ (endpoint 71 5 1 0).cfg.gidIdx)) ∧
    (Mutual (endpoint 70 9 1 0) (endpoint 72 5 1 (-1))
        ((endpoint 70 9 1 0).talked (endpoint 72 5 1 (-1)))
        ((endpoint 72 5 1 (-1)).talked (endpoint 70 9 1 0)) ↔
      LocalPort (endpoint 70 9 1 0) ∧ LocalPort (endpoint 72 5 1 (-1)) ∧
        (0 ≤ (endpoint 70 9 1 0).cfg.gidIdx ↔ 0 ≤ (endpoint 72 5 1 (-1)).cfg.gidIdx)) :=
  ⟨connectQp_mutual_iff (by decide) (by decide) talk_routed.1 talk_routed.2 rfl rfl,
   connectQp_mutual_iff (by decide) (by decide) talk_mixed.1 talk_mixed.2 rfl rfl⟩

/-- Two ends on port 2 with GID index 0: the address vector names port 1. -/
theorem secondPort_not_mutual :
    (endpoint 70 9 2 0).Connects (endpoint 71 5 2 0).message
        ((endpoint 70 9 2 0).talked (endpoint 71 5 2 0)) ∧
      (endpoint 71 5 2 0).Connects (endpoint 70 9 2 0).message
        ((endpoint 71 5 2 0).talked (endpoint 70 9 2 0)) ∧
      ((endpoint 70 9 2 0).talked (endpoint 71 5 2 0)).sent = some (endpoint 70 9 2 0).message ∧
      ((endpoint 71 5 2 0).talked (endpoint 70 9 2 0)).sent = some (endpoint 71 5 2 0).message ∧
      ¬ Mutual (endpoint 70 9 2 0) (endpoint 71 5 2 0)
        ((endpoint 70 9 2 0).talked (endpoint 71 5 2 0))
        ((endpoint 71 5 2 0).talked (endpoint 70 9 2 0)) := by
  refine ⟨talk_secondPort.1, talk_secondPort.2, rfl, rfl, ?_⟩
  rintro ⟨a, b, ha, -, hfits, -⟩
  obtain rfl := QpAttrs.toList_inj (ha.symm.trans talk_secondPort.1.spec.2)
  exact absurd hfits.rtrPort (by decide)

end Rdma
end CommSpeed
