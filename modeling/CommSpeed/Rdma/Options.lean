/-
The options of `rcmain`.

`-p`, `-i` and `-g` go through `strtoul` into an `int` or a `u_int32_t` and on from
there into narrower fields: the 16 bits of a TCP port, the 8 bits of an IB port
and of a GID index.  The only check, for a negative `int`, comes after the first
of these conversions.

The arguments here are numerals, texts with the integer they are.  The program
sees the text; the integer says what it was meant to do.
-/
import CommSpeed.Number.Strtoul
import CommSpeed.Rdma.Main

namespace CommSpeed
namespace Rdma

open Bytes Number Prog

/-- An option as `getopt_long` hands it over. -/
inductive Opt (α : Type)
  | port (arg : α)
  | ibDev (arg : String)
  | ibPort (arg : α)
  | gidIdx (arg : α)
  /-- An unknown option or a missing argument. -/
  | unknown

/-- The conversion of an `unsigned long` to `int`. -/
def intOfUlong (v : Nat) : Int :=
  let low : Int := v % 2 ^ 32
  if low < 2 ^ 31 then low else low - 2 ^ 32

/-- One turn of the option loop of `rcmain`; `none` stands for `return 1`. -/
def readOption (cfg : Config) : Opt (List Char) → Option Config
  | .port arg => some { cfg with tcpPort := UInt32.ofNat (strtoul arg) }
  | .ibDev arg => some { cfg with devName := some arg }
  | .ibPort arg =>
    let ibPort := intOfUlong (strtoul arg)
    if ibPort < 0 then none else some { cfg with ibPort := ibPort }
  | .gidIdx arg =>
    let gidIdx := intOfUlong (strtoul arg)
    if gidIdx < 0 then none else some { cfg with gidIdx := gidIdx }
  | .unknown => none

def readOptions (cfg : Config) : List (Opt (List Char)) → Option Config
  | [] => some cfg
  | opt :: opts => (readOption cfg opt).bind fun cfg => readOptions cfg opts

/-- `rcmain` on the options and the arguments behind them. -/
def rcmain (m : Machine) (opts : List (Opt (List Char))) (rest : List String) : P Int :=
  match readOptions config opts with
  | none => return 1
  | some cfg =>
    match rest with
    | [] => rcmainBody m cfg
    | [name] => rcmainBody m { cfg with serverName := some name }
    | _ => return 1

/-! ## What the user wrote -/

def Opt.text : Opt Numeral → Opt (List Char)
  | .port n => .port n.text
  | .ibDev name => .ibDev name
  | .ibPort n => .ibPort n.text
  | .gidIdx n => .gidIdx n.text
  | .unknown => .unknown

/-- The integers written, where a later option takes the place of an earlier one. -/
structure Written where
  tcpPort : Option Int := none
  ibPort : Option Int := none
  gidIdx : Option Int := none

def Written.add (w : Written) : Opt Numeral → Written
  | .port n => { w with tcpPort := some n.value }
  | .ibPort n => { w with ibPort := some n.value }
  | .gidIdx n => { w with gidIdx := some n.value }
  | .ibDev _ | .unknown => w

def written (opts : List (Opt Numeral)) : Written := opts.foldl Written.add {}

/-- The integers that a call passes on are those written: the TCP port of `bind` and
`connect`, the IB port of the verbs calls and attributes, and the GID index. -/
def Carries (host : ByteOrder) (w : Written) : Call → Prop
  | .connect _ _ sinPort | .bind _ sinPort =>
    ∀ p ∈ w.tcpPort, ((ntohs host sinPort).toNat : Int) = p
  | .ibvQueryPort _ portNum => ∀ i ∈ w.ibPort, (portNum.toNat : Int) = i
  | .ibvQueryGid _ portNum index =>
    (∀ i ∈ w.ibPort, (portNum.toNat : Int) = i) ∧ ∀ g ∈ w.gidIdx, index = g
  | .ibvModifyQp _ attr _ =>
    (attr.qpState = .init → ∀ i ∈ w.ibPort, (attr.portNum.toNat : Int) = i) ∧
    (attr.qpState = .rtr → (∀ i ∈ w.ibPort, (attr.ahAttr.portNum.toNat : Int) = i) ∧
      ∀ g ∈ w.gidIdx, attr.ahAttr.isGlobal = 1 ∧ (attr.ahAttr.grh.sgidIndex.toNat : Int) = g)
  | _ => True

/-- Either the process returns 1 without a call, or every call of every run carries
the integers written. -/
def Means (opts : List (Opt Numeral)) (rest : List String) : Prop :=
  (∀ m, rcmain m (opts.map Opt.text) rest = ret 1) ∨
  ∀ m t q, Runs (rcmain m (opts.map Opt.text) rest) t q →
    ∀ e ∈ t, Carries m.order (written opts) e.call

/-- The option is refused: bit 31 of what `strtoul` makes of its integer is set. -/
def Opt.IsRefused : Opt Numeral → Prop
  | .ibPort n | .gidIdx n => 2 ^ 31 ≤ ulongOf n.value % 2 ^ 32
  | .port _ | .ibDev _ => False
  | .unknown => True

instance : DecidablePred Opt.IsRefused
  | .ibPort n | .gidIdx n => inferInstanceAs (Decidable (2 ^ 31 ≤ ulongOf n.value % 2 ^ 32))
  | .port _ | .ibDev _ => .isFalse id
  | .unknown => .isTrue trivial

/-- An option is refused, or there is more than one argument behind them. -/
def Refused (opts : List (Opt Numeral)) (rest : List String) : Prop :=
  (∃ opt ∈ opts, opt.IsRefused) ∨ 1 < rest.length

/-- The integers fit the fields they end up in.  With a GID index the address vector
gets the IB port 1 whatever was written. -/
structure InRange (w : Written) : Prop where
  tcpPort : ∀ p ∈ w.tcpPort, 0 ≤ p ∧ p < 2 ^ 16
  ibPort : ∀ i ∈ w.ibPort, 0 ≤ i ∧ i < 2 ^ 8
  gidIdx : ∀ g ∈ w.gidIdx, 0 ≤ g ∧ g < 2 ^ 8
  both : ∀ i ∈ w.ibPort, ∀ g ∈ w.gidIdx, i = 1

/-! ## The option loop -/

structure Configures (w : Written) (cfg : Config) : Prop where
  tcpPort : ∀ p ∈ w.tcpPort, cfg.tcpPort = UInt32.ofNat (ulongOf p)
  ibPort : ∀ i ∈ w.ibPort, cfg.ibPort = intOfUlong (ulongOf i)
  gidIdx : ∀ g ∈ w.gidIdx, cfg.gidIdx = intOfUlong (ulongOf g) ∧ 0 ≤ cfg.gidIdx
  noGid : w.gidIdx = none → cfg.gidIdx < 0

theorem intOfUlong_neg_iff (v : Nat) : intOfUlong v < 0 ↔ 2 ^ 31 ≤ v % 2 ^ 32 := by
  unfold intOfUlong
  dsimp only
  split <;> omega

theorem intOfUlong_of_small {z : Int} (h0 : 0 ≤ z) (h : z < 2 ^ 31) :
    intOfUlong (ulongOf z) = z := by
  have hz := ulongOf_of_small h0 (by omega)
  unfold intOfUlong
  dsimp only
  rw [hz]
  split <;> omega

section

variable {w : Written} {cfg : Config} {opt : Opt Numeral} {opts : List (Opt Numeral)}

theorem readOption_refused (h : opt.IsRefused) : readOption cfg opt.text = none := by
  cases opt with
  | port | ibDev => cases h
  | unknown => rfl
  | ibPort n | gidIdx n =>
      have hneg := (intOfUlong_neg_iff _).mpr h
      simp [readOption, Opt.text, strtoul_text, hneg]

theorem readOption_configures (hcfg : Configures w cfg) (h : ¬ opt.IsRefused) :
    ∃ cfg', readOption cfg opt.text = some cfg' ∧ Configures (w.add opt) cfg' := by
  have hnonneg : ∀ n : Numeral, ¬ 2 ^ 31 ≤ ulongOf n.value % 2 ^ 32 →
      ¬ intOfUlong (ulongOf n.value) < 0 := by
    intro n hn hneg
    exact hn ((intOfUlong_neg_iff _).mp hneg)
  cases opt with
  | port n =>
      refine ⟨{ cfg with tcpPort := UInt32.ofNat (ulongOf n.value) }, ?_, ?_⟩
      · simp [readOption, Opt.text, strtoul_text]
      · exact ⟨fun p hp => by rw [Option.mem_some_iff.mp hp], hcfg.ibPort, hcfg.gidIdx, hcfg.noGid⟩
  | ibDev name =>
      refine ⟨{ cfg with devName := some name }, rfl, ?_⟩
      exact ⟨hcfg.tcpPort, hcfg.ibPort, hcfg.gidIdx, hcfg.noGid⟩
  | ibPort n =>
      refine ⟨{ cfg with ibPort := intOfUlong (ulongOf n.value) }, ?_, ?_⟩
      · simp [readOption, Opt.text, strtoul_text, hnonneg n h]
      · exact ⟨hcfg.tcpPort, fun i hi => by rw [Option.mem_some_iff.mp hi], hcfg.gidIdx, hcfg.noGid⟩
  | gidIdx n =>
      refine ⟨{ cfg with gidIdx := intOfUlong (ulongOf n.value) }, ?_, ?_⟩
      · simp [readOption, Opt.text, strtoul_text, hnonneg n h]
      · refine ⟨hcfg.tcpPort, hcfg.ibPort, fun g hg => ?_, nofun⟩
        have hval : n.value = g := Option.mem_some_iff.mp hg
        subst hval
        have hle : 0 ≤ intOfUlong (ulongOf n.value) := not_lt.mp (hnonneg n h)
        dsimp only
        exact ⟨rfl, hle⟩
  | unknown => exact absurd trivial h

theorem readOptions_refused (h : ∃ opt ∈ opts, opt.IsRefused) :
    readOptions cfg (opts.map Opt.text) = none := by
  induction opts generalizing cfg with
  | nil => simp at h
  | cons opt opts ih =>
      rw [List.map_cons, readOptions]
      by_cases hopt : opt.IsRefused
      · rw [readOption_refused hopt, Option.bind_none]
      · have hrest : ∃ opt' ∈ opts, opt'.IsRefused := by simpa [hopt] using h
        cases readOption cfg opt.text with
        | none => rfl
        | some cfg' => exact ih hrest

theorem readOptions_configures (hcfg : Configures w cfg)
    (h : ∀ opt ∈ opts, ¬ opt.IsRefused) :
    ∃ cfg', readOptions cfg (opts.map Opt.text) = some cfg' ∧
      Configures (opts.foldl Written.add w) cfg' := by
  induction opts generalizing w cfg with
  | nil => exact ⟨cfg, rfl, hcfg⟩
  | cons opt opts ih =>
      obtain ⟨cfg₁, hread, hcfg₁⟩ := readOption_configures hcfg (h opt List.mem_cons_self)
      obtain ⟨cfg₂, hrest, hcfg₂⟩ := ih hcfg₁ fun o ho => h o (List.mem_cons_of_mem opt ho)
      refine ⟨cfg₂, ?_, hcfg₂⟩
      rw [List.map_cons, readOptions, hread, Option.bind_some, hrest]

theorem config_configures : Configures {} config :=
  ⟨nofun, nofun, nofun, fun _ => by decide⟩

theorem Configures.serverName {name : Option String} (h : Configures w cfg) :
    Configures w { cfg with serverName := name } :=
  ⟨h.tcpPort, h.ibPort, h.gidIdx, h.noGid⟩

/-- A command line that is not refused gets to the resources. -/
theorem rcmain_configured {rest : List String} (h : ¬ Refused opts rest) :
    ∃ cfg, Configures (written opts) cfg ∧
      ∀ m, rcmain m (opts.map Opt.text) rest = rcmainBody m cfg := by
  obtain ⟨hopts, hrest⟩ := not_or.mp h
  obtain ⟨cfg, hread, hcfg⟩ := readOptions_configures config_configures
    fun opt hopt hr => hopts ⟨opt, hopt, hr⟩
  unfold rcmain
  rw [hread]
  match rest, hrest with
  | [], _ => exact ⟨cfg, hcfg, fun _ => rfl⟩
  | [name], _ => exact ⟨{ cfg with serverName := some name }, hcfg.serverName, fun _ => rfl⟩
  | _ :: _ :: _, hrest => simp at hrest

theorem rcmain_refused {rest : List String} (h : Refused opts rest) (m : Machine) :
    rcmain m (opts.map Opt.text) rest = ret 1 := by
  unfold rcmain
  cases hread : readOptions config (opts.map Opt.text) with
  | none => rfl
  | some cfg =>
      obtain hopts | hrest := h
      · rw [readOptions_refused hopts] at hread
        cases hread
      · match rest, hrest with
        | [], hrest => simp at hrest
        | [_], hrest => simp at hrest
        | _ :: _ :: _, _ => rfl

/-! ## What the calls carry -/

theorem ntohs_htons (host : ByteOrder) (x : UInt16) : ntohs host (htons host x) = x := by
  cases host with
  | little => exact bswap16_bswap16 x
  | big => rfl

theorem toNat_tcpPort {p : Int} (h0 : 0 ≤ p) (h : p < 2 ^ 16) :
    ((UInt32.ofNat (ulongOf p)).toUInt16.toNat : Int) = p := by
  have hp := ulongOf_of_small h0 (by omega)
  rw [UInt32.toNat_toUInt16, UInt32.toNat_ofNat']
  omega

theorem toNat_byte {i : Int} (h0 : 0 ≤ i) (h : i < 2 ^ 8) :
    ((UInt8.ofInt (intOfUlong (ulongOf i))).toNat : Int) = i := by
  rw [intOfUlong_of_small h0 (by omega), UInt8.ofInt, UInt8.toNat_ofNat']
  omega

/-- In range, what the source makes of the configuration is what was written. -/
theorem carries_of_configured {m : Machine} {c : Call} (hcfg : Configures w cfg)
    (hw : InRange w) (h : c.Configured m cfg) : Carries m.order w c := by
  have hport : ∀ i ∈ w.ibPort, ((UInt8.ofInt cfg.ibPort).toNat : Int) = i := by
    intro i hi
    rw [hcfg.ibPort i hi]
    exact toNat_byte (hw.ibPort i hi).1 (hw.ibPort i hi).2
  have hsin : ∀ sinPort, sinPort = htons m.order cfg.tcpPort.toUInt16 →
      ∀ p ∈ w.tcpPort, ((ntohs m.order sinPort).toNat : Int) = p := by
    rintro _ rfl p hp
    rw [ntohs_htons, hcfg.tcpPort p hp]
    exact toNat_tcpPort (hw.tcpPort p hp).1 (hw.tcpPort p hp).2
  cases c with
  | connect | bind => exact hsin _ h
  | ibvQueryPort ctx portNum =>
      rw [show portNum = UInt8.ofInt cfg.ibPort from h]
      exact hport
  | ibvQueryGid ctx portNum index =>
      obtain ⟨rfl, rfl⟩ := h
      refine ⟨hport, fun g hg => ?_⟩
      have hrange := hw.gidIdx g hg
      exact (hcfg.gidIdx g hg).1.trans (intOfUlong_of_small hrange.1 (by omega))
  | ibvModifyQp qp attr mask =>
      obtain rfl | ⟨qpn, dlid, dgid, rfl⟩ | rfl := h
      · exact ⟨fun _ => hport, nofun⟩
      · refine ⟨fun hinit => ?_, fun _ => ⟨fun i hi => ?_, fun g hg => ?_⟩⟩
        · rw [rtrAttr_qpState] at hinit
          cases hinit
        · -- with a GID index the port is 1, and so is the one written
          by_cases hgid : 0 ≤ cfg.gidIdx
          · obtain ⟨g, hg⟩ : ∃ g, w.gidIdx = some g := by
              rw [← Option.ne_none_iff_exists']
              intro hnone
              exact not_lt.mpr hgid (hcfg.noGid hnone)
            rw [hw.both i hi g hg]
            simp [rtrAttr, hgid]
          · simpa [rtrAttr, hgid] using hport i hi
        · have hgid := (hcfg.gidIdx g hg).2
          have hrange := hw.gidIdx g hg
          rw [rtrAttr, if_pos hgid]
          refine ⟨rfl, ?_⟩
          dsimp only
          rw [(hcfg.gidIdx g hg).1]
          exact toNat_byte hrange.1 hrange.2
      · exact ⟨nofun, nofun⟩
  | _ => trivial

end

/-! ## Runs that get to the queue pair

With a friendly environment every configuration gets there. -/

section

variable (cfg : Config)

theorem sockConnect_returns :
    ∃ fd, 0 ≤ fd ∧ Returns (sockConnect littleMachine cfg.serverName cfg.tcpPort) fd := by
  cases cfg.serverName with
  | none =>
      refine ⟨4, by decide, ?_⟩
      refine Returns.bind (a := ((4 : Int), (3 : Int))) (Returns.step (3 : Int) ?_)
        (Returns.step (0 : Int) (.ret 4))
      exact Returns.step (0 : Int) (Returns.step (0 : Int) (Returns.step (4 : Int) (.ret _)))
  | some name =>
      refine ⟨3, by decide, ?_⟩
      refine Returns.bind (a := ((3 : Int), (0 : Int))) (Returns.step (3 : Int) ?_)
        (Returns.step (0 : Int) (.ret 3))
      exact Returns.step (0 : Int) (.ret _)

theorem fillBuffer_returns (buf : Ptr) : Returns (fillBuffer cfg buf) () := by
  unfold fillBuffer
  split
  · exact Returns.step () (Returns.step () (Returns.step () (.ret ())))
  · exact Returns.step () (.ret ())

def allObjects (res : Resources) : Resources :=
  { res with
    portAttr := ⟨7⟩
    ibCtx := some 3
    pd := some 4
    cq := some 5
    buf := some 4096
    mr := some ⟨6, 60, 61⟩
    qp := some ⟨7, 70⟩ }

theorem resourcesCreateVerbs_returns (res : Resources) :
    Returns (resourcesCreateVerbs cfg res) (0, allObjects res, none) := by
  have hfind : findDevice cfg.devName [⟨2, cfg.devName.getD "mlx4_0"⟩] =
      some ⟨2, cfg.devName.getD "mlx4_0"⟩ := by
    cases h : cfg.devName <;> simp [findDevice]
  unfold resourcesCreateVerbs
  refine Returns.step (some ((1 : Ptr), [(⟨2, cfg.devName.getD "mlx4_0"⟩ : IbvDevice)])) ?_
  dsimp only
  rw [if_neg (by simp), hfind]
  refine Returns.step (some (3 : Ptr)) (Returns.step () ?_)
  refine Returns.step ((0 : Int), (⟨7⟩ : IbvPortAttr)) ?_
  dsimp only
  rw [if_neg (by simp)]
  refine Returns.step (some (4 : Ptr)) (Returns.step (some (5 : Ptr)) ?_)
  refine Returns.step (some (4096 : Ptr)) (Returns.step () ?_)
  refine Returns.bind (fillBuffer_returns cfg 4096) ?_
  refine Returns.step (some (⟨6, 60, 61⟩ : IbvMr)) ?_
  exact Returns.step (some (⟨7, 70⟩ : IbvQp)) (.ret _)

theorem resourcesCreate_returns :
    ∃ fd, Returns (resourcesCreate littleMachine cfg resourcesInit)
      (0, allObjects { resourcesInit with sock := fd }) := by
  obtain ⟨fd, hfd, hconnect⟩ := sockConnect_returns cfg
  have hsteps : Returns (resourcesCreateSteps littleMachine cfg resourcesInit)
      (0, allObjects { resourcesInit with sock := fd }, none) := by
    refine Returns.bind hconnect ?_
    dsimp only
    rw [if_neg (not_lt.mpr hfd)]
    exact resourcesCreateVerbs_returns cfg _
  exact ⟨fd, Returns.bind hsteps (.ret _)⟩

theorem sync_returns (sock : Int) (l r : List UInt8) :
    Returns (sockSyncData littleMachine sock 40 l r) (0, overlay (List.replicate 40 0) r) :=
  Returns.step (40 : Int) (Returns.step (.got (List.replicate 40 0)) (.ret _))

theorem queryMyGid_returns {res : Resources} (h : res.ibCtx.isSome) :
    ∃ gid, Returns (queryMyGid cfg res) (0, gid) := by
  obtain ⟨ctx, hctx⟩ := Option.isSome_iff_exists.mp h
  unfold queryMyGid
  rw [hctx]
  split
  · exact ⟨Vector.replicate 16 9, Returns.step ((0 : Int), Vector.replicate 16 9) (.ret _)⟩
  · exact ⟨Vector.replicate 16 0, .ret _⟩

theorem postRecv_returns {res : Resources} (hmr : res.mr.isSome) (hqp : res.qp.isSome) :
    Returns (postRecv res) 0 := by
  obtain ⟨mr, hmr⟩ := Option.isSome_iff_exists.mp hmr
  obtain ⟨qp, hqp⟩ := Option.isSome_iff_exists.mp hqp
  unfold postRecv
  rw [hmr, hqp]
  exact Returns.step (0 : Int) (.ret 0)

/-- `connect_qp` gets to both of the transitions that take something from the
configuration. -/
theorem connectQp_reaches (res : Resources) (hctx : res.ibCtx.isSome) (hmr : res.mr.isSome)
    (hqp : res.qp.isSome) :
    (∃ qp mask, Reaches (connectQp littleMachine cfg res) (.ibvModifyQp qp (initAttr cfg) mask)) ∧
    ∃ qp mask remoteQpn dlid dgid, Reaches (connectQp littleMachine cfg res)
      (.ibvModifyQp qp (rtrAttr cfg remoteQpn dlid dgid) mask) := by
  obtain ⟨gid, hgid⟩ := queryMyGid_returns cfg hctx
  obtain ⟨mr, hmr'⟩ := Option.isSome_iff_exists.mp hmr
  obtain ⟨qp, hqp'⟩ := Option.isSome_iff_exists.mp hqp
  unfold connectQp
  rw [hmr', hqp']
  constructor
  · refine ⟨qp.ptr, [.state, .pkeyIndex, .port, .accessFlags], hgid.reaches ?_⟩
    refine Returns.reaches (a := mr) (.ret mr) (Returns.reaches (a := qp) (.ret qp) ?_)
    refine Returns.reaches (sync_returns _ _ _) (Reaches.step () ?_)
    exact Reaches.here _ _
  · let peer := conDataOf littleMachine.order
      (overlay (List.replicate 40 0) littleMachine.tmpConData.toList)
    refine ⟨qp.ptr, [.state, .av, .pathMtu, .destQpn, .rqPsn, .maxDestRdAtomic, .minRnrTimer],
      peer.qpNum, peer.lid, peer.gid, hgid.reaches ?_⟩
    refine Returns.reaches (a := mr) (.ret mr) (Returns.reaches (a := qp) (.ret qp) ?_)
    refine Returns.reaches (sync_returns _ _ _) (Reaches.step () (Reaches.step (0 : Int) ?_))
    have hrecv : ∀ res : Resources, res.mr.isSome → res.qp.isSome →
        Returns (if cfg.serverName.isSome then postRecv res else pure 0) (0 : Int) := by
      intro res hmr hqp
      split
      · exact postRecv_returns hmr hqp
      · exact .ret 0
    refine Returns.reaches (hrecv _ rfl rfl) ?_
    exact Reaches.here _ _

/-- Every run passes the TCP port to `bind` or `connect`. -/
theorem rcmainBody_reaches_socket :
    ∃ c, Nonempty (Reply c) ∧ Reaches (rcmainBody littleMachine cfg) c ∧
      ∀ w, Carries littleMachine.order w c →
        ∀ p ∈ w.tcpPort, (cfg.tcpPort.toUInt16.toNat : Int) = p := by
  have hport := ntohs_htons littleMachine.order cfg.tcpPort.toUInt16
  cases hname : cfg.serverName with
  | none =>
      refine ⟨.bind 3 (htons littleMachine.order cfg.tcpPort.toUInt16), ⟨(0 : Int)⟩, ?_, ?_⟩
      · refine Reaches.bind (Reaches.bind (Reaches.bind ?_))
        rw [hname]
        exact Reaches.bind (Reaches.step (3 : Int) (Reaches.here _ _))
      · intro w h p hp
        rw [← hport]
        exact h p hp
  | some name =>
      refine ⟨.connect 3 name (htons littleMachine.order cfg.tcpPort.toUInt16), ⟨(0 : Int)⟩, ?_, ?_⟩
      · refine Reaches.bind (Reaches.bind (Reaches.bind ?_))
        rw [hname]
        exact Reaches.bind (Reaches.step (3 : Int) (Reaches.here _ _))
      · intro w h p hp
        rw [← hport]
        exact h p hp

theorem rcmainBody_reaches_init :
    ∃ qp mask, Reaches (rcmainBody littleMachine cfg) (.ibvModifyQp qp (initAttr cfg) mask) := by
  obtain ⟨fd, hcreate⟩ := resourcesCreate_returns cfg
  obtain ⟨⟨qp, mask, h⟩, -⟩ := connectQp_reaches cfg
    (allObjects { resourcesInit with sock := fd }) rfl rfl rfl
  exact ⟨qp, mask, hcreate.reaches (Reaches.bind (Reaches.bind h))⟩

theorem rcmainBody_reaches_rtr :
    ∃ qp mask remoteQpn dlid dgid, Reaches (rcmainBody littleMachine cfg)
      (.ibvModifyQp qp (rtrAttr cfg remoteQpn dlid dgid) mask) := by
  obtain ⟨fd, hcreate⟩ := resourcesCreate_returns cfg
  obtain ⟨-, qp, mask, remoteQpn, dlid, dgid, h⟩ := connectQp_reaches cfg
    (allObjects { resourcesInit with sock := fd }) rfl rfl rfl
  exact ⟨qp, mask, remoteQpn, dlid, dgid, hcreate.reaches (Reaches.bind (Reaches.bind h))⟩

variable {cfg}

theorem inRange_of_carries {w : Written} (hcfg : Configures w cfg)
    (h : ∀ t q, Runs (rcmainBody littleMachine cfg) t q →
      ∀ e ∈ t, Carries littleMachine.order w e.call) : InRange w := by
  obtain ⟨c, ⟨r⟩, hsocket, hport⟩ := rcmainBody_reaches_socket cfg
  obtain ⟨qp, mask, hinit⟩ := rcmainBody_reaches_init cfg
  obtain ⟨qp', mask', remoteQpn, dlid, dgid, hrtr⟩ := rcmainBody_reaches_rtr cfg
  have hsin := hport w (hsocket.call_of_runs r h)
  have hib := (hinit.call_of_runs (0 : Int) h).1 rfl
  obtain ⟨hav, hgid⟩ := (hrtr.call_of_runs (0 : Int) h).2 (rtrAttr_qpState ..)
  have hnonneg : ∀ g ∈ w.gidIdx, 0 ≤ cfg.gidIdx := fun g hg => (hcfg.gidIdx g hg).2
  refine ⟨fun p hp => ?_, fun i hi => ?_, fun g hg => ?_, fun i hi g hg => ?_⟩
  · have hlt := cfg.tcpPort.toUInt16.toNat_lt
    have heq := hsin p hp
    omega
  · have hlt := (initAttr cfg).portNum.toNat_lt
    have heq := hib i hi
    omega
  · have hlt := (rtrAttr cfg remoteQpn dlid dgid).ahAttr.grh.sgidIndex.toNat_lt
    have heq := (hgid g hg).2
    omega
  · have heq := hav i hi
    rw [rtrAttr, if_pos (hnonneg g hg)] at heq
    exact heq.symm

end

/-! ## The options mean what was written -/

theorem inRange_of_means {opts : List (Opt Numeral)} {rest : List String}
    (hrefused : ¬ Refused opts rest) (h : Means opts rest) : InRange (written opts) := by
  obtain ⟨cfg, hcfg, hrun⟩ := rcmain_configured hrefused
  apply inRange_of_carries hcfg
  intro t q ht e he
  obtain hret | hcarries := h
  · -- a program that has returned makes no call
    rw [← hrun, hret] at ht
    cases ht
    cases he
  · exact hcarries littleMachine t q (by rwa [hrun]) e he

theorem means_of_inRange {opts : List (Opt Numeral)} {rest : List String}
    (h : InRange (written opts)) : Means opts rest := by
  by_cases hrefused : Refused opts rest
  · exact .inl (rcmain_refused hrefused)
  · obtain ⟨cfg, hcfg, hrun⟩ := rcmain_configured hrefused
    refine .inr fun m t q ht e he => ?_
    rw [hrun] at ht
    exact carries_of_configured hcfg h ((rcmainBody_configured m cfg).calls ht e he)

/-- The endpoint options mean what the user wrote if and only if the command line
is refused or the integers fit. -/
theorem rcmain_means_iff (opts : List (Opt Numeral)) (rest : List String) :
    Means opts rest ↔ Refused opts rest ∨ InRange (written opts) := by
  constructor
  · intro h
    by_cases hrefused : Refused opts rest
    · exact .inl hrefused
    · exact .inr (inRange_of_means hrefused h)
  · rintro (hrefused | hrange)
    · exact .inl (rcmain_refused hrefused)
    · exact means_of_inRange hrange

/-- "65536". -/
def firstTooLarge : Numeral where
  blanks := []
  sign := .none
  digits := ['6', '5', '5', '3', '6']
  magnitude := 65536
  blanks_isSpace := nofun
  digits_magnitude := @Magnitude.decimal '6' ['5', '5', '3', '6'] [6, 5, 5, 3, 6] (by decide) rfl

/-- With `-p 65536` the server binds the port 0. -/
theorem firstTooLarge_binds_zero :
    (∃ q, Runs (rcmain littleMachine [(Opt.port firstTooLarge).text] [])
      [⟨.socket, (3 : Int)⟩, ⟨.bind 3 (htons .little 0), (0 : Int)⟩] q) ∧
    ¬ Means [.port firstTooLarge] [] := by
  have hrefused : ¬ Refused [.port firstTooLarge] [] := by
    rintro (⟨opt, hopt, h⟩ | h)
    · rw [List.mem_singleton.mp hopt] at h
      exact h
    · simp at h
  refine ⟨⟨_, .cons (.cons (.nil _))⟩, fun h => ?_⟩
  have hport := (inRange_of_means hrefused h).tcpPort 65536 rfl
  omega

end Rdma
end CommSpeed
