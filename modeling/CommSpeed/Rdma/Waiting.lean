/-
Two sides of `rcmain` never wait for each other, as long as the program is compiled
with its assertions: a side whose `write` is short dies and does not go on.

The reads of `sock_sync_data` ask for the whole size again, so a side may take
bytes of later messages with the last piece of the connection data.  It then
believes every later letter to have come one exchange before it has, and yet
the two sides cannot come to a standstill in which both of them wait: the messages
are the 40 bytes of the connection data and then single letters, and an exchange
of such messages is free of deadlock (`CommSpeed/Prog/Exchange.lean`).

A side is watched through its place in the exchanges; `exchanging` asks that a
message is put on the stream only between exchanges and that a read is made only
in one that lacks bytes.
-/
import CommSpeed.Prog.Exchange
import CommSpeed.Rdma.Barrier
import CommSpeed.Rdma.Ending

namespace CommSpeed
namespace Rdma

open Bytes Prog Exchanges

/-- The connection data and then the letters. -/
def syncSize (k : Nat) : Nat := if k = 0 then 40 else 1

theorem syncSize_pos (k : Nat) : 0 < syncSize k := by
  unfold syncSize
  split <;> omega

theorem syncSize_mono (k : Nat) (h : 0 < k) : syncSize k ≤ syncSize (k + 1) := by
  rw [syncSize, if_neg (Nat.pos_iff_ne_zero.mp h), syncSize, if_neg (Nat.succ_ne_zero k)]

/-- The place of a side after a call. -/
def exchanged (p : Place) : (c : Call) → Reply c → Place
  | .write _ data, rc => p.send (rc = data.length)
  | .read .., .got bs => p.receive syncSize bs.length
  | .read .., .failed => p.fail
  | _, _ => p

def inTurn (p : Place) : Call → Prop
  | .write _ data => p.phase = .between ∧ data.length = syncSize p.completed
  | .read .. => p.completed < 4 ∧ ∃ got, p.phase = .reading got
  | _ => True

def exchanging : Monitor Call Reply Place where
  legal _ _ _ := True
  ok p c _ := inTurn p c
  next := exchanged

section

variable {m : Machine} {α : Type} {p : Place} {k : Nat}

/-- A side that has completed `k` exchanges and is not in one. -/
def Idle (k : Nat) (p : Place) : Prop := p.completed = k ∧ p.phase = .between

theorem exchanged_ignored {c : Call} (h : c.isSync = false) (p : Place) (r : Reply c) :
    inTurn p c ∧ exchanged p c r = p := by
  cases c <;> first | exact ⟨trivial, rfl⟩ | cases h

/-- Between the exchanges the place stays. -/
theorem idle_exchanging {q : P α} {Q : α → Prop} (h : Uses (fun c => c.isSync = false) q Q)
    (p : Place) : Safe exchanging q p fun _ p' => p' = p :=
  (h.safe fun _ r hc => exchanged_ignored hc p r).mono fun _ _ h => h.2

/-- The invariant of the read loop: as long as it goes on, it has got what the place
says, and it ends when the exchange does. -/
def InExchange (k n : Nat) (l : ReadLoop) (p : Place) : Prop :=
  l.rc ≤ 0 ∧ (l.rc = 0 → p.completed = k ∧ p.phase = .reading l.totalReadBytes ∧
    l.totalReadBytes < n ∨ n ≤ l.totalReadBytes ∧ Idle (k + 1) p)

theorem readLoopBody_exchanging {sock : Int} {n : Nat} {l : ReadLoop} (hk : k < 4)
    (hn : n = syncSize k) (hl : InExchange k n l p) :
    Safe exchanging (readLoopBody sock n l) p fun y p' =>
      match y with
      | .inl l' => InExchange k n l' p'
      | .inr x => x.1 ≤ 0 ∧ (x.1 = 0 → Idle (k + 1) p') := by
  unfold readLoopBody
  by_cases hcond : l.rc = 0 ∧ l.totalReadBytes < n
  · rw [if_pos hcond]
    obtain ⟨hplace, hphase, -⟩ | hdone := hl.2 hcond.1
    · refine safe_step.mpr fun r _ => ⟨⟨hplace ▸ hk, _, hphase⟩, ?_⟩
      obtain ⟨j, e, phase⟩ := p
      obtain rfl : j = k := hplace
      obtain rfl : phase = .reading l.totalReadBytes := hphase
      by_cases hr : 0 < r.count
      · rw [if_pos hr]
        refine ⟨hl.1, fun _ => ?_⟩
        cases r with
        | failed => simp at hr
        | got bs =>
            show _ ∧ _ ∧ l.totalReadBytes + bs.length < n ∨ n ≤ l.totalReadBytes + bs.length ∧ _
            by_cases hmore : l.totalReadBytes + bs.length < syncSize j
            · refine .inl ⟨?_, ?_, hn ▸ hmore⟩
              · exact congrArg Place.completed (receive_more hmore)
              · exact congrArg Place.phase (receive_more hmore)
            · refine .inr ⟨hn ▸ not_lt.mp hmore, ?_, ?_⟩
              · exact congrArg Place.completed (receive_last hmore)
              · exact congrArg Place.phase (receive_last hmore)
      · rw [if_neg hr]
        refine ⟨not_lt.mp hr, fun hzero => ?_⟩
        cases r with
        | failed => simp at hzero
        | got bs =>
            obtain rfl : bs = [] := by simpa using hzero
            have hmore : l.totalReadBytes + 0 < syncSize j := hn ▸ hcond.2
            refine .inl ⟨?_, ?_, hcond.2⟩
            · exact congrArg Place.completed (receive_more hmore)
            · exact congrArg Place.phase (receive_more hmore)
    · exact absurd hcond.2 (not_lt.mpr hdone.1)
  · rw [if_neg hcond]
    refine ⟨hl.1, fun hzero => ?_⟩
    rcases hl.2 hzero with hin | hdone
    · exact absurd ⟨hzero, hin.2.2⟩ hcond
    · exact hdone.2

/-- A call of `sock_sync_data` that returns 0 is the next exchange.  Assertions are
compiled in, so what follows a short `write` is the end of the process. -/
theorem sync_exchanging (hnd : m.ndebug = false) (hk : k < 4) {sock : Int} {n : Nat}
    {local' : List UInt8} (hn : n = syncSize k) (hlen : local'.length = n) (hp : Idle k p)
    (remote : List UInt8) :
    Safe exchanging (sockSyncData m sock n local' remote) p fun x p' =>
      x.1 ≤ 0 ∧ (x.1 = 0 → Idle (k + 1) p') := by
  obtain ⟨j, e, phase⟩ := p
  obtain ⟨rfl, rfl⟩ : j = k ∧ phase = .between := hp
  have htake : local'.take n = local' := List.take_of_length_le hlen.le
  unfold sockSyncData
  rw [htake]
  refine safe_step.mpr fun rc _ => ⟨⟨rfl, hlen.trans hn⟩, ?_⟩
  refine safe_bind.mpr (safe_assert fun hassert => ?_)
  rw [hnd, Bool.false_or, decide_eq_true_eq] at hassert
  subst hassert
  rw [if_neg (lt_irrefl _)]
  refine safe_iterate (I := InExchange j n) ?_ fun l p hl => ?_
  · refine ⟨le_refl 0, fun _ => .inl ⟨rfl, ?_, hn ▸ syncSize_pos j⟩⟩
    show (if decide ((n : Int) = local'.length) = true then Phase.reading 0 else .halted) = _
    rw [hlen, if_pos (decide_eq_true rfl)]
  · refine (readLoopBody_exchanging hk hn hl).mono fun y p' h => ?_
    cases y <;> exact h

theorem letterSync_exchanging (hnd : m.ndebug = false) (hk : k + 1 < 4) {sock : Int} {c : Char}
    (hp : Idle (k + 1) p) (remote : List UInt8) :
    Safe exchanging (sockSyncData m sock 1 (charBytes [c]) remote) p fun x p' =>
      x.1 = 0 → Idle (k + 2) p' :=
  (sync_exchanging hnd hk (n := 1) rfl rfl hp remote).mono fun _ _ h => h.2

theorem pollCompletion_exchanging (res : Resources) (p : Place) :
    Safe exchanging (pollCompletion m res) p fun _ p' => p' = p :=
  idle_exchanging (pollCompletion_uses (U := fun c => c.isSync = false) (fun _ => rfl) rfl m res) p

theorem postSend_exchanging (res : Resources) (op : WrOpcode) (p : Place) :
    Safe exchanging (postSend res op) p fun _ p' => p' = p :=
  idle_exchanging (postSend_uses (fun _ _ => rfl) res op) p

theorem connectQp_exchanging (hnd : m.ndebug = false) (cfg : Config) (res : Resources)
    (hp : Idle 0 p) :
    Safe exchanging (connectQp m cfg res) p fun x p' => x.1 = 0 → Idle 2 p' := by
  unfold connectQp
  refine Safe.bindSame (idle_exchanging (queryMyGid_uses (fun _ => rfl) res) p) fun x => ?_
  obtain ⟨rc, myGid⟩ := x
  refine safe_ite (fun hrc h => absurd h hrc) fun _ => ?_
  refine safe_bind.mpr (safe_deref fun mr _ => safe_bind.mpr (safe_deref fun qp _ => ?_))
  refine Safe.bind (sync_exchanging hnd (by decide) rfl (length_conDataBytes ..) hp _)
    fun x p₁ hx => ?_
  obtain ⟨rc, tmp⟩ := x
  refine safe_ite (fun _ h => by cases h) fun hrc => ?_
  have hp₁ := hx.2 (le_antisymm hx.1 (not_lt.mp hrc))
  refine safe_step.mpr fun _ _ => ⟨trivial, ?_⟩
  have hmodify : ∀ qp attr mask, Safe exchanging (sys (.ibvModifyQp qp attr mask)) p₁
      fun _ p' => p' = p₁ := fun _ _ _ _ _ => ⟨trivial, rfl⟩
  refine Safe.checkSame (hmodify _ _ _) (fun _ hrc h => absurd h hrc) ?_
  refine Safe.checkSame ?_ (fun _ hrc h => absurd h hrc) ?_
  · exact safe_ite (fun _ => idle_exchanging (postRecv_uses (fun _ _ => rfl) _) p₁) fun _ => rfl
  refine Safe.checkSame (hmodify _ _ _) (fun _ hrc h => absurd h hrc) ?_
  refine Safe.checkSame (hmodify _ _ _) (fun _ hrc h => absurd h hrc) ?_
  refine Safe.bind (letterSync_exchanging hnd (by decide) hp₁ _) fun x p₂ hx => ?_
  obtain ⟨rc, _⟩ := x
  exact safe_ite (fun _ h => by cases h) fun hrc _ => hx (not_not.mp hrc)

theorem clientRdma_exchanging (res : Resources) (p : Place) :
    Safe exchanging (clientRdma m res) p fun _ p' => p' = p := by
  unfold clientRdma
  refine Safe.checkSame (postSend_exchanging res .rdmaRead p) (fun _ _ => rfl) ?_
  refine Safe.checkSame (pollCompletion_exchanging res p) (fun _ _ => rfl) ?_
  refine safe_bind.mpr (safe_deref fun buf _ => ?_)
  refine safe_step.mpr fun _ _ => ⟨trivial, safe_step.mpr fun _ _ => ⟨trivial, ?_⟩⟩
  refine safe_step.mpr fun _ _ => ⟨trivial, ?_⟩
  refine Safe.checkSame (postSend_exchanging res .rdmaWrite p) (fun _ _ => rfl) ?_
  exact Safe.checkSame (pollCompletion_exchanging res p) (fun _ _ => rfl) rfl

theorem rcmainTransfer_exchanging (hnd : m.ndebug = false) (cfg : Config) (res : Resources)
    (hp : Idle 0 p) :
    Safe exchanging (rcmainTransfer m cfg res) p fun x p' => x.1 = 1 ∨ Idle 4 p' := by
  unfold rcmainTransfer
  refine Safe.bind (connectQp_exchanging hnd cfg res hp) fun x p₁ hx => ?_
  obtain ⟨rc, res'⟩ := x
  refine safe_ite (fun _ => .inl rfl) fun hrc => ?_
  have hp₁ := hx (not_not.mp hrc)
  refine Safe.checkSame ?_ (fun _ _ => .inl rfl) ?_
  · exact safe_ite (fun _ => postSend_exchanging res' .send p₁) fun _ => rfl
  refine Safe.checkSame (pollCompletion_exchanging res' p₁) (fun _ _ => .inl rfl) ?_
  refine safe_bind.mpr (safe_deref fun buf _ => ?_)
  refine Safe.bindSame ?_ fun _ => ?_
  · exact safe_ite (fun _ => idle_exchanging (uses_perform rfl) p₁)
      fun _ => idle_exchanging (uses_perform rfl) p₁
  refine Safe.bind (letterSync_exchanging hnd (by decide) hp₁ _) fun x p₂ hx => ?_
  obtain ⟨rc, tempChar⟩ := x
  refine safe_ite (fun _ => .inl rfl) fun hrc => ?_
  have hp₂ := hx (not_not.mp hrc)
  refine Safe.checkSame ?_ (fun _ _ => .inl rfl) ?_
  · exact safe_ite (fun _ => clientRdma_exchanging res' p₂) fun _ => rfl
  refine Safe.bind (letterSync_exchanging hnd (by decide) hp₂ _) fun x p₃ hx => ?_
  obtain ⟨rc, _⟩ := x
  refine safe_ite (fun _ => .inl rfl) fun hrc => ?_
  have hp₃ := hx (not_not.mp hrc)
  refine Safe.bindSame ?_ fun _ => .inr hp₃
  exact safe_ite (fun _ => idle_exchanging (uses_perform rfl) p₃) fun _ => rfl

/-- A side that has ended with anything but 1 has made four exchanges. -/
def Ended (rc : Int) (p : Place) : Prop := rc = 1 ∨ Idle 4 p

theorem rcmainBody_exchanging (hnd : m.ndebug = false) (cfg : Config) :
    Safe exchanging (rcmainBody m cfg) Place.start Ended := by
  unfold rcmainBody
  have hcreate := (resourcesCreate_uses_setup m cfg resourcesInit).weaken
    fun _ => not_isSync_of_setup
  refine Safe.bindSame (idle_exchanging hcreate _) fun x => ?_
  obtain ⟨rc, res⟩ := x
  refine Safe.bind (Q := fun x p => Ended x.1 p) ?_ fun x p hx => ?_
  · exact safe_ite (fun _ => .inl rfl) fun _ => rcmainTransfer_exchanging hnd cfg res ⟨rfl, rfl⟩
  · have hdestroy := (resourcesDestroy_uses_setup x.2).weaken fun _ => not_isSync_of_setup
    refine Safe.bindSame (idle_exchanging hdestroy p) fun rcDestroy => ?_
    show Ended (if rcDestroy ≠ 0 then 1 else x.1) p
    by_cases hrc : rcDestroy ≠ 0
    · exact .inl (if_pos hrc)
    · rw [if_neg hrc]
      exact hx

end

/-! ## The pair -/

/-- A side is at a `read` and has consumed all that its peer has sent. -/
def Side.Waits (X Y : Side) : Prop :=
  ∃ fd len next, X.prog = .call (.read fd len) next ∧ Y.loc.sent.length ≤ X.loc.consumed

/-- Both sides are at their places in the exchanges. -/
structure InStep (g : Pair) (p q : Place) : Prop where
  client : Safe exchanging g.client.prog p Ended
  server : Safe exchanging g.server.prog q Ended
  joint : Joint syncSize p q g.client.loc.sent.length g.client.loc.consumed
    g.server.loc.sent.length g.server.loc.consumed

theorem Local.next_ignored {s : Local} {c : Call} (h : c.isSync = false) (r : Reply c) :
    (s.next c r).sent = s.sent ∧ (s.next c r).consumed = s.consumed := by
  cases c with
  | write fd data => cases h
  | read fd len => cases h
  | malloc n => cases r <;> exact ⟨rfl, rfl⟩
  | ibvRegMr => cases r <;> exact ⟨rfl, rfl⟩
  | ibvCreateQp => cases r <;> exact ⟨rfl, rfl⟩
  | ibvPollCq => cases r <;> exact ⟨rfl, rfl⟩
  | ibvPostRecv qp wr =>
      show (if (r : Int) = 0 then _ else s).sent = _ ∧ (if (r : Int) = 0 then _ else s).consumed = _
      split <;> exact ⟨rfl, rfl⟩
  | ibvPostSend qp wr =>
      show (if (r : Int) = 0 then _ else s).sent = _ ∧ (if (r : Int) = 0 then _ else s).consumed = _
      split <;> exact ⟨rfl, rfl⟩
  | _ => exact ⟨rfl, rfl⟩

/-- A `write` of the next message, of which `rc` bytes are taken. -/
theorem joint_write {p q : Place} {sent data : List UInt8} {rc : Int}
    {consumed sentQ consumedQ : Nat}
    (h : Joint syncSize p q sent.length consumed sentQ consumedQ) (hphase : p.phase = .between)
    (hlen : data.length = syncSize p.completed) (hrc : rc ≤ data.length) :
    Joint syncSize (p.send (rc = data.length)) q (sent ++ data.take rc.toNat).length consumed
      sentQ consumedQ := by
  have htaken : (data.take rc.toNat).length = rc.toNat := by
    rw [List.length_take]
    omega
  have hpos := syncSize_pos p.completed
  have hwhole : rc.toNat = syncSize p.completed ↔ rc = data.length := by omega
  have hsent := h.send syncSize_pos hphase (n := rc.toNat) (by omega)
  simp only [hwhole] at hsent
  rw [List.length_append, htaken]
  exact hsent

/-- A call of a side, at its place in the exchanges. -/
theorem Side.joint_call {X Y : Side} {p q : Place} {c : Call} {r : Reply c}
    {next : Reply c → P Int} (hprog : X.prog = .call c next)
    (hsafe : Safe exchanging X.prog p Ended) (ha : X.Answers Y c r)
    (h : Joint syncSize p q X.loc.sent.length X.loc.consumed Y.loc.sent.length Y.loc.consumed) :
    Joint syncSize (exchanged p c r) q (X.loc.next c r).sent.length (X.loc.next c r).consumed
      Y.loc.sent.length Y.loc.consumed := by
  rw [hprog] at hsafe
  have hturn : inTurn p c := (hsafe r trivial).1
  by_cases hsync : c.isSync = false
  · rw [(exchanged_ignored hsync p r).2, (Local.next_ignored hsync r).1,
      (Local.next_ignored hsync r).2]
    exact h
  · cases c with
    | write fd data =>
        obtain ⟨hphase, hlen⟩ := hturn
        exact joint_write h hphase hlen ha
    | read fd len =>
        obtain ⟨-, got, hphase⟩ := hturn
        cases r with
        | failed => exact h.fail
        | got bs =>
            have hfree := ha.1.length_le
            rw [List.length_drop] at hfree
            refine h.receive syncSize_pos hphase ?_
            have := h.takenP
            omega
    | _ => exact absurd rfl hsync

/-- A step of one side keeps both at their places. -/
theorem Side.Step.joint {X Y X' Y' : Side} {p q : Place} (hstep : X.Step Y X' Y')
    (hX : Safe exchanging X.prog p Ended)
    (hY : Safe exchanging Y.prog q Ended)
    (h : Joint syncSize p q X.loc.sent.length X.loc.consumed Y.loc.sent.length Y.loc.consumed) :
    ∃ p', Safe exchanging X'.prog p' Ended ∧
      Safe exchanging Y'.prog q Ended ∧
      Joint syncSize p' q X'.loc.sent.length X'.loc.consumed Y'.loc.sent.length
        Y'.loc.consumed := by
  cases hstep with
  | @call c next r hprog ha =>
      have hnext := hX
      rw [hprog] at hnext
      exact ⟨exchanged p c r, (hnext r trivial).2, hY, X.joint_call hprog hX ha h⟩
  | send => exact ⟨p, hX, hY, h⟩
  | read => exact ⟨p, hX, hY, h⟩
  | write => exact ⟨p, hX, hY, h⟩

theorem Side.Starts.exchanging {X : Side} {client : Bool} (h : X.Starts client) :
    Safe Rdma.exchanging X.prog Place.start Ended ∧ X.loc = {} := by
  obtain ⟨m, cfg, hnd, -, hX⟩ := h
  rw [hX]
  exact ⟨rcmainBody_exchanging hnd cfg, rfl⟩

theorem inStep_of_reachable {g : Pair} (h : connected.Reachable g) : ∃ p q, InStep g p q := by
  refine TransitionSystem.Reachable.invariant (I := fun g => ∃ p q, InStep g p q) ?_ ?_ h
  · intro g hg
    obtain ⟨hclient, hcloc⟩ := hg.1.exchanging
    obtain ⟨hserver, hsloc⟩ := hg.2.exchanging
    refine ⟨.start, .start, hclient, hserver, ?_⟩
    rw [hcloc, hsloc]
    exact .start
  · rintro g g' ⟨p, q, hI⟩ (hstep | hstep)
    · obtain ⟨p', hclient, hserver, hjoint⟩ := hstep.joint hI.client hI.server hI.joint
      exact ⟨p', q, hclient, hserver, hjoint⟩
    · obtain ⟨q', hserver, hclient, hjoint⟩ := hstep.joint hI.server hI.client hI.joint.symm
      exact ⟨p, q', hclient, hserver, hjoint.symm⟩

/-- A waiting side is in an exchange. -/
theorem Side.Waits.reading {X Y : Side} {p : Place} (h : X.Waits Y)
    (hX : Safe exchanging X.prog p Ended) : p.completed < 4 ∧ ∃ got, p.phase = .reading got := by
  obtain ⟨fd, len, next, hprog, -⟩ := h
  rw [hprog] at hX
  exact (hX .failed trivial).1

/-- Two sides compiled with assertions never wait for each other, however the streams are
cut into pieces and whatever fails. -/
theorem rcmain_never_deadlocks {g : Pair} (h : connected.Reachable g) :
    ¬ (g.client.Waits g.server ∧ g.server.Waits g.client) := by
  rintro ⟨hclient, hserver⟩
  obtain ⟨p, q, hI⟩ := inStep_of_reachable h
  obtain ⟨-, gotP, hp⟩ := hclient.reading hI.client
  obtain ⟨-, gotQ, hq⟩ := hserver.reading hI.server
  obtain ⟨-, -, -, -, hemptyC⟩ := hclient
  obtain ⟨-, -, -, -, hemptyS⟩ := hserver
  rcases hI.joint.not_both_waiting syncSize_pos syncSize_mono hp hq with hfree | hfree
  · exact absurd hfree (not_lt.mpr hemptyC)
  · exact absurd hfree (not_lt.mpr hemptyS)

/-- With assertions, a side that waits for a peer that has ended with 0 has consumed all
that there ever was, 43 bytes, and is still in an exchange: it has taken a letter too
early. -/
theorem rcmain_left_waiting {X Y : Side} {g : Pair} (h : connected.Reachable g)
    (hXY : (X, Y) = (g.client, g.server) ∨ (X, Y) = (g.server, g.client))
    (hwaits : X.Waits Y) (hend : Y.prog = ret 0) :
    X.loc.consumed = 43 ∧ X.loc.sent.length = 43 := by
  obtain ⟨p, q, hI⟩ := inStep_of_reachable h
  have hside : ∀ {p q : Place} (hX : Safe exchanging X.prog p Ended)
      (hY : Safe exchanging Y.prog q Ended),
      Joint syncSize p q X.loc.sent.length X.loc.consumed Y.loc.sent.length Y.loc.consumed →
      X.loc.consumed = 43 ∧ X.loc.sent.length = 43 := by
    intro p q hX hY hjoint
    obtain ⟨hk, got, hphase⟩ := hwaits.reading hX
    obtain ⟨-, -, -, -, hempty⟩ := hwaits
    rw [hend] at hY
    obtain ⟨hfour, hidle⟩ : Idle 4 q := Or.resolve_left hY (by decide)
    obtain ⟨k, e, phase⟩ := p
    obtain rfl : phase = .reading got := hphase
    obtain ⟨j, f, phase⟩ := q
    obtain rfl : j = 4 := hfour
    obtain rfl : phase = .between := hidle
    obtain ⟨⟨hgot, hsent, hconsumed⟩, ⟨hsentY, hconsumedY⟩, htakenX, htakenY, -, -, -⟩ := hjoint
    dsimp only at hk hgot hsent hconsumed hsentY hconsumedY
    have hall : upTo syncSize 4 = 43 := rfl
    have hmost : upTo syncSize (k + 1) ≤ upTo syncSize 4 := upTo_mono hk
    omega
  rcases hXY with hXY | hXY
  · cases hXY
    exact hside hI.client hI.server hI.joint
  · cases hXY
    exact hside hI.server hI.client hI.joint.symm

/-! ## A client left waiting

The server runs until it waits for the client's first letter; then the client takes
the last byte of the connection data together with the server's first letter. -/

def serverTick (g : Pair) : Option Pair :=
  (g.server.turn g.client).map fun p => ⟨p.2, p.1⟩

theorem step_of_serverTick (g g' : Pair) (h : serverTick g = some g') : connected.step g g' := by
  obtain ⟨p, hp, rfl⟩ := Option.map_eq_some_iff.mp h
  exact .inr (Side.step_of_turn hp)

/-- The client takes at most `n` bytes at its `read`. -/
def cutTick (n : Nat) (g : Pair) : Option Pair :=
  match g.client.prog with
  | .call (.read fd len) next =>
    let bs := (g.server.loc.sent.drop g.client.loc.consumed).take (min n len)
    some { g with client := g.client.act (.read fd len) (.got bs) (next (.got bs)) }
  | _ => none

theorem step_of_cutTick (n : Nat) (g g' : Pair) (h : cutTick n g = some g') :
    connected.step g g' := by
  unfold cutTick at h
  split at h
  · rename_i hprog
    cases h
    refine .inl (.call hprog ⟨List.take_prefix _ _, ?_⟩)
    exact (List.length_take_le _ _).trans (Nat.min_le_right _ _)
  · cases h

def startedPair : Pair := TransitionSystem.walk tick 20 startPair
def serverAhead : Pair := TransitionSystem.walk serverTick 30 startedPair
def clientCut : Pair := TransitionSystem.walk (cutTick 39) 1 serverAhead
def leftPair : Pair := TransitionSystem.walk tick 95 clientCut

theorem startPair_reachable : connected.Reachable startPair :=
  .init ⟨⟨littleMachine, clientConfig, rfl, rfl, rfl⟩, ⟨littleMachine, config, rfl, rfl, rfl⟩⟩

theorem serverAhead_reachable : connected.Reachable serverAhead :=
  .walk step_of_serverTick (.walk step_of_tick startPair_reachable 20) 30

theorem leftPair_reachable : connected.Reachable leftPair :=
  .walk step_of_tick (.walk (step_of_cutTick 39) serverAhead_reachable 1) 95

def Side.readsNow (X : Side) : Bool :=
  match X.prog with
  | .call (.read ..) _ => true
  | _ => false

theorem Side.waits_of_readsNow {X Y : Side} (h : X.readsNow = true)
    (hempty : Y.loc.sent.length ≤ X.loc.consumed) : X.Waits Y := by
  unfold Side.readsNow at h
  split at h
  · rename_i hprog
    exact ⟨_, _, _, hprog, hempty⟩
  · cases h

theorem rcmain_never_deadlocks_serverAhead :
    ¬ (serverAhead.client.Waits serverAhead.server ∧
      serverAhead.server.Waits serverAhead.client) :=
  rcmain_never_deadlocks serverAhead_reachable

theorem rcmain_left_waiting_client :
    leftPair.client.loc.consumed = 43 ∧ leftPair.client.loc.sent.length = 43 :=
  rcmain_left_waiting leftPair_reachable (.inl rfl)
    (Side.waits_of_readsNow (by decide +kernel) (by decide +kernel))
    (eq_ret_of_result (by decide +kernel))

end Rdma
end CommSpeed
