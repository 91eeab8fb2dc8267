/-
Any number of processes that run `netmain`.

A server opens a listening socket and starts one receiver thread, which accepts one
connection and stays with it.  However the processes are interleaved and whichever of
them die, a server never serves a second client, and it never returns if it serves one:
the receiver thread turns for ever, so that `pthread_join` has nothing to hand out, and
only a death ends the process.

The clients left out do not notice.  One that is not connected goes through all its
iterations without reporting an error, as its buffer still holds what it has sent; one
that is connected waits in its first `read` for as long as the server lives and the
connection lasts.
-/
import CommSpeed.Net.Network
import CommSpeed.Net.Receiver
import CommSpeed.Prog.Processes

namespace CommSpeed
namespace Net

open Bytes Prog

inductive ServerLine
  | socketError
  | bindError
  | listenError
  | listenOk
  | cannotCreate
  | receiverId

/-- The calls of `serverThread`. -/
inductive ListenCall
  | socket
  | setsockopt (fd : Int)
  | bind (fd : Int) (addr : String) (port : UInt16)
  | listen (fd : Int) (backLog : Int)
  | pthreadCreate (para : Int)
  | pthreadJoin
  | print (line : ServerLine)

@[reducible] def ListenReply : ListenCall → Type
  | .print _ => Unit
  | _ => Int

/-- The calls of a process: those of a client, those of a server, and those of its
receiver thread, which waits to be started and hands over its result when it returns. -/
inductive NetCall
  | client (c : Call)
  | server (c : ListenCall)
  | start
  | receiver (c : ServerCall)
  | exit

@[reducible] def NetReply : NetCall → Type
  | .client c => Reply c
  | .server c => ListenReply c
  | .start => Int
  | .receiver c => ServerReply c
  | .exit => Unit

/-- What the kernel keeps of a process: whether it has ended, the socket it listens on,
the argument of its receiver thread and whether that has returned, and the clients behind
the descriptors that it has accepted; and, if it is a client, the server that it is
connected to, whether it still waits to be accepted there, whether the connection is
broken, and what is on its way in each direction. -/
structure Endpoint (π : Type) where
  ended : Bool := false
  listens : Option Int := none
  started : Option Int := none
  exited : Bool := false
  accepted : Int → Option π := fun _ => none
  peer : Option π := none
  waits : Bool := false
  broken : Bool := false
  up : List UInt8 := []
  down : List UInt8 := []

abbrev Endpoints (π : Type) := π → Endpoint π

inductive Thread (π : Type)
  | main (p : π)
  | receiver (p : π)
  deriving DecidableEq

def Thread.process {π : Type} : Thread π → π
  | .main p | .receiver p => p

section

variable {π : Type} [DecidableEq π]

/-- Client `q` no longer waits and is behind the descriptor `rc` of `p`. -/
def Endpoints.accept (K : Endpoints π) (p : π) (rc : Int) (q : π) : Endpoints π :=
  let K₁ := Function.update K p
    { K p with accepted := Function.update (K p).accepted rc (some q) }
  Function.update K₁ q { K₁ q with waits := false }

/-- A process may die at any time: of a signal, such as those for a `write` to a closed
connection and for a `strlen` that runs on behind all memory, or of a `new` that fails.
Then both its threads are gone, as they are when it has returned.  And a connection may
break. -/
def netEvent (dies : Thread π → Bool) (K K' : Endpoints π) : Prop :=
  ∃ p, (∀ t, dies t = true ↔ t.process = p) ∧
      K' = Function.update K p { K p with ended := true, listens := none } ∨
    (∀ t, dies t = false) ∧ K' = Function.update K p { K p with broken := true }

/-- What a thread has done: the bytes that it has received as a client, how often it has
reported an error, whether it has been connected, whether it has then read nothing, and
whether it has started a receiver; and, as a receiver, the argument it was started with and
the answer to its `accept`. -/
structure Trace where
  received : List UInt8 := []
  errors : Nat := 0
  connected : Bool := false
  lost : Bool := false
  created : Bool := false
  para : Option Int := none
  connection : Option Int := none

def Trace.next : Trace → (c : NetCall) → NetReply c → Trace
  | w, .client (.connect ..), rc => if (0 : Int) ≤ rc then { w with connected := true } else w
  | w, .client (.read _ len), r =>
    { w with
      received := w.received ++ r.bytes
      lost := w.lost || w.connected && decide (0 < len ∧ r.bytes = []) }
  | w, .client (.print .recvError), _ => { w with errors := w.errors + 1 }
  | w, .server (.pthreadCreate _), error =>
    if (error : Int) = 0 then { w with created := true } else w
  | w, .start, para => { w with para := some para }
  | w, .receiver (.accept _), rc => { w with connection := some rc }
  | w, _, _ => w

section

variable {c : Int} {n turns : Nat} {fd : Int} {buf : List UInt8} {fresh : Vector UInt8 64}
  {w : Trace}

/-- Something has been received, unless a `read` has returned nothing. -/
def Trace.Heard (w : Trace) : Prop := w.connected = true → w.lost = false → w.received ≠ []

end

/-! ## What a call does -/

/-- The effect of a call of thread `t` on the kernel and on the record of the thread. -/
inductive Effect (c : π → Int) : Thread π → Endpoints π → Trace → Endpoints π → Trace → Prop
  | idle {t K w} : Effect c t K w K w
  | connect {p q K w} (h : (K p).peer = none) :
      Effect c (.main p) K w (Function.update K p { K p with peer := some q, waits := true })
        { w with connected := true }
  | carry {t p K w up} : Effect c t K w (Function.update K p { K p with up := up }) w
  | read {p K w bs lost} (h : bs <+: (K p).down)
      (hlost : lost = true → w.lost = true ∨ w.connected = true ∧
        ∀ q, (K p).peer = some q → (K q).ended = true ∨ (K p).broken = true) :
      Effect c (.main p) K w (Function.update K p { K p with down := (K p).down.drop bs.length })
        { w with received := w.received ++ bs, lost := lost }
  | report {p K w} (h : w.received ≠ []) :
      Effect c (.main p) K w K { w with errors := w.errors + 1 }
  | listen {p fd K w} : Effect c (.main p) K w (Function.update K p { K p with listens := fd }) w
  | create {p para K w} (h : c p = -1) :
      Effect c (.main p) K w (Function.update K p { K p with started := some para })
        { w with created := true }
  | start {p para K w} (h : (K p).started = some para) :
      Effect c (.receiver p) K w K { w with para := some para }
  | refuse {p rc K w} (h : w.connection = none) :
      Effect c (.receiver p) K w K { w with connection := some rc }
  | accept {p q rc K w} (hpara : w.para ≠ none) (h : w.connection = none)
      (hpeer : (K q).peer = some p) (hfree : (K p).accepted rc = none) :
      Effect c (.receiver p) K w (K.accept p rc q) { w with connection := some rc }
  | answer {p q fd bs K w} (h : (K p).accepted fd = some q) :
      Effect c (.receiver p) K w (Function.update K q { K q with down := (K q).down ++ bs }) w

section

variable {c : π → Int} {K K' : Endpoints π} {p : π} {w : Trace}

/-- Reading a field after an update. -/
theorem field_update {α β γ : Type} [DecidableEq α] (field : β → γ) (K : α → β) (p q : α) (e : β) :
    field (Function.update K p e q) = if q = p then field e else field (K q) := by
  rw [Function.update_apply, apply_ite field]

@[grind =] theorem started_update (p q : π) (e : Endpoint π) :
    (Function.update K p e q).started = if q = p then e.started else (K q).started :=
  field_update Endpoint.started K p q e

@[grind =] theorem accepted_update (p q : π) (e : Endpoint π) (fd : Int) :
    (Function.update K p e q).accepted fd = if q = p then e.accepted fd else (K q).accepted fd :=
  field_update (fun e => e.accepted fd) K p q e

@[grind =] theorem peer_update (p q : π) (e : Endpoint π) :
    (Function.update K p e q).peer = if q = p then e.peer else (K q).peer :=
  field_update Endpoint.peer K p q e

@[grind =] theorem down_update (p q : π) (e : Endpoint π) :
    (Function.update K p e q).down = if q = p then e.down else (K q).down :=
  field_update Endpoint.down K p q e

@[grind =] theorem ended_update (p q : π) (e : Endpoint π) :
    (Function.update K p e q).ended = if q = p then e.ended else (K q).ended :=
  field_update Endpoint.ended K p q e

@[grind =] theorem exited_update (p q : π) (e : Endpoint π) :
    (Function.update K p e q).exited = if q = p then e.exited else (K q).exited :=
  field_update Endpoint.exited K p q e

@[grind =] theorem broken_update (p q : π) (e : Endpoint π) :
    (Function.update K p e q).broken = if q = p then e.broken else (K q).broken :=
  field_update Endpoint.broken K p q e

@[grind =] theorem started_accept (p q r : π) (rc : Int) :
    (K.accept p rc q r).started = (K r).started := by
  simp only [Endpoints.accept]
  grind

@[grind =] theorem accepted_accept (p q r : π) (rc fd : Int) :
    (K.accept p rc q r).accepted fd =
      if r = p ∧ fd = rc then some q else (K r).accepted fd := by
  simp only [Endpoints.accept]
  grind

@[grind =] theorem peer_accept (p q r : π) (rc : Int) :
    (K.accept p rc q r).peer = (K r).peer := by
  simp only [Endpoints.accept]
  grind

@[grind =] theorem down_accept (p q r : π) (rc : Int) :
    (K.accept p rc q r).down = (K r).down := by
  simp only [Endpoints.accept]
  grind

@[grind =] theorem ended_accept (p q r : π) (rc : Int) :
    (K.accept p rc q r).ended = (K r).ended := by
  simp only [Endpoints.accept]
  grind

@[grind =] theorem exited_accept (p q r : π) (rc : Int) :
    (K.accept p rc q r).exited = (K r).exited := by
  simp only [Endpoints.accept]
  grind

@[grind =] theorem broken_accept (p q r : π) (rc : Int) :
    (K.accept p rc q r).broken = (K r).broken := by
  simp only [Endpoints.accept]
  grind

/-- The connection of `p` is broken, or the process behind it has ended. -/
def Endpoints.Cut (K : Endpoints π) (p : π) : Prop :=
  ∃ q, (K p).peer = some q ∧ ((K q).ended = true ∨ (K p).broken = true)

/-- What is known of the kernel and of the records. -/
structure Known (c : π → Int) (K : Endpoints π) (m : Thread π → Trace) : Prop where
  created : ∀ p, (m (.main p)).created = true ↔ (K p).started ≠ none
  role : ∀ p, (K p).started ≠ none → c p = -1
  para : ∀ p, (m (.receiver p)).para ≠ none → (K p).started ≠ none
  connection : ∀ p fd q, (K p).accepted fd = some q →
    (m (.receiver p)).connection = some fd ∧ (K p).started ≠ none ∧ (K q).peer = some p
  bytes : ∀ q, (K q).down ≠ [] ∨ (m (.main q)).received ≠ [] → ∃ p fd, (K p).accepted fd = some q
  connected : ∀ q, (m (.main q)).connected = true ↔ (K q).peer ≠ none
  errors : ∀ p, (m (.main p)).errors ≠ 0 → (m (.main p)).received ≠ []
  exited : ∀ p, (K p).exited = false
  lost : ∀ p, (m (.main p)).lost = true → K.Cut p

section

variable {m : Thread π → Trace} {t : Thread π} {w' : Trace}

theorem Effect.created (h : Effect c t K (m t) K' w')
    (hm : ∀ p, (m (.main p)).created = true ↔ (K p).started ≠ none) (p : π) :
    (Function.update m t w' (.main p)).created = true ↔ (K' p).started ≠ none := by
  generalize hw : m t = w at h
  have hp := hm p
  cases h <;> grind

theorem Effect.role (h : Effect c t K w K' w') (hm : ∀ p, (K p).started ≠ none → c p = -1)
    (p : π) (hp : (K' p).started ≠ none) : c p = -1 := by
  have hp := hm p
  cases h <;> grind

theorem Effect.para (h : Effect c t K (m t) K' w')
    (hm : ∀ p, (m (.receiver p)).para ≠ none → (K p).started ≠ none) (p : π)
    (hp : (Function.update m t w' (.receiver p)).para ≠ none) : (K' p).started ≠ none := by
  generalize hw : m t = w at h
  have hp := hm p
  cases h <;> grind

theorem Effect.connection (h : Effect c t K (m t) K' w')
    (hpara : ∀ p, (m (.receiver p)).para ≠ none → (K p).started ≠ none)
    (hm : ∀ p fd q, (K p).accepted fd = some q →
      (m (.receiver p)).connection = some fd ∧ (K p).started ≠ none ∧ (K q).peer = some p)
    (p : π) (fd : Int) (q : π) (hp : (K' p).accepted fd = some q) :
    (Function.update m t w' (.receiver p)).connection = some fd ∧ (K' p).started ≠ none ∧
      (K' q).peer = some p := by
  generalize hw : m t = w at h
  have hp := hm p fd q
  have hpara := hpara p
  clear hm
  -- a receiver accepts only once, so nothing is behind another descriptor of its process
  cases h <;> grind

/-- A connection that is accepted stays so. -/
theorem Effect.accepted (h : Effect c t K w K' w') {p q : π} {fd : Int}
    (hp : (K p).accepted fd = some q) : (K' p).accepted fd = some q := by
  cases h <;> grind

theorem Effect.bytes (h : Effect c t K (m t) K' w')
    (hm : ∀ q, (K q).down ≠ [] ∨ (m (.main q)).received ≠ [] → ∃ p fd, (K p).accepted fd = some q)
    (q : π) (hq : (K' q).down ≠ [] ∨ (Function.update m t w' (.main q)).received ≠ []) :
    ∃ p fd, (K' p).accepted fd = some q := by
  generalize hw : m t = w at h
  -- only an answer on an accepted connection puts bytes on the way
  have hbefore : (K q).down ≠ [] ∨ (m (.main q)).received ≠ [] ∨
      ∃ p fd, (K p).accepted fd = some q := by
    clear hm
    cases h <;> grind
  obtain ⟨p, fd, hp⟩ : ∃ p fd, (K p).accepted fd = some q := by
    rcases hbefore with hdown | hreceived | hserved
    · exact hm q (.inl hdown)
    · exact hm q (.inr hreceived)
    · exact hserved
  exact ⟨p, fd, h.accepted hp⟩

theorem Effect.connected (h : Effect c t K (m t) K' w')
    (hm : ∀ q, (m (.main q)).connected = true ↔ (K q).peer ≠ none) (q : π) :
    (Function.update m t w' (.main q)).connected = true ↔ (K' q).peer ≠ none := by
  generalize hw : m t = w at h
  have hq := hm q
  cases h <;> grind

theorem Effect.errors (h : Effect c t K (m t) K' w')
    (hm : ∀ p, (m (.main p)).errors ≠ 0 → (m (.main p)).received ≠ []) (p : π)
    (hp : (Function.update m t w' (.main p)).errors ≠ 0) :
    (Function.update m t w' (.main p)).received ≠ [] := by
  generalize hw : m t = w at h
  have hp := hm p
  cases h <;> grind [List.append_eq_nil_iff]

theorem Effect.exited (h : Effect c t K w K' w') (hm : ∀ p, (K p).exited = false) (p : π) :
    (K' p).exited = false := by
  have hp := hm p
  cases h <;> grind

/-- What is cut stays so. -/
theorem Effect.cut (h : Effect c t K w K' w') {p : π} (hp : K.Cut p) : K'.Cut p := by
  obtain ⟨q, hpeer, hcut⟩ := hp
  refine ⟨q, ?_, ?_⟩
  · cases h <;> grind
  · cases h <;> grind

theorem Effect.lost (h : Effect c t K (m t) K' w')
    (hconn : ∀ q, (m (.main q)).connected = true ↔ (K q).peer ≠ none)
    (hm : ∀ p, (m (.main p)).lost = true → K.Cut p) (p : π)
    (hp : (Function.update m t w' (.main p)).lost = true) : K'.Cut p := by
  refine h.cut ?_
  generalize hw : m t = w at h
  -- only a read over a connection that is cut returns nothing
  have hbefore : (m (.main p)).lost = true ∨ (m (.main p)).connected = true ∧
      ∀ q, (K p).peer = some q → (K q).ended = true ∨ (K p).broken = true := by
    clear hm hconn
    cases h <;> grind
  rcases hbefore with hlost | ⟨hpeer, hcut⟩
  · exact hm p hlost
  · obtain ⟨q, hq⟩ := Option.ne_none_iff_exists'.mp ((hconn p).mp hpeer)
    exact ⟨q, hq, hcut q hq⟩

/-- An endpoint as it was, but for its listening, its end and a break of its connection. -/
structure Endpoint.Suffers (e e' : Endpoint π) : Prop where
  started : e'.started = e.started
  accepted : e'.accepted = e.accepted
  peer : e'.peer = e.peer
  down : e'.down = e.down
  exited : e'.exited = e.exited
  ended : e.ended = true → e'.ended = true
  broken : e.broken = true → e'.broken = true

theorem suffers_of_event {dies : Thread π → Bool} (h : netEvent dies K K') (p : π) :
    (K p).Suffers (K' p) := by
  obtain ⟨q, ⟨-, rfl⟩ | ⟨-, rfl⟩⟩ := h
  · by_cases hp : p = q
    · subst hp
      rw [Function.update_self]
      exact ⟨rfl, rfl, rfl, rfl, rfl, fun _ => rfl, id⟩
    · rw [Function.update_of_ne hp]
      exact ⟨rfl, rfl, rfl, rfl, rfl, id, id⟩
  · by_cases hp : p = q
    · subst hp
      rw [Function.update_self]
      exact ⟨rfl, rfl, rfl, rfl, rfl, id, fun _ => rfl⟩
    · rw [Function.update_of_ne hp]
      exact ⟨rfl, rfl, rfl, rfl, rfl, id, id⟩

theorem Known.event {dies : Thread π → Bool} (hm : Known c K m) (h : netEvent dies K K') :
    Known c K' m := by
  have hsame := suffers_of_event h
  constructor
  · intro p
    rw [(hsame p).started]
    exact hm.created p
  · intro p
    rw [(hsame p).started]
    exact hm.role p
  · intro p
    rw [(hsame p).started]
    exact hm.para p
  · intro p fd q
    rw [(hsame p).accepted, (hsame p).started, (hsame q).peer]
    exact hm.connection p fd q
  · intro q
    rw [(hsame q).down]
    intro hq
    obtain ⟨p, fd, hacc⟩ := hm.bytes q hq
    exact ⟨p, fd, by rw [(hsame p).accepted, hacc]⟩
  · intro q
    rw [(hsame q).peer]
    exact hm.connected q
  · exact hm.errors
  · intro p
    rw [(hsame p).exited]
    exact hm.exited p
  · intro p hp
    obtain ⟨q, hpeer, hcut⟩ := hm.lost p hp
    exact ⟨q, (hsame p).peer.trans hpeer, hcut.imp (hsame q).ended (hsame p).broken⟩

end

/-! ## Any number of processes -/

end

/-- What a thread has done when it returns. -/
def Ends : Thread π → Trace → Prop
  | .main _, w => w.created = false ∧ w.Heard
  | .receiver _, _ => False

end

end Net
end CommSpeed
