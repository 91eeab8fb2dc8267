/-
`clientThread` and `receiveHandler` on one connection.

The two are joined by a stream in each direction; a `read` is given any beginning
of what its peer has written and it has not consumed, and a `write` is taken
whole until the client closes its socket.  From then on the server reads the end of the
file, over and over.  What it sends back depends on the memory that its `new` hands out;
it dies if `strlen` does not come to an end there.

A request always is a string of eleven bytes, as the server never sends a
zero.  The server sends at least as many bytes as it consumes and the client has consumed a
request less than it has sent when it waits, so they never wait for each other.

Whether an echo is whole is up to the stream.  In a run over zeroed memory the
first error is reported by the iteration after the first short `read`, which sees the rest
of the echo before.
-/
import CommSpeed.Net.Network
import CommSpeed.Net.Receiver
import CommSpeed.Prog.Parties

namespace CommSpeed
namespace Net

open Bytes Prog

/-! ## The first error -/

section

variable {it : Iteration} {its : List Iteration} {buf bs : List UInt8}

/-- The bytes that the iterations have sent. -/
def requests (its : List Iteration) : List UInt8 := (its.map Iteration.request).flatten

theorem stream_cons (it : Iteration) (its : List Iteration) :
    stream (it :: its) = it.received ++ stream its := rfl

theorem requests_cons (it : Iteration) (its : List Iteration) :
    requests (it :: its) = it.request ++ requests its := rfl

theorem hello_once : ∀ c < 11, 0 < c → helloWorld[c]? ≠ helloWorld[0]? := by decide

/-- Behind a part of the echo comes a byte that "hello world" does not begin with. -/
theorem rest_not_prefix {b : UInt8} {rest : List UInt8} (hne : it.received ≠ [])
    (hlen : it.received.length < 11)
    (hecho : it.received ++ (b :: bs ++ rest) <+: helloWorld ++ requests its) :
    ¬ b :: bs <+: helloWorld := by
  rintro ⟨tail, hfirst⟩
  obtain ⟨unread, hnext⟩ := hecho
  apply hello_once it.received.length hlen (List.length_pos_iff.mpr hne)
  have hbehind : (helloWorld ++ requests its)[it.received.length]? = some b := by
    rw [← hnext]
    simp
  rw [List.getElem?_append_left hlen] at hbehind
  rw [hbehind, ← hfirst]
  rfl

/-- A run over a stream that brings back what was sent: no error is reported up to
iteration `k` if and only if every `read` before it returns eleven bytes. -/
theorem Plays.first_error (hbuf : Greets buf) (h : Plays buf its)
    (hsome : ∀ it ∈ its, it.received ≠ []) (hecho : stream its <+: requests its) {k : Nat}
    (hk : k < its.length) : (∀ it ∈ its.take (k + 1), it.reported = false) ↔
      ∀ it ∈ its.take k, it.received.length = 11 := by
  induction its generalizing buf k with
  | nil => cases hk
  | cons it its ih =>
      obtain ⟨hrequest, hlen, hreported, hrest⟩ := h
      rw [hbuf.cString] at hrequest hlen
      rw [ne_eq, hbuf.check_iff hlen] at hreported
      rw [stream_cons, requests_cons, hrequest] at hecho
      have hbegins : it.received <+: helloWorld :=
        List.prefix_of_prefix_length_le ((List.prefix_append _ _).trans hecho)
          (List.prefix_append _ _) hlen
      rw [hbuf.overlay hbegins] at hrest
      have hquiet : it.reported = false := by simpa [hbegins] using hreported
      cases k with
      | zero => simp [hquiet]
      | succ k =>
          rw [List.take_succ_cons, List.take_succ_cons, List.forall_mem_cons,
            List.forall_mem_cons, and_iff_right hquiet]
          by_cases hfull : it.received.length = 11
          · have hwhole := (prefix_helloWorld_iff hfull).mp hbegins
            rw [hwhole, List.prefix_append_right_inj] at hecho
            rw [and_iff_right hfull]
            exact ih hbuf hrest (fun it' h => hsome it' (List.mem_cons_of_mem it h)) hecho
              (by simpa using hk)
          · -- the next iteration reads the rest of this echo first
            refine iff_of_false (fun hall => ?_) fun hall => hfull hall.1
            cases its with
            | nil => simp at hk
            | cons next its =>
                obtain ⟨-, hlenNext, hreportedNext, -⟩ := hrest
                rw [hbuf.cString] at hlenNext
                rw [ne_eq, hbuf.check_iff hlenNext, hall next (by simp)] at hreportedNext
                have hnext : next.received <+: helloWorld := by simpa using hreportedNext
                cases hbs : next.received with
                | nil => exact hsome next (by simp) hbs
                | cons b bs =>
                    rw [stream_cons, hbs] at hecho
                    rw [hbs] at hnext
                    exact rest_not_prefix (hsome it (by simp)) (Nat.lt_of_le_of_ne hlen hfull)
                      hecho hnext

end

/-! ## The connection -/

/-- What `new char[128]` may hand out: the memory from the buffer on. -/
structure Heap where
  hands : List UInt8 → Prop
  nonempty : ∃ m, hands m

/-- Behind every buffer there is a zero, so `strlen` ends whatever has been read. -/
def Heap.Terminated (H : Heap) : Prop := ∀ m, H.hands m → 0 ∈ m.drop 128

/-- The memory that a fresh buffer and `strlen` can see is zero. -/
def Heap.Zeroed (H : Heap) : Prop := ∀ m, H.hands m → ∀ i ≤ 128, m[i]? = some 0

structure Setting where
  heap : Heap
  /-- A `read` returns nothing only at the end of the file. -/
  blocking : Prop

/-- A `read` of `len` bytes from a stream `sent` of which `taken` has been consumed. -/
def Setting.Delivers (E : Setting) (sent taken : List UInt8) (ended : Prop) (len : Nat)
    (r : ReadReply) : Prop :=
  r.bytes <+: sent.drop taken.length ∧ r.bytes.length ≤ len ∧
    (E.blocking → 0 < len → r.bytes = [] → ended)

structure ClientRecord where
  sent : List UInt8 := []
  taken : List UInt8 := []
  calls : Nat := 0
  iterations : List Iteration := []
  closed : Bool := false

/-- `sent` is what has been given to `write`, which after the client's `close` need not
have been taken. -/
structure ServerRecord where
  sent : List UInt8 := []
  taken : List UInt8 := []
  calls : Nat := 0
  reads : Nat := 0

def clientSide (E : Setting) : Side Call Reply ClientRecord ServerRecord where
  answers
    | _, _, .write _ data, rc => (rc : Int) = data.length
    | s, t, .read _ len, r => E.Delivers t.sent s.taken False len r
    | _, _, _, _ => True
  next s c r :=
    let s' := { s with calls := s.calls + 1, iterations := Net.iterations.next s.iterations c r }
    match c, r with
    | .write _ data, _ => { s' with sent := s.sent ++ data }
    | .read .., r => { s' with taken := s.taken ++ r.bytes }
    | .close _, _ => { s' with closed := true }
    | _, _ => s'

def serverSide (E : Setting) : Side ServerCall ServerReply ServerRecord ClientRecord where
  answers
    | _, s, .write _ data, rc => s.closed = false → (rc : Int) = data.length
    | t, s, .read _ len, r =>
      E.Delivers s.sent t.taken (s.closed = true ∧ s.sent.length ≤ t.taken.length) len r
    | _, _, .newChar _, m => E.heap.hands m
    | _, _, .accept _, _ => True
  next t c r :=
    let t' := { t with calls := t.calls + 1 }
    match c, r with
    | .write _ data, _ => { t' with sent := t.sent ++ data }
    | .read .., r => { t' with taken := t.taken ++ r.bytes, reads := t.reads + 1 }
    | _, _ => t'

abbrev Pair := Party Call Reply Int ClientRecord × Party ServerCall ServerReply Unit ServerRecord

/-- `clientThread` with `n` iterations and `turns` turns of `receiveHandler`. -/
def echoing (E : Setting) (n turns : Nat) :
    Meeting Call ServerCall Reply ServerReply Int Unit ClientRecord ServerRecord where
  left := clientSide E
  right := serverSide E
  init g := (∃ fresh, g.1 = ⟨clientThread n fresh, {}⟩) ∧
    ∃ fd, g.2 = ⟨receiveHandler fd turns, {}⟩

/-! ## The client's part -/

section

variable {E : Setting} {n k : Nat} {fd : Int} {buf : List UInt8} {s : ClientRecord}

def clientLegal (E : Setting) : ClientRecord → (c : Call) → Reply c → Prop
  | _, .read _ len, r =>
    r.bytes.length ≤ len ∧ 0 ∉ r.bytes ∧ (E.blocking → 0 < len → r.bytes ≠ [])
  | _, _, _ => True

/-- A request is on its way whenever the client reads, and the socket is open. -/
def clientOk (n : Nat) (s : ClientRecord) (c : Call) (_ : Reply c) : Prop :=
  s.calls < 5 * n + 10 ∧
    match c with
    | .write _ data => 0 ∉ data ∧ s.sent.length + data.length ≤ 11 * n
    | .read _ len => len = 11 ∧ s.taken.length + 11 ≤ s.sent.length ∧ s.closed = false
    | _ => True

/-- The string in the buffer has eleven bytes. -/
def Eleven (buf : List UInt8) : Prop :=
  ∃ w rest, w.length = 11 ∧ 0 ∉ w ∧ buf = w ++ 0 :: rest

theorem Eleven.cString (h : Eleven buf) :
    (Bytes.cString buf).length = 11 ∧ 0 ∉ Bytes.cString buf := by
  obtain ⟨w, rest, hlen, hw, rfl⟩ := h
  rw [cString_terminated hw]
  exact ⟨hlen, hw⟩

/-- Bytes without a zero do not change the length of the string. -/
theorem Eleven.overlay {bs : List UInt8} (h : Eleven buf) (hlen : bs.length ≤ 11) (hbs : 0 ∉ bs) :
    Eleven (Bytes.overlay bs buf) := by
  obtain ⟨w, rest, hw, hzero, rfl⟩ := h
  refine ⟨Bytes.overlay bs w, rest, ?_, ?_, ?_⟩
  · rw [Bytes.overlay, List.length_append, List.length_drop]
    omega
  · rw [Bytes.overlay, List.mem_append, not_or]
    exact ⟨hbs, fun h => hzero (List.mem_of_mem_drop h)⟩
  · rw [Bytes.overlay, Bytes.overlay, List.drop_append_of_le_length (by omega), List.append_assoc]

/-- What `k` whole iterations leave in the record. -/
structure Made (E : Setting) (k : Nat) (s : ClientRecord) : Prop where
  sent : s.sent.length = 11 * k
  requests : s.sent = requests s.iterations.reverse
  received : s.taken = stream s.iterations.reverse
  some : E.blocking → ∀ it ∈ s.iterations, it.received ≠ []

/-- `k` iterations have been made and have left the buffer `buf`. -/
structure Ready (E : Setting) (k : Nat) (buf : List UInt8) (s : ClientRecord) : Prop extends
    Made E k s where
  buffer : Eleven buf
  taken : s.taken.length ≤ 11 * k
  calls : s.calls ≤ 5 * k + 5
  opened : s.closed = false

theorem echoOnce_ready (h : Ready E k buf s) (hk : k < n) :
    Total ((clientSide E).watched (clientLegal E) (clientOk n)) False (echoOnce fd buf) s
      fun buf' s' => Ready E (k + 1) buf' s' := by
  obtain ⟨hlen, hzero⟩ := h.buffer.cString
  have hcalls := h.calls
  have hsent := h.sent
  have htaken := h.taken
  refine total_step.mpr fun _ _ => ⟨⟨by omega, trivial⟩, ?_⟩
  refine total_step.mpr fun _ _ => ⟨⟨?_, hzero, ?_⟩, ?_⟩
  · show s.calls + 1 < _
    omega
  · show s.sent.length + _ ≤ _
    omega
  refine total_step.mpr fun r hr => ⟨⟨?_, hlen, ?_, h.opened⟩, ?_⟩
  · show s.calls + 1 + 1 < _
    omega
  · show s.taken.length + 11 ≤ (s.sent ++ cString buf).length
    rw [List.length_append]
    omega
  obtain ⟨hrlen, hrzero, hrsome⟩ := hr
  have hready : ∀ b calls, calls ≤ 5 * (k + 1) + 5 → Ready E (k + 1) (overlay r.bytes buf)
      ⟨s.sent ++ cString buf, s.taken ++ r.bytes, calls,
        ⟨cString buf, r.bytes, b⟩ :: s.iterations, s.closed⟩ := by
    intro b calls hcalls
    refine ⟨⟨?_, ?_, ?_, fun hE => ?_⟩, h.buffer.overlay (hlen ▸ hrlen) hrzero, ?_, hcalls,
      h.opened⟩
    · rw [List.length_append]
      omega
    · simp [h.requests, Net.requests]
    · simp [h.received, stream]
    · exact List.forall_mem_cons.mpr ⟨hrsome hE (by omega), h.some hE⟩
    · rw [List.length_append]
      omega
  refine total_step.mpr fun _ _ => ⟨⟨?_, trivial⟩, ?_⟩
  · show s.calls + 1 + 1 + 1 < _
    omega
  by_cases hecho : cString (overlay r.bytes buf) ≠ helloWorld
  · rw [if_pos hecho]
    refine total_step.mpr fun _ _ => ⟨⟨?_, trivial⟩, hready true _ ?_⟩
    · show s.calls + 1 + 1 + 1 + 1 < _
      omega
    · show s.calls + 1 + 1 + 1 + 1 + 1 ≤ _
      omega
  · rw [if_neg hecho]
    refine hready false _ ?_
    show s.calls + 1 + 1 + 1 + 1 ≤ _
    omega

theorem echoLoop_ready {m : Nat} (h : Ready E k buf s) (hm : k + m ≤ n) :
    Total ((clientSide E).watched (clientLegal E) (clientOk n)) False (echoLoop fd m buf) s
      fun buf' s' => Ready E (k + m) buf' s' := by
  induction m generalizing k buf s with
  | zero => exact h
  | succ m ih =>
      refine (echoOnce_ready h (by omega)).bind fun buf' s' h' => ?_
      have hrest := ih h' (by omega)
      rwa [Nat.add_right_comm, Nat.add_assoc] at hrest

theorem eleven_of_greets (h : Greets buf) : Eleven buf := by
  obtain ⟨rest, rfl⟩ := h
  exact ⟨helloWorld, rest, rfl, by decide, rfl⟩

theorem clientThread_made (fresh : Vector UInt8 64) :
    Total ((clientSide E).watched (clientLegal E) (clientOk n)) False (clientThread n fresh) {}
      fun rc s => rc = 0 ∧ Made E n s := by
  have hstart : ∀ calls, calls ≤ 5 → Ready E 0 (greeting fresh) { calls := calls } :=
    fun calls hcalls => ⟨⟨rfl, rfl, rfl, fun _ => nofun⟩,
      eleven_of_greets (greets_greeting fresh), Nat.le_refl 0, hcalls, rfl⟩
  refine total_step.mpr fun _ _ => ⟨⟨?_, trivial⟩, ?_⟩
  · show 0 < _
    omega
  refine total_step.mpr fun _ _ => ⟨⟨?_, trivial⟩, ?_⟩
  · show 1 < _
    omega
  refine Total.bind (Q := fun _ s => s = { calls := 3 }) ?_ fun _ s hs => ?_
  · split <;> exact fun _ _ => ⟨⟨by show 2 < _; omega, trivial⟩, rfl⟩
  subst hs
  refine total_step.mpr fun _ _ => ⟨⟨?_, trivial⟩, ?_⟩
  · show 3 < _
    omega
  refine total_step.mpr fun _ _ => ⟨⟨?_, trivial⟩, ?_⟩
  · show 4 < _
    omega
  refine (echoLoop_ready (hstart 5 le_rfl) (by omega)).bind fun _ s hs => ?_
  rw [Nat.zero_add] at hs
  have hcalls := hs.calls
  refine total_step.mpr fun _ _ => ⟨⟨by omega, trivial⟩, ?_⟩
  refine total_step.mpr fun _ _ => ⟨⟨?_, trivial⟩, ?_⟩
  · show s.calls + 1 < _
    omega
  refine total_step.mpr fun _ _ => ⟨⟨?_, trivial⟩, ?_⟩
  · show s.calls + 1 + 1 < _
    omega
  refine total_step.mpr fun _ _ => ⟨⟨?_, trivial⟩, ?_⟩
  · show s.calls + 1 + 1 + 1 < _
    omega
  refine total_step.mpr fun _ _ => ⟨⟨?_, trivial⟩, rfl, hs.sent, hs.requests, hs.received, hs.some⟩
  show s.calls + 1 + 1 + 1 + 1 < _
  omega

/-- What the client has done when it returns. -/
structure Played (E : Setting) (n : Nat) (rc : Int) (s : ClientRecord) : Prop extends
    Made E n s where
  rc_eq : rc = 0
  length : s.iterations.reverse.length = n
  plays : ∃ fresh, Plays (greeting fresh) s.iterations.reverse

theorem clientThread_total (fresh : Vector UInt8 64) :
    Total ((clientSide E).watched (clientLegal E) (clientOk n)) False (clientThread n fresh) {}
      (Played E n) := by
  have hlegal : ∀ s c r, clientLegal E s c r → iterations.legal s.iterations c r := by
    intro s c r h
    cases c with
    | read fd len => exact h.1
    | _ => trivial
  have hnext : ∀ s c r, ((clientSide E).next s c r).iterations =
      iterations.next s.iterations c r := by
    intro s c r
    cases c <;> rfl
  have hboth := (clientThread_made fresh).and_safe (clientThread_plays n fresh) hlegal hnext
  refine hboth.mono fun rc s h => ?_
  obtain ⟨⟨hrc, hmade⟩, hlength, hplays⟩ := h
  exact ⟨hmade, hrc, hlength, fresh, hplays⟩

end

/-! ## The server's part -/

section

variable {E : Setting} {turns : Nat} {fd : Int} {t : ServerRecord}

def serverLegal (E : Setting) : ServerRecord → (c : ServerCall) → ServerReply c → Prop
  | _, .read _ len, r => r.bytes.length ≤ len ∧ 0 ∉ r.bytes
  | _, .newChar _, m => E.heap.hands m
  | _, _, _ => True

/-- Everything consumed has been sent back whenever the server reads. -/
def serverOk (E : Setting) (t : ServerRecord) : (c : ServerCall) → ServerReply c → Prop
  | .read _ len, _ => len = 128 ∧ t.taken.length ≤ t.sent.length
  | .write _ data, _ =>
    t.calls ≤ 3 * t.reads + 1 ∧ 0 ∉ data ∧ (E.heap.Zeroed → t.sent ++ data = t.taken)
  | _, _ => t.calls ≤ 3 * t.reads + 1

/-- The record between two turns, after `k` of them. -/
structure Resting (E : Setting) (k : Nat) (t : ServerRecord) : Prop where
  reads : t.reads = k
  calls : t.calls = 3 * k + 1
  behind : t.taken.length ≤ t.sent.length
  same : E.heap.Zeroed → t.sent = t.taken

/-- The string in a filled buffer is what was read and what the memory says
behind it. -/
theorem cString_overlay {bs m : List UInt8} (h : 0 ∉ bs) :
    cString (overlay bs m) = bs ++ cString (m.drop bs.length) := cString_append h _

theorem cString_zeroed (hE : E.heap.Zeroed) {m : List UInt8} (hm : E.heap.hands m) {i : Nat}
    (hi : i ≤ 128) : cString (m.drop i) = [] := by
  have hzero := hE m hm i hi
  cases hrest : m.drop i with
  | nil =>
      rw [← List.head?_drop, hrest] at hzero
      cases hzero
  | cons b rest =>
      rw [← List.head?_drop, hrest] at hzero
      obtain rfl := Option.some.inj hzero
      rfl

theorem receiveOnce_resting {k : Nat} (h : Resting E k t) :
    Total ((serverSide E).watched (serverLegal E) (serverOk E)) (¬ E.heap.Terminated)
      (receiveOnce fd) t fun _ t' => Resting E (k + 1) t' := by
  have hcalls := h.calls
  have hreads := h.reads
  have hbehind := h.behind
  refine total_step.mpr fun m hm => ⟨?_, total_step.mpr fun r hr => ⟨⟨rfl, hbehind⟩, ?_⟩⟩
  · show t.calls ≤ 3 * t.reads + 1
    omega
  obtain ⟨hlen, hzero⟩ := hr
  have hterminated : E.heap.Terminated → 0 ∈ overlay r.bytes m := by
    intro hterm
    refine List.mem_append_right _ ?_
    have hsplit : (m.drop r.bytes.length).drop (128 - r.bytes.length) = m.drop 128 := by
      rw [List.drop_drop]
      congr 1
      omega
    exact List.mem_of_mem_drop (hsplit ▸ hterm m hm)
  refine total_bind.mpr (total_assert (fun h => mt hterminated (of_decide_eq_false h)) fun _ => ?_)
  have hdata := cString_overlay (m := m) hzero
  refine total_step.mpr fun _ _ => ⟨⟨?_, zero_notMem_cString _, fun hE => ?_⟩, ?_⟩
  · show t.calls + 1 + 1 ≤ 3 * (t.reads + 1) + 1
    omega
  · show t.sent ++ _ = t.taken ++ r.bytes
    rw [hdata, cString_zeroed hE hm hlen, List.append_nil, h.same hE]
  · refine ⟨?_, ?_, ?_, fun hE => ?_⟩
    · show t.reads + 1 = k + 1
      omega
    · show t.calls + 1 + 1 + 1 = 3 * (k + 1) + 1
      omega
    · show (t.taken ++ r.bytes).length ≤ (t.sent ++ cString (overlay r.bytes m)).length
      rw [hdata]
      simp only [List.length_append]
      omega
    · show t.sent ++ cString (overlay r.bytes m) = t.taken ++ r.bytes
      rw [hdata, cString_zeroed hE hm hlen, List.append_nil, h.same hE]

theorem receiveLoop_resting {k m : Nat} (h : Resting E k t) :
    Total ((serverSide E).watched (serverLegal E) (serverOk E)) (¬ E.heap.Terminated)
      (receiveLoop fd m) t fun _ t' => Resting E (k + m) t' := by
  induction m generalizing k t with
  | zero => exact h
  | succ m ih =>
      refine (receiveOnce_resting h).bind fun _ t' h' => ?_
      have hrest := ih h'
      rwa [Nat.add_right_comm, Nat.add_assoc] at hrest

theorem receiveHandler_total :
    Total ((serverSide E).watched (serverLegal E) (serverOk E)) (¬ E.heap.Terminated)
      (receiveHandler fd turns) {} fun _ t => Resting E turns t := by
  refine total_step.mpr fun clientSockFd _ => ⟨Nat.zero_le _, ?_⟩
  have hstart : Resting E 0 { calls := 1 } := ⟨rfl, rfl, le_rfl, fun _ => rfl⟩
  refine (receiveLoop_resting hstart).mono fun _ t h => ?_
  rwa [Nat.zero_add] at h

end

/-! ## Both together -/

/-- What the two records say of each other. -/
structure Flow (E : Setting) (n : Nat) (s : ClientRecord) (t : ServerRecord) : Prop where
  clientBytes : 0 ∉ s.sent
  serverBytes : 0 ∉ t.sent
  clientTaken : s.taken <+: t.sent
  serverTaken : t.taken <+: s.sent
  echo : E.heap.Zeroed → t.sent <+: t.taken
  clientCalls : s.calls ≤ 5 * n + 10
  requested : s.sent.length ≤ 11 * n
  serverCalls : t.calls ≤ 3 * t.reads + 2
  reads : E.blocking → s.closed = false → t.reads ≤ t.taken.length

section

variable {E : Setting} {n turns : Nat} {s : ClientRecord} {t : ServerRecord}

theorem Setting.Delivers.consumed {sent taken : List UInt8} {ended : Prop} {len : Nat}
    {r : ReadReply} (h : E.Delivers sent taken ended len r) (htaken : taken <+: sent) :
    taken ++ r.bytes <+: sent := by
  obtain ⟨rest, rfl⟩ := htaken
  have hbytes := h.1
  rw [List.drop_left] at hbytes
  exact (List.prefix_append_right_inj taken).mpr hbytes

theorem Setting.Delivers.zero_notMem {sent taken : List UInt8} {ended : Prop} {len : Nat}
    {r : ReadReply} (h : E.Delivers sent taken ended len r) (hsent : 0 ∉ sent) : 0 ∉ r.bytes :=
  fun hzero => hsent (List.mem_of_mem_drop (h.1.subset hzero))

theorem client_keeps : (clientSide E).Keeps (clientLegal E) (clientOk n) (Flow E n) where
  legal {s t c r} hJ h := by
    cases c with
    | read fd len =>
        have hread : E.Delivers t.sent s.taken False len r := h
        exact ⟨hread.2.1, hread.zero_notMem hJ.serverBytes, hread.2.2⟩
    | _ => trivial
  keeps {s t c r} hJ h hok := by
    obtain ⟨hcalls, hcall⟩ := hok
    have hmore : s.calls + 1 ≤ 5 * n + 10 := hcalls
    cases c with
    | write fd data =>
        refine { hJ with
          clientBytes := ?_
          serverTaken := ?_
          clientCalls := hmore
          requested := ?_ }
        · show 0 ∉ s.sent ++ data
          exact fun hzero => (List.mem_append.mp hzero).elim hJ.clientBytes hcall.1
        · exact hJ.serverTaken.trans (List.prefix_append _ _)
        · show (s.sent ++ data).length ≤ 11 * n
          rw [List.length_append]
          exact hcall.2
    | read fd len =>
        have hread : E.Delivers t.sent s.taken False len r := h
        exact { hJ with
          clientTaken := hread.consumed hJ.clientTaken
          clientCalls := hmore }
    | close fd => exact { hJ with clientCalls := hmore, reads := nofun }
    | _ => exact { hJ with clientCalls := hmore }

theorem server_keeps : (serverSide E).Keeps (serverLegal E) (serverOk E)
    fun t s => Flow E n s t where
  legal {t s c r} hJ h := by
    cases c with
    | read fd len =>
        have hread : E.Delivers s.sent t.taken (s.closed = true ∧ _) len r := h
        exact ⟨hread.2.1, hread.zero_notMem hJ.clientBytes⟩
    | newChar size => exact h
    | _ => trivial
  keeps {t s c r} hJ h hok := by
    cases c with
    | write fd data =>
        obtain ⟨hcalls, hdata, hsame⟩ := hok
        refine { hJ with
          serverBytes := ?_
          clientTaken := ?_
          echo := ?_
          serverCalls := ?_ }
        · show 0 ∉ t.sent ++ data
          exact fun hzero => (List.mem_append.mp hzero).elim hJ.serverBytes hdata
        · exact hJ.clientTaken.trans (List.prefix_append _ _)
        · intro hE
          show t.sent ++ data <+: t.taken
          exact (hsame hE) ▸ List.prefix_rfl
        · show t.calls + 1 ≤ 3 * t.reads + 2
          omega
    | read fd len =>
        have hread : E.Delivers s.sent t.taken (s.closed = true ∧ _) len r := h
        have hcalls := hJ.serverCalls
        obtain ⟨hlen, -⟩ := hok
        refine { hJ with
          serverTaken := hread.consumed hJ.serverTaken
          echo := fun hE => ?_
          serverCalls := ?_
          reads := fun hE hopen => ?_ }
        · exact (hJ.echo hE).trans (List.prefix_append _ _)
        · show t.calls + 1 ≤ 3 * (t.reads + 1) + 2
          omega
        · have hsome : r.bytes ≠ [] := fun hnil => by
            have hclosed := (hread.2.2 hE (by omega) hnil).1
            rw [hopen] at hclosed
            cases hclosed
          have hpos := List.length_pos_iff.mpr hsome
          have hreads := hJ.reads hE hopen
          show t.reads + 1 ≤ (t.taken ++ r.bytes).length
          rw [List.length_append]
          omega
    | accept fd =>
        exact { hJ with serverCalls := Nat.succ_le_succ hok }
    | newChar size =>
        exact { hJ with serverCalls := Nat.succ_le_succ hok }

/-- Both parties are on their way in every reachable state. -/
theorem echoing_holds {g : Pair} (h : (echoing E n turns).system.Reachable g) :
    (echoing E n turns).Holds (clientLegal E) (clientOk n) (serverLegal E) (serverOk E) False
      (¬ E.heap.Terminated) (Flow E n) (Played E n) (fun _ t => Resting E turns t) g := by
  refine Meeting.holds client_keeps server_keeps ?_ h
  rintro ⟨X, Y⟩ ⟨⟨fresh, hX⟩, fd, hY⟩
  obtain rfl : X = _ := hX
  obtain rfl : Y = _ := hY
  refine ⟨clientThread_total fresh, receiveHandler_total, ?_⟩
  exact ⟨nofun, nofun, List.prefix_rfl, List.prefix_rfl, fun _ => List.prefix_rfl, Nat.zero_le _,
    Nat.zero_le _, Nat.zero_le _, fun _ _ => Nat.zero_le _⟩

/-- The client is at a `read` and has consumed all that the server has sent. -/
def ClientWaits (g : Pair) : Prop :=
  ∃ fd len next, g.1.prog = .call (.read fd len) next ∧
    g.2.record.sent.length ≤ g.1.record.taken.length

def ServerWaits (g : Pair) : Prop :=
  ∃ fd len next, g.2.prog = .call (.read fd len) next ∧
    g.1.record.sent.length ≤ g.2.record.taken.length

variable {g : Pair}

theorem Setting.Delivers.of_unread {sent taken : List UInt8} {ended : Prop} {len : Nat}
    (h : taken.length < sent.length) (hlen : 0 < len) :
    E.Delivers sent taken ended len (.got ((sent.drop taken.length).take 1)) := by
  refine ⟨List.take_prefix _ _, ?_, fun _ _ hnil => ?_⟩
  · show ((sent.drop taken.length).take 1).length ≤ len
    rw [List.length_take]
    omega
  · have hone := congrArg List.length hnil
    simp at hone
    omega

/-- A client at a `read` has a request on its way and has not closed its socket. -/
theorem client_reading {X : Party Call Reply Int ClientRecord} {Q : Int → ClientRecord → Prop}
    (hX : Total ((clientSide E).watched (clientLegal E) (clientOk n)) False X.prog X.record Q)
    {fd : Int} {len : Nat} {next : ReadReply → P Int} (hprog : X.prog = .call (.read fd len) next) :
    len = 11 ∧ X.record.taken.length + 11 ≤ X.record.sent.length ∧ X.record.closed = false := by
  rw [hprog] at hX
  have hlegal : clientLegal E X.record (.read fd len) (.got (List.replicate len 1)) := by
    refine ⟨?_, ?_, fun _ hlen => ?_⟩
    · simp
    · simp
    · simpa using hlen.ne'
  exact (hX _ hlegal).1.2

/-- A server at a `read` has sent as much as it has consumed. -/
theorem server_reading {Y : Party ServerCall ServerReply Unit ServerRecord}
    {Q : Unit → ServerRecord → Prop}
    (hY : Total ((serverSide E).watched (serverLegal E) (serverOk E)) (¬ E.heap.Terminated)
      Y.prog Y.record Q)
    {fd : Int} {len : Nat} {next : ReadReply → ServerP Unit}
    (hprog : Y.prog = .call (.read fd len) next) :
    len = 128 ∧ Y.record.taken.length ≤ Y.record.sent.length := by
  rw [hprog] at hY
  exact (hY .failed ⟨Nat.zero_le _, nofun⟩).1

/-- The two never wait for each other, however the streams are cut into pieces,
whatever memory the server is given, and also when reads fail. -/
theorem echo_never_deadlocks (h : (echoing E n turns).system.Reachable g) :
    ¬ (ClientWaits g ∧ ServerWaits g) := by
  rintro ⟨⟨_, _, _, hclient, hempty⟩, ⟨_, _, _, hserver, hempty'⟩⟩
  have hI := echoing_holds h
  have hrequest := (client_reading hI.left hclient).2.1
  have hecho := (server_reading hI.right hserver).2
  omega

/-- A client that has not returned can go on, at a `read` if there is something unread. -/
theorem client_goes_on {X : Party Call Reply Int ClientRecord}
    (hX : Total ((clientSide E).watched (clientLegal E) (clientOk n)) False X.prog X.record
      (Played E n)) (hend : X.prog ≠ ret 0)
    (hunread : ∀ fd len next, X.prog = .call (.read fd len) next →
      X.record.taken.length < t.sent.length) : ∃ X', (clientSide E).Step t X X' := by
  obtain ⟨prog, s⟩ := X
  cases prog with
  | ret rc => exact absurd (congrArg ret (Played.rc_eq hX)) hend
  | abort => exact hX.elim
  | more => exact hX.elim
  | call c next =>
      cases c with
      | read fd len =>
          obtain ⟨rfl, -⟩ := client_reading hX rfl
          exact ⟨_, .call (.of_unread (hunread _ _ _ rfl) (by decide))⟩
      | write fd data =>
          have hwhole : (clientSide E).answers s t (.write fd data) (data.length : Int) := rfl
          exact ⟨_, .call hwhole⟩
      | socket => exact ⟨_, .call (r := (0 : Int)) trivial⟩
      | connect => exact ⟨_, .call (r := (0 : Int)) trivial⟩
      | close => exact ⟨_, .call (r := (0 : Int)) trivial⟩
      | getTimeByUSec => exact ⟨_, .call (r := (0 : Int)) trivial⟩
      | clockBegin => exact ⟨_, .call (r := ()) trivial⟩
      | clockStop => exact ⟨_, .call (r := ()) trivial⟩
      | clockResume => exact ⟨_, .call (r := ()) trivial⟩
      | print line => exact ⟨_, .call (r := ()) trivial⟩

/-- The server can go on while a request is on its way and the client has got all
there is. -/
theorem server_goes_on {Y : Party ServerCall ServerReply Unit ServerRecord}
    (hturns : 11 * n ≤ turns) (hE : E.blocking) (hterm : E.heap.Terminated)
    (hY : Total ((serverSide E).watched (serverLegal E) (serverOk E)) (¬ E.heap.Terminated)
      Y.prog Y.record fun _ t => Resting E turns t) (hJ : Flow E n s Y.record)
    (hopen : s.closed = false) (hrequest : s.taken.length + 11 ≤ s.sent.length)
    (hempty : Y.record.sent.length ≤ s.taken.length) : ∃ Y', (serverSide E).Step s Y Y' := by
  obtain ⟨prog, t⟩ := Y
  cases prog with
  | ret _ =>
      have hreads : t.reads = turns := Resting.reads hY
      have hbehind : t.taken.length ≤ t.sent.length := Resting.behind hY
      have hsome : t.reads ≤ t.taken.length := hJ.reads hE hopen
      have hrequested := hJ.requested
      dsimp only at hempty
      omega
  | abort => exact absurd hterm hY
  | more => exact hY.elim
  | call c next =>
      cases c with
      | accept fd => exact ⟨_, .call (r := (0 : Int)) trivial⟩
      | newChar size =>
          obtain ⟨m, hm⟩ := E.heap.nonempty
          exact ⟨_, .call (show (serverSide E).answers t s (.newChar size) m from hm)⟩
      | write fd data =>
          have hwhole : (serverSide E).answers t s (.write fd data) (data.length : Int) :=
            fun _ => rfl
          exact ⟨_, .call hwhole⟩
      | read fd len =>
          obtain ⟨rfl, hbehind⟩ := server_reading hY rfl
          dsimp only at hbehind hempty
          exact ⟨_, .call (.of_unread (by omega) (by decide))⟩

/-- As long as the client has not returned, one of the two can go on. -/
theorem echoing_goes_on (hturns : 11 * n ≤ turns) (hE : E.blocking) (hterm : E.heap.Terminated)
    (h : (echoing E n turns).system.Reachable g) (hend : g.1.prog ≠ ret 0) :
    ∃ g', (echoing E n turns).system.step g g' := by
  have hI := echoing_holds h
  obtain ⟨X, Y⟩ := g
  by_cases hwaits : ClientWaits (X, Y)
  · obtain ⟨fd, len, next, hprog, hempty⟩ := hwaits
    obtain ⟨-, hrequest, hopen⟩ := client_reading hI.left hprog
    obtain ⟨Y', hY'⟩ := server_goes_on hturns hE hterm hI.right hI.joint hopen hrequest hempty
    exact ⟨(X, Y'), .inr ⟨hY', rfl⟩⟩
  · obtain ⟨X', hX'⟩ := client_goes_on (t := Y.record) hI.left hend fun fd len next hprog =>
      not_le.mp fun hempty => hwaits ⟨fd, len, next, hprog, hempty⟩
    exact ⟨(X', Y), .inl ⟨hX', rfl⟩⟩

/-- A client that has closed its socket needs no one else to go on. -/
theorem closed_goes_on (h : (echoing E n turns).system.Reachable g)
    (hclosed : g.1.record.closed = true) (hend : g.1.prog ≠ ret 0) :
    ∃ X', (clientSide E).Step g.2.record g.1 X' := by
  have hclient := (echoing_holds h).left
  refine client_goes_on hclient hend fun fd len next hprog => ?_
  have hopen := (client_reading hclient hprog).2.2
  rw [hclosed] at hopen
  cases hopen

/-- The client comes to its end: until it closes its socket both together make a bounded
number of calls and one of them can go on, and then it can go on alone, with a bounded
number of calls in all. -/
theorem echo_finishes (hturns : 11 * n ≤ turns) (hE : E.blocking) (hterm : E.heap.Terminated)
    {k : Nat} (h : (echoing E n turns).system.Steps k g) :
    (g.1.record.closed = false → k ≤ 38 * n + 12) ∧ g.1.record.calls ≤ 5 * n + 10 ∧
      (g.1.prog ≠ ret 0 → (∃ g', (echoing E n turns).system.step g g') ∧
        (g.1.record.closed = true → ∃ X', (clientSide E).Step g.2.record g.1 X')) := by
  have hJ := (echoing_holds h.reachable).joint
  refine ⟨fun hopen => ?_, hJ.clientCalls, fun hend => ⟨?_, fun hclosed => ?_⟩⟩
  · have hcount : g.1.record.calls + g.2.record.calls = k := by
      refine Meeting.steps_count _ (fun s c r => ?_) (fun t c r => ?_) (fun g hg => ?_) h
      · cases c <;> rfl
      · cases c <;> rfl
      · obtain ⟨⟨fresh, hX⟩, fd, hY⟩ := hg
        rw [hX, hY]
        exact ⟨rfl, rfl⟩
    have hclient := hJ.clientCalls
    have hserver := hJ.serverCalls
    have hreads := hJ.reads hE hopen
    have htaken := hJ.serverTaken.length_le
    have hrequested := hJ.requested
    omega
  · exact echoing_goes_on hturns hE hterm h.reachable hend
  · exact closed_goes_on h.reachable hclosed hend

/-- Over zeroed memory, in a finished run: no error is reported up to iteration `k` if
and only if every `read` before it returns a whole echo. -/
theorem echo_first_error (hE : E.blocking) (hzeroed : E.heap.Zeroed)
    (h : (echoing E n turns).system.Reachable g) (hend : g.1.prog = ret 0) {k : Nat} (hk : k < n) :
    (∀ it ∈ g.1.record.iterations.reverse.take (k + 1), it.reported = false) ↔
      ∀ it ∈ g.1.record.iterations.reverse.take k, it.received.length = 11 := by
  have hI := echoing_holds h
  have hplayed : Played E n 0 g.1.record := by
    have hclient := hI.left
    rwa [hend] at hclient
  obtain ⟨fresh, hplays⟩ := hplayed.plays
  refine hplays.first_error (greets_greeting fresh) (fun it hit => ?_) ?_ (by rwa [hplayed.length])
  · exact hplayed.some hE it (List.mem_reverse.mp hit)
  · rw [← hplayed.received, ← hplayed.requests]
    exact hI.joint.clientTaken.trans ((hI.joint.echo hzeroed).trans hI.joint.serverTaken)

end

/-! ## A run with short reads -/

def zeroHeap : Heap where
  hands m := m = List.replicate 129 0
  nonempty := ⟨_, rfl⟩

def zeroSetting : Setting := { heap := zeroHeap, blocking := True }

theorem zeroHeap_terminated : zeroHeap.Terminated := by
  rintro m rfl
  decide

theorem zeroHeap_zeroed : zeroHeap.Zeroed := by
  rintro m rfl i hi
  rw [List.getElem?_replicate, if_pos (by omega)]

/-- At most `cut` bytes of what there is to read. -/
def unread (cut len : Nat) (sent taken : List UInt8) : Option ReadReply :=
  if taken.length < sent.length ∧ 0 < cut then
    some (.got ((sent.drop taken.length).take (min cut len)))
  else none

theorem delivers_of_unread {cut len : Nat} {sent taken : List UInt8} {ended : Prop}
    {r : ReadReply} (h : unread cut len sent taken = some r) :
    zeroSetting.Delivers sent taken ended len r := by
  unfold unread at h
  split at h
  · rename_i hsome
    obtain rfl := Option.some.inj h
    refine ⟨List.take_prefix _ _, ?_, fun _ hlen hnil => ?_⟩
    · exact (List.length_take_le _ _).trans (Nat.min_le_right _ _)
    · have hnone := congrArg List.length hnil
      simp at hnone
      omega
  · cases h

def clientAnswer (cut : Nat) (s : ClientRecord) (t : ServerRecord) : (c : Call) → Option (Reply c)
  | .write _ data => some (data.length : Int)
  | .read _ len => unread cut len t.sent s.taken
  | .socket | .connect .. | .close .. | .getTimeByUSec => some (0 : Int)
  | .clockBegin | .clockStop | .clockResume | .print .. => some ()

def serverAnswer (t : ServerRecord) (s : ClientRecord) : (c : ServerCall) → Option (ServerReply c)
  | .write _ data => some (data.length : Int)
  | .read _ len => unread len len s.sent t.taken
  | .newChar _ => some (List.replicate 129 (0 : UInt8))
  | .accept _ => some (0 : Int)

def clientTick (cut : Nat) (g : Pair) : Option Pair :=
  match g with
  | (⟨.call c next, s⟩, Y) => (clientAnswer cut s Y.record c).map fun r =>
      (⟨next r, (clientSide zeroSetting).next s c r⟩, Y)
  | _ => none

def serverTick (g : Pair) : Option Pair :=
  match g with
  | (X, ⟨.call c next, t⟩) => (serverAnswer t X.record c).map fun r =>
      (X, ⟨next r, (serverSide zeroSetting).next t c r⟩)
  | _ => none

theorem step_of_clientTick {n turns : Nat} (cut : Nat) (g g' : Pair)
    (h : clientTick cut g = some g') : (echoing zeroSetting n turns).system.step g g' := by
  unfold clientTick at h
  split at h
  · rename_i c next s Y
    obtain ⟨r, hr, rfl⟩ := Option.map_eq_some_iff.mp h
    refine .inl ⟨.call ?_, rfl⟩
    cases c with
    | write fd data => exact (Option.some.inj hr).symm
    | read fd len => exact delivers_of_unread hr
    | _ => trivial
  · cases h

theorem step_of_serverTick {n turns : Nat} (g g' : Pair) (h : serverTick g = some g') :
    (echoing zeroSetting n turns).system.step g g' := by
  unfold serverTick at h
  split at h
  · rename_i X c next t
    obtain ⟨r, hr, rfl⟩ := Option.map_eq_some_iff.mp h
    refine .inr ⟨.call ?_, rfl⟩
    cases c with
    | write fd data => exact fun _ => (Option.some.inj hr).symm
    | read fd len => exact delivers_of_unread hr
    | newChar size => exact (Option.some.inj hr).symm
    | accept fd => trivial
  · cases h

def echoStart : Pair :=
  (⟨clientThread 2 (Vector.replicate 64 0), {}⟩, ⟨receiveHandler 3 22, {}⟩)

/-- The server has sent the first echo back. -/
def echoUnread : Pair :=
  TransitionSystem.walk serverTick 6 (TransitionSystem.walk (clientTick 5) 7 echoStart)

/-- The client has read five bytes in each of two iterations. -/
def echoCut : Pair := TransitionSystem.walk (clientTick 5) 15 echoUnread

theorem echoUnread_reachable : (echoing zeroSetting 2 22).system.Reachable echoUnread :=
  .walk step_of_serverTick (.walk (step_of_clientTick 5) (.init ⟨⟨_, rfl⟩, _, rfl⟩) 7) 6

theorem echoCut_reachable : (echoing zeroSetting 2 22).system.Reachable echoCut :=
  .walk (step_of_clientTick 5) echoUnread_reachable 15

theorem echo_never_deadlocks_unread : ¬ (ClientWaits echoUnread ∧ ServerWaits echoUnread) :=
  echo_never_deadlocks echoUnread_reachable

theorem echo_finishes_unread : ∃ k, (echoing zeroSetting 2 22).system.Steps k echoUnread ∧
    (echoUnread.1.record.closed = false → k ≤ 88) ∧ echoUnread.1.record.calls ≤ 20 ∧
      (echoUnread.1.prog ≠ ret 0 →
        (∃ g', (echoing zeroSetting 2 22).system.step echoUnread g') ∧
        (echoUnread.1.record.closed = true →
          ∃ X', (clientSide zeroSetting).Step echoUnread.2.record echoUnread.1 X')) := by
  obtain ⟨k, hk⟩ := echoUnread_reachable.steps
  exact ⟨k, hk, echo_finishes (by decide) trivial zeroHeap_terminated hk⟩

theorem echo_first_error_cut :
    (∀ it ∈ echoCut.1.record.iterations.reverse.take 2, it.reported = false) ↔
      ∀ it ∈ echoCut.1.record.iterations.reverse.take 1, it.received.length = 11 :=
  echo_first_error trivial zeroHeap_zeroed echoCut_reachable (eq_ret_of_result (by decide))
    (by decide)

end Net
end CommSpeed
