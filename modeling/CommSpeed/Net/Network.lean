/-
The TCP client of `Network.cpp`.

`clientThread` sends a request and reads the echo into the buffer that holds the
request, once per iteration.  The buffer is never cleared and its string is also
the length of the next `write` and `read`; what `read` returns is not looked at.

A read that returns a proper beginning of "hello world" leaves the buffer as it
was, so the check after it sees nothing, and the rest of the echo is left for the
next iteration.  The check is exact on the runs without such a read.
-/
import Mathlib.Tactic.Ring
import CommSpeed.Bytes.Buffer
import CommSpeed.Prog.Monitor

namespace CommSpeed
namespace Net

open Bytes Prog

/-- The request, "hello world". -/
def helloWorld : List UInt8 :=
  charBytes ['h', 'e', 'l', 'l', 'o', ' ', 'w', 'o', 'r', 'l', 'd']

inductive Line
  | connectError
  | connected
  | recvError
  | timeCost (usec : Int)
  | timePerCase (usec : Int)
  deriving DecidableEq

/-- The calls of `clientThread`, with those to `MyClock`. -/
inductive Call
  | socket
  | connect (fd : Int) (addr : String) (port : UInt16)
  | clockBegin
  | clockStop
  | clockResume
  | getTimeByUSec
  | write (fd : Int) (data : List UInt8)
  | read (fd : Int) (len : Nat)
  | close (fd : Int)
  | print (line : Line)

@[reducible] def Reply : Call → Type
  | .socket | .connect .. | .write .. | .close .. | .getTimeByUSec => Int
  | .read .. => ReadReply
  | .clockBegin | .clockStop | .clockResume | .print .. => Unit

abbrev P := Prog Call Reply

abbrev sys (c : Call) : P (Reply c) := perform c

/-- One iteration of the loop of `clientThread`: the buffer it leaves. -/
def echoOnce (fd : Int) (buf : List UInt8) : P (List UInt8) := do
  sys .clockResume
  let _ ← sys (.write fd (cString buf))
  let r ← sys (.read fd (cString buf).length)
  let buf := overlay r.bytes buf
  sys .clockStop
  (if cString buf ≠ helloWorld then sys (.print .recvError) else pure ())
  return buf

def echoLoop (fd : Int) : Nat → List UInt8 → P (List UInt8)
  | 0, buf => pure buf
  | n + 1, buf => do
    let buf ← echoOnce fd buf
    echoLoop fd n buf

/-- The buffer after `strcpy(buf, "hello world")`. -/
def greeting (fresh : Vector UInt8 64) : List UInt8 := overlay (helloWorld ++ [0]) fresh.toList

/-- `clientThread` with `n` for `TESTCASE`, on a fresh buffer with any contents. -/
def clientThread (n : Nat) (fresh : Vector UInt8 64) : P Int := do
  let clientSockFd ← sys .socket
  let result ← sys (.connect clientSockFd "10.11.1.235" 8001)
  (if result < 0 then sys (.print .connectError) else sys (.print .connected))
  sys .clockBegin
  sys .clockStop
  let _ ← echoLoop clientSockFd n (greeting fresh)
  let _ ← sys (.close clientSockFd)
  let usec ← sys .getTimeByUSec
  sys (.print (.timeCost usec))
  let usec ← sys .getTimeByUSec
  sys (.print (.timePerCase (usec.tdiv n)))
  return 0

/-! ## What the iterations do -/

structure Iteration where
  request : List UInt8 := []
  received : List UInt8 := []
  reported : Bool := false

/-- The iterations so far, the last one first.  A `read` returns at most what it
was asked for. -/
def iterations : Monitor Call Reply (List Iteration) where
  legal
    | _, .read _ len, r => r.bytes.length ≤ len
    | _, _, _ => True
  ok _ _ _ := True
  next
    | its, .clockResume, _ => {} :: its
    | its, .write _ data, _ => its.modifyHead fun it => { it with request := data }
    | its, .read .., r => its.modifyHead fun it => { it with received := r.bytes }
    | its, .print .recvError, _ => its.modifyHead fun it => { it with reported := true }
    | its, _, _ => its

instance : ∀ its c r, Decidable (iterations.legal its c r)
  | _, .read _ len, r => inferInstanceAs (Decidable (r.bytes.length ≤ len))
  | _, .socket, _ | _, .connect .., _ | _, .clockBegin, _ | _, .clockStop, _
  | _, .clockResume, _ | _, .getTimeByUSec, _ | _, .write .., _ | _, .close .., _
  | _, .print .., _ => .isTrue trivial

def iterationsOf (t : List (Event Call Reply)) : List Iteration := (iterations.after [] t).reverse

/-- The iterations that the loop can make from a buffer. -/
def Plays : List UInt8 → List Iteration → Prop
  | _, [] => True
  | buf, it :: its => it.request = cString buf ∧ it.received.length ≤ (cString buf).length ∧
    (it.reported = true ↔ cString (overlay it.received buf) ≠ helloWorld) ∧
    Plays (overlay it.received buf) its

section

variable {fd : Int} {buf : List UInt8} {its : List Iteration}

theorem echoOnce_plays : Safe iterations (echoOnce fd buf) its fun buf' its' =>
    ∃ it, its' = it :: its ∧ buf' = overlay it.received buf ∧ Plays buf [it] := by
  refine safe_step.mpr fun _ _ => ⟨trivial, safe_step.mpr fun _ _ => ⟨trivial, ?_⟩⟩
  refine safe_step.mpr fun r hr => ⟨trivial, safe_step.mpr fun _ _ => ⟨trivial, ?_⟩⟩
  by_cases hecho : cString (overlay r.bytes buf) = helloWorld
  · rw [if_neg fun hne => hne hecho]
    exact ⟨⟨cString buf, r.bytes, false⟩, rfl, rfl, rfl, hr, by simp [hecho], trivial⟩
  · rw [if_pos hecho]
    refine safe_step.mpr fun _ _ => ⟨trivial, ?_⟩
    exact ⟨⟨cString buf, r.bytes, true⟩, rfl, rfl, rfl, hr, by simp [hecho], trivial⟩

theorem echoLoop_plays (n : Nat) : Safe iterations (echoLoop fd n buf) its fun _ its' =>
    ∃ new, its' = new.reverse ++ its ∧ new.length = n ∧ Plays buf new := by
  induction n generalizing buf its with
  | zero => exact ⟨[], rfl, rfl, trivial⟩
  | succ n ih =>
      refine Safe.bind echoOnce_plays fun buf' its' h => ?_
      obtain ⟨it, rfl, rfl, hrequest, hlen, hreported, -⟩ := h
      refine ih.mono fun _ its'' h => ?_
      obtain ⟨new, rfl, hnew, hplays⟩ := h
      refine ⟨it :: new, by simp, by rw [List.length_cons, hnew], hrequest, hlen, hreported, hplays⟩

theorem clientThread_plays (n : Nat) (fresh : Vector UInt8 64) :
    Safe iterations (clientThread n fresh) [] fun _ its =>
      its.reverse.length = n ∧ Plays (greeting fresh) its.reverse := by
  refine safe_step.mpr fun _ _ => ⟨trivial, safe_step.mpr fun _ _ => ⟨trivial, ?_⟩⟩
  have hprint : ∀ b : Prop, ∀ [Decidable b], Safe iterations
      (if b then sys (.print .connectError) else sys (.print .connected)) []
      fun _ its => its = [] := by
    intro b _
    split
    · exact fun _ _ => ⟨trivial, rfl⟩
    · exact fun _ _ => ⟨trivial, rfl⟩
  refine Safe.bind (hprint _) fun _ its hits => ?_
  subst hits
  refine safe_step.mpr fun _ _ => ⟨trivial, safe_step.mpr fun _ _ => ⟨trivial, ?_⟩⟩
  refine Safe.bind (echoLoop_plays n) fun _ its h => ?_
  obtain ⟨new, rfl, hnew, hplays⟩ := h
  refine safe_step.mpr fun _ _ => ⟨trivial, safe_step.mpr fun _ _ => ⟨trivial, ?_⟩⟩
  refine safe_step.mpr fun _ _ => ⟨trivial, safe_step.mpr fun _ _ => ⟨trivial, ?_⟩⟩
  refine safe_step.mpr fun _ _ => ⟨trivial, ?_⟩
  show (List.reverse (new.reverse ++ [])).length = n ∧ Plays _ (List.reverse (new.reverse ++ []))
  rw [List.append_nil, List.reverse_reverse]
  exact ⟨hnew, hplays⟩

end

/-! ## Blocks of the stream -/

def consumedBefore (its : List Iteration) (k : Nat) : Nat :=
  ((its.take k).map fun it => it.received.length).sum

/-- The part of the peer's stream that a run has consumed. -/
def stream (its : List Iteration) : List UInt8 := (its.map Iteration.received).flatten

/-- Every byte of block `k` is read in iteration `k`. -/
def Arrives (its : List Iteration) (k : Nat) : Prop :=
  consumedBefore its k ≤ 11 * k ∧ 11 * (k + 1) ≤ consumedBefore its (k + 1)

/-- The 11-byte block `k` of the stream. -/
def block (its : List Iteration) (k : Nat) : List UInt8 := ((stream its).drop (11 * k)).take 11

/-- Every iteration sends "hello world", and reports an error if and only if its
block has not arrived or is another one. -/
def Exact (its : List Iteration) : Prop :=
  ∀ k it, its[k]? = some it → it.request = helloWorld ∧
    (it.reported = true ↔ ¬ (Arrives its k ∧ block its k = helloWorld))

/-- Every read before the last returns "hello world", and the last one returns 11
bytes or bytes that do not begin it. -/
def Whole (its : List Iteration) : Prop :=
  (∀ it ∈ its.dropLast, it.received = helloWorld) ∧
    ∀ it ∈ its.getLast?, it.received.length = 11 ∨ ¬ it.received <+: helloWorld

section

variable {it : Iteration} {its : List Iteration} {buf bs : List UInt8}

theorem consumedBefore_cons (it : Iteration) (its : List Iteration) (k : Nat) :
    consumedBefore (it :: its) (k + 1) = it.received.length + consumedBefore its k := rfl

/-- After a whole block the rest of the run is a run of its own. -/
theorem exact_cons (hlen : it.received.length = 11) : Exact (it :: its) ↔
    (it.request = helloWorld ∧ (it.reported = true ↔ it.received ≠ helloWorld)) ∧ Exact its := by
  have hfirst : Arrives (it :: its) 0 ∧ block (it :: its) 0 = it.received := by
    refine ⟨⟨Nat.zero_le _, ?_⟩, ?_⟩
    · show 11 ≤ it.received.length + 0
      omega
    · show (it.received ++ stream its).take 11 = it.received
      rw [← hlen, List.take_left]
  have harrives : ∀ k, Arrives (it :: its) (k + 1) ↔ Arrives its k := by
    intro k
    rw [Arrives, Arrives, consumedBefore_cons, consumedBefore_cons, hlen]
    omega
  have hblock : ∀ k, block (it :: its) (k + 1) = block its k := by
    intro k
    rw [block, block, show stream (it :: its) = it.received ++ stream its from rfl, Nat.mul_succ,
      Nat.add_comm, ← hlen, List.drop_length_add_append]
  constructor
  · intro h
    obtain ⟨hrequest, hreported⟩ := h 0 it rfl
    refine ⟨⟨hrequest, hreported.trans ?_⟩, fun k it' hk => ?_⟩
    · rw [hfirst.2]
      exact not_congr ⟨fun h => h.2, fun h => ⟨hfirst.1, h⟩⟩
    · have hit := h (k + 1) it' hk
      rwa [harrives, hblock] at hit
  · rintro ⟨⟨hrequest, hreported⟩, h⟩ k it' hk
    cases k with
    | zero =>
        obtain rfl := Option.some.inj hk
        refine ⟨hrequest, hreported.trans ?_⟩
        rw [hfirst.2]
        exact not_congr ⟨fun h => ⟨hfirst.1, h⟩, fun h => h.2⟩
    | succ k =>
        rw [harrives, hblock]
        exact h k it' hk

theorem not_arrives_zero (hlen : it.received.length < 11) (its : List Iteration) :
    ¬ Arrives (it :: its) 0 := by
  intro h
  have hread : 11 ≤ it.received.length + 0 := h.2
  omega

def Greets (buf : List UInt8) : Prop := ∃ rest, buf = helloWorld ++ 0 :: rest

theorem Greets.cString (h : Greets buf) : cString buf = helloWorld := by
  obtain ⟨rest, rfl⟩ := h
  exact cString_terminated (by decide) rest

/-- A beginning of "hello world" leaves the buffer as it was. -/
theorem Greets.overlay (h : Greets buf) (hbs : bs <+: helloWorld) : overlay bs buf = buf := by
  obtain ⟨rest, rfl⟩ := h
  obtain ⟨tail, htail⟩ := hbs
  rw [Bytes.overlay, ← htail, List.append_assoc, List.drop_left]

/-- The check after a read sees whether the bytes read begin "hello world". -/
theorem Greets.check_iff (h : Greets buf) (hlen : bs.length ≤ 11) :
    Bytes.cString (Bytes.overlay bs buf) = helloWorld ↔ bs <+: helloWorld := by
  constructor
  · intro hstring
    have hhello : helloWorld <+: Bytes.overlay bs buf := hstring ▸ List.takeWhile_prefix _
    exact List.prefix_of_prefix_length_le (List.prefix_append bs _) hhello hlen
  · intro hbs
    rw [h.overlay hbs]
    exact h.cString

theorem prefix_helloWorld_iff (hlen : bs.length = 11) : bs <+: helloWorld ↔ bs = helloWorld :=
  ⟨fun h => h.eq_of_length hlen, fun h => h ▸ List.prefix_refl _⟩

theorem exact_last (hrequest : it.request = helloWorld)
    (hreported : it.reported = true ↔ ¬ it.received <+: helloWorld)
    (hlen : it.received.length ≤ 11) : Exact [it] ↔ Whole [it] := by
  have hwhole : Whole [it] ↔ it.received.length = 11 ∨ ¬ it.received <+: helloWorld := by
    simp [Whole]
  rw [hwhole]
  by_cases hfull : it.received.length = 11
  · rw [exact_cons hfull]
    refine iff_of_true ⟨⟨hrequest, ?_⟩, nofun⟩ (.inl hfull)
    rw [hreported, prefix_helloWorld_iff hfull]
  · have hno := not_arrives_zero (Nat.lt_of_le_of_ne hlen hfull) []
    constructor
    · intro h
      exact .inr (hreported.mp ((h 0 it rfl).2.mpr fun harrives => hno harrives.1))
    · intro h k it' hk
      cases k with
      | succ k => cases hk
      | zero =>
          obtain rfl := Option.some.inj hk
          have hprefix := h.resolve_left hfull
          exact ⟨hrequest, iff_of_true (hreported.mpr hprefix) fun harrives => hno harrives.1⟩

/-- The echo check is exact on the runs whose reads return whole blocks. -/
theorem Plays.exact_iff (hbuf : Greets buf) (h : Plays buf its) : Exact its ↔ Whole its := by
  induction its generalizing buf with
  | nil => exact ⟨fun _ => ⟨nofun, nofun⟩, fun _ => nofun⟩
  | cons it its ih =>
      obtain ⟨hrequest, hlen, hreported, hrest⟩ := h
      rw [hbuf.cString] at hrequest hlen
      rw [ne_eq, hbuf.check_iff hlen] at hreported
      cases its with
      | nil => exact exact_last hrequest hreported hlen
      | cons next its =>
          by_cases hecho : it.received = helloWorld
          · have hprefix : it.received <+: helloWorld := hecho ▸ List.prefix_refl _
            have hfull : it.received.length = 11 := by rw [hecho]; rfl
            rw [hbuf.overlay hprefix] at hrest
            have hwhole : Whole (it :: next :: its) ↔ Whole (next :: its) := by
              simp [Whole, hecho]
            rw [exact_cons hfull, hwhole, ih hbuf hrest, hreported, hecho]
            exact and_iff_right ⟨hrequest, by simp⟩
          · refine iff_of_false (fun hexact => ?_) fun hwhole => ?_
            · -- the next request is right only after a beginning of the echo
              have hnext := (hexact 1 next rfl).1
              rw [hrest.1, hbuf.check_iff hlen] at hnext
              have hfirst := (hexact 0 it rfl).2
              by_cases hfull : it.received.length = 11
              · exact hecho ((prefix_helloWorld_iff hfull).mp hnext)
              · refine hreported.mp (hfirst.mpr fun harrives => ?_) hnext
                exact not_arrives_zero (Nat.lt_of_le_of_ne hlen hfull) _ harrives.1
            · exact hecho (hwhole.1 it (by simp))

theorem greets_greeting (fresh : Vector UInt8 64) : Greets (greeting fresh) :=
  ⟨fresh.toList.drop 12, rfl⟩

end

/-! ## Whole runs -/

/-- In a finished run of `n` iterations the requests and the error reports are
right if and only if the reads before the last return "hello world" and the last
one does not return a proper beginning of it. -/
theorem clientThread_exact_iff {n : Nat} {fresh : Vector UInt8 64} {t : List (Event Call Reply)}
    (hrun : Runs (clientThread n fresh) t (ret 0)) (hlegal : iterations.Legal [] t) :
    Exact (iterationsOf t) ↔ Whole (iterationsOf t) :=
  Plays.exact_iff (greets_greeting fresh) ((clientThread_plays n fresh).runs hrun hlegal).2.2

/-! ## A peer whose echo is cut in two -/

/-- Every call succeeds, and the reads return what the list says. -/
def scripted : (c : Call) → List (List UInt8) → Option (Reply c × List (List UInt8))
  | .socket, l => some ((3 : Int), l)
  | .connect .., l | .close .., l => some ((0 : Int), l)
  | .write _ data, l => some ((data.length : Int), l)
  | .read .., bs :: l => some (ReadReply.got bs, l)
  | .read .., [] => some (ReadReply.got [], [])
  | .getTimeByUSec, l => some ((250 : Int), l)
  | .clockBegin, l | .clockStop, l | .clockResume, l | .print .., l => some ((), l)

def scriptedRun (n : Nat) (reads : List (List UInt8)) : List (Event Call Reply) :=
  (play scripted (clientThread n (Vector.replicate 64 0)) reads).1

theorem clientThread_exact_iff_whole :
    Exact (iterationsOf (scriptedRun 2 [helloWorld, helloWorld])) ↔
      Whole (iterationsOf (scriptedRun 2 [helloWorld, helloWorld])) :=
  clientThread_exact_iff
    (runs_play scripted (clientThread 2 (Vector.replicate 64 0)) [helloWorld, helloWorld])
    (by decide)

/-- The echoes of two requests, the first one cut after five bytes. -/
def cutEcho : List (List UInt8) := [helloWorld.take 5, helloWorld.drop 5 ++ helloWorld.take 5]

/-- The peer sends back what it was sent, but the first iteration ends with five
bytes of its block and reports nothing. -/
theorem cutEcho_not_exact :
    Runs (clientThread 2 (Vector.replicate 64 0)) (scriptedRun 2 cutEcho) (ret 0) ∧
      iterations.Legal [] (scriptedRun 2 cutEcho) ∧
      stream (iterationsOf (scriptedRun 2 cutEcho)) <+:
        ((iterationsOf (scriptedRun 2 cutEcho)).map Iteration.request).flatten ∧
      ¬ Exact (iterationsOf (scriptedRun 2 cutEcho)) := by
  refine ⟨runs_play scripted _ _, by decide, by decide, fun hexact => ?_⟩
  have hfirst := (hexact 0 ⟨helloWorld, helloWorld.take 5, false⟩ rfl).2
  have hreported : false = true := hfirst.mpr fun harrives => absurd harrives.1.2 (by decide)
  cases hreported

end Net
end CommSpeed
