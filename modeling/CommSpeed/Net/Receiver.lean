/-
The echo server of `Network.cpp`.

Each turn of `receiveHandler` takes a fresh buffer, reads into it and writes back
the string that the buffer then holds, without looking at what `read` returned.
The buffer is not cleared, so what is written depends on the bytes that were
there before, and `strlen` runs on behind a buffer without a zero byte.

A session is what the handler meets in its turns.  The bytes written back are
those read in exactly the sessions whose received bytes contain no zero and are
followed by one in memory, and in which nothing is received after an empty read.
-/
import CommSpeed.Bytes.Buffer
import CommSpeed.Prog.Basic

namespace CommSpeed
namespace Net

open Bytes Prog

inductive ServerCall
  | accept (fd : Int)
  | newChar (size : Nat)
  | read (fd : Int) (len : Nat)
  | write (fd : Int) (data : List UInt8)

/-- `new char[size]` answers with the memory from the new buffer on, as far as it
can be read. -/
@[reducible] def ServerReply : ServerCall → Type
  | .accept .. | .write .. => Int
  | .newChar .. => List UInt8
  | .read .. => ReadReply

abbrev ServerP := Prog ServerCall ServerReply

abbrev serverSys (c : ServerCall) : ServerP (ServerReply c) := perform c

/-- One turn of the loop of `receiveHandler`.  A `strlen` that meets no zero byte
ends the process. -/
def receiveOnce (clientSockFd : Int) : ServerP Unit := do
  let buf ← serverSys (.newChar 128)
  let r ← serverSys (.read clientSockFd 128)
  let buf := overlay r.bytes buf
  assert (decide (0 ∈ buf))
  let _ ← serverSys (.write clientSockFd (cString buf))

def receiveLoop (clientSockFd : Int) : Nat → ServerP Unit
  | 0 => pure ()
  | n + 1 => do
    receiveOnce clientSockFd
    receiveLoop clientSockFd n

/-- `receiveHandler` for `n` turns of its endless loop. -/
def receiveHandler (serverSockFd : Int) (n : Nat) : ServerP Unit := do
  let clientSockFd ← serverSys (.accept serverSockFd)
  receiveLoop clientSockFd n

/-! ## Sessions -/

/-- What the handler meets in one turn: the memory of the fresh buffer and the
answer of `read`. -/
structure Turn where
  memory : List UInt8
  read : ReadReply
  memory_length : 128 ≤ memory.length
  read_length : read.bytes.length ≤ 128

namespace Turn

def received (t : Turn) : List UInt8 := t.read.bytes

/-- The memory when `strlen` looks at it. -/
def filled (t : Turn) : List UInt8 := overlay t.received t.memory

/-- The received bytes contain no zero and the byte behind them is one. -/
def Clean (t : Turn) : Prop := 0 ∉ t.received ∧ t.memory[t.received.length]? = some 0

instance (t : Turn) : Decidable t.Clean := inferInstanceAs (Decidable (_ ∧ _))

end Turn

/-- The other side of the calls: the turns to come and the bytes written back so
far.  Every `write` takes all its bytes. -/
def client : (c : ServerCall) → List Turn × List UInt8 →
    Option (ServerReply c × (List Turn × List UInt8))
  | .accept _, s => some ((4 : Int), s)
  | .newChar _, (t :: ts, out) => some (t.memory, (t :: ts, out))
  | .read .., (t :: ts, out) => some (t.read, (t :: ts, out))
  | .write _ data, (_ :: ts, out) => some ((data.length : Int), (ts, out ++ data))
  | _, ([], _) => none

/-- The bytes written back after the turns of a session, unless the process has
died. -/
def echoed (ts : List Turn) : Option (List UInt8) :=
  (eval client (receiveHandler 3 ts.length) (ts, [])).map fun x => x.2.2

def received (ts : List Turn) : List UInt8 := (ts.map Turn.received).flatten

/-- After each turn the bytes written back are those read, and from a `read` that
returns 0 or -1 on nothing more is written. -/
structure Faithful (ts : List Turn) : Prop where
  echoes : ∀ k ≤ ts.length, echoed (ts.take k) = some (received (ts.take k))
  quiet : ∀ i (h : i < ts.length), ts[i].read.count ≤ 0 →
    ∀ k, i ≤ k → k ≤ ts.length → echoed (ts.take k) = echoed (ts.take i)

/-! ## What a turn writes -/

def Turn.echo (t : Turn) : Option (List UInt8) :=
  if 0 ∈ t.filled then some (cString t.filled) else none

def echoAll : List Turn → Option (List UInt8)
  | [] => some []
  | t :: ts => t.echo.bind fun a => (echoAll ts).map fun b => a ++ b

section

variable {fd : Int} {t : Turn} {ts : List Turn} {out : List UInt8}

theorem eval_receiveOnce :
    eval client (receiveOnce fd) (t :: ts, out) = t.echo.map fun a => ((), (ts, out ++ a)) := by
  have hassert : ∀ b : Bool, eval client (assert b : ServerP Unit) (t :: ts, out) =
      if b then some ((), (t :: ts, out)) else none := by
    intro b
    cases b <;> rfl
  have hnew : client (.newChar 128) (t :: ts, out) = some (t.memory, (t :: ts, out)) := rfl
  have hread : client (.read fd 128) (t :: ts, out) = some (t.read, (t :: ts, out)) := rfl
  rw [receiveOnce, eval_step hnew, eval_step hread, eval_bind, hassert, Turn.echo]
  change (if decide (0 ∈ t.filled) then _ else _ : Option _).bind _ = _
  by_cases hzero : 0 ∈ t.filled
  · rw [if_pos hzero, if_pos (decide_eq_true hzero)]
    rfl
  · rw [if_neg hzero, if_neg (by simpa using hzero)]
    rfl

theorem eval_receiveLoop :
    eval client (receiveLoop fd ts.length) (ts, out) =
      (echoAll ts).map fun a => ((), ([], out ++ a)) := by
  induction ts generalizing out with
  | nil => simp [receiveLoop, echoAll]
  | cons t ts ih =>
      rw [List.length_cons, receiveLoop, eval_bind, eval_receiveOnce, echoAll]
      cases t.echo with
      | none => rfl
      | some a =>
          rw [Option.map_some, Option.bind_some, Option.bind_some, ih, Option.map_map]
          congr 1
          funext b
          simp

theorem echoed_eq (ts : List Turn) : echoed ts = echoAll ts := by
  have haccept : client (.accept 3) (ts, []) = some ((4 : Int), (ts, [])) := rfl
  rw [echoed, receiveHandler, eval_step haccept, eval_receiveLoop, Option.map_map]
  cases echoAll ts <;> simp

theorem echo_eq_received_iff : t.echo = some t.received ↔ t.Clean := by
  have hbehind : t.memory[t.received.length]? = (t.memory.drop t.received.length).head? := by
    simp
  rw [Turn.Clean, hbehind, Turn.echo, Turn.filled, overlay]
  generalize t.memory.drop t.received.length = rest
  generalize t.received = bs
  constructor
  · intro h
    by_cases hzero : 0 ∈ bs ++ rest
    · rw [if_pos hzero] at h
      have hstring : cString (bs ++ rest) = bs := Option.some.inj h
      have hbs : 0 ∉ bs := by
        rw [← hstring]
        exact zero_notMem_cString _
      refine ⟨hbs, ?_⟩
      -- the string stops behind the received bytes, so the next byte is a zero
      rw [cString_append hbs] at hstring
      cases rest with
      | nil => simp [hbs] at hzero
      | cons b rest => simpa [cString] using hstring
    · rw [if_neg hzero] at h
      cases h
  · rintro ⟨hbs, hrest⟩
    obtain ⟨rest, rfl⟩ := List.head?_eq_some_iff.mp hrest
    rw [if_pos (by simp), cString_terminated hbs]

/-! ## Sessions without a difference -/

theorem Turn.received_eq_nil_iff : t.received = [] ↔ t.read.count ≤ 0 := by
  rw [Turn.received]
  cases t.read with
  | failed => simp [ReadReply.bytes]
  | got bs => simp

/-- After every turn the bytes agree if and only if each turn writes what it reads. -/
theorem echoAll_take_iff :
    (∀ k ≤ ts.length, echoAll (ts.take k) = some (received (ts.take k))) ↔
      ∀ t ∈ ts, t.echo = some t.received := by
  induction ts with
  | nil => simp [echoAll, received]
  | cons t ts ih =>
      have hcons : ∀ k, received (t :: ts.take k) = t.received ++ received (ts.take k) := by
        intro k
        simp [received]
      constructor
      · intro h
        have hone : t.echo = some t.received := by
          have h1 := h 1 (by simp)
          simpa [echoAll, received] using h1
        have hrest : ∀ k ≤ ts.length, echoAll (ts.take k) = some (received (ts.take k)) := by
          intro k hk
          have hk1 := h (k + 1) (by simpa using hk)
          rw [List.take_succ_cons, echoAll, hone, hcons, Option.bind_some] at hk1
          simpa using hk1
        simpa [hone] using ih.mp hrest
      · intro h k hk
        cases k with
        | zero => simp [echoAll, received]
        | succ k =>
            have hrest := ih.mpr (fun t' ht' => h t' (List.mem_cons_of_mem t ht')) k
              (by simpa using hk)
            rw [List.take_succ_cons, echoAll, h t List.mem_cons_self, hcons, Option.bind_some,
              hrest, Option.map_some]

theorem received_eq_nil_iff : received ts = [] ↔ ∀ t ∈ ts, t.received = [] := by
  simp [received]

theorem received_take_iff (i : Nat) :
    (∀ k, i ≤ k → k ≤ ts.length → received (ts.take k) = received (ts.take i)) ↔
      ∀ t ∈ ts.drop i, t.received = [] := by
  have hsplit : ∀ n, received (ts.take (i + n)) =
      received (ts.take i) ++ received ((ts.drop i).take n) := by
    intro n
    rw [List.take_add]
    simp [received]
  constructor
  · intro h
    by_cases hi : i ≤ ts.length
    · obtain ⟨n, hn⟩ := Nat.exists_eq_add_of_le hi
      have htake : (ts.drop i).take n = ts.drop i :=
        List.take_of_length_le (by rw [List.length_drop]; omega)
      have hall := h (i + n) (by omega) hn.ge
      rw [hsplit, htake] at hall
      exact received_eq_nil_iff.mp (List.append_right_eq_self.mp hall)
    · rw [List.drop_of_length_le (by omega)]
      simp
  · intro h k hik _
    obtain ⟨n, rfl⟩ := Nat.exists_eq_add_of_le hik
    have hnil : received ((ts.drop i).take n) = [] :=
      received_eq_nil_iff.mpr fun t ht => h t (List.mem_of_mem_take ht)
    rw [hsplit, hnil, List.append_nil]

theorem silence_iff :
    (∀ i (h : i < ts.length), ts[i].received = [] → ∀ t ∈ ts.drop i, t.received = []) ↔
      ts.Pairwise fun a b => a.received = [] → b.received = [] := by
  rw [List.pairwise_iff_getElem]
  constructor
  · intro h i j hi hj hij hempty
    apply h i hi hempty
    exact List.mem_drop_iff_getElem.mpr ⟨j - i, by omega, by congr 1; omega⟩
  · intro h i hi hempty t ht
    obtain ⟨n, hn, rfl⟩ := List.mem_drop_iff_getElem.mp ht
    by_cases hzero : n = 0
    · subst hzero
      exact hempty
    · exact h i (i + n) hi (by omega) (by omega) hempty

end

/-- The server is faithful in a session if and only if every turn is clean and
nothing is received after an empty read. -/
theorem receiveHandler_faithful_iff (ts : List Turn) :
    Faithful ts ↔ (∀ t ∈ ts, t.Clean) ∧
      ts.Pairwise fun a b => a.received = [] → b.received = [] := by
  have hclean : (∀ k ≤ ts.length, echoed (ts.take k) = some (received (ts.take k))) ↔
      ∀ t ∈ ts, t.Clean := by
    simp only [echoed_eq, echoAll_take_iff, echo_eq_received_iff]
  have hquiet : (∀ k ≤ ts.length, echoed (ts.take k) = some (received (ts.take k))) →
      ((∀ i (h : i < ts.length), ts[i].read.count ≤ 0 →
        ∀ k, i ≤ k → k ≤ ts.length → echoed (ts.take k) = echoed (ts.take i)) ↔
      ts.Pairwise fun a b => a.received = [] → b.received = []) := by
    intro hechoes
    rw [← silence_iff]
    refine forall₂_congr fun i hi => ?_
    rw [← Turn.received_eq_nil_iff, ← received_take_iff]
    refine imp_congr_right fun _ => forall₃_congr fun k hik hk => ?_
    rw [hechoes k hk, hechoes i hi.le, Option.some_inj]
  constructor
  · rintro ⟨hechoes, hsilent⟩
    exact ⟨hclean.mp hechoes, (hquiet hechoes).mp hsilent⟩
  · rintro ⟨hturns, hpairs⟩
    have hechoes := hclean.mpr hturns
    exact ⟨hechoes, (hquiet hechoes).mpr hpairs⟩

/-- The client sends "hi" and the fresh buffer holds 'x' in its first three bytes. -/
def leftoverTurn : Turn :=
  { memory := charBytes ['x', 'x', 'x'] ++ List.replicate 125 0
    read := .got (charBytes ['h', 'i'])
    memory_length := by simp [charBytes]
    read_length := by decide }

/-- The server answers "hix". -/
theorem leftoverTurn_unfaithful :
    echoed [leftoverTurn] = some (charBytes ['h', 'i', 'x']) ∧ ¬ Faithful [leftoverTurn] := by
  have hecho : echoed [leftoverTurn] = some (charBytes ['h', 'i', 'x']) := by decide
  refine ⟨hecho, fun h => ?_⟩
  have hone := h.echoes 1 le_rfl
  rw [List.take_succ_cons, List.take_zero, hecho] at hone
  revert hone
  decide

end Net
end CommSpeed
