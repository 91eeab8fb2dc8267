/-
The handshake of the two roles, as a protocol.

Each side works through a script of marks.  Between two marks it has consumed as
many bytes of its peer's stream as it has sent itself, but how the reads divide
the stream is open, and a read may take bytes of a later sync.  The adapter
executes the posted requests at any time of its own.  The state of a side is how
far it is in its script, how much it has sent and consumed, how many of its
requests are executed, and what its message buffer shows.

`CommSpeed/Rdma/Barrier.lean` shows that two programs of `rc_example.c` connected
by byte streams are simulated by this protocol.
-/
import Mathlib.Data.List.Infix
import CommSpeed.System.Transition
import CommSpeed.Rdma.Types

namespace CommSpeed
namespace Rdma

/-! ## Scripts -/

inductive Kind
  | recv
  | op (opcode : WrOpcode)
  deriving DecidableEq

/-- What a side does that the other side or the adapter depends on. -/
inductive Mark
  | allocated
  | cleared
  | stored (text : List UInt8)
  | printed (line : BufLine)
  | wrote (n : Nat)
  | decoded
  | moved (state : QpState)
  | posted (k : Kind)
  | reaped (k : Kind)
  deriving DecidableEq

/-- The marks of `connect_qp`, with the receive request of the client. -/
def connectMarks (recv : List Mark) : List Mark :=
  .wrote 40 :: .decoded :: .moved .init :: (recv ++ [.moved .rtr, .moved .rts, .wrote 1])

def rdmaMarks : List Mark :=
  [.posted (.op .rdmaRead), .reaped (.op .rdmaRead), .printed .contentsOfServersBuffer,
    .stored rdmamsgw, .printed .replaceItWith, .posted (.op .rdmaWrite), .reaped (.op .rdmaWrite)]

def clientScript : List Mark :=
  .allocated :: .cleared :: .cleared :: (connectMarks [.posted .recv] ++
    .reaped .recv :: .printed .messageIs :: .wrote 1 :: (rdmaMarks ++ [.wrote 1]))

def serverScript : List Mark :=
  .allocated :: .cleared :: .stored msg :: .stored msg :: .printed .goingToSend ::
    (connectMarks [] ++ [.posted (.op .send), .reaped (.op .send), .stored rdmamsgr, .wrote 1,
      .wrote 1, .printed .contentsOfServerBuffer])

namespace Mark

def bytes : Mark → Nat
  | wrote n => n
  | _ => 0

def request : Mark → Option Kind
  | posted k => some k
  | _ => none

def isReaped : Mark → Bool
  | reaped _ => true
  | _ => false

def textAfter (t : Option (List UInt8)) : Mark → Option (List UInt8)
  | allocated => none
  | cleared => some []
  | stored s => some s
  | _ => t

def line : Mark → Option BufLine
  | printed line => some line
  | _ => none

def setsText : Mark → Bool
  | allocated | cleared | stored _ => true
  | _ => false

end Mark

/-- The bytes a side has sent when it has made these marks. -/
def bytes (l : List Mark) : Nat := (l.map Mark.bytes).sum

def requests (l : List Mark) : List Kind := l.filterMap Mark.request

def reapedCount (l : List Mark) : Nat := l.countP Mark.isReaped

/-- The bytes a side can have sent at this place of its script: a `write` that is
short sends less than it was given. -/
def capacity (script l : List Mark) : Nat :=
  bytes l + (match script.drop l.length with
    | .wrote n :: _ => n - 1
    | _ => 0)

def lineText : BufLine → List UInt8
  | .goingToSend | .messageIs => msg
  | .contentsOfServersBuffer => rdmamsgr
  | .replaceItWith | .contentsOfServerBuffer => rdmamsgw

/-- The output of a side that has made these marks, if every line is right. -/
def prints (l : List Mark) : List (BufLine × Option (List UInt8)) :=
  l.filterMap fun mk => mk.line.map fun line => (line, some (lineText line))

@[simp] theorem bytes_append (l : List Mark) (mk : Mark) :
    bytes (l ++ [mk]) = bytes l + mk.bytes := by
  simp [bytes]

@[simp] theorem requests_append (l : List Mark) (mk : Mark) :
    requests (l ++ [mk]) = requests l ++ mk.request.toList := by
  cases h : mk.request <;> simp [requests, h]

@[simp] theorem reapedCount_append (l : List Mark) (mk : Mark) :
    reapedCount (l ++ [mk]) = reapedCount l + if mk.isReaped then 1 else 0 := by
  simp [reapedCount, List.countP_cons]

theorem prints_append (l : List Mark) (mk : Mark) :
    prints (l ++ [mk]) =
      prints l ++ (mk.line.map fun line => (line, some (lineText line))).toList := by
  cases h : mk.line <;> simp [prints, h]

theorem drop_of_prefix {script l : List Mark} {mk : Mark} (h : l ++ [mk] <+: script) :
    ∃ rest, script.drop l.length = mk :: rest := by
  obtain ⟨rest, rfl⟩ := h
  exact ⟨rest, by simp⟩

/-- A fact about every place of a script, checked place by place. -/
theorem every_place {script l : List Mark} {P : List Mark → Prop}
    (h : ∀ l ∈ script.inits, P l) (hl : l <+: script) : P l :=
  h l ((List.mem_inits l script).mpr hl)

/-! ## The protocol -/

structure Party where
  done : List Mark := []
  sent : Nat := 0
  consumed : Nat := 0
  executed : Nat := 0
  /-- The string in the message buffer, where it is known. -/
  text : Option (List UInt8) := none
  printed : List (BufLine × Option (List UInt8)) := []

def Party.make (X : Party) (mk : Mark) : Party :=
  { X with
    done := X.done ++ [mk],
    sent := X.sent + mk.bytes,
    text := mk.textAfter X.text,
    printed := X.printed ++ (mk.line.map fun line => (line, X.text)).toList }

/-- A step of a side `X` with peer `Y`, or of the adapter on a request of `X`. -/
inductive Move (script : List Mark) (aimed : Prop) : Party → Party → Party → Party → Prop
  | mark {X Y mk} (hscript : X.done ++ [mk] <+: script) (hheard : bytes X.done ≤ X.consumed)
      (hsent : ∀ n, mk = .wrote n → X.sent = bytes X.done)
      (hreaped : mk.isReaped → reapedCount X.done < X.executed) :
      Move script aimed X Y (X.make mk) Y
  | short {X Y n k} (hscript : X.done ++ [.wrote n] <+: script) (hsent : X.sent = bytes X.done)
      (hk : k < n) : Move script aimed X Y { X with sent := X.sent + k } Y
  | hear {X Y k} (h : X.consumed + k ≤ Y.sent) :
      Move script aimed X Y { X with consumed := X.consumed + k } Y
  | send {X Y} (hx : (requests X.done)[X.executed]? = some (.op .send))
      (hy : (requests Y.done)[Y.executed]? = some .recv) :
      Move script aimed X Y { X with executed := X.executed + 1 }
        { Y with executed := Y.executed + 1, text := X.text }
  | read {X Y t} (hx : (requests X.done)[X.executed]? = some (.op .rdmaRead))
      (ht : aimed → t = Y.text) :
      Move script aimed X Y { X with executed := X.executed + 1, text := t } Y
  | write {X Y t} (hx : (requests X.done)[X.executed]? = some (.op .rdmaWrite))
      (ht : aimed → t = X.text) :
      Move script aimed X Y { X with executed := X.executed + 1 } { Y with text := t }

/-- Both sides.  `aimed` says that the remote address the client works with is
the server's message buffer. -/
structure Talk where
  client : Party := {}
  server : Party := {}
  aimed : Prop := True

def handshake : TransitionSystem Talk where
  init a := a.client = {} ∧ a.server = {}
  step a a' := (a'.aimed → a.aimed) ∧
    (Move clientScript a.aimed a.client a.server a'.client a'.server ∨
      Move serverScript a.aimed a.server a.client a'.server a'.client)

/-! ## Counting bytes and requests -/

structure Party.Inv (script : List Mark) (X Y : Party) : Prop where
  place : X.done <+: script
  sent : X.sent ≤ capacity script X.done
  heard : bytes X.done.dropLast ≤ X.consumed
  consumed : X.consumed ≤ Y.sent
  reaped : reapedCount X.done ≤ X.executed
  executed : X.executed ≤ (requests X.done).length

theorem bytes_le_capacity (script l : List Mark) : bytes l ≤ capacity script l :=
  Nat.le_add_right _ _

theorem Move.inv {script script' : List Mark} {aimed : Prop} {X Y X' Y' : Party}
    (h : Move script aimed X Y X' Y') (hX : X.Inv script Y) (hY : Y.Inv script' X) :
    X'.Inv script Y' ∧ Y'.Inv script' X' := by
  cases h with
  | @mark mk hscript hheard hsent hreaped =>
      obtain ⟨rest, hrest⟩ := drop_of_prefix hscript
      have hcap : X.sent + mk.bytes ≤ bytes X.done + mk.bytes := by
        have hle := hX.sent
        rw [capacity, hrest] at hle
        cases mk with
        | wrote n => rw [hsent n rfl]
        | _ => exact hle
      refine ⟨⟨hscript, ?_, ?_, hX.consumed, ?_, ?_⟩,
        { hY with consumed := Nat.le_add_right_of_le hY.consumed }⟩
      · have hle := bytes_le_capacity script (X.done ++ [mk])
        rw [bytes_append] at hle
        exact hcap.trans hle
      · rw [Party.make, List.dropLast_concat]
        exact hheard
      · rw [Party.make, reapedCount_append]
        have := hX.reaped
        split
        · rename_i hmk
          exact hreaped hmk
        · exact this
      · rw [Party.make, requests_append, List.length_append]
        exact Nat.le_add_right_of_le hX.executed
  | @short n k hscript hsent hk =>
      obtain ⟨rest, hrest⟩ := drop_of_prefix hscript
      refine ⟨{ hX with sent := ?_ }, { hY with consumed := Nat.le_add_right_of_le hY.consumed }⟩
      rw [capacity, hrest, hsent]
      exact Nat.add_le_add_left (Nat.le_sub_one_of_lt hk) _
  | hear h =>
      exact ⟨{ hX with heard := Nat.le_add_right_of_le hX.heard, consumed := h },
        { hY with }⟩
  | send hx hy =>
      obtain ⟨hltX, -⟩ := List.getElem?_eq_some_iff.mp hx
      obtain ⟨hltY, -⟩ := List.getElem?_eq_some_iff.mp hy
      exact ⟨{ hX with reaped := Nat.le_succ_of_le hX.reaped, executed := hltX },
        { hY with reaped := Nat.le_succ_of_le hY.reaped, executed := hltY }⟩
  | read hx =>
      obtain ⟨hlt, -⟩ := List.getElem?_eq_some_iff.mp hx
      exact ⟨{ hX with reaped := Nat.le_succ_of_le hX.reaped, executed := hlt }, { hY with }⟩
  | write hx =>
      obtain ⟨hlt, -⟩ := List.getElem?_eq_some_iff.mp hx
      exact ⟨{ hX with reaped := Nat.le_succ_of_le hX.reaped, executed := hlt }, { hY with }⟩

/-! ## The order of the two sides -/

/-- What the message buffer of the client shows from its first request on. -/
def clientText (l : List Mark) (executed : Nat) : List UInt8 :=
  if .stored rdmamsgw ∈ l then rdmamsgw else if 2 ≤ executed then rdmamsgr else msg

/-- What the message buffer of the server shows once it is filled. -/
def serverText (l : List Mark) (clientExecuted : Nat) : List UInt8 :=
  if 3 ≤ clientExecuted then rdmamsgw else if .stored rdmamsgr ∈ l then rdmamsgr else msg

theorem clientText_append {l : List Mark} {mk : Mark} (h : mk ≠ .stored rdmamsgw) (n : Nat) :
    clientText (l ++ [mk]) n = clientText l n := by
  have hmem : Mark.stored rdmamsgw ∈ l ++ [mk] ↔ Mark.stored rdmamsgw ∈ l := by
    simp [Ne.symm h]
  rw [clientText, clientText, if_congr hmem rfl rfl]

theorem serverText_append {l : List Mark} {mk : Mark} (h : mk ≠ .stored rdmamsgr) (n : Nat) :
    serverText (l ++ [mk]) n = serverText l n := by
  have hmem : Mark.stored rdmamsgr ∈ l ++ [mk] ↔ Mark.stored rdmamsgr ∈ l := by
    simp [Ne.symm h]
  rw [serverText, serverText, if_congr hmem rfl rfl]

section Places

variable {l : List Mark}

/-- What is known of the client at every place of its script. -/
structure ClientPlace (l : List Mark) : Prop where
  ready : 41 ≤ capacity clientScript l → .posted .recv ∈ l ∧ .moved .rts ∈ l
  written : 43 ≤ capacity clientScript l → .reaped (.op .rdmaWrite) ∈ l
  heardR : .posted (.op .rdmaRead) ∈ l → 42 ≤ bytes l.dropLast
  decoded : .decoded ∈ l → 40 ≤ bytes l.dropLast
  kinds : requests l <+: [.recv, .op .rdmaRead, .op .rdmaWrite]
  read : 2 ≤ (requests l).length → .posted (.op .rdmaRead) ∈ l
  stored : .stored rdmamsgw ∈ l → 2 ≤ reapedCount l
  writes : 3 ≤ (requests l).length → .stored rdmamsgw ∈ l
  reapedWrite : .reaped (.op .rdmaWrite) ∈ l → 3 ≤ reapedCount l
  text : ∀ mk ∈ l.getLast?, mk.setsText → requests l = [] ∨ mk = .stored rdmamsgw
  prints : ∀ mk ∈ l.getLast?, ∀ line ∈ mk.line, 0 < reapedCount l ∧
    reapedCount l = (requests l).length ∧ lineText line = clientText l (reapedCount l)

theorem clientPlace (hl : l <+: clientScript) : ClientPlace l := by
  constructor
  · exact every_place (P := fun l => 41 ≤ capacity clientScript l →
      .posted .recv ∈ l ∧ .moved .rts ∈ l) (by decide) hl
  · exact every_place (P := fun l => 43 ≤ capacity clientScript l →
      .reaped (.op .rdmaWrite) ∈ l) (by decide) hl
  · exact every_place (P := fun l => .posted (.op .rdmaRead) ∈ l → 42 ≤ bytes l.dropLast)
      (by decide) hl
  · exact every_place (P := fun l => .decoded ∈ l → 40 ≤ bytes l.dropLast) (by decide) hl
  · exact every_place (P := fun l => requests l <+: [.recv, .op .rdmaRead, .op .rdmaWrite])
      (by decide) hl
  · exact every_place (P := fun l => 2 ≤ (requests l).length → .posted (.op .rdmaRead) ∈ l)
      (by decide) hl
  · exact every_place (P := fun l => .stored rdmamsgw ∈ l → 2 ≤ reapedCount l) (by decide) hl
  · exact every_place (P := fun l => 3 ≤ (requests l).length → .stored rdmamsgw ∈ l)
      (by decide) hl
  · exact every_place (P := fun l => .reaped (.op .rdmaWrite) ∈ l → 3 ≤ reapedCount l)
      (by decide) hl
  · exact every_place (P := fun l => ∀ mk ∈ l.getLast?, mk.setsText → requests l = [] ∨
      mk = .stored rdmamsgw) (by decide) hl
  · exact every_place (P := fun l => ∀ mk ∈ l.getLast?, ∀ line ∈ mk.line, 0 < reapedCount l ∧
      reapedCount l = (requests l).length ∧ lineText line = clientText l (reapedCount l))
      (by decide) hl

structure ServerPlace (l : List Mark) : Prop where
  allocated : .allocated ∈ l.getLast? → capacity serverScript l.dropLast = 0
  heardQ : .posted (.op .send) ∈ l → 41 ≤ bytes l.dropLast
  copied : 42 ≤ capacity serverScript l → .stored rdmamsgr ∈ l
  heardW : .printed .contentsOfServerBuffer ∈ l → 43 ≤ bytes l.dropLast
  kinds : requests l <+: [.op .send]
  filled : requests l ≠ [] → .stored msg ∈ l
  stored : .stored rdmamsgr ∈ l → 1 ≤ reapedCount l
  order : .stored rdmamsgr ∈ l → .stored msg ∈ l
  text : ∀ mk ∈ l.getLast?, mk.setsText → .stored msg ∉ l ∨
    (mk = .stored msg ∧ .stored rdmamsgr ∉ l) ∨
    (mk = .stored rdmamsgr ∧ .stored rdmamsgr ∉ l.dropLast)
  prints : ∀ mk ∈ l.getLast?, ∀ line ∈ mk.line, .stored msg ∈ l ∧
    ((line = .goingToSend ∧ .stored rdmamsgr ∉ l) ∨ mk = .printed .contentsOfServerBuffer)

theorem serverPlace (hl : l <+: serverScript) : ServerPlace l := by
  constructor
  · exact every_place (P := fun l => .allocated ∈ l.getLast? →
      capacity serverScript l.dropLast = 0) (by decide) hl
  · exact every_place (P := fun l => .posted (.op .send) ∈ l → 41 ≤ bytes l.dropLast)
      (by decide) hl
  · exact every_place (P := fun l => 42 ≤ capacity serverScript l → .stored rdmamsgr ∈ l)
      (by decide) hl
  · exact every_place (P := fun l => .printed .contentsOfServerBuffer ∈ l →
      43 ≤ bytes l.dropLast) (by decide) hl
  · exact every_place (P := fun l => requests l <+: [.op .send]) (by decide) hl
  · exact every_place (P := fun l => requests l ≠ [] → .stored msg ∈ l) (by decide) hl
  · exact every_place (P := fun l => .stored rdmamsgr ∈ l → 1 ≤ reapedCount l) (by decide) hl
  · exact every_place (P := fun l => .stored rdmamsgr ∈ l → .stored msg ∈ l) (by decide) hl
  · exact every_place (P := fun l => ∀ mk ∈ l.getLast?, mk.setsText → .stored msg ∉ l ∨
      (mk = .stored msg ∧ .stored rdmamsgr ∉ l) ∨
      (mk = .stored rdmamsgr ∧ .stored rdmamsgr ∉ l.dropLast)) (by decide) hl
  · exact every_place (P := fun l => ∀ mk ∈ l.getLast?, ∀ line ∈ mk.line, .stored msg ∈ l ∧
      ((line = .goingToSend ∧ .stored rdmamsgr ∉ l) ∨ mk = .printed .contentsOfServerBuffer))
      (by decide) hl

/-- What is set before any request refers to it, in either script. -/
structure SetPlace (l : List Mark) : Prop where
  unposted : ∀ mk ∈ l.getLast?, mk = .allocated ∨ mk = .decoded → requests l = []
  undecoded : ∀ mk ∈ l.getLast?, mk = .allocated ∨ mk = .decoded → .decoded ∉ l.dropLast
  text : ∀ mk ∈ l.getLast?, ∀ t ∈ mk.textAfter none, t.length < msgSize ∧ 0 ∉ t

theorem setPlace {script : List Mark} (hscript : script = clientScript ∨ script = serverScript)
    (hl : l <+: script) : SetPlace l := by
  constructor
  · refine every_place (P := fun l => ∀ mk ∈ l.getLast?, mk = .allocated ∨ mk = .decoded →
      requests l = []) ?_ hl
    rcases hscript with rfl | rfl <;> decide
  · refine every_place (P := fun l => ∀ mk ∈ l.getLast?, mk = .allocated ∨ mk = .decoded →
      .decoded ∉ l.dropLast) ?_ hl
    rcases hscript with rfl | rfl <;> decide
  · refine every_place (P := fun l => ∀ mk ∈ l.getLast?, ∀ t ∈ mk.textAfter none,
      t.length < msgSize ∧ 0 ∉ t) ?_ hl
    rcases hscript with rfl | rfl <;> decide

end Places

structure Counts (c s : Party) : Prop where
  client : c.Inv clientScript s
  server : s.Inv serverScript c

namespace Counts

variable {c s : Party} (h : Counts c s)

include h

theorem clientPlace : ClientPlace c.done := Rdma.clientPlace h.client.place

theorem serverPlace : ServerPlace s.done := Rdma.serverPlace h.server.place

/-- A byte that one side has consumed was sent by the other. -/
theorem ready_of_send (hsend : .posted (.op .send) ∈ s.done) :
    .posted .recv ∈ c.done ∧ .moved .rts ∈ c.done :=
  h.clientPlace.ready <| (h.serverPlace.heardQ hsend).trans <| h.server.heard.trans <|
    h.server.consumed.trans h.client.sent

theorem copied_of_read (hread : .posted (.op .rdmaRead) ∈ c.done) : .stored rdmamsgr ∈ s.done :=
  h.serverPlace.copied <| (h.clientPlace.heardR hread).trans <| h.client.heard.trans <|
    h.client.consumed.trans h.server.sent

theorem reaped_of_print (hprint : .printed .contentsOfServerBuffer ∈ s.done) :
    .reaped (.op .rdmaWrite) ∈ c.done :=
  h.clientPlace.written <| (h.serverPlace.heardW hprint).trans <| h.server.heard.trans <|
    h.server.consumed.trans h.client.sent

/-- A server that has yet to allocate its buffer has sent nothing, so the client
has nothing decoded. -/
theorem undecoded_of_alloc (halloc : s.done ++ [.allocated] <+: serverScript) :
    .decoded ∉ c.done := by
  intro hdecoded
  have hnone := (Rdma.serverPlace halloc).allocated (by simp)
  rw [List.dropLast_concat] at hnone
  have hheard := (h.clientPlace.decoded hdecoded).trans h.client.heard
  have hsent := h.client.consumed.trans h.server.sent
  omega

/-- As long as the server has not copied its second message, only the receive of
the client can have been executed. -/
theorem executed_le_one (hcopied : .stored rdmamsgr ∉ s.done) : c.executed ≤ 1 := by
  by_contra hexec
  have hle := h.client.executed
  exact hcopied (h.copied_of_read (h.clientPlace.read (by omega)))

theorem executed_of_print (hprint : .printed .contentsOfServerBuffer ∈ s.done) :
    3 ≤ c.executed :=
  (h.clientPlace.reapedWrite (h.reaped_of_print hprint)).trans h.client.reaped

end Counts

/-! ## What the buffers show -/

structure Shows (c s : Party) : Prop where
  client : 0 < c.executed → c.text = some (clientText c.done c.executed)
  server : .stored msg ∈ s.done → s.text = some (serverText s.done c.executed)
  clientOut : c.printed = prints c.done
  serverOut : s.printed = prints s.done

theorem getElem?_of_kinds {l kinds : List Kind} (h : l <+: kinds) {i : Nat} {k : Kind}
    (hi : l[i]? = some k) : kinds[i]? = some k := by
  obtain ⟨rest, rfl⟩ := h
  obtain ⟨hlt, -⟩ := List.getElem?_eq_some_iff.mp hi
  rw [List.getElem?_append_left hlt, hi]

theorem textAfter_of_not_setsText {mk : Mark} (h : ¬ mk.setsText) (t : Option (List UInt8)) :
    mk.textAfter t = t := by
  cases mk <;> first | rfl | exact absurd rfl h

/-- A line that shows the right text extends an output that is right. -/
theorem prints_make {X : Party} {mk : Mark} (h : X.printed = prints X.done)
    (hline : ∀ line ∈ mk.line, X.text = some (lineText line)) :
    (X.make mk).printed = prints (X.make mk).done := by
  show X.printed ++ _ = prints (X.done ++ [mk])
  rw [prints_append, h]
  cases hmk : mk.line with
  | none => rfl
  | some line => rw [Option.map_some, Option.map_some, hline line hmk]

section

variable {c s : Party} {mk : Mark}

theorem Shows.client_mark (h : Shows c s) (hcounts : Counts (c.make mk) s) :
    Shows (c.make mk) s := by
  have hplace := hcounts.clientPlace
  have hlast : mk ∈ (c.make mk).done.getLast? := by simp [Party.make]
  have hle := hcounts.client.executed
  have htext : 0 < c.executed → mk ≠ .stored rdmamsgw → mk.textAfter c.text = c.text := by
    intro hexec hmk
    refine textAfter_of_not_setsText (fun hsets => ?_) _
    rcases hplace.text mk hlast hsets with hnone | hstored
    · rw [hnone] at hle
      exact absurd hle (Nat.not_le.mpr hexec)
    · exact hmk hstored
  refine ⟨fun hexec => ?_, h.server, prints_make h.clientOut fun line hline => ?_, h.serverOut⟩
  · by_cases hmk : mk = .stored rdmamsgw
    · have hmem : Mark.stored rdmamsgw ∈ (c.make mk).done := by simp [Party.make, hmk]
      rw [clientText, if_pos hmem, hmk]
      rfl
    · exact (htext hexec hmk).trans
        ((h.client hexec).trans (congrArg some (clientText_append hmk _).symm))
  · obtain ⟨hpos, hall, htextOf⟩ := hplace.prints mk hlast line hline
    -- nothing is pending at a line, so every request posted is executed
    have hexec : c.executed = reapedCount (c.make mk).done :=
      le_antisymm (hle.trans hall.ge) hcounts.client.reaped
    have hne : mk ≠ .stored rdmamsgw := by
      rintro rfl
      cases hline
    rw [htextOf, ← hexec, h.client (hexec ▸ hpos)]
    exact congrArg some (clientText_append hne _).symm

theorem Shows.server_mark (h : Shows c s) (hbefore : Counts c s) (hcounts : Counts c (s.make mk)) :
    Shows c (s.make mk) := by
  have hplace := hcounts.serverPlace
  have hlast : mk ∈ (s.make mk).done.getLast? := by simp [Party.make]
  have hold : (s.make mk).done.dropLast = s.done := List.dropLast_concat
  have hmem : ∀ t, Mark.stored t ∈ s.done → Mark.stored t ∈ (s.make mk).done :=
    fun t ht => List.mem_append_left _ ht
  have hnew : Mark.stored msg ∈ (s.make mk).done → ¬ mk.setsText → Mark.stored msg ∈ s.done := by
    intro hin hsets
    rcases List.mem_append.mp hin with hin | hin
    · exact hin
    · rw [List.mem_singleton] at hin
      exact absurd (by rw [← hin]; rfl) hsets
  refine ⟨h.client, fun hfilled => ?_, h.clientOut, prints_make h.serverOut fun line hline => ?_⟩
  · by_cases hsets : mk.setsText
    · -- nothing of the client is executed that could have changed the buffer
      rcases hplace.text mk hlast hsets with hno | ⟨rfl, hno⟩ | ⟨rfl, hno⟩
      · exact absurd hfilled hno
      · have hexec := hbefore.executed_le_one fun hin => hno (hmem _ hin)
        rw [serverText, if_neg (by show ¬ 3 ≤ c.executed; omega), if_neg hno]
        rfl
      · rw [hold] at hno
        have hexec := hbefore.executed_le_one hno
        have hin : Mark.stored rdmamsgr ∈ (s.make (.stored rdmamsgr)).done := by simp [Party.make]
        rw [serverText, if_neg (by show ¬ 3 ≤ c.executed; omega), if_pos hin]
        rfl
    · have hne : mk ≠ .stored rdmamsgr := by
        rintro rfl
        exact hsets rfl
      refine (textAfter_of_not_setsText hsets _).trans ((h.server (hnew hfilled hsets)).trans ?_)
      exact congrArg some (serverText_append hne _).symm
  · have hsets : ¬ mk.setsText := by
      cases mk <;> first | exact Bool.false_ne_true | cases hline
    obtain ⟨hfilled, hwhich⟩ := hplace.prints mk hlast line hline
    rw [h.server (hnew hfilled hsets)]
    rcases hwhich with ⟨rfl, hno⟩ | rfl
    · have hno' : Mark.stored rdmamsgr ∉ s.done := fun hin => hno (hmem _ hin)
      have hexec := hbefore.executed_le_one hno'
      rw [serverText, if_neg (by omega), if_neg hno']
      rfl
    · have hexec := hcounts.executed_of_print (by simp [Party.make])
      obtain rfl := Option.some.inj hline
      rw [serverText, if_pos hexec]
      rfl

theorem request_lt {l : List Mark} {i : Nat} {k : Kind} (h : (requests l)[i]? = some k) :
    i < (requests l).length :=
  (List.getElem?_eq_some_iff.mp h).choose

theorem client_request {i : Nat} {k : Kind} (hc : ClientPlace c.done)
    (h : (requests c.done)[i]? = some k) :
    (i = 0 ∧ k = .recv) ∨ (i = 1 ∧ k = .op .rdmaRead) ∨ (i = 2 ∧ k = .op .rdmaWrite) := by
  have hk := getElem?_of_kinds hc.kinds h
  rcases i with _ | _ | _ | i
  · exact .inl ⟨rfl, (Option.some.inj hk).symm⟩
  · exact .inr (.inl ⟨rfl, (Option.some.inj hk).symm⟩)
  · exact .inr (.inr ⟨rfl, (Option.some.inj hk).symm⟩)
  · cases hk

theorem server_request {i : Nat} {k : Kind} (hs : ServerPlace s.done)
    (h : (requests s.done)[i]? = some k) : i = 0 ∧ k = .op .send := by
  have hk := getElem?_of_kinds hs.kinds h
  rcases i with _ | i
  · exact ⟨rfl, (Option.some.inj hk).symm⟩
  · cases hk

theorem Shows.send (h : Shows c s) (hcounts : Counts c s)
    (hx : (requests s.done)[s.executed]? = some (.op .send))
    (hy : (requests c.done)[c.executed]? = some .recv) :
    Shows { c with executed := c.executed + 1, text := s.text }
      { s with executed := s.executed + 1 } := by
  obtain ⟨hs0, -⟩ := server_request hcounts.serverPlace hx
  have hc0 : c.executed = 0 := by
    rcases client_request hcounts.clientPlace hy with ⟨h0, -⟩ | ⟨-, hk⟩ | ⟨-, hk⟩
    · exact h0
    · cases hk
    · cases hk
  have hfilled : Mark.stored msg ∈ s.done :=
    hcounts.serverPlace.filled fun hnil => by rw [hnil] at hx; cases hx
  have hcopied : Mark.stored rdmamsgr ∉ s.done := fun hin => by
    have := hcounts.serverPlace.stored hin
    have := hcounts.server.reaped
    omega
  have hreplaced : Mark.stored rdmamsgw ∉ c.done := fun hin => by
    have := hcounts.clientPlace.stored hin
    have := hcounts.client.reaped
    omega
  have htext : s.text = some msg := by
    rw [h.server hfilled, serverText, if_neg (by omega), if_neg hcopied]
  refine ⟨fun _ => ?_, fun _ => ?_, h.clientOut, h.serverOut⟩
  · rw [clientText, if_neg hreplaced, if_neg (by show ¬ 2 ≤ c.executed + 1; omega)]
    exact htext
  · rw [serverText, if_neg (by show ¬ 3 ≤ c.executed + 1; omega), if_neg hcopied]
    exact htext

theorem Shows.read (h : Shows c s) (hcounts : Counts c s)
    (hx : (requests c.done)[c.executed]? = some (.op .rdmaRead)) :
    Shows { c with executed := c.executed + 1, text := s.text } s := by
  have hc1 : c.executed = 1 := by
    rcases client_request hcounts.clientPlace hx with ⟨-, hk⟩ | ⟨h1, -⟩ | ⟨-, hk⟩
    · cases hk
    · exact h1
    · cases hk
  have hlt := request_lt hx
  have hcopied := hcounts.copied_of_read (hcounts.clientPlace.read (by omega))
  have hreplaced : Mark.stored rdmamsgw ∉ c.done := fun hin => by
    have := hcounts.clientPlace.stored hin
    have := hcounts.client.reaped
    omega
  have htext : s.text = some rdmamsgr := by
    rw [h.server (hcounts.serverPlace.order hcopied), serverText, if_neg (by omega),
      if_pos hcopied]
  refine ⟨fun _ => ?_, fun _ => ?_, h.clientOut, h.serverOut⟩
  · rw [clientText, if_neg hreplaced, if_pos (by show 2 ≤ c.executed + 1; omega)]
    exact htext
  · rw [serverText, if_neg (by show ¬ 3 ≤ c.executed + 1; omega), if_pos hcopied]
    exact htext

theorem Shows.write (h : Shows c s) (hcounts : Counts c s)
    (hx : (requests c.done)[c.executed]? = some (.op .rdmaWrite)) :
    Shows { c with executed := c.executed + 1 } { s with text := c.text } := by
  have hc2 : c.executed = 2 := by
    rcases client_request hcounts.clientPlace hx with ⟨-, hk⟩ | ⟨-, hk⟩ | ⟨h2, -⟩
    · cases hk
    · cases hk
    · exact h2
  have hlt := request_lt hx
  have hreplaced := hcounts.clientPlace.writes (by omega)
  have htext : c.text = some rdmamsgw := by
    rw [h.client (by omega), clientText, if_pos hreplaced]
  refine ⟨fun _ => ?_, fun _ => ?_, h.clientOut, h.serverOut⟩
  · rw [clientText, if_pos hreplaced]
    exact htext
  · rw [serverText, if_pos (by show 3 ≤ c.executed + 1; omega)]
    exact htext

end

/-! ## Every run -/

structure Talk.Inv (a : Talk) : Prop where
  counts : Counts a.client a.server
  shows : a.aimed → Shows a.client a.server

theorem client_step {a a' : Talk} (ha : a.Inv) (haim : a'.aimed → a.aimed)
    (h : Move clientScript a.aimed a.client a.server a'.client a'.server) : a'.Inv := by
  obtain ⟨c, s, aimed⟩ := a
  obtain ⟨c', s', aimed'⟩ := a'
  obtain ⟨hcounts, hshows⟩ := ha
  dsimp only at h haim hcounts hshows
  have hboth := h.inv hcounts.client hcounts.server
  have hcounts' : Counts c' s' := ⟨hboth.1, hboth.2⟩
  refine ⟨hcounts', fun haimed => ?_⟩
  have hbefore := hshows (haim haimed)
  have hplace := hcounts.clientPlace
  cases h with
  | mark => exact hbefore.client_mark hcounts'
  | short => exact ⟨hbefore.client, hbefore.server, hbefore.clientOut, hbefore.serverOut⟩
  | hear => exact ⟨hbefore.client, hbefore.server, hbefore.clientOut, hbefore.serverOut⟩
  | send hx => rcases client_request hplace hx with ⟨-, hk⟩ | ⟨-, hk⟩ | ⟨-, hk⟩ <;> cases hk
  | read hx ht =>
      rw [ht (haim haimed)]
      exact hbefore.read hcounts hx
  | write hx ht =>
      rw [ht (haim haimed)]
      exact hbefore.write hcounts hx

theorem server_step {a a' : Talk} (ha : a.Inv) (haim : a'.aimed → a.aimed)
    (h : Move serverScript a.aimed a.server a.client a'.server a'.client) : a'.Inv := by
  obtain ⟨c, s, aimed⟩ := a
  obtain ⟨c', s', aimed'⟩ := a'
  obtain ⟨hcounts, hshows⟩ := ha
  dsimp only at h haim hcounts hshows
  have hboth := h.inv hcounts.server hcounts.client
  have hcounts' : Counts c' s' := ⟨hboth.2, hboth.1⟩
  refine ⟨hcounts', fun haimed => ?_⟩
  have hbefore := hshows (haim haimed)
  have hplace := hcounts.serverPlace
  cases h with
  | mark => exact hbefore.server_mark hcounts hcounts'
  | short => exact ⟨hbefore.client, hbefore.server, hbefore.clientOut, hbefore.serverOut⟩
  | hear => exact ⟨hbefore.client, hbefore.server, hbefore.clientOut, hbefore.serverOut⟩
  | send hx hy => exact hbefore.send hcounts hx hy
  | read hx => cases (server_request hplace hx).2
  | write hx => cases (server_request hplace hx).2

theorem handshake_inv {a : Talk} (h : handshake.Reachable a) : a.Inv := by
  refine h.invariant (I := Talk.Inv) ?_ fun a a' ha hstep => ?_
  · rintro ⟨c, s, aimed⟩ ⟨rfl, rfl⟩
    have hclient : ({} : Party).Inv clientScript {} :=
      ⟨List.nil_prefix, Nat.zero_le _, Nat.zero_le _, Nat.zero_le _, Nat.zero_le _, Nat.zero_le _⟩
    have hserver : ({} : Party).Inv serverScript {} :=
      ⟨List.nil_prefix, Nat.zero_le _, Nat.zero_le _, Nat.zero_le _, Nat.zero_le _, Nat.zero_le _⟩
    exact ⟨⟨hclient, hserver⟩, fun _ => ⟨nofun, nofun, rfl, rfl⟩⟩
  · rcases hstep.2 with hmove | hmove
    · exact client_step ha hstep.1 hmove
    · exact server_step ha hstep.1 hmove

end Rdma
end CommSpeed
