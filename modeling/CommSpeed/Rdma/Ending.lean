/-
`sock_sync_data` on a stream that ends.

The stream is a finite sequence of nonempty reads followed by one last answer for
ever: -1, or 0 when the peer has closed the connection.  The loop of
`sock_sync_data` stores that answer in `rc` and goes on while `rc` is 0, so it
never leaves when the peer closes early.

The first part is the exact condition under which a call ends and is seen to have
failed by its caller.  The second part follows whole runs of `rcmain`: as long as
an exchange lacks bytes nothing but reads and the closing calls is made, and the
result is 1.
-/
import CommSpeed.Rdma.Main

namespace CommSpeed
namespace Rdma

open Bytes Prog

/-- The reads that bring bytes and the answer of every later read. -/
structure EndingStream where
  chunks : List (List UInt8)
  last : ReadReply
  chunks_pos : ∀ c ∈ chunks, 0 < c.length
  last_final : last.count ≤ 0

def EndingStream.size (s : EndingStream) : Nat := s.chunks.flatten.length

/-- A peer whose stream ends in `last`; its state is the reads still to come.  The
one `write` of an exchange returns `w`. -/
def endingPeer (w : Int) (last : ReadReply) :
    (c : Call) → List (List UInt8) → Option (Reply c × List (List UInt8))
  | .write .., chunks => some (w, chunks)
  | .read .., [] => some (last, [])
  | .read .., c :: cs => some (.got c, cs)
  | _, _ => none

/-- The two ways the return code of `sock_sync_data` is tested. -/
inductive Caller
  /-- `connect_qp` after the connection data. -/
  | conData
  /-- `connect_qp` and `rcmain` after a one-byte sync. -/
  | letter
  deriving DecidableEq

def Caller.rejects : Caller → Int → Prop
  | .conData, rc => rc < 0
  | .letter, rc => rc ≠ 0

/-- The call returns after finitely many turns, and when fewer than `size` bytes
were read its caller takes the failure branch. -/
def Ends (m : Machine) (caller : Caller) (sock : Int) (size : Nat)
    (localData remoteData : List UInt8) (w : Int) (s : EndingStream) : Prop :=
  ∃ turns, ∀ fuel, turns ≤ fuel → ∃ rc buf got rest, s.chunks = got ++ rest ∧
    eval (endingPeer w s.last)
      (sockSyncData { m with fuel := fuel } sock size localData remoteData) s.chunks =
      some ((rc, buf), rest) ∧
    (got.flatten.length < size → caller.rejects rc)

section

variable {w rc : Int} {last : ReadReply} {sock : Int} {size n total : Nat} {buf : List UInt8}
  {chunks : List (List UInt8)} {m : Machine} {localData remoteData : List UInt8}

/-! ## The read loop -/

abbrev endingLoop (w : Int) (last : ReadReply) (sock : Int) (size n : Nat) (l : ReadLoop)
    (chunks : List (List UInt8)) : Option ((Int × List UInt8) × List (List UInt8)) :=
  eval (endingPeer w last) (iterate n (readLoopBody sock size) l) chunks

theorem endingLoop_exit (h : ¬ (rc = 0 ∧ total < size)) :
    endingLoop w last sock size (n + 1) ⟨rc, total, buf⟩ chunks = some ((rc, buf), chunks) := by
  rw [endingLoop, iterate, readLoopBody, if_neg h]
  rfl

theorem endingLoop_chunk {c : List UInt8} (h : total < size) (hc : 0 < c.length) :
    endingLoop w last sock size (n + 1) ⟨0, total, buf⟩ (c :: chunks) =
      endingLoop w last sock size n ⟨0, total + c.length, overlay c buf⟩ chunks := by
  have hcount : 0 < (ReadReply.got c).count := by
    rw [ReadReply.count_got]
    omega
  have hread : endingPeer w last (.read sock size) (c :: chunks) = some (.got c, chunks) := rfl
  rw [endingLoop, iterate, readLoopBody, if_pos ⟨rfl, h⟩, bind_assoc, eval_step hread,
    if_pos hcount]
  rfl

/-- After the last read the loop goes on with its answer as `rc`. -/
theorem endingLoop_last (h : total < size) (hlast : last.count ≤ 0) :
    endingLoop w last sock size (n + 1) ⟨0, total, buf⟩ [] =
      endingLoop w last sock size n ⟨last.count, total, buf⟩ [] := by
  have hread : endingPeer w last (.read sock size) [] = some (last, []) := rfl
  rw [endingLoop, iterate, readLoopBody, if_pos ⟨rfl, h⟩, bind_assoc, eval_step hread,
    if_neg (not_lt.mpr hlast)]
  rfl

/-- With enough bytes, or an error behind them, the loop leaves within one turn
for each read and two more. -/
theorem endingLoop_returns (w : Int) (sock : Int) (buf : List UInt8)
    (hpos : ∀ c ∈ chunks, 0 < c.length) (hlast : last.count ≤ 0)
    (hend : last.count < 0 ∨ size ≤ total + chunks.flatten.length)
    (hn : chunks.length + 2 ≤ n) :
    ∃ rc buf' got rest, chunks = got ++ rest ∧
      endingLoop w last sock size n ⟨0, total, buf⟩ chunks = some ((rc, buf'), rest) ∧
      (total + got.flatten.length < size → rc < 0) := by
  induction chunks generalizing total buf n with
  | nil =>
      obtain ⟨n, rfl⟩ : ∃ n', n = n' + 2 := ⟨n - 2, by simp at hn; omega⟩
      by_cases htotal : total < size
      · have hfail : last.count < 0 := by simp at hend; omega
        refine ⟨last.count, buf, [], [], rfl, ?_, fun _ => hfail⟩
        rw [endingLoop_last htotal hlast, endingLoop_exit fun h => by omega]
      · refine ⟨0, buf, [], [], rfl, ?_, fun h => absurd h htotal⟩
        exact endingLoop_exit fun h => htotal h.2
  | cons c cs ih =>
      obtain ⟨n, rfl⟩ : ∃ n', n = n' + 1 := ⟨n - 1, by omega⟩
      by_cases htotal : total < size
      · have hc : 0 < c.length := hpos c List.mem_cons_self
        have hrest : last.count < 0 ∨ size ≤ total + c.length + cs.flatten.length := by
          simp only [List.flatten_cons, List.length_append] at hend
          omega
        obtain ⟨rc, buf', got, rest, rfl, hrun, hrc⟩ :=
          ih (overlay c buf) (fun d hd => hpos d (List.mem_cons_of_mem c hd)) hrest
            (by simp at hn; omega)
        refine ⟨rc, buf', c :: got, rest, rfl, ?_, fun h => hrc ?_⟩
        · rw [endingLoop_chunk htotal hc, hrun]
        · simp only [List.flatten_cons, List.length_append] at h
          omega
      · refine ⟨0, buf, [], c :: cs, rfl, ?_, fun h => absurd h htotal⟩
        exact endingLoop_exit fun h => htotal h.2

/-- When the peer closes with bytes missing, no number of turns is enough. -/
theorem endingLoop_diverges (hpos : ∀ c ∈ chunks, 0 < c.length) (hlast : last.count = 0)
    (hshort : total + chunks.flatten.length < size) :
    endingLoop w last sock size n ⟨0, total, buf⟩ chunks = none := by
  induction n generalizing total buf chunks with
  | zero => rfl
  | succ n ih =>
      cases chunks with
      | nil =>
          have htotal : total < size := by simp at hshort; omega
          rw [endingLoop_last htotal hlast.le, hlast]
          exact ih hpos hshort
      | cons c cs =>
          simp only [List.flatten_cons, List.length_append] at hshort
          rw [endingLoop_chunk (by omega) (hpos c List.mem_cons_self)]
          apply ih fun d hd => hpos d (List.mem_cons_of_mem c hd)
          omega

/-! ## The call -/

theorem eval_sockSyncData (hassert : m.ndebug = true ∨ w = size) :
    eval (endingPeer w last) (sockSyncData { m with fuel := n } sock size localData remoteData)
      chunks =
    endingLoop w last sock size n ⟨if w < size then w else 0, 0, remoteData⟩ chunks := by
  have hwrite : endingPeer w last (.write sock (localData.take size)) chunks =
      some (w, chunks) := rfl
  exact sockSyncData_eval (m := { m with fuel := n }) hwrite hassert

variable {caller : Caller} {s : EndingStream}

/-- A short `write` with a nonzero count is the return code, and nothing is read. -/
theorem ends_short_iff (hassert : m.ndebug = true ∨ w = size) (hw : w < size) (hw0 : w ≠ 0)
    (hsize : 0 < size) :
    Ends m caller sock size localData remoteData w s ↔ caller.rejects w := by
  have hrun : ∀ n, eval (endingPeer w s.last) (sockSyncData { m with fuel := n + 1 } sock size
      localData remoteData) s.chunks = some ((w, remoteData), s.chunks) := by
    intro n
    rw [eval_sockSyncData hassert, if_pos hw]
    exact endingLoop_exit fun h => hw0 h.1
  constructor
  · rintro ⟨turns, h⟩
    obtain ⟨rc, buf, got, rest, hsplit, hret, hrc⟩ := h (turns + 1) (Nat.le_succ turns)
    rw [hrun] at hret
    cases hret
    obtain rfl : got = [] := List.self_eq_append_left.mp hsplit
    exact hrc hsize
  · intro hrejects
    refine ⟨1, fun fuel hfuel => ?_⟩
    obtain ⟨n, rfl⟩ : ∃ n, fuel = n + 1 := ⟨fuel - 1, by omega⟩
    exact ⟨w, remoteData, [], s.chunks, rfl, hrun n, fun _ => hrejects⟩

theorem rejects_of_neg {caller : Caller} {rc : Int} (h : rc < 0) : caller.rejects rc := by
  cases caller with
  | conData => exact h
  | letter => exact h.ne

/-- A call that gets into the read loop ends if and only if the stream ends in an
error or is long enough. -/
theorem ends_reading_iff (hassert : m.ndebug = true ∨ w = size) (hw : w = 0 ∨ size ≤ w) :
    Ends m caller sock size localData remoteData w s ↔ s.last = .failed ∨ size ≤ s.size := by
  have hrc : (if w < size then w else 0) = 0 := by split <;> omega
  have hlast : s.last = .failed ↔ s.last.count < 0 := by
    cases s.last with
    | failed => simp
    | got bs => simp
  have hrun : ∀ n, eval (endingPeer w s.last) (sockSyncData { m with fuel := n } sock size
      localData remoteData) s.chunks =
      endingLoop w s.last sock size n ⟨0, 0, remoteData⟩ s.chunks := by
    intro n
    rw [eval_sockSyncData hassert, hrc]
  rw [hlast]
  constructor
  · rintro ⟨turns, h⟩
    by_contra hend
    rw [not_or, not_lt, not_le] at hend
    obtain ⟨rc, buf, got, rest, -, hret, -⟩ := h turns le_rfl
    have hcount : s.last.count = 0 := le_antisymm s.last_final hend.1
    have hshort : 0 + s.chunks.flatten.length < size := by
      rw [Nat.zero_add]
      exact hend.2
    rw [hrun, endingLoop_diverges s.chunks_pos hcount hshort] at hret
    cases hret
  · intro hend
    refine ⟨s.chunks.length + 2, fun fuel hfuel => ?_⟩
    have hend' : s.last.count < 0 ∨ size ≤ 0 + s.chunks.flatten.length := by
      rw [Nat.zero_add]
      exact hend
    obtain ⟨rc, buf, got, rest, hsplit, hret, hneg⟩ :=
      endingLoop_returns w sock remoteData s.chunks_pos s.last_final hend' hfuel
    refine ⟨rc, buf, got, rest, hsplit, (hrun fuel).trans hret, fun hgot => ?_⟩
    apply rejects_of_neg
    apply hneg
    omega

theorem ends_iff (hassert : m.ndebug = true ∨ w = size) (hsize : 0 < size) :
    Ends m caller sock size localData remoteData w s ↔
      w < 0 ∨ (caller = .letter ∧ 0 < w ∧ w < size) ∨
      (w = 0 ∨ size ≤ w) ∧ (s.last = .failed ∨ size ≤ s.size) := by
  by_cases hw : w = 0 ∨ size ≤ w
  · rw [ends_reading_iff hassert hw]
    constructor
    · exact fun h => .inr (.inr ⟨hw, h⟩)
    · rintro (h | ⟨-, h⟩ | ⟨-, h⟩)
      · omega
      · omega
      · exact h
  · rw [not_or, not_le] at hw
    rw [ends_short_iff hassert hw.2 hw.1 hsize]
    cases caller with
    | conData => simp [Caller.rejects, hw.1, not_le.mpr hw.2]
    | letter =>
        simp only [Caller.rejects, ne_eq, hw.1, not_false_eq_true, true_iff, true_and]
        omega

end

/-! ## The callers -/

def Call.isRead : Call → Bool
  | .read .. => true
  | _ => false

/-- The calls by which an exchange moves. -/
def Call.isSync : Call → Bool
  | .write .. | .read .. => true
  | _ => false

/-- A `write` takes all the bytes or none. -/
def noPartWrite : (c : Call) → Reply c → Prop
  | .write _ data, rc => rc ≤ 0 ∨ (data.length : Int) ≤ rc
  | _, _ => True

/-- The bytes that the exchange in progress lacks.  While there are any, only
reads and the closing calls are made. -/
def owed (ndebug : Bool) : Monitor Call Reply Nat where
  legal _ c r := ndebug = true → noPartWrite c r
  ok lack c _ := c.isRead ∨ c.isQuiet ∨ lack = 0
  next
    | _, .write _ data, _ => data.length
    | lack, .read .., r => lack - r.bytes.length
    | lack, _, _ => lack

section

variable {m : Machine} {nd : Bool} {α : Type}

/-- Between the exchanges nothing is owed. -/
theorem notOwed {p : P α} {Q : α → Prop} (h : Uses (fun c => c.isSync = false) p Q) :
    Safe (owed nd) p 0 fun _ lack => lack = 0 := by
  have hstay : ∀ (c : Call) (r : Reply c), c.isSync = false →
      (owed nd).ok 0 c r ∧ (owed nd).next 0 c r = 0 := by
    intro c r hc
    refine ⟨.inr (.inr rfl), ?_⟩
    cases c <;> first | rfl | cases hc
  exact (h.safe hstay).mono fun _ _ h => h.2

theorem not_isSync_of_setup {c : Call} (h : setup c) : c.isSync = false := by
  cases c <;> first | rfl | cases h

/-- The closing calls are allowed at any time and pay nothing. -/
theorem quiet_owed {p : P α} {Q : α → Prop} (h : Uses quiet p Q) (lack : Nat) :
    Safe (owed nd) p lack fun _ lack' => lack' = lack := by
  have hstay : ∀ (c : Call) (r : Reply c), quiet c →
      (owed nd).ok lack c r ∧ (owed nd).next lack c r = lack := by
    intro c r hc
    refine ⟨.inr (.inl hc), ?_⟩
    cases c <;> first | rfl | cases hc
  exact (h.safe hstay).mono fun _ _ h => h.2

/-- The invariant of the read loop: the code is 0 or negative, and while it is 0
the bytes read are those no longer owed. -/
def Paying (n : Nat) (l : ReadLoop) (lack : Nat) : Prop :=
  l.rc ≤ 0 ∧ (l.rc = 0 → lack = n - l.totalReadBytes)

theorem readLoopBody_owed {sock : Int} {n lack : Nat} {l : ReadLoop} (hl : Paying n l lack) :
    Safe (owed nd) (readLoopBody sock n l) lack fun y lack' =>
      match y with
      | .inl l' => Paying n l' lack'
      | .inr x => x.1 ≤ 0 ∧ (x.1 = 0 → lack' = 0) := by
  unfold readLoopBody
  by_cases hcond : l.rc = 0 ∧ l.totalReadBytes < n
  · rw [if_pos hcond]
    refine safe_step.mpr fun r _ => ⟨.inl rfl, ?_⟩
    obtain rfl := hl.2 hcond.1
    by_cases hr : 0 < r.count
    · rw [if_pos hr]
      refine ⟨hl.1, fun _ => ?_⟩
      show n - l.totalReadBytes - r.bytes.length = n - (l.totalReadBytes + r.bytes.length)
      omega
    · rw [if_neg hr]
      refine ⟨not_lt.mp hr, fun hzero => ?_⟩
      show n - l.totalReadBytes - r.bytes.length = n - l.totalReadBytes
      cases r with
      | failed => rfl
      | got bs => simp at hzero; simp [hzero]
  · rw [if_neg hcond]
    refine ⟨hl.1, fun hzero => ?_⟩
    have hall : n ≤ l.totalReadBytes := not_lt.mp fun h => hcond ⟨hzero, h⟩
    have hlack := hl.2 hzero
    omega

theorem sync_owed {sock : Int} {n : Nat} {local' : List UInt8} (hlen : local'.length = n)
    (remote : List UInt8) :
    Safe (owed m.ndebug) (sockSyncData m sock n local' remote) 0 fun x lack =>
      x.1 ≤ 0 ∧ (x.1 = 0 → lack = 0) := by
  have htake : local'.take n = local' := List.take_of_length_le hlen.le
  unfold sockSyncData
  rw [htake]
  refine safe_step.mpr fun rc hlegal => ⟨.inr (.inr rfl), ?_⟩
  refine safe_bind.mpr (safe_assert fun hassert => ?_)
  -- the assertion or the environment rules out a part
  have hrc : rc ≤ 0 ∨ (n : Int) ≤ rc := by
    rw [Bool.or_eq_true, decide_eq_true_eq] at hassert
    rcases hassert with hnd | hrc
    · exact hlen ▸ hlegal hnd
    · exact .inr hrc.ge
  refine safe_iterate (I := Paying n) ?_ fun l lack hl => ?_
  · refine ⟨?_, fun _ => hlen⟩
    show (if rc < (n : Int) then rc else 0) ≤ 0
    by_cases hlt : rc < (n : Int)
    · rw [if_pos hlt]
      exact hrc.resolve_right (not_le.mpr hlt)
    · rw [if_neg hlt]
  · refine (readLoopBody_owed hl).mono fun y lack h => ?_
    cases y <;> exact h

theorem letterSync_owed {sock : Int} {c : Char} (remote : List UInt8) :
    Safe (owed m.ndebug) (sockSyncData m sock 1 (charBytes [c]) remote) 0 fun x lack =>
      x.1 = 0 → lack = 0 :=
  (sync_owed (n := 1) rfl remote).mono fun _ _ h => h.2

theorem pollCompletion_owed (res : Resources) :
    Safe (owed nd) (pollCompletion m res) 0 fun _ lack => lack = 0 :=
  notOwed (pollCompletion_uses (U := fun c => c.isSync = false) (fun _ => rfl) rfl m res)

theorem postSend_owed (res : Resources) (op : WrOpcode) :
    Safe (owed nd) (postSend res op) 0 fun _ lack => lack = 0 :=
  notOwed (postSend_uses (fun _ _ => rfl) res op)

theorem connectQp_owed (cfg : Config) (res : Resources) :
    Safe (owed m.ndebug) (connectQp m cfg res) 0 fun x lack => x.1 = 0 → lack = 0 := by
  unfold connectQp
  refine Safe.bindSame (notOwed (queryMyGid_uses (fun _ => rfl) res)) fun x => ?_
  obtain ⟨rc, myGid⟩ := x
  refine safe_ite (fun _ _ => rfl) fun _ => ?_
  refine safe_bind.mpr (safe_deref fun mr _ => safe_bind.mpr (safe_deref fun qp _ => ?_))
  refine Safe.bind (sync_owed (length_conDataBytes ..) _) fun x lack hx => ?_
  obtain ⟨rc, tmp⟩ := x
  refine safe_ite (fun _ h => by cases h) fun hrc => ?_
  obtain rfl := hx.2 (le_antisymm hx.1 (not_lt.mp hrc))
  refine safe_step.mpr fun _ _ => ⟨.inr (.inr rfl), ?_⟩
  have hmodify : ∀ qp attr mask, Safe (owed m.ndebug) (sys (.ibvModifyQp qp attr mask)) 0
      fun _ lack => lack = 0 := fun _ _ _ _ _ => ⟨.inr (.inr rfl), rfl⟩
  refine Safe.checkSame (hmodify _ _ _) (fun _ _ _ => rfl) ?_
  refine Safe.checkSame ?_ (fun _ _ _ => rfl) ?_
  · exact safe_ite (fun _ => notOwed (postRecv_uses (fun _ _ => rfl) _)) fun _ => rfl
  refine Safe.checkSame (hmodify _ _ _) (fun _ _ _ => rfl) ?_
  refine Safe.checkSame (hmodify _ _ _) (fun _ _ _ => rfl) ?_
  refine Safe.bind (letterSync_owed _) fun x lack hx => ?_
  obtain ⟨rc, _⟩ := x
  exact safe_ite (fun _ h => by cases h) fun hrc _ => hx (not_not.mp hrc)

theorem clientRdma_owed (res : Resources) :
    Safe (owed nd) (clientRdma m res) 0 fun _ lack => lack = 0 := by
  unfold clientRdma
  refine Safe.checkSame (postSend_owed res .rdmaRead) (fun _ _ => rfl) ?_
  refine Safe.checkSame (pollCompletion_owed res) (fun _ _ => rfl) ?_
  refine safe_bind.mpr (safe_deref fun buf _ => ?_)
  refine safe_step.mpr fun _ _ => ⟨.inr (.inr rfl), safe_step.mpr fun _ _ => ⟨.inr (.inr rfl), ?_⟩⟩
  refine safe_step.mpr fun _ _ => ⟨.inr (.inr rfl), ?_⟩
  refine Safe.checkSame (postSend_owed res .rdmaWrite) (fun _ _ => rfl) ?_
  exact Safe.checkSame (pollCompletion_owed res) (fun _ _ => rfl) rfl

theorem rcmainTransfer_owed (cfg : Config) (res : Resources) :
    Safe (owed m.ndebug) (rcmainTransfer m cfg res) 0 fun x lack => x.1 = 1 ∨ lack = 0 := by
  unfold rcmainTransfer
  refine Safe.bind (connectQp_owed cfg res) fun x lack hx => ?_
  obtain ⟨rc, res'⟩ := x
  refine safe_ite (fun _ => .inl rfl) fun hrc => ?_
  obtain rfl := hx (not_not.mp hrc)
  refine Safe.checkSame ?_ (fun _ _ => .inl rfl) ?_
  · exact safe_ite (fun _ => postSend_owed res' .send) fun _ => rfl
  refine Safe.checkSame (pollCompletion_owed res') (fun _ _ => .inl rfl) ?_
  refine safe_bind.mpr (safe_deref fun buf _ => ?_)
  refine Safe.bindSame ?_ fun _ => ?_
  · exact safe_ite (fun _ => notOwed (uses_perform rfl)) fun _ => notOwed (uses_perform rfl)
  refine Safe.bind (letterSync_owed _) fun x lack hx => ?_
  obtain ⟨rc, tempChar⟩ := x
  refine safe_ite (fun _ => .inl rfl) fun hrc => ?_
  obtain rfl := hx (not_not.mp hrc)
  refine Safe.checkSame ?_ (fun _ _ => .inl rfl) ?_
  · exact safe_ite (fun _ => clientRdma_owed res') fun _ => rfl
  refine Safe.bind (letterSync_owed _) fun x lack hx => ?_
  obtain ⟨rc, _⟩ := x
  refine safe_ite (fun _ => .inl rfl) fun hrc => ?_
  obtain rfl := hx (not_not.mp hrc)
  refine Safe.bindSame ?_ fun _ => .inr rfl
  exact safe_ite (fun _ => notOwed (uses_perform rfl)) fun _ => rfl

theorem rcmainBody_owed (m : Machine) (cfg : Config) :
    Safe (owed m.ndebug) (rcmainBody m cfg) 0 fun rc lack => rc = 1 ∨ lack = 0 := by
  unfold rcmainBody
  have hcreate := (resourcesCreate_uses_setup m cfg resourcesInit).weaken
    fun _ => not_isSync_of_setup
  refine Safe.bindSame (notOwed hcreate) fun x => ?_
  obtain ⟨rc, res⟩ := x
  refine Safe.bind (Q := fun x lack => x.1 = 1 ∨ lack = 0) ?_ fun x lack hx => ?_
  · exact safe_ite (fun _ => .inl rfl) fun _ => rcmainTransfer_owed cfg res
  refine Safe.bindSame (quiet_owed (resourcesDestroy_uses_quiet x.2) lack) fun rcDestroy => ?_
  show (if rcDestroy ≠ 0 then 1 else x.1) = 1 ∨ lack = 0
  by_cases hdestroy : rcDestroy ≠ 0
  · exact .inl (if_pos hdestroy)
  · rw [if_neg hdestroy]
    exact hx

end

/-- As long as an exchange lacks bytes a run of `rcmain` makes only reads and the
closing calls, and it does not return anything but 1. -/
def TruncationFails (m : Machine) : Prop :=
  ∀ (cfg : Config) (t : List (Event Call Reply)) (q : P Int), Runs (rcmainBody m cfg) t q →
    (m.ndebug = true → ∀ e ∈ t, noPartWrite e.call e.reply) →
    (owed m.ndebug).Ok 0 t ∧ ∀ rc, q = ret rc → rc = 1 ∨ (owed m.ndebug).after 0 t = 0

theorem truncationFails (m : Machine) : TruncationFails m := by
  intro cfg t q hrun hpart
  have hlegal : (owed m.ndebug).Legal 0 t :=
    Monitor.legal_of_forall _ fun e he _ hnd => hpart hnd e he
  have hsafe := (rcmainBody_owed m cfg).runs hrun hlegal
  refine ⟨hsafe.1, fun rc hrc => ?_⟩
  rw [hrc] at hsafe
  exact hsafe.2

/-- A call ends as its caller needs it if and only if its `write` fails in a way
the caller sees or, past the `write`, the stream does not end with the peer closing
early; and the callers do take their failure branch. -/
theorem sockSyncData_ends_iff (m : Machine) (caller : Caller) (sock : Int) {size : Nat}
    (localData remoteData : List UInt8) {w : Int} (s : EndingStream) (hsize : 0 < size)
    (hassert : m.ndebug = true ∨ w = size) :
    (Ends m caller sock size localData remoteData w s ↔
      w < 0 ∨ (caller = .letter ∧ 0 < w ∧ w < size) ∨
      (w = 0 ∨ size ≤ w) ∧ (s.last = .failed ∨ size ≤ s.size)) ∧
    TruncationFails m :=
  ⟨ends_iff hassert hsize, truncationFails m⟩

/-- Half of the connection data and then `last`. -/
def halfStream (last : ReadReply) (h : last.count ≤ 0) : EndingStream :=
  { chunks := [List.replicate 20 0], last := last, chunks_pos := by simp, last_final := h }

theorem sockSyncData_ends_iff_failed :
    Ends littleMachine .conData 3 40 (List.replicate 40 0) (List.replicate 40 0) 40
      (halfStream .failed (by decide)) ∧ TruncationFails littleMachine := by
  have h := sockSyncData_ends_iff littleMachine .conData 3 (List.replicate 40 0)
    (List.replicate 40 0) (halfStream .failed (by decide)) (show 0 < 40 by decide) (.inr rfl)
  exact ⟨h.1.mpr (.inr (.inr ⟨.inr le_rfl, .inl rfl⟩)), h.2⟩

/-- The peer closes after half of the connection data: the call never returns. -/
theorem closed_never_ends :
    ¬ Ends littleMachine .conData 3 40 (List.replicate 40 0) (List.replicate 40 0) 40
      (halfStream (.got []) (by decide)) ∧
    ∀ n, eval (endingPeer 40 (.got [])) (sockSyncData { littleMachine with fuel := n } 3 40
      (List.replicate 40 0) (List.replicate 40 0)) [List.replicate 20 0] = none := by
  have hnot : ¬ (ReadReply.got [] = .failed ∨
      40 ≤ (halfStream (.got []) (by decide)).size) := by decide
  refine ⟨fun h => hnot ((ends_reading_iff (.inr rfl) (.inr le_rfl)).mp h), fun n => ?_⟩
  apply (eval_sockSyncData (m := littleMachine) (w := (40 : Nat)) (.inr rfl)).trans
  exact endingLoop_diverges (by simp) rfl (by decide)

end Rdma
end CommSpeed
