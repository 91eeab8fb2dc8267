/-
What `diskmain` leaves in `raw.txt`.

The file is opened without `O_TRUNC`, so the records are written over what it held
before, from its start on, and what they do not reach stays.  `write` may take any part
of a record.  The assertion behind it makes this the end of the run: at every moment the
file begins with whole records, and only a process that has died leaves a torn one
behind them.
-/
import CommSpeed.Bytes.Buffer
import CommSpeed.Disk.Generate
import CommSpeed.Prog.Threads

namespace CommSpeed
namespace Disk

open Bytes Prog

/-- `raw.txt`, and the descriptor that `open` has returned for it. -/
structure Raw where
  contents : List UInt8
  fd : Option Int := none
  offset : Nat := 0
  failed : Bool := false

namespace Raw

/-- The bytes that `write` takes replace what stands behind the offset. -/
def put (f : Raw) (bs : List UInt8) : Raw :=
  { f with
    contents := f.contents.take f.offset ++ bs ++ f.contents.drop (f.offset + bs.length)
    offset := f.offset + bs.length }

def next : Raw → (c : Call) → Reply c → Raw
  | f, .openFile .., fd => if 0 ≤ fd then { f with fd := some fd, offset := 0 } else f
  | f, .write fd data, wcode =>
    if f.fd = some fd then
      if wcode < 0 then { f with failed := true } else f.put (data.take wcode.toNat)
    else f
  | f, _, _ => f

end Raw

/-- `n` records one after the other. -/
def records (rand : Nat → Nat) (n : Nat) : List UInt8 := (List.replicate n (genRecord rand)).flatten

/-- The first `n` records stand over `old`, and the next one would come behind them. -/
structure Raw.Whole (rand : Nat → Nat) (old : List UInt8) (n : Nat) (f : Raw) : Prop where
  contents : f.contents = overlay (records rand n) old
  offset : f.offset = mSize * n

/-- Of at most `count` records the last one may be torn. -/
def Raw.Torn (rand : Nat → Nat) (old : List UInt8) (count : Nat) (f : Raw) : Prop :=
  ∃ n j, f.contents = overlay (records rand n ++ (genRecord rand).take j) old ∧ j < mSize ∧
    mSize * n + j ≤ mSize * count

/-- The number of records that the options ask for. -/
def count (opts : List Opt) : Nat :=
  match optionLoop 20 opts with
  | some fileSize => fileSize.toInt.toNat
  | none => 0

/-- The file during a run.  `write` takes at most what it is given; it is called only
while the file is whole, and never leaves more than a torn record. -/
def rawFile (rand : Nat → Nat) (old : List UInt8) (count : Nat) : Monitor Call Reply Raw where
  legal
    | _, .write _ data, wcode => wcode ≤ data.length
    | _, _, _ => True
  ok f c r := (∃ n ≤ count, f.Whole rand old n) ∧ (f.next c r).Torn rand old count
  next := Raw.next

section

variable {rand : Nat → Nat} {old : List UInt8} {n k : Nat} {f : Raw}

@[simp] theorem length_genRecord : (genRecord rand).length = mSize := by
  rw [genRecord, List.length_map, List.length_range]

theorem records_succ : records rand (n + 1) = records rand n ++ genRecord rand := by
  rw [records, List.replicate_succ', List.flatten_concat]
  rfl

@[simp] theorem length_records : (records rand n).length = mSize * n := by
  induction n with
  | zero => rfl
  | succ n ih => rw [records_succ, List.length_append, ih, length_genRecord, Nat.mul_succ]

/-- Bytes put behind those that stand over a buffer. -/
theorem overlay_put (w bs old : List UInt8) :
    (overlay w old).take w.length ++ bs ++ (overlay w old).drop (w.length + bs.length) =
      overlay (w ++ bs) old := by
  rw [overlay, overlay, List.take_left, List.drop_length_add_append, List.drop_drop,
    List.length_append]

theorem Raw.Whole.put (h : f.Whole rand old n) (bs : List UInt8) :
    (f.put bs).contents = overlay (records rand n ++ bs) old := by
  rw [← overlay_put, length_records, ← h.contents, ← h.offset]
  rfl

theorem Raw.Whole.torn (h : f.Whole rand old n) (hn : n ≤ k) : f.Torn rand old k := by
  refine ⟨n, 0, ?_, by decide, Nat.mul_le_mul_left mSize hn⟩
  rw [List.take_zero, List.append_nil]
  exact h.contents

theorem next_failed {fd wcode : Int} {data : List UInt8} (hfd : f.fd = some fd) (hw : wcode < 0) :
    f.next (.write fd data) wcode = { f with failed := true } := by
  rw [Raw.next, if_pos hfd, if_pos hw]

theorem next_taken {fd wcode : Int} {data : List UInt8} (hfd : f.fd = some fd)
    (hw : ¬ wcode < 0) : f.next (.write fd data) wcode = f.put (data.take wcode.toNat) := by
  rw [Raw.next, if_pos hfd, if_neg hw]

/-- A record that is taken whole. -/
theorem Raw.Whole.put_record (h : f.Whole rand old n) :
    (f.put (genRecord rand)).Whole rand old (n + 1) where
  contents := by rw [h.put, records_succ]
  offset := by
    show f.offset + (genRecord rand).length = _
    rw [h.offset, length_genRecord, Nat.mul_succ]

/-- Whatever part of a record is taken, at most that record is torn. -/
theorem Raw.Whole.put_torn (h : f.Whole rand old n) (hn : n < k) {j : Nat} (hj : j ≤ mSize) :
    (f.put ((genRecord rand).take j)).Torn rand old k := by
  by_cases hall : j = mSize
  · rw [hall, List.take_of_length_le (Nat.le_of_eq length_genRecord)]
    exact h.put_record.torn hn
  · have hle : mSize * (n + 1) ≤ mSize * k := Nat.mul_le_mul_left mSize hn
    rw [Nat.mul_succ] at hle
    exact ⟨n, j, h.put _, by omega, by omega⟩

/-! ## The program on the file -/

/-- The calls that do not touch the file. -/
def Idle : Call → Prop
  | .openFile .. => False
  | .write .. => False
  | _ => True

theorem idle_next {c : Call} (hc : Idle c) (r : Reply c) : f.next c r = f := by
  cases c with
  | openFile => cases hc
  | write => cases hc
  | _ => rfl

theorem Raw.Whole.idle (h : f.Whole rand old n) (hn : n ≤ k) (c : Call) (r : Reply c)
    (hc : Idle c) :
    (rawFile rand old k).ok f c r ∧ (rawFile rand old k).next f c r = f := by
  refine ⟨⟨⟨n, hn, h⟩, ?_⟩, idle_next hc r⟩
  rw [idle_next hc]
  exact h.torn hn

/-- The loop of `diskmain` with the counter `i`: as many records have been written. -/
structure Looping (rand : Nat → Nat) (old : List UInt8) (fd : Int) (fileSize i : Int32) (f : Raw) :
    Prop where
  whole : f.Whole rand old i.toInt.toNat
  fd : f.fd = some fd
  nonneg : 0 ≤ i.toInt
  below : i.toInt.toNat ≤ fileSize.toInt.toNat

/-- All records are written, or a write has failed behind those that are. -/
def Written (rand : Nat → Nat) (old : List UInt8) (k : Nat) (f : Raw) : Prop :=
  ∃ n ≤ k, f.Whole rand old n ∧ (n = k ∨ f.failed = true)

/-- Below an `int` the counter does not overflow. -/
theorem toInt_add_one {i m : Int32} (h : i.toInt < m.toInt) : (i + 1).toInt = i.toInt + 1 := by
  have hmin := i.le_toInt
  have hmax := m.toInt_lt
  rw [Int32.toInt_add, show (1 : Int32).toInt = 1 from rfl]
  exact Int.bmod_eq_of_le (by omega) (by omega)

theorem writeLoopBody_keeps {fd : Int} {fileSize i : Int32}
    (h : Looping rand old fd fileSize i f) :
    Safe (rawFile rand old fileSize.toInt.toNat)
      (writeLoopBody false fd (genRecord rand) fileSize i) f fun y f' =>
        match y with
        | .inl i' => Looping rand old fd fileSize i' f'
        | .inr _ => Written rand old fileSize.toInt.toNat f' := by
  have hnonneg := h.nonneg
  have hbelow := h.below
  have hrecord : (genRecord rand).take getSize = genRecord rand :=
    List.take_of_length_le (Nat.le_of_eq length_genRecord)
  unfold writeLoopBody
  refine safe_ite (fun hlt => ?_) fun hge => ?_
  · rw [Int32.lt_iff_toInt_lt] at hlt
    have hn : i.toInt.toNat < fileSize.toInt.toNat := by omega
    rw [hrecord]
    refine safe_step.mpr fun (wcode : Int) hlegal => ?_
    have hle : wcode ≤ mSize := by
      rw [← length_genRecord]
      exact hlegal
    show ((∃ n ≤ _, _) ∧ (f.next (.write fd _) wcode).Torn rand old _) ∧
      Safe _ _ (f.next (.write fd _) wcode) _
    by_cases hw : wcode < 0
    · rw [if_pos hw, next_failed h.fd hw]
      have hwhole : Raw.Whole rand old i.toInt.toNat { f with failed := true } :=
        ⟨h.whole.contents, h.whole.offset⟩
      refine ⟨⟨⟨_, hbelow, h.whole⟩, hwhole.torn hbelow⟩, ?_⟩
      refine safe_step.mpr fun _ _ => ⟨(hwhole.idle hbelow (.perror _) _ trivial).1, ?_⟩
      refine safe_step.mpr fun _ _ => ⟨(hwhole.idle hbelow .fflush _ trivial).1, ?_⟩
      exact ⟨_, hbelow, hwhole, .inr rfl⟩
    · rw [if_neg hw, next_taken h.fd hw]
      refine ⟨⟨⟨_, hbelow, h.whole⟩, h.whole.put_torn hn (by omega)⟩, ?_⟩
      refine safe_bind.mpr (safe_assert fun hassert => ?_)
      have hwcode : wcode = mSize := of_decide_eq_true hassert
      have hall : (genRecord rand).take wcode.toNat = genRecord rand := by
        rw [hwcode]
        exact hrecord
      have hi := toInt_add_one hlt
      have hturn : (i + 1).toInt.toNat = i.toInt.toNat + 1 := by omega
      rw [hall]
      refine ⟨?_, h.fd, by omega, by omega⟩
      rw [hturn]
      exact h.whole.put_record
  · rw [Int32.lt_iff_toInt_lt] at hge
    exact ⟨_, h.below, h.whole, .inl (by omega)⟩

theorem generate_keeps (rand : Nat → Nat) (old : List UInt8) (fileSize : Int32) :
    Safe (rawFile rand old fileSize.toInt.toNat) (generate false rand fileSize)
      { contents := old } fun e f => ∃ n ≤ fileSize.toInt.toNat, f.Whole rand old n ∧
        (e = .endOfBody → n = fileSize.toInt.toNat ∨ f.failed = true) := by
  have hstart : ∀ fd, Raw.Whole rand old 0 { contents := old, fd := fd } := fun fd => ⟨rfl, rfl⟩
  have hzero := Nat.zero_le fileSize.toInt.toNat
  refine safe_step.mpr fun fd _ => ?_
  have hopened : ∀ flags mode, Raw.next { contents := old } (.openFile "raw.txt" flags mode) fd =
      { contents := old, fd := if 0 ≤ fd then some fd else none } := by
    intro flags mode
    rw [Raw.next]
    split <;> rfl
  show ((∃ n ≤ _, _) ∧ (Raw.next _ (.openFile _ _ _) fd).Torn rand old _) ∧
    Safe _ _ (Raw.next _ (.openFile _ _ _) fd) _
  rw [hopened]
  refine ⟨⟨⟨0, hzero, hstart none⟩, (hstart _).torn hzero⟩, ?_⟩
  by_cases hfd : fd < 0
  · rw [if_pos hfd]
    refine safe_step.mpr fun _ _ => ⟨((hstart _).idle hzero (.perror _) _ trivial).1, ?_⟩
    exact ⟨0, hzero, hstart _, nofun⟩
  · rw [if_neg hfd, if_pos (Int.not_lt.mp hfd)]
    refine safe_step.mpr fun _ _ => ⟨((hstart _).idle hzero .gettimeofday _ trivial).1, ?_⟩
    have hloop : Looping rand old fd fileSize 0 { contents := old, fd := some fd } :=
      ⟨hstart _, rfl, by decide, hzero⟩
    have hrun : Safe (rawFile rand old fileSize.toInt.toNat)
        (iterate loopBound (writeLoopBody false fd (genRecord rand) fileSize) 0)
        { contents := old, fd := some fd }
        fun _ f => Written rand old fileSize.toInt.toNat f :=
      safe_iterate hloop fun i f h => (writeLoopBody_keeps h).mono fun y _ hy => by
        cases y <;> exact hy
    refine Safe.bind hrun fun _ f h => ?_
    obtain ⟨n, hn, hwhole, hend⟩ := h
    have hidle := hwhole.idle hn
    refine safe_step.mpr fun stop _ => ⟨(hidle .gettimeofday stop trivial).1, ?_⟩
    refine safe_step.mpr fun r _ => ⟨(hidle (.print _) r trivial).1, ?_⟩
    refine safe_step.mpr fun r _ => ⟨(hidle (.print _) r trivial).1, ?_⟩
    refine safe_step.mpr fun r _ => ⟨(hidle (.close fd) r trivial).1, ?_⟩
    exact ⟨n, hn, hwhole, fun _ => hend⟩

theorem diskmain_keeps (rand : Nat → Nat) (old : List UInt8) (opts : List Opt) :
    Safe (rawFile rand old (count opts)) (diskmain false rand opts) { contents := old } fun e f =>
      ∃ n ≤ count opts, f.Whole rand old n ∧
        (e = .endOfBody → n = count opts ∨ f.failed = true) := by
  have hstart : Raw.Whole rand old 0 { contents := old } := ⟨rfl, rfl⟩
  have hzero := Nat.zero_le (count opts)
  unfold diskmain
  cases hopts : optionLoop 20 opts with
  | some fileSize =>
      have hcount : count opts = fileSize.toInt.toNat := by rw [count, hopts]
      rw [hcount]
      exact generate_keeps rand old fileSize
  | none =>
      refine safe_step.mpr fun r _ => ⟨(hstart.idle hzero (.print _) r trivial).1, ?_⟩
      refine safe_step.mpr fun r _ => ⟨(hstart.idle hzero (.print _) r trivial).1, ?_⟩
      exact ⟨0, hzero, hstart, nofun⟩

theorem writeLoopBody_counts (ndebug : Bool) (fd : Int) (text : List UInt8)
    (fileSize i : Int32) :
    Whole (writeLoopBody ndebug fd text fileSize i) ∧
      Uses (fun _ => True) (writeLoopBody ndebug fd text fileSize i) fun y => ∀ i', y = .inl i' →
        (fileSize.toInt - i'.toInt).toNat < (fileSize.toInt - i.toInt).toNat := by
  unfold writeLoopBody
  by_cases hlt : i < fileSize
  · rw [if_pos hlt]
    rw [Int32.lt_iff_toInt_lt] at hlt
    have hi := toInt_add_one hlt
    refine ⟨fun (wcode : Int) => ?_, safe_step.mpr fun (wcode : Int) _ => ⟨trivial, ?_⟩⟩
    · show Whole (if wcode < 0 then _ else _)
      split
      · exact fun _ _ => trivial
      · cases ndebug || decide (wcode = getSize) <;> trivial
    · split
      · exact fun _ _ => ⟨trivial, fun _ _ => ⟨trivial, nofun⟩⟩
      · refine safe_bind.mpr (safe_assert fun _ => ?_)
        intro i' hi'
        obtain rfl := Sum.inl.inj hi'
        omega
  · rw [if_neg hlt]
    exact ⟨trivial, nofun⟩

/-- The budget of the loop is never spent. -/
theorem diskmain_whole (ndebug : Bool) (rand : Nat → Nat) (opts : List Opt) :
    Prog.Whole (diskmain ndebug rand opts) := by
  unfold diskmain
  split
  · rename_i fileSize _
    refine fun (fd : Int) => ?_
    show Whole (if fd < 0 then _ else _)
    split
    · exact fun _ => trivial
    · intro _
      have hbound : (fileSize.toInt - (0 : Int32).toInt).toNat < loopBound := by
        have hmax := fileSize.toInt_lt
        rw [loopBound, show (0 : Int32).toInt = 0 from rfl]
        omega
      show Whole (iterate loopBound (writeLoopBody ndebug fd (genRecord rand) fileSize) 0 >>= _)
      refine Whole.bind ?_ (uses_any _) fun _ _ _ _ _ _ => trivial
      exact Whole.iterate (fun i => (fileSize.toInt - i.toInt).toNat) hbound
        (fun i => (writeLoopBody_counts ndebug fd _ fileSize i).1)
        fun i => (writeLoopBody_counts ndebug fd _ fileSize i).2
  · exact fun _ _ => trivial

/-! ## Every moment of a run -/

theorem Raw.Torn.after {count : Nat} {t : List (Event Call Reply)} (h : f.Torn rand old count)
    (hok : (rawFile rand old count).Ok f t) :
    ((rawFile rand old count).after f t).Torn rand old count := by
  induction t generalizing f with
  | nil => exact h
  | cons e t ih => exact ih hok.1.2 hok.2

/-- Every call can be answered. -/
theorem exists_legal (rand : Nat → Nat) (old : List UInt8) (count : Nat) (f : Raw) (c : Call) :
    ∃ r, (rawFile rand old count).legal f c r := by
  cases c with
  | openFile path flags mode => exact ⟨(0 : Int), trivial⟩
  | write fd data => exact ⟨(-1 : Int), show (-1 : Int) ≤ data.length by omega⟩
  | close fd => exact ⟨(0 : Int), trivial⟩
  | gettimeofday => exact ⟨⟨0, 0⟩, trivial⟩
  | print line => exact ⟨(), trivial⟩
  | fflush => exact ⟨(), trivial⟩
  | perror text => exact ⟨(), trivial⟩

/-- At every moment of a run the file is what it was with a number of records over its
start, of which only a process that has died leaves the last one torn.  A run to the end
has written all records unless a `write` has failed, and no run turns the loop for ever. -/
theorem diskmain_file {opts : List Opt} {t : List (Event Call Reply)} {q : P Ending}
    (hrun : Runs (diskmain false rand opts) t q)
    (hlegal : (rawFile rand old (count opts)).Legal { contents := old } t) :
    q ≠ .more ∧
    ∃ n j, ((rawFile rand old (count opts)).after { contents := old } t).contents =
        overlay (records rand n ++ (genRecord rand).take j) old ∧
      j < mSize ∧ mSize * n + j ≤ mSize * count opts ∧ (0 < j → q = .abort) ∧
      (q = .ret .endOfBody → n = count opts ∨
        ((rawFile rand old (count opts)).after { contents := old } t).failed = true) := by
  obtain ⟨hok, hsafe⟩ := (diskmain_keeps rand old opts).runs hrun hlegal
  have hwhole : ∀ n ≤ count opts, ∀ f : Raw, f.Whole rand old n →
      f.contents = overlay (records rand n ++ (genRecord rand).take 0) old ∧ 0 < mSize ∧
        mSize * n + 0 ≤ mSize * count opts := by
    intro n hn f h
    rw [List.take_zero, List.append_nil]
    exact ⟨h.contents, by decide, Nat.mul_le_mul_left mSize hn⟩
  cases q with
  | ret e =>
      obtain ⟨n, hn, h, hend⟩ := hsafe
      obtain ⟨hcontents, hzero, hle⟩ := hwhole n hn _ h
      exact ⟨nofun, n, 0, hcontents, hzero, hle, nofun, fun he => hend (Prog.ret.inj he)⟩
  | call c next =>
      obtain ⟨r, hr⟩ := exists_legal rand old (count opts) _ c
      obtain ⟨n, hn, h⟩ := (hsafe r hr).1.1
      obtain ⟨hcontents, hzero, hle⟩ := hwhole n hn _ h
      exact ⟨nofun, n, 0, hcontents, hzero, hle, nofun, nofun⟩
  | abort =>
      have hstart : Raw.Whole rand old 0 { contents := old } := ⟨rfl, rfl⟩
      obtain ⟨n, j, hcontents, hj, hle⟩ := (hstart.torn (Nat.zero_le _)).after hok
      exact ⟨nofun, n, j, hcontents, hj, hle, fun _ => rfl, nofun⟩
  | more => exact absurd ((diskmain_whole false rand opts).runs hrun) id

end

/-- The second `write` takes a hundred bytes. -/
def shortWrite : List (Event Call Reply) :=
  [⟨.openFile "raw.txt" [.direct, .wronly, .creat] 0o700, (3 : Int)⟩, ⟨.gettimeofday, ⟨100, 0⟩⟩,
    ⟨.write 3 ((genRecord id).take getSize), (4096 : Int)⟩,
    ⟨.write 3 ((genRecord id).take getSize), (100 : Int)⟩]

theorem diskmain_file_shortWrite : (Prog.abort : P Ending) ≠ .more ∧ ∃ n j,
    ((rawFile id [1, 2] (count [.f 2])).after { contents := [1, 2] } shortWrite).contents =
        overlay (records id n ++ (genRecord id).take j) [1, 2] ∧
      j < mSize ∧ mSize * n + j ≤ mSize * count [.f 2] ∧
      (0 < j → Prog.abort = (.abort : P Ending)) ∧
      (Prog.abort = (.ret .endOfBody : P Ending) → n = count [.f 2] ∨
        ((rawFile id [1, 2] (count [.f 2])).after { contents := [1, 2] } shortWrite).failed =
          true) := by
  have hlegal : ∀ n : Nat, n ≤ 4096 → (n : Int) ≤ ((genRecord id).take getSize).length := by
    intro n hn
    rw [List.length_take, length_genRecord]
    exact Int.ofNat_le.mpr hn
  exact diskmain_file (.cons (.cons (.cons (.cons (.nil _)))))
    ⟨trivial, trivial, hlegal 4096 (by decide), hlegal 100 (by decide), trivial⟩

end Disk
end CommSpeed
