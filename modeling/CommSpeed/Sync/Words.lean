/-
What threads that use atomic.h do to one word.

The clients are arbitrary programs; what is assumed of them is which functions
they call on the word `pv`.  The calls on `pv` in a history follow the word from
its first value to its last, so each result is an induction over those calls.
-/
import CommSpeed.Sync.Atomic

namespace CommSpeed
namespace Atomic

open Prog Threads

variable {θ A α : Type} {w : Nat}

/-- A call with its result. -/
abbrev Call (A : Type) (w : Nat) := Event (Op A w) fun _ => BitVec w

/-- The calls of a history that work on `pv`. -/
def onWord [DecidableEq A] (pv : A) (h : List (θ × Call A w)) : List (Call A w) :=
  (h.map Prod.snd).filter fun e => e.call.pv = pv

/-- Calls made one after the other take the word from `x` to `y`. -/
def Follows : BitVec w → List (Call A w) → BitVec w → Prop
  | x, [], y => y = x
  | x, e :: es, y => (e.call.act x).1 = e.reply ∧ Follows (e.call.act x).2 es y

/-- A client that calls nothing on `pv` but what `U` allows. -/
def Confined (pv : A) (U : Op A w → Prop) (p : Prog (Op A w) (fun _ => BitVec w) α) : Prop :=
  Uses (fun c => c.pv = pv → U c) p fun _ => True

theorem follows_append {x y : BitVec w} {es fs : List (Call A w)} :
    Follows x (es ++ fs) y ↔ ∃ z, Follows x es z ∧ Follows z fs y := by
  induction es generalizing x with
  | nil => simp [Follows]
  | cons e es ih => simp only [List.cons_append, Follows, ih, and_assoc, exists_and_left]

section

variable [DecidableEq A] {pv : A} {m m' : Memory A w} {h : List (θ × Call A w)}

theorem follows_onWord (hr : Replays atomically m h m') :
    Follows (m pv) (onWord pv h) (m' pv) := by
  induction hr with
  | nil => rfl
  | @snoc _ m t c r m' _ ha ih =>
      have hr : (c.act (m c.pv)).1 = r := congrArg Prod.fst ha
      have hm : Function.update m c.pv (c.act (m c.pv)).2 = m' := congrArg Prod.snd ha
      rw [onWord, List.map_append, List.filter_append, follows_append]
      refine ⟨m pv, ih, ?_⟩
      by_cases hc : c.pv = pv
      · subst hc
        simp [Follows, hr, ← hm]
      · simp [Follows, hc, ← hm, Function.update_of_ne (Ne.symm hc)]

/-- What the clients may call on `pv` holds of the calls of a history. -/
theorem confined_onWord [DecidableEq θ] {bound : Nat}
    {start : θ → Prog (Op A w) (fun _ => BitVec w) α}
    {X : Threads θ (Instr A w) Instr.Reply α (Memory A w)} {U : Op A w → Prop}
    (hX : Linearized accesses atomically (code bound) start m X h)
    (hU : ∀ t, Confined pv U (start t)) : ∀ e ∈ onWord pv h, U e.call := by
  intro e he
  obtain ⟨hmem, hpv⟩ := List.mem_filter.mp he
  obtain ⟨⟨t, e'⟩, hin, rfl⟩ := List.mem_map.mp hmem
  obtain ⟨p, hrun, -⟩ := hX.runs t
  refine (hU t).calls hrun e' ?_ (of_decide_eq_true hpv)
  exact List.mem_filterMap.mpr ⟨(t, e'), hin, if_pos rfl⟩

end

/-! ## Counting -/

def Op.counts : Op A w → Prop
  | .inc _ => True
  | .dec _ => True
  | .add _ _ => True
  | .read _ => True
  | _ => False

/-- What a counting call adds. -/
def Op.delta : Op A w → BitVec w
  | .inc _ => 1
  | .dec _ => -1
  | .add _ av => av
  | _ => 0

def total (es : List (Call A w)) : BitVec w := (es.map fun e => e.call.delta).sum

theorem act_counts {c : Op A w} (h : c.counts) (x : BitVec w) :
    (c.act x).2 = x + c.delta := by
  cases c with
  | inc pv => rfl
  | dec pv => exact sub_eq_add_neg x 1
  | add pv av => rfl
  | exchange pv nv => cases h
  | compareExchange pv nv cv => cases h
  | read pv => exact (add_zero x).symm
  | write pv v => cases h

theorem Follows.counted {x y : BitVec w} {es : List (Call A w)} (h : Follows x es y)
    (hU : ∀ e ∈ es, e.call.counts) : y = x + total es := by
  induction es generalizing x with
  | nil => exact h.trans (add_zero x).symm
  | cons e es ih =>
      have hy := ih h.2 fun e' he' => hU e' (List.mem_cons_of_mem e he')
      rw [hy, act_counts (hU e List.mem_cons_self), add_assoc]
      rfl

/-- The result of a call is that of the word after the calls before it. -/
theorem Follows.counted_reply {x y : BitVec w} {es fs : List (Call A w)} {e : Call A w}
    (h : Follows x (es ++ e :: fs) y) (hU : ∀ e ∈ es, e.call.counts) :
    e.reply = (e.call.act (x + total es)).1 := by
  obtain ⟨z, hz, he⟩ := follows_append.mp h
  rw [← hz.counted hU]
  exact he.1.symm

/-! ## Tickets -/

/-- The results of the calls `c`, in the order in which they took effect. -/
def results [DecidableEq A] (c : Op A w) (es : List (Call A w)) : List (BitVec w) :=
  (es.filter fun e => e.call = c).map fun e => e.reply

/-- Calls that add `d` and return the sum count in steps of `d`. -/
theorem Follows.results_eq [DecidableEq A] {x y : BitVec w} {es : List (Call A w)} {c : Op A w}
    {d : BitVec w} (h : Follows x es y) (hact : ∀ x, c.act x = (x + d, x + d))
    (hU : ∀ e ∈ es, e.call = c ∨ ∃ pv, e.call = .read pv) :
    results c es = (List.range (results c es).length).map (fun i => x + (i + 1) • d) ∧
      y = x + (results c es).length • d := by
  induction es generalizing x with
  | nil => exact ⟨rfl, by simpa [results, Follows] using h⟩
  | cons e es ih =>
      obtain ⟨hrep, htail⟩ := h
      have hrest := fun e' he' => hU e' (List.mem_cons_of_mem e he')
      by_cases hc : e.call = c
      · have hcons : results c (e :: es) = e.reply :: results c es := by simp [results, hc]
        rw [hc, hact] at hrep htail
        obtain ⟨hlist, hy⟩ := ih htail hrest
        rw [hcons, List.length_cons]
        constructor
        · rw [List.range_succ_eq_map, List.map_cons, List.map_map]
          refine congrArg₂ List.cons (by rw [← hrep, zero_add, one_nsmul]) (hlist.trans ?_)
          refine List.map_congr_left fun i _ => ?_
          show x + d + (i + 1) • d = x + (i + 1 + 1) • d
          rw [succ_nsmul' d (i + 1), add_assoc]
        · rw [hy, succ_nsmul', add_assoc]
      · obtain ⟨pv, hread⟩ := (hU e List.mem_cons_self).resolve_left hc
        have hskip : results c (e :: es) = results c es := by simp [results, hc]
        rw [hread] at htail
        rw [hskip]
        exact ih htail hrest

/-! ## Trading -/

def Op.trades : Op A w → Prop
  | .exchange _ _ => True
  | .compareExchange _ _ _ => True
  | .read _ => True
  | _ => False

/-- The value that a trade has put into the word. -/
def given (e : Call A w) : Option (BitVec w) :=
  match e.call with
  | .exchange _ nv => some nv
  | .compareExchange _ nv cv => if e.reply = cv then some nv else none
  | _ => none

/-- The value that a trade has taken out of the word and returned. -/
def taken (e : Call A w) : Option (BitVec w) :=
  match e.call with
  | .exchange _ _ => some e.reply
  | .compareExchange _ _ cv => if e.reply = cv then some e.reply else none
  | _ => none

/-- A trade gives its value exactly when it takes the one that was there. -/
theorem trade_cases {x : BitVec w} {e : Call A w} (hU : e.call.trades)
    (h : (e.call.act x).1 = e.reply) :
    (given e = none ∧ taken e = none ∧ (e.call.act x).2 = x) ∨
      (given e = some (e.call.act x).2 ∧ taken e = some x) := by
  obtain ⟨c, r⟩ := e
  cases c with
  | inc pv => cases hU
  | dec pv => cases hU
  | add pv av => cases hU
  | exchange pv nv =>
      obtain rfl : x = r := h
      exact .inr ⟨rfl, rfl⟩
  | compareExchange pv nv cv =>
      obtain rfl : x = r := h
      by_cases hcv : x = cv
      · exact .inr ⟨by simp [given, Op.act, hcv], by simp [taken, hcv]⟩
      · exact .inl ⟨by simp [given, hcv], by simp [taken, hcv], if_neg hcv⟩
  | read pv => exact .inl ⟨rfl, rfl, rfl⟩
  | write pv v => cases hU

/-- What was in the word and what was put there is what is there now and what was
taken out. -/
theorem Follows.conserves {x y : BitVec w} {es : List (Call A w)} (h : Follows x es y)
    (hU : ∀ e ∈ es, e.call.trades) :
    (x :: es.filterMap given).Perm (y :: es.filterMap taken) := by
  induction es generalizing x with
  | nil =>
      obtain rfl := h
      exact .refl _
  | cons e es ih =>
      have hperm := ih h.2 fun e' he' => hU e' (List.mem_cons_of_mem e he')
      rcases trade_cases (hU e List.mem_cons_self) h.1 with
        ⟨hgiven, htaken, hword⟩ | ⟨hgiven, htaken⟩
      · rw [List.filterMap_cons_none hgiven, List.filterMap_cons_none htaken, ← hword]
        exact hperm
      · rw [List.filterMap_cons_some hgiven, List.filterMap_cons_some htaken]
        exact (hperm.cons x).trans (.swap y x _)

/-! ## Claiming a word once -/

/-- A call that tries to replace `cv` by another value. -/
def Op.claims (cv : BitVec w) : Op A w → Prop
  | .compareExchange _ nv c => c = cv ∧ nv ≠ cv
  | .read _ => True
  | _ => False

def attempts : Call A w → Bool
  | ⟨.compareExchange .., _⟩ => true
  | _ => false

/-- The attempts that found `cv`. -/
def wins (cv : BitVec w) (e : Call A w) : Bool := attempts e && e.reply == cv

theorem claims_cases {cv x : BitVec w} {e : Call A w} (hU : e.call.claims cv)
    (h : (e.call.act x).1 = e.reply) :
    (attempts e = false ∧ (e.call.act x).2 = x) ∨
      ∃ pv nv, e = ⟨.compareExchange pv nv cv, x⟩ ∧ nv ≠ cv := by
  obtain ⟨c, r⟩ := e
  cases c with
  | inc pv => cases hU
  | dec pv => cases hU
  | add pv av => cases hU
  | exchange pv nv => cases hU
  | compareExchange pv nv c =>
      obtain ⟨rfl, hne⟩ := hU
      obtain rfl : x = r := h
      exact .inr ⟨pv, nv, rfl, hne⟩
  | read pv => exact .inl ⟨rfl, rfl⟩
  | write pv v => cases hU

/-- Nobody wins a word that does not hold `cv`. -/
theorem Follows.lost {cv x y : BitVec w} {es : List (Call A w)} (h : Follows x es y)
    (hU : ∀ e ∈ es, e.call.claims cv) (hx : x ≠ cv) : es.filter (wins cv) = [] ∧ y = x := by
  induction es generalizing x with
  | nil => exact ⟨rfl, h⟩
  | cons e es ih =>
      obtain ⟨hrep, htail⟩ := h
      have hrest := fun e' he' => hU e' (List.mem_cons_of_mem e he')
      rcases claims_cases (hU e List.mem_cons_self) hrep with ⟨hno, hword⟩ | ⟨pv, nv, rfl, hne⟩
      · rw [hword] at htail
        rw [List.filter_cons_of_neg (by simp [wins, hno])]
        exact ih htail hrest hx
      · rw [Op.act, if_neg hx] at htail
        rw [List.filter_cons_of_neg (by simp [wins, hx])]
        exact ih htail hrest hx

/-- The first attempt wins, no other one does, and the winner's value stays. -/
theorem Follows.claimed {cv y : BitVec w} {es : List (Call A w)} (h : Follows cv es y)
    (hU : ∀ e ∈ es, e.call.claims cv) :
    es.filter (wins cv) = (es.filter attempts).take 1 ∧
      ∀ e ∈ es.filter (wins cv), ∃ pv, e = ⟨.compareExchange pv y cv, cv⟩ := by
  induction es with
  | nil => exact ⟨rfl, by simp⟩
  | cons e es ih =>
      obtain ⟨hrep, htail⟩ := h
      have hrest := fun e' he' => hU e' (List.mem_cons_of_mem e he')
      rcases claims_cases (hU e List.mem_cons_self) hrep with ⟨hno, hword⟩ | ⟨pv, nv, rfl, hne⟩
      · rw [hword] at htail
        rw [List.filter_cons_of_neg (by simp [wins, hno]), List.filter_cons_of_neg (by simp [hno])]
        exact ih htail hrest
      · rw [Op.act, if_pos rfl] at htail
        obtain ⟨hnone, rfl⟩ := htail.lost hrest hne
        rw [List.filter_cons_of_pos (by simp [wins, attempts]),
          List.filter_cons_of_pos (by simp [attempts]), hnone]
        exact ⟨rfl, fun e he => ⟨pv, List.mem_singleton.mp he⟩⟩

/-! ## The results -/

theorem contenders_confined {U : Op Unit 8 → Prop} {c d : Op Unit 8} (hc : U c) (hd : U d)
    (t : Bool) : Confined () U (contenders c d t) := by
  intro r _
  cases t with
  | false => exact ⟨fun _ => hc, trivial⟩
  | true => exact ⟨fun _ => hd, trivial⟩

section

variable [DecidableEq θ] [DecidableEq A] {bound : Nat} {m : Memory A w} {pv : A}
  {start : θ → Prog (Op A w) (fun _ => BitVec w) α}
  {X : Threads θ (Instr A w) Instr.Reply α (Memory A w)}

theorem exists_follows (pv : A) (hX : (threads bound start m).Reachable X) :
    ∃ h, Linearized accesses atomically (code bound) start m X h ∧
      Follows (m pv) (onWord pv h) (X.shared pv) := by
  obtain ⟨h, hh⟩ := linearized_of_reachable (code_commits bound) hX
  exact ⟨h, hh, follows_onWord hh.replays⟩

/-- A shared counter: the word is its first value plus all that was added, and a
call returns what it would on the word left by the calls before it. -/
theorem atomic_counter (hU : ∀ t, Confined pv Op.counts (start t))
    (hX : (threads bound start m).Reachable X) :
    ∃ h, Linearized accesses atomically (code bound) start m X h ∧
      X.shared pv = m pv + total (onWord pv h) ∧
      ∀ before e after, onWord pv h = before ++ e :: after →
        e.reply = (e.call.act (m pv + total before)).1 := by
  obtain ⟨h, hh, hword⟩ := exists_follows pv hX
  have hcounts := confined_onWord hh hU
  refine ⟨h, hh, hword.counted hcounts, fun before e after hsplit => ?_⟩
  rw [hsplit] at hword hcounts
  exact hword.counted_reply fun e' he' => hcounts e' (List.mem_append_left _ he')

theorem atomic_counter_contended :
    ∃ h, Linearized accesses atomically (code 1) (contenders (.add () 5) (.dec ())) (fun _ => 0)
        (contend 1 (.add () 5) (.dec ()) (fun _ => 0) [true, false]) h ∧
      (contend 1 (.add () 5) (.dec ()) (fun _ => 0) [true, false]).shared () =
        0 + total (onWord () h) ∧
      ∀ before e after, onWord () h = before ++ e :: after →
        e.reply = (e.call.act (0 + total before)).1 :=
  atomic_counter (contenders_confined trivial trivial) (contend_reachable 1 _ _ _ _)

/-- Threads that only increment a word draw the numbers after its first value, each
once and in order, as long as the numbers last. -/
theorem atomic_tickets (hU : ∀ t, Confined pv (fun c => c = .inc pv ∨ ∃ p, c = .read p) (start t))
    (hX : (threads bound start m).Reachable X) :
    ∃ h drawn, Linearized accesses atomically (code bound) start m X h ∧
      drawn = results (.inc pv) (onWord pv h) ∧
      drawn = (List.range drawn.length).map (fun i => m pv + BitVec.ofNat w (i + 1)) ∧
      X.shared pv = m pv + BitVec.ofNat w drawn.length ∧
      (drawn.length ≤ 2 ^ w → drawn.Nodup) := by
  obtain ⟨h, hh, hword⟩ := exists_follows pv hX
  obtain ⟨hlist, hlast⟩ := hword.results_eq (d := 1) (fun _ => rfl) (confined_onWord hh hU)
  have hone : ∀ n : Nat, n • (1 : BitVec w) = BitVec.ofNat w n := fun n => by
    rw [nsmul_one, BitVec.natCast_eq_ofNat]
  simp only [hone] at hlist hlast
  refine ⟨h, _, hh, rfl, hlist, hlast, fun hlen => ?_⟩
  rw [hlist]
  refine List.Nodup.map_on (fun i hi j hj heq => ?_) List.nodup_range
  have hi := (List.mem_range.mp hi).trans_le hlen
  have hj := (List.mem_range.mp hj).trans_le hlen
  have hnat := congrArg BitVec.toNat (add_left_cancel heq)
  rw [BitVec.toNat_ofNat, BitVec.toNat_ofNat] at hnat
  exact (Nat.ModEq.add_right_cancel' 1 hnat).eq_of_lt_of_lt hi hj

theorem atomic_tickets_contended :
    ∃ h drawn, Linearized accesses atomically (code 1) (contenders (.inc ()) (.inc ()))
        (fun _ => 7) (contend 1 (.inc ()) (.inc ()) (fun _ => 7) [true, false]) h ∧
      drawn = results (.inc ()) (onWord () h) ∧
      drawn = (List.range drawn.length).map (fun i => 7 + BitVec.ofNat 8 (i + 1)) ∧
      (contend 1 (.inc ()) (.inc ()) (fun _ => 7) [true, false]).shared () =
        7 + BitVec.ofNat 8 drawn.length ∧
      (drawn.length ≤ 2 ^ 8 → drawn.Nodup) :=
  atomic_tickets (contenders_confined (.inl rfl) (.inl rfl))
    (contend_reachable 1 _ _ _ _)

/-- References counted in a word: of fewer than 2^w decrements exactly the one that
gives back the last reference returns 0. -/
theorem atomic_release
    (hU : ∀ t, Confined pv (fun c => c = .dec pv ∨ ∃ p, c = .read p) (start t))
    (hX : (threads bound start m).Reachable X) :
    ∃ h, Linearized accesses atomically (code bound) start m X h ∧
      ((results (.dec pv) (onWord pv h)).length < 2 ^ w →
        ∀ i r, (results (.dec pv) (onWord pv h))[i]? = some r →
          (r = 0 ↔ i + 1 = (m pv).toNat)) := by
  obtain ⟨h, hh, hword⟩ := exists_follows pv hX
  have hact : ∀ x : BitVec w, (Op.dec pv).act x = (x + -1, x + -1) := fun x => by
    rw [← sub_eq_add_neg]
    rfl
  obtain ⟨hlist, -⟩ := hword.results_eq hact (confined_onWord hh hU)
  refine ⟨h, hh, fun hlen i r hr => ?_⟩
  have hi := (List.getElem?_eq_some_iff.mp hr).1
  have hmod : (i + 1) % 2 ^ w = i + 1 := Nat.mod_eq_of_lt (Nat.lt_of_le_of_lt hi hlen)
  rw [hlist, List.getElem?_map, List.getElem?_range hi, Option.map_some] at hr
  rw [← Option.some.inj hr, nsmul_eq_mul, mul_neg, mul_one, add_neg_eq_zero,
    BitVec.natCast_eq_ofNat, ← BitVec.toNat_inj, BitVec.toNat_ofNat, hmod]
  exact eq_comm

theorem atomic_release_contended :
    ∃ h, Linearized accesses atomically (code 1) (contenders (.dec ()) (.dec ())) (fun _ => 2)
        (contend 1 (.dec ()) (.dec ()) (fun _ => 2) [true, false]) h ∧
      ((results (.dec ()) (onWord () h)).length < 2 ^ 8 →
        ∀ i r, (results (.dec ()) (onWord () h))[i]? = some r →
          (r = 0 ↔ i + 1 = BitVec.toNat (2 : BitVec 8))) :=
  atomic_release (contenders_confined (.inl rfl) (.inl rfl))
    (contend_reachable 1 _ _ _ _)

/-- Whatever threads exchange and compare-exchange, no value of the word is lost
or handed out twice. -/
theorem exchange_conserves (hU : ∀ t, Confined pv Op.trades (start t))
    (hX : (threads bound start m).Reachable X) :
    ∃ h, Linearized accesses atomically (code bound) start m X h ∧
      (m pv :: (onWord pv h).filterMap given).Perm
        (X.shared pv :: (onWord pv h).filterMap taken) := by
  obtain ⟨h, hh, hword⟩ := exists_follows pv hX
  exact ⟨h, hh, hword.conserves (confined_onWord hh hU)⟩

theorem exchange_conserves_contended :
    ∃ h, Linearized accesses atomically (code 2)
        (contenders (.exchange () 1) (.compareExchange () 2 0)) (fun _ => 0)
        (contend 2 (.exchange () 1) (.compareExchange () 2 0) (fun _ => 0)
          [false, true, false, false]) h ∧
      ((0 : BitVec 8) :: (onWord () h).filterMap given).Perm
        ((contend 2 (.exchange () 1) (.compareExchange () 2 0) (fun _ => 0)
          [false, true, false, false]).shared () :: (onWord () h).filterMap taken) :=
  exchange_conserves (contenders_confined trivial trivial)
    (contend_reachable 2 _ _ _ _)

/-- Of the threads that try to replace `cv` exactly the first succeeds, and its
value stays. -/
theorem compareExchange_once {cv : BitVec w} (hcv : m pv = cv)
    (hU : ∀ t, Confined pv (Op.claims cv) (start t)) (hX : (threads bound start m).Reachable X) :
    ∃ h, Linearized accesses atomically (code bound) start m X h ∧
      (onWord pv h).filter (wins cv) = ((onWord pv h).filter attempts).take 1 ∧
      ∀ e ∈ (onWord pv h).filter (wins cv), ∃ p, e = ⟨.compareExchange p (X.shared pv) cv, cv⟩ := by
  obtain ⟨h, hh, hword⟩ := exists_follows pv hX
  rw [hcv] at hword
  exact ⟨h, hh, hword.claimed (confined_onWord hh hU)⟩

theorem compareExchange_once_contended :
    ∃ h, Linearized accesses atomically (code 1)
        (contenders (.compareExchange () 1 0) (.compareExchange () 2 0)) (fun _ => 0)
        (contend 1 (.compareExchange () 1 0) (.compareExchange () 2 0) (fun _ => 0)
          [true, false]) h ∧
      (onWord () h).filter (wins 0) = ((onWord () h).filter attempts).take 1 ∧
      ∀ e ∈ (onWord () h).filter (wins 0), ∃ p, e = ⟨.compareExchange p
        ((contend 1 (.compareExchange () 1 0) (.compareExchange () 2 0) (fun _ => 0)
          [true, false]).shared ()) 0, 0⟩ :=
  compareExchange_once rfl
    (contenders_confined ⟨rfl, by decide⟩ ⟨rfl, by decide⟩) (contend_reachable 1 _ _ _ _)

end

end Atomic
end CommSpeed
