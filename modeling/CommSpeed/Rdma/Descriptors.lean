/-
The descriptors around a call of `sock_connect`.

The monitor is the descriptor table of the process.  A new descriptor is the
lowest free one, `close` frees its descriptor whatever it returns, and `connect`
on a descriptor that is not open fails.

The last statement of `sock_connect` closes `listenfd`, which the client branch
leaves at 0.  A client therefore closes descriptor 0, which is either a stranger
or, when it was free, the socket it is about to return.
-/
import CommSpeed.Rdma.Main

namespace CommSpeed
namespace Rdma

open Bytes Prog

inductive OpenFile
  | other (id : Nat)
  | socket
  | connected (server : String) (sinPort : UInt16)
  | accepted
  deriving DecidableEq

abbrev Fds := Nat → Option OpenFile

namespace Fds

def get (fds : Fds) (fd : Int) : Option OpenFile := if 0 ≤ fd then fds fd.toNat else none

def set (fds : Fds) (fd : Int) (file : Option OpenFile) : Fds :=
  fun i => if (i : Int) = fd then file else fds i

@[simp] theorem get_natCast (fds : Fds) (i : Nat) : fds.get i = fds i := by simp [get]

theorem get_of_neg (fds : Fds) {fd : Int} (h : fd < 0) : fds.get fd = none := by
  simp [get, not_le.mpr h]

@[simp] theorem set_self (fds : Fds) (i : Nat) (file : Option OpenFile) :
    fds.set i file i = file := by simp [set]

theorem set_of_ne (fds : Fds) {fd : Int} {i : Nat} (h : (i : Int) ≠ fd)
    (file : Option OpenFile) : fds.set fd file i = fds i := by simp [set, h]

@[simp] theorem set_set (fds : Fds) (fd : Int) (file file' : Option OpenFile) :
    (fds.set fd file).set fd file' = fds.set fd file' := by
  funext i
  by_cases h : (i : Int) = fd <;> simp [set, h]

theorem set_comm (fds : Fds) {fd fd' : Int} (h : fd ≠ fd') (file file' : Option OpenFile) :
    (fds.set fd file).set fd' file' = (fds.set fd' file').set fd file := by
  funext i
  by_cases h₁ : (i : Int) = fd
  · simp [set, h₁, h]
  · simp [set, h₁]

theorem set_neg (fds : Fds) {fd : Int} (h : fd < 0) (file : Option OpenFile) :
    fds.set fd file = fds := by
  funext i
  exact set_of_ne fds (by omega) file

theorem set_none (fds : Fds) {i : Nat} (h : fds i = none) : fds.set i none = fds := by
  funext j
  by_cases hj : j = i
  · rw [hj, set_self, h]
  · exact set_of_ne fds (by omega) none

/-- `fd` is the descriptor that a new file gets. -/
def IsLowestFree (fds : Fds) (fd : Int) : Prop :=
  0 ≤ fd ∧ fds.get fd = none ∧ ∀ i : Nat, (i : Int) < fd → (fds i).isSome

theorem IsLowestFree.exists_nat {fds : Fds} {fd : Int} (h : fds.IsLowestFree fd) :
    ∃ i : Nat, fd = i ∧ fds i = none := by
  obtain ⟨hfd, hfree, -⟩ := h
  obtain ⟨i, rfl⟩ := Int.eq_ofNat_of_zero_le hfd
  exact ⟨i, rfl, by simpa using hfree⟩

end Fds

/-- The descriptors of a run. -/
def kernel : Monitor Call Reply Fds where
  legal
    | fds, .socket, fd => fd = -1 ∨ fds.IsLowestFree fd
    | fds, .accept listenfd, fd => fd = -1 ∨ (fds.get listenfd).isSome ∧ fds.IsLowestFree fd
    | fds, .connect fd .., rc => fds.get fd = none → rc < 0
    | _, _, _ => True
  ok _ _ _ := True
  next
    | fds, .socket, fd => fds.set fd (some .socket)
    | fds, .accept _, fd => fds.set fd (some .accepted)
    | fds, .connect fd server sinPort, rc =>
      if rc < 0 then fds else fds.set fd (some (.connected server sinPort))
    | fds, .close fd, _ => fds.set fd none
    | fds, _, _ => fds

/-- The socket that `sock_connect` is asked for. -/
def requested (m : Machine) (servername : Option String) (port : UInt32) : OpenFile :=
  match servername with
  | some name => .connected name (htons m.order port.toUInt16)
  | none => .accepted

/-- Every descriptor that was open refers to what it did, a result that is not
negative is the one new descriptor and refers to `file`, and with the result -1
there is no new one. -/
structure Undisturbed (file : OpenFile) (before after : Fds) (sock : Int) : Prop where
  kept : ∀ i, (before i).isSome → after i = before i
  result : ∀ i : Nat, sock = i → before i = none ∧ after i = some file ∧
    ∀ j, j ≠ i → after j = before j
  failed : sock = -1 → ∀ i, (after i).isSome → (before i).isSome

def connectFailed (t : List (Event Call Reply)) : Bool :=
  t.any fun
    | ⟨.connect .., rc⟩ => decide (rc < 0)
    | _ => false

section

variable {before : Fds} {file : OpenFile} {sock : Int}

theorem undisturbed_refl : Undisturbed file before before (-1) :=
  ⟨fun _ _ => rfl, fun i h => by omega, fun _ _ h => h⟩

theorem undisturbed_set {i : Nat} (h : before i = none) :
    Undisturbed file before (before.set i (some file)) i where
  kept j hj := by
    apply Fds.set_of_ne
    rintro hji
    rw [Int.ofNat_inj.mp hji, h] at hj
    cases hj
  result j hj := by
    obtain rfl : i = j := Int.ofNat_inj.mp hj
    exact ⟨h, Fds.set_self _ _ _, fun k hk => Fds.set_of_ne _ (by omega) _⟩
  failed hi := by omega

/-- A call that closes a descriptor open before it disturbs. -/
theorem not_undisturbed_of_closed {fds : Fds} {i : Nat} (h : (before i).isSome) :
    ¬ Undisturbed file before (fds.set i none) sock := by
  intro hund
  have hkept := hund.kept i h
  rw [Fds.set_self] at hkept
  rw [← hkept] at h
  cases h

end

section

variable {m : Machine} {before : Fds} {t : List (Event Call Reply)} {sock : Int}

/-- A server closes the socket it listens on and keeps the accepted one. -/
theorem accepted_undisturbed {listenfd : Int}
    (hlisten : listenfd = -1 ∨ before.IsLowestFree listenfd)
    (haccept : sock = -1 ∨ ((before.set listenfd (some .socket)).get listenfd).isSome ∧
      (before.set listenfd (some .socket)).IsLowestFree sock) :
    Undisturbed .accepted before
      (((before.set listenfd (some .socket)).set sock (some .accepted)).set listenfd none)
      sock := by
  have hneg : (-1 : Int) < 0 := by decide
  obtain rfl | hlfree := hlisten
  · -- no socket to listen on, and no connection to accept from it
    obtain rfl | ⟨hopen, -⟩ := haccept
    · rw [Fds.set_neg _ hneg, Fds.set_neg _ hneg, Fds.set_neg _ hneg]
      exact undisturbed_refl
    · cases hopen
  obtain ⟨l, rfl, hl⟩ := hlfree.exists_nat
  obtain rfl | ⟨-, hsfree⟩ := haccept
  · rw [Fds.set_neg _ hneg, Fds.set_set, Fds.set_none before hl]
    exact undisturbed_refl
  obtain ⟨s, rfl, hs⟩ := hsfree.exists_nat
  have hne : (l : Int) ≠ s := by
    intro hls
    obtain rfl : l = s := Int.ofNat_inj.mp hls
    simp at hs
  rw [Fds.set_of_ne before hne.symm] at hs
  rw [Fds.set_comm _ hne, Fds.set_set, Fds.set_none]
  · exact undisturbed_set hs
  · rw [Fds.set_of_ne _ hne, hl]

theorem listen_undisturbed {port : UInt32} (h : Runs (sockConnect m none port) t (ret sock))
    (hlegal : kernel.Legal before t) :
    Undisturbed (requested m none port) before (kernel.after before t) sock := by
  obtain ⟨⟨fd, listenfd⟩, t₁, t₂, rfl, hbranch, hclose⟩ := Runs.split h
  obtain ⟨l, u₁, rfl, h₁⟩ := Runs.step hbranch
  obtain ⟨-, h₂⟩ := h₁.assert
  obtain ⟨_, u₂, rfl, h₃⟩ := h₂.step
  obtain ⟨_, u₃, rfl, h₄⟩ := h₃.step
  obtain ⟨s, u₄, rfl, h₅⟩ := h₄.step
  cases h₅
  obtain ⟨_, u₅, rfl, h₆⟩ := hclose.step
  cases h₆
  obtain ⟨hlisten, -, -, haccept, -⟩ := hlegal
  exact accepted_undisturbed hlisten haccept

/-- A client whose connection is there has closed a stranger or its own socket. -/
theorem connected_disturbs (file : OpenFile) {l rc : Int} (hsocket : l = -1 ∨ before.IsLowestFree l)
    (hconnect : (before.set l (some .socket)).get l = none → rc < 0) (hrc : ¬ rc < 0) :
    ¬ Undisturbed file before ((before.set l (some file)).set 0 none) l := by
  obtain rfl | hfree := hsocket
  · exact fun _ => hrc (hconnect (Fds.get_of_neg _ (by decide)))
  by_cases hzero : (before 0).isSome
  · exact not_undisturbed_of_closed hzero
  -- the lowest free descriptor is then 0
  obtain ⟨i, rfl, -⟩ := hfree.exists_nat
  have hi : i = 0 := by
    by_contra hi
    exact hzero (hfree.2.2 0 (by omega))
  subst hi
  intro hund
  have hres := (hund.result 0 rfl).2.1
  simp [Fds.set] at hres

/-- A client without a connection has closed its socket, if it got one, and then
descriptor 0. -/
theorem unconnected_undisturbed_iff (file : OpenFile) {l : Int}
    (hsocket : l = -1 ∨ before.IsLowestFree l) :
    Undisturbed file before ((before.set l none).set 0 none) (-1) ↔ before 0 = none := by
  have hclosed : before.set l none = before := by
    obtain rfl | hfree := hsocket
    · exact Fds.set_neg _ (by decide) none
    · obtain ⟨i, rfl, hi⟩ := hfree.exists_nat
      exact Fds.set_none before hi
  rw [hclosed]
  constructor
  · intro hund
    by_contra hzero
    exact not_undisturbed_of_closed (Option.isSome_iff_ne_none.mpr hzero) hund
  · intro hzero
    rw [show (0 : Int) = (0 : Nat) from rfl, Fds.set_none before hzero]
    exact undisturbed_refl

theorem connect_undisturbed_iff {name : String} {port : UInt32}
    (h : Runs (sockConnect m (some name) port) t (ret sock)) (hlegal : kernel.Legal before t) :
    Undisturbed (requested m (some name) port) before (kernel.after before t) sock ↔
      before 0 = none ∧ connectFailed t := by
  obtain ⟨⟨fd, listenfd⟩, t₁, t₂, rfl, hbranch, hclose⟩ := Runs.split h
  obtain ⟨l, u₁, rfl, h₁⟩ := Runs.step hbranch
  obtain ⟨rc, u₂, rfl, h₂⟩ := h₁.step
  obtain ⟨hsocket, hconnect, -⟩ := hlegal
  by_cases hrc : rc < 0
  · rw [if_pos hrc] at h₂
    obtain ⟨_, u₃, rfl, h₃⟩ := h₂.step
    cases h₃
    obtain ⟨_, u₄, rfl, h₄⟩ := hclose.step
    cases h₄
    have hafter := unconnected_undisturbed_iff (requested m (some name) port) hsocket
    simpa [Monitor.after, kernel, connectFailed, hrc] using hafter
  · rw [if_neg hrc] at h₂
    cases h₂
    obtain ⟨_, u₃, rfl, h₃⟩ := hclose.step
    cases h₃
    have hafter := connected_disturbs (requested m (some name) port) hsocket hconnect hrc
    simpa [Monitor.after, kernel, connectFailed, hrc, requested] using hafter

end

/-- The descriptors are left as they were, except for the result, if and only if
the call is made in server mode or `connect` fails in a process without a
descriptor 0. -/
theorem sockConnect_undisturbed_iff (m : Machine) (servername : Option String) (port : UInt32)
    {before : Fds} {t : List (Event Call Reply)} {sock : Int}
    (hrun : Runs (sockConnect m servername port) t (ret sock)) (hlegal : kernel.Legal before t) :
    Undisturbed (requested m servername port) before (kernel.after before t) sock ↔
      servername = none ∨ before 0 = none ∧ connectFailed t := by
  cases servername with
  | none =>
      have h := listen_undisturbed hrun hlegal
      simp only [h, true_or]
  | some name => simpa using connect_undisturbed_iff hrun hlegal

/-- The descriptors a process starts with: input, output and errors. -/
def stdio : Fds := fun i => if i < 3 then some (.other i) else none

def acceptingRun : List (Event Call Reply) :=
  [⟨.socket, (3 : Int)⟩, ⟨.bind 3 (htons .little 19875), (0 : Int)⟩, ⟨.listen 3 1, (0 : Int)⟩,
    ⟨.accept 3, (4 : Int)⟩, ⟨.close 3, (0 : Int)⟩]

theorem acceptingRun_runs : Runs (sockConnect littleMachine none 19875) acceptingRun (ret 4) :=
  .cons (.cons (.cons (.cons (.cons (.nil _)))))

theorem stdio_free (i : Nat) (h : 3 ≤ i) : stdio i = none := if_neg (not_lt.mpr h)

theorem stdio_lowestFree : stdio.IsLowestFree 3 :=
  ⟨by decide, stdio_free 3 (by decide), fun i hi => by simp [stdio, show i < 3 by omega]⟩

theorem acceptingRun_legal : kernel.Legal stdio acceptingRun := by
  refine ⟨.inr stdio_lowestFree, trivial, trivial, .inr ⟨rfl, by decide, rfl, ?_⟩, trivial, trivial⟩
  intro i hi
  show (Fds.set stdio 3 (some .socket) i).isSome
  by_cases h3 : (i : Int) = 3
  · simp [Fds.set, h3]
  · have hi' : (i : Int) < 4 := hi
    rw [Fds.set_of_ne _ h3]
    simp [stdio, show i < 3 by omega]

theorem sockConnect_undisturbed_iff_accepting :
    Undisturbed .accepted stdio (kernel.after stdio acceptingRun) 4 :=
  (sockConnect_undisturbed_iff littleMachine none 19875 acceptingRun_runs
    acceptingRun_legal).mpr (.inl rfl)

def connectingRun : List (Event Call Reply) :=
  [⟨.socket, (3 : Int)⟩, ⟨.connect 3 "10.0.0.1" (htons .little 19875), (0 : Int)⟩,
    ⟨.close 0, (0 : Int)⟩]

/-- The client closes its standard input. -/
theorem connectingRun_disturbs :
    Runs (sockConnect littleMachine (some "10.0.0.1") 19875) connectingRun (ret 3) ∧
    kernel.Legal stdio connectingRun ∧
    stdio 0 = some (.other 0) ∧ kernel.after stdio connectingRun 0 = none ∧
    ¬ Undisturbed (requested littleMachine (some "10.0.0.1") 19875) stdio
      (kernel.after stdio connectingRun) 3 := by
  have hconnect : kernel.legal (Fds.set stdio 3 (some .socket))
      (.connect 3 "10.0.0.1" (htons .little 19875)) 0 := nofun
  refine ⟨.cons (.cons (.cons (.nil _))), ⟨.inr stdio_lowestFree, hconnect, trivial, trivial⟩,
    rfl, rfl, ?_⟩
  exact not_undisturbed_of_closed (i := 0) rfl

end Rdma
end CommSpeed
