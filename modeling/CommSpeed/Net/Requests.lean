/-
The requests of `clientThread` against a peer that sends anything.

`read` is asked for no more bytes than the string in the buffer has, so the terminator
behind the string is never overwritten.  A zero in what is read puts another one before
it, and the request is shorter from then on.  It never grows again, and no later
iteration passes the check.
-/
import CommSpeed.Net.Network

namespace CommSpeed
namespace Net

open Bytes Prog

section

variable {buf bs : List UInt8} {its : List Iteration} {p : Nat}

/-- The string ends at the first zero. -/
theorem cString_ends (h : buf[p]? = some 0) :
    (cString buf).length ≤ p ∧ buf[(cString buf).length]? = some 0 := by
  induction buf generalizing p with
  | nil => cases h
  | cons b buf ih =>
      by_cases hb : b = 0
      · subst hb
        exact ⟨Nat.zero_le p, rfl⟩
      · have hcons : cString (b :: buf) = b :: cString buf := by simp [cString, hb]
        rw [hcons, List.length_cons]
        cases p with
        | zero => exact absurd (Option.some.inj h) hb
        | succ p =>
            obtain ⟨hle, hzero⟩ := ih h
            exact ⟨Nat.succ_le_succ hle, hzero⟩

/-- What is read over a string leaves the zero behind it. -/
theorem overlay_ends (h : buf[p]? = some 0) (hbs : bs.length ≤ (cString buf).length) :
    (overlay bs buf)[(cString buf).length]? = some 0 := by
  rw [getElem?_overlay hbs]
  exact (cString_ends h).2

theorem Plays.request_le (h : Plays buf its) (hp : buf[p]? = some 0) :
    ∀ it ∈ its, it.request.length ≤ p := by
  induction its generalizing buf p with
  | nil => exact nofun
  | cons it its ih =>
      obtain ⟨hrequest, hlen, -, hrest⟩ := h
      have hle := (cString_ends hp).1
      intro it' hit'
      rcases List.mem_cons.mp hit' with rfl | hit'
      · rwa [hrequest]
      · exact (ih hrest (overlay_ends hp hlen) it' hit').trans hle

/-- No request is longer than one before it. -/
theorem Plays.requests_shrink (h : Plays buf its) (hp : buf[p]? = some 0) :
    its.Pairwise fun a b => b.request.length ≤ a.request.length := by
  induction its generalizing buf p with
  | nil => exact .nil
  | cons it its ih =>
      obtain ⟨hrequest, hlen, -, hrest⟩ := h
      have hover := overlay_ends hp hlen
      refine .cons (fun later hlater => ?_) (ih hrest hover)
      rw [hrequest]
      exact hrest.request_le hover later hlater

/-- An iteration with a short request fails the check. -/
theorem Plays.short_reported (h : Plays buf its) (hp : buf[p]? = some 0) :
    ∀ it ∈ its, it.request.length < 11 → it.reported = true := by
  induction its generalizing buf p with
  | nil => exact nofun
  | cons it its ih =>
      obtain ⟨hrequest, hlen, hreported, hrest⟩ := h
      have hover := overlay_ends hp hlen
      intro it' hit' hshort
      rcases List.mem_cons.mp hit' with rfl | hit'
      · rw [hrequest] at hshort
        refine hreported.mpr fun hecho => ?_
        have hle := (cString_ends hover).1
        rw [hecho, show helloWorld.length = 11 from rfl] at hle
        omega
      · exact ih hrest hover it' hit' hshort

theorem greeting_ends (fresh : Vector UInt8 64) : (greeting fresh)[11]? = some 0 := rfl

end

/-- In a finished run no request has more than the eleven bytes of the first one or more
than an earlier one, and from the first shorter request on every iteration reports an
error. -/
theorem clientThread_requests {n : Nat} {fresh : Vector UInt8 64} {t : List (Event Call Reply)}
    (hrun : Runs (clientThread n fresh) t (ret 0)) (hlegal : iterations.Legal [] t) {i j : Nat}
    {a b : Iteration} (ha : (iterationsOf t)[i]? = some a) (hb : (iterationsOf t)[j]? = some b)
    (hij : i ≤ j) :
    a.request.length ≤ 11 ∧ b.request.length ≤ a.request.length ∧
      (a.request.length < 11 → b.reported = true) := by
  have hplays : Plays (greeting fresh) (iterationsOf t) :=
    ((clientThread_plays n fresh).runs hrun hlegal).2.2
  have hends := greeting_ends fresh
  have hle : b.request.length ≤ a.request.length := by
    rcases Nat.eq_or_lt_of_le hij with rfl | hlt
    · rw [Option.some.inj (ha.symm.trans hb)]
    · obtain ⟨hi, rfl⟩ := List.getElem?_eq_some_iff.mp ha
      obtain ⟨hj, rfl⟩ := List.getElem?_eq_some_iff.mp hb
      exact List.pairwise_iff_getElem.mp (hplays.requests_shrink hends) i j hi hj hlt
  refine ⟨hplays.request_le hends a (List.mem_of_getElem? ha), hle, fun hshort => ?_⟩
  exact hplays.short_reported hends b (List.mem_of_getElem? hb) (Nat.lt_of_le_of_lt hle hshort)

/-- A peer that sends a zero once and is a good echo from then on. -/
def zeroEcho : List (List UInt8) :=
  [helloWorld.take 5 ++ [0], helloWorld.take 5, helloWorld.take 5]

theorem clientThread_requests_zeroEcho :
    (helloWorld.take 5).length ≤ 11 ∧ (helloWorld.take 5).length ≤ (helloWorld.take 5).length ∧
      ((helloWorld.take 5).length < 11 → true = true) := by
  have hrun := runs_play scripted (clientThread 3 (Vector.replicate 64 0)) zeroEcho
  exact clientThread_requests (a := ⟨helloWorld.take 5, helloWorld.take 5, true⟩)
    (b := ⟨helloWorld.take 5, helloWorld.take 5, true⟩) (i := 1) (j := 2) hrun (by decide) rfl rfl
    (by decide)

end Net
end CommSpeed
