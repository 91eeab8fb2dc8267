/-
Buffers of bytes, the strings in them and what `read` puts there.
-/
import Mathlib.Data.List.TakeWhile

namespace CommSpeed
namespace Bytes

def charBytes (cs : List Char) : List UInt8 := cs.map fun c => UInt8.ofNat c.toNat

/-- The answer of `read`: -1, or a count and the bytes it stands for. -/
inductive ReadReply
  | failed
  | got (bytes : List UInt8)
  deriving DecidableEq

namespace ReadReply

def count : ReadReply → Int
  | failed => -1
  | got bs => bs.length

def bytes : ReadReply → List UInt8
  | failed => []
  | got bs => bs

@[simp] theorem count_failed : failed.count = -1 := rfl

@[simp] theorem count_got (bs : List UInt8) : (got bs).count = bs.length := rfl

@[simp] theorem bytes_got (bs : List UInt8) : (got bs).bytes = bs := rfl

end ReadReply

/-- The bytes of a buffer after `bs` is stored at its start. -/
def overlay (bs buf : List UInt8) : List UInt8 := bs ++ buf.drop bs.length

theorem overlay_whole {bs buf : List UInt8} (h : bs.length = buf.length) : overlay bs buf = bs := by
  rw [overlay, h, List.drop_length, List.append_nil]

theorem getElem?_overlay {bs buf : List UInt8} {i : Nat} (h : bs.length ≤ i) :
    (overlay bs buf)[i]? = buf[i]? := by
  rw [overlay, List.getElem?_append_right h, List.getElem?_drop]
  congr 1
  omega

/-- The string at the start of a block. -/
def cString (block : List UInt8) : List UInt8 := block.takeWhile (· ≠ 0)

theorem zero_notMem_cString (block : List UInt8) : 0 ∉ cString block := by
  intro h
  simpa using List.mem_takeWhile_imp h

theorem cString_append {t : List UInt8} (h : 0 ∉ t) (rest : List UInt8) :
    cString (t ++ rest) = t ++ cString rest := by
  have hall : ∀ b ∈ t, decide (b ≠ 0) = true := fun b hb => decide_eq_true fun h0 => h (h0 ▸ hb)
  exact List.takeWhile_append_of_pos hall

theorem cString_terminated {t : List UInt8} (h : 0 ∉ t) (rest : List UInt8) :
    cString (t ++ 0 :: rest) = t := by
  rw [cString_append h]
  simp [cString]

end Bytes
end CommSpeed
