/-
The connection data on the wire.

Each side fills a `cm_con_data_t` with converted fields and sends its 40 bytes as
they lie in memory; the other side reads those bytes into its own
`cm_con_data_t` and converts the fields back.

The 64-bit conversion is chosen by the preprocessor from `_BYTE_ORDER` and
`__LITLE_ENDIAN`, two identifiers that no header defines.  Both count as 0 in
`#if`, so the first branch is taken on every host and `htonll` swaps the bytes
on big-endian hosts too.
-/
import CommSpeed.Rdma.Types

namespace CommSpeed
namespace Rdma

open Bytes ByteOrder

/-! ## Conversions -/

/-- The identifiers that the byte-order test of the source could read. -/
inductive Macro
  /-- `_BYTE_ORDER` -/
  | oneUnderscoreByteOrder
  /-- `__BYTE_ORDER` -/
  | byteOrder
  /-- `__LITLE_ENDIAN` -/
  | litleEndian
  /-- `__LITTLE_ENDIAN` -/
  | littleEndian
  /-- `__BIG_ENDIAN` -/
  | bigEndian

/-- The value of an identifier in `#if` on a host: what `endian.h` defines it to
be, and 0 where no header defines it. -/
def Macro.value (host : ByteOrder) : Macro → Nat
  | littleEndian => 1234
  | bigEndian => 4321
  | byteOrder => match host with
    | .little => 1234
    | .big => 4321
  | oneUnderscoreByteOrder => 0
  | litleEndian => 0

/-- The `#if` that selects the 64-bit conversions: whether they swap, or `none`
for the `#error` branch. -/
def longLongSwaps (host : ByteOrder) : Option Bool :=
  if Macro.oneUnderscoreByteOrder.value host = Macro.litleEndian.value host then some true
  else if Macro.oneUnderscoreByteOrder.value host = Macro.bigEndian.value host then some false
  else none

theorem longLongSwaps_eq (host : ByteOrder) : longLongSwaps host = some true := rfl

def bswap64 (x : UInt64) : UInt64 := UInt64.ofNat (swap 8 x.toNat)
def bswap32 (x : UInt32) : UInt32 := UInt32.ofNat (swap 4 x.toNat)
def bswap16 (x : UInt16) : UInt16 := UInt16.ofNat (swap 2 x.toNat)

def htonll (host : ByteOrder) (x : UInt64) : UInt64 :=
  if longLongSwaps host = some true then bswap64 x else x

def ntohll (host : ByteOrder) (x : UInt64) : UInt64 :=
  if longLongSwaps host = some true then bswap64 x else x

def htonl (host : ByteOrder) (x : UInt32) : UInt32 :=
  match host with
  | little => bswap32 x
  | big => x

def ntohl (host : ByteOrder) (x : UInt32) : UInt32 :=
  match host with
  | little => bswap32 x
  | big => x

def htons (host : ByteOrder) (x : UInt16) : UInt16 :=
  match host with
  | little => bswap16 x
  | big => x

def ntohs (host : ByteOrder) (x : UInt16) : UInt16 :=
  match host with
  | little => bswap16 x
  | big => x

/-! ## Memory layout -/

namespace CmConData

/-- The record as it lies in the memory of a host: the five fields in order and
the padding that rounds 34 bytes up to 40. -/
def toMemory (host : ByteOrder) (pad : Vector UInt8 6) (d : CmConData) : List UInt8 :=
  store host 8 d.addr.toNat ++ store host 4 d.rkey.toNat ++ store host 4 d.qpNum.toNat ++
    store host 2 d.lid.toNat ++ d.gid.toList ++ pad.toList

/-- The record a host sees in the given memory. -/
def ofMemory (host : ByteOrder) (mem : List UInt8) : CmConData :=
  { addr := UInt64.ofNat (load host (mem.take 8)),
    rkey := UInt32.ofNat (load host ((mem.drop 8).take 4)),
    qpNum := UInt32.ofNat (load host ((mem.drop 12).take 4)),
    lid := UInt16.ofNat (load host ((mem.drop 16).take 2)),
    gid := Vector.ofFn fun i => mem.getD (18 + i) 0 }

end CmConData

/-- The conversions of `connect_qp` before it sends its data. -/
def encodeConData (host : ByteOrder) (d : CmConData) : CmConData :=
  { addr := htonll host d.addr,
    rkey := htonl host d.rkey,
    qpNum := htonl host d.qpNum,
    lid := htons host d.lid,
    gid := d.gid }

/-- The conversions of `connect_qp` on the data it received. -/
def decodeConData (host : ByteOrder) (d : CmConData) : CmConData :=
  { addr := ntohll host d.addr,
    rkey := ntohl host d.rkey,
    qpNum := ntohl host d.qpNum,
    lid := ntohs host d.lid,
    gid := d.gid }

/-- The 40 bytes a host sends. -/
def conDataBytes (host : ByteOrder) (pad : Vector UInt8 6) (d : CmConData) : List UInt8 :=
  (encodeConData host d).toMemory host pad

/-- What a host makes of 40 bytes it received. -/
def conDataOf (host : ByteOrder) (mem : List UInt8) : CmConData :=
  decodeConData host (CmConData.ofMemory host mem)

@[simp] theorem length_conDataBytes (host : ByteOrder) (pad : Vector UInt8 6) (d : CmConData) :
    (conDataBytes host pad d).length = 40 := by
  simp [conDataBytes, CmConData.toMemory]

/-! ## What a conversion does to the bytes in memory -/

theorem toNat_bswap64 (x : UInt64) : (bswap64 x).toNat = swap 8 x.toNat := by
  rw [bswap64, UInt64.toNat_ofNat']
  exact Nat.mod_eq_of_lt (swap_lt 8 _)

theorem toNat_bswap32 (x : UInt32) : (bswap32 x).toNat = swap 4 x.toNat := by
  rw [bswap32, UInt32.toNat_ofNat']
  exact Nat.mod_eq_of_lt (swap_lt 4 _)

theorem toNat_bswap16 (x : UInt16) : (bswap16 x).toNat = swap 2 x.toNat := by
  rw [bswap16, UInt16.toNat_ofNat']
  exact Nat.mod_eq_of_lt (swap_lt 2 _)

theorem bswap64_bswap64 (x : UInt64) : bswap64 (bswap64 x) = x := by
  apply UInt64.toNat_inj.mp
  rw [toNat_bswap64, toNat_bswap64, swap_swap x.toNat_lt]

theorem bswap32_bswap32 (x : UInt32) : bswap32 (bswap32 x) = x := by
  apply UInt32.toNat_inj.mp
  rw [toNat_bswap32, toNat_bswap32, swap_swap x.toNat_lt]

theorem bswap16_bswap16 (x : UInt16) : bswap16 (bswap16 x) = x := by
  apply UInt16.toNat_inj.mp
  rw [toNat_bswap16, toNat_bswap16, swap_swap x.toNat_lt]

/-- `htonl` puts the big-endian bytes in memory on either kind of host. -/
theorem store_htonl (host : ByteOrder) (x : UInt32) :
    store host 4 (htonl host x).toNat = store big 4 x.toNat := by
  cases host with
  | little => rw [htonl, toNat_bswap32, store_swap]; rfl
  | big => rfl

theorem store_htons (host : ByteOrder) (x : UInt16) :
    store host 2 (htons host x).toNat = store big 2 x.toNat := by
  cases host with
  | little => rw [htons, toNat_bswap16, store_swap]; rfl
  | big => rfl

/-- `htonll` puts the reverse of the host's own layout in memory, which is the
big-endian layout on little-endian hosts only. -/
theorem store_htonll (host : ByteOrder) (x : UInt64) :
    store host 8 (htonll host x).toNat = store host.other 8 x.toNat := by
  rw [htonll, if_pos (longLongSwaps_eq host), toNat_bswap64, store_swap]

theorem ntohl_load (host : ByteOrder) (x : UInt32) :
    ntohl host (UInt32.ofNat (load host (store big 4 x.toNat))) = x := by
  cases host with
  | little =>
      have h : load little (store big 4 x.toNat) = swap 4 x.toNat :=
        load_store_other little x.toNat
      rw [h]
      exact bswap32_bswap32 x
  | big =>
      rw [load_store big x.toNat_lt]
      exact UInt32.ofNat_toNat

theorem ntohs_load (host : ByteOrder) (x : UInt16) :
    ntohs host (UInt16.ofNat (load host (store big 2 x.toNat))) = x := by
  cases host with
  | little =>
      have h : load little (store big 2 x.toNat) = swap 2 x.toNat :=
        load_store_other little x.toNat
      rw [h]
      exact bswap16_bswap16 x
  | big =>
      rw [load_store big x.toNat_lt]
      exact UInt16.ofNat_toNat

/-- The 64-bit field read back: the sender's value between hosts of one order,
the swapped value between hosts of different orders. -/
theorem ntohll_load (sender receiver : ByteOrder) (x : UInt64) :
    ntohll receiver (UInt64.ofNat (load receiver (store sender.other 8 x.toNat))) =
      if sender = receiver then x else bswap64 x := by
  rw [ntohll, if_pos (longLongSwaps_eq receiver)]
  by_cases h : sender = receiver
  · subst h
    rw [if_pos rfl, load_store_other]
    exact bswap64_bswap64 x
  · have hother : sender.other = receiver := by
      cases sender <;> cases receiver <;> first | rfl | exact absurd rfl h
    rw [if_neg h, hother, load_store receiver x.toNat_lt, UInt64.ofNat_toNat]

/-! ## The exchange between two hosts -/

theorem conDataBytes_eq (host : ByteOrder) (pad : Vector UInt8 6) (d : CmConData) :
    conDataBytes host pad d =
      store host.other 8 d.addr.toNat ++ (store big 4 d.rkey.toNat ++ (store big 4 d.qpNum.toNat ++
        (store big 2 d.lid.toNat ++ (d.gid.toList ++ pad.toList)))) := by
  simp only [conDataBytes, CmConData.toMemory, encodeConData, store_htonll, store_htonl,
    store_htons, List.append_assoc]

/-- The field after a field of `n` bytes at offset `i`. -/
theorem drop_field {l a b : List UInt8} {i n : Nat} (h : l.drop i = a ++ b)
    (ha : a.length = n) : l.drop (i + n) = b := by
  rw [← List.drop_drop, h, List.drop_left' ha]

/-- What the receiver decodes from the sender's bytes.  Every field survives
except the address between hosts of different byte orders. -/
theorem conDataOf_conDataBytes (sender receiver : ByteOrder) (pad : Vector UInt8 6)
    (d : CmConData) :
    conDataOf receiver (conDataBytes sender pad d) =
      { d with addr := if sender = receiver then d.addr else bswap64 d.addr } := by
  have haddr : ((conDataBytes sender pad d).take 8) = store sender.other 8 d.addr.toNat := by
    rw [conDataBytes_eq, List.take_left' (length_store _ _ _)]
  have hdrop8 : (conDataBytes sender pad d).drop 8 = store big 4 d.rkey.toNat ++
      (store big 4 d.qpNum.toNat ++ (store big 2 d.lid.toNat ++ (d.gid.toList ++ pad.toList))) := by
    rw [conDataBytes_eq, List.drop_left' (length_store _ _ _)]
  have hdrop12 := drop_field hdrop8 (length_store _ _ _)
  have hdrop16 := drop_field hdrop12 (length_store _ _ _)
  have hdrop18 := drop_field hdrop16 (length_store _ _ _)
  have hgid : (Vector.ofFn fun i : Fin 16 => (conDataBytes sender pad d).getD (18 + i) 0) =
      d.gid := by
    ext i hi
    rw [Vector.getElem_ofFn, List.getD_eq_getElem?_getD, ← List.getElem?_drop, hdrop18,
      List.getElem?_append_left (by simpa using hi)]
    simp [hi]
  simp only [conDataOf, decodeConData, CmConData.ofMemory, haddr, hdrop8, hdrop12, hdrop16, hgid,
    List.take_left' (length_store _ _ _), ntohl_load, ntohs_load, ntohll_load]

/-- The receiver recovers exactly what the sender put in. -/
def RoundTrips (sender receiver : ByteOrder) (pad : Vector UInt8 6) (d : CmConData) : Prop :=
  conDataOf receiver (conDataBytes sender pad d) = d

/-- Each integer field is on the wire most significant byte first. -/
def TravelsBigEndian (sender : ByteOrder) (pad : Vector UInt8 6) (d : CmConData) : Prop :=
  conDataBytes sender pad d =
    store big 8 d.addr.toNat ++ (store big 4 d.rkey.toNat ++ (store big 4 d.qpNum.toNat ++
      (store big 2 d.lid.toNat ++ (d.gid.toList ++ pad.toList))))

theorem roundTrips_iff_addr (sender receiver : ByteOrder) (pad : Vector UInt8 6)
    (d : CmConData) :
    RoundTrips sender receiver pad d ↔ sender = receiver ∨ bswap64 d.addr = d.addr := by
  rw [RoundTrips, conDataOf_conDataBytes]
  by_cases h : sender = receiver
  · simp [h]
  · simp only [h, if_false, false_or]
    constructor
    · intro hd
      have haddr := congrArg CmConData.addr hd
      dsimp only at haddr
      exact haddr
    · intro ha
      rw [ha]

theorem store_little_eq_big_iff (x : UInt64) :
    store little 8 x.toNat = store big 8 x.toNat ↔ bswap64 x = x := by
  rw [← UInt64.toNat_inj, toNat_bswap64]
  constructor
  · intro h
    exact store_inj little (swap_lt 8 _) x.toNat_lt (by rw [store_swap]; exact h.symm)
  · intro h
    conv_lhs => rw [← h]
    exact store_swap little 8 x.toNat

theorem travelsBigEndian_iff_addr (sender : ByteOrder) (pad : Vector UInt8 6) (d : CmConData) :
    TravelsBigEndian sender pad d ↔ sender = little ∨ bswap64 d.addr = d.addr := by
  rw [TravelsBigEndian, conDataBytes_eq]
  cases sender with
  | little => simp [other]
  | big =>
      rw [List.append_left_inj]
      simpa [other] using store_little_eq_big_iff d.addr

/-- The connection data survives the exchange exactly between hosts of one byte
order or for an address that reads the same in both orders, and it is in
network order exactly when the sender is little-endian or the address reads the
same in both orders. -/
theorem conData_roundTrips_iff (sender receiver : ByteOrder) (pad : Vector UInt8 6)
    (d : CmConData) :
    (RoundTrips sender receiver pad d ↔ sender = receiver ∨ bswap64 d.addr = d.addr) ∧
    (TravelsBigEndian sender pad d ↔ sender = little ∨ bswap64 d.addr = d.addr) :=
  ⟨roundTrips_iff_addr sender receiver pad d, travelsBigEndian_iff_addr sender pad d⟩

/-- A little-endian sender whose buffer lies at address 1 and a big-endian
receiver: the receiver decodes the address as `2 ^ 56`. -/
theorem conData_mixed_hosts :
    ¬ RoundTrips little big (Vector.replicate 6 0)
      { addr := 1, rkey := 0, qpNum := 0, lid := 0, gid := Vector.replicate 16 0 } := by
  rw [roundTrips_iff_addr]
  decide

end Rdma
end CommSpeed
