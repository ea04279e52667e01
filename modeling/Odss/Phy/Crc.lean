import Odss.Lib.BitStream
import Odss.Lib.Gf2Poly
import Odss.Lib.Run

/-!
# `Odss.Phy.Crc`: the table-driven CRC

The model of `srsran_crc_t` (`lib/src/phy/fec/crc.c`, `lib/include/srsran/phy/fec/crc.h`). A message
is a list of bits, one in each byte of the buffer of the source.

* `isRem_table`: an entry of the table is the remainder of its index.
* `isRem_putByte`: what a byte does to the register, of which only the last `order` bits count.
* `isRem_checksum`: the padding of the last byte is undone by as many steps back.
-/

set_option linter.all false

open Polynomial

namespace Odss.Phy

open Odss.Lib Odss.Lib.Gf2

/-- `srsran_crc_t` -/
structure SrsranCrc where
  table : List Nat := []
  polynom : Nat
  order : Nat
  crcinit : Nat := 0
  crcmask : Nat
  crchighbit : Nat

namespace SrsranCrc

/-- One step of `gen_crc_table` -/
def tableStep (polynom crchighbit crc : Nat) : Nat :=
  let bit := crc &&& crchighbit != 0
  let crc := crc <<< 1 % 2 ^ 64
  if bit then crc ^^^ polynom else crc

/-- The entry `i` of `gen_crc_table` -/
def tableEntry (h : SrsranCrc) (i : Nat) : Nat :=
  let pad := if h.order < 8 then 8 - h.order else 0
  let ord := h.order + pad - 8
  let polynom := h.polynom <<< pad % 2 ^ 32
  let crchighbit := h.crchighbit <<< pad % 2 ^ 32
  let crc := (List.range 8).foldl (fun crc _ => tableStep polynom crchighbit crc)
    (i <<< ord % 2 ^ 64)
  crc >>> pad &&& h.crcmask

/-- `gen_crc_table` -/
def genCrcTable (h : SrsranCrc) : SrsranCrc :=
  { h with table := (List.range 256).map h.tableEntry }

/-- `srsran_crc_set_init` -/
def setInit (h : SrsranCrc) (crcInitValue : Nat) : Int × SrsranCrc :=
  (if crcInitValue ≠ crcInitValue &&& h.crcmask then -1 else 0, { h with crcinit := crcInitValue })

/-- `srsran_crc_init` -/
def init (crcPoly crcOrder : Nat) : Int × SrsranCrc :=
  let h : SrsranCrc :=
    { polynom := crcPoly, order := crcOrder
      crcmask := ((1 <<< (crcOrder - 1) - 1) <<< 1) ||| 1
      crchighbit := 1 <<< (crcOrder - 1) }
  let (ret, h) := h.setInit h.crcinit
  if ret ≠ 0 then (-1, h) else (0, h.genCrcTable)

/-- `srsran_crc_checksum_put_byte` -/
def putByte (h : SrsranCrc) (byte : Nat) : SrsranCrc :=
  let crc := h.crcinit
  let idx :=
    if 8 < h.order then (crc >>> (h.order - 8) &&& 0xff) ^^^ byte
    else (crc <<< (8 - h.order) % 2 ^ 64 &&& 0xff) ^^^ byte
  { h with crcinit := (crc <<< 8 % 2 ^ 64) ^^^ h.table.getD idx 0 }

/-- `srsran_crc_checksum_get` -/
def checksumGet (h : SrsranCrc) : Nat := h.crcinit &&& h.crcmask

/-- `reversecrcbit` -/
def reverseCrcBit (crc nbits : Nat) (h : SrsranCrc) : Nat :=
  (List.range nbits).foldl
    (fun crc _ => if 1 &&& crc = 1 then (crc ^^^ h.polynom) >>> 1 else crc >>> 1) crc &&& h.crcmask

/-- The bits of a byte are set one by one, the first one at the bit `top`. -/
def setBits (top : Nat) (bits : List Bool) : Nat :=
  bits.zipIdx.foldl (fun value bi => value ||| bi.1.toNat <<< (top - bi.2)) 0

/-- `srsran_bit_pack` -/
def bitPack (bits : List Bool) : Nat := setBits (bits.length - 1) bits

/-- The byte `i` of the message, the last one with what is left over -/
def byteOf (data : List Bool) (len i : Nat) : Nat :=
  let len8 := len / 8
  let res8 := len - len8 * 8
  let pter := data.drop (8 * i)
  if i = len8 then setBits 7 (pter.take res8) else bitPack (pter.take 8) &&& 0xff

/-- `srsran_crc_checksum` -/
def checksum (h : SrsranCrc) (data : List Bool) (len : Nat) : Nat × SrsranCrc :=
  let h := (h.setInit 0).2
  let len8 := len / 8
  let res8 := len - len8 * 8
  let a := if 0 < res8 then 1 else 0
  let h := (List.range (len8 + a)).foldl (fun h i => h.putByte (byteOf data len i)) h
  let crc := h.checksumGet
  let crc := if a = 1 then reverseCrcBit crc (8 - res8) h else crc
  (crc, h)

/-- `srsran_crc_checksum_byte` -/
def checksumByte (h : SrsranCrc) (data : List UInt8) (len : Nat) : Nat × SrsranCrc :=
  let h := (h.setInit 0).2
  let h := (data.take (len / 8)).foldl (fun h byte => h.putByte byte.toNat) h
  (h.checksumGet, h)

/-- `srsran_crc_attach`, with the buffer afterwards -/
def attach (h : SrsranCrc) (data : List Bool) (len : Nat) : (Nat × List Bool) × SrsranCrc :=
  let (checksum, h) := h.checksum data len
  ((checksum, data.take len ++ bitsOf h.order checksum ++ data.drop (len + h.order)), h)

/-- `srsran_crc_match` -/
def crcMatch (h : SrsranCrc) (data : List Bool) (len : Nat) : Bool × SrsranCrc :=
  let (checksum, h) := h.checksum data (len + h.order)
  (checksum == 0, h)

/-- A call on the object -/
inductive Call where
  | setInit (value : Nat)
  | putByte (byte : UInt8)
  | checksum (data : List Bool) (len : Nat)
  | checksumByte (data : List UInt8) (len : Nat)
  | attach (data : List Bool) (len : Nat)
  | crcMatch (data : List Bool) (len : Nat)

/-- What a call does to the object. -/
def call (h : SrsranCrc) : Call → SrsranCrc
  | .setInit value => (h.setInit value).2
  | .putByte byte => h.putByte byte.toNat
  | .checksum data len => (h.checksum data len).2
  | .checksumByte data len => (h.checksumByte data len).2
  | .attach data len => (h.attach data len).2
  | .crcMatch data len => (h.crcMatch data len).2

/-! ### The table -/

variable {poly order : Nat}

theorem crcmask_eq : ∀ order ≤ 24, 1 ≤ order →
    ((1 <<< (order - 1) - 1) <<< 1) ||| 1 = 2 ^ order - 1 := by decide

/-- Of the register of 64 bits the last bits only count: there the step is that of the division. -/
theorem tableStep_mod {g k : Nat} (hlt : g < 2 ^ (k + 2)) (hbit : g.testBit (k + 1) = true)
    (hk : k < 32) (crc : Nat) :
    tableStep g (1 <<< k) crc % 2 ^ (k + 1) = double g (k + 1) (crc % 2 ^ (k + 1)) := by
  have hdouble : double g (k + 1) (crc % 2 ^ (k + 1)) < 2 ^ (k + 1) :=
    ((isRem_self (Nat.mod_lt crc (Nat.two_pow_pos (k + 1)))).double hlt hbit).lt
  have hshift : crc <<< 1 % 2 ^ 64 % 2 ^ (k + 1) = (crc % 2 ^ (k + 1)) <<< 1 % 2 ^ (k + 1) := by
    rw [Nat.mod_mod_of_dvd _ (Nat.pow_dvd_pow 2 (by omega)), Nat.shiftLeft_eq, Nat.shiftLeft_eq,
      Nat.mod_mul_mod]
  have htest : (crc &&& 1 <<< k != 0) = (crc % 2 ^ (k + 1)).testBit k := by
    rw [Nat.one_shiftLeft, Nat.and_two_pow, Nat.testBit_mod_two_pow, decide_eq_true (by omega)]
    cases crc.testBit k with
    | true => simp
    | false => simp
  rw [← Nat.mod_eq_of_lt hdouble, tableStep, Gf2.double, Nat.add_sub_cancel, ← htest]
  split
  · rw [Nat.xor_mod_two_pow, Nat.xor_mod_two_pow, hshift]
  · exact hshift

theorem tableLoop {g k : Nat} (hlt : g < 2 ^ (k + 2)) (hbit : g.testBit (k + 1) = true)
    (hk : k < 32) (js : List Nat) {p : (ZMod 2)[X]} {crc : Nat}
    (h : IsRem g (k + 1) p (crc % 2 ^ (k + 1))) :
    IsRem g (k + 1) (p * X ^ js.length)
      (js.foldl (fun crc _ => tableStep g (1 <<< k) crc) crc % 2 ^ (k + 1)) := by
  induction js generalizing crc p with
  | nil => simpa using h
  | cons j js ih =>
    rw [List.foldl_cons, List.length_cons, pow_succ', ← mul_assoc]
    apply ih
    rw [tableStep_mod hlt hbit hk]
    exact h.double hlt hbit

/-- What the calls on an object rely on -/
structure Ready (poly order : Nat) (h : SrsranCrc) : Prop where
  polynom_eq : h.polynom = poly
  order_eq : h.order = order
  crcmask_eq : h.crcmask = 2 ^ order - 1
  table : ∀ i < 256, IsRem poly order (toPoly i * X ^ order) (h.table.getD i 0)

section Generator

variable (h1 : 1 ≤ order) (h24 : order ≤ 24) (hlt : poly < 2 ^ (order + 1))
  (hbit : poly.testBit order = true)

include h1 h24 hlt hbit

/-- An entry of the table is the remainder of its index. For an order below 8 the division is by
the shifted polynomial. -/
theorem isRem_tableEntry {h : SrsranCrc} (hpoly : h.polynom = poly) (horder : h.order = order)
    (hmask : h.crcmask = 2 ^ order - 1) (hhigh : h.crchighbit = 1 <<< (order - 1)) {i : Nat}
    (hi : i < 256) : IsRem poly order (toPoly i * X ^ order) (h.tableEntry i) := by
  obtain ⟨pad, hpad⟩ : ∃ pad, (if order < 8 then 8 - order else 0) = pad := ⟨_, rfl⟩
  have hpad8 : pad ≤ 7 ∧ 8 ≤ order + pad ∧ order + pad ≤ 24 := by
    rw [← hpad]
    split <;> omega
  obtain ⟨k, hk⟩ : ∃ k, order + pad = k + 1 := ⟨order + pad - 1, by omega⟩
  have hG : poly <<< pad < 2 ^ (k + 2) := by
    rw [Nat.shiftLeft_eq, show k + 2 = order + 1 + pad by omega, pow_add]
    exact Nat.mul_lt_mul_of_pos_right hlt (Nat.two_pow_pos pad)
  have hGbit : (poly <<< pad).testBit (k + 1) = true := by
    rw [Nat.testBit_shiftLeft, ← hk, Nat.add_sub_cancel, hbit]
    simp
  have hstart : i <<< (order + pad - 8) < 2 ^ (k + 1) := by
    rw [Nat.shiftLeft_eq, show k + 1 = 8 + (order + pad - 8) by omega, pow_add]
    exact Nat.mul_lt_mul_of_pos_right hi (Nat.two_pow_pos _)
  have hpow (n : Nat) (hn : n ≤ 32) : 2 ^ n ≤ 2 ^ 32 := Nat.pow_le_pow_right (by decide) hn
  have hG32 : poly <<< pad % 2 ^ 32 = poly <<< pad :=
    Nat.mod_eq_of_lt (hG.trans_le (hpow _ (by omega)))
  have hhigh32 : 1 <<< (order - 1) <<< pad % 2 ^ 32 = 1 <<< k := by
    rw [← Nat.shiftLeft_add, show order - 1 + pad = k by omega, Nat.one_shiftLeft]
    exact Nat.mod_eq_of_lt (Nat.pow_lt_pow_right (by decide) (by omega))
  have hstart64 : i <<< (order + pad - 8) % 2 ^ 64 = i <<< (order + pad - 8) :=
    Nat.mod_eq_of_lt (hstart.trans_le (Nat.pow_le_pow_right (by decide) (by omega)))
  have hself : IsRem (poly <<< pad) (k + 1) (toPoly i * X ^ (order + pad - 8))
      (i <<< (order + pad - 8) % 2 ^ (k + 1)) := by
    rw [Nat.mod_eq_of_lt hstart, ← toPoly_shiftLeft]
    exact isRem_self hstart
  have hloop := tableLoop hG hGbit (by omega) (List.range 8) hself
  rw [mul_assoc, ← pow_add, List.length_range,
    show order + pad - 8 + 8 = order + pad by omega, pow_add, ← mul_assoc, ← hk] at hloop
  have hrem := hloop.shiftRight
  have hentry : h.tableEntry i =
      ((List.range 8).foldl (fun crc _ => tableStep (poly <<< pad) (1 <<< k) crc)
        (i <<< (order + pad - 8)) % 2 ^ (order + pad)) >>> pad := by
    rw [tableEntry]
    simp only [hpoly, horder, hmask, hhigh, hpad, hG32, hhigh32, hstart64]
    rw [Nat.and_two_pow_sub_one_eq_mod, Nat.shiftRight_eq_div_pow, Nat.shiftRight_eq_div_pow,
      Nat.add_comm order pad, pow_add, Nat.mod_mul_right_div_self]
  rw [hentry]
  exact hrem

theorem ready_init : Ready poly order (init poly order).2 := by
  have hmask := crcmask_eq order h24 h1
  have hinit : (init poly order).2 = genCrcTable
      { polynom := poly, order := order, crcmask := ((1 <<< (order - 1) - 1) <<< 1) ||| 1,
        crchighbit := 1 <<< (order - 1) } := by
    rw [init, setInit, Nat.zero_and]
    rfl
  rw [hinit]
  refine ⟨rfl, rfl, hmask, fun i hi => ?_⟩
  rw [genCrcTable, List.getD_eq_getElem?_getD, List.getElem?_map, List.getElem?_range hi]
  exact isRem_tableEntry h1 h24 hlt hbit rfl rfl hmask rfl hi

end Generator

/-! ### The register -/

/-- The bits of the register that count -/
def reg (h : SrsranCrc) (order : Nat) : Nat := h.crcinit % 2 ^ order

variable {h : SrsranCrc} {p : (ZMod 2)[X]}

theorem Ready.setInit (hr : Ready poly order h) (value : Nat) :
    Ready poly order (h.setInit value).2 := ⟨hr.1, hr.2, hr.3, hr.4⟩

theorem Ready.putByte (hr : Ready poly order h) (byte : Nat) : Ready poly order (h.putByte byte) :=
  ⟨hr.1, hr.2, hr.3, hr.4⟩

/-- A byte goes through the register. -/
theorem isRem_putByte (hr : Ready poly order h) (h24 : order ≤ 24)
    (hp : IsRem poly order p (h.reg order)) {byte : Nat} (hbyte : byte < 256) :
    IsRem poly order (p * X ^ 8 + toPoly byte * X ^ order) ((h.putByte byte).reg order) := by
  have hlow : h.crcinit <<< 8 % 2 ^ 64 % 2 ^ order = (h.reg order) <<< 8 % 2 ^ order := by
    rw [Nat.mod_mod_of_dvd _ (Nat.pow_dvd_pow 2 (by omega)), Nat.shiftLeft_eq, Nat.shiftLeft_eq,
      reg, Nat.mod_mul_mod]
  by_cases h8 : 8 < order
  · -- the first eight bits leave the register and choose the entry
    obtain ⟨n, rfl⟩ : ∃ n, order = n + 8 := ⟨order - 8, by omega⟩
    have hhigh : h.crcinit >>> n &&& 0xff = h.reg (n + 8) >>> n := by
      rw [show (0xff : Nat) = 2 ^ 8 - 1 by decide, Nat.and_two_pow_sub_one_eq_mod, reg,
        Nat.shiftRight_eq_div_pow, Nat.shiftRight_eq_div_pow, pow_add, Nat.mod_mul_right_div_self]
    have hhigh8 : h.reg (n + 8) >>> n < 2 ^ 8 := by
      rw [← hhigh]
      exact Nat.and_lt_two_pow _ (by decide)
    have hsplit : toPoly (h.reg (n + 8)) =
        toPoly (h.reg (n + 8) >>> n) * X ^ n + toPoly (h.reg (n + 8) % 2 ^ n) := by
      rw [← toPoly_shiftLeft_add (Nat.mod_lt _ (Nat.two_pow_pos n)), Nat.shiftRight_eq_div_pow,
        Nat.shiftLeft_eq, Nat.div_add_mod']
    have hshift : (h.reg (n + 8)) <<< 8 % 2 ^ (n + 8) = (h.reg (n + 8) % 2 ^ n) <<< 8 := by
      rw [Nat.shiftLeft_eq, Nat.shiftLeft_eq, pow_add, Nat.mul_mod_mul_right]
    have hreg : (h.putByte byte).reg (n + 8) = (h.reg (n + 8) % 2 ^ n) <<< 8 ^^^
        h.table.getD (h.reg (n + 8) >>> n ^^^ byte) 0 := by
      have hentry := hr.table _ (Nat.xor_lt_two_pow hhigh8 hbyte)
      rw [SrsranCrc.putByte, reg]
      simp only [hr.order_eq, if_pos h8, Nat.add_sub_cancel, hhigh]
      rw [Nat.xor_mod_two_pow, hlow, hshift, Nat.mod_eq_of_lt hentry.lt]
    have hlo : (h.reg (n + 8) % 2 ^ n) <<< 8 < 2 ^ (n + 8) := by
      rw [Nat.shiftLeft_eq, pow_add]
      exact Nat.mul_lt_mul_of_pos_right (Nat.mod_lt _ (Nat.two_pow_pos n)) (by decide)
    rw [hreg]
    refine ((isRem_self hlo).add (hr.table _ (Nat.xor_lt_two_pow hhigh8 hbyte))).congr ?_
    have hdvd := hp.dvd.mul_right (X ^ 8)
    rw [hsplit] at hdvd
    rw [toPoly_shiftLeft, toPoly_xor]
    convert hdvd using 1
    ring
  · -- the whole register leaves, and the entry is what is left
    obtain ⟨n, hn⟩ : ∃ n, 8 = order + n := ⟨8 - order, by omega⟩
    have hidx : h.crcinit <<< n % 2 ^ 64 &&& 0xff = (h.reg order) <<< n := by
      rw [show (0xff : Nat) = 2 ^ 8 - 1 by decide, Nat.and_two_pow_sub_one_eq_mod,
        Nat.mod_mod_of_dvd _ (Nat.pow_dvd_pow 2 (by decide)), Nat.shiftLeft_eq, Nat.shiftLeft_eq,
        hn, pow_add, Nat.mul_mod_mul_right, reg]
    have hidx8 : (h.reg order) <<< n < 2 ^ 8 := by
      rw [← hidx]
      exact Nat.and_lt_two_pow _ (by decide)
    have hgone : (h.reg order) <<< 8 % 2 ^ order = 0 := by
      rw [Nat.shiftLeft_eq, hn, pow_add, ← mul_assoc, Nat.mul_right_comm, Nat.mul_mod_left]
    have hentry := hr.table _ (Nat.xor_lt_two_pow hidx8 hbyte)
    have hreg : (h.putByte byte).reg order = h.table.getD ((h.reg order) <<< n ^^^ byte) 0 := by
      rw [SrsranCrc.putByte, reg]
      simp only [hr.order_eq, if_neg h8, show 8 - order = n by omega, hidx]
      rw [Nat.xor_mod_two_pow, hlow, hgone, Nat.zero_xor, Nat.mod_eq_of_lt hentry.lt]
    rw [hreg]
    refine hentry.congr ?_
    have hdvd := hp.dvd.mul_right (X ^ 8)
    rw [hn, pow_add] at hdvd ⊢
    rw [toPoly_xor, toPoly_shiftLeft]
    convert hdvd using 1
    ring

/-- The bytes of a message one after the other -/
theorem isRem_putBytes (h24 : order ≤ 24) (bytes : List Nat) (hbytes : ∀ b ∈ bytes, b < 256) :
    ∀ {h : SrsranCrc} {p : (ZMod 2)[X]}, Ready poly order h → IsRem poly order p (h.reg order) →
      Ready poly order (bytes.foldl putByte h) ∧
        IsRem poly order (p * X ^ (8 * bytes.length) +
          toPoly (ofBits (bytes.flatMap (bitsOf 8))) * X ^ order)
          ((bytes.foldl putByte h).reg order) := by
  induction bytes with
  | nil =>
    intro h p hr hp
    refine ⟨hr, ?_⟩
    simpa [ofBits] using hp
  | cons byte bytes ih =>
    intro h p hr hp
    have hbyte := hbytes byte List.mem_cons_self
    obtain ⟨hready, hrem⟩ := ih (fun b hb => hbytes b (List.mem_cons_of_mem _ hb))
      (hr.putByte byte) (isRem_putByte hr h24 hp hbyte)
    refine ⟨hready, ?_⟩
    have hlen : (bytes.flatMap (bitsOf 8)).length = 8 * bytes.length := by
      simp [List.length_flatMap, Nat.mul_comm]
    have hbits : toPoly (ofBits ((byte :: bytes).flatMap (bitsOf 8))) =
        toPoly byte * X ^ (8 * bytes.length) + toPoly (ofBits (bytes.flatMap (bitsOf 8))) := by
      have hlt := ofBits_lt (bytes.flatMap (bitsOf 8))
      rw [List.flatMap_cons, ofBits_append, ofBits_bitsOf,
        Nat.mod_eq_of_lt (show byte < 2 ^ 8 from hbyte), ← Nat.shiftLeft_eq,
        toPoly_shiftLeft_add hlt, hlen]
    rw [List.foldl_cons, List.length_cons, hbits]
    convert hrem using 1
    ring

/-! ### The bits of a message -/

theorem setBits_eq {top : Nat} {bits : List Bool} (hlen : bits.length ≤ top + 1) :
    setBits top bits = ofBits bits <<< (top + 1 - bits.length) := by
  rw [setBits]
  induction bits using List.reverseRecOn with
  | nil => exact (Nat.zero_shiftLeft _).symm
  | append_singleton bits b ih =>
    rw [List.length_append, List.length_singleton] at hlen
    have hlast : ofBits (bits ++ [b]) = ofBits bits <<< 1 ||| b.toNat := by
      rw [ofBits_append, ← Nat.shiftLeft_add_eq_or_of_lt (by cases b <;> decide),
        Nat.shiftLeft_eq]
      simp [ofBits]
    rw [List.zipIdx_append, List.foldl_append, ih (by omega), hlast, List.length_append,
      List.length_singleton, Nat.shiftLeft_or_distrib, ← Nat.shiftLeft_add]
    simp only [List.zipIdx_cons, List.zipIdx_nil, List.foldl_cons, List.foldl_nil, Nat.zero_add]
    rw [show top + 1 - bits.length = 1 + (top + 1 - (bits.length + 1)) by omega,
      show top - bits.length = top + 1 - (bits.length + 1) by omega]

theorem ofBits_replicate (n : Nat) : ofBits (List.replicate n false) = 0 := by
  rw [← bitsOf_zero, ofBits_bitsOf, Nat.zero_mod]

/-- The message that the register has seen: padded with zeros to whole bytes -/
def padded (data : List Bool) (len : Nat) : List Bool :=
  data.take len ++ List.replicate ((8 - len % 8) % 8) false

theorem bitsOf_byteOf {data : List Bool} {len : Nat} (hlen : len ≤ data.length) {i : Nat}
    (hi : 8 * i < len) :
    byteOf data len i < 256 ∧
      bitsOf 8 (byteOf data len i) = ((padded data len).drop (8 * i)).take 8 := by
  have hpadded : (padded data len).drop (8 * i) = (data.take len).drop (8 * i) ++
      List.replicate ((8 - len % 8) % 8) false := by
    rw [padded, List.drop_append_of_le_length (by rw [List.length_take]; omega)]
  rw [hpadded, byteOf]
  split
  · rename_i hlast
    have hres : ((data.take len).drop (8 * i)) = (data.drop (8 * i)).take (len - len / 8 * 8) := by
      rw [List.drop_take, hlast, Nat.mul_comm 8]
    rw [hres]
    have hrlen : ((data.drop (8 * i)).take (len - len / 8 * 8)).length = len % 8 := by
      rw [List.length_take, List.length_drop]
      omega
    have hrest := ofBits_lt ((data.drop (8 * i)).take (len - len / 8 * 8))
    generalize (data.drop (8 * i)).take (len - len / 8 * 8) = rest at *
    have hbits : setBits 7 rest = ofBits (rest ++ List.replicate ((8 - len % 8) % 8) false) := by
      have hzero : ofBits (List.replicate ((8 - len % 8) % 8) false) = 0 := ofBits_replicate _
      rw [setBits_eq (by omega), ofBits_append, hzero, List.length_replicate, Nat.shiftLeft_eq,
        hrlen, Nat.add_zero]
      congr 2
      omega
    have htotal : (rest ++ List.replicate ((8 - len % 8) % 8) false).length = 8 := by
      rw [List.length_append, List.length_replicate, hrlen]
      omega
    rw [hbits, List.take_of_length_le htotal.le]
    refine ⟨(ofBits_lt _).trans_eq (by rw [htotal]; rfl), ?_⟩
    have := bitsOf_ofBits (rest ++ List.replicate ((8 - len % 8) % 8) false)
    rwa [htotal] at this
  · rename_i hfull
    have hwhole : 8 * i + 8 ≤ len := by omega
    have hchunk : ((data.take len).drop (8 * i) ++
        List.replicate ((8 - len % 8) % 8) false).take 8 = (data.drop (8 * i)).take 8 := by
      rw [List.take_append_of_le_length (by rw [List.length_drop, List.length_take]; omega),
        List.drop_take, List.take_take, Nat.min_eq_left (by omega)]
    have hclen : ((data.drop (8 * i)).take 8).length = 8 := by
      rw [List.length_take, List.length_drop]
      omega
    have hlt := ofBits_lt ((data.drop (8 * i)).take 8)
    have hback := bitsOf_ofBits ((data.drop (8 * i)).take 8)
    rw [hclen] at hlt hback
    rw [hchunk, bitPack, setBits_eq (by omega), hclen, show (0xff : Nat) = 2 ^ 8 - 1 by decide,
      Nat.and_two_pow_sub_one_eq_mod, Nat.shiftLeft_zero, Nat.mod_eq_of_lt hlt]
    exact ⟨hlt, hback⟩

theorem flatMap_range_take {α : Type} (xs : List α) (n : Nat) :
    ((List.range n).flatMap fun i => (xs.drop (8 * i)).take 8) = xs.take (8 * n) := by
  induction n with
  | zero => simp
  | succ n ih =>
    rw [List.range_succ, List.flatMap_append, ih, List.flatMap_singleton, Nat.mul_succ,
      List.take_add]

/-- The bytes that the register sees are those of the padded message. -/
theorem flatMap_byteOf {data : List Bool} {len : Nat} (hlen : len ≤ data.length) {n : Nat}
    (hn : 8 * n = (padded data len).length) :
    (∀ b ∈ (List.range n).map (byteOf data len), b < 256) ∧
      ((List.range n).map (byteOf data len)).flatMap (bitsOf 8) = padded data len := by
  have hlt : ∀ i < n, 8 * i < len := by
    intro i hi
    rw [padded, List.length_append, List.length_take, List.length_replicate] at hn
    omega
  constructor
  · intro b hb
    obtain ⟨i, hi, rfl⟩ := List.mem_map.mp hb
    exact (bitsOf_byteOf hlen (hlt i (List.mem_range.mp hi))).1
  · have hcongr : ((List.range n).map (byteOf data len)).flatMap (bitsOf 8) =
        (List.range n).flatMap fun i => ((padded data len).drop (8 * i)).take 8 := by
      rw [List.flatMap_map]
      exact List.flatMap_congr fun i hi =>
        (bitsOf_byteOf hlen (hlt i (List.mem_range.mp hi))).2
    rw [hcongr, flatMap_range_take, hn, List.take_length]

/-! ### The checksum -/

theorem isRem_reverseCrcBit (hr : Ready poly order h) (hlt : poly < 2 ^ (order + 1))
    (hlow : poly.testBit 0 = true) (nbits : Nat) {crc : Nat}
    (hp : IsRem poly order (p * X ^ nbits) crc) :
    IsRem poly order p (reverseCrcBit crc nbits h) := by
  have hloop : ∀ (ms : List Nat) (crc : Nat), IsRem poly order (p * X ^ ms.length) crc →
      IsRem poly order p (ms.foldl
        (fun crc _ => if 1 &&& crc = 1 then (crc ^^^ h.polynom) >>> 1 else crc >>> 1) crc) := by
    intro ms
    induction ms with
    | nil => intro crc hcrc; simpa using hcrc
    | cons m ms ih =>
      intro crc hcrc
      have hstep : (if 1 &&& crc = 1 then (crc ^^^ h.polynom) >>> 1 else crc >>> 1) =
          halve poly crc := by
        rw [halve, hr.polynom_eq, Nat.and_comm, Nat.and_one_is_mod, Nat.testBit_zero]
        exact if_congr decide_eq_true_iff.symm rfl rfl
      rw [List.foldl_cons, hstep]
      apply ih
      rw [List.length_cons, pow_succ, ← mul_assoc] at hcrc
      exact hcrc.halve hlt hlow
  have hrem := hloop (List.range nbits) crc (by rwa [List.length_range])
  rw [reverseCrcBit, hr.crcmask_eq, Nat.and_two_pow_sub_one_eq_mod, Nat.mod_eq_of_lt hrem.lt]
  exact hrem

theorem checksumGet_eq (hr : Ready poly order h) : h.checksumGet = h.reg order := by
  rw [checksumGet, hr.crcmask_eq, Nat.and_two_pow_sub_one_eq_mod, reg]

theorem isRem_setInit (h : SrsranCrc) : IsRem poly order 0 ((h.setInit 0).2.reg order) := by
  have hreg : (h.setInit 0).2.reg order = 0 := Nat.zero_mod _
  rw [hreg, ← toPoly_zero]
  exact isRem_self (Nat.two_pow_pos order)

/-- The checksum is the remainder of the message, shifted by the order. -/
theorem isRem_checksum (hr : Ready poly order h) (h24 : order ≤ 24)
    (hlt : poly < 2 ^ (order + 1)) (hlow : poly.testBit 0 = true) {data : List Bool} {len : Nat}
    (hlen : len ≤ data.length) :
    Ready poly order (h.checksum data len).2 ∧
      IsRem poly order (toPoly (ofBits (data.take len)) * X ^ order) (h.checksum data len).1 := by
  obtain ⟨a, ha⟩ : ∃ a, (if 0 < len - len / 8 * 8 then 1 else 0) = a := ⟨_, rfl⟩
  have hres : a = 1 ∧ len % 8 = len - len / 8 * 8 ∧ 0 < len % 8 ∨ a = 0 ∧ len % 8 = 0 := by
    rw [← ha]
    split <;> omega
  have hn : 8 * (len / 8 + a) = (padded data len).length := by
    rw [padded, List.length_append, List.length_take, List.length_replicate]
    omega
  obtain ⟨hbytes, hbits⟩ := flatMap_byteOf hlen hn
  obtain ⟨hready, hrem⟩ := isRem_putBytes h24 _ hbytes (hr.setInit 0) (isRem_setInit h)
  rw [hbits, zero_mul, zero_add, padded, ofBits_append, ofBits_replicate, Nat.add_zero,
    List.length_replicate, ← Nat.shiftLeft_eq, toPoly_shiftLeft, mul_right_comm] at hrem
  rw [List.foldl_map] at hready hrem
  rw [checksum]
  simp only [ha]
  refine ⟨hready, ?_⟩
  rcases hres with ⟨hone, hmod, hpos⟩ | ⟨hzero, hmod⟩
  · rw [if_pos hone, checksumGet_eq hready]
    apply isRem_reverseCrcBit hready hlt hlow
    rwa [← hmod, ← Nat.mod_eq_of_lt (show 8 - len % 8 < 8 by omega)]
  · rw [if_neg (by omega), checksumGet_eq hready]
    rw [hmod, show (8 - 0) % 8 = 0 by decide, pow_zero, mul_one] at hrem
    exact hrem

theorem isRem_checksumByte (hr : Ready poly order h) (h24 : order ≤ 24) (data : List UInt8)
    (len : Nat) :
    Ready poly order (h.checksumByte data len).2 ∧
      IsRem poly order (toPoly (ofBits ((data.take (len / 8)).flatMap fun b =>
        bitsOf 8 b.toNat)) * X ^ order) (h.checksumByte data len).1 := by
  have hbytes : ∀ b ∈ (data.take (len / 8)).map UInt8.toNat, b < 256 := by
    intro b hb
    obtain ⟨byte, -, rfl⟩ := List.mem_map.mp hb
    exact byte.toNat_lt
  obtain ⟨hready, hrem⟩ := isRem_putBytes h24 _ hbytes (hr.setInit 0) (isRem_setInit h)
  rw [List.foldl_map] at hready hrem
  rw [zero_mul, zero_add, List.flatMap_map] at hrem
  rw [checksumByte]
  refine ⟨hready, ?_⟩
  simp only
  rw [checksumGet_eq hready]
  exact hrem

/-- The checksum is zero exactly when the polynomial divides the message. -/
theorem checksum_eq_zero_iff (hr : Ready poly order h) (h24 : order ≤ 24)
    (hlt : poly < 2 ^ (order + 1)) (hbit : poly.testBit order = true)
    (hlow : poly.testBit 0 = true) {data : List Bool} {len : Nat} (hlen : len ≤ data.length) :
    (h.checksum data len).1 = 0 ↔ toPoly poly ∣ toPoly (ofBits (data.take len)) := by
  have hrem := (isRem_checksum hr h24 hlt hlow hlen).2
  constructor
  · intro hzero
    rw [hzero] at hrem
    have hdvd := hrem.dvd
    rw [toPoly_zero, sub_zero] at hdvd
    exact (isCoprime_X_pow hlow order).dvd_of_dvd_mul_right hdvd
  · intro hdvd
    refine hrem.unique ?_ hlt hbit
    refine ⟨Nat.two_pow_pos order, ?_⟩
    rw [toPoly_zero, sub_zero]
    exact hdvd.mul_right _

/-- No call changes what the others rely on. -/
theorem ready_call (h24 : order ≤ 24) {h : SrsranCrc} (hr : Ready poly order h) (c : Call) :
    Ready poly order (h.call c) := by
  have hfold (bytes : List Nat) {h : SrsranCrc} (hr : Ready poly order h) :
      Ready poly order (bytes.foldl putByte h) := by
    induction bytes generalizing h with
    | nil => exact hr
    | cons byte bytes ih => exact ih (hr.putByte byte)
  have hchecksum (data : List Bool) (len : Nat) : Ready poly order (h.checksum data len).2 := by
    have := hfold ((List.range (len / 8 + if 0 < len - len / 8 * 8 then 1 else 0)).map
      (byteOf data len)) (hr.setInit 0)
    rwa [List.foldl_map] at this
  cases c with
  | setInit value => exact hr.setInit value
  | putByte byte => exact hr.putByte byte.toNat
  | checksum data len => exact hchecksum data len
  | checksumByte data len => exact (isRem_checksumByte hr h24 data len).1
  | attach data len => exact hchecksum data len
  | crcMatch data len => exact hchecksum data (len + h.order)

/-- After any calls on the object the checksum is the remainder of the division of the message,
shifted by the order, by the generator; an attached checksum matches, the packed message has the
same one, and only multiples of the generator match. -/
theorem checksum_eq_modByMonic (poly order : Nat) (h1 : 1 ≤ order) (h24 : order ≤ 24)
    (hlt : poly < 2 ^ (order + 1)) (hbit : poly.testBit order = true)
    (hlow : poly.testBit 0 = true) (calls : List Call) :
    let h := exec call (init poly order).2 calls
    (∀ (data : List Bool) (len : Nat), len ≤ data.length →
      toPoly (h.checksum data len).1 =
        (toPoly (ofBits (data.take len)) * X ^ order) %ₘ toPoly poly) ∧
    (∀ (data : List Bool) (len : Nat), len + order ≤ data.length →
      ((h.attach data len).2.crcMatch (h.attach data len).1.2 len).1 = true) ∧
    (∀ data : List UInt8, (h.checksumByte data (8 * data.length)).1 =
      (h.checksum (data.flatMap fun b => bitsOf 8 b.toNat) (8 * data.length)).1) ∧
    ∀ (data : List Bool) (len : Nat), len + order ≤ data.length →
      (h.crcMatch data len).1 = true → toPoly poly ∣ toPoly (ofBits (data.take (len + order))) := by
  intro h
  have hr : Ready poly order h :=
    exec_invariant (Ready poly order) (fun _ c hr => ready_call h24 hr c) calls _
      (ready_init h1 h24 hlt hbit)
  refine ⟨?_, ?_, ?_, ?_⟩
  · intro data len hlen
    exact (isRem_checksum hr h24 hlt hlow hlen).2.eq_modByMonic hlt hbit
  · intro data len hlen
    obtain ⟨hready, hrem⟩ := isRem_checksum hr h24 hlt hlow (show len ≤ data.length by omega)
    have hdata : (h.attach data len).1.2.take (len + order) =
        data.take len ++ bitsOf order (h.checksum data len).1 := by
      rw [attach]
      simp only
      rw [hready.order_eq]
      refine List.take_left' ?_
      rw [List.length_append, List.length_take, length_bitsOf]
      omega
    have hlong : len + order ≤ (h.attach data len).1.2.length := by
      have := congrArg List.length hdata
      rw [List.length_take, List.length_append, List.length_take, length_bitsOf] at this
      omega
    have hattach : (h.attach data len).2 = (h.checksum data len).2 := rfl
    rw [hattach, crcMatch, hready.order_eq]
    refine beq_iff_eq.mpr ((checksum_eq_zero_iff hready h24 hlt hbit hlow hlong).mpr ?_)
    rw [hdata, ofBits_append, ofBits_bitsOf, length_bitsOf, Nat.mod_eq_of_lt hrem.lt,
      ← Nat.shiftLeft_eq, toPoly_shiftLeft_add hrem.lt, ← CharTwo.sub_eq_add]
    exact hrem.dvd
  · intro data
    have hbyte := (isRem_checksumByte hr h24 data (8 * data.length)).2
    have hlen : (data.flatMap fun b => bitsOf 8 b.toNat).length = 8 * data.length := by
      simp [List.length_flatMap, Nat.mul_comm]
    have hrem := (isRem_checksum hr h24 hlt hlow hlen.ge).2
    rw [Nat.mul_div_cancel_left _ (by decide), List.take_length] at hbyte
    rw [← hlen, List.take_length] at hrem
    rw [hlen] at hrem
    exact hbyte.unique hrem hlt hbit
  · intro data len hlen hmatch
    rw [crcMatch, hr.order_eq] at hmatch
    exact (checksum_eq_zero_iff hr h24 hlt hbit hlow hlen).mp (beq_iff_eq.mp hmatch)

/-- A message of four bits and the generator `x ^ 3 + x + 1`, on an object that was used before -/
theorem checksum_eq_modByMonic_four :
    let h := exec call (init 0xb 3).2 [.checksum [true, true] 2, .setInit 9]
    toPoly (h.checksum [true, false, true, true] 4).1 =
        (toPoly (ofBits [true, false, true, true]) * X ^ 3) %ₘ toPoly 0xb ∧
      ((h.attach (List.replicate 9 true) 5).2.crcMatch
        (h.attach (List.replicate 9 true) 5).1.2 5).1 = true := by
  have h := checksum_eq_modByMonic 0xb 3 (by decide) (by decide) (by decide) (by decide) (by decide)
    [.checksum [true, true] 2, .setInit 9]
  exact ⟨h.1 _ 4 (by decide), h.2.1 _ 5 (by decide)⟩

end SrsranCrc

end Odss.Phy
