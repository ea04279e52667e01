import Odss.Rlc.Common

/-!
# `Odss.Common.IntHelpers`: integers in network byte order

The model of the functions of `lib/include/srsran/common/int_helpers.h` that headers are written
and read with.
-/

set_option linter.all false

namespace Odss.Common

open Odss.Rlc (Bytes)

/-- `uint16_to_uint8` -/
def uint16ToUint8 (i : UInt16) : Bytes := [(i >>> 8).toUInt8, i.toUInt8]

/-- `uint8_to_uint16` -/
def uint8ToUint16 (b0 b1 : UInt8) : UInt16 := b0.toUInt16 <<< 8 ||| b1.toUInt16

/-- `uint32_to_uint8` -/
def uint32ToUint8 (i : UInt32) : Bytes :=
  [(i >>> 24).toUInt8, (i >>> 16).toUInt8, (i >>> 8).toUInt8, i.toUInt8]

/-- `uint8_to_uint32` -/
def uint8ToUint32 (b0 b1 b2 b3 : UInt8) : UInt32 :=
  b0.toUInt32 <<< 24 ||| b1.toUInt32 <<< 16 ||| b2.toUInt32 <<< 8 ||| b3.toUInt32

/-- A number is its upper part beside its lower bits. -/
private theorem shiftRight_or_mod (n k : Nat) : (n >>> k) <<< k ||| n % 2 ^ k = n := by
  rw [← Nat.shiftLeft_add_eq_or_of_lt (Nat.mod_lt n (Nat.two_pow_pos k)), Nat.shiftLeft_eq,
    Nat.shiftRight_eq_div_pow]
  exact Nat.div_add_mod' n (2 ^ k)

theorem uint8ToUint16_bytes (i : UInt16) : uint8ToUint16 (i >>> 8).toUInt8 i.toUInt8 = i := by
  refine UInt16.toNat_inj.mp ?_
  have hlt := UInt16.toNat_lt i
  have hhigh : i.toNat >>> 8 < 2 ^ 8 := by
    rw [Nat.shiftRight_eq_div_pow]
    omega
  have hshift : (i.toNat >>> 8) <<< 8 < 2 ^ 16 := by
    rw [Nat.shiftLeft_eq]
    omega
  simp only [uint8ToUint16, UInt16.toNat_or, UInt16.toNat_shiftLeft, UInt8.toNat_toUInt16,
    UInt16.toNat_toUInt8, UInt16.toNat_shiftRight]
  show (i.toNat >>> 8 % 2 ^ 8) <<< 8 % 2 ^ 16 ||| i.toNat % 2 ^ 8 = i.toNat
  rw [Nat.mod_eq_of_lt hhigh, Nat.mod_eq_of_lt hshift]
  exact shiftRight_or_mod i.toNat 8

/-- One byte of a number, shifted back to its place. -/
private theorem byte_in_place (n k : Nat) (hk : k ≤ 24) :
    (n >>> k % 2 ^ 8) <<< k % 2 ^ 32 = (n >>> k % 2 ^ 8) <<< k := by
  refine Nat.mod_eq_of_lt ?_
  have hbyte : n >>> k % 2 ^ 8 < 2 ^ 8 := Nat.mod_lt _ (Nat.two_pow_pos 8)
  calc (n >>> k % 2 ^ 8) <<< k = n >>> k % 2 ^ 8 * 2 ^ k := Nat.shiftLeft_eq _ _
    _ < 2 ^ 8 * 2 ^ k := Nat.mul_lt_mul_of_pos_right hbyte (Nat.two_pow_pos k)
    _ = 2 ^ (8 + k) := (Nat.pow_add 2 8 k).symm
    _ ≤ 2 ^ 32 := Nat.pow_le_pow_right (by decide) (by omega)

/-- The lower bits of a number, with the next byte above them. -/
private theorem next_byte (n k : Nat) :
    (n >>> k % 2 ^ 8) <<< k ||| n % 2 ^ k = n % 2 ^ (k + 8) := by
  have hpart : n >>> k % 2 ^ 8 = (n % 2 ^ (k + 8)) >>> k := by
    rw [Nat.shiftRight_eq_div_pow, Nat.shiftRight_eq_div_pow, Nat.pow_add,
      Nat.mod_mul_right_div_self]
  have hlow : n % 2 ^ k = n % 2 ^ (k + 8) % 2 ^ k := by
    rw [Nat.pow_add, Nat.mod_mul_right_mod]
  rw [hpart, hlow]
  exact shiftRight_or_mod (n % 2 ^ (k + 8)) k

theorem uint8ToUint32_bytes (i : UInt32) :
    uint8ToUint32 (i >>> 24).toUInt8 (i >>> 16).toUInt8 (i >>> 8).toUInt8 i.toUInt8 = i := by
  refine UInt32.toNat_inj.mp ?_
  have hlt := UInt32.toNat_lt i
  simp only [uint8ToUint32, UInt32.toNat_or, UInt32.toNat_shiftLeft, UInt8.toNat_toUInt32,
    UInt32.toNat_toUInt8, UInt32.toNat_shiftRight]
  show (i.toNat >>> 24 % 2 ^ 8) <<< 24 % 2 ^ 32 ||| (i.toNat >>> 16 % 2 ^ 8) <<< 16 % 2 ^ 32 |||
    (i.toNat >>> 8 % 2 ^ 8) <<< 8 % 2 ^ 32 ||| i.toNat % 2 ^ 8 = i.toNat
  rw [byte_in_place _ 24 (by decide), byte_in_place _ 16 (by decide),
    byte_in_place _ 8 (by decide)]
  -- From the lowest byte on, each step puts one more byte above.
  rw [Nat.or_assoc, Nat.or_assoc, next_byte i.toNat 8, next_byte i.toNat 16,
    next_byte i.toNat 24]
  exact Nat.mod_eq_of_lt hlt

end Odss.Common
