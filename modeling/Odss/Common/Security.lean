import Mathlib.Tactic

/-!
# `Odss.Common.Security`: the functions of authentication

The algorithm XOR of `lib/src/common/security.cc`, and the interface of Milenage and of the key derivation, which are
parameters. A byte array of fixed length is a function on its indices.
-/

set_option linter.all false

namespace Odss.Common

/-- `uint8_t x[n]` -/
abbrev Octets (n : Nat) := Fin n → UInt8

/-- The results of the functions `f2` to `f5` -/
structure F2345 (n : Nat) where
  res : Octets n
  ck : Octets 16
  ik : Octets 16
  ak : Octets 6

/-- Milenage, and the derivation of `K_ASME` -/
structure Security where
  milenageF1 (k op rand : Octets 16) (sqn : Octets 6) (amf : Octets 2) : Octets 8
  milenageF1Star (k op rand : Octets 16) (sqn : Octets 6) (amf : Octets 2) : Octets 8
  milenageF2345 (k op rand : Octets 16) : F2345 8
  milenageF5Star (k op rand : Octets 16) : Octets 6
  generateKAsme (ck ik : Octets 16) (akXorSqn : Octets 6) (mcc mnc : UInt16) : Octets 32

/-- `xdout` -/
def xdout (k rand : Octets 16) : Octets 16 := fun i => k i ^^^ rand i

/-- `cdout` -/
def cdout (sqn : Octets 6) (amf : Octets 2) : Octets 8 := fun i =>
  if h : i.val < 6 then sqn ⟨i, h⟩ else amf ⟨i - 6, by omega⟩

/-- `security_xor_f2345` -/
def securityXorF2345 (k rand : Octets 16) : F2345 16 where
  res := xdout k rand
  ck := fun i => xdout k rand (i + 1)
  ik := fun i => xdout k rand (i + 2)
  ak := fun i => xdout k rand ⟨i + 3, by omega⟩

/-- The positions of eight bytes, and of the six bytes behind the third one, in sixteen bytes. -/
theorem octet_lt (i : Fin 8) : i.val < 16 := by omega

theorem octet_add_lt (i : Fin 6) : i.val + 3 < 16 := by omega

theorem neZero_octets : NeZero 16 := ⟨by decide⟩

/-- `security_xor_f1` -/
def securityXorF1 (k rand : Octets 16) (sqn : Octets 6) (amf : Octets 2) : Octets 8 := fun i =>
  xdout k rand ⟨i, by omega⟩ ^^^ cdout sqn amf i

/-- AUTN: the masked SQN, the AMF and the MAC -/
def makeAutn (sqn ak : Octets 6) (amf : Octets 2) (mac : Octets 8) : Octets 16 := fun i =>
  if h : i.val < 6 then sqn ⟨i, h⟩ ^^^ ak ⟨i, h⟩
  else if h : i.val < 8 then amf ⟨i - 6, by omega⟩
  else mac ⟨i - 8, by omega⟩

/-- The SQN in AUTN under a mask -/
def autnSqn (autn : Octets 16) (ak : Octets 6) : Octets 6 := fun i => autn ⟨i, by omega⟩ ^^^ ak i

/-- The AMF in AUTN -/
def autnAmf (autn : Octets 16) : Octets 2 := fun i => autn ⟨6 + i, by omega⟩

theorem autnSqn_makeAutn (sqn ak : Octets 6) (amf : Octets 2) (mac : Octets 8) :
    autnSqn (makeAutn sqn ak amf mac) ak = sqn := by
  funext i
  have hi : i.val < 6 := i.isLt
  rw [autnSqn, makeAutn, dif_pos hi, UInt8.xor_assoc, UInt8.xor_self, UInt8.xor_zero]

theorem autnAmf_makeAutn (sqn ak : Octets 6) (amf : Octets 2) (mac : Octets 8) :
    autnAmf (makeAutn sqn ak amf mac) = amf := by
  funext i
  have hi : ¬6 + i.val < 6 := by omega
  have hi' : 6 + i.val < 8 := by omega
  rw [autnAmf, makeAutn, dif_neg hi, dif_pos hi']
  congr 1
  exact Fin.ext (Nat.add_sub_cancel_left 6 i.val)

end Odss.Common
