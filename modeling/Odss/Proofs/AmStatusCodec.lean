import Odss.Lib.BitStream
import Odss.Rlc.AmCodec

/-!
# `Odss.Proofs.AmStatusCodec`: packing of RLC AM status PDUs

* `bitPack_of_le`, `bitUnpack_eq`: the bit functions of the code are those of the library.
* `unpackVector_packVector`: whole bytes of bits come back.
* `length_statusBits`: the bits before the padding, which are never whole bytes.
* `readStatusPdu_writeStatusPdu`: a status PDU has the length that is computed for it, and comes back.
-/

set_option linter.all false

namespace Odss.Rlc

open Odss.Lib (bitsOf ofBits readBits length_bitsOf readBits_append)

/-! ### Bits -/

theorem bitUnpack_eq (value n : Nat) : bitUnpack value n = bitsOf n value := by
  induction n with
  | zero => rfl
  | succ n ih =>
    rw [bitUnpack, bitsOf, ih, Nat.testBit_eq_decide_div_mod_eq]
    rfl

theorem bitPack_of_le {n : Nat} {bits : List Bool} (h : n ≤ bits.length) :
    bitPack n bits = some (readBits n bits) := by
  induction n generalizing bits with
  | zero => rfl
  | succ n ih =>
    cases bits with
    | nil => exact absurd h (Nat.not_succ_le_zero n)
    | cons b bits =>
      have hle : n ≤ bits.length := Nat.le_of_succ_le_succ h
      rw [bitPack, ih hle, readBits, readBits, List.take_succ_cons, List.drop_succ_cons, ofBits,
        List.length_take_of_le hle]
      cases b <;> rfl

theorem bitPack_of_lt {n : Nat} {bits : List Bool} (h : bits.length < n) : bitPack n bits = none := by
  induction n generalizing bits with
  | zero => exact absurd h (Nat.not_lt_zero _)
  | succ n ih =>
    cases bits with
    | nil => rfl
    | cons b bits => rw [bitPack, ih (Nat.lt_of_succ_lt_succ h)]

theorem bitPack_bitUnpack {n value : Nat} (h : value < 2 ^ n) (bits : List Bool) :
    bitPack n (bitUnpack value n ++ bits) = some (value, bits) := by
  have hle : n ≤ (bitsOf n value ++ bits).length := by
    rw [List.length_append, length_bitsOf]
    omega
  rw [bitUnpack_eq, bitPack_of_le hle, readBits_append, Nat.mod_eq_of_lt h]

theorem bitPack_one (b : Bool) (bits : List Bool) : bitPack 1 (b :: bits) = some (bit b, bits) := by
  cases b <;> rfl

theorem length_bitUnpack (value n : Nat) : (bitUnpack value n).length = n := by
  rw [bitUnpack_eq, length_bitsOf]

theorem length_unpackVector (bytes : Bytes) : (unpackVector bytes).length = 8 * bytes.length := by
  induction bytes with
  | nil => rfl
  | cons b bytes ih =>
    rw [unpackVector, List.flatMap_cons, List.length_append, length_bitUnpack]
    rw [unpackVector] at ih
    rw [ih, List.length_cons]
    omega

theorem bitUnpack_byte : ∀ b₇ b₆ b₅ b₄ b₃ b₂ b₁ b₀ : Bool,
    bitUnpack (UInt8.ofNat (bit b₇ * 128 + bit b₆ * 64 + bit b₅ * 32 + bit b₄ * 16 + bit b₃ * 8 +
      bit b₂ * 4 + bit b₁ * 2 + bit b₀)).toNat 8 = [b₇, b₆, b₅, b₄, b₃, b₂, b₁, b₀] := by
  decide

/-- Whole bytes of bits come back. -/
theorem unpackVector_packVector {n : Nat} {bits : List Bool} (h : bits.length = 8 * n) :
    unpackVector (packVector bits) = bits ∧ (packVector bits).length = n := by
  induction n generalizing bits with
  | zero =>
    rw [List.eq_nil_of_length_eq_zero h]
    exact ⟨rfl, rfl⟩
  | succ n ih =>
    match bits, h with
    | b₇ :: b₆ :: b₅ :: b₄ :: b₃ :: b₂ :: b₁ :: b₀ :: rest, h =>
      have hrest : rest.length = 8 * n := by
        simp only [List.length_cons] at h
        omega
      obtain ⟨hbits, hlength⟩ := ih hrest
      rw [packVector]
      constructor
      · rw [unpackVector] at hbits ⊢
        rw [List.flatMap_cons, bitUnpack_byte, hbits]
        rfl
      · rw [List.length_cons, hlength]

/-! ### Status PDUs -/

/-- The fields of a NACK are in their ranges. -/
structure StatusNack.InRange (nack : StatusNack) : Prop where
  nackSn : nack.nackSn < 2 ^ 10
  soStart : nack.hasSo = true → nack.soStart < 2 ^ 15
  soEnd : nack.hasSo = true → nack.soEnd < 2 ^ 15

/-- A status PDU with as many NACKs as the array has, each in its range -/
structure StatusPdu.InRange (status : StatusPdu) : Prop where
  ackSn : status.ackSn < 2 ^ 10
  nofNacks : status.nacks.length ≤ amWindowSize
  nacks : ∀ nack ∈ status.nacks, nack.InRange

/-- What a status PDU has of a NACK: there are offsets only for a part of a PDU. -/
def StatusNack.carried (nack : StatusNack) : StatusNack :=
  if nack.hasSo then nack else ⟨nack.nackSn, false, 0, 0⟩

/-- The bits of a NACK -/
def nackSize (nack : StatusNack) : Nat := if nack.hasSo then 42 else 12

theorem length_writeNacks (nacks : List StatusNack) :
    (writeNacks nacks).length = (nacks.map nackSize).sum := by
  induction nacks with
  | nil => rfl
  | cons nack nacks ih =>
    rw [writeNacks, List.map_cons, List.sum_cons, nackSize]
    simp only [List.length_append, ih, length_bitUnpack, List.length_cons, List.length_nil]
    split_ifs <;> simp only [List.length_append, length_bitUnpack, List.length_nil]

/-- NACKs have an even number of bits, so that those of a status PDU are never whole bytes. -/
theorem even_nackSizes (nacks : List StatusNack) : (nacks.map nackSize).sum % 2 = 0 := by
  induction nacks with
  | nil => rfl
  | cons nack nacks ih =>
    have heven : nackSize nack % 2 = 0 := by
      rw [nackSize]
      split <;> rfl
    rw [List.map_cons, List.sum_cons]
    omega

/-- The bits of a status PDU before the padding -/
def statusBits (status : StatusPdu) : List Bool :=
  bitUnpack 0 1 ++ bitUnpack 0 3 ++ bitUnpack status.ackSn 10 ++ [!status.nacks.isEmpty] ++
    writeNacks status.nacks

theorem length_statusBits (status : StatusPdu) :
    (statusBits status).length = 15 + (status.nacks.map nackSize).sum := by
  rw [statusBits]
  simp only [List.length_append, length_bitUnpack, List.length_singleton, length_writeNacks]

/-- The padding fills the last byte, and the length is the one that is computed. -/
theorem writeStatusPdu_spec (status : StatusPdu) :
    (writeStatusPdu status).length = status.packedLength ∧
      ∃ k, unpackVector (writeStatusPdu status) = statusBits status ++ List.replicate k false := by
  have heven := even_nackSizes status.nacks
  have hlength := length_statusBits status
  have hpacked : status.packedLength = (15 + (status.nacks.map nackSize).sum + 7) / 8 := rfl
  have hwhole : (statusBits status ++
      List.replicate (8 - (statusBits status).length % 8) false).length = 8 * status.packedLength := by
    rw [List.length_append, List.length_replicate, hpacked]
    omega
  obtain ⟨hbits, hbytes⟩ := unpackVector_packVector hwhole
  exact ⟨hbytes, _, hbits⟩

/-- The loop over the NACKs reads those that were written. -/
theorem readNacks_writeNacks {nacks : List StatusNack} (hrange : ∀ nack ∈ nacks, nack.InRange)
    {fuel : Nat} (hfuel : nacks.length ≤ fuel) (padding : List Bool) :
    readNacks fuel (!nacks.isEmpty) (writeNacks nacks ++ padding) =
      some (nacks.map StatusNack.carried) := by
  induction nacks generalizing fuel with
  | nil => cases fuel <;> rfl
  | cons nack nacks ih =>
    obtain ⟨fuel, rfl⟩ : ∃ k, fuel = k + 1 := ⟨fuel - 1, by rw [List.length_cons] at hfuel; omega⟩
    have hnack := hrange nack List.mem_cons_self
    have ih := @ih (fun n hn => hrange n (List.mem_cons_of_mem nack hn)) fuel
      (Nat.le_of_succ_le_succ hfuel)
    have hext : (bit (!nacks.isEmpty) == 1) = !nacks.isEmpty := by
      cases nacks <;> rfl
    rw [writeNacks, List.isEmpty_cons, Bool.not_false, readNacks]
    simp only [List.append_assoc, bitPack_bitUnpack hnack.nackSn, Option.bind_eq_bind, Option.bind_some,
      List.cons_append, List.nil_append, bitPack_one, List.map_cons]
    cases hso : nack.hasSo with
    | false =>
      have hcarried : nack.carried = ⟨nack.nackSn, false, 0, 0⟩ := by
        rw [StatusNack.carried, hso, if_neg Bool.false_ne_true]
      rw [if_neg (by decide : ¬bit false = 1), hext, hcarried]
      simp only [Bool.false_eq_true, if_false, List.nil_append, ih, Option.bind_some]
      rfl
    | true =>
      have hcarried : nack.carried = ⟨nack.nackSn, true, nack.soStart, nack.soEnd⟩ := by
        rw [StatusNack.carried, if_pos hso, ← hso]
      rw [if_pos (by decide : bit true = 1), hext, hcarried]
      simp only [if_true, List.append_assoc, bitPack_bitUnpack (hnack.soStart hso),
        bitPack_bitUnpack (hnack.soEnd hso), Option.bind_some, ih]
      rfl

/-- A status PDU has the length that is computed for it, and is read as it was written. -/
theorem readStatusPdu_writeStatusPdu (status : StatusPdu) (h : status.InRange) :
    (writeStatusPdu status).length = status.packedLength ∧
      readStatusPdu (writeStatusPdu status) =
        some ⟨status.ackSn, status.nacks.map StatusNack.carried⟩ := by
  obtain ⟨hlength, k, hbits⟩ := writeStatusPdu_spec status
  refine ⟨hlength, ?_⟩
  have hext : (bit (!status.nacks.isEmpty) == 1) = !status.nacks.isEmpty := by
    cases status.nacks <;> rfl
  -- every NACK has a bit, so that the bits are enough for the rounds
  have hfuel : status.nacks.length ≤
      (writeNacks status.nacks ++ List.replicate k false).length := by
    rw [List.length_append, length_writeNacks]
    have hpos : ∀ nacks : List StatusNack, nacks.length ≤ (nacks.map nackSize).sum := by
      intro nacks
      induction nacks with
      | nil => exact Nat.le_refl 0
      | cons nack nacks ih =>
        have hone : 1 ≤ nackSize nack := by
          rw [nackSize]
          split <;> decide
        rw [List.length_cons, List.map_cons, List.sum_cons]
        omega
    exact Nat.le_add_right_of_le (hpos status.nacks)
  have hdc := bitPack_bitUnpack (by decide : 0 < 2 ^ 1)
  have hcpt := bitPack_bitUnpack (by decide : 0 < 2 ^ 3)
  rw [readStatusPdu, hbits, statusBits]
  simp only [List.append_assoc, hdc, hcpt, Option.bind_eq_bind, Option.bind_some, ne_eq, not_true,
    if_false, bitPack_bitUnpack h.ackSn, List.cons_append, List.nil_append, bitPack_one, hext,
    readNacks_writeNacks h.nacks hfuel]
  rfl

/-- A status with a NACK for a whole PDU and one for the rest of a PDU -/
theorem readStatusPdu_writeStatusPdu_two :
    readStatusPdu (writeStatusPdu ⟨9, [⟨5, false, 0, 0⟩, ⟨7, true, 30, 0x7FFF⟩]⟩) =
      some ⟨9, [⟨5, false, 0, 0⟩, ⟨7, true, 30, 0x7FFF⟩]⟩ := by
  refine (readStatusPdu_writeStatusPdu ⟨9, [⟨5, false, 0, 0⟩, ⟨7, true, 30, 0x7FFF⟩]⟩ ?_).2
  exact ⟨by decide, by decide, by
    intro nack hnack
    rw [List.mem_cons, List.mem_singleton] at hnack
    rcases hnack with rfl | rfl
    · exact ⟨by decide, nofun, nofun⟩
    · exact ⟨by decide, fun _ => by decide, fun _ => by decide⟩⟩

end Odss.Rlc
