import Odss.Rlc.Common

/-!
# `Odss.MacNr.RarPdu`: NR MAC PDUs with random access responses

The model of `mac_rar_pdu_nr` and `mac_rar_subpdu_nr` (`lib/include/srsran/mac/mac_rar_pdu_nr.h`,
`lib/src/mac/mac_rar_pdu_nr.cc`) without an SI RAPID, and with it of `srsran_bit_pack` and
`srsran_bit_unpack` (`lib/src/phy/utils/bit.c`). The reader goes into a memory of which the first
`len` bytes are the PDU, and every access is kept with its position. Log output is left out.
-/

set_option linter.all false

namespace Odss.MacNr

open Odss.Rlc (Bytes)

/-! ### Bits -/

/-- `srsran_bit_pack` of all bits. -/
def bitPack (bits : List Bool) : Nat := bits.foldl (fun value bit => 2 * value + bit.toNat) 0

/-- `srsran_bit_unpack` -/
def bitUnpack (value nofBits : Nat) : List Bool :=
  (List.range nofBits).map fun i => value.testBit (nofBits - i - 1)

/-! ### SubPDUs -/

/-- The 27 bits of an UL grant. -/
abbrev UlGrant : Type := {bits : List Bool // bits.length = 27}

/-- `MAC_RAR_NBYTES` -/
abbrev macRarNbytes : Nat := 7

/-- What a subPDU says, by its type. -/
inductive RarSubpdu where
  | backoff (backoffIndicator : Fin 16)
  | rapid (preamble : Fin 64) (ta : Fin (2 ^ 12)) (ulGrant : UlGrant) (tempCrnti : Fin (2 ^ 16))

/-- `get_total_length`: the header, and the RAR behind a RAPID. -/
def RarSubpdu.totalLength : RarSubpdu → Nat
  | backoff _ => 1
  | rapid _ _ _ _ => 1 + macRarNbytes

/-- A bit of a grant, as a number. -/
def grantBit (bits : UlGrant) (i : Nat) : Nat := (bits.val.getD i false).toNat

/-- `write_subpdu` -/
def RarSubpdu.write (eBit : Bool) : RarSubpdu → Bytes
  | backoff backoffIndicator => [UInt8.ofNat (eBit.toNat * 2 ^ 7 + backoffIndicator)]
  | rapid preamble ta ulGrant tempCrnti =>
    let rest := ulGrant.val.drop 3
    [UInt8.ofNat (eBit.toNat * 2 ^ 7 + 2 ^ 6 + preamble),
      UInt8.ofNat (ta / 2 ^ 5 % 2 ^ 7),
      UInt8.ofNat (ta % 2 ^ 5 * 2 ^ 3 + grantBit ulGrant 0 * 4 + grantBit ulGrant 1 * 2
        + grantBit ulGrant 2),
      UInt8.ofNat (bitPack (rest.take 8)),
      UInt8.ofNat (bitPack ((rest.drop 8).take 8)),
      UInt8.ofNat (bitPack ((rest.drop 16).take 8)),
      UInt8.ofNat (tempCrnti / 2 ^ 8),
      UInt8.ofNat (tempCrnti % 2 ^ 8)]

/-- The loop of `pack`, with the padding. The last subPDU has no E bit. -/
def packRarFrom : Nat → List RarSubpdu → Option Bytes
  | remainingLen, [] => some (List.replicate remainingLen 0)
  | remainingLen, subpdu :: subpdus =>
    if remainingLen ≥ subpdu.totalLength then
      (packRarFrom (remainingLen - subpdu.totalLength) subpdus).map
        (subpdu.write (!subpdus.isEmpty) ++ ·)
    else none

/-- `pack` after `init_tx` -/
def packRar (pduLen : Nat) (subpdus : List RarSubpdu) : Option Bytes := packRarFrom pduLen subpdus

/-- A subPDU that has been read, none after an error, its E bit, its total length, and the positions
that have been looked at. -/
structure RarRead where
  subpdu : Option RarSubpdu
  eBit : Bool
  totalLength : Nat
  reads : List Nat

/-- The bits of a grant in four octets. -/
def readUlGrant (b₁ b₂ b₃ b₄ : UInt8) : UlGrant :=
  ⟨[b₁.toNat.testBit 2, b₁.toNat.testBit 1, b₁.toNat.testBit 0] ++ bitUnpack b₂.toNat 8
    ++ bitUnpack b₃.toNat 8 ++ bitUnpack b₄.toNat 8, rfl⟩

theorem neZero_sixteen : NeZero 16 := ⟨by decide⟩

attribute [local instance] neZero_sixteen

/-- `read_subpdu` with so many bytes left. -/
def readRarSubpdu (mem : Nat → UInt8) (ptr remainingLen : Nat) : RarRead :=
  let eBit := (mem ptr).toNat.testBit 7
  if (mem ptr).toNat.testBit 6 then
    if remainingLen ≥ macRarNbytes then
      let rar := ptr + 1
      if (mem rar).toNat.testBit 7 then ⟨none, eBit, 1, [ptr, rar]⟩
      else
        ⟨some (.rapid (Fin.ofNat _ (mem ptr).toNat)
            (Fin.ofNat _ ((mem rar).toNat % 2 ^ 7 * 2 ^ 5 + (mem (rar + 1)).toNat / 2 ^ 3))
            (readUlGrant (mem (rar + 1)) (mem (rar + 2)) (mem (rar + 3)) (mem (rar + 4)))
            (Fin.ofNat _ ((mem (rar + 5)).toNat * 2 ^ 8 + (mem (rar + 6)).toNat))),
          eBit, 1 + macRarNbytes, ptr :: List.range' rar macRarNbytes⟩
    else ⟨none, eBit, 1, [ptr]⟩
  else if (mem ptr).toNat.testBit 4 ∨ (mem ptr).toNat.testBit 5 then ⟨none, eBit, 1, [ptr]⟩
  else ⟨some (.backoff (Fin.ofNat _ (mem ptr).toNat)), eBit, 1, [ptr]⟩

/-- What `unpack` returns, and the positions that have been looked at. -/
structure RarUnpacked where
  ret : Bool
  subpdus : List RarSubpdu
  reads : List Nat

/-- The loop of `unpack` in `uint32_t`, none when it has not ended within the fuel. -/
def unpackRarFrom (mem : Nat → UInt8) (len : Nat) : Nat → Nat → Nat → Option RarUnpacked
  | 0, _, _ => none
  | fuel + 1, offset, remainingLen =>
    let r := readRarSubpdu mem offset remainingLen
    let offset := (offset + r.totalLength) % 2 ^ 32
    let remainingLen := (remainingLen + 2 ^ 32 - r.totalLength) % 2 ^ 32
    match r.subpdu with
    | none => some ⟨false, [], r.reads⟩
    | some subpdu =>
      if r.eBit ∧ offset ≤ len then
        (unpackRarFrom mem len fuel offset remainingLen).map fun rest =>
          ⟨rest.ret, subpdu :: rest.subpdus, r.reads ++ rest.reads⟩
      else some ⟨true, [subpdu], r.reads⟩

theorem unpackRarFrom_zero (mem : Nat → UInt8) (len offset remainingLen : Nat) :
    unpackRarFrom mem len 0 offset remainingLen = none := by
  rw [unpackRarFrom]

/-- `unpack` of a new PDU -/
def unpackRar (mem : Nat → UInt8) (len fuel : Nat) : Option RarUnpacked :=
  unpackRarFrom mem len fuel 0 len

end Odss.MacNr
