import Odss.Rlc.AmTypes

/-!
# `Odss.Rlc.AmCodec`: packing of RLC AM headers and status PDUs

`writeDataPduHeader` and `readDataPduHeader` work on bytes, `writeStatusPdu` and
`readStatusPdu` on bits, as their sources in `rlc_am_lte.cc` do. The readers have no bound
check. `none` stands for a read past the end of the received bytes, and `write_pdu` drops
such a data PDU.
-/

set_option linter.all false

namespace Odss.Rlc

/-! ### Data PDU headers -/

/-- The extension part of a data PDU header: two length indicators take three bytes, and a
last one alone takes two. -/
def writeLis : List Nat → Bytes
  | [] => []
  | [a] => [UInt8.ofNat (a % 2048 / 16), UInt8.ofNat (a % 16 * 16)]
  | a :: b :: lis =>
    [UInt8.ofNat (128 + a % 2048 / 16),
      UInt8.ofNat (a % 16 * 16 + bit (!lis.isEmpty) * 8 + b % 2048 / 256),
      UInt8.ofNat (b % 256)] ++ writeLis lis

/-- `rlc_am_write_data_pdu_header` -/
def writeDataPduHeader (header : AmdHeader) : Bytes :=
  [UInt8.ofNat (128 + bit header.rf * 64 + bit header.p * 32 +
      bit header.fi.notStartAligned * 16 + bit header.fi.notEndAligned * 8 +
      bit (!header.li.isEmpty) * 4 + header.sn % 1024 / 256),
    UInt8.ofNat (header.sn % 256)] ++
  (if header.rf then
    [UInt8.ofNat (bit header.lsf * 128 + header.so % 32768 / 256),
      UInt8.ofNat (header.so % 256)]
  else []) ++ writeLis header.li

/-- The loop of `rlc_am_read_data_pdu_header` over the extension part, while the extension
bit `ext` is set: the length indicators and the rest of the bytes. -/
def readLis (ext : Bool) (bytes : Bytes) : Option (List Nat × Bytes) :=
  if !ext then some ([], bytes)
  else
    match bytes with
    | b₀ :: b₁ :: rest =>
      let li := b₀.toNat % 128 * 16 + b₁.toNat / 16
      if b₀.toNat / 128 = 0 then some ([li], rest)
      else
        match rest with
        | [] => none
        | b₂ :: rest =>
          let li' := b₁.toNat % 8 * 256 + b₂.toNat
          match readLis (b₁.toNat / 8 % 2 == 1) rest with
          | none => none
          | some (lis, rest) => some (li :: li' :: lis, rest)
    | _ => none

/-- `rlc_am_is_control_pdu` -/
def isControlPdu (bytes : Bytes) : Bool :=
  match bytes with
  | [] => false
  | b :: _ => b.toNat / 128 == 0

/-- `rlc_am_read_data_pdu_header` of a data PDU: the header and the payload. -/
def readDataPduHeader (bytes : Bytes) : Option (AmdHeader × Bytes) :=
  match bytes with
  | b₀ :: b₁ :: rest =>
    let rf := b₀.toNat / 64 % 2 == 1
    let segment : Option (Bool × Nat × Bytes) :=
      if rf then
        match rest with
        | b₂ :: b₃ :: rest => some (b₂.toNat / 128 == 1, b₂.toNat % 128 * 256 + b₃.toNat, rest)
        | _ => none
      else some (false, 0, rest)
    match segment with
    | none => none
    | some (lsf, so, rest) =>
      match readLis (b₀.toNat / 4 % 2 == 1) rest with
      | none => none
      | some (lis, payload) =>
        some ({
          rf := rf
          p := b₀.toNat / 32 % 2 == 1
          fi := ⟨b₀.toNat / 16 % 2 == 1, b₀.toNat / 8 % 2 == 1⟩
          sn := b₀.toNat % 4 * 256 + b₁.toNat
          lsf := lsf
          so := so
          li := lis }, payload)
  | _ => none

/-! ### Status PDUs -/

/-- `srsran_bit_unpack`: the `n` low bits of a number, the most significant first. -/
def bitUnpack (value : Nat) : Nat → List Bool
  | 0 => []
  | n + 1 => (value / 2 ^ n % 2 == 1) :: bitUnpack value n

/-- `srsran_bit_pack` of `n` bits: the number and the rest of the bits. -/
def bitPack : Nat → List Bool → Option (Nat × List Bool)
  | 0, bits => some (0, bits)
  | _ + 1, [] => none
  | n + 1, b :: bits =>
    match bitPack n bits with
    | none => none
    | some (value, rest) => some (bit b * 2 ^ n + value, rest)

/-- `srsran_bit_unpack_vector` -/
def unpackVector (bytes : Bytes) : List Bool := bytes.flatMap fun b => bitUnpack b.toNat 8

/-- `srsran_bit_pack_vector` of whole bytes. -/
def packVector : List Bool → Bytes
  | b₇ :: b₆ :: b₅ :: b₄ :: b₃ :: b₂ :: b₁ :: b₀ :: bits =>
    UInt8.ofNat (bit b₇ * 128 + bit b₆ * 64 + bit b₅ * 32 + bit b₄ * 16 + bit b₃ * 8 +
      bit b₂ * 4 + bit b₁ * 2 + bit b₀) :: packVector bits
  | _ => []

/-- The loop of `rlc_am_write_status_pdu` over the NACKs. -/
def writeNacks : List StatusNack → List Bool
  | [] => []
  | nack :: nacks =>
    bitUnpack nack.nackSn 10 ++ [!nacks.isEmpty, nack.hasSo] ++
      (if nack.hasSo then bitUnpack nack.soStart 15 ++ bitUnpack nack.soEnd 15 else []) ++
      writeNacks nacks

/-- `rlc_am_write_status_pdu` -/
def writeStatusPdu (status : StatusPdu) : Bytes :=
  let bits := bitUnpack 0 1 ++ bitUnpack 0 3 ++ bitUnpack status.ackSn 10 ++
    [!status.nacks.isEmpty] ++ writeNacks status.nacks
  packVector (bits ++ List.replicate (8 - bits.length % 8) false)

/-- The loop of `rlc_am_read_status_pdu`, while the bit E1 is set. `fuel` bounds the number
of bits. -/
def readNacks : Nat → Bool → List Bool → Option (List StatusNack)
  | _, false, _ => some []
  | 0, true, _ => none
  | fuel + 1, true, bits => do
    let (nackSn, bits) ← bitPack 10 bits
    let (ext1, bits) ← bitPack 1 bits
    let (ext2, bits) ← bitPack 1 bits
    if ext2 = 1 then
      let (soStart, bits) ← bitPack 15 bits
      let (soEnd, bits) ← bitPack 15 bits
      let nacks ← readNacks fuel (ext1 == 1) bits
      return ⟨nackSn, true, soStart, soEnd⟩ :: nacks
    else
      let nacks ← readNacks fuel (ext1 == 1) bits
      return ⟨nackSn, false, 0, 0⟩ :: nacks

/-- `rlc_am_read_status_pdu`. A PDU of another control type leaves the empty status that the
caller passes. -/
def readStatusPdu (bytes : Bytes) : Option StatusPdu := do
  let bits := unpackVector bytes
  let (dc, bits) ← bitPack 1 bits
  if dc ≠ 0 then return ⟨0, []⟩
  let (cpt, bits) ← bitPack 3 bits
  if cpt ≠ 0 then return ⟨0, []⟩
  let (ackSn, bits) ← bitPack 10 bits
  let (ext1, bits) ← bitPack 1 bits
  let nacks ← readNacks bits.length (ext1 == 1) bits
  return ⟨ackSn, nacks⟩

end Odss.Rlc
