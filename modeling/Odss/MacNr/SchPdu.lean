import Mathlib
import Odss.Rlc.Common

/-!
# `Odss.MacNr.SchPdu`: NR MAC PDUs of the shared channels

The model of `mac_sch_pdu_nr` and `mac_sch_subpdu_nr` (`lib/include/srsran/mac/mac_sch_pdu_nr.h`,
`lib/src/mac/mac_sch_pdu_nr.cc`). The result is `none` where bytes outside of a buffer are read or
written. `set_lbsr`, which does nothing, and log output are left out.
-/

set_option linter.all false

namespace Odss.MacNr

open Odss.Rlc (Bytes subU32)

/-! ### LCIDs -/

/-- The values of `nr_lcid_sch_t` that have a name. -/
abbrev lcidCcchSize64 : Nat := 0
abbrev lcidCcchSize48 : Nat := 0b110100
abbrev lcidSePhr : Nat := 0b111001
abbrev lcidCrnti : Nat := 0b111010
abbrev lcidShortTruncBsr : Nat := 0b111011
abbrev lcidLongTruncBsr : Nat := 0b111100
abbrev lcidShortBsr : Nat := 0b111101
abbrev lcidLongBsr : Nat := 0b111110
abbrev lcidDrxCmd : Nat := 0b111100
abbrev lcidTaCmd : Nat := 0b111101
abbrev lcidConResId : Nat := 0b111110
abbrev lcidPadding : Nat := 0b111111

/-- `MAC_SUBHEADER_LEN_THRESHOLD` -/
def macSubheaderLenThreshold : Nat := 256

/-- `sizeof_ce` -/
def sizeofCe (lcid : Nat) (isUl : Bool) : Nat :=
  if isUl then
    if lcid = lcidCcchSize48 then 6
    else if lcid = lcidCcchSize64 then 8
    else if lcid = lcidCrnti then 2
    else if lcid = lcidShortBsr ∨ lcid = lcidShortTruncBsr then 1
    else if lcid = lcidSePhr then 2
    else if lcid = lcidLongBsr ∨ lcid = lcidLongTruncBsr then 1
    else 0
  else if lcid = lcidConResId then 6
  else if lcid = lcidTaCmd then 1
  else 0

/-- `is_ul_ccch` -/
def isUlCcch (ulsch : Bool) (lcid : Nat) : Bool :=
  ulsch ∧ (lcid = lcidCcchSize48 ∨ lcid = lcidCcchSize64)

/-- `is_sdu` -/
def isSdu (lcid : Nat) : Bool := lcid ≤ 32

/-- `is_var_len_ce` -/
def isVarLenCe (lcid : Nat) : Bool := lcid = lcidLongTruncBsr ∨ lcid = lcidLongBsr

/-- `has_length_field` -/
def hasLengthField (ulsch : Bool) (lcid : Nat) : Bool :=
  !isUlCcch ulsch lcid ∧ (isSdu lcid ∨ isVarLenCe lcid)

/-- `is_valid_lcid` -/
def isValidLcid (ulsch : Bool) (lcid : Nat) : Bool :=
  lcid ≤ 63 ∧ ((ulsch ∧ (lcid ≤ 32 ∨ lcid ≥ 52)) ∨ (lcid ≤ 32 ∨ lcid ≥ 47))

/-! ### SubPDUs -/

/-- `mac_sch_subpdu_nr`. The bytes of `sdu` are those from the pointer on, `none` is no pointer. -/
structure SubPdu where
  lcid : Nat
  headerLength : Nat
  sduLength : Int
  fBit : Bool
  sdu : Option Bytes
deriving DecidableEq, Repr

namespace SubPdu

/-- A subPDU that has been constructed. -/
def init : SubPdu := ⟨0, 0, 0, false, none⟩

/-- `get_total_length` -/
def getTotalLength (s : SubPdu) : Nat := (((s.headerLength : Int) + s.sduLength) % 2 ^ 32).toNat

/-- `set_sdu` -/
def setSdu (ulsch : Bool) (lcid : Nat) (payload : Bytes) : SubPdu :=
  let headerLength := if isUlCcch ulsch lcid then 1 else 2
  let sduLength : Int :=
    if isUlCcch ulsch lcid then sizeofCe lcid ulsch else Int.bmod payload.length (2 ^ 32)
  let long : Bool := sduLength ≥ macSubheaderLenThreshold
  ⟨lcid, if long then headerLength + 1 else headerLength, sduLength, long, some payload⟩

/-- `set_padding` -/
def setPadding (s : SubPdu) (len : Nat) : SubPdu :=
  { s with lcid := lcidPadding, sduLength := Int.bmod (subU32 len 1) (2 ^ 32), headerLength := 1 }

/-- The size of `ce_write_buffer`. -/
def macCePayloadLen : Nat := 9

/-- A CE that has written its first bytes to the internal storage. -/
def setCe (ulsch : Bool) (lcid : Nat) (bytes : Bytes) : SubPdu :=
  ⟨lcid, 1, sizeofCe lcid ulsch, false,
    some (bytes ++ List.replicate (macCePayloadLen - bytes.length) 0)⟩

/-- `set_c_rnti`. The byte order of the host does not matter. -/
def setCRnti (ulsch : Bool) (crnti : UInt16) : SubPdu :=
  setCe ulsch lcidCrnti [(crnti >>> 8).toUInt8, crnti.toUInt8]

/-- `set_se_phr` -/
def setSePhr (ulsch : Bool) (phr pcmax : UInt8) : SubPdu :=
  setCe ulsch lcidSePhr [phr &&& 0x3f, pcmax &&& 0x3f]

/-- `set_sbsr` -/
def setSbsr (ulsch : Bool) (lcgId bufferSize : UInt8) : SubPdu :=
  setCe ulsch lcidShortBsr [((lcgId &&& 0x07) <<< 5) ||| (bufferSize &&& 0x1f)]

/-- The length field of `write_subpdu`. -/
def lengthField (s : SubPdu) : Bytes :=
  if s.headerLength = 3 then
    [UInt8.ofNat ((s.sduLength % 2 ^ 16).toNat / 2 ^ 8), UInt8.ofNat (s.sduLength % 2 ^ 8).toNat]
  else if s.headerLength = 2 then [UInt8.ofNat (s.sduLength % 2 ^ 8).toNat]
  else []

/-- `write_subpdu`, with the bytes that are written. -/
def writeSubpdu (s : SubPdu) : Option Bytes :=
  let first := UInt8.ofNat ((if s.fBit then 64 else 0) ||| (s.lcid % 2 ^ 8 &&& 0x3f))
  if s.sduLength < 0 then none
  else
    let n := s.sduLength.toNat
    match s.sdu with
    | some bytes =>
      if bytes.length < n then none else some (first :: (s.lengthField ++ bytes.take n))
    | none => some (first :: (s.lengthField ++ List.replicate n 0))

/-- `read_subheader` of the bytes from the pointer on. The code is `none` for an error. -/
def readSubheader (ulsch : Bool) (bytes : Bytes) : Option (Option SubPdu) := do
  let first ← bytes[0]?
  let fBit : Bool := first &&& 0x40 ≠ 0
  let lcid := (first &&& 0x3f).toNat
  if isValidLcid ulsch lcid then
    if hasLengthField ulsch lcid then
      let second ← bytes[1]?
      if fBit then
        let third ← bytes[2]?
        pure (some ⟨lcid, 3, second.toNat * 2 ^ 8 + third.toNat, fBit, some (bytes.drop 3)⟩)
      else pure (some ⟨lcid, 2, second.toNat, fBit, some (bytes.drop 2)⟩)
    else pure (some ⟨lcid, 1, sizeofCe lcid ulsch, fBit, some (bytes.drop 1)⟩)
  else pure none

/-! ### What a subPDU says -/

/-- The bytes of the SDU or CE, from `get_sdu` on. -/
def payload (s : SubPdu) : Bytes := (s.sdu.getD []).take s.sduLength.toNat

/-- The byte `i` from `get_sdu` on. -/
def byteAt (s : SubPdu) (i : Nat) : UInt8 := (s.sdu.getD []).getD i 0

/-- `get_c_rnti` -/
def getCRnti (ulsch : Bool) (s : SubPdu) : UInt16 :=
  if ulsch ∧ s.lcid = lcidCrnti then
    ((s.byteAt 0).toUInt16 <<< 8) ||| (s.byteAt 1).toUInt16
  else 0

/-- `get_phr` -/
def getPhr (ulsch : Bool) (s : SubPdu) : UInt8 :=
  if ulsch ∧ s.lcid = lcidSePhr then s.byteAt 0 &&& 0x3f else 0

/-- `get_pcmax` -/
def getPcmax (ulsch : Bool) (s : SubPdu) : UInt8 :=
  if ulsch ∧ s.lcid = lcidSePhr then s.byteAt 1 &&& 0x3f else 0

/-- `get_sbsr`, with the LCG and the buffer size. -/
def getSbsr (ulsch : Bool) (s : SubPdu) : UInt8 × UInt8 :=
  if ulsch ∧ (s.lcid = lcidShortBsr ∨ s.lcid = lcidShortTruncBsr) then
    ((s.byteAt 0 &&& 0xe0) >>> 5, s.byteAt 0 &&& 0x1f)
  else (0, 0)

/-- `get_sdu_length` -/
def getSduLength (s : SubPdu) : Nat := (s.sduLength % 2 ^ 32).toNat

/-! The same accessors, and the others, with `none` for a read outside of the SDU or CE. -/

/-- `get_c_rnti` -/
def readCRnti (ulsch : Bool) (s : SubPdu) : Option UInt16 :=
  if ulsch ∧ s.lcid = lcidCrnti then do
    pure (((← s.payload[0]?).toUInt16 <<< 8) ||| (← s.payload[1]?).toUInt16)
  else pure 0

/-- `get_phr` -/
def readPhr (ulsch : Bool) (s : SubPdu) : Option UInt8 :=
  if ulsch ∧ s.lcid = lcidSePhr then do pure ((← s.payload[0]?) &&& 0x3f) else pure 0

/-- `get_pcmax` -/
def readPcmax (ulsch : Bool) (s : SubPdu) : Option UInt8 :=
  if ulsch ∧ s.lcid = lcidSePhr then do pure ((← s.payload[1]?) &&& 0x3f) else pure 0

/-- `get_ta`, with the tag and the command. -/
def readTa (s : SubPdu) : Option (UInt8 × UInt8) :=
  if s.lcid = lcidTaCmd then do
    let first ← s.payload[0]?
    pure ((first &&& 0xc0) >>> 6, first &&& 0x3f)
  else pure (0, 0)

/-- `get_sbsr`, with the LCG and the buffer size. -/
def readSbsr (ulsch : Bool) (s : SubPdu) : Option (UInt8 × UInt8) :=
  if ulsch ∧ (s.lcid = lcidShortBsr ∨ s.lcid = lcidShortTruncBsr) then do
    let first ← s.payload[0]?
    pure ((first &&& 0xe0) >>> 5, first &&& 0x1f)
  else pure (0, 0)

/-- `max_num_lcg_lbsr` -/
def maxNumLcgLbsr : Nat := 8

/-- The loop of `get_lbsr` over the LCGs, with the LCGs and their buffer sizes. -/
def lbsrLoop (s : SubPdu) (bitmap : UInt8) : List Nat → Nat → List (Nat × UInt8) →
    Option (List (Nat × UInt8))
  | [], _, list => some list
  | i :: lcgs, bsrCnt, list =>
    if bitmap.toNat.testBit i then
      if ((1 + bsrCnt : Nat) : Int) < s.sduLength then do
        let bufferSize ← s.payload[1 + bsrCnt]?
        lbsrLoop s bitmap lcgs (bsrCnt + 1) (list ++ [(i, bufferSize)])
      else if s.lcid = lcidLongTruncBsr then lbsrLoop s bitmap lcgs bsrCnt (list ++ [(i, 63)])
      else lbsrLoop s bitmap lcgs bsrCnt (list ++ [(i, 0)])
    else lbsrLoop s bitmap lcgs bsrCnt list

/-- `get_lbsr`, with the bitmap. -/
def readLbsr (ulsch : Bool) (s : SubPdu) : Option (UInt8 × List (Nat × UInt8)) :=
  if ulsch ∧ (s.lcid = lcidLongBsr ∨ s.lcid = lcidLongTruncBsr) then do
    let bitmap ← s.payload[0]?
    if bitmap = 0 then pure (bitmap, [])
    else pure (bitmap, ← s.lbsrLoop bitmap (List.range maxNumLcgLbsr) 0 [])
  else pure (0, [])

end SubPdu

/-! ### PDUs that are written -/

/-- `mac_sch_pdu_nr` with its buffer, in which `capacity` bytes have room from `msg` on. -/
structure SchPdu where
  ulsch : Bool
  subpdus : List SubPdu
  msg : Bytes
  capacity : Nat
  pduLen : Nat
  remainingLen : Nat
deriving DecidableEq, Repr

namespace SchPdu

/-- `init_tx` -/
def initTx (msg : Bytes) (capacity pduLen : Nat) (ulsch : Bool) : SchPdu :=
  ⟨ulsch, [], msg, capacity, pduLen, pduLen⟩

/-- `size_header_sdu` -/
def sizeHeaderSdu (p : SchPdu) (lcid nbytes : Nat) : Nat :=
  if p.ulsch ∧ (lcid = lcidCcchSize48 ∨ lcid = lcidCcchSize64) then 1
  else if nbytes < 256 then 2 else 3

/-- A subPDU that is written behind the bytes of the buffer. -/
def write (p : SchPdu) (s : SubPdu) : Option SchPdu := do
  let bytes ← s.writeSubpdu
  if p.msg.length + bytes.length > p.capacity then none
  else some { p with
    subpdus := p.subpdus ++ [s]
    msg := p.msg ++ bytes
    remainingLen := subU32 p.remainingLen s.getTotalLength }

/-- `add_sudpdu`, with the code of the call. -/
def addSubpdu (p : SchPdu) (s : SubPdu) : Option (Bool × SchPdu) :=
  if s.getTotalLength > p.remainingLen then some (false, p)
  else (p.write s).map fun p => (true, p)

/-- `add_sdu` -/
def addSdu (p : SchPdu) (lcid : Nat) (payload : Bytes) : Option (Bool × SchPdu) :=
  if (p.sizeHeaderSdu lcid payload.length + payload.length) % 2 ^ 32 > p.remainingLen then
    some (false, p)
  else p.addSubpdu (.setSdu p.ulsch lcid payload)

/-- `add_crnti_ce` -/
def addCrntiCe (p : SchPdu) (crnti : UInt16) : Option (Bool × SchPdu) :=
  p.addSubpdu (.setCRnti p.ulsch crnti)

/-- `add_se_phr_ce` -/
def addSePhrCe (p : SchPdu) (phr pcmax : UInt8) : Option (Bool × SchPdu) :=
  p.addSubpdu (.setSePhr p.ulsch phr pcmax)

/-- `add_sbsr_ce` -/
def addSbsrCe (p : SchPdu) (lcgId bufferSize : UInt8) : Option (Bool × SchPdu) :=
  p.addSubpdu (.setSbsr p.ulsch lcgId bufferSize)

/-- `pack` -/
def pack (p : SchPdu) : Option SchPdu :=
  if p.remainingLen ≠ 0 then p.write (SubPdu.init.setPadding p.remainingLen) else some p

end SchPdu

/-! ### PDUs that are read -/

/-- The loop of `unpack` from an offset on. Each round goes on by at least one byte, so `fuel` is
more than the bytes that are left. -/
def unpackLoop (ulsch : Bool) (payload : Bytes) : Nat → Nat → List SubPdu →
    Option (Bool × List SubPdu)
  | 0, _, _ => none
  | fuel + 1, offset, subpdus =>
    if offset < payload.length then
      match SubPdu.readSubheader ulsch (payload.drop offset) with
      | none => none
      | some none => some (false, subpdus)
      | some (some s) =>
        let offset := (offset + s.getTotalLength) % 2 ^ 32
        if s.lcid = lcidPadding then
          let s := s.setPadding (subU32 payload.length offset + 1)
          unpackLoop ulsch payload fuel payload.length (subpdus ++ [s])
        else unpackLoop ulsch payload fuel offset (subpdus ++ [s])
    else some (offset = payload.length, subpdus)

theorem unpackLoop_zero (ulsch : Bool) (payload : Bytes) (offset : Nat) (subpdus : List SubPdu) :
    unpackLoop ulsch payload 0 offset subpdus = none := by
  rw [unpackLoop]

/-- `unpack`, with the code of the call and the subPDUs. -/
def unpack (ulsch : Bool) (payload : Bytes) : Option (Bool × List SubPdu) :=
  unpackLoop ulsch payload (payload.length + 1) 0 []

end Odss.MacNr
