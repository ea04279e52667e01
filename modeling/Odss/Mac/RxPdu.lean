import Odss.Mac.TxPdu

/-!
# `Odss.Mac.RxPdu`: how MAC PDUs are read, with the bytes that are looked at

The model of `pdu::parse_packet` and `sch_pdu::parse_packet` (`lib/include/srsran/mac/pdu.h`,
`lib/src/mac/pdu.cc`) for both types of subheaders. The pointer goes into a memory `mem` of which
the first `pdu_len` bytes are the PDU, and every access is kept with its position. The length of
the PDU is compared as an `int32_t`, as in the code.
-/

set_option linter.all false

namespace Odss.Mac.RxPdu

open Odss.Rlc

/-- The cast to `int32_t`. -/
def toInt32 (n : Nat) : Int := Int.bmod n (2 ^ 32)

/-- `is_sdu() || is_var_len_ce()` of a subheader that is read. -/
def hasLength (t : SubhType) (lcid : Nat) : Bool :=
  match t with
  | .sch => isSduLcid lcid
  | .mch => decide (lcid ≤ mchSchedInfo)

/-- `sizeof_ce` of the other subheaders. -/
def sizeofCe (t : SubhType) (isUl : Bool) (lcid : Nat) : Nat :=
  match t with
  | .sch => Mac.sizeofCe isUl lcid
  | .mch => 0

/-- A subheader that has been read, its E bit, the position behind it and the positions that have
been looked at. -/
structure Read where
  subh : RxSubh
  eBit : Bool
  ptr : Nat
  reads : List Nat
deriving DecidableEq, Repr

/-- `read_subheader` -/
def readSubheader (t : SubhType) (isUl : Bool) (mem : Nat → UInt8) (ptr : Nat) : Read :=
  let eBit := (mem ptr).toNat / 32 % 2 == 1
  let lcid := (mem ptr).toNat % 32
  if hasLength t lcid then
    if eBit then
      let fBit := (mem (ptr + 1)).toNat / 128 == 1
      let nofBytes := (mem (ptr + 1)).toNat % 128
      if fBit then
        ⟨⟨lcid, nofBytes * 256 + (mem (ptr + 2)).toNat, 0⟩, true, ptr + 3,
          [ptr, ptr + 1, ptr + 2]⟩
      else ⟨⟨lcid, nofBytes, 0⟩, true, ptr + 2, [ptr, ptr + 1]⟩
    else ⟨⟨lcid, 0, 0⟩, false, ptr + 1, [ptr]⟩
  else ⟨⟨lcid, sizeofCe t isUl lcid, 0⟩, eBit, ptr + 1, [ptr]⟩

/-- `size_plus_header` -/
def sizePlusHeader (t : SubhType) (s : RxSubh) : Nat :=
  if hasLength t s.lcid then sizeHeaderSdu s.nofBytes + s.nofBytes else 1 + s.nofBytes

/-- The loop of `parse_packet` that reads the subheaders, with the number of them that may follow
the next one. `none` when all bytes have been consumed. -/
def readSubheaders (t : SubhType) (isUl : Bool) (pduLen : Nat) (mem : Nat → UInt8) :
    Nat → Nat → Option (List RxSubh × Nat) × List Nat
  | follow, ptr =>
    let r := readSubheader t isUl mem ptr
    if r.eBit && decide ((r.ptr : Int) ≥ toInt32 pduLen) then (none, r.reads)
    else
      match follow with
      | 0 => (some ([r.subh], r.ptr), r.reads)
      | follow + 1 =>
        if r.eBit && decide (toInt32 pduLen > r.ptr) then
          let (rest, reads) := readSubheaders t isUl pduLen mem follow r.ptr
          (rest.map fun (ss, ptr) => (r.subh :: ss, ptr), r.reads ++ reads)
        else (some ([r.subh], r.ptr), r.reads)

/-- The loop of `parse_packet` that reads the payloads. -/
def readPayloads (pduLen : Nat) : List RxSubh → Nat → Option (List RxSubh)
  | [], _ => some []
  | s :: ss, ptr =>
    if ((ptr + s.nofBytes : Nat) : Int) > toInt32 pduLen then none
    else (readPayloads pduLen ss (ptr + s.nofBytes)).map ({ s with payload := ptr } :: ·)

/-- `pdu::parse_packet`: the subheaders, none if the PDU is corrupted, and the positions that have
been looked at. -/
def parsePdu (t : SubhType) (isUl : Bool) (maxSubheaders pduLen : Nat) (mem : Nat → UInt8) :
    List RxSubh × List Nat :=
  if maxSubheaders = 0 then ([], [])
  else
    match readSubheaders t isUl pduLen mem (maxSubheaders - 2) 0 with
    | (none, reads) => ([], reads)
    | (some (ss, ptr), reads) => ((readPayloads pduLen ss ptr).getD [], reads)

/-- The size of the last subheader. -/
def correctLast (t : SubhType) (pduLen : Nat) (ss : List RxSubh) : List RxSubh :=
  match ss.getLast? with
  | none => []
  | some last =>
    let nSub : Int := pduLen - ((ss.dropLast.map (sizePlusHeader t)).sum : Nat) - 1
    if nSub ≥ 0 then ss.dropLast ++ [{ last with nofBytes := nSub.toNat }] else []

/-- `sch_pdu::parse_packet` -/
def parsePacket (t : SubhType) (isUl : Bool) (maxSubheaders pduLen : Nat) (mem : Nat → UInt8) :
    List RxSubh × List Nat :=
  let r := parsePdu t isUl maxSubheaders pduLen mem
  (correctLast t pduLen r.1, r.2)

end Odss.Mac.RxPdu
