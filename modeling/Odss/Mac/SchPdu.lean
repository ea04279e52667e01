import Odss.Rlc.Common

/-!
# `Odss.Mac.SchPdu`: MAC PDUs of the shared channels

The model of `sch_pdu` and `sch_subh` (`lib/include/srsran/mac/pdu.h`, `lib/src/mac/pdu.cc`) for
SCH subheaders. A pointer into a PDU is a position. `insert` is `new_subh` with one of the
functions that set the new subheader. The power headroom, which is a floating point number, is
given by its report value. Log output is left out.
-/

set_option linter.all false

namespace Odss.Mac

open Odss.Rlc

/-! ### LCIDs -/

/-- `SRSRAN_BUFFER_HEADER_OFFSET`: the headroom of an empty buffer. -/
abbrev bufferHeadroom : Nat := 1020

/-- `dl_sch_lcid::PADDING` and `ul_sch_lcid::PADDING` -/
abbrev paddingLcid : Nat := 31

/-- `is_sdu` of a LCID: `v <= RESERVED`. -/
def isSduLcid (lcid : Nat) : Bool := decide (lcid ≤ 17)

/-- `ce_size` of an `ul_sch_lcid` -/
def ulCeSize : Nat → Nat
  | 26 => 1
  | 27 => 2
  | 28 => 1
  | 29 => 1
  | 30 => 3
  | _ => 0

/-- `ce_size` of a `dl_sch_lcid` -/
def dlCeSize : Nat → Nat
  | 24 => 4
  | 27 => 1
  | 28 => 6
  | 29 => 1
  | _ => 0

/-- `sizeof_ce` -/
def sizeofCe (isUl : Bool) (lcid : Nat) : Nat := if isUl then ulCeSize lcid else dlCeSize lcid

/-- `size_header_sdu` -/
def sizeHeaderSdu (nbytes : Nat) : Nat := if nbytes = 0 then 0 else if nbytes < 128 then 2 else 3

/-! ### Subheaders -/

/-- A `sch_subh` of a PDU that is written. The bytes of `wPayloadCe` behind those here are zero. -/
structure SchSubh where
  lcid : Nat
  nofBytes : Nat
  wPayloadCe : Bytes
deriving DecidableEq, Repr

namespace SchSubh

/-- `init` -/
def init : SchSubh := ⟨0, 0, []⟩

/-- `is_sdu` -/
def isSdu (s : SchSubh) : Bool := isSduLcid s.lcid

/-- `get_header_size` -/
def headerSize (s : SchSubh) (isLast : Bool) : Nat :=
  if isLast then 1 else if s.isSdu then sizeHeaderSdu s.nofBytes else 1

/-- `set_padding` -/
def padding (paddingLen : Nat) : SchSubh := ⟨paddingLcid, paddingLen, []⟩

/-- The length field of an SDU. -/
def lengthField (nofBytes : Nat) : Bytes :=
  if nofBytes ≥ 128 then [UInt8.ofNat (128 + nofBytes / 256 % 128), UInt8.ofNat (nofBytes % 256)]
  else [UInt8.ofNat (nofBytes % 128)]

/-- `write_subheader` -/
def writeSubheader (s : SchSubh) (isLast : Bool) : Bytes :=
  UInt8.ofNat ((if isLast then 0 else 32) + s.lcid % 32) ::
    if s.isSdu && !isLast then lengthField s.nofBytes else []

/-- `write_payload` of a CE, which writes as many bytes as the LCID has. -/
def writePayload (s : SchSubh) (isUl : Bool) : Bytes :=
  (s.wPayloadCe ++ List.replicate 64 0).take (sizeofCe isUl s.lcid)

end SchSubh

/-! ### PDUs that are written -/

/-- The state of a `sch_pdu` that is written. `sdus` has the bytes of `buffer_tx`. -/
structure SchPdu where
  maxSubheaders : Nat
  pduLen : Nat
  remLen : Nat
  isUl : Bool
  subheaders : List SchSubh
  lastSduIdx : Option Nat
  sdus : Bytes
deriving DecidableEq, Repr

namespace SchPdu

/-- `init_tx` with an empty buffer. -/
def initTx (maxSubheaders pduLen : Nat) (isUl : Bool) : SchPdu where
  maxSubheaders := maxSubheaders
  pduLen := pduLen
  remLen := pduLen
  isUl := isUl
  subheaders := []
  lastSduIdx := none
  sdus := []

/-- `get_tailroom` of the buffer. -/
def tailroom (p : SchPdu) : Nat := bufferTailroom - p.sdus.length

/-- The subheader of the last SDU. -/
def lastSdu (p : SchPdu) : Option SchSubh := p.lastSduIdx.bind fun i => p.subheaders[i]?

/-- The bytes that the header of the last SDU gets when it is not the last one any more. -/
def lastSduGrowth (p : SchPdu) : Nat :=
  match p.lastSdu with
  | none => 0
  | some s => sizeHeaderSdu s.nofBytes - 1

/-- `get_sdu_space`. A negative number is none. -/
def getSduSpace (p : SchPdu) : Nat :=
  let ret := subU32 (subU32 p.remLen p.lastSduGrowth) 1
  min (if ret < 2 ^ 31 then ret else 0) p.tailroom

/-- `has_space_ce` -/
def hasSpaceCe (p : SchPdu) (nbytes : Nat) : Bool := decide (p.remLen ≥ nbytes + 1)

/-- `update_space_ce` -/
def updateSpaceCe (p : SchPdu) (nbytes : Nat) : SchPdu :=
  if p.hasSpaceCe nbytes then { p with remLen := p.remLen - (nbytes + 1) } else p

/-- `has_space_sdu` -/
def hasSpaceSdu (p : SchPdu) (nbytes : Nat) : Bool := decide (p.getSduSpace ≥ nbytes)

/-- `update_space_sdu`. The current subheader is the last one. -/
def updateSpaceSdu (p : SchPdu) (nbytes : Nat) : SchPdu :=
  if p.hasSpaceSdu nbytes then
    { p with
      remLen := p.remLen - (nbytes + 1 + p.lastSduGrowth)
      lastSduIdx := some (p.subheaders.length - 1) }
  else p

/-- `new_subh` -/
def newSubh (p : SchPdu) : Option SchPdu :=
  if p.subheaders.length + 1 < p.maxSubheaders ∧ p.remLen ≥ 2 then
    some { p with subheaders := p.subheaders ++ [.init] }
  else none

/-- The PDU with other contents of the current subheader. -/
def setCurrent (p : SchPdu) (s : SchSubh) : SchPdu :=
  { p with subheaders := p.subheaders.dropLast ++ [s] }

/-! ### CEs -/

/-- The functions that make the current subheader a CE. -/
def setCe (p : SchPdu) (lcid : Nat) (payload : Bytes) : Option SchPdu :=
  if p.hasSpaceCe payload.length then
    some ((p.setCurrent ⟨lcid, payload.length, payload⟩).updateSpaceCe payload.length)
  else none

/-- `set_c_rnti` -/
def cRntiPayload (crnti : UInt16) : Bytes :=
  [UInt8.ofNat (crnti.toNat / 256), UInt8.ofNat (crnti.toNat % 256)]

/-- `set_con_res_id` -/
def conResIdPayload (conResId : UInt64) : Bytes :=
  [UInt8.ofNat (conResId.toNat / 2 ^ 40 % 256), UInt8.ofNat (conResId.toNat / 2 ^ 32 % 256),
    UInt8.ofNat (conResId.toNat / 2 ^ 24 % 256), UInt8.ofNat (conResId.toNat / 2 ^ 16 % 256),
    UInt8.ofNat (conResId.toNat / 2 ^ 8 % 256), UInt8.ofNat (conResId.toNat % 256)]

/-- `set_phr`, with the value of `phr_report_table`. -/
def phrPayload (report : UInt8) : Bytes := [UInt8.ofNat (report.toNat % 64)]

/-- `set_ta_cmd` -/
def taCmdPayload (taCmd : UInt8) : Bytes := [UInt8.ofNat (taCmd.toNat % 64)]

/-- `set_scell_activation_cmd`. The first bit is reserved. -/
def scellActivationPayload (active : Fin 5 → Bool) : Bytes :=
  [UInt8.ofNat (2 * bit (active 1) + 4 * bit (active 2) + 8 * bit (active 3) + 16 * bit (active 4))]

/-- `btable` -/
def btable : List Nat :=
  [0, 1, 10, 12, 14, 17, 19, 22, 26, 31, 36, 42, 49, 57, 67, 78, 91, 107, 125, 146, 171, 200, 234,
    274, 321, 376, 440, 515, 603, 706, 826, 967, 1132, 1326, 1552, 1817, 2127, 2490, 2915, 3413,
    3995, 4667, 5476, 6411, 7505, 8787, 10287, 12043, 14099, 16507, 19325, 22624, 26487, 31009,
    36304, 42502, 49759, 58255, 68201, 79846, 93479, 109439, 128125, 150000]

/-- `buff_size_table` -/
def buffSizeTable (bufferSize : Nat) : Nat :=
  if bufferSize = 0 then 0
  else if bufferSize > 150000 then 63
  else ((List.range' 1 61).find? fun i => bufferSize ≤ btable.getD (i + 1) 0).getD 62

/-- The formats of `set_bsr`. -/
inductive BsrFormat where
  | trunc
  | short
  | long
deriving DecidableEq, Repr

/-- The LCID of a format. -/
def BsrFormat.lcid : BsrFormat → Nat
  | .trunc => 28
  | .short => 29
  | .long => 30

theorem neZero_lcg : NeZero 4 := ⟨by decide⟩

attribute [local instance] neZero_lcg

/-- `nonzero_lcg`: the last LCG with data. -/
def nonzeroLcg (buffSize : Fin 4 → Nat) : Fin 4 :=
  (List.finRange 4).foldl (fun lcg i => if buffSize i = 0 then lcg else i) 0

/-- `update_bsr` -/
def bsrPayload (buffSize : Fin 4 → Nat) (format : BsrFormat) : Bytes :=
  let level (i : Fin 4) := buffSizeTable (buffSize i)
  match format with
  | .long => [UInt8.ofNat (level 0 % 64 * 4 + level 1 / 16 % 4),
      UInt8.ofNat (level 1 % 16 * 16 + level 2 / 4 % 16),
      UInt8.ofNat (level 2 % 4 * 64 + level 3 % 64)]
  | _ => [UInt8.ofNat ((nonzeroLcg buffSize).val * 64 + level (nonzeroLcg buffSize) % 64)]

/-! ### SDUs -/

/-- `set_sdu` with the bytes of the SDU: they are in the buffer before the space is updated. -/
def setSdu (p : SchPdu) (lcid : Nat) (sdu : Bytes) : Option SchPdu :=
  if p.hasSpaceSdu sdu.length then
    some (({ p with sdus := p.sdus ++ sdu }.updateSpaceSdu sdu.length).setCurrent
      ⟨lcid, sdu.length, []⟩)
  else none

/-- `set_sdu` with an interface: for the requested size it has returned `sdu`. -/
def readSdu (p : SchPdu) (lcid requestedBytes : Nat) (sdu : Bytes) : Option SchPdu :=
  if p.hasSpaceSdu requestedBytes && !sdu.isEmpty && decide (sdu.length ≤ requestedBytes) then
    let p := (p.updateSpaceSdu sdu.length).setCurrent ⟨lcid, sdu.length, []⟩
    some { p with sdus := p.sdus ++ sdu }
  else none

/-- A subheader that is put into a PDU. -/
inductive Insert where
  | setSdu (lcid : Nat) (sdu : Bytes)
  | readSdu (lcid requestedBytes : Nat) (sdu : Bytes)
  | setCRnti (crnti : UInt16)
  | setBsr (buffSize : Fin 4 → Nat) (format : BsrFormat)
  | setConResId (conResId : UInt64)
  | setTaCmd (taCmd : UInt8)
  | setPhr (report : UInt8)
  | setScellActivationCmd (active : Fin 5 → Bool)

/-- `new_subh` and the function that sets the subheader. `none` when one of them fails. An SDU has
a byte at least. -/
def insert (p : SchPdu) (op : Insert) : Option SchPdu :=
  p.newSubh.bind fun p =>
    match op with
    | .setSdu lcid sdu => if sdu.isEmpty then none else p.setSdu lcid sdu
    | .readSdu lcid requestedBytes sdu => p.readSdu lcid requestedBytes sdu
    | .setCRnti crnti => p.setCe 27 (cRntiPayload crnti)
    | .setBsr buffSize format => p.setCe format.lcid (bsrPayload buffSize format)
    | .setConResId conResId => p.setCe 28 (conResIdPayload conResId)
    | .setTaCmd taCmd => p.setCe 29 (taCmdPayload taCmd)
    | .setPhr report => p.setCe 26 (phrPayload report)
    | .setScellActivationCmd active => p.setCe 27 (scellActivationPayload active)

/-- A sequence of subheaders. -/
def insertAll : SchPdu → List Insert → Option SchPdu
  | p, [] => some p
  | p, op :: ops => (p.insert op).bind fun p => insertAll p ops

/-! ### `write_packet` -/

/-- `ce_only` -/
def ceOnly (p : SchPdu) : Bool := p.lastSduIdx.isNone

/-- `multibyte_padding` -/
def multibytePadding (p : SchPdu) : Bool := decide (p.remLen > 2)

/-- `onetwo_padding` -/
def onetwoPadding (p : SchPdu) : Nat := if p.multibytePadding then 0 else p.remLen

/-- `num_padding`, behind the header of the padding and what the header of the last SDU grows. -/
def numPadding (p : SchPdu) : Nat :=
  if p.multibytePadding then
    p.remLen - 1 - match p.lastSdu with
      | none => 0
      | some s => s.headerSize false - 1
  else 0

/-- `header_sz` -/
def headerSz (p : SchPdu) : Nat :=
  (p.subheaders.zipIdx.map fun (s, i) =>
      s.headerSize (!p.multibytePadding && p.lastSduIdx == some i)).sum
    + if p.multibytePadding then 1 else p.onetwoPadding

/-- `ce_payload_sz` -/
def cePayloadSz (p : SchPdu) : Nat :=
  ((p.subheaders.filter fun s => !s.isSdu).map SchSubh.nofBytes).sum

/-- `total_header_size` -/
def totalHeaderSize (p : SchPdu) : Nat := p.headerSz + p.cePayloadSz

/-- The one or two bytes of padding in front. -/
def writeOnetwoPadding (p : SchPdu) : Bytes :=
  (List.replicate p.onetwoPadding (SchSubh.padding 0)).flatMap
    (·.writeSubheader !decide (p.pduLen > p.onetwoPadding))

/-- The subheaders of the CEs. -/
def writeCeSubheaders (p : SchPdu) : Bytes :=
  (p.subheaders.zipIdx.filter fun (s, _) => !s.isSdu).flatMap fun (s, i) =>
    s.writeSubheader (p.ceOnly && !p.multibytePadding && i + 1 == p.subheaders.length)

/-- The subheaders of the SDUs. -/
def writeSduSubheaders (p : SchPdu) : Bytes :=
  if p.ceOnly then []
  else
    (p.subheaders.zipIdx.filter fun (s, _) => s.isSdu).flatMap fun (s, i) =>
      s.writeSubheader (!p.multibytePadding && p.lastSduIdx == some i)

/-- The subheader of the padding behind the others. -/
def writeMultibytePadding (p : SchPdu) : Bytes :=
  if p.multibytePadding then (SchSubh.padding p.numPadding).writeSubheader true else []

/-- The payloads of the CEs. -/
def writeCePayloads (p : SchPdu) : Bytes :=
  (p.subheaders.filter fun s => !s.isSdu).flatMap (·.writePayload p.isUl)

/-- What is written from the front of the PDU on. -/
def writeFront (p : SchPdu) : Bytes :=
  p.writeOnetwoPadding ++ p.writeCeSubheaders ++ p.writeSduSubheaders ++ p.writeMultibytePadding
    ++ p.writeCePayloads

/-- `N_bytes` with the headers. -/
def nBytes (p : SchPdu) : Nat := p.sdus.length + p.totalHeaderSize

/-- `write_packet`. `stale` is what is in the headroom of the buffer. -/
def writePacket (p : SchPdu) (stale : Nat → UInt8) : Option Bytes :=
  if bufferHeadroom < p.totalHeaderSize then none
  else
    let area := (List.range p.totalHeaderSize).map stale ++ p.sdus
    let msg := p.writeFront ++ area.drop p.writeFront.length
    if p.tailroom < p.numPadding then none
    else if p.nBytes + p.numPadding ≠ p.pduLen then none
    else some (msg.take p.nBytes ++ List.replicate p.numPadding 0)

end SchPdu

/-! ### `parse_packet` -/

/-- A `sch_subh` of a PDU that is read. `payload` is the position of its payload. -/
structure RxSubh where
  lcid : Nat
  nofBytes : Nat
  payload : Nat
deriving DecidableEq, Repr

namespace RxSubh

/-- `read_subheader`: the subheader, the E bit and the position behind it. -/
def readSubheader (isUl : Bool) (pdu : Bytes) (ptr : Nat) : RxSubh × Bool × Nat :=
  let octet := (pdu.getD ptr 0).toNat
  let eBit := octet / 32 % 2 == 1
  let lcid := octet % 32
  if isSduLcid lcid then
    if eBit then
      let length := (pdu.getD (ptr + 1) 0).toNat
      if length / 128 = 1 then
        (⟨lcid, length % 128 * 256 + (pdu.getD (ptr + 2) 0).toNat, 0⟩, true, ptr + 3)
      else (⟨lcid, length % 128, 0⟩, true, ptr + 2)
    else (⟨lcid, 0, 0⟩, false, ptr + 1)
  else (⟨lcid, sizeofCe isUl lcid, 0⟩, eBit, ptr + 1)

/-- `size_plus_header` -/
def sizePlusHeader (s : RxSubh) : Nat :=
  if isSduLcid s.lcid then sizeHeaderSdu s.nofBytes + s.nofBytes else 1 + s.nofBytes

/-- The loop of `parse_packet` that reads the subheaders, with the number of them that may follow
the next one. `none` when all bytes have been consumed. -/
def readSubheaders (isUl : Bool) (pduLen : Nat) (pdu : Bytes) :
    Nat → Nat → Option (List RxSubh × Nat)
  | follow, ptr =>
    let (s, ret, ptr') := readSubheader isUl pdu ptr
    if ret && decide (ptr' ≥ pduLen) then none
    else
      match follow with
      | 0 => some ([s], ptr')
      | follow + 1 =>
        if ret && decide (pduLen > ptr') then
          (readSubheaders isUl pduLen pdu follow ptr').map fun (ss, ptr) => (s :: ss, ptr)
        else some ([s], ptr')

/-- The loop of `parse_packet` that reads the payloads. -/
def readPayloads (pduLen : Nat) : List RxSubh → Nat → Option (List RxSubh)
  | [], _ => some []
  | s :: ss, ptr =>
    if ptr + s.nofBytes > pduLen then none
    else (readPayloads pduLen ss (ptr + s.nofBytes)).map ({ s with payload := ptr } :: ·)

/-- The size of the last subheader. -/
def correctLast (pduLen : Nat) (ss : List RxSubh) : List RxSubh :=
  match ss.getLast? with
  | none => []
  | some last =>
    let readLen := (ss.dropLast.map sizePlusHeader).sum
    if readLen + 1 ≤ pduLen then
      ss.dropLast ++ [{ last with nofBytes := pduLen - readLen - 1 }]
    else []

/-- `parse_packet` -/
def parsePacket (isUl : Bool) (maxSubheaders pduLen : Nat) (pdu : Bytes) : List RxSubh :=
  if maxSubheaders = 0 then []
  else
    match readSubheaders isUl pduLen pdu (maxSubheaders - 2) 0 with
    | none => []
    | some (ss, ptr) =>
      match readPayloads pduLen ss ptr with
      | none => []
      | some ss => correctLast pduLen ss

end RxSubh

end Odss.Mac
