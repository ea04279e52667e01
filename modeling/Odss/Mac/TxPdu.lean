import Odss.Mac.SchPdu

/-!
# `Odss.Mac.TxPdu`: the space of MAC PDUs of the shared channels and of the multicast channel

The model of `sch_pdu` and `sch_subh` for both types of subheaders (`sch_pdu` and `mch_pdu` are one
class), as far as PDUs are written (`lib/include/srsran/mac/pdu.h`, `lib/src/mac/pdu.cc`).
`Odss.Mac.SchPdu` has the PDUs of the shared channels without empty SDUs, whose space is never
short of what is taken. Here `rem_len` and `num_padding` are 32 bits wide, as in the code, so an
insertion that takes more than is left shows.
-/

set_option linter.all false

namespace Odss.Mac

open Odss.Rlc

/-- `subh_type` -/
inductive SubhType where
  | sch
  | mch
deriving DecidableEq, Repr

/-- `mch_lcid::MCH_SCHED_INFO` -/
abbrev mchSchedInfo : Nat := 30

/-- `is_sdu` of a LCID. It is compared as an `int`. -/
def SubhType.isSdu (t : SubhType) (lcid : Nat) : Bool :=
  match t with
  | .sch => isSduLcid lcid || decide (2 ^ 31 ≤ lcid)
  | .mch => decide (lcid < mchSchedInfo) || decide (2 ^ 31 ≤ lcid)

/-! ### Subheaders -/

/-- A `sch_subh` of a PDU that is written. The bytes of `wPayloadCe` behind those here are zero. -/
structure TxSubh where
  lcid : Nat
  nofBytes : Nat
  wPayloadCe : Bytes
  nofMchSchedCe : Nat
deriving DecidableEq, Repr

namespace TxSubh

/-- `init` -/
def init : TxSubh := ⟨0, 0, [], 0⟩

/-- `is_sdu` -/
def isSdu (t : SubhType) (s : TxSubh) : Bool := t.isSdu s.lcid

/-- `is_var_len_ce` -/
def isVarLenCe (t : SubhType) (s : TxSubh) : Bool := decide (t = .mch ∧ s.lcid = mchSchedInfo)

/-- `get_header_size` -/
def headerSize (t : SubhType) (s : TxSubh) (isLast : Bool) : Nat :=
  if isLast then 1
  else if s.isSdu t || s.isVarLenCe t then sizeHeaderSdu s.nofBytes else 1

/-- `sizeof_ce` -/
def sizeofCe (t : SubhType) (isUl : Bool) (s : TxSubh) : Nat :=
  match t with
  | .sch => Mac.sizeofCe isUl s.lcid
  | .mch => if s.lcid = mchSchedInfo then s.nofMchSchedCe * 2 else 0

/-- `write_subheader` -/
def writeSubheader (t : SubhType) (s : TxSubh) (isLast : Bool) : Bytes :=
  UInt8.ofNat ((if isLast then 0 else 32) + s.lcid % 32) ::
    if (s.isSdu t || s.isVarLenCe t) && !isLast then SchSubh.lengthField s.nofBytes else []

/-- `write_payload` of a CE -/
def writePayload (t : SubhType) (isUl : Bool) (s : TxSubh) : Bytes :=
  (s.wPayloadCe ++ List.replicate 64 0).take (s.sizeofCe t isUl)

end TxSubh

/-! ### PDUs -/

/-- The state of a `sch_pdu` that is written. `sdus` has the bytes of `buffer_tx`. -/
structure TxPdu where
  maxSubheaders : Nat
  pduLen : Nat
  remLen : Nat
  isUl : Bool
  subheaders : List TxSubh
  lastSduIdx : Option Nat
  sdus : Bytes
deriving DecidableEq, Repr

namespace TxPdu

/-- `init_tx` with an empty buffer. -/
def initTx (maxSubheaders pduLen : Nat) (isUl : Bool) : TxPdu where
  maxSubheaders := maxSubheaders
  pduLen := pduLen
  remLen := pduLen
  isUl := isUl
  subheaders := []
  lastSduIdx := none
  sdus := []

/-- `get_tailroom` of the buffer. -/
def tailroom (p : TxPdu) : Nat := bufferTailroom - p.sdus.length

/-- The subheader of the last SDU. -/
def lastSdu (p : TxPdu) : Option TxSubh := p.lastSduIdx.bind fun i => p.subheaders[i]?

/-- What the header of the last SDU gets when it is not the last one any more. -/
def lastSduGrowth (p : TxPdu) : Nat :=
  match p.lastSdu with
  | none => 0
  | some s => subU32 (sizeHeaderSdu s.nofBytes) 1

/-- `get_sdu_space`. A negative number is none. -/
def getSduSpace (p : TxPdu) : Nat :=
  let ret := subU32 (subU32 p.remLen p.lastSduGrowth) 1
  min (if ret < 2 ^ 31 then ret else 0) p.tailroom

/-- `head_len` -/
def headLen (nbytes : Nat) (varLen : Bool) : Nat := if varLen then sizeHeaderSdu nbytes else 1

/-- `has_space_ce` -/
def hasSpaceCe (p : TxPdu) (nbytes : Nat) (varLen : Bool) : Bool :=
  decide (p.remLen ≥ nbytes + headLen nbytes varLen)

/-- `update_space_ce`. It looks for the space of a CE whose length is not variable. -/
def updateSpaceCe (p : TxPdu) (nbytes : Nat) (varLen : Bool) : TxPdu :=
  if p.hasSpaceCe nbytes false then
    { p with remLen := subU32 p.remLen (nbytes + headLen nbytes varLen) }
  else p

/-- `has_space_sdu` -/
def hasSpaceSdu (p : TxPdu) (nbytes : Nat) : Bool := decide (p.getSduSpace ≥ nbytes)

/-- `update_space_sdu`. The current subheader is the last one. -/
def updateSpaceSdu (p : TxPdu) (nbytes : Nat) : TxPdu :=
  if p.hasSpaceSdu nbytes then
    { p with
      remLen := subU32 p.remLen ((nbytes + 1 + p.lastSduGrowth) % 2 ^ 32)
      lastSduIdx := some (p.subheaders.length - 1) }
  else p

/-- `new_subh` -/
def newSubh (p : TxPdu) : Option TxPdu :=
  if p.subheaders.length + 1 < p.maxSubheaders ∧ p.remLen ≥ 2 then
    some { p with subheaders := p.subheaders ++ [.init] }
  else none

/-- The PDU with other contents of the current subheader. -/
def setCurrent (p : TxPdu) (s : TxSubh) : TxPdu :=
  { p with subheaders := p.subheaders.dropLast ++ [s] }

/-! ### Insertions -/

/-- The functions that make the current subheader a CE of the shared channels. -/
def setCe (p : TxPdu) (lcid : Nat) (payload : Bytes) : Option TxPdu :=
  if p.hasSpaceCe payload.length false then
    some ((p.setCurrent ⟨lcid, payload.length, payload, 0⟩).updateSpaceCe payload.length false)
  else none

/-- `MTCH_STOP_EMPTY` -/
def mtchStopEmpty : Nat := 2047

/-- The two bytes of an entry of the scheduling information. -/
def schedInfoEntry (lcid : UInt8) (mtchStop : UInt16) : Bytes :=
  let mtchStopCe := if mtchStop.toNat = 0 then mtchStopEmpty else mtchStop.toNat
  [UInt8.ofNat (lcid.toNat % 32 * 8 + mtchStopCe / 256 % 8), UInt8.ofNat (mtchStopCe % 256)]

/-- `set_next_mch_sched_info`, for an entry that has a place in the 64 bytes of `w_payload_ce`.
What an entry behind them does is undefined. -/
def setNextMchSchedInfo (p : TxPdu) (lcid : UInt8) (mtchStop : UInt16) : Option TxPdu :=
  p.subheaders.getLast?.bind fun s =>
    if p.hasSpaceCe 2 true ∧ s.nofMchSchedCe < 32 then
      some ((p.setCurrent ⟨mchSchedInfo, s.nofBytes + 2,
        s.wPayloadCe ++ schedInfoEntry lcid mtchStop, s.nofMchSchedCe + 1⟩).updateSpaceCe 2 true)
    else none

/-- The current subheader is a CE of the scheduling information. -/
def InMchSchedInfo (p : TxPdu) : Prop :=
  ∃ s, p.subheaders.getLast? = some s ∧ 0 < s.nofMchSchedCe

instance (p : TxPdu) : Decidable p.InMchSchedInfo :=
  decidable_of_iff (p.subheaders.getLast?.any fun s => decide (0 < s.nofMchSchedCe)) (by
    rw [Option.any_eq_true]
    exact exists_congr fun s => and_congr_right fun _ => decide_eq_true_iff)

/-- `set_sdu` with the bytes of the SDU: they are in the buffer before the space is updated. -/
def setSdu (p : TxPdu) (lcid : Nat) (sdu : Bytes) : Option TxPdu :=
  if p.hasSpaceSdu sdu.length then
    some (({ p with sdus := p.sdus ++ sdu }.updateSpaceSdu sdu.length).setCurrent
      ⟨lcid, sdu.length, [], 0⟩)
  else none

/-- `set_sdu` with an interface: for the requested size it has returned `sdu`. -/
def readSdu (p : TxPdu) (lcid requestedBytes : Nat) (sdu : Bytes) : Option TxPdu :=
  if p.hasSpaceSdu requestedBytes && !sdu.isEmpty && decide (sdu.length ≤ requestedBytes) then
    let p := (p.updateSpaceSdu sdu.length).setCurrent ⟨lcid, sdu.length, [], 0⟩
    some { p with sdus := p.sdus ++ sdu }
  else none

/-- A subheader that is put into a PDU whose subheaders have the type, or
another entry of the CE that was put in last. -/
inductive TxOp : SubhType → Type where
  | setSdu {t : SubhType} (lcid : Nat) (sdu : Bytes) : TxOp t
  | readSdu {t : SubhType} (lcid requestedBytes : Nat) (sdu : Bytes) : TxOp t
  | setCRnti (crnti : UInt16) : TxOp .sch
  | setBsr (buffSize : Fin 4 → Nat) (format : SchPdu.BsrFormat) : TxOp .sch
  | setConResId (conResId : UInt64) : TxOp .sch
  | setTaCmd (taCmd : UInt8) : TxOp .sch
  | setPhr (report : UInt8) : TxOp .sch
  | setScellActivationCmd (active : Fin 5 → Bool) : TxOp .sch
  | setMchSchedInfo (lcid : UInt8) (mtchStop : UInt16) : TxOp .mch
  | nextMchSchedInfo (lcid : UInt8) (mtchStop : UInt16) : TxOp .mch

/-- `new_subh` and the function that sets the subheader, or that function alone for another entry
of a CE. `none` when one of them fails. -/
def insert {t : SubhType} (p : TxPdu) (op : TxOp t) : Option TxPdu :=
  match op with
  | .setSdu lcid sdu => p.newSubh.bind (·.setSdu lcid sdu)
  | .readSdu lcid requestedBytes sdu => p.newSubh.bind (·.readSdu lcid requestedBytes sdu)
  | .setCRnti crnti => p.newSubh.bind (·.setCe 27 (SchPdu.cRntiPayload crnti))
  | .setBsr buffSize format =>
    p.newSubh.bind (·.setCe format.lcid (SchPdu.bsrPayload buffSize format))
  | .setConResId conResId => p.newSubh.bind (·.setCe 28 (SchPdu.conResIdPayload conResId))
  | .setTaCmd taCmd => p.newSubh.bind (·.setCe 29 (SchPdu.taCmdPayload taCmd))
  | .setPhr report => p.newSubh.bind (·.setCe 26 (SchPdu.phrPayload report))
  | .setScellActivationCmd active =>
    p.newSubh.bind (·.setCe 27 (SchPdu.scellActivationPayload active))
  | .setMchSchedInfo lcid mtchStop => p.newSubh.bind (·.setNextMchSchedInfo lcid mtchStop)
  | .nextMchSchedInfo lcid mtchStop =>
    if p.InMchSchedInfo then p.setNextMchSchedInfo lcid mtchStop else none

/-- An insertion as a step of a run. -/
def step {t : SubhType} (p : TxPdu) (op : TxOp t) : Option (TxPdu × Unit) :=
  (p.insert op).map fun p => (p, ())

/-! ### `write_packet` -/

/-- `ce_only` -/
def ceOnly (p : TxPdu) : Bool := p.lastSduIdx.isNone

/-- `multibyte_padding` -/
def multibytePadding (p : TxPdu) : Bool := decide (p.remLen > 2)

/-- `onetwo_padding` -/
def onetwoPadding (p : TxPdu) : Nat := if p.multibytePadding then 0 else p.remLen

/-- `num_padding`, behind the header of the padding and what the header of the last SDU grows. -/
def numPadding (t : SubhType) (p : TxPdu) : Nat :=
  if p.multibytePadding then
    match p.lastSdu with
    | none => p.remLen - 1
    | some s => subU32 (p.remLen - 1) (subU32 (s.headerSize t false) 1)
  else 0

/-- `header_sz` -/
def headerSz (t : SubhType) (p : TxPdu) : Nat :=
  (p.subheaders.zipIdx.map fun (s, i) =>
      s.headerSize t (!p.multibytePadding && p.lastSduIdx == some i)).sum
    + if p.multibytePadding then 1 else p.onetwoPadding

/-- `ce_payload_sz` -/
def cePayloadSz (t : SubhType) (p : TxPdu) : Nat :=
  ((p.subheaders.filter fun s => !s.isSdu t).map TxSubh.nofBytes).sum

/-- `total_header_size` -/
def totalHeaderSize (t : SubhType) (p : TxPdu) : Nat := p.headerSz t + p.cePayloadSz t

/-- The one or two bytes of padding in front. -/
def writeOnetwoPadding (p : TxPdu) : Bytes :=
  (List.replicate p.onetwoPadding (SchSubh.padding 0)).flatMap
    (·.writeSubheader !decide (p.pduLen > p.onetwoPadding))

/-- The subheaders of the CEs. -/
def writeCeSubheaders (t : SubhType) (p : TxPdu) : Bytes :=
  (p.subheaders.zipIdx.filter fun (s, _) => !s.isSdu t).flatMap fun (s, i) =>
    s.writeSubheader t (p.ceOnly && !p.multibytePadding && i + 1 == p.subheaders.length)

/-- The subheaders of the SDUs. -/
def writeSduSubheaders (t : SubhType) (p : TxPdu) : Bytes :=
  if p.ceOnly then []
  else
    (p.subheaders.zipIdx.filter fun (s, _) => s.isSdu t).flatMap fun (s, i) =>
      s.writeSubheader t (!p.multibytePadding && p.lastSduIdx == some i)

/-- The subheader of the padding behind the others. -/
def writeMultibytePadding (t : SubhType) (p : TxPdu) : Bytes :=
  if p.multibytePadding then (SchSubh.padding (p.numPadding t)).writeSubheader true else []

/-- The payloads of the CEs. -/
def writeCePayloads (t : SubhType) (p : TxPdu) : Bytes :=
  (p.subheaders.filter fun s => !s.isSdu t).flatMap (·.writePayload t p.isUl)

/-- What is written from the front of the PDU on. -/
def writeFront (t : SubhType) (p : TxPdu) : Bytes :=
  p.writeOnetwoPadding ++ p.writeCeSubheaders t ++ p.writeSduSubheaders t
    ++ p.writeMultibytePadding t ++ p.writeCePayloads t

/-- `N_bytes` with the headers. -/
def nBytes (t : SubhType) (p : TxPdu) : Nat := p.sdus.length + p.totalHeaderSize t

/-- `write_packet`. `stale` is what is in the headroom of the buffer. -/
def writePacket (t : SubhType) (p : TxPdu) (stale : Nat → UInt8) : Option Bytes :=
  if bufferHeadroom < p.totalHeaderSize t then none
  else
    let area := (List.range (p.totalHeaderSize t)).map stale ++ p.sdus
    let msg := p.writeFront t ++ area.drop (p.writeFront t).length
    if p.tailroom < p.numPadding t then none
    else if p.nBytes t + p.numPadding t ≠ p.pduLen then none
    else some (msg.take (p.nBytes t) ++ List.replicate (p.numPadding t) 0)

end TxPdu

end Odss.Mac
