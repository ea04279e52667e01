import Odss.Ue.ProcBsr

/-!
# `Odss.Ue.Mux`: the assembly of uplink MAC PDUs

The model of `mux::pdu_get_nolock` (`srsue/src/stack/mac/mux.cc`) and of the functions it calls, over the
PDU of `sch_pdu` and the procedure of `bsr_proc`, and of `step` and `reset`, which change `Bj`. RLC is a state with two functions, and the value of a
PHR, if one is due, is a parameter. A pointer to the subheader of the BSR is its index. Msg3 and log
output are left out, and so is `write_packet`, which is in `Odss.Mac.SchPdu`.
-/

set_option linter.all false

namespace Odss.Ue.Mux

open Odss.Rlc (Bytes)
open Odss.Mac (SchPdu SchSubh sizeHeaderSdu)
open Odss.Mac.SchPdu (bsrPayload cRntiPayload phrPayload)
open Odss.Ue.BsrProc (Bsr nofLcg)

/-- `MAX_NOF_SUBHEADERS` -/
abbrev maxNofSubheaders : Nat := 20

/-- `logical_channel_config_t`, what is read of it. The LCG is one of the four groups. -/
structure LogicalChannel where
  lcid : Nat
  lcg : Fin nofLcg
  bj : Int
  pbr : Int
  bucketSize : Nat
  priority : Nat
  schedLen : Int
  bufferLen : Int
deriving DecidableEq, Repr

/-- The functions of RLC that MUX calls: `get_buffer_state` of a LCID, and `read_pdu` of at most so many
bytes, which has no bytes where it fails. -/
structure RlcInterface (ρ : Type) where
  getBufferState : ρ → Nat → UInt32
  readPdu : ρ → Nat → Nat → Bytes × ρ

/-- A `uint32_t` as an `int32_t`. -/
def toInt32 (n : UInt32) : Int := if n.toNat < 2 ^ 31 then n.toNat else (n.toNat : Int) - 2 ^ 32

/-- `step` of one channel: `Bj` grows with the prioritised bit rate, unless this is infinite, and is
compared with the size of the bucket as an `uint32_t`. -/
def LogicalChannel.step (ch : LogicalChannel) : LogicalChannel :=
  let bj := if 0 ≤ ch.pbr then ch.bj + ch.pbr else ch.bj
  { ch with bj := toInt32 (UInt32.ofNat (min (bj % 2 ^ 32).toNat ch.bucketSize)) }

/-- `step` -/
def step (channels : List LogicalChannel) : List LogicalChannel := channels.map (·.step)

/-- `reset`. It also drops a pending C-RNTI CE. -/
def reset (channels : List LogicalChannel) : List LogicalChannel :=
  channels.map fun ch => { ch with bj := 0 }

section
variable {ρ : Type}

/-- The loop of `allocate_sdu`, with the bytes that are allocated. Each round takes at least one byte of
the space. -/
def allocateSduLoop (rlcIf : RlcInterface ρ) (lcid : Nat) :
    Nat → Nat → SchPdu → ρ → Nat × SchPdu × ρ
  | 0, _, pdu, rlc => (0, pdu, rlc)
  | fuel + 1, sduSpace, pdu, rlc =>
    let bufferState := toInt32 (rlcIf.getBufferState rlc lcid)
    if 0 < bufferState ∧ 0 < sduSpace then
      let requestedSduLen := min bufferState.toNat sduSpace
      match pdu.newSubh with
      | none => (0, pdu, rlc)
      | some pdu' =>
        if pdu'.hasSpaceSdu requestedSduLen then
          let read := rlcIf.readPdu rlc lcid requestedSduLen
          match pdu'.readSdu lcid requestedSduLen read.1 with
          | none => (0, pdu, read.2)
          | some pdu' =>
            let r := allocateSduLoop rlcIf lcid fuel (sduSpace - read.1.length) pdu' read.2
            (read.1.length + r.1, r.2)
        else (0, pdu, rlc)
    else (0, pdu, rlc)

/-- `allocate_sdu` -/
def allocateSdu (rlcIf : RlcInterface ρ) (lcid maxSduSz : Nat) (pdu : SchPdu) (rlc : ρ) :
    Nat × SchPdu × ρ :=
  allocateSduLoop rlcIf lcid maxSduSz maxSduSz pdu rlc

/-- `sched_sdu`: whether something is scheduled, the channel and the space that is left. -/
def schedSdu (ch : LogicalChannel) (sduSpace maxSduSz : Int) : Bool × LogicalChannel × Int :=
  if 0 < sduSpace ∧ 0 < ch.bufferLen then
    let schedLen := if maxSduSz < ch.bufferLen ∧ 0 ≤ maxSduSz then maxSduSz else ch.bufferLen
    let schedLen := if sduSpace < schedLen then sduSpace else schedLen
    (true, { ch with bufferLen := ch.bufferLen - schedLen, schedLen := ch.schedLen + schedLen },
      sduSpace - schedLen)
  else (false, ch, sduSpace)

/-- The first round over the channels, with the space that is left and `last_sdu_subheader_len`. -/
def firstRound : List LogicalChannel → Int → Nat → List LogicalChannel × Int × Nat
  | [], sduSpace, lastSduSubheaderLen => ([], sduSpace, lastSduSubheaderLen)
  | ch :: channels, sduSpace, lastSduSubheaderLen =>
    let maxSduSz := if ch.pbr < 0 then -1 else ch.bj
    let r := if maxSduSz ≠ 0 then schedSdu ch sduSpace maxSduSz else (false, ch, sduSpace)
    if r.1 then
      let ch := { r.2.1 with bj := r.2.1.bj - r.2.1.schedLen }
      let lastSduSubheaderLen := min r.2.2.toNat (sizeHeaderSdu ch.schedLen.toNat)
      let rest := firstRound channels (r.2.2 - lastSduSubheaderLen) lastSduSubheaderLen
      (ch :: rest.1, rest.2)
    else
      let rest := firstRound channels sduSpace lastSduSubheaderLen
      (ch :: rest.1, rest.2)

/-- The second round over the channels, with the space that is left. -/
def secondRound (lastSduSubheaderLen : Nat) : List LogicalChannel → Int → List LogicalChannel × Int
  | [], sduSpace => ([], sduSpace)
  | ch :: channels, sduSpace =>
    if ch.lcid ≠ 0 then
      let sduSpace :=
        if ch.schedLen = 0 ∧ 0 < ch.bufferLen then sduSpace - lastSduSubheaderLen else sduSpace
      let r := schedSdu ch sduSpace (-1)
      let rest := secondRound lastSduSubheaderLen channels r.2.2
      (r.2.1 :: rest.1, rest.2)
    else
      let rest := secondRound lastSduSubheaderLen channels sduSpace
      (ch :: rest.1, rest.2)

/-- Both rounds. Between them the space for the last subheader is given back. -/
def schedule (channels : List LogicalChannel) (sduSpace : Int) : List LogicalChannel :=
  let r := firstRound channels sduSpace 0
  (secondRound r.2.2 r.1 (if 0 < r.2.2 then r.2.1 + r.2.2 else r.2.1)).1

/-- What is pending in each channel. -/
def readBuffers (rlcIf : RlcInterface ρ) (rlc : ρ) (channels : List LogicalChannel) :
    List LogicalChannel :=
  channels.map fun ch =>
    { ch with schedLen := 0, bufferLen := toInt32 (rlcIf.getBufferState rlc ch.lcid) }

/-- `bsr.buff_size`, before SDUs are taken. -/
def pendingOfLcg (rlcIf : RlcInterface ρ) (rlc : ρ) (channels : List LogicalChannel)
    (lcg : Fin nofLcg) : UInt32 :=
  ((channels.filter fun ch => ch.lcg = lcg).map fun ch => rlcIf.getBufferState rlc ch.lcid).sum

/-- `total_pending_data` -/
def totalPendingData (rlcIf : RlcInterface ρ) (rlc : ρ) (channels : List LogicalChannel) : UInt32 :=
  let headerOf (ch : LogicalChannel) : UInt32 :=
    UInt32.ofNat (sizeHeaderSdu (rlcIf.getBufferState rlc ch.lcid).toNat)
  let total := (channels.map fun ch => rlcIf.getBufferState rlc ch.lcid + headerOf ch).sum
  if 0 < toInt32 total then
    -- The last SDU has no length byte.
    total - (channels.getLast?.map headerOf).getD 0 + 1
  else total

/-- The PDU, RLC and `bsr.buff_size` while SDUs are taken, with whether one of the counters has been
decreased by more than it was. -/
structure Build (ρ : Type) where
  pdu : SchPdu
  rlc : ρ
  buffSize : Fin nofLcg → UInt32
  wrapped : Bool

/-- The loop that takes the SDUs of the channels. -/
def allocateSdus (rlcIf : RlcInterface ρ) : List LogicalChannel → Build ρ → Build ρ
  | [], b => b
  | ch :: channels, b =>
    if ch.schedLen ≠ 0 then
      let r := allocateSdu rlcIf ch.lcid ch.schedLen.toNat b.pdu b.rlc
      allocateSdus rlcIf channels {
        pdu := r.2.1
        rlc := r.2.2
        buffSize := fun i =>
          if i = ch.lcg then b.buffSize i - UInt32.ofNat r.1 else b.buffSize i
        wrapped := b.wrapped || (b.buffSize ch.lcg).toNat < r.1 }
    else allocateSdus rlcIf channels b

/-- `new_subh` and a function that makes the subheader a CE, with `del_subh` where it fails. -/
def addCe (lcid : Nat) (payload : Bytes) (pdu : SchPdu) : Option SchPdu :=
  pdu.newSubh.bind fun pdu => pdu.setCe lcid payload

/-- The subheader of a BSR. -/
def addBsr (bsr : Bsr) (pdu : SchPdu) : Option SchPdu :=
  addCe bsr.format.lcid (bsrPayload (fun i => (bsr.buffSize i).toNat) bsr.format) pdu

/-- The C-RNTI CE. A subheader that cannot become one is not deleted. -/
def addCRnti (crnti : UInt16) (pdu : SchPdu) : SchPdu :=
  match pdu.newSubh with
  | none => pdu
  | some pdu' => (pdu'.setCe 27 (cRntiPayload crnti)).getD pdu'

/-- `update_bsr` of the subheader at an index. -/
def updateBsr (idx : Nat) (bsr : Bsr) (pdu : SchPdu) : SchPdu :=
  { pdu with
    subheaders := pdu.subheaders.modify idx fun subh =>
      { subh with wPayloadCe := bsrPayload (fun i => (bsr.buffSize i).toNat) bsr.format } }

/-- What `pdu_get_nolock` has at its end. -/
structure Result (ρ : Type) where
  channels : List LogicalChannel
  pdu : SchPdu
  rlc : ρ
  bsrProc : BsrProc.State
  bsr : Bsr
  wrapped : Bool

/-- The UL-CCCH or the C-RNTI CE. -/
def addCcch (rlcIf : RlcInterface ρ) (pendingCrntiCe : UInt16) (rlc : ρ) (pduSz : Nat) : SchPdu × ρ :=
  let r := allocateSdu rlcIf 0 pduSz (SchPdu.initTx maxNofSubheaders pduSz true) rlc
  if r.1 = 0 ∧ pendingCrntiCe ≠ 0 then (addCRnti pendingCrntiCe r.2.1, r.2.2) else r.2

/-- The BSR that is not for padding, with the index of its subheader. It is also `none` where there was
no space. -/
def addRegularBsr (regularBsr : Bool) (bsr : Bsr) (pdu : SchPdu) : SchPdu × Option Nat :=
  if regularBsr then
    match addBsr bsr pdu with
    | none => (pdu, none)
    | some pdu' => (pdu', some pdu.subheaders.length)
  else (pdu, none)

/-- The PHR, where there is space. -/
def addPhr (phr : Option UInt8) (pdu : SchPdu) : SchPdu :=
  match phr with
  | none => pdu
  | some report => (addCe 26 (phrPayload report) pdu).getD pdu

/-- The BSR for padding. -/
def addPaddingBsr (bsr : Bsr) (s : BsrProc.State) (pdu : SchPdu) : SchPdu × Bsr × BsrProc.State :=
  let r := s.generatePaddingBsr pdu.remLen bsr
  (if r.1 then (addBsr r.2.1 pdu).getD pdu else pdu, r.2)

/-- `pdu_get_nolock` -/
def pduGetNolock (rlcIf : RlcInterface ρ) (channels : List LogicalChannel) (pendingCrntiCe : UInt16)
    (phr : Option UInt8) (rlc : ρ) (s : BsrProc.State) (pduSz : Nat) : Result ρ :=
  let ccch := addCcch rlcIf pendingCrntiCe rlc pduSz
  let rlc := ccch.2
  let channels := readBuffers rlcIf rlc channels
  let need := s.needToSendBsrOnUlGrant ccch.1.remLen (totalPendingData rlcIf rlc channels).toNat
    ⟨.long, pendingOfLcg rlcIf rlc channels⟩
  let bsr := need.2.1
  let regular := addRegularBsr need.1 bsr ccch.1
  let pdu := addPhr phr regular.1
  let channels := schedule channels pdu.getSduSpace
  let b := allocateSdus rlcIf channels ⟨pdu, rlc, bsr.buffSize, false⟩
  let bsr := { bsr with buffSize := b.buffSize }
  let last := match regular.2 with
    | some idx => (updateBsr idx bsr b.pdu, bsr, need.2.2)
    | none => addPaddingBsr bsr need.2.2 b.pdu
  { channels
    pdu := last.1
    rlc := b.rlc
    bsrProc := last.2.2.updateBsrTtiEnd last.2.1
    bsr := last.2.1
    wrapped := b.wrapped }

end

end Odss.Ue.Mux
