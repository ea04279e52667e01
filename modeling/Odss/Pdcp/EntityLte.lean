import Odss.Pdcp.Common
import Odss.Pdcp.UndeliveredSdus

/-!
# `Odss.Pdcp.EntityLte`: the LTE PDCP entity

The model of `pdcp_entity_lte` (`lib/src/pdcp/pdcp_entity_lte.cc`) with the direction switches of
`pdcp_entity_base`. The state of the RLC is an argument of the calls that look at it. SDUs that
go to the upper layer are kept with the COUNT under which they were received. Log output,
metrics and buffer allocation failures are left out.
-/

set_option linter.all false

namespace Odss.Pdcp

open Odss.Lib Odss.Rlc

/-- `srsran_direction_t` -/
inductive Direction where
  | none
  | tx
  | rx
  | txrx
deriving DecidableEq, Repr

/-- `direction == DIRECTION_TX || direction == DIRECTION_TXRX` -/
def Direction.hasTx (d : Direction) : Bool := d == .tx || d == .txrx

/-- `direction == DIRECTION_RX || direction == DIRECTION_TXRX` -/
def Direction.hasRx (d : Direction) : Bool := d == .rx || d == .txrx

/-- `enable_integrity` and `enable_encryption`: one direction that is added to the other one
gives both. -/
def Direction.enable (d direction : Direction) : Direction :=
  if d = .tx ∧ direction = .rx then .txrx
  else if d = .rx ∧ direction = .tx then .txrx
  else direction

/-- The configuration of an entity. `rlcUm` is the answer of `rb_is_um`. -/
structure LteConfig where
  snLen : SnLen
  rbType : RbType
  rlcUm : Bool
  discardTimer : Nat
  statusReportRequired : Bool
deriving DecidableEq, Repr

namespace LteConfig

/-- A DRB on RLC AM. -/
def isAmDrb (cfg : LteConfig) : Bool := !cfg.rlcUm && cfg.rbType == .drb

/-- `maximum_pdcp_sn` -/
def maximumPdcpSn (cfg : LteConfig) : Nat := cfg.snLen.nofSns - 1

/-- `reordering_window` -/
def reorderingWindow (cfg : LteConfig) : Nat :=
  match cfg.rbType with
  | .srb => 0
  | .drb => 2048

/-- `maximum_allocated_sns_window` -/
def maximumAllocatedSnsWindow (cfg : LteConfig) : Nat := cfg.snLen.nofSns / 2

/-- `cfg.discard_timer` after `configure`, which does not let an AM DRB go without one. -/
def discardTimeout (cfg : LteConfig) : Nat :=
  if cfg.isAmDrb && cfg.discardTimer == 0 then 1500 else cfg.discardTimer

end LteConfig

/-- `pdcp_lte_state_t` -/
structure LteState where
  nextPdcpTxSn : Nat
  txHfn : Nat
  rxHfn : Nat
  nextPdcpRxSn : Nat
  lastSubmittedPdcpRxSn : Nat
deriving DecidableEq, Repr

/-- The state of `pdcp_entity_lte`. `rxCountsInfo` has the largest COUNT in front. `delivered` has
the SDUs that the upper layer got. -/
structure PdcpLte where
  cfg : LteConfig
  active : Bool
  st : LteState
  integrityDirection : Direction
  encryptionDirection : Direction
  enableSecurityTxSn : Option Nat
  enableSecurityRxSn : Option Nat
  undeliveredSdus : UndeliveredSdus
  fmc : Nat
  largestRxCount : Nat
  rxCountsInfo : List Nat
  delivered : List (Nat × Bytes)
deriving DecidableEq

/-- What `write_sdu` asks the RLC: `is_suspended` and `sdu_queue_is_full`. -/
structure RlcStatus where
  suspended : Bool
  sduQueueIsFull : Bool
deriving DecidableEq, Repr

/-- What the RLC gets from `write_sdu`: the PDU with its `md.pdcp_sn`. `count` is the COUNT under
which it was protected. -/
structure LteTxPdu where
  count : Nat
  pdcpSn : Nat
  pdu : Bytes
deriving DecidableEq, Repr

namespace PdcpLte

/-- The state after `configure`. -/
def init (cfg : LteConfig) : PdcpLte where
  cfg := cfg
  active := true
  st := ⟨0, 0, 0, 0, cfg.maximumPdcpSn⟩
  integrityDirection := .none
  encryptionDirection := .none
  enableSecurityTxSn := none
  enableSecurityRxSn := none
  undeliveredSdus := .init
  fmc := 0
  largestRxCount := 0
  rxCountsInfo := []
  delivered := []

/-- `COUNT` -/
def count (s : PdcpLte) (hfn sn : Nat) : Nat := s.cfg.snLen.count hfn sn

/-! ### Transmission -/

/-- The checks of `store_sdu` on the place of the SN behind the first undelivered one. -/
def snInWindow (s : PdcpLte) (sn : Nat) : Bool :=
  let diff : Int := (sn : Int) - (s.undeliveredSdus.fms : Int)
  let window : Int := s.cfg.maximumAllocatedSnsWindow
  !(decide (diff > window) || (decide (diff < 0) && decide (diff > -window)))

/-- `store_sdu`, with `none` for a return value of false. -/
def storeSdu (s : PdcpLte) (sn : Nat) (sdu : Bytes) : Option UndeliveredSdus :=
  if s.undeliveredSdus.hasSdu sn then none
  else if s.undeliveredSdus.isFull then none
  else if !s.undeliveredSdus.isEmpty && !s.snInWindow sn then none
  else s.undeliveredSdus.addSdu sn sdu

/-- The queue of undelivered SDUs after an SDU was stored, which AM DRBs do. `none` when the SDU
is discarded. -/
def storedSdus (s : PdcpLte) (sn : Nat) (sdu : Bytes) : Option UndeliveredSdus :=
  if s.cfg.isAmDrb then s.storeSdu sn sdu else some s.undeliveredSdus

/-- The start of the security functions that waits for a COUNT. -/
def enableTxSecurity (s : PdcpLte) (txCount : Nat) : PdcpLte :=
  if s.enableSecurityTxSn = some txCount then
    { s with
      integrityDirection := s.integrityDirection.enable .tx
      encryptionDirection := s.encryptionDirection.enable .tx
      enableSecurityTxSn := none }
  else s

/-- The PDU for an SDU: header, SDU and, for an SRB, MAC. What is behind the header is ciphered. -/
def protect (sec : Security) (s : PdcpLte) (txCount : Nat) (sdu : Bytes) : Bytes :=
  let header := dataHeader s.cfg.snLen s.cfg.rbType txCount
  let mac := if s.integrityDirection.hasTx then sec.integrityGenerate txCount (header ++ sdu)
    else [0, 0, 0, 0]
  let body := if s.cfg.rbType = .srb then appendMac sdu mac else sdu
  header ++ if s.encryptionDirection.hasTx then sec.cipherEncrypt txCount body else body

/-- The update of `NEXT_PDCP_TX_SN` and `TX_HFN`. -/
def advanceTx (s : PdcpLte) : PdcpLte :=
  let next := s.st.nextPdcpTxSn + 1
  if next > s.cfg.maximumPdcpSn then
    { s with st := { s.st with nextPdcpTxSn := 0, txHfn := (s.st.txHfn + 1) % 2 ^ 32 } }
  else { s with st := { s.st with nextPdcpTxSn := next } }

/-- `used_sn`. `upperSn` is the SN that the upper layer provides. -/
def usedSn (s : PdcpLte) (upperSn : Option Nat) : Nat := upperSn.getD s.st.nextPdcpTxSn

/-- `tx_count` -/
def txCount (s : PdcpLte) (upperSn : Option Nat) : Nat := s.count s.st.txHfn (s.usedSn upperSn)

/-- The part of `write_sdu` for an SDU that was stored in the queue `q`. -/
def sendSdu (sec : Security) (s : PdcpLte) (q : UndeliveredSdus) (sdu : Bytes)
    (upperSn : Option Nat) : PdcpLte × LteTxPdu :=
  let t := { s with undeliveredSdus := q }.enableTxSecurity (s.txCount upperSn)
  (if upperSn.isNone then t.advanceTx else t,
    ⟨s.txCount upperSn, s.usedSn upperSn, t.protect sec (s.txCount upperSn) sdu⟩)

/-- `write_sdu` -/
def writeSdu (sec : Security) (s : PdcpLte) (rlc : RlcStatus) (sdu : Bytes) (upperSn : Option Nat) :
    PdcpLte × Option LteTxPdu :=
  if !s.active || rlc.suspended || rlc.sduQueueIsFull then (s, none)
  else
    match s.storedSdus (s.usedSn upperSn) sdu with
    | none => (s, none)
    | some q => ((s.sendSdu sec q sdu upperSn).1, some (s.sendSdu sec q sdu upperSn).2)

/-- `notify_delivery` and `notify_failure`, which both remove the SDUs. -/
def notify (s : PdcpLte) (pdcpSns : List Nat) : PdcpLte :=
  let sns := pdcpSns.filter fun sn => sn != 2 ^ 32 - 1
  if s.cfg.rbType = .drb then { s with undeliveredSdus := s.undeliveredSdus.clearAll sns } else s

/-- `discard_callback` of the discard timer for an SN. -/
def discard (s : PdcpLte) (sn : Nat) : PdcpLte :=
  { s with undeliveredSdus := s.undeliveredSdus.clearSdu sn }

/-- `reestablish` -/
def reestablish (s : PdcpLte) : PdcpLte :=
  if s.cfg.isAmDrb then s
  else { s with st := { s.st with nextPdcpTxSn := 0, txHfn := 0, rxHfn := 0, nextPdcpRxSn := 0 } }

/-- `set_bearer_state` -/
def setBearerState (s : PdcpLte) (st : LteState) (setFmc : Bool) : PdcpLte :=
  { s with
    st := st
    fmc := if setFmc then s.count st.rxHfn st.lastSubmittedPdcpRxSn else s.fmc }

/-! ### Reception -/

/-- The loop that removes the COUNTs in sequence behind `fmc`, from the smallest one on. -/
def popReceived : List Nat → Nat → List Nat × Nat
  | [], fmc => ([], fmc)
  | c :: cs, fmc => if c = fmc then popReceived cs ((fmc + 1) % 2 ^ 32) else (c :: cs, fmc)

/-- The state with the loop run from `fmc`. -/
def skipReceived (s : PdcpLte) (fmc : Nat) : PdcpLte :=
  let (rest, fmc) := popReceived s.rxCountsInfo.reverse fmc
  { s with rxCountsInfo := rest.reverse, fmc := fmc }

/-- The part of `update_rx_counts_queue` for a queue that is too long. -/
def shortenRxCounts (s : PdcpLte) : PdcpLte :=
  if s.rxCountsInfo.length > s.cfg.reorderingWindow then
    s.skipReceived (s.rxCountsInfo.getLast?.getD s.fmc)
  else s

/-- `update_rx_counts_queue` -/
def updateRxCountsQueue (s : PdcpLte) (rxCount : Nat) : PdcpLte :=
  if rxCount < s.fmc then s
  else
    let s := { s with largestRxCount := max s.largestRxCount rxCount }
    let s :=
      if rxCount = s.fmc then s.skipReceived ((s.fmc + 1) % 2 ^ 32)
      else { s with rxCountsInfo := (s.rxCountsInfo ++ [rxCount]).insertionSort (· ≥ ·) }
    s.shortenRxCounts

/-- An SDU goes to the upper layer. -/
def passToUpperLayers (s : PdcpLte) (count : Nat) (sdu : Bytes) : PdcpLte :=
  { s with delivered := s.delivered ++ [(count, sdu)] }

/-- The update of `NEXT_PDCP_RX_SN` behind an SN, with the wrap. -/
def advanceRx (s : PdcpLte) (sn : Nat) : PdcpLte :=
  if sn + 1 > s.cfg.maximumPdcpSn then
    { s with st := { s.st with nextPdcpRxSn := 0, rxHfn := (s.st.rxHfn + 1) % 2 ^ 32 } }
  else { s with st := { s.st with nextPdcpRxSn := sn + 1 } }

/-- The state with another `rx_hfn`. -/
def incrementRxHfn (s : PdcpLte) : PdcpLte :=
  { s with st := { s.st with rxHfn := (s.st.rxHfn + 1) % 2 ^ 32 } }

/-- `handle_srb_pdu` -/
def handleSrbPdu (sec : Security) (s : PdcpLte) (pdu : Bytes) : PdcpLte :=
  let sn := readDataHeader s.cfg.snLen pdu
  let count :=
    if sn < s.st.nextPdcpRxSn then s.count ((s.st.rxHfn + 1) % 2 ^ 32) sn
    else s.count s.st.rxHfn sn
  let header := pdu.take s.cfg.snLen.hdrLenBytes
  let body := pdu.drop s.cfg.snLen.hdrLenBytes
  let body := if s.encryptionDirection.hasRx then sec.cipherDecrypt count body else body
  let (mac, msg) := extractMac (header ++ body)
  if s.integrityDirection.hasRx && !sec.integrityVerify count msg mac then s
  else
    let s := if sn < s.st.nextPdcpRxSn then s.incrementRxHfn else s
    (s.advanceRx sn).passToUpperLayers count (discardDataHeader s.cfg.snLen msg)

/-- `handle_um_drb_pdu` -/
def handleUmDrbPdu (sec : Security) (s : PdcpLte) (pdu : Bytes) : PdcpLte :=
  let sn := readDataHeader s.cfg.snLen pdu
  let body := discardDataHeader s.cfg.snLen pdu
  let s := if sn < s.st.nextPdcpRxSn then s.incrementRxHfn else s
  let count := s.count s.st.rxHfn sn
  let sdu := if s.encryptionDirection.hasRx then sec.cipherDecrypt count body else body
  (s.advanceRx sn).passToUpperLayers count sdu

/-- Whether `handle_am_drb_pdu` discards an SN. The differences are those of signed numbers. -/
def discardsSn (s : PdcpLte) (sn : Nat) : Bool :=
  let lastSubmitDiffSn : Int := (s.st.lastSubmittedPdcpRxSn : Int) - (sn : Int)
  let snDiffLastSubmit : Int := (sn : Int) - (s.st.lastSubmittedPdcpRxSn : Int)
  let window : Int := s.cfg.reorderingWindow
  (decide (0 ≤ snDiffLastSubmit) && decide (snDiffLastSubmit > window)) ||
    (decide (0 ≤ lastSubmitDiffSn) && decide (lastSubmitDiffSn < window))

/-- The COUNT that `handle_am_drb_pdu` finds for an SN, and the state with the updated reception
variables. -/
def amDrbCount (s : PdcpLte) (sn : Nat) : Nat × PdcpLte :=
  let snDiffNext : Int := (sn : Int) - (s.st.nextPdcpRxSn : Int)
  let window : Int := s.cfg.reorderingWindow
  if (s.st.nextPdcpRxSn : Int) - (sn : Int) > window then
    -- The SN is far behind, so it has wrapped.
    let s := s.incrementRxHfn
    (s.count s.st.rxHfn sn, { s with st := { s.st with nextPdcpRxSn := sn + 1 } })
  else if snDiffNext ≥ window then (s.count (subU32 s.st.rxHfn 1) sn, s)
  else if sn ≥ s.st.nextPdcpRxSn then (s.count s.st.rxHfn sn, s.advanceRx sn)
  else (s.count s.st.rxHfn sn, s)

/-- The part of `handle_am_drb_pdu` for an SN that is not discarded. -/
def acceptAmDrbPdu (sec : Security) (s : PdcpLte) (sn : Nat) (body : Bytes) : PdcpLte :=
  let (count, s) := s.amDrbCount sn
  let s := { s with st := { s.st with lastSubmittedPdcpRxSn := sn } }
  (s.updateRxCountsQueue count).passToUpperLayers count (sec.cipherDecrypt count body)

/-- `handle_am_drb_pdu` -/
def handleAmDrbPdu (sec : Security) (s : PdcpLte) (pdu : Bytes) : PdcpLte :=
  let sn := readDataHeader s.cfg.snLen pdu
  if s.discardsSn sn then s
  else s.acceptAmDrbPdu sec sn (discardDataHeader s.cfg.snLen pdu)

/-! ### Status reports -/

/-- The size of the bitmap in bytes, for the largest received COUNT `diff` places behind the one
before `fmc`. -/
def bitmapSize (diff : Nat) : Nat := (diff + 7) / 8

/-- The bitmap with the bit of a received COUNT set. -/
def setBit (fmc : Nat) (bitmap : Bytes) (rxCount : Nat) : Bytes :=
  let offset := subU32 rxCount (fmc + 1)
  bitmap.modify (offset / 8) fun b => b ||| UInt8.ofNat (2 ^ (7 - offset % 8))

/-- The control bit, the type and FMS of a status report. `none` for an SN length without one. -/
def statusReportHeader (snLen : SnLen) (fms : Nat) : Option Bytes :=
  match snLen with
  | .len12 => some [UInt8.ofNat (fms / 256 % 16), UInt8.ofNat (fms % 256)]
  | .len18 => some [UInt8.ofNat (fms / 65536 % 4), UInt8.ofNat (fms / 256 % 256),
      UInt8.ofNat (fms % 256)]
  | _ => none

/-- What `send_status_report` does: it sends nothing, sends a PDU, or writes behind the end of the
buffer. -/
inductive StatusReport where
  | notSent
  | sent (pdu : Bytes)
  | overflow
deriving DecidableEq, Repr

/-- `send_status_report`. The difference is one of signed numbers, of 32 bits. -/
def sendStatusReport (s : PdcpLte) : StatusReport :=
  if !s.cfg.isAmDrb || !s.cfg.statusReportRequired then .notSent
  else
    match statusReportHeader s.cfg.snLen (s.cfg.snLen.sn s.fmc) with
    | none => .notSent
    | some header =>
      if s.rxCountsInfo.isEmpty then .sent header
      else
        let diff := subU32 s.largestRxCount (subU32 s.fmc 1)
        if diff ≥ 2 ^ 31 then .notSent
        else if header.length + bitmapSize diff > bufferTailroom ∨
            s.rxCountsInfo.any (fun c => header.length + subU32 c (s.fmc + 1) / 8 ≥ bufferTailroom)
          then .overflow
        else .sent (header ++ s.rxCountsInfo.foldl (setBit s.fmc)
          (List.replicate (bitmapSize diff) 0))

/-- `bset[pos]`. Behind its eight bits a `bitset<8>` has no defined value: `outOfRange` is what is
read there. -/
def readBit (outOfRange : UInt8 → Bool) (byte : UInt8) (pos : Nat) : Bool :=
  if pos < 8 then byte.toNat.testBit pos else outOfRange byte

/-- The SNs that a byte of the bitmap acknowledges. -/
def ackedSns (outOfRange : UInt8 → Bool) (fms i : Nat) (byte : UInt8) : List Nat :=
  ((List.range 8).filter fun j => readBit outOfRange byte (8 - j)).map fun j => fms + i * 8 + j

/-- FMS of a status report and the size of what is in front of the bitmap. -/
def readFms (snLen : SnLen) (pdu : Bytes) : Option (Nat × Nat) :=
  match snLen with
  | .len12 => some (((pdu.getD 0 0).toNat * 256 + (pdu.getD 1 0).toNat) % 2 ^ 12, 2)
  | .len18 => some (((pdu.getD 0 0).toNat * 65536 + (pdu.getD 1 0).toNat * 256
      + (pdu.getD 2 0).toNat) % 2 ^ 14, 3)
  | _ => none

/-- The SNs that `handle_status_report_pdu` removes, in its order: those below FMS, and those of
the bitmap. -/
def reportedSns (outOfRange : UInt8 → Bool) (fms : Nat) (bitmap : Bytes) : List Nat :=
  List.range fms ++
    ((List.range bitmap.length).flatMap fun i => ackedSns outOfRange fms i (bitmap.getD i 0))

/-- `handle_status_report_pdu` -/
def handleStatusReportPdu (outOfRange : UInt8 → Bool) (s : PdcpLte) (pdu : Bytes) : PdcpLte :=
  if !s.cfg.isAmDrb then s
  else
    match readFms s.cfg.snLen pdu with
    | none => s
    | some (fms, bitmapOffset) =>
      let sns := reportedSns outOfRange fms (pdu.drop bitmapOffset)
      { s with undeliveredSdus := s.undeliveredSdus.clearAll sns }

/-! ### PDUs from the RLC -/

/-- `is_control_pdu` -/
def isControlPdu (pdu : Bytes) : Bool := (pdu.getD 0 0).toNat / 128 == 0

/-- `handle_control_pdu`. Other types are not handled. -/
def handleControlPdu (outOfRange : UInt8 → Bool) (s : PdcpLte) (pdu : Bytes) : PdcpLte :=
  if (pdu.getD 0 0).toNat / 16 % 4 = 0 then s.handleStatusReportPdu outOfRange pdu else s

/-- The start of the security functions that waits for an SN. -/
def enableRxSecurity (s : PdcpLte) (sn : Nat) : PdcpLte :=
  if s.enableSecurityRxSn = some sn then
    { s with
      integrityDirection := s.integrityDirection.enable .rx
      encryptionDirection := s.encryptionDirection.enable .rx
      enableSecurityRxSn := none }
  else s

/-- `write_pdu` -/
def writePdu (outOfRange : UInt8 → Bool) (sec : Security) (s : PdcpLte) (pdu : Bytes) : PdcpLte :=
  if !s.active then s
  else if s.cfg.rbType == .drb && isControlPdu pdu then s.handleControlPdu outOfRange pdu
  else if pdu.length ≤ s.cfg.snLen.hdrLenBytes then s
  else
    let s := s.enableRxSecurity (readDataHeader s.cfg.snLen pdu)
    match s.cfg.rbType with
    | .srb => s.handleSrbPdu sec pdu
    | .drb => if s.cfg.rlcUm then s.handleUmDrbPdu sec pdu else s.handleAmDrbPdu sec pdu

end PdcpLte

end Odss.Pdcp
