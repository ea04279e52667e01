import Odss.Lib.OrdMap
import Odss.Pdcp.Common

/-!
# `Odss.Pdcp.EntityNr`: the NR PDCP entity

The model of `pdcp_entity_nr` (`lib/src/pdcp/pdcp_entity_nr.cc`). SDUs that go to the upper
layer are kept with the COUNT under which they were received. The discard timers, log output
and metrics are left out: no modelled function reads them. The expiry of t-Reordering is a
call of its own.
-/

set_option linter.all false

namespace Odss.Pdcp

open Odss.Lib Odss.Rlc

/-- The state of `pdcp_entity_nr`. `delivered` has the SDUs that `pass_to_upper_layers` got. -/
structure PdcpNr where
  snLen : SnLen
  rbType : RbType
  tReordering : Nat
  txNext : Nat
  rxNext : Nat
  rxDeliv : Nat
  rxReord : Nat
  reorderQueue : OrdMap Nat Bytes
  reorderingTimer : TimerState
  txOverflow : Bool
  rxOverflow : Bool
  delivered : List (Nat × Bytes)
deriving DecidableEq

namespace PdcpNr

/-- The state after `configure`. -/
def init (snLen : SnLen) (rbType : RbType) (tReordering : Nat) : PdcpNr where
  snLen := snLen
  rbType := rbType
  tReordering := tReordering
  txNext := 0
  rxNext := 0
  rxDeliv := 0
  rxReord := 0
  reorderQueue := ∅
  reorderingTimer := .stopped
  txOverflow := false
  rxOverflow := false
  delivered := []

/-! ### Transmission -/

/-- What the RLC gets from `write_sdu`: the PDU with its `md.pdcp_sn`. `count` is the COUNT under
which it was protected. -/
structure TxPdu where
  count : Nat
  pdcpSn : Nat
  pdu : Bytes
deriving DecidableEq, Repr

/-- The PDU for an SDU: header, ciphered SDU and MAC. -/
def protect (sec : Security) (s : PdcpNr) (sdu : Bytes) : Bytes :=
  appendMac (writeDataHeader s.snLen s.rbType s.txNext (sec.cipherEncrypt s.txNext sdu))
    (sec.integrityGenerate s.txNext sdu)

/-- `write_sdu` -/
def writeSdu (sec : Security) (s : PdcpNr) (sdu : Bytes) : PdcpNr × Option TxPdu :=
  if s.txOverflow then (s, none)
  else
    ({ s with
      txOverflow := decide ((s.txNext + 1) % 2 ^ 32 = 0)
      txNext := (s.txNext + 1) % 2 ^ 32 },
      some ⟨s.txNext, s.txNext, s.protect sec sdu⟩)

/-! ### Reception -/

/-- `window_size` -/
def windowSize (s : PdcpNr) : Nat := 2 ^ (s.snLen.bits - 1)

/-- The HFN for a received SN. The first comparison is one of signed numbers. -/
def rcvdHfn (s : PdcpNr) (rcvdSn : Nat) : Nat :=
  let deliv := s.snLen.sn s.rxDeliv
  if (rcvdSn : Int) < (deliv : Int) - (s.windowSize : Int) then (s.snLen.hfn s.rxDeliv + 1) % 2 ^ 32
  else if rcvdSn ≥ deliv + s.windowSize then subU32 (s.snLen.hfn s.rxDeliv) 1
  else s.snLen.hfn s.rxDeliv

/-- `rcvd_count` of a PDU. -/
def rcvdCount (s : PdcpNr) (pdu : Bytes) : Nat :=
  let rcvdSn := readDataHeader s.snLen pdu
  s.snLen.count (s.rcvdHfn rcvdSn) rcvdSn

/-- An SDU goes to the upper layer. -/
def passToUpperLayers (s : PdcpNr) (count : Nat) (sdu : Bytes) : PdcpNr :=
  { s with delivered := s.delivered ++ [(count, sdu)] }

/-- The body of the loop of `deliver_all_consecutive_counts`. -/
def deliverOne (s : PdcpNr) (count : Nat) (sdu : Bytes) : PdcpNr :=
  let s := if (s.rxDeliv + 1) % 2 ^ 32 = 0 then { s with rxOverflow := true } else s
  let s := s.passToUpperLayers count sdu
  { s with
    rxDeliv := (s.rxDeliv + 1) % 2 ^ 32
    reorderQueue := s.reorderQueue.erase count }

/-- The loop of `deliver_all_consecutive_counts` over the entries of the queue. -/
def deliverConsecutive : List (Nat × Bytes) → PdcpNr → PdcpNr
  | [], s => s
  | (count, sdu) :: rest, s =>
    if count = s.rxDeliv then
      if s.rxOverflow then s else deliverConsecutive rest (s.deliverOne count sdu)
    else s

/-- `deliver_all_consecutive_counts` -/
def deliverAllConsecutiveCounts (s : PdcpNr) : PdcpNr := deliverConsecutive s.reorderQueue.entries s

/-- The part of `write_pdu` that stores the PDU and updates `RX_NEXT`. -/
def store (s : PdcpNr) (count : Nat) (sdu : Bytes) : PdcpNr :=
  { s with
    reorderQueue := s.reorderQueue.insert count sdu
    rxNext := if count ≥ s.rxNext then (count + 1) % 2 ^ 32 else s.rxNext }

/-- The check that stops t-Reordering. -/
def stopReordering (s : PdcpNr) : PdcpNr :=
  if s.reorderingTimer.isRunning && decide (s.rxDeliv ≥ s.rxReord) then
    { s with reorderingTimer := s.reorderingTimer.stop }
  else s

/-- The restart of t-Reordering. -/
def runReordering (s : PdcpNr) : PdcpNr := { s with rxReord := s.rxNext, reorderingTimer := .running }

/-- The check that starts t-Reordering. -/
def startReordering (s : PdcpNr) : PdcpNr :=
  if !s.reorderingTimer.isRunning && decide (s.rxDeliv < s.rxNext) then s.runReordering else s

/-- The part of `write_pdu` for a COUNT that was not received before. -/
def receive (s : PdcpNr) (count : Nat) (sdu : Bytes) : PdcpNr :=
  let s := s.store count sdu
  let s := if count = s.rxDeliv then s.deliverAllConsecutiveCounts else s
  s.stopReordering.startReordering

/-- `write_pdu` -/
def writePdu (sec : Security) (s : PdcpNr) (pdu : Bytes) : PdcpNr :=
  if pdu.length ≤ s.snLen.hdrLenBytes then s
  else
    let count := s.rcvdCount pdu
    let (mac, body) := extractMac (discardDataHeader s.snLen pdu)
    let sdu := sec.cipherDecrypt count body
    if !sec.integrityVerify count sdu mac then s
    else if count < s.rxDeliv then s
    else if s.reorderQueue.contains count then s
    else s.receive count sdu

/-- The loop of `reordering_callback` over the entries of the queue. -/
def deliverBelow : List (Nat × Bytes) → PdcpNr → PdcpNr
  | [], s => s
  | (count, sdu) :: rest, s =>
    if count < s.rxReord then
      deliverBelow rest
        { s.passToUpperLayers count sdu with reorderQueue := s.reorderQueue.erase count }
    else s

/-- `reordering_callback` -/
def reorderingCallback (s : PdcpNr) : PdcpNr :=
  let s := (deliverBelow s.reorderQueue.entries s).deliverAllConsecutiveCounts
  if s.rxDeliv < s.rxNext then s.runReordering else s

/-- Whether t-Reordering can expire: it runs, and `configure` has set it. -/
def canExpire (s : PdcpNr) : Bool := s.reorderingTimer.isRunning && decide (s.tReordering > 0)

/-- The expiry of t-Reordering. -/
def expire (s : PdcpNr) : PdcpNr :=
  if s.canExpire then { s with reorderingTimer := .expired }.reorderingCallback else s

/-- A call of the receiver. -/
inductive RxOp where
  | writePdu (pdu : Bytes)
  | expire
deriving DecidableEq, Repr

/-- The state after a call. -/
def rxStep (sec : Security) (s : PdcpNr) : RxOp → PdcpNr
  | .writePdu pdu => s.writePdu sec pdu
  | .expire => s.expire

end PdcpNr

end Odss.Pdcp
