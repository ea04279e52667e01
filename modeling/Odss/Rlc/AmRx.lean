import Odss.Lib.CircularMap
import Odss.Lib.OrdMap
import Odss.Rlc.AmCodec

/-!
# `Odss.Rlc.AmRx`: the RLC AM receiver

The model of `rlc_am_lte_rx` (`lib/src/rlc/rlc_am_lte.cc`): the receive window, the PDU
segments, the reassembly of SDUs and the status report. Buffer allocation never fails, and
the reordering timer is valid. `none` stands for a state that the source does not define: a
read or write outside of an array or buffer, `front` or `back` of an empty list, or a null
`rx_sdu`.
-/

set_option linter.all false

namespace Odss.Rlc

open Odss.Lib

/-- `rlc_amd_rx_pdu`: a PDU or PDU segment. -/
structure AmdRxPdu where
  header : AmdHeader
  buf : Bytes
deriving DecidableEq, Repr

/-- `rlc_amd_rx_pdu_segments_t`, ordered by segment offset. -/
abbrev AmdRxPduSegments := List AmdRxPdu

/-- The state of `rlc_am_lte_rx`. `delivered` has the SDUs that went to PDCP. -/
structure AmRx where
  rxSdu : Option Bytes
  vrR : Nat
  vrMr : Nat
  vrX : Nat
  vrMs : Nat
  vrH : Nat
  rxWindow : CircularMap amWindowSize AmdRxPdu
  rxSegments : OrdMap Nat AmdRxPduSegments
  pollReceived : Bool
  doStatus : Bool
  reorderingTimer : TimerState
  delivered : List Bytes

namespace AmRx

/-- The state after the constructor. -/
def init : AmRx where
  rxSdu := none
  vrR := 0
  vrMr := amWindowSize
  vrX := 0
  vrMs := 0
  vrH := 0
  rxWindow := ∅
  rxSegments := ∅
  pollReceived := false
  doStatus := false
  reorderingTimer := .stopped
  delivered := []

/-- `RX_MOD_BASE` -/
def rxModBase (s : AmRx) (x : Nat) : Nat := (x + amMod - s.vrR) % amMod

/-- `inside_rx_window` -/
def insideRxWindow (s : AmRx) (sn : Nat) : Bool :=
  decide (s.rxModBase sn ≥ s.rxModBase s.vrR) && decide (s.rxModBase sn < s.rxModBase s.vrMr)

/-! ### Reassembly of SDUs -/

/-- The buffers of one round of `reassemble_rx_sdus`: `rx_sdu`, the rest of the PDU, the
number of bytes that were read from it, and the SDUs that were delivered. -/
structure SduAssembly where
  rxSdu : Bytes
  buf : Bytes
  nRead : Nat
  delivered : List Bytes
deriving DecidableEq, Repr

/-- The checks of `reassemble_rx_sdus` on an SDU end of length `len` in the PDU. -/
def SduAssembly.fits (a : SduAssembly) (len : Nat) : Bool :=
  decide (len ≤ bufferTailroom - a.rxSdu.length) && decide (a.nRead + len < bufferTailroom) &&
    decide (len ≤ a.buf.length)

/-- An SDU ends after `len` bytes of the PDU. -/
def SduAssembly.moveLi (a : SduAssembly) (len : Nat) : SduAssembly where
  rxSdu := []
  buf := a.buf.drop len
  nRead := a.nRead + len
  delivered := a.delivered ++ [a.rxSdu ++ a.buf.take len]

/-- The loop of `reassemble_rx_sdus` over the length indicators. The flag is `false` when
`rx_sdu` is dropped. -/
def moveLis : List Nat → SduAssembly → SduAssembly × Bool
  | [], a => (a, true)
  | len :: lis, a =>
    if len = 0 then (a, true)
    else if a.fits len then moveLis lis (a.moveLi len)
    else (a, false)

/-- The part of a round of `reassemble_rx_sdus` before the label `exit`: the new `rx_sdu`, and
the SDUs that the PDU completes. -/
def assemblePdu (rxSdu : Bytes) (pdu : AmdRxPdu) : Option Bytes × List Bytes :=
  match moveLis pdu.header.li ⟨rxSdu, pdu.buf, 0, []⟩ with
  | (a, false) => (none, a.delivered)
  | (a, true) =>
    if a.buf.length ≤ bufferTailroom - a.rxSdu.length then
      if pdu.header.fi.endAligned then (some [], a.delivered ++ [a.rxSdu ++ a.buf])
      else (some (a.rxSdu ++ a.buf), a.delivered)
    else (none, a.delivered)

/-- The segments of an SN are cleared, and the entry of the map stays. -/
def clearSegments (segments : OrdMap Nat AmdRxPduSegments) (sn : Nat) :
    OrdMap Nat AmdRxPduSegments :=
  match segments.find? sn with
  | none => segments
  | some _ => segments.insert sn []

/-- One round of `reassemble_rx_sdus` for the PDU at `vr_r`. -/
def reassembleRound (s : AmRx) (rxSdu : Bytes) (pdu : AmdRxPdu) : AmRx :=
  { s with
    rxSdu := (assemblePdu rxSdu pdu).1
    delivered := s.delivered ++ (assemblePdu rxSdu pdu).2
    rxSegments := clearSegments s.rxSegments s.vrR
    rxWindow := s.rxWindow.erase s.vrR
    vrR := (s.vrR + 1) % amMod
    vrMr := (s.vrMr + 1) % amMod }

/-- The loop of `reassemble_rx_sdus`. `fuel` bounds the number of PDUs in sequence. -/
def reassembleLoop : Nat → AmRx → Option AmRx
  | 0, s => some s
  | fuel + 1, s =>
    match s.rxWindow.find? s.vrR with
    | none => some s
    | some pdu =>
      match s.rxSdu with
      | none => none
      | some rxSdu => reassembleLoop fuel (s.reassembleRound rxSdu pdu)

/-- `reassemble_rx_sdus` -/
def reassembleRxSdus (s : AmRx) : Option AmRx :=
  reassembleLoop amMod { s with rxSdu := some (s.rxSdu.getD []) }

/-! ### Data PDUs -/

/-- The status request of a PDU that is not stored. -/
def requestStatus (s : AmRx) (p : Bool) : AmRx := { s with doStatus := s.doStatus || p }

/-- The update of `vr_h`. -/
def updateVrH (s : AmRx) (sn : Nat) : AmRx :=
  { s with vrH := if s.rxModBase sn ≥ s.rxModBase s.vrH then (sn + 1) % amMod else s.vrH }

/-- The loop `while (rx_window.has_sn(sn))`: the first SN from `sn` on that is not in the
window. `fuel` bounds the number of SNs. -/
def firstMissing (window : CircularMap amWindowSize AmdRxPdu) : Nat → Nat → Nat
  | 0, sn => sn
  | fuel + 1, sn =>
    if window.contains sn then firstMissing window fuel ((sn + 1) % amMod) else sn

/-- The update of `vr_ms`. -/
def updateVrMs (s : AmRx) : AmRx := { s with vrMs := firstMissing s.rxWindow amMod s.vrMs }

/-- The check of the poll bit of a PDU that is stored. -/
def checkPoll (s : AmRx) (sn : Nat) (p : Bool) : AmRx :=
  { s with
    pollReceived := s.pollReceived || p
    doStatus := s.doStatus || (p && (decide (s.rxModBase sn < s.rxModBase s.vrMs) ||
      decide (s.rxModBase sn ≥ s.rxModBase s.vrMr))) }

/-- The reordering timer stops when `vr_x` has left the window. -/
def stopReordering (s : AmRx) : AmRx :=
  { s with
    reorderingTimer :=
      if s.reorderingTimer.isRunning ∧
          (s.vrX = s.vrR ∨ (s.insideRxWindow s.vrX = false ∧ s.vrX ≠ s.vrMr)) then .stopped
      else s.reorderingTimer }

/-- The reordering timer starts when PDUs are missing below `vr_h`. -/
def startReordering (s : AmRx) : AmRx :=
  if !s.reorderingTimer.isRunning && decide (s.rxModBase s.vrH > s.rxModBase s.vrR) then
    { s with reorderingTimer := .running, vrX := s.vrH }
  else s

/-- The checks of `handle_data_pdu` before a PDU is stored: the length indicators fit the
payload, and the SN is new and inside the window. -/
def acceptsPdu (s : AmRx) (header : AmdHeader) (payload : Bytes) : Bool :=
  decide (header.li.sum ≤ payload.length) && s.insideRxWindow header.sn &&
    !s.rxWindow.contains header.sn

/-- The part of `handle_data_pdu` for a PDU that is stored. -/
def storePdu (s : AmRx) (header : AmdHeader) (payload : Bytes) : AmRx :=
  let s := { s with rxWindow := s.rxWindow.overwrite header.sn ⟨header, payload⟩ }
  ((s.updateVrH header.sn).updateVrMs).checkPoll header.sn header.p

/-- The header of a PDU that `add_pdu` has created and no payload was copied into. -/
def emptyHeader : AmdHeader := ⟨false, false, .startAndEndAligned, 0, false, 0, []⟩

/-- `handle_data_pdu`. A payload over the tailroom leaves the PDU in the window empty. -/
def handleDataPdu (s : AmRx) (header : AmdHeader) (payload : Bytes) : Option AmRx :=
  if s.acceptsPdu header payload then
    if payload.length > bufferTailroom then
      some { s with rxWindow := s.rxWindow.overwrite header.sn ⟨emptyHeader, []⟩ }
    else
      ((s.storePdu header payload).reassembleRxSdus).map fun s => s.stopReordering.startReordering
  else if header.li.sum ≤ payload.length then some (s.requestStatus header.p)
  else some s

/-- The branch in which `handle_data_pdu` returns. -/
inductive DataOutcome where
  | corrupted
  | outsideWindow
  | duplicate
  | noBuffer
  | noRoom
  | stored
deriving DecidableEq, Repr

/-- `handle_data_pdu` with the outcome of `make_byte_buffer` and the branch of the return. The slot
of the window is taken before the last two checks. -/
def handleDataPduAlloc (s : AmRx) (header : AmdHeader) (payload : Bytes) (alloc : Bool) :
    Option (AmRx × DataOutcome) :=
  if header.li.sum > payload.length then some (s, .corrupted)
  else if !s.insideRxWindow header.sn then some (s.requestStatus header.p, .outsideWindow)
  else if s.rxWindow.contains header.sn then some (s.requestStatus header.p, .duplicate)
  else
    let t := { s with rxWindow := s.rxWindow.overwrite header.sn ⟨emptyHeader, []⟩ }
    if !alloc then some ({ t with rxWindow := t.rxWindow.erase header.sn }, .noBuffer)
    else if payload.length > bufferTailroom then some (t, .noRoom)
    else
      ((s.storePdu header payload).reassembleRxSdus).map fun s =>
        (s.stopReordering.startReordering, .stored)

/-! ### PDU segments -/

/-- The insertion of a segment into the list. Of two segments with the same offset, the longer
one stays. -/
def insertSegment (segment : AmdRxPdu) : AmdRxPduSegments → AmdRxPduSegments
  | [] => [segment]
  | s :: segments =>
    if s.header.so < segment.header.so then s :: insertSegment segment segments
    else if s.header.so = segment.header.so then
      if segment.buf.length > s.buf.length then segment :: segments else s :: segments
    else segment :: s :: segments

/-- The loop of `add_segment_and_check` that looks for a gap and erases the segments inside
the earlier ones. `so` is the end of these. The flag is `false` when there is a gap. -/
def checkSegments : Nat → AmdRxPduSegments → AmdRxPduSegments × Bool
  | _, [] => ([], true)
  | so, s :: segments =>
    if so < s.header.so then (s :: segments, false)
    else if s.header.so + s.buf.length ≤ so then checkSegments so segments
    else
      let r := checkSegments (max so (s.header.so + s.buf.length)) segments
      (s :: r.1, r.2)

/-- The local variables of the header reconstruction. `li` is the array `header.li`, and the
other numbers but `nLi` have 16 bits. -/
structure HeaderRebuild where
  li : Nat → Nat
  nLi : Nat
  count : Nat
  carryover : Nat
  consumedBytes : Nat

/-- The assignment `header.li[header.N_li] = value`, `header.N_li++`. -/
def HeaderRebuild.pushLi (w : HeaderRebuild) (value : Nat) : HeaderRebuild :=
  { w with li := Function.update w.li w.nLi (value % 2 ^ 16), nLi := w.nLi + 1 }

/-- One round of the loop over the length indicators of a segment: `i` is the index of the
indicator `li`, and `totalPduOffset` the offset of the SDU end in the PDU. -/
def HeaderRebuild.addLi (w : HeaderRebuild) (i li totalPduOffset : Nat) : HeaderRebuild :=
  if totalPduOffset > w.li i ∧ totalPduOffset > w.consumedBytes then
    { w.pushLi (totalPduOffset - w.consumedBytes) with
      consumedBytes := totalPduOffset % 2 ^ 16
      count := (w.count + li) % 2 ^ 16
      carryover := 0 }
  else w

/-- The loop over the length indicators of a segment. -/
def HeaderRebuild.addLis : List Nat → Nat → Nat → HeaderRebuild → HeaderRebuild
  | [], _, _, w => w
  | li :: lis, i, offset, w => addLis lis (i + 1) (offset + li) (w.addLi i li (offset + li))

/-- The length indicators stay inside the array. -/
def HeaderRebuild.checkSize (w : HeaderRebuild) : Option HeaderRebuild :=
  if w.nLi ≤ amWindowSize then some w else none

/-- The sum of the first `n` entries of `header.li`. -/
def HeaderRebuild.sumLi (w : HeaderRebuild) (n : Nat) : Nat := ((List.range n).map w.li).sum

/-- The difference of two 16 bit numbers, whatever the size of the second one. -/
def subU16 (a b : Nat) : Nat := (a + (2 ^ 16 - b % 2 ^ 16)) % 2 ^ 16

/-- The carry over of a segment: the bytes of the PDU behind the last SDU end. `none` when
`N_li` is decremented from zero. -/
def HeaderRebuild.updateCarryover (w : HeaderRebuild) (s : AmdRxPdu) : Option HeaderRebuild :=
  if w.count ≤ s.buf.length then
    some { w with carryover := subU16 (s.header.so + s.buf.length) (w.sumLi w.nLi) }
  else if w.nLi = 0 then none
  else some { w with
    nLi := w.nLi - 1
    carryover := subU16 (s.buf.length + w.li (w.nLi - 1)) w.count }

/-- The part of a round for the end of a segment: an SDU that ends with a segment but the last
one has a length indicator. -/
def HeaderRebuild.endSegment (w : HeaderRebuild) (s : AmdRxPdu) (last : Bool) : HeaderRebuild :=
  if s.header.fi.endAligned && !last then
    { w.pushLi w.carryover with
      consumedBytes := (w.consumedBytes + w.carryover) % 2 ^ 16
      carryover := 0
      count := 0 }
  else { w with count := 0 }

/-- One round of the header reconstruction. -/
def HeaderRebuild.addSegment (w : HeaderRebuild) (s : AmdRxPdu) (last : Bool) :
    Option HeaderRebuild :=
  ((w.addLis s.header.li 0 s.header.so).checkSize.bind fun w => w.updateCarryover s).bind
    fun w => (w.endSegment s last).checkSize

/-- The loop of the header reconstruction. -/
def rebuildLoop : AmdRxPduSegments → HeaderRebuild → Option HeaderRebuild
  | [], w => some w
  | s :: segments, w => (w.addSegment s segments.isEmpty).bind (rebuildLoop segments)

/-- The header of the PDU that the segments `first`, ..., `last` make up. -/
def rebuildHeader (segments : AmdRxPduSegments) (first last : AmdRxPdu) : Option AmdHeader :=
  (rebuildLoop segments ⟨fun _ => 0, 0, 0, 0, 0⟩).map fun w =>
    { rf := false
      p := segments.any fun s => s.header.p
      fi := ⟨first.header.fi.notStartAligned, last.header.fi.notEndAligned⟩
      sn := first.header.sn
      lsf := false
      so := 0
      li := (List.range w.nLi).map w.li }

/-- The copy of a segment behind the bytes that were copied before. -/
def copySegment (fullPdu : Bytes) (s : AmdRxPdu) : Bytes :=
  if s.header.so + s.buf.length > fullPdu.length then
    fullPdu ++ s.buf.drop (fullPdu.length - s.header.so)
  else fullPdu

/-- The PDU that the segments make up, with its new header. `none` when the copy is larger
than the buffer. -/
def rebuildPdu (segments : AmdRxPduSegments) : Option (AmdHeader × Bytes) :=
  match segments.head?, segments.getLast? with
  | some first, some last =>
    match rebuildHeader segments first last with
    | none => none
    | some header =>
      let fullPdu := segments.foldl copySegment []
      if fullPdu.length ≤ bufferTailroom then some (header, fullPdu) else none
  | _, _ => none

/-- What `add_segment_and_check` finds: segments are missing, or the PDU is complete. -/
inductive SegmentCheck where
  | incomplete (segments : AmdRxPduSegments)
  | complete (header : AmdHeader) (payload : Bytes)

/-- `add_segment_and_check` without the call of `handle_data_pdu`. -/
def addSegmentAndCheck (segments : AmdRxPduSegments) (segment : AmdRxPdu) : Option SegmentCheck :=
  match checkSegments 0 (insertSegment segment segments) with
  | (segments, false) => some (.incomplete segments)
  | (segments, true) =>
    match segments.getLast? with
    | none => none
    | some last =>
      if !last.header.lsf then some (.incomplete segments)
      else (rebuildPdu segments).map fun r => .complete r.1 r.2

/-- The part of `handle_data_pdu_segment` for the first segment of a PDU. -/
def newSegment (s : AmRx) (segment : AmdRxPdu) : AmRx :=
  let s := { s with rxSegments := s.rxSegments.insert segment.header.sn [segment] }
  (s.updateVrH segment.header.sn).checkPoll segment.header.sn segment.header.p

/-- The part of `handle_data_pdu_segment` for a further segment of a PDU. -/
def nextSegment (s : AmRx) (segments : AmdRxPduSegments) (segment : AmdRxPdu) : Option AmRx :=
  let s := s.requestStatus segment.header.p
  match addSegmentAndCheck segments segment with
  | none => none
  | some (.incomplete segments) =>
    some { s with rxSegments := s.rxSegments.insert segment.header.sn segments }
  | some (.complete header payload) =>
    (s.handleDataPdu header payload).map fun s =>
      { s with rxSegments := s.rxSegments.erase segment.header.sn }

/-- `handle_data_pdu_segment` -/
def handleDataPduSegment (s : AmRx) (header : AmdHeader) (payload : Bytes) : Option AmRx :=
  if !s.insideRxWindow header.sn then some (s.requestStatus header.p)
  else if payload.length > bufferTailroom then some s
  else
    match s.rxSegments.find? header.sn with
    | none => some (s.newSegment ⟨header, payload⟩)
    | some segments => s.nextSegment segments ⟨header, payload⟩

/-- `write_pdu` of a data PDU. The reader of the header has no bound on the number of length
indicators. -/
def writePdu (s : AmRx) (bytes : Bytes) : Option AmRx :=
  match readDataPduHeader bytes with
  | none => some s
  | some (header, payload) =>
    if header.li.length > amWindowSize then none
    else if header.rf then s.handleDataPduSegment header payload else s.handleDataPdu header payload

/-! ### Timer and status report -/

/-- `timer_expired` of the reordering timer, when it runs. -/
def timerExpired (s : AmRx) : AmRx :=
  if !s.reorderingTimer.isRunning then s
  else
    let s := { s with
      reorderingTimer := .expired
      vrMs := firstMissing s.rxWindow amMod s.vrX
      doStatus := s.doStatus || s.pollReceived }
    if s.rxModBase s.vrH > s.rxModBase s.vrMs then
      { s with reorderingTimer := .running, vrX := s.vrH }
    else s

/-- `rlc_am_is_valid_status_pdu` -/
def isValidStatusPdu (status : StatusPdu) (rxWinMin : Nat) : Bool :=
  decide ((amMod + status.ackSn - rxWinMin) % amMod ≤ amWindowSize) &&
    status.nacks.all fun nack =>
      decide ((amMod + status.ackSn - nack.nackSn) % amMod ≤ amWindowSize) &&
        !(nack.nackSn == status.ackSn)

/-- One round of the loop of `get_status_pdu` without the check of the grant: the SN `i` is
acknowledged or put into the list of NACKs. -/
def addSn (s : AmRx) (status : StatusPdu) (i : Nat) : StatusPdu :=
  if s.rxWindow.contains i || i == s.vrMs then { status with ackSn := i }
  else { status with nacks := status.nacks ++ [⟨i, false, 0, 0⟩] }

/-- The part of `get_status_pdu` for a report that exceeds the grant: the last NACK is taken
out. `none` stands for a return value of zero. -/
def truncateStatus (s : AmRx) (status : StatusPdu) : Option StatusPdu :=
  if 1 ≤ status.nacks.length ∧ status.nacks.length < amWindowSize then
    let status := { status with nacks := status.nacks.dropLast }
    if isValidStatusPdu status s.vrR then some status else some ⟨s.vrR, []⟩
  else none

/-- The loop of `get_status_pdu` from the SN `i` on. `fuel` bounds the number of SNs. -/
def statusLoop (s : AmRx) (maxPduSize : Nat) : Nat → Nat → StatusPdu → Option StatusPdu
  | 0, _, status => some status
  | fuel + 1, i, status =>
    if s.rxModBase i ≤ s.rxModBase s.vrMs ∧ status.nacks.length < amWindowSize then
      if (s.addSn status i).packedLength > maxPduSize then s.truncateStatus (s.addSn status i)
      else statusLoop s maxPduSize fuel ((i + 1) % amMod) (s.addSn status i)
    else some status

/-- The report of `get_status_pdu`. `none` stands for a return value of zero, and the value is
the packed length otherwise. -/
def getStatusPdu (s : AmRx) (maxPduSize : Nat) : Option StatusPdu :=
  statusLoop s maxPduSize amMod s.vrR ⟨s.vrR, []⟩

/-- `reset_status` -/
def resetStatus (s : AmRx) : AmRx := { s with doStatus := false, pollReceived := false }

/-- `get_status_pdu`: the state after the call. -/
def afterStatusPdu (s : AmRx) (maxPduSize : Nat) : AmRx :=
  if (s.getStatusPdu maxPduSize).isSome then s.resetStatus else s

/-- The loop of `get_status_pdu_length` from the SN `i` on, with `n` NACKs so far. `fuel` bounds the
number of SNs. -/
def nackCount (s : AmRx) : Nat → Nat → Nat → Nat
  | 0, _, n => n
  | fuel + 1, i, n =>
    if s.rxModBase i < s.rxModBase s.vrMs ∧ n < amWindowSize then
      nackCount s fuel ((i + 1) % amMod) (if s.rxWindow.contains i then n else n + 1)
    else n

/-- `get_status_pdu_length`. The NACKs of the report that is measured have no content. -/
def getStatusPduLength (s : AmRx) : Nat :=
  (StatusPdu.mk s.vrMs (List.replicate (s.nackCount amMod s.vrR 0) ⟨0, false, 0, 0⟩)).packedLength

/-- `stop`, which `reestablish` calls. -/
def stop (s : AmRx) : AmRx :=
  { init with reorderingTimer := s.reorderingTimer.stop, delivered := s.delivered }

/-- A call of the receiver. -/
inductive Op where
  | writePdu (bytes : Bytes)
  | timerExpired
  | getStatusPdu (maxPduSize : Nat)
  | stop

/-- One call, with the report that `get_status_pdu` returns. -/
def step (s : AmRx) : Op → Option (AmRx × Option StatusPdu)
  | .writePdu bytes => (s.writePdu bytes).map fun s => (s, none)
  | .timerExpired => some (s.timerExpired, none)
  | .getStatusPdu maxPduSize => some (s.afterStatusPdu maxPduSize, s.getStatusPdu maxPduSize)
  | .stop => some (s.stop, none)

end AmRx

end Odss.Rlc
