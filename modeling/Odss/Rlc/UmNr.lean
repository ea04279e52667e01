import Odss.Lib.OrdMap
import Odss.Rlc.Common

/-!
# `Odss.Rlc.UmNr`: the NR RLC UM entity

The model of `rlc_um_nr_tx` and `rlc_um_nr_rx` (`lib/src/rlc/rlc_um_nr.cc`) and of the header
functions. The reassembly timer is valid. `none` stands for a state that the source does not
define: a read behind the end of the PDU, a buffer overflow, the null `rx_sdu` (the NR
receiver never allocates it), or a loop that does not end.
-/

set_option linter.all false

namespace Odss.Rlc

open Odss.Lib

/-! ### Headers -/

/-- `rlc_nr_si_field_t` -/
inductive SiField where
  | fullSdu
  | firstSegment
  | lastSegment
  | neitherFirstNorLastSegment
deriving DecidableEq, Repr

/-- The two bits of the field. -/
def SiField.toBits : SiField → Nat
  | .fullSdu => 0
  | .firstSegment => 1
  | .lastSegment => 2
  | .neitherFirstNorLastSegment => 3

/-- The field of two bits. -/
def SiField.ofBits (n : Nat) : SiField :=
  if n % 4 = 0 then .fullSdu
  else if n % 4 = 1 then .firstSegment
  else if n % 4 = 2 then .lastSegment
  else .neitherFirstNorLastSegment

/-- `rlc_um_nr_sn_size_t` -/
inductive UmNrSnSize where
  | size6bits
  | size12bits
deriving DecidableEq, Repr

/-- `mod` -/
def UmNrSnSize.mod : UmNrSnSize → Nat
  | .size6bits => 64
  | .size12bits => 4096

/-- `UM_Window_Size` -/
def UmNrSnSize.windowSize : UmNrSnSize → Nat
  | .size6bits => 32
  | .size12bits => 2048

/-- `rlc_um_nr_pdu_header_t` -/
structure UmNrHeader where
  si : SiField
  snSize : UmNrSnSize
  sn : Nat
  so : Nat
deriving DecidableEq, Repr

/-- `rlc_um_nr_packed_length` -/
def UmNrHeader.packedLength (header : UmNrHeader) : Nat :=
  if header.si = .fullSdu then 1
  else (if header.snSize = .size6bits then 1 else 2) + (if header.so ≠ 0 then 2 else 0)

/-- `rlc_um_nr_write_data_pdu_header`: the bytes in front of the data. -/
def UmNrHeader.write (header : UmNrHeader) : Bytes :=
  if header.si = .fullSdu then [0]
  else
    (match header.snSize with
    | .size6bits => [UInt8.ofNat (header.si.toBits * 64 + header.sn % 64)]
    | .size12bits =>
      [UInt8.ofNat (header.si.toBits * 64 + header.sn / 256 % 16), UInt8.ofNat (header.sn % 256)]) ++
    (if header.so ≠ 0 then [UInt8.ofNat (header.so / 256), UInt8.ofNat (header.so % 256)] else [])

/-- The optional part of `rlc_um_nr_read_data_pdu_header`: the segment offset. `consumed` is
the length of the fixed part. -/
def readSo (header : UmNrHeader) (consumed : Nat) (bytes : Bytes) : Option (UmNrHeader × Nat) :=
  if header.si = .lastSegment ∨ header.si = .neitherFirstNorLastSegment then
    match bytes with
    | b₀ :: b₁ :: _ => some ({ header with so := b₀.toNat * 256 + b₁.toNat }, consumed + 2)
    | _ => none
  else some (header, consumed)

/-- `rlc_um_nr_read_data_pdu_header`: the header and the number of consumed bytes, which is
zero for a malformed PDU. -/
def readUmNrHeader (snSize : UmNrSnSize) (bytes : Bytes) : Option (UmNrHeader × Nat) :=
  match bytes with
  | [] => none
  | b₀ :: rest =>
    let si := SiField.ofBits (b₀.toNat / 64)
    match snSize with
    | .size6bits =>
      let header : UmNrHeader := ⟨si, snSize, b₀.toNat % 64, 0⟩
      if si = .fullSdu ∧ header.sn ≠ 0 then some (header, 0) else readSo header 1 rest
    | .size12bits =>
      let header : UmNrHeader := ⟨si, snSize, b₀.toNat % 16 * 256, 0⟩
      -- Reserved bits have to be zero in a full SDU and in a first segment.
      if si = .fullSdu ∧ header.sn ≠ 0 then some (header, 0)
      else if si = .firstSegment ∧ b₀.toNat / 16 % 4 ≠ 0 then some (header, 0)
      else if si = .fullSdu then some (header, 1)
      else
        match rest with
        | [] => none
        | b₁ :: rest => readSo { header with sn := header.sn + b₁.toNat } 2 rest

/-! ### Transmitter -/

/-- The state of `rlc_um_nr_tx`. `txSdu` has the bytes of the SDU that are left. -/
structure UmNrTx where
  snSize : UmNrSnSize
  txNext : Nat
  nextSo : Nat
  txSdu : Option Bytes
  txSduQueue : ByteBufferQueue
deriving DecidableEq, Repr

namespace UmNrTx

/-- The state after `configure`. -/
def init (snSize : UmNrSnSize) (txQueueLength : Nat) : UmNrTx :=
  ⟨snSize, 0, 0, none, .init txQueueLength⟩

/-- `head_len_full` -/
abbrev headLenFull : Nat := 1

/-- `head_len_first` -/
def headLenFirst (s : UmNrTx) : Nat := (UmNrHeader.mk .firstSegment s.snSize 0 0).packedLength

/-- `head_len_segment` -/
def headLenSegment (s : UmNrTx) : Nat := (UmNrHeader.mk .firstSegment s.snSize 0 1).packedLength

/-- `try_write_sdu`. A full queue drops the SDU. -/
def writeSdu (s : UmNrTx) (sdu : Bytes) : UmNrTx :=
  { s with txSduQueue := (s.txSduQueue.tryWrite ⟨0, sdu⟩).getD s.txSduQueue }

/-- `pdu_space` -/
def pduSpace (nofBytes : Nat) : Nat := min nofBytes bufferTailroom

/-- The segmentation information for an SDU that was just read from the queue. -/
def newSi (sdu : Bytes) (pduSpace : Nat) : SiField :=
  if sdu.length ≤ subU32 pduSpace headLenFull then .fullSdu else .firstSegment

/-- The segmentation information for an SDU that an earlier call has started. -/
def nextSi (s : UmNrTx) (sdu : Bytes) (pduSpace : Nat) : SiField :=
  if sdu.length ≤ subU32 pduSpace s.headLenSegment then .lastSegment
  else .neitherFirstNorLastSegment

/-- The header that `build_data_pdu` sends. -/
def pduHeader (s : UmNrTx) (si : SiField) : UmNrHeader := ⟨si, s.snSize, s.txNext, s.nextSo % 2 ^ 16⟩

/-- The check of the space for the header and two bytes of data. -/
def hasSpace (header : UmNrHeader) (pduSpace : Nat) : Bool :=
  decide (pduSpace > header.packedLength + 1)

/-- What is left of an SDU after `n` bytes were sent. -/
def restOf (sdu : Bytes) (n : Nat) : Option Bytes :=
  if (sdu.drop n).isEmpty then none else some (sdu.drop n)

/-- The part of `build_data_pdu` behind the check of the space. -/
def sendPdu (s : UmNrTx) (sdu : Bytes) (si : SiField) (pduSpace : Nat) : UmNrTx × Bytes :=
  let header := s.pduHeader si
  let toMove := min (pduSpace - header.packedLength) sdu.length
  ({ s with
    txSdu := restOf sdu toMove
    txNext := if si = .lastSegment then (s.txNext + 1) % s.snSize.mod else s.txNext
    nextSo := if si = .lastSegment then 0 else s.nextSo + toMove },
    header.write ++ sdu.take toMove)

/-- The part of `build_data_pdu` for the SDU `sdu` and its segmentation information. The SDU
stays in transmission when there is no space, also one that was just read. -/
def buildSduPdu (s : UmNrTx) (sdu : Bytes) (si : SiField) (pduSpace : Nat) : UmNrTx × Bytes :=
  if hasSpace (s.pduHeader si) pduSpace then s.sendPdu sdu si pduSpace
  else ({ s with txSdu := some sdu }, [])

/-- `build_data_pdu`. No bytes stand for a return value of zero. A null SDU in the queue, which
`discard_sdu` of this entity does not make, stands for no SDU. -/
def buildDataPdu (s : UmNrTx) (nofBytes : Nat) : UmNrTx × Bytes :=
  if nofBytes < 2 then (s, [])
  else
    match s.txSdu with
    | some sdu => s.buildSduPdu sdu (s.nextSi sdu (pduSpace nofBytes)) (pduSpace nofBytes)
    | none =>
      match s.txSduQueue.read with
      | (none, _) => (s, [])
      | (some sdu, q) =>
        let s := { s with txSduQueue := q, nextSo := 0 }
        s.buildSduPdu sdu.bytes (newSi sdu.bytes (pduSpace nofBytes)) (pduSpace nofBytes)

/-- A call of the transmitter. -/
inductive Op where
  | writeSdu (sdu : Bytes)
  | buildDataPdu (nofBytes : Nat)
deriving DecidableEq, Repr

/-- One call, with the PDU that it returns. -/
def step (s : UmNrTx) : Op → UmNrTx × Bytes
  | .writeSdu sdu => (s.writeSdu sdu, [])
  | .buildDataPdu nofBytes => s.buildDataPdu nofBytes

end UmNrTx

/-! ### Receiver -/

/-- `rlc_umd_pdu_nr_t`: a PDU with its header and the bytes behind the header. -/
structure UmNrPdu where
  header : UmNrHeader
  buf : Bytes
deriving DecidableEq, Repr

/-- The buffer of an SDU, which is the buffer of its first segment. `headLen` bytes of the
header are in front of it. -/
structure UmNrSdu where
  headLen : Nat
  bytes : Bytes
deriving DecidableEq, Repr

/-- `get_tailroom` -/
def UmNrSdu.tailroom (sdu : UmNrSdu) : Nat := bufferTailroom - (sdu.headLen + sdu.bytes.length)

/-- `rlc_umd_pdu_segments_nr_t`. The segments have their offset as key. -/
structure UmNrSegments where
  segments : OrdMap Nat UmNrPdu
  sdu : Option UmNrSdu
  nextExpectedSo : Nat
  totalSduLength : Nat

namespace UmNrSegments

/-- `rlc_umd_pdu_segments_nr_t` without a segment. -/
def empty : UmNrSegments := ⟨∅, none, 0, 0⟩

/-- `update_total_sdu_length` and `emplace`, which keeps a segment that has the same offset. -/
def place (pdu : UmNrSegments) (rxPdu : UmNrPdu) : UmNrSegments :=
  { pdu with
    totalSduLength :=
      if rxPdu.header.si = .lastSegment then rxPdu.header.so + rxPdu.buf.length
      else pdu.totalSduLength
    segments :=
      if pdu.segments.contains rxPdu.header.so then pdu.segments
      else pdu.segments.insert rxPdu.header.so rxPdu }

/-- The segment becomes the start of the SDU. -/
def start (pdu : UmNrSegments) (rxPdu : UmNrPdu) : UmNrSegments :=
  { pdu with
    sdu := some ⟨rxPdu.header.packedLength, rxPdu.buf⟩
    nextExpectedSo := rxPdu.buf.length
    segments := pdu.segments.erase rxPdu.header.so }

/-- The segment is appended to the SDU. -/
def append (pdu : UmNrSegments) (sdu : UmNrSdu) (rxPdu : UmNrPdu) : UmNrSegments :=
  { pdu with
    sdu := some { sdu with bytes := sdu.bytes ++ rxPdu.buf }
    nextExpectedSo := pdu.nextExpectedSo + rxPdu.buf.length
    segments := pdu.segments.erase rxPdu.header.so }

/-- What the loop of `handle_rx_buffer_update` over the segments finds. -/
inductive Assembly where
  | incomplete (pdu : UmNrSegments)
  | complete (sdu : Bytes)

/-- The loop of `handle_rx_buffer_update` over the segments, in the order of their offsets. -/
def assemble : List UmNrPdu → UmNrSegments → Option Assembly
  | [], pdu => some (.incomplete pdu)
  | rxPdu :: rest, pdu =>
    if rxPdu.header.so = pdu.nextExpectedSo then
      match pdu.sdu with
      | none =>
        if pdu.nextExpectedSo = 0 then assemble rest (pdu.start rxPdu)
        else none
      | some sdu =>
        -- With a second segment at offset zero the iterator does not move on.
        if pdu.nextExpectedSo = 0 then none
        -- The error message reads the null `rx_sdu`.
        else if rxPdu.buf.length > sdu.tailroom then none
        else if pdu.nextExpectedSo + rxPdu.buf.length = pdu.totalSduLength then
          some (.complete (sdu.bytes ++ rxPdu.buf))
        else assemble rest (pdu.append sdu rxPdu)
    else assemble rest pdu

/-- What one round of this loop does: it goes on with `rest`, it delivers the SDU, or the error
message reads the null `rx_sdu`. -/
inductive AssemblyRound where
  | next (rest : List UmNrPdu) (pdu : UmNrSegments)
  | complete (sdu : Bytes)
  | fault

/-- One round, with the iterator at `rxPdu` in front of `rest`. -/
def assembleRound (rxPdu : UmNrPdu) (rest : List UmNrPdu) (pdu : UmNrSegments) : AssemblyRound :=
  if rxPdu.header.so = pdu.nextExpectedSo then
    match pdu.sdu with
    | none => if pdu.nextExpectedSo = 0 then .next rest (pdu.start rxPdu) else .fault
    | some sdu =>
      -- The iterator stays where it is.
      if pdu.nextExpectedSo = 0 then .next (rxPdu :: rest) pdu
      else if rxPdu.buf.length > sdu.tailroom then .fault
      else if pdu.nextExpectedSo + rxPdu.buf.length = pdu.totalSduLength then
        .complete (sdu.bytes ++ rxPdu.buf)
      else .next rest (pdu.append sdu rxPdu)
  else .next rest pdu

/-- At most `fuel` rounds. The result is `none` when the loop has not ended by then, and
`some none` for a fault. -/
def assembleRounds : Nat → List UmNrPdu → UmNrSegments → Option (Option Assembly)
  | _, [], pdu => some (some (.incomplete pdu))
  | 0, _ :: _, _ => none
  | fuel + 1, rxPdu :: rest, pdu =>
    match assembleRound rxPdu rest pdu with
    | .next rest pdu => assembleRounds fuel rest pdu
    | .complete sdu => some (some (.complete sdu))
    | .fault => some none

end UmNrSegments

/-- The state of `rlc_um_nr_rx`. `delivered` has the SDUs that went to PDCP. -/
structure UmNrRx where
  snSize : UmNrSnSize
  rxNextReassembly : Nat
  rxTimerTrigger : Nat
  rxNextHighest : Nat
  rxWindow : OrdMap Nat UmNrSegments
  reassemblyTimer : TimerState
  delivered : List Bytes

namespace UmNrRx

/-- The state after `configure`. -/
def init (snSize : UmNrSnSize) : UmNrRx := ⟨snSize, 0, 0, 0, ∅, .stopped, []⟩

/-- `mod` -/
abbrev mod (s : UmNrRx) : Nat := s.snSize.mod

/-- `UM_Window_Size` -/
abbrev windowSize (s : UmNrRx) : Nat := s.snSize.windowSize

/-- `RX_MOD_NR_BASE` -/
def rxModNrBase (s : UmNrRx) (x : Nat) : Nat :=
  (x + 2 * s.mod - s.rxNextHighest - s.windowSize) % s.mod

/-- `RX_Next_Highest - UM_Window_Size`, up to a multiple of the modulus. -/
def windowLow (s : UmNrRx) : Nat := s.rxNextHighest + s.mod - s.windowSize

/-- `sn_in_reassembly_window` -/
def snInReassemblyWindow (s : UmNrRx) (sn : Nat) : Bool :=
  decide (s.rxModNrBase s.windowLow ≤ s.rxModNrBase sn) &&
    decide (s.rxModNrBase sn < s.rxModNrBase s.rxNextHighest)

/-- `sn_invalid_for_rx_buffer` -/
def snInvalidForRxBuffer (s : UmNrRx) (sn : Nat) : Bool :=
  decide (s.rxModNrBase s.windowLow ≤ s.rxModNrBase sn) &&
    decide (s.rxModNrBase sn < s.rxModNrBase s.rxNextReassembly)

/-- `has_missing_byte_segment` -/
def hasMissingByteSegment (s : UmNrRx) (sn : Nat) : Bool := s.rxWindow.contains sn

/-- The loop that moves an SN up to `RX_Next_Highest`. `fuel` bounds the number of SNs. -/
def advanceToHighest (s : UmNrRx) : Nat → Nat → Nat
  | 0, sn => sn
  | fuel + 1, sn =>
    if s.rxModNrBase sn < s.rxModNrBase s.rxNextHighest then
      advanceToHighest s fuel ((sn + 1) % s.mod)
    else sn

/-- The part of `handle_rx_buffer_update` for an SDU that is complete. -/
def deliverSdu (s : UmNrRx) (sn : Nat) (sdu : Bytes) : UmNrRx :=
  { s with
    delivered := s.delivered ++ [sdu]
    rxNextReassembly :=
      if sn = s.rxNextReassembly then
        s.advanceToHighest s.mod ((s.rxNextReassembly + 1) % s.mod)
      else s.rxNextReassembly
    rxWindow := s.rxWindow.erase sn }

/-- The update of `RX_Next_Highest`, with the SNs outside of the new window dropped. -/
def updateHighest (s : UmNrRx) (sn : Nat) : UmNrRx :=
  let s := { s with rxNextHighest := sn + 1 }
  { s with
    rxWindow := (s.rxWindow.keys.filter fun k => !s.snInReassemblyWindow k).foldl
      OrdMap.erase s.rxWindow }

/-- The update of `RX_Next_Reassembly` when it is outside of the window. -/
def updateReassembly (s : UmNrRx) : UmNrRx :=
  if s.snInReassemblyWindow s.rxNextReassembly then s
  else
    match s.rxWindow.keys.find? fun k => decide (k ≥ s.rxModNrBase s.windowLow) with
    | none => s
    | some k => { s with rxNextReassembly := k }

/-- The check that stops the reassembly timer. -/
def stopTimer (s : UmNrRx) (sn : Nat) : UmNrRx :=
  if s.reassemblyTimer.isRunning &&
      (decide (s.rxTimerTrigger ≤ s.rxNextReassembly) ||
        (!s.snInReassemblyWindow s.rxTimerTrigger && s.rxTimerTrigger != s.rxNextHighest) ||
        (s.rxNextHighest == s.rxNextReassembly + 1 && !s.hasMissingByteSegment sn)) then
    { s with reassemblyTimer := s.reassemblyTimer.stop }
  else s

/-- The check that starts the reassembly timer. -/
def startTimer (s : UmNrRx) (sn : Nat) : UmNrRx :=
  if !s.reassemblyTimer.isRunning && s.hasMissingByteSegment sn &&
      decide (s.rxNextHighest > s.rxNextReassembly + 1) then
    { s with reassemblyTimer := .running, rxTimerTrigger := s.rxNextHighest }
  else s

/-- The part of `handle_rx_buffer_update` for an SN outside of the window. -/
def updateWindow (s : UmNrRx) (sn : Nat) : UmNrRx :=
  if s.snInReassemblyWindow sn then s
  else (((s.updateHighest sn).updateReassembly).stopTimer sn).startTimer sn

/-- `handle_rx_buffer_update` of the SN `sn`, whose entry in the window is `pdu`. -/
def handleRxBufferUpdate (s : UmNrRx) (sn : Nat) (pdu : UmNrSegments) : Option UmNrRx :=
  match UmNrSegments.assemble pdu.segments.values pdu with
  | none => none
  | some (.complete sdu) => some (s.deliverSdu sn sdu)
  | some (.incomplete pdu) =>
    some ({ s with rxWindow := s.rxWindow.insert sn pdu }.updateWindow sn)

/-- `rlc_um_nr_strip_pdu_header`. `none` when the bytes do not fit a buffer, or the length of
the header exceeds them. -/
def stripPduHeader (header : UmNrHeader) (bytes : Bytes) : Option UmNrPdu :=
  if bytes.length ≤ bufferTailroom ∧ header.packedLength ≤ bytes.length then
    some ⟨header, bytes.drop header.packedLength⟩
  else none

/-- The part of `handle_data_pdu` for a segment that is placed in the receive buffer. -/
def placePdu (s : UmNrRx) (rxPdu : UmNrPdu) : Option UmNrRx :=
  s.handleRxBufferUpdate rxPdu.header.sn
    (((s.rxWindow.find? rxPdu.header.sn).getD .empty).place rxPdu)

/-- The part of `handle_data_pdu` behind the header. -/
def handlePdu (s : UmNrRx) (header : UmNrHeader) (bytes : Bytes) : Option UmNrRx :=
  if header.si = .fullSdu then
    (stripPduHeader header bytes).map fun rxPdu =>
      { s with delivered := s.delivered ++ [rxPdu.buf] }
  else if s.snInvalidForRxBuffer header.sn then some s
  else (stripPduHeader header bytes).bind s.placePdu

/-- `handle_data_pdu`. The number of consumed bytes is not looked at. -/
def handleDataPdu (s : UmNrRx) (bytes : Bytes) : Option UmNrRx :=
  (readUmNrHeader s.snSize bytes).bind fun r => s.handlePdu r.1 bytes

/-- The loop of `timer_expired` that drops the SNs below `RX_Next_Reassembly`. The comparison is
of the numbers, not of their place in the window. -/
def dropBelow (s : UmNrRx) : UmNrRx :=
  { s with
    rxWindow := (s.rxWindow.keys.filter fun k => decide (k < s.rxNextReassembly)).foldl
      OrdMap.erase s.rxWindow }

/-- The part of `timer_expired` that starts the timer again. -/
def restartTimer (s : UmNrRx) : UmNrRx :=
  if s.rxModNrBase s.rxNextHighest > s.rxModNrBase (s.rxNextReassembly + 1) ∨
      (s.rxModNrBase s.rxNextHighest = s.rxModNrBase (s.rxNextReassembly + 1) ∧
        s.hasMissingByteSegment s.rxNextReassembly = true) then
    { s with reassemblyTimer := .running, rxTimerTrigger := s.rxNextHighest }
  else s

/-- `timer_expired`, when the timer runs. -/
def timerExpired (s : UmNrRx) : UmNrRx :=
  if !s.reassemblyTimer.isRunning then s
  else
    ({ s with
      reassemblyTimer := .expired
      rxNextReassembly := s.advanceToHighest s.mod s.rxTimerTrigger }.dropBelow).restartTimer

/-- `reset`, which `stop` and `reestablish` call. -/
def reset (s : UmNrRx) : UmNrRx :=
  { init s.snSize with reassemblyTimer := s.reassemblyTimer.stop, delivered := s.delivered }

/-- A call of the receiver. -/
inductive Op where
  | handleDataPdu (bytes : Bytes)
  | timerExpired
  | reset

/-- One call. -/
def step (s : UmNrRx) : Op → Option (UmNrRx × Unit)
  | .handleDataPdu bytes => (s.handleDataPdu bytes).map fun s => (s, ())
  | .timerExpired => some (s.timerExpired, ())
  | .reset => some (s.reset, ())

end UmNrRx

end Odss.Rlc
