import Odss.Lib.CircularMap
import Odss.Rlc.AmCodec
import Odss.Rlc.AmSegmentPool

/-!
# `Odss.Rlc.AmTx`: the RLC AM LTE transmitter

The class `rlc_am_lte_tx` of `rlc_am_lte.cc`. The state has the members of the class, and
`events` records what the entity tells RRC and PDCP, in order.

The ring buffer of retransmissions is a list. Its `push` has an `assert` that the default
build leaves out: a push to a full buffer moves the write position onto the read position,
and the buffer is empty from then on.
-/

set_option linter.all false

namespace Odss.Rlc

open Odss.Lib

/-- `rlc_amd_retx_t` -/
structure AmdRetx where
  sn : Nat
  isSegment : Bool
  soStart : Nat
  soEnd : Nat
deriving DecidableEq, Repr

/-- `pdu_retx_queue` -/
abbrev RetxQueue := List AmdRetx

namespace RetxQueue

/-- `push`, with the entry that the caller fills in. -/
def push (q : RetxQueue) (retx : AmdRetx) : RetxQueue :=
  if List.length q = amWindowSize - 1 then [] else q ++ [retx]

/-- `has_sn` -/
def hasSn (q : RetxQueue) (sn : Nat) : Bool := List.any q fun retx => retx.sn == sn

end RetxQueue

/-- `rlc_amd_tx_pdu`, with the list of its segments. -/
structure AmdTxPdu where
  rlcSn : Nat
  retxCount : UInt32
  header : AmdHeader
  buf : Bytes
  segments : List Nat
deriving DecidableEq, Repr

/-- The class `rlc_am_lte_tx`. -/
structure AmTx where
  cfg : AmConfig
  txSduQueue : ByteBufferQueue
  txSdu : Option Sdu
  txEnabled : Bool
  vtA : Nat
  vtMs : Nat
  vtS : Nat
  pollSn : Nat
  pduWithoutPoll : UInt32
  byteWithoutPoll : UInt32
  pollRetxTimer : TimerState
  statusProhibitTimer : TimerState
  sduInfo : SduInfo
  txWindow : CircularMap amWindowSize AmdTxPdu
  retxQueue : RetxQueue
  notifyInfoVec : List Nat
  events : List AmEvent

/-- What the transmitter reads of the receiver when it builds a PDU: whether a status PDU is
requested, and the status PDU that `get_status_pdu` makes for a grant (`none` if it returns
no length). -/
structure RxStatus where
  doStatus : Bool
  getStatusPdu : Nat → Option StatusPdu

namespace AmTx

/-- A transmitter after construction and `configure`. -/
def init (cfg : AmConfig) : AmTx where
  cfg := cfg
  txSduQueue := .init cfg.txQueueLength
  txSdu := none
  txEnabled := true
  vtA := 0
  vtMs := amWindowSize
  vtS := 0
  pollSn := 0
  pduWithoutPoll := 0
  byteWithoutPoll := 0
  pollRetxTimer := .stopped
  statusProhibitTimer := .stopped
  sduInfo := .init
  txWindow := ∅
  retxQueue := []
  notifyInfoVec := []
  events := []

/-- `TX_MOD_BASE` -/
def txModBase (s : AmTx) (x : Nat) : Nat := (x + amMod - s.vtA) % amMod

/-! ### The PDCP interface -/

/-- `write_sdu` -/
def writeSdu (s : AmTx) (sdu : Sdu) : AmTx :=
  if !s.txEnabled then s
  else
    match s.txSduQueue.tryWrite sdu with
    | none => s
    | some q => { s with txSduQueue := q }

/-- `discard_sdu` -/
def discardSdu (s : AmTx) (discardSn : Nat) : AmTx :=
  if !s.txEnabled then s else { s with txSduQueue := s.txSduQueue.discard discardSn }

/-! ### The transmit window -/

/-- `tx_window.remove_pdu`, which destroys the PDU. -/
def removePdu (s : AmTx) (sn : Nat) : AmTx :=
  match s.txWindow.find? sn with
  | none => s
  | some pdu => { s with
      txWindow := s.txWindow.erase sn
      sduInfo := s.sduInfo.releasePdu pdu.segments }

/-- `tx_window.add_pdu`. A PDU in the slot is destroyed. -/
def addPdu (s : AmTx) (pdu : AmdTxPdu) : AmTx :=
  { s with
    txWindow := s.txWindow.overwrite pdu.rlcSn pdu
    sduInfo :=
      match s.txWindow.slot? pdu.rlcSn with
      | none => s.sduInfo
      | some old => s.sduInfo.releasePdu old.2.segments }

/-- `check_sn_reached_max_retx` -/
def checkSnReachedMaxRetx (s : AmTx) (sn : Nat) : AmTx :=
  match s.txWindow.find? sn with
  | none => s
  | some pdu =>
    if pdu.retxCount = s.cfg.maxRetxThresh then
      { s with
        events := s.events ++ [.maxRetxAttempted,
          .notifyFailure (pdu.segments.map fun id => (s.sduInfo.pool.segments id).pdcpSn)] }
    else s

/-- `pdu.retx_count++` and the check that follows it. -/
def countRetx (s : AmTx) (sn : Nat) : AmTx :=
  checkSnReachedMaxRetx { s with
    txWindow := s.txWindow.modify sn fun pdu => { pdu with retxCount := pdu.retxCount + 1 } } sn

/-- `retransmit_pdu` -/
def retransmitPdu (s : AmTx) (sn : Nat) : AmTx :=
  match s.txWindow.find? sn with
  | none => s
  | some pdu =>
    let s := countRetx s sn
    { s with retxQueue := s.retxQueue.push ⟨pdu.rlcSn, false, 0, pdu.buf.length⟩ }

/-! ### Polling -/

/-- `poll_required` -/
def pollRequired (s : AmTx) : Bool :=
  (decide (s.cfg.pollPdu > 0) && decide (s.cfg.pollPdu < s.pduWithoutPoll.toNat)) ||
  (decide (s.cfg.pollByte > 0) && decide (s.cfg.pollByte < s.byteWithoutPoll.toNat)) ||
  s.pollRetxTimer == .expired ||
  decide (s.txWindow.size ≥ amWindowSize) ||
  (s.txSduQueue.queue.isEmpty && s.retxQueue.isEmpty) ||
  (s.cfg.pollPdu == 0 && s.cfg.pollByte == 0 && s.vtS % 8 == 0)

/-- The counting of a PDU of `n` bytes towards a poll. -/
def countPoll (s : AmTx) (n : Nat) : AmTx :=
  { s with
    pduWithoutPoll := s.pduWithoutPoll + 1
    byteWithoutPoll := s.byteWithoutPoll + UInt32.ofNat n }

/-- The poll bit of a PDU of `n` bytes. -/
def pollBit (s : AmTx) (n : Nat) : Bool := (s.countPoll n).pollRequired

/-- The state after the poll bit of a PDU of `n` bytes was decided. A poll resets the
counters and starts the timer. -/
def afterPoll (s : AmTx) (n : Nat) : AmTx :=
  if s.pollBit n then
    { s with pduWithoutPoll := 0, byteWithoutPoll := 0, pollRetxTimer := .running }
  else s.countPoll n

/-! ### Retransmission -/

/-- The loop variables of `build_segment` over the length indicators of the old header. `li`
has the `N_li` entries of the new header. -/
structure SegmentHeader where
  fi : Fi
  li : List Nat
  soEnd : Nat
  lower : Nat
  upper : Nat
deriving DecidableEq, Repr

/-- The length of a segment header with `n` length indicators. -/
def segmentHeadLen (n : Nat) : Nat := 4 + (3 * n + 1) / 2

/-- The end of a segment from `soStart` to `soEnd`, cut to the space behind a header. -/
def cutSegment (nofBytes headLen soStart soEnd : Nat) : Nat :=
  if subU32 nofBytes headLen < subU32 soEnd soStart then soStart + subU32 nofBytes headLen
  else soEnd

/-- The length of the part of an SDU piece `[lower, upper)` in the segment. -/
def segmentLi (soStart soEnd lower upper : Nat) : Nat :=
  let li := upper - lower
  let li := if upper > soEnd then subU32 li (upper - soEnd) else li
  let li := if lower < soStart then subU32 li (soStart - lower) else li
  li % 2 ^ 16

/-- The framing bits that an SDU piece `[lower, upper)` clears. -/
def segmentFi (fi : Fi) (soStart soEnd lower upper : Nat) : Fi where
  notStartAligned := fi.notStartAligned && !(decide (lower > 0) && lower == soStart)
  notEndAligned := fi.notEndAligned && !(upper == soEnd)

/-- The part of the loop of `build_segment` for an SDU piece that the segment needs. The
length indicator `li` stays only if a byte of another SDU fits behind it. -/
def addSegmentLi (nofBytes soStart : Nat) (w : SegmentHeader) (li : Nat) : SegmentHeader :=
  if w.soEnd > w.upper then
    if segmentHeadLen (w.li.length + 1) + subU32 w.soEnd soStart ≤ nofBytes then
      { w with li := w.li ++ [li] }
    else
      { w with fi := { w.fi with notEndAligned := false }, soEnd := soStart + (w.li.sum + li) }
  else w

/-- One round of the loop of `build_segment`, for an SDU piece of length `oldLi`. -/
def segmentStep (nofBytes soStart : Nat) (w : SegmentHeader) (oldLi : Nat) : SegmentHeader :=
  let upper := w.upper + oldLi
  let soEnd := cutSegment nofBytes (segmentHeadLen w.li.length) soStart w.soEnd
  let w' :=
    if upper > soStart ∧ w.lower < soEnd then
      addSegmentLi nofBytes soStart
        { w with upper := upper, soEnd := soEnd, fi := segmentFi w.fi soStart soEnd w.lower upper }
        (segmentLi soStart soEnd w.lower upper)
    else { w with upper := upper, soEnd := soEnd }
  { w' with lower := w.lower + oldLi }

/-- The loop of `build_segment`. -/
def segmentLoop (nofBytes soStart : Nat) : List Nat → SegmentHeader → SegmentHeader
  | [], w => w
  | oldLi :: oldLis, w =>
    if w.lower ≥ w.soEnd then w
    else segmentLoop nofBytes soStart oldLis (segmentStep nofBytes soStart w oldLi)

/-- The header of a PDU segment before the loop. -/
def segmentInit (oldHeader : AmdHeader) (soStart soEnd : Nat) : SegmentHeader where
  fi := ⟨!(soStart == 0 && oldHeader.fi.startAligned), true⟩
  li := []
  soEnd := soEnd
  lower := 0
  upper := 0

/-- The header length that `build_segment` checks the grant against: with length indicators
in the old header, there is to be room for one. -/
def segmentMinHeadLen (oldHeader : AmdHeader) : Nat :=
  4 + (if oldHeader.li.length > 0 then 2 else 0)

/-- What `build_segment` computes for the range `[soStart, soEnd)` of a PDU. -/
def segmentOf (nofBytes : Nat) (oldHeader : AmdHeader) (soStart soEnd : Nat) : SegmentHeader :=
  segmentLoop nofBytes soStart oldHeader.li (segmentInit oldHeader soStart
    (cutSegment nofBytes (segmentMinHeadLen oldHeader) soStart soEnd))

/-- The header of the segment `w` that starts at `soStart` of the PDU `pdu`. -/
def segmentPduHeader (pdu : AmdTxPdu) (soStart : Nat) (w : SegmentHeader) (p : Bool) :
    AmdHeader where
  rf := true
  p := p
  fi := { w.fi with
    notEndAligned := w.fi.notEndAligned &&
      !(pdu.buf.length == w.soEnd && pdu.header.fi.endAligned) }
  sn := pdu.header.sn
  lsf := pdu.buf.length == w.soEnd
  so := soStart
  li := w.li

/-- The queue after a segment up to `soEnd` of a PDU of `n` bytes was sent for its front. -/
def advanceRetx (queue : RetxQueue) (n soEnd : Nat) : RetxQueue :=
  match queue with
  | [] => []
  | front :: rest =>
    if n = soEnd ∨ front.soEnd = soEnd then rest
    else { front with isSegment := true, soStart := soEnd } :: rest

/-- `so_start` of a queue entry at the start of `build_segment`. -/
def retxStart (retx : AmdRetx) : Nat := if retx.isSegment then retx.soStart else 0

/-- `so_end` of a queue entry at the start of `build_segment`. -/
def retxStop (retx : AmdRetx) (pdu : AmdTxPdu) : Nat :=
  if retx.isSegment then retx.soEnd else pdu.buf.length

/-- `build_segment` of the PDU `pdu` for the queue entry `retx` in front of the queue. No
bytes stand for a return value of zero. Bytes past `N_bytes` are not modelled. -/
def buildSegment (s : AmTx) (nofBytes : Nat) (retx : AmdRetx) (pdu : AmdTxPdu) : AmTx × Bytes :=
  let s' := s.afterPoll (pdu.buf.length + 2)
  if nofBytes ≤ segmentMinHeadLen pdu.header then (s', [])
  else
    let soStart := retxStart retx
    let w := segmentOf nofBytes pdu.header soStart (retxStop retx pdu)
    ({ s' with retxQueue := advanceRetx s'.retxQueue pdu.buf.length w.soEnd },
      writeDataPduHeader (segmentPduHeader pdu soStart w (s.pollBit (pdu.buf.length + 2))) ++
        (pdu.buf.drop soStart).take (subU32 w.soEnd soStart))

/-- The loop of `required_buffer_size`: the number of length indicators of the segment. -/
def requiredLis (soStart soEnd : Nat) : List Nat → Nat → Nat
  | [], _ => 0
  | oldLi :: oldLis, lower =>
    if lower ≥ soEnd then 0
    else
      (if lower + oldLi > soStart ∧ lower < soEnd then 1 else 0) +
        requiredLis soStart soEnd oldLis (lower + oldLi)

/-- `required_buffer_size` of an entry whose PDU is `pdu`. -/
def requiredBufferSize (retx : AmdRetx) (pdu : AmdTxPdu) : Int :=
  if !retx.isSegment then pdu.header.packedLength + pdu.buf.length
  else
    4 + (3 * requiredLis retx.soStart retx.soEnd pdu.header.li 0 + 1) / 2 +
      ((retx.soEnd : Int) - retx.soStart)

/-- The loop of `build_retx_pdu` that drops the entries whose PDU has left the window. An
empty queue is filled with the PDU at `vt_a`, and the result has no entry if that one has
left as well. `fuel` is above the number of entries, and each round drops one. -/
def dropStaleRetx : Nat → AmTx → AmTx × Option AmdRetx
  | 0, s => (s, none)
  | fuel + 1, s =>
    match s.retxQueue with
    | [] => (s, none)
    | retx :: queue =>
      if s.txWindow.contains retx.sn then (s, some retx)
      else
        let s := { s with retxQueue := queue }
        if !queue.isEmpty then dropStaleRetx fuel s
        else if s.txWindow.contains s.vtA then dropStaleRetx fuel (s.retransmitPdu s.vtA)
        else (s, none)

/-- `build_retx_pdu`. No bytes stand for a return value of zero or less. -/
def buildRetxPdu (s : AmTx) (nofBytes : Nat) : AmTx × Bytes :=
  match dropStaleRetx (s.retxQueue.length + 1) s with
  | (s, none) => (s, [])
  | (s, some retx) =>
    match s.txWindow.find? retx.sn with
    | none => (s, [])
    | some pdu =>
      let reqSize := requiredBufferSize retx pdu
      if reqSize < 0 then ({ s with retxQueue := s.retxQueue.tail }, [])
      else if retx.isSegment || decide (reqSize > nofBytes) then s.buildSegment nofBytes retx pdu
      else
        let n := pdu.buf.length + pdu.header.packedLength
        ({ s.afterPoll n with retxQueue := s.retxQueue.tail },
          writeDataPduHeader { pdu.header with p := s.pollBit n } ++ pdu.buf)

/-! ### New data -/

/-- The local variables of `build_data_pdu`. `pdu` is the PDU in the window, and `li` has the
`N_li` entries of its header. -/
structure DataBuild where
  tx : AmTx
  pdu : AmdTxPdu
  li : List Nat
  headLen : Nat
  lastLi : Nat
  pduSpace : Nat

/-- The length of a header without segment part and with `n` length indicators. -/
def dataHeadLen (n : Nat) : Nat := 2 + (3 * n + 1) / 2

/-- `to_move`: what the space allows of an SDU. -/
def toMove (b : DataBuild) (sdu : Sdu) : Nat := min (b.pduSpace - b.headLen) sdu.bytes.length

/-- What is left of an SDU after `n` bytes of it were moved, `none` when it is complete. -/
def restOf (sdu : Sdu) (n : Nat) : Option Sdu :=
  if (sdu.bytes.drop n).isEmpty then none else some { sdu with bytes := sdu.bytes.drop n }

/-- The segment of the PDU `rlcSn` for an SDU. The last segment of the SDU marks it as fully
transmitted. Without information of the PDCP SN there is no segment. -/
def addSegment (i : SduInfo) (rlcSn pdcpSn : Nat) (last : Bool) : SduInfo × List Nat :=
  if i.infos.hasPdcpSn pdcpSn then
    let r := i.makeSegment rlcSn pdcpSn
    (if last then r.1.setFullyTxed pdcpSn else r.1, r.2)
  else (i, [])

/-- The move of `n` bytes of `sdu` into the PDU. -/
def moveSdu (b : DataBuild) (sdu : Sdu) (n : Nat) : DataBuild :=
  let r := addSegment b.tx.sduInfo b.pdu.rlcSn sdu.pdcpSn (restOf sdu n).isNone
  { b with
    tx := { b.tx with sduInfo := r.1, txSdu := restOf sdu n }
    pdu := { b.pdu with
      buf := b.pdu.buf ++ sdu.bytes.take n
      segments := r.2 ++ b.pdu.segments }
    lastLi := n }

/-- The part of `build_data_pdu` for the SDU that an earlier PDU has started. -/
def moveTxSdu (b : DataBuild) (sdu : Sdu) : DataBuild :=
  let n := toMove b sdu
  let b' := moveSdu b sdu n
  { b' with
    pduSpace :=
      if b.pduSpace > n then b.pduSpace - min n (bufferTailroom - b'.pdu.buf.length) else 0 }

/-- The move of an SDU that was read from the queue, whose rest is `q`. -/
def pullSdu (b : DataBuild) (sdu : Sdu) (q : ByteBufferQueue) : DataBuild :=
  let i := if b.tx.sduInfo.infos.hasPdcpSn sdu.pdcpSn then b.tx.sduInfo
    else b.tx.sduInfo.addPdcpSdu sdu.pdcpSn
  let n := toMove b sdu
  { moveSdu { b with tx := { b.tx with txSduQueue := q, sduInfo := i } } sdu n with
    pduSpace := b.pduSpace - n }

/-- The length indicator of the previous SDU goes into the header. -/
def pushLastLi (b : DataBuild) : DataBuild :=
  let li := if b.lastLi > 0 then b.li ++ [b.lastLi] else b.li
  { b with li := li, headLen := dataHeadLen li.length }

/-- The last length indicator leaves the header. -/
def popLi (b : DataBuild) : DataBuild := { b with li := b.li.dropLast }

/-- How a round of the loop of `build_data_pdu` ends: with another round, with the PDU, or
without a segment resource for the first SDU. -/
inductive PullResult where
  | again (b : DataBuild)
  | done (b : DataBuild)
  | noSegments (b : DataBuild)

/-- The part of a round after the length indicator was added. -/
def pullNext (b : DataBuild) : PullResult :=
  if b.headLen ≥ b.pduSpace then .done (popLi b)
  else
    match b.tx.txSduQueue.readSdu with
    | (none, q) => .done { popLi b with tx := { b.tx with txSduQueue := q, txSdu := none } }
    | (some sdu, q) => .again (pullSdu b sdu q)

/-- One round of the loop of `build_data_pdu` that pulls SDUs from the queue. -/
def pullRound (b : DataBuild) : PullResult :=
  if b.pduSpace > b.headLen ∧ b.tx.txSduQueue.nSdus > 0 ∧ b.li.length < maxSdusPerPdu then
    if b.tx.sduInfo.pool.hasSegments then pullNext (pushLastLi b)
    else if b.pdu.buf.isEmpty then .noSegments b
    else .done b
  else .done b

/-- The loop of `build_data_pdu`. `fuel` is the number of queue entries: each round but the
last reads at least one. -/
def pullSdus : Nat → DataBuild → PullResult
  | 0, b => .done b
  | fuel + 1, b =>
    match pullRound b with
    | .again b => pullSdus fuel b
    | r => r

/-- The checks of `build_data_pdu` before it adds the PDU to the window. -/
def addsDataPdu (s : AmTx) (nofBytes : Nat) : Bool :=
  (s.txSdu.isSome || !s.txSduQueue.queue.isEmpty) &&
  !(s.txSdu.isNone && decide (s.txWindow.size ≥ amWindowSize)) &&
  decide (nofBytes ≥ amMinDataPduSize) &&
  s.sduInfo.pool.hasSegments

/-- The PDU that `add_pdu` puts into the window. -/
def newTxPdu (sn : Nat) : AmdTxPdu where
  rlcSn := sn
  retxCount := 0
  header := ⟨false, false, .startAndEndAligned, sn, false, 0, []⟩
  buf := []
  segments := []

/-- The PDU in its final form. `notStartAligned` says that it begins with the rest of an
SDU. -/
def finalPdu (notStartAligned : Bool) (b : DataBuild) (p : Bool) : AmdTxPdu :=
  { b.pdu with
    header := { b.pdu.header with
      p := p, fi := ⟨notStartAligned, b.tx.txSdu.isSome⟩, li := b.li } }

/-- The end of `build_data_pdu`: framing info, poll bit, the step of `vt_s` and the bytes. -/
def finishDataPdu (notStartAligned : Bool) (b : DataBuild) : AmTx × Bytes :=
  let n := b.pdu.buf.length + b.headLen
  let pdu := finalPdu notStartAligned b (b.tx.pollBit n)
  ({ b.tx.afterPoll n with
    pollSn := if b.tx.pollBit n then b.tx.vtS else b.tx.pollSn
    vtS := (b.tx.vtS + 1) % amMod
    txWindow := b.tx.txWindow.modify pdu.rlcSn fun _ => pdu },
    writeDataPduHeader pdu.header ++ pdu.buf)

/-- The return of `build_data_pdu` without segment resources. -/
def abandonDataPdu (b : DataBuild) : AmTx :=
  { b.tx with
    txWindow := b.tx.txWindow.erase b.pdu.rlcSn
    sduInfo := b.tx.sduInfo.releasePdu b.pdu.segments }

/-- The start of `build_data_pdu`: the PDU enters the window, and the SDU in transmission
goes first. -/
def startDataPdu (s : AmTx) (nofBytes : Nat) : DataBuild :=
  let pdu := newTxPdu s.vtS
  let b : DataBuild :=
    { tx := s.addPdu pdu, pdu := pdu, li := [], headLen := dataHeadLen 0, lastLi := 0,
      pduSpace := min nofBytes bufferTailroom }
  match s.txSdu with
  | none => b
  | some sdu => moveTxSdu b sdu

/-- `build_data_pdu`. No bytes stand for a return value of zero. -/
def buildDataPdu (s : AmTx) (nofBytes : Nat) : AmTx × Bytes :=
  if s.addsDataPdu nofBytes then
    match pullSdus s.txSduQueue.queue.length (startDataPdu s nofBytes) with
    | .again b => finishDataPdu s.txSdu.isSome b
    | .done b => finishDataPdu s.txSdu.isSome b
    | .noSegments b => (abandonDataPdu b, [])
  else (s, [])

/-! ### The MAC interface -/

/-- `build_status_pdu` -/
def buildStatusPdu (s : AmTx) (nofBytes : Nat) (rx : RxStatus) : AmTx × Bytes :=
  match rx.getStatusPdu nofBytes with
  | none => (s, [])
  | some status =>
    if nofBytes ≥ status.packedLength then
      ({ s with
        statusProhibitTimer :=
          if s.cfg.tStatusProhibit > 0 then .running else s.statusProhibitTimer },
        writeStatusPdu status)
    else (s, [])

/-- A full window with no retransmission pending schedules the PDU at `vt_a`. -/
def retransmitIfFull (s : AmTx) : AmTx :=
  if s.txWindow.size ≥ amWindowSize ∧ s.retxQueue.isEmpty then s.retransmitPdu s.vtA else s

/-- The part of `read_pdu` for retransmissions. -/
def readRetxPdu (s : AmTx) (nofBytes : Nat) : AmTx × Bytes :=
  if s.retransmitIfFull.retxQueue.isEmpty then (s.retransmitIfFull, [])
  else s.retransmitIfFull.buildRetxPdu nofBytes

/-- Whether `read_pdu` sends a status PDU. -/
def sendsStatus (s : AmTx) (rx : RxStatus) : Bool :=
  rx.doStatus && !s.statusProhibitTimer.isRunning

/-- Whether `read_pdu` reaches `add_pdu` in `build_data_pdu`. -/
def addsInReadPdu (s : AmTx) (nofBytes : Nat) (rx : RxStatus) : Bool :=
  s.txEnabled && !s.sendsStatus rx && (s.readRetxPdu nofBytes).2.isEmpty &&
    (s.readRetxPdu nofBytes).1.addsDataPdu nofBytes

/-- `read_pdu` -/
def readPdu (s : AmTx) (nofBytes : Nat) (rx : RxStatus) : AmTx × Bytes :=
  if !s.txEnabled then (s, [])
  else if s.sendsStatus rx then s.buildStatusPdu nofBytes rx
  else if (s.readRetxPdu nofBytes).2.isEmpty then
    (s.readRetxPdu nofBytes).1.buildDataPdu nofBytes
  else s.readRetxPdu nofBytes

/-! ### The buffer state -/

/-- The part of `get_buffer_state_nolock` for the first retransmission. An entry that needs a negative
number of bytes is dropped. -/
def retxBufferState (s : AmTx) : AmTx × Nat :=
  match s.retxQueue with
  | [] => (s, 0)
  | retx :: queue =>
    match s.txWindow.find? retx.sn with
    | none => (s, 0)
    | some pdu =>
      if requiredBufferSize retx pdu < 0 then ({ s with retxQueue := queue }, 0)
      else (s, (requiredBufferSize retx pdu).toNat)

/-- The SDUs that `get_buffer_state_nolock` counts: those in the queue and the one in transmission. -/
def bufferedSdus (s : AmTx) : Nat :=
  if s.txWindow.size < 1024 then s.txSduQueue.nSdus + (if s.txSdu.isSome then 1 else 0) else 0

/-- The bytes of these SDUs. -/
def bufferedBytes (s : AmTx) : Nat :=
  if s.txWindow.size < 1024 then
    s.txSduQueue.unreadBytes + (s.txSdu.map fun sdu => sdu.bytes.length).getD 0
  else 0

/-- `n_bytes_newtx` of `get_buffer_state_nolock`. The length indicators have one and a half bytes,
rounded in floating point: `((n_sdus - 1) * 1.5) + 0.5`, cut to a whole number. -/
def newTxBytes (s : AmTx) : Nat :=
  let n := s.bufferedBytes +
    (if s.bufferedSdus > 1 then (3 * (s.bufferedSdus - 1) + 1) / 2 else 0)
  if n > 0 ∧ s.bufferedSdus > 0 then n + 2 else n

/-- `get_buffer_state_nolock`, with the length that `get_status_pdu_length` returns: the state after
the call, and `n_bytes_newtx` and `n_bytes_prio`. -/
def getBufferState (s : AmTx) (rx : RxStatus) (statusPduLength : Nat) : AmTx × Nat × Nat :=
  let status := if s.sendsStatus rx then statusPduLength else 0
  (s.retxBufferState.1, s.newTxBytes, status + s.retxBufferState.2)

/-! ### Status PDUs of the peer -/

/-- `notify_info_vec.push_back` of a vector that may be full. -/
def pushNotify (notifyInfoVec : List Nat) (pdcpSn : Nat) : List Nat :=
  if notifyInfoVec.length < maxSdusToNotify then notifyInfoVec ++ [pdcpSn] else notifyInfoVec

/-- The acknowledgement of the segment `id` of `pdcpSn`. A fully acknowledged SDU is notified
and its information cleared. -/
def ackSdu (s : AmTx) (pdcpSn id : Nat) : AmTx :=
  if ((s.sduInfo.ackSegment pdcpSn id).infos.getPdu pdcpSn).fullyAcked then
    { s with
      notifyInfoVec := pushNotify s.notifyInfoVec pdcpSn
      sduInfo := (s.sduInfo.ackSegment pdcpSn id).clearPdcpSdu pdcpSn }
  else { s with sduInfo := s.sduInfo.ackSegment pdcpSn id }

/-- One round of `update_notification_ack_info`. A segment without PDCP SN is skipped. -/
def ackSegment (s : AmTx) (id : Nat) : AmTx :=
  match (s.sduInfo.pool.segments id).pdcpSn with
  | none => s
  | some pdcpSn => s.ackSdu pdcpSn id

/-- `update_notification_ack_info` -/
def updateNotificationAckInfo (s : AmTx) (rlcSn : Nat) : AmTx :=
  match s.txWindow.find? rlcSn with
  | none => s
  | some pdu => pdu.segments.foldl ackSegment s

/-- The entry that a NACK of the PDU `i` with `n` bytes puts into the queue. -/
def nackRetx (i n : Nat) (nack : StatusNack) : AmdRetx :=
  if nack.hasSo then
    let soStart := if nack.soStart ≥ n then 0 else nack.soStart
    let soEnd := if nack.soEnd = 0x7FFF then n else nack.soEnd
    let retxEnd := if nack.soEnd = 0x7FFF then n else nack.soEnd + 1
    if soStart < n ∧ soEnd ≤ n then ⟨i, true, soStart, retxEnd⟩ else ⟨i, false, 0, retxEnd⟩
  else ⟨i, false, 0, n⟩

/-- The handling of a NACK of the SN `i` in `handle_control_pdu`. -/
def handleNack (s : AmTx) (i : Nat) (nack : StatusNack) : AmTx :=
  match s.txWindow.find? i with
  | none => s
  | some pdu =>
    if s.retxQueue.hasSn i then s
    else
      let s := countRetx s i
      { s with retxQueue := s.retxQueue.push (nackRetx i pdu.buf.length nack) }

/-- The handling of all the NACKs of the SN `i`. -/
def handleNacks (s : AmTx) (i : Nat) (nacks : List StatusNack) : AmTx :=
  nacks.foldl (fun s nack => if nack.nackSn = i then s.handleNack i nack else s) s

/-- The removal of an acknowledged PDU. -/
def ackPdu (s : AmTx) (i : Nat) : AmTx :=
  if s.txWindow.contains i then (s.updateNotificationAckInfo i).removePdu i else s

/-- The advance of the window. -/
def advanceVtA (s : AmTx) : AmTx :=
  { s with vtA := (s.vtA + 1) % amMod, vtMs := (s.vtMs + 1) % amMod }

/-- The handling of an ACK of the SN `i` in `handle_control_pdu`. -/
def handleAck (s : AmTx) (i : Nat) (updateVtA : Bool) : AmTx :=
  if updateVtA then (s.ackPdu i).advanceVtA else s.ackPdu i

/-- The loop of `handle_control_pdu` from the SN `i` on. `fuel` bounds the number of SNs. -/
def ackLoop (status : StatusPdu) (vtSLocal : Nat) : Nat → AmTx → Nat → Bool → AmTx
  | 0, s, _, _ => s
  | fuel + 1, s, i, updateVtA =>
    if s.txModBase i < s.txModBase status.ackSn ∧ s.txModBase i < s.txModBase vtSLocal then
      if status.nacks.any fun nack => nack.nackSn == i then
        ackLoop status vtSLocal fuel (s.handleNacks i status.nacks) ((i + 1) % amMod) false
      else ackLoop status vtSLocal fuel (s.handleAck i updateVtA) ((i + 1) % amMod) updateVtA
    else s

/-- The check of `ACK_SN` in `handle_control_pdu`. -/
def acceptsAckSn (s : AmTx) (ackSn : Nat) : Bool :=
  decide ((amMod + ackSn - s.vtA) % amMod ≤ amWindowSize) &&
  decide ((amMod + s.vtS - ackSn) % amMod ≤ amWindowSize)

/-- The part of `handle_control_pdu` before the loop: the poll timer stops when the status
covers the poll, and NACKs flush the queue of retransmissions. -/
def startStatus (s : AmTx) (status : StatusPdu) : AmTx :=
  { s with
    pollRetxTimer :=
      if s.txModBase s.pollSn < s.txModBase status.ackSn then s.pollRetxTimer.stop
      else s.pollRetxTimer
    retxQueue := if status.nacks.isEmpty then s.retxQueue else [] }

/-- The part of `handle_control_pdu` after the loop: the check of `vt_a`, and the
notification of PDCP. -/
def finishStatus (s : AmTx) : AmTx :=
  { s with
    events := s.events ++
      (if s.txWindow.size ≠ 0 ∧ s.txWindow.contains s.vtA = false then [.protocolFailure] else []) ++
      (if s.notifyInfoVec.isEmpty then [] else [.notifyDelivery s.notifyInfoVec])
    notifyInfoVec := [] }

/-- `handle_control_pdu` of a status PDU that was read. -/
def handleControlPdu (s : AmTx) (status : StatusPdu) : AmTx :=
  if s.txEnabled ∧ s.acceptsAckSn status.ackSn then
    finishStatus (ackLoop status s.vtS amMod (s.startStatus status) s.vtA true)
  else s

/-! ### Timers and control -/

/-- `timer_expired` of the poll retransmit timer, when it runs. -/
def pollRetxExpired (s : AmTx) : AmTx :=
  if !s.pollRetxTimer.isRunning then s
  else if (s.retxQueue.isEmpty ∧ s.txSduQueue.queue.isEmpty) ∨ s.txWindow.size ≥ amWindowSize then
    { s with pollRetxTimer := .expired }.retransmitPdu s.vtA
  else { s with pollRetxTimer := .expired }

/-- `timer_expired` of the status prohibit timer, when it runs. -/
def statusProhibitExpired (s : AmTx) : AmTx :=
  if !s.statusProhibitTimer.isRunning then s else { s with statusProhibitTimer := .expired }

/-- `empty_queue`: all the SDUs are read from the queue. -/
def emptyQueue (s : AmTx) : AmTx :=
  { s with
    txSduQueue := { s.txSduQueue.queue.foldl ByteBufferQueue.popCallback s.txSduQueue with
      queue := [] }
    sduInfo :=
      match s.txSdu with
      | none => s.sduInfo
      | some sdu => s.sduInfo.clearPdcpSdu sdu.pdcpSn
    txSdu := none }

/-- `tx_window.clear`, which destroys the PDUs. -/
def clearWindow (s : AmTx) : AmTx :=
  { s with
    txWindow := ∅
    sduInfo := s.txWindow.entries.foldl (fun i e => i.releasePdu e.2.segments) s.sduInfo }

/-- The reset of the state variables in `stop`. -/
def resetVariables (s : AmTx) : AmTx :=
  { s with
    txEnabled := false
    pollRetxTimer := s.pollRetxTimer.stop
    statusProhibitTimer := s.statusProhibitTimer.stop
    vtA := 0
    vtMs := amWindowSize
    vtS := 0
    pollSn := 0
    pduWithoutPoll := 0
    byteWithoutPoll := 0
    retxQueue := [] }

/-- `stop` -/
def stop (s : AmTx) : AmTx :=
  let s := s.emptyQueue.resetVariables.clearWindow
  { s with sduInfo := s.sduInfo.clear }

/-- `reestablish` -/
def reestablish (s : AmTx) : AmTx := { s.stop with txEnabled := true }

/-! ### Steps -/

/-- A call of the transmitter. -/
inductive Op where
  | writeSdu (sdu : Sdu)
  | readPdu (nofBytes : Nat) (rx : RxStatus)
  | handleControlPdu (status : StatusPdu)
  | pollRetxExpired
  | statusProhibitExpired
  | discardSdu (discardSn : Nat)
  | emptyQueue
  | stop
  | reestablish

/-- One call, with the bytes that `read_pdu` returns. -/
def step (s : AmTx) : Op → AmTx × Bytes
  | .writeSdu sdu => (s.writeSdu sdu, [])
  | .readPdu nofBytes rx => s.readPdu nofBytes rx
  | .handleControlPdu status => (s.handleControlPdu status, [])
  | .pollRetxExpired => (s.pollRetxExpired, [])
  | .statusProhibitExpired => (s.statusProhibitExpired, [])
  | .discardSdu discardSn => (s.discardSdu discardSn, [])
  | .emptyQueue => (s.emptyQueue, [])
  | .stop => (s.stop, [])
  | .reestablish => (s.reestablish, [])

end AmTx

end Odss.Rlc
