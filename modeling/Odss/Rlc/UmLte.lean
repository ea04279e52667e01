import Odss.Lib.OrdMap
import Odss.Lib.Rounds
import Odss.Rlc.Common

/-!
# `Odss.Rlc.UmLte`: the receiver of the LTE RLC UM entity

The model of `rlc_um_lte_rx` (`lib/src/rlc/rlc_um_lte.cc`) and of the header functions that it
calls. The window has half of the SNs, as RRC configures it. A null `rx_sdu` is an empty buffer,
since `reassemble_rx_sdus` allocates it first. `none` stands for a read or a copy outside of its
buffer, a length indicator behind the end of `li`, or a loop that does not end.
-/

set_option linter.all false

namespace Odss.Rlc

open Odss.Lib

/-! ### Headers -/

/-- `rlc_umd_sn_size_t` -/
inductive UmdSnSize where
  | size5bits
  | size10bits
deriving DecidableEq, Repr

/-- `rx_mod` -/
def UmdSnSize.mod : UmdSnSize → Nat
  | .size5bits => 32
  | .size10bits => 1024

/-- `rx_window_size` -/
def UmdSnSize.windowSize : UmdSnSize → Nat
  | .size5bits => 16
  | .size10bits => 512

/-- The length of the fixed part of a header. -/
def UmdSnSize.fixedLength : UmdSnSize → Nat
  | .size5bits => 1
  | .size10bits => 2

/-- The places of `li`: `RLC_AM_WINDOW_SIZE`. -/
abbrev maxUmdLis : Nat := 512

/-- `rlc_umd_pdu_header_t`. `N_li` is the length of `li`. -/
structure UmdHeader where
  fi : Fi
  snSize : UmdSnSize
  sn : Nat
  li : List Nat
deriving DecidableEq, Repr

/-- `rlc_um_packed_length` -/
def UmdHeader.packedLength (header : UmdHeader) : Nat :=
  header.snSize.fixedLength + (3 * header.li.length + 1) / 2

/-- The loop of `rlc_um_read_data_pdu_header` over the extension part, while the extension bit
`ext` is set. There are `room` places left in `li`. -/
def readUmdLis (room : Nat) (ext : Bool) (bytes : Bytes) : Option (List Nat) :=
  if !ext then some []
  else
    match room, bytes with
    | room + 1, b₀ :: b₁ :: rest =>
      let li := b₀.toNat % 128 * 16 + b₁.toNat / 16
      if b₀.toNat / 128 = 0 then some [li]
      else
        match room, rest with
        | room + 1, b₂ :: rest =>
          let li' := b₁.toNat % 8 * 256 + b₂.toNat
          (readUmdLis room (b₁.toNat / 8 % 2 == 1) rest).map fun lis => li :: li' :: lis
        | _, _ => none
    | _, _ => none

/-- `rlc_um_read_data_pdu_header`. The number of bytes is not looked at. -/
def readUmdHeader (snSize : UmdSnSize) (bytes : Bytes) : Option UmdHeader :=
  match snSize, bytes with
  | .size5bits, b₀ :: rest =>
    (readUmdLis maxUmdLis (b₀.toNat / 32 % 2 == 1) rest).map fun lis =>
      ⟨⟨b₀.toNat / 128 == 1, b₀.toNat / 64 % 2 == 1⟩, snSize, b₀.toNat % 32, lis⟩
  | .size10bits, b₀ :: b₁ :: rest =>
    (readUmdLis maxUmdLis (b₀.toNat / 4 % 2 == 1) rest).map fun lis =>
      ⟨⟨b₀.toNat / 16 % 2 == 1, b₀.toNat / 8 % 2 == 1⟩, snSize, b₀.toNat % 4 * 256 + b₁.toNat, lis⟩
  | _, _ => none

/-! ### Receiver -/

/-- `rlc_umd_pdu_t`: a PDU with its header and the bytes behind the header. -/
structure UmdPdu where
  header : UmdHeader
  buf : Bytes
deriving DecidableEq, Repr

/-- The state of `rlc_um_lte_rx`, with the configured SN size and t-Reordering. -/
structure UmLteRx where
  snSize : UmdSnSize
  tReordering : Nat
  vrUr : Nat
  vrUx : Nat
  vrUh : Nat
  vrUrInRxSdu : Nat
  pduLost : Bool
  rxSdu : Bytes
  rxWindow : OrdMap Nat UmdPdu
  reorderingTimer : TimerState

/-- `SRSRAN_MAX_BUFFER_SIZE_BYTES`: the tailroom of an empty buffer and its headroom. -/
abbrev maxBufferSizeBytes : Nat := bufferTailroom + 1020

/-- The `memcpy` of `len` bytes from a PDU to the end of the SDU. -/
def copyToSdu (sdu buf : Bytes) (len : Nat) : Option Bytes :=
  if len ≤ buf.length ∧ sdu.length + len ≤ bufferTailroom then some (sdu ++ buf.take len) else none

namespace UmLteRx

/-- The state after `configure`. -/
def init (snSize : UmdSnSize) (tReordering : Nat) : UmLteRx :=
  ⟨snSize, tReordering, 0, 0, 0, 0, false, [], ∅, .stopped⟩

/-- `rx_mod` -/
abbrev mod (s : UmLteRx) : Nat := s.snSize.mod

/-- `rx_window_size` -/
abbrev windowSize (s : UmLteRx) : Nat := s.snSize.windowSize

/-- `RX_MOD_BASE` -/
def rxModBase (s : UmLteRx) (x : Nat) : Nat := (x + 2 * s.mod - s.vrUh - s.windowSize) % s.mod

/-- `vr_uh - rx_window_size`, up to a multiple of the modulus. -/
def windowLow (s : UmLteRx) : Nat := s.vrUh + s.mod - s.windowSize

/-- `inside_reordering_window` -/
def insideReorderingWindow (s : UmLteRx) (sn : Nat) : Bool :=
  s.rxWindow.size == 0 ||
    (decide (s.rxModBase s.windowLow ≤ s.rxModBase sn) &&
      decide (s.rxModBase sn < s.rxModBase s.vrUh))

/-- `pdu_belongs_to_rx_sdu` -/
def pduBelongsToRxSdu (s : UmLteRx) : Bool :=
  (s.vrUrInRxSdu + 1) % s.mod == s.vrUr || s.vrUr == s.vrUrInRxSdu

/-- The end of a round of either loop: `rx_window.erase(vr_ur)` and the next `vr_ur`. -/
def nextSn (s : UmLteRx) : UmLteRx :=
  { s with rxWindow := s.rxWindow.erase s.vrUr, vrUr := (s.vrUr + 1) % s.mod }

/-! #### The loop at the lower edge of the window -/

/-- The SDU segments of the PDU `vr_ur` that have a length indicator. `first` marks the one of
index zero. The result has the bytes of the PDU that are left and the delivered SDUs. -/
def lowerEdgeSegments (fi : Fi) : Bool → List Nat → UmLteRx → Bytes →
    Option (UmLteRx × Bytes × List Bytes)
  | _, [], s, buf => some (s, buf, [])
  | first, len :: lis, s, buf =>
    if s.rxSdu.isEmpty && first && !fi.startAligned then
      -- The `break` drops the segments behind this one as well.
      some ({ s with rxSdu := [] }, buf.drop len, [])
    else
      match copyToSdu s.rxSdu buf len with
      | none => none
      | some sdu =>
        let lost := s.pduLost && !fi.startAligned || s.vrUr != (s.vrUrInRxSdu + 1) % s.mod
        match lowerEdgeSegments fi false lis { s with rxSdu := [], pduLost := false }
            (buf.drop len) with
        | none => none
        | some (s, buf, sdus) => some (s, buf, if lost then sdus else sdu :: sdus)

theorem lowerEdgeSegments_nil (fi : Fi) (first : Bool) (s : UmLteRx) (buf : Bytes) :
    lowerEdgeSegments fi first [] s buf = some (s, buf, []) := by
  rw [lowerEdgeSegments]

/-- The part of both loops behind the copy of the last segment. -/
def endLastSegment (fi : Fi) (s : UmLteRx) : UmLteRx × List Bytes :=
  if fi.endAligned then
    ({ s with rxSdu := [], pduLost := false },
      if s.pduLost && !fi.startAligned then [] else [s.rxSdu])
  else (s, [])

/-- The last segment of the PDU `vr_ur`. -/
def lowerEdgeLast (fi : Fi) (s : UmLteRx) (buf : Bytes) : Option (UmLteRx × List Bytes) :=
  if !s.rxSdu.isEmpty || fi.startAligned then
    match copyToSdu s.rxSdu buf buf.length with
    | none => none
    | some sdu => some (endLastSegment fi { s with rxSdu := sdu, vrUrInRxSdu := s.vrUr })
  else some (s, [])

/-- The PDU `vr_ur` in the loop at the lower edge. -/
def lowerEdgePdu (s : UmLteRx) (pdu : UmdPdu) : Option (UmLteRx × List Bytes) :=
  match lowerEdgeSegments pdu.header.fi true pdu.header.li s pdu.buf with
  | none => none
  | some (s, buf, sdus) =>
    match lowerEdgeLast pdu.header.fi s buf with
    | none => none
    | some (s, sdus') => some (s, sdus ++ sdus')

/-- One round of the loop at the lower edge. -/
def lowerEdgeRound (s : UmLteRx) : Option (UmLteRx × List Bytes) :=
  match s.rxWindow.find? s.vrUr with
  | none => some (nextSn { s with rxSdu := [] }, [])
  | some pdu => (s.lowerEdgePdu pdu).map fun r => (r.1.nextSn, r.2)

/-! #### The loop over the SNs in sequence -/

/-- The SDU segments of the PDU `vr_ur` that have a length indicator. No bytes are left of the PDU
after a `goto clean_up_rx_window`. -/
def inSequenceSegments (fi : Fi) : Bool → List Nat → UmLteRx → Bytes →
    Option (UmLteRx × Option Bytes × List Bytes)
  | _, [], s, buf => some (s, some buf, [])
  | first, len :: lis, s, buf =>
    if s.rxSdu.isEmpty && first && !fi.startAligned then
      if buf.length < len then some (s, none, [])
      else
        inSequenceSegments fi false lis { s with rxSdu := [], pduLost := false } (buf.drop len)
    else if len > bufferTailroom - s.rxSdu.length then some ({ s with rxSdu := [] }, none, [])
    else
      match copyToSdu s.rxSdu buf len with
      | none => none
      | some sdu =>
        -- `pdu_belongs_to_rx_sdu` holds from here on: both variables are `vr_ur`.
        match inSequenceSegments fi false lis
            { s with rxSdu := [], vrUrInRxSdu := s.vrUr, pduLost := false } (buf.drop len) with
        | none => none
        | some (s, buf, sdus) => some (s, buf, sdu :: sdus)

theorem inSequenceSegments_nil (fi : Fi) (first : Bool) (s : UmLteRx) (buf : Bytes) :
    inSequenceSegments fi first [] s buf = some (s, some buf, []) := by
  rw [inSequenceSegments]

/-- The copy of the last segment, unless the SDU would exceed the size of a whole buffer. -/
def appendLast (sdu buf : Bytes) : Option Bytes :=
  if sdu.length + buf.length < maxBufferSizeBytes then copyToSdu sdu buf buf.length else some sdu

/-- The last segment of the PDU `vr_ur`, which has length indicators when `hasLi` is set. -/
def inSequenceLast (fi : Fi) (hasLi : Bool) (s : UmLteRx) (buf : Bytes) :
    Option (UmLteRx × List Bytes) :=
  if s.rxSdu.isEmpty && !hasLi && !fi.startAligned then some ({ s with rxSdu := [] }, [])
  else
    match appendLast s.rxSdu buf with
    | none => none
    | some sdu => some (endLastSegment fi { s with rxSdu := sdu, vrUrInRxSdu := s.vrUr })

/-- The SDU under assembly is dropped when the PDU `vr_ur` does not go on with it. -/
def checkBelongs (s : UmLteRx) : UmLteRx :=
  if s.pduBelongsToRxSdu then s else { s with pduLost := false, rxSdu := [] }

/-- The PDU `vr_ur` in the loop over the SNs in sequence. -/
def inSequencePdu (s : UmLteRx) (pdu : UmdPdu) : Option (UmLteRx × List Bytes) :=
  match inSequenceSegments pdu.header.fi true pdu.header.li s.checkBelongs pdu.buf with
  | none => none
  | some (s, none, sdus) => some (s, sdus)
  | some (s, some buf, sdus) =>
    match inSequenceLast pdu.header.fi (!pdu.header.li.isEmpty) s buf with
    | none => none
    | some (s, sdus') => some (s, sdus ++ sdus')

/-- One round of the loop over the SNs in sequence. -/
def inSequenceRound (s : UmLteRx) : Option (UmLteRx × List Bytes) :=
  match s.rxWindow.find? s.vrUr with
  | none => some (s, [])
  | some pdu => (s.inSequencePdu pdu).map fun r => (r.1.nextSn, r.2)

/-! #### Calls -/

/-- The first loop of `reassemble_rx_sdus`: `vr_ur` catches up with the lower edge. -/
def catchUp (s : UmLteRx) : Option (UmLteRx × List Bytes) :=
  loop (fun s => !s.insideReorderingWindow s.vrUr) lowerEdgeRound s.mod s

/-- The second loop of `reassemble_rx_sdus`, up to an SN that was not received. -/
def advance (s : UmLteRx) : Option (UmLteRx × List Bytes) :=
  loop (fun s => s.rxWindow.contains s.vrUr) inSequenceRound s.rxWindow.size s

/-- `reassemble_rx_sdus` -/
def reassembleRxSdus (s : UmLteRx) : Option (UmLteRx × List Bytes) :=
  match s.catchUp with
  | none => none
  | some (s, sdus) =>
    match s.advance with
    | none => none
    | some (s, sdus') => some (s, sdus ++ sdus')

/-- The part of `handle_data_pdu` that stops t-Reordering. -/
def stopTimer (s : UmLteRx) : UmLteRx :=
  if s.reorderingTimer.isRunning &&
      (decide (s.rxModBase s.vrUx ≤ s.rxModBase s.vrUr) ||
        (!s.insideReorderingWindow s.vrUx && s.vrUx != s.vrUh)) then
    { s with reorderingTimer := s.reorderingTimer.stop }
  else s

/-- The run of t-Reordering for the SNs below `vr_uh`, when one of them is missing. -/
def runTimer (s : UmLteRx) : UmLteRx :=
  if s.rxModBase s.vrUh > s.rxModBase s.vrUr then
    { s with reorderingTimer := .running, vrUx := s.vrUh }
  else s

/-- The part of `handle_data_pdu` that starts t-Reordering. -/
def startTimer (s : UmLteRx) : UmLteRx := if s.reorderingTimer.isRunning then s else s.runTimer

/-- A PDU is written to the window, and `vr_uh` follows it. -/
def place (s : UmLteRx) (pdu : UmdPdu) : UmLteRx :=
  let s := { s with rxWindow := s.rxWindow.insert pdu.header.sn pdu }
  if s.insideReorderingWindow pdu.header.sn then s
  else { s with vrUh := (pdu.header.sn + 1) % s.mod }

/-- The check of `handle_data_pdu` for an SN that precedes `vr_ur`, or is received again. -/
def discards (s : UmLteRx) (sn : Nat) : Bool :=
  decide (s.rxModBase s.windowLow ≤ s.rxModBase sn) &&
    decide (s.rxModBase sn < s.rxModBase s.vrUr) || s.rxWindow.contains sn

/-- The copy of a PDU to a buffer, without its header. `none` when the bytes exceed the buffer, or
the length of the header exceeds the bytes. -/
def stripHeader (header : UmdHeader) (bytes : Bytes) : Option UmdPdu :=
  if bytes.length ≤ bufferTailroom ∧ header.packedLength ≤ bytes.length then
    some ⟨header, bytes.drop header.packedLength⟩
  else none

/-- `handle_data_pdu` -/
def handleDataPdu (s : UmLteRx) (bytes : Bytes) : Option (UmLteRx × List Bytes) :=
  match readUmdHeader s.snSize bytes with
  | none => none
  | some header =>
    if s.discards header.sn then some (s, [])
    else
      match stripHeader header bytes with
      | none => none
      | some pdu =>
        (s.place pdu).reassembleRxSdus.map fun r => (r.1.stopTimer.startTimer, r.2)

/-- One round of the loop of `timer_expired`. -/
def expiryRound (s : UmLteRx) : Option (UmLteRx × List Bytes) :=
  reassembleRxSdus { s with vrUr := (s.vrUr + 1) % s.mod }

/-- The body of `timer_expired`. -/
def passLost (s : UmLteRx) : Option (UmLteRx × List Bytes) :=
  (loop (fun s => decide (s.rxModBase s.vrUr < s.rxModBase s.vrUx)) expiryRound s.mod
    { s with pduLost := true, rxSdu := [] }).map fun r => (r.1.runTimer, r.2)

/-- The expiry of t-Reordering. A timer of length zero has no callback. -/
def timerExpired (s : UmLteRx) : Option (UmLteRx × List Bytes) :=
  if !s.reorderingTimer.isRunning then some (s, [])
  else if s.tReordering = 0 then some ({ s with reorderingTimer := .expired }, [])
  else passLost { s with reorderingTimer := .expired }

/-- `reset` -/
def reset (s : UmLteRx) : UmLteRx :=
  { s with vrUr := 0, vrUx := 0, vrUh := 0, pduLost := false, rxSdu := [], rxWindow := ∅ }

/-- `stop` -/
def stop (s : UmLteRx) : UmLteRx :=
  { s.reset with reorderingTimer := s.reorderingTimer.stop }

/-- `reestablish` -/
def reestablish (s : UmLteRx) : Option (UmLteRx × List Bytes) :=
  if s.reorderingTimer.isRunning then
    (passLost { s with reorderingTimer := s.reorderingTimer.stop }).map fun r => (r.1.reset, r.2)
  else some (s.reset, [])

/-- A call of the receiver. -/
inductive Op where
  | writePdu (bytes : Bytes)
  | timerExpired
  | reestablish
  | stop
deriving DecidableEq, Repr

/-- One call, with the SDUs that it delivers. -/
def step (s : UmLteRx) : Op → Option (UmLteRx × List Bytes)
  | .writePdu bytes => s.handleDataPdu bytes
  | .timerExpired => s.timerExpired
  | .reestablish => s.reestablish
  | .stop => some (s.stop, [])

end UmLteRx

end Odss.Rlc
