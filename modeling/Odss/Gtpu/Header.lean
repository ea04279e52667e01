import Odss.Common.IntHelpers

/-!
# `Odss.Gtpu.Header`: GTP-U headers in front of a payload

The model of `gtpu_write_header` and `gtpu_read_header` (`lib/include/srsran/upper/gtpu.h`,
`lib/src/gtpu/gtpu.cc`). A buffer is its whole array with the place of `msg` in it. The result is
`none` where bytes outside of the array are read or written. Log output is left out.
-/

set_option linter.all false

namespace Odss.Gtpu

open Odss.Common
open Odss.Rlc (Bytes subU32)

/-! ### Buffers -/

/-- `byte_buffer_t`, with `msg` as an index of `buffer`. -/
structure ByteBuffer where
  buffer : Bytes
  msg : Nat
  nBytes : Nat
deriving DecidableEq, Repr

namespace ByteBuffer

/-- `get_headroom` -/
def getHeadroom (pdu : ByteBuffer) : Nat := pdu.msg

/-- The bytes from `msg` on. -/
def payload (pdu : ByteBuffer) : Bytes := (pdu.buffer.drop pdu.msg).take pdu.nBytes

/-- `msg -= n` and `N_bytes += n`, as far as the array reaches. -/
def grow (pdu : ByteBuffer) (n : Nat) : Option ByteBuffer :=
  if n ≤ pdu.msg then some { pdu with msg := pdu.msg - n, nBytes := (pdu.nBytes + n) % 2 ^ 32 }
  else none

/-- `msg += n` and `N_bytes -= n` -/
def skip (pdu : ByteBuffer) (n : Nat) : ByteBuffer :=
  { pdu with msg := pdu.msg + n, nBytes := subU32 pdu.nBytes n }

/-- Bytes that are written one behind the other from `ptr` on. -/
def writeAt (pdu : ByteBuffer) (ptr : Nat) (bytes : Bytes) : Option ByteBuffer :=
  if ptr + bytes.length ≤ pdu.buffer.length then
    some { pdu with
      buffer := pdu.buffer.take ptr ++ bytes ++ pdu.buffer.drop (ptr + bytes.length) }
  else none

end ByteBuffer

/-! ### Headers -/

abbrev gtpuBaseHeaderLen : Nat := 8
abbrev gtpuExtendedHeaderLen : Nat := 12

abbrev gtpuFlagsVersionMask : UInt8 := 0xE0
abbrev gtpuFlagsVersionV1 : UInt8 := 0x20
abbrev gtpuFlagsGtpProtocol : UInt8 := 0x10
abbrev gtpuFlagsExtendedHdr : UInt8 := 0x04
abbrev gtpuFlagsSequence : UInt8 := 0x02
abbrev gtpuFlagsPacketNum : UInt8 := 0x01

abbrev gtpuMsgEchoRequest : UInt8 := 1
abbrev gtpuMsgEchoResponse : UInt8 := 2
abbrev gtpuMsgErrorIndication : UInt8 := 26
abbrev gtpuMsgEndMarker : UInt8 := 254
abbrev gtpuMsgDataPdu : UInt8 := 255

abbrev gtpuExtHeaderPdcpPduNumber : UInt8 := 0b11000000
abbrev gtpuExtHeaderPduSessionContainer : UInt8 := 0x85
abbrev gtpuExtHeaderPduSessionContainerLen : Nat := 4
abbrev headerPdcpPduNumberSize : Nat := 4

/-- `gtpu_header_t` -/
structure GtpuHeader where
  flags : UInt8
  messageType : UInt8
  length : UInt16
  teid : UInt32
  seqNumber : UInt16
  nPdu : UInt8
  nextExtHdrType : UInt8
  extBuffer : Bytes
deriving DecidableEq, Repr

namespace GtpuHeader

/-- A header that has been constructed. -/
def init : GtpuHeader := ⟨0, 0, 0, 0, 0, 0, 0, []⟩

/-- One flag of a header. -/
def has (header : GtpuHeader) (flag : UInt8) : Bool := header.flags &&& flag ≠ 0

/-- The test for a header that is longer, since E, S or PN are set. -/
def isExtended (header : GtpuHeader) : Bool :=
  header.has (gtpuFlagsExtendedHdr ||| gtpuFlagsSequence ||| gtpuFlagsPacketNum)

end GtpuHeader

/-- `gtpu_supported_flags_check` -/
def gtpuSupportedFlagsCheck (header : GtpuHeader) : Bool :=
  if header.flags &&& gtpuFlagsVersionMask ≠ gtpuFlagsVersionV1 then false
  else if !header.has gtpuFlagsGtpProtocol then false
  else if header.has gtpuFlagsPacketNum then false
  else true

/-- `gtpu_supported_msg_type_check` -/
def gtpuSupportedMsgTypeCheck (header : GtpuHeader) : Bool :=
  if header.messageType ≠ gtpuMsgDataPdu ∧ header.messageType ≠ gtpuMsgEchoRequest ∧
      header.messageType ≠ gtpuMsgEchoResponse ∧ header.messageType ≠ gtpuMsgErrorIndication ∧
      header.messageType ≠ gtpuMsgEndMarker then false
  else true

/-! ### Writing -/

/-- The mandatory fields. -/
def mandatoryFields (header : GtpuHeader) : Bytes :=
  [header.flags, header.messageType] ++ uint16ToUint8 header.length ++ uint32ToUint8 header.teid

/-- The optional fields, with an extension behind them if E is set. -/
def optionalFields (header : GtpuHeader) : Bytes :=
  uint16ToUint8 (if header.has gtpuFlagsSequence then header.seqNumber else 0) ++
    [if header.has gtpuFlagsPacketNum then header.nPdu else 0] ++
    if header.has gtpuFlagsExtendedHdr then header.nextExtHdrType :: header.extBuffer else [0]

/-- `gtpu_write_header`, with the header as it is left. -/
def gtpuWriteHeader (header : GtpuHeader) (pdu : ByteBuffer) :
    Option (Bool × GtpuHeader × ByteBuffer) :=
  if !gtpuSupportedFlagsCheck header then some (false, header, pdu)
  else if !gtpuSupportedMsgTypeCheck header then some (false, header, pdu)
  else if header.isExtended then
    if pdu.getHeadroom < gtpuExtendedHeaderLen then some (false, header, pdu)
    else do
      let pdu ← pdu.grow gtpuExtendedHeaderLen
      let header := { header with
        length := header.length + (gtpuExtendedHeaderLen - gtpuBaseHeaderLen).toUInt16 }
      -- The room for the extension depends on its type, and not on E.
      let (header, pdu) ←
        if header.nextExtHdrType > 0 then do
          let pdu ← pdu.grow header.extBuffer.length
          pure ({ header with length := header.length + header.extBuffer.length.toUInt16 }, pdu)
        else pure (header, pdu)
      let pdu ← pdu.writeAt pdu.msg (mandatoryFields header ++ optionalFields header)
      pure (true,
        { header with nPdu := if header.has gtpuFlagsPacketNum then header.nPdu else 0 }, pdu)
  else if pdu.getHeadroom < gtpuBaseHeaderLen then some (false, header, pdu)
  else do
    let pdu ← pdu.grow gtpuBaseHeaderLen
    let pdu ← pdu.writeAt pdu.msg (mandatoryFields header)
    pure (true, header, pdu)

/-! ### Reading -/

/-- The variables of a reader. The bytes below `ptr` have been read. -/
structure Reader where
  pdu : ByteBuffer
  ptr : Nat
  header : GtpuHeader
deriving DecidableEq, Repr

/-- `*ptr; ptr++`, once for each of `n` bytes. -/
def Reader.take (r : Reader) (n : Nat) : Option (Bytes × Reader) :=
  if r.ptr + n ≤ r.pdu.buffer.length then
    some ((r.pdu.buffer.drop r.ptr).take n, { r with ptr := r.ptr + n })
  else none

/-- `gtpu_read_ext_header` -/
def gtpuReadExtHeader (r : Reader) : Option (Bool × Reader) :=
  if !r.header.has gtpuFlagsExtendedHdr ∨ r.header.nextExtHdrType = 0 then some (true, r)
  else if r.header.nextExtHdrType = gtpuExtHeaderPdcpPduNumber then do
    let (bytes, r) ← { r with pdu := r.pdu.skip headerPdcpPduNumberSize }.take
      headerPdcpPduNumberSize
    pure (true, { r with header.extBuffer := bytes })
  else if r.header.nextExtHdrType = gtpuExtHeaderPduSessionContainer then
    some (true, { r with pdu := r.pdu.skip gtpuExtHeaderPduSessionContainerLen })
  else some (false, r)

/-- The mandatory fields of `gtpu_read_header`. -/
def readMandatory (r : Reader) : Option Reader := do
  let (bytes, r) ← r.take gtpuBaseHeaderLen
  let at' (i : Nat) : UInt8 := bytes.getD i 0
  pure { r with header := { r.header with
    flags := at' 0
    messageType := at' 1
    length := uint8ToUint16 (at' 2) (at' 3)
    teid := uint8ToUint32 (at' 4) (at' 5) (at' 6) (at' 7) } }

/-- The optional fields of `gtpu_read_header`. -/
def readOptional (r : Reader) : Option Reader := do
  let (bytes, r) ← { r with pdu := r.pdu.skip gtpuExtendedHeaderLen }.take
    (gtpuExtendedHeaderLen - gtpuBaseHeaderLen)
  let at' (i : Nat) : UInt8 := bytes.getD i 0
  pure { r with header := { r.header with
    seqNumber := uint8ToUint16 (at' 0) (at' 1)
    nPdu := at' 2
    nextExtHdrType := at' 3 } }

/-- `gtpu_read_header`, with the variables as they are left. -/
def gtpuReadHeader (pdu : ByteBuffer) (header : GtpuHeader) : Option (Bool × Reader) := do
  let r ← readMandatory ⟨pdu, pdu.msg, header⟩
  if !gtpuSupportedFlagsCheck r.header then pure (false, r)
  else if !gtpuSupportedMsgTypeCheck r.header then pure (false, r)
  else if r.header.isExtended then do
    let r ← readOptional r
    gtpuReadExtHeader r
  else pure (true, { r with pdu := r.pdu.skip gtpuBaseHeaderLen })

end Odss.Gtpu
