import Odss.Rlc.AmTypes
import Odss.Rlc.UmNr

/-!
# `Odss.Rlc.AmNrCodec`: the PDU headers of NR RLC AM

The model of the header functions of `lib/src/rlc/rlc_am_nr.cc`. A `byte_buffer_t` is its memory
with the position of `msg`, because the writer of a data header goes into the headroom and the
readers look at the memory and not at the number of bytes. An enumerator `nulltype` is left out.
So are `nack_range`, which no function reads, and the return value of the two status functions,
which is always 0.
-/

set_option linter.all false

namespace Odss.Rlc

/-! ### Buffers -/

/-- `byte_buffer_t` -/
structure ByteBuffer where
  buffer : Nat → UInt8
  msg : Nat
  nBytes : Nat

namespace ByteBuffer

/-- The memory behind `msg`. -/
def payload (pdu : ByteBuffer) (i : Nat) : UInt8 := pdu.buffer (pdu.msg + i)

/-- The memory after `bytes` were written from `ptr` on. -/
def put (buffer : Nat → UInt8) (ptr : Nat) (bytes : Bytes) (i : Nat) : UInt8 :=
  if i < ptr then buffer i else bytes.getD (i - ptr) (buffer i)

theorem put_add (buffer : Nat → UInt8) (ptr : Nat) (bytes : Bytes) (i : Nat) :
    put buffer ptr bytes (ptr + i) = bytes.getD i (buffer (ptr + i)) := by
  rw [put, if_neg (by omega), Nat.add_sub_cancel_left]

end ByteBuffer

/-! ### Data PDUs -/

/-- `rlc_am_nr_sn_size_t` -/
inductive AmNrSnSize where
  | size12bits
  | size18bits
deriving DecidableEq, Repr

/-- The number of bits of an SN. -/
def AmNrSnSize.bits : AmNrSnSize → Nat
  | .size12bits => 12
  | .size18bits => 18

/-- `rlc_dc_field_t` -/
inductive DcField where
  | controlPdu
  | dataPdu
deriving DecidableEq, Repr

/-- The bit of the field. -/
def DcField.toBit : DcField → Nat
  | .controlPdu => 0
  | .dataPdu => 1

/-- The field of a bit. -/
def DcField.ofBit (n : Nat) : DcField := if n % 2 = 0 then .controlPdu else .dataPdu

/-- `rlc_am_nr_pdu_header_t` -/
structure AmNrHeader where
  dc : DcField
  p : Nat
  si : SiField
  snSize : AmNrSnSize
  sn : Nat
  so : Nat
deriving DecidableEq, Repr

namespace AmNrHeader

/-- A header that is initialised with zeros. -/
def zero : AmNrHeader := ⟨.controlPdu, 0, .fullSdu, .size12bits, 0, 0⟩

/-- `rlc_am_nr_packed_length` -/
def packedLength (header : AmNrHeader) : Nat :=
  if header.si = .fullSdu ∨ header.si = .firstSegment then
    2 + (if header.snSize = .size18bits then 1 else 0)
  else 4 + (if header.snSize = .size18bits then 1 else 0)

/-- The bits of the first byte in front of the SN. -/
def flags (header : AmNrHeader) : Nat :=
  header.dc.toBit * 128 + header.p % 2 * 64 + header.si.toBits * 16

/-- The bytes that `rlc_am_nr_write_data_pdu_header` writes. -/
def bytes (header : AmNrHeader) : Bytes :=
  (match header.snSize with
  | .size12bits =>
    [UInt8.ofNat (header.flags + header.sn / 256 % 16), UInt8.ofNat (header.sn % 256)]
  | .size18bits =>
    [UInt8.ofNat (header.flags + header.sn / 65536 % 4), UInt8.ofNat (header.sn / 256 % 256),
      UInt8.ofNat (header.sn % 256)]) ++
  (if header.so ≠ 0 then [UInt8.ofNat (header.so / 256), UInt8.ofNat (header.so % 256)] else [])

/-- `rlc_am_nr_write_data_pdu_header`, with the length that it returns. -/
def write (header : AmNrHeader) (pdu : ByteBuffer) : ByteBuffer × Nat :=
  let len := header.packedLength
  (⟨ByteBuffer.put pdu.buffer (pdu.msg - len) header.bytes, pdu.msg - len,
    pdu.nBytes + header.bytes.length⟩, len)

/-- The optional part of `rlc_am_nr_read_data_pdu_header`, from `ptr` on. -/
def readSo (payload : Nat → UInt8) (header : AmNrHeader) (ptr : Nat) : AmNrHeader × Nat :=
  if header.si = .lastSegment ∨ header.si = .neitherFirstNorLastSegment then
    ({ header with so := (payload ptr).toNat * 256 + (payload (ptr + 1)).toNat }, ptr + 2)
  else (header, ptr)

/-- `rlc_am_nr_read_data_pdu_header` into `header`, with the number of consumed bytes. -/
def read (payload : Nat → UInt8) (snSize : AmNrSnSize) (header : AmNrHeader) : AmNrHeader × Nat :=
  let b := (payload 0).toNat
  let header := { header with
    snSize := snSize
    dc := DcField.ofBit (b / 128)
    p := b / 64 % 2
    si := SiField.ofBits (b / 16) }
  match snSize with
  | .size12bits =>
    readSo payload { header with sn := b % 16 * 256 + (payload 1).toNat } 2
  | .size18bits =>
    if b / 4 % 4 ≠ 0 then (header, 0)
    else readSo payload { header with
      sn := b % 4 * 65536 + (payload 1).toNat * 256 + (payload 2).toNat } 3

end AmNrHeader

/-! ### Status PDUs -/

/-- `rlc_am_nr_status_pdu_t`. `nacks` has the `N_nack` entries in use. -/
structure AmNrStatus where
  cpt : Nat
  ackSn : Nat
  nacks : List StatusNack
deriving DecidableEq, Repr

namespace AmNrStatus

/-- A status PDU that is initialised with zeros. -/
def zero : AmNrStatus := ⟨0, 0, []⟩

/-- The bytes that `rlc_am_nr_write_status_pdu` writes. -/
def bytes (status : AmNrStatus) : AmNrSnSize → Bytes
  | .size12bits =>
    [UInt8.ofNat (status.ackSn / 256 % 16), UInt8.ofNat (status.ackSn % 256)] ++
    (match status.nacks with
    | [] => [0]
    | nack :: _ =>
      -- Of the last four bits, the others are sent.
      [128, UInt8.ofNat (nack.nackSn / 16 % 256), UInt8.ofNat (nack.nackSn / 16 % 16 * 16)])
  | .size18bits =>
    [UInt8.ofNat (status.ackSn / 16384 % 16), UInt8.ofNat (status.ackSn / 256 % 256),
      UInt8.ofNat (status.ackSn % 256)]

/-- `rlc_am_nr_write_status_pdu` -/
def write (status : AmNrStatus) (snSize : AmNrSnSize) (pdu : ByteBuffer) : ByteBuffer :=
  { pdu with
    buffer := ByteBuffer.put pdu.buffer pdu.msg (status.bytes snSize)
    nBytes := (status.bytes snSize).length }

/-- `rlc_am_nr_read_status_pdu` into `status`. -/
def read (payload : Nat → UInt8) (snSize : AmNrSnSize) (status : AmNrStatus) : AmNrStatus :=
  let b := (payload 0).toNat
  let status := { status with cpt := b / 16 % 8 }
  if status.cpt ≠ 0 then status
  else
    match snSize with
    | .size12bits =>
      let status := { status with ackSn := b % 16 * 256 + (payload 1).toNat }
      if (payload 2).toNat % 128 ≠ 0 then status
      else if (payload 2).toNat / 128 = 0 then { status with nacks := [] }
      else { status with
        nacks := [⟨(payload 3).toNat * 16 + (payload 4).toNat / 16, false, 0, 0⟩] }
    | .size18bits => status

end AmNrStatus

end Odss.Rlc
