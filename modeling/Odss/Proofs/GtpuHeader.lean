import Odss.Gtpu.Header
import Mathlib.Data.List.GetD

/-!
# `Odss.Proofs.GtpuHeader`: GTP-U headers that are written and read

A header that is written in front of a payload is read back, with the payload behind it as it was.
A datagram from the network is read within its bytes only if it is as long as its header says.

* `readMandatory_datagram` and `readOptional_datagram` are the two parts of a header.
* `reads_within_iff` is the reader on any datagram, and `comesBack_iff` the two sides together.
* `header_iff` is the result.
-/

set_option linter.all false

namespace Odss.Gtpu

open Odss.Common
open Odss.Rlc (Bytes subU32)

/-! ### Statements -/

/-- A buffer of which `datagram` is what `msg` and `N_bytes` say. -/
def ByteBuffer.holding (room datagram rest : Bytes) : ByteBuffer :=
  ⟨room ++ datagram ++ rest, room.length, datagram.length⟩

/-- The headers that a sender builds: of the supported version, protocol and message types, and with E
either without an extension or with the four bytes of a PDCP PDU number. -/
def Sendable (header : GtpuHeader) : Prop :=
  header.flags &&& gtpuFlagsVersionMask = gtpuFlagsVersionV1 ∧
    header.has gtpuFlagsGtpProtocol = true ∧
    gtpuSupportedMsgTypeCheck header = true ∧
    (header.has gtpuFlagsExtendedHdr = true →
      header.nextExtHdrType = 0 ∨
        header.nextExtHdrType = gtpuExtHeaderPdcpPduNumber ∧
          header.extBuffer.length = headerPdcpPduNumberSize)

/-- The bytes that a header takes in front of the payload. -/
def headerLen (header : GtpuHeader) : Nat :=
  if header.isExtended then
    gtpuExtendedHeaderLen + if header.nextExtHdrType > 0 then header.extBuffer.length else 0
  else gtpuBaseHeaderLen

/-- The header `read` says what `header` says. -/
def Agrees (header read : GtpuHeader) : Prop :=
  read.flags = header.flags ∧ read.messageType = header.messageType ∧ read.teid = header.teid ∧
    (header.has gtpuFlagsSequence = true → read.seqNumber = header.seqNumber) ∧
    (header.has gtpuFlagsPacketNum = true → read.nPdu = header.nPdu) ∧
    (header.has gtpuFlagsExtendedHdr = true →
      read.nextExtHdrType = header.nextExtHdrType ∧ read.extBuffer = header.extBuffer)

/-- The header is written in front of the payload and read again, and the payload is left. -/
def ComesBack (header : GtpuHeader) (room payload rest : Bytes) : Prop :=
  ∃ header' pdu r,
    gtpuWriteHeader header (.holding room payload rest) = some (true, header', pdu) ∧
    gtpuReadHeader pdu .init = some (true, r) ∧ Agrees header r.header ∧
    r.pdu.msg = room.length ∧ r.pdu.nBytes = payload.length ∧ r.pdu.payload = payload

/-- The reader of a datagram stays within it: with the bytes that it reads, with `msg`, and with
`N_bytes`, which still ends where the datagram ends. -/
def StaysWithin (pdu : ByteBuffer) (header : GtpuHeader) : Prop :=
  ∃ ok r, gtpuReadHeader pdu header = some (ok, r) ∧
    r.ptr ≤ pdu.msg + pdu.nBytes ∧ r.pdu.msg ≤ pdu.msg + pdu.nBytes ∧
    r.pdu.msg + r.pdu.nBytes = pdu.msg + pdu.nBytes

/-- The fields of the header are consistent: no N-PDU number, an extension type without E only if
there are no bytes for it, and no bytes without an extension type. -/
def Consistent (header : GtpuHeader) : Prop :=
  header.has gtpuFlagsPacketNum = false ∧
    (header.isExtended = true →
      (header.has gtpuFlagsExtendedHdr = true ↔ header.nextExtHdrType > 0) ∨
        header.extBuffer = [])

instance (header : GtpuHeader) : Decidable (Consistent header) :=
  inferInstanceAs (Decidable (_ ∧ _))

/-- The length of the header that the first bytes of a datagram announce. -/
def announcedLen (datagram : Bytes) : Nat :=
  let header := { GtpuHeader.init with
    flags := datagram.getD 0 0
    messageType := datagram.getD 1 0
    nextExtHdrType := datagram.getD 11 0 }
  if !gtpuSupportedFlagsCheck header ∨ !gtpuSupportedMsgTypeCheck header ∨ !header.isExtended then
    gtpuBaseHeaderLen
  else if header.has gtpuFlagsExtendedHdr ∧
      (header.nextExtHdrType = gtpuExtHeaderPdcpPduNumber ∨
        header.nextExtHdrType = gtpuExtHeaderPduSessionContainer) then
    gtpuExtendedHeaderLen + 4
  else gtpuExtendedHeaderLen

/-! ### Flags -/

theorem isExtended_iff (header : GtpuHeader) :
    header.isExtended = true ↔ header.has gtpuFlagsExtendedHdr = true ∨
      header.has gtpuFlagsSequence = true ∨ header.has gtpuFlagsPacketNum = true := by
  have hall : ∀ x : Fin 256, (UInt8.ofNat x.val &&& (0x04 ||| 0x02 ||| 0x01) ≠ 0) ↔
      (UInt8.ofNat x.val &&& 0x04 ≠ 0) ∨ (UInt8.ofNat x.val &&& 0x02 ≠ 0) ∨
        (UInt8.ofNat x.val &&& 0x01 ≠ 0) := by
    decide +kernel
  have h := hall ⟨header.flags.toNat, UInt8.toNat_lt _⟩
  rw [UInt8.ofNat_toNat] at h
  simpa [GtpuHeader.isExtended, GtpuHeader.has] using h

/-! ### Bytes of a datagram -/

theorem getD_datagram (room : Bytes) {datagram : Bytes} (rest : Bytes) {i n j : Nat} (hj : j < n)
    (hfit : i + j < datagram.length) :
    (((room ++ datagram ++ rest).drop (room.length + i)).take n).getD j 0 =
      datagram.getD (i + j) 0 := by
  rw [List.getD_eq_getElem?_getD, List.getD_eq_getElem?_getD, List.getElem?_take_of_lt hj,
    List.getElem?_drop, List.append_assoc, Nat.add_assoc,
    List.getElem?_append_right (Nat.le_add_right _ _), Nat.add_sub_cancel_left,
    List.getElem?_append_left hfit]

/-- The mandatory fields of a datagram. -/
def baseHeader (header : GtpuHeader) (d : Bytes) : GtpuHeader :=
  { header with
    flags := d.getD 0 0
    messageType := d.getD 1 0
    length := uint8ToUint16 (d.getD 2 0) (d.getD 3 0)
    teid := uint8ToUint32 (d.getD 4 0) (d.getD 5 0) (d.getD 6 0) (d.getD 7 0) }

/-- The optional fields as well. -/
def fullHeader (header : GtpuHeader) (d : Bytes) : GtpuHeader :=
  { baseHeader header d with
    seqNumber := uint8ToUint16 (d.getD 8 0) (d.getD 9 0)
    nPdu := d.getD 10 0
    nextExtHdrType := d.getD 11 0 }

section Datagram

variable (room datagram rest : Bytes) (n : Nat) (header : GtpuHeader)

theorem take_datagram (pdu : ByteBuffer) (hpdu : pdu.buffer = room ++ datagram ++ rest) {i k : Nat}
    (hfit : i + k ≤ datagram.length) :
    (Reader.mk pdu (room.length + i) header).take k =
      some (((room ++ datagram ++ rest).drop (room.length + i)).take k,
        ⟨pdu, room.length + i + k, header⟩) := by
  have hin : room.length + i + k ≤ pdu.buffer.length := by
    rw [hpdu, List.length_append, List.length_append]
    omega
  rw [Reader.take, if_pos hin, hpdu]

theorem readMandatory_datagram (hfit : 8 ≤ datagram.length) :
    readMandatory ⟨⟨room ++ datagram ++ rest, room.length, n⟩, room.length, header⟩ =
      some ⟨⟨room ++ datagram ++ rest, room.length, n⟩, room.length + 8,
        baseHeader header datagram⟩ := by
  have htake := take_datagram room datagram rest header
    ⟨room ++ datagram ++ rest, room.length, n⟩ rfl (i := 0) (k := 8) (by omega)
  have hbyte (j : Nat) (hj : j < 8) :=
    getD_datagram room rest (i := 0) hj (by omega : 0 + j < datagram.length)
  simp only [Nat.add_zero, Nat.zero_add] at htake hbyte
  simp only [readMandatory, htake, Option.bind_eq_bind, Option.bind_some, hbyte, Nat.reduceLT]
  rfl

theorem readOptional_datagram (hfit : 12 ≤ datagram.length) :
    readOptional ⟨⟨room ++ datagram ++ rest, room.length, n⟩, room.length + 8,
        baseHeader header datagram⟩ =
      some ⟨⟨room ++ datagram ++ rest, room.length + 12, subU32 n 12⟩, room.length + 12,
        fullHeader header datagram⟩ := by
  have htake := take_datagram room datagram rest (baseHeader header datagram)
    ⟨room ++ datagram ++ rest, room.length + 12, subU32 n 12⟩ rfl (i := 8) (k := 4)
    (by omega)
  have hbyte (j : Nat) (hj : j < 4) :=
    getD_datagram room rest (i := 8) hj (by omega : 8 + j < datagram.length)
  simp only [readOptional, ByteBuffer.skip, gtpuExtendedHeaderLen, gtpuBaseHeaderLen, Nat.reduceSub,
    htake, Option.bind_eq_bind, Option.bind_some, hbyte, Nat.reduceLT]
  rfl

/-- A datagram whose header goes no further than the mandatory fields. -/
theorem gtpuReadHeader_short (hfit : 8 ≤ datagram.length)
    (hext : (baseHeader header datagram).isExtended = false ∨
      gtpuSupportedFlagsCheck (baseHeader header datagram) = false ∨
      gtpuSupportedMsgTypeCheck (baseHeader header datagram) = false) :
    ∃ ok, gtpuReadHeader ⟨room ++ datagram ++ rest, room.length, n⟩ header =
      some (ok, ⟨if ok then ⟨room ++ datagram ++ rest, room.length + 8, subU32 n 8⟩
        else ⟨room ++ datagram ++ rest, room.length, n⟩, room.length + 8,
        baseHeader header datagram⟩) ∧
      ok = (gtpuSupportedFlagsCheck (baseHeader header datagram) &&
        gtpuSupportedMsgTypeCheck (baseHeader header datagram)) := by
  rw [gtpuReadHeader, readMandatory_datagram room datagram rest n header hfit]
  simp only [Option.bind_eq_bind, Option.bind_some]
  cases hflags : gtpuSupportedFlagsCheck (baseHeader header datagram) with
  | false => exact ⟨false, rfl, rfl⟩
  | true =>
    cases htype : gtpuSupportedMsgTypeCheck (baseHeader header datagram) with
    | false => exact ⟨false, rfl, rfl⟩
    | true =>
      have hbase : (baseHeader header datagram).isExtended = false := by simpa [hflags, htype] using hext
      rw [hbase]
      exact ⟨true, rfl, rfl⟩

/-- A datagram with the optional fields. -/
theorem gtpuReadHeader_extended (hfit : 12 ≤ datagram.length)
    (hflags : gtpuSupportedFlagsCheck (baseHeader header datagram) = true)
    (htype : gtpuSupportedMsgTypeCheck (baseHeader header datagram) = true)
    (hext : (baseHeader header datagram).isExtended = true) :
    gtpuReadHeader ⟨room ++ datagram ++ rest, room.length, n⟩ header =
      gtpuReadExtHeader ⟨⟨room ++ datagram ++ rest, room.length + 12, subU32 n 12⟩,
        room.length + 12, fullHeader header datagram⟩ := by
  rw [gtpuReadHeader, readMandatory_datagram room datagram rest n header (by omega)]
  simp only [Option.bind_eq_bind, Option.bind_some, hflags, htype, hext, Bool.not_true,
    Bool.false_eq_true, if_false, if_true]
  rw [readOptional_datagram room datagram rest n header hfit]
  rfl

end Datagram

/-! ### Reading within a datagram -/

theorem ptr_of_take {r r' : Reader} {bytes : Bytes} {n : Nat} (h : r.take n = some (bytes, r')) :
    r'.ptr = r.ptr + n := by
  rw [Reader.take] at h
  split at h
  · cases h; rfl
  · cases h

theorem ptr_of_readMandatory {r r' : Reader} (h : readMandatory r = some r') :
    r'.ptr = r.ptr + 8 := by
  obtain ⟨⟨bytes, s⟩, hs, heq⟩ := Option.bind_eq_some_iff.mp h
  cases heq
  have hptr := ptr_of_take hs
  exact hptr

theorem ptr_of_readOptional {r r' : Reader} (h : readOptional r = some r') :
    r'.ptr = r.ptr + 4 := by
  obtain ⟨⟨bytes, s⟩, hs, heq⟩ := Option.bind_eq_some_iff.mp h
  cases heq
  have hptr := ptr_of_take hs
  exact hptr

theorem ptr_of_gtpuReadExtHeader {r r' : Reader} {ok : Bool}
    (h : gtpuReadExtHeader r = some (ok, r')) : r.ptr ≤ r'.ptr := by
  rw [gtpuReadExtHeader] at h
  split at h
  · cases h; exact Nat.le_refl _
  · split at h
    · obtain ⟨⟨bytes, s⟩, hs, heq⟩ := Option.bind_eq_some_iff.mp h
      cases heq
      have hptr := ptr_of_take hs
      show r.ptr ≤ s.ptr
      rw [hptr]
      exact Nat.le_add_right _ _
    · split at h <;> (cases h; exact Nat.le_refl _)

/-- The reader takes the mandatory fields of every datagram, and the optional ones where the first
bytes say that there are some. -/
theorem ptr_of_gtpuReadHeader {pdu : ByteBuffer} {header : GtpuHeader} {ok : Bool} {r : Reader}
    (h : gtpuReadHeader pdu header = some (ok, r)) :
    pdu.msg + 8 ≤ r.ptr ∧
      ∀ base, readMandatory ⟨pdu, pdu.msg, header⟩ = some base →
        gtpuSupportedFlagsCheck base.header = true → gtpuSupportedMsgTypeCheck base.header = true →
        base.header.isExtended = true → pdu.msg + 12 ≤ r.ptr := by
  obtain ⟨base, hbase, h⟩ := Option.bind_eq_some_iff.mp h
  have hptr : base.ptr = pdu.msg + 8 := ptr_of_readMandatory hbase
  -- What the optional fields add where they are read.
  have hopt (full : Reader) (hfull : readOptional base = some full)
      (hread : gtpuReadExtHeader full = some (ok, r)) : pdu.msg + 12 ≤ r.ptr := by
    have hfullPtr := ptr_of_readOptional hfull
    have hle := ptr_of_gtpuReadExtHeader hread
    omega
  split at h
  · rename_i hflags
    cases h
    refine ⟨by omega, ?_⟩
    intro base' hbase' hflags'
    rw [hbase] at hbase'
    cases hbase'
    simp [hflags'] at hflags
  · split at h
    · rename_i htype
      cases h
      refine ⟨by omega, ?_⟩
      intro base' hbase' _ htype'
      rw [hbase] at hbase'
      cases hbase'
      simp [htype'] at htype
    · split at h
      · obtain ⟨full, hfull, hread⟩ := Option.bind_eq_some_iff.mp h
        have hle := hopt full hfull hread
        exact ⟨by omega, fun _ _ _ _ _ => hle⟩
      · rename_i hext
        cases h
        refine ⟨by show pdu.msg + 8 ≤ base.ptr; omega, ?_⟩
        intro base' hbase' _ _ hext'
        rw [hbase] at hbase'
        cases hbase'
        simp [hext'] at hext

section Within

variable (room datagram rest : Bytes) (header : GtpuHeader)

/-- The datagram has a header with optional fields. -/
def HasOptional (datagram : Bytes) : Prop :=
  gtpuSupportedFlagsCheck (baseHeader .init datagram) = true ∧
    gtpuSupportedMsgTypeCheck (baseHeader .init datagram) = true ∧
    (baseHeader .init datagram).isExtended = true

/-- The datagram has four more bytes of an extension that the reader knows. -/
def HasExtension (datagram : Bytes) : Prop :=
  (baseHeader .init datagram).has gtpuFlagsExtendedHdr = true ∧
    (datagram.getD 11 0 = gtpuExtHeaderPdcpPduNumber ∨
      datagram.getD 11 0 = gtpuExtHeaderPduSessionContainer)

instance : Decidable (HasExtension datagram) := inferInstanceAs (Decidable (_ ∧ _))

theorem announcedLen_le_iff : announcedLen datagram ≤ datagram.length ↔
    8 ≤ datagram.length ∧ (HasOptional datagram →
      12 ≤ datagram.length ∧ (HasExtension datagram → 16 ≤ datagram.length)) := by
  rw [announcedLen]
  show (if !gtpuSupportedFlagsCheck (baseHeader .init datagram) ∨
      !gtpuSupportedMsgTypeCheck (baseHeader .init datagram) ∨
      !(baseHeader .init datagram).isExtended then 8
    else if HasExtension datagram then 16 else 12) ≤ datagram.length ↔ _
  by_cases hopt : HasOptional datagram
  · rw [if_neg (by simp [hopt.1, hopt.2.1, hopt.2.2])]
    by_cases hext : HasExtension datagram
    · rw [if_pos hext]
      simp only [hopt, hext, true_imp_iff]
      omega
    · rw [if_neg hext]
      simp only [hopt, hext, true_imp_iff, false_imp_iff, and_true]
      omega
  · rw [if_pos]
    · simp [hopt]
    · by_contra hno
      simp only [Bool.not_eq_true', not_or, Bool.not_eq_false] at hno
      exact hopt hno

/-- The extension of a header that has been read as far as its optional fields. -/
theorem gtpuReadExtHeader_datagram (hfit : 12 ≤ datagram.length)
    (hlen : datagram.length < 2 ^ 32) :
    (∃ ok r, gtpuReadExtHeader ⟨⟨room ++ datagram ++ rest, room.length + 12,
        subU32 datagram.length 12⟩, room.length + 12, fullHeader header datagram⟩ = some (ok, r) ∧
      r.ptr ≤ room.length + datagram.length ∧ r.pdu.msg ≤ room.length + datagram.length ∧
      r.pdu.msg + r.pdu.nBytes = room.length + datagram.length) ↔
    (HasExtension datagram → 16 ≤ datagram.length) := by
  have hE : (fullHeader header datagram).has gtpuFlagsExtendedHdr =
      (baseHeader .init datagram).has gtpuFlagsExtendedHdr := rfl
  have hnext : (fullHeader header datagram).nextExtHdrType = datagram.getD 11 0 := rfl
  have hskip : subU32 datagram.length 12 = datagram.length - 12 := if_pos hfit
  have hskip' : 16 ≤ datagram.length → subU32 (datagram.length - 12) 4 = datagram.length - 16 := by
    intro h16
    rw [subU32, if_pos (by omega)]
    omega
  rw [gtpuReadExtHeader, hE, hnext, hskip]
  by_cases hnone : (!(baseHeader .init datagram).has gtpuFlagsExtendedHdr) = true ∨
      datagram.getD 11 0 = 0
  · rw [if_pos hnone]
    have hext : ¬ HasExtension datagram := by
      intro hext
      rcases hnone with h | h
      · simp [hext.1] at h
      · rcases hext.2 with h' | h' <;> (rw [h] at h'; revert h'; decide)
    simp only [hext, false_imp_iff, iff_true]
    refine ⟨true, _, rfl, ?_, ?_, ?_⟩ <;> simp only <;> omega
  · rw [if_neg hnone]
    have hE : (baseHeader .init datagram).has gtpuFlagsExtendedHdr = true := by
      simpa using (not_or.mp hnone).1
    by_cases hpdcp : datagram.getD 11 0 = gtpuExtHeaderPdcpPduNumber
    · -- The bytes of a PDCP PDU number are read.
      have hext : HasExtension datagram := ⟨hE, .inl hpdcp⟩
      rw [if_pos hpdcp]
      simp only [hext, true_imp_iff, ByteBuffer.skip, headerPdcpPduNumberSize]
      constructor
      · rintro ⟨ok, r, hr, hptr, -, -⟩
        obtain ⟨⟨bytes, s⟩, hs, heq⟩ := Option.bind_eq_some_iff.mp hr
        cases heq
        have hs := ptr_of_take hs
        simp only at hs hptr
        omega
      · intro h16
        have htake := take_datagram room datagram rest (fullHeader header datagram)
          ⟨room ++ datagram ++ rest, room.length + 12 + 4, subU32 (datagram.length - 12) 4⟩
          rfl (i := 12) (k := 4) h16
        rw [htake, hskip' h16]
        refine ⟨true, _, rfl, ?_, ?_, ?_⟩ <;> simp only <;> omega
    · rw [if_neg hpdcp]
      by_cases hcontainer : datagram.getD 11 0 = gtpuExtHeaderPduSessionContainer
      · -- Those of a session container are left out without a look at them.
        have hext : HasExtension datagram := ⟨hE, .inr hcontainer⟩
        rw [if_pos hcontainer]
        simp only [hext, true_imp_iff, ByteBuffer.skip, gtpuExtHeaderPduSessionContainerLen]
        constructor
        · rintro ⟨ok, r, hr, -, hmsg, -⟩
          cases hr
          simp only at hmsg
          omega
        · intro h16
          refine ⟨true, _, rfl, ?_, ?_, ?_⟩ <;> simp only [hskip' h16] <;> omega
      · have hext : ¬ HasExtension datagram := fun hext => hext.2.elim hpdcp hcontainer
        rw [if_neg hcontainer]
        simp only [hext, false_imp_iff, iff_true]
        refine ⟨false, _, rfl, ?_, ?_, ?_⟩ <;> simp only <;> omega

/-- **A datagram of any length and content is read within its bytes if and only if it is as long as the
header that it announces.** -/
theorem reads_within_iff (hlen : datagram.length < 2 ^ 32) :
    StaysWithin (.holding room datagram rest) header ↔ announcedLen datagram ≤ datagram.length := by
  rw [announcedLen_le_iff]
  by_cases h8 : 8 ≤ datagram.length
  · by_cases hopt : HasOptional datagram
    · by_cases h12 : 12 ≤ datagram.length
      · simp only [h8, h12, hopt, true_and, true_imp_iff]
        rw [← gtpuReadExtHeader_datagram room datagram rest header h12 hlen,
          ← gtpuReadHeader_extended room datagram rest datagram.length header h12 hopt.1 hopt.2.1
            hopt.2.2]
        rfl
      · -- The optional fields reach beyond the datagram.
        simp only [h8, h12, hopt, true_and, true_imp_iff, false_and, iff_false]
        rintro ⟨ok, r, hr, hptr, -, -⟩
        have hle := (ptr_of_gtpuReadHeader hr).2 _
          (readMandatory_datagram room datagram rest datagram.length header h8) hopt.1 hopt.2.1
          hopt.2.2
        simp only [ByteBuffer.holding] at hle hptr
        omega
    · simp only [h8, hopt, true_and, false_imp_iff, iff_true]
      have hshort : (baseHeader header datagram).isExtended = false ∨
          gtpuSupportedFlagsCheck (baseHeader header datagram) = false ∨
          gtpuSupportedMsgTypeCheck (baseHeader header datagram) = false := by
        by_contra hno
        simp only [not_or, Bool.not_eq_false] at hno
        exact hopt ⟨hno.2.1, hno.2.2, hno.1⟩
      obtain ⟨ok, hr, -⟩ := gtpuReadHeader_short room datagram rest datagram.length header h8 hshort
      have hskip : subU32 datagram.length 8 = datagram.length - 8 := if_pos h8
      refine ⟨ok, _, hr, ?_, ?_, ?_⟩ <;> cases ok <;>
        simp only [ByteBuffer.holding, hskip, Bool.false_eq_true, if_true, if_false] <;> omega
  · simp only [h8, false_and, iff_false]
    rintro ⟨ok, r, hr, hptr, -, -⟩
    have hle := (ptr_of_gtpuReadHeader hr).1
    simp only [ByteBuffer.holding] at hle hptr
    omega

end Within

/-! ### What is written -/

@[simp] theorem mandatoryFields_length (header : GtpuHeader) :
    (mandatoryFields header).length = 8 := rfl

theorem optionalFields_length (header : GtpuHeader) :
    (optionalFields header).length =
      4 + if header.has gtpuFlagsExtendedHdr then header.extBuffer.length else 0 := by
  cases hE : header.has gtpuFlagsExtendedHdr <;> simp [optionalFields, uint16ToUint8, hE]
  omega

theorem baseHeader_mandatoryFields (header : GtpuHeader) (behind : Bytes) :
    baseHeader .init (mandatoryFields header ++ behind) =
      { GtpuHeader.init with
        flags := header.flags
        messageType := header.messageType
        length := header.length
        teid := header.teid } := by
  show { GtpuHeader.init with
    flags := header.flags
    messageType := header.messageType
    length := uint8ToUint16 (header.length >>> 8).toUInt8 header.length.toUInt8
    teid := uint8ToUint32 (header.teid >>> 24).toUInt8 (header.teid >>> 16).toUInt8
      (header.teid >>> 8).toUInt8 header.teid.toUInt8 } = _
  rw [uint8ToUint16_bytes, uint8ToUint32_bytes]

/-- The optional fields are read as they are written, and are zero where their flag is not set. -/
theorem fullHeader_optionalFields (header : GtpuHeader) (len : UInt16) :
    fullHeader .init (mandatoryFields { header with length := len } ++ optionalFields header) =
      { GtpuHeader.init with
        flags := header.flags
        messageType := header.messageType
        length := len
        teid := header.teid
        seqNumber := if header.has gtpuFlagsSequence then header.seqNumber else 0
        nPdu := if header.has gtpuFlagsPacketNum then header.nPdu else 0
        nextExtHdrType := if header.has gtpuFlagsExtendedHdr then header.nextExtHdrType else 0 } := by
  rw [fullHeader, baseHeader_mandatoryFields]
  have hseq (i : UInt16) : uint8ToUint16 (i >>> 8).toUInt8 i.toUInt8 = i := uint8ToUint16_bytes i
  cases hE : header.has gtpuFlagsExtendedHdr <;>
    simp [mandatoryFields, optionalFields, uint16ToUint8, uint32ToUint8, hE, hseq]

section Written

variable (header : GtpuHeader) (room payload rest : Bytes)

/-- The buffer before the fields are written, with the header in front of the payload. -/
def grown : ByteBuffer :=
  ⟨room ++ payload ++ rest, room.length - headerLen header, payload.length + headerLen header⟩

theorem gtpuWriteHeader_base (hflags : gtpuSupportedFlagsCheck header = true)
    (htype : gtpuSupportedMsgTypeCheck header = true) (hext : header.isExtended = false)
    (hroom : headerLen header ≤ room.length) (hsize : room.length + payload.length < 2 ^ 32) :
    gtpuWriteHeader header (.holding room payload rest) =
      ((grown header room payload rest).writeAt (room.length - headerLen header)
        (mandatoryFields header)).map fun pdu => (true, header, pdu) := by
  have hlen : headerLen header = 8 := by rw [headerLen, hext]; rfl
  rw [hlen] at hroom
  have hroom' : ¬ room.length < 8 := by omega
  have hmod : (payload.length + 8) % 2 ^ 32 = payload.length + 8 := Nat.mod_eq_of_lt (by omega)
  simp only [gtpuWriteHeader, hflags, htype, hext, Bool.not_true, Bool.false_eq_true, if_false,
    ByteBuffer.getHeadroom, ByteBuffer.holding, gtpuBaseHeaderLen, hroom', ByteBuffer.grow, hroom,
    if_true, hmod, Option.bind_eq_bind, Option.bind_some, grown, hlen]
  cases ByteBuffer.writeAt _ (room.length - 8) (mandatoryFields header) <;> rfl

theorem gtpuWriteHeader_extended (hflags : gtpuSupportedFlagsCheck header = true)
    (htype : gtpuSupportedMsgTypeCheck header = true) (hext : header.isExtended = true)
    (hroom : headerLen header ≤ room.length) (hsize : room.length + payload.length < 2 ^ 32) :
    ∃ len header', gtpuWriteHeader header (.holding room payload rest) =
      ((grown header room payload rest).writeAt (room.length - headerLen header)
        (mandatoryFields { header with length := len } ++ optionalFields header)).map
          fun pdu => (true, header', pdu) := by
  have hlen : headerLen header =
      12 + if header.nextExtHdrType > 0 then header.extBuffer.length else 0 := by
    rw [headerLen, hext]; rfl
  have hroom' : ¬ room.length < 12 := by omega
  have h12 : 12 ≤ room.length := by omega
  have hmod : (payload.length + 12) % 2 ^ 32 = payload.length + 12 := Nat.mod_eq_of_lt (by omega)
  simp only [gtpuWriteHeader, hflags, htype, hext, Bool.not_true, Bool.false_eq_true, if_false,
    ByteBuffer.getHeadroom, ByteBuffer.holding, gtpuExtendedHeaderLen, hroom', ByteBuffer.grow, h12,
    if_true, hmod, Option.bind_eq_bind, Option.bind_some, grown, hlen]
  by_cases hnext : header.nextExtHdrType > 0
  · rw [if_pos hnext] at hlen
    have hext' : header.extBuffer.length ≤ room.length - 12 := by omega
    have hmod' : (payload.length + 12 + header.extBuffer.length) % 2 ^ 32 =
        payload.length + (12 + header.extBuffer.length) := by
      rw [Nat.mod_eq_of_lt (by omega), Nat.add_assoc]
    simp only [hnext, if_true, hext', Option.bind_some, hmod', Nat.sub_sub, Option.map_eq_bind]
    exact ⟨header.length + 4 + header.extBuffer.length.toUInt16, { header with
      length := header.length + 4 + header.extBuffer.length.toUInt16
      nPdu := if header.has gtpuFlagsPacketNum then header.nPdu else 0 }, rfl⟩
  · simp only [hnext, if_false, Nat.add_zero, Option.map_eq_bind]
    exact ⟨header.length + 4, { header with
      length := header.length + 4
      nPdu := if header.has gtpuFlagsPacketNum then header.nPdu else 0 }, rfl⟩

theorem writeAt_grown {fields : Bytes} {pdu : ByteBuffer}
    (h : (grown header room payload rest).writeAt (room.length - headerLen header) fields = some pdu) :
    pdu = ⟨room.take (room.length - headerLen header) ++ fields ++
        (room ++ payload ++ rest).drop (room.length - headerLen header + fields.length),
      room.length - headerLen header, payload.length + headerLen header⟩ := by
  rw [ByteBuffer.writeAt] at h
  split at h
  · cases h
    simp only [grown, List.append_assoc,
      List.take_append_of_le_length (Nat.sub_le room.length (headerLen header))]
  · cases h

theorem writeAt_grown_of_length (fields : Bytes) (hroom : headerLen header ≤ room.length)
    (hlen : fields.length = headerLen header) :
    (grown header room payload rest).writeAt (room.length - headerLen header) fields =
      some ⟨room.take (room.length - headerLen header) ++ fields ++ (payload ++ rest),
        room.length - headerLen header, payload.length + headerLen header⟩ := by
  have hend : room.length - headerLen header + fields.length = room.length := by omega
  have hin : room.length ≤ (grown header room payload rest).buffer.length := by
    simp [grown]
  rw [ByteBuffer.writeAt, hend, if_pos hin]
  simp only [grown, List.append_assoc, List.drop_left,
    List.take_append_of_le_length (Nat.sub_le room.length (headerLen header))]

theorem payload_behind (fields : Bytes) (hroom : headerLen header ≤ room.length)
    (hlen : fields.length = headerLen header) :
    (ByteBuffer.mk (room.take (room.length - headerLen header) ++ fields ++ (payload ++ rest))
      room.length payload.length).payload = payload := by
  have hfront : (room.take (room.length - headerLen header) ++ fields).length = room.length := by
    rw [List.length_append, List.length_take]
    omega
  rw [ByteBuffer.payload]
  simp only
  rw [List.drop_left' hfront, List.take_left]

theorem gtpuReadHeader_fields (front behind : Bytes) (n : Nat) (len : UInt16)
    (hflags : gtpuSupportedFlagsCheck header = true)
    (htype : gtpuSupportedMsgTypeCheck header = true) (hext : header.isExtended = true) :
    gtpuReadHeader ⟨front ++ (mandatoryFields { header with length := len } ++ optionalFields header) ++
        behind, front.length, n⟩ .init =
      gtpuReadExtHeader ⟨⟨front ++
          (mandatoryFields { header with length := len } ++ optionalFields header) ++ behind,
        front.length + 12, subU32 n 12⟩, front.length + 12,
        fullHeader .init (mandatoryFields { header with length := len } ++ optionalFields header)⟩ := by
  have hbase := baseHeader_mandatoryFields { header with length := len } (optionalFields header)
  refine gtpuReadHeader_extended front _ behind n .init ?_ ?_ ?_ ?_
  · rw [List.length_append, mandatoryFields_length, optionalFields_length]
    omega
  · rw [hbase]; exact hflags
  · rw [hbase]; exact htype
  · rw [hbase]; exact hext

end Written

/-! ### Both sides together -/

section ComesBack

variable {header : GtpuHeader} {room payload rest : Bytes}

theorem comesBack_base (hflags : gtpuSupportedFlagsCheck header = true)
    (htype : gtpuSupportedMsgTypeCheck header = true) (hext : header.isExtended = false)
    (hroom : headerLen header ≤ room.length) (hsize : room.length + payload.length < 2 ^ 32) :
    ComesBack header room payload rest := by
  have hlen : headerLen header = 8 := by rw [headerLen, hext]; rfl
  have hfront : (room.take (room.length - 8)).length = room.length - 8 := by
    rw [List.length_take]
    omega
  have hbase := baseHeader_mandatoryFields header []
  rw [List.append_nil] at hbase
  obtain ⟨ok, hread, hok⟩ := gtpuReadHeader_short (room.take (room.length - 8))
    (mandatoryFields header) (payload ++ rest) (payload.length + 8) .init (Nat.le_refl 8)
    (.inl (by rw [hbase]; exact hext))
  have hok : ok = true := by
    rw [hok, hbase]
    exact Bool.and_eq_true_iff.mpr ⟨hflags, htype⟩
  rw [hok, hfront, hbase] at hread
  have hwrite := writeAt_grown_of_length header room payload rest (mandatoryFields header)
    hroom (by rw [hlen]; rfl)
  have hpayload := payload_behind header room payload rest (mandatoryFields header) hroom
    (by rw [hlen]; rfl)
  rw [hlen] at hwrite hpayload
  have hback : room.length - 8 + 8 = room.length := by omega
  have hbytes : subU32 (payload.length + 8) 8 = payload.length := by
    rw [subU32, if_pos (by omega), Nat.add_sub_cancel]
  rw [hback, hbytes] at hread
  have hnone (flag : UInt8) (hflag : header.has flag = true → header.isExtended = true) :
      ¬ header.has flag = true := by
    intro h
    simp [hflag h] at hext
  have hE := hnone gtpuFlagsExtendedHdr fun h => (isExtended_iff header).mpr (.inl h)
  have hS := hnone gtpuFlagsSequence fun h => (isExtended_iff header).mpr (.inr (.inl h))
  have hPN := hnone gtpuFlagsPacketNum fun h => (isExtended_iff header).mpr (.inr (.inr h))
  refine ⟨header, _, _, ?_, hread, ?_, rfl, rfl, hpayload⟩
  · rw [gtpuWriteHeader_base header room payload rest hflags htype hext hroom hsize, hlen, hwrite]
    rfl
  · exact ⟨rfl, rfl, rfl, fun h => absurd h hS, fun h => absurd h hPN, fun h => absurd h hE⟩

/-- The first twelve bytes of what was written for a header without an extension are all that is
read. -/
theorem readExtHeader_fields_of_none (pdu : ByteBuffer) (ptr : Nat) (len : UInt16)
    (hno : header.has gtpuFlagsExtendedHdr = false ∨ header.nextExtHdrType = 0) :
    gtpuReadExtHeader ⟨pdu, ptr,
        fullHeader .init (mandatoryFields { header with length := len } ++ optionalFields header)⟩ =
      some (true, ⟨pdu, ptr,
        fullHeader .init (mandatoryFields { header with length := len } ++ optionalFields header)⟩) := by
  rw [fullHeader_optionalFields, gtpuReadExtHeader, if_pos]
  rcases hno with hE | hnext
  · exact .inl (by rw [Bool.not_eq_true']; exact hE)
  · exact .inr (by show (if _ then header.nextExtHdrType else 0) = 0; rw [hnext, ite_self])

/-- A header with optional fields and without an extension comes back if no bytes are kept for one. -/
theorem comesBack_of_none (hflags : gtpuSupportedFlagsCheck header = true)
    (htype : gtpuSupportedMsgTypeCheck header = true) (hext : header.isExtended = true)
    (hno : header.has gtpuFlagsExtendedHdr = false ∨ header.nextExtHdrType = 0)
    (hroom : headerLen header ≤ room.length) (hsize : room.length + payload.length < 2 ^ 32) :
    ComesBack header room payload rest ↔
      (header.nextExtHdrType > 0 → header.extBuffer = []) ∧
        (header.has gtpuFlagsExtendedHdr = true → header.extBuffer = []) := by
  have hlen : headerLen header =
      12 + if header.nextExtHdrType > 0 then header.extBuffer.length else 0 := by
    rw [headerLen, hext]; rfl
  have hfront : (room.take (room.length - headerLen header)).length =
      room.length - headerLen header := by
    rw [List.length_take]
    omega
  have hbytes : subU32 (payload.length + headerLen header) 12 =
      payload.length + (headerLen header - 12) := by
    rw [subU32, if_pos (by omega)]
    omega
  obtain ⟨len, header', hwrite⟩ :=
    gtpuWriteHeader_extended header room payload rest hflags htype hext hroom hsize
  have hread (behind : Bytes) :=
    gtpuReadHeader_fields header (room.take (room.length - headerLen header)) behind
      (payload.length + headerLen header) len hflags htype hext
  simp only [readExtHeader_fields_of_none _ _ len hno, hfront, hbytes] at hread
  constructor
  · rintro ⟨header'', pdu, r, hw, hr, hagrees, -, hn, -⟩
    rw [hwrite] at hw
    obtain ⟨pdu', hpdu, heq⟩ := Option.map_eq_some_iff.mp hw
    cases heq
    rw [writeAt_grown header room payload rest hpdu, hread] at hr
    cases hr
    rw [fullHeader_optionalFields] at hagrees
    refine ⟨?_, ?_⟩
    · intro hnext
      rw [if_pos hnext] at hlen
      simp only at hn
      exact List.length_eq_zero_iff.mp (by omega)
    · intro hE
      exact (hagrees.2.2.2.2.2 hE).2.symm
  · rintro ⟨hnext, hE⟩
    have h12 : headerLen header = 12 := by
      rw [hlen]
      split
      · rw [hnext ‹_›]; rfl
      · rfl
    have hfields : (mandatoryFields { header with length := len } ++
        optionalFields header).length = headerLen header := by
      rw [List.length_append, mandatoryFields_length, optionalFields_length, h12]
      split
      · rw [hE ‹_›]; rfl
      · rfl
    have hpayload := payload_behind header room payload rest _ hroom hfields
    have hback : room.length - headerLen header + 12 = room.length := by omega
    have hn : payload.length + (headerLen header - 12) = payload.length := by omega
    rw [writeAt_grown_of_length header room payload rest _ hroom hfields] at hwrite
    have hread := hread (payload ++ rest)
    rw [hback, hn, fullHeader_optionalFields] at hread
    refine ⟨header', _, _, hwrite, hread, ⟨rfl, rfl, rfl, ?_, ?_, ?_⟩, rfl, rfl, hpayload⟩
    · intro hS
      exact if_pos hS
    · intro hPN
      exact if_pos hPN
    · intro hE'
      exact ⟨if_pos hE', (hE hE').symm⟩

/-- The four bytes of a PDCP PDU number are read behind the other fields. -/
theorem readExtHeader_fields_of_pdcp (front behind : Bytes) (n : Nat) (len : UInt16)
    (hE : header.has gtpuFlagsExtendedHdr = true)
    (hnext : header.nextExtHdrType = gtpuExtHeaderPdcpPduNumber)
    (hfour : header.extBuffer.length = 4) :
    gtpuReadExtHeader ⟨⟨front ++
          (mandatoryFields { header with length := len } ++ optionalFields header) ++ behind,
        front.length + 12, n⟩, front.length + 12,
        fullHeader .init (mandatoryFields { header with length := len } ++ optionalFields header)⟩ =
      some (true, ⟨⟨front ++
          (mandatoryFields { header with length := len } ++ optionalFields header) ++ behind,
        front.length + 12 + 4, subU32 n 4⟩, front.length + 12 + 4,
        { fullHeader .init (mandatoryFields { header with length := len } ++ optionalFields header) with
          extBuffer := header.extBuffer }⟩) := by
  have hfields : (mandatoryFields { header with length := len } ++
      optionalFields header).length = 16 := by
    rw [List.length_append, mandatoryFields_length, optionalFields_length, if_pos hE, hfour]
  have htake := take_datagram front
    (mandatoryFields { header with length := len } ++ optionalFields header) behind
    (fullHeader .init (mandatoryFields { header with length := len } ++ optionalFields header))
    ⟨front ++ (mandatoryFields { header with length := len } ++ optionalFields header) ++
      behind, front.length + 12 + 4, subU32 n 4⟩ rfl (i := 12) (k := 4) (Nat.le_of_eq hfields.symm)
  have hbytes : ((front ++ (mandatoryFields { header with length := len } ++ optionalFields header) ++
      behind).drop (front.length + 12)).take 4 = header.extBuffer := by
    have hopt : optionalFields header = uint16ToUint8
        (if header.has gtpuFlagsSequence then header.seqNumber else 0) ++
        [if header.has gtpuFlagsPacketNum then header.nPdu else 0, header.nextExtHdrType] ++
        header.extBuffer := by
      simp [optionalFields, hE]
    have hsplit : front ++ (mandatoryFields { header with length := len } ++ optionalFields header) ++
        behind = (front ++ (mandatoryFields { header with length := len } ++ (uint16ToUint8
        (if header.has gtpuFlagsSequence then header.seqNumber else 0) ++
        [if header.has gtpuFlagsPacketNum then header.nPdu else 0, header.nextExtHdrType]))) ++
        (header.extBuffer ++ behind) := by
      rw [hopt]
      simp only [List.append_assoc]
    rw [hsplit, List.drop_left' (by rw [List.length_append]; rfl), List.take_left' hfour]
  have hEread : (fullHeader .init
      (mandatoryFields { header with length := len } ++ optionalFields header)).has
        gtpuFlagsExtendedHdr = true := by
    rw [fullHeader_optionalFields]
    exact hE
  have hnextRead : (fullHeader .init
      (mandatoryFields { header with length := len } ++ optionalFields header)).nextExtHdrType =
        gtpuExtHeaderPdcpPduNumber := by
    rw [fullHeader_optionalFields]
    exact (if_pos hE).trans hnext
  rw [gtpuReadExtHeader, if_neg (by simp only [hEread, hnextRead]; decide), if_pos hnextRead]
  simp only [ByteBuffer.skip, headerPdcpPduNumberSize, htake, hbytes, Option.bind_eq_bind,
    Option.bind_some]
  rfl

theorem comesBack_pdcp (hflags : gtpuSupportedFlagsCheck header = true)
    (htype : gtpuSupportedMsgTypeCheck header = true)
    (hE : header.has gtpuFlagsExtendedHdr = true)
    (hnext : header.nextExtHdrType = gtpuExtHeaderPdcpPduNumber)
    (hfour : header.extBuffer.length = 4)
    (hroom : headerLen header ≤ room.length) (hsize : room.length + payload.length < 2 ^ 32) :
    ComesBack header room payload rest := by
  have hext : header.isExtended = true := (isExtended_iff header).mpr (.inl hE)
  have hlen : headerLen header = 16 := by
    rw [headerLen, hext, hnext, hfour]; rfl
  have hfront : (room.take (room.length - headerLen header)).length =
      room.length - headerLen header := by
    rw [List.length_take]
    omega
  have hbytes : subU32 (subU32 (payload.length + headerLen header) 12) 4 = payload.length := by
    have h12 : subU32 (payload.length + headerLen header) 12 = payload.length + 4 := by
      rw [subU32, hlen, if_pos (by omega)]
      omega
    rw [h12, subU32, if_pos (by omega), Nat.add_sub_cancel]
  have hback : room.length - headerLen header + 12 + 4 = room.length := by omega
  obtain ⟨len, header', hwrite⟩ :=
    gtpuWriteHeader_extended header room payload rest hflags htype hext hroom hsize
  have hfields : (mandatoryFields { header with length := len } ++
      optionalFields header).length = headerLen header := by
    rw [List.length_append, mandatoryFields_length, optionalFields_length, if_pos hE, hfour, hlen]
  have hpayload := payload_behind header room payload rest _ hroom hfields
  have hread := gtpuReadHeader_fields header (room.take (room.length - headerLen header))
    (payload ++ rest) (payload.length + headerLen header) len hflags htype hext
  rw [readExtHeader_fields_of_pdcp _ _ _ len hE hnext hfour, hfront, hback, hbytes,
    fullHeader_optionalFields] at hread
  rw [writeAt_grown_of_length header room payload rest _ hroom hfields] at hwrite
  refine ⟨header', _, _, hwrite, hread, ⟨rfl, rfl, rfl, ?_, ?_, ?_⟩, rfl, rfl, hpayload⟩
  · intro hS
    exact if_pos hS
  · intro hPN
    exact if_pos hPN
  · intro hE'
    exact ⟨if_pos hE', rfl⟩

theorem comesBack_iff (hsendable : Sendable header) (hroom : headerLen header ≤ room.length)
    (hsize : room.length + payload.length < 2 ^ 32) :
    ComesBack header room payload rest ↔ Consistent header := by
  obtain ⟨hversion, hprotocol, htype, hpdcp⟩ := hsendable
  cases hPN : header.has gtpuFlagsPacketNum with
  | true =>
    -- The flags are not supported, so nothing is written.
    have hflags : gtpuSupportedFlagsCheck header = false := by
      simp [gtpuSupportedFlagsCheck, hversion, hprotocol, hPN]
    refine ⟨?_, fun h => absurd h.1 (by simp [hPN])⟩
    rintro ⟨header', pdu, r, hw, -⟩
    simp [gtpuWriteHeader, hflags] at hw
  | false =>
    have hflags : gtpuSupportedFlagsCheck header = true := by
      simp [gtpuSupportedFlagsCheck, hversion, hprotocol, hPN]
    cases hext : header.isExtended with
    | false =>
      refine ⟨fun _ => ⟨hPN, fun h => absurd h (by simp [hext])⟩, fun _ => ?_⟩
      exact comesBack_base hflags htype hext hroom hsize
    | true =>
      have hconsistent : Consistent header ↔ (header.has gtpuFlagsExtendedHdr = true ↔
          header.nextExtHdrType > 0) ∨ header.extBuffer = [] :=
        ⟨fun h => h.2 hext, fun h => ⟨hPN, fun _ => h⟩⟩
      have hpos : header.nextExtHdrType > 0 ↔ header.nextExtHdrType ≠ 0 := UInt8.pos_iff_ne_zero
      by_cases hno : header.has gtpuFlagsExtendedHdr = false ∨ header.nextExtHdrType = 0
      · rw [comesBack_of_none hflags htype hext hno hroom hsize, hconsistent, hpos]
        rcases hno with hE | hnext
        · simp [hE, or_iff_not_imp_left]
        · simp [hnext, or_iff_not_imp_left]
      · have hE : header.has gtpuFlagsExtendedHdr = true := by simpa using (not_or.mp hno).1
        have hnext := (hpdcp hE).resolve_left (not_or.mp hno).2
        have hback : ComesBack header room payload rest :=
          comesBack_pdcp hflags htype hE hnext.1 hnext.2 hroom hsize
        refine ⟨fun _ => hconsistent.mpr (.inl ⟨fun _ => ?_, fun _ => hE⟩), fun _ => hback⟩
        exact hpos.mpr (not_or.mp hno).2

end ComesBack

/-- **A header that fits is read as it was written if and only if its fields are consistent, and a
datagram is read within its bytes if and only if it is as long as the header that it announces.** -/
theorem header_iff (header : GtpuHeader) :
    (∀ room payload rest, Sendable header → headerLen header ≤ room.length →
      room.length + payload.length < 2 ^ 32 →
        (ComesBack header room payload rest ↔ Consistent header)) ∧
    (∀ room datagram rest, datagram.length < 2 ^ 32 →
      (StaysWithin (.holding room datagram rest) header ↔
        announcedLen datagram ≤ datagram.length)) :=
  ⟨fun _ _ _ => comesBack_iff, fun room datagram rest => reads_within_iff room datagram rest header⟩

/-- A PDCP PDU number and a sequence number in front of an IP packet, and the datagram that it makes. -/
theorem header_pdcp_number :
    (ComesBack ⟨0x36, 255, 4, 1, 7, 0, 0xC0, [1, 0, 9, 0]⟩ (List.replicate 1020 0) [0x45, 0, 0, 4] [] ↔
      Consistent ⟨0x36, 255, 4, 1, 7, 0, 0xC0, [1, 0, 9, 0]⟩) ∧
    (StaysWithin (.holding [] ([0x36, 255, 0, 12, 0, 0, 0, 1, 0, 7, 0, 0xC0, 1, 0, 9, 0] ++
        [0x45, 0, 0, 4]) []) .init ↔
      announcedLen ([0x36, 255, 0, 12, 0, 0, 0, 1, 0, 7, 0, 0xC0, 1, 0, 9, 0] ++
        [0x45, 0, 0, 4]) ≤ 20) :=
  ⟨(header_iff _).1 _ _ _ ⟨by decide, by decide, by decide, by decide⟩
    (by rw [List.length_replicate]; decide) (by rw [List.length_replicate]; decide),
    (header_iff _).2 _ _ _ (by decide)⟩

/-- An End Marker of eight bytes with the S flag: the reader takes twelve bytes. -/
theorem not_staysWithin_endMarker :
    ¬ StaysWithin (.holding (List.replicate 1020 0) [0x32, 254, 0, 0, 0, 0, 0, 1]
      (List.replicate 12229 0)) .init := by
  rw [reads_within_iff _ _ _ _ (by decide)]
  decide

end Odss.Gtpu
