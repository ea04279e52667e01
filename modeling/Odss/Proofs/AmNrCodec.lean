import Odss.Proofs.UmNrRx
import Odss.Rlc.AmNrCodec

/-!
# `Odss.Proofs.AmNrCodec`: round trips of the NR RLC AM headers

The writer of a data header takes the SO field by its value, the reader and the length by the SI.
`dataRoundTrip_iff` says that these must agree. The status functions know one NACK and mix up its
bits, and with 18 bits they know neither ACK_SN nor NACKs (`statusRoundTrip_iff`).
-/

set_option linter.all false

namespace Odss.Rlc

theorem SiField.ofBits_add_toBits (si : SiField) (n : Nat) :
    SiField.ofBits (4 * n + si.toBits) = si := by
  have hmod : (4 * n + si.toBits) % 4 = si.toBits := by
    rw [Nat.mul_add_mod, Nat.mod_eq_of_lt si.toBits_lt]
  unfold SiField.ofBits
  rw [hmod]
  cases si <;> rfl

theorem DcField.toBit_lt (dc : DcField) : dc.toBit < 2 := by cases dc <;> decide

theorem DcField.ofBit_toBit (dc : DcField) : DcField.ofBit dc.toBit = dc := by cases dc <;> rfl

/-! ### Data PDUs -/

namespace AmNrHeader

/-- The fields fit their bits. -/
structure InRange (header : AmNrHeader) : Prop where
  p : header.p < 2
  sn : header.sn < 2 ^ header.snSize.bits
  so : header.so < 2 ^ 16

/-- The SI of a segment that is not the first one. Its header has an SO. -/
def CarriesSo (header : AmNrHeader) : Prop :=
  header.si = .lastSegment ∨ header.si = .neitherFirstNorLastSegment

/-- The header that was written in front of `pdu` is read back, and the PDU has grown by the
packed length. -/
def RoundTrips (header : AmNrHeader) (pdu : ByteBuffer) : Prop :=
  (read (header.write pdu).1.payload header.snSize zero).1 = header ∧
    (header.write pdu).1.nBytes = pdu.nBytes + header.packedLength

/-- The number of bytes of the fixed part. -/
def fixedLength (header : AmNrHeader) : Nat := if header.snSize = .size18bits then 3 else 2

open Classical in
theorem packedLength_eq (header : AmNrHeader) :
    header.packedLength = header.fixedLength + (if header.CarriesSo then 2 else 0) := by
  unfold packedLength fixedLength CarriesSo
  cases header.si <;> cases header.snSize <;> simp

theorem length_bytes (header : AmNrHeader) :
    header.bytes.length = header.fixedLength + (if header.so ≠ 0 then 2 else 0) := by
  unfold bytes fixedLength
  by_cases hso : header.so = 0
  · cases header.snSize <;> simp [hso]
  · cases header.snSize <;> simp [hso]

/-- The length shows whether the writer and the SI agree. -/
theorem length_bytes_eq_iff (header : AmNrHeader) :
    header.bytes.length = header.packedLength ↔ (header.so ≠ 0 ↔ header.CarriesSo) := by
  rw [length_bytes, packedLength_eq]
  by_cases hso : header.so ≠ 0
  · by_cases hsi : header.CarriesSo <;> simp [hso, hsi]
  · by_cases hsi : header.CarriesSo <;> simp [hso, hsi]

theorem flags_add_lt (header : AmNrHeader) {n : Nat} (h : n < 16) : header.flags + n < 256 := by
  have hdc := header.dc.toBit_lt
  have hsi := header.si.toBits_lt
  unfold flags
  omega

/-- What the reader takes from the flags. -/
theorem flags_fields (header : AmNrHeader) (hp : header.p < 2) {n : Nat} (h : n < 16) :
    DcField.ofBit ((header.flags + n) / 128) = header.dc ∧ (header.flags + n) / 64 % 2 = header.p ∧
      SiField.ofBits ((header.flags + n) / 16) = header.si ∧ (header.flags + n) % 16 = n := by
  have hdc := header.dc.toBit_lt
  have hsi := header.si.toBits_lt
  have hdcBit : (header.flags + n) / 128 = header.dc.toBit := by unfold flags; omega
  have hsiBits : (header.flags + n) / 16 = 4 * (2 * header.dc.toBit + header.p) + header.si.toBits := by
    unfold flags
    omega
  refine ⟨?_, ?_, ?_, ?_⟩
  · rw [hdcBit, header.dc.ofBit_toBit]
  · unfold flags
    omega
  · rw [hsiBits, header.si.ofBits_add_toBits]
  · unfold flags
    omega

theorem payload_write (header : AmNrHeader) (pdu : ByteBuffer) (i : Nat) :
    (header.write pdu).1.payload i =
      header.bytes.getD i (pdu.buffer (pdu.msg - header.packedLength + i)) :=
  ByteBuffer.put_add _ _ _ _

/-- The optional part is read where the writer has put it. -/
theorem readSo_eq {header : AmNrHeader} {payload : Nat → UInt8} {ptr : Nat}
    (hso : header.so < 2 ^ 16) (h : header.so ≠ 0 ↔ header.CarriesSo)
    (hfst : header.so ≠ 0 → payload ptr = UInt8.ofNat (header.so / 256))
    (hsnd : header.so ≠ 0 → payload (ptr + 1) = UInt8.ofNat (header.so % 256)) :
    (readSo payload { header with so := 0 } ptr).1 = header := by
  unfold readSo
  by_cases hsi : header.CarriesSo
  · rw [if_pos (by exact hsi), hfst (h.mpr hsi), hsnd (h.mpr hsi), toNat_ofNat_of_lt (by omega),
      toNat_ofNat_of_lt (by omega), Nat.mul_comm, Nat.div_add_mod]
  · have hzero : header.so = 0 := by
      by_contra hne
      exact hsi (h.mp hne)
    rw [if_neg (by exact hsi)]
    cases header
    cases hzero
    rfl

theorem read_write {header : AmNrHeader} (hr : header.InRange) (pdu : ByteBuffer)
    (h : header.so ≠ 0 ↔ header.CarriesSo) :
    (read (header.write pdu).1.payload header.snSize zero).1 = header := by
  have hpay := header.payload_write pdu
  have hsn := hr.sn
  cases hsize : header.snSize with
  | size12bits =>
    rw [hsize, AmNrSnSize.bits] at hsn
    have hb : header.bytes = UInt8.ofNat (header.flags + header.sn / 256 % 16) ::
        UInt8.ofNat (header.sn % 256) ::
        (if header.so ≠ 0 then [UInt8.ofNat (header.so / 256), UInt8.ofNat (header.so % 256)]
          else []) := by
      rw [bytes, hsize]
      rfl
    have h0 : ((header.write pdu).1.payload 0).toNat = header.flags + header.sn / 256 % 16 := by
      rw [hpay, hb, List.getD_cons_zero, toNat_ofNat_of_lt (header.flags_add_lt (by omega))]
    have h1 : ((header.write pdu).1.payload 1).toNat = header.sn % 256 := by
      rw [hpay, hb, List.getD_cons_succ, List.getD_cons_zero, toNat_ofNat_of_lt (by omega)]
    obtain ⟨hdc, hp, hsi, hlow⟩ := header.flags_fields hr.p (n := header.sn / 256 % 16) (by omega)
    have hsum : header.sn / 256 % 16 * 256 + header.sn % 256 = header.sn := by omega
    unfold read
    simp only [h0, h1, hdc, hp, hsi, hlow, hsum]
    have hrest : (readSo (header.write pdu).1.payload { header with so := 0 } 2).1 = header :=
      readSo_eq hr.so h (fun hso => by rw [hpay, hb, if_pos hso]; rfl)
        (fun hso => by rw [hpay, hb, if_pos hso]; rfl)
    rw [← hsize]
    exact hrest
  | size18bits =>
    rw [hsize, AmNrSnSize.bits] at hsn
    have hb : header.bytes = UInt8.ofNat (header.flags + header.sn / 65536 % 4) ::
        UInt8.ofNat (header.sn / 256 % 256) :: UInt8.ofNat (header.sn % 256) ::
        (if header.so ≠ 0 then [UInt8.ofNat (header.so / 256), UInt8.ofNat (header.so % 256)]
          else []) := by
      rw [bytes, hsize]
      rfl
    have h0 : ((header.write pdu).1.payload 0).toNat = header.flags + header.sn / 65536 % 4 := by
      rw [hpay, hb, List.getD_cons_zero, toNat_ofNat_of_lt (header.flags_add_lt (by omega))]
    have h1 : ((header.write pdu).1.payload 1).toNat = header.sn / 256 % 256 := by
      rw [hpay, hb, List.getD_cons_succ, List.getD_cons_zero, toNat_ofNat_of_lt (by omega)]
    have h2 : ((header.write pdu).1.payload 2).toNat = header.sn % 256 := by
      rw [hpay, hb, List.getD_cons_succ, List.getD_cons_succ, List.getD_cons_zero,
        toNat_ofNat_of_lt (by omega)]
    obtain ⟨hdc, hp, hsi, hlow⟩ := header.flags_fields hr.p (n := header.sn / 65536 % 4) (by omega)
    have hreserved : (header.flags + header.sn / 65536 % 4) / 4 % 4 = 0 := by omega
    have hsum : (header.flags + header.sn / 65536 % 4) % 4 * 65536 + header.sn / 256 % 256 * 256 +
        header.sn % 256 = header.sn := by omega
    unfold read
    simp only [h0, h1, h2, hdc, hp, hsi, hreserved, hsum, ne_eq, not_true_eq_false, if_false]
    have hrest : (readSo (header.write pdu).1.payload { header with so := 0 } 3).1 = header :=
      readSo_eq hr.so h (fun hso => by rw [hpay, hb, if_pos hso]; rfl)
        (fun hso => by rw [hpay, hb, if_pos hso]; rfl)
    rw [← hsize]
    exact hrest

theorem dataRoundTrip_iff {header : AmNrHeader} (hr : header.InRange) (pdu : ByteBuffer) :
    header.RoundTrips pdu ↔ (header.so ≠ 0 ↔ header.CarriesSo) := by
  have hlen : (header.write pdu).1.nBytes = pdu.nBytes + header.bytes.length := rfl
  rw [RoundTrips, hlen, Nat.add_left_cancel_iff, length_bytes_eq_iff]
  exact ⟨And.right, fun h => ⟨read_write hr pdu h, h⟩⟩

end AmNrHeader

/-! ### Status PDUs -/

namespace AmNrStatus

/-- The SNs fit their bits. -/
structure InRange (status : AmNrStatus) (snSize : AmNrSnSize) : Prop where
  ackSn : status.ackSn < 2 ^ snSize.bits
  nackSn : ∀ nack ∈ status.nacks, nack.nackSn < 2 ^ snSize.bits

/-- The ACK_SN and the NACKs that were written to `pdu` are read back. -/
def RoundTrips (status : AmNrStatus) (snSize : AmNrSnSize) (pdu : ByteBuffer) : Prop :=
  (read (status.write snSize pdu).payload snSize zero).ackSn = status.ackSn ∧
    (read (status.write snSize pdu).payload snSize zero).nacks = status.nacks

/-- A NACK that the status functions keep: it has no segment, and the two groups of four bits at
the end of its SN are the same. -/
def KeepsNack (nack : StatusNack) : Prop :=
  nack.hasSo = false ∧ nack.soStart = 0 ∧ nack.soEnd = 0 ∧
    nack.nackSn / 16 % 16 = nack.nackSn % 16

/-- The status PDUs that are read back. -/
def Kept (status : AmNrStatus) : AmNrSnSize → Prop
  | .size12bits => status.nacks = [] ∨ ∃ nack, status.nacks = [nack] ∧ KeepsNack nack
  | .size18bits => status.ackSn = 0 ∧ status.nacks = []

theorem payload_write (status : AmNrStatus) (snSize : AmNrSnSize) (pdu : ByteBuffer) (i : Nat) :
    (status.write snSize pdu).payload i =
      (status.bytes snSize).getD i (pdu.buffer (pdu.msg + i)) :=
  ByteBuffer.put_add _ _ _ _

theorem read_write_eighteen (status : AmNrStatus) (pdu : ByteBuffer) :
    read (status.write .size18bits pdu).payload .size18bits zero = zero := by
  have h0 : ((status.write .size18bits pdu).payload 0).toNat = status.ackSn / 16384 % 16 := by
    rw [payload_write, bytes, List.getD_cons_zero, toNat_ofNat_of_lt (by omega)]
  have hcpt : status.ackSn / 16384 % 16 / 16 % 8 = 0 := by omega
  unfold read
  simp only [h0, hcpt, ne_eq, not_true_eq_false, if_false]
  rfl

theorem read_write_twelve {status : AmNrStatus} (hack : status.ackSn < 2 ^ 12) (pdu : ByteBuffer) :
    read (status.write .size12bits pdu).payload .size12bits zero =
      ⟨0, status.ackSn, (status.nacks.take 1).map fun nack =>
        ⟨nack.nackSn / 16 % 256 * 16 + nack.nackSn / 16 % 16, false, 0, 0⟩⟩ := by
  have hpay := status.payload_write .size12bits pdu
  have h0 : ((status.write .size12bits pdu).payload 0).toNat = status.ackSn / 256 % 16 := by
    rw [hpay, bytes, List.cons_append, List.getD_cons_zero, toNat_ofNat_of_lt (by omega)]
  have h1 : ((status.write .size12bits pdu).payload 1).toNat = status.ackSn % 256 := by
    rw [hpay, bytes, List.cons_append, List.getD_cons_succ, List.cons_append, List.getD_cons_zero,
      toNat_ofNat_of_lt (by omega)]
  have hcpt : status.ackSn / 256 % 16 / 16 % 8 = 0 := by omega
  have hsum : status.ackSn / 256 % 16 % 16 * 256 + status.ackSn % 256 = status.ackSn := by omega
  unfold read
  simp only [h0, h1, hcpt, hsum, ne_eq, not_true_eq_false, if_false]
  cases hn : status.nacks with
  | nil =>
    have h2 : ((status.write .size12bits pdu).payload 2).toNat = 0 := by
      rw [hpay, bytes, hn]
      rfl
    rw [h2]
    rfl
  | cons nack rest =>
    have h2 : ((status.write .size12bits pdu).payload 2).toNat = 128 := by
      rw [hpay, bytes, hn]
      rfl
    have h3 : ((status.write .size12bits pdu).payload 3).toNat = nack.nackSn / 16 % 256 := by
      rw [hpay, bytes, hn]
      exact toNat_ofNat_of_lt (by omega)
    have h4 : ((status.write .size12bits pdu).payload 4).toNat = nack.nackSn / 16 % 16 * 16 := by
      rw [hpay, bytes, hn]
      exact toNat_ofNat_of_lt (by omega)
    rw [h2, h3, h4, Nat.mul_div_cancel _ (by decide)]
    rfl

theorem keepsNack_iff {nack : StatusNack} (h : nack.nackSn < 2 ^ 12) :
    (⟨nack.nackSn / 16 % 256 * 16 + nack.nackSn / 16 % 16, false, 0, 0⟩ : StatusNack) = nack ↔
      KeepsNack nack := by
  obtain ⟨nackSn, hasSo, soStart, soEnd⟩ := nack
  simp only at h
  simp only [KeepsNack, StatusNack.mk.injEq]
  constructor
  · rintro ⟨hsn, hso, hstart, hend⟩
    exact ⟨hso.symm, hstart.symm, hend.symm, by omega⟩
  · rintro ⟨hso, hstart, hend, hsn⟩
    exact ⟨by omega, hso.symm, hstart.symm, hend.symm⟩

theorem statusRoundTrip_iff {status : AmNrStatus} {snSize : AmNrSnSize}
    (hr : status.InRange snSize) (pdu : ByteBuffer) :
    status.RoundTrips snSize pdu ↔ status.Kept snSize := by
  unfold RoundTrips
  cases snSize with
  | size18bits =>
    rw [read_write_eighteen]
    exact and_congr eq_comm eq_comm
  | size12bits =>
    rw [read_write_twelve hr.ackSn]
    have hnacks := hr.nackSn
    simp only [true_and, Kept]
    match status.nacks, hnacks with
    | [], _ => simp
    | [nack], hnacks =>
      have hsn := hnacks nack List.mem_cons_self
      simpa using keepsNack_iff hsn
    | _ :: _ :: _, _ => simp

end AmNrStatus

/-- Both headers are read back, and the data header has its packed length, exactly when the SO
is zero or not as the SI says and the status PDU is one of those that are kept. -/
theorem amNrCodecs_iff {header : AmNrHeader} {status : AmNrStatus} {snSize : AmNrSnSize}
    (hheader : header.InRange) (hstatus : status.InRange snSize) (pdu : ByteBuffer) :
    (header.RoundTrips pdu ↔ (header.so ≠ 0 ↔ header.CarriesSo)) ∧
      (status.RoundTrips snSize pdu ↔ status.Kept snSize) :=
  ⟨AmNrHeader.dataRoundTrip_iff hheader pdu, AmNrStatus.statusRoundTrip_iff hstatus pdu⟩

/-- A byte buffer in which nothing was written. -/
private def emptyBuffer : ByteBuffer := ⟨fun _ => 0, 1020, 0⟩

/-- A last segment, and a status PDU with the NACK 273. -/
theorem amNrCodecs_last :
    (AmNrHeader.mk .dataPdu 0 .lastSegment .size12bits 1028 1028).RoundTrips emptyBuffer ∧
      (AmNrStatus.mk 0 2065 [⟨273, false, 0, 0⟩]).RoundTrips .size12bits emptyBuffer := by
  have hheader : (AmNrHeader.mk .dataPdu 0 .lastSegment .size12bits 1028 1028).InRange :=
    ⟨by decide, by decide, by decide⟩
  have hstatus : (AmNrStatus.mk 0 2065 [⟨273, false, 0, 0⟩]).InRange .size12bits :=
    ⟨by decide, by decide⟩
  have hiff := amNrCodecs_iff hheader hstatus emptyBuffer
  refine ⟨hiff.1.mpr ?_, hiff.2.mpr ?_⟩
  · exact iff_of_true (by decide) (Or.inl rfl)
  · exact Or.inr ⟨_, rfl, rfl, rfl, rfl, rfl⟩

/-- The SO of a last segment at offset 0 is not written, the NACK 1 is read as 0, and an ACK_SN of
18 bits as 0. -/
theorem not_amNrCodecs :
    ¬ (AmNrHeader.mk .dataPdu 0 .lastSegment .size12bits 7 0).RoundTrips emptyBuffer ∧
      (AmNrStatus.read ((AmNrStatus.mk 0 5 [⟨1, false, 0, 0⟩]).write .size12bits
        emptyBuffer).payload .size12bits .zero).nacks = [⟨0, false, 0, 0⟩] ∧
      ¬ (AmNrStatus.mk 0 5 [⟨1, false, 0, 0⟩]).RoundTrips .size12bits emptyBuffer ∧
      ¬ (AmNrStatus.mk 0 5 []).RoundTrips .size18bits emptyBuffer := by
  unfold AmNrHeader.RoundTrips AmNrStatus.RoundTrips
  decide

end Odss.Rlc
