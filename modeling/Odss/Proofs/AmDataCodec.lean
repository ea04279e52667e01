import Odss.Proofs.AmParserBounds
import Odss.Proofs.AmSegment

/-!
# `Odss.Proofs.AmDataCodec`: the header of an RLC AM data PDU is read as it was written

* `readLis_writeLis`: the length indicators that have 11 bits.
* `readDataPduHeader_writeDataPduHeader`: the header of a PDU, and the bytes behind it.
-/

set_option linter.all false

namespace Odss.Rlc

/-- The length indicators are read as they were written, if each has its 11 bits. -/
theorem readLis_writeLis (lis : List Nat) (h : ∀ li ∈ lis, li < 2048) (payload : Bytes) :
    readLis (!lis.isEmpty) (writeLis lis ++ payload) = some (lis, payload) := by
  match lis, h with
  | [], _ => exact readLis_false payload
  | [a], h =>
    have ha : a < 2048 := h a List.mem_cons_self
    have h₀ : (UInt8.ofNat (a % 2048 / 16)).toNat = a / 16 := by
      rw [toNat_ofNat_of_lt (by omega), Nat.mod_eq_of_lt ha]
    have h₁ : (UInt8.ofNat (a % 16 * 16)).toNat = a % 16 * 16 := toNat_ofNat_of_lt (by omega)
    have hlast : a / 16 / 128 = 0 := by omega
    have hli : a / 16 % 128 * 16 + a % 16 * 16 / 16 = a := by omega
    rw [readLis.eq_def]
    simp only [writeLis, List.cons_append, List.nil_append, List.isEmpty_cons, Bool.not_false, Bool.not_true,
      Bool.false_eq_true, if_false, h₀, h₁, hlast, if_true, hli]
  | a :: b :: lis, h =>
    have ha : a < 2048 := h a List.mem_cons_self
    have hb : b < 2048 := h b (List.mem_cons_of_mem a List.mem_cons_self)
    have ih := readLis_writeLis lis
      (fun li hli => h li (List.mem_cons_of_mem a (List.mem_cons_of_mem b hli))) payload
    rw [readLis.eq_def, writeLis]
    simp only [List.cons_append, List.nil_append, List.isEmpty_cons, Bool.not_false, Bool.not_true, Bool.false_eq_true,
      if_false]
    generalize (!lis.isEmpty) = more at ih ⊢
    have hbit := bit_le_one more
    have h₀ : (UInt8.ofNat (128 + a % 2048 / 16)).toNat = 128 + a / 16 := by
      rw [toNat_ofNat_of_lt (by omega), Nat.mod_eq_of_lt ha]
    have h₁ : (UInt8.ofNat (a % 16 * 16 + bit more * 8 + b % 2048 / 256)).toNat =
        a % 16 * 16 + bit more * 8 + b / 256 := by
      rw [toNat_ofNat_of_lt (by omega), Nat.mod_eq_of_lt hb]
    have h₂ : (UInt8.ofNat (b % 256)).toNat = b % 256 := toNat_ofNat_of_lt (by omega)
    have hmore : (128 + a / 16) / 128 ≠ 0 := by omega
    have hext : ((a % 16 * 16 + bit more * 8 + b / 256) / 8 % 2 == 1) = more := by
      rw [show (a % 16 * 16 + bit more * 8 + b / 256) / 8 % 2 = bit more by omega]
      exact bit_beq_one more
    have hfirst : (128 + a / 16) % 128 * 16 + (a % 16 * 16 + bit more * 8 + b / 256) / 16 = a := by omega
    have hsecond : (a % 16 * 16 + bit more * 8 + b / 256) % 8 * 256 + b % 256 = b := by omega
    rw [h₀, h₁, h₂, if_neg hmore]
    simp only [hext, ih, hfirst, hsecond]

/-- The fields of the header have their widths. Without a segment part the fields of one are not set. -/
structure AmdHeader.InRange (header : AmdHeader) : Prop where
  sn : header.sn < amMod
  so : header.so < 32768
  li : ∀ li ∈ header.li, li < 2048
  whole : header.rf = false → header.lsf = false ∧ header.so = 0

theorem isControlPdu_writeDataPduHeader (header : AmdHeader) (payload : Bytes) :
    isControlPdu (writeDataPduHeader header ++ payload) = false := by
  have hrf := bit_le_one header.rf
  have hp := bit_le_one header.p
  have hstart := bit_le_one header.fi.notStartAligned
  have hend := bit_le_one header.fi.notEndAligned
  have hext := bit_le_one (!header.li.isEmpty)
  rw [writeDataPduHeader, List.append_assoc, List.append_assoc, List.cons_append, isControlPdu,
    toNat_ofNat_of_lt (by omega), beq_eq_false_iff_ne]
  omega

/-- The header of a data PDU is read as it was written, up to the payload. -/
theorem readDataPduHeader_writeDataPduHeader {header : AmdHeader} (h : header.InRange) (payload : Bytes) :
    readDataPduHeader (writeDataPduHeader header ++ payload) = some (header, payload) := by
  obtain ⟨rf, p, ⟨notStart, notEnd⟩, sn, lsf, so, li⟩ := header
  obtain ⟨hsn, hso, hli, hwhole⟩ := h
  have hlis := readLis_writeLis li hli payload
  simp only [amMod] at hsn hso
  generalize hext : (!li.isEmpty) = ext at hlis
  have hrf := bit_le_one rf
  have hp := bit_le_one p
  have hstart := bit_le_one notStart
  have hend := bit_le_one notEnd
  have hbit := bit_le_one ext
  have h₀ : (UInt8.ofNat (128 + bit rf * 64 + bit p * 32 + bit notStart * 16 + bit notEnd * 8 + bit ext * 4 +
      sn % 1024 / 256)).toNat =
      128 + bit rf * 64 + bit p * 32 + bit notStart * 16 + bit notEnd * 8 + bit ext * 4 + sn / 256 := by
    rw [toNat_ofNat_of_lt (by omega), Nat.mod_eq_of_lt hsn]
  have h₁ : (UInt8.ofNat (sn % 256)).toNat = sn % 256 := toNat_ofNat_of_lt (by omega)
  generalize hb : 128 + bit rf * 64 + bit p * 32 + bit notStart * 16 + bit notEnd * 8 + bit ext * 4 + sn / 256 = b
    at h₀
  have hrf' : (b / 64 % 2 == 1) = rf := by
    rw [show b / 64 % 2 = bit rf by omega, bit_beq_one]
  have hp' : (b / 32 % 2 == 1) = p := by
    rw [show b / 32 % 2 = bit p by omega, bit_beq_one]
  have hstart' : (b / 16 % 2 == 1) = notStart := by
    rw [show b / 16 % 2 = bit notStart by omega, bit_beq_one]
  have hend' : (b / 8 % 2 == 1) = notEnd := by
    rw [show b / 8 % 2 = bit notEnd by omega, bit_beq_one]
  have hext' : (b / 4 % 2 == 1) = ext := by
    rw [show b / 4 % 2 = bit ext by omega, bit_beq_one]
  have hsn' : b % 4 * 256 + sn % 256 = sn := by omega
  rw [writeDataPduHeader]
  simp only [List.cons_append, List.nil_append, List.append_assoc, readDataPduHeader, hext, h₀, h₁, hrf', hp',
    hstart', hend', hext', hsn']
  cases rf with
  | false =>
    obtain ⟨rfl, rfl⟩ := hwhole rfl
    simp only [Bool.false_eq_true, if_false, List.nil_append, hlis]
  | true =>
    have hlsf := bit_le_one lsf
    have h₂ : (UInt8.ofNat (bit lsf * 128 + so % 32768 / 256)).toNat = bit lsf * 128 + so / 256 := by
      rw [toNat_ofNat_of_lt (by omega), Nat.mod_eq_of_lt hso]
    have h₃ : (UInt8.ofNat (so % 256)).toNat = so % 256 := toNat_ofNat_of_lt (by omega)
    have hlsf' : ((bit lsf * 128 + so / 256) / 128 == 1) = lsf := by
      rw [show (bit lsf * 128 + so / 256) / 128 = bit lsf by omega, bit_beq_one]
    have hhigh : (bit lsf * 128 + so / 256) % 128 = so / 256 := by
      have hlt : so / 256 < 128 := by omega
      omega
    have hso' : (bit lsf * 128 + so / 256) % 128 * 256 + so % 256 = so := by
      rw [hhigh]
      exact Nat.div_add_mod' so 256
    simp only [if_true, List.cons_append, List.nil_append, h₂, h₃, hlsf', hso', hlis]

end Odss.Rlc
