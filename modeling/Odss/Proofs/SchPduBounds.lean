import Odss.MacNr.SchPdu
import Mathlib.Data.List.GetD

/-!
# `Odss.Proofs.SchPduBounds`: NR MAC PDUs are read in bounds

`ParsesInBounds` is what `unpack` owes for any bytes: it ends, reads no byte behind them, finds
subPDUs whose payloads are apart and enough for the accessors, and fails when one is cut off.

A subheader is read before anything is compared with the length, a long BSR may say that it has no
byte, and the offset is 32 bits wide. `Clean` excludes the three, the last two unless the PDU is
rejected anyway, and `parsesInBounds_iff_clean` says that there is nothing else.
-/

set_option linter.all false

namespace Odss.MacNr

open Odss.Rlc (Bytes subU32)

/-! ### What is meant -/

/-- Every accessor reads inside of the SDU or CE. -/
structure SubPdu.ReadsInside (ulsch : Bool) (s : SubPdu) : Prop where
  cRnti : (s.readCRnti ulsch).isSome
  phr : (s.readPhr ulsch).isSome
  pcmax : (s.readPcmax ulsch).isSome
  ta : s.readTa.isSome
  sbsr : (s.readSbsr ulsch).isSome
  lbsr : (s.readLbsr ulsch).isSome

/-- The bytes of a PDU, whose number has 32 bits. -/
abbrev SchPayload := { bytes : Bytes // bytes.length < 2 ^ 32 }

namespace SchPayload

variable (ulsch : Bool) (p : SchPayload) (pos : Nat)

/-- The number of bytes. -/
def len : Nat := p.1.length

/-- The call ends with a code and the subPDUs, from an offset and the subPDUs before it on. -/
def Ends (subpdus : List SubPdu) (r : Bool × List SubPdu) : Prop :=
  ∃ fuel, unpackLoop ulsch p.1 fuel pos subpdus = some r

/-- Where the payload of a subPDU starts. -/
def start (s : SubPdu) : Nat := p.len - (s.sdu.getD []).length

/-- The payloads of subPDUs lie before an offset, are apart, and enough for the accessors. -/
structure Inside (subpdus : List SubPdu) : Prop where
  before : ∀ s ∈ subpdus, p.start s + s.getSduLength ≤ pos
  apart : subpdus.Pairwise fun s t => p.start s + s.getSduLength ≤ p.start t
  reads : ∀ s ∈ subpdus, s.ReadsInside ulsch

/-! The fields of a subPDU that starts at `pos`. A byte behind the PDU does not matter. -/

/-- One byte. -/
def octet : UInt8 := p.1.getD pos 0

/-- The LCID. -/
def lcidAt : Nat := (p.octet pos &&& 0x3f).toNat

/-- The F bit. -/
def fBitAt : Bool := p.octet pos &&& 0x40 ≠ 0

/-- The number of bytes of the subheader. -/
def headerAt : Nat :=
  if hasLengthField ulsch (p.lcidAt pos) then if p.fBitAt pos then 3 else 2 else 1

/-- The number of bytes of the SDU or CE. -/
def lengthAt : Nat :=
  if hasLengthField ulsch (p.lcidAt pos) then
    if p.fBitAt pos then (p.octet (pos + 1)).toNat * 2 ^ 8 + (p.octet (pos + 2)).toNat
    else (p.octet (pos + 1)).toNat
  else sizeofCe (p.lcidAt pos) ulsch

/-- The end of the subPDU. -/
def endAt : Nat := pos + (p.headerAt ulsch pos + p.lengthAt ulsch pos)

/-- A subPDU that is not padding starts here. -/
structure Goes : Prop where
  inside : pos < p.len
  valid : isValidLcid ulsch (p.lcidAt pos)
  data : p.lcidAt pos ≠ lcidPadding

/-- The offsets that the subPDUs lead to. -/
inductive Reached : Nat → Prop where
  | start : Reached 0
  | next {pos : Nat} (h : Reached pos) (goes : p.Goes ulsch pos)
      (whole : pos + p.headerAt ulsch pos ≤ p.len) : Reached (p.endAt ulsch pos % 2 ^ 32)

/-- A subPDU is cut off by the end of the PDU. -/
def CutOff : Prop := ∃ pos, p.Reached ulsch pos ∧ p.Goes ulsch pos ∧ p.len < p.endAt ulsch pos

/-- The subPDUs lead to an unknown LCID or past the end. -/
def Rejects : Prop :=
  ∃ pos, p.Reached ulsch pos ∧
    (p.len < pos ∨ (pos < p.len ∧ isValidLcid ulsch (p.lcidAt pos) = false))

/-- A long BSR without its bitmap. -/
def EmptyLongBsr : Prop :=
  ulsch = true ∧ isVarLenCe (p.lcidAt pos) ∧ p.lengthAt ulsch pos = 0

/-- Subheaders are whole, and unless the PDU is rejected, no long BSR is empty and no offset
exceeds 32 bits. -/
structure Clean : Prop where
  whole : ∀ pos, p.Reached ulsch pos → p.Goes ulsch pos → pos + p.headerAt ulsch pos ≤ p.len
  rest : p.Rejects ulsch ∨ ∀ pos, p.Reached ulsch pos → p.Goes ulsch pos →
    p.endAt ulsch pos < 2 ^ 32 ∧ ¬ p.EmptyLongBsr ulsch pos

/-- `unpack` ends without a read behind the bytes, what it finds is inside of them, and a subPDU
that is cut off is rejected. -/
def ParsesInBounds : Prop :=
  ∃ r, p.Ends ulsch 0 [] r ∧ (r.1 = true → p.Inside ulsch p.len r.2) ∧
    (p.CutOff ulsch → r.1 = false)

/-! ### One subPDU -/

/-- The subPDU that starts at `pos`. -/
def subpduAt : SubPdu :=
  ⟨p.lcidAt pos, p.headerAt ulsch pos, p.lengthAt ulsch pos, p.fBitAt pos,
    some (p.1.drop (pos + p.headerAt ulsch pos))⟩

variable {ulsch : Bool} {p : SchPayload} {pos : Nat}

theorem headerAt_cases (ulsch : Bool) (p : SchPayload) (pos : Nat) :
    1 ≤ p.headerAt ulsch pos ∧ p.headerAt ulsch pos ≤ 3 := by
  unfold headerAt
  split
  · split <;> decide
  · decide

theorem sizeofCe_le (lcid : Nat) (ulsch : Bool) : sizeofCe lcid ulsch ≤ 8 := by
  unfold sizeofCe
  split_ifs <;> decide

theorem lengthAt_lt (ulsch : Bool) (p : SchPayload) (pos : Nat) :
    p.lengthAt ulsch pos < 2 ^ 16 := by
  have hsize := sizeofCe_le (p.lcidAt pos) ulsch
  have h1 := (p.octet (pos + 1)).toNat_lt
  have h2 := (p.octet (pos + 2)).toNat_lt
  unfold lengthAt
  split_ifs <;> omega

theorem drop_getElem? (p : SchPayload) (pos i : Nat) :
    (p.1.drop pos)[i]? = if pos + i < p.len then some (p.octet (pos + i)) else none := by
  rw [List.getElem?_drop]
  split
  · rename_i h
    rw [octet, List.getD_eq_getElem _ _ h, List.getElem?_eq_getElem h]
  · rename_i h
    exact List.getElem?_eq_none (by unfold len at h; omega)

/-- What is read of a subheader. -/
theorem readSubheader_eq (hpos : pos < p.len) :
    SubPdu.readSubheader ulsch (p.1.drop pos) =
      if isValidLcid ulsch (p.lcidAt pos) then
        if pos + p.headerAt ulsch pos ≤ p.len then some (some (p.subpduAt ulsch pos)) else none
      else some none := by
  have hfirst : (p.1.drop pos)[0]? = some (p.octet pos) := by
    rw [drop_getElem?, Nat.add_zero, if_pos hpos]
  have hheader : p.headerAt ulsch pos = if hasLengthField ulsch (p.lcidAt pos) then
      if p.fBitAt pos then 3 else 2 else 1 := rfl
  have hlength : p.lengthAt ulsch pos = if hasLengthField ulsch (p.lcidAt pos) then
      if p.fBitAt pos then (p.octet (pos + 1)).toNat * 2 ^ 8 + (p.octet (pos + 2)).toNat
      else (p.octet (pos + 1)).toNat else sizeofCe (p.lcidAt pos) ulsch := rfl
  unfold SubPdu.readSubheader
  simp only [hfirst, Option.bind_eq_bind, Option.bind_some, List.drop_drop]
  change (if isValidLcid ulsch (p.lcidAt pos) = true then
    if hasLengthField ulsch (p.lcidAt pos) = true then _ else _ else _) = _
  by_cases hvalid : isValidLcid ulsch (p.lcidAt pos) = true
  · rw [if_pos hvalid, if_pos hvalid, subpduAt]
    by_cases hfield : hasLengthField ulsch (p.lcidAt pos) = true
    · rw [if_pos hfield] at hheader hlength ⊢
      rw [drop_getElem?]
      change ((if pos + 1 < p.len then _ else _ : Option UInt8).bind fun second =>
        if p.fBitAt pos = true then _ else _) = _
      by_cases hf : p.fBitAt pos = true
      · rw [if_pos hf] at hheader hlength
        simp only [if_pos hf]
        by_cases hroom : pos + 2 < p.len
        · rw [if_pos (by omega), Option.bind_some, drop_getElem?, if_pos hroom, Option.bind_some,
            if_pos (by omega), hheader, hlength, Int.natCast_add, Int.natCast_mul]
          rfl
        · simp only [drop_getElem?, if_neg hroom, Option.bind_none, Option.bind_fun_none]
          rw [if_neg (by omega)]
      · rw [if_neg hf] at hheader hlength
        simp only [if_neg hf]
        by_cases hroom : pos + 1 < p.len
        · rw [if_pos hroom, Option.bind_some, if_pos (by omega), hheader, hlength]
          rfl
        · rw [if_neg hroom, Option.bind_none, if_neg (by omega)]
    · rw [if_neg hfield] at hheader hlength ⊢
      rw [if_pos (by omega), hheader, hlength]
      rfl
  · rw [if_neg hvalid, if_neg hvalid]
    rfl

theorem getTotalLength_subpduAt : (p.subpduAt ulsch pos).getTotalLength =
    p.headerAt ulsch pos + p.lengthAt ulsch pos := by
  have hheader := headerAt_cases ulsch p pos
  have hlength := lengthAt_lt ulsch p pos
  unfold SubPdu.getTotalLength subpduAt
  dsimp only
  omega

theorem getSduLength_subpduAt : (p.subpduAt ulsch pos).getSduLength = p.lengthAt ulsch pos := by
  have hlength := lengthAt_lt ulsch p pos
  unfold SubPdu.getSduLength subpduAt
  dsimp only
  omega

theorem start_subpduAt (h : pos + p.headerAt ulsch pos ≤ p.len) :
    p.start (p.subpduAt ulsch pos) = pos + p.headerAt ulsch pos := by
  unfold start subpduAt
  rw [Option.getD_some, List.length_drop]
  unfold len at h ⊢
  omega

theorem payload_subpduAt (h : p.endAt ulsch pos ≤ p.len) :
    (p.subpduAt ulsch pos).payload.length = p.lengthAt ulsch pos := by
  unfold SubPdu.payload subpduAt
  dsimp only
  rw [List.length_take, Option.getD_some, List.length_drop, Int.toNat_natCast]
  unfold endAt len at h
  omega

/-! ### The accessors -/

/-- A CE that some accessor reads. -/
def Accessed (ulsch : Bool) (lcid : Nat) : Prop :=
  lcid = lcidTaCmd ∨ (ulsch = true ∧ isSdu lcid = false)

/-- The loop of `get_lbsr` reads as many bytes as there are. -/
theorem lbsrLoop_isSome {s : SubPdu} (h : s.sduLength ≤ s.payload.length) (bitmap : UInt8)
    (lcgs : List Nat) : ∀ (bsrCnt : Nat) (list : List (Nat × UInt8)),
      (s.lbsrLoop bitmap lcgs bsrCnt list).isSome := by
  induction lcgs with
  | nil => exact fun _ _ => rfl
  | cons i lcgs ih =>
    intro bsrCnt list
    unfold SubPdu.lbsrLoop
    split
    · split
      · rename_i hlt
        have hroom : 1 + bsrCnt < s.payload.length := by omega
        rw [List.getElem?_eq_getElem hroom]
        exact ih _ _
      · split
        · exact ih _ _
        · exact ih _ _
    · exact ih _ _

/-- A payload of the size of its CE is enough. -/
theorem readsInside_of_le {s : SubPdu} (hle : s.sduLength ≤ s.payload.length)
    (h : Accessed ulsch s.lcid → sizeofCe s.lcid ulsch ≤ s.payload.length) :
    s.ReadsInside ulsch := by
  -- The bytes that an accessor reads are there once its condition gives the LCID.
  have hbyte : ∀ {lcid i : Nat}, s.lcid = lcid → Accessed ulsch lcid → i < sizeofCe lcid ulsch →
      ∃ b, s.payload[i]? = some b := by
    rintro lcid i rfl hacc hi
    have hroom : i < s.payload.length := Nat.lt_of_lt_of_le hi (h hacc)
    exact ⟨_, List.getElem?_eq_getElem hroom⟩
  have hul : ∀ {lcid i : Nat}, ulsch = true ∧ s.lcid = lcid → isSdu lcid = false →
      i < sizeofCe lcid true → ∃ b, s.payload[i]? = some b := by
    rintro lcid i ⟨hulsch, hlcid⟩ hce hi
    exact hbyte hlcid (.inr ⟨hulsch, hce⟩) (hulsch ▸ hi)
  have hfirst : ∀ {lcid lcid' : Nat}, ulsch = true ∧ (s.lcid = lcid ∨ s.lcid = lcid') →
      isSdu lcid = false ∧ 0 < sizeofCe lcid true →
      isSdu lcid' = false ∧ 0 < sizeofCe lcid' true → ∃ b, s.payload[0]? = some b := by
    rintro lcid lcid' ⟨hulsch, hlcid | hlcid⟩ hce hce'
    · exact hul ⟨hulsch, hlcid⟩ hce.1 hce.2
    · exact hul ⟨hulsch, hlcid⟩ hce'.1 hce'.2
  constructor
  · unfold SubPdu.readCRnti
    split
    · rename_i hif
      obtain ⟨b₀, h₀⟩ := hul (i := 0) hif (by decide) (by decide)
      obtain ⟨b₁, h₁⟩ := hul (i := 1) hif (by decide) (by decide)
      rw [h₀, h₁]
      rfl
    · rfl
  · unfold SubPdu.readPhr
    split
    · rename_i hif
      obtain ⟨b, hb⟩ := hul (i := 0) hif (by decide) (by decide)
      rw [hb]
      rfl
    · rfl
  · unfold SubPdu.readPcmax
    split
    · rename_i hif
      obtain ⟨b, hb⟩ := hul (i := 1) hif (by decide) (by decide)
      rw [hb]
      rfl
    · rfl
  · unfold SubPdu.readTa
    split
    · rename_i hif
      obtain ⟨b, hb⟩ := hbyte (i := 0) hif (.inl rfl) (by cases ulsch <;> decide)
      rw [hb]
      rfl
    · rfl
  · unfold SubPdu.readSbsr
    split
    · rename_i hif
      obtain ⟨b, hb⟩ := hfirst hif (by decide) (by decide)
      rw [hb]
      rfl
    · rfl
  · unfold SubPdu.readLbsr
    split
    · rename_i hif
      obtain ⟨b, hb⟩ := hfirst hif (by decide) (by decide)
      have hloop := lbsrLoop_isSome hle b (List.range SubPdu.maxNumLcgLbsr) 0 []
      obtain ⟨list, hlist⟩ := Option.isSome_iff_exists.mp hloop
      rw [hb, Option.bind_eq_bind, Option.bind_some]
      by_cases hzero : b = 0
      · rw [if_pos hzero]
        rfl
      · rw [if_neg hzero, hlist]
        rfl
    · rfl

/-- The accessors read inside of a subPDU that is not cut off, unless it is an empty long BSR. -/
theorem readsInside_subpduAt (h : p.endAt ulsch pos ≤ p.len) :
    (p.subpduAt ulsch pos).ReadsInside ulsch ↔ ¬ p.EmptyLongBsr ulsch pos := by
  have hpayload := payload_subpduAt h
  constructor
  · rintro hreads ⟨hulsch, hvar, hempty⟩
    have hlbsr := hreads.lbsr
    have hif : ulsch = true ∧ ((p.subpduAt ulsch pos).lcid = lcidLongBsr ∨
        (p.subpduAt ulsch pos).lcid = lcidLongTruncBsr) :=
      ⟨hulsch, (of_decide_eq_true hvar).symm⟩
    rw [SubPdu.readLbsr, if_pos hif, List.getElem?_eq_none (by omega)] at hlbsr
    exact absurd hlbsr Bool.false_ne_true
  · intro hnot
    refine readsInside_of_le (by rw [hpayload]; exact Int.le_refl _) fun hacc => ?_
    rw [hpayload]
    change sizeofCe (p.lcidAt pos) ulsch ≤ p.lengthAt ulsch pos
    change Accessed ulsch (p.lcidAt pos) at hacc
    by_cases hfield : hasLengthField ulsch (p.lcidAt pos) = true
    · rcases hacc with hta | ⟨hulsch, hce⟩
      · rw [hta] at hfield
        exact absurd hfield (by cases ulsch <;> decide)
      · have hvar : isVarLenCe (p.lcidAt pos) = true :=
          (of_decide_eq_true hfield).2.resolve_left (by rw [hce]; exact Bool.false_ne_true)
        have hsize : sizeofCe (p.lcidAt pos) ulsch = 1 := by
          rcases of_decide_eq_true hvar with hlcid | hlcid
          · rw [hlcid, hulsch]
            rfl
          · rw [hlcid, hulsch]
            rfl
        have hempty : p.lengthAt ulsch pos ≠ 0 := fun hzero => hnot ⟨hulsch, hvar, hzero⟩
        omega
    · have hfixed : p.lengthAt ulsch pos = sizeofCe (p.lcidAt pos) ulsch := if_neg hfield
      exact Nat.le_of_eq hfixed.symm

/-! ### One round of the loop -/

variable {subpdus : List SubPdu} {r : Bool × List SubPdu}

/-- A round that ends the loop. -/
theorem ends_of_stop {last : Bool × List SubPdu}
    (h : ∀ fuel, unpackLoop ulsch p.1 (fuel + 1) pos subpdus = some last) :
    p.Ends ulsch pos subpdus r ↔ r = last := by
  constructor
  · rintro ⟨_ | fuel, hr⟩
    · exact absurd hr (by simp [unpackLoop_zero])
    · rw [h] at hr
      exact (Option.some.inj hr).symm
  · rintro rfl
    exact ⟨1, h 0⟩

/-- A round after which the loop goes on. -/
theorem ends_of_step {next : Nat} {more : List SubPdu}
    (h : ∀ fuel, unpackLoop ulsch p.1 (fuel + 1) pos subpdus =
      unpackLoop ulsch p.1 fuel next more) :
    p.Ends ulsch pos subpdus r ↔ p.Ends ulsch next more r := by
  constructor
  · rintro ⟨_ | fuel, hr⟩
    · exact absurd hr (by simp [unpackLoop_zero])
    · exact ⟨fuel, h fuel ▸ hr⟩
  · rintro ⟨fuel, hr⟩
    exact ⟨fuel + 1, (h fuel).trans hr⟩

/-- The loop ends at the end of the PDU or behind it. -/
theorem ends_of_le (h : p.len ≤ pos) :
    p.Ends ulsch pos subpdus r ↔ r = (decide (pos = p.len), subpdus) :=
  ends_of_stop fun _ => by
    rw [unpackLoop]
    exact if_neg (Nat.not_lt.mpr h)

/-- An unknown LCID is an error. -/
theorem ends_of_invalid (hpos : pos < p.len) (h : isValidLcid ulsch (p.lcidAt pos) = false) :
    p.Ends ulsch pos subpdus r ↔ r = (false, subpdus) := by
  refine ends_of_stop fun fuel => ?_
  rw [unpackLoop, readSubheader_eq hpos, h]
  exact if_pos hpos

/-- A subheader that is cut off is read behind the bytes. -/
theorem not_ends_of_cut (hpos : pos < p.len) (h : isValidLcid ulsch (p.lcidAt pos) = true)
    (hcut : p.len < pos + p.headerAt ulsch pos) : ¬ p.Ends ulsch pos subpdus r := by
  have hround : ∀ fuel, unpackLoop ulsch p.1 (fuel + 1) pos subpdus = none := by
    intro fuel
    rw [unpackLoop, readSubheader_eq hpos, if_pos h, if_neg (Nat.not_le.mpr hcut)]
    exact if_pos hpos
  rintro ⟨_ | fuel, hr⟩
  · exact absurd hr (by simp [unpackLoop_zero])
  · rw [hround] at hr
    exact absurd hr (by simp)

/-- A subPDU is added, and the loop goes on behind it. -/
theorem unpackLoop_goes (h : p.Goes ulsch pos) (hwhole : pos + p.headerAt ulsch pos ≤ p.len)
    (fuel : Nat) : unpackLoop ulsch p.1 (fuel + 1) pos subpdus =
      unpackLoop ulsch p.1 fuel (p.endAt ulsch pos % 2 ^ 32)
        (subpdus ++ [p.subpduAt ulsch pos]) := by
  rw [unpackLoop, readSubheader_eq h.inside, if_pos h.valid, if_pos hwhole, endAt,
    ← getTotalLength_subpduAt]
  exact (if_pos h.inside).trans (if_neg h.data)

theorem ends_of_goes (h : p.Goes ulsch pos) (hwhole : pos + p.headerAt ulsch pos ≤ p.len) :
    p.Ends ulsch pos subpdus r ↔
      p.Ends ulsch (p.endAt ulsch pos % 2 ^ 32) (subpdus ++ [p.subpduAt ulsch pos]) r :=
  ends_of_step (unpackLoop_goes h hwhole)

/-- The padding that starts at `pos`. -/
def paddingAt (ulsch : Bool) (p : SchPayload) (pos : Nat) : SubPdu :=
  (p.subpduAt ulsch pos).setPadding (subU32 p.len (pos + 1) + 1)

/-- The subheader of padding is one byte, and nothing is read behind it. -/
theorem padding_fields (ulsch : Bool) (h : p.lcidAt pos = lcidPadding) :
    p.headerAt ulsch pos = 1 ∧ p.lengthAt ulsch pos = 0 := by
  have hfield : ¬ hasLengthField ulsch (p.lcidAt pos) = true := by
    rw [h]
    cases ulsch <;> decide
  rw [headerAt, lengthAt, if_neg hfield, if_neg hfield, h]
  cases ulsch <;> exact ⟨rfl, rfl⟩

/-- Padding ends the loop. -/
theorem ends_of_padding (hpos : pos < p.len) (h : p.lcidAt pos = lcidPadding) :
    p.Ends ulsch pos subpdus r ↔ r = (true, subpdus ++ [p.paddingAt ulsch pos]) := by
  have hlt : p.len < 2 ^ 32 := p.2
  have hvalid : isValidLcid ulsch (p.lcidAt pos) = true := by
    rw [h]
    cases ulsch <;> decide
  obtain ⟨hheader, hlength⟩ := padding_fields ulsch h
  have hnext : (pos + (p.subpduAt ulsch pos).getTotalLength) % 2 ^ 32 = pos + 1 := by
    rw [getTotalLength_subpduAt, hheader, hlength]
    omega
  have hwhole : pos + p.headerAt ulsch pos ≤ p.len := by omega
  have hround : p.Ends ulsch pos subpdus r ↔
      p.Ends ulsch p.len (subpdus ++ [p.paddingAt ulsch pos]) r := by
    refine ends_of_step fun fuel => ?_
    rw [unpackLoop, readSubheader_eq hpos, if_pos hvalid, if_pos hwhole, paddingAt, ← hnext]
    exact (if_pos hpos).trans (if_pos h)
  rw [hround, ends_of_le (Nat.le_refl _), decide_eq_true rfl]

/-- The payload of padding is what is left. -/
theorem padding_spec (hpos : pos < p.len) (h : p.lcidAt pos = lcidPadding) :
    p.start (p.paddingAt ulsch pos) = pos + 1 ∧
      (p.paddingAt ulsch pos).getSduLength = p.len - (pos + 1) ∧
      (p.paddingAt ulsch pos).ReadsInside ulsch := by
  have hlt : p.len < 2 ^ 32 := p.2
  obtain ⟨hheader, hlength⟩ := padding_fields ulsch h
  refine ⟨?_, ?_, ?_⟩
  · have hwhole : pos + p.headerAt ulsch pos ≤ p.len := by omega
    exact hheader ▸ start_subpduAt hwhole
  · have hleft : subU32 (subU32 p.len (pos + 1) + 1) 1 = p.len - (pos + 1) := by
      unfold subU32
      rw [if_pos (by omega), if_pos (by omega), Nat.add_sub_cancel]
    have hsdu : (p.paddingAt ulsch pos).sduLength =
        Int.bmod (subU32 (subU32 p.len (pos + 1) + 1) 1) (2 ^ 32) := by
      rw [paddingAt, SubPdu.setPadding]
    rw [SubPdu.getSduLength, hsdu, hleft, Int.bmod_def]
    split <;> omega
  · constructor <;> cases ulsch <;> rfl

/-! ### The whole walk -/

/-- A subPDU that starts behind the others. -/
theorem Inside.append {s : SubPdu} {next : Nat} (h : p.Inside ulsch pos subpdus)
    (hstart : pos ≤ p.start s) (hend : p.start s + s.getSduLength ≤ next)
    (hreads : s.ReadsInside ulsch) : p.Inside ulsch next (subpdus ++ [s]) := by
  have hnext : pos ≤ next := by omega
  refine ⟨fun t ht => ?_, ?_, fun t ht => ?_⟩
  · rcases List.mem_append.mp ht with ht | ht
    · exact Nat.le_trans (h.before t ht) hnext
    · rw [List.mem_singleton.mp ht]
      exact hend
  · refine List.pairwise_append.mpr ⟨h.apart, List.pairwise_singleton _ _, fun t ht u hu => ?_⟩
    rw [List.mem_singleton.mp hu]
    exact Nat.le_trans (h.before t ht) hstart
  · rcases List.mem_append.mp ht with ht | ht
    · exact h.reads t ht
    · rw [List.mem_singleton.mp ht]
      exact hreads

/-- A reached offset ends as the whole PDU does. -/
theorem Reached.ends (h : p.Reached ulsch pos) :
    ∃ subpdus, ∀ r, p.Ends ulsch 0 [] r ↔ p.Ends ulsch pos subpdus r := by
  induction h with
  | start => exact ⟨[], fun r => Iff.rfl⟩
  | next h goes whole ih =>
    obtain ⟨subpdus, hends⟩ := ih
    exact ⟨_, fun r => (hends r).trans (ends_of_goes goes whole)⟩

/-- The subPDUs that are found stay. -/
theorem Ends.mem (h : p.Ends ulsch pos subpdus r) {s : SubPdu} (hs : s ∈ subpdus) : s ∈ r.2 := by
  obtain ⟨fuel, h⟩ := h
  induction fuel generalizing pos subpdus with
  | zero => exact absurd h (by simp [unpackLoop_zero])
  | succ fuel ih =>
    unfold unpackLoop at h
    split at h
    · split at h
      · exact absurd h (by simp)
      · exact Option.some.inj h ▸ hs
      · dsimp only at h
        split at h
        · exact ih (List.mem_append_left _ hs) h
        · exact ih (List.mem_append_left _ hs) h
    · exact Option.some.inj h ▸ hs

/-- A PDU that is refused was seen to be wrong. -/
theorem Ends.rejects (h : p.Ends ulsch pos subpdus r) (hpos : p.Reached ulsch pos)
    (hr : r.1 = false) : p.Rejects ulsch := by
  obtain ⟨fuel, h⟩ := h
  induction fuel generalizing pos subpdus with
  | zero => exact absurd h (by simp [unpackLoop_zero])
  | succ fuel ih =>
    have hends : p.Ends ulsch pos subpdus r := ⟨fuel + 1, h⟩
    by_cases hin : pos < p.len
    · by_cases hvalid : isValidLcid ulsch (p.lcidAt pos) = true
      · by_cases hdata : p.lcidAt pos = lcidPadding
        · rw [ends_of_padding hin hdata] at hends
          rw [hends] at hr
          exact absurd hr.symm Bool.false_ne_true
        · by_cases hwhole : pos + p.headerAt ulsch pos ≤ p.len
          · have hgoes : p.Goes ulsch pos := ⟨hin, hvalid, hdata⟩
            rw [unpackLoop_goes hgoes hwhole] at h
            exact ih (hpos.next hgoes hwhole) h
          · exact absurd hends (not_ends_of_cut hin hvalid (Nat.lt_of_not_le hwhole))
      · exact ⟨pos, hpos, .inr ⟨hin, Bool.eq_false_iff.mpr hvalid⟩⟩
    · rw [ends_of_le (Nat.le_of_not_lt hin)] at hends
      rw [hends] at hr
      have hne : pos ≠ p.len := of_decide_eq_false hr
      exact ⟨pos, hpos, .inl (by omega)⟩

/-- A PDU with a rejecting offset is refused. -/
theorem ends_of_rejects (h : p.Rejects ulsch) : ∃ subpdus, p.Ends ulsch 0 [] (false, subpdus) := by
  obtain ⟨pos, hpos, hend⟩ := h
  obtain ⟨subpdus, hends⟩ := hpos.ends
  refine ⟨subpdus, (hends _).mpr ?_⟩
  rcases hend with hlt | ⟨hin, hvalid⟩
  · rw [ends_of_le (Nat.le_of_lt hlt), decide_eq_false (by omega)]
  · exact (ends_of_invalid hin hvalid).mpr rfl

/-- Without the faults, the loop ends from every offset that is reached, with subPDUs that lie in
the PDU. The induction is on what is left. -/
theorem ends_of_clean (hwhole : ∀ pos, p.Reached ulsch pos → p.Goes ulsch pos →
      pos + p.headerAt ulsch pos ≤ p.len)
    (hrest : ∀ pos, p.Reached ulsch pos → p.Goes ulsch pos →
      p.endAt ulsch pos < 2 ^ 32 ∧ ¬ p.EmptyLongBsr ulsch pos)
    (hpos : p.Reached ulsch pos) (hle : pos ≤ p.len) (hinside : p.Inside ulsch pos subpdus) :
    ∃ r, p.Ends ulsch pos subpdus r ∧ (r.1 = true → p.Inside ulsch p.len r.2) := by
  generalize hleft : p.len - pos = left
  induction left using Nat.strongRecOn generalizing pos subpdus with
  | ind left ih =>
    by_cases hin : pos < p.len
    · by_cases hvalid : isValidLcid ulsch (p.lcidAt pos) = true
      · by_cases hdata : p.lcidAt pos = lcidPadding
        · obtain ⟨hstart, hlength, hreads⟩ := @padding_spec ulsch _ _ hin hdata
          exact ⟨_, (ends_of_padding hin hdata).mpr rfl,
            fun _ => hinside.append (by omega) (by omega) hreads⟩
        · have hgoes : p.Goes ulsch pos := ⟨hin, hvalid, hdata⟩
          have hheader := hwhole pos hpos hgoes
          obtain ⟨hlt, hbsr⟩ := hrest pos hpos hgoes
          have hnext : p.endAt ulsch pos % 2 ^ 32 = p.endAt ulsch pos := Nat.mod_eq_of_lt hlt
          have hreached := hnext ▸ hpos.next hgoes hheader
          have hstep : ∀ r, p.Ends ulsch pos subpdus r ↔ _ := fun _ => ends_of_goes hgoes hheader
          rw [hnext] at hstep
          have hpos1 := headerAt_cases ulsch p pos
          have hend : p.endAt ulsch pos = pos + (p.headerAt ulsch pos + p.lengthAt ulsch pos) := rfl
          by_cases hfits : p.endAt ulsch pos ≤ p.len
          · have hstart := start_subpduAt hheader
            have hlength := @getSduLength_subpduAt ulsch p pos
            have hmore : p.Inside ulsch (p.endAt ulsch pos) _ := hinside.append (by omega)
              (by omega) ((readsInside_subpduAt hfits).mpr hbsr)
            obtain ⟨r, hr, hok⟩ := ih _ (by omega) hreached hfits hmore rfl
            exact ⟨r, (hstep r).mpr hr, hok⟩
          · refine ⟨_, (hstep _).mpr ((ends_of_le (by omega)).mpr rfl), fun hok => ?_⟩
            have heq : p.endAt ulsch pos = p.len := of_decide_eq_true hok
            exact absurd (Nat.le_of_eq heq) hfits
      · exact ⟨_, (ends_of_invalid hin (Bool.eq_false_iff.mpr hvalid)).mpr rfl,
          fun hok => absurd hok Bool.false_ne_true⟩
    · have heq : pos = p.len := Nat.le_antisymm hle (Nat.le_of_not_lt hin)
      exact ⟨_, (ends_of_le (Nat.le_of_eq heq.symm)).mpr rfl, fun _ => heq ▸ hinside⟩

/-! ### Parsing in bounds -/

/-- `unpack` reads in bounds and finds what lies in the PDU exactly for clean bytes. -/
theorem parsesInBounds_iff_clean (ulsch : Bool) (p : SchPayload) :
    p.ParsesInBounds ulsch ↔ p.Clean ulsch := by
  constructor
  · rintro ⟨r, hends, hinside, hcut⟩
    have hwhole : ∀ pos, p.Reached ulsch pos → p.Goes ulsch pos →
        pos + p.headerAt ulsch pos ≤ p.len := by
      intro pos hpos hgoes
      by_contra hheader
      obtain ⟨subpdus, hiff⟩ := hpos.ends
      exact not_ends_of_cut hgoes.inside hgoes.valid (Nat.lt_of_not_le hheader) ((hiff r).mp hends)
    refine ⟨hwhole, ?_⟩
    by_cases hr : r.1 = true
    · refine .inr fun pos hpos hgoes => ?_
      have hfits : p.endAt ulsch pos ≤ p.len := by
        by_contra hlong
        exact absurd (hcut ⟨pos, hpos, hgoes, Nat.lt_of_not_le hlong⟩) (by rw [hr]; decide)
      refine ⟨Nat.lt_of_le_of_lt hfits p.2, (readsInside_subpduAt hfits).mp ?_⟩
      -- The subPDU is one of those that are found.
      obtain ⟨subpdus, hiff⟩ := hpos.ends
      have hstep := (ends_of_goes hgoes (hwhole pos hpos hgoes)).mp ((hiff r).mp hends)
      exact (hinside hr).reads _ (hstep.mem (List.mem_append_right _ (List.mem_singleton.mpr rfl)))
    · exact .inl (hends.rejects .start (Bool.eq_false_iff.mpr hr))
  · rintro ⟨hwhole, hrest⟩
    rcases hrest with hrejects | hrest
    · obtain ⟨subpdus, hends⟩ := ends_of_rejects hrejects
      exact ⟨_, hends, fun hok => absurd hok Bool.false_ne_true, fun _ => rfl⟩
    · obtain ⟨r, hends, hinside⟩ := ends_of_clean hwhole hrest .start (Nat.zero_le _)
        ⟨by simp, List.Pairwise.nil, by simp⟩
      refine ⟨r, hends, hinside, ?_⟩
      rintro ⟨pos, hpos, hgoes, hlong⟩
      have hnext := Nat.mod_eq_of_lt (hrest pos hpos hgoes).1
      obtain ⟨subpdus, hiff⟩ := (hpos.next hgoes (hwhole pos hpos hgoes)).ends
      rw [hiff, hnext, ends_of_le (Nat.le_of_lt hlong)] at hends
      rw [hends]
      exact decide_eq_false (by omega)

/-- The length of an SDU is read behind a PDU of one byte. -/
theorem not_parsesInBounds_cutLength :
    ¬ ParsesInBounds true ⟨[0x01], by decide⟩ := by
  rintro ⟨r, hends, -⟩
  exact not_ends_of_cut (by decide) (by decide) (by decide) hends

end SchPayload

end Odss.MacNr
