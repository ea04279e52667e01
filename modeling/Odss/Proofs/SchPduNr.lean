import Odss.Common.IntHelpers
import Odss.MacNr.SchPdu
import Mathlib.Data.List.GetD

/-!
# `Odss.Proofs.SchPduNr`: NR MAC PDUs that are written and read

A PDU is filled by any sequence of calls and packed, and its bytes are read in the same direction.
The subPDUs that are found are those of the calls that were accepted. What a CE says is read back
in the uplink only, as the bits that it has there.

* `readSubheader_write` is one subPDU, and `unpackLoop_subpdus` all of them.
* `Filled` is the invariant of a PDU, and `filled_apply` what one call does to it.
* `comesBack_of_fits` is the result.
-/

set_option linter.all false

namespace Odss.MacNr

open Odss.Rlc (Bytes subU32)

/-! ### What is written and read -/

/-- What a subPDU says to its reader. -/
structure Content where
  lcid : Nat
  payload : Bytes
  cRnti : UInt16
  phr : UInt8
  pcmax : UInt8
  sbsr : UInt8 × UInt8
deriving DecidableEq, Repr

/-- A content without values. -/
def Content.ofBytes (lcid : Nat) (payload : Bytes) : Content := ⟨lcid, payload, 0, 0, 0, (0, 0)⟩

/-- The content of a subPDU. -/
def SubPdu.content (ulsch : Bool) (s : SubPdu) : Content :=
  ⟨s.lcid, s.payload, s.getCRnti ulsch, s.getPhr ulsch, s.getPcmax ulsch, s.getSbsr ulsch⟩

/-- A call that adds a subPDU. -/
inductive Call where
  | addSdu (lcid : Nat) (payload : Bytes)
  | addCrntiCe (crnti : UInt16)
  | addSePhrCe (phr pcmax : UInt8)
  | addSbsrCe (lcgId bufferSize : UInt8)
deriving DecidableEq, Repr

namespace Call

def apply (p : SchPdu) : Call → Option (Bool × SchPdu)
  | addSdu lcid payload => p.addSdu lcid payload
  | addCrntiCe crnti => p.addCrntiCe crnti
  | addSePhrCe phr pcmax => p.addSePhrCe phr pcmax
  | addSbsrCe lcgId bufferSize => p.addSbsrCe lcgId bufferSize

/-- The subPDU of a call. -/
def subpdu (ulsch : Bool) : Call → SubPdu
  | addSdu lcid payload => .setSdu ulsch lcid payload
  | addCrntiCe crnti => .setCRnti ulsch crnti
  | addSePhrCe phr pcmax => .setSePhr ulsch phr pcmax
  | addSbsrCe lcgId bufferSize => .setSbsr ulsch lcgId bufferSize

/-- The content that the caller means. -/
def meant : Call → Content
  | addSdu lcid payload => .ofBytes lcid payload
  | addCrntiCe crnti =>
    { Content.ofBytes lcidCrnti [(crnti >>> 8).toUInt8, crnti.toUInt8] with cRnti := crnti }
  | addSePhrCe phr pcmax =>
    { Content.ofBytes lcidSePhr [phr, pcmax] with phr := phr, pcmax := pcmax }
  | addSbsrCe lcgId bufferSize =>
    { Content.ofBytes lcidShortBsr [(lcgId <<< 5) ||| bufferSize] with
      sbsr := (lcgId, bufferSize) }

/-- The content that is read back: in the uplink with the bits that the CE has, and in the downlink,
where the CEs are others, without values. -/
def content (ulsch : Bool) : Call → Content
  | addSdu lcid payload => .ofBytes lcid payload
  | addCrntiCe crnti => if ulsch then (addCrntiCe crnti).meant else .ofBytes lcidCrnti []
  | addSePhrCe phr pcmax =>
    if ulsch then (addSePhrCe (phr &&& 0x3f) (pcmax &&& 0x3f)).meant else .ofBytes lcidSePhr []
  | addSbsrCe lcgId bufferSize =>
    if ulsch then (addSbsrCe (lcgId &&& 0x07) (bufferSize &&& 0x1f)).meant
    else .ofBytes lcidShortBsr [((lcgId &&& 0x07) <<< 5) ||| (bufferSize &&& 0x1f)]

/-- A call with a LCID of an SDU, where the CCCH of the uplink has its size, and a payload for which
no length wraps around. -/
def WellFormed (ulsch : Bool) : Call → Prop
  | addSdu lcid payload =>
    ((1 ≤ lcid ∧ lcid ≤ 32) ∨ (ulsch = true ∧
      ((lcid = lcidCcchSize48 ∧ payload.length = 6) ∨
        (lcid = lcidCcchSize64 ∧ payload.length = 8)))) ∧ payload.length < 2 ^ 32 - 2
  | _ => True

/-- A sequence of calls, with those that were accepted. -/
def run (p : SchPdu) : List Call → Option (List Call × SchPdu)
  | [] => some ([], p)
  | call :: calls => do
    let (ok, p) ← call.apply p
    let (accepted, p) ← run p calls
    pure (if ok then call :: accepted else accepted, p)

end Call

/-! ### One subPDU -/

namespace SubPdu

/-- A subPDU as `write_subpdu` and `read_subheader` both take it. -/
structure Plain (ulsch : Bool) (s : SubPdu) : Prop where
  lcid_lt : s.lcid < lcidPadding
  valid : isValidLcid ulsch s.lcid
  nonneg : 0 ≤ s.sduLength
  length_lt : s.sduLength < 2 ^ 16
  header : if hasLengthField ulsch s.lcid then
      (s.fBit = true ∧ s.headerLength = 3) ∨
        (s.fBit = false ∧ s.headerLength = 2 ∧ s.sduLength < 256)
    else s.fBit = false ∧ s.headerLength = 1 ∧ s.sduLength = sizeofCe s.lcid ulsch
  sdu : ∃ bytes, s.sdu = some bytes ∧ s.sduLength.toNat ≤ bytes.length

variable {ulsch : Bool} {s : SubPdu}

theorem first_byte {lcid : Nat} (fBit : Bool) (h : lcid < 64) :
    ((UInt8.ofNat ((if fBit then 64 else 0) ||| (lcid % 2 ^ 8 &&& 0x3f)) &&& 0x40 ≠ 0) ↔
      fBit = true) ∧
    (UInt8.ofNat ((if fBit then 64 else 0) ||| (lcid % 2 ^ 8 &&& 0x3f)) &&& 0x3f).toNat = lcid := by
  have hall : ∀ fBit : Bool, ∀ lcid : Fin 64,
      ((UInt8.ofNat ((if fBit then 64 else 0) ||| (lcid.val % 2 ^ 8 &&& 0x3f)) &&& 0x40 ≠ 0) ↔
        fBit = true) ∧
      (UInt8.ofNat ((if fBit then 64 else 0) ||| (lcid.val % 2 ^ 8 &&& 0x3f)) &&& 0x3f).toNat
        = lcid.val := by
    decide
  exact hall fBit ⟨lcid, h⟩

theorem Plain.payload_length (h : s.Plain ulsch) : s.payload.length = s.sduLength.toNat := by
  obtain ⟨bytes, hsdu, hle⟩ := h.sdu
  unfold payload
  rw [hsdu, Option.getD_some, List.length_take]
  omega

/-- The bytes of a subPDU. -/
def octets (s : SubPdu) : Bytes :=
  UInt8.ofNat ((if s.fBit then 64 else 0) ||| (s.lcid % 2 ^ 8 &&& 0x3f)) ::
    (s.lengthField ++ s.payload)

theorem Plain.writeSubpdu_eq (h : s.Plain ulsch) : s.writeSubpdu = some s.octets := by
  obtain ⟨bytes, hsdu, hle⟩ := h.sdu
  have hnonneg := h.nonneg
  unfold writeSubpdu octets payload
  rw [hsdu]
  dsimp only
  rw [if_neg (by omega), if_neg (by omega), Option.getD_some]

theorem Plain.headerLength_le (h : s.Plain ulsch) : 1 ≤ s.headerLength ∧ s.headerLength ≤ 3 := by
  have hheader := h.header
  split at hheader
  · rcases hheader with h | h <;> omega
  · omega

theorem Plain.getTotalLength_eq (h : s.Plain ulsch) :
    s.getTotalLength = s.headerLength + s.sduLength.toNat := by
  have hle := h.headerLength_le
  have hnonneg := h.nonneg
  have hlt := h.length_lt
  unfold getTotalLength
  omega

theorem Plain.octets_length (h : s.Plain ulsch) : s.octets.length = s.getTotalLength := by
  have hpayload := h.payload_length
  have hheader := h.header
  have hfield : s.lengthField.length + 1 = s.headerLength := by
    unfold lengthField
    split at hheader
    · rcases hheader with ⟨-, h3⟩ | ⟨-, h2, -⟩
      · rw [h3]
        rfl
      · rw [h2]
        rfl
    · rw [hheader.2.1]
      rfl
  rw [h.getTotalLength_eq]
  unfold octets
  rw [List.length_cons, List.length_append]
  omega

/-- A subPDU is read as it was written, with the bytes behind it in reach of the pointer. -/
theorem readSubheader_write (h : s.Plain ulsch) (rest : Bytes) :
    readSubheader ulsch (s.octets ++ rest)
      = some (some { s with sdu := some (s.payload ++ rest) }) := by
  obtain ⟨hbit, hlcid⟩ := first_byte s.fBit (Nat.lt_trans h.lcid_lt (by decide))
  have hheader := h.header
  have hnonneg := h.nonneg
  have hlt := h.length_lt
  have hvalid := h.valid
  obtain ⟨lcid, headerLength, sduLength, fBit, sdu⟩ := s
  dsimp only at hheader hbit hlcid hnonneg hlt hvalid
  generalize hpayload : payload ⟨lcid, headerLength, sduLength, fBit, sdu⟩ = octets'
  unfold octets readSubheader
  dsimp only
  rw [hpayload]
  generalize UInt8.ofNat ((if fBit = true then 64 else 0) ||| (lcid % 2 ^ 8 &&& 0x3f)) = first
    at hbit hlcid
  have hF : decide (first &&& 0x40 ≠ 0) = fBit := by
    rw [decide_eq_decide.mpr hbit]
    exact Bool.decide_coe fBit
  simp only [List.cons_append, List.getElem?_cons_zero, Option.bind_eq_bind, Option.bind_some,
    hlcid, hF, if_pos hvalid]
  split at hheader
  · next hfield =>
    rw [if_pos hfield]
    rcases hheader with ⟨rfl, rfl⟩ | ⟨rfl, rfl, hsmall⟩
    · -- The length in two bytes.
      simp [lengthField]
      omega
    · simp [lengthField]
      omega
  · next hfield =>
    obtain ⟨rfl, rfl, hsize⟩ := hheader
    rw [if_neg hfield]
    simp [lengthField]
    exact hsize.symm

/-- The reader finds the same content, when a CE of the uplink has its bytes. -/
theorem Plain.content_eq (h : s.Plain ulsch) (rest : Bytes)
    (hce : ulsch = true → s.lcid = lcidCrnti ∨ s.lcid = lcidSePhr → 2 ≤ s.sduLength)
    (hbsr : ulsch = true → s.lcid = lcidShortBsr ∨ s.lcid = lcidShortTruncBsr → 1 ≤ s.sduLength) :
    content ulsch { s with sdu := some (s.payload ++ rest) } = content ulsch s := by
  obtain ⟨bytes, hsdu, hle⟩ := h.sdu
  have hlength := h.payload_length
  have hbyte : ∀ i < s.sduLength.toNat,
      byteAt { s with sdu := some (s.payload ++ rest) } i = s.byteAt i := by
    intro i hi
    unfold byteAt payload
    rw [hsdu, Option.getD_some, Option.getD_some, List.getD_append _ _ _ _ (by
      rw [List.length_take]; omega), List.getD_eq_getElem?_getD, List.getD_eq_getElem?_getD,
      List.getElem?_take_of_lt hi]
  have hpayload : payload { s with sdu := some (s.payload ++ rest) } = s.payload := by
    show (s.payload ++ rest).take s.sduLength.toNat = s.payload
    rw [← hlength, List.take_left]
  unfold content
  rw [hpayload]
  congr 1
  · unfold getCRnti
    dsimp only
    split
    · next hul =>
      have hsize := hce hul.1 (Or.inl hul.2)
      rw [hbyte 0 (by omega), hbyte 1 (by omega)]
    · rfl
  · unfold getPhr
    dsimp only
    split
    · next hul =>
      have hsize := hce hul.1 (Or.inr hul.2)
      rw [hbyte 0 (by omega)]
    · rfl
  · unfold getPcmax
    dsimp only
    split
    · next hul =>
      have hsize := hce hul.1 (Or.inr hul.2)
      rw [hbyte 1 (by omega)]
    · rfl
  · unfold getSbsr
    dsimp only
    split
    · next hul =>
      have hsize := hbsr hul.1 hul.2
      rw [hbyte 0 (by omega)]
    · rfl

/-- A subPDU that is no CE with values. -/
theorem content_of_sdu (h : s.lcid ≠ lcidCrnti ∧ s.lcid ≠ lcidSePhr ∧
    ¬ (s.lcid = lcidShortBsr ∨ s.lcid = lcidShortTruncBsr)) :
    s.content ulsch = .ofBytes s.lcid s.payload := by
  unfold content getCRnti getPhr getPcmax getSbsr
  rw [if_neg fun hul => h.1 hul.2, if_neg fun hul => h.2.1 hul.2, if_neg fun hul => h.2.1 hul.2,
    if_neg fun hul => h.2.2 hul.2]
  rfl

end SubPdu

/-! ### All subPDUs -/

section Unpack

variable {ulsch : Bool}

/-- What the reader makes of subPDUs in front of other bytes. -/
def found : List SubPdu → Bytes → List SubPdu
  | [], _ => []
  | s :: ss, rest =>
    { s with sdu := some (s.payload ++ (ss.flatMap (·.octets) ++ rest)) } :: found ss rest

/-- The loop goes over subPDUs, to what is behind them. -/
theorem unpackLoop_subpdus {pdu rest : Bytes} (hpdu : pdu.length < 2 ^ 32) {ss : List SubPdu}
    (hplain : ∀ s ∈ ss, s.Plain ulsch) {offset fuel : Nat} {acc : List SubPdu}
    (hdrop : pdu.drop offset = ss.flatMap (·.octets) ++ rest) (hoffset : offset ≤ pdu.length) :
    unpackLoop ulsch pdu (fuel + ss.length) offset acc
      = unpackLoop ulsch pdu fuel (offset + (ss.flatMap (·.octets)).length)
        (acc ++ found ss rest) := by
  induction ss generalizing offset acc with
  | nil => rw [found, List.append_nil]; rfl
  | cons s ss ih =>
    have hs := hplain s List.mem_cons_self
    have hsplit : pdu.drop offset = s.octets ++ (ss.flatMap (·.octets) ++ rest) := by
      rw [hdrop, List.flatMap_cons, List.append_assoc]
    have hsize := congrArg List.length hsplit
    rw [List.length_drop, List.length_append] at hsize
    have hhead : 0 < s.octets.length := Nat.succ_pos _
    have hread := SubPdu.readSubheader_write hs (ss.flatMap (·.octets) ++ rest)
    have htotal : SubPdu.getTotalLength
        { s with sdu := some (s.payload ++ (ss.flatMap (·.octets) ++ rest)) } = s.octets.length :=
      hs.octets_length.symm
    have hnext : pdu.drop (offset + s.octets.length) = ss.flatMap (·.octets) ++ rest := by
      rw [← List.drop_drop, hsplit, List.drop_left]
    have hnopad : s.lcid ≠ lcidPadding := Nat.ne_of_lt hs.lcid_lt
    rw [List.length_cons, ← Nat.add_assoc, unpackLoop, if_pos (by omega), hsplit, hread]
    dsimp only
    rw [htotal, Nat.mod_eq_of_lt (by omega), if_neg hnopad,
      ih (fun s' h => hplain s' (List.mem_cons_of_mem _ h)) hnext (by omega),
      List.flatMap_cons, List.length_append, found, List.append_assoc, Nat.add_assoc]
    rfl

theorem unpackLoop_padding {pdu : Bytes} (hpdu : pdu.length < 2 ^ 16) {n offset fuel : Nat}
    {acc : List SubPdu} (hdrop : pdu.drop offset = 63 :: List.replicate n 0) :
    unpackLoop ulsch pdu (fuel + 2) offset acc
      = some (true, acc ++ [⟨lcidPadding, 1, n, false, some (List.replicate n 0)⟩]) := by
  have hsize := congrArg List.length hdrop
  rw [List.length_drop, List.length_cons, List.length_replicate] at hsize
  have hread : SubPdu.readSubheader ulsch (63 :: List.replicate n 0)
      = some (some ⟨lcidPadding, 1, 0, false, some (List.replicate n 0)⟩) := by
    cases ulsch <;> rfl
  have htotal : SubPdu.getTotalLength ⟨lcidPadding, 1, 0, false, some (List.replicate n 0)⟩ = 1 :=
    rfl
  rw [show fuel + 2 = fuel + 1 + 1 from rfl, unpackLoop, if_pos (by omega), hdrop, hread]
  dsimp only
  rw [if_pos rfl, htotal, Nat.mod_eq_of_lt (by omega), unpackLoop,
    if_neg (Nat.lt_irrefl _)]
  have hrest : Int.bmod (subU32 (subU32 pdu.length (offset + 1) + 1) 1) (2 ^ 32) = n := by
    unfold subU32
    rw [if_pos (by omega), if_pos (by omega), Int.bmod_eq_of_le (by omega) (by omega)]
    omega
  unfold SubPdu.setPadding
  rw [hrest]
  simp

end Unpack

/-! ### The subPDUs of the calls -/

namespace Call

variable {ulsch : Bool}

/-- The subPDU of a call is written and read, and says what the call has put into it. -/
structure Written (ulsch : Bool) (call : Call) : Prop where
  plain : (call.subpdu ulsch).Plain ulsch
  content_eq : (call.subpdu ulsch).content ulsch = call.content ulsch
  read_eq : ∀ rest, SubPdu.content ulsch
    { call.subpdu ulsch with sdu := some ((call.subpdu ulsch).payload ++ rest) }
      = call.content ulsch

theorem plain_setCe {lcid : Nat} {bytes : Bytes} (hlcid : lcid < lcidPadding)
    (hvalid : isValidLcid ulsch lcid) (hfield : hasLengthField ulsch lcid = false)
    (hsize : sizeofCe lcid ulsch ≤ bytes.length) (hsmall : bytes.length ≤ 2) :
    (SubPdu.setCe ulsch lcid bytes).Plain ulsch where
  lcid_lt := hlcid
  valid := hvalid
  nonneg := Int.natCast_nonneg _
  length_lt := by
    show (sizeofCe lcid ulsch : Int) < _
    omega
  header := by
    rw [show (SubPdu.setCe ulsch lcid bytes).lcid = lcid from rfl, hfield]
    exact ⟨rfl, rfl, rfl⟩
  sdu := by
    refine ⟨_, rfl, ?_⟩
    rw [List.length_append]
    exact Nat.le_trans hsize (Nat.le_add_right _ _)

theorem and_mask (x : UInt8) : x &&& 0x3f &&& 0x3f = x &&& 0x3f := by
  rw [UInt8.and_assoc]
  rfl

theorem crnti_bytes (crnti : UInt16) :
    ((crnti >>> 8).toUInt8.toUInt16 <<< 8) ||| crnti.toUInt8.toUInt16 = crnti :=
  Odss.Common.uint8ToUint16_bytes crnti

theorem sbsr_byte (lcgId bufferSize : UInt8) :
    (((lcgId &&& 0x07) <<< 5 ||| (bufferSize &&& 0x1f)) &&& 0xe0) >>> 5 = lcgId &&& 0x07 ∧
      ((lcgId &&& 0x07) <<< 5 ||| (bufferSize &&& 0x1f)) &&& 0x1f = bufferSize &&& 0x1f := by
  have hall : ∀ x : Fin 8, ∀ y : Fin 32,
      (((UInt8.ofNat x.val) <<< 5 ||| UInt8.ofNat y.val) &&& 0xe0) >>> 5 = UInt8.ofNat x.val ∧
        ((UInt8.ofNat x.val) <<< 5 ||| UInt8.ofNat y.val) &&& 0x1f = UInt8.ofNat y.val := by
    decide
  have hx : (lcgId &&& 0x07).toNat < 8 := by
    rw [UInt8.toNat_and]
    exact Nat.lt_of_le_of_lt Nat.and_le_right (by decide)
  have hy : (bufferSize &&& 0x1f).toNat < 32 := by
    rw [UInt8.toNat_and]
    exact Nat.lt_of_le_of_lt Nat.and_le_right (by decide)
  have h := hall ⟨_, hx⟩ ⟨_, hy⟩
  simp only [UInt8.ofNat_toNat] at h
  exact h

/-- The CCCH of the uplink has no length field, and all other LCIDs of SDUs have one. -/
theorem lcid_cases {lcid : Nat} {payload : Bytes} (h : WellFormed ulsch (addSdu lcid payload)) :
    lcid ≤ lcidCcchSize48 ∧ isValidLcid ulsch lcid ∧
      ((isUlCcch ulsch lcid = true ∧ hasLengthField ulsch lcid = false ∧
          payload.length = sizeofCe lcid ulsch ∧ payload.length ≤ 8) ∨
        (isUlCcch ulsch lcid = false ∧ hasLengthField ulsch lcid = true)) := by
  obtain ⟨⟨hge, hle⟩ | ⟨rfl, ⟨rfl, hlen⟩ | ⟨rfl, hlen⟩⟩, -⟩ := h
  · have hccch : isUlCcch ulsch lcid = false := by
      refine decide_eq_false fun hccch => ?_
      rcases hccch.2 with rfl | rfl
      · exact absurd hle (by decide)
      · exact absurd hge (by decide)
    refine ⟨Nat.le_trans hle (by decide), ?_, Or.inr ⟨hccch, ?_⟩⟩
    · exact decide_eq_true ⟨by omega, Or.inr (Or.inl hle)⟩
    · unfold hasLengthField
      rw [hccch]
      exact decide_eq_true ⟨rfl, Or.inl (decide_eq_true hle)⟩
  · exact ⟨by decide, by decide, Or.inl ⟨by decide, by decide, hlen, by omega⟩⟩
  · exact ⟨by decide, by decide, Or.inl ⟨by decide, by decide, hlen, by omega⟩⟩

theorem written_addSdu {lcid : Nat} {payload : Bytes} (h : WellFormed ulsch (addSdu lcid payload))
    (hlen : payload.length < 2 ^ 16) : Written ulsch (addSdu lcid payload) := by
  obtain ⟨hlcid, hvalid, hkind⟩ := lcid_cases h
  have hsize : (if isUlCcch ulsch lcid then (sizeofCe lcid ulsch : Int)
      else Int.bmod payload.length (2 ^ 32)) = payload.length := by
    rcases hkind with ⟨hccch, -, heq, -⟩ | ⟨hccch, -⟩
    · rw [if_pos hccch, heq]
    · rw [hccch, Int.bmod_eq_of_le (by omega) (by omega)]
      rfl
  have hsubpdu : (addSdu lcid payload).subpdu ulsch
      = ⟨lcid, if (payload.length : Int) ≥ 256 then (if isUlCcch ulsch lcid then 1 else 2) + 1
          else if isUlCcch ulsch lcid then 1 else 2,
        payload.length, decide ((payload.length : Int) ≥ 256), some payload⟩ := by
    show SubPdu.setSdu ulsch lcid payload = _
    unfold SubPdu.setSdu macSubheaderLenThreshold
    rw [hsize]
    simp only [decide_eq_true_eq]
    rfl
  have hplain : ((addSdu lcid payload).subpdu ulsch).Plain ulsch := by
    rw [hsubpdu]
    refine ⟨Nat.lt_of_le_of_lt hlcid (by decide), hvalid, Int.natCast_nonneg _, ?_, ?_, payload,
      rfl, Nat.le_refl _⟩
    · show (payload.length : Int) < 2 ^ 16
      omega
    · dsimp only
      rcases hkind with ⟨hccch, hfield, heq, hle⟩ | ⟨hccch, hfield⟩
      · rw [hccch, hfield, if_neg (show ¬ (payload.length : Int) ≥ 256 by omega),
          decide_eq_false (show ¬ (payload.length : Int) ≥ 256 by omega), heq]
        exact ⟨rfl, rfl, rfl⟩
      · rw [hccch, hfield, if_pos rfl]
        by_cases hlong : (payload.length : Int) ≥ 256
        · rw [if_pos hlong, decide_eq_true hlong]
          exact Or.inl ⟨rfl, rfl⟩
        · rw [if_neg hlong, decide_eq_false hlong]
          exact Or.inr ⟨rfl, rfl, by omega⟩
  have hnot : lcid ≠ lcidCrnti ∧ lcid ≠ lcidSePhr ∧
      ¬ (lcid = lcidShortBsr ∨ lcid = lcidShortTruncBsr) := by
    refine ⟨?_, ?_, ?_⟩
    · rintro rfl
      exact absurd hlcid (by decide)
    · rintro rfl
      exact absurd hlcid (by decide)
    · rintro (rfl | rfl) <;> exact absurd hlcid (by decide)
  have hsame : ((addSdu lcid payload).subpdu ulsch).lcid = lcid := by rw [hsubpdu]
  have hpayload : ((addSdu lcid payload).subpdu ulsch).payload = payload := by
    rw [hsubpdu]
    exact List.take_length
  have hcontent : ((addSdu lcid payload).subpdu ulsch).content ulsch
      = (addSdu lcid payload).content ulsch := by
    rw [SubPdu.content_of_sdu (by rw [hsame]; exact hnot), hsame, hpayload]
    rfl
  refine ⟨hplain, hcontent, fun rest => ?_⟩
  rw [hplain.content_eq rest ?_ ?_, hcontent]
  · rintro - (h | h)
    · exact absurd (hsame.symm.trans h) hnot.1
    · exact absurd (hsame.symm.trans h) hnot.2.1
  · rintro - h
    rw [hsame] at h
    exact absurd h hnot.2.2

/-- A CE that has its bytes in the uplink. -/
theorem written_of_ce {call : Call} (hplain : (call.subpdu ulsch).Plain ulsch)
    (hcontent : (call.subpdu ulsch).content ulsch = call.content ulsch)
    (hlength : ulsch = true → (call.subpdu ulsch).sduLength
      = sizeofCe (call.subpdu ulsch).lcid true) : Written ulsch call := by
  refine ⟨hplain, hcontent, fun rest => ?_⟩
  rw [hplain.content_eq rest ?_ ?_, hcontent]
  · intro hul hlcid
    rw [hlength hul]
    rcases hlcid with h | h <;> rw [h] <;> decide
  · intro hul hlcid
    rw [hlength hul]
    rcases hlcid with h | h <;> rw [h] <;> decide

theorem written_addCrntiCe (crnti : UInt16) : Written ulsch (addCrntiCe crnti) := by
  refine written_of_ce ?_ ?_ ?_
  · cases ulsch <;>
      exact plain_setCe (by decide) (by decide) (by decide) (Nat.le_of_ble_eq_true rfl)
        (Nat.le_refl 2)
  · cases ulsch
    · rfl
    · show Content.mk lcidCrnti _
        (((crnti >>> 8).toUInt8.toUInt16 <<< 8) ||| crnti.toUInt8.toUInt16) 0 0 (0, 0) = _
      rw [crnti_bytes]
      rfl
  · rintro rfl
    rfl

theorem written_addSePhrCe (phr pcmax : UInt8) : Written ulsch (addSePhrCe phr pcmax) := by
  refine written_of_ce ?_ ?_ ?_
  · cases ulsch <;>
      exact plain_setCe (by decide) (by decide) (by decide) (Nat.le_of_ble_eq_true rfl)
        (Nat.le_refl 2)
  · cases ulsch
    · rfl
    · show Content.mk lcidSePhr _ 0 (phr &&& 0x3f &&& 0x3f) (pcmax &&& 0x3f &&& 0x3f) (0, 0) = _
      rw [and_mask, and_mask]
      rfl
  · rintro rfl
    rfl

theorem written_addSbsrCe (lcgId bufferSize : UInt8) :
    Written ulsch (addSbsrCe lcgId bufferSize) := by
  obtain ⟨hlcg, hsize⟩ := sbsr_byte lcgId bufferSize
  refine written_of_ce ?_ ?_ ?_
  · cases ulsch <;>
      exact plain_setCe (by decide) (by decide) (by decide) (Nat.le_of_ble_eq_true rfl)
        (Nat.le_succ 1)
  · cases ulsch
    · rfl
    · show Content.mk lcidShortBsr _ 0 0 0
        ((((lcgId &&& 0x07) <<< 5 ||| (bufferSize &&& 0x1f)) &&& 0xe0) >>> 5,
          ((lcgId &&& 0x07) <<< 5 ||| (bufferSize &&& 0x1f)) &&& 0x1f) = _
      rw [hlcg, hsize]
      rfl
  · rintro rfl
    rfl

end Call

/-! ### The PDU -/

section Filling

variable {ulsch : Bool} {start : Bytes} {capacity pduLen : Nat} {calls : List Call} {p : SchPdu}

/-- The bytes of the subPDUs of calls. -/
def callOctets (ulsch : Bool) (calls : List Call) : Bytes :=
  calls.flatMap fun call => (call.subpdu ulsch).octets

/-- The calls are in the PDU, and what is left is the rest. -/
structure Filled (ulsch : Bool) (start : Bytes) (capacity pduLen : Nat) (calls : List Call)
    (p : SchPdu) : Prop where
  ulsch_eq : p.ulsch = ulsch
  capacity_eq : p.capacity = capacity
  written : ∀ call ∈ calls, call.Written ulsch
  msg_eq : p.msg = start ++ callOctets ulsch calls
  length_eq : (callOctets ulsch calls).length + p.remainingLen = pduLen

theorem filled_initTx : Filled ulsch start capacity pduLen [] (.initTx start capacity pduLen ulsch) :=
  ⟨rfl, rfl, nofun, (List.append_nil start).symm, Nat.zero_add _⟩

/-- A subPDU is written when there is space for it, and else the PDU stays as it is. -/
theorem addSubpdu_cases {s : SubPdu} (hs : s.Plain ulsch)
    (hroom : p.msg.length + p.remainingLen ≤ p.capacity) :
    p.addSubpdu s = some (false, p) ∨
      (s.octets.length ≤ p.remainingLen ∧ p.addSubpdu s = some (true, { p with
        subpdus := p.subpdus ++ [s]
        msg := p.msg ++ s.octets
        remainingLen := p.remainingLen - s.octets.length })) := by
  have htotal := hs.octets_length
  unfold SchPdu.addSubpdu
  by_cases hspace : s.getTotalLength > p.remainingLen
  · exact Or.inl (if_pos hspace)
  · refine Or.inr ⟨by omega, ?_⟩
    rw [if_neg hspace]
    unfold SchPdu.write
    rw [hs.writeSubpdu_eq]
    show Option.map _ (if p.msg.length + s.octets.length > p.capacity then none else _) = _
    rw [if_neg (by omega), ← htotal]
    show some _ = _
    rw [subU32, if_pos (by omega)]

/-- A call that is rejected, or one whose subPDU is tried. -/
theorem apply_cases {call : Call} (h : call.WellFormed p.ulsch) (hmax : p.remainingLen < 2 ^ 16) :
    call.apply p = some (false, p) ∨
      (call.Written p.ulsch ∧ call.apply p = p.addSubpdu (call.subpdu p.ulsch)) := by
  cases call with
  | addCrntiCe crnti => exact Or.inr ⟨Call.written_addCrntiCe crnti, rfl⟩
  | addSePhrCe phr pcmax => exact Or.inr ⟨Call.written_addSePhrCe phr pcmax, rfl⟩
  | addSbsrCe lcgId bufferSize => exact Or.inr ⟨Call.written_addSbsrCe lcgId bufferSize, rfl⟩
  | addSdu lcid payload =>
    show p.addSdu lcid payload = _ ∨ _ ∧ p.addSdu lcid payload = _
    have hheader : p.sizeHeaderSdu lcid payload.length ≤ 3 := by
      unfold SchPdu.sizeHeaderSdu
      split
      · decide
      · split <;> decide
    have hlength := h.2
    unfold SchPdu.addSdu
    split
    · exact Or.inl rfl
    · next hspace =>
      rcases Nat.lt_or_ge payload.length (2 ^ 16) with hsmall | hlarge
      · exact Or.inr ⟨Call.written_addSdu h hsmall, rfl⟩
      · -- The sum of header and payload is 2³², and the length is -3.
        have hlast : payload.length = 2 ^ 32 - 3 := by omega
        refine Or.inl ?_
        have hkind := (Call.lcid_cases h).2.2
        have hccch : isUlCcch p.ulsch lcid = false := by
          rcases hkind with ⟨-, -, -, hle⟩ | ⟨hccch, -⟩
          · omega
          · exact hccch
        have hsubpdu : SubPdu.setSdu p.ulsch lcid payload = ⟨lcid, 2, -3, false, some payload⟩ := by
          unfold SubPdu.setSdu
          rw [hccch, hlast]
          rfl
        rw [hsubpdu]
        unfold SchPdu.addSubpdu
        have htotal : SubPdu.getTotalLength ⟨lcid, 2, -3, false, some payload⟩ = 2 ^ 32 - 1 := rfl
        rw [htotal, if_pos (by omega)]

/-- A call keeps the invariant, with the call among the others when it was accepted. -/
theorem filled_apply {call : Call} (h : Filled ulsch start capacity pduLen calls p)
    (hcall : call.WellFormed ulsch) (hmax : pduLen < 2 ^ 16)
    (hroom : start.length + pduLen ≤ capacity) :
    ∃ ok q, call.apply p = some (ok, q) ∧
      Filled ulsch start capacity pduLen (if ok then calls ++ [call] else calls) q := by
  obtain ⟨rfl, rfl, hwritten, hmsg, hlength⟩ := h
  have hfit : p.msg.length + p.remainingLen ≤ p.capacity := by
    rw [hmsg, List.length_append]
    omega
  have hrejected : call.apply p = some (false, p) → ∃ ok q, call.apply p = some (ok, q) ∧
      Filled p.ulsch start p.capacity pduLen (if ok then calls ++ [call] else calls) q :=
    fun hrun => ⟨false, p, hrun, rfl, rfl, hwritten, hmsg, hlength⟩
  rcases apply_cases hcall (by omega) with hrun | ⟨hcall', hrun⟩
  · exact hrejected hrun
  rcases addSubpdu_cases hcall'.plain hfit with hno | ⟨hle, hyes⟩
  · exact hrejected (hrun.trans hno)
  · have hone : callOctets p.ulsch (calls ++ [call])
        = callOctets p.ulsch calls ++ (call.subpdu p.ulsch).octets := by
      unfold callOctets
      rw [List.flatMap_append, List.flatMap_singleton]
    refine ⟨true, _, hrun.trans hyes, rfl, rfl, ?_, ?_, ?_⟩
    · intro call' hmem
      rcases List.mem_append.mp hmem with hold | hnew
      · exact hwritten call' hold
      · rw [List.mem_singleton.mp hnew]
        exact hcall'
    · show p.msg ++ _ = _
      rw [hmsg, List.append_assoc]
      exact congrArg (start ++ ·) hone.symm
    · show (callOctets p.ulsch (calls ++ [call])).length + (p.remainingLen - _) = pduLen
      rw [hone, List.length_append]
      omega

/-- A sequence of calls keeps the invariant. -/
theorem filled_run {more : List Call} (h : Filled ulsch start capacity pduLen calls p)
    (hcalls : ∀ call ∈ more, call.WellFormed ulsch) (hmax : pduLen < 2 ^ 16)
    (hroom : start.length + pduLen ≤ capacity) :
    ∃ accepted q, Call.run p more = some (accepted, q) ∧
      Filled ulsch start capacity pduLen (calls ++ accepted) q := by
  induction more generalizing calls p with
  | nil => exact ⟨[], p, rfl, by rw [List.append_nil]; exact h⟩
  | cons call more ih =>
    obtain ⟨ok, q, hcall, hq⟩ := filled_apply h (hcalls call List.mem_cons_self) hmax hroom
    obtain ⟨accepted, r, hrest, hr⟩ := ih hq fun call' h => hcalls call' (List.mem_cons_of_mem _ h)
    refine ⟨if ok then call :: accepted else accepted, r, ?_, ?_⟩
    · unfold Call.run
      rw [hcall]
      dsimp only [Option.bind_eq_bind, Option.bind_some]
      rw [hrest]
      rfl
    · cases ok
      · exact hr
      · simp only [if_true, List.append_assoc, List.singleton_append] at hr
        exact hr

end Filling

/-! ### There and back -/

/-- The content of the padding in `n` bytes. -/
def paddingContent (n : Nat) : List Content :=
  if n = 0 then [] else [.ofBytes lcidPadding (List.replicate (n - 1) 0)]

/-- The calls that are accepted leave a rest that does not wrap around, the PDU is packed into
exactly its length, and it is read as what the calls say, with padding in the rest. -/
def ComesBackAs (reading : Call → Content) (ulsch : Bool) (start : Bytes) (capacity pduLen : Nat)
    (calls : List Call) : Prop :=
  ∃ accepted p pdu q subpdus,
    Call.run (.initTx start capacity pduLen ulsch) calls = some (accepted, p) ∧
    p.msg.length + p.remainingLen = start.length + pduLen ∧
    p.pack = some q ∧ q.msg = start ++ pdu ∧ pdu.length = pduLen ∧ q.remainingLen = 0 ∧
    unpack ulsch pdu = some (true, subpdus) ∧
    subpdus.map (·.content ulsch) = accepted.map reading ++ paddingContent p.remainingLen

section ThereAndBack

variable {ulsch : Bool} {start : Bytes} {capacity pduLen : Nat} {calls : List Call} {p : SchPdu}

theorem content_found (hwritten : ∀ call ∈ calls, call.Written ulsch) (rest : Bytes) :
    (found (calls.map (·.subpdu ulsch)) rest).map (·.content ulsch)
      = calls.map (·.content ulsch) := by
  induction calls with
  | nil => rfl
  | cons call calls ih =>
    rw [List.map_cons, found, List.map_cons, List.map_cons,
      (hwritten call List.mem_cons_self).read_eq,
      ih fun call' h => hwritten call' (List.mem_cons_of_mem _ h)]

theorem length_le_callOctets (calls : List Call) : calls.length ≤ (callOctets ulsch calls).length := by
  induction calls with
  | nil => exact Nat.le_refl 0
  | cons call calls ih =>
    unfold callOctets at ih ⊢
    rw [List.flatMap_cons, List.length_append, List.length_cons]
    have hhead : 0 < (call.subpdu ulsch).octets.length := Nat.succ_pos _
    omega

theorem writeSubpdu_padding (n : Nat) : SubPdu.writeSubpdu ⟨lcidPadding, 1, n, false, none⟩
    = some (63 :: List.replicate n 0) := by
  have hfirst : UInt8.ofNat ((if false = true then 64 else 0) ||| (lcidPadding % 2 ^ 8 &&& 0x3f))
      = 63 := by decide
  unfold SubPdu.writeSubpdu
  dsimp only
  rw [if_neg (by omega), Int.toNat_natCast, hfirst]
  rfl

theorem setPadding_eq {n : Nat} (hn : p.remainingLen = n + 1) (hmax : p.remainingLen < 2 ^ 16) :
    SubPdu.init.setPadding p.remainingLen = ⟨lcidPadding, 1, n, false, none⟩ := by
  unfold SubPdu.setPadding subU32
  rw [hn, if_pos (by omega), Nat.add_sub_cancel, Int.bmod_eq_of_le (by omega) (by omega)]
  rfl

/-- Padding is written without a look at the end of the buffer. -/
theorem pack_overflow (hrest : p.remainingLen ≠ 0) (hmax : p.remainingLen < 2 ^ 16)
    (hfull : p.capacity < p.msg.length + p.remainingLen) : p.pack = none := by
  obtain ⟨n, hn⟩ : ∃ n, p.remainingLen = n + 1 := ⟨p.remainingLen - 1, by omega⟩
  unfold SchPdu.pack SchPdu.write
  rw [if_pos hrest, setPadding_eq hn hmax, writeSubpdu_padding]
  dsimp only [Option.bind_eq_bind, Option.bind_some]
  rw [List.length_cons, List.length_replicate, if_pos (by omega)]

/-- The padding is one byte and zeros. -/
theorem pack_padding (hrest : p.remainingLen ≠ 0) (hmax : p.remainingLen < 2 ^ 16)
    (hroom : p.msg.length + p.remainingLen ≤ p.capacity) :
    ∃ q, p.pack = some q ∧ q.msg = p.msg ++ (63 :: List.replicate (p.remainingLen - 1) 0) ∧
      q.remainingLen = 0 := by
  obtain ⟨n, hn⟩ : ∃ n, p.remainingLen = n + 1 := ⟨p.remainingLen - 1, by omega⟩
  have hpad := setPadding_eq hn hmax
  have hwrite := writeSubpdu_padding n
  have htotal : SubPdu.getTotalLength ⟨lcidPadding, 1, n, false, none⟩ = n + 1 := by
    unfold SubPdu.getTotalLength
    dsimp only
    omega
  unfold SchPdu.pack SchPdu.write
  rw [if_pos hrest, hpad, hwrite, htotal]
  dsimp only [Option.bind_eq_bind, Option.bind_some]
  rw [List.length_cons, List.length_replicate, if_neg (by omega), hn, Nat.add_sub_cancel]
  refine ⟨_, rfl, rfl, ?_⟩
  show subU32 (n + 1) (n + 1) = 0
  rw [subU32, if_pos (Nat.le_refl _), Nat.sub_self]

/-- A PDU whose bytes have room in the buffer comes back. -/
theorem comesBack_of_fits (hmax : pduLen ≤ 65535) (hroom : start.length + pduLen ≤ capacity)
    (hcalls : ∀ call ∈ calls, call.WellFormed ulsch) :
    ComesBackAs (·.content ulsch) ulsch start capacity pduLen calls := by
  obtain ⟨accepted, p, hrun, rfl, rfl, hwritten, hmsg, hlength⟩ :=
    filled_run (@filled_initTx ulsch start capacity pduLen) hcalls (by omega) hroom
  rw [List.nil_append] at hwritten hmsg hlength
  have hsize := congrArg List.length hmsg
  rw [List.length_append] at hsize
  have hplain : ∀ s ∈ accepted.map (·.subpdu p.ulsch), s.Plain p.ulsch := by
    intro s hs
    obtain ⟨call, hcall, rfl⟩ := List.mem_map.mp hs
    exact (hwritten call hcall).plain
  have hbytes : (accepted.map (·.subpdu p.ulsch)).flatMap (·.octets)
      = callOctets p.ulsch accepted := List.flatMap_map _ _ _
  have hcount := @length_le_callOctets p.ulsch accepted
  have hsubpdus : (accepted.map (·.subpdu p.ulsch)).length = accepted.length := List.length_map _
  -- The reader comes behind the subPDUs.
  have hread : ∀ rest : Bytes, (callOctets p.ulsch accepted ++ rest).length < 2 ^ 16 → ∀ fuel,
      unpackLoop p.ulsch (callOctets p.ulsch accepted ++ rest) (fuel + accepted.length) 0 []
        = unpackLoop p.ulsch (callOctets p.ulsch accepted ++ rest) fuel
          (callOctets p.ulsch accepted).length (found (accepted.map (·.subpdu p.ulsch)) rest) := by
    intro rest hshort fuel
    have hloop := @unpackLoop_subpdus p.ulsch (callOctets p.ulsch accepted ++ rest) rest (by omega)
      _ hplain 0 fuel [] (by rw [hbytes]; rfl) (Nat.zero_le _)
    rw [hsubpdus, hbytes, Nat.zero_add, List.nil_append] at hloop
    exact hloop
  by_cases hrest : p.remainingLen = 0
  · have hfuel := hread [] (by rw [List.append_nil]; omega)
      ((callOctets p.ulsch accepted).length - accepted.length + 1)
    rw [List.append_nil] at hfuel
    refine ⟨accepted, p, callOctets p.ulsch accepted, p,
      found (accepted.map (·.subpdu p.ulsch)) [], hrun, by omega, ?_, hmsg, by omega, hrest, ?_, ?_⟩
    · unfold SchPdu.pack
      rw [if_neg (by simp [hrest])]
    · unfold unpack
      rw [show (callOctets p.ulsch accepted).length + 1
        = (callOctets p.ulsch accepted).length - accepted.length + 1 + accepted.length by omega,
        hfuel, unpackLoop, if_neg (Nat.lt_irrefl _), decide_eq_true rfl]
    · rw [content_found hwritten, hrest]
      exact (List.append_nil _).symm
  · obtain ⟨q, hpack, hq, hzero⟩ := pack_padding hrest (by omega) (by omega)
    have hpad : (callOctets p.ulsch accepted ++ 63 :: List.replicate (p.remainingLen - 1) 0).length
        = pduLen := by
      rw [List.length_append, List.length_cons, List.length_replicate]
      omega
    have hfuel := hread (63 :: List.replicate (p.remainingLen - 1) 0) (by omega)
      (pduLen - 1 - accepted.length + 2)
    refine ⟨accepted, p, _, q,
      found (accepted.map (·.subpdu p.ulsch)) (63 :: List.replicate (p.remainingLen - 1) 0)
        ++ [⟨lcidPadding, 1, (p.remainingLen - 1 : Nat), false,
          some (List.replicate (p.remainingLen - 1) 0)⟩],
      hrun, by omega, hpack, by rw [hq, hmsg, List.append_assoc], hpad, hzero, ?_, ?_⟩
    · unfold unpack
      rw [hpad, show pduLen + 1 = pduLen - 1 - accepted.length + 2 + accepted.length by omega, hfuel,
        unpackLoop_padding (by omega) List.drop_left]
    · rw [List.map_append, content_found hwritten, paddingContent, if_neg hrest]
      congr 1
      show [SubPdu.content _ _] = _
      have hnot : lcidPadding ≠ lcidCrnti ∧ lcidPadding ≠ lcidSePhr ∧
          ¬ (lcidPadding = lcidShortBsr ∨ lcidPadding = lcidShortTruncBsr) := by decide
      rw [SubPdu.content_of_sdu hnot]
      show [Content.ofBytes lcidPadding ((List.replicate (p.remainingLen - 1) 0).take
        ((p.remainingLen - 1 : Nat) : Int).toNat)] = _
      rw [Int.toNat_natCast, List.take_of_length_le (Nat.le_of_eq List.length_replicate)]

/-- A SDU, a C-RNTI, a PHR whose first value is more than six bits, and padding in the uplink. -/
theorem comesBack_uplink :
    ComesBackAs (·.content true) true [] 12237 40
      [.addSdu 4 [1, 2, 3], .addCrntiCe 0x4601, .addSePhrCe 70 5, .addSbsrCe 3 17] := by
  refine comesBack_of_fits (by decide) (by decide) ?_
  intro call hcall
  simp only [List.mem_cons, List.not_mem_nil, or_false] at hcall
  rcases hcall with rfl | rfl | rfl | rfl
  · exact ⟨Or.inl (by decide), by decide⟩
  · trivial
  · trivial
  · trivial

/-- A C-RNTI in the downlink, and a PDU that is longer than its buffer. -/
theorem not_comesBack_downlink :
    ¬ ComesBackAs Call.meant false [] 12237 3 [.addCrntiCe 0x4601] ∧
      ¬ ComesBackAs Call.meant true [] 12237 65535 [] := by
  constructor
  · rintro ⟨accepted, p, pdu, q, subpdus, hrun, -, hpack, hmsg, -, -, hread, hcontent⟩
    -- The call is accepted, and a byte without values is written and read.
    have hcall : Call.run (.initTx [] 12237 3 false) [.addCrntiCe 0x4601]
        = some ([.addCrntiCe 0x4601], ⟨false, [.setCRnti false 0x4601], [58], 12237, 3, 2⟩) := by
      decide
    rw [hcall] at hrun
    cases hrun
    have hpacked : SchPdu.pack ⟨false, [.setCRnti false 0x4601], [58], 12237, 3, 2⟩
        = some ⟨false, [.setCRnti false 0x4601, ⟨lcidPadding, 1, 1, false, none⟩], [58, 63, 0],
          12237, 3, 0⟩ := by
      decide
    rw [hpacked] at hpack
    cases hpack
    obtain rfl : pdu = [58, 63, 0] := hmsg.symm
    have hfound : unpack false [58, 63, 0] = some (true,
        [⟨lcidCrnti, 1, 0, false, some [63, 0]⟩, ⟨lcidPadding, 1, 1, false, some [0]⟩]) := by
      decide
    rw [hfound] at hread
    cases hread
    exact absurd hcontent (by decide)
  · rintro ⟨accepted, p, pdu, q, subpdus, hrun, -, hpack, hmsg, hlength, -⟩
    cases hrun
    have hpacked : SchPdu.pack (.initTx [] 12237 65535 true) = none :=
      pack_overflow (by decide) (by decide) (by decide)
    rw [hpacked] at hpack
    cases hpack

end ThereAndBack

end Odss.MacNr
