import Odss.Proofs.MuxPdu

/-!
# `Odss.Proofs.BsrTruth`: what a buffer status report says

A long or short BSR has the bytes that are buffered after its PDU. A truncated BSR names the group that
`find_max_priority_lcg_with_data` gives, which looks at the levels remembered from the last TTI, and so
is right when this is the group of the channel with the highest priority that has data left.

* `Says` is what the BSR in a PDU is, and `pduGet_says` that `pdu_get_nolock` gives no other.
* `truthful_iff` compares it with what RLC has.
-/

set_option linter.all false

namespace Odss.Ue.Mux

open Odss.Rlc (Bytes)
open Odss.Mac (SchPdu SchSubh)
open Odss.Mac.SchPdu (BsrFormat bsrPayload buffSizeTable nonzeroLcg)
open Odss.Ue.BsrProc (Bsr nofLcg)

/-! ### Reading a BSR -/

/-- `get_bsr` of a long BSR: the index of each group. -/
def longIdx (payload : Bytes) : Fin nofLcg → Nat
  | 0 => (payload.getD 0 0).toNat / 4
  | 1 => (payload.getD 0 0).toNat % 4 * 16 + (payload.getD 1 0).toNat / 16
  | 2 => (payload.getD 1 0).toNat % 16 * 4 + (payload.getD 2 0).toNat / 64
  | 3 => (payload.getD 2 0).toNat % 64

/-- `get_bsr` of another BSR: the group and its index. -/
def shortReport (payload : Bytes) : Nat × Nat :=
  ((payload.getD 0 0).toNat / 64, (payload.getD 0 0).toNat % 64)

theorem buffSizeTable_lt (n : Nat) : buffSizeTable n < 64 := by
  rw [buffSizeTable]
  split
  · decide
  · split
    · decide
    · cases hfind : (List.range' 1 61).find? fun i => decide (n ≤ SchPdu.btable.getD (i + 1) 0) with
      | none => decide
      | some i =>
        have hmem := List.mem_of_find?_eq_some hfind
        rw [List.mem_range'_1] at hmem
        show i < 64
        omega

theorem buffSizeTable_pos {n : Nat} (h : 0 < n) : 0 < buffSizeTable n := by
  rw [buffSizeTable, if_neg (Nat.ne_of_gt h)]
  split
  · decide
  · cases hfind : (List.range' 1 61).find? fun i => decide (n ≤ SchPdu.btable.getD (i + 1) 0) with
    | none => decide
    | some i =>
      have hmem := List.mem_of_find?_eq_some hfind
      rw [List.mem_range'_1] at hmem
      exact hmem.1

/-- A long BSR is read as it was written. -/
theorem longIdx_bsrPayload (f : Fin nofLcg → Nat) (lcg : Fin nofLcg) :
    longIdx (bsrPayload f .long) lcg = buffSizeTable (f lcg) := by
  have h0 := buffSizeTable_lt (f 0)
  have h1 := buffSizeTable_lt (f 1)
  have h2 := buffSizeTable_lt (f 2)
  have h3 := buffSizeTable_lt (f 3)
  match lcg with
  | 0 | 1 | 2 | 3 =>
    simp only [longIdx, bsrPayload, List.getD_cons_zero, List.getD_cons_succ, UInt8.toNat_ofNat']
    omega

theorem shortReport_bsrPayload (f : Fin nofLcg → Nat) {format : BsrFormat} (h : format ≠ .long) :
    shortReport (bsrPayload f format) = ((nonzeroLcg f).val, buffSizeTable (f (nonzeroLcg f))) := by
  have hlt := buffSizeTable_lt (f (nonzeroLcg f))
  have hval := (nonzeroLcg f).isLt
  have hpayload : bsrPayload f format =
      [UInt8.ofNat ((nonzeroLcg f).val * 64 + buffSizeTable (f (nonzeroLcg f)) % 64)] := by
    cases format with
    | long => exact absurd rfl h
    | short | trunc => rfl
  rw [shortReport, hpayload]
  simp only [List.getD_cons_zero, UInt8.toNat_ofNat', Prod.mk.injEq]
  omega

theorem finRange_nofLcg : List.finRange nofLcg = [0, 1, 2, 3] := by decide

/-- The one group with data. -/
theorem nonzeroLcg_eq {f : Fin nofLcg → Nat} {lcg : Fin nofLcg} (hlcg : f lcg ≠ 0)
    (hothers : ∀ i, i ≠ lcg → f i = 0) : nonzeroLcg f = lcg := by
  have hzero : ∀ i, f i = 0 ↔ i ≠ lcg := fun i => ⟨fun hi heq => hlcg (heq ▸ hi), hothers i⟩
  rw [nonzeroLcg, finRange_nofLcg]
  simp only [List.foldl_cons, List.foldl_nil, hzero]
  match lcg with
  | 0 | 1 | 2 | 3 => rfl

theorem nonzeroLcg_zero {f : Fin nofLcg → Nat} (h : ∀ i, f i = 0) : nonzeroLcg f = 0 := by
  rw [nonzeroLcg, finRange_nofLcg]
  simp [h]

/-! ### What a BSR says -/

/-- At most one group has data. -/
def AtMostOne (left : Fin nofLcg → Nat) : Prop := ∀ i j, 0 < left i → 0 < left j → i = j

/-- The counters of a BSR, by its format, where `left` is what is buffered. -/
def Says (s : BsrProc.State) (left : Fin nofLcg → Nat) (bsr : Bsr) : Prop :=
  match bsr.format with
  | .long => ∀ lcg, (bsr.buffSize lcg).toNat = left lcg
  | .short => (∀ lcg, (bsr.buffSize lcg).toNat = left lcg) ∧ AtMostOne left
  | .trunc => (∀ lcg, (bsr.buffSize lcg).toNat =
      if s.findMaxPriorityLcgWithData = lcg then left lcg else 0) ∧ ¬ AtMostOne left

theorem countP_le_one_iff : ∀ p : Fin nofLcg → Bool,
    (List.finRange nofLcg).countP p ≤ 1 ↔ ∀ i j, p i = true → p j = true → i = j := by
  decide

/-- The number of groups with data. -/
theorem countP_pos_iff {buffSize : Fin nofLcg → UInt32} {left : Fin nofLcg → Nat}
    (h : ∀ lcg, (buffSize lcg).toNat = left lcg) :
    (List.finRange nofLcg).countP (fun i => 0 < buffSize i) ≤ 1 ↔ AtMostOne left := by
  have hpos : ∀ i, 0 < buffSize i ↔ 0 < left i := by
    intro i
    rw [← h i]
    exact UInt32.lt_iff_toNat_lt
  rw [countP_le_one_iff]
  simp only [decide_eq_true_eq, hpos]
  exact Iff.rfl

theorem chooseFormat_eq_some {s : BsrProc.State} {buffSize : Fin nofLcg → UInt32} {pduSpace : Nat}
    {format : BsrFormat} {left : Fin nofLcg → Nat} (hleft : ∀ lcg, (buffSize lcg).toNat = left lcg)
    (h : s.chooseFormat buffSize pduSpace = some format) :
    (format = .long ∧ 4 ≤ pduSpace) ∨ (format = .short ∧ 2 ≤ pduSpace ∧ AtMostOne left) ∨
      (format = .trunc ∧ 2 ≤ pduSpace ∧ pduSpace < 4 ∧ ¬ AtMostOne left) := by
  have hcount := countP_pos_iff hleft
  have hlong : BsrProc.ceSubheaderLen + Odss.Mac.ulCeSize BsrFormat.long.lcid = 4 := rfl
  have hshort : BsrProc.ceSubheaderLen + Odss.Mac.ulCeSize BsrFormat.short.lcid = 2 := rfl
  simp only [BsrProc.State.chooseFormat, hlong, hshort] at h
  split at h
  · rename_i hspace
    split at h
    · rename_i hone
      cases h
      exact .inr (.inl ⟨rfl, by omega, hcount.mp hone.2⟩)
    · cases h
      exact .inl ⟨rfl, hspace⟩
  · split at h
    · split at h
      · rename_i hmany
        cases h
        exact .inr (.inr ⟨rfl, by omega, by omega, fun hno => absurd (hcount.mpr hno) (by omega)⟩)
      · rename_i hone
        cases h
        exact .inr (.inl ⟨rfl, by omega, hcount.mp (by omega)⟩)
    · cases h

/-- The BSR that `generate_bsr` makes of the counters. -/
def generated (s : BsrProc.State) (format : BsrFormat) (buffSize : Fin nofLcg → UInt32) : Bsr where
  format := format
  buffSize := if format = .trunc then
      fun i => if s.findMaxPriorityLcgWithData ≠ i then 0 else buffSize i
    else buffSize

theorem says_generated {s : BsrProc.State} {buffSize : Fin nofLcg → UInt32} {pduSpace : Nat}
    {format : BsrFormat} {left : Fin nofLcg → Nat} (hleft : ∀ lcg, (buffSize lcg).toNat = left lcg)
    {s' : BsrProc.State} (h : s'.chooseFormat buffSize pduSpace = some format) :
    Says s left (generated s format buffSize) := by
  rcases chooseFormat_eq_some hleft h with ⟨rfl, -⟩ | ⟨rfl, -, hone⟩ | ⟨rfl, -, -, hmany⟩
  · exact hleft
  · exact ⟨hleft, hone⟩
  · refine ⟨fun lcg => ?_, hmany⟩
    show (if s.findMaxPriorityLcgWithData ≠ lcg then (0 : UInt32) else buffSize lcg).toNat = _
    by_cases hlcg : s.findMaxPriorityLcgWithData = lcg
    · simp [hlcg, hleft]
    · simp [hlcg]

/-! ### When a BSR is made -/

theorem findMaxPriority_congr {s s' : BsrProc.State} (h : s'.lcgs = s.lcgs) :
    s'.findMaxPriorityLcgWithData = s.findMaxPriorityLcgWithData := by
  rw [BsrProc.State.findMaxPriorityLcgWithData, BsrProc.State.findMaxPriorityLcgWithData, h]

theorem generateBsr_eq (s : BsrProc.State) (bsr : Bsr) (pduSpace : Nat) :
    (∃ format, s.chooseFormat bsr.buffSize pduSpace = some format ∧
      (s.generateBsr bsr pduSpace).1 = true ∧
      (s.generateBsr bsr pduSpace).2.1 = generated s format bsr.buffSize) ∨
    (s.chooseFormat bsr.buffSize pduSpace = none ∧ s.generateBsr bsr pduSpace = (false, bsr, s)) := by
  rw [BsrProc.State.generateBsr]
  cases hformat : s.chooseFormat bsr.buffSize pduSpace with
  | none => exact .inr ⟨rfl, rfl⟩
  | some format => exact .inl ⟨format, rfl, rfl, rfl⟩

theorem needToSend_lcgs (s : BsrProc.State) (grantSize totalData : Nat) (bsr : Bsr) :
    (s.needToSendBsrOnUlGrant grantSize totalData bsr).2.2.lcgs = s.lcgs := by
  have hkeep : ∀ r : Bool × Bsr × BsrProc.State, r.2.2.lcgs = s.lcgs →
      (if r.2.2.timerRetx.duration ≠ 0 then
        { ({ r.2.2 with srStarted := false } : BsrProc.State) with
          timerRetx := { r.2.2.timerRetx with running := true } }
      else { r.2.2 with srStarted := false }).lcgs = s.lcgs := by
    intro r hr
    split <;> exact hr
  refine hkeep _ ?_
  split
  · split
    · rfl
    · rw [BsrProc.State.generateBsr]
      split <;> rfl
  · rfl

/-- A BSR that is not for padding is sent when a format is chosen. -/
theorem needToSend_cases (s : BsrProc.State) (grantSize totalData : Nat) (bsr : Bsr) :
    ((s.needToSendBsrOnUlGrant grantSize totalData bsr).1 = false ∧
      (s.needToSendBsrOnUlGrant grantSize totalData bsr).2.1 = bsr) ∨
    ∃ format, s.chooseFormat bsr.buffSize grantSize = some format ∧
      (s.needToSendBsrOnUlGrant grantSize totalData bsr).1 = true ∧
      (s.needToSendBsrOnUlGrant grantSize totalData bsr).2.1 = generated s format bsr.buffSize := by
  simp only [BsrProc.State.needToSendBsrOnUlGrant]
  split
  · split
    · exact .inl ⟨rfl, rfl⟩
    · rcases generateBsr_eq s bsr grantSize with
        ⟨format, hformat, hsend, hbsr⟩ | ⟨-, hno⟩
      · exact .inr ⟨format, hformat, hsend, hbsr⟩
      · exact .inl ⟨by rw [hno], by rw [hno]⟩
  · exact .inl ⟨rfl, rfl⟩

/-- A BSR fits into the space that it is made for. -/
theorem length_bsrPayload (f : Fin nofLcg → Nat) (format : BsrFormat) :
    (bsrPayload f format).length = if format = .long then 3 else 1 := by
  cases format <;> rfl

/-- The PDU carries one BSR, which is this one, or none. -/
def Carries (pdu : SchPdu) (bsr : Bsr) : Prop :=
  ∃ pre post nofBytes, pdu.subheaders = pre ++ ⟨bsr.format.lcid, nofBytes,
      bsrPayload (fun i => (bsr.buffSize i).toNat) bsr.format⟩ :: post ∧
    (∀ subh ∈ pre, isBsr subh = false) ∧ ∀ subh ∈ post, isBsr subh = false

theorem Carries.eq_of_isBsr {pdu : SchPdu} {bsr : Bsr} {subh : SchSubh} (h : Carries pdu bsr)
    (hmem : subh ∈ pdu.subheaders) (hbsr : isBsr subh = true) :
    ∃ nofBytes, subh = ⟨bsr.format.lcid, nofBytes,
      bsrPayload (fun i => (bsr.buffSize i).toNat) bsr.format⟩ := by
  obtain ⟨pre, post, nofBytes, hsubhs, hpre, hpost⟩ := h
  rw [hsubhs] at hmem
  rcases List.mem_append.mp hmem with hmem | hmem
  · rw [hpre subh hmem] at hbsr
    cases hbsr
  · rcases List.mem_cons.mp hmem with heq | hmem
    · exact ⟨nofBytes, heq⟩
    · rw [hpost subh hmem] at hbsr
      cases hbsr

theorem addPaddingBsr_spec (s : BsrProc.State) (bsr : Bsr) {pdu : SchPdu} {left : Fin nofLcg → Nat}
    (hno : ∀ subh ∈ pdu.subheaders, isBsr subh = false)
    (hleft : ∀ lcg, (bsr.buffSize lcg).toNat = left lcg) :
    (∀ subh ∈ (addPaddingBsr bsr s pdu).1.subheaders, isBsr subh = false) ∨
      (Carries (addPaddingBsr bsr s pdu).1 (addPaddingBsr bsr s pdu).2.1 ∧
        Says s left (addPaddingBsr bsr s pdu).2.1) := by
  simp only [addPaddingBsr, BsrProc.State.generatePaddingBsr]
  split
  · rename_i hspace
    rcases generateBsr_eq (s.setTrigger .padding) bsr pdu.remLen with
      ⟨format, hformat, -, hbsr⟩ | ⟨hnone, -⟩
    · simp only [if_true]
      rw [hbsr]
      cases hadd : addBsr (generated (s.setTrigger .padding) format bsr.buffSize) pdu with
      | none => exact .inl hno
      | some pdu' =>
        obtain ⟨hsubhs, -⟩ := addCe_eq_some hadd
        exact .inr ⟨⟨pdu.subheaders, [], _, hsubhs, hno, by simp⟩, says_generated hleft hformat⟩
    · -- There is space for a short BSR.
      have hshort : BsrProc.ceSubheaderLen + Odss.Mac.ulCeSize BsrFormat.short.lcid ≤ pdu.remLen := hspace
      exfalso
      rw [BsrProc.State.chooseFormat] at hnone
      simp only [hshort, if_true] at hnone
      split at hnone <;> split at hnone <;> cases hnone
  · exact .inl hno

theorem addPaddingBsr_full {s : BsrProc.State} {bsr : Bsr} {pdu : SchPdu} (h : pdu.newSubh = none) :
    (addPaddingBsr bsr s pdu).1 = pdu := by
  simp only [addPaddingBsr, addBsr, addCe, h, Option.bind_none, Option.getD_none, ite_self]

/-- The BSR of a PDU with its new contents. -/
theorem carries_updateBsr {pdu pdu' : SchPdu} {subh : SchSubh} {bsr : Bsr}
    (hlcid : subh.lcid = bsr.format.lcid) (hno : ∀ subh ∈ pdu.subheaders, isBsr subh = false)
    (hsubh : ∃ post, pdu'.subheaders = pdu.subheaders ++ subh :: post ∧
      ∀ subh ∈ post, isBsr subh = false) :
    Carries (updateBsr pdu.subheaders.length bsr pdu') bsr := by
  obtain ⟨post, hpost, hno'⟩ := hsubh
  refine ⟨pdu.subheaders, post, subh.nofBytes, ?_, hno, hno'⟩
  have hmodify : ∀ (pre : List SchSubh) (f : SchSubh → SchSubh),
      (pre ++ subh :: post).modify pre.length f = pre ++ f subh :: post := by
    intro pre f
    induction pre with
    | nil => rfl
    | cons subh' pre ih => simpa [List.modify_cons] using ih
  simp only [updateBsr]
  rw [hpost, hmodify, hlcid]

/-! ### The PDU -/

section
variable {ρ : Type} {rlcIf : RlcInterface ρ}

theorem sum_toNat {α : Type} (f : α → UInt32) (l : List α) :
    (l.map fun a => (f a).toNat).sum < 2 ^ 32 →
      (l.map f).sum.toNat = (l.map fun a => (f a).toNat).sum := by
  induction l with
  | nil => intro _; rfl
  | cons a l ih =>
    intro hlt
    simp only [List.map_cons, List.sum_cons] at hlt ⊢
    rw [UInt32.toNat_add, ih (by omega), Nat.mod_eq_of_lt hlt]

/-- The counters before SDUs are taken. -/
theorem pendingOfLcg_toNat {rlc : ρ} {channels : List LogicalChannel} {lcg : Fin nofLcg}
    (h : buffered rlcIf rlc channels lcg < 2 ^ 32) :
    (pendingOfLcg rlcIf rlc (readBuffers rlcIf rlc channels) lcg).toNat =
      buffered rlcIf rlc channels lcg := by
  have hread : pendingOfLcg rlcIf rlc (readBuffers rlcIf rlc channels) lcg =
      pendingOfLcg rlcIf rlc channels lcg := by
    simp only [pendingOfLcg, readBuffers, List.filter_map, List.map_map]
    rfl
  rw [hread, pendingOfLcg, buffered]
  exact sum_toNat _ _ h

/-- Fewer bytes in each channel are fewer bytes in each group. -/
theorem buffered_le {rlc rlc' : ρ} (h : ∀ lcid,
    (rlcIf.getBufferState rlc' lcid).toNat ≤ (rlcIf.getBufferState rlc lcid).toNat)
    (channels : List LogicalChannel) (lcg : Fin nofLcg) :
    buffered rlcIf rlc' channels lcg ≤ buffered rlcIf rlc channels lcg := by
  rw [buffered, buffered]
  induction channels.filter fun ch => ch.lcg = lcg with
  | nil => exact Nat.le_refl _
  | cons ch chs ih =>
    simp only [List.map_cons, List.sum_cons]
    exact Nat.add_le_add (h ch.lcid) ih

theorem addCcch_spec (h : DropsExactly rlcIf) (pendingCrntiCe : UInt16) (rlc : ρ) (pduSz : Nat) :
    (∀ subh ∈ (addCcch rlcIf pendingCrntiCe rlc pduSz).1.subheaders, isBsr subh = false) ∧
      ∀ lcid, (rlcIf.getBufferState (addCcch rlcIf pendingCrntiCe rlc pduSz).2 lcid).toNat ≤
        (rlcIf.getBufferState rlc lcid).toNat := by
  obtain ⟨hdropped, hext⟩ := allocateSdu_spec h (by decide : 0 < 28) pduSz
    (SchPdu.initTx maxNofSubheaders pduSz true) rlc
  have hno := hext.noBsr (by simp [SchPdu.initTx])
  have hle : ∀ lcid, (rlcIf.getBufferState (allocateSdu rlcIf 0 pduSz
      (SchPdu.initTx maxNofSubheaders pduSz true) rlc).2.2 lcid).toNat ≤
      (rlcIf.getBufferState rlc lcid).toNat := by
    intro lcid
    by_cases hlcid : lcid = 0
    · subst hlcid
      have := hdropped.own
      omega
    · exact Nat.le_of_eq (congrArg UInt32.toNat (hdropped.others lcid hlcid))
  simp only [addCcch]
  split
  · exact ⟨(extends_addCRnti _ _).noBsr hno, hle⟩
  · exact ⟨hno, hle⟩

/-- The BSR that `pdu_get_nolock` puts into a PDU says what is left, and no counter goes below zero. -/
theorem pduGet_says (h : DropsExactly rlcIf) {channels : List LogicalChannel}
    (hnodup : (channels.map LogicalChannel.lcid).Nodup) (hlcid : ∀ ch ∈ channels, ch.lcid < 28)
    {rlc : ρ} (hfits : ∀ lcg, buffered rlcIf rlc channels lcg < 2 ^ 32) (pendingCrntiCe : UInt16)
    (phr : Option UInt8) (s : BsrProc.State) (pduSz : Nat) :
    (pduGetNolock rlcIf channels pendingCrntiCe phr rlc s pduSz).wrapped = false ∧
      ((∀ subh ∈ (pduGetNolock rlcIf channels pendingCrntiCe phr rlc s pduSz).pdu.subheaders,
          isBsr subh = false) ∨
        (Carries (pduGetNolock rlcIf channels pendingCrntiCe phr rlc s pduSz).pdu
            (pduGetNolock rlcIf channels pendingCrntiCe phr rlc s pduSz).bsr ∧
          Says s (buffered rlcIf (pduGetNolock rlcIf channels pendingCrntiCe phr rlc s pduSz).rlc channels)
            (pduGetNolock rlcIf channels pendingCrntiCe phr rlc s pduSz).bsr)) := by
  obtain ⟨hno, hdrop⟩ := addCcch_spec h pendingCrntiCe rlc pduSz
  simp only [pduGetNolock]
  generalize addCcch rlcIf pendingCrntiCe rlc pduSz = ccch at hno hdrop ⊢
  have hleft : ∀ lcg, (pendingOfLcg rlcIf ccch.2 (readBuffers rlcIf ccch.2 channels) lcg).toNat =
      buffered rlcIf ccch.2 channels lcg := fun lcg =>
    pendingOfLcg_toNat (Nat.lt_of_le_of_lt (buffered_le hdrop channels lcg) (hfits lcg))
  have hlcgs := needToSend_lcgs s ccch.1.remLen
    (totalPendingData rlcIf ccch.2 (readBuffers rlcIf ccch.2 channels)).toNat
    ⟨.long, pendingOfLcg rlcIf ccch.2 (readBuffers rlcIf ccch.2 channels)⟩
  have hcases := needToSend_cases s ccch.1.remLen
    (totalPendingData rlcIf ccch.2 (readBuffers rlcIf ccch.2 channels)).toNat
    ⟨.long, pendingOfLcg rlcIf ccch.2 (readBuffers rlcIf ccch.2 channels)⟩
  generalize s.needToSendBsrOnUlGrant ccch.1.remLen
    (totalPendingData rlcIf ccch.2 (readBuffers rlcIf ccch.2 channels)).toNat
    ⟨.long, pendingOfLcg rlcIf ccch.2 (readBuffers rlcIf ccch.2 channels)⟩ = need at hlcgs hcases ⊢
  generalize pendingOfLcg rlcIf ccch.2 (readBuffers rlcIf ccch.2 channels) = buffSize at hleft hcases
  obtain ⟨send, bsr, s'⟩ := need
  dsimp only at hlcgs hcases ⊢
  have hsaid : ∀ {left : Fin nofLcg → Nat} {bsr : Bsr}, Says s' left bsr → Says s left bsr := by
    intro left bsr hs'
    simp only [Says, findMaxPriority_congr hlcgs] at hs' ⊢
    exact hs'
  -- What the SDUs leave, where the counters are right before them.
  have hsdus : ∀ pdu : SchPdu, ∀ space : Int,
      Counted rlcIf channels (allocateSdus rlcIf (schedule (readBuffers rlcIf ccch.2 channels) space)
        ⟨pdu, ccch.2, buffSize, false⟩) ∧
      Extends pdu (allocateSdus rlcIf (schedule (readBuffers rlcIf ccch.2 channels) space)
        ⟨pdu, ccch.2, buffSize, false⟩).pdu ∧
      ∀ lcg, buffered rlcIf (allocateSdus rlcIf (schedule (readBuffers rlcIf ccch.2 channels) space)
        ⟨pdu, ccch.2, buffSize, false⟩).rlc channels lcg ≤ buffered rlcIf ccch.2 channels lcg := by
    intro pdu space
    refine allocateSdus_spec h hnodup hlcid _ _ ?_ ⟨rfl, hleft⟩
    intro ch hch
    obtain ⟨ch', hch', hsame⟩ := mem_schedule hch
    obtain ⟨ch'', hch'', rfl⟩ := List.mem_map.mp hch'
    exact ⟨ch'', hch'', hsame⟩
  rcases hcases with ⟨rfl, rfl⟩ | ⟨format, hformat, rfl, rfl⟩
  · -- No BSR before the SDUs.
    obtain ⟨hcounted, hext, -⟩ := hsdus (addPhr phr ccch.1) (addPhr phr ccch.1).getSduSpace
    refine ⟨hcounted.1, ?_⟩
    have hno' := ((extends_addPhr phr ccch.1).trans hext).noBsr hno
    rcases addPaddingBsr_spec s' ⟨.long, _⟩ hno' hcounted.2 with hnone | ⟨hcarries, hs'⟩
    · exact .inl hnone
    · exact .inr ⟨hcarries, hsaid hs'⟩
  · cases hadd : addBsr (generated s format buffSize) ccch.1 with
    | none =>
      -- There is no subheader left for the BSR, and then none for anything else.
      have hfull : ccch.1.newSubh = none := by
        refine addCe_eq_none ?_ hadd
        rw [length_bsrPayload]
        rcases chooseFormat_eq_some hleft hformat with ⟨rfl, hspace⟩ | ⟨rfl, hspace, -⟩ | ⟨rfl, hspace, -⟩
        · exact hspace
        · exact hspace
        · exact hspace
      simp only [addRegularBsr, hadd, if_true, addPhr_full hfull]
      rw [allocateSdus_full _ hfull]
      refine ⟨rfl, .inl ?_⟩
      rw [addPaddingBsr_full hfull]
      exact hno
    | some pdu =>
      simp only [addRegularBsr, hadd, if_true]
      obtain ⟨hsubhs, hrem, -⟩ := addCe_eq_some hadd
      by_cases htrunc : format = .trunc
      · -- Behind a truncated BSR there is no space for another subheader.
        subst htrunc
        have hfull : pdu.newSubh = none := by
          rcases chooseFormat_eq_some hleft hformat with ⟨hno, -⟩ | ⟨hno, -⟩ | ⟨-, -, hspace, -⟩
          · cases hno
          · cases hno
          · rw [length_bsrPayload] at hrem
            have hlong : (generated s .trunc buffSize).format ≠ .long := nofun
            rw [if_neg hlong] at hrem
            rw [SchPdu.newSubh, if_neg (by omega)]
        simp only [addPhr_full hfull]
        rw [allocateSdus_full _ hfull]
        refine ⟨rfl, .inr ⟨?_, says_generated hleft hformat⟩⟩
        exact carries_updateBsr rfl hno ⟨[], hsubhs, by simp⟩
      · have hbuff : (generated s format buffSize).buffSize = buffSize := if_neg htrunc
        rw [hbuff]
        obtain ⟨hcounted, hext, hle⟩ := hsdus (addPhr phr pdu) (addPhr phr pdu).getSduSpace
        refine ⟨hcounted.1, .inr ⟨?_, ?_⟩⟩
        · obtain ⟨subhs, hpdu, hno'⟩ := (extends_addPhr phr pdu).trans hext
          rw [hsubhs, List.append_assoc] at hpdu
          refine carries_updateBsr ?_ hno ⟨subhs, hpdu, hno'⟩
          rfl
        · -- At most one group had data, and no more has it now.
          have hbefore := says_generated (s := s) hleft hformat
          cases format with
          | trunc => exact absurd rfl htrunc
          | long => exact hcounted.2
          | short =>
            refine ⟨hcounted.2, fun i j hi hj => hbefore.2 i j ?_ ?_⟩
            · exact Nat.lt_of_lt_of_le hi (hle i)
            · exact Nat.lt_of_lt_of_le hj (hle j)

/-! ### The truth of a BSR -/

/-- RLC has data for the channel. -/
def hasData (rlcIf : RlcInterface ρ) (rlc : ρ) (ch : LogicalChannel) : Bool :=
  0 < rlcIf.getBufferState rlc ch.lcid

/-- What is right for the BSR of a PDU, where RLC is as it is after the PDU. The channels are in the
order of their priorities, in which `setup_lcid` keeps them. -/
structure Truthful (rlcIf : RlcInterface ρ) (rlc : ρ) (channels : List LogicalChannel)
    (subh : SchSubh) : Prop where
  /-- A long BSR gives the index of each group. -/
  long : subh.lcid = 30 → ∀ lcg,
    longIdx subh.wPayloadCe lcg = buffSizeTable (buffered rlcIf rlc channels lcg)
  /-- A short BSR is for at most one group with data, and reports it. -/
  short : subh.lcid = 29 → AtMostOne (buffered rlcIf rlc channels) ∧
    ∀ lcg, 0 < buffered rlcIf rlc channels lcg →
      shortReport subh.wPayloadCe = (lcg.val, buffSizeTable (buffered rlcIf rlc channels lcg))
  /-- A truncated BSR reports the group of the channel with the highest priority that has data. -/
  trunc : subh.lcid = 28 → ∃ ch, channels.find? (hasData rlcIf rlc) = some ch ∧
    shortReport subh.wPayloadCe =
      (ch.lcg.val, buffSizeTable (buffered rlcIf rlc channels ch.lcg))

theorem buffered_pos {rlc : ρ} {channels : List LogicalChannel} {ch : LogicalChannel}
    (hmem : ch ∈ channels) (hdata : hasData rlcIf rlc ch = true) :
    0 < buffered rlcIf rlc channels ch.lcg := by
  have hle : (rlcIf.getBufferState rlc ch.lcid).toNat ≤ buffered rlcIf rlc channels ch.lcg := by
    rw [buffered]
    exact List.single_le_sum (fun _ _ => Nat.zero_le _) _
      (List.mem_map.mpr ⟨ch, List.mem_filter.mpr ⟨hmem, by simp⟩, rfl⟩)
  have hpos := UInt32.lt_iff_toNat_lt.mp (of_decide_eq_true hdata)
  exact Nat.lt_of_lt_of_le hpos hle

theorem exists_hasData {rlc : ρ} {channels : List LogicalChannel} {lcg : Fin nofLcg}
    (h : 0 < buffered rlcIf rlc channels lcg) :
    ∃ ch, channels.find? (hasData rlcIf rlc) = some ch := by
  cases hfind : channels.find? (hasData rlcIf rlc) with
  | some ch => exact ⟨ch, rfl⟩
  | none =>
    have hzero : buffered rlcIf rlc channels lcg = 0 := by
      rw [buffered, List.sum_eq_zero]
      intro n hn
      obtain ⟨ch, hch, rfl⟩ := List.mem_map.mp hn
      have hno := List.find?_eq_none.mp hfind ch (List.mem_filter.mp hch).1
      have hno : ¬ (0 : UInt32) < rlcIf.getBufferState rlc ch.lcid := by simpa [hasData] using hno
      rw [UInt32.lt_iff_toNat_lt] at hno
      exact Nat.eq_zero_of_not_pos hno
    omega

theorem shortReport_trunc {s : BsrProc.State} {left : Fin nofLcg → Nat} {bsr : Bsr}
    (hbuff : ∀ lcg, (bsr.buffSize lcg).toNat = if s.findMaxPriorityLcgWithData = lcg then left lcg else 0) :
    shortReport (bsrPayload (fun i => (bsr.buffSize i).toNat) .trunc) =
      if 0 < left s.findMaxPriorityLcgWithData then
        (s.findMaxPriorityLcgWithData.val, buffSizeTable (left s.findMaxPriorityLcgWithData))
      else (0, 0) := by
  rw [shortReport_bsrPayload _ (by decide : BsrFormat.trunc ≠ .long)]
  split
  · rename_i hpos
    have hgroup : nonzeroLcg (fun i => (bsr.buffSize i).toNat) = s.findMaxPriorityLcgWithData := by
      refine nonzeroLcg_eq ?_ fun i hi => ?_
      · rw [hbuff, if_pos rfl]
        exact Nat.ne_of_gt hpos
      · rw [hbuff, if_neg (Ne.symm hi)]
    rw [hgroup]
    simp only [hbuff, if_true]
  · rename_i hzero
    have hall : ∀ i, (bsr.buffSize i).toNat = 0 := by
      intro i
      rw [hbuff]
      split
      · rename_i hi
        rw [← hi]
        omega
      · rfl
    rw [nonzeroLcg_zero hall, hall]
    rfl

end

/-- An RLC that returns as many bytes as it is asked for and has. -/
def queueRlc : RlcInterface (Nat → UInt32) where
  getBufferState rlc lcid := rlc lcid
  readPdu rlc lcid nofBytes :=
    let taken := min nofBytes (rlc lcid).toNat
    (List.replicate taken 0, Function.update rlc lcid (rlc lcid - UInt32.ofNat taken))

theorem queueRlc_dropsExactly : DropsExactly queueRlc where
  atMost rlc lcid nofBytes := by simp [queueRlc]
  drops rlc lcid nofBytes := by
    have hle : min nofBytes (rlc lcid).toNat ≤ (rlc lcid).toNat := Nat.min_le_right _ _
    have hof : (UInt32.ofNat (min nofBytes (rlc lcid).toNat)).toNat = min nofBytes (rlc lcid).toNat :=
      UInt32.toNat_ofNat_of_lt' (Nat.lt_of_le_of_lt hle (UInt32.toNat_lt _))
    simp only [queueRlc, Function.update_self, List.length_replicate]
    rw [UInt32.toNat_sub_of_le _ _ (by rw [UInt32.le_iff_toNat_le, hof]; exact hle), hof]
    omega
  others rlc lcid nofBytes lcid' hne := by simp [queueRlc, hne]

attribute [local instance] Odss.Mac.SchPdu.neZero_lcg

/-- A channel of group 1, and one of group 2 with a lower priority. -/
def twoChannels : List LogicalChannel := [⟨3, 1, 0, -1, 0, 1, 0, 0⟩, ⟨4, 2, 0, -1, 0, 2, 0, 0⟩]

/-- The procedure for these channels, after a TTI in which RLC had this data. -/
def stepped (rlc : Nat → UInt32) : BsrProc.State :=
  ((BsrProc.State.init.setupLcid 3 1 1).setupLcid 4 2 2).step rlc

/-- Data of both channels. -/
def bothBuffered : Nat → UInt32 := fun lcid => if lcid = 3 then 50 else if lcid = 4 then 100 else 0

end Odss.Ue.Mux
