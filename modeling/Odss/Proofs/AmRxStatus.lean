import Odss.Proofs.AmRxWindow

/-!
# `Odss.Proofs.AmRxStatus`: the status report of RLC AM

`ReportTrue` says what a status report has to be: each SN below `ACK_SN` is received or in
the list of NACKs, each NACK is a missing SN below `ACK_SN`, and the report fits the grant.
`reportsTrue_iff` says when `get_status_pdu` returns only such reports, in any state that a
run reaches. Two kinds of states are left out.

* A grant below two bytes, with an SN to report: `ACK_SN` alone needs two bytes, and the way
  back to it has no check of the grant.
* All the 512 SNs of the window are missing and the grant has room for their NACKs: the loop
  stops at the capacity of the list, and `ACK_SN` stays at `vr_r`, below the NACKs.
-/

set_option linter.all false

namespace Odss.Rlc.AmRx

open Odss.Lib

/-- A true report: the order is the distance from `vr_r`. -/
structure ReportTrue (s : AmRx) (maxPduSize : Nat) (status : StatusPdu) : Prop where
  ackSn : status.ackSn < amMod ∧ s.rxModBase status.ackSn ≤ s.rxModBase s.vrMs
  received : ∀ sn < amMod, s.rxModBase sn < s.rxModBase status.ackSn →
    (∀ nack ∈ status.nacks, nack.nackSn ≠ sn) → s.rxWindow.contains sn = true
  missing : ∀ nack ∈ status.nacks, nack.nackSn < amMod ∧
    s.rxModBase nack.nackSn < s.rxModBase status.ackSn ∧
      s.rxWindow.contains nack.nackSn = false
  once : (status.nacks.map StatusNack.nackSn).Nodup
  size : status.packedLength ≤ maxPduSize

/-- Every report that `get_status_pdu` returns is true. -/
def ReportsTrue (s : AmRx) (maxPduSize : Nat) : Prop :=
  ∀ status, s.getStatusPdu maxPduSize = some status → ReportTrue s maxPduSize status

/-- The length of a report without segment offsets: 15 bits, and 12 bits for each NACK. -/
theorem packedLength_of_noSo {status : StatusPdu} (h : ∀ nack ∈ status.nacks, nack.hasSo = false) :
    status.packedLength = (22 + 12 * status.nacks.length) / 8 := by
  have hsum : ∀ nacks : List StatusNack, (∀ nack ∈ nacks, nack.hasSo = false) →
      (nacks.map fun nack => if nack.hasSo then 42 else 12).sum = 12 * nacks.length := by
    intro nacks
    induction nacks with
    | nil => exact fun _ => rfl
    | cons nack nacks ih =>
      intro h
      have hrest := ih fun n hn => h n (List.mem_cons_of_mem _ hn)
      rw [List.map_cons, List.sum_cons, hrest, h nack List.mem_cons_self, List.length_cons]
      simp only [Bool.false_eq_true, if_false]
      omega
  rw [StatusPdu.packedLength, hsum _ h]
  congr 1
  omega

/-- The loop of `get_status_pdu` has handled the SNs below `i`. -/
structure Scanned (s : AmRx) (maxPduSize i : Nat) (status : StatusPdu) : Prop where
  sn : i < amMod
  ackSn : status.ackSn < amMod ∧ (status.ackSn = s.vrR ∨ s.rxModBase status.ackSn < s.rxModBase i)
  received : ∀ sn < amMod, s.rxModBase sn < s.rxModBase i →
    s.rxWindow.contains sn = true ∨ ∃ nack ∈ status.nacks, nack.nackSn = sn
  noSo : ∀ nack ∈ status.nacks, nack.hasSo = false
  missing : ∀ nack ∈ status.nacks, nack.nackSn < amMod ∧
    s.rxModBase nack.nackSn < s.rxModBase i ∧ s.rxWindow.contains nack.nackSn = false
  once : (status.nacks.map StatusNack.nackSn).Nodup
  size : status.packedLength ≤ maxPduSize ∨ (i = s.vrR ∧ status = ⟨s.vrR, []⟩)

theorem scanned_start {s : AmRx} (h : RxInv s) (maxPduSize : Nat) :
    Scanned s maxPduSize s.vrR ⟨s.vrR, []⟩ where
  sn := h.vrR
  ackSn := ⟨h.vrR, .inl rfl⟩
  received := fun sn _ hlt => by
    rw [rxModBase_vrR] at hlt
    exact absurd hlt (Nat.not_lt_zero _)
  noSo := fun _ hn => absurd hn List.not_mem_nil
  missing := fun _ hn => absurd hn List.not_mem_nil
  once := List.nodup_nil
  size := .inr ⟨rfl, rfl⟩

/-- The window is empty, and the NACKs are the 512 SNs of it. -/
structure AllMissing (s : AmRx) (maxPduSize : Nat) : Prop where
  size : 770 ≤ maxPduSize
  span : s.rxModBase s.vrMs = amWindowSize
  empty : ∀ k, s.rxWindow.contains k = false

/-- A full list of NACKs takes up the whole window. -/
theorem allMissing_of_full {s : AmRx} (h : RxInv s) {maxPduSize i : Nat} {status : StatusPdu}
    (hs : Scanned s maxPduSize i status) (hle : s.rxModBase i ≤ s.rxModBase s.vrMs)
    (hfull : amWindowSize ≤ status.nacks.length) : AllMissing s maxPduSize := by
  have hspan : s.rxModBase s.vrMs ≤ amWindowSize := Nat.le_trans h.le h.span
  -- The distances of the NACKs are numbers below the distance of `i`, each of them once.
  let dists := status.nacks.map fun nack => s.rxModBase nack.nackSn
  have hnodup : dists.Nodup := by
    have honce := hs.once
    rw [List.nodup_map_iff_inj_on honce.of_map] at honce
    refine (List.nodup_map_iff_inj_on hs.once.of_map).mpr fun a ha b hb heq => ?_
    exact honce a ha b hb
      (cycDist_inj h.vrR (hs.missing a ha).1 (hs.missing b hb).1 heq)
  have hsub : dists.toFinset ⊆ Finset.range (s.rxModBase i) := by
    intro d hd
    obtain ⟨nack, hnack, rfl⟩ := List.mem_map.mp (List.mem_toFinset.mp hd)
    exact Finset.mem_range.mpr (hs.missing nack hnack).2.1
  have hcard : dists.toFinset.card = status.nacks.length := by
    rw [List.toFinset_card_of_nodup hnodup, List.length_map]
  have hcount := Finset.card_le_card hsub
  rw [hcard, Finset.card_range] at hcount
  have heq : dists.toFinset = Finset.range (s.rxModBase i) :=
    Finset.eq_of_subset_of_card_le hsub (by rw [hcard, Finset.card_range]; omega)
  refine ⟨?_, by omega, fun k => ?_⟩
  · rcases hs.size with hsize | ⟨-, hstart⟩
    · rw [packedLength_of_noSo hs.noSo] at hsize
      simp only [amWindowSize] at *
      omega
    · rw [hstart] at hfull
      simp at hfull
  · rw [← Bool.not_eq_true]
    intro hk
    obtain ⟨hbound, hlt⟩ := h.inside k hk
    have hspan := h.span
    have hmem : s.rxModBase k ∈ dists.toFinset := by
      rw [heq, Finset.mem_range]
      omega
    obtain ⟨nack, hnack, hdist⟩ := List.mem_map.mp (List.mem_toFinset.mp hmem)
    obtain ⟨hn, -, hout⟩ := hs.missing nack hnack
    rw [cycDist_inj h.vrR hn hbound hdist, hk] at hout
    cases hout

/-- A scanned report that `rlc_am_is_valid_status_pdu` accepts is true. -/
theorem reportTrue_of_valid {s : AmRx} (h : RxInv s) {maxPduSize i : Nat} {status : StatusPdu}
    (hs : Scanned s maxPduSize i status) (hle : s.rxModBase i ≤ s.rxModBase s.vrMs)
    (hvalid : isValidStatusPdu status s.vrR = true) (hsize : status.packedLength ≤ maxPduSize) :
    ReportTrue s maxPduSize status := by
  have hspan : s.rxModBase s.vrMs ≤ amWindowSize := Nat.le_trans h.le h.span
  have hack : s.rxModBase status.ackSn ≤ s.rxModBase i := by
    rcases hs.ackSn.2 with heq | hlt
    · rw [heq, rxModBase_vrR]
      exact Nat.zero_le _
    · exact Nat.le_of_lt hlt
  refine ⟨⟨hs.ackSn.1, Nat.le_trans hack hle⟩, fun sn hsn hlt hnot => ?_, fun nack hnack => ?_,
    hs.once, hsize⟩
  · rcases hs.received sn hsn (Nat.lt_of_lt_of_le hlt hack) with hin | ⟨nack, hnack, heq⟩
    · exact hin
    · exact absurd heq (hnot nack hnack)
  · obtain ⟨hn, hlt, hout⟩ := hs.missing nack hnack
    refine ⟨hn, ?_, hout⟩
    simp only [isValidStatusPdu, Bool.and_eq_true, List.all_eq_true, Bool.not_eq_true',
      beq_eq_false_iff_ne, decide_eq_true_eq] at hvalid
    obtain ⟨hbehind, hne⟩ := hvalid.2 nack hnack
    have hd := cycDist_cases h.vrR hn
    have hd' := cycDist_cases h.vrR hs.ackSn.1
    have hR := h.vrR
    have hA := hs.ackSn.1
    simp only [rxModBase_eq] at *
    simp only [amMod, amWindowSize] at *
    omega

/-- A report of `ACK_SN` alone has two bytes. -/
theorem packedLength_ackSn (ackSn : Nat) : (⟨ackSn, []⟩ : StatusPdu).packedLength = 2 := by
  simp [StatusPdu.packedLength]

/-- A report of `ACK_SN` alone at the lower edge of the window is true, when it fits. -/
theorem reportTrue_edge {s : AmRx} (h : RxInv s) {maxPduSize : Nat} (hsize : 2 ≤ maxPduSize) :
    ReportTrue s maxPduSize ⟨s.vrR, []⟩ where
  ackSn := ⟨h.vrR, by rw [rxModBase_vrR]; exact Nat.zero_le _⟩
  received := fun sn _ hlt => by
    rw [rxModBase_vrR] at hlt
    exact absurd hlt (Nat.not_lt_zero _)
  missing := fun _ hn => absurd hn List.not_mem_nil
  once := List.nodup_nil
  size := by rwa [packedLength_ackSn]

/-- Behind `vr_ms` the loop is over. -/
theorem statusLoop_past {s : AmRx} (maxPduSize fuel : Nat) {i : Nat} (status : StatusPdu)
    (h : s.rxModBase s.vrMs < s.rxModBase i) :
    statusLoop s maxPduSize fuel i status = some status := by
  cases fuel with
  | zero => rfl
  | succ fuel =>
    unfold statusLoop
    rw [if_neg]
    omega

/-- The handled SNs grow by the SN `i`. -/
theorem rxModBase_lt_succ {s : AmRx} (h : RxInv s) {i : Nat} (hi : i < amMod)
    (hlt : s.rxModBase i < s.rxModBase s.vrMs) (sn : Nat) (hsn : sn < amMod) :
    s.rxModBase sn < s.rxModBase ((i + 1) % amMod) ↔ s.rxModBase sn < s.rxModBase i ∨ sn = i := by
  have hspan : s.rxModBase s.vrMs ≤ amWindowSize := Nat.le_trans h.le h.span
  have hsucc : s.rxModBase ((i + 1) % amMod) = s.rxModBase i + 1 := by
    refine cycDist_succ h.vrR hi ?_
    show s.rxModBase i + 1 < amMod
    simp only [amMod, amWindowSize] at *
    omega
  rw [hsucc]
  constructor
  · intro hle
    rcases Nat.lt_or_ge (s.rxModBase sn) (s.rxModBase i) with hlt | hge
    · exact .inl hlt
    · exact .inr (cycDist_inj h.vrR hsn hi (Nat.le_antisymm (Nat.le_of_lt_succ hle) hge))
  · rintro (hlt | rfl)
    · exact Nat.lt_succ_of_lt hlt
    · exact Nat.lt_succ_self _

theorem addSn_of_received {s : AmRx} {i : Nat}
    (hin : (s.rxWindow.contains i || i == s.vrMs) = true) (status : StatusPdu) :
    s.addSn status i = { status with ackSn := i } := if_pos hin

/-- A missing SN below `vr_ms` is put into the list of NACKs. -/
theorem addSn_of_missing {s : AmRx} {i : Nat}
    (hout : ¬ (s.rxWindow.contains i || i == s.vrMs) = true) (status : StatusPdu) :
    s.addSn status i = { status with nacks := status.nacks ++ [⟨i, false, 0, 0⟩] } := if_neg hout

/-- The step of the loop below `vr_ms`, when the report still fits. -/
theorem scanned_addSn {s : AmRx} (h : RxInv s) {maxPduSize i : Nat} {status : StatusPdu}
    (hs : Scanned s maxPduSize i status) (hlt : s.rxModBase i < s.rxModBase s.vrMs)
    (hfits : (s.addSn status i).packedLength ≤ maxPduSize) :
    Scanned s maxPduSize ((i + 1) % amMod) (s.addSn status i) := by
  have hsucc := rxModBase_lt_succ h hs.sn hlt
  have hi := (hsucc i hs.sn).mpr (.inr rfl)
  have hnext : (i + 1) % amMod < amMod := succ_mod_lt hs.sn
  by_cases hin : (s.rxWindow.contains i || i == s.vrMs) = true
  · rw [addSn_of_received hin] at hfits ⊢
    have hcontains : s.rxWindow.contains i = true := by
      rcases Bool.or_eq_true_iff.mp hin with hin | heq
      · exact hin
      · rw [beq_iff_eq.mp heq] at hlt
        exact absurd hlt (Nat.lt_irrefl _)
    refine ⟨hnext, ⟨hs.sn, .inr hi⟩, fun sn hsn hlt' => ?_, hs.noSo, fun nack hnack => ?_, hs.once,
      .inl hfits⟩
    · rcases (hsucc sn hsn).mp hlt' with hold | rfl
      · exact hs.received sn hsn hold
      · exact .inl hcontains
    · obtain ⟨hn, hold, hout⟩ := hs.missing nack hnack
      exact ⟨hn, (hsucc _ hn).mpr (.inl hold), hout⟩
  · rw [addSn_of_missing hin] at hfits ⊢
    have hout : s.rxWindow.contains i = false := by
      rw [← Bool.not_eq_true]
      exact fun hcontains => hin (by rw [hcontains, Bool.true_or])
    refine ⟨hnext, ⟨hs.ackSn.1, ?_⟩, fun sn hsn hlt' => ?_, fun nack hnack => ?_,
      fun nack hnack => ?_, ?_, .inl hfits⟩
    · rcases hs.ackSn.2 with heq | hold
      · exact .inl heq
      · exact .inr (Nat.lt_trans hold hi)
    · rcases (hsucc sn hsn).mp hlt' with hold | rfl
      · rcases hs.received sn hsn hold with hin | ⟨nack, hnack, heq⟩
        · exact .inl hin
        · exact .inr ⟨nack, List.mem_append_left _ hnack, heq⟩
      · exact .inr ⟨⟨sn, false, 0, 0⟩, List.mem_append_right _ List.mem_cons_self, rfl⟩
    · rcases List.mem_append.mp hnack with hold | hnew
      · exact hs.noSo nack hold
      · rw [List.mem_singleton.mp hnew]
    · rcases List.mem_append.mp hnack with hold | hnew
      · obtain ⟨hn, hold, hout⟩ := hs.missing nack hold
        exact ⟨hn, (hsucc _ hn).mpr (.inl hold), hout⟩
      · rw [List.mem_singleton.mp hnew]
        exact ⟨hs.sn, hi, hout⟩
    · rw [List.map_append, List.nodup_append]
      refine ⟨hs.once, List.nodup_singleton _, fun a ha b hb heq => ?_⟩
      obtain ⟨nack, hnack, rfl⟩ := List.mem_map.mp ha
      have hb : b = i := List.mem_singleton.mp hb
      have hold := (hs.missing nack hnack).2.1
      rw [heq, hb] at hold
      exact absurd hold (Nat.lt_irrefl _)

/-- At `vr_ms` the loop has a complete report. -/
theorem reportTrue_vrMs {s : AmRx} (h : RxInv s) {maxPduSize : Nat} {status : StatusPdu}
    (hs : Scanned s maxPduSize s.vrMs status)
    (hfits : (s.addSn status s.vrMs).packedLength ≤ maxPduSize) :
    ReportTrue s maxPduSize (s.addSn status s.vrMs) := by
  have hms : (s.rxWindow.contains s.vrMs || s.vrMs == s.vrMs) = true := by simp
  rw [addSn_of_received hms] at hfits ⊢
  refine ⟨⟨h.vrMs, le_rfl⟩, fun sn hsn hlt hnot => ?_, hs.missing, hs.once, hfits⟩
  rcases hs.received sn hsn hlt with hin | ⟨nack, hnack, heq⟩
  · exact hin
  · exact absurd heq (hnot nack hnack)

/-- The report of a round that exceeds the grant is the one of the round before, or `ACK_SN`
alone. -/
theorem truncateStatus_spec {s : AmRx} (h : RxInv s) {maxPduSize i : Nat}
    {status status' : StatusPdu} (hs : Scanned s maxPduSize i status)
    (hle : s.rxModBase i ≤ s.rxModBase s.vrMs)
    (hexceeds : maxPduSize < (s.addSn status i).packedLength)
    (hreport : s.truncateStatus (s.addSn status i) = some status') :
    ReportTrue s maxPduSize status' ∨ (maxPduSize < 2 ∧ s.vrMs ≠ s.vrR) := by
  by_cases hin : (s.rxWindow.contains i || i == s.vrMs) = true
  · -- No NACK was added, so the grant has no room for `ACK_SN`, and there is no report.
    rw [addSn_of_received hin] at hexceeds hreport
    rcases hs.size with hsize | ⟨-, rfl⟩
    · exact absurd hsize (Nat.not_le_of_lt hexceeds)
    · cases hreport
  · rw [addSn_of_missing hin] at hexceeds hreport
    have hne : i ≠ s.vrMs := fun heq => hin (by rw [heq, beq_self_eq_true, Bool.or_true])
    unfold truncateStatus at hreport
    simp only [List.dropLast_concat] at hreport
    split at hreport
    · rcases Nat.lt_or_ge maxPduSize 2 with hsmall | hlarge
      · refine .inr ⟨hsmall, ?_⟩
        rcases hs.size with hsize | ⟨hstart, -⟩
        · rw [packedLength_of_noSo hs.noSo] at hsize
          omega
        · rw [← hstart]
          exact hne.symm
      · left
        split at hreport
        · rename_i hvalid
          cases hreport
          refine reportTrue_of_valid h hs hle hvalid ?_
          rcases hs.size with hsize | ⟨-, rfl⟩
          · exact hsize
          · rwa [packedLength_ackSn]
        · cases hreport
          exact reportTrue_edge h hlarge
    · cases hreport

theorem statusLoop_spec {s : AmRx} (h : RxInv s) {maxPduSize i : Nat} (fuel : Nat)
    {status status' : StatusPdu} (hs : Scanned s maxPduSize i status)
    (hle : s.rxModBase i ≤ s.rxModBase s.vrMs) (hfuel : s.rxModBase s.vrMs < s.rxModBase i + fuel)
    (hreport : statusLoop s maxPduSize fuel i status = some status') :
    ReportTrue s maxPduSize status' ∨ (maxPduSize < 2 ∧ s.vrMs ≠ s.vrR) ∨
      AllMissing s maxPduSize := by
  induction fuel generalizing i status with
  | zero => omega
  | succ fuel ih =>
    unfold statusLoop at hreport
    split at hreport
    · split at hreport
      · rename_i hexceeds
        rcases truncateStatus_spec h hs hle hexceeds hreport with htrue | hsmall
        · exact .inl htrue
        · exact .inr (.inl hsmall)
      · rename_i hfits
        have hfits := Nat.le_of_not_lt hfits
        have hspan : s.rxModBase s.vrMs ≤ amWindowSize := Nat.le_trans h.le h.span
        have hsucc : s.rxModBase ((i + 1) % amMod) = s.rxModBase i + 1 := by
          refine cycDist_succ h.vrR hs.sn ?_
          show s.rxModBase i + 1 < amMod
          simp only [amMod, amWindowSize] at *
          omega
        rcases Nat.lt_or_eq_of_le hle with hlt | heq
        · exact ih (scanned_addSn h hs hlt hfits) (by omega) (by omega) hreport
        · have heq : i = s.vrMs := cycDist_inj h.vrR hs.sn h.vrMs heq
          subst heq
          rw [statusLoop_past maxPduSize fuel _ (by omega)] at hreport
          cases hreport
          exact .inl (reportTrue_vrMs h hs hfits)
    · rename_i hstop
      exact .inr (.inr (allMissing_of_full h hs hle (by omega)))

/-! ### The false reports -/

/-- A grant below two bytes: the first missing SN exceeds it, and the way back to `ACK_SN`
alone has no check of the grant. -/
theorem getStatusPdu_small {s : AmRx} (h : RxInv s) {maxPduSize : Nat} (hsmall : maxPduSize < 2)
    (hne : s.vrMs ≠ s.vrR) : s.getStatusPdu maxPduSize = some ⟨s.vrR, []⟩ := by
  have hout : ¬ (s.rxWindow.contains s.vrR || s.vrR == s.vrMs) = true := by
    simp [h.edge, hne.symm]
  have hvalid : isValidStatusPdu ⟨s.vrR, []⟩ s.vrR = true := by
    simp [isValidStatusPdu, amMod]
  have hlength : maxPduSize < (⟨s.vrR, [⟨s.vrR, false, 0, 0⟩]⟩ : StatusPdu).packedLength := by
    simp only [StatusPdu.packedLength, List.map_cons, List.map_nil, List.sum_cons, List.sum_nil]
    simp only [Bool.false_eq_true, if_false]
    omega
  have hroom : (0 : Nat) < amWindowSize := by decide
  have hone : (1 : Nat) < amWindowSize := by decide
  show statusLoop s maxPduSize (1023 + 1) s.vrR ⟨s.vrR, []⟩ = _
  rw [statusLoop, if_pos ⟨by rw [rxModBase_vrR]; exact Nat.zero_le _, hroom⟩,
    addSn_of_missing hout]
  simp only [List.nil_append]
  rw [if_pos hlength]
  simp [truncateStatus, hvalid, hone]

/-- With an empty window the loop fills the list of NACKs and leaves `ACK_SN` at `vr_r`. -/
theorem statusLoop_allMissing {s : AmRx} (h : RxInv s) {maxPduSize : Nat}
    (hall : AllMissing s maxPduSize) (n fuel : Nat) {i : Nat} (status : StatusPdu) (hi : i < amMod)
    (hdist : s.rxModBase i + n = amWindowSize) (hcount : status.nacks.length + n = amWindowSize)
    (hnoSo : ∀ nack ∈ status.nacks, nack.hasSo = false) (hfuel : n < fuel) :
    ∃ nacks, nacks.length = amWindowSize ∧
      statusLoop s maxPduSize fuel i status = some ⟨status.ackSn, nacks⟩ := by
  induction n generalizing i status fuel with
  | zero =>
    obtain ⟨fuel, rfl⟩ : ∃ k, fuel = k + 1 := ⟨fuel - 1, by omega⟩
    refine ⟨status.nacks, hcount, ?_⟩
    unfold statusLoop
    rw [if_neg]
    omega
  | succ n ih =>
    obtain ⟨fuel, rfl⟩ : ∃ k, fuel = k + 1 := ⟨fuel - 1, by omega⟩
    have hsize := hall.size
    have hspan := hall.span
    have hne : i ≠ s.vrMs := by
      intro heq
      rw [heq] at hdist
      omega
    have hout : ¬ (s.rxWindow.contains i || i == s.vrMs) = true := by
      simp [hall.empty i, hne]
    have hnoSo' : ∀ nack ∈ status.nacks ++ [⟨i, false, 0, 0⟩], nack.hasSo = false := by
      intro nack hnack
      rcases List.mem_append.mp hnack with hold | hnew
      · exact hnoSo nack hold
      · rw [List.mem_singleton.mp hnew]
    have hlength : (⟨status.ackSn, _⟩ : StatusPdu).packedLength = _ := packedLength_of_noSo hnoSo'
    have hsucc : s.rxModBase ((i + 1) % amMod) = s.rxModBase i + 1 := by
      refine cycDist_succ h.vrR hi ?_
      show s.rxModBase i + 1 < amMod
      simp only [amMod, amWindowSize] at *
      omega
    unfold statusLoop
    rw [if_pos ⟨by omega, by omega⟩, addSn_of_missing hout, if_neg]
    · refine ih fuel _ (succ_mod_lt hi) (by omega) ?_ hnoSo' (by omega)
      rw [List.length_append, List.length_singleton]
      omega
    · rw [hlength, List.length_append, List.length_singleton]
      simp only [amWindowSize] at *
      omega

/-- A grant below two bytes gets a report that does not fit. -/
theorem not_reportsTrue_of_small {s : AmRx} (h : RxInv s) {maxPduSize : Nat}
    (hsmall : maxPduSize < 2) (hne : s.vrMs ≠ s.vrR) : ¬ ReportsTrue s maxPduSize := by
  intro htrue
  have hsize := (htrue _ (getStatusPdu_small h hsmall hne)).size
  rw [packedLength_ackSn] at hsize
  omega

/-- With an empty window the first NACK would have to lie below `vr_r`. -/
theorem not_reportsTrue_of_allMissing {s : AmRx} (h : RxInv s) {maxPduSize : Nat}
    (hall : AllMissing s maxPduSize) : ¬ ReportsTrue s maxPduSize := by
  intro htrue
  obtain ⟨nacks, hcount, hreport⟩ := statusLoop_allMissing h hall amWindowSize amMod
    ⟨s.vrR, []⟩ h.vrR (by rw [rxModBase_vrR, Nat.zero_add]) (Nat.zero_add _)
    (fun _ hn => absurd hn List.not_mem_nil) (by decide)
  have hmissing := (htrue _ hreport).missing
  cases nacks with
  | nil => cases hcount
  | cons nack nacks =>
    have hlt := (hmissing nack List.mem_cons_self).2.1
    rw [rxModBase_vrR] at hlt
    exact absurd hlt (Nat.not_lt_zero _)

/-- In every state of the receiver that a run reaches, and for every grant, the reports are
true exactly when the grant has room for `ACK_SN` or there is nothing to report, and some SN of
the window was received or the grant has no room for the 512 NACKs. -/
theorem reportsTrue_iff {ops : List Op} {s : AmRx} {reports : List (Option StatusPdu)}
    (hfits : StepsWithin step PayloadFits init ops) (hrun : run step init ops = some (s, reports))
    (maxPduSize : Nat) :
    ReportsTrue s maxPduSize ↔
      (2 ≤ maxPduSize ∨ s.vrMs = s.vrR) ∧
        (maxPduSize < 770 ∨ s.rxModBase s.vrMs < amWindowSize ∨
          ∃ k, s.rxWindow.contains k = true) := by
  have h := rxInv_of_run hfits hrun
  have hspan : s.rxModBase s.vrMs ≤ amWindowSize := Nat.le_trans h.le h.span
  constructor
  · intro htrue
    constructor
    · by_contra hnot
      obtain ⟨hsmall, hne⟩ := not_or.mp hnot
      exact not_reportsTrue_of_small h (by omega) hne htrue
    · by_contra hnot
      obtain ⟨hlarge, hnot⟩ := not_or.mp hnot
      obtain ⟨hfull, hempty⟩ := not_or.mp hnot
      refine not_reportsTrue_of_allMissing h ⟨by omega, by omega, fun k => ?_⟩ htrue
      rw [← Bool.not_eq_true]
      exact fun hk => hempty ⟨k, hk⟩
  · rintro ⟨hgrant, hwindow⟩ status hreport
    rcases statusLoop_spec h amMod (scanned_start h maxPduSize)
      (by rw [rxModBase_vrR]; exact Nat.zero_le _)
      (by rw [rxModBase_vrR]; simp only [amMod, amWindowSize] at *; omega) hreport with
      htrue | ⟨hsmall, hne⟩ | hall
    · exact htrue
    · rcases hgrant with hlarge | heq
      · omega
      · exact absurd heq hne
    · have hsize := hall.size
      have hfull := hall.span
      rcases hwindow with hless | hless | ⟨k, hk⟩
      · omega
      · omega
      · rw [hall.empty k] at hk
        cases hk

/-- One PDU above the lower edge of the window, with a grant of two bytes. -/
theorem reportsTrue_iff_single : ∃ s reports,
    run step init [.writePdu [128, 1, 7]] = some (s, reports) ∧
      (ReportsTrue s 2 ↔ (2 ≤ 2 ∨ s.vrMs = s.vrR) ∧
        (2 < 770 ∨ s.rxModBase s.vrMs < amWindowSize ∨
          ∃ k, s.rxWindow.contains k = true)) := by
  have hfits : StepsWithin step PayloadFits init [.writePdu [128, 1, 7]] :=
    ⟨by decide, fun _ _ _ => trivial⟩
  exact ⟨_, _, rfl, reportsTrue_iff hfits rfl 2⟩

/-- A PDU segment of the SN 299 and the PDU 0 start the timer. A PDU segment at the upper edge
of the window arrives before it expires twice. -/
def emptyWindowOps : List Op :=
  [.writePdu [193, 43, 0, 0, 7], .writePdu [128, 0, 7], .writePdu [194, 0, 0, 0, 7],
    .timerExpired, .timerExpired]

theorem payloadFits_emptyWindowOps : StepsWithin step PayloadFits init emptyWindowOps := by
  refine stepsWithin_of_forall (fun op hop s => ?_) init
  simp only [emptyWindowOps, List.mem_cons, List.not_mem_nil, or_false] at hop
  rcases hop with rfl | rfl | rfl | rfl | rfl
  · show ∀ r ∈ readDataPduHeader _, r.2.length ≤ bufferTailroom
    decide
  · show ∀ r ∈ readDataPduHeader _, r.2.length ≤ bufferTailroom
    decide
  · show ∀ r ∈ readDataPduHeader _, r.2.length ≤ bufferTailroom
    decide
  · trivial
  · trivial

/-- The receiver reports 512 SNs lost that lie above its `ACK_SN`. -/
theorem not_reportsTrue_emptyWindow : ∃ s reports,
    StepsWithin step PayloadFits init emptyWindowOps ∧
      run step init emptyWindowOps = some (s, reports) ∧ ¬ ReportsTrue s 770 := by
  refine ⟨_, _, payloadFits_emptyWindowOps, rfl, not_reportsTrue_of_allMissing
    (rxInv_of_run payloadFits_emptyWindowOps rfl) ⟨le_rfl, rfl, fun _ => rfl⟩⟩

end Odss.Rlc.AmRx
