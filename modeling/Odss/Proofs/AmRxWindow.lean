import Odss.Lib.CyclicDist
import Odss.Lib.Run
import Odss.Rlc.AmRx

/-!
# `Odss.Proofs.AmRxWindow`: the receive window of RLC AM

`RxInv` orders the state variables of the receiver: `vr_r ≤ vr_ms ≤ vr_h ≤ vr_mr` in the
distance from `vr_r`, the stored PDUs lie below `vr_h`, and the SNs `vr_r` and `vr_ms` are
missing.

* `rxInv_reassembleLoop` follows `vr_r` through the PDUs in sequence. `Moving` is the part of
  the invariant that holds between two rounds.
* `rxInv_handleDataPdu` and `rxInv_handleDataPduSegment` are the steps of the two kinds of
  PDUs.
* `rxInv_of_run` is the invariant of every run in which each payload fits a buffer.
-/

set_option linter.all false

namespace Odss.Rlc.AmRx

open Odss.Lib

theorem rxModBase_eq (s : AmRx) (x : Nat) : s.rxModBase x = cycDist amMod s.vrR x := rfl

/-- The stored PDUs lie between `vr_r` and `vr_h`, inside the window. -/
structure Ordered (s : AmRx) : Prop where
  vrR : s.vrR < amMod
  vrH : s.vrH < amMod
  vrMr : s.vrMr = (s.vrR + amWindowSize) % amMod
  span : s.rxModBase s.vrH ≤ amWindowSize
  inside : ∀ k, s.rxWindow.contains k = true → k < amMod ∧ s.rxModBase k < s.rxModBase s.vrH

/-- The order of the state variables between two rounds of `reassemble_rx_sdus`. While the
timer runs, `vr_x` is below `vr_h`, or `vr_r` has passed it in this call. -/
structure Moving (s : AmRx) : Prop extends Ordered s where
  vrMs : s.vrMs < amMod
  le : s.rxModBase s.vrMs ≤ s.rxModBase s.vrH
  status : s.rxWindow.contains s.vrMs = false
  segments : ∀ sn list, s.rxSegments.find? sn = some list → ∀ g ∈ list, g.header.sn < amMod
  timer : s.reorderingTimer = .running → s.vrX < amMod ∧
    ((s.rxModBase s.vrX ≤ s.rxModBase s.vrH ∧
        (s.rxModBase s.vrX = 0 → s.rxModBase s.vrH < amWindowSize)) ∨
      s.rxModBase s.vrH + amWindowSize < s.rxModBase s.vrX)

/-- The invariant of the receiver. -/
structure RxInv (s : AmRx) : Prop extends Moving s where
  edge : s.rxWindow.contains s.vrR = false
  above : s.reorderingTimer = .running →
    0 < s.rxModBase s.vrX ∧ s.rxModBase s.vrX ≤ s.rxModBase s.vrH

/-- What is left of the invariant when PDUs that were not processed lie in the window. -/
structure Settled (s : AmRx) : Prop extends Ordered s where
  vrMs : s.vrMs < amMod
  le : s.rxModBase s.vrMs ≤ s.rxModBase s.vrH
  segments : ∀ sn list, s.rxSegments.find? sn = some list → ∀ g ∈ list, g.header.sn < amMod
  above : s.reorderingTimer = .running →
    s.vrX < amMod ∧ 0 < s.rxModBase s.vrX ∧ s.rxModBase s.vrX ≤ s.rxModBase s.vrH

theorem RxInv.settled {s : AmRx} (h : RxInv s) : Settled s :=
  ⟨h.toOrdered, h.vrMs, h.le, h.segments, fun hrun => ⟨(h.timer hrun).1, h.above hrun⟩⟩

theorem rxInv_init : RxInv init where
  vrR := by decide
  vrMs := by decide
  vrH := by decide
  vrMr := by decide
  le := by decide
  span := by decide
  inside := fun k hk => by simp [init] at hk
  status := rfl
  segments := fun sn list h => by simp [init] at h
  timer := fun h => by simp [init] at h
  edge := rfl
  above := fun h => by simp [init] at h

/-! ### The window -/

theorem rxModBase_vrR (s : AmRx) : s.rxModBase s.vrR = 0 := cycDist_self

theorem rxModBase_upperEdge {s : AmRx} (hR : s.vrR < amMod)
    (hMr : s.vrMr = (s.vrR + amWindowSize) % amMod) : s.rxModBase s.vrMr = amWindowSize := by
  rw [hMr]
  exact cycDist_add_mod hR (by decide)

theorem insideRxWindow_iff_lt {s : AmRx} (hR : s.vrR < amMod)
    (hMr : s.vrMr = (s.vrR + amWindowSize) % amMod) (sn : Nat) :
    s.insideRxWindow sn = true ↔ s.rxModBase sn < amWindowSize := by
  simp [insideRxWindow, rxModBase_vrR, rxModBase_upperEdge hR hMr]

theorem rxModBase_vrMr {s : AmRx} (h : Ordered s) : s.rxModBase s.vrMr = amWindowSize :=
  rxModBase_upperEdge h.vrR h.vrMr

theorem insideRxWindow_iff {s : AmRx} (h : Ordered s) (sn : Nat) :
    s.insideRxWindow sn = true ↔ s.rxModBase sn < amWindowSize :=
  insideRxWindow_iff_lt h.vrR h.vrMr sn

/-- The loop of `vr_ms` ends at an SN that is not in the window, and never beyond `vr_h`. -/
theorem firstMissing_spec {s : AmRx} (h : Ordered s) (fuel sn : Nat) (hsn : sn < amMod)
    (hle : s.rxModBase sn ≤ s.rxModBase s.vrH)
    (hfuel : s.rxModBase s.vrH < s.rxModBase sn + fuel) :
    firstMissing s.rxWindow fuel sn < amMod ∧
      s.rxWindow.contains (firstMissing s.rxWindow fuel sn) = false ∧
      s.rxModBase sn ≤ s.rxModBase (firstMissing s.rxWindow fuel sn) ∧
      s.rxModBase (firstMissing s.rxWindow fuel sn) ≤ s.rxModBase s.vrH := by
  induction fuel generalizing sn with
  | zero => omega
  | succ fuel ih =>
    unfold firstMissing
    split
    · rename_i hin
      have hlt := (h.inside sn hin).2
      have hspan := h.span
      have hnext : s.rxModBase ((sn + 1) % amMod) = s.rxModBase sn + 1 := by
        refine cycDist_succ h.vrR hsn ?_
        show s.rxModBase sn + 1 < amMod
        simp only [amMod, amWindowSize] at *
        omega
      obtain ⟨hbound, hout, hge, hup⟩ := ih _ (succ_mod_lt hsn) (by omega) (by omega)
      exact ⟨hbound, hout, by omega, hup⟩
    · rename_i hout
      exact ⟨hsn, by simpa using hout, le_rfl, hle⟩

/-! ### Reassembly -/

/-- A round moves `vr_r` past an SN that is in the window, so `vr_ms` and `vr_h` are still
ahead of it. -/
theorem moving_reassembleRound {s : AmRx} (h : Moving s) (pdu : AmdRxPdu) (rxSdu : Bytes)
    (hin : s.rxWindow.contains s.vrR = true) :
    Moving (s.reassembleRound rxSdu pdu) ∧
      (s.reassembleRound rxSdu pdu).rxModBase s.vrH + 1 = s.rxModBase s.vrH := by
  have hpos := (h.inside s.vrR hin).2
  have hspan := h.span
  have hle := h.le
  rw [rxModBase_vrR] at hpos
  have hshift : ∀ x, x < amMod → x ≠ s.vrR →
      (s.reassembleRound rxSdu pdu).rxModBase x = s.rxModBase x - 1 :=
    fun x hx hne => cycDist_succ_base h.vrR hx hne
  have hms : s.vrMs ≠ s.vrR := by
    intro heq
    have hout := h.status
    rw [heq, hin] at hout
    cases hout
  have hH : s.vrH ≠ s.vrR := by
    intro heq
    rw [heq, rxModBase_vrR] at hpos
    omega
  have hmspos : 0 < s.rxModBase s.vrMs := by
    rw [Nat.pos_iff_ne_zero]
    exact fun h0 => hms ((cycDist_eq_zero_iff h.vrR h.vrMs).mp h0)
  have hHshift := hshift s.vrH h.vrH hH
  refine ⟨?_, by omega⟩
  refine ⟨⟨?_, ?_, ?_, ?_, ?_⟩, ?_, ?_, ?_, ?_, ?_⟩
  · exact succ_mod_lt h.vrR
  · exact h.vrH
  · show (s.vrMr + 1) % amMod = ((s.vrR + 1) % amMod + amWindowSize) % amMod
    rw [h.vrMr]
    simp only [amMod, amWindowSize]
    omega
  · show (s.reassembleRound rxSdu pdu).rxModBase s.vrH ≤ _
    omega
  · intro k hk
    obtain ⟨hne, hk⟩ := (CircularMap.contains_erase _ _ _).mp hk
    obtain ⟨hbound, hlt⟩ := h.inside k hk
    have hkpos : 0 < s.rxModBase k := by
      rw [Nat.pos_iff_ne_zero]
      exact fun h0 => hne ((cycDist_eq_zero_iff h.vrR hbound).mp h0)
    refine ⟨hbound, ?_⟩
    rw [hshift k hbound hne]
    show _ < (s.reassembleRound rxSdu pdu).rxModBase s.vrH
    omega
  · exact h.vrMs
  · show (s.reassembleRound rxSdu pdu).rxModBase s.vrMs ≤ _
    rw [hshift s.vrMs h.vrMs hms]
    show _ ≤ (s.reassembleRound rxSdu pdu).rxModBase s.vrH
    omega
  · show (s.rxWindow.erase s.vrR).contains s.vrMs = false
    rw [← Bool.not_eq_true]
    intro hk
    have hout := h.status
    rw [((CircularMap.contains_erase _ _ _).mp hk).2] at hout
    cases hout
  · intro sn list hfind
    have hold := h.segments
    simp only [reassembleRound, clearSegments] at hfind
    split at hfind
    · exact hold sn list hfind
    · rw [OrdMap.find?_insert] at hfind
      split at hfind
      · cases hfind
        exact fun g hg => absurd hg List.not_mem_nil
      · exact hold sn list hfind
  · intro hrun
    obtain ⟨hX, hcases⟩ := h.timer hrun
    refine ⟨hX, ?_⟩
    show ((s.reassembleRound rxSdu pdu).rxModBase s.vrX
        ≤ (s.reassembleRound rxSdu pdu).rxModBase s.vrH ∧
      ((s.reassembleRound rxSdu pdu).rxModBase s.vrX = 0 →
        (s.reassembleRound rxSdu pdu).rxModBase s.vrH < amWindowSize)) ∨
      (s.reassembleRound rxSdu pdu).rxModBase s.vrH + amWindowSize
        < (s.reassembleRound rxSdu pdu).rxModBase s.vrX
    by_cases hXR : s.vrX = s.vrR
    · -- `vr_r` passes `vr_x`, which is now more than a window ahead of it.
      have hX0 : s.rxModBase s.vrX = 0 := by rw [hXR, rxModBase_vrR]
      have hpassed : (s.reassembleRound rxSdu pdu).rxModBase s.vrX = amMod - 1 := by
        rw [hXR]
        exact cycDist_succ_base_self h.vrR
      right
      simp only [amMod, amWindowSize] at *
      omega
    · have hXpos : 0 < s.rxModBase s.vrX := by
        rw [Nat.pos_iff_ne_zero]
        exact fun h0 => hXR ((cycDist_eq_zero_iff h.vrR hX).mp h0)
      rw [hshift s.vrX hX hXR]
      omega

/-- The loop ends with a missing SN at the edge of the window. -/
theorem moving_reassembleLoop {s s' : AmRx} (fuel : Nat) (h : Moving s)
    (hfuel : s.rxModBase s.vrH < fuel) (hloop : reassembleLoop fuel s = some s') :
    Moving s' ∧ s'.rxWindow.contains s'.vrR = false := by
  induction fuel generalizing s with
  | zero => omega
  | succ fuel ih =>
    unfold reassembleLoop at hloop
    split at hloop
    · rename_i hnone
      cases hloop
      exact ⟨h, by rw [CircularMap.contains, hnone]; rfl⟩
    · rename_i pdu hpdu
      split at hloop
      · cases hloop
      · rename_i rxSdu _
        obtain ⟨hround, hless⟩ := moving_reassembleRound h pdu rxSdu
          (CircularMap.contains_iff.mpr ⟨pdu, hpdu⟩)
        refine ih hround ?_ hloop
        show (s.reassembleRound rxSdu pdu).rxModBase s.vrH < fuel
        omega

/-! ### Data PDUs -/

/-- The update of `vr_h` for an SN inside the window puts `vr_h` above it. -/
theorem updateVrH_spec {s : AmRx} (h : Ordered s) {sn : Nat} (hsn : sn < amMod)
    (hin : s.rxModBase sn < amWindowSize) :
    (s.updateVrH sn).vrH < amMod ∧ s.rxModBase s.vrH ≤ s.rxModBase (s.updateVrH sn).vrH ∧
      s.rxModBase sn < s.rxModBase (s.updateVrH sn).vrH ∧
      s.rxModBase (s.updateVrH sn).vrH ≤ amWindowSize := by
  have hspan := h.span
  have hvrH : (s.updateVrH sn).vrH
      = if s.rxModBase sn ≥ s.rxModBase s.vrH then (sn + 1) % amMod else s.vrH := rfl
  rw [hvrH]
  split
  · have hnext : s.rxModBase ((sn + 1) % amMod) = s.rxModBase sn + 1 := by
      refine cycDist_succ h.vrR hsn ?_
      show s.rxModBase sn + 1 < amMod
      simp only [amMod, amWindowSize] at *
      omega
    exact ⟨succ_mod_lt hsn, by omega, by omega, by omega⟩
  · exact ⟨h.vrH, le_rfl, by omega, hspan⟩

theorem moving_storePdu {s : AmRx} (h : Settled s) {header : AmdHeader} (payload : Bytes)
    (hsn : header.sn < amMod) (hin : s.rxModBase header.sn < amWindowSize) :
    Moving (s.storePdu header payload) := by
  obtain ⟨hH, hHle, hsnH, hspan⟩ := updateVrH_spec h.toOrdered hsn hin
  have hle := h.le
  let t : AmRx :=
    ({ s with rxWindow := s.rxWindow.overwrite header.sn ⟨header, payload⟩ }).updateVrH header.sn
  have hordered : Ordered t := by
    refine ⟨h.vrR, hH, h.vrMr, hspan, ?_⟩
    intro k hk
    rcases (CircularMap.contains_overwrite _ _ _ _).mp hk with rfl | ⟨-, hold⟩
    · exact ⟨hsn, hsnH⟩
    · obtain ⟨hbound, hlt⟩ := h.inside k hold
      exact ⟨hbound, Nat.lt_of_lt_of_le hlt hHle⟩
  obtain ⟨hMs, hout, hge, hup⟩ := firstMissing_spec hordered amMod s.vrMs h.vrMs
    (Nat.le_trans hle hHle) (by
      show s.rxModBase (s.updateVrH header.sn).vrH < s.rxModBase s.vrMs + amMod
      simp only [amMod, amWindowSize] at *
      omega)
  refine ⟨⟨h.vrR, hH, h.vrMr, hspan, hordered.inside⟩, hMs, hup, hout, h.segments, ?_⟩
  intro hrun
  obtain ⟨hX, hXpos, hXle⟩ := h.above hrun
  refine ⟨hX, .inl ⟨Nat.le_trans hXle hHle, fun h0 => ?_⟩⟩
  have h0 : s.rxModBase s.vrX = 0 := h0
  omega

/-- While the timer still runs after the check of `vr_x`, `vr_x` lies between `vr_r` and
`vr_h`. -/
theorem stopReordering_running {s : AmRx} (h : Moving s)
    (hrun : s.stopReordering.reorderingTimer = .running) :
    s.reorderingTimer = .running ∧
      0 < s.rxModBase s.vrX ∧ s.rxModBase s.vrX ≤ s.rxModBase s.vrH := by
  have htimer : s.stopReordering.reorderingTimer
      = if s.reorderingTimer.isRunning ∧
          (s.vrX = s.vrR ∨ (s.insideRxWindow s.vrX = false ∧ s.vrX ≠ s.vrMr)) then .stopped
        else s.reorderingTimer := rfl
  rw [htimer] at hrun
  split at hrun
  · cases hrun
  · rename_i hstay
    obtain ⟨hX, hcases⟩ := h.timer hrun
    have hrunning : s.reorderingTimer.isRunning = true := by rw [hrun]; rfl
    have hne : s.vrX ≠ s.vrR := fun heq => hstay ⟨hrunning, .inl heq⟩
    have hpos : 0 < s.rxModBase s.vrX := by
      rw [Nat.pos_iff_ne_zero]
      exact fun h0 => hne ((cycDist_eq_zero_iff h.vrR hX).mp h0)
    rcases hcases with ⟨hle, -⟩ | hpassed
    · exact ⟨hrun, hpos, hle⟩
    · -- The timer would have stopped.
      refine absurd ⟨hrunning, .inr ⟨?_, ?_⟩⟩ hstay
      · rw [← Bool.not_eq_true, insideRxWindow_iff h.toOrdered]
        omega
      · intro heq
        rw [heq, rxModBase_vrMr h.toOrdered] at hpassed
        omega

/-- After a PDU was stored and reassembled, the timer stops if `vr_r` has reached `vr_x`, and
starts if PDUs are missing below `vr_h`. -/
theorem rxInv_updateReordering {s : AmRx} (h : Moving s)
    (hedge : s.rxWindow.contains s.vrR = false) :
    RxInv s.stopReordering.startReordering := by
  have hmoving : Moving s.stopReordering :=
    ⟨⟨h.vrR, h.vrH, h.vrMr, h.span, h.inside⟩, h.vrMs, h.le, h.status, h.segments,
      fun hrun => h.timer (stopReordering_running h hrun).1⟩
  unfold startReordering
  split
  · rename_i hstart
    have hpos : 0 < s.rxModBase s.vrH := by
      have := (Bool.and_eq_true_iff.mp hstart).2
      exact Nat.lt_of_le_of_lt (Nat.zero_le _) (of_decide_eq_true this)
    refine ⟨⟨⟨h.vrR, h.vrH, h.vrMr, h.span, h.inside⟩, h.vrMs, h.le, h.status, h.segments,
      fun _ => ⟨h.vrH, .inl ⟨le_rfl, fun h0 => ?_⟩⟩⟩, hedge, fun _ => ⟨hpos, le_rfl⟩⟩
    have h0 : s.rxModBase s.vrH = 0 := h0
    omega
  · exact ⟨hmoving, hedge, fun hrun => (stopReordering_running h hrun).2⟩

/-- The request of a status report does not concern the window. -/
theorem rxInv_requestStatus {s : AmRx} (h : RxInv s) (p : Bool) : RxInv (s.requestStatus p) :=
  ⟨⟨⟨h.vrR, h.vrH, h.vrMr, h.span, h.inside⟩, h.vrMs, h.le, h.status, h.segments, h.timer⟩,
    h.edge, h.above⟩

theorem acceptsPdu_inside {s : AmRx} (h : Ordered s) {header : AmdHeader} {payload : Bytes}
    (haccepts : s.acceptsPdu header payload = true) : s.rxModBase header.sn < amWindowSize := by
  rw [← insideRxWindow_iff h]
  simp only [acceptsPdu, Bool.and_eq_true] at haccepts
  exact haccepts.1.2

/-- A PDU that is stored is processed together with those that were left in the window. -/
theorem rxInv_stored {s t : AmRx} (h : Settled s) {header : AmdHeader} {payload : Bytes}
    (hsn : header.sn < amMod) (hin : s.rxModBase header.sn < amWindowSize)
    (hreassemble : (s.storePdu header payload).reassembleRxSdus = some t) :
    RxInv t.stopReordering.startReordering := by
  have hstored : Moving { s.storePdu header payload with
      rxSdu := some ((s.storePdu header payload).rxSdu.getD []) } := by
    have hm := moving_storePdu h payload hsn hin
    exact ⟨⟨hm.vrR, hm.vrH, hm.vrMr, hm.span, hm.inside⟩, hm.vrMs, hm.le, hm.status,
      hm.segments, hm.timer⟩
  obtain ⟨hmoving, hedge⟩ := moving_reassembleLoop amMod hstored
    (Nat.lt_of_le_of_lt hstored.span (by decide)) hreassemble
  exact rxInv_updateReordering hmoving hedge

theorem rxInv_handleDataPdu {s s' : AmRx} (h : RxInv s) {header : AmdHeader} {payload : Bytes}
    (hsn : header.sn < amMod) (hfits : payload.length ≤ bufferTailroom)
    (hpdu : s.handleDataPdu header payload = some s') : RxInv s' := by
  unfold handleDataPdu at hpdu
  split at hpdu
  · rename_i haccepts
    rw [if_neg (by omega), Option.map_eq_some_iff] at hpdu
    obtain ⟨t, hreassemble, rfl⟩ := hpdu
    exact rxInv_stored h.settled hsn (acceptsPdu_inside h.toOrdered haccepts) hreassemble
  · split at hpdu
    · cases hpdu
      exact rxInv_requestStatus h header.p
    · cases hpdu
      exact h

/-! ### PDU segments -/

theorem mem_insertSegment {segment g : AmdRxPdu} {segments : AmdRxPduSegments}
    (h : g ∈ insertSegment segment segments) : g = segment ∨ g ∈ segments := by
  induction segments with
  | nil => exact .inl (List.mem_singleton.mp h)
  | cons s segments ih =>
    unfold insertSegment at h
    split at h
    · rcases List.mem_cons.mp h with rfl | h
      · exact .inr List.mem_cons_self
      · rcases ih h with h | h
        · exact .inl h
        · exact .inr (List.mem_cons_of_mem _ h)
    · split at h
      · split at h
        · rcases List.mem_cons.mp h with h | h
          · exact .inl h
          · exact .inr (List.mem_cons_of_mem _ h)
        · exact .inr h
      · exact List.mem_cons.mp h

theorem mem_checkSegments {g : AmdRxPdu} {so : Nat} {segments : AmdRxPduSegments}
    (h : g ∈ (checkSegments so segments).1) : g ∈ segments := by
  induction segments generalizing so with
  | nil => exact h
  | cons s segments ih =>
    unfold checkSegments at h
    split at h
    · exact h
    · split at h
      · exact List.mem_cons_of_mem _ (ih h)
      · rcases List.mem_cons.mp h with rfl | h
        · exact List.mem_cons_self
        · exact List.mem_cons_of_mem _ (ih h)

/-- The rebuilt header has the SN of the first segment, and the payload fits a buffer. -/
theorem rebuildPdu_eq_some {segments : AmdRxPduSegments} {header : AmdHeader} {payload : Bytes}
    (h : rebuildPdu segments = some (header, payload)) :
    (∃ g ∈ segments, header.sn = g.header.sn) ∧ payload.length ≤ bufferTailroom := by
  unfold rebuildPdu at h
  split at h
  · rename_i first last hfirst hlast
    split at h
    · cases h
    · rename_i header' hheader
      simp only at h
      split at h
      · rename_i hfits
        cases h
        refine ⟨⟨first, List.mem_of_mem_head? hfirst, ?_⟩, hfits⟩
        unfold rebuildHeader at hheader
        obtain ⟨w, -, rfl⟩ := Option.map_eq_some_iff.mp hheader
        rfl
      · cases h
  · cases h

/-- What `add_segment_and_check` returns comes from the old segments and the new one. -/
theorem addSegmentAndCheck_mem {segments segments' : AmdRxPduSegments} {segment g : AmdRxPdu}
    (h : addSegmentAndCheck segments segment = some (.incomplete segments')) (hg : g ∈ segments') :
    g = segment ∨ g ∈ segments := by
  unfold addSegmentAndCheck at h
  have hmem : ∀ g ∈ (checkSegments 0 (insertSegment segment segments)).1,
      g = segment ∨ g ∈ segments := fun g hg => mem_insertSegment (mem_checkSegments hg)
  split at h
  · rename_i checked hcheck
    rw [hcheck] at hmem
    cases h
    exact hmem g hg
  · rename_i checked hcheck
    rw [hcheck] at hmem
    split at h
    · cases h
    · split at h
      · cases h
        exact hmem g hg
      · simp at h

theorem addSegmentAndCheck_complete {segments : AmdRxPduSegments} {segment : AmdRxPdu}
    {header : AmdHeader} {payload : Bytes}
    (h : addSegmentAndCheck segments segment = some (.complete header payload)) :
    (∃ g, (g = segment ∨ g ∈ segments) ∧ header.sn = g.header.sn) ∧
      payload.length ≤ bufferTailroom := by
  unfold addSegmentAndCheck at h
  have hmem : ∀ g ∈ (checkSegments 0 (insertSegment segment segments)).1,
      g = segment ∨ g ∈ segments := fun g hg => mem_insertSegment (mem_checkSegments hg)
  split at h
  · cases h
  · rename_i checked hcheck
    rw [hcheck] at hmem
    split at h
    · cases h
    · split at h
      · cases h
      · obtain ⟨⟨header', payload'⟩, hrebuild, hr⟩ := Option.map_eq_some_iff.mp h
        cases hr
        obtain ⟨⟨g, hg, hsn⟩, hfits⟩ := rebuildPdu_eq_some hrebuild
        exact ⟨⟨g, hmem g hg, hsn⟩, hfits⟩

theorem rxInv_setSegments {s : AmRx} (h : RxInv s) (rxSegments : OrdMap Nat AmdRxPduSegments)
    (hsegments : ∀ sn list, rxSegments.find? sn = some list → ∀ g ∈ list, g.header.sn < amMod) :
    RxInv { s with rxSegments := rxSegments } :=
  ⟨⟨⟨h.vrR, h.vrH, h.vrMr, h.span, h.inside⟩, h.vrMs, h.le, h.status, hsegments, h.timer⟩,
    h.edge, h.above⟩

theorem segments_insert {s : AmRx} (h : RxInv s) (sn : Nat) (list : AmdRxPduSegments)
    (hlist : ∀ g ∈ list, g.header.sn < amMod) (sn' : Nat) (list' : AmdRxPduSegments)
    (hfind : (s.rxSegments.insert sn list).find? sn' = some list') :
    ∀ g ∈ list', g.header.sn < amMod := by
  rw [OrdMap.find?_insert] at hfind
  split at hfind
  · cases hfind
    exact hlist
  · exact h.segments sn' list' hfind

theorem rxInv_newSegment {s : AmRx} (h : RxInv s) {segment : AmdRxPdu}
    (hsn : segment.header.sn < amMod) (hin : s.rxModBase segment.header.sn < amWindowSize) :
    RxInv (s.newSegment segment) := by
  obtain ⟨hH, hHle, hsnH, hspan⟩ := updateVrH_spec h.toOrdered hsn hin
  have hsegments := segments_insert h segment.header.sn [segment]
    fun g hg => by rwa [List.mem_singleton.mp hg]
  refine ⟨⟨⟨h.vrR, hH, h.vrMr, hspan, fun k hk => ?_⟩, h.vrMs, Nat.le_trans h.le hHle, h.status,
    hsegments, fun hrun => ?_⟩, h.edge, fun hrun => ?_⟩
  · obtain ⟨hbound, hlt⟩ := h.inside k hk
    exact ⟨hbound, Nat.lt_of_lt_of_le hlt hHle⟩
  · obtain ⟨hpos, hle⟩ := h.above hrun
    refine ⟨(h.timer hrun).1, .inl ⟨Nat.le_trans hle hHle, fun h0 => ?_⟩⟩
    have h0 : s.rxModBase s.vrX = 0 := h0
    omega
  · obtain ⟨hpos, hle⟩ := h.above hrun
    exact ⟨hpos, Nat.le_trans hle hHle⟩

theorem rxInv_handleDataPduSegment {s s' : AmRx} (h : RxInv s) {header : AmdHeader}
    {payload : Bytes} (hsn : header.sn < amMod)
    (hpdu : s.handleDataPduSegment header payload = some s') : RxInv s' := by
  unfold handleDataPduSegment at hpdu
  split at hpdu
  · cases hpdu
    exact rxInv_requestStatus h header.p
  · rename_i hinside
    have hin : s.rxModBase header.sn < amWindowSize := by
      rw [← insideRxWindow_iff h.toOrdered]
      simpa using hinside
    split at hpdu
    · cases hpdu
      exact h
    · split at hpdu
      · cases hpdu
        exact rxInv_newSegment h hsn hin
      · rename_i segments hfind
        have hold := h.segments header.sn segments hfind
        have hreq := rxInv_requestStatus h header.p
        unfold nextSegment at hpdu
        simp only at hpdu
        split at hpdu
        · cases hpdu
        · rename_i segments' hcheck
          cases hpdu
          refine rxInv_setSegments hreq _ (segments_insert hreq header.sn _ fun g hg => ?_)
          rcases addSegmentAndCheck_mem hcheck hg with rfl | hg
          · exact hsn
          · exact hold g hg
        · rename_i header' payload' hcheck
          obtain ⟨⟨g, hg, hg'⟩, hfits⟩ := addSegmentAndCheck_complete hcheck
          obtain ⟨t, hdata, rfl⟩ := Option.map_eq_some_iff.mp hpdu
          have hsn' : header'.sn < amMod := by
            rw [hg']
            rcases hg with rfl | hg
            · exact hsn
            · exact hold g hg
          have ht := rxInv_handleDataPdu hreq hsn' hfits hdata
          refine rxInv_setSegments ht _ fun sn list hfind => ?_
          rw [OrdMap.find?_erase] at hfind
          split at hfind
          · cases hfind
          · exact ht.segments sn list hfind

/-! ### Timer, report and runs -/

theorem rxInv_timerExpired {s : AmRx} (h : RxInv s) : RxInv s.timerExpired := by
  unfold timerExpired
  split
  · exact h
  · rename_i hrunning
    have hrun : s.reorderingTimer = .running := by
      simpa [TimerState.isRunning] using hrunning
    obtain ⟨hpos, hle⟩ := h.above hrun
    have hspan := h.span
    obtain ⟨hMs, hout, hge, hup⟩ := firstMissing_spec h.toOrdered amMod s.vrX (h.timer hrun).1 hle
      (by simp only [amMod, amWindowSize] at *; omega)
    simp only
    split
    · rename_i hmore
      have hH : 0 < s.rxModBase s.vrH := Nat.lt_of_le_of_lt (Nat.zero_le _) hmore
      refine ⟨⟨⟨h.vrR, h.vrH, h.vrMr, h.span, h.inside⟩, hMs, hup, hout, h.segments,
        fun _ => ⟨h.vrH, .inl ⟨le_rfl, fun h0 => ?_⟩⟩⟩, h.edge, fun _ => ⟨hH, le_rfl⟩⟩
      have h0 : s.rxModBase s.vrH = 0 := h0
      omega
    · exact ⟨⟨⟨h.vrR, h.vrH, h.vrMr, h.span, h.inside⟩, hMs, hup, hout, h.segments,
        fun hrun => by cases hrun⟩, h.edge, fun hrun => by cases hrun⟩

/-- The SN of a header has ten bits. -/
theorem sn_lt_of_readDataPduHeader {bytes payload : Bytes} {header : AmdHeader}
    (h : readDataPduHeader bytes = some (header, payload)) : header.sn < amMod := by
  unfold readDataPduHeader at h
  split at h
  · rename_i b₀ b₁ rest
    simp only at h
    split at h
    · cases h
    · split at h
      · cases h
      · cases h
        show b₀.toNat % 4 * 256 + b₁.toNat < amMod
        have hbyte : b₁.toNat < 256 := b₁.toNat_lt
        simp only [amMod]
        omega
  · cases h

/-- The payload of a received data PDU or PDU segment fits one buffer. -/
def PayloadFits (_ : AmRx) : Op → Prop
  | .writePdu bytes => ∀ r ∈ readDataPduHeader bytes, r.2.length ≤ bufferTailroom
  | _ => True

instance (s : AmRx) (op : Op) : Decidable (PayloadFits s op) :=
  match op with
  | .writePdu bytes =>
    inferInstanceAs (Decidable (∀ r ∈ readDataPduHeader bytes, r.2.length ≤ bufferTailroom))
  | .timerExpired | .getStatusPdu _ | .stop => isTrue trivial

theorem rxInv_step {s s' : AmRx} {op : Op} {report : Option StatusPdu} (h : RxInv s)
    (hfits : PayloadFits s op) (hstep : s.step op = some (s', report)) : RxInv s' := by
  cases op with
  | writePdu bytes =>
    obtain ⟨t, hwrite, ht⟩ := Option.map_eq_some_iff.mp hstep
    cases ht
    unfold writePdu at hwrite
    split at hwrite
    · cases hwrite
      exact h
    · rename_i header payload hread
      have hsn := sn_lt_of_readDataPduHeader hread
      split at hwrite
      · cases hwrite
      · split at hwrite
        · exact rxInv_handleDataPduSegment h hsn hwrite
        · exact rxInv_handleDataPdu h hsn (hfits _ hread) hwrite
  | timerExpired =>
    cases hstep
    exact rxInv_timerExpired h
  | getStatusPdu maxPduSize =>
    cases hstep
    unfold afterStatusPdu
    split
    · exact ⟨⟨⟨h.vrR, h.vrH, h.vrMr, h.span, h.inside⟩, h.vrMs, h.le, h.status, h.segments,
        h.timer⟩, h.edge, h.above⟩
    · exact h
  | stop =>
    cases hstep
    have hstopped : s.reorderingTimer.stop ≠ .running := by
      cases s.reorderingTimer <;> decide
    have hinit := rxInv_init
    exact ⟨⟨⟨hinit.vrR, hinit.vrH, hinit.vrMr, hinit.span, hinit.inside⟩, hinit.vrMs, hinit.le,
      hinit.status, hinit.segments, fun hrun => absurd hrun hstopped⟩, hinit.edge,
      fun hrun => absurd hrun hstopped⟩

/-- The invariant holds in every state that a run reaches. -/
theorem rxInv_of_run {ops : List Op} {s : AmRx} {reports : List (Option StatusPdu)}
    (hfits : StepsWithin step PayloadFits init ops) (hrun : run step init ops = some (s, reports)) :
    RxInv s :=
  run_invariant_of_within RxInv (fun _ _ _ _ hs hop hstep => rxInv_step hs hop hstep) ops init s
    reports rxInv_init hfits hrun

end Odss.Rlc.AmRx
