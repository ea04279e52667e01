import Odss.Proofs.AmDataPdu
import Odss.Proofs.AmRxStatus

/-!
# `Odss.Proofs.AmBufferState`: the buffer state that RLC AM reports, and what it sends

* `reportExact_of_not_wraps`: a grant of `get_status_pdu_length` bytes gets a status PDU of that many
  bytes.
* `allSent_iff`: when a grant of the reported new data bytes sends all SDUs in one PDU.
* `bufferState_sent` puts both together, over runs.
-/

set_option linter.all false

namespace Odss.Rlc

open Odss.Lib

/-! ### The length of the status PDU -/

namespace AmRx

/-- The status PDU for every grant of at least `get_status_pdu_length` bytes has that many bytes, packed
and written. -/
def ReportExact (s : AmRx) : Prop :=
  ∀ grant, s.getStatusPduLength ≤ grant → ∃ status, s.getStatusPdu grant = some status ∧
    status.packedLength = s.getStatusPduLength ∧
    (writeStatusPdu status).length = s.getStatusPduLength

/-- `vr_ms` is the SN in front of `vr_r`, and fewer SNs than the list of NACKs holds are missing. The loop
of `get_status_pdu` then comes back to `vr_r`. -/
def Wraps (s : AmRx) : Prop :=
  s.rxModBase s.vrMs + 1 = amMod ∧ s.nackCount amMod s.vrR 0 < amWindowSize

theorem le_nackCount (s : AmRx) (fuel i n : Nat) : n ≤ s.nackCount fuel i n := by
  induction fuel generalizing i n with
  | zero => exact Nat.le_refl n
  | succ fuel ih =>
    rw [nackCount]
    split
    · split
      · exact ih _ _
      · exact Nat.le_trans (Nat.le_succ n) (ih _ _)
    · exact Nat.le_refl n

/-- A report with no more NACKs than the one that was measured fits the grant. -/
theorem fits_of_nacks {status : StatusPdu} (hnoSo : ∀ nack ∈ status.nacks, nack.hasSo = false)
    {c grant : Nat} (hle : status.nacks.length ≤ c) (hgrant : (22 + 12 * c) / 8 ≤ grant) :
    ¬ status.packedLength > grant := by
  rw [packedLength_of_noSo hnoSo]
  omega

theorem statusLoop_nackCount {s : AmRx} (hR : s.vrR < amMod) (hMs : s.vrMs < amMod) {grant c : Nat}
    (hgrant : (22 + 12 * c) / 8 ≤ grant) (hstop : c < amWindowSize → s.rxModBase s.vrMs + 1 < amMod)
    (fuel : Nat) {i : Nat} {status : StatusPdu} (hi : i < amMod)
    (hnoSo : ∀ nack ∈ status.nacks, nack.hasSo = false)
    (hle : s.rxModBase i ≤ s.rxModBase s.vrMs) (hfuel : s.rxModBase s.vrMs < s.rxModBase i + fuel)
    (hcount : s.nackCount fuel i status.nacks.length = c) :
    ∃ status', statusLoop s grant fuel i status = some status' ∧ status'.nacks.length = c ∧
      ∀ nack ∈ status'.nacks, nack.hasSo = false := by
  induction fuel generalizing i status with
  | zero => omega
  | succ fuel ih =>
    have hroom := le_nackCount s (fuel + 1) i status.nacks.length
    rw [nackCount] at hcount
    unfold statusLoop
    by_cases hfull : status.nacks.length < amWindowSize
    · rw [if_pos ⟨hle, hfull⟩]
      rcases Nat.lt_or_eq_of_le hle with hlt | heq
      · have hMslt : s.rxModBase s.vrMs < amMod := Nat.mod_lt _ (by decide)
        have hsucc : s.rxModBase ((i + 1) % amMod) = s.rxModBase i + 1 :=
          cycDist_succ hR hi (by show s.rxModBase i + 1 < amMod; omega)
        have hne : (i == s.vrMs) = false := by
          rw [beq_eq_false_iff_ne]
          rintro rfl
          exact Nat.lt_irrefl _ hlt
        rw [if_pos ⟨hlt, hfull⟩] at hcount
        by_cases hin : s.rxWindow.contains i = true
        · have hadd : s.addSn status i = { status with ackSn := i } :=
            addSn_of_received (by rw [hin, Bool.true_or]) status
          rw [if_pos hin] at hcount
          have hle' := le_nackCount s fuel ((i + 1) % amMod) status.nacks.length
          have hfits : ¬ (StatusPdu.mk i status.nacks).packedLength > grant :=
            fits_of_nacks hnoSo (by show status.nacks.length ≤ c; omega) hgrant
          rw [hadd, if_neg hfits]
          exact ih (succ_mod_lt hi) hnoSo (by omega) (by omega) hcount
        · have hadd : s.addSn status i = { status with nacks := status.nacks ++ [⟨i, false, 0, 0⟩] } :=
            addSn_of_missing (by rw [hne, Bool.or_false]; exact hin) status
          have hnoSo' : ∀ nack ∈ status.nacks ++ [StatusNack.mk i false 0 0], nack.hasSo = false := by
            intro nack hnack
            rcases List.mem_append.mp hnack with hold | hnew
            · exact hnoSo nack hold
            · rw [List.mem_singleton.mp hnew]
          have hlen : (status.nacks ++ [StatusNack.mk i false 0 0]).length = status.nacks.length + 1 :=
            List.length_append
          rw [if_neg hin] at hcount
          have hle' := le_nackCount s fuel ((i + 1) % amMod) (status.nacks.length + 1)
          have hfits : ¬ (StatusPdu.mk status.ackSn
              (status.nacks ++ [StatusNack.mk i false 0 0])).packedLength > grant :=
            fits_of_nacks hnoSo' (by rw [hlen]; omega) hgrant
          rw [hadd, if_neg hfits]
          exact ih (succ_mod_lt hi) hnoSo' (by omega) (by omega) (by rw [hlen]; exact hcount)
      · have heq : i = s.vrMs := cycDist_inj hR hi hMs heq
        subst heq
        rw [if_neg fun h => Nat.lt_irrefl _ h.1] at hcount
        have hone := hstop (by omega)
        have hsucc : s.rxModBase ((s.vrMs + 1) % amMod) = s.rxModBase s.vrMs + 1 :=
          cycDist_succ hR hi hone
        have hadd : s.addSn status s.vrMs = { status with ackSn := s.vrMs } :=
          addSn_of_received (by rw [beq_self_eq_true, Bool.or_true]) status
        have hfits : ¬ (StatusPdu.mk s.vrMs status.nacks).packedLength > grant :=
          fits_of_nacks hnoSo (by show status.nacks.length ≤ c; omega) hgrant
        rw [hadd, if_neg hfits, statusLoop_past _ _ _ (by omega)]
        exact ⟨_, rfl, hcount, hnoSo⟩
    · rw [if_neg fun h => hfull h.2]
      rw [if_neg fun h => hfull h.2] at hcount
      exact ⟨status, rfl, hcount, hnoSo⟩

theorem getStatusPduLength_eq (s : AmRx) :
    s.getStatusPduLength = (22 + 12 * s.nackCount amMod s.vrR 0) / 8 := by
  rw [getStatusPduLength, packedLength_of_noSo fun nack hnack => by rw [List.eq_of_mem_replicate hnack]]
  rw [List.length_replicate]

/-- The state variables are SNs. -/
structure VarsBelow (s : AmRx) : Prop where
  vrR : s.vrR < amMod
  vrMs : s.vrMs < amMod
  vrH : s.vrH < amMod
  vrX : s.vrX < amMod

theorem varsBelow_init : VarsBelow init :=
  ⟨by decide, by decide, by decide, by decide⟩

theorem firstMissing_lt (window : CircularMap amWindowSize AmdRxPdu) (fuel : Nat) {sn : Nat}
    (hsn : sn < amMod) : firstMissing window fuel sn < amMod := by
  induction fuel generalizing sn with
  | zero => exact hsn
  | succ fuel ih =>
    rw [firstMissing]
    split
    · exact ih (succ_mod_lt hsn)
    · exact hsn

theorem VarsBelow.updateVrH {s : AmRx} (h : VarsBelow s) (sn : Nat) : VarsBelow (s.updateVrH sn) := by
  refine ⟨h.vrR, h.vrMs, ?_, h.vrX⟩
  show (if s.rxModBase sn ≥ s.rxModBase s.vrH then (sn + 1) % amMod else s.vrH) < amMod
  split
  · exact Nat.mod_lt _ (by decide)
  · exact h.vrH

theorem VarsBelow.reassembleLoop {s t : AmRx} (fuel : Nat) (h : VarsBelow s)
    (hloop : reassembleLoop fuel s = some t) : VarsBelow t := by
  induction fuel generalizing s with
  | zero =>
    cases hloop
    exact h
  | succ fuel ih =>
    unfold AmRx.reassembleLoop at hloop
    split at hloop
    · cases hloop
      exact h
    · split at hloop
      · cases hloop
      · refine ih ?_ hloop
        exact ⟨succ_mod_lt h.vrR, h.vrMs, h.vrH, h.vrX⟩

theorem VarsBelow.handleDataPdu {s t : AmRx} (h : VarsBelow s) {header : AmdHeader} {payload : Bytes}
    (hpdu : s.handleDataPdu header payload = some t) : VarsBelow t := by
  unfold AmRx.handleDataPdu at hpdu
  split at hpdu
  · split at hpdu
    · cases hpdu
      exact ⟨h.vrR, h.vrMs, h.vrH, h.vrX⟩
    · obtain ⟨t', hloop, rfl⟩ := Option.map_eq_some_iff.mp hpdu
      have hwindow : VarsBelow { s with rxWindow := s.rxWindow.overwrite header.sn ⟨header, payload⟩ } :=
        ⟨h.vrR, h.vrMs, h.vrH, h.vrX⟩
      have hraised := hwindow.updateVrH header.sn
      have hstored : VarsBelow (s.storePdu header payload) :=
        ⟨hraised.vrR, firstMissing_lt _ _ hraised.vrMs, hraised.vrH, hraised.vrX⟩
      have ht' : VarsBelow t' := VarsBelow.reassembleLoop amMod
        (s := { s.storePdu header payload with rxSdu := some ((s.storePdu header payload).rxSdu.getD []) })
        ⟨hstored.vrR, hstored.vrMs, hstored.vrH, hstored.vrX⟩ hloop
      unfold startReordering
      split
      · exact ⟨ht'.vrR, ht'.vrMs, ht'.vrH, ht'.vrH⟩
      · exact ⟨ht'.vrR, ht'.vrMs, ht'.vrH, ht'.vrX⟩
  · split at hpdu
    · cases hpdu
      exact ⟨h.vrR, h.vrMs, h.vrH, h.vrX⟩
    · cases hpdu
      exact h

theorem VarsBelow.handleDataPduSegment {s t : AmRx} (h : VarsBelow s) {header : AmdHeader}
    {payload : Bytes} (hpdu : s.handleDataPduSegment header payload = some t) : VarsBelow t := by
  unfold AmRx.handleDataPduSegment at hpdu
  split at hpdu
  · cases hpdu
    exact ⟨h.vrR, h.vrMs, h.vrH, h.vrX⟩
  · split at hpdu
    · cases hpdu
      exact h
    · split at hpdu
      · cases hpdu
        have hset : VarsBelow { s with rxSegments := s.rxSegments.insert header.sn [⟨header, payload⟩] } :=
          ⟨h.vrR, h.vrMs, h.vrH, h.vrX⟩
        have hraised := hset.updateVrH header.sn
        exact ⟨hraised.vrR, hraised.vrMs, hraised.vrH, hraised.vrX⟩
      · have hreq : VarsBelow (s.requestStatus header.p) := ⟨h.vrR, h.vrMs, h.vrH, h.vrX⟩
        unfold nextSegment at hpdu
        simp only at hpdu
        split at hpdu
        · cases hpdu
        · cases hpdu
          exact ⟨hreq.vrR, hreq.vrMs, hreq.vrH, hreq.vrX⟩
        · obtain ⟨t', ht', rfl⟩ := Option.map_eq_some_iff.mp hpdu
          have hdata := hreq.handleDataPdu ht'
          exact ⟨hdata.vrR, hdata.vrMs, hdata.vrH, hdata.vrX⟩

theorem VarsBelow.step {s t : AmRx} {op : Op} {report : Option StatusPdu} (h : VarsBelow s)
    (hstep : s.step op = some (t, report)) : VarsBelow t := by
  cases op with
  | writePdu bytes =>
    obtain ⟨t', hwrite, ht⟩ := Option.map_eq_some_iff.mp hstep
    cases ht
    unfold writePdu at hwrite
    split at hwrite
    · cases hwrite
      exact h
    · split at hwrite
      · cases hwrite
      · split at hwrite
        · exact h.handleDataPduSegment hwrite
        · exact h.handleDataPdu hwrite
  | timerExpired =>
    cases hstep
    unfold timerExpired
    split
    · exact h
    · have hms := firstMissing_lt s.rxWindow amMod h.vrX
      simp only
      split
      · exact ⟨h.vrR, hms, h.vrH, h.vrH⟩
      · exact ⟨h.vrR, hms, h.vrH, h.vrX⟩
  | getStatusPdu maxPduSize =>
    cases hstep
    unfold afterStatusPdu
    split
    · exact ⟨h.vrR, h.vrMs, h.vrH, h.vrX⟩
    · exact h
  | stop =>
    cases hstep
    exact ⟨varsBelow_init.vrR, varsBelow_init.vrMs, varsBelow_init.vrH, varsBelow_init.vrX⟩

theorem varsBelow_of_run {ops : List Op} {s : AmRx} {reports : List (Option StatusPdu)}
    (hrun : run step init ops = some (s, reports)) : VarsBelow s :=
  run_invariant VarsBelow (fun _ _ _ _ hs hstep => hs.step hstep) ops init s reports
    varsBelow_init hrun

/-- When the payloads fit a buffer, `vr_ms` stays in the window. -/
theorem not_wraps_of_rxInv {s : AmRx} (h : RxInv s) : ¬ s.Wraps := by
  rintro ⟨hlast, -⟩
  have hspan := h.span
  have hle := h.le
  simp only [amMod, amWindowSize] at *
  omega

theorem reportExact_of_not_wraps {s : AmRx} (hR : s.vrR < amMod) (hMs : s.vrMs < amMod)
    (hwraps : ¬ s.Wraps) : s.ReportExact := by
  intro grant hgrant
  have hMslt : s.rxModBase s.vrMs < amMod := Nat.mod_lt _ (by decide)
  rw [getStatusPduLength_eq] at hgrant ⊢
  obtain ⟨status, hreport, hcount, hnoSo⟩ := statusLoop_nackCount hR hMs hgrant
    (fun hlt => by
      by_contra hge
      exact hwraps ⟨by omega, hlt⟩) amMod
    hR (fun nack (hn : nack ∈ (StatusPdu.mk s.vrR []).nacks) => absurd hn List.not_mem_nil)
    (by rw [rxModBase_vrR]; exact Nat.zero_le _) (by rw [rxModBase_vrR]; omega) rfl
  refine ⟨status, hreport, ?_, ?_⟩
  · rw [packedLength_of_noSo hnoSo, hcount]
  · rw [(writeStatusPdu_spec status).1, packedLength_of_noSo hnoSo, hcount]

end AmRx

/-! ### The counter of bytes in the queue -/

namespace ByteBufferQueue

open AmTx (sizes)

/-- The counter of bytes is right. -/
def Measured (q : ByteBufferQueue) : Prop := q.unreadBytes = (sizes q.sdus).sum

/-- A property of the queue that all its operations keep. -/
structure Stable (P : ByteBufferQueue → Prop) : Prop where
  write : ∀ q sdu q', P q → q.tryWrite sdu = some q' → P q'
  discard : ∀ q pdcpSn, P q → P (q.discard pdcpSn)
  read : ∀ q, P q → P q.readSdu.2
  empty : ∀ q, P q → P { q.queue.foldl popCallback q with queue := [] }

theorem unreadBytes_popCallback (q : ByteBufferQueue) (entry : Option Sdu) :
    (popCallback q entry).unreadBytes = q.unreadBytes - (sizes [entry].reduceOption).sum := by
  cases entry with
  | none => rfl
  | some sdu =>
    show q.unreadBytes - min sdu.bytes.length q.unreadBytes = q.unreadBytes - (sdu.bytes.length + 0)
    omega

theorem sizes_reduceOption_cons (entry : Option Sdu) (entries : List (Option Sdu)) :
    (sizes (entry :: entries).reduceOption).sum =
      (sizes [entry].reduceOption).sum + (sizes entries.reduceOption).sum := by
  cases entry with
  | none => exact (Nat.zero_add _).symm
  | some sdu => rfl

theorem unreadBytes_foldl_popCallback (entries : List (Option Sdu)) (q : ByteBufferQueue) :
    (entries.foldl popCallback q).unreadBytes =
      q.unreadBytes - (sizes entries.reduceOption).sum := by
  induction entries generalizing q with
  | nil => rfl
  | cons entry entries ih =>
    rw [List.foldl_cons, ih, unreadBytes_popCallback, sizes_reduceOption_cons entry entries,
      Nat.sub_sub]

/-- The bytes of the SDUs that a filter hits, and of those that are left. -/
theorem sizes_hit (hit : Option Sdu → Bool) (queue : List (Option Sdu)) :
    (sizes (queue.map fun entry => if hit entry then none else entry).reduceOption).sum +
      (sizes (queue.filter hit).reduceOption).sum = (sizes queue.reduceOption).sum := by
  induction queue with
  | nil => rfl
  | cons entry rest ih =>
    rw [List.map_cons, sizes_reduceOption_cons, sizes_reduceOption_cons entry rest]
    cases hentry : hit entry with
    | true =>
      rw [if_pos rfl, List.filter_cons_of_pos hentry, sizes_reduceOption_cons entry]
      have hzero : (sizes [(none : Option Sdu)].reduceOption).sum = 0 := rfl
      omega
    | false =>
      rw [if_neg Bool.false_ne_true, List.filter_cons_of_neg (by rw [hentry]; exact Bool.false_ne_true)]
      omega

theorem stable_measured : Stable Measured where
  write q sdu q' h hwrite := by
    unfold tryWrite at hwrite
    split at hwrite
    · cases hwrite
    · cases hwrite
      show q.unreadBytes + sdu.bytes.length = (sizes (q.queue ++ [some sdu]).reduceOption).sum
      rw [List.reduceOption_append, sizes, List.map_append, List.sum_append, h]
      rfl
  discard q pdcpSn h := by
    unfold discard
    split
    · exact h
    · show (List.foldl popCallback q _).unreadBytes = (sizes (List.map _ q.queue).reduceOption).sum
      rw [unreadBytes_foldl_popCallback, h, sdus,
        ← sizes_hit (fun entry => entry.any fun sdu => sdu.pdcpSn == pdcpSn) q.queue]
      exact Nat.add_sub_cancel _ _
  read q h := by
    have hentries : ∀ queue : List (Option Sdu), (sizes queue.reduceOption).sum =
        (sizes (queue.dropWhile Option.isNone).reduceOption).sum := by
      intro queue
      induction queue with
      | nil => rfl
      | cons entry rest ih =>
        cases entry with
        | none => exact ih
        | some sdu => rfl
    rw [Measured, sdus, hentries] at h
    unfold readSdu
    split
    · rename_i hnil
      rw [hnil] at h
      exact h
    · rename_i entry rest hcons
      rw [hcons, sizes_reduceOption_cons] at h
      have hrest : (popCallback { q with queue := rest } entry).sdus = rest.reduceOption := by
        cases entry <;> rfl
      rw [Measured, unreadBytes_popCallback, hrest, h]
      exact Nat.add_sub_cancel_left _ _
  empty q h := by
    show (List.foldl popCallback q q.queue).unreadBytes = 0
    rw [unreadBytes_foldl_popCallback, h]
    exact Nat.sub_self _

end ByteBufferQueue

namespace AmTx

open ByteBufferQueue (Stable)

theorem stable_pullSdus {P : ByteBufferQueue → Prop} (hP : Stable P) (fuel : Nat) {b b' : DataBuild}
    (h : P b.tx.txSduQueue)
    (hend : pullSdus fuel b = .again b' ∨ pullSdus fuel b = .done b' ∨ pullSdus fuel b = .noSegments b') :
    P b'.tx.txSduQueue := by
  have hround : ∀ {b b' : DataBuild}, P b.tx.txSduQueue →
      (pullRound b = .again b' ∨ pullRound b = .done b' ∨ pullRound b = .noSegments b') →
      P b'.tx.txSduQueue := by
    intro b b' h hend
    have hnext : ∀ r, pullNext (pushLastLi b) = r →
        (r = .again b' ∨ r = .done b' ∨ r = .noSegments b') → P b'.tx.txSduQueue := by
      rintro r rfl hr
      have hread := hP.read _ h
      unfold pullNext at hr
      split at hr
      · rcases hr with hr | hr | hr <;> cases hr
        exact h
      · split at hr
        · rename_i q hq
          rw [show (pushLastLi b).tx = b.tx from rfl] at hq
          rw [hq] at hread
          rcases hr with hr | hr | hr <;> cases hr
          exact hread
        · rename_i sdu q hq
          rw [show (pushLastLi b).tx = b.tx from rfl] at hq
          rw [hq] at hread
          rcases hr with hr | hr | hr <;> cases hr
          exact hread
    unfold pullRound at hend
    split at hend
    · split at hend
      · exact hnext _ rfl hend
      · split at hend
        · rcases hend with hr | hr | hr <;> cases hr
          exact h
        · rcases hend with hr | hr | hr <;> cases hr
          exact h
    · rcases hend with hr | hr | hr <;> cases hr
      exact h
  induction fuel generalizing b with
  | zero =>
    rcases hend with hr | hr | hr <;> cases hr
    exact h
  | succ fuel ih =>
    rw [pullSdus] at hend
    split at hend
    · rename_i b₁ hagain
      exact ih (hround h (.inl hagain)) hend
    · exact hround h hend

variable {s : AmTx}

theorem stable_buildDataPdu {P : ByteBufferQueue → Prop} (hP : Stable P) (h : P s.txSduQueue)
    (nofBytes : Nat) : P (s.buildDataPdu nofBytes).1.txSduQueue := by
  unfold buildDataPdu
  split
  · have hstart : P (s.startDataPdu nofBytes).tx.txSduQueue := by
      unfold startDataPdu
      cases s.txSdu with
      | none => exact h
      | some sdu => exact h
    have hfinish : ∀ b, P b.tx.txSduQueue → P (finishDataPdu s.txSdu.isSome b).1.txSduQueue := by
      intro b hb
      show P (b.tx.afterPoll _).txSduQueue
      rw [txSduQueue_afterPoll]
      exact hb
    split
    · rename_i b hend
      exact hfinish b (stable_pullSdus hP _ hstart (.inl hend))
    · rename_i b hend
      exact hfinish b (stable_pullSdus hP _ hstart (.inr (.inl hend)))
    · rename_i b hend
      exact stable_pullSdus hP _ hstart (.inr (.inr hend))
  · exact h

theorem txSduQueue_handleControlPdu (s : AmTx) (status : StatusPdu) :
    (s.handleControlPdu status).txSduQueue = s.txSduQueue := by
  have hloop : ∀ (fuel : Nat) (t : AmTx) (i : Nat) (updateVtA : Bool),
      (ackLoop status s.vtS fuel t i updateVtA).txSduQueue = t.txSduQueue := by
    intro fuel
    induction fuel with
    | zero => exact fun t i updateVtA => rfl
    | succ fuel ih =>
      intro t i updateVtA
      rw [ackLoop]
      split
      · split
        · rw [ih, txSduQueue_handleNacks]
        · rw [ih, txSduQueue_handleAck]
      · rfl
  unfold handleControlPdu
  split
  · show (ackLoop status s.vtS amMod (s.startStatus status) s.vtA true).txSduQueue = _
    rw [hloop]
    rfl
  · rfl

theorem stable_step {P : ByteBufferQueue → Prop} (hP : Stable P) (h : P s.txSduQueue) (op : Op) :
    P (s.step op).1.txSduQueue := by
  have hempty : P s.emptyQueue.txSduQueue := hP.empty _ h
  cases op with
  | writeSdu sdu =>
    simp only [step, writeSdu]
    split
    · exact h
    · split
      · exact h
      · rename_i q hq
        exact hP.write _ _ _ h hq
  | readPdu nofBytes rx =>
    have hretx : P (s.readRetxPdu nofBytes).1.txSduQueue := by
      rw [txSduQueue_readRetxPdu]
      exact h
    simp only [step, readPdu]
    split
    · exact h
    · split
      · unfold buildStatusPdu
        split
        · exact h
        · split
          · exact h
          · exact h
      · split
        · exact stable_buildDataPdu hP hretx nofBytes
        · exact hretx
  | handleControlPdu status =>
    show P (s.handleControlPdu status).txSduQueue
    rw [txSduQueue_handleControlPdu]
    exact h
  | pollRetxExpired =>
    simp only [step, AmTx.pollRetxExpired]
    split
    · exact h
    · split
      · rw [txSduQueue_retransmitPdu]
        exact h
      · exact h
  | statusProhibitExpired =>
    simp only [step, AmTx.statusProhibitExpired]
    split
    · exact h
    · exact h
  | discardSdu discardSn =>
    simp only [step, discardSdu]
    split
    · exact h
    · exact hP.discard _ _ h
  | emptyQueue => exact hempty
  | stop => exact hempty
  | reestablish => exact hempty

theorem measured_execOps (cfg : AmConfig) (ops : List Op) :
    ((init cfg).execOps ops).txSduQueue.Measured :=
  exec_invariant (fun s : AmTx => s.txSduQueue.Measured)
    (fun _ op h => stable_step ByteBufferQueue.stable_measured h op) ops _ rfl

/-! ### The SDUs of a PDU that ends the queue -/

/-- The SDUs go into the PDU as its last ones. The last piece has no length indicator. -/
structure PduRoom.Ends (r : PduRoom) (sdus : List Sdu) : Prop where
  space : (sizes sdus).sum + dataHeadLen (r.nofLi + nofLis (r.lastLi :: sizes sdus).dropLast) ≤ r.space
  segments : ∀ k < sdus.length, (infoAfter r.rlcSn r.info (sdus.take k)).pool.hasSegments = true

theorem PduRoom.ends_nil {r : PduRoom} : r.Ends [] ↔ dataHeadLen r.nofLi ≤ r.space := by
  have hspace : (sizes []).sum + dataHeadLen (r.nofLi + nofLis (r.lastLi :: sizes []).dropLast) =
      dataHeadLen r.nofLi := Nat.zero_add _
  constructor
  · intro h
    rw [← hspace]
    exact h.space
  · intro h
    exact ⟨by rw [hspace]; exact h, fun k hk => absurd hk (Nat.not_lt_zero k)⟩

theorem PduRoom.ends_cons {r : PduRoom} {sdu : Sdu} (hpos : 0 < sdu.bytes.length)
    (hlis : r.nofLi < maxSdusPerPdu) (sdus : List Sdu) :
    r.Ends (sdu :: sdus) ↔ r.Takes [] ∧
      sdu.bytes.length ≤ r.space - dataHeadLen (r.nofLi + nofLis [r.lastLi]) ∧
      (r.put sdu.bytes.length
        (addSegment (noteSdu r.info sdu.pdcpSn) r.rlcSn sdu.pdcpSn true).1).Ends sdus := by
  have hdrop : (r.lastLi :: sizes (sdu :: sdus)).dropLast =
      r.lastLi :: (sdu.bytes.length :: sizes sdus).dropLast := rfl
  have hsum : (sizes (sdu :: sdus)).sum = sdu.bytes.length + (sizes sdus).sum := List.sum_cons
  have hcount := nofLis_cons r.lastLi (sdu.bytes.length :: sizes sdus).dropLast
  have hmono : dataHeadLen (r.nofLi + nofLis [r.lastLi]) ≤ dataHeadLen
      (r.nofLi + (nofLis [r.lastLi] + nofLis (sdu.bytes.length :: sizes sdus).dropLast)) :=
    dataHeadLen_mono (by omega)
  have hput : (sizes sdus).sum + dataHeadLen (r.nofLi + nofLis [r.lastLi] +
      nofLis (sdu.bytes.length :: sizes sdus).dropLast) ≤ r.space - sdu.bytes.length ↔
      (sizes sdus).sum + dataHeadLen (r.nofLi + (nofLis [r.lastLi] +
        nofLis (sdu.bytes.length :: sizes sdus).dropLast)) ≤ r.space - sdu.bytes.length := by
    rw [Nat.add_assoc r.nofLi]
  constructor
  · rintro ⟨hspace, hsegments⟩
    rw [hdrop, hsum, hcount] at hspace
    refine ⟨⟨?_, hlis, fun k hk => ?_⟩, by omega, ⟨hput.mpr (by omega), fun k hk => ?_⟩⟩
    · show 0 + dataHeadLen (r.nofLi + nofLis [r.lastLi]) < r.space
      omega
    · rw [List.take_nil]
      exact hsegments 0 (Nat.zero_lt_succ _)
    · exact hsegments (k + 1) (Nat.succ_lt_succ hk)
  · rintro ⟨htakes, hfits, hspace, hsegments⟩
    have hspace := hput.mp hspace
    have hfirst : 0 + dataHeadLen (r.nofLi + nofLis [r.lastLi]) < r.space := htakes.space
    refine ⟨?_, fun k hk => ?_⟩
    · rw [hdrop, hsum, hcount]
      omega
    · cases k with
      | zero => exact htakes.segments 0 (Nat.le_refl 0)
      | succ k => exact hsegments k (Nat.lt_of_succ_lt_succ hk)

theorem room_pullSdu (b : DataBuild) (sdu : Sdu) (q : ByteBufferQueue) :
    (pullSdu (pushLastLi b) sdu q).room =
      ⟨b.pdu.rlcSn, b.li.length + nofLis [b.lastLi], toMove (pushLastLi b) sdu,
        b.pduSpace - toMove (pushLastLi b) sdu,
        (addSegment (noteSdu b.tx.sduInfo sdu.pdcpSn) b.pdu.rlcSn sdu.pdcpSn
          (restOf sdu (toMove (pushLastLi b) sdu)).isNone).1⟩ := by
  rw [← length_li_pushLastLi]
  rfl

/-- All the SDUs are in the PDU. -/
structure Ended (b b' : DataBuild) (sdus : List Sdu) : Prop where
  txSdu : b'.tx.txSdu = none
  queue : b'.tx.txSduQueue.sdus = []
  header : b'.pdu.header = b.pdu.header
  buf : b'.pdu.buf = b.pdu.buf ++ sdus.flatMap (·.bytes)
  li : b'.li = b.li ++ (b.lastLi :: sizes sdus).dropLast.filter fun len => decide (0 < len)

/-- Without space behind the header, the SDU in transmission stays. -/
theorem txSdu_pullSdus_full {b b' : DataBuild} (h : BuildInv b)
    (hfull : b.pduSpace ≤ dataHeadLen b.li.length) (fuel : Nat)
    (hend : pullSdus fuel b = .done b') : b'.tx.txSdu = b.tx.txSdu := by
  cases fuel with
  | zero =>
    cases hend
    rfl
  | succ fuel =>
    rw [pullSdus] at hend
    obtain ⟨-, ⟨b₁, hdone, -, -, htx⟩ | hnone⟩ | ⟨sdu, sdus, q, -, hroom, -⟩ := pullRound_spec h
    · rw [hdone] at hend
      cases hend
      rw [htx]
    · rw [hnone] at hend
      cases hend
    · have hspace : 0 + dataHeadLen (b.li.length + nofLis [b.lastLi]) < b.pduSpace := hroom.space
      have hmono := dataHeadLen_mono (Nat.le_add_right b.li.length (nofLis [b.lastLi]))
      omega

theorem pullSdus_nil {b : DataBuild} (h : BuildInv b) (hsdus : b.tx.txSduQueue.sdus = [])
    (fuel : Nat) : pullSdus fuel b = .done b := by
  cases fuel with
  | zero => rfl
  | succ fuel =>
    have hcount : b.tx.txSduQueue.nSdus = 0 := by
      rw [show b.tx.txSduQueue.nSdus = _ from h.counts, hsdus]
      rfl
    rw [pullSdus, pullRound, if_neg (by omega)]

/-- The loop puts all the SDUs into the PDU exactly when they end it. -/
theorem pullSdus_ends {fuel : Nat} {b : DataBuild} {sdus : List Sdu} (h : BuildInv b)
    (hfuel : b.tx.txSduQueue.queue.length ≤ fuel) (hnone : b.tx.txSdu = none)
    (hsdus : b.tx.txSduQueue.sdus = sdus) (hpos : ∀ sdu ∈ sdus, 0 < sdu.bytes.length)
    (hlis : b.li.length + sdus.length ≤ maxSdusPerPdu) (hspace : dataHeadLen b.li.length ≤ b.pduSpace) :
    (b.room.Ends sdus → ∃ b', pullSdus fuel b = .done b' ∧ Ended b b' sdus) ∧
      (∀ b', pullSdus fuel b = .done b' → b'.tx.txSdu = none → b'.tx.txSduQueue.sdus = [] →
        b.room.Ends sdus) := by
  induction fuel generalizing b sdus with
  | zero =>
    have hnil : sdus = [] := by
      rw [← hsdus, ByteBufferQueue.sdus, List.eq_nil_of_length_eq_zero (Nat.le_zero.mp hfuel)]
      rfl
    subst hnil
    exact ⟨fun _ => ⟨b, rfl, hnone, hsdus, rfl, (List.append_nil _).symm, (List.append_nil _).symm⟩,
      fun _ _ _ _ => PduRoom.ends_nil.mpr hspace⟩
  | succ fuel ih =>
    cases sdus with
    | nil =>
      exact ⟨fun _ => ⟨b, pullSdus_nil h hsdus _, hnone, hsdus, rfl, (List.append_nil _).symm,
        (List.append_nil _).symm⟩, fun _ _ _ _ => PduRoom.ends_nil.mpr hspace⟩
    | cons sdu rest =>
      have hlen := hpos sdu List.mem_cons_self
      rw [List.length_cons] at hlis
      have hcons := PduRoom.ends_cons (r := b.room) hlen (by show b.li.length < _; omega) rest
      rw [hcons, pullSdus]
      obtain ⟨hends, hround⟩ | ⟨sdu', sdus', q, hsdus', hroom, hagain, hrest, hcounts, hlt⟩ :=
        pullRound_spec h
      · -- no other SDU goes into the PDU
        have hnot : ¬ b.room.Takes [] := hends.resolve_left (by rw [hsdus]; exact List.cons_ne_nil _ _)
        refine ⟨fun hall => absurd hall.1 hnot, fun b' hend _ hqueue => ?_⟩
        rcases hround with ⟨b₁, hdone, -, -, htx⟩ | hnosegments
        · rw [hdone] at hend
          cases hend
          rw [htx, hsdus] at hqueue
          cases hqueue
        · rw [hnosegments] at hend
          cases hend
      · rw [hsdus] at hsdus'
        cases hsdus'
        rw [hagain]
        have hinv := (pullSdu_spec hroom sdu hcounts []).1
        have hmove : toMove (pushLastLi b) sdu =
            min (b.pduSpace - dataHeadLen (b.li.length + nofLis [b.lastLi])) sdu.bytes.length := by
          rw [toMove, headLen_pushLastLi]
          rfl
        have hstart : 0 + dataHeadLen (b.li.length + nofLis [b.lastLi]) < b.pduSpace := hroom.space
        have hli : (pullSdu (pushLastLi b) sdu q).li.length = b.li.length + nofLis [b.lastLi] :=
          length_li_pushLastLi b
        by_cases hfits : sdu.bytes.length ≤ b.pduSpace - dataHeadLen (b.li.length + nofLis [b.lastLi])
        · have hwhole := hmove.trans (Nat.min_eq_right hfits)
          have hlone : nofLis [b.lastLi] ≤ 1 := List.countP_le_length
          have hnext : (pullSdu (pushLastLi b) sdu q).room = b.room.put sdu.bytes.length
              (addSegment (noteSdu b.room.info sdu.pdcpSn) b.room.rlcSn sdu.pdcpSn true).1 := by
            rw [room_pullSdu, hwhole, restOf_length]
            rfl
          have hdone : (pullSdu (pushLastLi b) sdu q).tx.txSdu = none := by
            show restOf sdu (toMove (pushLastLi b) sdu) = none
            rw [hwhole, restOf_length]
          obtain ⟨hall, hback⟩ := ih hinv (Nat.le_of_lt_succ (Nat.lt_of_lt_of_le hlt hfuel)) hdone hrest
            (fun sdu' hmem => hpos sdu' (List.mem_cons_of_mem _ hmem)) (by rw [hli]; omega) (by
              rw [hli]
              show _ ≤ b.pduSpace - toMove (pushLastLi b) sdu
              rw [hwhole]
              omega)
          rw [hnext] at hall hback
          refine ⟨fun hends => ?_, fun b' hend htx hqueue =>
            ⟨hroom, hfits, hback b' hend htx hqueue⟩⟩
          obtain ⟨b', hend, htx, hqueue, hheader, hbuf, hlis'⟩ := hall hends.2.2
          refine ⟨b', hend, htx, hqueue, hheader, ?_, ?_⟩
          · rw [hbuf]
            show b.pdu.buf ++ sdu.bytes.take (toMove (pushLastLi b) sdu) ++ _ = _
            rw [hwhole, List.take_length, List.flatMap_cons, List.append_assoc]
          · rw [hlis']
            show (if b.lastLi > 0 then b.li ++ [b.lastLi] else b.li) ++
              (toMove (pushLastLi b) sdu :: sizes rest).dropLast.filter _ = _
            have hdrop : (b.lastLi :: sizes (sdu :: rest)).dropLast =
                b.lastLi :: (sdu.bytes.length :: sizes rest).dropLast := rfl
            rw [hwhole, hdrop, List.filter_cons]
            by_cases hlast : b.lastLi > 0
            · rw [if_pos hlast, if_pos (decide_eq_true hlast), List.append_assoc]
              rfl
            · rw [if_neg hlast, if_neg (by rw [decide_eq_true_eq]; exact hlast)]
        · -- the SDU fills the PDU
          have hcut := hmove.trans (Nat.min_eq_left (Nat.le_of_not_le hfits))
          refine ⟨fun hends => absurd hends.2.1 hfits, fun b' hend htx _ => ?_⟩
          have hfull : (pullSdu (pushLastLi b) sdu q).pduSpace ≤
              dataHeadLen (pullSdu (pushLastLi b) sdu q).li.length := by
            rw [hli]
            show b.pduSpace - toMove (pushLastLi b) sdu ≤ _
            rw [hcut]
            omega
          have hsame := txSdu_pullSdus_full hinv hfull fuel hend
          have hrest' : (restOf sdu (toMove (pushLastLi b) sdu)).isNone = true := by
            rw [show restOf sdu (toMove (pushLastLi b) sdu) = none from hsame.symm.trans htx]
            rfl
          rw [restOf_isNone, decide_eq_true_eq, hcut] at hrest'
          exact absurd hrest' hfits

/-! ### A grant of the reported bytes -/

/-- The SDUs that are to be sent: the rest of the one in transmission, and those in the queue. -/
def queuedSdus (s : AmTx) : List Sdu := s.txSdu.toList ++ s.txSduQueue.sdus

/-- The bytes of these SDUs in one PDU. -/
def onePduBytes (s : AmTx) : Nat :=
  (sizes s.queuedSdus).sum + dataHeadLen (s.queuedSdus.length - 1)

/-- The grant sends all the SDUs, in one PDU and with all of its bytes. Each SDU but the last has a length
indicator. -/
structure AllSent (s : AmTx) (nofBytes : Nat) : Prop where
  length : (s.buildDataPdu nofBytes).2.length = nofBytes
  empty : (s.buildDataPdu nofBytes).1.queuedSdus = []
  pdu : s.queuedSdus ≠ [] → ∃ header, (s.buildDataPdu nofBytes).2 =
    writeDataPduHeader header ++ s.queuedSdus.flatMap (·.bytes) ∧
      header.rf = false ∧ header.li = (sizes s.queuedSdus).dropLast

/-- The information on the SDUs after the PDU has entered the window and taken the rest of the SDU in
transmission. -/
def infoStarted (s : AmTx) : SduInfo :=
  match s.txSdu with
  | none => (s.addPdu (newTxPdu s.vtS)).sduInfo
  | some sdu => (addSegment (s.addPdu (newTxPdu s.vtS)).sduInfo s.vtS sdu.pdcpSn true).1

/-- The PDU with all the SDUs fits a buffer, and there is a segment resource for each of them. -/
structure FitsPdu (s : AmTx) : Prop where
  size : s.onePduBytes ≤ bufferTailroom
  first : s.sduInfo.pool.hasSegments = true
  segments : ∀ k < s.txSduQueue.sdus.length,
    (infoAfter s.vtS s.infoStarted (s.txSduQueue.sdus.take k)).pool.hasSegments = true

/-- What is queued when the buffer state is read: at most 128 SDUs, of 1 to 2047 bytes, with a free place in
the window. -/
structure ShortQueue (s : AmTx) : Prop where
  window : s.txWindow.size < amWindowSize
  count : s.txSduQueue.sdus.length ≤ maxSdusPerPdu
  sizes : ∀ sdu ∈ s.queuedSdus, 1 ≤ sdu.bytes.length ∧ sdu.bytes.length ≤ 2047

theorem newTxBytes_eq (hcounts : s.txSduQueue.Counts) (hmeasured : s.txSduQueue.Measured)
    (h : ShortQueue s) :
    s.newTxBytes = if s.queuedSdus = [] then 0 else s.onePduBytes := by
  have hwindow : s.txWindow.size < 1024 := Nat.lt_trans h.window (by decide)
  have hcount : s.bufferedSdus = s.queuedSdus.length := by
    rw [bufferedSdus, if_pos hwindow, queuedSdus, List.length_append,
      show s.txSduQueue.nSdus = _ from hcounts, Nat.add_comm]
    cases s.txSdu <;> rfl
  have hbytes : s.bufferedBytes = (sizes s.queuedSdus).sum := by
    rw [bufferedBytes, if_pos hwindow, queuedSdus, sizes, List.map_append, List.sum_append,
      show s.txSduQueue.unreadBytes = _ from hmeasured, Nat.add_comm]
    cases s.txSdu <;> rfl
  rw [newTxBytes, hcount, hbytes, onePduBytes]
  cases hqueued : s.queuedSdus with
  | nil => rfl
  | cons sdu sdus =>
    have hpos := (h.sizes sdu (by rw [hqueued]; exact List.mem_cons_self)).1
    have hsum : (sizes (sdu :: sdus)).sum = sdu.bytes.length + (sizes sdus).sum := List.sum_cons
    rw [if_neg (List.cons_ne_nil _ _), List.length_cons, Nat.add_sub_cancel, dataHeadLen]
    by_cases hmany : sdus.length + 1 > 1
    · rw [if_pos hmany, if_pos ⟨by omega, Nat.succ_pos _⟩]
      omega
    · rw [if_neg hmany, if_pos ⟨by omega, Nat.succ_pos _⟩]
      omega

/-- The length of the rest of the SDU in transmission. -/
def startedLen (s : AmTx) : Nat := (s.txSdu.map fun sdu => sdu.bytes.length).getD 0

/-- The length indicators of a PDU with all the SDUs. -/
theorem lis_queuedSdus (h : ShortQueue s) :
    (s.startedLen :: sizes s.txSduQueue.sdus).dropLast.filter (fun len => decide (0 < len)) =
      (sizes s.queuedSdus).dropLast := by
  have hall : ∀ len ∈ (sizes s.queuedSdus).dropLast, decide (0 < len) = true := by
    intro len hlen
    obtain ⟨sdu, hsdu, rfl⟩ := List.mem_map.mp (List.dropLast_subset _ hlen)
    exact decide_eq_true (h.sizes sdu hsdu).1
  have hkeep := List.filter_eq_self.mpr hall
  cases htx : s.txSdu with
  | some sdu =>
    have hqueued : sizes s.queuedSdus = s.startedLen :: sizes s.txSduQueue.sdus := by
      rw [queuedSdus, startedLen, htx]
      rfl
    rw [← hqueued]
    exact hkeep
  | none =>
    have hqueued : s.queuedSdus = s.txSduQueue.sdus := by
      rw [queuedSdus, htx]
      rfl
    rw [hqueued] at hkeep ⊢
    rw [show s.startedLen = 0 by rw [startedLen, htx]; rfl]
    cases hsdus : s.txSduQueue.sdus with
    | nil => rfl
    | cons sdu sdus =>
      rw [hsdus] at hkeep
      rw [show (0 :: sizes (sdu :: sdus)).dropLast = 0 :: (sizes (sdu :: sdus)).dropLast from rfl,
        List.filter_cons_of_neg (by decide)]
      exact hkeep

theorem sum_queuedSdus (s : AmTx) :
    (sizes s.queuedSdus).sum = s.startedLen + (sizes s.txSduQueue.sdus).sum := by
  rw [queuedSdus, sizes, List.map_append, List.sum_append, startedLen]
  cases s.txSdu <;> rfl

theorem startedLen_le (h : ShortQueue s) : s.startedLen ≤ 2047 := by
  cases htx : s.txSdu with
  | none =>
    rw [startedLen, htx]
    exact Nat.zero_le _
  | some sdu =>
    have hmem : sdu ∈ s.queuedSdus := by
      rw [queuedSdus, htx]
      exact List.mem_cons_self
    rw [startedLen, htx]
    exact (h.sizes sdu hmem).2

/-- The rest of the SDU in transmission goes into the PDU as a whole. -/
theorem firstMove_onePduBytes (h : ShortQueue s) : s.firstMove s.onePduBytes = s.startedLen := by
  have hsum := sum_queuedSdus s
  have hle := startedLen_le h
  have hhead : 2 ≤ dataHeadLen (s.queuedSdus.length - 1) := Nat.le_add_right _ _
  have hzero : dataHeadLen 0 = 2 := rfl
  have htailroom : bufferTailroom = 12237 := rfl
  have hgrant : s.onePduBytes = (sizes s.queuedSdus).sum + dataHeadLen (s.queuedSdus.length - 1) := rfl
  have hmin : min (min s.onePduBytes bufferTailroom - dataHeadLen 0) s.startedLen = s.startedLen := by
    omega
  rw [firstMove]
  cases htx : s.txSdu with
  | none =>
    rw [startedLen, htx]
    rfl
  | some sdu =>
    rw [startedLen, htx] at hmin ⊢
    exact hmin

theorem firstRoom_onePduBytes (h : ShortQueue s) : s.firstRoom s.onePduBytes =
    ⟨s.vtS, 0, s.startedLen, min s.onePduBytes bufferTailroom - s.startedLen, s.infoStarted⟩ := by
  have hle := startedLen_le h
  have htailroom : bufferTailroom = 12237 := rfl
  have hmin : min s.startedLen (bufferTailroom - s.startedLen) = s.startedLen := by omega
  rw [firstRoom, firstMove_onePduBytes h, hmin, infoStarted]
  cases htx : s.txSdu with
  | none => rfl
  | some sdu =>
    have hdone : decide (sdu.bytes.length ≤ s.startedLen) = true := by
      rw [startedLen, htx]
      exact decide_eq_true (Nat.le_refl _)
    simp only [hdone]

theorem ends_firstRoom_iff (h : ShortQueue s) :
    (s.firstRoom s.onePduBytes).Ends s.txSduQueue.sdus ↔ s.onePduBytes ≤ bufferTailroom ∧
      ∀ k < s.txSduQueue.sdus.length,
        (infoAfter s.vtS s.infoStarted (s.txSduQueue.sdus.take k)).pool.hasSegments = true := by
  have hlis : nofLis (s.startedLen :: sizes s.txSduQueue.sdus).dropLast = s.queuedSdus.length - 1 := by
    rw [nofLis, List.countP_eq_length_filter, lis_queuedSdus h, List.length_dropLast, sizes, List.length_map]
  have hsum := sum_queuedSdus s
  have hle := startedLen_le h
  have htailroom : bufferTailroom = 12237 := rfl
  have hgrant : s.onePduBytes = (sizes s.queuedSdus).sum + dataHeadLen (s.queuedSdus.length - 1) := rfl
  rw [firstRoom_onePduBytes h]
  have hspace : (sizes s.txSduQueue.sdus).sum +
      dataHeadLen (0 + nofLis (s.startedLen :: sizes s.txSduQueue.sdus).dropLast) ≤
        min s.onePduBytes bufferTailroom - s.startedLen ↔ s.onePduBytes ≤ bufferTailroom := by
    have hhead : 2 ≤ dataHeadLen (s.queuedSdus.length - 1) := Nat.le_add_right _ _
    rw [hlis, Nat.zero_add]
    omega
  exact ⟨fun hends => ⟨hspace.mp hends.space, hends.segments⟩,
    fun hfits => ⟨hspace.mpr hfits.1, hfits.2⟩⟩

theorem txSdu_startDataPdu (h : ShortQueue s) : (s.startDataPdu s.onePduBytes).tx.txSdu = none := by
  have hmove := firstMove_onePduBytes h
  rw [startDataPdu]
  cases htx : s.txSdu with
  | none => exact htx
  | some sdu =>
    rw [firstMove, startedLen, htx] at hmove
    replace hmove : min (min s.onePduBytes bufferTailroom - dataHeadLen 0) sdu.bytes.length =
      sdu.bytes.length := hmove
    show restOf sdu (min (min s.onePduBytes bufferTailroom - dataHeadLen 0) sdu.bytes.length) = none
    rw [hmove, restOf_length]

theorem queuedSdus_finishDataPdu (notStartAligned : Bool) (b : DataBuild) :
    (finishDataPdu notStartAligned b).1.queuedSdus = b.tx.queuedSdus := by
  obtain ⟨pdus, bytes, timer, hpoll⟩ := afterPoll_eq b.tx (b.pdu.buf.length + b.headLen)
  rw [finishDataPdu, hpoll]
  rfl

theorem pendingBytes_eq (s : AmTx) : pendingBytes s = s.queuedSdus.flatMap (·.bytes) := by
  rw [pendingBytes, queuedSdus, List.flatMap_append]
  cases s.txSdu with
  | none => rfl
  | some sdu => simp

theorem allSent_of_ended (h : ShortQueue s) {b : DataBuild}
    (hstart : Started s s.onePduBytes (s.startDataPdu s.onePduBytes))
    (hended : Ended (s.startDataPdu s.onePduBytes) b s.txSduQueue.sdus)
    (hbuild : s.buildDataPdu s.onePduBytes = finishDataPdu s.txSdu.isSome b) :
    AllSent s s.onePduBytes := by
  have hbuf : b.pdu.buf = s.queuedSdus.flatMap (·.bytes) := by
    have hmoved := hstart.moved
    rw [pendingBytes, txSdu_startDataPdu h, hstart.queue] at hmoved
    rw [hended.buf, ← pendingBytes_eq, ← hmoved]
    rfl
  have hli : b.li = (sizes s.queuedSdus).dropLast := by
    have hlast : (s.startDataPdu s.onePduBytes).lastLi = s.startedLen := by
      have hroom := congrArg PduRoom.lastLi (hstart.room.trans (firstRoom_onePduBytes h))
      exact hroom
    rw [hended.li, hstart.li, hlast, List.nil_append, lis_queuedSdus h]
  have hheader := hended.header.trans hstart.header
  let pdu := finalPdu s.txSdu.isSome b (b.tx.pollBit (b.pdu.buf.length + b.headLen))
  have hbytes : (s.buildDataPdu s.onePduBytes).2 =
      writeDataPduHeader pdu.header ++ s.queuedSdus.flatMap (·.bytes) := by
    rw [hbuild, ← hbuf]
    rfl
  have hrf : pdu.header.rf = false := congrArg AmdHeader.rf hheader
  have hlength : (s.queuedSdus.flatMap (·.bytes)).length = (sizes s.queuedSdus).sum := by
    rw [List.length_flatMap]
    rfl
  refine ⟨?_, ?_, fun _ => ⟨pdu.header, hbytes, hrf, hli⟩⟩
  · rw [hbytes, List.length_append, length_writeDataPduHeader, hlength, AmdHeader.packedLength, hrf,
      show pdu.header.li = (sizes s.queuedSdus).dropLast from hli, List.length_dropLast, sizes,
      List.length_map, onePduBytes, dataHeadLen, Nat.add_comm]
    rfl
  · rw [hbuild, queuedSdus_finishDataPdu, queuedSdus, hended.txSdu, hended.queue]
    rfl

theorem allSent_iff (hready : QueueReady s) (hmeasured : s.txSduQueue.Measured) (h : ShortQueue s) :
    AllSent s s.newTxBytes ↔ (s.queuedSdus ≠ [] → FitsPdu s) := by
  rw [newTxBytes_eq hready.counts hmeasured h]
  by_cases hqueued : s.queuedSdus = []
  · rw [if_pos hqueued]
    have hsame : s.buildDataPdu 0 = (s, []) := by
      have hgrant : s.addsDataPdu 0 = false := by
        rw [addsDataPdu, show decide (0 ≥ amMinDataPduSize) = false by decide, Bool.and_false,
          Bool.false_and]
      rw [buildDataPdu, hgrant]
      rfl
    refine iff_of_true ⟨?_, ?_, fun hne => absurd hqueued hne⟩ fun hne => absurd hqueued hne
    · rw [hsame]
      rfl
    · rw [hsame]
      exact hqueued
  · rw [if_neg hqueued]
    have hpos : 1 ≤ (sizes s.queuedSdus).sum := by
      obtain ⟨sdu, sdus, hcons⟩ := List.exists_cons_of_ne_nil hqueued
      have hfirst := (h.sizes sdu (by rw [hcons]; exact List.mem_cons_self)).1
      have hsum : (sizes s.queuedSdus).sum = sdu.bytes.length + (sizes sdus).sum := by
        rw [hcons]
        exact List.sum_cons
      omega
    have hbytes : s.onePduBytes = (sizes s.queuedSdus).sum + dataHeadLen (s.queuedSdus.length - 1) := rfl
    have hhead : 2 ≤ dataHeadLen (s.queuedSdus.length - 1) := Nat.le_add_right _ _
    have hgrant : 3 ≤ s.onePduBytes := by omega
    cases hsegments : s.sduInfo.pool.hasSegments with
    | false =>
      refine iff_of_false (fun hsent => ?_) fun hfits => ?_
      · have hlength := hsent.length
        rw [buildDataPdu, addsDataPdu, hsegments, Bool.and_false, if_neg Bool.false_ne_true] at hlength
        have hlength : 0 = s.onePduBytes := hlength
        omega
      · have hfirst := (hfits hqueued).first
        rw [hsegments] at hfirst
        cases hfirst
    | true =>
      have hadds : s.addsDataPdu s.onePduBytes = true := by
        have hdata : (s.txSdu.isSome || !s.txSduQueue.queue.isEmpty) = true := by
          rw [Bool.or_eq_true, Bool.not_eq_true']
          by_contra hnot
          obtain ⟨htx, hqueue⟩ := not_or.mp hnot
          have hnil : s.txSduQueue.queue = [] := List.isEmpty_iff.mp (by simpa using hqueue)
          refine hqueued ?_
          rw [queuedSdus, ByteBufferQueue.sdus, Option.not_isSome_iff_eq_none.mp htx, hnil]
          rfl
        have hfree : decide (s.txWindow.size ≥ amWindowSize) = false :=
          decide_eq_false (Nat.not_le_of_lt h.window)
        rw [addsDataPdu, hdata, hfree, hsegments, Bool.and_false, Bool.not_false, Bool.true_and,
          Bool.and_true, Bool.true_and]
        exact decide_eq_true hgrant
      have hstart := started_startDataPdu hready.counts hgrant
      have hspace : dataHeadLen (s.startDataPdu s.onePduBytes).li.length ≤
          (s.startDataPdu s.onePduBytes).pduSpace := by
        have hle := startedLen_le h
        have hsum := sum_queuedSdus s
        have htailroom : bufferTailroom = 12237 := rfl
        have hroom := congrArg PduRoom.space (hstart.room.trans (firstRoom_onePduBytes h))
        rw [hstart.li, show (s.startDataPdu s.onePduBytes).pduSpace = _ from hroom]
        show 2 ≤ min s.onePduBytes bufferTailroom - s.startedLen
        omega
      have hfuel : (s.startDataPdu s.onePduBytes).tx.txSduQueue.queue.length ≤
          s.txSduQueue.queue.length := by
        rw [hstart.queue]
      have hsdus : (s.startDataPdu s.onePduBytes).tx.txSduQueue.sdus = s.txSduQueue.sdus := by
        rw [hstart.queue]
      obtain ⟨hall, hback⟩ := pullSdus_ends hstart.inv hfuel (txSdu_startDataPdu h) hsdus
        (fun sdu hsdu => (h.sizes sdu (List.mem_append_right _ hsdu)).1)
        (by rw [hstart.li, List.length_nil, Nat.zero_add]; exact h.count) hspace
      rw [hstart.room, ends_firstRoom_iff h] at hall hback
      have hbuild := buildDataPdu.eq_1 s s.onePduBytes
      rw [if_pos hadds] at hbuild
      constructor
      · intro hsent _
        obtain ⟨b, hdone, -⟩ | ⟨b, hnone, -⟩ := pullSdus_spec hstart.inv hfuel
        · rw [hdone] at hbuild
          have hempty := hsent.empty
          rw [hbuild, queuedSdus_finishDataPdu, queuedSdus, List.append_eq_nil_iff] at hempty
          have htx : b.tx.txSdu = none := by
            cases hb : b.tx.txSdu with
            | none => rfl
            | some sdu =>
              rw [hb] at hempty
              cases hempty.1
          obtain ⟨hsize, hresources⟩ := hback b hdone htx hempty.2
          exact ⟨hsize, hsegments, hresources⟩
        · rw [hnone] at hbuild
          have hlength := hsent.length
          rw [hbuild] at hlength
          have hlength : 0 = s.onePduBytes := hlength
          omega
      · intro hfits
        obtain ⟨hsize, -, hresources⟩ := hfits hqueued
        obtain ⟨b, hdone, hended⟩ := hall ⟨hsize, hresources⟩
        rw [hdone] at hbuild
        exact allSent_of_ended h hstart hended hbuild

/-- In every run: the status PDU has the length that is reported for it, and a grant of the new data bytes
that are reported sends all the SDUs if and only if one PDU can hold them. -/
theorem bufferState_sent (cfg : AmConfig) (txOps : List Op) {rxOps : List AmRx.Op} {rx : AmRx}
    {reports : List (Option StatusPdu)} (hrun : run AmRx.step AmRx.init rxOps = some (rx, reports))
    (hrx : StepsWithin AmRx.step AmRx.PayloadFits AmRx.init rxOps ∨ ¬ rx.Wraps) :
    rx.ReportExact ∧ ∀ status statusPduLength, ShortQueue ((init cfg).execOps txOps) →
      (AllSent ((init cfg).execOps txOps)
          (((init cfg).execOps txOps).getBufferState status statusPduLength).2.1 ↔
        (((init cfg).execOps txOps).queuedSdus ≠ [] → FitsPdu ((init cfg).execOps txOps))) := by
  have hvars := AmRx.varsBelow_of_run hrun
  refine ⟨AmRx.reportExact_of_not_wraps hvars.vrR hvars.vrMs ?_, fun status statusPduLength h => ?_⟩
  · rcases hrx with hfits | hnot
    · exact AmRx.not_wraps_of_rxInv (AmRx.rxInv_of_run hfits hrun)
    · exact hnot
  · exact allSent_iff (queueReady_execOps cfg txOps) (measured_execOps cfg txOps) h

/-- Two SDUs in the queue, and the PDU 1 at a receiver that waits for the PDU 0. -/
theorem bufferState_sent_two : ∃ rx reports,
    run AmRx.step AmRx.init [.writePdu [128, 1, 7]] = some (rx, reports) ∧ rx.ReportExact ∧
      AllSent ((init ⟨-1, -1, 4, 0, 256⟩).execOps [.writeSdu ⟨0, [1, 2, 3]⟩, .writeSdu ⟨1, [4, 5]⟩])
        9 := by
  have hrun : run AmRx.step AmRx.init [.writePdu [128, 1, 7]] = some (_, _) := rfl
  have hfits : StepsWithin AmRx.step AmRx.PayloadFits AmRx.init [.writePdu [128, 1, 7]] :=
    ⟨by decide, fun _ _ _ => trivial⟩
  obtain ⟨hreport, hsent⟩ := bufferState_sent ⟨-1, -1, 4, 0, 256⟩
    [.writeSdu ⟨0, [1, 2, 3]⟩, .writeSdu ⟨1, [4, 5]⟩] hrun (.inl hfits)
  refine ⟨_, _, hrun, hreport, (hsent ⟨false, fun _ => none⟩ 0 ⟨by decide, by decide,
    by decide⟩).mpr fun _ => ⟨by decide, by decide, fun k hk => ?_⟩⟩
  have hk : k < 2 := hk
  obtain rfl | rfl : k = 0 ∨ k = 1 := by omega
  · decide
  · decide

/-- Seven SDUs of 2047 bytes. -/
def sevenLong : List Op := (List.range 7).map fun k => .writeSdu ⟨k, List.replicate 2047 0⟩

/-- The reported bytes for seven SDUs of 2047 bytes exceed the buffer of a PDU. -/
theorem not_allSent_sevenLong : ¬ ∀ (cfg : AmConfig) (ops : List Op) (rx : RxStatus) (n : Nat),
    ((init cfg).execOps ops).retxQueue = [] → ShortQueue ((init cfg).execOps ops) →
      AllSent ((init cfg).execOps ops) (((init cfg).execOps ops).getBufferState rx n).2.1 := by
  intro hall
  have hsent := hall ⟨-1, -1, 4, 0, 256⟩ sevenLong ⟨false, fun _ => none⟩ 0
  have hiff := allSent_iff (queueReady_execOps ⟨-1, -1, 4, 0, 256⟩ sevenLong)
    (measured_execOps ⟨-1, -1, 4, 0, 256⟩ sevenLong)
  have hretx : ((init ⟨-1, -1, 4, 0, 256⟩).execOps sevenLong).retxQueue = [] := by decide
  have hshort : ShortQueue ((init ⟨-1, -1, 4, 0, 256⟩).execOps sevenLong) :=
    ⟨by decide, by decide, by decide +kernel⟩
  have hqueued : ((init ⟨-1, -1, 4, 0, 256⟩).execOps sevenLong).queuedSdus ≠ [] := by decide
  have hlong : ¬ ((init ⟨-1, -1, 4, 0, 256⟩).execOps sevenLong).onePduBytes ≤ bufferTailroom := by
    decide +kernel
  generalize (init ⟨-1, -1, 4, 0, 256⟩).execOps sevenLong = s at hsent hiff hretx hshort hqueued hlong
  exact hlong ((hiff hshort).mp (hsent hretx hshort) hqueued).size

end AmTx

end Odss.Rlc
