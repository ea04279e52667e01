import Odss.Proofs.AmRxWindow

/-!
# `Odss.Proofs.AmRxDiscard`: data PDUs that the RLC AM receiver discards

`handle_data_pdu` takes the slot of the receive window before it knows that the payload has room.
`Unchanged` says that a discarded PDU leaves no trace but a status request: the state is the same,
and so is every later status report.

* `keysInside_of_run`: the window never has an SN outside of `vr_r`, ..., `vr_mr - 1`, whatever the
  payloads are. So the slot of a new SN is free, and removing it restores the window.
* `run_forgetStatus`: no report depends on the status request.
* `discardsAtomic_iff`: only a payload over the tailroom leaves its SN in the window.
-/

set_option linter.all false

namespace Odss.Rlc.AmRx

open Odss.Lib

/-! ### Calls without a buffer -/

/-- A call of the receiver, or a data PDU for which `handle_data_pdu` gets no buffer. -/
inductive AllocOp where
  | call (op : Op)
  | noBuffer (bytes : Bytes)

/-- One call. -/
def stepAlloc (s : AmRx) : AllocOp → Option (AmRx × Option StatusPdu)
  | .call op => s.step op
  | .noBuffer bytes =>
    match readDataPduHeader bytes with
    | none => some (s, none)
    | some (header, payload) =>
      (s.handleDataPduAlloc header payload false).map fun r => (r.1, none)

/-! ### The keys of the window -/

/-- The SNs in the window are those that it may hold. -/
structure KeysInside (s : AmRx) : Prop where
  vrR : s.vrR < amMod
  vrMr : s.vrMr = (s.vrR + amWindowSize) % amMod
  inside : ∀ k, s.rxWindow.contains k = true → k < amMod ∧ s.rxModBase k < amWindowSize
  segments : ∀ sn list, s.rxSegments.find? sn = some list → ∀ g ∈ list, g.header.sn < amMod

theorem keysInside_init : KeysInside init where
  vrR := by decide
  vrMr := by decide
  inside := fun k hk => by simp [init] at hk
  segments := fun sn list h => by simp [init] at h

theorem KeysInside.of_eq {s t : AmRx} (h : KeysInside s) (hR : t.vrR = s.vrR) (hMr : t.vrMr = s.vrMr)
    (hwindow : t.rxWindow = s.rxWindow) (hsegments : t.rxSegments = s.rxSegments) :
    KeysInside t := by
  refine ⟨by rw [hR]; exact h.vrR, by rw [hR, hMr]; exact h.vrMr, fun k hk => ?_, ?_⟩
  · rw [hwindow] at hk
    have hbase : t.rxModBase k = s.rxModBase k := by rw [rxModBase, rxModBase, hR]
    rw [hbase]
    exact h.inside k hk
  · rw [hsegments]
    exact h.segments

theorem KeysInside.overwrite {s : AmRx} (h : KeysInside s) {sn : Nat} (hsn : sn < amMod)
    (hin : s.rxModBase sn < amWindowSize) (pdu : AmdRxPdu) :
    KeysInside { s with rxWindow := s.rxWindow.overwrite sn pdu } := by
  refine ⟨h.vrR, h.vrMr, fun k hk => ?_, h.segments⟩
  rcases (CircularMap.contains_overwrite _ _ _ _).mp hk with rfl | ⟨-, hold⟩
  · exact ⟨hsn, hin⟩
  · exact h.inside k hold

theorem KeysInside.reassembleRound {s : AmRx} (h : KeysInside s) (rxSdu : Bytes) (pdu : AmdRxPdu) :
    KeysInside (s.reassembleRound rxSdu pdu) := by
  refine ⟨succ_mod_lt h.vrR, ?_, fun k hk => ?_, fun sn list hfind => ?_⟩
  · show (s.vrMr + 1) % amMod = ((s.vrR + 1) % amMod + amWindowSize) % amMod
    rw [h.vrMr]
    simp only [amMod, amWindowSize]
    omega
  · obtain ⟨hne, hk⟩ := (CircularMap.contains_erase _ _ _).mp hk
    obtain ⟨hbound, hlt⟩ := h.inside k hk
    have hshift : (s.reassembleRound rxSdu pdu).rxModBase k = s.rxModBase k - 1 :=
      cycDist_succ_base h.vrR hbound hne
    exact ⟨hbound, by omega⟩
  · simp only [AmRx.reassembleRound, clearSegments] at hfind
    split at hfind
    · exact h.segments sn list hfind
    · rw [OrdMap.find?_insert] at hfind
      split at hfind
      · cases hfind
        exact fun g hg => absurd hg List.not_mem_nil
      · exact h.segments sn list hfind

theorem KeysInside.reassembleLoop {s t : AmRx} (fuel : Nat) (h : KeysInside s)
    (hloop : reassembleLoop fuel s = some t) : KeysInside t := by
  induction fuel generalizing s with
  | zero =>
    cases hloop
    exact h
  | succ fuel ih =>
    unfold AmRx.reassembleLoop at hloop
    split at hloop
    · cases hloop
      exact h
    · split at hloop
      · cases hloop
      · exact ih (h.reassembleRound _ _) hloop

/-- A window slot of an SN that is inside the window and not stored is free. -/
theorem slot?_eq_none_of_new {s : AmRx} (h : KeysInside s) {sn : Nat} (hsn : sn < amMod)
    (hin : s.rxModBase sn < amWindowSize) (hnew : s.rxWindow.contains sn = false) :
    s.rxWindow.slot? sn = none := by
  refine CircularMap.slot?_eq_none_iff.mpr fun k hk hres => ?_
  obtain ⟨hbound, hlt⟩ := h.inside k hk
  have hR := h.vrR
  have heq : k = sn := by
    simp only [rxModBase, amMod, amWindowSize] at *
    omega
  rw [heq, hnew] at hk
  cases hk

theorem KeysInside.handleDataPdu {s t : AmRx} (h : KeysInside s) {header : AmdHeader}
    (hsn : header.sn < amMod) {payload : Bytes} (hpdu : s.handleDataPdu header payload = some t) :
    KeysInside t := by
  unfold AmRx.handleDataPdu at hpdu
  split at hpdu
  · rename_i haccepts
    have hin : s.rxModBase header.sn < amWindowSize := by
      rw [← insideRxWindow_iff_lt h.vrR h.vrMr]
      simp only [acceptsPdu, Bool.and_eq_true] at haccepts
      exact haccepts.1.2
    split at hpdu
    · cases hpdu
      exact h.overwrite hsn hin _
    · obtain ⟨t', hreassemble, rfl⟩ := Option.map_eq_some_iff.mp hpdu
      have hstored : KeysInside { s.storePdu header payload with
          rxSdu := some ((s.storePdu header payload).rxSdu.getD []) } :=
        (h.overwrite hsn hin ⟨header, payload⟩).of_eq rfl rfl rfl rfl
      have ht' := hstored.reassembleLoop amMod hreassemble
      have hstop : KeysInside t'.stopReordering := ht'.of_eq rfl rfl rfl rfl
      unfold startReordering
      split
      · exact hstop.of_eq rfl rfl rfl rfl
      · exact hstop
  · split at hpdu
    · cases hpdu
      exact h.of_eq rfl rfl rfl rfl
    · cases hpdu
      exact h

theorem KeysInside.setSegments {s : AmRx} (h : KeysInside s) (sn : Nat) {list : AmdRxPduSegments}
    (hlist : ∀ g ∈ list, g.header.sn < amMod) :
    KeysInside { s with rxSegments := s.rxSegments.insert sn list } := by
  refine ⟨h.vrR, h.vrMr, h.inside, fun sn' list' hfind => ?_⟩
  rw [OrdMap.find?_insert] at hfind
  split at hfind
  · cases hfind
    exact hlist
  · exact h.segments sn' list' hfind

theorem KeysInside.handleDataPduSegment {s t : AmRx} (h : KeysInside s) {header : AmdHeader}
    (hsn : header.sn < amMod) {payload : Bytes}
    (hpdu : s.handleDataPduSegment header payload = some t) : KeysInside t := by
  unfold AmRx.handleDataPduSegment at hpdu
  split at hpdu
  · cases hpdu
    exact h.of_eq rfl rfl rfl rfl
  · split at hpdu
    · cases hpdu
      exact h
    · split at hpdu
      · cases hpdu
        have hset := h.setSegments header.sn
          fun g (hg : g ∈ [AmdRxPdu.mk header payload]) => by rwa [List.mem_singleton.mp hg]
        exact hset.of_eq rfl rfl rfl rfl
      · rename_i segments hfind
        have hold := h.segments header.sn segments hfind
        have hreq : KeysInside (s.requestStatus header.p) := h.of_eq rfl rfl rfl rfl
        unfold nextSegment at hpdu
        simp only at hpdu
        split at hpdu
        · cases hpdu
        · rename_i segments' hcheck
          cases hpdu
          refine hreq.setSegments header.sn fun g hg => ?_
          rcases addSegmentAndCheck_mem hcheck hg with rfl | hg
          · exact hsn
          · exact hold g hg
        · rename_i header' payload' hcheck
          obtain ⟨⟨g, hg, hg'⟩, -⟩ := addSegmentAndCheck_complete hcheck
          obtain ⟨t', hdata, rfl⟩ := Option.map_eq_some_iff.mp hpdu
          have hsn' : header'.sn < amMod := by
            rw [hg']
            rcases hg with rfl | hg
            · exact hsn
            · exact hold g hg
          have ht := hreq.handleDataPdu hsn' hdata
          refine ⟨ht.vrR, ht.vrMr, ht.inside, fun sn list hfind => ?_⟩
          rw [OrdMap.find?_erase] at hfind
          split at hfind
          · cases hfind
          · exact ht.segments sn list hfind

theorem KeysInside.step {s t : AmRx} {op : Op} {report : Option StatusPdu} (h : KeysInside s)
    (hstep : s.step op = some (t, report)) : KeysInside t := by
  cases op with
  | writePdu bytes =>
    obtain ⟨t', hwrite, ht⟩ := Option.map_eq_some_iff.mp hstep
    cases ht
    unfold writePdu at hwrite
    split at hwrite
    · cases hwrite
      exact h
    · rename_i header payload hread
      have hsn := sn_lt_of_readDataPduHeader hread
      split at hwrite
      · cases hwrite
      · split at hwrite
        · exact h.handleDataPduSegment hsn hwrite
        · exact h.handleDataPdu hsn hwrite
  | timerExpired =>
    cases hstep
    unfold timerExpired
    split
    · exact h
    · simp only
      split <;> exact h.of_eq rfl rfl rfl rfl
  | getStatusPdu maxPduSize =>
    cases hstep
    unfold afterStatusPdu
    split
    · exact h.of_eq rfl rfl rfl rfl
    · exact h
  | stop =>
    cases hstep
    exact keysInside_init.of_eq rfl rfl rfl rfl

/-- A PDU without a buffer leaves the window as it was. -/
theorem handleDataPduAlloc_false {s : AmRx} (h : KeysInside s) {header : AmdHeader}
    (hsn : header.sn < amMod) (payload : Bytes) {r : AmRx × DataOutcome}
    (hcall : s.handleDataPduAlloc header payload false = some r) :
    r.1 = { s with doStatus := r.1.doStatus } := by
  unfold handleDataPduAlloc at hcall
  split at hcall
  · cases hcall
    rfl
  · split at hcall
    · cases hcall
      rfl
    · rename_i hin
      split at hcall
      · cases hcall
        rfl
      · rename_i hnew
        have hin : s.rxModBase header.sn < amWindowSize := by
          rw [← insideRxWindow_iff_lt h.vrR h.vrMr]
          simpa using hin
        cases hcall
        have hfree := slot?_eq_none_of_new h hsn hin (by simpa using hnew)
        simp only [CircularMap.erase_overwrite hfree]

theorem KeysInside.stepAlloc {s t : AmRx} {op : AllocOp} {report : Option StatusPdu}
    (h : KeysInside s) (hstep : s.stepAlloc op = some (t, report)) : KeysInside t := by
  cases op with
  | call op => exact h.step hstep
  | noBuffer bytes =>
    unfold AmRx.stepAlloc at hstep
    simp only at hstep
    split at hstep
    · cases hstep
      exact h
    · rename_i header payload hread
      obtain ⟨r, hcall, hr⟩ := Option.map_eq_some_iff.mp hstep
      cases hr
      rw [handleDataPduAlloc_false h (sn_lt_of_readDataPduHeader hread) payload hcall]
      exact h.of_eq rfl rfl rfl rfl

theorem keysInside_of_run {ops : List AllocOp} {s : AmRx} {reports : List (Option StatusPdu)}
    (hrun : run stepAlloc init ops = some (s, reports)) : KeysInside s :=
  run_invariant KeysInside (fun _ _ _ _ hs hstep => hs.stepAlloc hstep) ops init s reports
    keysInside_init hrun

/-! ### The status request -/

/-- The state without its status request. -/
def forgetStatus (s : AmRx) : AmRx := { s with doStatus := false }

theorem forgetStatus_reassembleLoop (fuel : Nat) (s : AmRx) :
    reassembleLoop fuel s.forgetStatus = (reassembleLoop fuel s).map forgetStatus := by
  induction fuel generalizing s with
  | zero => rfl
  | succ fuel ih =>
    unfold reassembleLoop
    have hwindow : s.forgetStatus.rxWindow.find? s.forgetStatus.vrR = s.rxWindow.find? s.vrR := rfl
    have hrxSdu : s.forgetStatus.rxSdu = s.rxSdu := rfl
    rw [hwindow, hrxSdu]
    cases hfind : s.rxWindow.find? s.vrR with
    | none => rfl
    | some pdu =>
      cases hsdu : s.rxSdu with
      | none => rfl
      | some rxSdu => exact ih (s.reassembleRound rxSdu pdu)

theorem forgetStatus_reordering (s : AmRx) :
    s.forgetStatus.stopReordering.startReordering =
      s.stopReordering.startReordering.forgetStatus := by
  unfold startReordering
  show (if !s.stopReordering.reorderingTimer.isRunning &&
      decide (s.stopReordering.rxModBase s.stopReordering.vrH >
        s.stopReordering.rxModBase s.stopReordering.vrR) then _ else _) = _
  split <;> rfl

theorem forgetStatus_handleDataPdu (s : AmRx) (header : AmdHeader) (payload : Bytes) :
    (s.forgetStatus.handleDataPdu header payload).map forgetStatus =
      (s.handleDataPdu header payload).map forgetStatus := by
  unfold handleDataPdu
  show (if s.acceptsPdu header payload then _ else _ : Option AmRx).map forgetStatus = _
  split
  · split
    · rfl
    · have hreassemble : ∀ t : AmRx, t.reassembleRxSdus.map forgetStatus =
          t.forgetStatus.reassembleRxSdus :=
        fun t => (forgetStatus_reassembleLoop amMod { t with rxSdu := some (t.rxSdu.getD []) }).symm
      have hstored : (s.forgetStatus.storePdu header payload).forgetStatus =
          (s.storePdu header payload).forgetStatus := rfl
      have hcomm : forgetStatus ∘ (fun t : AmRx => t.stopReordering.startReordering) =
          (fun t : AmRx => t.stopReordering.startReordering) ∘ forgetStatus :=
        funext fun t => (forgetStatus_reordering t).symm
      rw [Option.map_map, Option.map_map, hcomm, ← Option.map_map, ← Option.map_map, hreassemble,
        hreassemble, hstored]
  · split <;> rfl

theorem forgetStatus_handleDataPduSegment (s : AmRx) (header : AmdHeader) (payload : Bytes) :
    (s.forgetStatus.handleDataPduSegment header payload).map forgetStatus =
      (s.handleDataPduSegment header payload).map forgetStatus := by
  unfold handleDataPduSegment
  have hinside : s.forgetStatus.insideRxWindow header.sn = s.insideRxWindow header.sn := rfl
  have hsegments : s.forgetStatus.rxSegments = s.rxSegments := rfl
  rw [hinside, hsegments]
  split
  · rfl
  · split
    · rfl
    · cases s.rxSegments.find? header.sn with
      | none => rfl
      | some segments =>
        unfold nextSegment
        simp only
        cases addSegmentAndCheck segments ⟨header, payload⟩ with
        | none => rfl
        | some check =>
          cases check with
          | incomplete segments => rfl
          | complete full payload =>
            have hfull := forgetStatus_handleDataPdu (s.requestStatus header.p) full payload
            have hreq : (s.forgetStatus.requestStatus header.p).forgetStatus =
              (s.requestStatus header.p).forgetStatus := rfl
            have hfull' := forgetStatus_handleDataPdu (s.forgetStatus.requestStatus header.p) full
              payload
            have hcomm : ∀ sn : Nat, forgetStatus ∘
                (fun t : AmRx => { t with rxSegments := t.rxSegments.erase sn }) =
                (fun t : AmRx => { t with rxSegments := t.rxSegments.erase sn }) ∘ forgetStatus :=
              fun _ => rfl
            simp only
            rw [Option.map_map, Option.map_map, hcomm, ← Option.map_map, ← Option.map_map, ← hfull,
              ← hfull', hreq]

theorem forgetStatus_getStatusPdu (s : AmRx) (maxPduSize : Nat) :
    s.forgetStatus.getStatusPdu maxPduSize = s.getStatusPdu maxPduSize := by
  have hloop : ∀ (fuel i : Nat) (status : StatusPdu),
      statusLoop s.forgetStatus maxPduSize fuel i status = statusLoop s maxPduSize fuel i status := by
    intro fuel
    induction fuel with
    | zero => exact fun _ _ => rfl
    | succ fuel ih =>
      intro i status
      unfold statusLoop
      rw [ih]
      rfl
  exact hloop _ _ _

theorem forgetStatus_step (s : AmRx) (op : Op) :
    (s.forgetStatus.step op).map (fun r => (r.1.forgetStatus, r.2)) =
      (s.step op).map fun r => (r.1.forgetStatus, r.2) := by
  cases op with
  | writePdu bytes =>
    have hwrite : (s.forgetStatus.writePdu bytes).map forgetStatus =
        (s.writePdu bytes).map forgetStatus := by
      unfold writePdu
      cases readDataPduHeader bytes with
      | none => rfl
      | some r =>
        simp only
        split
        · rfl
        · split
          · exact forgetStatus_handleDataPduSegment s _ _
          · exact forgetStatus_handleDataPdu s _ _
    have hpair := congrArg (Option.map fun t : AmRx => (t, (none : Option StatusPdu))) hwrite
    simpa only [step, Option.map_map, Function.comp_def] using hpair
  | timerExpired =>
    have htimer : s.forgetStatus.timerExpired.forgetStatus = s.timerExpired.forgetStatus := by
      unfold timerExpired
      show (if !s.reorderingTimer.isRunning then _ else _ : AmRx).forgetStatus = _
      split
      · rfl
      · by_cases h : s.rxModBase s.vrH > s.rxModBase (firstMissing s.rxWindow amMod s.vrX)
        · rw [if_pos (by exact h), if_pos (by exact h)]
          rfl
        · rw [if_neg (by exact h), if_neg (by exact h)]
          rfl
    exact congrArg (fun t => some (t, (none : Option StatusPdu))) htimer
  | getStatusPdu maxPduSize =>
    unfold step
    simp only [forgetStatus_getStatusPdu]
    unfold afterStatusPdu
    rw [forgetStatus_getStatusPdu]
    split <;> rfl
  | stop => rfl

/-- No report depends on the status request. -/
theorem run_forgetStatus {s t : AmRx} (h : s.forgetStatus = t.forgetStatus) (ops : List Op) :
    (run step s ops).map Prod.snd = (run step t ops).map Prod.snd := by
  refine run_snd_eq_of_eq forgetStatus (fun s t op hst => ?_) ops s t h
  rw [← forgetStatus_step s, ← forgetStatus_step t, hst]

/-! ### Discards -/

/-- The call has left no trace but a status request: the window with its payloads, the segments and
the state variables are as before, and every later report is the one that would have come without
the call. -/
structure Unchanged (s t : AmRx) : Prop where
  state : t = { s with doStatus := t.doStatus }
  reports : ∀ ops, (run step t ops).map Prod.snd = (run step s ops).map Prod.snd

/-- Whenever `handle_data_pdu` discards the PDU, nothing has changed. -/
def DiscardsAtomic (s : AmRx) (header : AmdHeader) (payload : Bytes) (alloc : Bool) : Prop :=
  ∀ t outcome, s.handleDataPduAlloc header payload alloc = some (t, outcome) →
    outcome ≠ .stored → Unchanged s t

theorem unchanged_of_eq {s t : AmRx} (h : t = { s with doStatus := t.doStatus }) : Unchanged s t :=
  ⟨h, run_forgetStatus (by rw [h]; rfl)⟩

theorem handleDataPduAlloc_noRoom {s : AmRx} {header : AmdHeader} {payload : Bytes}
    (haccepts : s.acceptsPdu header payload = true) (hroom : bufferTailroom < payload.length) :
    s.handleDataPduAlloc header payload true =
      some ({ s with rxWindow := s.rxWindow.overwrite header.sn ⟨emptyHeader, []⟩ }, .noRoom) := by
  simp only [acceptsPdu, Bool.and_eq_true, decide_eq_true_eq, Bool.not_eq_true'] at haccepts
  obtain ⟨⟨hli, hin⟩, hnew⟩ := haccepts
  rw [handleDataPduAlloc, if_neg (Nat.not_lt_of_le hli), if_neg (by simp [hin]),
    if_neg (by simp [hnew])]
  simp only [Bool.not_true, Bool.false_eq_true, if_false]
  rw [if_pos hroom]

theorem not_discardsAtomic_of_noRoom {s : AmRx} {header : AmdHeader} {payload : Bytes}
    (haccepts : s.acceptsPdu header payload = true) (hroom : bufferTailroom < payload.length) :
    ¬ s.DiscardsAtomic header payload true := by
  intro h
  have hsame := (h _ _ (handleDataPduAlloc_noRoom haccepts hroom) (by decide)).state
  have hwindow : s.rxWindow.overwrite header.sn ⟨emptyHeader, []⟩ = s.rxWindow :=
    congrArg rxWindow hsame
  have hin : (s.rxWindow.overwrite header.sn ⟨emptyHeader, []⟩).contains header.sn = true :=
    (CircularMap.contains_overwrite _ _ _ _).mpr (.inl rfl)
  simp only [acceptsPdu, Bool.and_eq_true, Bool.not_eq_true'] at haccepts
  rw [hwindow, haccepts.2] at hin
  cases hin

/-- The branches that return a discarded PDU, with a buffer. -/
theorem handleDataPduAlloc_discard {s t : AmRx} {header : AmdHeader} {payload : Bytes}
    {outcome : DataOutcome}
    (hcall : s.handleDataPduAlloc header payload true = some (t, outcome))
    (hdiscard : outcome ≠ .stored) :
    t = { s with doStatus := t.doStatus } ∨
      s.acceptsPdu header payload = true ∧ bufferTailroom < payload.length := by
  unfold handleDataPduAlloc at hcall
  split at hcall
  · cases hcall
    exact .inl rfl
  · rename_i hli
    split at hcall
    · cases hcall
      exact .inl rfl
    · rename_i hin
      split at hcall
      · cases hcall
        exact .inl rfl
      · rename_i hnew
        simp only [Bool.not_true, Bool.false_eq_true, if_false] at hcall
        split at hcall
        · rename_i hroom
          refine .inr ⟨?_, hroom⟩
          simp only [Bool.not_eq_true, Bool.not_eq_false'] at hin hnew
          simp [acceptsPdu, Nat.le_of_not_lt hli, hin, hnew]
        · obtain ⟨t', -, ht⟩ := Option.map_eq_some_iff.mp hcall
          cases ht
          exact absurd rfl hdiscard

/-- The discards of a data PDU are atomic exactly when the PDU is not one that passes the first
checks, gets a buffer and does not fit it. -/
theorem discardsAtomic_iff {ops : List AllocOp} {s : AmRx} {reports : List (Option StatusPdu)}
    (hrun : run stepAlloc init ops = some (s, reports)) {header : AmdHeader}
    (hsn : header.sn < amMod) (payload : Bytes) (alloc : Bool) :
    s.DiscardsAtomic header payload alloc ↔
      ¬ (s.acceptsPdu header payload = true ∧ alloc = true ∧ bufferTailroom < payload.length) := by
  have hkeys := keysInside_of_run hrun
  constructor
  · rintro h ⟨haccepts, rfl, hroom⟩
    exact not_discardsAtomic_of_noRoom haccepts hroom h
  · intro h t outcome hcall hdiscard
    cases alloc with
    | false => exact unchanged_of_eq (handleDataPduAlloc_false hkeys hsn payload hcall)
    | true =>
      rcases handleDataPduAlloc_discard hcall hdiscard with hsame | ⟨haccepts, hroom⟩
      · exact unchanged_of_eq hsame
      · exact absurd ⟨haccepts, rfl, hroom⟩ h

/-- A PDU that gets no buffer. -/
theorem discardsAtomic_noBuffer :
    DiscardsAtomic init { emptyHeader with sn := 5 } [1] false := by
  have hrun : run stepAlloc init [] = some (init, []) := rfl
  exact (discardsAtomic_iff hrun (by decide) [1] false).mpr (by decide)

/-- The first PDU does not fit its buffer. When the PDU behind it has arrived, the next report
acknowledges both. -/
theorem not_discardsAtomic_noRoom :
    ¬ DiscardsAtomic init emptyHeader (List.replicate 12238 0) true ∧
      ∃ t, handleDataPduAlloc init emptyHeader (List.replicate 12238 0) true = some (t, .noRoom) ∧
        (run step t [.writePdu [128, 1, 7], .getStatusPdu 10]).map Prod.snd =
          some [none, some ⟨2, []⟩] := by
  have hroom : bufferTailroom < (List.replicate 12238 (0 : UInt8)).length := by
    rw [List.length_replicate]
    decide
  have haccepts : init.acceptsPdu emptyHeader (List.replicate 12238 0) = true := by
    rw [acceptsPdu, List.length_replicate]
    decide
  exact ⟨not_discardsAtomic_of_noRoom haccepts hroom, _,
    handleDataPduAlloc_noRoom haccepts hroom, by decide⟩

end Odss.Rlc.AmRx
