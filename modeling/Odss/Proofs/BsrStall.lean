import Odss.Lib.Run
import Odss.Ue.ProcBsr

/-!
# `Odss.Proofs.BsrStall`: buffered data is reported or its report is due

While some group has data in its remembered levels, a Regular or Periodic BSR is triggered or the
retxBSR timer is running. A MAC reset that keeps the levels but clears the trigger and the timers breaks
this, and then the backlog can stay unreported as long as no new data arrives.

* `Reported` is the invariant, and `reported_event` is about one event.
* `pending_step` says what a step does with a backlog.
* `noSilentStall_of_within` is the result for runs.
-/

set_option linter.all false

namespace Odss.Ue.BsrProc

open Odss.Lib

variable {s : State}

/-! ### The invariant -/

/-- A Regular or Periodic BSR is triggered, or the retxBSR timer is running. -/
def Pending (s : State) : Prop :=
  s.triggeredBsrType = .regular ∨ s.triggeredBsrType = .periodic ∨ s.timerRetx.running = true

/-- The retxBSR timer is configured, and a report is pending while the remembered levels of a group are
not zero. -/
structure Reported (s : State) : Prop where
  configured : s.timerRetx.duration ≠ 0
  pending : ∀ lcg, s.getBufferStateLcg lcg ≠ 0 → Pending s

theorem checkAnyChannel_iff : s.checkAnyChannel = true ↔ ∃ lcg, s.getBufferStateLcg lcg ≠ 0 := by
  simp [State.checkAnyChannel]

/-- A change of the levels that leaves the report pending. -/
theorem Reported.of_pending (h : s.timerRetx.duration ≠ 0) (hpending : Pending s) : Reported s :=
  ⟨h, fun _ _ => hpending⟩

/-! ### UL grants -/

theorem generateBsr_keeps (bsr : Bsr) (pduSpace : Nat) (s : State) :
    (s.generateBsr bsr pduSpace).2.2.timerRetx = s.timerRetx ∧
      (s.generateBsr bsr pduSpace).2.2.lcgs = s.lcgs := by
  simp only [State.generateBsr]
  split <;> exact ⟨rfl, rfl⟩

/-- After `need_to_send_bsr_on_ul_grant` the retxBSR timer is running. -/
theorem needToSendBsr_running (grantSize totalData : Nat) (bsr : Bsr) (h : s.timerRetx.duration ≠ 0) :
    (s.needToSendBsrOnUlGrant grantSize totalData bsr).2.2.timerRetx =
      { s.timerRetx with running := true } := by
  have hkeep : ∀ r : Bool × Bsr × State, r.2.2.timerRetx = s.timerRetx →
      (if r.2.2.timerRetx.duration ≠ 0 then
        { ({ r.2.2 with srStarted := false } : State) with
          timerRetx := { r.2.2.timerRetx with running := true } }
      else { r.2.2 with srStarted := false }).timerRetx = { s.timerRetx with running := true } := by
    intro r hr
    rw [hr, if_pos h]
  refine hkeep _ ?_
  split
  · split
    · rfl
    · exact (generateBsr_keeps bsr grantSize s).1
  · rfl

theorem generatePaddingBsr_timerRetx (nofPaddingBytes : Nat) (bsr : Bsr) (s : State) :
    (s.generatePaddingBsr nofPaddingBytes bsr).2.2.timerRetx = s.timerRetx := by
  simp only [State.generatePaddingBsr]
  split
  · exact (generateBsr_keeps bsr nofPaddingBytes _).1
  · rfl

theorem updateBsrTtiEnd_timerRetx (bsr : Bsr) (s : State) :
    (s.updateBsrTtiEnd bsr).timerRetx = s.timerRetx := by
  rw [State.updateBsrTtiEnd]
  split <;> rfl

theorem ulGrant_running (grant : UlGrant) (h : s.timerRetx.duration ≠ 0) :
    (s.ulGrant grant).timerRetx = { s.timerRetx with running := true } := by
  rw [State.ulGrant, updateBsrTtiEnd_timerRetx]
  split
  · rw [generatePaddingBsr_timerRetx, needToSendBsr_running _ _ _ h]
  · exact needToSendBsr_running _ _ _ h

/-! ### Steps -/

/-- New data in a group without any triggers a Regular BSR. -/
theorem checkNewData_of_empty {lcg : Fin nofLcg} {lcid : Nat} {ch : Lcid} {rlc : Nat → UInt32}
    (hch : (lcid, ch) ∈ (s.lcgs lcg).entries) (hrlc : 0 < rlc lcid)
    (hempty : s.getBufferStateLcg lcg = 0) : (s.updateNewData rlc).checkNewData = true := by
  have hlevels : (s.updateNewData rlc).getBufferStateLcg lcg = s.getBufferStateLcg lcg := by
    simp only [State.getBufferStateLcg, State.levels, State.updateNewData, OrdMap.mapValues,
      List.map_map]
    rfl
  have hnew : { ch with newBuffer := rlc lcid } ∈ ((s.updateNewData rlc).lcgs lcg).values := by
    simp only [State.updateNewData, OrdMap.mapValues, OrdMap.values, List.map_map, List.mem_map]
    exact ⟨(lcid, ch), hch, rfl⟩
  rw [State.checkNewData, List.any_eq_true]
  refine ⟨lcg, List.mem_finRange lcg, ?_⟩
  rw [Bool.and_eq_true, hlevels, List.any_eq_true]
  exact ⟨decide_eq_true hempty, _, hnew, decide_eq_true hrlc⟩

/-- At the end of a step in which a channel has a backlog, a report is pending. -/
theorem pending_step (h : Reported s) {rlc : Nat → UInt32} {lcg : Fin nofLcg} {lcid : Nat} {ch : Lcid}
    (hch : (lcid, ch) ∈ (s.lcgs lcg).entries) (hrlc : 0 < rlc lcid) : Pending (s.step rlc) := by
  simp only [State.step]
  split
  · exact .inl rfl
  · rename_i hcheck
    -- No new data: the group had some before.
    have hsome : s.getBufferStateLcg lcg ≠ 0 := by
      intro hempty
      rw [checkNewData_of_empty hch hrlc hempty] at hcheck
      exact hcheck rfl
    exact h.pending lcg hsome

theorem exists_of_levels_ne_zero (entries : List (Nat × Lcid)) :
    State.levels entries ≠ 0 → ∃ e ∈ entries, 0 < e.2.oldBuffer := by
  induction entries with
  | nil => intro h; exact absurd rfl h
  | cons e entries ih =>
    intro h
    by_cases hzero : e.2.oldBuffer = 0
    · have htail : State.levels entries ≠ 0 := by
        intro hno
        apply h
        simp only [State.levels, List.map_cons, List.sum_cons] at hno ⊢
        rw [hzero, hno]
        rfl
      obtain ⟨e', hmem, hpos⟩ := ih htail
      exact ⟨e', List.mem_cons_of_mem e hmem, hpos⟩
    · exact ⟨e, List.mem_cons_self, UInt32.pos_iff_ne_zero.mpr hzero⟩

theorem reported_step (h : Reported s) (rlc : Nat → UInt32) : Reported (s.step rlc) := by
  refine ⟨?_, fun lcg hlcg => ?_⟩
  · simp only [State.step]
    split <;> exact h.configured
  · -- The levels are what RLC had in this step.
    have hentries : ((s.step rlc).lcgs lcg).entries =
        (s.lcgs lcg).entries.map fun e => (e.1, { e.2 with
          newBuffer := rlc e.1, oldBuffer := rlc e.1 }) := by
      have hlcgs : ((s.updateNewData rlc).updateOldBuffer.lcgs lcg).entries =
          (s.lcgs lcg).entries.map fun e => (e.1, { e.2 with
            newBuffer := rlc e.1, oldBuffer := rlc e.1 }) := by
        simp only [State.updateOldBuffer, State.updateNewData, OrdMap.mapValues, List.map_map]
        rfl
      rw [← hlcgs]
      simp only [State.step]
      split <;> rfl
    obtain ⟨e, hmem, hpos⟩ := exists_of_levels_ne_zero _ hlcg
    rw [hentries, List.mem_map] at hmem
    obtain ⟨⟨lcid, ch⟩, hch, rfl⟩ := hmem
    exact pending_step h hch hpos

/-! ### Events -/

/-- What an event has to meet: a reset finds no data remembered, and a channel that is set up while
nothing is pending leaves no data remembered in its groups. -/
def Guard (s : State) : Event → Prop
  | .reset => ∀ lcg, s.getBufferStateLcg lcg = 0
  | .setupLcid lcid newLcg _ => newLcg < nofLcg → Pending s ∨
    ∀ lcg, State.levels ((s.lcgs lcg).erase lcid).entries = 0
  | _ => True

/-- A new channel has no level. -/
theorem levels_insertEntry (lcid : Nat) (priority : Int) (entries : List (Nat × Lcid))
    (habsent : ∀ e ∈ entries, e.1 ≠ lcid) :
    State.levels (OrdMap.insertEntry lcid ⟨priority, 0, 0⟩ entries) = State.levels entries := by
  induction entries with
  | nil => rfl
  | cons e entries ih =>
    obtain ⟨lcid', ch⟩ := e
    have hne : lcid' ≠ lcid := habsent _ List.mem_cons_self
    rw [OrdMap.insertEntry]
    split
    · simp [State.levels]
    · rw [if_neg (Ne.symm hne)]
      have htail := ih fun e he => habsent e (List.mem_cons_of_mem _ he)
      simp only [State.levels, List.map_cons, List.sum_cons] at htail ⊢
      rw [htail]

theorem reported_setupLcid (h : Reported s) {lcid newLcg : Nat} {priority : Int}
    (hguard : Guard s (.setupLcid lcid newLcg priority)) :
    Reported (s.setupLcid lcid newLcg priority) := by
  rw [State.setupLcid]
  by_cases hlcg : newLcg < nofLcg
  · rw [dif_pos hlcg]
    refine ⟨h.configured, fun lcg hne => ?_⟩
    rcases hguard hlcg with hpending | hzero
    · exact hpending
    · -- The other channels of the group have nothing.
      refine absurd ?_ hne
      have habsent : ∀ e ∈ ((s.lcgs lcg).erase lcid).entries, e.1 ≠ lcid := by
        intro e he
        simpa using (List.mem_filter.mp he).2
      simp only [State.getBufferStateLcg]
      split
      · exact (levels_insertEntry lcid priority _ habsent).trans (hzero lcg)
      · exact hzero lcg
  · rw [dif_neg hlcg]
    exact h

theorem Timer.configure_keeps {timer timer' : Timer} {duration : Int} (h : timer.duration ≠ 0)
    (ht : timer.configure duration = some timer') :
    timer'.running = timer.running ∧ timer'.duration ≠ 0 := by
  rw [Timer.configure] at ht
  split at ht
  · rw [Timer.set] at ht
    split at ht
    · cases ht
      refine ⟨rfl, ?_⟩
      show max duration.toNat 1 ≠ 0
      omega
    · cases ht
  · cases ht
    exact ⟨rfl, h⟩

/-- A new configuration leaves a configured retxBSR timer configured, and running if it was. -/
theorem reported_setConfig (h : Reported s) {cfg : BsrCfg} {t : State}
    (ht : s.setConfig cfg = some t) : Reported t := by
  simp only [State.setConfig, Option.bind_eq_bind, Option.bind_eq_some_iff] at ht
  obtain ⟨timerPeriodic, -, timerRetx, hretx, ht⟩ := ht
  cases ht
  have hkeeps := Timer.configure_keeps h.configured hretx
  refine ⟨hkeeps.2, fun lcg hlcg => ?_⟩
  rcases h.pending lcg hlcg with hregular | hperiodic | hrunning
  · exact .inl hregular
  · exact .inr (.inl hperiodic)
  · exact .inr (.inr (hkeeps.1.trans hrunning))

/-- An event within the guard keeps the invariant. -/
theorem reported_event {ev : Event} {s' : State} {u : Unit} (h : Reported s) (hguard : Guard s ev)
    (hs' : step s ev = some (s', u)) : Reported s' := by
  cases ev with
  | step rlc =>
    cases hs'
    exact reported_step h rlc
  | ulGrant grant =>
    cases hs'
    have hrunning := ulGrant_running grant h.configured
    refine Reported.of_pending ?_ (.inr (.inr ?_))
    · rw [hrunning]
      exact h.configured
    · rw [hrunning]
  | timerPeriodicExpired =>
    simp only [step] at hs'
    split at hs'
    · cases hs'
      simp only [State.timerPeriodicExpired]
      split
      · exact Reported.of_pending h.configured (.inr (.inl rfl))
      · exact ⟨h.configured, h.pending⟩
    · cases hs'
  | timerRetxExpired =>
    simp only [step] at hs'
    split at hs'
    · cases hs'
      simp only [State.timerRetxExpired]
      split
      · exact Reported.of_pending h.configured (.inl rfl)
      · rename_i hnone
        refine ⟨h.configured, fun lcg hlcg => ?_⟩
        exact absurd (checkAnyChannel_iff.mpr ⟨lcg, hlcg⟩) hnone
    · cases hs'
  | reset =>
    cases hs'
    exact ⟨h.configured, fun lcg hlcg => absurd (hguard lcg) hlcg⟩
  | setConfig cfg =>
    obtain ⟨t, ht, ht'⟩ := Option.map_eq_some_iff.mp hs'
    cases ht'
    exact reported_setConfig h ht
  | setupLcid lcid newLcg priority =>
    cases hs'
    exact reported_setupLcid h hguard

/-! ### Runs -/

/-- At the end of every step in which a configured channel has a backlog, a Regular or Periodic BSR is
triggered or the retxBSR timer is running. -/
def NoSilentStall (s : State) (events : List Event) : Prop :=
  ∀ pre rlc post, events = pre ++ .step rlc :: post → ∀ t us, run step s pre = some (t, us) →
    (∃ lcg, ∃ e ∈ (t.lcgs lcg).entries, 0 < rlc e.1) → Pending (t.step rlc)

/-- A procedure without channels, with a retxBSR timer. -/
def configured (periodicTimer retxTimer : Nat) : State :=
  { State.init with timerPeriodic := ⟨periodicTimer, false⟩, timerRetx := ⟨retxTimer, false⟩ }

/-- In a run of events within the guard, with a configured retxBSR timer, buffered data never stalls
silently. -/
theorem noSilentStall_of_within (periodicTimer retxTimer : Nat) (hretx : 0 < retxTimer)
    (events : List Event)
    (hwithin : StepsWithin step Guard (configured periodicTimer retxTimer) events) :
    NoSilentStall (configured periodicTimer retxTimer) events := by
  have hinit : Reported (configured periodicTimer retxTimer) :=
    ⟨Nat.ne_of_gt hretx, fun _ hno => absurd rfl hno⟩
  intro pre rlc post hevents t us hrun hbacklog
  rw [hevents] at hwithin
  have ht : Reported t := run_invariant_of_within Reported
    (fun s ev s' u h hguard hs' => reported_event (u := u) h hguard hs') pre _ t us hinit
    (stepsWithin_append hwithin).1 hrun
  obtain ⟨lcg, ⟨lcid, ch⟩, hch, hrlc⟩ := hbacklog
  exact pending_step ht hch hrlc

/-- One channel with data, a grant that takes it, and a reset. -/
theorem noSilentStall_one_channel :
    NoSilentStall (configured 0 2560)
      [.setupLcid 3 0 7, .step (fun _ => 100), .ulGrant ⟨200, 102, fun _ => 0, fun _ => 0, some 98⟩,
        .reset, .step (fun _ => 100)] := by
  apply noSilentStall_of_within 0 2560 (by decide)
  refine ⟨fun _ => .inr (by decide), fun s₁ u₁ hs₁ => ?_⟩
  cases hs₁
  refine ⟨trivial, fun s₂ u₂ hs₂ => ?_⟩
  cases hs₂
  refine ⟨trivial, fun s₃ u₃ hs₃ => ?_⟩
  cases hs₃
  refine ⟨?_, fun _ _ _ => ⟨trivial, fun _ _ _ => trivial⟩⟩
  show ∀ lcg, _ = _
  decide

/-- A reset in the middle clears the trigger, and the same backlog triggers nothing. -/
theorem stalls_after_reset :
    ¬ NoSilentStall (configured 0 2560)
      [.setupLcid 3 0 7, .step (fun _ => 100), .reset, .step (fun _ => 100)] := by
  intro h
  have hpending := h [.setupLcid 3 0 7, .step (fun _ => 100), .reset] (fun _ => 100) [] rfl _ _ rfl
    ⟨0, (3, ⟨7, 100, 100⟩), by decide, by decide⟩
  have hregular : ∀ t : State, Pending t → t.triggeredBsrType = .none → t.timerRetx.running = false →
      False := by
    intro t ht htrigger htimer
    rcases ht with ht | ht | ht
    · rw [htrigger] at ht
      cases ht
    · rw [htrigger] at ht
      cases ht
    · rw [htimer] at ht
      cases ht
  exact hregular _ hpending (by decide) (by decide)

end Odss.Ue.BsrProc
