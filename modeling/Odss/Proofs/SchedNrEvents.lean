import Odss.Lib.Run
import Odss.MacNr.SchedWorker

/-!
# `Odss.Proofs.SchedNrEvents`: UE events of the NR scheduler are executed once

The events of a slot are filtered twice: under the slot lock for the UEs that are unknown or have CA, and
by every worker for the UEs without CA. No event is lost and none is executed twice as long as no event
moves its UE from one side to the other before the events of this UE are through.

* `processEvents_locked` and `processEvents_unlocked` tell which events a pass executes.
* `startSlot_spec` is about the first call for a slot, `update_quiet` about the others.
* `eventsOnce_of_within` is the result for runs.
-/

set_option linter.all false

namespace Odss.MacNr.Sched

open Odss.Lib

variable {κ α γ : Type}

/-! ### UEs without CA -/

/-- The UE is known and has no CA. -/
def withoutCa (ueDb : UeMap κ α) (rnti : Nat) : Bool := (ueDb.find? rnti).any fun u => !u.hasCa

/-- The callback takes a UE without CA to the other UEs. -/
def Callback.leaves : Callback κ → Bool
  | .ueCfg cfg => cfg.hasCa
  | .ueRem => true
  | _ => false

theorem executes_locked (rnti : Nat) (ueDb : UeMap κ α) :
    executes true rnti ueDb = !withoutCa ueDb rnti := by
  rw [executes, withoutCa, CircularMap.contains]
  cases ueDb.find? rnti <;> simp

theorem executes_unlocked (rnti : Nat) (ueDb : UeMap κ α) :
    executes false rnti ueDb = withoutCa ueDb rnti := by
  rw [executes, withoutCa]
  cases ueDb.find? rnti <;> simp

theorem withoutCa_prepareUes (ops : UeOps κ α γ) (slotTx : Nat) (lockedContext : Bool)
    (ueDb : UeMap κ α) (rnti : Nat) :
    withoutCa (prepareUes ops slotTx lockedContext ueDb) rnti = withoutCa ueDb rnti := by
  rw [withoutCa, withoutCa, prepareUes, CircularMap.find?_mapValues]
  cases ueDb.find? rnti with
  | none => rfl
  | some u =>
    simp only [Option.map_some, Option.any_some]
    split <;> rfl

/-- A callback does not touch the other UEs. -/
theorem find?_execute_of_ne (ops : UeOps κ α γ) (callback : Callback κ) (ueDb : UeMap κ α)
    {rnti rnti' : Nat} (h : rnti' ≠ rnti) :
    (callback.execute ops rnti ueDb).find? rnti' = ueDb.find? rnti' := by
  cases callback with
  | ueCfg cfg =>
    simp only [Callback.execute, ueCfgImpl]
    split
    · split
      · rename_i hfree
        rw [CircularMap.find?_overwrite, if_neg h]
        split
        · -- The slot of the new UE was free, so that the other one is not there.
          rename_i hslot
          cases hfind : ueDb.find? rnti' with
          | none => rfl
          | some u =>
            have hno := CircularMap.slot?_eq_none_iff.mp (Option.isNone_iff_eq_none.mp hfree) rnti'
              (CircularMap.contains_iff.mpr ⟨u, hfind⟩)
            exact absurd hslot hno
        · rfl
      · rfl
    · rw [CircularMap.find?_modify, if_neg h]
  | ueRem =>
    simp only [Callback.execute]
    split
    · rw [CircularMap.find?_erase, if_neg h]
    · rfl
  | ulSrInfo | ulBsr _ _ | dlBufferState _ _ _ =>
    simp only [Callback.execute]
    split
    · rw [CircularMap.find?_modify, if_neg h]
    · rfl

theorem withoutCa_execute_of_ne (ops : UeOps κ α γ) (callback : Callback κ) (ueDb : UeMap κ α)
    {rnti rnti' : Nat} (h : rnti' ≠ rnti) :
    withoutCa (callback.execute ops rnti ueDb) rnti' = withoutCa ueDb rnti' := by
  rw [withoutCa, withoutCa, find?_execute_of_ne ops callback ueDb h]

/-- A change that keeps the configuration of a UE. -/
theorem withoutCa_modify_other (ueDb : UeMap κ α) (rnti : Nat) (f : α → α) :
    withoutCa (ueDb.modify rnti fun u => { u with other := f u.other }) rnti =
      withoutCa ueDb rnti := by
  rw [withoutCa, withoutCa, CircularMap.find?_modify, if_pos rfl]
  cases ueDb.find? rnti <;> rfl

theorem withoutCa_execute_of_withoutCa (ops : UeOps κ α γ) (callback : Callback κ)
    {ueDb : UeMap κ α} {rnti : Nat} (h : withoutCa ueDb rnti = true) :
    withoutCa (callback.execute ops rnti ueDb) rnti = !callback.leaves := by
  obtain ⟨u, hu⟩ : ∃ u, ueDb.find? rnti = some u := by
    cases hfind : ueDb.find? rnti with
    | none => rw [withoutCa, hfind] at h; cases h
    | some u => exact ⟨u, rfl⟩
  have hcontains : ueDb.contains rnti = true := CircularMap.contains_iff.mpr ⟨u, hu⟩
  cases callback with
  | ueCfg cfg =>
    simp only [Callback.execute, ueCfgImpl, hcontains, Bool.not_true, Bool.false_eq_true, if_false]
    rw [withoutCa, CircularMap.find?_modify, if_pos rfl, hu]
    rfl
  | ueRem =>
    simp only [Callback.execute, hcontains, if_true]
    rw [withoutCa, CircularMap.find?_erase, if_pos rfl]
    rfl
  | ulSrInfo | ulBsr _ _ | dlBufferState _ _ _ =>
    simp only [Callback.execute, hcontains, if_true]
    rw [withoutCa_modify_other, h]
    rfl

/-- The callback does not configure the UE without CA, or does so where the UE cannot be created, as
another one is in its slot. -/
def KeepsCa (callback : Callback κ) (rnti : Nat) (ueDb : UeMap κ α) : Prop :=
  ∀ cfg, callback = .ueCfg cfg → cfg.hasCa = false →
    ueDb.contains rnti = false ∧ ueDb.slot? rnti ≠ none

/-- A UE that is unknown or has CA stays so when the callback keeps this. -/
theorem withoutCa_execute_of_keepsCa (ops : UeOps κ α γ) {callback : Callback κ}
    {ueDb : UeMap κ α} {rnti : Nat} (h : withoutCa ueDb rnti = false)
    (hkeeps : KeepsCa callback rnti ueDb) :
    withoutCa (callback.execute ops rnti ueDb) rnti = false := by
  cases callback with
  | ueCfg cfg =>
    cases hca : cfg.hasCa with
    | false =>
      obtain ⟨hcontains, hslot⟩ := hkeeps cfg rfl hca
      have htaken : (ueDb.slot? rnti).isNone = false := by
        rwa [← Bool.not_eq_true, Option.isNone_iff_eq_none]
      simp only [Callback.execute, ueCfgImpl, hcontains, htaken, Bool.not_false, if_true,
        Bool.false_eq_true, if_false]
      exact h
    | true =>
      simp only [Callback.execute, ueCfgImpl]
      split
      · split
        · rw [withoutCa, CircularMap.find?_overwrite_self]
          simp [Ue.hasCa, hca]
        · exact h
      · rw [withoutCa, CircularMap.find?_modify, if_pos rfl]
        cases ueDb.find? rnti with
        | none => rfl
        | some u => simp [Ue.hasCa, hca]
  | ueRem =>
    simp only [Callback.execute]
    split
    · rw [withoutCa, CircularMap.find?_erase, if_pos rfl]
      rfl
    · exact h
  | ulSrInfo | ulBsr _ _ | dlBufferState _ _ _ =>
    simp only [Callback.execute]
    split
    · rw [withoutCa_modify_other, h]
    · exact h

/-! ### The two passes over the events of a slot -/

/-- The callbacks of the UEs that satisfy `p`, in order. -/
def applied (ops : UeOps κ α γ) (p : Nat → Bool) (evs : List (UeEvent κ)) (ueDb : UeMap κ α) :
    UeMap κ α :=
  evs.foldl (fun db ev => if p ev.rnti then ev.callback.execute ops ev.rnti db else db) ueDb

/-- Each callback for a UE that satisfies `p` keeps it from being without CA, when it comes after the
callbacks before it. -/
def AllKeepCa (ops : UeOps κ α γ) (p : Nat → Bool) (evs : List (UeEvent κ)) (ueDb : UeMap κ α) :
    Prop :=
  ∀ pre ev post, evs = pre ++ ev :: post → p ev.rnti = true →
    KeepsCa ev.callback ev.rnti (applied ops p pre ueDb)

/-- A callback that makes a UE leave those without CA is the last one for this UE. -/
def LeavesLast (p : Nat → Bool) (evs : List (UeEvent κ)) : Prop :=
  ∀ pre ev post, evs = pre ++ ev :: post → p ev.rnti = true → ev.callback.leaves = true →
    ∀ ev' ∈ post, ev'.rnti ≠ ev.rnti

/-- The pass under the lock executes the events of the UEs that are not without CA, and the UEs without
CA stay the same ones. -/
theorem processEvents_locked (ops : UeOps κ α γ) (p : Nat → Bool) (evs : List (UeEvent κ)) :
    ∀ ueDb, (∀ rnti, withoutCa ueDb rnti = !p rnti) → AllKeepCa ops p evs ueDb →
      (processEvents ops true evs ueDb).2 = evs.filter (fun ev => p ev.rnti) ∧
        ∀ rnti, withoutCa (processEvents ops true evs ueDb).1 rnti = !p rnti := by
  induction evs with
  | nil =>
    intro ueDb hp _
    exact ⟨rfl, hp⟩
  | cons ev evs ih =>
    intro ueDb hp hkeep
    have hrun : executes true ev.rnti ueDb = p ev.rnti := by
      rw [executes_locked, hp, Bool.not_not]
    have htail : AllKeepCa ops p evs
        (if p ev.rnti then ev.callback.execute ops ev.rnti ueDb else ueDb) := by
      intro pre ev' post hevs hp'
      exact hkeep (ev :: pre) ev' post (by rw [hevs, List.cons_append]) hp'
    rw [processEvents, hrun]
    cases hev : p ev.rnti with
    | false =>
      simp only [hev, Bool.false_eq_true, if_false] at htail
      simp only [Bool.false_eq_true, if_false]
      rw [List.filter_cons_of_neg (by simp [hev])]
      exact ih ueDb hp htail
    | true =>
      simp only [hev, if_true] at htail
      simp only [if_true]
      rw [List.filter_cons_of_pos (by simpa using hev)]
      have hp' : ∀ rnti, withoutCa (ev.callback.execute ops ev.rnti ueDb) rnti = !p rnti := by
        intro rnti
        by_cases hself : rnti = ev.rnti
        · subst hself
          rw [hev]
          refine withoutCa_execute_of_keepsCa ops ?_ (hkeep [] ev evs rfl hev)
          rw [hp, hev]
          rfl
        · rw [withoutCa_execute_of_ne ops _ _ hself, hp]
      obtain ⟨hlog, hdb⟩ := ih _ hp' htail
      exact ⟨by rw [hlog], hdb⟩

/-- The pass of a worker executes the events of the UEs that are without CA at its start. -/
theorem processEvents_unlocked (ops : UeOps κ α γ) (p : Nat → Bool) (evs : List (UeEvent κ)) :
    ∀ ueDb, (∀ ev ∈ evs, withoutCa ueDb ev.rnti = p ev.rnti) → LeavesLast p evs →
      (processEvents ops false evs ueDb).2 = evs.filter (fun ev => p ev.rnti) := by
  induction evs with
  | nil =>
    intro ueDb _ _
    rfl
  | cons ev evs ih =>
    intro ueDb hp hlast
    have hhead : withoutCa ueDb ev.rnti = p ev.rnti := hp ev List.mem_cons_self
    have htail : LeavesLast p evs := by
      intro pre ev' post hevs
      exact hlast (ev :: pre) ev' post (by rw [hevs, List.cons_append])
    rw [processEvents, executes_unlocked, hhead]
    cases hev : p ev.rnti with
    | false =>
      simp only [Bool.false_eq_true, if_false]
      rw [List.filter_cons_of_neg (by simp [hev])]
      exact ih ueDb (fun ev' hmem => hp ev' (List.mem_cons_of_mem ev hmem)) htail
    | true =>
      simp only [if_true]
      rw [List.filter_cons_of_pos (by simpa using hev)]
      -- The UE of an event that is still to come has not left.
      have hp' : ∀ ev' ∈ evs,
          withoutCa (ev.callback.execute ops ev.rnti ueDb) ev'.rnti = p ev'.rnti := by
        intro ev' hmem
        by_cases hself : ev'.rnti = ev.rnti
        · have hstays : ev.callback.leaves = false := by
            rw [← Bool.not_eq_true]
            intro hleaves
            exact hlast [] ev evs rfl hev hleaves ev' hmem hself
          rw [hself, withoutCa_execute_of_withoutCa ops _ (by rw [hhead, hev]), hstays, hev]
          rfl
        · rw [withoutCa_execute_of_ne ops _ _ hself]
          exact hp ev' (List.mem_cons_of_mem ev hmem)
      rw [ih _ hp' htail]

/-! ### Steps -/

/-- The events of one UE. -/
def ofRnti (rnti : Nat) (evs : List (Nat × UeEvent κ)) : List (Nat × UeEvent κ) :=
  evs.filter fun e => e.2.rnti = rnti

/-- For each UE, the callbacks that were executed, with their slots, are those of the events whose slot
has started, in the order in which these were enqueued. -/
def EventsOnce (s : State κ α γ) : Prop :=
  ∀ rnti, ofRnti rnti s.executed = ofRnti rnti (s.enqueued.filter fun e => e.1 ≤ s.slots)

/-- The events that were enqueued are those of the slots that have started, which are executed, and the
ones for the next slot. -/
def Booked (s : State κ α γ) : Prop :=
  ∃ past, s.enqueued = past ++ s.nextSlotEvents.map (fun ev => (s.slots + 1, ev)) ∧
    (∀ e ∈ past, e.1 ≤ s.slots) ∧ ∀ rnti, ofRnti rnti s.executed = ofRnti rnti past

theorem Booked.eventsOnce {s : State κ α γ} (h : Booked s) : EventsOnce s := by
  obtain ⟨past, henqueued, hpast, hexecuted⟩ := h
  intro rnti
  have hold : past.filter (fun e => e.1 ≤ s.slots) = past :=
    List.filter_eq_self.mpr fun e he => by simpa using hpast e he
  have hnew : (s.nextSlotEvents.map fun ev => (s.slots + 1, ev)).filter
      (fun e => e.1 ≤ s.slots) = [] := by
    rw [List.filter_eq_nil_iff]
    intro e he
    obtain ⟨ev, -, rfl⟩ := List.mem_map.mp he
    simp
  rw [henqueued, List.filter_append, hold, hnew, List.append_nil, hexecuted]

/-- Before the first call for a slot: an event under the lock does not leave its UE without CA, and the
UEs that start without CA are left at their last event. -/
structure Separated (ops : UeOps κ α γ) (s : State κ α γ) : Prop where
  locked : AllKeepCa ops (fun rnti => !withoutCa s.ueDb rnti) s.nextSlotEvents s.ueDb
  unlocked : LeavesLast (withoutCa s.ueDb) s.nextSlotEvents

/-- What each call has to meet: the events of a slot are separated when it starts, and the UEs of its
events are not without CA when another worker comes to it. -/
def Guard (ops : UeOps κ α γ) (s : State κ α γ) : Call κ → Prop
  | .enqueue _ _ => True
  | .runSlot _ _ =>
    match s.currentSlot with
    | none => Separated ops s
    | some _ => ∀ ev ∈ s.slotEvents, withoutCa s.ueDb ev.rnti = false

theorem booked_init (ueDb : UeMap κ α) (cells : γ) : Booked (State.init ueDb cells) :=
  ⟨[], rfl, nofun, fun _ => rfl⟩

theorem booked_enqueueEvent {s : State κ α γ} (h : Booked s) (rnti : Nat) (callback : Callback κ) :
    Booked (s.enqueueEvent rnti callback) := by
  obtain ⟨past, henqueued, hpast, hexecuted⟩ := h
  refine ⟨past, ?_, hpast, hexecuted⟩
  simp only [State.enqueueEvent]
  rw [List.map_append, ← List.append_assoc, ← henqueued]
  rfl

/-- The end of a call for a cell neither executes nor enqueues an event. -/
theorem booked_runCell {ops : UeOps κ α γ} {slotTx cc : Nat} {s s' : State κ α γ}
    (hs' : s.runCell ops slotTx cc = some s') (h : Booked (s.update ops slotTx false)) :
    Booked s' := by
  simp only [State.runCell] at hs'
  split at hs'
  · cases hs'
  · cases hs'
    exact h

theorem update_quiet (ops : UeOps κ α γ) (slotTx : Nat) {s : State κ α γ}
    (hquiet : ∀ ev ∈ s.slotEvents, withoutCa s.ueDb ev.rnti = false) :
    (s.update ops slotTx false).executed = s.executed := by
  have hnone : (processEvents ops false s.slotEvents s.ueDb).2 = [] := by
    rw [processEvents_unlocked ops (fun _ => false) s.slotEvents s.ueDb hquiet
      fun _ _ _ _ hno => by cases hno]
    simp
  simp only [State.update, updateUeDb, hnone, List.map_nil, List.append_nil]

theorem ofRnti_append (rnti : Nat) (evs evs' : List (Nat × UeEvent κ)) :
    ofRnti rnti (evs ++ evs') = ofRnti rnti evs ++ ofRnti rnti evs' := List.filter_append _ _

theorem ofRnti_split (p : Nat → Bool) (slot rnti : Nat) (evs : List (UeEvent κ)) :
    ofRnti rnti ((evs.filter fun ev => !p ev.rnti).map (fun ev => (slot, ev)) ++
      (evs.filter fun ev => p ev.rnti).map (fun ev => (slot, ev))) =
      ofRnti rnti (evs.map fun ev => (slot, ev)) := by
  induction evs with
  | nil => rfl
  | cons ev evs ih =>
    rw [ofRnti_append] at ih ⊢
    cases hp : p ev.rnti with
    | false =>
      rw [List.filter_cons_of_pos (by simp [hp]), List.filter_cons_of_neg (by simp [hp])]
      simp only [List.map_cons, ofRnti, List.filter_cons] at ih ⊢
      split
      · rw [List.cons_append, ih]
      · exact ih
    | true =>
      rw [List.filter_cons_of_neg (by simp [hp]), List.filter_cons_of_pos (by simpa using hp)]
      simp only [List.map_cons, ofRnti, List.filter_cons] at ih ⊢
      split
      · rename_i hr
        have hr : ev.rnti = rnti := by simpa using hr
        -- The other side has no event of this UE.
        have hnone : ((evs.filter fun ev => !p ev.rnti).map fun ev => (slot, ev)).filter
            (fun e => decide (e.2.rnti = rnti)) = [] := by
          rw [List.filter_eq_nil_iff]
          intro e he
          obtain ⟨ev', hev', rfl⟩ := List.mem_map.mp he
          have hne := (List.mem_filter.mp hev').2
          simp only [decide_eq_true_eq]
          intro heq
          rw [heq, ← hr, hp] at hne
          cases hne
        rw [hnone, List.nil_append] at ih ⊢
        rw [ih]
      · exact ih

/-- The first call for a slot executes all its events, each UE's in their order. -/
theorem startSlot_spec {ops : UeOps κ α γ} {nofCells slotTx : Nat} {s : State κ α γ}
    (h : Booked s) (hsep : Separated ops s) :
    Booked ((s.startSlot ops nofCells slotTx).update ops slotTx false) := by
  obtain ⟨past, henqueued, hpast, hexecuted⟩ := h
  let p := withoutCa s.ueDb
  obtain ⟨hlocked, hdb⟩ := processEvents_locked ops (fun rnti => !p rnti) s.nextSlotEvents s.ueDb
    (fun rnti => (Bool.not_not (p rnti)).symm) hsep.locked
  let ueDb := prepareUes ops slotTx true (processEvents ops true s.nextSlotEvents s.ueDb).1
  have hp : ∀ rnti, withoutCa ueDb rnti = p rnti := by
    intro rnti
    rw [withoutCa_prepareUes, hdb, Bool.not_not]
  have hunlocked := processEvents_unlocked ops p s.nextSlotEvents ueDb (fun ev _ => hp ev.rnti)
    hsep.unlocked
  have hlog : ((s.startSlot ops nofCells slotTx).update ops slotTx false).executed =
      s.executed ++ ((s.nextSlotEvents.filter fun ev => !p ev.rnti).map
        (fun ev => (s.slots + 1, ev)) ++ (s.nextSlotEvents.filter fun ev => p ev.rnti).map
        (fun ev => (s.slots + 1, ev))) := by
    rw [← List.append_assoc, ← hunlocked, ← hlocked]
    rfl
  refine ⟨s.enqueued, (List.append_nil _).symm, ?_, ?_⟩
  · intro e he
    show e.1 ≤ s.slots + 1
    rw [henqueued, List.mem_append] at he
    rcases he with he | he
    · exact Nat.le_succ_of_le (hpast e he)
    · obtain ⟨ev, -, rfl⟩ := List.mem_map.mp he
      exact Nat.le_refl _
  · intro rnti
    rw [hlog, ofRnti_append, ofRnti_split, hexecuted, ← ofRnti_append, ← henqueued]

theorem booked_step {ops : UeOps κ α γ} {nofCells : Nat} {s s' : State κ α γ} {call : Call κ}
    {u : Unit} (h : Booked s) (hguard : Guard ops s call)
    (hs' : step ops nofCells s call = some (s', u)) : Booked s' := by
  cases call with
  | enqueue rnti callback =>
    cases callback with
    | ueCfg cfg =>
      simp only [step] at hs'
      split at hs'
      · cases hs'
        exact booked_enqueueEvent h rnti _
      · cases hs'
    | ueRem | ulSrInfo | ulBsr _ _ | dlBufferState _ _ _ =>
      cases hs'
      exact booked_enqueueEvent h rnti _
  | runSlot slotTx cc =>
    obtain ⟨t, ht, ht'⟩ := Option.map_eq_some_iff.mp hs'
    cases ht'
    simp only [State.runSlot] at ht
    split at ht
    · cases hcurrent : s.currentSlot with
      | none =>
        simp only [Guard, hcurrent] at hguard
        rw [hcurrent] at ht
        exact booked_runCell ht (startSlot_spec h hguard)
      | some slot =>
        simp only [Guard, hcurrent] at hguard
        simp only [hcurrent] at ht
        split at ht
        · refine booked_runCell ht ?_
          obtain ⟨past, henqueued, hpast, hexecuted⟩ := h
          refine ⟨past, henqueued, hpast, fun rnti => ?_⟩
          rw [update_quiet ops slotTx hguard]
          exact hexecuted rnti
        · cases ht
    · cases ht

/-! ### Runs -/

/-- In a run of calls within the guard, from a scheduler without events and with any UEs, the events of
each UE are executed once, in the first slot that starts after they were enqueued and in their order. -/
theorem eventsOnce_of_within (ops : UeOps κ α γ) (nofCells : Nat) (ueDb : UeMap κ α) (cells : γ)
    (calls : List (Call κ))
    (hwithin : StepsWithin (step ops nofCells) (Guard ops) (State.init ueDb cells) calls) :
    AlongRun (step ops nofCells) EventsOnce (State.init ueDb cells) calls := by
  have halong := alongRun_of_within Booked
    (fun s call s' u h hguard hs' => booked_step (u := u) h hguard hs') (booked_init ueDb cells)
    hwithin
  intro pre post hcalls t us hrun
  exact (halong pre post hcalls t us hrun).eventsOnce

/-- Events are separated when no UE is configured without CA and only UEs with CA are configured or
removed. -/
theorem separated_of_forall {ops : UeOps κ α γ} {s : State κ α γ}
    (hca : ∀ ev ∈ s.nextSlotEvents, ∀ cfg, ev.callback = .ueCfg cfg → cfg.hasCa = true)
    (hleaves : ∀ ev ∈ s.nextSlotEvents, ev.callback.leaves = true → withoutCa s.ueDb ev.rnti = false) :
    Separated ops s where
  locked := by
    intro pre ev post hevs _ cfg hcfg hno
    have hmem : ev ∈ s.nextSlotEvents := by rw [hevs]; simp
    rw [hca ev hmem cfg hcfg] at hno
    cases hno
  unlocked := by
    intro pre ev post hevs hp hl
    have hmem : ev ∈ s.nextSlotEvents := by rw [hevs]; simp
    rw [hleaves ev hmem hl] at hp
    cases hp

/-- UEs of which the buffer status is kept. -/
def bsrOps : UeOps Unit Nat Unit where
  create _ _ := 0
  setCfg _ bsr := bsr
  ulSrInfo bsr := bsr
  ulBsr _ bsr _ := bsr
  rlcBufferState _ _ _ bsr := bsr
  newSlot _ _ bsr := bsr
  runWorker _ _ _ _ := ((), fun _ bsr => bsr)

/-- A configuration with one carrier, and one with two. -/
def oneCarrier : UeCfg Unit := ⟨[⟨true, 0⟩], [true], ()⟩
def twoCarriers : UeCfg Unit := ⟨[⟨true, 0⟩, ⟨true, 1⟩], [true], ()⟩

/-- A UE without CA sends a BSR, and one with CA is created. -/
theorem eventsOnce_two_ues :
    AlongRun (step bsrOps 1) EventsOnce
      (State.init ((∅ : UeMap Unit Nat).overwrite 70 ⟨oneCarrier, 0⟩) ())
      [.enqueue 70 (.ulBsr 1 5), .enqueue 71 (.ueCfg twoCarriers), .runSlot 0 0] := by
  apply eventsOnce_of_within
  refine ⟨trivial, fun s₁ u₁ hs₁ => ?_⟩
  cases hs₁
  refine ⟨trivial, fun s₂ u₂ hs₂ => ?_⟩
  cases hs₂
  refine ⟨separated_of_forall ?_ ?_, fun _ _ _ => trivial⟩
  · intro ev hev cfg hcfg
    rcases List.mem_pair.mp hev with rfl | rfl
    · cases hcfg
    · cases hcfg
      decide
  · intro ev hev hl
    rcases List.mem_pair.mp hev with rfl | rfl
    · cases hl
    · decide

/-- A new UE without CA is created under the lock, and its worker configures it again. -/
theorem ue_cfg_executed_twice :
    ¬ AlongRun (step bsrOps 1) EventsOnce (State.init ∅ ())
      [.enqueue 70 (.ueCfg oneCarrier), .runSlot 0 0] := by
  intro h
  have hrun : ∃ s us, run (step bsrOps 1) (State.init ∅ ())
      [.enqueue 70 (.ueCfg oneCarrier), .runSlot 0 0] = some (s, us) ∧
      (ofRnti 70 s.executed).length = 2 ∧ s.enqueued.length = 1 := ⟨_, _, rfl, by decide, by decide⟩
  obtain ⟨s, us, hrun, htwo, hone⟩ := hrun
  have honce := h _ [] (List.append_nil _).symm s us hrun 70
  have hle : (ofRnti 70 (s.enqueued.filter fun e => e.1 ≤ s.slots)).length ≤ s.enqueued.length :=
    Nat.le_trans (List.length_filter_le _ _) (List.length_filter_le _ _)
  rw [← honce, htwo, hone] at hle
  omega

end Odss.MacNr.Sched
