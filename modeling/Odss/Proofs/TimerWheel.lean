import Odss.Common.Timers
import Odss.Lib.Run

/-!
# `Odss.Proofs.TimerWheel`: when timers fire

A timer that is started with a duration fires in the step that is the duration behind, and one
that is stopped does not fire. `FiresOnTime` states it about the events of a run.

* `WheelInv` relates the lists of the wheel to the running timers, and `Tracks` the timeouts to
  the events. Each call keeps both (`apply_cases`).
* `LoopInv` is the state in the loop of `stepAll`: the timers that are due are in the part of the
  list that the loop has still to visit.
* `KeepsLoop` is what a callback may do to the loop. It does not take the node that comes next
  out of the list, and it starts no timer for the same step outside of that part.
* `firesOnTime_of_within` is the run.
-/

set_option linter.all false

namespace Odss.Common

open Odss.Lib

namespace TimerHandler

/-! ### The calls of a handler -/

@[simp] theorem timers_storeState (s : TimerHandler) (t state u : Nat) :
    (s.storeState t state).timers u
      = if u = t then { s.timers t with state := state } else s.timers u := rfl

@[simp] theorem timers_pop (s : TimerHandler) (pos t : Nat) : (s.pop pos t).timers = s.timers := rfl

@[simp] theorem timers_pushFront (s : TimerHandler) (pos t : Nat) :
    (s.pushFront pos t).timers = s.timers := rfl

/-- The timers that run are in the lists of their timeouts, each in one place. -/
structure WheelInv (s : TimerHandler) : Prop where
  mem : ∀ t p, t ∈ s.wheel p ↔ s.isRunning t = true ∧ p = wheelPos (s.timeout t)
  nodup : ∀ p, (s.wheel p).Nodup

/-- A state with the same running timers in the same lists. -/
structure SameWheel (s s' : TimerHandler) : Prop where
  curTime : s'.curTime = s.curTime
  wheel : ∀ p, s'.wheel p = s.wheel p
  running : ∀ u, s'.isRunning u = s.isRunning u
  timeout : ∀ u, s.isRunning u = true → s'.timeout u = s.timeout u

/-- A state in which a timer does not run. -/
structure StopsTimer (s s' : TimerHandler) (t : Nat) : Prop where
  curTime : s'.curTime = s.curTime
  wheel : ∀ p, s'.wheel p = (s.wheel p).erase t
  stopped : s'.isRunning t = false
  running : ∀ u, u ≠ t → s'.isRunning u = s.isRunning u
  timeout : ∀ u, u ≠ t → s'.timeout u = s.timeout u

/-- The timer keeps its place in the wheel when it is started again. -/
def Stays (s : TimerHandler) (t newTimeout : Nat) : Prop :=
  s.isRunning t = true ∧ wheelPos (s.timeout t) = wheelPos newTimeout

instance (s : TimerHandler) (t newTimeout : Nat) : Decidable (s.Stays t newTimeout) :=
  inferInstanceAs (Decidable (_ ∧ _))

/-- A state in which a timer was started with a duration. -/
structure StartsTimer (s s' : TimerHandler) (t d : Nat) : Prop where
  curTime : s'.curTime = s.curTime
  stays : s.Stays t ((s.curTime + d) % 2 ^ 32) → ∀ p, s'.wheel p = s.wheel p
  moves : ¬ s.Stays t ((s.curTime + d) % 2 ^ 32) → ∀ p, s'.wheel p =
    if p = wheelPos ((s.curTime + d) % 2 ^ 32) then t :: (s.wheel p).erase t
    else (s.wheel p).erase t
  started : s'.isRunning t = true
  timeout_self : s'.timeout t = (s.curTime + d) % 2 ^ 32
  running : ∀ u, u ≠ t → s'.isRunning u = s.isRunning u
  timeout : ∀ u, u ≠ t → s'.timeout u = s.timeout u

/-- Removal from the list of a timer is removal from every list. -/
theorem WheelInv.pop_eq {s : TimerHandler} (h : WheelInv s) (t p : Nat) :
    (if s.isRunning t then s.pop (wheelPos (s.timeout t)) t else s).wheel p
      = (s.wheel p).erase t := by
  have habsent : ¬ (s.isRunning t = true ∧ p = wheelPos (s.timeout t)) →
      s.wheel p = (s.wheel p).erase t := by
    intro hnot
    exact (List.erase_of_not_mem fun hmem => hnot ((h.mem t p).mp hmem)).symm
  cases hrun : s.isRunning t with
  | false => exact habsent (by simp [hrun])
  | true =>
    show (if p = wheelPos (s.timeout t) then (s.wheel p).erase t else s.wheel p) = _
    split
    · rfl
    · next hp => exact habsent fun hmem => hp hmem.2

theorem stopsTimer_stopTimer {s : TimerHandler} (h : WheelInv s) (t : Nat) (expiry : Bool) :
    StopsTimer s (s.stopTimer t expiry) t := by
  have hpop := h.pop_eq t
  unfold stopTimer
  cases hrun : s.isRunning t with
  | false =>
    simp only [hrun, Bool.false_eq_true, if_false] at hpop
    exact ⟨rfl, hpop, hrun, fun _ _ => rfl, fun _ _ => rfl⟩
  | true =>
    simp only [hrun, if_true] at hpop
    simp only [Bool.not_true, Bool.false_eq_true, if_false]
    refine ⟨rfl, hpop, ?_, ?_, ?_⟩
    · show decodeIsRunning _ = false
      simp only [timers_storeState, if_true]
      rw [decodeIsRunning_encodeState (s.duration_lt t) (s.timeout_lt t)]
      cases expiry <;> rfl
    · intro u hu
      show decodeIsRunning _ = decodeIsRunning _
      simp only [timers_storeState, if_neg hu, timers_pop]
    · intro u hu
      show decodeTimeout _ = decodeTimeout _
      simp only [timers_storeState, if_neg hu, timers_pop]

theorem startsTimer_startRun {s : TimerHandler} (h : WheelInv s) (t : Nat) {d d' : Nat}
    (hd : d' = if d = 0 then s.duration t else d) (hlt : d' < 2 ^ 30) :
    StartsTimer s (s.startRun t d) t d' := by
  have htimeout : (s.curTime + d') % 2 ^ 32 < 2 ^ 32 := Nat.mod_lt _ (by decide)
  have hrunning : decodeIsRunning (encodeState .running d' ((s.curTime + d') % 2 ^ 32)) = true :=
    decodeIsRunning_encodeState hlt htimeout
  have hdecode : decodeTimeout (encodeState .running d' ((s.curTime + d') % 2 ^ 32))
      = (s.curTime + d') % 2 ^ 32 := decodeTimeout_encodeState htimeout
  unfold startRun
  simp only [← hd]
  by_cases hstays : s.Stays t ((s.curTime + d') % 2 ^ 32)
  · have hcond : (s.isRunning t && wheelPos (s.timeout t)
        == wheelPos ((s.curTime + d') % 2 ^ 32)) = true := by simp [hstays.1, hstays.2]
    rw [if_pos hcond]
    refine ⟨rfl, fun _ _ => rfl, fun hnot => absurd hstays hnot, ?_, ?_, ?_, ?_⟩
    · show decodeIsRunning _ = true
      simpa using hrunning
    · show decodeTimeout _ = _
      simpa using hdecode
    · intro u hu
      show decodeIsRunning _ = decodeIsRunning _
      simp only [timers_storeState, if_neg hu]
    · intro u hu
      show decodeTimeout _ = decodeTimeout _
      simp only [timers_storeState, if_neg hu]
  · have hcond : ¬ (s.isRunning t && wheelPos (s.timeout t)
        == wheelPos ((s.curTime + d') % 2 ^ 32)) = true := by
      intro hcond
      rw [Bool.and_eq_true, beq_iff_eq] at hcond
      exact hstays hcond
    rw [if_neg hcond]
    have hpop := h.pop_eq t
    -- The timer is in front of its new list.
    generalize hpopped : (if s.isRunning t then s.pop (wheelPos (s.timeout t)) t else s) = s'
      at hpop ⊢
    have htimers : s'.timers = s.timers := by
      rw [← hpopped]
      split <;> rfl
    have hcur : s'.curTime = s.curTime := by
      rw [← hpopped]
      split <;> rfl
    refine ⟨hcur, fun hyes => absurd hyes hstays, fun _ p => ?_, ?_, ?_, ?_, ?_⟩
    · show (if p = _ then t :: s'.wheel p else s'.wheel p) = _
      rw [hpop]
    · show decodeIsRunning _ = true
      simpa using hrunning
    · show decodeTimeout _ = _
      simpa using hdecode
    · intro u hu
      show decodeIsRunning _ = decodeIsRunning _
      simp only [timers_storeState, if_neg hu, timers_pushFront, htimers]
    · intro u hu
      show decodeTimeout _ = decodeTimeout _
      simp only [timers_storeState, if_neg hu, timers_pushFront, htimers]

/-! ### The lists of the wheel -/

theorem SameWheel.wheelInv {s s' : TimerHandler} (h : SameWheel s s') (hs : WheelInv s) :
    WheelInv s' where
  mem := by
    intro t p
    rw [h.wheel, hs.mem, h.running]
    refine and_congr_right fun hrun => ?_
    rw [h.timeout t hrun]
  nodup := fun p => h.wheel p ▸ hs.nodup p

theorem StopsTimer.wheelInv {s s' : TimerHandler} {t : Nat} (h : StopsTimer s s' t)
    (hs : WheelInv s) : WheelInv s' where
  mem := by
    intro u p
    rw [h.wheel, (hs.nodup p).mem_erase_iff, hs.mem]
    by_cases hu : u = t
    · subst hu
      simp [h.stopped]
    · simp [hu, h.running u hu, h.timeout u hu]
  nodup := fun p => by
    rw [h.wheel]
    exact (hs.nodup p).erase t

theorem StartsTimer.wheelInv {s s' : TimerHandler} {t d : Nat} (h : StartsTimer s s' t d)
    (hs : WheelInv s) : WheelInv s' := by
  have hother : ∀ u, u ≠ t → ∀ p, u ∈ s.wheel p ↔ s'.isRunning u = true ∧
      p = wheelPos (s'.timeout u) := by
    intro u hu p
    rw [hs.mem, h.running u hu, h.timeout u hu]
  by_cases hstays : s.Stays t ((s.curTime + d) % 2 ^ 32)
  · refine ⟨fun u p => ?_, fun p => h.stays hstays p ▸ hs.nodup p⟩
    rw [h.stays hstays]
    by_cases hu : u = t
    · rw [hu, hs.mem, h.started, h.timeout_self, hstays.1, hstays.2]
    · exact hother u hu p
  · have hmoves := h.moves hstays
    refine ⟨fun u p => ?_, fun p => ?_⟩
    · rw [hmoves]
      by_cases hu : u = t
      · rw [hu, h.started, h.timeout_self]
        have hgone : t ∉ (s.wheel p).erase t := (hs.nodup p).not_mem_erase
        split
        · next hp => exact ⟨fun _ => ⟨rfl, hp⟩, fun _ => List.mem_cons_self⟩
        · next hp => exact ⟨fun hmem => absurd hmem hgone, fun hpos => absurd hpos.2 hp⟩
      · rw [← hother u hu p]
        split <;> simp [hu, List.mem_erase_of_ne hu]
    · rw [hmoves]
      split
      · exact List.nodup_cons.mpr ⟨(hs.nodup p).not_mem_erase, (hs.nodup p).erase t⟩
      · exact (hs.nodup p).erase t

end TimerHandler

/-! ### The events -/

/-- The last start of a timer behind which it was not stopped and has not expired: the number of
steps that were complete, and the duration. -/
def pending : List TimerEvent → Nat → Option (Nat × Nat)
  | [], _ => none
  | .started u n d :: events, t => if u = t then some (n, d) else pending events t
  | .stopped u :: events, t => if u = t then none else pending events t
  | .expired u _ _ :: events, t => if u = t then none else pending events t

/-- Each timer that expires was started and not stopped since, and it does so in the step that is
its duration behind. -/
def OnTime : List TimerEvent → Prop
  | [] => True
  | .expired t step _ :: events =>
    (∃ n d, pending events t = some (n, d) ∧ (d ≠ 0 → step = n + d)) ∧ OnTime events
  | .started _ _ _ :: events => OnTime events
  | .stopped _ :: events => OnTime events

namespace TimerRun

open TimerHandler

/-- Every timer that was started has its step still in front of it. -/
def NotOverdue (r : TimerRun) : Prop :=
  ∀ t n d, pending r.events t = some (n, d) → d ≠ 0 → r.completed < n + d

/-- Timers fire exactly once, on time, and not when they were stopped. -/
def FiresOnTime (r : TimerRun) : Prop := OnTime r.events ∧ r.NotOverdue

/-- The timers that run are those that were started, with the timeouts of their last starts. -/
structure Tracks (r : TimerRun) : Prop where
  curTime : r.handler.curTime = r.completed % 2 ^ 32
  running : ∀ t, r.handler.isRunning t = true → ∃ n d, pending r.events t = some (n, d) ∧
    r.handler.timeout t = (n + d) % 2 ^ 32 ∧ n ≤ r.completed ∧ d < 2 ^ 30
  idle : ∀ t, r.handler.isRunning t = false → pending r.events t = none

/-- Timers that are allocated or free have numbers below that of the timers, and those that run
are allocated. -/
structure Bounded (s : TimerHandler) : Prop where
  allocated : ∀ t, (s.timers t).allocated = true → t < s.nofTimers
  free : ∀ t ∈ s.freeList, t < s.nofTimers
  running : ∀ t, s.isRunning t = true → (s.timers t).allocated = true

/-- The invariant of a run. -/
structure RunInv (r : TimerRun) : Prop where
  wheel : WheelInv r.handler
  bounded : Bounded r.handler
  tracks : Tracks r
  onTime : OnTime r.events
  notOverdue : r.NotOverdue

theorem runInv_init (capacity : Nat) : RunInv (init capacity) := by
  have hidle : ∀ t, ¬ (init capacity).handler.isRunning t = true := by
    intro t
    show ¬ decodeIsRunning 0 = true
    decide
  exact {
    wheel := ⟨fun t _ => ⟨nofun, fun h => absurd h.1 (hidle t)⟩, fun _ => .nil⟩
    bounded := ⟨nofun, fun _ ht => List.mem_range.mp ht, fun t h => absurd h (hidle t)⟩
    tracks := ⟨(Nat.zero_mod _).symm, fun t h => absurd h (hidle t), fun _ _ => rfl⟩
    onTime := trivial
    notOverdue := nofun }

/-- The effect of a call on the running timers: it leaves them, stops one, or starts one with a
duration. -/
inductive Effect where
  | same
  | stops (timer : Nat)
  | starts (timer duration : Nat)

/-- The effect of a call. -/
def effect (r : TimerRun) : TimerOp → Effect
  | .alloc => .same
  | .set t d _ =>
    if (r.handler.timers t).allocated ∧ r.handler.isRunning t then .starts t (max d.val 1) else .same
  | .run t => if (r.handler.timers t).allocated then .starts t (r.handler.duration t) else .same
  | .stop t => if (r.handler.timers t).allocated then .stops t else .same
  | .release t => if (r.handler.timers t).allocated then .stops t else .same

/-- A run behind another one with an effect. -/
def Effect.Relates (r r' : TimerRun) : Effect → Prop
  | .same => SameWheel r.handler r'.handler ∧ r'.events = r.events
  | .stops t => StopsTimer r.handler r'.handler t ∧ r'.events = .stopped t :: r.events
  | .starts t d => d < 2 ^ 30 ∧ StartsTimer r.handler r'.handler t d ∧
      r'.events = .started t r.completed d :: r.events

theorem sameWheel_refl (s : TimerHandler) : SameWheel s s :=
  ⟨rfl, fun _ => rfl, fun _ => rfl, fun _ _ => rfl⟩

/-- A timer gets other contents with the same state word. -/
theorem sameState_setTimer (s : TimerHandler) {t : Nat} {timer : TimerImpl}
    (h : timer.state = (s.timers t).state) (u : Nat) :
    (s.setTimer t timer).isRunning u = s.isRunning u ∧
      (s.setTimer t timer).timeout u = s.timeout u := by
  have hstate : ((s.setTimer t timer).timers u).state = (s.timers u).state := by
    show (if u = t then timer else s.timers u).state = _
    split
    · next hu => rw [h, hu]
    · rfl
  exact ⟨congrArg decodeIsRunning hstate, congrArg decodeTimeout hstate⟩

theorem sameWheel_allocTimer {s : TimerHandler} (h : Bounded s) : SameWheel s s.allocTimer := by
  unfold allocTimer
  cases hfree : s.freeList with
  | cons t rest =>
    have hstate : ({ s.timers t with allocated := true } : TimerImpl).state
        = ({ s with freeList := rest }.timers t).state := rfl
    have hsame := sameState_setTimer { s with freeList := rest } hstate
    exact ⟨rfl, fun _ => rfl, fun u => (hsame u).1, fun u _ => (hsame u).2⟩
  | nil =>
    -- The timer is new, and none with its number runs.
    have hnew : s.isRunning s.nofTimers = false := by
      by_contra hrun
      exact Nat.lt_irrefl _ (h.allocated _ (h.running _ (by simpa using hrun)))
    have hne : ∀ u, s.isRunning u = true → u ≠ s.nofTimers := by
      rintro u hrun rfl
      rw [hnew] at hrun
      cases hrun
    refine ⟨rfl, fun _ => rfl, fun u => ?_, fun u hrun => ?_⟩
    · show decodeIsRunning (if u = s.nofTimers then _ else s.timers u).state = s.isRunning u
      split
      · next hu => rw [hu, hnew]; rfl
      · rfl
    · show decodeTimeout (if u = s.nofTimers then _ else s.timers u).state = s.timeout u
      rw [if_neg (hne u hrun)]
      rfl

/-- Another callback leaves the state words. -/
theorem set_eq (s : TimerHandler) (t : Nat) (d : Fin (2 ^ 30)) (callback : Bool) :
    (s.set t d callback).curTime = (s.setDuration t d).curTime ∧
      (s.set t d callback).wheel = (s.setDuration t d).wheel ∧
      ∀ u, (s.set t d callback).isRunning u = (s.setDuration t d).isRunning u ∧
        (s.set t d callback).timeout u = (s.setDuration t d).timeout u := by
  unfold TimerHandler.set
  cases callback with
  | false => exact ⟨rfl, rfl, fun _ => ⟨rfl, rfl⟩⟩
  | true => exact ⟨rfl, rfl, sameState_setTimer _ rfl⟩

theorem startsTimer_set {s : TimerHandler} (h : WheelInv s) {t : Nat} (hrun : s.isRunning t = true)
    (d : Fin (2 ^ 30)) (callback : Bool) :
    StartsTimer s (s.set t d callback) t (max d.val 1) := by
  have hlt : max d.val 1 < 2 ^ 30 := Nat.max_lt.mpr ⟨d.isLt, by decide⟩
  have hne : max d.val 1 ≠ 0 := by omega
  have hstart := startsTimer_startRun h t (d := max d.val 1) (if_neg hne).symm hlt
  have hset : s.setDuration t d = s.startRun t (max d.val 1) := if_pos hrun
  obtain ⟨hcur, hwheel, hstate⟩ := set_eq s t d callback
  rw [hset] at hcur hwheel hstate
  exact {
    curTime := hcur.trans hstart.curTime
    stays := fun hstays p => by rw [hwheel, hstart.stays hstays]
    moves := fun hmoves p => by rw [hwheel, hstart.moves hmoves]
    started := (hstate t).1.trans hstart.started
    timeout_self := (hstate t).2.trans hstart.timeout_self
    running := fun u hu => (hstate u).1.trans (hstart.running u hu)
    timeout := fun u hu => (hstate u).2.trans (hstart.timeout u hu) }

theorem sameWheel_set {s : TimerHandler} {t : Nat} (hrun : s.isRunning t = false)
    (d : Fin (2 ^ 30)) (callback : Bool) : SameWheel s (s.set t d callback) := by
  obtain ⟨hcur, hwheel, hstate⟩ := set_eq s t d callback
  have hset : s.setDuration t d = s.storeState t (encodeState .stopped (max d.val 1) 0) := by
    simp [setDuration, hrun]
  have hlt : max d.val 1 < 2 ^ 30 := Nat.max_lt.mpr ⟨d.isLt, by decide⟩
  rw [hset] at hcur hwheel hstate
  refine ⟨hcur, fun p => congrFun hwheel p, fun u => ?_, fun u hu => ?_⟩
  · rw [(hstate u).1]
    show decodeIsRunning _ = s.isRunning u
    rw [timers_storeState]
    split
    · next hu => rw [hu, hrun, decodeIsRunning_encodeState hlt (by decide)]; rfl
    · rfl
  · have hne : u ≠ t := by
      rintro rfl
      rw [hrun] at hu
      cases hu
    rw [(hstate u).2]
    show decodeTimeout _ = s.timeout u
    rw [timers_storeState, if_neg hne]
    rfl

theorem stopsTimer_deallocTimer {s : TimerHandler} (h : WheelInv s) {t : Nat}
    (halloc : (s.timers t).allocated = true) : StopsTimer s (s.deallocTimer t) t := by
  have hstop := stopsTimer_stopTimer h t false
  have hdealloc : s.deallocTimer t = { s.stopTimer t false with
      freeList := t :: (s.stopTimer t false).freeList }.setTimer t
        ⟨false, encodeState .stopped 0 0, false⟩ := by
    rw [deallocTimer, halloc]
    rfl
  rw [hdealloc]
  refine ⟨hstop.curTime, hstop.wheel, ?_, fun u hu => ?_, fun u hu => ?_⟩
  · show decodeIsRunning (if t = t then _ else _ : TimerImpl).state = false
    rw [if_pos rfl]
    rfl
  · show decodeIsRunning (if u = t then _ else _ : TimerImpl).state = _
    rw [if_neg hu]
    exact hstop.running u hu
  · show decodeTimeout (if u = t then _ else _ : TimerImpl).state = _
    rw [if_neg hu]
    exact hstop.timeout u hu

theorem relates_apply {r : TimerRun} (h : WheelInv r.handler) (hb : Bounded r.handler)
    (op : TimerOp) : (r.effect op).Relates r (r.apply op) := by
  have hsame : Effect.same.Relates r r := ⟨sameWheel_refl _, rfl⟩
  cases op with
  | alloc => exact ⟨sameWheel_allocTimer hb, rfl⟩
  | set t d callback =>
    cases halloc : (r.handler.timers t).allocated with
    | false => simpa [effect, apply, halloc] using hsame
    | true =>
      cases hrun : r.handler.isRunning t with
      | false =>
        simp only [effect, apply, halloc, hrun, Bool.not_true, Bool.false_eq_true, if_false,
          and_false]
        exact ⟨sameWheel_set hrun d callback, rfl⟩
      | true =>
        simp only [effect, apply, halloc, hrun, Bool.not_true, Bool.false_eq_true, if_false,
          and_self, if_true]
        exact ⟨Nat.max_lt.mpr ⟨d.isLt, by decide⟩, startsTimer_set h hrun d callback, rfl⟩
  | run t =>
    cases halloc : (r.handler.timers t).allocated with
    | false => simpa [effect, apply, halloc] using hsame
    | true =>
      simp only [effect, apply, halloc, Bool.not_true, Bool.false_eq_true, if_false, if_true]
      have hlt := r.handler.duration_lt t
      exact ⟨hlt, startsTimer_startRun h t (if_pos rfl).symm hlt, rfl⟩
  | stop t =>
    cases halloc : (r.handler.timers t).allocated with
    | false => simpa [effect, apply, halloc] using hsame
    | true =>
      simp only [effect, apply, halloc, Bool.not_true, Bool.false_eq_true, if_false, if_true]
      exact ⟨stopsTimer_stopTimer h t false, rfl⟩
  | release t =>
    cases halloc : (r.handler.timers t).allocated with
    | false => simpa [effect, apply, halloc] using hsame
    | true =>
      simp only [effect, apply, halloc, Bool.not_true, Bool.false_eq_true, if_false, if_true]
      exact ⟨stopsTimer_deallocTimer h halloc, rfl⟩

theorem completed_apply (r : TimerRun) (op : TimerOp) :
    (r.apply op).completed = r.completed := by
  cases op <;> simp only [apply] <;> split_ifs <;> rfl

/-! ### Allocated timers -/

/-- A call on a timer leaves which timers are allocated. -/
structure SameTimers (s s' : TimerHandler) : Prop where
  allocated : ∀ u, (s'.timers u).allocated = (s.timers u).allocated
  nofTimers : s'.nofTimers = s.nofTimers
  freeList : s'.freeList = s.freeList

theorem SameTimers.trans {s s' s'' : TimerHandler} (h : SameTimers s s') (h' : SameTimers s' s'') :
    SameTimers s s'' :=
  ⟨fun u => (h'.allocated u).trans (h.allocated u), h'.nofTimers.trans h.nofTimers,
    h'.freeList.trans h.freeList⟩

theorem sameTimers_setTimer (s : TimerHandler) {t : Nat} {timer : TimerImpl}
    (h : timer.allocated = (s.timers t).allocated) : SameTimers s (s.setTimer t timer) := by
  refine ⟨fun u => ?_, rfl, rfl⟩
  show (if u = t then timer else s.timers u).allocated = _
  split
  · next hu => rw [h, hu]
  · rfl

/-- A list of the wheel and a state word do not matter. -/
theorem sameTimers_storeState {s s' : TimerHandler} (h : SameTimers s s') (t state : Nat) :
    SameTimers s (s'.storeState t state) := h.trans (sameTimers_setTimer s' rfl)

theorem sameTimers_pop (s : TimerHandler) (pos t : Nat) : SameTimers s (s.pop pos t) :=
  ⟨fun _ => rfl, rfl, rfl⟩

theorem sameTimers_pushFront (s : TimerHandler) (pos t : Nat) : SameTimers s (s.pushFront pos t) :=
  ⟨fun _ => rfl, rfl, rfl⟩

theorem sameTimers_startRun (s : TimerHandler) (t d : Nat) : SameTimers s (s.startRun t d) := by
  have hrefl : SameTimers s s := ⟨fun _ => rfl, rfl, rfl⟩
  have hpop : SameTimers s (if s.isRunning t then s.pop (wheelPos (s.timeout t)) t else s) := by
    split
    · exact sameTimers_pop s _ t
    · exact hrefl
  unfold startRun
  extract_lets duration newTimeout state s'
  split
  · exact sameTimers_storeState hrefl t state
  · exact sameTimers_storeState (hpop.trans (sameTimers_pushFront s' _ t)) t state

theorem sameTimers_stopTimer (s : TimerHandler) (t : Nat) (expiry : Bool) :
    SameTimers s (s.stopTimer t expiry) := by
  unfold stopTimer
  split
  · exact ⟨fun _ => rfl, rfl, rfl⟩
  · exact sameTimers_storeState (sameTimers_pop s _ t) t _

theorem sameTimers_set (s : TimerHandler) (t : Nat) (d : Fin (2 ^ 30)) (callback : Bool) :
    SameTimers s (s.set t d callback) := by
  have hset : SameTimers s (s.setDuration t d) := by
    unfold setDuration
    simp only
    split
    · exact sameTimers_startRun s t _
    · exact sameTimers_setTimer s rfl
  unfold TimerHandler.set
  simp only
  split
  · exact hset.trans (sameTimers_setTimer _ rfl)
  · exact hset

/-- A state with the same timers in which at most allocated timers run. -/
theorem Bounded.of_sameTimers {s s' : TimerHandler} (h : Bounded s) (hsame : SameTimers s s')
    (hrun : ∀ t, s'.isRunning t = true → (s.timers t).allocated = true) : Bounded s' where
  allocated := fun t ht => hsame.nofTimers ▸ h.allocated t (hsame.allocated t ▸ ht)
  free := fun t ht => hsame.nofTimers ▸ h.free t (hsame.freeList ▸ ht)
  running := fun t ht => (hsame.allocated t).trans (hrun t ht)

theorem bounded_stops {s s' : TimerHandler} {t : Nat} (h : Bounded s) (hsame : SameTimers s s')
    (hstop : StopsTimer s s' t) : Bounded s' := by
  refine h.of_sameTimers hsame fun u hrun => ?_
  by_cases hu : u = t
  · rw [hu, hstop.stopped] at hrun
    cases hrun
  · exact h.running u (hstop.running u hu ▸ hrun)

theorem bounded_starts {s s' : TimerHandler} {t d : Nat} (h : Bounded s) (hsame : SameTimers s s')
    (hstart : StartsTimer s s' t d) (halloc : (s.timers t).allocated = true) : Bounded s' := by
  refine h.of_sameTimers hsame fun u hrun => ?_
  by_cases hu : u = t
  · exact hu ▸ halloc
  · exact h.running u (hstart.running u hu ▸ hrun)

theorem bounded_allocTimer {s : TimerHandler} (h : Bounded s) : Bounded s.allocTimer := by
  have hsame := sameWheel_allocTimer h
  have hrun : ∀ u, s.allocTimer.isRunning u = true → (s.timers u).allocated = true :=
    fun u hu => h.running u (hsame.running u ▸ hu)
  revert hrun
  unfold allocTimer
  cases hfree : s.freeList with
  | cons t rest =>
    intro hrun
    have ht : t < s.nofTimers := h.free t (by simp [hfree])
    refine ⟨fun u hu => ?_, fun u hu => h.free u (by simp [hfree]; exact .inr hu), fun u hu => ?_⟩
    · by_cases hut : u = t
      · exact hut ▸ ht
      · refine h.allocated u ?_
        have hu : (if u = t then _ else s.timers u : TimerImpl).allocated = true := hu
        rwa [if_neg hut] at hu
    · show (if u = t then _ else s.timers u : TimerImpl).allocated = true
      split
      · rfl
      · exact hrun u hu
  | nil =>
    intro hrun
    refine ⟨fun u hu => ?_, fun u hu => ?_, fun u hu => ?_⟩
    · show u < s.nofTimers + 1
      by_cases hut : u = s.nofTimers
      · rw [hut]
        exact Nat.lt_succ_self _
      · have hu : (if u = s.nofTimers then _ else s.timers u : TimerImpl).allocated = true := hu
        rw [if_neg hut] at hu
        exact Nat.lt_succ_of_lt (h.allocated u hu)
    · cases hu
    · show (if u = s.nofTimers then _ else s.timers u : TimerImpl).allocated = true
      split
      · rfl
      · exact hrun u hu

theorem bounded_deallocTimer {s : TimerHandler} (hs : WheelInv s) (h : Bounded s) {t : Nat}
    (halloc : (s.timers t).allocated = true) : Bounded (s.deallocTimer t) := by
  have hstop := stopsTimer_deallocTimer hs halloc
  have hsame := sameTimers_stopTimer s t false
  have hdealloc : s.deallocTimer t = { s.stopTimer t false with
      freeList := t :: (s.stopTimer t false).freeList }.setTimer t
        ⟨false, encodeState .stopped 0 0, false⟩ := by
    rw [deallocTimer, halloc]
    rfl
  have hother : ∀ u, u ≠ t → ((s.deallocTimer t).timers u).allocated = (s.timers u).allocated := by
    intro u hu
    rw [hdealloc]
    show (if u = t then _ else (s.stopTimer t false).timers u : TimerImpl).allocated = _
    rw [if_neg hu, hsame.allocated]
  have hnof : (s.deallocTimer t).nofTimers = s.nofTimers := by
    rw [hdealloc]
    exact hsame.nofTimers
  have hfree : (s.deallocTimer t).freeList = t :: s.freeList := by
    rw [hdealloc]
    exact congrArg (t :: ·) hsame.freeList
  refine ⟨fun u hu => ?_, fun u hu => ?_, fun u hu => ?_⟩
  · rw [hnof]
    by_cases hut : u = t
    · exact hut ▸ h.allocated t halloc
    · exact h.allocated u (hother u hut ▸ hu)
  · rw [hfree] at hu
    rw [hnof]
    rcases List.mem_cons.mp hu with rfl | hu
    · exact h.allocated u halloc
    · exact h.free u hu
  · by_cases hut : u = t
    · rw [hut, hstop.stopped] at hu
      cases hu
    · rw [hother u hut]
      exact h.running u (hstop.running u hut ▸ hu)

theorem bounded_apply {r : TimerRun} (hw : WheelInv r.handler) (h : Bounded r.handler)
    (op : TimerOp) : Bounded (r.apply op).handler := by
  cases op with
  | alloc => exact bounded_allocTimer h
  | set t d callback =>
    cases halloc : (r.handler.timers t).allocated with
    | false => simpa [apply, halloc] using h
    | true =>
      have hsame := sameTimers_set r.handler t d callback
      simp only [apply, halloc, Bool.not_true, Bool.false_eq_true, if_false]
      cases hrun : r.handler.isRunning t with
      | false =>
        refine h.of_sameTimers hsame fun u hu => h.running u ?_
        exact (sameWheel_set hrun d callback).running u ▸ hu
      | true => exact bounded_starts h hsame (startsTimer_set hw hrun d callback) halloc
  | run t =>
    cases halloc : (r.handler.timers t).allocated with
    | false => simpa [apply, halloc] using h
    | true =>
      simp only [apply, halloc, Bool.not_true, Bool.false_eq_true, if_false]
      exact bounded_starts h (sameTimers_startRun _ _ _)
        (startsTimer_startRun hw t (if_pos rfl).symm (r.handler.duration_lt t)) halloc
  | stop t =>
    cases halloc : (r.handler.timers t).allocated with
    | false => simpa [apply, halloc] using h
    | true =>
      simp only [apply, halloc, Bool.not_true, Bool.false_eq_true, if_false]
      exact bounded_stops h (sameTimers_stopTimer _ _ _) (stopsTimer_stopTimer hw t false)
  | release t =>
    cases halloc : (r.handler.timers t).allocated with
    | false => simpa [apply, halloc] using h
    | true =>
      simp only [apply, halloc, Bool.not_true, Bool.false_eq_true, if_false]
      exact bounded_deallocTimer hw h halloc

/-! ### A call keeps the invariant -/

theorem Effect.Relates.wheelInv {r r' : TimerRun} {e : Effect} (h : e.Relates r r')
    (hw : WheelInv r.handler) : WheelInv r'.handler := by
  cases e with
  | same => exact h.1.wheelInv hw
  | stops t => exact h.1.wheelInv hw
  | starts t d => exact h.2.1.wheelInv hw

theorem Effect.Relates.tracks {r r' : TimerRun} {e : Effect} (h : e.Relates r r')
    (hcompleted : r'.completed = r.completed) (ht : Tracks r) : Tracks r' := by
  cases e with
  | same =>
    obtain ⟨hsame, hevents⟩ := h
    refine ⟨?_, fun u hu => ?_, fun u hu => ?_⟩
    · rw [hsame.curTime, ht.curTime, hcompleted]
    · rw [hsame.running] at hu
      rw [hevents, hsame.timeout u hu, hcompleted]
      exact ht.running u hu
    · rw [hevents]
      exact ht.idle u (hsame.running u ▸ hu)
  | stops t =>
    obtain ⟨hstop, hevents⟩ := h
    refine ⟨?_, fun u hu => ?_, fun u hu => ?_⟩
    · rw [hstop.curTime, ht.curTime, hcompleted]
    · by_cases hut : u = t
      · rw [hut, hstop.stopped] at hu
        cases hu
      · rw [hevents, pending, if_neg (Ne.symm hut), hstop.timeout u hut, hcompleted]
        exact ht.running u (hstop.running u hut ▸ hu)
    · rw [hevents, pending]
      split
      · rfl
      · next hut => exact ht.idle u (hstop.running u (Ne.symm hut) ▸ hu)
  | starts t d =>
    obtain ⟨hlt, hstart, hevents⟩ := h
    refine ⟨?_, fun u hu => ?_, fun u hu => ?_⟩
    · rw [hstart.curTime, ht.curTime, hcompleted]
    · by_cases hut : u = t
      · refine ⟨r.completed, d, ?_, ?_, Nat.le_of_eq hcompleted.symm, hlt⟩
        · rw [hevents, pending, if_pos hut.symm]
        · rw [hut, hstart.timeout_self, ht.curTime, Nat.mod_add_mod]
      · rw [hevents, pending, if_neg (Ne.symm hut), hstart.timeout u hut, hcompleted]
        exact ht.running u (hstart.running u hut ▸ hu)
    · have hut : u ≠ t := by
        rintro rfl
        rw [hstart.started] at hu
        cases hu
      rw [hevents, pending, if_neg (Ne.symm hut)]
      exact ht.idle u (hstart.running u hut ▸ hu)

theorem Effect.Relates.onTime {r r' : TimerRun} {e : Effect} (h : e.Relates r r')
    (ht : OnTime r.events) : OnTime r'.events := by
  cases e with
  | same => exact h.2 ▸ ht
  | stops t => exact h.2 ▸ ht
  | starts t d => exact h.2.2 ▸ ht

theorem Effect.Relates.notOverdue {r r' : TimerRun} {e : Effect} (h : e.Relates r r')
    (hcompleted : r'.completed = r.completed) (ht : r.NotOverdue) : r'.NotOverdue := by
  intro u n d hpending hd
  rw [hcompleted]
  cases e with
  | same => exact ht u n d (h.2 ▸ hpending) hd
  | stops t =>
    rw [h.2, pending] at hpending
    split at hpending
    · cases hpending
    · exact ht u n d hpending hd
  | starts t d' =>
    rw [h.2.2, pending] at hpending
    split at hpending
    · cases hpending
      omega
    · exact ht u n d hpending hd

/-- Every call keeps the invariant. -/
theorem RunInv.apply {r : TimerRun} (h : RunInv r) (op : TimerOp) : RunInv (r.apply op) := by
  have hrelates := relates_apply h.wheel h.bounded op
  have hcompleted := completed_apply r op
  exact {
    wheel := hrelates.wheelInv h.wheel
    bounded := bounded_apply h.wheel h.bounded op
    tracks := hrelates.tracks hcompleted h.tracks
    onTime := hrelates.onTime h.onTime
    notOverdue := hrelates.notOverdue hcompleted h.notOverdue }

/-! ### The loop of a step -/

/-- The loop still visits a timer: it is in the list of the tic `now`, from the node `it` on. -/
def ToVisit (s : TimerHandler) (now : Nat) (it : Option Nat) (t : Nat) : Prop :=
  ∃ u ∈ it, t ∈ (s.wheel (wheelPos now)).dropWhile (· != u)

/-- The start of a timer with a duration keeps the loop: the timer fires in the same step only if
the loop still visits it, and the node that comes next stays in its list. -/
def StartKeeps (r : TimerRun) (now : Nat) (it : Option Nat) (t d : Nat) : Prop :=
  ((r.handler.curTime + d) % 2 ^ 32 = now → ToVisit r.handler now it t) ∧
    (it = some t → wheelPos ((r.handler.curTime + d) % 2 ^ 32) = wheelPos now)

/-- A call of a callback keeps the loop, which comes to the node `it` next. -/
def KeepsLoop (now : Nat) (it : Option Nat) (r : TimerRun) (op : TimerOp) : Prop :=
  match r.effect op with
  | .same => True
  | .stops t => it ≠ some t
  | .starts t d => r.StartKeeps now it t d

/-- The calls of the callbacks keep the loop. -/
def LoopKept (now : Nat) : Nat → Option Nat → List (List TimerOp) → TimerRun → Prop
  | 0, _, _, _ => True
  | _ + 1, none, _, _ => True
  | fuel + 1, some t, scripts, r =>
    let next := r.handler.nextNode t
    if r.handler.timeout t = now then
      if (r.handler.timers t).callback then
        ExecWithin TimerRun.apply (KeepsLoop now next) (r.expire t) (scripts.headD []) ∧
          LoopKept now fuel next scripts.tail (exec TimerRun.apply (r.expire t) (scripts.headD []))
      else LoopKept now fuel next scripts (r.expire t)
    else LoopKept now fuel next scripts r

/-- The loop is in front of the part `rest` of its list, which has the timers that are due. -/
structure LoopInv (now : Nat) (it : Option Nat) (rest : List Nat) (r : TimerRun) : Prop where
  inv : RunInv r
  now_eq : now = (r.completed + 1) % 2 ^ 32
  split : ∃ front, r.handler.wheel (wheelPos now) = front ++ rest
  head : rest.head? = it
  due : ∀ t n d, pending r.events t = some (n, d) → d ≠ 0 → n + d = r.completed + 1 → t ∈ rest

/-- What is behind a node of a list without duplicates. -/
theorem dropWhile_append_cons {front back : List Nat} {u : Nat} (h : u ∉ front) :
    (front ++ u :: back).dropWhile (· != u) = u :: back := by
  induction front with
  | nil => simp
  | cons v front ih =>
    rw [List.mem_cons, not_or] at h
    have hne : (v != u) = true := bne_iff_ne.mpr (Ne.symm h.1)
    rw [List.cons_append, List.dropWhile_cons, if_pos hne]
    exact ih h.2

/-- Removal of another node than the first one of the rest keeps that one first. -/
theorem erase_append_rest (front : List Nat) {rest : List Nat} {t : Nat}
    (h : rest.head? ≠ some t) : ∃ front' rest', (front ++ rest).erase t = front' ++ rest' ∧
      rest'.head? = rest.head? ∧ rest'.length ≤ rest.length ∧ ∀ u ∈ rest, u ≠ t → u ∈ rest' := by
  by_cases hfront : t ∈ front
  · exact ⟨front.erase t, rest, List.erase_append_left _ hfront, rfl, Nat.le_refl _,
      fun u hu _ => hu⟩
  · refine ⟨front, rest.erase t, List.erase_append_right _ hfront, ?_, List.length_erase_le,
      fun u hu hut => (List.mem_erase_of_ne hut).mpr hu⟩
    cases rest with
    | nil => rfl
    | cons v rest =>
      have hne : (v == t) = false := by simpa using h
      simp [hne]

section Loop

variable {now : Nat} {it : Option Nat} {rest : List Nat} {r : TimerRun}

theorem LoopInv.mem_rest (h : LoopInv now it rest r) {t : Nat} :
    ToVisit r.handler now it t ↔ t ∈ rest := by
  obtain ⟨front, hfront⟩ := h.split
  have hnodup := h.inv.wheel.nodup (wheelPos now)
  unfold ToVisit
  rw [← h.head, hfront]
  cases rest with
  | nil => simp
  | cons u rest =>
    rw [hfront, List.nodup_append] at hnodup
    have hu : u ∉ front := fun hu => hnodup.2.2 u hu u List.mem_cons_self rfl
    simp [dropWhile_append_cons hu]

/-- A timer of the rest runs, in the list of the tic. -/
theorem LoopInv.running (h : LoopInv now it rest r) {t : Nat} (ht : t ∈ rest) :
    r.handler.isRunning t = true ∧ wheelPos now = wheelPos (r.handler.timeout t) := by
  obtain ⟨front, hfront⟩ := h.split
  refine (h.inv.wheel.mem t (wheelPos now)).mp ?_
  rw [hfront]
  exact List.mem_append_right _ ht

/-- A call that keeps the loop keeps the invariant of the loop, and the rest gets no longer. -/
theorem LoopInv.apply (h : LoopInv now it rest r) {op : TimerOp} (hop : KeepsLoop now it r op) :
    ∃ rest', rest'.length ≤ rest.length ∧ LoopInv now it rest' (r.apply op) := by
  have hinv := h.inv.apply op
  have hrelates := relates_apply h.inv.wheel h.inv.bounded op
  have hcompleted := completed_apply r op
  obtain ⟨front, hfront⟩ := h.split
  unfold KeepsLoop at hop
  cases heffect : r.effect op with
  | same =>
    rw [heffect] at hrelates
    refine ⟨rest, Nat.le_refl _, hinv, hcompleted ▸ h.now_eq, ⟨front, ?_⟩, h.head, ?_⟩
    · rw [hrelates.1.wheel, hfront]
    · rw [hrelates.2, hcompleted]
      exact h.due
  | stops t =>
    rw [heffect] at hrelates hop
    obtain ⟨front', rest', heq, hhead, hlength, hmem⟩ :=
      erase_append_rest front (show rest.head? ≠ some t from h.head ▸ hop)
    refine ⟨rest', hlength, hinv, hcompleted ▸ h.now_eq, ⟨front', ?_⟩, hhead.trans h.head, ?_⟩
    · rw [hrelates.1.wheel, hfront, heq]
    · intro u n d hpending hd hdue
      rw [hrelates.2, pending] at hpending
      split at hpending
      · cases hpending
      · next hut => exact hmem u (h.due u n d hpending hd (hcompleted ▸ hdue)) (Ne.symm hut)
  | starts t d =>
    rw [heffect] at hrelates hop
    obtain ⟨-, hstart, hevents⟩ := hrelates
    -- When the timer is due in this step, it is in the rest already.
    have hself : d ≠ 0 → r.completed + d = r.completed + 1 → t ∈ rest := by
      intro _ hdue
      refine h.mem_rest.mp (hop.1 ?_)
      rw [h.inv.tracks.curTime, Nat.mod_add_mod, hdue, h.now_eq]
    by_cases hstays : r.handler.Stays t ((r.handler.curTime + d) % 2 ^ 32)
    · refine ⟨rest, Nat.le_refl _, hinv, hcompleted ▸ h.now_eq, ⟨front, ?_⟩, h.head, ?_⟩
      · rw [hstart.stays hstays, hfront]
      · intro u n d' hpending hd' hdue
        rw [hevents, pending] at hpending
        rw [hcompleted] at hdue
        split at hpending
        · next hut =>
          cases hpending
          exact hut ▸ hself hd' hdue
        · exact h.due u n d' hpending hd' hdue
    · -- The timer moves to another list, so it is not the next node.
      have hit : it ≠ some t := by
        intro hit
        have hmem : t ∈ rest := List.mem_of_head? (h.head.trans hit)
        obtain ⟨hrun, hpos⟩ := h.running hmem
        exact hstays ⟨hrun, hpos ▸ (hop.2 hit).symm⟩
      obtain ⟨front', rest', heq, hhead, hlength, hmem⟩ :=
        erase_append_rest front (show rest.head? ≠ some t from h.head ▸ hit)
      have hwheel := hstart.moves hstays (wheelPos now)
      rw [hfront, heq] at hwheel
      refine ⟨rest', hlength, hinv, hcompleted ▸ h.now_eq, ?_, hhead.trans h.head, ?_⟩
      · rw [hwheel]
        split
        · exact ⟨t :: front', rfl⟩
        · exact ⟨front', rfl⟩
      · intro u n d' hpending hd' hdue
        rw [hevents, pending] at hpending
        rw [hcompleted] at hdue
        split at hpending
        · next hut =>
          cases hpending
          have hrest := hself hd' hdue
          obtain ⟨hrun, hpos⟩ := h.running hrest
          have hnow : (r.handler.curTime + d) % 2 ^ 32 = now := by
            rw [h.inv.tracks.curTime, Nat.mod_add_mod, hdue, h.now_eq]
          exact absurd ⟨hrun, by rw [hnow, hpos]⟩ hstays
        · next hut => exact hmem u (h.due u n d' hpending hd' hdue) (Ne.symm hut)

/-- The calls of a callback keep the invariant of the loop. -/
theorem LoopInv.exec {ops : List TimerOp} : ∀ {rest : List Nat} {r : TimerRun},
    LoopInv now it rest r → ExecWithin TimerRun.apply (KeepsLoop now it) r ops →
      ∃ rest', rest'.length ≤ rest.length ∧ LoopInv now it rest' (exec TimerRun.apply r ops) := by
  induction ops with
  | nil => exact fun h _ => ⟨_, Nat.le_refl _, h⟩
  | cons op ops ih =>
    intro rest r h hops
    obtain ⟨rest₁, hle₁, h₁⟩ := h.apply hops.1
    obtain ⟨rest₂, hle₂, h₂⟩ := ih h₁ hops.2
    exact ⟨rest₂, Nat.le_trans hle₂ hle₁, h₂⟩

/-- The node behind the one that is visited. -/
theorem LoopInv.nextNode {t : Nat} (h : LoopInv now (some t) (t :: rest) r) :
    r.handler.nextNode t = rest.head? := by
  obtain ⟨hrun, hpos⟩ := h.running List.mem_cons_self
  obtain ⟨front, hfront⟩ := h.split
  have hnodup := h.inv.wheel.nodup (wheelPos now)
  rw [hfront, List.nodup_append] at hnodup
  have ht : t ∉ front := fun ht => hnodup.2.2 t ht t List.mem_cons_self rfl
  rw [TimerHandler.nextNode, if_pos hrun, ← hpos, hfront, dropWhile_append_cons ht]
  rfl

/-- The loop goes on behind a node that is not due. -/
theorem LoopInv.skip {t : Nat} (h : LoopInv now (some t) (t :: rest) r)
    (hnot : r.handler.timeout t ≠ now) : LoopInv now rest.head? rest r := by
  obtain ⟨front, hfront⟩ := h.split
  refine ⟨h.inv, h.now_eq, ⟨front ++ [t], by rw [hfront]; simp⟩, rfl, ?_⟩
  intro u n d hpending hd hdue
  rcases List.mem_cons.mp (h.due u n d hpending hd hdue) with rfl | hu
  · -- The timeout of a timer that is due is the tic.
    obtain ⟨n', d', hpending', htimeout, -, -⟩ :=
      h.inv.tracks.running u (h.running List.mem_cons_self).1
    rw [hpending] at hpending'
    cases hpending'
    exact absurd (by rw [htimeout, hdue, h.now_eq]) hnot
  · exact hu

/-- The loop goes on behind a node that expires. -/
theorem LoopInv.expire {t : Nat} (h : LoopInv now (some t) (t :: rest) r)
    (hdue : r.handler.timeout t = now) : LoopInv now rest.head? rest (r.expire t) := by
  obtain ⟨hrun, hpos⟩ := h.running List.mem_cons_self
  obtain ⟨n, d, hpending, htimeout, hn, hd⟩ := h.inv.tracks.running t hrun
  have hstop := stopsTimer_stopTimer h.inv.wheel t true
  obtain ⟨front, hfront⟩ := h.split
  have hnodup := h.inv.wheel.nodup (wheelPos now)
  rw [hfront, List.nodup_append] at hnodup
  have ht : t ∉ front := fun ht => hnodup.2.2 t ht t List.mem_cons_self rfl
  have hpending_eq : ∀ u, pending (r.expire t).events u
      = if t = u then none else pending r.events u := fun _ => rfl
  -- The timeout is less than half the tics ahead, so that it gives the step.
  have hstep : d ≠ 0 → r.completed + 1 = n + d := by
    intro hd'
    have hover := h.inv.notOverdue t n d hpending hd'
    have hmod : (n + d) % 2 ^ 32 = (r.completed + 1) % 2 ^ 32 := by
      rw [← htimeout, hdue, h.now_eq]
    omega
  have hwheel : ∀ p, (r.expire t).handler.wheel p = (r.handler.wheel p).erase t := hstop.wheel
  refine ⟨⟨hstop.wheelInv h.inv.wheel,
    bounded_stops h.inv.bounded (sameTimers_stopTimer _ _ _) hstop, ⟨?_, ?_, ?_⟩, ?_, ?_⟩,
    h.now_eq, ⟨front, ?_⟩, rfl, ?_⟩
  · exact hstop.curTime.trans h.inv.tracks.curTime
  · intro u hu
    have hut : u ≠ t := by
      rintro rfl
      exact absurd (hstop.stopped.symm.trans hu) Bool.false_ne_true
    rw [hpending_eq, if_neg (Ne.symm hut)]
    show ∃ n d, _ ∧ (r.handler.stopTimer t true).timeout u = _ ∧ _
    rw [hstop.timeout u hut]
    exact h.inv.tracks.running u ((hstop.running u hut).symm.trans hu)
  · intro u hu
    rw [hpending_eq]
    split
    · rfl
    · next hut => exact h.inv.tracks.idle u ((hstop.running u (Ne.symm hut)).symm.trans hu)
  · exact ⟨⟨n, d, hpending, hstep⟩, h.inv.onTime⟩
  · intro u n' d' hpending' hd'
    rw [hpending_eq] at hpending'
    split at hpending'
    · cases hpending'
    · exact h.inv.notOverdue u n' d' hpending' hd'
  · rw [hwheel, hfront, List.erase_append_right _ ht, List.erase_cons_head]
  · intro u n' d' hpending' hd' hdue'
    rw [hpending_eq] at hpending'
    split at hpending'
    · cases hpending'
    · next hut =>
      rcases List.mem_cons.mp (h.due u n' d' hpending' hd' hdue') with rfl | hu
      · exact absurd rfl hut
      · exact hu

theorem LoopInv.stepLoop : ∀ {fuel : Nat} {it : Option Nat} {rest : List Nat}
    {scripts : List (List TimerOp)} {r : TimerRun}, LoopInv now it rest r → rest.length ≤ fuel →
      LoopKept now fuel it scripts r → LoopInv now none [] (stepLoop now fuel it scripts r) := by
  intro fuel
  induction fuel with
  | zero =>
    intro it rest scripts r h hfuel _
    obtain rfl : rest = [] := List.length_eq_zero_iff.mp (Nat.le_zero.mp hfuel)
    obtain rfl : none = it := h.head
    exact h
  | succ fuel ih =>
    intro it rest scripts r h hfuel hkept
    cases rest with
    | nil =>
      obtain rfl : none = it := h.head
      exact h
    | cons t rest =>
      obtain rfl : some t = it := h.head
      have hfuel : rest.length ≤ fuel := Nat.le_of_succ_le_succ hfuel
      have hnext := h.nextNode
      simp only [LoopKept, hnext] at hkept
      simp only [TimerRun.stepLoop, hnext]
      by_cases hdue : r.handler.timeout t = now
      · rw [if_pos hdue] at hkept ⊢
        have hexpire := h.expire hdue
        split
        · next hcallback =>
          rw [if_pos hcallback] at hkept
          obtain ⟨rest', hle, hexec⟩ := hexpire.exec hkept.1
          exact ih hexec (Nat.le_trans hle hfuel) hkept.2
        · next hcallback =>
          rw [if_neg hcallback] at hkept
          exact ih hexpire hfuel hkept
      · rw [if_neg hdue] at hkept ⊢
        exact ih (h.skip hdue) hfuel hkept

end Loop

/-! ### Runs -/

/-- The callbacks of a call keep the loop. -/
def CallbacksKeepLoop (r : TimerRun) : TimerCall → Prop
  | .op _ => True
  | .stepAll scripts => LoopKept r.nextTic (r.loopFuel scripts) r.firstNode scripts r

/-- The state in front of the loop. -/
theorem RunInv.loopInv {r : TimerRun} (h : RunInv r) :
    LoopInv r.nextTic r.firstNode (r.handler.wheel (wheelPos r.nextTic)) r where
  inv := h
  now_eq := by
    rw [nextTic, h.tracks.curTime, Nat.mod_add_mod]
  split := ⟨[], rfl⟩
  head := rfl
  due := by
    intro t n d hpending _ hdue
    have hrun : r.handler.isRunning t = true := by
      by_contra hidle
      rw [h.tracks.idle t (Bool.eq_false_iff.mpr hidle)] at hpending
      cases hpending
    obtain ⟨n', d', hpending', htimeout, -, -⟩ := h.tracks.running t hrun
    rw [hpending] at hpending'
    cases hpending'
    refine (h.wheel.mem t _).mpr ⟨hrun, ?_⟩
    rw [htimeout, hdue, nextTic, h.tracks.curTime, Nat.mod_add_mod]

theorem RunInv.length_wheel_le {r : TimerRun} (h : RunInv r) (p : Nat)
    (scripts : List (List TimerOp)) : (r.handler.wheel p).length ≤ r.loopFuel scripts := by
  have hsubset : r.handler.wheel p ⊆ List.range r.handler.nofTimers := by
    intro t ht
    have hrun := ((h.wheel.mem t p).mp ht).1
    exact List.mem_range.mpr (h.bounded.allocated t (h.bounded.running t hrun))
  have hle := (List.Nodup.subperm (h.wheel.nodup p) hsubset).length_le
  rw [List.length_range] at hle
  unfold loopFuel
  calc (r.handler.wheel p).length
      ≤ r.handler.nofTimers + scripts.flatten.length + 1 := by omega
    _ ≤ (scripts.length + 1) * (r.handler.nofTimers + scripts.flatten.length + 1) :=
      Nat.le_mul_of_pos_left _ (Nat.succ_pos _)

/-- A step whose callbacks keep the loop keeps the invariant of the run. -/
theorem RunInv.stepAll {r : TimerRun} (h : RunInv r) {scripts : List (List TimerOp)}
    (hkept : r.CallbacksKeepLoop (.stepAll scripts)) : RunInv (r.stepAll scripts) := by
  have hloop := h.loopInv.stepLoop (h.length_wheel_le _ scripts) hkept
  have hinv := hloop.inv
  generalize hr' : stepLoop r.nextTic (r.loopFuel scripts) r.firstNode scripts r = r' at hloop hinv
  have hstep : r.stepAll scripts
      = { r' with
          handler := { r'.handler with curTime := (r'.handler.curTime + 1) % 2 ^ 32 }
          completed := r'.completed + 1 } := by
    rw [TimerRun.stepAll, hr']
  rw [hstep]
  refine ⟨⟨hinv.wheel.mem, hinv.wheel.nodup⟩, ⟨hinv.bounded.allocated, hinv.bounded.free,
    hinv.bounded.running⟩, ⟨?_, ?_, hinv.tracks.idle⟩, hinv.onTime, ?_⟩
  · show (r'.handler.curTime + 1) % 2 ^ 32 = (r'.completed + 1) % 2 ^ 32
    rw [hinv.tracks.curTime, Nat.mod_add_mod]
  · intro t ht
    obtain ⟨n, d, hpending, htimeout, hn, hd⟩ := hinv.tracks.running t ht
    exact ⟨n, d, hpending, htimeout, Nat.le_succ_of_le hn, hd⟩
  · -- No timer was left that was due.
    intro t n d hpending hd
    have hover := hinv.notOverdue t n d hpending hd
    have hnot : n + d ≠ r'.completed + 1 := by
      intro hdue
      cases hloop.due t n d hpending hd hdue
    show r'.completed + 1 < n + d
    omega

theorem RunInv.step {r : TimerRun} (h : RunInv r) (call : TimerCall)
    (hkept : r.CallbacksKeepLoop call) : RunInv (r.step call) := by
  cases call with
  | op op => exact h.apply op
  | stepAll scripts => exact h.stepAll hkept

/-- Timers fire on time in every run whose callbacks keep the loop. -/
theorem firesOnTime_of_within (capacity : Nat) (calls : List TimerCall)
    (h : ExecWithin TimerRun.step CallbacksKeepLoop (init capacity) calls) :
    (exec TimerRun.step (init capacity) calls).FiresOnTime := by
  have hinv := exec_invariant_of_within RunInv (fun _ call h hkept => h.step call hkept) calls
    (init capacity) (runInv_init capacity) h
  exact ⟨hinv.onTime, hinv.notOverdue⟩

/-- A timer that starts itself again in its callback. -/
theorem firesOnTime_periodic :
    (exec TimerRun.step (init 1)
      [.op .alloc, .op (.set 0 2 true), .op (.run 0), .stepAll [], .stepAll [[.run 0]],
        .stepAll [], .stepAll []]).FiresOnTime := by
  refine firesOnTime_of_within 1 _ ⟨trivial, trivial, trivial, trivial, ?_, ?_, trivial, trivial⟩
  · exact ⟨⟨⟨fun h => absurd h (by decide), nofun⟩, trivial⟩, trivial⟩
  · exact ⟨trivial, trivial⟩

/-- Two timers are due in the same step, and the callback of the first one stops the other one,
which comes next. Its callback is called. -/
theorem not_firesOnTime_stopped :
    ¬ (exec TimerRun.step (init 2)
      [.op .alloc, .op .alloc, .op (.set 0 1 true), .op (.set 1 1 true), .op (.run 0), .op (.run 1),
        .stepAll [[.stop 0]]]).FiresOnTime := by
  intro h
  have hevents : (exec TimerRun.step (init 2)
      [.op .alloc, .op .alloc, .op (.set 0 1 true), .op (.set 1 1 true), .op (.run 0), .op (.run 1),
        .stepAll [[.stop 0]]]).events = [.expired 0 1 true, .stopped 0, .expired 1 1 true,
          .started 1 0 1, .started 0 0 1] := by decide
  have htime := h.1
  rw [hevents] at htime
  obtain ⟨⟨n, d, hpending, -⟩, -⟩ := htime
  cases hpending

end TimerRun

end Odss.Common
