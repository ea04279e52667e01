import Odss.Lib.Run
import Odss.Ue.ProcRa

/-!
# `Odss.Proofs.RandomAccess`: what a random access procedure sends

A procedure sends at most `preambleTransMax` preambles and tells RRC of one result, and in `IDLE` nothing
happens without a start order, in every run in which the deferred tasks and the timer find the procedure
in a state that they are made for.

* `resourceSelection_cases` and `responseError_cases` tell what an attempt does.
* `inv_event` is about one event, `quiet_event` about one event in `IDLE`.
* `randomAccess_of_within` is the result for runs.
-/

set_option linter.all false

namespace Odss.Ue.Ra

open Odss.Lib

variable {args : Args} {env : Env} {s : State}

/-! ### Preambles and results -/

def Signal.isPreamble : Signal → Bool
  | .prachSend _ _ _ => true
  | _ => false

/-- The number of preambles of the procedure. -/
def State.sent (s : State) : Nat := s.signals.countP Signal.isPreamble

/-- The number of calls of RRC of the procedure. -/
def State.notified (s : State) : Nat := s.signals.countP fun signal => !signal.isPreamble

/-- `resource_selection` has a preamble to select. -/
def hasPreamble (args : Args) (env : Env) (s : State) : Bool :=
  0 < s.preambleIndex ||
    match s.selGroup args env with
    | .groupA => 0 < args.rachCfg.nofGroupAPreambles
    | .groupB => 0 < args.rachCfg.nofGroupBPreambles

/-- The backoff interval that `response_error` draws, when `i` others are drawn before it. -/
def backoffDraw (args : Args) (s : State) (i : Nat) : Nat :=
  if s.backoffParamMs = 0 then 0 else args.rand (s.draws + i) % s.backoffParamMs

/-- `k` calls of `response_error` do nothing that is seen: there is no preamble, no backoff and not yet
the maximum of transmissions. -/
structure Fruitless (args : Args) (env : Env) (s : State) (k : Nat) : Prop where
  preamble : hasPreamble args env s = false
  counter : s.preambleTransmissionCounter + k ≤ args.rachCfg.preambleTransMax
  backoff : ∀ i < k, backoffDraw args s i = 0

theorem preambleTransmission_sent (s : State) :
    (s.preambleTransmission args).sent = s.sent + 1 ∧
      (s.preambleTransmission args).notified = s.notified := by
  simp [State.sent, State.notified, State.preambleTransmission, Signal.isPreamble]

/-- `resource_selection` sends a preamble if there is one, and goes back to `IDLE` if not. -/
theorem resourceSelection_cases (args : Args) (env : Env) (s : State) :
    (hasPreamble args env s = true ∧ (s.resourceSelection args env).state = .pdcchSetup ∧
      (s.resourceSelection args env).sent = s.sent + 1 ∧
      (s.resourceSelection args env).notified = s.notified ∧
      (s.resourceSelection args env).preambleTransmissionCounter = s.preambleTransmissionCounter) ∨
    (hasPreamble args env s = false ∧ s.resourceSelection args env =
      { s with lastMsg3Group := s.selGroup args env, state := .idle }) := by
  rw [hasPreamble, State.resourceSelection]
  by_cases hindex : 0 < s.preambleIndex
  · rw [if_pos hindex]
    exact .inl ⟨by simp [hindex], rfl, (preambleTransmission_sent _).1,
      (preambleTransmission_sent _).2, rfl⟩
  · rw [if_neg hindex]
    have hno : decide (0 < s.preambleIndex) = false := decide_eq_false hindex
    rw [hno, Bool.false_or]
    cases hgroup : s.selGroup args env with
    | groupA =>
      by_cases hnof : 0 < args.rachCfg.nofGroupAPreambles
      · simp only [hnof, if_true]
        exact .inl ⟨rfl, rfl, (preambleTransmission_sent _).1, (preambleTransmission_sent _).2, rfl⟩
      · simp only [hnof, if_false]
        exact .inr ⟨decide_eq_false not_false, trivial⟩
    | groupB =>
      by_cases hnof : 0 < args.rachCfg.nofGroupBPreambles
      · simp only [hnof, if_true]
        exact .inl ⟨rfl, rfl, (preambleTransmission_sent _).1, (preambleTransmission_sent _).2, rfl⟩
      · simp only [hnof, if_false]
        exact .inr ⟨decide_eq_false not_false, trivial⟩

/-- The state in which `response_error` begins a new attempt. -/
def retry (args : Args) (s : State) : State :=
  { s with
    preambleTransmissionCounter := s.preambleTransmissionCounter + 1
    timerRunning := false
    backoffIntervalStart := -1
    backoffInterval := backoffDraw args s 0
    draws := if s.backoffParamMs = 0 then s.draws else s.draws + 1 }

/-- `response_error` gives up at the maximum, and else waits or selects again. -/
theorem responseError_eq (args : Args) (env : Env) (s : State) :
    s.responseError args env =
      if args.rachCfg.preambleTransMax ≤ s.preambleTransmissionCounter then
        { s with
          preambleTransmissionCounter := s.preambleTransmissionCounter + 1
          timerRunning := false
          signals := s.signals ++ [.raProblem]
          state := .idle }
      else if backoffDraw args s 0 = 0 then (retry args s).resourceSelection args env
      else { retry args s with state := .backoffWait } := by
  simp only [State.responseError, Nat.add_le_add_iff_right, retry, backoffDraw, Nat.add_zero]
  by_cases hparam : s.backoffParamMs = 0 <;> simp [hparam]

theorem responseError_cases (args : Args) (env : Env) (s : State) :
    (args.rachCfg.preambleTransMax ≤ s.preambleTransmissionCounter ∧
      (s.responseError args env).state = .idle ∧ (s.responseError args env).sent = s.sent ∧
      (s.responseError args env).notified = s.notified + 1) ∨
    (s.preambleTransmissionCounter < args.rachCfg.preambleTransMax ∧
      (s.responseError args env).preambleTransmissionCounter = s.preambleTransmissionCounter + 1 ∧
      (s.responseError args env).notified = s.notified ∧
      (((s.responseError args env).state ≠ .backoffWait ∧
        (s.responseError args env).sent ≤ s.sent + 1) ∨
        (s.responseError args env).sent = s.sent)) := by
  rw [responseError_eq]
  by_cases hmax : args.rachCfg.preambleTransMax ≤ s.preambleTransmissionCounter
  · rw [if_pos hmax]
    refine .inl ⟨hmax, rfl, ?_, ?_⟩ <;> simp [State.sent, State.notified, Signal.isPreamble]
  · rw [if_neg hmax]
    refine .inr ⟨Nat.lt_of_not_le hmax, ?_⟩
    by_cases hdraw : backoffDraw args s 0 = 0
    · rw [if_pos hdraw]
      rcases resourceSelection_cases args env (retry args s) with
        ⟨-, hstate, hsent, hnotified, hcounter⟩ | ⟨-, hrs⟩
      · refine ⟨hcounter, hnotified, .inl ⟨?_, Nat.le_of_eq hsent⟩⟩
        rw [hstate]
        decide
      · rw [hrs]
        exact ⟨rfl, rfl, .inl ⟨nofun, Nat.le_succ _⟩⟩
    · rw [if_neg hdraw]
      exact ⟨rfl, rfl, .inr rfl⟩

theorem responseError_fruitless {k : Nat} (h : Fruitless args env s (k + 1)) :
    (s.responseError args env).state = .idle ∧
      (s.responseError args env).signals = s.signals ∧
      (s.responseError args env).transmittedContentionId = s.transmittedContentionId ∧
      Fruitless args env (s.responseError args env) k := by
  have hmax : ¬ args.rachCfg.preambleTransMax ≤ s.preambleTransmissionCounter := by
    have := h.counter
    omega
  have hnone : hasPreamble args env (retry args s) = false := h.preamble
  rw [responseError_eq, if_neg hmax, if_pos (h.backoff 0 (Nat.succ_pos k))]
  rcases resourceSelection_cases args env (retry args s) with ⟨hsome, -⟩ | ⟨-, hrs⟩
  · rw [hnone] at hsome
    cases hsome
  · rw [hrs]
    refine ⟨rfl, rfl, rfl, ?_, ?_, ?_⟩
    · -- The group that was selected is selected again.
      have hgroup : State.selGroup args env { retry args s with
          lastMsg3Group := (retry args s).selGroup args env, state := .idle } =
          (retry args s).selGroup args env := by
        simp only [State.selGroup]
        split <;> rfl
      rw [hasPreamble, hgroup]
      exact hnone
    · have := h.counter
      show s.preambleTransmissionCounter + 1 + k ≤ _
      omega
    · intro i hi
      have hdraw := h.backoff (i + 1) (Nat.succ_lt_succ hi)
      simp only [backoffDraw, retry] at hdraw ⊢
      split
      · rfl
      · rename_i hparam
        rw [if_neg hparam] at hdraw
        rwa [Nat.add_assoc, Nat.add_comm 1 i]

/-! ### The invariant -/

/-- A procedure that has not told RRC of a result. -/
structure Live (args : Args) (s : State) : Prop where
  notified : s.notified = 0
  sent : s.sent ≤ s.preambleTransmissionCounter
  counter : s.preambleTransmissionCounter ≤ args.rachCfg.preambleTransMax

/-- The bounds on what a procedure sends. -/
def Bounded (args : Args) (s : State) : Prop :=
  s.sent ≤ args.rachCfg.preambleTransMax ∧ s.notified ≤ 1

/-- The bounds hold, and outside of `IDLE` no result was told yet. During a backoff a preamble is due. -/
structure Inv (args : Args) (s : State) : Prop where
  bounded : Bounded args s
  live : s.state ≠ .idle → Live args s
  backoff : s.state = .backoffWait → s.sent + 1 ≤ s.preambleTransmissionCounter

theorem Live.bounded (h : Live args s) : Bounded args s :=
  ⟨Nat.le_trans h.sent h.counter, by rw [h.notified]; exact Nat.zero_le 1⟩

theorem inv_idle (hidle : s.state = .idle) (h : Bounded args s) : Inv args s where
  bounded := h
  live hstate := absurd hidle hstate
  backoff hstate := by rw [hidle] at hstate; cases hstate

theorem Live.inv (h : Live args s) (hstate : s.state ≠ .backoffWait) : Inv args s where
  bounded := h.bounded
  live _ := h
  backoff hwait := absurd hwait hstate

theorem Inv.congr {s' : State} (h : Inv args s) (hstate : s'.state = s.state)
    (hcounter : s'.preambleTransmissionCounter = s.preambleTransmissionCounter)
    (hsignals : s'.signals = s.signals) : Inv args s' := by
  have hsent : s'.sent = s.sent := by rw [State.sent, State.sent, hsignals]
  have hnotified : s'.notified = s.notified := by rw [State.notified, State.notified, hsignals]
  refine ⟨?_, ?_, ?_⟩
  · rw [Bounded, hsent, hnotified]
    exact h.bounded
  · intro hlive
    rw [hstate] at hlive
    have := h.live hlive
    exact ⟨hnotified.trans this.notified, by rw [hsent, hcounter]; exact this.sent,
      by rw [hcounter]; exact this.counter⟩
  · intro hwait
    rw [hstate] at hwait
    rw [hsent, hcounter]
    exact h.backoff hwait

theorem inv_resourceSelection (h : Live args s)
    (hdue : s.sent + 1 ≤ s.preambleTransmissionCounter) :
    Inv args (s.resourceSelection args env) := by
  rcases resourceSelection_cases args env s with ⟨-, hstate, hsent, hnotified, hcounter⟩ | ⟨-, hrs⟩
  · have hlive : Live args (s.resourceSelection args env) :=
      ⟨hnotified.trans h.notified, by rw [hsent, hcounter]; exact hdue,
        by rw [hcounter]; exact h.counter⟩
    exact hlive.inv (by rw [hstate]; decide)
  · rw [hrs]
    exact inv_idle rfl h.bounded

/-- An error below the maximum leaves the procedure live. -/
theorem live_responseError (h : Live args s)
    (hmax : s.preambleTransmissionCounter < args.rachCfg.preambleTransMax) :
    Live args (s.responseError args env) := by
  rcases responseError_cases args env s with ⟨hle, -⟩ | ⟨-, hcounter, hnotified, hsent⟩
  · omega
  · have hle := h.sent
    refine ⟨hnotified.trans h.notified, ?_, by omega⟩
    rcases hsent with ⟨-, hsent⟩ | hsent <;> omega

theorem inv_responseError (h : Live args s) : Inv args (s.responseError args env) := by
  have hle := h.sent
  have hmax := h.counter
  rcases responseError_cases args env s with
    ⟨-, hidle, hsent, hnotified⟩ | ⟨hlt, hcounter, -, hsent⟩
  · refine inv_idle hidle ⟨?_, ?_⟩
    · omega
    · have hzero := h.notified
      omega
  · have hlive : Live args (s.responseError args env) := live_responseError h hlt
    refine ⟨hlive.bounded, fun _ => hlive, fun hwait => ?_⟩
    rcases hsent with ⟨hno, -⟩ | hsent
    · exact absurd hwait hno
    · omega

theorem inv_complete (h : Live args s) : Inv args s.complete := by
  have hbounded := h.bounded.1
  have hsent : s.complete.sent = s.sent := by simp [State.sent, State.complete, Signal.isPreamble]
  have hnotified : s.complete.notified = s.notified + 1 := by
    simp [State.notified, State.complete, Signal.isPreamble]
  refine inv_idle rfl ⟨?_, ?_⟩
  · rwa [hsent]
  · have hzero := h.notified
    omega

/-- A start order begins a procedure, and its first preamble needs a maximum of at least one. -/
theorem inv_initialization
    (hmax : hasPreamble args env (s.prepare args env) = true → 1 ≤ args.rachCfg.preambleTransMax) :
    Inv args (s.initialization args env) := by
  have hsent₀ : (s.prepare args env).sent = 0 := rfl
  have hnotified₀ : (s.prepare args env).notified = 0 := rfl
  rw [State.initialization]
  rcases resourceSelection_cases args env (s.prepare args env) with
    ⟨hsome, hstate, hsent, hnotified, hcounter⟩ | ⟨-, hrs⟩
  · have hcounter₀ : (s.prepare args env).preambleTransmissionCounter = 1 := rfl
    have hlive : Live args ((s.prepare args env).resourceSelection args env) :=
      ⟨hnotified.trans hnotified₀, by omega, by have := hmax hsome; omega⟩
    exact hlive.inv (by rw [hstate]; decide)
  · rw [hrs]
    exact inv_idle rfl ⟨Nat.zero_le _, Nat.zero_le _⟩

theorem tbDecodedOk_keeps (env : Env) (backoff : Option Nat) (subhs : List RarSubh) (s : State) :
    (s.tbDecodedOk env backoff subhs).state = s.state ∧
      (s.tbDecodedOk env backoff subhs).preambleTransmissionCounter = s.preambleTransmissionCounter ∧
      (s.tbDecodedOk env backoff subhs).signals = s.signals := by
  have hloop : ∀ (subhs : List RarSubh) (t : State),
      (subhs.foldl (fun s subh => State.readSubh env subh s) t).state = t.state ∧
      (subhs.foldl (fun s subh => State.readSubh env subh s) t).preambleTransmissionCounter =
        t.preambleTransmissionCounter ∧
      (subhs.foldl (fun s subh => State.readSubh env subh s) t).signals = t.signals := by
    intro subhs
    induction subhs with
    | nil => exact fun t => ⟨rfl, rfl, rfl⟩
    | cons subh subhs ih =>
      intro t
      have hone : (t.readSubh env subh).state = t.state ∧
          (t.readSubh env subh).preambleTransmissionCounter = t.preambleTransmissionCounter ∧
          (t.readSubh env subh).signals = t.signals := by
        simp only [State.readSubh]
        split
        · split
          · split <;> exact ⟨rfl, rfl, rfl⟩
          · exact ⟨rfl, rfl, rfl⟩
        · exact ⟨rfl, rfl, rfl⟩
      obtain ⟨hstate, hcounter, hsignals⟩ := ih (t.readSubh env subh)
      exact ⟨hstate.trans hone.1, hcounter.trans hone.2.1, hsignals.trans hone.2.2⟩
  exact hloop subhs _

/-! ### Events -/

/-- What the execution of a deferred task has to meet. -/
def TaskGuard (args : Args) (env : Env) (s : State) : Task → Prop
  | .waitForContentionResolution => s.state ≠ .idle
  | .completeProcedure => s.state ≠ .idle
  | .contentionResolutionIdReceived rxContentionId =>
    s.state = .contentionResolution ∨
      (s.state ≠ .idle ∧ s.preambleTransmissionCounter < args.rachCfg.preambleTransMax) ∨
      (s.state = .idle ∧ s.transmittedContentionId ≠ rxContentionId ∧ Fruitless args env s 2)
  | .pdcchToCrnti isNewUplinkTransmission =>
    (s.startedByPdcch = false ∧ isNewUplinkTransmission = false) ∨ s.state ≠ .idle
  | .harqRetx => True
  | .harqMaxRetx => True

/-- What an event has to meet. -/
def Guard (args : Args) (s : State) : Event × Env → Prop
  | (.startMacOrder msgLenBits, env) => s.state = .idle →
    hasPreamble args env
      (({ s with startedByPdcch := false, newRaMsgLen := msgLenBits } : State).prepare args env) = true →
    1 ≤ args.rachCfg.preambleTransMax
  | (.startPdcchOrder, env) => s.state = .idle →
    hasPreamble args env (({ s with startedByPdcch := true } : State).prepare args env) = true →
    1 ≤ args.rachCfg.preambleTransMax
  | (.timerExpired, env) => s.state ≠ .idle ∨ s.timerSet = false ∨ Fruitless args env s 1
  | (.runTask, env) => ∀ task tasks, s.taskQueue = task :: tasks → TaskGuard args env s task
  | _ => True

theorem inv_init (args : Args) : Inv args State.init :=
  inv_idle rfl ⟨Nat.zero_le _, Nat.zero_le _⟩

theorem inv_stepTti (h : Inv args s) (env : Env) (tti : Nat) : Inv args (s.stepTti args env tti) := by
  rw [State.stepTti]
  cases hstate : s.state with
  | idle => exact h
  | pdcchSetup =>
    simp only [State.statePdcchSetup]
    split
    · have hlive := h.live (by rw [hstate]; decide)
      exact Live.inv (s := { s with raTti := _, state := _ })
        ⟨hlive.notified, hlive.sent, hlive.counter⟩ nofun
    · exact h
  | responseReception =>
    simp only [State.stateResponseReception]
    split
    · exact inv_responseError (h.live (by rw [hstate]; decide))
    · exact h
  | backoffWait =>
    have hlive := h.live (by rw [hstate]; decide)
    have hdue := h.backoff hstate
    simp only [State.stateBackoffWait]
    split
    · exact h
    · split
      · exact inv_resourceSelection hlive hdue
      · have hwait : ∀ t : State, t.state = s.state →
            t.preambleTransmissionCounter = s.preambleTransmissionCounter → t.signals = s.signals →
            Inv args (if t.backoffInterval ≤ ttiInterval tti t.backoffIntervalStart.toNat then
              State.resourceSelection args env { t with backoffInterval := 0 } else t) := by
          intro t hstate' hcounter hsignals
          have ht := h.congr hstate' hcounter hsignals
          split
          · have hlive' := ht.live (by rw [hstate', hstate]; decide)
            exact inv_resourceSelection (s := { t with backoffInterval := 0 })
              ⟨hlive'.notified, hlive'.sent, hlive'.counter⟩ (ht.backoff (hstate'.trans hstate))
          · exact ht
        split <;> exact hwait _ rfl rfl rfl
  | contentionResolution =>
    simp only [State.stateContentionResolution]
    split
    · exact h.congr rfl rfl rfl
    · exact h

/-- A contention resolution identity that is received by a live procedure. In a wrong state it counts as
two errors at most. -/
theorem inv_contentionResolutionId {rxContentionId : Nat} (h : Live args s)
    (hmax : s.state = .contentionResolution ∨
      s.preambleTransmissionCounter < args.rachCfg.preambleTransMax) :
    Inv args (s.contentionResolutionIdReceivedNolock args env rxContentionId) := by
  have hlive : Live args
      (if s.state ≠ .contentionResolution then s.responseError args env else s) := by
    split
    · rename_i hwrong
      exact live_responseError h (hmax.resolve_left hwrong)
    · exact h
  simp only [State.contentionResolutionIdReceivedNolock]
  generalize (if s.state ≠ .contentionResolution then s.responseError args env else s) = t at hlive
  have hstopped : Live args { t with timerRunning := false } :=
    ⟨hlive.notified, hlive.sent, hlive.counter⟩
  split
  · exact inv_complete hstopped
  · exact inv_responseError hstopped

/-- An identity that does not match, in `IDLE` and without a preamble. -/
theorem quiet_contentionResolutionId {rxContentionId : Nat} (hidle : s.state = .idle)
    (hid : s.transmittedContentionId ≠ rxContentionId) (h : Fruitless args env s 2) :
    (s.contentionResolutionIdReceivedNolock args env rxContentionId).state = .idle ∧
      (s.contentionResolutionIdReceivedNolock args env rxContentionId).signals = s.signals := by
  have hwrong : s.state ≠ .contentionResolution := by rw [hidle]; decide
  obtain ⟨-, hsignals₁, hid₁, h₁⟩ := responseError_fruitless h
  have hid' : (s.responseError args env).transmittedContentionId ≠ rxContentionId := by rwa [hid₁]
  simp only [State.contentionResolutionIdReceivedNolock, if_pos hwrong]
  rw [if_neg hid']
  obtain ⟨hidle₂, hsignals₂, -, -⟩ := responseError_fruitless
    (s := { s.responseError args env with timerRunning := false }) (k := 0)
    ⟨h₁.preamble, h₁.counter, h₁.backoff⟩
  exact ⟨hidle₂, hsignals₂.trans hsignals₁⟩

theorem quiet_execute {task : Task} (hidle : s.state = .idle) (hguard : TaskGuard args env s task) :
    (s.execute args env task).state = .idle ∧ (s.execute args env task).signals = s.signals := by
  cases task with
  | waitForContentionResolution => exact absurd hidle hguard
  | completeProcedure => exact absurd hidle hguard
  | contentionResolutionIdReceived rxContentionId =>
    rcases hguard with hconres | ⟨hlive, -⟩ | ⟨-, hid, hfruitless⟩
    · rw [hidle] at hconres
      cases hconres
    · exact absurd hidle hlive
    · exact quiet_contentionResolutionId hidle hid hfruitless
  | pdcchToCrnti isNewUplinkTransmission =>
    rcases hguard with ⟨hstarted, hnew⟩ | hlive
    · simp only [State.execute, hstarted, hnew]
      exact ⟨hidle, rfl⟩
    · exact absurd hidle hlive
  | harqRetx | harqMaxRetx =>
    have hwrong : s.state ≠ .contentionResolution := by rw [hidle]; decide
    simp only [State.execute, if_pos hwrong]
    exact ⟨hidle, trivial⟩

theorem taskGuard_dequeue {task : Task} {tasks : List Task} (h : TaskGuard args env s task) :
    TaskGuard args env { s with taskQueue := tasks } task := by
  cases task with
  | contentionResolutionIdReceived rxContentionId =>
    rcases h with hconres | hmax | ⟨hidle, hid, hfruitless⟩
    · exact .inl hconres
    · exact .inr (.inl hmax)
    · exact .inr (.inr ⟨hidle, hid, hfruitless.preamble, hfruitless.counter, hfruitless.backoff⟩)
  | _ => exact h

theorem inv_execute {task : Task} (h : Inv args s) (hguard : TaskGuard args env s task) :
    Inv args (s.execute args env task) := by
  by_cases hidle : s.state = .idle
  · obtain ⟨hidle', hsignals⟩ := quiet_execute hidle hguard
    refine inv_idle hidle' ?_
    rw [Bounded, State.sent, State.notified, hsignals]
    exact h.bounded
  · have hlive := h.live hidle
    cases task with
    | waitForContentionResolution =>
      exact Live.inv (s := { s with state := _ }) ⟨hlive.notified, hlive.sent, hlive.counter⟩ nofun
    | completeProcedure => exact inv_complete hlive
    | contentionResolutionIdReceived rxContentionId =>
      refine inv_contentionResolutionId hlive ?_
      rcases hguard with hconres | ⟨-, hmax⟩ | ⟨hno, -⟩
      · exact .inl hconres
      · exact .inr hmax
      · exact absurd hno hidle
    | pdcchToCrnti isNewUplinkTransmission =>
      simp only [State.execute]
      split
      · exact inv_complete (s := { s with timerRunning := false })
          ⟨hlive.notified, hlive.sent, hlive.counter⟩
      · exact h
    | harqRetx =>
      simp only [State.execute]
      split
      · exact h
      · exact h.congr rfl rfl rfl
    | harqMaxRetx =>
      simp only [State.execute]
      split
      · exact h
      · exact inv_responseError hlive

/-- An event within the guard keeps the invariant. -/
theorem inv_event {ev : Event × Env} {s' : State} {u : Unit} (h : Inv args s)
    (hguard : Guard args s ev) (hs' : step args s ev = some (s', u)) : Inv args s' := by
  obtain ⟨ev, env⟩ := ev
  cases ev with
  | startMacOrder msgLenBits =>
    cases hs'
    rw [State.startMacOrder]
    split
    · rename_i hidle
      exact inv_initialization (hguard hidle)
    · exact h
  | startPdcchOrder =>
    cases hs'
    rw [State.startPdcchOrder]
    split
    · rename_i hidle
      exact inv_initialization (hguard hidle)
    · exact h
  | step tti =>
    cases hs'
    exact inv_stepTti h env tti
  | tbDecodedOk backoff subhs =>
    cases hs'
    obtain ⟨hstate, hcounter, hsignals⟩ := tbDecodedOk_keeps env backoff subhs s
    exact h.congr hstate hcounter hsignals
  | setConfigDed _ _ | contentionResolutionIdReceived _ | pdcchToCrnti _ | harqRetx | harqMaxRetx =>
    cases hs'
    exact h.congr rfl rfl rfl
  | timerExpired =>
    simp only [step] at hs'
    split at hs'
    · cases hs'
      rw [State.timerExpired]
      split
      · rename_i hset
        by_cases hidle : s.state = .idle
        · rcases hguard with hlive | hunset | hfruitless
          · exact absurd hidle hlive
          · rw [hunset] at hset
            cases hset
          · obtain ⟨hidle', hsignals, -⟩ := responseError_fruitless
              (s := { s with timerRunning := false }) (k := 0)
              ⟨hfruitless.preamble, hfruitless.counter, hfruitless.backoff⟩
            refine inv_idle hidle' ?_
            rw [Bounded, State.sent, State.notified, hsignals]
            exact h.bounded
        · have hlive := h.live hidle
          exact inv_responseError ⟨hlive.notified, hlive.sent, hlive.counter⟩
      · exact h.congr rfl rfl rfl
    · cases hs'
  | reset =>
    cases hs'
    exact inv_idle rfl h.bounded
  | runTask =>
    simp only [step] at hs'
    split at hs'
    · cases hs'
    · rename_i task tasks hqueue
      cases hs'
      have hdequeued : Inv args { s with taskQueue := tasks } := h.congr rfl rfl rfl
      exact inv_execute hdequeued (taskGuard_dequeue (hguard task tasks hqueue))

/-- In `IDLE` an event within the guard that is no start order leaves the state, and sends nothing. -/
theorem quiet_event {ev : Event × Env} {s' : State} {u : Unit} (hidle : s.state = .idle)
    (hstart : ev.1.isStartOrder = false) (hguard : Guard args s ev)
    (hs' : step args s ev = some (s', u)) : s'.state = .idle ∧ s'.signals = s.signals := by
  obtain ⟨ev, env⟩ := ev
  cases ev with
  | startMacOrder _ | startPdcchOrder => cases hstart
  | step tti =>
    cases hs'
    rw [State.stepTti, hidle]
    exact ⟨hidle, rfl⟩
  | tbDecodedOk backoff subhs =>
    cases hs'
    obtain ⟨hstate, -, hsignals⟩ := tbDecodedOk_keeps env backoff subhs s
    exact ⟨hstate.trans hidle, hsignals⟩
  | setConfigDed _ _ | contentionResolutionIdReceived _ | pdcchToCrnti _ | harqRetx | harqMaxRetx =>
    cases hs'
    exact ⟨hidle, rfl⟩
  | reset =>
    cases hs'
    exact ⟨rfl, rfl⟩
  | timerExpired =>
    simp only [step] at hs'
    split at hs'
    · cases hs'
      rw [State.timerExpired]
      split
      · rename_i hset
        rcases hguard with hlive | hunset | hfruitless
        · exact absurd hidle hlive
        · rw [hunset] at hset
          cases hset
        · obtain ⟨hidle', hsignals, -⟩ := responseError_fruitless
            (s := { s with timerRunning := false }) (k := 0)
            ⟨hfruitless.preamble, hfruitless.counter, hfruitless.backoff⟩
          exact ⟨hidle', hsignals⟩
      · exact ⟨hidle, rfl⟩
    · cases hs'
  | runTask =>
    simp only [step] at hs'
    split at hs'
    · cases hs'
    · rename_i task tasks hqueue
      cases hs'
      exact quiet_execute (s := { s with taskQueue := tasks }) hidle
        (taskGuard_dequeue (hguard task tasks hqueue))

/-! ### Runs -/

/-- While the state is `IDLE`, no event other than a start order sends a preamble, tells RRC or leaves
`IDLE`. -/
def IdleQuiet (args : Args) (s : State) (events : List (Event × Env)) : Prop :=
  ∀ pre ev post, events = pre ++ ev :: post → ∀ t us t' u, run (step args) s pre = some (t, us) →
    step args t ev = some (t', u) → t.state = .idle → ev.1.isStartOrder = false →
    t'.state = .idle ∧ t'.signals = t.signals

/-- In a run of events within the guard each procedure sends at most `preambleTransMax` preambles and
tells RRC of at most one result, and `IDLE` is only left by a start order. -/
theorem randomAccess_of_within (args : Args) (events : List (Event × Env))
    (hwithin : StepsWithin (step args) (Guard args) State.init events) :
    AlongRun (step args) (Bounded args) State.init events ∧ IdleQuiet args State.init events := by
  constructor
  · have halong := alongRun_of_within (Inv args)
      (fun s ev s' u h hguard hs' => inv_event (u := u) h hguard hs') (inv_init args) hwithin
    intro pre post hevents t us hrun
    exact (halong pre post hevents t us hrun).bounded
  · intro pre ev post hevents t us t' u hrun hs' hidle hstart
    exact quiet_event hidle hstart (stepsWithin_iff_forall.mp hwithin pre ev post hevents t us hrun) hs'

/-- A cell with 52 preambles of group A and three transmissions. -/
def cellArgs : Args where
  rachCfg := ⟨52, 52, 56, 10, 2, 3, -104, 64⟩
  delayTime := 0
  rand n := n

/-- The other components, when the preamble and Msg3 are sent. -/
def txEnv : Env := ⟨⟨true, 4, 0, 0⟩, false, true, 0, 5⟩
def msg3Env : Env := { txEnv with msg3IsTransmitted := true }

/-- A procedure that completes with the second of two preambles. -/
theorem randomAccess_completes :
    AlongRun (step cellArgs) (Bounded cellArgs) State.init
      [(.startMacOrder 56, txEnv), (.step 4, txEnv), (.step 17, txEnv), (.step 20, txEnv),
        (.tbDecodedOk none [⟨some 1⟩], txEnv), (.runTask, txEnv), (.step 26, msg3Env),
        (.contentionResolutionIdReceived 5, msg3Env), (.runTask, msg3Env)] ∧
      IdleQuiet cellArgs State.init
      [(.startMacOrder 56, txEnv), (.step 4, txEnv), (.step 17, txEnv), (.step 20, txEnv),
        (.tbDecodedOk none [⟨some 1⟩], txEnv), (.runTask, txEnv), (.step 26, msg3Env),
        (.contentionResolutionIdReceived 5, msg3Env), (.runTask, msg3Env)] := by
  apply randomAccess_of_within
  refine ⟨fun _ _ => by decide, fun s₁ u₁ hs₁ => ?_⟩
  cases hs₁
  refine ⟨trivial, fun s₂ u₂ hs₂ => ?_⟩
  cases hs₂
  refine ⟨trivial, fun s₃ u₃ hs₃ => ?_⟩
  cases hs₃
  refine ⟨trivial, fun s₄ u₄ hs₄ => ?_⟩
  cases hs₄
  refine ⟨trivial, fun s₅ u₅ hs₅ => ?_⟩
  cases hs₅
  refine ⟨?_, fun s₆ u₆ hs₆ => ?_⟩
  · intro task tasks hqueue
    cases hqueue
    show _ ≠ _
    decide
  cases hs₆
  refine ⟨trivial, fun s₇ u₇ hs₇ => ?_⟩
  cases hs₇
  refine ⟨trivial, fun s₈ u₈ hs₈ => ?_⟩
  cases hs₈
  refine ⟨?_, fun _ _ _ => trivial⟩
  intro task tasks hqueue
  cases hqueue
  exact .inl (by decide)

/-- A contention resolution identity that is received in `IDLE` starts to send preambles. -/
theorem idle_sends_preambles :
    ¬ IdleQuiet cellArgs State.init
      [(.contentionResolutionIdReceived 5, txEnv), (.runTask, txEnv)] := by
  intro h
  have hquiet := h [(.contentionResolutionIdReceived 5, txEnv)] (.runTask, txEnv) [] rfl _ _ _ _ rfl rfl
    rfl rfl
  exact absurd hquiet.1 (by decide)

end Odss.Ue.Ra
