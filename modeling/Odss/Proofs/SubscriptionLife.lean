import Odss.Ric.Subscription

/-!
# `Odss.Proofs.SubscriptionLife`: the life cycle of the E2 subscriptions

`Lifecycle` is the property of a sequence of messages: the agent finds exactly the live
subscriptions, a live one is deleted once and with success, and a failed request leaves both lists
as they were.

The list of the agent is cleared by a reset and never appended to, so it is always empty
(`Unlisted`). `lookup_subscription` then finds nothing and no delete request succeeds, and the first
request that is answered with success breaks the life cycle. A failed request breaks it when the
service model had accepted the object that the error path deletes. `lifecycle_iff_within` says that
nothing else does.
-/

set_option linter.all false

namespace Odss.Ric.Agent

open Odss.Lib

/-! ### The property and its condition -/

/-- The life cycle of the subscriptions over a sequence of messages.

- `defined`: no message leads to undefined behaviour;
- `found`: `lookup_subscription` finds the live subscriptions and no other;
- `deleted`: a delete request for a live subscription is given to `handle_subscription_del` once
  and is answered with success;
- `failed`: a request that is answered with failure leaves the lists of the agent and of the
  model as they were. -/
structure Lifecycle (functionIdMap : Int → Option RanFunction) (msgs : List Msg) : Prop where
  defined : ∃ s outs, run step (init functionIdMap) msgs = some (s, outs)
  found : ∀ pre post, msgs = pre ++ post → ∀ s outs,
    run step (init functionIdMap) pre = some (s, outs) →
    ∀ id, (∃ ptr, s.lookupSubscription id = some (some ptr)) ↔ id ∈ live outs
  deleted : ∀ pre req post, msgs = pre ++ .subscriptionDeleteRequest req :: post →
    ∀ s outs s' out, run step (init functionIdMap) pre = some (s, outs) →
    step s (.subscriptionDeleteRequest req) = some (s', out) → deleteId req ∈ live outs →
    ∃ ptr, s.lookupSubscription (deleteId req) = some (some ptr) ∧
      out = .answered (some (.subscriptionDeleteResponse (deleteId req))) [ptr]
  failed : ∀ pre req post, msgs = pre ++ .subscriptionRequest req :: post →
    ∀ s outs s' ids deleted, run step (init functionIdMap) pre = some (s, outs) →
    step s (.subscriptionRequest req) =
      some (s', .answered (some (.subscriptionFailure req.id ids)) deleted) →
    s'.subscriptions = s.subscriptions ∧ s'.model.subscriptions = s.model.subscriptions

/-- The service model accepts the request. -/
def Accepts (s : Agent) (req : SubscriptionRequest) : Prop :=
  s.functionIdMap req.id.functionId = some .nexran ∧
    (req.eventTrigger = some .ranEventDefinition ∨
      ∃ period, req.eventTrigger = some (.periodDefinition period)) ∧
    ∃ action ∈ req.actions, action.2 = .report

/-- The condition on a message: a request that the service model accepts finds an id for its timer
and is not answered. -/
def Unanswered (s : Agent) : Msg → Prop
  | .subscriptionRequest req => s.Accepts req →
    s.model.queue.nextId + 1 < 2 ^ 31 ∧ req.responseEncodes = false ∧ req.failureEncodes = false
  | _ => True

/-! ### One step -/

/-- What holds in every run: the agent has no subscription in its list, so that no timer is ever
cancelled. -/
structure Unlisted (s : Agent) : Prop where
  subscriptions : s.subscriptions = []
  owner : s.model.queue.owner = none

theorem init_unlisted (functionIdMap : Int → Option RanFunction) : Unlisted (init functionIdMap) :=
  ⟨rfl, rfl⟩

theorem lookupSubscription_of_unlisted {s : Agent} (h : Unlisted s) (id : SubscriptionId) :
    s.lookupSubscription id = some none := by
  simp [lookupSubscription, h.subscriptions, lookupIn]

/-- A request has failed: the lists are as they were, and the failure is sent when it can be
encoded. -/
structure Failed (s s' : Agent) (req : SubscriptionRequest) (out : AgentOut) : Prop where
  subscriptions : s'.subscriptions = s.subscriptions
  out : (req.failureEncodes = true ∧
      ∃ ids, out = .answered (some (.subscriptionFailure req.id ids)) []) ∨
    (req.failureEncodes = false ∧ out = .answered none [])

theorem subscriptionErrout_failed {s s₁ : Agent} (h : s₁.subscriptions = s.subscriptions)
    (req : SubscriptionRequest) (ptr : Nat) (rs : Subscription) :
    Failed s (s₁.subscriptionErrout req ptr rs).1 req (s₁.subscriptionErrout req ptr rs).2 := by
  constructor
  · exact h
  · unfold subscriptionErrout
    cases h : req.failureEncodes with
    | false => simp
    | true => simp

/-- The model has registered the object `ptr`, with an enabled action. -/
structure Registered (m m' : NexranModel) (ptr : Nat) (sub' : Subscription) : Prop where
  subscriptions : m'.subscriptions = m.subscriptions ++ [ptr]
  owner : m'.queue.owner = m.queue.owner
  enabled : sub'.actions.any Action.enabled = true

/-- An object with a report action is registered, unless the timer has no id. -/
theorem addReports_of_report {m : NexranModel} (hfree : m.queue.owner = none) (now : Timeval)
    (ptr : Nat) {sub : Subscription} (period : Int) (onEvents : Bool)
    (h : ∃ action ∈ sub.actions, action.type = .report) :
    (m.queue.nextId + 1 < 2 ^ 31 ∧ ∃ m' sub',
      m.addReports now ptr sub period onEvents = some (m', sub', 0) ∧ Registered m m' ptr sub') ∨
    (¬ m.queue.nextId + 1 < 2 ^ 31 ∧ m.addReports now ptr sub period onEvents = none) := by
  have hany : (sub.actions.any fun action => action.type = .report) = true := by simpa using h
  unfold NexranModel.addReports
  rw [if_pos hany, if_pos hfree]
  by_cases hid : m.queue.nextId + 1 < 2 ^ 31
  · left
    refine ⟨hid, ?_⟩
    simp only [TimerQueue.insertPeriodic, if_neg (show ¬ m.queue.nextId + 1 ≥ 2 ^ 31 by omega)]
    refine ⟨_, _, rfl, rfl, rfl, ?_⟩
    obtain ⟨action, hmem, htype⟩ := h
    rw [List.any_eq_true]
    exact ⟨{ action with enabled := true },
      List.mem_map.mpr ⟨action, hmem, by rw [if_pos htype]⟩, rfl⟩
  · right
    refine ⟨hid, ?_⟩
    simp only [TimerQueue.insertPeriodic, if_pos (show m.queue.nextId + 1 ≥ 2 ^ 31 by omega)]

/-- An object without one is refused. -/
theorem addReports_of_no_report (m : NexranModel) (now : Timeval) (ptr : Nat) {sub : Subscription}
    (period : Int) (onEvents : Bool) (h : ¬ ∃ action ∈ sub.actions, action.type = .report) :
    m.addReports now ptr sub period onEvents = some (m, sub, -1) := by
  unfold NexranModel.addReports
  rw [if_neg (by simpa using h)]

/-- The object that the agent creates for a request. -/
def newSubscription (req : SubscriptionRequest) : Subscription where
  requestId := req.id.requestId
  instanceId := req.id.instanceId
  functionId := req.id.functionId
  eventTrigger := req.eventTrigger
  actions := req.actions.map fun action => ⟨action.1, action.2, false⟩
  modelData := none

theorem report_newSubscription (req : SubscriptionRequest) :
    (∃ action ∈ (newSubscription req).actions, action.type = .report) ↔
      ∃ action ∈ req.actions, action.2 = .report := by
  simp [newSubscription]

/-- The agent's call of the service model, for a request that the model does not accept. -/
theorem handleSubscriptionAdd_of_not_accepts {s : Agent} {req : SubscriptionRequest}
    {func : RanFunction} (hfunc : s.functionIdMap req.id.functionId = some func)
    (h : ¬ s.Accepts req) :
    ∃ ret, handleSubscriptionAdd func s.model req.now s.nextPtr (newSubscription req) =
      some (s.model, newSubscription req, ret) := by
  cases func with
  | gnbNrt => exact ⟨0, rfl⟩
  | nexran =>
    refine ⟨-1, ?_⟩
    show s.model.handleSubscriptionAdd req.now s.nextPtr (newSubscription req) = _
    have hreport : ∀ period onEvents, (req.eventTrigger = some .ranEventDefinition ∨
        ∃ period, req.eventTrigger = some (.periodDefinition period)) →
        s.model.addReports req.now s.nextPtr (newSubscription req) period onEvents =
          some (s.model, newSubscription req, -1) := by
      intro period onEvents htrigger
      apply addReports_of_no_report
      rw [report_newSubscription]
      intro hany
      exact h ⟨hfunc, htrigger, hany⟩
    unfold NexranModel.handleSubscriptionAdd
    cases htrigger : (newSubscription req).eventTrigger with
    | none => rfl
    | some trigger =>
      have htrigger : req.eventTrigger = some trigger := htrigger
      cases trigger with
      | undecodable => rfl
      | unrecognized => rfl
      | periodDefinition period => exact hreport period false (Or.inr ⟨period, htrigger⟩)
      | ranEventDefinition => exact hreport 1000 true (Or.inl htrigger)

/-- A request that the model does not accept fails, and the model is as it was. -/
theorem request_of_not_accepts {s : Agent} {req : SubscriptionRequest} (h : ¬ s.Accepts req) :
    ∃ s' out, step s (.subscriptionRequest req) = some (s', out) ∧ Failed s s' req out ∧
      s'.model = s.model := by
  show ∃ s' out, s.handleSubscriptionRequest req = some (s', out) ∧ _ ∧ _
  simp only [handleSubscriptionRequest]
  cases hfunc : s.functionIdMap req.id.functionId with
  | none => exact ⟨_, _, rfl, subscriptionErrout_failed (by rfl) req _ _, rfl⟩
  | some func =>
    obtain ⟨ret, hadd⟩ := handleSubscriptionAdd_of_not_accepts hfunc h
    rw [newSubscription] at hadd
    simp only [hadd]
    -- The new object has no enabled action, whatever the model returns.
    have hany : ((req.actions.map fun action => (⟨action.1, action.2, false⟩ : Action)).any
        Action.enabled) = false := by simp
    rw [hany]
    split
    · exact ⟨_, _, rfl, subscriptionErrout_failed (by rfl) req _ _, rfl⟩
    · exact ⟨_, _, rfl, subscriptionErrout_failed (by rfl) req _ _, rfl⟩

/-- What a request that the model accepts does: the object is registered, whether the response can
be sent or not. -/
structure Accepted (s s' : Agent) (req : SubscriptionRequest) (out : AgentOut) : Prop where
  subscriptions : s'.subscriptions = s.subscriptions
  model : s'.model.subscriptions = s.model.subscriptions ++ [s.nextPtr]
  owner : s'.model.queue.owner = s.model.queue.owner
  answered : req.responseEncodes = true →
    ∃ ids ids', out = .answered (some (.subscriptionResponse req.id ids ids')) []
  unanswered : req.responseEncodes = false → Failed s s' req out

theorem request_of_accepts {s : Agent} (hs : Unlisted s) {req : SubscriptionRequest}
    (h : s.Accepts req) :
    (s.model.queue.nextId + 1 < 2 ^ 31 ∧
      ∃ s' out, step s (.subscriptionRequest req) = some (s', out) ∧ Accepted s s' req out) ∨
    (¬ s.model.queue.nextId + 1 < 2 ^ 31 ∧ step s (.subscriptionRequest req) = none) := by
  obtain ⟨hfunc, htrigger, hreport⟩ := h
  rw [← report_newSubscription] at hreport
  have hadd : ∃ period onEvents,
      s.model.handleSubscriptionAdd req.now s.nextPtr (newSubscription req) =
        s.model.addReports req.now s.nextPtr (newSubscription req) period onEvents := by
    rcases htrigger with htrigger | ⟨period, htrigger⟩
    · exact ⟨1000, true, by
        simp [NexranModel.handleSubscriptionAdd, newSubscription, htrigger]⟩
    · exact ⟨period, false, by
        simp [NexranModel.handleSubscriptionAdd, newSubscription, htrigger]⟩
  obtain ⟨period, onEvents, hadd⟩ := hadd
  rcases addReports_of_report hs.owner req.now s.nextPtr period onEvents hreport with
    ⟨hid, m', sub', hm, hreg⟩ | ⟨hid, hm⟩
  · left
    refine ⟨hid, ?_⟩
    show ∃ s' out, s.handleSubscriptionRequest req = some (s', out) ∧ _
    rw [hm, newSubscription] at hadd
    simp only [handleSubscriptionRequest, hfunc, handleSubscriptionAdd, hadd, hreg.enabled]
    cases hencodes : req.responseEncodes with
    | true =>
      refine ⟨_, _, rfl, rfl, hreg.subscriptions, hreg.owner, fun _ => ⟨_, _, rfl⟩, fun hne => ?_⟩
      rw [hencodes] at hne
      cases hne
    | false =>
      refine ⟨_, _, rfl, rfl, hreg.subscriptions, hreg.owner, fun hne => ?_, fun _ => ?_⟩
      · rw [hencodes] at hne
        cases hne
      · exact subscriptionErrout_failed (by rfl) req _ _
  · right
    refine ⟨hid, ?_⟩
    show s.handleSubscriptionRequest req = none
    rw [hm, newSubscription] at hadd
    simp only [handleSubscriptionRequest, hfunc, handleSubscriptionAdd, hadd]

/-- A delete request finds no subscription: the agent stays as it is, and the answer, if any, is a
failure. -/
theorem delete_of_unlisted {s : Agent} (hs : Unlisted s) (req : SubscriptionDeleteRequest) :
    ∃ out, step s (.subscriptionDeleteRequest req) = some (s, out) ∧
      (out = .answered none [] ∨
        ∃ cause, out = .answered (some (.subscriptionDeleteFailure (deleteId req) cause)) []) := by
  have herrout : ∀ cause, ∃ out,
      some (s.deleteErrout req (deleteId req) cause []) = some (s, out) ∧
      (out = .answered none [] ∨
        ∃ cause, out = .answered (some (.subscriptionDeleteFailure (deleteId req) cause)) []) := by
    intro cause
    unfold deleteErrout
    cases req.failureEncodes with
    | false => exact ⟨_, rfl, Or.inl rfl⟩
    | true => exact ⟨_, rfl, Or.inr ⟨cause, rfl⟩⟩
  show ∃ out, s.handleSubscriptionDeleteRequest req = some (s, out) ∧ _
  simp only [handleSubscriptionDeleteRequest, lookupSubscription_of_unlisted hs]
  split_ifs
  · exact herrout .ranFunctionIdInvalid
  · exact herrout .requestIdUnknown
  · cases s.functionIdMap (deleteId req).functionId with
    | none => exact herrout .ranFunctionIdInvalid
    | some func => exact herrout .requestIdUnknown

theorem step_unlisted (s : Agent) (msg : Msg) (s' : Agent) (out : AgentOut) (hs : Unlisted s)
    (h : step s msg = some (s', out)) : Unlisted s' := by
  cases msg with
  | subscriptionRequest req =>
    by_cases hacc : s.Accepts req
    · rcases request_of_accepts hs hacc with ⟨-, s₁, out₁, h₁, ha⟩ | ⟨-, h₁⟩
      · rw [h₁] at h
        cases h
        exact ⟨ha.subscriptions.trans hs.subscriptions, ha.owner.trans hs.owner⟩
      · rw [h₁] at h
        cases h
    · obtain ⟨s₁, out₁, h₁, hf, hm⟩ := request_of_not_accepts hacc
      rw [h₁] at h
      cases h
      exact ⟨hf.subscriptions.trans hs.subscriptions, by rw [hm]; exact hs.owner⟩
  | subscriptionDeleteRequest req =>
    obtain ⟨out₁, h₁, -⟩ := delete_of_unlisted hs req
    rw [h₁] at h
    cases h
    exact hs
  | reset =>
    cases h
    exact ⟨rfl, hs.owner⟩

/-! ### Runs -/

theorem live_append (outs : List AgentOut) (out : AgentOut) :
    live (outs ++ [out]) = liveStep (live outs) out := by
  simp [live]

theorem run_append_step {s s₁ s₂ : Agent} {msgs : List Msg} {msg : Msg} {outs : List AgentOut}
    {out : AgentOut} (h : run step s msgs = some (s₁, outs)) (hstep : step s₁ msg = some (s₂, out)) :
    run step s (msgs ++ [msg]) = some (s₂, outs ++ [out]) :=
  run_append_eq_some.mpr ⟨s₁, outs, [out], h,
    run_cons_eq_some.mpr ⟨s₂, out, [], hstep, rfl, rfl⟩, rfl⟩

theorem live_eq_nil {msgs : List Msg} {outs : List AgentOut}
    (h : List.Forall₂ (fun _ out => liveStep [] out = []) msgs outs) : live outs = [] := by
  induction h with
  | nil => rfl
  | @cons _ out _ outs hout _ ih =>
    show List.foldl liveStep (liveStep [] out) outs = []
    rw [hout]
    exact ih

/-- A message within the condition is handled, and makes no subscription live. -/
theorem step_within (s : Agent) (msg : Msg) (hs : Unlisted s) (hmsg : Unanswered s msg) :
    ∃ s' out, step s msg = some (s', out) ∧ Unlisted s' ∧ liveStep [] out = [] := by
  suffices h : ∃ s' out, step s msg = some (s', out) ∧ liveStep [] out = [] by
    obtain ⟨s', out, h, hlive⟩ := h
    exact ⟨s', out, h, step_unlisted s msg s' out hs h, hlive⟩
  cases msg with
  | subscriptionRequest req =>
    have hfailed : ∀ s' out, Failed s s' req out → liveStep [] out = [] := by
      intro s' out hf
      rcases hf.out with ⟨-, ids, rfl⟩ | ⟨-, rfl⟩
      · rfl
      · rfl
    by_cases hacc : s.Accepts req
    · obtain ⟨hid, hresponse, -⟩ := hmsg hacc
      rcases request_of_accepts hs hacc with ⟨-, s', out, h, ha⟩ | ⟨hnot, -⟩
      · exact ⟨s', out, h, hfailed s' out (ha.unanswered hresponse)⟩
      · exact absurd hid hnot
    · obtain ⟨s', out, h, hf, -⟩ := request_of_not_accepts hacc
      exact ⟨s', out, h, hfailed s' out hf⟩
  | subscriptionDeleteRequest req =>
    obtain ⟨out, h, rfl | ⟨cause, rfl⟩⟩ := delete_of_unlisted hs req
    · exact ⟨s, _, h, rfl⟩
    · exact ⟨s, _, h, rfl⟩
  | reset => exact ⟨_, _, rfl, rfl⟩

/-- Within the condition the agent is as in every run, and no subscription is live. -/
theorem run_within {functionIdMap : Int → Option RanFunction} {msgs : List Msg}
    (hw : StepsWithin step Unanswered (init functionIdMap) msgs) :
    ∃ s outs, run step (init functionIdMap) msgs = some (s, outs) ∧ Unlisted s ∧
      live outs = [] := by
  obtain ⟨s, outs, hrun, hs, houts⟩ := run_outputs_of_within Unlisted
    (fun _ out => liveStep [] out = []) step_within msgs _ (init_unlisted functionIdMap) hw
  exact ⟨s, outs, hrun, hs, live_eq_nil houts⟩

theorem run_prefix_within {functionIdMap : Int → Option RanFunction} {pre post : List Msg}
    (hw : StepsWithin step Unanswered (init functionIdMap) (pre ++ post)) {s : Agent}
    {outs : List AgentOut} (hrun : run step (init functionIdMap) pre = some (s, outs)) :
    Unlisted s ∧ live outs = [] ∧ StepsWithin step Unanswered s post := by
  obtain ⟨hpre, hpost⟩ := stepsWithin_append hw
  obtain ⟨s₁, outs₁, h₁, hs, hlive⟩ := run_within hpre
  rw [hrun] at h₁
  cases h₁
  exact ⟨hs, hlive, hpost s outs hrun⟩

/-- A request that breaks the condition is one of the three: its timer has no id, it is answered
with success, or it is answered with failure after it was registered. Each breaks the life cycle. -/
theorem unanswered_of_lifecycle {functionIdMap : Int → Option RanFunction} {msgs : List Msg}
    (h : Lifecycle functionIdMap msgs) {pre post : List Msg} {msg : Msg}
    (hmsgs : msgs = pre ++ msg :: post) {s : Agent} {outs : List AgentOut}
    (hrun : run step (init functionIdMap) pre = some (s, outs)) : Unanswered s msg := by
  have hs : Unlisted s :=
    run_invariant Unlisted step_unlisted pre _ s outs (init_unlisted functionIdMap) hrun
  cases msg with
  | subscriptionDeleteRequest req => trivial
  | reset => trivial
  | subscriptionRequest req =>
    intro hacc
    rcases request_of_accepts hs hacc with ⟨hid, s', out, hstep, ha⟩ | ⟨-, hstep⟩
    · refine ⟨hid, ?_⟩
      cases hresponse : req.responseEncodes with
      | true =>
        -- The subscription is live and the agent does not find it.
        exfalso
        obtain ⟨ids, ids', rfl⟩ := ha.answered hresponse
        have hlive := h.found (pre ++ [.subscriptionRequest req]) post (by simp [hmsgs]) s' _
          (run_append_step hrun hstep) req.id
        rw [live_append] at hlive
        obtain ⟨ptr, hptr⟩ := hlive.mpr List.mem_cons_self
        rw [lookupSubscription_of_unlisted (step_unlisted s _ s' _ hs hstep)] at hptr
        cases hptr
      | false =>
        refine ⟨rfl, ?_⟩
        cases hfailure : req.failureEncodes with
        | false => rfl
        | true =>
          -- The failure is sent and the object is still in the list of the model.
          exfalso
          rcases (ha.unanswered hresponse).out with ⟨-, ids, rfl⟩ | ⟨hne, -⟩
          · have hsame := (h.failed pre req post hmsgs s outs s' ids [] hrun hstep).2
            rw [ha.model] at hsame
            simp at hsame
          · rw [hfailure] at hne
            cases hne
    · exfalso
      obtain ⟨t, outs', hall⟩ := h.defined
      rw [hmsgs] at hall
      obtain ⟨s₁, outs₁, outs₂, h₁, h₂, -⟩ := run_append_eq_some.mp hall
      rw [hrun] at h₁
      cases h₁
      obtain ⟨s₂, out, outs₃, h₃, -, -⟩ := run_cons_eq_some.mp h₂
      rw [hstep] at h₃
      cases h₃

/-- The subscriptions have their life cycle exactly when no request that the service model accepts
is answered. -/
theorem lifecycle_iff_within (functionIdMap : Int → Option RanFunction) (msgs : List Msg) :
    Lifecycle functionIdMap msgs ↔ StepsWithin step Unanswered (init functionIdMap) msgs := by
  constructor
  · intro h
    rw [stepsWithin_iff_forall]
    intro pre msg post hmsgs s outs hrun
    exact unanswered_of_lifecycle h hmsgs hrun
  · intro hw
    constructor
    case defined =>
      obtain ⟨s, outs, hrun, -⟩ := run_within hw
      exact ⟨s, outs, hrun⟩
    case found =>
      intro pre post hmsgs s outs hrun id
      rw [hmsgs] at hw
      obtain ⟨hs, hlive, -⟩ := run_prefix_within hw hrun
      simp [lookupSubscription_of_unlisted hs, hlive]
    case deleted =>
      intro pre req post hmsgs s outs s' out hrun _ hmem
      rw [hmsgs] at hw
      obtain ⟨-, hlive, -⟩ := run_prefix_within hw hrun
      rw [hlive] at hmem
      exact absurd hmem List.not_mem_nil
    case failed =>
      intro pre req post hmsgs s outs s' ids deleted hrun hstep
      rw [hmsgs] at hw
      obtain ⟨hs, -, hpost⟩ := run_prefix_within hw hrun
      by_cases hacc : s.Accepts req
      · -- The failure of an accepted request cannot be encoded.
        obtain ⟨-, hresponse, hfailure⟩ := hpost.1 hacc
        rcases request_of_accepts hs hacc with ⟨-, s₁, out, h₁, ha⟩ | ⟨-, h₁⟩
        · rw [hstep] at h₁
          cases h₁
          rcases (ha.unanswered hresponse).out with ⟨htrue, -⟩ | ⟨-, hout⟩
          · rw [hfailure] at htrue
            cases htrue
          · cases hout
        · rw [hstep] at h₁
          cases h₁
      · obtain ⟨s₁, out, h₁, hf, hm⟩ := request_of_not_accepts hacc
        rw [hstep] at h₁
        cases h₁
        exact ⟨hf.subscriptions, by rw [hm]⟩

/-- One request that the NexRAN model accepts: the agent answers it with success and does not find
the subscription. -/
def exampleRequest : SubscriptionRequest where
  id := ⟨1, 0, 0⟩
  eventTrigger := some (.periodDefinition 1000)
  actions := [(0, .report)]
  responseEncodes := true
  failureEncodes := true
  now := .zero

def exampleFunctions (id : Int) : Option RanFunction :=
  if id = 0 then some .nexran else if id = 1 then some .gnbNrt else none

theorem not_lifecycle_accepted :
    ¬ Lifecycle exampleFunctions [.subscriptionRequest exampleRequest] := by
  intro h
  have hrun : (run step (init exampleFunctions) [.subscriptionRequest exampleRequest]).map
      (fun r => (r.1.lookupSubscription exampleRequest.id, live r.2)) =
        some (some none, [exampleRequest.id]) := rfl
  obtain ⟨⟨s, outs⟩, hs, hpair⟩ := Option.map_eq_some_iff.mp hrun
  obtain ⟨hlookup, hlive⟩ := Prod.mk.inj hpair
  have hlookup : s.lookupSubscription exampleRequest.id = some none := hlookup
  have hlive : live outs = [exampleRequest.id] := hlive
  have hfound := h.found _ [] (by simp) s outs hs exampleRequest.id
  rw [hlookup, hlive] at hfound
  simp at hfound

end Odss.Ric.Agent
