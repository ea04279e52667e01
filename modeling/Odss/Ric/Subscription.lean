import Odss.Ric.TimerQueue

/-!
# `Odss.Ric.Subscription`: the subscriptions of the E2 agent

The agent (`srsenb/src/ric/e2ap_handle.cc`, `agent.cc`) creates an object for each subscription
request and offers it to the service model of the RAN function. The NexRAN model
(`e2sm_nexran.cc`) keeps its own list of the subscriptions that it accepted, with a timer for each.
The gNB-NRT model accepts everything and does nothing. The KPM model, which is a build option, is
left out.

The messages are the decoded ones. Whether an answer can be encoded comes with the message that it
answers, and so does the time that the timer queue reads. Objects are created at fresh addresses.

`none` is undefined behaviour (the read of a deleted object, of a null `model_data`, an overflow in
the timer queue), or a call that waits for ever for the mutex of the timer queue.
-/

set_option linter.all false

namespace Odss.Ric

/-- The service model of a RAN function. -/
inductive RanFunction where
  | nexran
  | gnbNrt
deriving DecidableEq

/-- `E2AP_RICactionType` -/
inductive ActionType where
  | report
  | insert
  | policy
deriving DecidableEq

/-- `action_t`. The definition and the subsequent action are not read. -/
structure Action where
  id : Int
  type : ActionType
  enabled : Bool
deriving DecidableEq

/-- The event trigger definition, as the NexRAN model decodes it. -/
inductive EventTrigger where
  | undecodable
  | unrecognized
  | periodDefinition (period : Int)
  | ranEventDefinition
deriving DecidableEq

/-- `subscription_model_data_t` -/
structure SubscriptionModelData where
  period : Int
  onEvents : Bool
  timerId : Nat

/-- `subscription_t`. The trigger is `none` without a definition, or with one that is too long. -/
structure Subscription where
  requestId : Int
  instanceId : Int
  functionId : Int
  eventTrigger : Option EventTrigger
  actions : List Action
  modelData : Option SubscriptionModelData

/-- The ids of a subscription: of the request, of the instance and of the RAN function. -/
structure SubscriptionId where
  requestId : Int
  instanceId : Int
  functionId : Int
deriving DecidableEq

/-- The part of `nexran_model` that the subscriptions use. -/
structure NexranModel where
  subscriptions : List Nat
  queue : TimerQueue

namespace NexranModel

/-- `handle_subscription_add` from the loop over the actions on, with the object and the return
code. The error path unlocks a mutex that the function has not locked, which changes nothing
here. -/
def addReports (m : NexranModel) (now : Timeval) (ptr : Nat) (sub : Subscription) (period : Int)
    (onEvents : Bool) : Option (NexranModel × Subscription × Int) :=
  let actions := sub.actions.map fun action =>
    if action.type = .report then { action with enabled := true } else action
  if sub.actions.any fun action => action.type = .report then
    if m.queue.owner = none then
      let tv : Timeval := ⟨period.tdiv 1000, period.tmod 1000 * 1000⟩
      match m.queue.insertPeriodic now tv with
      | none => none
      | some (queue, timerId) =>
        some (⟨m.subscriptions ++ [ptr], queue⟩,
          { sub with actions := actions, modelData := some ⟨period, onEvents, timerId⟩ }, 0)
    else none
  else some (m, sub, -1)

/-- `handle_subscription_add` -/
def handleSubscriptionAdd (m : NexranModel) (now : Timeval) (ptr : Nat) (sub : Subscription) :
    Option (NexranModel × Subscription × Int) :=
  match sub.eventTrigger with
  | none => some (m, sub, -1)
  | some .undecodable => some (m, sub, -1)
  | some .unrecognized => some (m, sub, -1)
  | some (.periodDefinition period) => m.addReports now ptr sub period false
  -- Events are approximated by one report a second.
  | some .ranEventDefinition => m.addReports now ptr sub 1000 true

/-- `handle_subscription_del`, which returns 0. -/
def handleSubscriptionDel (m : NexranModel) (ptr : Nat) (sub : Subscription) :
    Option (NexranModel × Subscription) :=
  match sub.modelData with
  | none => none
  | some md =>
    if m.queue.owner = none then
      some (⟨m.subscriptions.filter (· ≠ ptr), m.queue.cancel md.timerId⟩,
        { sub with modelData := none })
    else none

end NexranModel

/-- The agent, with its objects in `memory`. -/
structure Agent where
  functionIdMap : Int → Option RanFunction
  subscriptions : List Nat
  model : NexranModel
  memory : Nat → Option Subscription
  nextPtr : Nat

/-- `E2AP_RICsubscriptionRequest_t`, with whether the answers to it can be encoded and the time at
which the timer queue inserts. -/
structure SubscriptionRequest where
  id : SubscriptionId
  eventTrigger : Option EventTrigger
  actions : List (Int × ActionType)
  responseEncodes : Bool
  failureEncodes : Bool
  now : Timeval

/-- `E2AP_RICsubscriptionDeleteRequest_t`, with whether the answers to it can be encoded. -/
structure SubscriptionDeleteRequest where
  requestID : Option (Int × Int)
  ranFunctionID : Option Int
  responseEncodes : Bool
  failureEncodes : Bool

/-- The causes of a failed deletion. -/
inductive Cause where
  | ranFunctionIdInvalid
  | requestIdUnknown
  | protocolUnspecified
deriving DecidableEq

/-- The messages that the agent sends. -/
inductive SubscriptionAnswer where
  | subscriptionResponse (id : SubscriptionId) (admitted notAdmitted : List Int)
  | subscriptionFailure (id : SubscriptionId) (notAdmitted : List Int)
  | subscriptionDeleteResponse (id : SubscriptionId)
  | subscriptionDeleteFailure (id : SubscriptionId) (cause : Cause)
deriving DecidableEq

/-- What happens in a step: the answer to a request, with the objects that were given to
`handle_subscription_del`, or a reset. -/
inductive AgentOut where
  | answered (answer : Option SubscriptionAnswer) (deleted : List Nat)
  | reset
deriving DecidableEq

namespace Agent

/-- The agent after the service models are registered. -/
def init (functionIdMap : Int → Option RanFunction) : Agent where
  functionIdMap := functionIdMap
  subscriptions := []
  model := ⟨[], .init⟩
  memory := fun _ => none
  nextPtr := 0

/-- The loop of `lookup_subscription`. -/
def lookupIn (memory : Nat → Option Subscription) (id : SubscriptionId) :
    List Nat → Option (Option Nat)
  | [] => some none
  | ptr :: ptrs =>
    match memory ptr with
    | none => none
    | some sub =>
      if sub.requestId = id.requestId ∧ sub.instanceId = id.instanceId ∧
          sub.functionId = id.functionId then some (some ptr)
      else lookupIn memory id ptrs

/-- `lookup_subscription` -/
def lookupSubscription (s : Agent) (id : SubscriptionId) : Option (Option Nat) :=
  lookupIn s.memory id s.subscriptions

/-- `func->model->handle_subscription_add` -/
def handleSubscriptionAdd (func : RanFunction) (m : NexranModel) (now : Timeval) (ptr : Nat)
    (sub : Subscription) : Option (NexranModel × Subscription × Int) :=
  match func with
  | .nexran => m.handleSubscriptionAdd now ptr sub
  | .gnbNrt => some (m, sub, 0)

/-- `func->model->handle_subscription_del` -/
def handleSubscriptionDel (func : RanFunction) (m : NexranModel) (ptr : Nat) (sub : Subscription) :
    Option (NexranModel × Subscription) :=
  match func with
  | .nexran => m.handleSubscriptionDel ptr sub
  | .gnbNrt => some (m, sub)

/-- The error path of `handle_ric_subscription_request`: the failure is sent and the object is
deleted. -/
def subscriptionErrout (s : Agent) (req : SubscriptionRequest) (ptr : Nat) (rs : Subscription) :
    Agent × AgentOut :=
  let answer :=
    if req.failureEncodes then some (.subscriptionFailure req.id (rs.actions.map Action.id)) else none
  ({ s with memory := Function.update s.memory ptr none }, .answered answer [])

/-- `handle_ric_subscription_request` -/
def handleSubscriptionRequest (s : Agent) (req : SubscriptionRequest) :
    Option (Agent × AgentOut) :=
  let ptr := s.nextPtr
  let rs : Subscription :=
    { requestId := req.id.requestId
      instanceId := req.id.instanceId
      functionId := req.id.functionId
      eventTrigger := req.eventTrigger
      actions := req.actions.map fun action => ⟨action.1, action.2, false⟩
      modelData := none }
  let s := { s with nextPtr := ptr + 1 }
  match s.functionIdMap req.id.functionId with
  | none => some (s.subscriptionErrout req ptr rs)
  | some func =>
    match handleSubscriptionAdd func s.model req.now ptr rs with
    | none => none
    | some (model, rs, ret) =>
      let s := { s with model := model }
      if ret ≠ 0 then some (s.subscriptionErrout req ptr rs)
      else if rs.actions.any Action.enabled then
        if req.responseEncodes then
          some ({ s with memory := Function.update s.memory ptr (some rs) },
            .answered (some (.subscriptionResponse req.id
              ((rs.actions.filter Action.enabled).map Action.id)
              ((rs.actions.filter fun action => !action.enabled).map Action.id))) [])
        else some (s.subscriptionErrout req ptr rs)
      -- Without an enabled action the subscription fails by definition.
      else some (s.subscriptionErrout req ptr rs)

/-- The error path of `handle_ric_subscription_delete_request`. -/
def deleteErrout (s : Agent) (req : SubscriptionDeleteRequest) (id : SubscriptionId) (cause : Cause)
    (deleted : List Nat) : Agent × AgentOut :=
  (s, .answered (if req.failureEncodes then some (.subscriptionDeleteFailure id cause) else none)
    deleted)

/-- The ids of a delete request: -1 for the ones that it does not have. -/
def deleteId (req : SubscriptionDeleteRequest) : SubscriptionId where
  requestId := (req.requestID.getD (-1, -1)).1
  instanceId := (req.requestID.getD (-1, -1)).2
  functionId := req.ranFunctionID.getD (-1)

/-- `handle_ric_subscription_delete_request` -/
def handleSubscriptionDeleteRequest (s : Agent) (req : SubscriptionDeleteRequest) :
    Option (Agent × AgentOut) :=
  let id := deleteId req
  if id.functionId < 0 then some (s.deleteErrout req id .ranFunctionIdInvalid [])
  else if id.requestId < 0 ∨ id.instanceId < 0 then
    some (s.deleteErrout req id .requestIdUnknown [])
  else
    match s.functionIdMap id.functionId with
    | none => some (s.deleteErrout req id .ranFunctionIdInvalid [])
    | some func =>
      match s.lookupSubscription id with
      | none => none
      | some none => some (s.deleteErrout req id .requestIdUnknown [])
      | some (some ptr) =>
        match (s.memory ptr).bind (handleSubscriptionDel func s.model ptr) with
        | none => none
        | some (model, rs) =>
          let s := { s with model := model, memory := Function.update s.memory ptr (some rs) }
          if req.responseEncodes then
            some (s, .answered (some (.subscriptionDeleteResponse id)) [ptr])
          else some (s.deleteErrout req id .protocolUnspecified [ptr])

/-- A message of the RIC, or a reset of the agent. -/
inductive Msg where
  | subscriptionRequest (req : SubscriptionRequest)
  | subscriptionDeleteRequest (req : SubscriptionDeleteRequest)
  | reset

/-- One step. `reset` clears the list of the agent, and leaves the timers and the model. -/
def step (s : Agent) : Msg → Option (Agent × AgentOut)
  | .subscriptionRequest req => s.handleSubscriptionRequest req
  | .subscriptionDeleteRequest req => s.handleSubscriptionDeleteRequest req
  | .reset => some ({ s with subscriptions := [] }, .reset)

/-- What an output does to the subscriptions that have been answered with success, have not been
deleted and have not been reset. -/
def liveStep (live : List SubscriptionId) : AgentOut → List SubscriptionId
  | .answered (some (.subscriptionResponse id _ _)) _ => id :: live
  | .answered (some (.subscriptionDeleteResponse id)) _ => live.filter (· ≠ id)
  | .answered (some (.subscriptionDeleteFailure id _)) _ => live.filter (· ≠ id)
  | .answered _ _ => live
  | .reset => []

/-- The subscriptions that are live after a list of outputs. -/
def live (outs : List AgentOut) : List SubscriptionId := outs.foldl liveStep []

end Agent

end Odss.Ric
