import Odss.Rlc.Common

/-!
# `Odss.Ue.ProcRa`: the random access procedure of a UE

The model of `ra_proc` (`srsue/src/stack/mac/proc_ra.cc`). A deferred task is what it does, and the tasks
wait in a queue until they are run. What PHY, MUX and the RNTI table answer in an event is part of the
event. The contention resolution timer expires in an event of its own, at any time while it is running.

What is told to MUX, to the RNTI table and to PHY about a RAR is not read here and left out, and so are
the timing advance, `update_rar_window` and log output. Of what is sent to PHY and RRC the state keeps
the preambles and the results, since the last call of `initialization`.
-/

set_option linter.all false

namespace Odss.Ue.Ra

open Odss.Rlc (subU32)

/-- `ra_state_t` -/
inductive RaState where
  | idle
  | pdcchSetup
  | responseReception
  | backoffWait
  | contentionResolution
deriving DecidableEq, Repr

/-- `ra_group_t` -/
inductive RaGroup where
  | groupA
  | groupB
deriving DecidableEq, Repr

/-- `rach_cfg_t`, what is read of it -/
structure RachCfg where
  nofPreambles : Nat
  nofGroupAPreambles : Nat
  messageSizeGroupA : Nat
  responseWindowSize : Nat
  powerRampingStep : Nat
  preambleTransMax : Nat
  iniReceivedTargetPower : Int
  contentionResolutionTimer : Nat
deriving DecidableEq, Repr

/-- What does not change in a run: the configuration, `delay_time`, and the results of `rand`, one after
the other. -/
structure Args where
  rachCfg : RachCfg
  delayTime : Nat
  rand : Nat → Nat

/-- `prach_info_t` -/
structure PrachInfo where
  isTransmitted : Bool
  ttiRa : Nat
  fId : Nat
  preambleFormat : Nat
deriving DecidableEq, Repr

/-- What the other components answer during an event: `prach_get_info`, `msg3_is_transmitted`,
`msg3_is_empty`, `get_crnti` and `get_contention_id`. -/
structure Env where
  prachInfo : PrachInfo
  msg3IsTransmitted : Bool
  msg3IsEmpty : Bool
  crnti : Nat
  contentionId : Nat
deriving DecidableEq, Repr

/-- A subheader of a RAR PDU, what is read of it here. -/
structure RarSubh where
  rapid : Option Nat
deriving DecidableEq, Repr

/-- A deferred task, named for the function that pushes it. -/
inductive Task where
  /-- `tb_decoded_ok`, for a preamble that the UE has selected -/
  | waitForContentionResolution
  /-- `tb_decoded_ok`, for a preamble that the network has selected -/
  | completeProcedure
  | contentionResolutionIdReceived (rxContentionId : Nat)
  | pdcchToCrnti (isNewUplinkTransmission : Bool)
  | harqRetx
  | harqMaxRetx
deriving DecidableEq, Repr

/-- `prach_send` and the calls of RRC. -/
inductive Signal where
  | prachSend (preambleIdx : Nat) (allowedSubframe targetPowerDbm : Int)
  | raCompleted
  | raProblem
deriving DecidableEq, Repr

/-- The procedure. The timer is set when it has a callback. -/
structure State where
  state : RaState
  deltaPreambleDb : Int
  maskIndex : Nat
  preambleIndex : Int
  newRaMsgLen : Nat
  noncontentionEnabled : Bool
  nextPreambleIdx : Nat
  nextPrachMask : Nat
  preambleTransmissionCounter : Nat
  backoffParamMs : Nat
  selMaskIndex : Nat
  selPreamble : Nat
  backoffIntervalStart : Int
  backoffInterval : Nat
  raTti : Nat
  lastMsg3Group : RaGroup
  timerSet : Bool
  timerRunning : Bool
  transmittedContentionId : Nat
  transmittedCrnti : Nat
  startedByPdcch : Bool
  rarReceived : Bool
  taskQueue : List Task
  draws : Nat
  signals : List Signal
deriving DecidableEq, Repr

/-- `backoff_table` -/
def backoffTable : List Nat := [0, 10, 20, 30, 40, 60, 80, 120, 160, 240, 320, 480, 960, 960, 960, 960]

/-- `delta_preamble_db_table` -/
def deltaPreambleDbTable : List Int := [0, 0, -3, -3, 8]

/-- A `uint32_t` as an `int`. -/
def toInt32 (n : Nat) : Int := if n < 2 ^ 31 then n else (n : Int) - 2 ^ 32

/-- `srsran_tti_interval` -/
def ttiInterval (tti1 tti2 : Nat) : Nat :=
  if tti2 ≤ tti1 then tti1 - tti2 else (subU32 10240 tti2 + tti1) % 2 ^ 32

/-- `nof_groupB_preambles` -/
def RachCfg.nofGroupBPreambles (cfg : RachCfg) : Nat := subU32 cfg.nofPreambles cfg.nofGroupAPreambles

namespace State

/-- The state after `init`. -/
def init : State where
  state := .idle
  deltaPreambleDb := 0
  maskIndex := 0
  preambleIndex := 0
  newRaMsgLen := 0
  noncontentionEnabled := false
  nextPreambleIdx := 0
  nextPrachMask := 0
  preambleTransmissionCounter := 0
  backoffParamMs := 0
  selMaskIndex := 0
  selPreamble := 0
  backoffIntervalStart := 0
  backoffInterval := 0
  raTti := 0
  lastMsg3Group := .groupA
  timerSet := false
  timerRunning := false
  transmittedContentionId := 0
  transmittedCrnti := 0
  startedByPdcch := false
  rarReceived := false
  taskQueue := []
  draws := 0
  signals := []

/-- `reset` -/
def reset (s : State) : State :=
  { s with state := .idle, startedByPdcch := false, timerRunning := false }

/-- `set_config_ded` -/
def setConfigDed (preambleIndex prachMask : Nat) (s : State) : State :=
  { s with
    nextPreambleIdx := preambleIndex
    nextPrachMask := prachMask
    noncontentionEnabled := true }

/-- `read_params` -/
def readParams (args : Args) (env : Env) (s : State) : State :=
  let s :=
    if s.noncontentionEnabled then
      { s with
        preambleIndex := toInt32 s.nextPreambleIdx
        maskIndex := s.nextPrachMask
        noncontentionEnabled := false }
    else { s with preambleIndex := 0, maskIndex := 0 }
  { s with
    deltaPreambleDb := deltaPreambleDbTable.getD (env.prachInfo.preambleFormat % 5) 0
    timerSet := s.timerSet || 0 < args.rachCfg.contentionResolutionTimer }

/-- `preamble_transmission` -/
def preambleTransmission (args : Args) (s : State) : State :=
  let receivedTargetPowerDbm := args.rachCfg.iniReceivedTargetPower + s.deltaPreambleDb +
    ((s.preambleTransmissionCounter : Int) - 1) * args.rachCfg.powerRampingStep
  { s with
    signals := s.signals ++ [.prachSend s.selPreamble ((s.selMaskIndex : Int) - 1) receivedTargetPowerDbm]
    raTti := 0
    rarReceived := false
    backoffIntervalStart := -1
    state := .pdcchSetup }

/-- The group of preambles that `resource_selection` selects from. -/
def selGroup (args : Args) (env : Env) (s : State) : RaGroup :=
  if env.msg3IsTransmitted then s.lastMsg3Group
  else if 0 < args.rachCfg.nofGroupBPreambles ∧ args.rachCfg.messageSizeGroupA < s.newRaMsgLen then
    .groupB
  else .groupA

/-- `resource_selection` -/
def resourceSelection (args : Args) (env : Env) (s : State) : State :=
  if 0 < s.preambleIndex then
    preambleTransmission args
      { s with selMaskIndex := s.maskIndex, selPreamble := s.preambleIndex.toNat }
  else
    let group := selGroup args env s
    let s := { s with lastMsg3Group := group }
    match group with
    | .groupA =>
      if 0 < args.rachCfg.nofGroupAPreambles then
        preambleTransmission args { s with
          selPreamble := (args.rand s.draws + args.delayTime) % args.rachCfg.nofGroupAPreambles
          draws := s.draws + 1
          selMaskIndex := 0 }
      else { s with state := .idle }
    | .groupB =>
      if 0 < args.rachCfg.nofGroupBPreambles then
        preambleTransmission args { s with
          selPreamble := args.rachCfg.nofGroupAPreambles +
            (args.rand s.draws + args.delayTime) % args.rachCfg.nofGroupBPreambles
          draws := s.draws + 1
          selMaskIndex := 0 }
      else { s with state := .idle }

/-- `initialization` before it calls `resource_selection`. -/
def prepare (args : Args) (env : Env) (s : State) : State :=
  { readParams args env s with
    transmittedContentionId := 0
    preambleTransmissionCounter := 1
    backoffParamMs := 0
    transmittedCrnti := 0
    signals := [] }

/-- `initialization` -/
def initialization (args : Args) (env : Env) (s : State) : State :=
  resourceSelection args env (prepare args env s)

/-- `start_mac_order` -/
def startMacOrder (args : Args) (env : Env) (msgLenBits : Nat) (s : State) : State :=
  if s.state = .idle then
    initialization args env { s with startedByPdcch := false, newRaMsgLen := msgLenBits }
  else s

/-- `start_pdcch_order` -/
def startPdcchOrder (args : Args) (env : Env) (s : State) : State :=
  if s.state = .idle then initialization args env { s with startedByPdcch := true } else s

/-- `response_error` -/
def responseError (args : Args) (env : Env) (s : State) : State :=
  let s := { s with
    preambleTransmissionCounter := s.preambleTransmissionCounter + 1
    timerRunning := false }
  if args.rachCfg.preambleTransMax + 1 ≤ s.preambleTransmissionCounter then
    { s with signals := s.signals ++ [.raProblem], state := .idle }
  else
    let s := { s with backoffIntervalStart := -1 }
    let s :=
      if s.backoffParamMs = 0 then { s with backoffInterval := 0 }
      else { s with backoffInterval := args.rand s.draws % s.backoffParamMs, draws := s.draws + 1 }
    if s.backoffInterval = 0 then resourceSelection args env s else { s with state := .backoffWait }

/-- `complete` -/
def complete (s : State) : State :=
  { s with signals := s.signals ++ [.raCompleted], state := .idle }

/-- `state_pdcch_setup` -/
def statePdcchSetup (env : Env) (s : State) : State :=
  if env.prachInfo.isTransmitted then
    { s with raTti := env.prachInfo.ttiRa, state := .responseReception }
  else s

/-- `state_response_reception` -/
def stateResponseReception (args : Args) (env : Env) (tti : Nat) (s : State) : State :=
  let interval := ttiInterval tti ((s.raTti + 3 + args.rachCfg.responseWindowSize - 1) % 2 ^ 32)
  if !s.rarReceived ∧ 0 < interval ∧ interval < 100 then responseError args env s else s

/-- `state_backoff_wait` -/
def stateBackoffWait (args : Args) (env : Env) (tti : Nat) (s : State) : State :=
  if s.backoffInterval = 0 then s
  else if s.backoffInterval = 1 then resourceSelection args env s
  else
    let s :=
      if s.backoffIntervalStart = -1 then
        { s with backoffIntervalStart := tti, backoffInterval := s.backoffInterval - 1 }
      else s
    if s.backoffInterval ≤ ttiInterval tti s.backoffIntervalStart.toNat then
      resourceSelection args env { s with backoffInterval := 0 }
    else s

/-- `state_contention_resolution` -/
def stateContentionResolution (env : Env) (s : State) : State :=
  if env.msg3IsTransmitted ∧ s.timerRunning = false then { s with timerRunning := true } else s

/-- `step` -/
def stepTti (args : Args) (env : Env) (tti : Nat) (s : State) : State :=
  match s.state with
  | .idle => s
  | .pdcchSetup => statePdcchSetup env s
  | .responseReception => stateResponseReception args env tti s
  | .backoffWait => stateBackoffWait args env tti s
  | .contentionResolution => stateContentionResolution env s

/-- `task_queue.push` -/
def pushTask (task : Task) (s : State) : State := { s with taskQueue := s.taskQueue ++ [task] }

/-- What `tb_decoded_ok` does for a subheader. -/
def readSubh (env : Env) (subh : RarSubh) (s : State) : State :=
  if subh.rapid = some s.selPreamble then
    let s := { s with rarReceived := true }
    if s.preambleIndex ≤ 0 then
      let s := if env.msg3IsEmpty then { s with transmittedCrnti := env.crnti } else s
      pushTask .waitForContentionResolution { s with transmittedContentionId := env.contentionId }
    else pushTask .completeProcedure s
  else s

/-- `tb_decoded_ok`, for a RAR PDU with these subheaders. -/
def tbDecodedOk (env : Env) (backoff : Option Nat) (subhs : List RarSubh) (s : State) : State :=
  let s := { s with
    backoffParamMs := match backoff with
      | some index => backoffTable.getD (index % 16) 0
      | none => 0 }
  subhs.foldl (fun s subh => readSubh env subh s) s

/-- The task of `contention_resolution_id_received`. -/
def contentionResolutionIdReceivedNolock (args : Args) (env : Env) (rxContentionId : Nat)
    (s : State) : State :=
  -- In a wrong state it goes on after the error.
  let s := if s.state ≠ .contentionResolution then responseError args env s else s
  let s := { s with timerRunning := false }
  if s.transmittedContentionId = rxContentionId then complete s else responseError args env s

/-- The execution of a deferred task. -/
def execute (args : Args) (env : Env) (s : State) : Task → State
  | .waitForContentionResolution => { s with state := .contentionResolution }
  | .completeProcedure => complete s
  | .contentionResolutionIdReceived rxContentionId =>
    contentionResolutionIdReceivedNolock args env rxContentionId s
  | .pdcchToCrnti isNewUplinkTransmission =>
    if (!s.startedByPdcch && isNewUplinkTransmission) || s.startedByPdcch then
      complete { s with timerRunning := false }
    else s
  | .harqRetx =>
    if s.state ≠ .contentionResolution then s else { s with timerRunning := true }
  | .harqMaxRetx =>
    if s.state ≠ .contentionResolution then s else responseError args env s

/-- The expiry of the contention resolution timer. -/
def timerExpired (args : Args) (env : Env) (s : State) : State :=
  let s := { s with timerRunning := false }
  if s.timerSet then responseError args env s else s

end State

/-- An event of the procedure. -/
inductive Event where
  | startMacOrder (msgLenBits : Nat)
  | startPdcchOrder
  | setConfigDed (preambleIndex prachMask : Nat)
  | step (tti : Nat)
  | tbDecodedOk (backoff : Option Nat) (subhs : List RarSubh)
  | contentionResolutionIdReceived (rxContentionId : Nat)
  | pdcchToCrnti (isNewUplinkTransmission : Bool)
  | harqRetx
  | harqMaxRetx
  | timerExpired
  | reset
  /-- The first deferred task is executed. -/
  | runTask
deriving DecidableEq, Repr

/-- The event is a start order. -/
def Event.isStartOrder : Event → Bool
  | .startMacOrder _ => true
  | .startPdcchOrder => true
  | _ => false

/-- One event, with what the other components answer. It is `none` where the timer is not running or no
task is waiting. -/
def step (args : Args) (s : State) : Event × Env → Option (State × Unit)
  | (.startMacOrder msgLenBits, env) => some (s.startMacOrder args env msgLenBits, ())
  | (.startPdcchOrder, env) => some (s.startPdcchOrder args env, ())
  | (.setConfigDed preambleIndex prachMask, _) => some (s.setConfigDed preambleIndex prachMask, ())
  | (.step tti, env) => some (s.stepTti args env tti, ())
  | (.tbDecodedOk backoff subhs, env) => some (s.tbDecodedOk env backoff subhs, ())
  | (.contentionResolutionIdReceived rxContentionId, _) =>
    some (s.pushTask (.contentionResolutionIdReceived rxContentionId), ())
  | (.pdcchToCrnti isNewUplinkTransmission, _) =>
    some (s.pushTask (.pdcchToCrnti isNewUplinkTransmission), ())
  | (.harqRetx, _) => some (s.pushTask .harqRetx, ())
  | (.harqMaxRetx, _) => some (s.pushTask .harqMaxRetx, ())
  | (.timerExpired, env) => if s.timerRunning then some (s.timerExpired args env, ()) else none
  | (.reset, _) => some (s.reset, ())
  | (.runTask, env) =>
    match s.taskQueue with
    | [] => none
    | task :: tasks => some ({ s with taskQueue := tasks }.execute args env task, ())

end Odss.Ue.Ra
