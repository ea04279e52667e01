import Odss.Lib.CircularMap

/-!
# `Odss.MacNr.SchedWorker`: the UE events of the NR scheduler

The model of `sched_worker_manager` (`srsenb/src/stack/mac/nr/sched_nr_worker.cc`) and of the calls of
`sched_nr` that enqueue an event for a UE (`srsenb/src/stack/mac/nr/sched_nr.cc`).

Of a UE the configuration is kept that decides whether it has CA. What else a UE has is of the type `α`,
what else a configuration has of the type `κ`, and what the cells have of the type `γ`. The member
functions of `ue` and the worker of a cell, which do not touch the configuration, are parameters on these
types. A call of `run_slot` that has to wait for another slot is not a step, and the step is `none` where
an assertion fails. Log output and results are left out.

Beside what the source has, the state keeps the number of slots that were started, each event with the
number of the first slot that starts after it was enqueued, and each execution of a callback with the
number of its slot.
-/

set_option linter.all false

namespace Odss.MacNr.Sched

open Odss.Lib

/-- `SRSENB_MAX_UES` -/
abbrev maxUes : Nat := 64

/-- `ue_cc_cfg_t` -/
structure UeCcCfg where
  active : Bool
  cc : Nat
deriving DecidableEq, Repr

/-- `ue_cfg_t`. The PHY configuration is read for its coresets here. -/
structure UeCfg (κ : Type) where
  carriers : List UeCcCfg
  coresetPresent : List Bool
  other : κ
deriving DecidableEq, Repr

/-- `ue` -/
structure Ue (κ α : Type) where
  ueCfg : UeCfg κ
  other : α
deriving DecidableEq, Repr

/-- `ue_map_t` -/
abbrev UeMap (κ α : Type) : Type := CircularMap maxUes (Ue κ α)

/-- The member functions of `ue` on what it has beside its configuration, and the worker of a cell,
`slot_cc_worker::run`, which gives what each UE has afterwards. -/
structure UeOps (κ α γ : Type) where
  create : Nat → UeCfg κ → α
  setCfg : UeCfg κ → α → α
  ulSrInfo : α → α
  ulBsr : Nat → Nat → α → α
  rlcBufferState : Nat → Nat → Nat → α → α
  newSlot : Nat → UeCfg κ → α → α
  runWorker : Nat → Nat → γ → UeMap κ α → γ × (Nat → α → α)

/-- The callback of an event, named for the call that enqueues it. -/
inductive Callback (κ : Type) where
  | ueCfg (cfg : UeCfg κ)
  | ueRem
  | ulSrInfo
  | ulBsr (lcgId bsr : Nat)
  | dlBufferState (lcid newtx retx : Nat)
deriving DecidableEq, Repr

/-- `ue_event_t`, with the number of events that were enqueued before it. -/
structure UeEvent (κ : Type) where
  id : Nat
  rnti : Nat
  callback : Callback κ
deriving DecidableEq, Repr

section
variable {κ α γ : Type}

/-- `has_ca` of a configuration. -/
def UeCfg.hasCa (cfg : UeCfg κ) : Bool :=
  1 < cfg.carriers.length ∧ 0 < (cfg.carriers.drop 1).countP UeCcCfg.active

/-- `ue::has_ca` -/
def Ue.hasCa (u : Ue κ α) : Bool := u.ueCfg.hasCa

/-- `assert_ue_cfg_valid` -/
def assertUeCfgValid (cfg : UeCfg κ) : Bool := 0 < cfg.coresetPresent.countP id

/-- `ue_cfg_impl` -/
def ueCfgImpl (ops : UeOps κ α γ) (rnti : Nat) (cfg : UeCfg κ) (ueDb : UeMap κ α) : UeMap κ α :=
  if !ueDb.contains rnti then
    -- An insertion into a slot that is taken fails.
    if (ueDb.slot? rnti).isNone then ueDb.overwrite rnti ⟨cfg, ops.create rnti cfg⟩ else ueDb
  else ueDb.modify rnti fun u => ⟨cfg, ops.setCfg cfg u.other⟩

/-- The execution of a callback. -/
def Callback.execute (ops : UeOps κ α γ) (rnti : Nat) : Callback κ → UeMap κ α → UeMap κ α
  | .ueCfg cfg, ueDb => ueCfgImpl ops rnti cfg ueDb
  | .ueRem, ueDb => if ueDb.contains rnti then ueDb.erase rnti else ueDb
  | .ulSrInfo, ueDb =>
    if ueDb.contains rnti then ueDb.modify rnti fun u => { u with other := ops.ulSrInfo u.other }
    else ueDb
  | .ulBsr lcgId bsr, ueDb =>
    if ueDb.contains rnti then ueDb.modify rnti fun u => { u with other := ops.ulBsr lcgId bsr u.other }
    else ueDb
  | .dlBufferState lcid newtx retx, ueDb =>
    if ueDb.contains rnti then
      ueDb.modify rnti fun u => { u with other := ops.rlcBufferState lcid newtx retx u.other }
    else ueDb

/-- The condition on which `update_ue_db` executes an event. -/
def executes (lockedContext : Bool) (rnti : Nat) (ueDb : UeMap κ α) : Bool :=
  (lockedContext && !ueDb.contains rnti) || (ueDb.find? rnti).any fun u => u.hasCa == lockedContext

/-- The loop of `update_ue_db` over the events, with the events that it executes. -/
def processEvents (ops : UeOps κ α γ) (lockedContext : Bool) :
    List (UeEvent κ) → UeMap κ α → UeMap κ α × List (UeEvent κ)
  | [], ueDb => (ueDb, [])
  | ev :: evs, ueDb =>
    if executes lockedContext ev.rnti ueDb then
      let r := processEvents ops lockedContext evs (ev.callback.execute ops ev.rnti ueDb)
      (r.1, ev :: r.2)
    else processEvents ops lockedContext evs ueDb

/-- The loop of `update_ue_db` over the UEs. -/
def prepareUes (ops : UeOps κ α γ) (slotTx : Nat) (lockedContext : Bool) (ueDb : UeMap κ α) :
    UeMap κ α :=
  ueDb.mapValues fun _ u =>
    if u.hasCa == lockedContext then { u with other := ops.newSlot slotTx u.ueCfg u.other } else u

/-- `update_ue_db`, with the events that it executes. -/
def updateUeDb (ops : UeOps κ α γ) (slotTx : Nat) (lockedContext : Bool)
    (slotEvents : List (UeEvent κ)) (ueDb : UeMap κ α) : UeMap κ α × List (UeEvent κ) :=
  let r := processEvents ops lockedContext slotEvents ueDb
  (prepareUes ops slotTx lockedContext r.1, r.2)

/-- The scheduler. -/
structure State (κ α γ : Type) where
  ueDb : UeMap κ α
  cells : γ
  nextSlotEvents : List (UeEvent κ)
  slotEvents : List (UeEvent κ)
  currentSlot : Option Nat
  workerCount : Nat
  slots : Nat
  enqueued : List (Nat × UeEvent κ)
  executed : List (Nat × UeEvent κ)

namespace State

/-- A scheduler between two slots, without events. -/
def init (ueDb : UeMap κ α) (cells : γ) : State κ α γ := ⟨ueDb, cells, [], [], none, 0, 0, [], []⟩

/-- `enqueue_event` -/
def enqueueEvent (s : State κ α γ) (rnti : Nat) (callback : Callback κ) : State κ α γ :=
  let ev : UeEvent κ := ⟨s.enqueued.length, rnti, callback⟩
  { s with
    nextSlotEvents := s.nextSlotEvents ++ [ev]
    enqueued := s.enqueued ++ [(s.slots + 1, ev)] }

/-- A call of `update_ue_db` in the slot that is running. -/
def update (ops : UeOps κ α γ) (slotTx : Nat) (lockedContext : Bool) (s : State κ α γ) : State κ α γ :=
  let r := updateUeDb ops slotTx lockedContext s.slotEvents s.ueDb
  { s with
    ueDb := r.1
    executed := s.executed ++ r.2.map fun ev => (s.slots, ev) }

/-- What the first worker of a slot does in `run_slot`. -/
def startSlot (ops : UeOps κ α γ) (nofCells slotTx : Nat) (s : State κ α γ) : State κ α γ :=
  let s := { s with slotEvents := s.nextSlotEvents, nextSlotEvents := [], slots := s.slots + 1 }
  { update ops slotTx true s with currentSlot := some slotTx, workerCount := nofCells }

/-- The parallel region of `run_slot`, and the end of the slot. -/
def runCell (ops : UeOps κ α γ) (slotTx cc : Nat) (s : State κ α γ) : Option (State κ α γ) :=
  let s := update ops slotTx false s
  let r := ops.runWorker slotTx cc s.cells s.ueDb
  let s := { s with
    cells := r.1
    ueDb := s.ueDb.mapValues fun rnti u => { u with other := r.2 rnti u.other } }
  match s.workerCount with
  | 0 => none
  | remWorkers + 1 =>
    some { s with
      workerCount := remWorkers
      currentSlot := if remWorkers = 0 then none else s.currentSlot }

/-- `run_slot` -/
def runSlot (ops : UeOps κ α γ) (nofCells slotTx cc : Nat) (s : State κ α γ) : Option (State κ α γ) :=
  if cc < nofCells then
    match s.currentSlot with
    | none => runCell ops slotTx cc (startSlot ops nofCells slotTx s)
    | some slot => if slot = slotTx then runCell ops slotTx cc s else none
  else none

end State

/-- A call of the scheduler. -/
inductive Call (κ : Type) where
  | enqueue (rnti : Nat) (callback : Callback κ)
  | runSlot (slotTx cc : Nat)
deriving DecidableEq, Repr

/-- One call: `ue_cfg`, which checks the configuration, another call that enqueues an event, or
`run_slot`. -/
def step (ops : UeOps κ α γ) (nofCells : Nat) (s : State κ α γ) :
    Call κ → Option (State κ α γ × Unit)
  | .enqueue rnti (.ueCfg cfg) =>
    if assertUeCfgValid cfg then some (s.enqueueEvent rnti (.ueCfg cfg), ()) else none
  | .enqueue rnti callback => some (s.enqueueEvent rnti callback, ())
  | .runSlot slotTx cc => (s.runSlot ops nofCells slotTx cc).map fun s => (s, ())

end

end Odss.MacNr.Sched
