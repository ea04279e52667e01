import Odss.Lib.OrdMap
import Odss.Mac.SchPdu

/-!
# `Odss.Ue.ProcBsr`: the buffer status reports of a UE

The model of `bsr_proc` (`srsue/src/stack/mac/proc_bsr.cc`). What RLC has buffered is a parameter of
`step`. A timer is its duration and whether it is running, and it expires in an event of its own, at any
time while it is running. An UL grant is the calls that `mux::pdu_get` makes for it, with any sizes. Of
the SR procedure it is kept whether it is started. The print of the queue status and log output are left
out.
-/

set_option linter.all false

namespace Odss.Ue.BsrProc

open Odss.Lib
open Odss.Mac (ulCeSize)
open Odss.Mac.SchPdu (BsrFormat)

/-- `NOF_LCG` -/
abbrev nofLcg : Nat := 4

/-- `MAX_TIMER_DURATION` -/
abbrev maxTimerDuration : Int := 0x3FFFFFFF

/-- `CE_SUBHEADER_LEN` -/
abbrev ceSubheaderLen : Nat := 1

/-- `bsr_trigger_type_t` -/
inductive TriggerType where
  | none
  | regular
  | padding
  | periodic
deriving DecidableEq, Repr

/-- `bsr_cfg_t` -/
structure BsrCfg where
  periodicTimer : Int
  retxTimer : Int
deriving DecidableEq, Repr

/-- `lcid_t` -/
structure Lcid where
  priority : Int
  oldBuffer : UInt32
  newBuffer : UInt32
deriving DecidableEq, Repr

/-- `bsr_t` -/
structure Bsr where
  format : BsrFormat
  buffSize : Fin nofLcg → UInt32

/-- A `unique_timer`. A duration of zero has not been set. -/
structure Timer where
  duration : Nat
  running : Bool
deriving DecidableEq, Repr

/-- `set` of a duration, which a running timer goes on with. It is `none` where an assertion fails. -/
def Timer.set (timer : Timer) (duration : Int) : Option Timer :=
  if duration ≤ maxTimerDuration then some { timer with duration := max duration.toNat 1 } else none

/-- The timer, set to a duration that is greater than zero. -/
def Timer.configure (timer : Timer) (duration : Int) : Option Timer :=
  if 0 < duration then timer.set duration else some timer

/-- The procedure. -/
structure State where
  lcgs : Fin nofLcg → OrdMap Nat Lcid
  triggeredBsrType : TriggerType
  timerPeriodic : Timer
  timerRetx : Timer
  srStarted : Bool

namespace State

/-- The state after `init`. -/
def init : State := ⟨fun _ => ∅, .none, ⟨0, false⟩, ⟨0, false⟩, false⟩

/-- `set_trigger` -/
def setTrigger (newTrigger : TriggerType) (s : State) : State :=
  { s with
    triggeredBsrType := newTrigger
    srStarted := s.srStarted || newTrigger == .regular }

/-- `reset` -/
def reset (s : State) : State :=
  { s with
    timerPeriodic := { s.timerPeriodic with running := false }
    timerRetx := { s.timerRetx with running := false }
    triggeredBsrType := .none }

/-- `set_config` -/
def setConfig (cfg : BsrCfg) (s : State) : Option State := do
  let timerPeriodic ← s.timerPeriodic.configure cfg.periodicTimer
  let timerRetx ← s.timerRetx.configure cfg.retxTimer
  some { s with timerPeriodic, timerRetx }

/-- The sum of the remembered levels of some channels. -/
def levels (entries : List (Nat × Lcid)) : UInt32 := (entries.map fun e => e.2.oldBuffer).sum

/-- `get_buffer_state_lcg` -/
def getBufferStateLcg (s : State) (lcg : Fin nofLcg) : UInt32 := levels (s.lcgs lcg).entries

/-- `check_any_channel` -/
def checkAnyChannel (s : State) : Bool := (List.finRange nofLcg).any fun i => s.getBufferStateLcg i ≠ 0

/-- The channels of all groups, in the order of the loops over them. -/
def channels (s : State) : List Lcid :=
  (List.finRange nofLcg).flatMap fun i => (s.lcgs i).values

/-- `check_highest_channel` -/
def checkHighestChannel (s : State) : Bool :=
  s.channels.any fun ch => ch.oldBuffer < ch.newBuffer &&
    s.channels.all fun ch' => !(ch'.priority ≤ ch.priority && 0 < ch'.oldBuffer)

/-- `check_new_data` -/
def checkNewData (s : State) : Bool :=
  (List.finRange nofLcg).any fun i => s.getBufferStateLcg i = 0 &&
    (s.lcgs i).values.any fun ch => 0 < ch.newBuffer

/-- `update_new_data` -/
def updateNewData (rlc : Nat → UInt32) (s : State) : State :=
  { s with lcgs := fun i => (s.lcgs i).mapValues fun lcid ch => { ch with newBuffer := rlc lcid } }

/-- `update_old_buffer` -/
def updateOldBuffer (s : State) : State :=
  { s with lcgs := fun i => (s.lcgs i).mapValues fun _ ch => { ch with oldBuffer := ch.newBuffer } }

/-- `step` -/
def step (rlc : Nat → UInt32) (s : State) : State :=
  let s := s.updateNewData rlc
  let s := if s.checkNewData || s.checkHighestChannel then s.setTrigger .regular else s
  s.updateOldBuffer

/-- `timer_expired` for `timer_periodic` -/
def timerPeriodicExpired (s : State) : State :=
  let s := { s with timerPeriodic := { s.timerPeriodic with running := false } }
  if s.triggeredBsrType = .none then s.setTrigger .periodic else s

/-- `timer_expired` for `timer_retx` -/
def timerRetxExpired (s : State) : State :=
  let s := { s with timerRetx := { s.timerRetx with running := false } }
  if s.checkAnyChannel then s.setTrigger .regular else s

attribute [local instance] Odss.Mac.SchPdu.neZero_lcg

/-- `find_max_priority_lcg_with_data` -/
def findMaxPriorityLcgWithData (s : State) : Fin nofLcg :=
  ((List.finRange nofLcg).foldl (fun acc i =>
    (s.lcgs i).values.foldl (fun (acc : Int × Fin nofLcg) ch =>
      if ch.priority < acc.1 ∧ 0 < ch.oldBuffer then (ch.priority, i) else acc) acc)
    ((99 : Int), (0 : Fin nofLcg))).2

/-- The format that `generate_bsr` chooses, if the PDU has space for one. -/
def chooseFormat (s : State) (buffSize : Fin nofLcg → UInt32) (pduSpace : Nat) : Option BsrFormat :=
  let nofLcgWithData := (List.finRange nofLcg).countP fun i => 0 < buffSize i
  if ceSubheaderLen + ulCeSize BsrFormat.long.lcid ≤ pduSpace then
    if s.triggeredBsrType ≠ .padding ∧ nofLcgWithData ≤ 1 then some .short else some .long
  else if ceSubheaderLen + ulCeSize BsrFormat.short.lcid ≤ pduSpace then
    if 1 < nofLcgWithData then some .trunc else some .short
  else none

/-- `generate_bsr`, with whether a BSR is to be sent. -/
def generateBsr (bsr : Bsr) (pduSpace : Nat) (s : State) : Bool × Bsr × State :=
  match s.chooseFormat bsr.buffSize pduSpace with
  | none => (false, bsr, s)
  | some format =>
    let buffSize := if format = .trunc then
        fun i => if s.findMaxPriorityLcgWithData ≠ i then 0 else bsr.buffSize i
      else bsr.buffSize
    let timerPeriodic := if s.timerPeriodic.duration ≠ 0 ∧ format ≠ .trunc then
        { s.timerPeriodic with running := true }
      else s.timerPeriodic
    (true, ⟨format, buffSize⟩, { s with timerPeriodic, triggeredBsrType := .none })

/-- `need_to_send_bsr_on_ul_grant` -/
def needToSendBsrOnUlGrant (grantSize totalData : Nat) (bsr : Bsr) (s : State) :
    Bool × Bsr × State :=
  let r : Bool × Bsr × State :=
    if s.triggeredBsrType = .periodic ∨ s.triggeredBsrType = .regular then
      if totalData ≤ grantSize then (false, bsr, { s with triggeredBsrType := .none })
      else generateBsr bsr grantSize s
    else (false, bsr, s)
  let s : State := { r.2.2 with srStarted := false }
  let s := if s.timerRetx.duration ≠ 0 then { s with timerRetx := { s.timerRetx with running := true } }
    else s
  (r.1, r.2.1, s)

/-- `generate_padding_bsr` -/
def generatePaddingBsr (nofPaddingBytes : Nat) (bsr : Bsr) (s : State) : Bool × Bsr × State :=
  if ceSubheaderLen + ulCeSize BsrFormat.short.lcid ≤ nofPaddingBytes then
    let r := generateBsr bsr nofPaddingBytes (s.setTrigger .padding)
    (true, r.2.1, r.2.2.setTrigger .none)
  else (false, bsr, s)

/-- `update_bsr_tti_end` -/
def updateBsrTtiEnd (bsr : Bsr) (s : State) : State :=
  if bsr.format = .trunc then s
  else { s with
    lcgs := fun i => if bsr.buffSize i = 0 then
        (s.lcgs i).mapValues fun _ ch => { ch with oldBuffer := 0 }
      else s.lcgs i }

/-- `setup_lcid`. A channel that is put into a map anew has no `new_buffer`. -/
def setupLcid (lcid newLcg : Nat) (priority : Int) (s : State) : State :=
  if h : newLcg < nofLcg then
    { s with
      lcgs := fun i =>
        let lcg := (s.lcgs i).erase lcid
        if i = ⟨newLcg, h⟩ then lcg.insert lcid ⟨priority, 0, 0⟩ else lcg }
  else s

end State

/-- The calls for an UL grant: what `mux::pdu_get` passes to `need_to_send_bsr_on_ul_grant`, what is
buffered in each group after the SDUs are taken, and what it passes to `generate_padding_bsr` if it
calls it. -/
structure UlGrant where
  grantSize : Nat
  totalData : Nat
  pending : Fin nofLcg → UInt32
  remaining : Fin nofLcg → UInt32
  padding : Option Nat

/-- An UL grant. The format is the one that the BSR has by then. -/
def State.ulGrant (grant : UlGrant) (s : State) : State :=
  let r := s.needToSendBsrOnUlGrant grant.grantSize grant.totalData ⟨.long, grant.pending⟩
  let bsr : Bsr := { r.2.1 with buffSize := grant.remaining }
  let r : Bool × Bsr × State := match grant.padding with
    | some nofPaddingBytes => r.2.2.generatePaddingBsr nofPaddingBytes bsr
    | none => (false, bsr, r.2.2)
  r.2.2.updateBsrTtiEnd r.2.1

/-- An event of the procedure. -/
inductive Event where
  | step (rlc : Nat → UInt32)
  | ulGrant (grant : UlGrant)
  | timerPeriodicExpired
  | timerRetxExpired
  | reset
  | setConfig (cfg : BsrCfg)
  | setupLcid (lcid newLcg : Nat) (priority : Int)

/-- One event. It is `none` where a timer is not running or an assertion fails. -/
def step (s : State) : Event → Option (State × Unit)
  | .step rlc => some (s.step rlc, ())
  | .ulGrant grant => some (s.ulGrant grant, ())
  | .timerPeriodicExpired =>
    if s.timerPeriodic.running then some (s.timerPeriodicExpired, ()) else none
  | .timerRetxExpired => if s.timerRetx.running then some (s.timerRetxExpired, ()) else none
  | .reset => some (s.reset, ())
  | .setConfig cfg => (s.setConfig cfg).map fun s => (s, ())
  | .setupLcid lcid newLcg priority => some (s.setupLcid lcid newLcg priority, ())

end Odss.Ue.BsrProc
