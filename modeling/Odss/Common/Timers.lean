import Mathlib.Tactic

/-!
# `Odss.Common.Timers`: the timer wheel

The model of `timer_handler` (`lib/include/srsran/common/timers.h`). A list of the wheel has the
ids of its timers in their order, and the node behind a timer is the one behind it in its list
(`lib/include/srsran/adt/intrusive_list.h`: a node that was removed has no node behind it). Ids
are natural numbers, and the state word and the tics are those of 64 and 32 bits. The counters
of timers, which no modelled function reads, are left out.

The calls of an expiry callback are part of the call of `step_all`. `TimerRun` keeps the
events of a run, the last one in front.
-/

set_option linter.all false

namespace Odss.Common

/-! ### The state word -/

/-- The mode flags of a state word. -/
inductive TimerMode where
  | stopped
  | running
  | expired
deriving DecidableEq, Repr

/-- `STOPPED_FLAG`, `RUNNING_FLAG` and `EXPIRED_FLAG` -/
def TimerMode.flag : TimerMode → Nat
  | .stopped => 0
  | .running => 2 ^ 63
  | .expired => 2 ^ 62

/-- `MAX_TIMER_DURATION` -/
abbrev maxTimerDuration : Nat := 2 ^ 30 - 1

/-- `encode_state` -/
def encodeState (mode : TimerMode) (duration timeout : Nat) : Nat :=
  mode.flag + duration * 2 ^ 32 + timeout

/-- `decode_is_running` -/
def decodeIsRunning (value : Nat) : Bool := value / 2 ^ 63 % 2 == 1

/-- `decode_duration` -/
def decodeDuration (value : Nat) : Nat := value / 2 ^ 32 % 2 ^ 30

/-- `decode_timeout` -/
def decodeTimeout (value : Nat) : Nat := value % 2 ^ 32

section StateWord

variable {mode : TimerMode} {duration timeout : Nat}

theorem decodeIsRunning_encodeState (hd : duration < 2 ^ 30) (ht : timeout < 2 ^ 32) :
    decodeIsRunning (encodeState mode duration timeout) = (mode == .running) := by
  have hflag : (mode.flag + duration * 2 ^ 32 + timeout) / 2 ^ 63 % 2
      = if mode = .running then 1 else 0 := by
    cases mode <;> simp only [TimerMode.flag, reduceCtorEq, if_false, if_true] <;> omega
  rw [decodeIsRunning, encodeState, hflag]
  cases mode <;> rfl

theorem decodeTimeout_encodeState (ht : timeout < 2 ^ 32) :
    decodeTimeout (encodeState mode duration timeout) = timeout := by
  unfold decodeTimeout encodeState
  cases mode <;> simp only [TimerMode.flag] <;> omega

end StateWord

theorem decodeDuration_lt (value : Nat) : decodeDuration value < 2 ^ 30 :=
  Nat.mod_lt _ (by decide)

theorem decodeTimeout_lt (value : Nat) : decodeTimeout value < 2 ^ 32 := Nat.mod_lt _ (by decide)

/-! ### The handler -/

/-- `timer_impl`. `callback` is whether there is one. -/
structure TimerImpl where
  allocated : Bool
  state : Nat
  callback : Bool
deriving DecidableEq, Repr

/-- The state of `timer_handler`: the timers of `timer_list` up to `nofTimers`, and for each
place of the wheel the list of the timers in it. -/
structure TimerHandler where
  curTime : Nat
  timers : Nat → TimerImpl
  nofTimers : Nat
  freeList : List Nat
  wheel : Nat → List Nat

namespace TimerHandler

/-- A handler with some free timers. -/
def init (capacity : Nat) : TimerHandler where
  curTime := 0
  timers := fun _ => ⟨false, 0, false⟩
  nofTimers := capacity
  freeList := List.range capacity
  wheel := fun _ => []

/-- `timeout & WHEEL_MASK` -/
def wheelPos (timeout : Nat) : Nat := timeout % 2 ^ 16

/-- `is_running_` -/
def isRunning (s : TimerHandler) (t : Nat) : Bool := decodeIsRunning (s.timers t).state

/-- `duration_` -/
def duration (s : TimerHandler) (t : Nat) : Nat := decodeDuration (s.timers t).state

/-- The timeout in the state word. -/
def timeout (s : TimerHandler) (t : Nat) : Nat := decodeTimeout (s.timers t).state

theorem duration_lt (s : TimerHandler) (t : Nat) : s.duration t < 2 ^ 30 := decodeDuration_lt _

theorem timeout_lt (s : TimerHandler) (t : Nat) : s.timeout t < 2 ^ 32 := decodeTimeout_lt _

/-- A timer with other contents. -/
def setTimer (s : TimerHandler) (t : Nat) (timer : TimerImpl) : TimerHandler :=
  { s with timers := fun u => if u = t then timer else s.timers u }

/-- `state.store` -/
def storeState (s : TimerHandler) (t state : Nat) : TimerHandler :=
  s.setTimer t { s.timers t with state := state }

/-- `pop` -/
def pop (s : TimerHandler) (pos t : Nat) : TimerHandler :=
  { s with wheel := fun p => if p = pos then (s.wheel p).erase t else s.wheel p }

/-- `push_front` -/
def pushFront (s : TimerHandler) (pos t : Nat) : TimerHandler :=
  { s with wheel := fun p => if p = pos then t :: s.wheel p else s.wheel p }

/-- `next_node`: a timer that does not run is in no list. -/
def nextNode (s : TimerHandler) (t : Nat) : Option Nat :=
  if s.isRunning t then ((s.wheel (wheelPos (s.timeout t))).dropWhile (· != t)).tail.head?
  else none

/-- `start_run_`. The duration is that of the timer when it is zero here. -/
def startRun (s : TimerHandler) (t duration : Nat) : TimerHandler :=
  let duration := if duration = 0 then s.duration t else duration
  let newTimeout := (s.curTime + duration) % 2 ^ 32
  let state := encodeState .running duration newTimeout
  if s.isRunning t && wheelPos (s.timeout t) == wheelPos newTimeout then s.storeState t state
  else
    let s := if s.isRunning t then s.pop (wheelPos (s.timeout t)) t else s
    (s.pushFront (wheelPos newTimeout) t).storeState t state

/-- `stop_timer_` -/
def stopTimer (s : TimerHandler) (t : Nat) (expiry : Bool) : TimerHandler :=
  if !s.isRunning t then s
  else
    (s.pop (wheelPos (s.timeout t)) t).storeState t
      (encodeState (if expiry then .expired else .stopped) (s.duration t) (s.timeout t))

/-- `set_`. The duration is at most `MAX_TIMER_DURATION`, which the callers check. -/
def setDuration (s : TimerHandler) (t : Nat) (duration : Fin (2 ^ 30)) : TimerHandler :=
  let duration := max duration.val 1
  if s.isRunning t then s.startRun t duration
  else s.storeState t (encodeState .stopped duration 0)

/-- `set`, with or without another callback. -/
def set (s : TimerHandler) (t : Nat) (duration : Fin (2 ^ 30)) (callback : Bool) : TimerHandler :=
  let s := s.setDuration t duration
  if callback then s.setTimer t { s.timers t with callback := true } else s

/-- `alloc_timer` -/
def allocTimer (s : TimerHandler) : TimerHandler :=
  match s.freeList with
  | t :: rest => { s with freeList := rest }.setTimer t { s.timers t with allocated := true }
  | [] => { s with nofTimers := s.nofTimers + 1 }.setTimer s.nofTimers ⟨true, 0, false⟩

/-- `dealloc_timer_` -/
def deallocTimer (s : TimerHandler) (t : Nat) : TimerHandler :=
  if !(s.timers t).allocated then s
  else
    let s := s.stopTimer t false
    { s with freeList := t :: s.freeList }.setTimer t ⟨false, encodeState .stopped 0 0, false⟩

end TimerHandler

/-! ### Runs -/

/-- An event of a run. A timer is started with a duration when some steps are complete, or it is
stopped or released. In the step with a number it expires, and its callback is called when it
has one. -/
inductive TimerEvent where
  | started (timer completed duration : Nat)
  | stopped (timer : Nat)
  | expired (timer step : Nat) (called : Bool)
deriving DecidableEq, Repr

/-- The timer of an event. -/
def TimerEvent.timer : TimerEvent → Nat
  | .started t _ _ => t
  | .stopped t => t
  | .expired t _ _ => t

/-- A handler with the number of complete steps and the events. -/
structure TimerRun where
  handler : TimerHandler
  completed : Nat
  events : List TimerEvent

/-- A call of the user or of a callback. -/
inductive TimerOp where
  | alloc
  | set (timer : Nat) (duration : Fin (2 ^ 30)) (callback : Bool)
  | run (timer : Nat)
  | stop (timer : Nat)
  | release (timer : Nat)
deriving DecidableEq, Repr

namespace TimerRun

open TimerHandler

/-- The run before the first call. -/
def init (capacity : Nat) : TimerRun := ⟨.init capacity, 0, []⟩

/-- One call. There is a handle only for a timer that is allocated. -/
def apply (r : TimerRun) : TimerOp → TimerRun
  | .alloc => { r with handler := r.handler.allocTimer }
  | .set t d callback =>
    if !(r.handler.timers t).allocated then r
    else if r.handler.isRunning t then
      { r with
        handler := r.handler.set t d callback
        events := .started t r.completed (max d.val 1) :: r.events }
    else { r with handler := r.handler.set t d callback }
  | .run t =>
    if !(r.handler.timers t).allocated then r
    else
      { r with
        handler := r.handler.startRun t 0
        events := .started t r.completed (r.handler.duration t) :: r.events }
  | .stop t =>
    if !(r.handler.timers t).allocated then r
    else
      { r with
        handler := r.handler.stopTimer t false
        events := .stopped t :: r.events }
  | .release t =>
    if !(r.handler.timers t).allocated then r
    else
      { r with
        handler := r.handler.deallocTimer t
        events := .stopped t :: r.events }

/-- The part of `step_all` that stops a timer, in front of its callback. -/
def expire (r : TimerRun) (t : Nat) : TimerRun :=
  { r with
    handler := r.handler.stopTimer t true
    events := .expired t (r.completed + 1) (r.handler.timers t).callback :: r.events }

/-- The loop of `step_all` in the list of the tic `now`, from the node `it` on. `scripts` has the
calls that the callbacks make, one after the other. -/
def stepLoop (now : Nat) : Nat → Option Nat → List (List TimerOp) → TimerRun → TimerRun
  | 0, _, _, r => r
  | _ + 1, none, _, r => r
  | fuel + 1, some t, scripts, r =>
    let next := r.handler.nextNode t
    if r.handler.timeout t = now then
      if (r.handler.timers t).callback then
        stepLoop now fuel next scripts.tail ((scripts.headD []).foldl apply (r.expire t))
      else stepLoop now fuel next scripts (r.expire t)
    else stepLoop now fuel next scripts r

/-- `cur_time_local` -/
def nextTic (r : TimerRun) : Nat := (r.handler.curTime + 1) % 2 ^ 32

/-- A number of iterations that the loop does not reach: between two callbacks that make calls it
goes along one list. -/
def loopFuel (r : TimerRun) (scripts : List (List TimerOp)) : Nat :=
  (scripts.length + 1) * (r.handler.nofTimers + scripts.flatten.length + 1)

/-- The first node of the list that `step_all` goes along. -/
def firstNode (r : TimerRun) : Option Nat := (r.handler.wheel (wheelPos r.nextTic)).head?

/-- `step_all` -/
def stepAll (r : TimerRun) (scripts : List (List TimerOp)) : TimerRun :=
  let r' := stepLoop r.nextTic (r.loopFuel scripts) r.firstNode scripts r
  { r' with
    handler := { r'.handler with curTime := (r'.handler.curTime + 1) % 2 ^ 32 }
    completed := r'.completed + 1 }

end TimerRun

/-- A call of the user, with the calls of the callbacks. -/
inductive TimerCall where
  | op (op : TimerOp)
  | stepAll (scripts : List (List TimerOp))
deriving DecidableEq, Repr

/-- One call of a run. -/
def TimerRun.step (r : TimerRun) : TimerCall → TimerRun
  | .op op => r.apply op
  | .stepAll scripts => r.stepAll scripts

end Odss.Common
