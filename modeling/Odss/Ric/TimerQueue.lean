import Odss.Lib.BinaryHeap
import Odss.Lib.OrdMap
import Odss.Lib.Run

/-!
# `Odss.Ric.TimerQueue`: the timer queue of the RIC agent

The service models of the RIC agent send their indications from timers
(`srsenb/src/ric/timer_queue.cc`). The timers are in a priority queue of pointers, ordered by their
deadlines. A thread of its own takes the due timers from the top, invokes their callbacks and puts
them back with the next deadline; `insert_periodic` and `cancel` come from other threads.

One mutex protects the queue. The model interleaves at its boundaries: a call of another thread is
one step that is taken when the mutex is free, and the queue thread has a program counter inside
its locked section. A step that waits for the mutex leaves the state, with the output `blocked`.
The condition variable only makes the thread wait, so it is not part of the state. `start` and
`stop` are left out: the thread runs.

`none` is undefined behaviour: the top of an empty queue, or the overflow of `next_id`.
-/

set_option linter.all false

namespace Odss.Ric

open Odss.Lib

/-! ### Times -/

/-- `struct timeval` -/
structure Timeval where
  sec : Int
  usec : Int
deriving DecidableEq

namespace Timeval

theorem toLex_injective :
    Function.Injective fun t : Timeval => (toLex (t.sec, t.usec) : Int ×ₗ Int) := by
  intro a b h
  cases a
  cases b
  cases h
  rfl

/-- `timercmp`, and the order of `timer_comparator`: seconds first. -/
instance : LinearOrder Timeval :=
  LinearOrder.lift' (fun t => (toLex (t.sec, t.usec) : Int ×ₗ Int)) toLex_injective

theorem le_iff (a b : Timeval) : a ≤ b ↔ a.sec < b.sec ∨ a.sec = b.sec ∧ a.usec ≤ b.usec :=
  Prod.Lex.toLex_le_toLex

/-- `timeradd` -/
def add (a b : Timeval) : Timeval :=
  let usec := a.usec + b.usec
  if usec ≥ 1000000 then ⟨a.sec + b.sec + 1, usec - 1000000⟩ else ⟨a.sec + b.sec, usec⟩

/-- The time zero. -/
def zero : Timeval := ⟨0, 0⟩

/-- A sum with an interval that is not negative is not earlier. -/
theorem le_add {a b : Timeval} (hb : zero ≤ b) : a ≤ a.add b := by
  rw [le_iff] at hb ⊢
  have hb : 0 < b.sec ∨ 0 = b.sec ∧ 0 ≤ b.usec := hb
  unfold add
  dsimp only
  split
  · left
    show a.sec < a.sec + b.sec + 1
    omega
  · show a.sec < a.sec + b.sec ∨ a.sec = a.sec + b.sec ∧ a.usec ≤ a.usec + b.usec
    omega

end Timeval

/-! ### The queue -/

/-- `timer_t`, with its id as the pointer. The callback and its argument are left out. -/
structure Timer where
  repeats : Bool
  canceled : Bool
  next : Timeval
  interval : Timeval

/-- Who holds the mutex. -/
inductive Owner where
  | queueThread
  | caller
deriving DecidableEq

/-- Where the queue thread is.

- `waiting`: it waits for the mutex or on the condition variable;
- `top`: at the top of the outer loop, with the mutex;
- `inner`: at the top of the inner loop, with the mutex and the time it has read. -/
inductive Pc where
  | waiting
  | top
  | inner (now : Timeval)
deriving DecidableEq

/-- `timer_queue` -/
structure TimerQueue where
  queue : Heap Nat
  timers : Nat → Timer
  timerMap : OrdMap Int (Option Nat)
  nextId : Nat
  owner : Option Owner
  pc : Pc

namespace TimerQueue

/-- The queue after `start`. -/
def init : TimerQueue where
  queue := ⟨0, fun _ => 0⟩
  timers := fun _ => ⟨false, false, .zero, .zero⟩
  timerMap := ∅
  nextId := 0
  owner := none
  pc := .waiting

/-- The deadline by which the queue orders a timer. -/
def deadline (timers : Nat → Timer) (id : Nat) : Timeval := (timers id).next

/-- `insert_periodic` at the time `now`, which it reads before it takes the mutex. -/
def insertPeriodic (s : TimerQueue) (now interval : Timeval) : Option (TimerQueue × Nat) :=
  -- `next_id` is a signed integer.
  if s.nextId + 1 ≥ 2 ^ 31 then none
  else
    let id := s.nextId + 1
    let timers := Function.update s.timers id
      { repeats := true, canceled := false, next := now.add interval, interval := interval }
    some ({ s with
      timers := timers
      nextId := id
      queue := s.queue.push (deadline timers) id }, id)

/-- `cancel`. The subscript of `timer_map` creates a null entry for a new id, and the function
returns from there without releasing the mutex. -/
def cancel (s : TimerQueue) (id : Int) : TimerQueue :=
  let t := (s.timerMap.find? id).getD none
  let s := { s with timerMap := s.timerMap.insert id t }
  match t with
  | none => { s with owner := some .caller }
  | some t => { s with timers := Function.update s.timers t { s.timers t with canceled := true } }

/-- The outputs of the steps. -/
inductive Out where
  | inserted (id : Nat)
  | canceled
  | fired (id : Nat) (deadline : Timeval)
  | blocked
  | done
deriving DecidableEq

/-- One iteration of the inner loop of `run`, or its exit into the timed wait. A timer that repeats
is in the queue twice while its callback is invoked, with the new deadline, and `pop` removes the
entry at the top. -/
def turn (s : TimerQueue) (now : Timeval) : Option (TimerQueue × Out) :=
  if s.queue.size = 0 then none
  else
    let t := s.queue.entry 0
    let timer := s.timers t
    if timer.next ≤ now then
      if timer.canceled then
        some ({ s with queue := s.queue.pop (deadline s.timers) }, .done)
      else if timer.repeats then
        let timers := Function.update s.timers t
          { timer with next := timer.next.add timer.interval }
        let queue := s.queue.push (deadline timers) t
        some ({ s with timers := timers, queue := queue.pop (deadline timers) },
          .fired t timer.next)
      else
        some ({ s with queue := s.queue.pop (deadline s.timers) }, .fired t timer.next)
    else some ({ s with owner := none, pc := .waiting }, .done)

/-- A call of another thread, or a move of the queue thread.

- `wake`: the thread takes the mutex, at its start or after a wait;
- `look`: it looks at the queue, and reads the time when there is a timer;
- `turn`: one iteration of the inner loop. -/
inductive Call where
  | insertPeriodic (now interval : Timeval)
  | cancel (id : Int)
  | wake
  | look (now : Timeval)
  | turn

/-- One step. -/
def step (s : TimerQueue) : Call → Option (TimerQueue × Out)
  | .insertPeriodic now interval =>
    if s.owner = none then
      (s.insertPeriodic now interval).map fun r => (r.1, .inserted r.2)
    else some (s, .blocked)
  | .cancel id => if s.owner = none then some (s.cancel id, .canceled) else some (s, .blocked)
  | .wake =>
    if s.owner = none ∧ s.pc = .waiting then
      some ({ s with owner := some .queueThread, pc := .top }, .done)
    else some (s, .blocked)
  | .look now =>
    match s.pc with
    | .top =>
      if s.queue.size = 0 then some ({ s with owner := none, pc := .waiting }, .done)
      else some ({ s with pc := .inner now }, .done)
    | _ => some (s, .blocked)
  | .turn =>
    match s.pc with
    | .inner now => s.turn now
    | _ => some (s, .blocked)

/-- The callbacks that a list of outputs invokes, with the deadlines they were due at. -/
def firedOf (outs : List Out) : List (Nat × Timeval) :=
  outs.filterMap fun out =>
    match out with
    | .fired id deadline => some (id, deadline)
    | _ => none

end TimerQueue

end Odss.Ric
