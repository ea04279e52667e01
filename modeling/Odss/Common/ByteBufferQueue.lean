import Odss.Common.CircularBuffer
import Mathlib.Data.List.ReduceOption

/-!
# `Odss.Common.ByteBufferQueue`: the SDU queue and its counters

The model of `byte_buffer_queue` (`lib/include/srsran/upper/byte_buffer_queue.h`) over
`base_blocking_queue` with its non-blocking operations. A storage of the circular buffer holds an
SDU, or null once `apply_first` nulled it. The counters are changed by the two callbacks only.

* `Counted`: the counters are the number and the total length of the queued SDUs.
* `step_counted_iff`: when an operation keeps that.
-/

set_option linter.all false

namespace Odss.Common

open Odss.Lib

/-- What the queue reads of a `byte_buffer_t` -/
structure SduBuffer where
  nBytes : Nat
  pdcpSn : Nat
  deriving DecidableEq, Repr

/-- The counters of `byte_buffer_queue` -/
structure QueueCounters where
  unreadBytes : Nat := 0
  nSdus : Nat := 0

/-- `byte_buffer_queue` -/
structure ByteBufferQueue where
  circBuffer : CircularBuffer (Option SduBuffer)
  active : Bool := true
  counters : QueueCounters := {}

namespace ByteBufferQueue

/-- A queue with storage for `capacity` SDUs. -/
def init (capacity : Nat) : ByteBufferQueue := { circBuffer := .empty capacity }

/-- `get_n_sdus` -/
def getNSdus (q : ByteBufferQueue) : Nat := q.counters.nSdus

/-- `size_bytes` -/
def sizeBytes (q : ByteBufferQueue) : Nat := q.counters.unreadBytes

/-- `push_callback` -/
def pushCallback (c : QueueCounters) (msg : SduBuffer) : QueueCounters where
  unreadBytes := (c.unreadBytes + msg.nBytes) % 2 ^ 32
  nSdus := (c.nSdus + 1) % 2 ^ 32

/-- `pop_callback` -/
def popCallback (c : QueueCounters) : Option SduBuffer → QueueCounters
  | none => c
  | some msg =>
    { unreadBytes := c.unreadBytes - min msg.nBytes c.unreadBytes
      nSdus := (max 0 ((c.nSdus : Int).bmod (2 ^ 32) - 1)).toNat }

/-- `try_write`, with the answer of `push_` -/
def tryWrite (q : ByteBufferQueue) (msg : SduBuffer) : Option (ByteBufferQueue × Bool) :=
  if q.active = false then some (q, false)
  else if q.circBuffer.full then some (q, false)
  else do
    let circBuffer ← q.circBuffer.push (some msg)
    some ({ q with circBuffer, counters := pushCallback q.counters msg }, true)

/-- `try_read`, with the answer of `pop_`: the message that is read is given to the callback. -/
def tryRead (q : ByteBufferQueue) : Option (ByteBufferQueue × Option (Option SduBuffer)) :=
  if q.active = false then some (q, none)
  else if q.circBuffer.count = 0 then some (q, none)
  else do
    let obj ← q.circBuffer.top
    let circBuffer ← q.circBuffer.pop
    some ({ q with circBuffer, counters := popCallback q.counters obj }, some obj)

/-- A function for `apply_first` that nulls the SDUs that `hit` finds. With `popFunc` it gives them
to `pop_callback` first; `answer` is what it answers for them. -/
def nulling (hit : SduBuffer → Bool) (popFunc answer : Bool) :
    Option SduBuffer → QueueCounters → Bool × Option SduBuffer × QueueCounters
  | none, c => (false, none, c)
  | some sdu, c =>
    if hit sdu then (answer, none, if popFunc then popCallback c (some sdu) else c)
    else (false, some sdu, c)

/-- `apply_first` with a function that nulls SDUs -/
def applyFirst (q : ByteBufferQueue) (hit : SduBuffer → Bool) (popFunc answer : Bool) :
    Option (ByteBufferQueue × Bool) := do
  let (found, circBuffer, counters) ←
    q.circBuffer.applyFirst (nulling hit popFunc answer) q.counters
  some ({ q with circBuffer, counters }, found)

/-- `rlc_am_lte_tx::discard_sdu` -/
def discardSdu (q : ByteBufferQueue) (discardSn : Nat) : Option (ByteBufferQueue × Bool) :=
  q.applyFirst (fun sdu => sdu.pdcpSn == discardSn) true false

/-- `stop` -/
def stop (q : ByteBufferQueue) : ByteBufferQueue :=
  if q.active then { q with active := false, circBuffer := q.circBuffer.clear } else q

/-- An operation of the queue -/
inductive Op where
  | tryWrite (msg : SduBuffer)
  | tryRead
  | applyFirst (hit : SduBuffer → Bool) (popFunc answer : Bool)
  | stop

/-- One operation. -/
def step (q : ByteBufferQueue) : Op → Option (ByteBufferQueue × Unit)
  | .tryWrite msg => (q.tryWrite msg).map fun r => (r.1, ())
  | .tryRead => q.tryRead.map fun r => (r.1, ())
  | .applyFirst hit popFunc answer => (q.applyFirst hit popFunc answer).map fun r => (r.1, ())
  | .stop => some (q.stop, ())

/-- The queued SDUs that are not null -/
def queued (q : ByteBufferQueue) : List SduBuffer :=
  (List.range q.circBuffer.count).filterMap fun i => (q.circBuffer.get i).join

/-- The total length of SDUs -/
def totalBytes (sdus : List SduBuffer) : Nat := (sdus.map SduBuffer.nBytes).sum

/-- The counters are those of the SDUs. -/
def CountersOf (c : QueueCounters) (sdus : List SduBuffer) : Prop :=
  c.nSdus = sdus.length ∧ c.unreadBytes = totalBytes sdus

/-- The counters are the number and the total length of the queued SDUs. -/
def Counted (q : ByteBufferQueue) : Prop :=
  q.getNSdus = q.queued.length ∧ q.sizeBytes = totalBytes q.queued

/-- What keeps the counters: no total from `2 ^ 32` on, no SDU nulled without its callback, none
queued at the stop. -/
def Counts (q : ByteBufferQueue) : Op → Prop
  | .tryWrite msg =>
    q.active = true → q.circBuffer.full = false → totalBytes q.queued + msg.nBytes < 2 ^ 32
  | .tryRead => True
  | .applyFirst hit popFunc _ =>
    0 < q.circBuffer.maxSize ∧
      (q.circBuffer.full = true ∨ popFunc = true ∨ ∀ sdu ∈ q.queued, hit sdu = false)
  | .stop => q.active = true → q.queued = []

/-! ### The counters -/

variable {q : ByteBufferQueue} {c : QueueCounters} {xs : List (Option SduBuffer)}
  {sdus : List SduBuffer} {sdu : SduBuffer}

theorem queued_eq (h : q.circBuffer.Holds xs) : q.queued = xs.reduceOption := by
  rw [queued, h.count_eq]
  have hget : (fun i => (q.circBuffer.get i).join) = fun i => (xs[i]?).join :=
    funext fun i => by rw [h.get]
  rw [hget]
  clear hget h
  induction xs with
  | nil => rfl
  | cons x xs ih =>
    rw [List.length_cons, List.range_succ_eq_map, List.filterMap_cons, List.filterMap_map]
    cases x with
    | none =>
      rw [List.reduceOption_cons_of_none, ← ih]
      rfl
    | some sdu =>
      rw [List.reduceOption_cons_of_some, ← ih]
      rfl

theorem counted_iff (h : q.circBuffer.Holds xs) :
    q.Counted ↔ CountersOf q.counters (xs.reduceOption) := by
  rw [Counted, queued_eq h]
  rfl

theorem countersOf_pushCallback (h : CountersOf c sdus) (hlen : sdus.length + 1 < 2 ^ 32) :
    CountersOf (pushCallback c sdu) (sdus ++ [sdu]) ↔ totalBytes sdus + sdu.nBytes < 2 ^ 32 := by
  have htotal : totalBytes (sdus ++ [sdu]) = totalBytes sdus + sdu.nBytes := by simp [totalBytes]
  rw [CountersOf, pushCallback, htotal, h.1, h.2, List.length_append, List.length_singleton]
  constructor
  · rintro ⟨-, heq⟩
    have hmod : (totalBytes sdus + sdu.nBytes) % 2 ^ 32 = totalBytes sdus + sdu.nBytes := heq
    have hlt := Nat.mod_lt (totalBytes sdus + sdu.nBytes) (show 0 < 2 ^ 32 by decide)
    rw [hmod] at hlt
    exact hlt
  · intro hlt
    exact ⟨Nat.mod_eq_of_lt hlen, Nat.mod_eq_of_lt hlt⟩

theorem countersOf_popCallback (pre : List SduBuffer) (h : CountersOf c (pre ++ sdu :: sdus))
    (hlen : (pre ++ sdu :: sdus).length < 2 ^ 31) :
    CountersOf (popCallback c (some sdu)) (pre ++ sdus) := by
  obtain ⟨hn, hbytes⟩ := h
  have htotal : totalBytes (pre ++ sdu :: sdus) = totalBytes (pre ++ sdus) + sdu.nBytes := by
    simp [totalBytes]
    omega
  rw [List.length_append, List.length_cons] at hn hlen
  constructor
  · have hbmod : (c.nSdus : Int).bmod (2 ^ 32) = c.nSdus :=
      Int.bmod_eq_of_le_mul_two (by omega) (by omega)
    rw [popCallback, hbmod, List.length_append]
    show (max 0 ((c.nSdus : Int) - 1)).toNat = _
    omega
  · show c.unreadBytes - min sdu.nBytes c.unreadBytes = _
    omega

/-- With the callback the counters stay those of the SDUs that are not null. -/
theorem countersOf_nulling {hit : SduBuffer → Bool} {answer : Bool} (pre : List SduBuffer)
    (h : CountersOf c (pre ++ xs.reduceOption)) (hlen : pre.length + xs.length < 2 ^ 31) :
    CountersOf (CircularBuffer.firstMatch (nulling hit true answer) xs c).2.2
      (pre ++ (CircularBuffer.firstMatch (nulling hit true answer) xs c).2.1.reduceOption) := by
  induction xs generalizing pre c with
  | nil => exact h
  | cons x xs ih =>
    rw [List.length_cons] at hlen
    rw [CircularBuffer.firstMatch]
    cases x with
    | none => exact ih pre h (by omega)
    | some sdu =>
      rw [List.reduceOption_cons_of_some] at h
      have hle := List.reduceOption_length_le xs
      by_cases hhit : hit sdu = true
      · have hpop : CountersOf (popCallback c (some sdu)) (pre ++ xs.reduceOption) :=
          countersOf_popCallback pre h (by rw [List.length_append, List.length_cons]; omega)
        simp only [nulling, if_pos hhit, if_true]
        cases answer with
        | true => exact hpop
        | false => exact ih pre hpop (by omega)
      · simp only [nulling, if_neg hhit]
        have hrest := ih (pre ++ [sdu]) (by rw [List.append_assoc]; exact h)
          (by rw [List.length_append, List.length_singleton]; omega)
        rw [List.append_assoc] at hrest
        exact hrest

/-- Without the callback the counters stay as they are. -/
theorem nulling_counters {hit : SduBuffer → Bool} {answer : Bool} :
    (CircularBuffer.firstMatch (nulling hit false answer) xs c).2.2 = c := by
  induction xs with
  | nil => rfl
  | cons x xs ih =>
    have hsame : (nulling hit false answer x c).2.2 = c := by
      cases x with
      | none => rfl
      | some sdu => rw [nulling]; split <;> rfl
    rw [CircularBuffer.firstMatch, hsame]
    split
    · rfl
    · exact ih

/-- No SDU is added, and when one is found there is one less. -/
theorem nulling_length (hit : SduBuffer → Bool) (popFunc answer : Bool) (c : QueueCounters) :
    ((CircularBuffer.firstMatch (nulling hit popFunc answer) xs c).2.1.reduceOption).length ≤
        (xs.reduceOption).length ∧
      ((∃ sdu ∈ xs.reduceOption, hit sdu = true) →
        ((CircularBuffer.firstMatch (nulling hit popFunc answer) xs c).2.1.reduceOption).length <
          (xs.reduceOption).length) := by
  induction xs generalizing c with
  | nil => simp [CircularBuffer.firstMatch]
  | cons x xs ih =>
    rw [CircularBuffer.firstMatch]
    cases x with
    | none => exact ih c
    | some sdu =>
      rw [List.reduceOption_cons_of_some, List.length_cons]
      by_cases hhit : hit sdu = true
      · simp only [nulling, if_pos hhit]
        split
        · simp
        · have hle := (ih (if popFunc then popCallback c (some sdu) else c)).1
          simp only [List.reduceOption_cons_of_none]
          omega
      · simp only [nulling, if_neg hhit, Bool.false_eq_true, if_false]
        obtain ⟨hle, hlt⟩ := ih c
        rw [List.reduceOption_cons_of_some, List.length_cons]
        refine ⟨by omega, ?_⟩
        rintro ⟨sdu', hmem, hhit'⟩
        rcases List.mem_cons.mp hmem with rfl | hmem
        · exact absurd hhit' hhit
        · have := hlt ⟨sdu', hmem, hhit'⟩
          omega

/-- Where no SDU is found nothing changes. -/
theorem nulling_eq {hit : SduBuffer → Bool} {popFunc answer : Bool}
    (h : ∀ sdu ∈ xs.reduceOption, hit sdu = false) :
    CircularBuffer.firstMatch (nulling hit popFunc answer) xs c = (false, xs, c) := by
  induction xs with
  | nil => rfl
  | cons x xs ih =>
    cases x with
    | none =>
      have hrest := ih h
      rw [CircularBuffer.firstMatch]
      simp only [nulling, Bool.false_eq_true, if_false]
      rw [hrest]
    | some sdu =>
      rw [List.reduceOption_cons_of_some] at h
      have hsdu := h sdu List.mem_cons_self
      rw [CircularBuffer.firstMatch]
      simp only [nulling, hsdu, Bool.false_eq_true, if_false]
      rw [ih fun sdu hmem => h sdu (List.mem_cons_of_mem _ hmem)]

/-! ### The queue as a list -/

/-- The queue with the list of its messages in place of the circular buffer -/
structure Msgs where
  active : Bool
  msgs : List (Option SduBuffer)
  counters : QueueCounters

/-- One operation on the list of messages. -/
def listStep (capacity : Nat) (t : Msgs) : Op → Option Msgs
  | .tryWrite msg =>
    if t.active = true ∧ t.msgs.length < capacity then
      some { t with msgs := t.msgs ++ [some msg], counters := pushCallback t.counters msg }
    else some t
  | .tryRead =>
    if t.active = true then
      match t.msgs with
      | [] => some t
      | obj :: msgs => some { t with msgs, counters := popCallback t.counters obj }
    else some t
  | .applyFirst hit popFunc answer =>
    if capacity = 0 then none
    else if t.msgs.length = capacity then some t
    else
      let r := CircularBuffer.firstMatch (nulling hit popFunc answer) t.msgs t.counters
      some { t with msgs := r.2.1, counters := r.2.2 }
  | .stop => if t.active = true then some { t with active := false, msgs := [] } else some t

/-- The queue `q` has the messages `t`. -/
structure HasMsgs (capacity : Nat) (q : ByteBufferQueue) (t : Msgs) : Prop where
  holds : q.circBuffer.Holds t.msgs
  maxSize_eq : q.circBuffer.maxSize = capacity
  active_eq : q.active = t.active
  counters_eq : q.counters = t.counters

theorem step_refines {capacity : Nat} {t : Msgs} (h : HasMsgs capacity q t) (op : Op) :
    Option.Rel (fun r t => HasMsgs capacity r.1 t) (q.step op) (listStep capacity t op) := by
  obtain ⟨hholds, rfl, hactive, hcounters⟩ := h
  cases op with
  | tryWrite msg =>
    rw [step, tryWrite, listStep, ← hactive, ← hcounters]
    by_cases ha : q.active = true
    · rw [if_neg (by rw [ha]; decide)]
      by_cases hlt : t.msgs.length < q.circBuffer.maxSize
      · have hfull : ¬ q.circBuffer.full = true := fun hf => by
          have := hholds.full_iff.mp hf
          omega
        obtain ⟨b, hpush, hmax, hb⟩ := hholds.push hlt (some msg)
        rw [if_neg hfull, if_pos ⟨ha, hlt⟩, hpush]
        exact .some ⟨hb, hmax, rfl, rfl⟩
      · rw [if_pos (hholds.full_iff.mpr (by have := hholds.le; omega)), if_neg fun h => hlt h.2]
        exact .some ⟨hholds, rfl, hactive, hcounters⟩
    · rw [if_pos (Bool.eq_false_iff.mpr ha), if_neg fun h => ha h.1]
      exact .some ⟨hholds, rfl, hactive, hcounters⟩
  | tryRead =>
    rw [step, tryRead, listStep, ← hactive, ← hcounters]
    by_cases ha : q.active = true
    · rw [if_neg (by rw [ha]; decide), if_pos ha]
      obtain ⟨active, msgs, counters⟩ := t
      cases msgs with
      | nil =>
        rw [if_pos (show q.circBuffer.count = 0 from hholds.count_eq)]
        exact .some ⟨hholds, rfl, hactive, hcounters⟩
      | cons obj msgs =>
        have hne : q.circBuffer.count ≠ 0 := by rw [hholds.count_eq]; exact Nat.succ_ne_zero _
        obtain ⟨b, hpop, hmax, hb⟩ := hholds.pop
        rw [if_neg hne, hholds.top, hpop]
        exact .some ⟨hb, hmax, rfl, rfl⟩
    · rw [if_pos (Bool.eq_false_iff.mpr ha), if_neg ha]
      exact .some ⟨hholds, rfl, hactive, hcounters⟩
  | applyFirst hit popFunc answer =>
    rw [step, applyFirst, listStep, ← hcounters]
    by_cases hzero : q.circBuffer.maxSize = 0
    · rw [if_pos hzero, CircularBuffer.applyFirst_zero hzero]
      exact .none
    · rw [if_neg hzero]
      by_cases hfull : t.msgs.length = q.circBuffer.maxSize
      · rw [if_pos hfull, hholds.applyFirst_full hfull (by omega)]
        exact .some ⟨hholds, rfl, hactive, hcounters⟩
      · have hlt : t.msgs.length < q.circBuffer.maxSize := by have := hholds.le; omega
        obtain ⟨b, hrun, hmax, hb⟩ := hholds.applyFirst hlt (nulling hit popFunc answer) q.counters
        rw [if_neg hfull, hrun]
        exact .some ⟨hb, hmax, hactive, rfl⟩
  | stop =>
    rw [step, stop, listStep, ← hactive]
    by_cases ha : q.active = true
    · rw [if_pos ha, if_pos ha]
      exact .some ⟨hholds.clear, q.circBuffer.maxSize_clear, rfl, hcounters⟩
    · rw [if_neg ha, if_neg ha]
      exact .some ⟨hholds, rfl, hactive, hcounters⟩

/-- An operation succeeds and keeps the counters right exactly in the cases of `Counts`. -/
theorem step_counted_iff {capacity : Nat} {t : Msgs} (h : HasMsgs capacity q t)
    (hcap : capacity < 2 ^ 31) (hc : q.Counted) (op : Op) :
    (∃ q' u, q.step op = some (q', u) ∧ q'.Counted) ↔ q.Counts op := by
  have hiff : (∃ q' u, q.step op = some (q', u) ∧ q'.Counted) ↔
      ∃ t', listStep capacity t op = some t' ∧ CountersOf t'.counters t'.msgs.reduceOption := by
    have hstep := step_refines h op
    constructor
    · rintro ⟨q', u, heq, hq'⟩
      rw [heq] at hstep
      obtain ⟨t', ht'⟩ : ∃ t', listStep capacity t op = some t' := by
        cases ht : listStep capacity t op with
        | none => rw [ht] at hstep; cases hstep
        | some t' => exact ⟨t', rfl⟩
      rw [ht'] at hstep
      cases hstep with
      | some h' => exact ⟨t', ht', h'.counters_eq ▸ (counted_iff h'.holds).mp hq'⟩
    · rintro ⟨t', heq, ht'⟩
      rw [heq] at hstep
      obtain ⟨⟨q', u⟩, hq'⟩ : ∃ r, q.step op = some r := by
        cases hr : q.step op with
        | none => rw [hr] at hstep; cases hstep
        | some r => exact ⟨r, rfl⟩
      rw [hq'] at hstep
      cases hstep with
      | some h' => exact ⟨q', u, hq', (counted_iff h'.holds).mpr (h'.counters_eq ▸ ht')⟩
  rw [hiff]
  have hcount := (counted_iff h.holds).mp hc
  have hqueued := queued_eq h.holds
  have hle := h.holds.le
  rw [h.maxSize_eq] at hle
  have hred := List.reduceOption_length_le t.msgs
  rw [h.counters_eq] at hcount
  have hfull : q.circBuffer.full = true ↔ t.msgs.length = capacity := by
    rw [h.holds.full_iff, h.maxSize_eq]
  cases op with
  | tryWrite msg =>
    rw [listStep, Counts, h.active_eq, hqueued]
    by_cases hw : t.active = true ∧ t.msgs.length < capacity
    · have hnot : q.circBuffer.full = false :=
        Bool.eq_false_iff.mpr fun hf => by have := hfull.mp hf; omega
      rw [if_pos hw]
      simp only [Option.some.injEq, exists_eq_left', hw.1, hnot, true_implies]
      rw [List.reduceOption_append]
      exact countersOf_pushCallback hcount (by omega)
    · rw [if_neg hw]
      refine iff_of_true ⟨t, rfl, hcount⟩ fun ha hnot => absurd ⟨ha, ?_⟩ hw
      have hne : t.msgs.length ≠ capacity := fun heq => by
        rw [hfull.mpr heq] at hnot
        cases hnot
      omega
  | tryRead =>
    refine iff_of_true ?_ trivial
    rw [listStep]
    split
    · split
      · exact ⟨t, rfl, hcount⟩
      · rename_i obj msgs hmsgs
        rw [hmsgs] at hcount hle
        rw [List.length_cons] at hle
        refine ⟨_, rfl, ?_⟩
        cases obj with
        | none => exact hcount
        | some sdu =>
          rw [List.reduceOption_cons_of_some] at hcount
          have := List.reduceOption_length_le msgs
          exact countersOf_popCallback [] hcount (show msgs.reduceOption.length + 1 < _ by omega)
    · exact ⟨t, rfl, hcount⟩
  | applyFirst hit popFunc answer =>
    rw [listStep, Counts, h.maxSize_eq, hfull, hqueued]
    by_cases hzero : capacity = 0
    · rw [if_pos hzero]
      simp [hzero]
    · rw [if_neg hzero]
      by_cases heq : t.msgs.length = capacity
      · rw [if_pos heq]
        exact iff_of_true ⟨t, rfl, hcount⟩ ⟨by omega, .inl heq⟩
      · rw [if_neg heq]
        simp only [Option.some.injEq, exists_eq_left', heq, false_or]
        rw [and_iff_right (show 0 < capacity by omega)]
        cases popFunc with
        | true => exact iff_of_true (countersOf_nulling [] hcount (by simp; omega)) (.inl rfl)
        | false =>
          rw [nulling_counters]
          simp only [Bool.false_eq_true, false_or]
          constructor
          · intro hafter
            by_contra hfound
            push Not at hfound
            obtain ⟨sdu, hmem, hhit⟩ := hfound
            have hlt := (nulling_length hit false answer t.counters).2
              ⟨sdu, hmem, by simpa using hhit⟩
            have hn := hcount.1.symm.trans hafter.1
            omega
          · intro hnone
            rw [nulling_eq hnone]
            exact hcount
  | stop =>
    rw [listStep, Counts, h.active_eq, hqueued]
    by_cases ha : t.active = true
    · rw [if_pos ha]
      simp only [Option.some.injEq, exists_eq_left', ha, true_implies]
      constructor
      · intro hafter
        exact List.length_eq_zero_iff.mp (hcount.1.symm.trans hafter.1)
      · intro hnil
        rw [hnil] at hcount
        exact hcount
    · rw [if_neg ha]
      exact iff_of_true ⟨t, rfl, hcount⟩ fun h => absurd h ha

theorem hasMsgs_init (capacity : Nat) :
    HasMsgs capacity (init capacity) { active := true, msgs := [], counters := {} } where
  holds := CircularBuffer.holds_empty capacity
  maxSize_eq := List.length_replicate
  active_eq := rfl
  counters_eq := rfl

/-- A circular buffer acts like the list of its objects, and the iteration and `apply_first` see
that list exactly while it is shorter than the storage. The counters of an SDU queue are those of
its SDUs in every state of a run exactly when every operation is one that keeps them. -/
theorem sduQueue_refines_iff {α : Type} (maxSize capacity : Nat) (hcap : capacity < 2 ^ 31) :
    (∀ ops : List (CircularBuffer.Op α),
      Option.Rel (fun r t => (r.1.Iterates t.1 ↔ t.1.length < maxSize) ∧ r.2 = t.2)
        (run CircularBuffer.step (.empty maxSize) ops)
        (run (CircularBuffer.listStep maxSize) [] ops)) ∧
      ∀ ops : List Op,
        ((∃ q us, run step (init capacity) ops = some (q, us)) ∧
            AlongRun step Counted (init capacity) ops ↔
          StepsWithin step Counts (init capacity) ops) := by
  constructor
  · intro ops
    have hrun := CircularBuffer.run_refines maxSize ops
    revert hrun
    generalize run CircularBuffer.step (.empty maxSize) ops = r
    generalize run (CircularBuffer.listStep maxSize) [] ops = t
    intro hrun
    cases hrun with
    | none => exact .none
    | some h => exact .some ⟨h.1.2 ▸ h.1.1.iterates_iff, h.2⟩
  · intro ops
    refine total_alongRun_iff_within (fun q => ∃ t, HasMsgs capacity q t) Counted ?_ ?_ ops
      (init capacity) ⟨_, hasMsgs_init capacity⟩ ⟨rfl, rfl⟩
    · rintro q op q' u ⟨t, ht⟩ hstep
      have hrel := step_refines ht op
      rw [hstep] at hrel
      cases hl : listStep capacity t op with
      | none => rw [hl] at hrel; cases hrel
      | some t' =>
        rw [hl] at hrel
        cases hrel with
        | some h => exact ⟨t', h⟩
    · rintro q op ⟨t, ht⟩ hc
      exact step_counted_iff ht hcap hc op

/-- Three storages, with two SDUs that are read, found and nulled on the way. -/
theorem sduQueue_refines_iff_three :
    (∀ ops : List (CircularBuffer.Op Nat),
      Option.Rel (fun r t => (r.1.Iterates t.1 ↔ t.1.length < 3) ∧ r.2 = t.2)
        (run CircularBuffer.step (.empty 3) ops) (run (CircularBuffer.listStep 3) [] ops)) ∧
      AlongRun step Counted (init 3)
        [.tryWrite ⟨40, 1⟩, .tryWrite ⟨60, 2⟩, .applyFirst (fun sdu => sdu.pdcpSn == 2) true false,
          .tryRead, .stop] := by
  have h := sduQueue_refines_iff (α := Nat) 3 3 (by decide)
  refine ⟨h.1, ((h.2 _).mpr ?_).2⟩
  refine ⟨fun _ _ => by decide, ?_⟩
  rintro _ _ ⟨⟩
  refine ⟨fun _ _ => by decide, ?_⟩
  rintro _ _ ⟨⟩
  refine ⟨⟨by decide, .inr (.inl rfl)⟩, ?_⟩
  rintro _ _ ⟨⟩
  refine ⟨trivial, ?_⟩
  rintro _ _ ⟨⟩
  exact ⟨fun _ => by decide, fun _ _ _ => trivial⟩

/-- A buffer with one storage is full after one push, and its iteration visits nothing; a stop
clears the queue and leaves the counters. -/
theorem not_sduQueue_refines :
    (¬ ∀ (maxSize : Nat) (ops : List (CircularBuffer.Op Nat)) (b : CircularBuffer Nat)
        (xs : List Nat) (outs outs' : List (Option Nat)),
      run CircularBuffer.step (.empty maxSize) ops = some (b, outs) →
        run (CircularBuffer.listStep maxSize) [] ops = some (xs, outs') → b.Iterates xs) ∧
      ¬ ∀ (capacity : Nat) (ops : List Op) (q : ByteBufferQueue) (us : List Unit),
        run step (init capacity) ops = some (q, us) → q.Counted := by
  constructor
  · intro h
    have hvisited := (h 1 [.push 7] _ _ _ _ rfl rfl).1
    exact absurd hvisited (by decide)
  · intro h
    have hcounted := (h 4 [.tryWrite ⟨40, 1⟩, .stop] _ _ rfl).1
    exact absurd hcounted (by decide)

end ByteBufferQueue

end Odss.Common
