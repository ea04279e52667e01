import Mathlib.Tactic
import Mathlib.Data.UInt

/-!
# `Odss.Rlc.Common`: buffers, queues and timers of the RLC entities

The parts that the RLC entities share (`lib/include/srsran/common/byte_buffer.h`,
`byte_buffer_queue.h`, `timers.h`, `lib/include/srsran/rlc/rlc_common.h`). Buffers are lists
of bytes. Log output, metrics and time stamps are left out, and buffer allocation never
fails.
-/

set_option linter.all false

namespace Odss.Rlc

/-! ### Numbers -/

/-- The difference of two 32 bit numbers. -/
def subU32 (a b : Nat) : Nat := if b ≤ a then a - b else a + 2 ^ 32 - b

/-- A flag as a bit. -/
def bit (b : Bool) : Nat := if b then 1 else 0

theorem bit_le_one (b : Bool) : bit b ≤ 1 := by
  cases b <;> decide

theorem bit_beq_one (b : Bool) : (bit b == 1) = b := by
  cases b <;> rfl

/-! ### Buffers -/

/-- The tailroom of an empty `byte_buffer_t`: `SRSRAN_MAX_BUFFER_SIZE_BYTES` less
`SRSRAN_BUFFER_HEADER_OFFSET`. -/
abbrev bufferTailroom : Nat := 97896 / 8

/-- The bytes of a `byte_buffer_t` between `msg` and `msg + N_bytes`. -/
abbrev Bytes := List UInt8

theorem toNat_ofNat_of_lt {n : Nat} (h : n < 256) : (UInt8.ofNat n).toNat = n := by
  rw [UInt8.toNat_ofNat', Nat.mod_eq_of_lt h]

/-- An SDU in a `byte_buffer_t`, with `md.pdcp_sn` as `pdcpSn`. -/
structure Sdu where
  pdcpSn : Nat
  bytes : Bytes
deriving DecidableEq, Repr

/-- `byte_buffer_queue`. An entry is `none` after `discard_sdu` has emptied it. The two
counters are those that `get_n_sdus` and `size_bytes` return. -/
structure ByteBufferQueue where
  capacity : Nat
  queue : List (Option Sdu)
  unreadBytes : Nat
  nSdus : Nat
deriving DecidableEq, Repr

namespace ByteBufferQueue

/-- An empty queue. -/
def init (capacity : Nat) : ByteBufferQueue := ⟨capacity, [], 0, 0⟩

/-- `is_full` -/
def isFull (q : ByteBufferQueue) : Bool := q.queue.length == q.capacity

/-- `try_write`, with `none` when the queue is full. -/
def tryWrite (q : ByteBufferQueue) (sdu : Sdu) : Option ByteBufferQueue :=
  if q.isFull then none
  else some { q with
    queue := q.queue ++ [some sdu]
    unreadBytes := q.unreadBytes + sdu.bytes.length
    nSdus := q.nSdus + 1 }

/-- `pop_callback` -/
def popCallback (q : ByteBufferQueue) : Option Sdu → ByteBufferQueue
  | none => q
  | some sdu => { q with
      unreadBytes := q.unreadBytes - min sdu.bytes.length q.unreadBytes
      nSdus := q.nSdus - 1 }

/-- `read` of a queue that is not empty. -/
def read (q : ByteBufferQueue) : Option Sdu × ByteBufferQueue :=
  match q.queue with
  | [] => (none, q)
  | entry :: rest => (entry, popCallback { q with queue := rest } entry)

/-- `apply_first` with the function of `discard_sdu`: each entry with the PDCP SN is popped
from the counters and emptied. The iterator of a full queue starts at its own end, so a full
queue is left as it is. -/
def discard (q : ByteBufferQueue) (pdcpSn : Nat) : ByteBufferQueue :=
  if q.isFull then q
  else
    let hit (entry : Option Sdu) : Bool := entry.any fun sdu => sdu.pdcpSn == pdcpSn
    let q' := (q.queue.filter hit).foldl popCallback q
    { q' with queue := q.queue.map fun entry => if hit entry then none else entry }

/-- The loop `do read() while (tx_sdu == nullptr && size() != 0)`: the first SDU that was not
discarded. -/
def readSdu (q : ByteBufferQueue) : Option Sdu × ByteBufferQueue :=
  match q.queue.dropWhile Option.isNone with
  | [] => (none, { q with queue := [] })
  | entry :: rest => (entry, popCallback { q with queue := rest } entry)

end ByteBufferQueue

/-! ### Framing and timers -/

/-- `rlc_fi_field_t`: the two bits of the framing info field. -/
structure Fi where
  notStartAligned : Bool
  notEndAligned : Bool
deriving DecidableEq, Repr

/-- `RLC_FI_FIELD_START_AND_END_ALIGNED` -/
def Fi.startAndEndAligned : Fi := ⟨false, false⟩

/-- `RLC_FI_FIELD_NOT_START_OR_END_ALIGNED` -/
def Fi.notStartOrEndAligned : Fi := ⟨true, true⟩

/-- `rlc_am_start_aligned` -/
def Fi.startAligned (fi : Fi) : Bool := !fi.notStartAligned

/-- `rlc_am_end_aligned` -/
def Fi.endAligned (fi : Fi) : Bool := !fi.notEndAligned

/-- The state of a `unique_timer`. -/
inductive TimerState where
  | stopped
  | running
  | expired
deriving DecidableEq, Repr

/-- `is_running` -/
def TimerState.isRunning (t : TimerState) : Bool := t == .running

/-- `stop`, which keeps the state of a timer that does not run. -/
def TimerState.stop (t : TimerState) : TimerState := if t.isRunning then .stopped else t

end Odss.Rlc
