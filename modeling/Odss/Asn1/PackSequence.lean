import Odss.Asn1.BitString

/-!
# `Odss.Asn1.PackSequence`: calls of a writer in a row

The model of `bit_ref::pack_bytes` and `bit_ref_impl::unpack_bytes`
(`lib/src/asn1/asn1_utils.cc`), and of a sequence of calls of a writer. The sequence goes on after a
call that fails.
-/

set_option linter.all false

namespace Odss.Asn1

open BitRef Per
open Odss.Rlc (Bytes)

/-- `memcpy` to the buffer. What is behind the end is out of bounds. -/
def copyTo (buf : Bytes) (ptr : Nat) (bytes : Bytes) : Option Bytes :=
  if ptr + bytes.length ≤ buf.length then
    some (buf.take ptr ++ bytes ++ buf.drop (ptr + bytes.length))
  else none

/-- `memcpy` from the buffer. -/
def copyFrom (buf : Bytes) (ptr nBytes : Nat) : Option Bytes :=
  if ptr + nBytes ≤ buf.length then some ((buf.drop ptr).take nBytes) else none

theorem offset_zero_lt : 0 < 8 := by decide

/-- `bit_ref::pack_bytes` -/
def bitRefPackBytes (bytes : Bytes) : Per Unit := fun w =>
  if bytes.length = 0 then some (.ok (), w)
  else if w.ptr + bytes.length ≥ w.buf.length then some (.error .encodeFail, w)
  else if w.offset = 0 then
    (copyTo w.buf w.ptr bytes).map fun buf =>
      (.ok (), ⟨buf, w.ptr + bytes.length, 0, offset_zero_lt⟩)
  else
    -- The codes of these calls are not looked at.
    packBytes bytes w

/-- `bit_ref_impl::unpack_bytes` -/
def bitRefUnpackBytes (nBytes : Nat) : Per Bytes := fun r =>
  if nBytes = 0 then some (.ok [], r)
  else if r.offset = 0 then
    if r.ptr + nBytes > r.buf.length then some (.error .decodeFail, r)
    else
      (copyFrom r.buf r.ptr nBytes).map fun bytes =>
        (.ok bytes, ⟨r.buf, r.ptr + nBytes, 0, offset_zero_lt⟩)
  else if r.ptr + nBytes ≥ r.buf.length then some (.error .decodeFail, r)
  else unpackOctets nBytes r

/-- A call of a writer. -/
inductive PackOp where
  | pack (val : UInt64) (nBits : Fin 65)
  | packBytes (bytes : Bytes)
  | alignBytesZero

/-- The call on a cursor. -/
def PackOp.call : PackOp → Per Unit
  | pack val nBits => BitRef.pack val.toNat nBits
  | packBytes bytes => bitRefPackBytes bytes
  | alignBytesZero => BitRef.alignBytesZero

/-- The calls in their order, with the code of each. -/
def packAll : List PackOp → BitRef → Option (List (Except SrsasnCode Unit) × BitRef)
  | [], w => some ([], w)
  | op :: ops, w => do
    let (code, w) ← op.call w
    let (codes, w) ← packAll ops w
    some (code :: codes, w)

end Odss.Asn1
