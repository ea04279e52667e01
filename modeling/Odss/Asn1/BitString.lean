import Odss.Asn1.PerEncoding

/-!
# `Odss.Asn1.BitString`: bit strings, octet strings and lists

The model of `bitstring` with `bitstring_utils`, of `bounded_octstring` and of `bounded_array` with
`unpack_dyn_seq_of` (`lib/include/srsran/asn1/asn1_utils.h`, `lib/src/asn1/asn1_utils.cc`). What a
decoder that fails has already put into an octet is left out: such octets are zero.
-/

set_option linter.all false

namespace Odss.Asn1

open BitRef Per
open Odss.Rlc (Bytes)

/-- `std::numeric_limits<uint32_t>::max()`, the upper bound of a type without one. -/
abbrev unbounded : Nat := 2 ^ 32 - 1

/-! ### Bit strings -/

/-- `bitstring`: the bit `i` is the bit `i % 8` of the octet `i / 8`. -/
structure Bitstring where
  nofBits : Nat
  octets : Bytes
  length_eq : octets.length = ceilFrac nofBits 8
deriving DecidableEq, Repr

namespace Bitstring

/-- `get` -/
def get (s : Bitstring) (idx : Nat) : Bool := (s.octets.getD (idx / 8) 0).toNat.testBit (idx % 8)

/-- `resize`, which resets the content. -/
def resize (nofBits : Nat) : Bitstring :=
  ⟨nofBits, List.replicate (ceilFrac nofBits 8) 0, List.length_replicate⟩

end Bitstring

/-- `bitstring_utils::pack_length_prefix` -/
def packLengthPrefix (len lb ub : Nat) (hasExt aligned : Bool) : Per Unit :=
  if hasExt ∧ ub = unbounded then fail .encodeFail
  else
    let withinBounds : Bool := len ≥ lb ∧ len ≤ ub
    do
      packExtMarker hasExt withinBounds
      if lb = ub ∧ withinBounds then pure ()
      else if ub = unbounded ∨ !withinBounds then
        -- The flag for the aligned variant is not passed on.
        packLength len false
      else
        let lenBits ← ofOption (ceilLog2 (ub - lb))
        pack (len - lb) lenBits
        if aligned then alignBytesZero else pure ()

/-- A call of `align_bytes` whose code is not looked at. -/
def alignIgnored (aligned : Bool) : Per Unit := if aligned then ignore alignBytes else pure ()

/-- The start of the bits of an aligned string. -/
def alignBitfield (lb ub : Nat) (aligned : Bool) : Per Unit :=
  alignIgnored (aligned ∧ (lb ≠ ub ∨ ub > 16))

/-- The octets of a bit string that are written whole, the last one first. -/
def packOctets : Bytes → Per Unit
  | [] => pure ()
  | octet :: octets => do
    pack octet.toNat 8
    packOctets octets

/-- Bytes that are written one after another. The codes of these calls are not looked at. -/
def packBytes : Bytes → Per Unit
  | [] => pure ()
  | byte :: bytes => do
    ignore (pack byte.toNat 8)
    packBytes bytes

/-- `bitstring_utils::pack_bitfield` -/
def packBitfield (buf : Bytes) (nbits lb ub : Nat) (aligned : Bool) : Per Unit :=
  if nbits = 0 then fail .encodeFail
  else do
    alignBitfield lb ub aligned
    let nOcts := ceilFrac nbits 8
    pack (buf.getD (nOcts - 1) 0).toNat ((nbits - 1) % 8 + 1)
    packOctets (buf.take (nOcts - 1)).reverse

/-- `bitstring_utils::unpack_length_prefix` -/
def unpackLengthPrefix (lb ub : Nat) (hasExt aligned : Bool) : Per Nat := do
  let ext ← unpackExtMarker hasExt
  if ub = unbounded ∨ ext then unpackLength aligned
  else if lb = ub then pure lb
  else do
    let len ← unpackLengthBounded .uint32 lb ub aligned
    pure len.toNat

/-- The octets of a bit string that are read whole, the last one first. -/
def unpackOctets : Nat → Per Bytes
  | 0 => pure []
  | n + 1 => do
    let octet ← unpack 8 8
    let octets ← unpackOctets n
    pure (UInt8.ofNat octet :: octets)

/-- `bitstring_utils::unpack_bitfield` -/
def unpackBitfield (n lb ub : Nat) (aligned : Bool) : Per Bytes :=
  if n > asn64K then fail .decodeFail
  else if n = 0 then pure []
  else do
    alignBitfield lb ub aligned
    let last ← unpack 8 ((n - 1) % 8 + 1)
    let octets ← unpackOctets (ceilFrac n 8 - 1)
    pure (octets.reverse ++ [UInt8.ofNat last])

namespace Bitstring

/-- `bitstring::pack` -/
def pack (s : Bitstring) (lb ub : Nat) (hasExt aligned : Bool) : Per Unit := do
  packLengthPrefix s.nofBits lb ub hasExt aligned
  packBitfield s.octets s.nofBits lb ub aligned

/-- The octets that were read, if they are as many as `nbits` has. -/
def ofOctets (nbits : Nat) (octets : Bytes) : Bitstring :=
  if h : octets.length = ceilFrac nbits 8 then ⟨nbits, octets, h⟩ else resize nbits

/-- `bitstring::unpack`, with the string behind the call. -/
def unpack (s : Bitstring) (lb ub : Nat) (hasExt aligned : Bool) (r : BitRef) :
    Option (Except SrsasnCode Unit × Bitstring × BitRef) :=
  match unpackLengthPrefix lb ub hasExt aligned r with
  | none => none
  | some (.error code, r') => some (.error code, s, r')
  | some (.ok nbits, r') =>
    match unpackBitfield nbits lb ub aligned r' with
    | none => none
    | some (.error code, r'') => some (.error code, resize nbits, r'')
    | some (.ok octets, r'') => some (.ok (), ofOctets nbits octets, r'')

end Bitstring

/-! ### Numbers -/

/-- `bitstring_utils::from_number`: the octets of a number of up to 64 bits. -/
def fromNumber (number nbits : Nat) : Bytes :=
  let nofBytes := ceilFrac nbits 8
  let bytes := (List.range nofBytes).map fun i => UInt8.ofNat ((number >>> (i * 8)) % 2 ^ 8)
  let offset := nbits % 8
  if offset > 0 then
    bytes.set (nofBytes - 1)
      (UInt8.ofNat ((bytes.getD (nofBytes - 1) 0).toNat &&& (2 ^ offset - 1)))
  else bytes

/-- A byte that is shifted as an `int`. A shift by 32 or more is undefined. -/
def shiftInt (byte : UInt8) (shift : Nat) : Option Int :=
  if shift ≥ 32 then none else some (Int.bmod (byte.toNat <<< shift) (2 ^ 32))

/-- The loop of `to_number`. -/
def toNumberLoop (bytes : Bytes) : Nat → Option Nat
  | 0 => some 0
  | i + 1 => do
    let val ← toNumberLoop bytes i
    let bits ← shiftInt (bytes.getD i 0) (i * 8)
    pure (toU64 (val + bits))

/-- `bitstring_utils::to_number` -/
def toNumber (bytes : Bytes) (nbits : Nat) : Option Nat :=
  if nbits > 64 then some 0 else toNumberLoop bytes (ceilFrac nbits 8)

/-! ### Octet strings -/

/-- The loop of `bounded_octstring::unpack` -/
def unpackOctstring : Nat → Per Bytes
  | 0 => pure []
  | n + 1 => do
    let octet ← BitRef.unpack 8 8
    let octets ← unpackOctstring n
    pure (UInt8.ofNat octet :: octets)

/-- `bounded_octstring::unpack`, with the octets behind the call. -/
def Octstring.unpack (s : Bytes) (lb ub : Nat) (aligned : Bool) (r : BitRef) :
    Option (Except SrsasnCode Unit × Bytes × BitRef) :=
  match unpackLengthBounded .uint32 lb ub aligned r with
  | none => none
  | some (.error code, r') => some (.error code, s, r')
  | some (.ok len, r') =>
    let read : Per Bytes := do
      alignIgnored aligned
      unpackOctstring len.toNat
    match read r' with
    | none => none
    | some (.error code, r'') => some (.error code, List.replicate len.toNat 0, r'')
    | some (.ok octets, r'') => some (.ok (), octets, r'')

/-! ### Lists -/

/-- `bounded_array` -/
structure BoundedArray (α : Type) (maxN : Nat) where
  data : Vector α maxN
  currentSize : Nat

/-- `bounded_array::resize` -/
def BoundedArray.resize {α : Type} {maxN : Nat} (a : BoundedArray α maxN) (newSize : Nat) :
    BoundedArray α maxN :=
  { a with currentSize := newSize }

/-- The loop of `unpack_dyn_seq_of` from the item `i` on. An item behind the array is undefined. -/
def unpackItems {α : Type} {maxN : Nat} (unpacker : α → Per α) :
    Nat → Nat → BoundedArray α maxN → BitRef →
      Option (Except SrsasnCode Unit × BoundedArray α maxN × BitRef)
  | 0, _, a, r => some (.ok (), a, r)
  | n + 1, i, a, r =>
    if h : i < maxN then
      match unpacker a.data[i] r with
      | none => none
      | some (.error code, r') => some (.error code, a, r')
      | some (.ok item, r') =>
        unpackItems unpacker n (i + 1) { a with data := a.data.set i item } r'
    else none

/-- `unpack_dyn_seq_of` into a `bounded_array`, with the array behind the call. -/
def unpackDynSeqOf {α : Type} {maxN : Nat} (unpacker : α → Per α) (a : BoundedArray α maxN)
    (lb ub : Nat) (aligned : Bool) (r : BitRef) :
    Option (Except SrsasnCode Unit × BoundedArray α maxN × BitRef) :=
  match unpackLengthBounded .uint32 lb ub aligned r with
  | none => none
  | some (.error code, r') => some (.error code, a, r')
  | some (.ok n, r') => unpackItems unpacker n.toNat 0 (a.resize n.toNat) r'

end Odss.Asn1
