import Odss.Asn1.BitString

/-!
# `Odss.Asn1.ExtGroups`: extension groups

The model of `ext_groups_packer_guard`, `ext_groups_unpacker_guard` and the guards of fields of
variable length (`lib/include/srsran/asn1/asn1_utils.h`, `lib/src/asn1/asn1_utils.cc`), with the code
that the generated encoders and decoders put around them (`lib/src/asn1/rrc_nr.cc`). A guard is the
call that its scope contains. Where that call fails the message is given up, so the destructors that
still move the cursor then are left out.
-/

set_option linter.all false

namespace Odss.Asn1

open BitRef Per
open Odss.Rlc (Bytes)

/-! ### The flags of the groups -/

/-- `ext_array<bool>`, which has 16 elements in the object itself. -/
structure ExtArray where
  elems : List Bool
  capacity : Nat
deriving DecidableEq, Repr

namespace ExtArray

/-- `small_buffer_size` -/
def smallBufferSize : Nat := 16

def empty : ExtArray := ⟨[], smallBufferSize⟩

/-- `resize` to a size that is not smaller, with `false` in the new elements. -/
def resize (a : ExtArray) (newSize : Nat) : Option ExtArray :=
  let elems := a.elems ++ List.replicate (newSize - a.elems.length) false
  if newSize ≤ a.capacity then some ⟨elems, a.capacity⟩
  else if a.capacity = smallBufferSize then some ⟨elems, newSize + 5⟩
  else
    -- The elements are copied from the small buffer, which they have left, and from behind it.
    none

/-- `operator[]` of `ext_groups_packer_guard`, and `|=` on what it returns. -/
def raise (a : ExtArray) (idx : Nat) (flag : Bool) : Option ExtArray := do
  let a ← if idx ≥ a.elems.length then a.resize (idx + 1) else some a
  pure { a with elems := a.elems.set idx (a.elems.getD idx false || flag) }

/-- The flags that an encoder raises, from the index `idx` on. -/
def raiseAll (a : ExtArray) : Nat → List Bool → Option ExtArray
  | _, [] => some a
  | idx, flag :: flags => do
    let a ← a.raise idx flag
    raiseAll a (idx + 1) flags

end ExtArray

/-- The loop of `ext_groups_packer_guard::pack` that finds the last group, as a number of groups. -/
def nofGroups (groups : List Bool) : Nat → Nat
  | 0 => 0
  | i + 1 => if groups.getD i false then i + 1 else nofGroups groups i

/-- The presence flags, one by one. -/
def packFlags : List Bool → Per Unit
  | [] => pure ()
  | flag :: flags => do
    pack (if flag then 1 else 0) 1
    packFlags flags

/-- `ext_groups_packer_guard::pack` -/
def packGroupFlags (groups : List Bool) : Per Unit := do
  let n := nofGroups groups groups.length
  packNormSmallNonNegWholeNumber ((n + 2 ^ 32 - 1) % 2 ^ 32)
  packFlags (groups.take n)

def unpackFlags : Nat → Per (List Bool)
  | 0 => pure []
  | n + 1 => do
    let flag ← unpackFlag
    let flags ← unpackFlags n
    pure (flag :: flags)

/-- `ext_groups_unpacker_guard` with its `unpack`. The flags are those of the groups that were
unpacked or are supported. -/
def unpackGroupFlags (nofSupportedGroups : Nat) : Per (List Bool) := do
  let groups ← ofOption (ExtArray.empty.resize nofSupportedGroups)
  let n ← unpackNormSmallNonNegWholeNumber
  let nofUnpackedGroups := n + 1
  let groups ← ofOption (groups.resize (max nofUnpackedGroups nofSupportedGroups))
  let flags ← unpackFlags nofUnpackedGroups
  pure (flags ++ groups.elems.drop nofUnpackedGroups)

/-! ### Fields of variable length -/

/-- The size of the buffer of `varlength_field_pack_guard`. -/
def fieldBufferSize : Nat := 4096

/-- The cursor in the buffer of the guard. -/
def fieldBuffer : BitRef := start (List.replicate fieldBufferSize 0)

/-- `leftover`, the bits up to the end of the byte. -/
def spareBits (distance : Nat) : Nat := 7 - (distance + 2 ^ 32 - 1) % 2 ^ 32 % 8

/-- The destructor of `varlength_field_pack_guard`, from the cursor in the buffer. -/
def closeField (align : Bool) (b : BitRef) : Per Unit := do
  let b ← ofOption ((ignore (pack 0 (spareBits b.distance)) b).map Prod.snd)
  let nofBytes := b.distance / 8
  ignore (packLength nofBytes align)
  packBytes (b.buf.take nofBytes)

/-- `varlength_field_pack_guard` -/
def varlengthFieldPack (align : Bool) (content : Per Unit) : Per Unit := fun w =>
  match content fieldBuffer with
  | none => none
  | some (.error code, _) => some (.error code, w)
  | some (.ok (), b) => closeField align b w

/-- The length that `varlength_field_unpack_guard` starts with. The code of `unpack_length` is not
looked at: without one of the two, a length of 16K or more is what follows the first bit. -/
def unpackGuardLength (align : Bool) : Per Nat := fun r =>
  match unpackLength align r with
  | none => none
  | some (.ok len, r') => some (.ok len, r')
  | some (.error _, r') =>
    some (.ok (if align then (r'.buf.getD (r'.ptr - 1) 0).toNat - 128 else 0), r')

/-- The destructor of `varlength_field_unpack_guard`, which skips bits into an `uint32_t`. -/
def skipBits (nBits : Nat) : Per Unit :=
  ignore (do
    let _ ← unpack 32 nBits
    pure ())

/-- The place of the cursor, for `distance`. -/
def position : Per Nat := fun r => some (.ok r.distance, r)

/-- `varlength_field_unpack_guard` -/
def varlengthFieldUnpack (align : Bool) (read : Per Unit) : Per Unit := do
  let len ← unpackGuardLength align
  let bref0 ← position
  read
  let bref ← position
  skipBits (((len * 8 : Int) - (bref - bref0)) % 2 ^ 32).toNat

/-! ### Encoders and decoders -/

/-- The groups that are present, as a generated encoder writes them. -/
def packGroups (align : Bool) : List Bool → List (Per Unit) → Per Unit
  | flag :: flags, content :: contents => do
    if flag then varlengthFieldPack align content else pure ()
    packGroups align flags contents
  | _, _ => pure ()

/-- The groups of a generated decoder, and behind the supported ones the destructor of
`ext_groups_unpacker_guard`. -/
def unpackGroups (align : Bool) : List Bool → List (Per Unit) → Per Unit
  | flag :: flags, read :: reads => do
    if flag then varlengthFieldUnpack align read else pure ()
    unpackGroups align flags reads
  | flag :: flags, [] => do
    -- The flag for the aligned variant is not passed on.
    if flag then varlengthFieldUnpack false (pure ()) else pure ()
    unpackGroups align flags []
  | [], _ => pure ()

/-- The extension of a message. -/
def packExtension (align : Bool) (present : List Bool) (contents : List (Per Unit)) : Per Unit := do
  let groups ← ofOption (ExtArray.empty.raiseAll 0 present)
  packGroupFlags groups.elems
  packGroups align groups.elems contents

/-- The extension in a decoder with `reads` for the groups that it supports. -/
def unpackExtension (align : Bool) (reads : List (Per Unit)) : Per Unit := do
  let flags ← unpackGroupFlags reads.length
  unpackGroups align flags reads

end Odss.Asn1
