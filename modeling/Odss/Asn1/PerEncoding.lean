import Odss.Asn1.BitRef

/-!
# `Odss.Asn1.PerEncoding`: whole numbers and lengths

The model of the whole numbers, the length determinants and the integers of X.691
(`lib/src/asn1/asn1_utils.cc`). A value of an integer type is an `Int` between `min` and `max`.
The logarithms of floating point numbers are exact ones.
-/

set_option linter.all false

namespace Odss.Asn1

open BitRef Per

/-- `ASN_16K` -/
abbrev asn16K : Nat := 16384

/-- `ASN_64K` -/
abbrev asn64K : Nat := 65536

/-- `ceil_frac` -/
def ceilFrac (n d : Nat) : Nat := (n + (d - 1)) / d

/-! ### Integer types -/

/-- The types that the templates are instantiated for. -/
inductive IntType where
  | int8
  | int16
  | int32
  | int64
  | uint8
  | uint16
  | uint32
  | uint64
deriving DecidableEq, Repr

namespace IntType

/-- `8 * sizeof` -/
def bits : IntType → Nat
  | int8 | uint8 => 8
  | int16 | uint16 => 16
  | int32 | uint32 => 32
  | int64 | uint64 => 64

/-- `std::is_unsigned` -/
def isUnsigned : IntType → Bool
  | int8 | int16 | int32 | int64 => false
  | uint8 | uint16 | uint32 | uint64 => true

/-- `std::numeric_limits::min` -/
def min (t : IntType) : Int := if t.isUnsigned then 0 else -2 ^ (t.bits - 1)

/-- `std::numeric_limits::max` -/
def max (t : IntType) : Int := if t.isUnsigned then 2 ^ t.bits - 1 else 2 ^ (t.bits - 1) - 1

/-- The conversion of a number to the type. -/
def wrap (t : IntType) (v : Int) : Int :=
  if t.isUnsigned then v % 2 ^ t.bits else Int.bmod v (2 ^ t.bits)

/-- The result of an operation on two values of the type, which is `v` when nothing overflows. Small
types are operated on as `int`, and a signed type must not overflow. -/
def arith (t : IntType) (v : Int) : Option Int :=
  match t with
  | int8 | int16 | uint8 | uint16 => some v
  | uint32 | uint64 => some (v % 2 ^ t.bits)
  | int32 | int64 => if t.min ≤ v ∧ v ≤ t.max then some v else none

end IntType

/-- The conversion of a number to `uint64_t`. -/
def toU64 (v : Int) : Nat := (v % 2 ^ 64).toNat

/-! ### Constrained whole numbers -/

/-- `ra`, the number of values. -/
def rangeSize (t : IntType) (lb ub : Int) : Option Nat :=
  (t.arith (ub - lb)).map fun diff => (toU64 diff + 1) % 2 ^ 64

/-- `ceilf(log2f(x))`, which is not an integer for 0. -/
def ceilLog2 (x : Nat) : Option Nat := if x = 0 then none else some (Nat.clog 2 x)

/-- `pack_constrained_whole_number` -/
def packConstrainedWholeNumber (t : IntType) (n lb ub : Int) (aligned : Bool) : Per Unit :=
  if ub < lb ∨ n < lb ∨ n > ub then fail .encodeFail
  else do
    let ra ← ofOption (rangeSize t lb ub)
    if ra = 1 then pure ()
    else
      let nBits ← ofOption (ceilLog2 ra)
      let diff ← ofOption (t.arith (n - lb))
      let toencode := t.wrap diff
      if !aligned then
        -- The code of this call is not looked at.
        ignore (pack (toU64 toencode) nBits)
      else if ra < 256 then
        pack (toU64 toencode) nBits
      else if ra ≤ asn64K then
        let nOctets := ceilFrac nBits 8
        alignBytesZero
        pack 0 (nOctets * 8 - nBits)
        pack (toU64 toencode) nBits
        alignBytesZero
      else
        let nBitsLen ← ofOption (ceilLog2 (ceilFrac nBits 8))
        let nBits := Nat.log 2 (max toencode 1).toNat + 1
        let nOctets := ceilFrac nBits 8
        pack (nOctets - 1) nBitsLen
        alignBytesZero
        pack (toU64 toencode) (nOctets * 8)

/-- `n += lb` for a number that was read into `n`. -/
def addBound (t : IntType) (val : Nat) (lb : Int) : Per Int := do
  let sum ← ofOption (t.arith (t.wrap val + lb))
  pure (t.wrap sum)

/-- `unpack_constrained_whole_number` -/
def unpackConstrainedWholeNumber (t : IntType) (lb ub : Int) (aligned : Bool) : Per Int :=
  if ub < lb then fail .decodeFail
  else do
    let ra ← ofOption (rangeSize t lb ub)
    if ra = 1 then pure lb
    else
      let nBits ← ofOption (ceilLog2 ra)
      if !aligned then
        let val ← unpack t.bits nBits
        let n ← addBound t val lb
        if n > ub then fail .decodeFail else pure n
      else if ra < 256 then
        let val ← unpack t.bits nBits
        addBound t val lb
      else if ra ≤ asn64K then
        let nOctets := ceilFrac nBits 8
        alignBytes
        let val ← unpack t.bits (nOctets * 8)
        alignBytes
        addBound t val lb
      else
        let nBitsLen ← ofOption (ceilLog2 (ceilFrac nBits 8))
        let nOctets ← unpack 32 nBitsLen
        alignBytes
        let val ← unpack t.bits ((nOctets + 1) * 8)
        addBound t val lb

/-! ### Small and unconstrained whole numbers -/

/-- `pack_norm_small_non_neg_whole_number` -/
def packNormSmallNonNegWholeNumber (n : Nat) : Per Unit :=
  if n ≤ 63 then pack n 7
  else do
    pack 1 1
    fail .encodeFail

/-- `unpack_norm_small_non_neg_whole_number` into an `uint32_t` -/
def unpackNormSmallNonNegWholeNumber : Per Nat := do
  let ext ← unpackFlag
  if !ext then unpack 32 6 else fail .decodeFail

/-- `unconstrained_whole_number_length`: `ceilf((log2f(n) + 1) / 8)`. -/
def unconstrainedWholeNumberLength (n : Int) : Option Nat :=
  if n ≤ 0 then none else some (ceilFrac (Nat.clog 2 n.toNat + 1) 8)

/-- `pack_unconstrained_whole_number` -/
def packUnconstrainedWholeNumber (n : Int) (aligned : Bool) : Per Unit := do
  let len ← ofOption (unconstrainedWholeNumberLength n)
  if aligned then alignBytesZero else pure ()
  pack (toU64 n) (len * 8)

/-- `unpack_unconstrained_whole_number` -/
def unpackUnconstrainedWholeNumber (t : IntType) (len : Nat) (aligned : Bool) : Per Int := do
  if aligned then alignBytes else pure ()
  let val ← unpack t.bits (len * 8)
  pure (t.wrap val)

/-! ### Lengths -/

/-- `pack_length` of a length without bounds -/
def packLength (val : Nat) (aligned : Bool) : Per Unit :=
  if !aligned then
    if val < 128 then pack val 8
    else if val < asn16K then do
      pack 0b10 2
      pack val 14
    else fail .encodeFail
  else if val > asn64K then fail .encodeFail
  else do
    alignBytes
    if val < 128 then pack val 8
    else if val < asn16K then do
      pack 0b10 2
      pack val 14
    else do
      let m := val / asn16K
      pack 0b11 2
      pack m 6
      pack (val - m * asn16K) 16

/-- `unpack_length` of a length without bounds -/
def unpackLength (aligned : Bool) : Per Nat :=
  if !aligned then do
    let ext ← unpackFlag
    if !ext then unpack 32 7
    else do
      let ext ← unpackFlag
      if !ext then unpack 32 14 else fail .decodeFail
  else do
    alignBytes
    let val ← unpack 32 8
    if val < 128 then pure val
    else if val - 128 < 64 then do
      let valOctet2 ← unpack 32 8
      pure ((val - 128) * 2 ^ 8 + valOctet2)
    else fail .decodeFail

/-- `unpack_length` with bounds -/
def unpackLengthBounded (t : IntType) (lb ub : Int) (aligned : Bool) : Per Int :=
  if ub ≥ asn64K then do
    let len ← unpackLength aligned
    pure (t.wrap len)
  else unpackConstrainedWholeNumber t lb ub aligned

/-! ### Integers -/

/-- A lower bound that is one. -/
def lowerBounded (t : IntType) (lb : Int) : Bool := lb ≠ t.min ∨ t.isUnsigned

/-- An upper bound that is one. -/
def upperBounded (t : IntType) (ub : Int) : Bool := ub ≠ t.max

/-- The extension marker. Without one, only values between the bounds are written. -/
def packExtMarker (hasExt withinBounds : Bool) : Per Unit :=
  if hasExt then pack (if withinBounds then 0 else 1) 1
  else if !withinBounds then fail .encodeFail
  else pure ()

/-- The extension marker, which is not there without extensions. -/
def unpackExtMarker (hasExt : Bool) : Per Bool := if hasExt then unpackFlag else pure false

/-- `pack_integer` -/
def packInteger (t : IntType) (n lb ub : Int) (hasExt aligned : Bool) : Per Unit := do
  let withinBounds : Bool := n ≥ lb ∧ n ≤ ub
  packExtMarker hasExt withinBounds
  if withinBounds ∧ lowerBounded t lb ∧ upperBounded t ub then
    if lb = ub then pure () else packConstrainedWholeNumber t n lb ub aligned
  else if !withinBounds ∨ (!lowerBounded t lb ∧ !upperBounded t ub) then do
    let len ← ofOption (unconstrainedWholeNumberLength n)
    packLength (toU64 (t.wrap len) % 2 ^ 32) aligned
    packUnconstrainedWholeNumber n aligned
  else
    -- Semi-constrained integers are not written.
    pure ()

/-- `unpack_integer` into a variable that is `n` before. -/
def unpackInteger (t : IntType) (n lb ub : Int) (hasExt aligned : Bool) : Per Int := do
  let ext ← unpackExtMarker hasExt
  let withinBounds := !ext
  if withinBounds ∧ lowerBounded t lb ∧ upperBounded t ub then
    if lb = ub then pure n else unpackConstrainedWholeNumber t lb ub aligned
  else if !withinBounds ∨ (!lowerBounded t lb ∧ !upperBounded t ub) then do
    let len ← unpackLength aligned
    unpackUnconstrainedWholeNumber t len aligned
  else pure n

end Odss.Asn1
