import Odss.Rlc.Common

/-!
# `Odss.Asn1.BitRef`: bit cursors of the ASN.1 packers

The model of `bit_ref` and `cbit_ref` (`lib/include/srsran/asn1/asn1_utils.h`,
`lib/src/asn1/asn1_utils.cc`). A cursor has the bytes from `start_ptr` to `max_ptr`, and `ptr` is a
position in them. `Per` is a call on a cursor, and its `do` notation is `HANDLE_CODE`. Log output is
left out.
-/

set_option linter.all false

namespace Odss.Asn1

open Odss.Rlc (Bytes)

/-- `SRSASN_CODE` of a call that fails. -/
inductive SrsasnCode where
  | encodeFail
  | decodeFail
deriving DecidableEq, Repr

/-- `bit_ref_impl`. The offset is the number of bits of the byte at `ptr` that are used. -/
structure BitRef where
  buf : Bytes
  ptr : Nat
  offset : Nat
  offset_lt : offset < 8
deriving DecidableEq, Repr

namespace BitRef

/-- A cursor at the start of a buffer. -/
def start (buf : Bytes) : BitRef := ⟨buf, 0, 0, by decide⟩

/-- `distance` from the start of the buffer. -/
def distance (r : BitRef) : Nat := 8 * r.ptr + r.offset

/-- The buffer of one cursor read from the place of another. -/
def readFrom (written place : BitRef) : BitRef := { place with buf := written.buf }

end BitRef

/-! ### Calls -/

/-- A call on a cursor. The result is `none` where the behaviour is undefined. -/
def Per (α : Type) : Type := BitRef → Option (Except SrsasnCode α × BitRef)

namespace Per

variable {α β : Type}

/-- `HANDLE_CODE` and what follows it. -/
def bind (x : Per α) (f : α → Per β) : Per β := fun r =>
  match x r with
  | none => none
  | some (.error code, r') => some (.error code, r')
  | some (.ok a, r') => f a r'

instance : Monad Per where
  pure a := fun r => some (.ok a, r)
  bind := Per.bind

/-- `return` of an error. -/
def fail (code : SrsasnCode) : Per α := fun r => some (.error code, r)

/-- Undefined behaviour. -/
def undefined : Per α := fun _ => none

/-- A value that may be undefined. -/
def ofOption : Option α → Per α
  | some a => pure a
  | none => undefined

/-- A call whose code is not looked at. -/
def ignore (x : Per Unit) : Per Unit := fun r =>
  match x r with
  | none => none
  | some (_, r') => some (.ok (), r')

/-- A call that succeeds. -/
def Runs (x : Per α) (r : BitRef) (a : α) (r' : BitRef) : Prop := x r = some (.ok a, r')

theorem runs_pure (a : α) (r : BitRef) : (pure a : Per α).Runs r a r := rfl

theorem Runs.bind {x : Per α} {f : α → Per β} {r r₁ r₂ : BitRef} {a : α} {b : β}
    (hx : x.Runs r a r₁) (hf : (f a).Runs r₁ b r₂) : (x >>= f).Runs r b r₂ := by
  show Per.bind x f r = _
  rw [Per.bind, hx]
  exact hf

/-- A call that succeeds has succeeded in both its parts. -/
theorem Runs.of_bind {x : Per α} {f : α → Per β} {r r₂ : BitRef} {b : β}
    (h : (x >>= f).Runs r b r₂) : ∃ a r₁, x.Runs r a r₁ ∧ (f a).Runs r₁ b r₂ := by
  have hbind : Per.bind x f r = some (.ok b, r₂) := h
  unfold Per.bind at hbind
  split at hbind
  · exact nomatch hbind
  · exact nomatch hbind
  · next a r₁ hx => exact ⟨a, r₁, hx, hbind⟩

theorem Runs.unique {x : Per α} {r r₁ r₂ : BitRef} {a b : α} (h₁ : x.Runs r a r₁)
    (h₂ : x.Runs r b r₂) : a = b ∧ r₁ = r₂ := by
  have h := Option.some.inj (h₁.symm.trans h₂)
  exact ⟨Except.ok.inj (congrArg Prod.fst h), congrArg Prod.snd h⟩

theorem Runs.ignore {x : Per Unit} {r r' : BitRef} (h : x.Runs r () r') :
    x.ignore.Runs r () r' := by
  unfold Runs Per.ignore
  rw [h]

theorem not_runs_undefined {r r' : BitRef} {a : α} : ¬ (undefined : Per α).Runs r a r' := nofun

theorem not_runs_fail {code : SrsasnCode} {r r' : BitRef} {a : α} :
    ¬ (fail code : Per α).Runs r a r' := nofun

theorem runs_bind_iff {x : Per α} {f : α → Per β} {r r₁ r₂ : BitRef} {a : α} {b : β}
    (hx : x.Runs r a r₁) : (x >>= f).Runs r b r₂ ↔ (f a).Runs r₁ b r₂ := by
  constructor
  · intro h
    obtain ⟨a', r', hx', hf⟩ := h.of_bind
    obtain ⟨rfl, rfl⟩ := hx.unique hx'
    exact hf
  · exact hx.bind

end Per

/-! ### Bits -/

namespace BitRef

/-- The bits of a byte that are kept: the first `offset` ones. -/
def keepmask (offset : Nat) : Nat := 255 - (2 ^ (8 - offset) - 1)

/-- The loop of `pack`. Each round takes at least one bit, so `fuel` is the number of bits. -/
def packLoop : Nat → BitRef → Nat → Nat → Except SrsasnCode Unit × BitRef
  | 0, w, _, _ => (.ok (), w)
  | fuel + 1, w, val, nBits =>
    if nBits = 0 then (.ok (), w)
    else
      match w.buf[w.ptr]? with
      | none => (.error .encodeFail, w)
      | some byte =>
        let val := val % 2 ^ nBits
        let kept := byte.toNat &&& keepmask w.offset
        if h : nBits < 8 - w.offset then
          let bits := val <<< (8 - w.offset - nBits)
          (.ok (), ⟨w.buf.set w.ptr (UInt8.ofNat (kept + bits)), w.ptr, w.offset + nBits, by omega⟩)
        else
          let bits := val >>> (nBits + w.offset - 8)
          packLoop fuel ⟨w.buf.set w.ptr (UInt8.ofNat (kept + bits)), w.ptr + 1, 0, by decide⟩ val
            (nBits - (8 - w.offset))

/-- `pack`. The value is an `uint64_t`. -/
def pack (val nBits : Nat) : Per Unit := fun w =>
  if nBits ≥ 64 then some (.error .encodeFail, w) else some (packLoop nBits w val nBits)

/-- The loop of `unpack_bits` for a type of `width` bits. The bits of a byte are an `uint32_t`, which
may be shifted by up to 31. -/
def unpackLoop (width : Nat) : Nat → BitRef → Nat → Nat → Option (Except SrsasnCode Nat × BitRef)
  | 0, r, val, _ => some (.ok val, r)
  | fuel + 1, r, val, nBits =>
    if nBits = 0 then some (.ok val, r)
    else
      match r.buf[r.ptr]? with
      | none => some (.error .decodeFail, r)
      | some byte =>
        if h : nBits < 8 - r.offset then
          let mask := 2 ^ (8 - r.offset) - 2 ^ (8 - r.offset - nBits)
          let bits := (byte.toNat &&& mask) >>> (8 - r.offset - nBits)
          some (.ok ((val + bits) % 2 ^ width), ⟨r.buf, r.ptr, r.offset + nBits, by omega⟩)
        else if nBits + r.offset - 8 ≥ 32 then none
        else
          let mask := 2 ^ (8 - r.offset) - 1
          let bits := ((byte.toNat &&& mask) <<< (nBits + r.offset - 8)) % 2 ^ 32
          unpackLoop width fuel ⟨r.buf, r.ptr + 1, 0, by decide⟩ ((val + bits) % 2 ^ width)
            (nBits - (8 - r.offset))

theorem unpackLoop_zero (width : Nat) (r : BitRef) (val n : Nat) :
    unpackLoop width 0 r val n = some (.ok val, r) := by
  rw [unpackLoop]

/-- `unpack` into an integer of `width` bits, as an unsigned number. -/
def unpack (width nBits : Nat) : Per Nat := fun r =>
  if nBits > width then some (.error .decodeFail, r) else unpackLoop width nBits r 0 nBits

/-- `unpack` of one bit into a `bool`. -/
def unpackFlag : Per Bool := do
  let val ← unpack 8 1
  pure (val != 0)

/-- The cursor at the start of the next byte. -/
def nextByte (r : BitRef) : BitRef := ⟨r.buf, r.ptr + 1, 0, by decide⟩

/-- `align_bytes` -/
def alignBytes : Per Unit := fun r =>
  if r.offset = 0 then some (.ok (), r)
  else if r.ptr ≥ r.buf.length then some (.error .decodeFail, r)
  else some (.ok (), r.nextByte)

/-- `align_bytes_zero` -/
def alignBytesZero : Per Unit := fun w =>
  if w.offset = 0 then some (.ok (), w)
  else
    match w.buf[w.ptr]? with
    | none => some (.error .encodeFail, w)
    | some byte =>
      let mask := 256 - 2 ^ (8 - w.offset)
      some (.ok (), ⟨w.buf.set w.ptr (UInt8.ofNat (byte.toNat &&& mask)), w.ptr + 1, 0, by decide⟩)

end BitRef

end Odss.Asn1
