import Odss.Lib.BitField

/-!
# `Odss.Phy.BitCopy`: copying bits between byte arrays

The model of `srsran_bit_copy` and `bitarray_copy` (`lib/src/phy/utils/bit.c`). The result is `none`
where a byte outside its array is read or written. Bits are counted with the most significant one
of each byte first.

* `copyFirst_spec` and `copyRest_spec`: what the first partial byte, and the bytes behind it, are
  afterwards.
* `copyRest_isSome_iff`: which bytes are read and written.
* `bitCopy_exact_iff`: when the copy is exact.
-/

set_option linter.all false

namespace Odss.Phy

open Odss.Lib

/-! ### The code -/

/-- `reverse_mask`, also `mask_dst`: the first `n` bits -/
def reverseMask (n : Nat) : UInt8 :=
  [0x00, 0x80, 0xc0, 0xe0, 0xf0, 0xf8, 0xfc, 0xfe, 0xff].getD n 0

/-- `reverse_mask_xor`: all but the first `n` bits -/
def reverseMaskXor (n : Nat) : UInt8 :=
  [0xff, 0x7f, 0x3f, 0x1f, 0x0f, 0x07, 0x03, 0x01, 0x00].getD n 0

/-- Writing one byte. -/
def writeByte (dst : List UInt8) (p : Nat) (b : UInt8) : Option (List UInt8) :=
  if p < dst.length then some (dst.set p b) else none

/-- The loops that write whole bytes, and `memcpy`. -/
def copyLoop (get : Nat → Option UInt8) (p : Nat) (dst : List UInt8) : Nat → Option (List UInt8)
  | 0 => some dst
  | n + 1 => do
    let dst ← copyLoop get p dst n
    writeByte dst (p + n) (← get n)

/-- The bits of two bytes of the source that make one byte of the destination. -/
def shiftedByte (src : List UInt8) (ls s : Nat) : Option UInt8 := do
  let x ← src[s]?
  let y ← src[s + 1]?
  return x <<< UInt8.ofNat ls ||| y >>> UInt8.ofNat (8 - ls)

/-- `PREPARE_FIRST_COPY` for the byte `*dst`, with `src_len` and `c` -/
def prepareFirstCopy (old : UInt8) (d srcLen : Nat) (c : UInt8) : UInt8 × Nat × UInt8 :=
  if 8 - d ≤ srcLen then (old &&& reverseMask d, srcLen - (8 - d), c)
  else
    (old &&& (reverseMask d ||| reverseMaskXor (d + srcLen)), 0, c &&& reverseMask (d + srcLen))

/-- The first byte of the destination, with the bits that are left. -/
def copyFirst (dst : List UInt8) (p d srcLen : Nat) (c : UInt8) : Option (List UInt8 × Nat) := do
  let old ← dst[p]?
  let (old, srcLen, c) := prepareFirstCopy old d srcLen c
  return (← writeByte dst p (old ||| c), srcLen)

/-- The whole bytes behind the first one, and the last bits. -/
def copyRest (get : Nat → Option UInt8) (p srcLen : Nat) (dst : List UInt8) :
    Option (List UInt8) := do
  let dst ← copyLoop get p dst (srcLen / 8)
  if srcLen % 8 = 0 then return dst
  else
    let c ← get (srcLen / 8)
    let old ← dst[p + srcLen / 8]?
    writeByte dst (p + srcLen / 8)
      (old &&& reverseMaskXor (srcLen % 8) ||| c &&& reverseMask (srcLen % 8))

/-- `bitarray_copy` from the bit `so` of the byte `s` to the bit `d` of the byte `p` -/
def bitarrayCopyAt (src : List UInt8) (s so srcLen : Nat) (dst : List UInt8) (p d : Nat) :
    Option (List UInt8) :=
  if so = d then
    if so = 0 then copyRest (fun i => src[s + i]?) p srcLen dst
    else do
      let c := reverseMaskXor d &&& (← src[s]?)
      let (dst, srcLen) ← copyFirst dst p d srcLen c
      copyRest (fun i => src[s + 1 + i]?) (p + 1) srcLen dst
  else if d < so then do
    let c := (← shiftedByte src (so - d) s) &&& reverseMaskXor d
    let (dst, srcLen) ← copyFirst dst p d srcLen c
    copyRest (fun i => shiftedByte src (so - d) (s + 1 + i)) (p + 1) srcLen dst
  else do
    let c := (← src[s]?) >>> UInt8.ofNat (d - so) &&& reverseMaskXor d
    let (dst, srcLen) ← copyFirst dst p d srcLen c
    copyRest (fun i => shiftedByte src (8 - (d - so)) (s + i)) (p + 1) srcLen dst

/-- `bitarray_copy`. Its arguments are `int`: an offset or a length from `2 ^ 31` on is negative,
and takes a pointer or the index of a mask out of its array. -/
def bitarrayCopy (src : List UInt8) (srcOffset srcLen : Nat) (dst : List UInt8) (dstOffset : Nat) :
    Option (List UInt8) :=
  if srcLen = 0 then some dst
  else if srcLen < 2 ^ 31 ∧ srcOffset < 2 ^ 31 ∧ dstOffset < 2 ^ 31 then
    bitarrayCopyAt src (srcOffset / 8) (srcOffset % 8) srcLen dst (dstOffset / 8) (dstOffset % 8)
  else none

/-- `srsran_bit_copy` -/
def srsranBitCopy (dst : List UInt8) (dstOffset : Nat) (src : List UInt8)
    (srcOffset nofBits : Nat) : Option (List UInt8) :=
  if dstOffset % 8 = 0 ∧ srcOffset % 8 = 0 then do
    let dst ← copyLoop (fun i => src[srcOffset / 8 + i]?) (dstOffset / 8) dst (nofBits / 8)
    if nofBits % 8 = 0 then return dst
    else
      let c ← src[srcOffset / 8 + nofBits / 8]?
      writeByte dst (dstOffset / 8 + nofBits / 8) (c &&& reverseMask (nofBits % 8))
  else bitarrayCopy src srcOffset nofBits dst dstOffset

/-! ### Bits of bytes -/

/-- A bit of a byte, the most significant one first. -/
def byteBit (b : UInt8) (k : Nat) : Bool := b.toNat.testBit (7 - k)

theorem bitAt_eq {bytes : List UInt8} {p : Nat} {b : UInt8} (h : bytes[p]? = some b) {k : Nat}
    (hk : k < 8) : bitAt bytes (8 * p + k) = byteBit b k := by
  rw [bitAt, byteBit, show (8 * p + k) / 8 = p by omega, show (8 * p + k) % 8 = k by omega,
    List.getD_eq_getElem?_getD, h, Option.getD_some]

theorem byteBit_or (a b : UInt8) (k : Nat) :
    byteBit (a ||| b) k = (byteBit a k || byteBit b k) := by
  rw [byteBit, UInt8.toNat_or, Nat.testBit_or, byteBit, byteBit]

theorem byteBit_and (a b : UInt8) (k : Nat) :
    byteBit (a &&& b) k = (byteBit a k && byteBit b k) := by
  rw [byteBit, UInt8.toNat_and, Nat.testBit_and, byteBit, byteBit]

theorem byteBit_reverseMask {n k : Nat} (hn : n ≤ 8) (hk : k < 8) :
    byteBit (reverseMask n) k = decide (k < n) := by
  have h : ∀ n < 9, ∀ k < 8, byteBit (reverseMask n) k = decide (k < n) := by decide
  exact h n (by omega) k hk

theorem byteBit_reverseMaskXor {n k : Nat} (hn : n ≤ 8) (hk : k < 8) :
    byteBit (reverseMaskXor n) k = decide (n ≤ k) := by
  have h : ∀ n < 9, ∀ k < 8, byteBit (reverseMaskXor n) k = decide (n ≤ k) := by decide
  exact h n (by omega) k hk

theorem byteBit_shiftLeft {ls k : Nat} (b : UInt8) (hls : ls < 8) (hk : k < 8) :
    byteBit (b <<< UInt8.ofNat ls) k = (decide (k + ls < 8) && byteBit b (k + ls)) := by
  have hofNat : (UInt8.ofNat ls).toNat % 8 = ls := by
    rw [UInt8.toNat_ofNat']
    omega
  rw [byteBit, UInt8.toNat_shiftLeft, hofNat, Nat.testBit_mod_two_pow, Nat.testBit_shiftLeft,
    byteBit]
  by_cases h : k + ls < 8
  · simp [h, show ls ≤ 7 - k by omega, show 7 - k < 8 by omega,
      show 7 - k - ls = 7 - (k + ls) by omega]
  · simp [h, show ¬ ls ≤ 7 - k by omega]

theorem byteBit_shiftRight {rs k : Nat} (b : UInt8) (hrs : rs < 8) (hk : k < 8) :
    byteBit (b >>> UInt8.ofNat rs) k = (decide (rs ≤ k) && byteBit b (k - rs)) := by
  have hofNat : (UInt8.ofNat rs).toNat % 8 = rs := by
    rw [UInt8.toNat_ofNat']
    omega
  rw [byteBit, UInt8.toNat_shiftRight, hofNat, Nat.testBit_shiftRight, byteBit]
  by_cases h : rs ≤ k
  · simp [h, show rs + (7 - k) = 7 - (k - rs) by omega]
  · have hlarge : b.toNat.testBit (rs + (7 - k)) = false :=
      Nat.testBit_lt_two_pow (lt_of_lt_of_le b.toNat_lt (Nat.pow_le_pow_right (by decide)
        (by omega : 8 ≤ rs + (7 - k))))
    simp [h, hlarge]

/-! ### Copied bits -/

/-- `r` is `dst` with `n` bits from `lo` on that are the bits of `src` from `base` on. -/
structure Copied (src : List UInt8) (base : Nat) (dst : List UInt8) (lo n : Nat)
    (r : List UInt8) : Prop where
  length_eq : r.length = dst.length
  bits : ∀ k, bitAt r k = if lo ≤ k ∧ k < lo + n then bitAt src (base + (k - lo)) else bitAt dst k

variable {src dst r r' : List UInt8} {base lo n m p d : Nat} {get : Nat → Option UInt8}

theorem Copied.refl (src : List UInt8) (base : Nat) (dst : List UInt8) (lo : Nat) :
    Copied src base dst lo 0 dst := ⟨rfl, fun k => by rw [if_neg (by omega)]⟩

theorem Copied.trans (h : Copied src base dst lo n r)
    (h' : Copied src (base + n) r (lo + n) m r') : Copied src base dst lo (n + m) r' := by
  refine ⟨h'.length_eq.trans h.length_eq, fun k => ?_⟩
  rw [h'.bits, h.bits]
  by_cases hlate : lo + n ≤ k ∧ k < lo + n + m
  · rw [if_pos hlate, if_pos (by omega), show base + n + (k - (lo + n)) = base + (k - lo) by omega]
  · rw [if_neg hlate]
    by_cases hearly : lo ≤ k ∧ k < lo + n
    · rw [if_pos hearly, if_pos (by omega)]
    · rw [if_neg hearly, if_neg (by omega)]

/-- One byte is written: its bits in the range are those of the source, the others stay. -/
theorem copied_writeByte (src : List UInt8) (base : Nat) {b old : UInt8}
    (hold : dst[p]? = some old) (hd : d + n ≤ 8)
    (hin : ∀ k, d ≤ k → k < d + n → byteBit b k = bitAt src (base + (k - d)))
    (hout : ∀ k < 8, ¬ (d ≤ k ∧ k < d + n) → byteBit b k = byteBit old k) :
    ∃ r, writeByte dst p b = some r ∧ Copied src base dst (8 * p + d) n r := by
  obtain ⟨hp, -⟩ := List.getElem?_eq_some_iff.mp hold
  refine ⟨dst.set p b, if_pos hp, List.length_set, fun k => ?_⟩
  by_cases hk : k / 8 = p
  · obtain ⟨j, hj, rfl⟩ : ∃ j, j < 8 ∧ k = 8 * p + j := ⟨k % 8, by omega, by omega⟩
    rw [bitAt_eq (List.getElem?_set_self hp) hj, bitAt_eq hold hj]
    by_cases hrange : d ≤ j ∧ j < d + n
    · rw [if_pos (by omega), hin j hrange.1 hrange.2,
        show 8 * p + j - (8 * p + d) = j - d by omega]
    · rw [if_neg (by omega), hout j hj hrange]
  · rw [bitAt_set_ne dst b hk, if_neg (by omega)]

theorem getElem?_of_lt (h : p < dst.length) : ∃ old, dst[p]? = some old :=
  ⟨dst[p], List.getElem?_eq_getElem h⟩

/-- The bytes that `get` gives are the source bits from `base` on. -/
def Gives (get : Nat → Option UInt8) (src : List UInt8) (base : Nat) : Prop :=
  ∀ i b, get i = some b → ∀ k < 8, byteBit b k = bitAt src (base + 8 * i + k)

theorem copyLoop_spec (hget : Gives get src base) :
    (∀ i < n, (get i).isSome ∧ p + i < dst.length) →
      ∃ r, copyLoop get p dst n = some r ∧ Copied src base dst (8 * p) (8 * n) r := by
  induction n with
  | zero => exact fun _ => ⟨dst, rfl, .refl src base dst (8 * p)⟩
  | succ n ih =>
    intro h
    obtain ⟨r, hr, hcopied⟩ := ih fun i hi => h i (Nat.lt_succ_of_lt hi)
    obtain ⟨hsome, hlt⟩ := h n (Nat.lt_succ_self n)
    obtain ⟨b, hb⟩ := Option.isSome_iff_exists.mp hsome
    obtain ⟨old, hold⟩ := getElem?_of_lt (show p + n < r.length from hcopied.length_eq ▸ hlt)
    obtain ⟨r', hr', hlast⟩ := copied_writeByte src (base + 8 * n) (d := 0) (n := 8)
      hold (by decide) (fun k _ hk => by rw [hget n b hb k hk, Nat.sub_zero])
      (fun k hk hout => absurd ⟨Nat.zero_le k, hk⟩ hout)
    refine ⟨r', by simp only [copyLoop, hr, hb, Option.bind_eq_bind, Option.bind_some, hr'], ?_⟩
    exact hcopied.trans (by rwa [Nat.mul_add, Nat.add_zero] at hlast)

theorem copyLoop_isSome (h : (copyLoop get p dst n).isSome) :
    ∀ i < n, (get i).isSome := by
  induction n with
  | zero => exact fun i hi => absurd hi (Nat.not_lt_zero i)
  | succ n ih =>
    intro i hi
    cases hloop : copyLoop get p dst n with
    | none => simp [copyLoop, hloop] at h
    | some r =>
      rcases Nat.lt_succ_iff_lt_or_eq.mp hi with hlt | rfl
      · exact ih (by simp [hloop]) i hlt
      · cases hget : get i with
        | none => simp [copyLoop, hloop, hget] at h
        | some b => rfl

/-- The whole bytes and the last bits. -/
theorem copyRest_spec (hget : Gives get src base)
    (h : ∀ i, 8 * i < n → (get i).isSome ∧ p + i < dst.length) :
    ∃ r, copyRest get p n dst = some r ∧ Copied src base dst (8 * p) n r := by
  obtain ⟨r, hr, hcopied⟩ :=
    copyLoop_spec (n := n / 8) hget fun i hi => h i (by omega)
  by_cases hwhole : n % 8 = 0
  · refine ⟨r, by simp only [copyRest, hr, Option.bind_eq_bind, Option.bind_some, if_pos hwhole,
      Option.pure_def], ?_⟩
    rwa [show 8 * (n / 8) = n by omega] at hcopied
  · obtain ⟨hsome, hlt⟩ := h (n / 8) (by omega)
    obtain ⟨c, hc⟩ := Option.isSome_iff_exists.mp hsome
    obtain ⟨old, hold⟩ :=
      getElem?_of_lt (show p + n / 8 < r.length from hcopied.length_eq ▸ hlt)
    have hm : n % 8 ≤ 8 := by omega
    obtain ⟨r', hr', hlast⟩ := copied_writeByte src (base + 8 * (n / 8)) (d := 0)
      (n := n % 8) (b := old &&& reverseMaskXor (n % 8) ||| c &&& reverseMask (n % 8)) hold
      (by omega) (fun k _ hk => by
        rw [byteBit_or, byteBit_and, byteBit_and, byteBit_reverseMaskXor hm (by omega),
          byteBit_reverseMask hm (by omega), hget _ c hc k (by omega), Nat.sub_zero]
        simp [show ¬ n % 8 ≤ k by omega, show k < n % 8 by omega])
      (fun k hk hout => by
        rw [byteBit_or, byteBit_and, byteBit_and, byteBit_reverseMaskXor hm hk,
          byteBit_reverseMask hm hk]
        simp [show n % 8 ≤ k by omega, show ¬ k < n % 8 by omega])
    refine ⟨r', by simp only [copyRest, hr, Option.bind_eq_bind, Option.bind_some,
      if_neg hwhole, hc, hold, hr'], ?_⟩
    have htotal := hcopied.trans (by rwa [Nat.mul_add, Nat.add_zero] at hlast)
    rwa [show 8 * (n / 8) + n % 8 = n by omega] at htotal

/-- Every byte of the source bits is read. -/
theorem copyRest_isSome (h : (copyRest get p n dst).isSome) {i : Nat} (hi : 8 * i < n) :
    (get i).isSome := by
  cases hloop : copyLoop get p dst (n / 8) with
  | none => simp [copyRest, hloop] at h
  | some r =>
    rcases Nat.lt_or_ge i (n / 8) with hlt | hge
    · exact copyLoop_isSome (by rw [hloop]; rfl) i hlt
    · obtain rfl : i = n / 8 := by omega
      cases hget : get (n / 8) with
      | none => simp [copyRest, hloop, hget, show n % 8 ≠ 0 by omega] at h
      | some b => rfl

/-- The first bits. -/
theorem copyFirst_spec (src : List UInt8) (base : Nat) {c : UInt8} (hd : d < 8)
    (hp : p < dst.length)
    (hin : ∀ k < 8, d ≤ k → byteBit c k = bitAt src (base + (k - d)))
    (hout : ∀ k < d, byteBit c k = false) :
    ∃ r, copyFirst dst p d n c = some (r, n - (8 - d)) ∧
      Copied src base dst (8 * p + d) (min n (8 - d)) r := by
  obtain ⟨old, hold⟩ := getElem?_of_lt hp
  by_cases hwhole : 8 - d ≤ n
  · obtain ⟨r, hr, hcopied⟩ := copied_writeByte src base (d := d) (n := 8 - d)
      (b := old &&& reverseMask d ||| c) hold (by omega)
      (fun k hk hk' => by
        rw [byteBit_or, byteBit_and, byteBit_reverseMask (by omega) (by omega),
          hin k (by omega) hk]
        simp [show ¬ k < d by omega])
      (fun k hk hk' => by
        rw [byteBit_or, byteBit_and, byteBit_reverseMask (by omega) hk, hout k (by omega)]
        simp [show k < d by omega])
    refine ⟨r, ?_, by rwa [Nat.min_eq_right hwhole]⟩
    simp only [copyFirst, hold, prepareFirstCopy, if_pos hwhole, hr, Option.bind_eq_bind,
      Option.bind_some, Option.pure_def]
  · obtain ⟨r, hr, hcopied⟩ := copied_writeByte src base (d := d) (n := n)
      (b := old &&& (reverseMask d ||| reverseMaskXor (d + n)) ||| c &&& reverseMask (d + n)) hold
      (by omega)
      (fun k hk hk' => by
        rw [byteBit_or, byteBit_and, byteBit_and, byteBit_or,
          byteBit_reverseMask (by omega) (by omega), byteBit_reverseMaskXor (by omega) (by omega),
          byteBit_reverseMask (by omega) (by omega),
          hin k (by omega) hk]
        simp [show ¬ k < d by omega, show ¬ d + n ≤ k by omega, show k < d + n by omega])
      (fun k hk hk' => by
        rw [byteBit_or, byteBit_and, byteBit_and, byteBit_or, byteBit_reverseMask (by omega) hk,
          byteBit_reverseMaskXor (by omega) hk, byteBit_reverseMask (by omega) hk]
        rcases Nat.lt_or_ge k d with hlt | hge
        · rw [hout k hlt]
          simp [hlt]
        · simp [show d + n ≤ k by omega, show ¬ k < d + n by omega])
    refine ⟨r, ?_, by rwa [Nat.min_eq_left (by omega)]⟩
    simp only [copyFirst, hold, prepareFirstCopy, if_neg hwhole, hr, Option.bind_eq_bind,
      Option.bind_some, Option.pure_def, show n - (8 - d) = 0 by omega]

/-! ### The paths -/

theorem gives_bytes (src : List UInt8) (s : Nat) : Gives (fun i => src[s + i]?) src (8 * s) := by
  intro i b hb k hk
  rw [← Nat.mul_add, bitAt_eq hb hk]

theorem shiftedByte_isSome_iff {ls s : Nat} :
    (shiftedByte src ls s).isSome ↔ s + 1 < src.length := by
  rcases Nat.lt_or_ge (s + 1) src.length with hlt | hge
  · simp [shiftedByte, hlt, show s < src.length by omega]
  · simp [shiftedByte, Nat.not_lt.mpr hge]

/-- A shifted byte holds the source bits from inside the first byte on. -/
theorem byteBit_shiftedByte {ls s : Nat} {b : UInt8} (hpos : 0 < ls) (hls : ls < 8)
    (h : shiftedByte src ls s = some b) {k : Nat} (hk : k < 8) :
    byteBit b k = bitAt src (8 * s + ls + k) := by
  have hlt := shiftedByte_isSome_iff.mp (by rw [h]; rfl)
  obtain ⟨x, hx⟩ := getElem?_of_lt (show s < src.length by omega)
  obtain ⟨y, hy⟩ := getElem?_of_lt hlt
  simp only [shiftedByte, hx, hy, Option.bind_eq_bind, Option.bind_some, Option.pure_def,
    Option.some.injEq] at h
  rw [← h, byteBit_or, byteBit_shiftLeft x hls hk, byteBit_shiftRight y (by omega) hk]
  by_cases hfirst : k + ls < 8
  · rw [show 8 * s + ls + k = 8 * s + (k + ls) by omega, bitAt_eq hx hfirst]
    simp [hfirst, show ¬ 8 - ls ≤ k by omega]
  · rw [show 8 * s + ls + k = 8 * (s + 1) + (k - (8 - ls)) by omega, bitAt_eq hy (by omega)]
    simp [hfirst, show 8 - ls ≤ k by omega]

theorem gives_shifted {ls : Nat} (hpos : 0 < ls) (hls : ls < 8) (s : Nat) :
    Gives (fun i => shiftedByte src ls (s + i)) src (8 * s + ls) := by
  intro i b hb k hk
  rw [byteBit_shiftedByte hpos hls hb hk,
    show 8 * (s + i) + ls + k = 8 * s + ls + 8 * i + k by omega]

/-- The first bits and the rest. -/
theorem firstRest_iff (src : List UInt8) (base : Nat) (get : Nat → Option UInt8) {c : UInt8}
    (hd : d < 8) (hn : 0 < n) (hdst : 8 * p + d + n ≤ 8 * dst.length)
    (hin : ∀ k < 8, d ≤ k → byteBit c k = bitAt src (base + (k - d)))
    (hout : ∀ k < d, byteBit c k = false) (hget : Gives get src (base + (8 - d))) :
    (∃ r, ((copyFirst dst p d n c).bind fun x => copyRest get (p + 1) x.2 x.1) = some r ∧
      Copied src base dst (8 * p + d) n r) ↔ ∀ i, 8 * i < n - (8 - d) → (get i).isSome := by
  obtain ⟨r, hr, hfirst⟩ :=
    copyFirst_spec src base (n := n) hd (show p < dst.length by omega) hin hout
  rw [hr, Option.bind_some]
  constructor
  · rintro ⟨r', hr', -⟩ i hi
    exact copyRest_isSome (by rw [hr']; rfl) hi
  · intro hsome
    have hroom : ∀ i, 8 * i < n - (8 - d) → (get i).isSome ∧ p + 1 + i < r.length := by
      intro i hi
      rw [hfirst.length_eq]
      exact ⟨hsome i hi, by omega⟩
    obtain ⟨r', hr', hrest⟩ := copyRest_spec hget hroom
    refine ⟨r', hr', ?_⟩
    rcases Nat.lt_or_ge n (8 - d) with hshort | hlong
    · rw [Nat.min_eq_left hshort.le] at hfirst
      rw [show n - (8 - d) = 0 by omega] at hrest
      refine ⟨hrest.length_eq.trans hfirst.length_eq, fun k => ?_⟩
      rw [hrest.bits, if_neg (by omega), hfirst.bits]
    · rw [Nat.min_eq_right hlong] at hfirst
      rw [show 8 * (p + 1) = 8 * p + d + (8 - d) by omega] at hrest
      have htotal := hfirst.trans hrest
      rwa [Nat.add_sub_cancel' hlong] at htotal

/-- The byte of the source that holds the bit for the last bit of the last byte written. -/
def lastRead (srcOffset dstOffset n : Nat) : Nat :=
  (srcOffset + (8 * ((dstOffset + n - 1) / 8) + 7 - dstOffset)) / 8

theorem forall_lt_iff {a L : Nat} :
    (∀ i, 8 * i < n → a + i < L) ↔ n = 0 ∨ a + (n - 1) / 8 < L := by
  constructor
  · intro h
    rcases Nat.eq_zero_or_pos n with h0 | hpos
    · exact .inl h0
    · exact .inr (h _ (by omega))
  · intro h i hi
    rcases h with rfl | hlt
    · exact absurd hi (Nat.not_lt_zero _)
    · omega

section Paths

variable {s so : Nat}

/-- Equal offsets inside the byte. -/
theorem copyAt_equal_iff (hd : d < 8) (hn : 0 < n) (hsrc : 8 * s + d + n ≤ 8 * src.length)
    (hdst : 8 * p + d + n ≤ 8 * dst.length) :
    ∃ r, bitarrayCopyAt src s d n dst p d = some r ∧
      Copied src (8 * s + d) dst (8 * p + d) n r := by
  by_cases h0 : d = 0
  · subst h0
    rw [bitarrayCopyAt, if_pos rfl, if_pos rfl]
    exact copyRest_spec (gives_bytes src s) fun i hi =>
      ⟨by rw [List.getElem?_eq_getElem (show s + i < src.length by omega)]; rfl, by omega⟩
  · obtain ⟨x, hx⟩ := getElem?_of_lt (show s < src.length by omega)
    have hiff := firstRest_iff src (8 * s + d) (fun i => src[s + 1 + i]?)
      (c := reverseMaskXor d &&& x) hd hn hdst
      (fun k hk hdk => by
        rw [byteBit_and, byteBit_reverseMaskXor hd.le hk,
          show 8 * s + d + (k - d) = 8 * s + k by omega, bitAt_eq hx hk]
        simp [hdk])
      (fun k hk => by
        rw [byteBit_and, byteBit_reverseMaskXor hd.le (by omega)]
        simp [show ¬ d ≤ k by omega])
      (by rw [show 8 * s + d + (8 - d) = 8 * (s + 1) by omega]; exact gives_bytes src (s + 1))
    simp only [bitarrayCopyAt, if_pos, if_neg h0, hx, Option.bind_eq_bind, Option.bind_some]
    refine hiff.mpr fun i hi => ?_
    rw [List.getElem?_eq_getElem (show s + 1 + i < src.length by omega)]
    rfl

/-- The source is further inside its byte. -/
theorem copyAt_left_iff (hd : d < so) (hso : so < 8) (hn : 0 < n)
    (hdst : 8 * p + d + n ≤ 8 * dst.length) :
    (∃ r, bitarrayCopyAt src s so n dst p d = some r ∧
      Copied src (8 * s + so) dst (8 * p + d) n r) ↔
      s + 1 < src.length ∧ ∀ i, 8 * i < n - (8 - d) → s + 2 + i < src.length := by
  rw [bitarrayCopyAt, if_neg (by omega), if_pos hd]
  by_cases hfirst : s + 1 < src.length
  · obtain ⟨c, hc⟩ := Option.isSome_iff_exists.mp
      (show (shiftedByte src (so - d) s).isSome from shiftedByte_isSome_iff.mpr hfirst)
    have hiff := firstRest_iff src (8 * s + so)
      (fun i => shiftedByte src (so - d) (s + 1 + i)) (c := c &&& reverseMaskXor d)
      (by omega) hn hdst
      (fun k hk hdk => by
        rw [byteBit_and, byteBit_reverseMaskXor (by omega) hk,
          byteBit_shiftedByte (by omega) (by omega) hc hk,
          show 8 * s + (so - d) + k = 8 * s + so + (k - d) by omega]
        simp [hdk])
      (fun k hk => by
        rw [byteBit_and, byteBit_reverseMaskXor (by omega) (by omega)]
        simp [show ¬ d ≤ k by omega])
      (by
        rw [show 8 * s + so + (8 - d) = 8 * (s + 1) + (so - d) by omega]
        exact gives_shifted (by omega) (by omega) (s + 1))
    rw [and_iff_right hfirst]
    simp only [hc, Option.bind_eq_bind, Option.bind_some]
    rw [hiff]
    refine forall₂_congr fun i hi => ?_
    rw [shiftedByte_isSome_iff, show s + 1 + i + 1 = s + 2 + i by omega]
  · have hnone : shiftedByte src (so - d) s = none := by
      rw [← Option.not_isSome_iff_eq_none, shiftedByte_isSome_iff]
      exact hfirst
    rw [hnone]
    refine iff_of_false ?_ fun h => hfirst h.1
    rintro ⟨r, hr, -⟩
    cases hr

/-- The destination is further inside its byte. -/
theorem copyAt_right_iff (hd : so < d) (hd8 : d < 8) (hn : 0 < n)
    (hsrc : 8 * s + so + n ≤ 8 * src.length) (hdst : 8 * p + d + n ≤ 8 * dst.length) :
    (∃ r, bitarrayCopyAt src s so n dst p d = some r ∧
      Copied src (8 * s + so) dst (8 * p + d) n r) ↔
      ∀ i, 8 * i < n - (8 - d) → s + 1 + i < src.length := by
  obtain ⟨x, hx⟩ := getElem?_of_lt (show s < src.length by omega)
  have hiff := firstRest_iff src (8 * s + so) (fun i => shiftedByte src (8 - (d - so)) (s + i))
    (c := x >>> UInt8.ofNat (d - so) &&& reverseMaskXor d) hd8 hn hdst
    (fun k hk hdk => by
      rw [byteBit_and, byteBit_reverseMaskXor hd8.le hk, byteBit_shiftRight x (by omega) hk,
        show 8 * s + so + (k - d) = 8 * s + (k - (d - so)) by omega, bitAt_eq hx (by omega)]
      simp [hdk, show d - so ≤ k by omega])
    (fun k hk => by
      rw [byteBit_and, byteBit_reverseMaskXor hd8.le (by omega)]
      simp [show ¬ d ≤ k by omega])
    (by
      rw [show 8 * s + so + (8 - d) = 8 * s + (8 - (d - so)) by omega]
      exact gives_shifted (by omega) (by omega) s)
  rw [bitarrayCopyAt, if_neg (by omega), if_neg (by omega)]
  simp only [hx, Option.bind_eq_bind, Option.bind_some]
  rw [hiff]
  refine forall₂_congr fun i hi => ?_
  rw [shiftedByte_isSome_iff, show s + i + 1 = s + 1 + i by omega]

end Paths

variable {srcOffset dstOffset : Nat}

/-- When the unaligned path copies. -/
theorem bitarrayCopy_iff (hn : 0 < n) (hsrc : srcOffset + n ≤ 8 * src.length)
    (hdst : dstOffset + n ≤ 8 * dst.length) :
    (∃ r, bitarrayCopy src srcOffset n dst dstOffset = some r ∧
      Copied src srcOffset dst dstOffset n r) ↔
      (n < 2 ^ 31 ∧ srcOffset < 2 ^ 31 ∧ dstOffset < 2 ^ 31) ∧
        lastRead srcOffset dstOffset n < src.length := by
  rw [bitarrayCopy, if_neg (by omega)]
  by_cases hint : n < 2 ^ 31 ∧ srcOffset < 2 ^ 31 ∧ dstOffset < 2 ^ 31
  · rw [and_iff_right hint, if_pos hint, lastRead]
    clear hint
    have hdo : 8 * (dstOffset / 8) + dstOffset % 8 = dstOffset := Nat.div_add_mod _ _
    have hso : 8 * (srcOffset / 8) + srcOffset % 8 = srcOffset := Nat.div_add_mod _ _
    have hd : dstOffset % 8 < 8 := Nat.mod_lt _ (by decide)
    have hs : srcOffset % 8 < 8 := Nat.mod_lt _ (by decide)
    generalize dstOffset / 8 = p at *
    generalize dstOffset % 8 = d at *
    generalize srcOffset / 8 = s at *
    generalize srcOffset % 8 = so at *
    subst hdo hso
    rcases Nat.lt_trichotomy d so with hlt | rfl | hlt
    · have hlast : (8 * s + so + (8 * ((8 * p + d + n - 1) / 8) + 7 - (8 * p + d))) / 8
          = s + 1 + (d + n - 1) / 8 := by omega
      rw [copyAt_left_iff hlt hs hn hdst, forall_lt_iff, hlast]
      clear hlast hdst
      omega
    · exact iff_of_true (copyAt_equal_iff hd hn hsrc hdst) (by omega)
    · have hlast : (8 * s + so + (8 * ((8 * p + d + n - 1) / 8) + 7 - (8 * p + d))) / 8
          = s + (d + n - 1) / 8 := by omega
      rw [copyAt_right_iff hlt hd hn hsrc hdst, forall_lt_iff, hlast]
      clear hlast hdst
      omega
  · rw [if_neg hint]
    refine iff_of_false ?_ fun h => hint h.1
    rintro ⟨r, hr, -⟩
    cases hr

/-- When the aligned path copies: its last byte takes no old bits over. -/
theorem bitCopy_aligned_iff (ho : dstOffset % 8 = 0 ∧ srcOffset % 8 = 0)
    (hsrc : srcOffset + n ≤ 8 * src.length) (hdst : dstOffset + n ≤ 8 * dst.length) :
    (∃ r, srsranBitCopy dst dstOffset src srcOffset n = some r ∧
      Copied src srcOffset dst dstOffset n r) ↔
      ∀ k, dstOffset + n ≤ k → k < 8 * ((dstOffset + n + 7) / 8) → bitAt dst k = false := by
  have hdo : 8 * (dstOffset / 8) = dstOffset := by omega
  have hso : 8 * (srcOffset / 8) = srcOffset := by omega
  have hroom : ∀ i < n / 8, (src[srcOffset / 8 + i]?).isSome ∧ dstOffset / 8 + i < dst.length := by
    intro i hi
    rw [List.getElem?_eq_getElem (show srcOffset / 8 + i < src.length by omega)]
    exact ⟨rfl, by omega⟩
  obtain ⟨r, hr, hcopied⟩ := copyLoop_spec (gives_bytes src (srcOffset / 8)) hroom
  rw [hdo, hso] at hcopied
  simp only [srsranBitCopy, if_pos ho, hr, Option.bind_eq_bind, Option.bind_some]
  by_cases hwhole : n % 8 = 0
  · rw [if_pos hwhole]
    rw [show 8 * (n / 8) = n by omega] at hcopied
    exact iff_of_true ⟨r, rfl, hcopied⟩ fun k hk hk' => by omega
  · obtain ⟨c, hc⟩ := getElem?_of_lt (show srcOffset / 8 + n / 8 < src.length by omega)
    obtain ⟨old, hold⟩ := getElem?_of_lt
      (show dstOffset / 8 + n / 8 < r.length by rw [hcopied.length_eq]; omega)
    have hbit (k : Nat) (hk : k < 8) : byteBit (c &&& reverseMask (n % 8)) k =
        (byteBit c k && decide (k < n % 8)) := by
      rw [byteBit_and, byteBit_reverseMask (by omega) hk]
    have hlt : dstOffset / 8 + n / 8 < r.length := (List.getElem?_eq_some_iff.mp hold).1
    rw [if_neg hwhole, hc, Option.bind_some, writeByte, if_pos hlt]
    constructor
    · rintro ⟨r', hr', hexact⟩ k hk hk'
      obtain ⟨j, rfl⟩ : ∃ j, k = 8 * (dstOffset / 8 + n / 8) + j :=
        ⟨k - 8 * (dstOffset / 8 + n / 8), by omega⟩
      have hk0 := hexact.bits (8 * (dstOffset / 8 + n / 8) + j)
      rw [if_neg (by omega), ← Option.some_inj.mp hr',
        bitAt_eq (List.getElem?_set_self hlt) (by omega), hbit j (by omega)] at hk0
      rw [← hk0]
      simp [show ¬ j < n % 8 by omega]
    · intro hzero
      obtain ⟨r', hr', hlast⟩ := copied_writeByte src (srcOffset + 8 * (n / 8))
        (d := 0) (n := n % 8) (b := c &&& reverseMask (n % 8)) hold (by omega)
        (fun k _ hk => by
          rw [hbit k (by omega), Nat.sub_zero, ← bitAt_eq hc (by omega),
            show 8 * (srcOffset / 8 + n / 8) + k = srcOffset + 8 * (n / 8) + k by omega]
          simp [show k < n % 8 by omega])
        (fun k hk hout => by
          have hold0 := hcopied.bits (8 * (dstOffset / 8 + n / 8) + k)
          rw [bitAt_eq hold hk, if_neg (by omega), hzero _ (by omega) (by omega)] at hold0
          rw [hbit k hk, hold0]
          simp [show ¬ k < n % 8 by omega])
      rw [writeByte, if_pos hlt] at hr'
      refine ⟨r', hr', ?_⟩
      have htotal := hcopied.trans (m := n % 8) (by
        rwa [show dstOffset + 8 * (n / 8) = 8 * (dstOffset / 8 + n / 8) + 0 by omega])
      rwa [show 8 * (n / 8) + n % 8 = n by omega] at htotal

/-- **When the copy is exact.** The aligned path clears the bits behind the last ones in their
byte. The others read the source up to the bit that the last bit of the last byte written falls
on. -/
theorem bitCopy_exact_iff (src dst : List UInt8) (srcOffset dstOffset n : Nat)
    (hsrc : srcOffset + n ≤ 8 * src.length) (hdst : dstOffset + n ≤ 8 * dst.length) :
    (∃ r, srsranBitCopy dst dstOffset src srcOffset n = some r ∧
      Copied src srcOffset dst dstOffset n r) ↔
      if dstOffset % 8 = 0 ∧ srcOffset % 8 = 0 then
        ∀ k, dstOffset + n ≤ k → k < 8 * ((dstOffset + n + 7) / 8) → bitAt dst k = false
      else n = 0 ∨ ((n < 2 ^ 31 ∧ srcOffset < 2 ^ 31 ∧ dstOffset < 2 ^ 31) ∧
        lastRead srcOffset dstOffset n < src.length) := by
  by_cases ho : dstOffset % 8 = 0 ∧ srcOffset % 8 = 0
  · rw [if_pos ho]
    exact bitCopy_aligned_iff ho hsrc hdst
  · rw [if_neg ho, srsranBitCopy, if_neg ho]
    rcases Nat.eq_zero_or_pos n with rfl | hn
    · exact iff_of_true ⟨dst, rfl, .refl src srcOffset dst dstOffset⟩ (.inl rfl)
    · rw [bitarrayCopy_iff hn hsrc hdst, or_iff_right (by omega)]

theorem bitCopy_exact_bytes :
    ∃ r, srsranBitCopy [0xf0] 2 [0xab, 0xcd] 5 4 = some r ∧ Copied [0xab, 0xcd] 5 [0xf0] 2 4 r :=
  (bitCopy_exact_iff [0xab, 0xcd] [0xf0] 5 2 4 (by decide) (by decide)).mpr (by decide)

/-- Three bits at the start of a byte clear the other five. -/
theorem not_bitCopy_exact :
    ¬ ∀ (src dst : List UInt8) (srcOffset dstOffset n : Nat),
      srcOffset + n ≤ 8 * src.length → dstOffset + n ≤ 8 * dst.length →
      ∃ r, srsranBitCopy dst dstOffset src srcOffset n = some r ∧
        Copied src srcOffset dst dstOffset n r := by
  intro h
  obtain ⟨r, hr, hcopied⟩ := h [0x00] [0xff] 0 0 3 (by decide) (by decide)
  have hbit := hcopied.bits 7
  rw [show srsranBitCopy [0xff] 0 [0x00] 0 3 = some [0x00] by decide, Option.some_inj] at hr
  rw [← hr] at hbit
  exact absurd hbit (by decide)

end Odss.Phy
