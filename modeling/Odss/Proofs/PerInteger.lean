import Odss.Proofs.BitRef
import Odss.Proofs.IntType

/-!
# `Odss.Proofs.PerInteger`: integers that come back

What `pack_integer` writes for a value between the bounds, and what `unpack_integer` reads from it.
A range of one value has no bits, and the reader leaves its variable as it is. The reader shifts the
bits of a byte as an `uint32_t`, and a signed type may not hold the size of its range. `Encodable`
is what is left.

* `packConstrained_eq` and `unpackConstrained_eq` are the encodings of a range.
* `unaligned_iff`, `smallRange`, `octets` and `longNumber_iff` are the round trip of each encoding.
* `integer_roundTrips_iff` is the result.
-/

set_option linter.all false

namespace Odss.Asn1

open Odss.Lib BitRef Per
open IntType (arith isUnsigned arith_sub arith_sub_of_le wrap_of_mem)

/-! ### Logarithms -/

theorem lt_two_pow_clog {m range : Nat} (h : m < range) : m < 2 ^ Nat.clog 2 range :=
  Nat.lt_of_lt_of_le h (Nat.le_pow_clog (by decide) range)

theorem clog_le {range k : Nat} (h : range ≤ 2 ^ k) : Nat.clog 2 range ≤ k :=
  (Nat.clog_le_iff_le_pow (by decide)).mpr h

theorem lt_clog {range k : Nat} (h : 2 ^ k < range) : k < Nat.clog 2 range :=
  (Nat.lt_clog_iff_pow_lt (by decide)).mpr h

theorem clog_pos {range : Nat} (h : 1 < range) : 0 < Nat.clog 2 range := lt_clog h

/-- The octets that a number needs. -/
def octetsOf (m : Nat) : Nat := ceilFrac (Nat.log 2 (max m 1) + 1) 8

theorem octetsOf_le {m k : Nat} (h : m < 2 ^ k) (hk : 0 < k) : octetsOf m ≤ ceilFrac k 8 := by
  have hlt : max m 1 < 2 ^ k :=
    Nat.max_lt.mpr ⟨h, Nat.one_lt_two_pow (Nat.pos_iff_ne_zero.mp hk)⟩
  have hlog : Nat.log 2 (max m 1) < k := Nat.log_lt_of_lt_pow (by omega) hlt
  unfold octetsOf ceilFrac
  omega

theorem lt_octetsOf (m : Nat) : m < 2 ^ (octetsOf m * 8) := by
  have hlog := @Nat.lt_pow_succ_log_self 2 (by decide) (max m 1)
  have hle : Nat.log 2 (max m 1) + 1 ≤ octetsOf m * 8 := by
    unfold octetsOf ceilFrac
    omega
  calc m ≤ max m 1 := Nat.le_max_left _ _
    _ < 2 ^ (Nat.log 2 (max m 1) + 1) := hlog
    _ ≤ 2 ^ (octetsOf m * 8) := Nat.pow_le_pow_right (by decide) hle

theorem octetsOf_pos (m : Nat) : 0 < octetsOf m := by
  unfold octetsOf ceilFrac
  omega

theorem octetsOf_le_four {m : Nat} : octetsOf m ≤ 4 ↔ m < 2 ^ 32 := by
  constructor
  · intro h
    exact Nat.lt_of_lt_of_le (lt_octetsOf m) (Nat.pow_le_pow_right (by decide) (by omega))
  · intro h
    exact octetsOf_le h (by decide)

/-! ### The encodings -/

/-- The number of values of a range, and the number of a value in it. -/
structure Ranged (t : IntType) (n lb ub : Int) (m range : Nat) : Prop where
  min_le : t.min ≤ lb
  le_max : ub ≤ t.max
  value : n = m + lb
  size : ub - lb + 1 = range
  lt : m < range
  several : 1 < range
  small : range < 2 ^ 64
  noOverflow : ∃ diff, t.arith (ub - lb) = some diff

section Ranged

variable {t : IntType} {n lb ub : Int} {m range : Nat}

theorem Ranged.range_le (h : Ranged t n lb ub m range) : range ≤ 2 ^ t.bits := by
  have hmax := t.max_sub_min
  have hlow := h.min_le
  have hhigh := h.le_max
  have hsize := h.size
  have hle : (range : Int) ≤ 2 ^ t.bits := by omega
  exact_mod_cast hle

/-- A signed type of 32 or 64 bits holds the size of its range. -/
theorem Ranged.le_max_of_signed (h : Ranged t n lb ub m range) (ht : t = .int32 ∨ t = .int64) :
    ub - lb ≤ t.max := by
  obtain ⟨diff, hdiff⟩ := h.noOverflow
  rcases ht with rfl | rfl
  all_goals
    simp only [arith] at hdiff
    split at hdiff
    · next hmem => exact hmem.2
    · cases hdiff

theorem Ranged.rangeSize_eq (h : Ranged t n lb ub m range) : rangeSize t lb ub = some range := by
  obtain ⟨diff, hdiff⟩ := h.noOverflow
  have hsize := h.size
  have hsmall := h.small
  have hseveral := h.several
  have hexact := arith_sub (by omega) h.min_le h.le_max hdiff
  have hmod : diff % 2 ^ 64 = ub - lb := by omega
  unfold rangeSize toU64
  rw [hdiff, Option.map_some, hmod]
  congr 1
  omega

theorem Ranged.addBound_eq (h : Ranged t n lb ub m range) : addBound t m lb = pure n := by
  have hvalue := h.value
  have hsize := h.size
  have hlt := h.lt
  have hle := h.le_max
  rw [h.value]
  refine Odss.Asn1.addBound_eq h.min_le (fun ht => ?_) (by omega)
  have hsigned := h.le_max_of_signed ht
  omega

theorem ofOption_bind {α β : Type} {o : Option α} {a : α} (h : o = some a) (f : α → Per β) :
    (ofOption o >>= f) = f a := by
  rw [h]
  rfl

theorem ceilLog2_eq {x : Nat} (h : 0 < x) : ceilLog2 x = some (Nat.clog 2 x) :=
  if_neg (Nat.pos_iff_ne_zero.mp h)

/-- The encoding of a value. -/
theorem packConstrained_eq (h : Ranged t n lb ub m range) (aligned : Bool) :
    ∃ val, (∀ k ≤ t.bits, val % 2 ^ k = m % 2 ^ k) ∧
      packConstrainedWholeNumber t n lb ub aligned =
        if !aligned then ignore (pack val (Nat.clog 2 range))
        else if range < 256 then pack val (Nat.clog 2 range)
        else if range ≤ asn64K then do
          alignBytesZero
          pack 0 (ceilFrac (Nat.clog 2 range) 8 * 8 - Nat.clog 2 range)
          pack val (Nat.clog 2 range)
          alignBytesZero
        else (do
          pack (octetsOf m - 1) (Nat.clog 2 (ceilFrac (Nat.clog 2 range) 8))
          alignBytesZero
          pack val (octetsOf m * 8)) := by
  obtain ⟨diff, hdiff⟩ := h.noOverflow
  have hvalue := h.value
  have hsize := h.size
  have hlt := h.lt
  have hseveral := h.several
  obtain ⟨d, hd⟩ := arith_sub_of_le (show lb ≤ n by omega) (show n ≤ ub by omega) hdiff
  have hlow := h.min_le
  have hhigh := h.le_max
  have hexact : d = (m : Int) := by
    rw [arith_sub (by omega) hlow (by omega) hd]
    omega
  refine ⟨toU64 (t.wrap m), fun k hk => toU64_wrap_mod hk, ?_⟩
  unfold packConstrainedWholeNumber
  rw [if_neg (by omega), ofOption_bind h.rangeSize_eq, if_neg (by omega),
    ofOption_bind (ceilLog2_eq (by omega)), ofOption_bind hd, hexact]
  split
  · rfl
  split
  · rfl
  split
  · rfl
  · next hlarge =>
    -- A type whose ranges are this large holds the number.
    have hwrap : t.wrap m = m := by
      refine wrap_of_mem (Int.le_trans ?_ (Int.natCast_nonneg m)) ?_
      · cases t <;> decide
      · have hrange := h.range_le
        have hsigned := h.le_max_of_signed
        cases t <;> simp only [IntType.bits] at hrange
        case int8 | int16 | uint8 | uint16 => unfold asn64K at hlarge; omega
        case int32 | int64 => have hle := hsigned (by decide); omega
        case uint32 | uint64 =>
          simp only [IntType.max, isUnsigned, IntType.bits, if_true]
          omega
    have hclog : 0 < ceilFrac (Nat.clog 2 range) 8 := by
      have hpos := clog_pos hseveral
      unfold ceilFrac
      omega
    have hoctets : ceilFrac (Nat.log 2 (max (t.wrap m) 1).toNat + 1) 8 = octetsOf m := by
      have hmax : (max (t.wrap m) 1).toNat = max m 1 := by rw [hwrap]; omega
      rw [hmax, octetsOf]
    rw [ofOption_bind (ceilLog2_eq hclog)]
    dsimp only
    rw [hoctets]

theorem unpackConstrained_eq (h : Ranged t n lb ub m range) (aligned : Bool) :
    unpackConstrainedWholeNumber t lb ub aligned =
      if !aligned then do
        let val ← unpack t.bits (Nat.clog 2 range)
        let n ← addBound t val lb
        if n > ub then fail .decodeFail else pure n
      else if range < 256 then do
        let val ← unpack t.bits (Nat.clog 2 range)
        addBound t val lb
      else if range ≤ asn64K then do
        alignBytes
        let val ← unpack t.bits (ceilFrac (Nat.clog 2 range) 8 * 8)
        alignBytes
        addBound t val lb
      else (do
        let nOctets ← unpack 32 (Nat.clog 2 (ceilFrac (Nat.clog 2 range) 8))
        alignBytes
        let val ← unpack t.bits ((nOctets + 1) * 8)
        addBound t val lb) := by
  have hsize := h.size
  have hseveral := h.several
  have hclog : 0 < ceilFrac (Nat.clog 2 range) 8 := by
    have hpos := clog_pos hseveral
    unfold ceilFrac
    omega
  unfold unpackConstrainedWholeNumber
  rw [if_neg (by omega), ofOption_bind h.rangeSize_eq, if_neg (by omega),
    ofOption_bind (ceilLog2_eq (by omega)), ofOption_bind (ceilLog2_eq hclog)]

/-! ### The round trip of an encoding -/

/-- What one call writes is what the other one reads. -/
def ComesBack (write : Per Unit) (read : Per Int) (n : Int) (w : BitRef) : Prop :=
  ∃ w', write.Runs w () w' ∧ w.Extends w' ∧ read.Runs (w'.readFrom w) n w'

variable {w : BitRef} {val : Nat}

theorem unaligned_iff (h : Ranged t n lb ub m range)
    (hval : ∀ k ≤ t.bits, val % 2 ^ k = m % 2 ^ k) (hroom : w.HasRoom 64) :
    ComesBack (ignore (pack val (Nat.clog 2 range)))
      (do
        let val ← unpack t.bits (Nat.clog 2 range)
        let n ← addBound t val lb
        if n > ub then fail .decodeFail else pure n) n w
      ↔ m < 2 ^ 32 ∧ Nat.clog 2 range + w.offset ≤ 39 := by
  have hlt := h.lt
  have hvalue := h.value
  have hsize := h.size
  have hpos := clog_pos h.several
  have hwidth : Nat.clog 2 range ≤ t.bits := clog_le h.range_le
  constructor
  · rintro ⟨w', -, -, hread⟩
    obtain ⟨v, r₁, hunpack, hrest⟩ := hread.of_bind
    obtain ⟨-, -, hshift, hv, -⟩ := of_runs_unpack hunpack hpos
    have hvlt : v < 2 ^ 32 := hv ▸ Nat.mod_lt _ (by decide)
    refine ⟨?_, hshift⟩
    obtain ⟨s, r₂, hadd, hcheck⟩ := hrest.of_bind
    rcases addBound_cases t v lb with hsum | hsum <;> rw [hsum] at hadd
    · exact absurd hadd not_runs_undefined
    · obtain ⟨rfl, -⟩ := hadd.unique (runs_pure _ _)
      split at hcheck
      · exact absurd hcheck not_runs_fail
      · -- The number that was read is the number of the value, modulo the size of the type.
        obtain ⟨hn, -⟩ := hcheck.unique (runs_pure _ _)
        have hmod := t.wrap_emod (v + lb)
        have hrange := h.range_le
        rw [← hn, h.value] at hmod
        rcases Nat.lt_or_ge t.bits 64 with hbits | hbits
        · have hle : (2 : Nat) ^ t.bits ≤ 2 ^ 32 := by
            cases t <;> first | decide | exact absurd hbits (by decide)
          omega
        · have heq : t.bits = 64 := Nat.le_antisymm t.bits_pos.2.1 hbits
          rw [heq] at hmod hrange
          omega
  · rintro ⟨hsmall, hshift⟩
    have hbits := w.offset_lt
    obtain ⟨w', hpack, hwritten⟩ := runs_pack val (show Nat.clog 2 range < 64 by omega)
      (hroom.mono (show Nat.clog 2 range ≤ 64 by omega))
    refine ⟨w', hpack.ignore, hwritten.toExtends, ?_⟩
    have hread := hwritten.runs_unpack (Extends.refl w') (hroom.mono (by omega)) hwidth hshift
    rw [hval _ hwidth, Nat.mod_eq_of_lt (lt_two_pow_clog hlt), Nat.mod_eq_of_lt hsmall] at hread
    refine hread.bind ?_
    rw [h.addBound_eq]
    refine (runs_pure n w').bind ?_
    rw [if_neg (by omega)]
    exact runs_pure n w'

theorem smallRange (h : Ranged t n lb ub m range)
    (hval : ∀ k ≤ t.bits, val % 2 ^ k = m % 2 ^ k) (hroom : w.HasRoom 64) (hsmall : range < 256) :
    ComesBack (pack val (Nat.clog 2 range))
      (do
        let val ← unpack t.bits (Nat.clog 2 range)
        addBound t val lb) n w := by
  have hlt := h.lt
  have hoffset := w.offset_lt
  have hwidth : Nat.clog 2 range ≤ t.bits := clog_le h.range_le
  have hle : Nat.clog 2 range ≤ 8 := clog_le (by omega)
  obtain ⟨w', hpack, hwritten⟩ := runs_pack val (show Nat.clog 2 range < 64 by omega)
    (hroom.mono (show Nat.clog 2 range ≤ 64 by omega))
  refine ⟨w', hpack, hwritten.toExtends, ?_⟩
  have hread := hwritten.runs_unpack (Extends.refl w') (hroom.mono (by omega)) hwidth (by omega)
  rw [hval _ hwidth, Nat.mod_eq_of_lt (lt_two_pow_clog hlt), Nat.mod_eq_of_lt (by omega)] at hread
  refine hread.bind ?_
  rw [h.addBound_eq]
  exact runs_pure n w'

theorem octets (h : Ranged t n lb ub m range)
    (hval : ∀ k ≤ t.bits, val % 2 ^ k = m % 2 ^ k) (hroom : w.HasRoom 64)
    (hle : range ≤ asn64K) :
    ComesBack
      (do
        alignBytesZero
        pack 0 (ceilFrac (Nat.clog 2 range) 8 * 8 - Nat.clog 2 range)
        pack val (Nat.clog 2 range)
        alignBytesZero)
      (do
        alignBytes
        let val ← unpack t.bits (ceilFrac (Nat.clog 2 range) 8 * 8)
        alignBytes
        addBound t val lb) n w := by
  have hlt := h.lt
  have hbits := t.bits_pos
  have hwidth : Nat.clog 2 range ≤ t.bits := clog_le h.range_le
  have hsixteen : Nat.clog 2 range ≤ 16 := clog_le hle
  have hpos := clog_pos h.several
  have hlow := lt_two_pow_clog hlt
  generalize hclog : Nat.clog 2 range = nBits at *
  obtain ⟨k, hk⟩ : ∃ k, ceilFrac nBits 8 * 8 = k + nBits := ⟨ceilFrac nBits 8 * 8 - nBits, by
    unfold ceilFrac; omega⟩
  have hoct : k + nBits ≤ 16 ∧ k + nBits ≤ t.bits ∧ (k + nBits) % 8 = 0 := by
    unfold ceilFrac at hk
    omega
  rw [hk, Nat.add_sub_cancel]
  obtain ⟨w₁, halign, hext₁, hdist₁, -⟩ := runs_alignBytesZero (Or.inl (hroom.mono (by omega)))
  have hup : alignUp w.distance ≤ w.distance + 7 ∧ alignUp w.distance % 8 = 0 := by
    unfold alignUp
    omega
  have hoff₁ : w₁.offset = 0 := by
    have h₁ := w₁.offset_lt
    unfold distance at hdist₁
    unfold distance at hup
    omega
  have hroom₁ : w₁.HasRoom (k + nBits) := hroom.of_extends hext₁ (by omega)
  obtain ⟨w₂, hzero, hwritten₂⟩ := runs_pack 0 (show k < 64 by omega) (hroom₁.mono (by omega))
  have hroom₂ : w₂.HasRoom nBits :=
    hroom₁.of_extends hwritten₂.toExtends (by rw [hwritten₂.distance_eq]; omega)
  obtain ⟨w₃, hpack, hwritten₃⟩ := runs_pack val (show nBits < 64 by omega) hroom₂
  -- The zeros in front and the number are one field.
  have hzero' : 0 % 2 ^ k = val % 2 ^ nBits / 2 ^ nBits % 2 ^ k := by
    rw [Nat.div_eq_of_lt (Nat.mod_lt _ (Nat.two_pow_pos _))]
  have hboth := (hwritten₂.congr hzero').append (hwritten₃.congr (Nat.mod_mod _ _).symm)
    (Or.inl (by omega))
  have hoff₃ : w₃.offset = 0 := by
    have h₃ := w₃.offset_lt
    have hdist := hboth.distance_eq
    unfold distance at hdist
    omega
  have hdone := runs_alignBytesZero_of_aligned hoff₃
  refine ⟨w₃, halign.bind (hzero.bind (hpack.bind hdone)), hext₁.trans hboth.toExtends, ?_⟩
  have hup₁ := readFrom_runs_alignBytes hdist₁ (hext₁.trans hboth.toExtends)
    (Or.inl (hroom.mono (by omega)))
  have hread := hboth.runs_unpack (Extends.refl w₃) hroom₁ hoct.2.1 (by omega)
  have hnumber : val % 2 ^ nBits % 2 ^ (k + nBits) % 2 ^ 32 = m := by
    have hle' : (2 : Nat) ^ nBits ≤ 2 ^ (k + nBits) := Nat.pow_le_pow_right (by decide) (by omega)
    have hle'' : (2 : Nat) ^ nBits ≤ 2 ^ 32 := Nat.pow_le_pow_right (by decide) (by omega)
    rw [hval _ hwidth, Nat.mod_eq_of_lt hlow, Nat.mod_eq_of_lt (Nat.lt_of_lt_of_le hlow hle'),
      Nat.mod_eq_of_lt (Nat.lt_of_lt_of_le hlow hle'')]
  rw [hnumber] at hread
  have hend := @runs_alignBytes_of_aligned w₃ hoff₃
  refine hup₁.bind (hread.bind (hend.bind ?_))
  rw [h.addBound_eq]
  exact runs_pure n w₃

theorem longNumber_iff (h : Ranged t n lb ub m range)
    (hval : ∀ k ≤ t.bits, val % 2 ^ k = m % 2 ^ k) (hroom : w.HasRoom 76)
    (hlarge : asn64K < range) :
    ComesBack
      (do
        pack (octetsOf m - 1) (Nat.clog 2 (ceilFrac (Nat.clog 2 range) 8))
        alignBytesZero
        pack val (octetsOf m * 8))
      (do
        let nOctets ← unpack 32 (Nat.clog 2 (ceilFrac (Nat.clog 2 range) 8))
        alignBytes
        let val ← unpack t.bits ((nOctets + 1) * 8)
        addBound t val lb) n w
      ↔ m < 2 ^ 32 := by
  have hlt := h.lt
  have hbits := t.bits_pos
  have hclog : Nat.clog 2 range ≤ t.bits := clog_le h.range_le
  have hpos := clog_pos h.several
  have hoctets := octetsOf_pos m
  have hle : octetsOf m ≤ ceilFrac (Nat.clog 2 range) 8 := octetsOf_le (lt_two_pow_clog hlt) hpos
  have hmax : ceilFrac (Nat.clog 2 range) 8 ≤ 8 := by unfold ceilFrac; omega
  have hwidth : octetsOf m * 8 ≤ t.bits := by
    have hceil : ceilFrac (Nat.clog 2 range) 8 * 8 ≤ t.bits := by unfold ceilFrac; omega
    omega
  -- The field of the number of octets.
  have hlen : Nat.clog 2 (ceilFrac (Nat.clog 2 range) 8) ≤ 3 := clog_le hmax
  have hlenpos : 0 < Nat.clog 2 (ceilFrac (Nat.clog 2 range) 8) := by
    have hbig : 16 < Nat.clog 2 range := lt_clog hlarge
    refine clog_pos ?_
    unfold ceilFrac
    omega
  have hfits : octetsOf m - 1 < 2 ^ Nat.clog 2 (ceilFrac (Nat.clog 2 range) 8) :=
    lt_two_pow_clog (by omega)
  generalize hk : Nat.clog 2 (ceilFrac (Nat.clog 2 range) 8) = k at *
  have hoffset := w.offset_lt
  obtain ⟨w₁, hpack₁, hwritten₁⟩ :=
    runs_pack (octetsOf m - 1) (show k < 64 by omega) (hroom.mono (show k ≤ 76 by omega))
  have hdist₁ := hwritten₁.distance_eq
  have hroom₁ : w₁.HasRoom 72 := hroom.of_extends hwritten₁.toExtends (by omega)
  obtain ⟨w₂, halign, hext₂, hdist₂, -⟩ :=
    runs_alignBytesZero (Or.inl (hroom₁.mono (show 1 ≤ 72 by omega)))
  have hup : alignUp w₁.distance ≤ w₁.distance + 7 ∧ alignUp w₁.distance % 8 = 0 := by
    unfold alignUp
    omega
  have hoff₂ : w₂.offset = 0 := by
    have h₂ := w₂.offset_lt
    unfold distance at hdist₂
    unfold distance at hup
    omega
  have hroom₂ : w₂.HasRoom 64 := hroom₁.of_extends hext₂ (by omega)
  -- What a reader of an extension sees first.
  have hlength : ∀ w', w₂.Extends w' →
      (unpack 32 k).Runs (w'.readFrom w) (octetsOf m - 1) (w'.readFrom w₁) := by
    intro w' hext
    have hread := hwritten₁.runs_unpack (hext₂.trans hext) (hroom.mono (by omega))
      (show k ≤ 32 by omega) (by omega)
    rw [Nat.mod_eq_of_lt hfits, Nat.mod_eq_of_lt (by omega)] at hread
    exact hread
  have hstart : ∀ w', w₂.Extends w' → alignBytes.Runs (w'.readFrom w₁) () (w'.readFrom w₂) :=
    fun w' hext => readFrom_runs_alignBytes hdist₂ (hext₂.trans hext)
      (Or.inl (hroom₁.mono (by omega)))
  have hsucc : octetsOf m - 1 + 1 = octetsOf m := by omega
  constructor
  · rintro ⟨w', hwrite, hext, hread⟩
    rw [runs_bind_iff hpack₁, runs_bind_iff halign] at hwrite
    by_cases hsmall : octetsOf m * 8 < 64
    · obtain ⟨w₃, hpack₃, hwritten₃⟩ :=
        runs_pack val hsmall (hroom₂.mono (show octetsOf m * 8 ≤ 64 by omega))
      obtain ⟨-, rfl⟩ := hwrite.unique hpack₃
      rw [runs_bind_iff (hlength w' hwritten₃.toExtends),
        runs_bind_iff (hstart w' hwritten₃.toExtends), hsucc] at hread
      obtain ⟨v, r₃, hunpack, -⟩ := hread.of_bind
      obtain ⟨-, -, hshift, -, -⟩ := of_runs_unpack hunpack (by omega)
      exact octetsOf_le_four.mp (by omega)
    · -- 64 bits are not written.
      unfold Runs pack at hwrite
      rw [if_pos (by omega)] at hwrite
      cases hwrite
  · intro hsmall
    have hfour : octetsOf m ≤ 4 := octetsOf_le_four.mpr hsmall
    obtain ⟨w₃, hpack₃, hwritten₃⟩ :=
      runs_pack val (show octetsOf m * 8 < 64 by omega)
        (hroom₂.mono (show octetsOf m * 8 ≤ 64 by omega))
    have hread₃ := hwritten₃.runs_unpack (Extends.refl w₃) (hroom₂.mono (by omega)) hwidth
      (by omega)
    rw [hval _ hwidth, Nat.mod_eq_of_lt (lt_octetsOf m), Nat.mod_eq_of_lt hsmall] at hread₃
    refine ⟨w₃, hpack₁.bind (halign.bind hpack₃),
      hwritten₁.toExtends.trans (hext₂.trans hwritten₃.toExtends), ?_⟩
    refine (hlength w₃ hwritten₃.toExtends).bind ((hstart w₃ hwritten₃.toExtends).bind ?_)
    rw [hsucc]
    refine hread₃.bind ?_
    rw [h.addBound_eq]
    exact runs_pure n w₃

theorem constrained_iff (h : Ranged t n lb ub m range) (aligned : Bool) (hroom : w.HasRoom 76) :
    ComesBack (packConstrainedWholeNumber t n lb ub aligned)
      (unpackConstrainedWholeNumber t lb ub aligned) n w
      ↔ if aligned then range ≤ asn64K ∨ m < 2 ^ 32
        else m < 2 ^ 32 ∧ Nat.clog 2 range + w.offset ≤ 39 := by
  obtain ⟨val, hval, hpack⟩ := packConstrained_eq h aligned
  have hroom' := hroom.mono (show 64 ≤ 76 by omega)
  rw [hpack, unpackConstrained_eq h aligned]
  cases aligned
  · exact unaligned_iff h hval hroom'
  · simp only [Bool.not_true, Bool.false_eq_true, if_false, if_true]
    by_cases hsmall : range < 256
    · rw [if_pos hsmall, if_pos hsmall]
      exact iff_of_true (smallRange h hval hroom' hsmall)
        (Or.inl (Nat.le_of_lt (Nat.lt_of_lt_of_le hsmall (by decide))))
    · rw [if_neg hsmall, if_neg hsmall]
      by_cases hle : range ≤ asn64K
      · rw [if_pos hle, if_pos hle]
        exact iff_of_true (octets h hval hroom' hle) (Or.inl hle)
      · rw [if_neg hle, if_neg hle, longNumber_iff h hval hroom (Nat.lt_of_not_le hle)]
        exact (or_iff_right hle).symm

theorem packConstrained_extends (h : Ranged t n lb ub m range) {aligned : Bool}
    (hroom : w.HasRoom 76) {w' : BitRef}
    (hrun : (packConstrainedWholeNumber t n lb ub aligned).Runs w () w') : w.Extends w' := by
  have hback := constrained_iff h aligned hroom
  obtain ⟨val, hval, hpack⟩ := packConstrained_eq h aligned
  have hclog : Nat.clog 2 range ≤ 64 := Nat.le_trans (clog_le h.range_le) t.bits_pos.2.1
  -- A number that comes back has kept what was there, so only the others are left.
  by_cases hcond : if aligned then range ≤ asn64K ∨ m < 2 ^ 32
      else m < 2 ^ 32 ∧ Nat.clog 2 range + w.offset ≤ 39
  · obtain ⟨w₁, hrun₁, hext, -⟩ := hback.mpr hcond
    obtain ⟨-, rfl⟩ := hrun₁.unique hrun
    exact hext
  rw [hpack] at hrun
  cases aligned
  · exact extends_of_ignore_pack (hroom.mono (by omega)) hrun
  · simp only [if_true, not_or, not_le, not_lt] at hcond
    simp only [Bool.not_true, Bool.false_eq_true, if_false] at hrun
    have hlarge := hcond.1
    unfold asn64K at hlarge
    rw [if_neg (by omega), if_neg (by omega)] at hrun
    have hoctets : octetsOf m ≤ 8 := by
      have hle := octetsOf_le (lt_two_pow_clog h.lt) (clog_pos h.several)
      unfold ceilFrac at hle
      omega
    have hlen : Nat.clog 2 (ceilFrac (Nat.clog 2 range) 8) ≤ 3 := by
      refine clog_le ?_
      unfold ceilFrac
      omega
    obtain ⟨w₁, hpack₁, hwritten₁⟩ := runs_pack (octetsOf m - 1)
      (show Nat.clog 2 (ceilFrac (Nat.clog 2 range) 8) < 64 by omega) (hroom.mono (by omega))
    have hroom₁ : w₁.HasRoom 72 :=
      hroom.of_extends hwritten₁.toExtends (by rw [hwritten₁.distance_eq]; omega)
    obtain ⟨w₂, halign, hext₂, hdist₂, -⟩ := runs_alignBytesZero (Or.inl (hroom₁.mono (by omega)))
    have hroom₂ : w₂.HasRoom 64 := hroom₁.of_extends hext₂ (by
      rw [hdist₂]
      unfold alignUp
      omega)
    rw [runs_bind_iff hpack₁, runs_bind_iff halign] at hrun
    exact hwritten₁.toExtends.trans
      (hext₂.trans (extends_of_pack (hroom₂.mono (by omega)) hrun))

end Ranged

/-! ### Integers -/

/-- `unpack_integer` of what `pack_integer` wrote succeeds, sets the output to the value and stops
where the writer stopped. -/
def RoundTrips (t : IntType) (lb ub n : Int) (hasExt aligned : Bool) (w : BitRef) : Prop :=
  ∃ w', (packInteger t n lb ub hasExt aligned).Runs w () w' ∧
    ∀ old, t.min ≤ old → old ≤ t.max →
      (unpackInteger t old lb ub hasExt aligned).Runs (w'.readFrom w) n w'

/-- The range has several values, the type holds its size, and no bits are beyond the shifts of the
reader. -/
structure Encodable (t : IntType) (lb ub n : Int) (aligned : Bool) (offset : Nat) : Prop where
  several : lb ≠ ub
  noOverflow : (t.arith (ub - lb)).isSome
  reachable : if aligned then ub - lb < asn64K ∨ n - lb < 2 ^ 32
    else n - lb < 2 ^ 32 ∧ Nat.clog 2 ((ub - lb).toNat + 1) + offset ≤ 39

theorem runs_extMarker {w : BitRef} {hasExt withinBounds : Bool}
    (hmarker : withinBounds ∨ hasExt) (hroom : w.HasRoom 1) :
    ∃ w₁, (packExtMarker hasExt withinBounds).Runs w () w₁ ∧ w.Extends w₁ ∧
      w₁.distance = w.distance + (if hasExt then 1 else 0) ∧
      ∀ w', w₁.Extends w' →
        (unpackExtMarker hasExt).Runs (w'.readFrom w) (!withinBounds) (w'.readFrom w₁) := by
  cases hasExt
  · obtain rfl : withinBounds = true := hmarker.resolve_right Bool.false_ne_true
    exact ⟨w, runs_pure () w, Extends.refl w, rfl, fun w' _ => runs_pure false _⟩
  · obtain ⟨w₁, hpack, hwritten⟩ :=
      runs_pack (if withinBounds then 0 else 1) (show 1 < 64 by decide) hroom
    refine ⟨w₁, hpack, hwritten.toExtends, hwritten.distance_eq, fun w' hext => ?_⟩
    refine @Written.runs_unpackFlag w w₁ w' (!withinBounds) ?_ hext hroom
    cases withinBounds <;> exact hwritten

/-- An integer between its bounds comes back when, and only when, it is encodable. -/
theorem integer_roundTrips_iff {t : IntType} {lb ub n : Int} {w : BitRef} (hasExt aligned : Bool)
    (hmin : t.min ≤ lb) (hsigned : t.isUnsigned ∨ lb ≠ t.min) (hlb : lb ≤ n) (hub : n ≤ ub)
    (hmax : ub < t.max) (hroom : w.HasRoom 80) :
    RoundTrips t lb ub n hasExt aligned w ↔
      Encodable t lb ub n aligned ((w.offset + if hasExt then 1 else 0) % 8) := by
  obtain ⟨w₁, hflag, hext₁, hdist₁, hread₁⟩ :=
    @runs_extMarker w hasExt true (Or.inl rfl) (hroom.mono (by omega))
  have hone : (if hasExt then 1 else 0) ≤ 1 := by cases hasExt <;> decide
  have hroom₁ : w₁.HasRoom 76 := hroom.of_extends hext₁ (by omega)
  have hoffset : (w.offset + if hasExt then 1 else 0) % 8 = w₁.offset := by
    have h₁ := w₁.offset_lt
    unfold distance at hdist₁
    omega
  have hwithin : decide (n ≥ lb ∧ n ≤ ub) = true := decide_eq_true ⟨hlb, hub⟩
  have hlower : lowerBounded t lb = true := decide_eq_true hsigned.symm
  have hupper : upperBounded t ub = true := decide_eq_true (Int.ne_of_lt hmax)
  -- Both calls are the extension marker and what follows it.
  have hpack : ∀ w', (packInteger t n lb ub hasExt aligned).Runs w () w' ↔
      (if lb = ub then pure () else packConstrainedWholeNumber t n lb ub aligned).Runs w₁ () w' := by
    intro w'
    unfold packInteger
    simp only [hwithin]
    rw [runs_bind_iff hflag]
    simp only [hlower, hupper, and_self, if_true]
  have hunpack : ∀ old w' r, w₁.Extends w' →
      ((unpackInteger t old lb ub hasExt aligned).Runs (w'.readFrom w) n r ↔
        (if lb = ub then pure old else unpackConstrainedWholeNumber t lb ub aligned).Runs
          (w'.readFrom w₁) n r) := by
    intro old w' r hext
    unfold unpackInteger
    rw [runs_bind_iff (hread₁ w' hext)]
    simp only [hlower, hupper, Bool.not_true, Bool.not_false, and_self, if_true]
  rw [hoffset]
  by_cases hone : lb = ub
  · -- The variable of the reader may have any other value.
    refine iff_of_false ?_ fun h => h.several hone
    rintro ⟨w', hwrite, hread⟩
    rw [hpack, if_pos hone] at hwrite
    obtain ⟨-, rfl⟩ := hwrite.unique (runs_pure () w₁)
    have hvalue : ∀ old, t.min ≤ old → old ≤ t.max → old = n := by
      intro old hold hold'
      have h := hread old hold hold'
      rw [hunpack _ _ _ (Extends.refl _), if_pos hone] at h
      exact ((runs_pure old _).unique h).1
    have hlow := hvalue t.min (Int.le_refl _) (by omega)
    have hhigh := hvalue t.max (by omega) (Int.le_refl _)
    omega
  · cases hoverflow : t.arith (ub - lb) with
    | none =>
      refine iff_of_false ?_ fun h => ?_
      · rintro ⟨w', hwrite, -⟩
        rw [hpack, if_neg hone] at hwrite
        unfold packConstrainedWholeNumber rangeSize at hwrite
        rw [if_neg (by omega), hoverflow] at hwrite
        obtain ⟨ra, r, hundefined, -⟩ := hwrite.of_bind
        exact not_runs_undefined hundefined
      · have hsome := h.noOverflow
        rw [hoverflow] at hsome
        cases hsome
    | some diff =>
      have hrange := t.max_sub_min
      have hpow : (2 : Int) ^ t.bits ≤ 2 ^ 64 := by
        have hle : (2 : Nat) ^ t.bits ≤ 2 ^ 64 :=
          Nat.pow_le_pow_right (by decide) t.bits_pos.2.1
        exact_mod_cast hle
      have hranged : Ranged t n lb ub (n - lb).toNat ((ub - lb).toNat + 1) :=
        ⟨hmin, Int.le_of_lt hmax, by omega, by omega, by omega, by omega, by omega, _, hoverflow⟩
      have hback := constrained_iff hranged aligned hroom₁
      have hcond : (if aligned then (ub - lb).toNat + 1 ≤ asn64K ∨ (n - lb).toNat < 2 ^ 32
            else (n - lb).toNat < 2 ^ 32 ∧
              Nat.clog 2 ((ub - lb).toNat + 1) + w₁.offset ≤ 39) ↔
          Encodable t lb ub n aligned w₁.offset := by
        constructor
        · intro h
          refine ⟨hone, by rw [hoverflow]; rfl, ?_⟩
          cases aligned
          · exact ⟨by have := h.1; omega, h.2⟩
          · simp only [if_true] at h ⊢
            omega
        · intro h
          have hreach := h.reachable
          cases aligned
          · exact ⟨by have := hreach.1; omega, hreach.2⟩
          · simp only [if_true] at hreach ⊢
            omega
      rw [← hcond, ← hback]
      constructor
      · rintro ⟨w', hwrite, hread⟩
        rw [hpack, if_neg hone] at hwrite
        have hext := packConstrained_extends hranged hroom₁ hwrite
        have h := hread n (by omega) (by omega)
        rw [hunpack _ _ _ hext, if_neg hone] at h
        exact ⟨w', hwrite, hext, h⟩
      · rintro ⟨w', hwrite, hext, h⟩
        refine ⟨w', by rw [hpack, if_neg hone]; exact hwrite, fun old _ _ => ?_⟩
        rw [hunpack _ _ _ hext, if_neg hone]
        exact h

/-- A value of 16 bits in the aligned variant, behind an extension marker. -/
theorem roundTrips_sixteenBits :
    RoundTrips .uint16 0 65534 1000 true true (start (List.replicate 10 0)) :=
  (integer_roundTrips_iff true true (by decide) (Or.inl rfl) (by decide) (by decide) (by decide)
    (by unfold HasRoom; decide)).mpr ⟨by decide, rfl, Or.inl (by decide)⟩

/-- A bit rate of more than 32 bits, and the only value of its range. -/
theorem not_roundTrips_bitRate :
    ¬ RoundTrips .uint64 0 4000000000000 5000000000 true true (start (List.replicate 10 0)) ∧
      ¬ RoundTrips .uint8 5 5 5 false false (start (List.replicate 10 0)) := by
  constructor
  · rintro ⟨w', hwrite, hread⟩
    have hrun : (packInteger .uint64 5000000000 0 4000000000000 true true).Runs
        (start (List.replicate 10 0)) ()
        ⟨[0x40, 0x01, 0x2a, 0x05, 0xf2, 0x00, 0, 0, 0, 0], 6, 0, by decide⟩ := rfl
    obtain ⟨-, rfl⟩ := hwrite.unique hrun
    have h := hread 0 (by decide) (by decide)
    cases h
  · rintro ⟨w', hwrite, hread⟩
    obtain ⟨-, rfl⟩ := hwrite.unique (runs_pure () _)
    have h := hread 0 (by decide) (by decide)
    cases h

end Odss.Asn1
