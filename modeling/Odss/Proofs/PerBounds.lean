import Odss.Asn1.BitString
import Odss.Proofs.PerInteger

/-!
# `Odss.Proofs.PerBounds`: numbers inside their bounds

What the decoders of lengths and of constrained whole numbers ensure for every input. The unaligned
variant checks the upper bound of a sum that may have wrapped, and the aligned one checks nothing,
so that all numbers of its field have to be values (`Tight`).

* `wrap_within` is why a field must not have more numbers than there are values.
* `within_of_tight` and `tight_of_within` are the decoder of a constrained whole number.
* `neverLeaves_iff` is the result, with the lists and strings whose lengths are decoded.
-/

set_option linter.all false

namespace Odss.Asn1

open Odss.Lib BitRef Per
open IntType (arith isUnsigned arith_sub wrap_of_mem)

/-- The call is defined for every input, and a number that it returns is between the bounds. -/
def Within (read : Per Int) (lb ub : Int) : Prop :=
  ∀ r, Ensures read r fun n _ => lb ≤ n ∧ n ≤ ub

/-- All numbers of the field are values of the range (aligned), or do not wrap (unaligned). -/
structure Tight (t : IntType) (lb ub : Int) (aligned : Bool) : Prop where
  noOverflow : (t.arith (ub - lb)).isSome
  field : if aligned then
      ub - lb + 1 = 2 ^ Nat.clog 2 (ub - lb + 1).toNat ∧
        (Nat.clog 2 (ub - lb + 1).toNat ≤ 8 ∨ Nat.clog 2 (ub - lb + 1).toNat = 16 ∨
          Nat.clog 2 (ub - lb + 1).toNat = 32)
    else Nat.clog 2 (ub - lb + 1).toNat ≤ 32 ∧
      lb + 2 ^ Nat.clog 2 (ub - lb + 1).toNat - 1 ≤ t.max

section Range

variable {t : IntType} {lb ub : Int} {range : Nat}

/-- A sum that wraps is below the lower bound, and one that does not wrap is as large as it is. -/
theorem wrap_within {v : Nat} (hmin : t.min ≤ lb) (hv : v < 2 ^ t.bits)
    (hlow : lb ≤ t.wrap (v + lb)) (hhigh : t.wrap (v + lb) ≤ ub) (hmax : ub ≤ t.max) :
    v + lb ≤ t.max ∧ v + lb ≤ ub := by
  have hsize := t.max_sub_min
  have hpow : ((2 ^ t.bits : Nat) : Int) = 2 ^ t.bits := by push_cast; rfl
  have hv' : (v : Int) < 2 ^ t.bits := by exact_mod_cast hv
  have hnat := Int.natCast_nonneg v
  by_cases hle : v + lb ≤ t.max
  · rw [wrap_of_mem (by omega) hle] at hhigh
    exact ⟨hle, hhigh⟩
  · -- The sum less the size of the type is a value of the type.
    have hless : t.wrap (v + lb) = v + lb - 2 ^ t.bits := by
      have hmem := @wrap_of_mem t (v + lb - 2 ^ t.bits) (by omega) (by omega)
      rw [← hmem]
      exact IntType.wrap_eq_of_emod (Int.sub_emod_right _ _).symm
    omega

/-- What `addBound` ensures is that the number is at most the size of the range. -/
theorem le_of_addBound {v : Nat} {r : BitRef} (hmin : t.min ≤ lb) (hmax : ub ≤ t.max)
    (hv : v < 2 ^ t.bits)
    (h : Ensures (addBound t v lb) r fun n _ => lb ≤ n ∧ n ≤ ub) : v + lb ≤ ub := by
  rcases addBound_cases t v lb with hsum | hsum <;> rw [hsum] at h
  · exact absurd h not_ensures_undefined
  · obtain ⟨hlow, hhigh⟩ := h.2 _ _ (runs_pure _ r)
    exact (wrap_within hmin hv hlow hhigh hmax).2

/-- A number of the range is a value. -/
theorem ensures_addBound {v : Nat} {r : BitRef} (hmin : t.min ≤ lb) (hmax : ub ≤ t.max)
    (hsigned : t = .int32 ∨ t = .int64 → (v : Int) ≤ t.max) (hv : v + lb ≤ ub) :
    Ensures (addBound t v lb) r fun n _ => lb ≤ n ∧ n ≤ ub := by
  rw [addBound_eq hmin hsigned (by omega)]
  exact Ensures.pure ⟨by have := Int.natCast_nonneg v; omega, hv⟩

theorem within_of_tight (h : Ranged t lb lb ub 0 range) {aligned : Bool}
    (htight : Tight t lb ub aligned) :
    Within (unpackConstrainedWholeNumber t lb ub aligned) lb ub := by
  intro r
  have hsize := h.size
  have hmin := h.min_le
  have hmax := h.le_max
  have hrange := h.range_le
  have hseveral := h.several
  have hoffset := r.offset_lt
  have htoNat : (ub - lb + 1).toNat = range := by omega
  have hfield := htight.field
  rw [htoNat] at hfield
  rw [unpackConstrained_eq h]
  cases aligned
  · simp only [Bool.false_eq_true, if_false, Bool.not_false, if_true] at hfield ⊢
    obtain ⟨hclog, hnowrap⟩ := hfield
    refine (ensures_unpack (by omega)).bind fun v r₁ hv => ?_
    have hvlt : (v : Int) < 2 ^ Nat.clog 2 range := by exact_mod_cast hv.1
    have hsigned : t = .int32 ∨ t = .int64 → (v : Int) ≤ t.max := by
      -- A field of 31 bits for `int32_t`, since its range has the size of a value.
      intro ht
      have hle := h.le_max_of_signed ht
      rcases ht with rfl | rfl
      · have hclog' : Nat.clog 2 range ≤ 31 := by
          refine clog_le ?_
          have hmax32 : IntType.int32.max = 2 ^ 31 - 1 := rfl
          omega
        have hpow : (2 : Int) ^ Nat.clog 2 range ≤ 2 ^ 31 :=
          pow_le_pow_right₀ (by decide) hclog'
        have hmax32 : IntType.int32.max = 2 ^ 31 - 1 := rfl
        omega
      · have hpow : (2 : Int) ^ Nat.clog 2 range ≤ 2 ^ 32 := pow_le_pow_right₀ (by decide) hclog
        have hmax64 : IntType.int64.max = 2 ^ 63 - 1 := rfl
        omega
    rw [addBound_eq hmin hsigned (by omega)]
    refine (@Ensures.pure _ _ (fun n _ => n = v + lb) _ rfl).bind fun n r₂ hn => ?_
    split
    · exact Ensures.fail
    · exact Ensures.pure ⟨by omega, by omega⟩
  · simp only [if_true, Bool.not_true, Bool.false_eq_true, if_false] at hfield ⊢
    obtain ⟨hexact, hbits⟩ := hfield
    have hexact' : range = 2 ^ Nat.clog 2 range := by
      have hcast : ((2 ^ Nat.clog 2 range : Nat) : Int) = 2 ^ Nat.clog 2 range := by push_cast; rfl
      omega
    have hvalue : ∀ v : Nat, v < range → v + lb ≤ ub := fun v hv => by omega
    have hsigned : ∀ v : Nat, v < range → t = .int32 ∨ t = .int64 → (v : Int) ≤ t.max := by
      intro v hv ht
      have hle := h.le_max_of_signed ht
      omega
    split
    · refine (ensures_unpack (by omega)).bind fun v r₁ hv => ?_
      exact ensures_addBound hmin hmax (hsigned v (by omega)) (hvalue v (by omega))
    split
    · next hnotSmall hle =>
      have hoctets : ceilFrac (Nat.clog 2 range) 8 * 8 = Nat.clog 2 range := by
        have hlow : 7 < Nat.clog 2 range := lt_clog (by omega)
        have hhigh : Nat.clog 2 range ≤ 16 := clog_le hle
        unfold ceilFrac
        omega
      rw [hoctets]
      have hhigh : Nat.clog 2 range ≤ 16 := clog_le hle
      refine ensures_alignBytes.bind fun _ r₁ hzero => ?_
      refine (ensures_unpack (by omega)).bind fun v r₂ hv => ?_
      refine ensures_alignBytes.bind fun _ r₃ _ => ?_
      exact ensures_addBound hmin hmax (hsigned v (by omega)) (hvalue v (by omega))
    · next hnotSmall hlarge =>
      -- Only fields of 32 bits are left.
      have hlow : 16 < Nat.clog 2 range := lt_clog (Nat.lt_of_not_le hlarge)
      have h32 : Nat.clog 2 range = 32 := by omega
      have hlen : Nat.clog 2 (ceilFrac 32 8) = 2 := Nat.clog_pow 2 2 (by decide)
      rw [h32, hlen]
      rw [h32] at hexact'
      refine (ensures_unpack (by omega)).bind fun nOctets r₁ hn => ?_
      refine ensures_alignBytes.bind fun _ r₂ hzero => ?_
      refine (ensures_unpack (by omega)).bind fun v r₃ hv => ?_
      have hvlt : v < range := by
        have hpow : 2 ^ ((nOctets + 1) * 8) ≤ 2 ^ 32 := Nat.pow_le_pow_right (by decide) (by omega)
        omega
      exact ensures_addBound hmin hmax (hsigned v hvlt) (hvalue v hvlt)

/-- A reader in bytes of ones. -/
def ones (ptr offset : Nat) (h : offset < 8) : BitRef := ⟨List.replicate 16 255, ptr, offset, h⟩

/-- The largest number of a field is read from bytes of ones. -/
theorem runs_unpack_ones {width n ptr : Nat} (hn : n ≤ 32) (hwidth : n ≤ width) (hptr : ptr ≤ 4) :
    (unpack width n).Runs (ones ptr 0 (by decide)) (2 ^ n - 1)
      ((ones ptr 0 (by decide)).advance n) := by
  have hread := @runs_unpack width n (ones ptr 0 (by decide)) hwidth
    (by
      show 8 * ptr + 0 + n ≤ 8 * (List.replicate 16 _).length
      rw [List.length_replicate]
      omega)
    (show n + 0 ≤ 39 by omega)
  have hfield : field (ones ptr 0 (by decide)).bits (ones ptr 0 (by decide)).distance n
      = 2 ^ n - 1 := field_ones (show 8 * ptr + 0 + n ≤ 8 * 16 by omega)
  have hpow : 2 ^ n ≤ 2 ^ 32 := Nat.pow_le_pow_right (by decide) hn
  have hpos := Nat.two_pow_pos n
  rw [hfield, Nat.mod_eq_of_lt (by omega)] at hread
  exact hread

/-- A field of which all numbers are read has no more numbers than the range. -/
theorem pow_le_of_addBound {k : Nat} {r : BitRef} (hmin : t.min ≤ lb) (hmax : ub ≤ t.max)
    (hsize : ub - lb + 1 = range) (hk : k ≤ t.bits)
    (h : Ensures (addBound t (2 ^ k - 1) lb) r fun n _ => lb ≤ n ∧ n ≤ ub) : 2 ^ k ≤ range := by
  have hle : 2 ^ k ≤ 2 ^ t.bits := Nat.pow_le_pow_right (by decide) hk
  have hpos := Nat.two_pow_pos k
  have hv := le_of_addBound hmin hmax (show 2 ^ k - 1 < 2 ^ t.bits by omega) h
  omega

theorem tight_unaligned (h : Ranged t lb lb ub 0 range)
    (hwithin : Within (do
      let val ← unpack t.bits (Nat.clog 2 range)
      let n ← addBound t val lb
      if n > ub then fail .decodeFail else pure n) lb ub) :
    Nat.clog 2 range ≤ 32 ∧ lb + 2 ^ Nat.clog 2 range - 1 ≤ t.max := by
  have hsize := h.size
  have hmin := h.min_le
  have hseveral := h.several
  have hclog : Nat.clog 2 range ≤ t.bits := clog_le h.range_le
  have hpow : ((2 ^ Nat.clog 2 range : Nat) : Int) = 2 ^ Nat.clog 2 range := by push_cast; rfl
  have hpos := Nat.two_pow_pos (Nat.clog 2 range)
  have h32 : Nat.clog 2 range ≤ 32 := by
    -- The shift by 32 at the last bit of a byte.
    by_contra hlarge
    refine (hwithin (ones 0 7 (by decide))).1 ?_
    show Per.bind _ _ _ = none
    rw [Per.bind, unpack_undefined hclog (by unfold HasRoom; decide)
      (show 40 ≤ Nat.clog 2 range + 7 by omega)]
  refine ⟨h32, ?_⟩
  have hrest := (hwithin (ones 0 0 (by decide))).of_bind
    (runs_unpack_ones h32 hclog (by decide))
  have hvlt : 2 ^ Nat.clog 2 range - 1 < 2 ^ t.bits := by
    have hle : 2 ^ Nat.clog 2 range ≤ 2 ^ t.bits := Nat.pow_le_pow_right (by decide) hclog
    omega
  rcases addBound_cases t (2 ^ Nat.clog 2 range - 1) lb with hsum | hsum <;> rw [hsum] at hrest
  · exact absurd rfl hrest.1
  · have hcheck := hrest.of_bind (runs_pure _ _)
    by_contra hwraps
    have hwrapped : t.wrap ((2 ^ Nat.clog 2 range - 1 : Nat) + lb) < lb := by
      by_contra hge
      have hmem := t.wrap_mem ((2 ^ Nat.clog 2 range - 1 : Nat) + lb)
      have hnot := (wrap_within hmin hvlt (by omega) hmem.2 (le_refl _)).1
      omega
    rw [if_neg (by omega)] at hcheck
    have hbad := (hcheck.2 _ _ (runs_pure _ _)).1
    omega

theorem tight_small (h : Ranged t lb lb ub 0 range)
    (hwithin : Within (do
      let val ← unpack t.bits (Nat.clog 2 range)
      addBound t val lb) lb ub) (hsmall : range < 256) :
    2 ^ Nat.clog 2 range ≤ range ∧ Nat.clog 2 range ≤ 8 := by
  have h8 : Nat.clog 2 range ≤ 8 := clog_le (Nat.le_of_lt hsmall)
  have hclog : Nat.clog 2 range ≤ t.bits := clog_le h.range_le
  have hrest := (hwithin (ones 0 0 (by decide))).of_bind
    (runs_unpack_ones (by omega) hclog (by decide))
  exact ⟨pow_le_of_addBound h.min_le h.le_max h.size hclog hrest, h8⟩

theorem tight_octets (h : Ranged t lb lb ub 0 range)
    (hwithin : Within (do
      alignBytes
      let val ← unpack t.bits (ceilFrac (Nat.clog 2 range) 8 * 8)
      alignBytes
      addBound t val lb) lb ub) (hsmall : ¬ range < 256) (hle : range ≤ asn64K) :
    2 ^ Nat.clog 2 range ≤ range ∧ (Nat.clog 2 range ≤ 8 ∨ Nat.clog 2 range = 16) := by
  have hbits := t.bits_pos
  have hclog : Nat.clog 2 range ≤ t.bits := clog_le h.range_le
  have hlt : range ≤ 2 ^ Nat.clog 2 range := Nat.le_pow_clog (by decide) range
  have h8 : 7 < Nat.clog 2 range := lt_clog (by omega)
  have h16 : Nat.clog 2 range ≤ 16 := clog_le hle
  have hoct : ceilFrac (Nat.clog 2 range) 8 * 8 ≤ t.bits ∧
      ceilFrac (Nat.clog 2 range) 8 * 8 ≤ 16 ∧
      Nat.clog 2 range ≤ ceilFrac (Nat.clog 2 range) 8 * 8 := by
    unfold ceilFrac
    omega
  have hstart : alignBytes.Runs (ones 0 0 (by decide)) () (ones 0 0 (by decide)) :=
    runs_alignBytes_of_aligned rfl
  have hrest := ((hwithin (ones 0 0 (by decide))).of_bind hstart).of_bind
    (runs_unpack_ones (by omega) hoct.1 (by decide))
  have hoffset : ((ones 0 0 (by decide)).advance (ceilFrac (Nat.clog 2 range) 8 * 8)).offset = 0 := by
    show (8 * 0 + 0 + ceilFrac (Nat.clog 2 range) 8 * 8) % 8 = 0
    omega
  have hfull := pow_le_of_addBound h.min_le h.le_max h.size hoct.1
    (hrest.of_bind (runs_alignBytes_of_aligned hoffset))
  have hexp : ceilFrac (Nat.clog 2 range) 8 * 8 ≤ Nat.clog 2 range :=
    (Nat.pow_le_pow_iff_right (by decide)).mp (Nat.le_trans hfull hlt)
  have hclog' : Nat.clog 2 range = ceilFrac (Nat.clog 2 range) 8 * 8 := by omega
  refine ⟨hclog' ▸ hfull, ?_⟩
  unfold ceilFrac at hclog'
  omega

theorem tight_long (h : Ranged t lb lb ub 0 range) (hub : ub < asn64K)
    (hwithin : Within (do
      let nOctets ← unpack 32 (Nat.clog 2 (ceilFrac (Nat.clog 2 range) 8))
      alignBytes
      let val ← unpack t.bits ((nOctets + 1) * 8)
      addBound t val lb) lb ub) (hlarge : asn64K < range) :
    2 ^ Nat.clog 2 range ≤ range ∧ Nat.clog 2 range = 32 := by
  have hsize := h.size
  have hmin := h.min_le
  have hrange := h.range_le
  have hclog : Nat.clog 2 range ≤ t.bits := clog_le hrange
  have hlt : range ≤ 2 ^ Nat.clog 2 range := Nat.le_pow_clog (by decide) range
  have h16 : 16 < Nat.clog 2 range := lt_clog hlarge
  have hwide : t = .int32 ∨ t = .int64 := by
    unfold asn64K at hlarge hub
    cases t <;> simp only [IntType.min, IntType.bits, isUnsigned, if_true, if_false,
      Bool.false_eq_true] at hmin hrange
      <;> first | exact Or.inl rfl | exact Or.inr rfl | omega
  have hbits : 32 ≤ t.bits := by rcases hwide with rfl | rfl <;> decide
  have hceil : 2 < ceilFrac (Nat.clog 2 range) 8 ∧ ceilFrac (Nat.clog 2 range) 8 ≤ 8 := by
    have h64 := t.bits_pos
    unfold ceilFrac
    omega
  have hlen2 : 1 < Nat.clog 2 (ceilFrac (Nat.clog 2 range) 8) := lt_clog hceil.1
  have hlen3 : Nat.clog 2 (ceilFrac (Nat.clog 2 range) 8) ≤ 3 := clog_le hceil.2
  have hrest := (hwithin (ones 0 0 (by decide))).of_bind
    (runs_unpack_ones (show Nat.clog 2 (ceilFrac (Nat.clog 2 range) 8) ≤ 32 by omega)
      (show Nat.clog 2 (ceilFrac (Nat.clog 2 range) 8) ≤ 32 by omega) (by decide))
  have hnext : alignBytes.Runs
      ((ones 0 0 (by decide)).advance (Nat.clog 2 (ceilFrac (Nat.clog 2 range) 8))) ()
      (ones 1 0 (by decide)) := by
    interval_cases Nat.clog 2 (ceilFrac (Nat.clog 2 range) 8) <;> rfl
  have hrest := hrest.of_bind hnext
  have h2 : Nat.clog 2 (ceilFrac (Nat.clog 2 range) 8) = 2 := by
    by_contra hnot
    have h3 : Nat.clog 2 (ceilFrac (Nat.clog 2 range) 8) = 3 := by omega
    have hfive : 4 < ceilFrac (Nat.clog 2 range) 8 :=
      (@Nat.lt_clog_iff_pow_lt 2 (by decide) _ 2).mp (by omega)
    -- Eight octets are shifted too far.
    have h64 : t.bits = 64 := by
      unfold ceilFrac at hfive
      rcases hwide with rfl | rfl
      · have h32 : IntType.int32.bits = 32 := rfl
        omega
      · rfl
    rw [h3] at hrest
    refine hrest.1 ?_
    show Per.bind _ _ _ = none
    rw [Per.bind, h64, unpack_undefined (by decide) (by unfold HasRoom; decide) (by decide)]
  rw [h2] at hrest
  have hfull := pow_le_of_addBound hmin h.le_max hsize hbits
    (hrest.of_bind (runs_unpack_ones (by decide) hbits (by decide)))
  have hclog32 : Nat.clog 2 range = 32 := by
    have hfour : ceilFrac (Nat.clog 2 range) 8 ≤ 2 ^ 2 :=
      (Nat.clog_le_iff_le_pow (by decide)).mp (Nat.le_of_eq h2)
    have hexp : 32 ≤ Nat.clog 2 range :=
      (Nat.pow_le_pow_iff_right (by decide)).mp (Nat.le_trans hfull hlt)
    unfold ceilFrac at hfour
    omega
  rw [hclog32]
  exact ⟨hfull, rfl⟩

theorem tight_of_within (h : Ranged t lb lb ub 0 range) (hub : ub < asn64K) {aligned : Bool}
    (hwithin : Within (unpackConstrainedWholeNumber t lb ub aligned) lb ub) :
    Tight t lb ub aligned := by
  have hsize := h.size
  have htoNat : (ub - lb + 1).toNat = range := by omega
  have hlt : range ≤ 2 ^ Nat.clog 2 range := Nat.le_pow_clog (by decide) range
  have hpow : ((2 ^ Nat.clog 2 range : Nat) : Int) = 2 ^ Nat.clog 2 range := by push_cast; rfl
  refine ⟨by obtain ⟨diff, hdiff⟩ := h.noOverflow; rw [hdiff]; rfl, ?_⟩
  rw [htoNat]
  unfold Within at hwithin
  rw [unpackConstrained_eq h] at hwithin
  cases aligned
  · simp only [Bool.false_eq_true, if_false, Bool.not_false, if_true] at hwithin ⊢
    exact tight_unaligned h hwithin
  · simp only [if_true, Bool.not_true, Bool.false_eq_true, if_false] at hwithin ⊢
    split at hwithin
    · next hsmall =>
      obtain ⟨hfull, hbits⟩ := tight_small h hwithin hsmall
      exact ⟨by omega, Or.inl hbits⟩
    split at hwithin
    · next hsmall hle =>
      obtain ⟨hfull, hbits⟩ := tight_octets h hwithin hsmall hle
      exact ⟨by omega, hbits.imp_right Or.inl⟩
    · next hsmall hlarge =>
      obtain ⟨hfull, hbits⟩ := tight_long h hub hwithin (Nat.lt_of_not_le hlarge)
      exact ⟨by omega, Or.inr (Or.inr hbits)⟩

end Range

/-! ### Lists and strings -/

/-- Lists, strings of bits without the extension marker set and strings of octets never get more
elements than the upper bound, and no item behind a list is touched. -/
structure ContainersStay (lb ub : Nat) (aligned : Bool) : Prop where
  seqOf : ∀ (α : Type) (unpacker : α → Per α) (a : BoundedArray α ub) (r : BitRef),
    (∀ item r, unpacker item r ≠ none) → a.currentSize ≤ ub →
      ∃ code a' r', unpackDynSeqOf unpacker a lb ub aligned r = some (code, a', r') ∧
        a'.currentSize ≤ ub
  bitstring : ∀ (hasExt : Bool) (s : Bitstring) (r : BitRef),
    (hasExt → r.bits r.distance = false) → s.nofBits ≤ ub →
      ∃ code s' r', s.unpack lb ub hasExt aligned r = some (code, s', r') ∧ s'.nofBits ≤ ub
  octstring : ∀ (s : Odss.Rlc.Bytes) (r : BitRef), s.length ≤ ub →
    ∃ code s' r', Octstring.unpack s lb ub aligned r = some (code, s', r') ∧ s'.length ≤ ub

theorem unpackItems_spec {α : Type} {maxN : Nat} {unpacker : α → Per α}
    (hdefined : ∀ item r, unpacker item r ≠ none) {n i : Nat} (a : BoundedArray α maxN)
    (r : BitRef) (h : i + n ≤ maxN) :
    ∃ code a' r', unpackItems unpacker n i a r = some (code, a', r') ∧
      a'.currentSize = a.currentSize := by
  induction n generalizing i a r with
  | zero => exact ⟨_, a, r, rfl, rfl⟩
  | succ n ih =>
    unfold unpackItems
    rw [dif_pos (by omega)]
    split
    · next hnone => exact absurd hnone (hdefined _ _)
    · exact ⟨_, a, _, rfl, rfl⟩
    · next item r' _ => exact ih { a with data := a.data.set i item } r' (by omega)

theorem ensures_alignIgnored (aligned : Bool) (r : BitRef) :
    Ensures (alignIgnored aligned) r fun _ _ => True := by
  unfold alignIgnored
  split
  · refine ⟨?_, fun _ _ _ => trivial⟩
    have hdefined := (@ensures_alignBytes r).1
    unfold Per.ignore
    split
    · next hnone => exact absurd hnone hdefined
    · exact nofun
  · exact Ensures.pure trivial

theorem ensures_unpackOctets (n : Nat) (r : BitRef) :
    Ensures (unpackOctets n) r fun octets _ => octets.length = n := by
  induction n generalizing r with
  | zero => exact Ensures.pure rfl
  | succ n ih =>
    have hoffset := r.offset_lt
    refine (ensures_unpack (by omega)).bind fun octet r₁ _ => ?_
    refine (ih r₁).bind fun octets r₂ hlength => ?_
    exact Ensures.pure (by rw [List.length_cons, hlength])

theorem ensures_unpackOctstring (n : Nat) (r : BitRef) :
    Ensures (unpackOctstring n) r fun octets _ => octets.length = n := by
  induction n generalizing r with
  | zero => exact Ensures.pure rfl
  | succ n ih =>
    have hoffset := r.offset_lt
    refine (ensures_unpack (by omega)).bind fun octet r₁ _ => ?_
    refine (ih r₁).bind fun octets r₂ hlength => ?_
    exact Ensures.pure (by rw [List.length_cons, hlength])

theorem ensures_unpackBitfield (n lb ub : Nat) (aligned : Bool) (r : BitRef) :
    Ensures (unpackBitfield n lb ub aligned) r fun octets _ => octets.length = ceilFrac n 8 := by
  unfold unpackBitfield
  split
  · exact Ensures.fail
  split
  · next hzero =>
    rw [hzero]
    exact Ensures.pure rfl
  · refine (ensures_alignIgnored _ r).bind fun _ r₁ _ => ?_
    have hoffset := r₁.offset_lt
    refine (ensures_unpack (by omega)).bind fun last r₂ _ => ?_
    refine (ensures_unpackOctets _ r₂).bind fun octets r₃ hlength => Ensures.pure ?_
    rw [List.length_append, List.length_reverse, hlength, List.length_singleton]
    unfold ceilFrac
    omega

/-- A length without the extension marker set is between the bounds. -/
theorem ensures_unpackLengthPrefix {lb ub : Nat} {aligned : Bool} (hle : lb ≤ ub)
    (hub : ub < asn64K) (hlength : Within (unpackLengthBounded .uint32 lb ub aligned) lb ub)
    {hasExt : Bool} {r : BitRef} (hext : hasExt → r.bits r.distance = false) :
    Ensures (unpackLengthPrefix lb ub hasExt aligned) r fun len _ => len ≤ ub := by
  unfold unpackLengthPrefix
  have hmarker : Ensures (unpackExtMarker hasExt) r fun ext _ => ext = false := by
    cases hasExt
    · exact Ensures.pure rfl
    · exact ensures_unpackFlag.mono fun ext r' h => h.1.trans (hext rfl)
  refine hmarker.bind fun ext r₁ hfalse => ?_
  have hbounded : ¬ (ub = unbounded ∨ ext = true) := by
    rw [hfalse]
    unfold asn64K at hub
    unfold unbounded
    rintro (hmax | hext')
    · omega
    · exact Bool.false_ne_true hext'
  rw [if_neg hbounded]
  split
  · exact Ensures.pure hle
  · exact (hlength r₁).bind fun n r₂ hn => Ensures.pure (by omega)

theorem containersStay_of_within {lb ub : Nat} {aligned : Bool} (hle : lb ≤ ub)
    (hub : ub < asn64K) (hlength : Within (unpackLengthBounded .uint32 lb ub aligned) lb ub) :
    ContainersStay lb ub aligned where
  seqOf α unpacker a r hdefined hsize := by
    have h := hlength r
    unfold unpackDynSeqOf
    split
    · next hnone => exact absurd hnone h.1
    · exact ⟨_, a, _, rfl, hsize⟩
    · next n r' hrun =>
      have hn := (h.2 n r' hrun).2
      obtain ⟨code, a', r'', hitems, hsize'⟩ := unpackItems_spec hdefined (a.resize n.toNat) r'
        (show 0 + n.toNat ≤ ub by omega)
      refine ⟨code, a', r'', hitems, ?_⟩
      rw [hsize']
      show n.toNat ≤ ub
      omega
  bitstring hasExt s r hext hsize := by
    have h := ensures_unpackLengthPrefix hle hub hlength hext
    unfold Bitstring.unpack
    split
    · next hnone => exact absurd hnone h.1
    · exact ⟨_, s, _, rfl, hsize⟩
    · next nbits r' hrun =>
      have hn := h.2 nbits r' hrun
      have hfield := ensures_unpackBitfield nbits lb ub aligned r'
      split
      · next hnone => exact absurd hnone hfield.1
      · exact ⟨_, _, _, rfl, hn⟩
      · next octets r'' _ =>
        refine ⟨_, _, _, rfl, ?_⟩
        unfold Bitstring.ofOctets
        split <;> exact hn
  octstring s r hsize := by
    have h := hlength r
    unfold Octstring.unpack
    split
    · next hnone => exact absurd hnone h.1
    · exact ⟨_, s, _, rfl, hsize⟩
    · next len r' hrun =>
      have hn := (h.2 len r' hrun).2
      have hread : Ensures (do
          alignIgnored aligned
          unpackOctstring len.toNat) r' fun octets _ => octets.length = len.toNat :=
        (ensures_alignIgnored aligned r').bind fun _ r₁ _ => ensures_unpackOctstring _ r₁
      dsimp only
      split
      · next hnone => exact absurd hnone hread.1
      · refine ⟨_, _, _, rfl, ?_⟩
        rw [List.length_replicate]
        omega
      · next octets r'' hoctets =>
        refine ⟨_, _, _, rfl, ?_⟩
        rw [hread.2 octets r'' hoctets]
        omega

/-! ### The result -/

/-- The decoders of constrained whole numbers and of lengths with an upper bound below 65536 return
numbers between the bounds, for every input, and so do those that resize by them. -/
structure NeverLeaves (t : IntType) (lb ub : Int) (aligned : Bool) : Prop where
  number : Within (unpackConstrainedWholeNumber t lb ub aligned) lb ub
  length : Within (unpackLengthBounded t lb ub aligned) lb ub
  containers : t = .uint32 → lb ≤ ub → ContainersStay lb.toNat ub.toNat aligned

/-- No input leaves the bounds when, and only when, the field is tight. -/
theorem neverLeaves_iff {t : IntType} {lb ub : Int} (aligned : Bool) (hmin : t.min ≤ lb)
    (hmax : ub ≤ t.max) (hub : ub < asn64K) :
    NeverLeaves t lb ub aligned ↔ (lb ≤ ub → Tight t lb ub aligned) := by
  have hlength : unpackLengthBounded t lb ub aligned = unpackConstrainedWholeNumber t lb ub aligned :=
    if_neg (by omega)
  have hnumber : Within (unpackConstrainedWholeNumber t lb ub aligned) lb ub ↔
      (lb ≤ ub → Tight t lb ub aligned) := by
    rcases Int.lt_trichotomy ub lb with hlt | heq | hgt
    · -- The bounds are checked.
      refine iff_of_true (fun r => ?_) fun hle => by omega
      unfold unpackConstrainedWholeNumber
      rw [if_pos hlt]
      exact Ensures.fail
    · -- A range of one value has no field.
      subst heq
      have harith : ∃ diff, t.arith (ub - ub) = some diff := by
        rw [Int.sub_self]
        exact IntType.arith_of_mem (by cases t <;> decide) (by cases t <;> decide)
      obtain ⟨diff, hdiff⟩ := harith
      have hexact := arith_sub (le_refl ub) hmin hmax hdiff
      refine iff_of_true (fun r => ?_) fun _ => ⟨by rw [hdiff]; rfl, ?_⟩
      · unfold unpackConstrainedWholeNumber rangeSize
        rw [if_neg (by omega), hdiff, hexact, Int.sub_self]
        exact Ensures.pure ⟨le_refl _, le_refl _⟩
      · have hone : ub - ub + 1 = 1 := by omega
        rw [hone, show (1 : Int).toNat = 1 from rfl, Nat.clog_one_right]
        cases aligned
        · exact ⟨by decide, show ub + 2 ^ 0 - 1 ≤ t.max by omega⟩
        · exact ⟨rfl, Or.inl (by decide)⟩
    · cases hdiff : t.arith (ub - lb) with
      | none =>
        refine iff_of_false (fun hwithin => ?_) fun h => ?_
        · refine (hwithin (BitRef.start [])).1 ?_
          unfold unpackConstrainedWholeNumber rangeSize
          rw [if_neg (by omega), hdiff]
          rfl
        · have hsome := (h (by omega)).noOverflow
          rw [hdiff] at hsome
          cases hsome
      | some diff =>
        have hlow : -(2 : Int) ^ 63 ≤ t.min := by cases t <;> decide
        unfold asn64K at hub
        have hranged : Ranged t lb lb ub 0 (ub - lb + 1).toNat :=
          ⟨hmin, hmax, by omega, by omega, by omega, by omega, by omega, _, hdiff⟩
        exact ⟨fun hwithin _ => tight_of_within hranged hub hwithin,
          fun h => within_of_tight hranged (h (by omega))⟩
  constructor
  · exact fun h => hnumber.mp h.number
  · intro h
    have hwithin := hnumber.mpr h
    refine ⟨hwithin, hlength ▸ hwithin, fun ht hle => ?_⟩
    subst ht
    have hzero : (0 : Int) ≤ lb := hmin
    obtain ⟨lb, rfl⟩ := Int.eq_ofNat_of_zero_le hzero
    obtain ⟨ub, rfl⟩ := Int.eq_ofNat_of_zero_le (Int.le_trans hzero hle)
    exact containersStay_of_within (by exact_mod_cast hle) (by exact_mod_cast hub)
      (hlength ▸ hwithin)

/-- A list of up to 16 elements in the aligned variant. -/
theorem neverLeaves_sixteen : NeverLeaves .uint32 1 16 true :=
  (neverLeaves_iff true (by decide) (by decide) (by decide)).mpr fun _ =>
    ⟨rfl, by decide, Or.inl (by decide)⟩

/-- A list of up to 15 elements, as the equivalent PLMNs of a handover restriction list. -/
theorem not_neverLeaves_fifteen : ¬ NeverLeaves .uint32 1 15 true := by
  intro h
  have hrun : (unpackConstrainedWholeNumber .uint32 1 15 true).Runs (start [0xf0]) 16
      ⟨[0xf0], 0, 4, by decide⟩ := rfl
  exact absurd ((h.number _).2 _ _ hrun).2 (by decide)

end Odss.Asn1
