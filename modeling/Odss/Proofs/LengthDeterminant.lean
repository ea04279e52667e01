import Odss.Proofs.BitString

/-!
# `Odss.Proofs.LengthDeterminant`: the length in front of an octet string

`pack_length` and `unpack_length` without bounds. `LengthRoundTrips` is what they owe each other,
for any bits that follow the length.

* `runs_unpackLength_written` is the way back for the two forms that are read.
* `not_runs_unpackLength_long` is the third form, which only the aligned writer has.
* `lengthRoundTrips_iff_fits` puts both together.
-/

set_option linter.all false

namespace Odss.Asn1

open Odss.Lib BitRef Per

/-- The bits of a length without bounds. -/
def lengthBits (n : Nat) : Nat := if n < 128 then 8 else if n < asn16K then 16 else 24

theorem lengthBits_pos (n : Nat) : 1 ≤ lengthBits n := by
  unfold lengthBits
  split
  · decide
  · split <;> decide

/-- Where `pack_length` succeeds, the padding is zero, and `unpack_length` gives the length and ends
at the same place. -/
def LengthRoundTrips (n : Nat) (aligned : Bool) (w : BitRef) : Prop :=
  ∀ w₁, (packLength n aligned).Runs w () w₁ →
    (∀ i, w.distance ≤ i → i < fieldStart aligned w.distance → w₁.bits i = false) ∧
      ∀ w', w₁.Extends w' → (unpackLength aligned).Runs (w'.readFrom w) n (w'.readFrom w₁)

/-- A length that the aligned variant writes is below 16384, and the rest of the byte is zero
before. -/
def LengthFits (n : Nat) (aligned : Bool) (w : BitRef) : Prop :=
  aligned = true → n ≤ asn64K → w.HasRoom (alignUp w.distance - w.distance + lengthBits n) →
    n < asn16K ∧ ∀ i, w.distance ≤ i → i < alignUp w.distance → w.bits i = false

/-- The length as it is read back, up to 16383. -/
theorem runs_unpackLength_written {w w₁ w' : BitRef} {n : Nat} {aligned : Bool}
    (hplace : aligned = true → w.offset = 0) (hpack : (packLength n false).Runs w () w₁)
    (hext : w₁.Extends w') : n < asn16K ∧ w.Extends w₁ ∧ w₁.distance = w.distance + lengthBits n ∧
      (unpackLength aligned).Runs (w'.readFrom w) n (w'.readFrom w₁) := by
  unfold packLength at hpack
  simp only [Bool.not_false, if_true] at hpack
  unfold lengthBits
  by_cases hsmall : n < 128
  · rw [if_pos hsmall] at hpack ⊢
    obtain ⟨-, hroom, hwritten⟩ := of_runs_pack hpack
    have hroom := hroom.resolve_left (by decide)
    have hread := @runs_unpackLength (w'.readFrom w) aligned n 8 hplace
      (hroom.readFrom (hwritten.toExtends.trans hext)) (.inl ⟨rfl, hsmall, by
        rw [readFrom_bits, readFrom_distance,
          hext.field_eq (Nat.le_of_eq hwritten.distance_eq.symm), hwritten.value]
        omega⟩)
    rw [readFrom_advance hwritten.distance_eq] at hread
    exact ⟨Nat.lt_trans hsmall (by decide), hwritten.toExtends, hwritten.distance_eq, hread⟩
  rw [if_neg hsmall] at hpack ⊢
  split at hpack
  · next hlt =>
    rw [if_pos hlt]
    have hlt' : n < 16384 := hlt
    obtain ⟨_, w₂, hfirst, hsecond⟩ := hpack.of_bind
    obtain ⟨-, hroom₁, hwritten₁⟩ := of_runs_pack hfirst
    obtain ⟨-, hroom₂, hwritten₂⟩ := of_runs_pack hsecond
    have hwritten : w.Written w₁ (2 ^ 15 + n) 16 :=
      (hwritten₁.congr (by omega)).append (hwritten₂.congr (by omega)) (.inl (by decide))
    have hroom : w.HasRoom 16 := by
      have hlen := hwritten₁.length_eq
      have hdist := hwritten₁.distance_eq
      have hroom := hroom₂.resolve_left (by decide)
      unfold HasRoom at hroom ⊢
      omega
    have hread := @runs_unpackLength (w'.readFrom w) aligned n 16 hplace
      (hroom.readFrom (hwritten.toExtends.trans hext)) (.inr ⟨rfl, hlt', by
        rw [readFrom_bits, readFrom_distance,
          hext.field_eq (Nat.le_of_eq hwritten.distance_eq.symm), hwritten.value]
        omega⟩)
    rw [readFrom_advance hwritten.distance_eq] at hread
    exact ⟨hlt, hwritten.toExtends, hwritten.distance_eq, hread⟩
  · exact absurd hpack not_runs_fail

/-- The aligned variant is the other one at the start of the next byte, up to 16383. -/
theorem packLength_true {n : Nat} (hlt : n < asn16K) :
    packLength n true = (do alignBytes; packLength n false) := by
  have hle : ¬ n > asn64K := by
    unfold asn16K at hlt
    unfold asn64K
    omega
  unfold packLength
  simp only [Bool.not_true, Bool.not_false, Bool.false_eq_true, if_false, if_true]
  rw [if_neg hle]
  simp only [if_pos hlt]

/-- A length from 16384 on is not read. -/
theorem not_runs_unpackLength_long {w₁ w₂ w' : BitRef} {n : Nat} (hge : asn16K ≤ n)
    (haligned : w₁.offset = 0) (hpack : (packLength n true).Runs w₁ () w₂) (hext : w₂.Extends w')
    {r : BitRef} : ¬ (unpackLength true).Runs (w'.readFrom w₁) n r := by
  intro hread
  have hge' : 16384 ≤ n := hge
  unfold packLength at hpack
  simp only [Bool.not_true, Bool.false_eq_true, if_false] at hpack
  split at hpack
  · exact not_runs_fail hpack
  next hle =>
  rw [runs_bind_iff (runs_alignBytes_of_aligned haligned), if_neg (by omega), if_neg (by omega)]
    at hpack
  obtain ⟨_, v₁, hfirst, hpack⟩ := hpack.of_bind
  obtain ⟨_, v₂, hsecond, hthird⟩ := hpack.of_bind
  obtain ⟨-, -, hwritten₁⟩ := of_runs_pack hfirst
  obtain ⟨-, -, hwritten₂⟩ := of_runs_pack hsecond
  obtain ⟨-, -, hwritten₃⟩ := of_runs_pack hthird
  obtain ⟨m, hm, hlt⟩ : ∃ m, m = n / asn16K ∧ m < 2 ^ 6 := ⟨_, rfl, by
    unfold asn64K at hle
    unfold asn16K
    omega⟩
  rw [← hm] at hwritten₂
  have hwritten : w₁.Written v₂ (2 ^ 7 + 2 ^ 6 + m) 8 :=
    (hwritten₁.congr (by omega)).append (hwritten₂.congr (by omega)) (.inl (by decide))
  -- The first two bits are ones.
  have hvalue : field w'.bits w₁.distance 8 = 2 ^ 7 + 2 ^ 6 + m := by
    rw [(hwritten₃.toExtends.trans hext).field_eq (Nat.le_of_eq hwritten.distance_eq.symm),
      hwritten.value]
    omega
  unfold unpackLength at hread
  simp only [Bool.not_true, Bool.false_eq_true, if_false] at hread
  rw [runs_bind_iff (runs_alignBytes_of_aligned (r := w'.readFrom w₁) haligned)] at hread
  obtain ⟨v, r₁, hunpack, hread⟩ := hread.of_bind
  obtain ⟨-, -, -, rfl, rfl⟩ := of_runs_unpack hunpack (by decide)
  rw [readFrom_bits, readFrom_distance, hvalue, Nat.mod_eq_of_lt (by omega), if_neg (by omega),
    if_neg (by omega)] at hread
  exact not_runs_fail hread

/-- The fields of a length at the start of a byte. -/
theorem of_runs_packLength_true {w w₂ : BitRef} {n : Nat} (haligned : w.offset = 0)
    (h : (packLength n true).Runs w () w₂) :
    n ≤ asn64K ∧ w.HasRoom (lengthBits n) ∧ w.Extends w₂ := by
  unfold packLength at h
  simp only [Bool.not_true, Bool.false_eq_true, if_false] at h
  split at h
  · exact absurd h not_runs_fail
  next hle =>
  rw [runs_bind_iff (runs_alignBytes_of_aligned haligned)] at h
  refine ⟨Nat.le_of_not_lt hle, ?_⟩
  unfold lengthBits
  split at h
  · next hsmall =>
    obtain ⟨-, hroom, hwritten⟩ := of_runs_pack h
    rw [if_pos hsmall]
    exact ⟨hroom.resolve_left (by decide), hwritten.toExtends⟩
  next hsmall =>
  rw [if_neg hsmall]
  split at h
  · next hlt =>
    obtain ⟨_, w₁, hfirst, hsecond⟩ := h.of_bind
    obtain ⟨-, -, hwritten₁⟩ := of_runs_pack hfirst
    obtain ⟨-, hroom, hwritten₂⟩ := of_runs_pack hsecond
    rw [if_pos hlt]
    refine ⟨?_, hwritten₁.toExtends.trans hwritten₂.toExtends⟩
    exact (hroom.resolve_left (by decide)).of_written hwritten₁
  · next hge =>
    obtain ⟨_, v₁, hfirst, h⟩ := h.of_bind
    obtain ⟨_, v₂, hsecond, hthird⟩ := h.of_bind
    obtain ⟨-, -, hwritten₁⟩ := of_runs_pack hfirst
    obtain ⟨-, -, hwritten₂⟩ := of_runs_pack hsecond
    obtain ⟨-, hroom, hwritten₃⟩ := of_runs_pack hthird
    rw [if_neg hge]
    refine ⟨?_, (hwritten₁.toExtends.trans hwritten₂.toExtends).trans hwritten₃.toExtends⟩
    exact ((hroom.resolve_left (by decide)).of_written hwritten₂).of_written hwritten₁

/-- A length that has room is written. -/
theorem exists_runs_packLength_true {w : BitRef} {n : Nat} (haligned : w.offset = 0)
    (hle : n ≤ asn64K) (hroom : w.HasRoom (lengthBits n)) :
    ∃ w₂, (packLength n true).Runs w () w₂ := by
  unfold packLength
  simp only [Bool.not_true, Bool.false_eq_true, if_false]
  rw [if_neg (Nat.not_lt.mpr hle)]
  unfold lengthBits at hroom
  split at hroom
  · next hsmall =>
    obtain ⟨w₂, hpack, -⟩ := runs_pack n (show 8 < 64 by decide) hroom
    exact ⟨w₂, (runs_alignBytes_of_aligned haligned).bind (by rw [if_pos hsmall]; exact hpack)⟩
  next hsmall =>
  obtain ⟨w₁, hfirst, hwritten₁⟩ :=
    runs_pack (if n < asn16K then 0b10 else 0b11) (show 2 < 64 by decide)
      (hroom.mono (by split <;> decide))
  split at hroom
  · next hlt =>
    rw [if_pos hlt] at hfirst
    obtain ⟨w₂, hsecond, -⟩ := runs_pack n (show 14 < 64 by decide)
      (hroom.of_extends hwritten₁.toExtends (by rw [hwritten₁.distance_eq]))
    refine ⟨w₂, (runs_alignBytes_of_aligned haligned).bind ?_⟩
    rw [if_neg hsmall, if_pos hlt]
    exact hfirst.bind hsecond
  · next hge =>
    rw [if_neg hge] at hfirst
    have hroom₁ : w₁.HasRoom 22 :=
      hroom.of_extends hwritten₁.toExtends (by rw [hwritten₁.distance_eq])
    obtain ⟨w₂, hsecond, hwritten₂⟩ := runs_pack (n / asn16K) (show 6 < 64 by decide)
      (hroom₁.mono (by decide))
    obtain ⟨w₃, hthird, -⟩ := runs_pack (n - n / asn16K * asn16K) (show 16 < 64 by decide)
      (hroom₁.of_extends hwritten₂.toExtends (by rw [hwritten₂.distance_eq]))
    refine ⟨w₃, (runs_alignBytes_of_aligned haligned).bind ?_⟩
    rw [if_neg hsmall, if_neg hge]
    exact hfirst.bind (hsecond.bind hthird)

theorem extends_of_runs_alignBytes {w w₁ : BitRef} (h : alignBytes.Runs w () w₁) :
    w.Extends w₁ := by
  obtain ⟨hdist, -, hbuf⟩ := of_runs_alignBytes h
  refine ⟨by rw [hbuf], ?_, fun i _ => by unfold bits; rw [hbuf]⟩
  rw [hdist]
  unfold alignUp
  omega

/-- The padding comes first. -/
theorem runs_packLength_true_iff {w w₁ w₂ : BitRef} {n : Nat} (halign : alignBytes.Runs w () w₁)
    (hzero : w₁.offset = 0) :
    (packLength n true).Runs w () w₂ ↔ (packLength n true).Runs w₁ () w₂ := by
  unfold packLength
  simp only [Bool.not_true, Bool.false_eq_true, if_false]
  split
  · exact iff_of_false not_runs_fail not_runs_fail
  · rw [runs_bind_iff halign, runs_bind_iff (runs_alignBytes_of_aligned hzero)]

theorem runs_unpackLength_true_iff {r r₁ r₂ : BitRef} {n : Nat} (halign : alignBytes.Runs r () r₁)
    (hzero : r₁.offset = 0) :
    (unpackLength true).Runs r n r₂ ↔ (unpackLength true).Runs r₁ n r₂ := by
  unfold unpackLength
  simp only [Bool.not_true, Bool.false_eq_true, if_false]
  rw [runs_bind_iff halign, runs_bind_iff (runs_alignBytes_of_aligned hzero)]

/-- What comes back is below 16384, and its padding was zero. -/
theorem fits_of_lengthRoundTrips {n : Nat} {w : BitRef} (hround : LengthRoundTrips n true w) :
    LengthFits n true w := by
  intro _ hle hroom
  have hoffset := w.offset_lt
  have hup : w.distance ≤ alignUp w.distance := by unfold alignUp; omega
  have hpad : w.HasRoom 1 ∨ w.offset = 0 :=
    .inl (hroom.mono (Nat.le_add_left_of_le (lengthBits_pos n)))
  have halign := runs_alignBytes hpad
  obtain ⟨w₁, hw₁⟩ : ∃ w₁, w₁ = w.advance (alignUp w.distance - w.distance) := ⟨_, rfl⟩
  rw [← hw₁] at halign
  obtain ⟨hdist, hzero, hbuf⟩ := of_runs_alignBytes halign
  have hroom₁ : w₁.HasRoom (lengthBits n) := by
    unfold HasRoom at hroom ⊢
    rw [hdist, hbuf]
    omega
  obtain ⟨w₂, hpack₁⟩ := exists_runs_packLength_true hzero hle hroom₁
  obtain ⟨-, -, hext⟩ := of_runs_packLength_true hzero hpack₁
  obtain ⟨hpadding, hread⟩ := hround w₂ ((runs_packLength_true_iff halign hzero).mpr hpack₁)
  refine ⟨?_, fun i hge hlt => ?_⟩
  · by_contra hge
    have hext₂ := (extends_of_runs_alignBytes halign).trans hext
    exact not_runs_unpackLength_long (Nat.le_of_not_lt hge) hzero hpack₁ (Extends.refl w₂)
      ((runs_unpackLength_true_iff (readFrom_runs_alignBytes hdist hext₂ hpad) hzero).mp
        (hread w₂ (Extends.refl w₂)))
  · have hbit := hpadding i hge hlt
    rw [hext.before i (by omega)] at hbit
    unfold bits at hbit ⊢
    rw [← hbuf]
    exact hbit

/-- A short length behind padding of zeros comes back. -/
theorem lengthRoundTrips_of_fits {n : Nat} {w : BitRef} (hfits : LengthFits n true w) :
    LengthRoundTrips n true w := by
  intro w₂ hpack
  have hoffset := w.offset_lt
  have hup : w.distance ≤ alignUp w.distance := by unfold alignUp; omega
  have halign : ∃ w₁, alignBytes.Runs w () w₁ := by
    unfold packLength at hpack
    simp only [Bool.not_true, Bool.false_eq_true, if_false] at hpack
    split at hpack
    · exact absurd hpack not_runs_fail
    · obtain ⟨_, w₁, halign, -⟩ := hpack.of_bind
      exact ⟨w₁, halign⟩
  obtain ⟨w₁, halign⟩ := halign
  obtain ⟨hdist, hzero, hbuf⟩ := of_runs_alignBytes halign
  have hpack₁ := (runs_packLength_true_iff halign hzero).mp hpack
  obtain ⟨hle, hroom, hext⟩ := of_runs_packLength_true hzero hpack₁
  have hroom' : w.HasRoom (alignUp w.distance - w.distance + lengthBits n) := by
    unfold HasRoom at hroom ⊢
    rw [hdist, hbuf] at hroom
    omega
  obtain ⟨hlt, hclean⟩ := hfits rfl hle hroom'
  refine ⟨fun i hge hi => ?_, fun w' hext' => ?_⟩
  · have hi' : i < alignUp w.distance := hi
    rw [hext.before i (by omega)]
    have hbit := hclean i hge hi'
    unfold bits at hbit ⊢
    rw [hbuf]
    exact hbit
  · rw [packLength_true hlt, runs_bind_iff (runs_alignBytes_of_aligned hzero)] at hpack₁
    have hread := @runs_unpackLength_written w₁ w₂ w' n true (fun _ => hzero) hpack₁ hext'
    have hext₁ := (extends_of_runs_alignBytes halign).trans (hext.trans hext')
    have hpad : w.HasRoom 1 ∨ w.offset = 0 :=
      .inl (hroom'.mono (Nat.le_add_left_of_le (lengthBits_pos n)))
    exact (runs_unpackLength_true_iff (readFrom_runs_alignBytes hdist hext₁ hpad) hzero).mpr
      hread.2.2.2

/-- A length without bounds is read back as it was written exactly when it is below 16384 and the
padding was zero already, or nothing is written. -/
theorem lengthRoundTrips_iff_fits (n : Nat) (aligned : Bool) (w : BitRef) :
    LengthRoundTrips n aligned w ↔ LengthFits n aligned w := by
  cases aligned
  · refine iff_of_true (fun w₁ hpack => ⟨?_, fun w' hext => ?_⟩) nofun
    · intro i hge hlt
      exact absurd hlt (Nat.not_lt.mpr hge)
    · exact (@runs_unpackLength_written w w₁ w' n false nofun hpack hext).2.2.2
  · exact ⟨fits_of_lengthRoundTrips, lengthRoundTrips_of_fits⟩

/-- The aligned variant writes the form for fragments, which is not read. -/
theorem not_lengthRoundTrips_fragment : ¬ LengthRoundTrips 16384 true (start [0, 0, 0]) := by
  intro h
  have hroom : (start [0, 0, 0]).HasRoom (lengthBits 16384) := Nat.le_refl 24
  obtain ⟨w₂, hpack⟩ := exists_runs_packLength_true rfl (by decide) hroom
  exact not_runs_unpackLength_long (Nat.le_refl 16384) rfl hpack (Extends.refl w₂)
    ((h w₂ hpack).2 w₂ (Extends.refl w₂))

end Odss.Asn1
