import Odss.Mac.Subframe

/-!
# `Odss.Phy.Sliv`: resource indication values

One number stands for a start `s` and a length `l` inside `n` places. It spells the pair
directly as `n (l - 1) + s`, or mirrored as `n (n - l + 1) + (n - 1 - s)`, and the encoders take
the direct spelling while `l - 1 ≤ n / 2`. `srsran_ra_type2_to_riv` and
`srsran_sliv_from_s_and_l` compute it in 32 bits.

* `indication_le`: the value is the smaller one of the two spellings, so a value that wraps
  around is neither spelling.
* `fromRiv_toRiv_iff` and `slivTo_slivFrom_iff`: when the decoders give the pair back.
-/

set_option linter.all false

namespace Odss.Phy

open Odss.Mac Odss.Mac.Subframe

/-- `srsran_sliv_to_s_and_l`, with the start before the length -/
def slivToSAndL (n v : UInt32) : UInt32 × UInt32 :=
  let low := v % n
  let high := v / n
  if high + 1 + low ≤ n then (low, high + 1) else (n - 1 - low, n - high + 1)

/-- `srsran_sliv_from_s_and_l` -/
def slivFromSAndL (n s l : UInt32) : UInt32 :=
  if l - 1 ≤ n / 2 then n * (l - 1) + s else n * (n - l + 1) + (n - 1 - s)

/-! ### The two spellings -/

/-- The direct spelling of the length `l` from the start `s`. -/
def directSpelling (n s l : Nat) : Nat := n * (l - 1) + s

/-- The spelling from the other end. -/
def mirroredSpelling (n s l : Nat) : Nat := n * (n - l + 1) + (n - 1 - s)

/-- The indication value, in unbounded arithmetic. -/
def indication (n s l : Nat) : Nat :=
  if l - 1 ≤ n / 2 then directSpelling n s l else mirroredSpelling n s l

variable {n s l : Nat}

/-- The encoders take the smaller spelling. -/
theorem indication_le (hl : 1 ≤ l) (hsl : s + l ≤ n) :
    indication n s l ≤ directSpelling n s l ∧ indication n s l ≤ mirroredSpelling n s l := by
  obtain ⟨k, rfl⟩ : ∃ k, l = k + 1 := ⟨l - 1, by omega⟩
  obtain ⟨m, rfl⟩ : ∃ m, n = s + (k + 1) + m := ⟨n - (s + (k + 1)), by omega⟩
  have hrest : s + (k + 1) + m - (k + 1) + 1 = s + m + 1 := by omega
  have hlast : s + (k + 1) + m - 1 - s = k + m := by omega
  simp only [indication, directSpelling, mirroredSpelling, hrest, hlast, Nat.add_sub_cancel]
  by_cases hshort : k ≤ (s + (k + 1) + m) / 2
  · rw [if_pos hshort]
    refine ⟨Nat.le_refl _, ?_⟩
    rcases Nat.lt_or_ge k (s + m + 1) with hlt | hge
    · -- one more row is worth more than any start
      have hrow := Nat.mul_le_mul_left (s + (k + 1) + m) (show k + 1 ≤ s + m + 1 from hlt)
      rw [Nat.mul_add] at hrow
      omega
    · have heq : k = s + m + 1 := by omega
      rw [← heq]
      omega
  · rw [if_neg hshort]
    refine ⟨?_, Nat.le_refl _⟩
    have hrow := Nat.mul_le_mul_left (s + (k + 1) + m) (show s + m + 1 + 1 ≤ k by omega)
    rw [Nat.mul_add] at hrow
    omega

theorem directSpelling_div (hn : s < n) : directSpelling n s l / n = l - 1 := by
  rw [directSpelling, Nat.mul_add_div (by omega), Nat.div_eq_of_lt hn, Nat.add_zero]

theorem directSpelling_mod (hn : s < n) : directSpelling n s l % n = s := by
  rw [directSpelling, Nat.mul_add_mod, Nat.mod_eq_of_lt hn]

theorem mirroredSpelling_div (hn : s < n) : mirroredSpelling n s l / n = n - l + 1 := by
  rw [mirroredSpelling, Nat.mul_add_div (by omega), Nat.div_eq_of_lt (by omega), Nat.add_zero]

theorem mirroredSpelling_mod (hn : s < n) : mirroredSpelling n s l % n = n - 1 - s := by
  rw [mirroredSpelling, Nat.mul_add_mod, Nat.mod_eq_of_lt (by omega)]

/-- A number with the quotient and the remainder of a spelling is this spelling. -/
theorem eq_directSpelling {v : Nat} (hdiv : v / n = l - 1) (hmod : v % n = s) :
    v = directSpelling n s l := by
  rw [directSpelling, ← hdiv, ← hmod, Nat.div_add_mod]

theorem eq_mirroredSpelling {v : Nat} (hdiv : v / n = n - l + 1) (hmod : v % n = n - 1 - s) :
    v = mirroredSpelling n s l := by
  rw [mirroredSpelling, ← hdiv, ← hmod, Nat.div_add_mod]

/-! ### In 32 bits -/

/-- What the places of a start and a length are: they are inside the `V` of `N` places. -/
structure Placed (N V S L : UInt32) : Prop where
  one_le : 1 ≤ L.toNat
  inside : S.toNat + L.toNat ≤ V.toNat
  le : V.toNat ≤ N.toNat

section Encode

variable {N V S L : UInt32}

theorem toNat_pred (h : 1 ≤ L.toNat) : (L - 1).toNat = L.toNat - 1 := by
  have hle : 1 ≤ L := UInt32.le_iff_toNat_le.mpr h
  rw [UInt32.toNat_sub_of_le _ _ hle]
  rfl

theorem Placed.start_lt (h : Placed N V S L) : S.toNat < N.toNat := by
  have := h.one_le
  have := h.inside
  have := h.le
  omega

/-- The factor of the mirrored spelling -/
theorem Placed.toNat_rest (h : Placed N V S L) :
    (N - L + 1).toNat = N.toNat - L.toNat + 1 := by
  have hl := h.one_le
  have hin := h.inside
  have hle := h.le
  have hN := N.toNat_lt
  rw [UInt32.toNat_add, UInt32.toNat_sub_of_le _ _ (UInt32.le_iff_toNat_le.mpr (by omega))]
  exact Nat.mod_eq_of_lt (by simp only [UInt32.toNat_one]; omega)

theorem Placed.toNat_last (h : Placed N V S L) :
    (N - 1 - S).toNat = N.toNat - 1 - S.toNat := by
  have hlt := h.start_lt
  have hpred : (N - 1).toNat = N.toNat - 1 := toNat_pred (by omega)
  rw [UInt32.toNat_sub_of_le _ _ (UInt32.le_iff_toNat_le.mpr (by omega)), hpred]

/-- The SLIV encoder computes the indication value, and wraps around. -/
theorem toNat_slivFromSAndL (h : Placed N V S L) :
    (slivFromSAndL N S L).toNat = indication N.toNat S.toNat L.toNat % 2 ^ 32 := by
  have hshort : (L - 1 ≤ N / 2) ↔ (L.toNat - 1 ≤ N.toNat / 2) := by
    rw [UInt32.le_iff_toNat_le, toNat_pred h.one_le, UInt32.toNat_div]
    rfl
  by_cases hc : L - 1 ≤ N / 2
  · rw [slivFromSAndL, if_pos hc, indication, if_pos (hshort.mp hc), directSpelling,
      UInt32.toNat_add, UInt32.toNat_mul, toNat_pred h.one_le, Nat.mod_add_mod]
  · rw [slivFromSAndL, if_neg hc, indication, if_neg (mt hshort.mpr hc), mirroredSpelling,
      UInt32.toNat_add, UInt32.toNat_mul, h.toNat_rest, h.toNat_last, Nat.mod_add_mod]

/-- Both encoders are the same function. -/
theorem raType2ToRiv_eq (L S N : UInt32) : raType2ToRiv L S N = slivFromSAndL N S L := by
  unfold raType2ToRiv slivFromSAndL
  split
  · rfl
  · rw [UInt32.sub_eq_add_neg, UInt32.sub_eq_add_neg, UInt32.sub_eq_add_neg (N - 1) S,
      UInt32.sub_eq_add_neg N 1, UInt32.add_assoc, UInt32.add_assoc, UInt32.add_assoc]

end Encode

/-! ### The decoders -/

section Decode

variable {N V S L v : UInt32}

/-- What the second pair of a decoder is says that the value is the mirrored spelling. -/
theorem Placed.eq_mirrored (h : Placed N V S L) (hlen : N - v / N + 1 = L)
    (hstart : N - 1 - v % N = S) :
    v.toNat = mirroredSpelling N.toNat S.toNat L.toNat := by
  have hN := N.toNat_lt
  have hlt := h.start_lt
  have hl := h.one_le
  have hin := h.inside
  have hle := h.le
  have hdiv : v / N = N - L + 1 := by
    grind
  have hmod : v % N = N - 1 - S := by
    grind
  refine eq_mirroredSpelling ?_ ?_
  · rw [← UInt32.toNat_div, hdiv, h.toNat_rest]
  · rw [← UInt32.toNat_mod, hmod, h.toNat_last]

theorem Placed.eq_direct (h : Placed N V S L) (hlen : v / N + 1 = L) (hstart : v % N = S) :
    v.toNat = directSpelling N.toNat S.toNat L.toNat := by
  refine eq_directSpelling ?_ ?_
  · rw [← UInt32.toNat_div, ← toNat_pred h.one_le]
    grind
  · rw [← UInt32.toNat_mod, hstart]

/-- The quotient and the remainder of the direct spelling. -/
theorem Placed.of_direct (h : Placed N V S L)
    (hv : v.toNat = directSpelling N.toNat S.toNat L.toNat) : v / N + 1 = L ∧ v % N = S := by
  have hdiv : v / N = L - 1 := by
    rw [← UInt32.toNat_inj, UInt32.toNat_div, hv, directSpelling_div h.start_lt,
      toNat_pred h.one_le]
  refine ⟨by grind, ?_⟩
  rw [← UInt32.toNat_inj, UInt32.toNat_mod, hv, directSpelling_mod h.start_lt]

/-- The quotient and the remainder of the mirrored spelling. -/
theorem Placed.of_mirrored (h : Placed N V S L)
    (hv : v.toNat = mirroredSpelling N.toNat S.toNat L.toNat) :
    v / N = N - L + 1 ∧ v % N = N - 1 - S := by
  constructor
  · rw [← UInt32.toNat_inj, UInt32.toNat_div, hv, mirroredSpelling_div h.start_lt, h.toNat_rest]
  · rw [← UInt32.toNat_inj, UInt32.toNat_mod, hv, mirroredSpelling_mod h.start_lt, h.toNat_last]

/-- Neither decoder gives a pair for a value that is not one of its two spellings. -/
theorem Placed.spelled_of_fromRiv (h : Placed N V S L) (hdec : raType2FromRiv v N V = (L, S)) :
    v.toNat = directSpelling N.toNat S.toNat L.toNat ∨
      v.toNat = mirroredSpelling N.toNat S.toNat L.toNat := by
  simp only [raType2FromRiv] at hdec
  split at hdec
  · obtain ⟨hlen, hstart⟩ := Prod.mk.inj hdec
    exact .inr (h.eq_mirrored hlen (by grind))
  · obtain ⟨hlen, hstart⟩ := Prod.mk.inj hdec
    exact .inl (h.eq_direct hlen hstart)

theorem Placed.spelled_of_sliv (h : Placed N V S L) (hdec : slivToSAndL N v = (S, L)) :
    v.toNat = directSpelling N.toNat S.toNat L.toNat ∨
      v.toNat = mirroredSpelling N.toNat S.toNat L.toNat := by
  simp only [slivToSAndL] at hdec
  split at hdec
  · obtain ⟨hstart, hlen⟩ := Prod.mk.inj hdec
    exact .inl (h.eq_direct hlen hstart)
  · obtain ⟨hstart, hlen⟩ := Prod.mk.inj hdec
    exact .inr (h.eq_mirrored hlen hstart)

/-- The direct spelling is decoded. -/
theorem Placed.fromRiv_direct (h : Placed N V S L)
    (hv : v.toNat = directSpelling N.toNat S.toNat L.toNat) : raType2FromRiv v N V = (L, S) := by
  obtain ⟨hlen, hstart⟩ := h.of_direct hv
  have hin := h.inside
  have hle : S ≤ V := UInt32.le_iff_toNat_le.mpr (by omega)
  have hroom : ¬ V - S < L := by
    rw [UInt32.lt_iff_toNat_lt, UInt32.toNat_sub_of_le _ _ hle]
    omega
  simp only [raType2FromRiv, hlen, hstart]
  rw [if_neg hroom]

/-- A mirrored spelling that does not wrap around leaves the sums of the decoders far from it. -/
theorem Placed.le_of_mirrored (h : Placed N V S L)
    (hv : v.toNat = mirroredSpelling N.toNat S.toNat L.toNat) : N.toNat ≤ 2 ^ 31 := by
  have hin := h.inside
  have hle := h.le
  have hv32 := v.toNat_lt
  rw [hv, mirroredSpelling] at hv32
  rcases Nat.eq_or_lt_of_le (show L.toNat ≤ N.toNat by omega) with hall | hless
  · rw [hall, Nat.sub_self] at hv32
    omega
  · have hrows : N.toNat * 2 ≤ N.toNat * (N.toNat - L.toNat + 1) :=
      Nat.mul_le_mul_left _ (by omega)
    omega

/-- The mirrored spelling of a long run is recognised when the mirrored start is one of the `V`
places. Otherwise the room behind this start wraps around to almost all numbers. -/
theorem Placed.fromRiv_mirrored_iff (h : Placed N V S L) (hlong : N.toNat / 2 < L.toNat - 1)
    (hv : v.toNat = mirroredSpelling N.toNat S.toNat L.toNat) :
    raType2FromRiv v N V = (L, S) ↔ N.toNat ≤ V.toNat + S.toNat + 1 := by
  obtain ⟨hdiv, hmod⟩ := h.of_mirrored hv
  have hin := h.inside
  have hle := h.le
  have hlt := h.start_lt
  have hbound := h.le_of_mirrored hv
  have hlen2 : (v / N + 1).toNat = N.toNat - L.toNat + 2 := by
    rw [UInt32.toNat_add, hdiv, h.toNat_rest]
    exact Nat.mod_eq_of_lt (by simp only [UInt32.toNat_one]; omega)
  have hstart2 : (v % N).toNat = N.toNat - 1 - S.toNat := by rw [hmod, h.toNat_last]
  rcases Nat.lt_or_ge V.toNat (N.toNat - 1 - S.toNat) with hout | hinner
  · -- the subtraction wraps around
    have hsub : (V - v % N).toNat = 2 ^ 32 - (N.toNat - 1 - S.toNat) + V.toNat := by
      rw [UInt32.toNat_sub, hstart2]
      exact Nat.mod_eq_of_lt (by omega)
    have hroom : ¬ V - v % N < v / N + 1 := by
      rw [UInt32.lt_iff_toNat_lt, hsub, hlen2]
      omega
    refine iff_of_false (fun hdec => ?_) (by omega)
    simp only [raType2FromRiv] at hdec
    rw [if_neg hroom] at hdec
    have hlen := congrArg UInt32.toNat (Prod.mk.inj hdec).1
    rw [hlen2] at hlen
    omega
  · have hsub : (V - v % N).toNat = V.toNat - (N.toNat - 1 - S.toNat) := by
      rw [UInt32.toNat_sub_of_le _ _ (UInt32.le_iff_toNat_le.mpr (by omega)), hstart2]
    have hroom : V - v % N < v / N + 1 := by
      rw [UInt32.lt_iff_toNat_lt, hsub, hlen2]
      omega
    refine iff_of_true ?_ (by omega)
    simp only [raType2FromRiv]
    rw [if_pos hroom, hdiv, hmod]
    exact Prod.ext (by grind) (by grind)

/-- `srsran_sliv_to_s_and_l` recognises both spellings. -/
theorem Placed.sliv_direct (h : Placed N V S L)
    (hv : v.toNat = directSpelling N.toNat S.toNat L.toNat) : slivToSAndL N v = (S, L) := by
  obtain ⟨hlen, hstart⟩ := h.of_direct hv
  have hin := h.inside
  have hle := h.le
  have hN := N.toNat_lt
  have hfit : L + S ≤ N := by
    rw [UInt32.le_iff_toNat_le, UInt32.toNat_add, Nat.mod_eq_of_lt (by omega)]
    omega
  simp only [slivToSAndL, hlen, hstart]
  rw [if_pos hfit]

theorem Placed.sliv_mirrored (h : Placed N V S L) (hlong : N.toNat / 2 < L.toNat - 1)
    (hv : v.toNat = mirroredSpelling N.toNat S.toNat L.toNat) : slivToSAndL N v = (S, L) := by
  obtain ⟨hdiv, hmod⟩ := h.of_mirrored hv
  have hin := h.inside
  have hle := h.le
  have hbound := h.le_of_mirrored hv
  have hlen2 : (v / N + 1 + v % N).toNat = N.toNat - L.toNat + 2 + (N.toNat - 1 - S.toNat) := by
    rw [UInt32.toNat_add, UInt32.toNat_add, hdiv, hmod, h.toNat_rest, h.toNat_last,
      UInt32.toNat_one, Nat.mod_add_mod]
    exact Nat.mod_eq_of_lt (by omega)
  have hroom : ¬ v / N + 1 + v % N ≤ N := by
    rw [UInt32.le_iff_toNat_le, hlen2]
    omega
  simp only [slivToSAndL]
  rw [if_neg hroom, hdiv, hmod]
  exact Prod.ext (by grind) (by grind)

/-- A value below `2 ^ 32` is what the encoders give. -/
theorem Placed.toNat_encode (h : Placed N V S L)
    (hfit : indication N.toNat S.toNat L.toNat < 2 ^ 32) :
    (slivFromSAndL N S L).toNat = indication N.toNat S.toNat L.toNat := by
  rw [toNat_slivFromSAndL h, Nat.mod_eq_of_lt hfit]

/-- A value that a decoder takes back to its pair has not wrapped around. -/
theorem Placed.fits_of_spelled (h : Placed N V S L)
    (hv : v.toNat = directSpelling N.toNat S.toNat L.toNat ∨
      v.toNat = mirroredSpelling N.toNat S.toNat L.toNat) :
    indication N.toNat S.toNat L.toNat < 2 ^ 32 := by
  have hin := h.inside
  have hle := h.le
  have hv32 := v.toNat_lt
  obtain ⟨hdirect, hmirrored⟩ := indication_le h.one_le
    (show S.toNat + L.toNat ≤ N.toNat by omega)
  rcases hv with hv | hv <;> omega

/-- When the pair of a type 2 allocation comes back. -/
theorem Placed.fromRiv_toRiv_iff (h : Placed N V S L) :
    raType2FromRiv (raType2ToRiv L S N) N V = (L, S) ↔
      indication N.toNat S.toNat L.toNat < 2 ^ 32 ∧
        (L.toNat - 1 ≤ N.toNat / 2 ∨ N.toNat ≤ V.toNat + S.toNat + 1) := by
  rw [raType2ToRiv_eq]
  by_cases hfit : indication N.toNat S.toNat L.toNat < 2 ^ 32
  · have hv := h.toNat_encode hfit
    rw [and_iff_right hfit]
    rcases Nat.lt_or_ge (N.toNat / 2) (L.toNat - 1) with hlong | hshort
    · rw [indication, if_neg (by omega)] at hv
      rw [h.fromRiv_mirrored_iff hlong hv, or_iff_right (by omega)]
    · rw [indication, if_pos hshort] at hv
      exact iff_of_true (h.fromRiv_direct hv) (.inl hshort)
  · exact iff_of_false (fun hdec => hfit (h.fits_of_spelled (h.spelled_of_fromRiv hdec)))
      (fun hcond => hfit hcond.1)

/-- When the pair of a start and length indication comes back. -/
theorem Placed.slivTo_slivFrom_iff (h : Placed N V S L) :
    slivToSAndL N (slivFromSAndL N S L) = (S, L) ↔
      indication N.toNat S.toNat L.toNat < 2 ^ 32 := by
  refine ⟨fun hdec => h.fits_of_spelled (h.spelled_of_sliv hdec), fun hfit => ?_⟩
  have hv := h.toNat_encode hfit
  rcases Nat.lt_or_ge (N.toNat / 2) (L.toNat - 1) with hlong | hshort
  · rw [indication, if_neg (by omega)] at hv
    exact h.sliv_mirrored hlong hv
  · rw [indication, if_pos hshort] at hv
    exact h.sliv_direct hv

end Decode

/-- **When resource indication values are decodable.** The value has to fit 32 bits. With fewer
virtual than physical resource blocks the type 2 decoder subtracts the start from their number, so
a long run comes back only if its mirrored start is below this number too. -/
theorem indications_decodable_iff (N : UInt32) :
    (∀ V S L, Placed N V S L →
      (raType2FromRiv (raType2ToRiv L S N) N V = (L, S) ↔
        indication N.toNat S.toNat L.toNat < 2 ^ 32 ∧
          (L.toNat - 1 ≤ N.toNat / 2 ∨ N.toNat ≤ V.toNat + S.toNat + 1))) ∧
    (∀ S L, Placed N N S L →
      (slivToSAndL N (slivFromSAndL N S L) = (S, L) ↔
        indication N.toNat S.toNat L.toNat < 2 ^ 32)) :=
  ⟨fun _ _ _ h => h.fromRiv_toRiv_iff, fun _ _ h => h.slivTo_slivFrom_iff⟩

theorem indications_decodable_fifty :
    raType2FromRiv (raType2ToRiv 27 19 50) 50 46 = (27, 19) ∧
      slivToSAndL 50 (slivFromSAndL 50 0 27) = (0, 27) :=
  ⟨((indications_decodable_iff 50).1 46 19 27 ⟨by decide, by decide, by decide⟩).mpr
      ⟨by decide, by decide⟩,
    ((indications_decodable_iff 50).2 0 27 ⟨by decide, by decide, by decide⟩).mpr (by decide)⟩

/-- 27 distributed blocks from the first one on, of 46 virtual and 50 physical ones. -/
theorem not_indications_decodable :
    ¬ ((∀ N V S L, Placed N V S L → raType2FromRiv (raType2ToRiv L S N) N V = (L, S)) ∧
      ∀ N S L, Placed N N S L → slivToSAndL N (slivFromSAndL N S L) = (S, L)) := fun h =>
  absurd (h.1 50 46 0 27 ⟨by decide, by decide, by decide⟩) (by decide)

end Odss.Phy
