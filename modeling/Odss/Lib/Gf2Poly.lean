import Mathlib.Tactic
import Mathlib.Data.Nat.Bitwise
import Mathlib.Data.Nat.Size

/-!
# `Odss.Lib.Gf2Poly`: numbers as polynomials over the field with two elements

The bits of a number are the coefficients of a polynomial: `toPoly`. The bitwise operations are
those of the polynomials, and `IsRem g k p r` says that the number `r` of `k` bits is the remainder
of `p` by the polynomial of `g`.

* `IsRem.double`: the step of a division, one bit to the left.
* `IsRem.halve`: a step back, where the lowest bit of `g` is set.
* `IsRem.eq_modByMonic`: the remainder is that of the division by a monic polynomial.
-/

set_option linter.all false

open Polynomial

namespace Odss.Lib.Gf2

/-- The polynomial whose coefficients are the bits of `n` -/
noncomputable def toPoly (n : Nat) : (ZMod 2)[X] :=
  ∑ i ∈ Finset.range n.size, if n.testBit i then X ^ i else 0

theorem coeff_toPoly (n i : Nat) : (toPoly n).coeff i = if n.testBit i then 1 else 0 := by
  have hterm (j : Nat) : (if n.testBit j then (X : (ZMod 2)[X]) ^ j else 0).coeff i =
      if j = i then if n.testBit i then 1 else 0 else 0 := by
    by_cases hj : j = i
    · subst hj
      split <;> simp
    · rw [if_neg hj]
      split
      · rw [coeff_X_pow, if_neg (Ne.symm hj)]
      · rw [coeff_zero]
  rw [toPoly, finsetSum_coeff, Finset.sum_congr rfl fun j _ => hterm j, Finset.sum_ite_eq']
  split
  · rfl
  · rename_i hi
    have hlt : n < 2 ^ i := Nat.size_le.mp (Nat.not_lt.mp fun h => hi (Finset.mem_range.mpr h))
    rw [Nat.testBit_lt_two_pow hlt, if_neg Bool.false_ne_true]

@[simp] theorem toPoly_zero : toPoly 0 = 0 := by
  ext i
  simp [coeff_toPoly]

theorem toPoly_xor (a b : Nat) : toPoly (a ^^^ b) = toPoly a + toPoly b := by
  ext i
  rw [coeff_add, coeff_toPoly, coeff_toPoly, coeff_toPoly, Nat.testBit_xor]
  cases a.testBit i <;> cases b.testBit i <;> decide

theorem toPoly_shiftLeft (a k : Nat) : toPoly (a <<< k) = toPoly a * X ^ k := by
  ext i
  rw [coeff_mul_X_pow', coeff_toPoly, coeff_toPoly, Nat.testBit_shiftLeft]
  by_cases hk : k ≤ i
  · simp [hk]
  · simp [hk]

theorem toPoly_shiftLeft_add {a b k : Nat} (hb : b < 2 ^ k) :
    toPoly (a <<< k + b) = toPoly a * X ^ k + toPoly b := by
  have hxor : a <<< k + b = a <<< k ^^^ b := by
    rw [Nat.shiftLeft_add_eq_or_of_lt hb]
    refine Nat.eq_of_testBit_eq fun i => ?_
    rw [Nat.testBit_or, Nat.testBit_xor, Nat.testBit_shiftLeft]
    by_cases hi : i < k
    · simp [show ¬ k ≤ i by omega]
    · rw [Nat.testBit_lt_two_pow (hb.trans_le (Nat.pow_le_pow_right (by decide)
        (Nat.not_lt.mp hi)))]
      simp
  rw [hxor, toPoly_xor, toPoly_shiftLeft]

theorem degree_toPoly_lt {n k : Nat} (h : n < 2 ^ k) : (toPoly n).degree < k := by
  rw [degree_lt_iff_coeff_zero]
  intro i hi
  rw [coeff_toPoly, Nat.testBit_lt_two_pow (h.trans_le (Nat.pow_le_pow_right (by decide) hi)),
    if_neg Bool.false_ne_true]

theorem toPoly_injective : Function.Injective toPoly := by
  intro a b h
  refine Nat.eq_of_testBit_eq fun i => ?_
  have hi := congrArg (fun p => p.coeff i) h
  simp only [coeff_toPoly] at hi
  revert hi
  cases a.testBit i <;> cases b.testBit i <;> decide

/-- A number of `k + 1` bits with the highest one set -/
theorem monic_toPoly {g k : Nat} (hlt : g < 2 ^ (k + 1)) (hbit : g.testBit k = true) :
    (toPoly g).Monic ∧ (toPoly g).degree = k := by
  have hcoeff : (toPoly g).coeff k = 1 := by rw [coeff_toPoly, if_pos hbit]
  have hdeg : (toPoly g).degree ≤ k := by
    rw [degree_le_iff_coeff_zero]
    intro i hi
    have hi : k + 1 ≤ i := by exact_mod_cast hi
    rw [coeff_toPoly, Nat.testBit_lt_two_pow (hlt.trans_le (Nat.pow_le_pow_right (by decide) hi)),
      if_neg Bool.false_ne_true]
  refine ⟨monic_of_degree_le k hdeg hcoeff, le_antisymm hdeg ?_⟩
  exact le_degree_of_ne_zero (by rw [hcoeff]; decide)

/-- With the lowest bit set, the polynomial has no factor `X`. -/
theorem isCoprime_X_pow {g : Nat} (hbit : g.testBit 0 = true) (k : Nat) :
    IsCoprime (toPoly g) (X ^ k) := by
  refine IsCoprime.pow_right ?_
  obtain ⟨q, hq⟩ : X ∣ toPoly g - 1 := by
    rw [X_dvd_iff, coeff_sub, coeff_toPoly, if_pos hbit, coeff_one_zero, sub_self]
  exact ⟨1, -q, by rw [one_mul, neg_mul, mul_comm q X, ← hq]; ring⟩

/-! ### Remainders -/

/-- The number `r` of `k` bits is the remainder of `p` by the polynomial of `g`. -/
structure IsRem (g k : Nat) (p : (ZMod 2)[X]) (r : Nat) : Prop where
  lt : r < 2 ^ k
  dvd : toPoly g ∣ p - toPoly r

variable {g k r : Nat} {p q : (ZMod 2)[X]}

/-- The step of a division by `g`, one bit to the left -/
def double (g k r : Nat) : Nat := if r.testBit (k - 1) then r <<< 1 ^^^ g else r <<< 1

theorem IsRem.eq_modByMonic (h : IsRem g k p r) (hlt : g < 2 ^ (k + 1))
    (hbit : g.testBit k = true) : toPoly r = p %ₘ toPoly g := by
  obtain ⟨hmonic, hdeg⟩ := monic_toPoly hlt hbit
  obtain ⟨c, hc⟩ := h.dvd
  refine ((div_modByMonic_unique c (toPoly r) hmonic ⟨?_, ?_⟩).2).symm
  · rw [← hc]
    ring
  · rw [hdeg]
    exact degree_toPoly_lt h.lt

theorem IsRem.unique {s : Nat} (hr : IsRem g k p r) (hs : IsRem g k p s) (hlt : g < 2 ^ (k + 1))
    (hbit : g.testBit k = true) : r = s :=
  toPoly_injective ((hr.eq_modByMonic hlt hbit).trans (hs.eq_modByMonic hlt hbit).symm)

theorem isRem_self (h : r < 2 ^ k) : IsRem g k (toPoly r) r :=
  ⟨h, by rw [sub_self]; exact dvd_zero _⟩

theorem IsRem.add {s : Nat} (hr : IsRem g k p r) (hs : IsRem g k q s) :
    IsRem g k (p + q) (r ^^^ s) := by
  refine ⟨Nat.xor_lt_two_pow hr.lt hs.lt, ?_⟩
  rw [toPoly_xor, add_sub_add_comm]
  exact dvd_add hr.dvd hs.dvd

theorem IsRem.congr (h : IsRem g k p r) (hpq : toPoly g ∣ q - p) : IsRem g k q r := by
  refine ⟨h.lt, ?_⟩
  have := dvd_add hpq h.dvd
  rwa [sub_add_sub_cancel] at this

theorem IsRem.double (h : IsRem g (k + 1) p r) (hlt : g < 2 ^ (k + 2))
    (hbit : g.testBit (k + 1) = true) : IsRem g (k + 1) (p * X) (double g (k + 1) r) := by
  have hmul : toPoly g ∣ p * X - toPoly (r <<< 1) := by
    rw [toPoly_shiftLeft, pow_one, ← sub_mul]
    exact h.dvd.mul_right X
  have hsmall (n : Nat) (hn : n < 2 ^ (k + 2)) (hb : n.testBit (k + 1) = false) :
      n < 2 ^ (k + 1) := by
    refine Nat.lt_pow_two_of_testBit n fun i hi => ?_
    rcases Nat.eq_or_lt_of_le hi with rfl | hi
    · exact hb
    · exact Nat.testBit_lt_two_pow (hn.trans_le (Nat.pow_le_pow_right (by decide) hi))
  have hr : r <<< 1 < 2 ^ (k + 2) := by
    have := h.lt
    rw [Nat.shiftLeft_eq, pow_succ 2 (k + 1)]
    omega
  have htop : (r <<< 1).testBit (k + 1) = r.testBit k := by simp [Nat.testBit_shiftLeft]
  rw [Gf2.double, Nat.add_sub_cancel]
  split
  · rename_i hk
    refine ⟨hsmall _ (Nat.xor_lt_two_pow hr hlt) ?_, ?_⟩
    · rw [Nat.testBit_xor, htop, hk, hbit]
      rfl
    · rw [toPoly_xor, ← sub_sub]
      exact dvd_sub hmul (dvd_refl _)
  · rename_i hk
    exact ⟨hsmall _ hr (by rw [htop]; exact Bool.eq_false_iff.mpr hk), hmul⟩

/-- The remainder by a multiple of `g` that is shifted to the left -/
theorem IsRem.shiftRight {n : Nat} (h : IsRem (g <<< n) (k + n) (p * X ^ n) r) :
    IsRem g k p (r >>> n) := by
  obtain ⟨c, hc⟩ := h.dvd
  rw [toPoly_shiftLeft] at hc
  have hr : toPoly r = (p - toPoly g * c) * X ^ n := by
    rw [← sub_sub_cancel (p * X ^ n) (toPoly r), hc]
    ring
  have hlow : r >>> n <<< n = r := by
    refine Nat.eq_of_testBit_eq fun i => ?_
    rw [Nat.testBit_shiftLeft, Nat.testBit_shiftRight]
    by_cases hi : n ≤ i
    · simp [hi]
    · have hcoeff := congrArg (fun q => q.coeff i) hr
      simp only [coeff_toPoly, coeff_mul_X_pow', if_neg hi] at hcoeff
      cases hbit : r.testBit i with
      | true =>
        rw [hbit, if_pos rfl] at hcoeff
        exact absurd hcoeff one_ne_zero
      | false => simp [hi]
  have hshift := toPoly_shiftLeft (r >>> n) n
  rw [hlow, hr] at hshift
  have hcancel := (isRegular_X_pow n).right hshift
  refine ⟨?_, c, by rw [← hcancel]; ring⟩
  rw [Nat.shiftRight_eq_div_pow]
  exact Nat.div_lt_of_lt_mul (by rw [← pow_add, Nat.add_comm n k]; exact h.lt)

/-- A step back of the division, one bit to the right -/
def halve (g r : Nat) : Nat := if r.testBit 0 then (r ^^^ g) >>> 1 else r >>> 1

theorem shiftRight_shiftLeft_one {n : Nat} (h : n.testBit 0 = false) : n >>> 1 <<< 1 = n := by
  rw [Nat.testBit_zero, decide_eq_false_iff_not] at h
  rw [Nat.shiftRight_eq_div_pow, Nat.shiftLeft_eq]
  omega

theorem IsRem.halve (h : IsRem g k (p * X) r) (hlt : g < 2 ^ (k + 1))
    (hlow : g.testBit 0 = true) : IsRem g k p (halve g r) := by
  have hpow : 2 ^ (k + 1) = 2 * 2 ^ k := by rw [pow_succ, Nat.mul_comm]
  have hcancel (n : Nat) (hn : n.testBit 0 = false) (hdvd : toPoly g ∣ p * X - toPoly n) :
      toPoly g ∣ p - toPoly (n >>> 1) := by
    have hX := toPoly_shiftLeft (n >>> 1) 1
    rw [shiftRight_shiftLeft_one hn, pow_one] at hX
    rw [hX, ← sub_mul] at hdvd
    exact (pow_one (X : (ZMod 2)[X]) ▸ isCoprime_X_pow hlow 1).dvd_of_dvd_mul_right hdvd
  rw [Gf2.halve]
  split
  · rename_i hr
    refine ⟨?_, hcancel _ ?_ ?_⟩
    · have hxor : r ^^^ g < 2 ^ (k + 1) :=
        Nat.xor_lt_two_pow (by have := h.lt; omega) hlt
      rw [Nat.shiftRight_eq_div_pow]
      omega
    · rw [Nat.testBit_xor, hr, hlow]
      rfl
    · rw [toPoly_xor, ← sub_sub]
      exact dvd_sub h.dvd (dvd_refl _)
  · rename_i hr
    refine ⟨?_, hcancel _ (Bool.eq_false_iff.mpr hr) h.dvd⟩
    have := h.lt
    rw [Nat.shiftRight_eq_div_pow]
    omega

end Odss.Lib.Gf2
