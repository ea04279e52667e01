import Mathlib.Tactic

/-!
# `Odss.Lib.CyclicDist`: distances on a cycle of numbers

Protocols count sequence numbers modulo `m` and compare them by their distance from a base,
the lower edge of a window. `cycDist m b x` is the number of steps from `b` up to `x`.

* `cycDist_succ` and `cycDist_succ_base` are the steps of the number and of the base.
* `cycDist_inj` says that the distance determines the number.
* `cycDist_base_add` is the move of the base by several steps.
-/

set_option linter.all false

namespace Odss.Lib

/-- The distance from `b` up to `x` on the cycle of the numbers below `m`. -/
def cycDist (m b x : Nat) : Nat := (x + m - b) % m

variable {m b x y : Nat}

theorem cycDist_of_le (hx : x < m) (h : b ≤ x) : cycDist m b x = x - b := by
  have hsub : x + m - b = x - b + m := by omega
  rw [cycDist, hsub, Nat.add_mod_right, Nat.mod_eq_of_lt (by omega)]

theorem cycDist_of_lt (hb : b < m) (h : x < b) : cycDist m b x = x + m - b := by
  rw [cycDist, Nat.mod_eq_of_lt (by omega)]

/-- The distance without division, as the two cases that arithmetic needs. -/
theorem cycDist_cases (hb : b < m) (hx : x < m) :
    (b ≤ x ∧ cycDist m b x = x - b) ∨ (x < b ∧ cycDist m b x = x + m - b) := by
  rcases Nat.lt_or_ge x b with h | h
  · exact .inr ⟨h, cycDist_of_lt hb h⟩
  · exact .inl ⟨h, cycDist_of_le hx h⟩

/-- The successor on the cycle without division. -/
theorem succ_mod_cases (hx : x < m) :
    (x + 1 < m ∧ (x + 1) % m = x + 1) ∨ (x + 1 = m ∧ (x + 1) % m = 0) := by
  rcases Nat.lt_or_ge (x + 1) m with h | h
  · exact .inl ⟨h, Nat.mod_eq_of_lt h⟩
  · have heq : x + 1 = m := by omega
    exact .inr ⟨heq, by rw [heq, Nat.mod_self]⟩

theorem succ_mod_lt (hx : x < m) : (x + 1) % m < m := Nat.mod_lt _ (by omega)

@[simp] theorem cycDist_self : cycDist m b b = 0 := by
  rw [cycDist, Nat.add_sub_cancel_left, Nat.mod_self]

/-- The distance determines the number. -/
theorem cycDist_inj (hb : b < m) (hx : x < m) (hy : y < m)
    (h : cycDist m b x = cycDist m b y) : x = y := by
  have := cycDist_cases hb hx
  have := cycDist_cases hb hy
  omega

theorem cycDist_eq_zero_iff (hb : b < m) (hx : x < m) : cycDist m b x = 0 ↔ x = b := by
  have := cycDist_cases hb hx
  omega

/-- The number steps: the distance grows by one, until the cycle is complete. -/
theorem cycDist_succ (hb : b < m) (hx : x < m) (h : cycDist m b x + 1 < m) :
    cycDist m b ((x + 1) % m) = cycDist m b x + 1 := by
  have hcases := cycDist_cases hb hx
  have hsucc := succ_mod_cases hx
  have := cycDist_cases hb (succ_mod_lt hx)
  omega

/-- The base steps: the distance of every other number shrinks by one. -/
theorem cycDist_succ_base (hb : b < m) (hx : x < m) (h : x ≠ b) :
    cycDist m ((b + 1) % m) x = cycDist m b x - 1 := by
  have hcases := cycDist_cases hb hx
  have hsucc := succ_mod_cases hb
  have := cycDist_cases (succ_mod_lt hb) hx
  omega

/-- The base steps away from the number. -/
theorem cycDist_succ_base_self (hb : b < m) : cycDist m ((b + 1) % m) b = m - 1 := by
  have hsucc := succ_mod_cases hb
  have := cycDist_cases (succ_mod_lt hb) hb
  omega

theorem cycDist_add_mod (hb : b < m) {d : Nat} (hd : d < m) : cycDist m b ((b + d) % m) = d := by
  have hcases := cycDist_cases hb (Nat.mod_lt (b + d) (Nat.lt_of_le_of_lt (Nat.zero_le b) hb))
  rcases Nat.lt_or_ge (b + d) m with h | h
  · rw [Nat.mod_eq_of_lt h] at hcases ⊢
    omega
  · have hmod : (b + d) % m = b + d - m := by
      rw [Nat.mod_eq_sub_mod h, Nat.mod_eq_of_lt (by omega)]
    rw [hmod] at hcases ⊢
    omega

end Odss.Lib
