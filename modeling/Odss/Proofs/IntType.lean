import Odss.Asn1.PerEncoding

/-!
# `Odss.Proofs.IntType`: the integer types of the packers

Conversions are the identity on the values of a type and keep the number modulo its size
(`wrap_of_mem`, `wrap_emod`). `addBound` adds up to the number that was written, as long as the
result fits (`addBound_eq`), and is a conversion or undefined otherwise (`addBound_cases`).
-/

set_option linter.all false

namespace Odss.Asn1

namespace IntType

theorem bits_pos (t : IntType) : 8 ≤ t.bits ∧ t.bits ≤ 64 ∧ t.bits % 8 = 0 := by
  cases t <;> decide

theorem max_sub_min (t : IntType) : t.max - t.min = 2 ^ t.bits - 1 := by
  cases t <;> decide

theorem wrap_of_mem {t : IntType} {v : Int} (hmin : t.min ≤ v) (hmax : v ≤ t.max) :
    t.wrap v = v := by
  cases t <;> simp only [min, max, wrap, isUnsigned, bits, if_true, Bool.false_eq_true, if_false]
    at hmin hmax ⊢
  -- The signed types, then the unsigned ones.
  case int8 | int16 | int32 | int64 =>
    refine Int.bmod_eq_of_le ?_ ?_ <;> omega
  case uint8 | uint16 | uint32 | uint64 => omega

theorem wrap_mem (t : IntType) (v : Int) : t.min ≤ t.wrap v ∧ t.wrap v ≤ t.max := by
  have hpos : 0 < 2 ^ t.bits := Nat.two_pow_pos _
  have hlow := @Int.le_bmod v _ hpos
  have hhigh := @Int.bmod_lt v _ hpos
  cases t <;> simp only [min, max, wrap, isUnsigned, bits, if_true, Bool.false_eq_true, if_false]
    at hlow hhigh ⊢ <;> omega

/-- A conversion keeps the number modulo the size of the type. -/
theorem wrap_emod (t : IntType) (v : Int) : t.wrap v % 2 ^ t.bits = v % 2 ^ t.bits := by
  unfold wrap
  split
  · exact Int.emod_emod_of_dvd v (dvd_refl _)
  · have h := @Int.bmod_emod v (2 ^ t.bits)
    push_cast at h
    exact h

theorem wrap_eq_of_emod {t : IntType} {u v : Int} (h : u % 2 ^ t.bits = v % 2 ^ t.bits) :
    t.wrap u = t.wrap v := by
  unfold wrap
  split
  · exact h
  · rw [← Int.emod_bmod u, ← Int.emod_bmod v]
    push_cast
    rw [h]

theorem arith_cases (t : IntType) : (∀ v, t.arith v = some v) ∨
    (∀ v, t.arith v = some (v % 2 ^ t.bits)) ∨ (t = int32 ∨ t = int64) ∧
      ∀ v, t.arith v = if t.min ≤ v ∧ v ≤ t.max then some v else none := by
  cases t
  case int8 | int16 | uint8 | uint16 => exact .inl fun _ => rfl
  case uint32 | uint64 => exact .inr (.inl fun _ => rfl)
  case int32 | int64 => exact .inr (.inr ⟨by decide, fun _ => rfl⟩)

/-- The result of an operation is undefined or the exact one modulo the size of the type. -/
theorem wrap_arith {t : IntType} {v r : Int} (h : t.arith v = some r) : t.wrap r = t.wrap v := by
  rcases t.arith_cases with harith | harith | ⟨-, harith⟩
  · rw [harith] at h
    rw [Option.some.inj h]
  · rw [harith] at h
    rw [← Option.some.inj h]
    exact wrap_eq_of_emod (Int.emod_emod_of_dvd _ (dvd_refl _))
  · rw [harith] at h
    split at h
    · rw [Option.some.inj h]
    · cases h

theorem arith_of_mem {t : IntType} {v : Int} (hmin : t.min ≤ v) (hmax : v ≤ t.max) :
    ∃ r, t.arith v = some r := by
  rcases t.arith_cases with harith | harith | ⟨-, harith⟩
  · exact ⟨_, harith v⟩
  · exact ⟨_, harith v⟩
  · exact ⟨v, (harith v).trans (if_pos ⟨hmin, hmax⟩)⟩

/-- A difference of two values that are in order is exact. -/
theorem arith_sub {t : IntType} {lb ub r : Int} (hle : lb ≤ ub) (hlb : t.min ≤ lb)
    (hub : ub ≤ t.max) (h : t.arith (ub - lb) = some r) : r = ub - lb := by
  have hrange := t.max_sub_min
  rcases t.arith_cases with harith | harith | ⟨-, harith⟩
  · rw [harith] at h
    exact (Option.some.inj h).symm
  · rw [harith, Int.emod_eq_of_lt (by omega) (by omega)] at h
    exact (Option.some.inj h).symm
  · rw [harith] at h
    split at h
    · exact (Option.some.inj h).symm
    · cases h

/-- A part of a difference that does not overflow does not overflow. -/
theorem arith_sub_of_le {t : IntType} {lb n ub r : Int} (hlb : lb ≤ n) (hub : n ≤ ub)
    (h : t.arith (ub - lb) = some r) : ∃ d, t.arith (n - lb) = some d := by
  rcases t.arith_cases with harith | harith | ⟨-, harith⟩
  · exact ⟨_, harith _⟩
  · exact ⟨_, harith _⟩
  · rw [harith] at h
    split at h
    · next hmem =>
      have hzero : t.min ≤ 0 := by cases t <;> decide
      exact arith_of_mem (by omega) (by omega)
    · cases h

end IntType

open IntType

/-! ### Numbers -/

theorem toU64_mod {v : Int} {k : Nat} (hk : k ≤ 64) : toU64 v % 2 ^ k = (v % 2 ^ k).toNat := by
  have hdvd : (2 : Int) ^ k ∣ 2 ^ 64 := pow_dvd_pow 2 hk
  have hnonneg : 0 ≤ v % 2 ^ 64 := Int.emod_nonneg v (by decide)
  unfold toU64
  have hcast : ((2 ^ k : Nat) : Int) = 2 ^ k := by push_cast; rfl
  rw [← Int.toNat_natCast (2 ^ k), hcast, ← Int.toNat_emod hnonneg (by positivity),
    Int.emod_emod_of_dvd v hdvd]

/-- A number that is written in up to as many bits as the type has. -/
theorem toU64_wrap_mod {t : IntType} {m k : Nat} (hk : k ≤ t.bits) :
    toU64 (t.wrap m) % 2 ^ k = m % 2 ^ k := by
  have hdvd : (2 : Int) ^ k ∣ 2 ^ t.bits := pow_dvd_pow 2 hk
  have hle := t.bits_pos.2.1
  have hwrap : t.wrap m % 2 ^ k = (m : Int) % 2 ^ k := by
    rw [← Int.emod_emod_of_dvd _ hdvd, t.wrap_emod m, Int.emod_emod_of_dvd _ hdvd]
  have hcast : (m : Int) % 2 ^ k = ((m % 2 ^ k : Nat) : Int) := by push_cast; rfl
  rw [toU64_mod (by omega), hwrap, hcast, Int.toNat_natCast]

/-! ### Adding the lower bound -/

open Per

/-- The sum is undefined, or the converted one. -/
theorem addBound_cases (t : IntType) (val : Nat) (lb : Int) :
    addBound t val lb = undefined ∨ addBound t val lb = pure (t.wrap (val + lb)) := by
  cases h : t.arith (t.wrap val + lb) with
  | none =>
    left
    unfold addBound
    rw [h]
    rfl
  | some sum =>
    right
    have hsum : t.wrap sum = t.wrap (val + lb) := by
      rw [wrap_arith h]
      refine wrap_eq_of_emod ?_
      rw [Int.add_emod, t.wrap_emod, ← Int.add_emod]
    unfold addBound
    rw [h, ← hsum]
    rfl

/-- A sum that is a value of the type. The number that is added is one of the type, or the type is
operated on as `int`, or it is unsigned. -/
theorem addBound_eq {t : IntType} {val : Nat} {lb : Int} (hlb : t.min ≤ lb)
    (hval : t = .int32 ∨ t = .int64 → (val : Int) ≤ t.max) (hmax : val + lb ≤ t.max) :
    addBound t val lb = pure (val + lb) := by
  have hdefined : ∃ sum, t.arith (t.wrap val + lb) = some sum := by
    rcases t.arith_cases with harith | harith | ⟨ht, -⟩
    · exact ⟨_, harith _⟩
    · exact ⟨_, harith _⟩
    · have hnat := Int.natCast_nonneg val
      have hzero : t.min ≤ 0 := by cases t <;> decide
      rw [wrap_of_mem (Int.le_trans hzero hnat) (hval ht)]
      exact arith_of_mem (by omega) hmax
  obtain ⟨sum, hsum⟩ := hdefined
  have hmem : t.wrap (val + lb) = val + lb := by
    refine wrap_of_mem ?_ hmax
    have hnat := Int.natCast_nonneg val
    omega
  rcases addBound_cases t val lb with h | h
  · -- A defined sum is not undefined.
    unfold addBound at h
    rw [hsum] at h
    exact absurd (congrFun h (BitRef.start [])) nofun
  · rw [h, hmem]

end Odss.Asn1
