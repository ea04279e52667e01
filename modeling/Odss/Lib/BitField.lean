import Mathlib.Tactic
import Mathlib.Data.Nat.Bitwise

/-!
# `Odss.Lib.BitField`: numbers in a stream of bits

A stream of bits is a function from positions. `field f pos n` is the number that `n` bits from
`pos` on are, the most significant one first. `bitAt` is the stream of a list of bytes.

* `field_add` cuts a field in two.
* `field_congr` is the frame rule: a field depends on its own bits only.
* `field_bitAt` is the field inside one byte, `bitAt_set_ne` and `bitAt_set` are what writing a
  byte does to the stream.
-/

set_option linter.all false

namespace Odss.Lib

/-- The number that the bits `pos`, ..., `pos + n - 1` are. -/
def field (f : Nat → Bool) (pos : Nat) : Nat → Nat
  | 0 => 0
  | n + 1 => 2 * field f pos n + (f (pos + n)).toNat

@[simp] theorem field_zero (f : Nat → Bool) (pos : Nat) : field f pos 0 = 0 := rfl

theorem field_succ (f : Nat → Bool) (pos n : Nat) :
    field f pos (n + 1) = 2 * field f pos n + (f (pos + n)).toNat := rfl

theorem field_one (f : Nat → Bool) (pos : Nat) : field f pos 1 = (f pos).toNat := by
  rw [field_succ, field_zero, Nat.mul_zero, Nat.zero_add, Nat.add_zero]

theorem field_lt (f : Nat → Bool) (pos n : Nat) : field f pos n < 2 ^ n := by
  induction n with
  | zero => exact Nat.one_pos
  | succ n ih =>
    rw [field_succ, Nat.pow_succ]
    have hbit : (f (pos + n)).toNat ≤ 1 := Bool.toNat_le _
    omega

/-- A field depends on its own bits only. -/
theorem field_congr {f g : Nat → Bool} {pos n : Nat}
    (h : ∀ i, pos ≤ i → i < pos + n → f i = g i) : field f pos n = field g pos n := by
  induction n with
  | zero => rfl
  | succ n ih =>
    have hrest := ih fun i hle hlt => h i hle (by omega)
    rw [field_succ, field_succ, hrest, h (pos + n) (by omega) (by omega)]

/-- A field is its bits, at any place. -/
theorem field_shift {f g : Nat → Bool} {p q n : Nat} (h : ∀ i < n, f (p + i) = g (q + i)) :
    field f p n = field g q n := by
  induction n with
  | zero => rfl
  | succ n ih =>
    rw [field_succ, field_succ, ih fun i hi => h i (Nat.lt_succ_of_lt hi), h n (Nat.lt_succ_self n)]

/-- A field is its first bits and its last ones. -/
theorem field_add (f : Nat → Bool) (pos m n : Nat) :
    field f pos (m + n) = field f pos m * 2 ^ n + field f (pos + m) n := by
  induction n with
  | zero => simp
  | succ n ih =>
    rw [← Nat.add_assoc, field_succ, ih, field_succ, Nat.pow_succ, Nat.add_assoc pos m n]
    ring

theorem field_eq_zero {f : Nat → Bool} {pos n : Nat}
    (h : ∀ i, pos ≤ i → i < pos + n → f i = false) : field f pos n = 0 := by
  induction n with
  | zero => rfl
  | succ n ih =>
    have hrest := ih fun i hle hlt => h i hle (by omega)
    rw [field_succ, hrest, h (pos + n) (by omega) (by omega)]
    rfl

/-- The first bits of a field. -/
theorem field_div (f : Nat → Bool) (pos m n : Nat) :
    field f pos (m + n) / 2 ^ n = field f pos m := by
  rw [field_add, Nat.add_comm, Nat.add_mul_div_right _ _ (Nat.two_pow_pos n),
    Nat.div_eq_of_lt (field_lt _ _ _), Nat.zero_add]

/-- The bits of a field are the bits of the number. -/
theorem testBit_field (f : Nat → Bool) (pos n : Nat) {i : Nat} (h : i < n) :
    (field f pos n).testBit (n - 1 - i) = f (pos + i) := by
  have hsplit : n = i + 1 + (n - 1 - i) := by omega
  have hdiv : field f pos n / 2 ^ (n - 1 - i) = field f pos (i + 1) := by
    conv_lhs => rw [hsplit]
    rw [show i + 1 + (n - 1 - i) - 1 - i = n - 1 - i by omega, field_div]
  have hbit : (field f pos n).testBit (n - 1 - i)
      = (field f pos n / 2 ^ (n - 1 - i)).testBit 0 := by
    rw [Nat.testBit_div_two_pow, Nat.zero_add]
  rw [hbit, hdiv, field_succ, Nat.testBit_zero]
  cases f (pos + i)
  · simp
  · simp [Nat.add_mod]

theorem eq_false_of_field_eq_zero {f : Nat → Bool} {pos n i : Nat} (h : field f pos n = 0)
    (hle : pos ≤ i) (hlt : i < pos + n) : f i = false := by
  have hbit := @testBit_field f pos n (i - pos) (by omega)
  rw [h, Nat.zero_testBit, show pos + (i - pos) = i by omega] at hbit
  exact hbit.symm

/-- A number that is shifted and read at its old place again has no bits. -/
theorem eq_zero_of_shift {x m n s : Nat} (h : x * 2 ^ n + m = m * 2 ^ s) (hs : 0 < s)
    (hm : m < 2 ^ n) : m = 0 := by
  have hodd : Odd (2 ^ s - 1) := by
    obtain ⟨k, rfl⟩ : ∃ k, s = k + 1 := ⟨s - 1, by omega⟩
    refine ⟨2 ^ k - 1, ?_⟩
    have hpos := Nat.two_pow_pos k
    rw [Nat.pow_succ]
    omega
  have hcoprime : Nat.Coprime (2 ^ n) (2 ^ s - 1) :=
    Nat.Coprime.pow_left n (Nat.coprime_two_left.mpr hodd)
  have hmul : m * (2 ^ s - 1) = 2 ^ n * x := by
    rw [Nat.mul_sub_one, ← h, Nat.add_sub_cancel, Nat.mul_comm]
  exact Nat.eq_zero_of_dvd_of_lt (hcoprime.dvd_of_dvd_mul_right ⟨x, hmul⟩) hm

/-! ### Bytes -/

/-- The bit at a position of a list of bytes, the most significant one of each byte first. Bytes
behind the end count as zero. -/
def bitAt (bytes : List UInt8) (i : Nat) : Bool :=
  (bytes.getD (i / 8) 0).toNat.testBit (7 - i % 8)

theorem field_bitAt (bytes : List UInt8) (p : Nat) {o n : Nat} (h : o + n ≤ 8) :
    field (bitAt bytes) (8 * p + o) n
      = (bytes.getD p 0).toNat / 2 ^ (8 - o - n) % 2 ^ n := by
  induction n with
  | zero => rw [field_zero, Nat.pow_zero, Nat.mod_one]
  | succ n ih =>
    rw [field_succ, ih (by omega)]
    have hbyte : (8 * p + o + n) / 8 = p := by omega
    have hbit : 7 - (8 * p + o + n) % 8 = 8 - o - (n + 1) := by omega
    have hshift : 8 - o - n = 8 - o - (n + 1) + 1 := by omega
    rw [bitAt, hbyte, hbit, hshift, Nat.testBit_eq_decide_div_mod_eq, Nat.pow_succ,
      ← Nat.div_div_eq_div_mul]
    generalize (bytes.getD p 0).toNat / 2 ^ (8 - o - (n + 1)) = x
    have hmod : x % 2 ^ (n + 1) = 2 * (x / 2 % 2 ^ n) + x % 2 := by
      rw [Nat.pow_succ, Nat.mul_comm (2 ^ n) 2, Nat.mod_mul, Nat.add_comm]
    rw [hmod]
    rcases Nat.mod_two_eq_zero_or_one x with h0 | h1
    · simp [h0]
    · simp [h1]

/-- Another byte stays. -/
theorem bitAt_set_ne (bytes : List UInt8) (byte : UInt8) {p i : Nat} (h : i / 8 ≠ p) :
    bitAt (bytes.set p byte) i = bitAt bytes i := by
  rw [bitAt, bitAt, List.getD_eq_getElem?_getD, List.getD_eq_getElem?_getD,
    List.getElem?_set_ne (Ne.symm h)]

theorem getD_set (bytes : List UInt8) (byte : UInt8) {p : Nat} (h : p < bytes.length) :
    (bytes.set p byte).getD p 0 = byte := by
  rw [List.getD_eq_getElem?_getD, List.getElem?_set_self h, Option.getD_some]

theorem eq_of_bitAt {bytes bytes' : List UInt8} (hlen : bytes.length = bytes'.length)
    (h : ∀ i < 8 * bytes.length, bitAt bytes i = bitAt bytes' i) : bytes = bytes' := by
  refine List.ext_getElem hlen fun k hk hk' => UInt8.toNat_inj.mp (Nat.eq_of_testBit_eq fun j => ?_)
  rcases Nat.lt_or_ge j 8 with hlt | hge
  · have hbit := h (8 * k + (7 - j)) (by omega)
    unfold bitAt at hbit
    rw [show (8 * k + (7 - j)) / 8 = k by omega, show 7 - (8 * k + (7 - j)) % 8 = j by omega,
      List.getD_eq_getElem _ _ hk, List.getD_eq_getElem _ _ hk'] at hbit
    exact hbit
  · have hpow : 2 ^ 8 ≤ 2 ^ j := Nat.pow_le_pow_right (by decide) hge
    rw [Nat.testBit_lt_two_pow (Nat.lt_of_lt_of_le (UInt8.toNat_lt _) hpow),
      Nat.testBit_lt_two_pow (Nat.lt_of_lt_of_le (UInt8.toNat_lt _) hpow)]

theorem field_ones {k pos n : Nat} (h : pos + n ≤ 8 * k) :
    field (bitAt (List.replicate k 255)) pos n = 2 ^ n - 1 := by
  induction n with
  | zero => rfl
  | succ n ih =>
    have hbit : bitAt (List.replicate k 255) (pos + n) = true := by
      have hbyte : (List.replicate k (255 : UInt8)).getD ((pos + n) / 8) 0 = 255 := by
        rw [List.getD_eq_getElem?_getD, List.getElem?_replicate_of_lt (by omega), Option.getD_some]
      have hall : ∀ j < 8, (255 : UInt8).toNat.testBit (7 - j) = true := by decide
      rw [bitAt, hbyte]
      exact hall _ (Nat.mod_lt _ (by decide))
    have hpos := Nat.two_pow_pos n
    rw [field_succ, ih (by omega), hbit, Nat.pow_succ, Bool.toNat_true]
    omega

end Odss.Lib
