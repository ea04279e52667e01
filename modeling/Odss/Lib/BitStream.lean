import Odss.Lib.BitField

/-!
# `Odss.Lib.BitStream`: fields that are written and read one behind the other

A message is a list of bits. `bitsOf n v` is a field of `n` bits, the most significant one first, and
`readBits n` takes one from the front. `optBits` and `readOpt` are a field that is only there under a
condition.

* `readBits_append` and `readOpt_append` read back what was written, whatever is behind it.
* `bitsOf_ofBits` writes again what was read.
* `eq_zero_of_shifted`: a list of bits that is read too late by some zeros, and is read as it is, has no
  other bits.
-/

set_option linter.all false

namespace Odss.Lib

/-- The last `n` bits of a number, the most significant one first -/
def bitsOf : Nat → Nat → List Bool
  | 0, _ => []
  | n + 1, v => v.testBit n :: bitsOf n v

/-- The number that bits are, the most significant one first -/
def ofBits : List Bool → Nat
  | [] => 0
  | b :: bits => b.toNat * 2 ^ bits.length + ofBits bits

theorem ofBits_cons (b : Bool) (bits : List Bool) :
    ofBits (b :: bits) = b.toNat * 2 ^ bits.length + ofBits bits := rfl

/-- The first `n` bits as a number, and what is behind them -/
def readBits (n : Nat) (bits : List Bool) : Nat × List Bool := (ofBits (bits.take n), bits.drop n)

/-- The first bit, and what is behind it -/
def readBit (bits : List Bool) : Bool × List Bool := (bits.headD false, bits.tail)

/-- A field that is there if `b` -/
def optBits (b : Bool) (n v : Nat) : List Bool := if b then bitsOf n v else []

/-- A field that is there if `b`, and is zero otherwise -/
def readOpt (b : Bool) (n : Nat) (bits : List Bool) : Nat × List Bool :=
  if b then readBits n bits else (0, bits)

@[simp] theorem length_bitsOf (n v : Nat) : (bitsOf n v).length = n := by
  induction n with
  | zero => rfl
  | succ n ih => rw [bitsOf, List.length_cons, ih]

@[simp] theorem length_optBits (b : Bool) (n v : Nat) :
    (optBits b n v).length = if b then n else 0 := by
  rw [optBits]
  split
  · exact length_bitsOf n v
  · rfl

theorem ofBits_lt (bits : List Bool) : ofBits bits < 2 ^ bits.length := by
  induction bits with
  | nil => exact Nat.one_pos
  | cons b bits ih =>
    rw [ofBits_cons, List.length_cons, Nat.pow_succ]
    cases b with
    | false => simp only [Bool.toNat_false]; omega
    | true => simp only [Bool.toNat_true]; omega

theorem ofBits_append (bits bits' : List Bool) :
    ofBits (bits ++ bits') = ofBits bits * 2 ^ bits'.length + ofBits bits' := by
  induction bits with
  | nil => simp [ofBits]
  | cons b bits ih =>
    rw [List.cons_append, ofBits_cons, ih, ofBits_cons, List.length_append, Nat.pow_add]
    ring

theorem ofBits_bitsOf (n v : Nat) : ofBits (bitsOf n v) = v % 2 ^ n := by
  induction n with
  | zero => exact (Nat.mod_one v).symm
  | succ n ih =>
    rw [bitsOf, ofBits_cons, ih, length_bitsOf, Nat.testBit_eq_decide_div_mod_eq, Nat.pow_succ,
      Nat.mod_mul]
    rcases Nat.mod_two_eq_zero_or_one (v / 2 ^ n) with h | h
    · simp [h]
    · simp [h, Nat.add_comm]

theorem testBit_ofBits_cons (b : Bool) (bits : List Bool) :
    (ofBits (b :: bits)).testBit bits.length = b := by
  rw [ofBits_cons, Nat.mul_comm, Nat.testBit_two_pow_mul_add _ (ofBits_lt bits),
    if_neg (Nat.lt_irrefl _), Nat.sub_self]
  cases b <;> rfl

theorem bitsOf_mod (n v : Nat) : bitsOf n (v % 2 ^ n) = bitsOf n v := by
  have hgen : ∀ m ≤ n, bitsOf m (v % 2 ^ n) = bitsOf m v := by
    intro m
    induction m with
    | zero => exact fun _ => rfl
    | succ m ih =>
      intro hle
      rw [bitsOf, bitsOf, ih (by omega), Nat.testBit_mod_two_pow, decide_eq_true (by omega),
        Bool.true_and]
  exact hgen n (Nat.le_refl n)

/-- Bits that are all set are the largest number of so many bits. -/
theorem ofBits_of_all {bits : List Bool} (h : ∀ b ∈ bits, b = true) :
    ofBits bits + 1 = 2 ^ bits.length := by
  induction bits with
  | nil => rfl
  | cons b bits ih =>
    have hrest := ih fun b' hb' => h b' (List.mem_cons_of_mem b hb')
    rw [ofBits_cons, h b List.mem_cons_self, List.length_cons, Nat.pow_succ, Bool.toNat_true]
    omega

/-- What was read is written as it was. -/
theorem bitsOf_ofBits (bits : List Bool) : bitsOf bits.length (ofBits bits) = bits := by
  induction bits with
  | nil => rfl
  | cons b bits ih =>
    rw [List.length_cons, bitsOf, testBit_ofBits_cons, ← bitsOf_mod, ofBits_cons, Nat.mul_comm,
      Nat.mul_add_mod, bitsOf_mod, ih]

theorem bitsOf_zero (n : Nat) : bitsOf n 0 = List.replicate n false := by
  induction n with
  | zero => rfl
  | succ n ih => rw [bitsOf, ih, Nat.zero_testBit, List.replicate_succ]

/-- Enough bits begin with a field. -/
theorem exists_bitsOf_append (n : Nat) (bits : List Bool) (h : n ≤ bits.length) :
    ∃ v rest, v < 2 ^ n ∧ bits = bitsOf n v ++ rest ∧ rest.length + n = bits.length := by
  have hlen : (bits.take n).length = n := List.length_take_of_le h
  have hlt := ofBits_lt (bits.take n)
  have hbits := bitsOf_ofBits (bits.take n)
  rw [hlen] at hlt hbits
  refine ⟨ofBits (bits.take n), bits.drop n, hlt, ?_, ?_⟩
  · rw [hbits, List.take_append_drop]
  · rw [List.length_drop]
    omega

/-- A field that was written is read back. -/
@[simp] theorem readBits_append (n v : Nat) (bits : List Bool) :
    readBits n (bitsOf n v ++ bits) = (v % 2 ^ n, bits) := by
  rw [readBits, List.take_left' (length_bitsOf n v), List.drop_left' (length_bitsOf n v),
    ofBits_bitsOf]

@[simp] theorem readBit_cons (b : Bool) (bits : List Bool) : readBit (b :: bits) = (b, bits) := rfl

@[simp] theorem readOpt_append (b : Bool) (n v : Nat) (bits : List Bool) :
    readOpt b n (optBits b n v ++ bits) = (if b then v % 2 ^ n else 0, bits) := by
  cases b with
  | false => rfl
  | true => exact readBits_append n v bits

@[simp] theorem readBits_zero (bits : List Bool) : readBits 0 bits = (0, bits) := rfl

@[simp] theorem readOpt_false (n : Nat) (bits : List Bool) : readOpt false n bits = (0, bits) := rfl

@[simp] theorem readOpt_true (n : Nat) (bits : List Bool) : readOpt true n bits = readBits n bits := rfl

@[simp] theorem readBits_one (b : Bool) (bits : List Bool) : readBits 1 (b :: bits) = (b.toNat, bits) := by
  simp [readBits, ofBits]

@[simp] theorem readBits_two (b b' : Bool) (bits : List Bool) :
    readBits 2 (b :: b' :: bits) = (2 * b.toNat + b'.toNat, bits) := by
  simp [readBits, ofBits, Nat.mul_comm]

theorem readBits_replicate {n k : Nat} (h : n ≤ k) (bits : List Bool) :
    readBits n (List.replicate k false ++ bits) = (0, List.replicate (k - n) false ++ bits) := by
  have hsplit : List.replicate k false ++ bits =
      bitsOf n 0 ++ (List.replicate (k - n) false ++ bits) := by
    rw [bitsOf_zero, ← List.append_assoc, List.replicate_append_replicate, Nat.add_sub_cancel' h]
  rw [hsplit, readBits_append, Nat.zero_mod]

/-- Bits behind which zeros are, and that are the same when they are read that much later, are all zero. -/
theorem eq_zero_of_shifted {bits front : List Bool} {s : Nat} (hs : 0 < s)
    (h : bits ++ List.replicate s false = front ++ bits) : ofBits bits = 0 := by
  have hvalue := congrArg ofBits h
  have hzero : ofBits (List.replicate s false) = 0 := by
    rw [← bitsOf_zero, ofBits_bitsOf, Nat.zero_mod]
  rw [ofBits_append, ofBits_append, hzero, List.length_replicate, Nat.add_zero] at hvalue
  exact eq_zero_of_shift hvalue.symm hs (ofBits_lt bits)

end Odss.Lib
