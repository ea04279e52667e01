import Mathlib.Tactic

/-!
# `Odss.Mac.BoundedBitset`: bitsets of a fixed size

The bits of a `bounded_bitset` (`lib/include/srsran/adt/bounded_bitset.h`) of size `n`, by their
position. `none` is a failing assertion. The masks of a cell keep their size, so the size is an
index of the type. Their words hold the first bit at the top, which only `to_uint64` and
`from_uint64` show.

`Has` is what the other modules say about a mask.
-/

set_option linter.all false

namespace Odss.Mac

/-- `bounded_bitset` of size `n` -/
structure BoundedBitset (n : Nat) where
  bits : Fin n → Bool
deriving DecidableEq

/-- `bits_per_word` -/
abbrev bitsPerWord : Nat := 64

namespace BoundedBitset

variable {n : Nat}

/-- The bitset of the given size without a bit. -/
def empty (n : Nat) : BoundedBitset n := ⟨fun _ => false⟩

/-- The bit at a position, which is not set behind the end. -/
def bit (b : BoundedBitset n) (pos : Nat) : Bool := if h : pos < n then b.bits ⟨pos, h⟩ else false

/-- The bit at a position is set. -/
def Has (b : BoundedBitset n) (pos : Nat) : Prop := b.bit pos = true

instance (b : BoundedBitset n) (pos : Nat) : Decidable (b.Has pos) :=
  inferInstanceAs (Decidable (_ = true))

/-- `test` -/
def test (b : BoundedBitset n) (pos : Nat) : Option Bool := if pos < n then some (b.bit pos) else none

/-- `set(pos)` -/
def set (b : BoundedBitset n) (pos : Nat) : Option (BoundedBitset n) :=
  if pos < n then some ⟨fun i => decide (i.val = pos) || b.bits i⟩ else none

/-- `reset(pos)` -/
def reset (b : BoundedBitset n) (pos : Nat) : Option (BoundedBitset n) :=
  if pos < n then some ⟨fun i => if i.val = pos then false else b.bits i⟩ else none

/-- `set(pos, false)` of a position that is inside. -/
def unset (b : BoundedBitset n) (pos : Fin n) : BoundedBitset n :=
  ⟨fun i => if i = pos then false else b.bits i⟩

/-- `operator~` -/
def compl (b : BoundedBitset n) : BoundedBitset n := ⟨fun i => !b.bits i⟩

/-- `operator|=` -/
def union (b c : BoundedBitset n) : BoundedBitset n := ⟨fun i => b.bits i || c.bits i⟩

/-- `operator&` -/
def inter (b c : BoundedBitset n) : BoundedBitset n := ⟨fun i => b.bits i && c.bits i⟩

/-- `fill(startpos, endpos)` -/
def fill (b : BoundedBitset n) (start stop : Nat) : Option (BoundedBitset n) :=
  if start ≤ stop ∧ stop ≤ n then
    some ⟨fun i => decide (start ≤ i.val ∧ i.val < stop) || b.bits i⟩
  else none

/-- `fill(startpos, endpos, false)` -/
def unfill (b : BoundedBitset n) (start stop : Nat) : Option (BoundedBitset n) :=
  if start ≤ stop ∧ stop ≤ n then
    some ⟨fun i => !decide (start ≤ i.val ∧ i.val < stop) && b.bits i⟩
  else none

/-- `all()` -/
def all (b : BoundedBitset n) : Bool := (List.range n).all b.bit

/-- `count` -/
def count (b : BoundedBitset n) : Nat := (List.range n).countP b.bit

/-- `any()` -/
def any (b : BoundedBitset n) : Bool := (List.range n).any b.bit

/-- `any(start, stop)` -/
def anyIn (b : BoundedBitset n) (start stop : Nat) : Option Bool :=
  if start ≤ n ∧ stop ≤ n then some ((List.range' start (stop - start)).any b.bit) else none

/-- `find_lowest`, with no position for the result -1. -/
def findLowest (b : BoundedBitset n) (start stop : Nat) (value : Bool) : Option (Option Nat) :=
  if start ≤ stop ∧ stop ≤ n then
    some ((List.range' start (stop - start)).find? fun i => b.bit i == value)
  else none

/-- `to_uint64`, for which the bits have to be in one word. -/
def toUint64 (b : BoundedBitset n) : Option Nat :=
  if 0 < n ∧ n ≤ bitsPerWord then
    some ((List.range n).foldl (fun w i => if b.bit i then w + 2 ^ (n - 1 - i) else w) 0)
  else none

/-- `from_uint64`, for which the word has to fit in the bitset. -/
def fromUint64 (n v : Nat) : Option (BoundedBitset n) :=
  if 0 < n ∧ n ≤ bitsPerWord ∧ v < 2 ^ n then some ⟨fun i => v.testBit (n - 1 - i.val)⟩ else none

/-! ### Lemmas -/

theorem Has.lt {b : BoundedBitset n} {pos : Nat} (h : b.Has pos) : pos < n := by
  unfold Has bit at h
  split at h
  · assumption
  · cases h

@[ext] theorem ext {b c : BoundedBitset n} (h : ∀ pos < n, b.Has pos ↔ c.Has pos) : b = c := by
  have hbits : b.bits = c.bits := by
    funext i
    have hi := h i.val i.isLt
    simp only [Has, bit, i.isLt, dif_pos] at hi
    exact Bool.eq_iff_iff.mpr hi
  cases b
  cases c
  exact congrArg BoundedBitset.mk hbits

@[simp] theorem not_has_empty (pos : Nat) : ¬ (empty n).Has pos := by
  simp [Has, bit, empty]

@[simp] theorem has_compl (b : BoundedBitset n) (pos : Nat) :
    b.compl.Has pos ↔ pos < n ∧ ¬ b.Has pos := by
  unfold Has bit compl
  by_cases h : pos < n
  · simp [h]
  · simp [h]

@[simp] theorem has_union (b c : BoundedBitset n) (pos : Nat) :
    (b.union c).Has pos ↔ b.Has pos ∨ c.Has pos := by
  unfold Has bit union
  by_cases h : pos < n
  · simp [h]
  · simp [h]

@[simp] theorem has_inter (b c : BoundedBitset n) (pos : Nat) :
    (b.inter c).Has pos ↔ b.Has pos ∧ c.Has pos := by
  unfold Has bit inter
  by_cases h : pos < n
  · simp [h]
  · simp [h]

theorem has_of_fill {b c : BoundedBitset n} {start stop : Nat} (h : b.fill start stop = some c)
    (pos : Nat) : c.Has pos ↔ (start ≤ pos ∧ pos < stop) ∨ b.Has pos := by
  unfold fill at h
  split at h
  · rename_i hbound
    cases h
    unfold Has bit
    by_cases hpos : pos < n
    · simp [hpos]
    · simp only [hpos, dif_neg, not_false_eq_true, Bool.false_eq_true, or_false, false_iff]
      omega
  · cases h

theorem has_of_set {b c : BoundedBitset n} {pos : Nat} (h : b.set pos = some c) (pos' : Nat) :
    c.Has pos' ↔ pos' = pos ∨ b.Has pos' := by
  unfold set at h
  split at h
  · next hpos =>
    cases h
    unfold Has bit
    by_cases hpos' : pos' < n
    · simp [hpos']
    · simp only [hpos', dif_neg, not_false_eq_true, Bool.false_eq_true, or_false, false_iff]
      intro heq
      omega
  · cases h

theorem has_of_reset {b c : BoundedBitset n} {pos : Nat} (h : b.reset pos = some c) (pos' : Nat) :
    c.Has pos' ↔ pos' ≠ pos ∧ b.Has pos' := by
  unfold reset at h
  split at h
  · cases h
    unfold Has bit
    by_cases hpos : pos' < n
    · by_cases heq : pos' = pos
      · simp [heq]
      · simp [hpos, heq]
    · simp [hpos]
  · cases h

theorem count_le (b : BoundedBitset n) : b.count ≤ n :=
  Nat.le_trans List.countP_le_length (Nat.le_of_eq List.length_range)

theorem any_iff (b : BoundedBitset n) : b.any = true ↔ ∃ pos, b.Has pos := by
  rw [any, List.any_eq_true]
  constructor
  · rintro ⟨pos, -, h⟩
    exact ⟨pos, h⟩
  · rintro ⟨pos, h⟩
    exact ⟨pos, List.mem_range.mpr h.lt, h⟩

end BoundedBitset

end Odss.Mac
