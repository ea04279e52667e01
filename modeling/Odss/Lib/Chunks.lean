import Mathlib.Tactic

/-!
# `Odss.Lib.Chunks`: a list cut into chunks

A sender cuts a list into chunks, and each chunk travels with its offset in the list.
`chunk cs j` is the chunk number `j`, and `offset cs j` is the place where it starts.

* `offset_succ` and `flatten_take_succ` are the step to the next chunk.
* `offset_lt_offset` and `offset_inj` hold when no chunk is empty: the offset determines the
  chunk.
-/

set_option linter.all false

namespace Odss.Lib

variable {α : Type}

/-- The chunk number `j`. -/
def chunk (cs : List (List α)) (j : Nat) : List α := (cs[j]?).getD []

/-- The offset of the chunk number `j`. -/
def offset (cs : List (List α)) (j : Nat) : Nat := ((cs.take j).flatten).length

@[simp] theorem offset_zero (cs : List (List α)) : offset cs 0 = 0 := rfl

theorem chunk_of_lt {cs : List (List α)} {j : Nat} (h : j < cs.length) : chunk cs j = cs[j] := by
  rw [chunk, List.getElem?_eq_getElem h, Option.getD_some]

theorem chunk_mem {cs : List (List α)} {j : Nat} (h : j < cs.length) : chunk cs j ∈ cs := by
  rw [chunk_of_lt h]
  exact List.getElem_mem h

/-- The chunks up to `j` and the chunk number `j` are the chunks up to `j + 1`. -/
theorem flatten_take_succ {cs : List (List α)} {j : Nat} (h : j < cs.length) :
    (cs.take (j + 1)).flatten = (cs.take j).flatten ++ chunk cs j := by
  rw [List.take_succ_eq_append_getElem h, List.flatten_append, chunk_of_lt h,
    List.flatten_singleton]

theorem offset_succ {cs : List (List α)} {j : Nat} (h : j < cs.length) :
    offset cs (j + 1) = offset cs j + (chunk cs j).length := by
  rw [offset, flatten_take_succ h, List.length_append, offset]

theorem offset_length (cs : List (List α)) : offset cs cs.length = cs.flatten.length := by
  rw [offset, List.take_length]

/-- Chunks behind the first ones do not move them. -/
theorem offset_append_of_le {cs : List (List α)} (as : List (List α)) {j : Nat}
    (h : j ≤ cs.length) : offset (cs ++ as) j = offset cs j := by
  rw [offset, List.take_append_of_le_length h, offset]

theorem chunk_append_of_lt {cs : List (List α)} (as : List (List α)) {j : Nat}
    (h : j < cs.length) : chunk (cs ++ as) j = chunk cs j := by
  rw [chunk, List.getElem?_append_left h, chunk]

theorem chunk_append_length (cs : List (List α)) (c : List α) (as : List (List α)) :
    chunk (cs ++ c :: as) cs.length = c := by
  rw [chunk, List.getElem?_append_right (Nat.le_refl _), Nat.sub_self]
  rfl

section Nonempty

variable {cs : List (List α)} (hne : ∀ c ∈ cs, c ≠ [])
include hne

theorem offset_lt_succ {j : Nat} (h : j < cs.length) : offset cs j < offset cs (j + 1) := by
  have hpos : 0 < (chunk cs j).length := List.length_pos_of_ne_nil (hne _ (chunk_mem h))
  rw [offset_succ h]
  omega

theorem offset_lt_offset {i j : Nat} (hij : i < j) (hj : j ≤ cs.length) :
    offset cs i < offset cs j := by
  induction j with
  | zero => omega
  | succ j ih =>
    have hstep := offset_lt_succ hne (j := j) (by omega)
    rcases Nat.lt_or_eq_of_le (Nat.le_of_lt_succ hij) with hlt | rfl
    · exact Nat.lt_trans (ih hlt (by omega)) hstep
    · exact hstep

/-- The offset determines the chunk. -/
theorem offset_inj {i j : Nat} (hi : i ≤ cs.length) (hj : j ≤ cs.length)
    (h : offset cs i = offset cs j) : i = j := by
  rcases Nat.lt_trichotomy i j with hlt | heq | hlt
  · have := offset_lt_offset hne hlt hj
    omega
  · exact heq
  · have := offset_lt_offset hne hlt hi
    omega

theorem offset_lt_iff {i j : Nat} (hi : i ≤ cs.length) (hj : j ≤ cs.length) :
    offset cs i < offset cs j ↔ i < j := by
  constructor
  · intro h
    by_contra hle
    rcases Nat.lt_or_eq_of_le (Nat.le_of_not_lt hle) with hlt | rfl
    · have := offset_lt_offset hne hlt hi
      omega
    · omega
  · exact fun h => offset_lt_offset hne h hj

/-- Only the first chunk starts at zero. -/
theorem offset_eq_zero_iff {j : Nat} (hj : j ≤ cs.length) : offset cs j = 0 ↔ j = 0 := by
  constructor
  · exact fun h => offset_inj hne hj (Nat.zero_le _) h
  · rintro rfl
    rfl

end Nonempty

end Odss.Lib
