import Odss.Lib.Run

/-!
# `Odss.Common.CircularBuffer`: the circular buffer

The model of `base_circular_buffer` (`lib/include/srsran/adt/circular_buffer.h`). A storage holds
an object or none. The result is `none` where an assertion fails, where an object that is not there
is read, and where the code divides by the size of an empty storage.

* `Holds`: the stored objects, in insertion order, and how each operation changes them.
* `run_refines`: every run acts like the list of the stored objects.
* `Holds.applyFirst`: the loop from `begin()` to `end()` while the buffer is not full.
* `Holds.iterates_iff`: the loop reaches the stored objects exactly while the buffer is not full.
-/

set_option linter.all false

namespace Odss.Common

open Odss.Lib

/-- `base_circular_buffer` -/
structure CircularBuffer (α : Type) where
  buffer : List (Option α)
  rpos : Nat := 0
  count : Nat := 0

namespace CircularBuffer

variable {α σ : Type}

/-- A buffer with `maxSize` storages. -/
def empty (maxSize : Nat) : CircularBuffer α := { buffer := List.replicate maxSize none }

/-- `max_size` -/
def maxSize (b : CircularBuffer α) : Nat := b.buffer.length

/-- The storage that the index `i` stands for. -/
def slot (b : CircularBuffer α) (i : Nat) : Nat := (b.rpos + i) % b.maxSize

/-- `full` -/
def full (b : CircularBuffer α) : Bool := b.count == b.maxSize

/-- `push` -/
def push (b : CircularBuffer α) (t : α) : Option (CircularBuffer α) :=
  if b.full then none
  else some { b with buffer := b.buffer.set (b.slot b.count) (some t), count := b.count + 1 }

/-- `top` -/
def top (b : CircularBuffer α) : Option α := if b.count = 0 then none else b.buffer[b.rpos]?.join

/-- `pop` -/
def pop (b : CircularBuffer α) : Option (CircularBuffer α) :=
  if b.count = 0 then none
  else some { buffer := b.buffer.set b.rpos none, rpos := b.slot 1, count := b.count - 1 }

/-- `clear` -/
def clear (b : CircularBuffer α) : CircularBuffer α :=
  { b with
    buffer := (List.range b.count).foldl (fun buffer i => buffer.set (b.slot i) none) b.buffer
    count := 0 }

/-- `operator[]` -/
def get (b : CircularBuffer α) (i : Nat) : Option α :=
  if i < b.count then b.buffer[b.slot i]?.join else none

/-- The index of `end()` -/
def endIdx (b : CircularBuffer α) : Option Nat :=
  if b.maxSize = 0 then none else some (b.slot b.count)

/-- `operator*` of an iterator -/
def deref (b : CircularBuffer α) (idx : Nat) : Option α :=
  if idx + (if b.rpos ≤ idx then 0 else b.maxSize) < b.rpos + b.count then b.buffer[idx]?.join
  else none

/-- The loop of `apply_first` from the index `idx` to `last`. What `func` does to an object is
its answer, the object afterwards and what else it changes. -/
def applyLoop (func : α → σ → Bool × α × σ) (last : Nat) (b : CircularBuffer α) (idx : Nat)
    (s : σ) : Nat → Option (Bool × CircularBuffer α × σ)
  | 0 => if idx = last then some (false, b, s) else none
  | fuel + 1 =>
    if idx = last then some (false, b, s)
    else do
      let x ← b.deref idx
      let (hit, x, s) := func x s
      let b := { b with buffer := b.buffer.set idx (some x) }
      if hit then some (true, b, s) else applyLoop func last b ((idx + 1) % b.maxSize) s fuel

/-- `apply_first`: there are no more indices than storages. -/
def applyFirst (b : CircularBuffer α) (func : α → σ → Bool × α × σ) (s : σ) :
    Option (Bool × CircularBuffer α × σ) := do
  b.applyLoop func (← b.endIdx) b.rpos s b.maxSize

/-- The objects that are visited between `begin()` and `end()` -/
def visited (b : CircularBuffer α) : Option (List α) :=
  (b.applyFirst (fun x xs => (false, x, xs ++ [x])) []).map fun r => r.2.2

/-! ### The stored objects -/

/-- The buffer stores the objects `xs`, in insertion order. -/
structure Holds (b : CircularBuffer α) (xs : List α) : Prop where
  count_eq : b.count = xs.length
  le : xs.length ≤ b.maxSize
  rpos_lt : 0 < b.maxSize → b.rpos < b.maxSize
  slots : ∀ i (h : i < xs.length), b.buffer[b.slot i]? = some (some xs[i])

/-- Two indices of stored objects have two storages. -/
theorem slot_inj {r n i j : Nat} (hr : r < n) (hi : i < n) (hj : j < n)
    (h : (r + i) % n = (r + j) % n) : i = j := by
  have hmod (k : Nat) (hk : k < n) : (r + k) % n = if r + k < n then r + k else r + k - n := by
    split
    · exact Nat.mod_eq_of_lt ‹_›
    · rw [Nat.mod_eq_sub_mod (by omega), Nat.mod_eq_of_lt (by omega)]
  rw [hmod i hi, hmod j hj] at h
  split at h <;> split at h <;> omega

variable {b : CircularBuffer α} {xs ys zs : List α} {x t : α}

theorem holds_empty (maxSize : Nat) : (empty maxSize : CircularBuffer α).Holds [] where
  count_eq := rfl
  le := Nat.zero_le _
  rpos_lt := id
  slots := fun _ h => absurd h (Nat.not_lt_zero _)

theorem Holds.full_iff (h : b.Holds xs) : b.full = true ↔ xs.length = b.maxSize := by
  rw [full, beq_iff_eq, h.count_eq]

theorem Holds.rpos (h : b.Holds (x :: xs)) : b.rpos < b.maxSize := by
  have hle := h.le
  rw [List.length_cons] at hle
  exact h.rpos_lt (by omega)

theorem Holds.push (h : b.Holds xs) (hlt : xs.length < b.maxSize) (t : α) :
    ∃ b', b.push t = some b' ∧ b'.maxSize = b.maxSize ∧ b'.Holds (xs ++ [t]) := by
  have hfull : ¬ b.full = true := fun hf => by have := h.full_iff.mp hf; omega
  have hr := h.rpos_lt (by omega)
  refine ⟨_, if_neg hfull, List.length_set, ?_⟩
  have hslot : b.slot b.count < b.buffer.length := Nat.mod_lt _ (by rw [maxSize] at hr; omega)
  refine ⟨by simp [h.count_eq], by simp [maxSize] at hlt ⊢; omega,
    fun _ => by simpa [maxSize] using hr, fun i hi => ?_⟩
  rw [List.length_append, List.length_singleton] at hi
  simp only [slot, maxSize, List.length_set]
  rcases Nat.lt_succ_iff_lt_or_eq.mp hi with hlt' | rfl
  · have hne : (b.rpos + b.count) % b.buffer.length ≠ (b.rpos + i) % b.buffer.length := by
      intro heq
      have := slot_inj hr (by rw [h.count_eq]; exact hlt) (by omega) heq
      rw [h.count_eq] at this
      omega
    rw [List.getElem?_set_ne hne, List.getElem_append_left hlt']
    exact h.slots i hlt'
  · rw [h.count_eq] at hslot ⊢
    rw [show (b.rpos + xs.length) % b.buffer.length = b.slot xs.length from rfl,
      List.getElem?_set_self hslot, List.getElem_append_right (Nat.le_refl _)]
    simp

theorem Holds.top (h : b.Holds (x :: xs)) : b.top = some x := by
  have hslot := h.slots 0 (Nat.succ_pos _)
  rw [slot, Nat.add_zero, Nat.mod_eq_of_lt h.rpos] at hslot
  rw [CircularBuffer.top, if_neg (by rw [h.count_eq]; simp), hslot]
  rfl

theorem Holds.pop (h : b.Holds (x :: xs)) :
    ∃ b', b.pop = some b' ∧ b'.maxSize = b.maxSize ∧ b'.Holds xs := by
  have hr := h.rpos
  have hle := h.le
  rw [List.length_cons] at hle
  refine ⟨_, if_neg (by rw [h.count_eq]; simp), List.length_set, ?_⟩
  refine ⟨by simp [h.count_eq], by simp [maxSize] at hle ⊢; omega,
    fun hlt => by
      simp only [maxSize, List.length_set] at hlt ⊢
      exact Nat.mod_lt _ hlt, fun i hi => ?_⟩
  simp only [slot, maxSize, List.length_set, Nat.mod_add_mod]
  rw [show b.rpos + 1 + i = b.rpos + (i + 1) by omega, List.getElem?_set_ne ?_]
  · exact h.slots (i + 1) (by simp; omega)
  · intro heq
    have := slot_inj hr (show 0 < b.maxSize by omega) (show i + 1 < b.maxSize by omega)
      (by rw [Nat.add_zero, Nat.mod_eq_of_lt hr]; exact heq)
    omega

theorem length_destroyed (b : CircularBuffer α) (buffer : List (Option α)) (is : List Nat) :
    (is.foldl (fun buffer i => buffer.set (b.slot i) none) buffer).length = buffer.length := by
  induction is generalizing buffer with
  | nil => rfl
  | cons i is ih => rw [List.foldl_cons, ih, List.length_set]

theorem maxSize_clear (b : CircularBuffer α) : b.clear.maxSize = b.maxSize :=
  length_destroyed b b.buffer _

theorem Holds.clear (h : b.Holds xs) : b.clear.Holds [] where
  count_eq := rfl
  le := Nat.zero_le _
  rpos_lt := by rw [maxSize_clear]; exact h.rpos_lt
  slots := fun _ hi => absurd hi (Nat.not_lt_zero _)

theorem Holds.get (h : b.Holds xs) (i : Nat) : b.get i = xs[i]? := by
  rw [CircularBuffer.get, h.count_eq]
  by_cases hi : i < xs.length
  · rw [if_pos hi, h.slots i hi, List.getElem?_eq_getElem hi]
    rfl
  · rw [if_neg hi, List.getElem?_eq_none (Nat.not_lt.mp hi)]

/-! ### Runs -/

/-- An operation of a circular buffer -/
inductive Op (α : Type) where
  | push (t : α)
  | pop
  | clear
  | get (i : Nat)
  deriving DecidableEq, Repr

/-- One operation, with the object that an indexed access reads. -/
def step (b : CircularBuffer α) : Op α → Option (CircularBuffer α × Option α)
  | .push t => (b.push t).map fun b => (b, none)
  | .pop => b.pop.map fun b => (b, none)
  | .clear => some (b.clear, none)
  | .get i => (b.get i).map fun x => (b, some x)

/-- One operation on the list of the stored objects. -/
def listStep (maxSize : Nat) (xs : List α) : Op α → Option (List α × Option α)
  | .push t => if xs.length < maxSize then some (xs ++ [t], none) else none
  | .pop => if xs = [] then none else some (xs.tail, none)
  | .clear => some ([], none)
  | .get i => xs[i]?.map fun x => (xs, some x)

theorem step_refines {maxSize : Nat} (op : Op α) (h : b.Holds xs ∧ b.maxSize = maxSize) :
    Option.Rel (fun r t => (r.1.Holds t.1 ∧ r.1.maxSize = maxSize) ∧ r.2 = t.2) (b.step op)
      (listStep maxSize xs op) := by
  obtain ⟨h, rfl⟩ := h
  cases op with
  | push t =>
    by_cases hlt : xs.length < b.maxSize
    · obtain ⟨b', hpush, hmax, hholds⟩ := h.push hlt t
      rw [step, hpush, listStep, if_pos hlt]
      exact .some ⟨⟨hholds, hmax⟩, rfl⟩
    · have hfull : b.full = true := h.full_iff.mpr (by have := h.le; omega)
      rw [step, CircularBuffer.push, if_pos hfull, listStep, if_neg hlt]
      exact .none
  | pop =>
    cases xs with
    | nil =>
      rw [step, CircularBuffer.pop, if_pos (show b.count = 0 from h.count_eq)]
      exact .none
    | cons x xs =>
      obtain ⟨b', hpop, hmax, hholds⟩ := h.pop
      rw [step, hpop, listStep, if_neg (List.cons_ne_nil x xs)]
      exact .some ⟨⟨hholds, hmax⟩, rfl⟩
  | clear => exact .some ⟨⟨h.clear, maxSize_clear b⟩, rfl⟩
  | get i =>
    rw [step, listStep, h.get]
    cases xs[i]? with
    | none => exact .none
    | some x => exact .some ⟨⟨h, rfl⟩, rfl⟩

/-- A run from the empty buffer acts like the run on the list of the stored objects. -/
theorem run_refines (maxSize : Nat) (ops : List (Op α)) :
    Option.Rel (fun r t => (r.1.Holds t.1 ∧ r.1.maxSize = maxSize) ∧ r.2 = t.2)
      (run step (empty maxSize) ops) (run (listStep maxSize) [] ops) :=
  run_simulation (fun (b : CircularBuffer α) xs => b.Holds xs ∧ b.maxSize = maxSize)
    (fun _ _ op h => step_refines op h) ops _ _ ⟨holds_empty maxSize, List.length_replicate⟩

/-! ### The iteration -/

/-- `func` on the objects of a list in turn, up to the first answer true. -/
def firstMatch (func : α → σ → Bool × α × σ) : List α → σ → Bool × List α × σ
  | [], s => (false, [], s)
  | x :: xs, s =>
    let r := func x s
    if r.1 then (true, r.2.1 :: xs, r.2.2)
    else
      let rs := firstMatch func xs r.2.2
      (rs.1, r.2.1 :: rs.2.1, rs.2.2)

theorem Holds.slot_lt (h : b.Holds (xs ++ x :: ys)) : b.slot xs.length < b.maxSize := by
  have hle := h.le
  rw [List.length_append, List.length_cons] at hle
  exact Nat.mod_lt _ (by omega)

/-- The iterator at a stored object reads it. -/
theorem Holds.deref (h : b.Holds (xs ++ x :: ys)) : b.deref (b.slot xs.length) = some x := by
  have hle := h.le
  have hcount := h.count_eq
  rw [List.length_append, List.length_cons] at hle hcount
  have hr := h.rpos_lt (by omega)
  have hslot : b.slot xs.length =
      if b.rpos + xs.length < b.maxSize then b.rpos + xs.length
      else b.rpos + xs.length - b.maxSize := by
    rw [slot]
    split
    · exact Nat.mod_eq_of_lt ‹_›
    · rw [Nat.mod_eq_sub_mod (by omega), Nat.mod_eq_of_lt (by omega)]
  have hbound : b.slot xs.length + (if b.rpos ≤ b.slot xs.length then 0 else b.maxSize) <
      b.rpos + b.count := by
    rw [hslot]
    split <;> split <;> omega
  have hread := h.slots xs.length (by simp)
  rw [List.getElem_append_right (Nat.le_refl _)] at hread
  rw [CircularBuffer.deref, if_pos hbound, hread]
  simp

/-- An object changed in place. -/
theorem Holds.set (h : b.Holds (xs ++ x :: ys)) (y : α) :
    { b with buffer := b.buffer.set (b.slot xs.length) (some y) }.Holds (xs ++ y :: ys) := by
  have hcount := h.count_eq
  have hle := h.le
  rw [List.length_append, List.length_cons] at hcount hle
  refine ⟨by simpa using hcount, by simpa [maxSize] using hle, fun hlt => ?_, fun i hi => ?_⟩
  · simp only [maxSize, List.length_set] at hlt ⊢
    exact h.rpos_lt hlt
  · rw [List.length_append, List.length_cons] at hi
    simp only [slot, maxSize, List.length_set]
    by_cases heq : i = xs.length
    · subst heq
      rw [show (b.rpos + xs.length) % b.buffer.length = b.slot xs.length from rfl,
        List.getElem?_set_self h.slot_lt, List.getElem_append_right (Nat.le_refl _)]
      simp
    · rw [List.getElem?_set_ne]
      · have hread := h.slots i (by simp; omega)
        rw [show (b.rpos + i) % b.buffer.length = b.slot i from rfl, hread]
        congr 2
        rw [List.getElem_append, List.getElem_append]
        split
        · rfl
        · rw [List.getElem_cons, List.getElem_cons, dif_neg (by omega), dif_neg (by omega)]
      · intro hslot
        exact heq (slot_inj (h.rpos_lt (by omega)) (by omega) (by omega) hslot).symm

/-- The loop over the objects that are left, while the buffer is not full. -/
theorem applyLoop_eq (func : α → σ → Bool × α × σ) (xs : List α) (fuel : Nat) (s : σ)
    (h : b.Holds (xs ++ ys)) (hlt : (xs ++ ys).length < b.maxSize) (hfuel : ys.length ≤ fuel) :
    ∃ b', applyLoop func (b.slot b.count) b (b.slot xs.length) s fuel =
        some ((firstMatch func ys s).1, b', (firstMatch func ys s).2.2) ∧
      b'.maxSize = b.maxSize ∧ b'.Holds (xs ++ (firstMatch func ys s).2.1) := by
  induction ys generalizing b xs fuel s with
  | nil =>
    have hend : b.slot xs.length = b.slot b.count := by rw [h.count_eq, List.append_nil]
    refine ⟨b, ?_, rfl, h⟩
    cases fuel with
    | zero => rw [applyLoop, if_pos hend, firstMatch]
    | succ fuel => rw [applyLoop, if_pos hend, firstMatch]
  | cons x ys ih =>
    have hcount := h.count_eq
    rw [List.length_append, List.length_cons] at hlt hcount
    cases fuel with
    | zero => exact absurd hfuel (Nat.not_succ_le_zero _)
    | succ fuel =>
      have hend : b.slot xs.length ≠ b.slot b.count := by
        intro heq
        have := slot_inj (h.rpos_lt (by omega)) (by omega) (by omega) heq
        omega
      rw [applyLoop, if_neg hend, h.deref]
      simp only [Option.bind_eq_bind, Option.bind_some]
      have hset := h.set (func x s).2.1
      by_cases hit : (func x s).1 = true
      · rw [if_pos hit, firstMatch, if_pos hit]
        exact ⟨_, rfl, List.length_set, hset⟩
      · rw [if_neg hit, firstMatch, if_neg hit]
        have hmax : ({ b with buffer := b.buffer.set (b.slot xs.length) (some (func x s).2.1) } :
            CircularBuffer α).maxSize = b.maxSize := List.length_set
        have hnext := ih (xs ++ [(func x s).2.1]) fuel (func x s).2.2
          (by rw [List.append_assoc]; exact hset)
          (by rw [hmax, List.length_append, List.length_append, List.length_singleton]; omega)
          (by rw [List.length_cons] at hfuel; omega)
        rw [List.length_append, List.length_singleton] at hnext
        simp only [slot, maxSize, List.length_set, List.append_assoc, List.singleton_append]
          at hnext
        simp only [slot, maxSize, List.length_set, Nat.mod_add_mod, Nat.add_assoc]
        exact hnext

/-- What a visit records: the answer of a predicate, and the objects it was applied to. -/
def logged (p : α → Bool) (x : α) (log : List α) : Bool × α × List α := (p x, x, log ++ [x])

theorem firstMatch_logged (p : α → Bool) (xs log : List α) :
    firstMatch (logged p) xs log = (xs.any p, xs, log ++ xs.take (xs.findIdx p + 1)) := by
  induction xs generalizing log with
  | nil => simp [firstMatch]
  | cons x xs ih =>
    by_cases hp : p x = true
    · simp [firstMatch, logged, hp, List.findIdx_cons]
    · simp [firstMatch, logged, hp, List.findIdx_cons, ih]

/-- From `begin()` to `end()` the objects `xs` are visited in turn, and `apply_first` finds out
whether a predicate holds of one of them, applying it up to the first of these. -/
def Iterates (b : CircularBuffer α) (xs : List α) : Prop :=
  b.visited = some xs ∧ ∀ p : α → Bool,
    (b.applyFirst (logged p) []).map (fun r => (r.1, r.2.2)) =
      some (xs.any p, xs.take (xs.findIdx p + 1))

theorem Holds.applyFirst (h : b.Holds xs) (hlt : xs.length < b.maxSize)
    (func : α → σ → Bool × α × σ) (s : σ) :
    ∃ b', b.applyFirst func s =
        some ((firstMatch func xs s).1, b', (firstMatch func xs s).2.2) ∧
      b'.maxSize = b.maxSize ∧ b'.Holds (firstMatch func xs s).2.1 := by
  have hloop := applyLoop_eq func [] b.maxSize s h hlt (by omega)
  have hr := h.rpos_lt (by omega)
  rw [show b.slot ([] : List α).length = b.rpos from Nat.mod_eq_of_lt hr] at hloop
  rw [CircularBuffer.applyFirst, endIdx, if_neg (by omega)]
  exact hloop

/-- In a full buffer `end()` is `begin()`. -/
theorem Holds.applyFirst_full (h : b.Holds xs) (hfull : xs.length = b.maxSize)
    (hpos : 0 < b.maxSize) (func : α → σ → Bool × α × σ) (s : σ) :
    b.applyFirst func s = some (false, b, s) := by
  have hend : b.slot b.count = b.rpos := by
    rw [slot, h.count_eq, hfull, Nat.add_mod_right, Nat.mod_eq_of_lt (h.rpos_lt hpos)]
  rw [CircularBuffer.applyFirst, endIdx, if_neg (by omega), hend]
  obtain ⟨fuel, hfuel⟩ := Nat.exists_eq_succ_of_ne_zero (Nat.pos_iff_ne_zero.mp hpos)
  rw [hfuel]
  exact if_pos rfl

theorem applyFirst_zero (hzero : b.maxSize = 0) (func : α → σ → Bool × α × σ) (s : σ) :
    b.applyFirst func s = none := by
  rw [CircularBuffer.applyFirst, endIdx, if_pos hzero]
  rfl

/-- The iteration reaches the stored objects exactly while the buffer is not full. -/
theorem Holds.iterates_iff (h : b.Holds xs) : b.Iterates xs ↔ xs.length < b.maxSize := by
  constructor
  · rintro ⟨hvisited, -⟩
    by_contra hge
    have hfull : xs.length = b.maxSize := Nat.le_antisymm h.le (Nat.not_lt.mp hge)
    rcases Nat.eq_zero_or_pos b.maxSize with hzero | hpos
    · rw [visited, applyFirst_zero hzero] at hvisited
      cases hvisited
    · rw [visited, h.applyFirst_full hfull hpos] at hvisited
      cases hvisited
      rw [List.length_nil] at hfull
      omega
  · intro hlt
    have hlogged (p : α → Bool) : (b.applyFirst (logged p) []).map (fun r => (r.1, r.2.2)) =
        some (xs.any p, xs.take (xs.findIdx p + 1)) := by
      obtain ⟨b', hrun, -⟩ := h.applyFirst hlt (logged p) []
      rw [hrun, firstMatch_logged]
      rfl
    refine ⟨?_, hlogged⟩
    have hall := congrArg (Option.map Prod.snd) (hlogged fun _ => false)
    rw [Option.map_map, Option.map_some, List.findIdx_eq_length_of_false (by simp),
      List.take_of_length_le (Nat.le_succ _)] at hall
    exact hall

end CircularBuffer

end Odss.Common
