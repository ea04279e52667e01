import Odss.Asn1.Arrays
import Mathlib.Data.List.GetD

/-!
# `Odss.Proofs.ArrayRefine`: arrays that grow are lists

`ListStep` is what an operation does to lists. An `ext_array` that grows takes its elements from the
small buffer, and so loses them when they are in heap memory, and sizes near `2 ^ 32` wrap around.
In runs without such a step the arrays stay what the lists are.

* `cells` is the memory of an array, and the lemmas about it are one per function.
* `resize_spec` of either array is the only place where the storage changes.
* `arraysRefine_of_clean` is the result, for runs of both arrays.
-/

set_option linter.all false

namespace Odss.Asn1.Arrays

open Odss.Rlc (subU32)

variable {α : Type}

/-! ### What is meant -/

/-- A list that is resized keeps its first elements. -/
def Resized (l : List α) (newSize : Nat) (l' : List α) : Prop :=
  l'.length = newSize ∧ l.take newSize <+: l'

/-- The value of an argument. -/
def Arg.valueIn (l : List α) (arg : Arg α) : Option α := arg.read fun k => l[k]?

namespace ExtArray

/-- An operation on the arrays of a program, which are numbered as they are made. -/
inductive Op (α : Type) where
  | create
  | pushBack (i : Nat) (arg : Arg α)
  | resize (i : Nat) (newSize : UInt32)
  | copy (i : Nat)
  | move (i : Nat)
  | assign (i j : Nat)

/-- One operation, with the memory that it is given. -/
def step (L : Layout α) (fresh small : Memory α) (st : List (ExtArray α)) :
    Op α → Option (List (ExtArray α))
  | .create => some (st ++ [empty small])
  | .pushBack i arg => do pure (st.set i (← (← st[i]?).pushBack L fresh arg))
  | .resize i newSize => do pure (st.set i (← (← st[i]?).resize L fresh newSize.toNat))
  | .copy i => do pure (st ++ [← (← st[i]?).copy L fresh small])
  | .move i => do
    let (a, other) ← (← st[i]?).move L small
    pure (st.set i other ++ [a])
  | .assign i j => do
    if i = j then some st else pure (st.set i (← (← st[i]?).assign L fresh (← st[j]?)))

/-- What an operation does to lists. -/
inductive ListStep : List (List α) → Op α → List (List α) → Prop where
  | create (ls) : ListStep ls .create (ls ++ [[]])
  | pushBack {ls i arg l x} (h : ls[i]? = some l) (hx : arg.valueIn l = some x) :
    ListStep ls (.pushBack i arg) (ls.set i (l ++ [x]))
  | resize {ls i newSize l l'} (h : ls[i]? = some l) (hl : Resized l newSize.toNat l') :
    ListStep ls (.resize i newSize) (ls.set i l')
  | copy {ls i l} (h : ls[i]? = some l) : ListStep ls (.copy i) (ls ++ [l])
  | move {ls i l rest} (h : ls[i]? = some l) (hrest : rest <+: l) :
    ListStep ls (.move i) (ls.set i rest ++ [l])
  | assign {ls i j l} (h : ls[j]? = some l) : ListStep ls (.assign i j) (ls.set i l)

section

variable (L : Layout α)

/-- The memory that `head` points to. -/
def cells (a : ExtArray α) : List α :=
  match a.heap with
  | none => (List.range L.nthres).map a.small
  | some cells => cells

/-- The elements. -/
def elems (a : ExtArray α) : List α := (a.cells L).take a.size

/-- The arrays and elements of an operation exist. -/
def Op.On (st : List (ExtArray α)) : Op α → Prop
  | create => True
  | pushBack i arg => ∃ a, st[i]? = some a ∧ ∀ k, arg = .element k → k < a.size
  | resize i _ => i < st.length
  | copy i => i < st.length
  | move i => i < st.length
  | assign i j => i < st.length ∧ j < st.length

/-- The states of a program whose steps are all allowed. -/
inductive Reached (allowed : List (ExtArray α) → Op α → Prop) : List (ExtArray α) → Prop where
  | start : Reached allowed []
  | next {st st' op fresh small} (h : Reached allowed st) (hop : op.On st) (hstep : allowed st op)
      (hst' : step L fresh small st op = some st') : Reached allowed st'

/-- Whenever its steps are allowed, a program uses arrays as lists. -/
def RefinesLists (allowed : List (ExtArray α) → Op α → Prop) : Prop :=
  ∀ st, Reached L allowed st → ∀ op : Op α, op.On st → allowed st op → ∀ fresh small,
    ∃ st', step L fresh small st op = some st' ∧ (∀ a ∈ st', a.size ≤ (a.cells L).length) ∧
      ListStep (st.map (elems L)) op (st'.map (elems L))

/-- The array has to grow. -/
def Grows (a : ExtArray α) (newSize : Nat) : Prop := a.capacity L < newSize

/-- An array grows from where its elements are, to a capacity that has 32 bits. -/
def GrowsWell (a : ExtArray α) (newSize : Nat) : Prop :=
  newSize + 5 < 2 ^ 32 ∧ (a.heap = none ∨ a.size = 0)

/-- An operation that does not meet the faults. -/
def Clean (st : List (ExtArray α)) : Op α → Prop
  | .create => True
  | .pushBack i arg => ∀ a, st[i]? = some a → a.size + 1 < 2 ^ 32 ∧
    (a.Grows L (a.size + 1) → a.GrowsWell (a.size + 1) ∧
      -- The new capacity is written to the small buffer before the argument is read.
      ∀ k, arg = .element k → L.overlay (a.size + 6) a.small k = a.small k)
  | .resize i newSize => ∀ a, st[i]? = some a → a.Grows L newSize.toNat → a.GrowsWell newSize.toNat
  | .copy i => ∀ a, st[i]? = some a → L.nthres < a.size → a.size + 5 < 2 ^ 32
  | .move _ => True
  | .assign i j => i ≠ j → ∀ a b, st[i]? = some a → st[j]? = some b → a.Grows L b.size →
    b.size + 5 < 2 ^ 32 ∧ (a.heap = none ∨ a.size ≤ L.nthres)

end

end ExtArray

namespace DynArray

/-- An operation on an array. -/
inductive Op (α : Type) where
  | pushBack (arg : Arg α)
  | resize (newSize newCap : UInt32)
  | erase (it : Nat)

/-- One operation, with the memory that it is given. -/
def step (fresh : Memory α) (a : DynArray α) : Op α → Option (DynArray α)
  | .pushBack arg => a.pushBack fresh arg
  | .resize newSize newCap => a.resize fresh newSize.toNat newCap.toNat
  | .erase it => a.erase it

/-- What an operation does to a list. -/
inductive ListStep : List α → Op α → List α → Prop where
  | pushBack {l arg x} (hx : arg.valueIn l = some x) : ListStep l (.pushBack arg) (l ++ [x])
  | resize {l newSize newCap l'} (hl : Resized l newSize.toNat l') :
    ListStep l (.resize newSize newCap) l'
  | erase (l it) : ListStep l (.erase it) (l.eraseIdx it)

/-- The memory of the array. -/
def cells (a : DynArray α) : List α := a.data.getD []

/-- The elements. -/
def elems (a : DynArray α) : List α := a.cells.take a.size

/-- An argument of an operation exists. -/
def Op.On (a : DynArray α) (op : Op α) : Prop := ∀ k, op = .pushBack (.element k) → k < a.size

/-- The states of an array whose steps are all allowed. -/
inductive Reached (allowed : DynArray α → Op α → Prop) : DynArray α → Prop where
  | empty : Reached allowed empty
  | ofSize (fresh : Memory α) (newSize : UInt32) : Reached allowed (ofSize fresh newSize.toNat)
  | next {a a' op fresh} (h : Reached allowed a) (hop : op.On a) (hstep : allowed a op)
      (ha' : step fresh a op = some a') : Reached allowed a'

/-- Whenever its steps are allowed, a program uses an array as a list. -/
def RefinesLists (allowed : DynArray α → Op α → Prop) : Prop :=
  ∀ a, Reached allowed a → ∀ op : Op α, op.On a → allowed a op → ∀ fresh,
    ∃ a', step fresh a op = some a' ∧ a'.size ≤ a'.cells.length ∧ ListStep a.elems op a'.elems

/-- An operation that does not meet the faults. -/
def Clean (a : DynArray α) : Op α → Prop
  | .pushBack arg => a.size + 1 < 2 ^ 32 ∧ (a.cap < a.size + 1 → ∀ k, arg ≠ .element k)
  | _ => True

end DynArray

/-! ### Lists -/

/-- An element behind the first `n` ones. -/
theorem take_succ_set {l : List α} {n : Nat} (h : n < l.length) (x : α) :
    (l.set n x).take (n + 1) = l.take n ++ [x] := by
  rw [List.take_succ_eq_append_getElem (by rwa [List.length_set]),
    List.take_set_of_le (Nat.le_refl _), List.getElem_set_self]

/-- Elements that are copied to the start of an array. -/
theorem copyTo_eq {cells elems : List α} (h : elems.length ≤ cells.length) :
    copyTo cells elems = some (elems ++ cells.drop elems.length) := if_pos h

/-- Elements that stay where they are. -/
theorem resized_take {l : List α} {m n : Nat} (h : n ≤ l.length) :
    Resized (l.take m) n (l.take n) := by
  refine ⟨List.length_take_of_le h, ?_⟩
  rw [List.take_take]
  exact List.take_prefix_take_left (Nat.min_le_left _ _)

/-- Elements that are copied to an array that is larger. -/
theorem resized_append {l rest : List α} {n : Nat} (hl : l.length ≤ n)
    (h : n ≤ (l ++ rest).length) : Resized l n ((l ++ rest).take n) := by
  refine ⟨List.length_take_of_le h, ?_⟩
  rw [List.take_append, List.take_of_length_le hl]
  exact List.prefix_append _ _

/-- An array with one more element starts with those of before. -/
theorem Resized.take_eq {l cells : List α} {n : Nat} (hl : l.length = n)
    (h : Resized l (n + 1) (cells.take (n + 1))) : cells.take n = l := by
  have hprefix := h.2
  rw [List.take_of_length_le (by omega), List.prefix_iff_eq_take, hl, List.take_take,
    Nat.min_eq_left (Nat.le_succ _)] at hprefix
  exact hprefix.symm

/-! ### `ext_array` -/

namespace ExtArray

variable {L : Layout α} {a b : ExtArray α} {newSize : Nat}

/-- An array has its elements, and knows how many it has room for. -/
structure WF (L : Layout α) (a : ExtArray α) : Prop where
  size_le : a.size ≤ (a.cells L).length
  cap_eq : a.capacity L = (a.cells L).length

theorem cells_none (h : a.heap = none) : a.cells L = (List.range L.nthres).map a.small := by
  rw [cells, h]

theorem cells_some {mem : List α} (h : a.heap = some mem) : a.cells L = mem := by
  rw [cells, h]

theorem fromHead_eq (a : ExtArray α) {n : Nat} (h : n ≤ (a.cells L).length) :
    a.fromHead L n = some ((a.cells L).take n) := by
  unfold fromHead
  cases hheap : a.heap with
  | none =>
    rw [cells_none hheap] at h ⊢
    rw [List.length_map, List.length_range] at h
    dsimp only
    rw [fromSmall, if_pos h, ← List.map_take, List.take_range, Nat.min_eq_left h]
  | some mem =>
    rw [cells_some hheap] at h ⊢
    exact if_pos h

theorem get_eq (a : ExtArray α) (i : Nat) : a.get L i = (a.cells L)[i]? := by
  unfold get
  cases hheap : a.heap with
  | none =>
    rw [cells_none hheap, List.getElem?_map]
    dsimp only
    split
    · rename_i h
      rw [List.getElem?_range h]
      rfl
    · rename_i h
      rw [List.getElem?_eq_none (by rw [List.length_range]; omega)]
      rfl
  | some mem => rw [cells_some hheap]

/-- An element is written. -/
theorem put_spec (a : ExtArray α) {i : Nat} (h : i < (a.cells L).length) (x : α) :
    ∃ b, a.put L i x = some b ∧ b.size = a.size ∧ b.capacity L = a.capacity L ∧
      b.cells L = (a.cells L).set i x := by
  unfold put
  cases hheap : a.heap with
  | none =>
    rw [cells_none hheap] at h ⊢
    rw [List.length_map, List.length_range] at h
    refine ⟨_, if_pos h, rfl, by rw [capacity, capacity, hheap], ?_⟩
    rw [cells_none rfl]
    refine List.ext_getElem (by simp) fun k hk hk' => ?_
    simp only [List.getElem_map, List.getElem_range, List.getElem_set, eq_comm]
  | some mem =>
    rw [cells_some hheap] at h ⊢
    exact ⟨_, if_pos h, rfl, by rw [capacity, capacity, hheap], rfl⟩

/-- Elements are written to the start. -/
theorem copyToHead_spec (a : ExtArray α) {elems : List α} (h : elems.length ≤ (a.cells L).length) :
    ∃ b, a.copyToHead L elems = some b ∧ b.size = a.size ∧ b.capacity L = a.capacity L ∧
      b.cells L = elems ++ (a.cells L).drop elems.length := by
  unfold copyToHead
  cases hheap : a.heap with
  | none =>
    rw [cells_none hheap] at h ⊢
    rw [List.length_map, List.length_range] at h
    refine ⟨_, if_pos h, rfl, by rw [capacity, capacity, hheap], ?_⟩
    rw [cells_none rfl]
    refine List.ext_getElem (by simp; omega) fun k hk hk' => ?_
    rw [List.getElem_map, List.getElem_range, List.getElem_append]
    split
    · rename_i hlt
      exact List.getD_eq_getElem _ _ hlt
    · rename_i hge
      rw [List.getElem_drop, List.getElem_map, List.getElem_range,
        Nat.add_sub_cancel' (Nat.le_of_not_lt hge)]
      exact List.getD_eq_default _ _ (Nat.le_of_not_lt hge)
  | some mem =>
    rw [cells_some hheap] at h ⊢
    dsimp only
    rw [copyTo_eq h]
    exact ⟨_, rfl, rfl, by rw [capacity, capacity, hheap], rfl⟩

/-- The memory changes only when the array grows. -/
theorem resize_spec (fresh : Memory α) (h : a.WF L)
    (hgrow : a.Grows L newSize → newSize + 5 < 2 ^ 32 ∧ (a.heap = none ∨ a.size ≤ L.nthres)) :
    ∃ b, a.resize L fresh newSize = some b ∧ b.size = newSize ∧ b.WF L ∧
      (¬ a.Grows L newSize → b.cells L = a.cells L ∧ b.heap = a.heap ∧ b.small = a.small) ∧
      (a.Grows L newSize → b.small = L.overlay (newSize + 5) a.small ∧
        (a.GrowsWell newSize → Resized (a.elems L) newSize (b.elems L))) := by
  have hroom := h.size_le
  have hcap := h.cap_eq
  unfold resize
  by_cases hgrows : a.Grows L newSize
  · obtain ⟨h32, hsmall⟩ := hgrow hgrows
    have hlt : a.capacity L < newSize := hgrows
    have hsize : a.size ≤ L.nthres := by
      rcases hsmall with hnone | hle
      · rwa [cells_none hnone, List.length_map, List.length_range] at hroom
      · exact hle
    rw [if_neg (by omega), if_neg (by omega), Nat.mod_eq_of_lt h32, fromSmall, if_pos hsize]
    have hold : ((List.range a.size).map a.small).length = a.size := by
      rw [List.length_map, List.length_range]
    have hnew : ((List.range (newSize + 5)).map fresh).length = newSize + 5 := by
      rw [List.length_map, List.length_range]
    rw [Option.bind_eq_bind, Option.bind_some, copyTo_eq (by omega)]
    have hlen : (((List.range a.size).map a.small) ++ (((List.range (newSize + 5)).map fresh).drop
        ((List.range a.size).map a.small).length)).length = newSize + 5 := by
      rw [List.length_append, List.length_drop]
      omega
    refine ⟨_, rfl, rfl, ⟨?_, hlen.symm⟩, fun hno => absurd hgrows hno,
      fun _ => ⟨rfl, fun hwell => ?_⟩⟩
    · exact Nat.le_trans (Nat.le_add_right _ 5) (Nat.le_of_eq hlen.symm)
    · have helems : a.elems L = (List.range a.size).map a.small := by
        rcases hwell.2 with hnone | hzero
        · rw [elems, cells_none hnone, ← List.map_take, List.take_range, Nat.min_eq_left hsize]
        · rw [elems, hzero]
          rfl
      rw [helems]
      exact resized_append (by omega) (by omega)
  · have hle : newSize ≤ a.capacity L := Nat.le_of_not_lt hgrows
    by_cases heq : newSize = a.size
    · exact ⟨a, if_pos heq, heq.symm, h, fun _ => ⟨rfl, rfl, rfl⟩, fun hg => absurd hg hgrows⟩
    · rw [if_neg heq, if_pos hle]
      exact ⟨_, rfl, rfl, ⟨hcap ▸ hle, hcap⟩, fun _ => ⟨rfl, rfl, rfl⟩, fun hg => absurd hg hgrows⟩

/-- Memory that is allocated for an array without elements holds any elements. -/
theorem resize_elems (fresh : Memory α) (h : a.WF L)
    (hgrow : a.Grows L newSize → a.GrowsWell newSize) :
    ∃ b, a.resize L fresh newSize = some b ∧ b.size = newSize ∧ b.WF L ∧
      Resized (a.elems L) newSize (b.elems L) := by
  have hroom := h.size_le
  have hold : a.Grows L newSize → newSize + 5 < 2 ^ 32 ∧ (a.heap = none ∨ a.size ≤ L.nthres) :=
    fun hg => ⟨(hgrow hg).1, (hgrow hg).2.imp_right fun hzero => by omega⟩
  obtain ⟨b, hb, hsize, hwf, hstay, hmoved⟩ := resize_spec fresh h hold
  refine ⟨b, hb, hsize, hwf, ?_⟩
  by_cases hg : a.Grows L newSize
  · exact (hmoved hg).2 (hgrow hg)
  · have hle : newSize ≤ (a.cells L).length := h.cap_eq ▸ Nat.le_of_not_lt hg
    rw [elems, elems, hsize, (hstay hg).1]
    exact resized_take hle

/-- An argument is read as the value that it had. -/
theorem getRef_eq {k : Nat} (h : a.WF L) (hk : k < a.size)
    (hcells : ¬ a.Grows L newSize → b.cells L = a.cells L)
    (hsmall : a.heap = none → b.small k = a.small k)
    (hheap : a.Grows L newSize → a.heap = none) :
    getRef L a b newSize k = (a.elems L)[k]? := by
  have hroom := h.size_le
  have helem : (a.elems L)[k]? = a.get L k := by
    rw [get_eq, elems, List.getElem?_take_of_lt hk]
  rw [helem, getRef]
  cases hnone : a.heap with
  | none =>
    dsimp only
    rw [get, hnone, hsmall hnone]
  | some mem =>
    have hno : ¬ a.Grows L newSize := fun hg => by
      rw [hheap hg] at hnone
      exact absurd hnone (by simp)
    dsimp only
    rw [if_pos (Nat.le_of_not_lt hno), get_eq, get_eq, hcells hno]

/-- The number of elements. -/
theorem elems_length (h : a.WF L) : (a.elems L).length = a.size := List.length_take_of_le h.size_le

/-- `push_back` appends its argument. -/
theorem pushBack_spec (fresh : Memory α) (h : a.WF L) {arg : Arg α}
    (harg : ∀ k, arg = .element k → k < a.size) (hsize : a.size + 1 < 2 ^ 32)
    (hgrow : a.Grows L (a.size + 1) → a.GrowsWell (a.size + 1) ∧
      ∀ k, arg = .element k → L.overlay (a.size + 6) a.small k = a.small k) :
    ∃ b x, a.pushBack L fresh arg = some b ∧ b.WF L ∧ arg.valueIn (a.elems L) = some x ∧
      b.elems L = a.elems L ++ [x] := by
  have hlen := elems_length h
  have hold : a.Grows L (a.size + 1) →
      a.size + 1 + 5 < 2 ^ 32 ∧ (a.heap = none ∨ a.size ≤ L.nthres) :=
    fun hg => ⟨(hgrow hg).1.1, (hgrow hg).1.2.imp_right fun hzero => by omega⟩
  obtain ⟨b, hb, hbsize, hbwf, hstay, hmoved⟩ := resize_spec fresh h hold
  have hbroom := hbwf.size_le
  -- The elements of before are the first ones.
  obtain ⟨b', hb', -, -, hresized⟩ := resize_elems fresh h fun hg => (hgrow hg).1
  obtain rfl : b' = b := Option.some.inj (hb'.symm.trans hb)
  have hfirst : (b'.cells L).take a.size = a.elems L := by
    rw [elems.eq_def L b', hbsize] at hresized
    exact hresized.take_eq hlen
  have hvalue : ∃ x, arg.valueIn (a.elems L) = some x ∧
      arg.read (getRef L a b' (a.size + 1)) = some x := by
    cases arg with
    | value x => exact ⟨x, rfl, rfl⟩
    | element k =>
      have hk := harg k rfl
      have hget := @getRef_eq _ _ _ b' _ _ h hk (fun hno => (hstay hno).1)
        (fun _ => by
          by_cases hg : a.Grows L (a.size + 1)
          · rw [(hmoved hg).1]
            exact (hgrow hg).2 k rfl
          · rw [(hstay hg).2.2])
        (fun hg => (hgrow hg).1.2.resolve_right (by omega))
      exact ⟨(a.elems L)[k], List.getElem?_eq_getElem (by omega),
        hget.trans (List.getElem?_eq_getElem (by omega))⟩
  obtain ⟨x, hx, hread⟩ := hvalue
  obtain ⟨c, hc, hcsize, hccap, hccells⟩ := @put_spec _ L b' a.size (by omega) x
  have hsub : subU32 b'.size 1 = a.size := by
    rw [hbsize, subU32, if_pos (by omega), Nat.add_sub_cancel]
  refine ⟨c, x, ?_, ⟨?_, ?_⟩, hx, ?_⟩
  · rw [pushBack, Nat.mod_eq_of_lt hsize]
    simp only [hb, hread, hsub, Option.bind_eq_bind, Option.bind_some]
    exact hc
  · rw [hccells, List.length_set]
    omega
  · rw [hccap, hccells, List.length_set]
    exact hbwf.cap_eq
  · rw [elems, hccells, hcsize, hbsize, take_succ_set (by omega), hfirst]

/-- Elements that are copied to an array that has their size. -/
theorem copyToHead_elems {c : ExtArray α} (hc : c.WF L) (h : a.WF L) (hsize : c.size = a.size) :
    ∃ b, (do c.copyToHead L (← a.fromHead L a.size)) = some b ∧ b.WF L ∧
      b.elems L = a.elems L := by
  have hlen := elems_length h
  have hroom := hc.size_le
  rw [fromHead_eq a h.size_le]
  obtain ⟨b, hb, hbsize, hbcap, hbcells⟩ := @copyToHead_spec _ L c (a.elems L) (by omega)
  have hcells : (b.cells L).length = (c.cells L).length := by
    rw [hbcells, List.length_append, List.length_drop]
    omega
  refine ⟨b, hb, ⟨by omega, by rw [hbcap, hcells]; exact hc.cap_eq⟩, ?_⟩
  rw [elems, hbcells, hbsize, hsize, List.take_append_of_le_length (by omega), ← hlen,
    List.take_length]

/-- The copy constructor makes the same elements. -/
theorem copy_spec (fresh small : Memory α) (h : a.WF L)
    (hgrow : L.nthres < a.size → a.size + 5 < 2 ^ 32) :
    ∃ b, a.copy L fresh small = some b ∧ b.WF L ∧ b.elems L = a.elems L := by
  have hempty : (empty small).WF L := ⟨Nat.zero_le _, by simp [capacity, cells, empty]⟩
  obtain ⟨c, hc, hsize, hwf, -⟩ := @resize_elems _ _ _ a.size fresh hempty
    fun hg => ⟨hgrow hg, .inl rfl⟩
  rw [copy, hc]
  exact copyToHead_elems hwf h hsize

/-- The move constructor makes the same elements, and leaves some of the first ones. -/
theorem move_spec (small : Memory α) (h : a.WF L) :
    ∃ b c, a.move L small = some (b, c) ∧ b.WF L ∧ c.WF L ∧ b.elems L = a.elems L ∧
      c.elems L <+: a.elems L := by
  have hroom := h.size_le
  unfold move
  cases hheap : a.heap with
  | none =>
    rw [cells_none hheap, List.length_map, List.length_range] at hroom
    have hnew : (⟨small, 0, a.size, none⟩ : ExtArray α).WF L := by
      constructor
      · rw [cells_none rfl, List.length_map, List.length_range]
        exact hroom
      · rw [cells_none rfl, List.length_map, List.length_range]
        rfl
    obtain ⟨b, hb, hwf, helems⟩ := copyToHead_elems hnew h rfl
    refine ⟨b, a, ?_, hwf, h, helems, List.prefix_refl _⟩
    dsimp only
    rw [fromHead_eq a h.size_le, Option.bind_eq_bind, Option.bind_some] at hb ⊢
    rw [hb]
    rfl
  | some mem =>
    have hcap := h.cap_eq
    rw [capacity, hheap, cells_some hheap] at hcap
    rw [cells_some hheap] at hroom
    refine ⟨_, _, rfl, ⟨hroom, hcap⟩, ⟨Nat.zero_le _, ?_⟩, ?_, List.nil_prefix⟩
    · rw [cells_none rfl, List.length_map, List.length_range]
      rfl
    · rw [elems, elems, cells_some hheap]
      rfl

/-- An assignment makes the same elements. -/
theorem assign_spec (fresh : Memory α) (h : a.WF L) (hb : b.WF L)
    (hgrow : a.Grows L b.size → b.size + 5 < 2 ^ 32 ∧ (a.heap = none ∨ a.size ≤ L.nthres)) :
    ∃ c, a.assign L fresh b = some c ∧ c.WF L ∧ c.elems L = b.elems L := by
  obtain ⟨c, hc, hsize, hwf, -⟩ := resize_spec fresh h hgrow
  rw [assign, hc]
  exact copyToHead_elems hwf hb hsize

/-- One step of a program keeps the arrays what the lists are. -/
theorem step_refines {st : List (ExtArray α)} {op : Op α} (hwf : ∀ a ∈ st, a.WF L) (hon : op.On st)
    (hclean : Clean L st op) (fresh small : Memory α) :
    ∃ st', step L fresh small st op = some st' ∧ (∀ a ∈ st', a.WF L) ∧
      ListStep (st.map (elems L)) op (st'.map (elems L)) := by
  have hget : ∀ {i : Nat} {a : ExtArray α}, st[i]? = some a →
      (st.map (elems L))[i]? = some (a.elems L) := by
    intro i a ha
    rw [List.getElem?_map, ha]
    rfl
  have hset : ∀ {i : Nat} {b : ExtArray α}, b.WF L → ∀ c ∈ st.set i b, c.WF L := by
    intro i b hb c hc
    rcases List.mem_or_eq_of_mem_set hc with hc | rfl
    · exact hwf c hc
    · exact hb
  have happend : ∀ {st : List (ExtArray α)} {b : ExtArray α}, (∀ a ∈ st, a.WF L) → b.WF L →
      ∀ c ∈ st ++ [b], c.WF L := by
    intro st b hst hb c hc
    rcases List.mem_append.mp hc with hc | hc
    · exact hst c hc
    · exact List.mem_singleton.mp hc ▸ hb
  have hfind : ∀ {i : Nat}, i < st.length → ∃ a, st[i]? = some a ∧ a.WF L := fun h =>
    ⟨_, List.getElem?_eq_getElem h, hwf _ (List.getElem_mem h)⟩
  cases op with
  | create =>
    have hempty : (empty small).WF L := ⟨Nat.zero_le _, by simp [capacity, cells, empty]⟩
    refine ⟨_, rfl, happend hwf hempty, ?_⟩
    rw [List.map_append]
    exact .create _
  | pushBack i arg =>
    obtain ⟨a, ha, harg⟩ := hon
    obtain ⟨hsize, hgrow⟩ := hclean a ha
    obtain ⟨b, x, hb, hbwf, hx, helems⟩ :=
      pushBack_spec fresh (hwf a (List.mem_of_getElem? ha)) harg hsize hgrow
    refine ⟨st.set i b, by rw [step, ha]; simp [hb], hset hbwf, ?_⟩
    rw [List.map_set, helems]
    exact .pushBack (hget ha) hx
  | resize i newSize =>
    obtain ⟨a, ha, hawf⟩ := hfind hon
    obtain ⟨b, hb, -, hbwf, hresized⟩ := resize_elems fresh hawf (hclean a ha)
    refine ⟨st.set i b, by rw [step, ha]; simp [hb], hset hbwf, ?_⟩
    rw [List.map_set]
    exact .resize (hget ha) hresized
  | copy i =>
    obtain ⟨a, ha, hawf⟩ := hfind hon
    obtain ⟨b, hb, hbwf, helems⟩ := copy_spec fresh small hawf (hclean a ha)
    refine ⟨st ++ [b], by rw [step, ha]; simp [hb], happend hwf hbwf, ?_⟩
    rw [List.map_append, List.map_singleton, helems]
    exact .copy (hget ha)
  | move i =>
    obtain ⟨a, ha, hawf⟩ := hfind hon
    obtain ⟨b, c, hbc, hbwf, hcwf, helems, hrest⟩ := move_spec small hawf
    refine ⟨st.set i c ++ [b], by rw [step, ha]; simp [hbc], happend (hset hcwf) hbwf, ?_⟩
    rw [List.map_append, List.map_set, List.map_singleton, helems]
    exact .move (hget ha) hrest
  | assign i j =>
    obtain ⟨a, ha, hawf⟩ := hfind hon.1
    obtain ⟨b, hb, hbwf⟩ := hfind hon.2
    by_cases hij : i = j
    · refine ⟨st, if_pos hij, hwf, ?_⟩
      have hsame : st.set i b = st := by
        obtain ⟨hj, rfl⟩ := List.getElem?_eq_some_iff.mp hb
        subst hij
        exact List.set_getElem_self hj
      have hstep : ListStep _ (.assign i j) ((st.map (elems L)).set i (b.elems L)) :=
        .assign (hget hb)
      rwa [← List.map_set, hsame] at hstep
    · obtain ⟨c, hc, hcwf, helems⟩ := assign_spec fresh hawf hbwf (hclean hij a b ha hb)
      refine ⟨st.set i c, by rw [step, if_neg hij, ha, hb]; simp [hc], hset hcwf, ?_⟩
      rw [List.map_set, helems]
      exact .assign (hget hb)

/-- The arrays that are reached have their elements. -/
theorem Reached.wf {st : List (ExtArray α)} (h : Reached L (Clean L) st) : ∀ a ∈ st, a.WF L := by
  induction h with
  | start => exact fun a ha => absurd ha List.not_mem_nil
  | @next st st' op fresh small _ hop hstep hst' ih =>
    obtain ⟨st₁, hst₁, hwf, -⟩ := step_refines ih hop hstep fresh small
    rw [hst'] at hst₁
    exact Option.some.inj hst₁ ▸ hwf

theorem refinesLists_of_clean (L : Layout α) : RefinesLists L (Clean L) := by
  intro st hst op hon hclean fresh small
  obtain ⟨st', hst', hwf, hlist⟩ := step_refines hst.wf hon hclean fresh small
  exact ⟨st', hst', fun a ha => (hwf a ha).size_le, hlist⟩

end ExtArray

/-! ### `dyn_array` -/

namespace DynArray

variable {a : DynArray α} {newSize newCap : Nat}

/-- An array has its elements, and knows how many it has room for. -/
structure WF (a : DynArray α) : Prop where
  size_le : a.size ≤ a.cells.length
  cap_eq : a.cap = a.cells.length

theorem wf_empty : (empty : DynArray α).WF := ⟨Nat.le_refl _, rfl⟩

theorem wf_ofSize (fresh : Memory α) (n : Nat) : (ofSize fresh n).WF := by
  have hlen : ((List.range n).map fresh).length = n := by rw [List.length_map, List.length_range]
  exact ⟨Nat.le_of_eq hlen.symm, hlen.symm⟩

theorem elems_length (h : a.WF) : a.elems.length = a.size := List.length_take_of_le h.size_le

/-- The elements are kept, in more memory when there is not enough. -/
theorem resize_spec (fresh : Memory α) (h : a.WF) (newSize newCap : Nat) :
    ∃ b, a.resize fresh newSize newCap = some b ∧ b.size = newSize ∧ b.WF ∧
      Resized a.elems newSize b.elems ∧ (newSize ≤ a.cap → b.data = a.data) := by
  have hroom := h.size_le
  have hcap := h.cap_eq
  have hlen := elems_length h
  unfold resize
  by_cases heq : newSize = a.size
  · refine ⟨a, if_pos heq, heq.symm, h, ?_, fun _ => rfl⟩
    have hkeep := @resized_take _ a.cells a.size newSize (by omega)
    rw [heq] at hkeep ⊢
    exact hkeep
  · rw [if_neg heq]
    by_cases hle : newSize ≤ a.cap
    · rw [if_pos hle]
      exact ⟨_, rfl, rfl, ⟨hcap ▸ hle, hcap⟩, resized_take (hcap ▸ hle), fun _ => rfl⟩
    · rw [if_neg hle]
      generalize hnew : (if newSize > newCap then newSize else newCap) = cap
      have hbig : newSize ≤ cap := by
        split at hnew <;> omega
      have hfresh : ((List.range cap).map fresh).length = cap := by
        rw [List.length_map, List.length_range]
      dsimp only
      rw [if_pos (by omega)]
      cases hdata : a.data with
      | none =>
        refine ⟨_, rfl, rfl, ⟨?_, hfresh.symm⟩, ⟨?_, ?_⟩, fun hno => absurd hno hle⟩
        · exact Nat.le_trans hbig (Nat.le_of_eq hfresh.symm)
        · exact List.length_take_of_le (Nat.le_trans hbig (Nat.le_of_eq hfresh.symm))
        · rw [elems, cells, hdata]
          simp
      | some old =>
        have hold : a.cells = old := by rw [cells, hdata]; rfl
        have helems : a.elems = old.take a.size := by rw [elems, hold]
        rw [hold] at hroom hcap
        rw [helems] at hlen ⊢
        dsimp only
        rw [if_neg (by omega), copyTo_eq (by omega)]
        have htotal : (old.take a.size ++ ((List.range cap).map fresh).drop
            (old.take a.size).length).length = cap := by
          rw [List.length_append, List.length_drop]
          omega
        refine ⟨_, rfl, rfl, ⟨?_, htotal.symm⟩, ?_, fun hno => absurd hno hle⟩
        · exact Nat.le_trans hbig (Nat.le_of_eq htotal.symm)
        · exact resized_append (by omega) (by omega)

/-- `push_back` appends its argument. -/
theorem pushBack_spec (fresh : Memory α) (h : a.WF) {arg : Arg α}
    (harg : ∀ k, arg = .element k → k < a.size) (hsize : a.size + 1 < 2 ^ 32)
    (hgrow : a.cap < a.size + 1 → ∀ k, arg ≠ .element k) :
    ∃ b x, a.pushBack fresh arg = some b ∧ b.WF ∧ arg.valueIn a.elems = some x ∧
      b.elems = a.elems ++ [x] := by
  have hlen := elems_length h
  obtain ⟨b, hb, hbsize, hbwf, hresized, hstay⟩ :=
    resize_spec fresh h (a.size + 1) (a.size * 2 % 2 ^ 32)
  have hbroom := hbwf.size_le
  obtain ⟨cells, hdata⟩ : ∃ cells, b.data = some cells := by
    cases hdata : b.data with
    | none =>
      rw [DynArray.cells, hdata, hbsize] at hbroom
      exact absurd hbroom (by simp)
    | some cells => exact ⟨cells, rfl⟩
  have hcells : b.cells = cells := by
    rw [DynArray.cells, hdata]
    rfl
  rw [hcells] at hbroom
  have hfirst : cells.take a.size = a.elems := by
    rw [elems.eq_def b, hcells, hbsize] at hresized
    exact hresized.take_eq hlen
  have hvalue : ∃ x, arg.valueIn a.elems = some x ∧
      (arg.read fun k => if a.size + 1 ≤ a.cap then cells[k]? else none) = some x := by
    cases arg with
    | value x => exact ⟨x, rfl, rfl⟩
    | element k =>
      have hk := harg k rfl
      have hroom : a.size + 1 ≤ a.cap := by
        by_contra hno
        exact hgrow (Nat.lt_of_not_le hno) k rfl
      have hget : cells[k]? = a.elems[k]? := by
        rw [← hfirst, List.getElem?_take_of_lt hk]
      have hx : a.elems[k]? = some a.elems[k] := List.getElem?_eq_getElem (by omega)
      exact ⟨a.elems[k], hx, (if_pos hroom).trans (hget.trans hx)⟩
  obtain ⟨x, hx, hread⟩ := hvalue
  have hsub : subU32 b.size 1 = a.size := by
    rw [hbsize, subU32, if_pos (by omega), Nat.add_sub_cancel]
  refine ⟨{ b with data := some (cells.set a.size x) }, x, ?_, ⟨?_, ?_⟩, hx, ?_⟩
  · rw [pushBack, Nat.mod_eq_of_lt hsize]
    simp only [hb, hdata, hread, hsub, Option.bind_eq_bind, Option.bind_some]
    exact if_pos (by omega)
  · rw [DynArray.cells, Option.getD_some, List.length_set]
    exact hbroom
  · rw [DynArray.cells, Option.getD_some, List.length_set, ← hcells]
    exact hbwf.cap_eq
  · rw [elems, DynArray.cells, Option.getD_some, hbsize, take_succ_set (by omega), hfirst]

/-- `erase` takes one element away. -/
theorem erase_spec (h : a.WF) (it : Nat) :
    ∃ b, a.erase it = some b ∧ b.WF ∧ b.elems = a.elems.eraseIdx it := by
  have hroom := h.size_le
  have hcap := h.cap_eq
  have hlen := elems_length h
  unfold erase
  by_cases hout : it ≥ a.size
  · exact ⟨a, if_pos hout, h, (List.eraseIdx_of_length_le (by omega)).symm⟩
  · rw [if_neg hout]
    obtain ⟨cells, hdata⟩ : ∃ cells, a.data = some cells := by
      cases hdata : a.data with
      | none =>
        rw [DynArray.cells, hdata] at hroom
        exact absurd hroom (by simp; omega)
      | some cells => exact ⟨cells, rfl⟩
    have hcells : a.cells = cells := by
      rw [DynArray.cells, hdata]
      rfl
    rw [hcells] at hroom hcap
    have hfront : (cells.take it ++ (cells.take a.size).drop (it + 1)).length = a.size - 1 := by
      rw [List.length_append, List.length_drop, List.length_take, List.length_take]
      omega
    have hmem : (cells.take it ++ ((cells.take a.size).drop (it + 1) ++
        cells.drop (a.size - 1))).length = cells.length := by
      rw [← List.append_assoc, List.length_append, hfront, List.length_drop]
      omega
    rw [hdata, Option.bind_eq_bind, Option.bind_some, if_neg (by omega)]
    refine ⟨_, rfl, ⟨?_, hcap.trans hmem.symm⟩, ?_⟩
    · exact Nat.le_trans (Nat.sub_le _ _) (Nat.le_trans hroom (Nat.le_of_eq hmem.symm))
    · rw [elems, DynArray.cells, Option.getD_some, ← List.append_assoc,
        List.take_append_of_le_length (Nat.le_of_eq hfront.symm), ← hfront, List.take_length,
        List.eraseIdx_eq_take_drop_succ, elems, hcells, List.take_take, Nat.min_eq_left (by omega)]

/-- One step of a program keeps an array what the list is. -/
theorem step_refines {op : Op α} (h : a.WF) (hon : op.On a) (hclean : a.Clean op)
    (fresh : Memory α) :
    ∃ b, step fresh a op = some b ∧ b.WF ∧ ListStep a.elems op b.elems := by
  cases op with
  | pushBack arg =>
    obtain ⟨b, x, hb, hwf, hx, helems⟩ := pushBack_spec fresh h
      (fun k hk => hon k (congrArg Op.pushBack hk)) hclean.1 hclean.2
    exact ⟨b, hb, hwf, helems ▸ .pushBack hx⟩
  | resize newSize newCap =>
    obtain ⟨b, hb, -, hwf, hresized, -⟩ := resize_spec fresh h newSize.toNat newCap.toNat
    exact ⟨b, hb, hwf, .resize hresized⟩
  | erase it =>
    obtain ⟨b, hb, hwf, helems⟩ := erase_spec h it
    exact ⟨b, hb, hwf, helems ▸ .erase _ _⟩

theorem Reached.wf (h : Reached Clean a) : a.WF := by
  induction h with
  | empty => exact wf_empty
  | ofSize fresh newSize => exact wf_ofSize fresh newSize.toNat
  | @next a a' op fresh _ hop hstep ha' ih =>
    obtain ⟨b, hb, hwf, -⟩ := step_refines ih hop hstep fresh
    rw [ha'] at hb
    exact Option.some.inj hb ▸ hwf

theorem refinesLists_of_clean : RefinesLists (Clean : DynArray α → _ → Prop) := by
  intro a ha op hon hclean fresh
  obtain ⟨b, hb, hwf, hlist⟩ := step_refines ha.wf hon hclean fresh
  exact ⟨b, hb, hwf.size_le, hlist⟩

end DynArray

/-! ### Runs -/

/-- In runs of clean operations, both arrays are lists. -/
theorem arraysRefine_of_clean (L : Layout α) :
    ExtArray.RefinesLists L (ExtArray.Clean L) ∧
      DynArray.RefinesLists (DynArray.Clean : DynArray α → _ → Prop) :=
  ⟨ExtArray.refinesLists_of_clean L, DynArray.refinesLists_of_clean⟩

open Arrays.ExtArray

/-- Memory of zeros. -/
def zero : Memory UInt8 := fun _ => 0

/-- Bytes, with a capacity that takes the first four of the small buffer. -/
def byteLayout : Layout UInt8 :=
  ⟨16, fun cap small i => if i < 4 then UInt8.ofNat (cap / 2 ^ (8 * i)) else small i⟩

/-- An array of one byte that grows in heap memory has a byte of its old capacity instead. -/
theorem not_refinesLists_secondGrowth : ¬ RefinesLists byteLayout fun _ _ => True := by
  intro h
  have hempty : Reached byteLayout (fun _ _ => True) [.empty zero] := by
    refine Reached.start.next ?_ trivial (show step byteLayout zero zero [] .create = _ from rfl)
    exact trivial
  -- The array moves to heap memory, is emptied, and gets one element there.
  have hgrown : Reached byteLayout (fun _ _ => True)
      [⟨byteLayout.overlay 22 zero, 22, 17, some (List.replicate 22 0)⟩] := by
    refine hempty.next ?_ trivial (show step byteLayout zero zero _ (.resize 0 17) = _ from rfl)
    exact Nat.one_pos
  have hcleared : Reached byteLayout (fun _ _ => True)
      [⟨byteLayout.overlay 22 zero, 22, 0, some (List.replicate 22 0)⟩] := by
    refine hgrown.next ?_ trivial (show step byteLayout zero zero _ (.resize 0 0) = _ from rfl)
    exact Nat.one_pos
  have hpushed : Reached byteLayout (fun _ _ => True)
      [⟨byteLayout.overlay 22 zero, 22, 1, some (7 :: List.replicate 21 0)⟩] := by
    refine hcleared.next ?_ trivial
      (show step byteLayout zero zero _ (.pushBack 0 (.value 7)) = _ from rfl)
    exact ⟨_, rfl, fun k hk => absurd hk (by simp)⟩
  obtain ⟨st', hst', -, hlist⟩ :=
    h _ hpushed (.resize 0 23) Nat.one_pos trivial zero zero
  have hfirst : (step byteLayout zero zero
      [⟨byteLayout.overlay 22 zero, 22, 1, some (7 :: List.replicate 21 0)⟩] (.resize 0 23)).map
        (fun st => (st.map (elems byteLayout)).map (·[0]?)) = some [some 22] := rfl
  rw [hst'] at hfirst
  have hfirst : (st'.map (elems byteLayout)).map (·[0]?) = [some 22] := Option.some.inj hfirst
  generalize st'.map (elems byteLayout) = ls at hlist hfirst
  cases hlist with
  | @resize _ _ l l' hl hresized =>
    obtain rfl : [7] = l := Option.some.inj hl
    obtain ⟨rest, rfl⟩ := hresized.2
    have hseven : some (7 : UInt8) = some 22 := (List.cons.inj hfirst).1
    exact absurd hseven (by decide)

end Odss.Asn1.Arrays
