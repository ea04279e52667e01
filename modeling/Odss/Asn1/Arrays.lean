import Odss.Rlc.Common

/-!
# `Odss.Asn1.Arrays`: arrays that grow

The model of `ext_array` and `dyn_array` (`lib/include/srsran/asn1/asn1_utils.h`) for elements that
are copied as bytes. A memory gives the elements that nothing was written to. The result is `none`
where an element outside of an array or of freed memory is used. Allocation never fails.
-/

set_option linter.all false

namespace Odss.Asn1.Arrays

open Odss.Rlc (subU32)

variable {α : Type}

/-! ### Elements in memory -/

/-- The elements of memory that nothing was written to. -/
abbrev Memory (α : Type) := Nat → α

/-- `std::copy` of elements to the start of an array. -/
def copyTo (cells elems : List α) : Option (List α) :=
  if elems.length ≤ cells.length then some (elems ++ cells.drop elems.length) else none

/-- The argument of `push_back`, a reference to a value or to an element of the array. -/
inductive Arg (α : Type) where
  | value (x : α)
  | element (k : Nat)
deriving DecidableEq, Repr

/-- What an argument shows, with `getRef` for the elements. -/
def Arg.read (getRef : Nat → Option α) : Arg α → Option α
  | value x => some x
  | element k => getRef k

/-! ### `ext_array` -/

/-- What an `ext_array` is compiled for: `Nthres`, and the elements that `small_buffer.data` shows
once `small_buffer.cap_`, which shares its bytes, is written. -/
structure Layout (α : Type) where
  nthres : Nat
  overlay : Nat → Memory α → Memory α

/-- `ext_array`. The small buffer is `small`, with `cap` as the last value of `cap_`, and `heap` is
what `head` points to elsewhere. -/
structure ExtArray (α : Type) where
  small : Memory α
  cap : Nat
  size : Nat
  heap : Option (List α)

namespace ExtArray

variable (L : Layout α)

/-- The default constructor. -/
def empty (small : Memory α) : ExtArray α := ⟨small, 0, 0, none⟩

/-- `capacity` -/
def capacity (a : ExtArray α) : Nat :=
  match a.heap with
  | none => L.nthres
  | some _ => a.cap

/-- Elements from the start of the small buffer. -/
def fromSmall (a : ExtArray α) (n : Nat) : Option (List α) :=
  if n ≤ L.nthres then some ((List.range n).map a.small) else none

/-- Elements from `head` on. -/
def fromHead (a : ExtArray α) (n : Nat) : Option (List α) :=
  match a.heap with
  | none => a.fromSmall L n
  | some cells => if n ≤ cells.length then some (cells.take n) else none

/-- `std::copy` of elements to `head`. -/
def copyToHead (a : ExtArray α) (elems : List α) : Option (ExtArray α) :=
  match a.heap with
  | none =>
    if elems.length ≤ L.nthres then
      some { a with small := fun i => elems.getD i (a.small i) }
    else none
  | some cells => (copyTo cells elems).map fun cells => { a with heap := some cells }

/-- `head[i]` -/
def get (a : ExtArray α) (i : Nat) : Option α :=
  match a.heap with
  | none => if i < L.nthres then some (a.small i) else none
  | some cells => cells[i]?

/-- `head[i] = x` -/
def put (a : ExtArray α) (i : Nat) (x : α) : Option (ExtArray α) :=
  match a.heap with
  | none =>
    if i < L.nthres then some { a with small := fun k => if k = i then x else a.small k } else none
  | some cells => if i < cells.length then some { a with heap := some (cells.set i x) } else none

/-- `resize`, with the memory that is allocated. -/
def resize (fresh : Memory α) (a : ExtArray α) (newSize : Nat) : Option (ExtArray α) :=
  if newSize = a.size then some a
  else if newSize ≤ a.capacity L then some { a with size := newSize }
  else do
    let newcap := (newSize + 5) % 2 ^ 32
    -- The old elements are taken from the small buffer also when they are elsewhere.
    let old ← a.fromSmall L a.size
    let cells ← copyTo ((List.range newcap).map fresh) old
    pure ⟨L.overlay newcap a.small, newcap, newSize, some cells⟩

/-- What a reference to the element `k` of `before` shows once it is resized to `after`. An array
that leaves its heap memory has freed it. -/
def getRef (before after : ExtArray α) (newSize k : Nat) : Option α :=
  match before.heap with
  | none => if k < L.nthres then some (after.small k) else none
  | some _ => if newSize ≤ before.capacity L then after.get L k else none

/-- `push_back` -/
def pushBack (fresh : Memory α) (a : ExtArray α) (arg : Arg α) : Option (ExtArray α) := do
  let newSize := (a.size + 1) % 2 ^ 32
  let b ← a.resize L fresh newSize
  let x ← arg.read (getRef L a b newSize)
  b.put L (subU32 b.size 1) x

/-- The copy constructor. -/
def copy (fresh small : Memory α) (other : ExtArray α) : Option (ExtArray α) := do
  let a ← (empty small).resize L fresh other.size
  a.copyToHead L (← other.fromHead L other.size)

/-- The move constructor, with what is left of `other`. -/
def move (small : Memory α) (other : ExtArray α) : Option (ExtArray α × ExtArray α) :=
  match other.heap with
  | none => do
    let a ← (⟨small, 0, other.size, none⟩ : ExtArray α).copyToHead L
      (← other.fromHead L other.size)
    pure (a, other)
  | some cells =>
    some (⟨L.overlay other.cap small, other.cap, other.size, some cells⟩,
      { other with heap := none, size := 0 })

/-- `operator=` from another array. -/
def assign (fresh : Memory α) (a other : ExtArray α) : Option (ExtArray α) := do
  let a ← a.resize L fresh other.size
  a.copyToHead L (← other.fromHead L other.size)

end ExtArray

/-! ### `dyn_array` -/

/-- `dyn_array`, with `data` for what `data_` points to. -/
structure DynArray (α : Type) where
  data : Option (List α)
  size : Nat
  cap : Nat

namespace DynArray

/-- The default constructor. -/
def empty : DynArray α := ⟨none, 0, 0⟩

/-- The constructor with a size. -/
def ofSize (fresh : Memory α) (newSize : Nat) : DynArray α :=
  ⟨some ((List.range newSize).map fresh), newSize, newSize⟩

/-- `resize`, with the memory that is allocated. -/
def resize (fresh : Memory α) (a : DynArray α) (newSize newCap : Nat) : Option (DynArray α) :=
  if newSize = a.size then some a
  else if newSize ≤ a.cap then some { a with size := newSize }
  else
    let cap := if newSize > newCap then newSize else newCap
    if cap > 0 then
      let cells := (List.range cap).map fresh
      match a.data with
      | none => some ⟨some cells, newSize, cap⟩
      | some old =>
        -- With `srsran_assert`.
        if old.length < a.size ∨ cap ≤ a.size then none
        else (copyTo cells (old.take a.size)).map fun cells => ⟨some cells, newSize, cap⟩
    else some ⟨none, newSize, cap⟩

/-- `push_back` -/
def pushBack (fresh : Memory α) (a : DynArray α) (arg : Arg α) : Option (DynArray α) := do
  let newSize := (a.size + 1) % 2 ^ 32
  let b ← a.resize fresh newSize (a.size * 2 % 2 ^ 32)
  let cells ← b.data
  let x ← arg.read fun k => if newSize ≤ a.cap then cells[k]? else none
  if subU32 b.size 1 < cells.length then
    some { b with data := some (cells.set (subU32 b.size 1) x) }
  else none

/-- `erase` of the element at an index. -/
def erase (a : DynArray α) (it : Nat) : Option (DynArray α) :=
  if it ≥ a.size then some a
  else do
    let cells ← a.data
    if cells.length < a.size then none
    else
      some { a with
        data := some (cells.take it ++ ((cells.take a.size).drop (it + 1) ++
          cells.drop (a.size - 1)))
        size := a.size - 1 }

end DynArray

end Odss.Asn1.Arrays
