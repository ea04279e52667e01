import Mathlib.Tactic
import Mathlib.Data.Nat.Bitwise

/-!
# `Odss.Mac.BitsetWords`: the words of a bitset

The model of `bounded_bitset` (`lib/include/srsran/adt/bounded_bitset.h`) by its words, in both
orders of the bits. `none` is a failing assertion. The builtins that count zeros are `BitVec.ctz`
and `BitVec.clz`, and the numbers of type `size_t` never exceed 64 bits.
-/

set_option linter.all false

namespace Odss.Mac

/-- `word_t` -/
abbrev Word := BitVec 64

/-- `mask_msb_zeros` -/
def maskMsbZeros (n : Nat) : Word :=
  if n = 0 then BitVec.allOnes 64 else if n = 64 then 0#64 else BitVec.allOnes 64 >>> n

/-- `mask_lsb_ones` -/
def maskLsbOnes (n : Nat) : Word := maskMsbZeros (64 - n)

/-- `mask_lsb_zeros` -/
def maskLsbZeros (n : Nat) : Word := ~~~ maskLsbOnes n

/-- `find_first_lsb_one` of a word that is not zero. -/
def findFirstLsbOne (w : Word) : Nat := w.ctz.toNat

/-- `find_first_msb_one` of a word that is not zero. -/
def findFirstMsbOne (w : Word) : Nat := 63 - w.clz.toNat

/-- The loop of `count` on one word, which takes away the lowest bit in each round. -/
def countWord (w : Nat) : Nat := if h : w = 0 then 0 else countWord (w &&& (w - 1)) + 1
termination_by w
decreasing_by
  have hle : w &&& (w - 1) ≤ w - 1 := Nat.and_le_right
  omega

/-- `bounded_bitset` of `capacity` bits. Words that do not exist stay zero. -/
structure WordBitset (capacity : Nat) (reversed : Bool) where
  buffer : Nat → Word
  size : Nat

namespace WordBitset

variable {capacity : Nat} {reversed : Bool} (b : WordBitset capacity reversed)

/-- The default constructor. -/
def empty : WordBitset capacity reversed := ⟨fun _ => 0#64, 0⟩

/-- `nof_words_` -/
def nofWords : Nat := if b.size > 0 then (b.size - 1) / 64 + 1 else 0

/-- `get_bitidx_` -/
def getBitidx (pos : Nat) : Nat := if reversed then b.size - 1 - pos else pos

/-- `maskbit` -/
def maskbit (pos : Nat) : Word := 1#64 <<< (pos % 64)

/-- The words from the first one to `n`, which are changed one by one. -/
def mapWords (n : Nat) (f : Nat → Word) : WordBitset capacity reversed :=
  { b with buffer := fun i => if i < n then f i else b.buffer i }

/-- A word that is changed. -/
def setWord (i : Nat) (w : Word) : WordBitset capacity reversed :=
  { b with buffer := fun k => if k = i then w else b.buffer k }

/-- `sanitize_` -/
def sanitize : WordBitset capacity reversed :=
  if b.size % 64 ≠ 0 ∧ b.nofWords > 0 then
    b.setWord (b.nofWords - 1)
      (b.buffer (b.nofWords - 1) &&& ~~~ (~~~ 0#64 <<< (b.size % 64)))
  else b

/-- `resize` -/
def resize (newSize : Nat) : Option (WordBitset capacity reversed) :=
  if newSize ≤ capacity then
    if newSize = b.size then some b
    else
      let c : WordBitset capacity reversed := sanitize { b with size := newSize }
      some { c with
        buffer := fun i =>
          if c.nofWords ≤ i ∧ i < (capacity - 1) / 64 + 1 then 0#64 else c.buffer i }
  else none

/-- `test_` -/
def test_ (pos : Nat) : Bool :=
  b.buffer (b.getBitidx pos / 64) &&& maskbit (b.getBitidx pos) ≠ 0#64

/-- `set_` and `reset_` -/
def put_ (pos : Nat) (val : Bool) : WordBitset capacity reversed :=
  let i := b.getBitidx pos
  b.setWord (i / 64)
    (if val then b.buffer (i / 64) ||| maskbit i else b.buffer (i / 64) &&& ~~~ maskbit i)

/-- `test` -/
def test (pos : Nat) : Option Bool := if pos < b.size then some (b.test_ pos) else none

/-- `set` and `reset` of a position. -/
def set (pos : Nat) (val : Bool) : Option (WordBitset capacity reversed) :=
  if pos < b.size then some (b.put_ pos val) else none

/-- `reset` -/
def reset : WordBitset capacity reversed := b.mapWords b.nofWords fun _ => 0#64

/-- `flip`, and the result of `operator~`. -/
def flip : WordBitset capacity reversed :=
  (b.mapWords b.nofWords fun i => ~~~ b.buffer i).sanitize

/-- `fill` -/
def fill (startpos endpos : Nat) (value : Bool) : Option (WordBitset capacity reversed) :=
  if startpos ≤ endpos ∧ endpos ≤ b.size then
    some ((List.range' startpos (endpos - startpos)).foldl (fun b i => b.put_ i value) b)
  else none

/-- `operator|=` -/
def orAssign (other : WordBitset capacity reversed) : Option (WordBitset capacity reversed) :=
  if other.size = b.size then
    some (b.mapWords b.nofWords fun i => b.buffer i ||| other.buffer i)
  else none

/-- `operator&=` -/
def andAssign (other : WordBitset capacity reversed) : Option (WordBitset capacity reversed) :=
  if other.size = b.size then
    some (b.mapWords b.nofWords fun i => b.buffer i &&& other.buffer i)
  else none

/-- `count` -/
def count : Nat := ((List.range b.nofWords).map fun i => countWord (b.buffer i).toNat).sum

/-- `all` -/
def all : Bool :=
  let nw := b.nofWords
  if nw = 0 then true
  else
    (List.range (nw - 1)).all (fun i => b.buffer i == ~~~ 0#64) &&
      b.buffer (nw - 1) == ~~~ 0#64 >>> (nw * 64 - b.size)

/-- `any` -/
def any : Bool := (List.range b.nofWords).any fun i => b.buffer i != 0#64

/-- `none` -/
def none : Bool := !b.any

/-- `any` of a range. -/
def anyIn (start stop : Nat) : Option Bool :=
  if start ≤ b.size ∧ stop ≤ b.size then
    some ((List.range' start (stop - start)).any b.test_)
  else Option.none

/-- `operator==`. The number of words has 32 bits, as its counter. -/
def eq (other : WordBitset capacity reversed) : Bool :=
  b.size == other.size && (List.range b.nofWords).all fun i => b.buffer i == other.buffer i

/-- `static_cast<int>` -/
def toInt (pos : Nat) : Int := Int.bmod pos (2 ^ 32)

/-- The word `i` in `find_first_` and `find_first_reversed_`: the bits that have the value and lie
between `first` and `last`. -/
def wanted (value : Bool) (first last i : Nat) : Word :=
  let w := if value then b.buffer i else ~~~ b.buffer i
  let w := if i = first / 64 then w &&& maskLsbZeros (first % 64) else w
  if i = last / 64 then w &&& maskLsbOnes (last % 64 + 1) else w

/-- `find_first_` -/
def findFirst (startpos endpos : Nat) (value : Bool) : Int :=
  let last := endpos - 1
  let words := List.range' (startpos / 64) (last / 64 + 1 - startpos / 64)
  ((words.find? fun i => b.wanted value startpos last i != 0#64).map fun i =>
    toInt (i * 64 + findFirstLsbOne (b.wanted value startpos last i))).getD (-1)

/-- `find_first_reversed_`. Its counter goes down to the word before the last one, which for the
first word of all is the largest `size_t`. -/
def findFirstReversed (startpos endpos : Nat) (value : Bool) : Int :=
  let first := b.getBitidx (endpos - 1)
  let last := b.getBitidx startpos
  let words := (List.range' (first / 64) (last / 64 + 1 - first / 64)).reverse
  ((words.find? fun i => b.wanted value first last i != 0#64).map fun i =>
    toInt (b.size - 1 - (findFirstMsbOne (b.wanted value first last i) + i * 64))).getD (-1)

/-- `find_lowest` -/
def findLowest (startpos endpos : Nat) (value : Bool) : Option Int :=
  if startpos ≤ endpos ∧ endpos ≤ b.size then
    if startpos = endpos then some (-1)
    else if !reversed then some (b.findFirst startpos endpos value)
    else some (b.findFirstReversed startpos endpos value)
  else Option.none

end WordBitset

end Odss.Mac
