import Mathlib.Tactic

/-!
# `Odss.Phy.RmConv`: rate matching of the convolutional code

The model of `srsran_rm_conv_tx` and `srsran_rm_conv_rx_s` (`lib/src/phy/fec/turbo/rm_conv.c`).
Both read a table of three interleaved sub-blocks in circles and skip the dummy positions. The
receiver marks the positions it has not reached with the value 10000 in the table itself.

* `walk`: the positions that both loops read, and `walk_total`: the loops end.
* `entryOf_eq_iff`: the one position of a coded bit, which the two index formulas agree on.
* `finish_foldl`: what the marks make of a sum.
-/

set_option linter.all false

namespace Odss.Phy.RmConv

/-- `RM_PERM_CC` -/
def rmPermCc : List Nat :=
  [1, 17, 9, 25, 5, 21, 13, 29, 3, 19, 11, 27, 7, 23, 15, 31,
   0, 16, 8, 24, 4, 20, 12, 28, 2, 18, 10, 26, 6, 22, 14, 30]

/-- `RM_PERM_CC_INV` -/
def rmPermCcInv : List Nat :=
  [16, 0, 24, 8, 20, 4, 28, 12, 18, 2, 26, 10, 22, 6, 30, 14,
   17, 1, 25, 9, 21, 5, 29, 13, 19, 3, 27, 11, 23, 7, 31, 15]

def ncols : Nat := 32

def nrowsMax : Nat := ncols

/-- `SRSRAN_TX_NULL` -/
def txNull : UInt8 := 100

/-- `SRSRAN_RX_NULL` -/
def rxNull : Int16 := 10000

/-- The error return, and what the code leaves undefined: an index out of range, a counter of type
`int` that overflows, a loop that does not end. -/
inductive RmError where
  | tooLarge
  | fault
  deriving DecidableEq, Repr

/-- The first number that a counter of type `int` does not reach -/
def intEnd : Nat := 2 ^ 31

/-- A read of an array -/
def readAt {α : Type} (xs : List α) (i : Nat) : Except RmError α :=
  match xs[i]? with
  | some x => .ok x
  | none => .error .fault

/-- `nrows`, which is computed in 32 bits -/
def nrowsOf (len : Nat) : Nat := (len / 3 + (2 ^ 32 - 1)) % 2 ^ 32 / ncols + 1

/-- One element of the table that the sub-block interleaver fills -/
def interleaved (input : List UInt8) (ndummy s j i : Nat) : Except RmError UInt8 := do
  let perm ← readAt rmPermCc j
  if i * ncols + perm < ndummy then .ok txNull
  else readAt input ((i * ncols + perm - ndummy) * 3 + s)

/-- The table that the sub-block interleaver fills -/
def interleave (input : List UInt8) (nrows ndummy : Nat) : Except RmError (List UInt8) :=
  ((List.range 3).flatMap fun s => (List.range ncols).flatMap fun j =>
    (List.range nrows).map fun i => (s, j, i)).mapM fun (s, j, i) => interleaved input ndummy s j i

/-- The bit collection from the position `j` on, for the bits that are left -/
def collect (tmp : List UInt8) (size : Nat) : Nat → Nat → Nat → Except RmError (List UInt8)
  | 0, _, _ => .ok []
  | _ + 1, 0, _ => .error .fault
  | left + 1, fuel + 1, j => do
    let t ← readAt tmp j
    let next := if j + 1 = size then 0 else j + 1
    if t ≠ txNull then
      let output ← collect tmp size left fuel next
      .ok (t :: output)
    else collect tmp size (left + 1) fuel next

/-- `srsran_rm_conv_tx` -/
def rmConvTx (input : List UInt8) (outLen : Nat) : Except RmError (List UInt8) := do
  let nrows := nrowsOf input.length
  if nrowsMax < nrows then .error .tooLarge
  else
    let kP := nrows * ncols
    let ndummy := kP - input.length / 3
    let tmp ← interleave input nrows ndummy
    -- the counter `k` is an `int`
    if intEnd ≤ outLen then .error .fault
    else collect tmp (3 * kP) outLen (outLen * (3 * kP)) 0

/-- The soft combining of one LLR into an element of the table -/
def combine (t x : Int16) : Int16 :=
  if t = rxNull then x else if x ≠ rxNull then t + x else t

/-- The undoing of the bit collection from the position `j` on, for the LLRs that are left -/
def uncollect (nrows ndummy : Nat) :
    List Int16 → Nat → Nat → List Int16 → Except RmError (List Int16)
  | [], _, _, tmp => .ok tmp
  | _ :: _, 0, _, _ => .error .fault
  | x :: input, fuel + 1, j, tmp => do
    let dI := j % (nrows * ncols) / nrows
    let dJ := j % (nrows * ncols) % nrows
    let perm ← readAt rmPermCc dI
    let next := if j + 1 = 3 * (nrows * ncols) then 0 else j + 1
    if ndummy ≤ dJ * ncols + perm then
      let t ← readAt tmp j
      uncollect nrows ndummy input fuel next (tmp.set j (combine t x))
    else uncollect nrows ndummy (x :: input) fuel next tmp

/-- What is written for an element of the table -/
def finish (o : Int16) : Int16 := if o ≠ rxNull then o else 0

/-- The table element that is read for the output `i * 3 + j` -/
def selected (tmp : List Int16) (nrows ndummy i j : Nat) : Except RmError Int16 := do
  let dI := (i + ndummy) / ncols
  let dJ := (i + ndummy) % ncols
  let inv ← readAt rmPermCcInv dJ
  let o ← readAt tmp (nrows * ncols * j + inv * nrows + dI)
  .ok (finish o)

/-- `srsran_rm_conv_rx_s`, with the output in the order of its indices -/
def rmConvRxS (input : List Int16) (outLen : Nat) : Except RmError (List Int16) := do
  let nrows := nrowsOf outLen
  if nrowsMax < nrows then .error .tooLarge
  else
    let kP := nrows * ncols
    let ndummy := kP - outLen / 3
    -- the counter `k` is an `int`
    if intEnd ≤ input.length then .error .fault
    else
      let tmp ← uncollect nrows ndummy input (input.length * (3 * kP)) 0
        (List.replicate (3 * kP) rxNull)
      ((List.range (outLen / 3)).flatMap fun i => (List.range 3).map fun j => (i, j)).mapM
        fun (i, j) => selected tmp nrows ndummy i j

/-- The coded bits with a one at `i` only -/
def unitBits (n i : Nat) : List UInt8 := (List.range n).map fun k => if k = i then 1 else 0

/-- The LLRs of the ones that are sent -/
def llrsOfOnes (input : List Int16) : Except RmError (List UInt8) → List Int16
  | .ok output => (output.zip input).filterMap fun (b, x) => if b = 1 then some x else none
  | .error _ => []

/-- The LLRs that are received where the transmitter emits the coded bit `i` -/
def received (n : Nat) (input : List Int16) (i : Nat) : List Int16 :=
  llrsOfOnes input (rmConvTx (unitBits n i) input.length)

/-- The sum of LLRs -/
def sumOf (xs : List Int16) : Int := (xs.map Int16.toInt).sum

/-- The sums of the LLRs of every coded bit stay inside 16 bits. -/
def SumsFit (n : Nat) (input : List Int16) : Prop :=
  ∀ i < n, ∀ k ≤ (received n input i).length,
    -2 ^ 15 ≤ sumOf ((received n input i).take k) ∧ sumOf ((received n input i).take k) < 2 ^ 15

/-- Both directions return, and the receiver writes for every coded bit the sum of its LLRs. -/
def Combines (n : Nat) (input : List Int16) : Prop :=
  (∀ bits : List UInt8, bits.length = n → (∀ b ∈ bits, b ≤ 1) →
    ∃ output, rmConvTx bits input.length = .ok output ∧ output.length = input.length) ∧
  ∃ output, rmConvRxS input n = .ok output ∧ output.length = n ∧
    ∀ i < n, ∃ x, output[i]? = some x ∧ x.toInt = sumOf (received n input i)

/-- How often the mark is taken for a sum or an LLR, from the sum `r` on. Each time it is lost. -/
def lost (r : Int) : List Int → Nat
  | [] => if r = 10000 then 1 else 0
  | x :: xs =>
    if r = 10000 ∨ x = 10000 then lost (r + x - 10000) xs + 1
    else lost ((r + x).bmod (2 ^ 16)) xs

/-- How often the mark is taken for a sum or an LLR of a coded bit. -/
def lostOf : List Int16 → Nat
  | [] => 0
  | x :: xs => lost x.toInt (xs.map Int16.toInt)

/-! ### The marks -/

/-- The sum that comes out has lost the mark as often as it was taken. -/
theorem finish_foldl (xs : List Int16) (t : Int16) :
    (finish (xs.foldl combine t)).toInt =
      (t.toInt + sumOf xs - 10000 * lost t.toInt (xs.map Int16.toInt)).bmod (2 ^ 16) := by
  have hnull (t : Int16) : t.toInt = 10000 ↔ t = rxNull := by
    rw [← Int16.toInt_inj]
    exact Iff.rfl
  induction xs generalizing t with
  | nil =>
    rw [List.foldl_nil, List.map_nil, lost, finish]
    by_cases ht : t = rxNull
    · rw [if_neg (not_not_intro ht), if_pos ((hnull t).mpr ht), (hnull t).mpr ht]
      rfl
    · rw [if_pos ht, if_neg fun h => ht ((hnull t).mp h), sumOf, List.map_nil, List.sum_nil]
      simp
  | cons x xs ih =>
    have hsum : sumOf (x :: xs) = x.toInt + sumOf xs := by simp [sumOf]
    rw [List.foldl_cons, ih, List.map_cons, lost, hsum]
    by_cases ht : t = rxNull
    · rw [combine, if_pos ht, if_pos (.inl ((hnull t).mpr ht)), (hnull t).mpr ht,
        show 10000 + x.toInt - 10000 = x.toInt by omega]
      congr 1
      push_cast
      omega
    · by_cases hx : x = rxNull
      · rw [combine, if_neg ht, if_neg (not_not_intro hx), if_pos (.inr ((hnull x).mpr hx)),
          (hnull x).mpr hx, Int.add_sub_cancel]
        congr 1
        push_cast
        omega
      · have hnot : ¬ (t.toInt = 10000 ∨ x.toInt = 10000) := by
          rw [hnull, hnull]
          exact fun h => h.elim ht hx
        rw [combine, if_neg ht, if_pos hx, if_neg hnot, Int16.toInt_add, Int.add_sub_assoc,
          Int.bmod_add_bmod]
        congr 1
        omega

/-- From the untouched mark on -/
theorem finish_foldl_rxNull (xs : List Int16) :
    (finish (xs.foldl combine rxNull)).toInt =
      (sumOf xs - 10000 * lostOf xs).bmod (2 ^ 16) := by
  cases xs with
  | nil => rfl
  | cons x xs =>
    rw [List.foldl_cons, combine, if_pos rfl, finish_foldl, lostOf]
    simp [sumOf]

/-- A sum that fits into 16 bits comes out when the mark was taken a multiple of 4096 times. -/
theorem finish_foldl_eq_iff {xs : List Int16} (hlo : -2 ^ 15 ≤ sumOf xs)
    (hhi : sumOf xs < 2 ^ 15) :
    (finish (xs.foldl combine rxNull)).toInt = sumOf xs ↔ 4096 ∣ lostOf xs := by
  rw [finish_foldl_rxNull]
  have hself := Int.bmod_add_bdiv (sumOf xs - 10000 * lostOf xs) (2 ^ 16)
  have hle : -(((2 ^ 16 : Nat) : Int) / 2) ≤ _ :=
    Int.le_bmod (x := sumOf xs - 10000 * lostOf xs) (m := 2 ^ 16) (by decide)
  have hlt : _ < (((2 ^ 16 : Nat) : Int) + 1) / 2 :=
    Int.bmod_lt (x := sumOf xs - 10000 * lostOf xs) (m := 2 ^ 16) (by decide)
  omega

/-! ### The positions -/

/-- The positions that are read from `j` on, for what is left. -/
def walk (valid : Nat → Bool) (size : Nat) : Nat → Nat → Nat → Option (List Nat)
  | 0, _, _ => some []
  | _ + 1, 0, _ => none
  | left + 1, fuel + 1, j =>
    let next := if j + 1 = size then 0 else j + 1
    if valid j then (walk valid size left fuel next).map (j :: ·)
    else walk valid size (left + 1) fuel next

section Walk

variable {valid : Nat → Bool} {size : Nat}

theorem mod_next (j d : Nat) :
    ((if j + 1 = size then 0 else j + 1) + d) % size = (j + (d + 1)) % size := by
  split
  · rename_i heq
    rw [show j + (d + 1) = d + size by omega, Nat.add_mod_right, Nat.zero_add]
  · rw [show j + 1 + d = j + (d + 1) by omega]

/-- The next valid position is `d` steps away. -/
theorem walk_total_aux (hvalid : ∀ j < size, ∃ d < size, valid ((j + d) % size) = true)
    (fuel left j d : Nat) (hj : j < size) (hd : d < size) (hat : valid ((j + d) % size) = true)
    (hfuel : left * size + d + 1 ≤ fuel) :
    ∃ ps, walk valid size (left + 1) fuel j = some ps ∧ ps.length = left + 1 ∧
      ∀ p ∈ ps, p < size ∧ valid p = true := by
  induction fuel generalizing left j d with
  | zero => omega
  | succ fuel ih =>
    have hnext : (if j + 1 = size then 0 else j + 1) < size := by split <;> omega
    rw [walk]
    by_cases hv : valid j = true
    · simp only [hv, if_true]
      cases left with
      | zero =>
        refine ⟨[j], by simp [walk], rfl, ?_⟩
        rintro p hp
        rw [List.mem_singleton.mp hp]
        exact ⟨hj, hv⟩
      | succ left =>
        obtain ⟨d', hd', hat'⟩ := hvalid _ hnext
        obtain ⟨ps, hps, hlen, hmem⟩ := ih left _ d' hnext hd' hat' (by
          rw [Nat.succ_mul] at hfuel
          omega)
        rw [hps]
        refine ⟨j :: ps, rfl, by rw [List.length_cons, hlen], ?_⟩
        rintro p hp
        rcases List.mem_cons.mp hp with rfl | hp
        · exact ⟨hj, hv⟩
        · exact hmem p hp
    · simp only [hv]
      cases d with
      | zero => exact absurd (by rwa [Nat.add_zero, Nat.mod_eq_of_lt hj] at hat) hv
      | succ d => exact ih left _ d hnext (by omega) (by rwa [mod_next]) (by omega)

/-- Both loops end: `size` steps for each bit are enough where one position is valid. -/
theorem walk_total {p : Nat} (hp : p < size) (hv : valid p = true) (left : Nat) :
    ∃ ps, walk valid size left (left * size) 0 = some ps ∧ ps.length = left ∧
      ∀ p ∈ ps, p < size ∧ valid p = true := by
  have hvalid : ∀ j < size, ∃ d < size, valid ((j + d) % size) = true := by
    intro j hj
    by_cases hle : j ≤ p
    · exact ⟨p - j, by omega, by rwa [Nat.add_sub_cancel' hle, Nat.mod_eq_of_lt hp]⟩
    · refine ⟨p + size - j, by omega, ?_⟩
      rwa [show j + (p + size - j) = p + size by omega, Nat.add_mod_right, Nat.mod_eq_of_lt hp]
  cases left with
  | zero => exact ⟨[], by simp [walk], rfl, fun _ h => absurd h List.not_mem_nil⟩
  | succ left =>
    obtain ⟨d, hd, hat⟩ := hvalid 0 (by omega)
    exact walk_total_aux hvalid _ left 0 d (by omega) hd hat (by rw [Nat.succ_mul]; omega)

end Walk

/-! ### The table -/

/-- The table entry of the permutation -/
def permAt (j : Nat) : Nat := rmPermCc.getD j 0

def invAt (d : Nat) : Nat := rmPermCcInv.getD d 0

theorem readAt_rmPermCc : ∀ j < 32, readAt rmPermCc j = .ok (permAt j) := by decide

theorem readAt_rmPermCcInv : ∀ d < 32, readAt rmPermCcInv d = .ok (invAt d) := by decide

theorem permAt_lt : ∀ j < 32, permAt j < 32 := by decide

theorem invAt_lt : ∀ d < 32, invAt d < 32 := by decide

theorem permAt_invAt : ∀ d < 32, permAt (invAt d) = d := by decide

theorem invAt_permAt : ∀ j < 32, invAt (permAt j) = j := by decide

/-- The bit of its sub-block, dummy bits included, that is at the position `p`. -/
def bitOf (nrows p : Nat) : Nat :=
  p % (nrows * ncols) % nrows * ncols + permAt (p % (nrows * ncols) / nrows)

/-- The coded bit at the position `p`. -/
def codedOf (nrows ndummy p : Nat) : Nat := (bitOf nrows p - ndummy) * 3 + p / (nrows * ncols)

/-- The position of the coded bit `c`. -/
def entryOf (nrows ndummy c : Nat) : Nat :=
  nrows * ncols * (c % 3) + invAt ((c / 3 + ndummy) % ncols) * nrows + (c / 3 + ndummy) / ncols

section Table

variable {nrows ndummy m : Nat}

theorem col_lt (hrows : 0 < nrows) (p : Nat) : p % (nrows * ncols) / nrows < 32 :=
  Nat.div_lt_of_lt_mul (Nat.mod_lt _ (by rw [ncols]; omega))

/-- Where the position of a coded bit lies. -/
theorem entryOf_parts (hrows : 0 < nrows) (hm : m + ndummy = nrows * ncols) {c : Nat}
    (hc : c < 3 * m) :
    entryOf nrows ndummy c < 3 * (nrows * ncols) ∧
      entryOf nrows ndummy c / (nrows * ncols) = c % 3 ∧
      entryOf nrows ndummy c % (nrows * ncols) / nrows = invAt ((c / 3 + ndummy) % ncols) ∧
      entryOf nrows ndummy c % (nrows * ncols) % nrows = (c / 3 + ndummy) / ncols := by
  have hrow : (c / 3 + ndummy) / ncols < nrows :=
    Nat.div_lt_of_lt_mul (by rw [Nat.mul_comm, ← hm]; omega)
  have hcol := invAt_lt ((c / 3 + ndummy) % ncols) (Nat.mod_lt _ (by decide))
  have hin : invAt ((c / 3 + ndummy) % ncols) * nrows + (c / 3 + ndummy) / ncols <
      nrows * ncols := by
    calc _ < invAt ((c / 3 + ndummy) % ncols) * nrows + nrows := Nat.add_lt_add_left hrow _
      _ = (invAt ((c / 3 + ndummy) % ncols) + 1) * nrows := by rw [Nat.succ_mul]
      _ ≤ 32 * nrows := Nat.mul_le_mul_right _ hcol
      _ = nrows * ncols := Nat.mul_comm _ _
  have hmod : entryOf nrows ndummy c % (nrows * ncols) =
      invAt ((c / 3 + ndummy) % ncols) * nrows + (c / 3 + ndummy) / ncols := by
    rw [entryOf, Nat.add_assoc, Nat.mul_add_mod, Nat.mod_eq_of_lt hin]
  refine ⟨?_, ?_, ?_, ?_⟩
  · have hs : c % 3 ≤ 2 := by omega
    have := Nat.mul_le_mul_left (nrows * ncols) hs
    rw [entryOf]
    omega
  · rw [entryOf, Nat.add_assoc, Nat.mul_add_div (by omega), Nat.div_eq_of_lt hin, Nat.add_zero]
  · rw [hmod, Nat.mul_comm, Nat.mul_add_div hrows, Nat.div_eq_of_lt hrow, Nat.add_zero]
  · rw [hmod, Nat.mul_comm, Nat.mul_add_mod, Nat.mod_eq_of_lt hrow]

theorem bitOf_entryOf (hrows : 0 < nrows) (hm : m + ndummy = nrows * ncols) {c : Nat}
    (hc : c < 3 * m) : bitOf nrows (entryOf nrows ndummy c) = c / 3 + ndummy := by
  obtain ⟨-, -, hcol, hrow⟩ := entryOf_parts hrows hm hc
  have hperm : permAt (invAt ((c / 3 + ndummy) % ncols)) = (c / 3 + ndummy) % ncols :=
    permAt_invAt _ (Nat.mod_lt _ (by decide))
  rw [bitOf, hcol, hrow, hperm, Nat.mul_comm, Nat.div_add_mod]

theorem codedOf_entryOf (hrows : 0 < nrows) (hm : m + ndummy = nrows * ncols) {c : Nat}
    (hc : c < 3 * m) : codedOf nrows ndummy (entryOf nrows ndummy c) = c := by
  obtain ⟨-, hblock, -, -⟩ := entryOf_parts hrows hm hc
  rw [codedOf, bitOf_entryOf hrows hm hc, hblock, Nat.add_sub_cancel]
  omega

/-- A position that is not a dummy is that of its coded bit. -/
theorem entryOf_codedOf (hrows : 0 < nrows) (hm : m + ndummy = nrows * ncols) {p : Nat}
    (hp : p < 3 * (nrows * ncols)) (hv : ndummy ≤ bitOf nrows p) :
    codedOf nrows ndummy p < 3 * m ∧ entryOf nrows ndummy (codedOf nrows ndummy p) = p := by
  have hK : 0 < nrows * ncols := by rw [ncols]; omega
  have hblock : p / (nrows * ncols) < 3 := Nat.div_lt_of_lt_mul (by rwa [Nat.mul_comm])
  have hcol := col_lt hrows p
  have hperm : permAt (p % (nrows * ncols) / nrows) < ncols := permAt_lt _ hcol
  have hrow : p % (nrows * ncols) % nrows < nrows := Nat.mod_lt _ hrows
  have hbit : bitOf nrows p < nrows * ncols := by
    rw [bitOf]
    calc _ < p % (nrows * ncols) % nrows * ncols + ncols := Nat.add_lt_add_left hperm _
      _ = (p % (nrows * ncols) % nrows + 1) * ncols := by rw [Nat.succ_mul]
      _ ≤ nrows * ncols := Nat.mul_le_mul_right _ hrow
  have hcoded (s b : Nat) (hs : s < 3) : (b * 3 + s) / 3 = b ∧ (b * 3 + s) % 3 = s := by omega
  obtain ⟨hthird, hpart⟩ := hcoded _ (bitOf nrows p - ndummy) hblock
  have hmod : bitOf nrows p % ncols = permAt (p % (nrows * ncols) / nrows) := by
    rw [bitOf, Nat.mul_comm, Nat.mul_add_mod, Nat.mod_eq_of_lt hperm]
  have hdiv : bitOf nrows p / ncols = p % (nrows * ncols) % nrows := by
    rw [bitOf, Nat.mul_comm _ ncols, Nat.mul_add_div (by decide), Nat.div_eq_of_lt hperm,
      Nat.add_zero]
  refine ⟨by rw [codedOf]; omega, ?_⟩
  rw [codedOf, entryOf, hthird, hpart, Nat.sub_add_cancel hv, hmod, hdiv, invAt_permAt _ hcol,
    Nat.add_assoc,
    Nat.mul_comm _ nrows, Nat.div_add_mod, Nat.div_add_mod]

end Table

/-! ### The loops -/

/-- Whether the bit collection stops at the position `p`. -/
def valid (nrows ndummy p : Nat) : Bool := decide (ndummy ≤ bitOf nrows p)

theorem mapM_ok {α β : Type} {f : α → Except RmError β} {g : α → β} {xs : List α}
    (h : ∀ x ∈ xs, f x = .ok (g x)) : xs.mapM f = .ok (xs.map g) := by
  induction xs with
  | nil => rfl
  | cons x xs ih =>
    rw [List.mapM_cons, h x List.mem_cons_self, ih fun y hy => h y (List.mem_cons_of_mem _ hy)]
    rfl

/-- Two nested loops count through the quotients and the remainders. -/
theorem flatMap_range {α : Type} (f : Nat → Nat → α) (a b : Nat) :
    ((List.range a).flatMap fun i => (List.range b).map (f i)) =
      (List.range (a * b)).map fun k => f (k / b) (k % b) := by
  induction a with
  | zero => simp
  | succ a ih =>
    rw [List.range_succ, List.flatMap_append, ih, Nat.succ_mul, List.range_add, List.map_append,
      List.flatMap_singleton, List.map_map]
    congr 1
    refine List.map_congr_left fun k hk => ?_
    have hk := List.mem_range.mp hk
    rw [Function.comp_apply, Nat.mul_comm a b, Nat.mul_add_div (by omega), Nat.mul_add_mod,
      Nat.div_eq_of_lt hk, Nat.mod_eq_of_lt hk, Nat.add_zero]

theorem readAt_of_lt {α : Type} {xs : List α} {i : Nat} (d : α) (h : i < xs.length) :
    readAt xs i = .ok (xs.getD i d) := by
  rw [readAt, List.getD_eq_getElem?_getD, List.getElem?_eq_getElem h]
  rfl

/-- The element of the transmitter's table at the position `p` -/
def txEntry (bits : List UInt8) (nrows ndummy p : Nat) : UInt8 :=
  if bitOf nrows p < ndummy then txNull else bits.getD (codedOf nrows ndummy p) 0

/-- The bit collection reads the table along the walk. -/
theorem collect_eq {entry : Nat → UInt8} {stops : Nat → Bool} {size : Nat}
    (hentry : ∀ p < size, entry p ≠ txNull ↔ stops p = true) (fuel left j : Nat) (hj : j < size) :
    collect ((List.range size).map entry) size left fuel j =
      match walk stops size left fuel j with
      | some ps => .ok (ps.map entry)
      | none => .error .fault := by
  induction fuel generalizing left j with
  | zero => cases left <;> rfl
  | succ fuel ih =>
    cases left with
    | zero => rfl
    | succ left =>
      have hread : readAt ((List.range size).map entry) j = .ok (entry j) := by
        rw [readAt, List.getElem?_map, List.getElem?_range hj, Option.map_some]
      have hnext : (if j + 1 = size then 0 else j + 1) < size := by split <;> omega
      rw [collect, hread, walk]
      by_cases hv : stops j = true
      · have hstop := (hentry j hj).mpr hv
        have hrest := ih left _ hnext
        simp only [bind, Except.bind, hv, if_true]
        rw [if_pos hstop, hrest]
        cases walk stops size left fuel (if j + 1 = size then 0 else j + 1) with
        | none => rfl
        | some ps => rfl
      · have hstop : ¬ entry j ≠ txNull := fun h => hv ((hentry j hj).mp h)
        simp only [bind, Except.bind, hv]
        rw [if_neg hstop]
        exact ih (left + 1) _ hnext

/-- The LLRs are combined along the walk. -/
def combineAll (tmp : List Int16) (ps : List Nat) (input : List Int16) : List Int16 :=
  (ps.zip input).foldl (fun tmp px => tmp.set px.1 (combine (tmp.getD px.1 0) px.2)) tmp

theorem uncollect_eq {nrows ndummy : Nat} (hrows : 0 < nrows) (fuel : Nat) (input : List Int16)
    (j : Nat) (tmp : List Int16) (hj : j < 3 * (nrows * ncols))
    (htmp : tmp.length = 3 * (nrows * ncols)) :
    uncollect nrows ndummy input fuel j tmp =
      match walk (valid nrows ndummy) (3 * (nrows * ncols)) input.length fuel j with
      | some ps => .ok (combineAll tmp ps input)
      | none => .error .fault := by
  induction fuel generalizing input j tmp with
  | zero => cases input <;> rfl
  | succ fuel ih =>
    cases input with
    | nil => rfl
    | cons x input =>
      have hnext : (if j + 1 = 3 * (nrows * ncols) then 0 else j + 1) < 3 * (nrows * ncols) := by
        split <;> omega
      rw [uncollect, List.length_cons, walk]
      simp only [readAt_rmPermCc _ (col_lt hrows j), bind, Except.bind]
      by_cases hv : valid nrows ndummy j = true
      · have hstop : ndummy ≤ j % (nrows * ncols) % nrows * ncols +
            permAt (j % (nrows * ncols) / nrows) := of_decide_eq_true hv
        rw [if_pos hv, if_pos hstop, readAt_of_lt 0 (htmp ▸ hj)]
        simp only
        rw [ih input _ _ hnext (by rw [List.length_set, htmp])]
        cases walk (valid nrows ndummy) (3 * (nrows * ncols)) input.length fuel
            (if j + 1 = 3 * (nrows * ncols) then 0 else j + 1) with
        | none => rfl
        | some ps => rfl
      · have hstop : ¬ ndummy ≤ j % (nrows * ncols) % nrows * ncols +
            permAt (j % (nrows * ncols) / nrows) := fun h => hv (decide_eq_true h)
        rw [if_neg hv, if_neg hstop]
        exact ih (x :: input) _ tmp hnext htmp

/-- What one position has after all. -/
theorem getD_combineAll {p : Nat} (ps : List Nat) (input tmp : List Int16) (hp : p < tmp.length) :
    (combineAll tmp ps input).getD p 0 =
      ((ps.zip input).filterMap fun qx => if qx.1 = p then some qx.2 else none).foldl combine
        (tmp.getD p 0) := by
  rw [combineAll]
  induction ps.zip input generalizing tmp with
  | nil => rfl
  | cons qx qxs ih =>
    rw [List.foldl_cons, ih _ (by rwa [List.length_set])]
    by_cases hq : qx.1 = p
    · simp only [List.filterMap_cons, hq, if_true, List.foldl_cons]
      rw [List.getD_eq_getElem?_getD, List.getElem?_set_self hp]
      rfl
    · simp only [List.filterMap_cons, hq, if_false]
      rw [List.getD_eq_getElem?_getD, List.getElem?_set_ne hq, ← List.getD_eq_getElem?_getD]

theorem length_combineAll (ps : List Nat) (input tmp : List Int16) :
    (combineAll tmp ps input).length = tmp.length := by
  rw [combineAll]
  induction ps.zip input generalizing tmp with
  | nil => rfl
  | cons qx qxs ih => rw [List.foldl_cons, ih, List.length_set]

/-! ### Both directions -/

section Table

variable {nrows ndummy m : Nat} (hrows : 0 < nrows) (hm : m + ndummy = nrows * ncols)

include hrows hm

/-- The positions that are visited for `left` bits. -/
theorem walk_valid (hpos : 0 < m) (left : Nat) :
    ∃ ps, walk (valid nrows ndummy) (3 * (nrows * ncols)) left (left * (3 * (nrows * ncols))) 0 =
        some ps ∧ ps.length = left ∧
      ∀ p ∈ ps, p < 3 * (nrows * ncols) ∧ valid nrows ndummy p = true := by
  have hzero : 0 < 3 * m := by omega
  refine walk_total (entryOf_parts hrows hm hzero).1 (decide_eq_true ?_) left
  rw [bitOf_entryOf hrows hm hzero]
  exact Nat.le_add_left _ _

theorem interleave_eq {bits : List UInt8} (hlen : bits.length = 3 * m) :
    interleave bits nrows ndummy =
      .ok ((List.range (3 * (nrows * ncols))).map (txEntry bits nrows ndummy)) := by
  have hflat : ((List.range 3).flatMap fun s => (List.range ncols).flatMap fun j =>
      (List.range nrows).map fun i => (s, j, i)) =
      (List.range (3 * (nrows * ncols))).map fun p =>
        (p / (nrows * ncols), p % (nrows * ncols) / nrows, p % (nrows * ncols) % nrows) := by
    simp only [flatMap_range]
    rw [Nat.mul_comm ncols]
  rw [interleave, hflat, List.mapM_map]
  refine mapM_ok fun p hp => ?_
  have hp := List.mem_range.mp hp
  rw [Function.comp_apply]
  simp only [interleaved, readAt_rmPermCc _ (col_lt hrows p), bind, Except.bind]
  rw [txEntry]
  by_cases hv : bitOf nrows p < ndummy
  · rw [if_pos hv]
    exact if_pos hv
  · have hlt : codedOf nrows ndummy p < bits.length :=
      hlen ▸ (entryOf_codedOf hrows hm hp (Nat.not_lt.mp hv)).1
    rw [if_neg hv, ← readAt_of_lt 0 hlt]
    exact if_neg hv

/-- A coded bit is not mistaken for a dummy. -/
theorem txEntry_ne_txNull_iff {bits : List UInt8} (hlen : bits.length = 3 * m)
    (hbits : ∀ b ∈ bits, b ≤ 1) {p : Nat} (hp : p < 3 * (nrows * ncols)) :
    txEntry bits nrows ndummy p ≠ txNull ↔ valid nrows ndummy p = true := by
  rw [txEntry, valid, decide_eq_true_iff]
  split
  · rename_i hv
    exact iff_of_false (not_not_intro rfl) (Nat.not_le.mpr hv)
  · rename_i hv
    have hv := Nat.not_lt.mp hv
    refine iff_of_true (fun heq => ?_) hv
    have hlt : codedOf nrows ndummy p < bits.length :=
      hlen ▸ (entryOf_codedOf hrows hm hp hv).1
    have hle := hbits _ (List.getElem_mem hlt)
    rw [List.getD_eq_getElem?_getD, List.getElem?_eq_getElem hlt, Option.getD_some] at heq
    rw [heq] at hle
    exact absurd hle (by decide)

/-- The bit collection emits the coded bit `i` at its position only. -/
theorem txEntry_unitBits {i p : Nat} (hi : i < 3 * m) (hp : p < 3 * (nrows * ncols))
    (hv : valid nrows ndummy p = true) :
    txEntry (unitBits (3 * m) i) nrows ndummy p = 1 ↔ p = entryOf nrows ndummy i := by
  have hv := of_decide_eq_true hv
  obtain ⟨hlt, hback⟩ := entryOf_codedOf hrows hm hp hv
  rw [txEntry, if_neg (Nat.not_lt.mpr hv), unitBits, List.getD_eq_getElem?_getD,
    List.getElem?_map, List.getElem?_range hlt, Option.map_some, Option.getD_some]
  constructor
  · intro heq
    by_cases hcoded : codedOf nrows ndummy p = i
    · rw [← hcoded, hback]
    · rw [if_neg hcoded] at heq
      exact absurd heq (by decide)
  · intro heq
    rw [heq, codedOf_entryOf hrows hm hi, if_pos rfl]

/-- The LLRs that are combined at the position of a coded bit are read back for it. -/
theorem selected_eq {tmp : List Int16} (htmp : tmp.length = 3 * (nrows * ncols)) {c : Nat}
    (hc : c < 3 * m) :
    selected tmp nrows ndummy (c / 3) (c % 3) =
      .ok (finish (tmp.getD (entryOf nrows ndummy c) 0)) := by
  have hlt : entryOf nrows ndummy c < tmp.length := htmp ▸ (entryOf_parts hrows hm hc).1
  have hinv := readAt_rmPermCcInv ((c / 3 + ndummy) % ncols) (Nat.mod_lt _ (by decide))
  have hread := readAt_of_lt 0 hlt
  rw [entryOf] at hread
  simp only [selected, hinv, bind, Except.bind, hread]
  rfl

end Table

/-- What the lengths make of the table: `m` bits of each sub-block, with dummy bits in front. -/
structure Shape (n nrows ndummy m : Nat) : Prop where
  nrows_eq : nrowsOf n = nrows
  ndummy_eq : nrows * ncols - n / 3 = ndummy
  pos : 0 < nrows
  le : nrows ≤ nrowsMax
  fill : m + ndummy = nrows * ncols
  len : n = 3 * m
  m_pos : 0 < m

theorem exists_shape {n : Nat} (h3 : 3 ∣ n) (hlo : 3 ≤ n) (hhi : n ≤ 3072) :
    ∃ nrows ndummy m, Shape n nrows ndummy m := by
  have hrows : nrowsOf n = (n / 3 - 1) / 32 + 1 := by rw [nrowsOf, ncols]; omega
  refine ⟨_, _, n / 3, rfl, rfl, ?_, ?_, ?_, ?_, ?_⟩
  all_goals
    try rw [hrows]
    try rw [nrowsMax]
    try rw [ncols]
    omega

section Lengths

variable {n nrows ndummy m : Nat} (h : Shape n nrows ndummy m)

include h

/-- The transmitter reads the coded bits along the walk. -/
theorem rmConvTx_eq {bits : List UInt8} (hlen : bits.length = n) (hbits : ∀ b ∈ bits, b ≤ 1)
    {outLen : Nat} (hout : outLen < intEnd) {ps : List Nat}
    (hps : walk (valid nrows ndummy) (3 * (nrows * ncols)) outLen
      (outLen * (3 * (nrows * ncols))) 0 = some ps) :
    rmConvTx bits outLen = .ok (ps.map (txEntry bits nrows ndummy)) := by
  have hlen' : bits.length = 3 * m := hlen.trans h.len
  have hK : 0 < 3 * (nrows * ncols) := by
    have := h.fill
    have := h.m_pos
    omega
  rw [rmConvTx, hlen, h.nrows_eq]
  simp only [bind, Except.bind]
  rw [if_neg (Nat.not_lt.mpr h.le), h.ndummy_eq, interleave_eq h.pos h.fill hlen']
  simp only
  rw [if_neg (Nat.not_le.mpr hout), collect_eq
    (fun p hp => txEntry_ne_txNull_iff h.pos h.fill hlen' hbits hp) _ _ _ hK, hps]

theorem rmConvRxS_eq {input : List Int16} (hin : input.length < intEnd) {ps : List Nat}
    (hps : walk (valid nrows ndummy) (3 * (nrows * ncols)) input.length
      (input.length * (3 * (nrows * ncols))) 0 = some ps) :
    rmConvRxS input n = .ok ((List.range n).map fun c =>
      finish ((combineAll (List.replicate (3 * (nrows * ncols)) rxNull) ps input).getD
        (entryOf nrows ndummy c) 0)) := by
  have hK : 0 < 3 * (nrows * ncols) := by
    have := h.fill
    have := h.m_pos
    omega
  have hthird : n / 3 = m := by rw [h.len]; omega
  rw [rmConvRxS, h.nrows_eq]
  simp only [bind, Except.bind]
  rw [if_neg (Nat.not_lt.mpr h.le), h.ndummy_eq, if_neg (Nat.not_le.mpr hin),
    uncollect_eq h.pos _ _ _ _ hK List.length_replicate, hps]
  simp only
  rw [flatMap_range, List.mapM_map, hthird, Nat.mul_comm m 3, ← h.len]
  refine mapM_ok fun c hc => ?_
  have hc := List.mem_range.mp hc
  exact selected_eq h.pos h.fill (by rw [length_combineAll, List.length_replicate])
    (hc.trans_eq h.len)

/-- The LLRs of a coded bit are those that are read at its position. -/
theorem received_eq {input : List Int16} (hin : input.length < intEnd) {ps : List Nat}
    (hps : walk (valid nrows ndummy) (3 * (nrows * ncols)) input.length
      (input.length * (3 * (nrows * ncols))) 0 = some ps)
    (hmem : ∀ p ∈ ps, p < 3 * (nrows * ncols) ∧ valid nrows ndummy p = true) {i : Nat}
    (hi : i < n) :
    received n input i = (ps.zip input).filterMap fun qx =>
      if qx.1 = entryOf nrows ndummy i then some qx.2 else none := by
  have hunit : ∀ b ∈ unitBits n i, b ≤ 1 := by
    intro b hb
    obtain ⟨k, -, rfl⟩ := List.mem_map.mp hb
    split <;> decide
  have hulen : (unitBits n i).length = n := by simp [unitBits]
  rw [received, rmConvTx_eq h hulen hunit hin hps, llrsOfOnes, List.zip_map_left, List.filterMap_map]
  refine List.filterMap_congr fun qx hqx => ?_
  obtain ⟨hp, hv⟩ := hmem qx.1 (List.of_mem_zip hqx).1
  have hone := txEntry_unitBits h.pos h.fill (hi.trans_eq h.len) hp hv
  rw [← h.len] at hone
  exact if_congr hone rfl rfl

/-- The output for a coded bit is made from the LLRs that are received for it. -/
theorem rmConvRxS_received {input : List Int16} (hin : input.length < intEnd) :
    rmConvRxS input n =
      .ok ((List.range n).map fun i => finish ((received n input i).foldl combine rxNull)) := by
  obtain ⟨ps, hps, -, hmem⟩ := walk_valid h.pos h.fill h.m_pos input.length
  rw [rmConvRxS_eq h hin hps]
  congr 1
  refine List.map_congr_left fun i hi => ?_
  have hi := List.mem_range.mp hi
  have hlt := (entryOf_parts h.pos h.fill (hi.trans_eq h.len)).1
  rw [getD_combineAll ps input _ (by rwa [List.length_replicate]),
    received_eq h hin hps hmem hi, List.getD_eq_getElem?_getD, List.getElem?_replicate_of_lt hlt,
    Option.getD_some]

end Lengths

theorem rmConvRxS_fault {n : Nat} {input : List Int16} (hin : intEnd ≤ input.length)
    (output : List Int16) : rmConvRxS input n ≠ .ok output := by
  rw [rmConvRxS]
  simp only
  split
  · nofun
  · nofun

/-- The receiver writes the sums exactly when the lengths of the LLRs are counted by an `int` and
the mark is taken for LLRs and sums of each coded bit a multiple of 4096 times. -/
theorem rmConv_combines_iff {n : Nat} (h3 : 3 ∣ n) (hlo : 3 ≤ n) (hhi : n ≤ 3072)
    (input : List Int16) (hfit : SumsFit n input) :
    Combines n input ↔ input.length < intEnd ∧ ∀ i < n, 4096 ∣ lostOf (received n input i) := by
  obtain ⟨nrows, ndummy, m, h⟩ := exists_shape h3 hlo hhi
  have hiff (i : Nat) (hi : i < n) : (finish ((received n input i).foldl combine rxNull)).toInt =
      sumOf (received n input i) ↔ 4096 ∣ lostOf (received n input i) := by
    have hall := hfit i hi _ (Nat.le_refl _)
    rw [List.take_length] at hall
    exact finish_foldl_eq_iff hall.1 hall.2
  constructor
  · rintro ⟨-, output, hrun, -, hsums⟩
    have hin : input.length < intEnd := by
      by_contra hge
      exact rmConvRxS_fault (Nat.not_lt.mp hge) output hrun
    refine ⟨hin, fun i hi => (hiff i hi).mp ?_⟩
    obtain ⟨x, hx, hsum⟩ := hsums i hi
    rw [rmConvRxS_received h hin] at hrun
    cases hrun
    rw [List.getElem?_map, List.getElem?_range hi, Option.map_some, Option.some.injEq] at hx
    rw [hx, hsum]
  · rintro ⟨hin, hlost⟩
    constructor
    · intro bits hlen hbits
      obtain ⟨ps, hps, hpslen, -⟩ := walk_valid h.pos h.fill h.m_pos input.length
      exact ⟨_, rmConvTx_eq h hlen hbits hin hps, by rw [List.length_map, hpslen]⟩
    · refine ⟨_, rmConvRxS_received h hin, by simp, fun i hi => ?_⟩
      refine ⟨_, ?_, (hiff i hi).mpr (hlost i hi)⟩
      rw [List.getElem?_map, List.getElem?_range hi, Option.map_some]

/-- Seven LLRs for three coded bits -/
theorem rmConv_combines_iff_seven :
    Combines 3 [1, -2, 3, -4, 5, -6, 7] ↔
      [1, -2, 3, -4, 5, -6, (7 : Int16)].length < intEnd ∧
        ∀ i < 3, 4096 ∣ lostOf (received 3 [1, -2, 3, -4, 5, -6, 7] i) := by
  apply rmConv_combines_iff (by decide) (by decide) (by decide)
  unfold SumsFit
  decide +kernel

/-- The mark itself as the only LLR of a coded bit is written as zero. -/
theorem not_rmConv_combines :
    ¬ ∀ (n : Nat) (input : List Int16), 3 ∣ n → 3 ≤ n → n ≤ 3072 → SumsFit n input →
      Combines n input := by
  intro h
  have hfit : SumsFit 3 [10000, 1, 2] := by
    unfold SumsFit
    decide
  obtain ⟨-, output, hrun, -, hsums⟩ :=
    h 3 [10000, 1, 2] (by decide) (by decide) (by decide) hfit
  have hwrites : rmConvRxS [10000, 1, 2] 3 = .ok [0, 1, 2] := by decide
  rw [hwrites] at hrun
  cases hrun
  obtain ⟨x, hx, hsum⟩ := hsums 0 (by decide)
  cases hx
  exact absurd hsum (by decide)

end Odss.Phy.RmConv
