import Odss.Mac.BoundedBitset

/-!
# `Odss.Mac.SchedPhyResource`: intervals of PRBs

The search for free PRBs (`srsenb/src/stack/mac/sched_phy_ch/sched_phy_resource.cc`). `none` is a
failing assertion of the bitset.

`findContiguousUlPrbs_isSome`: the search for at least one PRB does not fail.
-/

set_option linter.all false

namespace Odss.Mac

/-- `prb_interval`: the PRBs from `start` up to `stop`, without `stop`. -/
structure PrbInterval where
  start : Nat
  stop : Nat
  le : start ≤ stop
deriving DecidableEq

namespace PrbInterval

/-- The default interval. -/
def empty : PrbInterval := ⟨0, 0, Nat.le_refl 0⟩

/-- `length` -/
def length (i : PrbInterval) : Nat := i.stop - i.start

/-- `empty` -/
def isEmpty (i : PrbInterval) : Bool := i.stop == i.start

/-- `resize_by(1)` -/
def grow (i : PrbInterval) : PrbInterval := ⟨i.start, i.stop + 1, Nat.le_succ_of_le i.le⟩

/-- `resize_by(-1)` of an interval that is not empty. -/
def shrink (i : PrbInterval) : PrbInterval :=
  ⟨i.start, max i.start (i.stop - 1), Nat.le_max_left _ _⟩

/-- `contains` -/
def Contains (i : PrbInterval) (prb : Nat) : Prop := i.start ≤ prb ∧ prb < i.stop

instance (i : PrbInterval) (prb : Nat) : Decidable (i.Contains prb) :=
  inferInstanceAs (Decidable (_ ∧ _))

end PrbInterval

/-- `valid_prb`: the numbers of PRBs that SC-FDMA allows. -/
def validPrb : List Bool :=
  [true,  true,  true,  true,  true,  true,  true,  false, true,  true,  true,  false, true,
   false, false, true,  true,  false, true,  false, true,  false, false, false, true,  true,
   false, true,  false, false, true,  false, true,  false, false, false, true,  false, false,
   false, true,  false, false, false, false, true,  false, false, true,  false, true,  false,
   false, false, true,  false, false, false, false, false, true,  false, false, false, true,
   false, false, false, false, false, false, false, true,  false, false, true,  false, false,
   false, false, true,  true,  false, false, false, false, false, false, false, false, true,
   false, false, false, false, false, true,  false, false, false, true]

/-- `srsran_dft_precoding_valid_prb` -/
def dftPrecodingValidPrb (nofPrb : Nat) : Bool :=
  if nofPrb ≤ 100 then validPrb.getD nofPrb false else false

section Search

variable {n : Nat} (mask : BoundedBitset n)

/-- The loop of `find_contiguous_interval` from the position `pos`, with the longest interval
`best` so far. Each round moves at least one position, so `n` rounds reach the end. -/
def findContiguousFrom (maxSize : Nat) : Nat → Nat → PrbInterval → Option PrbInterval
  | 0, _, best => some best
  | fuel + 1, pos, best =>
    if pos < n then
      match mask.findLowest pos n false with
      | none => none
      | some none => some best
      | some (some start) =>
        match mask.findLowest (start + 1) (min n (start + maxSize)) true with
        | none => none
        | some found =>
          let stop := found.getD (min n (start + maxSize))
          -- Both ends lie behind `start`, which the type wants to see.
          let interv : PrbInterval := ⟨start, max start stop, Nat.le_max_left _ _⟩
          if interv.length ≥ maxSize then some interv
          else
            findContiguousFrom maxSize fuel interv.stop
              (if interv.length > best.length then interv else best)
    else some best

/-- `find_contiguous_interval` -/
def findContiguousInterval (maxSize : Nat) : Option PrbInterval :=
  findContiguousFrom mask maxSize n 0 .empty

/-- The loop of `find_contiguous_ul_prbs` that makes the interval longer, while the length is not
allowed and the next PRB is free. -/
def growToValid : Nat → PrbInterval → Option PrbInterval
  | 0, interv => some interv
  | fuel + 1, interv =>
    if !dftPrecodingValidPrb interv.length && decide (interv.stop < n) then
      match mask.test interv.stop with
      | none => none
      | some true => some interv
      | some false => growToValid fuel interv.grow
    else some interv

/-- The loop that makes the interval shorter until the length is allowed. -/
def shrinkToValid : Nat → PrbInterval → PrbInterval
  | 0, interv => interv
  | fuel + 1, interv =>
    if !dftPrecodingValidPrb interv.length && !interv.isEmpty then shrinkToValid fuel interv.shrink
    else interv

/-- `find_contiguous_ul_prbs` -/
def findContiguousUlPrbs (len : Nat) : Option PrbInterval :=
  match findContiguousInterval mask len with
  | none => none
  | some interv =>
    if interv.isEmpty then some interv
    else
      match growToValid mask n interv with
      | none => none
      | some longer =>
        if dftPrecodingValidPrb longer.length then some longer
        else some (shrinkToValid interv.length interv.shrink)

/-- The loop of `find_available_rbgmask`: the position behind the first `maxSize` bits, from the
position `i` with `nofAlloc` bits before it. -/
def behindFirst (maxSize : Nat) : Nat → Nat → Nat → Nat
  | 0, i, _ => i
  | fuel + 1, i, nofAlloc =>
    if i < n ∧ nofAlloc < maxSize then
      behindFirst maxSize fuel (i + 1) (if mask.bit i then nofAlloc + 1 else nofAlloc)
    else i

/-- `find_available_rbgmask` for a mask and a number of RBGs -/
def findAvailableFrom (maxSize : Nat) : Option (BoundedBitset n) :=
  let localmask := mask.compl
  if maxSize ≥ n ∨ maxSize ≥ localmask.count then some localmask
  else localmask.unfill (behindFirst localmask maxSize n 0 0) n

/-- `find_available_rbgmask` -/
def findAvailableRbgmask (maxNofRbgs : Nat) (isContiguous : Bool) : Option (BoundedBitset n) :=
  if isContiguous then
    match findContiguousInterval mask maxNofRbgs with
    | none => none
    | some interv => (BoundedBitset.empty n).fill interv.start interv.stop
  else findAvailableFrom mask maxNofRbgs

/-- `find_first_interval`: the first bits that are set. -/
def findFirstInterval : Option PrbInterval :=
  match mask.findLowest 0 n true with
  | none => none
  | some none => some .empty
  | some (some start) =>
    match mask.findLowest (start + 1) n false with
    | none => none
    | some stop => some ⟨start, max start (stop.getD n), Nat.le_max_left _ _⟩

/-- `is_contiguous` -/
def isContiguous : Option Bool :=
  match findFirstInterval mask with
  | none => none
  | some interv => some (interv.length == mask.count)

/-- The loop of `find_ul_alloc` over the positions `ns`, with the PRBs found so far. -/
def findUlFrom (len : Nat) : List Nat → PrbInterval → PrbInterval
  | [], alloc => alloc
  | pos :: ns, alloc =>
    if alloc.length < len then
      if !mask.bit pos then
        findUlFrom len ns (if alloc.isEmpty then ⟨pos, pos + 1, Nat.le_succ pos⟩ else alloc.grow)
      else if !alloc.isEmpty then
        -- The PRBs at the edge are avoided.
        if pos < 3 then findUlFrom len ns .empty else alloc
      else findUlFrom len ns alloc
    else alloc

/-- `find_ul_alloc`, whose result says whether the length was met. -/
def findUlAlloc (len : Nat) : Bool × PrbInterval :=
  let alloc := findUlFrom mask len (List.range n) .empty
  if alloc.isEmpty then (false, alloc)
  else
    -- An empty interval has an allowed length, so the loop ends there.
    let alloc := shrinkToValid alloc.length alloc
    (alloc.length == len, alloc)

/-! ### No failing assertion -/

theorem findLowest_isSome {start stop : Nat} (value : Bool) (h : start ≤ stop) (hn : stop ≤ n) :
    ∃ found, mask.findLowest start stop value = some found := ⟨_, if_pos ⟨h, hn⟩⟩

variable {mask}

theorem findLowest_bound {start stop pos : Nat} {value : Bool}
    (h : mask.findLowest start stop value = some (some pos)) : start ≤ pos ∧ pos < stop := by
  unfold BoundedBitset.findLowest at h
  split at h
  · have hmem := List.mem_of_find?_eq_some (Option.some.inj h)
    rw [List.mem_range'_1] at hmem
    omega
  · cases h

variable (mask)

theorem findContiguousFrom_isSome {maxSize : Nat} (hmax : 0 < maxSize) (fuel pos : Nat)
    (best : PrbInterval) (hbest : best.stop ≤ n) :
    ∃ interv, findContiguousFrom mask maxSize fuel pos best = some interv ∧ interv.stop ≤ n := by
  induction fuel generalizing pos best with
  | zero => exact ⟨best, rfl, hbest⟩
  | succ fuel ih =>
    rw [findContiguousFrom]
    split
    · rename_i hpos
      obtain ⟨found, hfound⟩ := findLowest_isSome mask false (Nat.le_of_lt hpos) (Nat.le_refl n)
      rw [hfound]
      cases found with
      | none => exact ⟨best, rfl, hbest⟩
      | some start =>
        have hstart := findLowest_bound hfound
        -- At least one PRB is asked for, so the range behind the first one is not inverted.
        obtain ⟨found', hfound'⟩ := findLowest_isSome mask true
          (show start + 1 ≤ min n (start + maxSize) by omega) (Nat.min_le_left _ _)
        have hstop : found'.getD (min n (start + maxSize)) ≤ n := by
          cases found' with
          | none => exact Nat.min_le_left _ _
          | some stop =>
            have hbound := findLowest_bound hfound'
            show stop ≤ n
            omega
        simp only [hfound']
        split
        · exact ⟨_, rfl, Nat.max_le.mpr ⟨Nat.le_of_lt hstart.2, hstop⟩⟩
        · refine ih _ _ ?_
          split
          · exact Nat.max_le.mpr ⟨Nat.le_of_lt hstart.2, hstop⟩
          · exact hbest
    · exact ⟨best, rfl, hbest⟩

theorem growToValid_isSome (fuel : Nat) (interv : PrbInterval) :
    ∃ interv', growToValid mask fuel interv = some interv' := by
  induction fuel generalizing interv with
  | zero => exact ⟨interv, rfl⟩
  | succ fuel ih =>
    rw [growToValid]
    split
    · rename_i h
      rw [Bool.and_eq_true, decide_eq_true_eq] at h
      obtain ⟨-, hstop⟩ := h
      rw [BoundedBitset.test, if_pos hstop]
      cases mask.bit interv.stop with
      | true => exact ⟨interv, rfl⟩
      | false => exact ih _
    · exact ⟨interv, rfl⟩

/-- The search for at least one PRB does not fail. -/
theorem findContiguousUlPrbs_isSome {len : Nat} (hlen : 0 < len) :
    ∃ interv, findContiguousUlPrbs mask len = some interv := by
  obtain ⟨interv, hfind, -⟩ := findContiguousFrom_isSome mask hlen n 0 .empty (Nat.zero_le n)
  rw [findContiguousUlPrbs, findContiguousInterval, hfind]
  simp only
  split
  · exact ⟨interv, rfl⟩
  · obtain ⟨longer, hlonger⟩ := growToValid_isSome mask n interv
    rw [hlonger]
    simp only
    split
    · exact ⟨longer, rfl⟩
    · exact ⟨_, rfl⟩

/-! ### The PRBs that are found are free -/

/-- No PRB of the interval is occupied. -/
def Free {n : Nat} (mask : BoundedBitset n) (interv : PrbInterval) : Prop :=
  ∀ prb, interv.Contains prb → ¬ mask.Has prb

variable {mask}

theorem free_empty : Free mask .empty := by
  rintro prb ⟨-, hlt⟩
  exact absurd hlt (Nat.not_lt_zero prb)

theorem findLowest_some {start stop pos : Nat} {value : Bool}
    (h : mask.findLowest start stop value = some (some pos)) :
    mask.bit pos = value ∧ ∀ i, start ≤ i → i < pos → mask.bit i ≠ value := by
  unfold BoundedBitset.findLowest at h
  split at h
  · obtain ⟨hpos, -, hbefore⟩ := List.find?_range'_eq_some.mp (Option.some.inj h)
    exact ⟨by simpa using hpos, fun i hi hlt => by simpa using hbefore i hi hlt⟩
  · cases h

theorem findLowest_none {start stop : Nat} {value : Bool}
    (h : mask.findLowest start stop value = some none) :
    ∀ i, start ≤ i → i < stop → mask.bit i ≠ value := by
  unfold BoundedBitset.findLowest at h
  split at h
  · intro i hi hlt
    have hnone := List.find?_range'_eq_none.mp (Option.some.inj h) i hi (by omega)
    simpa using hnone
  · cases h

/-- The positions with a bit from `start` on are the one that is found and those behind it. -/
theorem has_from_iff {start pos : Nat} (h : mask.findLowest start n true = some (some pos))
    (i : Nat) : start ≤ i ∧ mask.Has i ↔ i = pos ∨ pos + 1 ≤ i ∧ mask.Has i := by
  obtain ⟨hge, -⟩ := findLowest_bound h
  obtain ⟨hpos, hbefore⟩ := findLowest_some h
  constructor
  · rintro ⟨hle, hhas⟩
    rcases Nat.lt_trichotomy i pos with hbelow | heq | habove
    · exact absurd hhas (hbefore i hle hbelow)
    · exact .inl heq
    · exact .inr ⟨habove, hhas⟩
  · rintro (rfl | ⟨hgt, hhas⟩)
    · exact ⟨hge, hpos⟩
    · exact ⟨by omega, hhas⟩

/-- From a free PRB up to the first occupied one behind it, all are free. -/
theorem free_run {maxSize pos start : Nat} {found : Option Nat}
    (hstart : mask.findLowest pos n false = some (some start))
    (hfound : mask.findLowest (start + 1) (min n (start + maxSize)) true = some found)
    (hle : start ≤ max start (found.getD (min n (start + maxSize)))) :
    Free mask ⟨start, max start (found.getD (min n (start + maxSize))), hle⟩ := by
  rintro prb ⟨hge, hlt⟩ hhas
  simp only at hge hlt
  rcases Nat.lt_or_eq_of_le hge with hgt | rfl
  · cases found with
    | none =>
      simp only [Option.getD_none] at hlt
      exact findLowest_none hfound prb hgt (by omega) hhas
    | some stop =>
      simp only [Option.getD_some] at hlt
      exact (findLowest_some hfound).2 prb hgt (by omega) hhas
  · exact Bool.false_ne_true ((findLowest_some hstart).1.symm.trans hhas)

theorem free_findContiguousFrom {maxSize : Nat} (fuel : Nat) {pos : Nat} {best interv : PrbInterval}
    (hbest : Free mask best)
    (h : findContiguousFrom mask maxSize fuel pos best = some interv) : Free mask interv := by
  induction fuel generalizing pos best with
  | zero => exact Option.some.inj h ▸ hbest
  | succ fuel ih =>
    rw [findContiguousFrom] at h
    split at h
    · split at h
      · cases h
      · exact Option.some.inj h ▸ hbest
      · rename_i start hstart
        split at h
        · cases h
        · rename_i found hfound
          have hrun := free_run hstart hfound (Nat.le_max_left _ _)
          simp only at h
          split at h
          · exact Option.some.inj h ▸ hrun
          · refine ih ?_ h
            split
            · exact hrun
            · exact hbest
    · exact Option.some.inj h ▸ hbest

theorem free_growToValid (fuel : Nat) {interv interv' : PrbInterval} (hfree : Free mask interv)
    (h : growToValid mask fuel interv = some interv') : Free mask interv' := by
  induction fuel generalizing interv with
  | zero => exact Option.some.inj h ▸ hfree
  | succ fuel ih =>
    rw [growToValid] at h
    split at h
    · split at h
      · cases h
      · exact Option.some.inj h ▸ hfree
      · rename_i htest
        refine ih ?_ h
        rintro prb ⟨hge, hlt⟩ hhas
        simp only [PrbInterval.grow] at hge hlt
        rcases Nat.lt_or_eq_of_le (Nat.le_of_lt_succ hlt) with hin | rfl
        · exact hfree prb ⟨hge, hin⟩ hhas
        · -- The PRB behind the interval was tested.
          unfold BoundedBitset.test at htest
          split at htest
          · exact Bool.false_ne_true ((Option.some.inj htest).symm.trans hhas)
          · cases htest
    · exact Option.some.inj h ▸ hfree

theorem free_shrink {interv : PrbInterval} (hfree : Free mask interv) :
    Free mask interv.shrink := by
  rintro prb ⟨hge, hlt⟩
  simp only [PrbInterval.shrink] at hge hlt
  exact hfree prb ⟨hge, by omega⟩

theorem free_shrinkToValid (fuel : Nat) {interv : PrbInterval} (hfree : Free mask interv) :
    Free mask (shrinkToValid fuel interv) := by
  induction fuel generalizing interv with
  | zero => exact hfree
  | succ fuel ih =>
    rw [shrinkToValid]
    split
    · exact ih (free_shrink hfree)
    · exact hfree

theorem free_findContiguousUlPrbs {len : Nat} {interv : PrbInterval}
    (h : findContiguousUlPrbs mask len = some interv) : Free mask interv := by
  unfold findContiguousUlPrbs at h
  split at h
  · cases h
  · rename_i found hfound
    have hfree := free_findContiguousFrom n free_empty hfound
    split at h
    · exact Option.some.inj h ▸ hfree
    · split at h
      · cases h
      · rename_i longer hlonger
        split at h
        · exact Option.some.inj h ▸ free_growToValid n hfree hlonger
        · exact Option.some.inj h ▸ free_shrinkToValid _ (free_shrink hfree)

end Search

end Odss.Mac
