import Odss.Mac.SchedUeCell
import Odss.Proofs.FalsePosition
import Odss.Proofs.UlPrbSearch

/-!
# `Odss.Proofs.DlRbgSearch`: the RBGs of a DL grant

When the free RBGs carry more than what is asked for, `find_optimal_rbgmask` walks along them and
builds a mask of the last RBGs from the position that it reaches. The order of the bits in the word
makes these the first RBGs. So the mask is right where the first and the last RBGs are free.
`rank` counts the RBGs of a mask in front of a position: the walk adds one to it with each step
(`walkRbgs_spec`).

`searchSound_iff_edgesFree` says when the result has only free RBGs, and as many as the search has
found.
-/

set_option linter.all false

namespace Odss.Mac

open FalsePosition (Bracket Crossing falsePositionMethod falsePositionMethod_crosses searchLoop)

variable {n : Nat} {mask : BoundedBitset n}

namespace BoundedBitset

/-! ### Bits in front of a position -/

/-- The number of bits in front of a position. -/
def rank (mask : BoundedBitset n) (pos : Nat) : Nat := (List.range pos).countP mask.bit

@[simp] theorem rank_zero (mask : BoundedBitset n) : mask.rank 0 = 0 := rfl

theorem count_eq_rank (mask : BoundedBitset n) : mask.count = mask.rank n := rfl

theorem rank_succ (mask : BoundedBitset n) (pos : Nat) :
    mask.rank (pos + 1) = mask.rank pos + if mask.Has pos then 1 else 0 := by
  unfold rank
  rw [List.range_succ, List.countP_append, List.countP_singleton]
  rfl

theorem rank_succ_of_has {pos : Nat} (h : mask.Has pos) :
    mask.rank (pos + 1) = mask.rank pos + 1 := by
  rw [rank_succ, if_pos h]

theorem rank_le_add (mask : BoundedBitset n) (pos k : Nat) :
    mask.rank (pos + k) ≤ mask.rank pos + k := by
  induction k with
  | zero => exact Nat.le_refl _
  | succ k ih =>
    rw [← Nat.add_assoc, rank_succ]
    split <;> omega

theorem rank_mono (mask : BoundedBitset n) {pos pos' : Nat} (h : pos ≤ pos') :
    mask.rank pos ≤ mask.rank pos' := by
  induction pos' with
  | zero => rw [Nat.le_zero.mp h]
  | succ k ih =>
    rcases Nat.lt_or_eq_of_le h with hlt | rfl
    · have := ih (Nat.le_of_lt_succ hlt)
      rw [rank_succ]
      omega
    · exact Nat.le_refl _

/-- No bits add nothing. -/
theorem rank_of_gap {pos pos' : Nat} (hle : pos ≤ pos') (h : ∀ i, pos ≤ i → i < pos' → ¬mask.Has i) :
    mask.rank pos' = mask.rank pos := by
  induction pos' with
  | zero => rw [Nat.le_zero.mp hle]
  | succ k ih =>
    rcases Nat.lt_or_eq_of_le hle with hlt | rfl
    · rw [rank_succ, if_neg (h k (Nat.le_of_lt_succ hlt) (Nat.lt_succ_self k)), Nat.add_zero]
      exact ih (Nat.le_of_lt_succ hlt) fun i hi hi' => h i hi (Nat.lt_succ_of_lt hi')
    · rfl

/-- The rank grows with every position exactly where all bits are set. -/
theorem rank_add_iff (mask : BoundedBitset n) (pos k : Nat) :
    mask.rank (pos + k) = mask.rank pos + k ↔ ∀ i < k, mask.Has (pos + i) := by
  induction k with
  | zero => simp
  | succ k ih =>
    have hle := rank_le_add mask pos k
    rw [← Nat.add_assoc, rank_succ]
    constructor
    · intro h i hi
      by_cases hlast : mask.Has (pos + k)
      · rw [if_pos hlast] at h
        rcases Nat.lt_or_eq_of_le (Nat.le_of_lt_succ hi) with hlt | rfl
        · exact ih.mp (by omega) i hlt
        · exact hlast
      · rw [if_neg hlast] at h
        omega
    · intro h
      rw [if_pos (h k (Nat.lt_succ_self k)), ih.mpr fun i hi => h i (Nat.lt_succ_of_lt hi)]
      omega

theorem count_pos_iff : 0 < mask.count ↔ ∃ pos, mask.Has pos := by
  unfold count
  rw [List.countP_pos_iff]
  constructor
  · rintro ⟨pos, -, h⟩
    exact ⟨pos, h⟩
  · rintro ⟨pos, h⟩
    exact ⟨pos, List.mem_range.mpr h.lt, h⟩

/-- The first `k` bits are `k` bits. -/
theorem count_of_first {k : Nat} (hk : k ≤ n) (h : ∀ i, mask.Has i ↔ i < k) : mask.count = k := by
  have hfirst : mask.rank (0 + k) = mask.rank 0 + k :=
    (rank_add_iff mask 0 k).mpr fun i hi => (h _).mpr (by omega)
  rw [Nat.zero_add, rank_zero, Nat.zero_add] at hfirst
  rw [count_eq_rank, rank_of_gap hk fun i hi _ hhas => absurd ((h i).mp hhas) (Nat.not_lt.mpr hi)]
  exact hfirst

theorem count_lt_of_subset {mask' : BoundedBitset n} {pos : Nat}
    (hsub : ∀ i, mask'.Has i → mask.Has i) (h : mask.Has pos) (h' : ¬mask'.Has pos) :
    mask'.count < mask.count := by
  have hle (k : Nat) : mask'.rank k ≤ mask.rank k := List.countP_mono_left fun i _ => hsub i
  have hlt (k : Nat) (hk : pos < k) : mask'.rank k < mask.rank k := by
    induction k with
    | zero => exact absurd hk (Nat.not_lt_zero pos)
    | succ k ih =>
      have hbefore := hle k
      rw [rank_succ, rank_succ]
      rcases Nat.lt_or_eq_of_le (Nat.le_of_lt_succ hk) with hin | rfl
      · have hstep := ih hin
        by_cases hhas : mask'.Has k
        · rw [if_pos hhas, if_pos (hsub k hhas)]
          omega
        · rw [if_neg hhas]
          omega
      · rw [if_neg h', if_pos h]
        omega
  exact hlt n h.lt

theorem has_of_fromUint64 {v : Nat} (h : fromUint64 n v = some mask) (pos : Nat) :
    mask.Has pos ↔ pos < n ∧ v.testBit (n - 1 - pos) = true := by
  unfold fromUint64 at h
  split at h
  · cases h
    unfold Has bit
    by_cases hpos : pos < n
    · simp [hpos]
    · simp [hpos]
  · cases h

end BoundedBitset

open BoundedBitset

/-! ### The walk and the word -/

/-- Each step of the walk reaches the next RBG of the mask. -/
theorem walkRbgs_spec (mask : BoundedBitset n) (k : Nat) {pos : Nat} (hpos : pos < n)
    (h : mask.rank (pos + 1) + k ≤ mask.count) :
    ∃ last : Nat, walkRbgs mask k pos = some (last : Int) ∧ last < n ∧
      mask.rank (last + 1) = mask.rank (pos + 1) + k ∧ (k = 0 ∧ last = pos ∨ mask.Has last) := by
  induction k generalizing pos with
  | zero => exact ⟨pos, rfl, hpos, rfl, .inl ⟨rfl, rfl⟩⟩
  | succ k ih =>
    obtain ⟨found, hfound⟩ := findLowest_isSome mask true (show pos + 1 ≤ n from hpos) (Nat.le_refl n)
    have hnat : ((pos : Int) + 1).toNat = pos + 1 := by omega
    rw [walkRbgs, hnat, hfound]
    cases found with
    | none =>
      -- There are further RBGs.
      rw [count_eq_rank, rank_of_gap (show pos + 1 ≤ n from hpos) (findLowest_none hfound)] at h
      omega
    | some next =>
      obtain ⟨hge, hlt⟩ := findLowest_bound hfound
      obtain ⟨hnext, hbefore⟩ := findLowest_some hfound
      have hrank : mask.rank (next + 1) = mask.rank (pos + 1) + 1 := by
        rw [rank_succ_of_has hnext, rank_of_gap hge hbefore]
      obtain ⟨last, hlast, hin, hrank', hhas⟩ := ih hlt (by omega)
      refine ⟨last, hlast, hin, by omega, .inr ?_⟩
      rcases hhas with ⟨-, rfl⟩ | hhas
      · exact hnext
      · exact hhas

theorem testBit_wordFrom {pos j : Nat} (hpos : pos < n) (hn : n ≤ 25) (hj : j < n) :
    (wordFrom n pos).testBit j = decide (pos ≤ j) := by
  have hsmall : 2 ^ pos - 1 < 2 ^ 32 := by
    have : 2 ^ pos < 2 ^ 32 := Nat.pow_lt_pow_right (by decide) (by omega)
    omega
  have hword : 2 ^ 32 - 1 - (2 ^ pos - 1) = 2 ^ 32 - (2 ^ pos - 1 + 1) := by omega
  rw [wordFrom, Nat.testBit_and, Nat.testBit_two_pow_sub_one, hword,
    Nat.testBit_two_pow_sub_succ hsmall, Nat.testBit_two_pow_sub_one]
  by_cases hle : pos ≤ j
  · simp [hle, hj, show j < 32 by omega]
  · simp [hle, show j < pos by omega]

theorem wordFrom_lt (n pos : Nat) : wordFrom n pos < 2 ^ n := by
  have hle : wordFrom n pos ≤ 2 ^ n - 1 := Nat.and_le_right
  have hpos := Nat.two_pow_pos n
  omega

/-- The last `k` bits are set exactly where the rank grows with each of them. -/
theorem last_iff {k : Nat} (hk : k ≤ n) :
    (∀ rbg < k, mask.Has (n - 1 - rbg)) ↔ mask.count = mask.rank (n - k) + k := by
  have hrank := rank_add_iff mask (n - k) k
  rw [Nat.sub_add_cancel hk, ← count_eq_rank] at hrank
  rw [hrank]
  constructor
  · intro h i hi
    have hlast := h (k - 1 - i) (by omega)
    rwa [show n - 1 - (k - 1 - i) = n - k + i by omega] at hlast
  · intro h rbg hrbg
    have hlast := h (k - 1 - rbg) (by omega)
    rwa [show n - k + (k - 1 - rbg) = n - 1 - rbg by omega] at hlast

/-- Where the walk ends `upperNrbg` positions in front of the end. -/
theorem last_eq_iff {last upperNrbg : Nat} (hlast : last < n) (hpos : 0 < upperNrbg)
    (hle : upperNrbg ≤ mask.count) (hcount : mask.count ≤ n)
    (hrank : mask.rank (last + 1) = mask.rank 1 + (mask.count - upperNrbg))
    (hhas : mask.count - upperNrbg = 0 ∧ last = 0 ∨ mask.Has last) :
    n - last = upperNrbg ↔ mask.Has 0 ∧ ∀ rbg < upperNrbg, mask.Has (n - 1 - rbg) := by
  have hone : mask.rank 1 = if mask.Has 0 then 1 else 0 := by
    rw [rank_succ, rank_zero, Nat.zero_add]
  have hlastHas (h : mask.Has 0) : mask.rank (last + 1) = mask.rank last + 1 := by
    rcases hhas with ⟨-, rfl⟩ | hhas
    · exact rank_succ_of_has h
    · exact rank_succ_of_has hhas
  rw [last_iff (Nat.le_trans hle hcount)]
  constructor
  · rintro rfl
    -- Behind the end of the walk there are too few positions for the RBGs that are left, unless the
    -- walk has counted the first RBG.
    have hbehind := rank_le_add mask (last + 1) (n - last - 1)
    rw [show last + 1 + (n - last - 1) = n by omega, ← count_eq_rank] at hbehind
    by_cases hzero : mask.Has 0
    · rw [if_pos hzero] at hone
      have hin := hlastHas hzero
      rw [show n - (n - last) = last by omega]
      exact ⟨hzero, by omega⟩
    · rw [if_neg hzero] at hone
      omega
  · rintro ⟨hzero, hend⟩
    rw [if_pos hzero] at hone
    have hin := hlastHas hzero
    have hfirst : mask.rank (n - upperNrbg + 1) = mask.rank (n - upperNrbg) + 1 := by
      have hall := (last_iff (Nat.le_trans hle hcount)).mpr hend (upperNrbg - 1) (by omega)
      rw [show n - 1 - (upperNrbg - 1) = n - upperNrbg by omega] at hall
      exact rank_succ_of_has hall
    rcases Nat.lt_trichotomy last (n - upperNrbg) with hlt | heq | hgt
    · have := rank_mono mask (show last + 1 ≤ n - upperNrbg from hlt)
      omega
    · omega
    · have := rank_mono mask (show n - upperNrbg + 1 ≤ last from hgt)
      omega

/-- What the reduction makes of a mask: the first RBGs of the cell, as many as asked for exactly
where the first and the last RBGs are in the mask. -/
structure Reduced (mask result : BoundedBitset n) (upperNrbg : Nat) : Prop where
  pos : 0 < result.count
  first : ∀ rbg, result.Has rbg ↔ rbg < result.count
  count_eq : result.count = upperNrbg ↔ mask.Has 0 ∧ ∀ rbg < upperNrbg, mask.Has (n - 1 - rbg)

theorem reduceRbgmask_spec {upperNrbg : Nat} (hn : n ≤ 25) (hpos : 0 < upperNrbg)
    (hle : upperNrbg ≤ mask.count) :
    ∃ result, reduceRbgmask mask upperNrbg = some result ∧ Reduced mask result upperNrbg := by
  have hcount := count_le mask
  have hone : mask.rank (0 + 1) = if mask.Has 0 then 1 else 0 := by
    rw [rank_succ, rank_zero, Nat.zero_add]
  obtain ⟨last, hwalk, hlast, hrank, hhas⟩ := walkRbgs_spec mask
    (mask.count - upperNrbg) (show 0 < n by omega) (by rw [hone]; split <;> omega)
  obtain ⟨result, hword⟩ : ∃ result, fromUint64 n (wordFrom n last) = some result :=
    ⟨_, if_pos ⟨by omega, by unfold bitsPerWord; omega, wordFrom_lt n last⟩⟩
  have hfirst (rbg : Nat) : result.Has rbg ↔ rbg < n - last := by
    rw [has_of_fromUint64 hword]
    constructor
    · rintro ⟨hrbg, hbit⟩
      rw [testBit_wordFrom hlast hn (by omega), decide_eq_true_eq] at hbit
      omega
    · intro hrbg
      refine ⟨by omega, ?_⟩
      rw [testBit_wordFrom hlast hn (by omega), decide_eq_true_eq]
      omega
  have hresult := count_of_first (Nat.sub_le n last) hfirst
  refine ⟨result, ?_, ?_, ?_, ?_⟩
  · rw [reduceRbgmask, show (0 : Int) = ((0 : Nat) : Int) from rfl, hwalk]
    exact (if_neg (by omega)).trans hword
  · rw [hresult]
    omega
  · rw [hresult]
    exact hfirst
  · rw [hresult]
    exact last_eq_iff hlast hpos hle hcount hrank hhas

/-! ### The free RBGs -/

theorem exists_free (h : mask.all = false) : ∃ rbg < n, ¬mask.Has rbg := by
  unfold BoundedBitset.all at h
  rw [List.all_eq_false] at h
  obtain ⟨rbg, hrbg, hbit⟩ := h
  exact ⟨rbg, List.mem_range.mp hrbg, hbit⟩

/-- The RBGs that the format can use: all that are free, or a run of them. -/
structure Available (dlMask : BoundedBitset n) (isFormat1A : Bool) (mask : BoundedBitset n) :
    Prop where
  nonempty : ∃ rbg, mask.Has rbg
  free : ∀ rbg, mask.Has rbg → ¬dlMask.Has rbg
  all : (∀ rbg, ¬dlMask.Has rbg) → ∀ rbg < n, mask.Has rbg
  every : isFormat1A = false → ∀ rbg < n, ¬dlMask.Has rbg → mask.Has rbg
  run : isFormat1A = true → mask.Has 0 → mask.Has (n - 1) → ∀ rbg, ¬dlMask.Has rbg

theorem findAvailableRbgmask_spec {dlMask : BoundedBitset n} (h : dlMask.all = false)
    (isFormat1A : Bool) :
    ∃ mask, findAvailableRbgmask dlMask n isFormat1A = some mask ∧
      Available dlMask isFormat1A mask := by
  obtain ⟨rbg, hrbg, hfree⟩ := exists_free h
  cases isFormat1A with
  | false =>
    have hfind : findAvailableRbgmask dlMask n false = some dlMask.compl := by
      rw [findAvailableRbgmask, if_neg Bool.false_ne_true]
      exact if_pos (.inl (Nat.le_refl n))
    exact ⟨dlMask.compl, hfind,
      { nonempty := ⟨rbg, (has_compl dlMask rbg).mpr ⟨hrbg, hfree⟩⟩
        free := fun i hi => ((has_compl dlMask i).mp hi).2
        all := fun hall i hi => (has_compl dlMask i).mpr ⟨hi, hall i⟩
        every := fun _ i hi hi' => (has_compl dlMask i).mpr ⟨hi, hi'⟩
        run := fun hformat => absurd hformat (by decide) }⟩
  | true =>
    have hn : 0 < n := by omega
    obtain ⟨interv, hfind, hstop⟩ := findContiguousFrom_isSome dlMask hn n 0 .empty (Nat.zero_le n)
    have hlongest : Longest dlMask n interv :=
      longest_findContiguousFrom hn n (by omega)
        ⟨fun _ hprb => absurd hprb (Nat.not_lt_zero _),
          fun _ _ hprb => absurd hprb (Nat.not_lt_zero _)⟩
        hfind
    have hrun := free_findContiguousFrom n free_empty hfind
    obtain ⟨mask, hmask⟩ : ∃ mask,
        (BoundedBitset.empty n).fill interv.start interv.stop = some mask :=
      ⟨_, if_pos ⟨interv.le, hstop⟩⟩
    have hhas (i : Nat) : mask.Has i ↔ interv.Contains i := by
      rw [has_of_fill hmask]
      simp [PrbInterval.Contains]
    have hlt : interv.start < interv.stop := by
      refine Nat.lt_of_le_of_ne interv.le fun heq => ?_
      have hempty : interv.isEmpty = true := by
        rw [PrbInterval.isEmpty, beq_iff_eq]
        exact heq.symm
      exact hfree (hlongest.occupied hempty rbg hrbg)
    refine ⟨mask, ?_,
      { nonempty := ⟨interv.start, (hhas _).mpr ⟨Nat.le_refl _, hlt⟩⟩
        free := fun i hi => hrun i ((hhas i).mp hi)
        all := fun hall i hi => (hhas i).mpr ?_
        every := fun hformat => absurd hformat (by decide)
        run := fun _ hzero hlast i => ?_ }⟩
    · rw [findAvailableRbgmask, if_pos rfl, findContiguousInterval, hfind]
      exact hmask
    · -- The whole cell is a run.
      obtain ⟨⟨⟨hle, -⟩, -⟩, hlength⟩ :=
        hlongest.first 0 ⟨Nat.le_of_eq (Nat.zero_add n), fun prb _ _ => hall prb⟩
      rw [PrbInterval.length] at hlength
      exact ⟨by omega, by omega⟩
    · intro hocc
      have hstart := ((hhas 0).mp hzero).1
      have hend := ((hhas (n - 1)).mp hlast).2
      have hi := hocc.lt
      exact hrun i ⟨by omega, by omega⟩ hocc

/-! ### The TBS of a mask -/

theorem countPrbPerTb_pos_iff (hn : n ∈ cellNofRbgs) :
    0 < countPrbPerTb mask ↔ ∃ rbg, mask.Has rbg := by
  have htable : ∀ n ∈ cellNofRbgs, n * Phy.Dci.raType0P (cellNofRbgToPrb n) - cellNofRbgToPrb n
      < Phy.Dci.raType0P (cellNofRbgToPrb n) := by
    decide
  have hshort := htable n hn
  rw [← count_pos_iff]
  simp only [countPrbPerTb]
  constructor
  · intro h
    by_contra hzero
    rw [Nat.eq_zero_of_not_pos hzero, Nat.mul_zero, Nat.zero_sub, ite_self] at h
    exact Nat.lt_irrefl 0 h
  · intro h
    have hle := Nat.le_mul_of_pos_right (Phy.Dci.raType0P (cellNofRbgToPrb n)) h
    split
    · omega
    · omega

variable {cell : SchedUeCell n}

theorem tbsBytes_of_has (cell : SchedUeCell n) (hn : n ∈ cellNofRbgs) {rbg : Nat} (h : mask.Has rbg) :
    0 ≤ (cell.computeMcsAndTbsLowerBound mask).tbsBytes := by
  rw [SchedUeCell.computeMcsAndTbsLowerBound,
    if_neg (Nat.pos_iff_ne_zero.mp ((countPrbPerTb_pos_iff hn).mpr ⟨rbg, h⟩))]
  exact cell.tbsBytes_nonneg mask

theorem tbsBytes_of_none (cell : SchedUeCell n) (hn : n ∈ cellNofRbgs) (h : ∀ rbg, ¬mask.Has rbg) :
    (cell.computeMcsAndTbsLowerBound mask).tbsBytes = -1 := by
  have hzero : countPrbPerTb mask = 0 := by
    by_contra hpos
    obtain ⟨rbg, hrbg⟩ := (countPrbPerTb_pos_iff hn).mp (Nat.pos_of_ne_zero hpos)
    exact h rbg hrbg
  rw [SchedUeCell.computeMcsAndTbsLowerBound, if_pos hzero]
  rfl

theorem computeTbsApprox_nonneg (cell : SchedUeCell n) (hn : n ∈ cellNofRbgs) {k : Int} (hk : 1 ≤ k) :
    0 ≤ cell.computeTbsApprox k := by
  have hpos : 0 < n := by
    simp only [cellNofRbgs, List.mem_cons, List.not_mem_nil, or_false] at hn
    omega
  have hfirst : (firstRbgs n k.toNat).Has 0 := by
    simp only [firstRbgs, BoundedBitset.Has, BoundedBitset.bit, hpos, dif_pos, decide_eq_true_eq]
    omega
  exact tbsBytes_of_has cell hn hfirst

/-! ### The RBGs with the lowest CQI -/

variable {cqi : SchedDlCqi}

theorem getSubbandCqi_lt (cqi : SchedDlCqi) (sb : Nat) : cqi.getSubbandCqi sb < intMax := by
  unfold SchedDlCqi.getSubbandCqi
  split
  · exact cqi.wbCqiAvg_lt
  · split
    · rw [List.getD_eq_getElem?_getD]
      cases hsb : cqi.subbandCqi[sb]? with
      | none => exact show 0 < 2 ^ 31 - 1 by decide
      | some v => exact cqi.subbandCqi_lt v (List.mem_of_getElem? hsb)
    · exact cqi.wbCqiAvg_lt

/-- The positions in front of `pos` have been looked at. The CQI so far is below the first value as
soon as the mask has an RBG, and then there are RBGs with it. -/
structure LowestSoFar (mask : BoundedBitset n) (pos minCqi : Nat) (minMask : BoundedBitset n) :
    Prop where
  subset : ∀ rbg, minMask.Has rbg → mask.Has rbg
  nonempty : minCqi < intMax → ∃ rbg, minMask.Has rbg
  scanned : ∀ rbg < pos, mask.Has rbg → minCqi < intMax

theorem findMinCqiFrom_spec (cqi : SchedDlCqi) {fuel pos minCqi : Nat} {minMask : BoundedBitset n}
    (h : LowestSoFar mask pos minCqi minMask) (hpos : pos ≤ n) (hfuel : n ≤ pos + fuel) :
    ∃ minCqi' minMask', cqi.findMinCqiFrom mask fuel pos minCqi minMask = some (minCqi', minMask') ∧
      LowestSoFar mask n minCqi' minMask' := by
  induction fuel generalizing pos minCqi minMask with
  | zero =>
    obtain rfl : pos = n := by omega
    exact ⟨minCqi, minMask, rfl, h⟩
  | succ fuel ih =>
    obtain ⟨found, hfound⟩ := findLowest_isSome mask true hpos (Nat.le_refl n)
    rw [SchedDlCqi.findMinCqiFrom, hfound]
    cases found with
    | none =>
      refine ⟨minCqi, minMask, rfl, h.subset, h.nonempty, fun rbg hrbg hhas => ?_⟩
      rcases Nat.lt_or_ge rbg pos with hin | hout
      · exact h.scanned rbg hin hhas
      · exact absurd hhas (findLowest_none hfound rbg hout hrbg)
    | some rbg =>
      obtain ⟨hge, hlt⟩ := findLowest_bound hfound
      obtain ⟨hhas, hbefore⟩ := findLowest_some hfound
      dsimp only
      have hcqi := getSubbandCqi_lt cqi (cqi.rbgToSbIndex n rbg)
      split
      · -- A lower CQI starts a new mask.
        obtain ⟨only, honly⟩ : ∃ only, (BoundedBitset.empty n).set rbg = some only :=
          ⟨_, if_pos hlt⟩
        rw [honly]
        have hset := has_of_set honly
        refine ih ⟨fun i hi => ?_, fun _ => ⟨rbg, (hset rbg).mpr (.inl rfl)⟩, fun _ _ _ => hcqi⟩ hlt
          (by omega)
        rcases (hset i).mp hi with rfl | hempty
        · exact hhas
        · exact absurd hempty (not_has_empty i)
      · split
        · rename_i heq
          obtain ⟨more, hmore⟩ : ∃ more, minMask.set rbg = some more := ⟨_, if_pos hlt⟩
          rw [hmore]
          have hset := has_of_set hmore
          refine ih ⟨fun i hi => ?_, fun _ => ⟨rbg, (hset rbg).mpr (.inl rfl)⟩,
            fun _ _ _ => heq ▸ hcqi⟩ hlt (by omega)
          rcases (hset i).mp hi with rfl | hold
          · exact hhas
          · exact h.subset i hold
        · rename_i hnot hne
          exact ih ⟨h.subset, h.nonempty, fun _ _ _ => by omega⟩ hlt (by omega)

theorem removeMinCqiRbgs_of_has (hon : cqi.subbandCqiEnabled = true) {rbg : Nat}
    (h : mask.Has rbg) :
    ∃ smaller, cqi.removeMinCqiRbgs mask = some smaller ∧ (∀ i, smaller.Has i → mask.Has i) ∧
      smaller.count < mask.count := by
  have hstart : LowestSoFar mask 0 intMax (.empty n) :=
    ⟨fun i hi => absurd hi (not_has_empty i), fun hlt => absurd hlt (Nat.lt_irrefl _),
      fun _ hlt => absurd hlt (Nat.not_lt_zero _)⟩
  obtain ⟨minCqi, minMask, hfind, hlowest⟩ :=
    findMinCqiFrom_spec cqi hstart (Nat.zero_le n) (show n ≤ 0 + n by omega)
  have hcqi := hlowest.scanned rbg h.lt h
  obtain ⟨i, hi⟩ := hlowest.nonempty hcqi
  have hmin : cqi.findMinCqiRbgs mask = some ((minCqi : Int), minMask) := by
    rw [SchedDlCqi.findMinCqiRbgs, (any_iff mask).mpr ⟨rbg, h⟩, hon, hfind]
    simp only [Bool.not_true, Bool.false_eq_true, if_false, if_neg (Nat.ne_of_lt hcqi)]
  refine ⟨minMask.compl.inter mask, ?_, fun j hj => ((has_inter _ _ j).mp hj).2, ?_⟩
  · rw [SchedDlCqi.removeMinCqiRbgs, hmin]
    exact if_neg (by omega)
  · refine count_lt_of_subset (fun j hj => ((has_inter _ _ j).mp hj).2) (hlowest.subset i hi)
      fun hrest => ?_
    exact ((has_compl minMask i).mp ((has_inter _ _ i).mp hrest).1).2 hi

/-! ### The loop for subband CQI -/

theorem exists_has_or (mask : BoundedBitset n) : (∃ rbg, mask.Has rbg) ∨ ∀ rbg, ¬mask.Has rbg := by
  by_cases h : ∃ rbg, mask.Has rbg
  · exact .inl h
  · exact .inr fun rbg hrbg => h ⟨rbg, hrbg⟩

/-- A round of the loop: the smaller mask, which has no TBS when it is empty. -/
theorem removeRbgs_succ (hon : cell.dlCqi.subbandCqiEnabled = true) {rbg : Nat} (h : mask.Has rbg)
    (stop : Int) (fuel : Nat) (tb : TbsInfo) : ∃ smaller : BoundedBitset n,
      (∀ i, smaller.Has i → mask.Has i) ∧ smaller.count < mask.count ∧
      cell.removeRbgs stop (fuel + 1) tb mask =
        let tb2 := cell.computeMcsAndTbsLowerBound smaller
        let better := decide (tb2.tbsBytes ≥ stop) || decide (tb.tbsBytes ≤ tb2.tbsBytes)
        if tb2.tbsBytes > stop then
          cell.removeRbgs stop fuel (if better then tb2 else tb) (if better then smaller else mask)
        else some (if better then tb2 else tb, if better then smaller else mask) := by
  obtain ⟨smaller, hsmaller, hsub, hcount⟩ := removeMinCqiRbgs_of_has hon h
  refine ⟨smaller, hsub, hcount, ?_⟩
  rw [SchedUeCell.removeRbgs, hsmaller]

/-- The loop leaves some RBGs of the mask, unless no TBS is below what is asked for. -/
theorem subset_removeRbgs (hn : n ∈ cellNofRbgs) (hon : cell.dlCqi.subbandCqiEnabled = true)
    {stop : Int} (hstop : -1 ≤ stop) {fuel : Nat} {tb tb' : TbsInfo} {mask mask' : BoundedBitset n}
    {rbg : Nat} (hhas : mask.Has rbg) (htb : 0 ≤ tb.tbsBytes)
    (h : cell.removeRbgs stop fuel tb mask = some (tb', mask')) :
    (∀ i, mask'.Has i → mask.Has i) ∧ ((∃ i, mask'.Has i) ↔ stop ≠ -1) := by
  induction fuel generalizing tb mask rbg with
  | zero => cases h
  | succ fuel ih =>
    obtain ⟨smaller, hsub, -, hround⟩ := removeRbgs_succ hon hhas stop fuel tb
    rw [hround] at h
    rcases exists_has_or smaller with ⟨i, hi⟩ | hnone
    · -- The smaller mask has a TBS, whether it is taken or not.
      have htb2 := tbsBytes_of_has cell hn hi
      dsimp only at h
      split at h
      · rename_i hmore
        rw [decide_eq_true (Int.le_of_lt hmore : _ ≥ stop), Bool.true_or, if_pos rfl, if_pos rfl] at h
        have hrest := ih hi htb2 h
        exact ⟨fun j hj => hsub j (hrest.1 j hj), hrest.2⟩
      · rename_i hend
        cases h
        refine ⟨fun j hj => ?_, fun _ => by omega, fun _ => ?_⟩
        · split at hj
          · exact hsub j hj
          · exact hj
        · split
          · exact ⟨i, hi⟩
          · exact ⟨rbg, hhas⟩
    · have htb2 := tbsBytes_of_none cell hn hnone
      dsimp only at h
      rw [htb2, if_neg (by omega)] at h
      cases h
      by_cases hlast : stop = -1
      · subst hlast
        simp only [ge_iff_le, Int.le_refl, decide_true, Bool.true_or, if_true]
        exact ⟨hsub, fun ⟨i, hi⟩ => absurd hi (hnone i), fun hne => absurd rfl hne⟩
      · have hbetter : (decide (-1 ≥ stop) || decide (tb.tbsBytes ≤ -1)) = false := by
          rw [Bool.or_eq_false_iff, decide_eq_false_iff_not, decide_eq_false_iff_not]
          omega
        rw [hbetter]
        exact ⟨fun i hi => hi, fun _ => hlast, fun _ => ⟨rbg, hhas⟩⟩

/-- The loop ends unless what is asked for is below every TBS: each round removes an RBG. -/
theorem removeRbgs_isSome (cell : SchedUeCell n) (hn : n ∈ cellNofRbgs)
    (hon : cell.dlCqi.subbandCqiEnabled = true) {stop : Int} (hstop : -1 ≤ stop) {fuel : Nat}
    (tb : TbsInfo) {mask : BoundedBitset n} {rbg : Nat} (hhas : mask.Has rbg) (hfuel : mask.count ≤ fuel) :
    ∃ tb' mask', cell.removeRbgs stop fuel tb mask = some (tb', mask') := by
  induction fuel generalizing tb mask rbg with
  | zero => exact absurd (count_pos_iff.mpr ⟨rbg, hhas⟩) (Nat.not_lt.mpr hfuel)
  | succ fuel ih =>
    obtain ⟨smaller, -, hcount, hround⟩ := removeRbgs_succ hon hhas stop fuel tb
    rw [hround]
    dsimp only
    split
    · rename_i hmore
      rw [decide_eq_true (Int.le_of_lt hmore : _ ≥ stop), Bool.true_or, if_pos rfl, if_pos rfl]
      rcases exists_has_or smaller with ⟨i, hi⟩ | hnone
      · exact ih _ hi (by omega)
      · rw [tbsBytes_of_none cell hn hnone] at hmore
        omega
    · exact ⟨_, _, rfl⟩

theorem tbsBytes_ge (cell : SchedUeCell n) (hn : n ∈ cellNofRbgs) (mask : BoundedBitset n) :
    -1 ≤ (cell.computeMcsAndTbsLowerBound mask).tbsBytes := by
  rcases exists_has_or mask with ⟨i, hi⟩ | hnone
  · have := tbsBytes_of_has cell hn hi
    omega
  · rw [tbsBytes_of_none cell hn hnone]

/-- Where what is asked for is below every TBS, the loop does not end. -/
theorem removeRbgs_eq_none (hn : n ∈ cellNofRbgs) {stop : Int} (hstop : stop < -1) (fuel : Nat)
    (tb : TbsInfo) (mask : BoundedBitset n) : cell.removeRbgs stop fuel tb mask = none := by
  induction fuel generalizing tb mask with
  | zero => rfl
  | succ fuel ih =>
    rw [SchedUeCell.removeRbgs]
    split
    · rfl
    · rename_i smaller hsmaller
      have htb2 := tbsBytes_ge cell hn smaller
      dsimp only
      rw [if_pos (by omega)]
      exact ih _ _

/-! ### The search for the number of RBGs -/

/-- More rounds do not change what the search finds. -/
theorem searchLoop_unique {f : Int → Int} {isError : Int → Bool} {y0 : Int}
    {interpolated : Bracket → Int} {fuel fuel' : Nat} {b : Bracket} {r r' : Crossing}
    (h : searchLoop f isError y0 interpolated fuel b = some r)
    (h' : searchLoop f isError y0 interpolated fuel' b = some r') : r = r' := by
  induction fuel generalizing fuel' b with
  | zero => cases h
  | succ fuel ih =>
    cases fuel' with
    | zero => cases h'
    | succ fuel' =>
      unfold searchLoop at h h'
      split at h
      · rename_i hlong
        rw [if_pos hlong] at h'
        cases hround : FalsePosition.tryPoint f isError y0 b (interpolated b) with
        | done result =>
          rw [hround] at h h'
          exact Option.some.inj (h.symm.trans h')
        | next b' =>
          rw [hround] at h h'
          exact ih h h'
      · rename_i hshort
        rw [if_neg hshort] at h'
        exact Option.some.inj (h.symm.trans h')

theorem falsePositionMethod_unique {f : Int → Int} {isError : Int → Bool} {y0 : Int}
    {interpolated : Bracket → Int} {fuel fuel' : Nat} {x1 x2 : Int} {r r' : Crossing}
    (h : falsePositionMethod f isError y0 interpolated fuel x1 x2 = some r)
    (h' : falsePositionMethod f isError y0 interpolated fuel' x1 x2 = some r') : r = r' := by
  unfold falsePositionMethod at h h'
  split at h
  · rename_i hfirst
    rw [if_pos hfirst] at h'
    exact Option.some.inj (h.symm.trans h')
  · rename_i hfirst
    rw [if_neg hfirst] at h'
    split at h
    · rename_i hlast
      rw [if_pos hlast] at h'
      exact Option.some.inj (h.symm.trans h')
    · rename_i hlast
      rw [if_neg hlast] at h'
      exact searchLoop_unique h h'

/-- The point between the ends of an interval around the target is one of the interval. -/
def StaysInside (interpolated : Int → Bracket → Int) : Prop :=
  ∀ y0 b, b.x1 < b.x2 → b.y1 < y0 → y0 ≤ b.y2 → b.x1 ≤ interpolated y0 b ∧ interpolated y0 b ≤ b.x2

variable {interpolated : Int → Bracket → Int}

/-- The search ends, with a number of RBGs up to the number of the mask. -/
theorem searchNofRbgs_spec (cell : SchedUeCell n) (hn : n ∈ cellNofRbgs)
    (hinside : StaysInside interpolated) {count : Nat} (hcount : 0 < count) (stop : Int) {fuel : Nat}
    (hfuel : count ≤ fuel) :
    ∃ found, cell.searchNofRbgs interpolated fuel count stop = some found ∧
      1 ≤ found.upper ∧ found.upper ≤ count := by
  have herror (x : Int) (hx : 1 ≤ x) (_ : x ≤ count) : (cell.computeTbsApprox x == -1) = false := by
    have := computeTbsApprox_nonneg cell hn hx
    rw [beq_eq_false_iff_ne]
    omega
  have hcrosses : ∃ found, cell.searchNofRbgs interpolated fuel count stop = some found ∧
      FalsePosition.Crosses cell.computeTbsApprox 1 count stop found :=
    falsePositionMethod_crosses (show (1 : Int) ≤ count by omega) herror
      (fun b hb => hinside stop b hb.order (hb.y1 ▸ hb.below) (hb.y2 ▸ hb.above)) (by omega)
  obtain ⟨found, hfound, hcross⟩ := hcrosses
  obtain ⟨hlower, horder, hupper⟩ := hcross.inside
  exact ⟨found, hfound, by omega, hupper⟩

/-! ### The grant -/

theorem asInt_eq (v : Nat) (hv : v < 2 ^ 32) : asInt v = -1 ↔ v = 2 ^ 32 - 1 := by
  unfold asInt Int.bmod
  dsimp only
  split <;> omega

section Grant

variable (cell : SchedUeCell n) (interpolated : Int → Bracket → Int) (dlMask : BoundedBitset n)
  (isFormat1A : Bool) (reqBytes : ByteInterval)

/-- The grant is reduced to `m` RBGs: with wideband CQI, all RBGs that the format can use carry more
than what is asked for, and the search finds that `m` RBGs carry it. -/
def ReducesTo (m : Nat) : Prop :=
  cell.dlCqi.subbandCqiEnabled = false ∧ ∃ available fuel found,
    findAvailableRbgmask dlMask n isFormat1A = some available ∧
    asInt reqBytes.start ≤ (cell.computeMcsAndTbsLowerBound available).tbsBytes ∧
    asInt reqBytes.stop < (cell.computeMcsAndTbsLowerBound available).tbsBytes ∧
    cell.searchNofRbgs interpolated fuel available.count (asInt reqBytes.stop) = some found ∧
    asInt reqBytes.stop ≤ found.upperValue ∧ found.upper.toNat = m

/-- A grant without a collision: it has RBGs, these are free, and a reduced grant has as many of
them as the search has found. -/
structure GrantFits (r : OptimalRbgmask n) : Prop where
  nonempty : ∃ rbg, r.newtxmask.Has rbg
  free : ∀ rbg, r.newtxmask.Has rbg → ¬dlMask.Has rbg
  count : ∀ m, ReducesTo cell interpolated dlMask isFormat1A reqBytes m → r.newtxmask.count = m

/-- Every grant that is found is one without a collision. -/
def SearchSound : Prop :=
  ∀ fuel r, cell.findOptimalRbgmask interpolated fuel dlMask isFormat1A reqBytes = some r →
    r.found = true → GrantFits cell interpolated dlMask isFormat1A reqBytes r

/-- Where a grant is reduced to `m` RBGs, the first `m` and the last `m` RBGs of the cell are free,
or all of them for a format that needs a run. With subband CQI, the bytes asked for are not the
largest `uint32_t`: as an `int` it is -1, the TBS of no RBG. -/
structure EdgesFree : Prop where
  wideband : ∀ m, ReducesTo cell interpolated dlMask isFormat1A reqBytes m →
    if isFormat1A then ∀ rbg, ¬dlMask.Has rbg
    else ∀ rbg < m, ¬dlMask.Has rbg ∧ ¬dlMask.Has (n - 1 - rbg)
  subband : cell.dlCqi.subbandCqiEnabled = true → reqBytes.stop ≠ 2 ^ 32 - 1

end Grant

theorem cellNofRbgs_le (hn : n ∈ cellNofRbgs) : 0 < n ∧ n ≤ 25 := by
  have htable : ∀ n ∈ cellNofRbgs, 0 < n ∧ n ≤ 25 := by decide
  exact htable n hn

theorem reduced_fits_iff {dlMask available result : BoundedBitset n} {isFormat1A : Bool} {m : Nat}
    (havailable : Available dlMask isFormat1A available) (hm : 0 < m) (hmn : m ≤ n)
    (h : Reduced available result m) :
    (∀ rbg, result.Has rbg → ¬dlMask.Has rbg) ∧ result.count = m ↔
      if isFormat1A then ∀ rbg, ¬dlMask.Has rbg
      else ∀ rbg < m, ¬dlMask.Has rbg ∧ ¬dlMask.Has (n - 1 - rbg) := by
  constructor
  · rintro ⟨hfree, hcount⟩
    obtain ⟨hzero, hlast⟩ := h.count_eq.mp hcount
    cases isFormat1A with
    | true => exact havailable.run rfl hzero (hlast 0 hm)
    | false =>
      intro rbg hrbg
      exact ⟨hfree rbg ((h.first rbg).mpr (by omega)), havailable.free _ (hlast rbg hrbg)⟩
  · intro hedges
    cases isFormat1A with
    | true =>
      have hall := havailable.all hedges
      exact ⟨fun rbg _ => hedges rbg,
        h.count_eq.mpr ⟨hall 0 (by omega), fun rbg hrbg => hall _ (by omega)⟩⟩
    | false =>
      have hin := havailable.every rfl
      have hcount : result.count = m := h.count_eq.mpr
        ⟨hin 0 (by omega) (hedges 0 hm).1, fun rbg hrbg => hin _ (by omega) (hedges rbg hrbg).2⟩
      exact ⟨fun rbg hrbg => (hedges rbg (hcount ▸ (h.first rbg).mp hrbg)).1, hcount⟩

/-- A number of RBGs that the search finds is one that the mask can be reduced to. -/
theorem reduced_of_search {dlMask available : BoundedBitset n} {isFormat1A : Bool} {stop : Int}
    {fuel : Nat} {found : Crossing} (hn : n ∈ cellNofRbgs) (hinside : StaysInside interpolated)
    (havailable : Available dlMask isFormat1A available)
    (h : cell.searchNofRbgs interpolated fuel available.count stop = some found) :
    0 < found.upper.toNat ∧ found.upper.toNat ≤ n ∧ ∃ result,
      reduceRbgmask available found.upper.toNat = some result ∧
      Reduced available result found.upper.toNat := by
  have hcount : 0 < available.count := count_pos_iff.mpr havailable.nonempty
  have hcount' := count_le available
  obtain ⟨found', hsearch, hlow, hupp⟩ := searchNofRbgs_spec cell hn hinside hcount stop
    (Nat.le_refl _)
  cases falsePositionMethod_unique h hsearch
  exact ⟨by omega, by omega, reduceRbgmask_spec (cellNofRbgs_le hn).2 (by omega) (by omega)⟩

theorem ReducesTo.unique {m m' : Nat} {dlMask : BoundedBitset n} {isFormat1A : Bool}
    {reqBytes : ByteInterval} (h : ReducesTo cell interpolated dlMask isFormat1A reqBytes m)
    (h' : ReducesTo cell interpolated dlMask isFormat1A reqBytes m') : m = m' := by
  obtain ⟨-, available, fuel, found, hfind, -, -, hsearch, -, rfl⟩ := h
  obtain ⟨-, available', fuel', found', hfind', -, -, hsearch', -, rfl⟩ := h'
  cases hfind.symm.trans hfind'
  cases falsePositionMethod_unique hsearch hsearch'
  rfl

section Fits

variable {dlMask available : BoundedBitset n} {isFormat1A : Bool} {reqBytes : ByteInterval}
  {fuel : Nat} {r : OptimalRbgmask n}

theorem grantFits_wideband (hn : n ∈ cellNofRbgs) (hinside : StaysInside interpolated)
    (hon : cell.dlCqi.subbandCqiEnabled = false)
    (hfind : findAvailableRbgmask dlMask n isFormat1A = some available)
    (havailable : Available dlMask isFormat1A available)
    (hedges : EdgesFree cell interpolated dlMask isFormat1A reqBytes)
    (hrun : cell.findOptimalRbgmask interpolated fuel dlMask isFormat1A reqBytes = some r)
    (hfound : r.found = true) : GrantFits cell interpolated dlMask isFormat1A reqBytes r := by
  rw [SchedUeCell.findOptimalRbgmask, hfind] at hrun
  simp only [hon, Bool.not_false, if_true] at hrun
  split at hrun
  · cases hrun
    cases hfound
  · rename_i hstart
    split at hrun
    · -- All RBGs carry no more than what is asked for.
      rename_i hstop
      cases hrun
      refine ⟨havailable.nonempty, havailable.free, fun m hm => ?_⟩
      obtain ⟨-, available', -, -, hfind', -, hlt, -⟩ := hm
      cases hfind.symm.trans hfind'
      omega
    · rename_i hstop
      split at hrun
      · cases hrun
      · rename_i found hsearch
        split at hrun
        · rename_i hvalue
          have hm : ReducesTo cell interpolated dlMask isFormat1A reqBytes found.upper.toNat :=
            ⟨hon, available, fuel, found, hfind, Int.not_lt.mp hstart, Int.not_le.mp hstop, hsearch,
              hvalue, rfl⟩
          obtain ⟨hpos, hle, result, hresult, hreduced⟩ :=
            reduced_of_search hn hinside havailable hsearch
          rw [hresult] at hrun
          cases hrun
          obtain ⟨hfits, hcount⟩ :=
            (reduced_fits_iff havailable hpos hle hreduced).mpr (hedges.wideband _ hm)
          exact ⟨count_pos_iff.mp hreduced.pos, hfits, fun m hm' => hcount.trans (hm.unique hm')⟩
        · -- No number of RBGs carries enough, so the mask stays.
          rename_i hvalue
          cases hrun
          refine ⟨havailable.nonempty, havailable.free, fun m hm => ?_⟩
          obtain ⟨-, available', fuel', found', hfind', -, -, hsearch', hvalue', -⟩ := hm
          cases hfind.symm.trans hfind'
          cases falsePositionMethod_unique hsearch hsearch'
          exact absurd hvalue' hvalue

theorem grantFits_subband (hn : n ∈ cellNofRbgs) (hon : cell.dlCqi.subbandCqiEnabled = true)
    (hfind : findAvailableRbgmask dlMask n isFormat1A = some available)
    (havailable : Available dlMask isFormat1A available)
    (hedges : EdgesFree cell interpolated dlMask isFormat1A reqBytes)
    (hrun : cell.findOptimalRbgmask interpolated fuel dlMask isFormat1A reqBytes = some r) :
    GrantFits cell interpolated dlMask isFormat1A reqBytes r := by
  obtain ⟨rbg, hrbg⟩ := havailable.nonempty
  rw [SchedUeCell.findOptimalRbgmask, hfind] at hrun
  simp only [hon, Bool.not_true, Bool.false_eq_true, if_false] at hrun
  split at hrun
  · cases hrun
  · rename_i tb result hremove
    cases hrun
    have hstop : -1 ≤ asInt reqBytes.stop := by
      by_contra hlow
      rw [removeRbgs_eq_none hn (Int.not_le.mp hlow)] at hremove
      cases hremove
    obtain ⟨hsub, hnonempty⟩ :=
      subset_removeRbgs hn hon hstop hrbg (tbsBytes_of_has cell hn hrbg) hremove
    refine ⟨hnonempty.mpr fun hlast => ?_, fun i hi => havailable.free i (hsub i hi), fun m hm => ?_⟩
    · exact hedges.subband hon ((asInt_eq reqBytes.stop reqBytes.stop_lt).mp hlast)
    · rw [hm.1] at hon
      cases hon

end Fits

/-- The grants that are found fit exactly where the edges of the cell are free. -/
theorem searchSound_iff_edgesFree {cell : SchedUeCell n} {interpolated : Int → Bracket → Int}
    {dlMask : BoundedBitset n} (isFormat1A : Bool) (reqBytes : ByteInterval) (hn : n ∈ cellNofRbgs)
    (hinside : StaysInside interpolated) (hfree : dlMask.all = false) :
    SearchSound cell interpolated dlMask isFormat1A reqBytes ↔
      EdgesFree cell interpolated dlMask isFormat1A reqBytes := by
  obtain ⟨available, hfind, havailable⟩ := findAvailableRbgmask_spec hfree isFormat1A
  constructor
  · intro h
    refine ⟨fun m hm => ?_, fun hon hstop => ?_⟩
    · have hreduces := hm
      obtain ⟨hoff, available', fuel, found, hfind', hstart, hstop, hsearch, hvalue, rfl⟩ := hreduces
      cases hfind.symm.trans hfind'
      obtain ⟨hpos, hle, result, hresult, hreduced⟩ := reduced_of_search hn hinside havailable hsearch
      have hrun : cell.findOptimalRbgmask interpolated fuel dlMask isFormat1A reqBytes
          = some ⟨true, cell.computeMcsAndTbsLowerBound (firstRbgs n found.upper.toNat), result⟩ := by
        rw [SchedUeCell.findOptimalRbgmask, hfind, hoff]
        simp only [Bool.not_false, if_true, if_neg (Int.not_lt.mpr hstart),
          if_neg (Int.not_le.mpr hstop), hsearch, ge_iff_le, if_pos hvalue, hresult]
      have hfits := h fuel _ hrun rfl
      exact (reduced_fits_iff havailable hpos hle hreduced).mp ⟨hfits.free, hfits.count _ hm⟩
    · -- The loop for subband CQI removes all RBGs.
      obtain ⟨rbg, hrbg⟩ := havailable.nonempty
      have hlast := (asInt_eq reqBytes.stop reqBytes.stop_lt).mpr hstop
      obtain ⟨tb, result, hremove⟩ := removeRbgs_isSome cell hn hon
        (Int.le_of_eq hlast.symm) (cell.computeMcsAndTbsLowerBound available) hrbg (Nat.le_refl _)
      have hrun : cell.findOptimalRbgmask interpolated available.count dlMask isFormat1A reqBytes
          = some ⟨true, tb, result⟩ := by
        rw [SchedUeCell.findOptimalRbgmask, hfind, hon]
        simp only [Bool.not_true, Bool.false_eq_true, if_false, hremove]
      exact (subset_removeRbgs hn hon (Int.le_of_eq hlast.symm) hrbg (tbsBytes_of_has cell hn hrbg)
        hremove).2.mp (h _ _ hrun rfl).nonempty hlast
  · intro hedges fuel r hrun hfound
    cases hon : cell.dlCqi.subbandCqiEnabled with
    | false => exact grantFits_wideband hn hinside hon hfind havailable hedges hrun hfound
    | true => exact grantFits_subband hn hon hfind havailable hedges hrun

/-- The search ends and no assertion fails, unless what is asked for is below every TBS. -/
theorem findOptimalRbgmask_isSome {dlMask : BoundedBitset n} {fuel : Nat} (isFormat1A : Bool)
    {reqBytes : ByteInterval} (hn : n ∈ cellNofRbgs) (hinside : StaysInside interpolated)
    (hfree : dlMask.all = false) (hstop : -1 ≤ asInt reqBytes.stop) (hfuel : n ≤ fuel) :
    ∃ r, cell.findOptimalRbgmask interpolated fuel dlMask isFormat1A reqBytes = some r := by
  obtain ⟨available, hfind, havailable⟩ := findAvailableRbgmask_spec hfree isFormat1A
  have hcount := Nat.le_trans (count_le available) hfuel
  rw [SchedUeCell.findOptimalRbgmask, hfind]
  cases hon : cell.dlCqi.subbandCqiEnabled with
  | false =>
    obtain ⟨found, hsearch, -⟩ := searchNofRbgs_spec cell hn hinside
      (count_pos_iff.mpr havailable.nonempty) (asInt reqBytes.stop) hcount
    obtain ⟨-, -, result, hresult, -⟩ := reduced_of_search hn hinside havailable hsearch
    simp only [Bool.not_false, if_true, hsearch, hresult]
    split
    · exact ⟨_, rfl⟩
    · split
      · exact ⟨_, rfl⟩
      · split
        · exact ⟨_, rfl⟩
        · exact ⟨_, rfl⟩
  | true =>
    obtain ⟨rbg, hrbg⟩ := havailable.nonempty
    obtain ⟨tb, mask, hremove⟩ := removeRbgs_isSome cell hn hon hstop
      (cell.computeMcsAndTbsLowerBound available) hrbg hcount
    simp only [Bool.not_true, Bool.false_eq_true, if_false, hremove]
    exact ⟨_, rfl⟩

/-! ### A cell with 6 PRBs -/

theorem staysInside_interpolate : StaysInside FalsePosition.interpolate := by
  intro y0 b horder hbelow habove
  have hne : b.x2 ≠ b.x1 := by omega
  have hencloses :
      FalsePosition.Encloses (fun x => if x = b.x1 then b.y1 else b.y2) b.x1 b.x2 y0 b :=
    { y1 := (if_pos rfl).symm
      y2 := (if_neg hne).symm
      lower := Int.le_refl _
      upper := Int.le_refl _
      order := horder
      below := by simpa using hbelow
      above := by simpa [hne] using habove }
  exact FalsePosition.interpolate_mem hencloses

/-- A carrier of a cell with 6 PRBs that always uses the MCS 0, with wideband CQI. -/
def mcs0Cell : SchedUeCell 6 where
  dlCqi := ⟨0, 15, [], [], by decide, fun _ h => (List.not_mem_nil h).elim⟩
  cqiToTbsDl mask := ⟨([0, 2, 4, 7, 11, 15, 19].getD mask.count 0 : Nat), 0⟩
  tbsBytes_nonneg _ := Int.natCast_nonneg _

/-- All RBGs are free. -/
theorem searchSound_empty :
    SearchSound mcs0Cell FalsePosition.interpolate (.empty 6) false ⟨0, 4, by decide, by decide⟩ :=
  (searchSound_iff_edgesFree false _ (by decide) staysInside_interpolate (by decide)).mpr
    ⟨fun _ _ _ _ => ⟨not_has_empty _, not_has_empty _⟩, fun hon => absurd hon (by decide)⟩

theorem findOptimalRbgmask_empty :
    ∃ r, mcs0Cell.findOptimalRbgmask FalsePosition.interpolate 6 (.empty 6) false
      ⟨0, 4, by decide, by decide⟩ = some r :=
  findOptimalRbgmask_isSome false (by decide) staysInside_interpolate (by decide) (by decide) (by decide)

/-- Only the first RBG is occupied: two of the other RBGs carry the four bytes, and the grant has the
first three. -/
theorem not_searchSound_first : (BoundedBitset.mk (n := 6) fun i => i == 0).all = false ∧
    ¬SearchSound mcs0Cell FalsePosition.interpolate ⟨fun i => i == 0⟩ false
      ⟨0, 4, by decide, by decide⟩ := by
  refine ⟨by decide, fun h => ?_⟩
  have hrun : ((mcs0Cell.findOptimalRbgmask FalsePosition.interpolate 5 ⟨fun i => i == 0⟩ false
      ⟨0, 4, by decide, by decide⟩).map fun r => (r.found, (List.range 6).map r.newtxmask.bit))
      = some (true, [true, true, true, false, false, false]) := by
    decide
  obtain ⟨r, hfind, hr⟩ := Option.map_eq_some_iff.mp hrun
  obtain ⟨hfound, hbits⟩ := Prod.mk.inj hr
  refine (h 5 r hfind hfound).free 0 ?_ (by decide)
  exact (List.cons.inj hbits).1

end Odss.Mac
