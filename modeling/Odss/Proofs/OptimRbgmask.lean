import Odss.Mac.SchedDlCqi
import Odss.Proofs.DlRbgSearch

/-!
# `Odss.Proofs.OptimRbgmask`: the RBGs with the best CQI

`OptimalChoice` is what `get_optim_rbgmask` should return: as many RBGs as asked for, or all that
are free, and with CQI for the subbands none that is worse than a free one that is left out.

The positions of the free RBGs are sorted by the CQI at the position in a vector that has only the
free ones. This is right where the free RBGs are the first ones, and else fails an assertion
(`chooses_iff_firstFree`).
-/

set_option linter.all false

namespace Odss.Mac

open BoundedBitset SchedDlCqi

variable {n : Nat} {mask : BoundedBitset n}

/-- The RBGs that are returned. -/
structure OptimalChoice (c : SchedDlCqi) (dlMask : BoundedBitset n) (reqRbgs : Nat) (maxFlag : Bool)
    (result : BoundedBitset n) : Prop where
  count_eq : result.count = min reqRbgs dlMask.compl.count
  free : ∀ rbg, result.Has rbg → ¬ dlMask.Has rbg
  best : c.subbandCqiEnabled = true → ∀ chosen left, result.Has chosen →
    left < n → ¬ dlMask.Has left → ¬ result.Has left →
    if maxFlag then c.getRbgCqi n left ≤ c.getRbgCqi n chosen
    else c.getRbgCqi n chosen ≤ c.getRbgCqi n left

/-- The choice returns, and what it should. -/
def Chooses (c : SchedDlCqi) (dlMask : BoundedBitset n) (reqRbgs : Nat) (maxFlag : Bool) : Prop :=
  ∃ result, c.getOptimRbgmask dlMask reqRbgs maxFlag = some result ∧
    OptimalChoice c dlMask reqRbgs maxFlag result

/-! ### Masks and lists of positions -/

/-- The bits of a mask are counted in a list of their positions. -/
theorem count_eq_length {positions : List Nat} (hnodup : positions.Nodup)
    (hmem : ∀ rbg, rbg ∈ positions ↔ mask.Has rbg) : mask.count = positions.length := by
  have hperm : ((List.range n).filter mask.bit).Perm positions := by
    rw [List.perm_ext_iff_of_nodup (List.nodup_range.filter _) hnodup]
    intro rbg
    rw [hmem, List.mem_filter, List.mem_range]
    exact ⟨fun h => h.2, fun h => ⟨h.lt, h⟩⟩
  rw [count, List.countP_eq_length_filter, hperm.length_eq]

/-- The positions in their order, from `pos` on. -/
theorem collectFrom_spec (mask : BoundedBitset n) {fuel pos : Nat} (hpos : pos ≤ n)
    (hfuel : n ≤ pos + fuel) : ∃ positions, collectFrom mask fuel pos = some positions ∧
      positions.Pairwise (· < ·) ∧ ∀ rbg, rbg ∈ positions ↔ pos ≤ rbg ∧ mask.Has rbg := by
  induction fuel generalizing pos with
  | zero =>
    refine ⟨[], rfl, List.Pairwise.nil, fun rbg => iff_of_false List.not_mem_nil ?_⟩
    rintro ⟨hge, hhas⟩
    have hlt := hhas.lt
    omega
  | succ fuel ih =>
    obtain ⟨found, hfound⟩ := findLowest_isSome mask true hpos (Nat.le_refl n)
    unfold collectFrom
    rw [hfound]
    cases found with
    | none =>
      refine ⟨[], rfl, List.Pairwise.nil, fun rbg => iff_of_false List.not_mem_nil ?_⟩
      rintro ⟨hge, hhas⟩
      exact findLowest_none hfound rbg hge hhas.lt hhas
    | some first =>
      obtain ⟨hge, hlt⟩ := findLowest_bound hfound
      obtain ⟨positions, hrest, hsorted, hmem⟩ := @ih (first + 1) hlt (by omega)
      dsimp only
      rw [hrest]
      refine ⟨first :: positions, rfl, List.Pairwise.cons (fun rbg hrbg => ?_) hsorted,
        fun rbg => ?_⟩
      · exact ((hmem rbg).mp hrbg).1
      · rw [List.mem_cons, hmem]
        exact (has_from_iff hfound rbg).symm

theorem resetEach_spec {positions : List Nat} (mask : BoundedBitset n)
    (hlt : ∀ pos ∈ positions, pos < n) : ∃ result, resetEach positions mask = some result ∧
      ∀ rbg, result.Has rbg ↔ mask.Has rbg ∧ rbg ∉ positions := by
  induction positions generalizing mask with
  | nil => exact ⟨mask, rfl, fun rbg => (and_iff_left List.not_mem_nil).symm⟩
  | cons pos positions ih =>
    rw [List.forall_mem_cons] at hlt
    obtain ⟨next, hnext⟩ : ∃ next, mask.reset pos = some next := ⟨_, if_pos hlt.1⟩
    obtain ⟨result, hrest, hhas⟩ := ih next hlt.2
    refine ⟨result, by rw [resetEach, hnext]; exact hrest, fun rbg => ?_⟩
    rw [hhas, has_of_reset hnext, List.mem_cons, not_or, and_assoc, and_left_comm]

/-! ### Without CQI for the subbands -/

/-- The position behind the first bits, as many as asked for. -/
theorem behindFirst_spec (mask : BoundedBitset n) {maxSize fuel i : Nat} (hi : i ≤ n)
    (hfuel : n ≤ i + fuel) (hrank : mask.rank i ≤ maxSize) (hmax : maxSize < mask.count) :
    behindFirst mask maxSize fuel i (mask.rank i) ≤ n ∧
      mask.rank (behindFirst mask maxSize fuel i (mask.rank i)) = maxSize := by
  induction fuel generalizing i with
  | zero =>
    obtain rfl : i = n := by omega
    rw [count_eq_rank] at hmax
    omega
  | succ fuel ih =>
    have hsucc := rank_succ mask i
    unfold behindFirst
    split
    · next hgo =>
      have hnext : (if mask.bit i = true then mask.rank i + 1 else mask.rank i)
          = mask.rank (i + 1) := by
        rw [hsucc]
        by_cases hbit : mask.Has i
        · rw [if_pos hbit]
          exact if_pos hbit
        · rw [if_neg hbit]
          exact if_neg hbit
      rw [hnext]
      refine ih hgo.1 (by omega) ?_
      rw [hsucc]
      split <;> omega
    · next hstop =>
      refine ⟨hi, ?_⟩
      rcases Nat.eq_or_lt_of_le hi with rfl | hlt
      · rw [count_eq_rank] at hmax
        omega
      · omega

theorem has_of_unfill {b c : BoundedBitset n} {start stop : Nat}
    (h : b.unfill start stop = some c) (pos : Nat) :
    c.Has pos ↔ b.Has pos ∧ ¬ (start ≤ pos ∧ pos < stop) := by
  unfold unfill at h
  split at h
  · cases h
    unfold Has bit
    by_cases hpos : pos < n
    · simp only [hpos, dif_pos, Bool.and_eq_true, Bool.not_eq_true', decide_eq_false_iff_not]
      exact and_comm
    · simp [hpos]
  · exact nomatch h

/-- Any free RBGs, as many as asked for. -/
theorem findAvailableFrom_spec (dlMask : BoundedBitset n) (reqRbgs : Nat) :
    ∃ result, findAvailableFrom dlMask reqRbgs = some result ∧
      result.count = min reqRbgs dlMask.compl.count ∧ ∀ rbg, result.Has rbg → ¬ dlMask.Has rbg := by
  have hle := count_le dlMask.compl
  unfold findAvailableFrom
  dsimp only
  split
  · next hall =>
    refine ⟨_, rfl, by omega, fun rbg hrbg => ?_⟩
    exact ((has_compl dlMask rbg).mp hrbg).2
  · next hsome =>
    obtain ⟨hstop, hrank⟩ := behindFirst_spec dlMask.compl (Nat.zero_le n)
      (Nat.le_of_eq (Nat.zero_add n).symm) (Nat.zero_le reqRbgs) (by omega)
    rw [rank_zero] at hstop hrank
    generalize behindFirst dlMask.compl reqRbgs n 0 0 = stop at hstop hrank
    obtain ⟨result, hresult⟩ : ∃ result, dlMask.compl.unfill stop n = some result :=
      ⟨_, if_pos ⟨hstop, Nat.le_refl n⟩⟩
    have hhas := has_of_unfill hresult
    refine ⟨result, hresult, ?_, fun rbg hrbg => ?_⟩
    · have hbehind : result.rank n = result.rank stop :=
        rank_of_gap hstop fun i hi hlt h => ((hhas i).mp h).2 ⟨hi, hlt⟩
      have hsame : result.rank stop = dlMask.compl.rank stop := by
        refine List.countP_congr fun i hi => ?_
        have hlt := List.mem_range.mp hi
        exact (hhas i).trans (and_iff_left fun h => absurd h.1 (by omega))
      rw [count_eq_rank, hbehind, hsame, hrank]
      omega
    · exact ((has_compl dlMask rbg).mp ((hhas rbg).mp hrbg).1).2

/-! ### With CQI for the subbands -/

section Subbands

variable {c : SchedDlCqi} {dlMask : BoundedBitset n} {reqRbgs : Nat} {positions : List Nat}

/-- The part of a sorted list that stays is an optimal choice. -/
theorem optimalChoice_of_split {kept dropped : List Nat} {maxFlag : Bool}
    {result : BoundedBitset n} (hnodup : (kept ++ dropped).Nodup)
    (hmem : ∀ rbg, rbg ∈ kept ++ dropped ↔ dlMask.compl.Has rbg)
    (hresult : ∀ rbg, result.Has rbg ↔ dlMask.compl.Has rbg ∧ rbg ∉ dropped)
    (hlen : kept.length = min reqRbgs dlMask.compl.count)
    (hbest : ∀ chosen ∈ kept, ∀ left ∈ dropped,
      if maxFlag then c.getRbgCqi n left ≤ c.getRbgCqi n chosen
      else c.getRbgCqi n chosen ≤ c.getRbgCqi n left) :
    OptimalChoice c dlMask reqRbgs maxFlag result := by
  have hkept : ∀ rbg, rbg ∈ kept ↔ result.Has rbg := by
    intro rbg
    rw [hresult, ← hmem, List.mem_append]
    have hdisjoint := (List.nodup_append'.mp hnodup).2.2
    constructor
    · exact fun h => ⟨.inl h, fun hdropped => hdisjoint h hdropped⟩
    · rintro ⟨h | h, hout⟩
      · exact h
      · exact absurd h hout
  refine ⟨?_, fun rbg hrbg => ?_, fun _ chosen left hchosen hlt hfree hleft => ?_⟩
  · rw [count_eq_length (List.nodup_append'.mp hnodup).1 hkept, hlen]
  · exact ((has_compl dlMask rbg).mp ((hresult rbg).mp hrbg).1).2
  · refine hbest chosen ((hkept chosen).mpr hchosen) left ?_
    by_contra hout
    exact hleft ((hresult left).mpr ⟨(has_compl dlMask left).mpr ⟨hlt, hfree⟩, hout⟩)

/-- The two loops that take the worst positions out. -/
theorem choose_of_sorted {sorted : List Nat} (hnodup : sorted.Nodup)
    (hmem : ∀ rbg, rbg ∈ sorted ↔ dlMask.compl.Has rbg)
    (hsorted : sorted.Pairwise fun a b => c.getRbgCqi n b ≤ c.getRbgCqi n a)
    (hreq : reqRbgs ≤ dlMask.compl.count) (maxFlag : Bool) :
    ∃ result, (if maxFlag then resetEach (sorted.drop reqRbgs) dlMask.compl
        else resetEach (sorted.take (sorted.length - reqRbgs)) dlMask.compl) = some result ∧
      OptimalChoice c dlMask reqRbgs maxFlag result := by
  have hcount := count_eq_length hnodup hmem
  have hlt : ∀ rbg ∈ sorted, rbg < n := fun rbg hrbg => ((hmem rbg).mp hrbg).lt
  cases maxFlag with
  | true =>
    have hsplit := List.take_append_drop reqRbgs sorted
    rw [← hsplit] at hnodup hmem hsorted
    obtain ⟨result, hreset, hresult⟩ := resetEach_spec dlMask.compl
      (fun rbg hrbg => hlt rbg (List.mem_of_mem_drop hrbg))
    refine ⟨result, hreset, optimalChoice_of_split hnodup hmem hresult ?_ ?_⟩
    · rw [List.length_take]
      omega
    · exact fun chosen hchosen left hleft =>
        (List.pairwise_append.mp hsorted).2.2 chosen hchosen left hleft
  | false =>
    have hsplit := List.take_append_drop (sorted.length - reqRbgs) sorted
    have hperm : (sorted.drop (sorted.length - reqRbgs)
        ++ sorted.take (sorted.length - reqRbgs)).Perm sorted := by
      rw [← hsplit, List.length_append, ← List.length_append, hsplit]
      exact List.perm_append_comm.trans (List.Perm.of_eq hsplit)
    obtain ⟨result, hreset, hresult⟩ := resetEach_spec dlMask.compl
      (fun rbg hrbg => hlt rbg (List.mem_of_mem_take hrbg))
    rw [← hsplit] at hsorted
    refine ⟨result, hreset, optimalChoice_of_split (hperm.nodup_iff.mpr hnodup)
      (fun rbg => hperm.mem_iff.trans (hmem rbg)) hresult ?_ ?_⟩
    · rw [List.length_drop]
      omega
    · exact fun chosen hchosen left hleft =>
        (List.pairwise_append.mp hsorted).2.2 left hleft chosen hchosen

/-- Positions that are all below their number are the first ones. -/
theorem eq_range_of_lt (hsorted : positions.Pairwise (· < ·))
    (hlt : ∀ pos ∈ positions, pos < positions.length) :
    positions = List.range positions.length := by
  have hnodup : positions.Nodup := hsorted.imp Nat.ne_of_lt
  have hsubset : positions ⊆ List.range positions.length := fun pos hpos =>
    List.mem_range.mpr (hlt pos hpos)
  have hperm : positions.Perm (List.range positions.length) :=
    (List.subperm_of_subset hnodup hsubset).perm_of_length_le
      (Nat.le_of_eq List.length_range)
  exact hperm.eq_of_pairwise (fun a b _ _ hab hba => absurd hab (Nat.lt_asymm hba)) hsorted
    List.pairwise_lt_range

/-- The positions are sorted by their CQI when they are the first ones, and else an assertion
fails. -/
theorem sortPositions_spec (hsorted : positions.Pairwise (· < ·)) (htwo : 2 ≤ positions.length) :
    (¬ (∀ pos ∈ positions, pos < positions.length) ∧
      sortPositions (positions.map (c.getRbgCqi n)) positions = none) ∨
    ((∀ pos ∈ positions, pos < positions.length) ∧
      ∃ sorted, sortPositions (positions.map (c.getRbgCqi n)) positions = some sorted ∧
        sorted.Perm positions ∧
        sorted.Pairwise fun a b => c.getRbgCqi n b ≤ c.getRbgCqi n a) := by
  unfold sortPositions
  rw [if_neg (by omega), List.length_map]
  split
  · next hlt =>
    refine .inr ⟨hlt, _, rfl, List.mergeSort_perm _ _, ?_⟩
    have hcqi : ∀ pos ∈ positions,
        (positions.map (c.getRbgCqi n)).getD pos 0 = c.getRbgCqi n pos := by
      intro pos hpos
      have hpos' := hlt pos hpos
      have hget : positions[pos]? = some pos := by
        conv_lhs => rw [eq_range_of_lt hsorted hlt]
        rw [List.getElem?_range hpos']
      rw [List.getD_eq_getElem?_getD, List.getElem?_map, hget]
      rfl
    have hpairwise := @List.pairwise_mergeSort _ (fun lhs rhs =>
      decide ((positions.map (c.getRbgCqi n)).getD lhs 0
        ≥ (positions.map (c.getRbgCqi n)).getD rhs 0))
      (fun a b d hab hbd => by
        rw [decide_eq_true_eq] at hab hbd ⊢
        exact Nat.le_trans hbd hab)
      (fun a b => by
        rw [Bool.or_eq_true, decide_eq_true_eq, decide_eq_true_eq]
        exact Nat.le_total _ _)
      positions
    refine hpairwise.imp_of_mem fun ha hb hab => ?_
    rw [decide_eq_true_eq, hcqi _ (List.mem_mergeSort.mp ha), hcqi _ (List.mem_mergeSort.mp hb)]
      at hab
    exact hab
  · next hout => exact .inl ⟨hout, rfl⟩

/-- With more free RBGs than asked for, at least two, the choice is right when they are the first
ones, and else fails. -/
theorem subband_chooses_iff (hon : c.subbandCqiEnabled = true)
    (hmore : reqRbgs < dlMask.compl.count) (maxFlag : Bool) :
    Chooses c dlMask reqRbgs maxFlag ↔ dlMask.compl.count ≤ 1 ∨
      ∀ rbg < n, ¬ dlMask.Has rbg ↔ rbg < dlMask.compl.count := by
  have hle := count_le dlMask.compl
  have hmin : min reqRbgs n = reqRbgs := by omega
  have hany : dlMask.compl.any = true := (any_iff _).mpr (count_pos_iff.mp (by omega))
  obtain ⟨positions, hcollect, horder, hmem⟩ :=
    collectFrom_spec dlMask.compl (Nat.zero_le n) (Nat.le_of_eq (Nat.zero_add n).symm)
  have hmem' : ∀ rbg, rbg ∈ positions ↔ dlMask.compl.Has rbg := by
    intro rbg
    rw [hmem, and_iff_right (Nat.zero_le rbg)]
  have hnodup : positions.Nodup := horder.imp Nat.ne_of_lt
  have hcount := count_eq_length hnodup hmem'
  have hrun : c.getOptimRbgmask dlMask reqRbgs maxFlag
      = (sortPositions (positions.map (c.getRbgCqi n)) positions).bind fun sorted =>
        if maxFlag then resetEach (sorted.drop reqRbgs) dlMask.compl
        else resetEach (sorted.take (sorted.length - reqRbgs)) dlMask.compl := by
    have hno : ¬ ((!dlMask.compl.any) = true ∨ reqRbgs ≥ n ∨ dlMask.compl.count ≤ reqRbgs) := by
      rw [hany]
      rintro (hnone | hall | hall)
      · exact absurd hnone (by decide)
      · omega
      · omega
    unfold getOptimRbgmask
    rw [hmin, hon]
    refine (if_neg hno).trans ?_
    rw [hcollect]
    rfl
  rcases Nat.lt_or_ge 1 dlMask.compl.count with htwo | hone
  · have hfirst : (∀ pos ∈ positions, pos < positions.length) ↔
        ∀ rbg < n, ¬ dlMask.Has rbg ↔ rbg < dlMask.compl.count := by
      constructor
      · intro hlt rbg hrbg
        have hrange : rbg ∈ positions ↔ rbg < positions.length := by
          conv_lhs => rw [eq_range_of_lt horder hlt]
          exact List.mem_range
        rw [hcount, ← hrange, hmem', has_compl]
        exact (and_iff_right hrbg).symm
      · intro hfree pos hpos
        have hhas := (has_compl dlMask pos).mp ((hmem' pos).mp hpos)
        rw [← hcount]
        exact (hfree pos hhas.1).mp hhas.2
    rw [or_iff_right (by omega), ← hfirst]
    rcases sortPositions_spec (c := c) (n := n) horder (by omega) with
      ⟨hout, hnone⟩ | ⟨hlt, sorted, hsome, hperm, hpairwise⟩
    · refine iff_of_false ?_ hout
      rintro ⟨result, hresult, -⟩
      rw [hrun, hnone] at hresult
      exact nomatch hresult
    · refine iff_of_true ?_ hlt
      unfold Chooses
      rw [hrun, hsome]
      exact choose_of_sorted (hperm.nodup_iff.mpr hnodup)
        (fun rbg => hperm.mem_iff.trans (hmem' rbg)) hpairwise (Nat.le_of_lt hmore) maxFlag
  · refine iff_of_true ?_ (.inl hone)
    have hlen : positions.length < 2 := by omega
    have hsort : sortPositions (positions.map (c.getRbgCqi n)) positions = some positions :=
      if_pos hlen
    unfold Chooses
    rw [hrun, hsort]
    refine choose_of_sorted hnodup hmem' ?_ (Nat.le_of_lt hmore) maxFlag
    match positions, hlen with
    | [], _ => exact List.Pairwise.nil
    | [pos], _ => exact List.pairwise_singleton _ _

end Subbands

/-- The choice of RBGs is right exactly without CQI for the subbands, or when all free RBGs are
asked for, or at most one is free, or the free RBGs are the first ones of the cell. -/
theorem chooses_iff_firstFree (c : SchedDlCqi) (dlMask : BoundedBitset n) (reqRbgs : Nat)
    (maxFlag : Bool) : Chooses c dlMask reqRbgs maxFlag ↔
      c.k = 0 ∨ dlMask.compl.count ≤ reqRbgs ∨ dlMask.compl.count ≤ 1 ∨
        ∀ rbg < n, ¬ dlMask.Has rbg ↔ rbg < dlMask.compl.count := by
  have hle := count_le dlMask.compl
  rcases Nat.eq_zero_or_pos c.k with hk | hk
  · refine iff_of_true ?_ (.inl hk)
    have hoff : c.subbandCqiEnabled = false := decide_eq_false (by omega)
    obtain ⟨result, hfind, hcount, hfree⟩ := findAvailableFrom_spec dlMask (min reqRbgs n)
    have hrun : c.getOptimRbgmask dlMask reqRbgs maxFlag = some result := by
      unfold getOptimRbgmask
      rw [hoff]
      exact hfind
    refine ⟨result, hrun, by omega, hfree, fun hon => ?_⟩
    exact absurd (hoff.symm.trans hon) Bool.false_ne_true
  have hon : c.subbandCqiEnabled = true := decide_eq_true hk
  rw [or_iff_right (Nat.ne_of_gt hk)]
  rcases Nat.lt_or_ge reqRbgs dlMask.compl.count with hmore | hall
  · rw [subband_chooses_iff hon hmore, or_iff_right (Nat.not_le.mpr hmore)]
  · refine iff_of_true ⟨dlMask.compl, ?_, ?_⟩ (.inl hall)
    · have hall' : (!dlMask.compl.any) = true ∨ min reqRbgs n ≥ n ∨
          dlMask.compl.count ≤ min reqRbgs n := .inr (by omega)
      unfold getOptimRbgmask
      rw [hon]
      exact if_pos hall'
    · refine ⟨by omega, fun rbg hrbg => ((has_compl dlMask rbg).mp hrbg).2, ?_⟩
      intro _ chosen left _ hlt hfree hleft
      exact absurd ((has_compl dlMask left).mpr ⟨hlt, hfree⟩) hleft

/-- Two free RBGs behind an occupied one: the lookup at the last position fails. -/
theorem not_chooses_secondFree : ¬ Chooses (n := 8)
    ⟨1, 5, [true, true], [5, 5, 5, 5], by decide, by decide⟩
    ⟨fun rbg => decide (rbg.val ∉ [1, 2])⟩ 1 true := by
  rintro ⟨result, hresult, -⟩
  exact nomatch hresult

end Odss.Mac
