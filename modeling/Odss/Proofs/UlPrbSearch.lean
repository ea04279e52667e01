import Odss.Mac.SchedPhyResource

/-!
# `Odss.Proofs.UlPrbSearch`: the search for contiguous UL PRBs

`find_contiguous_ul_prbs` first looks for a run of free PRBs. `Scanned` is the invariant of this loop:
no run of the length that is asked for starts in front of the position, and the longest run so far is
empty only where all PRBs so far are occupied. Then the length is changed to one that SC-FDMA
allows (`validPrb_iff`).

`findContiguousUlPrbs_spec` is what the search finds.
-/

set_option linter.all false

namespace Odss.Mac

variable {n : Nat} {mask : BoundedBitset n} {len pos : Nat} {interv best : PrbInterval}

/-- `len` free PRBs of the cell start at the position. -/
def FreeRun (mask : BoundedBitset n) (len pos : Nat) : Prop :=
  pos + len ≤ n ∧ ∀ prb, pos ≤ prb → prb < pos + len → ¬mask.Has prb

/-- The first position at which `len` free PRBs start. -/
structure FirstRun (mask : BoundedBitset n) (len pos : Nat) : Prop where
  free : FreeRun mask len pos
  first : ∀ prb, prb < pos → ¬FreeRun mask len prb

theorem PrbInterval.length_of_stop_eq (h : interv.stop = interv.start) : interv.length = 0 :=
  Nat.sub_eq_zero_of_le (Nat.le_of_eq h)

/-! ### Allowed lengths -/

/-- The numbers without other prime factors than 2, 3 and 5. -/
def Smooth (k : Nat) : Prop := ∃ a b c, k = 2 ^ a * 3 ^ b * 5 ^ c

theorem smooth_of_valid {k : Nat} (h : dftPrecodingValidPrb k = true) : k = 0 ∨ Smooth k := by
  have hle : k ≤ 100 := by
    by_contra hgt
    rw [dftPrecodingValidPrb, if_neg hgt] at h
    cases h
  have htable : ∀ k ≤ 100, dftPrecodingValidPrb k = true →
      k = 0 ∨ ∃ a < 7, ∃ b < 5, ∃ c < 3, k = 2 ^ a * 3 ^ b * 5 ^ c := by
    decide
  rcases htable k hle h with hzero | ⟨a, -, b, -, c, -, heq⟩
  · exact .inl hzero
  · exact .inr ⟨a, b, c, heq⟩

theorem valid_of_smooth {k : Nat} (hle : k ≤ 100) (h : Smooth k) : dftPrecodingValidPrb k = true := by
  obtain ⟨a, b, c, rfl⟩ := h
  have htwo : 0 < 2 ^ a := Nat.two_pow_pos a
  have hthree : 0 < 3 ^ b := Nat.pow_pos (by decide)
  have hfive : 0 < 5 ^ c := Nat.pow_pos (by decide)
  have ha : a < 7 := by
    by_contra hge
    have hpow : 2 ^ 7 ≤ 2 ^ a := Nat.pow_le_pow_right (by decide) (by omega)
    have hprod : 2 ^ a ≤ 2 ^ a * 3 ^ b * 5 ^ c := by
      rw [Nat.mul_assoc]
      exact Nat.le_mul_of_pos_right _ (Nat.mul_pos hthree hfive)
    omega
  have hb : b < 5 := by
    by_contra hge
    have hpow : 3 ^ 5 ≤ 3 ^ b := Nat.pow_le_pow_right (by decide) (by omega)
    have hprod : 3 ^ b ≤ 2 ^ a * 3 ^ b * 5 ^ c := by
      rw [Nat.mul_comm (2 ^ a), Nat.mul_assoc]
      exact Nat.le_mul_of_pos_right _ (Nat.mul_pos htwo hfive)
    omega
  have hc : c < 3 := by
    by_contra hge
    have hpow : 5 ^ 3 ≤ 5 ^ c := Nat.pow_le_pow_right (by decide) (by omega)
    have hprod : 5 ^ c ≤ 2 ^ a * 3 ^ b * 5 ^ c := Nat.le_mul_of_pos_left _ (Nat.mul_pos htwo hthree)
    omega
  have htable : ∀ a < 7, ∀ b < 5, ∀ c < 3, 2 ^ a * 3 ^ b * 5 ^ c ≤ 100 →
      dftPrecodingValidPrb (2 ^ a * 3 ^ b * 5 ^ c) = true := by
    decide
  exact htable a ha b hb c hc hle

/-! ### The longest run -/

/-- The positions in front of `pos` have been looked at. -/
structure Scanned (mask : BoundedBitset n) (len pos : Nat) (best : PrbInterval) : Prop where
  none : ∀ prb, prb < pos → ¬FreeRun mask len prb
  occupied : best.isEmpty = true → ∀ prb, prb < pos → prb < n → mask.Has prb

/-- What the search has found: the first run that is long enough, if there is one. -/
structure Longest (mask : BoundedBitset n) (len : Nat) (interv : PrbInterval) : Prop where
  first : ∀ prb, FreeRun mask len prb → FirstRun mask len interv.start ∧ interv.length = len
  occupied : interv.isEmpty = true → ∀ prb, prb < n → mask.Has prb

theorem isEmpty_of_length_pos (h : 0 < interv.length) : interv.isEmpty = false := by
  rw [PrbInterval.isEmpty, beq_eq_false_iff_ne]
  intro heq
  rw [PrbInterval.length_of_stop_eq heq] at h
  omega

theorem longer_isEmpty {run : PrbInterval} (hrun : 0 < run.length) :
    (if run.length > best.length then run else best).isEmpty = false := by
  refine isEmpty_of_length_pos ?_
  split
  · exact hrun
  · omega

/-- After a run that is too short come an occupied PRB or the end. -/
theorem Scanned.next {start stop : Nat} (h : Scanned mask len pos best)
    (hbefore : ∀ i, pos ≤ i → i < start → mask.Has i) (hlt : start < stop)
    (hshort : stop < start + len) (hblock : stop < n → mask.Has stop) {next : PrbInterval}
    (hnext : next.isEmpty = false) (hstop : stop ≤ n) : Scanned mask len stop next := by
  refine ⟨fun prb hprb hfree => ?_, fun hempty => by rw [hnext] at hempty; cases hempty⟩
  obtain ⟨hle, hall⟩ := hfree
  rcases Nat.lt_or_ge prb pos with hscanned | hge
  · exact h.none prb hscanned ⟨hle, hall⟩
  · rcases Nat.lt_or_ge prb start with hin | hout
    · exact hall prb (Nat.le_refl prb) (by omega) (hbefore prb hge hin)
    · rcases Nat.lt_or_eq_of_le hstop with hinside | hend
      · exact hall stop (by omega) (by omega) (hblock hinside)
      · omega

/-- The search has found the first run that is long enough, if there is one. -/
theorem longest_findContiguousFrom (hlen : 0 < len) (fuel : Nat) (hfuel : n ≤ pos + fuel)
    (h : Scanned mask len pos best)
    (hrun : findContiguousFrom mask len fuel pos best = some interv) : Longest mask len interv := by
  have hend {pos : Nat} {best : PrbInterval} (h : Scanned mask len pos best)
      (hall : ∀ prb, pos ≤ prb → prb < n → mask.Has prb) : Longest mask len best := by
    refine ⟨fun prb hfree => ?_, fun hempty prb hlt => ?_⟩
    · rcases Nat.lt_or_ge prb pos with hin | hout
      · exact absurd hfree (h.none prb hin)
      · obtain ⟨hle, hall'⟩ := hfree
        exact absurd (hall prb hout (by omega)) (hall' prb (Nat.le_refl prb) (by omega))
    · rcases Nat.lt_or_ge prb pos with hin | hout
      · exact h.occupied hempty prb hin hlt
      · exact hall prb hout hlt
  induction fuel generalizing pos best with
  | zero =>
    cases hrun
    exact hend h fun prb hge hlt => by omega
  | succ fuel ih =>
    rw [findContiguousFrom] at hrun
    split at hrun
    · rename_i hpos
      split at hrun
      · cases hrun
      · rename_i hnone
        cases hrun
        exact hend h fun prb hge hlt =>
          Bool.eq_true_of_not_eq_false (findLowest_none hnone prb hge hlt)
      · rename_i start hstart
        obtain ⟨hge, hlt⟩ := findLowest_bound hstart
        have hbefore : ∀ i, pos ≤ i → i < start → mask.Has i := fun i hi hi' =>
          Bool.eq_true_of_not_eq_false ((findLowest_some hstart).2 i hi hi')
        split at hrun
        · cases hrun
        · rename_i found hfound
          have hfree := free_run hstart hfound (Nat.le_max_left _ _)
          cases found with
          | some stop =>
            -- An occupied PRB ends the run before it is long enough.
            obtain ⟨hstop, hstop'⟩ := findLowest_bound hfound
            have hmax : max start stop = stop := by omega
            simp only [Option.getD_some, hmax] at hrun
            rw [if_neg (show ¬PrbInterval.length ⟨start, stop, _⟩ ≥ len from
              Nat.not_le.mpr (show stop - start < len by omega))] at hrun
            refine ih (by omega) (h.next hbefore (by omega) (by omega)
              (fun _ => (findLowest_some hfound).1) (longer_isEmpty ?_) (by omega)) hrun
            show 0 < stop - start
            omega
          | none =>
            simp only [Option.getD_none] at hrun hfree
            have hmax : max start (min n (start + len)) = min n (start + len) := by omega
            simp only [hmax] at hrun hfree
            split at hrun
            · rename_i hlong
              replace hlong : len ≤ min n (start + len) - start := hlong
              have hle : start + len ≤ n := by omega
              have hstop : min n (start + len) = start + len := Nat.min_eq_right hle
              simp only [hstop] at hrun hfree
              cases hrun
              refine ⟨fun _ _ => ⟨⟨⟨hle, fun prb hprb hprb' => hfree prb ⟨hprb, hprb'⟩⟩, ?_⟩, ?_⟩, ?_⟩
              · intro prb hprb hfree'
                rcases Nat.lt_or_ge prb pos with hscanned | hin
                · exact h.none prb hscanned hfree'
                · exact hfree'.2 prb (Nat.le_refl prb) (by omega) (hbefore prb hin hprb)
              · exact Nat.add_sub_cancel_left start len
              · intro hempty
                have : start + len = start := by simpa [PrbInterval.isEmpty] using hempty
                omega
            · rename_i hshort
              replace hshort : ¬len ≤ min n (start + len) - start := hshort
              have hstop : min n (start + len) = n := by omega
              simp only [hstop] at hrun
              refine ih (by omega) (h.next hbefore hlt (by omega)
                (fun hlt' => absurd hlt' (Nat.lt_irrefl n)) (longer_isEmpty ?_) (Nat.le_refl n)) hrun
              show 0 < n - start
              omega
    · rename_i hpos
      cases hrun
      exact hend h fun prb hge hlt => by omega

/-! ### The change to an allowed length -/

/-- An allowed length stays. -/
theorem growToValid_of_valid (fuel : Nat) (h : dftPrecodingValidPrb interv.length = true) :
    growToValid mask fuel interv = some interv := by
  cases fuel with
  | zero => rfl
  | succ fuel =>
    rw [growToValid, h]
    rfl

theorem length_le_growToValid {longer : PrbInterval} (fuel : Nat)
    (h : growToValid mask fuel interv = some longer) : interv.length ≤ longer.length := by
  induction fuel generalizing interv with
  | zero =>
    cases h
    exact Nat.le_refl _
  | succ fuel ih =>
    rw [growToValid] at h
    split at h
    · split at h
      · cases h
      · cases h
        exact Nat.le_refl _
      · exact Nat.le_trans (Nat.sub_le_sub_right (Nat.le_succ _) _) (ih h)
    · cases h
      exact Nat.le_refl _

theorem stop_growToValid_le {longer : PrbInterval} (fuel : Nat) (hstop : interv.stop ≤ n)
    (h : growToValid mask fuel interv = some longer) : longer.stop ≤ n := by
  induction fuel generalizing interv with
  | zero => exact Option.some.inj h ▸ hstop
  | succ fuel ih =>
    rw [growToValid] at h
    split at h
    · rename_i hinside
      rw [Bool.and_eq_true, decide_eq_true_eq] at hinside
      split at h
      · cases h
      · exact Option.some.inj h ▸ hstop
      · exact ih (Nat.succ_le_of_lt hinside.2) h
    · exact Option.some.inj h ▸ hstop

theorem stop_shrink_le (i : PrbInterval) : i.shrink.stop ≤ i.stop :=
  Nat.max_le.mpr ⟨i.le, Nat.sub_le _ _⟩

theorem stop_shrinkToValid_le (fuel : Nat) (i : PrbInterval) : (shrinkToValid fuel i).stop ≤ i.stop := by
  induction fuel generalizing i with
  | zero => exact Nat.le_refl _
  | succ fuel ih =>
    rw [shrinkToValid]
    split
    · exact Nat.le_trans (ih i.shrink) (stop_shrink_le i)
    · exact Nat.le_refl _

/-- The change to a shorter length stops at an allowed one, which 1 is. -/
theorem shrinkToValid_spec (fuel : Nat) (i : PrbInterval) (hfuel : i.length ≤ fuel)
    (hpos : 0 < i.length) :
    dftPrecodingValidPrb (shrinkToValid fuel i).length = true ∧
      0 < (shrinkToValid fuel i).length := by
  induction fuel generalizing i with
  | zero => omega
  | succ fuel ih =>
    rw [shrinkToValid]
    split
    · rename_i hinvalid
      have hone : i.length ≠ 1 := by
        intro heq
        rw [heq] at hinvalid
        cases hinvalid
      have hshrink : i.shrink.length = i.length - 1 := by
        simp only [PrbInterval.length, PrbInterval.shrink] at hpos ⊢
        omega
      exact ih i.shrink (by omega) (by omega)
    · rename_i hvalid
      rw [isEmpty_of_length_pos hpos] at hvalid
      exact ⟨by simpa using hvalid, hpos⟩

/-- What is found for a cell with at most 100 PRBs. The length is allowed, the interval is empty only
where all PRBs are occupied, and an allowed number of PRBs is found where there are as many in a row. -/
theorem findContiguousUlPrbs_spec (mask : BoundedBitset n) (hn : n ≤ 100) (hlen : 1 ≤ len) :
    ∃ interv, findContiguousUlPrbs mask len = some interv ∧ interv.stop ≤ n ∧ Free mask interv ∧
      (interv.length = 0 ∨ Smooth interv.length) ∧
      (interv.isEmpty = true → ∀ prb, prb < n → mask.Has prb) ∧
      (Smooth len → (∃ prb, FreeRun mask len prb) →
        FirstRun mask len interv.start ∧ interv.length = len) := by
  obtain ⟨best, hbest, hstop⟩ := findContiguousFrom_isSome mask hlen n 0 .empty (Nat.zero_le n)
  have hlongest : Longest mask len best := longest_findContiguousFrom hlen n (Nat.le_add_left n 0)
    ⟨fun prb hprb => absurd hprb (Nat.not_lt_zero prb),
      fun _ prb hprb => absurd hprb (Nat.not_lt_zero prb)⟩ hbest
  obtain ⟨interv, hfound⟩ := findContiguousUlPrbs_isSome mask hlen
  have hfree := free_findContiguousUlPrbs hfound
  refine ⟨interv, hfound, ?_⟩
  rw [findContiguousUlPrbs, findContiguousInterval, hbest] at hfound
  dsimp only at hfound
  split at hfound
  · rename_i hempty
    cases hfound
    have hzero : best.length = 0 := PrbInterval.length_of_stop_eq (beq_iff_eq.mp hempty)
    exact ⟨hstop, hfree, .inl hzero, hlongest.occupied,
      fun _ hrun => hrun.elim fun prb hfree => hlongest.first prb hfree⟩
  · rename_i hnonempty
    have hpos : 0 < best.length := by
      rw [PrbInterval.isEmpty, beq_iff_eq] at hnonempty
      have := best.le
      show 0 < best.stop - best.start
      omega
    obtain ⟨longer, hlonger⟩ := growToValid_isSome mask n best
    rw [hlonger] at hfound
    dsimp only at hfound
    split at hfound
    · rename_i hvalid
      cases hfound
      have hpos' : 0 < interv.length := Nat.lt_of_lt_of_le hpos (length_le_growToValid n hlonger)
      refine ⟨stop_growToValid_le n hstop hlonger, hfree, smooth_of_valid hvalid, fun hempty => ?_,
        fun hsmooth hrun => ?_⟩
      · rw [isEmpty_of_length_pos hpos'] at hempty
        cases hempty
      · -- The length asked for is allowed, so nothing is added.
        obtain ⟨prb, hfree⟩ := hrun
        obtain ⟨hfirst, hlength⟩ := hlongest.first prb hfree
        rw [growToValid_of_valid n (hlength ▸ valid_of_smooth (Nat.le_trans (Nat.le_of_add_left_le hfree.1) hn)
          hsmooth)] at hlonger
        cases hlonger
        exact ⟨hfirst, hlength⟩
    · rename_i hinvalid
      cases hfound
      have hbestInvalid : ¬dftPrecodingValidPrb best.length = true := by
        intro hvalid
        rw [growToValid_of_valid n hvalid] at hlonger
        cases hlonger
        exact hinvalid hvalid
      have hone : best.length ≠ 1 := fun heq => hbestInvalid (heq ▸ rfl)
      have hshrink : best.shrink.length = best.length - 1 := by
        simp only [PrbInterval.length, PrbInterval.shrink] at hpos ⊢
        omega
      obtain ⟨hvalid, hpos'⟩ := shrinkToValid_spec best.length best.shrink (by omega) (by omega)
      have hstop' : (shrinkToValid best.length best.shrink).stop ≤ n :=
        Nat.le_trans (stop_shrinkToValid_le _ _) (Nat.le_trans (stop_shrink_le best) hstop)
      refine ⟨hstop', hfree, smooth_of_valid hvalid, fun hempty => ?_, fun hsmooth hrun => ?_⟩
      · rw [isEmpty_of_length_pos hpos'] at hempty
        cases hempty
      · obtain ⟨prb, hfree⟩ := hrun
        obtain ⟨-, hlength⟩ := hlongest.first prb hfree
        refine absurd ?_ hbestInvalid
        rw [hlength]
        exact valid_of_smooth (Nat.le_trans (Nat.le_of_add_left_le hfree.1) hn) hsmooth

/-- An empty cell with six PRBs. -/
theorem findContiguousUlPrbs_empty : ∃ interv,
    findContiguousUlPrbs (BoundedBitset.empty 6) 2 = some interv ∧ interv.stop ≤ 6 ∧
      Free (BoundedBitset.empty 6) interv ∧ (interv.length = 0 ∨ Smooth interv.length) ∧
      (interv.isEmpty = true → ∀ prb, prb < 6 → (BoundedBitset.empty 6).Has prb) ∧
      (Smooth 2 → (∃ prb, FreeRun (BoundedBitset.empty 6) 2 prb) →
        FirstRun (BoundedBitset.empty 6) 2 interv.start ∧ interv.length = 2) :=
  findContiguousUlPrbs_spec (BoundedBitset.empty 6) (by decide) (by decide)

end Odss.Mac
