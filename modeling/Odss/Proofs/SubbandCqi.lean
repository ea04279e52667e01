import Odss.Mac.SchedDlCqi

/-!
# `Odss.Proofs.SubbandCqi`: the CQI of a subband after any reports

`expected` is the CQI that a subband should have after some calls: that of the last report for its
bandwidth part since the last reset, and without one the wideband CQI. `Tracked` says that it is
read.

A report is stored for a range of subbands, and valid for the bandwidth part. The range is not the
part in cells of 25, 75 and 100 PRBs. `Fits` is what a report then needs from the values that are
stored already. `tracked_sbInfo_iff` is the step, `tracked_iff_stepsFit` the run.
-/

set_option linter.all false

namespace Odss.Mac

/-- A cell with CQI for its subbands, as it is created. -/
structure SubbandCell where
  nofPrb : Nat
  k : Nat
  init : Cqi
  wide : nofPrb > 6
  known : (lteCellNofPrbToIndex nofPrb).isSome
  k_pos : 0 < k
  k_le : k ≤ 4

namespace SubbandCell

/-- N, the number of subbands. -/
def nofSubbands (cell : SubbandCell) : Nat := max 1 (cqiHlGetNoSubbands cell.nofPrb)

/-- J, the number of bandwidth parts. -/
def nofParts (cell : SubbandCell) : Nat := (nofBandwidthParts cell.nofPrb).getD 0

/-- The bandwidth part of a subband. -/
def part (cell : SubbandCell) (sb : Nat) : Nat := sb * cell.nofParts / cell.nofSubbands

/-- The subband is in the range that a report for a bandwidth part is stored in. -/
def InRange (cell : SubbandCell) (bp sb : Nat) : Prop :=
  bp * cell.nofSubbands / cell.nofParts ≤ sb ∧ sb < (bp + 1) * cell.nofSubbands / cell.nofParts

instance (cell : SubbandCell) (bp sb : Nat) : Decidable (cell.InRange bp sb) :=
  inferInstanceAs (Decidable (_ ∧ _))

end SubbandCell

/-- A report, or a reset. -/
inductive CqiCall (cell : SubbandCell) where
  | wbInfo (cqi : Cqi)
  | sbInfo (sb : Fin cell.nofSubbands) (cqi : Cqi)
  | reset (cqi : Cqi)

variable {cell : SubbandCell}

/-- The call of the code. -/
def CqiCall.apply (c : SchedDlCqi) : CqiCall cell → Option SchedDlCqi
  | wbInfo cqi => some (c.cqiWbInfo cqi)
  | sbInfo sb cqi => c.cqiSbInfo sb cqi
  | reset cqi => some (c.resetCqi cqi)

/-- The state after some calls, the last one first. -/
def afterCalls : List (CqiCall cell) → Option SchedDlCqi
  | [] => SchedDlCqi.create cell.nofPrb cell.k cell.init
  | call :: past => (afterCalls past).bind fun c => call.apply c

/-- The last report for a bandwidth part since the last reset. -/
def lastReport (bp : Nat) : List (CqiCall cell) → Option Nat
  | [] => none
  | .wbInfo _ :: past => lastReport bp past
  | .sbInfo sb cqi :: past => if cell.part sb = bp then some cqi else lastReport bp past
  | .reset _ :: _ => none

/-- The wideband CQI. -/
def wideband : List (CqiCall cell) → Nat
  | [] => cell.init
  | .wbInfo cqi :: _ => cqi
  | .sbInfo _ _ :: past => wideband past
  | .reset cqi :: _ => cqi

/-- The CQI that a subband should have. -/
def expected (calls : List (CqiCall cell)) (sb : Nat) : Nat :=
  (lastReport (cell.part sb) calls).getD (wideband calls)

/-- Every subband is read as it should be. -/
def Tracked (calls : List (CqiCall cell)) : Prop :=
  ∃ c, afterCalls calls = some c ∧ ∀ sb < cell.nofSubbands, c.getSubbandCqi sb = expected calls sb

/-- What a report needs from the values that are stored: they have the new CQI already where the
part is not in the range, and where the range is in another part with a report. -/
def CqiCall.Fits (c : SchedDlCqi) : CqiCall cell → Prop
  | wbInfo _ => True
  | sbInfo sb cqi => ∀ other < cell.nofSubbands,
    (cell.part other = cell.part sb → ¬ cell.InRange (cell.part sb) other →
      c.subbandCqi.getD other 0 = cqi) ∧
    (cell.part other ≠ cell.part sb → cell.InRange (cell.part sb) other →
      c.bpList.getD (cell.part other) false = true → c.subbandCqi.getD other 0 = cqi)
  | reset _ => True

/-- Every report of a sequence fits. -/
def StepsFit (calls : List (CqiCall cell)) : Prop :=
  ∀ call past c, call :: past <:+ calls → afterCalls past = some c → call.Fits c

/-! ### The parts of a cell -/

namespace SubbandCell

theorem nofParts_pos (cell : SubbandCell) : 0 < cell.nofParts := by
  obtain ⟨nofPrb, k, init, wide, known, -, -⟩ := cell
  unfold nofParts
  dsimp only
  unfold lteCellNofPrbToIndex at known
  split at known <;> first | omega | exact absurd known (by decide) | decide

theorem nofSubbands_pos (cell : SubbandCell) : 0 < cell.nofSubbands :=
  Nat.lt_of_lt_of_le Nat.one_pos (Nat.le_max_left _ _)

theorem part_lt (cell : SubbandCell) {sb : Nat} (h : sb < cell.nofSubbands) :
    cell.part sb < cell.nofParts := by
  unfold part
  rw [Nat.div_lt_iff_lt_mul cell.nofSubbands_pos, Nat.mul_comm]
  exact Nat.mul_lt_mul_of_pos_left h cell.nofParts_pos

end SubbandCell

/-! ### Stored values -/

theorem getD_capSubbands {cqi count sb : Nat} {cqis cqis' : List Nat}
    (h : SchedDlCqi.capSubbands cqi count sb cqis = some cqis') :
    cqis'.length = cqis.length ∧
      ∀ i, cqis'.getD i 0 = if sb ≤ i ∧ i < sb + count then cqi else cqis.getD i 0 := by
  induction count generalizing sb cqis with
  | zero =>
    cases h
    refine ⟨rfl, fun i => ?_⟩
    rw [if_neg (by omega)]
  | succ count ih =>
    unfold SchedDlCqi.capSubbands at h
    split at h
    · next hlt =>
      obtain ⟨hlen, hget⟩ := ih h
      refine ⟨hlen.trans List.length_set, fun i => ?_⟩
      rw [hget i]
      rcases Nat.lt_trichotomy i sb with hi | rfl | hi
      · rw [if_neg (by omega), if_neg (by omega), List.getD_eq_getElem?_getD,
          List.getElem?_set_ne (by omega), ← List.getD_eq_getElem?_getD]
      · rw [if_neg (by omega), if_pos (by omega), List.getD_eq_getElem?_getD,
          List.getElem?_set_self hlt, Option.getD_some]
      · by_cases hin : i < sb + (count + 1)
        · rw [if_pos (by omega), if_pos (by omega)]
        · rw [if_neg (by omega), if_neg (by omega), List.getD_eq_getElem?_getD,
            List.getElem?_set_ne (by omega), ← List.getD_eq_getElem?_getD]
    · cases h

theorem exists_capSubbands (cqi : Nat) {count sb : Nat} {cqis : List Nat}
    (h : sb + count ≤ cqis.length) :
    ∃ cqis', SchedDlCqi.capSubbands cqi count sb cqis = some cqis' := by
  induction count generalizing sb cqis with
  | zero => exact ⟨cqis, rfl⟩
  | succ count ih =>
    obtain ⟨cqis', hrest⟩ := @ih (sb + 1) (cqis.set sb cqi)
      (by rw [List.length_set]; omega)
    refine ⟨cqis', ?_⟩
    rw [SchedDlCqi.capSubbands, if_pos (by omega)]
    exact hrest

/-- What the calls keep: the sizes, the wideband CQI, and which parts have a report. -/
structure Keeps (calls : List (CqiCall cell)) (c : SchedDlCqi) : Prop where
  k_pos : 0 < c.k
  subbands : c.subbandCqi.length = cell.nofSubbands
  parts : c.bpList.length = cell.nofParts
  wb_eq : c.wbCqiAvg = wideband calls
  reported : ∀ bp < cell.nofParts, c.bpList.getD bp false = (lastReport bp calls).isSome

theorem Keeps.getSubbandCqi_eq {calls : List (CqiCall cell)} {c : SchedDlCqi} (h : Keeps calls c)
    (sb : Nat) : c.getSubbandCqi sb =
      if c.bpList.getD (cell.part sb) false then c.subbandCqi.getD sb 0 else wideband calls := by
  have hon : c.subbandCqiEnabled = true := decide_eq_true h.k_pos
  have hpart : c.getBpIndex sb = cell.part sb := by
    unfold SchedDlCqi.getBpIndex SubbandCell.part
    rw [h.subbands, h.parts]
  unfold SchedDlCqi.getSubbandCqi
  rw [hon, hpart, h.wb_eq]
  rfl

/-- A subband is read as it should be exactly when its stored value is that of the last report. -/
theorem Keeps.eq_expected_iff {calls : List (CqiCall cell)} {c : SchedDlCqi} (h : Keeps calls c)
    {sb : Nat} (hsb : sb < cell.nofSubbands) : c.getSubbandCqi sb = expected calls sb ↔
      ∀ cqi, lastReport (cell.part sb) calls = some cqi → c.subbandCqi.getD sb 0 = cqi := by
  rw [h.getSubbandCqi_eq, h.reported _ (cell.part_lt hsb), expected]
  cases hlast : lastReport (cell.part sb) calls with
  | none => simp
  | some cqi => simp [eq_comm]

/-- A report for a subband, with the new values. -/
theorem Keeps.cqiSbInfo_eq {calls : List (CqiCall cell)} {c : SchedDlCqi} (h : Keeps calls c)
    (sb : Fin cell.nofSubbands) (cqi : Cqi) : ∃ c', c.cqiSbInfo sb cqi = some c' ∧
      Keeps (.sbInfo sb cqi :: calls) c' ∧
      ∀ other, c'.subbandCqi.getD other 0
        = if cell.InRange (cell.part sb) other then cqi.val else c.subbandCqi.getD other 0 := by
  have hpart : c.getBpIndex sb = cell.part sb := by
    unfold SchedDlCqi.getBpIndex SubbandCell.part
    rw [h.subbands, h.parts]
  have hlt := cell.part_lt sb.isLt
  obtain ⟨first, hfirst⟩ : ∃ first, first = cell.part sb * cell.nofSubbands / cell.nofParts :=
    ⟨_, rfl⟩
  obtain ⟨stop, hstop⟩ : ∃ stop,
      stop = (cell.part sb + 1) * cell.nofSubbands / cell.nofParts := ⟨_, rfl⟩
  have hinterv : c.getBpSbIndexes (c.getBpIndex sb) = (first, stop) := by
    unfold SchedDlCqi.getBpSbIndexes
    rw [hpart, h.subbands, h.parts, hfirst, hstop]
  have horder : first ≤ stop := by
    rw [hfirst, hstop]
    exact Nat.div_le_div_right (Nat.mul_le_mul_right _ (Nat.le_succ _))
  have hend : stop ≤ cell.nofSubbands := by
    rw [hstop]
    refine Nat.div_le_of_le_mul ?_
    exact Nat.mul_le_mul_right _ hlt
  obtain ⟨cqis, hcap⟩ := @exists_capSubbands cqi.val (stop - first) first c.subbandCqi
    (by rw [h.subbands]; omega)
  obtain ⟨hlen, hget⟩ := getD_capSubbands hcap
  rw [show stop - first = (c.getBpSbIndexes (c.getBpIndex sb)).2
      - (c.getBpSbIndexes (c.getBpIndex sb)).1 by rw [hinterv],
    show first = (c.getBpSbIndexes (c.getBpIndex sb)).1 by rw [hinterv]] at hcap
  have hrun : c.cqiSbInfo sb cqi = some {
      c with
      bpList := c.bpList.set (c.getBpIndex sb) true
      subbandCqi := cqis
      subbandCqi_lt := SchedDlCqi.lt_of_capSubbands cqi.lt_intMax c.subbandCqi_lt hcap } := by
    unfold SchedDlCqi.cqiSbInfo
    rw [if_pos (by rw [hpart, h.parts]; exact hlt)]
    split
    · next hnone => exact nomatch hcap.symm.trans hnone
    · next cqis' hsome =>
      obtain rfl := Option.some.inj (hcap.symm.trans hsome)
      rfl
  refine ⟨_, hrun, ⟨h.k_pos, hlen.trans h.subbands, List.length_set.trans h.parts, h.wb_eq,
    fun bp hbp => ?_⟩, fun other => ?_⟩
  · show (c.bpList.set (c.getBpIndex sb) true).getD bp false = _
    unfold lastReport
    rw [hpart, List.getD_eq_getElem?_getD, List.getElem?_set]
    by_cases heq : cell.part sb = bp
    · rw [if_pos heq, if_pos heq, if_pos (by rw [h.parts]; exact hlt)]
      rfl
    · rw [if_neg heq, if_neg heq, ← List.getD_eq_getElem?_getD]
      exact h.reported bp hbp
  · show cqis.getD other 0 = _
    have hiff : (first ≤ other ∧ other < first + (stop - first))
        ↔ cell.InRange (cell.part sb) other := by
      unfold SubbandCell.InRange
      rw [← hfirst, ← hstop]
      omega
    rw [hget other]
    simp only [hiff]

/-- Every sequence of calls is defined. -/
theorem exists_keeps (calls : List (CqiCall cell)) :
    ∃ c, afterCalls calls = some c ∧ Keeps calls c := by
  induction calls with
  | nil =>
    have hknown := cell.known
    have hparts : nofBandwidthParts cell.nofPrb = some cell.nofParts := by
      have hpos := cell.nofParts_pos
      unfold SubbandCell.nofParts at hpos ⊢
      cases h : nofBandwidthParts cell.nofPrb with
      | none =>
        rw [h] at hpos
        exact absurd hpos (lt_irrefl 0)
      | some nofParts => rfl
    have hassert : cell.k ≤ 4 ∧ (cell.k = 0 ∨ cell.nofPrb > 6) := ⟨cell.k_le, .inr cell.wide⟩
    unfold afterCalls SchedDlCqi.create
    rw [hparts]
    dsimp only
    rw [if_pos hassert]
    refine ⟨_, rfl, cell.k_pos, List.length_replicate, List.length_replicate, rfl,
      fun bp hbp => ?_⟩
    show (List.replicate cell.nofParts false).getD bp false = false
    rw [List.getD_eq_getElem?_getD, List.getElem?_replicate_of_lt hbp, Option.getD_some]
  | cons call past ih =>
    obtain ⟨c, hafter, h⟩ := ih
    unfold afterCalls
    rw [hafter, Option.bind_some]
    cases call with
    | wbInfo cqi => exact ⟨_, rfl, h.k_pos, h.subbands, h.parts, rfl, h.reported⟩
    | sbInfo sb cqi =>
      obtain ⟨c', hrun, hkeeps, -⟩ := h.cqiSbInfo_eq sb cqi
      exact ⟨c', hrun, hkeeps⟩
    | reset cqi =>
      refine ⟨_, rfl, h.k_pos, h.subbands, (List.length_map _).trans h.parts, rfl, fun bp hbp => ?_⟩
      show (c.bpList.map fun _ => false).getD bp false = false
      rw [List.getD_eq_getElem?_getD, List.getElem?_map]
      cases c.bpList[bp]? <;> rfl

/-! ### Runs -/

theorem tracked_iff {calls : List (CqiCall cell)} {c : SchedDlCqi}
    (hafter : afterCalls calls = some c) : Tracked calls ↔
      ∀ sb < cell.nofSubbands, c.getSubbandCqi sb = expected calls sb := by
  constructor
  · rintro ⟨c', hafter', htracked⟩
    obtain rfl := Option.some.inj (hafter.symm.trans hafter')
    exact htracked
  · exact fun h => ⟨c, hafter, h⟩

/-- After a report everything is read as it should be exactly when the report fits. -/
theorem tracked_sbInfo_iff {past : List (CqiCall cell)} {c : SchedDlCqi}
    (hafter : afterCalls past = some c) (h : Keeps past c) (htracked : Tracked past)
    (sb : Fin cell.nofSubbands) (cqi : Cqi) :
    Tracked (.sbInfo sb cqi :: past) ↔ (CqiCall.sbInfo sb cqi).Fits c := by
  obtain ⟨c', hrun, hkeeps, hget⟩ := h.cqiSbInfo_eq sb cqi
  have hafter' : afterCalls (.sbInfo sb cqi :: past) = some c' := by
    rw [afterCalls, hafter]
    exact hrun
  rw [tracked_iff hafter']
  refine forall_congr' fun other => imp_congr_right fun hother => ?_
  rw [hkeeps.eq_expected_iff hother, hget other, lastReport]
  by_cases hpart : cell.part other = cell.part sb
  · rw [if_pos hpart.symm]
    by_cases hin : cell.InRange (cell.part sb) other
    · simp [hin, hpart]
    · simp [hin, hpart]
  · rw [if_neg (Ne.symm hpart)]
    have hstored := (h.eq_expected_iff hother).mp ((tracked_iff hafter).mp htracked other hother)
    have hreported := h.reported _ (cell.part_lt hother)
    by_cases hin : cell.InRange (cell.part sb) other
    · rw [if_pos hin]
      cases hlast : lastReport (cell.part other) past with
      | none =>
        rw [hlast] at hreported
        simp only [hpart, hreported]
        simp
      | some last =>
        rw [hlast] at hreported
        have hvalue := hstored last hlast
        constructor
        · intro hnew
          refine ⟨fun hsame => absurd hsame hpart, fun _ _ _ => ?_⟩
          rw [hvalue]
          exact (hnew last rfl).symm
        · rintro ⟨-, hfits⟩ v hv
          obtain rfl := Option.some.inj hv
          rw [← hvalue]
          exact (hfits hpart hin hreported).symm
    · rw [if_neg hin]
      simp only [hpart, hin]
      simpa using hstored

/-- The wideband CQI and a reset are always read as they should be. -/
theorem tracked_cons_iff {past : List (CqiCall cell)} {c : SchedDlCqi}
    (hafter : afterCalls past = some c) (h : Keeps past c) (htracked : Tracked past)
    (call : CqiCall cell) : Tracked (call :: past) ↔ call.Fits c := by
  cases call with
  | wbInfo cqi =>
    refine iff_of_true ⟨_, by rw [afterCalls, hafter]; rfl, fun sb hsb => ?_⟩ trivial
    obtain ⟨c', hafter', hkeeps⟩ := exists_keeps (.wbInfo cqi :: past)
    rw [afterCalls, hafter] at hafter'
    obtain rfl := Option.some.inj hafter'
    rw [hkeeps.eq_expected_iff hsb]
    exact (h.eq_expected_iff hsb).mp ((tracked_iff hafter).mp htracked sb hsb)
  | sbInfo sb cqi => exact tracked_sbInfo_iff hafter h htracked sb cqi
  | reset cqi =>
    refine iff_of_true ⟨_, by rw [afterCalls, hafter]; rfl, fun sb hsb => ?_⟩ trivial
    obtain ⟨c', hafter', hkeeps⟩ := exists_keeps (.reset cqi :: past)
    rw [afterCalls, hafter] at hafter'
    obtain rfl := Option.some.inj hafter'
    rw [hkeeps.eq_expected_iff hsb]
    exact nofun

theorem tracked_nil : Tracked ([] : List (CqiCall cell)) := by
  obtain ⟨c, hafter, h⟩ := exists_keeps ([] : List (CqiCall cell))
  refine ⟨c, hafter, fun sb hsb => ?_⟩
  rw [h.eq_expected_iff hsb]
  exact nofun

/-- In every state of a run all subbands are read as they should be exactly when all reports of the
run fit. -/
theorem tracked_iff_stepsFit (cell : SubbandCell) (calls : List (CqiCall cell)) :
    (∀ past, past <:+ calls → Tracked past) ↔ StepsFit calls := by
  constructor
  · intro htracked call past c hsuffix hafter
    obtain ⟨c', hafter', h⟩ := exists_keeps past
    obtain rfl := Option.some.inj (hafter.symm.trans hafter')
    have hpast := htracked past ((List.suffix_cons call past).trans hsuffix)
    exact (tracked_cons_iff hafter h hpast call).mp (htracked _ hsuffix)
  · intro hfits past hsuffix
    induction past with
    | nil => exact tracked_nil
    | cons call past ih =>
      obtain ⟨c, hafter, h⟩ := exists_keeps past
      have hpast := ih ((List.suffix_cons call past).trans hsuffix)
      exact (tracked_cons_iff hafter h hpast call).mpr (hfits call past c hsuffix hafter)

/-- In cells of 15 and of 50 PRBs every subband is read as it should be. -/
theorem tracked_of_nofPrb (hnof : cell.nofPrb = 15 ∨ cell.nofPrb = 50)
    (calls : List (CqiCall cell)) : Tracked calls := by
  have hrange : ∀ sb < cell.nofSubbands, ∀ other < cell.nofSubbands,
      (cell.part other = cell.part sb ↔ cell.InRange (cell.part sb) other) := by
    unfold SubbandCell.InRange SubbandCell.part SubbandCell.nofSubbands SubbandCell.nofParts
    rcases hnof with h | h <;> rw [h] <;> decide
  induction calls with
  | nil => exact tracked_nil
  | cons call past ih =>
    obtain ⟨c, hafter, h⟩ := exists_keeps past
    rw [tracked_cons_iff hafter h ih call]
    cases call with
    | wbInfo cqi => trivial
    | sbInfo sb cqi =>
      intro other hother
      have hiff := hrange sb sb.isLt other hother
      exact ⟨fun hpart hout => absurd (hiff.mp hpart) hout,
        fun hpart hin => absurd (hiff.mpr hin) hpart⟩
    | reset cqi => trivial

theorem tracked_fifty :
    @Tracked ⟨50, 1, 5, by decide, rfl, by decide, by decide⟩ [.sbInfo ⟨3, by decide⟩ 7] :=
  tracked_of_nofPrb (.inr rfl) _

/-- In a cell of 100 PRBs a report for the subband 3 is not stored for it. -/
theorem not_tracked_lastSubband :
    ¬ @Tracked ⟨100, 1, 5, by decide, rfl, by decide, by decide⟩
      [.sbInfo ⟨3, by decide⟩ 7] := by
  rintro ⟨c, hafter, htracked⟩
  have hread : c.getSubbandCqi 3 = 7 := htracked 3 (by decide)
  obtain ⟨c', hafter', hread'⟩ : ∃ c',
      @afterCalls ⟨100, 1, 5, by decide, rfl, by decide, by decide⟩
        [.sbInfo ⟨3, by decide⟩ 7] = some c' ∧ c'.getSubbandCqi 3 = 0 := ⟨_, rfl, rfl⟩
  obtain rfl := Option.some.inj (hafter.symm.trans hafter')
  exact absurd (hread.symm.trans hread') (by decide)

end Odss.Mac
