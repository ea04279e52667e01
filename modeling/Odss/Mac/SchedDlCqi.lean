import Odss.Mac.SchedUeCell

/-!
# `Odss.Mac.SchedDlCqi`: the DL CQI of a UE in a cell

The model of `sched_dl_cqi` (`srsenb/hdr/stack/mac/sched_ue_ctrl/sched_dl_cqi.h`,
`srsenb/src/stack/mac/sched_ue_ctrl/sched_dl_cqi.cc`): its constructor, the reports, and the choice
of RBGs. `none` is a failing assertion. A report has a valid TTI, which only says that there was
one. The last report of a bandwidth part is kept, but nothing reads it.
-/

set_option linter.all false

namespace Odss.Mac

/-- A CQI. A `float` holds these numbers exactly, and those of a report are at most 15. -/
abbrev Cqi : Type := Fin (2 ^ 24)

theorem Cqi.lt_intMax (cqi : Cqi) : cqi.val < intMax := Nat.lt_trans cqi.isLt (by decide)

/-! ### The parts of a cell -/

/-- `lte_cell_nof_prb_to_index`. Other numbers of PRBs give `nulltype`. -/
def lteCellNofPrbToIndex : Nat → Option Nat
  | 6 => some 0
  | 15 => some 1
  | 25 => some 2
  | 50 => some 3
  | 75 => some 4
  | 100 => some 5
  | _ => none

/-- `nof_bandwidth_parts` -/
def nofBandwidthParts (nofPrb : Nat) : Option Nat :=
  (lteCellNofPrbToIndex nofPrb).bind fun index => [0, 2, 2, 3, 4, 4][index]?

/-- `cqi_hl_get_subband_size`, which is 0 for an error. -/
def cqiHlGetSubbandSize (nofPrb : Nat) : Nat :=
  if nofPrb < 7 then 0
  else if nofPrb ≤ 26 then 4
  else if nofPrb ≤ 63 then 6
  else if nofPrb ≤ 110 then 8
  else 0

/-- `srsran_cqi_hl_get_no_subbands` -/
def cqiHlGetNoSubbands (nofPrb : Nat) : Nat :=
  let hlSize := cqiHlGetSubbandSize nofPrb
  if hlSize > 0 then (nofPrb + hlSize - 1) / hlSize else 0

namespace SchedDlCqi

/-- `sched_dl_cqi(cell_nof_prb, K, init_dl_cqi)` -/
def create (nofPrb k : Nat) (init : Cqi) : Option SchedDlCqi :=
  match nofBandwidthParts nofPrb with
  | none => none
  | some nofParts =>
    if k ≤ 4 ∧ (k = 0 ∨ nofPrb > 6) then
      some {
        k := k
        wbCqiAvg := init
        bpList := List.replicate nofParts false
        subbandCqi := List.replicate (max 1 (cqiHlGetNoSubbands nofPrb)) 0
        wbCqiAvg_lt := init.lt_intMax
        subbandCqi_lt := fun cqi hcqi => by
          rw [(List.mem_replicate.mp hcqi).2]
          decide }
    else none

/-! ### Reports -/

/-- `cqi_wb_info` -/
def cqiWbInfo (c : SchedDlCqi) (cqi : Cqi) : SchedDlCqi :=
  { c with wbCqiAvg := cqi, wbCqiAvg_lt := cqi.lt_intMax }

/-- `get_bp_sb_indexes`: the first subband, and the one behind the last. -/
def getBpSbIndexes (c : SchedDlCqi) (bp : Nat) : Nat × Nat :=
  (bp * c.subbandCqi.length / c.bpList.length, (bp + 1) * c.subbandCqi.length / c.bpList.length)

/-- The loop of `cqi_sb_info` over so many subbands from `sb` on. -/
def capSubbands (cqi : Nat) : Nat → Nat → List Nat → Option (List Nat)
  | 0, _, cqis => some cqis
  | count + 1, sb, cqis =>
    if sb < cqis.length then capSubbands cqi count (sb + 1) (cqis.set sb cqi) else none

theorem lt_of_capSubbands {cqi count sb bound : Nat} {cqis cqis' : List Nat} (hcqi : cqi < bound)
    (hall : ∀ v ∈ cqis, v < bound) (h : capSubbands cqi count sb cqis = some cqis') :
    ∀ v ∈ cqis', v < bound := by
  induction count generalizing sb cqis with
  | zero =>
    cases h
    exact hall
  | succ count ih =>
    unfold capSubbands at h
    split at h
    · refine ih (fun v hv => ?_) h
      rcases List.mem_or_eq_of_mem_set hv with hold | rfl
      · exact hall v hold
      · exact hcqi
    · exact nomatch h

/-- `cqi_sb_info` -/
def cqiSbInfo (c : SchedDlCqi) (sb : Nat) (cqi : Cqi) : Option SchedDlCqi :=
  let bp := c.getBpIndex sb
  let interv := c.getBpSbIndexes bp
  if bp < c.bpList.length then
    match h : capSubbands cqi (interv.2 - interv.1) interv.1 c.subbandCqi with
    | none => none
    | some cqis =>
      some {
        c with
        bpList := c.bpList.set bp true
        subbandCqi := cqis
        subbandCqi_lt := lt_of_capSubbands cqi.lt_intMax c.subbandCqi_lt h }
  else none

/-- `reset_cqi` -/
def resetCqi (c : SchedDlCqi) (cqi : Cqi) : SchedDlCqi :=
  { c with
    wbCqiAvg := cqi
    bpList := c.bpList.map fun _ => false
    wbCqiAvg_lt := cqi.lt_intMax }

/-! ### The choice of RBGs -/

variable {n : Nat}

/-- `get_rbg_cqi` in a cell with `n` RBGs -/
def getRbgCqi (c : SchedDlCqi) (n rbg : Nat) : Nat :=
  if !c.subbandCqiEnabled then c.wbCqiAvg else c.getSubbandCqi (c.rbgToSbIndex n rbg)

/-- The loop that collects the positions of a mask from `pos` on. Each round moves at least one
position, so `n` rounds reach the end. The vectors have room for every position of a mask. -/
def collectFrom (mask : BoundedBitset n) : Nat → Nat → Option (List Nat)
  | 0, _ => some []
  | fuel + 1, pos =>
    match mask.findLowest pos n true with
    | none => none
    | some none => some []
    | some (some rbg) => (collectFrom mask fuel (rbg + 1)).map (rbg :: ·)

/-- `std::stable_sort` of positions, with the highest CQI first, which is looked up at the position
itself. Each of two elements or more is compared, so a position behind the CQIs is found. -/
def sortPositions (sortedCqis positions : List Nat) : Option (List Nat) :=
  if positions.length < 2 then some positions
  else if ∀ pos ∈ positions, pos < sortedCqis.length then
    some (positions.mergeSort fun lhs rhs => sortedCqis.getD lhs 0 ≥ sortedCqis.getD rhs 0)
  else none

/-- The loops that take RBGs out of a mask. -/
def resetEach : List Nat → BoundedBitset n → Option (BoundedBitset n)
  | [], mask => some mask
  | pos :: positions, mask => (mask.reset pos).bind (resetEach positions)

/-- `get_optim_rbgmask` -/
def getOptimRbgmask (c : SchedDlCqi) (dlMask : BoundedBitset n) (reqRbgs : Nat) (maxFlag : Bool) :
    Option (BoundedBitset n) :=
  let reqRbgs := min reqRbgs n
  if !c.subbandCqiEnabled then findAvailableRbgmask dlMask reqRbgs false
  else
    let emptymask := dlMask.compl
    if !emptymask.any ∨ reqRbgs ≥ n ∨ emptymask.count ≤ reqRbgs then some emptymask
    else do
      let positions ← collectFrom emptymask n 0
      let sortedCqis := positions.map (c.getRbgCqi n)
      let sortedCqiPos ← sortPositions sortedCqis positions
      if maxFlag then resetEach (sortedCqiPos.drop reqRbgs) emptymask
      else resetEach (sortedCqiPos.take (sortedCqiPos.length - reqRbgs)) emptymask

end SchedDlCqi

end Odss.Mac
