import Odss.Mac.FalsePosition
import Odss.Mac.SchedPhyResource
import Odss.Phy.Dci

/-!
# `Odss.Mac.SchedUeCell`: the RBGs of a DL grant

`find_optimal_rbgmask` (`srsenb/src/stack/mac/sched_ue_ctrl/sched_ue_cell.cc`), with the removal of
the RBGs that have the lowest CQI (`sched_dl_cqi.cc`). A cell has `n` RBGs. `none` is a failing
assertion of a bitset, a shift by a negative number, or a loop that has not ended within the fuel.

The MCS and the TBS come from a code rate in `float`, so `cqi_to_tbs_dl` is a field of the carrier.
The values of the CQI are whole numbers, which `float` holds exactly.
-/

set_option linter.all false

namespace Odss.Mac

open FalsePosition (Bracket Crossing falsePositionMethod)

/-! ### PRBs of a mask -/

/-- `cell_nof_rbg_to_prb`. Other numbers fail an assertion. -/
def cellNofRbgToPrb : Nat → Nat
  | 6 => 6
  | 8 => 15
  | 13 => 25
  | 17 => 50
  | 19 => 75
  | 25 => 100
  | _ => 0

/-- The numbers of RBGs that a cell can have. -/
def cellNofRbgs : List Nat := [6, 8, 13, 17, 19, 25]

/-- `count_prb_per_tb`: the last RBG of a cell can be smaller. -/
def countPrbPerTb {n : Nat} (mask : BoundedBitset n) : Nat :=
  let nprb := cellNofRbgToPrb n
  let p := Phy.Dci.raType0P nprb
  let nofPrb := p * mask.count
  if mask.bit (n - 1) then nofPrb - (n * p - nprb) else nofPrb

/-! ### CQI -/

/-- The maximum of an `int`. -/
abbrev intMax : Nat := 2 ^ 31 - 1

/-- `sched_dl_cqi`: the wideband CQI, those of the subbands, and the bandwidth parts, which are
given by whether there was feedback for them. -/
structure SchedDlCqi where
  k : Nat
  wbCqiAvg : Nat
  bpList : List Bool
  subbandCqi : List Nat
  wbCqiAvg_lt : wbCqiAvg < intMax
  subbandCqi_lt : ∀ cqi ∈ subbandCqi, cqi < intMax

namespace SchedDlCqi

/-- `subband_cqi_enabled` -/
def subbandCqiEnabled (c : SchedDlCqi) : Bool := decide (c.k > 0)

/-- `rbg_to_sb_index` in a cell with `n` RBGs -/
def rbgToSbIndex (c : SchedDlCqi) (n rbg : Nat) : Nat := rbg * c.subbandCqi.length / n

/-- `get_bp_index` -/
def getBpIndex (c : SchedDlCqi) (sb : Nat) : Nat := sb * c.bpList.length / c.subbandCqi.length

/-- `get_subband_cqi` -/
def getSubbandCqi (c : SchedDlCqi) (sb : Nat) : Nat :=
  if !c.subbandCqiEnabled then c.wbCqiAvg
  else if c.bpList.getD (c.getBpIndex sb) false then c.subbandCqi.getD sb 0
  else c.wbCqiAvg

variable {n : Nat} (c : SchedDlCqi) (mask : BoundedBitset n)

/-- The loop of `find_min_cqi_rbgs` from the position `pos`, with the lowest CQI so far and its
RBGs. Each round moves at least one position, so `n` rounds reach the end. -/
def findMinCqiFrom : Nat → Nat → Nat → BoundedBitset n → Option (Nat × BoundedBitset n)
  | 0, _, minCqi, minMask => some (minCqi, minMask)
  | fuel + 1, pos, minCqi, minMask =>
    match mask.findLowest pos n true with
    | none => none
    | some none => some (minCqi, minMask)
    | some (some rbg) =>
      let cqi := c.getSubbandCqi (c.rbgToSbIndex n rbg)
      if cqi < minCqi then
        match (BoundedBitset.empty n).set rbg with
        | none => none
        | some minMask => findMinCqiFrom fuel (rbg + 1) cqi minMask
      else if cqi = minCqi then
        match minMask.set rbg with
        | none => none
        | some minMask => findMinCqiFrom fuel (rbg + 1) minCqi minMask
      else findMinCqiFrom fuel (rbg + 1) minCqi minMask

/-- `find_min_cqi_rbgs` -/
def findMinCqiRbgs : Option (Int × BoundedBitset n) :=
  if !mask.any then some (-1, mask)
  else if !c.subbandCqiEnabled then some (c.wbCqiAvg, mask)
  else
    match c.findMinCqiFrom mask n 0 intMax (.empty n) with
    | none => none
    | some (minCqi, minMask) => some (if minCqi = intMax then -1 else minCqi, minMask)

/-- `remove_min_cqi_rbgs` -/
def removeMinCqiRbgs : Option (BoundedBitset n) :=
  match c.findMinCqiRbgs mask with
  | none => none
  | some (minCqi, minMask) => if minCqi < 0 then some minMask else some (minMask.compl.inter mask)

end SchedDlCqi

/-! ### Search -/

/-- `tbs_info` -/
structure TbsInfo where
  tbsBytes : Int
  mcs : Int
deriving DecidableEq, Repr

/-- `tbs_info{}` -/
def TbsInfo.unset : TbsInfo := ⟨-1, 0⟩

/-- `interval<uint32_t>` of bytes -/
structure ByteInterval where
  start : Nat
  stop : Nat
  le : start ≤ stop
  stop_lt : stop < 2 ^ 32

/-- A `uint32_t` as an `int`. -/
def asInt (v : Nat) : Int := Int.bmod v (2 ^ 32)

/-- What the search reads of a `sched_ue_cell`, for the DCI format and the RE of a TTI.
`get_tbs_bytes` divides a table entry, so the TBS of PRBs is not negative. -/
structure SchedUeCell (n : Nat) where
  dlCqi : SchedDlCqi
  /-- `cqi_to_tbs_dl` -/
  cqiToTbsDl : BoundedBitset n → TbsInfo
  tbsBytes_nonneg : ∀ mask, 0 ≤ (cqiToTbsDl mask).tbsBytes

/-- What `find_optimal_rbgmask` returns, with its output parameters. -/
structure OptimalRbgmask (n : Nat) where
  found : Bool
  tb : TbsInfo
  newtxmask : BoundedBitset n

/-- The search mask with the first RBGs. -/
def firstRbgs (n k : Nat) : BoundedBitset n := ⟨fun i => decide (i.val < k)⟩

/-- The walk along a mask: the position after so many further RBGs, where -1 is none. -/
def walkRbgs {n : Nat} (mask : BoundedBitset n) : Nat → Int → Option Int
  | 0, pos => some pos
  | k + 1, pos =>
    match mask.findLowest (pos + 1).toNat n true with
    | none => none
    | some none => walkRbgs mask k (-1)
    | some (some next) => walkRbgs mask k next

/-- `~((1U << pos) - 1U) & ((1U << n) - 1U)` -/
def wordFrom (n pos : Nat) : Nat := (2 ^ 32 - 1 - (2 ^ pos - 1)) &&& (2 ^ n - 1)

/-- The reduction of a mask to `upperNrbg` RBGs. -/
def reduceRbgmask {n : Nat} (mask : BoundedBitset n) (upperNrbg : Nat) : Option (BoundedBitset n) :=
  match walkRbgs mask (mask.count - upperNrbg) 0 with
  | none => none
  | some pos => if pos < 0 then none else BoundedBitset.fromUint64 n (wordFrom n pos.toNat)

namespace SchedUeCell

variable {n : Nat} (cell : SchedUeCell n)

/-- `compute_mcs_and_tbs_lower_bound` -/
def computeMcsAndTbsLowerBound (mask : BoundedBitset n) : TbsInfo :=
  if countPrbPerTb mask = 0 then .unset else cell.cqiToTbsDl mask

/-- `compute_tbs_approx` -/
def computeTbsApprox (nofRbgs : Int) : Int :=
  (cell.computeMcsAndTbsLowerBound (firstRbgs n nofRbgs.toNat)).tbsBytes

/-- The search for the number of RBGs of which the TBS reaches `stop`. -/
def searchNofRbgs (interpolated : Int → Bracket → Int) (fuel count : Nat) (stop : Int) :
    Option Crossing :=
  falsePositionMethod cell.computeTbsApprox (fun y => y == -1) stop (interpolated stop) fuel 1 count

/-- The loop for subband CQI, with the grant so far. -/
def removeRbgs (stop : Int) : Nat → TbsInfo → BoundedBitset n → Option (TbsInfo × BoundedBitset n)
  | 0, _, _ => none
  | fuel + 1, tb, newtxmask =>
    match cell.dlCqi.removeMinCqiRbgs newtxmask with
    | none => none
    | some smallerMask =>
      let tb2 := cell.computeMcsAndTbsLowerBound smallerMask
      let better := decide (tb2.tbsBytes ≥ stop) || decide (tb.tbsBytes ≤ tb2.tbsBytes)
      let tb := if better then tb2 else tb
      let newtxmask := if better then smallerMask else newtxmask
      if tb2.tbsBytes > stop then removeRbgs stop fuel tb newtxmask else some (tb, newtxmask)

/-- `find_optimal_rbgmask` -/
def findOptimalRbgmask (interpolated : Int → Bracket → Int) (fuel : Nat) (dlMask : BoundedBitset n)
    (isFormat1A : Bool) (reqBytes : ByteInterval) : Option (OptimalRbgmask n) :=
  match findAvailableRbgmask dlMask n isFormat1A with
  | none => none
  | some newtxmask =>
    let tb := cell.computeMcsAndTbsLowerBound newtxmask
    if !cell.dlCqi.subbandCqiEnabled then
      if tb.tbsBytes < asInt reqBytes.start then some ⟨false, tb, newtxmask⟩
      else if tb.tbsBytes ≤ asInt reqBytes.stop then some ⟨true, tb, newtxmask⟩
      else
        match cell.searchNofRbgs interpolated fuel newtxmask.count (asInt reqBytes.stop) with
        | none => none
        | some found =>
          if found.upperValue ≥ asInt reqBytes.stop then
            match reduceRbgmask newtxmask found.upper.toNat with
            | none => none
            | some mask =>
              some ⟨true, cell.computeMcsAndTbsLowerBound (firstRbgs n found.upper.toNat), mask⟩
          else some ⟨true, tb, newtxmask⟩
    else
      match cell.removeRbgs (asInt reqBytes.stop) fuel tb newtxmask with
      | none => none
      | some (tb, mask) => some ⟨true, tb, mask⟩

end SchedUeCell

end Odss.Mac
