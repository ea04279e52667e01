import Odss.Common.TtiPoint
import Odss.Mac.SfSched

/-!
# `Odss.Mac.SchedHarq`: the HARQ processes of a user

`harq_proc` and `dl_harq_proc` (`srsenb/src/stack/mac/sched_ue_ctrl/sched_harq.cc`). What a process
holds of each transport block is a record, where the source has one array for each field.
-/

set_option linter.all false

namespace Odss.Mac

open Odss.Common

/-- The index of a transport block, below `SRSRAN_MAX_TB`. -/
abbrev TbIdx := Fin 2

/-! ### Processes -/

/-- What `harq_proc` holds of one transport block. -/
structure HarqTb where
  ackState : Bool := false
  active : Bool := false
  ndi : Bool := false
  nRtx : Nat := 0
  txCnt : Nat := 0
  lastMcs : Int := 0
  lastTbs : Int := 0
deriving DecidableEq

/-- `harq_proc`. A default `tti_point` is the largest 32-bit number. Every function adds to it
first, and the sum wraps around, so it is read as the last point of the space. -/
structure HarqProc where
  tb : TbIdx → HarqTb := fun _ => {}
  id : Nat := 0
  maxRetx : Nat := 5
  tti : TtiPoint := TtiPoint.ofNat 10239

namespace HarqProc

/-- The process with another record for one transport block. -/
def setTb (h : HarqProc) (i : TbIdx) (b : HarqTb) : HarqProc :=
  { h with tb := Function.update h.tb i b }

/-- `reset`, which leaves the NDI. -/
def reset (h : HarqProc) (i : TbIdx) : HarqProc :=
  { h.setTb i
      { ackState := false, active := false, ndi := (h.tb i).ndi, nRtx := 0, txCnt := 0,
        lastMcs := -1, lastTbs := -1 } with
    tti := TtiPoint.ofNat 0 }

theorem neZero_tbs : NeZero 2 := ⟨by decide⟩

/-- `is_empty` of a transport block -/
def isEmptyTb (h : HarqProc) (i : TbIdx) : Bool := !(h.tb i).active

/-- `is_empty` -/
def isEmpty (h : HarqProc) : Bool := h.isEmptyTb 0 && h.isEmptyTb 1

/-- `has_pending_retx_common` -/
def hasPendingRetxCommon (h : HarqProc) (i : TbIdx) : Bool :=
  (h.tb i).active && !(h.tb i).ackState

/-- `set_ack_common`, with whether it succeeds. -/
def setAckCommon (h : HarqProc) (i : TbIdx) (ack : Bool) : Bool × HarqProc :=
  if h.isEmptyTb i then (false, h)
  else
    (true, h.setTb i
      { h.tb i with ackState := ack, active := if ack then false else (h.tb i).active })

/-- `new_tx_common` -/
def newTxCommon (h : HarqProc) (i : TbIdx) (tti : TtiPoint) (mcs tbs : Int) (maxRetx : Nat) :
    HarqProc :=
  let h := h.reset i
  { h.setTb i
      { h.tb i with
        ndi := !(h.tb i).ndi, txCnt := (h.tb i).txCnt + 1, lastMcs := mcs, lastTbs := tbs,
        active := true } with
    tti := tti, maxRetx := maxRetx }

/-- `new_retx_common`. The MCS and the TBS that it returns are `lastMcs` and `lastTbs`. -/
def newRetxCommon (h : HarqProc) (i : TbIdx) (tti : TtiPoint) : HarqProc :=
  { h.setTb i { h.tb i with ackState := false, nRtx := (h.tb i).nRtx + 1 } with tti := tti }

/-- `reset_pending_data_common` -/
def resetPendingDataCommon (h : HarqProc) : HarqProc :=
  { h with tb := fun i => { h.tb i with active := false } }

end HarqProc

/-- `dl_harq_proc`, in a cell with `g` RBGs. -/
structure DlHarqProc (g : Nat) extends HarqProc where
  rbgmask : BoundedBitset g := BoundedBitset.empty g
  nCce : Nat := 0

namespace DlHarqProc

variable {g : Nat}

/-- `has_pending_retx` of a transport block -/
def hasPendingRetxTb (h : DlHarqProc g) (i : TbIdx) (ttiTxDl : TtiPoint) : Bool :=
  ttiTxDl.ge h.tti.toTxDlAck && h.hasPendingRetxCommon i

/-- `has_pending_retx` -/
def hasPendingRetx (h : DlHarqProc g) (ttiTxDl : TtiPoint) : Bool :=
  h.hasPendingRetxTb 0 ttiTxDl || h.hasPendingRetxTb 1 ttiTxDl

/-- The test of `new_tti`: a transport block with a pending retransmission has used up its
transmissions. -/
def exhausted (h : DlHarqProc g) (ttiTxDl : TtiPoint) (i : TbIdx) : Bool :=
  h.hasPendingRetxTb i ttiTxDl && decide ((h.tb i).nRtx + 1 ≥ h.maxRetx)

/-- `new_tti` -/
def newTti (h : DlHarqProc g) (ttiTxDl : TtiPoint) : DlHarqProc g :=
  { h with
    tb := fun i => if h.exhausted ttiTxDl i then { h.tb i with active := false } else h.tb i }

/-- `new_tx` -/
def newTx (h : DlHarqProc g) (mask : BoundedBitset g) (i : TbIdx) (ttiTxDl : TtiPoint)
    (mcs tbs : Int) (nCce maxRetx : Nat) : DlHarqProc g :=
  { h with
    toHarqProc := h.newTxCommon i ttiTxDl mcs tbs maxRetx, rbgmask := mask, nCce := nCce }

/-- `new_retx` -/
def newRetx (h : DlHarqProc g) (mask : BoundedBitset g) (i : TbIdx) (ttiTxDl : TtiPoint)
    (nCce : Nat) : DlHarqProc g :=
  { h with toHarqProc := h.newRetxCommon i ttiTxDl, rbgmask := mask, nCce := nCce }

/-- `set_ack` -/
def setAck (h : DlHarqProc g) (i : TbIdx) (ack : Bool) : Bool × DlHarqProc g :=
  let (success, p) := h.setAckCommon i ack
  (success, { h with toHarqProc := p })

/-- `reset_pending_data` -/
def resetPendingData (h : DlHarqProc g) : DlHarqProc g :=
  { h with toHarqProc := h.resetPendingDataCommon }

/-- `reset` of both transport blocks. -/
def resetAll (h : DlHarqProc g) : DlHarqProc g :=
  { h with toHarqProc := (h.toHarqProc.reset 0).reset 1 }

end DlHarqProc

end Odss.Mac
