import Odss.Mac.SchedHarq
import Odss.Mac.SchedUeCell

/-!
# `Odss.Mac.Format2a`: DCIs for two transport blocks

`generate_format2a` and `allocate_new_dl_mac_pdu` of `sched_ue` (`srsenb/src/stack/mac/sched_ue.cc`)
on the HARQ process of the grant. What the search for an MCS and the logical channels give for a
new PDU is an argument. The resource allocation, a copy of the mask, and log output are left out.
-/

set_option linter.all false

namespace Odss.Mac

open Odss.Common

variable {g : Nat}

/-- The fields of `srsran_dci_tb_t`. -/
structure DciTb where
  mcsIdx : Nat
  rv : Nat
  ndi : Bool
  cwIdx : Nat
deriving DecidableEq, Repr

/-- `SRSRAN_DCI_IS_TB_EN` -/
def DciTb.isEn (t : DciTb) : Bool := !(t.mcsIdx == 0 && t.rv == 1)

/-- `SRSRAN_DCI_TB_DISABLE` -/
def DciTb.disable (t : DciTb) : DciTb := { t with mcsIdx := 0, rv := 1 }

/-- `get_rvidx` -/
def getRvidx (retxIdx : Nat) : Nat := [0, 2, 3, 1].getD (retxIdx % 4) 0

/-- A number as a 32-bit one. -/
def asUint32 (v : Int) : Nat := (v % 2 ^ 32).toNat

/-- What `compute_mcs_and_tbs` returns for a new PDU, and the `rem_tbs` that the MAC CEs and SDUs
leave of it. -/
structure NewPdu extends TbsInfo where
  remTbs : Int

/-- What a call depends on besides the HARQ process: `dl_ri`, the mask, the TTI, `location.ncce`,
`maxharq_tx`, and the new PDUs of the transport blocks. -/
structure Format2aArgs (g : Nat) where
  dlRi : Nat
  userMask : BoundedBitset g
  ttiTxDl : TtiPoint
  ncce : Nat
  maxharqTx : Nat
  newPdu : TbIdx → NewPdu

/-- What a call writes to `dl_sched_data_t`. -/
structure DlData where
  tb : TbIdx → DciTb
  tbs : TbIdx → Nat

namespace Format2aArgs

variable (x : Format2aArgs g)

/-- `allocate_new_dl_mac_pdu` -/
def allocateNewDlMacPdu (h : DlHarqProc g) (i : TbIdx) : TbsInfo × DlHarqProc g :=
  let pdu := x.newPdu i
  if pdu.remTbs ≠ pdu.tbsBytes then
    (pdu.toTbsInfo, h.newTx x.userMask i x.ttiTxDl pdu.mcs pdu.tbsBytes x.ncce x.maxharqTx)
  else (⟨0, 0⟩, h)

attribute [local instance] Odss.Mac.HarqProc.neZero_tbs

/-- `tb_en` and `no_retx` -/
def tbEn (h : DlHarqProc g) : (TbIdx → Bool) × Bool :=
  if x.dlRi = 0 then
    if h.isEmptyTb 1 then (fun i => i = 0, true) else (fun i => i = 1, true)
  else
    let noRetx := h.isEmptyTb 0 && h.isEmptyTb 1
    if noRetx then (fun _ => true, true) else (fun i => !h.isEmptyTb i, false)

/-- The transmission in one round of the loop. -/
def transmit (tbEn : Bool) (noRetx : Bool) (h : DlHarqProc g) (i : TbIdx) :
    TbsInfo × DlHarqProc g :=
  if !h.isEmptyTb i then
    let h' := h.newRetx x.userMask i x.ttiTxDl x.ncce
    (⟨(h'.tb i).lastTbs, (h'.tb i).lastMcs⟩, h')
  else if tbEn && noRetx then x.allocateNewDlMacPdu h i
  else (.unset, h)

/-- The DCI fields of a transport block that is sent. -/
def dciTb (h : DlHarqProc g) (mcs : Int) (i : TbIdx) : DciTb :=
  let t : DciTb := ⟨asUint32 mcs, getRvidx (h.tb i).nRtx, (h.tb i).ndi, i.val⟩
  if t.isEn then t else { t with rv := 2 }

/-- One round of the loop. -/
def round (tbEn : TbIdx → Bool) (noRetx : Bool) (i : TbIdx) (r : DlData × DlHarqProc g) :
    DlData × DlHarqProc g :=
  let (tbinfo, h) := x.transmit (tbEn i) noRetx r.2 i
  if tbinfo.tbsBytes > 0 ∧ tbEn i then
    (⟨Function.update r.1.tb i (dciTb h tbinfo.mcs i),
      Function.update r.1.tbs i (asUint32 tbinfo.tbsBytes)⟩, h)
  else
    (⟨Function.update r.1.tb i (r.1.tb i).disable, Function.update r.1.tbs i 0⟩, h)

/-- `generate_format2a`, with the data and the process. The result of the call is the sum of the
sizes. -/
def generateFormat2a (data : DlData) (h : DlHarqProc g) : Int × DlData × DlHarqProc g :=
  let (tbEn, noRetx) := x.tbEn h
  let r := x.round tbEn noRetx 1 (x.round tbEn noRetx 0 (data, h))
  (Int.bmod (r.1.tbs 0 + r.1.tbs 1) (2 ^ 32), r)

end Format2aArgs

end Odss.Mac
