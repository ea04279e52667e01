import Odss.Lib.Run
import Odss.Mac.SfCchAllocator
import Odss.Mac.SfSched

/-!
# `Odss.Mac.Subframe`: all allocations of one subframe

`sf_sched` with its grid `sf_grid_t` (`srsenb/src/stack/mac/sched_grid.cc`): to the data of the
users come the broadcast and RAR allocations, the PRBs that are reserved at the start of a
subframe, and the grants of a Msg3. The DCIs of control allocations are generated in
`sched_phy_ch/sched_dci.cc`. `none` is a failing assertion.

The code rate of a control allocation is a floating point number, and so is the duration of a
preamble: `format1aFits` and `prachInWindow` of the cell stand for them. `SfCchAllocator.toPdcch` is
the PDCCH of the code.
-/

set_option linter.all false

namespace Odss.Mac

open Odss.Lib

/-! ### Configuration -/

/-- `rbg_interval`, which is the same kind of interval. -/
abbrev RbgInterval := PrbInterval

/-- `MAX_SIBS` -/
abbrev maxSibs : Nat := 16

/-- What the subframe reads of `sched_cell_params_t`. -/
structure SubframeCell (p : Nat) where
  /-- The part that the PDCCH reads. -/
  cch : SfCchAllocator.CellParams
  nofPrb_eq : cch.nofPrb = p
  nrbPucch : Int
  /-- `srsran_prach_in_window_config_fdd` for a TTI -/
  prachInWindow : Nat → Bool
  prachFreqOffset : Nat
  /-- `len` of the SIBs -/
  sibLen : Fin maxSibs → Nat
  /-- `generate_ra_bc_dci_format1a_common` succeeds, for a TTI, the bytes, the RBGs and the CFI. -/
  format1aFits : Nat → Nat → RbgInterval → Nat → Bool
  /-- `logger.info.enabled()` -/
  infoEnabled : Bool

/-- `to_tx_dl` -/
def toTxDl (ttiRx : Nat) : Nat := (ttiRx + 4) % 10240

/-- `to_tx_ul` -/
def toTxUl (ttiRx : Nat) : Nat := (ttiRx + 8) % 10240

namespace SubframeCell

variable {p : Nat} (cell : SubframeCell p)

/-- The PUCCH resource of the last CCE, in 16 bits. -/
def lastNPucch : Nat :=
  (cell.cch.nofCceTable (cell.cch.maxNofCtrlSymbols - 1) + 2 ^ 16 - 1 + cell.cch.nPucch1) % 2 ^ 16

/-- The PRBs at each edge that `init` reserves for HARQ-ACK. -/
def harqPucch : Nat :=
  if cell.cch.pucchHarqMaxRb > 0 then cell.cch.pucchHarqMaxRb.toNat
  else SfCchAllocator.pucchM cell.cch cell.lastNPucch / 2 + 1

/-- `pucch_nrb` -/
def pucchNrb : Nat := max cell.nrbPucch.toNat cell.harqPucch

/-- `pucch_mask` -/
def pucchMask : Option (BoundedBitset p) :=
  if cell.pucchNrb > 0 then
    match (BoundedBitset.empty p).fill 0 cell.pucchNrb with
    | none => none
    | some mask => mask.fill (p - cell.pucchNrb) p
  else some (.empty p)

/-- The PRBs of the PRACH in an UL subframe. -/
def prachMask (ttiTxUl : Nat) : Option (BoundedBitset p) :=
  if cell.prachInWindow ttiTxUl then
    (BoundedBitset.empty p).fill cell.prachFreqOffset (cell.prachFreqOffset + 6)
  else some (.empty p)

/-- `max_msg3_prb` -/
def maxMsg3Prb : UInt32 := UInt32.ofNat (max 6 (p - cell.pucchNrb))

end SubframeCell

/-- `sf_cch_allocator` with the calls for control allocations: `allocCtrlDci` has the aggregation
level and the type of the allocation. -/
structure CtrlPdcch (p g : Nat) (κ : Type) extends Pdcch p g κ where
  newTti : Nat → κ
  allocCtrlDci : κ → Fin 4 → SfCchAllocator.AllocType → Option κ
  remLastDci : κ → κ
  nofAllocs : κ → Nat
  cfi : κ → Nat

/-- The allocator of the code, for the users that it sees and their aggregation levels. An
assertion that fails in it is no allocation here. -/
def SfCchAllocator.toPdcch {p g : Nat} (cc : SfCchAllocator.CellParams)
    (asUser : Mac.SchedUe p g → SfCchAllocator.SchedUe)
    (aggrIdx : Mac.SchedUe p g → SfCchAllocator.AllocType → Fin 4) :
    CtrlPdcch p g (SfCchAllocator.State cc) where
  allocDci := fun s user => allocated (SfCchAllocator.allocDci s
    ⟨false, aggrIdx user .ulData, .ulData, some (asUser user), fun _ => rfl⟩)
  allocDlDci := fun s user hasPuschGrant => allocated (SfCchAllocator.allocDci s
    ⟨hasPuschGrant, aggrIdx user .dlData, .dlData, some (asUser user), fun _ => rfl⟩)
  newTti := SfCchAllocator.newTti
  allocCtrlDci := fun s aggrIdx type =>
    if h : isDlCtrlAlloc type then
      allocated (SfCchAllocator.allocDci s ⟨false, aggrIdx, type, none, fun hdata =>
        -- A control allocation is not one for data.
        absurd h (by rcases hdata with rfl | rfl <;> decide)⟩)
    else none
  remLastDci := fun s => (SfCchAllocator.remLastDci s).getD s
  nofAllocs := fun s => s.records.length
  cfi := fun s => s.path.cfix + 1
where
  /-- The state of an allocation that succeeds. -/
  allocated : Option (SfCchAllocator.State cc × Bool) → Option (SfCchAllocator.State cc)
    | some (s, true) => some s
    | _ => none

/-! ### State -/

/-- `ctrl_alloc_t` -/
structure CtrlAlloc where
  dciIdx : Nat
  rbgRange : RbgInterval
  reqBytes : Nat

/-- `dl_sched_rar_info_t`, by the RNTI that it gives. -/
structure RarInfo where
  tempCrnti : Nat

/-- `dl_sched_rar_grant_t` -/
structure RarGrant where
  data : RarInfo
  tpcPusch : Nat
  truncMcs : Nat
  rba : UInt32

/-- `rar_alloc_t` -/
structure RarAlloc extends CtrlAlloc where
  msg3Grant : List RarGrant

/-- `MAX_BC_LIST` -/
abbrev maxBcList : Nat := 8

/-- `MAX_RAR_LIST` -/
abbrev maxRarList : Nat := 8

/-- The state of `sf_sched`. -/
structure Subframe (p g : Nat) (κ : Type) extends SfSched p g κ where
  bcAllocs : List CtrlAlloc
  rarAllocs : List RarAlloc
  lastMsg3Prb : UInt32

namespace Subframe

variable {p g : Nat} {κ : Type} (cell : SubframeCell p) (cch : CtrlPdcch p g κ)

/-- `new_tti`, after `init` -/
def newTti (ttiRx : Nat) : Option (Subframe p g κ) :=
  match cell.pucchMask, cell.prachMask (toTxUl ttiRx) with
  | some pucchMask, some prachMask =>
    some {
      ttiRx := ttiRx
      dlMask := .empty g
      ulMask := ((BoundedBitset.empty p).union pucchMask).union prachMask
      dataAllocs := []
      ulDataAllocs := []
      pdcch := cch.newTti ttiRx
      bcAllocs := []
      rarAllocs := []
      -- A Msg3 is sent two subframes later than other UL data.
      lastMsg3Prb := UInt32.ofNat (if cell.prachInWindow ((toTxUl ttiRx + 2) % 10240) then
        max cell.pucchNrb (cell.prachFreqOffset + 6) else cell.pucchNrb) }
  | _, _ => none

/-! ### Control allocations -/

/-- `sf_grid_t::alloc_dl_ctrl` -/
def allocDlCtrl (s : Subframe p g κ) (aggrIdx : Fin 4) (rbgs : RbgInterval)
    (type : SfCchAllocator.AllocType) : Option (AllocResult × Subframe p g κ) :=
  if !SfCchAllocator.isDlCtrlAlloc type then some (.otherCause, s)
  else if rbgs.stop > g then some (.schCollision, s)
  else
    match (BoundedBitset.empty g).fill rbgs.start rbgs.stop with
    | none => none
    | some mask =>
      let (code, sched) := s.allocDl mask fun pdcch => cch.allocCtrlDci pdcch aggrIdx type
      some (code, { s with toSfSched := sched })

/-- `sf_grid_t::rem_last_alloc_dl` -/
def remLastAllocDl (s : Subframe p g κ) (rbgs : RbgInterval) : Option (Subframe p g κ) :=
  if cch.nofAllocs s.pdcch = 0 then some s
  else
    match (BoundedBitset.empty g).fill rbgs.start rbgs.stop with
    | none => none
    | some mask =>
      some { s with
        pdcch := cch.remLastDci s.pdcch
        dlMask := s.dlMask.inter mask.compl }

/-- What `alloc_sib`, `alloc_paging` and `alloc_rar` do in the same way: they allocate RBGs and CCEs
and generate the DCI for the CFI. Without a DCI the allocation is cancelled. -/
def allocWithDci {δ : Type} (s : Subframe p g κ) (aggrIdx : Fin 4) (rbgs : RbgInterval)
    (type : SfCchAllocator.AllocType) (generate : Nat → Option (Option δ)) :
    Option (Except AllocResult δ × Subframe p g κ) :=
  match s.allocDlCtrl cch aggrIdx rbgs type with
  | none => none
  | some (.success, s) =>
    match generate (cch.cfi s.pdcch) with
    | none => none
    | some none =>
      match s.remLastAllocDl cch rbgs with
      | none => none
      | some s => some (.error .invalidCoderate, s)
    | some (some dci) => some (.ok dci, s)
  | some (code, s) => some (.error code, s)

/-- The DCI of a SIB or of a paging message, of which only the success is modelled. -/
def generateBcDci (ttiTxDl reqBytes : Nat) (rbgs : RbgInterval) (cfi : Nat) : Option (Option Unit) :=
  some (if cell.format1aFits ttiTxDl reqBytes rbgs cfi then some () else none)

/-- What `alloc_sib` and `alloc_paging` do for a number of bytes. -/
def allocBc (s : Subframe p g κ) (aggrIdx : Fin 4) (type : SfCchAllocator.AllocType)
    (reqBytes : Nat) (rbgs : RbgInterval) : Option (AllocResult × Subframe p g κ) :=
  if s.bcAllocs.length ≥ maxBcList then some (.noGrantSpace, s)
  else
    match s.allocWithDci cch aggrIdx rbgs type (generateBcDci cell (toTxDl s.ttiRx) reqBytes rbgs) with
    | none => none
    | some (.error code, s) => some (code, s)
    | some (.ok (), s) =>
      some (.success, { s with
        bcAllocs := s.bcAllocs ++ [⟨cch.nofAllocs s.pdcch - 1, rbgs, reqBytes⟩] })

/-- `alloc_sib` -/
def allocSib (s : Subframe p g κ) (aggrIdx : Fin 4) (sibIdx : Fin maxSibs) (rbgs : RbgInterval) :
    Option (AllocResult × Subframe p g κ) :=
  s.allocBc cell cch aggrIdx .dlBc (cell.sibLen sibIdx) rbgs

/-- `alloc_paging` -/
def allocPaging (s : Subframe p g κ) (aggrIdx : Fin 4) (pagingPayload : Nat) (rbgs : RbgInterval) :
    Option (AllocResult × Subframe p g κ) :=
  s.allocBc cell cch aggrIdx .dlPcch pagingPayload rbgs

/-- `srsran_ra_type2_to_riv` -/
def raType2ToRiv (lCrb rbStart nofPrb : UInt32) : UInt32 :=
  if lCrb - 1 ≤ nofPrb / 2 then nofPrb * (lCrb - 1) + rbStart
  else nofPrb * (nofPrb - lCrb + 1) + nofPrb - 1 - rbStart

/-- The loop of `generate_rar_dci` over the grants, with the first PRB of the next Msg3. -/
def msg3Grants (nofPrb : UInt32) : List RarInfo → UInt32 → List RarGrant
  | [], _ => []
  | info :: infos, startMsg3Prb =>
    { data := info
      tpcPusch := 3
      truncMcs := 0
      rba := raType2ToRiv 3 startMsg3Prb nofPrb } :: msg3Grants nofPrb infos (startMsg3Prb + 3)

/-- `generate_rar_dci`, with the grants of the RAR as the result -/
def generateRarDci (ttiTxDl : Nat) (pendingRar : List RarInfo) (rbgs : RbgInterval)
    (nofGrants startMsg3Prb : UInt32) (cfi : Nat) : Option (Option (List RarGrant)) :=
  if !cell.format1aFits ttiTxDl (7 * nofGrants + 1).toNat rbgs cfi then some none
  else if nofGrants.toNat ≤ maxRarList ∧ nofGrants.toNat ≤ pendingRar.length then
    some (some (msg3Grants (UInt32.ofNat p) (pendingRar.take nofGrants.toNat) startMsg3Prb))
  else none

/-- `alloc_rar` -/
def allocRar (s : Subframe p g κ) (aggrIdx : Fin 4) (rar : List RarInfo) (rbgs : RbgInterval)
    (nofGrants : UInt32) : Option (AllocResult × Subframe p g κ) :=
  if s.rarAllocs.length ≥ maxRarList then some (.noGrantSpace, s)
  else
    let bufRar := 7 * nofGrants + 1
    let totalUlNofPrbs := 3 * nofGrants
    if s.lastMsg3Prb + totalUlNofPrbs > cell.maxMsg3Prb then some (.schCollision, s)
    else
      match s.allocWithDci cch aggrIdx rbgs .dlRar
          (generateRarDci cell (toTxDl s.ttiRx) rar rbgs nofGrants s.lastMsg3Prb) with
      | none => none
      | some (.error code, s) => some (code, s)
      | some (.ok grants, s) =>
        some (.success, { s with
          rarAllocs := s.rarAllocs ++
            [⟨⟨cch.nofAllocs s.pdcch - 1, rbgs, bufRar.toNat⟩, grants⟩]
          lastMsg3Prb := s.lastMsg3Prb + totalUlNofPrbs * nofGrants })

/-! ### Users -/

/-- `alloc_dl_user` -/
def allocDlUser (s : Subframe p g κ) (user : SchedUe p g) (userMask : BoundedBitset g) (pid : Nat)
    (pidEmpty : Bool) : Option (AllocResult × Subframe p g κ) :=
  match s.toSfSched.allocDlUser cch.toPdcch user userMask pid pidEmpty with
  | none => none
  | some (code, sched) => some (code, { s with toSfSched := sched })

/-- `alloc_ul_user` -/
def allocUlUser (s : Subframe p g κ) (user : SchedUe p g) (alloc : PrbInterval) :
    Option (AllocResult × Subframe p g κ) :=
  match s.toSfSched.allocUlUser cch.toPdcch user alloc with
  | none => none
  | some (code, sched) => some (code, { s with toSfSched := sched })

/-- `srsran_ra_type2_from_riv`, with the length before the start -/
def raType2FromRiv (riv nofPrb nofVrb : UInt32) : UInt32 × UInt32 :=
  let lCrb := riv / nofPrb + 1
  let rbStart := riv % nofPrb
  if lCrb > nofVrb - rbStart then (nofPrb - riv / nofPrb + 1, nofPrb - riv % nofPrb - 1)
  else (lCrb, rbStart)

/-- `riv_to_prbs`, which asserts that the interval is not inverted. -/
def rivToPrbs (riv nofPrbs : UInt32) : Option PrbInterval :=
  let (lCrb, rbStart) := raType2FromRiv riv nofPrbs nofPrbs
  if h : rbStart.toNat ≤ (rbStart + lCrb).toNat then some ⟨rbStart.toNat, (rbStart + lCrb).toNat, h⟩
  else none

/-- `alloc_msg3` for the RIV of the grant -/
def allocMsg3 (s : Subframe p g κ) (user : SchedUe p g) (rba : UInt32) :
    Option (AllocResult × Subframe p g κ) :=
  match rivToPrbs rba (UInt32.ofNat p) with
  | none => none
  | some msg3Alloc =>
    match s.allocUl cch.toPdcch user msg3Alloc .newtx true with
    | none => none
    | some (code, sched) => some (code, { s with toSfSched := sched })

/-! ### Reserved resources -/

/-- `reserve_dl_rbgs` -/
def reserveDlRbgs (s : Subframe p g κ) (startRbg endRbg : Nat) : Option (Subframe p g κ) :=
  match s.dlMask.fill startRbg endRbg with
  | none => none
  | some mask => some { s with dlMask := mask }

/-- `reserve_ul_prbs`. A collision is only a result where it is logged. -/
def reserveUlPrbs (s : Subframe p g κ) (prbmask : BoundedBitset p) (strict : Bool) :
    AllocResult × Subframe p g κ :=
  (if strict && (s.ulMask.inter prbmask).any && cell.infoEnabled then .schCollision else .success,
    { s with ulMask := s.ulMask.union prbmask })

/-- `set_ul_mask` -/
def setUlMask (s : Subframe p g κ) (newUlMask : BoundedBitset p) : Subframe p g κ :=
  { s with ulMask := newUlMask }

/-! ### Calls -/

/-- The calls in a subframe. -/
inductive Op (p g : Nat) where
  | allocSib (aggrIdx : Fin 4) (sibIdx : Fin maxSibs) (rbgs : RbgInterval)
  | allocPaging (aggrIdx : Fin 4) (pagingPayload : Nat) (rbgs : RbgInterval)
  | allocRar (aggrIdx : Fin 4) (rar : List RarInfo) (rbgs : RbgInterval) (nofGrants : UInt32)
  | allocDlUser (user : SchedUe p g) (userMask : BoundedBitset g) (pid : Nat) (pidEmpty : Bool)
  | allocUlUser (user : SchedUe p g) (alloc : PrbInterval)
  | allocMsg3 (user : SchedUe p g) (rba : UInt32)
  | reserveDlRbgs (startRbg endRbg : Nat)
  | reserveUlPrbs (prbmask : BoundedBitset p) (strict : Bool)
  | setUlMask (newUlMask : BoundedBitset p)

/-- A call with its result, which is a success for the calls without one. -/
def call (s : Subframe p g κ) : Op p g → Option (AllocResult × Subframe p g κ)
  | .allocSib aggrIdx sibIdx rbgs => s.allocSib cell cch aggrIdx sibIdx rbgs
  | .allocPaging aggrIdx payload rbgs => s.allocPaging cell cch aggrIdx payload rbgs
  | .allocRar aggrIdx rar rbgs nofGrants => s.allocRar cell cch aggrIdx rar rbgs nofGrants
  | .allocDlUser user userMask pid pidEmpty => s.allocDlUser cch user userMask pid pidEmpty
  | .allocUlUser user alloc => s.allocUlUser cch user alloc
  | .allocMsg3 user rba => s.allocMsg3 cch user rba
  | .reserveDlRbgs startRbg endRbg => (s.reserveDlRbgs startRbg endRbg).map fun s => (.success, s)
  | .reserveUlPrbs prbmask strict => some (s.reserveUlPrbs cell prbmask strict)
  | .setUlMask newUlMask => some (.success, s.setUlMask newUlMask)

/-- `call` as the step of a run -/
def step (s : Subframe p g κ) (op : Op p g) : Option (Subframe p g κ × AllocResult) :=
  (s.call cell cch op).map Prod.swap

end Subframe

end Odss.Mac
