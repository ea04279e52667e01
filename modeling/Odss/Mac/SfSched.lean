import Odss.Mac.SchedPhyResource

/-!
# `Odss.Mac.SfSched`: the resources of one subframe

The parts of `sf_sched` and `sf_grid_t` (`srsenb/src/stack/mac/sched_grid.cc`) that allocate data
of the users, with the helpers of `schedulers/sched_base.cc`. A cell has `p` PRBs
and `g` RBGs. `none` is a failing assertion of a bitset.

The PDCCH is the parameter `Pdcch`: its search for free CCEs plays no part here. A user is given
by what the scheduler reads of it in the subframe.
-/

set_option linter.all false

namespace Odss.Mac

/-- `alloc_result` -/
inductive AllocResult where
  | success
  | schCollision
  | noCchSpace
  | noSchSpace
  | noRntiOpportunity
  | invalidGrantParams
  | invalidCoderate
  | noGrantSpace
  | otherCause
deriving DecidableEq, Repr

/-! ### Users -/

/-- `ul_harq_proc`: the first transport block, with the PRBs of its last transmission. A grant
never ends behind the cell. -/
structure UlHarq (p : Nat) where
  active : Bool
  ackState : Bool
  isMsg3 : Bool
  pdcchRequested : Bool
  allocation : PrbInterval
  allocation_le : allocation.stop ≤ p

/-- `is_empty` -/
def UlHarq.isEmpty {p : Nat} (h : UlHarq p) : Bool := !h.active

/-- `has_pending_retx` -/
def UlHarq.hasPendingRetx {p : Nat} (h : UlHarq p) : Bool := h.active && !h.ackState

/-- `retx_requires_pdcch` -/
def UlHarq.retxRequiresPdcch {p : Nat} (h : UlHarq p) (alloc : PrbInterval) : Bool :=
  alloc != h.allocation || h.pdcchRequested

/-- `dl_harq_proc` with a pending retransmission: its id and the RBGs of the last transmission. -/
structure DlHarq (g : Nat) where
  id : Nat
  rbgmask : BoundedBitset g

/-- What the scheduler reads of a `sched_ue` in a subframe. At least one PRB is required for
pending data. The functions of link adaptation are fields: they read the CQI of the user. -/
structure SchedUe (p g : Nat) where
  rnti : Nat
  /-- `enb_to_ue_cc_idx` finds the carrier -/
  carrierConfigured : Bool
  /-- `get_active_cell_index` finds the carrier -/
  carrierActive : Bool
  /-- `pusch_enabled`, which depends on the need for a PDCCH -/
  puschEnabled : Bool → Bool
  /-- `get_ul_harq` -/
  ulHarq : UlHarq p
  /-- `get_pending_ul_new_data` -/
  pendingUlNewData : Nat
  /-- `get_required_prb_ul` of these data -/
  requiredPrbUl : Nat
  requiredPrbUl_pos : 0 < pendingUlNewData → 0 < requiredPrbUl
  pdschEnabled : Bool
  /-- `get_pending_dl_harq` -/
  pendingDlHarq : Option (DlHarq g)
  /-- `get_empty_dl_harq`, by its id -/
  emptyDlHarq : Option Nat
  /-- `get_dci_format` is 1A -/
  dciFormat1a : Bool
  /-- `stop` of `get_requested_dl_bytes` -/
  requestedDlBytes : Nat
  /-- The RBGs carry `start` of `get_requested_dl_bytes`. -/
  carriesControl : BoundedBitset g → Bool
  /-- `find_optimal_rbgmask` for the occupied RBGs -/
  findOptimalRbgmask : BoundedBitset g → Option (BoundedBitset g)
  /-- Periodic CQI is expected, and the user has several carriers of which this one may send it. -/
  periodicCqi : Bool
  /-- `get_ue_cc_idx` is zero -/
  isPcell : Bool
  /-- `cc_results` has an UL allocation for the user. -/
  otherUlAlloc : Bool
  /-- `get_required_prb_ul` of the UCI -/
  requiredPrbUci : Nat

/-! ### Subframe -/

/-- `sf_cch_allocator` with the states `κ`: `allocDci` finds CCEs for an UL grant of a
user, and `allocDlDci` for DL data, with or without a PUSCH grant of the user. -/
structure Pdcch (p g : Nat) (κ : Type) where
  allocDci : κ → SchedUe p g → Option κ
  allocDlDci : κ → SchedUe p g → Bool → Option κ

/-- `ul_alloc_t::type_t` -/
inductive UlAllocType where
  | newtx
  | noadaptRetx
  | adaptRetx
deriving DecidableEq, Repr

/-- `ul_alloc_t` -/
structure UlAlloc where
  type : UlAllocType
  rnti : Nat
  alloc : PrbInterval
  isMsg3 : Bool
deriving DecidableEq

/-- `MAX_DATA_LIST` -/
abbrev maxDataList : Nat := 32

/-- `dl_alloc_t` -/
structure DlAlloc (g : Nat) where
  rnti : Nat
  userMask : BoundedBitset g
  pid : Nat

/-- The state of `sf_sched` for the data of the users. -/
structure SfSched (p g : Nat) (κ : Type) where
  ttiRx : Nat
  dlMask : BoundedBitset g
  ulMask : BoundedBitset p
  dataAllocs : List (DlAlloc g)
  ulDataAllocs : List UlAlloc
  pdcch : κ

namespace SfSched

variable {p g : Nat} {κ : Type} (cch : Pdcch p g κ)

/-- `is_dl_alloc` -/
def isDlAlloc (s : SfSched p g κ) (rnti : Nat) : Bool := s.dataAllocs.any fun u => u.rnti == rnti

/-- `is_ul_alloc` -/
def isUlAlloc (s : SfSched p g κ) (rnti : Nat) : Bool := s.ulDataAllocs.any fun u => u.rnti == rnti

/-- `sf_grid_t::alloc_ul_data` -/
def allocUlData (s : SfSched p g κ) (user : SchedUe p g) (alloc : PrbInterval)
    (needsPdcch strict : Bool) : Option (AllocResult × SfSched p g κ) :=
  if alloc.stop > p then some (.noSchSpace, s)
  else
    match (BoundedBitset.empty p).fill alloc.start alloc.stop with
    | none => none
    | some newmask =>
      if strict && (s.ulMask.inter newmask).any then some (.schCollision, s)
      else if needsPdcch then
        match cch.allocDci s.pdcch user with
        | none => some (.noCchSpace, s)
        | some pdcch =>
          some (.success, { s with
            pdcch := pdcch
            ulMask := s.ulMask.union newmask })
      else some (.success, { s with ulMask := s.ulMask.union newmask })

/-- `alloc_ul`, without the MCS of a Msg3 -/
def allocUl (s : SfSched p g κ) (user : SchedUe p g) (alloc : PrbInterval) (type : UlAllocType)
    (isMsg3 : Bool) : Option (AllocResult × SfSched p g κ) :=
  if s.ulDataAllocs.length ≥ maxDataList then some (.noGrantSpace, s)
  else if s.isUlAlloc user.rnti then some (.noRntiOpportunity, s)
  else
    let needsPdcch := type == .adaptRetx || (type == .newtx && !isMsg3)
    if !user.puschEnabled needsPdcch then some (.noRntiOpportunity, s)
    else
      -- Collisions with the PUCCH are allowed for a Msg3 in a cell of 6 PRBs.
      match s.allocUlData cch user alloc needsPdcch (!(p == 6 && isMsg3)) with
      | none => none
      | some (.success, s') =>
        some (.success, { s' with
          ulDataAllocs := s'.ulDataAllocs ++ [⟨type, user.rnti, alloc, isMsg3⟩] })
      | some r => some r

/-- `alloc_ul_user` -/
def allocUlUser (s : SfSched p g κ) (user : SchedUe p g) (alloc : PrbInterval) :
    Option (AllocResult × SfSched p g κ) :=
  let type : UlAllocType :=
    if !user.ulHarq.hasPendingRetx then .newtx
    else if user.ulHarq.retxRequiresPdcch alloc then .adaptRetx
    else .noadaptRetx
  s.allocUl cch user alloc type user.ulHarq.isMsg3

/-- The part of `try_ul_retx_alloc` that looks for other PRBs. -/
def tryUlAdaptRetx (s : SfSched p g κ) (ue : SchedUe p g) : Option (AllocResult × SfSched p g κ) :=
  if !ue.puschEnabled true then some (.noRntiOpportunity, s)
  else
    match findContiguousUlPrbs s.ulMask ue.ulHarq.allocation.length with
    | none => none
    | some alloc =>
      if alloc.length ≠ ue.ulHarq.allocation.length then some (.noSchSpace, s)
      else s.allocUlUser cch ue alloc

/-- `try_ul_retx_alloc` -/
def tryUlRetxAlloc (s : SfSched p g κ) (ue : SchedUe p g) : Option (AllocResult × SfSched p g κ) :=
  let alloc := ue.ulHarq.allocation
  if p == 6 && ue.ulHarq.isMsg3 then s.allocUlUser cch ue alloc
  else
    match s.ulMask.anyIn alloc.start alloc.stop with
    | none => none
    | some true => s.tryUlAdaptRetx cch ue
    | some false =>
      match s.allocUlUser cch ue alloc with
      | none => none
      | some (.schCollision, s') => s'.tryUlAdaptRetx cch ue
      | some r => some r

/-! ### Downlink -/

/-- `sf_grid_t::alloc_dl`, with the call `allocDci` of the PDCCH -/
def allocDl (s : SfSched p g κ) (allocMask : BoundedBitset g) (allocDci : κ → Option κ) :
    AllocResult × SfSched p g κ :=
  if (s.dlMask.inter allocMask).any then (.schCollision, s)
  else
    match allocDci s.pdcch with
    | none => (.noCchSpace, s)
    | some pdcch =>
      (.success, { s with
        pdcch := pdcch
        dlMask := s.dlMask.union allocMask })

/-- `sf_grid_t::alloc_dl_data` -/
def allocDlData (s : SfSched p g κ) (user : SchedUe p g) (userMask : BoundedBitset g)
    (hasPuschGrant : Bool) : AllocResult × SfSched p g κ :=
  s.allocDl userMask fun pdcch => cch.allocDlDci pdcch user hasPuschGrant

/-- The parts of `alloc_dl_user` that try a small UL grant for the UCI, which says whether there is
a grant then. -/
def tryUciGrant (s : SfSched p g κ) (user : SchedUe p g) : Option (Bool × SfSched p g κ) :=
  let alloc := (findUlAlloc s.ulMask user.requiredPrbUci).2
  if alloc.isEmpty then some (false, s)
  else
    match s.allocUlUser cch user alloc with
    | none => none
    | some (code, s') => some (code == .success, s')

/-- The part of `alloc_dl_user` for a user with periodic CQI in a subframe without a grant. -/
def tryCqiGrant (s : SfSched p g κ) (user : SchedUe p g) (hasPuschGrant : Bool) :
    Option (Bool × SfSched p g κ) :=
  if user.periodicCqi && !hasPuschGrant && user.ulHarq.isEmpty then s.tryUciGrant cch user
  else some (hasPuschGrant, s)

/-- The part of `alloc_dl_user` that tries the RBGs, and a small UL grant when the PUCCH may be
full. -/
def allocDlDataOrUci (s : SfSched p g κ) (user : SchedUe p g) (userMask : BoundedBitset g)
    (hasPuschGrant : Bool) : Option (AllocResult × SfSched p g κ) :=
  match s.allocDlData cch user userMask hasPuschGrant with
  | (.noCchSpace, s) =>
    if !hasPuschGrant && !s.dataAllocs.isEmpty && user.ulHarq.isEmpty then
      match s.tryUciGrant cch user with
      | none => none
      | some (false, s) => some (.noCchSpace, s)
      | some (true, s) => some (s.allocDlData cch user userMask true)
    else some (.noCchSpace, s)
  | r => some r

/-- `alloc_dl_user`, where `pidEmpty` says that the HARQ process is empty -/
def allocDlUser (s : SfSched p g κ) (user : SchedUe p g) (userMask : BoundedBitset g) (pid : Nat)
    (pidEmpty : Bool) : Option (AllocResult × SfSched p g κ) :=
  if s.dataAllocs.length ≥ maxDataList then some (.noGrantSpace, s)
  else if s.isDlAlloc user.rnti then some (.noRntiOpportunity, s)
  else if !user.carrierActive then some (.noRntiOpportunity, s)
  else if !user.pdschEnabled then some (.noRntiOpportunity, s)
  else
    match if user.dciFormat1a then isContiguous userMask else some true with
    | none => none
    | some false => some (.invalidGrantParams, s)
    | some true =>
      if pidEmpty && !user.carriesControl userMask then some (.invalidGrantParams, s)
      else
        let hasPuschGrant := s.isUlAlloc user.rnti || user.otherUlAlloc
        match s.tryCqiGrant cch user hasPuschGrant with
        | none => none
        | some (hasPuschGrant', s) =>
          -- Without the grant for its CQI, an SCell has no DL allocation.
          if user.periodicCqi && !hasPuschGrant && user.ulHarq.isEmpty && !user.isPcell &&
              !hasPuschGrant' then some (.noCchSpace, s)
          else
            match s.allocDlDataOrUci cch user userMask hasPuschGrant' with
            | none => none
            | some (.success, s) =>
              some (.success, { s with dataAllocs := s.dataAllocs ++ [⟨user.rnti, userMask, pid⟩] })
            | some r => some r

/-- `try_dl_retx_alloc`, whose process is not empty -/
def tryDlRetxAlloc (s : SfSched p g κ) (ue : SchedUe p g) (h : DlHarq g) :
    Option (AllocResult × SfSched p g κ) :=
  match s.allocDlUser cch ue h.rbgmask h.id false with
  | none => none
  | some (.schCollision, s) =>
    match findAvailableRbgmask s.dlMask h.rbgmask.count ue.dciFormat1a with
    | none => none
    | some retxMask =>
      if retxMask.count = h.rbgmask.count then s.allocDlUser cch ue retxMask h.id false
      else some (.schCollision, s)
  | some r => some r

/-- The loop of `try_dl_newtx_alloc_greedy` over the positions, which keeps the first `rbgAlloc`
RBGs. -/
def keepFirst : List (Fin g) → Nat → BoundedBitset g → BoundedBitset g
  | [], _, mask => mask
  | i :: is, rbgAlloc, mask =>
    if mask.bits i && decide (rbgAlloc > 0) then keepFirst is (rbgAlloc - 1) mask
    else keepFirst is rbgAlloc (mask.unset i)

/-- The RBGs of `try_dl_newtx_alloc_greedy`. A weight of zero RBGs does not restrict them. -/
def weightedMask (rbgAlloc : Nat) (optMask : BoundedBitset g) : BoundedBitset g :=
  if rbgAlloc > 0 then keepFirst (List.finRange g) rbgAlloc optMask else optMask

/-- `try_dl_newtx_alloc_greedy` for the empty process `pid` -/
def tryDlNewtxAllocGreedy (s : SfSched p g κ) (ue : SchedUe p g) (pid rbgAlloc : Nat) :
    Option (AllocResult × SfSched p g κ) :=
  if s.dlMask.all then some (.noSchSpace, s)
  else if ue.requestedDlBytes = 0 then some (.noRntiOpportunity, s)
  else if !ue.carrierConfigured then none
  else
    match ue.findOptimalRbgmask s.dlMask with
    | none => some (.noSchSpace, s)
    | some optMask => s.allocDlUser cch ue (weightedMask rbgAlloc optMask) pid true

end SfSched

end Odss.Mac
