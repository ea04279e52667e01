import Odss.Common.TtiPoint
import Odss.Mac.Subframe

/-!
# `Odss.Mac.RaSched`: the scheduler of random access responses

`ra_sched` (`srsenb/src/stack/mac/sched_carrier.cc`). `dl_rach_info` puts a detected preamble into the
pending RAR of its PRACH occasion, and `dl_sched` allocates the pending RARs in a subframe, as many
Msg3 grants of each as there is room for. `ul_sched`, which schedules the Msg3 themselves, is left
out.

The subframe is the one of `Odss.Mac.Subframe`, with any RBGs taken, any PDCCH and any room for the
Msg3. `none` is a failing assertion of it.
-/

set_option linter.all false

namespace Odss.Mac

open Odss.Lib Odss.Common

deriving instance DecidableEq for RarInfo

/-- `dl_sched_rar_info_t`, of which the subframe needs the part `RarInfo`. -/
structure RachInfo extends RarInfo where
  preambleIdx : Nat
  taCmd : Nat
  msg3Size : Nat
  prachTti : Nat
deriving DecidableEq

/-- `pending_rar_t` -/
structure PendingRar where
  raRnti : Nat
  prachTti : TtiPoint
  msg3Grant : List RachInfo
deriving DecidableEq

/-- What `ra_sched` reads of the cell: `prach_rar_window`, for which `ra-ResponseWindowSize` has the
values from 2 to 10. -/
structure RaCell where
  prachRarWindow : Nat
  bounds : 2 ≤ prachRarWindow ∧ prachRarWindow ≤ 10

/-- `PRACH_RAR_OFFSET` -/
abbrev prachRarOffset : Nat := 3

/-- What happens to the pending RARs in `dl_sched`: some grants of one are allocated in a RAR, or one
is discarded. -/
inductive RarEvent where
  | allocated (raRnti : Nat) (grants : List RachInfo)
  | expired (rar : PendingRar)
deriving DecidableEq

namespace RaSched

variable {p g : Nat} {κ : Type} (cell : SubframeCell p) (cch : CtrlPdcch p g κ) (ra : RaCell)

/-- The inner loop of `allocate_pending_rar`, from the length `nrbg` on: an interval of RBGs that is
too short for the code rate is followed by a longer one. -/
def tryRbgs (rar : PendingRar) (nofGrants : Nat) :
    Nat → Nat → Subframe p g κ → Option (AllocResult × Subframe p g κ)
  | 0, _, s => some (.invalidCoderate, s)
  | fuel + 1, nrbg, s =>
    match findContiguousInterval s.dlMask nrbg with
    | none => none
    | some rbgInterv =>
      if rbgInterv.length = nrbg then
        match s.allocRar cell cch 2 (rar.msg3Grant.map RachInfo.toRarInfo) rbgInterv
            (UInt32.ofNat nofGrants) with
        | none => none
        | some (.invalidCoderate, s) => tryRbgs rar nofGrants fuel (nrbg + 1) s
        | some (ret, s) => some (ret, s)
      else some (.noSchSpace, s)

/-- The outer loop of `allocate_pending_rar`, with the last result and the number of grants. -/
def allocateFrom (rar : PendingRar) :
    Nat → AllocResult → Subframe p g κ → Option (AllocResult × Nat × Subframe p g κ)
  | 0, ret, s => some (ret, 0, s)
  | nofGrants + 1, _, s =>
    match tryRbgs cell cch rar (nofGrants + 1) (g - 1) 1 s with
    | none => none
    | some (ret, s) =>
      if ret ≠ .invalidCoderate ∧ ret ≠ .noSchSpace then some (ret, nofGrants + 1, s)
      -- There were not enough RBGs, so fewer grants are tried.
      else allocateFrom rar nofGrants ret s

/-- `allocate_pending_rar` -/
def allocatePendingRar (rar : PendingRar) (s : Subframe p g κ) :
    Option (AllocResult × Nat × Subframe p g κ) :=
  allocateFrom cell cch rar rar.msg3Grant.length .otherCause s

/-- The start of the window of a RAR. -/
def windowStart (rar : PendingRar) : TtiPoint := rar.prachTti.add prachRarOffset

/-- The end of the window of a RAR. -/
def windowStop (rar : PendingRar) : TtiPoint :=
  (rar.prachTti.add prachRarOffset).add ra.prachRarWindow

/-- The loop of `dl_sched` over the pending RARs, with the RARs that stay and what happens to the
others. -/
def dlSchedFrom (ttiTxDl : TtiPoint) : List PendingRar → Subframe p g κ →
    Option (List PendingRar × List RarEvent × Subframe p g κ)
  | [], s => some ([], [], s)
  | rar :: rars, s =>
    if !TtiPoint.contains (windowStart rar) (windowStop ra rar) ttiTxDl then
      if TtiPoint.ge ttiTxDl (windowStop ra rar) then
        match dlSchedFrom ttiTxDl rars s with
        | none => none
        | some (rars, events, s) => some (rars, .expired rar :: events, s)
      else some (rar :: rars, [], s)
    else
      match allocatePendingRar cell cch rar s with
      | none => none
      | some (.success, nofRarAllocs, s) =>
        let event := RarEvent.allocated rar.raRnti (rar.msg3Grant.take nofRarAllocs)
        if nofRarAllocs = rar.msg3Grant.length then
          match dlSchedFrom ttiTxDl rars s with
          | none => none
          | some (rars, events, s) => some (rars, event :: events, s)
        else
          -- The grants that were not allocated are shifted down.
          some ({ rar with msg3Grant := rar.msg3Grant.drop nofRarAllocs } :: rars, [event], s)
      | some (.noCchSpace, _, s) =>
        match dlSchedFrom ttiTxDl rars s with
        | none => none
        | some (rars, events, s) => some (rar :: rars, events, s)
      | some (_, _, s) => some (rar :: rars, [], s)

/-- `dl_sched` -/
def dlSched (pendingRars : List PendingRar) (s : Subframe p g κ) :
    Option (List PendingRar × List RarEvent × Subframe p g κ) :=
  dlSchedFrom cell cch ra (TtiPoint.ofNat (toTxDl s.ttiRx)) pendingRars s

/-- The loop of `dl_rach_info` over the pending RARs: whether one has the RA-RNTI and the occasion,
and whether it had room. -/
def addToPending (raRnti : Nat) (info : RachInfo) : List PendingRar → Option (Bool × List PendingRar)
  | [] => none
  | r :: rars =>
    if r.prachTti.val = info.prachTti ∧ raRnti = r.raRnti then
      if r.msg3Grant.length ≥ maxRarList then some (false, r :: rars)
      else some (true, { r with msg3Grant := r.msg3Grant ++ [info] } :: rars)
    else (addToPending raRnti info rars).map fun q => (q.1, r :: q.2)

/-- `dl_rach_info`, with whether the preamble is accepted. -/
def dlRachInfo (pendingRars : List PendingRar) (info : RachInfo) : Bool × List PendingRar :=
  -- The RA-RNTI has 16 bits, which is enough for it.
  let raRnti := 1 + info.prachTti % 10
  (addToPending raRnti info pendingRars).getD
    (true, pendingRars ++ [⟨raRnti, TtiPoint.ofNat info.prachTti, [info]⟩])

/-- The calls: a detected preamble, or the scheduling of a subframe. -/
inductive Op (p g : Nat) (κ : Type) where
  | dlRachInfo (info : RachInfo)
  | dlSched (s : Subframe p g κ)

/-- The results of the calls. That of `dl_sched` has the TTI in which the subframe is sent, what
happens to the pending RARs, and the RARs that the subframe has got. -/
inductive Out where
  | rach (info : RachInfo) (accepted : Bool)
  | sched (ttiTxDl : TtiPoint) (events : List RarEvent) (rars : List RarAlloc)

/-- One call. -/
def step (pendingRars : List PendingRar) : Op p g κ → Option (List PendingRar × Out)
  | .dlRachInfo info =>
    let (accepted, pendingRars) := dlRachInfo pendingRars info
    some (pendingRars, .rach info accepted)
  | .dlSched s =>
    (dlSched cell cch ra pendingRars s).map fun (pendingRars, events, s') =>
      (pendingRars, .sched (TtiPoint.ofNat (toTxDl s.ttiRx)) events
        (s'.rarAllocs.drop s.rarAllocs.length))

end RaSched

end Odss.Mac
