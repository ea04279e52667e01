import Odss.Lib.FloatRound
import Odss.Lib.OrdMap
import Odss.Mac.SfSched

/-!
# `Odss.Mac.SchedTimePf`: the proportional fair scheduler

`sched_time_pf` (`srsenb/src/stack/mac/schedulers/sched_time_pf.cc`): `new_tti`, which fills the
queues of a subframe, `sched_dl_users`, which shares the free RBGs by weights, and
`sched_ul_users`, which blanks the PRBs of the command file and gives the PUSCH grants. `none` is a
failing assertion or an index behind the end of `ue_rntis`.

The weights are rational numbers, with the roundings of `float`. The averages of the rates are
floating point numbers, too. They decide the order within a queue, which are the parameters
`DlOrder` and `UlOrder`. The records for the log files are left out, but not the conversion of the
UL mask for them, which can fail.
-/

set_option linter.all false

namespace Odss.Mac

open Odss.Lib

variable {p g : Nat} {κ : Type}

/-! ### Subframe start -/

/-- `ue_ctxt`: a user with the HARQ processes that it can use in the subframe. `ulH` says that
`ul_h` is the UL process of the user, and not null. -/
structure UeCtxt (p g : Nat) where
  ue : SchedUe p g
  dlRetxH : Option (DlHarq g)
  dlNewtxH : Option Nat
  ulH : Bool

/-- `get_ue_cc_idx_if_pdsch_enabled` finds the carrier. -/
def pdschPossible (sched : SfSched p g κ) (ue : SchedUe p g) : Bool :=
  !sched.isDlAlloc ue.rnti && ue.carrierActive && ue.pdschEnabled

/-- `get_ue_cc_idx_if_pusch_enabled` finds the carrier. -/
def puschPossible (sched : SfSched p g κ) (ue : SchedUe p g) (needsPdcch : Bool) : Bool :=
  !sched.isUlAlloc ue.rnti && ue.carrierActive && ue.puschEnabled needsPdcch

/-- `get_ul_retx_harq` finds the process. -/
def getUlRetxHarq (sched : SfSched p g κ) (ue : SchedUe p g) : Bool :=
  puschPossible sched ue false && ue.ulHarq.hasPendingRetx

/-- `get_ul_newtx_harq` finds the process. -/
def getUlNewtxHarq (sched : SfSched p g κ) (ue : SchedUe p g) : Bool :=
  puschPossible sched ue true && ue.ulHarq.isEmpty

/-- `ue_ctxt::new_tti`, without the priorities -/
def UeCtxt.newTti (sched : SfSched p g κ) (ue : SchedUe p g) : UeCtxt p g :=
  if ue.carrierConfigured then
    { ue := ue
      dlRetxH := if pdschPossible sched ue then ue.pendingDlHarq else none
      dlNewtxH := if pdschPossible sched ue then ue.emptyDlHarq else none
      ulH := getUlRetxHarq sched ue || getUlNewtxHarq sched ue }
  else ⟨ue, none, none, false⟩

/-- The user goes into the DL queue. -/
def UeCtxt.wantsDl (c : UeCtxt p g) : Bool := c.dlNewtxH.isSome || c.dlRetxH.isSome

/-- The size of `ue_rntis` -/
abbrev maxRntis : Nat := 10

/-- The state of `sched_time_pf`, with the globals `ue_rntis` and `rbg_alloc`. A subframe has been
started only where the UL mask has one word. -/
structure TimePf (p g : Nat) where
  currentTtiRx : Option Nat
  dlQueue : List (UeCtxt p g)
  ulQueue : List (UeCtxt p g)
  ueRntis : Vector Nat maxRntis
  rbgAlloc : OrdMap Nat Nat
  oneWord : currentTtiRx ≠ none → 0 < p ∧ p ≤ bitsPerWord

namespace TimePf

/-- The state before the first subframe. -/
def init (p g : Nat) : TimePf p g := ⟨none, [], [], Vector.replicate maxRntis 0, ∅, fun h => absurd rfl h⟩

/-- The writes of `new_tti` to the first entries of `ue_rntis`. -/
def writeRntis (rntis : List Nat) (ueRntis : Vector Nat maxRntis) : Option (Vector Nat maxRntis) :=
  if rntis.length ≤ maxRntis then
    some (Vector.ofFn fun i => rntis.getD i.val ueRntis[i])
  else none

/-- `new_tti` for the users `ueDb`. -/
def newTti (s : TimePf p g) (ueDb : List (SchedUe p g)) (sched : SfSched p g κ) :
    Option (TimePf p g) :=
  let ctxts := ueDb.map (UeCtxt.newTti sched)
  let dlCtxts := ctxts.filter UeCtxt.wantsDl
  match writeRntis (dlCtxts.map fun c => c.ue.rnti) s.ueRntis with
  | none => none
  | some ueRntis =>
    -- The conversion of the UL mask for the metrics.
    if h : 0 < p ∧ p ≤ bitsPerWord then
      some { s with
        currentTtiRx := some sched.ttiRx
        dlQueue := dlCtxts
        ulQueue := ctxts.filter UeCtxt.ulH
        ueRntis := ueRntis
        oneWord := fun _ => h }
    else none

/-- The start of a subframe, unless the subframe has been started before. -/
def startTti (s : TimePf p g) (ueDb : List (SchedUe p g)) (sched : SfSched p g κ) :
    Option (TimePf p g) :=
  if s.currentTtiRx = some sched.ttiRx then some s else s.newTti ueDb sched

/-! ### Shares -/

/-- `available_rbgs`, in 8 bits -/
def availableRbgs (sched : SfSched p g κ) : Nat := sched.dlMask.compl.count % 2 ^ 8

/-- The weight of a user. An empty map gives each of `numUes` users the same weight. The entries
that a lookup adds to the map are zeros. -/
def weightOf (weights : OrdMap Nat ℚ) (numUes rnti : Nat) : ℚ :=
  if weights.size > 0 then (weights.find? rnti).getD 0
  else floatRound 24 (floatRound 53 (1 / numUes))

/-- The RBGs of a weight, in 16 bits -/
def rbgsOf (weight : ℚ) (available : Nat) : Nat :=
  ⌊floatRound 24 (weight * available)⌋₊ % 2 ^ 16

/-- The body of the loop over the weights, for the entry `j` of `ue_rntis`, with `total_rbgs` in
8 bits. -/
def assignShare (ueRntis : Vector Nat maxRntis) (weights : OrdMap Nat ℚ) (numUes available : Nat)
    (acc : OrdMap Nat Nat × Nat) (j : Nat) : Option (OrdMap Nat Nat × Nat) :=
  match ueRntis[j]? with
  | none => none
  | some rnti =>
    let rbgs := rbgsOf (weightOf weights numUes rnti) available
    some (acc.1.insert rnti rbgs, (acc.2 + rbgs) % 2 ^ 8)

/-- The body of the loop over the remaining RBGs. -/
def addRemaining (ueRntis : Vector Nat maxRntis) (rbgAlloc : OrdMap Nat Nat) (j : Nat) :
    Option (OrdMap Nat Nat) :=
  match ueRntis[j]? with
  | none => none
  | some rnti => some (rbgAlloc.insert rnti (((rbgAlloc.find? rnti).getD 0 + 1) % 2 ^ 16))

/-- The part of `sched_dl_users` that computes `rbg_alloc`. -/
def computeShares (s : TimePf p g) (ueDb : List (SchedUe p g)) (sched : SfSched p g κ)
    (weights : OrdMap Nat ℚ) : Option (OrdMap Nat Nat) :=
  let numUes := ueDb.length % 2 ^ 8
  let available := availableRbgs sched
  match (List.range numUes).foldlM (assignShare s.ueRntis weights numUes available)
      (s.rbgAlloc, 0) with
  | none => none
  | some (rbgAlloc, total) =>
    (List.range ((available + 2 ^ 8 - total) % 2 ^ 8)).foldlM (addRemaining s.ueRntis) rbgAlloc

/-! ### Downlink -/

section Downlink

variable (cch : Pdcch p g κ)

/-- The part of `try_dl_alloc` for new data, with the result of the retransmission. -/
def tryDlNewtx (c : UeCtxt p g) (ue : SchedUe p g) (share : Nat) (code : AllocResult)
    (sched : SfSched p g κ) : Option (SfSched p g κ) :=
  match c.dlNewtxH with
  | none => some sched
  | some pid =>
    if code = .noCchSpace then some sched
    else (sched.tryDlNewtxAllocGreedy cch ue pid share).map Prod.snd

/-- `try_dl_alloc`, without the estimate of the bytes -/
def tryDlAlloc (c : UeCtxt p g) (ue : SchedUe p g) (share : Nat) (sched : SfSched p g κ) :
    Option (SfSched p g κ) :=
  match c.dlRetxH with
  | none => tryDlNewtx cch c ue share .otherCause sched
  | some h =>
    match sched.tryDlRetxAlloc cch ue h with
    | none => none
    | some (.success, sched) => some sched
    | some (code, sched) => tryDlNewtx cch c ue share code sched

/-- The priority queue of the users for the DL, as in `UlOrder`. -/
structure DlOrder (p g : Nat) where
  pop : List (UeCtxt p g) → List (UeCtxt p g)
  perm : ∀ q, (pop q).Perm q
  retxFirst : ∀ q, (pop q).Pairwise fun c c' => c'.dlRetxH.isSome = true → c.dlRetxH.isSome = true

/-- The body of the loop of `sched_dl_users` over the queue. The user has to be in `ue_db`. -/
def allocDlOf (ueDb : List (SchedUe p g)) (rbgAlloc : OrdMap Nat Nat) (sched : SfSched p g κ)
    (c : UeCtxt p g) : Option (SfSched p g κ) :=
  match ueDb.find? fun ue => ue.rnti == c.ue.rnti with
  | none => none
  | some ue => tryDlAlloc cch c ue ((rbgAlloc.find? ue.rnti).getD 0) sched

/-- `sched_dl_users` -/
def schedDlUsers (order : DlOrder p g) (s : TimePf p g) (ueDb : List (SchedUe p g))
    (sched : SfSched p g κ) (weights : OrdMap Nat ℚ) : Option (TimePf p g × SfSched p g κ) :=
  match s.computeShares ueDb sched weights with
  | none => none
  | some rbgAlloc =>
    match { s with rbgAlloc := rbgAlloc }.startTti ueDb sched with
    | none => none
    | some s =>
      match (order.pop s.dlQueue).foldlM (allocDlOf cch ueDb s.rbgAlloc) sched with
      | none => none
      | some sched => some ({ s with dlQueue := [] }, sched)

end Downlink

/-! ### Blanking -/

/-- Four bytes in little endian order, as an `int`. -/
def int32 (b₀ b₁ b₂ b₃ : UInt8) : Int :=
  (BitVec.ofNat 32 (b₀.toNat + b₁.toNat * 2 ^ 8 + b₂.toNat * 2 ^ 16 + b₃.toNat * 2 ^ 24)).toInt

/-- The command that is read from the file, which may be missing or too short. -/
def readCommand : Option (List UInt8) → Option (Int × Int)
  | some (a₀ :: a₁ :: a₂ :: a₃ :: b₀ :: b₁ :: b₂ :: b₃ :: _) =>
    some (int32 a₀ a₁ a₂ a₃, int32 b₀ b₁ b₂ b₃)
  | _ => none

/-- The values of `low` and `high` -/
def prbRange (file : Option (List UInt8)) : Int × Int := (readCommand file).getD (0, 0)

/-- An `int` as `size_t` -/
def sizeT (bit : Int) : Nat := (bit % 2 ^ 64).toNat

/-- The loop that resets the bits from `bit` on. -/
def resetBits : Nat → Int → BoundedBitset p → Option (BoundedBitset p)
  | 0, _, mask => some mask
  | count + 1, bit, mask =>
    match mask.reset (sizeT bit) with
    | none => none
    | some mask => resetBits count (bit + 1) mask

/-- The part of `sched_ul_users` that blanks the PRBs from `low` to `high`. -/
def blankPrbs (file : Option (List UInt8)) (sched : SfSched p g κ) : Option (SfSched p g κ) :=
  let low := (prbRange file).1
  let high := (prbRange file).2
  match resetBits (high + 1 - low).toNat low sched.ulMask.compl with
  | none => none
  | some modifiedMask => some { sched with ulMask := modifiedMask.compl }

/-! ### Uplink -/

variable (cch : Pdcch p g κ)

/-- The part of `try_ul_alloc` for new data. -/
def tryUlNewtx (ue : SchedUe p g) (sched : SfSched p g κ) : Option (SfSched p g κ) :=
  if ue.pendingUlNewData = 0 then some sched
  else
    match findContiguousUlPrbs sched.ulMask ue.requiredPrbUl with
    | none => none
    | some alloc =>
      if alloc.isEmpty then some sched
      else
        match sched.allocUlUser cch ue alloc with
        | none => none
        | some (_, sched) =>
          -- The conversion of the UL mask for the metrics.
          match sched.ulMask.toUint64 with
          | none => none
          | some _ => some sched

/-- `try_ul_alloc`, without the estimate of the bytes -/
def tryUlAlloc (c : UeCtxt p g) (sched : SfSched p g κ) : Option (SfSched p g κ) :=
  if !c.ulH then some sched
  else if sched.isUlAlloc c.ue.rnti then some sched
  else if c.ue.ulHarq.hasPendingRetx then (sched.tryUlRetxAlloc cch c.ue).map Prod.snd
  else tryUlNewtx cch c.ue sched

/-- The priority queue of the users: `pop` lists them in the order in which they leave it. Those
with a retransmission come first. -/
structure UlOrder (p g : Nat) where
  pop : List (UeCtxt p g) → List (UeCtxt p g)
  perm : ∀ q, (pop q).Perm q
  retxFirst : ∀ q, (pop q).Pairwise fun c c' =>
    c'.ue.ulHarq.hasPendingRetx = true → c.ue.ulHarq.hasPendingRetx = true

/-- The loop of `sched_ul_users` over the queue. -/
def allocQueue (q : List (UeCtxt p g)) (sched : SfSched p g κ) : Option (SfSched p g κ) :=
  q.foldlM (fun sched c => tryUlAlloc cch c sched) sched

/-- The part of `sched_ul_users` behind the blanking. -/
def allocUlUsers (order : UlOrder p g) (s : TimePf p g) (ueDb : List (SchedUe p g))
    (sched : SfSched p g κ) : Option (TimePf p g × SfSched p g κ) :=
  match s.startTti ueDb sched with
  | none => none
  | some s =>
    match allocQueue cch (order.pop s.ulQueue) sched with
    | none => none
    | some sched => some ({ s with ulQueue := [] }, sched)

/-- `sched_ul_users`, with the content of the command file -/
def schedUlUsers (order : UlOrder p g) (s : TimePf p g) (file : Option (List UInt8))
    (ueDb : List (SchedUe p g)) (sched : SfSched p g κ) : Option (TimePf p g × SfSched p g κ) :=
  match blankPrbs file sched with
  | none => none
  | some sched => allocUlUsers cch order s ueDb sched

/-! ### The calls of a subframe -/

/-- What the calls of a subframe are given. `dlActive` says that `sf_dl_mask` lets the DL users be
scheduled. -/
structure SubframeInput (p g : Nat) (κ : Type) where
  ueDb : List (SchedUe p g)
  sched : SfSched p g κ
  weights : OrdMap Nat ℚ
  file : Option (List UInt8)
  dlActive : Bool

/-- The part of `generate_tti_result` in front of `alloc_dl_users`: the UL users come first in every
other subframe. -/
def callsBeforeDl (order : UlOrder p g) (s : TimePf p g) (c : SubframeInput p g κ) :
    Option (TimePf p g × SfSched p g κ) :=
  if c.sched.ttiRx % 2 = 0 then schedUlUsers cch order s c.file c.ueDb c.sched
  else some (s, c.sched)

/-- `alloc_dl_users` and `alloc_ul_users` of a subframe. -/
def scheduleUsers (dlOrder : DlOrder p g) (ulOrder : UlOrder p g) (s : TimePf p g)
    (c : SubframeInput p g κ) : Option (TimePf p g × SfSched p g κ) :=
  (callsBeforeDl cch ulOrder s c).bind fun (s, sched) =>
    (if c.dlActive then schedDlUsers cch dlOrder s c.ueDb sched c.weights else some (s, sched)).bind
      fun (s, sched) =>
        if c.sched.ttiRx % 2 = 1 then schedUlUsers cch ulOrder s c.file c.ueDb sched
        else some (s, sched)

end TimePf

end Odss.Mac
