import Mathlib.Tactic

/-!
# `Odss.Mac.UciPusch`: the UCI of a UE with several carriers

`is_uci_included` and the parts of `sf_sched::set_ul_sched_result` and `sched::new_tti`
(`srsenb/src/stack/mac/sched_grid.cc`, `sched.cc`) that it depends on. In a TTI the carriers of the
eNB are scheduled one after the other, and for each UL grant the function says which UCI the PUSCH
carries. It sees the results of the carriers before, and of its own carrier the allocations.

Whether the DCI of an allocation can be generated comes with the allocation. The active carriers of
a UE do not change within a TTI.
-/

set_option linter.all false

namespace Odss.Mac

/-- `uci_pusch_t` -/
inductive UciPusch where
  | noUci
  | cqi
  | ack
  | ackCqi
deriving DecidableEq

/-- What `is_uci_included` reads of a `sched_ue` in a TTI. -/
structure CaUser where
  /-- `get_active_cell_index`: the UE carrier index of an eNB carrier that is active -/
  activeCell : Nat → Option Nat
  /-- `srsran_cqi_periodic_send`, by the UE carrier index -/
  cqiPeriodicSend : Nat → Bool
  injective : ∀ cc cc' ueCcIdx, activeCell cc = some ueCcIdx → activeCell cc' = some ueCcIdx →
    cc = cc'

/-- The part of `cc_sched_result` with the RNTIs: of the DL data and of the PUSCHs. -/
structure CcSchedResult where
  dlData : List Nat
  pusch : List Nat

/-- An allocation, and whether its DCI can be generated. -/
structure DataGrant where
  rnti : Nat
  built : Bool

/-- The allocations of a carrier in a TTI: `data_allocs` and `ul_data_allocs`. -/
structure CarrierAllocs where
  dl : List DataGrant
  ul : List DataGrant

/-- `is_dl_alloc` -/
def CarrierAllocs.isDlAlloc (c : CarrierAllocs) (rnti : Nat) : Bool := c.dl.any fun g => g.rnti == rnti

/-- `is_ul_alloc` -/
def CarrierAllocs.isUlAlloc (c : CarrierAllocs) (rnti : Nat) : Bool := c.ul.any fun g => g.rnti == rnti

/-- The loop of `is_uci_included` for the UCI that is due, over the results of the carriers with
their indices. `isDlAlloc` is for the carrier `current`. -/
def pendingUci (user : CaUser) (rnti : Nat) (isDlAlloc : Bool) (current : Nat) :
    List (CcSchedResult × Nat) → UciPusch → UciPusch
  | [], uci => uci
  | (result, cc) :: results, uci =>
    if uci = .ackCqi then uci
    else
      match user.activeCell cc with
      | none => pendingUci user rnti isDlAlloc current results uci
      | some ueCcIdx =>
        let uci :=
          if user.cqiPeriodicSend ueCcIdx then if uci = .ack then .ackCqi else .cqi else uci
        let needsAckUci := if cc = current then isDlAlloc else result.dlData.contains rnti
        -- The CQI of this carrier is dropped here when an ACK came before it.
        let uci := if needsAckUci then if uci = .cqi then .ackCqi else .ack else uci
        pendingUci user rnti isDlAlloc current results uci

/-- One PUSCH in the loop for the lowest UE carrier index so far, with its eNB carrier. -/
def selectPusch (user : CaUser) (rnti cc : Nat) (best : Nat × Option Nat) (puschRnti : Nat) :
    Nat × Option Nat :=
  if puschRnti = rnti then
    match user.activeCell cc with
    | none => best
    | some ueCcIdx => if ueCcIdx < best.1 then (ueCcIdx, some cc) else best
  else best

/-- The loop over the PUSCHs of all carriers. -/
def selectCc (user : CaUser) (rnti : Nat) (results : List (CcSchedResult × Nat))
    (best : Nat × Option Nat) : Nat × Option Nat :=
  results.foldl (fun best entry => entry.1.pusch.foldl (selectPusch user rnti entry.2) best) best

/-- `is_uci_included` for the carrier `current`. -/
def isUciIncluded (results : List CcSchedResult) (c : CarrierAllocs) (user : CaUser) (rnti : Nat)
    (current : Nat) : UciPusch :=
  match user.activeCell current with
  | none => .noUci
  | some ueCcIdx =>
    let uci := pendingUci user rnti (c.isDlAlloc rnti) current results.zipIdx .noUci
    if uci = .noUci then .noUci
    else
      let start : Nat × Option Nat :=
        if c.isUlAlloc rnti then (ueCcIdx, some current) else (results.length, none)
      if (selectCc user rnti results.zipIdx start).2 = some current then uci else .noUci

/-- The UCI that was found for the PUSCH of a UE. -/
structure UciReport where
  enbCcIdx : Nat
  rnti : Nat
  uci : UciPusch
deriving DecidableEq

/-- The loop of `set_ul_sched_result` over the UL allocations of the carrier `current`, with its
result so far. `others` puts it among the results of the other carriers. -/
def setUlSchedResult (users : Nat → Option CaUser) (others : CcSchedResult → List CcSchedResult)
    (c : CarrierAllocs) (current : Nat) :
    List DataGrant → CcSchedResult → CcSchedResult × List UciReport
  | [], result => (result, [])
  | g :: gs, result =>
    match users g.rnti with
    | none => setUlSchedResult users others c current gs result
    | some user =>
      let uci := isUciIncluded (others result) c user g.rnti current
      let pusch := if g.built then result.pusch ++ [g.rnti] else result.pusch
      let (result, reports) :=
        setUlSchedResult users others c current gs { result with pusch := pusch }
      (result, ⟨current, g.rnti, uci⟩ :: reports)

/-- `generate_sched_results`: the DL data first, and then the PUSCHs. -/
def generateSchedResults (users : Nat → Option CaUser)
    (others : CcSchedResult → List CcSchedResult) (c : CarrierAllocs) (current : Nat) :
    CcSchedResult × List UciReport :=
  setUlSchedResult users others c current c.ul ⟨(c.dl.filter DataGrant.built).map DataGrant.rnti, []⟩

/-- The loop of `new_tti` over the carriers, behind those with the results `done`. The results of
the carriers that follow are still empty. -/
def newTtiFrom (users : Nat → Option CaUser) : List CcSchedResult → List CarrierAllocs →
    List UciReport
  | _, [] => []
  | done, c :: cs =>
    let (result, reports) := generateSchedResults users
      (fun result => done ++ result :: cs.map fun _ => ⟨[], []⟩) c done.length
    reports ++ newTtiFrom users (done ++ [result]) cs

/-- `new_tti`, with the UCI that it finds for each PUSCH. -/
def newTtiReports (users : Nat → Option CaUser) (carriers : List CarrierAllocs) : List UciReport :=
  newTtiFrom users [] carriers

end Odss.Mac
