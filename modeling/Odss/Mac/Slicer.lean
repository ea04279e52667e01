import Odss.Lib.OrdMap

/-!
# `Odss.Mac.Slicer`: the eNB slicer

The slicer (`srsenb/src/stack/mac/slicer.cc`) divides the downlink subframes among named
slices in proportion to their shares. `updSfAlloc` recomputes the allocation vector on each
change of the slice table, and `getCurSfCrntis` reads it cyclically, one entry for each
sliced subframe.

The model keeps the state of the class, with `std::map` as `OrdMap`. The name type is any
linear order. `none` is undefined behaviour of the source: an index outside a vector, a
dereference of an end iterator, or a division by zero. The console output is left out.
-/

set_option linter.all false

namespace Odss.Mac

open Odss.Lib

/-- A UE identity on the SIM. `0` stands for no identity. -/
abbrev Imsi := Nat

/-- A temporary UE identity. -/
abbrev Tmsi := Nat

/-- A radio network temporary identifier. -/
abbrev Rnti := Nat

/-- `slice_config_t`, with `prop_alloc_policy.share` as `share`. -/
structure SliceConfig (κ : Type) where
  name : κ
  share : UInt32
deriving DecidableEq

/-- `slice_t` -/
structure Slice (κ : Type) where
  config : SliceConfig κ
  imsiList : List Imsi
deriving DecidableEq

/-- `ue_status_t` -/
structure UeStatus where
  imsi : Imsi
  connected : Bool
  crnti : Rnti
deriving DecidableEq

/-- `slice_status_t` -/
structure SliceStatus (κ : Type) where
  config : SliceConfig κ
  ueList : List UeStatus
deriving DecidableEq

/-- The fields of class `slicer`. `sliceIter` is the key that the member iterator points
to, and `none` at the end of the map. -/
structure Slicer (κ : Type) [LinearOrder κ] where
  sliceToCrntiVec : OrdMap κ (List Rnti)
  allSliceCrntis : List Rnti
  slices : OrdMap κ (Slice κ)
  sliceIter : Option κ
  sfAlloc : List UInt32
  totalSfAlloc : UInt32
  slicedUnslicedRatio : UInt32
  hasAlloc : Bool
  allocIndex : UInt32
  imsiToCrnti : OrdMap Imsi Rnti
  tmsiToImsi : OrdMap Tmsi Imsi

namespace Slicer

variable {κ : Type} [LinearOrder κ]

/-- The slicer after construction and `init` without a slice database file. -/
def init (slicedUnslicedRatio : UInt32) : Slicer κ where
  sliceToCrntiVec := ∅
  allSliceCrntis := []
  slices := ∅
  sliceIter := none
  sfAlloc := []
  totalSfAlloc := 0
  slicedUnslicedRatio := slicedUnslicedRatio
  hasAlloc := false
  allocIndex := 0
  imsiToCrnti := ∅
  tmsiToImsi := ∅

/-! ### The subframe allocation -/

/-- `calc_gcf` -/
def calcGcf (a b : UInt32) : UInt32 :=
  if a = 0 then b else calcGcf (b % a) a
termination_by a.toNat
decreasing_by
  rename_i ha
  rw [UInt32.toNat_mod]
  exact Nat.mod_lt _ (Nat.pos_of_ne_zero fun h0 => ha (UInt32.toNat_inj.mp h0))

/-- The loop of `calc_gcf_vec`, which stops at a factor of one. -/
def calcGcfLoop (res : UInt32) : List UInt32 → UInt32
  | [] => res
  | x :: v =>
    let res := calcGcf x res
    if res = 1 then 1 else calcGcfLoop res v

/-- `calc_gcf_vec`. It reads `v[0]` without a check. -/
def calcGcfVec : List UInt32 → Option UInt32
  | [] => none
  | x :: v => some (calcGcfLoop x v)

/-- The loop of `upd_sf_alloc`: slice number `sliceCnt` gets `share / gcf` entries of
`sf_alloc`. A division by zero is undefined. -/
def sfAllocLoop (gcf : UInt32) :
    List UInt32 → UInt32 → List UInt32 → UInt32 → Option (List UInt32 × UInt32)
  | [], _, sfAlloc, totalSfAlloc => some (sfAlloc, totalSfAlloc)
  | share :: shares, sliceCnt, sfAlloc, totalSfAlloc =>
    if gcf = 0 then none
    else
      let tmp := share / gcf
      sfAllocLoop gcf shares (sliceCnt + 1) (sfAlloc ++ List.replicate tmp.toNat sliceCnt)
        (totalSfAlloc + tmp)

/-- The shares of the slices in the order of the map. -/
def sliceShares (slices : OrdMap κ (Slice κ)) : List UInt32 :=
  slices.values.map fun slice => slice.config.share

/-- `upd_sf_alloc` -/
def updSfAlloc (s : Slicer κ) : Option (Slicer κ) := do
  let gcf ← calcGcfVec (sliceShares s.slices)
  let (sfAlloc, totalSfAlloc) ← sfAllocLoop gcf (sliceShares s.slices) 0 [] 0
  return { s with
    allocIndex := 0
    totalSfAlloc := totalSfAlloc
    sfAlloc := sfAlloc
    hasAlloc := decide (totalSfAlloc > 0) }

/-! ### The operations of the agent -/

/-- The loop of `slice_config`: each configured slice is assigned anew, with no member. -/
def configSlices (slices : OrdMap κ (Slice κ)) (sliceConfigs : List (SliceConfig κ)) :
    OrdMap κ (Slice κ) :=
  sliceConfigs.foldl (fun slices config => slices.insert config.name ⟨config, []⟩) slices

/-- `slice_config` -/
def sliceConfig (s : Slicer κ) (sliceConfigs : List (SliceConfig κ)) :
    Option (Slicer κ × Bool) := do
  let s ← updSfAlloc { s with slices := configSlices s.slices sliceConfigs }
  return (s, true)

/-- `slice_delete`. It returns `false` in every case. -/
def sliceDelete (s : Slicer κ) (sliceNames : List κ) : Option (Slicer κ × Bool) := do
  let s ← updSfAlloc (sliceNames.foldl
    (fun s name =>
      if s.slices.contains name then
        { s with
          slices := s.slices.erase name
          sliceToCrntiVec := s.sliceToCrntiVec.erase name }
      else s) s)
  return (s, false)

/-- `upd_slice_crntis`. Every caller has found the slice `sName` in the table. -/
def updSliceCrntis (s : Slicer κ) (sName : κ) : Slicer κ :=
  let imsiList := ((s.slices.find? sName).map Slice.imsiList).getD []
  let sliceToCrntiVec := s.sliceToCrntiVec.insert sName (imsiList.filterMap s.imsiToCrnti.find?)
  { s with
    sliceToCrntiVec := sliceToCrntiVec
    allSliceCrntis := sliceToCrntiVec.values.flatten }

/-- `slice_ue_bind` -/
def sliceUeBind (s : Slicer κ) (sliceName : κ) (imsiList : List Imsi) : Slicer κ × Bool :=
  match s.slices.find? sliceName with
  | none => (s, false)
  | some slice =>
    let imsis := imsiList.foldl
      (fun imsis imsi => if imsi ∈ imsis then imsis else imsis ++ [imsi]) slice.imsiList
    let slices := s.slices.insert sliceName { slice with imsiList := imsis }
    (updSliceCrntis { s with slices := slices } sliceName, true)

/-- `slice_ue_unbind` -/
def sliceUeUnbind (s : Slicer κ) (sliceName : κ) (imsiList : List Imsi) : Slicer κ × Bool :=
  match s.slices.find? sliceName with
  | none => (s, false)
  | some slice =>
    let imsis := imsiList.foldl (fun imsis imsi => imsis.erase imsi) slice.imsiList
    let slices := s.slices.insert sliceName { slice with imsiList := imsis }
    (updSliceCrntis { s with slices := slices } sliceName, true)

/-- `slice_status`: the named slices, or all of them for an empty list of names. The loop leaves
`slice_iter` at the end of the map. -/
def sliceStatus (s : Slicer κ) (sliceNames : List κ) : Slicer κ × List (SliceStatus κ) :=
  let named := s.slices.entries.filter fun entry => sliceNames.isEmpty || entry.1 ∈ sliceNames
  ({ s with sliceIter := none }, named.map fun entry =>
    { config := entry.2.config
      ueList := entry.2.imsiList.map fun imsi =>
        let crnti := (s.imsiToCrnti.find? imsi).getD 0
        { imsi := imsi, connected := decide (crnti > 0), crnti := crnti } })

/-! ### The operations of RRC -/

/-- The loop over `slices` in the three `upd_member_crnti` functions: it updates each slice
that `imsi` belongs to, and leaves `slice_iter` at the end of the map. -/
def updMemberSlices (s : Slicer κ) (imsi : Imsi) : Slicer κ :=
  let s := s.slices.entries.foldl
    (fun s entry => if imsi ∈ entry.2.imsiList then updSliceCrntis s entry.1 else s) s
  { s with sliceIter := none }

/-- `upd_member_crnti(uint64_t imsi, uint16_t crnti)` -/
def updMemberCrntiOfImsi (s : Slicer κ) (imsi : Imsi) (crnti : Rnti) : Slicer κ :=
  updMemberSlices { s with imsiToCrnti := s.imsiToCrnti.insert imsi crnti } imsi

/-- `upd_member_crnti(uint32_t tmsi, uint16_t crnti)` -/
def updMemberCrntiOfTmsi (s : Slicer κ) (tmsi : Tmsi) (crnti : Rnti) : Slicer κ :=
  let known := (s.tmsiToImsi.find? tmsi).getD 0
  let imsi := ((s.imsiToCrnti.entries.find? fun e => e.2 == crnti).map Prod.fst).getD known
  let s := { s with tmsiToImsi := s.tmsiToImsi.insert tmsi imsi }
  if imsi = 0 then s
  else updMemberSlices { s with imsiToCrnti := s.imsiToCrnti.insert imsi crnti } imsi

/-- `upd_member_crnti(uint16_t old_crnti, uint16_t new_crnti)` -/
def updMemberCrntiOfCrnti (s : Slicer κ) (oldCrnti newCrnti : Rnti) : Slicer κ :=
  match s.imsiToCrnti.entries.find? fun e => e.2 == oldCrnti with
  | none => s
  | some (imsi, _) =>
    updMemberSlices { s with imsiToCrnti := s.imsiToCrnti.insert imsi newCrnti } imsi

/-! ### The operations of MAC -/

/-- A subframe of the TTI belongs to the slices, and is not preserved as unsliced. -/
def isSliced (slicedUnslicedRatio ttiTxDl : UInt32) : Bool :=
  !(slicedUnslicedRatio != 0 && ttiTxDl % slicedUnslicedRatio == 0)

/-- What `get_cur_sf_crntis` returns, together with the slice that it selected. -/
structure Served (κ : Type) where
  slice : Option κ
  crntis : List Rnti
deriving DecidableEq

/-- `get_cur_sf_crntis` -/
def getCurSfCrntis (s : Slicer κ) (ttiTxDl : UInt32) : Option (Slicer κ × Served κ) :=
  if !s.hasAlloc then some (s, ⟨none, []⟩)
  else if !isSliced s.slicedUnslicedRatio ttiTxDl then some (s, ⟨none, []⟩)
  else do
    let n ← s.sfAlloc[s.allocIndex.toNat]?
    let entry ← s.slices.entries[n.toNat]?
    let allocIndex := if s.allocIndex + 1 = s.totalSfAlloc then 0 else s.allocIndex + 1
    let crntis := (s.sliceToCrntiVec.find? entry.1).getD []
    return ({ s with
        sliceIter := some entry.1
        allocIndex := allocIndex
        sliceToCrntiVec := s.sliceToCrntiVec.insert entry.1 crntis },
      ⟨some entry.1, crntis⟩)

/-- `get_all_slice_crntis` -/
def getAllSliceCrntis (s : Slicer κ) : List Rnti :=
  if !s.hasAlloc then [] else s.allSliceCrntis

/-! ### Steps -/

/-- A call of the public interface. -/
inductive Op (κ : Type) where
  | sliceConfig (sliceConfigs : List (SliceConfig κ))
  | sliceDelete (sliceNames : List κ)
  | sliceUeBind (sliceName : κ) (imsiList : List Imsi)
  | sliceUeUnbind (sliceName : κ) (imsiList : List Imsi)
  | updMemberCrntiOfImsi (imsi : Imsi) (crnti : Rnti)
  | updMemberCrntiOfTmsi (tmsi : Tmsi) (crnti : Rnti)
  | updMemberCrntiOfCrnti (oldCrnti newCrnti : Rnti)
  | getCurSfCrntis (ttiTxDl : UInt32)

/-- What a call returns. -/
inductive Out (κ : Type) where
  | flag (b : Bool)
  | code
  | served (r : Served κ)
deriving DecidableEq

/-- One call. -/
def step (s : Slicer κ) : Op κ → Option (Slicer κ × Out κ)
  | .sliceConfig sliceConfigs =>
    (s.sliceConfig sliceConfigs).map fun r => (r.1, .flag r.2)
  | .sliceDelete sliceNames =>
    (s.sliceDelete sliceNames).map fun r => (r.1, .flag r.2)
  | .sliceUeBind sliceName imsiList =>
    let r := s.sliceUeBind sliceName imsiList
    some (r.1, .flag r.2)
  | .sliceUeUnbind sliceName imsiList =>
    let r := s.sliceUeUnbind sliceName imsiList
    some (r.1, .flag r.2)
  | .updMemberCrntiOfImsi imsi crnti => some (s.updMemberCrntiOfImsi imsi crnti, .code)
  | .updMemberCrntiOfTmsi tmsi crnti => some (s.updMemberCrntiOfTmsi tmsi crnti, .code)
  | .updMemberCrntiOfCrnti oldCrnti newCrnti =>
    some (s.updMemberCrntiOfCrnti oldCrnti newCrnti, .code)
  | .getCurSfCrntis ttiTxDl =>
    (s.getCurSfCrntis ttiTxDl).map fun r => (r.1, .served r.2)

end Slicer

end Odss.Mac
