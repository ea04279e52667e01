import Odss.Lib.Backtrack
import Odss.Mac.BoundedBitset

/-!
# `Odss.Mac.SfCchAllocator`: the PDCCH of one subframe

The model of `sf_cch_allocator` (`srsenb/src/stack/mac/sched_phy_ch/sf_cch_allocator.cc`), with
the PUCCH functions of `lib/src/phy/phch/pucch.c` and `lib/src/phy/ue/ue_ul.c` that it calls.
`none` is a failing assertion of a bitset. Log output is left out.

The masks of a node have the size of the PDCCH for the CFI of its path, so the CFI is an index of
`TreeNode`. A user is given by what the allocator reads of it, for one carrier.
-/

set_option linter.all false

namespace Odss.Mac.SfCchAllocator

open Odss.Lib

/-! ### Configuration -/

/-- `alloc_type_t` -/
inductive AllocType where
  | dlBc
  | dlPcch
  | dlRar
  | dlData
  | ulData
deriving DecidableEq, Repr

/-- `is_dl_ctrl_alloc` -/
def isDlCtrlAlloc : AllocType → Bool
  | .dlBc => true
  | .dlPcch => true
  | .dlRar => true
  | _ => false

/-- The capacity of a `cce_position_list`. -/
abbrev maxPositions : Nat := 6

/-- `cce_position_list` -/
structure CcePositionList where
  positions : List Nat
  length_le : positions.length ≤ maxPositions

/-- `cce_cfi_position_table`: the positions of each aggregation level. -/
abbrev CceCfiPositionTable := Fin 4 → CcePositionList

/-- The dedicated part of `srsran_pucch_cfg_t`. -/
structure UePucchCfg where
  srConfigured : Bool
  iSr : Nat
  nPucchSr : Nat

/-- What the allocator reads of a `sched_ue`. -/
structure SchedUe where
  rnti : Nat
  pucchCfg : UePucchCfg
  /-- `dci_locations` by the subframe and the CFI index -/
  dciLocations : Nat → Nat → CceCfiPositionTable

/-- `get_locations` -/
def SchedUe.getLocations (user : SchedUe) (cfi sfIdx : Nat) : CceCfiPositionTable :=
  if 0 < cfi ∧ cfi ≤ 3 then user.dciLocations sfIdx (cfi - 1) else user.dciLocations sfIdx 0

/-- What the allocator reads of `sched_cell_params_t`. The numbers of control symbols are checked
when the configuration is parsed. -/
structure CellParams where
  nofPrb : Nat
  /-- `SRSRAN_CP_ISNORM` -/
  cpNorm : Bool
  deltaPucchShift : Nat
  nRb2 : Nat
  nCs : Nat
  nPucch1 : Nat
  minNofCtrlSymbols : Nat
  maxNofCtrlSymbols : Nat
  minNofCtrlSymbols_pos : 0 < minNofCtrlSymbols
  minNofCtrlSymbols_le : minNofCtrlSymbols ≤ maxNofCtrlSymbols
  pucchMuxEnabled : Bool
  pucchHarqMaxRb : Int
  /-- by the CFI index -/
  commonLocations : Nat → CceCfiPositionTable
  /-- by the subframe and the CFI index -/
  rarLocations : Nat → Nat → CceCfiPositionTable
  /-- by the CFI index -/
  nofCceTable : Nat → Nat

/-- `srsran_ue_ul_sr_send_tti`, where -1 is `SRSRAN_ERROR`. -/
def srSendTti (cfg : UePucchCfg) (currentTti : Nat) : Int :=
  if !cfg.srConfigured then 0
  else
    let send (periodicity offset : Nat) : Int :=
      if currentTti ≥ offset ∧ (currentTti - offset) % periodicity = 0 then 1 else 0
    if cfg.iSr < 5 then send 5 cfg.iSr
    else if cfg.iSr < 15 then send 10 (cfg.iSr - 5)
    else if cfg.iSr < 35 then send 20 (cfg.iSr - 15)
    else if cfg.iSr < 75 then send 40 (cfg.iSr - 35)
    else if cfg.iSr < 155 then send 80 (cfg.iSr - 75)
    else if cfg.iSr < 157 then send 2 (cfg.iSr - 155)
    else if cfg.iSr = 157 then send 1 (cfg.iSr - 157)
    else -1

/-- `is_pucch_sr_collision` -/
def isPucchSrCollision (cfg : UePucchCfg) (ttiTxDlAck n1Pucch : Nat) : Bool :=
  if cfg.srConfigured && srSendTti cfg ttiTxDlAck != 0 then n1Pucch == cfg.nPucchSr else false

/-- `srsran_pucch_m` for format 1 -/
def pucchM (cc : CellParams) (nPucch : Nat) : Nat :=
  let c := if cc.cpNorm then 3 else 2
  if nPucch ≥ c * cc.nCs / cc.deltaPucchShift then
    (nPucch - c * cc.nCs / cc.deltaPucchShift) / (c * 12 / cc.deltaPucchShift) + cc.nRb2
      + (cc.nCs + 7) / 8
  else cc.nRb2

/-- `srsran_pucch_n_prb` in the first slot -/
def pucchNPrb (cc : CellParams) (nPucch : Nat) : Nat :=
  let m := pucchM cc nPucch
  if m % 2 ≠ 0 then (cc.nofPrb + 2 ^ 32 - 1 - m / 2) % 2 ^ 32 else m / 2

/-- A number in an `int8_t`. -/
def toInt8 (n : Nat) : Int := if n % 256 < 128 then (n % 256 : Nat) else (n % 256 : Nat) - 256

/-- `to_tx_dl(tti_rx).sf_idx()` -/
def sfIdxTxDl (ttiRx : Nat) : Nat := (ttiRx + 4) % 10240 % 10

/-- `to_tx_dl_ack(tti_rx)` -/
def toTxDlAck (ttiRx : Nat) : Nat := (ttiRx + 8) % 10240

/-! ### DCIs -/

theorem neZero_aggr : NeZero 4 := ⟨by decide⟩

/-- `alloc_record`. A data allocation has a user. -/
structure AllocRecord where
  puschUci : Bool
  aggrIdx : Fin 4
  allocType : AllocType
  user : Option SchedUe
  hasUser : allocType = .dlData ∨ allocType = .ulData → user.isSome

namespace AllocRecord

/-- `get_cce_loc_table` -/
def getCceLocTable (cc : CellParams) (ttiRx : Nat) (record : AllocRecord) (cfix : Nat) :
    Option CceCfiPositionTable :=
  match record.allocType with
  | .dlBc => some (cc.commonLocations cfix)
  | .dlPcch => some (cc.commonLocations cfix)
  | .dlRar => some (cc.rarLocations (sfIdxTxDl ttiRx) cfix)
  | .dlData => record.user.map fun user => user.getLocations (cfix + 1) (sfIdxTxDl ttiRx)
  | .ulData => record.user.map fun user => user.getLocations (cfix + 1) (sfIdxTxDl ttiRx)

/-- The positions of the aggregation level. -/
def positions (cc : CellParams) (ttiRx : Nat) (record : AllocRecord) (cfix : Nat) : List Nat :=
  match record.getCceLocTable cc ttiRx cfix with
  | none => []
  | some table => (table record.aggrIdx).positions

/-- The user needs a PUCCH resource for the acknowledgement. -/
def needsPucch (record : AllocRecord) : Bool := record.allocType == .dlData && !record.puschUci

end AllocRecord

/-- `nof_cces` for a CFI index -/
def nofCces (cc : CellParams) (cfix : Nat) : Nat := cc.nofCceTable cfix

/-- `tree_node`. `pucchNPrb` is -1 without a PUCCH resource. -/
structure TreeNode (cc : CellParams) (cfix : Nat) where
  pucchNPrb : Int
  /-- none for `SRSRAN_INVALID_RNTI` -/
  rnti : Option Nat
  dciPosIdx : Nat
  ncce : Nat
  l : Fin 4
  totalMask : BoundedBitset (nofCces cc cfix)
  currentMask : BoundedBitset (nofCces cc cfix)
  totalPucchMask : BoundedBitset cc.nofPrb

/-- A path of the search and its CFI. -/
structure Path (cc : CellParams) where
  cfix : Nat
  nodes : List (TreeNode cc cfix)

section Search

variable (cc : CellParams) (ttiRx : Nat)

/-- The `n_pucch` of a position, in 16 bits. -/
def nPucch (ncce : Nat) : Nat := (ncce + cc.nPucch1) % 2 ^ 16

/-- The PRB of the PUCCH resource of a position. -/
def ackPrb (ncce : Nat) : Int := toInt8 (pucchNPrb cc (nPucch cc ncce))

/-- The PUCCH resource of a position is the one for the scheduling requests of the user. -/
def srCollides (record : AllocRecord) (ncce : Nat) : Bool :=
  match record.user with
  | none => false
  | some user => isPucchSrCollision user.pucchCfg (toTxDlAck ttiRx) (nPucch cc ncce)

/-- The PRB of a PUCCH resource is outside of the region for the acknowledgements. -/
def outsideHarqRegion (nPrb : Int) : Bool :=
  let lowRb := if nPrb < (cc.nofPrb / 2 : Nat) then nPrb else cc.nofPrb - nPrb - 1
  decide (cc.pucchHarqMaxRb > 0 ∧ lowRb ≥ cc.pucchHarqMaxRb)

/-- The PRB of a PUCCH resource is taken. A negative one is behind the end of the mask. -/
def pucchTaken (mask : BoundedBitset cc.nofPrb) (nPrb : Int) : Option Bool :=
  if cc.pucchMuxEnabled then some false
  else if nPrb < 0 then none
  else mask.test nPrb.toNat

/-- The PUCCH part of `alloc_dfs_node` for a position: `some none` when it goes on with the next
position, and the PRB of the resource otherwise. -/
def tryPucch (mask : BoundedBitset cc.nofPrb) (record : AllocRecord) (ncce : Nat) :
    Option (Option Int) :=
  if record.needsPucch then
    if srCollides cc ttiRx record ncce then some none
    else
      match pucchTaken cc mask (ackPrb cc ncce) with
      | none => none
      | some true => some none
      | some false =>
        if outsideHarqRegion cc (ackPrb cc ncce) then some none else some (some (ackPrb cc ncce))
  else some (some (-1))

/-- The cumulative PDCCH mask of a path. -/
def totalMask {cfix : Nat} (nodes : List (TreeNode cc cfix)) : BoundedBitset (nofCces cc cfix) :=
  match nodes.getLast? with
  | none => .empty (nofCces cc cfix)
  | some node => node.totalMask

/-- The cumulative PUCCH mask of a path. -/
def totalPucchMask {cfix : Nat} (nodes : List (TreeNode cc cfix)) : BoundedBitset cc.nofPrb :=
  match nodes.getLast? with
  | none => .empty cc.nofPrb
  | some node => node.totalPucchMask

/-- The PUCCH mask with the resource of a node, if it has one. -/
def setPucch (mask : BoundedBitset cc.nofPrb) (nPrb : Int) : Option (BoundedBitset cc.nofPrb) :=
  if nPrb ≥ 0 then mask.set nPrb.toNat else some mask

/-- The body of the loop of `alloc_dfs_node` for a position: `some none` when it goes on with the
next one. -/
def tryPosition {cfix : Nat} (nodes : List (TreeNode cc cfix)) (record : AllocRecord)
    (idx ncce : Nat) : Option (Option (TreeNode cc cfix)) :=
  match tryPucch cc ttiRx (totalPucchMask cc nodes) record ncce with
  | none => none
  | some none => some none
  | some (some nPrb) =>
    match (BoundedBitset.empty (nofCces cc cfix)).fill ncce (ncce + 2 ^ record.aggrIdx.val) with
    | none => none
    | some currentMask =>
      if ((totalMask cc nodes).inter currentMask).any then some none
      else
        match setPucch cc (totalPucchMask cc nodes) nPrb with
        | none => none
        | some pucchMask =>
          some (some {
            pucchNPrb := nPrb
            rnti := record.user.map SchedUe.rnti
            dciPosIdx := idx
            ncce := ncce
            l := record.aggrIdx
            totalMask := (totalMask cc nodes).union currentMask
            currentMask := currentMask
            totalPucchMask := pucchMask })

/-- The loop of `alloc_dfs_node` over the positions. -/
def tryPositions {cfix : Nat} (nodes : List (TreeNode cc cfix)) (record : AllocRecord) :
    List Nat → Nat → Option (Option (TreeNode cc cfix))
  | [], _ => some none
  | ncce :: rest, idx =>
    match tryPosition cc ttiRx nodes record idx ncce with
    | none => none
    | some none => tryPositions nodes record rest (idx + 1)
    | some (some node) => some (some node)

/-- `alloc_dfs_node`: the node that is put at the end of the path, or `some none`. -/
def allocDfsNode {cfix : Nat} (nodes : List (TreeNode cc cfix)) (record : AllocRecord)
    (startDciIdx : Nat) : Option (Option (TreeNode cc cfix)) :=
  tryPositions cc ttiRx nodes record ((record.positions cc ttiRx cfix).drop startDciIdx) startDciIdx

/-- The inner loop of `get_next_dfs`, with the records that have no node yet. -/
def extend {cfix : Nat} : List AllocRecord → List (TreeNode cc cfix) → Nat →
    Option (List (TreeNode cc cfix))
  | [], nodes, _ => some nodes
  | record :: records, nodes, startChildIdx =>
    match allocDfsNode cc ttiRx nodes record startChildIdx with
    | none => none
    | some none => some nodes
    | some (some node) => extend records (nodes ++ [node]) 0

/-- The first part of the outer loop of `get_next_dfs`: the next CFI from the root, or the path
without its last node. `none` when there is no other CFI. -/
def stepBack (maxCfix : Nat) (path : Path cc) : Option (Path cc × Nat) :=
  match path.nodes.getLast? with
  | none => if path.cfix + 1 > maxCfix then none else some (⟨path.cfix + 1, []⟩, 0)
  | some node => some (⟨path.cfix, path.nodes.dropLast⟩, node.dciPosIdx + 1)

/-! ### What the search does -/

variable {cc ttiRx}

section TryPucch

variable {mask : BoundedBitset cc.nofPrb} {record : AllocRecord} {ncce : Nat}

/-- The PUCCH resource of a position can be used. -/
theorem tryPucch_eq_some {nPrb : Int} (h : tryPucch cc ttiRx mask record ncce = some (some nPrb)) :
    (record.needsPucch = false ∧ nPrb = -1) ∨
      (record.needsPucch = true ∧ nPrb = ackPrb cc ncce ∧ srCollides cc ttiRx record ncce = false ∧
        outsideHarqRegion cc nPrb = false ∧ pucchTaken cc mask nPrb = some false) := by
  unfold tryPucch at h
  cases hneeds : record.needsPucch with
  | false =>
    rw [hneeds] at h
    cases h
    exact .inl ⟨rfl, rfl⟩
  | true =>
    rw [hneeds, if_pos rfl] at h
    split at h
    · cases h
    · next hsr =>
      split at h
      · cases h
      · cases h
      · next htaken =>
        split at h
        · cases h
        · next houtside =>
          cases h
          exact .inr ⟨rfl, rfl, Bool.eq_false_iff.mpr hsr, Bool.eq_false_iff.mpr houtside, htaken⟩

/-- Why it cannot be used. -/
theorem tryPucch_eq_none (h : tryPucch cc ttiRx mask record ncce = some none) :
    record.needsPucch = true ∧ (srCollides cc ttiRx record ncce = true ∨
      outsideHarqRegion cc (ackPrb cc ncce) = true ∨
      pucchTaken cc mask (ackPrb cc ncce) = some true) := by
  unfold tryPucch at h
  cases hneeds : record.needsPucch with
  | false =>
    rw [hneeds] at h
    cases h
  | true =>
    rw [hneeds, if_pos rfl] at h
    split at h
    · next hsr => exact ⟨rfl, .inl hsr⟩
    · split at h
      · cases h
      · next htaken => exact ⟨rfl, .inr (.inr htaken)⟩
      · split at h
        · next houtside => exact ⟨rfl, .inr (.inl houtside)⟩
        · cases h

end TryPucch

section TryPosition

variable {cfix : Nat} {nodes : List (TreeNode cc cfix)} {record : AllocRecord} {idx ncce : Nat}

/-- What the node of a position is. -/
structure Takes (cc : CellParams) (ttiRx : Nat) {cfix : Nat} (nodes : List (TreeNode cc cfix))
    (record : AllocRecord) (node : TreeNode cc cfix) : Prop where
  pucch : tryPucch cc ttiRx (totalPucchMask cc nodes) record node.ncce = some (some node.pucchNPrb)
  l : node.l = record.aggrIdx
  rnti : node.rnti = record.user.map SchedUe.rnti
  current : (BoundedBitset.empty (nofCces cc cfix)).fill node.ncce
    (node.ncce + 2 ^ record.aggrIdx.val) = some node.currentMask
  free : ((totalMask cc nodes).inter node.currentMask).any = false
  total : node.totalMask = (totalMask cc nodes).union node.currentMask
  totalPucch : setPucch cc (totalPucchMask cc nodes) node.pucchNPrb = some node.totalPucchMask

theorem tryPosition_eq_some {node : TreeNode cc cfix}
    (h : tryPosition cc ttiRx nodes record idx ncce = some (some node)) :
    node.dciPosIdx = idx ∧ node.ncce = ncce ∧ Takes cc ttiRx nodes record node := by
  unfold tryPosition at h
  split at h
  · cases h
  · cases h
  · next hpucch =>
    split at h
    · cases h
    · next hfill =>
      split at h
      · cases h
      · next hfree =>
        split at h
        · cases h
        · next hset =>
          cases h
          exact ⟨rfl, rfl, hpucch, rfl, rfl, hfill, Bool.eq_false_iff.mpr hfree, rfl, hset⟩

/-- Why a position is left out. -/
theorem tryPosition_eq_none (h : tryPosition cc ttiRx nodes record idx ncce = some none) :
    tryPucch cc ttiRx (totalPucchMask cc nodes) record ncce = some none ∨
      ∃ currentMask, (BoundedBitset.empty (nofCces cc cfix)).fill ncce
        (ncce + 2 ^ record.aggrIdx.val) = some currentMask ∧
          ((totalMask cc nodes).inter currentMask).any = true := by
  unfold tryPosition at h
  split at h
  · cases h
  · next hpucch => exact .inl hpucch
  · split at h
    · cases h
    · next currentMask hfill =>
      split at h
      · next hany => exact .inr ⟨currentMask, hfill, hany⟩
      · split at h
        · cases h
        · cases h

end TryPosition

/-- The first position that can be taken. -/
theorem tryPositions_eq_some {cfix : Nat} {nodes : List (TreeNode cc cfix)} {record : AllocRecord}
    {node : TreeNode cc cfix} {positions : List Nat} {idx : Nat}
    (h : tryPositions cc ttiRx nodes record positions idx = some (some node)) :
    ∃ k, node.dciPosIdx = idx + k ∧ positions[k]? = some node.ncce ∧
      tryPosition cc ttiRx nodes record node.dciPosIdx node.ncce = some (some node) ∧
      ∀ j < k, ∃ ncce, positions[j]? = some ncce ∧
        tryPosition cc ttiRx nodes record (idx + j) ncce = some none := by
  induction positions generalizing idx with
  | nil => cases h
  | cons ncce rest ih =>
    rw [tryPositions] at h
    split at h
    · cases h
    · next hskip =>
      obtain ⟨k, hidx, hpos, htry, hbefore⟩ := ih h
      refine ⟨k + 1, by omega, hpos, htry, fun j hj => ?_⟩
      cases j with
      | zero => exact ⟨ncce, rfl, hskip⟩
      | succ j =>
        obtain ⟨ncce', hpos', htry'⟩ := hbefore j (Nat.lt_of_succ_lt_succ hj)
        refine ⟨ncce', hpos', ?_⟩
        rw [← htry']
        congr 1
        omega
    · next htry =>
      cases h
      obtain ⟨hidx, hncce, -⟩ := tryPosition_eq_some htry
      refine ⟨0, hidx, congrArg some hncce.symm, ?_, nofun⟩
      rw [hidx, hncce]
      exact htry

theorem tryPositions_eq_none {cfix : Nat} {nodes : List (TreeNode cc cfix)} {record : AllocRecord}
    {positions : List Nat} {idx : Nat}
    (h : tryPositions cc ttiRx nodes record positions idx = some none) {k ncce : Nat}
    (hk : positions[k]? = some ncce) :
    tryPosition cc ttiRx nodes record (idx + k) ncce = some none := by
  induction positions generalizing idx k with
  | nil => cases hk
  | cons ncce' rest ih =>
    rw [tryPositions] at h
    split at h
    · cases h
    · next hskip =>
      cases k with
      | zero =>
        cases hk
        exact hskip
      | succ k =>
        rw [← ih h hk]
        congr 1
        omega
    · cases h

section AllocDfsNode

variable {cfix startDciIdx : Nat} {nodes : List (TreeNode cc cfix)} {record : AllocRecord}
  {node : TreeNode cc cfix}

/-- The node that is put at the end of the path, and what has been left out. -/
theorem allocDfsNode_eq_some
    (h : allocDfsNode cc ttiRx nodes record startDciIdx = some (some node)) :
    startDciIdx ≤ node.dciPosIdx ∧
      (record.positions cc ttiRx cfix)[node.dciPosIdx]? = some node.ncce ∧
      tryPosition cc ttiRx nodes record node.dciPosIdx node.ncce = some (some node) ∧
      ∀ j, startDciIdx ≤ j → j < node.dciPosIdx →
        ∃ ncce, (record.positions cc ttiRx cfix)[j]? = some ncce ∧
          tryPosition cc ttiRx nodes record j ncce = some none := by
  obtain ⟨k, hidx, hpos, htry, hbefore⟩ := tryPositions_eq_some h
  rw [List.getElem?_drop, ← hidx] at hpos
  refine ⟨by omega, hpos, htry, fun j hstart hj => ?_⟩
  obtain ⟨ncce, hpos', htry'⟩ := hbefore (j - startDciIdx) (by omega)
  have hsum : startDciIdx + (j - startDciIdx) = j := by omega
  rw [List.getElem?_drop, hsum] at hpos'
  rw [hsum] at htry'
  exact ⟨ncce, hpos', htry'⟩

theorem allocDfsNode_eq_none (h : allocDfsNode cc ttiRx nodes record startDciIdx = some none)
    {j ncce : Nat} (hstart : startDciIdx ≤ j)
    (hpos : (record.positions cc ttiRx cfix)[j]? = some ncce) :
    tryPosition cc ttiRx nodes record j ncce = some none := by
  have hsum : startDciIdx + (j - startDciIdx) = j := by omega
  have hpos' : ((record.positions cc ttiRx cfix).drop startDciIdx)[j - startDciIdx]? = some ncce := by
    rw [List.getElem?_drop, hsum, hpos]
  have htry := tryPositions_eq_none h hpos'
  rwa [hsum] at htry

theorem length_positions_le : (record.positions cc ttiRx cfix).length ≤ maxPositions := by
  unfold AllocRecord.positions
  split
  · exact Nat.zero_le _
  · exact CcePositionList.length_le _

theorem dciPosIdx_lt (h : allocDfsNode cc ttiRx nodes record startDciIdx = some (some node)) :
    node.dciPosIdx < maxPositions := by
  obtain ⟨-, hpos, -, -⟩ := allocDfsNode_eq_some h
  exact Nat.lt_of_lt_of_le (List.getElem?_eq_some_iff.mp hpos).1 length_positions_le

end AllocDfsNode

/-- What the inner loop puts at the end of the path. -/
theorem extend_eq_some {cfix start : Nat} {records : List AllocRecord}
    {nodes nodes' : List (TreeNode cc cfix)} (h : extend cc ttiRx records nodes start = some nodes') :
    ∃ new, nodes' = nodes ++ new ∧ new.length ≤ records.length ∧
      ∀ node rest, new = node :: rest → start ≤ node.dciPosIdx ∧ node.dciPosIdx < maxPositions := by
  induction records generalizing nodes start with
  | nil =>
    cases h
    exact ⟨[], (List.append_nil _).symm, Nat.le_refl _, nofun⟩
  | cons record records ih =>
    rw [extend] at h
    split at h
    · cases h
    · cases h
      exact ⟨[], (List.append_nil _).symm, Nat.zero_le _, nofun⟩
    · next node halloc =>
      obtain ⟨new, rfl, hlen, -⟩ := ih h
      refine ⟨node :: new, by simp, Nat.succ_le_succ hlen, fun node' rest heq => ?_⟩
      cases heq
      exact ⟨(allocDfsNode_eq_some halloc).1, dciPosIdx_lt halloc⟩

/-! ### The outer loops -/

variable (cc ttiRx)

/-- How far a path is from the end of the search. -/
def rank (maxCfix nofRecords : Nat) (path : Path cc) : Nat :=
  (maxCfix + 1 - path.cfix) * (maxPositions + 2) ^ nofRecords
    + Lib.rank maxPositions nofRecords (path.nodes.map TreeNode.dciPosIdx)

variable {cc ttiRx}

/-- A turn of the outer loop of `get_next_dfs` comes closer to the end. -/
theorem rank_lt {maxCfix start : Nat} {records : List AllocRecord} {path path' : Path cc}
    {nodes : List (TreeNode cc path'.cfix)} (hback : stepBack cc maxCfix path = some (path', start))
    (hextend : extend cc ttiRx (records.drop path'.nodes.length) path'.nodes start = some nodes) :
    rank cc maxCfix records.length ⟨path'.cfix, nodes⟩ < rank cc maxCfix records.length path := by
  obtain ⟨new, rfl, hlen, hfirst⟩ := extend_eq_some hextend
  rw [List.length_drop] at hlen
  obtain ⟨cfix, oldNodes⟩ := path
  unfold stepBack at hback
  rcases List.eq_nil_or_concat oldNodes with rfl | ⟨front, last, rfl⟩
  · simp only [List.getLast?_nil] at hback
    split at hback
    · cases hback
    · cases hback
      have hnew : (new.map TreeNode.dciPosIdx).length ≤ records.length := by
        rw [List.length_map]
        exact hlen
      have hrank := rank_lt_pow (w := maxPositions) hnew
      have hcfix : maxCfix + 1 - cfix = maxCfix + 1 - (cfix + 1) + 1 := by omega
      unfold rank
      rw [hcfix, Nat.add_mul, Nat.one_mul]
      exact Nat.lt_of_lt_of_le (Nat.add_lt_add_left hrank _) (Nat.le_add_right _ _)
  · rw [List.concat_eq_append] at hback ⊢
    simp only [List.getLast?_concat, List.dropLast_concat, Option.some.injEq, Prod.mk.injEq] at hback
    obtain ⟨rfl, rfl⟩ := hback
    refine Nat.add_lt_add_left ?_ _
    rw [List.map_append, List.map_append]
    cases new with
    | nil =>
      rw [List.map_nil, List.append_nil]
      exact rank_lt_concat _ _ _ _
    | cons node rest =>
      obtain ⟨hstart, hlt⟩ := hfirst node rest rfl
      refine rank_lt_of_lt hstart hlt ?_
      rw [List.length_append, List.length_cons, List.length_map, List.length_map]
      rw [List.length_cons] at hlen
      omega

variable (cc ttiRx)

/-- `get_next_dfs`: the next path, or `some none` when there is none. -/
def getNextDfs (maxCfix : Nat) (records : List AllocRecord) (path : Path cc) :
    Option (Option (Path cc)) :=
  match hback : stepBack cc maxCfix path with
  | none => some none
  | some (path', start) =>
    match hextend : extend cc ttiRx (records.drop path'.nodes.length) path'.nodes start with
    | none => none
    | some nodes =>
      if nodes.length < records.length then
        have := rank_lt hback hextend
        getNextDfs maxCfix records ⟨path'.cfix, nodes⟩
      else some (some ⟨path'.cfix, nodes⟩)
termination_by rank cc maxCfix records.length path

variable {cc ttiRx}

/-- A turn of the outer loop. -/
theorem getNextDfs_eq_some {maxCfix : Nat} {records : List AllocRecord} {path : Path cc}
    {next : Option (Path cc)} (h : getNextDfs cc ttiRx maxCfix records path = some next) :
    (stepBack cc maxCfix path = none ∧ next = none) ∨
    ∃ path' start nodes, stepBack cc maxCfix path = some (path', start) ∧
      extend cc ttiRx (records.drop path'.nodes.length) path'.nodes start = some nodes ∧
      ((nodes.length < records.length ∧
          getNextDfs cc ttiRx maxCfix records ⟨path'.cfix, nodes⟩ = some next) ∨
        (records.length ≤ nodes.length ∧ next = some ⟨path'.cfix, nodes⟩)) := by
  rw [getNextDfs] at h
  split at h
  · next hback => exact .inl ⟨hback, (Option.some.inj h).symm⟩
  · next path' start hback =>
    split at h
    · cases h
    · next nodes hextend =>
      refine .inr ⟨path', start, nodes, hback, hextend, ?_⟩
      split at h
      · next hlt => exact .inl ⟨hlt, h⟩
      · next hle => exact .inr ⟨Nat.le_of_not_lt hle, (Option.some.inj h).symm⟩

/-- The rule for the outer loop, with `Inv` for the paths that it goes back from and `Found` for
the one that it returns, which has a lower rank. -/
theorem getNextDfs_rule {maxCfix : Nat} {records : List AllocRecord} {Inv Found : Path cc → Prop}
    (hstep : ∀ path path' start nodes, Inv path → stepBack cc maxCfix path = some (path', start) →
      extend cc ttiRx (records.drop path'.nodes.length) path'.nodes start = some nodes →
      if nodes.length < records.length then Inv ⟨path'.cfix, nodes⟩ else Found ⟨path'.cfix, nodes⟩)
    {path : Path cc} (hinv : Inv path) {next : Option (Path cc)}
    (h : getNextDfs cc ttiRx maxCfix records path = some next) :
    (next = none → ∃ path', Inv path' ∧ stepBack cc maxCfix path' = none) ∧
      ∀ path', next = some path' → Found path' ∧
        rank cc maxCfix records.length path' < rank cc maxCfix records.length path := by
  induction hr : rank cc maxCfix records.length path using Nat.strong_induction_on
    generalizing path with
  | _ r ih =>
    subst hr
    rcases getNextDfs_eq_some h with ⟨hback, rfl⟩ | ⟨path', start, nodes, hback, hextend, hcase⟩
    · exact ⟨fun _ => ⟨path, hinv, hback⟩, nofun⟩
    · have hlt := rank_lt hback hextend
      have hinv' := hstep path path' start nodes hinv hback hextend
      rcases hcase with ⟨hless, hnext⟩ | ⟨hle, rfl⟩
      · rw [if_pos hless] at hinv'
        obtain ⟨hnone, hsome⟩ := ih _ hlt hinv' hnext rfl
        refine ⟨hnone, fun path'' heq => ?_⟩
        obtain ⟨hfound, hlt'⟩ := hsome path'' heq
        exact ⟨hfound, Nat.lt_trans hlt' hlt⟩
      · rw [if_neg (Nat.not_lt.mpr hle)] at hinv'
        refine ⟨nofun, fun path'' heq => ?_⟩
        cases heq
        exact ⟨hinv', hlt⟩

theorem rank_getNextDfs {maxCfix : Nat} {records : List AllocRecord} {path next : Path cc}
    (h : getNextDfs cc ttiRx maxCfix records path = some (some next)) :
    rank cc maxCfix records.length next < rank cc maxCfix records.length path := by
  have hrule := @getNextDfs_rule cc ttiRx maxCfix records (fun _ => True) (fun _ => True)
    (fun _ _ _ _ _ _ _ => by split <;> trivial) path trivial (some next) h
  exact (hrule.2 next rfl).2

variable (cc ttiRx)

/-- The loop of `alloc_dci`: the path with a node of the record, or `some none`. -/
def allocLoop (maxCfix : Nat) (records : List AllocRecord) (record : AllocRecord) (path : Path cc) :
    Option (Option (Path cc)) :=
  match allocDfsNode cc ttiRx path.nodes record 0 with
  | none => none
  | some (some node) => some (some ⟨path.cfix, path.nodes ++ [node]⟩)
  | some none =>
    match hnext : getNextDfs cc ttiRx maxCfix records path with
    | none => none
    | some none => some none
    | some (some next) =>
      have := rank_getNextDfs hnext
      allocLoop maxCfix records record next
termination_by rank cc maxCfix records.length path

variable {cc ttiRx}

theorem allocLoop_eq_some {maxCfix : Nat} {records : List AllocRecord} {record : AllocRecord}
    {path : Path cc} {next : Option (Path cc)}
    (h : allocLoop cc ttiRx maxCfix records record path = some next) :
    (∃ node, allocDfsNode cc ttiRx path.nodes record 0 = some (some node) ∧
      next = some ⟨path.cfix, path.nodes ++ [node]⟩) ∨
    (allocDfsNode cc ttiRx path.nodes record 0 = some none ∧
      ((getNextDfs cc ttiRx maxCfix records path = some none ∧ next = none) ∨
        ∃ path', getNextDfs cc ttiRx maxCfix records path = some (some path') ∧
          allocLoop cc ttiRx maxCfix records record path' = some next)) := by
  rw [allocLoop] at h
  split at h
  · cases h
  · next node halloc => exact .inl ⟨node, halloc, (Option.some.inj h).symm⟩
  · next halloc =>
    refine .inr ⟨halloc, ?_⟩
    split at h
    · cases h
    · next hnone => exact .inl ⟨hnone, (Option.some.inj h).symm⟩
    · next path' hsome => exact .inr ⟨path', hsome, h⟩

/-- The rule for the loop: it tries the record on paths that are `Found`, and goes back from those
where it fails. -/
theorem allocLoop_rule {maxCfix : Nat} {records : List AllocRecord} {record : AllocRecord}
    {Inv Found : Path cc → Prop}
    (hfail : ∀ path, Found path → allocDfsNode cc ttiRx path.nodes record 0 = some none → Inv path)
    (hstep : ∀ path path' start nodes, Inv path → stepBack cc maxCfix path = some (path', start) →
      extend cc ttiRx (records.drop path'.nodes.length) path'.nodes start = some nodes →
      if nodes.length < records.length then Inv ⟨path'.cfix, nodes⟩ else Found ⟨path'.cfix, nodes⟩)
    {path : Path cc} (hfound : Found path) {next : Option (Path cc)}
    (h : allocLoop cc ttiRx maxCfix records record path = some next) :
    (next = none → ∃ path', Inv path' ∧ stepBack cc maxCfix path' = none) ∧
      ∀ path', next = some path' → ∃ path'' node, Found path'' ∧
        allocDfsNode cc ttiRx path''.nodes record 0 = some (some node) ∧
        path' = ⟨path''.cfix, path''.nodes ++ [node]⟩ := by
  induction hr : rank cc maxCfix records.length path using Nat.strong_induction_on
    generalizing path with
  | _ r ih =>
    subst hr
    rcases allocLoop_eq_some h with ⟨node, halloc, rfl⟩ | ⟨halloc, hcase⟩
    · refine ⟨nofun, fun path' heq => ?_⟩
      exact ⟨path, node, hfound, halloc, (Option.some.inj heq).symm⟩
    · have hinv := hfail path hfound halloc
      rcases hcase with ⟨hnone, rfl⟩ | ⟨path', hsome, hloop⟩
      · exact ⟨(getNextDfs_rule hstep hinv hnone).1, nofun⟩
      · obtain ⟨hfound', hlt⟩ := (getNextDfs_rule hstep hinv hsome).2 path' rfl
        exact ih _ hlt hfound' hloop rfl

end Search

/-! ### The allocator -/

/-- What `sf_cch_allocator` keeps: `last_dci_dfs` with `current_cfix` is the path. -/
structure State (cc : CellParams) where
  ttiRx : Nat
  path : Path cc
  maxCfix : Nat
  records : List AllocRecord

section Allocator

variable (cc : CellParams)

/-- An allocator before its first subframe. -/
def State.init : State cc where
  ttiRx := 0
  path := ⟨0, []⟩
  maxCfix := 0
  records := []

variable {cc}

/-- `new_tti` -/
def newTti (ttiRx : Nat) : State cc where
  ttiRx := ttiRx
  path := ⟨cc.minNofCtrlSymbols - 1, []⟩
  maxCfix := cc.maxNofCtrlSymbols - 1
  records := []

/-- The loop of `alloc_dci` for the CFI with most positions, down from the highest one. -/
def mostPositions (nofLocs : Nat → Nat) (lowest : Nat) : Nat → Nat → Nat → Nat
  | 0, _, cfix => cfix
  | cfixTmp + 1, most, cfix =>
    if cfixTmp + 1 > lowest ∧ nofLocs (cfixTmp + 1) > most then
      mostPositions nofLocs lowest cfixTmp (nofLocs (cfixTmp + 1)) (cfixTmp + 1)
    else cfix

/-- Where the search of `alloc_dci` starts. A path without records is empty. -/
def startPath (s : State cc) (record : AllocRecord) : Path cc :=
  if isDlCtrlAlloc record.allocType ∧ s.records.length = 0 ∧ cc.nofPrb ≤ 25 ∧
      s.maxCfix > s.path.cfix then
    ⟨mostPositions (fun cfix => (record.positions cc s.ttiRx cfix).length) s.path.cfix s.maxCfix 0
      s.path.cfix, []⟩
  else s.path

/-- `alloc_dci`. The copy of the path to which it goes back is the one at its start. -/
def allocDci (s : State cc) (record : AllocRecord) : Option (State cc × Bool) :=
  match allocLoop cc s.ttiRx s.maxCfix s.records record (startPath s record) with
  | none => none
  | some none => some (s, false)
  | some (some path) =>
    some ({ s with
      path := path
      records := s.records ++ [record]
      maxCfix := if isDlCtrlAlloc record.allocType then path.cfix else s.maxCfix }, true)

/-- `rem_last_dci`, which asserts that there is a record. -/
def remLastDci (s : State cc) : Option (State cc) :=
  if s.records.isEmpty then none
  else
    some { s with
      path := ⟨s.path.cfix, s.path.nodes.dropLast⟩
      records := s.records.dropLast }

/-- The calls of an allocator. -/
inductive Op where
  | newTti (ttiRx : Nat)
  | allocDci (record : AllocRecord)
  | remLastDci

/-- A call, with the result of `alloc_dci`. -/
def step (s : State cc) : Op → Option (State cc × Bool)
  | .newTti ttiRx => some (newTti ttiRx, true)
  | .allocDci record => allocDci s record
  | .remLastDci => (remLastDci s).map fun s => (s, true)

end Allocator

end Odss.Mac.SfCchAllocator
