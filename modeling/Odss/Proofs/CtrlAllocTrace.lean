import Odss.Proofs.PdcchSearch
import Odss.Proofs.SubframeNoOverlap

/-!
# `Odss.Proofs.CtrlAllocTrace`: what a control allocation that fails leaves behind

`alloc_sib`, `alloc_paging` and `alloc_rar` give back what they have taken when the code rate of
the DCI is refused. The RBGs are free again, but the search of the PDCCH may have gone on to another
path, and the maximum CFI is that of the path.

* `allocLoop_self`: the search ends at the path at which it has started only when the DCI fits
  behind it at once.
* `cancel_eq` is the state of the PDCCH behind a cancellation, and `cancel_iff` says when it is the
  one before.
* `leavesNoTrace_iff_inPlace` is the exact condition for the calls.
-/

set_option linter.all false

namespace Odss.Mac

open Odss.Lib

/-! ### The PDCCH -/

namespace SfCchAllocator

variable {cc : CellParams}

/-- The CFI, the maximum CFI, the DCIs and their positions are the same. -/
structure SameDcis (s s' : State cc) : Prop where
  cfi : s'.path.cfix = s.path.cfix
  maxCfi : s'.maxCfix = s.maxCfix
  records : s'.records = s.records
  positions : s'.path.idxs = s.path.idxs

/-- The maximum CFI is the current one, and the DCI fits behind the others where they are. -/
def InPlace (s : State cc) (record : AllocRecord) : Prop :=
  s.maxCfix = s.path.cfix ∧
    ∃ node, allocDfsNode cc s.ttiRx s.path.nodes record 0 = some (some node)

/-- The search goes forward: it ends at the path where it has started, with a node of the record
behind it at once, or at a path of a lower rank. -/
theorem allocLoop_self {ttiRx maxCfix : Nat} {records : List AllocRecord} {record : AllocRecord}
    {path path' : Path cc}
    (h : allocLoop cc ttiRx maxCfix records record path = some (some path')) :
    ∃ (front : Path cc) (node : TreeNode cc front.cfix),
      path' = ⟨front.cfix, front.nodes ++ [node]⟩ ∧
      allocDfsNode cc ttiRx front.nodes record 0 = some (some node) ∧
      (front = path ∨ rank cc maxCfix records.length front < rank cc maxCfix records.length path) := by
  have hrule := @allocLoop_rule cc ttiRx maxCfix records record
    (fun q => rank cc maxCfix records.length q ≤ rank cc maxCfix records.length path)
    (fun q => q = path ∨ rank cc maxCfix records.length q < rank cc maxCfix records.length path)
    (fun q hq _ => by
      rcases hq with rfl | hlt
      · exact Nat.le_refl _
      · exact Nat.le_of_lt hlt)
    (fun q q' start nodes hq hback hextend => by
      have hlt := Nat.lt_of_lt_of_le (rank_lt hback hextend) hq
      split
      · exact Nat.le_of_lt hlt
      · exact .inr hlt)
    path (.inl rfl) (some path') h
  obtain ⟨front, node, hfound, hnode, heq⟩ := hrule.2 path' rfl
  exact ⟨front, node, heq, hnode, hfound⟩

/-- The state behind a control allocation that is taken back. -/
def cancelled (s : State cc) (front : Path cc) : State cc :=
  { s with
    path := front
    maxCfix := front.cfix }

/-- The rank knows the CFI and the positions only. -/
theorem rank_congr (maxCfix nofRecords : Nat) {path path' : Path cc} (hcfi : path.cfix = path'.cfix)
    (hidxs : path.idxs = path'.idxs) :
    rank cc maxCfix nofRecords path = rank cc maxCfix nofRecords path' := by
  show (maxCfix + 1 - path.cfix) * _ + Lib.rank _ _ path.idxs = _
  rw [hcfi, hidxs]
  rfl

theorem startPath_of_maxCfix {s : State cc} (record : AllocRecord) (h : s.maxCfix = s.path.cfix) :
    startPath s record = s.path := by
  unfold startPath
  rw [if_neg fun hcond => Nat.ne_of_gt hcond.2.2.2 h]

/-- A control allocation whose search ends at `path`, with the state behind it and the path that is
left when it is taken back. -/
structure Cancels (s : State cc) (record : AllocRecord) (path : Path cc) (s₁ : State cc)
    (front : Path cc) : Prop where
  alloc : allocDci s record = some (s₁, true)
  path_eq : s₁.path = path
  records : s₁.records ≠ []
  cancel : remLastDci s₁ = some (cancelled s front)
  node : ∃ node, path = ⟨front.cfix, front.nodes ++ [node]⟩ ∧
    allocDfsNode cc s.ttiRx front.nodes record 0 = some (some node)
  forward : front = startPath s record ∨ rank cc s.maxCfix s.records.length front
    < rank cc s.maxCfix s.records.length (startPath s record)

section Cancel

variable {s : State cc} {record : AllocRecord}

theorem cancels_of_allocLoop (hctrl : isDlCtrlAlloc record.allocType = true) {path : Path cc}
    (hloop : allocLoop cc s.ttiRx s.maxCfix s.records record (startPath s record)
      = some (some path)) : ∃ s₁ front, Cancels s record path s₁ front := by
  obtain ⟨front, node, rfl, hnode, hfront⟩ := allocLoop_self hloop
  refine ⟨_, front, by rw [allocDci, hloop], rfl, by simp, ?_, ⟨node, rfl, hnode⟩, hfront⟩
  unfold remLastDci
  rw [if_neg (by simp)]
  simp only [List.dropLast_concat, hctrl, if_true]
  rfl

theorem exists_allocLoop {s₁ : State cc} (h : allocDci s record = some (s₁, true)) :
    ∃ path, allocLoop cc s.ttiRx s.maxCfix s.records record (startPath s record)
      = some (some path) := by
  unfold allocDci at h
  split at h
  · cases h
  · cases h
  · next path hloop => exact ⟨path, hloop⟩

/-- Nothing is left of a DCI that was put in place. -/
theorem Cancels.eq_of_inPlace {path front : Path cc} {s₁ : State cc}
    (h : Cancels s record path s₁ front)
    (hloop : allocLoop cc s.ttiRx s.maxCfix s.records record (startPath s record)
      = some (some path)) (hin : InPlace s record) : cancelled s front = s := by
  obtain ⟨hmax, node', hnode'⟩ := hin
  obtain ⟨node, hpath, -⟩ := h.node
  rw [startPath_of_maxCfix record hmax, allocLoop, hnode'] at hloop
  have hfrom := Option.some.inj (Option.some.inj hloop)
  rw [hpath] at hfrom
  have heq := congrArg (fun q : Path cc => (⟨q.cfix, q.nodes.dropLast⟩ : Path cc)) hfrom
  simp only [List.dropLast_concat] at heq
  have hsame : s.path = front := heq
  unfold cancelled
  rw [← hsame, ← hmax]

/-- Otherwise the CFI, the maximum CFI or a position is another one. -/
theorem Cancels.inPlace {path front : Path cc} {s₁ : State cc} (h : Cancels s record path s₁ front)
    (hsame : SameDcis s (cancelled s front)) : InPlace s record := by
  have hcfi : front.cfix = s.path.cfix := hsame.cfi
  have hmax : s.maxCfix = s.path.cfix := hsame.maxCfi.symm.trans hcfi
  obtain ⟨node, -, hnode⟩ := h.node
  have hforward := h.forward
  rw [startPath_of_maxCfix record hmax] at hforward
  rcases hforward with rfl | hlt
  · exact ⟨hmax, node, hnode⟩
  · have hrank := rank_congr s.maxCfix s.records.length hcfi hsame.positions
    omega

end Cancel

end SfCchAllocator

/-! ### The calls -/

namespace Subframe

open SfCchAllocator (State AllocRecord AllocType isDlCtrlAlloc allocDci remLastDci allocLoop startPath
  SameDcis InPlace Cancels cancelled Path)

variable {p g : Nat}

/-- The calls for control allocations. -/
inductive CtrlCall where
  | allocSib (aggrIdx : Fin 4) (sibIdx : Fin maxSibs) (rbgs : RbgInterval)
  | allocPaging (aggrIdx : Fin 4) (pagingPayload : Nat) (rbgs : RbgInterval)
  | allocRar (aggrIdx : Fin 4) (rar : List RarInfo) (rbgs : RbgInterval) (nofGrants : UInt32)

namespace CtrlCall

def toOp : CtrlCall → Op p g
  | allocSib aggrIdx sibIdx rbgs => .allocSib aggrIdx sibIdx rbgs
  | allocPaging aggrIdx pagingPayload rbgs => .allocPaging aggrIdx pagingPayload rbgs
  | allocRar aggrIdx rar rbgs nofGrants => .allocRar aggrIdx rar rbgs nofGrants

def rbgs : CtrlCall → RbgInterval
  | allocSib _ _ rbgs => rbgs
  | allocPaging _ _ rbgs => rbgs
  | allocRar _ _ rbgs _ => rbgs

/-- The bytes for which the code rate is computed. -/
def reqBytes (cell : SubframeCell p) : CtrlCall → Nat
  | allocSib _ sibIdx _ => cell.sibLen sibIdx
  | allocPaging _ pagingPayload _ => pagingPayload
  | allocRar _ _ _ nofGrants => (7 * nofGrants + 1).toNat

theorem hasUser_ctrl {type : AllocType} (h : isDlCtrlAlloc type = true)
    (hdata : type = .dlData ∨ type = .ulData) : (none : Option SfCchAllocator.SchedUe).isSome := by
  rcases hdata with rfl | rfl
  · cases h
  · cases h

/-- The DCI of a control allocation. -/
def ctrlRecord (aggrIdx : Fin 4) (type : AllocType) (h : isDlCtrlAlloc type = true) : AllocRecord where
  puschUci := false
  aggrIdx := aggrIdx
  allocType := type
  user := none
  hasUser := hasUser_ctrl h

/-- The DCI. -/
def record : CtrlCall → AllocRecord
  | allocSib aggrIdx _ _ => ctrlRecord aggrIdx .dlBc rfl
  | allocPaging aggrIdx _ _ => ctrlRecord aggrIdx .dlPcch rfl
  | allocRar aggrIdx _ _ _ => ctrlRecord aggrIdx .dlRar rfl

/-- The list of allocations is not full, and a Msg3 has its PRBs. -/
def HasRoom {κ : Type} (cell : SubframeCell p) (s : Subframe p g κ) : CtrlCall → Prop
  | allocSib _ _ _ => s.bcAllocs.length < maxBcList
  | allocPaging _ _ _ => s.bcAllocs.length < maxBcList
  | allocRar _ _ _ nofGrants =>
    s.rarAllocs.length < maxRarList ∧ s.lastMsg3Prb + 3 * nofGrants ≤ cell.maxMsg3Prb

end CtrlCall

section Calls

variable {cell : SubframeCell p} {asUser : Mac.SchedUe p g → SfCchAllocator.SchedUe}
  {aggr : Mac.SchedUe p g → AllocType → Fin 4}

/-- RBGs and CCEs are there for a DCI: the RBGs are free, and the search of the PDCCH ends at the
path. -/
structure Takes (cell : SubframeCell p) (s : Subframe p g (State cell.cch)) (rbgs : RbgInterval)
    (record : AllocRecord) (path : Path cell.cch) : Prop where
  stop_le : rbgs.stop ≤ g
  free : ∀ rbg, rbgs.start ≤ rbg → rbg < rbgs.stop → ¬ s.dlMask.Has rbg
  loop : allocLoop cell.cch s.pdcch.ttiRx s.pdcch.maxCfix s.pdcch.records record
    (startPath s.pdcch record) = some (some path)

/-- RBGs and CCEs are there, and the code rate is refused for the CFI of the path. -/
def Refused (cell : SubframeCell p) (s : Subframe p g (State cell.cch)) (c : CtrlCall) : Prop :=
  c.HasRoom cell s ∧ ∃ path, Takes cell s c.rbgs c.record path ∧
    cell.format1aFits (toTxDl s.ttiRx) (c.reqBytes cell) c.rbgs (path.cfix + 1) = false

section Ctrl

variable {s s' : Subframe p g (State cell.cch)} {aggrIdx : Fin 4} {type : AllocType}
  {rbgs : RbgInterval} (hctrl : isDlCtrlAlloc type = true)

theorem allocDlCtrl_takes {code : AllocResult}
    (h : s.allocDlCtrl (SfCchAllocator.toPdcch cell.cch asUser aggr) aggrIdx rbgs type
      = some (code, s')) :
    (code ≠ .success ∧ s' = s ∧
        ∀ path, ¬ Takes cell s rbgs (CtrlCall.ctrlRecord aggrIdx type hctrl) path) ∨
      ∃ path mask s₁ front, code = .success ∧
        Takes cell s rbgs (CtrlCall.ctrlRecord aggrIdx type hctrl) path ∧
        (BoundedBitset.empty g).fill rbgs.start rbgs.stop = some mask ∧
        (s.dlMask.inter mask).any = false ∧
        Cancels s.pdcch (CtrlCall.ctrlRecord aggrIdx type hctrl) path s₁ front ∧
        s' = { s with
          pdcch := s₁
          dlMask := s.dlMask.union mask } := by
  unfold allocDlCtrl at h
  rw [hctrl] at h
  simp only [Bool.not_true, Bool.false_eq_true, if_false] at h
  split at h
  · next hstop =>
    cases h
    exact .inl ⟨nofun, rfl, fun path htakes => absurd htakes.stop_le (Nat.not_le_of_lt hstop)⟩
  next hstop =>
  split at h
  · cases h
  next mask hmask =>
  have hhas := BoundedBitset.has_of_fill hmask
  unfold SfSched.allocDl at h
  by_cases hany : (s.dlMask.inter mask).any = true
  · rw [if_pos hany] at h
    cases h
    refine .inl ⟨nofun, rfl, fun path htakes => ?_⟩
    obtain ⟨rbg, hrbg⟩ := (BoundedBitset.any_iff _).mp hany
    obtain ⟨hdl, hin⟩ := (BoundedBitset.has_inter _ _ rbg).mp hrbg
    have hrange := ((hhas rbg).mp hin).resolve_right (BoundedBitset.not_has_empty rbg)
    exact htakes.free rbg hrange.1 hrange.2 hdl
  · rw [if_neg hany] at h
    have hcall : (SfCchAllocator.toPdcch cell.cch asUser aggr).allocCtrlDci s.pdcch aggrIdx type
        = SfCchAllocator.toPdcch.allocated cell.cch
          (allocDci s.pdcch (CtrlCall.ctrlRecord aggrIdx type hctrl)) := dif_pos hctrl
    have hfree : ∀ rbg, rbgs.start ≤ rbg → rbg < rbgs.stop → ¬ s.dlMask.Has rbg := by
      intro rbg hfrom hto hdl
      exact hany ((BoundedBitset.any_iff _).mpr ⟨rbg, (BoundedBitset.has_inter _ _ rbg).mpr
        ⟨hdl, (hhas rbg).mpr (.inl ⟨hfrom, hto⟩)⟩⟩)
    simp only [hcall] at h
    by_cases hloop : ∃ path, allocLoop cell.cch s.pdcch.ttiRx s.pdcch.maxCfix s.pdcch.records
        (CtrlCall.ctrlRecord aggrIdx type hctrl)
        (startPath s.pdcch (CtrlCall.ctrlRecord aggrIdx type hctrl)) = some (some path)
    · obtain ⟨path, hloop⟩ := hloop
      obtain ⟨s₁, front, hcancels⟩ := SfCchAllocator.cancels_of_allocLoop hctrl hloop
      rw [hcancels.alloc] at h
      cases h
      exact .inr ⟨path, mask, s₁, front, rfl, ⟨Nat.le_of_not_lt hstop, hfree, hloop⟩, hmask,
        Bool.eq_false_iff.mpr hany, hcancels, rfl⟩
    · have hnone : SfCchAllocator.toPdcch.allocated cell.cch
          (allocDci s.pdcch (CtrlCall.ctrlRecord aggrIdx type hctrl)) = none := by
        unfold SfCchAllocator.toPdcch.allocated
        split
        · next hdci => exact absurd (SfCchAllocator.exists_allocLoop hdci) hloop
        · rfl
      rw [hnone] at h
      cases h
      exact .inl ⟨nofun, rfl, fun path htakes => hloop ⟨path, htakes.loop⟩⟩

/-- The RBGs that were taken are free again. -/
theorem dlMask_restored {mask : BoundedBitset g} (h : (s.dlMask.inter mask).any = false) :
    (s.dlMask.union mask).inter mask.compl = s.dlMask := by
  refine BoundedBitset.ext fun rbg hlt => ?_
  have hdisjoint : s.dlMask.Has rbg → ¬ mask.Has rbg := by
    intro hdl hin
    rw [(BoundedBitset.any_iff _).mpr ⟨rbg, (BoundedBitset.has_inter _ _ rbg).mpr ⟨hdl, hin⟩⟩] at h
    cases h
  rw [BoundedBitset.has_inter, BoundedBitset.has_union, BoundedBitset.has_compl]
  constructor
  · rintro ⟨hdl | hin, hout⟩
    · exact hdl
    · exact absurd hin hout.2
  · intro hdl
    exact ⟨.inl hdl, hlt, hdisjoint hdl⟩

/-- A control allocation that fails has changed nothing, or the code rate is refused and the RBGs
and the DCI are given back. -/
theorem allocWithDci_error {δ : Type} {generate : Nat → Option (Option δ)} {code : AllocResult}
    (h : s.allocWithDci (SfCchAllocator.toPdcch cell.cch asUser aggr) aggrIdx rbgs type generate
      = some (.error code, s')) :
    (s' = s ∧ ∀ path, ¬ Takes cell s rbgs (CtrlCall.ctrlRecord aggrIdx type hctrl) path) ∨
      ∃ path s₁ front, Takes cell s rbgs (CtrlCall.ctrlRecord aggrIdx type hctrl) path ∧
        Cancels s.pdcch (CtrlCall.ctrlRecord aggrIdx type hctrl) path s₁ front ∧
        generate (path.cfix + 1) = some none ∧
        s' = { s with pdcch := cancelled s.pdcch front } := by
  unfold allocWithDci at h
  cases hdl : s.allocDlCtrl (SfCchAllocator.toPdcch cell.cch asUser aggr) aggrIdx rbgs type with
  | none =>
    rw [hdl] at h
    cases h
  | some r =>
    obtain ⟨code', s₂⟩ := r
    rw [hdl] at h
    rcases allocDlCtrl_takes hctrl hdl with ⟨hcode, rfl, hnot⟩ |
      ⟨path, mask, s₁, front, rfl, htakes, hmask, hany, hcancels, rfl⟩
    · refine .inl ⟨?_, hnot⟩
      cases code' with
      | success => exact absurd rfl hcode
      | _ =>
        cases h
        rfl
    · refine .inr ⟨path, s₁, front, htakes, hcancels, ?_⟩
      have hcfi : (SfCchAllocator.toPdcch cell.cch asUser aggr).cfi s₁ = path.cfix + 1 := by
        rw [← hcancels.path_eq]
        rfl
      simp only [hcfi] at h
      cases hgen : generate (path.cfix + 1) with
      | none =>
        rw [hgen] at h
        cases h
      | some dci =>
        rw [hgen] at h
        cases dci with
        | some dci => cases h
        | none =>
          refine ⟨rfl, ?_⟩
          have hcount : (SfCchAllocator.toPdcch cell.cch asUser aggr).nofAllocs s₁ ≠ 0 := by
            show s₁.records.length ≠ 0
            exact fun hzero => hcancels.records (List.length_eq_zero_iff.mp hzero)
          have hrem : (SfCchAllocator.toPdcch cell.cch asUser aggr).remLastDci s₁
              = cancelled s.pdcch front := by
            show (remLastDci s₁).getD s₁ = _
            rw [hcancels.cancel]
            rfl
          simp only [remLastAllocDl, if_neg hcount, hmask, hrem, dlMask_restored hany] at h
          cases h
          rfl

/-- A SIB or a paging message. -/
theorem allocBc_error {reqBytes : Nat} {code : AllocResult}
    (h : s.allocBc cell (SfCchAllocator.toPdcch cell.cch asUser aggr) aggrIdx type reqBytes rbgs
      = some (code, s')) (hcode : code ≠ .success) :
    (s' = s ∧ ¬ (s.bcAllocs.length < maxBcList ∧ ∃ path,
        Takes cell s rbgs (CtrlCall.ctrlRecord aggrIdx type hctrl) path ∧
        cell.format1aFits (toTxDl s.ttiRx) reqBytes rbgs (path.cfix + 1) = false)) ∨
      ∃ path s₁ front, s.bcAllocs.length < maxBcList ∧
        Takes cell s rbgs (CtrlCall.ctrlRecord aggrIdx type hctrl) path ∧
        cell.format1aFits (toTxDl s.ttiRx) reqBytes rbgs (path.cfix + 1) = false ∧
        Cancels s.pdcch (CtrlCall.ctrlRecord aggrIdx type hctrl) path s₁ front ∧
        s' = { s with pdcch := cancelled s.pdcch front } := by
  unfold allocBc at h
  split at h
  · next hfull =>
    cases h
    exact .inl ⟨rfl, fun hroom => absurd hroom.1 (Nat.not_lt_of_le hfull)⟩
  next hroom =>
  split at h
  · cases h
  · next code' s₂ hdci =>
    cases h
    rcases allocWithDci_error hctrl hdci with ⟨rfl, hnot⟩ |
      ⟨path, s₁, front, htakes, hcancels, hgen, rfl⟩
    · exact .inl ⟨rfl, fun hrefused => by
        obtain ⟨-, path, htakes, -⟩ := hrefused
        exact hnot path htakes⟩
    · refine .inr ⟨path, s₁, front, Nat.lt_of_not_le hroom, htakes, ?_, hcancels, rfl⟩
      unfold generateBcDci at hgen
      split at hgen
      · cases hgen
      · next hfits => exact Bool.eq_false_iff.mpr hfits
  · cases h
    exact absurd rfl hcode

theorem allocRar_error {rar : List RarInfo} {nofGrants : UInt32} {code : AllocResult}
    (h : s.allocRar cell (SfCchAllocator.toPdcch cell.cch asUser aggr) aggrIdx rar rbgs nofGrants
      = some (code, s')) (hcode : code ≠ .success) :
    (s' = s ∧ ¬ Refused cell s (.allocRar aggrIdx rar rbgs nofGrants)) ∨
      ∃ path s₁ front, Refused cell s (.allocRar aggrIdx rar rbgs nofGrants) ∧
        Takes cell s rbgs (CtrlCall.ctrlRecord aggrIdx .dlRar rfl) path ∧
        Cancels s.pdcch (CtrlCall.ctrlRecord aggrIdx .dlRar rfl) path s₁ front ∧
        s' = { s with pdcch := cancelled s.pdcch front } := by
  unfold allocRar at h
  split at h
  · next hfull =>
    cases h
    exact .inl ⟨rfl, fun hrefused => absurd hrefused.1.1 (Nat.not_lt_of_le hfull)⟩
  next hroom =>
  simp only at h
  split at h
  · next hspace =>
    cases h
    exact .inl ⟨rfl, fun hrefused => absurd hrefused.1.2 (UInt32.not_le.mpr hspace)⟩
  next hspace =>
  split at h
  · cases h
  · next code' s₂ hdci =>
    cases h
    rcases allocWithDci_error rfl hdci with ⟨rfl, hnot⟩ |
      ⟨path, s₁, front, htakes, hcancels, hgen, rfl⟩
    · exact .inl ⟨rfl, fun hrefused => by
        obtain ⟨-, path, htakes, -⟩ := hrefused
        exact hnot path htakes⟩
    · have hfits : cell.format1aFits (toTxDl s.ttiRx) (7 * nofGrants + 1).toNat rbgs
          (path.cfix + 1) = false := by
        unfold generateRarDci at hgen
        split at hgen
        · next hfits => exact (Bool.not_eq_true' _).mp hfits
        · split at hgen <;> cases hgen
      exact .inr ⟨path, s₁, front, ⟨⟨Nat.lt_of_not_le hroom, UInt32.not_lt.mp hspace⟩, path, htakes,
        hfits⟩, htakes, hcancels, rfl⟩
  · cases h
    exact absurd rfl hcode

end Ctrl

/-- What a control allocation that fails has done: nothing, or it has been refused for its code
rate. -/
theorem call_ctrl_error {s s' : Subframe p g (State cell.cch)} {c : CtrlCall} {code : AllocResult}
    (h : s.call cell (SfCchAllocator.toPdcch cell.cch asUser aggr) c.toOp = some (code, s'))
    (hcode : code ≠ .success) :
    (s' = s ∧ ¬ Refused cell s c) ∨
      ∃ path s₁ front, Refused cell s c ∧ Takes cell s c.rbgs c.record path ∧
        Cancels s.pdcch c.record path s₁ front ∧
        s' = { s with pdcch := cancelled s.pdcch front } := by
  cases c with
  | allocSib aggrIdx sibIdx rbgs =>
    rcases allocBc_error rfl h hcode with hsame | ⟨path, s₁, front, hroom, htakes, hfits, hrest⟩
    · exact .inl hsame
    · exact .inr ⟨path, s₁, front, ⟨hroom, path, htakes, hfits⟩, htakes, hrest⟩
  | allocPaging aggrIdx pagingPayload rbgs =>
    rcases allocBc_error rfl h hcode with hsame | ⟨path, s₁, front, hroom, htakes, hfits, hrest⟩
    · exact .inl hsame
    · exact .inr ⟨path, s₁, front, ⟨hroom, path, htakes, hfits⟩, htakes, hrest⟩
  | allocRar aggrIdx rar rbgs nofGrants => exact allocRar_error h hcode

/-- Everything that is there for other allocations is as before. -/
structure LeavesNoTrace {cc : SfCchAllocator.CellParams} (s s' : Subframe p g (State cc)) :
    Prop where
  dlMask : s'.dlMask = s.dlMask
  ulMask : s'.ulMask = s.ulMask
  lastMsg3Prb : s'.lastMsg3Prb = s.lastMsg3Prb
  bcAllocs : s'.bcAllocs = s.bcAllocs
  rarAllocs : s'.rarAllocs = s.rarAllocs
  dataAllocs : s'.dataAllocs = s.dataAllocs
  ulDataAllocs : s'.ulDataAllocs = s.ulDataAllocs
  pdcch : SameDcis s.pdcch s'.pdcch

theorem leavesNoTrace_refl {cc : SfCchAllocator.CellParams} (s : Subframe p g (State cc)) :
    LeavesNoTrace s s :=
  ⟨rfl, rfl, rfl, rfl, rfl, rfl, rfl, ⟨rfl, rfl, rfl, rfl⟩⟩

/-- A control allocation that fails leaves no trace, unless its code rate is refused and its DCI had
not been put in place. -/
theorem leavesNoTrace_iff_inPlace {s s' : Subframe p g (State cell.cch)} {c : CtrlCall}
    {code : AllocResult}
    (h : s.call cell (SfCchAllocator.toPdcch cell.cch asUser aggr) c.toOp = some (code, s'))
    (hcode : code ≠ .success) :
    LeavesNoTrace s s' ↔ (Refused cell s c → InPlace s.pdcch c.record) := by
  rcases call_ctrl_error h hcode with ⟨rfl, hnot⟩ |
    ⟨path, s₁, front, hrefused, htakes, hcancels, rfl⟩
  · exact iff_of_true (leavesNoTrace_refl s') fun hrefused => absurd hrefused hnot
  · rw [imp_iff_right hrefused]
    constructor
    · intro hsame
      exact hcancels.inPlace hsame.pdcch
    · intro hin
      rw [hcancels.eq_of_inPlace htakes.loop hin]
      exact leavesNoTrace_refl s

end Calls

/-! ### Examples -/

/-- Behind a SIB, a paging message is refused that was put in place. -/
theorem leavesNoTrace_iff_inPlace_paging :
    ∃ s₀ s s' : Subframe 100 25 (State exampleCell.cch),
      newTti exampleCell examplePdcch 0 = some s₀ ∧
      s₀.call exampleCell examplePdcch (.allocSib 3 0 ⟨0, 2, by decide⟩) = some (.success, s) ∧
      s.call exampleCell examplePdcch (.allocPaging 3 100 ⟨2, 4, by decide⟩)
        = some (.invalidCoderate, s') ∧
      LeavesNoTrace s s' := by
  have hcalls : ((newTti exampleCell examplePdcch 0).bind fun s₀ =>
      (s₀.call exampleCell examplePdcch (.allocSib 3 0 ⟨0, 2, by decide⟩)).bind fun r =>
        (SfCchAllocator.allocDfsNode exampleCell.cch r.2.pdcch.ttiRx r.2.pdcch.path.nodes
          (CtrlCall.allocPaging 3 100 ⟨2, 4, by decide⟩).record 0).bind fun node =>
          (r.2.call exampleCell examplePdcch (.allocPaging 3 100 ⟨2, 4, by decide⟩)).map fun r' =>
            (r.1, decide (r.2.pdcch.maxCfix = r.2.pdcch.path.cfix), node.isSome, r'.1))
      = some (.success, true, true, .invalidCoderate) := by decide +kernel
  obtain ⟨s₀, hnew, hcalls⟩ := Option.bind_eq_some_iff.mp hcalls
  obtain ⟨⟨code, s⟩, hsib, hcalls⟩ := Option.bind_eq_some_iff.mp hcalls
  obtain ⟨node, hnode, hcalls⟩ := Option.bind_eq_some_iff.mp hcalls
  obtain ⟨⟨code', s'⟩, hpaging, heq⟩ := Option.map_eq_some_iff.mp hcalls
  simp only [Prod.mk.injEq] at heq
  obtain ⟨rfl, hmax, hsome, rfl⟩ := heq
  obtain ⟨node, rfl⟩ := Option.isSome_iff_exists.mp hsome
  refine ⟨s₀, s, s', hnew, hsib, hpaging, ?_⟩
  exact (leavesNoTrace_iff_inPlace (c := .allocPaging 3 100 ⟨2, 4, by decide⟩) hpaging nofun).mpr
    fun _ => ⟨of_decide_eq_true hmax, node, hnode⟩

/-- The cell with up to three control symbols. -/
def wideCell : SubframeCell 100 :=
  { exampleCell with
    cch := { SfCchAllocator.exampleCell with
      maxNofCtrlSymbols := 3
      minNofCtrlSymbols_le := by decide }
    nofPrb_eq := rfl }

attribute [local instance] Odss.Mac.SfCchAllocator.neZero_aggr

/-- Its PDCCH. -/
def widePdcch : CtrlPdcch 100 25 (State wideCell.cch) :=
  SfCchAllocator.toPdcch wideCell.cch
    (fun user => ⟨user.rnti, ⟨false, 0, 0⟩, fun _ _ => SfCchAllocator.exampleTable 2 12 16⟩)
    (fun _ _ => 2)

/-- The paging message that is refused has lowered the maximum CFI. -/
theorem not_leavesNoTrace_maxCfi :
    ∃ s s' : Subframe 100 25 (State wideCell.cch), newTti wideCell widePdcch 0 = some s ∧
      s.call wideCell widePdcch (.allocPaging 3 100 ⟨0, 2, by decide⟩)
        = some (.invalidCoderate, s') ∧
      ¬ LeavesNoTrace s s' := by
  have hcalls : ((newTti wideCell widePdcch 0).bind fun s =>
      (s.call wideCell widePdcch (.allocPaging 3 100 ⟨0, 2, by decide⟩)).map fun r =>
        (r.1, s.pdcch.maxCfix, r.2.pdcch.maxCfix)) = some (.invalidCoderate, 2, 0) := by
    decide +kernel
  obtain ⟨s, hnew, hcalls⟩ := Option.bind_eq_some_iff.mp hcalls
  obtain ⟨⟨code, s'⟩, hpaging, heq⟩ := Option.map_eq_some_iff.mp hcalls
  simp only [Prod.mk.injEq] at heq
  obtain ⟨rfl, hbefore, hbehind⟩ := heq
  refine ⟨s, s', hnew, hpaging, fun hsame => ?_⟩
  have hmax := hsame.pdcch.maxCfi
  rw [hbefore, hbehind] at hmax
  cases hmax

end Subframe

end Odss.Mac
