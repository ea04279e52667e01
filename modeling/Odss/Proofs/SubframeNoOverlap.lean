import Odss.Lib.Booking
import Odss.Mac.Subframe
import Odss.Proofs.PdcchAllocs
import Odss.Proofs.UlBlanking

/-!
# `Odss.Proofs.SubframeNoOverlap`: the allocations of a subframe do not overlap

The two masks of a subframe are bookings (`Odss.Lib.Booking`). The control allocations and the users
book RBGs, and the grants book PRBs that are not reserved for the PUCCH and the PRACH.

* `Grants` and `Allocates` are what the functions for the users and `alloc_dl` do to the masks.
* `Ok` is the invariant for the part of the users, and each call keeps it (`ok_call`).
* `noOverlap_run` is what holds after every sequence of calls.
-/

set_option linter.all false

namespace Odss.Mac

open Odss.Lib Relation

variable {p g : Nat} {κ : Type}

/-! ### Masks as sets -/

namespace BoundedBitset

variable {n : Nat}

/-- The positions that are set. -/
def toSet (b : BoundedBitset n) : Set Nat := {pos | b.Has pos}

@[simp] theorem mem_toSet (b : BoundedBitset n) (pos : Nat) : pos ∈ b.toSet ↔ b.Has pos := Iff.rfl

@[simp] theorem toSet_empty : (empty n).toSet = ∅ := by
  ext pos
  simp

@[simp] theorem toSet_union (b c : BoundedBitset n) : (b.union c).toSet = b.toSet ∪ c.toSet := by
  ext pos
  simp

@[simp] theorem toSet_inter_compl (b c : BoundedBitset n) :
    (b.inter c.compl).toSet = b.toSet \ c.toSet := by
  ext pos
  show (b.inter c.compl).Has pos ↔ b.Has pos ∧ ¬ c.Has pos
  rw [has_inter, has_compl]
  constructor
  · intro h
    exact ⟨h.1, h.2.2⟩
  · intro h
    exact ⟨h.1, h.1.lt, h.2⟩

theorem toSet_of_fill {b c : BoundedBitset n} {start stop : Nat} (h : b.fill start stop = some c) :
    c.toSet = b.toSet ∪ Set.Ico start stop := by
  ext pos
  show c.Has pos ↔ b.Has pos ∨ start ≤ pos ∧ pos < stop
  rw [has_of_fill h, or_comm]

/-- The check for a collision. -/
theorem disjoint_of_any {b c : BoundedBitset n} (h : ¬ (b.inter c).any = true) :
    Disjoint c.toSet b.toSet := by
  rw [Set.disjoint_left]
  intro pos hc hb
  refine h ((any_iff _).mpr ⟨pos, ?_⟩)
  exact (has_inter b c pos).mpr ⟨hb, hc⟩

end BoundedBitset

/-- The positions of an interval. -/
def PrbInterval.toSet (i : PrbInterval) : Set Nat := Set.Ico i.start i.stop

theorem toSet_of_fill_empty {n : Nat} {interv : PrbInterval} {mask : BoundedBitset n}
    (h : (BoundedBitset.empty n).fill interv.start interv.stop = some mask) :
    mask.toSet = interv.toSet := by
  rw [BoundedBitset.toSet_of_fill h, BoundedBitset.toSet_empty, Set.empty_union]
  rfl

/-! ### What the allocations do -/

/-- A user without a grant gets one. Its PRBs are free, unless the cell has 6 PRBs. -/
inductive Grants (s : SfSched p g κ) : SfSched p g κ → Prop
  | grant (a : UlAlloc) (pdcch : κ) (mask : BoundedBitset p) (hnew : s.isUlAlloc a.rnti = false)
      (hfree : p ≠ 6 → Disjoint a.alloc.toSet s.ulMask.toSet)
      (hmask : mask.toSet = s.ulMask.toSet ∪ a.alloc.toSet) :
      Grants s { s with
        pdcch := pdcch
        ulMask := mask
        ulDataAllocs := s.ulDataAllocs ++ [a] }

/-- The RBGs of a mask are allocated where they are free and the PDCCH has room. -/
inductive Allocates (mask : BoundedBitset g) (s : SfSched p g κ) : AllocResult → SfSched p g κ → Prop
  | fails (code : AllocResult) (hcode : code ≠ .success) : Allocates mask s code s
  | allocated (pdcch : κ) (hfree : Disjoint mask.toSet s.dlMask.toSet) :
      Allocates mask s .success { s with
        pdcch := pdcch
        dlMask := s.dlMask.union mask }

/-- Grants leave the DL part alone. -/
theorem dl_of_grants {s s' : SfSched p g κ} (h : ReflTransGen Grants s s') :
    s'.dlMask = s.dlMask ∧ s'.dataAllocs = s.dataAllocs := by
  induction h with
  | refl => exact ⟨rfl, rfl⟩
  | tail _ hstep ih =>
    cases hstep
    exact ih

namespace SfSched

variable {s s' : SfSched p g κ} {user : SchedUe p g} {code : AllocResult}

theorem allocates_allocDl {mask : BoundedBitset g} {allocDci : κ → Option κ}
    (h : s.allocDl mask allocDci = (code, s')) : Allocates mask s code s' := by
  unfold allocDl at h
  split at h
  · cases h
    exact .fails _ nofun
  · next hfree =>
    split at h
    · cases h
      exact .fails _ nofun
    · next pdcch _ =>
      cases h
      exact .allocated pdcch (BoundedBitset.disjoint_of_any hfree)

variable {cch : Pdcch p g κ}

theorem grants_allocUl {alloc : PrbInterval} {type : UlAllocType} {isMsg3 : Bool}
    (h : s.allocUl cch user alloc type isMsg3 = some (code, s')) : ReflTransGen Grants s s' := by
  simp only [allocUl] at h
  split at h
  · cases h
    exact .refl
  · split at h
    · cases h
      exact .refl
    · next hnew =>
      split at h
      · cases h
        exact .refl
      · obtain ⟨code', s₁, hdata, hfail, -, hsuccess⟩ := allocUlData_spec cch s user alloc
          (type == .adaptRetx || (type == .newtx && !isMsg3)) (!(p == 6 && isMsg3))
        rw [hdata] at h
        by_cases hcode : code' = .success
        · subst hcode
          cases h
          obtain ⟨⟨pdcch, mask, rfl⟩, hmask, hstrict⟩ := hsuccess rfl
          refine .single (.grant ⟨type, user.rnti, alloc, isMsg3⟩ pdcch mask ?_ ?_ ?_)
          · simpa using hnew
          · -- Only in a cell of 6 PRBs the check for a collision can be off.
            intro hsix
            rw [Set.disjoint_left]
            intro prb hin hhas
            exact hstrict (by simp [hsix]) prb hin hhas
          · ext prb
            exact hmask prb
        · have hsame := hfail hcode
          subst hsame
          cases code' with
          | success => exact absurd rfl hcode
          | _ =>
            cases h
            exact .refl

theorem grants_allocUlUser {alloc : PrbInterval} (h : s.allocUlUser cch user alloc = some (code, s')) :
    ReflTransGen Grants s s' := grants_allocUl h

theorem grants_tryUciGrant {granted : Bool} (h : s.tryUciGrant cch user = some (granted, s')) :
    ReflTransGen Grants s s' := by
  simp only [tryUciGrant] at h
  split at h
  · cases h
    exact .refl
  · split at h
    · cases h
    · next halloc =>
      cases h
      exact grants_allocUlUser halloc

theorem grants_tryCqiGrant {hasGrant granted : Bool}
    (h : s.tryCqiGrant cch user hasGrant = some (granted, s')) : ReflTransGen Grants s s' := by
  unfold tryCqiGrant at h
  split at h
  · exact grants_tryUciGrant h
  · cases h
    exact .refl

/-- The RBGs are tried after grants for the UCI. -/
theorem allocates_allocDlDataOrUci {mask : BoundedBitset g} {hasGrant : Bool}
    (h : s.allocDlDataOrUci cch user mask hasGrant = some (code, s')) :
    ∃ s₁, ReflTransGen Grants s s₁ ∧ Allocates mask s₁ code s' := by
  unfold allocDlDataOrUci at h
  split at h
  · next s₁ hdata =>
    have hfirst := allocates_allocDl hdata
    cases hfirst
    split at h
    · split at h
      · cases h
      · next huci =>
        cases h
        exact ⟨_, grants_tryUciGrant huci, .fails _ nofun⟩
      · next s₂ huci => exact ⟨s₂, grants_tryUciGrant huci, allocates_allocDl (Option.some.inj h)⟩
    · cases h
      exact ⟨s, .refl, .fails _ nofun⟩
  · exact ⟨s, .refl, allocates_allocDl (Option.some.inj h)⟩

/-- What `alloc_dl_user` does: after grants for the UCI it may add an allocation for a user without
one. -/
theorem allocDlUser_cases {mask : BoundedBitset g} {pid : Nat} {pidEmpty : Bool}
    (h : s.allocDlUser cch user mask pid pidEmpty = some (code, s')) :
    ∃ s₁, ReflTransGen Grants s s₁ ∧ (s' = s₁ ∨
      s.isDlAlloc user.rnti = false ∧ Disjoint mask.toSet s₁.dlMask.toSet ∧
        ∃ pdcch, s' = { s₁ with
          pdcch := pdcch
          dlMask := s₁.dlMask.union mask
          dataAllocs := s₁.dataAllocs ++ [⟨user.rnti, mask, pid⟩] }) := by
  simp only [allocDlUser] at h
  split at h
  · cases h
    exact ⟨s, .refl, .inl rfl⟩
  · split at h
    · cases h
      exact ⟨s, .refl, .inl rfl⟩
    · next hnew =>
      split at h
      · cases h
        exact ⟨s, .refl, .inl rfl⟩
      · split at h
        · cases h
          exact ⟨s, .refl, .inl rfl⟩
        · split at h
          · cases h
          · cases h
            exact ⟨s, .refl, .inl rfl⟩
          · split at h
            · cases h
              exact ⟨s, .refl, .inl rfl⟩
            · split at h
              · cases h
              · next s₁ hcqi =>
                have hgrants := grants_tryCqiGrant hcqi
                split at h
                · cases h
                  exact ⟨_, hgrants, .inl rfl⟩
                · split at h
                  · cases h
                  · next hdata =>
                    obtain ⟨s₂, hgrants', hallocates⟩ := allocates_allocDlDataOrUci hdata
                    cases h
                    cases hallocates with
                    | fails _ hcode => exact absurd rfl hcode
                    | allocated pdcch hfree =>
                      refine ⟨s₂, hgrants.trans hgrants', .inr ⟨?_, hfree, pdcch, rfl⟩⟩
                      simpa using hnew
                  · next hsuccess hdata =>
                    obtain ⟨s₂, hgrants', hallocates⟩ := allocates_allocDlDataOrUci hdata
                    cases h
                    cases hallocates with
                    | fails _ hcode => exact ⟨_, hgrants.trans hgrants', .inl rfl⟩
                    | allocated pdcch hfree => exact absurd rfl (hsuccess _)

end SfSched

/-! ### The invariant -/

/-- In the subframe `ttiRx`, the RBGs are booked by the sets `ctrl` and the users, and the PRBs by the
grants. -/
structure Ok (ttiRx : Nat) (reserved : Set Nat) (ctrl : List (Set Nat)) (s : SfSched p g κ) :
    Prop where
  tti : s.ttiRx = ttiRx
  dl : Booked ∅ s.dlMask.toSet (ctrl ++ s.dataAllocs.map fun a => a.userMask.toSet)
  ul : p ≠ 6 → Booked reserved s.ulMask.toSet (s.ulDataAllocs.map fun a => a.alloc.toSet)
  dlRntis : (s.dataAllocs.map DlAlloc.rnti).Nodup
  ulRntis : (s.ulDataAllocs.map UlAlloc.rnti).Nodup

namespace Ok

variable {ttiRx : Nat} {reserved : Set Nat} {ctrl ctrl' : List (Set Nat)} {s s' : SfSched p g κ}

theorem perm (h : Ok ttiRx reserved ctrl s) (hperm : ctrl.Perm ctrl') : Ok ttiRx reserved ctrl' s where
  tti := h.tti
  dl := h.dl.perm (hperm.append_right _)
  ul := h.ul
  dlRntis := h.dlRntis
  ulRntis := h.ulRntis

/-- More RBGs and PRBs are taken, and the PDCCH changes. -/
theorem mono (h : Ok ttiRx reserved ctrl s) {dlMask : BoundedBitset g} {ulMask : BoundedBitset p}
    (hdl : s.dlMask.toSet ⊆ dlMask.toSet) (hul : s.ulMask.toSet ⊆ ulMask.toSet) (pdcch : κ) :
    Ok ttiRx reserved ctrl { s with
      pdcch := pdcch
      dlMask := dlMask
      ulMask := ulMask } where
  tti := h.tti
  dl := h.dl.mono hdl
  ul := fun hsix => (h.ul hsix).mono hul
  dlRntis := h.dlRntis
  ulRntis := h.ulRntis

/-- A new entry at the end is one more. -/
theorem nodup_concat {rntis : List Nat} {rnti : Nat} (h : rntis.Nodup) (hnew : rnti ∉ rntis) :
    (rntis ++ [rnti]).Nodup := by
  rw [List.nodup_append_comm]
  exact List.nodup_cons.mpr ⟨hnew, h⟩

theorem grants (h : Ok ttiRx reserved ctrl s) (hgrants : ReflTransGen Grants s s') :
    Ok ttiRx reserved ctrl s' := by
  induction hgrants with
  | refl => exact h
  | @tail s₁ _ _ hstep ih =>
    cases hstep with
    | grant a pdcch mask hnew hfree hmask =>
      refine ⟨ih.tti, ih.dl, fun hsix => ?_, ih.dlRntis, ?_⟩
      · show Booked reserved mask.toSet ((s₁.ulDataAllocs ++ [a]).map fun a => a.alloc.toSet)
        have hbook := (ih.ul hsix).book (hfree hsix) (Set.subset_union_left (t := a.alloc.toSet))
          Set.subset_union_right
        rw [hmask, List.map_append]
        exact hbook.perm (List.perm_append_singleton _ _).symm
      · show ((s₁.ulDataAllocs ++ [a]).map UlAlloc.rnti).Nodup
        rw [List.map_append]
        refine nodup_concat ih.ulRntis fun hmem => ?_
        obtain ⟨a', hmem', heq⟩ := List.mem_map.mp hmem
        rw [SfSched.isUlAlloc, List.any_eq_false] at hnew
        exact hnew a' hmem' (by simpa using heq)

/-- RBGs that are free are booked by a control allocation. -/
theorem bookCtrl (h : Ok ttiRx reserved ctrl s) {mask : BoundedBitset g} {rbgs : Set Nat}
    (hmask : mask.toSet = rbgs) (hfree : Disjoint mask.toSet s.dlMask.toSet) (pdcch : κ) :
    Ok ttiRx reserved (rbgs :: ctrl) { s with
      pdcch := pdcch
      dlMask := s.dlMask.union mask } where
  tti := h.tti
  dl := by
    show Booked ∅ (s.dlMask.union mask).toSet (rbgs :: _)
    rw [BoundedBitset.toSet_union, ← hmask]
    exact h.dl.book hfree Set.subset_union_left Set.subset_union_right
  ul := h.ul
  dlRntis := h.dlRntis
  ulRntis := h.ulRntis

theorem allocDlUser {cch : Pdcch p g κ} {user : SchedUe p g} {mask : BoundedBitset g} {pid : Nat}
    {pidEmpty : Bool} {code : AllocResult} (h : Ok ttiRx reserved ctrl s)
    (hcall : s.allocDlUser cch user mask pid pidEmpty = some (code, s')) : Ok ttiRx reserved ctrl s' := by
  obtain ⟨s₁, hgrants, hcase⟩ := SfSched.allocDlUser_cases hcall
  have hok := h.grants hgrants
  rcases hcase with rfl | ⟨hnew, hfree, pdcch, rfl⟩
  · exact hok
  · have hbook := hok.bookCtrl rfl hfree pdcch
    refine ⟨hbook.tti, ?_, hbook.ul, ?_, hbook.ulRntis⟩
    · show Booked ∅ (s₁.dlMask.union mask).toSet
        (ctrl ++ (s₁.dataAllocs ++ [DlAlloc.mk user.rnti mask pid]).map fun a => a.userMask.toSet)
      rw [List.map_append, ← List.append_assoc]
      exact hbook.dl.perm (List.perm_append_singleton _ _).symm
    · show ((s₁.dataAllocs ++ [DlAlloc.mk user.rnti mask pid]).map DlAlloc.rnti).Nodup
      rw [List.map_append]
      refine nodup_concat hok.dlRntis fun hmem => ?_
      -- The grants for the UCI have added no DL allocation.
      rw [(dl_of_grants hgrants).2] at hmem
      obtain ⟨a, hmem', heq⟩ := List.mem_map.mp hmem
      rw [SfSched.isDlAlloc, List.any_eq_false] at hnew
      exact hnew a hmem' (by simpa using heq)

end Ok

namespace Subframe

/-- The PRBs at the edges, for the PUCCH. -/
def pucchPrbs (cell : SubframeCell p) : Set Nat :=
  Set.Ico 0 cell.pucchNrb ∪ Set.Ico (p - cell.pucchNrb) p

/-- The PRBs of the PRACH, if the UL subframe has one. -/
def prachPrbs (cell : SubframeCell p) (ttiRx : Nat) : Set Nat :=
  {prb | cell.prachInWindow (toTxUl ttiRx) = true ∧
    prb ∈ Set.Ico cell.prachFreqOffset (cell.prachFreqOffset + 6)}

/-- The RBGs of the control allocations. -/
def ctrlSets (s : Subframe p g κ) : List (Set Nat) :=
  (s.bcAllocs.map fun a => a.rbgRange.toSet) ++ s.rarAllocs.map fun a => a.rbgRange.toSet

/-- The invariant of a subframe. -/
def Inv (cell : SubframeCell p) (ttiRx : Nat) (s : Subframe p g κ) : Prop :=
  Ok ttiRx (pucchPrbs cell ∪ prachPrbs cell ttiRx) s.ctrlSets s.toSfSched

variable {cell : SubframeCell p} {cch : CtrlPdcch p g κ} {ttiRx : Nat} {s s' : Subframe p g κ}

theorem toSet_pucchMask {mask : BoundedBitset p} (h : cell.pucchMask = some mask) :
    mask.toSet = pucchPrbs cell := by
  unfold SubframeCell.pucchMask at h
  split at h
  · split at h
    · cases h
    · next low hlow =>
      rw [BoundedBitset.toSet_of_fill h, BoundedBitset.toSet_of_fill hlow, BoundedBitset.toSet_empty,
        Set.empty_union]
      rfl
  · next hzero =>
    cases h
    have hnrb : cell.pucchNrb = 0 := by omega
    rw [BoundedBitset.toSet_empty, pucchPrbs, hnrb]
    simp

theorem toSet_prachMask {mask : BoundedBitset p} (h : cell.prachMask (toTxUl ttiRx) = some mask) :
    mask.toSet = prachPrbs cell ttiRx := by
  unfold SubframeCell.prachMask at h
  split at h
  · next hwindow =>
    rw [BoundedBitset.toSet_of_fill h, BoundedBitset.toSet_empty, Set.empty_union]
    ext prb
    show prb ∈ Set.Ico _ _ ↔ _ ∧ prb ∈ Set.Ico _ _
    rw [and_iff_right hwindow]
  · next hwindow =>
    cases h
    rw [BoundedBitset.toSet_empty]
    ext prb
    show False ↔ cell.prachInWindow (toTxUl ttiRx) = true ∧ _
    simp [hwindow]

theorem inv_newTti (h : newTti cell cch ttiRx = some s) : Inv cell ttiRx s := by
  unfold newTti at h
  split at h
  · next pucchMask prachMask hpucch hprach =>
    cases h
    refine ⟨rfl, .nil (Set.empty_subset _), fun _ => .nil ?_, List.nodup_nil, List.nodup_nil⟩
    show _ ⊆ (((BoundedBitset.empty p).union pucchMask).union prachMask).toSet
    rw [BoundedBitset.toSet_union, BoundedBitset.toSet_union, BoundedBitset.toSet_empty,
      Set.empty_union, toSet_pucchMask hpucch, toSet_prachMask hprach]
  · cases h

/-! ### Control allocations -/

theorem allocDlCtrl_cases {aggrIdx : Fin 4} {rbgs : RbgInterval} {type : SfCchAllocator.AllocType}
    {code : AllocResult} (h : s.allocDlCtrl cch aggrIdx rbgs type = some (code, s')) :
    (code ≠ .success ∧ s' = s) ∨
    (code = .success ∧ ∃ mask pdcch, mask.toSet = rbgs.toSet ∧
      Disjoint mask.toSet s.dlMask.toSet ∧
      s' = { s with
        pdcch := pdcch
        dlMask := s.dlMask.union mask }) := by
  unfold allocDlCtrl at h
  split at h
  · cases h
    exact .inl ⟨nofun, rfl⟩
  · split at h
    · cases h
      exact .inl ⟨nofun, rfl⟩
    · split at h
      · cases h
      · next mask hmask =>
        generalize hr : s.allocDl mask (fun pdcch => cch.allocCtrlDci pdcch aggrIdx type) = r at h
        obtain ⟨code', sched⟩ := r
        cases h
        cases SfSched.allocates_allocDl hr with
        | fails _ hcode => exact .inl ⟨hcode, rfl⟩
        | allocated pdcch hfree =>
          exact .inr ⟨rfl, mask, pdcch, toSet_of_fill_empty hmask, hfree, rfl⟩

theorem remLastAllocDl_cases {rbgs : RbgInterval} (h : s.remLastAllocDl cch rbgs = some s') :
    ∃ mask pdcch, s' = { s with
      pdcch := pdcch
      dlMask := mask } ∧ s.dlMask.toSet \ rbgs.toSet ⊆ mask.toSet := by
  unfold remLastAllocDl at h
  split at h
  · cases h
    exact ⟨s.dlMask, s.pdcch, rfl, Set.sdiff_subset⟩
  · split at h
    · cases h
    · next mask hmask =>
      cases h
      refine ⟨_, _, rfl, ?_⟩
      rw [BoundedBitset.toSet_inter_compl, toSet_of_fill_empty hmask]

/-- A control allocation is booked when it has a DCI, and leaves the bookings as they were
otherwise. -/
theorem ok_allocWithDci {δ : Type} {reserved : Set Nat} {ctrl : List (Set Nat)} {aggrIdx : Fin 4}
    {rbgs : RbgInterval} {type : SfCchAllocator.AllocType} {generate : Nat → Option (Option δ)}
    {result : Except AllocResult δ} (hok : Ok ttiRx reserved ctrl s.toSfSched)
    (h : s.allocWithDci cch aggrIdx rbgs type generate = some (result, s')) :
    ∃ sched, s' = { s with toSfSched := sched } ∧
      match result with
      | .error _ => Ok ttiRx reserved ctrl sched
      | .ok _ => Ok ttiRx reserved (rbgs.toSet :: ctrl) sched := by
  unfold allocWithDci at h
  split at h
  · cases h
  · next s₁ hctrl =>
    rcases allocDlCtrl_cases hctrl with ⟨hcode, -⟩ | ⟨-, mask, pdcch, hmask, hfree, rfl⟩
    · exact absurd rfl hcode
    · split at h
      · cases h
      · split at h
        · cases h
        · next s₂ hrem =>
          cases h
          obtain ⟨mask', pdcch', rfl, hsub⟩ := remLastAllocDl_cases hrem
          refine ⟨_, rfl, hok.mono ?_ subset_rfl pdcch'⟩
          -- The RBGs were free before, so the cancellation frees no others.
          show s.dlMask.toSet ⊆ mask'.toSet
          rw [← hmask] at hsub
          have hback : (s.dlMask.toSet ∪ mask.toSet) \ mask.toSet = s.dlMask.toSet :=
            Set.union_sdiff_cancel_right hfree.symm.le_bot
          rw [← hback, ← BoundedBitset.toSet_union]
          exact hsub
      · cases h
        exact ⟨_, rfl, hok.bookCtrl hmask hfree pdcch⟩
  · next hsuccess hctrl =>
    cases h
    rcases allocDlCtrl_cases hctrl with ⟨-, rfl⟩ | ⟨rfl, -⟩
    · exact ⟨_, rfl, hok⟩
    · exact (hsuccess rfl).elim

/-! ### Calls -/

theorem inv_allocBc {aggrIdx : Fin 4} {type : SfCchAllocator.AllocType} {reqBytes : Nat}
    {rbgs : RbgInterval} {code : AllocResult} (hinv : Inv cell ttiRx s)
    (h : s.allocBc cell cch aggrIdx type reqBytes rbgs = some (code, s')) : Inv cell ttiRx s' := by
  unfold allocBc at h
  split at h
  · cases h
    exact hinv
  · split at h
    · cases h
    · next hdci =>
      cases h
      obtain ⟨sched, rfl, hok⟩ := ok_allocWithDci hinv hdci
      exact hok
    · next hdci =>
      cases h
      obtain ⟨sched, rfl, hok⟩ := ok_allocWithDci hinv hdci
      refine hok.perm ?_
      show (rbgs.toSet :: s.ctrlSets).Perm ((s.bcAllocs ++ [_]).map _ ++ _)
      rw [List.map_append, List.append_assoc]
      exact List.perm_middle.symm

theorem inv_allocRar {aggrIdx : Fin 4} {rar : List RarInfo} {rbgs : RbgInterval}
    {nofGrants : UInt32} {code : AllocResult} (hinv : Inv cell ttiRx s)
    (h : s.allocRar cell cch aggrIdx rar rbgs nofGrants = some (code, s')) :
    Inv cell ttiRx s' := by
  simp only [allocRar] at h
  split at h
  · cases h
    exact hinv
  · split at h
    · cases h
      exact hinv
    · split at h
      · cases h
      · next hdci =>
        cases h
        obtain ⟨sched, rfl, hok⟩ := ok_allocWithDci hinv hdci
        exact hok
      · next hdci =>
        cases h
        obtain ⟨sched, rfl, hok⟩ := ok_allocWithDci hinv hdci
        refine hok.perm ?_
        show (rbgs.toSet :: s.ctrlSets).Perm (_ ++ (s.rarAllocs ++ [_]).map _)
        rw [List.map_append, ← List.append_assoc]
        exact (List.perm_append_singleton _ _).symm

/-- The guard of a run: `set_ul_mask` only adds bits. -/
def AddsBits (s : Subframe p g κ) : Op p g → Prop
  | .setUlMask newUlMask => ∀ prb, s.ulMask.Has prb → newUlMask.Has prb
  | _ => True

/-- Each call keeps the invariant. -/
theorem inv_call {op : Op p g} {code : AllocResult} (hinv : Inv cell ttiRx s)
    (hadds : AddsBits s op) (h : s.call cell cch op = some (code, s')) : Inv cell ttiRx s' := by
  cases op with
  | allocSib aggrIdx sibIdx rbgs => exact inv_allocBc hinv h
  | allocPaging aggrIdx payload rbgs => exact inv_allocBc hinv h
  | allocRar aggrIdx rar rbgs nofGrants => exact inv_allocRar hinv h
  | allocDlUser user userMask pid pidEmpty =>
    simp only [call, allocDlUser] at h
    split at h
    · cases h
    · next hsched =>
      cases h
      exact Ok.allocDlUser hinv hsched
  | allocUlUser user alloc =>
    simp only [call, allocUlUser] at h
    split at h
    · cases h
    · next hsched =>
      cases h
      exact Ok.grants hinv (SfSched.grants_allocUlUser hsched)
  | allocMsg3 user rba =>
    simp only [call, allocMsg3] at h
    split at h
    · cases h
    · split at h
      · cases h
      · next hsched =>
        cases h
        exact Ok.grants hinv (SfSched.grants_allocUl hsched)
  | reserveDlRbgs startRbg endRbg =>
    obtain ⟨s₁, hreserve, heq⟩ := Option.map_eq_some_iff.mp h
    cases heq
    unfold reserveDlRbgs at hreserve
    split at hreserve
    · cases hreserve
    · next mask hmask =>
      cases hreserve
      refine Ok.mono hinv ?_ subset_rfl s.pdcch
      rw [BoundedBitset.toSet_of_fill hmask]
      exact Set.subset_union_left
  | reserveUlPrbs prbmask strict =>
    cases h
    refine Ok.mono hinv subset_rfl ?_ s.pdcch
    rw [BoundedBitset.toSet_union]
    exact Set.subset_union_left
  | setUlMask newUlMask =>
    cases h
    exact Ok.mono hinv subset_rfl hadds s.pdcch

/-- The RBGs of all DL allocations. -/
def dlSets (s : Subframe p g κ) : List (Set Nat) :=
  s.ctrlSets ++ s.dataAllocs.map fun a => a.userMask.toSet

/-- The PRBs of all grants. -/
def ulSets (s : Subframe p g κ) : List (Set Nat) := s.ulDataAllocs.map fun a => a.alloc.toSet

/-- No two allocations of the subframe `ttiRx` overlap, and the masks contain them. In a cell of more
than 6 PRBs no grant has PRBs of the PUCCH or of the PRACH. No user has two allocations or two
grants. -/
structure NoOverlap (cell : SubframeCell p) (ttiRx : Nat) (s : Subframe p g κ) : Prop where
  dl_pairwise : s.dlSets.Pairwise Disjoint
  dl_subset : ∀ rbgs ∈ s.dlSets, rbgs ⊆ s.dlMask.toSet
  ul_pairwise : 6 < p → s.ulSets.Pairwise Disjoint
  ul_pucch : 6 < p → ∀ prbs ∈ s.ulSets, Disjoint prbs (pucchPrbs cell)
  ul_prach : 6 < p → ∀ prbs ∈ s.ulSets, Disjoint prbs (prachPrbs cell ttiRx)
  ul_subset : 6 < p → ∀ prbs ∈ s.ulSets, prbs ⊆ s.ulMask.toSet
  dl_nodup : (s.dataAllocs.map DlAlloc.rnti).Nodup
  ul_nodup : (s.ulDataAllocs.map UlAlloc.rnti).Nodup

theorem Inv.noOverlap (h : Inv cell ttiRx s) : NoOverlap cell ttiRx s where
  dl_pairwise := h.dl.pairwise
  dl_subset := h.dl.subset
  ul_pairwise := fun hp => (h.ul (Nat.ne_of_gt hp)).pairwise
  ul_pucch := fun hp prbs hmem =>
    ((h.ul (Nat.ne_of_gt hp)).disjoint_reserved prbs hmem).mono_right Set.subset_union_left
  ul_prach := fun hp prbs hmem =>
    ((h.ul (Nat.ne_of_gt hp)).disjoint_reserved prbs hmem).mono_right Set.subset_union_right
  ul_subset := fun hp => (h.ul (Nat.ne_of_gt hp)).subset
  dl_nodup := h.dlRntis
  ul_nodup := h.ulRntis

/-- After every sequence of calls in a subframe, in which `set_ul_mask` only adds bits, no two
allocations overlap. -/
theorem noOverlap_run {s₀ : Subframe p g κ} {ops : List (Op p g)} {results : List AllocResult}
    (hnew : newTti cell cch ttiRx = some s₀)
    (hadds : StepsWithin (step cell cch) AddsBits s₀ ops)
    (hrun : run (step cell cch) s₀ ops = some (s, results)) : NoOverlap cell ttiRx s := by
  refine Inv.noOverlap (run_invariant_of_within (Inv cell ttiRx) ?_ ops s₀ s results
    (inv_newTti hnew) hadds hrun)
  intro s op s' code hinv hguard hstep
  obtain ⟨⟨code', s₁⟩, hcall, heq⟩ := Option.map_eq_some_iff.mp hstep
  cases heq
  exact inv_call hinv hguard hcall

/-! ### An example -/

/-- A cell of 100 PRBs, of which three at each edge are for the PUCCH, with a PRACH in one subframe.
A paging message of 100 bytes is too long for its RBGs. -/
def exampleCell : SubframeCell 100 where
  cch := SfCchAllocator.exampleCell
  nofPrb_eq := rfl
  nrbPucch := 0
  prachInWindow := fun tti => tti == 8
  prachFreqOffset := 4
  sibLen := fun _ => 18
  format1aFits := fun _ reqBytes _ _ => decide (reqBytes < 100)
  infoEnabled := false

attribute [local instance] Odss.Mac.SfCchAllocator.neZero_aggr

/-- The PDCCH of the cell, in which a user has two positions of four CCEs. -/
def examplePdcch : CtrlPdcch 100 25 (SfCchAllocator.State SfCchAllocator.exampleCell) :=
  SfCchAllocator.toPdcch SfCchAllocator.exampleCell
    (fun user => ⟨user.rnti, ⟨false, 0, 0⟩, fun _ _ => SfCchAllocator.exampleTable 2 12 16⟩)
    (fun _ _ => 2)

/-- A user without pending data. -/
def exampleUser (rnti : Nat) : SchedUe 100 25 where
  rnti := rnti
  carrierConfigured := true
  carrierActive := true
  puschEnabled := fun _ => true
  ulHarq := ⟨false, false, false, false, .empty, Nat.zero_le _⟩
  pendingUlNewData := 0
  requiredPrbUl := 0
  requiredPrbUl_pos := fun h => h
  pdschEnabled := true
  pendingDlHarq := none
  emptyDlHarq := some 0
  dciFormat1a := false
  requestedDlBytes := 0
  carriesControl := fun _ => true
  findOptimalRbgmask := fun _ => none
  periodicCqi := false
  isPcell := true
  otherUlAlloc := false
  requiredPrbUci := 1

/-- The reserved PRBs and one more. -/
def exampleMask : BoundedBitset 100 :=
  ⟨fun i => decide (i.val < 10 ∨ i.val = 20 ∨ 97 ≤ i.val)⟩

theorem neZero_mask : NeZero 16 := ⟨by decide⟩

attribute [local instance] neZero_mask

/-- A paging message is cancelled and its RBGs are used for a RAR. The second grant of a user is
refused, and so are RBGs that are reserved. -/
def exampleOps : List (Op 100 25) :=
  [.setUlMask exampleMask, .allocSib 3 0 ⟨0, 2, by decide⟩, .allocPaging 3 100 ⟨2, 4, by decide⟩,
    .allocRar 3 [⟨70⟩] ⟨2, 5, by decide⟩ 1,
    .allocDlUser (exampleUser 71) ⟨fun i => decide (i.val = 5 ∨ i.val = 7)⟩ 0 true,
    .reserveDlRbgs 10 12, .allocMsg3 (exampleUser 70) 210,
    .allocUlUser (exampleUser 70) ⟨30, 32, by decide⟩,
    .allocDlUser (exampleUser 72) ⟨fun i => decide (i.val = 11)⟩ 0 true]

theorem noOverlap_example :
    ∃ s₀ s, newTti exampleCell examplePdcch 0 = some s₀ ∧
      run (step exampleCell examplePdcch) s₀ exampleOps = some (s, [.success, .success,
        .invalidCoderate, .success, .success, .success, .success, .noRntiOpportunity,
        .schCollision]) ∧
      NoOverlap exampleCell 0 s := by
  have hresults : ((newTti exampleCell examplePdcch 0).bind fun s₀ =>
      (run (step exampleCell examplePdcch) s₀ exampleOps).map fun r =>
        (decide (∀ prb : Fin 100, s₀.ulMask.Has prb → exampleMask.Has prb), r.2))
      = some (true, [.success, .success, .invalidCoderate, .success, .success, .success, .success,
        .noRntiOpportunity, .schCollision]) := by decide +kernel
  obtain ⟨s₀, hnew, hmap⟩ := Option.bind_eq_some_iff.mp hresults
  obtain ⟨⟨s, results⟩, hrun, heq⟩ := Option.map_eq_some_iff.mp hmap
  obtain ⟨hmask, rfl⟩ := Prod.mk.inj heq
  have hadds : StepsWithin (step exampleCell examplePdcch) AddsBits s₀ exampleOps := by
    constructor
    · intro prb hhas
      exact of_decide_eq_true hmask ⟨prb, hhas.lt⟩ hhas
    · intro s' code _
      refine stepsWithin_of_forall (fun op hmem s => ?_) s'
      -- The calls behind the first one change no mask as a whole.
      simp only [List.mem_cons, List.not_mem_nil, or_false] at hmem
      rcases hmem with rfl | rfl | rfl | rfl | rfl | rfl | rfl | rfl <;> trivial
  exact ⟨s₀, s, hnew, hrun, noOverlap_run hnew hadds hrun⟩

end Subframe

end Odss.Mac
