import Odss.Proofs.SlicerRuns

/-!
# `Odss.Proofs.SlicerTables`: the C-RNTI tables of the slicer

The C-RNTIs that the scheduler reads are caches. `sliceToCrntiVec` holds one list for each
slice, and `allSliceCrntis` holds all of them. `updSliceCrntis` refreshes one slice and the
whole concatenation, and only binding, unbinding and the C-RNTI updates call it.

`TablesAgree` says what the caches stand for. A call that configures a slice anew drops its
members, and a call that deletes a slice drops its list; neither refreshes the caches. So
the tables stay in agreement exactly when these calls name no slice with an attached member
(`step_tablesAgree_iff`). `tablesAgree_iff_within` states it for whole runs, and
`namesBound_of_tablesAgree` is the consequence for what the scheduler reads.
-/

set_option linter.all false

namespace Odss.Mac.Slicer

open Odss.Lib

variable {κ : Type} [LinearOrder κ]

/-! ### What the tables stand for -/

/-- The C-RNTIs of a slice, as the subscript of `slice_to_crnti_vec` reads them. -/
def crntisOf (s : Slicer κ) (name : κ) : List Rnti := (s.sliceToCrntiVec.find? name).getD []

/-- The C-RNTIs that `imsi_to_crnti` gives for the members of a slice. -/
def memberCrntis (s : Slicer κ) (slice : Slice κ) : List Rnti :=
  slice.imsiList.filterMap s.imsiToCrnti.find?

/-- The tables agree.

- `existing`: the cache has entries for existing slices only;
- `member`: the entry of a slice is the list of the C-RNTIs of its members;
- `all`: the list of all C-RNTIs is the concatenation of the entries. -/
structure TablesAgree (s : Slicer κ) : Prop where
  existing : ∀ name, s.slices.find? name = none → s.sliceToCrntiVec.find? name = none
  member : ∀ name slice, s.slices.find? name = some slice → crntisOf s name = memberCrntis s slice
  all : s.allSliceCrntis = s.sliceToCrntiVec.values.flatten

/-- `crnti` is the C-RNTI of an IMSI that is bound to the slice `name`. -/
def BoundTo (s : Slicer κ) (name : κ) (crnti : Rnti) : Prop :=
  ∃ slice, s.slices.find? name = some slice ∧
    ∃ imsi ∈ slice.imsiList, s.imsiToCrnti.find? imsi = some crnti

/-- The scheduler reads only C-RNTIs of bound UEs.

- `cur`: a C-RNTI of the current subframe is bound to the slice of the subframe;
- `all`: a C-RNTI of any slice is bound to some slice. -/
structure NamesBound (s : Slicer κ) : Prop where
  cur : ∀ ttiTxDl s' r, s.getCurSfCrntis ttiTxDl = some (s', r) →
    ∀ crnti ∈ r.crntis, ∃ name, r.slice = some name ∧ BoundTo s name crnti
  all : ∀ crnti ∈ s.getAllSliceCrntis, ∃ name, BoundTo s name crnti

/-- No member of the slice `name` has a C-RNTI. -/
def NoneAttached (s : Slicer κ) (name : κ) : Prop :=
  ∀ slice, s.slices.find? name = some slice →
    ∀ imsi ∈ slice.imsiList, s.imsiToCrnti.find? imsi = none

/-- The condition on a call: a slice that is configured again or deleted has no member with a
C-RNTI. -/
def DropsNoneAttached (s : Slicer κ) : Op κ → Prop
  | .sliceConfig sliceConfigs => ∀ config ∈ sliceConfigs, NoneAttached s config.name
  | .sliceDelete sliceNames => ∀ name ∈ sliceNames, NoneAttached s name
  | _ => True

theorem tablesAgree_init (slicedUnslicedRatio : UInt32) :
    TablesAgree (init slicedUnslicedRatio : Slicer κ) where
  existing := fun _ _ => rfl
  member := nofun
  all := rfl

/-- Agreement is about four fields only. -/
theorem TablesAgree.congr {s s' : Slicer κ} (h : TablesAgree s) (hslices : s'.slices = s.slices)
    (hvec : s'.sliceToCrntiVec = s.sliceToCrntiVec) (hall : s'.allSliceCrntis = s.allSliceCrntis)
    (himsi : s'.imsiToCrnti = s.imsiToCrnti) : TablesAgree s' where
  existing := by rw [hslices, hvec]; exact h.existing
  member := by
    intro name slice hslice
    rw [hslices] at hslice
    have hmember := h.member name slice hslice
    rw [crntisOf, hvec, memberCrntis, himsi]
    exact hmember
  all := by rw [hall, hvec]; exact h.all

/-- In agreement, the entry of a slice is empty exactly when it has no attached member. -/
theorem TablesAgree.crntisOf_eq_nil_iff {s : Slicer κ} (h : TablesAgree s) (name : κ) :
    crntisOf s name = [] ↔ NoneAttached s name := by
  cases hslice : s.slices.find? name with
  | none =>
    have hempty : crntisOf s name = [] := by rw [crntisOf, h.existing name hslice]; rfl
    exact ⟨fun _ slice hsome => by simp [hslice] at hsome, fun _ => hempty⟩
  | some slice =>
    rw [h.member name slice hslice, memberCrntis, List.filterMap_eq_nil_iff]
    constructor
    · intro hnone slice' hslice'
      rw [hslice] at hslice'
      cases hslice'
      exact hnone
    · intro hnone
      exact hnone slice hslice

/-- A read of the current subframe returns nothing and changes nothing, or it returns the entry of
an existing slice, which the subscript may have created. -/
theorem getCurSfCrntis_cases {s s' : Slicer κ} {ttiTxDl : UInt32} {r : Served κ}
    (h : s.getCurSfCrntis ttiTxDl = some (s', r)) :
    (s' = s ∧ r = ⟨none, []⟩) ∨
    ∃ name slice index, s.slices.find? name = some slice ∧ r = ⟨some name, crntisOf s name⟩ ∧
      s' = { s with
        sliceIter := some name
        allocIndex := index
        sliceToCrntiVec := s.sliceToCrntiVec.insert name (crntisOf s name) } := by
  unfold getCurSfCrntis at h
  split at h
  · cases h
    exact Or.inl ⟨rfl, rfl⟩
  · split at h
    · cases h
      exact Or.inl ⟨rfl, rfl⟩
    · simp only [Option.bind_eq_bind, Option.bind_eq_some_iff, Option.pure_def,
        Option.some.injEq, Prod.mk.injEq] at h
      obtain ⟨n, -, entry, hentry, rfl, rfl⟩ := h
      -- The entry that the index selects is a slice of the table.
      have hfind := (OrdMap.mem_entries_iff _ _ _).mp (List.mem_of_getElem? hentry)
      exact Or.inr ⟨entry.1, entry.2, _, hfind, rfl, rfl⟩

/-- What the scheduler reads from tables in agreement belongs to bound UEs. -/
theorem namesBound_of_tablesAgree {s : Slicer κ} (h : TablesAgree s) : NamesBound s := by
  have hmember : ∀ name slice crnti, s.slices.find? name = some slice →
      crnti ∈ crntisOf s name → BoundTo s name crnti := by
    intro name slice crnti hslice hcrnti
    rw [h.member name slice hslice, memberCrntis, List.mem_filterMap] at hcrnti
    exact ⟨slice, hslice, hcrnti⟩
  constructor
  · intro tti s' r hget crnti hcrnti
    rcases getCurSfCrntis_cases hget with ⟨-, rfl⟩ | ⟨name, slice, _, hslice, rfl, -⟩
    · cases hcrnti
    · exact ⟨name, rfl, hmember name slice crnti hslice hcrnti⟩
  · intro crnti hcrnti
    simp only [getAllSliceCrntis] at hcrnti
    split_ifs at hcrnti with halloc
    · cases hcrnti
    · rw [h.all, List.mem_flatten] at hcrnti
      obtain ⟨crntis, hcrntis, hmem⟩ := hcrnti
      obtain ⟨⟨name, _⟩, hentry, rfl⟩ := List.mem_map.mp hcrntis
      have hfind := (OrdMap.mem_entries_iff _ _ _).mp hentry
      cases hslice : s.slices.find? name with
      | none => simp [h.existing name hslice] at hfind
      | some slice =>
        exact ⟨name, hmember name slice crnti hslice (by rw [crntisOf, hfind]; exact hmem)⟩

/-! ### Refreshing -/

@[simp] theorem crntisOf_updSliceCrntis (s : Slicer κ) (sName name : κ) :
    crntisOf (updSliceCrntis s sName) name =
      if name = sName then (((s.slices.find? sName).map Slice.imsiList).getD []).filterMap
        s.imsiToCrnti.find?
      else crntisOf s name := by
  simp only [crntisOf, updSliceCrntis, OrdMap.find?_insert]
  split <;> rfl

/-- A refreshed slice is in agreement, and the others are as before. -/
theorem member_updSliceCrntis {s : Slicer κ} {sName name : κ} {slice : Slice κ}
    (hslice : s.slices.find? name = some slice)
    (h : name = sName ∨ crntisOf s name = memberCrntis s slice) :
    crntisOf (updSliceCrntis s sName) name = memberCrntis (updSliceCrntis s sName) slice := by
  rw [crntisOf_updSliceCrntis]
  split
  · rename_i heq
    rw [← heq, hslice]
    rfl
  · rename_i hne
    exact h.resolve_left hne

theorem existing_updSliceCrntis {s : Slicer κ} {sName : κ} {slice : Slice κ}
    (hslice : s.slices.find? sName = some slice)
    (h : ∀ name, s.slices.find? name = none → s.sliceToCrntiVec.find? name = none) :
    ∀ name, (updSliceCrntis s sName).slices.find? name = none →
      (updSliceCrntis s sName).sliceToCrntiVec.find? name = none := by
  intro name hnone
  have hne : name ≠ sName := by
    intro heq
    rw [heq] at hnone
    exact absurd (hnone.symm.trans hslice) nofun
  show (s.sliceToCrntiVec.insert sName _).find? name = none
  rw [OrdMap.find?_insert_ne _ _ hne]
  exact h name hnone

/-- A call that changes one slice and refreshes it keeps the agreement. -/
theorem TablesAgree.updSliceCrntis {s : Slicer κ} (h : TablesAgree s) (sName : κ)
    (slice : Slice κ) :
    TablesAgree (updSliceCrntis { s with slices := s.slices.insert sName slice } sName) where
  existing := by
    apply existing_updSliceCrntis (OrdMap.find?_insert_self _ _ _)
    intro name hnone
    apply h.existing name
    by_cases heq : name = sName
    · rw [heq, OrdMap.find?_insert_self] at hnone
      cases hnone
    · exact (OrdMap.find?_insert_ne _ _ heq).symm.trans hnone
  member := by
    intro name slice' hslice'
    have hslice' : (s.slices.insert sName slice).find? name = some slice' := hslice'
    apply member_updSliceCrntis (s := { s with slices := s.slices.insert sName slice }) hslice'
    by_cases heq : name = sName
    · exact Or.inl heq
    · have hold : s.slices.find? name = some slice' :=
        (OrdMap.find?_insert_ne _ _ heq).symm.trans hslice'
      exact Or.inr (h.member name slice' hold)
  all := rfl

/-- The loop that refreshes the slices of `imsi` brings the tables into agreement, when only
these slices are out of it. -/
theorem tablesAgree_updMemberSlices {s : Slicer κ} {imsi : Imsi}
    (hexisting : ∀ name, s.slices.find? name = none → s.sliceToCrntiVec.find? name = none)
    (hall : s.allSliceCrntis = s.sliceToCrntiVec.values.flatten)
    (hmember : ∀ name slice, s.slices.find? name = some slice → imsi ∉ slice.imsiList →
      crntisOf s name = memberCrntis s slice) : TablesAgree (updMemberSlices s imsi) := by
  -- The slices that the loop has not met yet may be out of agreement.
  have key : ∀ (es : List (κ × Slice κ)) (t : Slicer κ),
      (∀ e ∈ es, t.slices.find? e.1 = some e.2) →
      (∀ name, t.slices.find? name = none → t.sliceToCrntiVec.find? name = none) →
      t.allSliceCrntis = t.sliceToCrntiVec.values.flatten →
      (∀ name slice, t.slices.find? name = some slice →
        (name, slice) ∈ es ∧ imsi ∈ slice.imsiList ∨ crntisOf t name = memberCrntis t slice) →
      TablesAgree (es.foldl
        (fun s entry => if imsi ∈ entry.2.imsiList then updSliceCrntis s entry.1 else s) t) := by
    intro es
    induction es with
    | nil =>
      intro t _ hex hal hmem
      refine ⟨hex, fun name slice hslice => ?_, hal⟩
      exact (hmem name slice hslice).resolve_left fun h => nomatch h.1
    | cons e es ih =>
      intro t hes hex hal hmem
      have he := hes e List.mem_cons_self
      have hes' : ∀ e' ∈ es, t.slices.find? e'.1 = some e'.2 :=
        fun e' he' => hes e' (List.mem_cons_of_mem _ he')
      rw [List.foldl_cons]
      split
      · apply ih (updSliceCrntis t e.1) hes' (existing_updSliceCrntis he hex) rfl
        intro name slice hslice
        rcases hmem name slice hslice with ⟨hin, himsi⟩ | heq
        · rcases List.mem_cons.mp hin with h | h
          · refine Or.inr (member_updSliceCrntis hslice (Or.inl ?_))
            rw [← h]
          · exact Or.inl ⟨h, himsi⟩
        · exact Or.inr (member_updSliceCrntis hslice (Or.inr heq))
      · rename_i hnot
        apply ih t hes' hex hal
        intro name slice hslice
        refine (hmem name slice hslice).imp_left fun h => ⟨?_, h.2⟩
        rcases List.mem_cons.mp h.1 with heq | hin
        · exact absurd (heq ▸ h.2) hnot
        · exact hin
  have hloop := key s.slices.entries s (fun e he => (OrdMap.mem_entries_iff _ _ _).mp he)
    hexisting hall (fun name slice hslice => by
      by_cases himsi : imsi ∈ slice.imsiList
      · exact Or.inl ⟨(OrdMap.mem_entries_iff _ _ _).mpr hslice, himsi⟩
      · exact Or.inr (hmember name slice hslice himsi))
  exact hloop.congr rfl rfl rfl rfl

/-- A new C-RNTI of one IMSI, with its slices refreshed, keeps the agreement. -/
theorem TablesAgree.updMemberSlices {s : Slicer κ} (h : TablesAgree s) (imsi : Imsi)
    (crnti : Rnti) (tmsiToImsi : OrdMap Tmsi Imsi) :
    TablesAgree (updMemberSlices
      { s with imsiToCrnti := s.imsiToCrnti.insert imsi crnti, tmsiToImsi := tmsiToImsi } imsi) := by
  refine tablesAgree_updMemberSlices ?_ ?_ ?_
  · exact h.existing
  · exact h.all
  intro name slice hslice himsi
  have hmember := h.member name slice hslice
  show crntisOf s name = slice.imsiList.filterMap (s.imsiToCrnti.insert imsi crnti).find?
  rw [hmember, memberCrntis]
  apply List.filterMap_congr
  intro i hi
  rw [OrdMap.find?_insert_ne]
  intro heq
  exact himsi (heq ▸ hi)

/-- The subscript of a read creates at most an empty entry of an existing slice. -/
theorem TablesAgree.insert_crntisOf {s : Slicer κ} (h : TablesAgree s) {name : κ} {slice : Slice κ}
    (hslice : s.slices.find? name = some slice) (index : UInt32) :
    TablesAgree { s with
      sliceIter := some name
      allocIndex := index
      sliceToCrntiVec := s.sliceToCrntiVec.insert name (crntisOf s name) } where
  existing := by
    intro k hk
    have hne : k ≠ name := by
      intro heq
      rw [heq] at hk
      exact absurd (hk.symm.trans hslice) nofun
    exact (OrdMap.find?_insert_ne _ _ hne).trans (h.existing k hk)
  member := by
    intro k slice' hslice'
    show ((s.sliceToCrntiVec.insert name (crntisOf s name)).find? k).getD [] =
      memberCrntis s slice'
    rw [← h.member k slice' hslice', OrdMap.find?_insert]
    split
    · rename_i heq
      rw [heq]
      rfl
    · rfl
  all := h.all.trans (OrdMap.flatten_values_insert_getD _ name).symm

/-! ### Configuration and deletion -/

theorem tablesAgree_updSfAlloc_iff {s s' : Slicer κ} (h : updSfAlloc s = some s') :
    TablesAgree s' ↔ TablesAgree s := by
  simp only [updSfAlloc, Option.bind_eq_bind, Option.bind_eq_some_iff, Option.pure_def,
    Option.some.injEq] at h
  obtain ⟨_, _, _, _, rfl⟩ := h
  exact ⟨fun h => h.congr rfl rfl rfl rfl, fun h => h.congr rfl rfl rfl rfl⟩

/-- A configured slice has no member, and the other slices are as before. -/
theorem find?_configSlices (sliceConfigs : List (SliceConfig κ)) (slices : OrdMap κ (Slice κ))
    (name : κ) :
    (∃ config ∈ sliceConfigs, config.name = name ∧
      ∃ slice, (configSlices slices sliceConfigs).find? name = some slice ∧ slice.imsiList = []) ∨
    ((∀ config ∈ sliceConfigs, config.name ≠ name) ∧
      (configSlices slices sliceConfigs).find? name = slices.find? name) := by
  induction sliceConfigs generalizing slices with
  | nil => exact Or.inr ⟨nofun, rfl⟩
  | cons config configs ih =>
    show (∃ c ∈ config :: configs, c.name = name ∧ ∃ slice,
        (configSlices (slices.insert config.name ⟨config, []⟩) configs).find? name = some slice ∧
          slice.imsiList = []) ∨
      ((∀ c ∈ config :: configs, c.name ≠ name) ∧
        (configSlices (slices.insert config.name ⟨config, []⟩) configs).find? name =
          slices.find? name)
    rcases ih (slices.insert config.name ⟨config, []⟩) with ⟨c, hc, hname, hslice⟩ | ⟨hne, heq⟩
    · exact Or.inl ⟨c, List.mem_cons_of_mem _ hc, hname, hslice⟩
    · rw [heq]
      by_cases hname : config.name = name
      · -- A later configuration of the same name would be in the first case.
        refine Or.inl ⟨config, List.mem_cons_self, hname, ⟨config, []⟩, ?_, rfl⟩
        rw [hname, OrdMap.find?_insert_self]
      · refine Or.inr ⟨List.forall_mem_cons.mpr ⟨hname, hne⟩, ?_⟩
        exact OrdMap.find?_insert_ne _ _ (Ne.symm hname)

/-- Configuration keeps the agreement exactly when it drops no attached member. -/
theorem tablesAgree_configSlices_iff {s : Slicer κ} (h : TablesAgree s)
    (sliceConfigs : List (SliceConfig κ)) :
    TablesAgree { s with slices := configSlices s.slices sliceConfigs } ↔
      ∀ config ∈ sliceConfigs, NoneAttached s config.name := by
  constructor
  · intro h' config hconfig
    rw [← h.crntisOf_eq_nil_iff]
    rcases find?_configSlices sliceConfigs s.slices config.name with
      ⟨_, -, -, slice, hslice, hnil⟩ | ⟨hne, -⟩
    · -- The configured slice has no member, and its entry is still the old one.
      have hmember : crntisOf s config.name = slice.imsiList.filterMap s.imsiToCrnti.find? :=
        h'.member config.name slice hslice
      rw [hmember, hnil]
      rfl
    · exact absurd rfl (hne config hconfig)
  · intro hnone
    refine ⟨fun name hname => ?_, fun name slice hslice => ?_, h.all⟩
    · apply h.existing
      rcases find?_configSlices sliceConfigs s.slices name with ⟨_, -, -, slice, hslice, -⟩ |
        ⟨-, heq⟩
      · exact absurd (hname.symm.trans hslice) nofun
      · exact heq.symm.trans hname
    · have hslice : (configSlices s.slices sliceConfigs).find? name = some slice := hslice
      show crntisOf s name = slice.imsiList.filterMap s.imsiToCrnti.find?
      rcases find?_configSlices sliceConfigs s.slices name with
        ⟨config, hconfig, rfl, slice', hslice', hnil⟩ | ⟨-, heq⟩
      · rw [hslice] at hslice'
        cases hslice'
        rw [hnil, (h.crntisOf_eq_nil_iff _).mpr (hnone config hconfig)]
        rfl
      · exact h.member name slice (heq.symm.trans hslice)

/-- Under agreement, the deletion loop removes the named slices from both maps. -/
theorem foldl_delete_of_existing (names : List κ) {s : Slicer κ}
    (h : ∀ name, s.slices.find? name = none → s.sliceToCrntiVec.find? name = none) :
    names.foldl (fun s name =>
      if s.slices.contains name then
        { s with
          slices := s.slices.erase name
          sliceToCrntiVec := s.sliceToCrntiVec.erase name }
      else s) s =
    { s with
      slices := names.foldl OrdMap.erase s.slices
      sliceToCrntiVec := names.foldl OrdMap.erase s.sliceToCrntiVec } := by
  induction names generalizing s with
  | nil => rfl
  | cons name names ih =>
    have herase : (if s.slices.contains name then
        { s with
          slices := s.slices.erase name
          sliceToCrntiVec := s.sliceToCrntiVec.erase name }
        else s) =
        { s with
          slices := s.slices.erase name
          sliceToCrntiVec := s.sliceToCrntiVec.erase name } := by
      split
      · rfl
      · rename_i hnot
        -- An absent name is skipped, and its removal would change neither map.
        have hnone : s.slices.find? name = none := by
          simpa [OrdMap.contains] using hnot
        rw [OrdMap.erase_of_find?_eq_none _ hnone, OrdMap.erase_of_find?_eq_none _ (h name hnone)]
    rw [List.foldl_cons, herase, ih, List.foldl_cons, List.foldl_cons]
    intro k hk
    have hk : (s.slices.erase name).find? k = none := hk
    show (s.sliceToCrntiVec.erase name).find? k = none
    rw [OrdMap.find?_erase] at hk ⊢
    split
    · rfl
    · rename_i hne
      rw [if_neg hne] at hk
      exact h k hk

/-- Deletion keeps the agreement exactly when it drops no attached member. -/
theorem tablesAgree_delete_iff {s : Slicer κ} (h : TablesAgree s) (names : List κ) :
    TablesAgree { s with
      slices := names.foldl OrdMap.erase s.slices
      sliceToCrntiVec := names.foldl OrdMap.erase s.sliceToCrntiVec } ↔
      ∀ name ∈ names, NoneAttached s name := by
  have hnone : (∀ name ∈ names, NoneAttached s name) ↔
      ∀ name ∈ names, (s.sliceToCrntiVec.find? name).getD [] = [] :=
    forall₂_congr fun name _ => (h.crntisOf_eq_nil_iff name).symm
  rw [hnone, ← OrdMap.flatten_values_foldl_erase]
  constructor
  · intro h'
    -- The list of all C-RNTIs is not refreshed.
    exact h'.all.symm.trans h.all
  · intro hflat
    refine ⟨fun name hname => ?_, fun name slice hslice => ?_, h.all.trans hflat.symm⟩
    · have hname : (names.foldl OrdMap.erase s.slices).find? name = none := hname
      show (names.foldl OrdMap.erase s.sliceToCrntiVec).find? name = none
      rw [OrdMap.find?_foldl_erase] at hname ⊢
      split
      · rfl
      · rename_i hmem
        rw [if_neg hmem] at hname
        exact h.existing name hname
    · have hslice : (names.foldl OrdMap.erase s.slices).find? name = some slice := hslice
      show ((names.foldl OrdMap.erase s.sliceToCrntiVec).find? name).getD [] = memberCrntis s slice
      rw [OrdMap.find?_foldl_erase] at hslice ⊢
      split at hslice
      · cases hslice
      · rename_i hmem
        rw [if_neg hmem]
        exact h.member name slice hslice

/-! ### Runs -/

/-- A call that is defined keeps the agreement exactly when it drops no attached member. -/
theorem step_tablesAgree_iff {s s' : Slicer κ} {op : Op κ} {out : Out κ} (h : TablesAgree s)
    (hstep : step s op = some (s', out)) : TablesAgree s' ↔ DropsNoneAttached s op := by
  cases op with
  | sliceConfig configs =>
    simp only [step, sliceConfig, Option.bind_eq_bind, Option.map_eq_some_iff,
      Option.bind_eq_some_iff, Option.pure_def, Option.some.injEq] at hstep
    obtain ⟨_, ⟨t, ht, rfl⟩, hs'⟩ := hstep
    cases hs'
    exact (tablesAgree_updSfAlloc_iff ht).trans (tablesAgree_configSlices_iff h configs)
  | sliceDelete names =>
    simp only [step, sliceDelete, foldl_delete_of_existing names h.existing, Option.bind_eq_bind,
      Option.map_eq_some_iff, Option.bind_eq_some_iff, Option.pure_def, Option.some.injEq] at hstep
    obtain ⟨_, ⟨t, ht, rfl⟩, hs'⟩ := hstep
    cases hs'
    exact (tablesAgree_updSfAlloc_iff ht).trans (tablesAgree_delete_iff h names)
  | sliceUeBind name imsis =>
    cases hstep
    refine iff_of_true ?_ trivial
    simp only [sliceUeBind]
    split
    · exact h
    · exact h.updSliceCrntis name _
  | sliceUeUnbind name imsis =>
    cases hstep
    refine iff_of_true ?_ trivial
    simp only [sliceUeUnbind]
    split
    · exact h
    · exact h.updSliceCrntis name _
  | updMemberCrntiOfImsi imsi crnti =>
    cases hstep
    exact iff_of_true (h.updMemberSlices imsi crnti s.tmsiToImsi) trivial
  | updMemberCrntiOfTmsi tmsi crnti =>
    cases hstep
    refine iff_of_true ?_ trivial
    simp only [updMemberCrntiOfTmsi]
    split
    · exact h.congr rfl rfl rfl rfl
    · exact h.updMemberSlices _ crnti _
  | updMemberCrntiOfCrnti old new =>
    cases hstep
    refine iff_of_true ?_ trivial
    simp only [updMemberCrntiOfCrnti]
    split
    · exact h
    · exact h.updMemberSlices _ new s.tmsiToImsi
  | getCurSfCrntis tti =>
    refine iff_of_true ?_ trivial
    simp only [step, Option.map_eq_some_iff] at hstep
    obtain ⟨⟨t, r⟩, hget, heq⟩ := hstep
    cases heq
    rcases getCurSfCrntis_cases hget with ⟨rfl, -⟩ | ⟨name, slice, index, hslice, -, rfl⟩
    · exact h
    · exact h.insert_crntisOf hslice index

/-- The tables agree after each call of a run, and the scheduler reads bound UEs only. -/
def TablesAgreeAlong (slicedUnslicedRatio : UInt32) (ops : List (Op κ)) : Prop :=
  AlongRun step (fun s => TablesAgree s ∧ NamesBound s) (init slicedUnslicedRatio) ops

/-- In a run of defined calls, the tables agree after each call exactly when no call drops an
attached member. -/
theorem tablesAgree_iff_within (slicedUnslicedRatio : UInt32) (ops : List (Op κ)) (s : Slicer κ)
    (outs : List (Out κ)) (hrun : run step (init slicedUnslicedRatio) ops = some (s, outs)) :
    TablesAgreeAlong slicedUnslicedRatio ops ↔
      StepsWithin step DropsNoneAttached (init slicedUnslicedRatio) ops := by
  apply alongRun_iff_within _ _ ops _ s outs _ hrun
  · intro s op s' out hs hstep
    rw [← step_tablesAgree_iff hs.1 hstep]
    exact ⟨And.left, fun h => ⟨h, namesBound_of_tablesAgree h⟩⟩
  · exact ⟨tablesAgree_init _, namesBound_of_tablesAgree (tablesAgree_init _)⟩

/-- A UE that is bound, attached and served keeps the tables in agreement. -/
theorem tablesAgree_attached : TablesAgreeAlong 20
    [.sliceConfig [⟨"a", 1⟩], .sliceUeBind "a" [7], .updMemberCrntiOfImsi 7 70] :=
  (tablesAgree_iff_within 20 _ _ _ rfl).mpr
    ⟨fun _ _ _ => nofun, fun _ _ _ => ⟨trivial, fun _ _ _ => ⟨trivial, fun _ _ _ => trivial⟩⟩⟩

/-- A slice that is configured again loses its member, whose C-RNTI stays in the tables. -/
theorem not_tablesAgree_sliceConfig_again : ¬ TablesAgreeAlong 20
    [.sliceConfig [⟨"a", 1⟩], .sliceUeBind "a" [7], .updMemberCrntiOfImsi 7 70,
      .sliceConfig [⟨"a", 1⟩]] := by
  intro h
  have hagree := (h _ [] (List.append_nil _).symm _ _ rfl).1
  exact absurd (hagree.member "a" ⟨⟨"a", 1⟩, []⟩ rfl) (by decide)

end Odss.Mac.Slicer
