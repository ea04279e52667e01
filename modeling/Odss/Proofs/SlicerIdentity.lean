import Odss.Proofs.SlicerTables

/-!
# `Odss.Proofs.SlicerIdentity`: which UE the slicer takes a C-RNTI for

RRC tells the slicer about a UE in three calls: an attach with its IMSI, a service request with
its TMSI, and a change of its C-RNTI. It does not tell the slicer that a UE has left, so
`imsiToCrnti` keeps the C-RNTI of a UE that is gone, and the C-RNTI can go to another UE.

`Cell` is the other side: which UE holds a C-RNTI, who held it last, and which UE has shown a
TMSI while it held its C-RNTI. `Event` has the three calls and the release that the slicer does
not see. `Identified` compares the tables of the slicer with the cell. It holds in every run in
which no call meets a C-RNTI that is still mapped to another IMSI (`identified_of_within`), and
`not_identified_reused` is a run in which one does.
-/

set_option linter.all false

namespace Odss.Mac

open Odss.Lib

/-! ### The UEs of the cell -/

/-- The UEs of the cell, as far as they have been identified.

- `holder`: the UE that holds a C-RNTI;
- `latest`: the UE that held it last. It stays after the release;
- `link`: the UE that last showed a TMSI with a C-RNTI that it held. -/
structure Cell where
  holder : Rnti → Option Imsi
  latest : Rnti → Option Imsi
  link : Tmsi → Option Imsi

/-- What happens in the cell. The slicer is called for all of it but the release. -/
inductive Event where
  | attach (imsi : Imsi) (crnti : Rnti)
  | service (tmsi : Tmsi) (crnti : Rnti)
  | change (oldCrnti newCrnti : Rnti)
  | release (crnti : Rnti)

namespace Cell

/-- The cell without a UE. -/
def init : Cell := ⟨fun _ => none, fun _ => none, fun _ => none⟩

/-- The C-RNTI goes to `ue`, which gives up any other one. -/
def hold (c : Cell) (ue : Option Imsi) (crnti : Rnti) : Cell :=
  { c with
    holder := fun r => if r = crnti then ue else if c.holder r = ue then none else c.holder r
    latest := Function.update c.latest crnti ue }

/-- The UE with the C-RNTI has left. -/
def release (c : Cell) (crnti : Rnti) : Cell :=
  { c with holder := Function.update c.holder crnti none }

/-- The UE that an event is about. A service request comes from the UE that holds the C-RNTI, or,
on a new C-RNTI, from the UE that its TMSI is linked to. -/
def ue (c : Cell) : Event → Option Imsi
  | .attach imsi _ => some imsi
  | .service tmsi crnti => (c.holder crnti).or (c.link tmsi)
  | .change oldCrnti _ => c.holder oldCrnti
  | .release crnti => c.holder crnti

/-- What an event changes in the cell. -/
def step (c : Cell) (e : Event) : Cell :=
  match e with
  | .attach _ crnti => c.hold (c.ue e) crnti
  | .service tmsi crnti =>
    { c.hold (c.ue e) crnti with link := Function.update c.link tmsi (c.ue e) }
  | .change oldCrnti newCrnti => (c.release oldCrnti).hold (c.ue e) newCrnti
  | .release crnti => c.release crnti

end Cell

namespace Slicer

variable {κ : Type} [LinearOrder κ]

/-- The slicer and the cell that it tracks. -/
structure Tracked (κ : Type) [LinearOrder κ] where
  slicer : Slicer κ
  cell : Cell

/-- The call that the slicer gets for an event. -/
def onEvent (s : Slicer κ) : Event → Slicer κ
  | .attach imsi crnti => s.updMemberCrntiOfImsi imsi crnti
  | .service tmsi crnti => s.updMemberCrntiOfTmsi tmsi crnti
  | .change oldCrnti newCrnti => s.updMemberCrntiOfCrnti oldCrnti newCrnti
  | .release _ => s

/-- One event. -/
def Tracked.step (t : Tracked κ) (e : Event) : Tracked κ := ⟨t.slicer.onEvent e, t.cell.step e⟩

/-- The slicer takes each C-RNTI for the right UE.

- `latest`: only the UE that held a C-RNTI last is mapped to it, so at most one;
- `linked`: the TMSI table has the links of the cell. `0` stands for no link;
- `held`: a UE that holds a C-RNTI is mapped to it;
- `scheduled`: a UE is scheduled only in a slice that it is bound to. -/
structure Identified (t : Tracked κ) : Prop where
  latest : ∀ imsi crnti, t.slicer.imsiToCrnti.find? imsi = some crnti →
    t.cell.latest crnti = some imsi
  linked : ∀ tmsi imsi, t.cell.link tmsi = some imsi ↔
    t.slicer.tmsiToImsi.find? tmsi = some imsi ∧ imsi ≠ 0
  held : ∀ crnti imsi, t.cell.holder crnti = some imsi →
    t.slicer.imsiToCrnti.find? imsi = some crnti
  scheduled : ∀ name, ∀ crnti ∈ crntisOf t.slicer name, ∀ imsi, t.cell.holder crnti = some imsi →
    ∃ slice, t.slicer.slices.find? name = some slice ∧ imsi ∈ slice.imsiList

/-- A C-RNTI is mapped to no IMSI, or to the IMSI of `ue`. -/
def MappedTo (s : Slicer κ) (crnti : Rnti) (ue : Option Imsi) : Prop :=
  ∀ imsi, s.imsiToCrnti.find? imsi = some crnti → ue = some imsi

/-- The condition on an event: its C-RNTIs are mapped to no other IMSI than that of its UE, and an
attached UE has an IMSI. -/
def NotMappedToOther (t : Tracked κ) (e : Event) : Prop :=
  match e with
  | .attach imsi crnti => imsi ≠ 0 ∧ MappedTo t.slicer crnti (t.cell.ue e)
  | .service _ crnti => MappedTo t.slicer crnti (t.cell.ue e)
  | .change oldCrnti newCrnti =>
    MappedTo t.slicer oldCrnti (t.cell.ue e) ∧ MappedTo t.slicer newCrnti (t.cell.ue e)
  | .release _ => True

/-! ### The invariant -/

/-- The tables of the slicer and the cell fit together. -/
structure IdInv (t : Tracked κ) : Prop where
  tables : TablesAgree t.slicer
  named : ∀ imsi crnti, t.slicer.imsiToCrnti.find? imsi = some crnti → imsi ≠ 0
  latest : ∀ imsi crnti, t.slicer.imsiToCrnti.find? imsi = some crnti →
    t.cell.latest crnti = some imsi
  linked : ∀ tmsi imsi, t.cell.link tmsi = some imsi ↔
    t.slicer.tmsiToImsi.find? tmsi = some imsi ∧ imsi ≠ 0
  held : ∀ crnti imsi, t.cell.holder crnti = some imsi →
    t.slicer.imsiToCrnti.find? imsi = some crnti

/-- The UE that holds a C-RNTI of a slice is the one that is bound to the slice. -/
theorem IdInv.identified {t : Tracked κ} (h : IdInv t) : Identified t where
  latest := h.latest
  linked := h.linked
  held := h.held
  scheduled := by
    intro name crnti hcrnti imsi hheld
    cases hslice : t.slicer.slices.find? name with
    | none =>
      rw [crntisOf, h.tables.existing name hslice] at hcrnti
      cases hcrnti
    | some slice =>
      rw [h.tables.member name slice hslice, memberCrntis, List.mem_filterMap] at hcrnti
      obtain ⟨other, hmem, hother⟩ := hcrnti
      -- Both are mapped to the C-RNTI, so both are its latest holder.
      have hsame := h.latest imsi crnti (h.held crnti imsi hheld)
      rw [h.latest other crnti hother] at hsame
      cases hsame
      exact ⟨slice, rfl, hmem⟩

@[simp] theorem imsiToCrnti_updMemberSlices (s : Slicer κ) (imsi : Imsi) :
    (updMemberSlices s imsi).imsiToCrnti = s.imsiToCrnti := by
  have key : ∀ (es : List (κ × Slice κ)) (t : Slicer κ), (es.foldl
      (fun s entry => if imsi ∈ entry.2.imsiList then updSliceCrntis s entry.1 else s)
      t).imsiToCrnti = t.imsiToCrnti := by
    intro es
    induction es with
    | nil => intro t; rfl
    | cons e es ih =>
      intro t
      rw [List.foldl_cons, ih]
      split <;> rfl
  exact key s.slices.entries s

@[simp] theorem tmsiToImsi_updMemberSlices (s : Slicer κ) (imsi : Imsi) :
    (updMemberSlices s imsi).tmsiToImsi = s.tmsiToImsi := by
  have key : ∀ (es : List (κ × Slice κ)) (t : Slicer κ), (es.foldl
      (fun s entry => if imsi ∈ entry.2.imsiList then updSliceCrntis s entry.1 else s)
      t).tmsiToImsi = t.tmsiToImsi := by
    intro es
    induction es with
    | nil => intro t; rfl
    | cons e es ih =>
      intro t
      rw [List.foldl_cons, ih]
      split <;> rfl
  exact key s.slices.entries s

/-- The search of `imsi_to_crnti` by value finds an IMSI exactly when one is mapped. -/
theorem find?_crnti_cases (s : Slicer κ) (crnti : Rnti) :
    ((s.imsiToCrnti.entries.find? fun e => e.2 == crnti) = none ∧
      ∀ imsi, s.imsiToCrnti.find? imsi ≠ some crnti) ∨
    ∃ imsi, (s.imsiToCrnti.entries.find? fun e => e.2 == crnti) = some (imsi, crnti) ∧
      s.imsiToCrnti.find? imsi = some crnti := by
  cases h : s.imsiToCrnti.entries.find? fun e => e.2 == crnti with
  | none =>
    refine Or.inl ⟨rfl, fun imsi himsi => ?_⟩
    have hmem := (OrdMap.mem_entries_iff _ _ _).mpr himsi
    simpa using List.find?_eq_none.mp h _ hmem
  | some e =>
    obtain ⟨imsi, r⟩ := e
    have hr : r = crnti := by simpa using List.find?_some h
    subst hr
    exact Or.inr ⟨imsi, rfl, (OrdMap.mem_entries_iff _ _ _).mp (List.mem_of_find?_eq_some h)⟩

/-- Tables after a UE has been given a C-RNTI: what the four fields need, when the C-RNTI was
mapped to no other IMSI. -/
theorem IdInv.hold {s s' : Slicer κ} {cell : Cell} {imsi : Imsi} {crnti : Rnti}
    (htables : TablesAgree s')
    (hnamed : ∀ i r, s.imsiToCrnti.find? i = some r → i ≠ 0)
    (hlatest : ∀ i r, s.imsiToCrnti.find? i = some r → cell.latest r = some i)
    (hheld : ∀ r i, i ≠ imsi → cell.holder r = some i → s.imsiToCrnti.find? i = some r)
    (hlinked : ∀ tmsi i, cell.link tmsi = some i ↔ s'.tmsiToImsi.find? tmsi = some i ∧ i ≠ 0)
    (himsi : imsi ≠ 0) (hmapped : MappedTo s crnti (some imsi))
    (hs' : s'.imsiToCrnti = s.imsiToCrnti.insert imsi crnti) :
    IdInv ⟨s', cell.hold (some imsi) crnti⟩ where
  tables := htables
  named := by
    intro i r h
    rw [hs', OrdMap.find?_insert] at h
    split at h
    · rename_i heq
      exact heq ▸ himsi
    · exact hnamed i r h
  latest := by
    intro i r h
    show Function.update cell.latest crnti (some imsi) r = some i
    rw [hs', OrdMap.find?_insert] at h
    split at h
    · rename_i heq
      cases h
      rw [heq, Function.update_self]
    · rename_i hne
      have hr : r ≠ crnti := by
        intro heq
        rw [heq] at h
        exact hne (Option.some.inj (hmapped i h)).symm
      rw [Function.update_of_ne hr]
      exact hlatest i r h
  linked := hlinked
  held := by
    intro r i h
    have h : (if r = crnti then some imsi
      else if cell.holder r = some imsi then none else cell.holder r) = some i := h
    rw [hs', OrdMap.find?_insert]
    split_ifs at h with hr hother
    · cases h
      rw [if_pos rfl, hr]
    · have hne : i ≠ imsi := by
        intro heq
        exact hother (heq ▸ h)
      rw [if_neg hne]
      exact hheld r i hne h

/-- An unknown UE has been given a C-RNTI that is mapped to no IMSI. -/
theorem IdInv.hold_none {s s' : Slicer κ} {cell : Cell} {crnti : Rnti}
    (htables : TablesAgree s')
    (hnamed : ∀ i r, s.imsiToCrnti.find? i = some r → i ≠ 0)
    (hlatest : ∀ i r, s.imsiToCrnti.find? i = some r → cell.latest r = some i)
    (hheld : ∀ r i, cell.holder r = some i → s.imsiToCrnti.find? i = some r)
    (hlinked : ∀ tmsi i, cell.link tmsi = some i ↔ s'.tmsiToImsi.find? tmsi = some i ∧ i ≠ 0)
    (hmapped : ∀ i, s.imsiToCrnti.find? i ≠ some crnti)
    (hs' : s'.imsiToCrnti = s.imsiToCrnti) :
    IdInv ⟨s', cell.hold none crnti⟩ where
  tables := htables
  named := by rw [hs']; exact hnamed
  latest := by
    intro i r h
    rw [hs'] at h
    show Function.update cell.latest crnti none r = some i
    have hr : r ≠ crnti := fun heq => hmapped i (heq ▸ h)
    rw [Function.update_of_ne hr]
    exact hlatest i r h
  linked := hlinked
  held := by
    intro r i h
    have h : (if r = crnti then none
      else if cell.holder r = none then none else cell.holder r) = some i := h
    rw [hs']
    split_ifs at h
    exact hheld r i h

/-! ### The events -/

theorem idInv_attach {t : Tracked κ} {imsi : Imsi} {crnti : Rnti} (h : IdInv t)
    (himsi : imsi ≠ 0) (hmapped : MappedTo t.slicer crnti (some imsi)) :
    IdInv (t.step (.attach imsi crnti)) := by
  refine IdInv.hold (s := t.slicer) ?_ h.named h.latest (fun r i _ => h.held r i) ?_ himsi hmapped ?_
  · exact h.tables.updMemberSlices imsi crnti t.slicer.tmsiToImsi
  · intro tmsi i
    simp only [onEvent, updMemberCrntiOfImsi, tmsiToImsi_updMemberSlices]
    exact h.linked tmsi i
  · simp only [onEvent, updMemberCrntiOfImsi, imsiToCrnti_updMemberSlices]

theorem linked_update {cell : Cell} {m : OrdMap Tmsi Imsi} {tmsi : Tmsi} {imsi : Imsi}
    {ue : Option Imsi}
    (h : ∀ tmsi i, cell.link tmsi = some i ↔ m.find? tmsi = some i ∧ i ≠ 0)
    (hue : ∀ i, ue = some i ↔ imsi = i ∧ i ≠ 0) (tmsi' : Tmsi) (i : Imsi) :
    Function.update cell.link tmsi ue tmsi' = some i ↔
      (m.insert tmsi imsi).find? tmsi' = some i ∧ i ≠ 0 := by
  rw [OrdMap.find?_insert]
  by_cases heq : tmsi' = tmsi
  · rw [heq, Function.update_self, if_pos rfl, hue, Option.some.injEq]
  · rw [Function.update_of_ne heq, if_neg heq, h]

theorem tablesAgree_service {t : Tracked κ} (h : IdInv t) (tmsi : Tmsi) (crnti : Rnti) :
    TablesAgree (t.slicer.updMemberCrntiOfTmsi tmsi crnti) := by
  have hiff := @step_tablesAgree_iff κ _ t.slicer _ (.updMemberCrntiOfTmsi tmsi crnti) _ h.tables rfl
  exact hiff.mpr trivial

/-- The service request of a UE that the slicer finds: its IMSI takes over the TMSI. -/
theorem IdInv.service_found {t : Tracked κ} {tmsi : Tmsi} {crnti : Rnti} {imsi : Imsi}
    (h : IdInv t) (hne : imsi ≠ 0) (hue : t.cell.ue (.service tmsi crnti) = some imsi)
    (hmapped : MappedTo t.slicer crnti (some imsi))
    (hcall : t.slicer.updMemberCrntiOfTmsi tmsi crnti =
      updMemberSlices { t.slicer with
        tmsiToImsi := t.slicer.tmsiToImsi.insert tmsi imsi
        imsiToCrnti := t.slicer.imsiToCrnti.insert imsi crnti } imsi) :
    IdInv (t.step (.service tmsi crnti)) := by
  have htables := tablesAgree_service h tmsi crnti
  show IdInv ⟨t.slicer.updMemberCrntiOfTmsi tmsi crnti, _⟩
  rw [hcall] at htables ⊢
  rw [Cell.step, hue]
  refine @IdInv.hold κ _ t.slicer _
    { t.cell with link := Function.update t.cell.link tmsi (some imsi) } _ _
    htables h.named h.latest (fun r i _ => h.held r i) ?_ hne hmapped
    (imsiToCrnti_updMemberSlices _ _)
  rw [tmsiToImsi_updMemberSlices]
  apply linked_update h.linked
  intro i
  rw [Option.some.injEq]
  exact ⟨fun hi => ⟨hi, hi ▸ hne⟩, And.left⟩

theorem idInv_service {t : Tracked κ} {tmsi : Tmsi} {crnti : Rnti} (h : IdInv t)
    (hmapped : MappedTo t.slicer crnti (t.cell.ue (.service tmsi crnti))) :
    IdInv (t.step (.service tmsi crnti)) := by
  rcases find?_crnti_cases t.slicer crnti with ⟨hnone, hunmapped⟩ | ⟨imsi, hfind, himsi⟩
  · -- No IMSI is mapped to the C-RNTI, so nobody known holds it and the link decides.
    have hholder : t.cell.holder crnti = none := by
      cases hh : t.cell.holder crnti with
      | none => rfl
      | some i => exact absurd (h.held crnti i hh) (hunmapped i)
    have hue : t.cell.ue (.service tmsi crnti) = t.cell.link tmsi := by
      rw [Cell.ue, hholder, Option.none_or]
    cases hlink : t.cell.link tmsi with
    | none =>
      have hknown : (t.slicer.tmsiToImsi.find? tmsi).getD 0 = 0 := by
        cases hk : t.slicer.tmsiToImsi.find? tmsi with
        | none => rfl
        | some i =>
          by_contra hne
          have hsome := (h.linked tmsi i).mpr ⟨hk, hne⟩
          exact absurd (hlink.symm.trans hsome) nofun
      have hcall : t.slicer.updMemberCrntiOfTmsi tmsi crnti =
          { t.slicer with tmsiToImsi := t.slicer.tmsiToImsi.insert tmsi 0 } := by
        simp [updMemberCrntiOfTmsi, hnone, hknown]
      have htables := tablesAgree_service h tmsi crnti
      show IdInv ⟨t.slicer.updMemberCrntiOfTmsi tmsi crnti, _⟩
      rw [hcall] at htables ⊢
      rw [Cell.step, hue, hlink]
      refine @IdInv.hold_none κ _ t.slicer _
        { t.cell with link := Function.update t.cell.link tmsi none } _
        htables h.named h.latest h.held ?_ hunmapped rfl
      apply linked_update h.linked
      intro i
      constructor
      · exact nofun
      · intro hi
        exact absurd hi.1.symm hi.2
    | some imsi =>
      obtain ⟨hknown, hne⟩ := (h.linked tmsi imsi).mp hlink
      refine h.service_found hne (hue.trans hlink) (fun i hi => absurd hi (hunmapped i)) ?_
      simp [updMemberCrntiOfTmsi, hnone, hknown, hne]
  · -- The mapped IMSI is that of the UE.
    have hne := h.named imsi crnti himsi
    have hue := hmapped imsi himsi
    refine h.service_found hne hue (hue ▸ hmapped) ?_
    simp [updMemberCrntiOfTmsi, hfind, hne]

theorem idInv_change {t : Tracked κ} {oldCrnti newCrnti : Rnti} (h : IdInv t)
    (hold : MappedTo t.slicer oldCrnti (t.cell.holder oldCrnti))
    (hnew : MappedTo t.slicer newCrnti (t.cell.holder oldCrnti)) :
    IdInv (t.step (.change oldCrnti newCrnti)) := by
  have htables : TablesAgree (t.slicer.updMemberCrntiOfCrnti oldCrnti newCrnti) := by
    have hiff := @step_tablesAgree_iff κ _ t.slicer _ (.updMemberCrntiOfCrnti oldCrnti newCrnti) _
      h.tables rfl
    exact hiff.mpr trivial
  have hheld : ∀ r i, (t.cell.release oldCrnti).holder r = some i →
      t.slicer.imsiToCrnti.find? i = some r := by
    intro r i hr
    have hr : Function.update t.cell.holder oldCrnti none r = some i := hr
    rw [Function.update_apply] at hr
    split at hr
    · cases hr
    · exact h.held r i hr
  show IdInv ⟨t.slicer.updMemberCrntiOfCrnti oldCrnti newCrnti,
    (t.cell.release oldCrnti).hold (t.cell.holder oldCrnti) newCrnti⟩
  rcases find?_crnti_cases t.slicer oldCrnti with ⟨hnone, hunmapped⟩ | ⟨imsi, hfind, himsi⟩
  · have hholder : t.cell.holder oldCrnti = none := by
      cases hh : t.cell.holder oldCrnti with
      | none => rfl
      | some i => exact absurd (h.held oldCrnti i hh) (hunmapped i)
    have hcall : t.slicer.updMemberCrntiOfCrnti oldCrnti newCrnti = t.slicer := by
      simp [updMemberCrntiOfCrnti, hnone]
    rw [hcall, hholder]
    refine IdInv.hold_none (s := t.slicer) h.tables h.named h.latest hheld h.linked
      (fun i hi => ?_) rfl
    rw [hholder] at hnew
    cases hnew i hi
  · have hue := hold imsi himsi
    have hcall : t.slicer.updMemberCrntiOfCrnti oldCrnti newCrnti =
        updMemberSlices { t.slicer with
          imsiToCrnti := t.slicer.imsiToCrnti.insert imsi newCrnti } imsi := by
      simp [updMemberCrntiOfCrnti, hfind]
    rw [hcall] at htables ⊢
    rw [hue] at hnew ⊢
    refine IdInv.hold (s := t.slicer) htables h.named h.latest (fun r i _ => hheld r i) ?_
      (h.named imsi oldCrnti himsi) hnew (imsiToCrnti_updMemberSlices _ _)
    intro tmsi i
    rw [tmsiToImsi_updMemberSlices]
    exact h.linked tmsi i

theorem idInv_release {t : Tracked κ} {crnti : Rnti} (h : IdInv t) :
    IdInv (t.step (.release crnti)) where
  tables := h.tables
  named := h.named
  latest := h.latest
  linked := h.linked
  held := by
    intro r i hr
    have hr : Function.update t.cell.holder crnti none r = some i := hr
    rw [Function.update_apply] at hr
    split at hr
    · cases hr
    · exact h.held r i hr

/-- An event under the condition keeps the invariant. -/
theorem idInv_step (t : Tracked κ) (e : Event) (h : IdInv t) (he : NotMappedToOther t e) :
    IdInv (t.step e) := by
  cases e with
  | attach imsi crnti => exact idInv_attach h he.1 he.2
  | service tmsi crnti => exact idInv_service h he
  | change old new => exact idInv_change h he.1 he.2
  | release crnti => exact idInv_release h

/-! ### Runs -/

/-- The start of a run: slices with members may be configured, and no UE is known. -/
structure Fresh (s : Slicer κ) : Prop where
  tables : TablesAgree s
  imsiToCrnti : s.imsiToCrnti = ∅
  tmsiToImsi : s.tmsiToImsi = ∅

/-- In every run in which no event meets a C-RNTI that is mapped to the IMSI of another UE, the
slicer takes each C-RNTI for the right UE. -/
theorem identified_of_within (s : Slicer κ) (hs : Fresh s) (events : List Event)
    (h : ExecWithin Tracked.step NotMappedToOther ⟨s, Cell.init⟩ events) :
    Identified (exec Tracked.step ⟨s, Cell.init⟩ events) := by
  apply IdInv.identified
  apply exec_invariant_of_within IdInv idInv_step events _ _ h
  constructor
  · exact hs.tables
  · intro imsi crnti himsi
    rw [show s.imsiToCrnti = ∅ from hs.imsiToCrnti] at himsi
    cases himsi
  · intro imsi crnti himsi
    rw [show s.imsiToCrnti = ∅ from hs.imsiToCrnti] at himsi
    cases himsi
  · intro tmsi imsi
    rw [show s.tmsiToImsi = ∅ from hs.tmsiToImsi]
    exact ⟨nofun, nofun⟩
  · exact nofun

theorem fresh_init (slicedUnslicedRatio : UInt32) :
    Fresh (init slicedUnslicedRatio : Slicer String) where
  tables := tablesAgree_init _
  imsiToCrnti := rfl
  tmsiToImsi := rfl

/-- A UE attaches, shows its TMSI, leaves and comes back with a new C-RNTI. -/
theorem identified_serviceRequest : Identified (exec Tracked.step
    (⟨init 20, Cell.init⟩ : Tracked String)
    [.attach 1 70, .service 5 70, .release 70, .service 5 71]) := by
  apply identified_of_within _ (fresh_init 20)
  refine ⟨⟨by decide, nofun⟩, fun imsi h => ?_, trivial, fun imsi h => ?_, trivial⟩
  · by_cases heq : imsi = 1
    · rw [heq]
      rfl
    · have h : (if imsi = 1 then some 70 else none) = some 70 := h
      rw [if_neg heq] at h
      cases h
  · have h : (if imsi = 1 then some 70 else none) = some 71 := h
    split at h <;> cases h

/-- The second UE gets the C-RNTI of a UE that has left, and both IMSIs are mapped to it. -/
theorem not_identified_reused : ¬ Identified (exec Tracked.step
    (⟨init 20, Cell.init⟩ : Tracked String) [.attach 1 70, .release 70, .attach 2 70]) := by
  intro h
  have hfirst := h.latest 1 70 rfl
  have hsecond : (some 2 : Option Imsi) = some 1 := hfirst
  cases hsecond

end Slicer

end Odss.Mac
