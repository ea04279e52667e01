import Odss.Ric.NexRan
import Odss.Proofs.SlicerTables
import Mathlib.Data.List.TakeWhile

/-!
# `Odss.Proofs.NexRanMirror`: the tables of the service model and of the slicer

The NexRAN service model keeps its own tables of slices and bound UEs next to those of the slicer.
`Mirror` says that the two list the same. Three requests can leave them apart:

- a slice that is configured again loses its members in the slicer, and keeps them in the model;
- an unbind request removes the first UE of the model's list, whichever UE it names;
- the model compares IMSIs as texts, and the slicer as numbers.

A request that the model refuses changes nothing. `mirrors_iff_within` is the exact condition for
whole runs: each request returns and leaves the tables mirrored exactly when it meets
`KeepsMirror`.
-/

set_option linter.all false

namespace Odss.Mac.Slicer

open Odss.Lib

variable {κ : Type} [LinearOrder κ]

/-! ### The slicer's part -/

/-- Some slice of the table has a share. -/
def HasShare (slices : OrdMap κ (Slice κ)) : Prop :=
  ∃ e ∈ slices.entries, e.2.config.share ≠ 0

theorem sfAllocLoop_isSome {gcf : UInt32} (hg : gcf ≠ 0) (l : List UInt32) (i : UInt32)
    (acc : List UInt32) (total : UInt32) : ∃ r, sfAllocLoop gcf l i acc total = some r := by
  induction l generalizing i acc total with
  | nil => exact ⟨_, rfl⟩
  | cons x l ih =>
    simp only [sfAllocLoop, if_neg hg]
    exact ih _ _ _

/-- `upd_sf_alloc` is defined exactly when some slice has a share, and it keeps the slices. -/
theorem updSfAlloc_defined_iff (s : Slicer κ) :
    (∃ s', updSfAlloc s = some s') ↔ HasShare s.slices := by
  have hzero : HasShare s.slices ↔ ∃ x ∈ sliceShares s.slices, x ≠ 0 := by
    simp only [HasShare, sliceShares, OrdMap.values, List.map_map, List.mem_map,
      Function.comp_apply, exists_exists_and_eq_and]
  rw [hzero]
  cases hshares : sliceShares s.slices with
  | nil => simp [updSfAlloc, hshares, calcGcfVec]
  | cons x v =>
    have hgcf : calcGcfLoop x v = 0 ↔ ∀ y ∈ x :: v, y = 0 := by
      rw [← UInt32.toNat_inj, calcGcfLoop_toNat, UInt32.toNat_zero, Nat.gcd_eq_zero_iff,
        gcdList_eq_zero, List.forall_mem_map, List.forall_mem_cons]
      simp only [← UInt32.toNat_inj, UInt32.toNat_zero]
    by_cases hg : calcGcfLoop x v = 0
    · -- The first slice divides by the factor zero.
      have hnone : ¬ ∃ y ∈ x :: v, y ≠ 0 := by
        rintro ⟨y, hy, hne⟩
        exact hne (hgcf.mp hg y hy)
      refine iff_of_false ?_ hnone
      simp [updSfAlloc, hshares, calcGcfVec, hg, sfAllocLoop]
    · obtain ⟨r, hr⟩ := sfAllocLoop_isSome hg (x :: v) 0 [] 0
      have hsome : ∃ y ∈ x :: v, y ≠ 0 := by
        by_contra hno
        push Not at hno
        exact hg (hgcf.mpr hno)
      refine iff_of_true ?_ hsome
      simp [updSfAlloc, hshares, calcGcfVec, hr]

theorem slices_updSfAlloc {s s' : Slicer κ} (h : updSfAlloc s = some s') :
    s'.slices = s.slices := by
  simp only [updSfAlloc, Option.bind_eq_bind, Option.bind_eq_some_iff, Option.pure_def,
    Option.some.injEq] at h
  obtain ⟨_, _, _, _, rfl⟩ := h
  rfl

theorem mem_bindImsis {imsis bound : List Imsi} {imsi : Imsi} :
    imsi ∈ imsis.foldl (fun imsis imsi => if imsi ∈ imsis then imsis else imsis ++ [imsi]) bound ↔
      imsi ∈ bound ∨ imsi ∈ imsis := by
  induction imsis generalizing bound with
  | nil => simp
  | cons i imsis ih =>
    rw [List.foldl_cons, ih]
    split
    · rename_i hmem
      constructor
      · exact Or.imp_right (List.mem_cons_of_mem i)
      · rintro (h | h)
        · exact Or.inl h
        · rcases List.mem_cons.mp h with rfl | h
          · exact Or.inl hmem
          · exact Or.inr h
    · simp [or_assoc]

theorem nodup_bindImsis {imsis bound : List Imsi} (h : bound.Nodup) :
    (imsis.foldl (fun imsis imsi => if imsi ∈ imsis then imsis else imsis ++ [imsi])
      bound).Nodup := by
  induction imsis generalizing bound with
  | nil => exact h
  | cons i imsis ih =>
    rw [List.foldl_cons]
    split
    · exact ih h
    · rename_i hmem
      exact ih (List.nodup_append.mpr ⟨h, List.nodup_singleton i, by
        intro a ha b hb
        rw [List.mem_singleton] at hb
        exact hb ▸ ne_of_mem_of_not_mem ha hmem⟩)

theorem mem_unbindImsis {imsis bound : List Imsi} (h : bound.Nodup) {imsi : Imsi} :
    imsi ∈ imsis.foldl (fun imsis imsi => imsis.erase imsi) bound ↔
      imsi ∈ bound ∧ imsi ∉ imsis := by
  induction imsis generalizing bound with
  | nil => simp
  | cons i imsis ih =>
    rw [List.foldl_cons, ih (h.erase i), h.mem_erase_iff, List.mem_cons, not_or]
    constructor
    · rintro ⟨⟨hne, hmem⟩, hnot⟩
      exact ⟨hmem, hne, hnot⟩
    · rintro ⟨hmem, hne, hnot⟩
      exact ⟨⟨hne, hmem⟩, hnot⟩

theorem nodup_unbindImsis {imsis bound : List Imsi} (h : bound.Nodup) :
    (imsis.foldl (fun imsis imsi => imsis.erase imsi) bound).Nodup := by
  induction imsis generalizing bound with
  | nil => exact h
  | cons i imsis ih => exact ih (h.erase i)

end Odss.Mac.Slicer

namespace Odss.Ric

open Odss.Lib Odss.Mac

/-! ### Texts -/

theorem convertImsis_cons (refuse : Octets → Bool) (text : Octets) (texts : List Octets) :
    convertImsis refuse (text :: texts) =
      if refuse text then some none
      else (stoul text).bind fun imsi =>
        (convertImsis refuse texts).bind fun imsis => some (imsis.map (imsi :: ·)) :=
  rfl

theorem convertImsis_eq_some {refuse : Octets → Bool} {texts : List Octets} {imsis : List Imsi}
    (h : convertImsis refuse texts = some (some imsis)) :
    (∀ text ∈ texts, refuse text = false) ∧ texts.map stoul = imsis.map some := by
  induction texts generalizing imsis with
  | nil =>
    cases h
    exact ⟨nofun, rfl⟩
  | cons text texts ih =>
    rw [convertImsis_cons] at h
    split at h
    · cases h
    · rename_i hrefuse
      simp only [Option.bind_eq_some_iff, Option.some.injEq, Option.map_eq_some_iff] at h
      obtain ⟨imsi, himsi, _, hrest, imsis', rfl, rfl⟩ := h
      obtain ⟨hnone, hmap⟩ := ih hrest
      refine ⟨List.forall_mem_cons.mpr ⟨by simpa using hrefuse, hnone⟩, ?_⟩
      rw [List.map_cons, himsi, hmap, List.map_cons]

/-- The conversion returns exactly when the IMSIs before the first refused one are numbers. -/
theorem convertImsis_defined_iff (refuse : Octets → Bool) (texts : List Octets) :
    (∃ r, convertImsis refuse texts = some r) ↔
      ∀ text ∈ texts.takeWhile fun text => !refuse text, ∃ imsi, stoul text = some imsi := by
  induction texts with
  | nil => exact ⟨fun _ => nofun, fun _ => ⟨_, rfl⟩⟩
  | cons text texts ih =>
    cases hrefuse : refuse text with
    | true => simp [convertImsis_cons, hrefuse]
    | false =>
      rw [List.takeWhile_cons_of_pos (by simp [hrefuse]), List.forall_mem_cons, ← ih]
      simp [convertImsis_cons, hrefuse, Option.bind_eq_some_iff]

theorem convertImsis_eq_none {refuse : Octets → Bool} {texts : List Octets} {text : Octets}
    (hmem : text ∈ texts) (hrefuse : refuse text = true)
    {r : Option (List Imsi)} (h : convertImsis refuse texts = some r) : r = none := by
  cases r with
  | none => rfl
  | some imsis =>
    have hno := (convertImsis_eq_some h).1 text hmem
    rw [hrefuse] at hno
    cases hno

theorem exists_of_convertImsis_eq_none {refuse : Octets → Bool} {texts : List Octets}
    (h : convertImsis refuse texts = some none) : ∃ text ∈ texts, refuse text = true := by
  induction texts with
  | nil => cases h
  | cons text texts ih =>
    rw [convertImsis_cons] at h
    split at h
    · rename_i hrefuse
      exact ⟨text, List.mem_cons_self, hrefuse⟩
    · simp only [Option.bind_eq_some_iff, Option.some.injEq, Option.map_eq_none_iff] at h
      obtain ⟨_, -, _, hrest, rfl⟩ := h
      obtain ⟨t, ht, hrefuse⟩ := ih hrest
      exact ⟨t, List.mem_cons_of_mem _ ht, hrefuse⟩

theorem mem_iff_stoul {texts : List Octets} {imsis : List Imsi}
    (h : texts.map stoul = imsis.map some) (imsi : Imsi) :
    imsi ∈ imsis ↔ ∃ text ∈ texts, stoul text = some imsi := by
  have hsome : some imsi ∈ imsis.map some ↔ imsi ∈ imsis := by simp
  rw [← hsome, ← h, List.mem_map]

namespace E2Node

variable {κ : Type} [LinearOrder κ]

/-! ### Mirrored tables -/

/-- The tables of the model and of the slicer list the same.

- `slices`: the same slices, with the same configurations;
- `listed`: the table of UEs has an entry for each slice, and no other;
- `bound`: the UEs of a slice in the model are those bound in the slicer. -/
structure Mirror (n : E2Node κ) : Prop where
  slices : ∀ name, n.model.slices.find? name = (n.slicer.slices.find? name).map Slice.config
  listed : ∀ name, n.model.ues.find? name = none ↔ n.slicer.slices.find? name = none
  bound : ∀ name slice, n.slicer.slices.find? name = some slice → ∀ imsi,
    imsi ∈ slice.imsiList ↔ ∃ text ∈ n.model.uesOf name, stoul text = some imsi

/-- What every request keeps: the slicer lists no IMSI twice, and the model lists numbers. -/
structure WellFormed (n : E2Node κ) : Prop where
  nodup : ∀ name slice, n.slicer.slices.find? name = some slice → slice.imsiList.Nodup
  numbers : ∀ name, ∀ text ∈ n.model.uesOf name, ∃ imsi, stoul text = some imsi

theorem lawfulBEq_octets : @LawfulBEq (List UInt8) List.instBEq := inferInstance

attribute [local instance] lawfulBEq_octets

/-- The condition on a request.

- A configuration leaves some slice with a share, and no slice that it names has a UE.
- A deletion is refused, or leaves some slice with a share.
- A binding is refused for its slice, or each IMSI before the first refused one is a number.
- An unbinding is refused, or the list of the slice has a first UE, the request names no other
  entry of the list, and it names the first one exactly when no other entry has its number. -/
def KeepsMirror (n : E2Node κ) (c : Control κ) : Prop :=
  match c.contents with
  | .missing => True
  | .unsupported => True
  | .request (.sliceConfig sliceConfigList) =>
    Slicer.HasShare (Slicer.configSlices n.slicer.slices
      (sliceConfigList.map fun sc => ⟨sc.1, UInt32.ofInt sc.2⟩)) ∧
    ∀ sc ∈ sliceConfigList, n.model.uesOf sc.1 = []
  | .request (.sliceDelete sliceNameList) =>
    (∃ name ∈ sliceNameList, n.model.slices.find? name = none) ∨
    Slicer.HasShare (sliceNameList.foldl OrdMap.erase n.slicer.slices)
  | .request (.sliceStatus _) => True
  | .request (.sliceUeBind sliceName imsiList) =>
    n.model.slices.find? sliceName = none ∨
    ∀ text ∈ imsiList.takeWhile (· ∉ n.model.uesOf sliceName), ∃ imsi, stoul text = some imsi
  | .request (.sliceUeUnbind sliceName imsiList) =>
    n.model.slices.find? sliceName = none ∨
    (∃ text ∈ imsiList, text ∉ n.model.uesOf sliceName) ∨
    ∃ first rest, n.model.uesOf sliceName = first :: rest ∧ (∀ text ∈ rest, text ∉ imsiList) ∧
      (imsiList ≠ [] ↔ ∀ text ∈ rest, stoul text ≠ stoul first)

theorem Mirror.congr {n n' : E2Node κ} (h : Mirror n) (hmodel : n'.model = n.model)
    (hslices : n'.slicer.slices = n.slicer.slices) : Mirror n' where
  slices := by rw [hmodel, hslices]; exact h.slices
  listed := by rw [hmodel, hslices]; exact h.listed
  bound := by rw [hmodel, hslices]; exact h.bound

theorem WellFormed.congr {n n' : E2Node κ} (h : WellFormed n) (hmodel : n'.model = n.model)
    (hslices : n'.slicer.slices = n.slicer.slices) : WellFormed n' where
  nodup := by rw [hslices]; exact h.nodup
  numbers := by rw [hmodel]; exact h.numbers

theorem Mirror.exists_slice {n : E2Node κ} (h : Mirror n) {name : κ}
    (hname : n.model.slices.contains name = true) :
    ∃ slice, n.slicer.slices.find? name = some slice := by
  obtain ⟨config, hconfig⟩ := (OrdMap.contains_iff _ _).mp hname
  rw [h.slices, Option.map_eq_some_iff] at hconfig
  obtain ⟨slice, hslice, -⟩ := hconfig
  exact ⟨slice, hslice⟩

/-- A new list of UEs for one slice on both sides. -/
theorem mirror_setUes {n : E2Node κ} (h : Mirror n) {name : κ} {slice : Slice κ}
    (hslice : n.slicer.slices.find? name = some slice) {slicer : Slicer κ} {imsis : List Imsi}
    {texts : List Octets}
    (hslicer : slicer.slices = n.slicer.slices.insert name { slice with imsiList := imsis }) :
    Mirror ⟨{ n.model with ues := n.model.ues.insert name texts }, slicer⟩ ↔
      ∀ imsi, imsi ∈ imsis ↔ ∃ text ∈ texts, stoul text = some imsi := by
  have hues : ∀ k, NexRan.uesOf { n.model with ues := n.model.ues.insert name texts } k =
      if k = name then texts else n.model.uesOf k := by
    intro k
    simp only [NexRan.uesOf, OrdMap.find?_insert]
    split <;> rfl
  constructor
  · intro h'
    have hbound := h'.bound name { slice with imsiList := imsis }
      (by rw [hslicer, OrdMap.find?_insert_self])
    simpa only [hues, if_true] using hbound
  · intro himsis
    refine ⟨fun k => ?_, fun k => ?_, fun k slice' hslice' => ?_⟩
    · rw [hslicer, OrdMap.find?_insert]
      split
      · rename_i heq
        show n.model.slices.find? k = _
        rw [heq, h.slices, hslice]
        rfl
      · exact h.slices k
    · show (n.model.ues.insert name texts).find? k = none ↔ slicer.slices.find? k = none
      rw [hslicer, OrdMap.find?_insert, OrdMap.find?_insert]
      split
      · simp
      · exact h.listed k
    · rw [hslicer, OrdMap.find?_insert] at hslice'
      simp only [hues]
      split at hslice'
      · rename_i heq
        cases hslice'
        rw [if_pos heq]
        exact himsis
      · rename_i hne
        rw [if_neg hne]
        exact h.bound k slice' hslice'

/-! ### Configuration and deletion -/

theorem uesOf_foldl_configSlice (configs : List (SliceConfig κ)) (m : NexRan κ) (name : κ) :
    (configs.foldl NexRan.configSlice m).uesOf name = m.uesOf name := by
  induction configs generalizing m with
  | nil => rfl
  | cons config configs ih =>
    rw [List.foldl_cons, ih]
    simp only [NexRan.configSlice, NexRan.uesOf]
    split
    · rfl
    · rename_i hnot
      rw [OrdMap.find?_insert]
      split
      · rename_i heq
        have hnone : m.ues.find? config.name = none := by
          simpa [OrdMap.contains] using hnot
        rw [heq, hnone]
        rfl
      · rfl

theorem configured (configs : List (SliceConfig κ)) {m : NexRan κ} {slices : OrdMap κ (Slice κ)}
    (hslices : ∀ name, m.slices.find? name = (slices.find? name).map Slice.config)
    (hlisted : ∀ name, m.ues.find? name = none ↔ slices.find? name = none) :
    (∀ name, (configs.foldl NexRan.configSlice m).slices.find? name =
      ((Slicer.configSlices slices configs).find? name).map Slice.config) ∧
    ∀ name, (configs.foldl NexRan.configSlice m).ues.find? name = none ↔
      (Slicer.configSlices slices configs).find? name = none := by
  induction configs generalizing m slices with
  | nil => exact ⟨hslices, hlisted⟩
  | cons config configs ih =>
    apply @ih (m.configSlice config) (slices.insert config.name ⟨config, []⟩)
    · intro name
      simp only [NexRan.configSlice, OrdMap.find?_insert]
      split
      · rfl
      · exact hslices name
    · intro name
      simp only [NexRan.configSlice]
      rw [OrdMap.find?_insert]
      by_cases hname : name = config.name
      · rw [if_pos hname, hname]
        split
        · rename_i hcontains
          obtain ⟨texts, htexts⟩ := (OrdMap.contains_iff _ _).mp hcontains
          simp [htexts]
        · simp
      · rw [if_neg hname, ← hlisted]
        split
        · rfl
        · rw [OrdMap.find?_insert_ne _ _ hname]

theorem sliceConfig_mirror_iff {n : E2Node κ} (hn : WellFormed n) (h : Mirror n)
    (scs : List (κ × Int)) :
    (∃ n' ok, n.handleRequest (.sliceConfig scs) = some (n', ok) ∧ Mirror n') ↔
      Slicer.HasShare (Slicer.configSlices n.slicer.slices
        (scs.map fun sc => ⟨sc.1, UInt32.ofInt sc.2⟩)) ∧ ∀ sc ∈ scs, n.model.uesOf sc.1 = [] := by
  set configs : List (SliceConfig κ) := scs.map fun sc => ⟨sc.1, UInt32.ofInt sc.2⟩ with hconfigs
  have hues : (∀ sc ∈ scs, n.model.uesOf sc.1 = []) ↔
      ∀ config ∈ configs, n.model.uesOf config.name = [] := by
    rw [hconfigs, List.forall_mem_map]
  have hboth := configured configs h.slices h.listed
  -- The mirror of the configured tables is only about the UEs of the configured slices.
  have hmirror : ∀ slicer : Slicer κ,
      slicer.slices = Slicer.configSlices n.slicer.slices configs →
      (Mirror ⟨configs.foldl NexRan.configSlice n.model, slicer⟩ ↔
        ∀ config ∈ configs, n.model.uesOf config.name = []) := by
    intro slicer hslicer
    constructor
    · intro h' config hconfig
      rcases Slicer.find?_configSlices configs n.slicer.slices config.name with
        ⟨_, -, -, slice, hslice, hnil⟩ | ⟨hne, -⟩
      · have hbound := h'.bound config.name slice (by rw [hslicer]; exact hslice)
        rw [hnil, uesOf_foldl_configSlice] at hbound
        apply List.eq_nil_iff_forall_not_mem.mpr
        intro text htext
        obtain ⟨imsi, himsi⟩ := hn.numbers config.name text htext
        exact nomatch (hbound imsi).mpr ⟨text, htext, himsi⟩
      · exact absurd rfl (hne config hconfig)
    · intro hnil
      refine ⟨by rw [hslicer]; exact hboth.1, by rw [hslicer]; exact hboth.2, ?_⟩
      intro name slice hslice imsi
      have hslice : slicer.slices.find? name = some slice := hslice
      rw [hslicer] at hslice
      show imsi ∈ slice.imsiList ↔
        ∃ text ∈ (configs.foldl NexRan.configSlice n.model).uesOf name, stoul text = some imsi
      rw [uesOf_foldl_configSlice]
      rcases Slicer.find?_configSlices configs n.slicer.slices name with
        ⟨config, hconfig, rfl, slice', hslice', hempty⟩ | ⟨-, heq⟩
      · rw [hslice] at hslice'
        cases hslice'
        rw [hempty, hnil config hconfig]
        simp
      · exact h.bound name slice (heq.symm.trans hslice) imsi
  rw [hues, ← Slicer.updSfAlloc_defined_iff
    { n.slicer with slices := Slicer.configSlices n.slicer.slices configs }]
  simp only [handleRequest, ← hconfigs, Slicer.sliceConfig, Option.bind_eq_bind, Option.pure_def]
  constructor
  · rintro ⟨n', ok, hcall, hm⟩
    simp only [Option.bind_eq_some_iff, Option.some.injEq, Prod.mk.injEq] at hcall
    obtain ⟨_, ⟨slicer, hslicer, rfl⟩, rfl, -⟩ := hcall
    exact ⟨⟨slicer, hslicer⟩, (hmirror slicer (Slicer.slices_updSfAlloc hslicer)).mp hm⟩
  · rintro ⟨⟨slicer, hslicer⟩, hnil⟩
    refine ⟨⟨configs.foldl NexRan.configSlice n.model, slicer⟩, true, by simp [hslicer], ?_⟩
    exact (hmirror slicer (Slicer.slices_updSfAlloc hslicer)).mpr hnil

theorem foldl_deleteSlice (names : List κ) (m : NexRan κ) :
    names.foldl NexRan.deleteSlice m =
      ⟨names.foldl OrdMap.erase m.slices, names.foldl OrdMap.erase m.ues⟩ := by
  induction names generalizing m with
  | nil => rfl
  | cons name names ih => exact ih _

theorem mirror_delete {n : E2Node κ} (h : Mirror n) (names : List κ) {slicer : Slicer κ}
    (hslicer : slicer.slices = names.foldl OrdMap.erase n.slicer.slices) :
    Mirror ⟨names.foldl NexRan.deleteSlice n.model, slicer⟩ := by
  rw [foldl_deleteSlice]
  refine ⟨fun name => ?_, fun name => ?_, fun name slice hslice imsi => ?_⟩
  · show (names.foldl OrdMap.erase n.model.slices).find? name = _
    rw [hslicer, OrdMap.find?_foldl_erase, OrdMap.find?_foldl_erase]
    split
    · rfl
    · exact h.slices name
  · show (names.foldl OrdMap.erase n.model.ues).find? name = none ↔ _
    rw [hslicer, OrdMap.find?_foldl_erase, OrdMap.find?_foldl_erase]
    split
    · simp
    · exact h.listed name
  · rw [hslicer, OrdMap.find?_foldl_erase] at hslice
    show imsi ∈ slice.imsiList ↔
      ∃ text ∈ ((names.foldl OrdMap.erase n.model.ues).find? name).getD [], stoul text = some imsi
    rw [OrdMap.find?_foldl_erase]
    split at hslice
    · cases hslice
    · rename_i hnot
      rw [if_neg hnot]
      exact h.bound name slice hslice imsi

theorem sliceDelete_mirror_iff {n : E2Node κ} (h : Mirror n) (names : List κ) :
    (∃ n' ok, n.handleRequest (.sliceDelete names) = some (n', ok) ∧ Mirror n') ↔
      (∃ name ∈ names, n.model.slices.find? name = none) ∨
      Slicer.HasShare (names.foldl OrdMap.erase n.slicer.slices) := by
  have hany : (names.any fun name => !n.model.slices.contains name) = true ↔
      ∃ name ∈ names, n.model.slices.find? name = none := by
    simp [OrdMap.contains]
  by_cases hrefused : (names.any fun name => !n.model.slices.contains name) = true
  · refine iff_of_true ⟨n, false, ?_, h⟩ (Or.inl (hany.mp hrefused))
    simp only [handleRequest, hrefused, if_true]
  · rw [or_iff_right (mt hany.mpr hrefused)]
    set deleted := names.foldl
      (fun s name =>
        if s.slices.contains name then
          { s with
            slices := s.slices.erase name
            sliceToCrntiVec := s.sliceToCrntiVec.erase name }
        else s) n.slicer with hdeleted
    have hslices : deleted.slices = names.foldl OrdMap.erase n.slicer.slices :=
      (Slicer.foldl_delete names n.slicer).1
    rw [← hslices, ← Slicer.updSfAlloc_defined_iff deleted]
    simp only [handleRequest, hrefused, Slicer.sliceDelete, Bool.false_eq_true, if_false,
      Option.bind_eq_bind, Option.pure_def, ← hdeleted]
    constructor
    · rintro ⟨n', ok, hcall, -⟩
      simp only [Option.bind_eq_some_iff] at hcall
      obtain ⟨_, ⟨slicer, hslicer, -⟩, -⟩ := hcall
      exact ⟨slicer, hslicer⟩
    · rintro ⟨slicer, hslicer⟩
      refine ⟨⟨names.foldl NexRan.deleteSlice n.model, slicer⟩, true, by simp [hslicer], ?_⟩
      exact mirror_delete h names ((Slicer.slices_updSfAlloc hslicer).trans hslices)

/-! ### Binding and unbinding -/

theorem sliceUeBind_mirror_iff {n : E2Node κ} (h : Mirror n) (name : κ) (texts : List Octets) :
    (∃ n' ok, n.handleRequest (.sliceUeBind name texts) = some (n', ok) ∧ Mirror n') ↔
      n.model.slices.find? name = none ∨
      ∀ text ∈ texts.takeWhile (· ∉ n.model.uesOf name), ∃ imsi, stoul text = some imsi := by
  cases hname : n.model.slices.contains name with
  | false =>
    have hnone : n.model.slices.find? name = none := by
      simpa [OrdMap.contains] using hname
    refine iff_of_true ⟨n, false, ?_, h⟩ (Or.inl hnone)
    simp [handleRequest, hname]
  | true =>
    obtain ⟨slice, hslice⟩ := h.exists_slice hname
    have hne : n.model.slices.find? name ≠ none := by
      rw [h.slices, hslice]
      simp
    have hdefined := convertImsis_defined_iff (fun text => text ∈ n.model.uesOf name) texts
    simp only [← decide_not] at hdefined
    rw [or_iff_right hne, ← hdefined]
    simp only [handleRequest, hname, Bool.not_true, Bool.false_eq_true, if_false,
      Option.bind_eq_bind, Option.pure_def]
    constructor
    · rintro ⟨n', ok, hcall, -⟩
      simp only [Option.bind_eq_some_iff] at hcall
      obtain ⟨r, hr, -⟩ := hcall
      exact ⟨r, hr⟩
    · rintro ⟨r, hr⟩
      cases r with
      | none => exact ⟨n, false, by simp [hr], h⟩
      | some imsis =>
        have hmap := (convertImsis_eq_some hr).2
        refine ⟨_, true, by rw [hr]; rfl, ?_⟩
        refine (mirror_setUes h hslice (by simp only [Slicer.sliceUeBind, hslice]; rfl)).mpr ?_
        intro imsi
        rw [Slicer.mem_bindImsis, h.bound name slice hslice, mem_iff_stoul hmap]
        simp only [List.mem_append, or_and_right, exists_or]

/-- What the model's loop leaves is what the slicer leaves exactly when the first UE, and only it,
is unbound. -/
theorem unbound_iff {bound : List Imsi} (hnodup : bound.Nodup) {first : Octets}
    {rest texts : List Octets} {imsis : List Imsi}
    (hbound : ∀ imsi, imsi ∈ bound ↔ ∃ text ∈ first :: rest, stoul text = some imsi)
    (hmap : texts.map stoul = imsis.map some) (hin : ∀ text ∈ texts, text ∈ first :: rest)
    (hrest : ∀ text ∈ rest, text ∉ texts) (hfirst : ∃ imsi, stoul first = some imsi) :
    (∀ imsi, imsi ∈ imsis.foldl (fun imsis imsi => imsis.erase imsi) bound ↔
      ∃ text ∈ rest, stoul text = some imsi) ↔
    (texts ≠ [] ↔ ∀ text ∈ rest, stoul text ≠ stoul first) := by
  obtain ⟨i, hi⟩ := hfirst
  have hall : ∀ text ∈ texts, text = first := by
    intro text htext
    rcases List.mem_cons.mp (hin text htext) with heq | hmem
    · exact heq
    · exact absurd htext (hrest text hmem)
  have himsis : ∀ imsi, imsi ∈ imsis ↔ texts ≠ [] ∧ imsi = i := by
    intro imsi
    rw [mem_iff_stoul hmap]
    constructor
    · rintro ⟨text, htext, hsome⟩
      rw [hall text htext, hi] at hsome
      cases hsome
      exact ⟨List.ne_nil_of_mem htext, rfl⟩
    · rintro ⟨hne, rfl⟩
      obtain ⟨text, htext⟩ := List.exists_mem_of_ne_nil texts hne
      exact ⟨text, htext, by rw [hall text htext, hi]⟩
  have hleft : ∀ imsi, imsi ∈ imsis.foldl (fun imsis imsi => imsis.erase imsi) bound ↔
      (imsi = i ∨ ∃ text ∈ rest, stoul text = some imsi) ∧ ¬ (texts ≠ [] ∧ imsi = i) := by
    intro imsi
    rw [Slicer.mem_unbindImsis hnodup, hbound, himsis, List.exists_mem_cons_iff, hi,
      Option.some.injEq, eq_comm (a := i)]
  constructor
  · intro h
    have hat := (h i).symm.trans (hleft i)
    rw [hi]
    constructor
    · intro hne text htext hsome
      exact (hat.mp ⟨text, htext, hsome⟩).2 ⟨hne, rfl⟩
    · intro hno hnil
      obtain ⟨text, htext, hsome⟩ := hat.mpr ⟨Or.inl rfl, fun h => h.1 hnil⟩
      exact hno text htext hsome
  · intro h imsi
    rw [hleft]
    by_cases hne : texts = []
    · -- Nothing is unbound, and the erased entry had a second one of its number.
      have hsecond : ∃ text ∈ rest, stoul text = some i := by
        by_contra hno
        push Not at hno
        exact absurd hne (h.mpr (by rw [hi]; exact hno))
      constructor
      · rintro ⟨rfl | hmem, -⟩
        · exact hsecond
        · exact hmem
      · intro hmem
        exact ⟨Or.inr hmem, fun h => h.1 hne⟩
    · have hother := h.mp hne
      constructor
      · rintro ⟨rfl | hmem, hnot⟩
        · exact absurd ⟨hne, rfl⟩ hnot
        · exact hmem
      · intro hmem
        refine ⟨Or.inr hmem, ?_⟩
        rintro ⟨-, rfl⟩
        obtain ⟨text, htext, hsome⟩ := hmem
        exact hother text htext (hsome.trans hi.symm)

theorem sliceUeUnbind_mirror_iff {n : E2Node κ} (hn : WellFormed n) (h : Mirror n) (name : κ)
    (texts : List Octets) :
    (∃ n' ok, n.handleRequest (.sliceUeUnbind name texts) = some (n', ok) ∧ Mirror n') ↔
      n.model.slices.find? name = none ∨ (∃ text ∈ texts, text ∉ n.model.uesOf name) ∨
      ∃ first rest, n.model.uesOf name = first :: rest ∧ (∀ text ∈ rest, text ∉ texts) ∧
        (texts ≠ [] ↔ ∀ text ∈ rest, stoul text ≠ stoul first) := by
  cases hname : n.model.slices.contains name with
  | false =>
    have hnone : n.model.slices.find? name = none := by
      simpa [OrdMap.contains] using hname
    refine iff_of_true ⟨n, false, ?_, h⟩ (Or.inl hnone)
    simp [handleRequest, hname]
  | true =>
    obtain ⟨slice, hslice⟩ := h.exists_slice hname
    have hne : n.model.slices.find? name ≠ none := by
      rw [h.slices, hslice]
      simp
    -- The IMSIs before a refused one are listed, and so they are numbers.
    have hdefined : ∃ r, convertImsis (fun text => text ∉ n.model.uesOf name) texts = some r := by
      apply (convertImsis_defined_iff _ _).mpr
      intro text htext
      have hmem := List.mem_takeWhile_imp htext
      exact hn.numbers name text (by simpa using hmem)
    obtain ⟨r, hr⟩ := hdefined
    rw [or_iff_right hne]
    simp only [handleRequest, hname, Bool.not_true, Bool.false_eq_true, if_false,
      Option.bind_eq_bind, Option.pure_def, hr, Option.bind_some]
    by_cases hrefused : ∃ text ∈ texts, text ∉ n.model.uesOf name
    · obtain ⟨text, htext, hnot⟩ := hrefused
      have hnone := convertImsis_eq_none htext (by simpa using hnot) hr
      subst hnone
      exact iff_of_true ⟨n, false, rfl, h⟩ (Or.inl ⟨text, htext, hnot⟩)
    · rw [or_iff_right hrefused]
      push Not at hrefused
      cases r with
      | none =>
        obtain ⟨text, htext, hrefuse⟩ := exists_of_convertImsis_eq_none hr
        exact absurd (hrefused text htext) (by simpa using hrefuse)
      | some imsis =>
        have hmap := (convertImsis_eq_some hr).2
        have hues := hn.numbers name
        have hbound := h.bound name slice hslice
        cases hlist : n.model.uesOf name with
        | nil => simp [eraseUnbound]
        | cons first rest =>
          rw [hlist] at hrefused hues hbound
          by_cases hrest : ∀ text ∈ rest, text ∉ texts
          · have hany : (rest.any (· ∈ texts)) = false := by
              simpa using hrest
            have hslicer : (n.slicer.sliceUeUnbind name imsis).1.slices =
                n.slicer.slices.insert name { slice with
                  imsiList := imsis.foldl (fun imsis imsi => imsis.erase imsi) slice.imsiList } := by
              simp only [Slicer.sliceUeUnbind, hslice]
              rfl
            have hiff := (mirror_setUes h hslice hslicer).trans
              (unbound_iff (hn.nodup name slice hslice) hbound hmap hrefused hrest
                (hues first List.mem_cons_self))
            constructor
            · rintro ⟨n', ok, hcall, hm⟩
              simp only [eraseUnbound, hany, Bool.false_eq_true, if_false, Option.bind_some,
                Option.some.injEq, Prod.mk.injEq] at hcall
              obtain ⟨rfl, -⟩ := hcall
              exact ⟨first, rest, rfl, hrest, hiff.mp hm⟩
            · rintro ⟨first', rest', heq, -, hnamed⟩
              cases heq
              refine ⟨_, true, ?_, hiff.mpr hnamed⟩
              simp [eraseUnbound, hany]
          · have hany : (rest.any (· ∈ texts)) = true := by
              simpa using hrest
            refine iff_of_false ?_ ?_
            · simp [eraseUnbound, hany]
            · rintro ⟨first', rest', heq, hno, -⟩
              cases heq
              exact hrest hno

/-! ### What every request keeps -/

theorem wellFormed_setUes {n : E2Node κ} (h : WellFormed n) (name : κ) {slicer : Slicer κ}
    {texts : List Octets}
    (hnodup : ∀ k slice, slicer.slices.find? k = some slice → slice.imsiList.Nodup)
    (htexts : ∀ text ∈ texts, ∃ imsi, stoul text = some imsi) :
    WellFormed ⟨{ n.model with ues := n.model.ues.insert name texts }, slicer⟩ where
  nodup := hnodup
  numbers := by
    intro k text htext
    have htext : text ∈ ((n.model.ues.insert name texts).find? k).getD [] := htext
    rw [OrdMap.find?_insert] at htext
    split at htext
    · exact htexts text htext
    · exact h.numbers k text htext

theorem nodup_insert {slices : OrdMap κ (Slice κ)} {name : κ} {slice : Slice κ}
    (h : ∀ k slice, slices.find? k = some slice → slice.imsiList.Nodup)
    (hslice : slice.imsiList.Nodup) :
    ∀ k slice', (slices.insert name slice).find? k = some slice' → slice'.imsiList.Nodup := by
  intro k slice' hslice'
  rw [OrdMap.find?_insert] at hslice'
  split at hslice'
  · cases hslice'
    exact hslice
  · exact h k slice' hslice'

/-- What a request does when it is not refused. -/
inductive Served (n : E2Node κ) : Request κ → E2Node κ → Prop where
  | sliceConfig {scs r}
    (h : n.slicer.sliceConfig (scs.map fun sc => (⟨sc.1, UInt32.ofInt sc.2⟩ : SliceConfig κ))
      = some r) :
    Served n (.sliceConfig scs)
      ⟨(scs.map fun sc => (⟨sc.1, UInt32.ofInt sc.2⟩ : SliceConfig κ)).foldl NexRan.configSlice
        n.model, r.1⟩
  | sliceDelete {names r} (h : n.slicer.sliceDelete names = some r) :
    Served n (.sliceDelete names) ⟨names.foldl NexRan.deleteSlice n.model, r.1⟩
  | sliceStatus (names) :
    Served n (.sliceStatus names) { n with slicer := (n.slicer.sliceStatus names).1 }
  | sliceUeBind {name texts imsis}
    (h : convertImsis (fun text => text ∈ n.model.uesOf name) texts = some (some imsis)) :
    Served n (.sliceUeBind name texts)
      ⟨{ n.model with ues := n.model.ues.insert name (n.model.uesOf name ++ texts) },
        (n.slicer.sliceUeBind name imsis).1⟩
  | sliceUeUnbind {name texts imsis rest}
    (h : convertImsis (fun text => text ∉ n.model.uesOf name) texts = some (some imsis))
    (hrest : eraseUnbound texts (n.model.uesOf name) = some rest) :
    Served n (.sliceUeUnbind name texts)
      ⟨{ n.model with ues := n.model.ues.insert name rest }, (n.slicer.sliceUeUnbind name imsis).1⟩

/-- A request is refused, and the tables stay, or it is served. -/
theorem handleRequest_cases {n n' : E2Node κ} {r : Request κ} {ok : Bool}
    (hcall : n.handleRequest r = some (n', ok)) :
    (ok = false ∧ n' = n) ∨ (ok = true ∧ Served n r n') := by
  cases r with
  | sliceConfig scs =>
    obtain ⟨r, hr, heq⟩ := Option.bind_eq_some_iff.mp hcall
    cases heq
    exact .inr ⟨rfl, .sliceConfig hr⟩
  | sliceDelete names =>
    simp only [handleRequest] at hcall
    split at hcall
    · cases hcall
      exact .inl ⟨rfl, rfl⟩
    · obtain ⟨r, hr, heq⟩ := Option.bind_eq_some_iff.mp hcall
      cases heq
      exact .inr ⟨rfl, .sliceDelete hr⟩
  | sliceStatus names =>
    cases hcall
    exact .inr ⟨rfl, .sliceStatus names⟩
  | sliceUeBind name texts =>
    simp only [handleRequest] at hcall
    split at hcall
    · cases hcall
      exact .inl ⟨rfl, rfl⟩
    · obtain ⟨r, hr, hcall⟩ := Option.bind_eq_some_iff.mp hcall
      cases r with
      | none =>
        cases hcall
        exact .inl ⟨rfl, rfl⟩
      | some imsis =>
        cases hcall
        exact .inr ⟨rfl, .sliceUeBind hr⟩
  | sliceUeUnbind name texts =>
    simp only [handleRequest] at hcall
    split at hcall
    · cases hcall
      exact .inl ⟨rfl, rfl⟩
    · obtain ⟨r, hr, hcall⟩ := Option.bind_eq_some_iff.mp hcall
      cases r with
      | none =>
        cases hcall
        exact .inl ⟨rfl, rfl⟩
      | some imsis =>
        obtain ⟨rest, hrest, heq⟩ := Option.bind_eq_some_iff.mp hcall
        cases heq
        exact .inr ⟨rfl, .sliceUeUnbind hr hrest⟩

theorem Served.wellFormed {n n' : E2Node κ} {r : Request κ} (h : WellFormed n)
    (hserved : Served n r n') : WellFormed n' := by
  cases hserved with
  | @sliceConfig scs r hr =>
    obtain ⟨slicer, hslicer, heq⟩ := Option.bind_eq_some_iff.mp hr
    cases heq
    refine ⟨fun name slice hslice => ?_, fun name text htext => ?_⟩
    · rw [Slicer.slices_updSfAlloc hslicer] at hslice
      rcases Slicer.find?_configSlices
        (scs.map fun sc => (⟨sc.1, UInt32.ofInt sc.2⟩ : SliceConfig κ)) n.slicer.slices name with
        ⟨_, -, -, slice', hslice', hnil⟩ | ⟨-, heq⟩
      · have heq := hslice.symm.trans hslice'
        cases heq
        rw [hnil]
        exact List.nodup_nil
      · exact h.nodup name slice (heq.symm.trans hslice)
    · rw [uesOf_foldl_configSlice] at htext
      exact h.numbers name text htext
  | @sliceDelete names r hr =>
    obtain ⟨slicer, hslicer, heq⟩ := Option.bind_eq_some_iff.mp hr
    cases heq
    refine ⟨fun name slice hslice => ?_, fun name text htext => ?_⟩
    · rw [Slicer.slices_updSfAlloc hslicer, (Slicer.foldl_delete names n.slicer).1,
        OrdMap.find?_foldl_erase] at hslice
      split at hslice
      · cases hslice
      · exact h.nodup name slice hslice
    · have htext : text ∈ ((names.foldl NexRan.deleteSlice n.model).ues.find? name).getD [] :=
        htext
      rw [foldl_deleteSlice, OrdMap.find?_foldl_erase] at htext
      split at htext
      · cases htext
      · exact h.numbers name text htext
  | sliceStatus names => exact h.congr rfl rfl
  | @sliceUeBind name texts imsis hr =>
    apply wellFormed_setUes h
    · simp only [Slicer.sliceUeBind]
      split
      · exact h.nodup
      · rename_i slice hslice
        apply nodup_insert h.nodup
        exact Slicer.nodup_bindImsis (h.nodup name slice hslice)
    · intro text htext
      rcases List.mem_append.mp htext with hold | hnew
      · exact h.numbers name text hold
      · have hmem : stoul text ∈ imsis.map some := by
          rw [← (convertImsis_eq_some hr).2]
          exact List.mem_map_of_mem hnew
        obtain ⟨imsi, -, himsi⟩ := List.mem_map.mp hmem
        exact ⟨imsi, himsi.symm⟩
  | @sliceUeUnbind name texts imsis rest hr hrest =>
    apply wellFormed_setUes h
    · simp only [Slicer.sliceUeUnbind]
      split
      · exact h.nodup
      · rename_i slice hslice
        apply nodup_insert h.nodup
        exact Slicer.nodup_unbindImsis (h.nodup name slice hslice)
    · intro text htext
      apply h.numbers name
      -- What is left is part of the list.
      cases hlist : n.model.uesOf name with
      | nil =>
        rw [hlist] at hrest
        cases hrest
      | cons first rest' =>
        rw [hlist] at hrest
        simp only [eraseUnbound] at hrest
        split at hrest
        · cases hrest
        · cases hrest
          exact List.mem_cons_of_mem _ htext

theorem wellFormed_handleRequest {n n' : E2Node κ} {r : Request κ} {ok : Bool} (h : WellFormed n)
    (hcall : n.handleRequest r = some (n', ok)) : WellFormed n' := by
  rcases handleRequest_cases hcall with ⟨-, rfl⟩ | ⟨-, hserved⟩
  · exact h
  · exact hserved.wellFormed h

theorem handleRequest_refused {n n' : E2Node κ} {r : Request κ}
    (hcall : n.handleRequest r = some (n', false)) : n' = n :=
  (handleRequest_cases hcall).elim And.right fun h => nomatch h.1

/-! ### Runs -/

/-- A control request leaves the tables as its `switch` leaves them. -/
theorem handleControl_request_cases {n n' : E2Node κ} {c : Control κ} {r : Request κ}
    {a : Answer κ} (hc : c.contents = .request r) (h : n.handleControl c = some (n', a)) :
    ∃ n₁ ok, n.handleRequest r = some (n₁, ok) ∧ n'.model = n₁.model ∧
      n'.slicer.slices = n₁.slicer.slices ∧ (ok = false → n' = n₁) ∧
      ∀ cause detail, a = .failure cause detail → ok = false := by
  simp only [handleControl, hc, Option.bind_eq_bind, Option.bind_eq_some_iff,
    Option.pure_def] at h
  obtain ⟨⟨n₁, ok⟩, hr, h⟩ := h
  refine ⟨n₁, ok, hr, ?_⟩
  cases ok with
  | false =>
    cases h
    exact ⟨rfl, rfl, fun _ => rfl, fun _ _ _ => rfl⟩
  | true =>
    simp only [Bool.not_true, Bool.false_eq_true, if_false] at h
    split at h
    · cases h
      refine ⟨rfl, rfl, nofun, fun cause detail ha => ?_⟩
      split at ha <;> cases ha
    · cases h
      exact ⟨rfl, rfl, nofun, nofun⟩

/-- A control request returns and keeps the mirror exactly when its `switch` does. -/
theorem handleControl_mirror_iff {n : E2Node κ} {c : Control κ} {r : Request κ}
    (hc : c.contents = .request r) :
    (∃ n' a, n.handleControl c = some (n', a) ∧ Mirror n') ↔
      ∃ n' ok, n.handleRequest r = some (n', ok) ∧ Mirror n' := by
  constructor
  · rintro ⟨n', a, h, hm⟩
    obtain ⟨n₁, ok, hr, hmodel, hslices, -⟩ := handleControl_request_cases hc h
    exact ⟨n₁, ok, hr, hm.congr hmodel.symm hslices.symm⟩
  · rintro ⟨n₁, ok, hr, hm⟩
    have hdefined : ∃ n' a, n.handleControl c = some (n', a) := by
      simp only [handleControl, hc, hr, Option.bind_eq_bind, Option.bind_some]
      split
      · exact ⟨_, _, rfl⟩
      · split <;> exact ⟨_, _, rfl⟩
    obtain ⟨n', a, h⟩ := hdefined
    obtain ⟨n₂, ok₂, hr₂, hmodel, hslices, -⟩ := handleControl_request_cases hc h
    rw [hr] at hr₂
    cases hr₂
    exact ⟨n', a, h, hm.congr hmodel hslices⟩

/-- One control request: it returns and keeps the mirror exactly under the condition. -/
theorem handleControl_iff_keepsMirror (n : E2Node κ) (c : Control κ) (hn : WellFormed n)
    (h : Mirror n) :
    (∃ n' a, n.handleControl c = some (n', a) ∧ Mirror n') ↔ KeepsMirror n c := by
  cases hc : c.contents with
  | missing =>
    simp only [handleControl, KeepsMirror, hc]
    exact iff_of_true ⟨n, _, rfl, h⟩ trivial
  | unsupported =>
    simp only [handleControl, KeepsMirror, hc]
    exact iff_of_true ⟨n, _, rfl, h⟩ trivial
  | request r =>
    rw [handleControl_mirror_iff hc]
    simp only [KeepsMirror, hc]
    cases r with
    | sliceConfig scs => exact sliceConfig_mirror_iff hn h scs
    | sliceDelete names => exact sliceDelete_mirror_iff h names
    | sliceStatus names => exact iff_of_true ⟨_, true, rfl, h.congr rfl rfl⟩ trivial
    | sliceUeBind name texts => exact sliceUeBind_mirror_iff h name texts
    | sliceUeUnbind name texts => exact sliceUeUnbind_mirror_iff hn h name texts

theorem wellFormed_handleControl (n : E2Node κ) (c : Control κ) (n' : E2Node κ) (a : Answer κ)
    (hn : WellFormed n) (h : n.handleControl c = some (n', a)) : WellFormed n' := by
  cases hc : c.contents with
  | missing =>
    simp only [handleControl, hc] at h
    cases h
    exact hn
  | unsupported =>
    simp only [handleControl, hc] at h
    cases h
    exact hn
  | request r =>
    obtain ⟨n₁, ok, hr, hmodel, hslices, -⟩ := handleControl_request_cases hc h
    exact (wellFormed_handleRequest hn hr).congr hmodel hslices

/-- A request that is answered with failure changes neither side. -/
theorem handleControl_failure {n n' : E2Node κ} {c : Control κ} {cause detail : Nat}
    (h : n.handleControl c = some (n', .failure cause detail)) : n' = n := by
  cases hc : c.contents with
  | missing =>
    simp only [handleControl, hc, Option.some.injEq, Prod.mk.injEq] at h
    exact h.1.symm
  | unsupported =>
    simp only [handleControl, hc, Option.some.injEq, Prod.mk.injEq] at h
    exact h.1.symm
  | request r =>
    obtain ⟨n₁, ok, hr, -, -, hsame, hfailure⟩ := handleControl_request_cases hc h
    have hok := hfailure cause detail rfl
    subst hok
    exact (hsame rfl).trans (handleRequest_refused hr)

/-- The service model mirrors the slicer over a run of control requests.

- `defined`: each request returns;
- `mirrored`: after each request, both sides list the same;
- `refused`: a request that is answered with failure changes neither side. -/
structure Mirrors (slicedUnslicedRatio : UInt32) (cs : List (Control κ)) : Prop where
  defined : ∃ n as, run handleControl (init slicedUnslicedRatio) cs = some (n, as)
  mirrored : AlongRun handleControl Mirror (init slicedUnslicedRatio) cs
  refused : ∀ pre c post, cs = pre ++ c :: post → ∀ n as n' cause detail,
    run handleControl (init slicedUnslicedRatio) pre = some (n, as) →
    n.handleControl c = some (n', .failure cause detail) → n' = n

theorem mirror_init (slicedUnslicedRatio : UInt32) :
    Mirror (init slicedUnslicedRatio : E2Node κ) where
  slices := fun _ => rfl
  listed := fun _ => iff_of_true rfl rfl
  bound := nofun

theorem wellFormed_init (slicedUnslicedRatio : UInt32) :
    WellFormed (init slicedUnslicedRatio : E2Node κ) where
  nodup := nofun
  numbers := fun _ _ h => nomatch h

/-- The service model mirrors the slicer over a run exactly when every request meets the
condition. -/
theorem mirrors_iff_within (slicedUnslicedRatio : UInt32) (cs : List (Control κ)) :
    Mirrors slicedUnslicedRatio cs ↔
      StepsWithin handleControl KeepsMirror (init slicedUnslicedRatio) cs := by
  rw [← total_alongRun_iff_within WellFormed Mirror wellFormed_handleControl
    (fun n c hn h => handleControl_iff_keepsMirror n c hn h) cs _ (wellFormed_init _)
    (mirror_init _)]
  constructor
  · intro h
    exact ⟨h.defined, h.mirrored⟩
  · intro h
    exact ⟨h.1, h.2, fun _ _ _ _ _ _ _ _ _ _ hfailure => handleControl_failure hfailure⟩

/-- A slice with a bound UE that is configured again loses it in the slicer only. The text of the
IMSI is `"7"`. -/
theorem not_mirrors_sliceConfig_again : ¬ Mirrors 20
    [⟨.request (.sliceConfig [("a", 1)]), true, true⟩,
      ⟨.request (.sliceUeBind "a" [[55]]), true, true⟩,
      ⟨.request (.sliceConfig [("a", 1)]), true, true⟩] := by
  intro h
  have hmirror := h.mirrored _ [] (List.append_nil _).symm _ _ rfl
  exact nomatch (hmirror.bound "a" ⟨⟨"a", 1⟩, []⟩ rfl 7).mpr ⟨[55], List.mem_cons_self, rfl⟩

end E2Node

end Odss.Ric
